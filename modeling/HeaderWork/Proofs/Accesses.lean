import HeaderWork.Bytes.Run
import HeaderWork.Proofs.Canonical
import HeaderWork.Proofs.Digits
import Mathlib.Algebra.BigOperators.Ring.Finset

/-!
# Runs of accesses

Whatever is asked of a buffer, and in whatever order, every access finds the buffer at its full
length, and all that can have happened to a byte is that it has become zero.

* `Access.span?`, `Access.Within` — the span that an access asks for; it ends inside the buffer.
* `Access.value`, `Access.effect` — what an access answers and leaves behind when it succeeds, byte by
  byte.
* `Bytes.number` — the number that bytes spell, as a sum; `number_four` — four bytes are two words.
* `Access.run_eq` — one access: value and effect, or the error that names its span.
* `zeroSpans`, `buffer_runAll` — the writes of a run that succeed, and the buffer that they leave.
* `accesses_are_exact` — answers, bytes and order of a run.
-/

namespace HeaderWork.Bytes

/-! ## Numbers as sums -/

/-- The number that `n` bytes from `start` on spell, byte `k` counting `256 ^ k` times. -/
def number (n : Nat) (b : Bytes) (start : Nat) : Nat :=
  ∑ k ∈ Finset.range n, (b.byteAt (start + k)).toNat * 256 ^ k

theorem value_eq_sum (b : Bytes) :
    LittleEndian.value b = ∑ k ∈ Finset.range b.length, (b.byteAt k).toNat * 256 ^ k := by
  induction b with
  | nil => rfl
  | cons x rest ih =>
      have hhead : byteAt (x :: rest) 0 = x := rfl
      have htail : ∀ k, byteAt (x :: rest) (k + 1) = byteAt rest k := fun _ => rfl
      rw [LittleEndian.value, ih, List.length_cons, Finset.sum_range_succ', Finset.mul_sum, hhead,
        Nat.pow_zero, Nat.mul_one, Nat.add_comm]
      congr 1
      apply Finset.sum_congr rfl
      intro k _
      rw [htail, Nat.pow_succ]
      ac_rfl

theorem value_window (n : Nat) (b : Bytes) (start : Nat) :
    LittleEndian.value (b.window n start).toList = b.number n start := by
  rw [value_eq_sum, number, Vector.length_toList]
  apply Finset.sum_congr rfl
  intro k hk
  have hk : k < n := Finset.mem_range.1 hk
  rw [byteAt, Vector.getElem?_toList, Vector.getElem?_eq_getElem hk, Option.getD_some,
    getElem_window]

/-- **Four bytes spell two words**, the higher one counting 65536 times. -/
theorem number_four (b : Bytes) (start : Nat) :
    b.number 4 start = b.number 2 start + 65536 * b.number 2 (start + 2) := by
  simp [number, Finset.sum_range_succ, Nat.add_assoc]
  omega

/-! ## Single accesses -/

/-- The span that an access asks for. -/
def Access.span? : Access → Option Span
  | .length | .isEmpty => none
  | .check s | .read s | .writeZeros s => some s
  | .readOctets n start => some ⟨start, n⟩
  | .readByte start => some ⟨start, 1⟩
  | .readUInt16 start => some ⟨start, 2⟩
  | .readUInt32 start => some ⟨start, 4⟩

/-- What an access asks for, if anything, ends inside a buffer of `size` bytes. -/
def Access.Within (size : Nat) (a : Access) : Prop :=
  ∀ s, a.span? = some s → s.offset + s.len ≤ size

/-- What an access answers when it succeeds. -/
def Access.value (b : Bytes) : Access → Value
  | .length => .number b.length
  | .isEmpty => .flag (b.length = 0)
  | .check _ | .writeZeros _ => .done
  | .read s => .bytes (b.window s.len s.offset).toList
  | .readOctets n start => .bytes (b.window n start).toList
  | .readByte start => .number (b.byteAt start).toNat
  | .readUInt16 start => .number (b.number 2 start)
  | .readUInt32 start => .number (b.number 4 start)

/-- What an access leaves behind when it succeeds. -/
def Access.effect (b : Bytes) : Access → Bytes
  | .writeZeros s => b.blank s
  | _ => b

/-- **One access.** When its span fits it answers its value and leaves its effect; when it does not,
the error names the span, and the buffer stays as it is. -/
theorem Access.run_eq (a : Access) (b : Bytes) :
    a.run b =
      match a.span? with
      | none => (.ok (a.value b), a.effect b)
      | some s =>
        if s.Fits b.length then (.ok (a.value b), a.effect b) else (.error ⟨s, b.length⟩, b) := by
  cases a with
  | length => rfl
  | isEmpty => cases b <;> rfl
  | check s =>
      simp only [run, span?, value, effect, Bytes.check]
      split <;> rfl
  | read s =>
      simp only [run, span?, value, effect, read_eq, granted_single]
      split <;> rfl
  | readOctets n start =>
      simp only [run, span?, value, effect, readOctets_eq, granted_single]
      split <;> rfl
  | readByte start =>
      simp only [run, span?, value, effect, readByte_eq, granted_single]
      split <;> rfl
  | readUInt16 start =>
      simp only [run, span?, value, effect, readUInt16_eq, granted_single]
      split
      · rw [Except.map, LittleEndian.toNat_toUInt16, value_window]
      · rfl
  | readUInt32 start =>
      simp only [run, span?, value, effect, readUInt32_eq, granted_single]
      split
      · rw [Except.map, LittleEndian.toNat_toUInt32, value_window]
      · rfl
  | writeZeros s =>
      simp only [run, span?, value, effect, Bytes.writeZeros]
      by_cases h : s.Fits b.length
      · rw [if_pos h, if_pos h]
      · rw [if_neg h, if_neg h]

theorem Access.run_of_fits {a : Access} {b : Bytes}
    (h : ∀ s, a.span? = some s → s.Fits b.length) : a.run b = (.ok (a.value b), a.effect b) := by
  rw [run_eq]
  cases hs : a.span? with
  | none => rfl
  | some s => exact if_pos (h s hs)

theorem Access.run_of_not_fits {a : Access} {b : Bytes} {s : Span} (hs : a.span? = some s)
    (h : ¬ s.Fits b.length) : a.run b = (.error ⟨s, b.length⟩, b) := by
  rw [run_eq, hs]
  exact if_neg h

/-! ## Machine words -/

/-- A buffer that is short enough to be addressed holds a span as soon as it reaches to its end. -/
theorem fits_iff {s : Span} {size : Nat} (h : size < 2 ^ 63) :
    s.Fits size ↔ s.offset + s.len ≤ size := by
  simp only [Span.Fits, Span.stop, UInt64.size]
  omega

/-- **Behind a check no index wraps around**: the end of the span is the sum of two words as it is
computed, and lies inside the buffer. -/
theorem stop_of_check {b : Bytes} {offset len : UInt64}
    (h : b.check ⟨offset.toNat, len.toNat⟩ = .ok ()) :
    (offset + len).toNat = offset.toNat + len.toNat ∧ (offset + len).toNat ≤ b.length := by
  have hfits := check_eq_ok_iff.1 h
  simp only [Span.Fits, Span.stop, UInt64.size] at hfits
  have hsum : (offset + len).toNat = offset.toNat + len.toNat := by
    rw [UInt64.toNat_add, Nat.mod_eq_of_lt hfits.1]
  exact ⟨hsum, hsum ▸ hfits.2⟩

/-! ## Runs -/

/-- Each answer of a run is that of its access to the buffer left by those in front of it. -/
theorem getElem?_runAll (b : Bytes) (pre : List Access) (a : Access) (post : List Access) :
    (runAll b (pre ++ a :: post)).1[pre.length]? = some (a.run (runAll b pre).2).1 := by
  induction pre generalizing b with
  | nil => rfl
  | cons c rest ih => exact ih (c.run b).2

/-- The writes of zeros that succeed on a buffer of `size` bytes. -/
def zeroSpans (size : Nat) (as : List Access) : List Span :=
  as.filterMap fun
    | .writeZeros s => if s.Fits size then some s else none
    | _ => none

theorem mem_zeroSpans {size : Nat} {as : List Access} {s : Span} :
    s ∈ zeroSpans size as ↔ .writeZeros s ∈ as ∧ s.Fits size := by
  rw [zeroSpans, List.mem_filterMap]
  constructor
  · rintro ⟨a, ha, hs⟩
    cases a <;> simp at hs
    obtain ⟨hfits, rfl⟩ := hs
    exact ⟨ha, hfits⟩
  · rintro ⟨ha, hfits⟩
    exact ⟨_, ha, if_pos hfits⟩

theorem zeroSpans_cons (size : Nat) (a : Access) (rest : List Access) :
    zeroSpans size (a :: rest) = zeroSpans size [a] ++ zeroSpans size rest := by
  rw [zeroSpans, zeroSpans, zeroSpans, ← List.filterMap_append, List.singleton_append]

/-- What one access does to a buffer: a write of zeros that fits is the only change. -/
theorem buffer_run (a : Access) (b : Bytes) :
    (a.run b).2 = (zeroSpans b.length [a]).foldl blank b := by
  cases a with
  | writeZeros s =>
      simp only [zeroSpans, Access.run, writeZeros]
      by_cases h : s.Fits b.length
      · simp [h]
      · simp [h]
  | _ => rfl

/-- **What a run does to a buffer**: it lays the zeros of all writes that succeed over it. -/
theorem buffer_runAll (as : List Access) (b : Bytes) :
    (runAll b as).2 = (zeroSpans b.length as).foldl blank b := by
  induction as generalizing b with
  | nil => rfl
  | cons a rest ih =>
      show (runAll (a.run b).2 rest).2 = _
      rw [ih, zeroSpans_cons, List.foldl_append, ← buffer_run, buffer_run, length_foldl_blank]

theorem length_runAll (as : List Access) (b : Bytes) : (runAll b as).2.length = b.length := by
  rw [buffer_runAll, length_foldl_blank]

/-- Some write of zeros over the place `i` has succeeded in the course of a run. -/
def Zeroed (b : Bytes) (as : List Access) (i : Nat) : Prop :=
  ∃ pre s post, as = pre ++ .writeZeros s :: post ∧
    (runAll b as).1[pre.length]? = some (.ok .done) ∧ i ∈ s

theorem zeroed_iff {b : Bytes} {as : List Access} {i : Nat} :
    Zeroed b as i ↔ ∃ s ∈ zeroSpans b.length as, i ∈ s := by
  -- Whether a write succeeds is decided by the length, which no access in front of it changes.
  have answer : ∀ pre s, (Access.run (runAll b pre).2 (.writeZeros s)).1 = .ok .done ↔
      s.Fits b.length := by
    intro pre s
    rw [Access.run_eq]
    simp only [Access.span?, length_runAll]
    split <;> simp_all [Access.value]
  constructor
  · rintro ⟨pre, s, post, rfl, hdone, hi⟩
    rw [getElem?_runAll, Option.some.injEq, answer] at hdone
    exact ⟨s, mem_zeroSpans.2 ⟨by simp, hdone⟩, hi⟩
  · rintro ⟨s, hs, hi⟩
    obtain ⟨hmem, hfits⟩ := mem_zeroSpans.1 hs
    obtain ⟨pre, post, rfl⟩ := List.mem_iff_append.1 hmem
    refine ⟨pre, s, post, rfl, ?_, hi⟩
    rw [getElem?_runAll, (answer pre s).2 hfits]

theorem byteAt_runAll {b : Bytes} {as : List Access} {i : Nat} :
    (Zeroed b as i → (runAll b as).2.byteAt i = 0) ∧
    (¬ Zeroed b as i → (runAll b as).2.byteAt i = b.byteAt i) := by
  rw [buffer_runAll, byteAt_foldl_blank, zeroed_iff]
  exact ⟨fun h => if_pos h, fun h => if_neg h⟩

/-- **The order of the writes does not matter**, nor how often each of them is made: runs with the
same writes leave the same buffer. -/
theorem buffer_runAll_congr {b : Bytes} {as as' : List Access}
    (h : ∀ s, .writeZeros s ∈ as' ↔ .writeZeros s ∈ as) : (runAll b as').2 = (runAll b as).2 := by
  apply ext_byteAt
  · rw [length_runAll, length_runAll]
  · intro i
    have same : (∃ s ∈ zeroSpans b.length as', i ∈ s) ↔ ∃ s ∈ zeroSpans b.length as, i ∈ s := by
      simp only [mem_zeroSpans, h]
    rw [buffer_runAll, buffer_runAll, byteAt_foldl_blank, byteAt_foldl_blank, if_congr same rfl rfl]

/-- A word of four bytes is the two words that the same bytes spell. -/
theorem readUInt32_eq_ok {b : Bytes} {start : Nat} {x : UInt32} (h : b.readUInt32 start = .ok x) :
    ∃ low high, b.readUInt16 start = .ok low ∧ b.readUInt16 (start + 2) = .ok high ∧
      x.toNat = low.toNat + 65536 * high.toNat := by
  rw [readUInt32_eq, granted_eq_ok_iff] at h
  obtain ⟨hfits, rfl⟩ := h
  have hfits := hfits _ (List.mem_singleton_self _)
  simp only [Span.Fits, Span.stop] at hfits
  have hlow : Span.Fits ⟨start, 2⟩ b.length := by
    simp only [Span.Fits, Span.stop]
    omega
  have hhigh : Span.Fits ⟨start + 2, 2⟩ b.length := by
    simp only [Span.Fits, Span.stop]
    omega
  refine ⟨LittleEndian.toUInt16 (b.window 2 start), LittleEndian.toUInt16 (b.window 2 (start + 2)),
    ?_, ?_, ?_⟩
  · rw [readUInt16_eq, granted_single, if_pos hlow]
  · rw [readUInt16_eq, granted_single, if_pos hhigh]
  · simp only [LittleEndian.toNat_toUInt32, LittleEndian.toNat_toUInt16, value_window, number_four]

/-! ## Runs as a whole -/

/-- **Runs of accesses are exact.** On a buffer that can be addressed, an access succeeds whenever it
is made exactly if its span, offset and length added up, ends inside the buffer. Then it answers what
the bytes at that moment say; otherwise the error names the span and the size, and nothing changes.
Behind a check, the sum of the two words does not wrap around and stays inside the buffer. A run
leaves as many bytes as there were, zeros where a write of zeros has succeeded and the others as they
were, whatever the order of its writes. A word of four bytes is at any moment the two words that the
same bytes spell. -/
theorem accesses_are_exact {b : Bytes} (hlen : b.length < 2 ^ 63) (as : List Access) :
    (∀ pre a post, as = pre ++ a :: post →
      let now := (runAll b pre).2
      (runAll b as).1[pre.length]? = some (a.run now).1 ∧
      (a.Within b.length → a.run now = (.ok (a.value now), a.effect now)) ∧
      (∀ s, a.span? = some s → b.length < s.offset + s.len →
        a.run now = (.error ⟨s, b.length⟩, now))) ∧
    (∀ offset len : UInt64, b.check ⟨offset.toNat, len.toNat⟩ = .ok () →
      (offset + len).toNat = offset.toNat + len.toNat ∧ (offset + len).toNat ≤ b.length) ∧
    (runAll b as).2.length = b.length ∧
    (∀ i < b.length, (Zeroed b as i → (runAll b as).2[i]? = some 0) ∧
      (¬ Zeroed b as i → (runAll b as).2[i]? = b[i]?)) ∧
    (∀ as', (∀ s, .writeZeros s ∈ as' ↔ .writeZeros s ∈ as) → (runAll b as').2 = (runAll b as).2) ∧
    (∀ start x, (runAll b as).2.readUInt32 start = .ok x →
      ∃ low high, (runAll b as).2.readUInt16 start = .ok low ∧
        (runAll b as).2.readUInt16 (start + 2) = .ok high ∧
        x.toNat = low.toNat + 65536 * high.toNat) := by
  refine ⟨?_, ?_, length_runAll as b, ?_, ?_, ?_⟩
  · rintro pre a post rfl
    have size := length_runAll pre b
    refine ⟨getElem?_runAll b pre a post, ?_, ?_⟩
    · intro hwithin
      apply Access.run_of_fits
      intro s hs
      rw [size]
      exact (fits_iff hlen).2 (hwithin s hs)
    · intro s hs hcut
      have hnot : ¬ s.Fits (runAll b pre).2.length := by
        rw [size, fits_iff hlen]
        exact Nat.not_le_of_lt hcut
      rw [Access.run_of_not_fits hs hnot, size]
  · intro offset len h
    exact stop_of_check h
  · intro i hi
    rw [getElem?_eq_byteAt hi, getElem?_eq_byteAt (by rwa [length_runAll]), Option.some.injEq,
      Option.some.injEq]
    exact byteAt_runAll
  · intro as' h
    exact buffer_runAll_congr h
  · intro start x h
    exact readUInt32_eq_ok h

/-- Zeros over the middle of eight bytes, then a span whose end wraps around to the front, then a word
that begins in front of the zeros. Made in another order, the writes leave the same buffer. -/
theorem accesses_are_exact_eightBytes :
    let b : Bytes := [1, 2, 3, 4, 5, 6, 7, 8]
    let middle : Access := .writeZeros ⟨2, 3⟩
    let wrapping : Access := .writeZeros ⟨2 ^ 64 - 1, 2⟩
    let as := [middle, wrapping, .readUInt32 1]
    b.length < 2 ^ 63 ∧
      (runAll b as).1[1]? = some (.error ⟨⟨2 ^ 64 - 1, 2⟩, 8⟩) ∧
      (runAll b as).1[2]? = some (.ok (.number 2)) ∧
      (runAll b as).2[3]? = some 0 ∧ (runAll b as).2[6]? = some 7 ∧
      (runAll b [wrapping, .readUInt32 1, middle]).2 = (runAll b as).2 := by
  intro b middle wrapping as
  have hlen : b.length < 2 ^ 63 := by decide
  obtain ⟨answers, -, -, bytes, order, -⟩ := accesses_are_exact hlen as
  obtain ⟨second, -, hcut⟩ := answers [middle] wrapping [.readUInt32 1] rfl
  obtain ⟨third, hword, -⟩ := answers [middle, wrapping] (.readUInt32 1) [] rfl
  have hzero : Zeroed b as 3 := ⟨[], ⟨2, 3⟩, _, rfl, by decide, by decide⟩
  have hkept : ¬ Zeroed b as 6 := by
    rw [zeroed_iff]
    decide
  refine ⟨hlen, ?_, ?_, (bytes 3 (by decide)).1 hzero, (bytes 6 (by decide)).2 hkept, ?_⟩
  · rw [hcut _ rfl (by decide)] at second
    exact second
  · rw [hword (by rintro s ⟨rfl⟩; decide)] at third
    exact third.trans (by decide +kernel)
  · apply order
    intro s
    simp [as, middle, wrapping, or_comm]

end HeaderWork.Bytes
