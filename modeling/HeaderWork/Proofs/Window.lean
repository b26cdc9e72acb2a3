import HeaderWork.Inspection

/-!
# Windows into a buffer

A buffer read as if zeros followed it. Equality, truncation and padding of buffers then become
statements about single bytes, and a checked read becomes a window together with a check.

* `Bytes.byteAt` — the byte at an index, zero behind the end; `ext_byteAt` — a buffer is its length
  and its bytes.
* `Bytes.window` — a fixed number of bytes from an index on (`window_eq_window_iff`).
* `Bytes.granted` — a value that is given when some spans fit; `granted_bind` — reads made one after
  the other are one read of all their spans.
* `Bytes.reach` — how far some spans reach; `forall_fits_iff` — they fit a buffer that is as long.
* `Bytes.missing?` — the first of some spans that does not fit; `granted_eq_error_iff` — that span is
  the error of a read.
* `read_eq`, `readOctets_eq`, `readByte_eq`, `readUInt16_eq`, `readUInt32_eq` — every read is of that
  form.
-/

namespace HeaderWork.Bytes

/-! ## Single bytes -/

/-- The byte at an index; behind the end of the buffer there are zeros. -/
def byteAt (b : Bytes) (i : Nat) : UInt8 := b[i]?.getD 0

theorem byteAt_of_length_le {b : Bytes} {i : Nat} (h : b.length ≤ i) : b.byteAt i = 0 := by
  rw [byteAt, List.getElem?_eq_none h, Option.getD_none]

theorem getElem?_eq_byteAt {b : Bytes} {i : Nat} (h : i < b.length) :
    b[i]? = some (b.byteAt i) := by
  rw [byteAt, List.getElem?_eq_getElem h, Option.getD_some]

theorem byteAt_append_left {a : Bytes} {i : Nat} (t : Bytes) (h : i < a.length) :
    byteAt (a ++ t) i = a.byteAt i := by
  rw [byteAt, byteAt, List.getElem?_append_left h]

theorem byteAt_take {b : Bytes} {i n : Nat} (h : i < n) : byteAt (b.take n) i = b.byteAt i := by
  rw [byteAt, byteAt, List.getElem?_take_of_lt h]

theorem byteAt_append_length (a : Bytes) (x : UInt8) : byteAt (a ++ [x]) a.length = x := by
  rw [byteAt, List.getElem?_concat_length, Option.getD_some]

theorem byteAt_append_zeros (a : Bytes) (k i : Nat) :
    byteAt (a ++ List.replicate k 0) i = a.byteAt i := by
  by_cases h : i < a.length
  · exact byteAt_append_left _ h
  · rw [byteAt_of_length_le (Nat.le_of_not_lt h), byteAt,
      List.getElem?_append_right (Nat.le_of_not_lt h), List.getElem?_replicate]
    split <;> rfl

/-- Two buffers of one length are equal when all their bytes are. -/
theorem ext_byteAt {a b : Bytes} (hlen : a.length = b.length)
    (h : ∀ i, a.byteAt i = b.byteAt i) : a = b := by
  apply List.ext_getElem? fun i => ?_
  by_cases hi : i < a.length
  · rw [getElem?_eq_byteAt hi, getElem?_eq_byteAt (hlen ▸ hi), h i]
  · rw [List.getElem?_eq_none (by omega), List.getElem?_eq_none (by omega)]

/-- **A longer buffer with the same bytes is the shorter one with zeros behind it.** -/
theorem eq_append_zeros_of_byteAt {a b : Bytes} (hlen : a.length ≤ b.length)
    (h : ∀ i, a.byteAt i = b.byteAt i) :
    b = a ++ List.replicate (b.length - a.length) 0 := by
  apply ext_byteAt
  · rw [List.length_append, List.length_replicate]
    omega
  · intro i
    rw [byteAt_append_zeros, h i]

/-! ## Windows -/

/-- The `n` bytes from `start` on. -/
def window (n : Nat) (b : Bytes) (start : Nat) : Octets n :=
  Vector.ofFn fun i => b.byteAt (start + i.val)

@[simp] theorem getElem_window {n : Nat} (b : Bytes) (start i : Nat) (h : i < n) :
    (b.window n start)[i] = b.byteAt (start + i) := by
  simp only [window, Vector.getElem_ofFn]

theorem window_eq_iff {n : Nat} {b : Bytes} {start : Nat} {v : Octets n} :
    b.window n start = v ↔ ∀ i, (h : i < n) → b.byteAt (start + i) = v[i] := by
  constructor
  · rintro rfl i h
    rw [getElem_window]
  · intro h
    apply Vector.ext fun i hi => ?_
    rw [getElem_window, h i hi]

theorem window_eq_window_iff {n : Nat} {a b : Bytes} {s t : Nat} :
    a.window n s = b.window n t ↔ ∀ i < n, a.byteAt (s + i) = b.byteAt (t + i) := by
  simp only [window_eq_iff, getElem_window]

theorem window_congr {n : Nat} {a b : Bytes} {start : Nat}
    (h : ∀ i, start ≤ i → i < start + n → a.byteAt i = b.byteAt i) :
    a.window n start = b.window n start :=
  window_eq_window_iff.2 fun i hi => h (start + i) (by omega) (by omega)

theorem byteAt_eq_of_window_eq {a b : Bytes} {n start i : Nat}
    (h : a.window n start = b.window n start) (h1 : start ≤ i) (h2 : i < start + n) :
    a.byteAt i = b.byteAt i := by
  have hi := window_eq_window_iff.1 h (i - start) (by omega)
  rwa [Nat.add_sub_cancel' h1] at hi

theorem window_nil (n start : Nat) : window n [] start = Octets.zero n := by
  rw [window_eq_iff]
  intro i hi
  exact (Vector.getElem_replicate hi).symm

/-- A window that lies in the buffer is a slice of it. -/
theorem toList_window {n : Nat} {b : Bytes} {start : Nat} (h : start + n ≤ b.length) :
    (b.window n start).toList = b.slice ⟨start, n⟩ := by
  apply List.ext_getElem? fun i => ?_
  rw [getElem?_slice]
  have hlen : (b.window n start).toList.length = n := Vector.length_toList
  by_cases hi : i < n
  · rw [if_pos hi, List.getElem?_eq_getElem (by omega), Vector.getElem_toList, getElem_window]
    exact (getElem?_eq_byteAt (show start + i < b.length by omega)).symm
  · rw [if_neg hi, List.getElem?_eq_none (by omega)]

/-! ## Reads as checked windows -/

/-- `v`, when all spans fit; the first that does not is the error. -/
def granted {α : Type} (b : Bytes) (spans : List Span) (v : α) : Except OutOfRange α :=
  (checkEach b spans).map fun _ => v

theorem checkEach_append (b : Bytes) (xs ys : List Span) :
    checkEach b (xs ++ ys) = (checkEach b xs).bind fun _ => checkEach b ys := by
  induction xs with
  | nil => rfl
  | cons s rest ih =>
      rw [List.cons_append, checkEach, checkEach]
      cases b.check s with
      | ok _ => exact ih
      | error _ => rfl

theorem checkEach_eq_ok_iff {b : Bytes} {spans : List Span} :
    checkEach b spans = .ok () ↔ ∀ s ∈ spans, s.Fits b.length := by
  induction spans with
  | nil => simp [checkEach]
  | cons s rest ih =>
      rw [checkEach, List.forall_mem_cons, ← ih, ← check_eq_ok_iff]
      cases b.check s with
      | ok _ => simp
      | error _ => simp

/-- The end of the last of some spans. -/
def reach (spans : List Span) : Nat := spans.foldr (fun s n => max s.stop n) 0

/-- **Spans fit when the last of them does.** -/
theorem forall_fits_iff {spans : List Span} {size : Nat} (h : reach spans < UInt64.size) :
    (∀ s ∈ spans, s.Fits size) ↔ reach spans ≤ size := by
  induction spans with
  | nil => simp [reach]
  | cons s rest ih =>
      have hmax : max s.stop (reach rest) < UInt64.size := h
      have hrest := ih (by omega)
      show (∀ t ∈ s :: rest, t.Fits size) ↔ max s.stop (reach rest) ≤ size
      rw [List.forall_mem_cons, hrest, Span.Fits]
      omega

/-- Checks see nothing of a buffer but its length. -/
theorem checkEach_congr {a b : Bytes} (h : a.length = b.length) (spans : List Span) :
    checkEach a spans = checkEach b spans := by
  induction spans with
  | nil => rfl
  | cons s rest ih => rw [checkEach, checkEach, ih, check, check, h]

/-- **Reads compose**: a read that follows another is one read of the spans of both. -/
theorem granted_bind {α β : Type} {b : Bytes} {xs ys : List Span} {v : α} {w : β}
    {k : α → Except OutOfRange β} (h : k v = b.granted ys w) :
    (b.granted xs v >>= k) = b.granted (xs ++ ys) w := by
  rw [granted, granted, checkEach_append]
  cases checkEach b xs with
  | ok _ => exact h
  | error _ => rfl

theorem granted_map {α β : Type} (b : Bytes) (spans : List Span) (v : α) (f : α → β) :
    (b.granted spans v).map f = b.granted spans (f v) := by
  rw [granted, granted]
  cases checkEach b spans <;> rfl

theorem granted_eq_ok_iff {α : Type} {b : Bytes} {spans : List Span} {v w : α} :
    b.granted spans v = .ok w ↔ (∀ s ∈ spans, s.Fits b.length) ∧ w = v := by
  rw [granted, ← checkEach_eq_ok_iff]
  cases checkEach b spans <;> simp [Except.map, eq_comm]

/-- The first of some spans that reaches behind the end of the buffer. -/
def missing? (b : Bytes) (spans : List Span) : Option Span :=
  spans.find? fun s => ¬ s.Fits b.length

/-- A span fits when the buffer reaches to its end, which is below the largest offset. -/
theorem missing?_cons {b : Bytes} {s : Span} (rest : List Span) (h : s.stop < UInt64.size) :
    b.missing? (s :: rest) = if b.length < s.stop then some s else b.missing? rest := by
  unfold missing?
  by_cases hlt : b.length < s.stop
  · have hfits : ¬ s.Fits b.length := fun hf => Nat.not_le_of_lt hlt hf.2
    rw [if_pos hlt, List.find?_cons_of_pos (by simpa using hfits)]
  · have hfits : s.Fits b.length := ⟨h, Nat.le_of_not_lt hlt⟩
    rw [if_neg hlt, List.find?_cons_of_neg (by simpa using hfits)]

theorem missing?_eq_none_iff {b : Bytes} {spans : List Span} :
    b.missing? spans = none ↔ ∀ s ∈ spans, s.Fits b.length := by
  simp [missing?]

theorem checkEach_of_missing {b : Bytes} {spans : List Span} {s : Span}
    (h : b.missing? spans = some s) : checkEach b spans = .error ⟨s, b.length⟩ := by
  induction spans with
  | nil => cases h
  | cons t rest ih =>
      unfold missing? at h
      rw [checkEach, check]
      by_cases hfits : t.Fits b.length
      · rw [List.find?_cons_of_neg (by simpa using hfits)] at h
        rw [if_pos hfits]
        exact ih h
      · rw [List.find?_cons_of_pos (by simpa using hfits)] at h
        cases h
        rw [if_neg hfits]

/-- **A read fails at the first of its spans that does not fit**, and names it. -/
theorem granted_eq_error_iff {α : Type} {b : Bytes} {spans : List Span} {v : α} {e : OutOfRange} :
    b.granted spans v = .error e ↔ ∃ s, b.missing? spans = some s ∧ e = ⟨s, b.length⟩ := by
  cases h : b.missing? spans with
  | none =>
      rw [granted_eq_ok_iff.2 ⟨missing?_eq_none_iff.1 h, rfl⟩]
      simp
  | some s =>
      rw [granted, checkEach_of_missing h]
      simp [Except.map, eq_comm]

/-- Granted values are compared only where the spans fit. -/
theorem granted_congr {α : Type} {a b : Bytes} {spans : List Span} {v w : α}
    (hlen : a.length = b.length) (h : (∀ s ∈ spans, s.Fits b.length) → v = w) :
    a.granted spans v = b.granted spans w := by
  rw [granted, granted, checkEach_congr hlen]
  cases hc : checkEach b spans with
  | ok _ => exact congrArg Except.ok (h (checkEach_eq_ok_iff.1 hc))
  | error _ => rfl

/-- A span that ends no later than one checked before it need not be checked again. -/
theorem granted_append_of_stop_le {α : Type} {b : Bytes} (xs ys zs : List Span) (v : α)
    (h : ∀ y ∈ ys, ∃ x ∈ xs, y.stop ≤ x.stop) :
    b.granted (xs ++ (ys ++ zs)) v = b.granted (xs ++ zs) v := by
  rw [granted, granted, checkEach_append, checkEach_append b xs zs, checkEach_append]
  cases hxs : checkEach b xs with
  | error _ => rfl
  | ok _ =>
      have fits : checkEach b ys = .ok () := by
        rw [checkEach_eq_ok_iff] at hxs ⊢
        intro y hy
        obtain ⟨x, hx, hle⟩ := h y hy
        exact ⟨Nat.lt_of_le_of_lt hle (hxs x hx).1, Nat.le_trans hle (hxs x hx).2⟩
      rw [fits]
      rfl

/-- A read of one span is its check. -/
theorem granted_single {α : Type} (b : Bytes) (s : Span) (v : α) :
    b.granted [s] v = if s.Fits b.length then .ok v else .error ⟨s, b.length⟩ := by
  rw [granted, checkEach, check]
  by_cases h : s.Fits b.length
  · rw [if_pos h, if_pos h]
    rfl
  · rw [if_neg h, if_neg h]
    rfl

theorem read_eq (b : Bytes) (s : Span) :
    b.read s = b.granted [s] (b.window s.len s.offset).toList := by
  rw [granted_single, read]
  split
  · rename_i h
    rw [toList_window h.2]
  · rfl

theorem readOctets_eq (n : Nat) (b : Bytes) (start : Nat) :
    readOctets n b start = b.granted [⟨start, n⟩] (b.window n start) := by
  rw [readOctets, granted_single]
  by_cases h : Span.Fits ⟨start, n⟩ b.length
  · rw [dif_pos h, if_pos h]
    apply congrArg Except.ok
    rw [← Vector.toList_inj, Octets.toList_ofBytes, toList_window h.2]
  · rw [dif_neg h, if_neg h]

theorem readByte_eq (b : Bytes) (start : Nat) :
    readByte b start = b.granted [⟨start, 1⟩] (b.byteAt start) := by
  rw [readByte, readOctets_eq, granted_map, getElem_window, Nat.add_zero]

theorem readUInt16_eq (b : Bytes) (start : Nat) :
    readUInt16 b start = b.granted [⟨start, 2⟩] (LittleEndian.toUInt16 (b.window 2 start)) := by
  rw [readUInt16, readOctets_eq, granted_map]

theorem readUInt32_eq (b : Bytes) (start : Nat) :
    readUInt32 b start = b.granted [⟨start, 4⟩] (LittleEndian.toUInt32 (b.window 4 start)) := by
  rw [readUInt32, readOctets_eq, granted_map]

end HeaderWork.Bytes
