import HeaderWork.Proofs.Window

/-!
# The canonical form of a header

* `ChainSpecific` — the places of a header that tie it to its own chain.
* `Bytes.canonical` — the buffer with zeros at those places (`byteAt_canonical`), of the same length
  and its own canonical form (`canonical_canonical`).
* `clear_of_le`, `clear_of_lt` — clearing gives the canonical form of a buffer that reaches behind
  the last of those places, and leaves any other as it is (`answer_clear_eq_ok_iff`).
-/

namespace HeaderWork

/-! ## Chain-specific places -/

/-- The places of the three hashes in a row, of target and nonce, and of both roots. -/
def ChainSpecific (i : Nat) : Prop :=
  (4 ≤ i ∧ i < 100) ∨ (104 ≤ i ∧ i < 140) ∨ (151 ≤ i ∧ i < 215)

instance : DecidablePred ChainSpecific := fun _ => inferInstanceAs (Decidable (_ ∨ _))

theorem not_chainSpecific_of_le {i : Nat} (h : 215 ≤ i) : ¬ ChainSpecific i := by
  unfold ChainSpecific
  omega

/-- The spans that clearing goes over cover exactly the chain-specific places. -/
theorem exists_mem_clearedSpans_iff {i : Nat} :
    (∃ s ∈ Layout.clearedSpans, i ∈ s) ↔ ChainSpecific i := by
  have spans : Layout.clearedSpans = [⟨4, 96⟩, ⟨104, 4⟩, ⟨108, 32⟩, ⟨151, 64⟩] := rfl
  simp only [spans, List.mem_cons, List.not_mem_nil, or_false, exists_eq_or_imp, exists_eq_left,
    Span.mem_iff, ChainSpecific]
  omega

namespace Bytes

/-! ## The canonical form -/

/-- The buffer with zeros at all chain-specific places that it has. -/
def canonical (b : Bytes) : Bytes := b.mapIdx fun i x => if ChainSpecific i then 0 else x

@[simp] theorem length_canonical (b : Bytes) : b.canonical.length = b.length :=
  List.length_mapIdx

theorem byteAt_canonical (b : Bytes) (i : Nat) :
    b.canonical.byteAt i = if ChainSpecific i then 0 else b.byteAt i := by
  rw [byteAt, byteAt, canonical, List.getElem?_mapIdx]
  cases b[i]? with
  | none => simp
  | some x => rfl

theorem byteAt_canonical_of_not {b : Bytes} {i : Nat} (h : ¬ ChainSpecific i) :
    b.canonical.byteAt i = b.byteAt i := by
  rw [byteAt_canonical, if_neg h]

theorem getElem?_canonical_of_not {b : Bytes} {i : Nat} (h : ¬ ChainSpecific i) :
    b.canonical[i]? = b[i]? := by
  rw [canonical, List.getElem?_mapIdx]
  cases b[i]? with
  | none => rfl
  | some x => exact congrArg some (if_neg h)

theorem getElem?_canonical_of_chainSpecific {b : Bytes} {i : Nat} (hlen : 215 ≤ b.length)
    (h : ChainSpecific i) : b.canonical[i]? = some 0 := by
  have hi : i < b.canonical.length := by
    rw [ChainSpecific] at h
    rw [length_canonical]
    omega
  rw [getElem?_eq_byteAt hi, byteAt_canonical, if_pos h]

theorem canonical_canonical (b : Bytes) : b.canonical.canonical = b.canonical := by
  apply ext_byteAt (length_canonical _) fun i => ?_
  rw [byteAt_canonical]
  split
  · rw [byteAt_canonical, if_pos ‹_›]
  · rfl

/-- A window that meets no chain-specific place is the same in the canonical form. -/
theorem window_canonical {n : Nat} {b : Bytes} {start : Nat}
    (h : ∀ i, start ≤ i → i < start + n → ¬ ChainSpecific i) :
    b.canonical.window n start = b.window n start :=
  window_congr fun i h1 h2 => byteAt_canonical_of_not (h i h1 h2)

/-! ## Zeros over several spans -/

theorem byteAt_blank {b : Bytes} {s : Span} (i : Nat) :
    (b.blank s).byteAt i = if i ∈ s then 0 else b.byteAt i := by
  rw [byteAt, getElem?_blank]
  by_cases hs : i ∈ s
  · rw [if_pos hs]
    by_cases hi : i < b.length
    · rw [if_pos ⟨hs, hi⟩, Option.getD_some]
    · rw [if_neg fun h => hi h.2, List.getElem?_eq_none (Nat.le_of_not_lt hi), Option.getD_none]
  · rw [if_neg hs, if_neg fun h => hs h.1, byteAt]

/-- Spans that all fit are zeroed one after the other, and none of the writes fails. -/
theorem blankEach_of_fits {spans : List Span} :
    ∀ {b : Bytes}, (∀ s ∈ spans, s.Fits b.length) →
      blankEach b spans = (.ok (), spans.foldl blank b) := by
  induction spans with
  | nil => intro b _; rfl
  | cons s rest ih =>
      intro b h
      have hw : b.writeZeros s = .ok (b.blank s) := writeZeros_eq_ok_iff.2 ⟨h s (by simp), rfl⟩
      rw [blankEach, hw]
      exact ih fun t ht => by rw [length_blank]; exact h t (by simp [ht])

theorem length_foldl_blank (spans : List Span) (b : Bytes) :
    (spans.foldl blank b).length = b.length := by
  induction spans generalizing b with
  | nil => rfl
  | cons s rest ih => rw [List.foldl_cons, ih, length_blank]

theorem byteAt_foldl_blank (spans : List Span) (b : Bytes) (i : Nat) :
    (spans.foldl blank b).byteAt i = if ∃ s ∈ spans, i ∈ s then 0 else b.byteAt i := by
  induction spans generalizing b with
  | nil => simp
  | cons s rest ih =>
      rw [List.foldl_cons, ih, byteAt_blank]
      by_cases hr : ∃ t ∈ rest, i ∈ t
      · obtain ⟨t, ht, hi⟩ := hr
        rw [if_pos ⟨t, ht, hi⟩, if_pos ⟨t, List.mem_cons_of_mem _ ht, hi⟩]
      · rw [if_neg hr]
        by_cases hs : i ∈ s
        · rw [if_pos hs, if_pos ⟨s, List.mem_cons_self, hs⟩]
        · rw [if_neg hs, if_neg]
          rintro ⟨t, ht, hi⟩
          rcases List.mem_cons.1 ht with rfl | ht
          · exact hs hi
          · exact hr ⟨t, ht, hi⟩

theorem foldl_blank_clearedSpans (b : Bytes) :
    Layout.clearedSpans.foldl blank b = b.canonical := by
  apply ext_byteAt (by rw [length_foldl_blank, length_canonical]) fun i => ?_
  simp only [byteAt_foldl_blank, byteAt_canonical, exists_mem_clearedSpans_iff]

end Bytes

/-! ## Clearing -/

/-- The last chain-specific place decides whether all spans fit. -/
theorem checkEach_clearedSpans_iff {b : Bytes} :
    checkEach b Layout.clearedSpans = .ok () ↔ 215 ≤ b.length := by
  rw [Bytes.checkEach_eq_ok_iff, Bytes.forall_fits_iff (by decide)]
  rfl

/-- **A buffer that is long enough is cleared to its canonical form.** -/
theorem clear_of_le {b : Bytes} (h : 215 ≤ b.length) : clear b = ⟨.ok (), b.canonical, []⟩ := by
  have hc := checkEach_clearedSpans_iff.2 h
  have hb := Bytes.blankEach_of_fits (Bytes.checkEach_eq_ok_iff.1 hc)
  rw [clear, hc]
  simp only [hb, Bytes.foldl_blank_clearedSpans]

/-- **A buffer that is too short is left as it is.** -/
theorem clear_of_lt {b : Bytes} (h : b.length < 215) :
    ∃ e, clear b = ⟨.error e, b, []⟩ := by
  rw [clear]
  cases hc : checkEach b Layout.clearedSpans with
  | ok _ => exact absurd (checkEach_clearedSpans_iff.1 hc) (by omega)
  | error e => exact ⟨e, rfl⟩

theorem answer_clear_eq_ok_iff {b : Bytes} : (clear b).answer = .ok () ↔ 215 ≤ b.length := by
  constructor
  · intro h
    by_cases hlen : b.length < 215
    · obtain ⟨e, he⟩ := clear_of_lt hlen
      rw [he] at h
      cases h
    · exact Nat.le_of_not_lt hlen
  · intro h
    rw [clear_of_le h]

end HeaderWork
