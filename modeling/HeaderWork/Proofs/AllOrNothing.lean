import HeaderWork.Proofs.Restoring

/-!
# Clearing is all or nothing

Clearing goes over its spans twice, first to check all of them and then to write. A buffer that is
too short is found out by the first pass, so that no span is ever cleared without the others.

* `cutSpan` — the first span to be cleared that a buffer of some size does not hold;
  `cutSpan_eq_none_iff` — it holds them all from 215 bytes on.
* `writeZeros_of_checkEach` — once spans are checked, each of them can be written on what the writes
  in front of it have left.
* `clear_of_cutSpan`, `clear_clear` — a buffer that is too short stays as it is, and a second
  clearing changes nothing.
* `clearing_is_exact` — outcome, bytes and errors of clearing, and what it forgets of a buffer.
-/

namespace HeaderWork

/-! ## The span that is cut off -/

/-- The first of the spans to be cleared that reaches behind the end of a buffer of `size` bytes. -/
def cutSpan (size : Nat) : Option Span :=
  if size < 100 then some ⟨4, 96⟩
  else if size < 108 then some ⟨104, 4⟩
  else if size < 140 then some ⟨108, 32⟩
  else if size < 215 then some ⟨151, 64⟩
  else none

theorem missing?_clearedSpans (b : Bytes) :
    b.missing? Layout.clearedSpans = cutSpan b.length := by
  have spans : Layout.clearedSpans = [⟨4, 96⟩, ⟨104, 4⟩, ⟨108, 32⟩, ⟨151, 64⟩] := rfl
  rw [spans, cutSpan, Bytes.missing?_cons _ (by decide), Bytes.missing?_cons _ (by decide),
    Bytes.missing?_cons _ (by decide), Bytes.missing?_cons _ (by decide)]
  rfl

theorem cutSpan_eq_none_iff {size : Nat} : cutSpan size = none ↔ 215 ≤ size := by
  unfold cutSpan
  grind

theorem exists_cutSpan {size : Nat} (h : size < 215) : ∃ s, cutSpan size = some s := by
  cases hs : cutSpan size with
  | none => exact absurd (cutSpan_eq_none_iff.1 hs) (Nat.not_le_of_lt h)
  | some s => exact ⟨s, rfl⟩

/-! ## Two passes -/

/-- **What has been checked can be written.** Whatever spans are checked together, none of the writes
that follow fails: each of them finds the buffer that the writes in front of it have left, and that
one is as long as it was when the spans were checked. -/
theorem writeZeros_of_checkEach {b : Bytes} {spans : List Span} (h : checkEach b spans = .ok ())
    {done rest : List Span} {s : Span} (hsplit : spans = done ++ s :: rest) :
    (blankEach b done).1 = .ok () ∧ ∃ b', (blankEach b done).2.writeZeros s = .ok b' := by
  have fits := Bytes.checkEach_eq_ok_iff.1 h
  subst hsplit
  have hdone : blankEach b done = (.ok (), done.foldl Bytes.blank b) :=
    Bytes.blankEach_of_fits fun t ht => fits t (by simp [ht])
  -- The check was made on `b`, the write is on what `done` has left: zeros keep the length.
  have hs : s.Fits (done.foldl Bytes.blank b).length := by
    rw [Bytes.length_foldl_blank]
    exact fits s (by simp)
  rw [hdone]
  exact ⟨rfl, _, Bytes.writeZeros_eq_ok_iff.2 ⟨hs, rfl⟩⟩

/-- **A buffer that is too short stays as it is**, and the span that it cuts off is named. -/
theorem clear_of_cutSpan {b : Bytes} {s : Span} (h : cutSpan b.length = some s) :
    clear b = ⟨.error ⟨s, b.length⟩, b, []⟩ := by
  have hcheck := Bytes.checkEach_of_missing ((missing?_clearedSpans b).trans h)
  rw [clear, hcheck]

/-- Between the first span and the second a buffer ends after three hashes that could be cleared, and
that are not. -/
example : clear (List.replicate 107 1) = ⟨.error ⟨⟨104, 4⟩, 107⟩, List.replicate 107 1, []⟩ := by
  decide +kernel

/-- **A second clearing changes nothing**, and answers as the first one did. -/
theorem clear_clear (b : Bytes) : clear (clear b).buffer = clear b := by
  by_cases h : 215 ≤ b.length
  · rw [clear_of_le h, clear_of_le (by simpa using h), Bytes.canonical_canonical]
  · obtain ⟨s, hs⟩ := exists_cutSpan (Nat.lt_of_not_le h)
    rw [clear_of_cutSpan hs]
    exact clear_of_cutSpan hs

/-! ## Clearing as a whole -/

/-- **Clearing is exact.** It succeeds from 215 bytes on. Then the buffer keeps its length, all
chain-specific places are zero, all others are as they were, and no write can have failed. On a
shorter buffer it changes nothing and names the first span that is cut off. Clearing twice is clearing
once, and two buffers of one length become the same exactly when they agree at all other places. -/
theorem clearing_is_exact (a b : Bytes) :
    ((clear b).answer = .ok () ↔ 215 ≤ b.length) ∧
    (215 ≤ b.length →
      (clear b).buffer.length = b.length ∧
      (∀ i, ChainSpecific i → (clear b).buffer[i]? = some 0) ∧
      (∀ i, ¬ ChainSpecific i → (clear b).buffer[i]? = b[i]?) ∧
      (∀ done s rest, Layout.clearedSpans = done ++ s :: rest →
        (blankEach b done).1 = .ok () ∧ ∃ b', (blankEach b done).2.writeZeros s = .ok b')) ∧
    (b.length < 215 → ∃ s, cutSpan b.length = some s ∧
      clear b = ⟨.error ⟨s, b.length⟩, b, []⟩) ∧
    clear (clear b).buffer = clear b ∧
    (215 ≤ b.length → a.length = b.length →
      ((clear a).buffer = (clear b).buffer ↔ ∀ i, ¬ ChainSpecific i → a[i]? = b[i]?)) := by
  refine ⟨answer_clear_eq_ok_iff, ?_, ?_, clear_clear b, ?_⟩
  · intro h
    rw [clear_of_le h]
    refine ⟨Bytes.length_canonical b, ?_, ?_, ?_⟩
    · intro i hi
      exact Bytes.getElem?_canonical_of_chainSpecific h hi
    · intro i hi
      exact Bytes.getElem?_canonical_of_not hi
    · intro done s rest hsplit
      exact writeZeros_of_checkEach (checkEach_clearedSpans_iff.2 h) hsplit
  · intro h
    obtain ⟨s, hs⟩ := exists_cutSpan h
    exact ⟨s, hs, clear_of_cutSpan hs⟩
  · intro hb hlen
    have ha : 215 ≤ a.length := hlen ▸ hb
    rw [clear_of_le ha, clear_of_le hb, Bytes.canonical_eq_canonical_iff]
    constructor
    · rintro ⟨-, hplaces⟩
      exact hplaces
    · intro hplaces
      exact ⟨hlen, hplaces⟩

end HeaderWork
