import HeaderWork.Proofs.Decision

/-!
# Restoring a header from its record

Clearing takes out of a header exactly what its record keeps, so that the two together are the
header again, and any record fits any canonical form.

* `canonical_eq_canonical_iff` — canonical forms are the same where two buffers of one length agree
  outside the chain-specific places.
* `canonical_eq_self_iff` — a buffer is its own canonical form when its record is zero.
* `Bytes.restore` — a record laid back over the chain-specific places; `record_restore`,
  `canonical_restore`, `restore_canonical` — taking apart and putting together undo each other.
* `ofBuffer_and_clear_lossless` — record and cleared buffer, as they are computed, split a buffer
  without loss.
-/

namespace HeaderWork

namespace Bytes

/-! ## What a canonical form keeps -/

/-- **Canonical forms forget the chain-specific places, and nothing else.** -/
theorem canonical_eq_canonical_iff {a b : Bytes} :
    a.canonical = b.canonical ↔
      a.length = b.length ∧ ∀ i, ¬ ChainSpecific i → a[i]? = b[i]? := by
  constructor
  · intro h
    refine ⟨by simpa using congrArg List.length h, ?_⟩
    intro i hi
    rw [← getElem?_canonical_of_not (b := a) hi, h, getElem?_canonical_of_not hi]
  · rintro ⟨hlen, hplaces⟩
    apply ext_byteAt
    · simp [hlen]
    · intro i
      rw [byteAt_canonical, byteAt_canonical]
      split
      · rfl
      · rw [byteAt, byteAt, hplaces i ‹_›]

theorem canonical_eq_self_iff {b : Bytes} : b.canonical = b ↔ b.record = Octets.zero 196 := by
  constructor
  · intro h
    rw [← h]
    exact record_canonical b
  · intro h
    apply ext_byteAt (length_canonical b)
    intro i
    rw [byteAt_canonical]
    split
    · exact (record_eq_zero_iff.1 h i ‹_›).symm
    · rfl

/-! ## Laying a record back -/

/-- The buffer with the bytes of `r` at the chain-specific places that it has. -/
def restore (b : Bytes) (r : Record) : Bytes :=
  b.mapIdx fun i x => if ChainSpecific i then byteAt r.toList (Record.place i) else x

@[simp] theorem length_restore (b : Bytes) (r : Record) : (b.restore r).length = b.length :=
  List.length_mapIdx

theorem byteAt_restore {b : Bytes} {i : Nat} (hi : i < b.length) (r : Record) :
    (b.restore r).byteAt i =
      if ChainSpecific i then byteAt r.toList (Record.place i) else b.byteAt i := by
  rw [byteAt, restore, List.getElem?_mapIdx, getElem?_eq_byteAt hi]
  rfl

theorem getElem?_restore_of_not {b : Bytes} {i : Nat} (hi : ¬ ChainSpecific i) (r : Record) :
    (b.restore r)[i]? = b[i]? := by
  rw [restore, List.getElem?_mapIdx]
  cases b[i]? with
  | none => rfl
  | some x => exact congrArg some (if_neg hi)

/-- What has been laid back is the record, where the buffer has all places of it. -/
theorem record_restore {b : Bytes} (hlen : 215 ≤ b.length) (r : Record) :
    (b.restore r).record = r := by
  apply Vector.ext
  intro j hj
  have hplace := Record.chainSpecific_origin hj
  have hin : Record.origin j < b.length := by
    unfold ChainSpecific at hplace
    omega
  rw [getElem_record, byteAt_restore hin, if_pos hplace, Record.place_origin, byteAt,
    Vector.getElem?_toList, Vector.getElem?_eq_getElem hj, Option.getD_some]

theorem canonical_restore (b : Bytes) (r : Record) : (b.restore r).canonical = b.canonical :=
  canonical_eq_canonical_iff.2 ⟨length_restore b r, fun _ hi => getElem?_restore_of_not hi r⟩

/-- **A header is its canonical form with its own record laid back.** -/
theorem restore_canonical (b : Bytes) : b.canonical.restore b.record = b := by
  apply ext_byteAt
  · simp
  intro i
  by_cases hi : i < b.length
  · rw [byteAt_restore (by simpa using hi)]
    split
    · have hj := Record.place_lt ‹ChainSpecific i›
      rw [byteAt, Vector.getElem?_toList, Vector.getElem?_eq_getElem hj, Option.getD_some,
        getElem_record, Record.origin_place ‹_›]
    · exact byteAt_canonical_of_not ‹_›
  · rw [byteAt_of_length_le (by simpa using hi), byteAt_of_length_le (by simpa using hi)]

theorem eq_iff_record_eq_and_canonical_eq {a b : Bytes} :
    a = b ↔ a.record = b.record ∧ a.canonical = b.canonical := by
  constructor
  · rintro rfl
    exact ⟨rfl, rfl⟩
  · rintro ⟨hrecord, hcanonical⟩
    rw [← restore_canonical a, hrecord, hcanonical, restore_canonical b]

end Bytes

/-! ## Splitting a buffer -/

/-- **Record and cleared buffer split a buffer without loss.** Both exist from 215 bytes on. From
there on the two determine the buffer, and every record goes with every cleared buffer. A cleared
buffer has a zero record, and a zero record means that there is nothing to clear. -/
theorem ofBuffer_and_clear_lossless (a b : Bytes) (r : Record) :
    ((∃ p, Record.ofBuffer b = .ok p) ↔ 215 ≤ b.length) ∧
    ((clear b).answer = .ok () ↔ 215 ≤ b.length) ∧
    (215 ≤ b.length →
      (a.length = b.length →
        (a = b ↔ Record.ofBuffer a = Record.ofBuffer b ∧ (clear a).buffer = (clear b).buffer)) ∧
      (∃ c : Bytes, c.length = b.length ∧ Record.ofBuffer c = .ok r ∧
        (clear c).buffer = (clear b).buffer) ∧
      Record.ofBuffer (clear b).buffer = .ok (Octets.zero 196) ∧
      (Record.ofBuffer b = .ok (Octets.zero 196) ↔ (clear b).buffer = b)) := by
  refine ⟨?_, answer_clear_eq_ok_iff, ?_⟩
  · simp [Record.ofBuffer_eq_ok_iff]
  intro hb
  have hrecord := Record.ofBuffer_of_le hb
  have hclear := clear_of_le hb
  refine ⟨?_, ?_, ?_, ?_⟩
  · intro hlen
    have ha : 215 ≤ a.length := hlen ▸ hb
    rw [hrecord, hclear, Record.ofBuffer_of_le ha, clear_of_le ha, Except.ok.injEq]
    exact Bytes.eq_iff_record_eq_and_canonical_eq
  · have hc : 215 ≤ (b.restore r).length := by simpa using hb
    refine ⟨b.restore r, Bytes.length_restore b r, ?_, ?_⟩
    · rw [Record.ofBuffer_of_le hc, Bytes.record_restore hb]
    · rw [clear_of_le hc, hclear]
      exact Bytes.canonical_restore b r
  · rw [hclear, Record.ofBuffer_of_le (by simpa using hb), record_canonical]
  · rw [hrecord, hclear, Except.ok.injEq]
    exact Bytes.canonical_eq_self_iff.symm

end HeaderWork
