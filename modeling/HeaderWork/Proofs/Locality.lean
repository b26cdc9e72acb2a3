import HeaderWork.Proofs.Score

/-!
# What an inspection depends on

An inspection looks at some places of a header and at nothing else, and what it has found it finds
again when more bytes follow.

* `Inspected` — the places that can decide; `not_inspected_iff` — all others.
* `decision_congr`, `examine_congr` — buffers of one length that agree there are inspected alike.
* `decision_append`, `examine_append`, `clearVerified_append` — a finding stands whatever is
  appended, and what is cleared are the bytes that were there before.
* `examine_take` — the front of a header fails, or is inspected like the whole.
* `inspection_is_local` — all of it.
-/

namespace HeaderWork

/-! ## Places that can decide -/

/-- The chain-specific places, the version and the number of chain entries, and the first entry. -/
def Inspected (i : Nat) : Prop :=
  (4 ≤ i ∧ i < 100) ∨ (104 ≤ i ∧ i < 140) ∨ (143 ≤ i ∧ i < 147) ∨ i = 148 ∨ (151 ≤ i ∧ i < 267)

/-- Version and time of the header, the length in front of the solution, its descriptor and free
space, and all behind the first entry: nothing of it can decide. -/
theorem not_inspected_iff {i : Nat} :
    ¬ Inspected i ↔
      i < 4 ∨ (100 ≤ i ∧ i < 104) ∨ (140 ≤ i ∧ i < 143) ∨ i = 147 ∨ (149 ≤ i ∧ i < 151) ∨
        267 ≤ i := by
  unfold Inspected
  omega

theorem inspected_of_chainSpecific {i : Nat} (h : ChainSpecific i) : Inspected i := by
  unfold ChainSpecific at h
  unfold Inspected
  omega

/-! ## Buffers that agree there -/

section

variable {a b : Bytes}

/-- **The decision looks at no other place.** -/
theorem decision_congr (h : ∀ i, Inspected i → a.byteAt i = b.byteAt i)
    (recordDigest : Record → Digest) : decision recordDigest a = decision recordDigest b := by
  have hversion : a.version = b.version :=
    Bytes.version_congr fun i h1 h2 => h i (by unfold Inspected; omega)
  have hchains : a.byteAt 148 = b.byteAt 148 := h 148 (by unfold Inspected; omega)
  have hrecord : a.record = b.record :=
    Bytes.record_eq_record_iff.2 fun i hi => h i (inspected_of_chainSpecific hi)
  have hchain : a.window 20 215 = b.window 20 215 :=
    Bytes.window_congr fun i h1 h2 => h i (by unfold Inspected; omega)
  have hdigest : a.window 32 235 = b.window 32 235 :=
    Bytes.window_congr fun i h1 h2 => h i (by unfold Inspected; omega)
  unfold decision
  rw [hversion, hchains, hrecord, hchain, hdigest]

theorem examinedSpans_congr (hversion : a.version = b.version)
    (hchains : a.byteAt 148 = b.byteAt 148) : examinedSpans a = examinedSpans b := by
  rw [examinedSpans, examinedSpans, hversion, hchains]

/-- **Buffers of one length that agree where it matters are inspected alike**, errors included. -/
theorem examine_congr (hlen : a.length = b.length) (h : ∀ i, Inspected i → a[i]? = b[i]?)
    (recordDigest : Record → Digest) : examine recordDigest a = examine recordDigest b := by
  have hbytes : ∀ i, Inspected i → a.byteAt i = b.byteAt i := by
    intro i hi
    rw [Bytes.byteAt, Bytes.byteAt, h i hi]
  have hversion : a.version = b.version :=
    Bytes.version_congr fun i h1 h2 => hbytes i (by unfold Inspected; omega)
  have hchains : a.byteAt 148 = b.byteAt 148 := hbytes 148 (by unfold Inspected; omega)
  rw [examine_eq, examine_eq, examinedSpans_congr hversion hchains]
  exact Bytes.granted_congr hlen fun _ => decision_congr hbytes recordDigest

end

/-! ## Bytes that follow -/

section

variable {p : Bytes} (t : Bytes)

theorem version_append (h : 147 ≤ p.length) : Bytes.version (p ++ t) = p.version :=
  Bytes.version_congr fun _ _ hi => Bytes.byteAt_append_left t (by omega)

theorem complete_append (h : Complete p) : Complete (p ++ t) := by
  obtain ⟨hversion, hclaim⟩ := h
  rw [Complete, version_append t hversion, List.length_append]
  refine ⟨by omega, ?_⟩
  intro hv
  obtain ⟨hcount, hentry⟩ := hclaim hv
  rw [Bytes.byteAt_append_left t (by omega)]
  refine ⟨by omega, ?_⟩
  intro hc
  have := hentry hc
  omega

/-- A complete buffer is decided by its own bytes. -/
theorem decision_append (h : Complete p) (recordDigest : Record → Digest) :
    decision recordDigest (p ++ t) = decision recordDigest p := by
  obtain ⟨hlen, hclaim⟩ := h
  have hversion := version_append t hlen
  by_cases hv : p.version ≤ 6
  · rw [decision, decision, hversion, if_pos hv, if_pos hv]
  obtain ⟨hcount, hentry⟩ := hclaim (UInt32.not_le.1 hv)
  have hchains : Bytes.byteAt (p ++ t) 148 = p.byteAt 148 := Bytes.byteAt_append_left t (by omega)
  by_cases hc : p.byteAt 148 = 0
  · rw [decision, decision, hversion, hchains, if_neg hv, if_neg hv, if_pos hc, if_pos hc]
  -- With chain entries claimed, the buffer reaches behind all places that can decide.
  have hfirst := hentry hc
  apply decision_congr
  intro i hi
  unfold Inspected at hi
  exact Bytes.byteAt_append_left t (by omega)

/-- **A finding stands, whatever follows.** -/
theorem examine_append {recordDigest : Record → Digest} {f : Finding}
    (h : examine recordDigest p = .ok f) : examine recordDigest (p ++ t) = .ok f := by
  obtain ⟨hcomplete, rfl⟩ := examine_eq_ok h
  rw [examine_of_complete (complete_append t hcomplete), decision_append t hcomplete]

/-- The front of a header fails, or is inspected like the whole. -/
theorem examine_take (recordDigest : Record → Digest) (b : Bytes) (n : Nat) :
    (∃ e, examine recordDigest (b.take n) = .error e) ∨
      examine recordDigest (b.take n) = examine recordDigest b := by
  cases h : examine recordDigest (b.take n) with
  | error e => exact Or.inl ⟨e, rfl⟩
  | ok f =>
      have happend := examine_append (b.drop n) h
      rw [List.take_append_drop] at happend
      exact Or.inr happend.symm

theorem Bytes.canonical_append (h : 215 ≤ p.length) :
    Bytes.canonical (p ++ t) = p.canonical ++ t := by
  apply List.ext_getElem?
  intro i
  by_cases hi : i < p.length
  · rw [List.getElem?_append_left (by simpa using hi), Bytes.canonical, Bytes.canonical,
      List.getElem?_mapIdx, List.getElem?_mapIdx, List.getElem?_append_left hi]
  · have hplace : ¬ ChainSpecific i := not_chainSpecific_of_le (by omega)
    rw [Bytes.getElem?_canonical_of_not hplace, List.getElem?_append_right (by omega),
      List.getElem?_append_right (by simp; omega), Bytes.length_canonical]

/-- What is left of a header are its own bytes, and those that follow as they were. -/
theorem leaves_append {recordDigest : Record → Digest} {f : Finding}
    (h : examine recordDigest p = .ok f) : f.leaves (p ++ t) = f.leaves p ++ t := by
  cases f with
  | pass reason => rfl
  | refused reason => rfl
  | verified n chain =>
      obtain ⟨bound, -⟩ := examine_eq_verified_iff.1 h
      exact Bytes.canonical_append t bound.reaches

/-- **So does what is done on it**: the same answer and log, and a buffer that goes on as before. -/
theorem clearVerified_append {recordDigest : Record → Digest} {f : Finding} {q : Bytes}
    {log : List LogLine} (h : clearVerified recordDigest p = ⟨.ok f, q, log⟩) :
    clearVerified recordDigest (p ++ t) = ⟨.ok f, q ++ t, log⟩ := by
  have hx : examine recordDigest p = .ok f := by rw [← answer_clearVerified, h]
  rw [clearVerified_eq, hx] at h
  obtain ⟨-, rfl, rfl⟩ := Outcome.mk.inj h
  rw [clearVerified_eq, examine_append t hx]
  dsimp only
  rw [leaves_append t hx]

end

/-! ## Locality -/

/-- **An inspection is local.** What it has found in a buffer it finds whatever is appended, and a
verified header is cleared as before; so the front of a header fails, or is inspected like the whole.
Buffers of one length that agree on the inspected places are inspected alike, errors included, and a
byte at any other place can be changed without notice. -/
theorem inspection_is_local (recordDigest : Record → Digest) (a b : Bytes) :
    (∀ f t, examine recordDigest b = .ok f →
      examine recordDigest (b ++ t) = .ok f ∧
      ∀ q log, clearVerified recordDigest b = ⟨.ok f, q, log⟩ →
        clearVerified recordDigest (b ++ t) = ⟨.ok f, q ++ t, log⟩) ∧
    (∀ n, (∃ e, examine recordDigest (b.take n) = .error e) ∨
      examine recordDigest (b.take n) = examine recordDigest b) ∧
    (a.length = b.length → (∀ i, Inspected i → a[i]? = b[i]?) →
      examine recordDigest a = examine recordDigest b) ∧
    (∀ i x, i < 4 ∨ (100 ≤ i ∧ i < 104) ∨ (140 ≤ i ∧ i < 143) ∨ i = 147 ∨ (149 ≤ i ∧ i < 151) ∨
      267 ≤ i → examine recordDigest (b.set i x) = examine recordDigest b) := by
  refine ⟨?_, examine_take recordDigest b, ?_, ?_⟩
  · intro f t h
    exact ⟨examine_append t h, fun q log => clearVerified_append t⟩
  · intro hlen h
    exact examine_congr hlen h recordDigest
  · intro i x hi
    apply examine_congr List.length_set
    intro j hj
    apply List.getElem?_set_ne
    rintro rfl
    exact not_inspected_iff.2 hi hj

end HeaderWork
