import HeaderWork.Proofs.Decision
import HeaderWork.Scoring

/-!
# Scoring against inspection

Everything that scoring does follows from what the inspection of the buffer finds.

* `Finding.leaves` — the buffer that is left after a finding has been acted on.
* `clearVerified_eq`, `score_eq` — answer, buffer and log of both steps, from the inspection alone.
* `score_refines_examine` — the five outcomes of scoring, byte by byte.
-/

namespace HeaderWork

/-- The buffer after a finding has been acted on: only a verified header is cleared. -/
def Finding.leaves (b : Bytes) : Finding → Bytes
  | .verified _ _ => b.canonical
  | _ => b

/-- A verified header is long enough to be cleared, so clearing it cannot fail. -/
theorem clear_of_verified {recordDigest : Record → Digest} {b : Bytes} {n : UInt8} {chain : ChainId}
    (h : examine recordDigest b = .ok (.verified n chain)) :
    clear b = ⟨.ok (), b.canonical, []⟩ := by
  obtain ⟨bound, -⟩ := examine_eq_verified_iff.1 h
  exact clear_of_le bound.reaches

/-- **Clearing what is verified answers as the inspection does**, logs its finding, and changes
nothing when it fails. -/
theorem clearVerified_eq (recordDigest : Record → Digest) (b : Bytes) :
    clearVerified recordDigest b =
      match examine recordDigest b with
      | .error e => ⟨.error e, b, []⟩
      | .ok f => ⟨.ok f, f.leaves b, [f.report]⟩ := by
  unfold clearVerified
  cases h : examine recordDigest b with
  | error e => rfl
  | ok f =>
      cases f with
      | pass p => rfl
      | refused r => rfl
      | verified n chain =>
          simp only [clear_of_verified h]
          rfl

theorem answer_clearVerified (recordDigest : Record → Digest) (b : Bytes) :
    (clearVerified recordDigest b).answer = examine recordDigest b := by
  rw [clearVerified_eq]
  cases examine recordDigest b <;> rfl

namespace Scheme

theorem score_eq (S : Scheme) (b : Bytes) :
    S.score b =
      match examine S.recordDigest b with
      | .error e => ⟨.error e, b, []⟩
      | .ok f => ⟨.ok (S.scoreOf (f.leaves b) f), f.leaves b, [f.report]⟩ := by
  unfold score
  rw [clearVerified_eq]
  cases examine S.recordDigest b <;> rfl

theorem score_of_error {S : Scheme} {b : Bytes} {e : OutOfRange}
    (h : examine S.recordDigest b = .error e) : S.score b = ⟨.error e, b, []⟩ := by
  rw [score_eq, h]

theorem score_of_ok {S : Scheme} {b : Bytes} {f : Finding}
    (h : examine S.recordDigest b = .ok f) :
    S.score b = ⟨.ok (S.scoreOf (f.leaves b) f), f.leaves b, [f.report]⟩ := by
  rw [score_eq, h]

/-- A score holds its finding. -/
theorem finding_scoreOf (S : Scheme) (b : Bytes) (f : Finding) : (S.scoreOf b f).finding = f := by
  cases f <;> rfl

/-- A header that is hashed is not refused, and its digest is the folded hash of what is left. -/
theorem scoreOf_eq_hashed {S : Scheme} {b : Bytes} {f g : Finding} {d : Digest}
    (h : S.scoreOf b f = .hashed d g) :
    f = g ∧ d = S.hashFolded b ∧ ∀ r, g ≠ .refused r := by
  cases f with
  | refused r => cases h
  | pass p =>
      cases h
      exact ⟨rfl, rfl, fun r hr => by cases hr⟩
  | verified n chain =>
      cases h
      exact ⟨rfl, rfl, fun r hr => by cases hr⟩

/-- A hashed header comes with its finding, and its digest is that of the buffer that is left. -/
theorem examine_of_hashed {S : Scheme} {b : Bytes} {d : Digest} {f : Finding}
    (h : (S.score b).answer = .ok (.hashed d f)) :
    examine S.recordDigest b = .ok f ∧ (S.score b).buffer = f.leaves b ∧
      d = S.hashFolded (f.leaves b) := by
  cases hx : examine S.recordDigest b with
  | error e =>
      rw [score_of_error hx] at h
      cases h
  | ok g =>
      rw [score_of_ok hx] at h ⊢
      obtain ⟨rfl, hd, -⟩ := scoreOf_eq_hashed (Except.ok.inj h)
      exact ⟨rfl, rfl, hd⟩

/-- **Scoring refines inspection.** An error or a refusal leaves the buffer as it is, a passing
header is hashed as it is, and a verified one is hashed with zeros at exactly the chain-specific
places; after a successful inspection nothing can fail. -/
theorem score_refines_examine (S : Scheme) (b : Bytes) :
    (∀ e, examine S.recordDigest b = .error e →
      (S.score b).answer = .error e ∧ (S.score b).buffer = b ∧
        (S.scoreDigest b).answer = .error e ∧ (S.scoreDigest b).buffer = b) ∧
    (∀ r, examine S.recordDigest b = .ok (.refused r) →
      (S.score b).answer = .ok (.refused r) ∧ (S.score b).buffer = b ∧
        (Score.refused r).digest = Vector.replicate 32 0xff ∧
        (S.scoreDigest b).answer = .ok (Vector.replicate 32 0xff) ∧
        (S.digestOf .v2b2 b).answer = .ok (Vector.replicate 32 0xff)) ∧
    (∀ p, examine S.recordDigest b = .ok (.pass p) →
      (S.score b).answer = .ok (.hashed (S.hashFolded b) (.pass p)) ∧ (S.score b).buffer = b) ∧
    (∀ n chain, examine S.recordDigest b = .ok (.verified n chain) →
      (S.score b).answer = .ok (.hashed (S.hashFolded (S.score b).buffer) (.verified n chain)) ∧
        (S.score b).buffer.length = b.length ∧
        (∀ i, ChainSpecific i → (S.score b).buffer[i]? = some 0) ∧
        (∀ i, ¬ ChainSpecific i → (S.score b).buffer[i]? = b[i]?) ∧
        (clear b).answer = .ok ()) ∧
    (∀ d f, (S.score b).answer = .ok (.hashed d f) →
      (∀ r, f ≠ .refused r) ∧ d = S.hashFolded (S.score b).buffer) ∧
    (∀ f, examine S.recordDigest b = .ok f →
      (clearVerified S.recordDigest b).answer = .ok f ∧
        ∃ v, (S.score b).answer = .ok v ∧ v.finding = f) ∧
    (∀ e, (S.score b).answer = .error e →
      examine S.recordDigest b = .error e ∧ (S.score b).buffer = b) := by
  refine ⟨?_, ?_, ?_, ?_, ?_, ?_, ?_⟩
  · intro e h
    have hs := score_of_error h
    unfold scoreDigest
    rw [hs]
    exact ⟨rfl, rfl, rfl, rfl⟩
  · intro r h
    have hs := score_of_ok h
    unfold digestOf scoreDigest
    rw [hs]
    exact ⟨rfl, rfl, rfl, rfl, rfl⟩
  · intro p h
    rw [score_of_ok h]
    exact ⟨rfl, rfl⟩
  · intro n chain h
    have bound := (examine_eq_verified_iff.1 h).1
    rw [score_of_ok h, clear_of_verified h]
    refine ⟨rfl, Bytes.length_canonical b, ?_, ?_, rfl⟩
    · intro i hi
      exact Bytes.getElem?_canonical_of_chainSpecific (Nat.le_trans (by decide) bound.length) hi
    · intro i hi
      exact Bytes.getElem?_canonical_of_not hi
  · intro d f h
    cases hx : examine S.recordDigest b with
    | error e =>
        rw [score_of_error hx] at h
        cases h
    | ok g =>
        rw [score_of_ok hx] at h ⊢
        obtain ⟨-, hd, hr⟩ := scoreOf_eq_hashed (Except.ok.inj h)
        exact ⟨hr, hd⟩
  · intro f h
    rw [score_of_ok h, answer_clearVerified]
    exact ⟨h, _, rfl, finding_scoreOf S _ f⟩
  · intro e h
    cases hx : examine S.recordDigest b with
    | error e' =>
        rw [score_of_error hx] at h ⊢
        cases h
        exact ⟨rfl, rfl⟩
    | ok g =>
        rw [score_of_ok hx] at h
        cases h

end Scheme

end HeaderWork
