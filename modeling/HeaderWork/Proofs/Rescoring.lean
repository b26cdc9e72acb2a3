import HeaderWork.Proofs.Calls

/-!
# Scoring a header again

A header that has been scored is not changed by scoring it again, and keeps its work hash.

* `Finding.settled`, `Score.settled` — what a header that was found or scored so is found and scored
  from then on.
* `examine_leaves` — the finding in what is left of a header that has been acted on.
* `score_settled` — the second score of a header, from the first.
* `runCalls_replicate_of_fixed` — a call made again and again on a buffer that it leaves as it is.
* `map_finding?_runCalls` — runs of scoring, and of clearing what is verified, find the same.
* `rescoring_is_stable` — any number of scores of one header.
-/

namespace HeaderWork

/-! ## What has been acted on -/

namespace Finding

/-- What is found in a header once this has been found: a verified one is cleared by then. -/
def settled : Finding → Finding
  | .verified _ _ => .pass .cleared
  | found => found

/-- There is nothing left to do. -/
theorem leaves_settled (f : Finding) (b : Bytes) : f.settled.leaves b = b := by
  cases f <;> rfl

end Finding

/-- **What is left of a header is settled**: clearing takes away the chain-specific places only, and a
record of zeros comes before its digest. -/
theorem examine_leaves {recordDigest : Record → Digest} {b : Bytes} {f : Finding}
    (h : examine recordDigest b = .ok f) : examine recordDigest (f.leaves b) = .ok f.settled := by
  cases f with
  | pass p => exact h
  | refused r => exact h
  | verified n chain =>
      -- The digest still stands in the entry and fits no more; the zeros are what is asked first.
      obtain ⟨bound, -⟩ := examine_eq_verified_iff.1 h
      show examine recordDigest b.canonical = .ok (.pass .cleared)
      rw [examine_canonical, if_pos ⟨bound.length, bound.version, bound.chains⟩]

/-! ## Second scores -/

namespace Score

/-- The score of a header once it has been scored so. -/
def settled : Score → Score
  | .hashed d f => .hashed d f.settled
  | .refused r => .refused r

@[simp] theorem digest_settled (v : Score) : v.settled.digest = v.digest := by
  cases v <;> rfl

/-- Nothing but a verified header is scored otherwise from then on. -/
theorem settled_of_ne_verified {v : Score} (h : ∀ d n chain, v ≠ .hashed d (.verified n chain)) :
    v.settled = v := by
  cases v with
  | refused r => rfl
  | hashed d f =>
      cases f with
      | pass p => rfl
      | refused r => rfl
      | verified n chain => exact absurd rfl (h d n chain)

theorem map_digest_map_settled (answer : Except OutOfRange Score) :
    (answer.map settled).map digest = answer.map digest := by
  cases answer with
  | error e => rfl
  | ok v => exact congrArg Except.ok v.digest_settled

theorem map_settled_of_ne_verified {answer : Except OutOfRange Score}
    (h : ∀ d n chain, answer ≠ .ok (.hashed d (.verified n chain))) :
    answer.map settled = answer := by
  cases answer with
  | error e => rfl
  | ok v =>
      refine congrArg Except.ok (settled_of_ne_verified ?_)
      intro d n chain hv
      exact h d n chain (congrArg Except.ok hv)

end Score

namespace Scheme

theorem scoreOf_settled (S : Scheme) (b : Bytes) (f : Finding) :
    S.scoreOf b f.settled = (S.scoreOf b f).settled := by
  cases f <;> rfl

/-- **A second score is the first, settled**, and leaves the buffer that the first has left. -/
theorem score_settled (S : Scheme) (b : Bytes) :
    (S.score (S.score b).buffer).answer = (S.score b).answer.map Score.settled ∧
      (S.score (S.score b).buffer).buffer = (S.score b).buffer := by
  cases h : examine S.recordDigest b with
  | error e =>
      rw [score_of_error h, score_of_error h]
      exact ⟨rfl, rfl⟩
  | ok f =>
      rw [score_of_ok h, score_of_ok (examine_leaves h), f.leaves_settled, scoreOf_settled]
      exact ⟨rfl, rfl⟩

end Scheme

/-! ## Runs -/

theorem runCalls_replicate_of_fixed {c : Call} {b : Bytes} (h : (c.run b).buffer = b) (n : Nat) :
    runCalls b (List.replicate n c) = List.replicate n (c.run b) := by
  induction n with
  | zero => rfl
  | succ n ih =>
      rw [List.replicate_succ, List.replicate_succ, runCalls]
      simp only [h, ih]

/-- What an inspection has found, by the answer of a call that rests on one. -/
def Answer.finding? : Answer → Option Finding
  | .finding f => some f
  | .score v => some v.finding
  | _ => none

/-- Scoring finds what clearing finds, leaves the same buffer and logs the same lines. -/
theorem map_finding?_run (S : Scheme) (b : Bytes) :
    (Call.run ⟨S, .score⟩ b).map Answer.finding? =
      (Call.run ⟨S, .clearVerified⟩ b).map Answer.finding? := by
  simp only [Call.run, S.score_eq, clearVerified_eq]
  cases examine S.recordDigest b with
  | error e => rfl
  | ok f =>
      simp only [Outcome.map, Except.map, Answer.finding?, Scheme.finding_scoreOf]

/-- **Runs of scoring, and of clearing what is verified, find the same**, under whatever schemes. -/
theorem map_finding?_runCalls (b : Bytes) (schemes : List Scheme) :
    (runCalls b (schemes.map (⟨·, .score⟩))).map (Outcome.map Answer.finding?) =
      (runCalls b (schemes.map (⟨·, .clearVerified⟩))).map (Outcome.map Answer.finding?) := by
  induction schemes generalizing b with
  | nil => rfl
  | cons S rest ih =>
      have hstep := map_finding?_run S b
      have hbuffer : (Call.run ⟨S, .score⟩ b).buffer = (Call.run ⟨S, .clearVerified⟩ b).buffer := by
        simpa only [Outcome.map] using congrArg Outcome.buffer hstep
      simp only [List.map_cons, runCalls, hstep, hbuffer, ih]

/-- **Repeated scoring is stable.** All scores of a header but the first leave the buffer as it is,
and have the digest of the first, or its error. A verified header is found cleared from the second
score on; any other gets the same score every time. Clearing what is verified, as often, finds the
same. -/
theorem rescoring_is_stable (S : Scheme) (b : Bytes) (k : Nat) :
    let first := S.score b
    let later := S.score first.buffer
    runCalls b (List.replicate (k + 1) ⟨S, .score⟩) =
      first.map .score :: List.replicate k (later.map .score) ∧
    later.buffer = first.buffer ∧
    later.answer.map Score.digest = first.answer.map Score.digest ∧
    (∀ d n chain, first.answer = .ok (.hashed d (.verified n chain)) →
      later.answer = .ok (.hashed d (.pass .cleared))) ∧
    ((∀ d n chain, first.answer ≠ .ok (.hashed d (.verified n chain))) →
      later.answer = first.answer) ∧
    (runCalls b (List.replicate (k + 1) ⟨S, .score⟩)).map (Outcome.map Answer.finding?) =
      (runCalls b (List.replicate (k + 1) ⟨S, .clearVerified⟩)).map
        (Outcome.map Answer.finding?) := by
  intro first later
  obtain ⟨hanswer, hbuffer⟩ : later.answer = first.answer.map Score.settled ∧
      later.buffer = first.buffer := S.score_settled b
  have hfixed : (Call.run ⟨S, .score⟩ first.buffer).buffer = first.buffer := hbuffer
  refine ⟨?_, hbuffer, ?_, ?_, ?_, ?_⟩
  · show first.map .score :: runCalls first.buffer (List.replicate k ⟨S, .score⟩) = _
    rw [runCalls_replicate_of_fixed hfixed]
    rfl
  · rw [hanswer, Score.map_digest_map_settled]
  · intro d n chain h
    rw [hanswer, h]
    rfl
  · intro h
    rw [hanswer, Score.map_settled_of_ne_verified h]
  · have hruns := map_finding?_runCalls b (List.replicate (k + 1) S)
    rwa [List.map_replicate, List.map_replicate] at hruns

end HeaderWork
