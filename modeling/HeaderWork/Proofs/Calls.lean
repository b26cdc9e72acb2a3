import HeaderWork.Proofs.Score
import HeaderWork.Session

/-!
# Runs of calls on one buffer

Whatever calls are made, under whatever primitives, a buffer is either as it was at the start or in
its canonical form.

* `bufferAfter` — the buffer that a list of calls leaves; `getElem?_runCalls` — each outcome of a
  run is that of its call on the buffer left by those in front of it.
* `Call.Clears`, `ClearedBy` — a call clears the buffer that it finds; some call of a list does.
* `buffer_run_of_clears`, `buffer_run_of_not_clears` — what one call does to a buffer.
* `bufferAfter_of_clearedBy`, `bufferAfter_of_not_clearedBy` — what a run does to it.
* `runCalls_two_buffers` — buffers, digests and inspections at every point of a run.
-/

namespace HeaderWork

/-! ## Buffers along a run -/

/-- The buffer that calls leave behind. -/
def bufferAfter (b : Bytes) (calls : List Call) : Bytes :=
  calls.foldl (fun now c => (c.run now).buffer) b

theorem bufferAfter_append (b : Bytes) (pre post : List Call) :
    bufferAfter b (pre ++ post) = bufferAfter (bufferAfter b pre) post :=
  List.foldl_append

theorem runCalls_append (b : Bytes) (pre post : List Call) :
    runCalls b (pre ++ post) = runCalls b pre ++ runCalls (bufferAfter b pre) post := by
  induction pre generalizing b with
  | nil => rfl
  | cons c rest ih => exact congrArg (c.run b :: ·) (ih (c.run b).buffer)

theorem getElem?_runCalls (b : Bytes) (pre : List Call) (c : Call) (post : List Call) :
    (runCalls b (pre ++ c :: post))[pre.length]? = some (c.run (bufferAfter b pre)) := by
  induction pre generalizing b with
  | nil => rfl
  | cons d rest ih => exact ih (d.run b).buffer

/-! ## Calls that clear -/

/-- A call clears the buffer that it finds: clearing succeeds, or its inspection verifies. -/
def Call.Clears (c : Call) (b : Bytes) : Prop :=
  match c.action with
  | .clear => (clear b).answer = .ok ()
  | .clearVerified | .score | .digest .v2b2 =>
      ∃ n chain, examine c.scheme.recordDigest b = .ok (.verified n chain)
  | _ => False

/-- Some call clears the buffer that the calls in front of it have left. -/
def ClearedBy (b : Bytes) : List Call → Prop
  | [] => False
  | c :: rest => c.Clears b ∨ ClearedBy (c.run b).buffer rest

theorem clearedBy_append {b : Bytes} {pre post : List Call} :
    ClearedBy b (pre ++ post) ↔ ClearedBy b pre ∨ ClearedBy (bufferAfter b pre) post := by
  induction pre generalizing b with
  | nil => exact (false_or _).symm.to_iff
  | cons c rest ih =>
      show c.Clears b ∨ ClearedBy _ (rest ++ post) ↔ (c.Clears b ∨ ClearedBy _ rest) ∨ _
      rw [ih, or_assoc]
      rfl

theorem buffer_clearVerified_of_verified {recordDigest : Record → Digest} {b : Bytes}
    (h : ∃ n chain, examine recordDigest b = .ok (.verified n chain)) :
    215 ≤ b.length ∧ (clearVerified recordDigest b).buffer = b.canonical := by
  obtain ⟨n, chain, h⟩ := h
  refine ⟨(examine_eq_verified_iff.1 h).1.reaches, ?_⟩
  rw [clearVerified_eq, h]
  rfl

theorem buffer_clearVerified_of_not_verified {recordDigest : Record → Digest} {b : Bytes}
    (h : ¬ ∃ n chain, examine recordDigest b = .ok (.verified n chain)) :
    (clearVerified recordDigest b).buffer = b := by
  rw [clearVerified_eq]
  cases hx : examine recordDigest b with
  | error e => rfl
  | ok f =>
      cases f with
      | pass p => rfl
      | refused r => rfl
      | verified n chain => exact absurd ⟨n, chain, hx⟩ h

/-! ## One call -/

theorem buffer_run_of_clears {c : Call} {b : Bytes} (h : c.Clears b) :
    215 ≤ b.length ∧ (c.run b).buffer = b.canonical := by
  obtain ⟨S, action⟩ := c
  cases action with
  | examine => cases h
  | clearVerified => exact buffer_clearVerified_of_verified h
  | score => exact buffer_clearVerified_of_verified h
  | clear =>
      have hlen : 215 ≤ b.length := answer_clear_eq_ok_iff.1 h
      refine ⟨hlen, ?_⟩
      show (clear b).buffer = _
      rw [clear_of_le hlen]
  | digest m =>
      cases m with
      | v2b2 => exact buffer_clearVerified_of_verified h
      | _ => cases h

theorem buffer_run_of_not_clears {c : Call} {b : Bytes} (h : ¬ c.Clears b) :
    (c.run b).buffer = b := by
  obtain ⟨S, action⟩ := c
  cases action with
  | examine => rfl
  | clearVerified => exact buffer_clearVerified_of_not_verified h
  | score => exact buffer_clearVerified_of_not_verified h
  | clear =>
      have hlen : ¬ 215 ≤ b.length := fun hle => h (answer_clear_eq_ok_iff.2 hle)
      obtain ⟨e, he⟩ := clear_of_lt (Nat.lt_of_not_le hlen)
      show (clear b).buffer = b
      rw [he]
  | digest m =>
      cases m with
      | v2b2 => exact buffer_clearVerified_of_not_verified h
      | _ => rfl

/-! ## Runs -/

/-- Nothing undoes a canonical form. -/
theorem bufferAfter_canonical (b : Bytes) (calls : List Call) :
    bufferAfter b.canonical calls = b.canonical := by
  induction calls with
  | nil => rfl
  | cons c rest ih =>
      have step : (c.run b.canonical).buffer = b.canonical := by
        by_cases h : c.Clears b.canonical
        · rw [(buffer_run_of_clears h).2, Bytes.canonical_canonical]
        · exact buffer_run_of_not_clears h
      show bufferAfter (c.run b.canonical).buffer rest = _
      rw [step, ih]

theorem bufferAfter_of_clearedBy {b : Bytes} {calls : List Call} (h : ClearedBy b calls) :
    215 ≤ b.length ∧ bufferAfter b calls = b.canonical := by
  induction calls with
  | nil => cases h
  | cons c rest ih =>
      show _ ∧ bufferAfter (c.run b).buffer rest = _
      by_cases hc : c.Clears b
      · obtain ⟨hlen, hbuf⟩ := buffer_run_of_clears hc
        rw [hbuf]
        exact ⟨hlen, bufferAfter_canonical b rest⟩
      · have hrest := h.resolve_left hc
        rw [buffer_run_of_not_clears hc] at hrest ⊢
        exact ih hrest

theorem bufferAfter_of_not_clearedBy {b : Bytes} {calls : List Call} (h : ¬ ClearedBy b calls) :
    bufferAfter b calls = b := by
  induction calls with
  | nil => rfl
  | cons c rest ih =>
      have hc : ¬ c.Clears b := fun hc => h (Or.inl hc)
      have hrest : ¬ ClearedBy (c.run b).buffer rest := fun hr => h (Or.inr hr)
      show bufferAfter (c.run b).buffer rest = b
      rw [buffer_run_of_not_clears hc] at hrest ⊢
      exact ih hrest

/-- The plain methods, each with its hash. -/
def Scheme.plainHashes (S : Scheme) : List (Method × (Bytes → Digest)) :=
  [(.v1, S.hashFirst), (.v2, S.hashSecond), (.v2b, S.hashFolded), (.v2b1, S.hashFolded)]

theorem answer_run_of_plain {c : Call} {m : Method} {hash : Bytes → Digest}
    (hm : (m, hash) ∈ c.scheme.plainHashes) (hc : c.action = .digest m) (b : Bytes) :
    (c.run b).answer = .ok (.digest (hash b)) := by
  obtain ⟨S, action⟩ := c
  cases hc
  simp only [Scheme.plainHashes, List.mem_cons, Prod.mk.injEq, List.not_mem_nil, or_false] at hm
  rcases hm with ⟨rfl, rfl⟩ | ⟨rfl, rfl⟩ | ⟨rfl, rfl⟩ | ⟨rfl, rfl⟩ <;> rfl

/-- **Two buffers.** At every point of every run the buffer is the one at the start until some call
clears it, and its canonical form from then on. Plain hashes are those of that buffer. Once cleared,
it is found cleared where it claims chain entries and is complete, and is otherwise inspected as the
buffer at the start. -/
theorem runCalls_two_buffers (b : Bytes) (pre : List Call) (c : Call) (post : List Call) :
    let now := bufferAfter b pre
    let outcome := c.run now
    (runCalls b (pre ++ c :: post))[pre.length]? = some outcome ∧
    (ClearedBy b pre → 215 ≤ b.length ∧ now = b.canonical) ∧
    (¬ ClearedBy b pre → now = b) ∧
    (ClearedBy b pre ∨ c.Clears now → outcome.buffer = b.canonical) ∧
    (¬ (ClearedBy b pre ∨ c.Clears now) → outcome.buffer = b) ∧
    (∀ m hash, (m, hash) ∈ c.scheme.plainHashes → c.action = .digest m →
      outcome.answer = .ok (.digest (hash now))) ∧
    (c.action = .examine ∨ c.action = .clearVerified →
      outcome.answer = (examine c.scheme.recordDigest now).map .finding) ∧
    (ClearedBy b pre → ∀ recordDigest, examine recordDigest now =
      if 267 ≤ b.length ∧ 6 < b.version ∧ b.byteAt 148 ≠ 0 then .ok (.pass .cleared)
      else examine recordDigest b) := by
  intro now outcome
  have after : outcome.buffer = bufferAfter b (pre ++ [c]) := (bufferAfter_append b pre [c]).symm
  have cleared : ClearedBy b (pre ++ [c]) ↔ ClearedBy b pre ∨ c.Clears now := by
    rw [clearedBy_append]
    exact or_congr_right (or_false _).to_iff
  refine ⟨getElem?_runCalls b pre c post, bufferAfter_of_clearedBy, bufferAfter_of_not_clearedBy,
    ?_, ?_, ?_, ?_, ?_⟩
  · intro h
    rw [after]
    exact (bufferAfter_of_clearedBy (cleared.2 h)).2
  · intro h
    rw [after]
    exact bufferAfter_of_not_clearedBy fun hc => h (cleared.1 hc)
  · intro m hash hm hc
    exact answer_run_of_plain hm hc now
  · rintro (hc | hc)
    · show (Call.run c now).answer = _
      rw [Call.run, hc]
      rfl
    · show (Call.run c now).answer = _
      rw [Call.run, hc, ← answer_clearVerified]
      rfl
  · intro h recordDigest
    have hnow : now = b.canonical := (bufferAfter_of_clearedBy h).2
    rw [hnow]
    exact examine_canonical recordDigest b

end HeaderWork
