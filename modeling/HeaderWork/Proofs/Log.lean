import HeaderWork.Proofs.Rescoring
import HeaderWork.Proofs.Truncation

/-!
# What a run of calls logs

The log of a run tells which of its calls acted on an inspection, and what each of them found.

* `Pass.text_inj` — the text of a reason says which one it is.
* `Finding.ToldBy` — what a line says of a header; `Finding.alike_of_toldBy` — how far it can be read
  back.
* `reporting`, `Call.reported` — the actions that report what they find, and what a call reports.
* `log_run` — the lines of one call; `logOf_eq` — those of a run, by induction over its calls.
* `cleared_of_toldBy` — what is told to be verified has been cleared.
* `log_is_faithful` — the log of every run, as a whole and call by call.
-/

namespace HeaderWork

/-! ## Texts of reasons -/

/-- A number is read back from its digits. -/
theorem toString_nat_inj {m n : Nat} (h : toString m = toString n) : m = n := by
  have hdigits : Nat.toDigits 10 m = Nat.toDigits 10 n := by
    rw [← Nat.toList_repr, ← Nat.toList_repr]
    exact congrArg String.toList h
  calc
    m = Nat.ofDigitChars 10 (Nat.toDigits 10 m) 0 := Nat.ofDigitChars_ten_toDigits.symm
    _ = Nat.ofDigitChars 10 (Nat.toDigits 10 n) 0 := by rw [hdigits]
    _ = n := Nat.ofDigitChars_ten_toDigits

namespace Pass

-- The texts by name: rewriting with the equations of `text` computes with its literals.

theorem text_legacy (version : UInt32) :
    (legacy version).text =
      "LegacySolution " ++ Quoted.braced (" version: " ++ toString version.toNat ++ " ") := rfl

theorem text_noChains : noChains.text = "NoChainHeaders" := rfl

theorem text_cleared : cleared.text = "PreCleared" := rfl

theorem text_legacy_ne (version : UInt32) :
    (legacy version).text ≠ noChains.text ∧ (legacy version).text ≠ cleared.text := by
  rw [text_legacy, text_noChains, text_cleared]
  simp [← String.toList_inj]

theorem text_noChains_ne : noChains.text ≠ cleared.text := by
  rw [text_noChains, text_cleared]
  decide

/-- **The text of a reason says which one it is**, and the version of a legacy header. -/
theorem text_inj {p q : Pass} (h : p.text = q.text) : p = q := by
  cases p with
  | legacy v =>
      cases q with
      | legacy w =>
          rw [text_legacy, text_legacy, String.append_right_inj, Quoted.braced_inj,
            String.append_left_inj, String.append_right_inj] at h
          exact congrArg legacy (UInt32.toNat_inj.1 (toString_nat_inj h))
      | noChains => exact absurd h (text_legacy_ne v).1
      | cleared => exact absurd h (text_legacy_ne v).2
  | noChains =>
      cases q with
      | legacy w => exact absurd h.symm (text_legacy_ne w).1
      | noChains => rfl
      | cleared => exact absurd h text_noChains_ne
  | cleared =>
      cases q with
      | legacy w => exact absurd h.symm (text_legacy_ne w).2
      | noChains => exact absurd h.symm text_noChains_ne
      | cleared => rfl

example : (legacy 3).text = "LegacySolution { version: 3 }" := by decide

end Pass

theorem Refusal.text_mismatch_ne (embedded computed : Digest) :
    (mismatch embedded computed).text ≠ noDigest.text := by
  show "pre-header digest mismatch" ≠ "pre-header digest failure"
  decide

/-! ## What a line says -/

namespace Finding

/-- A line that says this of a header. It does not say which digests do not fit each other. -/
def ToldBy (line : LogLine) : Finding → Prop
  | .pass reason => line.level = .debug ∧ line.fields = [("reason", .text reason.text)]
  | .verified chains chain =>
    line.level = .debug ∧ ∃ digits : String,
      line.fields = [("num_chain_headers", .number chains.toNat), ("chain_id", .text digits)] ∧
      Hex.decode (Bytes.ofString digits) = .ok chain.toList ∧
      ∀ c ∈ digits.toList, c ∈ "0123456789abcdef".toList
  | .refused reason => line.level = .warn ∧ line.fields = [("reason", .text reason.text)]

theorem toldBy_report (f : Finding) : f.ToldBy f.report := by
  cases f with
  | pass p => exact ⟨rfl, rfl⟩
  | refused r => exact ⟨rfl, rfl⟩
  | verified n chain =>
      exact ⟨rfl, _, rfl, Hex.decode_ofString_encode _, fun _ => Hex.mem_lowerDigits_of_mem_encode⟩

theorem reason_inj {s t : String}
    (h : [("reason", FieldValue.text s)] = [("reason", FieldValue.text t)]) : s = t := by
  simpa using h

/-- Findings that differ at most in the digests of a mismatch. -/
def Alike (f g : Finding) : Prop :=
  f = g ∨ ∃ e c e' c', f = .refused (.mismatch e c) ∧ g = .refused (.mismatch e' c')

theorem alike_of_text_eq {r s : Refusal} (h : r.text = s.text) : Alike (.refused r) (.refused s) := by
  cases r with
  | mismatch e c =>
      cases s with
      | mismatch e' c' => exact .inr ⟨e, c, e', c', rfl, rfl⟩
      | noDigest => exact absurd h (Refusal.text_mismatch_ne e c)
  | noDigest =>
      cases s with
      | mismatch e c => exact absurd h.symm (Refusal.text_mismatch_ne e c)
      | noDigest => exact .inl rfl

/-- **A line says one thing of a header**, up to the digests of a mismatch. -/
theorem alike_of_toldBy {line : LogLine} {f g : Finding} (hf : f.ToldBy line)
    (hg : g.ToldBy line) : Alike f g := by
  -- Level and number of fields tell the kinds of findings apart, so only equal kinds are left.
  cases f with
  | pass p =>
      obtain ⟨hlevel, hfields⟩ := hf
      cases g with
      | pass q =>
          have htext := reason_inj (hfields.symm.trans hg.2)
          exact .inl (congrArg pass (Pass.text_inj htext))
      | verified n chain =>
          obtain ⟨-, digits, hg, -⟩ := hg
          simpa using congrArg List.length (hfields.symm.trans hg)
      | refused r => cases hlevel.symm.trans hg.1
  | verified n chain =>
      obtain ⟨hlevel, digits, hfields, hdigits, -⟩ := hf
      cases g with
      | pass q => simpa using congrArg List.length (hfields.symm.trans hg.2)
      | verified m other =>
          obtain ⟨-, digits', hfields', hdigits', -⟩ := hg
          have hsame := hfields.symm.trans hfields'
          simp only [List.cons.injEq, Prod.mk.injEq, FieldValue.number.injEq, FieldValue.text.injEq,
            true_and, and_true] at hsame
          obtain ⟨hn, rfl⟩ := hsame
          have hchain := Except.ok.inj (hdigits.symm.trans hdigits')
          rw [UInt8.toNat_inj.1 hn, Vector.toList_inj.1 hchain]
          exact .inl rfl
      | refused r => cases hlevel.symm.trans hg.1
  | refused r =>
      obtain ⟨hlevel, hfields⟩ := hf
      cases g with
      | pass q => cases hlevel.symm.trans hg.1
      | verified n chain => cases hlevel.symm.trans hg.1
      | refused s => exact alike_of_text_eq (reason_inj (hfields.symm.trans hg.2))

end Finding

/-! ## Reports of calls -/

/-- The actions that act on what they find in a header, and report it. -/
def reporting : List Action := [.clearVerified, .score, .digest .v2b2]

/-- What a call reports of `b`: what clearing finds in it, where that is asked for and succeeds. -/
def Call.reported (c : Call) (b : Bytes) : Option Finding :=
  if c.action ∈ reporting then (clearVerified c.scheme.recordDigest b).answer.toOption else none

/-- What the calls of a run report, one after the other. -/
def reportedBy (b : Bytes) : List Call → List Finding
  | [] => []
  | c :: rest => (c.reported b).toList ++ reportedBy (c.run b).buffer rest

/-- The lines of a run, one call after the other. -/
def logOf (b : Bytes) (calls : List Call) : List LogLine := (runCalls b calls).flatMap Outcome.log

theorem log_clear (b : Bytes) : (clear b).log = [] := by
  rw [clear]
  split <;> rfl

theorem log_run_of_not_reporting {a : Action} (ha : a ∉ reporting) (S : Scheme) (b : Bytes) :
    (Call.run ⟨S, a⟩ b).log = [] := by
  cases a with
  | examine => rfl
  | clearVerified => exact absurd (by decide) ha
  | clear => exact log_clear b
  | score => exact absurd (by decide) ha
  | digest m =>
      cases m with
      | v2b2 => exact absurd (by decide) ha
      | _ => rfl

/-- The others log what clearing a verified header logs, and leave the buffer that it leaves. -/
theorem run_of_reporting {a : Action} (ha : a ∈ reporting) (S : Scheme) (b : Bytes) :
    (Call.run ⟨S, a⟩ b).log = (clearVerified S.recordDigest b).log ∧
      (Call.run ⟨S, a⟩ b).buffer = (clearVerified S.recordDigest b).buffer := by
  simp only [reporting, List.mem_cons, List.not_mem_nil, or_false] at ha
  rcases ha with rfl | rfl | rfl <;> exact ⟨rfl, rfl⟩

/-- **A call logs what it reports**, and nothing else. -/
theorem log_run (c : Call) (b : Bytes) :
    (c.run b).log = ((c.reported b).map Finding.report).toList := by
  rw [Call.reported]
  by_cases hc : c.action ∈ reporting
  · rw [if_pos hc, (run_of_reporting hc c.scheme b).1, clearVerified_eq]
    cases examine c.scheme.recordDigest b <;> rfl
  · rw [if_neg hc, log_run_of_not_reporting hc c.scheme b]
    rfl

/-- **The log of a run is what its calls report**, in their order. -/
theorem logOf_eq (b : Bytes) (calls : List Call) :
    logOf b calls = (reportedBy b calls).map Finding.report := by
  -- Each call meets the buffer that the one in front of it has left.
  induction calls generalizing b with
  | nil => rfl
  | cons c rest ih =>
      show (c.run b).log ++ logOf (c.run b).buffer rest = _
      rw [log_run, ih, reportedBy, List.map_append, Option.toList_map]

theorem logOf_append (b : Bytes) (pre post : List Call) :
    logOf b (pre ++ post) = logOf b pre ++ logOf (bufferAfter b pre) post := by
  rw [logOf, runCalls_append, List.flatMap_append]
  rfl

/-! ## Reports and answers -/

theorem reported_eq_some_iff {c : Call} {b : Bytes} {f : Finding} :
    c.reported b = some f ↔
      c.action ∈ reporting ∧ (clearVerified c.scheme.recordDigest b).answer = .ok f := by
  rw [Call.reported]
  by_cases hc : c.action ∈ reporting
  · rw [if_pos hc]
    cases (clearVerified c.scheme.recordDigest b).answer with
    | error e => simp [Except.toOption]
    | ok g => simp [Except.toOption, hc]
  · rw [if_neg hc]
    simp [hc]

/-- A call that could report and has an answer does report, and its answer names no other finding. -/
theorem reported_of_ok {c : Call} {b : Bytes} {a : Answer} (hc : c.action ∈ reporting)
    (h : (c.run b).answer = .ok a) :
    ∃ f, c.reported b = some f ∧ ∀ g, a.finding? = some g → g = f := by
  simp only [reported_eq_some_iff, answer_clearVerified]
  obtain ⟨S, action⟩ := c
  cases hx : examine S.recordDigest b with
  | error e =>
      have hin : action ∈ inspecting := List.mem_cons_of_mem _ hc
      cases h.symm.trans ((answer_run_eq_error_iff hin).2 hx)
  | ok f =>
      refine ⟨f, ⟨hc, rfl⟩, ?_⟩
      intro g hg
      simp only [reporting, List.mem_cons, List.not_mem_nil, or_false] at hc
      rcases hc with rfl | rfl | rfl
      · simp only [Call.run, clearVerified_eq, hx] at h
        cases h
        exact (Option.some.inj hg).symm
      · simp only [Call.run, S.score_eq, hx] at h
        cases h
        rw [Answer.finding?, S.finding_scoreOf] at hg
        exact (Option.some.inj hg).symm
      · simp only [Call.run, Scheme.digestOf, Scheme.scoreDigest, S.score_eq, hx] at h
        cases h
        cases hg

/-- A call that fails logs nothing. -/
theorem log_run_of_error {c : Call} {b : Bytes} {e : OutOfRange}
    (h : (c.run b).answer = .error e) : (c.run b).log = [] := by
  by_cases hc : c.action ∈ reporting
  · have hin : c.action ∈ inspecting := List.mem_cons_of_mem _ hc
    have hx : examine c.scheme.recordDigest b = .error e := (answer_run_eq_error_iff hin).1 h
    rw [(run_of_reporting hc c.scheme b).1, clearVerified_eq, hx]
  · exact log_run_of_not_reporting hc c.scheme b

/-- **What is told to be verified has been cleared** by the call that tells it. -/
theorem cleared_of_toldBy {c : Call} {b : Bytes} {line : LogLine} {n : UInt8} {chain : ChainId}
    (hline : line ∈ (c.run b).log) (htold : (Finding.verified n chain).ToldBy line) :
    ∀ s ∈ Layout.clearedSpans, ∀ i ∈ s, (c.run b).buffer[i]? = some 0 := by
  rw [log_run, Option.mem_toList, Option.map_eq_some_iff] at hline
  obtain ⟨f, hreported, rfl⟩ := hline
  obtain ⟨hc, hanswer⟩ := reported_eq_some_iff.1 hreported
  rw [answer_clearVerified] at hanswer
  rcases Finding.alike_of_toldBy htold f.toldBy_report with rfl | ⟨_, _, _, _, hne, -⟩
  · obtain ⟨hlen, hbuffer⟩ := buffer_clearVerified_of_verified ⟨n, chain, hanswer⟩
    intro s hs i hi
    rw [(run_of_reporting hc c.scheme b).2, hbuffer]
    exact Bytes.getElem?_canonical_of_chainSpecific hlen
      (exists_mem_clearedSpans_iff.1 ⟨s, hs, hi⟩)
  · cases hne

/-! ## Logs of runs -/

/-- **The log is a faithful trace.** The lines of a run are what its calls report, in their order,
and each line tells what was found, up to the digests of a mismatch. A call reports when it acts on
what it finds in the buffer that it meets and does not fail, and then reports the finding that its
answer names; a call that fails logs nothing. Where a line tells of a verified header, the call behind
it has left zeros in everything that is cleared. -/
theorem log_is_faithful (b : Bytes) (calls : List Call) :
    logOf b calls = (reportedBy b calls).map Finding.report ∧
    (∀ f : Finding, f.ToldBy f.report) ∧
    (∀ (line : LogLine) (f g : Finding), f.ToldBy line → g.ToldBy line → f.Alike g) ∧
    ∀ pre c post, calls = pre ++ c :: post →
      let now := bufferAfter b pre
      let outcome := c.run now
      (runCalls b calls)[pre.length]? = some outcome ∧
      logOf b calls = logOf b pre ++ (outcome.log ++ logOf outcome.buffer post) ∧
      outcome.log = ((c.reported now).map Finding.report).toList ∧
      (∀ f, c.reported now = some f ↔
        c.action ∈ reporting ∧ (clearVerified c.scheme.recordDigest now).answer = .ok f) ∧
      (c.action ∈ reporting → ∀ a, outcome.answer = .ok a →
        ∃ f, c.reported now = some f ∧ ∀ g, a.finding? = some g → g = f) ∧
      (∀ e, outcome.answer = .error e → outcome.log = []) ∧
      (∀ line ∈ outcome.log, ∀ n chain, (Finding.verified n chain).ToldBy line →
        ∀ s ∈ Layout.clearedSpans, ∀ i ∈ s, outcome.buffer[i]? = some 0) := by
  refine ⟨logOf_eq b calls, Finding.toldBy_report, fun _ _ _ => Finding.alike_of_toldBy, ?_⟩
  rintro pre c post rfl now outcome
  refine ⟨getElem?_runCalls b pre c post, logOf_append b pre (c :: post), log_run c now,
    fun _ => reported_eq_some_iff, ?_, ?_, ?_⟩
  · intro hc a ha
    exact reported_of_ok hc ha
  · intro e he
    exact log_run_of_error he
  · intro line hline n chain htold
    exact cleared_of_toldBy hline htold

end HeaderWork
