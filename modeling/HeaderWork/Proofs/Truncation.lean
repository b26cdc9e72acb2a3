import HeaderWork.Proofs.Score
import HeaderWork.Session

/-!
# Headers that are cut off

A header that ends too early is reported with the field in which it ends, by everything that rests
on an inspection, and nothing else happens to it.

* `cutField` — the first field that an inspection would read behind the end of the buffer;
  `cutField_eq_none_iff` — there is none exactly when the buffer is complete.
* `examine_eq_error_iff` — that field is the error of an inspection.
* `clearVerified_of_cutField`, `score_of_cutField` — the same error, and no change and no report.
* `examine_take_of_claim` — a header that claims chain entries is an error wherever it is cut off in
  front of the end of its first entry.
* `truncation_is_reported` — all of it, and that neither the record nor clearing can be what fails.
-/

namespace HeaderWork

/-! ## The field that is cut off -/

/-- The field in which a buffer ends, of those that its own version and count of chain entries make
an inspection read. -/
def cutField (b : Bytes) : Option Span :=
  if b.length < 147 then some ⟨143, 4⟩
  else if b.version ≤ 6 then none
  else if b.length < 149 then some ⟨148, 1⟩
  else if b.byteAt 148 = 0 then none
  else if b.length < 151 then some ⟨149, 2⟩
  else if b.length < 183 then some ⟨151, 32⟩
  else if b.length < 215 then some ⟨183, 32⟩
  else if b.length < 235 then some ⟨215, 20⟩
  else if b.length < 267 then some ⟨235, 32⟩
  else none

theorem missing?_examinedSpans (b : Bytes) : b.missing? (examinedSpans b) = cutField b := by
  -- Both tables ask for the fields in the order of their reading, which ends early for headers that
  -- carry no entry, so the two early ends are split off where they stand.
  have hnil : b.missing? [] = none := rfl
  rw [examinedSpans, cutField, Bytes.missing?_cons _ (by decide)]
  by_cases hv : b.version ≤ 6
  · rw [if_pos hv, if_pos hv, hnil]
    rfl
  rw [if_neg hv, if_neg hv, Bytes.missing?_cons _ (by decide)]
  by_cases hc : b.byteAt 148 = 0
  · rw [if_pos hc, if_pos hc, hnil]
    rfl
  rw [if_neg hc, if_neg hc, Bytes.missing?_cons _ (by decide), Bytes.missing?_cons _ (by decide),
    Bytes.missing?_cons _ (by decide), Bytes.missing?_cons _ (by decide),
    Bytes.missing?_cons _ (by decide), hnil]
  rfl

theorem cutField_eq_none_iff {b : Bytes} : cutField b = none ↔ Complete b := by
  rw [← missing?_examinedSpans, Bytes.missing?_eq_none_iff, forall_examinedSpans_fits_iff]

/-- **An inspection fails in the field that is cut off**, and in no other way. -/
theorem examine_eq_error_iff {recordDigest : Record → Digest} {b : Bytes} {e : OutOfRange} :
    examine recordDigest b = .error e ↔ ∃ s, cutField b = some s ∧ e = ⟨s, b.length⟩ := by
  rw [examine_eq, Bytes.granted_eq_error_iff, missing?_examinedSpans]

/-- Behind the version, of 7, the buffer ends: it is the count of chain entries that is missed. -/
example : examine (fun _ => Digest.zero) (List.replicate 143 0 ++ [7, 0, 0, 0]) =
    .error ⟨⟨148, 1⟩, 147⟩ := by decide +kernel

theorem examine_of_cutField {b : Bytes} {s : Span} (h : cutField b = some s)
    (recordDigest : Record → Digest) : examine recordDigest b = .error ⟨s, b.length⟩ :=
  examine_eq_error_iff.2 ⟨s, h, rfl⟩

theorem clearVerified_of_cutField {b : Bytes} {s : Span} (h : cutField b = some s)
    (recordDigest : Record → Digest) :
    clearVerified recordDigest b = ⟨.error ⟨s, b.length⟩, b, []⟩ := by
  rw [clearVerified_eq, examine_of_cutField h]

theorem Scheme.score_of_cutField {b : Bytes} {s : Span} (h : cutField b = some s) (S : Scheme) :
    S.score b = ⟨.error ⟨s, b.length⟩, b, []⟩ :=
  S.score_of_error (examine_of_cutField h S.recordDigest)

/-! ## Claims that are cut off -/

/-- What is cut off behind the count of chain entries claims as many as before. -/
theorem not_complete_take {b : Bytes} {n : Nat} (hv : 6 < b.version) (hc : b.byteAt 148 ≠ 0)
    (hn : n < 267) : ¬ Complete (b.take n) := by
  rintro ⟨hlen, hclaim⟩
  have hsize : (b.take n).length = min n b.length := List.length_take
  have hversion : Bytes.version (b.take n) = b.version :=
    Bytes.version_congr fun i _ hi => Bytes.byteAt_take (by omega)
  rw [hversion] at hclaim
  obtain ⟨hcount, hentry⟩ := hclaim hv
  rw [Bytes.byteAt_take (by omega)] at hentry
  have := hentry hc
  omega

/-- **A header that claims chain entries is an error at every length below the end of the first**,
whatever its record holds. -/
theorem examine_take_of_claim {b : Bytes} (hv : 6 < b.version) (hc : b.byteAt 148 ≠ 0)
    (recordDigest : Record → Digest) {n : Nat} (hn : n < 267) :
    ∃ e, examine recordDigest (b.take n) = .error e := by
  cases h : cutField (b.take n) with
  | none => exact absurd (cutField_eq_none_iff.1 h) (not_complete_take hv hc hn)
  | some s => exact ⟨_, examine_of_cutField h recordDigest⟩

/-! ## What cannot fail -/

/-- Behind the first chain entry, the record can be read under any solution, and clearing works. -/
theorem record_and_clear_of_readFirst {b : Bytes} {entry : ChainEntry}
    (h : ChainEntry.readFirst b = .ok entry) :
    (∀ s, ∃ r, Record.read b s = .ok r) ∧ (clear b).answer = .ok () := by
  rw [ChainEntry.readFirst_eq, Bytes.granted_eq_ok_iff] at h
  have hlen : 267 ≤ b.length := (h.1 ⟨235, 32⟩ (by simp)).2
  refine ⟨?_, answer_clear_eq_ok_iff.2 (by omega)⟩
  intro s
  rw [Record.read_eq]
  refine ⟨_, Bytes.granted_eq_ok_iff.2 ⟨(Bytes.forall_fits_iff (by decide)).2 ?_, rfl⟩⟩
  show 140 ≤ b.length
  omega

/-! ## Reports -/

/-- What can be asked of a buffer that begins with its inspection. -/
def inspecting : List Action := [.examine, .clearVerified, .score, .digest .v2b2]

/-- Their answers are views of what the inspection answers. -/
theorem answer_run_of_inspecting {a : Action} (ha : a ∈ inspecting) (S : Scheme) (b : Bytes) :
    ∃ view, (Call.run ⟨S, a⟩ b).answer = (examine S.recordDigest b).map view := by
  simp only [inspecting, List.mem_cons, List.not_mem_nil, or_false] at ha
  rcases ha with rfl | rfl | rfl | rfl
  · exact ⟨.finding, rfl⟩
  · refine ⟨.finding, ?_⟩
    rw [← answer_clearVerified]
    rfl
  · refine ⟨fun f => .score (S.scoreOf (f.leaves b) f), ?_⟩
    simp only [Call.run, S.score_eq]
    cases examine S.recordDigest b <;> rfl
  · refine ⟨fun f => .digest (S.scoreOf (f.leaves b) f).digest, ?_⟩
    simp only [Call.run, Scheme.digestOf, Scheme.scoreDigest, S.score_eq]
    cases examine S.recordDigest b <;> rfl

/-- So each of them fails where its inspection does. -/
theorem answer_run_eq_error_iff {a : Action} (ha : a ∈ inspecting) {S : Scheme} {b : Bytes}
    {e : OutOfRange} :
    (Call.run ⟨S, a⟩ b).answer = .error e ↔ examine S.recordDigest b = .error e := by
  obtain ⟨view, hview⟩ := answer_run_of_inspecting ha S b
  rw [hview]
  cases examine S.recordDigest b with
  | ok f =>
      constructor
      · intro h
        cases h
      · intro h
        cases h
  | error e' =>
      constructor
      · rintro ⟨rfl⟩
        rfl
      · rintro ⟨rfl⟩
        rfl

/-- A request for one of them fails where its inspection does, and never for its arguments. -/
theorem outcome_eq_error_iff {a : Action} (ha : a ∈ inspecting) {S : Scheme} {b : Bytes} {f : Fault} :
    (Session.outcome ⟨b, S⟩ (.act a)).answer = .error f ↔
      ∃ e, examine S.recordDigest b = .error e ∧ f = .outOfRange e := by
  simp only [← answer_run_eq_error_iff ha]
  show (Call.run ⟨S, a⟩ b).answer.mapError Fault.outOfRange = _ ↔ _
  cases (Call.run ⟨S, a⟩ b).answer with
  | ok found =>
      constructor
      · intro h
        cases h
      · rintro ⟨e, h, -⟩
        cases h
  | error e =>
      constructor
      · intro h
        exact ⟨e, rfl, (Except.error.inj h).symm⟩
      · rintro ⟨_, ⟨rfl⟩, rfl⟩
        rfl

/-- **A header that is cut off is reported exactly.** Inspecting, clearing what is verified and
scoring fail on the same buffers and name the same field, the buffer stays as it is and nothing is
logged; on all other buffers they succeed. No such request fails for its arguments. A header that
claims chain entries fails at every length below the end of the first, and once that entry is read,
neither reading the record nor clearing can fail. -/
theorem truncation_is_reported (S : Scheme) (b : Bytes) :
    (∀ s, cutField b = some s →
      examine S.recordDigest b = .error ⟨s, b.length⟩ ∧
      clearVerified S.recordDigest b = ⟨.error ⟨s, b.length⟩, b, []⟩ ∧
      S.score b = ⟨.error ⟨s, b.length⟩, b, []⟩ ∧
      S.scoreDigest b = ⟨.error ⟨s, b.length⟩, b, []⟩) ∧
    (cutField b = none → ∃ f v,
      examine S.recordDigest b = .ok f ∧
      (clearVerified S.recordDigest b).answer = .ok f ∧
      (S.score b).answer = .ok v ∧
      (S.scoreDigest b).answer = .ok v.digest) ∧
    (∀ a ∈ inspecting, ∀ f, (Session.outcome ⟨b, S⟩ (.act a)).answer = .error f ↔
      ∃ s, cutField b = some s ∧ f = .outOfRange ⟨s, b.length⟩) ∧
    (6 < b.version → b.byteAt 148 ≠ 0 →
      ∀ n < 267, ∃ e, examine S.recordDigest (b.take n) = .error e) ∧
    (∀ entry, ChainEntry.readFirst b = .ok entry →
      (∀ s, ∃ r, Record.read b s = .ok r) ∧ (clear b).answer = .ok ()) := by
  refine ⟨?_, ?_, ?_, ?_, ?_⟩
  · intro s h
    have hscore := Scheme.score_of_cutField h S
    refine ⟨examine_of_cutField h _, clearVerified_of_cutField h _, hscore, ?_⟩
    rw [Scheme.scoreDigest, hscore]
    rfl
  · intro h
    have hx := examine_of_complete (cutField_eq_none_iff.1 h) S.recordDigest
    have hscore := Scheme.score_of_ok hx
    refine ⟨_, _, hx, by rw [answer_clearVerified, hx], by rw [hscore], ?_⟩
    rw [Scheme.scoreDigest, hscore]
    rfl
  · intro a ha f
    rw [outcome_eq_error_iff ha]
    simp only [examine_eq_error_iff]
    constructor
    · rintro ⟨_, ⟨s, hs, rfl⟩, rfl⟩
      exact ⟨s, hs, rfl⟩
    · rintro ⟨s, hs, rfl⟩
      exact ⟨_, ⟨s, hs, rfl⟩, rfl⟩
  · intro hv hc n hn
    exact examine_take_of_claim hv hc S.recordDigest hn
  · intro entry h
    exact record_and_clear_of_readFirst h

end HeaderWork
