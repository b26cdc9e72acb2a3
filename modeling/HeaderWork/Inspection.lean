import HeaderWork.Record

/-!
# Inspecting and clearing a header

A header that claims chain entries has to prove that its chain-specific fields belong to it: the
digest of their record must be the one that its first entry embeds. One that has proved it is cleared
of them, and what was found is reported.

* `Finding` — what an inspection finds (`Inspection`): nothing to clear (`Pass`, for `PassReason`), a
  verified claim, or a false one (`Refusal`, for `Rejection`).
* `examine` — inspects a buffer under a digest of records (`inspect_with`); it fails only where a
  read does.
* `LogLine`, `Finding.report` — a level, a message and fields; the line that stands for a finding.
* `Outcome` — what a step on a buffer leaves behind: an answer, the buffer and the lines it logged.
* `checkEach`, `blankEach` — spans checked, and zeroed, one after the other.
* `clear` — zeros over the chain-specific bytes, after every span is known to fit (`canonicalize`).
* `clearVerified` — inspects a header, reports the finding, and clears a verified one
  (`prepare_with`).
-/

namespace HeaderWork

/-! ## Findings -/

/-- Why a header is hashed as it is. -/
inductive Pass where
  | legacy (version : UInt32)
  | noChains
  | cleared
deriving DecidableEq, Repr

namespace Pass

/-- The reason as a log shows it, its number between braces. -/
def text : Pass → String
  | .legacy version =>
    "LegacySolution " ++ Quoted.braced (" version: " ++ toString version.toNat ++ " ")
  | .noChains => "NoChainHeaders"
  | .cleared => "PreCleared"

end Pass

/-- Why a claim is refused. -/
inductive Refusal where
  | mismatch (embedded computed : Digest)
  | noDigest
deriving DecidableEq, Repr

namespace Refusal

def text : Refusal → String
  | .mismatch _ _ => "pre-header digest mismatch"
  | .noDigest => "pre-header digest failure"

end Refusal

/-- What an inspection finds. -/
inductive Finding where
  | pass (reason : Pass)
  | verified (chains : UInt8) (chain : ChainId)
  | refused (reason : Refusal)
deriving DecidableEq, Repr

/-! ## Inspection -/

/-- Compares the digest of a record with the one that the first entry embeds. A record of zeros is
a header that is cleared already, and a zero digest is none. -/
def Finding.compare (recordDigest : Record → Digest) (chains : UInt8) (entry : ChainEntry)
    (record : Record) : Finding :=
  if record.isZero then .pass .cleared
  else
    let computed := recordDigest record
    if computed.isZero then .refused .noDigest
    else if computed = entry.digest then .verified chains entry.chain
    else .refused (.mismatch entry.digest computed)

/-- Inspects a header (`inspect_with`). The version and the number of chain entries decide first
whether there is anything to compare; only then are the solution, its first entry and the record
read. -/
def examine (recordDigest : Record → Digest) (b : Bytes) : Except OutOfRange Finding := do
  let version ← readVersion b
  if carriesChains version then
    let chains ← readChains b
    if chains = 0 then return .pass .noChains
    else
      let solution ← Solution.read b
      let entry ← ChainEntry.readFirst b
      let record ← Record.read b solution
      return .compare recordDigest solution.chains entry record
  else return .pass (.legacy version)

/-! ## Log lines -/

/-- How urgent a line is. -/
inductive Level where
  | debug
  | warn
deriving DecidableEq, Repr

def Level.name : Level → String
  | .debug => "DEBUG"
  | .warn => "WARN"

/-- The value of a field. -/
inductive FieldValue where
  | number (n : Nat)
  | text (t : String)
deriving DecidableEq, Repr

/-- One line of a log. -/
structure LogLine where
  level : Level
  message : String
  fields : List (String × FieldValue)
deriving DecidableEq, Repr

/-! ## Lines of findings -/

/-- A header that is hashed as it is, or verified, is worth a note; a refused one is worth a
warning. -/
def Finding.report : Finding → LogLine
  | .pass reason => ⟨.debug, "hashing header as given", [("reason", .text reason.text)]⟩
  | .verified chains chain =>
    ⟨.debug, "merge mining verified, cleared non-canonical data",
      [("num_chain_headers", .number chains.toNat),
       ("chain_id", .text (Hex.encode chain.toList))]⟩
  | .refused reason => ⟨.warn, "invalid merge-mining candidate", [("reason", .text reason.text)]⟩

/-! ## Steps on a buffer -/

/-- What a step leaves behind. -/
structure Outcome (ε α : Type) where
  answer : Except ε α
  buffer : Bytes
  log : List LogLine
deriving DecidableEq

/-- A step that only looks at the buffer. -/
def Outcome.ofAnswer {ε α : Type} (b : Bytes) (answer : Except ε α) : Outcome ε α :=
  ⟨answer, b, []⟩

/-- The same step with another view of its answer. -/
def Outcome.map {ε α β : Type} (f : α → β) (o : Outcome ε α) : Outcome ε β :=
  ⟨o.answer.map f, o.buffer, o.log⟩

/-- The same step with another view of its error. -/
def Outcome.mapError {ε δ α : Type} (f : ε → δ) (o : Outcome ε α) : Outcome δ α :=
  ⟨o.answer.mapError f, o.buffer, o.log⟩

/-! ## Clearing -/

/-- Succeeds when all spans fit; the first that does not is the error. -/
def checkEach (b : Bytes) : List Span → Except OutOfRange Unit
  | [] => .ok ()
  | s :: rest =>
    match b.check s with
    | .ok () => checkEach b rest
    | .error e => .error e

/-- Zeros over the spans in turn. A span that does not fit ends it, and leaves behind what the spans
in front of it have changed. -/
def blankEach (b : Bytes) : List Span → Except OutOfRange Unit × Bytes
  | [] => (.ok (), b)
  | s :: rest =>
    match b.writeZeros s with
    | .ok b' => blankEach b' rest
    | .error e => (.error e, b)

/-- Zeros over the chain-specific bytes (`canonicalize`). All spans are checked before the first is
written, so a buffer that is too short stays as it is. -/
def clear (b : Bytes) : Outcome OutOfRange Unit :=
  match checkEach b Layout.clearedSpans with
  | .ok () =>
    let written := blankEach b Layout.clearedSpans
    ⟨written.1, written.2, []⟩
  | .error e => ⟨.error e, b, []⟩

/-- Inspects a header and reports the finding; a verified header is cleared before the report
(`prepare_with`). -/
def clearVerified (recordDigest : Record → Digest) (b : Bytes) : Outcome OutOfRange Finding :=
  match examine recordDigest b with
  | .error e => ⟨.error e, b, []⟩
  | .ok (.verified chains chain) =>
    let cleared := clear b
    match cleared.answer with
    | .ok () =>
      ⟨.ok (.verified chains chain), cleared.buffer, [(Finding.verified chains chain).report]⟩
    | .error e => ⟨.error e, cleared.buffer, []⟩
  | .ok found => ⟨.ok found, b, [found.report]⟩

end HeaderWork
