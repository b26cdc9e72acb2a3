import HeaderWork.Inspection
import HeaderWork.Scheme

/-!
# Scoring a header

What can be asked of a buffer, by methods that have names (`Variant`) and under a scheme of
primitives (`HashDispatcher`), and what can be wrong with the request.

* `ArgumentFault` — a text that does not say what to do; the fault of a digest text is one of them.
  `Fault` — either that, or a read past the end of the buffer (`PowError`).
* `Method` — the five methods, in the order in which they are listed; `Method.name`,
  `Method.ofName?`, `Method.ofName` — the name that stands for each (`ofName?_name`);
  `Method.ofJson?`, `Method.toJson` — the name as JSON.
* `Score` — the verdict on a header: its work hash together with the finding, or a refusal
  (`Verdict`).
* `Scheme.score` — inspects, clears a verified header, and hashes what is left (`hash2b2_checked`);
  `Scheme.scoreDigest` — its digest only (`hash2b2`).
* `Scheme.digestOf` — the digest of a buffer by any method (`digest`).
* `Scheme.digestOfText` — the same for a buffer given in hexadecimal (`digest_hex`).
-/

namespace HeaderWork

/-! ## Faults -/

/-- What is wrong with the text of a request. -/
inductive ArgumentFault where
  | notHex
  | digestLength
  | unknownMethod
deriving DecidableEq, Repr

namespace ArgumentFault

def text : ArgumentFault → String
  | .notHex => "input is not valid hex"
  | .digestLength => "unexpected hex length"
  | .unknownMethod => "unknown hash variant"

def message (f : ArgumentFault) : String := "invalid argument: " ++ f.text

/-- The text of a digest seen as an argument: which digit is bad, or how many there are, is lost. -/
def ofTextFault : Digest.TextFault → ArgumentFault
  | .hex _ => .notHex
  | .length _ => .digestLength

end ArgumentFault

/-- Why a request on a buffer fails. -/
inductive Fault where
  | outOfRange (e : OutOfRange)
  | argument (f : ArgumentFault)
deriving DecidableEq, Repr

/-! ## Methods -/

/-- The hash of each family, the folded hash under two names, and the folded hash of a header whose
chain entries are checked first. -/
inductive Method where
  | v1
  | v2
  | v2b
  | v2b1
  | v2b2
deriving DecidableEq, Repr

namespace Method

def all : List Method := [.v1, .v2, .v2b, .v2b1, .v2b2]

def name : Method → String
  | .v1 => "hash"
  | .v2 => "hash2"
  | .v2b => "hash2b"
  | .v2b1 => "hash2b1"
  | .v2b2 => "hash2b2"

def debugText : Method → String
  | .v1 => "V1"
  | .v2 => "V2"
  | .v2b => "V2b"
  | .v2b1 => "V2b1"
  | .v2b2 => "V2b2"

/-- Where the method stands among all of them. -/
def index (m : Method) : Nat := all.idxOf m

def ofName? (name : String) : Option Method := all.find? fun m => m.name == name

/-- The method of that name, or why there is none. -/
def ofName (name : String) : Except ArgumentFault Method :=
  match ofName? name with
  | some m => .ok m
  | none => .error .unknownMethod

@[simp] theorem ofName?_name (m : Method) : ofName? m.name = some m := by
  cases m <;> decide

def toJson (m : Method) : String := Json.nameText m.name

def ofJson? (text : String) : Option Method := (Json.name? text).bind ofName?

end Method

/-! ## Scores -/

/-- The verdict on a header. -/
inductive Score where
  | hashed (digest : Digest) (finding : Finding)
  | refused (reason : Refusal)
deriving DecidableEq, Repr

namespace Score

/-- The work hash; a refused header gets the one that misses every target. -/
def digest : Score → Digest
  | .hashed d _ => d
  | .refused _ => Digest.refused

def isRefused : Score → Bool
  | .hashed _ _ => false
  | .refused _ => true

/-- What the inspection behind the score has found. -/
def finding : Score → Finding
  | .hashed _ f => f
  | .refused r => .refused r

end Score

namespace Scheme

/-! ## Scoring -/

/-- The score of a header, given what its inspection has found and the buffer it has left. -/
def scoreOf (S : Scheme) (b : Bytes) : Finding → Score
  | .refused reason => .refused reason
  | found => .hashed (S.hashFolded b) found

/-- Inspects a header, clears a verified one, and takes the folded hash of what is left
(`hash2b2_checked`). -/
def score (S : Scheme) (b : Bytes) : Outcome OutOfRange Score :=
  let cleared := clearVerified S.recordDigest b
  cleared.map (S.scoreOf cleared.buffer)

/-- The digest of the score (`hash2b2`). -/
def scoreDigest (S : Scheme) (b : Bytes) : Outcome OutOfRange Digest :=
  (S.score b).map Score.digest

/-! ## Digests by method -/

/-- The digest of a buffer (`digest`). Only the last method can fail, and only it changes the
buffer. -/
def digestOf (S : Scheme) (m : Method) (b : Bytes) : Outcome OutOfRange Digest :=
  match m with
  | .v1 => .ofAnswer b (.ok (S.hashFirst b))
  | .v2 => .ofAnswer b (.ok (S.hashSecond b))
  | .v2b => .ofAnswer b (.ok (S.hashFolded b))
  | .v2b1 => .ofAnswer b (.ok (S.hashFolded b))
  | .v2b2 => S.scoreDigest b

/-- The digest of the buffer that a text spells (`digest_hex`). -/
def digestOfText (S : Scheme) (m : Method) (text : String) : Except Fault Digest :=
  match Hex.decode (Hex.dropMark (Bytes.ofString text)) with
  | .error _ => .error (.argument .notHex)
  | .ok b =>
    match (S.digestOf m b).answer with
    | .ok d => .ok d
    | .error e => .error (.outOfRange e)

end Scheme

end HeaderWork
