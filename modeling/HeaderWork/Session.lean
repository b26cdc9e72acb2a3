import HeaderWork.Scoring

/-!
# Sessions on one buffer

* `Action`, `Call` — what can be asked of a buffer, alone and with the scheme to use.
* `Call.run`, `runCalls` — the outcome of one call, and of calls made one after the other.
* `Edit` — changes to the buffer that no call makes.
* `Session`, `Session.run` — a buffer and a scheme that change from step to step.
-/

namespace HeaderWork

/-! ## Calls -/

/-- What can be asked of a buffer. -/
inductive Action where
  | examine
  | clearVerified
  | clear
  | score
  | digest (m : Method)
deriving DecidableEq, Repr

/-- What a call or a step answers. -/
inductive Answer where
  | done
  | finding (f : Finding)
  | score (s : Score)
  | digest (d : Digest)
  | digests (ds : List (Method × Except OutOfRange Digest))
deriving DecidableEq

/-- An action under the primitives of its own scheme. -/
structure Call where
  scheme : Scheme
  action : Action

/-- The outcome of a call on `b`. -/
def Call.run (c : Call) (b : Bytes) : Outcome OutOfRange Answer :=
  match c.action with
  | .examine => (Outcome.ofAnswer b (examine c.scheme.recordDigest b)).map .finding
  | .clearVerified => (HeaderWork.clearVerified c.scheme.recordDigest b).map .finding
  | .clear => (HeaderWork.clear b).map fun _ => .done
  | .score => (c.scheme.score b).map .score
  | .digest m => (c.scheme.digestOf m b).map .digest

/-- The outcomes of calls made one after the other on the same buffer. -/
def runCalls (b : Bytes) : List Call → List (Outcome OutOfRange Answer)
  | [] => []
  | c :: rest =>
    let now := c.run b
    now :: runCalls now.buffer rest

/-! ## All methods -/

/-- The digests of a buffer by the methods of a list, in turn on the same buffer. -/
def Scheme.digestEach (S : Scheme) (b : Bytes) :
    List Method → Outcome OutOfRange (List (Method × Except OutOfRange Digest))
  | [] => .ofAnswer b (.ok [])
  | m :: rest =>
    let now := S.digestOf m b
    let later := S.digestEach now.buffer rest
    { answer := later.answer.map ((m, now.answer) :: ·)
      buffer := later.buffer
      log := now.log ++ later.log }

/-! ## Edits -/

/-- A change to the buffer from outside. -/
inductive Edit where
  | overlay (start : Nat) (data : Bytes)
  | truncate (len : Nat)
  | append (data : Bytes)
deriving DecidableEq, Repr

def Edit.apply (b : Bytes) : Edit → Bytes
  | .overlay start data => b.overlay start data
  | .truncate len => b.take len
  | .append data => b ++ data

/-- The buffer with the digest of its own record embedded in its first chain entry. -/
def embed (recordDigest : Record → Digest) (b : Bytes) : Outcome OutOfRange Unit :=
  let embedded : Except OutOfRange Bytes := do
    let record ← Record.ofBuffer b
    b.check Layout.firstDigest
    return b.overlay Layout.firstDigest.offset (recordDigest record).toList
  match embedded with
  | .ok b' => ⟨.ok (), b', []⟩
  | .error e => ⟨.error e, b, []⟩

/-! ## Sessions -/

/-- A buffer and the primitives in use. -/
structure Session where
  buffer : Bytes
  scheme : Scheme

/-- A step of a session. -/
inductive Step where
  | edit (e : Edit)
  | embed
  | use (recordDigest : Record → Digest)
  | act (a : Action)
  | digestNamed (name : String)
  | digestAll

namespace Session

/-- The outcome of a step. Embedding and taking all digests use the standard scheme. -/
def outcome (s : Session) : Step → Outcome Fault Answer
  | .edit e => ⟨.ok .done, e.apply s.buffer, []⟩
  | .embed =>
    ((embed Scheme.standard.recordDigest s.buffer).map fun _ => .done).mapError .outOfRange
  | .use _ => .ofAnswer s.buffer (.ok .done)
  | .act a => (Call.run ⟨s.scheme, a⟩ s.buffer).mapError .outOfRange
  | .digestNamed name =>
    match Method.ofName name with
    | .ok m => (Call.run ⟨s.scheme, .digest m⟩ s.buffer).mapError .outOfRange
    | .error f => .ofAnswer s.buffer (.error (.argument f))
  | .digestAll =>
    ((Scheme.standard.digestEach s.buffer Method.all).map .digests).mapError .outOfRange

/-- The session after a step that has left `b` behind. -/
def after (s : Session) (t : Step) (b : Bytes) : Session :=
  match t with
  | .use recordDigest => { buffer := b, scheme := { s.scheme with recordDigest } }
  | _ => { s with buffer := b }

def run (s : Session) : List Step → List (Outcome Fault Answer)
  | [] => []
  | t :: rest =>
    let now := s.outcome t
    now :: (s.after t now.buffer).run rest

end Session

end HeaderWork
