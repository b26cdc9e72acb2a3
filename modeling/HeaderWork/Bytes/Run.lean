import HeaderWork.Bytes.Access

/-!
# Runs of accesses to one buffer

* `Access` — everything that can be asked of a buffer, with `writeZeros` the only change.
* `Access.run` — the answer to one access and the buffer afterwards.
* `runAll` — accesses in turn: all answers, and the buffer at the end.
-/

namespace HeaderWork.Bytes

/-! ## One access -/

/-- An access to a buffer. -/
inductive Access where
  | length
  | isEmpty
  | check (s : Span)
  | read (s : Span)
  | readOctets (n start : Nat)
  | readByte (start : Nat)
  | readUInt16 (start : Nat)
  | readUInt32 (start : Nat)
  | writeZeros (s : Span)
deriving DecidableEq, Repr

/-- What an access answers. -/
inductive Value where
  | done
  | flag (holds : Bool)
  | number (n : Nat)
  | bytes (b : Bytes)
deriving DecidableEq, Repr

/-- The answer to an access, and the buffer afterwards: only zeros that fit change it. -/
def Access.run (b : Bytes) : Access → Except OutOfRange Value × Bytes
  | .length => (.ok (.number b.length), b)
  | .isEmpty => (.ok (.flag b.isEmpty), b)
  | .check s => ((b.check s).map fun _ => .done, b)
  | .read s => ((b.read s).map .bytes, b)
  | .readOctets n start => ((Bytes.readOctets n b start).map fun v => .bytes v.toList, b)
  | .readByte start => ((b.readByte start).map fun x => .number x.toNat, b)
  | .readUInt16 start => ((b.readUInt16 start).map fun x => .number x.toNat, b)
  | .readUInt32 start => ((b.readUInt32 start).map fun x => .number x.toNat, b)
  | .writeZeros s =>
    match b.writeZeros s with
    | .ok b' => (.ok .done, b')
    | .error e => (.error e, b)

/-! ## Runs -/

/-- The answers to accesses made one after the other, and the buffer at the end. -/
def runAll (b : Bytes) : List Access → List (Except OutOfRange Value) × Bytes
  | [] => ([], b)
  | a :: rest =>
    let now := a.run b
    let later := runAll now.2 rest
    (now.1 :: later.1, later.2)

end HeaderWork.Bytes
