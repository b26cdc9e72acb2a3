import HeaderWork.Bytes

/-!
# Bounds-checked access to a buffer

The operations of `BinaryView`.

* `OutOfRange` — the one way an access fails: the span asked for and the size of the buffer.
* `check`, `read`, `readOctets`, `readByte`, `readUInt16`, `readUInt32` — reading, or saying why not
  (`check`, `read_bytes`, `read_array`, `read_u8`, `read_u16_le`, `read_u32_le`).
* `writeZeros` — the only write: zeros over a span that fits (`write_zeros`).
* `read_eq_ok_iff`, `writeZeros_eq_ok_iff` — each succeeds exactly on the spans that fit.
-/

namespace HeaderWork

instance decidableEqExcept {ε α : Type} [DecidableEq ε] [DecidableEq α] :
    DecidableEq (Except ε α)
  | .ok a, .ok b => decidable_of_iff (a = b) ⟨congrArg _, Except.ok.inj⟩
  | .error e, .error f => decidable_of_iff (e = f) ⟨congrArg _, Except.error.inj⟩
  | .ok _, .error _ => isFalse nofun
  | .error _, .ok _ => isFalse nofun

/-- A span that reaches past the end of a buffer of `size` bytes. -/
structure OutOfRange where
  span : Span
  size : Nat
deriving DecidableEq, Repr

def OutOfRange.message (e : OutOfRange) : String :=
  "out of range: " ++ toString e.span.len ++ " bytes at offset " ++ toString e.span.offset ++
    " exceed buffer of " ++ toString e.size ++ " bytes"

namespace Bytes

/-! ## Reading -/

/-- Succeeds on the spans that fit. -/
def check (b : Bytes) (s : Span) : Except OutOfRange Unit :=
  if s.Fits b.length then .ok () else .error ⟨s, b.length⟩

def read (b : Bytes) (s : Span) : Except OutOfRange Bytes :=
  if s.Fits b.length then .ok (b.slice s) else .error ⟨s, b.length⟩

/-- The `n` bytes from `start` on. -/
def readOctets (n : Nat) (b : Bytes) (start : Nat) : Except OutOfRange (Octets n) :=
  if h : Span.Fits ⟨start, n⟩ b.length then
    .ok (.ofBytes (b.slice ⟨start, n⟩) (length_slice_of_fits h))
  else .error ⟨⟨start, n⟩, b.length⟩

def readByte (b : Bytes) (start : Nat) : Except OutOfRange UInt8 :=
  (readOctets 1 b start).map fun v => v[0]

/-- The little-endian word of two bytes at `start`. -/
def readUInt16 (b : Bytes) (start : Nat) : Except OutOfRange UInt16 :=
  (readOctets 2 b start).map LittleEndian.toUInt16

/-- The little-endian word of four bytes at `start`. -/
def readUInt32 (b : Bytes) (start : Nat) : Except OutOfRange UInt32 :=
  (readOctets 4 b start).map LittleEndian.toUInt32

theorem check_eq_ok_iff {b : Bytes} {s : Span} : b.check s = .ok () ↔ s.Fits b.length := by
  unfold check
  split <;> simp_all

theorem read_eq_ok_iff {b r : Bytes} {s : Span} :
    b.read s = .ok r ↔ s.Fits b.length ∧ r = b.slice s := by
  unfold read
  split <;> simp_all [eq_comm]

theorem read_eq_error_iff {b : Bytes} {s : Span} {e : OutOfRange} :
    b.read s = .error e ↔ ¬ s.Fits b.length ∧ e = ⟨s, b.length⟩ := by
  unfold read
  split <;> simp_all [eq_comm]

theorem readOctets_eq_ok_iff {n : Nat} {b : Bytes} {start : Nat} {v : Octets n} :
    readOctets n b start = .ok v ↔
      Span.Fits ⟨start, n⟩ b.length ∧ v.toList = b.slice ⟨start, n⟩ := by
  unfold readOctets
  split
  · rename_i h
    rw [Except.ok.injEq, ← Vector.toList_inj, Octets.toList_ofBytes]
    exact ⟨fun e => ⟨h, e.symm⟩, fun e => e.2.symm⟩
  · simp_all

theorem readOctets_eq_error_iff {n : Nat} {b : Bytes} {start : Nat} {e : OutOfRange} :
    readOctets n b start = .error e ↔
      ¬ Span.Fits ⟨start, n⟩ b.length ∧ e = ⟨⟨start, n⟩, b.length⟩ := by
  unfold readOctets
  split <;> simp_all [eq_comm]

/-! ## Writing -/

/-- The buffer with zeros over `s`. -/
def writeZeros (b : Bytes) (s : Span) : Except OutOfRange Bytes :=
  if s.Fits b.length then .ok (b.blank s) else .error ⟨s, b.length⟩

theorem writeZeros_eq_ok_iff {b r : Bytes} {s : Span} :
    b.writeZeros s = .ok r ↔ s.Fits b.length ∧ r = b.blank s := by
  unfold writeZeros
  split <;> simp_all [eq_comm]

theorem writeZeros_eq_error_iff {b : Bytes} {s : Span} {e : OutOfRange} :
    b.writeZeros s = .error e ↔ ¬ s.Fits b.length ∧ e = ⟨s, b.length⟩ := by
  unfold writeZeros
  split <;> simp_all [eq_comm]

end Bytes

end HeaderWork
