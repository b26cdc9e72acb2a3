import HeaderWork.Digest

/-!
# A sponge over 32-byte chunks

The state (`Chain`) is a block of two halves: the chaining half holds the last compression, the input
half collects the next chunk. A full input half is compressed at once; what it held stays in place
until new input overwrites it, and closing pads with zeros from the first free byte on.

* `Sponge.absorb` — takes in bytes, copying as many at a time as the input half has room for
  (`Chain.absorb`, which `write` calls).
* `Sponge.squeeze` — the chaining half when no input is pending, else one more compression
  (`finalize`).
* `Sponge.squeezeFolded` — compresses and mixes the padded block, and compresses both results
  (`finalize_2b`).
* `Intake`, `Intake.pass`, `Intake.run` — `Chain.absorb` once more, as a loop over a block of 64 bytes
  with a place for the next one. A slice that does not lie in its buffer, or a copy of another length
  than its place (`Bytes.between?`, `Octets.copy?`), ends it with no state at all.
-/

namespace HeaderWork

/-! ## Blocks -/

/-- What a compression takes in: 64 bytes in two halves. -/
structure Block where
  chaining : Digest
  input : Octets 32
deriving DecidableEq, Repr

namespace Block

def toBytes (b : Block) : Bytes := b.chaining.toList ++ b.input.toList

@[simp] theorem length_toBytes (b : Block) : b.toBytes.length = 64 := by
  simp [toBytes]

def zero : Block := ⟨Digest.zero, Octets.zero 32⟩

end Block

/-- Compresses a block to a digest. -/
abbrev Compression := Block → Digest

/-! ## State -/

/-- A sponge whose input half holds `filled` bytes that are not compressed yet. -/
structure Sponge where
  block : Block
  filled : Fin 32
deriving DecidableEq, Repr

namespace Sponge

/-- The sponge in front of any input. -/
def fresh : Sponge := ⟨Block.zero, 0⟩

/-- The free bytes of the input half. -/
def room (s : Sponge) : Nat := 32 - s.filled.val

theorem room_pos (s : Sponge) : 0 < s.room := Nat.sub_pos_of_lt s.filled.isLt

theorem filled_add_room (s : Sponge) : s.filled.val + s.room = 32 :=
  Nat.add_sub_cancel' (Nat.le_of_lt s.filled.isLt)

/-- The part of `data` that the next copy takes. -/
def piece (s : Sponge) (data : Bytes) : Bytes := data.take s.room

theorem length_piece (s : Sponge) (data : Bytes) :
    (s.piece data).length = min s.room data.length := List.length_take

theorem filled_add_length_piece_le (s : Sponge) (data : Bytes) :
    s.filled.val + (s.piece data).length ≤ 32 := by
  have := s.filled_add_room
  rw [length_piece]
  omega

/-- Copies the next piece of `data` behind the pending bytes, and compresses when that fills the
input half. -/
def fill (compress : Compression) (s : Sponge) (data : Bytes) : Sponge :=
  let block : Block :=
    { chaining := s.block.chaining
      input := s.block.input.write s.filled.val (s.piece data) (s.filled_add_length_piece_le data) }
  if h : s.filled.val + (s.piece data).length < 32 then
    ⟨block, ⟨s.filled.val + (s.piece data).length, h⟩⟩
  else ⟨⟨compress block, block.input⟩, 0⟩

/-- Takes in all of `data`, piece by piece (`Chain.absorb`). -/
def absorb (compress : Compression) (s : Sponge) (data : Bytes) : Sponge :=
  if _h : data = [] then s
  else absorb compress (s.fill compress data) (data.drop s.room)
termination_by data.length
decreasing_by
  have := s.room_pos
  have := List.length_pos_iff.2 _h
  simp only [List.length_drop]
  omega

/-! ## Closing -/

/-- The block with zeros behind the pending bytes (`Chain.padded`). -/
def padded (s : Sponge) : Block :=
  { chaining := s.block.chaining
    input := s.block.input.write s.filled.val (List.replicate (32 - s.filled.val) 0)
      (by have := s.filled.isLt; simp) }

/-- The chaining half when no byte is pending, else the compression of the padded block
(`finalize`). -/
def squeeze (compress : Compression) (s : Sponge) : Digest :=
  if s.filled = 0 then s.block.chaining else compress s.padded

/-- Compresses and mixes the padded block, pending bytes or not, and compresses the two results
(`finalize_2b`). -/
def squeezeFolded (compress mix : Compression) (s : Sponge) : Digest :=
  compress ⟨compress s.padded, mix s.padded⟩

end Sponge

/-! ## Taking in bytes pass by pass -/

namespace Block

/-- The 64 bytes of a block. -/
def octets (b : Block) : Octets 64 := .ofBytes b.toBytes b.length_toBytes

/-- The block of 64 bytes. -/
def ofOctets (v : Octets 64) : Block where
  chaining := .ofBytes (v.toList.take 32) (by simp)
  input := .ofBytes (v.toList.drop 32) (by simp)

end Block

/-- The bytes from `start` up to `stop`. There are none when these are the wrong way round, or when
`stop` is behind the end. -/
def Bytes.between? (b : Bytes) (start stop : Nat) : Option Bytes :=
  if start ≤ stop ∧ stop ≤ b.length then some (b.slice ⟨start, stop - start⟩) else none

/-- `data` over the bytes from `start` up to `stop`, which have to be as many. -/
def Octets.copy? {n : Nat} (v : Octets n) (start stop : Nat) (data : Bytes) : Option (Octets n) :=
  if h : start ≤ stop ∧ stop ≤ n ∧ data.length = stop - start then
    some (v.write start data (by omega))
  else none

/-- A block that bytes are being taken in to. What is noted in `compressed` decides nothing. -/
structure Intake where
  block : Octets 64
  place : Nat
  data : Bytes
  compressed : List Block
deriving DecidableEq, Repr

namespace Intake

/-- Copies as many bytes as the input half has room for, and compresses a block that is full. -/
def pass (compress : Compression) (i : Intake) : Option Intake := do
  let room ← if i.place ≤ 32 then some (32 - i.place) else none
  let taken := min room i.data.length
  let start := 32 + i.place
  let piece ← i.data.between? 0 taken
  let block ← i.block.copy? start (start + taken) piece
  let data ← i.data.between? taken i.data.length
  let place := i.place + taken
  if place = 32 then
    let full := Block.ofOctets block
    let block ← block.copy? 0 32 (compress full).toList
    return ⟨block, 0, data, i.compressed ++ [full]⟩
  else return ⟨block, place, data, i.compressed⟩

/-- Passes until no byte is left, but no more than a given number: the loop of `Chain.absorb`. -/
def run (compress : Compression) (i : Intake) : Nat → Option Intake
  | 0 => some i
  | n + 1 => if i.data = [] then some i else (i.pass compress).bind fun j => j.run compress n

end Intake

end HeaderWork
