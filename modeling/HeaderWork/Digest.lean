import HeaderWork.Layout
import HeaderWork.Text.Json

/-!
# Digests and chain ids

Hashes of 32 bytes (`Hash32`), and how they are written and read.

* `Digest` — 32 bytes, in the order in which they are written down; `ChainId` — the 20 bytes that
  name a chain.
* `Digest.refused` — the all-ones digest, which no target admits (`REJECTED_DIGEST`).
* `Digest.toText`, `Digest.ofText` — 64 hexadecimal digits, which may be marked and in either case
  when they are read (`Hash32.from_str`).
* `Digest.TextFault` — why a text is no digest: not hexadecimal (`InvalidHex`), or the wrong number
  of bytes (`InvalidHexLength`).
* `Digest.toJson`, `Digest.ofJson?` — a list of 32 numbers.
-/

namespace HeaderWork

/-- A hash of 32 bytes. -/
abbrev Digest := Octets Layout.digestLen

/-- The name of a chain. -/
abbrev ChainId := Octets Layout.chainIdLen

namespace Digest

/-- The digest that stands for no hash at all. -/
def zero : Digest := Octets.zero Layout.digestLen

/-- The largest digest: it misses every target, so a header scored with it is worth nothing. -/
def refused : Digest := Vector.replicate Layout.digestLen 0xff

/-! ## Faults -/

/-- Why a text is no digest. -/
inductive TextFault where
  | hex (fault : Hex.Fault)
  | length (got : Nat)
deriving DecidableEq, Repr

def TextFault.message : TextFault → String
  | .hex fault => "invalid hex: " ++ fault.text
  | .length got =>
    "invalid hex length: expected " ++ toString Layout.digestLen ++ " bytes, got " ++
      toString got ++ " bytes"

/-! ## Hexadecimal -/

/-- Lower-case digits in the order of the bytes. -/
def toText (d : Digest) : String := Hex.encode d.toList

def debugText (d : Digest) : String := "Hash32(" ++ d.toText ++ ")"

/-- Reads 64 digits behind an optional mark (`Hash32.from_str`). -/
def ofText (text : String) : Except TextFault Digest :=
  match Hex.decode (Hex.dropMark (Bytes.ofString text)) with
  | .error fault => .error (.hex fault)
  | .ok bytes =>
    match Octets.ofBytes? Layout.digestLen bytes with
    | some d => .ok d
    | none => .error (.length bytes.length)

/-! ## JSON -/

/-- The 32 bytes as a list of numbers. -/
def toJson (d : Digest) : String := Json.listText (d.toList.map UInt8.toNat)

/-- Reads a list of 32 numbers below 256. -/
def ofJson? (text : String) : Option Digest :=
  match Json.numbers? text with
  | none => none
  | some ns =>
    if ns.all (· < 256) then Octets.ofBytes? Layout.digestLen (ns.map UInt8.ofNat) else none

end Digest

end HeaderWork
