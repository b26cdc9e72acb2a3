import HeaderWork.Bytes.Access
import HeaderWork.Digest

/-!
# The solution of a header and the record of its fields

A solution (`SolutionHeader`) and its first chain entry (`ChainHeaderEntry`) are read off a buffer
field by field. The fields that tie a header to its own chain are laid end to end in a record of 196
bytes (`PreHeader`), and the digest of that record is what the entry embeds.

* `readVersion`, `readChains` — the two fields that can be asked for on their own
  (`solution_version`, `num_chain_headers`).
* `Solution.read` — the head of the solution, in the order of the buffer (`SolutionHeader.parse`).
* `ChainEntry.readFirst` — the first chain entry behind it (`ChainHeaderEntry.parse_first`).
* `Solution.encode`, `ChainEntry.encode` — the bytes that spell each (`length_encode`).
* `Record.assemble` — the seven fields in the order of the record, the nonce before the target.
* `Record.read` — the record of a buffer and a solution, which may stem from another buffer
  (`PreHeader.build`).
* `Draft`, `Draft.put`, `Record.compose` — the same record written piece by piece: the bytes so far,
  the place of the next piece, and the spans that have been written.
-/

namespace HeaderWork

/-! ## Single fields -/

/-- Whether solutions of this version can carry chain entries (`is_pbaas_version`). -/
def carriesChains (version : UInt32) : Bool := Layout.lastLegacyVersion < version

def readVersion (b : Bytes) : Except OutOfRange UInt32 := b.readUInt32 Layout.version.offset

def readChains (b : Bytes) : Except OutOfRange UInt8 := b.readByte Layout.chains.offset

/-! ## Solution -/

/-- The head of a solution. -/
structure Solution where
  version : UInt32
  descriptor : UInt8
  chains : UInt8
  extraSpace : UInt16
  prevRoot : Digest
  blockRoot : Digest
deriving DecidableEq, Repr

namespace Solution

/-- Reads the fields in order; the first one that is cut off is the error
(`SolutionHeader.parse`). -/
def read (b : Bytes) : Except OutOfRange Solution := do
  let version ← readVersion b
  let descriptor ← b.readByte Layout.descriptor.offset
  let chains ← readChains b
  let extraSpace ← b.readUInt16 Layout.extraSpace.offset
  let prevRoot ← b.readOctets Layout.digestLen Layout.prevRoot.offset
  let blockRoot ← b.readOctets Layout.digestLen Layout.blockRoot.offset
  return { version, descriptor, chains, extraSpace, prevRoot, blockRoot }

def encode (s : Solution) : Bytes :=
  (LittleEndian.ofUInt32 s.version).toList ++ [s.descriptor, s.chains] ++
    (LittleEndian.ofUInt16 s.extraSpace).toList ++ s.prevRoot.toList ++ s.blockRoot.toList

theorem length_encode (s : Solution) : s.encode.length = Layout.InSolution.headLen := by
  simp [encode, Layout.InSolution.headLen, Layout.digestLen]

def carriesChains (s : Solution) : Bool := HeaderWork.carriesChains s.version

end Solution

/-! ## Chain entries -/

/-- The claim of a header on one chain: the chain, and the digest of its record there. -/
structure ChainEntry where
  chain : ChainId
  digest : Digest
deriving DecidableEq, Repr

namespace ChainEntry

/-- Reads the first entry behind the head of the solution (`ChainHeaderEntry.parse_first`). -/
def readFirst (b : Bytes) : Except OutOfRange ChainEntry := do
  let chain ← b.readOctets Layout.chainIdLen Layout.firstChain.offset
  let digest ← b.readOctets Layout.digestLen Layout.firstDigest.offset
  return { chain, digest }

def encode (e : ChainEntry) : Bytes := e.chain.toList ++ e.digest.toList

theorem length_encode (e : ChainEntry) : e.encode.length = Layout.InSolution.entryLen := by
  simp [encode, Layout.InSolution.entryLen, Layout.chainIdLen, Layout.digestLen]

end ChainEntry

/-! ## Records -/

/-- The chain-specific fields of a header, end to end. -/
abbrev Record := Octets Layout.recordLen

namespace Record

/-- Three hashes, nonce, target and both roots, end to end. -/
def assemble (prevBlock merkleRoot saplingRoot nonce : Octets Layout.digestLen)
    (bits : Octets Layout.bitsLen) (prevRoot blockRoot : Digest) : Record :=
  .ofBytes
    (prevBlock.toList ++ merkleRoot.toList ++ saplingRoot.toList ++ nonce.toList ++ bits.toList ++
      prevRoot.toList ++ blockRoot.toList)
    (by simp [Layout.recordLen, Layout.digestLen, Layout.bitsLen])

/-- The record of the header in `b` under the roots of `s` (`PreHeader.build`). -/
def read (b : Bytes) (s : Solution) : Except OutOfRange Record := do
  let prevBlock ← b.readOctets Layout.digestLen Layout.prevBlock.offset
  let merkleRoot ← b.readOctets Layout.digestLen Layout.merkleRoot.offset
  let saplingRoot ← b.readOctets Layout.digestLen Layout.saplingRoot.offset
  let nonce ← b.readOctets Layout.digestLen Layout.nonce.offset
  let bits ← b.readOctets Layout.bitsLen Layout.bits.offset
  return assemble prevBlock merkleRoot saplingRoot nonce bits s.prevRoot s.blockRoot

/-- The record of `b` under the solution in `under`, which is read first. -/
def ofBuffers (b under : Bytes) : Except OutOfRange Record := do
  let solution ← Solution.read under
  read b solution

/-- The record of a buffer under its own solution. -/
def ofBuffer (b : Bytes) : Except OutOfRange Record := ofBuffers b b

def debugText (r : Record) : String := "PreHeader(" ++ Hex.encode r.toList ++ ")"

end Record

/-! ## Writing a record piece by piece -/

/-- A record that is being written. What is noted in `written` decides nothing. -/
structure Draft where
  bytes : Record
  cursor : Nat
  written : List Span
deriving DecidableEq, Repr

namespace Draft

/-- The draft in front of any piece. -/
def blank : Draft := ⟨Octets.zero Layout.recordLen, 0, []⟩

/-- Copies a piece to the cursor and moves the cursor behind it. A piece that would reach behind the
end of the record has no room, and there is no draft after it. -/
def put (d : Draft) (piece : Bytes) : Option Draft :=
  if room : d.cursor + piece.length ≤ Layout.recordLen then
    some
      { bytes := d.bytes.write d.cursor piece room
        cursor := d.cursor + piece.length
        written := d.written ++ [⟨d.cursor, piece.length⟩] }
  else none

end Draft

namespace Record

/-- Writes the record of the header in `b` under the roots of `s`, with the cursor of
`PreHeader.build`. A field that cannot be read is the error; a piece without room would end it with
no answer at all. -/
def compose (b : Bytes) (s : Solution) : ExceptT OutOfRange Option Draft := do
  let d ← Draft.blank.put (← b.read Layout.prevBlock)
  let d ← d.put (← b.read Layout.merkleRoot)
  let d ← d.put (← b.read Layout.saplingRoot)
  let d ← d.put (← b.read Layout.nonce)
  let d ← d.put (← b.read Layout.bits)
  let d ← d.put s.prevRoot.toList
  d.put s.blockRoot.toList

end Record

end HeaderWork
