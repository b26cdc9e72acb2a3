import HeaderWork.Bytes

/-!
# Where the fields of a serialised header lie

A header of `headerLen` bytes is followed by a length of `prefixLen` bytes and then by the solution,
whose own fields are given from its first byte (`InSolution`) and from the start of the buffer.

* `digestLen`, `chainIdLen`, `bitsLen`, `recordLen` — the widths that fields and records are made of
  (`HASH32_LEN`, `CHAIN_ID_LEN`, `BITS_LEN`, `PRE_HEADER_LEN`).
* `prevBlock`, `merkleRoot`, `saplingRoot`, `bits`, `nonce` — the chain-specific fields of the header.
* `version`, `descriptor`, `chains`, `extraSpace`, `prevRoot`, `blockRoot` — the head of the solution.
* `firstChain`, `firstDigest` — its first chain entry.
* `clearedSpans` — everything that has to be zero for a header to be the same on all chains
  (`CANONICAL_ZERO_SPANS`).
-/

namespace HeaderWork.Layout

/-! ## Widths -/

/-- Bytes of a digest. -/
abbrev digestLen : Nat := 32

/-- Bytes of a chain id. -/
abbrev chainIdLen : Nat := 20

/-- Bytes of a compact target. -/
abbrev bitsLen : Nat := 4

/-- Bytes of the record of the chain-specific fields: three hashes and the nonce, the target, and
both roots. -/
abbrev recordLen : Nat := 4 * digestLen + bitsLen + 2 * digestLen

/-! ## Header -/

/-- Hash of the previous block, behind the version of the header. -/
def prevBlock : Span := ⟨4, digestLen⟩

/-- Root of the transaction tree. -/
def merkleRoot : Span := ⟨36, digestLen⟩

/-- Root of the shielded note tree. -/
def saplingRoot : Span := ⟨68, digestLen⟩

/-- Compact target, behind four bytes of time. -/
def bits : Span := ⟨104, bitsLen⟩

/-- Nonce, which ends the header. -/
def nonce : Span := ⟨108, digestLen⟩

/-- Bytes of the header without its solution. -/
def headerLen : Nat := 140

/-- Bytes of the length in front of the solution. -/
def prefixLen : Nat := 3

/-- Where the solution begins. -/
def solutionStart : Nat := headerLen + prefixLen

/-! ## Solution, from its first byte -/

namespace InSolution

def version : Span := ⟨0, 4⟩

def descriptor : Span := ⟨4, 1⟩

/-- Number of chain entries that follow. -/
def chains : Span := ⟨5, 1⟩

/-- Size of the free space behind the entries. -/
def extraSpace : Span := ⟨6, 2⟩

/-- Both mountain range roots. -/
def roots : Span := ⟨8, 2 * digestLen⟩

/-- Mountain range root of the previous block. -/
def prevRoot : Span := ⟨8, digestLen⟩

/-- Mountain range root of this block. -/
def blockRoot : Span := ⟨8 + digestLen, digestLen⟩

/-- Bytes in front of the first chain entry. -/
def headLen : Nat := 4 + 1 + 1 + 2 + 2 * digestLen

/-- Chain id of the first entry. -/
def firstChain : Span := ⟨headLen, chainIdLen⟩

/-- Digest embedded in the first entry. -/
def firstDigest : Span := ⟨headLen + chainIdLen, digestLen⟩

def entryLen : Nat := chainIdLen + digestLen

end InSolution

/-! ## Solution, from the start of the buffer -/

def version : Span := InSolution.version.shift solutionStart

def descriptor : Span := InSolution.descriptor.shift solutionStart

def chains : Span := InSolution.chains.shift solutionStart

def extraSpace : Span := InSolution.extraSpace.shift solutionStart

def roots : Span := InSolution.roots.shift solutionStart

def prevRoot : Span := InSolution.prevRoot.shift solutionStart

def blockRoot : Span := InSolution.blockRoot.shift solutionStart

def firstChain : Span := InSolution.firstChain.shift solutionStart

def firstDigest : Span := InSolution.firstDigest.shift solutionStart

/-- The least size of a buffer whose solution version can be read. -/
def minVersionedLen : Nat := solutionStart + 4

/-- The least size of a buffer whose first chain entry can be read. -/
def minMergeMinedLen : Nat := solutionStart + InSolution.headLen + InSolution.entryLen

/-! ## Clearing -/

/-- The chain-specific bytes: three hashes in a row, target, nonce and both roots. -/
def clearedSpans : List Span :=
  [⟨prevBlock.offset, 3 * digestLen⟩, bits, nonce, roots]

/-- The last version of a solution that cannot carry chain entries. -/
def lastLegacyVersion : UInt32 := 6

end HeaderWork.Layout
