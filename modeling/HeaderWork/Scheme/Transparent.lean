import HeaderWork.Scheme

/-!
# Transparent primitives

Compressions and record digests whose results can be read off their input: they show which bytes a
hash depends on, and hold the corner cases that no cryptographic primitive reaches on purpose.

* `passInput`, `stir`, `vanish` — compressions; each has its own mixing function.
* `noDigest`, `leadingBytes`, `foldColumns`, `always` — digests of a record.
* `Scheme.leadingScheme`, `Scheme.boundHeader` — a scheme of them, and a header that is verified
  under it.
-/

namespace HeaderWork

namespace Transparent

/-! ## Compressions -/

def passInput : Compression := fun b => b.input

def passChaining : Compression := fun b => b.chaining

/-- The input half turned left by a bit, added without carry to the chaining half and to the index
of the byte. -/
def stir : Compression := fun b =>
  Vector.ofFn fun i =>
    let x := b.input[i]
    b.chaining[i] ^^^ ((x <<< 1) ||| (x >>> 7)) ^^^ .ofNat i.val

/-- The block backwards, of which the first half is kept, plus the index of the byte. -/
def backwards : Compression := fun b =>
  Vector.ofFn fun i => b.input[31 - i.val] + .ofNat i.val

def vanish : Compression := fun _ => Digest.zero

def saturate : Compression := fun _ => Digest.refused

/-! ## Digests of a record -/

def noDigest : Record → Digest := fun _ => Digest.zero

def leadingBytes : Record → Digest := fun r => Vector.ofFn fun i => r[i.val]

/-- Byte `i` adds, without carry, all bytes of the record at places that leave `i` by 32. -/
def foldColumns : Record → Digest := fun r =>
  Vector.ofFn fun i =>
    ((List.finRange Layout.recordLen).filter fun j => j.val % 32 = i.val).foldl
      (fun x j => x ^^^ r[j]) 0

def always (d : Digest) : Record → Digest := fun _ => d

end Transparent

/-! ## A scheme and a header for it -/

namespace Scheme

/-- The scheme that takes the leading bytes of a record for its digest. -/
def leadingScheme : Scheme :=
  ⟨Transparent.passInput, Transparent.stir, Transparent.backwards, Transparent.leadingBytes⟩

/-- A header with one chain entry, which embeds the leading bytes of the record. -/
def boundHeader : Bytes :=
  [4, 0, 0, 0] ++ List.replicate 32 1 ++ List.replicate 107 0 ++ [7, 0, 0, 0, 0, 1, 0, 0] ++
    List.replicate 84 0 ++ List.replicate 32 1

end Scheme

end HeaderWork
