import HeaderWork.Digest

/-!
# BLAKE2b with 32 bytes of output and a personalisation

The sequential, unkeyed hash: twelve rounds of eight quarter steps over sixteen words of 64 bits,
one compression for every 128 bytes of input.

* `compress` — one step of the chain: eight words, a block, how many bytes are hashed so far.
* `chain` — all blocks of a message in turn, the last of them marked.
* `digest` — the hash of a message under a personalisation of sixteen bytes.
-/

namespace HeaderWork.Blake2b

/-- A row of 64-bit words. -/
abbrev Words (n : Nat) := Vector UInt64 n

/-! ## Constants -/

/-- The words every hash starts from. -/
def iv : Words 8 :=
  #v[0x6a09e667f3bcc908, 0xbb67ae8584caa73b, 0x3c6ef372fe94f82b, 0xa54ff53a5f1d36f1,
     0x510e527fade682d1, 0x9b05688c2b3e6c1f, 0x1f83d9abfb41bd6b, 0x5be0cd19137e2179]

/-- Which message words each round takes, two to a quarter step; two rounds go round again. -/
def schedule : Vector (Vector (Fin 16) 16) 10 :=
  #v[#v[0, 1, 2, 3, 4, 5, 6, 7, 8, 9, 10, 11, 12, 13, 14, 15],
     #v[14, 10, 4, 8, 9, 15, 13, 6, 1, 12, 0, 2, 11, 7, 5, 3],
     #v[11, 8, 12, 0, 5, 2, 15, 13, 10, 14, 3, 6, 7, 1, 9, 4],
     #v[7, 9, 3, 1, 13, 12, 11, 14, 2, 6, 5, 10, 4, 0, 15, 8],
     #v[9, 0, 5, 7, 2, 4, 10, 15, 14, 1, 11, 12, 6, 8, 3, 13],
     #v[2, 12, 6, 10, 0, 11, 8, 3, 4, 13, 7, 5, 15, 14, 1, 9],
     #v[12, 5, 1, 15, 14, 13, 4, 10, 0, 7, 6, 3, 9, 2, 8, 11],
     #v[13, 11, 7, 14, 12, 1, 3, 9, 5, 0, 15, 4, 8, 6, 2, 10],
     #v[6, 15, 14, 9, 11, 3, 0, 8, 12, 2, 13, 7, 1, 4, 10, 5],
     #v[10, 2, 8, 4, 7, 6, 1, 5, 15, 11, 9, 14, 3, 12, 13, 0]]

/-! ## Rounds -/

/-- The word turned right by `n` bits, for `n` from 1 to 63. -/
def rotateRight (x n : UInt64) : UInt64 := (x >>> n) ||| (x <<< (64 - n))

/-- Stirs the message words `x` and `y` into the words at `a`, `b`, `c` and `d`. -/
def quarter (v : Words 16) (a b c d : Fin 16) (x y : UInt64) : Words 16 :=
  let va := v[a] + v[b] + x
  let vd := rotateRight (v[d] ^^^ va) 32
  let vc := v[c] + vd
  let vb := rotateRight (v[b] ^^^ vc) 24
  let va := va + vb + y
  let vd := rotateRight (vd ^^^ va) 16
  let vc := vc + vd
  let vb := rotateRight (vb ^^^ vc) 63
  (((v.set a va).set b vb).set c vc).set d vd

/-- The places of the eight quarter steps of a round: four columns, then four diagonals. -/
def places : List (Fin 16 × Fin 16 × Fin 16 × Fin 16) :=
  [(0, 4, 8, 12), (1, 5, 9, 13), (2, 6, 10, 14), (3, 7, 11, 15),
   (0, 5, 10, 15), (1, 6, 11, 12), (2, 7, 8, 13), (3, 4, 9, 14)]

/-- One round: quarter step `i` takes message words `2 * i` and `2 * i + 1` of the schedule. -/
def round (m : Words 16) (v : Words 16) (s : Vector (Fin 16) 16) : Words 16 :=
  places.zipIdx.foldl
    (fun v p =>
      let i : Fin 8 := Fin.ofNat 8 p.2
      quarter v p.1.1 p.1.2.1 p.1.2.2.1 p.1.2.2.2
        m[s[2 * i.val]] m[s[2 * i.val + 1]])
    v

/-! ## Blocks -/

/-- The sixteen words of a block; a short block counts as filled up with zeros. -/
def words (block : Bytes) : Words 16 :=
  Vector.ofFn fun i => .ofNat (LittleEndian.value (block.slice ⟨8 * i.val, 8⟩))

/-- The next chain value, when `count` bytes have been taken in with this block. -/
def compress (h : Words 8) (m : Words 16) (count : Nat) (last : Bool) : Words 8 :=
  let tail : Words 8 :=
    #v[iv[0], iv[1], iv[2], iv[3],
       iv[4] ^^^ .ofNat count, iv[5] ^^^ .ofNat (count / UInt64.size),
       (if last then ~~~iv[6] else iv[6]), iv[7]]
  let rounds := schedule.toList ++ schedule.toList.take 2
  let v : Words 16 := rounds.foldl (round m) (h ++ tail)
  Vector.ofFn fun i : Fin 8 => h[i] ^^^ v[i.val] ^^^ v[i.val + 8]

/-- Takes in `data` behind `count` bytes; the last block, full or not, is marked as last. -/
def chain (h : Words 8) (count : Nat) (data : Bytes) : Words 8 :=
  if data.length ≤ 128 then compress h (words data) (count + data.length) true
  else chain (compress h (words (data.take 128)) (count + 128) false) (count + 128) (data.drop 128)
termination_by data.length
decreasing_by simp; omega

/-! ## Hash -/

/-- The chain value in front of the first block: 32 bytes of output, no key, no tree, and the
personalisation over the last two words. -/
def start (personal : Octets 16) : Words 8 :=
  let low : UInt64 := .ofNat (LittleEndian.value (personal.toList.take 8))
  let high : UInt64 := .ofNat (LittleEndian.value (personal.toList.drop 8))
  #v[iv[0] ^^^ 0x01010020, iv[1], iv[2], iv[3], iv[4], iv[5], iv[6] ^^^ low, iv[7] ^^^ high]

/-- The first four words of the chain value spell the digest. -/
def digest (personal : Octets 16) (data : Bytes) : Digest :=
  let h := chain (start personal) 0 data
  .ofBytes
    ((LittleEndian.ofUInt64 h[0]).toList ++ (LittleEndian.ofUInt64 h[1]).toList ++
      (LittleEndian.ofUInt64 h[2]).toList ++ (LittleEndian.ofUInt64 h[3]).toList)
    (by simp)

end HeaderWork.Blake2b
