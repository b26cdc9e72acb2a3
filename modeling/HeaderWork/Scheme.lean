import HeaderWork.Blake2b
import HeaderWork.Record
import HeaderWork.Sponge

/-!
# Hash schemes

A scheme (`HashDispatcher`) supplies the primitives: a compression for each of the two sponge
families (`Compressor`), the mixing function of the second (`Mixer`), and the digest of a record
(`PreHeaderDigest`).

* `Scheme.withRecordDigest` — a scheme under another digest of records (`with_pre_header_digest`).
* `Scheme.hashFirst`, `hashSecond`, `hashFolded` — a whole buffer through one sponge (`hash`, `hash2`,
  and `hash2b` or `hash2b1`).
* `Scheme.standard` — every primitive is BLAKE2b under a personalisation of its own (`PortableV1`,
  `PortableV2`, `Blake2bPreHeaderDigest`).
-/

namespace HeaderWork

/-- The primitives that hashing and inspecting rest on. -/
structure Scheme where
  first : Compression
  second : Compression
  mix : Compression
  recordDigest : Record → Digest

namespace Scheme

/-- The same hashes, with another digest of records. -/
def withRecordDigest (S : Scheme) (recordDigest : Record → Digest) : Scheme :=
  { S with recordDigest }

/-! ## Hashing a buffer -/

def hashFirst (S : Scheme) (b : Bytes) : Digest :=
  (Sponge.fresh.absorb S.first b).squeeze S.first

def hashSecond (S : Scheme) (b : Bytes) : Digest :=
  (Sponge.fresh.absorb S.second b).squeeze S.second

def hashFolded (S : Scheme) (b : Bytes) : Digest :=
  (Sponge.fresh.absorb S.second b).squeezeFolded S.second S.mix

/-! ## The standard scheme -/

def firstPersonal : Octets 16 := .ofBytes (Bytes.ofString "VerusHashV1Cmprs") (by decide)

def secondPersonal : Octets 16 := .ofBytes (Bytes.ofString "VerusHashV2Cmprs") (by decide)

def mixPersonal : Octets 16 := .ofBytes (Bytes.ofString "VerusHashV2bMix_") (by decide)

def recordPersonal : Octets 16 := .ofBytes (Bytes.ofString "VerusDefaultHash") (by decide)

/-- The digest of a record that chain entries embed. -/
def blake2bRecordDigest (r : Record) : Digest := Blake2b.digest recordPersonal r.toList

/-- BLAKE2b throughout. -/
def standard : Scheme where
  first block := Blake2b.digest firstPersonal block.toBytes
  second block := Blake2b.digest secondPersonal block.toBytes
  mix block := Blake2b.digest mixPersonal block.toBytes
  recordDigest := blake2bRecordDigest

end Scheme

end HeaderWork
