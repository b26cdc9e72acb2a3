import HeaderWork.Proofs.Binding

/-!
# Embedding a digest

The digest of a record is kept in the first chain entry, outside the record and outside what is
cleared. So writing it there disturbs neither, and it alone decides whether a header is verified.

* `Bytes.byteAt_overlay`, `Bytes.window_overlay` — what stands where bytes were laid over a buffer.
* `record_overlay` — the record does not see the digest that is embedded.
* `examine_overlay` — what is found, once any digest is embedded, in a header that lacks nothing but
  the digest of its record.
* `embedding_decides` — finding, score and buffer for every digest that can be embedded.
-/

namespace HeaderWork

namespace Bytes

/-! ## Bytes laid over a buffer -/

theorem byteAt_overlay (b : Bytes) (start : Nat) (data : Bytes) (i : Nat) :
    (b.overlay start data).byteAt i =
      if start ≤ i ∧ i < start + data.length ∧ i < b.length then data.byteAt (i - start)
      else b.byteAt i := by
  rw [byteAt, getElem?_overlay]
  split
  · rfl
  · rfl

theorem byteAt_overlay_of_lt {b : Bytes} {start i : Nat} (data : Bytes) (h : i < start) :
    (b.overlay start data).byteAt i = b.byteAt i := by
  rw [byteAt_overlay, if_neg (by omega)]

theorem window_overlay_of_le {n : Nat} {b : Bytes} {start s : Nat} (data : Bytes)
    (h : s + n ≤ start) : (b.overlay start data).window n s = b.window n s :=
  window_congr fun _ _ hi => byteAt_overlay_of_lt data (by omega)

/-- What was laid over a buffer with room for it can be read back. -/
theorem window_overlay {n : Nat} {b : Bytes} {start : Nat} (v : Octets n)
    (h : start + n ≤ b.length) : (b.overlay start v.toList).window n start = v := by
  rw [window_eq_iff]
  intro i hi
  rw [byteAt_overlay, Vector.length_toList, if_pos (by omega), Nat.add_sub_cancel_left, byteAt,
    Vector.getElem?_toList, Vector.getElem?_eq_getElem hi, Option.getD_some]

end Bytes

/-! ## Headers that lack a digest only -/

/-- **The record does not see the digest that is embedded.** -/
theorem record_overlay (b : Bytes) (h : Digest) : (b.overlay 235 h.toList).record = b.record := by
  rw [Bytes.record_eq_record_iff]
  intro i hi
  unfold ChainSpecific at hi
  exact Bytes.byteAt_overlay_of_lt _ (by omega)

/-- **Only the digest of its own record makes such a header verified.** -/
theorem examine_overlay {recordDigest : Record → Digest} {b : Bytes}
    (hb : Bindable recordDigest b) (h : Digest) :
    examine recordDigest (b.overlay 235 h.toList) =
      .ok (if h = recordDigest b.record then .verified (b.byteAt 148) (b.window 20 215)
        else .refused (.mismatch h (recordDigest b.record))) := by
  have hlen : 267 ≤ (b.overlay 235 h.toList).length := by simpa using hb.length
  have hversion : (b.overlay 235 h.toList).version = b.version :=
    Bytes.version_congr fun _ _ hi => Bytes.byteAt_overlay_of_lt _ (by omega)
  have hchains : (b.overlay 235 h.toList).byteAt 148 = b.byteAt 148 :=
    Bytes.byteAt_overlay_of_lt _ (by decide)
  have hchain : (b.overlay 235 h.toList).window 20 215 = b.window 20 215 :=
    Bytes.window_overlay_of_le _ (by decide)
  have hdigest : (b.overlay 235 h.toList).window 32 235 = h := Bytes.window_overlay h hb.length
  rw [examine_of_complete (complete_of_le hlen), decision, hversion, hchains, hchain, hdigest,
    record_overlay, if_neg (UInt32.not_le.2 hb.version), if_neg hb.chains, if_neg hb.record,
    if_neg hb.digest]
  by_cases hh : h = recordDigest b.record
  · rw [if_pos hh, if_neg (not_not_intro hh)]
  · rw [if_neg hh, if_pos hh]

/-- Clearing leaves an embedded digest where it is. -/
theorem window_canonical_overlay {b : Bytes} (hlen : 267 ≤ b.length) (h : Digest) :
    (b.overlay 235 h.toList).canonical.window 32 235 = h := by
  rw [Bytes.window_canonical fun i h1 _ => not_chainSpecific_of_le (by omega)]
  exact Bytes.window_overlay h hlen

/-! ## Every digest that can be embedded -/

/-- **The embedded digest decides.** Whatever digest is written into the first entry of a header that
lacks nothing else, its record stays the same. With the digest of that record the header is verified,
and its work hash is the folded hash of its canonical form, which is what is left of it and still
embeds the digest. With any other one it is refused for the mismatch, has the digest that misses every
target, and stays as it is. -/
theorem embedding_decides (S : Scheme) {b : Bytes} (hb : Bindable S.recordDigest b) (h : Digest) :
    let r := b.record
    let b' := b.overlay 235 h.toList
    Record.ofBuffer b = .ok r ∧ Record.ofBuffer b' = .ok r ∧
    (∀ n chain, examine S.recordDigest b' = .ok (.verified n chain) ↔
      h = S.recordDigest r ∧ n = b.byteAt 148 ∧ chain = b.window 20 215) ∧
    (h = S.recordDigest r →
      (S.scoreDigest b').answer = .ok (S.hashFolded b'.canonical) ∧
      (S.scoreDigest b').buffer = b'.canonical ∧ b'.canonical.window 32 235 = h) ∧
    (h ≠ S.recordDigest r →
      examine S.recordDigest b' = .ok (.refused (.mismatch h (S.recordDigest r))) ∧
      (S.scoreDigest b').answer = .ok (Vector.replicate 32 0xff) ∧
      (S.scoreDigest b').buffer = b') := by
  intro r b'
  have hlen : 215 ≤ b.length := Nat.le_trans (by decide) hb.length
  have hlen' : 215 ≤ b'.length := (Bytes.length_overlay b 235 h.toList).symm ▸ hlen
  have hrecord : b'.record = r := record_overlay b h
  have hexamine := examine_overlay hb h
  refine ⟨Record.ofBuffer_of_le hlen, hrecord ▸ Record.ofBuffer_of_le hlen', ?_, ?_, ?_⟩
  · intro n chain
    rw [hexamine]
    by_cases hh : h = S.recordDigest b.record
    · rw [if_pos hh]
      constructor
      · intro he
        cases he
        exact ⟨hh, rfl, rfl⟩
      · rintro ⟨-, rfl, rfl⟩
        rfl
    · rw [if_neg hh]
      constructor
      · intro he
        cases he
      · rintro ⟨heq, -, -⟩
        exact absurd heq hh
  · intro hh
    rw [if_pos hh] at hexamine
    rw [Scheme.scoreDigest, Scheme.score_of_ok hexamine]
    exact ⟨rfl, rfl, window_canonical_overlay hb.length h⟩
  · intro hh
    rw [if_neg hh] at hexamine
    rw [Scheme.scoreDigest, Scheme.score_of_ok hexamine]
    exact ⟨hexamine, rfl, rfl⟩

/-- A header that embeds nothing yet is verified once it embeds the digest of its record, and refused
with any other, such as sevens. -/
theorem embedding_decides_boundHeader :
    let S := Scheme.leadingScheme
    let b := Scheme.boundHeader.overlay 235 (List.replicate 32 0)
    let d : Digest := Vector.replicate 32 1
    let e : Digest := Vector.replicate 32 7
    Bindable S.recordDigest b ∧
      examine S.recordDigest (b.overlay 235 d.toList) =
        .ok (.verified 1 (Vector.replicate 20 0)) ∧
      (S.scoreDigest (b.overlay 235 d.toList)).answer =
        .ok (S.hashFolded (b.overlay 235 d.toList).canonical) ∧
      examine S.recordDigest (b.overlay 235 e.toList) = .ok (.refused (.mismatch e d)) ∧
      (S.scoreDigest (b.overlay 235 e.toList)).answer = .ok (Vector.replicate 32 0xff) := by
  intro S b d e
  have hrecord : b.record ≠ Octets.zero 196 := by
    intro hz
    exact absurd (record_eq_zero_iff.1 hz 4 (by decide)) (by decide +kernel)
  have hb : Bindable S.recordDigest b :=
    ⟨by decide +kernel, by decide +kernel, by decide +kernel, hrecord, by decide +kernel⟩
  have hd : d = S.recordDigest b.record := by decide +kernel
  have he : e ≠ S.recordDigest b.record := by
    rw [← hd]
    decide
  have hchains : 1 = b.byteAt 148 := by decide +kernel
  have hchain : Vector.replicate 20 0 = b.window 20 215 := by decide +kernel
  obtain ⟨-, -, hverified, hscore, -⟩ := embedding_decides S hb d
  obtain ⟨-, -, -, -, hrefused⟩ := embedding_decides S hb e
  obtain ⟨hmismatch, hanswer, -⟩ := hrefused he
  rw [← hd] at hmismatch
  exact ⟨hb, (hverified _ _).2 ⟨hd, hchains, hchain⟩, (hscore hd).1, hmismatch, hanswer⟩

end HeaderWork
