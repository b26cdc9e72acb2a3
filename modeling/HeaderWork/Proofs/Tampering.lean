import HeaderWork.Proofs.Binding
import HeaderWork.Proofs.Restoring

/-!
# Headers that differ in chain-specific places only

Two buffers of one length that agree everywhere else have one canonical form, which decides what a
change of chain-specific places can do to a verified header and to its work hash.

* `decision_of_altered` — what is found in a buffer with the canonical form of a verified header.
* `tampering_is_evident` — no other buffer passes with the chain-specific places of a verified header
  changed, save the cleared one and those whose records collide with its own.
* `leaves_eq_canonical` — what is left of a verified or cleared header is its canonical form.
* `score_ignores_chain_specific` — headers of either kind that agree everywhere else have one work
  hash, and are the same buffer once they are scored.
-/

namespace HeaderWork

/-! ## Altered headers -/

theorem byteAt_eq_of_canonical_eq {a b : Bytes} (h : b.canonical = a.canonical) {i : Nat}
    (hi : ¬ ChainSpecific i) : b.byteAt i = a.byteAt i := by
  rw [← Bytes.byteAt_canonical_of_not hi, h, Bytes.byteAt_canonical_of_not hi]

theorem window_eq_of_canonical_eq {a b : Bytes} (h : b.canonical = a.canonical) {n start : Nat}
    (hplaces : ∀ i, start ≤ i → i < start + n → ¬ ChainSpecific i) :
    b.window n start = a.window n start :=
  Bytes.window_congr fun i h1 h2 => byteAt_eq_of_canonical_eq h (hplaces i h1 h2)

/-- With the canonical form of a verified header, only the record is left to decide. -/
theorem decision_of_altered {recordDigest : Record → Digest} {a b : Bytes}
    (ha : Bound recordDigest a) (h : b.canonical = a.canonical) :
    decision recordDigest b =
      if b.record = Octets.zero 196 then .pass .cleared
      else if recordDigest b.record = Digest.zero then .refused .noDigest
      else if recordDigest a.record ≠ recordDigest b.record then
        .refused (.mismatch (a.window 32 235) (recordDigest b.record))
      else .verified (a.byteAt 148) (a.window 20 215) := by
  have hversion : b.version = a.version := by
    rw [← version_canonical, h, version_canonical]
  have hchains : b.byteAt 148 = a.byteAt 148 := byteAt_eq_of_canonical_eq h (by decide)
  have hchain : b.window 20 215 = a.window 20 215 :=
    window_eq_of_canonical_eq h fun _ h1 _ => not_chainSpecific_of_le h1
  have hdigest : b.window 32 235 = a.window 32 235 :=
    window_eq_of_canonical_eq h fun _ h1 _ => not_chainSpecific_of_le (by omega)
  unfold decision
  rw [hversion, hchains, hchain, hdigest, if_neg (UInt32.not_le.2 ha.version), if_neg ha.chains,
    ha.embedded]

/-- **Tampering is evident.** Of the buffers that agree with a verified header outside its
chain-specific places, only its cleared form passes as cleared. Any other has another record: it is
verified, with the same chains, when the digests of the two records collide, refused for want of a
digest when that of its own record is zero, and refused for a mismatch with the embedded digest in
every other case. -/
theorem tampering_is_evident {recordDigest : Record → Digest} {a b : Bytes} {n : UInt8}
    {chain : ChainId} (ha : examine recordDigest a = .ok (.verified n chain))
    (hlen : b.length = a.length) (hplaces : ∀ i, ¬ ChainSpecific i → b[i]? = a[i]?) (hne : b ≠ a) :
    (∃ f, examine recordDigest b = .ok f) ∧
    (examine recordDigest b = .ok (.pass .cleared) ↔ b = (clear a).buffer) ∧
    ∃ r r', Record.ofBuffer a = .ok r ∧ Record.ofBuffer b = .ok r' ∧ r ≠ r' ∧
      (b ≠ (clear a).buffer →
        (∀ n' chain', examine recordDigest b = .ok (.verified n' chain') ↔
          n' = n ∧ chain' = chain ∧ recordDigest r = recordDigest r') ∧
        (examine recordDigest b = .ok (.refused .noDigest) ↔ recordDigest r' = Digest.zero) ∧
        (recordDigest r ≠ recordDigest r' → recordDigest r' ≠ Digest.zero →
          examine recordDigest b =
            .ok (.refused (.mismatch (a.window 32 235) (recordDigest r'))))) := by
  obtain ⟨bound, rfl, rfl⟩ := examine_eq_verified_iff.1 ha
  have hcanonical : b.canonical = a.canonical :=
    Bytes.canonical_eq_canonical_iff.2 ⟨hlen, hplaces⟩
  have hb : 267 ≤ b.length := hlen ▸ bound.length
  have hclear : (clear a).buffer = a.canonical := by rw [clear_of_verified ha]
  have hexamine : examine recordDigest b = .ok (decision recordDigest b) :=
    examine_of_complete (complete_of_le hb) recordDigest
  have hcleared : b.record = Octets.zero 196 ↔ b = a.canonical := by
    rw [← Bytes.canonical_eq_self_iff, hcanonical]
    exact eq_comm
  rw [hexamine, hclear, decision_of_altered bound hcanonical]
  refine ⟨⟨_, rfl⟩, ?_, a.record, b.record, Record.ofBuffer_of_le (by have := bound.length; omega),
    Record.ofBuffer_of_le (by omega), ?_, ?_⟩
  · by_cases hz : b.record = Octets.zero 196
    · rw [if_pos hz]
      exact ⟨fun _ => hcleared.1 hz, fun _ => rfl⟩
    · rw [if_neg hz]
      refine ⟨?_, fun h => absurd (hcleared.2 h) hz⟩
      intro h
      split at h
      · cases h
      · split at h <;> cases h
  · intro hrecord
    exact hne (Bytes.eq_iff_record_eq_and_canonical_eq.2 ⟨hrecord.symm, hcanonical⟩)
  · intro hother
    rw [if_neg fun hz => hother (hcleared.1 hz)]
    by_cases hd : recordDigest b.record = Digest.zero
    · have hda : recordDigest a.record ≠ Digest.zero := bound.digest
      simp [hd, hda]
    · by_cases he : recordDigest a.record = recordDigest b.record
      · simp [hd, he, eq_comm]
      · simp [hd, he]

/-- A verified header with another previous block is refused: its digest is no longer the one that
it embeds. -/
theorem tampering_is_evident_boundHeader :
    let a := Scheme.boundHeader
    let b := Scheme.boundHeader.overlay 4 [2]
    let embedded : Digest := Vector.replicate 32 1
    examine Transparent.leadingBytes a = .ok (.verified 1 (Vector.replicate 20 0)) ∧
      b.length = a.length ∧ (∀ i, ¬ ChainSpecific i → b[i]? = a[i]?) ∧ b ≠ a ∧
      examine Transparent.leadingBytes b =
        .ok (.refused (.mismatch embedded (embedded.set 0 2))) := by
  intro a b embedded
  have ha : examine Transparent.leadingBytes a = .ok (.verified 1 (Vector.replicate 20 0)) := by
    decide +kernel
  have hlen : b.length = a.length := Bytes.length_overlay a 4 [2]
  have hplaces : ∀ i, ¬ ChainSpecific i → b[i]? = a[i]? := by
    intro i hi
    unfold ChainSpecific at hi
    rw [Bytes.getElem?_overlay, if_neg]
    simp only [List.length_singleton]
    omega
  have hne : b ≠ a := by
    intro h
    exact absurd (congrArg (fun x : Bytes => x.byteAt 4) h) (by decide +kernel)
  have hb : b ≠ (clear a).buffer := by
    rw [clear_of_verified ha]
    intro h
    exact absurd (congrArg (fun x : Bytes => x.byteAt 4) h) (by decide +kernel)
  have hembedded : a.window 32 235 = embedded := by decide +kernel
  have hdigest : Transparent.leadingBytes a.record = embedded :=
    (examine_eq_verified_iff.1 ha).1.embedded.symm.trans hembedded
  have hcomputed : Transparent.leadingBytes b.record = embedded.set 0 2 := by decide +kernel
  obtain ⟨-, -, r, r', hr, hr', -, hother⟩ := tampering_is_evident ha hlen hplaces hne
  obtain ⟨-, rfl⟩ := Record.ofBuffer_eq_ok_iff.1 hr
  obtain ⟨-, rfl⟩ := Record.ofBuffer_eq_ok_iff.1 hr'
  have hmismatch := (hother hb).2.2
  rw [hembedded, hdigest, hcomputed] at hmismatch
  exact ⟨ha, hlen, hplaces, hne, hmismatch (by decide) (by decide)⟩

/-! ## Work hashes of altered headers -/

theorem record_eq_zero_of_cleared {recordDigest : Record → Digest} {b : Bytes}
    (h : examine recordDigest b = .ok (.pass .cleared)) : b.record = Octets.zero 196 := by
  obtain ⟨-, hd⟩ := examine_eq_ok h
  rcases decision_cases recordDigest b with ⟨-, e⟩ | ⟨-, ⟨-, e⟩ | ⟨-, ⟨hr, e⟩ |
    ⟨-, ⟨-, e⟩ | ⟨-, ⟨-, e⟩ | ⟨-, e⟩⟩⟩⟩⟩ <;> rw [e] at hd <;> cases hd
  exact hr

/-- **What is left of a verified or cleared header is its canonical form.** -/
theorem leaves_eq_canonical {recordDigest : Record → Digest} {b : Bytes} {f : Finding}
    (h : examine recordDigest b = .ok f)
    (hf : f = .pass .cleared ∨ ∃ n chain, f = .verified n chain) : f.leaves b = b.canonical := by
  rcases hf with rfl | ⟨n, chain, rfl⟩
  · exact (Bytes.canonical_eq_self_iff.2 (record_eq_zero_of_cleared h)).symm
  · rfl

/-- **The work hash does not depend on the chain-specific places.** Two headers of one length that
agree everywhere else, each verified or cleared already under a digest of its own, have one work hash
and leave one buffer. -/
theorem score_ignores_chain_specific (S : Scheme) (D D' : Record → Digest) {a b : Bytes}
    {d e : Digest} {f g : Finding} (hlen : a.length = b.length)
    (hplaces : ∀ i, ¬ ChainSpecific i → a[i]? = b[i]?)
    (ha : ((S.withRecordDigest D).score a).answer = .ok (.hashed d f))
    (hb : ((S.withRecordDigest D').score b).answer = .ok (.hashed e g))
    (hf : f = .pass .cleared ∨ ∃ n chain, f = .verified n chain)
    (hg : g = .pass .cleared ∨ ∃ n chain, g = .verified n chain) :
    d = e ∧ ((S.withRecordDigest D).score a).buffer = ((S.withRecordDigest D').score b).buffer := by
  obtain ⟨hxa, hbufa, hda⟩ := Scheme.examine_of_hashed ha
  obtain ⟨hxb, hbufb, hdb⟩ := Scheme.examine_of_hashed hb
  have hcanonical : a.canonical = b.canonical :=
    Bytes.canonical_eq_canonical_iff.2 ⟨hlen, hplaces⟩
  rw [leaves_eq_canonical hxa hf, hcanonical] at hbufa hda
  rw [leaves_eq_canonical hxb hg] at hbufb hdb
  exact ⟨hda.trans hdb.symm, hbufa.trans hbufb.symm⟩

/-- A header that is verified under one digest, and its cleared form under another that gives none,
have one work hash. -/
theorem score_ignores_chain_specific_boundHeader :
    let a := Scheme.boundHeader
    let b := Scheme.boundHeader.canonical
    let S := Scheme.leadingScheme.withRecordDigest Transparent.leadingBytes
    let T := Scheme.leadingScheme.withRecordDigest Transparent.noDigest
    a.length = b.length ∧ (∀ i, ¬ ChainSpecific i → a[i]? = b[i]?) ∧ a ≠ b ∧
      ∃ d, (S.score a).answer = .ok (.hashed d (.verified 1 (Vector.replicate 20 0))) ∧
        (T.score b).answer = .ok (.hashed d (.pass .cleared)) ∧
        (S.score a).buffer = (T.score b).buffer := by
  intro a b S T
  have hlen : a.length = b.length := (Bytes.length_canonical a).symm
  have hplaces : ∀ i, ¬ ChainSpecific i → a[i]? = b[i]? := by
    intro i hi
    exact (Bytes.getElem?_canonical_of_not hi).symm
  have hne : a ≠ b := by decide +kernel
  have hxa : examine S.recordDigest a = .ok (.verified 1 (Vector.replicate 20 0)) := by
    decide +kernel
  have hxb : examine T.recordDigest b = .ok (.pass .cleared) := by
    obtain ⟨bound, -⟩ := examine_eq_verified_iff.1 hxa
    rw [examine_canonical, if_pos ⟨bound.length, bound.version, bound.chains⟩]
  have ha := (Scheme.score_of_verified hxa).1
  have hb : (T.score b).answer = .ok (.hashed (T.hashFolded b) (.pass .cleared)) := by
    rw [Scheme.score_of_ok hxb]
    rfl
  obtain ⟨hd, hbuffer⟩ := score_ignores_chain_specific Scheme.leadingScheme Transparent.leadingBytes
    Transparent.noDigest hlen hplaces ha hb (Or.inr ⟨_, _, rfl⟩) (Or.inl rfl)
  rw [← hd] at hb
  exact ⟨hlen, hplaces, hne, _, ha, hb, hbuffer⟩

end HeaderWork
