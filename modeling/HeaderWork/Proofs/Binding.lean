import HeaderWork.Proofs.Absorption
import HeaderWork.Proofs.Locality
import HeaderWork.Scheme.Transparent
import Mathlib.Data.List.Induction

/-!
# What a work hash binds

Two headers with one work hash agree, or the primitives have been made to collide on blocks or
records that the two runs themselves have come by.

* `chain_binding` — two chains that end in one chaining half, followed back chunk by chunk.
* `SameChunks` — messages that differ at most in zeros behind the last full chunk.
* `foldedHashBlocks` — the blocks that the folded hash of a message compresses, in order;
  `hashFolded_congr` — it asks its primitives for nothing else.
* `hashFolded_binding` — messages with one folded hash.
* `score_binding` — verified headers with one work hash, and the converse.
-/

namespace HeaderWork

/-! ## Chains -/

namespace Sponge

/-- A block of one list and a block of another that differ and are compressed to one digest. -/
def Collide (compress : Compression) (xs ys : List Block) : Prop :=
  ∃ x ∈ xs, ∃ y ∈ ys, x ≠ y ∧ compress x = compress y

theorem Collide.mono {compress : Compression} {xs ys xs' ys' : List Block}
    (h : Collide compress xs ys) (hx : xs ⊆ xs') (hy : ys ⊆ ys') : Collide compress xs' ys' := by
  obtain ⟨x, hxs, y, hys, hne, heq⟩ := h
  exact ⟨x, hx hxs, y, hy hys, hne, heq⟩

/-- **Two chains from zero that end in one chaining half** are one chain, or collide, or one of them
comes back to zero. -/
theorem chain_binding (compress : Compression) (xs ys : List (Octets 32))
    (h : chainFrom compress Digest.zero xs = chainFrom compress Digest.zero ys) :
    xs = ys ∨
      Collide compress (chainBlocks compress Digest.zero xs)
        (chainBlocks compress Digest.zero ys) ∨
      ∃ x ∈ chainBlocks compress Digest.zero xs ++ chainBlocks compress Digest.zero ys,
        compress x = Digest.zero := by
  -- The chaining halves are followed back from the end, where they are known to agree.
  induction xs using List.reverseRec generalizing ys with
  | nil =>
      cases ys using List.reverseRec with
      | nil => exact Or.inl rfl
      | append_singleton ys y _ =>
          obtain ⟨hlast, hblocks⟩ := chain_concat compress Digest.zero ys y
          rw [hlast] at h
          rw [hblocks]
          refine Or.inr (Or.inr ⟨_, ?_, h.symm⟩)
          simp
  | append_singleton xs x ih =>
      obtain ⟨hlast, hblocks⟩ := chain_concat compress Digest.zero xs x
      rw [hlast] at h
      rw [hblocks]
      cases ys using List.reverseRec with
      | nil =>
          refine Or.inr (Or.inr ⟨_, ?_, h⟩)
          simp
      | append_singleton ys y _ =>
          obtain ⟨hlast', hblocks'⟩ := chain_concat compress Digest.zero ys y
          rw [hlast'] at h
          rw [hblocks']
          by_cases heq : (⟨chainFrom compress Digest.zero xs, x⟩ : Block) =
              ⟨chainFrom compress Digest.zero ys, y⟩
          · obtain ⟨hcv, rfl⟩ := Block.mk.inj heq
            rcases ih ys hcv with rfl | hcollide | ⟨z, hz, hzero⟩
            · exact Or.inl rfl
            · exact Or.inr (Or.inl
                (hcollide.mono (List.subset_append_left _ _) (List.subset_append_left _ _)))
            · refine Or.inr (Or.inr ⟨z, ?_, hzero⟩)
              rcases List.mem_append.1 hz with hz | hz
              · simp [hz]
              · simp [hz]
          · refine Or.inr (Or.inl ⟨_, ?_, _, ?_, heq, h⟩)
            · simp
            · simp

end Sponge

/-! ## Messages with the same chunks -/

/-- The messages differ at most in zeros behind their last full chunk. -/
def SameChunks (a b : Bytes) : Prop :=
  a.length / 32 = b.length / 32 ∧ ∀ i, a.byteAt i = b.byteAt i

theorem sameChunks_of_zeros {a b : Bytes} (h : b = a ++ List.replicate (b.length - a.length) 0)
    (hdiv : a.length / 32 = b.length / 32) : SameChunks a b := by
  refine ⟨hdiv, ?_⟩
  intro i
  rw [h, Bytes.byteAt_append_zeros]

theorem SameChunks.zeros {a b : Bytes} (h : SameChunks a b) (hlen : a.length ≤ b.length) :
    b = a ++ List.replicate (b.length - a.length) 0 ∧ a.length / 32 = b.length / 32 :=
  ⟨Bytes.eq_append_zeros_of_byteAt hlen h.2, h.1⟩

theorem SameChunks.canonical {a b : Bytes} (h : SameChunks a b) :
    SameChunks a.canonical b.canonical := by
  obtain ⟨hdiv, hbytes⟩ := h
  rw [SameChunks, Bytes.length_canonical, Bytes.length_canonical]
  refine ⟨hdiv, ?_⟩
  intro i
  rw [Bytes.byteAt_canonical, Bytes.byteAt_canonical, hbytes]

/-- Under one record, nothing is lost with the chain-specific places. -/
theorem SameChunks.of_canonical {a b : Bytes} (h : SameChunks a.canonical b.canonical)
    (hrecord : a.record = b.record) : SameChunks a b := by
  obtain ⟨hdiv, hbytes⟩ := h
  rw [Bytes.length_canonical, Bytes.length_canonical] at hdiv
  refine ⟨hdiv, ?_⟩
  intro i
  by_cases hi : ChainSpecific i
  · exact Bytes.record_eq_record_iff.1 hrecord i hi
  · have hb := hbytes i
    rwa [Bytes.byteAt_canonical_of_not hi, Bytes.byteAt_canonical_of_not hi] at hb

/-- Full chunks and rest say all about a message but the zeros behind. -/
theorem sameChunks_iff {a b : Bytes} :
    SameChunks a b ↔
      Sponge.chunks a = Sponge.chunks b ∧ Sponge.lastChunk a = Sponge.lastChunk b := by
  constructor
  · rintro ⟨hdiv, hbytes⟩
    have hwindow : ∀ start, a.window 32 start = b.window 32 start := by
      intro start
      exact Bytes.window_congr fun i _ _ => hbytes i
    unfold Sponge.chunks Sponge.lastChunk
    rw [hdiv, hwindow]
    refine ⟨?_, rfl⟩
    exact List.map_congr_left fun i _ => hwindow (32 * i)
  · rintro ⟨hchunks, hlast⟩
    have hdiv : a.length / 32 = b.length / 32 := by
      have hlen := congrArg List.length hchunks
      simpa [Sponge.chunks] using hlen
    refine ⟨hdiv, ?_⟩
    intro i
    unfold Sponge.chunks at hchunks
    unfold Sponge.lastChunk at hlast
    rw [hdiv] at hchunks hlast
    by_cases hi : i / 32 < b.length / 32
    · have hw := List.map_inj_left.1 hchunks (i / 32) (List.mem_range.2 hi)
      have hb := Bytes.window_eq_window_iff.1 hw (i % 32) (Nat.mod_lt _ (by decide))
      rwa [Nat.div_add_mod] at hb
    by_cases hj : i / 32 = b.length / 32
    · have hb := Bytes.window_eq_window_iff.1 hlast (i % 32) (Nat.mod_lt _ (by decide))
      rwa [← hj, Nat.div_add_mod] at hb
    · rw [Bytes.byteAt_of_length_le (by omega), Bytes.byteAt_of_length_le (by omega)]

/-! ## Folded hashes -/

namespace Scheme

/-- The blocks that the folded hash of a message compresses, in order: those that absorbing it
completes, the padded one, and the one that folds. -/
def foldedHashBlocks (S : Scheme) (d : Bytes) : List Block :=
  let last := (Sponge.fresh.absorb S.second d).padded
  Sponge.fresh.absorbed S.second d ++ [last, ⟨S.second last, S.mix last⟩]

/-- **The folded hash asks its primitives for these blocks, and for no other**; the mixing function
sees the padded one only. -/
theorem hashFolded_congr {S T : Scheme} {d : Bytes}
    (hsecond : ∀ x ∈ S.foldedHashBlocks d, S.second x = T.second x)
    (hmix : ∀ last, last = (Sponge.fresh.absorb S.second d).padded → S.mix last = T.mix last) :
    S.hashFolded d = T.hashFolded d ∧ S.foldedHashBlocks d = T.foldedHashBlocks d := by
  have hmem : ∀ x ∈ Sponge.fresh.absorbed S.second d, S.second x = T.second x := by
    intro x hx
    exact hsecond x (List.mem_append_left _ hx)
  obtain ⟨habsorb, habsorbed⟩ := Sponge.absorb_congr hmem
  unfold foldedHashBlocks at hsecond
  unfold hashFolded foldedHashBlocks Sponge.squeezeFolded
  rw [← habsorb, ← habsorbed]
  generalize (Sponge.fresh.absorb S.second d).padded = last at hsecond hmix ⊢
  have hlast : S.second last = T.second last := hsecond last (by simp)
  have hmixed : S.mix last = T.mix last := hmix last rfl
  have hfold := hsecond ⟨S.second last, S.mix last⟩ (by simp)
  dsimp only
  rw [← hlast, ← hmixed]
  exact ⟨hfold, rfl⟩

theorem foldedHashBlocks_eq (S : Scheme) (d : Bytes) :
    S.foldedHashBlocks d =
      Sponge.chainBlocks S.second Digest.zero (Sponge.chunks d) ++
        [Sponge.closing S.second d,
          ⟨S.second (Sponge.closing S.second d), S.mix (Sponge.closing S.second d)⟩] := by
  rw [foldedHashBlocks, Sponge.absorbed_fresh, Sponge.padded_fresh]

/-- Zeros behind the last full chunk are hashed anyway. -/
theorem hashFolded_of_sameChunks (S : Scheme) {a b : Bytes} (h : SameChunks a b) :
    S.hashFolded a = S.hashFolded b := by
  obtain ⟨hchunks, hlast⟩ := sameChunks_iff.1 h
  rw [hashFolded, hashFolded, Sponge.squeezeFolded_fresh, Sponge.squeezeFolded_fresh, Sponge.closing,
    Sponge.closing, hchunks, hlast]

/-- **Messages with one folded hash** have the same chunks, or collide, or come back to zero. -/
theorem hashFolded_binding (S : Scheme) (a b : Bytes) (h : S.hashFolded a = S.hashFolded b) :
    SameChunks a b ∨
      Sponge.Collide S.second (S.foldedHashBlocks a) (S.foldedHashBlocks b) ∨
      ∃ x ∈ Sponge.fresh.absorbed S.second a ++ Sponge.fresh.absorbed S.second b,
        S.second x = Digest.zero := by
  rw [hashFolded, hashFolded, Sponge.squeezeFolded_fresh, Sponge.squeezeFolded_fresh] at h
  rw [foldedHashBlocks_eq, foldedHashBlocks_eq, Sponge.absorbed_fresh, Sponge.absorbed_fresh]
  -- The two runs are followed back: the folding blocks, then the padded ones, then the chains.
  by_cases hfold :
      (⟨S.second (Sponge.closing S.second a), S.mix (Sponge.closing S.second a)⟩ : Block) =
        ⟨S.second (Sponge.closing S.second b), S.mix (Sponge.closing S.second b)⟩
  swap
  · refine Or.inr (Or.inl ⟨_, ?_, _, ?_, hfold, h⟩)
    · simp
    · simp
  by_cases hlast : Sponge.closing S.second a = Sponge.closing S.second b
  swap
  · refine Or.inr (Or.inl ⟨_, ?_, _, ?_, hlast, (Block.mk.inj hfold).1⟩)
    · simp
    · simp
  obtain ⟨hchain, hrest⟩ := Block.mk.inj hlast
  rcases Sponge.chain_binding S.second _ _ hchain with hchunks | hcollide | hzero
  · exact Or.inl (sameChunks_iff.2 ⟨hchunks, hrest⟩)
  · exact Or.inr (Or.inl
      (hcollide.mono (List.subset_append_left _ _) (List.subset_append_left _ _)))
  · exact Or.inr (Or.inr hzero)

end Scheme

/-! ## Verified headers -/

/-- Zeros behind a verified header do not matter to its inspection. -/
theorem examine_of_sameChunks {recordDigest : Record → Digest} {a b : Bytes} {n : UInt8}
    {chain : ChainId} (h : examine recordDigest a = .ok (.verified n chain))
    (hlen : a.length ≤ b.length) (hab : SameChunks a b) :
    examine recordDigest b = .ok (.verified n chain) := by
  obtain ⟨hzeros, -⟩ := hab.zeros hlen
  rw [hzeros]
  exact examine_append _ h

/-- Canonical forms with the same chunks come from headers that embed one digest. -/
theorem digest_eq_of_sameChunks {recordDigest : Record → Digest} {a b : Bytes}
    (ha : Bound recordDigest a) (hb : Bound recordDigest b)
    (h : SameChunks a.canonical b.canonical) : recordDigest a.record = recordDigest b.record := by
  have hplace : ∀ i, 235 ≤ i → i < 235 + 32 → ¬ ChainSpecific i := by
    intro i h1 _
    exact not_chainSpecific_of_le (by omega)
  calc recordDigest a.record
      = a.window 32 235 := ha.embedded.symm
    _ = a.canonical.window 32 235 := (Bytes.window_canonical hplace).symm
    _ = b.canonical.window 32 235 := Bytes.window_congr fun i _ _ => h.2 i
    _ = b.window 32 235 := Bytes.window_canonical hplace
    _ = recordDigest b.record := hb.embedded

namespace Scheme

theorem score_of_verified {S : Scheme} {b : Bytes} {n : UInt8} {chain : ChainId}
    (h : examine S.recordDigest b = .ok (.verified n chain)) :
    (S.score b).answer = .ok (.hashed (S.hashFolded b.canonical) (.verified n chain)) ∧
      (S.score b).buffer = b.canonical := by
  rw [score_of_ok h]
  exact ⟨rfl, rfl⟩

theorem verified_of_score {S : Scheme} {b : Bytes} {n : UInt8} {chain : ChainId} {d : Digest}
    (h : (S.score b).answer = .ok (.hashed d (.verified n chain))) :
    examine S.recordDigest b = .ok (.verified n chain) ∧ d = S.hashFolded b.canonical := by
  obtain ⟨hx, -, hd⟩ := examine_of_hashed h
  exact ⟨hx, hd⟩

/-- **A work hash binds the header that it is the hash of.** Scoring leaves, and hashes, the canonical
forms of two verified headers. Where both have one work hash, the headers differ at most in zeros
behind the last full chunk, or two blocks of the two runs collide, or one that is absorbed is
compressed to zero, or the two records collide. Conversely, such zeros change neither the finding nor
the work hash of a verified header. -/
theorem score_binding (S : Scheme) (a b : Bytes) (hlen : a.length ≤ b.length) :
    (∀ d n n' chain chain', (S.score a).answer = .ok (.hashed d (.verified n chain)) →
      (S.score b).answer = .ok (.hashed d (.verified n' chain')) →
        (S.score a).buffer = a.canonical ∧ (S.score b).buffer = b.canonical ∧
        ((b = a ++ List.replicate (b.length - a.length) 0 ∧ a.length / 32 = b.length / 32) ∨
        (∃ x ∈ S.foldedHashBlocks a.canonical, ∃ y ∈ S.foldedHashBlocks b.canonical,
          x ≠ y ∧ S.second x = S.second y) ∨
        (∃ x ∈ Sponge.fresh.absorbed S.second a.canonical ++
            Sponge.fresh.absorbed S.second b.canonical, S.second x = Digest.zero) ∨
        ∃ r r', Record.ofBuffer a = .ok r ∧ Record.ofBuffer b = .ok r' ∧ r ≠ r' ∧
          S.recordDigest r = S.recordDigest r')) ∧
    (∀ n chain, examine S.recordDigest a = .ok (.verified n chain) →
      b = a ++ List.replicate (b.length - a.length) 0 → a.length / 32 = b.length / 32 →
        examine S.recordDigest b = .ok (.verified n chain) ∧
          ∃ d, (S.score a).answer = .ok (.hashed d (.verified n chain)) ∧
            (S.score b).answer = .ok (.hashed d (.verified n chain))) := by
  constructor
  · intro d n n' chain chain' ha hb
    obtain ⟨hxa, hda⟩ := verified_of_score ha
    obtain ⟨hxb, hdb⟩ := verified_of_score hb
    refine ⟨(score_of_verified hxa).2, (score_of_verified hxb).2, ?_⟩
    rcases S.hashFolded_binding _ _ (hda.symm.trans hdb) with hsame | hcollide | hzero
    · obtain ⟨bound, -⟩ := examine_eq_verified_iff.1 hxa
      obtain ⟨bound', -⟩ := examine_eq_verified_iff.1 hxb
      by_cases hrecord : a.record = b.record
      · exact Or.inl ((hsame.of_canonical hrecord).zeros hlen)
      · have ra := Record.ofBuffer_of_le (Nat.le_trans (by decide) bound.length)
        have rb := Record.ofBuffer_of_le (Nat.le_trans (by decide) bound'.length)
        exact Or.inr (Or.inr (Or.inr
          ⟨_, _, ra, rb, hrecord, digest_eq_of_sameChunks bound bound' hsame⟩))
    · exact Or.inr (Or.inl hcollide)
    · exact Or.inr (Or.inr (Or.inl hzero))
  · intro n chain ha hzeros hdiv
    have hsame := sameChunks_of_zeros hzeros hdiv
    have hb := examine_of_sameChunks ha hlen hsame
    refine ⟨hb, _, (score_of_verified ha).1, ?_⟩
    rw [S.hashFolded_of_sameChunks hsame.canonical]
    exact (score_of_verified hb).1

/-- The header is verified, and five zeros behind it keep its work hash. -/
theorem score_binding_boundHeader :
    boundHeader.length ≤ (boundHeader ++ List.replicate 5 0).length ∧
      ∃ d, (leadingScheme.score boundHeader).answer =
          .ok (.hashed d (.verified 1 (Vector.replicate 20 0))) ∧
        (leadingScheme.score (boundHeader ++ List.replicate 5 0)).answer =
          .ok (.hashed d (.verified 1 (Vector.replicate 20 0))) := by
  have hlen : boundHeader.length ≤ (boundHeader ++ List.replicate 5 0).length := by
    rw [List.length_append]
    exact Nat.le_add_right _ _
  have hverified : examine leadingScheme.recordDigest boundHeader =
      .ok (.verified 1 (Vector.replicate 20 0)) := by decide +kernel
  have binding := score_binding leadingScheme boundHeader (boundHeader ++ List.replicate 5 0) hlen
  obtain ⟨-, hscores⟩ := binding.2 1 _ hverified (by decide +kernel) (by decide +kernel)
  exact ⟨hlen, hscores⟩

end Scheme

end HeaderWork
