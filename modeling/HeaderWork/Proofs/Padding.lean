import HeaderWork.Proofs.Binding

/-!
# What the digest of a message binds

Messages with one digest agree up to zeros at the end, or the compression has been made to collide,
or to come back to zero, on blocks that the two runs themselves have come by. Which zeros are lost
depends on how the sponge is closed.

* `flatMap_chunks` — the full chunks of a message, laid end to end.
* `Sponge.pad` — a message with zeros behind, up to the end of a chunk; `chunks_pad` — its chunks.
* `Sponge.squeezedBlocks` — the blocks that hashing a message compresses, in order; `squeeze_congr` —
  it asks its compression for nothing else.
* `squeeze_fresh`, `squeezedBlocks_eq` — squeezing chains the chunks of the padded message.
* `squeeze_binding` — messages with one squeezed digest.
* `Sponge.key` — the full chunks of a message and what is left of it; `flatMap_key` — nothing of the
  message is lost but where its last zeros end.
* `hashFolded_binds_key` — messages with one folded hash.
-/

namespace HeaderWork

namespace Sponge

/-! ## Chunks laid end to end -/

theorem flatMap_windows {d : Bytes} {n : Nat} (h : 32 * n ≤ d.length) :
    ((List.range n).map fun i => d.window 32 (32 * i)).flatMap Vector.toList = d.take (32 * n) := by
  induction n with
  | zero => rfl
  | succ n ih =>
      have hwindow : 32 * n + 32 ≤ d.length := by omega
      rw [List.range_succ, List.map_append, List.flatMap_append, ih (by omega), Nat.mul_succ,
        List.take_add, List.map_singleton, List.flatMap_singleton, Bytes.toList_window hwindow]
      rfl

/-- **The full chunks of a message**, laid end to end, are the message without its rest. -/
theorem flatMap_chunks (d : Bytes) :
    (chunks d).flatMap Vector.toList = d.take (32 * (d.length / 32)) :=
  flatMap_windows (Nat.mul_div_le _ _)

theorem window_append_zeros (d : Bytes) (k n start : Nat) :
    Bytes.window n (d ++ List.replicate k 0) start = d.window n start :=
  Bytes.window_congr fun i _ _ => Bytes.byteAt_append_zeros d k i

/-- Zeros that fill up the rest of a message make a chunk of it. -/
theorem chunks_append_zeros {d : Bytes} {k : Nat} (h : d.length % 32 + k = 32) :
    chunks (d ++ List.replicate k 0) = chunks d ++ [lastChunk d] := by
  have hdiv : (d.length + k) / 32 = d.length / 32 + 1 := by omega
  simp only [chunks, lastChunk, window_append_zeros]
  rw [List.length_append, List.length_replicate, hdiv, List.range_succ, List.map_append,
    List.map_singleton]

/-! ## Padding -/

/-- The message with zeros behind, up to the end of a chunk; a message that ends there already is
left as it is. -/
def pad (d : Bytes) : Bytes := d ++ List.replicate ((32 - d.length % 32) % 32) 0

theorem pad_of_full {d : Bytes} (h : d.length % 32 = 0) : pad d = d := by
  rw [pad, h]
  exact List.append_nil d

theorem length_pad_mod (d : Bytes) : (pad d).length % 32 = 0 := by
  rw [pad, List.length_append, List.length_replicate]
  omega

theorem chunks_pad {d : Bytes} (h : d.length % 32 ≠ 0) :
    chunks (pad d) = chunks d ++ [lastChunk d] := by
  have hmod : d.length % 32 + (32 - d.length % 32) % 32 = 32 := by omega
  rw [pad, chunks_append_zeros hmod]

/-- A padded message is its chunks. -/
theorem flatMap_chunks_pad (d : Bytes) : (chunks (pad d)).flatMap Vector.toList = pad d := by
  have hmod := length_pad_mod d
  rw [flatMap_chunks]
  exact List.take_of_length_le (by omega)

theorem pad_eq_pad_iff {a b : Bytes} : pad a = pad b ↔ chunks (pad a) = chunks (pad b) := by
  constructor
  · intro h
    rw [h]
  · intro h
    rw [← flatMap_chunks_pad a, h, flatMap_chunks_pad]

/-! ## Squeezing a message -/

/-- The blocks that hashing a message compresses, in order: those that absorbing it completes and,
where bytes are pending at the end, the padded one. -/
def squeezedBlocks (compress : Compression) (d : Bytes) : List Block :=
  let s := fresh.absorb compress d
  fresh.absorbed compress d ++ if s.filled.val = 0 then [] else [s.padded]

/-- **Hashing asks its compression for these blocks, and for no other.** -/
theorem squeeze_congr {c c' : Compression} {d : Bytes}
    (h : ∀ x ∈ squeezedBlocks c d, c x = c' x) :
    (fresh.absorb c d).squeeze c = (fresh.absorb c' d).squeeze c' ∧
      squeezedBlocks c d = squeezedBlocks c' d := by
  obtain ⟨habsorb, habsorbed⟩ := absorb_congr fun x hx => h x (List.mem_append_left _ hx)
  unfold squeezedBlocks at h
  unfold squeezedBlocks squeeze
  rw [← habsorb, ← habsorbed]
  generalize fresh.absorb c d = s at h ⊢
  refine ⟨?_, rfl⟩
  by_cases hfilled : s.filled = 0
  · rw [if_pos hfilled, if_pos hfilled]
  · rw [if_neg hfilled, if_neg hfilled]
    apply h
    simp [Fin.val_eq_zero_iff, hfilled]

theorem filled_holding_eq_zero_iff {compress : Compression} {d : Bytes} :
    (holding compress d).filled = 0 ↔ d.length % 32 = 0 :=
  Fin.ext_iff

/-- **Squeezing chains the chunks of the padded message.** -/
theorem squeeze_fresh (compress : Compression) (d : Bytes) :
    (fresh.absorb compress d).squeeze compress =
      chainFrom compress Digest.zero (chunks (pad d)) := by
  rw [absorb_fresh, squeeze]
  by_cases h : d.length % 32 = 0
  · rw [if_pos (filled_holding_eq_zero_iff.2 h), pad_of_full h]
    rfl
  · rw [if_neg fun hz => h (filled_holding_eq_zero_iff.1 hz), padded_holding, closing,
      chunks_pad h, (chain_concat ..).1]

theorem squeezedBlocks_eq (compress : Compression) (d : Bytes) :
    squeezedBlocks compress d = chainBlocks compress Digest.zero (chunks (pad d)) := by
  have hfilled : (holding compress d).filled.val = d.length % 32 := rfl
  rw [squeezedBlocks, absorbed_fresh, absorb_fresh, hfilled]
  by_cases h : d.length % 32 = 0
  · rw [if_pos h, pad_of_full h, List.append_nil]
  · rw [if_neg h, padded_holding, closing, chunks_pad h, (chain_concat ..).2]

/-- **What a squeezed digest binds.** Padding decides the digest. Two messages with one digest have
the same padding, or a block of one run and a block of the other collide, or a block of either is
compressed to zero, which is where every chain begins. -/
theorem squeeze_binding (compress : Compression) (a b : Bytes) :
    (pad a = pad b →
      (fresh.absorb compress a).squeeze compress = (fresh.absorb compress b).squeeze compress) ∧
    ((fresh.absorb compress a).squeeze compress = (fresh.absorb compress b).squeeze compress →
      pad a = pad b ∨
      (∃ x ∈ squeezedBlocks compress a, ∃ y ∈ squeezedBlocks compress b,
        x ≠ y ∧ compress x = compress y) ∨
      ∃ x ∈ squeezedBlocks compress a ++ squeezedBlocks compress b,
        compress x = Digest.zero) := by
  rw [squeeze_fresh, squeeze_fresh, squeezedBlocks_eq, squeezedBlocks_eq, pad_eq_pad_iff]
  constructor
  · intro h
    rw [h]
  · intro h
    exact chain_binding compress _ _ h

/-! ## Keys -/

/-- The full chunks of a message, and what they leave of it with zeros behind. -/
def key (d : Bytes) : List (Octets 32) × Octets 32 := (chunks d, lastChunk d)

/-- **A key, laid end to end, is the message with zeros behind**, at least one of them. -/
theorem flatMap_key (d : Bytes) :
    (key d).1.flatMap Vector.toList ++ (key d).2.toList =
      d ++ List.replicate (32 - d.length % 32) 0 := by
  have hmod : d.length % 32 + (32 - d.length % 32) = 32 := by omega
  have hchunks := flatMap_chunks (d ++ List.replicate (32 - d.length % 32) 0)
  rw [chunks_append_zeros hmod, List.flatMap_append, List.flatMap_singleton] at hchunks
  refine hchunks.trans (List.take_of_length_le ?_)
  rw [List.length_append, List.length_replicate]
  omega

/-- A zero that completes a chunk is padding, but it is not lost from the key. -/
example : pad (List.replicate 31 1 ++ [0]) = pad (List.replicate 31 1) ∧
    key (List.replicate 31 1 ++ [0]) ≠ key (List.replicate 31 1) := by decide +kernel

theorem eq_of_key_eq {a b : Bytes} (hlen : a.length = b.length) (h : key a = key b) : a = b := by
  have hbytes := flatMap_key a
  rw [h, flatMap_key, hlen] at hbytes
  exact (List.append_inj_left hbytes hlen.symm).symm

theorem sameChunks_iff_key_eq {a b : Bytes} : SameChunks a b ↔ key a = key b := by
  rw [sameChunks_iff, key, key, Prod.mk.injEq]

end Sponge

/-! ## Folded hashes -/

namespace Scheme

/-- **What a folded hash binds**, whatever the mixing function. The key decides the hash. Two
messages with one hash have one key, or a block of one run and a block of the other collide, or an
absorbed one of either is compressed to zero. So messages of one length with one hash are equal,
unless there are such blocks. -/
theorem hashFolded_binds_key (S : Scheme) (a b : Bytes) :
    (Sponge.key a = Sponge.key b → S.hashFolded a = S.hashFolded b) ∧
    (S.hashFolded a = S.hashFolded b →
      Sponge.key a = Sponge.key b ∨
      (∃ x ∈ S.foldedHashBlocks a, ∃ y ∈ S.foldedHashBlocks b, x ≠ y ∧ S.second x = S.second y) ∨
      ∃ x ∈ Sponge.fresh.absorbed S.second a ++ Sponge.fresh.absorbed S.second b,
        S.second x = Digest.zero) ∧
    (a.length = b.length → S.hashFolded a = S.hashFolded b →
      (∀ x ∈ S.foldedHashBlocks a, ∀ y ∈ S.foldedHashBlocks b,
        S.second x = S.second y → x = y) →
      (∀ x ∈ Sponge.fresh.absorbed S.second a ++ Sponge.fresh.absorbed S.second b,
        S.second x ≠ Digest.zero) →
      a = b) := by
  have binding := S.hashFolded_binding a b
  rw [← Sponge.sameChunks_iff_key_eq]
  refine ⟨S.hashFolded_of_sameChunks, binding, ?_⟩
  intro hlen hhash hcollide hzero
  rcases binding hhash with hsame | ⟨x, hx, y, hy, hne, heq⟩ | ⟨x, hx, heq⟩
  · exact Sponge.eq_of_key_eq hlen (Sponge.sameChunks_iff_key_eq.1 hsame)
  · exact absurd (hcollide x hx y hy heq) hne
  · exact absurd heq (hzero x hx)

end Scheme

end HeaderWork
