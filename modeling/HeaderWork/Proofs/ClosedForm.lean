import HeaderWork.Proofs.Padding

/-!
# Hashes in closed form

A hash, however its input was copied into blocks on the way, is a function of the full chunks of the
message and of what they leave of it.

* `Sponge.rest`, `toList_lastChunk` — what the full chunks leave, and the chunk that is made of it.
* `Sponge.chainValue` — the chaining half after the first chunks of a message, as a recurrence;
  `chainFrom_chunks` — it is what absorbing chains.
* `closing_eq` — the block that ends a message, by that value.
* `squeeze_eq` — the message that its full chunks exhaust is not compressed once more.
* `input_absorb_of_full` — what is left in place of the last full chunk, and does not reach the hash.
* `hashes_closed_form` — the hashes of both families, and the folded one.
-/

namespace HeaderWork

namespace Sponge

/-! ## The rest of a message -/

/-- What the full chunks leave of a message. -/
def rest (d : Bytes) : Bytes := d.drop (32 * (d.length / 32))

theorem length_rest (d : Bytes) : (rest d).length = d.length % 32 := by
  rw [rest, List.length_drop]
  omega

theorem rest_eq_nil_iff {d : Bytes} : rest d = [] ↔ d.length % 32 = 0 := by
  rw [← List.length_eq_zero_iff, length_rest]

/-- **The last chunk is the rest**, with zeros behind. -/
theorem toList_lastChunk (d : Bytes) :
    (lastChunk d).toList = rest d ++ List.replicate (32 - (rest d).length) 0 := by
  have hsplit : d.take (32 * (d.length / 32)) ++ rest d = d := List.take_append_drop _ d
  have hkey : d.take (32 * (d.length / 32)) ++ (lastChunk d).toList =
      d.take (32 * (d.length / 32)) ++ (rest d ++ List.replicate (32 - (rest d).length) 0) := by
    rw [← List.append_assoc, hsplit, length_rest, ← flatMap_chunks]
    exact flatMap_key d
  exact List.append_cancel_left hkey

theorem lastChunk_of_rest_eq_nil {d : Bytes} (h : rest d = []) : lastChunk d = Octets.zero 32 := by
  rw [← Vector.toList_inj, toList_lastChunk, h]
  rfl

/-! ## Chaining values -/

/-- The chaining half after the first `i` chunks of a message. -/
def chainValue (compress : Compression) (d : Bytes) : Nat → Digest
  | 0 => Digest.zero
  | i + 1 => compress ⟨chainValue compress d i, d.window 32 (32 * i)⟩

theorem chainFrom_windows (compress : Compression) (d : Bytes) (n : Nat) :
    chainFrom compress Digest.zero ((List.range n).map fun i => d.window 32 (32 * i)) =
      chainValue compress d n := by
  induction n with
  | zero => rfl
  | succ n ih =>
      rw [List.range_succ, List.map_append, List.map_singleton, (chain_concat ..).1, ih]
      rfl

theorem chainFrom_chunks (compress : Compression) (d : Bytes) :
    chainFrom compress Digest.zero (chunks d) = chainValue compress d (d.length / 32) :=
  chainFrom_windows compress d (d.length / 32)

/-! ## Closing -/

theorem closing_eq (compress : Compression) (d : Bytes) :
    closing compress d = ⟨chainValue compress d (d.length / 32), lastChunk d⟩ := by
  rw [closing, chainFrom_chunks]

/-- **A message that its full chunks exhaust is not compressed once more.** -/
theorem squeeze_eq (compress : Compression) (d : Bytes) :
    (fresh.absorb compress d).squeeze compress =
      if rest d = [] then chainValue compress d (d.length / 32)
      else compress (closing compress d) := by
  by_cases h : rest d = []
  · rw [if_pos h, squeeze_fresh, pad_of_full (rest_eq_nil_iff.1 h), chainFrom_chunks]
  · have hmod : d.length % 32 ≠ 0 := fun hz => h (rest_eq_nil_iff.2 hz)
    rw [if_neg h, squeeze_fresh, chunks_pad hmod, (chain_concat ..).1]
    rfl

/-- **The last full chunk stays in the input half** when nothing comes behind it. -/
theorem input_absorb_of_full {d : Bytes} (compress : Compression) (hne : d ≠ [])
    (h : rest d = []) :
    (fresh.absorb compress d).block.input = d.window 32 (32 * (d.length / 32 - 1)) := by
  have hpos : 0 < d.length := List.length_pos_iff.2 hne
  have hmod := rest_eq_nil_iff.1 h
  rw [absorb_fresh]
  apply Vector.ext
  intro j hj
  have hindex : j + 32 * ((d.length - 1 - j) / 32) = 32 * (d.length / 32 - 1) + j := by omega
  rw [getElem_holding, Bytes.getElem_window, hindex]

end Sponge

/-! ## Hashes -/

namespace Scheme

/-- **The hashes in closed form.** The chaining value of a message compresses its full chunks one
after the other, from zero on. Either family ends with that value when nothing is left of the message,
and else with one more compression, of the value and the rest with zeros behind. The folded hash
compresses and mixes that block in any case; when nothing is left, its second half holds zeros, where
the state still holds the last full chunk. -/
theorem hashes_closed_form (S : Scheme) (d : Bytes) :
    let q := d.length / 32
    let t := d.drop (32 * q)
    let B := fun compress => Block.mk (Sponge.chainValue compress d q) (Sponge.lastChunk d)
    let s := Sponge.fresh.absorb S.second d
    (∀ i < q, (d.window 32 (32 * i)).toList = (d.drop (32 * i)).take 32) ∧
    t.length < 32 ∧ (Sponge.lastChunk d).toList = t ++ List.replicate (32 - t.length) 0 ∧
    S.hashFirst d = (if t = [] then Sponge.chainValue S.first d q else S.first (B S.first)) ∧
    S.hashSecond d = (if t = [] then Sponge.chainValue S.second d q else S.second (B S.second)) ∧
    (S.first = S.second → S.hashFirst d = S.hashSecond d) ∧
    S.hashFirst [] = Digest.zero ∧ S.hashSecond [] = Digest.zero ∧
    S.hashFolded d = S.second ⟨S.second (B S.second), S.mix (B S.second)⟩ ∧
    s.padded = B S.second ∧
    (t = [] → s.padded.input = Octets.zero 32 ∧
      (d ≠ [] → s.block.input = d.window 32 (32 * (q - 1)))) := by
  intro q t B s
  have hB : ∀ compress, Sponge.closing compress d = B compress := fun compress =>
    Sponge.closing_eq compress d
  have hpadded : s.padded = B S.second := hB S.second ▸ Sponge.padded_fresh S.second d
  refine ⟨?_, ?_, Sponge.toList_lastChunk d, hB S.first ▸ Sponge.squeeze_eq S.first d,
    hB S.second ▸ Sponge.squeeze_eq S.second d, ?_, Sponge.squeeze_eq S.first [],
    Sponge.squeeze_eq S.second [], hB S.second ▸ Sponge.squeezeFolded_fresh S.second S.mix d,
    hpadded, ?_⟩
  · intro i hi
    have hfits : 32 * i + 32 ≤ d.length := by omega
    exact Bytes.toList_window hfits
  · have hlen : t.length = d.length % 32 := Sponge.length_rest d
    omega
  · intro hshared
    rw [hashFirst, hashSecond, hshared]
  · intro ht
    rw [hpadded]
    refine ⟨Sponge.lastChunk_of_rest_eq_nil ht, ?_⟩
    intro hne
    exact Sponge.input_absorb_of_full S.second hne ht

end Scheme

end HeaderWork
