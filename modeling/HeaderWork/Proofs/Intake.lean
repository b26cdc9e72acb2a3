import HeaderWork.Proofs.Streaming

/-!
# What absorbing leaves behind

* `Intake.pass_of`, `Intake.run_of` — a pass of the loop is one copy of the sponge, and all of them
  are its absorbing; no slice on the way is out of bounds.
* `Intake.passes`, `Intake.run_of_lt` — how many passes there are.
* `Sponge.filled_absorb` — the number of pending bytes afterwards.
* `Sponge.absorbedEach` — the blocks that a stream of pieces compresses; `absorbedEach_eq` — they do
  not depend on the cuts.
* `Sponge.getElem_holding_of_last`, `Sponge.getElem_holding_of_none` — each byte of the input half is
  the last one that was copied to its place.
* `absorbing_is_exact` — the state after absorbing, pending bytes and stale ones.
-/

namespace HeaderWork

/-! ## Blocks as bytes -/

theorem Bytes.overlay_append_right (a b data : Bytes) (start : Nat) :
    overlay (a ++ b) (a.length + start) data = a ++ overlay b start data := by
  have hroom : (a ++ b).length - (a.length + start) = b.length - start := by
    rw [List.length_append, Nat.add_sub_add_left]
  rw [overlay, overlay, hroom, Nat.add_assoc, List.take_length_add_append,
    List.drop_length_add_append, List.append_assoc]

namespace Block

theorem toList_octets (b : Block) : b.octets.toList = b.chaining.toList ++ b.input.toList := rfl

theorem ofOctets_octets (b : Block) : ofOctets b.octets = b := by
  obtain ⟨c, v⟩ := b
  have hc : c.toList.length = 32 := Vector.length_toList
  rw [ofOctets, mk.injEq, ← Vector.toList_inj, ← Vector.toList_inj]
  simp only [Octets.toList_ofBytes, toList_octets]
  exact ⟨List.take_left' hc, List.drop_left' hc⟩

theorem octets_ofOctets (v : Octets 64) : (ofOctets v).octets = v := by
  rw [← Vector.toList_inj, toList_octets]
  exact List.take_append_drop 32 v.toList

/-- A copy into the input half leaves the chaining half alone. -/
theorem copy?_input (b : Block) (start : Nat) (data : Bytes) (room : start + data.length ≤ 32) :
    b.octets.copy? (32 + start) (32 + start + data.length) data =
      some (octets ⟨b.chaining, b.input.write start data room⟩) := by
  have hlen : b.chaining.toList.length = 32 := Vector.length_toList
  rw [Octets.copy?, dif_pos (by omega), Option.some.injEq, ← Vector.toList_inj, Octets.toList_write,
    toList_octets, toList_octets, Octets.toList_write]
  have h := Bytes.overlay_append_right b.chaining.toList b.input.toList data start
  rwa [hlen] at h

theorem copy?_chaining (b : Block) (d : Digest) :
    b.octets.copy? 0 32 d.toList = some (octets ⟨d, b.input⟩) := by
  have hd : d.toList.length = 32 := Vector.length_toList
  rw [Octets.copy?, dif_pos (by omega), Option.some.injEq, ← Vector.toList_inj, Octets.toList_write,
    toList_octets, toList_octets]
  have hc : b.chaining.toList.length = d.toList.length := by simp
  have hroom : d.toList.length ≤ (b.chaining.toList ++ b.input.toList).length - 0 := by simp
  rw [Bytes.overlay, List.take_zero, List.nil_append, List.take_of_length_le hroom, Nat.zero_add,
    List.drop_left' hc]

end Block

/-! ## Passes -/

namespace Intake

/-- The intake of `data` by a sponge. -/
def of (s : Sponge) (data : Bytes) (compressed : List Block) : Intake :=
  ⟨s.block.octets, s.filled.val, data, compressed⟩

theorem between?_front (s : Sponge) (data : Bytes) :
    data.between? 0 (s.piece data).length = some (s.piece data) := by
  have hlen := s.length_piece data
  have hpiece : s.piece data = data.take (s.piece data).length := by
    rw [hlen, ← List.take_eq_take_min]
    rfl
  rw [Bytes.between?, if_pos (by omega), Bytes.slice, List.drop_zero, Nat.sub_zero, ← hpiece]

theorem between?_rest (s : Sponge) (data : Bytes) :
    data.between? (s.piece data).length data.length = some (data.drop s.room) := by
  have hlen := s.length_piece data
  have hdrop : data.drop s.room = data.drop (s.piece data).length := by
    rw [hlen]
    rcases Nat.le_total s.room data.length with hle | hle
    · rw [Nat.min_eq_left hle]
    · rw [Nat.min_eq_right hle, List.drop_length, List.drop_of_length_le hle]
  rw [Bytes.between?, if_pos (by omega), Bytes.slice, hdrop, ← List.length_drop, List.take_length]

/-- **A pass is one copy of the sponge**, and none of its slices is out of bounds. -/
theorem pass_of (compress : Compression) (s : Sponge) (data : Bytes) (compressed : List Block) :
    (of s data compressed).pass compress =
      some (of (s.fill compress data) (data.drop s.room) (compressed ++ s.completed data)) := by
  have hfilled : s.filled.val ≤ 32 := Nat.le_of_lt s.filled.isLt
  have htaken : min (32 - s.filled.val) data.length = (s.piece data).length :=
    (s.length_piece data).symm
  have hroom := s.filled_add_length_piece_le data
  have hcopy : s.block.octets.copy? (32 + s.filled.val)
      (32 + s.filled.val + (s.piece data).length) (s.piece data) = some (s.copied data).octets :=
    s.block.copy?_input s.filled.val (s.piece data) hroom
  simp only [pass, of, if_pos hfilled, Option.bind_eq_bind, Option.bind_some, htaken,
    between?_front, between?_rest, hcopy, Block.ofOctets_octets, Block.copy?_chaining]
  by_cases h : s.filled.val + (s.piece data).length < 32
  · rw [Sponge.fill_of_lt compress rfl h, Sponge.completed, if_pos h, if_neg (Nat.ne_of_lt h),
      List.append_nil]
    rfl
  · have hfull : s.filled.val + (s.piece data).length = 32 := by omega
    rw [Sponge.fill_of_not_lt compress rfl h, Sponge.completed, if_neg h, if_pos hfull]
    rfl

/-- The number of passes over `left` bytes, of which the first goes to `place`. -/
def passes (place left : Nat) : Nat := if left = 0 then 0 else (place + left + 31) / 32

theorem passes_fill (compress : Compression) (s : Sponge) {data : Bytes} (h : data ≠ []) :
    passes s.filled.val data.length =
      passes (s.fill compress data).filled.val (data.drop s.room).length + 1 := by
  have hpos : 0 < data.length := List.length_pos_iff.2 h
  have hroom := s.filled_add_room
  have hlen := s.length_piece data
  rw [passes, passes, if_neg (by omega), List.length_drop]
  by_cases hlt : s.filled.val + (s.piece data).length < 32
  · rw [if_pos (by omega)]
    omega
  · rw [Sponge.fill_of_not_lt compress rfl hlt]
    show _ = (if data.length - s.room = 0 then 0 else (0 + (data.length - s.room) + 31) / 32) + 1
    split <;> omega

theorem run_succ (compress : Compression) (s : Sponge) {data : Bytes} (h : data ≠ [])
    (compressed : List Block) (n : Nat) :
    (of s data compressed).run compress (n + 1) =
      (of (s.fill compress data) (data.drop s.room) (compressed ++ s.completed data)).run
        compress n := by
  have hleft : (of s data compressed).data ≠ [] := h
  rw [run, if_neg hleft, pass_of, Option.bind_some]

/-- **The loop ends with what absorbing leads to**, once it is allowed that many passes. -/
theorem run_of (compress : Compression) {s : Sponge} {data : Bytes} {compressed : List Block}
    {n : Nat} (h : passes s.filled.val data.length ≤ n) :
    (of s data compressed).run compress n =
      some (of (s.absorb compress data) [] (compressed ++ s.absorbed compress data)) := by
  induction n generalizing s data compressed with
  | zero =>
      have hnil : data = [] := by
        refine Classical.byContradiction fun hdata => ?_
        rw [passes_fill compress s hdata] at h
        exact Nat.not_succ_le_zero _ h
      rw [hnil, Sponge.absorb_nil, Sponge.absorbed_nil, List.append_nil]
      rfl
  | succ n ih =>
      by_cases hdata : data = []
      · rw [hdata, Sponge.absorb_nil, Sponge.absorbed_nil, List.append_nil]
        rfl
      · rw [passes_fill compress s hdata] at h
        rw [run_succ compress s hdata, ih (Nat.le_of_succ_le_succ h),
          Sponge.absorb_of_ne_nil compress s hdata, Sponge.absorbed_of_ne_nil compress s hdata,
          List.append_assoc]

/-- Before that, there is something left to take in. -/
theorem run_of_lt (compress : Compression) {s : Sponge} {data : Bytes} {compressed : List Block}
    {n : Nat} (h : n < passes s.filled.val data.length) :
    ∃ i, (of s data compressed).run compress n = some i ∧ i.data ≠ [] := by
  induction n generalizing s data compressed with
  | zero =>
      refine ⟨_, rfl, ?_⟩
      rintro (rfl : data = [])
      exact Nat.lt_irrefl 0 h
  | succ n ih =>
      have hdata : data ≠ [] := by
        rintro rfl
        exact Nat.not_lt_zero _ h
      rw [passes_fill compress s hdata] at h
      rw [run_succ compress s hdata]
      exact ih (Nat.lt_of_succ_lt_succ h)

end Intake

namespace Sponge

/-! ## Pending bytes -/

theorem filled_fill_singleton (compress : Compression) (s : Sponge) (x : UInt8) :
    (s.fill compress [x]).filled.val = (s.filled.val + 1) % 32 := by
  have hpiece := s.piece_singleton x
  have hlt := s.filled.isLt
  by_cases h : s.filled.val + 1 < 32
  · rw [fill_of_lt compress hpiece h, Nat.mod_eq_of_lt h]
    rfl
  · have hfull : s.filled.val + 1 = 32 := by omega
    rw [fill_of_not_lt compress hpiece h, hfull]
    rfl

/-- **Pending bytes are counted by 32.** -/
theorem filled_absorb (compress : Compression) (s : Sponge) (data : Bytes) :
    (s.absorb compress data).filled.val = (s.filled.val + data.length) % 32 := by
  induction data generalizing s with
  | nil => rw [absorb_nil, List.length_nil, Nat.add_zero, Nat.mod_eq_of_lt s.filled.isLt]
  | cons x rest ih =>
      rw [(absorb_cons ..).1, ih, filled_fill_singleton, Nat.mod_add_mod, List.length_cons,
        Nat.add_right_comm, Nat.add_assoc]

/-! ## Streams -/

theorem absorbed_append (compress : Compression) (s : Sponge) (a d : Bytes) :
    s.absorbed compress (a ++ d) =
      s.absorbed compress a ++ (s.absorb compress a).absorbed compress d := by
  induction a generalizing s with
  | nil => rw [List.nil_append, absorbed_nil, absorb_nil, List.nil_append]
  | cons x rest ih =>
      rw [List.cons_append, (absorb_cons ..).2, (absorb_cons ..).2, (absorb_cons ..).1, ih,
        List.append_assoc]

/-- The blocks that a stream of pieces compresses, in order. -/
def absorbedEach (compress : Compression) (s : Sponge) : List Bytes → List Block
  | [] => []
  | part :: rest => s.absorbed compress part ++ absorbedEach compress (s.absorb compress part) rest

/-- **The blocks do not depend on the cuts between the pieces.** -/
theorem absorbedEach_eq (compress : Compression) (s : Sponge) (parts : List Bytes) :
    s.absorbedEach compress parts = s.absorbed compress parts.flatten := by
  induction parts generalizing s with
  | nil => rw [absorbedEach, List.flatten_nil, absorbed_nil]
  | cons part rest ih => rw [absorbedEach, ih, List.flatten_cons, absorbed_append]

theorem map_input_chainBlocks (compress : Compression) (cv : Digest) (cs : List (Octets 32)) :
    (chainBlocks compress cv cs).map Block.input = cs := by
  induction cs generalizing cv with
  | nil => rfl
  | cons c rest ih => rw [chainBlocks, List.map_cons, ih]

theorem map_toList_chunks (d : Bytes) :
    (chunks d).map Vector.toList =
      (List.range (d.length / 32)).map fun i => (d.drop (32 * i)).take 32 := by
  rw [chunks, List.map_map]
  refine List.map_congr_left fun i hi => ?_
  have hi := List.mem_range.1 hi
  have hfits : 32 * i + 32 ≤ d.length := by omega
  exact Bytes.toList_window hfits

/-! ## Stale bytes -/

/-- **The last byte of a message at an index that leaves `j` by 32** stands at place `j`. -/
theorem getElem_holding_of_last (compress : Compression) {d : Bytes} {i j : Nat} {x : UInt8}
    (hj : j < 32) (hi : d[i]? = some x) (hij : i % 32 = j)
    (hlast : ∀ k, i < k → k < d.length → k % 32 ≠ j) :
    (holding compress d).block.input[j] = x := by
  have hlt : i < d.length := (List.getElem?_eq_some_iff.1 hi).1
  -- The next index that leaves the same is behind the end of the message.
  have hnext : d.length ≤ i + 32 := by
    refine Nat.le_of_not_lt fun h => hlast (i + 32) (by omega) h ?_
    omega
  have hindex : j + 32 * ((d.length - 1 - j) / 32) = i := by omega
  rw [getElem_holding, hindex, Bytes.byteAt, hi]
  rfl

/-- Where there is no such byte, the zeros of the fresh sponge are left. -/
theorem getElem_holding_of_none (compress : Compression) {d : Bytes} {j : Nat} (hj : j < 32)
    (hnone : ∀ i < d.length, i % 32 ≠ j) : (holding compress d).block.input[j] = 0 := by
  have hlen : d.length ≤ j := by
    refine Nat.le_of_not_lt fun h => hnone j h ?_
    exact Nat.mod_eq_of_lt hj
  rw [getElem_holding]
  exact Bytes.byteAt_of_length_le (by omega)

end Sponge

/-! ## The state after absorbing -/

/-- **Absorbing is exact.** From whatever block, and whatever place in its input half, the loop over
any bytes takes a known number of passes, none of which leaves the bounds of a buffer, and ends with
the state that absorbing leads to; its place counts the bytes by 32. Bytes absorbed at once and in two
parts lead to one state. From the fresh state, a stream in any pieces chains its full chunks, each
compressed once and in order; the input half holds at each place the last byte that came to it,
pending or stale, and zero where none has come. -/
theorem absorbing_is_exact (compress : Compression) :
    (∀ (v : Octets 64) (place : Nat) (h : place < 32) (d : Bytes),
      let s : Sponge := ⟨Block.ofOctets v, ⟨place, h⟩⟩
      let after := s.absorb compress d
      (∀ n, Intake.passes place d.length ≤ n → (Intake.mk v place d []).run compress n =
        some ⟨after.block.octets, after.filled.val, [], s.absorbed compress d⟩) ∧
      (∀ n < Intake.passes place d.length, ∃ i,
        (Intake.mk v place d []).run compress n = some i ∧ i.data ≠ []) ∧
      after.filled.val = (place + d.length) % 32) ∧
    (∀ (s : Sponge) (a d : Bytes),
      s.absorb compress (a ++ d) = (s.absorb compress a).absorb compress d) ∧
    (∀ parts : List Bytes,
      let d := parts.flatten
      let s := parts.foldl (Sponge.absorb compress) Sponge.fresh
      let blocks := Sponge.fresh.absorbedEach compress parts
      s.filled.val = d.length % 32 ∧
      (Sponge.chunks d).map Vector.toList =
        (List.range (d.length / 32)).map (fun i => (d.drop (32 * i)).take 32) ∧
      s.block.chaining = (Sponge.chunks d).foldl (fun cv c => compress ⟨cv, c⟩) Digest.zero ∧
      blocks = Sponge.chainBlocks compress Digest.zero (Sponge.chunks d) ∧
      blocks.map Block.input = Sponge.chunks d ∧
      ∀ j, (hj : j < 32) →
        (∀ i x, d[i]? = some x → i % 32 = j → (∀ k, i < k → k < d.length → k % 32 ≠ j) →
          s.block.input[j] = x) ∧
        ((∀ i < d.length, i % 32 ≠ j) → s.block.input[j] = 0)) := by
  refine ⟨?_, ?_, ?_⟩
  · intro v place h d s after
    have hstart : Intake.mk v place d [] = Intake.of s d [] := by
      rw [Intake.of, Block.octets_ofOctets]
    rw [hstart]
    exact ⟨fun n hn => Intake.run_of compress hn, fun n hn => Intake.run_of_lt compress hn,
      Sponge.filled_absorb compress s d⟩
  · intro s a d
    exact Sponge.absorb_append compress s a d
  · intro parts d s blocks
    have hstate : s = Sponge.holding compress d := by
      rw [← Sponge.absorb_fresh]
      exact Sponge.foldl_absorb compress Sponge.fresh parts
    have hblocks : blocks = Sponge.chainBlocks compress Digest.zero (Sponge.chunks d) := by
      rw [← Sponge.absorbed_fresh]
      exact Sponge.absorbedEach_eq compress Sponge.fresh parts
    rw [hstate, hblocks]
    refine ⟨rfl, Sponge.map_toList_chunks d, rfl, rfl, Sponge.map_input_chainBlocks .., ?_⟩
    intro j hj
    constructor
    · intro i x hi hij hlast
      exact Sponge.getElem_holding_of_last compress hj hi hij hlast
    · intro hnone
      exact Sponge.getElem_holding_of_none compress hj hnone

end HeaderWork
