import HeaderWork.Proofs.Window
import HeaderWork.Scheme

/-!
# What a sponge has taken in

The state of a sponge is a function of the bytes that it has absorbed, however they were cut.

* `absorb_cons`, `absorb_append` — absorbing goes byte by byte.
* `absorbed` — the blocks that absorbing compresses, in order; `absorb_congr` — it asks its
  compression for nothing else.
* `chunks`, `lastChunk` — the full chunks of a message, and what is left of it with zeros behind.
* `holding` — the state after a message in closed form; `absorb_fresh`, `absorbed_fresh` — it is
  what absorbing the message leads to, and the blocks on the way chain its chunks.
* `closing` — the block that ends a message; `padded_fresh`, `squeezeFolded_fresh` — it is what
  closing pads, and all that the folded form sees of the message.
-/

namespace HeaderWork

theorem Octets.getElem_write {n : Nat} (v : Octets n) (start : Nat) (data : Bytes)
    (room : start + data.length ≤ n) (i : Nat) (hi : i < n) :
    (v.write start data room)[i] =
      if start ≤ i ∧ i < start + data.length then data.byteAt (i - start) else v[i] := by
  have h := Bytes.getElem?_overlay v.toList start data i
  rw [← toList_write v start data room, Vector.getElem?_toList, Vector.getElem?_toList,
    Vector.getElem?_eq_getElem hi, Vector.getElem?_eq_getElem hi, Vector.length_toList] at h
  by_cases hs : start ≤ i ∧ i < start + data.length
  · rw [if_pos ⟨hs.1, hs.2, hi⟩, Bytes.getElem?_eq_byteAt (by omega)] at h
    rw [if_pos hs]
    exact Option.some.inj h
  · rw [if_neg fun k => hs ⟨k.1, k.2.1⟩] at h
    rw [if_neg hs]
    exact Option.some.inj h

theorem Block.ext {x y : Block} (hc : x.chaining = y.chaining)
    (hi : ∀ i, (h : i < 32) → x.input[i] = y.input[i]) : x = y := by
  obtain ⟨xc, xi⟩ := x
  obtain ⟨yc, yi⟩ := y
  cases hc
  cases Vector.ext hi
  rfl

namespace Sponge

theorem ext {s t : Sponge} (hb : s.block = t.block) (hf : s.filled.val = t.filled.val) : s = t := by
  obtain ⟨sb, sf⟩ := s
  obtain ⟨tb, tf⟩ := t
  cases hb
  cases Fin.ext hf
  rfl

/-! ## Absorbing byte by byte -/

/-- The block with the next piece of `data` behind the pending bytes. -/
def copied (s : Sponge) (data : Bytes) : Block where
  chaining := s.block.chaining
  input := s.block.input.write s.filled.val (s.piece data) (s.filled_add_length_piece_le data)

/-- The block that the next piece of `data` completes, if it does. -/
def completed (s : Sponge) (data : Bytes) : List Block :=
  if s.filled.val + (s.piece data).length < 32 then [] else [s.copied data]

theorem getElem_copied (s : Sponge) (data : Bytes) (i : Nat) (hi : i < 32) :
    (s.copied data).input[i] =
      if s.filled.val ≤ i ∧ i < s.filled.val + (s.piece data).length then
        (s.piece data).byteAt (i - s.filled.val)
      else s.block.input[i] :=
  Octets.getElem_write _ _ _ (s.filled_add_length_piece_le data) i hi

theorem fill_of_lt (compress : Compression) {s : Sponge} {data p : Bytes} (hp : s.piece data = p)
    (h : s.filled.val + p.length < 32) :
    s.fill compress data = ⟨s.copied data, ⟨s.filled.val + p.length, h⟩⟩ := by
  subst hp
  unfold fill
  exact dif_pos h

theorem fill_of_not_lt (compress : Compression) {s : Sponge} {data p : Bytes}
    (hp : s.piece data = p) (h : ¬ s.filled.val + p.length < 32) :
    s.fill compress data = ⟨⟨compress (s.copied data), (s.copied data).input⟩, 0⟩ := by
  subst hp
  unfold fill
  exact dif_neg h

theorem piece_singleton (s : Sponge) (x : UInt8) : s.piece [x] = [x] :=
  List.take_of_length_le s.room_pos

theorem absorb_nil (compress : Compression) (s : Sponge) : s.absorb compress [] = s := by
  rw [absorb, dif_pos rfl]

theorem absorb_of_ne_nil (compress : Compression) (s : Sponge) {data : Bytes} (h : data ≠ []) :
    s.absorb compress data = (s.fill compress data).absorb compress (data.drop s.room) := by
  rw [absorb, dif_neg h]

/-- The blocks that taking in `data` compresses, in order. -/
def absorbed (compress : Compression) (s : Sponge) (data : Bytes) : List Block :=
  if _h : data = [] then []
  else s.completed data ++ absorbed compress (s.fill compress data) (data.drop s.room)
termination_by data.length
decreasing_by
  have := s.room_pos
  have := List.length_pos_iff.2 _h
  simp only [List.length_drop]
  omega

theorem absorbed_nil (compress : Compression) (s : Sponge) : s.absorbed compress [] = [] := by
  rw [absorbed, dif_pos rfl]

theorem absorbed_of_ne_nil (compress : Compression) (s : Sponge) {data : Bytes} (h : data ≠ []) :
    s.absorbed compress data =
      s.completed data ++ (s.fill compress data).absorbed compress (data.drop s.room) := by
  rw [absorbed, dif_neg h]

/-- A copy that begins with one byte, and goes on with the others, is one copy of all of them. -/
theorem copied_copied {s t : Sponge} {x : UInt8} (rest : Bytes)
    (hfilled : t.filled.val = s.filled.val + 1) (hblock : t.block = s.copied [x]) :
    s.piece (x :: rest) = x :: t.piece rest ∧ t.copied rest = s.copied (x :: rest) := by
  have hpiece : s.piece (x :: rest) = x :: t.piece rest := by
    have room : s.room = t.room + 1 := by
      have := s.filled_add_room
      have := t.filled_add_room
      omega
    rw [piece, room, List.take_succ_cons]
    rfl
  refine ⟨hpiece, Block.ext ?_ ?_⟩
  · show t.block.chaining = _
    rw [hblock]
    rfl
  intro i hi
  rw [getElem_copied, getElem_copied, hpiece, hfilled, List.length_cons]
  by_cases h1 : s.filled.val + 1 ≤ i ∧ i < s.filled.val + 1 + (t.piece rest).length
  · obtain ⟨k, rfl⟩ : ∃ k, i = s.filled.val + 1 + k := ⟨i - (s.filled.val + 1), by omega⟩
    have hk : s.filled.val + 1 + k - s.filled.val = k + 1 := by omega
    rw [if_pos h1, if_pos (by omega), hk, Nat.add_sub_cancel_left]
    rfl
  rw [if_neg h1]
  simp only [hblock]
  rw [getElem_copied, piece_singleton, List.length_singleton]
  by_cases h2 : i = s.filled.val
  · subst h2
    rw [if_pos (by omega), if_pos (by omega), Nat.sub_self]
    rfl
  · rw [if_neg (by omega), if_neg (by omega)]

/-- One more byte in front is absorbed first. -/
theorem fill_fill_singleton (compress : Compression) {s : Sponge} (x : UInt8) (rest : Bytes)
    (h : s.filled.val + 1 < 32) :
    (s.fill compress [x]).fill compress rest = s.fill compress (x :: rest) ∧
      (s.fill compress [x]).completed rest = s.completed (x :: rest) ∧
      (s.fill compress [x]).filled.val = s.filled.val + 1 := by
  have hfill := fill_of_lt compress (s.piece_singleton x) h
  generalize s.fill compress [x] = t at hfill ⊢
  have hfilled : t.filled.val = s.filled.val + 1 := by rw [hfill]; rfl
  have hblock : t.block = s.copied [x] := by rw [hfill]
  obtain ⟨hpiece, hcopied⟩ := copied_copied rest hfilled hblock
  have hlen : t.filled.val + (t.piece rest).length =
      s.filled.val + (s.piece (x :: rest)).length := by
    rw [hfilled, hpiece, List.length_cons]
    omega
  refine ⟨?_, ?_, hfilled⟩
  · by_cases hlt : s.filled.val + (s.piece (x :: rest)).length < 32
    · rw [fill_of_lt compress rfl hlt, fill_of_lt compress rfl (hlen ▸ hlt), hcopied]
      exact ext rfl hlen
    · rw [fill_of_not_lt compress rfl hlt, fill_of_not_lt compress rfl (hlen ▸ hlt), hcopied]
  · rw [completed, completed, hlen, hcopied]

/-- A copy sees of its input the next piece only. -/
theorem fill_eq_of_piece_eq (compress : Compression) {s : Sponge} {a b : Bytes}
    (h : s.piece a = s.piece b) :
    s.fill compress a = s.fill compress b ∧ s.completed a = s.completed b := by
  have hcopied : s.copied a = s.copied b := by
    refine Block.ext rfl ?_
    intro i hi
    rw [getElem_copied, getElem_copied, h]
  constructor
  · by_cases hlt : s.filled.val + (s.piece b).length < 32
    · rw [fill_of_lt compress h hlt, fill_of_lt compress rfl hlt, hcopied]
    · rw [fill_of_not_lt compress h hlt, fill_of_not_lt compress rfl hlt, hcopied]
  · rw [completed, completed, h, hcopied]

/-- **Absorbing goes byte by byte**, and so do the blocks that are compressed on the way. -/
theorem absorb_cons (compress : Compression) (s : Sponge) (x : UInt8) (rest : Bytes) :
    s.absorb compress (x :: rest) = (s.fill compress [x]).absorb compress rest ∧
      s.absorbed compress (x :: rest) =
        s.completed [x] ++ (s.fill compress [x]).absorbed compress rest := by
  have hroom := s.filled_add_room
  rw [absorb_of_ne_nil compress s (List.cons_ne_nil x rest),
    absorbed_of_ne_nil compress s (List.cons_ne_nil x rest)]
  by_cases h : s.filled.val + 1 < 32
  · -- There is room behind the byte: it is copied together with those that follow.
    cases rest with
    | nil =>
        have none : [x].drop s.room = [] := List.drop_of_length_le s.room_pos
        rw [none]
        exact ⟨rfl, rfl⟩
    | cons y rest =>
        obtain ⟨hfill, hcompleted, hfilled⟩ := fill_fill_singleton compress x (y :: rest) h
        have none : s.completed [x] = [] := by
          rw [completed, piece_singleton]
          exact if_pos h
        have hdrop : (x :: y :: rest).drop s.room =
            (y :: rest).drop (s.fill compress [x]).room := by
          have room : s.room = (s.fill compress [x]).room + 1 := by
            have := (s.fill compress [x]).filled_add_room
            omega
          rw [room, List.drop_succ_cons]
        rw [none, List.nil_append, hdrop, ← hfill, ← hcompleted,
          absorb_of_ne_nil compress (s.fill compress [x]) (List.cons_ne_nil y rest),
          absorbed_of_ne_nil compress (s.fill compress [x]) (List.cons_ne_nil y rest)]
        exact ⟨rfl, rfl⟩
  · -- The byte is the last one that fits.
    have room : s.room = 1 := by
      have := s.filled.isLt
      omega
    have hpiece : s.piece (x :: rest) = s.piece [x] := by
      rw [piece, piece, room]
      rfl
    obtain ⟨hfill, hcompleted⟩ := fill_eq_of_piece_eq compress hpiece
    rw [hfill, hcompleted, room]
    exact ⟨rfl, rfl⟩

theorem absorb_append (compress : Compression) (s : Sponge) (a d : Bytes) :
    s.absorb compress (a ++ d) = (s.absorb compress a).absorb compress d := by
  induction a generalizing s with
  | nil => rw [List.nil_append, absorb_nil]
  | cons x rest ih => rw [List.cons_append, (absorb_cons ..).1, (absorb_cons ..).1, ih]

/-- A copy asks its compression for the block that it completes, and for no other. -/
theorem fill_congr {c c' : Compression} {s : Sponge} {data : Bytes}
    (h : ∀ x ∈ s.completed data, c x = c' x) : s.fill c data = s.fill c' data := by
  by_cases hlt : s.filled.val + (s.piece data).length < 32
  · rw [fill_of_lt c rfl hlt, fill_of_lt c' rfl hlt]
  · have hcompleted : s.completed data = [s.copied data] := if_neg hlt
    have hc : c (s.copied data) = c' (s.copied data) := by
      apply h
      rw [hcompleted]
      exact List.mem_singleton_self _
    rw [fill_of_not_lt c rfl hlt, fill_of_not_lt c' rfl hlt, hc]

/-- **Absorbing asks its compression for the absorbed blocks, and for no other.** -/
theorem absorb_congr {c c' : Compression} {s : Sponge} {data : Bytes}
    (h : ∀ x ∈ s.absorbed c data, c x = c' x) :
    s.absorb c data = s.absorb c' data ∧ s.absorbed c data = s.absorbed c' data := by
  induction data generalizing s with
  | nil =>
      rw [absorb_nil, absorb_nil, absorbed_nil, absorbed_nil]
      exact ⟨rfl, rfl⟩
  | cons x rest ih =>
      obtain ⟨hcons, htrace⟩ := absorb_cons c s x rest
      obtain ⟨hcons', htrace'⟩ := absorb_cons c' s x rest
      rw [htrace] at h
      have hfill : s.fill c [x] = s.fill c' [x] :=
        fill_congr fun y hy => h y (List.mem_append_left _ hy)
      obtain ⟨habsorb, habsorbed⟩ := ih fun y hy => h y (List.mem_append_right _ hy)
      rw [hcons, hcons', htrace, htrace', habsorb, habsorbed, hfill]
      exact ⟨rfl, rfl⟩

/-! ## Chunks of a message -/

/-- The full chunks of a message. -/
def chunks (d : Bytes) : List (Octets 32) :=
  (List.range (d.length / 32)).map fun i => d.window 32 (32 * i)

/-- What the full chunks leave of a message, with zeros behind. -/
def lastChunk (d : Bytes) : Octets 32 := d.window 32 (32 * (d.length / 32))

/-- The chaining half after some chunks, from `cv` on. -/
def chainFrom (compress : Compression) (cv : Digest) (cs : List (Octets 32)) : Digest :=
  cs.foldl (fun cv c => compress ⟨cv, c⟩) cv

/-- The blocks that chaining compresses, in order. -/
def chainBlocks (compress : Compression) (cv : Digest) : List (Octets 32) → List Block
  | [] => []
  | c :: rest => ⟨cv, c⟩ :: chainBlocks compress (compress ⟨cv, c⟩) rest

/-- A chunk more is one block more, and the chaining half is its compression. -/
theorem chain_concat (compress : Compression) (cv : Digest) (cs : List (Octets 32))
    (c : Octets 32) :
    chainFrom compress cv (cs ++ [c]) = compress ⟨chainFrom compress cv cs, c⟩ ∧
      chainBlocks compress cv (cs ++ [c]) =
        chainBlocks compress cv cs ++ [⟨chainFrom compress cv cs, c⟩] := by
  induction cs generalizing cv with
  | nil => exact ⟨rfl, rfl⟩
  | cons d rest ih =>
      obtain ⟨hfrom, hblocks⟩ := ih (compress ⟨cv, d⟩)
      refine ⟨hfrom, ?_⟩
      rw [List.cons_append, chainBlocks, chainBlocks, hblocks]
      rfl

/-- One more byte completes a chunk or leaves the full chunks as they are. -/
theorem chunks_append_singleton (d : Bytes) (x : UInt8) :
    chunks (d ++ [x]) =
      if d.length % 32 = 31 then
        chunks d ++ [Bytes.window 32 (d ++ [x]) (32 * (d.length / 32))]
      else chunks d := by
  have same : ∀ i ∈ List.range (d.length / 32),
      Bytes.window 32 (d ++ [x]) (32 * i) = d.window 32 (32 * i) := by
    intro i hi
    have := List.mem_range.1 hi
    exact Bytes.window_congr fun j h1 h2 => Bytes.byteAt_append_left _ (by omega)
  unfold chunks
  rw [List.length_append, List.length_singleton]
  by_cases h : d.length % 32 = 31
  · have hdiv : (d.length + 1) / 32 = d.length / 32 + 1 := by omega
    rw [if_pos h, hdiv, List.range_succ, List.map_append, List.map_congr_left same,
      List.map_singleton]
  · have hdiv : (d.length + 1) / 32 = d.length / 32 := by omega
    rw [if_neg h, hdiv, List.map_congr_left same]

/-! ## The state in closed form -/

/-- The sponge that has taken in `d`. Byte `j` of its input half is the last byte of `d` at an index
that leaves `j` by 32, pending or not. -/
def holding (compress : Compression) (d : Bytes) : Sponge where
  block :=
    { chaining := chainFrom compress Digest.zero (chunks d)
      input := Vector.ofFn fun j => d.byteAt (j.val + 32 * ((d.length - 1 - j.val) / 32)) }
  filled := ⟨d.length % 32, Nat.mod_lt _ (by decide)⟩

theorem getElem_holding (compress : Compression) (d : Bytes) (j : Nat) (hj : j < 32) :
    (holding compress d).block.input[j] = d.byteAt (j + 32 * ((d.length - 1 - j) / 32)) := by
  unfold holding
  exact Vector.getElem_ofFn _

theorem holding_nil (compress : Compression) : holding compress [] = fresh := by
  refine ext (Block.ext rfl ?_) rfl
  intro i hi
  rw [getElem_holding, Bytes.byteAt_of_length_le (Nat.zero_le _)]
  exact (Vector.getElem_replicate hi).symm

/-- The input half once `x` is copied in. -/
theorem getElem_copied_holding (compress : Compression) (d : Bytes) (x : UInt8) (j : Nat)
    (hj : j < 32) :
    ((holding compress d).copied [x]).input[j] =
      Bytes.byteAt (d ++ [x]) (j + 32 * (((d ++ [x]).length - 1 - j) / 32)) := by
  have hfilled : (holding compress d).filled.val = d.length % 32 := rfl
  rw [getElem_copied, piece_singleton, hfilled, getElem_holding, List.length_append,
    List.length_singleton, Nat.add_sub_cancel]
  by_cases h : j = d.length % 32
  · have hidx : j + 32 * ((d.length - j) / 32) = d.length := by omega
    rw [if_pos (by omega), hidx, h, Nat.sub_self, Bytes.byteAt_append_length]
    rfl
  rw [if_neg (by omega)]
  have hdiv : (d.length - 1 - j) / 32 = (d.length - j) / 32 := by omega
  rw [hdiv]
  by_cases hlt : j + 32 * ((d.length - j) / 32) < d.length
  · exact (Bytes.byteAt_append_left [x] hlt).symm
  · have hend : (d ++ [x]).length ≤ j + 32 * ((d.length - j) / 32) := by
      rw [List.length_append, List.length_singleton]
      omega
    rw [Bytes.byteAt_of_length_le (Nat.le_of_not_lt hlt), Bytes.byteAt_of_length_le hend]

theorem input_copied_holding (compress : Compression) (d : Bytes) (x : UInt8) (j : Nat)
    (hj : j < 32) :
    ((holding compress d).copied [x]).input[j] =
      (holding compress (d ++ [x])).block.input[j] := by
  rw [getElem_copied_holding, getElem_holding]

/-- The last byte of a chunk completes the block of that chunk. -/
theorem copied_holding_of_full (compress : Compression) {d : Bytes} (x : UInt8)
    (h : d.length % 32 = 31) :
    (holding compress d).copied [x] = ⟨chainFrom compress Digest.zero (chunks d),
      Bytes.window 32 (d ++ [x]) (32 * (d.length / 32))⟩ := by
  refine Block.ext rfl ?_
  intro j hj
  rw [getElem_copied_holding, Bytes.getElem_window, List.length_append, List.length_singleton,
    Nat.add_sub_cancel]
  congr 1
  omega

theorem fill_holding_of_full (compress : Compression) {d : Bytes} (x : UInt8)
    (h : d.length % 32 = 31) :
    (holding compress d).fill compress [x] = holding compress (d ++ [x]) ∧
      chainBlocks compress Digest.zero (chunks (d ++ [x])) =
        chainBlocks compress Digest.zero (chunks d) ++ (holding compress d).completed [x] := by
  have hpiece := (holding compress d).piece_singleton x
  have full : ¬ (holding compress d).filled.val + [x].length < 32 := by
    show ¬ d.length % 32 + 1 < 32
    omega
  have hcompleted : (holding compress d).completed [x] = [(holding compress d).copied [x]] := by
    rw [completed, hpiece]
    exact if_neg full
  have hchunks := chunks_append_singleton d x
  rw [if_pos h] at hchunks
  obtain ⟨hfrom, hblocks⟩ := chain_concat compress Digest.zero (chunks d)
    (Bytes.window 32 (d ++ [x]) (32 * (d.length / 32)))
  rw [← hchunks, ← copied_holding_of_full compress x h] at hfrom hblocks
  rw [fill_of_not_lt compress hpiece full, hcompleted]
  refine ⟨ext (Block.ext hfrom.symm (input_copied_holding compress d x)) ?_, hblocks⟩
  show 0 = (d ++ [x]).length % 32
  rw [List.length_append, List.length_singleton]
  omega

theorem fill_holding_of_free (compress : Compression) {d : Bytes} (x : UInt8)
    (h : d.length % 32 ≠ 31) :
    (holding compress d).fill compress [x] = holding compress (d ++ [x]) ∧
      chainBlocks compress Digest.zero (chunks (d ++ [x])) =
        chainBlocks compress Digest.zero (chunks d) ++ (holding compress d).completed [x] := by
  have hpiece := (holding compress d).piece_singleton x
  have free : (holding compress d).filled.val + [x].length < 32 := by
    show d.length % 32 + 1 < 32
    omega
  have hcompleted : (holding compress d).completed [x] = [] := by
    rw [completed, hpiece]
    exact if_pos free
  have hchunks := chunks_append_singleton d x
  rw [if_neg h] at hchunks
  have hfrom : (holding compress (d ++ [x])).block.chaining =
      ((holding compress d).copied [x]).chaining :=
    congrArg (chainFrom compress Digest.zero) hchunks
  rw [fill_of_lt compress hpiece free, hcompleted, hchunks, List.append_nil]
  refine ⟨ext (Block.ext hfrom.symm (input_copied_holding compress d x)) ?_, rfl⟩
  show d.length % 32 + 1 = (d ++ [x]).length % 32
  rw [List.length_append, List.length_singleton]
  omega

/-- **A byte more**: what the state holds, and what is compressed for it, stay in closed form. -/
theorem fill_holding (compress : Compression) (d : Bytes) (x : UInt8) :
    (holding compress d).fill compress [x] = holding compress (d ++ [x]) ∧
      chainBlocks compress Digest.zero (chunks (d ++ [x])) =
        chainBlocks compress Digest.zero (chunks d) ++ (holding compress d).completed [x] := by
  by_cases h : d.length % 32 = 31
  · exact fill_holding_of_full compress x h
  · exact fill_holding_of_free compress x h

/-- From the state that holds `d`, absorbing `e` leads to the state that holds both. -/
theorem absorb_holding (compress : Compression) (d e : Bytes) :
    (holding compress d).absorb compress e = holding compress (d ++ e) ∧
      chainBlocks compress Digest.zero (chunks (d ++ e)) =
        chainBlocks compress Digest.zero (chunks d) ++ (holding compress d).absorbed compress e := by
  induction e generalizing d with
  | nil =>
      rw [List.append_nil, absorb_nil, absorbed_nil, List.append_nil]
      exact ⟨rfl, rfl⟩
  | cons x rest ih =>
      obtain ⟨hfill, hblocks⟩ := fill_holding compress d x
      obtain ⟨habsorb, htrace⟩ := ih (d ++ [x])
      obtain ⟨hcons, htraceCons⟩ := absorb_cons compress (holding compress d) x rest
      have hsplit : d ++ x :: rest = d ++ [x] ++ rest := List.append_cons d x rest
      rw [hsplit, hcons, htraceCons, hfill]
      refine ⟨habsorb, ?_⟩
      rw [htrace, hblocks]
      exact List.append_assoc _ _ _

/-- **Absorbing a message from the fresh state**, in closed form. -/
theorem absorb_fresh (compress : Compression) (d : Bytes) :
    fresh.absorb compress d = holding compress d := by
  rw [← holding_nil compress]
  exact (absorb_holding compress [] d).1

/-- **The blocks on the way chain the full chunks of the message.** -/
theorem absorbed_fresh (compress : Compression) (d : Bytes) :
    fresh.absorbed compress d = chainBlocks compress Digest.zero (chunks d) := by
  rw [← holding_nil compress]
  exact (absorb_holding compress [] d).2.symm

/-! ## Closing -/

/-- The block that ends a message: the full chunks chained, and the rest with zeros behind. -/
def closing (compress : Compression) (d : Bytes) : Block :=
  ⟨chainFrom compress Digest.zero (chunks d), lastChunk d⟩

theorem padded_holding (compress : Compression) (d : Bytes) :
    (holding compress d).padded = closing compress d := by
  have hfilled : (holding compress d).filled.val = d.length % 32 := rfl
  refine Block.ext rfl ?_
  intro j hj
  have hlast : (closing compress d).input[j] = (lastChunk d)[j] := rfl
  rw [hlast, lastChunk, Bytes.getElem_window]
  unfold padded
  rw [Octets.getElem_write, hfilled, List.length_replicate, getElem_holding]
  by_cases h : d.length % 32 ≤ j
  · have hend : d.length ≤ 32 * (d.length / 32) + j := by omega
    rw [if_pos (by omega), Bytes.byteAt_of_length_le hend, Bytes.byteAt, List.getElem?_replicate]
    split <;> rfl
  · have hindex : j + 32 * ((d.length - 1 - j) / 32) = 32 * (d.length / 32) + j := by omega
    rw [if_neg (by omega), hindex]

theorem padded_fresh (compress : Compression) (d : Bytes) :
    (fresh.absorb compress d).padded = closing compress d := by
  rw [absorb_fresh, padded_holding]

/-- **The folded form compresses the closing block in any case.** -/
theorem squeezeFolded_fresh (compress mix : Compression) (d : Bytes) :
    (fresh.absorb compress d).squeezeFolded compress mix =
      compress ⟨compress (closing compress d), mix (closing compress d)⟩ := by
  rw [squeezeFolded, padded_fresh]

end Sponge

end HeaderWork
