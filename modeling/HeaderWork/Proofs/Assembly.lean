import HeaderWork.Proofs.Decision

/-!
# Assembling a record

A record is written by a cursor that moves from its front to its end. The pieces fill it without a
gap and without writing any byte twice, whatever header and whatever solution they come from.

* `Tiles` — spans that lie end to end; `Tiles.stop_le`, `Tiles.countP_eq_one` — none of them reaches
  behind the last, and each place is in exactly one.
* `Draft.Holds` — what a draft keeps: its content, then zeros; `Draft.put_of_holds` — one piece more.
* `Composes` — a composition reads spans, and ends with a draft of some content.
* `Record.compose_eq` — the record that is composed is the one that is read, complete and written once.
* `Record.cutField`, `Record.read_of_cutField` — the field in which a header ends too early.
* `Record.assemble_inj` — different fields are different records.
* `record_is_assembled` — layout, errors and what a record depends on.
-/

namespace HeaderWork

/-! ## Spans end to end -/

/-- The spans lie end to end, from `start` up to `stop`. -/
def Tiles : Nat → List Span → Nat → Prop
  | start, [], stop => start = stop
  | start, s :: rest, stop => s.offset = start ∧ Tiles (start + s.len) rest stop

namespace Tiles

theorem concat {spans : List Span} {start stop : Nat} (h : Tiles start spans stop) (n : Nat) :
    Tiles start (spans ++ [⟨stop, n⟩]) (stop + n) := by
  induction spans generalizing start with
  | nil =>
      cases h
      exact ⟨rfl, rfl⟩
  | cons s rest ih => exact ⟨h.1, ih h.2⟩

theorem le {spans : List Span} {start stop : Nat} (h : Tiles start spans stop) : start ≤ stop := by
  induction spans generalizing start with
  | nil => exact Nat.le_of_eq h
  | cons s rest ih => exact Nat.le_trans (Nat.le_add_right _ _) (ih h.2)

theorem stop_le {spans : List Span} {start stop : Nat} (h : Tiles start spans stop) :
    ∀ s ∈ spans, s.stop ≤ stop := by
  induction spans generalizing start with
  | nil => simp
  | cons s rest ih =>
      obtain ⟨rfl, hrest⟩ := h
      intro t ht
      rcases List.mem_cons.1 ht with rfl | ht
      · exact hrest.le
      · exact ih hrest t ht

theorem countP_eq_zero {spans : List Span} {start stop j : Nat} (h : Tiles start spans stop)
    (hj : j < start) : spans.countP (fun s => j ∈ s) = 0 := by
  induction spans generalizing start with
  | nil => rfl
  | cons s rest ih =>
      obtain ⟨rfl, hrest⟩ := h
      have hs : ¬ j ∈ s := fun hmem => Nat.not_le_of_lt hj hmem.1
      rw [List.countP_cons_of_neg (by simpa using hs)]
      exact ih hrest (Nat.lt_of_lt_of_le hj (Nat.le_add_right _ _))

/-- **Each place is in exactly one of the spans.** -/
theorem countP_eq_one {spans : List Span} {start stop j : Nat} (h : Tiles start spans stop)
    (hstart : start ≤ j) (hstop : j < stop) : spans.countP (fun s => j ∈ s) = 1 := by
  induction spans generalizing start with
  | nil =>
      cases h
      omega
  | cons s rest ih =>
      obtain ⟨rfl, hrest⟩ := h
      by_cases hj : j < s.offset + s.len
      · have hs : j ∈ s := ⟨hstart, hj⟩
        rw [List.countP_cons_of_pos (by simpa using hs), hrest.countP_eq_zero hj]
      · have hs : ¬ j ∈ s := fun hmem => hj hmem.2
        rw [List.countP_cons_of_neg (by simpa using hs)]
        exact ih hrest (Nat.le_of_not_lt hj)

end Tiles

/-! ## Drafts -/

theorem Bytes.overlay_append_zeros {content piece : Bytes} {n : Nat} (h : piece.length ≤ n) :
    Bytes.overlay (content ++ List.replicate n 0) content.length piece =
      content ++ piece ++ List.replicate (n - piece.length) 0 := by
  have htake : piece.take n = piece := List.take_of_length_le h
  simp [Bytes.overlay, htake]

namespace Draft

/-- A draft that holds `content` and zeros behind it, and that has written each byte of the content
once. -/
structure Holds (d : Draft) (content : Bytes) : Prop where
  bytes : d.bytes.toList = content ++ List.replicate (196 - content.length) 0
  cursor : d.cursor = content.length
  tiles : Tiles 0 d.written d.cursor

theorem blank_holds : blank.Holds [] where
  bytes := rfl
  cursor := rfl
  tiles := rfl

/-- **One piece more**: where there is room for it, it is copied, and the draft holds it. -/
theorem put_of_holds {d : Draft} {content piece : Bytes} (h : d.Holds content)
    (room : content.length + piece.length ≤ 196) :
    ∃ d', d.put piece = some d' ∧ d'.Holds (content ++ piece) := by
  obtain ⟨hbytes, hcursor, htiles⟩ := h
  rw [← hcursor] at room
  refine ⟨_, dif_pos room, ?_, ?_, htiles.concat piece.length⟩
  · have hpiece : piece.length ≤ 196 - content.length := by omega
    rw [Octets.toList_write, hbytes, hcursor, Bytes.overlay_append_zeros hpiece,
      List.length_append, Nat.sub_add_eq]
  · rw [List.length_append, ← hcursor]

end Draft

/-! ## Compositions -/

/-- A composition that reads `spans` of `b`, and never lacks room: when the spans fit, it ends with a
draft that holds `content`. -/
def Composes (b : Bytes) (spans : List Span) (m : ExceptT OutOfRange Option Draft)
    (content : Bytes) : Prop :=
  ∃ d, m.run = some (b.granted spans d) ∧ d.Holds content

section

variable {b content before : Bytes} {ys : List Span} {d : Draft}

theorem composes_put {piece : Bytes} {k : Draft → ExceptT OutOfRange Option Draft}
    (hd : d.Holds before) (room : before.length + piece.length ≤ 196)
    (h : ∀ d', d'.Holds (before ++ piece) → Composes b ys (k d') content) :
    Composes b ys (liftM (d.put piece) >>= k) content := by
  obtain ⟨d', hput, hd'⟩ := Draft.put_of_holds hd room
  rw [hput]
  exact h d' hd'

theorem composes_last {piece : Bytes} (hd : d.Holds before)
    (room : before.length + piece.length ≤ 196) :
    Composes b [] (liftM (d.put piece)) (before ++ piece) := by
  obtain ⟨d', hput, hd'⟩ := Draft.put_of_holds hd room
  rw [hput]
  exact ⟨d', rfl, hd'⟩

theorem composes_read {α : Type} {xs : List Span} {v : α}
    {k : α → ExceptT OutOfRange Option Draft} (h : Composes b ys (k v) content) :
    Composes b (xs ++ ys) (liftM (b.granted xs v) >>= k) content := by
  obtain ⟨e, hrun, he⟩ := h
  refine ⟨e, ?_, he⟩
  rw [Bytes.granted, Bytes.granted, Bytes.checkEach_append]
  -- Only a check that passes runs the rest; the other one is already the error of both sides.
  cases checkEach b xs with
  | ok _ => exact hrun
  | error _ => rfl

/-- **A field is read and put**: its span is one span more that is read, and its bytes stand behind
what the draft held. -/
theorem composes_field (start n : Nat) {k : Draft → ExceptT OutOfRange Option Draft}
    (hd : d.Holds before) (room : before.length + n ≤ 196)
    (h : ∀ d', d'.Holds (before ++ (b.window n start).toList) → Composes b ys (k d') content) :
    Composes b (⟨start, n⟩ :: ys) (liftM (b.read ⟨start, n⟩) >>= fun x => liftM (d.put x) >>= k)
      content := by
  show Composes b ([⟨start, n⟩] ++ ys) _ _
  rw [Bytes.read_eq]
  exact composes_read (composes_put hd (by simpa using room) h)

end

namespace Record

/-- The record of `b` under the roots of `s`, by its places. -/
def under (b : Bytes) (s : Solution) : Record :=
  assemble (b.window 32 4) (b.window 32 36) (b.window 32 68) (b.window 32 108) (b.window 4 104)
    s.prevRoot s.blockRoot

/-- The fields of the header that a record is read from, in the order of their reading. -/
def fields : List Span := [⟨4, 32⟩, ⟨36, 32⟩, ⟨68, 32⟩, ⟨108, 32⟩, ⟨104, 4⟩]

theorem toList_under (b : Bytes) (s : Solution) :
    (under b s).toList =
      (b.window 32 4).toList ++ (b.window 32 36).toList ++ (b.window 32 68).toList ++
        (b.window 32 108).toList ++ (b.window 4 104).toList ++ s.prevRoot.toList ++
        s.blockRoot.toList := rfl

theorem composes_compose (b : Bytes) (s : Solution) :
    Composes b fields (compose b s) (under b s).toList := by
  rw [toList_under, ← List.nil_append (b.window 32 4).toList]
  -- One step for each piece; the room that it needs is the sum of the lengths in front of it.
  refine composes_field 4 32 Draft.blank_holds (by decide) fun _ h => ?_
  refine composes_field 36 32 h (by simp) fun _ h => ?_
  refine composes_field 68 32 h (by simp) fun _ h => ?_
  refine composes_field 108 32 h (by simp) fun _ h => ?_
  refine composes_field 104 4 h (by simp) fun _ h => ?_
  refine composes_put h (by simp [Layout.digestLen]) fun _ h => ?_
  exact composes_last h (by simp [Layout.digestLen])

theorem read_eq_under (b : Bytes) (s : Solution) : read b s = b.granted fields (under b s) :=
  read_eq b s

/-- **The record that is composed is the one that is read.** It never lacks room, its cursor stops at
the end of the record, and it has written each byte once. -/
theorem compose_eq (b : Bytes) (s : Solution) :
    ∃ d, (compose b s).run = some (b.granted fields d) ∧ d.bytes = under b s ∧ d.cursor = 196 ∧
      Tiles 0 d.written 196 := by
  obtain ⟨d, hrun, hbytes, hcursor, htiles⟩ := composes_compose b s
  have hlen : (under b s).toList.length = 196 := Vector.length_toList
  rw [hlen] at hbytes hcursor
  refine ⟨d, hrun, ?_, hcursor, hcursor ▸ htiles⟩
  exact Vector.toList_inj.1 (hbytes.trans (List.append_nil _))

/-! ## Headers that end too early -/

/-- The field of the record in which a header of `size` bytes ends. -/
def cutField (size : Nat) : Option Span :=
  if size < 36 then some ⟨4, 32⟩
  else if size < 68 then some ⟨36, 32⟩
  else if size < 100 then some ⟨68, 32⟩
  else if size < 140 then some ⟨108, 32⟩
  else none

/-- The nonce is read in front of the target and ends behind it, so the target is never missed. -/
theorem missing?_fields (b : Bytes) : b.missing? fields = cutField b.length := by
  have hnil : b.missing? [] = none := rfl
  rw [fields, cutField, Bytes.missing?_cons _ (by decide), Bytes.missing?_cons _ (by decide),
    Bytes.missing?_cons _ (by decide), Bytes.missing?_cons _ (by decide),
    Bytes.missing?_cons _ (by decide), hnil]
  simp only [Span.stop]
  grind

theorem exists_cutField {size : Nat} (h : size < 140) :
    ∃ field, cutField size = some field ∧ field ≠ Layout.bits := by
  unfold cutField
  split
  · exact ⟨_, rfl, by decide⟩
  split
  · exact ⟨_, rfl, by decide⟩
  split
  · exact ⟨_, rfl, by decide⟩
  exact ⟨_, rfl, by decide⟩

theorem read_of_cutField {b : Bytes} {field : Span} (h : cutField b.length = some field)
    (s : Solution) : read b s = .error ⟨field, b.length⟩ := by
  rw [read_eq_under, Bytes.granted_eq_error_iff, missing?_fields]
  exact ⟨field, h, rfl⟩

/-- A header that ends within the target fails for its nonce. -/
example : read (List.replicate 106 0) ⟨7, 0, 1, 0, Digest.zero, Digest.zero⟩ =
    .error ⟨⟨108, 32⟩, 106⟩ := by decide +kernel

theorem read_eq_ok_iff {b : Bytes} {s : Solution} {r : Record} :
    read b s = .ok r ↔ 140 ≤ b.length ∧ r = under b s := by
  rw [read_eq_under, Bytes.granted_eq_ok_iff, Bytes.forall_fits_iff (by decide)]
  rfl

/-! ## What a record depends on -/

/-- **Different fields are different records.** -/
theorem assemble_inj {p₁ p₂ m₁ m₂ q₁ q₂ n₁ n₂ : Octets 32} {t₁ t₂ : Octets 4} {x₁ x₂ y₁ y₂ : Digest}
    (h : assemble p₁ m₁ q₁ n₁ t₁ x₁ y₁ = assemble p₂ m₂ q₂ n₂ t₂ x₂ y₂) :
    p₁ = p₂ ∧ m₁ = m₂ ∧ q₁ = q₂ ∧ n₁ = n₂ ∧ t₁ = t₂ ∧ x₁ = x₂ ∧ y₁ = y₂ := by
  have h := congrArg Vector.toList h
  simp only [assemble, Octets.toList_ofBytes] at h
  obtain ⟨h, hy⟩ := List.append_inj' h (by simp)
  obtain ⟨h, hx⟩ := List.append_inj' h (by simp)
  obtain ⟨h, ht⟩ := List.append_inj' h (by simp)
  obtain ⟨h, hn⟩ := List.append_inj' h (by simp)
  obtain ⟨h, hq⟩ := List.append_inj' h (by simp)
  obtain ⟨hp, hm⟩ := List.append_inj' h (by simp)
  simp_all [Vector.toList_inj]

/-- The places of the three hashes in a row, and of target and nonce. -/
def HeaderSpecific (i : Nat) : Prop := (4 ≤ i ∧ i < 100) ∨ (104 ≤ i ∧ i < 140)

theorem under_eq_under_iff {a b : Bytes} {s t : Solution} :
    under a s = under b t ↔
      (∀ i, HeaderSpecific i → a.byteAt i = b.byteAt i) ∧
        s.prevRoot = t.prevRoot ∧ s.blockRoot = t.blockRoot := by
  constructor
  · intro h
    obtain ⟨hprev, hmerkle, hsapling, hnonce, hbits, hroots⟩ := assemble_inj h
    refine ⟨?_, hroots⟩
    -- Each place lies in one of the five fields, which are equal as wholes.
    rintro i (⟨h1, h2⟩ | ⟨h1, h2⟩)
    · have hplace : i < 36 ∨ (36 ≤ i ∧ i < 68) ∨ 68 ≤ i := by omega
      rcases hplace with h3 | ⟨h3, h4⟩ | h3
      · exact Bytes.byteAt_eq_of_window_eq hprev h1 h3
      · exact Bytes.byteAt_eq_of_window_eq hmerkle h3 h4
      · exact Bytes.byteAt_eq_of_window_eq hsapling h3 h2
    · rcases Nat.lt_or_ge i 108 with h3 | h3
      · exact Bytes.byteAt_eq_of_window_eq hbits h1 h3
      · exact Bytes.byteAt_eq_of_window_eq hnonce h3 h2
  · rintro ⟨hplaces, hprev, hblock⟩
    have field : ∀ n start, 4 ≤ start ∧ start + n ≤ 100 ∨ 104 ≤ start ∧ start + n ≤ 140 →
        a.window n start = b.window n start := by
      intro n start hfield
      apply Bytes.window_congr
      intro i h1 h2
      apply hplaces
      unfold HeaderSpecific
      omega
    rw [under, under, hprev, hblock, field 32 4 (by decide), field 32 36 (by decide),
      field 32 68 (by decide), field 32 108 (by decide), field 4 104 (by decide)]

end Record

/-! ## Assembling as a whole -/

/-- **A record is assembled from its own fields only.** It can be read from 140 bytes on, under any
solution. Writing it piece by piece comes to the same record or the same error, and never lacks room:
the cursor stops at the end, no span reaches behind it, and each byte is written once. The record is
three hashes, nonce, target and both roots, end to end. A shorter header ends in a hash or in the
nonce, which is the error. Two records are the same exactly when the headers agree at all places from
4 to 100 and from 104 to 140 and the solutions agree in both roots. -/
theorem record_is_assembled (a b : Bytes) (s t : Solution) :
    ((∃ r, Record.read b s = .ok r) ↔ 140 ≤ b.length) ∧
    (∃ answer, (Record.compose b s).run = some answer ∧
      Record.read b s = answer.map Draft.bytes ∧
      ∀ d, answer = .ok d → d.cursor = 196 ∧ (∀ span ∈ d.written, span.stop ≤ 196) ∧
        ∀ j < 196, d.written.countP (fun span => j ∈ span) = 1) ∧
    (∀ r, Record.read b s = .ok r →
      r.toList = b.slice ⟨4, 32⟩ ++ b.slice ⟨36, 32⟩ ++ b.slice ⟨68, 32⟩ ++ b.slice ⟨108, 32⟩ ++
        b.slice ⟨104, 4⟩ ++ s.prevRoot.toList ++ s.blockRoot.toList) ∧
    (b.length < 140 → ∃ field, Record.cutField b.length = some field ∧ field ≠ Layout.bits ∧
      Record.read b s = .error ⟨field, b.length⟩) ∧
    (140 ≤ a.length → 140 ≤ b.length →
      (Record.read a s = Record.read b t ↔
        (∀ i, (4 ≤ i ∧ i < 100) ∨ (104 ≤ i ∧ i < 140) → a[i]? = b[i]?) ∧
          s.prevRoot = t.prevRoot ∧ s.blockRoot = t.blockRoot)) := by
  refine ⟨?_, ?_, ?_, ?_, ?_⟩
  · simp [Record.read_eq_ok_iff]
  · obtain ⟨d, hrun, hbytes, hcursor, htiles⟩ := Record.compose_eq b s
    refine ⟨_, hrun, ?_, ?_⟩
    · rw [Bytes.granted_map, hbytes, Record.read_eq_under]
    · intro d' hd
      obtain ⟨-, rfl⟩ := Bytes.granted_eq_ok_iff.1 hd
      exact ⟨hcursor, htiles.stop_le, fun j hj => htiles.countP_eq_one (Nat.zero_le j) hj⟩
  · intro r hr
    obtain ⟨hlen, rfl⟩ := Record.read_eq_ok_iff.1 hr
    rw [Record.toList_under, Bytes.toList_window (by omega), Bytes.toList_window (by omega),
      Bytes.toList_window (by omega), Bytes.toList_window (by omega), Bytes.toList_window (by omega)]
  · intro h
    obtain ⟨field, hfield, hbits⟩ := Record.exists_cutField h
    exact ⟨field, hfield, hbits, Record.read_of_cutField hfield s⟩
  · intro ha hb
    have hread : Record.read a s = Record.read b t ↔ Record.under a s = Record.under b t := by
      rw [Record.read_eq_ok_iff.2 ⟨ha, rfl⟩, Record.read_eq_ok_iff.2 ⟨hb, rfl⟩, Except.ok.injEq]
    rw [hread, Record.under_eq_under_iff]
    refine and_congr_left' (forall_congr' fun i => imp_congr_right fun hi => ?_)
    unfold Record.HeaderSpecific at hi
    rw [Bytes.getElem?_eq_byteAt (by omega), Bytes.getElem?_eq_byteAt (by omega), Option.some.injEq]

end HeaderWork
