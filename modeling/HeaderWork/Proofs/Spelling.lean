import HeaderWork.Digest

/-!
# Texts that spell bytes

A text of hexadecimal digits, in either case, spells the bytes that it is read as. It differs from
what is written for them in the case of its letters, and in the mark that may stand in front.

* `Hex.digits`, `Hex.lower`, `Hex.Foreign` — the digits of either case, a byte in lower case, and a
  byte that is no digit.
* `Hex.decode_eq_ok_iff`, `Hex.decode_eq_error_iff` — what a byte string is read as, and why it is
  refused (`Hex.Fault.Of`).
* `Bytes.ofString_toLower`, `Bytes.ofString_inj` — lower case of a text and of its bytes; the bytes
  tell texts apart.
* `Hex.unmarked` — the text behind the mark; `Hex.dropMark_ofString` — it is what the bytes show.
* `Hex.Spells`, `Hex.decode_ofString_eq_ok_iff` — reading a text, without a word about its bytes;
  `Hex.exists_spells_iff` — the texts that spell anything.
* `Digest.ofText_eq_ok_iff`, `Digest.ofText_eq_error_iff` — the same for digests.
* `digest_texts_are_spellings` — which texts are digests, of what, and why the others are none.
-/

namespace HeaderWork

namespace Hex

/-! ## Digits of either case -/

/-- The digits that may be read. -/
def digits : List Char := "0123456789abcdefABCDEF".toList

/-- A byte in lower case, when it is a letter. -/
def lower (x : UInt8) : UInt8 := if 65 ≤ x ∧ x ≤ 90 then x + 32 else x

/-- A byte that is none of the digits. -/
def Foreign (x : UInt8) : Prop := x ∉ Bytes.ofString "0123456789abcdefABCDEF"

/-- A statement about bytes that is decided for each of them. -/
theorem forall_byte {P : UInt8 → Prop} (h : ∀ i : Fin 256, P (.ofNat i)) (x : UInt8) : P x := by
  have hx := h ⟨x.toNat, x.toNat_lt⟩
  rwa [UInt8.ofNat_toNat] at hx

theorem value?_lower (x : UInt8) : value? (lower x) = value? x :=
  forall_byte (P := fun x => value? (lower x) = value? x) (by decide +kernel) x

theorem value?_eq_some_iff {x : UInt8} {n : Nat} :
    value? x = some n ↔ n < 16 ∧ lower x = digit n := by
  have all : ∀ x : UInt8, ∀ n ∈ value? x, n < 16 ∧ lower x = digit n :=
    forall_byte (by decide +kernel)
  constructor
  · exact all x n
  · rintro ⟨hn, h⟩
    rw [← value?_lower, h, value?_digit hn]

theorem value?_eq_none_iff {x : UInt8} : value? x = none ↔ Foreign x := by
  have table : (Bytes.ofString "0123456789abcdefABCDEF").map UInt8.toNat =
      List.range' 48 10 ++ List.range' 97 6 ++ List.range' 65 6 := by decide
  have hmem : x ∈ Bytes.ofString "0123456789abcdefABCDEF" ↔
      x.toNat ∈ (Bytes.ofString "0123456789abcdefABCDEF").map UInt8.toNat := by
    simp [UInt8.toNat_inj]
  rw [Foreign, hmem, table, value?]
  simp only [List.mem_append, List.mem_range'_1, UInt8.le_iff_toNat_le, UInt8.toNat_ofNat]
  grind

theorem not_foreign_of_value? {x : UInt8} {n : Nat} (h : value? x = some n) : ¬ Foreign x := by
  rw [← value?_eq_none_iff, h]
  exact Option.some_ne_none n

/-! ## Reading bytes -/

/-- Values are read where all digits are known, of whichever case. -/
theorem values_eq_ok_iff {index : Nat} {text : Bytes} {ns : List Nat} :
    values index text = .ok ns ↔ (∀ n ∈ ns, n < 16) ∧ text.map lower = ns.map digit := by
  induction text generalizing index ns with
  | nil =>
      cases ns with
      | nil => simp [values]
      | cons m ms => simp [values]
  | cons x rest ih =>
      rw [values, List.map_cons]
      cases ns with
      | nil =>
          cases value? x with
          | none => simp
          | some n => cases values (index + 1) rest <;> simp [Except.map]
      | cons m ms =>
          rw [List.map_cons, List.forall_mem_cons, List.cons.injEq, and_and_and_comm,
            ← value?_eq_some_iff, ← @ih (index + 1) ms]
          cases value? x with
          | none => simp
          | some n => cases values (index + 1) rest <;> simp [Except.map]

theorem map_eq_error_iff {ε α β : Type} {g : α → β} {x : Except ε α} {e : ε} :
    x.map g = .error e ↔ x = .error e := by
  cases x <;> simp [Except.map]

/-- **The first byte that is no digit is the fault**, at its place. -/
theorem values_eq_error_iff {index : Nat} {text : Bytes} {f : Fault} :
    values index text = .error f ↔ ∃ pre x post, text = pre ++ x :: post ∧ Foreign x ∧
      (∀ y ∈ pre, ¬ Foreign y) ∧ f = .badDigit x (index + pre.length) := by
  induction text generalizing index with
  | nil => simp [values]
  | cons y rest ih =>
      rw [values]
      cases hy : value? y with
      | none =>
          have foreign := value?_eq_none_iff.1 hy
          constructor
          · rintro ⟨rfl⟩
            exact ⟨[], y, rest, rfl, foreign, by simp, rfl⟩
          · rintro ⟨pre, x, post, htext, -, hpre, rfl⟩
            cases pre with
            | nil =>
                cases htext
                rfl
            | cons z pre =>
                cases htext
                exact absurd foreign (hpre y List.mem_cons_self)
      | some n =>
          have known := not_foreign_of_value? hy
          show (values (index + 1) rest).map (n :: ·) = .error f ↔ _
          rw [map_eq_error_iff, ih]
          constructor
          · rintro ⟨pre, x, post, rfl, hx, hpre, rfl⟩
            refine ⟨y :: pre, x, post, rfl, hx, List.forall_mem_cons.2 ⟨known, hpre⟩, ?_⟩
            rw [List.length_cons, Nat.add_assoc, Nat.add_comm 1]
          · rintro ⟨pre, x, post, htext, hx, hpre, rfl⟩
            cases pre with
            | nil =>
                cases htext
                exact absurd hx known
            | cons z pre =>
                cases htext
                refine ⟨pre, x, post, rfl, hx, (List.forall_mem_cons.1 hpre).2, ?_⟩
                rw [List.length_cons, Nat.add_assoc, Nat.add_comm 1]

/-- Two values for every byte lose nothing. -/
theorem encodeBytes_pairs {ns : List Nat} (hlt : ∀ n ∈ ns, n < 16) (heven : ns.length % 2 = 0) :
    encodeBytes (pairs ns) = ns.map digit := by
  fun_induction pairs ns with
  | case1 high low rest ih =>
      simp only [List.forall_mem_cons, List.length_cons] at hlt heven
      obtain ⟨hhigh, hlow, hrest⟩ := hlt
      have hbyte : (UInt8.ofNat (16 * high + low)).toNat = 16 * high + low := by
        rw [UInt8.toNat_ofNat']
        omega
      have hdiv : (16 * high + low) / 16 = high := by omega
      have hmod : (16 * high + low) % 16 = low := by omega
      have ih := ih hrest (by omega)
      rw [encodeBytes] at ih ⊢
      rw [List.flatMap_cons, ih, hbyte, hdiv, hmod]
      rfl
  | case2 ns hshort =>
      rcases ns with _ | ⟨high, _ | ⟨low, rest⟩⟩
      · rfl
      · simp at heven
      · exact absurd rfl (hshort high low rest)

theorem length_of_map_lower {text b : Bytes} (h : text.map lower = encodeBytes b) :
    text.length = 2 * b.length := by
  rw [← length_encodeBytes, ← h, List.length_map]

/-- **A byte string is read as the bytes that it is written for**, up to the case of its digits. -/
theorem decode_eq_ok_iff {text b : Bytes} :
    decode text = .ok b ↔ text.map lower = encodeBytes b := by
  have hvalues : (decode text = .ok b) ↔
      text.length % 2 = 0 ∧ ∃ ns, values 0 text = .ok ns ∧ pairs ns = b := by
    rw [decode]
    by_cases hodd : text.length % 2 = 1
    · simp [hodd]
    · rw [if_neg hodd]
      have heven : text.length % 2 = 0 := by omega
      cases values 0 text <;> simp [Except.map, heven]
  rw [hvalues]
  constructor
  · rintro ⟨heven, ns, hns, rfl⟩
    obtain ⟨hlt, htext⟩ := values_eq_ok_iff.1 hns
    have hlen : ns.length = text.length := by
      simpa using (congrArg List.length htext).symm
    rw [htext, encodeBytes_pairs hlt (hlen ▸ heven)]
  · intro htext
    have hlen := length_of_map_lower htext
    refine ⟨by omega, _, values_eq_ok_iff.2 ⟨?_, ?_⟩, pairs_halves b⟩
    · exact (values_eq_ok_iff.1 (values_encodeBytes b 0)).1
    · rw [htext, encodeBytes, List.map_flatMap]
      rfl

/-- The fault of a byte string: its length is odd, or else it has a first byte that is no digit. -/
def Fault.Of (text : Bytes) : Fault → Prop
  | .oddLength => text.length % 2 = 1
  | .badDigit x index => text.length % 2 = 0 ∧
      ∃ pre post, text = pre ++ x :: post ∧ pre.length = index ∧ Foreign x ∧ ∀ y ∈ pre, ¬ Foreign y

/-- **A byte string is refused for its fault.** -/
theorem decode_eq_error_iff {text : Bytes} {f : Fault} : decode text = .error f ↔ f.Of text := by
  rw [decode]
  by_cases hodd : text.length % 2 = 1
  · rw [if_pos hodd]
    cases f with
    | oddLength => simpa [Fault.Of] using hodd
    | badDigit x index => simp [Fault.Of, hodd]
  · rw [if_neg hodd]
    have heven : text.length % 2 = 0 := by omega
    rw [map_eq_error_iff, values_eq_error_iff]
    cases f with
    | oddLength => simp [Fault.Of, hodd]
    | badDigit x index =>
        constructor
        · rintro ⟨pre, y, post, htext, hy, hpre, hf⟩
          cases hf
          exact ⟨heven, pre, post, htext, (Nat.zero_add _).symm, hy, hpre⟩
        · rintro ⟨-, pre, post, htext, rfl, hx, hpre⟩
          exact ⟨pre, x, post, htext, hx, hpre, by rw [Nat.zero_add]⟩

/-- What is read at all is an even number of digits. -/
theorem exists_decode_eq_ok_iff {text : Bytes} :
    (∃ b, decode text = .ok b) ↔ text.length % 2 = 0 ∧ ∀ x ∈ text, ¬ Foreign x := by
  constructor
  · rintro ⟨b, h⟩
    have htext := decode_eq_ok_iff.1 h
    have hlen := length_of_map_lower htext
    refine ⟨by omega, ?_⟩
    intro x hx
    obtain ⟨n, hn, hdigit⟩ := mem_encodeBytes (htext ▸ List.mem_map_of_mem hx)
    exact not_foreign_of_value? (value?_eq_some_iff.2 ⟨hn, hdigit⟩)
  · rintro ⟨heven, hknown⟩
    cases h : decode text with
    | ok b => exact ⟨b, rfl⟩
    | error f =>
        have hf := decode_eq_error_iff.1 h
        cases f with
        | oddLength =>
            have hodd : text.length % 2 = 1 := hf
            omega
        | badDigit x index =>
            obtain ⟨-, pre, post, rfl, -, hx, -⟩ := hf
            exact absurd hx (hknown x (by simp))

end Hex

/-! ## Characters and their bytes -/

/-- Each of the first 128 characters is one byte. -/
theorem utf8EncodeChar_of_lt {c : Char} (h : c.toNat < 128) :
    String.utf8EncodeChar c = [.ofNat c.toNat] :=
  if_pos (Nat.le_of_lt_succ h)

/-- Behind the first 128 characters, no byte of a character is one of theirs. -/
theorem le_of_mem_utf8EncodeChar {c : Char} (h : 128 ≤ c.toNat) {x : UInt8}
    (hx : x ∈ String.utf8EncodeChar c) : 128 ≤ x.toNat := by
  have hc : ¬ c.val.toNat ≤ 127 := Nat.not_le_of_lt h
  unfold String.utf8EncodeChar at hx
  simp only [if_neg hc] at hx
  split at hx
  · simp only [List.mem_cons, List.not_mem_nil, or_false] at hx
    rcases hx with rfl | rfl <;> rw [UInt8.toNat_ofNat'] <;> omega
  · split at hx
    · simp only [List.mem_cons, List.not_mem_nil, or_false] at hx
      rcases hx with rfl | rfl | rfl <;> rw [UInt8.toNat_ofNat'] <;> omega
    · simp only [List.mem_cons, List.not_mem_nil, or_false] at hx
      rcases hx with rfl | rfl | rfl | rfl <;> rw [UInt8.toNat_ofNat'] <;> omega

/-- A statement about characters that is decided for the first 128 of them. -/
theorem forall_ascii {P : Char → Prop} (h : ∀ i : Fin 128, P (.ofNat i)) {c : Char}
    (hc : c.toNat < 128) : P c := by
  have hc' := h ⟨c.toNat, hc⟩
  rwa [Char.ofNat_toNat] at hc'

theorem utf8EncodeChar_toLower (c : Char) :
    String.utf8EncodeChar c.toLower = (String.utf8EncodeChar c).map Hex.lower := by
  by_cases hc : c.toNat < 128
  · exact forall_ascii (P := fun c => String.utf8EncodeChar c.toLower =
      (String.utf8EncodeChar c).map Hex.lower) (by decide +kernel) hc
  · have hupper : ¬ (c.val ≥ 'A'.val ∧ c.val ≤ 'Z'.val) := by
      rintro ⟨-, hle⟩
      have hle : c.toNat ≤ 90 := hle
      omega
    have hlower : c.toLower = c := dif_neg hupper
    have hbytes : ∀ x ∈ String.utf8EncodeChar c, Hex.lower x = x := by
      intro x hx
      have hx := le_of_mem_utf8EncodeChar (Nat.le_of_not_lt hc) hx
      refine if_neg ?_
      rintro ⟨-, hle⟩
      have hle : x.toNat ≤ 90 := hle
      omega
    rw [hlower, List.map_congr_left hbytes, List.map_id']

namespace Bytes

/-- **Lower case can be taken of a text or of its bytes.** -/
theorem ofString_toLower (text : String) : ofString text.toLower = (ofString text).map Hex.lower := by
  have htext : text.toLower.toList = text.toList.map Char.toLower := String.toList_map
  rw [ofString, ofString, htext, List.flatMap_map, List.map_flatMap]
  exact congrArg (List.flatMap · text.toList) (funext utf8EncodeChar_toLower)

/-- **The bytes tell texts apart.** -/
theorem ofString_inj {s t : String} : ofString s = ofString t ↔ s = t := by
  rw [ofString_eq, ofString_eq, Array.toList_inj, ← ByteArray.ext_iff, String.toByteArray_inj]

end Bytes

namespace Hex

/-! ## The mark -/

/-- The text without one mark in front. -/
def unmarked (text : String) : String :=
  match text.toList with
  | '0' :: 'x' :: rest => .ofList rest
  | _ => text

theorem unmarked_mark (text : String) : unmarked ("0x" ++ text) = text := by
  have htext : ("0x" ++ text).toList = '0' :: 'x' :: text.toList := String.toList_append
  rw [unmarked, htext]
  exact String.ofList_toList

/-- A byte of the first 128 in front of a text is its first character. -/
theorem toList_of_ofString_eq_cons {text : String} {x : UInt8} {rest : Bytes} (hx : x.toNat < 128)
    (h : Bytes.ofString text = x :: rest) :
    ∃ tail, text.toList = .ofNat x.toNat :: tail ∧ Bytes.ofString (.ofList tail) = rest := by
  rw [Bytes.ofString] at h
  cases htext : text.toList with
  | nil =>
      rw [htext] at h
      cases h
  | cons c tail =>
      rw [htext, List.flatMap_cons] at h
      by_cases hc : c.toNat < 128
      · rw [utf8EncodeChar_of_lt hc] at h
        obtain ⟨rfl, rfl⟩ := List.cons.inj h
        refine ⟨tail, ?_, ?_⟩
        · rw [UInt8.toNat_ofNat', Nat.mod_eq_of_lt (by omega), Char.ofNat_toNat]
        · rw [Bytes.ofString, String.toList_ofList]
          rfl
      · -- The byte would be the first of a longer sequence, and those are never below 128.
        have hmem : x ∈ String.utf8EncodeChar c := by
          obtain ⟨y, ys, hbytes⟩ := List.exists_cons_of_ne_nil (String.utf8EncodeChar_ne_nil (c := c))
          rw [hbytes] at h ⊢
          rw [(List.cons.inj h).1]
          exact List.mem_cons_self
        have := le_of_mem_utf8EncodeChar (Nat.le_of_not_lt hc) hmem
        omega

/-- **The mark is dropped from the bytes of a text as it is from the text.** -/
theorem dropMark_ofString (text : String) :
    dropMark (Bytes.ofString text) = Bytes.ofString (unmarked text) := by
  by_cases h : ∃ rest, Bytes.ofString text = 48 :: 120 :: rest
  · obtain ⟨rest, h⟩ := h
    obtain ⟨tail, hfirst, htail⟩ := toList_of_ofString_eq_cons (by decide) h
    obtain ⟨tail', hsecond, hrest⟩ := toList_of_ofString_eq_cons (by decide) htail
    rw [String.toList_ofList] at hsecond
    have htext : text.toList = '0' :: 'x' :: tail' := by rw [hfirst, hsecond]; rfl
    rw [h, unmarked, htext]
    exact hrest.symm
  · have hdrop : dropMark (Bytes.ofString text) = Bytes.ofString text := by
      unfold dropMark
      split
      · exact absurd ⟨_, ‹_›⟩ h
      · rfl
    have htext : unmarked text = text := by
      unfold unmarked
      split
      · rename_i rest htext
        refine absurd ⟨Bytes.ofString (.ofList rest), ?_⟩ h
        rw [Bytes.ofString, htext, Bytes.ofString, String.toList_ofList]
        rfl
      · rfl
    rw [hdrop, htext]

/-! ## Spellings -/

/-- `text` is what is written for `b`, up to the case of its letters. -/
def Spells (text : String) (b : Bytes) : Prop := text.toLower = encode b

/-- **A text is read as the bytes that it spells.** -/
theorem decode_ofString_eq_ok_iff {text : String} {b : Bytes} :
    decode (Bytes.ofString text) = .ok b ↔ Spells text b := by
  rw [decode_eq_ok_iff, ← Bytes.ofString_toLower, ← ofString_encode, Bytes.ofString_inj]
  rfl

/-- No text spells two byte strings. -/
theorem Spells.unique {text : String} {a b : Bytes} (ha : Spells text a) (hb : Spells text b) :
    a = b :=
  Except.ok.inj ((decode_ofString_eq_ok_iff.2 ha).symm.trans (decode_ofString_eq_ok_iff.2 hb))

theorem spells_encode (b : Bytes) : Spells (encode b) b :=
  decode_ofString_eq_ok_iff.1 (decode_ofString_encode b)

theorem forall_mem_utf8EncodeChar_iff {c : Char} :
    (∀ x ∈ String.utf8EncodeChar c, ¬ Foreign x) ↔ c ∈ digits := by
  simp only [← value?_eq_none_iff]
  by_cases hc : c.toNat < 128
  · rw [utf8EncodeChar_of_lt hc, List.forall_mem_singleton]
    exact forall_ascii (P := fun c => ¬ value? (.ofNat c.toNat) = none ↔ c ∈ digits)
      (by decide +kernel) hc
  · have hdigits : digits.all (·.toNat < 128) = true := by decide
    have hvalue : ∀ x : UInt8, ¬ value? x = none → x.toNat < 128 := forall_byte (by decide +kernel)
    constructor
    · intro h
      obtain ⟨x, hmem⟩ := List.exists_mem_of_ne_nil _ (String.utf8EncodeChar_ne_nil (c := c))
      have hle := le_of_mem_utf8EncodeChar (Nat.le_of_not_lt hc) hmem
      exact absurd (hvalue x (h x hmem)) (Nat.not_lt_of_le hle)
    · intro h
      exact absurd (of_decide_eq_true (List.all_eq_true.1 hdigits c h)) hc

/-- The bytes of a text are digits when its characters are. -/
theorem forall_mem_ofString_iff {text : String} :
    (∀ x ∈ Bytes.ofString text, ¬ Foreign x) ↔ ∀ c ∈ text.toList, c ∈ digits := by
  simp only [← forall_mem_utf8EncodeChar_iff, Bytes.ofString, List.mem_flatMap]
  grind

theorem length_ofString_of_digits {text : String} (h : ∀ c ∈ text.toList, c ∈ digits) :
    (Bytes.ofString text).length = text.length := by
  have hsingle : digits.all (fun c => (String.utf8EncodeChar c).length = 1) = true := by decide
  rw [← String.length_toList, Bytes.ofString]
  generalize text.toList = cs at h
  induction cs with
  | nil => rfl
  | cons c cs ih =>
      rw [List.forall_mem_cons] at h
      have hc := of_decide_eq_true (List.all_eq_true.1 hsingle c h.1)
      rw [List.flatMap_cons, List.length_append, hc, ih h.2, List.length_cons,
        Nat.add_comm]

/-- **The texts that spell something are those of an even number of digits.** -/
theorem exists_spells_iff {text : String} :
    (∃ b, Spells text b) ↔ text.length % 2 = 0 ∧ ∀ c ∈ text.toList, c ∈ digits := by
  simp only [← decode_ofString_eq_ok_iff, exists_decode_eq_ok_iff, forall_mem_ofString_iff]
  constructor
  · rintro ⟨heven, hdigits⟩
    exact ⟨length_ofString_of_digits hdigits ▸ heven, hdigits⟩
  · rintro ⟨heven, hdigits⟩
    exact ⟨(length_ofString_of_digits hdigits).symm ▸ heven, hdigits⟩

/-- A text that spells nothing has a fault. -/
theorem exists_spells_or_fault (text : String) :
    (∃ b, Spells text b) ∨ ∃ f : Fault, f.Of (Bytes.ofString text) := by
  cases h : decode (Bytes.ofString text) with
  | ok b => exact .inl ⟨b, decode_ofString_eq_ok_iff.1 h⟩
  | error f => exact .inr ⟨f, decode_eq_error_iff.1 h⟩

/-- A text that spells something has none. -/
theorem Spells.not_fault {text : String} {b : Bytes} (h : Spells text b) (f : Fault) :
    ¬ f.Of (Bytes.ofString text) := by
  intro hf
  cases (decode_eq_error_iff.2 hf).symm.trans (decode_ofString_eq_ok_iff.2 h)

theorem Spells.length {text : String} {b : Bytes} (h : Spells text b) :
    text.length = 2 * b.length := by
  have hdigits := (exists_spells_iff.1 ⟨b, h⟩).2
  rw [← length_ofString_of_digits hdigits]
  exact length_of_map_lower (decode_eq_ok_iff.1 (decode_ofString_eq_ok_iff.2 h))

/-- A spelling has no mark. -/
theorem Spells.unmarked_eq {text : String} {b : Bytes} (h : Spells text b) :
    unmarked text = text := by
  unfold unmarked
  split
  · rename_i rest htext
    have hx : 'x' ∈ digits := (exists_spells_iff.1 ⟨b, h⟩).2 'x' (by simp [htext])
    exact absurd hx (by decide)
  · rfl

/-- A spelling, marked or not, is behind its mark the spelling. -/
theorem Spells.unmarked_of_mem {text u : String} {b : Bytes} (h : Spells u b)
    (htext : text ∈ [u, "0x" ++ u]) : Spells (unmarked text) b := by
  simp only [List.mem_cons, List.not_mem_nil, or_false] at htext
  rcases htext with rfl | rfl
  · rwa [h.unmarked_eq]
  · rwa [unmarked_mark]

end Hex

/-! ## Digests -/

namespace Digest

open Hex

/-- The fault of a text behind the mark: that of its bytes, or the number of bytes that it spells. -/
def TextFault.Of (text : String) : TextFault → Prop
  | .hex fault => fault.Of (Bytes.ofString text)
  | .length got => got ≠ 32 ∧ text.length = 2 * got ∧ ∀ c ∈ text.toList, c ∈ digits

theorem ofText_of_spells {text : String} {b : Bytes} (h : Spells (unmarked text) b) :
    ofText text = match Octets.ofBytes? 32 b with
      | some d => .ok d
      | none => .error (.length b.length) := by
  cases hd : Octets.ofBytes? 32 b with
  | none => simp [ofText, dropMark_ofString, decode_ofString_eq_ok_iff.2 h, hd]
  | some d => simp [ofText, dropMark_ofString, decode_ofString_eq_ok_iff.2 h, hd]

theorem ofText_of_fault {text : String} {f : Hex.Fault}
    (h : f.Of (Bytes.ofString (unmarked text))) : ofText text = .error (.hex f) := by
  rw [ofText, dropMark_ofString, decode_eq_error_iff.2 h]

/-- **A text is read as the digest that it spells.** -/
theorem ofText_eq_ok_iff {text : String} {d : Digest} :
    ofText text = .ok d ↔ Spells (unmarked text) d.toList := by
  constructor
  · intro h
    rcases exists_spells_or_fault (unmarked text) with ⟨b, hb⟩ | ⟨f, hf⟩
    · rw [ofText_of_spells hb] at h
      cases hd : Octets.ofBytes? 32 b with
      | none =>
          rw [hd] at h
          cases h
      | some e =>
          rw [hd] at h
          cases h
          rwa [Octets.ofBytes?_eq_some_iff.1 hd]
    · rw [ofText_of_fault hf] at h
      cases h
  · intro h
    rw [ofText_of_spells h, Octets.ofBytes?_toList]

/-- **A text is refused for its fault.** -/
theorem ofText_eq_error_iff {text : String} {f : TextFault} :
    ofText text = .error f ↔ f.Of (unmarked text) := by
  rcases exists_spells_or_fault (unmarked text) with ⟨b, hb⟩ | ⟨g, hg⟩
  · rw [ofText_of_spells hb]
    have hlen := hb.length
    have hdigits := (exists_spells_iff.1 ⟨b, hb⟩).2
    cases hd : Octets.ofBytes? 32 b with
    | some d =>
        have h32 : b.length = 32 := by rw [← Octets.ofBytes?_eq_some_iff.1 hd, Vector.length_toList]
        cases f with
        | hex g => simp [TextFault.Of, hb.not_fault g]
        | length got =>
            simp only [TextFault.Of, reduceCtorEq, false_iff]
            rintro ⟨hgot, hlen', -⟩
            omega
    | none =>
        have h32 := Octets.ofBytes?_eq_none_iff.1 hd
        cases f with
        | hex g => simp [TextFault.Of, hb.not_fault g]
        | length got =>
            constructor
            · rintro ⟨rfl⟩
              exact ⟨h32, hlen, hdigits⟩
            · rintro ⟨hgot, hlen', -⟩
              have hsame : got = b.length := by omega
              rw [hsame]
  · rw [ofText_of_fault hg]
    cases f with
    | hex f =>
        constructor
        · rintro ⟨rfl⟩
          exact hg
        · intro hf
          cases (decode_eq_error_iff.2 hf).symm.trans (decode_eq_error_iff.2 hg)
          rfl
    | length got =>
        simp only [Except.error.injEq, reduceCtorEq, false_iff]
        rintro ⟨-, hlen, hdigits⟩
        obtain ⟨b, hb⟩ := exists_spells_iff.2 ⟨by omega, hdigits⟩
        exact hb.not_fault g hg

/-- The mark is taken off once, and what is left of it is the first thing that is wrong. -/
example : ofText "0x0x" = .error (.hex (.badDigit 120 1)) := rfl

/-- The texts of digests, of whichever, are those of 64 digits. -/
theorem exists_ofText_eq_ok_iff {text : String} :
    (∃ d, ofText text = .ok d) ↔
      (unmarked text).length = 64 ∧ ∀ c ∈ (unmarked text).toList, c ∈ digits := by
  simp only [ofText_eq_ok_iff]
  constructor
  · rintro ⟨d, h⟩
    have hlen : d.toList.length = 32 := Vector.length_toList
    have htext := h.length
    exact ⟨by omega, (exists_spells_iff.1 ⟨_, h⟩).2⟩
  · rintro ⟨hlen, hdigits⟩
    obtain ⟨b, hb⟩ := exists_spells_iff.2 ⟨by omega, hdigits⟩
    have hb32 : b.length = 32 := by
      have := hb.length
      omega
    exact ⟨Octets.ofBytes b hb32, hb⟩

end Digest

/-- **The texts of digests are their spellings.** Behind one mark, a text is a digest exactly when it
has 64 digits of either case, and then the digest is written as the text in lower case. Any other
text is refused for its fault: an odd number of bytes, or else the first byte that is no digit, or
else the number of bytes that it spells. What is written for a digest reads back, in any mix of
cases, marked or not; and two texts are one digest when they differ in no more than that. -/
theorem digest_texts_are_spellings (text : String) :
    let t := Hex.unmarked text
    ((∃ d, Digest.ofText text = .ok d) ↔ t.length = 64 ∧ ∀ c ∈ t.toList, c ∈ Hex.digits) ∧
    (∀ d, Digest.ofText text = .ok d → d.toText = t.toLower) ∧
    (∀ f, Digest.ofText text = .error f ↔ f.Of t) ∧
    (∀ got, (Digest.TextFault.length got).message =
      "invalid hex length: expected 32 bytes, got " ++ toString got ++ " bytes") ∧
    (∀ d : Digest, d.toText.toLower = d.toText ∧ ∀ u, u.toLower = d.toText →
      Digest.ofText u = .ok d ∧ Digest.ofText ("0x" ++ u) = .ok d) ∧
    (∀ other d e, Digest.ofText text = .ok d → Digest.ofText other = .ok e →
      (d = e ↔ t.toLower = (Hex.unmarked other).toLower)) := by
  intro t
  refine ⟨Digest.exists_ofText_eq_ok_iff, ?_, fun f => Digest.ofText_eq_error_iff, ?_, ?_, ?_⟩
  · intro d h
    exact (Digest.ofText_eq_ok_iff.1 h).symm
  · intro got
    rfl
  · intro d
    refine ⟨Hex.spells_encode d.toList, ?_⟩
    intro u hu
    have hspells : Hex.Spells u d.toList := hu
    constructor
    · exact Digest.ofText_eq_ok_iff.2 (hspells.unmarked_of_mem List.mem_cons_self)
    · exact Digest.ofText_eq_ok_iff.2 (hspells.unmarked_of_mem (by simp))
  · intro other d e hd he
    have htext : t.toLower = d.toText := Digest.ofText_eq_ok_iff.1 hd
    have hother : (Hex.unmarked other).toLower = e.toText := Digest.ofText_eq_ok_iff.1 he
    constructor
    · rintro rfl
      rw [htext, hother]
    · intro h
      have hspells : Hex.Spells t e.toList := h.trans hother
      exact Vector.toList_inj.1 (Hex.Spells.unique htext hspells)

end HeaderWork
