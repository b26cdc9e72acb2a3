/-!
# Byte strings, spans and little-endian numbers

* `Bytes` — a buffer of any length; `Octets n` — exactly `n` bytes.
* `Span` — an offset and a length; `Bytes.slice` cuts it out of a buffer.
* `Bytes.overlay` — bytes laid over a buffer that keeps its length (`length_overlay`); `Bytes.blank`
  lays zeros over a span.
* `Bytes.ofString` — the UTF-8 bytes of a text.
* `getElem?_slice`, `getElem?_overlay`, `getElem?_blank` — what stands at each index afterwards.
* `LittleEndian.value`, `LittleEndian.digits` — the number that a byte string spells, least
  significant byte first, and the bytes that spell a number; `toUInt16`, `toUInt32` and `ofUInt16`,
  `ofUInt32`, `ofUInt64` — the same for words of two, four and eight bytes.
-/

namespace HeaderWork

/-- A buffer of bytes. -/
abbrev Bytes := List UInt8

/-- Exactly `n` bytes. -/
abbrev Octets (n : Nat) := Vector UInt8 n

/-! ## Spans -/

/-- `len` bytes from `offset` on. -/
structure Span where
  offset : Nat
  len : Nat
deriving DecidableEq, Repr

namespace Span

/-- The first offset behind the span. -/
def stop (s : Span) : Nat := s.offset + s.len

/-- Offsets are 64-bit words, so a span whose end is no such word fits nowhere; any other fits a
buffer of `size` bytes when it ends inside it. -/
def Fits (s : Span) (size : Nat) : Prop := s.stop < UInt64.size ∧ s.stop ≤ size

instance (s : Span) (size : Nat) : Decidable (s.Fits size) :=
  inferInstanceAs (Decidable (_ ∧ _))

instance : Membership Nat Span where
  mem s i := s.offset ≤ i ∧ i < s.stop

instance (s : Span) (i : Nat) : Decidable (i ∈ s) :=
  inferInstanceAs (Decidable (_ ∧ _))

theorem mem_iff {s : Span} {i : Nat} : i ∈ s ↔ s.offset ≤ i ∧ i < s.offset + s.len := Iff.rfl

/-- The same bytes seen from a point `base` bytes further left. -/
def shift (s : Span) (base : Nat) : Span := ⟨base + s.offset, s.len⟩

end Span

/-! ## Fixed widths -/

namespace Octets

variable {n : Nat}

/-- A byte string of the right length, as a fixed width. -/
def ofBytes (b : Bytes) (h : b.length = n) : Octets n := ⟨b.toArray, by simpa using h⟩

@[simp] theorem toList_ofBytes (b : Bytes) (h : b.length = n) : (ofBytes b h).toList = b := rfl

/-- A byte string as `n` bytes, when it has that length. -/
def ofBytes? (n : Nat) (b : Bytes) : Option (Octets n) :=
  if h : b.length = n then some (ofBytes b h) else none

@[simp] theorem ofBytes?_toList (v : Octets n) : ofBytes? n v.toList = some v := by
  have h : v.toList.length = n := Vector.length_toList
  rw [ofBytes?, dif_pos h]
  exact congrArg some (Vector.toList_inj.1 (toList_ofBytes v.toList h))

theorem ofBytes?_eq_some_iff {b : Bytes} {v : Octets n} : ofBytes? n b = some v ↔ v.toList = b := by
  constructor
  · intro h
    unfold ofBytes? at h
    split at h
    · cases h
      rfl
    · cases h
  · rintro rfl
    exact ofBytes?_toList v

theorem ofBytes?_eq_none_iff {b : Bytes} : ofBytes? n b = none ↔ b.length ≠ n := by
  unfold ofBytes?
  split <;> simp_all

def zero (n : Nat) : Octets n := Vector.replicate n 0

def isZero (v : Octets n) : Bool := v.toList.all (· == 0)

theorem isZero_iff {v : Octets n} : v.isZero = true ↔ v = zero n := by
  rw [← Vector.toList_inj, zero, Vector.toList_replicate, List.eq_replicate_iff, isZero,
    List.all_eq_true]
  simp only [beq_iff_eq, Vector.length_toList, true_and]

end Octets

namespace Bytes

/-! ## Text -/

def ofString (text : String) : Bytes := text.toList.flatMap String.utf8EncodeChar

theorem ofString_eq (text : String) : ofString text = text.toByteArray.data.toList := by
  rw [← String.utf8Encode_toList, ofString]
  simp [List.utf8Encode]

/-! ## Slices -/

/-- The bytes of `b` inside `s`. -/
def slice (b : Bytes) (s : Span) : Bytes := (b.drop s.offset).take s.len

theorem length_slice (b : Bytes) (s : Span) :
    (b.slice s).length = min s.len (b.length - s.offset) := by
  simp [slice]

theorem length_slice_of_fits {b : Bytes} {s : Span} (h : s.Fits b.length) :
    (b.slice s).length = s.len := by
  have h2 : s.offset + s.len ≤ b.length := h.2
  rw [length_slice]
  omega

theorem getElem?_slice (b : Bytes) (s : Span) (i : Nat) :
    (b.slice s)[i]? = if i < s.len then b[s.offset + i]? else none := by
  simp [slice, List.getElem?_take]

/-! ## Laying bytes over a buffer -/

/-- `data` laid over `b` from `start` on; `b` keeps its length, and what would stick out is cut. -/
def overlay (b : Bytes) (start : Nat) (data : Bytes) : Bytes :=
  b.take start ++ (data.take (b.length - start) ++ b.drop (start + data.length))

@[simp] theorem length_overlay (b : Bytes) (start : Nat) (data : Bytes) :
    (b.overlay start data).length = b.length := by
  simp [overlay]
  omega

theorem getElem?_overlay (b : Bytes) (start : Nat) (data : Bytes) (i : Nat) :
    (b.overlay start data)[i]? =
      if start ≤ i ∧ i < start + data.length ∧ i < b.length then data[i - start]? else b[i]? := by
  simp only [overlay, List.getElem?_append, List.length_take, List.getElem?_take,
    List.getElem?_drop]
  by_cases hb : i < b.length
  · by_cases h1 : i < start
    · rw [if_pos (by omega), if_pos h1, if_neg (by omega)]
    · by_cases h2 : i < start + data.length
      · rw [if_neg (by omega), if_pos (by omega), if_pos (by omega), if_pos (by omega)]
        congr 1
        omega
      · rw [if_neg (by omega), if_neg (by omega), if_neg (by omega)]
        congr 1
        omega
  · rw [if_neg (by omega), if_neg (by omega), if_neg (by omega),
      List.getElem?_eq_none (by omega), List.getElem?_eq_none (by omega)]

/-- Zeros laid over the span `s`. -/
def blank (b : Bytes) (s : Span) : Bytes := b.overlay s.offset (List.replicate s.len 0)

@[simp] theorem length_blank (b : Bytes) (s : Span) : (b.blank s).length = b.length := by
  simp [blank]

theorem getElem?_blank (b : Bytes) (s : Span) (i : Nat) :
    (b.blank s)[i]? = if i ∈ s ∧ i < b.length then some 0 else b[i]? := by
  rw [blank, getElem?_overlay, List.length_replicate]
  by_cases h : s.offset ≤ i ∧ i < s.offset + s.len ∧ i < b.length
  · rw [if_pos h, if_pos ⟨⟨h.1, h.2.1⟩, h.2.2⟩, List.getElem?_replicate, if_pos (by omega)]
  · rw [if_neg h, if_neg (fun k => h ⟨k.1.1, k.1.2, k.2⟩)]

end Bytes

namespace Octets

variable {n : Nat}

/-- `data` laid over `v` from `start` on, where there is room for all of it. -/
def write (v : Octets n) (start : Nat) (data : Bytes) (_room : start + data.length ≤ n) :
    Octets n :=
  ofBytes (Bytes.overlay v.toList start data) (by simp)

@[simp] theorem toList_write (v : Octets n) (start : Nat) (data : Bytes)
    (room : start + data.length ≤ n) :
    (v.write start data room).toList = Bytes.overlay v.toList start data := rfl

end Octets

namespace LittleEndian

/-! ## Little-endian numbers -/

/-- Byte `k` counts `256 ^ k` times. -/
def value : Bytes → Nat
  | [] => 0
  | x :: rest => x.toNat + 256 * value rest

/-- The `w` lowest digits of `n` to base 256. -/
def digits : Nat → Nat → Bytes
  | 0, _ => []
  | w + 1, n => UInt8.ofNat n :: digits w (n / 256)

@[simp] theorem length_digits (w n : Nat) : (digits w n).length = w := by
  induction w generalizing n with
  | zero => rfl
  | succ w ih => simp [digits, ih]

/-- The `w` bytes that spell `n`. -/
def octets (w n : Nat) : Octets w := Octets.ofBytes (digits w n) (length_digits w n)

def toUInt16 (v : Octets 2) : UInt16 := .ofNat (value v.toList)

def toUInt32 (v : Octets 4) : UInt32 := .ofNat (value v.toList)

def ofUInt16 (x : UInt16) : Octets 2 := octets 2 x.toNat

def ofUInt32 (x : UInt32) : Octets 4 := octets 4 x.toNat

def ofUInt64 (x : UInt64) : Octets 8 := octets 8 x.toNat

end LittleEndian

end HeaderWork
