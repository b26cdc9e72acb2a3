import HeaderWork.Bytes

/-!
# Hexadecimal text

Bytes as pairs of hexadecimal digits, high half first.

* `Hex.encode` — writes lower case.
* `Hex.decode` — reads either case; an odd number of bytes is refused before any digit is looked at,
  and otherwise the first byte that is no digit is the fault.
* `Hex.decode_ofString_encode` — what is written reads back, and `Hex.mem_lowerDigits_of_mem_encode`
  is in lower case.
* `Hex.dropMark` — a leading `0x`, which may stand in front of digits, taken off once.
* `Quoted.character` — the byte that a message complains of, shown between single quotes: short
  escapes for the usual control characters, the quote and the backslash, the number for anything
  that has no shape of its own. `Quoted.braced` — a text between braces.
-/

namespace HeaderWork

/-! ## A byte shown as a quoted character -/

namespace Quoted

/-- A text between braces. -/
def braced (text : String) : String := String.singleton '{' ++ text ++ String.singleton '}'

@[simp] theorem braced_inj {s t : String} : braced s = braced t ↔ s = t := by
  rw [braced, braced, String.append_left_inj, String.append_right_inj]

/-- Control characters, the blank that does not break, and the soft hyphen. -/
def hidden (x : UInt8) : Bool := x < 32 || (127 ≤ x && x ≤ 160) || x == 173

def shortEscape? (x : UInt8) : Option String :=
  if x = 0 then some "\\0"
  else if x = 9 then some "\\t"
  else if x = 10 then some "\\n"
  else if x = 13 then some "\\r"
  else if x = 39 then some "\\'"
  else if x = 92 then some "\\\\"
  else none

/-- What stands between the quotes. -/
def body (x : UInt8) : String :=
  match shortEscape? x with
  | some escape => escape
  | none =>
    if hidden x then "\\u" ++ braced (String.ofList (Nat.toDigits 16 x.toNat))
    else String.ofList [Char.ofNat x.toNat]

def character (x : UInt8) : String := "'" ++ body x ++ "'"

end Quoted

namespace Hex

/-! ## Digits -/

/-- The byte of the digit for `n`, which is below sixteen. -/
def digit (n : Nat) : UInt8 := if n < 10 then .ofNat (48 + n) else .ofNat (87 + n)

/-- The number that a digit of either case stands for. -/
def value? (x : UInt8) : Option Nat :=
  if 48 ≤ x ∧ x ≤ 57 then some (x.toNat - 48)
  else if 97 ≤ x ∧ x ≤ 102 then some (x.toNat - 87)
  else if 65 ≤ x ∧ x ≤ 70 then some (x.toNat - 55)
  else none

theorem value?_digit {n : Nat} (h : n < 16) : value? (digit n) = some n := by
  have all : ∀ i : Fin 16, value? (digit i.val) = some i.val := by decide
  exact all ⟨n, h⟩

/-! ## Writing -/

/-- Two digits for every byte. -/
def encodeBytes (b : Bytes) : Bytes :=
  b.flatMap fun x => [digit (x.toNat / 16), digit (x.toNat % 16)]

def encode (b : Bytes) : String :=
  String.ofList ((encodeBytes b).map fun x => Char.ofNat x.toNat)

/-! ## Reading -/

/-- What is wrong with a text that is not hexadecimal. -/
inductive Fault where
  | oddLength
  | badDigit (byte : UInt8) (index : Nat)
deriving DecidableEq, Repr

def Fault.text : Fault → String
  | .oddLength => "Odd number of digits"
  | .badDigit byte index =>
    "Invalid character " ++ Quoted.character byte ++ " at position " ++ toString index

/-- The values of all digits; the first byte that is none, with its index, is the fault. -/
def values (index : Nat) : Bytes → Except Fault (List Nat)
  | [] => .ok []
  | x :: rest =>
    match value? x with
    | none => .error (.badDigit x index)
    | some n => (values (index + 1) rest).map (n :: ·)

/-- Values taken two at a time, as bytes. -/
def pairs : List Nat → Bytes
  | high :: low :: rest => .ofNat (16 * high + low) :: pairs rest
  | _ => []

/-- The bytes that a text spells. -/
def decode (text : Bytes) : Except Fault Bytes :=
  if text.length % 2 = 1 then .error .oddLength else (values 0 text).map pairs

theorem values_encodeBytes (b : Bytes) (index : Nat) :
    values index (encodeBytes b) = .ok (b.flatMap fun x => [x.toNat / 16, x.toNat % 16]) := by
  induction b generalizing index with
  | nil => rfl
  | cons x rest ih =>
      have hx : x.toNat < 256 := x.toNat_lt
      have high := value?_digit (show x.toNat / 16 < 16 by omega)
      have low := value?_digit (show x.toNat % 16 < 16 by omega)
      have ih := ih (index + 1 + 1)
      simp only [encodeBytes, List.flatMap_cons, List.cons_append, List.nil_append, values, high,
        low] at ih ⊢
      rw [ih]
      rfl

theorem pairs_halves (b : Bytes) : pairs (b.flatMap fun x => [x.toNat / 16, x.toNat % 16]) = b := by
  induction b with
  | nil => rfl
  | cons x rest ih =>
      simp only [List.flatMap_cons, List.cons_append, List.nil_append, pairs, ih]
      rw [Nat.div_add_mod, UInt8.ofNat_toNat]

theorem length_encodeBytes (b : Bytes) : (encodeBytes b).length = 2 * b.length := by
  induction b with
  | nil => rfl
  | cons x rest ih =>
      rw [encodeBytes] at ih
      simp only [encodeBytes, List.flatMap_cons, List.length_append, ih, List.length_cons,
        List.length_nil]
      omega

theorem decode_encodeBytes (b : Bytes) : decode (encodeBytes b) = .ok b := by
  rw [decode, if_neg (by rw [length_encodeBytes]; omega), values_encodeBytes, Except.map,
    pairs_halves]

/-! ## Texts of digits -/

theorem utf8EncodeChar_digit {n : Nat} (h : n < 16) :
    String.utf8EncodeChar (Char.ofNat (digit n).toNat) = [digit n] := by
  have all : ∀ i : Fin 16,
      String.utf8EncodeChar (Char.ofNat (digit i.val).toNat) = [digit i.val] := by decide
  exact all ⟨n, h⟩

theorem mem_encodeBytes {b : Bytes} {x : UInt8} (h : x ∈ encodeBytes b) :
    ∃ n < 16, x = digit n := by
  simp only [encodeBytes, List.mem_flatMap, List.mem_cons, List.not_mem_nil, or_false] at h
  obtain ⟨y, -, rfl | rfl⟩ := h
  · have hy : y.toNat < 256 := y.toNat_lt
    exact ⟨_, by omega, rfl⟩
  · exact ⟨_, Nat.mod_lt _ (by decide), rfl⟩

/-- Each digit is a single byte of the text. -/
theorem ofString_encode (b : Bytes) : Bytes.ofString (encode b) = encodeBytes b := by
  have single : ∀ x ∈ encodeBytes b, String.utf8EncodeChar (Char.ofNat x.toNat) = [x] := by
    intro x hx
    obtain ⟨n, hn, rfl⟩ := mem_encodeBytes hx
    exact utf8EncodeChar_digit hn
  rw [Bytes.ofString, encode, String.toList_ofList, List.flatMap_map]
  generalize encodeBytes b = text at single ⊢
  induction text with
  | nil => rfl
  | cons x rest ih =>
      rw [List.flatMap_cons, single x List.mem_cons_self,
        ih fun y hy => single y (List.mem_cons_of_mem _ hy)]
      rfl

/-- **What is written reads back.** -/
theorem decode_ofString_encode (b : Bytes) : decode (Bytes.ofString (encode b)) = .ok b := by
  rw [ofString_encode, decode_encodeBytes]

theorem mem_lowerDigits_of_mem_encode {b : Bytes} {c : Char} (h : c ∈ (encode b).toList) :
    c ∈ "0123456789abcdef".toList := by
  rw [encode, String.toList_ofList, List.mem_map] at h
  obtain ⟨x, hx, rfl⟩ := h
  obtain ⟨n, hn, rfl⟩ := mem_encodeBytes hx
  have all : ∀ i : Fin 16, Char.ofNat (digit i.val).toNat ∈ "0123456789abcdef".toList := by decide
  exact all ⟨n, hn⟩

/-! ## The mark in front -/

/-- The text without one leading `0x`. -/
def dropMark : Bytes → Bytes
  | 48 :: 120 :: rest => rest
  | text => text

end Hex

end HeaderWork
