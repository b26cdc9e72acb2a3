import HeaderWork.Bytes
import Mathlib.Algebra.Group.Nat.Defs

/-!
# Reading back little-endian numbers

* `value_lt` — the size of a number.
* `digits_value`, `value_digits` — each undoes the other on numbers of the width.
* `ofUInt16_toUInt16`, `toUInt16_ofUInt16`, `ofUInt32_toUInt32`, `toUInt32_ofUInt32` — the same for
  words of two and four bytes.
-/

namespace HeaderWork.LittleEndian

/-! ## Byte strings -/

theorem value_lt (b : Bytes) : value b < 256 ^ b.length := by
  induction b with
  | nil => simp [value]
  | cons x rest ih =>
      have hx : x.toNat < 256 := x.toNat_lt
      simp only [value, List.length_cons, Nat.pow_succ]
      omega

theorem value_digits {w n : Nat} (h : n < 256 ^ w) : value (digits w n) = n := by
  induction w generalizing n with
  | zero => simp at h; simp [digits, value, h]
  | succ w ih =>
      have hd : n / 256 < 256 ^ w := Nat.div_lt_of_lt_mul (by rw [Nat.pow_succ] at h; omega)
      simp only [digits, value, ih hd, UInt8.toNat_ofNat']
      omega

theorem digits_value (b : Bytes) : digits b.length (value b) = b := by
  induction b with
  | nil => rfl
  | cons x rest ih =>
      have hx : x.toNat < 256 := x.toNat_lt
      have hdiv : (x.toNat + 256 * value rest) / 256 = value rest := by omega
      simp only [List.length_cons, value, digits, hdiv, ih]
      congr 1
      apply UInt8.toNat_inj.1
      rw [UInt8.toNat_ofNat']
      omega

/-! ## Words -/

theorem octets_value {w : Nat} (v : Octets w) : octets w (value v.toList) = v := by
  rw [← Vector.toList_inj, octets, Octets.toList_ofBytes]
  simpa using digits_value v.toList

theorem value_toList_lt {w : Nat} (v : Octets w) : value v.toList < 256 ^ w := by
  simpa using value_lt v.toList

theorem toNat_toUInt16 (v : Octets 2) : (toUInt16 v).toNat = value v.toList := by
  have := value_toList_lt v
  rw [toUInt16, UInt16.toNat_ofNat', Nat.mod_eq_of_lt (by omega)]

theorem toNat_toUInt32 (v : Octets 4) : (toUInt32 v).toNat = value v.toList := by
  have := value_toList_lt v
  rw [toUInt32, UInt32.toNat_ofNat', Nat.mod_eq_of_lt (by omega)]

@[simp] theorem ofUInt16_toUInt16 (v : Octets 2) : ofUInt16 (toUInt16 v) = v := by
  rw [ofUInt16, toNat_toUInt16, octets_value]

@[simp] theorem ofUInt32_toUInt32 (v : Octets 4) : ofUInt32 (toUInt32 v) = v := by
  rw [ofUInt32, toNat_toUInt32, octets_value]

@[simp] theorem toUInt16_ofUInt16 (x : UInt16) : toUInt16 (ofUInt16 x) = x := by
  apply UInt16.toNat_inj.1
  rw [toNat_toUInt16, ofUInt16, octets, Octets.toList_ofBytes, value_digits x.toNat_lt]

@[simp] theorem toUInt32_ofUInt32 (x : UInt32) : toUInt32 (ofUInt32 x) = x := by
  apply UInt32.toNat_inj.1
  rw [toNat_toUInt32, ofUInt32, octets, Octets.toList_ofBytes, value_digits x.toNat_lt]

end HeaderWork.LittleEndian
