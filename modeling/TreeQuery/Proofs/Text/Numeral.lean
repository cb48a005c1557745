import TreeQuery.Text.Basic
import Mathlib.Data.List.Basic

/-!
# Decimal numerals

The numeral of a number is a non-empty string of digits and denotes the number: `ofNat_ne_nil`,
`isDigit_of_mem_ofNat`, `numeral_ofNat`. So different numbers have different numerals (`ofNat_injective`), also after a
common text (`append_ofNat_injective`).
-/

namespace TreeQuery.Text

set_option autoImplicit false

theorem toNat_toUInt8_of_isDigit {c : Char} (h : c.isDigit) : c.toUInt8.toNat = c.toNat := by
  have hc : c.toNat < 256 := Nat.lt_of_le_of_lt (Char.isDigit_iff_toNat.mp h).2 (by decide)
  rw [Char.toUInt8, UInt32.toNat_toUInt8]
  exact Nat.mod_eq_of_lt hc

theorem isDigit_toUInt8 {c : Char} (h : c.isDigit) : Byte.isDigit c.toUInt8 := by
  have hc := Char.isDigit_iff_toNat.mp h
  have hn := toNat_toUInt8_of_isDigit h
  simp only [Byte.isDigit, Bool.and_eq_true, decide_eq_true_eq, UInt8.le_iff_toNat_le, hn]
  exact hc

theorem isDigit_of_mem_ofNat {n : Nat} {b : UInt8} (h : b ∈ ofNat n) : Byte.isDigit b := by
  obtain ⟨c, hc, rfl⟩ := List.mem_map.mp h
  exact isDigit_toUInt8 (Nat.isDigit_of_mem_toDigits (by decide) (by decide) hc)

theorem ofNat_ne_nil (n : Nat) : ofNat n ≠ [] := by
  simp [ofNat, Nat.toDigits_ne_nil]

theorem numeral_ofNat (n : Nat) : (ofNat n).numeral = n := by
  have hdigits : ∀ a, ∀ c ∈ Nat.toDigits 10 n,
      10 * a + (c.toUInt8.toNat - 0x30) = 10 * a + (c.toNat - '0'.toNat) := by
    intro a c hc
    rw [toNat_toUInt8_of_isDigit (Nat.isDigit_of_mem_toDigits (by decide) (by decide) hc)]
    rfl
  rw [numeral, ofNat, List.foldl_map, List.foldl_ext _ _ _ hdigits, ← Nat.ofDigitChars_eq_foldl,
    Nat.ofDigitChars_ten_toDigits]

theorem ofNat_injective : Function.Injective ofNat := by
  intro m n h
  rw [← numeral_ofNat m, h, numeral_ofNat]

theorem append_ofNat_injective (t : Text) : Function.Injective (t ++ ofNat ·) := fun _ _ h =>
  ofNat_injective (List.append_cancel_left h)

end TreeQuery.Text
