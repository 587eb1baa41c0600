import Mathlib.Data.List.Basic
import Needlework.Text.Basic

/-!
# Decimal numerals

A natural number is written with the decimal digits and nothing else, and it can be read off them
(`ofNat_injective`).  A numeral of more than one digit does not start with a zero.  An integer has a
minus sign in front where it is negative, so it can be read off its text, too (`ofInt_injective`).
-/

namespace Needlework.Text

variable {c : CodePoint} {n : Nat} {i : Int}

theorem bounds_of_mem_ofNat (h : c ∈ ofNat n) : 0x30 ≤ c ∧ c ≤ 0x39 := by
  obtain ⟨d, hd, rfl⟩ := List.mem_map.1 h
  have digit := Nat.isDigit_of_mem_toDigits (by decide) (by decide) hd
  exact Char.isDigit_iff_toNat.1 digit

theorem ofNat_ne_nil (n : Nat) : ofNat n ≠ [] := by
  rw [ofNat, ne_eq, List.map_eq_nil_iff]
  exact Nat.toDigits_ne_nil

theorem ofNat_injective : Function.Injective ofNat := by
  intro m n same
  have digits : Nat.toDigits 10 m = Nat.toDigits 10 n :=
    List.map_injective_iff.2 (fun _ _ => Char.toNat_inj.1) same
  rw [← Nat.ofDigitChars_ten_toDigits (n := m), digits, Nat.ofDigitChars_ten_toDigits]

/-- A numeral that starts with a zero is zero. -/
theorem ofNat_head (n : Nat) : ofNat n = [0x30] ∨ ∃ c r, ofNat n = c :: r ∧ c ≠ 0x30 := by
  induction n using Nat.strongRecOn with
  | ind n ih =>
      by_cases small : n < 10
      · rw [ofNat, Nat.toDigits_of_lt_base small]
        by_cases zero : n.digitChar = '0'
        · exact .inl (by rw [zero]; rfl)
        · refine .inr ⟨_, [], rfl, fun same => zero ?_⟩
          exact Char.toNat_inj.1 same
      · have split : ofNat n = ofNat (n / 10) ++ [(n % 10).digitChar.toNat] := by
          rw [ofNat, Nat.toDigits_of_base_le (by decide) (Nat.le_of_not_lt small), List.map_append]
          rfl
        refine .inr ?_
        rcases ih (n / 10) (by omega) with zero | ⟨c, r, first, ne⟩
        · have none : n / 10 = 0 := ofNat_injective zero
          omega
        · exact ⟨c, r ++ [_], by rw [split, first]; rfl, ne⟩

/-- The code points of numerals: the minus sign and the digits. -/
def numeralPoints : Text := [0x2D, 0x30, 0x31, 0x32, 0x33, 0x34, 0x35, 0x36, 0x37, 0x38, 0x39]

theorem mem_numeralPoints_of_mem_ofInt (h : c ∈ ofInt i) : c ∈ numeralPoints := by
  have digit : ∀ c ≤ 0x39, 0x30 ≤ c → c ∈ numeralPoints := by decide
  have digits : ∀ {n}, c ∈ ofNat n → c ∈ numeralPoints := fun hc =>
    digit c (bounds_of_mem_ofNat hc).2 (bounds_of_mem_ofNat hc).1
  cases i with
  | ofNat n => exact digits h
  | negSucc n =>
      rcases List.mem_cons.1 h with rfl | h
      · exact List.mem_cons_self
      · exact digits h

/-- A numeral is not empty. -/
theorem exists_ofInt_cons (i : Int) : ∃ c r, ofInt i = c :: r ∧ c ∈ numeralPoints := by
  have nonempty : ofInt i ≠ [] := by
    cases i with
    | ofNat n => exact ofNat_ne_nil n
    | negSucc n => exact List.cons_ne_nil _ _
  obtain ⟨c, r, first⟩ := List.exists_cons_of_ne_nil nonempty
  exact ⟨c, r, first, mem_numeralPoints_of_mem_ofInt (first ▸ List.mem_cons_self)⟩

theorem ofInt_injective : Function.Injective ofInt := by
  -- a numeral without a sign has no minus sign in front
  have unsigned : ∀ m n, ofNat m ≠ 0x2D :: ofNat n := fun m n same => by
    have minus : 0x2D ∈ ofNat m := by
      rw [same]
      exact List.mem_cons_self
    exact absurd (bounds_of_mem_ofNat minus).1 (by decide)
  intro i j same
  cases i with
  | ofNat m =>
      cases j with
      | ofNat n => exact congrArg Int.ofNat (ofNat_injective same)
      | negSucc n => exact absurd same (unsigned m _)
  | negSucc m =>
      cases j with
      | ofNat n => exact absurd same.symm (unsigned n _)
      | negSucc n =>
          have digits := ofNat_injective (List.cons.inj same).2
          rw [Nat.succ.inj digits]

end Needlework.Text
