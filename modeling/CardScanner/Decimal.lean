import Mathlib.Tactic.SplitIfs

/-!
# Decimal notation

Integers written as a sign and their decimal digits, as `%d` prints them.  First,
where the letters lie among the characters; Lean has that for the digits.
-/

/-- Where the letters are among the characters, as far as a number has to be
told from them. -/
theorem Char.toNat_of_isAlpha {c : Char} (hc : c.isAlpha = true) :
    65 ≤ c.toNat ∧ c.toNat ≤ 122 := by
  have hcases : c.isUpper = true ∨ c.isLower = true := Bool.or_eq_true_iff.mp hc
  rcases hcases with hupper | hlower
  · have hrange : 'A'.val ≤ c.val ∧ c.val ≤ 'Z'.val := of_decide_eq_true hupper
    have hlow : 65 ≤ c.toNat := UInt32.le_iff_toNat_le.mp hrange.1
    have hhigh : c.toNat ≤ 90 := UInt32.le_iff_toNat_le.mp hrange.2
    omega
  · have hrange := Bool.and_eq_true_iff.mp hlower
    have hlow : 97 ≤ c.toNat := UInt32.le_iff_toNat_le.mp (of_decide_eq_true hrange.1)
    have hhigh : c.toNat ≤ 122 := UInt32.le_iff_toNat_le.mp (of_decide_eq_true hrange.2)
    omega

namespace Decimal

/-- An integer in decimal notation. -/
def decimal (n : Int) : List Char :=
  if n < 0 then '-' :: Nat.toDigits 10 n.natAbs else Nat.toDigits 10 n.natAbs

/-- Only digits and the sign are used. -/
theorem mem_decimal {n : Int} {c : Char} (hc : c ∈ decimal n) : c = '-' ∨ c.isDigit = true := by
  have hdigits : c ∈ Nat.toDigits 10 n.natAbs → c.isDigit = true :=
    Nat.isDigit_of_mem_toDigits (by decide) (by decide)
  unfold decimal at hc
  split_ifs at hc with hneg
  · rcases List.mem_cons.mp hc with hsign | hmem
    · exact Or.inl hsign
    · exact Or.inr (hdigits hmem)
  · exact Or.inr (hdigits hc)

/-- Dropping the sign leaves the digits of the absolute value. -/
theorem filter_decimal (p : Char → Bool) (hsign : p '-' = false)
    (hp : ∀ c : Char, c.isDigit = true → p c = true) (n : Int) :
    (decimal n).filter p = Nat.toDigits 10 n.natAbs := by
  have hall : (Nat.toDigits 10 n.natAbs).filter p = Nat.toDigits 10 n.natAbs := by
    rw [List.filter_eq_self]
    intro c hc
    exact hp c (Nat.isDigit_of_mem_toDigits (by decide) (by decide) hc)
  unfold decimal
  split_ifs
  · rw [List.filter_cons_of_neg (by simp [hsign]), hall]
  · exact hall

theorem decimal_ne_nil (n : Int) : decimal n ≠ [] := by
  unfold decimal
  split_ifs
  · exact List.cons_ne_nil _ _
  · exact Nat.toDigits_ne_nil

end Decimal
