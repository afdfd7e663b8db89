set_option autoImplicit false

/-! # Decimal numbers

A number has one decimal form: its digits without a sign, a blank or a leading zero. Nothing else is
read as a number, and what was written reads back (`parse?_digits`). -/

namespace VeiledLedger.Text.Decimal

/-- The digits of a number. -/
def digits (n : Nat) : List Char := Nat.toDigits 10 n

/-- The number whose decimal form is given. -/
def parse? (text : List Char) : Option Nat :=
  match text with
  | [] => none
  | ['0'] => some 0
  | '0' :: _ => none
  | _ => if text.all Char.isDigit then some (Nat.ofDigitChars 10 text 0) else none

theorem all_isDigit_digits (n : Nat) : (digits n).all Char.isDigit = true :=
  List.all_eq_true.mpr fun _ hc => Nat.isDigit_of_mem_toDigits (by omega) (by omega) hc

/-- The first digit of a positive number is not zero. -/
theorem exists_digits_eq_cons {n : Nat} (h : 0 < n) :
    ∃ c rest, digits n = c :: rest ∧ c ≠ '0' := by
  induction n using Nat.strongRecOn with
  | ind n ih =>
    by_cases hn : n < 10
    · refine ⟨n.digitChar, [], Nat.toDigits_of_lt_base hn, ?_⟩
      have all : ∀ m < 10, 0 < m → m.digitChar ≠ '0' := by decide
      exact all n hn h
    · obtain ⟨c, rest, hc, hne⟩ := ih (n / 10) (by omega) (by omega)
      refine ⟨c, rest ++ [(n % 10).digitChar], ?_, hne⟩
      unfold digits at hc ⊢
      rw [Nat.toDigits_eq_if (by omega), if_neg hn, hc, List.cons_append]

/-- Reading a written number gives the number back. -/
theorem parse?_digits (n : Nat) : parse? (digits n) = some n := by
  rcases Nat.eq_zero_or_pos n with rfl | h
  · rfl
  · obtain ⟨c, rest, hc, hne⟩ := exists_digits_eq_cons h
    have hall := all_isDigit_digits n
    have hval : Nat.ofDigitChars 10 (digits n) 0 = n :=
      Nat.ofDigitChars_toDigits (by omega) (by omega)
    rw [hc] at hall hval ⊢
    unfold parse?
    split
    · next heq => simp at heq
    · next heq => exact absurd (List.cons.inj heq).1 hne
    · next heq => exact absurd (List.cons.inj heq).1 hne
    · rw [if_pos hall, hval]

example : parse? ['0', '7'] = none := rfl

end VeiledLedger.Text.Decimal
