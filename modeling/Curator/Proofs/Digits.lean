import Curator.Digits
import Mathlib.Data.List.Basic
import Mathlib.Data.List.Induction
import Mathlib.Data.Nat.Digits.Defs

/-! # Decimal digits and the numbers they spell

Writing a number in digits and reading it back gives the number. A row of digits without a
leading zero is what its number is written as.
-/

namespace Curator.Digits

theorem value_eq_ofDigitChars (ds : List Char) : value ds = Nat.ofDigitChars 10 ds 0 := by
  simp only [value, Nat.ofDigitChars_eq_foldl, Nat.mul_comm]

theorem value_append_singleton (ds : List Char) (d : Char) :
    value (ds ++ [d]) = value ds * 10 + (d.toNat - '0'.toNat) := by
  simp [value]

theorem value_ofNat (n : Nat) : value (ofNat n) = n := by
  rw [value_eq_ofDigitChars]
  exact Nat.ofDigitChars_ten_toDigits

theorem ofNat_ne_nil (n : Nat) : ofNat n ≠ [] := Nat.toDigits_ne_nil

theorem isDigit_of_mem_ofNat {n : Nat} {c : Char} (h : c ∈ ofNat n) : c.isDigit = true :=
  Nat.isDigit_of_mem_toDigits (by omega) (by omega) h

theorem ofNat_of_lt {n : Nat} (h : n < 10) : ofNat n = [n.digitChar] := Nat.toDigits_of_lt_base h

/-- All digits but the last are those of the number without its last digit. -/
theorem ofNat_of_le {n : Nat} (h : 10 ≤ n) : ofNat n = ofNat (n / 10) ++ [(n % 10).digitChar] := by
  unfold ofNat
  rw [Nat.toDigits_eq_if (by omega), if_neg (by omega)]

theorem head?_ofNat_ne_zero {n : Nat} (h : 0 < n) : (ofNat n).head? ≠ some '0' := by
  induction n using Nat.strong_induction_on with
  | _ n ih =>
      by_cases hlt : n < 10
      · rw [ofNat_of_lt hlt, List.head?_cons, ne_eq, Option.some.injEq, Nat.digitChar_eq_zero]
        omega
      · have hfront := ih (n / 10) (by omega) (by omega)
        rw [ofNat_of_le (by omega), List.head?_append_of_ne_nil _ (ofNat_ne_nil _)]
        exact hfront

theorem digitChar_of_isDigit {c : Char} (h : c.isDigit = true) :
    (c.toNat - '0'.toNat).digitChar = c ∧ c.toNat - '0'.toNat < 10 := by
  have hbounds : 48 ≤ c.toNat ∧ c.toNat ≤ 57 := by
    simpa [Char.isDigit, UInt32.le_iff_toNat_le] using h
  have hlt : c.toNat - '0'.toNat < 10 := by
    simp only [show '0'.toNat = 48 from rfl]
    omega
  refine ⟨Char.toNat_inj.mp ?_, hlt⟩
  rw [Nat.toNat_digitChar_of_lt_ten hlt]
  simp only [show '0'.toNat = 48 from rfl]
  omega

theorem value_pos {ds : List Char} (hne : ds ≠ []) (hdigits : ∀ c ∈ ds, c.isDigit = true)
    (hlead : ds.head? ≠ some '0') : 0 < value ds := by
  induction ds using List.reverseRecOn with
  | nil => exact absurd rfl hne
  | append_singleton front d ih =>
      rw [value_append_singleton]
      by_cases hfront : front = []
      · -- a single digit that is not zero
        subst hfront
        obtain ⟨hchar, -⟩ := digitChar_of_isDigit (hdigits d (by simp))
        have hd : d ≠ '0' := by simpa using hlead
        have hpos : d.toNat - '0'.toNat ≠ 0 := by
          intro h
          rw [h] at hchar
          exact hd hchar.symm
        omega
      · rw [List.head?_append_of_ne_nil _ hfront] at hlead
        have hpos := ih hfront (fun c hc => hdigits c (List.mem_append_left _ hc)) hlead
        omega

/-- Digits without a leading zero are those of the number they spell. -/
theorem ofNat_value {ds : List Char} (hne : ds ≠ []) (hdigits : ∀ c ∈ ds, c.isDigit = true)
    (hlead : ds = ['0'] ∨ ds.head? ≠ some '0') : ofNat (value ds) = ds := by
  induction ds using List.reverseRecOn with
  | nil => exact absurd rfl hne
  | append_singleton front d ih =>
      obtain ⟨hchar, hlt⟩ := digitChar_of_isDigit (hdigits d (by simp))
      rw [value_append_singleton]
      by_cases hfront : front = []
      · subst hfront
        rw [show value [] = 0 from rfl, Nat.zero_mul, Nat.zero_add, ofNat_of_lt hlt, hchar]
        rfl
      · have hhead : front.head? ≠ some '0' := by
          rcases hlead with hzero | hhead
          · -- the digit zero alone has no digits before its last
            have hlength := congrArg List.length hzero
            have hpos := List.length_pos_iff.mpr hfront
            simp only [List.length_append, List.length_singleton] at hlength
            omega
          · rwa [List.head?_append_of_ne_nil _ hfront] at hhead
        have hfrontDigits : ∀ c ∈ front, c.isDigit = true :=
          fun c hc => hdigits c (List.mem_append_left _ hc)
        have hpos := value_pos hfront hfrontDigits hhead
        have hquotient : (value front * 10 + (d.toNat - '0'.toNat)) / 10 = value front := by omega
        have hrest : (value front * 10 + (d.toNat - '0'.toNat)) % 10 = d.toNat - '0'.toNat := by
          omega
        rw [ofNat_of_le (by omega), hquotient, hrest, hchar, ih hfront hfrontDigits (.inr hhead)]

end Curator.Digits
