import Curator.Predicate.Parser
import Curator.Proofs.Predicate.Tiling

/-! # Numerals that have been cut have values

A numeral in a source is a run of digits with at most one point, which digits follow;
that is the form in which a value is read, so no cut numeral is without one.
-/

namespace Curator.Predicate

open Curator.Predicate.Parser (numberLiteral)

def Valued (ts : List Token) : Prop :=
  ∀ digits, .number digits ∈ ts → (numberLiteral digits.toList).isSome

theorem Valued.mono {ts us : List Token} (h : Valued ts) (hsub : us ⊆ ts) : Valued us :=
  fun digits hdigits => h digits (hsub hdigits)

theorem isSome_numberLiteral_whole {whole : List Char} (hne : whole ≠ [])
    (hdigits : ∀ c ∈ whole, c.isDigit) : (numberLiteral whole).isSome := by
  have htake : whole.takeWhile Char.isDigit = whole := List.takeWhile_eq_self_iff.mpr hdigits
  have hdrop : whole.dropWhile Char.isDigit = [] := List.dropWhile_eq_nil_iff.mpr hdigits
  simp [numberLiteral, htake, hdrop, hne]

theorem isSome_numberLiteral_fraction {whole fraction : List Char} (hne : whole ≠ [])
    (hdigits : ∀ c ∈ whole, c.isDigit) (hne' : fraction ≠ [])
    (hdigits' : ∀ c ∈ fraction, c.isDigit) :
    (numberLiteral (whole ++ '.' :: fraction)).isSome := by
  have htake : (whole ++ '.' :: fraction).takeWhile Char.isDigit = whole := by
    rw [List.takeWhile_append_of_pos hdigits]
    simp [show '.'.isDigit = false from rfl]
  have hdrop : (whole ++ '.' :: fraction).dropWhile Char.isDigit = '.' :: fraction := by
    rw [List.dropWhile_append_of_pos hdigits]
    simp [show '.'.isDigit = false from rfl]
  have hall : fraction.all Char.isDigit = true := List.all_eq_true.mpr hdigits'
  simp [numberLiteral, htake, hdrop, hne, hne', hall]

theorem Lexeme.isSome_numberLiteral {lexeme : List Char} {digits : String}
    (h : Lexeme lexeme (.number digits)) : (numberLiteral digits.toList).isSome := by
  cases h with
  | whole hne hds =>
      rw [String.toList_ofList]
      exact isSome_numberLiteral_whole hne hds
  | fraction hne hds hne' hes =>
      rw [String.toList_ofList]
      exact isSome_numberLiteral_fraction hne hds hne' hes

theorem valued_tokenize {source : String} {tokens : List Located}
    (h : tokenize source = .ok tokens) : Valued (tokens.map Located.token) := by
  intro digits hdigits
  obtain ⟨t, ht, htoken⟩ := List.mem_map.mp hdigits
  obtain ⟨stop, hcut⟩ := cut_of_tokenize h
  obtain ⟨_, _, _, _, _, hlongest⟩ := hcut.cutAt t ht
  rw [htoken] at hlongest
  exact hlongest.matched.isSome_numberLiteral

end Curator.Predicate
