import Mathlib.Data.List.Infix
import Mathlib.Data.Nat.Digits.Defs

/-!
# Decimal numerals in names

Numerals without leading zeros, what their suffixes are, and how a numeral behind a
separator can be read off the end of a name.
-/

namespace RaftImplementation.Library

/-- The decimal numeral of an integer. -/
def itoa : Int → List Char
  | .ofNat k => Nat.toDigits 10 k
  | .negSucc k => '-' :: Nat.toDigits 10 (k + 1)

theorem minus_notMem_toDigits (k : Nat) : '-' ∉ Nat.toDigits 10 k := by
  intro h
  have hdigit := Nat.isDigit_of_mem_toDigits (by decide) (by decide) h
  exact absurd hdigit (by decide)

theorem toDigits_injective : Function.Injective (Nat.toDigits 10) := by
  intro i j h
  have hvalue := congrArg (fun digits => Nat.ofDigitChars 10 digits 0) h
  simpa using hvalue

theorem itoa_injective : Function.Injective itoa := by
  intro i j h
  cases i with
  | ofNat i =>
    cases j with
    | ofNat j => exact congrArg Int.ofNat (toDigits_injective h)
    | negSucc j =>
      have hmem : '-' ∈ Nat.toDigits 10 i := by
        rw [show Nat.toDigits 10 i = _ from h]
        exact List.mem_cons_self
      exact absurd hmem (minus_notMem_toDigits i)
  | negSucc i =>
    cases j with
    | ofNat j =>
      have hmem : '-' ∈ Nat.toDigits 10 j := by
        rw [show Nat.toDigits 10 j = _ from h.symm]
        exact List.mem_cons_self
      exact absurd hmem (minus_notMem_toDigits j)
    | negSucc j =>
      have hsucc := toDigits_injective (List.cons.inj h).2
      exact congrArg Int.negSucc (Nat.succ.inj hsucc)

/-- A numeral of one digit ends with no other numeral. -/
theorem toDigits_suffix_iff {i : Nat} (hi : i < 10) (r : Nat) :
    Nat.toDigits 10 r <:+ Nat.toDigits 10 i ↔ r = i := by
  constructor
  · intro h
    have hlen : (Nat.toDigits 10 i).length = 1 := by rw [Nat.toDigits_of_lt_base hi]; rfl
    have hpos := List.length_pos_iff.mpr (Nat.toDigits_ne_nil (n := r) (b := 10))
    exact toDigits_injective (h.eq_of_length_le (by omega))
  · rintro rfl
    exact List.suffix_refl _

/-- Every numeral ends with its last digit. -/
theorem toDigits_mod_suffix (i : Nat) : Nat.toDigits 10 (i % 10) <:+ Nat.toDigits 10 i := by
  rw [Nat.toDigits_of_lt_base (Nat.mod_lt i (by decide))]
  by_cases hi : i < 10
  · rw [Nat.toDigits_of_lt_base hi, Nat.mod_eq_of_lt hi]
  · rw [Nat.toDigits_of_base_le (by decide) (Nat.le_of_not_lt hi)]
    exact List.suffix_append _ _

section Separator

variable {α : Type} {sep : α} {s t t' p p' : List α}

/-- A suffix without the separator lies behind the last separator. -/
theorem suffix_append_cons_iff (hs : sep ∉ s) : s <:+ p ++ sep :: t ↔ s <:+ t := by
  constructor
  · intro h
    have ht : t <:+ p ++ sep :: t := (List.suffix_cons sep t).trans (List.suffix_append _ _)
    by_cases hle : s.length ≤ t.length
    · exact List.suffix_of_suffix_length_le h ht hle
    · have hsep : sep :: t <:+ s := by
        apply List.suffix_of_suffix_length_le (List.suffix_append _ _) h
        rw [List.length_cons]
        omega
      exact absurd (hsep.subset List.mem_cons_self) hs
  · intro h
    exact h.trans ((List.suffix_cons sep t).trans (List.suffix_append _ _))

/-- The last separator is the same in two ways to write a list. -/
theorem append_cons_inj (ht : sep ∉ t) (ht' : sep ∉ t')
    (h : p ++ sep :: t = p' ++ sep :: t') : p = p' ∧ t = t' := by
  have htt : t <:+ t' := by
    rw [← suffix_append_cons_iff (p := p') ht, ← h]
    exact (List.suffix_cons sep t).trans (List.suffix_append _ _)
  have htt' : t' <:+ t := by
    rw [← suffix_append_cons_iff (p := p) ht', h]
    exact (List.suffix_cons sep t').trans (List.suffix_append _ _)
  have heq : t = t' := htt.eq_of_length_le htt'.length_le
  subst heq
  exact ⟨List.append_cancel_right h, rfl⟩

end Separator

end RaftImplementation.Library
