import Mathlib.Data.Nat.Basic

/-!
# Repeating a round until it succeeds

A round takes a state to the next one and says whether it succeeded; it may also
fail for good. `untilDone` repeats it up to a number of times.
-/

namespace RaftImplementation.Library

variable {σ : Type} {round : σ → Option (σ × Bool)} {s s' : σ}

/-- The state after the first successful round, if there is one among the first `k`. -/
def untilDone (round : σ → Option (σ × Bool)) : Nat → σ → Option σ
  | 0, _ => none
  | k + 1, s =>
    match round s with
    | some (s', true) => some s'
    | some (s', false) => untilDone round k s'
    | none => none

/-- Some number of rounds ends in success, in a state that satisfies `P`. -/
def Succeeds (round : σ → Option (σ × Bool)) (P : σ → Prop) (s : σ) : Prop :=
  ∃ k s', untilDone round k s = some s' ∧ P s'

theorem succeeds_of_done {P : σ → Prop} (h : round s = some (s', true)) (hP : P s') :
    Succeeds round P s :=
  ⟨1, s', by simp [untilDone, h], hP⟩

/-- A round without success neither helps nor hurts. -/
theorem succeeds_iff_of_round {P : σ → Prop} (h : round s = some (s', false)) :
    Succeeds round P s ↔ Succeeds round P s' := by
  constructor
  · rintro ⟨k, t, hk, hP⟩
    cases k with
    | zero => simp [untilDone] at hk
    | succ k =>
      simp only [untilDone, h] at hk
      exact ⟨k, t, hk, hP⟩
  · rintro ⟨k, t, hk, hP⟩
    exact ⟨k + 1, t, by simpa [untilDone, h] using hk, hP⟩

/-- Rounds that keep to states in which no round succeeds never succeed. -/
theorem untilDone_eq_none {I : σ → Prop}
    (hI : ∀ s, I s → round s = none ∨ ∃ s', round s = some (s', false) ∧ I s') (hs : I s)
    (k : Nat) : untilDone round k s = none := by
  induction k generalizing s with
  | zero => rfl
  | succ k ih =>
    rcases hI s hs with h | ⟨s', h, hs'⟩
    · simp [untilDone, h]
    · simp [untilDone, h, ih hs']

theorem not_succeeds {I P : σ → Prop}
    (hI : ∀ s, I s → round s = none ∨ ∃ s', round s = some (s', false) ∧ I s') (hs : I s) :
    ¬ Succeeds round P s := by
  rintro ⟨k, t, hk, _⟩
  rw [untilDone_eq_none hI hs k] at hk
  cases hk

end RaftImplementation.Library
