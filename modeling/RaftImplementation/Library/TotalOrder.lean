import Mathlib.Data.List.Basic
import RaftImplementation.Library.Runs

/-!
# Totally ordered delivery

The specification of a service that hands messages to many nodes in one order. There is
one list of agreed messages, and it only grows at its end: a delivery either repeats a
message at its agreed position, or puts a submitted message that is not in the list yet
behind the last one. So all nodes see one message at one position, no position is left
out, and nothing is delivered that was not submitted.
-/

namespace RaftImplementation.Library

namespace TotalOrder

variable {ι μ : Type}

structure State (μ : Type) where
  submitted : List μ
  agreed : List μ

def State.initial : State μ := ⟨[], []⟩

inductive Event (ι μ : Type) where
  | submit (m : μ)
  /-- `p` is handed the message at position `i`. -/
  | deliver (p : ι) (i : Nat) (m : μ)

/-- The steps of the specification; a step is named by the event it emits. -/
def step [DecidableEq μ] (s : State μ) : Event ι μ → Option (State μ × List (Event ι μ))
  | .submit m =>
    if m ∈ s.submitted then none
    else some ({ s with submitted := s.submitted ++ [m] }, [.submit m])
  | .deliver p i m =>
    if s.agreed[i]? = some m then some (s, [.deliver p i m])
    else if i = s.agreed.length ∧ m ∈ s.submitted ∧ m ∉ s.agreed then
      some ({ s with agreed := s.agreed ++ [m] }, [.deliver p i m])
    else none

theorem getElem?_snoc {l : List μ} {m m' : μ} {i : Nat} :
    (l ++ [m])[i]? = some m' ↔ l[i]? = some m' ∨ i = l.length ∧ m = m' := by
  rcases Nat.lt_trichotomy i l.length with hlt | rfl | hgt
  · rw [List.getElem?_append_left hlt]
    simp [Nat.ne_of_lt hlt]
  · simp
  · rw [List.getElem?_eq_none (by simp; omega), List.getElem?_eq_none (Nat.le_of_lt hgt)]
    simp [Nat.ne_of_gt hgt]

/-! ## Traces of the specification

A trace can be followed as long as each of its events is allowed by those before it. The
rules below say so without the state. -/

/-- The specification reaches `s` with the trace `tr`, and `s` holds what `tr` says. -/
structure Explains [DecidableEq μ] (tr : List (Event ι μ)) (s : State μ) : Prop where
  run : Run step always State.initial tr s
  submitted : ∀ m, m ∈ s.submitted ↔ .submit m ∈ tr
  agreed : ∀ i m, s.agreed[i]? = some m ↔ ∃ p, .deliver p i m ∈ tr

namespace Explains

variable [DecidableEq μ] {tr : List (Event ι μ)} {s : State μ}

theorem nil : Explains ([] : List (Event ι μ)) (State.initial : State μ) where
  run := .refl
  submitted m := by simp [State.initial]
  agreed i m := by simp [State.initial]

theorem submit (h : Explains tr s) {m : μ} (hnew : .submit m ∉ tr) :
    ∃ s', Explains (tr ++ [.submit m]) s' := by
  have hm : m ∉ s.submitted := fun hm => hnew ((h.submitted m).mp hm)
  have hstep : step s (.submit m) =
      some ({ s with submitted := s.submitted ++ [m] }, [Event.submit (ι := ι) m]) := if_neg hm
  refine ⟨_, h.run.snoc trivial hstep, ?_, ?_⟩
  · intro m'
    simp [h.submitted]
  · intro i m'
    simp [h.agreed]

/-- The agreed positions are those below the length of the list. -/
theorem length_le (h : Explains tr s) {i : Nat} (hgap : ∀ j, j < i → ∃ q m, .deliver q j m ∈ tr) :
    i ≤ s.agreed.length := by
  by_contra hlt
  obtain ⟨q, m, hm⟩ := hgap s.agreed.length (Nat.lt_of_not_le hlt)
  have hget := (h.agreed _ m).mpr ⟨q, hm⟩
  simp at hget

/-- A submitted message may be delivered at a position if all earlier positions have been
delivered, that position has not been delivered otherwise, and the message not elsewhere. -/
theorem deliver (h : Explains tr s) (p : ι) {i : Nat} {m : μ} (hvalid : .submit m ∈ tr)
    (hgap : ∀ j, j < i → ∃ q m', .deliver q j m' ∈ tr)
    (hsame : ∀ q m', .deliver q i m' ∈ tr → m' = m)
    (honce : ∀ q j, .deliver q j m ∈ tr → j = i) :
    ∃ s', Explains (tr ++ [.deliver p i m]) s' := by
  have hle := h.length_le hgap
  rcases Nat.lt_or_eq_of_le hle with hlt | heq
  · -- the position is agreed already
    obtain ⟨q, hq⟩ := (h.agreed i _).mp (List.getElem?_eq_getElem hlt)
    have hget : s.agreed[i]? = some m := by
      rw [List.getElem?_eq_getElem hlt, hsame q _ hq]
    have hstep : step s (.deliver p i m) = some (s, [.deliver p i m]) := if_pos hget
    refine ⟨s, h.run.snoc trivial hstep, ?_, ?_⟩
    · intro m'
      simp [h.submitted]
    · intro j m'
      simp only [h.agreed, List.mem_append, List.mem_singleton, Event.deliver.injEq]
      constructor
      · rintro ⟨q, hq⟩
        exact ⟨q, .inl hq⟩
      · rintro ⟨q, hq | ⟨rfl, rfl, rfl⟩⟩
        · exact ⟨q, hq⟩
        · exact (h.agreed j m').mp hget
  · -- the position is the next one, and the message is new there
    have hm : m ∉ s.agreed := by
      intro hm
      obtain ⟨j, hj⟩ := List.mem_iff_getElem?.mp hm
      obtain ⟨q, hq⟩ := (h.agreed j m).mp hj
      have hlt := (List.getElem?_eq_some_iff.mp hj).1
      have := honce q j hq
      omega
    have hget : s.agreed[i]? ≠ some m := fun hget => hm (List.mem_of_getElem? hget)
    have hstep : step s (.deliver p i m) =
        some ({ s with agreed := s.agreed ++ [m] }, [.deliver p i m]) := by
      rw [step, if_neg hget, if_pos ⟨heq, (h.submitted m).mpr hvalid, hm⟩]
    refine ⟨_, h.run.snoc trivial hstep, ?_, ?_⟩
    · intro m'
      simp [h.submitted]
    · intro j m'
      simp only [getElem?_snoc, h.agreed, List.mem_append, List.mem_singleton, Event.deliver.injEq]
      constructor
      · rintro (⟨q, hq⟩ | ⟨rfl, rfl⟩)
        · exact ⟨q, .inl hq⟩
        · exact ⟨p, .inr ⟨rfl, heq.symm, rfl⟩⟩
      · rintro ⟨q, hq | ⟨_, rfl, rfl⟩⟩
        · exact .inl ⟨q, hq⟩
        · exact .inr ⟨heq, rfl⟩

end Explains

end TotalOrder

end RaftImplementation.Library
