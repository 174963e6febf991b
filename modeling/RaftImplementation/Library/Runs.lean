import Mathlib.Data.List.Basic

/-!
# Guarded runs of a transition system

A system is a partial step function on states, driven by actions; a step may emit
events. `Run step ok s tr s'` is a finite run from `s` to `s'` whose steps all
satisfy the guard `ok` (a condition on the state before the step and the action),
with `tr` the events it emits, in order.
-/

namespace RaftImplementation.Library

variable {σ α ε : Type} {step : σ → α → Option (σ × List ε)}
variable {ok ok' : σ → α → Prop} {s s₁ s₂ : σ} {tr tr₁ tr₂ : List ε}

inductive Run (step : σ → α → Option (σ × List ε)) (ok : σ → α → Prop) (s : σ) :
    List ε → σ → Prop
  | refl : Run step ok s [] s
  | snoc {tr : List ε} {s₁ : σ} {a : α} {s₂ : σ} {es : List ε} :
      Run step ok s tr s₁ → ok s₁ a → step s₁ a = some (s₂, es) →
      Run step ok s (tr ++ es) s₂

/-- The guard of an unrestricted run. -/
def always (_ : σ) (_ : α) : Prop := True

namespace Run

/-- The invariant rule: what holds at the start and is kept by every allowed step
holds at the end of every run. -/
theorem invariant (I : List ε → σ → Prop) (h0 : I [] s)
    (hs : ∀ tr s₁ a s₂ es, I tr s₁ → ok s₁ a → step s₁ a = some (s₂, es) → I (tr ++ es) s₂)
    (h : Run step ok s tr s₁) : I tr s₁ := by
  induction h with
  | refl => exact h0
  | snoc _ hok hstep ih => exact hs _ _ _ _ _ ih hok hstep

theorem trans (h₁ : Run step ok s tr₁ s₁) (h₂ : Run step ok s₁ tr₂ s₂) :
    Run step ok s (tr₁ ++ tr₂) s₂ := by
  induction h₂ with
  | refl => simpa using h₁
  | snoc _ ha hstep ih => simpa [List.append_assoc] using ih.snoc ha hstep

theorem single {a : α} {es : List ε} (ha : ok s a) (hstep : step s a = some (s₁, es)) :
    Run step ok s es s₁ := by
  simpa using (Run.refl : Run step ok s [] s).snoc ha hstep

theorem mono (h : Run step ok s tr s₁) (hok : ∀ s a, ok s a → ok' s a) : Run step ok' s tr s₁ := by
  induction h with
  | refl => exact .refl
  | snoc _ ha hstep ih => exact ih.snoc (hok _ _ ha) hstep

/-- Forward simulation: if each step is matched by a run of the other system with the same
events, then so is each run. -/
theorem simulates {σ' α' : Type} {step' : σ' → α' → Option (σ' × List ε)} {ok' : σ' → α' → Prop}
    {k : σ'} (Rel : σ → σ' → Prop) (hstart : Rel s k)
    (hmatch : ∀ s₁ a s₂ es k₁, Rel s₁ k₁ → ok s₁ a → step s₁ a = some (s₂, es) →
      ∃ k₂, Run step' ok' k₁ es k₂ ∧ Rel s₂ k₂)
    (h : Run step ok s tr s₁) : ∃ k₁, Run step' ok' k tr k₁ ∧ Rel s₁ k₁ := by
  induction h with
  | refl => exact ⟨k, .refl, hstart⟩
  | snoc _ hok hstep ih =>
    obtain ⟨k₁, hrun, hrel⟩ := ih
    obtain ⟨k₂, hrun', hrel'⟩ := hmatch _ _ _ _ _ hrel hok hstep
    exact ⟨k₂, hrun.trans hrun', hrel'⟩

end Run

/-! ## Runs with their steps -/

/-- One step of a run: the state before it, the action, the events and the state after. -/
structure Taken (σ α ε : Type) where
  before : σ
  action : α
  events : List ε
  after : σ

/-- `Course step ok s rs s'`: a run from `s` to `s'`, with the steps it took in order. -/
inductive Course (step : σ → α → Option (σ × List ε)) (ok : σ → α → Prop) (s : σ) :
    List (Taken σ α ε) → σ → Prop
  | refl : Course step ok s [] s
  | snoc {rs : List (Taken σ α ε)} {s₁ : σ} {a : α} {s₂ : σ} {es : List ε} :
      Course step ok s rs s₁ → ok s₁ a → step s₁ a = some (s₂, es) →
      Course step ok s (rs ++ [⟨s₁, a, es, s₂⟩]) s₂

namespace Course

variable {rs : List (Taken σ α ε)}

theorem run (h : Course step ok s rs s₁) : Run step ok s (rs.flatMap Taken.events) s₁ := by
  induction h with
  | refl => exact .refl
  | snoc _ hok hstep ih =>
    rw [List.flatMap_append]
    simpa using ih.snoc hok hstep

/-- Every run took some steps. -/
theorem exists_of_run (h : Run step ok s tr s₁) :
    ∃ rs, Course step ok s rs s₁ ∧ rs.flatMap Taken.events = tr := by
  induction h with
  | refl => exact ⟨[], .refl, rfl⟩
  | snoc _ hok hstep ih =>
    obtain ⟨rs, hrs, rfl⟩ := ih
    exact ⟨_, hrs.snoc hok hstep, by simp⟩

/-- A run up to one of its steps, that step, and the rest. -/
theorem split (h : Course step ok s rs s₁) {r : Taken σ α ε} (hr : r ∈ rs) :
    ∃ rs' rest, rs = rs' ++ r :: rest ∧ Course step ok s rs' r.before ∧
      ok r.before r.action ∧ step r.before r.action = some (r.after, r.events) := by
  induction h with
  | refl => cases hr
  | snoc h hok hstep ih =>
    cases List.mem_append.mp hr with
    | inl hold =>
      obtain ⟨rs', rest, heq, hp, hs⟩ := ih hold
      exact ⟨rs', _, by rw [heq, List.append_assoc, List.cons_append], hp, hs⟩
    | inr hnew =>
      rw [List.mem_singleton.mp hnew]
      exact ⟨_, [], rfl, h, hok, hstep⟩

/-- Every step of a run was taken at the end of a shorter one. -/
theorem of_mem (h : Course step ok s rs s₁) {r : Taken σ α ε} (hr : r ∈ rs) :
    ∃ rs', Course step ok s rs' r.before ∧ rs' ⊆ rs ∧
      step r.before r.action = some (r.after, r.events) := by
  obtain ⟨rs', rest, rfl, hp, -, hs⟩ := h.split hr
  exact ⟨rs', hp, List.subset_append_left .., hs⟩

/-- A run all of whose steps satisfy a guard is a run under that guard. -/
theorem guard (h : Course step ok s rs s₁) (hok : ∀ r ∈ rs, ok' r.before r.action) :
    Course step ok' s rs s₁ := by
  induction h with
  | refl => exact .refl
  | snoc _ _ hstep ih =>
    have hlast := hok _ (List.mem_append_right _ (List.mem_singleton_self _))
    exact (ih fun r hr => hok r (List.mem_append_left _ hr)).snoc hlast hstep

end Course

instance : ∀ (s : σ) (a : α), Decidable (always s a) := fun _ _ => isTrue trivial

/-- The run that a list of actions describes, if all its steps can be taken and are
allowed. -/
def perform (step : σ → α → Option (σ × List ε)) (ok : σ → α → Prop)
    [∀ s a, Decidable (ok s a)] (s : σ) : List α → Option (σ × List ε)
  | [] => some (s, [])
  | a :: as =>
    if ok s a then
      match step s a with
      | none => none
      | some (s₁, es) => (perform step ok s₁ as).map fun (s₂, tr) => (s₂, es ++ tr)
    else none

theorem perform_run [∀ s a, Decidable (ok s a)] {as : List α}
    (h : perform step ok s as = some (s₁, tr)) : Run step ok s tr s₁ := by
  induction as generalizing s tr with
  | nil =>
    simp only [perform, Option.some.injEq, Prod.mk.injEq] at h
    obtain ⟨rfl, rfl⟩ := h
    exact .refl
  | cons a as ih =>
    unfold perform at h
    split at h
    · rename_i hok
      cases hs : step s a with
      | none => simp [hs] at h
      | some r =>
        obtain ⟨s₂, es⟩ := r
        simp only [hs, Option.map_eq_some_iff, Prod.mk.injEq, Prod.exists] at h
        obtain ⟨_, tr₂, hp, rfl, rfl⟩ := h
        exact (Run.single hok hs).trans (ih hp)
    · simp at h

/-- The state a list of actions leads to. -/
def reached (step : σ → α → Option (σ × List ε)) (ok : σ → α → Prop)
    [∀ s a, Decidable (ok s a)] (s : σ) (as : List α) : σ × List ε :=
  (perform step ok s as).getD (s, [])

theorem reached_run [∀ s a, Decidable (ok s a)] {as : List α}
    (h : (perform step ok s as).isSome = true) :
    Run step ok s (reached step ok s as).2 (reached step ok s as).1 := by
  obtain ⟨⟨s₁, tr⟩, hp⟩ := Option.isSome_iff_exists.mp h
  unfold reached
  rw [hp]
  exact perform_run hp

end RaftImplementation.Library
