import Mathlib.Data.List.Induction
import Mathlib.Data.List.Nodup
import Mathlib.Data.List.Perm.Basic

/-!
# Distributing a list over buckets

The elements of a list go, in order, to the bucket that a function names.
-/

namespace RaftImplementation.Library

variable {α : Type}

/-- `n` buckets, filled one element after the other. -/
def distribute (n : Nat) (bucket : α → Nat) (l : List α) : List (List α) :=
  l.foldl (fun buckets x => buckets.modify (bucket x) (· ++ [x])) (List.replicate n [])

theorem distribute_snoc (n : Nat) (bucket : α → Nat) (l : List α) (x : α) :
    distribute n bucket (l ++ [x]) = (distribute n bucket l).modify (bucket x) (· ++ [x]) := by
  simp [distribute]

/-- A bucket holds the elements that go to it. -/
theorem getElem?_distribute {n : Nat} (bucket : α → Nat) (l : List α) {i : Nat} (hi : i < n) :
    (distribute n bucket l)[i]? = some (l.filter fun x => bucket x = i) := by
  induction l using List.reverseRecOn with
  | nil => simp [distribute, hi]
  | append_singleton l x ih =>
    rw [distribute_snoc, List.getElem?_modify, ih, List.filter_append]
    by_cases hx : bucket x = i
    · simp [hx]
    · simp [hx]

/-- Emptying some of the buckets gives the elements that went to one of them. -/
theorem flatMap_filter_perm (bucket : α → Nat) (l : List α) {is : List Nat} (hnd : is.Nodup) :
    (is.flatMap fun i => l.filter fun x => bucket x = i).Perm
      (l.filter fun x => bucket x ∈ is) := by
  induction is with
  | nil => simp
  | cons i is ih =>
    obtain ⟨hi, hnd⟩ := List.nodup_cons.mp hnd
    have hsplit := List.filter_append_perm (fun x => decide (bucket x = i))
      (l.filter fun x => bucket x ∈ i :: is)
    have hfirst : (l.filter fun x => bucket x ∈ i :: is).filter (fun x => bucket x = i) =
        l.filter fun x => bucket x = i := by
      rw [List.filter_filter]
      apply List.filter_congr
      intro x _
      by_cases hx : bucket x = i
      · simp [hx]
      · simp [hx]
    have hrest : (l.filter fun x => bucket x ∈ i :: is).filter (fun x => !decide (bucket x = i)) =
        l.filter fun x => bucket x ∈ is := by
      rw [List.filter_filter]
      apply List.filter_congr
      intro x _
      by_cases hx : bucket x = i
      · simp [hx, hi]
      · simp [hx]
    rw [hfirst, hrest] at hsplit
    rw [List.flatMap_cons]
    exact ((ih hnd).append_left _).trans hsplit

/-- Where one part of a joined list grows at its end, the whole grows by that. -/
theorem flatMap_grow {β : Type} {S : List α} (hS : S.Nodup) {f f' : α → List β} {a : α}
    {x : List β} (ha : a ∈ S) (hother : ∀ b, b ≠ a → f' b = f b) (hself : f' a = f a ++ x) :
    (S.flatMap f').Perm (S.flatMap f ++ x) := by
  induction S with
  | nil => cases ha
  | cons b S ih =>
    rw [List.nodup_cons] at hS
    rw [List.flatMap_cons, List.flatMap_cons]
    by_cases hb : b = a
    · subst hb
      have hrest : S.flatMap f' = S.flatMap f := by
        apply List.flatMap_congr
        intro c hc
        apply hother
        rintro rfl
        exact hS.1 hc
      rw [hself, hrest, List.append_assoc, List.append_assoc]
      exact List.perm_append_comm.append_left _
    · rw [hother b hb, List.append_assoc]
      apply List.Perm.append_left
      apply ih hS.2
      exact (List.mem_cons.mp ha).resolve_left (Ne.symm hb)

end RaftImplementation.Library
