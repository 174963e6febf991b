import Mathlib.Data.List.Basic
import Mathlib.Data.List.Infix
import Mathlib.Data.Set.Basic

/-!
# Term-stamped histories

A history is a log from its first entry on: every entry carries the term in which
it was made. `NoNewer` is the order by last term and then by length. In a `HistoryTree` of
histories an entry is identified by its place and its term, so two histories that
agree on the term at one place agree on everything up to it.
-/

namespace RaftImplementation.Library

abbrev History (α : Type) := List (Nat × α)

variable {α : Type} {X Y Z : History α}

/-- The term of the last entry, and `0` for the empty history. -/
def lastTerm (X : History α) : Nat := (X.getLast?.map Prod.fst).getD 0

@[simp] theorem lastTerm_nil : lastTerm ([] : History α) = 0 := rfl

@[simp] theorem lastTerm_concat (X : History α) (e : Nat × α) : lastTerm (X ++ [e]) = e.1 := by
  simp [lastTerm]

/-- The term at a place is the last term of the history up to it. -/
theorem lastTerm_take {i : Nat} {e : Nat × α} (h : X[i]? = some e) :
    lastTerm (X.take (i + 1)) = e.1 := by
  rw [List.take_add_one, h]
  exact lastTerm_concat _ _

theorem take_isPrefix (h : X <+: Y) : Y.take X.length = X :=
  (List.prefix_iff_eq_take.mp h).symm

/-- `X` is not more up to date than `Y`. -/
def NoNewer (X Y : History α) : Prop :=
  lastTerm X < lastTerm Y ∨ lastTerm X = lastTerm Y ∧ X.length ≤ Y.length

theorem NoNewer.refl (X : History α) : NoNewer X X := .inr ⟨rfl, le_rfl⟩

theorem NoNewer.trans (h₁ : NoNewer X Y) (h₂ : NoNewer Y Z) : NoNewer X Z := by
  unfold NoNewer at *
  omega

theorem NoNewer.total (X Y : History α) : NoNewer X Y ∨ NoNewer Y X := by
  unfold NoNewer
  omega

theorem NoNewer.term_le (h : NoNewer X Y) : lastTerm X ≤ lastTerm Y := by
  unfold NoNewer at h
  omega

/-- A set of histories in which an entry, given by its place and term, has one past. -/
structure HistoryTree (made : Set (History α)) : Prop where
  nil : [] ∈ made
  past : ∀ X ∈ made, ∀ Y, Y <+: X → Y ∈ made
  keyed : ∀ X ∈ made, ∀ Y ∈ made, X.length = Y.length → lastTerm X = lastTerm Y → X = Y

namespace HistoryTree

variable {made : Set (History α)}

/-- Before anything is made there is the empty history. -/
theorem singleton_nil : HistoryTree ({[]} : Set (History α)) := by
  refine ⟨rfl, ?_, ?_⟩
  · rintro X rfl Y hY
    exact List.prefix_nil.mp hY
  · rintro X rfl Y rfl _ _
    rfl

theorem take_mem (h : HistoryTree made) (hX : X ∈ made) (i : Nat) : X.take i ∈ made :=
  h.past X hX _ ( List.take_prefix i X)

/-- Two histories with the same term at place `i` agree up to `i`. -/
theorem agree (h : HistoryTree made) (hX : X ∈ made) (hY : Y ∈ made) {i : Nat} (hi : i ≤ X.length)
    (hj : i ≤ Y.length) (ht : lastTerm (X.take i) = lastTerm (Y.take i)) :
    X.take i = Y.take i := by
  refine h.keyed _ (h.take_mem hX i) _ (h.take_mem hY i) ?_ ht
  rw [List.length_take_of_le hi, List.length_take_of_le hj]

/-- A new entry whose place and term are not taken keeps the tree. -/
theorem insert_concat (h : HistoryTree made) (hX : X ∈ made) {e : Nat × α}
    (hfresh : ∀ Y ∈ made, lastTerm Y = e.1 → Y.length ≠ X.length + 1) :
    HistoryTree (insert (X ++ [e]) made) := by
  have hkey : ∀ Y ∈ made, (X ++ [e]).length = Y.length → lastTerm (X ++ [e]) = lastTerm Y →
      X ++ [e] = Y := by
    intro Y hY hlen hterm
    rw [lastTerm_concat] at hterm
    exact absurd (by simpa using hlen.symm) (hfresh Y hY hterm.symm)
  refine ⟨.inr h.nil, ?_, ?_⟩
  · rintro Y (rfl | hY) Z hZ
    · rcases List.prefix_concat_iff.mp hZ with rfl | hZ
      · exact .inl rfl
      · exact .inr (h.past X hX Z hZ)
    · exact .inr (h.past Y hY Z hZ)
  · rintro Y (rfl | hY) Z (rfl | hZ) hlen hterm
    · rfl
    · exact hkey Z hZ hlen hterm
    · exact (hkey Y hY hlen.symm hterm.symm).symm
    · exact h.keyed Y hY Z hZ hlen hterm

end HistoryTree

end RaftImplementation.Library
