import Mathlib.Data.Fintype.Card
import Mathlib.Data.Finset.Card
import Mathlib.Data.List.Sort
import Mathlib.Order.Bounds.Basic

/-!
# Majorities

A majority of a finite type is a property held by more than half of its elements.
Two majorities meet. The second half reads a majority off a sorted list: the entry
of rank `n - (n / 2 + 1)` is reached by more than `n / 2` of the `n` entries, and no
larger value is.
-/

namespace RaftImplementation.Library

variable {ι : Type} [Fintype ι] {P Q : ι → Prop}

/-- More than half of the elements of `ι` satisfy `P`. -/
def Majority (P : ι → Prop) : Prop :=
  ∃ A : Finset ι, (∀ v ∈ A, P v) ∧ Fintype.card ι < 2 * A.card

theorem Majority.mono (h : Majority P) (hPQ : ∀ v, P v → Q v) : Majority Q := by
  obtain ⟨A, hA, hcard⟩ := h
  exact ⟨A, fun v hv => hPQ v (hA v hv), hcard⟩

/-- **Quorum intersection.** -/
theorem Majority.inter (hP : Majority P) (hQ : Majority Q) : ∃ v, P v ∧ Q v := by
  classical
  obtain ⟨A, hA, hAcard⟩ := hP
  obtain ⟨B, hB, hBcard⟩ := hQ
  have hunion : (A ∪ B).card ≤ Fintype.card ι := Finset.card_le_univ _
  have hsum := Finset.card_union_add_card_inter A B
  have hpos : 0 < (A ∩ B).card := by omega
  obtain ⟨v, hv⟩ := Finset.card_pos.mp hpos
  rw [Finset.mem_inter] at hv
  exact ⟨v, hA v hv.1, hB v hv.2⟩

/-! ## The quorum entry of a sorted list -/

section Rank

variable {α : Type} [LinearOrder α]

/-- In a sorted list the entries from position `i` on are at least the `i`-th. -/
theorem count_ge_of_sorted {l : List α} (hl : l.Pairwise (· ≤ ·)) {i : Nat} {N : α}
    (hi : l[i]? = some N) : l.length ≤ l.countP (fun x => decide (N ≤ x)) + i := by
  induction l generalizing i with
  | nil => simp at hi
  | cons a l ih =>
    rw [List.pairwise_cons] at hl
    cases i with
    | zero =>
      simp only [List.getElem?_cons_zero, Option.some.injEq] at hi
      subst hi
      have hall : l.countP (fun x => decide (a ≤ x)) = l.length := by
        rw [List.countP_eq_length]
        intro x hx
        simpa using hl.1 x hx
      simp [hall]
    | succ i =>
      have h := ih hl.2 (by simpa using hi)
      have hle : l.countP (fun x => decide (N ≤ x)) ≤
          (a :: l).countP (fun x => decide (N ≤ x)) := by
        rw [List.countP_cons]
        exact Nat.le_add_right _ _
      simp only [List.length_cons]
      omega

/-- Only the entries behind position `i` can be above the `i`-th. -/
theorem count_gt_of_sorted {l : List α} (hl : l.Pairwise (· ≤ ·)) {i : Nat} {N M : α}
    (hi : l[i]? = some N) (hM : N < M) :
    l.countP (fun x => decide (M ≤ x)) + (i + 1) ≤ l.length := by
  induction l generalizing i with
  | nil => simp at hi
  | cons a l ih =>
    rw [List.pairwise_cons] at hl
    have haN : a ≤ N := by
      cases i with
      | zero =>
        simp only [List.getElem?_cons_zero, Option.some.injEq] at hi
        exact hi.le
      | succ i => exact hl.1 N (List.mem_of_getElem? (by simpa using hi))
    have hskip : (a :: l).countP (fun x => decide (M ≤ x)) =
        l.countP (fun x => decide (M ≤ x)) := by
      rw [List.countP_cons_of_neg]
      simpa using haN.trans_lt hM
    rw [hskip, List.length_cons]
    cases i with
    | zero => exact Nat.succ_le_succ List.countP_le_length
    | succ i =>
      have h := ih hl.2 (by simpa using hi)
      omega

theorem card_filter_le_eq_countP {n : Nat} (f : Fin n → α) (N : α) :
    (Finset.univ.filter fun v => N ≤ f v).card =
      (List.ofFn f).countP fun x => decide (N ≤ x) := by
  have hset : (Finset.univ.filter fun v => N ≤ f v) =
      ((List.finRange n).filter fun v => decide (N ≤ f v)).toFinset := by
    ext v
    simp
  rw [hset, List.toFinset_card_of_nodup ((List.nodup_finRange n).filter _),
    List.countP_eq_length_filter, List.ofFn_eq_map, List.filter_map, List.length_map]
  rfl

/-- The entry of rank `n - (n / 2 + 1)` is the largest value that more than `n / 2` of the
values of `f` reach. -/
theorem rank_isGreatest {n : Nat} (f : Fin n → α) {N : α}
    (h : ((List.ofFn f).insertionSort (· ≤ ·))[n - (n / 2 + 1)]? = some N) :
    IsGreatest { M | n / 2 < (Finset.univ.filter fun v => M ≤ f v).card } N := by
  have hsorted := List.pairwise_insertionSort (· ≤ ·) (List.ofFn f)
  have hperm := List.perm_insertionSort (· ≤ ·) (List.ofFn f)
  have hlen : ((List.ofFn f).insertionSort (· ≤ ·)).length = n := by simp
  have hi := (List.getElem?_eq_some_iff.mp h).1
  rw [hlen] at hi
  constructor
  · have hcount := count_ge_of_sorted hsorted h
    rw [hlen, hperm.countP_eq, ← card_filter_le_eq_countP] at hcount
    rw [Set.mem_ofPred_eq]
    omega
  · intro M hM
    by_contra hlt
    have hcount := count_gt_of_sorted hsorted h (lt_of_not_ge hlt)
    rw [hlen, hperm.countP_eq, ← card_filter_le_eq_countP] at hcount
    rw [Set.mem_ofPred_eq] at hM
    omega

/-- The values of `f` that reach the entry of rank `n - (n / 2 + 1)` form a majority. -/
theorem majority_of_rank {n : Nat} (f : Fin n → α) {N : α}
    (h : ((List.ofFn f).insertionSort (· ≤ ·))[n - (n / 2 + 1)]? = some N) :
    Majority fun v => N ≤ f v := by
  have hcard := (rank_isGreatest f h).1
  rw [Set.mem_ofPred_eq] at hcard
  refine ⟨Finset.univ.filter fun v => N ≤ f v, ?_, ?_⟩
  · intro v hv
    simpa using hv
  · rw [Fintype.card_fin]
    omega

end Rank

end RaftImplementation.Library
