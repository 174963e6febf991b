import Mathlib.Data.List.Nodup
import Mathlib.Data.List.Perm.Basic
import Mathlib.Order.Defs.Unbundled

/-!
# Cutting a list into groups

A scan with two pointers: the one stays at the first element of a group while the other
runs on as long as a test says that its element belongs to the same group. Every element
is in one group, whatever the test. On a list that is sorted by a key, the test that
compares keys gives one group for each key, in the order of the keys; a finer test gives
one group for each key if and only if no two groups begin with the same key.
-/

namespace RaftImplementation.Library

variable {α κ : Type}

/-- The group that begins with `first` has been read as far as `group`. -/
def scan (same : α → α → Bool) (first : α) (group : List α) : List α → List (α × List α)
  | [] => [(first, group)]
  | x :: rest =>
    if same x first then scan same first (group ++ [x]) rest
    else (first, group) :: scan same x [x] rest

/-- The groups, each with its first element. -/
def grouped (same : α → α → Bool) : List α → List (α × List α)
  | [] => []
  | x :: rest => scan same x [x] rest

variable {same same' : α → α → Bool} {first : α} {group l rest : List α}

/-! ## Any test -/

theorem scan_flatMap : (scan same first group rest).flatMap Prod.snd = group ++ rest := by
  induction rest generalizing first group with
  | nil => simp [scan]
  | cons x rest ih =>
    rw [scan]
    by_cases hx : same x first = true
    · rw [if_pos hx, ih, List.append_assoc, List.singleton_append]
    · rw [if_neg hx, List.flatMap_cons, ih, List.singleton_append]

/-- Nothing is left out or moved. -/
theorem grouped_flatMap (same : α → α → Bool) (l : List α) :
    (grouped same l).flatMap Prod.snd = l := by
  cases l with
  | nil => rfl
  | cons x rest => exact scan_flatMap

theorem scan_firsts : ((scan same first group rest).map Prod.fst).Sublist (first :: rest) := by
  induction rest generalizing first group with
  | nil => exact List.Sublist.refl _
  | cons x rest ih =>
    rw [scan]
    by_cases hx : same x first = true
    · rw [if_pos hx]
      exact ih.trans ((List.sublist_cons_self x rest).cons_cons first)
    · rw [if_neg hx, List.map_cons]
      exact ih.cons_cons first

/-- The groups begin in the order of the list. -/
theorem grouped_firsts (same : α → α → Bool) (l : List α) :
    ((grouped same l).map Prod.fst).Sublist l := by
  cases l with
  | nil => exact List.Sublist.refl _
  | cons x rest => exact scan_firsts

theorem scan_same (hgroup : ∀ x ∈ group, x = first ∨ same x first = true) {p : α × List α}
    (hp : p ∈ scan same first group rest) {x : α} (hx : x ∈ p.2) :
    x = p.1 ∨ same x p.1 = true := by
  induction rest generalizing first group with
  | nil =>
    rw [scan, List.mem_singleton] at hp
    subst hp
    exact hgroup x hx
  | cons y rest ih =>
    rw [scan] at hp
    by_cases hy : same y first = true
    · rw [if_pos hy] at hp
      refine ih ?_ hp
      intro z hz
      rcases List.mem_append.mp hz with hz | hz
      · exact hgroup z hz
      · rw [List.mem_singleton.mp hz]
        exact .inr hy
    · rw [if_neg hy] at hp
      rcases List.mem_cons.mp hp with rfl | hp
      · exact hgroup x hx
      · exact ih (fun z hz => .inl (List.mem_singleton.mp hz)) hp

/-- The elements of a group have passed the test against its first one. -/
theorem grouped_same {p : α × List α} (hp : p ∈ grouped same l) {x : α} (hx : x ∈ p.2) :
    x = p.1 ∨ same x p.1 = true := by
  cases l with
  | nil => cases hp
  | cons y rest => exact scan_same (fun z hz => .inl (List.mem_singleton.mp hz)) hp hx

theorem exists_group (same : α → α → Bool) {x : α} (hx : x ∈ l) :
    ∃ p ∈ grouped same l, x ∈ p.2 := by
  rw [← grouped_flatMap same l, List.mem_flatMap] at hx
  exact hx

/-- Two tests that agree on the elements of the list give the same groups. -/
theorem scan_congr (h : ∀ x ∈ first :: rest, ∀ y ∈ first :: rest, same x y = same' x y) :
    scan same first group rest = scan same' first group rest := by
  induction rest generalizing first group with
  | nil => rfl
  | cons x rest ih =>
    rw [scan, scan, h x (by simp) first (by simp)]
    by_cases hx : same' x first = true
    · rw [if_pos hx, if_pos hx]
      apply ih
      intro y hy z hz
      have hsub : first :: rest ⊆ first :: x :: rest :=
        ((List.sublist_cons_self x rest).cons_cons first).subset
      exact h y (hsub hy) z (hsub hz)
    · rw [if_neg hx, if_neg hx, ih]
      intro y hy z hz
      exact h y (List.mem_cons_of_mem _ hy) z (List.mem_cons_of_mem _ hz)

theorem grouped_congr (h : ∀ x ∈ l, ∀ y ∈ l, same x y = same' x y) :
    grouped same l = grouped same' l := by
  cases l with
  | nil => rfl
  | cons x rest => exact scan_congr h

/-! ## Groups of one key -/

section Keys

variable [DecidableEq κ] {key : α → κ}

/-- If the groups are of one key each and no key comes twice, a group has all elements of
its key. -/
theorem filter_eq_group {ps : List (α × List α)} (hnd : (ps.map fun p => key p.1).Nodup)
    (hkey : ∀ p ∈ ps, ∀ x ∈ p.2, key x = key p.1) {p : α × List α} (hp : p ∈ ps) :
    (ps.flatMap Prod.snd).filter (fun x => key x = key p.1) = p.2 := by
  induction ps with
  | nil => cases hp
  | cons q ps ih =>
    rw [List.map_cons, List.nodup_cons] at hnd
    obtain ⟨hnew, hnd⟩ := hnd
    rw [List.flatMap_cons, List.filter_append]
    rcases List.mem_cons.mp hp with rfl | hmem
    · have hall : p.2.filter (fun x => key x = key p.1) = p.2 := by
        rw [List.filter_eq_self]
        intro x hx
        exact decide_eq_true (hkey p List.mem_cons_self x hx)
      have hnone : (ps.flatMap Prod.snd).filter (fun x => key x = key p.1) = [] := by
        rw [List.filter_eq_nil_iff]
        intro x hx hxp
        obtain ⟨q, hq, hxq⟩ := List.mem_flatMap.mp hx
        have hqp : key q.1 = key p.1 :=
          (hkey q (List.mem_cons_of_mem _ hq) x hxq).symm.trans (of_decide_eq_true hxp)
        exact hnew (hqp ▸ List.mem_map_of_mem hq)
      rw [hall, hnone, List.append_nil]
    · have hnone : q.2.filter (fun x => key x = key p.1) = [] := by
        rw [List.filter_eq_nil_iff]
        intro x hx hxp
        have hqp : key p.1 = key q.1 :=
          (of_decide_eq_true hxp).symm.trans (hkey q List.mem_cons_self x hx)
        exact hnew (hqp ▸ List.mem_map_of_mem (f := fun p => key p.1) hmem)
      rw [hnone, List.nil_append]
      exact ih hnd (fun r hr => hkey r (List.mem_cons_of_mem _ hr)) hmem

variable [LT κ] [IsStrictTotalOrder κ (· < ·)]

omit [DecidableEq κ] in
theorem lt_of_not_lt_of_ne {a b : κ} (h : ¬ b < a) (hne : a ≠ b) : a < b := by
  by_contra hab
  exact hne (Std.Trichotomous.trichotomous a b hab h)

/-- In a sorted list, what comes behind `x` is above everything below `x`. -/
theorem lt_of_sorted {x : α} {k : κ} (hsorted : (x :: rest).Pairwise fun a b => ¬ key b < key a)
    (hk : k < key x) {y : α} (hy : y ∈ x :: rest) : k < key y := by
  rcases List.mem_cons.mp hy with rfl | hy
  · exact hk
  · have hxy := (List.pairwise_cons.mp hsorted).1 y hy
    by_cases heq : key x = key y
    · exact heq ▸ hk
    · exact IsTrans.trans k (key x) (key y) hk (lt_of_not_lt_of_ne hxy heq)

theorem scan_keys_lt (hsorted : (first :: rest).Pairwise fun a b => ¬ key b < key a) :
    ((scan (fun x y => key x = key y) first group rest).map fun p => key p.1).Pairwise
      (· < ·) := by
  induction rest generalizing first group with
  | nil => simp [scan]
  | cons x rest ih =>
    rw [scan]
    by_cases hx : key x = key first
    · rw [if_pos (decide_eq_true hx)]
      exact ih (hsorted.sublist ((List.sublist_cons_self x rest).cons_cons first))
    · rw [if_neg (by simpa using hx), List.map_cons, List.pairwise_cons]
      obtain ⟨hfirst, hrest⟩ := List.pairwise_cons.mp hsorted
      refine ⟨?_, ih hrest⟩
      intro k hk
      obtain ⟨p, hp, rfl⟩ := List.mem_map.mp hk
      have hbegin : p.1 ∈ x :: rest := scan_firsts.subset (List.mem_map_of_mem hp)
      have hlt : key first < key x :=
        lt_of_not_lt_of_ne (hfirst x List.mem_cons_self) (Ne.symm hx)
      exact lt_of_sorted hrest hlt hbegin

/-- With keys compared, every key of a sorted list has one group, in increasing order. -/
theorem grouped_keys_lt (hsorted : l.Pairwise fun a b => ¬ key b < key a) :
    ((grouped (fun x y => key x = key y) l).map fun p => key p.1).Pairwise (· < ·) := by
  cases l with
  | nil => exact List.Pairwise.nil
  | cons x rest => exact scan_keys_lt hsorted

omit [DecidableEq κ] in
/-- With any test, groups that begin with different keys are in increasing order. -/
theorem grouped_keys_lt_of_nodup (hsorted : l.Pairwise fun a b => ¬ key b < key a)
    (hnd : ((grouped same l).map fun p => key p.1).Nodup) :
    ((grouped same l).map fun p => key p.1).Pairwise (· < ·) := by
  have hle : ((grouped same l).map fun p => key p.1).Pairwise fun a b => ¬ b < a := by
    have hfirsts := hsorted.sublist (grouped_firsts same l)
    rw [List.pairwise_map] at hfirsts ⊢
    exact hfirsts
  exact (hle.and hnd).imp fun h => lt_of_not_lt_of_ne h.1 h.2

end Keys

end RaftImplementation.Library
