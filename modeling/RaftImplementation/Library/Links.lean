import Mathlib.Data.List.Nodup
import Mathlib.Logic.Function.Basic

/-!
# Doubly linked lists

Nodes with a pointer to the next and one to the previous node. A node is taken out of a
list by linking its neighbours to each other. Its own pointers stay as they are, so it can
be put back where it was: `relink` undoes `unlink`, and puts back the very same pointers.
-/

namespace RaftImplementation.Library

/-- The pointers of the nodes. -/
structure Links (ι : Type) where
  next : ι → Option ι
  prev : ι → Option ι

namespace Links

variable {ι : Type}

/-- The nodes `x :: l` are linked in this order, and the last one has no next node. -/
def Linked (L : Links ι) : ι → List ι → Prop
  | x, [] => L.next x = none
  | x, y :: l => L.next x = some y ∧ L.prev y = some x ∧ Linked L y l

/-- The nodes from a pointer on, as far as the fuel lasts. -/
def follow (L : Links ι) : Nat → Option ι → List ι
  | 0, _ => []
  | _ + 1, none => []
  | fuel + 1, some x => x :: L.follow fuel (L.next x)

variable {L L' : Links ι} {x y p q : ι} {a b l : List ι}

namespace Linked

theorem next_eq (h : L.Linked x l) : L.next x = l.head? := by
  cases l with
  | nil => exact h
  | cons y l => exact h.1

theorem right (h : L.Linked p (a ++ x :: b)) : L.Linked x b := by
  induction a generalizing p with
  | nil => exact h.2.2
  | cons y a ih => exact ih h.2.2

/-- The node before `x` and `x` point to each other. -/
theorem exists_prev (h : L.Linked p (a ++ x :: b)) :
    ∃ q ∈ p :: a, L.prev x = some q ∧ L.next q = some x := by
  induction a generalizing p with
  | nil => exact ⟨p, List.mem_singleton_self p, h.2.1, h.1⟩
  | cons y a ih =>
    obtain ⟨q, hq, hx⟩ := ih h.2.2
    exact ⟨q, List.mem_cons_of_mem p hq, hx⟩

/-- So do `x` and the node after it. -/
theorem prev_next (h : L.Linked x b) (hq : L.next x = some q) : L.prev q = some x := by
  cases b with
  | nil =>
    rw [h.next_eq] at hq
    cases hq
  | cons r b =>
    rw [h.1, Option.some.injEq] at hq
    subst hq
    exact h.2.1

/-- Only the pointers along the list matter. -/
theorem frame (h : L.Linked x l) (hnext : ∀ y ∈ x :: l, L'.next y = L.next y)
    (hprev : ∀ y ∈ l, L'.prev y = L.prev y) : L'.Linked x l := by
  induction l generalizing x with
  | nil =>
    show L'.next x = none
    rw [hnext x (by simp)]
    exact h
  | cons y l ih =>
    obtain ⟨hx, hy, hl⟩ := h
    refine ⟨?_, ?_, ih hl ?_ ?_⟩
    · rw [hnext x (by simp), hx]
    · rw [hprev y (by simp), hy]
    · intro z hz
      exact hnext z (List.mem_cons_of_mem x hz)
    · intro z hz
      exact hprev z (List.mem_cons_of_mem y hz)

theorem follow_eq (h : L.Linked x l) {fuel : Nat} (hfuel : l.length < fuel) :
    L.follow fuel (some x) = x :: l := by
  induction l generalizing x fuel with
  | nil =>
    obtain ⟨fuel, rfl⟩ := Nat.exists_eq_succ_of_ne_zero (Nat.ne_zero_of_lt hfuel)
    rw [follow, h.next_eq]
    cases fuel with
    | zero => rfl
    | succ fuel => rfl
  | cons y l ih =>
    obtain ⟨fuel, rfl⟩ := Nat.exists_eq_succ_of_ne_zero (Nat.ne_zero_of_lt hfuel)
    rw [follow, h.1, ih h.2.2 (by simpa using hfuel)]

end Linked

/-- What changes when `x` is taken out, where `p` is the node before it. -/
structure Unlinked (L L' : Links ι) (x p : ι) : Prop where
  next_prev : L'.next p = L.next x
  next_other : ∀ y, y ≠ p → L'.next y = L.next y
  prev_next : ∀ q, L.next x = some q → L'.prev q = some p
  prev_other : ∀ y, L.next x ≠ some y → L'.prev y = L.prev y

/-- The list without `x` is linked. -/
theorem Unlinked.linked (h : L.Unlinked L' x p) (hl : L.Linked y (a ++ x :: b)) (hp : L.prev x = some p)
    (hnd : (y :: (a ++ x :: b)).Nodup) : L'.Linked y (a ++ b) := by
  induction a generalizing y with
  | nil =>
    obtain ⟨-, hy, hb⟩ := hl
    rw [hp, Option.some.injEq] at hy
    subst hy
    cases b with
    | nil => exact h.next_prev.trans hb
    | cons q b =>
      obtain ⟨hq, hxq, hb⟩ := hb
      simp only [List.nil_append, List.nodup_cons, List.mem_cons, not_or] at hnd
      refine ⟨h.next_prev.trans hq, h.prev_next q hq, hb.frame ?_ ?_⟩
      · intro z hz
        apply h.next_other
        rintro rfl
        cases List.mem_cons.mp hz with
        | inl hzq => exact hnd.1.2.1 hzq
        | inr hzb => exact hnd.1.2.2 hzb
      · intro z hz
        apply h.prev_other
        rw [hq, ne_eq, Option.some.injEq]
        rintro rfl
        exact hnd.2.2.1 hz
  | cons z a ih =>
    obtain ⟨hyz, hzy, hrest⟩ := hl
    rw [List.cons_append, List.nodup_cons] at hnd
    have hpmem : p ∈ z :: a := by
      obtain ⟨q, hq, hprev, -⟩ := hrest.exists_prev
      rw [hp, Option.some.injEq] at hprev
      rwa [hprev]
    refine ⟨?_, ?_, ih hrest hnd.2⟩
    · rw [h.next_other, hyz]
      rintro rfl
      exact hnd.1 (List.mem_append_left (x :: b) hpmem)
    · rw [h.prev_other, hzy]
      intro hq
      have hzb : z ∈ b := by
        rw [hrest.right.next_eq] at hq
        exact List.mem_of_mem_head? hq
      have hzrest := (List.nodup_cons.mp hnd.2).1
      exact hzrest (List.mem_append_right a (List.mem_cons_of_mem x hzb))

variable [DecidableEq ι]

def setNext (L : Links ι) (x : ι) (y : Option ι) : Links ι :=
  { L with next := Function.update L.next x y }

def setPrev (L : Links ι) (x : ι) (y : Option ι) : Links ι :=
  { L with prev := Function.update L.prev x y }

/-- Takes `x` out of its list; there must be a node before it. -/
def unlink (L : Links ι) (x : ι) : Option (Links ι) :=
  (L.prev x).map fun p =>
    let L := L.setNext p (L.next x)
    match L.next x with
    | none => L
    | some q => L.setPrev q (L.prev x)

/-- Puts `x` back between the nodes that it points to. -/
def relink (L : Links ι) (x : ι) : Option (Links ι) :=
  (L.prev x).map fun p =>
    let L := L.setNext p (some x)
    match L.next x with
    | none => L
    | some q => L.setPrev q (some x)

theorem unlink_eq (hp : L.prev x = some p) (hpx : p ≠ x) :
    ∃ L', L.unlink x = some L' ∧ L.Unlinked L' x p := by
  have hnext : (L.setNext p (L.next x)).next x = L.next x := Function.update_of_ne hpx.symm _ _
  cases hq : L.next x with
  | none =>
    refine ⟨L.setNext p none, ?_, ?_, ?_, ?_, ?_⟩
    · rw [hq] at hnext
      simp only [unlink, hp, hq, Option.map_some, hnext]
    · rw [hq]
      exact Function.update_self _ _ _
    · intro y hy
      exact Function.update_of_ne hy _ _
    · intro q hq'
      rw [hq] at hq'
      cases hq'
    · intro y _
      rfl
  | some q =>
    refine ⟨(L.setNext p (some q)).setPrev q (some p), ?_, ?_, ?_, ?_, ?_⟩
    · rw [hq] at hnext
      simp only [unlink, hp, hq, Option.map_some, hnext]
      rw [show (L.setNext p (some q)).prev x = some p from hp]
    · rw [hq]
      exact Function.update_self _ _ _
    · intro y hy
      exact Function.update_of_ne hy _ _
    · intro q' hq'
      rw [hq, Option.some.injEq] at hq'
      subst hq'
      exact Function.update_self _ _ _
    · intro y hy
      have hne : y ≠ q := by
        rintro rfl
        exact hy hq
      exact Function.update_of_ne hne _ _

/-- Putting `x` back restores all pointers. -/
theorem Unlinked.relink_eq (h : L.Unlinked L' x p) (hp : L.prev x = some p) (hpx : L.next p = some x)
    (hqx : ∀ q, L.next x = some q → L.prev q = some x) (hne : p ≠ x) :
    L'.relink x = some L := by
  have hself : L.next x ≠ some x := by
    intro hx
    have hback := hqx x hx
    rw [hp, Option.some.injEq] at hback
    exact hne hback
  have hprev : L'.prev x = some p := (h.prev_other x hself).trans hp
  have hnext : (L'.setNext p (some x)).next x = L.next x :=
    (Function.update_of_ne hne.symm _ _).trans (h.next_other x hne.symm)
  have hnexts : Function.update L'.next p (some x) = L.next := by
    funext y
    by_cases hy : y = p
    · subst hy
      rw [Function.update_self, hpx]
    · rw [Function.update_of_ne hy, h.next_other y hy]
  cases hq : L.next x with
  | none =>
    have hprevs : L'.prev = L.prev := by
      funext y
      exact h.prev_other y (by simp [hq])
    rw [hq] at hnext
    simp only [relink, hprev, Option.map_some, hnext]
    rw [setNext, hnexts, hprevs]
  | some q =>
    have hprevs : Function.update L'.prev q (some x) = L.prev := by
      funext y
      by_cases hy : y = q
      · subst hy
        rw [Function.update_self, hqx y hq]
      · rw [Function.update_of_ne hy, h.prev_other y]
        rw [hq, ne_eq, Option.some.injEq]
        exact fun heq => hy heq.symm
    rw [hq] at hnext
    simp only [relink, hprev, Option.map_some, hnext]
    rw [setPrev, setNext, hnexts]
    exact congrArg some (congrArg (Links.mk L.next) hprevs)

theorem filter_ne (hnd : (a ++ x :: b).Nodup) : (a ++ x :: b).filter (· ≠ x) = a ++ b := by
  rw [List.nodup_middle, List.nodup_cons] at hnd
  have hself : (a ++ b).filter (· ≠ x) = a ++ b := by
    apply List.filter_eq_self.mpr
    intro y hy
    apply decide_eq_true
    rintro rfl
    exact hnd.1 hy
  rw [List.filter_append, List.filter_cons_of_neg (by simp), ← List.filter_append, hself]

/-- A node is taken out of a list and can be put back. -/
theorem Linked.unlink (hl : L.Linked p l) (hnd : (p :: l).Nodup) (hx : x ∈ l) :
    ∃ L', L.unlink x = some L' ∧ L'.Linked p (l.filter (· ≠ x)) ∧ L'.next x = L.next x ∧
      L'.relink x = some L := by
  obtain ⟨a, b, rfl⟩ := List.append_of_mem hx
  obtain ⟨q, hmem, hq, hqnext⟩ := hl.exists_prev
  have hqx : q ≠ x := by
    rintro rfl
    rw [← List.cons_append, List.nodup_append] at hnd
    exact hnd.2.2 q hmem q (by simp) rfl
  obtain ⟨L', hL', hun⟩ := unlink_eq hq hqx
  refine ⟨L', hL', ?_, hun.next_other x hqx.symm, hun.relink_eq hq hqnext ?_ hqx⟩
  · rw [filter_ne (List.nodup_cons.mp hnd).2]
    exact hun.linked hl hq hnd
  · intro r hr
    exact hl.right.prev_next hr

end Links

end RaftImplementation.Library
