import Mathlib.Data.List.Nodup
import Mathlib.Logic.Function.Basic

/-!
# Linearizability

A history is the list of the calls and returns of some processes, each of which has at
most one call open. It is linearizable if its calls can be put in one sequence, in which
each call stands at most once and each returned call stands, such that a sequential
object, given the calls in that order, answers each returned call as the history does,
and a call that has returned before another begins stands before it. A call that has not
returned may stand in the sequence or not.

A history can be shown to be linearizable by naming, for each call, one moment between
the call and its return at which it takes effect: `Witnessed` is the sequential object
with such moments, and all its histories are linearizable.
-/

namespace RaftImplementation.Library

inductive HistoryEvent (P O R : Type) where
  | call (p : P) (o : O)
  | ret (p : P) (r : R)
  deriving DecidableEq, Repr

def HistoryEvent.process {P O R : Type} : HistoryEvent P O R → P
  | .call p _ => p
  | .ret p _ => p

/-- A sequential object. -/
structure SequentialSpec (S O R : Type) where
  initial : S
  apply : S → O → S × R

variable {P O R S : Type} {spec : SequentialSpec S O R}
variable {h : List (HistoryEvent P O R)} {L : List (Nat × R)} {s s' : S}

/-- The call at position `i` returns `r` at position `j`: the return is the next event of
the process. -/
def Returns (h : List (HistoryEvent P O R)) (i j : Nat) (r : R) : Prop :=
  ∃ p o, h[i]? = some (.call p o) ∧ h[j]? = some (.ret p r) ∧ i < j ∧
    ∀ k e, i < k → k < j → h[k]? = some e → e.process ≠ p

/-- The object goes from `s` to `s'` when it is given the calls at the positions in `L`,
and answers each as `L` says. -/
inductive Legal (spec : SequentialSpec S O R) (h : List (HistoryEvent P O R)) (s : S) :
    List (Nat × R) → S → Prop
  | nil : Legal spec h s [] s
  | snoc {L : List (Nat × R)} {s₁ : S} {i : Nat} {p : P} {o : O} :
      Legal spec h s L s₁ → h[i]? = some (.call p o) →
      Legal spec h s (L ++ [(i, (spec.apply s₁ o).2)]) (spec.apply s₁ o).1

/-- The sequence `L` of calls explains the history and leaves the object in state `s`. -/
structure IsLinearization (spec : SequentialSpec S O R) (h : List (HistoryEvent P O R))
    (L : List (Nat × R)) (s : S) : Prop where
  legal : Legal spec h spec.initial L s
  nodup : (L.map Prod.fst).Nodup
  complete : ∀ i j r, Returns h i j r → (i, r) ∈ L
  order : ∀ i j r x, Returns h i j r → x ∈ L → j < x.1 → [(i, r), x].Sublist L

/-- The history is linearizable, by calls that leave the object in state `s`. -/
def Linearizable (spec : SequentialSpec S O R) (h : List (HistoryEvent P O R)) (s : S) : Prop :=
  ∃ L, IsLinearization spec h L s

/-! ## The object with its moments -/

/-- Where a process stands: without an open call, with the call at position `i`, or with
a call that has taken effect and has its answer. -/
inductive CallStatus (O R : Type) where
  | idle
  | called (i : Nat) (o : O)
  | answered (i : Nat) (r : R)

/-- The history, the calls in the order of their moments, the object, and the processes. -/
inductive Witnessed [DecidableEq P] (spec : SequentialSpec S O R) :
    List (HistoryEvent P O R) → List (Nat × R) → S → (P → CallStatus O R) → Prop
  | start : Witnessed spec [] [] spec.initial fun _ => .idle
  | call {h : List (HistoryEvent P O R)} {L : List (Nat × R)} {s : S} {st : P → CallStatus O R}
      {p : P} (o : O) : Witnessed spec h L s st → st p = .idle →
      Witnessed spec (h ++ [.call p o]) L s (Function.update st p (.called h.length o))
  | effect {h : List (HistoryEvent P O R)} {L : List (Nat × R)} {s : S}
      {st : P → CallStatus O R} {p : P} {i : Nat} {o : O} :
      Witnessed spec h L s st → st p = .called i o →
      Witnessed spec h (L ++ [(i, (spec.apply s o).2)]) (spec.apply s o).1
        (Function.update st p (.answered i (spec.apply s o).2))
  | ret {h : List (HistoryEvent P O R)} {L : List (Nat × R)} {s : S} {st : P → CallStatus O R}
      {p : P} {i : Nat} {r : R} : Witnessed spec h L s st → st p = .answered i r →
      Witnessed spec (h ++ [.ret p r]) L s (Function.update st p .idle)

/-! ## Longer histories -/

theorem getElem?_append_one {α : Type} {l : List α} {x y : α} {i : Nat}
    (h : (l ++ [x])[i]? = some y) : l[i]? = some y ∨ i = l.length ∧ y = x := by
  rw [List.getElem?_append] at h
  split at h
  · exact Or.inl h
  · rename_i hge
    have hi : i = l.length := by
      by_contra hne
      rw [List.getElem?_eq_none (by simp; omega)] at h
      cases h
    subst hi
    simp at h
    exact Or.inr ⟨rfl, h.symm⟩

theorem getElem?_append_some {α : Type} {l : List α} {y : α} {i : Nat} (h : l[i]? = some y)
    (m : List α) : (l ++ m)[i]? = some y := by
  obtain ⟨hi, -⟩ := List.getElem?_eq_some_iff.mp h
  rw [List.getElem?_append_left hi, h]

theorem Legal.mono (hl : Legal spec h s L s') (m : List (HistoryEvent P O R)) :
    Legal spec (h ++ m) s L s' := by
  induction hl with
  | nil => exact .nil
  | snoc _ hi ih => exact ih.snoc (getElem?_append_some hi m)

theorem Legal.isCall (hl : Legal spec h s L s') {x : Nat × R} (hx : x ∈ L) :
    ∃ p o, h[x.1]? = some (.call p o) := by
  induction hl with
  | nil => cases hx
  | snoc _ hi ih =>
    cases List.mem_append.mp hx with
    | inl hold => exact ih hold
    | inr hnew =>
      rw [List.mem_singleton.mp hnew]
      exact ⟨_, _, hi⟩

/-- A return in a history with one more event was there before, or is that event. -/
theorem Returns.of_append {e : HistoryEvent P O R} {i j : Nat} {r : R}
    (hr : Returns (h ++ [e]) i j r) :
    Returns h i j r ∨ ∃ p o, j = h.length ∧ e = .ret p r ∧ h[i]? = some (.call p o) ∧
      ∀ k e, i < k → h[k]? = some e → e.process ≠ p := by
  obtain ⟨p, o, hi, hj, hij, hbetween⟩ := hr
  cases getElem?_append_one hj with
  | inl hj =>
    left
    obtain ⟨hlt, -⟩ := List.getElem?_eq_some_iff.mp hj
    cases getElem?_append_one hi with
    | inl hi =>
      exact ⟨p, o, hi, hj, hij, fun k e hik hkj hk =>
        hbetween k e hik hkj (getElem?_append_some hk _)⟩
    | inr hi => omega
  | inr hj =>
    right
    cases getElem?_append_one hi with
    | inl hi =>
      refine ⟨p, o, hj.1, hj.2.symm, hi, fun k e hik hk => ?_⟩
      obtain ⟨hlt, -⟩ := List.getElem?_eq_some_iff.mp hk
      exact hbetween k e hik (by omega) (getElem?_append_some hk _)
    | inr hi => omega

/-! ## Every witnessed history is linearizable -/

/-- The event at `i` is the last one of the process. -/
def LastOf (h : List (HistoryEvent P O R)) (p : P) (i : Nat) : Prop :=
  ∀ k e, i < k → h[k]? = some e → e.process ≠ p

theorem LastOf.append {p : P} {i : Nat} (hl : LastOf h p i) {e : HistoryEvent P O R}
    (he : e.process ≠ p) : LastOf (h ++ [e]) p i := by
  intro k e' hik hk
  cases getElem?_append_one hk with
  | inl hk => exact hl k e' hik hk
  | inr hk =>
    rw [hk.2]
    exact he

/-- The open call of a process is its last event. -/
theorem LastOf.unique {p : P} {i i' : Nat} (hl : LastOf h p i) (hl' : LastOf h p i') {o o' : O}
    (hi : h[i]? = some (.call p o)) (hi' : h[i']? = some (.call p o')) : i = i' := by
  by_contra hne
  by_cases hlt : i < i'
  · exact hl i' _ hlt hi' rfl
  · exact hl' i _ (by omega) hi rfl

/-- What the place of a process says about the history. -/
def StatusFits (h : List (HistoryEvent P O R)) (L : List (Nat × R)) (p : P) :
    CallStatus O R → Prop
  | .idle => True
  | .called i o => h[i]? = some (.call p o) ∧ LastOf h p i ∧ i ∉ L.map Prod.fst
  | .answered i r => (∃ o, h[i]? = some (.call p o)) ∧ LastOf h p i ∧ (i, r) ∈ L

/-- An event of another process. -/
theorem StatusFits.append {p : P} {status : CallStatus O R} (hs : StatusFits h L p status)
    {e : HistoryEvent P O R} (he : e.process ≠ p) : StatusFits (h ++ [e]) L p status := by
  cases status with
  | idle => trivial
  | called i o =>
    obtain ⟨hi, hlast, hnot⟩ := hs
    exact ⟨getElem?_append_some hi _, hlast.append he, hnot⟩
  | answered i r =>
    obtain ⟨⟨o, hi⟩, hlast, hmem⟩ := hs
    exact ⟨⟨o, getElem?_append_some hi _⟩, hlast.append he, hmem⟩

/-- The call of another process takes effect. -/
theorem StatusFits.effect {p q : P} {status : CallStatus O R} (hs : StatusFits h L p status)
    {i : Nat} {o : O} (hi : h[i]? = some (.call q o)) (hq : q ≠ p) (r : R) :
    StatusFits h (L ++ [(i, r)]) p status := by
  cases status with
  | idle => trivial
  | called i' o' =>
    obtain ⟨hi', hlast, hnot⟩ := hs
    refine ⟨hi', hlast, ?_⟩
    intro hmem
    rw [List.map_append, List.mem_append] at hmem
    cases hmem with
    | inl hold => exact hnot hold
    | inr hnew =>
      rw [List.map_singleton, List.mem_singleton] at hnew
      subst hnew
      rw [hi, Option.some.injEq, HistoryEvent.call.injEq] at hi'
      exact hq hi'.1
  | answered i' r' =>
    obtain ⟨hcall, hlast, hmem⟩ := hs
    exact ⟨hcall, hlast, List.mem_append_left _ hmem⟩

namespace IsLinearization

/-- A call is not a return. -/
theorem call (hl : IsLinearization spec h L s) (p : P) (o : O) :
    IsLinearization spec (h ++ [.call p o]) L s := by
  have hold : ∀ i j r, Returns (h ++ [.call p o]) i j r → Returns h i j r := by
    intro i j r hr
    cases hr.of_append with
    | inl hr => exact hr
    | inr hnew =>
      obtain ⟨_, _, _, he, _⟩ := hnew
      cases he
  constructor
  · exact hl.legal.mono _
  · exact hl.nodup
  · intro i j r hr
    exact hl.complete i j r (hold i j r hr)
  · intro i j r x hr hx hlt
    exact hl.order i j r x (hold i j r hr) hx hlt

/-- A call takes effect after those that have returned, which stand in `L` already. -/
theorem effect (hl : IsLinearization spec h L s) {i : Nat} {p : P} {o : O}
    (hi : h[i]? = some (.call p o)) (hnot : i ∉ L.map Prod.fst) :
    IsLinearization spec h (L ++ [(i, (spec.apply s o).2)]) (spec.apply s o).1 := by
  constructor
  · exact hl.legal.snoc hi
  · rw [List.map_append, List.map_singleton, ← List.concat_eq_append]
    exact hl.nodup.concat hnot
  · intro i' j r hr
    exact List.mem_append_left _ (hl.complete i' j r hr)
  · intro i' j r x hr hx hlt
    cases List.mem_append.mp hx with
    | inl hold => exact (hl.order i' j r x hr hold hlt).trans (List.sublist_append_left _ _)
    | inr hnew =>
      rw [List.mem_singleton.mp hnew]
      exact (List.singleton_sublist.mpr (hl.complete i' j r hr)).append (List.Sublist.refl _)

/-- Nothing has been called after a return that is the last event. -/
theorem ret (hl : IsLinearization spec h L s) {p : P} {i : Nat} {r : R} {o : O}
    (hi : h[i]? = some (.call p o)) (hlast : LastOf h p i) (hmem : (i, r) ∈ L) :
    IsLinearization spec (h ++ [.ret p r]) L s := by
  constructor
  · exact hl.legal.mono _
  · exact hl.nodup
  · intro i' j r' hr
    cases hr.of_append with
    | inl hr => exact hl.complete i' j r' hr
    | inr hnew =>
      obtain ⟨q, o', -, he, hi', hlast'⟩ := hnew
      obtain ⟨rfl, rfl⟩ := HistoryEvent.ret.inj he
      rw [hlast.unique hlast' hi hi'] at hmem
      exact hmem
  · intro i' j r' x hr hx hlt
    cases hr.of_append with
    | inl hr => exact hl.order i' j r' x hr hx hlt
    | inr hnew =>
      obtain ⟨q, o', hj, -⟩ := hnew
      obtain ⟨p', o'', hcall⟩ := hl.legal.isCall hx
      obtain ⟨hx', -⟩ := List.getElem?_eq_some_iff.mp hcall
      omega

end IsLinearization

/-- A new call is the last event, and no earlier one stands at its place. -/
theorem IsLinearization.statusFits_call (hl : IsLinearization spec h L s) (p : P) (o : O) :
    StatusFits (h ++ [.call p o]) L p (.called h.length o) := by
  refine ⟨by simp, ?_, ?_⟩
  · intro k e hlt hk
    rw [List.getElem?_eq_none (by simp; omega)] at hk
    cases hk
  · intro hmem
    obtain ⟨x, hx, hxlen⟩ := List.mem_map.mp hmem
    obtain ⟨p', o', hcall⟩ := hl.legal.isCall hx
    obtain ⟨hlt, -⟩ := List.getElem?_eq_some_iff.mp hcall
    omega

theorem Witnessed.isLinearization [DecidableEq P] {st : P → CallStatus O R}
    (hw : Witnessed spec h L s st) :
    IsLinearization spec h L s ∧ ∀ p, StatusFits h L p (st p) := by
  induction hw with
  | start =>
    refine ⟨⟨.nil, List.nodup_nil, ?_, ?_⟩, fun _ => trivial⟩
    · rintro i j r ⟨p, o, hi, -⟩
      cases hi
    · rintro i j r x ⟨p, o, hi, -⟩
      cases hi
  | @call h L s st p o _ hp ih =>
    obtain ⟨hl, hfits⟩ := ih
    refine ⟨hl.call p o, (Function.forall_update_iff st (StatusFits _ _)).mpr ⟨?_, ?_⟩⟩
    · exact hl.statusFits_call p o
    · intro q hq
      exact (hfits q).append (Ne.symm hq)
  | @effect h L s st p i o _ hp ih =>
    obtain ⟨hl, hfits⟩ := ih
    have hown := hfits p
    rw [hp] at hown
    obtain ⟨hi, hlast, hnot⟩ := hown
    refine ⟨hl.effect hi hnot, (Function.forall_update_iff st (StatusFits _ _)).mpr ⟨?_, ?_⟩⟩
    · exact ⟨⟨o, hi⟩, hlast, by simp⟩
    · intro q hq
      exact (hfits q).effect hi (Ne.symm hq) _
  | @ret h L s st p i r _ hp ih =>
    obtain ⟨hl, hfits⟩ := ih
    have hown := hfits p
    rw [hp] at hown
    obtain ⟨⟨o, hi⟩, hlast, hmem⟩ := hown
    refine ⟨hl.ret hi hlast hmem, (Function.forall_update_iff st (StatusFits _ _)).mpr ⟨?_, ?_⟩⟩
    · trivial
    · intro q hq
      exact (hfits q).append (Ne.symm hq)

theorem Witnessed.linearizable [DecidableEq P] {st : P → CallStatus O R}
    (hw : Witnessed spec h L s st) : Linearizable spec h s :=
  ⟨L, hw.isLinearization.1⟩

end RaftImplementation.Library
