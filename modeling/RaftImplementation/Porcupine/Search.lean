import Mathlib.Data.Finset.Basic
import RaftImplementation.Library.DepthFirst
import RaftImplementation.Library.Intervals
import RaftImplementation.Porcupine.LinkedList

/-!
# The search of the checker

The checker searches for a sequence of the operations that the model allows and in which
none comes before one that had returned when it was called. It goes from a sequence to a
longer one, by an operation whose call comes before all returns that are left. What it
reaches that way are the beginnings of such sequences (`reachable_iff`), and if states that
the model holds for equal allow the same, then it may leave out a sequence that has the
same operations as an earlier one and ends in an equal state (`agrees_search`).
-/

namespace RaftImplementation.Porcupine

open Library

variable {I O S : Type} [DecidableEq S] {model : Model I O S} {history : List (Entry I O)}
variable {ops : List (I × O)} {σ τ : List Nat} {i : Nat} {s s' : S}

/-! ## What the model allows -/

/-- The state after an operation, if the model allows it. -/
def Model.after (model : Model I O S) (s : S) (x : I × O) : Option S :=
  if (model.step s x.1 x.2).1 then some (model.step s x.1 x.2).2 else none

/-- The same for the operation with number `i`. -/
def Model.perform (model : Model I O S) (ops : List (I × O)) (s : S) (i : Nat) : Option S :=
  ops[i]?.bind (model.after s)

/-- From both states the same sequences are allowed. -/
def Model.Alike (model : Model I O S) (s t : S) : Prop :=
  ∀ l : List (I × O), (l.foldlM model.after s).isSome = (l.foldlM model.after t).isSome

/-- States that are held for equal allow the same. -/
def Model.EqualFits (model : Model I O S) : Prop :=
  ∀ s t, model.equal s t = true → model.Alike s t

theorem Model.Alike.after {t : S} {x : I × O} (h : model.Alike s t) (hs : model.after s x = some s') :
    ∃ t', model.after t x = some t' ∧ model.Alike s' t' := by
  have hone := h [x]
  simp only [List.foldlM_cons, List.foldlM_nil, hs] at hone
  cases ht : model.after t x with
  | none => simp [ht] at hone
  | some t' =>
    refine ⟨t', rfl, fun l => ?_⟩
    have hmore := h (x :: l)
    simpa only [List.foldlM_cons, hs, ht, Option.bind_eq_bind, Option.bind_some] using hmore

theorem equalFits_shallowEqual (hequal : model.equal = shallowEqual) : model.EqualFits := by
  intro s t hst l
  rw [hequal, shallowEqual, decide_eq_true_eq] at hst
  rw [hst]

/-! ## The search -/

/-- The operations whose calls come before any return. -/
def candidatesFrom (history : List (Entry I O)) (positions : List Nat) : List Nat :=
  (positions.takeWhile (isCallAt history)).map (opAt history)

/-- The search for a sequence that has all operations. -/
def search (model : Model I O S) (history : List (Entry I O)) (ops : List (I × O)) :
    Search (List Nat × S) Nat where
  root := ([], model.init)
  done k := (remaining history k.1).isEmpty
  candidates k := candidatesFrom history (remaining history k.1)
  next k i := (model.perform ops k.2 i).map fun s => (k.1 ++ [i], s)
  same k m := decide (k.1.toFinset = m.1.toFinset) && model.equal k.2 m.2

/-- In a sorted list, what comes before the first exception. -/
theorem mem_takeWhile_iff {f : Nat → Bool} {l : List Nat} (hl : l.Pairwise (· < ·)) {p : Nat} :
    p ∈ l.takeWhile f ↔ p ∈ l ∧ ∀ q ∈ l, q ≤ p → f q = true := by
  induction l with
  | nil => simp
  | cons x l ih =>
    rw [List.pairwise_cons] at hl
    by_cases hx : f x = true
    · rw [List.takeWhile_cons_of_pos hx, List.mem_cons, ih hl.2, List.mem_cons]
      constructor
      · rintro (rfl | ⟨hp, hall⟩)
        · refine ⟨.inl rfl, ?_⟩
          intro q hq hqp
          obtain rfl | hq := List.mem_cons.mp hq
          · exact hx
          · exact absurd (hl.1 q hq) (by omega)
        · refine ⟨.inr hp, ?_⟩
          intro q hq hqp
          obtain rfl | hq := List.mem_cons.mp hq
          · exact hx
          · exact hall q hq hqp
      · rintro ⟨rfl | hp, hall⟩
        · exact .inl rfl
        · exact .inr ⟨hp, fun q hq => hall q (List.mem_cons_of_mem x hq)⟩
    · rw [List.takeWhile_cons_of_neg hx]
      constructor
      · intro hp
        cases hp
      · rintro ⟨hp, hall⟩
        refine absurd (hall x (by simp) ?_) hx
        obtain rfl | hp := List.mem_cons.mp hp
        · exact le_refl p
        · exact (hl.1 p hp).le

/-- An operation can come next if nothing is missing that had returned before. -/
theorem mem_candidatesFrom (h : Pairing history ops) :
    i ∈ candidatesFrom history (remaining history σ) ↔
      i < ops.length ∧ i ∉ σ ∧ ∀ j < ops.length, h.retAt j < h.callAt i → j ∈ σ := by
  rw [candidatesFrom, List.mem_map]
  constructor
  · rintro ⟨p, hp, rfl⟩
    obtain ⟨hmem, hcalls⟩ := (mem_takeWhile_iff (remaining_pairwise history σ)).mp hp
    obtain ⟨hlt, hσ⟩ := mem_remaining.mp hmem
    refine ⟨h.opAt_lt hlt, hσ, ?_⟩
    intro j hj hbefore
    by_contra hjσ
    rw [← h.eq_callAt hlt (hcalls p hmem le_rfl)] at hbefore
    have hret := hcalls _ (h.retAt_mem_remaining hj hjσ) hbefore.le
    rw [(h.retAt_spec hj).2.2] at hret
    cases hret
  · rintro ⟨hi, hσ, hpre⟩
    refine ⟨h.callAt i, ?_, (h.callAt_spec hi).2.1⟩
    refine (mem_takeWhile_iff (remaining_pairwise history σ)).mpr ⟨h.callAt_mem_remaining hi hσ, ?_⟩
    intro q hq hqle
    obtain ⟨hlt, hqσ⟩ := mem_remaining.mp hq
    by_contra hret
    have hq' := h.eq_retAt hlt (by simpa using hret)
    have hne : q ≠ h.callAt i := by
      rintro rfl
      exact hret (h.callAt_spec hi).2.2
    exact hqσ (hpre _ (h.opAt_lt hlt) (by omega))

/-- The search reaches the beginnings of the sequences that explain the history. -/
theorem reachable_iff (h : Pairing history ops) :
    (search model history ops).Reachable (σ, s) ↔
      Begins (model.perform ops) (fun i j => h.retAt i < h.callAt j) model.init
        (List.range ops.length) σ s := by
  constructor
  · intro hreach
    generalize hk : (σ, s) = k at hreach
    induction hreach generalizing σ s with
    | root =>
      cases hk
      exact .nil
    | @next k k' i _ hc hnext ih =>
      obtain ⟨s', hs', rfl⟩ := Option.map_eq_some_iff.mp hnext
      cases hk
      obtain ⟨hi, hσ, hpre⟩ := (mem_candidatesFrom h).mp hc
      refine (ih rfl).snoc (List.mem_range.mpr hi) hσ ?_ hs'
      intro j hj
      exact hpre j (List.mem_range.mp hj)
  · intro hbegins
    induction hbegins with
    | nil => exact .root
    | @snoc σ s₁ s₂ i _ hi hσ hpre hs ih =>
      refine ih.next (c := i) ?_ ?_
      · refine (mem_candidatesFrom h).mpr ⟨List.mem_range.mp hi, hσ, ?_⟩
        intro j hj
        exact hpre j (List.mem_range.mpr hj)
      · exact Option.map_eq_some_iff.mpr ⟨s₂, hs, rfl⟩

/-- It is done when the sequence has everything. -/
theorem done_iff (h : Pairing history ops) :
    (search model history ops).done (σ, s) = true ↔ List.range ops.length ⊆ σ := by
  show (remaining history σ).isEmpty = true ↔ _
  rw [List.isEmpty_iff]
  constructor
  · intro hnil i hi
    by_contra hσ
    have hmem := h.callAt_mem_remaining (List.mem_range.mp hi) hσ
    rw [hnil] at hmem
    cases hmem
  · intro hall
    apply List.eq_nil_iff_forall_not_mem.mpr
    intro p hp
    obtain ⟨hlt, hσ⟩ := mem_remaining.mp hp
    exact hσ (hall (List.mem_range.mpr (h.opAt_lt hlt)))

/-- So it finds one if and only if the history can be explained. -/
theorem exists_done_iff (h : Pairing history ops) :
    (∃ k, (search model history ops).Reachable k ∧ (search model history ops).done k = true) ↔
      ∃ σ, Linearizes (model.perform ops) (fun i j => h.retAt i < h.callAt j) model.init
        (List.range ops.length) σ := by
  rw [exists_linearizes_iff List.nodup_range]
  · constructor
    · rintro ⟨⟨σ, s⟩, hreach, hdone⟩
      exact ⟨σ, s, (reachable_iff h).mp hreach, (done_iff h).mp hdone⟩
    · rintro ⟨σ, s, hbegins, hall⟩
      exact ⟨(σ, s), (reachable_iff h).mpr hbegins, (done_iff h).mpr hall⟩
  · intro i hi
    have hlt := h.lt i (List.mem_range.mp hi)
    omega

theorem same_iff {k m : List Nat × S} : (search model history ops).same k m = true ↔
    (∀ i, i ∈ k.1 ↔ i ∈ m.1) ∧ model.equal k.2 m.2 = true := by
  show (decide (k.1.toFinset = m.1.toFinset) && model.equal k.2 m.2) = true ↔ _
  rw [Bool.and_eq_true, decide_eq_true_eq, Finset.ext_iff]
  simp

/-- Equal sets and equal states can be continued in the same ways. -/
def Continues (model : Model I O S) (k m : List Nat × S) : Prop :=
  (∀ i, i ∈ k.1 ↔ i ∈ m.1) ∧ model.Alike k.2 m.2

theorem remaining_congr (hστ : ∀ i, i ∈ σ ↔ i ∈ τ) : remaining history σ = remaining history τ := by
  apply List.filter_congr
  intro p _
  exact decide_eq_decide.mpr (not_congr (hστ _))

theorem agrees_search (hequal : model.EqualFits) :
    (search model history ops).Agrees (Continues model) where
  refl k := ⟨fun _ => Iff.rfl, fun _ => rfl⟩
  trans k k' k'' h h' := ⟨fun i => (h.1 i).trans (h'.1 i), fun l => (h.2 l).trans (h'.2 l)⟩
  same k m h := by
    obtain ⟨hset, hstate⟩ := same_iff.mp h
    exact ⟨hset, hequal _ _ hstate⟩
  done k m h := by
    show (remaining history k.1).isEmpty = (remaining history m.1).isEmpty
    rw [remaining_congr h.1]
  next k m i k' h hc hnext := by
    obtain ⟨s', hs', rfl⟩ := Option.map_eq_some_iff.mp hnext
    obtain ⟨x, hx, hafter⟩ := Option.bind_eq_some_iff.mp hs'
    obtain ⟨t', ht', halike⟩ := h.2.after hafter
    refine ⟨i, ?_, (m.1 ++ [i], t'), ?_, ?_, halike⟩
    · show i ∈ candidatesFrom history (remaining history m.1)
      rw [← remaining_congr h.1]
      exact hc
    · exact Option.map_eq_some_iff.mpr ⟨t', Option.bind_eq_some_iff.mpr ⟨x, hx, ht'⟩, rfl⟩
    · intro j
      simp [h.1 j]

end RaftImplementation.Porcupine
