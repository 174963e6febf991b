import Mathlib.Data.List.Dedup
import Mathlib.Data.List.Induction
import Mathlib.Data.List.Perm.Basic
import Mathlib.Data.List.Sort
import Mathlib.Logic.Function.Basic

/-!
# Operations that have returned

Operations with the moments of their call and return can be put in one sequence, such
that each can be performed after those before it and none stands before one that had
returned when it was called. `Linearizes` says so of a whole sequence, and `Begins` of its
beginnings, as a search builds them up.

Operations on different keys do not need each other. If the operations of each key can be
put in a sequence, so can all of them (`exists_linearizes_iff_keys`): each operation of a sequence
can be given a moment between its call and its return, such that the moments are in the
order of the sequence, and the sequences are merged by their moments.
-/

namespace RaftImplementation.Library

variable {ι S : Type} {step : S → ι → Option S} {pre : ι → ι → Prop} {s s' s₁ : S}
variable {ops σ : List ι} {i j : ι}

/-- `pre i j` says that `i` had returned when `j` was called, and `step` performs an
operation if that is possible. -/
structure Linearizes (step : S → ι → Option S) (pre : ι → ι → Prop) (s : S) (ops σ : List ι) :
    Prop where
  perm : σ.Perm ops
  legal : (σ.foldlM step s).isSome = true
  order : σ.Pairwise fun i j => ¬ pre j i

/-- A beginning of such a sequence: nothing is missing that had returned before. -/
inductive Begins (step : S → ι → Option S) (pre : ι → ι → Prop) (s : S) (ops : List ι) :
    List ι → S → Prop
  | nil : Begins step pre s ops [] s
  | snoc {σ : List ι} {s₁ s₂ : S} {i : ι} : Begins step pre s ops σ s₁ → i ∈ ops → i ∉ σ →
      (∀ j ∈ ops, pre j i → j ∈ σ) → step s₁ i = some s₂ → Begins step pre s ops (σ ++ [i]) s₂

namespace Begins

theorem foldlM_eq (h : Begins step pre s ops σ s') : σ.foldlM step s = some s' := by
  induction h with
  | nil => rfl
  | snoc _ _ _ _ hstep ih =>
    rw [List.foldlM_append, ih]
    simpa using hstep

theorem subset (h : Begins step pre s ops σ s') : σ ⊆ ops := by
  induction h with
  | nil => exact List.nil_subset _
  | snoc _ hi _ _ _ ih =>
    refine List.append_subset.mpr ⟨ih, ?_⟩
    simpa using hi

theorem nodup (h : Begins step pre s ops σ s') : σ.Nodup := by
  induction h with
  | nil => exact List.nodup_nil
  | snoc _ _ hi _ _ ih =>
    rw [← List.concat_eq_append]
    exact ih.concat hi

theorem mem_of_pre (h : Begins step pre s ops σ s') (hj : j ∈ σ) (hi : i ∈ ops) (hij : pre i j) :
    i ∈ σ := by
  induction h with
  | nil => cases hj
  | snoc _ _ _ hpre _ ih =>
    cases List.mem_append.mp hj with
    | inl hold => exact List.mem_append_left _ (ih hold)
    | inr hnew =>
      rw [List.mem_singleton.mp hnew] at hij
      exact List.mem_append_left _ (hpre i hi hij)

theorem order (h : Begins step pre s ops σ s') : σ.Pairwise fun i j => ¬ pre j i := by
  induction h with
  | nil => exact List.Pairwise.nil
  | snoc hσ hi hnot _ _ ih =>
    refine List.pairwise_append.mpr ⟨ih, List.pairwise_singleton _ _, ?_⟩
    intro j hj k hk hkj
    rw [List.mem_singleton.mp hk] at hkj
    exact hnot (hσ.mem_of_pre hj hi hkj)

theorem linearizes (h : Begins step pre s ops σ s') (hops : ops.Nodup) (hall : ops ⊆ σ) :
    Linearizes step pre s ops σ where
  perm := (List.perm_ext_iff_of_nodup h.nodup hops).mpr fun _ => ⟨(h.subset ·), (hall ·)⟩
  legal := by rw [h.foldlM_eq]; rfl
  order := h.order

end Begins

namespace Linearizes

/-- Every beginning of the sequence is one. -/
theorem begins (h : Linearizes step pre s ops σ) (hops : ops.Nodup) (hirrefl : ∀ i ∈ ops, ¬ pre i i)
    {τ ρ : List ι} (hσ : τ ++ ρ = σ) : ∃ s', Begins step pre s ops τ s' := by
  induction τ using List.reverseRecOn generalizing ρ with
  | nil => exact ⟨s, .nil⟩
  | append_singleton τ i ih =>
    rw [List.append_assoc] at hσ
    obtain ⟨s₁, hτ⟩ := ih hσ
    have hnd := h.perm.nodup_iff.mpr hops
    have horder := h.order
    have hlegal := h.legal
    rw [← hσ] at hnd horder hlegal
    rw [List.foldlM_append, hτ.foldlM_eq] at hlegal
    cases hstep : step s₁ i with
    | none => simp [hstep] at hlegal
    | some s₂ =>
      have hmem : i ∈ ops := h.perm.subset (by simp [← hσ])
      refine ⟨s₂, hτ.snoc hmem ?_ ?_ hstep⟩
      · intro hi
        exact (List.nodup_append.mp hnd).2.2 i hi i (by simp) rfl
      · intro j hj hji
        have hjσ : j ∈ τ ++ ([i] ++ ρ) := by
          rw [hσ]
          exact h.perm.symm.subset hj
        rcases List.mem_append.mp hjσ with hjτ | hjρ
        · exact hjτ
        · obtain rfl | hjρ := List.mem_cons.mp hjρ
          · exact absurd hji (hirrefl j hj)
          · have hafter := (List.pairwise_append.mp horder).2.1
            exact absurd hji (List.rel_of_pairwise_cons hafter hjρ)

end Linearizes

/-- There is a sequence if and only if there is a beginning that has everything. -/
theorem exists_linearizes_iff (hops : ops.Nodup) (hirrefl : ∀ i ∈ ops, ¬ pre i i) :
    (∃ σ, Linearizes step pre s ops σ) ↔ ∃ σ s', Begins step pre s ops σ s' ∧ ops ⊆ σ := by
  constructor
  · rintro ⟨σ, h⟩
    obtain ⟨s', hσ⟩ := h.begins hops hirrefl (List.append_nil σ)
    exact ⟨σ, s', hσ, h.perm.symm.subset⟩
  · rintro ⟨σ, s', h, hall⟩
    exact ⟨σ, h.linearizes hops hall⟩

theorem exists_mem_of_forall₂ {κ : Type} {R : ι → κ → Prop} {τ : List κ} {y : κ}
    (h : List.Forall₂ R σ τ) (hy : y ∈ τ) : ∃ j ∈ σ, R j y := by
  induction h with
  | nil => cases hy
  | @cons i x σ τ hix _ ih =>
    cases List.mem_cons.mp hy with
    | inl heq => exact ⟨i, by simp, heq ▸ hix⟩
    | inr hmem =>
      obtain ⟨j, hj, hjy⟩ := ih hmem
      exact ⟨j, List.mem_cons_of_mem i hj, hjy⟩

theorem pairwise_of_forall₂ {α β : Type} {Q : α → β → Prop} {A : α → α → Prop} {B : β → β → Prop}
    {l : List α} {m : List β} (h : List.Forall₂ Q l m) (hl : l.Pairwise A)
    (hAB : ∀ a b x y, Q a x → Q b y → A a b → B x y) : m.Pairwise B := by
  induction h with
  | nil => exact List.Pairwise.nil
  | @cons a x l m hax hlm ih =>
    rw [List.pairwise_cons] at hl ⊢
    refine ⟨?_, ih hl.2⟩
    intro y hy
    obtain ⟨b, hb, hby⟩ := exists_mem_of_forall₂ hlm hy
    exact hAB a b x y hax hby (hl.1 b hb)

/-- Whether there is a sequence depends on what the operations do and when, not on what
they are called. -/
theorem exists_linearizes_of_forall₂ {κ : Type} {step' : S → κ → Option S} {pre' : κ → κ → Prop}
    {ops' : List κ} {R : ι → κ → Prop} (hops : List.Forall₂ R ops ops')
    (hstep : ∀ i x, R i x → ∀ s, step s i = step' s x)
    (hpre : ∀ i x j y, R i x → R j y → pre' x y → pre i j)
    (h : ∃ σ, Linearizes step pre s ops σ) : ∃ τ, Linearizes step' pre' s ops' τ := by
  obtain ⟨σ, hσ⟩ := h
  obtain ⟨τ, hστ, hτ⟩ := List.perm_comp_forall₂ hσ.perm hops
  refine ⟨τ, hτ, ?_, ?_⟩
  · have hlegal := hσ.legal
    clear hσ hτ
    induction hστ generalizing s with
    | nil => exact hlegal
    | @cons i x σ τ hix _ ih =>
      rw [List.foldlM_cons] at hlegal ⊢
      rw [hstep i x hix] at hlegal
      cases hs : step' s x with
      | none => simp [hs] at hlegal
      | some s₁ =>
        rw [hs] at hlegal
        exact ih hlegal
  · refine pairwise_of_forall₂ hστ hσ.order ?_
    intro i j x y hix hjy hnot hyx
    exact hnot (hpre j y i x hjy hix hyx)

theorem exists_linearizes_map_iff {κ : Type} {f : κ → ι} {ops' : List κ} :
    (∃ τ, Linearizes step pre s (ops'.map f) τ) ↔
      ∃ σ, Linearizes (fun s x => step s (f x)) (fun x y => pre (f x) (f y)) s ops' σ := by
  have hops : List.Forall₂ (fun i x => i = f x) (ops'.map f) ops' :=
    List.forall₂_map_left_iff.mpr (List.forall₂_same.mpr fun _ _ => rfl)
  constructor
  · refine exists_linearizes_of_forall₂ hops ?_ ?_
    · rintro _ x rfl s
      rfl
    · rintro _ x _ y rfl rfl
      exact id
  · refine exists_linearizes_of_forall₂ hops.flip ?_ ?_
    · rintro x _ rfl s
      rfl
    · rintro x _ y _ rfl rfl
      exact id

/-! ## Keys -/

section Keys

variable {κ V T : Type} [DecidableEq κ] {key : ι → κ} {stepAt : V → ι → Option V}

/-- An operation changes the value of its key only. -/
def onKey (key : ι → κ) (stepAt : V → ι → Option V) (s : κ → V) (i : ι) : Option (κ → V) :=
  (stepAt (s (key i)) i).map (Function.update s (key i))

/-- The operations can be performed if those of each key can. -/
theorem foldlM_onKey_isSome {s : κ → V} (σ : List ι) :
    (σ.foldlM (onKey key stepAt) s).isSome = true ↔
      ∀ k, ((σ.filter fun i => key i = k).foldlM stepAt (s k)).isSome = true := by
  induction σ generalizing s with
  | nil => simp
  | cons i σ ih =>
    rw [List.foldlM_cons, onKey]
    cases hstep : stepAt (s (key i)) i with
    | none =>
      simp only [Option.map_none, Option.bind_eq_bind, Option.bind_none, Option.isSome_none,
        Bool.false_eq_true, false_iff, not_forall]
      refine ⟨key i, ?_⟩
      simp [hstep]
    | some v =>
      simp only [Option.map_some, Option.bind_eq_bind, Option.bind_some]
      rw [ih]
      refine forall_congr' fun k => ?_
      by_cases hk : key i = k
      · subst hk
        simp [hstep]
      · rw [Function.update_of_ne (Ne.symm hk), List.filter_cons_of_neg (by simpa using hk)]

variable [LinearOrder T] {call ret : ι → T}

/-- Moments after `m` in the order of a sequence, each between the call and the return. -/
theorem exists_moments_from {σ : List ι} (hnd : σ.Nodup) (hle : ∀ i ∈ σ, call i ≤ ret i)
    (horder : σ.Pairwise fun i j => ¬ ret j < call i) {m : T} (hm : ∀ i ∈ σ, m ≤ ret i) :
    ∃ t : ι → T, (∀ i ∈ σ, call i ≤ t i ∧ t i ≤ ret i ∧ m ≤ t i) ∧
      σ.Pairwise fun i j => t i ≤ t j := by
  classical
  induction σ generalizing m with
  | nil => exact ⟨call, by simp⟩
  | cons i σ ih =>
    rw [List.nodup_cons] at hnd
    rw [List.pairwise_cons] at horder
    -- as early as possible: at the call, or at the moment before
    obtain ⟨t, ht, hsorted⟩ := ih hnd.2 (fun j hj => hle j (List.mem_cons_of_mem i hj)) horder.2
      (m := max m (call i)) fun j hj =>
        max_le (hm j (List.mem_cons_of_mem i hj)) (le_of_not_gt (horder.1 j hj))
    have hother : ∀ j ∈ σ, Function.update t i (max m (call i)) j = t j := by
      intro j hj
      apply Function.update_of_ne
      rintro rfl
      exact hnd.1 hj
    refine ⟨Function.update t i (max m (call i)), ?_, List.pairwise_cons.mpr ⟨?_, ?_⟩⟩
    · intro j hj
      obtain rfl | hj := List.mem_cons.mp hj
      · rw [Function.update_self]
        exact ⟨le_max_right _ _, max_le (hm j (by simp)) (hle j (by simp)), le_max_left _ _⟩
      · rw [hother j hj]
        exact ⟨(ht j hj).1, (ht j hj).2.1, (le_max_left _ _).trans (ht j hj).2.2⟩
    · intro j hj
      rw [Function.update_self, hother j hj]
      exact (ht j hj).2.2
    · refine hsorted.imp_of_mem ?_
      intro j k hj hk hjk
      rwa [hother j hj, hother k hk]

theorem exists_moments {σ : List ι} (hnd : σ.Nodup) (hle : ∀ i ∈ σ, call i ≤ ret i)
    (horder : σ.Pairwise fun i j => ¬ ret j < call i) :
    ∃ t : ι → T, (∀ i ∈ σ, call i ≤ t i ∧ t i ≤ ret i) ∧ σ.Pairwise fun i j => t i ≤ t j := by
  cases σ with
  | nil => exact ⟨call, by simp⟩
  | cons i σ =>
    have hm : ∀ j ∈ i :: σ, call i ≤ ret j := by
      intro j hj
      obtain rfl | hj := List.mem_cons.mp hj
      · exact hle j (by simp)
      · exact le_of_not_gt (List.rel_of_pairwise_cons horder hj)
    obtain ⟨t, ht, hsorted⟩ := exists_moments_from hnd hle horder hm
    exact ⟨t, fun j hj => ⟨(ht j hj).1, (ht j hj).2.1⟩, hsorted⟩

/-- The operations of a key, taken out of a sequence of all operations. -/
theorem Linearizes.filter_key {s : κ → V} (h : Linearizes (onKey key stepAt) pre s ops σ) (k : κ) :
    Linearizes stepAt pre (s k) (ops.filter fun i => key i = k)
      (σ.filter fun i => key i = k) where
  perm := h.perm.filter _
  legal := (foldlM_onKey_isSome σ).mp h.legal k
  order := h.order.filter _

/-- Sequences for the keys, one after the other. -/
theorem flatMap_perm {τ : κ → List ι} (hops : ops.Nodup)
    (hτ : ∀ k, (τ k).Perm (ops.filter fun i => key i = k)) :
    ((ops.map key).dedup.flatMap τ).Perm ops := by
  have hmem : ∀ {k i}, i ∈ τ k ↔ i ∈ ops ∧ key i = k := by
    intro k i
    rw [(hτ k).mem_iff]
    simp
  refine (List.perm_ext_iff_of_nodup ?_ hops).mpr ?_
  · refine List.nodup_flatMap.mpr ⟨fun k _ => (hτ k).nodup_iff.mpr (hops.filter _), ?_⟩
    refine (List.nodup_dedup _).imp ?_
    intro k k' hne i hi hi'
    exact hne ((hmem.mp hi).2.symm.trans (hmem.mp hi').2)
  · intro i
    rw [List.mem_flatMap]
    constructor
    · rintro ⟨k, -, hi⟩
      exact (hmem.mp hi).1
    · intro hi
      exact ⟨key i, List.mem_dedup.mpr (List.mem_map_of_mem hi), hmem.mpr ⟨hi, rfl⟩⟩

theorem sublist_flatMap {τ : κ → List ι} (hτ : ∀ k, ∀ i ∈ τ k, i ∈ ops ∧ key i = k) (k : κ) :
    (τ k).Sublist ((ops.map key).dedup.flatMap τ) := by
  cases hk : τ k with
  | nil => exact List.nil_sublist _
  | cons i σ =>
    rw [← hk]
    obtain ⟨hi, rfl⟩ := hτ k i (by simp [hk])
    rw [List.flatMap_def]
    apply List.sublist_flatten_of_mem
    exact List.mem_map_of_mem (List.mem_dedup.mpr (List.mem_map_of_mem hi))

/-- Sequences for the keys, merged by their moments. -/
theorem exists_linearizes_of_keys {s : κ → V} (hops : ops.Nodup) (hle : ∀ i ∈ ops, call i ≤ ret i)
    (h : ∀ k, ∃ σ, Linearizes stepAt (fun i j => ret i < call j) (s k)
      (ops.filter fun i => key i = k) σ) :
    ∃ σ, Linearizes (onKey key stepAt) (fun i j => ret i < call j) s ops σ := by
  choose τ hτ using h
  have hmem : ∀ k, ∀ i ∈ τ k, i ∈ ops ∧ key i = k := by
    intro k i hi
    simpa using (hτ k).perm.subset hi
  choose t ht hsorted using fun k =>
    exists_moments ((hτ k).perm.nodup_iff.mpr (hops.filter _)) (fun i hi => hle i (hmem k i hi).1)
      (hτ k).order
  have htotal : Std.Total fun i j : ι => t (key i) i ≤ t (key j) j := ⟨fun i j => le_total _ _⟩
  have htrans : IsTrans ι fun i j => t (key i) i ≤ t (key j) j := ⟨fun _ _ _ => le_trans⟩
  have hall := flatMap_perm hops fun k => (hτ k).perm
  have hperm := (List.perm_insertionSort (fun i j => t (key i) i ≤ t (key j) j) _).trans hall
  refine ⟨_, hperm, (foldlM_onKey_isSome _).mpr fun k => ?_, ?_⟩
  · -- the merged sequence has the sequence of every key in it
    have hsub : (τ k).Sublist (List.insertionSort (fun i j => t (key i) i ≤ t (key j) j)
        ((ops.map key).dedup.flatMap τ)) := by
      apply List.sublist_insertionSort
      · refine (hsorted k).imp_of_mem ?_
        intro i j hi hj hij
        rwa [(hmem k i hi).2, (hmem k j hj).2]
      · exact sublist_flatMap hmem k
    have hself : (τ k).filter (fun i => key i = k) = τ k :=
      List.filter_eq_self.mpr fun i hi => decide_eq_true (hmem k i hi).2
    have hsub' := hsub.filter fun i => decide (key i = k)
    rw [hself] at hsub'
    rw [← hsub'.eq_of_length ((hτ k).perm.trans (hperm.filter _).symm).length_eq]
    exact (hτ k).legal
  · refine (List.pairwise_insertionSort (fun i j => t (key i) i ≤ t (key j) j) _).imp_of_mem ?_
    intro i j hi hj hij hlt
    have hbetween : ∀ x ∈ ops, call x ≤ t (key x) x ∧ t (key x) x ≤ ret x := by
      intro x hx
      apply ht (key x) x
      exact (hτ (key x)).perm.symm.subset (by simp [hx])
    have hi' := hbetween i (hperm.subset hi)
    have hj' := hbetween j (hperm.subset hj)
    exact absurd (hj'.2.trans_lt (hlt.trans_le (hi'.1.trans hij))) (lt_irrefl _)

/-- All operations can be put in a sequence if and only if those of each key can. -/
theorem exists_linearizes_iff_keys {s : κ → V} (hops : ops.Nodup) (hle : ∀ i ∈ ops, call i ≤ ret i) :
    (∃ σ, Linearizes (onKey key stepAt) (fun i j => ret i < call j) s ops σ) ↔
      ∀ k, ∃ σ, Linearizes stepAt (fun i j => ret i < call j) (s k)
        (ops.filter fun i => key i = k) σ := by
  constructor
  · rintro ⟨σ, h⟩ k
    exact ⟨_, h.filter_key k⟩
  · exact exists_linearizes_of_keys hops hle

end Keys

end RaftImplementation.Library
