import RaftImplementation.Library.Intervals
import RaftImplementation.Library.Linearizability

/-!
# Recorded histories

A record of a call has a time from before the call and one from after its return. If a
history is linearizable and all its calls have returned and been recorded, then the records
can be put in a sequence in which none comes before one that ended before it began
(`Recorded.exists_linearizes`). The object that checks the records may be another one, if it
follows the first.
-/

namespace RaftImplementation.Library

variable {P O R S S' ρ T : Type} [Preorder T] {spec : SequentialSpec S O R}
variable {h : List (HistoryEvent P O R)} {L : List (Nat × R)} {s : S}

/-- How calls are recorded: what a record says of a call and its answer, and its times. -/
structure Recorder (O R ρ T : Type) where
  fits : ρ → O → R → Prop
  call : ρ → T
  ret : ρ → T

variable (rec : Recorder O R ρ T) (clock : Nat → T)

/-- `x` is the record of the call at `i`, which has returned. -/
def RecordOf (h : List (HistoryEvent P O R)) (i : Nat) (x : ρ) : Prop :=
  ∃ p o j r, h[i]? = some (.call p o) ∧ Returns h i j r ∧ rec.fits x o r ∧
    rec.call x ≤ clock i ∧ clock j ≤ rec.ret x

/-- `log` has one record for each call. -/
def Recorded (h : List (HistoryEvent P O R)) (log : List ρ) : Prop :=
  ∃ calls : List Nat, calls.Nodup ∧ (∀ i p o, h[i]? = some (.call p o) → i ∈ calls) ∧
    List.Forall₂ (RecordOf rec clock h) calls log

variable {rec clock} {log τ : List ρ}

/-- In a list without repetitions, none stands before one that stands before it. -/
theorem pairwise_not_sublist {l : List Nat} (hl : l.Nodup) :
    l.Pairwise fun a b => ¬ [b, a].Sublist l := by
  induction l with
  | nil => exact List.Pairwise.nil
  | cons x l ih =>
    rw [List.nodup_cons] at hl
    have hskip : ∀ a b, b ∈ l → [b, a].Sublist (x :: l) → [b, a].Sublist l := by
      intro a b hb hsub
      cases hsub with
      | cons _ hsub => exact hsub
      | cons_cons _ _ => exact absurd hb hl.1
    refine List.pairwise_cons.mpr ⟨?_, (ih hl.2).imp_of_mem ?_⟩
    · intro b hb hsub
      exact hl.1 ((hskip x b hb hsub).subset (by simp))
    · intro a b _ hb hnot hsub
      exact hnot (hskip a b hb hsub)

/-- The positions of the calls of a linearization are the recorded ones. -/
theorem IsLinearization.perm_calls (hl : IsLinearization spec h L s) {calls : List Nat}
    (hnd : calls.Nodup) (hall : ∀ i p o, h[i]? = some (.call p o) → i ∈ calls)
    (hrec : List.Forall₂ (RecordOf rec clock h) calls log) : (L.map Prod.fst).Perm calls := by
  refine (List.perm_ext_iff_of_nodup hl.nodup hnd).mpr fun i => ⟨?_, ?_⟩
  · intro hi
    obtain ⟨x, hx, rfl⟩ := List.mem_map.mp hi
    obtain ⟨p, o, hcall⟩ := hl.legal.isCall hx
    exact hall x.1 p o hcall
  · intro hi
    obtain ⟨x, -, p, o, j, r, -, hret, -⟩ := exists_mem_of_forall₂ hrec.flip hi
    exact List.mem_map_of_mem (hl.complete i j r hret)

/-- The object goes on, and so does the one that follows it. -/
theorem Legal.foldlM_isSome {step : S' → ρ → Option S'} {Sim : S → S' → Prop} {s₀ : S} {s₀' : S'}
    (hl : Legal spec h s₀ L s) (h₀ : Sim s₀ s₀')
    (hstep : ∀ s s' x o, Sim s s' → rec.fits x o (spec.apply s o).2 →
      ∃ s₁', step s' x = some s₁' ∧ Sim (spec.apply s o).1 s₁')
    (hans : ∀ x ∈ L, ∀ j r, Returns h x.1 j r → r = x.2)
    (hτ : List.Forall₂ (RecordOf rec clock h) (L.map Prod.fst) τ) :
    ∃ s', τ.foldlM step s₀' = some s' ∧ Sim s s' := by
  induction hl generalizing τ with
  | nil =>
    cases hτ
    exact ⟨s₀', rfl, h₀⟩
  | @snoc L s₁ i p o _ hi ih =>
    rw [List.map_append, List.map_singleton] at hτ
    have hold := (List.forall₂_take_append _ _ _ hτ.flip).flip
    have hnew := (List.forall₂_drop_append _ _ _ hτ.flip).flip
    rw [← List.take_append_drop (L.map Prod.fst).length τ]
    generalize τ.take (L.map Prod.fst).length = τ₁ at hold ⊢
    generalize τ.drop (L.map Prod.fst).length = τ₂ at hnew ⊢
    obtain ⟨s', hs', hsim⟩ := ih (fun x hx => hans x (by simp [hx])) hold
    cases hnew with
    | @cons _ x _ _ hx hnil =>
      cases hnil
      obtain ⟨p', o', j, r, hi', hret, hfits, -⟩ := hx
      rw [hi, Option.some.injEq, HistoryEvent.call.injEq] at hi'
      obtain ⟨-, rfl⟩ := hi'
      obtain rfl : r = (spec.apply s₁ o).2 := hans (i, _) (by simp) j r hret
      obtain ⟨s₁', hstep₁, hsim₁⟩ := hstep s₁ s' x o hsim hfits
      refine ⟨s₁', ?_, hsim₁⟩
      rw [List.foldlM_append, hs']
      simpa using hstep₁

/-- The records of a linearizable history can be put in a sequence. -/
theorem Recorded.exists_linearizes {step : S' → ρ → Option S'} {Sim : S → S' → Prop} {s₀' : S'}
    (hrec : Recorded rec clock h log) (hclock : Monotone clock) (hl : IsLinearization spec h L s)
    (h₀ : Sim spec.initial s₀')
    (hstep : ∀ s s' x o, Sim s s' → rec.fits x o (spec.apply s o).2 →
      ∃ s₁', step s' x = some s₁' ∧ Sim (spec.apply s o).1 s₁') :
    ∃ τ, Linearizes step (fun x y => rec.ret x < rec.call y) s₀' log τ := by
  obtain ⟨calls, hnd, hall, hcalls⟩ := hrec
  obtain ⟨τ, hτ, hperm⟩ := List.perm_comp_forall₂ (hl.perm_calls hnd hall hcalls) hcalls
  have hans : ∀ x ∈ L, ∀ j r, Returns h x.1 j r → r = x.2 := by
    intro x hx j r hret
    have hmem := hl.complete x.1 j r hret
    exact congrArg Prod.snd (List.inj_on_of_nodup_map hl.nodup hmem hx rfl)
  obtain ⟨s', hs', -⟩ := hl.legal.foldlM_isSome h₀ hstep hans hτ
  refine ⟨τ, hperm, by rw [hs']; rfl, ?_⟩
  refine pairwise_of_forall₂ hτ (pairwise_not_sublist hl.nodup) ?_
  -- a record that ended before another began is that of a call that had returned
  rintro i i' x x' ⟨p, o, j, r, -, hret, -, hcall, -⟩ ⟨p', o', j', r', -, hret', -, -, hret''⟩ hnot hlt
  refine hnot ?_
  have hbefore : j' < i := by
    by_contra hle
    exact absurd (hret''.trans_lt (hlt.trans_le (hcall.trans (hclock (not_lt.mp hle))))) (lt_irrefl _)
  have hsub := hl.order i' j' r' (i, r) hret' (hl.complete i j r hret) hbefore
  exact hsub.map Prod.fst

end RaftImplementation.Library
