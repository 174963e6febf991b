import Mathlib.Algebra.BigOperators.Group.List.Basic
import Mathlib.Algebra.Field.Rat
import Mathlib.Tactic.Ring
import RaftImplementation.Library.Buckets
import RaftImplementation.Raft.Batches

/-!
# The model is the sum of the means of the complete groups

Over a field the steps of gradient descent add up: a coordinate of a parameter is the
learning rate times the sum, over the complete groups, of the mean of that coordinate in
the group, with a minus sign. The sum does not care in which order the groups are
completed, nor in which order the workers of a group are visited.

The loops over Go maps are given here in any order, with a panic as `none`.
-/

namespace RaftImplementation

open Library GradientManager

variable {F : Type}

/-! ## Loops over maps in any order -/

section Orders

variable [Zero F] [Add F] [Sub F] [Mul F] [Div F] [NatCast F]

/-- The loop over the workers; the map of each of them is visited in some order. -/
def SumRange : List (GradientLog F) → Map String (List F) → Option (Map String (List F)) → Prop
  | [], sum, r => r = some sum
  | log :: logs, sum, r => ∃ l, log.gradients.Lists l ∧
    match Map.mergeList (accumulateInto (· + ·)) sum l with
    | none => r = none
    | some sum' => SumRange logs sum' r

/-- The two loops after the sum: the means, and the step of gradient descent. -/
def DescendRange (gm : GradientManager F) (count : Nat) (sum : Map String (List F))
    (r : Option (Map String (List F))) : Prop :=
  ∃ l l', sum.Lists l ∧
    (sum.updateList (fun vec => vec.map (· / (count : F))) l.keys).Lists l' ∧
    r = Map.mergeList (accumulateInto fun param grad => param - gm.learningRate * grad)
      gm.currentModel.params l'

/-- `handleGradientLog` with every map visited in some order. -/
def HandledInOrder (gm : GradientManager F) (log : GradientLog F)
    (r : Option (GradientManager F)) : Prop :=
  match gm.addGradient log with
  | (gm, false) => r = some gm
  | (gm, true) =>
    match (gm.gradientBuffer.lookup log.batchID).getD [] with
    | [] => r = some gm
    | grad :: grads => ∃ sum, SumRange (grad :: grads) ∅ sum ∧
      match sum with
      | none => r = none
      | some sum => ∃ params, DescendRange gm (grad :: grads).length sum params ∧
        r = params.map fun params =>
          { gm with
            gradientBuffer := gm.gradientBuffer.erase log.batchID
            aggregatedBatches := gm.aggregatedBatches + 1
            currentModel := ⟨grad.epoch, params⟩ }

/-- `handleAll` with every map visited in some order. -/
def HandledAllInOrder : GradientManager F → List (GradientLog F) → Option (GradientManager F) → Prop
  | gm, [], r => r = some gm
  | gm, log :: logs, r => ∃ r', HandledInOrder gm log r' ∧
    match r' with
    | none => r = none
    | some gm' => HandledAllInOrder gm' logs r

omit [Sub F] [Mul F] [Div F] [NatCast F] in
theorem sumRange_iff {logs : List (GradientLog F)} {sum : Map String (List F)}
    {r : Option (Map String (List F))} :
    SumRange logs sum r ↔ r = logs.foldlM
      (fun sum grad => Map.merge (accumulateInto (· + ·)) sum grad.gradients) sum := by
  induction logs generalizing sum with
  | nil => rfl
  | cons log logs ih =>
    rw [SumRange, List.foldlM_cons]
    constructor
    · rintro ⟨l, hl, hr⟩
      rw [Map.mergeList_eq_merge hl] at hr
      cases hm : Map.merge (accumulateInto (· + ·)) sum log.gradients with
      | none =>
        rw [hm] at hr
        exact hr
      | some sum' =>
        rw [hm] at hr
        exact ih.mp hr
    · intro hr
      obtain ⟨l, hl⟩ := Map.exists_lists log.gradients
      refine ⟨l, hl, ?_⟩
      rw [Map.mergeList_eq_merge hl]
      cases hm : Map.merge (accumulateInto (· + ·)) sum log.gradients with
      | none =>
        rw [hm] at hr
        exact hr
      | some sum' =>
        rw [hm] at hr
        exact ih.mpr hr

omit [Add F] in
theorem descendRange_iff {gm : GradientManager F} {count : Nat} {sum : Map String (List F)}
    {r : Option (Map String (List F))} :
    DescendRange gm count sum r ↔ r = gm.descend count sum := by
  rw [descend]
  constructor
  · rintro ⟨l, l', hl, hl', rfl⟩
    rw [Map.mergeList_eq_merge hl', Map.updateList_eq_mapValues _ hl]
  · rintro rfl
    obtain ⟨l, hl⟩ := Map.exists_lists sum
    obtain ⟨l', hl'⟩ := Map.exists_lists
      (sum.updateList (fun vec => vec.map (· / (count : F))) l.keys)
    refine ⟨l, l', hl, hl', ?_⟩
    rw [Map.mergeList_eq_merge hl', Map.updateList_eq_mapValues _ hl]

/-- The order in which a map is visited makes no difference. -/
theorem handledInOrder_iff {gm : GradientManager F} {log : GradientLog F}
    {r : Option (GradientManager F)} :
    HandledInOrder gm log r ↔ r = gm.handleGradientLog log := by
  unfold HandledInOrder handleGradientLog
  cases hadd : gm.addGradient log with
  | mk gm₁ full =>
    cases full with
    | false => rfl
    | true =>
      simp only [aggregateGradients]
      cases (gm₁.gradientBuffer.lookup log.batchID).getD [] with
      | nil => rfl
      | cons grad grads =>
        simp only [sumRange_iff, descendRange_iff, exists_eq_left]
        change (match sumGradients (grad :: grads) with
          | none => r = none
          | some sum => _) ↔ _
        cases hsum : sumGradients (grad :: grads) with
        | none => rfl
        | some sum =>
          simp only [Option.bind_eq_bind, Option.bind_some, Option.pure_def,
            applyGradientToModel_eq]
          rw [descend]

theorem handledAllInOrder_iff {gm : GradientManager F} {logs : List (GradientLog F)}
    {r : Option (GradientManager F)} :
    HandledAllInOrder gm logs r ↔ r = gm.handleAll logs := by
  induction logs generalizing gm with
  | nil => rfl
  | cons log logs ih =>
    simp only [HandledAllInOrder, handledInOrder_iff, exists_eq_left, handleAll, List.foldlM_cons]
    cases gm.handleGradientLog log with
    | none => rfl
    | some gm' => exact ih

end Orders

/-! ## Runs of a batch -/

/-- The runs of `k` elements from the front; an incomplete last one is left out. -/
def fullRuns {α : Type} (k : Nat) (l : List α) : List (List α) :=
  (List.range (l.length / k)).map fun j => (l.drop (j * k)).take k

/-- The batches that occur, each once. -/
def batchIDs (logs : List (GradientLog F)) : List Int := (logs.map GradientLog.batchID).dedup

/-- The complete groups: for every batch, the runs of `k` of its logs in their order. -/
def completedGroups (k : Nat) (logs : List (GradientLog F)) : List (List (GradientLog F)) :=
  (batchIDs logs).flatMap fun b => fullRuns k (batchLogs b logs)

section Runs

variable {k : Nat} {logs : List (GradientLog F)} {log : GradientLog F}

theorem fullRuns_take {α : Type} (l l' : List α) {j : Nat} (hj : j < l.length / k) :
    ((l ++ l').drop (j * k)).take k = (l.drop (j * k)).take k := by
  have hle : (j + 1) * k ≤ l.length :=
    (Nat.mul_le_mul_right k hj).trans (Nat.div_mul_le_self _ _)
  rw [Nat.add_mul, Nat.one_mul] at hle
  rw [List.drop_append_of_le_length (by omega), List.take_append_of_le_length]
  rw [List.length_drop]
  omega

/-- One more log of its batch completes a run exactly when it completes a group. -/
theorem fullRuns_snoc (hk : 0 < k) (logs : List (GradientLog F)) (log : GradientLog F) :
    fullRuns k (batchLogs log.batchID (logs ++ [log])) =
      fullRuns k (batchLogs log.batchID logs) ++ (completes k logs log).toList := by
  rw [completes, batchLogs_snoc_self]
  generalize batchLogs log.batchID logs = l
  have hold : ∀ j ∈ List.range (l.length / k),
      ((l ++ [log]).drop (j * k)).take k = (l.drop (j * k)).take k :=
    fun j hj => fullRuns_take l [log] (List.mem_range.mp hj)
  simp only [fullRuns, List.length_append, List.length_singleton]
  cases succ_div_mod l.length hk with
  | inl hfull =>
    obtain ⟨-, hmul, hmod⟩ := hfull
    -- the last run ends where the list ends
    obtain ⟨q, hq⟩ : ∃ q, (l.length + 1) / k = q + 1 := by
      refine Nat.exists_eq_add_one.mpr (Nat.pos_of_ne_zero ?_)
      intro hzero
      rw [hzero, Nat.zero_mul] at hmul
      omega
    have hlast : q * k + k = l.length + 1 := by
      rw [hq, Nat.add_mul, Nat.one_mul] at hmul
      exact hmul
    have hdiv : l.length / k = q := by
      rw [Nat.div_eq_iff hk]
      rw [Nat.mul_comm] at hlast
      constructor
      · rw [Nat.mul_comm]
        omega
      · rw [Nat.mul_comm]
        omega
    rw [hdiv] at hold
    rw [if_pos hmod, hq, hdiv, List.range_succ, List.map_append, List.map_congr_left hold,
      Option.toList_some, List.map_singleton, show l.length + 1 - k = q * k by omega,
      List.take_of_length_le]
    rw [List.length_drop, List.length_append, List.length_singleton]
    omega
  | inr hless =>
    obtain ⟨-, hdiv, hmod⟩ := hless
    rw [if_neg hmod, hdiv, List.map_congr_left hold, Option.toList_none, List.append_nil]

/-- The groups as they are completed are the runs of all batches. -/
theorem groups_perm_runs (hk : 0 < k) {S : List Int} (hS : S.Nodup)
    (hlogs : ∀ log ∈ logs, log.batchID ∈ S) :
    (groups k logs).Perm (S.flatMap fun b => fullRuns k (batchLogs b logs)) := by
  induction logs using List.reverseRecOn with
  | nil =>
    have hnil : (S.flatMap fun b => fullRuns k (batchLogs b ([] : List (GradientLog F)))) = [] := by
      simp [fullRuns, batchLogs]
    rw [hnil]
    exact .refl _
  | append_singleton logs log ih =>
    have hgrow : (S.flatMap fun b => fullRuns k (batchLogs b (logs ++ [log]))).Perm
        ((S.flatMap fun b => fullRuns k (batchLogs b logs)) ++ (completes k logs log).toList) := by
      apply flatMap_grow hS (hlogs log (by simp))
      · intro b hb
        rw [batchLogs_snoc_ne (Ne.symm hb)]
      · exact fullRuns_snoc hk logs log
    rw [groups_snoc]
    refine ((ih ?_).append_right _).trans hgrow.symm
    intro l hl
    exact hlogs l (List.mem_append_left _ hl)

theorem groups_perm_completed (hk : 0 < k) (logs : List (GradientLog F)) :
    (groups k logs).Perm (completedGroups k logs) := by
  apply groups_perm_runs hk (List.nodup_dedup _)
  intro log hlog
  exact List.mem_dedup.mpr (List.mem_map_of_mem hlog)

end Runs

/-! ## Coordinates -/

/-- Coordinate `i` of parameter `p`, zero where there is none. -/
def coordinate [Zero F] (p : String) (i : Nat) (vectors : Map String (List F)) : F :=
  ((vectors.lookup p).getD []).getD i 0

/-- The mean over a group; a worker without the coordinate counts as zero. -/
def groupMean [Zero F] [Add F] [Div F] [NatCast F] (p : String) (i : Nat)
    (group : List (GradientLog F)) : F :=
  (group.map fun log => coordinate p i log.gradients).sum / (group.length : F)

section Coordinates

variable [Field F] {p : String} {i : Nat}

/-- An update by zero leaves a coordinate as it is, so a vector that ends early counts as
one that goes on with zeros. -/
theorem accumulate_getD {op : F → F → F} (hop : ∀ a, op a 0 = a) {acc vals r : List F}
    (h : accumulate op acc vals = some r) (i : Nat) :
    r.getD i 0 = op (acc.getD i 0) (vals.getD i 0) := by
  induction vals generalizing acc r i with
  | nil =>
    rw [accumulate, Option.some.injEq] at h
    subst h
    rw [List.getD_nil, hop]
  | cons v vals ih =>
    cases acc with
    | nil => simp [accumulate] at h
    | cons a acc =>
      rw [accumulate, Option.map_eq_some_iff] at h
      obtain ⟨r', hr', rfl⟩ := h
      cases i with
      | zero => rfl
      | succ i => exact ih hr' i

theorem coordinate_merge {op : F → F → F} (hop : ∀ a, op a 0 = a) {m ws m' : Map String (List F)}
    (h : Map.merge (accumulateInto op) m ws = some m') (p : String) (i : Nat) :
    coordinate p i m' = op (coordinate p i m) (coordinate p i ws) := by
  have hslot := Map.lookup_merge h p
  rw [coordinate, coordinate, coordinate]
  cases hw : ws.lookup p with
  | none =>
    rw [hw, Map.slot, Option.some.injEq] at hslot
    rw [← hslot, Option.getD_none, List.getD_nil, hop]
  | some vals =>
    rw [hw, Map.slot, Option.map_eq_some_iff] at hslot
    obtain ⟨r, hr, hm'⟩ := hslot
    rw [← hm', Option.getD_some, Option.getD_some, accumulate_getD hop hr i]
    cases m.lookup p with
    | none =>
      -- a vector that is made here starts with zeros
      rw [Option.getD_none, Option.getD_none, List.getD_nil, List.getD_eq_getElem?_getD,
        List.getElem?_replicate]
      split
      · rfl
      · rfl
    | some acc => rfl

theorem coordinate_sum {group : List (GradientLog F)} {sum r : Map String (List F)}
    (h : group.foldlM (fun sum grad => Map.merge (accumulateInto (· + ·)) sum grad.gradients)
      sum = some r) :
    coordinate p i r =
      coordinate p i sum + (group.map fun log => coordinate p i log.gradients).sum := by
  induction group generalizing sum with
  | nil =>
    cases h
    rw [List.map_nil, List.sum_nil, add_zero]
  | cons log group ih =>
    rw [List.foldlM_cons, Option.bind_eq_bind, Option.bind_eq_some_iff] at h
    obtain ⟨sum', hm, h⟩ := h
    rw [ih h, coordinate_merge add_zero hm, List.map_cons, List.sum_cons, add_assoc]

theorem coordinate_mean {group : List (GradientLog F)} {sum : Map String (List F)}
    (h : sumGradients group = some sum) :
    coordinate p i (sum.mapValues fun vec => vec.map (· / (group.length : F))) =
      groupMean p i group := by
  have hsum : coordinate p i sum = (group.map fun log => coordinate p i log.gradients).sum := by
    have hzero := coordinate_sum (p := p) (i := i) h
    rwa [show coordinate p i (∅ : Map String (List F)) = 0 from rfl, zero_add] at hzero
  rw [groupMean, ← hsum, coordinate, coordinate, Map.lookup_mapValues]
  cases sum.lookup p with
  | none => simp
  | some vec =>
    rw [Option.map_some, Option.getD_some, Option.getD_some, List.getD_eq_getElem?_getD,
      List.getD_eq_getElem?_getD, List.getElem?_map]
    cases vec[i]? with
    | none => simp
    | some x => rfl

theorem coordinate_descend {gm : GradientManager F} {group : List (GradientLog F)}
    {sum params : Map String (List F)} (hsum : sumGradients group = some sum)
    (h : gm.descend group.length sum = some params) :
    coordinate p i params =
      coordinate p i gm.currentModel.params - gm.learningRate * groupMean p i group := by
  rw [descend] at h
  rw [coordinate_merge (fun a => by rw [mul_zero, sub_zero]) h, coordinate_mean hsum]

/-! ## The sum over the groups -/

/-- After `logs` every coordinate of the model is the sum over the groups completed so far. -/
theorem coordinate_handleAll {learningRate : F} {logs : List (GradientLog F)}
    {gm : GradientManager F} (h : (newGradientManager learningRate).handleAll logs = some gm) :
    gm.learningRate = learningRate ∧ ∀ p i, coordinate p i gm.currentModel.params =
      -learningRate * ((groups gm.bufferSize logs).map (groupMean p i)).sum := by
  induction logs using List.reverseRecOn generalizing gm with
  | nil =>
    cases h
    refine ⟨rfl, ?_⟩
    intro p i
    simp [newGradientManager, coordinate, groups, groupsAfter]
  | append_singleton logs log ih =>
    rw [handleAll_snoc, Option.bind_eq_some_iff] at h
    obtain ⟨gm₀, hlogs, hstep⟩ := h
    obtain ⟨hrate, hsum⟩ := ih hlogs
    have ht := ((handleAll_tracks learningRate logs).2 gm₀ hlogs).2
    by_cases hw : (pending gm₀.bufferSize log.batchID logs).length + 1 = gm₀.bufferSize
    · obtain ⟨hsome, -⟩ := completes_full ht.size_pos hw
      have hlen : gm₀.bufferSize ≤ (gm₀.bufferWith log).length := by
        rw [ht.bufferWith_eq, List.length_append, List.length_singleton]
        exact hw.ge
      obtain ⟨epoch, heq⟩ := handleGradientLog_full hlen
      rw [heq, Option.bind_eq_some_iff] at hstep
      obtain ⟨sum, hgroup, hdescend⟩ := hstep
      obtain ⟨params, hparams, rfl⟩ := Option.map_eq_some_iff.mp hdescend
      refine ⟨hrate, ?_⟩
      intro p i
      show coordinate p i params =
        -learningRate * ((groups gm₀.bufferSize (logs ++ [log])).map (groupMean p i)).sum
      rw [coordinate_descend hgroup hparams, hsum, hrate, groups_snoc, hsome, ht.bufferWith_eq,
        List.map_append, List.sum_append, Option.toList_some, List.map_singleton,
        List.sum_singleton]
      ring
    · obtain ⟨hnone, -⟩ := completes_waiting ht.size_pos hw
      have hlen : (gm₀.bufferWith log).length < gm₀.bufferSize := by
        apply Nat.lt_of_le_of_ne (ht.length_le log)
        rwa [ht.bufferWith_eq, List.length_append, List.length_singleton]
      rw [handleGradientLog_waiting hlen, Option.some.injEq] at hstep
      subst hstep
      refine ⟨hrate, ?_⟩
      intro p i
      show coordinate p i gm₀.currentModel.params =
        -learningRate * ((groups gm₀.bufferSize (logs ++ [log])).map (groupMean p i)).sum
      rw [hsum, groups_snoc, hnone, Option.toList_none, List.append_nil]

end Coordinates

/-! ## Vectors of one length -/

/-- The vectors of a parameter all have one length. -/
def OneLength (len : String → Nat) (logs : List (GradientLog F)) : Prop :=
  ∀ log ∈ logs, ∀ p vec, log.gradients.lookup p = some vec → vec.length = len p

/-- Parameter `p` occurs in a group. -/
def OccursIn (p : String) (gs : List (List (GradientLog F))) : Prop :=
  ∃ group ∈ gs, ∃ log ∈ group, p ∈ log.gradients

section OneLength

variable {k : Nat} {len : String → Nat} {logs : List (GradientLog F)} {p : String}

theorem mem_of_mem_groups (hk : 0 < k) {group : List (GradientLog F)} {log : GradientLog F}
    (hgroup : group ∈ groups k logs) (hlog : log ∈ group) : log ∈ logs := by
  have hmem := (groups_perm_completed hk logs).mem_iff.mp hgroup
  obtain ⟨b, -, hrun⟩ := List.mem_flatMap.mp hmem
  obtain ⟨j, -, rfl⟩ := List.mem_map.mp hrun
  exact List.mem_of_mem_filter (List.mem_of_mem_drop (List.mem_of_mem_take hlog))

theorem OneLength.mem_widths (h : OneLength len logs) (hk : 0 < k)
    {group : List (GradientLog F)} (hgroup : group ∈ groups k logs) {l : Nat}
    (hl : l ∈ widths p group) : l = len p := by
  obtain ⟨log, hlog, hw⟩ := List.mem_filterMap.mp hl
  obtain ⟨vec, hvec, rfl⟩ := Option.map_eq_some_iff.mp hw
  exact h log (mem_of_mem_groups hk hgroup hlog) p vec hvec

theorem OneLength.mem_groupWidths (h : OneLength len logs) (hk : 0 < k) {l : Nat}
    (hl : l ∈ groupWidths p (groups k logs)) : l = len p := by
  obtain ⟨group, hgroup, hhead⟩ := List.mem_filterMap.mp hl
  exact h.mem_widths hk hgroup (List.mem_of_mem_head? hhead)

theorem firstLongest_of_forall_eq {ls : List Nat} {n : Nat} (h : ∀ l ∈ ls, l = n) :
    FirstLongest ls := by
  cases ls with
  | nil => trivial
  | cons l ls =>
    intro x hx
    rw [h x (List.mem_cons_of_mem _ hx), h l List.mem_cons_self]

theorem OneLength.lengthsFit (h : OneLength len logs) (hk : 0 < k) : LengthsFit k logs where
  group _ hgroup _ := firstLongest_of_forall_eq fun _ hl => h.mem_widths hk hgroup hl
  model _ := firstLongest_of_forall_eq fun _ hl => h.mem_groupWidths hk hl

theorem occursIn_iff (p : String) (gs : List (List (GradientLog F))) :
    OccursIn p gs ↔ groupWidths p gs ≠ [] := by
  constructor
  · rintro ⟨group, hgroup, log, hlog, hp⟩ hnil
    obtain ⟨vec, hvec⟩ := Finmap.mem_iff.mp hp
    have hw : vec.length ∈ widths p group :=
      List.mem_filterMap.mpr ⟨log, hlog, by rw [width, hvec]; rfl⟩
    cases hws : widths p group with
    | nil => simp [hws] at hw
    | cons l ls =>
      have hl : l ∈ groupWidths p gs :=
        List.mem_filterMap.mpr ⟨group, hgroup, by rw [hws]; rfl⟩
      simp [hnil] at hl
  · intro hne
    obtain ⟨l, hl⟩ := List.exists_mem_of_ne_nil _ hne
    obtain ⟨group, hgroup, hhead⟩ := List.mem_filterMap.mp hl
    obtain ⟨log, hlog, hw⟩ := List.mem_filterMap.mp (List.mem_of_mem_head? hhead)
    obtain ⟨vec, hvec, -⟩ := Option.map_eq_some_iff.mp hw
    exact ⟨group, hgroup, log, hlog, Finmap.mem_of_lookup_eq_some hvec⟩

/-- A parameter is in the model exactly if it is in a complete group, with its one length. -/
theorem OneLength.width_eq (h : OneLength len logs) {gm : GradientManager F}
    (ht : Tracks logs gm) (p : String) :
    (width gm.currentModel.params p = some (len p) ∧ OccursIn p (groups gm.bufferSize logs)) ∨
      (width gm.currentModel.params p = none ∧ ¬ OccursIn p (groups gm.bufferSize logs)) := by
  rw [ht.params, occursIn_iff]
  cases hws : groupWidths p (groups gm.bufferSize logs) with
  | nil => exact .inr ⟨rfl, fun hne => hne rfl⟩
  | cons l ls =>
    have hl : l = len p := h.mem_groupWidths ht.size_pos (by rw [hws]; exact List.mem_cons_self)
    rw [hl]
    exact .inl ⟨rfl, List.cons_ne_nil _ _⟩

theorem OneLength.mem_params (h : OneLength len logs) {gm : GradientManager F}
    (ht : Tracks logs gm) (p : String) :
    p ∈ gm.currentModel.params ↔ OccursIn p (groups gm.bufferSize logs) := by
  rw [← Finmap.lookup_isSome, ← Option.isSome_map (f := List.length)]
  rcases h.width_eq ht p with ⟨hw, hocc⟩ | ⟨hw, hno⟩
  · rw [width] at hw
    rw [hw]
    exact ⟨fun _ => hocc, fun _ => rfl⟩
  · rw [width] at hw
    rw [hw]
    exact ⟨fun hp => absurd hp Bool.false_ne_true, fun hp => absurd hp hno⟩

theorem OneLength.length_eq (h : OneLength len logs) {gm : GradientManager F}
    (ht : Tracks logs gm) {vec : List F} (hvec : gm.currentModel.params.lookup p = some vec) :
    vec.length = len p := by
  rcases h.width_eq ht p with ⟨hw, -⟩ | ⟨hw, -⟩
  · rw [width, hvec] at hw
    exact Option.some.inj hw
  · rw [width, hvec] at hw
    cases hw

end OneLength

/-! ## Rearranged logs -/

/-- Every batch has the same runs in both, up to the order inside a run. How the logs of
different batches are interleaved is left open. -/
def SameRuns (k : Nat) (logs logs' : List (GradientLog F)) : Prop :=
  ∀ b, List.Forall₂ List.Perm (fullRuns k (batchLogs b logs)) (fullRuns k (batchLogs b logs'))

section Rearranged

variable {k : Nat} {logs logs' : List (GradientLog F)}

/-- Listed in the same way, the groups of rearranged logs correspond one by one. -/
theorem SameRuns.groups (h : SameRuns k logs logs') (hk : 0 < k) :
    ∃ gs gs', (groups k logs).Perm gs ∧ (groups k logs').Perm gs' ∧
      List.Forall₂ List.Perm gs gs' := by
  have hmem : ∀ log, (log ∈ logs ∨ log ∈ logs') →
      log.batchID ∈ ((logs ++ logs').map GradientLog.batchID).dedup := by
    intro log hlog
    exact List.mem_dedup.mpr (List.mem_map_of_mem (List.mem_append.mpr hlog))
  exact ⟨_, _, groups_perm_runs hk (List.nodup_dedup _) fun log hlog => hmem log (.inl hlog),
    groups_perm_runs hk (List.nodup_dedup _) fun log hlog => hmem log (.inr hlog),
    List.rel_flatMap (List.forall₂_same.mpr fun _ _ => rfl) fun b _ hb => hb ▸ h b⟩

theorem OccursIn.of_perm {gs gs' : List (List (GradientLog F))} {p : String} (h : OccursIn p gs)
    (hperm : List.Forall₂ List.Perm gs gs') : OccursIn p gs' := by
  induction hperm with
  | nil => exact h
  | cons hgroup _ ih =>
    obtain ⟨group, hmem, log, hlog, hp⟩ := h
    cases List.mem_cons.mp hmem with
    | inl hhere =>
      subst hhere
      exact ⟨_, List.mem_cons_self, log, hgroup.mem_iff.mp hlog, hp⟩
    | inr hrest =>
      obtain ⟨group', hmem', hrest'⟩ := ih ⟨group, hrest, log, hlog, hp⟩
      exact ⟨group', List.mem_cons_of_mem _ hmem', hrest'⟩

theorem occursIn_congr {gs gs' : List (List (GradientLog F))} (h : gs.Perm gs') (p : String) :
    OccursIn p gs ↔ OccursIn p gs' := by
  simp only [OccursIn, h.mem_iff]

theorem SameRuns.symm (h : SameRuns k logs logs') : SameRuns k logs' logs :=
  fun b => (List.Forall₂.imp (fun _ _ hp => hp.symm) (h b)).flip

theorem SameRuns.occursIn (h : SameRuns k logs logs') (hk : 0 < k) {p : String}
    (hp : OccursIn p (RaftImplementation.groups k logs)) :
    OccursIn p (RaftImplementation.groups k logs') := by
  obtain ⟨gs, gs', hgs, hgs', hperm⟩ := h.groups hk
  exact (occursIn_congr hgs' p).mpr (((occursIn_congr hgs p).mp hp).of_perm hperm)

variable [Field F]

theorem groupMean_perm {group group' : List (GradientLog F)} (h : group.Perm group') (p : String)
    (i : Nat) : groupMean p i group = groupMean p i group' := by
  rw [groupMean, groupMean, h.length_eq, (h.map _).sum_eq]

theorem SameRuns.sum_means (h : SameRuns k logs logs') (hk : 0 < k) (p : String) (i : Nat) :
    ((RaftImplementation.groups k logs).map (groupMean p i)).sum =
      ((RaftImplementation.groups k logs').map (groupMean p i)).sum := by
  obtain ⟨gs, gs', hgs, hgs', hperm⟩ := h.groups hk
  have hmeans : gs.map (groupMean p i) = gs'.map (groupMean p i) := by
    clear hgs hgs'
    induction hperm with
    | nil => rfl
    | cons hgroup _ ih => rw [List.map_cons, List.map_cons, groupMean_perm hgroup, ih]
  rw [(hgs.map _).sum_eq, (hgs'.map _).sum_eq, hmeans]

omit [Field F] in
/-- Vectors are known by their lengths and coordinates. -/
theorem vectors_ext [Zero F] {m m' : Map String (List F)} (hw : ∀ p, width m p = width m' p)
    (hc : ∀ p i, coordinate p i m = coordinate p i m') : m = m' := by
  apply Finmap.ext_lookup
  intro p
  have hp := hw p
  have hpi := hc p
  rw [width, width] at hp
  simp only [coordinate] at hpi
  cases hm : m.lookup p with
  | none =>
    rw [hm, Option.map_none, eq_comm, Option.map_eq_none_iff] at hp
    exact hp.symm
  | some vec =>
    rw [hm, Option.map_some, eq_comm, Option.map_eq_some_iff] at hp
    obtain ⟨vec', hm', hlen⟩ := hp
    rw [hm']
    congr 1
    apply List.ext_getElem hlen.symm
    intro i hi hi'
    have hi0 := hpi i
    rw [hm, hm', Option.getD_some, Option.getD_some, List.getD_eq_getElem?_getD,
      List.getD_eq_getElem?_getD, List.getElem?_eq_getElem hi, List.getElem?_eq_getElem hi'] at hi0
    exact hi0

/-- Logs with the same runs lead to the same parameters. -/
theorem SameRuns.params_eq {len : String → Nat} {learningRate : F} {gm gm' : GradientManager F}
    (h : SameRuns gm.bufferSize logs logs') (hlen : OneLength len logs)
    (hlen' : OneLength len logs')
    (hgm : (newGradientManager learningRate).handleAll logs = some gm)
    (hgm' : (newGradientManager learningRate).handleAll logs' = some gm') :
    gm'.currentModel.params = gm.currentModel.params := by
  obtain ⟨hsize, ht⟩ := (handleAll_tracks learningRate logs).2 gm hgm
  obtain ⟨hsize', ht'⟩ := (handleAll_tracks learningRate logs').2 gm' hgm'
  have hwidth := hlen.width_eq ht
  have hwidth' := hlen'.width_eq ht'
  have hcoord := (coordinate_handleAll hgm).2
  have hcoord' := (coordinate_handleAll hgm').2
  rw [hsize'] at hwidth' hcoord'
  rw [hsize] at hwidth hcoord h
  have hk : 0 < 10 := Nat.zero_lt_succ 9
  apply vectors_ext
  · intro p
    rcases hwidth p with ⟨hw, hocc⟩ | ⟨hw, hno⟩
    · rcases hwidth' p with ⟨hw', -⟩ | ⟨-, hno'⟩
      · rw [hw, hw']
      · exact absurd (h.occursIn hk hocc) hno'
    · rcases hwidth' p with ⟨-, hocc'⟩ | ⟨hw', -⟩
      · exact absurd (h.symm.occursIn hk hocc') hno
      · rw [hw, hw']
  · intro p i
    rw [hcoord, hcoord', h.sum_means hk]

end Rearranged

/-- A new manager that is fed logs in which every parameter has vectors of one length does
not panic, whatever the order in which it visits its maps, and always ends with the same
model. The model has the parameters of the complete groups; each coordinate is the learning
rate, with a minus sign, times the sum of the means of the complete groups. Logs with the
same runs up to the order inside a run lead to the same parameters. -/
theorem model_is_sum_of_means (learningRate : ℚ) (len : String → Nat) (logs : List (GradientLog ℚ))
    (hlen : OneLength len logs) :
    ∃ gm, (∀ r, HandledAllInOrder (newGradientManager learningRate) logs r ↔ r = some gm) ∧
      (∀ p, p ∈ gm.currentModel.params ↔ OccursIn p (completedGroups gm.bufferSize logs)) ∧
      (∀ p vec, gm.currentModel.params.lookup p = some vec → vec.length = len p ∧
        ∀ i, i < len p → vec[i]? =
          some (-learningRate * ((completedGroups gm.bufferSize logs).map (groupMean p i)).sum)) ∧
      ∀ logs' gm', OneLength len logs' → SameRuns gm.bufferSize logs logs' →
        HandledAllInOrder (newGradientManager learningRate) logs' (some gm') →
        gm'.currentModel.params = gm.currentModel.params := by
  obtain ⟨hiff, htracks⟩ := handleAll_tracks learningRate logs
  obtain ⟨gm, hgm⟩ := Option.isSome_iff_exists.mp
    (hiff.mpr (hlen.lengthsFit (Nat.zero_lt_succ 9)))
  have ht := (htracks gm hgm).2
  have hperm := groups_perm_completed ht.size_pos logs
  refine ⟨gm, ?_, ?_, ?_, ?_⟩
  · intro r
    rw [handledAllInOrder_iff, hgm]
  · intro p
    rw [hlen.mem_params ht p, occursIn_congr hperm p]
  · intro p vec hvec
    have hl := hlen.length_eq ht hvec
    refine ⟨hl, ?_⟩
    intro i hi
    have hpi := (coordinate_handleAll hgm).2 p i
    rw [coordinate, hvec, Option.getD_some, List.getD_eq_getElem?_getD,
      List.getElem?_eq_getElem (hl.symm ▸ hi), Option.getD_some] at hpi
    rw [List.getElem?_eq_getElem (hl.symm ▸ hi), hpi, (hperm.map _).sum_eq]
  · intro logs' gm' hlen' hsame hgm'
    rw [handledAllInOrder_iff, eq_comm] at hgm'
    exact hsame.params_eq hlen hlen' hgm hgm'

/-- Worker `i` of batch 1 sends the number `i` for the parameter `w`. -/
def tenWorkers : List (GradientLog ℚ) :=
  (List.range 10).map fun i => ⟨1, i, 1, Finmap.singleton "w" [(i : ℚ)], 0⟩

theorem tenWorkers_oneLength : OneLength (fun _ => 1) tenWorkers := by
  intro log hlog p vec hvec
  obtain ⟨i, -, rfl⟩ := List.mem_map.mp hlog
  have hp : p = "w" := (Finmap.mem_singleton _ _ _).mp (Finmap.mem_of_lookup_eq_some hvec)
  subst hp
  rw [Finmap.lookup_singleton_eq, Option.some.injEq] at hvec
  rw [← hvec]
  rfl

/-- The mean of the ten numbers is 9/2. -/
theorem model_of_ten_workers :
    ∃ gm, HandledAllInOrder (newGradientManager (1 / 2)) tenWorkers (some gm) ∧
      gm.currentModel.params.lookup "w" = some [-9 / 4] ∧
      OccursIn "w" (completedGroups gm.bufferSize tenWorkers) := by
  obtain ⟨gm, hr, hmem, -⟩ :=
    model_is_sum_of_means (1 / 2) (fun _ => 1) tenWorkers tenWorkers_oneLength
  have hgm : HandledAllInOrder (newGradientManager (1 / 2)) tenWorkers (some gm) :=
    (hr _).mpr rfl
  have hvalue : ((newGradientManager (1 / 2 : ℚ)).handleAll tenWorkers).map
      (fun gm => gm.currentModel.params.lookup "w") = some (some [-9 / 4]) := by decide +kernel
  rw [← handledAllInOrder_iff.mp hgm, Option.map_some, Option.some.injEq] at hvalue
  exact ⟨gm, hgm, hvalue, (hmem "w").mp (Finmap.mem_of_lookup_eq_some hvalue)⟩

end RaftImplementation
