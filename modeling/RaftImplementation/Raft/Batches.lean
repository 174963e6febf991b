import RaftImplementation.Raft.Gradient

/-!
# Groups of gradients and the lengths of their vectors

The logs of a batch are aggregated in groups: every `bufferSize` of them, in the order
in which they arrive. Which groups are complete after a sequence of logs is said here
without the manager; the manager's buffers hold what is left over, and the lengths of
its vectors are set by whichever vector came first. A later vector that is longer makes
the applier panic, and nothing else does.
-/

namespace RaftImplementation

open Library

variable {F : Type}

/-! ## Groups -/

/-- The logs of batch `b`, in the order of their arrival. -/
def batchLogs (b : Int) (logs : List (GradientLog F)) : List (GradientLog F) :=
  logs.filter fun log => log.batchID = b

/-- The logs of batch `b` that are in no complete group of `k`. -/
def pending (k : Nat) (b : Int) (logs : List (GradientLog F)) : List (GradientLog F) :=
  (batchLogs b logs).drop ((batchLogs b logs).length / k * k)

/-- The group of `k` that `log` completes when it arrives after `logs`: its batch then has
a multiple of `k` logs, and the group is the last `k` of them. -/
def completes (k : Nat) (logs : List (GradientLog F)) (log : GradientLog F) :
    Option (List (GradientLog F)) :=
  let batch := batchLogs log.batchID (logs ++ [log])
  if batch.length % k = 0 then some (batch.drop (batch.length - k)) else none

/-- The groups that `logs` completes when it arrives after `seen`, as they are completed. -/
def groupsAfter (k : Nat) (seen : List (GradientLog F)) :
    List (GradientLog F) → List (List (GradientLog F))
  | [] => []
  | log :: logs => (completes k seen log).toList ++ groupsAfter k (seen ++ [log]) logs

/-- The complete groups of `k`, in the order of their completion. -/
def groups (k : Nat) (logs : List (GradientLog F)) : List (List (GradientLog F)) :=
  groupsAfter k [] logs

section Groups

variable {k : Nat} {b : Int} {logs : List (GradientLog F)} {log : GradientLog F}

theorem groupsAfter_snoc (seen logs : List (GradientLog F)) (log : GradientLog F) :
    groupsAfter k seen (logs ++ [log]) =
      groupsAfter k seen logs ++ (completes k (seen ++ logs) log).toList := by
  induction logs generalizing seen with
  | nil => simp [groupsAfter]
  | cons l ls ih =>
    rw [List.cons_append, groupsAfter, ih, groupsAfter]
    simp

theorem groups_snoc (k : Nat) (logs : List (GradientLog F)) (log : GradientLog F) :
    groups k (logs ++ [log]) = groups k logs ++ (completes k logs log).toList := by
  rw [groups, groupsAfter_snoc, List.nil_append]
  rfl

theorem batchLogs_snoc_self (logs : List (GradientLog F)) (log : GradientLog F) :
    batchLogs log.batchID (logs ++ [log]) = batchLogs log.batchID logs ++ [log] := by
  simp [batchLogs]

theorem batchLogs_snoc_ne (h : log.batchID ≠ b) :
    batchLogs b (logs ++ [log]) = batchLogs b logs := by
  simp [batchLogs, h]

theorem pending_length : (pending k b logs).length = (batchLogs b logs).length % k := by
  have h := Nat.div_add_mod (batchLogs b logs).length k
  rw [Nat.mul_comm] at h
  rw [pending, List.length_drop]
  omega

/-- Counting on by one either fills the group or does not. -/
theorem succ_div_mod (L : Nat) (hk : 0 < k) :
    (L % k + 1 = k ∧ (L + 1) / k * k = L + 1 ∧ (L + 1) % k = 0) ∨
      (L % k + 1 < k ∧ (L + 1) / k = L / k ∧ (L + 1) % k ≠ 0) := by
  have hsplit := Nat.div_add_mod L k
  have hlt := Nat.mod_lt L hk
  cases Nat.lt_or_eq_of_le (show L % k + 1 ≤ k from hlt) with
  | inl hless =>
    right
    have heq : L + 1 = k * (L / k) + (L % k + 1) := by omega
    refine ⟨hless, ?_, ?_⟩
    · rw [heq, Nat.mul_add_div hk, Nat.div_eq_of_lt hless, Nat.add_zero]
    · rw [heq, Nat.mul_add_mod, Nat.mod_eq_of_lt hless]
      exact Nat.succ_ne_zero _
  | inr hfull =>
    left
    have heq : L + 1 = k * (L / k + 1) := by
      rw [Nat.mul_add, Nat.mul_one]
      omega
    refine ⟨hfull, ?_, ?_⟩
    · rw [heq, Nat.mul_div_cancel_left _ hk, Nat.mul_comm]
    · rw [heq, Nat.mul_mod_right]

/-- A log that fills the buffer of its batch completes a group and leaves nothing behind. -/
theorem completes_full (hk : 0 < k) (h : (pending k log.batchID logs).length + 1 = k) :
    completes k logs log = some (pending k log.batchID logs ++ [log]) ∧
      pending k log.batchID (logs ++ [log]) = [] := by
  rw [pending_length] at h
  have hsplit := Nat.div_add_mod (batchLogs log.batchID logs).length k
  rw [Nat.mul_comm] at hsplit
  cases succ_div_mod (batchLogs log.batchID logs).length hk with
  | inr hless => omega
  | inl hfull =>
    constructor
    · simp only [completes, batchLogs_snoc_self, List.length_append, List.length_singleton,
        hfull.2.2, ↓reduceIte]
      rw [List.drop_append_of_le_length (by omega), pending]
      congr 3
      omega
    · rw [pending, batchLogs_snoc_self, List.length_append, List.length_singleton, hfull.2.1]
      simp

/-- Any other log waits with those before it. -/
theorem completes_waiting (hk : 0 < k) (h : (pending k log.batchID logs).length + 1 ≠ k) :
    completes k logs log = none ∧
      pending k log.batchID (logs ++ [log]) = pending k log.batchID logs ++ [log] := by
  rw [pending_length] at h
  have hsplit := Nat.div_add_mod (batchLogs log.batchID logs).length k
  rw [Nat.mul_comm] at hsplit
  cases succ_div_mod (batchLogs log.batchID logs).length hk with
  | inl hfull => exact absurd hfull.1 h
  | inr hless =>
    constructor
    · simp [completes, batchLogs_snoc_self, hless.2.2]
    · rw [pending, batchLogs_snoc_self, List.length_append, List.length_singleton, hless.2.1,
        List.drop_append_of_le_length (by omega), pending]

theorem pending_snoc_ne (h : log.batchID ≠ b) :
    pending k b (logs ++ [log]) = pending k b logs := by
  rw [pending, pending, batchLogs_snoc_ne h]

end Groups

/-! ## Lengths of vectors -/

/-- No number is larger than the first one. -/
def FirstLongest : List Nat → Prop
  | [] => True
  | l :: ls => ∀ x ∈ ls, x ≤ l

/-- The length of the vector of parameter `p`. -/
def width (vectors : Map String (List F)) (p : String) : Option Nat :=
  (vectors.lookup p).map List.length

/-- The lengths of the vectors of parameter `p` in a group, in order. -/
def widths (p : String) (group : List (GradientLog F)) : List Nat :=
  group.filterMap fun log => width log.gradients p

/-- Looking at a further vector: it fits in what is there, and the first length stays. -/
theorem firstLongest_cons (o o' : Option Nat) (ls : List Nat) :
    FirstLongest (o.toList ++ (o'.toList ++ ls)) ↔
      FirstLongest (o.toList ++ o'.toList) ∧ FirstLongest ((o.or o').toList ++ ls) := by
  cases o with
  | none =>
    cases o' with
    | none => simp [FirstLongest]
    | some l' => simp [FirstLongest]
  | some l =>
    cases o' with
    | none => simp [FirstLongest]
    | some l' => simp [FirstLongest]

theorem firstLongest_snoc (ls : List Nat) (o : Option Nat) :
    FirstLongest (ls ++ o.toList) ↔
      FirstLongest ls ∧ FirstLongest (ls.head?.toList ++ o.toList) := by
  cases ls with
  | nil => simp [FirstLongest]
  | cons l ls =>
    cases o with
    | none => simp [FirstLongest]
    | some x =>
      simp only [FirstLongest, List.cons_append, Option.toList_some, List.head?_cons,
        List.nil_append, List.mem_append, List.mem_singleton]
      grind

namespace GradientManager

/-- The buffer of a batch with one more log. -/
def bufferWith (gm : GradientManager F) (log : GradientLog F) : List (GradientLog F) :=
  (gm.gradientBuffer.lookup log.batchID).getD [] ++ [log]

theorem length_bufferWith (gm : GradientManager F) (log : GradientLog F) :
    (gm.bufferWith log).length =
      ((gm.gradientBuffer.lookup log.batchID).map List.length).getD 0 + 1 := by
  rw [bufferWith, List.length_append, List.length_singleton]
  cases gm.gradientBuffer.lookup log.batchID with
  | none => rfl
  | some buffer => rfl

/-- The manager with a further log in the buffer of its batch. -/
def buffered (gm : GradientManager F) (log : GradientLog F) : GradientManager F :=
  { gm with
    gradientBuffer := gm.gradientBuffer.insert log.batchID (gm.bufferWith log)
    totalGradients := gm.totalGradients + 1 }

/-- The manager after the batch of `log` was aggregated into new parameters. -/
def stepped (gm : GradientManager F) (log : GradientLog F) (epoch : Int)
    (params : Map String (List F)) : GradientManager F :=
  { gm with
    gradientBuffer := (gm.gradientBuffer.insert log.batchID (gm.bufferWith log)).erase log.batchID
    totalGradients := gm.totalGradients + 1
    aggregatedBatches := gm.aggregatedBatches + 1
    currentModel := ⟨epoch, params⟩ }

variable {op : F → F → F}

theorem accumulate_isSome (op : F → F → F) (acc vals : List F) :
    (accumulate op acc vals).isSome = true ↔ vals.length ≤ acc.length := by
  induction vals generalizing acc with
  | nil => simp [accumulate]
  | cons v vals ih =>
    cases acc with
    | nil => simp [accumulate]
    | cons a acc => simp [accumulate, ih]

theorem accumulate_length {acc vals r : List F} (h : accumulate op acc vals = some r) :
    r.length = acc.length := by
  induction vals generalizing acc r with
  | nil =>
    rw [accumulate, Option.some.injEq] at h
    rw [h]
  | cons v vals ih =>
    cases acc with
    | nil => simp [accumulate] at h
    | cons a acc =>
      rw [accumulate, Option.map_eq_some_iff] at h
      obtain ⟨r', hr', rfl⟩ := h
      rw [List.length_cons, ih hr', List.length_cons]

variable [Zero F]

theorem accumulateInto_isSome (op : F → F → F) (old : Option (List F)) (vals : List F) :
    (accumulateInto op old vals).isSome = true ↔
      FirstLongest ((old.map List.length).toList ++ [vals.length]) := by
  rw [accumulateInto, accumulate_isSome]
  cases old with
  | none => simp [FirstLongest]
  | some acc => simp [FirstLongest]

theorem merge_fits (op : F → F → F) (m ws : Map String (List F)) :
    (Map.merge (accumulateInto op) m ws).isSome = true ↔
      ∀ p, FirstLongest ((width m p).toList ++ (width ws p).toList) := by
  rw [Map.merge_isSome]
  constructor
  · intro h p
    cases hw : ws.lookup p with
    | none =>
      rw [width, width, hw]
      cases m.lookup p with
      | none => simp [FirstLongest]
      | some acc => simp [FirstLongest]
    | some vals =>
      have hp := (accumulateInto_isSome op _ _).mp (h p vals hw)
      simpa [width, hw] using hp
  · intro h p vals hw
    rw [accumulateInto_isSome]
    have hp := h p
    simpa [width, hw] using hp

theorem merge_width {m ws m' : Map String (List F)}
    (h : Map.merge (accumulateInto op) m ws = some m') (p : String) :
    width m' p = (width m p).or (width ws p) := by
  have hslot := Map.lookup_merge h p
  cases hw : ws.lookup p with
  | none =>
    rw [hw, Map.slot, Option.some.injEq] at hslot
    simp [width, hw, ← hslot]
  | some vals =>
    rw [hw, Map.slot, Option.map_eq_some_iff] at hslot
    obtain ⟨r, hr, hm'⟩ := hslot
    rw [width, width, width, ← hm', hw, Option.map_some, accumulate_length hr]
    cases m.lookup p with
    | none => simp
    | some acc => simp

variable [Add F]

/-- The sum over a group goes through if no vector is longer than the first of its
parameter, and has the lengths of those. -/
theorem sum_fits (group : List (GradientLog F)) (sum : Map String (List F)) :
    (group.foldlM (fun sum grad => Map.merge (accumulateInto (· + ·)) sum grad.gradients)
        sum).isSome = true ↔
      ∀ p, FirstLongest ((width sum p).toList ++ widths p group) := by
  induction group generalizing sum with
  | nil =>
    simp only [List.foldlM_nil, widths, List.filterMap_nil, List.append_nil]
    constructor
    · intro _ p
      cases width sum p with
      | none => trivial
      | some l => simp [FirstLongest]
    · intro _
      rfl
  | cons log group ih =>
    have hwidths : ∀ p, widths p (log :: group) =
        (width log.gradients p).toList ++ widths p group := by
      intro p
      cases hw : width log.gradients p with
      | none => simp [widths, hw]
      | some l => simp [widths, hw]
    simp only [hwidths, firstLongest_cons, forall_and]
    rw [← merge_fits (· + ·), List.foldlM_cons]
    cases hm : Map.merge (accumulateInto (· + ·)) sum log.gradients with
    | none => simp
    | some sum' =>
      have hw := merge_width hm
      simp only [Option.bind_eq_bind, Option.bind_some, ih, hw, Option.isSome_some, true_and]

theorem sum_width {group : List (GradientLog F)} {sum r : Map String (List F)}
    (h : group.foldlM (fun sum grad => Map.merge (accumulateInto (· + ·)) sum grad.gradients)
      sum = some r) (p : String) :
    width r p = (width sum p).or (widths p group).head? := by
  induction group generalizing sum with
  | nil =>
    cases h
    simp [widths]
  | cons log group ih =>
    rw [List.foldlM_cons, Option.bind_eq_bind, Option.bind_eq_some_iff] at h
    obtain ⟨sum', hm, h⟩ := h
    rw [ih h, merge_width hm]
    cases hw : width log.gradients p with
    | none => simp [widths, hw]
    | some l =>
      cases width sum p with
      | none => simp [widths, hw]
      | some l' => simp

/-! ## The manager -/

variable [Sub F] [Mul F] [Div F] [NatCast F]

/-- One step of gradient descent with the mean of the sums over `count` workers. -/
def descend (gm : GradientManager F) (count : Nat) (sum : Map String (List F)) :
    Option (Map String (List F)) :=
  Map.merge (accumulateInto fun param grad => param - gm.learningRate * grad)
    gm.currentModel.params (sum.mapValues fun vec => vec.map (· / (count : F)))

omit [Add F] [Div F] [NatCast F] in
theorem applyGradientToModel_eq (gm : GradientManager F) (aggGrad : AggregatedGradient F) :
    gm.applyGradientToModel aggGrad =
      (Map.merge (accumulateInto fun param grad => param - gm.learningRate * grad)
        gm.currentModel.params aggGrad.gradients).map fun params =>
          { gm with currentModel := ⟨aggGrad.epoch, params⟩ } := by
  unfold applyGradientToModel
  cases Map.merge (accumulateInto fun param grad => param - gm.learningRate * grad)
    gm.currentModel.params aggGrad.gradients with
  | none => rfl
  | some params => rfl

theorem handleGradientLog_waiting {gm : GradientManager F} {log : GradientLog F}
    (h : (gm.bufferWith log).length < gm.bufferSize) :
    gm.handleGradientLog log = some (gm.buffered log) := by
  have hfull : gm.addGradient log = (gm.buffered log, false) := by
    unfold addGradient
    rw [Prod.mk.injEq, decide_eq_false_iff_not]
    exact ⟨rfl, Nat.not_le_of_lt h⟩
  rw [handleGradientLog, hfull]

theorem handleGradientLog_full {gm : GradientManager F} {log : GradientLog F}
    (h : gm.bufferSize ≤ (gm.bufferWith log).length) :
    ∃ epoch, gm.handleGradientLog log =
      (sumGradients (gm.bufferWith log)).bind fun sum =>
        (gm.descend (gm.bufferWith log).length sum).map (gm.stepped log epoch) := by
  have hfull : gm.addGradient log = (gm.buffered log, true) := by
    unfold addGradient
    rw [Prod.mk.injEq, decide_eq_true_eq]
    exact ⟨rfl, h⟩
  obtain ⟨g, gs, hcons⟩ : ∃ g gs, gm.bufferWith log = g :: gs := by
    unfold bufferWith
    cases (gm.gradientBuffer.lookup log.batchID).getD [] with
    | nil => exact ⟨log, [], rfl⟩
    | cons g gs => exact ⟨g, gs ++ [log], rfl⟩
  have hlookup : ((gm.buffered log).gradientBuffer.lookup log.batchID).getD [] = g :: gs := by
    rw [buffered, Finmap.lookup_insert, Option.getD_some, hcons]
  refine ⟨g.epoch, ?_⟩
  rw [handleGradientLog, hfull]
  simp only [aggregateGradients, hlookup]
  rw [hcons]
  cases hsum : sumGradients (g :: gs) with
  | none => rfl
  | some sum =>
    simp only [Option.bind_eq_bind, Option.bind_some, Option.pure_def, applyGradientToModel_eq]
    rfl

end GradientManager

/-! ## Sequences of logs -/

/-- The lengths with which the groups meet the model vector of parameter `p`. -/
def groupWidths (p : String) (gs : List (List (GradientLog F))) : List Nat :=
  gs.filterMap fun group => (widths p group).head?

/-- In no complete group is a vector longer than the first one of its parameter there,
and no group's first vector is longer than that of the first group with the parameter. -/
structure LengthsFit (k : Nat) (logs : List (GradientLog F)) : Prop where
  group : ∀ group ∈ groups k logs, ∀ p, FirstLongest (widths p group)
  model : ∀ p, FirstLongest (groupWidths p (groups k logs))

open GradientManager

/-- The manager after `logs`: its buffers hold the logs in no complete group, and the
model vectors have the lengths of the first complete groups. -/
structure Tracks (logs : List (GradientLog F)) (gm : GradientManager F) : Prop where
  size_pos : 0 < gm.bufferSize
  buffer : ∀ b, (gm.gradientBuffer.lookup b).getD [] = pending gm.bufferSize b logs
  params : ∀ p, width gm.currentModel.params p =
    (groupWidths p (groups gm.bufferSize logs)).head?

section Sequences

variable {k : Nat} {gm gm' : GradientManager F} {logs : List (GradientLog F)}
variable {log : GradientLog F}

theorem tracks_new (learningRate : F) : Tracks [] (newGradientManager learningRate) where
  size_pos := Nat.zero_lt_succ 9
  buffer b := by simp [newGradientManager, pending, batchLogs]
  params p := by simp [newGradientManager, width, groups, groupsAfter, groupWidths]

theorem Tracks.bufferWith_eq (h : Tracks logs gm) (log : GradientLog F) :
    gm.bufferWith log = pending gm.bufferSize log.batchID logs ++ [log] := by
  rw [bufferWith, h.buffer]

theorem Tracks.length_le (h : Tracks logs gm) (log : GradientLog F) :
    (gm.bufferWith log).length ≤ gm.bufferSize := by
  rw [h.bufferWith_eq, List.length_append, List.length_singleton, pending_length]
  exact Nat.mod_lt _ h.size_pos

theorem lengthsFit_snoc_none (h : completes k logs log = none) :
    LengthsFit k (logs ++ [log]) ↔ LengthsFit k logs := by
  have hgroups : groups k (logs ++ [log]) = groups k logs := by
    rw [groups_snoc, h, Option.toList_none, List.append_nil]
  constructor
  · intro hf
    exact ⟨hgroups ▸ hf.group, hgroups ▸ hf.model⟩
  · intro hf
    exact ⟨hgroups ▸ hf.group, hgroups ▸ hf.model⟩

/-- A further group has to fit in itself and in the model. -/
theorem lengthsFit_snoc_some {group : List (GradientLog F)}
    (h : completes k logs log = some group) :
    LengthsFit k (logs ++ [log]) ↔ LengthsFit k logs ∧ (∀ p, FirstLongest (widths p group)) ∧
      ∀ p, FirstLongest ((groupWidths p (groups k logs)).head?.toList ++
        (widths p group).head?.toList) := by
  have hgroups : groups k (logs ++ [log]) = groups k logs ++ [group] := by
    rw [groups_snoc, h, Option.toList_some]
  have hwidths : ∀ p, groupWidths p (groups k (logs ++ [log])) =
      groupWidths p (groups k logs) ++ (widths p group).head?.toList := by
    intro p
    rw [hgroups, groupWidths, List.filterMap_append]
    cases hw : (widths p group).head? with
    | none => simp [groupWidths, hw]
    | some l => simp [groupWidths, hw]
  constructor
  · intro hf
    have hmodel := fun p => (firstLongest_snoc _ _).mp (hwidths p ▸ hf.model p)
    refine ⟨⟨fun g hg => hf.group g ?_, fun p => (hmodel p).1⟩, hf.group group ?_,
      fun p => (hmodel p).2⟩
    · rw [hgroups]
      exact List.mem_append_left _ hg
    · rw [hgroups]
      exact List.mem_append_right _ (List.mem_singleton_self _)
  · rintro ⟨hf, hgroup, hmodel⟩
    constructor
    · intro g hg
      rw [hgroups] at hg
      cases List.mem_append.mp hg with
      | inl hold => exact hf.group g hold
      | inr hnew =>
        rw [List.mem_singleton.mp hnew]
        exact hgroup
    · intro p
      rw [hwidths, firstLongest_snoc]
      exact ⟨hf.model p, hmodel p⟩

theorem LengthsFit.of_snoc (hk : 0 < k) (h : LengthsFit k (logs ++ [log])) :
    LengthsFit k logs := by
  by_cases hw : (pending k log.batchID logs).length + 1 = k
  · exact ((lengthsFit_snoc_some (completes_full hk hw).1).mp h).1
  · exact (lengthsFit_snoc_none (completes_waiting hk hw).1).mp h

/-- The buffers after a log has been put into the buffer of its batch. -/
theorem Tracks.lookup_buffered (h : Tracks logs gm) (b : Int) :
    ((gm.buffered log).gradientBuffer.lookup b).getD [] =
      if log.batchID = b then pending gm.bufferSize b logs ++ [log]
      else pending gm.bufferSize b logs := by
  split
  · rename_i hb
    subst hb
    rw [buffered, Finmap.lookup_insert, Option.getD_some, h.bufferWith_eq]
  · rename_i hb
    rw [buffered, Finmap.lookup_insert_of_ne _ (Ne.symm hb), h.buffer]

theorem Tracks.buffered (h : Tracks logs gm)
    (hw : (pending gm.bufferSize log.batchID logs).length + 1 ≠ gm.bufferSize) :
    Tracks (logs ++ [log]) (gm.buffered log) := by
  obtain ⟨hnone, hpending⟩ := completes_waiting h.size_pos hw
  constructor
  · exact h.size_pos
  · intro b
    rw [h.lookup_buffered]
    split
    · rename_i hb
      rw [← hb]
      exact hpending.symm
    · rename_i hb
      exact (pending_snoc_ne hb).symm
  · intro p
    have hgroups : groups gm.bufferSize (logs ++ [log]) = groups gm.bufferSize logs := by
      rw [groups_snoc, hnone, Option.toList_none, List.append_nil]
    show width gm.currentModel.params p =
      (groupWidths p (groups gm.bufferSize (logs ++ [log]))).head?
    rw [hgroups, h.params]

theorem Tracks.stepped (h : Tracks logs gm)
    (hw : (pending gm.bufferSize log.batchID logs).length + 1 = gm.bufferSize) {epoch : Int}
    {params : Map String (List F)}
    (hparams : ∀ p, width params p =
      (width gm.currentModel.params p).or (widths p (gm.bufferWith log)).head?) :
    Tracks (logs ++ [log]) (gm.stepped log epoch params) := by
  obtain ⟨hsome, hpending⟩ := completes_full h.size_pos hw
  constructor
  · exact h.size_pos
  · intro b
    show (((gm.buffered log).gradientBuffer.erase log.batchID).lookup b).getD [] =
      pending gm.bufferSize b (logs ++ [log])
    by_cases hb : log.batchID = b
    · subst hb
      rw [Finmap.lookup_erase, hpending]
      rfl
    · rw [Finmap.lookup_erase_ne (Ne.symm hb), h.lookup_buffered, if_neg hb,
        pending_snoc_ne hb]
  · intro p
    show width params p = (groupWidths p (groups gm.bufferSize (logs ++ [log]))).head?
    rw [hparams, h.params, h.bufferWith_eq, groups_snoc, hsome, Option.toList_some, groupWidths,
      groupWidths, List.filterMap_append, List.head?_append]
    congr 1
    cases hl : (widths p (pending gm.bufferSize log.batchID logs ++ [log])).head? with
    | none => simp [hl]
    | some l => simp [hl]

variable [Zero F] [Add F] [Sub F] [Mul F] [Div F] [NatCast F]

omit [Sub F] [Mul F] in
/-- The means of a group have the lengths of its first vectors. -/
theorem mean_width {group : List (GradientLog F)} {sum : Map String (List F)}
    (hsum : sumGradients group = some sum) (count : Nat) (p : String) :
    width (sum.mapValues fun vec => vec.map (· / (count : F))) p = (widths p group).head? := by
  have hw : width sum p = (widths p group).head? := sum_width hsum p
  rw [← hw, width, Map.lookup_mapValues, width]
  cases sum.lookup p with
  | none => rfl
  | some vec => simp

theorem descend_fits {group : List (GradientLog F)} {sum : Map String (List F)}
    (hsum : sumGradients group = some sum) (gm : GradientManager F) (count : Nat) :
    (gm.descend count sum).isSome = true ↔
      ∀ p, FirstLongest ((width gm.currentModel.params p).toList ++
        (widths p group).head?.toList) := by
  rw [descend, merge_fits]
  simp only [mean_width hsum]

theorem descend_width {group : List (GradientLog F)} {sum params : Map String (List F)}
    {count : Nat} (hsum : sumGradients group = some sum) {gm : GradientManager F}
    (h : gm.descend count sum = some params) (p : String) :
    width params p = (width gm.currentModel.params p).or (widths p group).head? := by
  rw [descend] at h
  rw [merge_width h, mean_width hsum]

omit [Sub F] [Mul F] [Div F] [NatCast F] in
/-- A group can be summed exactly if no vector is longer than the first of its parameter. -/
theorem sumGradients_fits (group : List (GradientLog F)) :
    (sumGradients group).isSome = true ↔ ∀ p, FirstLongest (widths p group) := by
  have hempty : ∀ p, width (∅ : Map String (List F)) p = none := fun p => rfl
  have hsum := sum_fits group ∅
  simp only [hempty, Option.toList_none, List.nil_append] at hsum
  exact hsum

/-- A log that completes a group. -/
theorem Tracks.complete (h : Tracks logs gm) (hfit : LengthsFit gm.bufferSize logs)
    (hw : (pending gm.bufferSize log.batchID logs).length + 1 = gm.bufferSize) :
    ((gm.handleGradientLog log).isSome = true ↔ LengthsFit gm.bufferSize (logs ++ [log])) ∧
      ∀ gm', gm.handleGradientLog log = some gm' →
        gm'.bufferSize = gm.bufferSize ∧ Tracks (logs ++ [log]) gm' := by
  obtain ⟨hsome, -⟩ := completes_full h.size_pos hw
  have hlen : gm.bufferSize ≤ (gm.bufferWith log).length := by
    rw [h.bufferWith_eq, List.length_append, List.length_singleton]
    exact hw.ge
  obtain ⟨epoch, heq⟩ := handleGradientLog_full hlen
  rw [heq, lengthsFit_snoc_some hsome, ← h.bufferWith_eq log, ← sumGradients_fits]
  cases hs : sumGradients (gm.bufferWith log) with
  | none => simp
  | some sum =>
    have hmodel := descend_fits hs gm (gm.bufferWith log).length
    simp only [h.params] at hmodel
    constructor
    · simp only [Option.bind_some, Option.isSome_map, hmodel]
      exact ⟨fun hm => ⟨hfit, rfl, hm⟩, fun hm => hm.2.2⟩
    · intro gm' hgm'
      rw [Option.bind_some, Option.map_eq_some_iff] at hgm'
      obtain ⟨params, hd, rfl⟩ := hgm'
      exact ⟨rfl, h.stepped hw (descend_width hs hd)⟩

/-- One log: the manager takes it exactly if the lengths still fit, and follows. -/
theorem Tracks.handle (h : Tracks logs gm) (hfit : LengthsFit gm.bufferSize logs)
    (log : GradientLog F) :
    ((gm.handleGradientLog log).isSome = true ↔ LengthsFit gm.bufferSize (logs ++ [log])) ∧
      ∀ gm', gm.handleGradientLog log = some gm' →
        gm'.bufferSize = gm.bufferSize ∧ Tracks (logs ++ [log]) gm' := by
  by_cases hw : (pending gm.bufferSize log.batchID logs).length + 1 = gm.bufferSize
  · exact h.complete hfit hw
  · -- the log waits
    obtain ⟨hnone, -⟩ := completes_waiting h.size_pos hw
    have hlen : (gm.bufferWith log).length < gm.bufferSize := by
      apply Nat.lt_of_le_of_ne (h.length_le log)
      rwa [h.bufferWith_eq, List.length_append, List.length_singleton]
    rw [handleGradientLog_waiting hlen, lengthsFit_snoc_none hnone]
    constructor
    · exact ⟨fun _ => hfit, fun _ => rfl⟩
    · intro gm' hgm'
      cases hgm'
      exact ⟨rfl, h.buffered hw⟩

theorem handleAll_snoc (gm : GradientManager F) (logs : List (GradientLog F))
    (log : GradientLog F) :
    gm.handleAll (logs ++ [log]) = (gm.handleAll logs).bind fun gm => gm.handleGradientLog log := by
  simp [handleAll]

/-- What a new manager makes of a sequence of logs, from the front. -/
theorem handleAll_tracks (learningRate : F) (logs : List (GradientLog F)) :
    (((newGradientManager learningRate).handleAll logs).isSome = true ↔ LengthsFit 10 logs) ∧
      ∀ gm, (newGradientManager learningRate).handleAll logs = some gm →
        gm.bufferSize = 10 ∧ Tracks logs gm := by
  induction logs using List.reverseRecOn with
  | nil =>
    constructor
    · have hfit : LengthsFit 10 ([] : List (GradientLog F)) := by
        constructor
        · simp [groups, groupsAfter]
        · simp [groups, groupsAfter, groupWidths, FirstLongest]
      exact ⟨fun _ => hfit, fun _ => rfl⟩
    · intro gm hgm
      cases hgm
      exact ⟨rfl, tracks_new learningRate⟩
  | append_singleton logs log ih =>
    rw [handleAll_snoc]
    cases hr : (newGradientManager learningRate).handleAll logs with
    | none =>
      have hnot : ¬ LengthsFit 10 logs := by
        rw [← ih.1, hr]
        exact Bool.false_ne_true
      constructor
      · exact ⟨fun hno => absurd hno Bool.false_ne_true,
          fun hfit => absurd (hfit.of_snoc (Nat.zero_lt_succ 9)) hnot⟩
      · intro gm hgm
        cases hgm
    | some gm =>
      obtain ⟨hsize, ht⟩ := ih.2 gm hr
      have hfit : LengthsFit 10 logs := by
        rw [← ih.1, hr]
        rfl
      rw [← hsize] at hfit
      obtain ⟨hiff, hnext⟩ := ht.handle hfit log
      rw [hsize] at hiff
      constructor
      · exact hiff
      · intro gm' hgm'
        obtain ⟨hsize', ht'⟩ := hnext gm' hgm'
        exact ⟨hsize'.trans hsize, ht'⟩

/-- Handling a sequence of logs with a new manager, at the first time or in a replay,
panics exactly if a vector is longer than the first one of its parameter in its group, or
the first one of a group longer than that of the first group with the parameter. -/
theorem gradients_handled_iff_lengths_fit (learningRate : F) (logs : List (GradientLog F)) :
    ((newGradientManager learningRate).handleAll logs).isSome = true ↔ LengthsFit 10 logs :=
  (handleAll_tracks learningRate logs).1

end Sequences

/-- The gradient of one worker for the parameter `w`. -/
def gradientFor (batchID workerID : Int) (vec : List Int) : GradientLog Int :=
  ⟨1, workerID, batchID, Finmap.singleton "w" vec, 0⟩

/-- Worker 0 sends one number, the nine others of the batch two. -/
def unevenGroup : List (GradientLog Int) :=
  gradientFor 1 0 [1] :: (List.range 9).map fun i => gradientFor 1 (i + 1) [1, 1]

/-- All workers of batch 1 send one number, all workers of batch 2 two. -/
def unevenBatches : List (GradientLog Int) :=
  (List.range 10).map (fun i => gradientFor 1 i [1]) ++
    (List.range 10).map fun i => gradientFor 2 i [1, 1]

theorem gradient_panics_applier :
    (newGradientManager (1 : Int)).handleAll unevenGroup = none ∧
      (newGradientManager (1 : Int)).handleAll unevenBatches = none := by
  constructor
  · decide +kernel
  · decide +kernel

end RaftImplementation
