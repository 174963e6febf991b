import RaftImplementation.Raft.Batches

/-!
# Every gradient is counted once

The trigger of an aggregation, the aggregation and the deletion of the buffer are separate
calls. Between them no gradient is lost or counted twice: what came in is what has been
aggregated, `bufferSize` at a time, and what waits in the buffers.
-/

namespace RaftImplementation

open Library GradientManager

variable {F : Type} [Zero F] [Add F] [Sub F] [Mul F] [Div F] [NatCast F]
variable {learningRate : F} {logs : List (GradientLog F)} {gm : GradientManager F}
variable {log : GradientLog F}

/-- A new manager that has handled `seen` aggregates when `log` arrives. -/
def Aggregates (learningRate : F) (seen : List (GradientLog F)) (log : GradientLog F) : Prop :=
  ∃ gm, (newGradientManager learningRate).handleAll seen = some gm ∧
    (gm.addGradient log).2 = true

/-- A new manager that has handled `seen` applies `aggGrad` to its model when `log` arrives. -/
def Applies (learningRate : F) (seen : List (GradientLog F)) (log : GradientLog F)
    (aggGrad : AggregatedGradient F) : Prop :=
  ∃ gm gm₁ gm₂, (newGradientManager learningRate).handleAll seen = some gm ∧
    gm.addGradient log = (gm₁, true) ∧
    gm₁.aggregateGradients log.batchID = some (gm₂, some aggGrad)

/-- `buffer` is what arrived for batch `b` since its last aggregation, in order. -/
def SinceAggregation (learningRate : F) (b : Int) (logs buffer : List (GradientLog F)) : Prop :=
  ∃ earlier later, logs = earlier ++ later ∧ buffer = batchLogs b later ∧
    (earlier = [] ∨ ∃ seen log, earlier = seen ++ [log] ∧ log.batchID = b ∧
      Aggregates learningRate seen log) ∧
    ∀ seen log, seen ++ [log] <+: later → log.batchID = b →
      ¬ Aggregates learningRate (earlier ++ seen) log

/-- The manager that `logs` lead to, and what its counters and buffers say. -/
structure Accounted (learningRate : F) (logs : List (GradientLog F)) (gm : GradientManager F) :
    Prop where
  handled : (newGradientManager learningRate).handleAll logs = some gm
  size_pos : 0 < gm.bufferSize
  total : gm.totalGradients = logs.length
  conserved : logs.length =
    gm.bufferSize * gm.aggregatedBatches + gm.gradientBuffer.total List.length
  short : ∀ b buffer, gm.gradientBuffer.lookup b = some buffer →
    0 < buffer.length ∧ buffer.length < gm.bufferSize
  since : ∀ b, SinceAggregation learningRate b logs ((gm.gradientBuffer.lookup b).getD [])

theorem accounted_new (learningRate : F) :
    Accounted learningRate [] (newGradientManager learningRate) where
  handled := rfl
  size_pos := Nat.zero_lt_succ 9
  total := rfl
  conserved := rfl
  short b buffer h := by cases h
  since b := by
    refine ⟨[], [], rfl, rfl, .inl rfl, ?_⟩
    intro seen log hprefix
    simp at hprefix

/-! ## One log -/

namespace SinceAggregation

variable {b : Int} {buffer : List (GradientLog F)}

/-- A log that triggers no aggregation of batch `b` waits, if it is of that batch at all. -/
theorem wait (h : SinceAggregation learningRate b logs buffer) (log : GradientLog F)
    (hlog : log.batchID = b → ¬ Aggregates learningRate logs log) :
    SinceAggregation learningRate b (logs ++ [log]) (buffer ++ batchLogs b [log]) := by
  obtain ⟨earlier, later, rfl, rfl, hlast, hnone⟩ := h
  refine ⟨earlier, later ++ [log], List.append_assoc .., ?_, hlast, ?_⟩
  · rw [batchLogs, batchLogs, batchLogs, List.filter_append]
  · intro seen l hprefix hl
    rcases List.prefix_concat_iff.mp hprefix with heq | hold
    · obtain ⟨rfl, hsame⟩ := List.append_inj' heq rfl
      cases hsame
      exact hlog hl
    · exact hnone seen l hold hl

/-- A log that triggers an aggregation leaves nothing behind. -/
theorem aggregate (hlog : log.batchID = b) (hagg : Aggregates learningRate logs log) :
    SinceAggregation learningRate b (logs ++ [log]) [] := by
  refine ⟨logs ++ [log], [], (List.append_nil _).symm, rfl, .inr ⟨logs, log, rfl, hlog, hagg⟩, ?_⟩
  intro seen l hprefix
  simp at hprefix

end SinceAggregation

namespace Accounted

theorem aggregates_iff (h : Accounted learningRate logs gm) (log : GradientLog F) :
    Aggregates learningRate logs log ↔ gm.bufferSize ≤ (gm.bufferWith log).length := by
  constructor
  · rintro ⟨gm', hgm', hfull⟩
    rw [h.handled, Option.some.injEq] at hgm'
    subst hgm'
    exact of_decide_eq_true hfull
  · intro hfull
    exact ⟨gm, h.handled, decide_eq_true hfull⟩

/-- A buffer is emptied as soon as it is full. -/
theorem length_le (h : Accounted learningRate logs gm) (log : GradientLog F) :
    (gm.bufferWith log).length ≤ gm.bufferSize := by
  rw [length_bufferWith]
  cases hb : gm.gradientBuffer.lookup log.batchID with
  | none => exact h.size_pos
  | some buffer => exact (h.short _ buffer hb).2

/-- The log waits in the buffer of its batch. -/
theorem wait (h : Accounted learningRate logs gm)
    (hlen : (gm.bufferWith log).length < gm.bufferSize) :
    Accounted learningRate (logs ++ [log]) (gm.buffered log) where
  handled := by
    rw [handleAll_snoc, h.handled, Option.bind_some, handleGradientLog_waiting hlen]
  size_pos := h.size_pos
  total := by
    rw [List.length_append, List.length_singleton, ← h.total]
    rfl
  conserved := by
    have hsplit := Map.total_split List.length gm.gradientBuffer log.batchID
    have hlength := length_bufferWith gm log
    have hconserved := h.conserved
    show (logs ++ [log]).length = gm.bufferSize * gm.aggregatedBatches +
      Map.total List.length (gm.gradientBuffer.insert log.batchID (gm.bufferWith log))
    rw [Map.total_insert, List.length_append, List.length_singleton]
    omega
  short := by
    intro b buffer hb
    rw [buffered] at hb
    by_cases hlog : b = log.batchID
    · subst hlog
      rw [Finmap.lookup_insert, Option.some.injEq] at hb
      subst hb
      have hlength := length_bufferWith gm log
      exact ⟨by omega, hlen⟩
    · rw [Finmap.lookup_insert_of_ne _ hlog] at hb
      exact h.short b buffer hb
  since := by
    intro b
    have hnext := (h.since b).wait log fun _ hagg =>
      Nat.not_le_of_lt hlen ((h.aggregates_iff log).mp hagg)
    by_cases hlog : log.batchID = b
    · subst hlog
      rw [buffered, Finmap.lookup_insert, Option.getD_some, bufferWith]
      simpa [batchLogs] using hnext
    · rw [buffered, Finmap.lookup_insert_of_ne _ (Ne.symm hlog)]
      simpa [batchLogs, hlog] using hnext

/-- The log fills the buffer of its batch, which is aggregated. -/
theorem aggregate (h : Accounted learningRate logs gm)
    (hlen : (gm.bufferWith log).length = gm.bufferSize) {epoch : Int}
    {params : Map String (List F)}
    (hstep : gm.handleGradientLog log = some (gm.stepped log epoch params)) :
    Accounted learningRate (logs ++ [log]) (gm.stepped log epoch params) where
  handled := by rw [handleAll_snoc, h.handled, Option.bind_some, hstep]
  size_pos := h.size_pos
  total := by
    rw [List.length_append, List.length_singleton, ← h.total]
    rfl
  conserved := by
    have hsplit := Map.total_split List.length gm.gradientBuffer log.batchID
    have hlength := length_bufferWith gm log
    have hconserved := h.conserved
    have hinsert := Map.total_split List.length
      (gm.gradientBuffer.insert log.batchID (gm.bufferWith log)) log.batchID
    rw [Finmap.lookup_insert, Map.total_insert, Option.map_some, Option.getD_some] at hinsert
    show (logs ++ [log]).length = gm.bufferSize * (gm.aggregatedBatches + 1) +
      Map.total List.length
        ((gm.gradientBuffer.insert log.batchID (gm.bufferWith log)).erase log.batchID)
    rw [Nat.mul_add, Nat.mul_one, List.length_append, List.length_singleton]
    omega
  short := by
    intro b buffer hb
    rw [stepped] at hb
    by_cases hlog : b = log.batchID
    · subst hlog
      rw [Finmap.lookup_erase] at hb
      cases hb
    · rw [Finmap.lookup_erase_ne hlog, Finmap.lookup_insert_of_ne _ hlog] at hb
      exact h.short b buffer hb
  since := by
    intro b
    by_cases hlog : log.batchID = b
    · subst hlog
      rw [stepped, Finmap.lookup_erase]
      exact .aggregate rfl ((h.aggregates_iff log).mpr hlen.ge)
    · have hnext := (h.since b).wait log fun hb => absurd hb hlog
      rw [stepped, Finmap.lookup_erase_ne (Ne.symm hlog),
        Finmap.lookup_insert_of_ne _ (Ne.symm hlog)]
      simpa [batchLogs, hlog] using hnext

theorem step (h : Accounted learningRate logs gm) {gm' : GradientManager F}
    (hstep : gm.handleGradientLog log = some gm') :
    Accounted learningRate (logs ++ [log]) gm' := by
  cases Nat.lt_or_eq_of_le (h.length_le log) with
  | inl hlen =>
    rw [handleGradientLog_waiting hlen, Option.some.injEq] at hstep
    subst hstep
    exact h.wait hlen
  | inr hlen =>
    obtain ⟨epoch, heq⟩ := handleGradientLog_full hlen.ge
    have hresult := heq
    rw [hstep, eq_comm, Option.bind_eq_some_iff] at hresult
    obtain ⟨sum, -, hdescend⟩ := hresult
    obtain ⟨params, -, rfl⟩ := Option.map_eq_some_iff.mp hdescend
    exact h.aggregate hlen hstep

/-- What is aggregated is a full buffer. -/
theorem workerCount_eq (h : Accounted learningRate logs gm) {aggGrad : AggregatedGradient F}
    (happly : Applies learningRate logs log aggGrad) : aggGrad.workerCount = gm.bufferSize := by
  obtain ⟨gm', gm₁, gm₂, hgm', hadd, hagg⟩ := happly
  rw [h.handled, Option.some.injEq] at hgm'
  subst hgm'
  have hgm₁ : gm₁ = gm.buffered log := (congrArg Prod.fst hadd).symm
  have hfull : gm.bufferSize ≤ (gm.bufferWith log).length :=
    of_decide_eq_true (congrArg Prod.snd hadd)
  have hlookup : (gm₁.gradientBuffer.lookup log.batchID).getD [] = gm.bufferWith log := by
    rw [hgm₁, buffered, Finmap.lookup_insert, Option.getD_some]
  unfold aggregateGradients at hagg
  rw [hlookup] at hagg
  cases hbuffer : gm.bufferWith log with
  | nil => simp [hbuffer] at hagg
  | cons g gs =>
    simp only [hbuffer, Option.bind_eq_bind, Option.bind_eq_some_iff, Option.pure_def,
      Option.some.injEq, Prod.mk.injEq] at hagg
    obtain ⟨sum, -, -, rfl⟩ := hagg
    rw [← hbuffer]
    exact Nat.le_antisymm (h.length_le log) hfull

end Accounted

/-! ## Sequences of logs -/

theorem accounted_handleAll (h : (newGradientManager learningRate).handleAll logs = some gm) :
    Accounted learningRate logs gm := by
  induction logs using List.reverseRecOn generalizing gm with
  | nil =>
    cases h
    exact accounted_new learningRate
  | append_singleton logs log ih =>
    rw [handleAll_snoc, Option.bind_eq_some_iff] at h
    obtain ⟨gm₀, hlogs, hstep⟩ := h
    exact (ih hlogs).step hstep

theorem bufferSize_handleAll (h : (newGradientManager learningRate).handleAll logs = some gm) :
    gm.bufferSize = 10 := ((handleAll_tracks learningRate logs).2 gm h).1

/-- After any sequence of logs that a new manager handles without a panic: the gradients
counted are those handled, and those are the aggregated ones and the ones in the buffers;
a buffer is neither empty nor full and holds what arrived for its batch since the last
aggregation; and every aggregate that was applied is that of `bufferSize` workers. -/
theorem gradients_accounted (h : (newGradientManager learningRate).handleAll logs = some gm) :
    gm.totalGradients = logs.length ∧
    gm.totalGradients =
      gm.bufferSize * gm.aggregatedBatches + gm.gradientBuffer.total List.length ∧
    (∀ b buffer, gm.gradientBuffer.lookup b = some buffer →
      1 ≤ buffer.length ∧ buffer.length ≤ gm.bufferSize - 1 ∧
        SinceAggregation learningRate b logs buffer) ∧
    ∀ seen log aggGrad, seen ++ [log] <+: logs → Applies learningRate seen log aggGrad →
      aggGrad.workerCount = gm.bufferSize := by
  have hacc := accounted_handleAll h
  refine ⟨hacc.total, hacc.total.trans hacc.conserved, ?_, ?_⟩
  · intro b buffer hb
    obtain ⟨hpos, hlt⟩ := hacc.short b buffer hb
    have hsince := hacc.since b
    rw [hb, Option.getD_some] at hsince
    exact ⟨hpos, by omega, hsince⟩
  · intro seen log aggGrad _ happly
    obtain ⟨gm₀, _, _, hseen, _⟩ := id happly
    rw [(accounted_handleAll hseen).workerCount_eq happly, bufferSize_handleAll hseen,
      bufferSize_handleAll h]

/-- Twelve workers send a gradient for batch 1. -/
def twelveGradients : List (GradientLog Int) :=
  (List.range 12).map fun i => gradientFor 1 i [1]

def afterTwelve : GradientManager Int :=
  ((newGradientManager 1).handleAll twelveGradients).getD (newGradientManager 1)

theorem twelve_gradients_accounted :
    afterTwelve.aggregatedBatches = 1 ∧ afterTwelve.totalGradients = 12 ∧
      SinceAggregation 1 1 twelveGradients [gradientFor 1 10 [1], gradientFor 1 11 [1]] := by
  have hrun : (newGradientManager 1).handleAll twelveGradients = some afterTwelve := by
    decide +kernel
  obtain ⟨htotal, -, hbuffers, -⟩ := gradients_accounted hrun
  have hbuffer : afterTwelve.gradientBuffer.lookup 1 =
      some [gradientFor 1 10 [1], gradientFor 1 11 [1]] := by decide +kernel
  exact ⟨by decide +kernel, htotal, (hbuffers 1 _ hbuffer).2.2⟩

end RaftImplementation
