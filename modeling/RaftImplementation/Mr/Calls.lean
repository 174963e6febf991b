import RaftImplementation.Library.Runs
import RaftImplementation.Mr.Coordinator

/-!
# The coordinator under any calls

Here the workers are left out: `PollTask` and `MarkFinished` are called in any order and
`MarkFinished` with anything, a task that does not exist, one that was never handed out or
one that is reported again. What becomes of a task is recorded in the channel, in its
state and in the phase. The records agree after any sequence of calls, each call moves at
most one task one state on, and once the phase is `AllDone` nothing moves any more.
-/

namespace RaftImplementation.Mr

open Library

inductive Call where
  | pollTask
  | markFinished (args : Task)

namespace Coordinator

/-- The state after a call, and the replies of `PollTask`; none if the call panics. -/
def call (c : Coordinator) : Call → Option (Coordinator × List Task)
  | .pollTask => some (c.pollTask.1, [c.pollTask.2])
  | .markFinished args => (c.markFinished args).map fun c => (c, [])

end Coordinator

/-- From one state of a task to the next. -/
inductive State.Next : State → State → Prop
  | handOut : State.Next .waiting .working
  | finish : State.Next .working .done

/-- What the coordinator has on record after the replies `replies`. -/
structure Consistent (files : List FileName) (nReduce : Nat) (replies : List Task)
    (c : Coordinator) : Prop where
  /-- No two files have a task of the same id. -/
  distinct : ((files.mapIdx (mapTaskFor nReduce)).map Task.taskId).Nodup
  /-- The table has the task of every file under its id, and no other. -/
  table : ∀ id task, (∃ state, c.taskMetaHolder.lookup id = some ⟨state, task⟩) ↔
    task ∈ files.mapIdx (mapTaskFor nReduce) ∧ task.taskId = id
  /-- No task was handed out twice. -/
  handedOnce : ((replies.filter fun reply => reply.taskType = .mapTask).map Task.taskId).Nodup
  /-- In the channel are the tasks that wait. -/
  channel : ∀ task, task ∈ c.taskChannelMap ↔
    c.taskMetaHolder.lookup task.taskId = some ⟨.waiting, task⟩

/-- What one call may do. -/
structure Orderly (c : Coordinator) (a : Call) (c' : Coordinator) : Prop where
  /-- No task is lost, and none skips a state or goes back. -/
  moves : ∀ id state task, c.taskMetaHolder.lookup id = some ⟨state, task⟩ →
    ∃ state', c'.taskMetaHolder.lookup id = some ⟨state', task⟩ ∧
      (state' = state ∨ State.Next state state')
  /-- `MarkFinished` changes nothing but the task it names, if that is at work. -/
  marked : ∀ args, a = .markFinished args → c' = c ∨
    ∃ task, c.taskMetaHolder.lookup args.taskId = some ⟨.working, task⟩ ∧
      c' = { c with taskMetaHolder := c.taskMetaHolder.insert args.taskId ⟨.done, task⟩ }
  /-- The phase ends when there is a task and every task is done. -/
  finished : c.distPhase ≠ .allDone → c'.distPhase = .allDone →
    c'.taskMetaHolder = c.taskMetaHolder ∧
      (∃ id info, c.taskMetaHolder.lookup id = some info) ∧
      ∀ id info, c.taskMetaHolder.lookup id = some info → info.state = .done

variable {files : List FileName} {nReduce handed handed' : Nat} {c c' : Coordinator}
variable {st st' : Nat → State} {replies es : List Task} {a : Call}

/-! ## One call -/

/-- What a call can do to a board: how many tasks have then been handed out, their states
and the replies. -/
inductive Moved (files : List FileName) (nReduce handed : Nat) (st : Nat → State) :
    Nat → (Nat → State) → List Task → Prop
  | handOut {v : FileName} (hv : files[handed]? = some v) :
      Moved files nReduce handed st (handed + 1) (Function.update st handed .working)
        [mapTaskFor nReduce handed v]
  /-- There is none to hand out. -/
  | reply {task : Task} (htask : task.taskType ≠ .mapTask) :
      Moved files nReduce handed st handed st [task]
  | finish {i : Nat} (hi : st i = .working) :
      Moved files nReduce handed st handed (Function.update st i .done) []
  /-- A report of a task that is not at work. -/
  | ignore : Moved files nReduce handed st handed st []

theorem Board.call (h : Board files nReduce c handed st) (hcall : c.call a = some (c', es)) :
    ∃ handed' st', Moved files nReduce handed st handed' st' es ∧
      Board files nReduce c' handed' st' := by
  cases a with
  | pollTask =>
    cases hcall
    obtain ⟨v, hv, hreply, hboard⟩ | ⟨hboard, hreply⟩ := h.pollTask
    · rw [hreply]
      exact ⟨_, _, .handOut hv, hboard⟩
    · refine ⟨_, _, .reply ?_, hboard⟩
      cases hreply with
      | inl hwait => simp [hwait]
      | inr hexit => simp [hexit]
  | markFinished args =>
    obtain ⟨c₁, hm, heq⟩ := Option.map_eq_some_iff.mp hcall
    cases heq
    obtain rfl | ⟨i, -, hi, hboard⟩ := h.markFinished hm
    · exact ⟨_, _, .ignore, h⟩
    · exact ⟨_, _, .finish hi, hboard⟩

theorem markFinished_isSome {args : Task} (h : args.taskType = .mapTask) :
    (c.markFinished args).isSome = true := by
  simp only [Coordinator.markFinished, h]
  cases c.taskMetaHolder.lookup args.taskId with
  | none => rfl
  | some info =>
    by_cases hworking : info.state = .working
    · simp [hworking]
    · simp [hworking]

/-- States in which one task has moved on. -/
theorem State.Next.update {i : Nat} {state : State} (h : State.Next (st i) state) (j : Nat) :
    Function.update st i state j = st j ∨ State.Next (st j) (Function.update st i state j) := by
  by_cases hj : j = i
  · subst hj
    rw [Function.update_self]
    exact .inr h
  · rw [Function.update_of_ne hj]
    exact .inl rfl

namespace Moved

/-- Every task stays in its state or goes on to the next one. -/
theorem next (h : Moved files nReduce handed st handed' st' es)
    (hwaiting : ∀ i, st i = .waiting ↔ handed ≤ i) (i : Nat) :
    st' i = st i ∨ State.Next (st i) (st' i) := by
  cases h with
  | handOut hv =>
    have hnext : State.Next (st handed) .working := by
      rw [(hwaiting handed).mpr (Nat.le_refl _)]
      exact .handOut
    exact hnext.update i
  | reply => exact .inl rfl
  | finish hi =>
    have hnext := State.Next.finish
    rw [← hi] at hnext
    exact hnext.update i
  | ignore => exact .inl rfl

/-- The map tasks among the replies are those handed out, in their order. -/
theorem handed_eq (h : Moved files nReduce handed st handed' st' es)
    (hreplies : (replies.filter fun reply => reply.taskType = .mapTask) =
      (files.mapIdx (mapTaskFor nReduce)).take handed) :
    ((replies ++ es).filter fun reply => reply.taskType = .mapTask) =
      (files.mapIdx (mapTaskFor nReduce)).take handed' := by
  rw [List.filter_append, hreplies]
  cases h with
  | handOut hv => simp [List.take_add_one, hv, mapTaskFor]
  | reply htask => simp [htask]
  | finish => simp
  | ignore => simp

end Moved

namespace Board

theorem lookup_iff (h : Board files nReduce c handed st) {id : Int} {state : State} {task : Task} :
    c.taskMetaHolder.lookup id = some ⟨state, task⟩ ↔
      ∃ (i : Nat) (v : FileName), id = i ∧ files[i]? = some v ∧ state = st i ∧
        task = mapTaskFor nReduce i v := by
  constructor
  · intro hinfo
    obtain ⟨i, v, hid, hv, heq⟩ := h.lookup_eq_some hinfo
    obtain ⟨hstate, htask⟩ := TaskMetaInfo.mk.inj heq
    exact ⟨i, v, hid, hv, hstate, htask⟩
  · rintro ⟨i, v, rfl, hv, rfl, rfl⟩
    exact h.lookup_task hv

theorem mem_channel (h : Board files nReduce c handed st) {task : Task} :
    task ∈ c.taskChannelMap ↔
      c.taskMetaHolder.lookup task.taskId = some ⟨.waiting, task⟩ := by
  rw [h.channel, h.lookup_iff, List.mem_iff_getElem?]
  simp only [List.getElem?_drop, List.getElem?_mapIdx, Option.map_eq_some_iff]
  constructor
  · rintro ⟨k, v, hv, rfl⟩
    exact ⟨handed + k, v, rfl, hv, ((h.waiting _).mpr (Nat.le_add_right _ _)).symm, rfl⟩
  · rintro ⟨i, v, -, hv, hwaiting, rfl⟩
    obtain ⟨k, rfl⟩ := Nat.exists_eq_add_of_le ((h.waiting i).mp hwaiting.symm)
    exact ⟨k, v, hv, rfl⟩

theorem consistent (h : Board files nReduce c handed st)
    (hreplies : (replies.filter fun reply => reply.taskType = .mapTask) =
      (files.mapIdx (mapTaskFor nReduce)).take handed) :
    Consistent files nReduce replies c := by
  constructor
  · exact taskIds_nodup nReduce files
  · intro id task
    simp only [h.lookup_iff, List.mem_iff_getElem?, List.getElem?_mapIdx, Option.map_eq_some_iff]
    constructor
    · rintro ⟨_, i, v, rfl, hv, -, rfl⟩
      exact ⟨⟨i, v, hv, rfl⟩, rfl⟩
    · rintro ⟨⟨i, v, hv, rfl⟩, rfl⟩
      exact ⟨st i, i, v, rfl, hv, rfl, rfl⟩
  · rw [hreplies, List.map_take]
    exact (taskIds_nodup nReduce files).sublist (List.take_sublist _ _)
  · intro task
    exact h.mem_channel

/-- Two boards with the same states have the same table. -/
theorem table_eq (h : Board files nReduce c handed st) (h' : Board files nReduce c' handed' st) :
    c'.taskMetaHolder = c.taskMetaHolder := by
  apply Finmap.ext_lookup
  intro id
  cases id with
  | ofNat i => exact (h'.table i).trans (h.table i).symm
  | negSucc k => exact (h'.table_negSucc k).trans (h.table_negSucc k).symm

/-- In a state with the phase `AllDone` there is a task, and every task is done. -/
theorem all_done (h : Board files nReduce c handed st) (hphase : c.distPhase = .allDone) :
    (∃ id info, c.taskMetaHolder.lookup id = some info) ∧
      ∀ id info, c.taskMetaHolder.lookup id = some info → info.state = .done := by
  obtain ⟨hne, hdone⟩ := h.finished hphase
  constructor
  · have hpos := List.length_pos_iff.mpr hne
    exact ⟨(0 : Nat), _, h.lookup_task (List.getElem?_eq_getElem hpos)⟩
  · intro id info hinfo
    obtain ⟨i, v, -, hv, rfl⟩ := h.lookup_eq_some hinfo
    exact hdone i (List.getElem?_eq_some_iff.mp hv).1

/-- Only a `PollTask` that finds all tasks done ends the phase, and it leaves the table. -/
theorem finished_by_poll (h : Board files nReduce c handed st)
    (hphase : c.pollTask.1.distPhase = .allDone) :
    c.pollTask.1.taskMetaHolder = c.taskMetaHolder := by
  obtain ⟨v, hv, -, hboard⟩ | ⟨hboard, -⟩ := h.pollTask
  · -- the task just handed out is not done
    obtain ⟨hlt, -⟩ := List.getElem?_eq_some_iff.mp hv
    have hdone := (hboard.finished hphase).2 handed hlt
    rw [Function.update_self] at hdone
    cases hdone
  · exact h.table_eq hboard

theorem orderly (h : Board files nReduce c handed st) (hcall : c.call a = some (c', es)) :
    Orderly c a c' := by
  obtain ⟨handed', st', hmoved, hboard⟩ := h.call hcall
  constructor
  · intro id state task hinfo
    obtain ⟨i, v, rfl, hv, rfl, rfl⟩ := h.lookup_iff.mp hinfo
    exact ⟨st' i, hboard.lookup_iff.mpr ⟨i, v, rfl, hv, rfl, rfl⟩, hmoved.next h.waiting i⟩
  · rintro args rfl
    obtain ⟨c₁, hm, heq⟩ := Option.map_eq_some_iff.mp hcall
    cases heq
    exact markFinished_inv hm
  · intro hphase hphase'
    cases a with
    | pollTask =>
      cases hcall
      have htable := h.finished_by_poll hphase'
      have hdone := hboard.all_done hphase'
      rw [htable] at hdone
      exact ⟨htable, hdone⟩
    | markFinished args =>
      obtain ⟨c₁, hm, heq⟩ := Option.map_eq_some_iff.mp hcall
      cases heq
      obtain rfl | ⟨task, -, rfl⟩ := markFinished_inv hm
      · exact absurd hphase' hphase
      · exact absurd hphase' hphase

/-! ## Any number of calls -/

/-- Nothing is left to do. -/
theorem call_of_allDone (h : Board files nReduce c handed st) (hphase : c.distPhase = .allDone)
    (hcall : c.call a = some (c', es)) :
    c' = c ∧ ∀ reply ∈ es, reply = { taskType := .exitTask } := by
  cases a with
  | pollTask =>
    cases hcall
    simp [Coordinator.pollTask, hphase]
  | markFinished args =>
    obtain ⟨c₁, hm, heq⟩ := Option.map_eq_some_iff.mp hcall
    cases heq
    obtain rfl | ⟨task, hworking, -⟩ := markFinished_inv hm
    · simp
    · have hdone := (h.all_done hphase).2 _ _ hworking
      cases hdone

/-- A coordinator that is done stays as it is. -/
theorem run_of_allDone (h : Board files nReduce c handed st) (hphase : c.distPhase = .allDone)
    (hrun : Run Coordinator.call always c es c') :
    c' = c ∧ ∀ reply ∈ es, reply = { taskType := .exitTask } := by
  induction hrun with
  | refl => simp
  | snoc _ _ hcall ih =>
    obtain ⟨rfl, hexit⟩ := ih
    obtain ⟨rfl, hlast⟩ := h.call_of_allDone hphase hcall
    exact ⟨rfl, List.forall_mem_append.mpr ⟨hexit, hlast⟩⟩

/-- After any calls there is a board, and what has been handed out is on it. -/
theorem of_run (hrun : Run Coordinator.call always (.makeCoordinator files nReduce) replies c) :
    ∃ handed st, Board files nReduce c handed st ∧
      (replies.filter fun reply => reply.taskType = .mapTask) =
        (files.mapIdx (mapTaskFor nReduce)).take handed := by
  induction hrun with
  | refl => exact ⟨0, _, make files nReduce, rfl⟩
  | snoc _ _ hcall ih =>
    obtain ⟨handed, st, hboard, hreplies⟩ := ih
    obtain ⟨handed', st', hmoved, hnext⟩ := hboard.call hcall
    exact ⟨handed', st', hnext, hmoved.handed_eq hreplies⟩

end Board

/-- The records of the coordinator agree after any calls, every further call is an orderly
one, a report of a map task is always taken, and `AllDone` is the end. -/
theorem coordinator_consistent (files : List FileName) (nReduce : Nat) {replies : List Task}
    {c : Coordinator}
    (hrun : Run Coordinator.call always (.makeCoordinator files nReduce) replies c) :
    Consistent files nReduce replies c ∧
      (∀ a c' es, c.call a = some (c', es) → Orderly c a c') ∧
      (∀ args, args.taskType = .mapTask → (c.call (.markFinished args)).isSome = true) ∧
      (c.distPhase = .allDone → c.pollTask = (c, { taskType := .exitTask }) ∧
        ∀ es c', Run Coordinator.call always c es c' →
          c' = c ∧ ∀ reply ∈ es, reply = { taskType := .exitTask }) := by
  obtain ⟨handed, st, hboard, hreplies⟩ := Board.of_run hrun
  refine ⟨hboard.consistent hreplies, ?_, ?_, ?_⟩
  · intro a c' es hcall
    exact hboard.orderly hcall
  · intro args htype
    rw [Coordinator.call, Option.isSome_map]
    exact markFinished_isSome htype
  · intro hphase
    refine ⟨by simp [Coordinator.pollTask, hphase], ?_⟩
    intro es c' hrest
    exact hboard.run_of_allDone hphase hrest

/-- One file. A task that does not exist is reported, then the one there is before it is
handed out, and after that twice. -/
def bogusReports : Coordinator × List Task :=
  reached Coordinator.call always (.makeCoordinator [['a']] 1)
    [.markFinished { taskId := 7 }, .markFinished { taskId := 0 }, .pollTask,
      .markFinished { taskId := 0 }, .markFinished { taskId := 0 }, .pollTask]

theorem coordinator_consistent_after_bogusReports :
    Run Coordinator.call always (.makeCoordinator [['a']] 1) bogusReports.2 bogusReports.1 ∧
      bogusReports.2 = [mapTaskFor 1 0 ['a'], { taskType := .waittingTask }] ∧
      Consistent [['a']] 1 bogusReports.2 bogusReports.1 ∧
      bogusReports.1.distPhase = .allDone ∧
      bogusReports.1.pollTask = (bogusReports.1, { taskType := .exitTask }) := by
  have hrun : Run Coordinator.call always (.makeCoordinator [['a']] 1) bogusReports.2
      bogusReports.1 := reached_run (by decide +kernel)
  have hphase : bogusReports.1.distPhase = .allDone := by decide +kernel
  obtain ⟨hconsistent, -, -, hend⟩ := coordinator_consistent [['a']] 1 hrun
  exact ⟨hrun, by decide +kernel, hconsistent, hphase, (hend hphase).1⟩

end RaftImplementation.Mr
