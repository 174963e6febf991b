import RaftImplementation.Library.Maps

/-!
# The MapReduce coordinator (`coordinator.go`, `rpc.go`)

Every method of the coordinator runs under one global lock and is a function on its
state. A channel is the list of what is in it: it is made with room for all its tasks, so
no send blocks, and `PollTask` looks at its length before it receives. `makeMapTasks`
gives each task the one-element slice that holds its file (the text, `fileslice := []string`
followed by an assignment to `fileslice[0]`, does not compile, and this is how it is read).

`toNextPhase` goes from the map phase straight to the end, as the call of
`makeReduceTasks` is commented out. The second half of the module says what the three
records of a task (channel, state, phase) have to do with each other in any state that
calls can lead to.
-/

namespace RaftImplementation.Mr

open Library

/-- A file name, as the list of its characters. -/
abbrev FileName := List Char

inductive TaskType where
  | mapTask
  | reduceTask
  | waittingTask
  | exitTask
  deriving DecidableEq, Repr

inductive Phase where
  | mapPhase
  | reducePhase
  | allDone
  deriving DecidableEq, Repr

inductive State where
  | working
  | waiting
  | done
  deriving DecidableEq, Repr

/-- The defaults are the zero values. -/
structure Task where
  taskType : TaskType := .mapTask
  taskId : Int := 0
  reducerNum : Nat := 0
  fileSlice : List FileName := []
  deriving DecidableEq, Repr

/-- No task is changed after it is made, so the pointer is the task. -/
structure TaskMetaInfo where
  state : State
  taskAdr : Task
  deriving DecidableEq, Repr

abbrev TaskMetaHolder := Map Int TaskMetaInfo

structure Coordinator where
  reducerNum : Nat
  taskId : Int
  distPhase : Phase
  taskChannelReduce : List Task
  taskChannelMap : List Task
  taskMetaHolder : TaskMetaHolder
  files : List FileName

/-! ## The task table -/

namespace TaskMetaHolder

def acceptMeta (t : TaskMetaHolder) (taskInfo : TaskMetaInfo) : TaskMetaHolder × Bool :=
  match t.lookup taskInfo.taskAdr.taskId with
  | some _ => (t, false)
  | none => (t.insert taskInfo.taskAdr.taskId taskInfo, true)

/-- The new table, and whether the task was waiting. -/
def judgeState (t : TaskMetaHolder) (taskId : Int) : TaskMetaHolder × Bool :=
  match t.lookup taskId with
  | none => (t, false)
  | some taskInfo =>
    if taskInfo.state = .waiting then
      (t.insert taskId { taskInfo with state := .working }, true)
    else (t, false)

/-- A counter of `checkTaskDone`. -/
def count (t : TaskMetaHolder) (p : TaskMetaInfo → Bool) : Nat := t.entries.countP fun e => p e.2

def checkTaskDone (t : TaskMetaHolder) : Bool :=
  let mapDoneNum := t.count fun v => v.taskAdr.taskType = .mapTask ∧ v.state = .done
  let mapUnDoneNum := t.count fun v => v.taskAdr.taskType = .mapTask ∧ v.state ≠ .done
  let reduceDoneNum := t.count fun v => v.taskAdr.taskType = .reduceTask ∧ v.state = .done
  let reduceUnDoneNum := t.count fun v => v.taskAdr.taskType = .reduceTask ∧ v.state ≠ .done
  if (mapDoneNum > 0 ∧ mapUnDoneNum = 0) ∧ (reduceDoneNum = 0 ∧ reduceUnDoneNum = 0) then true
  else reduceDoneNum > 0 ∧ reduceUnDoneNum = 0

end TaskMetaHolder

/-! ## The methods -/

namespace Coordinator

def generateTaskId (c : Coordinator) : Int × Coordinator :=
  (c.taskId, { c with taskId := c.taskId + 1 })

/-- One turn of the loop of `makeMapTasks`. -/
def makeMapTask (c : Coordinator) (v : FileName) : Coordinator :=
  let (id, c) := c.generateTaskId
  let task : Task :=
    { taskType := .mapTask, taskId := id, reducerNum := c.reducerNum, fileSlice := [v] }
  { c with
    taskMetaHolder := (TaskMetaHolder.acceptMeta c.taskMetaHolder ⟨.waiting, task⟩).1
    taskChannelMap := c.taskChannelMap ++ [task] }

def makeMapTasks (c : Coordinator) (files : List FileName) : Coordinator :=
  files.foldl makeMapTask c

def makeCoordinator (files : List FileName) (nReduce : Nat) : Coordinator :=
  let c : Coordinator :=
    { reducerNum := nReduce
      taskId := 0
      distPhase := .mapPhase
      taskChannelReduce := []
      taskChannelMap := []
      taskMetaHolder := ∅
      files := files }
  c.makeMapTasks files

def toNextPhase (c : Coordinator) : Coordinator :=
  match c.distPhase with
  | .mapPhase => { c with distPhase := .allDone }
  | .reducePhase => { c with distPhase := .allDone }
  | .allDone => c

/-- What `PollTask` does when there is no task left to hand out. -/
def pollNone (c : Coordinator) : Coordinator × Task :=
  (if c.taskMetaHolder.checkTaskDone then c.toNextPhase else c, { taskType := .waittingTask })

/-- The new state and the reply. -/
def pollTask (c : Coordinator) : Coordinator × Task :=
  match c.distPhase with
  | .mapPhase =>
    match c.taskChannelMap with
    | task :: rest =>
      ({ c with
          taskChannelMap := rest
          taskMetaHolder := (TaskMetaHolder.judgeState c.taskMetaHolder task.taskId).1 }, task)
    | [] => c.pollNone
  | .reducePhase =>
    match c.taskChannelReduce with
    | task :: rest =>
      ({ c with
          taskChannelReduce := rest
          taskMetaHolder := (TaskMetaHolder.judgeState c.taskMetaHolder task.taskId).1 }, task)
    | [] => c.pollNone
  | .allDone => (c, { taskType := .exitTask })

/-- A panic for every type but `MapTask`. -/
def markFinished (c : Coordinator) (args : Task) : Option Coordinator :=
  match args.taskType with
  | .mapTask =>
    match c.taskMetaHolder.lookup args.taskId with
    | some info =>
      if info.state = .working then
        some { c with
          taskMetaHolder := c.taskMetaHolder.insert args.taskId { info with state := .done } }
      else some c
    | none => some c
  | _ => none

/-- `Done`. -/
def done (c : Coordinator) : Bool := c.distPhase = .allDone

end Coordinator

/-! ## The board

Tasks are made, and handed out, in the order of the files. So two things say what the
coordinator knows: how many tasks it has handed out, and the state of each task. -/

/-- The map task for file number `i`. -/
def mapTaskFor (nReduce i : Nat) (v : FileName) : Task :=
  { taskType := .mapTask, taskId := i, reducerNum := nReduce, fileSlice := [v] }

/-- Each task gets the number of its file as its id. -/
theorem taskIds_nodup (nReduce : Nat) (files : List FileName) :
    ((files.mapIdx (mapTaskFor nReduce)).map Task.taskId).Nodup := by
  have hids : (files.mapIdx (mapTaskFor nReduce)).map Task.taskId =
      (List.range files.length).map Int.ofNat := by
    apply List.ext_getElem?
    intro i
    by_cases hi : i < files.length
    · simp [hi, mapTaskFor]
    · simp [hi]
  rw [hids]
  exact List.nodup_range.map fun _ _ => Int.ofNat.inj

/-- `handed` tasks have been handed out, and task `i` is in state `st i`. -/
structure Board (files : List FileName) (nReduce : Nat) (c : Coordinator) (handed : Nat)
    (st : Nat → State) : Prop where
  table : ∀ i : Nat, c.taskMetaHolder.lookup (i : Int) =
    files[i]?.map fun v => ⟨st i, mapTaskFor nReduce i v⟩
  table_negSucc : ∀ k, c.taskMetaHolder.lookup (.negSucc k) = none
  channel : c.taskChannelMap = (files.mapIdx (mapTaskFor nReduce)).drop handed
  waiting : ∀ i, st i = .waiting ↔ handed ≤ i
  phase : c.distPhase ≠ .reducePhase
  finished : c.distPhase = .allDone → files ≠ [] ∧ ∀ i < files.length, st i = .done

variable {files : List FileName} {nReduce handed : Nat} {c : Coordinator} {st : Nat → State}

theorem lookup_acceptMeta {t : TaskMetaHolder} {info : TaskMetaInfo}
    (h : t.lookup info.taskAdr.taskId = none) (id : Int) :
    (t.acceptMeta info).1.lookup id =
      if id = info.taskAdr.taskId then some info else t.lookup id := by
  rw [TaskMetaHolder.acceptMeta, h]
  by_cases hid : id = info.taskAdr.taskId
  · subst hid
    simp
  · simp [hid]

theorem lookup_judgeState {t : TaskMetaHolder} {taskId : Int} {task : Task}
    (h : t.lookup taskId = some ⟨.waiting, task⟩) (id : Int) :
    (t.judgeState taskId).1.lookup id =
      if id = taskId then some ⟨.working, task⟩ else t.lookup id := by
  rw [TaskMetaHolder.judgeState, h]
  by_cases hid : id = taskId
  · subst hid
    simp
  · simp [hid]

/-- What `MarkFinished` did, if it did not panic. -/
theorem markFinished_inv {args : Task} {c' : Coordinator} (h : c.markFinished args = some c') :
    c' = c ∨ ∃ task, c.taskMetaHolder.lookup args.taskId = some ⟨.working, task⟩ ∧
      c' = { c with taskMetaHolder := c.taskMetaHolder.insert args.taskId ⟨.done, task⟩ } := by
  rw [Coordinator.markFinished] at h
  cases htype : args.taskType with
  | mapTask =>
    simp only [htype] at h
    cases hinfo : c.taskMetaHolder.lookup args.taskId with
    | none =>
      simp only [hinfo, Option.some.injEq] at h
      exact Or.inl h.symm
    | some info =>
      obtain ⟨state, task⟩ := info
      simp only [hinfo] at h
      by_cases hworking : state = .working
      · subst hworking
        rw [if_pos rfl, Option.some.injEq] at h
        exact Or.inr ⟨task, rfl, h.symm⟩
      · rw [if_neg hworking, Option.some.injEq] at h
        exact Or.inl h.symm
  | reduceTask => simp [htype] at h
  | waittingTask => simp [htype] at h
  | exitTask => simp [htype] at h

namespace Board

/-- One more file. -/
theorem makeMapTask (h : Board files nReduce c 0 fun _ => .waiting) (hid : c.taskId = files.length)
    (hn : c.reducerNum = nReduce) (hphase : c.distPhase = .mapPhase) (v : FileName) :
    Board (files ++ [v]) nReduce (c.makeMapTask v) 0 fun _ => .waiting := by
  have hfree : c.taskMetaHolder.lookup (files.length : Int) = none := by
    rw [h.table, List.getElem?_eq_none (Nat.le_refl _)]
    rfl
  have htask : c.makeMapTask v =
      { c with
        taskId := c.taskId + 1
        taskMetaHolder := (TaskMetaHolder.acceptMeta c.taskMetaHolder
          ⟨.waiting, mapTaskFor nReduce files.length v⟩).1
        taskChannelMap := c.taskChannelMap ++ [mapTaskFor nReduce files.length v] } := by
    rw [Coordinator.makeMapTask, Coordinator.generateTaskId, hid, ← hn]
    rfl
  rw [htask]
  constructor
  · intro i
    rw [lookup_acceptMeta hfree]
    by_cases hi : i = files.length
    · subst hi
      simp [mapTaskFor]
    · have hne : (i : Int) ≠ files.length := by omega
      simp only [mapTaskFor, if_neg hne, h.table]
      by_cases hlt : i < files.length
      · rw [List.getElem?_append_left hlt]
      · rw [List.getElem?_eq_none (by omega), List.getElem?_eq_none (by simp; omega)]
  · intro k
    rw [lookup_acceptMeta hfree, if_neg (by simp [mapTaskFor])]
    exact h.table_negSucc k
  · rw [h.channel]
    simp
  · simp
  · exact h.phase
  · intro hall
    exact absurd (hphase.symm.trans hall) (by decide)

/-- `makeMapTasks` on a coordinator without tasks. -/
theorem makeMapTasks (h : Board [] nReduce c 0 fun _ => .waiting) (hid : c.taskId = 0)
    (hn : c.reducerNum = nReduce) (hphase : c.distPhase = .mapPhase) (files : List FileName) :
    Board files nReduce (c.makeMapTasks files) 0 (fun _ => .waiting) ∧
      (c.makeMapTasks files).taskId = files.length ∧
      (c.makeMapTasks files).reducerNum = nReduce ∧
      (c.makeMapTasks files).distPhase = .mapPhase := by
  induction files using List.reverseRecOn with
  | nil => exact ⟨h, hid, hn, hphase⟩
  | append_singleton files v ih =>
    obtain ⟨hboard, hid, hn, hphase⟩ := ih
    have hsnoc : c.makeMapTasks (files ++ [v]) = (c.makeMapTasks files).makeMapTask v := by
      simp [Coordinator.makeMapTasks]
    rw [hsnoc]
    refine ⟨hboard.makeMapTask hid hn hphase v, ?_, hn, hphase⟩
    rw [List.length_append, List.length_singleton, Int.natCast_add, ← hid]
    rfl

theorem make (files : List FileName) (nReduce : Nat) :
    Board files nReduce (.makeCoordinator files nReduce) 0 fun _ => .waiting := by
  have hempty : Board [] nReduce ⟨nReduce, 0, .mapPhase, [], [], ∅, files⟩ 0
      fun _ => .waiting := by
    constructor
    · intro i
      rfl
    · intro k
      rfl
    · rfl
    · simp
    · simp
    · simp
  exact (hempty.makeMapTasks rfl rfl rfl files).1

/-- The task at the front of the channel is the next one. -/
theorem channel_cons (h : Board files nReduce c handed st) {task : Task} {rest : List Task}
    (hch : c.taskChannelMap = task :: rest) :
    ∃ v, files[handed]? = some v ∧ task = mapTaskFor nReduce handed v ∧
      rest = (files.mapIdx (mapTaskFor nReduce)).drop (handed + 1) := by
  rw [h.channel] at hch
  have hhead : (files.mapIdx (mapTaskFor nReduce))[handed]? = some task := by
    rw [← List.head?_drop, hch]
    rfl
  have htail : rest = (files.mapIdx (mapTaskFor nReduce)).drop (handed + 1) := by
    rw [← List.tail_drop, hch]
    rfl
  rw [List.getElem?_mapIdx, Option.map_eq_some_iff] at hhead
  obtain ⟨v, hv, rfl⟩ := hhead
  exact ⟨v, hv, rfl, htail⟩

theorem lookup_task (h : Board files nReduce c handed st) {i : Nat} {v : FileName}
    (hv : files[i]? = some v) :
    c.taskMetaHolder.lookup (i : Int) = some ⟨st i, mapTaskFor nReduce i v⟩ := by
  rw [h.table, hv]
  rfl

/-- The next task is handed out. -/
theorem hand (h : Board files nReduce c handed st) {v : FileName}
    (hv : files[handed]? = some v) (hphase : c.distPhase = .mapPhase) :
    Board files nReduce
      { c with
        taskChannelMap := (files.mapIdx (mapTaskFor nReduce)).drop (handed + 1)
        taskMetaHolder := (TaskMetaHolder.judgeState c.taskMetaHolder handed).1 }
      (handed + 1) (Function.update st handed .working) := by
  have hentry : c.taskMetaHolder.lookup (handed : Int) =
      some ⟨.waiting, mapTaskFor nReduce handed v⟩ := by
    rw [h.lookup_task hv, (h.waiting handed).mpr (Nat.le_refl _)]
  constructor
  · intro i
    rw [lookup_judgeState hentry]
    by_cases hi : i = handed
    · subst hi
      simp [hv]
    · rw [if_neg (by omega), h.table, Function.update_of_ne hi]
  · intro k
    rw [lookup_judgeState hentry, if_neg (by omega)]
    exact h.table_negSucc k
  · rfl
  · intro i
    by_cases hi : i = handed
    · subst hi
      simp
    · rw [Function.update_of_ne hi, h.waiting]
      omega
  · exact h.phase
  · intro hall
    exact absurd (hphase.symm.trans hall) (by decide)

/-- A working task is done. -/
theorem finish (h : Board files nReduce c handed st) {i : Nat} {v : FileName}
    (hv : files[i]? = some v) (hworking : st i = .working) :
    Board files nReduce
      { c with taskMetaHolder := c.taskMetaHolder.insert i ⟨.done, mapTaskFor nReduce i v⟩ }
      handed (Function.update st i .done) := by
  constructor
  · intro j
    by_cases hj : j = i
    · subst hj
      simp [hv]
    · rw [Finmap.lookup_insert_of_ne _ (by omega), h.table, Function.update_of_ne hj]
  · intro k
    rw [Finmap.lookup_insert_of_ne _ (by omega)]
    exact h.table_negSucc k
  · exact h.channel
  · intro j
    by_cases hj : j = i
    · subst hj
      have hnot := (h.waiting j).not.mp (by simp [hworking])
      simp [hnot]
    · rw [Function.update_of_ne hj, h.waiting]
  · exact h.phase
  · intro hall
    obtain ⟨hne, hdone⟩ := h.finished hall
    obtain ⟨hi, -⟩ := List.getElem?_eq_some_iff.mp hv
    exact absurd (hworking.symm.trans (hdone i hi)) (by decide)

theorem state_eq (h : Board files nReduce c handed st) {i : Nat} (hi : i < files.length) :
    (c.taskMetaHolder.lookup (i : Int)).map TaskMetaInfo.state = some (st i) := by
  rw [h.table, List.getElem?_eq_getElem hi]
  rfl

/-- Every entry of the table is one of the tasks. -/
theorem lookup_eq_some (h : Board files nReduce c handed st) {id : Int} {info : TaskMetaInfo}
    (hinfo : c.taskMetaHolder.lookup id = some info) :
    ∃ (i : Nat) (v : FileName), id = i ∧ files[i]? = some v ∧
      info = ⟨st i, mapTaskFor nReduce i v⟩ := by
  cases id with
  | ofNat i =>
    have htable := h.table i
    rw [show c.taskMetaHolder.lookup (i : Int) = _ from hinfo] at htable
    obtain ⟨v, hv, heq⟩ := Option.map_eq_some_iff.mp htable.symm
    exact ⟨i, v, rfl, hv, heq.symm⟩
  | negSucc k =>
    rw [h.table_negSucc] at hinfo
    cases hinfo

/-! ### The end of the map phase -/

theorem count_pos {t : TaskMetaHolder} {p : TaskMetaInfo → Bool} :
    0 < t.count p ↔ ∃ id info, t.lookup id = some info ∧ p info = true := by
  rw [TaskMetaHolder.count, Multiset.countP_pos]
  constructor
  · rintro ⟨⟨id, info⟩, hmem, hp⟩
    exact ⟨id, info, Finmap.mem_lookup_iff.mpr hmem, hp⟩
  · rintro ⟨id, info, hinfo, hp⟩
    exact ⟨⟨id, info⟩, Finmap.mem_lookup_iff.mp hinfo, hp⟩

/-- A counter over the tasks of the board. -/
theorem count_pos_iff (h : Board files nReduce c handed st) {p : TaskMetaInfo → Bool} :
    0 < c.taskMetaHolder.count p ↔
      ∃ i v, files[i]? = some v ∧ p ⟨st i, mapTaskFor nReduce i v⟩ = true := by
  rw [count_pos]
  constructor
  · rintro ⟨id, info, hinfo, hp⟩
    obtain ⟨i, v, rfl, hv, rfl⟩ := h.lookup_eq_some hinfo
    exact ⟨i, v, hv, hp⟩
  · rintro ⟨i, v, hv, hp⟩
    exact ⟨i, _, h.lookup_task hv, hp⟩

theorem count_eq_zero_iff (h : Board files nReduce c handed st) {p : TaskMetaInfo → Bool} :
    c.taskMetaHolder.count p = 0 ↔
      ∀ i v, files[i]? = some v → p ⟨st i, mapTaskFor nReduce i v⟩ = false := by
  rw [← Nat.le_zero, ← Nat.not_lt, h.count_pos_iff]
  simp

/-- `checkTaskDone` is true if there is a task and all tasks are done. -/
theorem checkTaskDone_iff (h : Board files nReduce c handed st) :
    c.taskMetaHolder.checkTaskDone = true ↔
      files ≠ [] ∧ ∀ i < files.length, st i = .done := by
  have hreduceDone : c.taskMetaHolder.count
      (fun v => v.taskAdr.taskType = .reduceTask ∧ v.state = .done) = 0 := by
    rw [h.count_eq_zero_iff]
    simp [mapTaskFor]
  have hreduceUnDone : c.taskMetaHolder.count
      (fun v => v.taskAdr.taskType = .reduceTask ∧ v.state ≠ .done) = 0 := by
    rw [h.count_eq_zero_iff]
    simp [mapTaskFor]
  have hmapUnDone : c.taskMetaHolder.count
      (fun v => v.taskAdr.taskType = .mapTask ∧ v.state ≠ .done) = 0 ↔
        ∀ i < files.length, st i = .done := by
    rw [h.count_eq_zero_iff]
    constructor
    · intro hall i hi
      simpa [mapTaskFor] using hall i files[i] (List.getElem?_eq_getElem hi)
    · intro hall i v hv
      obtain ⟨hi, -⟩ := List.getElem?_eq_some_iff.mp hv
      simp [hall i hi]
  have hmapDone : 0 < c.taskMetaHolder.count
      (fun v => v.taskAdr.taskType = .mapTask ∧ v.state = .done) ↔
        ∃ i < files.length, st i = .done := by
    rw [h.count_pos_iff]
    constructor
    · rintro ⟨i, v, hv, hdone⟩
      obtain ⟨hi, -⟩ := List.getElem?_eq_some_iff.mp hv
      exact ⟨i, hi, by simpa [mapTaskFor] using hdone⟩
    · rintro ⟨i, hi, hdone⟩
      exact ⟨i, files[i], List.getElem?_eq_getElem hi, by simp [mapTaskFor, hdone]⟩
  simp only [TaskMetaHolder.checkTaskDone, hreduceDone, hreduceUnDone, gt_iff_lt, hmapDone,
    hmapUnDone, Nat.lt_irrefl, decide_false, Bool.if_false_right, and_true, Bool.and_true,
    decide_eq_true_eq]
  constructor
  · rintro ⟨⟨i, hi, -⟩, hall⟩
    exact ⟨List.ne_nil_of_length_pos (Nat.zero_lt_of_lt hi), hall⟩
  · rintro ⟨hne, hall⟩
    have hpos := List.length_pos_iff.mpr hne
    exact ⟨⟨0, hpos, hall 0 hpos⟩, hall⟩

theorem pollNone (h : Board files nReduce c handed st) :
    Board files nReduce c.pollNone.1 handed st := by
  by_cases hcheck : c.taskMetaHolder.checkTaskDone = true
  · have hdone := h.checkTaskDone_iff.mp hcheck
    have hnext : c.pollNone.1 = { c with distPhase := .allDone } := by
      rw [Coordinator.pollNone, if_pos hcheck, Coordinator.toNextPhase]
      cases hphase : c.distPhase with
      | mapPhase => rfl
      | reducePhase => rfl
      | allDone => simp [← hphase]
    rw [hnext]
    exact ⟨h.table, h.table_negSucc, h.channel, h.waiting, by simp, fun _ => hdone⟩
  · have hsame : c.pollNone.1 = c := by rw [Coordinator.pollNone, if_neg hcheck]
    rw [hsame]
    exact h

/-- `PollTask` hands out the next task, or none and then only the phase may change. -/
theorem pollTask (h : Board files nReduce c handed st) :
    (∃ v, files[handed]? = some v ∧ c.pollTask.2 = mapTaskFor nReduce handed v ∧
        Board files nReduce c.pollTask.1 (handed + 1) (Function.update st handed .working)) ∨
      (Board files nReduce c.pollTask.1 handed st ∧
        (c.pollTask.2 = { taskType := .waittingTask } ∨
          c.pollTask.2 = { taskType := .exitTask })) := by
  cases hphase : c.distPhase with
  | mapPhase =>
    cases hch : c.taskChannelMap with
    | nil =>
      have hpoll : c.pollTask = c.pollNone := by simp [Coordinator.pollTask, hphase, hch]
      rw [hpoll]
      exact Or.inr ⟨h.pollNone, Or.inl rfl⟩
    | cons task rest =>
      obtain ⟨v, hv, rfl, rfl⟩ := h.channel_cons hch
      have hnext := h.hand hv hphase
      left
      simp only [Coordinator.pollTask, hphase, hch] at hnext ⊢
      exact ⟨v, hv, rfl, hnext⟩
  | reducePhase => exact absurd hphase h.phase
  | allDone =>
    have hpoll : c.pollTask = (c, { taskType := .exitTask }) := by
      simp [Coordinator.pollTask, hphase]
    rw [hpoll]
    exact Or.inr ⟨h, Or.inr rfl⟩

/-- `MarkFinished` changes at most the task that it names, and only if it is working. -/
theorem markFinished (h : Board files nReduce c handed st) {args : Task} {c' : Coordinator}
    (hm : c.markFinished args = some c') :
    c' = c ∨ ∃ i : Nat, args.taskId = i ∧ st i = .working ∧
      Board files nReduce c' handed (Function.update st i .done) := by
  obtain hsame | ⟨task, hinfo, rfl⟩ := markFinished_inv hm
  · exact Or.inl hsame
  · obtain ⟨i, v, hid, hv, heq⟩ := h.lookup_eq_some hinfo
    obtain ⟨hworking, rfl⟩ := TaskMetaInfo.mk.inj heq
    rw [hid]
    exact Or.inr ⟨i, rfl, hworking.symm, h.finish hv hworking.symm⟩

end Board

end RaftImplementation.Mr
