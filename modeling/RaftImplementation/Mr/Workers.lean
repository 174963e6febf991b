import RaftImplementation.Library.Runs
import RaftImplementation.Mr.Coordinator

/-!
# Workers and the coordinator (`worker.go`)

One coordinator and any number of workers, each in the loop of `Worker`. A step is one
RPC handled by the coordinator, the return of `DoMapTask` or `DoReduceTask`, a report
that never arrives, or the end of a worker. A `PollTask` whose reply is lost ends the
worker too, since `GetTask` then returns the zero `Task` and `DoMapTask` panics on its
empty `FileSlice`: that is a poll followed by a crash.

`callDone` reports the zero `Task`, whatever the worker has done. So every report is one
of map task 0, and it is a true one only if the worker has just mapped that file.
-/

namespace RaftImplementation.Mr

open Library

/-- Where a worker stands in its loop. -/
inductive Worker where
  /-- It is about to call `GetTask`. -/
  | polling
  /-- It is in `DoMapTask` or `DoReduceTask`. -/
  | doing (task : Task)
  /-- It has returned from there and is about to call `callDone`. -/
  | reporting (task : Task)
  | stopped
  deriving DecidableEq, Repr

structure System (W : Type) where
  coordinator : Coordinator
  workers : W → Worker

inductive Action (W : Type) where
  | poll (w : W)
  | finish (w : W)
  | report (w : W)
  | loseReport (w : W)
  | crash (w : W)

inductive Event (W : Type) where
  | handed (w : W) (task : Task)
  /-- `w` returns from `DoMapTask`. -/
  | mapped (w : W) (task : Task)
  /-- `w` returns from `DoReduceTask`. -/
  | reduced (w : W) (task : Task)
  deriving DecidableEq, Repr

/-- The argument of `callDone`. -/
def callDoneArgs : Task := {}

namespace System

variable {W : Type}

def start (files : List FileName) (nReduce : Nat) : System W :=
  ⟨.makeCoordinator files nReduce, fun _ => .polling⟩

/-- The switch of `Worker` on the task it got. -/
def receive (task : Task) : Worker :=
  match task.taskType with
  | .mapTask => .doing task
  | .reduceTask => .doing task
  | .waittingTask => .polling
  | .exitTask => .stopped

variable [DecidableEq W]

def setWorker (s : System W) (w : W) (worker : Worker) : System W :=
  { s with workers := Function.update s.workers w worker }

def poll (s : System W) (w : W) : System W × List (Event W) :=
  let (c, task) := s.coordinator.pollTask
  let s : System W := { s with coordinator := c }
  (s.setWorker w (receive task), if task.taskType = .mapTask then [.handed w task] else [])

def finish (s : System W) (w : W) (task : Task) : System W × List (Event W) :=
  (s.setWorker w (.reporting task),
    [if task.taskType = .mapTask then .mapped w task else .reduced w task])

def report (s : System W) (w : W) : Option (System W × List (Event W)) :=
  (s.coordinator.markFinished callDoneArgs).map fun c =>
    (({ s with coordinator := c } : System W).setWorker w .polling, [])

def step (s : System W) : Action W → Option (System W × List (Event W))
  | .poll w => if s.workers w = .polling then some (s.poll w) else none
  | .finish w =>
    match s.workers w with
    | .doing task => some (s.finish w task)
    | _ => none
  | .report w =>
    match s.workers w with
    | .reporting _ => s.report w
    | _ => none
  | .loseReport w =>
    match s.workers w with
    | .reporting _ => some (s.setWorker w .polling, [])
    | _ => none
  | .crash w => some (s.setWorker w .stopped, [])

/-- If map task 0 is at work, the report is of it. `zero` is the state of task 0. -/
def OwnReport (zero : Option State) : Worker → Prop
  | .reporting task => zero = some .working → task.taskId = 0
  | _ => True

/-- A report that finds map task 0 at work comes from a worker that has just done it. -/
def ReportFits (s : System W) : Action W → Prop
  | .report w =>
    OwnReport ((s.coordinator.taskMetaHolder.lookup 0).map TaskMetaInfo.state) (s.workers w)
  | _ => True

/-- What each action does, and where its worker must be. -/
inductive Takes (s : System W) : Action W → System W × List (Event W) → Prop
  | poll {w : W} (hw : s.workers w = .polling) : Takes s (.poll w) (s.poll w)
  | finish {w : W} {task : Task} (hw : s.workers w = .doing task) :
      Takes s (.finish w) (s.finish w task)
  | report {w : W} {task : Task} {c : Coordinator} (hw : s.workers w = .reporting task)
      (hc : s.coordinator.markFinished callDoneArgs = some c) :
      Takes s (.report w) (({ s with coordinator := c } : System W).setWorker w .polling, [])
  | loseReport {w : W} {task : Task} (hw : s.workers w = .reporting task) :
      Takes s (.loseReport w) (s.setWorker w .polling, [])
  | crash {w : W} : Takes s (.crash w) (s.setWorker w .stopped, [])

theorem step_takes {s : System W} {a : Action W} {r : System W × List (Event W)}
    (hstep : s.step a = some r) : s.Takes a r := by
  cases a with
  | poll w =>
    simp only [step] at hstep
    split at hstep
    · rename_i hw
      cases hstep
      exact .poll hw
    · cases hstep
  | finish w =>
    simp only [step] at hstep
    split at hstep
    · rename_i hw
      cases hstep
      exact .finish hw
    · cases hstep
  | report w =>
    simp only [step] at hstep
    split at hstep
    · rename_i hw
      obtain ⟨c, hc, heq⟩ := Option.map_eq_some_iff.mp hstep
      cases heq
      exact .report hw hc
    · cases hstep
  | loseReport w =>
    simp only [step] at hstep
    split at hstep
    · rename_i hw
      cases hstep
      exact .loseReport hw
    · cases hstep
  | crash w =>
    cases hstep
    exact .crash

theorem poll_eq (s : System W) (w : W) :
    s.poll w = (({ s with coordinator := s.coordinator.pollTask.1 } : System W).setWorker w
        (receive s.coordinator.pollTask.2),
      if s.coordinator.pollTask.2.taskType = .mapTask
      then [.handed w s.coordinator.pollTask.2] else []) := rfl

end System

/-! ## What the trace says about the tasks -/

variable {W : Type} {files : List FileName} {nReduce : Nat}

/-- `w` was handed the task. -/
structure WasHanded (files : List FileName) (nReduce : Nat) (tr : List (Event W)) (w : W)
    (task : Task) : Prop where
  isTask : ∃ i v, files[i]? = some v ∧ task = mapTaskFor nReduce i v
  handed : Event.handed w task ∈ tr

/-- What a worker has done so far. -/
def Accounts (files : List FileName) (nReduce : Nat) (tr : List (Event W)) (w : W) :
    Worker → Prop
  | .doing task => WasHanded files nReduce tr w task
  | .reporting task => WasHanded files nReduce tr w task ∧ Event.mapped w task ∈ tr
  | .polling => True
  | .stopped => True

theorem WasHanded.mono {tr : List (Event W)} {w : W} {task : Task}
    (h : WasHanded files nReduce tr w task) (es : List (Event W)) :
    WasHanded files nReduce (tr ++ es) w task :=
  ⟨h.isTask, List.mem_append_left es h.handed⟩

theorem Accounts.mono {tr : List (Event W)} {w : W} {worker : Worker}
    (h : Accounts files nReduce tr w worker) (es : List (Event W)) :
    Accounts files nReduce (tr ++ es) w worker := by
  cases worker with
  | polling => trivial
  | doing task => exact WasHanded.mono h es
  | reporting task => exact ⟨h.1.mono es, List.mem_append_left es h.2⟩
  | stopped => trivial

/-- Some worker that was handed the task has done it. -/
def Mapped (tr : List (Event W)) (task : Task) : Prop :=
  ∃ w, Event.handed w task ∈ tr ∧ Event.mapped w task ∈ tr

theorem Mapped.mono {tr : List (Event W)} {task : Task} (h : Mapped tr task)
    (es : List (Event W)) : Mapped (tr ++ es) task := by
  obtain ⟨w, hh, hm⟩ := h
  exact ⟨w, List.mem_append_left es hh, List.mem_append_left es hm⟩

/-- The board is right about every task that it has as done. -/
structure Truthful (files : List FileName) (nReduce : Nat) (tr : List (Event W))
    (s : System W) (handed : Nat) (st : Nat → State) : Prop where
  board : Board files nReduce s.coordinator handed st
  workers : ∀ w, Accounts files nReduce tr w (s.workers w)
  done : ∀ i v, files[i]? = some v → st i = .done → Mapped tr (mapTaskFor nReduce i v)

namespace Truthful

variable {tr : List (Event W)} {s : System W} {handed : Nat} {st : Nat → State}

theorem start (files : List FileName) (nReduce : Nat) :
    Truthful (W := W) files nReduce [] (.start files nReduce) 0 fun _ => .waiting := by
  constructor
  · exact Board.make files nReduce
  · intro w
    trivial
  · intro i v _ hdone
    cases hdone

/-- A call that changes the coordinator and marks no task as done. -/
theorem setCoordinator (h : Truthful files nReduce tr s handed st) {c : Coordinator}
    {handed' : Nat} {st' : Nat → State} (hboard : Board files nReduce c handed' st')
    (hst : ∀ i, st' i = .done → st i = .done) :
    Truthful files nReduce tr { s with coordinator := c } handed' st' := by
  constructor
  · exact hboard
  · exact h.workers
  · intro i v hv hdone
    exact h.done i v hv (hst i hdone)

/-- A task that a worker has done is marked as done. -/
theorem mark (h : Truthful files nReduce tr s handed st) {c : Coordinator} {i : Nat} {v : FileName}
    (hboard : Board files nReduce c handed (Function.update st i .done))
    (hv : files[i]? = some v) (hm : Mapped tr (mapTaskFor nReduce i v)) :
    Truthful files nReduce tr { s with coordinator := c } handed (Function.update st i .done) := by
  refine ⟨hboard, h.workers, ?_⟩
  intro k u hu hdone
  by_cases hk : k = i
  · subst hk
    rw [hv, Option.some.injEq] at hu
    subst hu
    exact hm
  · rw [Function.update_of_ne hk] at hdone
    exact h.done k u hu hdone

variable [DecidableEq W]

/-- A step that moves one worker on. -/
theorem setWorker (h : Truthful files nReduce tr s handed st) {w : W} {worker : Worker}
    {es : List (Event W)} (hw : Accounts files nReduce (tr ++ es) w worker) :
    Truthful files nReduce (tr ++ es) (s.setWorker w worker) handed st := by
  constructor
  · exact h.board
  · intro q
    by_cases hq : q = w
    · subst hq
      simpa [System.setWorker] using hw
    · simpa [System.setWorker, hq] using (h.workers q).mono es
  · intro i v hv hdone
    exact (h.done i v hv hdone).mono es

theorem poll (h : Truthful files nReduce tr s handed st) (w : W) :
    ∃ handed' st', Truthful files nReduce (tr ++ (s.poll w).2) (s.poll w).1 handed' st' := by
  cases h.board.pollTask with
  | inl hnext =>
    obtain ⟨v, hv, htask, hboard⟩ := hnext
    have hst : ∀ i, Function.update st handed .working i = .done → st i = .done := by
      intro i hdone
      by_cases hi : i = handed
      · subst hi
        simp at hdone
      · rwa [Function.update_of_ne hi] at hdone
    rw [System.poll_eq, htask]
    refine ⟨_, _, (h.setCoordinator hboard hst).setWorker ?_⟩
    have hhanded : WasHanded files nReduce (tr ++ [.handed w (mapTaskFor nReduce handed v)]) w
        (mapTaskFor nReduce handed v) := ⟨⟨handed, v, hv, rfl⟩, by simp⟩
    exact hhanded
  | inr hnone =>
    obtain ⟨hboard, htask⟩ := hnone
    rw [System.poll_eq]
    refine ⟨_, _, (h.setCoordinator hboard fun _ hdone => hdone).setWorker ?_⟩
    cases htask with
    | inl hwait =>
      rw [hwait]
      trivial
    | inr hexit =>
      rw [hexit]
      trivial

theorem finish (h : Truthful files nReduce tr s handed st) {w : W} {task : Task}
    (hw : s.workers w = .doing task) :
    Truthful files nReduce (tr ++ (s.finish w task).2) (s.finish w task).1 handed st := by
  have hacc := h.workers w
  rw [hw] at hacc
  have hhanded : WasHanded files nReduce tr w task := hacc
  obtain ⟨i, v, hv, htask⟩ := hhanded.isTask
  have hmapped : Event.mapped w task ∈ tr ++ (s.finish w task).2 := by
    rw [System.finish, htask]
    simp [mapTaskFor]
  have hreporting : Accounts files nReduce (tr ++ (s.finish w task).2) w (.reporting task) :=
    ⟨hhanded.mono _, hmapped⟩
  exact h.setWorker hreporting

/-- A report of a worker that has just done task 0, or that finds it not at work. -/
theorem report (h : Truthful files nReduce tr s handed st) {w : W} {task : Task} {c : Coordinator}
    (hw : s.workers w = .reporting task) (hfits : s.ReportFits (.report w))
    (hc : s.coordinator.markFinished callDoneArgs = some c) :
    ∃ st', Truthful files nReduce (tr ++ [])
      (({ s with coordinator := c } : System W).setWorker w .polling) handed st' := by
  cases h.board.markFinished hc with
  | inl hsame =>
    have hcoord := h.setCoordinator (hsame ▸ h.board) fun _ hdone => hdone
    exact ⟨st, hcoord.setWorker trivial⟩
  | inr hmarked =>
    obtain ⟨i, hi, hworking, hboard⟩ := hmarked
    have hzero : i = 0 := by
      have hid : (0 : Int) = i := hi
      omega
    subst hzero
    have hacc := h.workers w
    rw [hw] at hacc
    obtain ⟨hhanded, hmapped⟩ : WasHanded files nReduce tr w task ∧ Event.mapped w task ∈ tr := hacc
    obtain ⟨j, v, hv, htask⟩ := hhanded.isTask
    -- there is a file 0, as there is a file `j`
    obtain ⟨hj, -⟩ := List.getElem?_eq_some_iff.mp hv
    have hstate := h.board.state_eq (Nat.zero_lt_of_lt hj)
    rw [hworking] at hstate
    simp only [System.ReportFits, System.OwnReport, hw] at hfits
    have hown : j = 0 := by
      have hid := hfits hstate
      rw [htask] at hid
      exact Int.ofNat_eq_zero.mp hid
    subst hown htask
    exact ⟨_, (h.mark hboard hv ⟨w, hhanded.handed, hmapped⟩).setWorker trivial⟩

theorem step (h : Truthful files nReduce tr s handed st) {a : Action W} (hok : s.ReportFits a)
    {r : System W × List (Event W)} (hstep : s.Takes a r) :
    ∃ handed' st', Truthful files nReduce (tr ++ r.2) r.1 handed' st' := by
  cases hstep with
  | poll _ => exact h.poll _
  | finish hw => exact ⟨_, _, h.finish hw⟩
  | report hw hc => exact ⟨_, h.report hw hok hc⟩
  | loseReport _ => exact ⟨_, _, h.setWorker trivial⟩
  | crash => exact ⟨_, _, h.setWorker trivial⟩

theorem run (h : Run System.step System.ReportFits (.start files nReduce) tr s) :
    ∃ handed st, Truthful files nReduce tr s handed st := by
  induction h with
  | refl => exact ⟨_, _, start files nReduce⟩
  | snoc _ hok hstep ih =>
    obtain ⟨handed, st, htruth⟩ := ih
    exact htruth.step hok (System.step_takes hstep)

end Truthful

/-- In every run in which a report that finds map task 0 at work comes from a worker that
has just done it: a task that is marked as done has been done by a worker that was handed
it, and when `Done` returns true every file has been mapped. -/
theorem done_only_after_mapped [DecidableEq W] (files : List FileName) (nReduce : Nat)
    {tr : List (Event W)} {s : System W}
    (h : Run System.step System.ReportFits (.start files nReduce) tr s) :
    (∀ id info, s.coordinator.taskMetaHolder.lookup id = some info → info.state = .done →
        Mapped tr info.taskAdr) ∧
      (s.coordinator.done = true → ∀ (i : Nat) (v : FileName), files[i]? = some v →
        Mapped tr { taskType := .mapTask, taskId := i, reducerNum := nReduce, fileSlice := [v] }) := by
  obtain ⟨handed, st, htruth⟩ := Truthful.run h
  constructor
  · intro id info hinfo hdone
    obtain ⟨i, v, -, hv, rfl⟩ := htruth.board.lookup_eq_some hinfo
    exact htruth.done i v hv hdone
  · intro hdone i v hv
    have hall := htruth.board.finished (of_decide_eq_true hdone)
    obtain ⟨hi, -⟩ := List.getElem?_eq_some_iff.mp hv
    exact htruth.done i v hv (hall.2 i hi)

instance (zero : Option State) : ∀ worker, Decidable (System.OwnReport zero worker)
  | .reporting task => inferInstanceAs (Decidable (zero = some .working → task.taskId = 0))
  | .polling | .doing _ | .stopped => isTrue trivial

instance [DecidableEq W] (s : System W) : ∀ a, Decidable (s.ReportFits a)
  | .report _ => inferInstanceAs (Decidable (System.OwnReport _ _))
  | .poll _ | .finish _ | .loseReport _ | .crash _ => isTrue trivial

/-- One file and two workers. Worker 1 polls in vain while worker 0 maps the file, and again
once worker 0 has reported. -/
def oneFile : System Nat × List (Event Nat) :=
  reached System.step System.ReportFits (.start [['a']] 1)
    [.poll 0, .poll 1, .finish 0, .report 0, .poll 1]

theorem run_oneFile : Run System.step System.ReportFits (.start [['a']] 1) oneFile.2 oneFile.1 :=
  reached_run (by decide +kernel)

/-- Two files and two workers. Worker 1 is through first, but it reports after worker 0. -/
def reportsInTurn : System Nat × List (Event Nat) :=
  reached System.step System.ReportFits (.start [['a'], ['b']] 1)
    [.poll 0, .poll 1, .finish 1, .finish 0, .report 0, .report 1]

/-- Both workers report map task 0, and it has been done by worker 0. -/
theorem done_only_after_mapped_of_one :
    (oneFile.1.coordinator.done = true ∧ Mapped oneFile.2 (mapTaskFor 1 0 ['a'])) ∧
      reportsInTurn.1.coordinator.taskMetaHolder.lookup 0 =
        some ⟨.done, mapTaskFor 1 0 ['a']⟩ ∧
      Mapped reportsInTurn.2 (mapTaskFor 1 0 ['a']) := by
  have hdone : oneFile.1.coordinator.done = true := by decide +kernel
  have hrun : Run System.step System.ReportFits (.start [['a'], ['b']] 1) reportsInTurn.2
      reportsInTurn.1 := reached_run (by decide +kernel)
  have hmarked : reportsInTurn.1.coordinator.taskMetaHolder.lookup 0 =
      some ⟨.done, mapTaskFor 1 0 ['a']⟩ := by decide +kernel
  exact ⟨⟨hdone, (done_only_after_mapped [['a']] 1 run_oneFile).2 hdone 0 ['a'] rfl⟩, hmarked,
    (done_only_after_mapped [['a'], ['b']] 1 hrun).1 0 _ hmarked rfl⟩

/-- Two files and two workers. Worker 0 is still mapping the first file when worker 1 is
through with the second and reports. -/
def twoFiles : System Nat × List (Event Nat) :=
  reached System.step always (.start [['a'], ['b']] 1)
    [.poll 0, .poll 1, .finish 1, .report 1]

theorem done_before_mapped :
    Run System.step always (.start [['a'], ['b']] 1) twoFiles.2 twoFiles.1 ∧
      twoFiles.1.coordinator.taskMetaHolder.lookup 0 = some ⟨.done, mapTaskFor 1 0 ['a']⟩ ∧
      twoFiles.1.workers 0 = .doing (mapTaskFor 1 0 ['a']) ∧
      ¬ Mapped twoFiles.2 (mapTaskFor 1 0 ['a']) := by
  have htrace : twoFiles.2 = [.handed 0 (mapTaskFor 1 0 ['a']), .handed 1 (mapTaskFor 1 1 ['b']),
      .mapped 1 (mapTaskFor 1 1 ['b'])] := by decide +kernel
  refine ⟨reached_run (by decide +kernel), by decide +kernel, by decide +kernel, ?_⟩
  rw [htrace]
  rintro ⟨w, -, hmapped⟩
  simp [mapTaskFor] at hmapped

end RaftImplementation.Mr
