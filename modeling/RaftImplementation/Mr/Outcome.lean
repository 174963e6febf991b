import RaftImplementation.Mr.Workers

/-!
# How a job ends (`coordinator.go`, `worker.go`)

Every report is one of map task 0, and `toNextPhase` skips the reduce phase. In the runs of
the coordinator with its workers this means that no task but the first is ever marked as done,
that a job of two or more files never ends, and that no worker is ever given a reduce task.
-/

namespace RaftImplementation.Mr

open Library

variable {W : Type} {files : List FileName} {nReduce : Nat}

/-- A worker is at most at work on a map task. -/
def OnMapTask : Worker → Prop
  | .doing task => task.taskType = .mapTask
  | .reporting task => task.taskType = .mapTask
  | .polling => True
  | .stopped => True

/-- The system in any run: nothing but task 0 is done, and nothing is reduced. -/
structure FirstOnly (files : List FileName) (nReduce : Nat) (tr : List (Event W)) (s : System W)
    (handed : Nat) (st : Nat → State) : Prop where
  board : Board files nReduce s.coordinator handed st
  done : ∀ i, st i = .done → i = 0
  workers : ∀ w, OnMapTask (s.workers w)
  trace : ∀ w task, Event.reduced w task ∉ tr

namespace FirstOnly

variable {tr es : List (Event W)} {s : System W} {handed handed' : Nat} {st st' : Nat → State}

theorem start (files : List FileName) (nReduce : Nat) :
    FirstOnly (W := W) files nReduce [] (.start files nReduce) 0 fun _ => .waiting := by
  refine ⟨Board.make files nReduce, ?_, fun _ => trivial, by simp⟩
  intro i hdone
  cases hdone

theorem setCoordinator (h : FirstOnly files nReduce tr s handed st) {c : Coordinator}
    (hboard : Board files nReduce c handed' st') (hst : ∀ i, st' i = .done → st i = .done ∨ i = 0) :
    FirstOnly files nReduce tr { s with coordinator := c } handed' st' := by
  refine ⟨hboard, ?_, h.workers, h.trace⟩
  intro i hdone
  exact (hst i hdone).elim (h.done i) id

variable [DecidableEq W]

theorem setWorker (h : FirstOnly files nReduce tr s handed st) {w : W} {worker : Worker}
    (hw : OnMapTask worker) (hes : ∀ w task, Event.reduced w task ∉ es) :
    FirstOnly files nReduce (tr ++ es) (s.setWorker w worker) handed st := by
  refine ⟨h.board, h.done, ?_, ?_⟩
  · intro q
    by_cases hq : q = w
    · subst hq
      simpa [System.setWorker] using hw
    · simpa [System.setWorker, hq] using h.workers q
  · intro q task hmem
    exact (List.mem_append.mp hmem).elim (h.trace q task) (hes q task)

theorem poll (h : FirstOnly files nReduce tr s handed st) (w : W) :
    ∃ handed' st', FirstOnly files nReduce (tr ++ (s.poll w).2) (s.poll w).1 handed' st' := by
  cases h.board.pollTask with
  | inl hnext =>
    obtain ⟨v, hv, htask, hboard⟩ := hnext
    have hst : ∀ i, Function.update st handed .working i = .done → st i = .done ∨ i = 0 := by
      intro i hdone
      by_cases hi : i = handed
      · subst hi
        simp at hdone
      · rw [Function.update_of_ne hi] at hdone
        exact Or.inl hdone
    rw [System.poll_eq, htask]
    refine ⟨_, _, (h.setCoordinator hboard hst).setWorker ?_ ?_⟩
    · exact rfl
    · simp [mapTaskFor]
  | inr hnone =>
    obtain ⟨hboard, htask⟩ := hnone
    rw [System.poll_eq]
    refine ⟨_, _, (h.setCoordinator hboard fun _ hdone => Or.inl hdone).setWorker ?_ ?_⟩
    · rcases htask with hwait | hexit
      · rw [hwait]
        trivial
      · rw [hexit]
        trivial
    · rcases htask with hwait | hexit
      · simp [hwait]
      · simp [hexit]

/-- Whoever reports, it is task 0 that is marked. -/
theorem report (h : FirstOnly files nReduce tr s handed st) {w : W} {c : Coordinator}
    (hc : s.coordinator.markFinished callDoneArgs = some c) :
    ∃ st', FirstOnly files nReduce (tr ++ [])
      (({ s with coordinator := c } : System W).setWorker w .polling) handed st' := by
  cases h.board.markFinished hc with
  | inl hsame =>
    have hcoord := h.setCoordinator (hsame ▸ h.board) fun _ hdone => Or.inl hdone
    exact ⟨st, hcoord.setWorker trivial (by simp)⟩
  | inr hmarked =>
    obtain ⟨i, hi, -, hboard⟩ := hmarked
    have hzero : i = 0 := by
      have hid : (0 : Int) = i := hi
      omega
    subst hzero
    refine ⟨_, (h.setCoordinator hboard ?_).setWorker trivial (by simp)⟩
    intro i hdone
    by_cases hi : i = 0
    · exact Or.inr hi
    · rw [Function.update_of_ne hi] at hdone
      exact Or.inl hdone

theorem finish (h : FirstOnly files nReduce tr s handed st) {w : W} {task : Task}
    (hw : s.workers w = .doing task) :
    FirstOnly files nReduce (tr ++ (s.finish w task).2) (s.finish w task).1 handed st := by
  have hmap := h.workers w
  rw [hw] at hmap
  have htype : task.taskType = .mapTask := hmap
  exact h.setWorker hmap (by simp [System.finish, htype])

theorem step (h : FirstOnly files nReduce tr s handed st) {a : Action W}
    {r : System W × List (Event W)} (hstep : s.Takes a r) :
    ∃ handed' st', FirstOnly files nReduce (tr ++ r.2) r.1 handed' st' := by
  cases hstep with
  | poll _ => exact h.poll _
  | finish hw => exact ⟨_, _, h.finish hw⟩
  | report _ hc => exact ⟨_, h.report hc⟩
  | loseReport _ => exact ⟨_, _, h.setWorker trivial (by simp)⟩
  | crash => exact ⟨_, _, h.setWorker trivial (by simp)⟩

theorem run (h : Run System.step always (.start files nReduce) tr s) :
    ∃ handed st, FirstOnly files nReduce tr s handed st := by
  induction h with
  | refl => exact ⟨_, _, start files nReduce⟩
  | snoc _ _ hstep ih =>
    obtain ⟨handed, st, hfirst⟩ := ih
    exact hfirst.step (System.step_takes hstep)

end FirstOnly

/-! ## A job of one file -/

section OneFile

variable [DecidableEq W]

theorem System.workers_setWorker (s : System W) (w : W) (worker : Worker) :
    (s.setWorker w worker).workers w = worker := by
  simp [System.setWorker]

theorem System.step_poll {s : System W} {w : W} (hw : s.workers w = .polling) :
    s.step (.poll w) = some (s.poll w) := by
  rw [System.step, if_pos hw]

theorem System.step_finish {s : System W} {w : W} {task : Task} (hw : s.workers w = .doing task) :
    s.step (.finish w) = some (s.finish w task) := by
  simp only [System.step, hw]

theorem System.step_report {s : System W} {w : W} {task : Task} {c : Coordinator}
    (hw : s.workers w = .reporting task) (hc : s.coordinator.markFinished callDoneArgs = some c) :
    s.step (.report w) =
      some (({ s with coordinator := c } : System W).setWorker w .polling, []) := by
  simp only [System.step, hw, System.report, hc, Option.map_some]

/-- The calls of a worker that does the only task, as the coordinator sees them. -/
theorem one_task_calls (v : FileName) (nReduce : Nat) :
    ∃ c, (Coordinator.makeCoordinator [v] nReduce).pollTask.1.markFinished callDoneArgs = some c ∧
      c.pollTask.1.done = true :=
  ⟨_, rfl, rfl⟩

/-- One worker polls, maps the file, reports and polls again. -/
theorem one_file_done (w : W) (v : FileName) (nReduce : Nat) :
    ∃ tr s, Run System.step always (.start [v] nReduce : System W) tr s ∧
      s.coordinator.done = true := by
  obtain ⟨c, hc, hdone⟩ := one_task_calls v nReduce
  let s₀ : System W := .start [v] nReduce
  let s₁ := (s₀.poll w).1
  let s₂ := (s₁.finish w (mapTaskFor nReduce 0 v)).1
  have hpoll : Run System.step always s₀ (s₀.poll w).2 s₁ := .single trivial (System.step_poll rfl)
  have hfinish := hpoll.snoc trivial (System.step_finish (System.workers_setWorker _ w _))
  have hreport := hfinish.snoc trivial
    (System.step_report (s := s₂) (System.workers_setWorker _ w _) hc)
  have hend := hreport.snoc trivial (System.step_poll (System.workers_setWorker _ w _))
  exact ⟨_, _, hend, hdone⟩

/-- A job can end if and only if it has exactly one file: in no run with more of them, or
with none, does `Done` ever return true. -/
theorem job_ends_iff [Inhabited W] (files : List FileName) (nReduce : Nat) :
    (∃ tr s, Run System.step always (.start files nReduce : System W) tr s ∧
        s.coordinator.done = true) ↔ files.length = 1 := by
  constructor
  · rintro ⟨tr, s, hrun, hdone⟩
    obtain ⟨handed, st, hfirst⟩ := FirstOnly.run hrun
    obtain ⟨hne, hall⟩ := hfirst.board.finished (of_decide_eq_true hdone)
    have hpos := List.length_pos_iff.mpr hne
    -- the last task is done, so it is task 0
    have hlast := hfirst.done (files.length - 1) (hall _ (by omega))
    omega
  · intro hlen
    obtain ⟨v, rfl⟩ := List.length_eq_one_iff.mp hlen
    exact one_file_done default v nReduce

/-- No worker is ever given a reduce task, and so none writes an output file. -/
theorem nothing_reduced {files : List FileName} {nReduce : Nat} {tr : List (Event W)} {s : System W}
    (hrun : Run System.step always (.start files nReduce) tr s) :
    (∀ w task, Event.reduced w task ∉ tr) ∧ s.coordinator.distPhase ≠ .reducePhase ∧
      s.coordinator.pollTask.2.taskType ≠ .reduceTask := by
  obtain ⟨handed, st, hfirst⟩ := FirstOnly.run hrun
  refine ⟨hfirst.trace, hfirst.board.phase, ?_⟩
  rcases hfirst.board.pollTask with ⟨v, -, htask, -⟩ | ⟨-, hwait | hexit⟩
  · rw [htask]
    simp [mapTaskFor]
  · rw [hwait]
    simp
  · rw [hexit]
    simp

end OneFile

theorem nothing_reduced_oneFile :
    oneFile.1.coordinator.done = true ∧ (∀ w task, Event.reduced w task ∉ oneFile.2) ∧
      oneFile.1.coordinator.distPhase ≠ .reducePhase ∧
      oneFile.1.coordinator.pollTask.2.taskType ≠ .reduceTask :=
  ⟨by decide +kernel, nothing_reduced (run_oneFile.mono fun _ _ _ => trivial)⟩

end RaftImplementation.Mr
