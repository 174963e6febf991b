import Mathlib
import RaftImplementation.Kvsrv.Clerks
import RaftImplementation.Library.Recorded
import RaftImplementation.Porcupine.KvModel

/-!
# The check of the tests (`kvsrv/test_test.go`)

The tests record each operation of their clerks, with the time before it is called and the
time after it has returned, and in the end give the log to the checker. As the server is
linearizable, so is the log, and the checker never finds `Illegal`.
-/

namespace RaftImplementation.Kvsrv

open Library Porcupine

/-- What `Get`, `Put` and `Append` of the tests log as the input. -/
def Op.kvInput : Op → KvInput
  | .get key => ⟨0, key, ""⟩
  | .put key value => ⟨1, key, value⟩
  | .append key value => ⟨3, key, value⟩

/-- The output they log; that of `Put` is the zero value. -/
def kvOutput (result : Option String) : KvOutput := ⟨result.getD ""⟩

/-- How they log an operation: `Call` is read from the clock before it and `Return` after it. -/
def opLog : Recorder Op (Option String) KvOperation Int where
  fits x op result := x.input = op.kvInput ∧ x.output = kvOutput result
  call := Operation.call
  ret := Operation.ret

/-- The map of the server, as the store of the checker. -/
def SameStore (m : Map String String) (store : String → String) : Prop :=
  ∀ key, store key = (m.lookup key).getD ""

theorem SameStore.insert {m : Map String String} {store : String → String} (h : SameStore m store)
    (key value : String) : SameStore (m.insert key value) (Function.update store key value) := by
  intro key'
  by_cases hkey : key' = key
  · subst hkey
    rw [Function.update_self, Finmap.lookup_insert]
    rfl
  · rw [Function.update_of_ne hkey, Finmap.lookup_insert_of_ne _ hkey]
    exact h key'

/-- The store of the checker allows what the map answers. -/
theorem SameStore.step {m : Map String String} {store : String → String} (h : SameStore m store)
    {x : KvOperation} {op : Op} (hx : opLog.fits x op (mapSpec.apply m op).2) :
    ∃ store', kvStoreStep store x = some store' ∧ SameStore (mapSpec.apply m op).1 store' := by
  obtain ⟨hin, hout⟩ := hx
  cases op with
  | get key =>
    refine ⟨store, ?_, h⟩
    simp [kvStoreStep, onKey, Model.after, Operation.io, kvModel, kvStep, hin, hout, Op.kvInput, kvOutput,
      mapSpec, h key]
  | put key value =>
    refine ⟨_, ?_, h.insert key value⟩
    simp [kvStoreStep, onKey, Model.after, Operation.io, kvModel, kvStep, hin, Op.kvInput]
  | append key value =>
    refine ⟨_, ?_, h.insert key _⟩
    simp [kvStoreStep, onKey, Model.after, Operation.io, kvModel, kvStep, hin, hout, Op.kvInput, kvOutput,
      mapSpec, h key]

variable {P : Type} [DecidableEq P] {s : System P} {tr : List (ClerkEvent P)} {clock : Nat → Int}
variable {log : List KvOperation}

theorem kvLinearizable_of_run (hrun : Run System.step always .start tr s)
    (hrec : Recorded opLog clock tr log) (hclock : Monotone clock) : KvLinearizable log := by
  obtain ⟨L, st, hw, -⟩ := simulates_run hrun
  have hempty : SameStore mapSpec.initial fun _ => "" := fun _ => rfl
  exact hrec.exists_linearizes hclock hw.isLinearization.1 hempty fun _ _ _ _ h hx => h.step hx

omit [DecidableEq P] in
theorem call_le_ret (hrec : Recorded opLog clock tr log) (hclock : Monotone clock) :
    ∀ x ∈ log, x.call ≤ x.ret := by
  intro x hx
  obtain ⟨calls, -, -, hcalls⟩ := hrec
  obtain ⟨i, -, p, op, j, r, -, ⟨-, -, -, -, hij, -⟩, -, hcall, hret⟩ := exists_mem_of_forall₂ hcalls hx
  exact hcall.trans ((hclock hij.le).trans hret)

/-- The log of a run of the server in which every operation has returned is never found to be
illegal: the checker returns `Ok`, or it has no answer in time. -/
theorem kvsrv_never_illegal (hrun : Run System.step always .start tr s)
    (hrec : Recorded opLog clock tr log) (hclock : Monotone clock)
    {sort : List (Entry KvInput KvOutput) → List (Entry KvInput KvOutput)}
    (hsort : ∀ entries, SortsEntries entries (sort entries)) {verbose : Bool} {timeout : Int}
    {steps : List Unit} {s' : Parallel String}
    (hcheck : Run (checkOperations sort kvModel log verbose timeout).step always
      (checkOperations sort kvModel log verbose timeout).start steps s') :
    s'.main ≠ .panicked ∧ ∀ result info, s'.main = .returned result info →
      result = .ok ∨ result = .unknown ∧ 0 < timeout := by
  have hle := call_le_ret hrec hclock
  have hall := (kvLinearizable_iff hle).mp (kvLinearizable_of_run hrun hrec hclock)
  have hjudges := judges_operations hsort kvModel_equalFits (le_of_mem_kvPartition hle) verbose timeout
  obtain ⟨hpanic, hright⟩ := hjudges.right hcheck
  refine ⟨hpanic, fun result info hret => ?_⟩
  obtain ⟨-, hillegal, hunknown⟩ := hright result info hret
  cases result with
  | ok => exact .inl rfl
  | unknown => exact .inr ⟨rfl, hunknown rfl⟩
  | illegal =>
    obtain ⟨part, hpart, hnot⟩ := hillegal rfl
    exact absurd (hall part hpart) hnot

/-- The log of the run `appendRetried`. -/
def retriedLog : List KvOperation :=
  [⟨0, ⟨3, "x", "a"⟩, 0, ⟨""⟩, 2⟩, ⟨1, ⟨0, "x", ""⟩, 1, ⟨"a"⟩, 3⟩]

theorem recorded_retriedLog : Recorded opLog (fun i => (i : Int)) appendRetried.2 retriedLog := by
  have htr : appendRetried.2 = [.call 0 (.append "x" "a"), .call 1 (.get "x"), .ret 0 (some ""),
      .ret 1 (some "a")] := by decide +kernel
  rw [htr]
  refine ⟨[0, 1], by decide, ?_, .cons ?_ (.cons ?_ .nil)⟩
  · intro i p o hi
    match i, hi with
    | 0, _ => decide
    | 1, _ => decide
    | 2, hi => cases hi
    | 3, hi => cases hi
  · refine ⟨0, .append "x" "a", 2, some "", rfl, ⟨0, .append "x" "a", rfl, rfl, by decide, ?_⟩, ⟨rfl, rfl⟩,
      by decide, by decide⟩
    intro k e hk hk' he
    obtain rfl : k = 1 := by omega
    cases he
    decide
  · refine ⟨1, .get "x", 3, some "a", rfl, ⟨1, .get "x", rfl, rfl, by decide, ?_⟩, ⟨rfl, rfl⟩,
      by decide, by decide⟩
    intro k e hk hk' he
    obtain rfl : k = 2 := by omega
    cases he
    decide

def retriedCheck : ParallelCheck KvInput KvOutput String :=
  checkOperations sortEntries kvModel retriedLog true 1

def retriedCheckRun : Parallel String × List Unit :=
  reached retriedCheck.step always retriedCheck.start
    [.turn 0, .turn 0, .turn 0, .send 0, .receive, .finish]

theorem kvsrv_never_illegal_retried :
    retriedCheckRun.1.main = .returned .ok (some [[[0, 1]]]) ∧ retriedCheckRun.1.main ≠ .panicked := by
  have hrun : Run System.step always .start appendRetried.2 appendRetried.1 :=
    reached_run (by decide +kernel)
  have hcheck : Run retriedCheck.step always retriedCheck.start retriedCheckRun.2 retriedCheckRun.1 :=
    reached_run (by decide +kernel)
  have hclock : Monotone fun i : Nat => (i : Int) := fun _ _ h => Int.ofNat_le.mpr h
  exact ⟨by decide +kernel,
    (kvsrv_never_illegal hrun recorded_retriedLog hclock sortsEntries_sortEntries hcheck).1⟩

end RaftImplementation.Kvsrv
