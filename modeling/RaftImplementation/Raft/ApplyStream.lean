import RaftImplementation.Raft.ApplyOrder
import RaftImplementation.Raft.Durability

/-!
# The stream of commands that a service reads

A service reads `applyCh` sequentially: it calls `CondInstallSnapshot` on a snapshot
message before it reads on, and moves its position to the snapshot exactly when the
call returns true. Such a service is followed through the events of a run, and every
command it reads must be the one after its position.

The applier sends a batch without the lock, so a snapshot may be installed between two
sends of one batch; the rest of the batch then lies behind the service.
-/

namespace RaftImplementation

open Library Cluster Raft

variable {n : Nat} {C : Type}

/-! ## The service -/

/-- A service in one boot: its position, the snapshot message it has to answer, whether
it has kept to the protocol, and whether every command was the next one. -/
structure Service where
  position : Nat
  pending : Option SnapshotMsg
  sequential : Bool
  inOrder : Bool
  deriving DecidableEq, Repr

namespace Service

def booted (first : Nat) : Service := ⟨first, none, true, true⟩

def read (s : Service) : ApplyMsg C → Service
  | .command _ i _ =>
    { s with
      position := i
      sequential := s.sequential && s.pending.isNone
      inOrder := s.inOrder && i == s.position + 1 }
  | .snapshot m =>
    { s with pending := some m, sequential := s.sequential && s.pending.isNone }

def returned (s : Service) (m : SnapshotMsg) (result : Bool) : Service :=
  { s with
    position := if result then m.snapshotIndex else s.position
    pending := none
    sequential := s.sequential && s.pending == some m }

/-- The service of `p` after one more event of the run. -/
def observe (p : Fin n) (s : Service) : Event n C → Service
  | .received q _ m => if q = p then s.read m else s
  | .condInstalled q m result => if q = p then s.returned m result else s
  | .booted q _ first => if q = p then booted first else s
  | _ => s

end Service

/-- The service of `p` after the events `tr`; at the first boot the log begins at 0. -/
def service (p : Fin n) (tr : List (Event n C)) : Service :=
  tr.foldl (Service.observe p) (.booted 0)

/-- The entries of the batch under way that are not sent yet. -/
def Raft.unsent (rf : Raft n C) : List (LogEntry C) :=
  match rf.applier with
  | .waiting => []
  | .sending _ entries => entries

/-- A snapshot is installed between batches only, and a batch is copied from a log that
reaches `commitIndex`. -/
def StreamFits (c : Cluster n C) : Action n C → Prop
  | .condInstall p m => (c.raft p).commitIndex < m.snapshotIndex → (c.raft p).unsent = []
  | .copyBatch p _ => (c.raft p).commitIndex ≤ (c.raft p).getLastLog.index
  | _ => True

instance (c : Cluster n C) : ∀ a, Decidable (StreamFits c a)
  | .condInstall _ _ => inferInstanceAs (Decidable (_ → _ = []))
  | .copyBatch _ _ => inferInstanceAs (Decidable (_ ≤ _))
  | .fire _ | .tick _ | .elect _ | .start _ _ | .replicate _ _ | .deliver _ | .lose _
  | .snapshot _ _ _ | .sendEntry _ | .finishBatch _ | .sendSnapshot _ _ | .crash _ =>
    isTrue trivial

/-! ## What the events tell the service -/

variable {gob : Gob n C} {c c' : Cluster n C} {a : Action n C} {tr es : List (Event n C)}
variable {p q : Fin n}

/-- The event concerns no service. -/
def Event.silent : Event n C → Bool
  | .received _ _ _ | .condInstalled _ _ _ | .booted _ _ _ => false
  | _ => true

theorem service_append (p : Fin n) (tr es : List (Event n C)) :
    service p (tr ++ es) = es.foldl (Service.observe p) (service p tr) :=
  List.foldl_append

theorem Service.observe_silent {e : Event n C} (he : e.silent = true) (s : Service) :
    s.observe p e = s := by
  cases e <;> first | rfl | cases he

theorem service_silent (hes : ∀ e ∈ es, e.silent = true) (p : Fin n) :
    service p (tr ++ es) = service p tr := by
  rw [service_append]
  generalize service p tr = s
  induction es generalizing s with
  | nil => rfl
  | cons e es ih =>
    rw [List.foldl_cons, Service.observe_silent (hes e List.mem_cons_self)]
    exact ih (fun x hx => hes x (List.mem_cons_of_mem _ hx)) s

theorem service_received (p q : Fin n) (b : Nat) (m : ApplyMsg C) :
    service q (tr ++ [.received p b m]) =
      if p = q then (service q tr).read m else service q tr :=
  service_append q tr _

theorem service_condInstalled (p q : Fin n) (m : SnapshotMsg) (result : Bool) :
    service q (tr ++ [.condInstalled p m result]) =
      if p = q then (service q tr).returned m result else service q tr :=
  service_append q tr _

theorem service_booted (p q : Fin n) (b first : Nat) :
    service q (tr ++ [.booted p b first]) =
      if p = q then .booted first else service q tr :=
  service_append q tr _

/-! ## Position and batch -/

/-- A service that has kept to the protocol has read every command in order, the rest of
the batch is what comes next, and its position is where the applier will be after it. -/
def InStep (s : Service) (rf : Raft n C) : Prop :=
  s.sequential = true → s.inOrder = true ∧ Contiguous (s.position + 1) rf.unsent ∧
    rf.horizon = s.position + rf.unsent.length

namespace InStep

variable {s : Service} {rf rf' : Raft n C}

theorem congr (h : InStep s rf) (happ : rf'.applier = rf.applier)
    (hla : rf'.lastApplied = rf.lastApplied) : InStep s rf' := by
  intro hs
  have hu : rf'.unsent = rf.unsent := by
    unfold unsent
    rw [happ]
  rw [hu, horizon_congr happ hla]
  exact h hs

theorem booted (p : Fin n) (ps : Persister) (t : Nat) (v : Option (Fin n))
    (logs : List (LogEntry C)) :
    InStep (.booted (logs.headD .dummy).index) (Raft.fresh p ps t v logs) :=
  fun _ => ⟨rfl, trivial, rfl⟩

theorem copied (h : InStep s rf) (hw : rf.WellFormed) (hf : rf.getFirstLog.index ≤ rf.lastApplied)
    (happ : rf.applier = .waiting) (hlt : rf.lastApplied < rf.commitIndex)
    (hlast : rf.commitIndex ≤ rf.getLastLog.index) (spare : List (LogEntry C)) :
    InStep s (rf.sending rf.commitIndex (rf.batch spare)) := by
  intro hs
  obtain ⟨hord, _, hpos⟩ := h hs
  obtain ⟨hcont, hlen⟩ := batch_contiguous hw hf hlt hlast spare
  have hpos' : rf.lastApplied = s.position := by
    simpa [horizon, unsent, happ] using hpos
  refine ⟨hord, hpos' ▸ hcont, ?_⟩
  show max rf.lastApplied rf.commitIndex = s.position + (rf.batch spare).length
  omega

theorem sent (h : InStep s rf) {ci : Nat} {e : LogEntry C} {rest : List (LogEntry C)}
    (happ : rf.applier = .sending ci (e :: rest)) :
    InStep (s.read (.command e.command e.index e.term)) (rf.sending ci rest) := by
  intro hs
  obtain ⟨hs, _⟩ := Bool.and_eq_true_iff.mp hs
  obtain ⟨hord, hcont, hpos⟩ := h hs
  have hu : rf.unsent = e :: rest := by
    unfold unsent
    rw [happ]
  have hh : rf.horizon = (rf.sending ci rest).horizon := by
    unfold horizon
    rw [happ]
    rfl
  rw [hu] at hcont hpos
  obtain ⟨hidx, hcont⟩ := hcont
  refine ⟨?_, ?_, ?_⟩
  · simp [Service.read, hord, hidx]
  · show Contiguous (e.index + 1) rest
    rwa [hidx]
  · show _ = e.index + rest.length
    rw [← hh, hpos, List.length_cons, hidx]
    omega

theorem finished (h : InStep s rf) {ci : Nat} (happ : rf.applier = .sending ci []) :
    InStep s (rf.finishBatch ci) := by
  intro hs
  obtain ⟨hord, _, hpos⟩ := h hs
  refine ⟨hord, trivial, ?_⟩
  simpa [horizon, unsent, happ, finishBatch] using hpos

theorem offered (h : InStep s rf) (m : SnapshotMsg) :
    InStep (s.read (.snapshot m : ApplyMsg C)) rf := by
  intro hs
  exact h (Bool.and_eq_true_iff.mp hs).1

theorem refused (h : InStep s rf) (m : SnapshotMsg) : InStep (s.returned m false) rf := by
  intro hs
  exact h (Bool.and_eq_true_iff.mp hs).1

/-- A snapshot installed between two batches puts the service and the applier at its
index. -/
theorem installed (h : InStep s rf) {m : SnapshotMsg} {t : Nat} {ps : Persister}
    (hu : rf.unsent = []) (hh : (rf.installed t m.snapshotIndex ps).horizon = m.snapshotIndex) :
    InStep (s.returned m true) (rf.installed t m.snapshotIndex ps) := by
  intro hs
  obtain ⟨hord, _, _⟩ := h (Bool.and_eq_true_iff.mp hs).1
  have hu' : (rf.installed t m.snapshotIndex ps).unsent = [] := hu
  rw [hu', hh]
  exact ⟨hord, trivial, rfl⟩

end InStep

/-! ## Every move -/

/-- The service of `q` after `tr` is in step with the process it reads from. -/
def ServiceInStep (tr : List (Event n C)) (q : Fin n) (nd : Node n C) : Prop :=
  InStep (service q tr) nd.raft

theorem ServiceInStep.silent {nd : Node n C} (h : ServiceInStep tr q nd)
    (hes : ∀ e ∈ es, e.silent = true) : ServiceInStep (tr ++ es) q nd := by
  unfold ServiceInStep
  rw [service_silent hes]
  exact h

/-- A section of `p` that leaves the applier alone. -/
theorem inStep_silent (hes : ∀ e ∈ es, e.silent = true)
    (h : ∀ q, ServiceInStep tr q (c.nodes q)) {rpcs : List (Rpc n C)} {rf : Raft n C}
    (happ : rf.applier = (c.raft p).applier) (hla : rf.lastApplied = (c.raft p).lastApplied) :
    ∀ q, ServiceInStep (tr ++ es) q (((c.setRpcs rpcs).setRaft p rf).nodes q) :=
  setRaft_forall (fun _ _ hq => hq.silent hes) h
    (ServiceInStep.silent (InStep.congr (h p) happ hla) hes)

theorem inStep_moves (hc : Sound gob c) (ho : ∀ q, InOrder (c.nodes q))
    (h : ∀ q, ServiceInStep tr q (c.nodes q)) (hok : StreamFits c a)
    (hm : Moves gob c a c' es) : ∀ q, ServiceInStep (tr ++ es) q (c'.nodes q) := by
  have hnone : ∀ e ∈ ([] : List (Event n C)), e.silent = true := by simp
  cases hm with
  | timers p et tk => exact inStep_silent hnone h rfl rfl
  | lose k => exact fun q => (h q).silent hnone
  | reboot p rpcs hsub =>
    refine restarted_forall ?_ h ?_
    · intro q hq hstep
      rwa [ServiceInStep, service_booted, if_neg hq.symm]
    · rw [ServiceInStep, service_booted, if_pos rfl]
      exact InStep.booted p _ _ _ _
  | stand p et ps hps => exact inStep_silent (by simp [Event.silent]) h rfl rfl
  | started p command ps hs hps => exact inStep_silent (by simp [Event.silent]) h rfl rfl
  | asked p peer args hne ha => exact fun q => (h q).silent hnone
  | voteHandled k m args rf reply hm hb hh =>
    have hes : ∀ e ∈ (if reply.voteGranted then
        [Event.grant m.callee args.term args.candidateId (c.raft m.callee).getLastLog.term
          (c.raft m.callee).getLastLog.index] else [] : List (Event n C)), e.silent = true := by
      split <;> simp [Event.silent]
    cases hh with
    | refused => exact inStep_silent hes h rfl rfl
    | behind et ps ht hps => exact inStep_silent hes h rfl rfl
    | granted st et ps => exact inStep_silent hes h rfl rfl
  | appendHandled k m args rf reply hm hb hh =>
    cases hh with
    | stale ht => exact inStep_silent hnone h rfl rfl
    | refused v et ps reply => exact inStep_silent hnone h rfl rfl
    | accepted v et ps ht hv hf hprev hps => exact inStep_silent hnone h rfl rfl
  | snapshotHandled k m args rf hm hb hh =>
    cases hh with
    | stale ht => exact inStep_silent hnone h rfl rfl
    | ignored v et ps => exact inStep_silent hnone h rfl rfl
    | queued v et ps => exact inStep_silent hnone h rfl rfl
  | outrun k m t et ps => exact inStep_silent hnone h rfl rfl
  | counted k m args reply => exact inStep_silent (by simp [Event.silent]) h rfl rfl
  | won k m args reply et => exact inStep_silent (by simp [Event.silent]) h rfl rfl
  | backedOff k m args reply i => exact inStep_silent hnone h rfl rfl
  | matched k m args reply ci => exact inStep_silent hnone h rfl rfl
  | recorded k m args reply => exact inStep_silent hnone h rfl rfl
  | snapshotTaken p index data e ps => exact inStep_silent hnone h rfl rfl
  | outdated p m hrec hci =>
    intro q
    rw [ServiceInStep, service_condInstalled]
    split
    · exact InStep.refused (h q) m
    · exact h q
  | installed p m ps hrec hci hf hps =>
    refine setRaft_forall ?_ h ?_
    · intro q hq hstep
      rwa [ServiceInStep, service_condInstalled, if_neg hq.symm]
    · rw [ServiceInStep, service_condInstalled, if_pos rfl]
      exact InStep.installed (h p) (hok hci) ((ho p).horizon_installed hci ps)
  | copied p spare hw hlt hf hlen =>
    refine setRaft_forall (fun q _ hq => hq.silent hnone) h (ServiceInStep.silent ?_ hnone)
    exact InStep.copied (h p) (hc.wellFormed p) ((ho p).first_le_lastApplied hw) hw hlt hok spare
  | sentEntry p ci e rest happ =>
    refine handed_forall ?_ h ?_
    · intro q hq hstep
      rwa [ServiceInStep, service_received, if_neg hq.symm]
    · rw [ServiceInStep, service_received, if_pos rfl]
      exact InStep.sent (h p) happ
  | finished p ci happ =>
    refine setRaft_forall (fun q _ hq => hq.silent hnone) h (ServiceInStep.silent ?_ hnone)
    exact InStep.finished (h p) happ
  | sentSnapshot p k m hk =>
    refine handed_forall ?_ h ?_
    · intro q hq hstep
      rwa [ServiceInStep, service_received, if_neg hq.symm]
    · rw [ServiceInStep, service_received, if_pos rfl]
      exact InStep.offered (InStep.congr (h p) rfl rfl) m

/-- In every run that installs snapshots between batches only, every service that keeps to
the protocol reads its commands in order: each one is the one after its position. -/
theorem apply_stream_in_order (h : RunWhere gob StreamFits tr c) (p : Fin n)
    (hs : (service p tr).sequential = true) : (service p tr).inOrder = true := by
  have hboth : (∀ q, InOrder (c.nodes q)) ∧ ∀ q, ServiceInStep tr q (c.nodes q) := by
    refine h.invariant (fun tr c =>
      (∀ q, InOrder (c.nodes q)) ∧ ∀ q, ServiceInStep tr q (c.nodes q)) ?_ ?_
    · exact ⟨inOrder_init, fun q _ => ⟨rfl, trivial, rfl⟩⟩
    · rintro tr c a c' es hc ⟨ho, hin⟩ hok _ hm
      refine ⟨inOrder_moves hc ?_ ho hm, inStep_moves hc ho hin hok hm⟩
      rintro p spare rfl
      exact hok
  exact (hboth.2 p hs).1

/-- Peer 2 has sent the first of two entries when peer 0, the leader, commits a third one
and compacts its log; the snapshot reaches the service of peer 2. -/
def snapshotInBatch : List (Action 3 Nat) :=
  [Action.timeout 0, [.deliver 0, .deliver 0, .lose 0],
    [.start 0 (some 11), .start 0 (some 12), .replicate 0 1, .deliver 0, .deliver 0],
    [.replicate 0 2, .deliver 0, .deliver 0, .copyBatch 2 [], .sendEntry 2],
    [.start 0 (some 13), .replicate 0 1, .deliver 0, .deliver 0],
    [.copyBatch 0 [], .sendEntry 0, .sendEntry 0, .sendEntry 0, .finishBatch 0],
    [.snapshot 0 3 (some [3]), .replicate 0 2, .deliver 0]].flatten

/-- The rest of the batch is sent first; the next command is the one after the snapshot. -/
def installedAfterBatch : List (Action 3 Nat) :=
  snapshotInBatch ++ [.sendEntry 2, .sendSnapshot 2 0, .condInstall 2 ⟨some [3], 1, 3⟩,
    .finishBatch 2, .deliver 0, .start 0 (some 14), .replicate 0 2, .deliver 0, .deliver 0,
    .replicate 0 2, .deliver 0, .copyBatch 2 [], .sendEntry 2]

theorem apply_stream_in_order_of_three :
    (service 2 (ran (natGob 3) StreamFits installedAfterBatch).2).position = 4 ∧
      (service 2 (ran (natGob 3) StreamFits installedAfterBatch).2).inOrder = true := by
  have hrun : RunWhere (natGob 3) StreamFits (ran (natGob 3) StreamFits installedAfterBatch).2
      (ran (natGob 3) StreamFits installedAfterBatch).1 := reached_run (by decide +kernel)
  exact ⟨by decide +kernel, apply_stream_in_order hrun 2 (by decide +kernel)⟩

/-- The snapshot is installed first; the service then gets command 2 at position 3. -/
def installedInBatch : List (Action 3 Nat) :=
  snapshotInBatch ++ [.sendSnapshot 2 0, .condInstall 2 ⟨some [3], 1, 3⟩, .sendEntry 2]

theorem apply_stream_steps_back :
    ClusterRun (natGob 3) (ran (natGob 3) always installedInBatch).2
        (ran (natGob 3) always installedInBatch).1 ∧
      (service 2 (ran (natGob 3) always installedInBatch).2).sequential = true ∧
      (service 2 (ran (natGob 3) always installedInBatch).2).inOrder = false ∧
      (ran (natGob 3) always installedInBatch).2.drop 11 =
        [.received 2 0 (.snapshot ⟨some [3], 1, 3⟩), .condInstalled 2 ⟨some [3], 1, 3⟩ true,
          .received 2 0 (.command (some 12) 2 1)] :=
  ⟨reached_run (by decide +kernel), by decide +kernel, by decide +kernel, by decide +kernel⟩

end RaftImplementation
