import RaftImplementation.Raft.ApplyStream
import RaftImplementation.Raft.Gradient
import RaftImplementation.Raft.Safety
import RaftImplementation.Raft.Snapshots

/-!
# Whether the replicas agree on the model

The gradient manager is built anew by `Make` and fed by the applier, so it has seen the
commands that this boot has applied. They are the commands from index 1 on only if the
boot began with an uncompacted log and no snapshot was installed since: both a restart
from a compacted log and an accepted `CondInstallSnapshot` move `lastApplied` past
entries that the manager never gets.
-/

namespace RaftImplementation

open Library Cluster Raft

variable {n : Nat} {C : Type}

/-- The commands that the applier has handed out in this boot. -/
def Node.commands (nd : Node n C) : List (LogEntry C) :=
  nd.received.filterMap fun
    | .command command index term => some ⟨command, term, index⟩
    | .snapshot _ => none

/-- The applier is done with the entries up to `k` and has begun no further batch. -/
def Node.AppliedThrough (nd : Node n C) (k : Nat) : Prop :=
  nd.raft.applier = .waiting ∧ nd.raft.lastApplied = k

/-- The gradient manager of a peer whose applier is between two batches. `asGradient` is
the type assertion with which the applier recognises a gradient. -/
def Node.gradientManager {F : Type} [Zero F] [Add F] [Sub F] [Mul F] [Div F] [NatCast F]
    (asGradient : C → Option (GradientLog F)) (learningRate : F) (nd : Node n C) :
    Option (GradientManager F) :=
  (newGradientManager learningRate).handleAll
    (nd.commands.filterMap fun entry => entry.command.bind asGradient)

/-! ## What a move does to an applier -/

/-- Machine `q`, from `old` to `nd`. -/
inductive ApplierStep (a : Action n C) (q : Fin n) (old nd : Node n C) : Prop
  | still (happ : nd.raft.applier = old.raft.applier)
      (hla : nd.raft.lastApplied = old.raft.lastApplied)
      (hcmd : nd.commands = old.commands)
  | booted (hboot : nd.boot ≠ old.boot) (happ : nd.raft.applier = .waiting)
      (hla : nd.raft.lastApplied = old.raft.getFirstLog.index) (hcmd : nd.commands = [])
  | installed (m : SnapshotMsg) (ha : a = .condInstall q m)
      (hci : old.raft.commitIndex < m.snapshotIndex)
  | copied (spare : List (LogEntry C)) (hw : old.raft.applier = .waiting)
      (hlt : old.raft.lastApplied < old.raft.commitIndex)
      (happ : nd.raft.applier = .sending old.raft.commitIndex (old.raft.batch spare))
      (hla : nd.raft.lastApplied = old.raft.lastApplied)
      (hcmd : nd.commands = old.commands)
  | sent (ci : Nat) (e : LogEntry C) (rest : List (LogEntry C))
      (hs : old.raft.applier = .sending ci (e :: rest))
      (happ : nd.raft.applier = .sending ci rest)
      (hla : nd.raft.lastApplied = old.raft.lastApplied)
      (hcmd : nd.commands = old.commands ++ [e])
  | finished (ci : Nat) (hs : old.raft.applier = .sending ci [])
      (happ : nd.raft.applier = .waiting)
      (hla : nd.raft.lastApplied = max old.raft.lastApplied ci)
      (hcmd : nd.commands = old.commands)

variable {gob : Gob n C} {c c' : Cluster n C} {a : Action n C} {tr es : List (Event n C)}

theorem ApplierStep.refl (c : Cluster n C) (a : Action n C) (q : Fin n) :
    ApplierStep a q (c.nodes q) (c.nodes q) := .still rfl rfl rfl

theorem applierStep_setRaft {p : Fin n} {rf : Raft n C} {rpcs : List (Rpc n C)}
    (h : ApplierStep a p (c.nodes p) ⟨rf, (c.nodes p).boot, (c.nodes p).received⟩) :
    ∀ q, ApplierStep a q (c.nodes q) (((c.setRpcs rpcs).setRaft p rf).nodes q) := by
  exact setRaft_forall (fun _ _ hq => hq) (ApplierStep.refl c a) h

/-- Sections that leave the applier alone. -/
theorem applierStep_still {p : Fin n} {rf : Raft n C} {rpcs : List (Rpc n C)}
    (happ : rf.applier = (c.raft p).applier) (hla : rf.lastApplied = (c.raft p).lastApplied) :
    ∀ q, ApplierStep a q (c.nodes q) (((c.setRpcs rpcs).setRaft p rf).nodes q) :=
  applierStep_setRaft (.still happ hla rfl)

theorem moves_applier (h : Moves gob c a c' es) : ∀ q, ApplierStep a q (c.nodes q) (c'.nodes q) := by
  cases h with
  | reboot p rpcs =>
    apply restarted_forall (fun _ _ hq => hq) (ApplierStep.refl c a)
    exact .booted (by simp) rfl rfl rfl
  | installed p m ps hrec hci => exact applierStep_setRaft (.installed m rfl hci)
  | copied p spare hw hlt => exact applierStep_setRaft (.copied spare hw hlt rfl rfl rfl)
  | sentEntry p ci e rest happ =>
    apply handed_forall (fun _ _ hq => hq) (ApplierStep.refl c _)
    exact .sent ci e rest happ rfl rfl (by simp [Node.commands])
  | finished p ci happ => exact applierStep_setRaft (.finished ci happ rfl rfl rfl)
  | sentSnapshot p k m =>
    apply handed_forall (fun _ _ hq => hq) (ApplierStep.refl c _)
    exact .still rfl rfl (by simp [Node.commands])
  | voteHandled k m args rf reply hm hb hh =>
    cases hh with
    | refused => exact applierStep_still rfl rfl
    | behind et ps => exact applierStep_still rfl rfl
    | granted st et ps => exact applierStep_still rfl rfl
  | appendHandled k m args rf reply hm hb hh =>
    cases hh with
    | stale => exact applierStep_still rfl rfl
    | refused v et ps => exact applierStep_still rfl rfl
    | accepted v et ps => exact applierStep_still rfl rfl
  | snapshotHandled k m args rf hm hb hh =>
    cases hh with
    | stale => exact applierStep_still rfl rfl
    | ignored v et ps => exact applierStep_still rfl rfl
    | queued v et ps => exact applierStep_still rfl rfl
  | lose k => exact ApplierStep.refl c a
  | asked p peer args => exact ApplierStep.refl c _
  | outdated p m => exact ApplierStep.refl c _
  | _ => exact applierStep_still rfl rfl

/-! ## Replaying from the first entry -/

/-- The commands of this boot and the rest of the batch are the entries from index 1 on,
and the applier will have reached the last of them. -/
structure Replays (nd : Node n C) : Prop where
  contiguous : Contiguous 1 (nd.commands ++ nd.raft.unsent)
  reach : nd.raft.horizon = nd.commands.length + nd.raft.unsent.length

/-- No snapshot is installed. -/
def InstallsNothing (c : Cluster n C) : Action n C → Prop
  | .condInstall p m => m.snapshotIndex ≤ (c.raft p).commitIndex
  | _ => True

/-- A peer that the step restarts has an uncompacted log. -/
def RestartsUncompacted (gob : Gob n C) (c : Cluster n C) (a : Action n C) : Prop :=
  match c.step gob a with
  | none => True
  | some (c', _) =>
    ∀ p, (c'.nodes p).boot = (c.nodes p).boot ∨ (c.raft p).getFirstLog.index = 0

/-- No `matchIndex` of a new leader is beyond its log, no snapshot is installed, and no
peer restarts with a compacted log. -/
def ReplayFits (gob : Gob n C) (c : Cluster n C) (a : Action n C) : Prop :=
  MatchIndexFits c a ∧ InstallsNothing c a ∧ RestartsUncompacted gob c a

instance (c : Cluster n C) : ∀ a, Decidable (InstallsNothing c a)
  | .condInstall _ _ => inferInstanceAs (Decidable (_ ≤ _))
  | .fire _ | .tick _ | .elect _ | .start _ _ | .replicate _ _ | .deliver _ | .lose _
  | .snapshot _ _ _ | .copyBatch _ _ | .sendEntry _ | .finishBatch _ | .sendSnapshot _ _
  | .crash _ => isTrue trivial

instance (gob : Gob n C) (c : Cluster n C) (a : Action n C) :
    Decidable (RestartsUncompacted gob c a) :=
  match h : c.step gob a with
  | none => isTrue (by simp only [RestartsUncompacted, h])
  | some (c', _) => decidable_of_iff
      (∀ p, (c'.nodes p).boot = (c.nodes p).boot ∨ (c.raft p).getFirstLog.index = 0)
      (by simp only [RestartsUncompacted, h])

instance (gob : Gob n C) (c : Cluster n C) (a : Action n C) : Decidable (ReplayFits gob c a) :=
  inferInstanceAs (Decidable (_ ∧ _))

theorem Replays.copied {nd₀ nd : Node n C} (h : Replays nd₀) (hw : nd₀.raft.WellFormed)
    (hf : nd₀.raft.getFirstLog.index ≤ nd₀.raft.lastApplied)
    (hlast : nd₀.raft.commitIndex ≤ nd₀.raft.getLastLog.index)
    {spare : List (LogEntry C)} (hwait : nd₀.raft.applier = .waiting)
    (hlt : nd₀.raft.lastApplied < nd₀.raft.commitIndex)
    (happ : nd.raft.applier = .sending nd₀.raft.commitIndex (nd₀.raft.batch spare))
    (hla : nd.raft.lastApplied = nd₀.raft.lastApplied)
    (hcmd : nd.commands = nd₀.commands) : Replays nd := by
  obtain ⟨hcont, hlen⟩ := batch_contiguous hw hf hlt hlast spare
  have hpos : nd₀.raft.lastApplied = nd₀.commands.length := by
    simpa [horizon, unsent, hwait] using h.reach
  have hold : Contiguous 1 nd₀.commands := by
    simpa [unsent, hwait] using h.contiguous
  constructor
  · rw [unsent, happ, hcmd, contiguous_append, Nat.add_comm, ← hpos]
    exact ⟨hold, hcont⟩
  · simp only [horizon, unsent, happ, hcmd, hla]
    omega

theorem replays_step (hc : Sound gob c) (ho : ∀ q, InOrder (c.nodes q)) (hlog : c.CommitsInLog)
    (hok : ReplayFits gob c a) (h : ∀ q, Replays (c.nodes q))
    (hstep : c.step gob a = some (c', es)) (q : Fin n) : Replays (c'.nodes q) := by
  cases moves_applier (step_moves hc hstep) q with
  | still happ hla hcmd =>
    constructor
    · rw [unsent, happ, hcmd]
      exact (h q).contiguous
    · rw [horizon_congr happ hla, unsent, happ, hcmd]
      exact (h q).reach
  | booted hboot happ hla hcmd =>
    have hfirst : (c.raft q).getFirstLog.index = 0 := by
      have hrestarts := hok.2.2
      simp only [RestartsUncompacted, hstep] at hrestarts
      cases hrestarts q with
      | inl hsame => exact absurd hsame hboot
      | inr hzero => exact hzero
    constructor
    · rw [unsent, happ, hcmd]
      trivial
    · rw [horizon, unsent, happ, hcmd, hla, hfirst]
      rfl
  | installed m ha hci =>
    have hnothing := hok.2.1
    rw [ha] at hnothing
    exact absurd hnothing (Nat.not_le_of_lt hci)
  | copied spare hw hlt happ hla hcmd =>
    exact (h q).copied (hc.wellFormed q) ((ho q).first_le_lastApplied hw) (hlog q) hw hlt happ
      hla hcmd
  | sent ci e rest hs happ hla hcmd =>
    have hcont := (h q).contiguous
    have hhor := (h q).reach
    simp only [unsent, horizon, hs] at hcont hhor
    constructor
    · rw [unsent, happ, hcmd, List.append_assoc]
      exact hcont
    · rw [unsent, horizon, happ, hcmd, hla, List.length_append]
      simp only [List.length_cons, List.length_nil] at hhor ⊢
      omega
  | finished ci hs happ hla hcmd =>
    have hcont := (h q).contiguous
    have hhor := (h q).reach
    simp only [unsent, horizon, hs] at hcont hhor
    constructor
    · rw [unsent, happ, hcmd]
      exact hcont
    · rw [unsent, horizon, happ, hcmd, hla]
      exact hhor

theorem replays_run (h : RunWhere gob (ReplayFits gob) tr c) (q : Fin n) :
    Replays (c.nodes q) := by
  induction h generalizing q with
  | refl => exact ⟨trivial, rfl⟩
  | snoc h hok hstep ih =>
    obtain ⟨A, S, hr⟩ := refines_run False (fun _ _ hok => hok.1) (fun _ _ _ => False.elim) h
    exact replays_step (sound_run h) hr.order hr.commitsInLog hok ih hstep q

/-- Every command that a service has received in its boot is in the trace. -/
theorem received_run {ok : Cluster n C → Action n C → Prop} (h : RunWhere gob ok tr c)
    {q : Fin n} {x : ApplyMsg C} (hx : x ∈ (c.nodes q).received) :
    ∃ b, Event.received q b x ∈ tr := by
  induction h with
  | refl => simp [init] at hx
  | snoc h hok hstep ih =>
    cases moves_received (step_moves (sound_run h) hstep) hx with
    | inl hold =>
      obtain ⟨b, hb⟩ := ih hold
      exact ⟨b, List.mem_append_left _ hb⟩
    | inr hnew =>
      obtain ⟨b, hb⟩ := hnew
      exact ⟨b, List.mem_append_right _ hb⟩

theorem mem_commands {nd : Node n C} {e : LogEntry C} (h : e ∈ nd.commands) :
    .command e.command e.index e.term ∈ nd.received := by
  unfold Node.commands at h
  obtain ⟨x, hx, he⟩ := List.mem_filterMap.mp h
  cases x with
  | command command index term =>
    cases he
    exact hx
  | snapshot m => simp at he

/-- Two appliers that are done with the same entries have handed out the same commands. -/
theorem commands_eq (h : RunWhere gob (ReplayFits gob) tr c) {p q : Fin n} {k : Nat}
    (hp : (c.nodes p).AppliedThrough k) (hq : (c.nodes q).AppliedThrough k) :
    (c.nodes p).commands = (c.nodes q).commands := by
  obtain ⟨A, S, hr⟩ := refines_run False (fun _ _ hok => hok.1) (fun _ _ _ => False.elim) h
  have hreplays : ∀ r, (c.nodes r).AppliedThrough k →
      Contiguous 1 (c.nodes r).commands ∧ (c.nodes r).commands.length = k := by
    rintro r ⟨hwait, hla⟩
    have hrep := replays_run h r
    constructor
    · simpa [unsent, hwait] using hrep.contiguous
    · simpa [unsent, horizon, hwait, hla] using hrep.reach.symm
  have hdecided : ∀ r, ∀ e ∈ (c.nodes r).commands, DecidedEntry A e := by
    intro r e he
    obtain ⟨b, hb⟩ := received_run h (mem_commands he)
    exact hr.applied r b e.command e.index e.term hb
  obtain ⟨hcp, hlp⟩ := hreplays p hp
  obtain ⟨hcq, hlq⟩ := hreplays q hq
  apply List.ext_getElem (hlp.trans hlq.symm)
  intro i hi hi'
  have hget := hcp.get (List.getElem?_eq_getElem hi)
  have hget' := hcq.get (List.getElem?_eq_getElem hi')
  have hsame := (hdecided p _ (List.getElem_mem hi)).unique hr.inv
    (hdecided q _ (List.getElem_mem hi')) (hget.trans hget'.symm)
  obtain ⟨hterm, hcommand⟩ := hsame
  cases hx : (c.nodes p).commands[i] with
  | mk command term index =>
    cases hy : (c.nodes q).commands[i] with
    | mk command' term' index' =>
      simp only [hx, hy] at hterm hcommand hget hget'
      rw [hterm, hcommand, hget, hget']

section Model

variable {F : Type} [Zero F] [Add F] [Sub F] [Mul F] [Div F] [NatCast F]

/-- In every run that installs no snapshot and restarts no compacted peer, and in which no
new leader has a `matchIndex` beyond its log, two peers whose appliers are done with the
same entries have the same gradient manager. -/
theorem models_agree (asGradient : C → Option (GradientLog F)) (learningRate : F)
    (h : RunWhere gob (ReplayFits gob) tr c) {p q : Fin n} {k : Nat}
    (hp : (c.nodes p).AppliedThrough k) (hq : (c.nodes q).AppliedThrough k) :
    (c.nodes p).gradientManager asGradient learningRate =
      (c.nodes q).gradientManager asGradient learningRate := by
  rw [Node.gradientManager, commands_eq h hp hq, Node.gradientManager]

end Model

/-- Every command is the gradient of a worker for batch 1. -/
def workerGradient (worker : Nat) : Option (GradientLog Int) :=
  some ⟨1, worker, 1, Finmap.singleton "w" [1], 0⟩

/-- Peer 0 leads and commits a gradient with peer 1; both apply it. -/
def gradientApplied : List (Action 3 Nat) :=
  [Action.timeout 0, [.deliver 0, .deliver 0, .lose 0],
    [.start 0 (some 7), .replicate 0 1, .deliver 0, .deliver 0],
    [.copyBatch 0 [], .sendEntry 0, .finishBatch 0, .replicate 0 1, .deliver 0],
    [.copyBatch 1 [], .sendEntry 1, .finishBatch 1]].flatten

theorem models_agree_of_three :
    (((ran (natGob 3) (ReplayFits (natGob 3)) gradientApplied).1.nodes 0).gradientManager
        workerGradient 1).map GradientManager.totalGradients = some 1 ∧
      ((ran (natGob 3) (ReplayFits (natGob 3)) gradientApplied).1.nodes 0).gradientManager
          workerGradient 1 =
        ((ran (natGob 3) (ReplayFits (natGob 3)) gradientApplied).1.nodes 1).gradientManager
          workerGradient 1 := by
  have hrun : RunWhere (natGob 3) (ReplayFits (natGob 3))
      (ran (natGob 3) (ReplayFits (natGob 3)) gradientApplied).2
      (ran (natGob 3) (ReplayFits (natGob 3)) gradientApplied).1 := reached_run (by decide +kernel)
  exact ⟨by decide +kernel, models_agree workerGradient 1 hrun
    (show _ ∧ _ = 1 by decide +kernel) (show _ ∧ _ = 1 by decide +kernel)⟩

/-- Peer 0 then compacts its log and restarts. -/
def compactedRestart : List (Action 3 Nat) := gradientApplied ++ [.snapshot 0 1 (some [1]), .crash 0]

theorem models_diverge :
    ClusterRun (natGob 3) (ran (natGob 3) always compactedRestart).2
        (ran (natGob 3) always compactedRestart).1 ∧
      ((ran (natGob 3) always compactedRestart).1.nodes 0).AppliedThrough 1 ∧
      ((ran (natGob 3) always compactedRestart).1.nodes 1).AppliedThrough 1 ∧
      ((ran (natGob 3) always compactedRestart).1.nodes 0).gradientManager workerGradient 1 =
        some (newGradientManager 1) ∧
      (((ran (natGob 3) always compactedRestart).1.nodes 1).gradientManager workerGradient
        1).map (fun gm => gm.gradientBuffer.lookup 1) = some ((workerGradient 7).map ([·])) ∧
      ((ran (natGob 3) always compactedRestart).1.nodes 0).gradientManager workerGradient 1 ≠
        ((ran (natGob 3) always compactedRestart).1.nodes 1).gradientManager workerGradient 1 := by
  have hrun : ClusterRun (natGob 3) (ran (natGob 3) always compactedRestart).2
      (ran (natGob 3) always compactedRestart).1 := reached_run (by decide +kernel)
  exact ⟨hrun, show _ ∧ _ = 1 by decide +kernel, show _ ∧ _ = 1 by decide +kernel,
    by decide +kernel, by decide +kernel, by decide +kernel⟩

end RaftImplementation
