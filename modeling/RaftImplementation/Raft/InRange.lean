import RaftImplementation.Raft.Durability
import RaftImplementation.Raft.Machines

/-!
# The log accesses of a follower

`Cluster.step` lets the applier find anything behind the log. Here the backing array of
every peer's log is tracked, and a batch is copied from what is really there. Each peer
of such a cluster is a machine: a step of the cluster is, on every peer, a turn of it,
with a request that a leader has sent, or a restart. So the order of the indices that
holds on one machine holds on all peers in every run, and no access of `RequestVote`,
`AppendEntries`, `Snapshot` and `CondInstallSnapshot` is out of range.
-/

namespace RaftImplementation

open Library Cluster Raft

variable {n : Nat} {C : Type}

structure Memory (n : Nat) (C : Type) where
  cluster : Cluster n C
  /-- The slots behind the log of each peer. -/
  spares : Fin n → List (LogEntry C)

namespace Memory

def machine (s : Memory n C) (p : Fin n) : Machine n C := ⟨s.cluster.nodes p, s.spares p⟩

/-- A step of the cluster, with the place of each log after it. -/
def step (gob : Gob n C) (s : Memory n C) (a : Action n C × (Fin n → Option Nat)) :
    Option (Memory n C × List (Event n C)) :=
  (s.cluster.step gob a.1).map fun (c, es) =>
    (⟨c, fun q =>
      if (c.nodes q).boot = (s.cluster.nodes q).boot then
        backing (s.cluster.raft q) (c.raft q) (s.spares q) (a.2 q)
      else List.replicate ((a.2 q).getD 0) .dummy⟩, es)

/-- The applier reads what is in the array. -/
def Reads (s : Memory n C) (a : Action n C × (Fin n → Option Nat)) : Prop :=
  match a.1 with
  | .copyBatch p spare => spare = s.spares p
  | _ => True

instance [DecidableEq C] (s : Memory n C) (a : Action n C × (Fin n → Option Nat)) :
    Decidable (s.Reads a) :=
  match a with
  | (.copyBatch p spare, _) => inferInstanceAs (Decidable (spare = s.spares p))
  | (.fire _, _) | (.tick _, _) | (.elect _, _) | (.start .., _) | (.replicate .., _)
  | (.deliver _, _) | (.lose _, _) | (.snapshot .., _) | (.condInstall .., _)
  | (.sendEntry _, _) | (.finishBatch _, _) | (.sendSnapshot .., _) | (.crash _, _) =>
    isTrue trivial

def init : Memory n C := ⟨Cluster.init, fun _ => []⟩

end Memory

/-! ## Each peer is a machine -/

/-- What a step of the cluster makes of the machine `s`: a turn, or a restart of peer `q`. -/
def Proceeds (gob : Gob n C) (q : Fin n) (s : Machine n C) (nd : Node n C) : Prop :=
  (∃ turn rf ms, turn.CountsOn ∧ s.turn gob turn = some (rf, ms) ∧
    nd = ⟨rf, s.node.boot, s.node.received ++ ms⟩) ∨
  ∃ rf, make gob q s.node.raft.persister = some rf ∧ nd = ⟨rf, s.node.boot + 1, []⟩

variable {gob : Gob n C} {c c' : Cluster n C} {a : Action n C} {es : List (Event n C)}
variable {spares : Fin n → List (LogEntry C)} {p : Fin n} {rf : Raft n C}
variable {rpcs : List (Rpc n C)}

theorem proceeds_idle (q : Fin n) {nd : Node n C} (spare : List (LogEntry C)) :
    Proceeds gob q ⟨nd, spare⟩ nd := by
  refine .inl ⟨.timer nd.raft.electionTimer nd.raft.ticking, nd.raft, [], trivial, rfl, ?_⟩
  rw [List.append_nil]

theorem proceeds_setRaft (turn : Turn n C) (hc : turn.CountsOn)
    (h : (⟨c.nodes p, spares p⟩ : Machine n C).turn gob turn = some (rf, [])) (q : Fin n) :
    Proceeds gob q ⟨c.nodes q, spares q⟩ (((c.setRpcs rpcs).setRaft p rf).nodes q) := by
  by_cases hq : q = p
  · subst hq
    exact .inl ⟨turn, rf, [], hc, h, by simp [setRaft]⟩
  · simpa [setRaft, hq] using proceeds_idle q (spares q)

theorem proceeds_receive (turn : Turn n C) {m : ApplyMsg C} (hc : turn.CountsOn)
    (h : (⟨c.nodes p, spares p⟩ : Machine n C).turn gob turn = some (rf, [m])) (q : Fin n) :
    Proceeds gob q ⟨c.nodes q, spares q⟩ ((c.receive p rf m).1.nodes q) := by
  by_cases hq : q = p
  · subst hq
    exact .inl ⟨turn, rf, [m], hc, h, by simp [receive]⟩
  · simpa [receive, hq] using proceeds_idle q (spares q)

theorem proceeds_reboot
    (h : (c.setRpcs rpcs).reboot gob p (c.raft p).persister = some (c', es)) (q : Fin n) :
    Proceeds gob q ⟨c.nodes q, spares q⟩ (c'.nodes q) := by
  simp only [reboot, Option.map_eq_some_iff, Prod.mk.injEq] at h
  obtain ⟨rf, hmake, rfl, -⟩ := h
  by_cases hq : q = p
  · subst hq
    exact .inr ⟨rf, hmake, by simp⟩
  · simpa [hq] using proceeds_idle q (spares q)

theorem deliver_proceeds (hc : Sound gob c) {k : Nat} {m : Rpc n C} (hm : c.rpcs[k]? = some m)
    (h : c.deliver gob k m = some (c', es)) (q : Fin n) :
    Proceeds gob q ⟨c.nodes q, spares q⟩ (c'.nodes q) := by
  cases hb : m.body with
  | requestVote args =>
    simp only [Cluster.deliver, hb, Option.some.injEq, Prod.mk.injEq] at h
    obtain ⟨rfl, -⟩ := h
    exact proceeds_setRaft (.requestVote args) trivial rfl q
  | appendEntries args =>
    obtain ⟨rf, reply, happ, -⟩ := appendEntries_handled gob (hc.wellFormed m.callee)
      (hc.mirrored m.callee) (hc.entries m (List.mem_of_getElem? hm) args hb)
    simp only [Cluster.deliver, hb] at h
    rw [happ] at h
    simp only [settle, Option.some.injEq, Prod.mk.injEq] at h
    obtain ⟨rfl, -⟩ := h
    refine proceeds_setRaft (.appendEntries args)
      (hc.entries m (List.mem_of_getElem? hm) args hb) ?_ q
    simp only [Machine.turn]
    rw [happ]
    rfl
  | installSnapshot args =>
    simp only [Cluster.deliver, hb, Option.some.injEq, Prod.mk.injEq] at h
    obtain ⟨rfl, -⟩ := h
    exact proceeds_setRaft (.installSnapshot args) trivial rfl q
  | requestVoteReply args reply =>
    simp only [Cluster.deliver, hb] at h
    split at h
    · obtain ⟨rfl, -⟩ := Prod.mk.inj (Option.some.inj h)
      exact proceeds_setRaft (.onRequestVoteReply args reply) trivial rfl q
    · obtain ⟨rfl, -⟩ := Prod.mk.inj (Option.some.inj h)
      exact proceeds_idle q _
  | appendEntriesReply args reply =>
    simp only [Cluster.deliver, hb] at h
    split at h
    · rcases onAppendEntriesReply_handled gob (hc.wellFormed m.caller) m.callee args reply with
        ⟨rf, hr, -⟩ | hr
      · rw [hr] at h
        simp only [settle, Option.some.injEq, Prod.mk.injEq] at h
        obtain ⟨rfl, -⟩ := h
        refine proceeds_setRaft (.onAppendEntriesReply m.callee args reply) trivial ?_ q
        simp only [Machine.turn]
        rw [hr]
        rfl
      · rw [hr] at h
        exact proceeds_reboot h q
    · obtain ⟨rfl, -⟩ := Prod.mk.inj (Option.some.inj h)
      exact proceeds_idle q _
  | installSnapshotReply args reply =>
    simp only [Cluster.deliver, hb] at h
    split at h
    · obtain ⟨rfl, -⟩ := Prod.mk.inj (Option.some.inj h)
      exact proceeds_setRaft (.onInstallSnapshotReply m.callee args reply) trivial rfl q
    · obtain ⟨rfl, -⟩ := Prod.mk.inj (Option.some.inj h)
      exact proceeds_idle q _

theorem replicate_proceeds {peer : Fin n} (h : c.replicate gob p peer = some (c', es))
    (q : Fin n) : Proceeds gob q ⟨c.nodes q, spares q⟩ (c'.nodes q) := by
  unfold Cluster.replicate at h
  split at h
  · cases h
  · rcases (c.raft p).replicateOnceRound_asked peer with ⟨-, hr⟩ | ⟨args, hr, -⟩ | hr
    · rw [hr] at h
      obtain ⟨rfl, -⟩ := Prod.mk.inj (Option.some.inj h)
      exact proceeds_idle q _
    · rw [hr] at h
      cases args with
      | install args =>
        obtain ⟨rfl, -⟩ := Prod.mk.inj (Option.some.inj h)
        exact proceeds_idle q _
      | append args =>
        obtain ⟨rfl, -⟩ := Prod.mk.inj (Option.some.inj h)
        exact proceeds_idle q _
    · rw [hr] at h
      exact proceeds_reboot h q

theorem copyBatch_proceeds (h : c.step gob (.copyBatch p (spares p)) = some (c', es))
    (q : Fin n) : Proceeds gob q ⟨c.nodes q, spares q⟩ (c'.nodes q) := by
  simp only [Cluster.step] at h
  split at h
  · rename_i happ
    simp only [Option.ite_none_right_eq_some] at h
    obtain ⟨hlt, h⟩ := h
    rcases (c.raft p).copyBatch_eq (spares p) with ⟨-, -, hr⟩ | hr
    · rw [hr] at h
      obtain ⟨rfl, -⟩ := Prod.mk.inj (Option.some.inj h)
      refine proceeds_setRaft .copyBatch trivial ?_ q
      simp only [Machine.turn, happ, hlt, ↓reduceIte]
      rw [hr]
      rfl
    · rw [hr] at h
      exact proceeds_reboot h q
  · cases h

/-- A step of the cluster is, on every peer, a turn of its machine or a restart. -/
theorem step_proceeds (hc : Sound gob c) (hreads : ∀ p spare, a = .copyBatch p spare →
    spare = spares p) (h : c.step gob a = some (c', es)) (q : Fin n) :
    Proceeds gob q ⟨c.nodes q, spares q⟩ (c'.nodes q) := by
  cases a with
  | fire p =>
    simp only [Cluster.step, Option.ite_none_right_eq_some, Option.some.injEq,
      Prod.mk.injEq] at h
    obtain ⟨-, rfl, -⟩ := h
    exact proceeds_setRaft (.timer _ _) trivial rfl q
  | tick p =>
    simp only [Cluster.step, Option.ite_none_right_eq_some, Option.some.injEq,
      Prod.mk.injEq] at h
    obtain ⟨-, rfl, -⟩ := h
    exact proceeds_setRaft (.timer _ _) trivial rfl q
  | elect p =>
    simp only [Cluster.step, Cluster.elect, Option.ite_none_right_eq_some, Option.some.injEq,
      Prod.mk.injEq] at h
    obtain ⟨-, rfl, -⟩ := h
    exact proceeds_setRaft .electionTimeout trivial rfl q
  | start p command =>
    simp only [Cluster.step, Cluster.start] at h
    have hturn : (⟨c.nodes p, spares p⟩ : Machine n C).turn gob (.start command) =
        some (((c.raft p).start gob command).1, []) := rfl
    split at h
    · rename_i rf index term hst
      obtain ⟨rfl, -⟩ := Prod.mk.inj (Option.some.inj h)
      rw [hst] at hturn
      exact proceeds_setRaft (.start command) trivial hturn q
    · rename_i rf hst
      obtain ⟨rfl, -⟩ := Prod.mk.inj (Option.some.inj h)
      rw [hst] at hturn
      exact proceeds_setRaft (.start command) trivial hturn q
  | replicate p peer => exact replicate_proceeds h q
  | deliver k =>
    simp only [Cluster.step] at h
    split at h
    · rename_i m hm
      exact deliver_proceeds hc hm h q
    · cases h
  | lose k =>
    obtain ⟨rfl, -⟩ := Prod.mk.inj (Option.some.inj h)
    exact proceeds_idle q _
  | snapshot p index data =>
    simp only [Cluster.step, Option.ite_none_right_eq_some] at h
    obtain ⟨hrec, h⟩ := h
    obtain ⟨rf, hr, -⟩ := snapshot_taken gob (hc.wellFormed p) index data
    rw [hr] at h
    obtain ⟨rfl, -⟩ := Prod.mk.inj (Option.some.inj h)
    refine proceeds_setRaft (.snapshot index data) trivial ?_ q
    simp only [Machine.turn, hrec, ↓reduceIte]
    rw [hr]
    rfl
  | condInstall p m =>
    simp only [Cluster.step, Option.ite_none_right_eq_some] at h
    obtain ⟨-, h⟩ := h
    rcases condInstallSnapshot_tried gob (hc.wellFormed p) m.snapshotTerm m.snapshotIndex
      m.snapshot with ⟨rf, result, hr, -⟩ | hr
    · rw [hr] at h
      obtain ⟨rfl, -⟩ := Prod.mk.inj (Option.some.inj h)
      refine proceeds_setRaft
        (.condInstallSnapshot m.snapshotTerm m.snapshotIndex m.snapshot) trivial ?_ q
      simp only [Machine.turn]
      rw [hr]
      rfl
    · rw [hr] at h
      exact proceeds_reboot h q
  | copyBatch p spare =>
    obtain rfl := hreads p spare rfl
    exact copyBatch_proceeds h q
  | sendEntry p =>
    simp only [Cluster.step, Cluster.sendEntry] at h
    split at h
    · rename_i ci e rest happ
      obtain rfl := (congrArg Prod.fst (Option.some.inj h)).symm
      refine proceeds_receive .sendEntry trivial ?_ q
      simp only [Machine.turn, happ]
    · cases h
  | finishBatch p =>
    simp only [Cluster.step] at h
    split at h
    · rename_i ci happ
      obtain ⟨rfl, -⟩ := Prod.mk.inj (Option.some.inj h)
      refine proceeds_setRaft .finishBatch trivial ?_ q
      simp only [Machine.turn, happ]
    · cases h
  | sendSnapshot p k =>
    simp only [Cluster.step, Cluster.sendSnapshot] at h
    split at h
    · rename_i m hk
      obtain rfl := (congrArg Prod.fst (Option.some.inj h)).symm
      refine proceeds_receive (.sendSnapshot k) trivial ?_ q
      simp only [Machine.turn, hk]
    · cases h
  | crash p => exact proceeds_reboot h q

/-! ## Every run -/

variable {s s' : Memory n C}

/-- The tracked cluster only restricts what the applier reads. -/
theorem memory_clusterRun {tr : List (Event n C)}
    (h : Run (Memory.step gob) Memory.Reads Memory.init tr s) : ClusterRun gob tr s.cluster := by
  induction h with
  | refl => exact .refl
  | snoc _ _ hstep ih =>
    simp only [Memory.step, Option.map_eq_some_iff, Prod.mk.injEq, Prod.exists] at hstep
    obtain ⟨c, es, hc, rfl, rfl⟩ := hstep
    exact ih.snoc trivial hc

/-- One step keeps the order on every peer. -/
theorem ordered_memory_step (hc : Sound gob s.cluster)
    (ho : ∀ p, Ordered gob (s.machine p)) {a : Action n C × (Fin n → Option Nat)}
    (hreads : s.Reads a) (h : s.step gob a = some (s', es)) (q : Fin n) :
    Ordered gob (s'.machine q) := by
  obtain ⟨act, arrays⟩ := a
  simp only [Memory.step, Option.map_eq_some_iff, Prod.mk.injEq, Prod.exists] at h
  obtain ⟨c, es, hstep, rfl, rfl⟩ := h
  have hreads' : ∀ p spare, act = .copyBatch p spare → spare = s.spares p := by
    rintro p spare rfl
    exact hreads
  rcases step_proceeds hc hreads' hstep q with ⟨turn, rf, ms, hcount, hturn, hnd⟩ | ⟨rf, hmake, hnd⟩
  · have hmachine : (s.machine q).step gob (turn, arrays q) =
        some (⟨c.nodes q, backing (s.cluster.raft q) (c.raft q) (s.spares q) (arrays q)⟩, ms) := by
      simp only [Machine.step, Memory.machine, hturn, Option.map_some, hnd, raft]
    have hboot : (c.nodes q).boot = (s.cluster.nodes q).boot := by rw [hnd]
    simp only [Memory.machine, hboot, ↓reduceIte]
    exact ((ho q).step hcount hmachine).1
  · have hboot : (c.nodes q).boot ≠ (s.cluster.nodes q).boot := by
      rw [hnd]
      exact Nat.succ_ne_self _
    have hw : rf.WellFormed := by
      have hc' := sound_moves hc (step_moves hc hstep)
      simpa [raft, hnd] using hc'.wellFormed q
    simp only [Memory.machine, hboot, ↓reduceIte]
    rw [hnd]
    exact ordered_boot hmake hw _ _

theorem ordered_memory {tr : List (Event n C)}
    (h : Run (Memory.step gob) Memory.Reads Memory.init tr s) (p : Fin n) :
    Ordered gob (s.machine p) := by
  induction h generalizing p with
  | refl =>
    have hmake : make gob p makePersister = some ((init : Cluster n C).raft p) := by rfl
    exact ordered_boot hmake (wellFormed_of_cons rfl trivial) 0 0
  | snoc hrun hreads hstep ih =>
    exact ordered_memory_step (sound_run (memory_clusterRun hrun)) ih hreads hstep p

/-- In every state of every run: the logs and the requests under way count on from their
first index; the first and the last entry of a log, which `RequestVote` and all other
sections read, are there; a request under way, whoever it reaches, finds everything it
looks for in the log; and so do `Snapshot` and `CondInstallSnapshot`, whatever they are
called with. -/
theorem log_accesses_in_range {tr : List (Event n C)}
    (h : Run (Memory.step gob) Memory.Reads Memory.init tr s) :
    (∀ p, (s.cluster.raft p).logs ≠ [] ∧
      ∀ k e, (s.cluster.raft p).logs[k]? = some e →
        e.index = (s.cluster.raft p).getFirstLog.index + k) ∧
    (∀ m ∈ s.cluster.rpcs, ∀ args, m.body = .appendEntries args →
      ∀ k e, args.entries[k]? = some e → e.index = args.prevLogIndex + 1 + k) ∧
    (∀ p, (s.cluster.raft p).logs[0]? = some (s.cluster.raft p).getFirstLog ∧
      (s.cluster.raft p).logs[(s.cluster.raft p).logs.length - 1]? =
        some (s.cluster.raft p).getLastLog) ∧
    (∀ m ∈ s.cluster.rpcs, ∀ args, m.body = .appendEntries args →
      ∀ p, ∃ rf reply, (s.cluster.raft p).appendEntries gob args = .ok (rf, reply)) ∧
    (∀ p index data, ∃ rf, (s.cluster.raft p).snapshot gob index data = .ok rf) ∧
    (∀ p t i data, ∃ rf result,
      (s.cluster.raft p).condInstallSnapshot gob t i data = .ok (rf, result)) := by
  have hc := sound_run (memory_clusterRun h)
  refine ⟨fun p => ?_, fun m hm args hb k e he => ?_, fun p => ?_, fun m hm args hb p => ?_,
    fun p index data => ?_, fun p t i data => ?_⟩
  · exact ⟨(hc.wellFormed p).ne_nil, fun k e he => (hc.wellFormed p).contiguous.get he⟩
  · exact (hc.entries m hm args hb).get he
  · obtain ⟨es, hl, -⟩ := (hc.wellFormed p).cons
    exact ⟨by rw [hl]; rfl, (hc.wellFormed p).get_last⟩
  · obtain ⟨rf, reply, hok, -⟩ :=
      appendEntries_handled gob (hc.wellFormed p) (hc.mirrored p) (hc.entries m hm args hb)
    exact ⟨rf, reply, hok⟩
  · obtain ⟨rf, hok, -⟩ := snapshot_taken gob (hc.wellFormed p) index data
    exact ⟨rf, hok⟩
  · -- the log begins at or below `commitIndex`, and an older snapshot is turned away
    have hfirst : (s.cluster.raft p).getFirstLog.index ≤ (s.cluster.raft p).commitIndex :=
      (ordered_memory h p).first_le_commitIndex
    by_cases hci : i ≤ (s.cluster.raft p).commitIndex
    · exact ⟨_, false, by rw [Raft.condInstallSnapshot, if_pos hci]; rfl⟩
    · obtain ⟨ps, hok, -⟩ := condInstallSnapshot_accepted gob (hc.wellFormed p)
        (Nat.lt_of_not_le hci) (by omega) data
      exact ⟨_, true, hok⟩

/-- Peer 0 commits and applies its first entry and compacts its log, while its request
to peer 2 is still under way. -/
def compactedEarly : List (Action 3 Nat) :=
  Action.timeout 0 ++ [.deliver 0, .deliver 0, .start 0 (some 7), .replicate 0 1,
    .replicate 0 2, .deliver 1, .deliver 1, .copyBatch 0 [], .sendEntry 0, .finishBatch 0,
    .snapshot 0 1 (some [1])]

theorem log_accesses_in_range_compacted :
    ∃ tr s, Run (Memory.step (natGob 3)) Memory.Reads Memory.init tr s ∧
      (s.cluster.raft 0).getFirstLog.index = 1 ∧
      ⟨0, 0, 2, .appendEntries ⟨1, 0, 0, 0, 0, [⟨some 7, 1, 1⟩]⟩⟩ ∈ s.cluster.rpcs ∧
      ∀ p t i data, ∃ rf result,
        (s.cluster.raft p).condInstallSnapshot (natGob 3) t i data = .ok (rf, result) := by
  -- every log is moved to an array of its own length at every step
  set as := compactedEarly.map fun a => (a, fun _ : Fin 3 => some 0)
  have hrun : Run (Memory.step (natGob 3)) Memory.Reads Memory.init
      (reached (Memory.step (natGob 3)) Memory.Reads Memory.init as).2
      (reached (Memory.step (natGob 3)) Memory.Reads Memory.init as).1 :=
    reached_run (by decide +kernel)
  obtain ⟨-, -, -, -, -, hinstall⟩ := log_accesses_in_range hrun
  exact ⟨_, _, hrun, by decide +kernel, by decide +kernel, hinstall⟩

end RaftImplementation
