import RaftImplementation.Library.Runs
import RaftImplementation.Raft.Cluster
import RaftImplementation.Raft.Effects

/-!
# The moves of a cluster

`Moves gob c a c' es` lists, once, everything a step of the cluster can do. `step_moves`
shows that a step from a sound cluster is one of these moves, and `sound_moves`
that soundness is kept: peers know their own number, logs and requests are
contiguous, and what the persister holds is what the peer has in memory. Every
further invariant is proved over `Moves`.
-/

namespace RaftImplementation

open Library

variable {n : Nat} {C : Type}

/-- A run of the cluster from its first boot, all of whose steps satisfy `ok`. -/
abbrev RunWhere (gob : Gob n C) (ok : Cluster n C → Action n C → Prop)
    (tr : List (Event n C)) (c : Cluster n C) : Prop :=
  Run (Cluster.step gob) ok Cluster.init tr c

/-- A run of the cluster from its first boot. -/
abbrev ClusterRun (gob : Gob n C) (tr : List (Event n C)) (c : Cluster n C) : Prop :=
  RunWhere gob always tr c

/-- Where the listed actions lead from the first boot, and what they emit. -/
abbrev ran (gob : Gob n C) (ok : Cluster n C → Action n C → Prop)
    [∀ c a, Decidable (ok c a)] (as : List (Action n C)) : Cluster n C × List (Event n C) :=
  reached (Cluster.step gob) ok Cluster.init as

namespace Cluster

/-- The process running on machine `p`. -/
abbrev raft (c : Cluster n C) (p : Fin n) : Raft n C := (c.nodes p).raft

section Frames

variable (c : Cluster n C) (p q : Fin n) (rf : Raft n C) (rpcs : List (Rpc n C))

@[simp] theorem setRaft_raft_self : (c.setRaft p rf).raft p = rf := by
  simp [setRaft, raft]

theorem setRaft_raft_ne {q : Fin n} (h : q ≠ p) : (c.setRaft p rf).raft q = c.raft q := by
  simp [setRaft, raft, h]

theorem setRaft_raft : (c.setRaft p rf).raft q = if q = p then rf else c.raft q := by
  by_cases h : q = p
  · subst h; simp
  · simp [setRaft_raft_ne c p rf h, h]

@[simp] theorem setRaft_rpcs : (c.setRaft p rf).rpcs = c.rpcs := rfl

@[simp] theorem setRpcs_nodes : (c.setRpcs rpcs).nodes = c.nodes := rfl

@[simp] theorem setRpcs_raft : (c.setRpcs rpcs).raft p = c.raft p := rfl

@[simp] theorem setRpcs_rpcs : (c.setRpcs rpcs).rpcs = rpcs := rfl

theorem setRaft_setRaft (rf' : Raft n C) :
    (c.setRaft p rf).setRaft p rf' = c.setRaft p rf' := by
  simp [setRaft]

theorem setRaft_self : c.setRaft p (c.raft p) = c := by
  simp [setRaft, raft]

end Frames

/-- `p` restarted from its persister, with the given RPCs under way. -/
def restarted (c : Cluster n C) (p : Fin n) (rpcs : List (Rpc n C)) : Cluster n C :=
  let rf := c.raft p
  { nodes := Function.update c.nodes p
      ⟨Raft.fresh p rf.persister rf.currentTerm rf.votedFor rf.logs, (c.nodes p).boot + 1, []⟩
    rpcs := rpcs }

/-- The service of `p` has read `m`; the process is now `rf`. -/
def handed (c : Cluster n C) (p : Fin n) (rf : Raft n C) (m : ApplyMsg C) : Cluster n C :=
  let nd := c.nodes p
  { c with nodes := Function.update c.nodes p ⟨rf, nd.boot, nd.received ++ [m]⟩ }

section Restarts

variable (c : Cluster n C) (p : Fin n) (rf : Raft n C) (rpcs : List (Rpc n C)) (m : ApplyMsg C)

@[simp] theorem restarted_raft_self : (c.restarted p rpcs).raft p =
    Raft.fresh p (c.raft p).persister (c.raft p).currentTerm (c.raft p).votedFor
      (c.raft p).logs := by
  simp [restarted, raft]

theorem restarted_nodes_ne {q : Fin n} (h : q ≠ p) : (c.restarted p rpcs).nodes q = c.nodes q := by
  simp [restarted, h]

@[simp] theorem handed_raft_self : (c.handed p rf m).raft p = rf := by
  simp [handed, raft]

theorem handed_raft_ne {q : Fin n} (h : q ≠ p) : (c.handed p rf m).raft q = c.raft q := by
  simp [handed, raft, h]

end Restarts

/-! A reflexive relation that holds for the peer that moves holds for all peers. -/

section Relations

variable {c : Cluster n C} {p : Fin n} {rf : Raft n C} {rpcs : List (Rpc n C)}
variable {R : Raft n C → Raft n C → Prop} (hrefl : ∀ rf, R rf rf)
include hrefl

theorem setRaft_rel (h : R (c.raft p) rf) (q : Fin n) :
    R (c.raft q) (((c.setRpcs rpcs).setRaft p rf).raft q) := by
  by_cases hq : q = p
  · subst hq
    rwa [setRaft_raft_self]
  · rw [setRaft_raft_ne _ p rf hq]
    exact hrefl _

theorem handed_rel {m : ApplyMsg C} (h : R (c.raft p) rf) (q : Fin n) :
    R (c.raft q) ((c.handed p rf m).raft q) := by
  by_cases hq : q = p
  · subst hq
    rwa [handed_raft_self]
  · rw [handed_raft_ne c p rf m hq]
    exact hrefl _

theorem restarted_rel
    (h : R (c.raft p) (Raft.fresh p (c.raft p).persister (c.raft p).currentTerm
      (c.raft p).votedFor (c.raft p).logs)) (q : Fin n) :
    R (c.raft q) ((c.restarted p rpcs).raft q) := by
  by_cases hq : q = p
  · subst hq
    rwa [restarted_raft_self]
  · rw [raft, raft, restarted_nodes_ne c p rpcs hq]
    exact hrefl _

end Relations

/-! A property of all machines is kept if the machine that moves keeps it. -/

section Properties

variable {c : Cluster n C} {p : Fin n} {rf : Raft n C} {rpcs : List (Rpc n C)}
variable {P P' : Fin n → Node n C → Prop} (hP : ∀ q, q ≠ p → P q (c.nodes q) → P' q (c.nodes q))
variable (h : ∀ q, P q (c.nodes q))
include hP h

theorem setRaft_forall (hp : P' p ⟨rf, (c.nodes p).boot, (c.nodes p).received⟩) :
    ∀ q, P' q (((c.setRpcs rpcs).setRaft p rf).nodes q) := by
  intro q
  by_cases hq : q = p
  · subst hq
    simpa [setRaft] using hp
  · simpa [setRaft, hq] using hP q hq (h q)

theorem handed_forall {m : ApplyMsg C}
    (hp : P' p ⟨rf, (c.nodes p).boot, (c.nodes p).received ++ [m]⟩) :
    ∀ q, P' q ((c.handed p rf m).nodes q) := by
  intro q
  by_cases hq : q = p
  · subst hq
    simpa [handed] using hp
  · simpa [handed, hq] using hP q hq (h q)

theorem restarted_forall
    (hp : P' p ⟨Raft.fresh p (c.raft p).persister (c.raft p).currentTerm (c.raft p).votedFor
      (c.raft p).logs, (c.nodes p).boot + 1, []⟩) :
    ∀ q, P' q ((c.restarted p rpcs).nodes q) := by
  intro q
  by_cases hq : q = p
  · subst hq
    simpa [restarted] using hp
  · rw [restarted_nodes_ne c p rpcs hq]
    exact hP q hq (h q)

end Properties

end Cluster

theorem Cluster.receivedSnapshot_mem {nd : Node n C} {m : SnapshotMsg}
    (h : receivedSnapshot nd m = true) : .snapshot m ∈ nd.received := by
  obtain ⟨x, hx, hm⟩ := List.any_eq_true.mp h
  cases x with
  | command cmd i t => simp at hm
  | snapshot m' =>
    simp only [decide_eq_true_eq] at hm
    rwa [hm] at hx

theorem Cluster.receivedCommand_mem {nd : Node n C} {i : Nat} (h : receivedCommand nd i = true) :
    ∃ command t, .command command i t ∈ nd.received := by
  obtain ⟨x, hx, hi⟩ := List.any_eq_true.mp h
  cases x with
  | snapshot m => simp at hi
  | command command j t =>
    simp only [decide_eq_true_eq] at hi
    exact ⟨command, t, hi ▸ hx⟩

/-- The RPC that carries a replication request. -/
def Raft.ReplicationArgs.body : Raft.ReplicationArgs n C → RpcBody n C
  | .install args => .installSnapshot args
  | .append args => .appendEntries args

/-- The RPC `m` with its request answered. -/
def Rpc.answered (m : Rpc n C) (body : RpcBody n C) : Rpc n C := { m with body := body }

/-- A timer event of `rf`. -/
@[simps]
def Raft.timed (rf : Raft n C) (et : Timer) (tk : Bool) : Raft n C :=
  { rf with electionTimer := et, ticking := tk }

/-- The `k`-th snapshot goroutine of `rf` is done. -/
@[simps]
def Raft.unqueueing (rf : Raft n C) (k : Nat) : Raft n C :=
  { rf with snapshotSends := rf.snapshotSends.eraseIdx k }

open Cluster Raft

inductive Moves (gob : Gob n C) (c : Cluster n C) :
    Action n C → Cluster n C → List (Event n C) → Prop
  | timers {a : Action n C} (p : Fin n) (et : Timer) (tk : Bool) :
      Moves gob c a (c.setRaft p ((c.raft p).timed et tk)) []
  /-- An RPC is lost, or its reply changes nothing. -/
  | lose {a : Action n C} (k : Nat) : Moves gob c a (c.setRpcs (c.rpcs.eraseIdx k)) []
  /-- A crash, or a panic. -/
  | reboot {a : Action n C} (p : Fin n) (rpcs : List (Rpc n C)) (hsub : rpcs.Sublist c.rpcs) :
      Moves gob c a (c.restarted p rpcs)
        [.booted p ((c.nodes p).boot + 1) (c.raft p).getFirstLog.index]
  | stand (p : Fin n) (et : Timer) (ps : Persister)
      (hps : durable gob ps =
        some ((c.raft p).currentTerm + 1, some (c.raft p).me, (c.raft p).logs)) :
      Moves gob c (.elect p)
        ((c.setRpcs (c.rpcs ++ c.broadcast p (.requestVote
            ⟨(c.raft p).currentTerm + 1, (c.raft p).me, (c.raft p).getLastLog.index,
              (c.raft p).getLastLog.term⟩))).setRaft p ((c.raft p).standing et ps))
        [.stand p ((c.raft p).currentTerm + 1) (c.raft p).getLastLog.term
          (c.raft p).getLastLog.index]
  | started (p : Fin n) (command : Option C) (ps : Persister) (hs : (c.raft p).state = .leader)
      (hps : durable gob ps = some ((c.raft p).currentTerm, (c.raft p).votedFor,
        (c.raft p).logs ++ [(c.raft p).newEntry command])) :
      Moves gob c (.start p command) (c.setRaft p ((c.raft p).appending command ps))
        [.started p ((c.raft p).getLastLog.index + 1) (c.raft p).currentTerm command]
  | asked (p peer : Fin n) (args : ReplicationArgs n C) (hne : peer ≠ p)
      (h : Asked (c.raft p) peer args) :
      Moves gob c (.replicate p peer) (c.setRpcs (c.rpcs ++ [⟨p, (c.nodes p).boot, peer, args.body⟩])) []
  | voteHandled (k : Nat) (m : Rpc n C) (args : RequestVoteArgs n) (rf : Raft n C)
      (reply : RequestVoteReply) (hm : c.rpcs[k]? = some m) (hb : m.body = .requestVote args)
      (h : VoteHandled gob (c.raft m.callee) args rf reply) :
      Moves gob c (.deliver k)
        ((c.setRpcs (c.rpcs.set k (m.answered (.requestVoteReply args reply)))).setRaft
          m.callee rf)
        (if reply.voteGranted then
          [.grant m.callee args.term args.candidateId (c.raft m.callee).getLastLog.term
            (c.raft m.callee).getLastLog.index] else [])
  | appendHandled (k : Nat) (m : Rpc n C) (args : AppendEntriesArgs n C) (rf : Raft n C)
      (reply : AppendEntriesReply) (hm : c.rpcs[k]? = some m)
      (hb : m.body = .appendEntries args)
      (h : AppendHandled gob (c.raft m.callee) args rf reply) :
      Moves gob c (.deliver k)
        ((c.setRpcs (c.rpcs.set k (m.answered (.appendEntriesReply args reply)))).setRaft
          m.callee rf) []
  | snapshotHandled (k : Nat) (m : Rpc n C) (args : InstallSnapshotArgs n) (rf : Raft n C)
      (hm : c.rpcs[k]? = some m) (hb : m.body = .installSnapshot args)
      (h : SnapshotHandled gob (c.raft m.callee) args rf) :
      Moves gob c (.deliver k)
        ((c.setRpcs (c.rpcs.set k (m.answered
          (.installSnapshotReply args ⟨(c.raft m.callee).currentTerm⟩)))).setRaft
          m.callee rf) []
  /-- A reply of any kind tells the caller of a higher term. -/
  | outrun (k : Nat) (m : Rpc n C) (t : Nat) (et : Timer) (ps : Persister)
      (hm : c.rpcs[k]? = some m) (ht : (c.raft m.caller).currentTerm < t)
      (hps : durable gob ps = some (t, none, (c.raft m.caller).logs)) :
      Moves gob c (.deliver k)
        ((c.setRpcs (c.rpcs.eraseIdx k)).setRaft m.caller ((c.raft m.caller).behind t et ps)) []
  | counted (k : Nat) (m : Rpc n C) (args : RequestVoteArgs n) (reply : RequestVoteReply)
      (hm : c.rpcs[k]? = some m) (hb : m.body = .requestVoteReply args reply)
      (hboot : (c.nodes m.caller).boot = m.boot)
      (ht : args.term = (c.raft m.caller).currentTerm)
      (hs : (c.raft m.caller).state = .candidate) (hg : reply.voteGranted = true)
      (hfew : (c.raft m.caller).grantedVotes + 1 ≤ n / 2) :
      Moves gob c (.deliver k)
        ((c.setRpcs (c.rpcs.eraseIdx k)).setRaft m.caller (c.raft m.caller).counting)
        [.count m.caller args.term m.callee]
  | won (k : Nat) (m : Rpc n C) (args : RequestVoteArgs n) (reply : RequestVoteReply)
      (et : Timer) (hm : c.rpcs[k]? = some m) (hb : m.body = .requestVoteReply args reply)
      (hboot : (c.nodes m.caller).boot = m.boot)
      (ht : args.term = (c.raft m.caller).currentTerm)
      (hs : (c.raft m.caller).state = .candidate) (hg : reply.voteGranted = true)
      (hmany : n / 2 < (c.raft m.caller).grantedVotes + 1) :
      Moves gob c (.deliver k)
        ((c.setRpcs (c.rpcs.eraseIdx k)).setRaft m.caller ((c.raft m.caller).leading et))
        [.count m.caller args.term m.callee, .lead m.caller (c.raft m.caller).currentTerm]
  | backedOff (k : Nat) (m : Rpc n C) (args : AppendEntriesArgs n C) (reply : AppendEntriesReply)
      (i : Nat) (hm : c.rpcs[k]? = some m) (hb : m.body = .appendEntriesReply args reply)
      (hboot : (c.nodes m.caller).boot = m.boot)
      (ht : args.term = (c.raft m.caller).currentTerm)
      (hs : (c.raft m.caller).state = .leader) (hsucc : reply.success = false)
      (hi : i = reply.conflictIndex ∨ i ≤ args.prevLogIndex) :
      Moves gob c (.deliver k)
        ((c.setRpcs (c.rpcs.eraseIdx k)).setRaft m.caller
          ((c.raft m.caller).retrying m.callee i)) []
  | matched (k : Nat) (m : Rpc n C) (args : AppendEntriesArgs n C) (reply : AppendEntriesReply)
      (ci : Nat) (hm : c.rpcs[k]? = some m) (hb : m.body = .appendEntriesReply args reply)
      (hboot : (c.nodes m.caller).boot = m.boot)
      (ht : args.term = (c.raft m.caller).currentTerm)
      (hs : (c.raft m.caller).state = .leader) (hsucc : reply.success = true)
      (hci : ci = (c.raft m.caller).commitIndex ∨
        ((c.raft m.caller).matched m.callee
          (args.prevLogIndex + args.entries.length)).Advanced ci) :
      Moves gob c (.deliver k)
        ((c.setRpcs (c.rpcs.eraseIdx k)).setRaft m.caller
          (((c.raft m.caller).matched m.callee
            (args.prevLogIndex + args.entries.length)).committing ci)) []
  | recorded (k : Nat) (m : Rpc n C) (args : InstallSnapshotArgs n)
      (reply : InstallSnapshotReply) (hm : c.rpcs[k]? = some m)
      (hb : m.body = .installSnapshotReply args reply)
      (hboot : (c.nodes m.caller).boot = m.boot)
      (ht : args.term = (c.raft m.caller).currentTerm)
      (hs : (c.raft m.caller).state = .leader) :
      Moves gob c (.deliver k)
        ((c.setRpcs (c.rpcs.eraseIdx k)).setRaft m.caller
          ((c.raft m.caller).matched m.callee args.lastIncludedIndex)) []
  | snapshotTaken (p : Fin n) (index : Nat) (data : Option Bytes) (e : LogEntry C) (ps : Persister)
      (hrec : receivedCommand (c.nodes p) index = true)
      (hf : (c.raft p).getFirstLog.index < index)
      (he : (c.raft p).logs[index - (c.raft p).getFirstLog.index]? = some e)
      (hps : durable gob ps = some ((c.raft p).currentTerm, (c.raft p).votedFor,
        (c.raft p).cutLogs e.term index)) :
      Moves gob c (.snapshot p index data) (c.setRaft p ((c.raft p).compacting e.term index ps)) []
  | outdated (p : Fin n) (m : SnapshotMsg) (hrec : receivedSnapshot (c.nodes p) m = true)
      (hc : m.snapshotIndex ≤ (c.raft p).commitIndex) :
      Moves gob c (.condInstall p m) c [.condInstalled p m false]
  | installed (p : Fin n) (m : SnapshotMsg) (ps : Persister)
      (hrec : receivedSnapshot (c.nodes p) m = true)
      (hc : (c.raft p).commitIndex < m.snapshotIndex)
      (hf : (c.raft p).getFirstLog.index ≤ m.snapshotIndex)
      (hps : durable gob ps = some ((c.raft p).currentTerm, (c.raft p).votedFor,
        (c.raft p).cutLogs m.snapshotTerm m.snapshotIndex)) :
      Moves gob c (.condInstall p m)
        (c.setRaft p ((c.raft p).installed m.snapshotTerm m.snapshotIndex ps))
        [.condInstalled p m true]
  | copied (p : Fin n) (spare : List (LogEntry C)) (hw : (c.raft p).applier = .waiting)
      (hlt : (c.raft p).lastApplied < (c.raft p).commitIndex)
      (hf : (c.raft p).getFirstLog.index ≤ (c.raft p).lastApplied + 1)
      (hlen : (c.raft p).commitIndex + 1 - (c.raft p).getFirstLog.index ≤
        ((c.raft p).logs ++ spare).length) :
      Moves gob c (.copyBatch p spare)
        (c.setRaft p ((c.raft p).sending (c.raft p).commitIndex ((c.raft p).batch spare))) []
  | sentEntry (p : Fin n) (ci : Nat) (e : LogEntry C) (es : List (LogEntry C))
      (h : (c.raft p).applier = .sending ci (e :: es)) :
      Moves gob c (.sendEntry p)
        (c.handed p ((c.raft p).sending ci es) (.command e.command e.index e.term))
        [.received p (c.nodes p).boot (.command e.command e.index e.term)]
  | finished (p : Fin n) (ci : Nat) (h : (c.raft p).applier = .sending ci []) :
      Moves gob c (.finishBatch p) (c.setRaft p ((c.raft p).finishBatch ci)) []
  | sentSnapshot (p : Fin n) (k : Nat) (m : SnapshotMsg)
      (h : (c.raft p).snapshotSends[k]? = some m) :
      Moves gob c (.sendSnapshot p k) (c.handed p ((c.raft p).unqueueing k) (.snapshot m))
        [.received p (c.nodes p).boot (.snapshot m)]

/-! ## Soundness -/

structure Sound (gob : Gob n C) (c : Cluster n C) : Prop where
  me : ∀ p, (c.raft p).me = p
  wellFormed : ∀ p, (c.raft p).WellFormed
  mirrored : ∀ p, (c.raft p).Mirrored gob
  entries : ∀ m ∈ c.rpcs, ∀ args, m.body = .appendEntries args →
    Contiguous (args.prevLogIndex + 1) args.entries

variable {gob : Gob n C} {c c' : Cluster n C} {a : Action n C} {es : List (Event n C)}

/-- A crash, or a panic that has saved nothing, restarts from the mirrored state. -/
theorem reboot_moves (hc : Sound gob c) {p : Fin n} {rpcs : List (Rpc n C)}
    (hsub : rpcs.Sublist c.rpcs)
    (h : (c.setRpcs rpcs).reboot gob p (c.raft p).persister = some (c', es)) :
    Moves gob c a c' es := by
  unfold reboot at h
  rw [make_eq_fresh gob (hc.mirrored p)] at h
  simp only [Option.map_some, Option.some.injEq, Prod.mk.injEq] at h
  obtain ⟨rfl, rfl⟩ := h
  exact .reboot p rpcs hsub

/-- A section that changes nothing is a move. -/
theorem Moves.idle (p : Fin n) : Moves gob c a c [] := by
  have h : Moves gob c a
      (c.setRaft p ((c.raft p).timed (c.raft p).electionTimer (c.raft p).ticking)) [] :=
    .timers p _ _
  rwa [show (c.raft p).timed (c.raft p).electionTimer (c.raft p).ticking = c.raft p from rfl,
    setRaft_self] at h

/-- A reply that changes nothing is a lost one. -/
theorem Moves.ignored (p : Fin n) (k : Nat) :
    Moves gob c a ((c.setRpcs (c.rpcs.eraseIdx k)).setRaft p (c.raft p)) [] := by
  rw [show c.raft p = (c.setRpcs (c.rpcs.eraseIdx k)).raft p from rfl, setRaft_self]
  exact .lose k

theorem elect_moves {p : Fin n} (h : c.elect gob p = some (c', es)) :
    Moves gob c (.elect p) c' es := by
  unfold Cluster.elect at h
  dsimp only at h
  split at h
  · obtain ⟨et, ps, helect, hps⟩ := (c.raft p).electionTimeout_eq gob
    rw [helect] at h
    simp only [Option.some.injEq, Prod.mk.injEq] at h
    obtain ⟨rfl, rfl⟩ := h
    exact .stand p et ps hps
  · simp at h

theorem start_moves {p : Fin n} {command : Option C}
    (h : c.start gob p command = some (c', es)) : Moves gob c (.start p command) c' es := by
  unfold Cluster.start at h
  rcases (c.raft p).start_eq gob command with ⟨_, hst⟩ | ⟨hs, ps, hst, hps⟩
  · rw [hst] at h
    simp only [Option.some.injEq, Prod.mk.injEq] at h
    obtain ⟨rfl, rfl⟩ := h
    exact .timers p (c.raft p).electionTimer (c.raft p).ticking
  · rw [hst] at h
    simp only [Option.some.injEq, Prod.mk.injEq] at h
    obtain ⟨rfl, rfl⟩ := h
    exact .started p command ps hs hps

theorem replicate_moves (hc : Sound gob c) {p peer : Fin n}
    (h : c.replicate gob p peer = some (c', es)) : Moves gob c (.replicate p peer) c' es := by
  unfold Cluster.replicate at h
  split at h
  · simp at h
  · rename_i hne
    rcases (c.raft p).replicateOnceRound_asked peer with ⟨_, hr⟩ | ⟨args, hr, ha⟩ | hr
    · rw [hr] at h
      simp only [settle, Option.some.injEq, Prod.mk.injEq] at h
      obtain ⟨rfl, rfl⟩ := h
      exact .idle p
    · rw [hr] at h
      cases args with
      | install args =>
        simp only [settle, Option.some.injEq, Prod.mk.injEq] at h
        obtain ⟨rfl, rfl⟩ := h
        exact .asked p peer _ hne ha
      | append args =>
        simp only [settle, Option.some.injEq, Prod.mk.injEq] at h
        obtain ⟨rfl, rfl⟩ := h
        exact .asked p peer _ hne ha
    · rw [hr] at h
      exact reboot_moves hc (List.Sublist.refl _) h

/-- A request reaches its callee. -/
theorem deliver_request_moves (hc : Sound gob c) {k : Nat} {m : Rpc n C}
    (hm : c.rpcs[k]? = some m) {args : AppendEntriesArgs n C}
    (hb : m.body = .appendEntries args) (h : c.deliver gob k m = some (c', es)) :
    Moves gob c (.deliver k) c' es := by
  unfold Cluster.deliver at h
  simp only [hb] at h
  obtain ⟨rf, reply, happ, hh⟩ := appendEntries_handled gob (hc.wellFormed m.callee)
    (hc.mirrored m.callee) (hc.entries m (List.mem_of_getElem? hm) args hb)
  rw [happ] at h
  simp only [settle, Option.some.injEq, Prod.mk.injEq] at h
  obtain ⟨rfl, rfl⟩ := h
  exact .appendHandled k m args rf reply hm hb hh

/-- A vote reply reaches the closure that waits for it. -/
theorem voteReplyHandled_moves {k : Nat} {m : Rpc n C} (hm : c.rpcs[k]? = some m)
    {args : RequestVoteArgs n} {reply : RequestVoteReply}
    (hb : m.body = .requestVoteReply args reply) (hboot : (c.nodes m.caller).boot = m.boot)
    {rf : Raft n C} (hh : VoteReplyHandled gob (c.raft m.caller) args reply rf) :
    Moves gob c (.deliver k) ((c.setRpcs (c.rpcs.eraseIdx k)).setRaft m.caller rf)
      ((if args.term = (c.raft m.caller).currentTerm ∧ (c.raft m.caller).state = .candidate ∧
          reply.voteGranted then [.count m.caller args.term m.callee] else []) ++
        (if (c.raft m.caller).state ≠ .leader ∧ rf.state = .leader then
          [.lead m.caller rf.currentTerm] else [])) := by
  cases hh with
  | ignored h =>
    have hno : ¬ (args.term = (c.raft m.caller).currentTerm ∧
        (c.raft m.caller).state = .candidate ∧ reply.voteGranted = true) := by
      rintro ⟨ht, hs, hg⟩
      rcases h with h | h
      · exact h ⟨ht, hs⟩
      · simp [h] at hg
    rw [if_neg hno, if_neg (by simp)]
    exact .ignored m.caller k
  | counted ht hs hg hfew =>
    rw [if_pos ⟨ht, hs, hg⟩, if_neg (by simp [counting, hs])]
    exact .counted k m args reply hm hb hboot ht hs hg hfew
  | won et ht hs hg hmany =>
    rw [if_pos ⟨ht, hs, hg⟩, if_pos (by simp [leading, hs])]
    exact .won k m args reply et hm hb hboot ht hs hg hmany
  | behind et ps ht hg hps =>
    rw [if_neg (by simp [hg]), if_neg (by simp [Raft.behind])]
    exact .outrun k m reply.term et ps hm ht hps

theorem appendReply_moves (hc : Sound gob c) {k : Nat} {m : Rpc n C}
    (hm : c.rpcs[k]? = some m) {args : AppendEntriesArgs n C} {reply : AppendEntriesReply}
    (hb : m.body = .appendEntriesReply args reply) (h : c.deliver gob k m = some (c', es)) :
    Moves gob c (.deliver k) c' es := by
  simp only [Cluster.deliver, hb, decide_eq_true_eq] at h
  split at h
  · rename_i hboot
    rcases onAppendEntriesReply_handled gob (hc.wellFormed m.caller) m.callee args reply with
      ⟨rf, hr, hh⟩ | hr
    · rw [hr] at h
      simp only [settle, Option.some.injEq, Prod.mk.injEq] at h
      obtain ⟨rfl, rfl⟩ := h
      cases hh with
      | ignored => exact .ignored m.caller k
      | behind et ps ht hps => exact .outrun k m reply.term et ps hm ht hps
      | backedOff i ht hs hsucc hi =>
        exact .backedOff k m args reply i hm hb hboot ht hs hsucc hi
      | matched ci ht hs hsucc hci =>
        exact .matched k m args reply ci hm hb hboot ht hs hsucc hci
    · rw [hr] at h
      exact reboot_moves hc (List.eraseIdx_sublist ..) h
  · simp only [Option.some.injEq, Prod.mk.injEq] at h
    obtain ⟨rfl, rfl⟩ := h
    exact .lose k

theorem deliver_moves (hc : Sound gob c) {k : Nat} {m : Rpc n C}
    (hm : c.rpcs[k]? = some m) (h : c.deliver gob k m = some (c', es)) : Moves gob c (.deliver k) c' es := by
  cases hb : m.body with
  | appendEntries args => exact deliver_request_moves hc hm hb h
  | appendEntriesReply args reply => exact appendReply_moves hc hm hb h
  | requestVote args =>
    simp only [Cluster.deliver, hb, Option.some.injEq, Prod.mk.injEq] at h
    obtain ⟨rfl, rfl⟩ := h
    exact .voteHandled k m args _ _ hm hb ((c.raft m.callee).requestVote_handled gob args)
  | installSnapshot args =>
    obtain ⟨hh, hreply⟩ := installSnapshot_handled gob (hc.mirrored m.callee) args
    simp only [Cluster.deliver, hb, Option.some.injEq, Prod.mk.injEq] at h
    obtain ⟨rfl, rfl⟩ := h
    rw [hreply]
    exact .snapshotHandled k m args _ hm hb hh
  | requestVoteReply args reply =>
    simp only [Cluster.deliver, hb, decide_eq_true_eq] at h
    split at h
    · rename_i hboot
      obtain ⟨rfl, rfl⟩ := Prod.mk.inj (Option.some.inj h)
      exact voteReplyHandled_moves hm hb hboot
        ((c.raft m.caller).onRequestVoteReply_handled gob args reply)
    · simp only [Option.some.injEq, Prod.mk.injEq] at h
      obtain ⟨rfl, rfl⟩ := h
      exact .lose k
  | installSnapshotReply args reply =>
    simp only [Cluster.deliver, hb, decide_eq_true_eq] at h
    split at h
    · rename_i hboot
      simp only [Option.some.injEq, Prod.mk.injEq] at h
      obtain ⟨rfl, rfl⟩ := h
      have hh := (c.raft m.caller).onInstallSnapshotReply_handled gob m.callee args reply
      generalize (c.raft m.caller).onInstallSnapshotReply gob m.callee args reply = rf at hh ⊢
      cases hh with
      | ignored => exact .ignored m.caller k
      | behind et ps ht hps => exact .outrun k m reply.term et ps hm ht hps
      | recorded ht hs => exact .recorded k m args reply hm hb hboot ht hs
    · simp only [Option.some.injEq, Prod.mk.injEq] at h
      obtain ⟨rfl, rfl⟩ := h
      exact .lose k

/-- The calls of the service. -/
theorem snapshot_moves (hc : Sound gob c) {p : Fin n} {index : Nat} {data : Option Bytes}
    (h : c.step gob (.snapshot p index data) = some (c', es)) : Moves gob c (.snapshot p index data) c' es := by
  simp only [Cluster.step] at h
  split at h
  · rename_i hrec
    obtain ⟨rf, hr, ht⟩ := snapshot_taken gob (hc.wellFormed p) index data
    rw [hr] at h
    simp only [settle, Option.some.injEq, Prod.mk.injEq] at h
    obtain ⟨rfl, rfl⟩ := h
    cases ht with
    | rejected =>
      rw [setRaft_self]
      exact .idle p
    | taken e ps hf he hps => exact .snapshotTaken p index data e ps hrec hf he hps
  · simp at h

theorem condInstall_moves (hc : Sound gob c) {p : Fin n} {m : SnapshotMsg}
    (h : c.step gob (.condInstall p m) = some (c', es)) : Moves gob c (.condInstall p m) c' es := by
  simp only [Cluster.step] at h
  split at h
  · rename_i hrec
    rcases condInstallSnapshot_tried gob (hc.wellFormed p) m.snapshotTerm m.snapshotIndex
      m.snapshot with ⟨rf, result, hr, ht⟩ | hr
    · rw [hr] at h
      simp only [settle, Option.some.injEq, Prod.mk.injEq] at h
      obtain ⟨rfl, rfl⟩ := h
      cases ht with
      | outdated hci =>
        rw [setRaft_self]
        exact .outdated p m hrec hci
      | accepted ps hci hf hps => exact .installed p m ps hrec hci hf hps
    · rw [hr] at h
      exact reboot_moves hc (List.Sublist.refl _) h
  · simp at h

theorem copyBatch_moves (hc : Sound gob c) {p : Fin n} {spare : List (LogEntry C)}
    (h : c.step gob (.copyBatch p spare) = some (c', es)) : Moves gob c (.copyBatch p spare) c' es := by
  simp only [Cluster.step] at h
  split at h
  · rename_i hw
    split at h
    · rename_i hlt
      rcases (c.raft p).copyBatch_eq spare with ⟨hf, hlen, hr⟩ | hr
      · rw [hr] at h
        simp only [settle, Option.some.injEq, Prod.mk.injEq] at h
        obtain ⟨rfl, rfl⟩ := h
        exact .copied p spare hw hlt hf hlen
      · rw [hr] at h
        exact reboot_moves hc (List.Sublist.refl _) h
    · simp at h
  · simp at h

/-- Everything a step from a sound cluster can do is listed in `Moves`. -/
theorem step_moves (hc : Sound gob c) (h : c.step gob a = some (c', es)) :
    Moves gob c a c' es := by
  cases a with
  | fire p =>
    simp only [Cluster.step, Option.ite_none_right_eq_some, Option.some.injEq,
      Prod.mk.injEq] at h
    obtain ⟨_, rfl, rfl⟩ := h
    exact .timers p ⟨false, true⟩ (c.raft p).ticking
  | tick p =>
    simp only [Cluster.step, Option.ite_none_right_eq_some, Option.some.injEq,
      Prod.mk.injEq] at h
    obtain ⟨_, rfl, rfl⟩ := h
    exact .timers p { (c.raft p).electionTimer with ticked := false } true
  | elect p => exact elect_moves h
  | start p command => exact start_moves h
  | replicate p peer => exact replicate_moves hc h
  | deliver k =>
    simp only [Cluster.step] at h
    split at h
    · rename_i m hm
      exact deliver_moves hc hm h
    · simp at h
  | lose k =>
    simp only [Cluster.step, Option.some.injEq, Prod.mk.injEq] at h
    obtain ⟨rfl, rfl⟩ := h
    exact .lose k
  | snapshot p index data => exact snapshot_moves hc h
  | condInstall p m => exact condInstall_moves hc h
  | copyBatch p spare => exact copyBatch_moves hc h
  | sendEntry p =>
    simp only [Cluster.step, Cluster.sendEntry] at h
    split at h
    · rename_i ci e rest happ
      obtain ⟨rfl, rfl⟩ := Prod.mk.inj (Option.some.inj h)
      exact .sentEntry p ci e rest happ
    · simp at h
  | finishBatch p =>
    simp only [Cluster.step] at h
    split at h
    · rename_i ci happ
      obtain ⟨rfl, rfl⟩ := Prod.mk.inj (Option.some.inj h)
      exact .finished p ci happ
    · simp at h
  | sendSnapshot p k =>
    simp only [Cluster.step, Cluster.sendSnapshot] at h
    split at h
    · rename_i m hk
      obtain ⟨rfl, rfl⟩ := Prod.mk.inj (Option.some.inj h)
      exact .sentSnapshot p k m hk
    · simp at h
  | crash p => exact reboot_moves hc (List.Sublist.refl _) h

/-! ## Soundness is kept -/

theorem Sound.update (hc : Sound gob c) (p : Fin n)
    (hother : ∀ q, q ≠ p → c'.raft q = c.raft q) (hme : (c'.raft p).me = p)
    (hw : (c'.raft p).WellFormed) (hm : (c'.raft p).Mirrored gob)
    (hrpcs : ∀ m ∈ c'.rpcs, ∀ args, m.body = .appendEntries args → m ∈ c.rpcs ∨
      Contiguous (args.prevLogIndex + 1) args.entries) : Sound gob c' := by
  refine ⟨?_, ?_, ?_, ?_⟩
  · intro q
    by_cases hq : q = p
    · rw [hq]; exact hme
    · rw [hother q hq]; exact hc.me q
  · intro q
    by_cases hq : q = p
    · rw [hq]; exact hw
    · rw [hother q hq]; exact hc.wellFormed q
  · intro q
    by_cases hq : q = p
    · rw [hq]; exact hm
    · rw [hother q hq]; exact hc.mirrored q
  · intro m hmem args hb
    rcases hrpcs m hmem args hb with h | h
    · exact hc.entries m h args hb
    · exact h

theorem Sound.setRaft (hc : Sound gob c) {p : Fin n} {rf : Raft n C}
    (hme : rf.me = (c.raft p).me) (hw : rf.WellFormed) (hm : rf.Mirrored gob) :
    Sound gob (c.setRaft p rf) := by
  refine hc.update p (fun q hq => setRaft_raft_ne c p rf hq) ?_ ?_ ?_ ?_
  · rw [setRaft_raft_self, hme]; exact hc.me p
  · rwa [setRaft_raft_self]
  · rwa [setRaft_raft_self]
  · exact fun m hmem _ _ => .inl hmem

theorem Sound.setRpcs (hc : Sound gob c) {rpcs : List (Rpc n C)}
    (h : ∀ m ∈ rpcs, ∀ args, m.body = .appendEntries args → m ∈ c.rpcs ∨
      Contiguous (args.prevLogIndex + 1) args.entries) : Sound gob (c.setRpcs rpcs) := by
  refine ⟨hc.me, hc.wellFormed, hc.mirrored, ?_⟩
  intro m hmem args hb
  rcases h m hmem args hb with h | h
  · exact hc.entries m h args hb
  · exact h

theorem Sound.erased (hc : Sound gob c) (k : Nat) :
    Sound gob (c.setRpcs (c.rpcs.eraseIdx k)) :=
  hc.setRpcs fun _ hm _ _ => .inl (List.mem_of_mem_eraseIdx hm)

/-- An answered request carries no entries. -/
theorem Sound.answered (hc : Sound gob c) (k : Nat) (m : Rpc n C) (body : RpcBody n C)
    (h : ∀ args, body ≠ .appendEntries args) :
    Sound gob (c.setRpcs (c.rpcs.set k (m.answered body))) := by
  refine hc.setRpcs fun x hx args hb => ?_
  rcases List.mem_or_eq_of_mem_set hx with hx | rfl
  · exact .inl hx
  · exact absurd hb (h args)

theorem Raft.appending_wellFormed {rf : Raft n C} (hw : rf.WellFormed) (command : Option C)
    (ps : Persister) : (rf.appending command ps).WellFormed := by
  obtain ⟨es, hl, hes⟩ := hw.cons
  have hlast := hw.last_index
  have hl' : (rf.appending command ps).logs =
      rf.getFirstLog :: (es ++ [rf.newEntry command]) := by
    rw [appending_logs, hl, List.cons_append]
  refine wellFormed_of_cons hl' ?_
  rw [contiguous_append]
  rw [hl, List.length_cons] at hlast
  exact ⟨hes, by simp only [newEntry]; omega, trivial⟩

theorem Raft.cutLogs_wellFormed {rf rf' : Raft n C} (hw : rf.WellFormed) {t i : Nat}
    (hf : rf.getFirstLog.index ≤ i) (hl : rf'.logs = rf.cutLogs t i) : rf'.WellFormed := by
  refine wellFormed_of_cons hl ?_
  by_cases hlen : i + 1 - rf.getFirstLog.index ≤ rf.logs.length
  · have := hw.contiguous.drop hlen
    rwa [show rf.getFirstLog.index + (i + 1 - rf.getFirstLog.index) = i + 1 by omega] at this
  · rw [List.drop_eq_nil_of_le (by omega)]
    trivial

/-- A cut log ends where the log ended, or at the cut. -/
theorem Raft.cutLogs_lastIndex {rf : Raft n C} (hw : rf.WellFormed) {t i : Nat}
    (hf : rf.getFirstLog.index ≤ i) :
    lastIndex (rf.cutLogs t i) = max i rf.getLastLog.index := by
  have hw' : ({ rf with logs := rf.cutLogs t i } : Raft n C).WellFormed :=
    cutLogs_wellFormed hw hf rfl
  have hlast' : lastIndex (rf.cutLogs t i) + 1 = i + (rf.cutLogs t i).length := hw'.last_index
  have hlast := hw.last_index
  have hlen : (rf.cutLogs t i).length =
      rf.logs.length - (i + 1 - rf.getFirstLog.index) + 1 := by simp [cutLogs]
  omega

/-- An accepted request leaves the head of the log in place. -/
theorem Raft.accepting_cons {rf : Raft n C} (hw : rf.WellFormed)
    {args : AppendEntriesArgs n C} (hc : Contiguous (args.prevLogIndex + 1) args.entries)
    (hf : rf.getFirstLog.index ≤ args.prevLogIndex)
    (hprev : rf.logs[args.prevLogIndex - rf.getFirstLog.index]?.map LogEntry.term =
      some args.prevLogTerm) (v : Option (Fin n)) (et : Timer) (ps : Persister) :
    ∃ es, (rf.accepting args v et ps).logs = rf.getFirstLog :: es ∧
      Contiguous (rf.getFirstLog.index + 1) es := by
  obtain ⟨es, hl, hes⟩ := hw.cons
  obtain ⟨x, hx, _⟩ := Option.map_eq_some_iff.mp hprev
  have hlt := (List.getElem?_eq_some_iff.mp hx).1
  rw [hl, List.length_cons] at hlt
  obtain ⟨es', hsp, hes'⟩ := spliced_contiguous hes hc (by omega) (by omega)
  refine ⟨es', ?_, hes'⟩
  rw [accepting_logs, hl]
  exact hsp

theorem Raft.accepting_first {rf : Raft n C} (hw : rf.WellFormed)
    {args : AppendEntriesArgs n C} (hc : Contiguous (args.prevLogIndex + 1) args.entries)
    (hf : rf.getFirstLog.index ≤ args.prevLogIndex)
    (hprev : rf.logs[args.prevLogIndex - rf.getFirstLog.index]?.map LogEntry.term =
      some args.prevLogTerm) (v : Option (Fin n)) (et : Timer) (ps : Persister) :
    (rf.accepting args v et ps).getFirstLog = rf.getFirstLog := by
  obtain ⟨es, hl, _⟩ := accepting_cons hw hc hf hprev v et ps
  rw [getFirstLog, hl]
  rfl

theorem Raft.accepting_wellFormed {rf : Raft n C} (hw : rf.WellFormed)
    {args : AppendEntriesArgs n C} (hc : Contiguous (args.prevLogIndex + 1) args.entries)
    (hf : rf.getFirstLog.index ≤ args.prevLogIndex)
    (hprev : rf.logs[args.prevLogIndex - rf.getFirstLog.index]?.map LogEntry.term =
      some args.prevLogTerm) (v : Option (Fin n)) (et : Timer) (ps : Persister) :
    (rf.accepting args v et ps).WellFormed := by
  obtain ⟨es, hl, hes⟩ := accepting_cons hw hc hf hprev v et ps
  exact wellFormed_of_cons hl hes

theorem asked_contiguous {rf : Raft n C} (hw : rf.WellFormed) {peer : Fin n}
    {args : ReplicationArgs n C} (ha : Asked rf peer args) {a : AppendEntriesArgs n C}
    (hb : args.body = .appendEntries a) : Contiguous (a.prevLogIndex + 1) a.entries := by
  cases ha with
  | install hs hn => simp [ReplicationArgs.body] at hb
  | append i e hs hn hf he =>
    simp only [ReplicationArgs.body, RpcBody.appendEntries.injEq] at hb
    subst hb
    have hlt := (List.getElem?_eq_some_iff.mp he).1
    have := hw.contiguous.drop (show i + 1 - rf.getFirstLog.index ≤ rf.logs.length by omega)
    rwa [show rf.getFirstLog.index + (i + 1 - rf.getFirstLog.index) = i + 1 by omega] at this

theorem sound_moves (hc : Sound gob c) (h : Moves gob c a c' es) : Sound gob c' := by
  cases h with
  | timers p et tk =>
    exact hc.setRaft rfl ((hc.wellFormed p).of_logs rfl) (hc.mirrored p)
  | lose k => exact hc.erased k
  | reboot p rpcs hsub =>
    refine hc.update p (fun q hq => ?_) ?_ ?_ ?_ (fun m hm _ _ => .inl (hsub.subset hm))
    · rw [raft, restarted_nodes_ne c p rpcs hq]
    · rw [restarted_raft_self, fresh_me]
    · rw [restarted_raft_self]
      exact (hc.wellFormed p).of_logs rfl
    · rw [restarted_raft_self]
      exact hc.mirrored p
  | stand p et ps hps =>
    refine Sound.setRaft (hc.setRpcs fun m hm args hb => ?_) rfl
      ((hc.wellFormed p).of_logs rfl) hps
    rcases List.mem_append.mp hm with hm | hm
    · exact .inl hm
    · obtain ⟨q, _, rfl⟩ := List.mem_map.mp hm
      simp at hb
  | started p command ps hs hps =>
    exact hc.setRaft rfl (appending_wellFormed (hc.wellFormed p) command ps) hps
  | asked p peer args hne ha =>
    refine hc.setRpcs fun m hm a hb => ?_
    rcases List.mem_append.mp hm with hm | hm
    · exact .inl hm
    · rw [List.mem_singleton.mp hm] at hb
      exact .inr (asked_contiguous (hc.wellFormed p) ha hb)
  | voteHandled k m args rf reply hm hb hh =>
    have hc' := hc.answered k m (.requestVoteReply args reply) (by simp)
    cases hh with
    | refused =>
      exact hc'.setRaft rfl (hc.wellFormed m.callee) (hc.mirrored m.callee)
    | behind et ps ht hps =>
      exact hc'.setRaft rfl ((hc.wellFormed m.callee).of_logs rfl) hps
    | granted st et ps ht hst hst' hv hup hps =>
      exact hc'.setRaft rfl ((hc.wellFormed m.callee).of_logs rfl) hps
  | appendHandled k m args rf reply hm hb hh =>
    have hc' := hc.answered k m (.appendEntriesReply args reply) (by simp)
    cases hh with
    | stale ht => exact hc'.setRaft rfl (hc.wellFormed m.callee) (hc.mirrored m.callee)
    | refused v et ps reply ht hv hps hs hr hci =>
      exact hc'.setRaft rfl ((hc.wellFormed m.callee).of_logs rfl) hps
    | accepted v et ps ht hv hf hprev hps =>
      exact hc'.setRaft rfl (accepting_wellFormed (hc.wellFormed m.callee)
        (hc.entries m (List.mem_of_getElem? hm) args hb) hf hprev v et ps) hps
  | snapshotHandled k m args rf hm hb hh =>
    have hc' := hc.answered k m
      (.installSnapshotReply args ⟨(c.raft m.callee).currentTerm⟩) (by simp)
    cases hh with
    | stale ht => exact hc'.setRaft rfl (hc.wellFormed m.callee) (hc.mirrored m.callee)
    | ignored v et ps ht hv hps =>
      exact hc'.setRaft rfl ((hc.wellFormed m.callee).of_logs rfl) hps
    | queued v et ps ht hv hps hci =>
      exact hc'.setRaft rfl ((hc.wellFormed m.callee).of_logs rfl) hps
  | outrun k m t et ps hm ht hps =>
    exact (hc.erased k).setRaft rfl ((hc.wellFormed m.caller).of_logs rfl) hps
  | counted k m args reply =>
    exact (hc.erased k).setRaft rfl ((hc.wellFormed m.caller).of_logs rfl) (hc.mirrored m.caller)
  | won k m args reply et =>
    exact (hc.erased k).setRaft rfl ((hc.wellFormed m.caller).of_logs rfl) (hc.mirrored m.caller)
  | backedOff k m args reply i =>
    exact (hc.erased k).setRaft rfl ((hc.wellFormed m.caller).of_logs rfl) (hc.mirrored m.caller)
  | matched k m args reply ci =>
    exact (hc.erased k).setRaft rfl ((hc.wellFormed m.caller).of_logs rfl) (hc.mirrored m.caller)
  | recorded k m args reply =>
    exact (hc.erased k).setRaft rfl ((hc.wellFormed m.caller).of_logs rfl) (hc.mirrored m.caller)
  | snapshotTaken p index data e ps hrec hf he hps =>
    exact hc.setRaft rfl (cutLogs_wellFormed (hc.wellFormed p) hf.le rfl) hps
  | outdated p m hrec hci => exact hc
  | installed p m ps hrec hci hf hps =>
    exact hc.setRaft rfl (cutLogs_wellFormed (hc.wellFormed p) hf rfl) hps
  | copied p spare hw hlt hf hlen =>
    exact hc.setRaft rfl ((hc.wellFormed p).of_logs rfl) (hc.mirrored p)
  | sentEntry p ci e rest happ =>
    refine hc.update p (fun q hq => handed_raft_ne c p _ _ hq) ?_ ?_ ?_ (fun m hm _ _ => .inl hm)
    · rw [handed_raft_self]; exact hc.me p
    · rw [handed_raft_self]; exact (hc.wellFormed p).of_logs rfl
    · rw [handed_raft_self]; exact hc.mirrored p
  | finished p ci happ =>
    exact hc.setRaft rfl ((hc.wellFormed p).of_logs rfl) (hc.mirrored p)
  | sentSnapshot p k m hk =>
    refine hc.update p (fun q hq => handed_raft_ne c p _ _ hq) ?_ ?_ ?_ (fun m hm _ _ => .inl hm)
    · rw [handed_raft_self]; exact hc.me p
    · rw [handed_raft_self]; exact (hc.wellFormed p).of_logs rfl
    · rw [handed_raft_self]; exact hc.mirrored p

theorem sound_init : Sound gob (init : Cluster n C) where
  me _ := rfl
  wellFormed _ := wellFormed_of_cons rfl trivial
  mirrored _ := rfl
  entries _ hm := by simp [init] at hm

/-- A sound cluster stays sound. -/
theorem Sound.run {ok : Cluster n C → Action n C → Prop} {tr : List (Event n C)}
    (hc : Sound gob c) (h : Run (Cluster.step gob) ok c tr c') : Sound gob c' :=
  Run.invariant (fun _ c => Sound gob c) hc
    (fun _ _ _ _ _ hc _ hstep => sound_moves hc (step_moves hc hstep)) h

/-- Every state of every run is sound. -/
theorem sound_run {ok : Cluster n C → Action n C → Prop} {tr : List (Event n C)}
    (h : RunWhere gob ok tr c) : Sound gob c :=
  sound_init.run h

/-- The invariant rule for the cluster: it is enough to look at the moves of sound
clusters. -/
theorem RunWhere.invariant {ok : Cluster n C → Action n C → Prop} {tr : List (Event n C)}
    (I : List (Event n C) → Cluster n C → Prop) (h0 : I [] init)
    (hs : ∀ tr c a c' es, Sound gob c → I tr c → ok c a → c.step gob a = some (c', es) →
      Moves gob c a c' es → I (tr ++ es) c')
    (h : RunWhere gob ok tr c) : I tr c := by
  have hboth : Sound gob c ∧ I tr c := by
    refine Run.invariant (fun tr c => Sound gob c ∧ I tr c) ⟨sound_init, h0⟩ ?_ h
    rintro tr c a c' es ⟨hc, hi⟩ hok hstep
    have hm := step_moves hc hstep
    exact ⟨sound_moves hc hm, hs tr c a c' es hc hi hok hstep hm⟩
  exact hboth.2

/-! ## Where an RPC comes from -/

/-- An RPC after a move was under way before it, or is a vote request, a replication
request, or the answer to an RPC that was under way. -/
inductive Origin (gob : Gob n C) (c c' : Cluster n C) (m : Rpc n C) : Prop
  | old (h : m ∈ c.rpcs)
  | vote (hne : m.callee ≠ m.caller) (hb : m.body = .requestVote
      ⟨(c.raft m.caller).currentTerm + 1, (c.raft m.caller).me, (c.raft m.caller).getLastLog.index,
        (c.raft m.caller).getLastLog.term⟩)
  | asked (args : ReplicationArgs n C) (hb : m.body = args.body)
      (ha : Asked (c.raft m.caller) m.callee args) (hne : m.callee ≠ m.caller)
      (hboot : m.boot = (c.nodes m.caller).boot) (hsame : c'.raft m.caller = c.raft m.caller)
  | voted (m₀ : Rpc n C) (args : RequestVoteArgs n) (reply : RequestVoteReply)
      (hm₀ : m₀ ∈ c.rpcs) (hb : m₀.body = .requestVote args)
      (hm : m = m₀.answered (.requestVoteReply args reply))
      (hh : VoteHandled gob (c.raft m₀.callee) args (c'.raft m₀.callee) reply)
  | appended (m₀ : Rpc n C) (args : AppendEntriesArgs n C) (reply : AppendEntriesReply)
      (hm₀ : m₀ ∈ c.rpcs) (hb : m₀.body = .appendEntries args)
      (hm : m = m₀.answered (.appendEntriesReply args reply))
      (hh : AppendHandled gob (c.raft m₀.callee) args (c'.raft m₀.callee) reply)
  | snapshotted (m₀ : Rpc n C) (args : InstallSnapshotArgs n) (hm₀ : m₀ ∈ c.rpcs)
      (hb : m₀.body = .installSnapshot args)
      (hm : m = m₀.answered (.installSnapshotReply args ⟨(c.raft m₀.callee).currentTerm⟩))
      (hh : SnapshotHandled gob (c.raft m₀.callee) args (c'.raft m₀.callee))

theorem mem_broadcast {p : Fin n} {body : RpcBody n C} {m : Rpc n C}
    (h : m ∈ c.broadcast p body) :
    m.caller = p ∧ m.boot = (c.nodes p).boot ∧ m.callee ≠ p ∧ m.body = body := by
  obtain ⟨q, hq, rfl⟩ := List.mem_map.mp h
  exact ⟨rfl, rfl, by simpa using (List.mem_filter.mp hq).2, rfl⟩

theorem moves_origin (h : Moves gob c a c' es) {m : Rpc n C} (hm : m ∈ c'.rpcs) :
    Origin gob c c' m := by
  cases h with
  | reboot p rpcs hsub => exact .old (hsub.subset hm)
  | stand p et ps hps =>
    rcases List.mem_append.mp hm with hm | hm
    · exact .old hm
    · obtain ⟨rfl, _, hne, hb⟩ := mem_broadcast hm
      exact .vote hne hb
  | asked p peer args hne ha =>
    rcases List.mem_append.mp hm with hm | hm
    · exact .old hm
    · cases List.mem_singleton.mp hm
      exact .asked args rfl ha hne rfl rfl
  | voteHandled k m₀ args rf reply hk hb hh =>
    rcases List.mem_or_eq_of_mem_set hm with hm | hm
    · exact .old hm
    · exact .voted m₀ args reply (List.mem_of_getElem? hk) hb hm (by rwa [setRaft_raft_self])
  | appendHandled k m₀ args rf reply hk hb hh =>
    rcases List.mem_or_eq_of_mem_set hm with hm | hm
    · exact .old hm
    · exact .appended m₀ args reply (List.mem_of_getElem? hk) hb hm (by rwa [setRaft_raft_self])
  | snapshotHandled k m₀ args rf hk hb hh =>
    rcases List.mem_or_eq_of_mem_set hm with hm | hm
    · exact .old hm
    · exact .snapshotted m₀ args (List.mem_of_getElem? hk) hb hm (by rwa [setRaft_raft_self])
  | lose k => exact .old (List.mem_of_mem_eraseIdx hm)
  | outrun k m₀ t et ps => exact .old (List.mem_of_mem_eraseIdx hm)
  | counted k m₀ args reply => exact .old (List.mem_of_mem_eraseIdx hm)
  | won k m₀ args reply et => exact .old (List.mem_of_mem_eraseIdx hm)
  | backedOff k m₀ args reply i => exact .old (List.mem_of_mem_eraseIdx hm)
  | matched k m₀ args reply ci => exact .old (List.mem_of_mem_eraseIdx hm)
  | recorded k m₀ args reply => exact .old (List.mem_of_mem_eraseIdx hm)
  | timers p et tk => exact .old hm
  | started p command ps => exact .old hm
  | snapshotTaken p index data e ps => exact .old hm
  | outdated p m => exact .old hm
  | installed p m ps => exact .old hm
  | copied p spare => exact .old hm
  | sentEntry p ci e rest => exact .old hm
  | finished p ci => exact .old hm
  | sentSnapshot p k m => exact .old hm

end RaftImplementation
