import RaftImplementation.Raft.Moves

/-!
# Which critical section a step runs

`Moves` describes a step by its effect on terms, votes, logs and messages, and
forgets how the election timer was left and which snapshot the persister keeps.
`Ran` names the function of the source that ran on a peer instead. What a property
of those two fields needs is one lemma for each function and a split on `Ran`.
-/

namespace RaftImplementation

open Cluster Raft

variable {n : Nat} {C : Type}

/-- What an action runs on peer `q` of `c`, and the process it leaves there. A peer
that is restarted runs nothing. -/
inductive Ran (gob : Gob n C) (c : Cluster n C) (q : Fin n) : Action n C → Raft n C → Prop
  | idle {a : Action n C} : Ran gob c q a (c.raft q)
  | fire (h : (c.raft q).electionTimer.running = true) :
      Ran gob c q (.fire q) { c.raft q with electionTimer := ⟨false, true⟩ }
  | tick (h : (c.raft q).electionTimer.ticked = true) :
      Ran gob c q (.tick q) { c.raft q with
        electionTimer := { (c.raft q).electionTimer with ticked := false }, ticking := true }
  | elect (h : (c.raft q).ticking = true) :
      Ran gob c q (.elect q) ((c.raft q).electionTimeout gob).1
  | start (command : Option C) :
      Ran gob c q (.start q command) ((c.raft q).start gob command).1
  | requestVote (k : Nat) (m : Rpc n C) (args : RequestVoteArgs n) (hm : c.rpcs[k]? = some m)
      (hb : m.body = .requestVote args) (hq : m.callee = q) :
      Ran gob c q (.deliver k) ((c.raft q).requestVote gob args).1
  | appendEntries (k : Nat) (m : Rpc n C) (args : AppendEntriesArgs n C) (rf : Raft n C)
      (reply : AppendEntriesReply) (hm : c.rpcs[k]? = some m) (hb : m.body = .appendEntries args)
      (hq : m.callee = q) (h : (c.raft q).appendEntries gob args = .ok (rf, reply)) :
      Ran gob c q (.deliver k) rf
  | installSnapshot (k : Nat) (m : Rpc n C) (args : InstallSnapshotArgs n)
      (hm : c.rpcs[k]? = some m) (hb : m.body = .installSnapshot args) (hq : m.callee = q) :
      Ran gob c q (.deliver k) ((c.raft q).installSnapshot gob args).1
  | onRequestVoteReply (k : Nat) (m : Rpc n C) (args : RequestVoteArgs n)
      (reply : RequestVoteReply) (hm : c.rpcs[k]? = some m)
      (hb : m.body = .requestVoteReply args reply) (hq : m.caller = q)
      (hboot : (c.nodes q).boot = m.boot) :
      Ran gob c q (.deliver k) ((c.raft q).onRequestVoteReply gob args reply)
  | onAppendEntriesReply (k : Nat) (m : Rpc n C) (args : AppendEntriesArgs n C)
      (reply : AppendEntriesReply) (rf : Raft n C) (hm : c.rpcs[k]? = some m)
      (hb : m.body = .appendEntriesReply args reply) (hq : m.caller = q)
      (h : (c.raft q).onAppendEntriesReply gob m.callee args reply = .ok rf) :
      Ran gob c q (.deliver k) rf
  | onInstallSnapshotReply (k : Nat) (m : Rpc n C) (args : InstallSnapshotArgs n)
      (reply : InstallSnapshotReply) (hm : c.rpcs[k]? = some m)
      (hb : m.body = .installSnapshotReply args reply) (hq : m.caller = q) :
      Ran gob c q (.deliver k) ((c.raft q).onInstallSnapshotReply gob m.callee args reply)
  | snapshot (index : Nat) (data : Option Bytes) (rf : Raft n C)
      (h : (c.raft q).snapshot gob index data = .ok rf) :
      Ran gob c q (.snapshot q index data) rf
  | condInstallSnapshot (m : SnapshotMsg) (rf : Raft n C) (result : Bool)
      (hrec : receivedSnapshot (c.nodes q) m = true)
      (h : (c.raft q).condInstallSnapshot gob m.snapshotTerm m.snapshotIndex m.snapshot =
        .ok (rf, result)) :
      Ran gob c q (.condInstall q m) rf
  | applier {a : Action n C} (ap : Applier C) (i : Nat) :
      Ran gob c q a { c.raft q with applier := ap, lastApplied := i }
  | sendSnapshot (k : Nat) :
      Ran gob c q (.sendSnapshot q k) ((c.raft q).unqueueing k)

/-- The peer either ran a section in the same boot, or was restarted from its persister. -/
def RanOrRestarted (gob : Gob n C) (c c' : Cluster n C) (a : Action n C) (q : Fin n) : Prop :=
  ((c'.nodes q).boot = (c.nodes q).boot ∧ Ran gob c q a (c'.raft q)) ∨
    ((c'.nodes q).boot = (c.nodes q).boot + 1 ∧
      make gob q (c.raft q).persister = some (c'.raft q))

variable {gob : Gob n C} {c c' : Cluster n C} {a : Action n C} {es : List (Event n C)}

theorem ran_idle {rpcs : List (Rpc n C)} (q : Fin n) :
    RanOrRestarted gob c (c.setRpcs rpcs) a q := .inl ⟨rfl, .idle⟩

theorem ran_setRaft {p : Fin n} {rf : Raft n C} {rpcs : List (Rpc n C)} (h : Ran gob c p a rf)
    (q : Fin n) : RanOrRestarted gob c ((c.setRpcs rpcs).setRaft p rf) a q := by
  left
  by_cases hq : q = p
  · subst hq
    rw [setRaft_raft_self]
    exact ⟨by simp [setRaft], h⟩
  · rw [setRaft_raft_ne _ p rf hq]
    exact ⟨by simp [setRaft, hq], .idle⟩

theorem ran_receive {p : Fin n} {rf : Raft n C} {m : ApplyMsg C} (h : Ran gob c p a rf)
    (q : Fin n) : RanOrRestarted gob c (c.receive p rf m).1 a q := by
  left
  by_cases hq : q = p
  · subst hq
    simpa [receive, raft] using h
  · simpa [receive, raft, hq] using Ran.idle

theorem ran_reboot {p : Fin n} {rpcs : List (Rpc n C)}
    (h : (c.setRpcs rpcs).reboot gob p (c.raft p).persister = some (c', es)) (q : Fin n) :
    RanOrRestarted gob c c' a q := by
  simp only [reboot, Option.map_eq_some_iff, Prod.mk.injEq] at h
  obtain ⟨rf, hmake, rfl, -⟩ := h
  by_cases hq : q = p
  · subst hq
    right
    simpa [raft] using hmake
  · left
    simpa [raft, hq] using Ran.idle

/-- A section that may panic. The relations of `Effects` say that a panic leaves the
persister as it was, or that there is none. -/
theorem ran_settle {α : Type} {p : Fin n} {rpcs : List (Rpc n C)} {r : Section α}
    {k : α → Cluster n C × List (Event n C)}
    (h : (c.setRpcs rpcs).settle gob p r k = some (c', es))
    (herr : ∀ ps, r = .error ps → ps = (c.raft p).persister)
    (hok : ∀ x, r = .ok x → ∀ q, RanOrRestarted gob c (k x).1 a q) (q : Fin n) :
    RanOrRestarted gob c c' a q := by
  cases r with
  | error ps =>
    rw [settle, herr ps rfl] at h
    exact ran_reboot h q
  | ok x =>
    rw [settle, Option.some.injEq] at h
    have hx := hok x rfl q
    rwa [h] at hx

theorem replicate_ran {p peer : Fin n} (h : c.replicate gob p peer = some (c', es))
    (q : Fin n) : RanOrRestarted gob c c' (.replicate p peer) q := by
  unfold Cluster.replicate at h
  split at h
  · simp at h
  · refine ran_settle h ?_ ?_ q
    · intro ps hps
      rcases (c.raft p).replicateOnceRound_asked peer with ⟨_, hr⟩ | ⟨args, hr, _⟩ | hr
      · rw [hr] at hps
        simp at hps
      · rw [hr] at hps
        simp at hps
      · rw [hr] at hps
        exact (Except.error.inj hps).symm
    · intro x _ q
      cases x with
      | none => exact .inl ⟨rfl, .idle⟩
      | some args =>
        cases args with
        | install args => exact ran_idle q
        | append args => exact ran_idle q

theorem deliver_ran (hc : Sound gob c) {k : Nat} {m : Rpc n C} (hm : c.rpcs[k]? = some m)
    (h : c.deliver gob k m = some (c', es)) (q : Fin n) :
    RanOrRestarted gob c c' (.deliver k) q := by
  cases hb : m.body with
  | requestVote args =>
    simp only [Cluster.deliver, hb, Option.some.injEq, Prod.mk.injEq] at h
    obtain ⟨rfl, -⟩ := h
    exact ran_setRaft (.requestVote k m args hm hb rfl) q
  | appendEntries args =>
    simp only [Cluster.deliver, hb] at h
    obtain ⟨rf, reply, happ, -⟩ := appendEntries_handled gob (hc.wellFormed m.callee)
      (hc.mirrored m.callee) (hc.entries m (List.mem_of_getElem? hm) args hb)
    rw [happ] at h
    simp only [settle, Option.some.injEq, Prod.mk.injEq] at h
    obtain ⟨rfl, -⟩ := h
    exact ran_setRaft (.appendEntries k m args rf reply hm hb rfl happ) q
  | installSnapshot args =>
    simp only [Cluster.deliver, hb, Option.some.injEq, Prod.mk.injEq] at h
    obtain ⟨rfl, -⟩ := h
    exact ran_setRaft (.installSnapshot k m args hm hb rfl) q
  | requestVoteReply args reply =>
    simp only [Cluster.deliver, hb, decide_eq_true_eq] at h
    split at h
    · rename_i hboot
      simp only [countVote, Option.some.injEq, Prod.mk.injEq] at h
      obtain ⟨rfl, -⟩ := h
      exact ran_setRaft (.onRequestVoteReply k m args reply hm hb rfl hboot) q
    · simp only [Option.some.injEq, Prod.mk.injEq] at h
      obtain ⟨rfl, -⟩ := h
      exact ran_idle q
  | appendEntriesReply args reply =>
    simp only [Cluster.deliver, hb, decide_eq_true_eq] at h
    split at h
    · rcases onAppendEntriesReply_handled gob (hc.wellFormed m.caller) m.callee args reply with
        ⟨rf, hr, -⟩ | hr
      · rw [hr] at h
        simp only [settle, Option.some.injEq, Prod.mk.injEq] at h
        obtain ⟨rfl, -⟩ := h
        exact ran_setRaft (.onAppendEntriesReply k m args reply rf hm hb rfl hr) q
      · rw [hr] at h
        exact ran_reboot h q
    · simp only [Option.some.injEq, Prod.mk.injEq] at h
      obtain ⟨rfl, -⟩ := h
      exact ran_idle q
  | installSnapshotReply args reply =>
    simp only [Cluster.deliver, hb, decide_eq_true_eq] at h
    split at h
    · simp only [Option.some.injEq, Prod.mk.injEq] at h
      obtain ⟨rfl, -⟩ := h
      exact ran_setRaft (.onInstallSnapshotReply k m args reply hm hb rfl) q
    · simp only [Option.some.injEq, Prod.mk.injEq] at h
      obtain ⟨rfl, -⟩ := h
      exact ran_idle q

theorem snapshot_ran (hc : Sound gob c) {p : Fin n} {index : Nat} {data : Option Bytes}
    (h : c.step gob (.snapshot p index data) = some (c', es)) (q : Fin n) :
    RanOrRestarted gob c c' (.snapshot p index data) q := by
  simp only [Cluster.step] at h
  split at h
  · obtain ⟨rf, hr, -⟩ := snapshot_taken gob (hc.wellFormed p) index data
    rw [hr] at h
    simp only [settle, Option.some.injEq, Prod.mk.injEq] at h
    obtain ⟨rfl, -⟩ := h
    exact ran_setRaft (.snapshot index data rf hr) q
  · simp at h

theorem condInstall_ran (hc : Sound gob c) {p : Fin n} {m : SnapshotMsg}
    (h : c.step gob (.condInstall p m) = some (c', es)) (q : Fin n) :
    RanOrRestarted gob c c' (.condInstall p m) q := by
  simp only [Cluster.step] at h
  split at h
  · rename_i hrec
    rcases condInstallSnapshot_tried gob (hc.wellFormed p) m.snapshotTerm m.snapshotIndex
      m.snapshot with ⟨rf, result, hr, -⟩ | hr
    · rw [hr] at h
      simp only [settle, Option.some.injEq, Prod.mk.injEq] at h
      obtain ⟨rfl, -⟩ := h
      exact ran_setRaft (.condInstallSnapshot m rf result hrec hr) q
    · rw [hr] at h
      exact ran_reboot h q
  · simp at h

theorem copyBatch_ran {p : Fin n} {spare : List (LogEntry C)}
    (h : c.step gob (.copyBatch p spare) = some (c', es)) (q : Fin n) :
    RanOrRestarted gob c c' (.copyBatch p spare) q := by
  simp only [Cluster.step] at h
  split at h
  · split at h
    · rcases (c.raft p).copyBatch_eq spare with ⟨-, -, hr⟩ | hr
      · rw [hr] at h
        simp only [settle, Option.some.injEq, Prod.mk.injEq] at h
        obtain ⟨rfl, -⟩ := h
        exact ran_setRaft (.applier _ (c.raft p).lastApplied) q
      · rw [hr] at h
        exact ran_reboot h q
    · simp at h
  · simp at h

/-- Every step of a sound cluster is, for every peer, a section of the source or a
restart. -/
theorem step_ran (hc : Sound gob c) (h : c.step gob a = some (c', es)) (q : Fin n) :
    RanOrRestarted gob c c' a q := by
  cases a with
  | fire p =>
    simp only [Cluster.step, Option.ite_none_right_eq_some, Option.some.injEq,
      Prod.mk.injEq] at h
    obtain ⟨hrun, rfl, -⟩ := h
    exact ran_setRaft (.fire hrun) q
  | tick p =>
    simp only [Cluster.step, Option.ite_none_right_eq_some, Option.some.injEq,
      Prod.mk.injEq] at h
    obtain ⟨⟨hticked, -⟩, rfl, -⟩ := h
    exact ran_setRaft (.tick hticked) q
  | elect p =>
    simp only [Cluster.step, Cluster.elect, Option.ite_none_right_eq_some, Option.some.injEq,
      Prod.mk.injEq] at h
    obtain ⟨hticking, rfl, -⟩ := h
    exact ran_setRaft (.elect hticking) q
  | start p command =>
    simp only [Cluster.step, Cluster.start] at h
    have hran : Ran gob c p (.start p command) ((c.raft p).start gob command).1 := .start command
    split at h
    · rename_i rf index term hst
      obtain ⟨rfl, -⟩ := Prod.mk.inj (Option.some.inj h)
      rw [hst] at hran
      exact ran_setRaft hran q
    · rename_i rf hst
      obtain ⟨rfl, -⟩ := Prod.mk.inj (Option.some.inj h)
      rw [hst] at hran
      exact ran_setRaft hran q
  | replicate p peer => exact replicate_ran h q
  | deliver k =>
    simp only [Cluster.step] at h
    split at h
    · rename_i m hm
      exact deliver_ran hc hm h q
    · simp at h
  | lose k =>
    simp only [Cluster.step, Option.some.injEq, Prod.mk.injEq] at h
    obtain ⟨rfl, -⟩ := h
    exact ran_idle q
  | snapshot p index data => exact snapshot_ran hc h q
  | condInstall p m => exact condInstall_ran hc h q
  | copyBatch p spare => exact copyBatch_ran h q
  | sendEntry p =>
    simp only [Cluster.step, Cluster.sendEntry] at h
    split at h
    · rename_i ci e rest happ
      rw [Option.some.injEq] at h
      obtain rfl := (congrArg Prod.fst h).symm
      exact ran_receive (.applier _ (c.raft p).lastApplied) q
    · simp at h
  | finishBatch p =>
    simp only [Cluster.step] at h
    split at h
    · obtain ⟨rfl, -⟩ := Prod.mk.inj (Option.some.inj h)
      exact ran_setRaft (.applier .waiting _) q
    · simp at h
  | sendSnapshot p k =>
    simp only [Cluster.step, Cluster.sendSnapshot] at h
    split at h
    · rw [Option.some.injEq] at h
      obtain rfl := (congrArg Prod.fst h).symm
      exact ran_receive (.sendSnapshot k) q
    · simp at h
  | crash p => exact ran_reboot h q

end RaftImplementation
