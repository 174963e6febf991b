import RaftImplementation.Raft.Encoding
import RaftImplementation.Raft.Moves

/-!
# What a peer has is what its persister holds

Between critical sections a restart would find the term, the vote and the log the
peer has in memory, and a message leaves only after what it says is durable.
-/

namespace RaftImplementation

open Library Cluster Raft

variable {n : Nat} {C : Type}

/-- What the message says about its sender can be read back from the sender's
persister. -/
def Reflects (gob : Gob n C) (c : Cluster n C) (m : Rpc n C) : Prop :=
  match m.body with
  | .requestVote args => ∃ logs,
      durable gob (c.raft m.caller).persister = some (args.term, some args.candidateId, logs) ∧
      lastIndex logs = args.lastLogIndex ∧ (logs.getLastD .dummy).term = args.lastLogTerm
  | .requestVoteReply args reply => ∃ v logs,
      durable gob (c.raft m.callee).persister = some (reply.term, v, logs) ∧
      (reply.voteGranted = true → reply.term = args.term ∧ v = some args.candidateId)
  | .appendEntries args => ∃ v logs first e,
      durable gob (c.raft m.caller).persister = some (args.term, v, logs) ∧
      logs.head?.map LogEntry.index = some first ∧ logs[args.prevLogIndex - first]? = some e ∧
      e.index = args.prevLogIndex ∧ e.term = args.prevLogTerm ∧
      args.entries = logs.drop (args.prevLogIndex + 1 - first)
  | .appendEntriesReply args reply => ∃ v logs first,
      durable gob (c.raft m.callee).persister = some (reply.term, v, logs) ∧
      logs.head?.map LogEntry.index = some first ∧
      (reply.success = true → reply.term = args.term ∧
        ∀ e ∈ args.entries, logs[e.index - first]?.map LogEntry.term = some e.term)
  | .installSnapshot args => ∃ v e es,
      durable gob (c.raft m.caller).persister = some (args.term, v, e :: es) ∧
      e.index = args.lastIncludedIndex ∧ e.term = args.lastIncludedTerm ∧
      args.data = (c.raft m.caller).persister.snapshot
  | .installSnapshotReply args reply => ∃ v logs,
      durable gob (c.raft m.callee).persister = some (max reply.term args.term, v, logs)

/-- Every RPC after the step was under way before it or reflects its sender. -/
def SendsDurable (gob : Gob n C) (c c' : Cluster n C) : Prop :=
  ∃ kept sent, kept.Sublist c.rpcs ∧ c'.rpcs.Perm (kept ++ sent) ∧ ∀ m ∈ sent, Reflects gob c' m

variable {gob : Gob n C} {c c' : Cluster n C} {a : Action n C} {es : List (Event n C)}

theorem SendsDurable.nothing (h : c'.rpcs.Sublist c.rpcs) : SendsDurable gob c c' :=
  ⟨c'.rpcs, [], h, by simp, by simp⟩

/-- A request is replaced by its reply. -/
theorem SendsDurable.replied {k : Nat} {m x : Rpc n C} (hm : c.rpcs[k]? = some m)
    (hc' : c'.rpcs = c.rpcs.set k x) (h : Reflects gob c' x) : SendsDurable gob c c' := by
  refine ⟨c.rpcs.eraseIdx k, [x], List.eraseIdx_sublist .., ?_, by simpa using h⟩
  have hk := (List.getElem?_eq_some_iff.mp hm).1
  rw [hc', List.eraseIdx_eq_take_drop_succ, List.set_eq_take_append_cons_drop, if_pos hk,
    List.append_assoc]
  exact (List.perm_append_singleton ..).symm.append_left _

theorem Raft.WellFormed.head_index {rf : Raft n C} (hw : rf.WellFormed) :
    rf.logs.head?.map LogEntry.index = some rf.getFirstLog.index := by
  obtain ⟨es, hl, _⟩ := hw.cons
  rw [hl]
  rfl

theorem asked_reflects (hc : Sound gob c) (hc' : Sound gob c') {p peer : Fin n}
    (hp : c'.raft p = c.raft p) {args : ReplicationArgs n C} (ha : Asked (c.raft p) peer args)
    {m : Rpc n C} (hm : m.caller = p) (hb : m.body = args.body) : Reflects gob c' m := by
  have hd := hc'.mirrored p
  have hw := hc.wellFormed p
  subst hm
  cases ha with
  | install hs hn =>
    obtain ⟨es, hl, _⟩ := hw.cons
    simp only [Reflects, hb, ReplicationArgs.body]
    refine ⟨(c.raft m.caller).votedFor, (c.raft m.caller).getFirstLog, es, ?_, rfl, rfl, ?_⟩
    · rw [← hl, hd, hp]
      rfl
    · rw [hp]
      rfl
  | append i e hs hn hf he =>
    simp only [Reflects, hb, ReplicationArgs.body]
    refine ⟨(c.raft m.caller).votedFor, (c.raft m.caller).logs, _, e, ?_, hw.head_index, he, ?_,
      rfl, rfl⟩
    · rw [hd, hp]
    · have := hw.contiguous.get he
      omega

theorem appendHandled_reflects (hc : Sound gob c) (hc' : Sound gob c')
    {m : Rpc n C} (hmem : m ∈ c.rpcs) {args : AppendEntriesArgs n C} {rf : Raft n C}
    {reply : AppendEntriesReply} (hb : m.body = .appendEntries args)
    (hh : AppendHandled gob (c.raft m.callee) args rf reply) (hrf : c'.raft m.callee = rf) :
    Reflects gob c' (m.answered (.appendEntriesReply args reply)) := by
  have hd := hc'.mirrored m.callee
  have hw := hc'.wellFormed m.callee
  have hw₀ := hc.wellFormed m.callee
  simp only [Reflects, Rpc.answered]
  rw [hrf] at hd hw ⊢
  refine ⟨rf.votedFor, rf.logs, rf.getFirstLog.index, ?_, hw.head_index, ?_⟩
  · rw [hd]
    cases hh with
    | stale ht => rfl
    | refused v et ps reply ht hv hps hs hr hci => rw [hr]; rfl
    | accepted v et ps ht hv hf hprev hps => rfl
  · intro hs
    cases hh with
    | stale ht => cases hs
    | refused v et ps reply ht hv hps hs' => rw [hs'] at hs; cases hs
    | accepted v et ps ht hv hf hprev hps =>
      refine ⟨rfl, fun e he => ?_⟩
      obtain ⟨x, hx, _⟩ := Option.map_eq_some_iff.mp hprev
      have hlt := (List.getElem?_eq_some_iff.mp hx).1
      have hcont := hc.entries m hmem args hb
      have hfirst := accepting_first hw₀ hcont hf hprev v et ps
      rw [hfirst, accepting_logs]
      exact spliced_get hcont (by omega) (by omega) he

theorem moves_sendsDurable (hc : Sound gob c) (h : Moves gob c a c' es) :
    SendsDurable gob c c' := by
  have hc' := sound_moves hc h
  cases h with
  | timers p et tk => exact .nothing (List.Sublist.refl _)
  | lose k => exact .nothing (List.eraseIdx_sublist ..)
  | reboot p rpcs hsub => exact .nothing hsub
  | stand p et ps hps =>
    refine ⟨c.rpcs, _, List.Sublist.refl _, List.Perm.refl _, fun m hm => ?_⟩
    obtain ⟨q, _, rfl⟩ := List.mem_map.mp hm
    refine ⟨(c.raft p).logs, ?_, rfl, rfl⟩
    rw [setRaft_raft_self]
    exact hps
  | started p command ps hs hps => exact .nothing (List.Sublist.refl _)
  | asked p peer args hne ha =>
    refine ⟨c.rpcs, _, List.Sublist.refl _, List.Perm.refl _, fun m hm => ?_⟩
    rw [List.mem_singleton.mp hm]
    exact asked_reflects hc hc' rfl ha rfl rfl
  | voteHandled k m args rf reply hm hb hh =>
    refine .replied hm rfl ?_
    have hd := hc'.mirrored m.callee
    simp only [Reflects, Rpc.answered]
    rw [setRaft_raft_self] at hd ⊢
    refine ⟨rf.votedFor, rf.logs, ?_, fun hg => ?_⟩
    · rw [hd]
      cases hh with
      | refused => rfl
      | behind et ps ht hps => rfl
      | granted st et ps ht hst hst' hv hup hps => rfl
    · cases hh with
      | refused => cases hg
      | behind et ps ht hps => cases hg
      | granted st et ps ht hst hst' hv hup hps => exact ⟨rfl, rfl⟩
  | appendHandled k m args rf reply hm hb hh =>
    exact .replied hm rfl (appendHandled_reflects hc hc' (List.mem_of_getElem? hm) hb hh
      (setRaft_raft_self ..))
  | snapshotHandled k m args rf hm hb hh =>
    refine .replied hm rfl ?_
    have hd := hc'.mirrored m.callee
    simp only [Reflects, Rpc.answered]
    rw [setRaft_raft_self] at hd ⊢
    refine ⟨rf.votedFor, rf.logs, ?_⟩
    rw [hd]
    cases hh with
    | stale ht => rw [Nat.max_eq_left ht.le]
    | ignored v et ps ht hv hps => rw [Nat.max_eq_right ht]; rfl
    | queued v et ps ht hv hps hci => rw [Nat.max_eq_right ht]; rfl
  | outrun k m t et ps => exact .nothing (List.eraseIdx_sublist ..)
  | counted k m args reply => exact .nothing (List.eraseIdx_sublist ..)
  | won k m args reply et => exact .nothing (List.eraseIdx_sublist ..)
  | backedOff k m args reply i => exact .nothing (List.eraseIdx_sublist ..)
  | matched k m args reply ci => exact .nothing (List.eraseIdx_sublist ..)
  | recorded k m args reply => exact .nothing (List.eraseIdx_sublist ..)
  | snapshotTaken p index data e ps => exact .nothing (List.Sublist.refl _)
  | outdated p m => exact .nothing (List.Sublist.refl _)
  | installed p m ps => exact .nothing (List.Sublist.refl _)
  | copied p spare => exact .nothing (List.Sublist.refl _)
  | sentEntry p ci e rest => exact .nothing (List.Sublist.refl _)
  | finished p ci => exact .nothing (List.Sublist.refl _)
  | sentSnapshot p k m => exact .nothing (List.Sublist.refl _)

/-- In every state of every run the persister of a peer holds its term, vote and log;
a crash there loses none of them; and what a step sends is durable when it is sent. -/
theorem persister_mirrors {tr : List (Event n C)} (h : ClusterRun gob tr c) :
    (∀ p, ∃ rf, make gob p (c.raft p).persister = some rf ∧
      rf.currentTerm = (c.raft p).currentTerm ∧ rf.votedFor = (c.raft p).votedFor ∧
      rf.logs = (c.raft p).logs) ∧
    (∀ p, ∃ c' es, c.step gob (.crash p) = some (c', es) ∧
      (c'.raft p).currentTerm = (c.raft p).currentTerm ∧
      (c'.raft p).votedFor = (c.raft p).votedFor ∧ (c'.raft p).logs = (c.raft p).logs) ∧
    (∀ a c' es, c.step gob a = some (c', es) → SendsDurable gob c c') := by
  have hc := sound_run h
  refine ⟨fun p => ?_, fun p => ?_, fun a c' es hstep => ?_⟩
  · exact ⟨_, make_eq_fresh gob (hc.mirrored p), rfl, rfl, rfl⟩
  · refine ⟨c.restarted p c.rpcs,
      [.booted p ((c.nodes p).boot + 1) (c.raft p).getFirstLog.index], ?_, ?_⟩
    · simp only [Cluster.step, reboot]
      rw [make_eq_fresh gob (hc.mirrored p), Option.map_some]
      rfl
    · rw [restarted_raft_self]
      exact ⟨rfl, rfl, rfl⟩
  · exact moves_sendsDurable hc (step_moves hc hstep)

/-- Peer 0 wins the first election, appends an entry and sends it to peer 1. -/
def oneEntryOfThree : List (Action 3 Nat) :=
  Action.timeout 0 ++ [.deliver 0, .deliver 0, .start 0 (some 7), .replicate 0 1]

theorem persister_mirrors_of_three :
    ((ran (natGob 3) always oneEntryOfThree).1.raft 0).logs = [.dummy, ⟨some 7, 1, 1⟩] ∧
      ∃ rf, make (natGob 3) 0 ((ran (natGob 3) always oneEntryOfThree).1.raft 0).persister =
          some rf ∧ rf.logs = [.dummy, ⟨some 7, 1, 1⟩] := by
  have hrun : ClusterRun (natGob 3) (ran (natGob 3) always oneEntryOfThree).2
      (ran (natGob 3) always oneEntryOfThree).1 := reached_run (by decide +kernel)
  have hlogs : ((ran (natGob 3) always oneEntryOfThree).1.raft 0).logs =
      [.dummy, ⟨some 7, 1, 1⟩] := by decide +kernel
  obtain ⟨rf, hmake, _, _, hl⟩ := (persister_mirrors hrun).1 0
  exact ⟨hlogs, rf, hmake, hl.trans hlogs⟩

end RaftImplementation
