import RaftImplementation.Raft.Indices
import RaftImplementation.Raft.Simulation

/-!
# State machine safety and replication knowledge

What the simulation says about the services and about the leaders' records. Services
never see two commands at one index, and a leader's `matchIndex` is true of every peer
in its term, as long as the records of an earlier leadership of the same process do
not carry over. They do: `StartElection` resets neither `nextIndex` nor `matchIndex`.
-/

namespace RaftImplementation

open Library Library.ReplicatedLog Cluster Raft

variable {n : Nat} {C : Type} {gob : Gob n C} {c : Cluster n C} {tr : List (Event n C)}

/-! ## State machine safety -/

/-- Decided entries with the same index are the same. -/
theorem DecidedEntry.unique {A : Protocol n C} (hi : Inv A) {e e' : LogEntry C}
    (h : DecidedEntry A e) (h' : DecidedEntry A e') (heq : e.index = e'.index) :
    e.term = e'.term ∧ e.command = e'.command := by
  obtain ⟨D, hD, _, hget⟩ := h
  obtain ⟨E, hE, _, hget'⟩ := h'
  rw [heq] at hget
  have hlt := (List.getElem?_eq_some_iff.mp hget).1
  have hlt' := (List.getElem?_eq_some_iff.mp hget').1
  have hsame : D[e'.index - 1]? = E[e'.index - 1]? := by
    rcases hi.decided_comparable hD hE with ⟨X, rfl⟩ | ⟨X, rfl⟩
    · rw [List.getElem?_append_left hlt]
    · rw [List.getElem?_append_left hlt']
  rw [hget, hget', Option.some.injEq, Prod.mk.injEq] at hsame
  exact hsame

/-- In every run in which whoever wins an election has no `matchIndex` beyond its log,
two commands that any services receive with the same index are the same. -/
theorem state_machine_safety (h : RunWhere gob MatchIndexFits tr c) {p q : Fin n}
    {b b' i t t' : Nat} {command command' : Option C}
    (hp : Event.received p b (.command command i t) ∈ tr)
    (hq : Event.received q b' (.command command' i t') ∈ tr) : t = t' ∧ command = command' := by
  obtain ⟨A, S, hr⟩ := refines_run False (fun _ _ hok => hok) (fun _ _ _ => False.elim) h
  exact (hr.applied p b command i t hp).unique hr.inv (hr.applied q b' command' i t' hq) rfl

/-- Peer 0 leads three peers; it and peer 1 deliver the first command. -/
def appliedTwice : List (Action 3 Nat) :=
  [Action.timeout 0, [.deliver 0, .deliver 0, .lose 0],
    [.start 0 (some 7), .replicate 0 1, .deliver 0, .deliver 0],
    [.copyBatch 0 [], .sendEntry 0, .replicate 0 1, .deliver 0],
    [.copyBatch 1 [], .sendEntry 1]].flatten

/-- Whatever the service of peer 1 receives at index 1 is what that of peer 0 has received. -/
theorem state_machine_safety_of_three :
    Event.received 0 0 (.command (some 7) 1 1) ∈
        (ran (natGob 3) MatchIndexFits appliedTwice).2 ∧
      (∃ b command t, Event.received 1 b (.command command 1 t) ∈
        (ran (natGob 3) MatchIndexFits appliedTwice).2) ∧
      ∀ b command t, Event.received 1 b (.command command 1 t) ∈
        (ran (natGob 3) MatchIndexFits appliedTwice).2 → 1 = t ∧ some 7 = command := by
  have hrun : RunWhere (natGob 3) MatchIndexFits (ran (natGob 3) MatchIndexFits appliedTwice).2
      (ran (natGob 3) MatchIndexFits appliedTwice).1 := reached_run (by decide +kernel)
  have h₀ : Event.received 0 0 (.command (some 7) 1 1) ∈
      (ran (natGob 3) MatchIndexFits appliedTwice).2 := by decide +kernel
  exact ⟨h₀, ⟨0, some 7, 1, by decide +kernel⟩, fun b command t => state_machine_safety hrun h₀⟩

/-- The re-elected leader of `staleLeader` believes that peer 1 has index 2. It appends an
entry there and commits it as soon as peer 2 answers its first heartbeat. Peer 2, which
does not have the entry, is then elected and commits another one. -/
def committedTwice : List (Action 3 Nat) :=
  [staleLeader, [.replicate 0 2, .deliver 0, .start 0 (some 13), .deliver 0],
    [.copyBatch 0 [], .sendEntry 0, .sendEntry 0], Action.timeout 2,
    [.deliver 1, .deliver 1, .lose 0],
    [.start 2 (some 22), .replicate 2 1, .deliver 0, .deliver 0],
    [.copyBatch 2 [], .sendEntry 2, .sendEntry 2]].flatten

theorem state_machines_diverge :
    ClusterRun (natGob 3) (ran (natGob 3) always committedTwice).2
        (ran (natGob 3) always committedTwice).1 ∧
      Event.received 0 0 (.command (some 13) 2 5) ∈ (ran (natGob 3) always committedTwice).2 ∧
      Event.received 2 0 (.command (some 22) 2 6) ∈ (ran (natGob 3) always committedTwice).2 :=
  ⟨reached_run (by decide +kernel), by decide +kernel, by decide +kernel⟩

/-! ## Replication knowledge -/

/-- The durable log of `q` starts at or after index `i`, or has an entry there, with the
term that the log of `p` has at `i`. -/
def HeldBy (gob : Gob n C) (c : Cluster n C) (p q : Fin n) (i : Nat) : Prop :=
  ∃ t v l, durable gob (c.raft q).persister = some (t, v, l) ∧
    (i ≤ (l.headD .dummy).index ∨
      ∃ e ∈ l, e.index = i ∧ ∀ d ∈ (c.raft p).logs, d.index = i → e.term = d.term)

/-- A log holds its own entries. -/
theorem heldBy_self (hc : Sound gob c) {p : Fin n} {i : Nat}
    (hl : i ≤ (c.raft p).getLastLog.index) : HeldBy gob c p p i := by
  refine ⟨_, _, _, hc.mirrored p, ?_⟩
  rcases Nat.le_total i (c.raft p).getFirstLog.index with hle | hle
  · exact .inl hle
  · obtain ⟨e, he, hidx⟩ := (hc.wellFormed p).exists_at hle hl
    refine .inr ⟨e, List.mem_of_getElem? he, hidx, fun d hd hdi => ?_⟩
    have hget := ((hc.wellFormed p).contiguous.get_of_mem hd).2
    rw [hdi, he, Option.some.injEq] at hget
    rw [hget]

/-- A peer whose history has the first `i` entries of the leader holds them, as far as its
snapshot does not cover them. -/
theorem heldBy_of_shared {strict : Prop} {A : Protocol n C} {S : Snapshots n C}
    (hc : Sound gob c) (h : Refines strict A S tr c) {p q : Fin n} {i : Nat}
    (hs : (c.raft p).state = .leader) (hi : i ≤ (A.log p).length)
    (hpre : (A.log p).take i <+: A.log q) : HeldBy gob c p q i := by
  have hp := (h.nodes p).peer
  have hq : View (S q) (A.log q) (c.raft q).logs := (h.nodes q).peer.view
  have hlen : ((A.log p).take i).length = i := List.length_take_of_le hi
  have hle := hpre.length_le
  refine ⟨_, _, _, hc.mirrored q, ?_⟩
  by_cases hfirst : i ≤ (c.raft q).getFirstLog.index
  · exact .inl hfirst
  · obtain ⟨e, he, hidx⟩ := (hc.wellFormed q).exists_at (i := i) (by omega)
      (by rw [hq.last.1]; omega)
    refine .inr ⟨e, List.mem_of_getElem? he, hidx, fun d hd hdi => ?_⟩
    have hterm : (c.raft q).logs[i - (S q).length]?.map LogEntry.term = some e.term := by
      rw [← hq.first_index, he]
      rfl
    rw [hq.first_index] at hfirst
    have hdterm := (hp.view.term_of_mem (hp.leader_clean h.inv hs) hd).2
    rw [hdi, ← take_isPrefix hpre, hlen] at hdterm
    rw [hdterm]
    exact ((hq.term_iff (by omega)).mp hterm).2.symm

/-- In every run in which records are fresh at an election and InstallSnapshot replies are
recorded once the peer has the snapshot, a leader's `matchIndex` is true of every peer in
its term. -/
theorem replication_knowledge_sound (h : RunWhere gob RecordsFit tr c) (p q : Fin n)
    (hs : (c.raft p).state = .leader)
    (ht : (c.raft q).currentTerm = (c.raft p).currentTerm) (i : Nat)
    (hi : i ≤ (c.raft p).matchIndex q) (hl : i ≤ (c.raft p).getLastLog.index) :
    HeldBy gob c p q i := by
  have hc := sound_run h
  obtain ⟨A, S, hr⟩ := refines_run True
    (fun c a hok p hp q hq => (hok.1 p hp q hq).trans_le (Nat.zero_le _))
    (fun _ _ hok _ => hok) h
  have hp := (hr.nodes p).peer
  have hq : Represents True A S q (c.raft q) := (hr.nodes q).peer
  have hlead := hp.leader hs
  by_cases hqp : q = p
  · subst hqp
    exact heldBy_self hc hl
  · have hterm : A.term q = (c.raft p).currentTerm := hq.term.trans ht
    rw [show (c.raft p).getLastLog.index = (A.log p).length from hp.view.last.1] at hl
    rcases hlead.confirmed trivial q hqp with hlt | hsnap | ⟨j, hj, hack⟩
    · exact absurd hterm hlt.ne'
    · refine ⟨_, _, _, hc.mirrored q, .inl ?_⟩
      show i ≤ (c.raft q).getFirstLog.index
      rw [hq.view.first_index]
      exact hi.trans hsnap
    · refine heldBy_of_shared hc hr hs hl ?_
      have hheld := hr.inv.held q _ j hack hterm
      rw [← hlead.front] at hheld
      exact (List.take_prefix_take_left (hi.trans hj)).trans hheld

theorem replication_knowledge_of_three :
    ((ran (natGob 3) RecordsFit appliedTwice).1.raft 0).state = .leader ∧
      ((ran (natGob 3) RecordsFit appliedTwice).1.raft 0).matchIndex 1 = 1 ∧
      HeldBy (natGob 3) (ran (natGob 3) RecordsFit appliedTwice).1 0 1 1 := by
  have hrun : RunWhere (natGob 3) RecordsFit (ran (natGob 3) RecordsFit appliedTwice).2
      (ran (natGob 3) RecordsFit appliedTwice).1 := reached_run (by decide +kernel)
  have hs : ((ran (natGob 3) RecordsFit appliedTwice).1.raft 0).state = .leader := by
    decide +kernel
  have hm : ((ran (natGob 3) RecordsFit appliedTwice).1.raft 0).matchIndex 1 = 1 := by
    decide +kernel
  exact ⟨hs, hm, replication_knowledge_sound hrun 0 1 hs (by decide +kernel) 1 hm.ge
    (by decide +kernel)⟩

/-- At the end of `staleLeader` peer 0 leads term 5 with a record of 2 for peer 1 that it
made in its first leadership. It has since lost that log: peer 1 has other entries. -/
theorem replication_knowledge_stale :
    ClusterRun (natGob 3) (ran (natGob 3) always staleLeader).2
        (ran (natGob 3) always staleLeader).1 ∧
      ((ran (natGob 3) always staleLeader).1.raft 0).state = .leader ∧
      ((ran (natGob 3) always staleLeader).1.raft 1).currentTerm =
        ((ran (natGob 3) always staleLeader).1.raft 0).currentTerm ∧
      1 ≤ ((ran (natGob 3) always staleLeader).1.raft 0).matchIndex 1 ∧
      1 ≤ ((ran (natGob 3) always staleLeader).1.raft 0).getLastLog.index ∧
      ¬ HeldBy (natGob 3) (ran (natGob 3) always staleLeader).1 0 1 1 := by
  have hrun : ClusterRun (natGob 3) (ran (natGob 3) always staleLeader).2
      (ran (natGob 3) always staleLeader).1 := reached_run (by decide +kernel)
  refine ⟨hrun, by decide +kernel, by decide +kernel, by decide +kernel, by decide +kernel, ?_⟩
  rintro ⟨t, v, l, hd, hheld⟩
  -- what is durable is the log in memory, so the two logs can be compared entry by entry
  rw [(sound_run hrun).mirrored 1, Option.some.injEq, Prod.mk.injEq, Prod.mk.injEq] at hd
  rw [← hd.2.2] at hheld
  revert hheld
  decide +kernel

end RaftImplementation
