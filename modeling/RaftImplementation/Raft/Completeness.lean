import RaftImplementation.Raft.Safety

/-!
# What is committed stays

An entry counts as committed when some peer has it at or below its `commitIndex`, or when
some service has ever received it. In the protocol it is then part of a decided history.
So it is in the log of every leader of a later term, and, whatever has crashed or been
compacted since, the persisters of a majority still hold it.
-/

namespace RaftImplementation

open Library Library.ReplicatedLog Cluster Raft

variable {n : Nat} {C : Type}

/-- The entries behind the dummy are those of the history behind the snapshot. -/
theorem View.mem_tail_iff {snap log : History (Option C)} {logs : List (LogEntry C)}
    (h : View snap log logs) {e : LogEntry C} :
    e ∈ logs.tail ↔ snap.length < e.index ∧ log[e.index - 1]? = some (e.term, e.command) := by
  rw [h.logs_eq, List.tail_cons, List.mem_iff_getElem?]
  constructor
  · rintro ⟨k, hk⟩
    rw [stamp_get, List.getElem?_drop] at hk
    obtain ⟨x, hx, rfl⟩ := Option.map_eq_some_iff.mp hk
    refine ⟨by dsimp only; omega, ?_⟩
    rw [← hx]
    dsimp only
    rw [show snap.length + 1 + k - 1 = snap.length + k by omega]
  · rintro ⟨hlt, hget⟩
    refine ⟨e.index - 1 - snap.length, ?_⟩
    rw [stamp_get, List.getElem?_drop,
      show snap.length + (e.index - 1 - snap.length) = e.index - 1 by omega, hget, Option.map_some,
      show snap.length + 1 + (e.index - 1 - snap.length) = e.index by omega]

theorem getElem?_of_isPrefix {X Y : History (Option C)} (h : X <+: Y) {i : Nat}
    (hi : i < X.length) : Y[i]? = X[i]? := by
  obtain ⟨Z, rfl⟩ := h
  exact List.getElem?_append_left hi

section Represented

variable {strict : Prop} {A : Protocol n C} {S : Snapshots n C} {p : Fin n} {rf : Raft n C}

/-- What a peer has committed behind its snapshot is part of a known history. -/
theorem Represents.committed (h : Represents strict A S p rf) {e : LogEntry C}
    (he : e ∈ rf.logs.tail) (hci : e.index ≤ rf.commitIndex) :
    ∃ K, Known A K rf.currentTerm ∧ K.length = rf.commitIndex ∧ 0 < e.index ∧
      K[e.index - 1]? = some (e.term, e.command) := by
  obtain ⟨hlt, hget⟩ := h.view.mem_tail_iff.mp he
  obtain ⟨K, hK, hlen, _, hshow⟩ := h.commit
  refine ⟨K, hK, hlen, by omega, ?_⟩
  rcases hshow with heq | hpre
  · rw [heq] at hlt
    omega
  · rw [← hget, getElem?_of_isPrefix hpre (by omega)]

theorem Represents.committed_decided (h : Represents strict A S p rf) {e : LogEntry C}
    (he : e ∈ rf.logs.tail) (hci : e.index ≤ rf.commitIndex) : DecidedEntry A e := by
  obtain ⟨K, hK, hlen, hpos, hget⟩ := h.committed he hci
  rcases hK with rfl | ⟨D, hD, hpre, -⟩
  · simp at hget
  · exact ⟨D, hD, hpos, by rw [getElem?_of_isPrefix hpre (by omega), hget]⟩

end Represented

variable {gob : Gob n C} {c : Cluster n C} {tr : List (Event n C)}

/-- In every run in which whoever wins an election has no `matchIndex` beyond its log, a
leader has everything that any peer of its term or an earlier one has committed, as far as
neither of the two has compacted it. -/
theorem leader_completeness (h : RunWhere gob MatchIndexFits tr c) {p q : Fin n}
    (hs : (c.raft p).state = .leader)
    (ht : (c.raft q).currentTerm ≤ (c.raft p).currentTerm) :
    (c.raft q).commitIndex ≤ (c.raft p).getLastLog.index ∧
      ∀ e ∈ (c.raft q).logs.tail, e.index ≤ (c.raft q).commitIndex →
        (c.raft p).getFirstLog.index < e.index → e ∈ (c.raft p).logs.tail := by
  obtain ⟨A, S, hr⟩ := refines_run False (fun _ _ hok => hok) (fun _ _ _ => False.elim) h
  have hp : Represents False A S p (c.raft p) := (hr.nodes p).peer
  have hq : Represents False A S q (c.raft q) := (hr.nodes q).peer
  have hlead := hp.leader hs
  -- whatever is known in the term of `q` is part of the leader's history
  have hknown : ∀ K, Known A K (c.raft q).currentTerm → K <+: A.log p := by
    intro K hK
    rw [hlead.front]
    exact (hK.le ht).prefix_front hr.inv hlead.led
  constructor
  · obtain ⟨K, hK, hlen, -⟩ := hq.commit
    rw [hp.view.last.1, ← hlen]
    exact (hknown K hK).length_le
  · intro e he hci hfirst
    obtain ⟨K, hK, hlen, hpos, hget⟩ := hq.committed he hci
    rw [hp.view.first_index] at hfirst
    refine hp.view.mem_tail_iff.mpr ⟨hfirst, ?_⟩
    rw [getElem?_of_isPrefix (hknown K hK) (by omega), hget]

theorem leader_completeness_of_three :
    ((ran (natGob 3) MatchIndexFits appliedTwice).1.raft 0).state = .leader ∧
      ⟨some 7, 1, 1⟩ ∈ ((ran (natGob 3) MatchIndexFits appliedTwice).1.raft 1).logs.tail ∧
      ⟨some 7, 1, 1⟩ ∈ ((ran (natGob 3) MatchIndexFits appliedTwice).1.raft 0).logs.tail := by
  have hrun : RunWhere (natGob 3) MatchIndexFits (ran (natGob 3) MatchIndexFits appliedTwice).2
      (ran (natGob 3) MatchIndexFits appliedTwice).1 := reached_run (by decide +kernel)
  have hs : ((ran (natGob 3) MatchIndexFits appliedTwice).1.raft 0).state = .leader := by
    decide +kernel
  have he : ⟨some 7, 1, 1⟩ ∈
      ((ran (natGob 3) MatchIndexFits appliedTwice).1.raft 1).logs.tail := by decide +kernel
  exact ⟨hs, he, (leader_completeness hrun (q := 1) hs (by decide +kernel)).2 _ he
    (by decide +kernel) (by decide +kernel)⟩

/-! ## Durability -/

/-- Some peer has committed the entry, or some service has received it. -/
def CommittedEntry (tr : List (Event n C)) (c : Cluster n C) (e : LogEntry C) : Prop :=
  (∃ q, e ∈ (c.raft q).logs.tail ∧ e.index ≤ (c.raft q).commitIndex) ∨
    ∃ q b, Event.received q b (.command e.command e.index e.term) ∈ tr

/-- The durable log of `q` has the entry, or a snapshot covers its index. -/
def KeptBy (gob : Gob n C) (c : Cluster n C) (q : Fin n) (e : LogEntry C) : Prop :=
  ∃ t v l, durable gob (c.raft q).persister = some (t, v, l) ∧
    (e.index ≤ (l.headD .dummy).index ∨ e ∈ l.tail)

theorem Refines.decidedEntry {strict : Prop} {A : Protocol n C} {S : Snapshots n C}
    (h : Refines strict A S tr c) {e : LogEntry C} (he : CommittedEntry tr c e) :
    DecidedEntry A e := by
  rcases he with ⟨q, hmem, hci⟩ | ⟨q, b, hrec⟩
  · exact (h.nodes q).peer.committed_decided hmem hci
  · exact h.applied q b e.command e.index e.term hrec

/-- In every run in which whoever wins an election has no `matchIndex` beyond its log, an entry
that has been committed once, in whatever state of the run, is on the stable storage of a
majority from then on. -/
theorem committed_kept_by_majority (h : RunWhere gob MatchIndexFits tr c) {e : LogEntry C}
    (he : CommittedEntry tr c e) {c' : Cluster n C} {tr' : List (Event n C)}
    (hlater : Run (Cluster.step gob) MatchIndexFits c tr' c') :
    ∃ Q : Finset (Fin n), n < 2 * Q.card ∧ ∀ q ∈ Q, KeptBy gob c' q e := by
  have hc := (sound_run h).run hlater
  obtain ⟨hel, A, S, hr, -⟩ := simulated_run sound_init elections_init refines_init
    (fun _ _ hok => hok) (fun _ _ _ => False.elim) h
  obtain ⟨D, hD, hpos, hget⟩ := hr.decidedEntry he
  -- the history that was decided then is a decided one now
  obtain ⟨-, A', S', hr', hsteps⟩ := simulated_run (sound_run h) hel hr (fun _ _ hok => hok)
    (fun _ _ _ => False.elim) hlater
  obtain ⟨Q, hQ, hcard⟩ := Inv.decided_prefix_logs hr'.inv (decided_steps hsteps hD)
  refine ⟨Q, by simpa using hcard, fun q hq => ⟨_, _, _, hc.mirrored q, ?_⟩⟩
  have hview : View (S' q) (A'.log q) (c'.raft q).logs := (hr'.nodes q).peer.view
  have hlt := (List.getElem?_eq_some_iff.mp hget).1
  by_cases hfirst : e.index ≤ (c'.raft q).getFirstLog.index
  · exact .inl hfirst
  · rw [hview.first_index] at hfirst
    refine .inr (hview.mem_tail_iff.mpr ⟨Nat.lt_of_not_le hfirst, ?_⟩)
    rw [getElem?_of_isPrefix (hQ q hq) hlt, hget]

/-- Peer 0 leads and has committed its first entry, which is nowhere delivered. -/
def committedByLeader : List (Action 3 Nat) :=
  Action.timeout 0 ++ [.deliver 0, .deliver 0, .start 0 (some 7), .replicate 0 1, .deliver 1,
    .deliver 1]

def afterCommit (as : List (Action 3 Nat)) : Cluster 3 Nat :=
  (ran (natGob 3) MatchIndexFits (committedByLeader ++ as)).1

/-- Then it restarts, and no peer knows that the entry is committed. -/
theorem committed_kept_by_majority_of_three :
    ((afterCommit []).raft 0).commitIndex = 1 ∧
      (∀ q, ((afterCommit [.crash 0]).raft q).commitIndex = 0) ∧
      ∃ Q : Finset (Fin 3), 3 < 2 * Q.card ∧
        ∀ q ∈ Q, KeptBy (natGob 3) (afterCommit [.crash 0]) q ⟨some 7, 1, 1⟩ := by
  have hrun : RunWhere (natGob 3) MatchIndexFits
      (ran (natGob 3) MatchIndexFits (committedByLeader ++ [])).2 (afterCommit []) :=
    reached_run (by decide +kernel)
  have he : CommittedEntry (ran (natGob 3) MatchIndexFits (committedByLeader ++ [])).2
      (afterCommit []) ⟨some 7, 1, 1⟩ := .inl ⟨0, by decide +kernel, by decide +kernel⟩
  have hcrash : (afterCommit []).step (natGob 3) (.crash 0) =
      some (afterCommit [.crash 0], [.booted 0 1 0]) := by rfl
  refine ⟨by decide +kernel, by decide +kernel, ?_⟩
  exact committed_kept_by_majority hrun he (.single (by decide +kernel) hcrash)

end RaftImplementation
