import RaftImplementation.Raft.BackOff

/-!
# A follower that has compacted further than the leader probes

A request that reaches below the follower's log is refused with the conflict fields
at zero. The leader takes the zero for a next index, falls back to `InstallSnapshot`,
the follower ignores a snapshot it has already passed, and the leader starts again
one past its own first index: still below the follower's log.
-/

namespace RaftImplementation

open Library Raft

variable {n : Nat} {C : Type} (gob : Gob n C) {L F : Raft n C} {peer : Fin n}

/-- A leader and a follower of one term that agree wherever both have entries, the
leader's next probe lying below the follower's log. -/
structure ProbesBelow (L F : Raft n C) (peer : Fin n) : Prop where
  leads : L.state = .leader
  term_eq : F.currentTerm = L.currentTerm
  leaderLog : L.WellFormed
  followerLog : F.WellFormed
  first_le : (L.getFirstLog.index : Int) ≤ (L.nextIndex peer : Int) - 1
  below : (L.nextIndex peer : Int) - 1 < F.getFirstLog.index
  compacted : F.getFirstLog.index ≤ F.commitIndex
  agree : ∀ i t t', L.termAt i = some t → F.termAt i = some t' → t = t'
  reaches : F.getFirstLog.index ≤ L.getLastLog.index

/-- What every round keeps. -/
structure Circling (L F : Raft n C) (peer : Fin n) : Prop where
  leads : L.state = .leader
  term_eq : F.currentTerm = L.currentTerm
  first_lt : L.getFirstLog.index < F.getFirstLog.index
  next_le : L.nextIndex peer ≤ F.getFirstLog.index
  compacted : F.getFirstLog.index ≤ F.commitIndex

theorem ProbesBelow.circling (h : ProbesBelow L F peer) : Circling L F peer := by
  have hfirst := h.first_le
  have hbelow := h.below
  exact ⟨h.leads, h.term_eq, by omega, by omega, h.compacted⟩

/-- A follower ignores a snapshot it has already passed. -/
theorem installSnapshot_ignored {rf : Raft n C} {args : InstallSnapshotArgs n}
    (ht : rf.currentTerm ≤ args.term) (hc : args.lastIncludedIndex ≤ rf.commitIndex) :
    ∃ v et ps, rf.installSnapshot gob args =
      (rf.following args.term v et ps, ⟨rf.currentTerm⟩) := by
  obtain ⟨v, et, ps, hfollow, _, _⟩ := rf.follow_leader gob ht
  refine ⟨v, et, ps, ?_⟩
  unfold installSnapshot
  dsimp only
  rw [if_neg (by omega)]
  simp only [hfollow]
  rw [following_commitIndex, if_pos hc]

theorem Circling.append_round (h : Circling L F peer) {args : AppendEntriesArgs n C}
    (hr : L.replicateOnceRound peer = .ok (some (.append args)))
    (hterm : args.term = L.currentTerm) (hprev : args.prevLogIndex < F.getFirstLog.index) :
    exchange gob peer (L, F) = none ∨
      ∃ s, exchange gob peer (L, F) = some (s, false) ∧ Circling s.1 s.2 peer := by
  have hFL := h.term_eq
  obtain ⟨v, et, ps, happ, _, _⟩ := appendEntries_below gob (show F.currentTerm ≤ args.term by
    omega) hprev
  have hreply : L.onAppendEntriesReply gob peer args { term := args.term, success := false } =
      L.backOff peer args { term := args.term, success := false } := by
    unfold onAppendEntriesReply
    rw [if_pos ⟨hterm, h.leads⟩, if_neg (by simp), if_neg (by simp [hterm]), if_pos hterm]
  rcases L.backOff_handled peer args { term := args.term, success := false } with
    ⟨i, hback, hi⟩ | hback
  · refine .inr ⟨(L.retrying peer i, F.following args.term v et ps), ?_, ?_⟩
    · simp only [exchange, hr, happ, hreply, hback]
    · have hi : i ≤ F.getFirstLog.index := by
        rcases hi with rfl | hi
        · exact Nat.zero_le _
        · omega
      refine ⟨h.leads, hterm, h.first_lt, ?_, h.compacted⟩
      rw [retrying_nextIndex, Function.update_self]
      exact hi
  · refine .inl ?_
    simp only [exchange, hr, happ, hreply, hback]

theorem Circling.install_round (h : Circling L F peer)
    (hr : L.replicateOnceRound peer = .ok (some (.install L.genInstallSnapshotArgs))) :
    ∃ s, exchange gob peer (L, F) = some (s, false) ∧ Circling s.1 s.2 peer := by
  have hFL := h.term_eq
  have hlt := h.first_lt
  obtain ⟨v, et, ps, hins⟩ := installSnapshot_ignored gob
    (show F.currentTerm ≤ L.genInstallSnapshotArgs.term from hFL.le)
    (show L.genInstallSnapshotArgs.lastIncludedIndex ≤ F.commitIndex from
      hlt.le.trans h.compacted)
  have hreply : L.onInstallSnapshotReply gob peer L.genInstallSnapshotArgs ⟨F.currentTerm⟩ =
      L.matched peer L.getFirstLog.index := by
    unfold onInstallSnapshotReply
    rw [if_pos ⟨h.leads, rfl⟩, if_neg (by simp [hFL])]
    rfl
  refine ⟨(L.matched peer L.getFirstLog.index, F.following L.currentTerm v et ps), ?_, ?_⟩
  · simp only [exchange, hr, hins, hreply]
    simp [takeSnapshots, genInstallSnapshotArgs, following]
  · refine ⟨h.leads, rfl, hlt, ?_, h.compacted⟩
    rw [matched_nextIndex, Function.update_self]
    exact hlt

/-- No round between them succeeds, and each leaves them as they were. -/
theorem Circling.round (h : Circling L F peer) :
    exchange gob peer (L, F) = none ∨
      ∃ s, exchange gob peer (L, F) = some (s, false) ∧ Circling s.1 s.2 peer := by
  rcases L.replicateOnceRound_asked peer with ⟨hns, _⟩ | ⟨args, hr, ha⟩ | hr
  · exact absurd h.leads hns
  · cases ha with
    | install _ hn => exact .inr (h.install_round gob hr)
    | append i e _ hn hf he =>
      have hle := h.next_le
      exact h.append_round gob hr rfl (show i < F.getFirstLog.index by omega)
  · exact .inl (by simp only [exchange, hr])

/-- A leader whose probe lies below the log of a follower that has compacted further
never gets an `AppendEntries` accepted, however long the exchange goes on. -/
theorem catch_up_never_ends (h : ProbesBelow L F peer) (k : Nat) :
    untilDone (exchange gob peer) k (L, F) = none :=
  untilDone_eq_none (I := fun s => Circling s.1 s.2 peer) (fun _ hs => hs.round gob)
    h.circling k

/-- The follower has compacted up to index 2; the leader has not and probes at 0. -/
theorem probesBelow_of_three :
    ProbesBelow (leaderOfThree 1 1 [.dummy, ⟨some 1, 1, 1⟩, ⟨some 2, 1, 2⟩])
      (peerOfThree 1 1 [⟨none, 1, 2⟩]) 1 := by
  have hF : (peerOfThree 1 1 [⟨none, 1, 2⟩]).WellFormed := wellFormed_of_cons rfl trivial
  refine ⟨rfl, rfl, wellFormed_of_cons rfl (by decide), hF, by decide, by decide, by decide,
    ?_, by decide⟩
  intro i t t' hL hFi
  -- the follower's log has one index only
  have hi : 2 ≤ i ∧ i ≤ 2 := hF.le_last_of_termAt hFi
  obtain rfl : i = 2 := by omega
  cases hL
  cases hFi
  rfl

theorem catch_up_never_ends_of_three :
    untilDone (exchange (natGob 3) 1) 1000
      (leaderOfThree 1 1 [.dummy, ⟨some 1, 1, 1⟩, ⟨some 2, 1, 2⟩],
        peerOfThree 1 1 [⟨none, 1, 2⟩]) = none :=
  catch_up_never_ends (natGob 3) probesBelow_of_three 1000

/-- The leader of this pair is never heard, though its log covers the follower's. -/
theorem compacted_follower_never_catches_up :
    ∃ L F : Raft 3 Nat, ProbesBelow L F 1 ∧
      ¬ Succeeds (exchange (natGob 3) 1) (fun s => s.1.matchIndex 1 = L.getLastLog.index)
        (L, F) :=
  ⟨_, _, probesBelow_of_three, not_succeeds (I := fun s => Circling s.1 s.2 1)
    (fun _ hs => hs.round (natGob 3)) probesBelow_of_three.circling⟩

end RaftImplementation
