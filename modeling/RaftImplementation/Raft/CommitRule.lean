import RaftImplementation.Library.Majority
import RaftImplementation.Raft.Effects
import RaftImplementation.Raft.Encoding

/-!
# The commit rule of a leader

`advanceCommitIndexForLeader` sorts a copy of `matchIndex` and looks at one entry of it
only. That entry is the largest index a majority has reached. The rule of the paper asks
for more: the largest index beyond `commitIndex` that a majority has reached and at which
the leader has an entry of its own term. On a log whose terms do not decrease the two
come to the same, since below an entry of an earlier term there are none of the leader's.
-/

namespace RaftImplementation

open Library

variable {n : Nat} {C : Type}

/-- `sortMatchIndex[n-(n/2+1)]`, for values of any ordered type. -/
def newCommitIndex {α : Type} [LinearOrder α] (matchIndex : Fin n → α) : Option α :=
  ((List.ofFn matchIndex).insertionSort (· ≤ ·))[n - (n / 2 + 1)]?

/-- How many entries of `matchIndex` are at least `N`. -/
def reachedBy {α : Type} [LinearOrder α] (matchIndex : Fin n → α) (N : α) : Nat :=
  (Finset.univ.filter fun peer => N ≤ matchIndex peer).card

/-- The access is in range, and finds the largest value that more than half have reached. -/
theorem newCommitIndex_isGreatest {α : Type} [LinearOrder α] (hn : 1 ≤ n)
    (matchIndex : Fin n → α) :
    ∃ N, newCommitIndex matchIndex = some N ∧
      IsGreatest { M | n / 2 < reachedBy matchIndex M } N := by
  have hlt : n - (n / 2 + 1) < ((List.ofFn matchIndex).insertionSort (· ≤ ·)).length := by
    rw [List.length_insertionSort, List.length_ofFn]
    omega
  have hrank : newCommitIndex matchIndex = some _ := List.getElem?_eq_getElem hlt
  exact ⟨_, hrank, rank_isGreatest matchIndex hrank⟩

namespace Raft

/-- What the paper asks of an index to be committed. -/
def Committable (rf : Raft n C) (N : Nat) : Prop :=
  rf.commitIndex < N ∧ n / 2 < reachedBy rf.matchIndex N ∧
    ∃ e ∈ rf.logs, e.index = N ∧ e.term = rf.currentTerm

variable {rf : Raft n C} {N : Nat}

/-- What the function does with the index it has chosen. -/
theorem advanceCommitIndexForLeader_of_candidate (hw : rf.WellFormed)
    (hfirst : rf.getFirstLog.index ≤ rf.commitIndex) (hN : newCommitIndex rf.matchIndex = some N) :
    rf.advanceCommitIndexForLeader = .ok (rf.committing
      (if rf.commitIndex < N ∧
          rf.logs[N - rf.getFirstLog.index]?.map LogEntry.term = some rf.currentTerm
        then N else rf.commitIndex)) := by
  have hchosen : rf.sortMatchIndex.getD (n - (n / 2 + 1)) 0 = N := by
    rw [List.getD_eq_getElem?_getD, show rf.sortMatchIndex[n - (n / 2 + 1)]? = some N from hN]
    rfl
  unfold advanceCommitIndexForLeader
  rw [hchosen]
  by_cases hgt : rf.commitIndex < N
  · dsimp only
    rw [if_pos hgt, hw.isLogMatched_eq (hfirst.trans hgt.le)]
    by_cases hterm : rf.logs[N - rf.getFirstLog.index]?.map LogEntry.term = some rf.currentTerm
    · simp only [hterm, hgt, decide_true, and_self, ↓reduceIte, bind, Except.bind]
      rfl
    · simp only [hterm, decide_false, and_false, ↓reduceIte, bind, Except.bind]
      rfl
  · dsimp only
    rw [if_neg hgt, if_neg fun h => hgt h.1]
    rfl

/-- What the function tests, on the index that a majority has reached. -/
theorem committable_iff (hw : rf.WellFormed) (hfirst : rf.getFirstLog.index ≤ rf.commitIndex)
    (hquorum : n / 2 < reachedBy rf.matchIndex N) :
    rf.Committable N ↔ rf.commitIndex < N ∧
      rf.logs[N - rf.getFirstLog.index]?.map LogEntry.term = some rf.currentTerm := by
  constructor
  · rintro ⟨hgt, -, e, he, rfl, hterm⟩
    rw [(hw.contiguous.get_of_mem he).2, Option.map_some, hterm]
    exact ⟨hgt, rfl⟩
  · rintro ⟨hgt, htest⟩
    obtain ⟨e, he, hterm⟩ := Option.map_eq_some_iff.mp htest
    have hindex := hw.contiguous.get he
    exact ⟨hgt, hquorum, e, List.mem_of_getElem? he, by omega, hterm⟩

/-- An index that can be committed is at most the one that is looked at. -/
theorem Committable.le_candidate (h : rf.Committable N) {M : Nat}
    (hM : IsGreatest { M | n / 2 < reachedBy rf.matchIndex M } M) : N ≤ M :=
  hM.2 h.2.1

/-- If any index can be committed, the one that is looked at can: its entry is not of an
earlier term than that of the lower index, nor of a later one than the leader's. -/
theorem Committable.candidate (hw : rf.WellFormed)
    (hterms : rf.logs.Pairwise fun d e => d.term ≤ e.term)
    (hbound : ∀ e ∈ rf.logs, e.term ≤ rf.currentTerm)
    (hmatch : ∀ peer, rf.matchIndex peer ≤ rf.getLastLog.index) (h : rf.Committable N) {M : Nat}
    (hM : IsGreatest { M | n / 2 < reachedBy rf.matchIndex M } M) :
    rf.Committable M := by
  have hle := h.le_candidate hM
  obtain ⟨hgt, -, d, hd, rfl, hdterm⟩ := h
  -- more than half of the entries are at least `M`, so `M` is in the log
  have hlast : M ≤ rf.getLastLog.index := by
    have hpos : 0 < reachedBy rf.matchIndex M := Nat.zero_lt_of_lt hM.1
    obtain ⟨peer, hpeer⟩ := Finset.card_pos.mp hpos
    exact (Finset.mem_filter.mp hpeer).2.trans (hmatch peer)
  obtain ⟨hfirst, hdget⟩ := hw.contiguous.get_of_mem hd
  obtain ⟨e, he, hindex⟩ := hw.exists_at (hfirst.trans hle) hlast
  have hmem : e ∈ rf.logs := List.mem_of_getElem? he
  have hde : d.term ≤ e.term := by
    rcases Nat.eq_or_lt_of_le hle with heq | hlt
    · rw [← heq, hdget, Option.some.injEq] at he
      rw [he]
    · obtain ⟨hi, hdi⟩ := List.getElem?_eq_some_iff.mp hdget
      obtain ⟨hj, hej⟩ := List.getElem?_eq_some_iff.mp he
      rw [← hdi, ← hej]
      exact List.pairwise_iff_getElem.mp hterms _ _ hi hj (by omega)
  exact ⟨hgt.trans_le hle, hM.1, e, hmem, hindex,
    Nat.le_antisymm (hbound e hmem) (hdterm ▸ hde)⟩

end Raft

open Raft

/-- The entry that is looked at is the largest value that more than half of the entries of
`matchIndex` reach, for integers of either sign and for the indices of a peer. On a log
that counts on from its first index, with terms that neither decrease nor pass
`currentTerm`, the call does not panic and changes nothing but `commitIndex`: to the
largest index that can be committed, or not at all if there is none. -/
theorem commit_index_is_quorum_statistic (hn : 1 ≤ n) :
    (∀ matchIndex : Fin n → Int, ∃ N, newCommitIndex matchIndex = some N ∧
      IsGreatest { M | n / 2 < reachedBy matchIndex M } N) ∧
    ∀ rf : Raft n C,
      (∃ N, rf.sortMatchIndex[n - (n / 2 + 1)]? = some N ∧
        IsGreatest { M | n / 2 < reachedBy rf.matchIndex M } N) ∧
      (rf.WellFormed → rf.logs.Pairwise (fun d e => d.term ≤ e.term) →
        (∀ e ∈ rf.logs, e.term ≤ rf.currentTerm) →
        rf.getFirstLog.index ≤ rf.commitIndex →
        (∀ peer, rf.matchIndex peer ≤ rf.getLastLog.index) →
        ∃ ci, rf.advanceCommitIndexForLeader = .ok (rf.committing ci) ∧
          (IsGreatest { N | rf.Committable N } ci ∨
            (∀ N, ¬ rf.Committable N) ∧ ci = rf.commitIndex)) := by
  refine ⟨newCommitIndex_isGreatest hn, fun rf => ⟨newCommitIndex_isGreatest hn rf.matchIndex, ?_⟩⟩
  intro hw hterms hbound hfirst hmatch
  obtain ⟨N, hN, hgreatest⟩ := newCommitIndex_isGreatest hn rf.matchIndex
  have htest := committable_iff hw hfirst hgreatest.1
  refine ⟨_, advanceCommitIndexForLeader_of_candidate hw hfirst hN, ?_⟩
  by_cases hcan : rf.Committable N
  · left
    rw [if_pos (htest.mp hcan)]
    exact ⟨hcan, fun M hM => hM.le_candidate hgreatest⟩
  · right
    have hnone : ∀ M, ¬ rf.Committable M :=
      fun M hM => hcan (hM.candidate hw hterms hbound hmatch hgreatest)
    exact ⟨hnone, if_neg (htest.not.mp hcan)⟩

/-- A leader of term 2 whose first entry is from term 1 and committed. The peers have
reached 3, 2 and 0. -/
def secondOfThree : Raft 3 Nat :=
  { fresh 0 makePersister 2 (some 0)
      [.dummy, ⟨some 7, 1, 1⟩, ⟨some 8, 2, 2⟩, ⟨some 9, 2, 3⟩] with
    state := .leader
    commitIndex := 1
    matchIndex := fun peer => [3, 2, 0].getD peer.val 0 }

theorem commit_index_second_of_three :
    secondOfThree.advanceCommitIndexForLeader = .ok (secondOfThree.committing 2) ∧
      IsGreatest { N | secondOfThree.Committable N } 2 := by
  have hw : secondOfThree.WellFormed := wellFormed_of_cons rfl (by decide)
  obtain ⟨-, hleader⟩ := commit_index_is_quorum_statistic (C := Nat) (show 1 ≤ 3 by decide)
  obtain ⟨ci, hok, hci⟩ := (hleader secondOfThree).2 hw (by decide) (by decide) (by decide)
    (by decide)
  have htwo : secondOfThree.advanceCommitIndexForLeader = .ok (secondOfThree.committing 2) := by rfl
  obtain rfl : ci = 2 :=
    congrArg Raft.commitIndex (Except.ok.inj (hok.symm.trans htwo))
  exact ⟨hok, hci.resolve_right fun h => absurd h.2 (by decide)⟩

end RaftImplementation
