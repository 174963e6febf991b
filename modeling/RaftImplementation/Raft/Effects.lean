import Mathlib.Tactic.Simps.Basic
import RaftImplementation.Raft.Logs

/-!
# What each critical section can do

For every handler an inductive relation lists its outcomes, with the new state of
the peer written out field by field, and a theorem says that the handler has no
other. Later modules split on these relations and never unfold a handler. The
persister is described by what can be read back from it (`durable`), so these
relations also say that a section which changes the term, the vote or the log has
saved them.
-/

namespace RaftImplementation.Raft

variable {n : Nat} {C : Type} (gob : Gob n C)

/-- What `Make` reads back from a persister. -/
def durable (ps : Persister) : Option (Nat × Option (Fin n) × List (LogEntry C)) :=
  if ps.raftstate = [] then some (0, none, [.dummy]) else gob.decode ps.raftstate

theorem durable_save (ps : Persister) (t : Nat) (v : Option (Fin n)) (l : List (LogEntry C))
    (snapshot : Option Bytes) :
    durable gob (ps.saveStateAndSnapshot (gob.encode t v l) snapshot) = some (t, v, l) := by
  simp [durable, Persister.saveStateAndSnapshot, gob.encode_ne_nil, gob.decode_encode]

/-- The durable triple is the volatile one. -/
def Mirrored (rf : Raft n C) : Prop :=
  durable gob rf.persister = some (rf.currentTerm, rf.votedFor, rf.logs)

/-- The peer that `Make` builds from the given durable triple. -/
@[simps]
def fresh (me : Fin n) (ps : Persister) (t : Nat) (v : Option (Fin n))
    (l : List (LogEntry C)) : Raft n C :=
  { me := me
    persister := ps
    currentTerm := t
    votedFor := v
    logs := l
    commitIndex := (l.headD .dummy).index
    lastApplied := (l.headD .dummy).index
    nextIndex := fun _ => (l.getLastD .dummy).index + 1
    matchIndex := fun _ => 0
    state := .follower
    electionTimer := ⟨true, false⟩
    ticking := false
    grantedVotes := 0
    applier := .waiting
    snapshotSends := [] }

theorem make_eq_fresh {me : Fin n} {ps : Persister} {t : Nat} {v : Option (Fin n)}
    {l : List (LogEntry C)} (h : durable gob ps = some (t, v, l)) :
    make gob me ps = some (fresh me ps t v l) := by
  unfold durable at h
  unfold make readPersist Persister.readRaftState
  by_cases he : ps.raftstate = []
  · simp only [he, ↓reduceIte, Option.some.injEq, Prod.mk.injEq] at h
    obtain ⟨rfl, rfl, rfl⟩ := h
    simp [he, fresh, getLastLog, LogEntry.dummy]
  · rw [if_neg he] at h
    simp [he, h, fresh, getFirstLog, getLastLog]

/-- `Make` succeeds only if there is something to read back. -/
theorem make_inv {me : Fin n} {ps : Persister} {rf : Raft n C} (h : make gob me ps = some rf) :
    ∃ t v l, durable gob ps = some (t, v, l) ∧ rf = fresh me ps t v l := by
  cases hd : durable gob ps with
  | some r =>
    obtain ⟨t, v, l⟩ := r
    rw [make_eq_fresh gob hd] at h
    exact ⟨t, v, l, rfl, (Option.some.inj h).symm⟩
  | none =>
    unfold durable at hd
    unfold make readPersist Persister.readRaftState at h
    split at hd
    · cases hd
    · rename_i he
      simp [he, hd] at h

/-- A change of role touches nothing but the role and the election timer. -/
theorem changeState_eq (rf : Raft n C) (s : NodeState) :
    ∃ et, rf.changeState s = { rf with state := s, electionTimer := et } := by
  unfold changeState
  split
  · rename_i h
    exact ⟨rf.electionTimer, by rw [← h]⟩
  · cases s
    · exact ⟨_, rfl⟩
    · exact ⟨rf.electionTimer, rfl⟩
    · exact ⟨_, rfl⟩

/-- A peer that has learned of the higher term `t`. -/
@[simps]
def behind (rf : Raft n C) (t : Nat) (et : Timer) (ps : Persister) : Raft n C :=
  { rf with currentTerm := t, votedFor := none, state := .follower, electionTimer := et,
            persister := ps }

theorem follower_adoptTerm (rf : Raft n C) (t : Nat) :
    ∃ et ps, (rf.changeState .follower).adoptTerm gob t = rf.behind t et ps ∧
      durable gob ps = some (t, none, rf.logs) := by
  obtain ⟨et, h⟩ := rf.changeState_eq .follower
  rw [h]
  exact ⟨et, _, rfl, durable_save gob _ _ _ _ _⟩

/-! ## Elections -/

/-- A peer that stands in the next term. -/
@[simps]
def standing (rf : Raft n C) (et : Timer) (ps : Persister) : Raft n C :=
  { rf with currentTerm := rf.currentTerm + 1, votedFor := some rf.me, state := .candidate,
            grantedVotes := 1, electionTimer := et, ticking := false, persister := ps }

/-- The ticker's critical section. -/
theorem electionTimeout_eq (rf : Raft n C) :
    ∃ et ps, rf.electionTimeout gob =
        (rf.standing et ps,
          ⟨rf.currentTerm + 1, rf.me, rf.getLastLog.index, rf.getLastLog.term⟩) ∧
      durable gob ps = some (rf.currentTerm + 1, some rf.me, rf.logs) := by
  unfold electionTimeout
  obtain ⟨et, h⟩ := rf.changeState_eq .candidate
  rw [h]
  exact ⟨_, _, rfl, durable_save gob _ _ _ _ _⟩

/-- A peer that has voted for `candidate` in term `t`. -/
@[simps]
def granting (rf : Raft n C) (t : Nat) (candidate : Fin n) (st : NodeState) (et : Timer)
    (ps : Persister) : Raft n C :=
  { rf with currentTerm := t, votedFor := some candidate, state := st, electionTimer := et,
            persister := ps }

inductive VoteHandled (rf : Raft n C) (args : RequestVoteArgs n) :
    Raft n C → RequestVoteReply → Prop
  | refused : VoteHandled rf args rf ⟨rf.currentTerm, false⟩
  | behind (et : Timer) (ps : Persister) (ht : rf.currentTerm < args.term)
      (hps : durable gob ps = some (args.term, none, rf.logs)) :
      VoteHandled rf args (rf.behind args.term et ps) ⟨args.term, false⟩
  | granted (st : NodeState) (et : Timer) (ps : Persister) (ht : rf.currentTerm ≤ args.term)
      (hst : rf.currentTerm = args.term → st = rf.state)
      (hst' : rf.currentTerm < args.term → st = .follower)
      (hv : rf.currentTerm = args.term →
        rf.votedFor = none ∨ rf.votedFor = some args.candidateId)
      (hup : rf.isLogUpToDate args.lastLogIndex args.lastLogTerm = true)
      (hps : durable gob ps = some (args.term, some args.candidateId, rf.logs)) :
      VoteHandled rf args (rf.granting args.term args.candidateId st et ps) ⟨args.term, true⟩

theorem requestVote_handled (rf : Raft n C) (args : RequestVoteArgs n) :
    VoteHandled gob rf args (rf.requestVote gob args).1 (rf.requestVote gob args).2 := by
  unfold requestVote
  split
  · exact .refused
  · rename_i hno
    simp only [not_or, not_and, not_lt] at hno
    obtain ⟨hle, hvote⟩ := hno
    by_cases hgt : args.term > rf.currentTerm
    · obtain ⟨et, ps, hb, hps⟩ := rf.follower_adoptTerm gob args.term
      simp only [hgt, ↓reduceIte, hb]
      split
      · rename_i hup
        exact .granted .follower _ _ hle (by omega) (fun _ => rfl) (by omega) hup
          (durable_save gob _ _ _ _ _)
      · exact .behind et ps hgt hps
    · have heq : args.term = rf.currentTerm := by omega
      simp only [hgt, ↓reduceIte]
      split
      · rename_i hup
        have hv : rf.votedFor = none ∨ rf.votedFor = some args.candidateId := by
          by_cases hn : rf.votedFor = none
          · exact .inl hn
          · exact .inr (not_not.mp (hvote heq hn))
        rw [← heq]
        exact .granted rf.state _ _ hle (fun _ => rfl) (by omega) (fun _ => hv) hup
          (by rw [heq]; exact durable_save gob _ _ _ _ _)
      · exact .refused

/-- A candidate with one more vote. -/
@[simps]
def counting (rf : Raft n C) : Raft n C := { rf with grantedVotes := rf.grantedVotes + 1 }

/-- A candidate whose last vote made it leader. -/
@[simps]
def leading (rf : Raft n C) (et : Timer) : Raft n C :=
  { rf with grantedVotes := rf.grantedVotes + 1, state := .leader, electionTimer := et }

inductive VoteReplyHandled (rf : Raft n C) (args : RequestVoteArgs n) (reply : RequestVoteReply) :
    Raft n C → Prop
  | ignored (h : ¬ (args.term = rf.currentTerm ∧ rf.state = .candidate) ∨
      reply.voteGranted = false) : VoteReplyHandled rf args reply rf
  | counted (ht : args.term = rf.currentTerm) (hs : rf.state = .candidate)
      (hg : reply.voteGranted = true) (hfew : rf.grantedVotes + 1 ≤ n / 2) :
      VoteReplyHandled rf args reply rf.counting
  | won (et : Timer) (ht : args.term = rf.currentTerm) (hs : rf.state = .candidate)
      (hg : reply.voteGranted = true) (hmany : n / 2 < rf.grantedVotes + 1) :
      VoteReplyHandled rf args reply (rf.leading et)
  | behind (et : Timer) (ps : Persister) (ht : rf.currentTerm < reply.term)
      (hg : reply.voteGranted = false)
      (hps : durable gob ps = some (reply.term, none, rf.logs)) :
      VoteReplyHandled rf args reply (rf.behind reply.term et ps)

theorem onRequestVoteReply_handled (rf : Raft n C) (args : RequestVoteArgs n)
    (reply : RequestVoteReply) :
    VoteReplyHandled gob rf args reply (rf.onRequestVoteReply gob args reply) := by
  unfold onRequestVoteReply
  split
  · rename_i hcur
    split
    · rename_i hg
      dsimp only
      split
      · rename_i hmany
        obtain ⟨et, h⟩ := rf.counting.changeState_eq .leader
        rw [show ({ rf with grantedVotes := rf.grantedVotes + 1 } : Raft n C) = rf.counting
          from rfl, h]
        exact .won et hcur.1 hcur.2 hg hmany
      · exact .counted hcur.1 hcur.2 hg (by omega)
    · rename_i hg
      have hg : reply.voteGranted = false := by simpa using hg
      split
      · rename_i hgt
        obtain ⟨et, ps, hb, hps⟩ := rf.follower_adoptTerm gob reply.term
        rw [hb]
        exact .behind et ps hgt hg hps
      · exact .ignored (.inr hg)
  · rename_i hno
    exact .ignored (.inl hno)

/-! ## The follower -/

/-- A peer that has accepted the leader of term `t`. -/
@[simps]
def following (rf : Raft n C) (t : Nat) (v : Option (Fin n)) (et : Timer) (ps : Persister) :
    Raft n C :=
  { rf with currentTerm := t, votedFor := v, state := .follower, electionTimer := et,
            persister := ps }

theorem following_getFirstLog (rf : Raft n C) (t : Nat) (v : Option (Fin n)) (et : Timer)
    (ps : Persister) : (rf.following t v et ps).getFirstLog = rf.getFirstLog := rfl

/-- The head of `AppendEntries` and of `InstallSnapshot`, for a request that is not stale. -/
theorem follow_leader (rf : Raft n C) {t : Nat} (ht : rf.currentTerm ≤ t) :
    ∃ v et ps,
      ((if t > rf.currentTerm then rf.adoptTerm gob t else rf).changeState
          .follower).resetElectionTimer = rf.following t v et ps ∧
        v = (if rf.currentTerm < t then none else rf.votedFor) ∧
        (rf.Mirrored gob → durable gob ps = some (t, v, rf.logs)) := by
  by_cases hgt : t > rf.currentTerm
  · obtain ⟨et, h⟩ := (rf.adoptTerm gob t).changeState_eq .follower
    simp only [hgt, ↓reduceIte, h]
    exact ⟨none, _, _, rfl, rfl, fun _ => durable_save gob _ _ _ _ _⟩
  · have heq : t = rf.currentTerm := by omega
    subst heq
    obtain ⟨et, h⟩ := rf.changeState_eq .follower
    simp only [hgt, ↓reduceIte, h]
    exact ⟨rf.votedFor, _, rf.persister, rfl, rfl, id⟩

/-- On contiguous entries that join the log, the splice loop stays in range. -/
theorem spliceEntries_eq (rf : Raft n C) {i : Nat}
    {entries : List (LogEntry C)} (hc : Contiguous i entries) (hf : rf.getFirstLog.index ≤ i)
    (hi : i ≤ rf.getFirstLog.index + rf.logs.length) :
    ∃ ps, rf.spliceEntries gob entries =
        .ok { rf with logs := spliced rf.getFirstLog.index rf.logs entries, persister := ps } ∧
      (rf.Mirrored gob → durable gob ps =
        some (rf.currentTerm, rf.votedFor, spliced rf.getFirstLog.index rf.logs entries)) := by
  induction entries generalizing i with
  | nil => exact ⟨rf.persister, rfl, id⟩
  | cons e es ih =>
    obtain ⟨rfl, hc⟩ := hc
    rw [spliceEntries, if_neg (by omega), spliced]
    cases hk : rf.logs[e.index - rf.getFirstLog.index]? with
    | some x =>
      simp only [hk, Option.map_some, Option.some.injEq]
      have hlt : e.index - rf.getFirstLog.index < rf.logs.length :=
        (List.getElem?_eq_some_iff.mp hk).1
      split
      · exact ih hc (by omega) (by omega)
      · exact ⟨_, rfl, fun _ => durable_save gob _ _ _ _ _⟩
    | none =>
      have hlen : e.index - rf.getFirstLog.index = rf.logs.length := by
        have := List.getElem?_eq_none_iff.mp hk
        omega
      rw [hlen] at hk
      simp only [hlen, hk, ↓reduceIte, Option.map_none, reduceCtorEq]
      exact ⟨_, rfl, fun _ => durable_save gob _ _ _ _ _⟩

/-- The refusal of an entry that is missing or has another term. -/
def refusal (rf : Raft n C) (args : AppendEntriesArgs n C) : AppendEntriesReply :=
  if rf.getLastLog.index < args.prevLogIndex then
    ⟨rf.currentTerm, false, rf.getLastLog.index + 1, -1⟩
  else ⟨rf.currentTerm, false, args.prevLogIndex + 1, args.prevLogTerm⟩

/-- The scan for the first entry of the conflicting term compares with the term of the
request, so it stops where it begins: the conflict index is one past the entry that
was compared. -/
theorem conflictReply_eq {rf : Raft n C} (hw : rf.WellFormed) {args : AppendEntriesArgs n C}
    (hf : rf.getFirstLog.index ≤ args.prevLogIndex)
    (hno : rf.logs[args.prevLogIndex - rf.getFirstLog.index]?.map LogEntry.term ≠
      some args.prevLogTerm) : rf.conflictReply args = .ok (rf.refusal args) := by
  unfold conflictReply refusal
  split
  · rfl
  · obtain ⟨e, he, _⟩ := hw.exists_at hf (by omega)
    rw [he, Option.map_some, ne_eq, Option.some.injEq] at hno
    rw [show args.prevLogIndex + 1 - rf.getFirstLog.index =
      args.prevLogIndex - rf.getFirstLog.index + 1 by omega, scanBack, he]
    simp only [hno, ↓reduceIte, bind, Except.bind, pure, Except.pure]
    rw [show rf.getFirstLog.index + (args.prevLogIndex - rf.getFirstLog.index + 1) =
      args.prevLogIndex + 1 by omega]

/-- The index of the last entry of a log. -/
def lastIndex (logs : List (LogEntry C)) : Nat := (logs.getLastD .dummy).index

theorem followLeaderCommit_eq (rf : Raft n C) (leaderCommit : Nat) :
    rf.followLeaderCommit leaderCommit =
      { rf with commitIndex := max rf.commitIndex (min leaderCommit (lastIndex rf.logs)) } := by
  unfold followLeaderCommit getLastLog
  unfold lastIndex
  dsimp only
  split
  · rw [Nat.max_eq_right (by omega)]
  · rw [Nat.max_eq_left (by omega)]

/-- A peer that has taken over the entries of a leader. -/
@[simps]
def accepting (rf : Raft n C) (args : AppendEntriesArgs n C) (v : Option (Fin n)) (et : Timer)
    (ps : Persister) : Raft n C :=
  let logs := spliced rf.getFirstLog.index rf.logs args.entries
  { rf.following args.term v et ps with
    logs := logs
    commitIndex := max rf.commitIndex (min args.leaderCommit (lastIndex logs)) }

inductive AppendHandled (rf : Raft n C) (args : AppendEntriesArgs n C) :
    Raft n C → AppendEntriesReply → Prop
  | stale (ht : args.term < rf.currentTerm) :
      AppendHandled rf args rf { term := rf.currentTerm, success := false }
  | refused (v : Option (Fin n)) (et : Timer) (ps : Persister) (reply : AppendEntriesReply)
      (ht : rf.currentTerm ≤ args.term)
      (hv : v = if rf.currentTerm < args.term then none else rf.votedFor)
      (hps : durable gob ps = some (args.term, v, rf.logs))
      (hs : reply.success = false) (hr : reply.term = args.term)
      (hci : reply.conflictIndex ≤ args.prevLogIndex + 1) :
      AppendHandled rf args (rf.following args.term v et ps) reply
  | accepted (v : Option (Fin n)) (et : Timer) (ps : Persister)
      (ht : rf.currentTerm ≤ args.term)
      (hv : v = if rf.currentTerm < args.term then none else rf.votedFor)
      (hf : rf.getFirstLog.index ≤ args.prevLogIndex)
      (hprev : rf.logs[args.prevLogIndex - rf.getFirstLog.index]?.map LogEntry.term =
        some args.prevLogTerm)
      (hps : durable gob ps =
        some (args.term, v, spliced rf.getFirstLog.index rf.logs args.entries)) :
      AppendHandled rf args (rf.accepting args v et ps) { term := args.term, success := true }

/-- A request that reaches below the log is refused without a hint. -/
theorem appendEntries_below {rf : Raft n C} {args : AppendEntriesArgs n C}
    (ht : rf.currentTerm ≤ args.term) (hf : args.prevLogIndex < rf.getFirstLog.index) :
    ∃ v et ps, rf.appendEntries gob args = .ok (rf.following args.term v et ps,
        { term := args.term, success := false }) ∧
      v = (if rf.currentTerm < args.term then none else rf.votedFor) ∧
      (rf.Mirrored gob → durable gob ps = some (args.term, v, rf.logs)) := by
  obtain ⟨v, et, ps, hfollow, hv, hps⟩ := rf.follow_leader gob ht
  refine ⟨v, et, ps, ?_, hv, hps⟩
  unfold appendEntries
  rw [if_neg (by omega)]
  simp only [hfollow]
  rw [following_getFirstLog, if_pos hf]
  rfl

theorem appendEntries_matched {rf : Raft n C} (hw : rf.WellFormed)
    {args : AppendEntriesArgs n C} (hc : Contiguous (args.prevLogIndex + 1) args.entries)
    (ht : rf.currentTerm ≤ args.term) (hf : rf.getFirstLog.index ≤ args.prevLogIndex)
    (hprev : rf.logs[args.prevLogIndex - rf.getFirstLog.index]?.map LogEntry.term =
      some args.prevLogTerm) :
    ∃ v et ps, rf.appendEntries gob args =
        .ok (rf.accepting args v et ps, { term := args.term, success := true }) ∧
      v = (if rf.currentTerm < args.term then none else rf.votedFor) ∧
      (rf.Mirrored gob → durable gob ps =
        some (args.term, v, spliced rf.getFirstLog.index rf.logs args.entries)) := by
  obtain ⟨v, et, ps, hfollow, hv, hps⟩ := rf.follow_leader gob ht
  have hw' : (rf.following args.term v et ps).WellFormed := hw.of_logs rfl
  have hreach : args.prevLogIndex - rf.getFirstLog.index < rf.logs.length := by
    obtain ⟨e, he, _⟩ := Option.map_eq_some_iff.mp hprev
    exact (List.getElem?_eq_some_iff.mp he).1
  obtain ⟨ps', hsp, hps'⟩ := spliceEntries_eq gob (rf.following args.term v et ps) hc
    (show rf.getFirstLog.index ≤ args.prevLogIndex + 1 by omega)
    (show args.prevLogIndex + 1 ≤ rf.getFirstLog.index + rf.logs.length by omega)
  refine ⟨v, et, ps', ?_, hv, fun hm => hps' (hps hm)⟩
  unfold appendEntries
  rw [if_neg (by omega)]
  simp only [hfollow]
  rw [following_getFirstLog, if_neg (Nat.not_lt.mpr hf), hw'.isLogMatched_eq hf]
  simp only [bind, Except.bind, decide_eq_true_eq, following_getFirstLog, following_logs]
  rw [if_pos hprev, hsp]
  simp only [followLeaderCommit_eq]
  rfl

theorem appendEntries_refused {rf : Raft n C} (hw : rf.WellFormed)
    {args : AppendEntriesArgs n C} (ht : rf.currentTerm ≤ args.term)
    (hf : rf.getFirstLog.index ≤ args.prevLogIndex)
    (hno : rf.logs[args.prevLogIndex - rf.getFirstLog.index]?.map LogEntry.term ≠
      some args.prevLogTerm) :
    ∃ v et ps, rf.appendEntries gob args = .ok (rf.following args.term v et ps,
        (rf.following args.term v et ps).refusal args) ∧
      v = (if rf.currentTerm < args.term then none else rf.votedFor) ∧
      (rf.Mirrored gob → durable gob ps = some (args.term, v, rf.logs)) := by
  obtain ⟨v, et, ps, hfollow, hv, hps⟩ := rf.follow_leader gob ht
  have hw' : (rf.following args.term v et ps).WellFormed := hw.of_logs rfl
  refine ⟨v, et, ps, ?_, hv, hps⟩
  unfold appendEntries
  rw [if_neg (by omega)]
  simp only [hfollow]
  rw [following_getFirstLog, if_neg (Nat.not_lt.mpr hf), hw'.isLogMatched_eq hf]
  simp only [bind, Except.bind, decide_eq_true_eq, following_getFirstLog, following_logs]
  rw [if_neg hno, conflictReply_eq hw' hf hno]
  rfl

theorem refusal_facts (rf : Raft n C) (args : AppendEntriesArgs n C) :
    (rf.refusal args).success = false ∧ (rf.refusal args).term = rf.currentTerm ∧
      (rf.refusal args).conflictIndex ≤ args.prevLogIndex + 1 := by
  unfold refusal
  split
  · exact ⟨rfl, rfl, by dsimp only; omega⟩
  · exact ⟨rfl, rfl, le_rfl⟩

theorem appendEntries_handled {rf : Raft n C} (hw : rf.WellFormed) (hm : rf.Mirrored gob)
    {args : AppendEntriesArgs n C} (hc : Contiguous (args.prevLogIndex + 1) args.entries) :
    ∃ rf' reply, rf.appendEntries gob args = .ok (rf', reply) ∧
      AppendHandled gob rf args rf' reply := by
  by_cases ht : args.term < rf.currentTerm
  · exact ⟨rf, _, by rw [appendEntries, if_pos ht], .stale ht⟩
  · have ht : rf.currentTerm ≤ args.term := Nat.le_of_not_lt ht
    by_cases hf : args.prevLogIndex < rf.getFirstLog.index
    · obtain ⟨v, et, ps, heq, hv, hps⟩ := appendEntries_below gob ht hf
      exact ⟨_, _, heq, .refused v et ps _ ht hv (hps hm) rfl rfl (Nat.zero_le _)⟩
    · have hf : rf.getFirstLog.index ≤ args.prevLogIndex := Nat.le_of_not_lt hf
      by_cases hprev : rf.logs[args.prevLogIndex - rf.getFirstLog.index]?.map LogEntry.term =
          some args.prevLogTerm
      · obtain ⟨v, et, ps, heq, hv, hps⟩ := appendEntries_matched gob hw hc ht hf hprev
        exact ⟨_, _, heq, .accepted v et ps ht hv hf hprev (hps hm)⟩
      · obtain ⟨v, et, ps, heq, hv, hps⟩ := appendEntries_refused gob hw ht hf hprev
        obtain ⟨hs, hr, hci⟩ := (rf.following args.term v et ps).refusal_facts args
        exact ⟨_, _, heq, .refused v et ps _ ht hv (hps hm) hs hr hci⟩

theorem appendEntries_inv {rf rf' : Raft n C} (hw : rf.WellFormed) (hm : rf.Mirrored gob)
    {args : AppendEntriesArgs n C} (hc : Contiguous (args.prevLogIndex + 1) args.entries)
    {reply : AppendEntriesReply} (h : rf.appendEntries gob args = .ok (rf', reply)) :
    AppendHandled gob rf args rf' reply := by
  obtain ⟨rf'', reply', hok, hh⟩ := appendEntries_handled gob hw hm hc
  obtain ⟨rfl, rfl⟩ := Prod.mk.inj (Except.ok.inj (hok.symm.trans h))
  exact hh

/-- A peer with a further snapshot message for its service. -/
@[simps]
def queueing (rf : Raft n C) (m : SnapshotMsg) : Raft n C :=
  { rf with snapshotSends := rf.snapshotSends ++ [m] }

inductive SnapshotHandled (rf : Raft n C) (args : InstallSnapshotArgs n) :
    Raft n C → Prop
  | stale (ht : args.term < rf.currentTerm) : SnapshotHandled rf args rf
  | ignored (v : Option (Fin n)) (et : Timer) (ps : Persister)
      (ht : rf.currentTerm ≤ args.term)
      (hv : v = if rf.currentTerm < args.term then none else rf.votedFor)
      (hps : durable gob ps = some (args.term, v, rf.logs)) :
      SnapshotHandled rf args (rf.following args.term v et ps)
  | queued (v : Option (Fin n)) (et : Timer) (ps : Persister)
      (ht : rf.currentTerm ≤ args.term)
      (hv : v = if rf.currentTerm < args.term then none else rf.votedFor)
      (hps : durable gob ps = some (args.term, v, rf.logs))
      (hc : rf.commitIndex < args.lastIncludedIndex) :
      SnapshotHandled rf args
        ((rf.following args.term v et ps).queueing
          ⟨args.data.transmit, args.lastIncludedTerm, args.lastIncludedIndex⟩)

theorem installSnapshot_handled {rf : Raft n C} (hm : rf.Mirrored gob)
    (args : InstallSnapshotArgs n) :
    SnapshotHandled gob rf args (rf.installSnapshot gob args).1 ∧
      (rf.installSnapshot gob args).2 = ⟨rf.currentTerm⟩ := by
  unfold installSnapshot
  dsimp only
  split
  · rename_i hlt
    exact ⟨.stale hlt, rfl⟩
  · obtain ⟨v, et, ps, hfollow, hv, hps⟩ :=
      rf.follow_leader gob (show rf.currentTerm ≤ args.term by omega)
    simp only [hfollow]
    split
    · exact ⟨.ignored v et ps (by omega) hv (hps hm), rfl⟩
    · rename_i hc
      exact ⟨.queued v et ps (by omega) hv (hps hm) (Nat.lt_of_not_le hc), rfl⟩

/-! ## The leader -/

/-- The entry a leader appends for `command`. -/
def newEntry (rf : Raft n C) (command : Option C) : LogEntry C :=
  ⟨command, rf.currentTerm, rf.getLastLog.index + 1⟩

/-- A leader that has appended an entry of its own. -/
@[simps]
def appending (rf : Raft n C) (command : Option C) (ps : Persister) : Raft n C :=
  { rf with
    logs := rf.logs ++ [rf.newEntry command]
    persister := ps
    matchIndex := Function.update rf.matchIndex rf.me (rf.getLastLog.index + 1)
    nextIndex := Function.update rf.nextIndex rf.me (rf.getLastLog.index + 2) }

theorem start_eq (rf : Raft n C) (command : Option C) :
    (rf.state ≠ .leader ∧ rf.start gob command = (rf, none)) ∨
    (rf.state = .leader ∧ ∃ ps,
      rf.start gob command =
        (rf.appending command ps, some (rf.getLastLog.index + 1, rf.currentTerm)) ∧
      durable gob ps =
        some (rf.currentTerm, rf.votedFor, rf.logs ++ [rf.newEntry command])) := by
  unfold start
  by_cases h : rf.state = .leader
  · rw [if_pos h]
    exact .inr ⟨h, _, rfl, durable_save gob _ _ _ _ _⟩
  · rw [if_neg h]
    exact .inl ⟨h, rfl⟩

/-- A request that `replicateOnceRound` sends, and the facts it is built from. -/
inductive Asked (rf : Raft n C) (peer : Fin n) : ReplicationArgs n C → Prop
  | install (hs : rf.state = .leader) (hn : rf.nextIndex peer ≤ rf.getFirstLog.index) :
      Asked rf peer (.install rf.genInstallSnapshotArgs)
  | append (i : Nat) (e : LogEntry C) (hs : rf.state = .leader) (hn : rf.nextIndex peer = i + 1)
      (hf : rf.getFirstLog.index ≤ i) (he : rf.logs[i - rf.getFirstLog.index]? = some e) :
      Asked rf peer (.append
        { term := rf.currentTerm, leaderId := rf.me, prevLogIndex := i, prevLogTerm := e.term,
          leaderCommit := rf.commitIndex,
          entries := rf.logs.drop (i + 1 - rf.getFirstLog.index) })

/-- `genAppendEntriesArgs` panics exactly past the end of the log. -/
theorem genAppendEntriesArgs_eq {rf : Raft n C} (i : Nat) (hf : rf.getFirstLog.index ≤ i) :
    (∃ e, rf.logs[i - rf.getFirstLog.index]? = some e ∧
      rf.genAppendEntriesArgs i = .ok
        { term := rf.currentTerm, leaderId := rf.me, prevLogIndex := i, prevLogTerm := e.term,
          leaderCommit := rf.commitIndex,
          entries := rf.logs.drop (i + 1 - rf.getFirstLog.index) }) ∨
    (rf.getFirstLog.index + rf.logs.length ≤ i ∧
      rf.genAppendEntriesArgs i = .error rf.persister) := by
  by_cases hlt : i - rf.getFirstLog.index < rf.logs.length
  · refine .inl ⟨_, List.getElem?_eq_getElem hlt, ?_⟩
    unfold genAppendEntriesArgs
    rw [logsFrom_eq_ok (by omega) (by omega),
      logAt_eq_ok hf (List.getElem?_eq_getElem hlt)]
    rfl
  · refine .inr ⟨by omega, ?_⟩
    unfold genAppendEntriesArgs logsFrom
    rw [if_pos (by omega)]
    rfl

theorem replicateOnceRound_asked (rf : Raft n C) (peer : Fin n) :
    (rf.state ≠ .leader ∧ rf.replicateOnceRound peer = .ok none) ∨
    (∃ args, rf.replicateOnceRound peer = .ok (some args) ∧ Asked rf peer args) ∨
    rf.replicateOnceRound peer = .error rf.persister := by
  unfold replicateOnceRound
  by_cases hs : rf.state = .leader
  · simp only [hs, ↓reduceIte]
    right
    split
    · exact .inl ⟨_, rfl, .install hs (by omega)⟩
    · rename_i hge
      have hpos : 0 < rf.nextIndex peer := by omega
      have hi : ((rf.nextIndex peer : Int) - 1).toNat = rf.nextIndex peer - 1 := by omega
      have hf : rf.getFirstLog.index ≤ rf.nextIndex peer - 1 := by omega
      rw [hi]
      rcases genAppendEntriesArgs_eq _ hf with ⟨e, he, hgen⟩ | ⟨_, hgen⟩
      · rw [hgen]
        exact .inl ⟨_, rfl, .append _ e hs (by omega) hf he⟩
      · rw [hgen]
        exact .inr rfl
  · simp only [hs, ↓reduceIte]
    exact .inl ⟨hs, rfl⟩

/-- The commit index `advanceCommitIndexForLeader` may leave: the old one, or the
quorum entry of `matchIndex` if the leader holds an entry of its own term there. -/
structure Advanced (rf : Raft n C) (ci : Nat) : Prop where
  above : rf.commitIndex < ci
  quorum : rf.sortMatchIndex[n - (n / 2 + 1)]? = some ci
  first_le : rf.getFirstLog.index ≤ ci
  own_term : rf.logs[ci - rf.getFirstLog.index]?.map LogEntry.term = some rf.currentTerm

/-- A peer whose commit index is set to `ci`. -/
@[simps]
def committing (rf : Raft n C) (ci : Nat) : Raft n C := { rf with commitIndex := ci }

theorem advanceCommitIndexForLeader_eq (rf : Raft n C) (hw : rf.WellFormed) :
    (∃ ci, rf.advanceCommitIndexForLeader = .ok (rf.committing ci) ∧
      (ci = rf.commitIndex ∨ rf.Advanced ci)) ∨
    rf.advanceCommitIndexForLeader = .error rf.persister := by
  unfold advanceCommitIndexForLeader
  dsimp only
  split
  · rename_i hgt
    have hq : rf.sortMatchIndex[n - (n / 2 + 1)]? =
        some (rf.sortMatchIndex.getD (n - (n / 2 + 1)) 0) := by
      rw [List.getD_eq_getElem?_getD] at hgt ⊢
      cases hk : rf.sortMatchIndex[n - (n / 2 + 1)]? with
      | none => simp [hk] at hgt
      | some N => rfl
    generalize rf.sortMatchIndex.getD (n - (n / 2 + 1)) 0 = N at hgt hq
    by_cases hf : rf.getFirstLog.index ≤ N
    · rw [hw.isLogMatched_eq hf]
      simp only [bind, Except.bind, decide_eq_true_eq]
      split
      · rename_i hterm
        exact .inl ⟨N, rfl, .inr ⟨hgt, hq, hf, hterm⟩⟩
      · exact .inl ⟨rf.commitIndex, rfl, .inl rfl⟩
    · have hlast := hw.first_le_last
      have hpanic : rf.isLogMatched N rf.currentTerm = .error rf.persister := by
        unfold isLogMatched logAt
        rw [if_pos (by omega), if_pos (by omega)]
        rfl
      rw [hpanic]
      exact .inr rfl
  · exact .inl ⟨rf.commitIndex, rfl, .inl rfl⟩

/-- The leader's record after a successful `AppendEntries`. -/
@[simps]
def matched (rf : Raft n C) (peer : Fin n) (m : Nat) : Raft n C :=
  { rf with
    matchIndex := Function.update rf.matchIndex peer m
    nextIndex := Function.update rf.nextIndex peer (m + 1) }

/-- The leader's record after a refused `AppendEntries`. -/
@[simps]
def retrying (rf : Raft n C) (peer : Fin n) (i : Nat) : Raft n C :=
  { rf with nextIndex := Function.update rf.nextIndex peer i }

inductive AppendReplyHandled (rf : Raft n C) (peer : Fin n) (args : AppendEntriesArgs n C)
    (reply : AppendEntriesReply) : Raft n C → Prop
  | ignored : AppendReplyHandled rf peer args reply rf
  | behind (et : Timer) (ps : Persister) (ht : rf.currentTerm < reply.term)
      (hps : durable gob ps = some (reply.term, none, rf.logs)) :
      AppendReplyHandled rf peer args reply (rf.behind reply.term et ps)
  | backedOff (i : Nat) (ht : args.term = rf.currentTerm) (hs : rf.state = .leader)
      (hsucc : reply.success = false)
      (hi : i = reply.conflictIndex ∨ i ≤ args.prevLogIndex) :
      AppendReplyHandled rf peer args reply (rf.retrying peer i)
  | matched (ci : Nat) (ht : args.term = rf.currentTerm) (hs : rf.state = .leader)
      (hsucc : reply.success = true)
      (hci : ci = rf.commitIndex ∨
        (rf.matched peer (args.prevLogIndex + args.entries.length)).Advanced ci) :
      AppendReplyHandled rf peer args reply
        ((rf.matched peer (args.prevLogIndex + args.entries.length)).committing ci)

theorem backOff_handled (rf : Raft n C) (peer : Fin n) (args : AppendEntriesArgs n C)
    (reply : AppendEntriesReply) :
    (∃ i, rf.backOff peer args reply = .ok (rf.retrying peer i) ∧
      (i = reply.conflictIndex ∨ i ≤ args.prevLogIndex)) ∨
    rf.backOff peer args reply = .error rf.persister := by
  unfold backOff
  split
  · exact .inl ⟨_, rfl, .inl rfl⟩
  · rcases rf.findTerm_eq reply.conflictTerm (args.prevLogIndex - rf.getFirstLog.index)
      with ⟨r, hfind, hr⟩ | hfind
    · rw [hfind]
      refine .inl ⟨_, rfl, ?_⟩
      cases r with
      | none => exact .inl rfl
      | some i =>
        have := hr i rfl
        exact .inr (by simp only [Option.getD_some]; omega)
    · rw [hfind]
      exact .inr rfl

theorem onAppendEntriesReply_handled {rf : Raft n C} (hw : rf.WellFormed) (peer : Fin n)
    (args : AppendEntriesArgs n C) (reply : AppendEntriesReply) :
    (∃ rf', rf.onAppendEntriesReply gob peer args reply = .ok rf' ∧
      AppendReplyHandled gob rf peer args reply rf') ∨
    rf.onAppendEntriesReply gob peer args reply = .error rf.persister := by
  unfold onAppendEntriesReply
  split
  · rename_i hcur
    split
    · rename_i hsucc
      rcases advanceCommitIndexForLeader_eq
        (rf.matched peer (args.prevLogIndex + args.entries.length))
        (hw.of_logs rfl) with ⟨ci, hadv, hci⟩ | hadv
      · exact .inl ⟨_, hadv, .matched ci hcur.1 hcur.2 hsucc hci⟩
      · exact .inr hadv
    · rename_i hsucc
      split
      · rename_i hgt
        obtain ⟨et, ps, hb, hps⟩ := rf.follower_adoptTerm gob reply.term
        rw [hb]
        exact .inl ⟨_, rfl, .behind et ps hgt hps⟩
      · split
        · rcases rf.backOff_handled peer args reply with ⟨i, hback, hi⟩ | hback
          · exact .inl ⟨_, hback, .backedOff i hcur.1 hcur.2 (by simpa using hsucc) hi⟩
          · exact .inr hback
        · exact .inl ⟨_, rfl, .ignored⟩
  · exact .inl ⟨_, rfl, .ignored⟩

theorem onAppendEntriesReply_inv {rf rf' : Raft n C} (hw : rf.WellFormed) {peer : Fin n}
    {args : AppendEntriesArgs n C} {reply : AppendEntriesReply}
    (h : rf.onAppendEntriesReply gob peer args reply = .ok rf') :
    AppendReplyHandled gob rf peer args reply rf' := by
  rcases onAppendEntriesReply_handled gob hw peer args reply with ⟨rf'', hok, hh⟩ | herr
  · obtain rfl := Except.ok.inj (hok.symm.trans h)
    exact hh
  · cases herr.symm.trans h

inductive InstallReplyHandled (rf : Raft n C) (peer : Fin n) (args : InstallSnapshotArgs n)
    (reply : InstallSnapshotReply) : Raft n C → Prop
  | ignored : InstallReplyHandled rf peer args reply rf
  | behind (et : Timer) (ps : Persister) (ht : rf.currentTerm < reply.term)
      (hps : durable gob ps = some (reply.term, none, rf.logs)) :
      InstallReplyHandled rf peer args reply (rf.behind reply.term et ps)
  | recorded (ht : args.term = rf.currentTerm) (hs : rf.state = .leader) :
      InstallReplyHandled rf peer args reply (rf.matched peer args.lastIncludedIndex)

theorem onInstallSnapshotReply_handled (rf : Raft n C) (peer : Fin n)
    (args : InstallSnapshotArgs n) (reply : InstallSnapshotReply) :
    InstallReplyHandled gob rf peer args reply
      (rf.onInstallSnapshotReply gob peer args reply) := by
  unfold onInstallSnapshotReply
  split
  · rename_i hcur
    split
    · rename_i hgt
      obtain ⟨et, ps, hb, hps⟩ := rf.follower_adoptTerm gob reply.term
      rw [hb]
      exact .behind et ps hgt hps
    · exact .recorded hcur.2.symm hcur.1
  · exact .ignored

/-! ## Snapshots and the applier -/

/-- The log cut at index `i`, with a dummy of term `t` in front. -/
def cutLogs (rf : Raft n C) (t i : Nat) : List (LogEntry C) :=
  ⟨none, t, i⟩ :: rf.logs.drop (i + 1 - rf.getFirstLog.index)

/-- A peer that has compacted its log up to index `i`, where the term is `t`. -/
@[simps]
def compacting (rf : Raft n C) (t i : Nat) (ps : Persister) : Raft n C :=
  { rf with logs := rf.cutLogs t i, persister := ps }

inductive SnapshotTaken (rf : Raft n C) (index : Nat) : Raft n C → Prop
  | rejected : SnapshotTaken rf index rf
  | taken (e : LogEntry C) (ps : Persister) (hf : rf.getFirstLog.index < index)
      (he : rf.logs[index - rf.getFirstLog.index]? = some e)
      (hps : durable gob ps = some (rf.currentTerm, rf.votedFor, rf.cutLogs e.term index)) :
      SnapshotTaken rf index (rf.compacting e.term index ps)

/-- An index inside the log is accepted. -/
theorem snapshot_accepted {rf : Raft n C} (hw : rf.WellFormed) {index : Nat}
    (hf : rf.getFirstLog.index < index) (hl : index ≤ rf.getLastLog.index) (data : Option Bytes) :
    ∃ e ps, rf.logs[index - rf.getFirstLog.index]? = some e ∧
      rf.snapshot gob index data = .ok (rf.compacting e.term index ps) ∧
      durable gob ps = some (rf.currentTerm, rf.votedFor, rf.cutLogs e.term index) := by
  have hlast := hw.last_index
  obtain ⟨e, he, hidx⟩ := hw.exists_at hf.le hl
  have hlt := (List.getElem?_eq_some_iff.mp he).1
  unfold snapshot
  rw [if_neg (by omega), logsFrom_eq_ok (by omega) (by omega), List.drop_eq_getElem_cons hlt]
  have hcut : ({ e with command := none } : LogEntry C) ::
      rf.logs.drop (index - rf.getFirstLog.index + 1) = rf.cutLogs e.term index := by
    unfold cutLogs
    rw [show index - rf.getFirstLog.index + 1 = index + 1 - rf.getFirstLog.index by omega,
      ← hidx]
  rw [(List.getElem?_eq_some_iff.mp he).2]
  simp only [shrinkEntries, clearHead, bind, Except.bind, pure, Except.pure, hcut]
  exact ⟨e, _, he, rfl, durable_save gob _ _ _ _ _⟩

theorem snapshot_taken {rf : Raft n C} (hw : rf.WellFormed) (index : Nat)
    (data : Option Bytes) :
    ∃ rf', rf.snapshot gob index data = .ok rf' ∧ SnapshotTaken gob rf index rf' := by
  by_cases hout : index ≤ rf.getFirstLog.index ∨ index > rf.getLastLog.index
  · refine ⟨rf, ?_, .rejected⟩
    unfold snapshot
    rw [if_pos hout]
    rfl
  · obtain ⟨e, ps, he, heq, hps⟩ :=
      snapshot_accepted gob hw (show rf.getFirstLog.index < index by omega) (by omega) data
    exact ⟨_, heq, .taken e ps (by omega) he hps⟩

theorem snapshot_inv {rf rf' : Raft n C} (hw : rf.WellFormed) {index : Nat}
    {data : Option Bytes} (h : rf.snapshot gob index data = .ok rf') :
    SnapshotTaken gob rf index rf' := by
  obtain ⟨rf'', hok, ht⟩ := snapshot_taken gob hw index data
  obtain rfl := Except.ok.inj (hok.symm.trans h)
  exact ht

/-- The peer after an accepted snapshot of term `t` and index `i`. -/
@[simps]
def installed (rf : Raft n C) (t i : Nat) (ps : Persister) : Raft n C :=
  { rf with logs := rf.cutLogs t i, commitIndex := i, lastApplied := i, persister := ps }

inductive InstallTried (rf : Raft n C) (t i : Nat) : Raft n C → Bool → Prop
  | outdated (hc : i ≤ rf.commitIndex) : InstallTried rf t i rf false
  | accepted (ps : Persister) (hc : rf.commitIndex < i) (hf : rf.getFirstLog.index ≤ i)
      (hps : durable gob ps = some (rf.currentTerm, rf.votedFor, rf.cutLogs t i)) :
      InstallTried rf t i (rf.installed t i ps) true

/-- A snapshot beyond `commitIndex` is accepted, if the log does not begin beyond it. -/
theorem condInstallSnapshot_accepted {rf : Raft n C} (hw : rf.WellFormed) {t i : Nat}
    (hc : rf.commitIndex < i) (hf : rf.getFirstLog.index ≤ i) (data : Option Bytes) :
    ∃ ps, rf.condInstallSnapshot gob t i data = .ok (rf.installed t i ps, true) ∧
      durable gob ps = some (rf.currentTerm, rf.votedFor, rf.cutLogs t i) := by
  have hlast := hw.last_index
  unfold condInstallSnapshot installedLog
  rw [if_neg (by omega)]
  by_cases hgt : i > rf.getLastLog.index
  · have hcut : [(⟨none, t, i⟩ : LogEntry C)] = rf.cutLogs t i := by
      unfold cutLogs
      rw [List.drop_eq_nil_of_le (by omega)]
    simp only [hgt, ↓reduceIte, bind, Except.bind, pure, Except.pure, LogEntry.dummy, hcut]
    exact ⟨_, rfl, durable_save gob _ _ _ _ _⟩
  · obtain ⟨e, he, -⟩ := hw.exists_at hf (by omega)
    have hlt := (List.getElem?_eq_some_iff.mp he).1
    have hcut : (⟨none, t, i⟩ : LogEntry C) ::
        rf.logs.drop (i - rf.getFirstLog.index + 1) = rf.cutLogs t i := by
      unfold cutLogs
      rw [show i - rf.getFirstLog.index + 1 = i + 1 - rf.getFirstLog.index by omega]
    simp only [hgt, ↓reduceIte]
    rw [logsFrom_eq_ok hf (by omega), List.drop_eq_getElem_cons hlt]
    simp only [shrinkEntries, clearHead, bind, Except.bind, pure, Except.pure, hcut]
    exact ⟨_, rfl, durable_save gob _ _ _ _ _⟩

theorem condInstallSnapshot_tried {rf : Raft n C} (hw : rf.WellFormed) (t i : Nat)
    (data : Option Bytes) :
    (∃ rf' result, rf.condInstallSnapshot gob t i data = .ok (rf', result) ∧
      InstallTried gob rf t i rf' result) ∨
    rf.condInstallSnapshot gob t i data = .error rf.persister := by
  by_cases hc : i ≤ rf.commitIndex
  · exact .inl ⟨rf, false, by rw [condInstallSnapshot, if_pos hc]; rfl, .outdated hc⟩
  · by_cases hf : rf.getFirstLog.index ≤ i
    · obtain ⟨ps, heq, hps⟩ :=
        condInstallSnapshot_accepted gob hw (Nat.lt_of_not_le hc) hf data
      exact .inl ⟨_, _, heq, .accepted ps (Nat.lt_of_not_le hc) hf hps⟩
    · have hfl := hw.first_le_last
      refine .inr ?_
      unfold condInstallSnapshot installedLog logsFrom
      rw [if_neg hc, if_neg (by omega), if_pos (by omega)]
      rfl

theorem condInstallSnapshot_inv {rf rf' : Raft n C} (hw : rf.WellFormed) {t i : Nat}
    {data : Option Bytes} {result : Bool}
    (h : rf.condInstallSnapshot gob t i data = .ok (rf', result)) :
    InstallTried gob rf t i rf' result := by
  rcases condInstallSnapshot_tried gob hw t i data with ⟨rf'', result', hok, ht⟩ | herr
  · obtain ⟨rfl, rfl⟩ := Prod.mk.inj (Except.ok.inj (hok.symm.trans h))
    exact ht
  · cases herr.symm.trans h

/-- The entries of a batch: `rf.logs`, with what lies behind it in memory, from
`lastApplied + 1` to `commitIndex`. -/
def batch (rf : Raft n C) (spare : List (LogEntry C)) : List (LogEntry C) :=
  ((rf.logs ++ spare).take (rf.commitIndex + 1 - rf.getFirstLog.index)).drop
    (rf.lastApplied + 1 - rf.getFirstLog.index)

/-- A peer whose applier is in the middle of a batch. -/
@[simps]
def sending (rf : Raft n C) (ci : Nat) (entries : List (LogEntry C)) : Raft n C :=
  { rf with applier := .sending ci entries }

theorem copyBatch_eq (rf : Raft n C) (spare : List (LogEntry C)) :
    (rf.getFirstLog.index ≤ rf.lastApplied + 1 ∧
      rf.commitIndex + 1 - rf.getFirstLog.index ≤ (rf.logs ++ spare).length ∧
      rf.copyBatch spare = .ok (rf.sending rf.commitIndex (rf.batch spare))) ∨
    rf.copyBatch spare = .error rf.persister := by
  unfold copyBatch
  dsimp only
  split
  · exact .inr rfl
  · exact .inl ⟨by omega, by omega, rfl⟩

end RaftImplementation.Raft
