import RaftImplementation.Raft.State

/-!
# The critical sections of one Raft peer (`raft.go`, `rpc.go`)

One function for each stretch of code that runs under `rf.mu`: the RPC handlers,
the code that processes an RPC reply, the ticker's election, the calls of the
service, and the two locked halves of the applier. A method that sends an RPC
between two critical sections is cut at the RPC: `replicateOnceRound` ends with
the request, and `onAppendEntriesReply`, `onInstallSnapshotReply` and
`onRequestVoteReply` are what the same goroutine does with the answer.
-/

namespace RaftImplementation.Raft

variable {n : Nat} {C : Type} (gob : Gob n C)

/-! ## Elections -/

def isLogUpToDate (rf : Raft n C) (index term : Nat) : Bool :=
  term > rf.getLastLog.term || (term = rf.getLastLog.term && index ≥ rf.getLastLog.index)

def genRequestVoteArgs (rf : Raft n C) : RequestVoteArgs n :=
  { term := rf.currentTerm
    candidateId := rf.me
    lastLogIndex := rf.getLastLog.index
    lastLogTerm := rf.getLastLog.term }

/-- `StartElection` up to its goroutines: the request they send is returned. -/
def startElection (rf : Raft n C) : Raft n C × RequestVoteArgs n :=
  let rf := ({ rf with votedFor := some rf.me } : Raft n C).persist gob
  ({ rf with grantedVotes := 1 }, rf.genRequestVoteArgs)

/-- The ticker's critical section after a receive from `electionTimer.C`. -/
def electionTimeout (rf : Raft n C) : Raft n C × RequestVoteArgs n :=
  let rf := rf.changeState .candidate
  let rf := ({ rf with currentTerm := rf.currentTerm + 1 } : Raft n C).persist gob
  let (rf, args) := rf.startElection gob
  ({ rf.resetElectionTimer with ticking := false }, args)

def requestVote (rf : Raft n C) (args : RequestVoteArgs n) : Raft n C × RequestVoteReply :=
  if args.term < rf.currentTerm ∨
      (args.term = rf.currentTerm ∧ rf.votedFor ≠ none ∧ rf.votedFor ≠ some args.candidateId) then
    (rf, ⟨rf.currentTerm, false⟩)
  else
    let rf :=
      if args.term > rf.currentTerm then (rf.changeState .follower).adoptTerm gob args.term
      else rf
    if rf.isLogUpToDate args.lastLogIndex args.lastLogTerm then
      let rf := ({ rf with votedFor := some args.candidateId } : Raft n C).persist gob
      (rf.resetElectionTimer, ⟨rf.currentTerm, true⟩)
    else (rf, ⟨rf.currentTerm, false⟩)

/-- The closure of `StartElection` that waits for one peer. -/
def onRequestVoteReply (rf : Raft n C) (args : RequestVoteArgs n) (reply : RequestVoteReply) :
    Raft n C :=
  if args.term = rf.currentTerm ∧ rf.state = .candidate then
    if reply.voteGranted then
      let rf := { rf with grantedVotes := rf.grantedVotes + 1 }
      if rf.grantedVotes > n / 2 then rf.changeState .leader else rf
    else if reply.term > rf.currentTerm then
      (rf.changeState .follower).adoptTerm gob reply.term
    else rf
  else rf

/-! ## Slices of the log -/

/-- `rf.logs[index-rf.getFirstLog().Index:]`. -/
def logsFrom (rf : Raft n C) (index : Nat) : Section (List (LogEntry C)) :=
  if index < rf.getFirstLog.index ∨ rf.logs.length < index - rf.getFirstLog.index then
    .error rf.persister
  else .ok (rf.logs.drop (index - rf.getFirstLog.index))

/-- `rf.logs[0].Command = nil` on a freshly cut log. -/
def clearHead (rf : Raft n C) : List (LogEntry C) → Section (List (LogEntry C))
  | [] => .error rf.persister
  | e :: es => .ok ({ e with command := none } :: es)

def isLogMatched (rf : Raft n C) (index term : Nat) : Section Bool :=
  if index ≤ rf.getLastLog.index then do
    let e ← rf.logAt index
    return e.term = term
  else return false

/-! ## Log replication: the follower -/

/-- The loop of `AppendEntries` that walks back over the entries of term `term`.
The argument is the number of log positions not yet passed. -/
def scanBack (rf : Raft n C) (term : Nat) : Nat → Section Nat
  | 0 => .ok 0
  | m + 1 =>
    match rf.logs[m]? with
    | none => .error rf.persister
    | some e => if e.term = term then scanBack rf term m else .ok (m + 1)

/-- The reply of `AppendEntries` when the entry before the new ones does not match. -/
def conflictReply (rf : Raft n C) (args : AppendEntriesArgs n C) :
    Section AppendEntriesReply :=
  if rf.getLastLog.index < args.prevLogIndex then
    .ok ⟨rf.currentTerm, false, rf.getLastLog.index + 1, -1⟩
  else do
    let m ← rf.scanBack args.prevLogTerm (args.prevLogIndex + 1 - rf.getFirstLog.index)
    return ⟨rf.currentTerm, false, rf.getFirstLog.index + m, args.prevLogTerm⟩

/-- The loop of `AppendEntries` that looks for the first entry the log does not
have and replaces the log from there. Slicing past the length counts as a panic:
the entries of a request are contiguous, so it does not happen. -/
def spliceEntries (rf : Raft n C) : List (LogEntry C) → Section (Raft n C)
  | [] => .ok rf
  | entry :: rest =>
    if entry.index < rf.getFirstLog.index then .error rf.persister
    else
      let k := entry.index - rf.getFirstLog.index
      let replaced : Raft n C :=
        { rf with logs := shrinkEntries (rf.logs.take k ++ entry :: rest) }
      match rf.logs[k]? with
      | some e => if e.term = entry.term then spliceEntries rf rest else .ok (replaced.persist gob)
      | none => if k = rf.logs.length then .ok (replaced.persist gob) else .error rf.persister

/-- The follower's commit index after a successful `AppendEntries`. -/
def followLeaderCommit (rf : Raft n C) (leaderCommit : Nat) : Raft n C :=
  let newCommitIndex := min leaderCommit rf.getLastLog.index
  if newCommitIndex > rf.commitIndex then { rf with commitIndex := newCommitIndex } else rf

def appendEntries (rf : Raft n C) (args : AppendEntriesArgs n C) :
    Section (Raft n C × AppendEntriesReply) :=
  if args.term < rf.currentTerm then .ok (rf, { term := rf.currentTerm, success := false })
  else
    let rf := if args.term > rf.currentTerm then rf.adoptTerm gob args.term else rf
    let rf := (rf.changeState .follower).resetElectionTimer
    if args.prevLogIndex < rf.getFirstLog.index then
      .ok (rf, { term := rf.currentTerm, success := false })
    else do
      if ← rf.isLogMatched args.prevLogIndex args.prevLogTerm then
        let rf ← rf.spliceEntries gob args.entries
        return (rf.followLeaderCommit args.leaderCommit,
          { term := rf.currentTerm, success := true })
      else
        let reply ← rf.conflictReply args
        return (rf, reply)

/-- The reply carries the term from before the request. -/
def installSnapshot (rf : Raft n C) (args : InstallSnapshotArgs n) :
    Raft n C × InstallSnapshotReply :=
  let reply : InstallSnapshotReply := ⟨rf.currentTerm⟩
  if args.term < rf.currentTerm then (rf, reply)
  else
    let rf := if args.term > rf.currentTerm then rf.adoptTerm gob args.term else rf
    let rf := (rf.changeState .follower).resetElectionTimer
    if args.lastIncludedIndex ≤ rf.commitIndex then (rf, reply)
    else
      let m : SnapshotMsg :=
        ⟨args.data.transmit, args.lastIncludedTerm, args.lastIncludedIndex⟩
      ({ rf with snapshotSends := rf.snapshotSends ++ [m] }, reply)

/-! ## Log replication: the leader -/

def start (rf : Raft n C) (command : Option C) : Raft n C × Option (Nat × Nat) :=
  if rf.state = .leader then
    let newLogIndex := rf.getLastLog.index + 1
    let rf := ({ rf with logs := rf.logs ++ [⟨command, rf.currentTerm, newLogIndex⟩] }
      : Raft n C).persist gob
    ({ rf with
        matchIndex := Function.update rf.matchIndex rf.me newLogIndex
        nextIndex := Function.update rf.nextIndex rf.me (newLogIndex + 1) },
      some (newLogIndex, rf.currentTerm))
  else (rf, none)

def genAppendEntriesArgs (rf : Raft n C) (prevLogIndex : Nat) :
    Section (AppendEntriesArgs n C) := do
  let entries ← rf.logsFrom (prevLogIndex + 1)
  let prev ← rf.logAt prevLogIndex
  return { term := rf.currentTerm
           leaderId := rf.me
           prevLogIndex := prevLogIndex
           prevLogTerm := prev.term
           leaderCommit := rf.commitIndex
           entries := entries }

def genInstallSnapshotArgs (rf : Raft n C) : InstallSnapshotArgs n :=
  { term := rf.currentTerm
    leaderId := rf.me
    lastIncludedIndex := rf.getFirstLog.index
    lastIncludedTerm := rf.getFirstLog.term
    data := rf.persister.readSnapshot }

/-- The request with which `replicateOnceRound` begins. -/
inductive ReplicationArgs (n : Nat) (C : Type) where
  | install (args : InstallSnapshotArgs n)
  | append (args : AppendEntriesArgs n C)
  deriving DecidableEq, Repr

def replicateOnceRound (rf : Raft n C) (peer : Fin n) :
    Section (Option (ReplicationArgs n C)) :=
  if rf.state = .leader then
    let prevLogIndex : Int := (rf.nextIndex peer : Int) - 1
    if prevLogIndex < rf.getFirstLog.index then return some (.install rf.genInstallSnapshotArgs)
    else do
      let args ← rf.genAppendEntriesArgs prevLogIndex.toNat
      return some (.append args)
  else return none

/-- The `matchIndex` values in increasing order. -/
def sortMatchIndex (rf : Raft n C) : List Nat :=
  (List.ofFn rf.matchIndex).insertionSort (· ≤ ·)

def advanceCommitIndexForLeader (rf : Raft n C) : Section (Raft n C) :=
  let newCommitIndex := rf.sortMatchIndex.getD (n - (n / 2 + 1)) 0
  if newCommitIndex > rf.commitIndex then do
    if ← rf.isLogMatched newCommitIndex rf.currentTerm then
      return { rf with commitIndex := newCommitIndex }
    else return rf
  else return rf

/-- The leader's search, downwards, for an entry of the conflicting term. The
argument is the number of log positions not yet passed. -/
def findTerm (rf : Raft n C) (term : Int) : Nat → Section (Option Nat)
  | 0 => .ok none
  | m + 1 =>
    match rf.logs[m]? with
    | none => .error rf.persister
    | some e =>
      if (e.term : Int) = term then .ok (some (rf.getFirstLog.index + m))
      else findTerm rf term m

def onInstallSnapshotReply (rf : Raft n C) (peer : Fin n) (args : InstallSnapshotArgs n)
    (reply : InstallSnapshotReply) : Raft n C :=
  if rf.state = .leader ∧ rf.currentTerm = args.term then
    if reply.term > rf.currentTerm then (rf.changeState .follower).adoptTerm gob reply.term
    else
      { rf with
        nextIndex := Function.update rf.nextIndex peer (args.lastIncludedIndex + 1)
        matchIndex := Function.update rf.matchIndex peer args.lastIncludedIndex }
  else rf

/-- The part of `onAppendEntriesReply` for a refusal in the leader's own term. -/
def backOff (rf : Raft n C) (peer : Fin n) (args : AppendEntriesArgs n C)
    (reply : AppendEntriesReply) : Section (Raft n C) := do
  let found ←
    if reply.conflictTerm = -1 then pure none
    else rf.findTerm reply.conflictTerm (args.prevLogIndex - rf.getFirstLog.index)
  let nextIndex := found.getD reply.conflictIndex
  return { rf with nextIndex := Function.update rf.nextIndex peer nextIndex }

def onAppendEntriesReply (rf : Raft n C) (peer : Fin n) (args : AppendEntriesArgs n C)
    (reply : AppendEntriesReply) : Section (Raft n C) :=
  if args.term = rf.currentTerm ∧ rf.state = .leader then
    if reply.success then
      let matched := args.prevLogIndex + args.entries.length
      ({ rf with
          matchIndex := Function.update rf.matchIndex peer matched
          nextIndex := Function.update rf.nextIndex peer (matched + 1) }
        : Raft n C).advanceCommitIndexForLeader
    else if reply.term > rf.currentTerm then
      return (rf.changeState .follower).adoptTerm gob reply.term
    else if reply.term = rf.currentTerm then rf.backOff peer args reply
    else return rf
  else return rf

/-! ## Snapshots -/

/-- `SaveStateAndSnapshot(rf.encodeState(), snapshot)`. -/
def persistSnapshot (rf : Raft n C) (snapshot : Option Bytes) : Raft n C :=
  { rf with persister := rf.persister.saveStateAndSnapshot (rf.encodeState gob) snapshot }

def snapshot (rf : Raft n C) (index : Nat) (snapshot : Option Bytes) : Section (Raft n C) :=
  if index ≤ rf.getFirstLog.index ∨ index > rf.getLastLog.index then return rf
  else do
    let logs ← rf.logsFrom index
    let logs ← rf.clearHead (shrinkEntries logs)
    return ({ rf with logs := logs } : Raft n C).persistSnapshot gob snapshot

/-- The log that `CondInstallSnapshot` leaves, before its head is overwritten. -/
def installedLog (rf : Raft n C) (lastIncludedIndex : Nat) : Section (List (LogEntry C)) :=
  if lastIncludedIndex > rf.getLastLog.index then return [.dummy]
  else do
    let logs ← rf.logsFrom lastIncludedIndex
    rf.clearHead (shrinkEntries logs)

def condInstallSnapshot (rf : Raft n C) (lastIncludedTerm lastIncludedIndex : Nat)
    (snapshot : Option Bytes) : Section (Raft n C × Bool) :=
  if lastIncludedIndex ≤ rf.commitIndex then return (rf, false)
  else do
    match ← rf.installedLog lastIncludedIndex with
    | [] => .error rf.persister
    | e :: es =>
      let rf : Raft n C :=
        { rf with
          logs := { e with term := lastIncludedTerm, index := lastIncludedIndex } :: es
          commitIndex := lastIncludedIndex
          lastApplied := lastIncludedIndex }
      return (rf.persistSnapshot gob snapshot, true)

/-! ## The applier -/

/-- The first critical section of the applier, once `commitIndex > lastApplied`.
Slicing `rf.logs` up to `commitIndex` may run past its length but not past its
capacity; `spare` is what the backing array holds there. -/
def copyBatch (rf : Raft n C) (spare : List (LogEntry C)) : Section (Raft n C) :=
  let first := rf.getFirstLog.index
  let high := rf.commitIndex + 1 - first
  if rf.lastApplied + 1 < first ∨ (rf.logs ++ spare).length < high then .error rf.persister
  else
    let entries := ((rf.logs ++ spare).take high).drop (rf.lastApplied + 1 - first)
    return { rf with applier := .sending rf.commitIndex entries }

/-- The second critical section of the applier, after the whole batch is sent. -/
def finishBatch (rf : Raft n C) (commitIndex : Nat) : Raft n C :=
  { rf with lastApplied := max rf.lastApplied commitIndex, applier := .waiting }

end RaftImplementation.Raft
