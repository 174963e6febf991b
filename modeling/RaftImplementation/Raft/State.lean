import Mathlib.Logic.Function.Basic
import Mathlib.Data.List.Sort

/-!
# The state of one Raft peer (`raft.go`, `util.go`, `persister.go`, `rpc.go`)

Everything is generic in the number `n` of peers and in the type `C` of the
commands whose dynamic type is registered with `labgob`. Terms and indices are
natural numbers, and the Go sentinel `votedFor = -1` is `none`. A Go slice is
the list of its elements; the one place where the code may read past the length
of a slice is the applier (`Raft.copyBatch`), which models it.

A critical section is a function on `Raft`. Where the Go code indexes or slices
a log, the function runs in `Section`, and an access out of range is a panic.
-/

namespace RaftImplementation

/-- `[]byte`. -/
abbrev Bytes := List UInt8

/-- `labgob` does not transmit an empty slice: the receiver sees nil. -/
def Bytes.transmit (data : Bytes) : Option Bytes := if data = [] then none else some data

inductive NodeState where
  | follower
  | candidate
  | leader
  deriving DecidableEq, Repr

/-- One slot of the log. `Command` is an interface, and its nil value is `none`. -/
structure LogEntry (C : Type) where
  command : Option C
  term : Nat
  index : Nat
  deriving DecidableEq, Repr

/-- The zero `LogEntry`, which `make([]LogEntry, 1)` puts at position 0. -/
def LogEntry.dummy {C : Type} : LogEntry C := ⟨none, 0, 0⟩

/-! ## Persister -/

/-- What the code relies on in `labgob`: the triple that `encodeState` writes can
be read back, and its encoding is not empty. -/
structure Gob (n : Nat) (C : Type) where
  encode : Nat → Option (Fin n) → List (LogEntry C) → Bytes
  decode : Bytes → Option (Nat × Option (Fin n) × List (LogEntry C))
  decode_encode : ∀ t v l, decode (encode t v l) = some (t, v, l)
  encode_ne_nil : ∀ t v l, encode t v l ≠ []

structure Persister where
  raftstate : Bytes
  snapshot : Bytes
  deriving DecidableEq, Repr

def makePersister : Persister := ⟨[], []⟩

/-- A nil snapshot means: keep the one that is there. -/
def Persister.saveStateAndSnapshot (ps : Persister) (raftstate : Bytes)
    (snapshot : Option Bytes) : Persister :=
  ⟨raftstate, snapshot.getD ps.snapshot⟩

def Persister.readRaftState (ps : Persister) : Bytes := ps.raftstate

def Persister.readSnapshot (ps : Persister) : Bytes := ps.snapshot

/-! ## Messages -/

structure RequestVoteArgs (n : Nat) where
  term : Nat
  candidateId : Fin n
  lastLogIndex : Nat
  lastLogTerm : Nat
  deriving DecidableEq, Repr

structure RequestVoteReply where
  term : Nat
  voteGranted : Bool
  deriving DecidableEq, Repr

structure AppendEntriesArgs (n : Nat) (C : Type) where
  term : Nat
  leaderId : Fin n
  prevLogIndex : Nat
  prevLogTerm : Nat
  leaderCommit : Nat
  entries : List (LogEntry C)
  deriving DecidableEq, Repr

/-- The conflict fields keep their zero values where the handler does not set them. -/
structure AppendEntriesReply where
  term : Nat
  success : Bool
  conflictIndex : Nat := 0
  conflictTerm : Int := 0
  deriving DecidableEq, Repr

structure InstallSnapshotArgs (n : Nat) where
  term : Nat
  leaderId : Fin n
  lastIncludedIndex : Nat
  lastIncludedTerm : Nat
  data : Bytes
  deriving DecidableEq, Repr

structure InstallSnapshotReply where
  term : Nat
  deriving DecidableEq, Repr

/-- The snapshot half of `ApplyMsg` (`SnapshotValid: true`). -/
structure SnapshotMsg where
  snapshot : Option Bytes
  snapshotTerm : Nat
  snapshotIndex : Nat
  deriving DecidableEq, Repr

inductive ApplyMsg (C : Type) where
  | command (cmd : Option C) (commandIndex commandTerm : Nat)
  | snapshot (m : SnapshotMsg)
  deriving DecidableEq, Repr

/-! ## Timers and goroutines -/

/-- A `time.Timer` of go 1.15: `Stop` and `Reset` leave a tick that is already in
the channel where it is. -/
structure Timer where
  running : Bool
  ticked : Bool
  deriving DecidableEq, Repr

def Timer.reset (t : Timer) : Timer := { t with running := true }

def Timer.stop (t : Timer) : Timer := { t with running := false }

/-- Where the applier goroutine stands: at the top of its loop, or with a copied
batch (taken when `commitIndex` had the given value) of which `entries` are not
yet sent. -/
inductive Applier (C : Type) where
  | waiting
  | sending (commitIndex : Nat) (entries : List (LogEntry C))
  deriving DecidableEq, Repr

/-- `type Raft struct`, with the state of its goroutines. The gradient manager is
a fold over the entries the applier has sent and is not part of the protocol. -/
structure Raft (n : Nat) (C : Type) where
  me : Fin n
  persister : Persister
  currentTerm : Nat
  votedFor : Option (Fin n)
  logs : List (LogEntry C)
  commitIndex : Nat
  lastApplied : Nat
  nextIndex : Fin n → Nat
  matchIndex : Fin n → Nat
  state : NodeState
  electionTimer : Timer
  /-- The ticker has received from `electionTimer.C` and waits for the lock. -/
  ticking : Bool
  /-- The counter shared by the vote closures of the latest `StartElection`; older
  closures never touch theirs again, as their term is not the current one. -/
  grantedVotes : Nat
  applier : Applier C
  /-- The goroutines of `InstallSnapshot` that have not yet sent their message. -/
  snapshotSends : List SnapshotMsg

/-- The outcome of a critical section: a value, or a panic. A panic ends the
process, of which only the persister remains. -/
abbrev Section (α : Type) := Except Persister α

namespace Raft

variable {n : Nat} {C : Type}

/-! ## `util.go` -/

/-- The log is never empty (`logs[0]` is the dummy entry). -/
def getFirstLog (rf : Raft n C) : LogEntry C := rf.logs.headD .dummy

def getLastLog (rf : Raft n C) : LogEntry C := rf.logs.getLastD .dummy

/-- `rf.logs[index-rf.getFirstLog().Index]`. -/
def logAt (rf : Raft n C) (index : Nat) : Section (LogEntry C) :=
  if index < rf.getFirstLog.index then .error rf.persister
  else match rf.logs[index - rf.getFirstLog.index]? with
    | some e => .ok e
    | none => .error rf.persister

/-- Only the capacity of the slice changes. -/
def shrinkEntries (entries : List (LogEntry C)) : List (LogEntry C) := entries

/-! ## Persistence and roles (`raft.go`) -/

variable (gob : Gob n C)

def encodeState (rf : Raft n C) : Bytes := gob.encode rf.currentTerm rf.votedFor rf.logs

def persist (rf : Raft n C) : Raft n C :=
  { rf with persister := rf.persister.saveStateAndSnapshot (rf.encodeState gob) none }

/-- A failed `Decode` leaves a nil log, on which `getFirstLog` panics. -/
def readPersist (rf : Raft n C) (data : Bytes) : Option (Raft n C) :=
  if data = [] then some rf
  else match gob.decode data with
    | none => none
    | some (currentTerm, votedFor, logs) =>
      let rf' := { rf with currentTerm := currentTerm, votedFor := votedFor, logs := logs }
      some { rf' with
        lastApplied := rf'.getFirstLog.index
        commitIndex := rf'.getFirstLog.index }

def changeState (rf : Raft n C) (state : NodeState) : Raft n C :=
  if rf.state = state then rf
  else match state with
    | .follower =>
      { rf with state := .follower, electionTimer := rf.electionTimer.reset }
    | .candidate => { rf with state := .candidate }
    | .leader => { rf with state := .leader, electionTimer := rf.electionTimer.stop }

def resetElectionTimer (rf : Raft n C) : Raft n C :=
  { rf with electionTimer := rf.electionTimer.reset }

/-- `rf.currentTerm, rf.votedFor = term, -1` followed by `rf.persist()`. -/
def adoptTerm (rf : Raft n C) (term : Nat) : Raft n C :=
  ({ rf with currentTerm := term, votedFor := none } : Raft n C).persist gob

/-- `Make`: the fields at their initial values, then what the persister holds. -/
def make (me : Fin n) (persister : Persister) : Option (Raft n C) :=
  let rf : Raft n C :=
    { me := me
      persister := persister
      currentTerm := 0
      votedFor := none
      logs := [.dummy]
      commitIndex := 0
      lastApplied := 0
      nextIndex := fun _ => 0
      matchIndex := fun _ => 0
      state := .follower
      electionTimer := ⟨true, false⟩
      ticking := false
      grantedVotes := 0
      applier := .waiting
      snapshotSends := [] }
  (rf.readPersist gob persister.readRaftState).map fun rf =>
    { rf with nextIndex := fun _ => rf.getLastLog.index + 1 }

end Raft

end RaftImplementation
