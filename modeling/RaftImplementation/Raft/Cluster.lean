import RaftImplementation.Raft.Handlers

/-!
# A cluster of peers, its network and its services

A cluster is `n` peers and the RPCs under way. An RPC is one object from the call
to the processing of its reply, so the network loses, delays and reorders but
never duplicates. A step is one critical section, one send on `applyCh`, one
timer event, the loss of an RPC, or a crash with the restart from the persister
(a crash without restart is a peer that takes no further step). A panic is a
crash with the persister as the panicking section left it.

`applyCh` is unbuffered: a send and the service's receive are one step. The
service may call `Snapshot` for an index it has received and
`CondInstallSnapshot` for a snapshot message it has received, in the same boot.
`replicateOnceRound` may run at any time: the heartbeat timer and the replicators
start it, and it checks the role itself.
-/

namespace RaftImplementation

inductive RpcBody (n : Nat) (C : Type) where
  | requestVote (args : RequestVoteArgs n)
  | requestVoteReply (args : RequestVoteArgs n) (reply : RequestVoteReply)
  | appendEntries (args : AppendEntriesArgs n C)
  | appendEntriesReply (args : AppendEntriesArgs n C) (reply : AppendEntriesReply)
  | installSnapshot (args : InstallSnapshotArgs n)
  | installSnapshotReply (args : InstallSnapshotArgs n) (reply : InstallSnapshotReply)
  deriving DecidableEq, Repr

/-- One call of one goroutine; `boot` is the boot of the caller it belongs to. -/
structure Rpc (n : Nat) (C : Type) where
  caller : Fin n
  boot : Nat
  callee : Fin n
  body : RpcBody n C
  deriving DecidableEq, Repr

/-- A machine: the running process, how often it was restarted, and what its
service has read from the `applyCh` of this boot. -/
structure Node (n : Nat) (C : Type) where
  raft : Raft n C
  boot : Nat
  received : List (ApplyMsg C)

structure Cluster (n : Nat) (C : Type) where
  nodes : Fin n → Node n C
  rpcs : List (Rpc n C)

inductive Action (n : Nat) (C : Type) where
  | fire (p : Fin n)
  | tick (p : Fin n)
  | elect (p : Fin n)
  | start (p : Fin n) (command : Option C)
  | replicate (p peer : Fin n)
  | deliver (k : Nat)
  | lose (k : Nat)
  | snapshot (p : Fin n) (index : Nat) (data : Option Bytes)
  | condInstall (p : Fin n) (m : SnapshotMsg)
  | copyBatch (p : Fin n) (spare : List (LogEntry C))
  | sendEntry (p : Fin n)
  | finishBatch (p : Fin n)
  | sendSnapshot (p : Fin n) (k : Nat)
  | crash (p : Fin n)
  deriving DecidableEq, Repr

/-- An election timeout of `p`, from the timer to the candidacy. -/
def Action.timeout {n : Nat} {C : Type} (p : Fin n) : List (Action n C) :=
  [.fire p, .tick p, .elect p]

/-- What an observer of the run writes down. -/
inductive Event (n : Nat) (C : Type) where
  /-- `p` starts its election in `term`; its last log entry is as given. -/
  | stand (p : Fin n) (term lastTerm lastIndex : Nat)
  /-- `voter` grants its vote; its own last log entry is as given. -/
  | grant (voter : Fin n) (term : Nat) (candidate : Fin n) (lastTerm lastIndex : Nat)
  /-- Candidate `p` counts the vote of `voter`. -/
  | count (p : Fin n) (term : Nat) (voter : Fin n)
  | lead (p : Fin n) (term : Nat)
  /-- A `Start` call on `p` returned `(index, term, true)`. -/
  | started (p : Fin n) (index term : Nat) (command : Option C)
  /-- The service of `p` receives `m` on the `applyCh` of this boot. -/
  | received (p : Fin n) (boot : Nat) (m : ApplyMsg C)
  /-- A `CondInstallSnapshot` call on `p` returned `result`. -/
  | condInstalled (p : Fin n) (m : SnapshotMsg) (result : Bool)
  /-- `p` restarts, and its log then begins at `first`. -/
  | booted (p : Fin n) (boot first : Nat)
  deriving DecidableEq, Repr

namespace Cluster

variable {n : Nat} {C : Type} (gob : Gob n C)

def setRaft (c : Cluster n C) (p : Fin n) (rf : Raft n C) : Cluster n C :=
  { c with nodes := Function.update c.nodes p { c.nodes p with raft := rf } }

def setRpcs (c : Cluster n C) (rpcs : List (Rpc n C)) : Cluster n C := { c with rpcs := rpcs }

/-- What a step yields, if it can be taken. -/
abbrev Outcome (n : Nat) (C : Type) := Option (Cluster n C × List (Event n C))

/-- `p` goes down, leaving `ps`, and is made anew. -/
def reboot (c : Cluster n C) (p : Fin n) (ps : Persister) : Outcome n C :=
  (Raft.make gob p ps).map fun rf =>
    ({ c with nodes := Function.update c.nodes p ⟨rf, (c.nodes p).boot + 1, []⟩ },
      [.booted p ((c.nodes p).boot + 1) rf.getFirstLog.index])

/-- The end of a critical section of `p` that may have panicked. -/
def settle {α : Type} (c : Cluster n C) (p : Fin n) (r : Section α)
    (k : α → Cluster n C × List (Event n C)) : Outcome n C :=
  match r with
  | .ok a => some (k a)
  | .error ps => c.reboot gob p ps

/-- One request to every other peer. -/
def broadcast (c : Cluster n C) (p : Fin n) (body : RpcBody n C) : List (Rpc n C) :=
  ((List.finRange n).filter (· ≠ p)).map fun q => ⟨p, (c.nodes p).boot, q, body⟩

def elect (c : Cluster n C) (p : Fin n) : Outcome n C :=
  let rf := (c.nodes p).raft
  if rf.ticking then
    let (rf', args) := rf.electionTimeout gob
    some ((c.setRaft p rf').setRpcs (c.rpcs ++ c.broadcast p (.requestVote args)),
      [.stand p args.term args.lastLogTerm args.lastLogIndex])
  else none

def start (c : Cluster n C) (p : Fin n) (command : Option C) : Outcome n C :=
  match (c.nodes p).raft.start gob command with
  | (rf, some (index, term)) => some (c.setRaft p rf, [.started p index term command])
  | (rf, none) => some (c.setRaft p rf, [])

def replicate (c : Cluster n C) (p peer : Fin n) : Outcome n C :=
  if peer = p then none
  else c.settle gob p ((c.nodes p).raft.replicateOnceRound peer) fun
    | none => (c, [])
    | some (.install args) =>
      (c.setRpcs (c.rpcs ++ [⟨p, (c.nodes p).boot, peer, .installSnapshot args⟩]), [])
    | some (.append args) =>
      (c.setRpcs (c.rpcs ++ [⟨p, (c.nodes p).boot, peer, .appendEntries args⟩]), [])

/-- A vote reply reaches the closure that waits for it. -/
def countVote (c : Cluster n C) (p voter : Fin n) (args : RequestVoteArgs n)
    (reply : RequestVoteReply) : Cluster n C × List (Event n C) :=
  let rf := (c.nodes p).raft
  let rf' := rf.onRequestVoteReply gob args reply
  (c.setRaft p rf',
    (if args.term = rf.currentTerm ∧ rf.state = .candidate ∧ reply.voteGranted then
      [.count p args.term voter] else []) ++
    (if rf.state ≠ .leader ∧ rf'.state = .leader then [.lead p rf'.currentTerm] else []))

/-- The `k`-th RPC, `m`, takes its next step: a request is handled and becomes a
reply; a reply is processed if its caller has not been restarted since. -/
def deliver (c : Cluster n C) (k : Nat) (m : Rpc n C) : Outcome n C :=
  let rf := (c.nodes m.callee).raft
  let answered (body : RpcBody n C) := c.setRpcs (c.rpcs.set k { m with body := body })
  let consumed := c.setRpcs (c.rpcs.eraseIdx k)
  let live : Bool := (c.nodes m.caller).boot = m.boot
  match m.body with
  | .requestVote args =>
    let (rf', reply) := rf.requestVote gob args
    some ((answered (.requestVoteReply args reply)).setRaft m.callee rf',
      if reply.voteGranted then
        [.grant m.callee args.term args.candidateId rf.getLastLog.term rf.getLastLog.index]
      else [])
  | .appendEntries args =>
    consumed.settle gob m.callee (rf.appendEntries gob args) fun (rf', reply) =>
      ((answered (.appendEntriesReply args reply)).setRaft m.callee rf', [])
  | .installSnapshot args =>
    let (rf', reply) := rf.installSnapshot gob args
    some ((answered (.installSnapshotReply args reply)).setRaft m.callee rf', [])
  | .requestVoteReply args reply =>
    if live then some (consumed.countVote gob m.caller m.callee args reply)
    else some (consumed, [])
  | .appendEntriesReply args reply =>
    if live then
      consumed.settle gob m.caller
        ((c.nodes m.caller).raft.onAppendEntriesReply gob m.callee args reply)
        fun rf' => (consumed.setRaft m.caller rf', [])
    else some (consumed, [])
  | .installSnapshotReply args reply =>
    if live then
      some (consumed.setRaft m.caller
        ((c.nodes m.caller).raft.onInstallSnapshotReply gob m.callee args reply), [])
    else some (consumed, [])

/-- The service of `p` receives `m`, sent by a goroutine of `rf`. -/
def receive (c : Cluster n C) (p : Fin n) (rf : Raft n C) (m : ApplyMsg C) :
    Cluster n C × List (Event n C) :=
  let nd := c.nodes p
  ({ c with nodes := Function.update c.nodes p ⟨rf, nd.boot, nd.received ++ [m]⟩ },
    [.received p nd.boot m])

def sendEntry (c : Cluster n C) (p : Fin n) : Outcome n C :=
  let rf := (c.nodes p).raft
  match rf.applier with
  | .sending commitIndex (e :: es) =>
    some (c.receive p { rf with applier := .sending commitIndex es }
      (.command e.command e.index e.term))
  | _ => none

def sendSnapshot (c : Cluster n C) (p : Fin n) (k : Nat) : Outcome n C :=
  let rf := (c.nodes p).raft
  match rf.snapshotSends[k]? with
  | some m =>
    some (c.receive p { rf with snapshotSends := rf.snapshotSends.eraseIdx k } (.snapshot m))
  | none => none

/-- The service has received a command with this index in this boot. -/
def receivedCommand (nd : Node n C) (index : Nat) : Bool :=
  nd.received.any fun
    | .command _ i _ => i = index
    | .snapshot _ => false

/-- The service has received this snapshot message in this boot. -/
def receivedSnapshot (nd : Node n C) (m : SnapshotMsg) : Bool :=
  nd.received.any fun
    | .command _ _ _ => false
    | .snapshot m' => m' = m

def step (c : Cluster n C) : Action n C → Outcome n C
  | .fire p =>
    let rf := (c.nodes p).raft
    if rf.electionTimer.running then
      some (c.setRaft p { rf with electionTimer := ⟨false, true⟩ }, [])
    else none
  | .tick p =>
    let rf := (c.nodes p).raft
    if rf.electionTimer.ticked ∧ ¬ rf.ticking then
      some (c.setRaft p { rf with
        electionTimer := { rf.electionTimer with ticked := false }, ticking := true }, [])
    else none
  | .elect p => c.elect gob p
  | .start p command => c.start gob p command
  | .replicate p peer => c.replicate gob p peer
  | .deliver k => match c.rpcs[k]? with
    | some m => c.deliver gob k m
    | none => none
  | .lose k => some (c.setRpcs (c.rpcs.eraseIdx k), [])
  | .snapshot p index data =>
    if receivedCommand (c.nodes p) index then
      c.settle gob p ((c.nodes p).raft.snapshot gob index data) fun rf => (c.setRaft p rf, [])
    else none
  | .condInstall p m =>
    if receivedSnapshot (c.nodes p) m then
      c.settle gob p
        ((c.nodes p).raft.condInstallSnapshot gob m.snapshotTerm m.snapshotIndex m.snapshot)
        fun (rf, result) => (c.setRaft p rf, [.condInstalled p m result])
    else none
  | .copyBatch p spare =>
    let rf := (c.nodes p).raft
    match rf.applier with
    | .waiting =>
      if rf.commitIndex > rf.lastApplied then
        c.settle gob p (rf.copyBatch spare) fun rf => (c.setRaft p rf, [])
      else none
    | .sending _ _ => none
  | .sendEntry p => c.sendEntry p
  | .finishBatch p => match (c.nodes p).raft.applier with
    | .sending commitIndex [] =>
      some (c.setRaft p ((c.nodes p).raft.finishBatch commitIndex), [])
    | _ => none
  | .sendSnapshot p k => c.sendSnapshot p k
  | .crash p => c.reboot gob p (c.nodes p).raft.persister

/-- The first boot of every peer, on an empty persister. -/
def init : Cluster n C :=
  { nodes := fun p =>
      { raft :=
          { me := p, persister := makePersister, currentTerm := 0, votedFor := none,
            logs := [.dummy], commitIndex := 0, lastApplied := 0, nextIndex := fun _ => 1,
            matchIndex := fun _ => 0, state := .follower, electionTimer := ⟨true, false⟩,
            ticking := false, grantedVotes := 0, applier := .waiting, snapshotSends := [] }
        boot := 0
        received := [] }
    rpcs := [] }

end Cluster

end RaftImplementation
