import RaftImplementation.Raft.ApplyOrder
import RaftImplementation.Raft.Encoding

/-!
# One peer on its own

A machine is one process with its service and with the memory behind its log. It runs
any critical section with any arguments, in any order; of the outside it is only
assumed that the entries of an `AppendEntries` request count on from `PrevLogIndex`
and that the service calls `Snapshot` for an index it has received. A section that
panics ends the boot.

The applier slices the log up to `commitIndex`, which may lie past its length but not
past its capacity, and then it reads what earlier sections left in the backing array.
No slot of that array ever holds an index higher than its place says (`Placed`); this
bounds what the service can receive, and with it how far `Snapshot` can cut.
-/

namespace RaftImplementation

open Library Cluster Raft

variable {n : Nat} {C : Type}

structure Machine (n : Nat) (C : Type) where
  node : Node n C
  /-- The slots of the backing array of `rf.logs` behind its last entry. -/
  spare : List (LogEntry C)

/-- A critical section of the peer, or a send on its `applyCh`. -/
inductive Turn (n : Nat) (C : Type) where
  | timer (electionTimer : Timer) (ticking : Bool)
  | electionTimeout
  | requestVote (args : RequestVoteArgs n)
  | onRequestVoteReply (args : RequestVoteArgs n) (reply : RequestVoteReply)
  | appendEntries (args : AppendEntriesArgs n C)
  | installSnapshot (args : InstallSnapshotArgs n)
  | start (command : Option C)
  | onAppendEntriesReply (peer : Fin n) (args : AppendEntriesArgs n C)
      (reply : AppendEntriesReply)
  | onInstallSnapshotReply (peer : Fin n) (args : InstallSnapshotArgs n)
      (reply : InstallSnapshotReply)
  /-- `advanceCommitIndexForLeader`, whatever has been recorded of the peers. -/
  | advance (matchIndex : Fin n → Nat)
  | snapshot (index : Nat) (data : Option Bytes)
  | condInstallSnapshot (lastIncludedTerm lastIncludedIndex : Nat) (data : Option Bytes)
  | copyBatch
  | sendEntry
  | finishBatch
  | sendSnapshot (k : Nat)

/-- What lies behind the log once a section has taken `rf` to `rf'`. With `none` the
log is still in its backing array: `append` wrote in place, a slice expression moved
the start. With `some m` it is in a new array, with `m` slots behind it that nothing
was written to: `append` outgrew the capacity, `shrinkEntries` or `make` allocated. -/
def backing (rf rf' : Raft n C) (spare : List (LogEntry C)) : Option Nat → List (LogEntry C)
  | none => (rf.logs ++ spare).drop
      (rf'.getFirstLog.index - rf.getFirstLog.index + rf'.logs.length)
  | some m => List.replicate m .dummy

namespace Machine

variable (gob : Gob n C)

/-- The process a turn leaves and what it sends, if the turn can be taken and does not
panic. -/
def turn (s : Machine n C) : Turn n C → Option (Raft n C × List (ApplyMsg C))
  | .timer electionTimer ticking =>
    some ({ s.node.raft with electionTimer := electionTimer, ticking := ticking }, [])
  | .electionTimeout => some ((s.node.raft.electionTimeout gob).1, [])
  | .requestVote args => some ((s.node.raft.requestVote gob args).1, [])
  | .onRequestVoteReply args reply => some (s.node.raft.onRequestVoteReply gob args reply, [])
  | .appendEntries args => (s.node.raft.appendEntries gob args).toOption.map fun r => (r.1, [])
  | .installSnapshot args => some ((s.node.raft.installSnapshot gob args).1, [])
  | .start command => some ((s.node.raft.start gob command).1, [])
  | .onAppendEntriesReply peer args reply =>
    (s.node.raft.onAppendEntriesReply gob peer args reply).toOption.map fun rf => (rf, [])
  | .onInstallSnapshotReply peer args reply =>
    some (s.node.raft.onInstallSnapshotReply gob peer args reply, [])
  | .advance matchIndex =>
    ({ s.node.raft with matchIndex := matchIndex } : Raft n C).advanceCommitIndexForLeader.toOption.map
      fun rf => (rf, [])
  | .snapshot index data =>
    if receivedCommand s.node index then
      (s.node.raft.snapshot gob index data).toOption.map fun rf => (rf, [])
    else none
  | .condInstallSnapshot lastIncludedTerm lastIncludedIndex data =>
    (s.node.raft.condInstallSnapshot gob lastIncludedTerm lastIncludedIndex data).toOption.map
      fun r => (r.1, [])
  | .copyBatch =>
    match s.node.raft.applier with
    | .waiting =>
      if s.node.raft.commitIndex > s.node.raft.lastApplied then
        (s.node.raft.copyBatch s.spare).toOption.map fun rf => (rf, [])
      else none
    | .sending _ _ => none
  | .sendEntry =>
    match s.node.raft.applier with
    | .sending commitIndex (e :: es) =>
      some ({ s.node.raft with applier := .sending commitIndex es },
        [.command e.command e.index e.term])
    | _ => none
  | .finishBatch =>
    match s.node.raft.applier with
    | .sending commitIndex [] => some (s.node.raft.finishBatch commitIndex, [])
    | _ => none
  | .sendSnapshot k =>
    match s.node.raft.snapshotSends[k]? with
    | some m =>
      some ({ s.node.raft with snapshotSends := s.node.raft.snapshotSends.eraseIdx k },
        [.snapshot m])
    | none => none

/-- A turn, with the place of the log after it. -/
def step (s : Machine n C) (b : Turn n C × Option Nat) :
    Option (Machine n C × List (ApplyMsg C)) :=
  (s.turn gob b.1).map fun (rf, ms) =>
    (⟨⟨rf, s.node.boot, s.node.received ++ ms⟩, backing s.node.raft rf s.spare b.2⟩, ms)

/-- A machine that has just been made; `m` slots behind its log have not been used. -/
def boot (rf : Raft n C) (b m : Nat) : Machine n C := ⟨⟨rf, b, []⟩, List.replicate m .dummy⟩

end Machine

/-- The entries of a request count on from `PrevLogIndex`. -/
def Turn.CountsOn : Turn n C → Prop
  | .appendEntries args => Contiguous (args.prevLogIndex + 1) args.entries
  | _ => True

/-- The guard of a run: every request is one that a leader can have sent. -/
def FromLeaders (_ : Machine n C) (b : Turn n C × Option Nat) : Prop := b.1.CountsOn

instance (turn : Turn n C) : Decidable turn.CountsOn :=
  match turn with
  | .appendEntries args =>
    inferInstanceAs (Decidable (Contiguous (args.prevLogIndex + 1) args.entries))
  | .timer .. | .electionTimeout | .requestVote _ | .onRequestVoteReply .. | .installSnapshot _
  | .start _ | .onAppendEntriesReply .. | .onInstallSnapshotReply .. | .advance _ | .snapshot ..
  | .condInstallSnapshot .. | .copyBatch | .sendEntry | .finishBatch | .sendSnapshot _ =>
    isTrue trivial

instance (s : Machine n C) (b : Turn n C × Option Nat) : Decidable (FromLeaders s b) :=
  inferInstanceAs (Decidable b.1.CountsOn)

/-! ## The backing array -/

/-- No slot holds a higher index than its place says. -/
def Placed (rf : Raft n C) (spare : List (LogEntry C)) : Prop :=
  ∀ j e, (rf.logs ++ spare)[j]? = some e → e.index ≤ rf.getFirstLog.index + j

variable {gob : Gob n C} {rf rf' : Raft n C} {spare : List (LogEntry C)}

/-- The log itself is in place; it remains to look behind it. -/
theorem Raft.WellFormed.placed (hw : rf.WellFormed)
    (h : ∀ j e, spare[j]? = some e → e.index ≤ rf.getFirstLog.index + (rf.logs.length + j)) :
    Placed rf spare := by
  intro j e he
  by_cases hj : j < rf.logs.length
  · rw [List.getElem?_append_left hj] at he
    exact (hw.contiguous.get he).le
  · rw [List.getElem?_append_right (by omega)] at he
    have hle := h _ e he
    omega

theorem placed_replicate (hw : rf.WellFormed) (m : Nat) :
    Placed rf (List.replicate m .dummy) := by
  refine hw.placed fun j e he => ?_
  rw [List.eq_of_mem_replicate (List.mem_of_getElem? he)]
  exact Nat.zero_le _

/-- A section that leaves a well formed log and does not move its start down keeps the
slots in place, whether it stays in the array or not. -/
theorem Placed.backing (h : Placed rf spare) (hw : rf'.WellFormed)
    (hf : rf.getFirstLog.index ≤ rf'.getFirstLog.index) (array : Option Nat) :
    Placed rf' (backing rf rf' spare array) := by
  cases array with
  | some m => exact placed_replicate hw m
  | none =>
    refine hw.placed fun j e he => ?_
    rw [RaftImplementation.backing, List.getElem?_drop] at he
    have hle := h _ e he
    omega

/-- So the batch has no entry beyond `commitIndex`. -/
theorem Placed.batch_le (h : Placed rf spare)
    (hf : rf.getFirstLog.index ≤ rf.commitIndex) {e : LogEntry C} (he : e ∈ rf.batch spare) :
    e.index ≤ rf.commitIndex := by
  obtain ⟨j, hj⟩ := List.mem_iff_getElem?.mp he
  rw [Raft.batch, List.getElem?_drop, List.getElem?_take] at hj
  split at hj
  · have hle := h _ e hj
    omega
  · cases hj

/-! ## What a turn keeps -/

structure Ordered (gob : Gob n C) (s : Machine n C) : Prop where
  wellFormed : s.node.raft.WellFormed
  mirrored : s.node.raft.Mirrored gob
  placed : Placed s.node.raft s.spare
  inOrder : InOrder s.node

/-- How a turn takes a process and its service on. -/
structure Onward (gob : Gob n C) (nd nd' : Node n C) : Prop where
  wellFormed : nd'.raft.WellFormed
  mirrored : nd'.raft.Mirrored gob
  inOrder : InOrder nd'
  first : nd.raft.getFirstLog.index ≤ nd'.raft.getFirstLog.index
  commitIndex : nd.raft.commitIndex ≤ nd'.raft.commitIndex
  lastApplied : nd.raft.lastApplied ≤ nd'.raft.lastApplied

namespace Ordered

variable {s : Machine n C} {b : Nat}

/-- A section that touches neither the log nor the indices. -/
theorem same (h : Ordered gob s) (hm : rf.Mirrored gob) (hl : rf.logs = s.node.raft.logs)
    (hci : rf.commitIndex = s.node.raft.commitIndex)
    (hla : rf.lastApplied = s.node.raft.lastApplied)
    (happ : rf.applier = s.node.raft.applier) :
    Onward gob s.node ⟨rf, b, s.node.received⟩ where
  wellFormed := h.wellFormed.of_logs hl
  mirrored := hm
  inOrder := h.inOrder.of_same hl hla happ hci
  first := by
    unfold getFirstLog
    rw [hl]
  commitIndex := hci.ge
  lastApplied := hla.ge

/-- A section that leaves the start of the log and the applier alone. -/
theorem grown (h : Ordered gob s) (hw : rf.WellFormed) (hm : rf.Mirrored gob)
    (hf : rf.getFirstLog.index = s.node.raft.getFirstLog.index)
    (hci : s.node.raft.commitIndex ≤ rf.commitIndex)
    (hla : rf.lastApplied = s.node.raft.lastApplied)
    (happ : rf.applier = s.node.raft.applier) :
    Onward gob s.node ⟨rf, b, s.node.received⟩ where
  wellFormed := hw
  mirrored := hm
  inOrder := h.inOrder.of_commit hf hla happ hci
  first := hf.ge
  commitIndex := hci
  lastApplied := hla.ge

theorem requestVote (h : Ordered gob s) (args : RequestVoteArgs n) :
    Onward gob s.node ⟨(s.node.raft.requestVote gob args).1, b, s.node.received⟩ := by
  have hh := requestVote_handled gob s.node.raft args
  generalize s.node.raft.requestVote gob args = r at hh
  obtain ⟨rf', reply⟩ := r
  cases hh with
  | refused => exact h.same h.mirrored rfl rfl rfl rfl
  | behind et ps ht hps => exact h.same hps rfl rfl rfl rfl
  | granted st et ps ht hst hst' hv hup hps => exact h.same hps rfl rfl rfl rfl

theorem onRequestVoteReply (h : Ordered gob s) (args : RequestVoteArgs n)
    (reply : RequestVoteReply) :
    Onward gob s.node ⟨s.node.raft.onRequestVoteReply gob args reply, b, s.node.received⟩ := by
  have hh := onRequestVoteReply_handled gob s.node.raft args reply
  generalize s.node.raft.onRequestVoteReply gob args reply = rf' at hh
  cases hh with
  | ignored _ => exact h.same h.mirrored rfl rfl rfl rfl
  | counted ht hs hg hfew => exact h.same h.mirrored rfl rfl rfl rfl
  | won et ht hs hg hmany => exact h.same h.mirrored rfl rfl rfl rfl
  | behind et ps ht hg hps => exact h.same hps rfl rfl rfl rfl

theorem appendEntries (h : Ordered gob s) {args : AppendEntriesArgs n C}
    {reply : AppendEntriesReply} (hc : Contiguous (args.prevLogIndex + 1) args.entries)
    (hok : s.node.raft.appendEntries gob args = .ok (rf, reply)) :
    Onward gob s.node ⟨rf, b, s.node.received⟩ := by
  cases appendEntries_inv gob h.wellFormed h.mirrored hc hok with
  | stale ht => exact h.same h.mirrored rfl rfl rfl rfl
  | refused v et ps reply ht hv hps hs hr hci => exact h.same hps rfl rfl rfl rfl
  | accepted v et ps ht hv hf hprev hps =>
    refine h.grown (accepting_wellFormed h.wellFormed hc hf hprev v et ps) hps ?_
      (le_max_left _ _) rfl rfl
    rw [accepting_first h.wellFormed hc hf hprev v et ps]

theorem installSnapshot (h : Ordered gob s) (args : InstallSnapshotArgs n) :
    Onward gob s.node ⟨(s.node.raft.installSnapshot gob args).1, b, s.node.received⟩ := by
  have hh := (installSnapshot_handled gob h.mirrored args).1
  generalize (s.node.raft.installSnapshot gob args).1 = rf' at hh
  cases hh with
  | stale ht => exact h.same h.mirrored rfl rfl rfl rfl
  | ignored v et ps ht hv hps => exact h.same hps rfl rfl rfl rfl
  | queued v et ps ht hv hps hc => exact h.same hps rfl rfl rfl rfl

theorem start (h : Ordered gob s) (command : Option C) :
    Onward gob s.node ⟨(s.node.raft.start gob command).1, b, s.node.received⟩ := by
  rcases s.node.raft.start_eq gob command with ⟨-, heq⟩ | ⟨-, ps, heq, hps⟩
  · rw [heq]
    exact h.same h.mirrored rfl rfl rfl rfl
  · rw [heq]
    refine h.grown (appending_wellFormed h.wellFormed command ps) hps ?_ le_rfl rfl rfl
    obtain ⟨l, hl, -⟩ := h.wellFormed.cons
    unfold getFirstLog
    rw [appending_logs, hl]
    rfl

theorem onAppendEntriesReply (h : Ordered gob s) {peer : Fin n} {args : AppendEntriesArgs n C}
    {reply : AppendEntriesReply}
    (hok : s.node.raft.onAppendEntriesReply gob peer args reply = .ok rf) :
    Onward gob s.node ⟨rf, b, s.node.received⟩ := by
  cases onAppendEntriesReply_inv gob h.wellFormed hok with
  | ignored => exact h.same h.mirrored rfl rfl rfl rfl
  | behind et ps ht hps => exact h.same hps rfl rfl rfl rfl
  | backedOff i ht hs hsucc hi => exact h.same h.mirrored rfl rfl rfl rfl
  | matched ci ht hs hsucc hci =>
    refine h.grown (h.wellFormed.of_logs rfl) h.mirrored rfl ?_ rfl rfl
    rcases hci with rfl | hadv
    · exact le_rfl
    · exact hadv.above.le

theorem onInstallSnapshotReply (h : Ordered gob s) (peer : Fin n)
    (args : InstallSnapshotArgs n) (reply : InstallSnapshotReply) :
    Onward gob s.node
      ⟨s.node.raft.onInstallSnapshotReply gob peer args reply, b, s.node.received⟩ := by
  have hh := onInstallSnapshotReply_handled gob s.node.raft peer args reply
  generalize s.node.raft.onInstallSnapshotReply gob peer args reply = rf' at hh
  cases hh with
  | ignored => exact h.same h.mirrored rfl rfl rfl rfl
  | behind et ps ht hps => exact h.same hps rfl rfl rfl rfl
  | recorded ht hs => exact h.same h.mirrored rfl rfl rfl rfl

theorem advance (h : Ordered gob s) {matchIndex : Fin n → Nat}
    (hok : ({ s.node.raft with matchIndex := matchIndex } : Raft n C).advanceCommitIndexForLeader =
      .ok rf) : Onward gob s.node ⟨rf, b, s.node.received⟩ := by
  rcases advanceCommitIndexForLeader_eq ({ s.node.raft with matchIndex := matchIndex } : Raft n C)
    (h.wellFormed.of_logs rfl) with ⟨ci, hok', hci⟩ | herr
  · obtain rfl := Except.ok.inj (hok'.symm.trans hok)
    refine h.grown (h.wellFormed.of_logs rfl) h.mirrored rfl ?_ rfl rfl
    rcases hci with rfl | hadv
    · exact le_rfl
    · exact hadv.above.le
  · cases herr.symm.trans hok

theorem snapshot (h : Ordered gob s) {index : Nat} {data : Option Bytes}
    (hrec : receivedCommand s.node index = true)
    (hok : s.node.raft.snapshot gob index data = .ok rf) :
    Onward gob s.node ⟨rf, b, s.node.received⟩ := by
  cases snapshot_inv gob h.wellFormed hok with
  | rejected => exact h.same h.mirrored rfl rfl rfl rfl
  | taken e ps hf he hps =>
    exact ⟨cutLogs_wellFormed h.wellFormed hf.le rfl, hps, h.inOrder.compact hrec ps, hf.le,
      le_rfl, le_rfl⟩

theorem condInstallSnapshot (h : Ordered gob s) {t i : Nat} {data : Option Bytes}
    {result : Bool}
    (hok : s.node.raft.condInstallSnapshot gob t i data = .ok (rf, result)) :
    Onward gob s.node ⟨rf, b, s.node.received⟩ := by
  cases condInstallSnapshot_inv gob h.wellFormed hok with
  | outdated hc => exact h.same h.mirrored rfl rfl rfl rfl
  | accepted ps hc hf hps =>
    have hla := (s.node.raft.lastApplied_le_horizon.trans h.inOrder.horizon_le).trans hc.le
    exact ⟨cutLogs_wellFormed h.wellFormed hf rfl, hps, h.inOrder.install hc ps, hf, hc.le, hla⟩

theorem first_le_commitIndex (h : Ordered gob s) :
    s.node.raft.getFirstLog.index ≤ s.node.raft.commitIndex :=
  h.inOrder.first_le.trans h.inOrder.horizon_le

theorem copyBatch (h : Ordered gob s) (happ : s.node.raft.applier = .waiting)
    (hlt : s.node.raft.lastApplied < s.node.raft.commitIndex)
    (hok : s.node.raft.copyBatch s.spare = .ok rf) :
    Onward gob s.node ⟨rf, b, s.node.received⟩ := by
  rcases s.node.raft.copyBatch_eq s.spare with ⟨-, -, hok'⟩ | herr
  · obtain rfl := Except.ok.inj (hok'.symm.trans hok)
    have hbatch : ∀ e ∈ s.node.raft.batch s.spare, e.index ≤ s.node.raft.commitIndex :=
      fun e he => h.placed.batch_le h.first_le_commitIndex he
    exact ⟨h.wellFormed.of_logs rfl, h.mirrored, h.inOrder.copy happ hlt hbatch, le_rfl, le_rfl,
      le_rfl⟩
  · cases herr.symm.trans hok

/-- Every turn takes the process on. -/
theorem onward (h : Ordered gob s) {turn : Turn n C} (hc : turn.CountsOn)
    {ms : List (ApplyMsg C)} (hturn : s.turn gob turn = some (rf, ms)) :
    Onward gob s.node ⟨rf, b, s.node.received ++ ms⟩ := by
  -- a turn that sends nothing
  have silent {α : Type} {r : Section α} {f : α → Raft n C}
      (hr : r.toOption.map (fun x => (f x, ([] : List (ApplyMsg C)))) = some (rf, ms))
      (hon : ∀ x, r = .ok x → Onward gob s.node ⟨f x, b, s.node.received⟩) :
      Onward gob s.node ⟨rf, b, s.node.received ++ ms⟩ := by
    cases r with
    | error ps => cases hr
    | ok x =>
      obtain ⟨rfl, rfl⟩ := Prod.mk.inj (Option.some.inj hr)
      rw [List.append_nil]
      exact hon x rfl
  have done {rf₁ : Raft n C} (hr : some (rf₁, ([] : List (ApplyMsg C))) = some (rf, ms))
      (hon : Onward gob s.node ⟨rf₁, b, s.node.received⟩) :
      Onward gob s.node ⟨rf, b, s.node.received ++ ms⟩ := by
    obtain ⟨rfl, rfl⟩ := Prod.mk.inj (Option.some.inj hr)
    rwa [List.append_nil]
  cases turn with
  | timer et tk => exact done hturn (h.same h.mirrored rfl rfl rfl rfl)
  | electionTimeout =>
    obtain ⟨et, ps, heq, hps⟩ := s.node.raft.electionTimeout_eq gob
    rw [Machine.turn, heq] at hturn
    exact done hturn (h.same hps rfl rfl rfl rfl)
  | requestVote args => exact done hturn (h.requestVote args)
  | onRequestVoteReply args reply => exact done hturn (h.onRequestVoteReply args reply)
  | appendEntries args => exact silent hturn fun r hr => h.appendEntries hc hr
  | installSnapshot args => exact done hturn (h.installSnapshot args)
  | start command => exact done hturn (h.start command)
  | onAppendEntriesReply peer args reply =>
    exact silent hturn fun rf hr => h.onAppendEntriesReply hr
  | onInstallSnapshotReply peer args reply =>
    exact done hturn (h.onInstallSnapshotReply peer args reply)
  | advance matchIndex => exact silent hturn fun rf hr => h.advance hr
  | snapshot index data =>
    simp only [Machine.turn, Option.ite_none_right_eq_some] at hturn
    exact silent hturn.2 fun rf hr => h.snapshot hturn.1 hr
  | condInstallSnapshot t i data => exact silent hturn fun r hr => h.condInstallSnapshot hr
  | copyBatch =>
    simp only [Machine.turn] at hturn
    split at hturn
    · rename_i happ
      simp only [Option.ite_none_right_eq_some] at hturn
      exact silent hturn.2 fun rf hr => h.copyBatch happ hturn.1 hr
    · cases hturn
  | sendEntry =>
    simp only [Machine.turn] at hturn
    split at hturn
    · rename_i ci e rest happ
      obtain ⟨rfl, rfl⟩ := Prod.mk.inj (Option.some.inj hturn)
      exact ⟨h.wellFormed.of_logs rfl, h.mirrored, h.inOrder.send happ, le_rfl, le_rfl, le_rfl⟩
    · cases hturn
  | finishBatch =>
    simp only [Machine.turn] at hturn
    split at hturn
    · rename_i ci happ
      refine done hturn ?_
      exact ⟨h.wellFormed.of_logs rfl, h.mirrored, h.inOrder.finish happ, le_rfl, le_rfl,
        le_max_left _ _⟩
    · cases hturn
  | sendSnapshot k =>
    simp only [Machine.turn] at hturn
    split at hturn
    · rename_i m hk
      obtain ⟨rfl, rfl⟩ := Prod.mk.inj (Option.some.inj hturn)
      exact ⟨h.wellFormed.of_logs rfl, h.mirrored, h.inOrder.sendSnapshot k m, le_rfl, le_rfl,
        le_rfl⟩
    · cases hturn

/-- One step: the order is kept, and the indices do not fall. -/
theorem step (h : Ordered gob s) {a : Turn n C × Option Nat} (ha : a.1.CountsOn)
    {s' : Machine n C} {ms : List (ApplyMsg C)} (hstep : s.step gob a = some (s', ms)) :
    Ordered gob s' ∧ Onward gob s.node s'.node := by
  obtain ⟨turn, array⟩ := a
  simp only [Machine.step, Option.map_eq_some_iff, Prod.mk.injEq, Prod.exists] at hstep
  obtain ⟨rf, ms', hturn, rfl, rfl⟩ := hstep
  have hon : Onward gob s.node ⟨rf, s.node.boot, s.node.received ++ ms'⟩ := h.onward ha hturn
  exact ⟨⟨hon.wellFormed, hon.mirrored, h.placed.backing hon.wellFormed hon.first array,
    hon.inOrder⟩, hon⟩

/-- A whole boot. -/
theorem run (h : Ordered gob s) {tr : List (ApplyMsg C)} {s' : Machine n C}
    (hrun : Run (Machine.step gob) FromLeaders s tr s') :
    Ordered gob s' ∧ s.node.raft.commitIndex ≤ s'.node.raft.commitIndex ∧
      s.node.raft.lastApplied ≤ s'.node.raft.lastApplied := by
  induction hrun with
  | refl => exact ⟨h, le_rfl, le_rfl⟩
  | snoc _ ha hstep ih =>
    obtain ⟨ho, hci, hla⟩ := ih
    obtain ⟨ho', hon⟩ := ho.step ha hstep
    exact ⟨ho', hci.trans hon.commitIndex, hla.trans hon.lastApplied⟩

end Ordered

theorem ordered_boot {me : Fin n} {ps : Persister} (h : make gob me ps = some rf)
    (hw : rf.WellFormed) (b m : Nat) : Ordered gob (Machine.boot rf b m) where
  wellFormed := hw
  mirrored := by
    obtain ⟨t, v, l, hd, rfl⟩ := make_inv gob h
    exact hd
  placed := placed_replicate hw m
  inOrder := by
    obtain ⟨t, v, l, -, rfl⟩ := make_inv gob h
    exact ⟨le_rfl, le_rfl, by simp [Machine.boot], by simp [Machine.boot]⟩

/-! ## Every interleaving on one peer -/

/-- From any `Make` on a well formed log, in every state `s` of every run and in every
state `s'` the run goes on to. -/
theorem apply_indices_ordered {me : Fin n} {ps : Persister} (hmake : make gob me ps = some rf)
    (hw : rf.WellFormed) {b m : Nat} {tr tr' : List (ApplyMsg C)} {s s' : Machine n C}
    (h : Run (Machine.step gob) FromLeaders (Machine.boot rf b m) tr s)
    (h' : Run (Machine.step gob) FromLeaders s tr' s') :
    s.node.raft.commitIndex ≤ s'.node.raft.commitIndex ∧
    s.node.raft.lastApplied ≤ s'.node.raft.lastApplied ∧
    s.node.raft.getFirstLog.index ≤ s.node.raft.commitIndex ∧
    s.node.raft.lastApplied ≤ s.node.raft.commitIndex ∧
    (s.node.raft.applier = .waiting →
      s.node.raft.getFirstLog.index ≤ s.node.raft.lastApplied ∧
      0 ≤ (s.node.raft.lastApplied : Int) - s.node.raft.getFirstLog.index + 1 ∧
      (s.node.raft.lastApplied : Int) - s.node.raft.getFirstLog.index + 1 ≤
        s.node.raft.commitIndex - s.node.raft.getFirstLog.index + 1) := by
  obtain ⟨ho, -, -⟩ := (ordered_boot hmake hw b m).run h
  obtain ⟨-, hci, hla⟩ := ho.run h'
  have hle := s.node.raft.lastApplied_le_horizon.trans ho.inOrder.horizon_le
  refine ⟨hci, hla, ho.first_le_commitIndex, hle, fun happ => ?_⟩
  have hfirst := ho.inOrder.first_le_lastApplied happ
  exact ⟨hfirst, by omega, by omega⟩

/-- A peer on its first boot, alone. -/
def firstBoot : Machine 3 Nat := ⟨(init : Cluster 3 Nat).nodes 0, []⟩

/-- A batch of two is under way when the service, which has read both entries, calls
`Snapshot(2)`. -/
def snapshotWhileSending : List (Turn 3 Nat × Option Nat) :=
  [(.appendEntries ⟨1, 0, 0, 0, 2, [⟨some 7, 1, 1⟩, ⟨some 8, 1, 2⟩, ⟨some 9, 1, 3⟩]⟩, some 1),
    (.copyBatch, none), (.sendEntry, none), (.sendEntry, none), (.snapshot 2 none, none)]

/-- Where the turns lead from the first boot. -/
def taken (as : List (Turn 3 Nat × Option Nat)) : Machine 3 Nat × List (ApplyMsg Nat) :=
  reached (Machine.step (natGob 3)) FromLeaders firstBoot as

/-- In the middle of the batch the log begins beyond `lastApplied`; once the batch is
recorded it does not. -/
theorem apply_indices_ordered_in_batch :
    (taken snapshotWhileSending).1.node.raft.lastApplied = 0 ∧
    (taken snapshotWhileSending).1.node.raft.getFirstLog.index = 2 ∧
    (taken snapshotWhileSending).1.node.raft.getFirstLog.index ≤
      (taken snapshotWhileSending).1.node.raft.commitIndex ∧
    (taken (snapshotWhileSending ++ [(.finishBatch, none)])).1.node.raft.getFirstLog.index ≤
      (taken (snapshotWhileSending ++ [(.finishBatch, none)])).1.node.raft.lastApplied := by
  have hmake : make (natGob 3) 0 makePersister = some firstBoot.node.raft := by rfl
  have hw : firstBoot.node.raft.WellFormed := wellFormed_of_cons rfl trivial
  have hmid : Run (Machine.step (natGob 3)) FromLeaders (Machine.boot firstBoot.node.raft 0 0)
      (taken snapshotWhileSending).2 (taken snapshotWhileSending).1 := reached_run (by decide +kernel)
  have hend : Run (Machine.step (natGob 3)) FromLeaders (Machine.boot firstBoot.node.raft 0 0)
      (taken (snapshotWhileSending ++ [(.finishBatch, none)])).2
      (taken (snapshotWhileSending ++ [(.finishBatch, none)])).1 := reached_run (by decide +kernel)
  obtain ⟨-, -, hfirst, -, -⟩ := apply_indices_ordered hmake hw hmid .refl
  obtain ⟨-, -, -, -, hwait⟩ := apply_indices_ordered hmake hw hend .refl
  exact ⟨by decide +kernel, by decide +kernel, hfirst, (hwait (by rfl)).1⟩

end RaftImplementation
