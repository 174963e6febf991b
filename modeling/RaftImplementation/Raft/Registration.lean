import RaftImplementation.Library.Codec
import RaftImplementation.Raft.Encoding
import RaftImplementation.Raft.Gradient
import RaftImplementation.Raft.Handlers

/-!
# Gradients and `labgob`

`Command` is an interface, and `gob` encodes an interface value only if its dynamic type
is registered. The basic types are; `GradientLog` is not, as nothing in the package calls
`labgob.Register` for it. `encodeState` drops the error of `Encode`, `readPersist` goes on
after a failed `Decode`, and `Call` panics on an error of `Encode`.

The other modules take every command to be of a registered type. Here the functions that
encode are given once more, over a `labgob` that refuses; on registered commands they are
the same (`start_toGob`, `make_toGob`).
-/

namespace RaftImplementation

open Library

/-- The dynamic value of a `Command`. -/
inductive Command (B F : Type) where
  | basic (value : B)
  | gradient (grad : GradientLog F)

/-- The type of the value is known to `gob`. -/
def Command.Registered {B F : Type} : Command B F → Prop
  | .basic _ => True
  | .gradient _ => False

/-- The entry can be encoded. The nil command can. -/
def LogEntry.Registered {C : Type} (registered : C → Prop) (e : LogEntry C) : Prop :=
  ∀ command ∈ e.command, registered command

/-- What is assumed of `labgob`: values follow each other in a stream, what was written is
read back, and exactly the values with an unregistered command are refused. -/
structure Labgob (n : Nat) {C : Type} (registered : C → Prop) where
  term : Codec Nat
  vote : Codec (Option (Fin n))
  logs : PartialCodec (List (LogEntry C))
  args : PartialCodec (AppendEntriesArgs n C)
  term_read_nil : term.read [] = none
  logs_write : ∀ l, (logs.write l).isSome ↔ ∀ e ∈ l, e.Registered registered
  args_write : ∀ a, (args.write a).isSome ↔ ∀ e ∈ a.entries, e.Registered registered

namespace Labgob

variable {n : Nat} {C : Type} {registered : C → Prop} (lg : Labgob n registered)

/-- The errors of the three `Encode` are dropped. -/
def encodeState (rf : Raft n C) : Bytes :=
  lg.term.write rf.currentTerm ++ (lg.vote.write rf.votedFor ++ (lg.logs.write rf.logs).getD [])

def persist (rf : Raft n C) : Raft n C :=
  { rf with persister := rf.persister.saveStateAndSnapshot (lg.encodeState rf) none }

/-- The three variables of `readPersist`. The first failure ends the decoding; what was
not decoded keeps its zero value (0 for `votedFor`, nil for `logs`). -/
def decodeState (me : Fin n) (data : Bytes) : Nat × Option (Fin n) × List (LogEntry C) :=
  match lg.term.read data with
  | none => (0, some ⟨0, me.pos⟩, [])
  | some (currentTerm, data) =>
    match lg.vote.read data with
    | none => (currentTerm, some ⟨0, me.pos⟩, [])
    | some (votedFor, data) =>
      match lg.logs.read data with
      | none => (currentTerm, votedFor, [])
      | some (logs, _) => (currentTerm, votedFor, logs)

/-- `getFirstLog` panics on a nil log. -/
def readPersist (rf : Raft n C) (data : Bytes) : Option (Raft n C) :=
  if data = [] then some rf
  else
    let (currentTerm, votedFor, logs) := lg.decodeState rf.me data
    match logs with
    | [] => none
    | first :: rest =>
      some { rf with
        currentTerm := currentTerm
        votedFor := votedFor
        logs := first :: rest
        lastApplied := first.index
        commitIndex := first.index }

/-- The fields as `Make` sets them before it reads the persister. -/
def booting (me : Fin n) (persister : Persister) : Raft n C where
  me := me
  persister := persister
  currentTerm := 0
  votedFor := none
  logs := [.dummy]
  commitIndex := 0
  lastApplied := 0
  nextIndex := fun _ => 0
  matchIndex := fun _ => 0
  state := .follower
  electionTimer := ⟨true, false⟩
  ticking := false
  grantedVotes := 0
  applier := .waiting
  snapshotSends := []

def make (me : Fin n) (persister : Persister) : Option (Raft n C) :=
  (lg.readPersist (booting me persister) persister.readRaftState).map fun rf =>
    { rf with nextIndex := fun _ => rf.getLastLog.index + 1 }

def start (rf : Raft n C) (command : Option C) : Raft n C × Option (Nat × Nat) :=
  if rf.state = .leader then
    let newLogIndex := rf.getLastLog.index + 1
    let rf := lg.persist { rf with logs := rf.logs ++ [⟨command, rf.currentTerm, newLogIndex⟩] }
    ({ rf with
        matchIndex := Function.update rf.matchIndex rf.me newLogIndex
        nextIndex := Function.update rf.nextIndex rf.me (newLogIndex + 1) },
      some (newLogIndex, rf.currentTerm))
  else (rf, none)

/-- `Call` up to the send of the request: a panic if `Encode` returns an error. -/
def call (request : AppendEntriesArgs n C) : Option Bytes := lg.args.write request

/-! ## What a restart reads -/

theorem term_write_ne_nil (t : Nat) : lg.term.write t ≠ [] := by
  intro h
  have hread := lg.term.read_write t []
  rw [h, List.append_nil, lg.term_read_nil] at hread
  exact absurd hread (by simp)

theorem encodeState_ne_nil (rf : Raft n C) : lg.encodeState rf ≠ [] := by
  simp [encodeState, lg.term_write_ne_nil]

/-- The log comes back if all of it could be written, and is nil otherwise. -/
theorem decodeState_encodeState (me : Fin n) (rf : Raft n C) :
    lg.decodeState me (lg.encodeState rf) =
      (rf.currentTerm, rf.votedFor, ((lg.logs.write rf.logs).map fun _ => rf.logs).getD []) := by
  rw [decodeState, encodeState, lg.term.read_write]
  dsimp only
  rw [lg.vote.read_write]
  dsimp only
  rw [lg.logs.read_getD_write]
  cases lg.logs.write rf.logs with
  | none => rfl
  | some bs => rfl

theorem logs_write_eq_none {l : List (LogEntry C)} (h : ¬ ∀ e ∈ l, e.Registered registered) :
    lg.logs.write l = none := by
  rw [← lg.logs_write] at h
  simpa using h

theorem exists_logs_write {l : List (LogEntry C)} (h : ∀ e ∈ l, e.Registered registered) :
    ∃ bs, lg.logs.write l = some bs :=
  Option.isSome_iff_exists.mp ((lg.logs_write l).mpr h)

theorem readPersist_encodeState {rf : Raft n C} (booted : Raft n C) (hne : rf.logs ≠ [])
    (h : ∀ e ∈ rf.logs, e.Registered registered) :
    lg.readPersist booted (lg.encodeState rf) =
      some { booted with
        currentTerm := rf.currentTerm
        votedFor := rf.votedFor
        logs := rf.logs
        lastApplied := rf.getFirstLog.index
        commitIndex := rf.getFirstLog.index } := by
  obtain ⟨bs, hbs⟩ := lg.exists_logs_write h
  rw [readPersist, if_neg (lg.encodeState_ne_nil rf), decodeState_encodeState, hbs]
  cases hl : rf.logs with
  | nil => exact absurd hl hne
  | cons first rest => simp [Raft.getFirstLog, hl]

/-- One unregistered command, and the restart ends in a panic. -/
theorem readPersist_encodeState_eq_none {rf booted : Raft n C}
    (h : ¬ ∀ e ∈ rf.logs, e.Registered registered) :
    lg.readPersist booted (lg.encodeState rf) = none := by
  rw [readPersist, if_neg (lg.encodeState_ne_nil rf), decodeState_encodeState,
    lg.logs_write_eq_none h]
  rfl

/-- What a call that returned `isLeader` promises: the bytes on disk restore the whole
log, a restart does not panic, and no request that carries the last entry panics. -/
structure Recoverable (rf : Raft n C) : Prop where
  restores : ∀ booted, ∃ rf', lg.readPersist booted rf.persister.readRaftState = some rf' ∧
    rf'.logs = rf.logs
  restarts : ∃ rf', lg.make rf.me rf.persister = some rf'
  ships : ∀ prevLogIndex request, rf.genAppendEntriesArgs prevLogIndex = .ok request →
    rf.getLastLog ∈ request.entries → ∃ bytes, lg.call request = some bytes

theorem mem_of_genAppendEntriesArgs {rf : Raft n C} {prevLogIndex : Nat}
    {request : AppendEntriesArgs n C} (h : rf.genAppendEntriesArgs prevLogIndex = .ok request)
    {e : LogEntry C} (he : e ∈ request.entries) : e ∈ rf.logs := by
  simp only [Raft.genAppendEntriesArgs, Raft.logsFrom] at h
  split at h
  · exact absurd h (by simp [bind, Except.bind])
  · cases hprev : rf.logAt prevLogIndex with
    | error ps => simp [hprev, bind, Except.bind] at h
    | ok prev =>
      simp only [hprev, bind, Except.bind, pure, Except.pure, Except.ok.injEq] at h
      rw [← h] at he
      exact List.mem_of_mem_drop he

/-- The state on disk is good exactly if every command of the log is registered. -/
theorem recoverable_iff {rf : Raft n C} (hps : rf.persister.raftstate = lg.encodeState rf)
    (hne : rf.logs ≠ []) : lg.Recoverable rf ↔ ∀ e ∈ rf.logs, e.Registered registered := by
  constructor
  · intro h
    by_contra hnot
    obtain ⟨rf', hread, -⟩ := h.restores rf
    rw [Persister.readRaftState, hps, lg.readPersist_encodeState_eq_none hnot] at hread
    exact absurd hread (by simp)
  · intro h
    have hread := fun booted : Raft n C => lg.readPersist_encodeState booted hne h
    constructor
    · intro booted
      rw [Persister.readRaftState, hps, hread booted]
      exact ⟨_, rfl, rfl⟩
    · rw [make, Persister.readRaftState, hps, hread]
      exact ⟨_, rfl⟩
    · intro prevLogIndex request hgen _
      apply Option.isSome_iff_exists.mp
      apply (lg.args_write request).mpr
      intro e he
      exact h e (mem_of_genAppendEntriesArgs hgen he)

/-! ## Registered commands: the model of the other modules -/

/-- `labgob` when every command is registered. -/
def toGob (hall : ∀ command, registered command) : Gob n C where
  encode t v l := lg.term.write t ++ (lg.vote.write v ++ (lg.logs.write l).getD [])
  decode data := (lg.term.read data).bind fun (t, data) =>
    (lg.vote.read data).bind fun (v, data) => (lg.logs.read data).map fun (l, _) => (t, v, l)
  decode_encode t v l := by
    obtain ⟨bs, hbs⟩ := lg.exists_logs_write (l := l) fun _ _ command _ => hall command
    have hread := lg.logs.read_getD_write l
    rw [hbs] at hread
    simp [lg.term.read_write, lg.vote.read_write, hbs, show lg.logs.read bs = _ from hread]
  encode_ne_nil t v l := by simp [lg.term_write_ne_nil]

theorem start_toGob (hall : ∀ command, registered command) (rf : Raft n C) (command : Option C) :
    lg.start rf command = rf.start (lg.toGob hall) command := rfl

theorem make_toGob (hall : ∀ command, registered command) (me : Fin n) {rf : Raft n C}
    (hne : rf.logs ≠ []) (snapshot : Bytes) :
    lg.make me ⟨lg.encodeState rf, snapshot⟩ =
      Raft.make (lg.toGob hall) me ⟨lg.encodeState rf, snapshot⟩ := by
  have hdecode := (lg.toGob hall).decode_encode rf.currentTerm rf.votedFor rf.logs
  have hencode : (lg.toGob hall).encode rf.currentTerm rf.votedFor rf.logs = lg.encodeState rf :=
    rfl
  rw [hencode] at hdecode
  simp only [make, Raft.make, Persister.readRaftState, Raft.readPersist,
    if_neg (lg.encodeState_ne_nil rf), hdecode]
  rw [lg.readPersist_encodeState _ hne fun _ _ command _ => hall command]
  rfl

end Labgob

/-! ## Calls on a leader -/

/-- A call of the service: `SubmitGradient`, or `Start` on a value of a basic type. -/
inductive Submission (B F : Type) where
  | submitGradient (grad : GradientLog F)
  | start (command : B)

def Submission.command {B F : Type} : Submission B F → Command B F
  | .submitGradient grad => .gradient grad
  | .start command => .basic command

namespace Labgob

variable {n : Nat} {B F : Type} (lg : Labgob n (Command.Registered (B := B) (F := F)))

def submitGradient (rf : Raft n (Command B F)) (grad : GradientLog F) :
    Raft n (Command B F) × Option (Nat × Nat) :=
  lg.start rf (some (.gradient grad))

def submit (rf : Raft n (Command B F)) : Submission B F → Raft n (Command B F) × Option (Nat × Nat)
  | .submitGradient grad => lg.submitGradient rf grad
  | .start command => lg.start rf (some (.basic command))

/-- The peer after a sequence of calls. -/
def submitAll (rf : Raft n (Command B F)) (calls : List (Submission B F)) : Raft n (Command B F) :=
  calls.foldl (fun rf call => (lg.submit rf call).1) rf

theorem submit_eq_start (rf : Raft n (Command B F)) (call : Submission B F) :
    lg.submit rf call = lg.start rf (some call.command) := by
  cases call with
  | submitGradient grad => rfl
  | start command => rfl

theorem submitAll_snoc (rf : Raft n (Command B F)) (calls : List (Submission B F))
    (call : Submission B F) :
    lg.submitAll rf (calls ++ [call]) = (lg.submit (lg.submitAll rf calls) call).1 := by
  simp [submitAll]

theorem submit_leader {rf : Raft n (Command B F)} (h : rf.state = .leader)
    (call : Submission B F) :
    (lg.submit rf call).1.state = .leader ∧
      (lg.submit rf call).1.logs =
        rf.logs ++ [⟨some call.command, rf.currentTerm, rf.getLastLog.index + 1⟩] ∧
      (lg.submit rf call).1.persister.raftstate = lg.encodeState (lg.submit rf call).1 ∧
      (lg.submit rf call).2 = some (rf.getLastLog.index + 1, rf.currentTerm) := by
  rw [submit_eq_start, start, if_pos h]
  exact ⟨h, rfl, rfl, rfl⟩

theorem submitAll_leader {rf : Raft n (Command B F)} (h : rf.state = .leader)
    (calls : List (Submission B F)) : (lg.submitAll rf calls).state = .leader := by
  induction calls using List.reverseRecOn with
  | nil => exact h
  | append_singleton calls call ih =>
    rw [submitAll_snoc]
    exact (lg.submit_leader ih call).1

/-- What the calls append is what they were given. -/
theorem registered_submitAll {rf : Raft n (Command B F)} (h : rf.state = .leader)
    (calls : List (Submission B F)) :
    (∀ e ∈ (lg.submitAll rf calls).logs, e.Registered Command.Registered) ↔
      (∀ e ∈ rf.logs, e.Registered Command.Registered) ∧
        ∀ call ∈ calls, call.command.Registered := by
  induction calls using List.reverseRecOn with
  | nil => simp [submitAll]
  | append_singleton calls call ih =>
    obtain ⟨-, hlogs, -⟩ := lg.submit_leader (lg.submitAll_leader h calls) call
    rw [submitAll_snoc, hlogs]
    simp only [List.forall_mem_append, List.forall_mem_singleton, ih, and_assoc]
    simp [LogEntry.Registered]

theorem recoverable_submitAll_iff {rf : Raft n (Command B F)} (h : rf.state = .leader)
    (calls : List (Submission B F)) (call : Submission B F) :
    lg.Recoverable (lg.submitAll rf (calls ++ [call])) ↔
      (∀ e ∈ rf.logs, e.Registered Command.Registered) ∧
        ∀ made ∈ calls ++ [call], made.command.Registered := by
  obtain ⟨-, hlogs, hps, -⟩ := lg.submit_leader (lg.submitAll_leader h calls) call
  rw [← submitAll_snoc] at hlogs hps
  rw [lg.recoverable_iff hps (by simp [hlogs]), lg.registered_submitAll h]

/-- On a leader every call is accepted, and after each call of a sequence the log is on
disk and can be sent if and only if no gradient is in the log or among the calls. -/
theorem accepted_recoverable_iff_registered {rf : Raft n (Command B F)} (h : rf.state = .leader)
    (calls : List (Submission B F)) :
    (∀ before call, before ++ [call] <+: calls →
      (lg.submit (lg.submitAll rf before) call).2.isSome ∧
        lg.Recoverable (lg.submitAll rf (before ++ [call]))) ↔
      calls = [] ∨ (∀ e ∈ rf.logs, e.Registered Command.Registered) ∧
        ∀ call ∈ calls, call.command.Registered := by
  constructor
  · intro hall
    -- the last call speaks for all
    cases calls using List.reverseRecOn with
    | nil => exact Or.inl rfl
    | append_singleton calls call =>
      right
      exact (lg.recoverable_submitAll_iff h calls call).mp (hall calls call (List.prefix_refl _)).2
  · intro hreg before call hpre
    constructor
    · obtain ⟨-, -, -, haccepted⟩ := lg.submit_leader (lg.submitAll_leader h before) call
      rw [haccepted]
      rfl
    · cases hreg with
      | inl hnil =>
        rw [hnil] at hpre
        exact absurd (List.prefix_nil.mp hpre) (by simp)
      | inr hreg =>
        apply (lg.recoverable_submitAll_iff h before call).mpr
        exact ⟨hreg.1, fun made hmade => hreg.2 made (hpre.subset hmade)⟩

end Labgob

/-! ## A `labgob` that meets the assumption -/

section Encoding

variable {n : Nat} {B F : Type}

/-- The entry as one whose command is of a basic type. -/
def LogEntry.basic? (e : LogEntry (Command B F)) : Option (LogEntry B) :=
  match e.command with
  | none => some ⟨none, e.term, e.index⟩
  | some (.basic value) => some ⟨some value, e.term, e.index⟩
  | some (.gradient _) => none

def LogEntry.ofBasic (e : LogEntry B) : LogEntry (Command B F) :=
  ⟨e.command.map .basic, e.term, e.index⟩

theorem LogEntry.basic?_eq_some {e : LogEntry (Command B F)} {b : LogEntry B}
    (h : e.basic? = some b) : b.ofBasic = e := by
  obtain ⟨command, term, index⟩ := e
  cases command with
  | none => cases h; rfl
  | some command =>
    cases command with
    | basic value => cases h; rfl
    | gradient grad => cases h

theorem LogEntry.basic?_isSome (e : LogEntry (Command B F)) :
    e.basic?.isSome ↔ e.Registered Command.Registered := by
  obtain ⟨command, term, index⟩ := e
  cases command with
  | none => simp [LogEntry.basic?, LogEntry.Registered]
  | some command =>
    cases command with
    | basic value => simp [LogEntry.basic?, LogEntry.Registered, Command.Registered]
    | gradient grad => simp [LogEntry.basic?, LogEntry.Registered, Command.Registered]

def basics? : List (LogEntry (Command B F)) → Option (List (LogEntry B))
  | [] => some []
  | e :: l => e.basic?.bind fun b => (basics? l).map (b :: ·)

theorem basics?_eq_some {l : List (LogEntry (Command B F))} {bs : List (LogEntry B)}
    (h : basics? l = some bs) : bs.map LogEntry.ofBasic = l := by
  induction l generalizing bs with
  | nil => cases h; rfl
  | cons e l ih =>
    simp only [basics?, Option.bind_eq_some_iff, Option.map_eq_some_iff] at h
    obtain ⟨b, hb, bs, hbs, rfl⟩ := h
    rw [List.map_cons, LogEntry.basic?_eq_some hb, ih hbs]

theorem basics?_isSome (l : List (LogEntry (Command B F))) :
    (basics? l).isSome ↔ ∀ e ∈ l, e.Registered Command.Registered := by
  induction l with
  | nil => simp [basics?]
  | cons e l ih =>
    rw [List.forall_mem_cons, ← ih, ← e.basic?_isSome, basics?]
    cases e.basic? with
    | none => simp
    | some b => simp

def AppendEntriesArgs.codec (n : Nat) (command : Codec B) : Codec (AppendEntriesArgs n B) :=
  (Codec.nat.pair ((Codec.fin n).pair (Codec.nat.pair (Codec.nat.pair
    (Codec.nat.pair (LogEntry.codec command).list))))).via
    (fun a => (a.term, a.leaderId, a.prevLogIndex, a.prevLogTerm, a.leaderCommit, a.entries))
    (fun x => some ⟨x.1, x.2.1, x.2.2.1, x.2.2.2.1, x.2.2.2.2.1, x.2.2.2.2.2⟩) fun _ => rfl

/-- Any code for the basic values gives one for logs and requests. -/
def Labgob.ofCodec (n : Nat) (command : Codec B) :
    Labgob n (Command.Registered (B := B) (F := F)) where
  term := Codec.nat
  vote := (Codec.fin n).option
  logs := .via (LogEntry.codec command).list rfl basics? (List.map LogEntry.ofBasic)
    fun _ _ => basics?_eq_some
  args := .via (AppendEntriesArgs.codec n command) rfl
    (fun a => (basics? a.entries).map fun entries =>
      ⟨a.term, a.leaderId, a.prevLogIndex, a.prevLogTerm, a.leaderCommit, entries⟩)
    (fun a => ⟨a.term, a.leaderId, a.prevLogIndex, a.prevLogTerm, a.leaderCommit,
      a.entries.map LogEntry.ofBasic⟩)
    (by
      intro a b h
      obtain ⟨entries, hentries, rfl⟩ := Option.map_eq_some_iff.mp h
      simp only [basics?_eq_some hentries])
  term_read_nil := rfl
  logs_write l := by
    rw [← basics?_isSome]
    simp [PartialCodec.via]
  args_write a := by
    rw [← basics?_isSome]
    simp [PartialCodec.via]

end Encoding

/-- Basic values that are numbers. -/
def numberLabgob : Labgob 3 (Command.Registered (B := Nat) (F := Int)) := .ofCodec 3 Codec.nat

/-- A leader of three that has just been elected. -/
def newLeader : Raft 3 (Command Nat Int) :=
  { Labgob.booting 0 makePersister with currentTerm := 1, votedFor := some 0, state := .leader }

theorem accepted_recoverable_iff_registered_of_three :
    newLeader.state = .leader ∧
      ∀ before call, before ++ [call] <+: [Submission.start 5, Submission.start 6] →
        (numberLabgob.submit (numberLabgob.submitAll newLeader before) call).2.isSome ∧
          numberLabgob.Recoverable (numberLabgob.submitAll newLeader (before ++ [call])) := by
  refine ⟨rfl, (numberLabgob.accepted_recoverable_iff_registered rfl _).mpr ?_⟩
  right
  simp [newLeader, Labgob.booting, LogEntry.dummy, LogEntry.Registered, Submission.command,
    Command.Registered]

def oneGradient : GradientLog Int := ⟨1, 0, 1, Finmap.singleton "w" [1], 0⟩

/-- `Start(5)`, then a gradient. -/
def gradientAccepted : Raft 3 (Command Nat Int) :=
  numberLabgob.submitAll newLeader [.start 5, .submitGradient oneGradient]

theorem accepted_gradient_lost :
    newLeader.state = .leader ∧
      (numberLabgob.submitGradient (numberLabgob.submitAll newLeader [.start 5])
        oneGradient).2 = some (2, 1) ∧
      gradientAccepted.logs.map LogEntry.index = [0, 1, 2] ∧
      (numberLabgob.readPersist newLeader gradientAccepted.persister.readRaftState).isNone ∧
      (numberLabgob.make 0 gradientAccepted.persister).isNone ∧
      ∃ request, gradientAccepted.genAppendEntriesArgs 1 = .ok request ∧
        request.entries.map LogEntry.index = [2] ∧ numberLabgob.call request = none :=
  ⟨rfl, rfl, rfl, rfl, rfl, _, rfl, rfl, rfl⟩

end RaftImplementation
