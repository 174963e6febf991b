import RaftImplementation.Raft.Encoding
import RaftImplementation.Raft.Sections

/-!
# The durable log and the durable snapshot

The head of the log and the bytes of the snapshot are two fields of the persister.
`Snapshot` and `CondInstallSnapshot` write both at once; every other section saves
with a nil snapshot, which keeps the bytes, and leaves the index of the head alone.
So if the service hands in bytes that encode its state through the index it names,
the snapshot of a peer always covers exactly what its log no longer has, and so
does every copy of it that travels.
-/

namespace RaftImplementation

open Library Cluster Raft

variable {n : Nat} {C : Type} {gob : Gob n C}

/-! ## Sections that leave the snapshot alone -/

/-- The snapshot, the index of the log head and the queued snapshot messages of a peer
are as they were. -/
structure Retains (rf rf' : Raft n C) : Prop where
  snapshot : rf'.persister.snapshot = rf.persister.snapshot
  first : rf'.getFirstLog.index = rf.getFirstLog.index
  sends : rf'.snapshotSends = rf.snapshotSends

namespace Retains

variable {rf rf' rf'' : Raft n C}

theorem refl (rf : Raft n C) : Retains rf rf := ⟨rfl, rfl, rfl⟩

theorem trans (h : Retains rf rf') (h' : Retains rf' rf'') : Retains rf rf'' where
  snapshot := h'.snapshot.trans h.snapshot
  first := h'.first.trans h.first
  sends := h'.sends.trans h.sends

theorem changeState (rf : Raft n C) (s : NodeState) : Retains rf (rf.changeState s) := by
  obtain ⟨et, h⟩ := rf.changeState_eq s
  rw [h]
  exact ⟨rfl, rfl, rfl⟩

theorem adoptTerm (rf : Raft n C) (t : Nat) : Retains rf (rf.adoptTerm gob t) := ⟨rfl, rfl, rfl⟩

/-- The step down for the higher term of a reply. -/
theorem behind (rf : Raft n C) (t : Nat) :
    Retains rf ((rf.changeState .follower).adoptTerm gob t) :=
  (changeState rf .follower).trans (adoptTerm _ t)

/-- The head of `AppendEntries` and of `InstallSnapshot`. -/
theorem follow (gob : Gob n C) (rf : Raft n C) (t : Nat) :
    Retains rf ((if t > rf.currentTerm then rf.adoptTerm gob t else rf).changeState
      .follower).resetElectionTimer := by
  have hhead : Retains rf (if t > rf.currentTerm then rf.adoptTerm gob t else rf) := by
    split
    · exact adoptTerm rf t
    · exact refl rf
  exact (hhead.trans (changeState _ .follower)).trans ⟨rfl, rfl, rfl⟩

theorem electionTimeout (rf : Raft n C) : Retains rf (rf.electionTimeout gob).1 :=
  (changeState rf .candidate).trans ⟨rfl, rfl, rfl⟩

theorem start (hw : rf.WellFormed) (command : Option C) :
    Retains rf (rf.start gob command).1 := by
  cases rf.start_eq gob command with
  | inl h =>
    rw [h.2]
    exact refl rf
  | inr h =>
    unfold Raft.start
    rw [if_pos h.1]
    constructor
    · rfl
    · cases hl : rf.logs with
      | nil => simpa [hl] using hw.length_pos
      | cons e es => simp [getFirstLog, persist, hl]
    · rfl

theorem requestVote (rf : Raft n C) (args : RequestVoteArgs n) :
    Retains rf (rf.requestVote gob args).1 := by
  have hterm : Retains rf
      (if args.term > rf.currentTerm then (rf.changeState .follower).adoptTerm gob args.term
        else rf) := by
    split
    · exact behind rf args.term
    · exact refl rf
  unfold Raft.requestVote
  split
  · exact refl rf
  · generalize (if args.term > rf.currentTerm then
      (rf.changeState .follower).adoptTerm gob args.term else rf) = rf' at hterm ⊢
    dsimp only
    split
    · exact hterm.trans ⟨rfl, rfl, rfl⟩
    · exact hterm

theorem onRequestVoteReply (rf : Raft n C) (args : RequestVoteArgs n)
    (reply : RequestVoteReply) : Retains rf (rf.onRequestVoteReply gob args reply) := by
  unfold Raft.onRequestVoteReply
  split
  · split
    · have hcount : Retains rf { rf with grantedVotes := rf.grantedVotes + 1 } := ⟨rfl, rfl, rfl⟩
      dsimp only
      split
      · exact hcount.trans (changeState _ .leader)
      · exact hcount
    · split
      · exact behind rf reply.term
      · exact refl rf
  · exact refl rf

theorem onInstallSnapshotReply (rf : Raft n C) (peer : Fin n) (args : InstallSnapshotArgs n)
    (reply : InstallSnapshotReply) :
    Retains rf (rf.onInstallSnapshotReply gob peer args reply) := by
  unfold Raft.onInstallSnapshotReply
  split
  · split
    · exact behind rf reply.term
    · exact ⟨rfl, rfl, rfl⟩
  · exact refl rf

/-- The entry at which the log is replaced is the head only if it has its index. -/
theorem splice (hw : rf.WellFormed) {e : LogEntry C} {es : List (LogEntry C)}
    (hf : rf.getFirstLog.index ≤ e.index) :
    Retains rf (({ rf with logs := shrinkEntries (rf.logs.take (e.index - rf.getFirstLog.index) ++
      e :: es) } : Raft n C).persist gob) := by
  constructor
  · rfl
  · cases hk : e.index - rf.getFirstLog.index with
    | zero =>
      simp only [getFirstLog, persist, shrinkEntries, List.take_zero, List.nil_append,
        List.headD_cons]
      unfold getFirstLog at hf hk
      omega
    | succ k =>
      cases hl : rf.logs with
      | nil => simpa [hl] using hw.length_pos
      | cons x xs => simp [getFirstLog, persist, shrinkEntries, hl]
  · rfl

theorem spliceEntries (hw : rf.WellFormed) {entries : List (LogEntry C)}
    (h : rf.spliceEntries gob entries = .ok rf') : Retains rf rf' := by
  induction entries with
  | nil =>
    cases h
    exact refl rf
  | cons e es ih =>
    rw [Raft.spliceEntries] at h
    split at h
    · cases h
    · rename_i hf
      dsimp only at h
      split at h
      · split at h
        · exact ih h
        · cases h
          exact splice hw (Nat.le_of_not_lt hf)
      · split at h
        · cases h
          exact splice hw (Nat.le_of_not_lt hf)
        · cases h

theorem followLeaderCommit (rf : Raft n C) (leaderCommit : Nat) :
    Retains rf (rf.followLeaderCommit leaderCommit) := by
  rw [rf.followLeaderCommit_eq]
  exact ⟨rfl, rfl, rfl⟩

theorem appendEntries (hw : rf.WellFormed) {args : AppendEntriesArgs n C}
    {reply : AppendEntriesReply} (h : rf.appendEntries gob args = .ok (rf', reply)) :
    Retains rf rf' := by
  unfold Raft.appendEntries at h
  split at h
  · cases h
    exact refl rf
  · rename_i ht
    obtain ⟨v, et, ps, hfollow, -⟩ := rf.follow_leader gob (Nat.le_of_not_lt ht)
    have hhead := follow gob rf args.term
    rw [hfollow] at hhead
    simp only [hfollow] at h
    split at h
    · cases h
      exact hhead
    · simp only [bind, Except.bind] at h
      split at h
      · cases h
      · split at h
        · split at h
          · cases h
          · rename_i rf₁ hs
            cases h
            have hw' : (rf.following args.term v et ps).WellFormed := hw.of_logs rfl
            exact (hhead.trans (spliceEntries hw' hs)).trans (followLeaderCommit rf₁ _)
        · split at h
          · cases h
          · cases h
            exact hhead

theorem onAppendEntriesReply (hw : rf.WellFormed) {peer : Fin n}
    {args : AppendEntriesArgs n C} {reply : AppendEntriesReply}
    (h : rf.onAppendEntriesReply gob peer args reply = .ok rf') : Retains rf rf' := by
  unfold Raft.onAppendEntriesReply at h
  split at h
  · split at h
    · have hw' : (rf.matched peer (args.prevLogIndex + args.entries.length)).WellFormed :=
        hw.of_logs rfl
      cases advanceCommitIndexForLeader_eq _ hw' with
      | inl hadv =>
        obtain ⟨ci, hadv, -⟩ := hadv
        cases hadv.symm.trans h
        exact ⟨rfl, rfl, rfl⟩
      | inr herr => cases herr.symm.trans h
    · split at h
      · cases h
        exact behind rf reply.term
      · split at h
        · cases rf.backOff_handled peer args reply with
          | inl hback =>
            obtain ⟨i, hback, -⟩ := hback
            cases hback.symm.trans h
            exact ⟨rfl, rfl, rfl⟩
          | inr herr => cases herr.symm.trans h
        · cases h
          exact refl rf
  · cases h
    exact refl rf

end Retains

/-! ## Sections that write a snapshot -/

/-- The log now begins at `i`, and `data` is what was handed in with it. -/
structure Rewrites (rf : Raft n C) (i : Nat) (data : Option Bytes) (rf' : Raft n C) : Prop where
  pos : 0 < i
  first : rf'.getFirstLog.index = i
  snapshot : rf'.persister.snapshot = data.getD rf.persister.snapshot
  sends : rf'.snapshotSends = rf.snapshotSends

theorem snapshot_bytes {rf rf' : Raft n C} {index : Nat} {data : Option Bytes}
    (h : rf.snapshot gob index data = .ok rf') :
    rf' = rf ∨ rf'.persister.snapshot = data.getD rf.persister.snapshot := by
  unfold Raft.snapshot at h
  split at h
  · cases h
    exact .inl rfl
  · simp only [bind, Except.bind] at h
    split at h
    · cases h
    · split at h
      · cases h
      · cases h
        exact .inr rfl

theorem snapshot_rewrites {rf rf' : Raft n C} (hw : rf.WellFormed) {index : Nat}
    {data : Option Bytes} (h : rf.snapshot gob index data = .ok rf') :
    rf' = rf ∨ Rewrites rf index data rf' := by
  cases snapshot_inv gob hw h with
  | rejected => exact .inl rfl
  | taken e ps hf =>
    cases snapshot_bytes h with
    | inl hsame => exact .inl hsame
    | inr hbytes => exact .inr ⟨Nat.zero_lt_of_lt hf, rfl, hbytes, rfl⟩

theorem condInstallSnapshot_bytes {rf rf' : Raft n C} {t i : Nat} {data : Option Bytes}
    {result : Bool} (h : rf.condInstallSnapshot gob t i data = .ok (rf', result)) :
    rf' = rf ∨ rf'.persister.snapshot = data.getD rf.persister.snapshot := by
  unfold Raft.condInstallSnapshot at h
  split at h
  · cases h
    exact .inl rfl
  · simp only [bind, Except.bind] at h
    split at h
    · cases h
    · split at h
      · cases h
      · cases h
        exact .inr rfl

theorem condInstallSnapshot_rewrites {rf rf' : Raft n C} (hw : rf.WellFormed) {t i : Nat}
    {data : Option Bytes} {result : Bool}
    (h : rf.condInstallSnapshot gob t i data = .ok (rf', result)) :
    rf' = rf ∨ Rewrites rf i data rf' := by
  cases condInstallSnapshot_inv gob hw h with
  | outdated => exact .inl rfl
  | accepted ps hc =>
    cases condInstallSnapshot_bytes h with
    | inl hsame => exact .inl hsame
    | inr hbytes => exact .inr ⟨Nat.zero_lt_of_lt hc, rfl, hbytes, rfl⟩

/-- `InstallSnapshot` leaves the snapshot of the peer alone and may queue a message. -/
theorem installSnapshot_queues (gob : Gob n C) (rf : Raft n C) (args : InstallSnapshotArgs n) :
    Retains rf (rf.installSnapshot gob args).1 ∨
      (rf.commitIndex < args.lastIncludedIndex ∧
        ∃ rf', Retains rf rf' ∧ (rf.installSnapshot gob args).1 = rf'.queueing
          ⟨args.data.transmit, args.lastIncludedTerm, args.lastIncludedIndex⟩) := by
  unfold Raft.installSnapshot
  dsimp only
  split
  · exact .inl (.refl rf)
  · rename_i ht
    have hhead := Retains.follow gob rf args.term
    obtain ⟨v, et, ps, hfollow, -⟩ := rf.follow_leader gob (Nat.le_of_not_lt ht)
    simp only [hfollow] at hhead ⊢
    split
    · exact .inl hhead
    · rename_i hc
      exact .inr ⟨Nat.lt_of_not_le hc, _, hhead, rfl⟩

/-! ## What the service has received -/

variable {c c' : Cluster n C} {a : Action n C} {tr es : List (Event n C)}

@[simp] theorem setRaft_received (c : Cluster n C) (p q : Fin n) (rf : Raft n C) :
    ((c.setRaft p rf).nodes q).received = (c.nodes q).received := by
  by_cases hq : q = p
  · subst hq
    simp [setRaft]
  · simp [setRaft, hq]

/-- The service reads nothing but what the step says it received. -/
theorem moves_received (h : Moves gob c a c' es) {q : Fin n} {x : ApplyMsg C}
    (hx : x ∈ (c'.nodes q).received) :
    x ∈ (c.nodes q).received ∨ ∃ b, Event.received q b x ∈ es := by
  have hhanded : ∀ p rf m, x ∈ ((c.handed p rf m).nodes q).received →
      x ∈ (c.nodes q).received ∨ (q = p ∧ x = m) := by
    intro p rf m hx
    by_cases hq : q = p
    · subst hq
      simpa [handed] using hx
    · exact .inl (by simpa [handed, hq] using hx)
  cases h with
  | reboot p rpcs =>
    by_cases hq : q = p
    · subst hq
      simp [restarted] at hx
    · rw [restarted_nodes_ne c p rpcs hq] at hx
      exact .inl hx
  | sentEntry p ci e rest =>
    cases hhanded p _ _ hx with
    | inl hold => exact .inl hold
    | inr hnew => exact .inr ⟨(c.nodes p).boot, by simp [hnew]⟩
  | sentSnapshot p k m =>
    cases hhanded p _ _ hx with
    | inl hold => exact .inl hold
    | inr hnew => exact .inr ⟨(c.nodes p).boot, by simp [hnew]⟩
  | _ => exact .inl (by simpa using hx)

/-- A snapshot that the service receives was queued. -/
theorem moves_received_snapshot (h : Moves gob c a c' es) {q : Fin n} {b : Nat}
    {m : SnapshotMsg} (hm : Event.received q b (.snapshot m) ∈ es) :
    m ∈ (c.raft q).snapshotSends := by
  cases h with
  | sentSnapshot p k m' hk =>
    simp only [List.mem_singleton, Event.received.injEq, ApplyMsg.snapshot.injEq] at hm
    obtain ⟨rfl, -, rfl⟩ := hm
    exact List.mem_of_getElem? hk
  | voteHandled k m' args rf reply =>
    split at hm
    · simp at hm
    · simp at hm
  | _ => simp at hm

/-! ## The invariant -/

section Invariant

-- `enc b i`: the bytes `b` encode the state of the service through index `i`
variable (enc : Bytes → Nat → Prop)

/-- `Snapshot(index, bytes)` is called only with non-empty bytes that encode the state
through `index`. -/
def EncodesState (_ : Cluster n C) : Action n C → Prop
  | .snapshot _ index (some b) => b ≠ [] ∧ enc b index
  | .snapshot _ _ none => False
  | _ => True

/-- The bytes encode the state through `i`; for `i = 0` there are none. -/
def Through (b : Bytes) (i : Nat) : Prop := if i = 0 then b = [] else b ≠ [] ∧ enc b i

/-- The message carries bytes, and they encode the state through its index. -/
def SnapshotMsg.Through (m : SnapshotMsg) : Prop :=
  ∃ b, m.snapshot = some b ∧ b ≠ [] ∧ enc b m.snapshotIndex

/-- The snapshot of the peer and the messages it has queued. -/
structure SnapshotCovers (rf : Raft n C) : Prop where
  snapshot : Through enc rf.persister.snapshot rf.getFirstLog.index
  sends : ∀ m ∈ rf.snapshotSends, m.Through enc

structure SnapshotsInStep (tr : List (Event n C)) (c : Cluster n C) : Prop where
  nodes : ∀ p, SnapshotCovers enc (c.raft p)
  requests : ∀ m ∈ c.rpcs, ∀ args, m.body = .installSnapshot args →
    Through enc args.data args.lastIncludedIndex
  trace : ∀ p b m, Event.received p b (.snapshot m) ∈ tr → m.Through enc
  received : ∀ p m, .snapshot m ∈ (c.nodes p).received → m.Through enc

variable {enc}

theorem Through.transmit {b : Bytes} {t i : Nat} (h : Through enc b i) (hi : 0 < i) :
    SnapshotMsg.Through enc ⟨b.transmit, t, i⟩ := by
  rw [Through, if_neg (Nat.ne_of_gt hi)] at h
  exact ⟨b, by simp [Bytes.transmit, h.1], h⟩

theorem Retains.fits {rf rf' : Raft n C} (h : Retains rf rf') (hf : SnapshotCovers enc rf) :
    SnapshotCovers enc rf' := by
  constructor
  · rw [h.snapshot, h.first]
    exact hf.snapshot
  · rw [h.sends]
    exact hf.sends

theorem Rewrites.fits {rf rf' : Raft n C} {i : Nat} {b : Bytes}
    (h : Rewrites rf i (some b) rf') (hb : b ≠ []) (henc : enc b i) (hf : SnapshotCovers enc rf) :
    SnapshotCovers enc rf' := by
  constructor
  · rw [h.snapshot, h.first, Through, if_neg (Nat.ne_of_gt h.pos)]
    exact ⟨hb, henc⟩
  · rw [h.sends]
    exact hf.sends

/-- Whatever runs on a peer keeps its snapshot in step with its log. -/
theorem ran_fits (hc : Sound gob c) (hok : EncodesState enc c a) (hs : SnapshotsInStep enc tr c)
    {q : Fin n} {rf : Raft n C} (h : Ran gob c q a rf) : SnapshotCovers enc rf := by
  have hfits := hs.nodes q
  have hw := hc.wellFormed q
  cases h with
  | idle => exact hfits
  | fire => exact ⟨hfits.snapshot, hfits.sends⟩
  | tick => exact ⟨hfits.snapshot, hfits.sends⟩
  | elect => exact (Retains.electionTimeout _).fits hfits
  | start command => exact (Retains.start hw command).fits hfits
  | requestVote k m args => exact (Retains.requestVote _ args).fits hfits
  | appendEntries k m args rf reply hm hb hq h => exact (Retains.appendEntries hw h).fits hfits
  | installSnapshot k m args hm hb hq =>
    cases installSnapshot_queues gob (c.raft q) args with
    | inl hkept => exact hkept.fits hfits
    | inr hqueued =>
      obtain ⟨hci, rf, hkept, heq⟩ := hqueued
      have hbefore := hkept.fits hfits
      have hargs := hs.requests m (List.mem_of_getElem? hm) args hb
      rw [heq]
      constructor
      · exact hbefore.snapshot
      · intro x hx
        cases List.mem_append.mp hx with
        | inl hold => exact hbefore.sends x hold
        | inr hnew =>
          rw [List.mem_singleton.mp hnew]
          exact hargs.transmit (Nat.zero_lt_of_lt hci)
  | onRequestVoteReply k m args reply => exact (Retains.onRequestVoteReply _ args reply).fits hfits
  | onAppendEntriesReply k m args reply rf hm hb hq h =>
    exact (Retains.onAppendEntriesReply hw h).fits hfits
  | onInstallSnapshotReply k m args reply =>
    exact (Retains.onInstallSnapshotReply _ m.callee args reply).fits hfits
  | snapshot index data rf h =>
    cases snapshot_rewrites hw h with
    | inl hsame => exact hsame ▸ hfits
    | inr hnew =>
      cases data with
      | none => exact hok.elim
      | some b => exact hnew.fits hok.1 hok.2 hfits
  | condInstallSnapshot m rf result hrec h =>
    obtain ⟨b, hmb, hb, henc⟩ := hs.received q m (receivedSnapshot_mem hrec)
    rw [hmb] at h
    cases condInstallSnapshot_rewrites hw h with
    | inl hsame => exact hsame ▸ hfits
    | inr hnew => exact hnew.fits hb henc hfits
  | applier ap i => exact ⟨hfits.snapshot, hfits.sends⟩
  | sendSnapshot k => exact ⟨hfits.snapshot, fun m hm => hfits.sends m (List.mem_of_mem_eraseIdx hm)⟩

/-- A restart reads the log and keeps the persister. -/
theorem restart_fits (hc : Sound gob c) (hs : SnapshotsInStep enc tr c) {q : Fin n}
    {rf : Raft n C} (h : make gob q (c.raft q).persister = some rf) : SnapshotCovers enc rf := by
  rw [make_eq_fresh gob (hc.mirrored q), Option.some.injEq] at h
  subst h
  constructor
  · exact (hs.nodes q).snapshot
  · simp

theorem requests_moves (hs : SnapshotsInStep enc tr c) (h : Moves gob c a c' es) :
    ∀ m ∈ c'.rpcs, ∀ args, m.body = .installSnapshot args →
      Through enc args.data args.lastIncludedIndex := by
  intro m hm args hb
  cases moves_origin h hm with
  | old hold => exact hs.requests m hold args hb
  | vote hne hbody => simp [hbody] at hb
  | asked rargs hbody ha =>
    cases ha with
    | install =>
      rw [hbody, ReplicationArgs.body, RpcBody.installSnapshot.injEq] at hb
      subst hb
      exact (hs.nodes m.caller).snapshot
    | append => simp [hbody, ReplicationArgs.body] at hb
  | voted m₀ args' reply hm₀ hb₀ heq => simp [heq, Rpc.answered] at hb
  | appended m₀ args' reply hm₀ hb₀ heq => simp [heq, Rpc.answered] at hb
  | snapshotted m₀ args' hm₀ hb₀ heq => simp [heq, Rpc.answered] at hb

theorem snapshotsInStep_step (hc : Sound gob c) (hok : EncodesState enc c a)
    (hs : SnapshotsInStep enc tr c) (hstep : c.step gob a = some (c', es))
    (hm : Moves gob c a c' es) : SnapshotsInStep enc (tr ++ es) c' := by
  have hes : ∀ p b m, Event.received p b (.snapshot m) ∈ es → m.Through enc :=
    fun p b m hmem => (hs.nodes p).sends m (moves_received_snapshot hm hmem)
  constructor
  · intro p
    cases step_ran hc hstep p with
    | inl hran => exact ran_fits hc hok hs hran.2
    | inr hboot => exact restart_fits hc hs hboot.2
  · exact requests_moves hs hm
  · intro p b m hmem
    cases List.mem_append.mp hmem with
    | inl hold => exact hs.trace p b m hold
    | inr hnew => exact hes p b m hnew
  · intro p m hmem
    cases moves_received hm hmem with
    | inl hold => exact hs.received p m hold
    | inr hnew =>
      obtain ⟨b, hnew⟩ := hnew
      exact hes p b m hnew

theorem snapshotsInStep_run (h : RunWhere gob (EncodesState enc) tr c) :
    SnapshotsInStep enc tr c := by
  apply h.invariant (SnapshotsInStep enc)
  · constructor
    · intro p
      constructor
      · simp [init, makePersister, getFirstLog, LogEntry.dummy, Through]
      · simp [init]
    · simp [init]
    · simp
    · simp [init]
  · intro tr c a c' es hc hs hok hstep hm
    exact snapshotsInStep_step hc hok hs hstep hm

end Invariant

/-- If the service snapshots with bytes that encode its state through the index it
names, then on every peer the durable snapshot encodes the state through exactly the
index at which the durable log begins, and so do the bytes of every `InstallSnapshot`
request under way and of every snapshot message, queued or received. -/
theorem snapshot_matches_log (enc : Bytes → Nat → Prop)
    (h : RunWhere gob (EncodesState enc) tr c) :
    (∀ p, ∃ t v l, durable gob (c.raft p).persister = some (t, v, l) ∧
      Through enc (c.raft p).persister.readSnapshot (l.headD .dummy).index) ∧
    (∀ m ∈ c.rpcs, ∀ args, m.body = .installSnapshot args →
      Through enc args.data args.lastIncludedIndex) ∧
    (∀ p, ∀ m ∈ (c.raft p).snapshotSends, m.Through enc) ∧
    (∀ p b m, Event.received p b (.snapshot m) ∈ tr → m.Through enc) := by
  have hs := snapshotsInStep_run h
  have hmirrored := (sound_run h).mirrored
  constructor
  · intro p
    exact ⟨_, _, _, hmirrored p, (hs.nodes p).snapshot⟩
  · exact ⟨hs.requests, fun p => (hs.nodes p).sends, hs.trace⟩

instance (enc : Bytes → Nat → Prop) [DecidableRel enc] (c : Cluster n C) :
    ∀ a, Decidable (EncodesState enc c a)
  | .snapshot _ index (some b) => inferInstanceAs (Decidable (b ≠ [] ∧ enc b index))
  | .snapshot _ _ none => isFalse id
  | .fire _ | .tick _ | .elect _ | .start _ _ | .replicate _ _ | .deliver _ | .lose _
  | .copyBatch _ _ | .sendEntry _ | .finishBatch _ | .sendSnapshot _ _ | .condInstall _ _
  | .crash _ => isTrue trivial

/-- Leader 0 compacts its log, its snapshot is installed on peer 2, and peer 2 restarts. -/
def installedAndRestarted : List (Action 3 Nat) :=
  [Action.timeout 0, [.deliver 0, .deliver 0, .lose 0],
    [.start 0 (some 11), .replicate 0 1, .deliver 0, .deliver 0],
    [.copyBatch 0 [], .sendEntry 0, .finishBatch 0, .snapshot 0 1 (some [1])],
    [.replicate 0 2, .deliver 0, .sendSnapshot 2 0, .condInstall 2 ⟨some [1], 1, 1⟩],
    [.crash 2, .replicate 0 2]].flatten

/-- A service whose state is the number of commands it has applied. -/
def countBytes (b : Bytes) (i : Nat) : Prop := b = [UInt8.ofNat i]

instance : DecidableRel countBytes := fun b i =>
  inferInstanceAs (Decidable (b = [UInt8.ofNat i]))

theorem snapshot_matches_log_of_three :
    ((ran (natGob 3) (EncodesState countBytes) installedAndRestarted).1.nodes 2).boot = 1 ∧
      ((ran (natGob 3) (EncodesState countBytes) installedAndRestarted).1.raft
        2).getFirstLog.index = 1 ∧
      (∃ t v l, durable (natGob 3) ((ran (natGob 3) (EncodesState countBytes)
          installedAndRestarted).1.raft 2).persister = some (t, v, l) ∧
        Through countBytes ((ran (natGob 3) (EncodesState countBytes)
          installedAndRestarted).1.raft 2).persister.readSnapshot (l.headD .dummy).index) ∧
      SnapshotMsg.Through countBytes ⟨some [1], 1, 1⟩ := by
  have hrun : RunWhere (natGob 3) (EncodesState countBytes)
      (ran (natGob 3) (EncodesState countBytes) installedAndRestarted).2
      (ran (natGob 3) (EncodesState countBytes) installedAndRestarted).1 :=
    reached_run (by decide +kernel)
  have hall := snapshot_matches_log countBytes hrun
  exact ⟨by decide +kernel, by decide +kernel, hall.1 2, hall.2.2.2 2 0 _ (by decide +kernel)⟩

end RaftImplementation
