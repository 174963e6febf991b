import RaftImplementation.Raft.Entries

/-!
# The indices a leader works with

`nextIndex` is set when a peer boots and by the replies to its requests, but not
when it is elected. What a leader learns from replies of its own term stays within
its log, since in that term its log only grows. What it brings along from an
earlier leadership may lie past the end of its log.
-/

namespace RaftImplementation

open Library Cluster Raft

variable {n : Nat} {C : Type}

/-- `nextIndex[peer] - 1` is below the first log index or at most the last. -/
def Raft.InRange (rf : Raft n C) (peer : Fin n) : Prop :=
  (rf.nextIndex peer : Int) - 1 < rf.getFirstLog.index ∨
    (rf.nextIndex peer : Int) - 1 ≤ rf.getLastLog.index

instance (rf : Raft n C) (peer : Fin n) : Decidable (rf.InRange peer) :=
  inferInstanceAs (Decidable (_ ∨ _))

theorem Raft.WellFormed.inRange_iff {rf : Raft n C} (hw : rf.WellFormed) (peer : Fin n) :
    rf.InRange peer ↔ rf.nextIndex peer ≤ rf.getLastLog.index + 1 := by
  have := hw.first_le_last
  unfold InRange
  omega

/-- In range, `replicateOnceRound` does not panic. -/
theorem Raft.WellFormed.replicateOnceRound_ne_error {rf : Raft n C} (hw : rf.WellFormed)
    {peer : Fin n} (hr : rf.InRange peer) (ps : Persister) :
    rf.replicateOnceRound peer ≠ .error ps := by
  rw [hw.inRange_iff] at hr
  have hlast := hw.last_index
  unfold replicateOnceRound
  split
  · dsimp only
    split
    · simp [pure, Except.pure]
    · rename_i hge
      have hi : ((rf.nextIndex peer : Int) - 1).toNat = rf.nextIndex peer - 1 := by omega
      have hf : rf.getFirstLog.index ≤ rf.nextIndex peer - 1 := by omega
      rw [hi]
      rcases genAppendEntriesArgs_eq _ hf with ⟨e, _, hgen⟩ | ⟨hout, _⟩
      · rw [hgen]
        simp [bind, Except.bind, pure, Except.pure]
      · omega
  · simp [pure, Except.pure]

/-- Out of range, `replicateOnceRound` of a leader panics. -/
theorem Raft.WellFormed.replicateOnceRound_eq_error {rf : Raft n C} (hw : rf.WellFormed)
    {peer : Fin n} (hs : rf.state = .leader) (hr : ¬ rf.InRange peer) :
    rf.replicateOnceRound peer = .error rf.persister := by
  rw [hw.inRange_iff] at hr
  have hlast := hw.last_index
  rcases rf.replicateOnceRound_asked peer with ⟨hns, _⟩ | ⟨args, _, ha⟩ | herr
  · exact absurd hs hns
  · cases ha with
    | install _ hn =>
      have := hw.first_le_last
      omega
    | append i e _ hn hf he =>
      have := (List.getElem?_eq_some_iff.mp he).1
      omega
  · exact herr

/-- The term of a replication RPC and the highest log index it speaks of. -/
def Rpc.reach (m : Rpc n C) : Option (Nat × Nat) :=
  match m.body with
  | .appendEntries args => some (args.term, args.prevLogIndex + args.entries.length)
  | .appendEntriesReply args _ => some (args.term, args.prevLogIndex + args.entries.length)
  | .installSnapshot args => some (args.term, args.lastIncludedIndex)
  | .installSnapshotReply args _ => some (args.term, args.lastIncludedIndex)
  | _ => none

/-- Replication RPCs come from leaders of their term and speak of indices their log
still has, and a refusal points at most one past the entry that was compared. -/
structure Reaches (tr : List (Event n C)) (c : Cluster n C) : Prop where
  led : ∀ m ∈ c.rpcs, ∀ T i, m.reach = some (T, i) → Led tr m.caller T
  bound : ∀ m ∈ c.rpcs, ∀ T i, m.reach = some (T, i) → (c.raft m.caller).state = .leader →
    (c.raft m.caller).currentTerm = T → i ≤ (c.raft m.caller).getLastLog.index
  conflict : ∀ m ∈ c.rpcs, ∀ args reply, m.body = .appendEntriesReply args reply →
    reply.success = false → reply.conflictIndex ≤ args.prevLogIndex + 1

variable {gob : Gob n C} {c c' : Cluster n C} {a : Action n C} {tr es : List (Event n C)}

theorem reaches_init : Reaches ([] : List (Event n C)) init where
  led m hm := by simp [init] at hm
  bound m hm := by simp [init] at hm
  conflict m hm := by simp [init] at hm

theorem Raft.AppendHandled.conflict_le {rf rf' : Raft n C} {args : AppendEntriesArgs n C}
    {reply : AppendEntriesReply} (hh : AppendHandled gob rf args rf' reply)
    (hs : reply.success = false) : reply.conflictIndex ≤ args.prevLogIndex + 1 := by
  cases hh with
  | stale ht => exact Nat.zero_le _
  | refused v et ps reply ht hv hps hs' hr' hci => exact hci
  | accepted v et ps => cases hs

theorem asked_reach {rf : Raft n C} (hw : rf.WellFormed) {peer : Fin n}
    {args : ReplicationArgs n C} (ha : Asked rf peer args) {m : Rpc n C}
    (hb : m.body = args.body) :
    rf.state = .leader ∧ ∃ i, m.reach = some (rf.currentTerm, i) ∧ i ≤ rf.getLastLog.index := by
  have hlast := hw.last_index
  cases ha with
  | install hs hn =>
    refine ⟨hs, rf.getFirstLog.index, ?_, hw.first_le_last⟩
    simp [Rpc.reach, hb, ReplicationArgs.body, genInstallSnapshotArgs]
  | append i e hs hn hf he =>
    have hlt := (List.getElem?_eq_some_iff.mp he).1
    refine ⟨hs, i + (rf.logs.drop (i + 1 - rf.getFirstLog.index)).length, ?_, ?_⟩
    · simp [Rpc.reach, hb, ReplicationArgs.body]
    · rw [List.length_drop]
      omega

/-- A replication RPC continues an old one, or was just sent. -/
theorem Origin.reach (hc : Sound gob c) {m : Rpc n C} (ho : Origin gob c c' m) {T i : Nat}
    (hm : m.reach = some (T, i)) :
    (∃ m₀ ∈ c.rpcs, m₀.caller = m.caller ∧ m₀.reach = some (T, i)) ∨
    ((c.raft m.caller).state = .leader ∧ (c.raft m.caller).currentTerm = T ∧
      c'.raft m.caller = c.raft m.caller ∧ i ≤ (c.raft m.caller).getLastLog.index) := by
  cases ho with
  | old h => exact .inl ⟨m, h, rfl, hm⟩
  | vote hne hb => simp [Rpc.reach, hb] at hm
  | asked args hb ha hne hboot hsame =>
    obtain ⟨hs, i', hreach, hle⟩ := asked_reach (hc.wellFormed m.caller) ha hb
    rw [hm] at hreach
    cases hreach
    exact .inr ⟨hs, rfl, hsame, hle⟩
  | voted m₀ args reply hm₀ hb hm' hh =>
    subst hm'
    simp [Rpc.reach, Rpc.answered] at hm
  | appended m₀ args reply hm₀ hb hm' hh =>
    subst hm'
    refine .inl ⟨m₀, hm₀, rfl, ?_⟩
    rw [← hm]
    simp [Rpc.reach, Rpc.answered, hb]
  | snapshotted m₀ args hm₀ hb hm' hh =>
    subst hm'
    refine .inl ⟨m₀, hm₀, rfl, ?_⟩
    rw [← hm]
    simp [Rpc.reach, Rpc.answered, hb]

theorem reaches_moves (hc : Sound gob c) (he : Elections tr c) (hr : Reaches tr c)
    (h : Moves gob c a c' es) : Reaches (tr ++ es) c' := by
  refine ⟨?_, ?_, ?_⟩
  · intro m hm T i hreach
    refine led_append.mpr (.inl ?_)
    rcases (moves_origin h hm).reach hc hreach with ⟨m₀, hm₀, hcaller, h₀⟩ | ⟨hs, hT, _⟩
    · rw [← hcaller]
      exact hr.led m₀ hm₀ T i h₀
    · rw [← hT]
      exact he.leader _ hs
  · intro m hm T i hreach hs hT
    rcases (moves_origin h hm).reach hc hreach with ⟨m₀, hm₀, hcaller, h₀⟩ | ⟨_, _, hsame, hle⟩
    · have hbound := hr.bound m₀ hm₀ T i h₀
      have hled := hr.led m₀ hm₀ T i h₀
      rw [hcaller] at hbound hled
      rcases moves_leads hc h m.caller with hl | hel
      · obtain ⟨hs₀, hT₀, hlast⟩ := hl hs
        exact (hbound hs₀ (by rw [← hT₀, hT])).trans hlast
      · obtain ⟨et, heq⟩ := hel.eq
        rw [heq, leading_currentTerm] at hT
        rw [← hT] at hled
        exact absurd hled (he.candidate _ hel.candidate).2.1
    · rw [hsame]
      exact hle
  · intro m hm args reply hb hs
    cases moves_origin h hm with
    | old h => exact hr.conflict m h args reply hb hs
    | vote hne hb' => rw [hb'] at hb; cases hb
    | asked args' hb' ha =>
      rw [hb'] at hb
      cases args' <;> cases hb
    | voted m₀ args' reply' hm₀ hb' hm' hh => subst hm'; cases hb
    | appended m₀ args' reply' hm₀ hb' hm' hh =>
      subst hm'
      cases hb
      exact hh.conflict_le hs
    | snapshotted m₀ args' hm₀ hb' hm' hh => subst hm'; cases hb

/-! ## The next index of a leader -/

/-- A leader's next indices are those it had, or in range. -/
def NextKept (rf rf' : Raft n C) : Prop :=
  rf'.state = .leader → ∀ q, rf'.nextIndex q = rf.nextIndex q ∨
    rf'.nextIndex q ≤ rf'.getLastLog.index + 1

theorem NextKept.of_eq {rf rf' : Raft n C} (h : rf'.nextIndex = rf.nextIndex) :
    NextKept rf rf' := fun _ _ => .inl (by rw [h])

theorem NextKept.refl (rf : Raft n C) : NextKept rf rf := .of_eq rfl

theorem NextKept.of_not {rf rf' : Raft n C} (hs : rf'.state ≠ .leader) : NextKept rf rf' :=
  fun h => absurd h hs

theorem NextKept.update {rf rf' : Raft n C} {peer : Fin n} {i : Nat}
    (h : rf'.nextIndex = Function.update rf.nextIndex peer i)
    (hi : i ≤ rf'.getLastLog.index + 1) : NextKept rf rf' := by
  intro _ q
  rw [h]
  by_cases hq : q = peer
  · subst hq
    rw [Function.update_self]
    exact .inr hi
  · rw [Function.update_of_ne hq]
    exact .inl rfl

theorem moves_nextKept (hr : Reaches tr c) (h : Moves gob c a c' es)
    (q : Fin n) : NextKept (c.raft q) (c'.raft q) := by
  cases h with
  | timers p et tk =>
    refine setRaft_rel NextKept.refl ?_ q
    exact .of_eq rfl
  | lose k => exact .refl _
  | reboot p rpcs hsub =>
    refine restarted_rel NextKept.refl ?_ q
    exact .of_not (by simp)
  | stand p et ps hps =>
    refine setRaft_rel NextKept.refl ?_ q
    exact .of_eq rfl
  | started p command ps hs hps =>
    refine setRaft_rel NextKept.refl ?_ q
    exact .update rfl (by simp [getLastLog, newEntry])
  | asked p peer args hne ha => exact .refl _
  | voteHandled k m args rf reply hm hb hh =>
    refine setRaft_rel NextKept.refl ?_ q
    cases hh with
    | refused => exact .refl _
    | behind et ps => exact .of_eq rfl
    | granted st et ps => exact .of_eq rfl
  | appendHandled k m args rf reply hm hb hh =>
    refine setRaft_rel NextKept.refl ?_ q
    cases hh with
    | stale ht => exact .refl _
    | refused v et ps reply => exact .of_eq rfl
    | accepted v et ps => exact .of_eq rfl
  | snapshotHandled k m args rf hm hb hh =>
    refine setRaft_rel NextKept.refl ?_ q
    cases hh with
    | stale ht => exact .refl _
    | ignored v et ps => exact .of_eq rfl
    | queued v et ps => exact .of_eq rfl
  | outrun k m t et ps =>
    refine setRaft_rel NextKept.refl ?_ q
    exact .of_eq rfl
  | counted k m args reply =>
    refine setRaft_rel NextKept.refl ?_ q
    exact .of_eq rfl
  | won k m args reply et =>
    refine setRaft_rel NextKept.refl ?_ q
    exact .of_eq rfl
  | backedOff k m args reply i hm hb hboot ht hs hsucc hi =>
    have hmem := List.mem_of_getElem? hm
    have hbound := hr.bound m hmem args.term (args.prevLogIndex + args.entries.length)
      (by simp [Rpc.reach, hb]) hs ht.symm
    have hconf := hr.conflict m hmem args reply hb hsucc
    refine setRaft_rel NextKept.refl ?_ q
    exact .update rfl (show i ≤ (c.raft m.caller).getLastLog.index + 1 by omega)
  | matched k m args reply ci hm hb hboot ht hs hsucc hci =>
    have hbound := hr.bound m (List.mem_of_getElem? hm) args.term
      (args.prevLogIndex + args.entries.length) (by simp [Rpc.reach, hb]) hs ht.symm
    refine setRaft_rel NextKept.refl ?_ q
    exact .update rfl (Nat.succ_le_succ hbound)
  | recorded k m args reply hm hb hboot ht hs =>
    have hbound := hr.bound m (List.mem_of_getElem? hm) args.term args.lastIncludedIndex
      (by simp [Rpc.reach, hb]) hs ht.symm
    refine setRaft_rel NextKept.refl ?_ q
    exact .update rfl (Nat.succ_le_succ hbound)
  | snapshotTaken p index data e ps =>
    refine setRaft_rel NextKept.refl ?_ q
    exact .of_eq rfl
  | outdated p m => exact .refl _
  | installed p m ps =>
    refine setRaft_rel NextKept.refl ?_ q
    exact .of_eq rfl
  | copied p spare =>
    refine setRaft_rel NextKept.refl ?_ q
    exact .of_eq rfl
  | sentEntry p ci e rest =>
    refine handed_rel NextKept.refl ?_ q
    exact .of_eq rfl
  | finished p ci =>
    refine setRaft_rel NextKept.refl ?_ q
    exact .of_eq rfl
  | sentSnapshot p k m =>
    refine handed_rel NextKept.refl ?_ q
    exact .of_eq rfl

/-- The condition under which the next indices stay in range: a peer that is elected
has none past the end of its log. -/
def NextIndexFits (c : Cluster n C) (a : Action n C) : Prop :=
  ∀ p, c.winner a = some p → ∀ q, (c.raft p).nextIndex q ≤ (c.raft p).getLastLog.index + 1

instance (c : Cluster n C) (a : Action n C) : Decidable (NextIndexFits c a) :=
  inferInstanceAs (Decidable (∀ p, c.winner a = some p →
    ∀ q, (c.raft p).nextIndex q ≤ (c.raft p).getLastLog.index + 1))

theorem next_le_moves (hc : Sound gob c) (hr : Reaches tr c) (hok : NextIndexFits c a)
    (hn : ∀ p, (c.raft p).state = .leader →
      ∀ q, (c.raft p).nextIndex q ≤ (c.raft p).getLastLog.index + 1)
    (h : Moves gob c a c' es) (p : Fin n) (hs : (c'.raft p).state = .leader) (q : Fin n) :
    (c'.raft p).nextIndex q ≤ (c'.raft p).getLastLog.index + 1 := by
  rcases moves_leads hc h p with hl | hel
  · obtain ⟨hs₀, _, hlast⟩ := hl hs
    rcases moves_nextKept hr h p hs q with heq | hle
    · rw [heq]
      exact (hn p hs₀ q).trans (Nat.succ_le_succ hlast)
    · exact hle
  · obtain ⟨et, heq⟩ := hel.eq
    rw [heq]
    exact hok p hel.winner q

/-- In a run in which every peer that is elected has its next indices within its log,
all leaders always have, and `replicateOnceRound` never panics. -/
theorem leader_indices_in_range (h : RunWhere gob NextIndexFits tr c) (p : Fin n)
    (hs : (c.raft p).state = .leader) (q : Fin n) :
    (c.raft p).InRange q ∧ ∀ ps, (c.raft p).replicateOnceRound q ≠ .error ps := by
  have hinv : Elections tr c ∧ Reaches tr c ∧ ∀ p, (c.raft p).state = .leader →
      ∀ q, (c.raft p).nextIndex q ≤ (c.raft p).getLastLog.index + 1 := by
    refine h.invariant (fun tr c => Elections tr c ∧ Reaches tr c ∧
      ∀ p, (c.raft p).state = .leader →
        ∀ q, (c.raft p).nextIndex q ≤ (c.raft p).getLastLog.index + 1)
      ⟨elections_init, reaches_init, by simp [init]⟩ ?_
    rintro tr c a c' es hc ⟨he, hr, hn⟩ hok _ hm
    exact ⟨elections_electoral hc he (moves_electoral hm), reaches_moves hc he hr hm,
      next_le_moves hc hr hok hn hm⟩
  have hw := (sound_run h).wellFormed p
  have hr := (hw.inRange_iff q).mpr (hinv.2.2 p hs q)
  exact ⟨hr, hw.replicateOnceRound_ne_error hr⟩

theorem leader_indices_in_range_of_three :
    ((ran (natGob 3) NextIndexFits entryUnderWay).1.raft 0).InRange 1 := by
  have hrun : RunWhere (natGob 3) NextIndexFits (ran (natGob 3) NextIndexFits entryUnderWay).2
      (ran (natGob 3) NextIndexFits entryUnderWay).1 := reached_run (by decide +kernel)
  exact (leader_indices_in_range hrun 0 (by decide +kernel) 1).1

/-- Peer 0 leads three times. In term 1 it appends two entries; peer 2 leads term 2 and
appends one; in term 3 peer 0 brings its two entries to peer 1; in term 4 peer 2
replaces them in the log of peer 0 by its one; in term 5 peer 0 is elected again. -/
def staleLeader : List (Action 3 Nat) :=
  [ Action.timeout 0, [.deliver 0, .deliver 0, .start 0 (some 11), .start 0 (some 12), .lose 0],
    Action.timeout 2, [.lose 0, .lose 0],
    Action.timeout 2, [.deliver 0, .lose 0, .deliver 0, .deliver 0, .start 2 (some 21)],
    Action.timeout 0, [.deliver 0, .deliver 0, .deliver 0, .lose 0],
    [.replicate 0 1, .deliver 0, .deliver 0],
    Action.timeout 2, [.deliver 1, .deliver 1, .lose 0],
    [.replicate 2 0, .deliver 0, .lose 0],
    Action.timeout 0, [.deliver 0, .deliver 0, .lose 0] ].flatten

/-- The re-elected leader still has the next index 3 for peer 1, but its log ends at 1. -/
theorem leader_index_past_log :
    ∃ tr c, ClusterRun (natGob 3) tr c ∧ (c.raft 0).state = .leader ∧ ¬ (c.raft 0).InRange 1 ∧
      (c.raft 0).replicateOnceRound 1 = .error (c.raft 0).persister := by
  have hrun : ClusterRun (natGob 3) (ran (natGob 3) always staleLeader).2
      (ran (natGob 3) always staleLeader).1 := reached_run (by decide +kernel)
  have hs : ((ran (natGob 3) always staleLeader).1.raft 0).state = .leader := by decide +kernel
  have hr : ¬ ((ran (natGob 3) always staleLeader).1.raft 0).InRange 1 := by decide +kernel
  exact ⟨_, _, hrun, hs, hr, ((sound_run hrun).wellFormed 0).replicateOnceRound_eq_error hs hr⟩

end RaftImplementation
