import RaftImplementation.Raft.Indices
import RaftImplementation.Raft.Sections

/-!
# How a leadership ends

A leader gives up its role when a message of a higher term arrives. Its own ticker
could end a leadership too: `ChangeState` stops the election timer of a new leader,
but it neither drains a tick that is already in the channel nor recalls a ticker
that has received one and waits for `rf.mu`. A peer that becomes leader with
neither of the two pending keeps its role until a higher term arrives.
-/

namespace RaftImplementation

open Library Cluster Raft

variable {n : Nat} {C : Type}

/-- The `Term` field of a request or of a reply. -/
def RpcBody.term : RpcBody n C → Nat
  | .requestVote args => args.term
  | .requestVoteReply _ reply => reply.term
  | .appendEntries args => args.term
  | .appendEntriesReply _ reply => reply.term
  | .installSnapshot args => args.term
  | .installSnapshotReply _ reply => reply.term

/-- The peer that processes the message next: the callee of a request, the caller of
a reply. -/
def Rpc.receiver (m : Rpc n C) : Fin n :=
  match m.body with
  | .requestVote _ => m.callee
  | .requestVoteReply _ _ => m.caller
  | .appendEntries _ => m.callee
  | .appendEntriesReply _ _ => m.caller
  | .installSnapshot _ => m.callee
  | .installSnapshotReply _ _ => m.caller

/-- The action hands `p` a message whose term is higher than its own. -/
def HigherTerm (c : Cluster n C) (a : Action n C) (p : Fin n) : Prop :=
  ∃ k m, a = .deliver k ∧ c.rpcs[k]? = some m ∧ m.receiver = p ∧
    (c.raft p).currentTerm < m.body.term

/-- A peer that the step makes leader has no tick in the channel of its election
timer, and its ticker has not received one. -/
def NoTick (c : Cluster n C) (a : Action n C) : Prop :=
  ∀ p, c.winner a = some p →
    (c.raft p).electionTimer.ticked = false ∧ (c.raft p).ticking = false

instance (c : Cluster n C) (a : Action n C) : Decidable (NoTick c a) :=
  inferInstanceAs (Decidable (∀ p, c.winner a = some p →
    (c.raft p).electionTimer.ticked = false ∧ (c.raft p).ticking = false))

/-! ## What the sections of a leader do to its role and its timer -/

structure Undisturbed (rf rf' : Raft n C) : Prop where
  state : rf'.state = rf.state
  electionTimer : rf'.electionTimer = rf.electionTimer
  ticking : rf'.ticking = rf.ticking

theorem Undisturbed.refl (rf : Raft n C) : Undisturbed rf rf := ⟨rfl, rfl, rfl⟩

variable {gob : Gob n C} {c c' : Cluster n C} {a : Action n C} {tr es : List (Event n C)}

theorem start_undisturbed (rf : Raft n C) (command : Option C) :
    Undisturbed rf (rf.start gob command).1 := by
  rcases rf.start_eq gob command with ⟨-, h⟩ | ⟨-, ps, h, -⟩
  · rw [h]
    exact .refl rf
  · rw [h]
    exact ⟨rfl, rfl, rfl⟩

/-- A section that hears of term `t` leaves the role and the timer of a leader alone, or
makes it a follower and only for a higher term. -/
inductive Yields (t : Nat) (rf rf' : Raft n C) : Prop
  | kept (h : Undisturbed rf rf')
  | outrun (hs : rf'.state = .follower) (ht : rf.currentTerm < t)

/-- The vote of a leader is its own, so it refuses any other candidate of its term. -/
theorem requestVote_yields {rf : Raft n C} {args : RequestVoteArgs n} {v : Fin n}
    (hv : rf.votedFor = some v) (hne : v ≠ args.candidateId) :
    Yields args.term rf (rf.requestVote gob args).1 := by
  have hh := rf.requestVote_handled gob args
  generalize (rf.requestVote gob args).1 = rf' at hh ⊢
  generalize (rf.requestVote gob args).2 = reply at hh
  cases hh with
  | refused => exact .kept (.refl rf)
  | behind et ps ht => exact .outrun rfl ht
  | granted st et ps ht hst hst' hvote =>
    cases Nat.lt_or_eq_of_le ht with
    | inl hlt => exact .outrun (hst' hlt) hlt
    | inr heq =>
      have hsame := hvote heq
      simp [hv, hne] at hsame

theorem appendEntries_yields (hc : Sound gob c) {m : Rpc n C} (hm : m ∈ c.rpcs)
    {args : AppendEntriesArgs n C} (hb : m.body = .appendEntries args) {rf : Raft n C}
    {reply : AppendEntriesReply}
    (h : (c.raft m.callee).appendEntries gob args = .ok (rf, reply))
    (hne : (c.raft m.callee).currentTerm ≠ args.term) :
    Yields args.term (c.raft m.callee) rf := by
  cases appendEntries_inv gob (hc.wellFormed m.callee) (hc.mirrored m.callee)
    (hc.entries m hm args hb) h with
  | stale ht => exact .kept (.refl _)
  | refused v et ps reply ht => exact .outrun rfl (Nat.lt_of_le_of_ne ht hne)
  | accepted v et ps ht => exact .outrun rfl (Nat.lt_of_le_of_ne ht hne)

theorem installSnapshot_yields {rf : Raft n C} (hm : rf.Mirrored gob)
    {args : InstallSnapshotArgs n} (hne : rf.currentTerm ≠ args.term) :
    Yields args.term rf (rf.installSnapshot gob args).1 := by
  have hh := (installSnapshot_handled gob hm args).1
  generalize (rf.installSnapshot gob args).1 = rf' at hh ⊢
  cases hh with
  | stale ht => exact .kept (.refl _)
  | ignored v et ps ht => exact .outrun rfl (Nat.lt_of_le_of_ne ht hne)
  | queued v et ps ht => exact .outrun rfl (Nat.lt_of_le_of_ne ht hne)

theorem onRequestVoteReply_yields {rf : Raft n C} (hs : rf.state = .leader)
    (args : RequestVoteArgs n) (reply : RequestVoteReply) :
    Yields reply.term rf (rf.onRequestVoteReply gob args reply) := by
  have hh := rf.onRequestVoteReply_handled gob args reply
  generalize rf.onRequestVoteReply gob args reply = rf' at hh ⊢
  cases hh with
  | ignored => exact .kept (.refl rf)
  | counted ht hc => simp [hs] at hc
  | won et ht hc => simp [hs] at hc
  | behind et ps ht => exact .outrun rfl ht

theorem onAppendEntriesReply_yields {rf rf' : Raft n C} (hw : rf.WellFormed) {peer : Fin n}
    {args : AppendEntriesArgs n C} {reply : AppendEntriesReply}
    (h : rf.onAppendEntriesReply gob peer args reply = .ok rf') :
    Yields reply.term rf rf' := by
  cases onAppendEntriesReply_inv gob hw h with
  | ignored => exact .kept (.refl rf)
  | behind et ps ht => exact .outrun rfl ht
  | backedOff i => exact .kept ⟨rfl, rfl, rfl⟩
  | matched ci => exact .kept ⟨rfl, rfl, rfl⟩

theorem onInstallSnapshotReply_yields (rf : Raft n C) (peer : Fin n)
    (args : InstallSnapshotArgs n) (reply : InstallSnapshotReply) :
    Yields reply.term rf (rf.onInstallSnapshotReply gob peer args reply) := by
  have hh := rf.onInstallSnapshotReply_handled gob peer args reply
  generalize rf.onInstallSnapshotReply gob peer args reply = rf' at hh ⊢
  cases hh with
  | ignored => exact .kept (.refl rf)
  | behind et ps ht => exact .outrun rfl ht
  | recorded ht => exact .kept ⟨rfl, rfl, rfl⟩

theorem snapshot_undisturbed {rf rf' : Raft n C} (hw : rf.WellFormed) {index : Nat}
    {data : Option Bytes} (h : rf.snapshot gob index data = .ok rf') : Undisturbed rf rf' := by
  cases snapshot_inv gob hw h with
  | rejected => exact .refl rf
  | taken e ps => exact ⟨rfl, rfl, rfl⟩

theorem condInstallSnapshot_undisturbed {rf rf' : Raft n C} (hw : rf.WellFormed) {t i : Nat}
    {data : Option Bytes} {result : Bool}
    (h : rf.condInstallSnapshot gob t i data = .ok (rf', result)) : Undisturbed rf rf' := by
  cases condInstallSnapshot_inv gob hw h with
  | outdated => exact .refl rf
  | accepted ps => exact ⟨rfl, rfl, rfl⟩

/-! ## The invariant -/

/-- A leader's election timer is off, and no tick of it is left anywhere. -/
def Dormant (rf : Raft n C) : Prop :=
  rf.state = .leader →
    rf.electionTimer.running = false ∧ rf.electionTimer.ticked = false ∧ rf.ticking = false

theorem Undisturbed.dormant {rf rf' : Raft n C} (h : Undisturbed rf rf') (hd : Dormant rf) :
    Dormant rf' := by
  intro hs
  rw [h.electionTimer, h.ticking]
  exact hd (h.state ▸ hs)

structure Undisputed (tr : List (Event n C)) (c : Cluster n C) : Prop where
  elections : Elections tr c
  reaches : Reaches tr c
  foreign : ∀ m ∈ c.rpcs, m.callee ≠ m.caller

/-- The vote of a leader is its own. -/
theorem Elections.leader_votedFor (he : Elections tr c) {p : Fin n}
    (hs : (c.raft p).state = .leader) : (c.raft p).votedFor = some p := by
  have hled := he.leader p hs
  have hstood := (he.led p _ hled).1
  exact he.voted_for p p hstood.voted

/-- No other peer sends replication requests of a leader's term. -/
theorem Undisputed.term_ne (h : Undisputed tr c) {m : Rpc n C} (hm : m ∈ c.rpcs) {T i : Nat}
    (hreach : m.reach = some (T, i)) (hs : (c.raft m.callee).state = .leader) :
    (c.raft m.callee).currentTerm ≠ T := by
  rintro rfl
  have hcaller := h.reaches.led m hm _ i hreach
  have hcallee := h.elections.leader m.callee hs
  exact h.foreign m hm (h.elections.led_unique hcallee hcaller)

theorem yields_deliver {k : Nat} {m : Rpc n C} {q : Fin n} {rf : Raft n C}
    (hm : c.rpcs[k]? = some m) (hq : m.receiver = q) (h : Yields m.body.term (c.raft q) rf) :
    Undisturbed (c.raft q) rf ∨ (rf.state = .follower ∧ HigherTerm c (.deliver k) q) := by
  cases h with
  | kept h => exact .inl h
  | outrun hs ht => exact .inr ⟨hs, k, m, rfl, hm, hq, ht⟩

/-- Whatever runs on a leader leaves its role and its timer alone, or is a message of a
higher term. -/
theorem leader_ran (hc : Sound gob c) (hu : Undisputed tr c) {q : Fin n} {rf : Raft n C}
    (hs : (c.raft q).state = .leader) (hd : Dormant (c.raft q)) (h : Ran gob c q a rf) :
    Undisturbed (c.raft q) rf ∨ (rf.state = .follower ∧ HigherTerm c a q) := by
  obtain ⟨hrunning, hticked, hticking⟩ := hd hs
  cases h with
  | idle => exact .inl (.refl _)
  | fire h => simp [hrunning] at h
  | tick h => simp [hticked] at h
  | elect h => simp [hticking] at h
  | start command => exact .inl (start_undisturbed _ command)
  | requestVote k m args hm hb hq =>
    subst hq
    have hmem := List.mem_of_getElem? hm
    have hcand := (hu.elections.requests m hmem args hb).1
    apply yields_deliver hm (by rw [Rpc.receiver, hb])
    rw [hb]
    exact requestVote_yields (hu.elections.leader_votedFor hs) (hcand ▸ hu.foreign m hmem)
  | appendEntries k m args rf reply hm hb hq h =>
    subst hq
    have hmem := List.mem_of_getElem? hm
    have hne := hu.term_ne hmem (show m.reach = some (args.term, _) by rw [Rpc.reach, hb]) hs
    apply yields_deliver hm (by rw [Rpc.receiver, hb])
    rw [hb]
    exact appendEntries_yields hc hmem hb h hne
  | installSnapshot k m args hm hb hq =>
    subst hq
    have hmem := List.mem_of_getElem? hm
    have hne := hu.term_ne hmem (show m.reach = some (args.term, _) by rw [Rpc.reach, hb]) hs
    apply yields_deliver hm (by rw [Rpc.receiver, hb])
    rw [hb]
    exact installSnapshot_yields (hc.mirrored m.callee) hne
  | onRequestVoteReply k m args reply hm hb hq =>
    apply yields_deliver hm (by rw [Rpc.receiver, hb, hq])
    rw [hb]
    exact onRequestVoteReply_yields hs args reply
  | onAppendEntriesReply k m args reply rf hm hb hq h =>
    apply yields_deliver hm (by rw [Rpc.receiver, hb, hq])
    rw [hb]
    exact onAppendEntriesReply_yields (hc.wellFormed q) h
  | onInstallSnapshotReply k m args reply hm hb hq =>
    apply yields_deliver hm (by rw [Rpc.receiver, hb, hq])
    rw [hb]
    exact onInstallSnapshotReply_yields (c.raft q) m.callee args reply
  | snapshot index data rf h => exact .inl (snapshot_undisturbed (hc.wellFormed q) h)
  | condInstallSnapshot m rf result hrec h =>
    exact .inl (condInstallSnapshot_undisturbed (hc.wellFormed q) h)
  | applier ap i => exact .inl ⟨rfl, rfl, rfl⟩
  | sendSnapshot k => exact .inl ⟨rfl, rfl, rfl⟩

/-! ## The step that makes a leader -/

/-- `ChangeState(Leader)` stops the timer and does nothing else about a tick. -/
theorem onRequestVoteReply_stops {rf : Raft n C} {args : RequestVoteArgs n}
    {reply : RequestVoteReply} (hs : rf.state = .candidate)
    (hlead : (rf.onRequestVoteReply gob args reply).state = .leader) :
    (rf.onRequestVoteReply gob args reply).electionTimer = rf.electionTimer.stop ∧
      (rf.onRequestVoteReply gob args reply).ticking = rf.ticking := by
  have hwon : args.term = rf.currentTerm ∧ reply.voteGranted = true ∧
      n / 2 < rf.grantedVotes + 1 := by
    have hh := rf.onRequestVoteReply_handled gob args reply
    generalize rf.onRequestVoteReply gob args reply = rf' at hh hlead
    cases hh with
    | ignored => simp [hs] at hlead
    | counted => simp [hs] at hlead
    | won et ht hc hg hmany => exact ⟨ht, hg, hmany⟩
    | behind et ps => simp at hlead
  obtain ⟨ht, hg, hmany⟩ := hwon
  simp [onRequestVoteReply, changeState, ht, hs, hg, hmany]

theorem winner_deliver {p : Fin n} (h : c.winner a = some p) :
    ∃ k m args reply, a = .deliver k ∧ c.rpcs[k]? = some m ∧
      m.body = .requestVoteReply args reply := by
  unfold Cluster.winner at h
  split at h
  · rename_i k
    split at h
    · rename_i m hm
      split at h
      · rename_i args reply hb
        exact ⟨k, m, args, reply, rfl, hm, hb⟩
      · simp at h
    · simp at h
  · simp at h

theorem elected_ran {q : Fin n} {rf : Raft n C} (hw : c.winner a = some q)
    (hs : (c.raft q).state = .candidate) (hlead : rf.state = .leader) (h : Ran gob c q a rf) :
    rf.electionTimer = (c.raft q).electionTimer.stop ∧ rf.ticking = (c.raft q).ticking := by
  obtain ⟨k, m, args, reply, rfl, hm, hb⟩ := winner_deliver hw
  cases h with
  | idle => simp [hs] at hlead
  | applier ap i => simp [hs] at hlead
  | onRequestVoteReply k m args reply => exact onRequestVoteReply_stops hs hlead
  | requestVote k m' args hm' hb' =>
    cases hm.symm.trans hm'
    simp [hb] at hb'
  | appendEntries k m' args rf reply hm' hb' =>
    cases hm.symm.trans hm'
    simp [hb] at hb'
  | installSnapshot k m' args hm' hb' =>
    cases hm.symm.trans hm'
    simp [hb] at hb'
  | onAppendEntriesReply k m' args reply rf hm' hb' =>
    cases hm.symm.trans hm'
    simp [hb] at hb'
  | onInstallSnapshotReply k m' args reply hm' hb' =>
    cases hm.symm.trans hm'
    simp [hb] at hb'

/-! ## Runs -/

theorem foreign_moves (hf : ∀ m ∈ c.rpcs, m.callee ≠ m.caller) (h : Moves gob c a c' es) :
    ∀ m ∈ c'.rpcs, m.callee ≠ m.caller := by
  intro m hm
  cases moves_origin h hm with
  | old h => exact hf m h
  | vote hne => exact hne
  | asked args hb ha hne => exact hne
  | voted m₀ args reply hm₀ hb hm => exact hm ▸ hf m₀ hm₀
  | appended m₀ args reply hm₀ hb hm => exact hm ▸ hf m₀ hm₀
  | snapshotted m₀ args hm₀ hb hm => exact hm ▸ hf m₀ hm₀

theorem undisputed_run {ok : Cluster n C → Action n C → Prop} (h : RunWhere gob ok tr c) :
    Undisputed tr c := by
  apply h.invariant Undisputed
  · exact ⟨elections_init, reaches_init, by simp [init]⟩
  · intro tr c a c' es hc hu _ _ hm
    exact ⟨elections_electoral hc hu.elections (moves_electoral hm),
      reaches_moves hc hu.elections hu.reaches hm, foreign_moves hu.foreign hm⟩

theorem dormant_step (hc : Sound gob c) (hu : Undisputed tr c) (hok : NoTick c a)
    (hd : ∀ p, Dormant (c.raft p)) (hstep : c.step gob a = some (c', es)) (p : Fin n) :
    Dormant (c'.raft p) := by
  intro hlead
  cases step_ran hc hstep p with
  | inr hboot =>
    rw [make_eq_fresh gob (hc.mirrored p), Option.some.injEq] at hboot
    simp [← hboot.2] at hlead
  | inl hran =>
    cases moves_leads hc (step_moves hc hstep) p with
    | inl hkept =>
      have hs := (hkept hlead).1
      cases leader_ran hc hu hs (hd p) hran.2 with
      | inl hsame => exact hsame.dormant (hd p) hlead
      | inr hgone => simp [hgone.1] at hlead
    | inr hel =>
      obtain ⟨htimer, hticking⟩ := elected_ran hel.winner hel.candidate hlead hran.2
      obtain ⟨hno, hno'⟩ := hok p hel.winner
      rw [htimer, hticking]
      exact ⟨rfl, hno, hno'⟩

theorem dormant_run (h : RunWhere gob NoTick tr c) (p : Fin n) : Dormant (c.raft p) := by
  induction h generalizing p with
  | refl =>
    intro hs
    simp [init] at hs
  | snoc h hok hstep ih => exact dormant_step (sound_run h) (undisputed_run h) hok ih hstep p

/-- In a run whose leaders all began without a pending tick, a live leader loses its
role only to a message of a higher term. -/
theorem leader_yields_to_higher_term (h : RunWhere gob NoTick tr c)
    (hstep : c.step gob a = some (c', es)) (p : Fin n) (hs : (c.raft p).state = .leader)
    (hs' : (c'.raft p).state ≠ .leader) (hlive : (c'.nodes p).boot = (c.nodes p).boot) :
    HigherTerm c a p := by
  cases step_ran (sound_run h) hstep p with
  | inl hran =>
    cases leader_ran (sound_run h) (undisputed_run h) hs (dormant_run h p) hran.2 with
    | inl hsame => exact absurd (hsame.state.trans hs) hs'
    | inr hgone => exact hgone.2
  | inr hboot =>
    have hnext := hboot.1
    omega

/-- Peer 0 wins term 1, and peer 1 stands in term 2. -/
def challenged : List (Action 3 Nat) :=
  Action.timeout 0 ++ [.deliver 0, .deliver 0] ++ Action.timeout 1

theorem leader_yields_to_higher_term_of_three :
    ((ran (natGob 3) NoTick challenged).1.raft 0).state = .leader ∧
      HigherTerm (ran (natGob 3) NoTick challenged).1 (.deliver 1) 0 := by
  have hrun : RunWhere (natGob 3) NoTick (ran (natGob 3) NoTick challenged).2
      (ran (natGob 3) NoTick challenged).1 := reached_run (by decide +kernel)
  have hstep : (ran (natGob 3) NoTick challenged).1.step (natGob 3) (.deliver 1) =
      some ((ran (natGob 3) NoTick (challenged ++ [.deliver 1])).1, [.grant 0 2 1 0 0]) := by rfl
  exact ⟨by decide +kernel, leader_yields_to_higher_term hrun hstep 0 (by decide +kernel)
    (by decide +kernel) (by decide +kernel)⟩

/-- The timer of candidate 0 fires again and its ticker waits for the lock; meanwhile
the vote of peer 1 makes it leader. -/
def tickBeforeVictory : List (Action 3 Nat) :=
  Action.timeout 0 ++ [.deliver 0, .fire 0, .tick 0, .deliver 0]

theorem leader_deposes_itself :
    ClusterRun (natGob 3) (ran (natGob 3) always tickBeforeVictory).2
        (ran (natGob 3) always tickBeforeVictory).1 ∧
      (ran (natGob 3) always tickBeforeVictory).1.step (natGob 3) (.elect 0) =
        some ((ran (natGob 3) always (tickBeforeVictory ++ [.elect 0])).1, [.stand 0 2 0 0]) ∧
      ((ran (natGob 3) always tickBeforeVictory).1.raft 0).state = .leader ∧
      ((ran (natGob 3) always (tickBeforeVictory ++ [.elect 0])).1.raft 0).state =
        .candidate ∧
      ((ran (natGob 3) always (tickBeforeVictory ++ [.elect 0])).1.nodes 0).boot = 0 ∧
      ¬ HigherTerm (ran (natGob 3) always tickBeforeVictory).1 (.elect 0) 0 := by
  refine ⟨reached_run (by decide +kernel), by rfl, by decide +kernel, by decide +kernel,
    by decide +kernel, ?_⟩
  rintro ⟨k, m, ha, -⟩
  cases ha

end RaftImplementation
