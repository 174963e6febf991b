import Mathlib.Data.Fintype.EquivFin
import Mathlib.Data.Fintype.Lattice
import Mathlib.Data.Prod.Lex
import RaftImplementation.Raft.StepDown

/-!
# A leader can always be elected

No state of a cluster is a dead end. A peer that does not lead has its election timer
running, or a tick of it is on its way to an election. So the peer with the most up to date
log can stand until its term is above all others, and then every vote it asks for is
granted. The votes are counted where the replies arrive, and a peer does not call itself:
in a cluster of one the only vote is never counted, and there is no leader.
-/

namespace RaftImplementation

open Library Cluster Raft

variable {n : Nat} {C : Type} {gob : Gob n C} {rf rf' : Raft n C}

/-! ## Election timers -/

/-- The peer leads, or its election timer runs, or a tick of it is in the channel or has
been received by the ticker. -/
def Armed (rf : Raft n C) : Prop :=
  rf.state = .leader ∨ rf.electionTimer.running = true ∨ rf.electionTimer.ticked = true ∨
    rf.ticking = true

namespace Armed

theorem of_running (h : rf.electionTimer.running = true) : Armed rf := .inr (.inl h)

theorem undisturbed (h : Armed rf) (hu : Undisturbed rf rf') : Armed rf' := by
  unfold Armed
  rw [hu.state, hu.electionTimer, hu.ticking]
  exact h

/-- Who becomes a follower resets its timer; who is one already has it armed. -/
theorem changeState_follower (h : Armed rf) : Armed (rf.changeState .follower) := by
  unfold changeState
  split
  · exact h
  · exact of_running rfl

theorem behind (h : Armed rf) (t : Nat) : Armed ((rf.changeState .follower).adoptTerm gob t) :=
  h.changeState_follower.undisturbed ⟨rfl, rfl, rfl⟩

theorem requestVote (h : Armed rf) (args : RequestVoteArgs n) :
    Armed (rf.requestVote gob args).1 := by
  have hterm : Armed
      (if args.term > rf.currentTerm then (rf.changeState .follower).adoptTerm gob args.term
        else rf) := by
    split
    · exact h.behind args.term
    · exact h
  unfold Raft.requestVote
  split
  · exact h
  · generalize (if args.term > rf.currentTerm then
      (rf.changeState .follower).adoptTerm gob args.term else rf) = rf₁ at hterm ⊢
    dsimp only
    split
    · exact of_running rfl
    · exact hterm

theorem onRequestVoteReply (h : Armed rf) (args : RequestVoteArgs n) (reply : RequestVoteReply) :
    Armed (rf.onRequestVoteReply gob args reply) := by
  unfold Raft.onRequestVoteReply
  split
  · split
    · dsimp only
      split
      · -- the winner leads
        left
        unfold changeState
        split
        · assumption
        · rfl
      · exact h.undisturbed ⟨rfl, rfl, rfl⟩
    · split
      · exact h.behind reply.term
      · exact h
  · exact h

theorem spliceEntries_timer {entries : List (LogEntry C)}
    (h : rf.spliceEntries gob entries = .ok rf') : rf'.electionTimer = rf.electionTimer := by
  induction entries with
  | nil =>
    cases h
    rfl
  | cons e es ih =>
    rw [Raft.spliceEntries] at h
    split at h
    · cases h
    · dsimp only at h
      split at h
      · split at h
        · exact ih h
        · cases h
          rfl
      · split at h
        · cases h
          rfl
        · cases h

/-- A request that is not stale resets the timer, whatever becomes of it. -/
theorem appendEntries (h : Armed rf) {args : AppendEntriesArgs n C} {reply : AppendEntriesReply}
    (heq : rf.appendEntries gob args = .ok (rf', reply)) : Armed rf' := by
  unfold Raft.appendEntries at heq
  split at heq
  · cases heq
    exact h
  · dsimp only at heq
    generalize hrf : ((if args.term > rf.currentTerm then rf.adoptTerm gob args.term
      else rf).changeState .follower).resetElectionTimer = rf₁ at heq
    have hrun : rf₁.electionTimer.running = true := by
      rw [← hrf]
      rfl
    split at heq
    · cases heq
      exact of_running hrun
    · simp only [bind, Except.bind] at heq
      split at heq
      · cases heq
      · split at heq
        · split at heq
          · cases heq
          · rename_i rf₂ hs
            cases heq
            rw [followLeaderCommit_eq]
            exact of_running (by rw [spliceEntries_timer hs, hrun])
        · split at heq
          · cases heq
          · cases heq
            exact of_running hrun

theorem installSnapshot (h : Armed rf) (args : InstallSnapshotArgs n) :
    Armed (rf.installSnapshot gob args).1 := by
  unfold Raft.installSnapshot
  dsimp only
  split
  · exact h
  · generalize hrf : ((if args.term > rf.currentTerm then rf.adoptTerm gob args.term
      else rf).changeState .follower).resetElectionTimer = rf₁
    have hrun : rf₁.electionTimer.running = true := by
      rw [← hrf]
      rfl
    split
    · exact of_running hrun
    · exact of_running hrun

theorem onAppendEntriesReply (h : Armed rf) (hw : rf.WellFormed) {peer : Fin n}
    {args : AppendEntriesArgs n C} {reply : AppendEntriesReply}
    (heq : rf.onAppendEntriesReply gob peer args reply = .ok rf') : Armed rf' := by
  unfold Raft.onAppendEntriesReply at heq
  split at heq
  · split at heq
    · have hw' : (rf.matched peer (args.prevLogIndex + args.entries.length)).WellFormed :=
        hw.of_logs rfl
      rcases advanceCommitIndexForLeader_eq _ hw' with ⟨ci, hadv, -⟩ | herr
      · cases hadv.symm.trans heq
        exact h.undisturbed ⟨rfl, rfl, rfl⟩
      · cases herr.symm.trans heq
    · split at heq
      · cases heq
        exact h.behind reply.term
      · split at heq
        · rcases rf.backOff_handled peer args reply with ⟨i, hback, -⟩ | herr
          · cases hback.symm.trans heq
            exact h.undisturbed ⟨rfl, rfl, rfl⟩
          · cases herr.symm.trans heq
        · cases heq
          exact h
  · cases heq
    exact h

theorem onInstallSnapshotReply (h : Armed rf) (peer : Fin n) (args : InstallSnapshotArgs n)
    (reply : InstallSnapshotReply) : Armed (rf.onInstallSnapshotReply gob peer args reply) := by
  unfold Raft.onInstallSnapshotReply
  split
  · split
    · exact h.behind reply.term
    · exact h.undisturbed ⟨rfl, rfl, rfl⟩
  · exact h

end Armed

variable {c c' : Cluster n C} {a : Action n C} {tr es : List (Event n C)} {p : Fin n}

theorem armed_ran (hc : Sound gob c) {q : Fin n} (h : Armed (c.raft q))
    (hran : Ran gob c q a rf) : Armed rf := by
  cases hran with
  | idle => exact h
  | fire hrun => exact .inr (.inr (.inl rfl))
  | tick hticked => exact .inr (.inr (.inr rfl))
  | elect hticking => exact .of_running rfl
  | start command => exact h.undisturbed (start_undisturbed _ command)
  | requestVote k m args hm hb hq => exact h.requestVote args
  | appendEntries k m args rf reply hm hb hq heq => exact h.appendEntries heq
  | installSnapshot k m args hm hb hq => exact h.installSnapshot args
  | onRequestVoteReply k m args reply hm hb hq => exact h.onRequestVoteReply args reply
  | onAppendEntriesReply k m args reply rf hm hb hq heq =>
    exact h.onAppendEntriesReply (hc.wellFormed q) heq
  | onInstallSnapshotReply k m args reply hm hb hq =>
    exact h.onInstallSnapshotReply m.callee args reply
  | snapshot index data rf heq => exact h.undisturbed (snapshot_undisturbed (hc.wellFormed q) heq)
  | condInstallSnapshot m rf result hrec heq =>
    exact h.undisturbed (condInstallSnapshot_undisturbed (hc.wellFormed q) heq)
  | applier ap i => exact h.undisturbed ⟨rfl, rfl, rfl⟩
  | sendSnapshot k => exact h.undisturbed ⟨rfl, rfl, rfl⟩

theorem armed_run {ok : Cluster n C → Action n C → Prop} (h : RunWhere gob ok tr c) (p : Fin n) :
    Armed (c.raft p) := by
  induction h generalizing p with
  | refl => exact .of_running rfl
  | snoc hrun hok hstep ih =>
    have hc := sound_run hrun
    rcases step_ran hc hstep p with ⟨-, hran⟩ | ⟨-, hmake⟩
    · exact armed_ran hc (ih p) hran
    · obtain ⟨t, v, l, -, heq⟩ := make_inv gob hmake
      rw [heq]
      exact .of_running rfl

/-- In every run, a peer that does not lead will stand for election unless it hears from
another peer: its election timer is running, or its tick is on the way to an election. -/
theorem election_timer_armed (h : ClusterRun gob tr c) (p : Fin n)
    (hs : (c.raft p).state ≠ .leader) :
    (c.raft p).electionTimer.running = true ∨ (c.raft p).electionTimer.ticked = true ∨
      (c.raft p).ticking = true :=
  (armed_run h p).resolve_left hs

/-- Peer 0 leads three peers and hears of a higher term. -/
theorem election_timer_armed_of_three :
    ((ran (natGob 3) always (challenged ++ [.deliver 1])).1.raft 0).state ≠ .leader ∧
      (((ran (natGob 3) always (challenged ++ [.deliver 1])).1.raft 0).electionTimer.running =
          true ∨
        ((ran (natGob 3) always (challenged ++ [.deliver 1])).1.raft 0).electionTimer.ticked =
          true ∨
        ((ran (natGob 3) always (challenged ++ [.deliver 1])).1.raft 0).ticking = true) := by
  have hrun : ClusterRun (natGob 3) (ran (natGob 3) always (challenged ++ [.deliver 1])).2
      (ran (natGob 3) always (challenged ++ [.deliver 1])).1 := reached_run (by decide +kernel)
  have hs : ((ran (natGob 3) always (challenged ++ [.deliver 1])).1.raft 0).state ≠ .leader := by
    decide +kernel
  exact ⟨hs, election_timer_armed hrun 0 hs⟩

/-! ## Standing -/

/-- The step is a timer event, an election, or the delivery of an RPC or of its reply. -/
def ByTimersAndCalls (_ : Cluster n C) : Action n C → Prop
  | .fire _ | .tick _ | .elect _ | .deliver _ => True
  | _ => False

/-- The ticker of an armed peer can get to an election. -/
theorem ticks (gob : Gob n C) (h : Armed (c.raft p)) (hs : (c.raft p).state ≠ .leader) :
    ∃ tr et, Run (Cluster.step gob) ByTimersAndCalls c tr
      (c.setRaft p ((c.raft p).timed et true)) := by
  by_cases hticking : (c.raft p).ticking = true
  · refine ⟨[], (c.raft p).electionTimer, ?_⟩
    rw [show (c.raft p).timed (c.raft p).electionTimer true = c.raft p by
      rw [← hticking]; rfl, setRaft_self]
    exact .refl
  -- from a tick in the channel it is one step
  have htick : ∀ c' : Cluster n C, (c'.raft p).electionTimer.ticked = true →
      (c'.raft p).ticking ≠ true → ∃ et, Run (Cluster.step gob) ByTimersAndCalls c' []
        (c'.setRaft p ((c'.raft p).timed et true)) := by
    intro c' hticked hno
    exact ⟨_, Run.single (a := Action.tick p) trivial (if_pos ⟨hticked, hno⟩)⟩
  rcases (h.resolve_left hs) with hrun | hticked | htk
  · have hfire : Run (Cluster.step gob) ByTimersAndCalls c []
        (c.setRaft p ((c.raft p).timed ⟨false, true⟩ (c.raft p).ticking)) :=
      Run.single (a := Action.fire p) trivial (if_pos hrun)
    obtain ⟨et, ht⟩ := htick (c.setRaft p ((c.raft p).timed ⟨false, true⟩ (c.raft p).ticking))
      (by rw [setRaft_raft_self]; rfl) (by rw [setRaft_raft_self]; exact hticking)
    rw [setRaft_raft_self, setRaft_setRaft] at ht
    exact ⟨_, et, hfire.trans ht⟩
  · obtain ⟨et, ht⟩ := htick c hticked hticking
    exact ⟨_, et, ht⟩
  · exact absurd htk hticking

/-- The request of a candidate. -/
def Raft.candidacy (rf : Raft n C) : RequestVoteArgs n :=
  ⟨rf.currentTerm + 1, rf.me, rf.getLastLog.index, rf.getLastLog.term⟩

/-- The election resets the timer. -/
theorem elects (gob : Gob n C) (h : (c.raft p).ticking = true) :
    ∃ et ps es, et.running = true ∧ c.step gob (.elect p) = some
      ((c.setRpcs (c.rpcs ++ c.broadcast p (.requestVote (c.raft p).candidacy))).setRaft p
        ((c.raft p).standing et ps), es) := by
  obtain ⟨et, ps, heq, -⟩ := (c.raft p).electionTimeout_eq gob
  have hreset : ((c.raft p).electionTimeout gob).1.electionTimer.running = true := rfl
  rw [heq] at hreset
  refine ⟨et, ps, [.stand p (c.raft p).candidacy.term (c.raft p).candidacy.lastLogTerm
    (c.raft p).candidacy.lastLogIndex], hreset, ?_⟩
  rw [Cluster.step, Cluster.elect]
  dsimp only
  rw [if_pos h, heq]
  rfl

/-- An armed peer can stand in the next term, and its timer then runs again. -/
theorem stands (gob : Gob n C) (h : Armed (c.raft p)) (hs : (c.raft p).state ≠ .leader) :
    ∃ tr et ps, et.running = true ∧ Run (Cluster.step gob) ByTimersAndCalls c tr
      ((c.setRpcs (c.rpcs ++ c.broadcast p (.requestVote (c.raft p).candidacy))).setRaft p
        ((c.raft p).standing et ps)) := by
  obtain ⟨tr, et, hrun⟩ := ticks gob h hs
  obtain ⟨et', ps, es, het, hstep⟩ :=
    elects gob (c := c.setRaft p ((c.raft p).timed et true)) (p := p)
      (by rw [setRaft_raft_self]; rfl)
  have hsame : (c.setRaft p ((c.raft p).timed et true)).broadcast p
      (.requestVote (c.raft p).candidacy) = c.broadcast p (.requestVote (c.raft p).candidacy) := by
    simp [broadcast, setRaft]
  rw [setRaft_raft_self, show ((c.raft p).timed et true).candidacy = (c.raft p).candidacy from rfl,
    hsame] at hstep
  have hset : ∀ rpcs rf, ((c.setRaft p ((c.raft p).timed et true)).setRpcs rpcs).setRaft p rf =
      (c.setRpcs rpcs).setRaft p rf := fun rpcs rf => setRaft_setRaft (c.setRpcs rpcs) p _ rf
  rw [hset] at hstep
  exact ⟨_, et', ps, het, hrun.snoc (a := Action.elect p) trivial hstep⟩

/-- An armed peer can stand until its term is above any bound; the others do not notice. -/
theorem stands_above (gob : Gob n C) (T : Nat) (h : Armed (c.raft p))
    (hs : (c.raft p).state ≠ .leader) :
    ∃ tr c', Run (Cluster.step gob) ByTimersAndCalls c tr c' ∧ Armed (c'.raft p) ∧
      (c'.raft p).state ≠ .leader ∧ T ≤ (c'.raft p).currentTerm ∧
      (c'.raft p).logs = (c.raft p).logs ∧ ∀ q, q ≠ p → c'.raft q = c.raft q := by
  induction T with
  | zero => exact ⟨[], c, .refl, h, hs, Nat.zero_le _, rfl, fun _ _ => rfl⟩
  | succ T ih =>
    obtain ⟨tr, c₁, hrun, harmed, hstate, hterm, hlogs, hothers⟩ := ih
    obtain ⟨tr', et, ps, het, hstand⟩ := stands gob harmed hstate
    refine ⟨_, _, hrun.trans hstand, ?_, ?_, ?_, ?_, ?_⟩
    · rw [setRaft_raft_self]
      exact .of_running het
    · rw [setRaft_raft_self]
      simp
    · rw [setRaft_raft_self]
      exact Nat.succ_le_succ hterm
    · rw [setRaft_raft_self]
      exact hlogs
    · intro q hq
      rw [setRaft_raft_ne _ p _ hq]
      exact hothers q hq

/-! ## The vote -/

/-- A peer of a lower term grants its vote to whoever is up to date. -/
theorem requestVote_grants (gob : Gob n C) {args : RequestVoteArgs n}
    (ht : rf.currentTerm < args.term)
    (hup : rf.isLogUpToDate args.lastLogIndex args.lastLogTerm = true) :
    (rf.requestVote gob args).2.voteGranted = true := by
  obtain ⟨et, ps, hb, -⟩ := rf.follower_adoptTerm gob args.term
  have hup' : (rf.behind args.term et ps).isLogUpToDate args.lastLogIndex args.lastLogTerm = true :=
    hup
  unfold requestVote
  rw [if_neg (by omega)]
  simp only [gt_iff_lt, ht, if_true, hb, hup']

/-- A vote that arrives in time is counted, and decides the election or does not. -/
theorem onRequestVoteReply_counts (gob : Gob n C) {args : RequestVoteArgs n}
    {reply : RequestVoteReply} (ht : args.term = rf.currentTerm) (hs : rf.state = .candidate)
    (hg : reply.voteGranted = true) :
    (rf.onRequestVoteReply gob args reply).state = .leader ∨
      rf.onRequestVoteReply gob args reply = rf.counting ∧ rf.grantedVotes + 1 ≤ n / 2 := by
  have hh := rf.onRequestVoteReply_handled gob args reply
  generalize rf.onRequestVoteReply gob args reply = rf' at hh ⊢
  cases hh with
  | ignored h => simp [ht, hs, hg] at h
  | counted _ _ _ hfew => exact .inr ⟨rfl, hfew⟩
  | won et _ _ _ _ => exact .inl rfl
  | behind et ps _ hno => simp [hg] at hno

/-- The request of candidate `p` to `q`. -/
def pollOf (c : Cluster n C) (p : Fin n) (args : RequestVoteArgs n) (q : Fin n) : Rpc n C :=
  ⟨p, (c.nodes p).boot, q, .requestVote args⟩

/-- The request to one peer is handled, and its reply then reaches the candidate. -/
theorem polled (gob : Gob n C) {args : RequestVoteArgs n} {q : Fin n} {old rest : List (Rpc n C)}
    (hrpcs : c.rpcs = old ++ pollOf c p args q :: rest) (hq : q ≠ p) :
    ∃ tr, Run (Cluster.step gob) ByTimersAndCalls c tr
      (((c.setRpcs (old ++ rest)).setRaft q ((c.raft q).requestVote gob args).1).setRaft p
        ((c.raft p).onRequestVoteReply gob args ((c.raft q).requestVote gob args).2)) := by
  generalize hv : (c.raft q).requestVote gob args = vote
  obtain ⟨rf', reply⟩ := vote
  have hm : c.rpcs[old.length]? = some (pollOf c p args q) := by
    rw [hrpcs]
    simp
  -- the callee answers in place
  have hasked : ∃ es, c.step gob (.deliver old.length) = some ((c.setRpcs
      (old ++ (pollOf c p args q).answered (.requestVoteReply args reply) :: rest)).setRaft q rf',
      es) := by
    rw [Cluster.step, hm]
    dsimp only [Cluster.deliver, pollOf]
    rw [hv, hrpcs, List.set_append_right _ _ le_rfl, Nat.sub_self]
    exact ⟨_, rfl⟩
  obtain ⟨es, hasked⟩ := hasked
  generalize hc₁ : (c.setRpcs
      (old ++ (pollOf c p args q).answered (.requestVoteReply args reply) :: rest)).setRaft q rf' =
      c₁ at hasked
  have hm₁ : c₁.rpcs[old.length]? =
      some ((pollOf c p args q).answered (.requestVoteReply args reply)) := by
    rw [← hc₁]
    simp
  have hp : c₁.nodes p = c.nodes p := by
    rw [← hc₁]
    simp [setRaft, hq.symm]
  -- and the caller, which has not been restarted, processes the answer
  have hcounted : ∃ es', c₁.step gob (.deliver old.length) = some
      ((c₁.setRpcs (old ++ rest)).setRaft p ((c.raft p).onRequestVoteReply gob args reply),
      es') := by
    have herase : c₁.rpcs.eraseIdx old.length = old ++ rest := by
      rw [← hc₁, setRaft_rpcs, setRpcs_rpcs, List.eraseIdx_append_of_length_le le_rfl, Nat.sub_self]
      rfl
    rw [Cluster.step, hm₁]
    dsimp only [Cluster.deliver, Rpc.answered, pollOf]
    rw [hp, herase, if_pos (decide_eq_true rfl), show c.raft p = c₁.raft p by rw [raft, raft, hp]]
    exact ⟨_, rfl⟩
  obtain ⟨es', hcounted⟩ := hcounted
  rw [← hc₁] at hasked hcounted
  exact ⟨_, (Run.single (a := Action.deliver old.length) trivial hasked).snoc
    (a := Action.deliver old.length) trivial hcounted⟩

/-- A candidate that has asked enough peers, all behind it, can become leader. -/
theorem canvass (gob : Gob n C) {args : RequestVoteArgs n} {old : List (Rpc n C)}
    (qs : List (Fin n)) (hrpcs : c.rpcs = old ++ qs.map (pollOf c p args))
    (hnodup : (p :: qs).Nodup)
    (hs : (c.raft p).state = .candidate) (ht : args.term = (c.raft p).currentTerm)
    (hfew : (c.raft p).grantedVotes ≤ n / 2)
    (hmany : n / 2 < (c.raft p).grantedVotes + qs.length)
    (hqs : ∀ q ∈ qs, (c.raft q).currentTerm < args.term ∧
      (c.raft q).isLogUpToDate args.lastLogIndex args.lastLogTerm = true) :
    ∃ tr c', Run (Cluster.step gob) ByTimersAndCalls c tr c' ∧ (c'.raft p).state = .leader := by
  induction qs generalizing c with
  | nil =>
    rw [List.length_nil] at hmany
    omega
  | cons q qs ih =>
    obtain ⟨hpq, hnodup'⟩ := List.nodup_cons.mp hnodup
    have hq : q ≠ p := by
      rintro rfl
      exact hpq List.mem_cons_self
    obtain ⟨tr, hrun⟩ := polled gob hrpcs hq
    obtain ⟨hlow, hup⟩ := hqs q List.mem_cons_self
    have hgrant := requestVote_grants gob hlow hup
    rcases onRequestVoteReply_counts gob ht hs hgrant with hlead | ⟨hcount, hfew'⟩
    · refine ⟨tr, _, hrun, ?_⟩
      rw [setRaft_raft_self]
      exact hlead
    · rw [hcount] at hrun
      generalize hc' : ((c.setRpcs (old ++ qs.map (pollOf c p args))).setRaft q
        ((c.raft q).requestVote gob args).1).setRaft p (c.raft p).counting = c' at hrun
      have hp : c'.raft p = (c.raft p).counting := by rw [← hc', setRaft_raft_self]
      have hboot : pollOf c' p args = pollOf c p args := by
        funext r
        rw [← hc']
        simp [pollOf, setRaft, hq.symm]
      -- the peers that are still to answer are as they were
      have hkept : ∀ r ∈ qs, c'.raft r = c.raft r := by
        intro r hr
        have hrp : r ≠ p := by
          rintro rfl
          exact hpq (List.mem_cons_of_mem _ hr)
        have hrq : r ≠ q := by
          rintro rfl
          exact (List.nodup_cons.mp hnodup').1 hr
        rw [← hc', setRaft_raft_ne _ p _ hrp, setRaft_raft_ne _ q _ hrq, setRpcs_raft]
      have hrest : ∃ tr' c'', Run (Cluster.step gob) ByTimersAndCalls c' tr' c'' ∧
          (c''.raft p).state = .leader := by
        refine ih ?_ ?_ (hp ▸ hs) (hp ▸ ht) (hp ▸ hfew') ?_ ?_
        · rw [hboot, ← hc']
          rfl
        · exact List.nodup_cons.mpr ⟨fun hmem => hpq (List.mem_cons_of_mem _ hmem),
            (List.nodup_cons.mp hnodup').2⟩
        · rw [hp, counting_grantedVotes]
          rw [List.length_cons] at hmany
          omega
        · intro r hr
          rw [hkept r hr]
          exact hqs r (List.mem_cons_of_mem _ hr)
      obtain ⟨tr', c'', hrun', hlead⟩ := hrest
      exact ⟨_, c'', hrun.trans hrun', hlead⟩

/-! ## Whether there can be a leader -/

/-- Some log is at least as up to date as all the others. -/
theorem exists_mostUpToDate (c : Cluster n C) (hn : 0 < n) :
    ∃ p, ∀ q, (c.raft q).isLogUpToDate (c.raft p).getLastLog.index (c.raft p).getLastLog.term =
      true := by
  have : Nonempty (Fin n) := ⟨⟨0, hn⟩⟩
  obtain ⟨p, hp⟩ := Finite.exists_max
    fun q => toLex ((c.raft q).getLastLog.term, (c.raft q).getLastLog.index)
  refine ⟨p, fun q => ?_⟩
  have hle := Prod.Lex.toLex_le_toLex.mp (hp q)
  unfold isLogUpToDate
  simp only [Bool.or_eq_true, decide_eq_true_eq, Bool.and_eq_true]
  dsimp only at hle
  omega

theorem length_others (p : Fin n) : ((List.finRange n).filter (· ≠ p)).length + 1 = n := by
  have herase : (List.finRange n).erase p = (List.finRange n).filter (· ≠ p) := by
    rw [(List.nodup_finRange n).erase_eq_filter]
    refine List.filter_congr fun q _ => ?_
    by_cases h : q = p
    · simp [h]
    · simp [h]
  rw [← herase, List.length_erase_of_mem (List.mem_finRange p), List.length_finRange]
  have := p.pos
  omega

/-- With two peers or more, some peer can be elected. -/
theorem leader_reachable (hn : 2 ≤ n) (harmed : ∀ p, Armed (c.raft p)) :
    ∃ tr c' p, Run (Cluster.step gob) ByTimersAndCalls c tr c' ∧ (c'.raft p).state = .leader := by
  by_cases hlead : ∃ p, (c.raft p).state = .leader
  · obtain ⟨p, hp⟩ := hlead
    exact ⟨[], c, p, .refl, hp⟩
  obtain ⟨p, hp⟩ := exists_mostUpToDate c (by omega)
  obtain ⟨T, hT⟩ : ∃ T, ∀ q, (c.raft q).currentTerm ≤ T :=
    ⟨Finset.univ.sup fun q => (c.raft q).currentTerm, fun q =>
      Finset.le_sup (f := fun q => (c.raft q).currentTerm) (Finset.mem_univ q)⟩
  obtain ⟨tr, c₁, hrun, harmed₁, hs₁, hterm, hlogs, hothers⟩ :=
    stands_above gob T (harmed p) fun h => hlead ⟨p, h⟩
  obtain ⟨tr', et, ps, -, hstand⟩ := stands gob harmed₁ hs₁
  generalize hc₂ : (c₁.setRpcs (c₁.rpcs ++ c₁.broadcast p (.requestVote
    (c₁.raft p).candidacy))).setRaft p ((c₁.raft p).standing et ps) = c₂ at hstand
  have hp₂ : c₂.raft p = (c₁.raft p).standing et ps := by rw [← hc₂, setRaft_raft_self]
  have hlen := length_others p
  have hrpcs : c₂.rpcs = c₁.rpcs ++ ((List.finRange n).filter (· ≠ p)).map
      (pollOf c₂ p (c₁.raft p).candidacy) := by
    rw [← hc₂]
    simp [broadcast, pollOf, setRaft]
  have hqs : ∀ q ∈ (List.finRange n).filter (· ≠ p),
      (c₂.raft q).currentTerm < (c₁.raft p).candidacy.term ∧
        (c₂.raft q).isLogUpToDate (c₁.raft p).candidacy.lastLogIndex
          (c₁.raft p).candidacy.lastLogTerm = true := by
    intro q hq
    have hqp : q ≠ p := by simpa using hq
    rw [← hc₂, setRaft_raft_ne _ p _ hqp, setRpcs_raft, hothers q hqp]
    refine ⟨Nat.lt_succ_of_le ((hT q).trans hterm), ?_⟩
    have hlast : (c₁.raft p).getLastLog = (c.raft p).getLastLog := by
      unfold getLastLog
      rw [hlogs]
    unfold candidacy
    rw [hlast]
    exact hp q
  have hnodup : (p :: (List.finRange n).filter (· ≠ p)).Nodup :=
    List.nodup_cons.mpr ⟨by simp, (List.nodup_finRange n).filter _⟩
  obtain ⟨tr'', c', hrun', hlead'⟩ := canvass gob _ hrpcs hnodup (by rw [hp₂]; rfl)
    (by rw [hp₂]; rfl) (by rw [hp₂, standing_grantedVotes]; omega)
    (by rw [hp₂, standing_grantedVotes]; omega) hqs
  exact ⟨_, c', p, (hrun.trans hstand).trans hrun', hlead'⟩

/-- With one peer there is never a leader: no call is ever made. -/
theorem leaderless {ok : Cluster n C → Action n C → Prop} (hn : n < 2) (hc : Sound gob c)
    (hforeign : ∀ m ∈ c.rpcs, m.callee ≠ m.caller) (hno : ∀ p, (c.raft p).state ≠ .leader)
    (h : Run (Cluster.step gob) ok c tr c') : ∀ p, (c'.raft p).state ≠ .leader := by
  have hall : Sound gob c' ∧ (∀ m ∈ c'.rpcs, m.callee ≠ m.caller) ∧
      ∀ p, (c'.raft p).state ≠ .leader := by
    refine Run.invariant (fun _ c => Sound gob c ∧ (∀ m ∈ c.rpcs, m.callee ≠ m.caller) ∧
      ∀ p, (c.raft p).state ≠ .leader) ⟨hc, hforeign, hno⟩ ?_ h
    rintro _ c a c' es ⟨hc, hforeign, hno⟩ _ hstep
    have hm := step_moves hc hstep
    refine ⟨sound_moves hc hm, foreign_moves hforeign hm, fun p hlead => ?_⟩
    rcases moves_leads hc hm p with hkept | hel
    · exact hno p (hkept hlead).1
    · -- an election is won by a reply, and there are no two peers to exchange one
      obtain ⟨k, m, args, reply, -, hm, -⟩ := winner_deliver hel.winner
      refine hforeign m (List.mem_of_getElem? hm) (Fin.ext ?_)
      have := m.callee.isLt
      have := m.caller.isLt
      omega
  exact hall.2.2

/-- From every state that a cluster can reach, timers and calls alone can give it a leader
if it has two peers or more, and nothing can if it has not. -/
theorem leader_possible_iff (h : ClusterRun gob tr c) :
    (∃ tr' c' p, Run (Cluster.step gob) ByTimersAndCalls c tr' c' ∧
      (c'.raft p).state = .leader) ↔ 2 ≤ n := by
  have hc := sound_run h
  constructor
  · rintro ⟨tr', c', p, hrun, hlead⟩
    by_contra hn
    have hno : ∀ q, (c.raft q).state ≠ .leader :=
      leaderless (Nat.lt_of_not_le hn) sound_init (by simp [init]) (by simp [init]) h
    exact leaderless (Nat.lt_of_not_le hn) hc (undisputed_run h).foreign hno hrun p hlead
  · exact fun hn => leader_reachable hn (armed_run h)

/-- Peer 0 leads three peers, and peer 1 stands against it. -/
theorem leader_possible_iff_of_three :
    (∃ tr' c' p, Run (Cluster.step (natGob 3)) ByTimersAndCalls
      (ran (natGob 3) always (challenged ++ [.deliver 1])).1 tr' c' ∧
      (c'.raft p).state = .leader) ↔ 2 ≤ 3 := by
  have hrun : ClusterRun (natGob 3) (ran (natGob 3) always (challenged ++ [.deliver 1])).2
      (ran (natGob 3) always (challenged ++ [.deliver 1])).1 := reached_run (by decide +kernel)
  exact leader_possible_iff hrun

end RaftImplementation
