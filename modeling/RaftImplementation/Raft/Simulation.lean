import RaftImplementation.Raft.Representation

/-!
# The cluster simulates the replicated log

Each move of the cluster is matched by steps of the abstract protocol. Two conditions
on the steps of a run are needed: whoever wins an election has no `matchIndex` beyond
its own log (`MatchIndexFits`), and, for the strict relation, it has none above zero
and an InstallSnapshot reply is processed when the peer has what it stands for
(`RecordsFit`).
-/

namespace RaftImplementation

open Library Library.ReplicatedLog Cluster Raft

variable {n : Nat} {C : Type}

/-- Whoever wins an election has no `matchIndex` beyond its last log index. -/
def MatchIndexFits (c : Cluster n C) (a : Action n C) : Prop :=
  ∀ p, c.winner a = some p →
    ∀ q, q ≠ p → (c.raft p).matchIndex q ≤ (c.raft p).getLastLog.index

instance (c : Cluster n C) (a : Action n C) : Decidable (MatchIndexFits c a) :=
  inferInstanceAs (Decidable (∀ p, c.winner a = some p →
    ∀ q, q ≠ p → (c.raft p).matchIndex q ≤ (c.raft p).getLastLog.index))

/-- The log of the callee has, at the index of the snapshot, its term, or begins there or
later. -/
def SnapshotHeld (c : Cluster n C) (m : Rpc n C) (args : InstallSnapshotArgs n) : Prop :=
  let rf := c.raft m.callee
  args.lastIncludedIndex ≤ rf.getFirstLog.index ∨
    rf.logs[args.lastIncludedIndex - rf.getFirstLog.index]?.map LogEntry.term =
      some args.lastIncludedTerm

instance (c : Cluster n C) (m : Rpc n C) (args : InstallSnapshotArgs n) :
    Decidable (SnapshotHeld c m args) :=
  inferInstanceAs (Decidable (_ ∨ _))

/-- The action, if it is taken, makes a leader record the InstallSnapshot reply `args`. -/
def Cluster.records (c : Cluster n C) : Action n C → Option (Rpc n C × InstallSnapshotArgs n)
  | .deliver k =>
    match c.rpcs[k]? with
    | some m =>
      match m.body with
      | .installSnapshotReply args _ =>
        let rf := c.raft m.caller
        if (c.nodes m.caller).boot = m.boot ∧ rf.state = .leader ∧
            rf.currentTerm = args.term then some (m, args)
        else none
      | _ => none
    | none => none
  | _ => none

/-- Whoever wins an election has recorded nothing about others, and a leader records an
InstallSnapshot reply when the peer, if it is in the leader's term, has the snapshot. -/
def RecordsFit (c : Cluster n C) (a : Action n C) : Prop :=
  (∀ p, c.winner a = some p → ∀ q, q ≠ p → (c.raft p).matchIndex q = 0) ∧
  ∀ r ∈ c.records a, (c.raft r.1.callee).currentTerm = r.2.term → SnapshotHeld c r.1 r.2

instance (c : Cluster n C) (a : Action n C) : Decidable (RecordsFit c a) :=
  inferInstanceAs (Decidable (_ ∧ ∀ r ∈ c.records a, _ → SnapshotHeld c r.1 r.2))

/-- From `A` the protocol can go on to a state that says what has happened in `tr` and where
the cluster is. -/
def Simulated (strict : Prop) (A : Protocol n C) (tr : List (Event n C)) (c : Cluster n C) : Prop :=
  ∃ A' S', Refines strict A' S' tr c ∧ Steps A A'

/-! ## The machine that moves -/

section Nodes

variable {strict : Prop} {p : Fin n} {A A' : Protocol n C} {S S' : Snapshots n C}
variable {c c' : Cluster n C} {tr es : List (Event n C)}

theorem Refines.nodes_setRaft (h : Refines strict A S tr c) (he : Evolves p A S A' S')
    (hi : Inv A') {rf : Raft n C} {rpcs : List (Rpc n C)} (hp : Represents strict A' S' p rf)
    (hle : (c.raft p).currentTerm ≤ rf.currentTerm) :
    ∀ q, RepresentsNode strict A' S' q (((c.setRpcs rpcs).setRaft p rf).nodes q) :=
  setRaft_forall (fun _ hq => RepresentsNode.mono he hi hq) h.nodes
    ⟨hp, fun m hm => (((h.nodes p).received m hm).mono he).le hle⟩

/-- A move of one machine that emits nothing of interest. -/
theorem Refines.next_setRaft (h : Refines strict A S tr c) (he : Evolves p A S A' S')
    (hsteps : Steps A A') (hvote : A'.vote = A.vote) (hled : A'.led = A.led)
    {rf : Raft n C} {rpcs : List (Rpc n C)} (hp : Represents strict A' S' p rf)
    (hle : (c.raft p).currentTerm ≤ rf.currentTerm)
    (horder : ∀ q, InOrder (((c.setRpcs rpcs).setRaft p rf).nodes q))
    (hrpcs : ∀ m ∈ rpcs, m ∈ c.rpcs ∨ Backed strict A' S' m.caller m.callee m.body)
    (hes : ∀ e ∈ es, e.voting = false)
    (hrec : ∀ q b command i t, Event.received q b (.command command i t) ∉ es) :
    Refines strict A' S' (tr ++ es) ((c.setRpcs rpcs).setRaft p rf) :=
  h.next_quiet he hsteps hvote hled hes (fun q b command i t hmem => absurd hmem (hrec q b command i t))
    horder (h.nodes_setRaft he (h.inv.steps hsteps) hp hle) hrpcs

/-- A move that the protocol does not see. -/
theorem Refines.unseen (h : Refines strict A S tr c)
    {rf : Raft n C} {rpcs : List (Rpc n C)} (hp : Represents strict A S p rf)
    (hle : (c.raft p).currentTerm ≤ rf.currentTerm)
    (horder : ∀ q, InOrder (((c.setRpcs rpcs).setRaft p rf).nodes q))
    (hrpcs : ∀ m ∈ rpcs, m ∈ c.rpcs ∨ Backed strict A S m.caller m.callee m.body) :
    Simulated strict A (tr ++ []) ((c.setRpcs rpcs).setRaft p rf) :=
  ⟨A, S, h.next_setRaft (.refl p A S) .refl rfl rfl hp hle horder hrpcs (by simp) (by simp), .refl⟩

/-- `p` learns of term `t` and follows. -/
theorem Refines.bump (h : Refines strict A S tr c) {t : Nat} {rf : Raft n C}
    {rpcs : List (Rpc n C)} (ht : (c.raft p).currentTerm ≤ t)
    (hp : Represents strict (A.bump p t) S p rf) (hrt : rf.currentTerm = t)
    (horder : ∀ q, InOrder (((c.setRpcs rpcs).setRaft p rf).nodes q))
    (hrpcs : ∀ m ∈ rpcs, m ∈ c.rpcs ∨ Backed strict (A.bump p t) S m.caller m.callee m.body) :
    Simulated strict A (tr ++ []) ((c.setRpcs rpcs).setRaft p rf) := by
  have hterm : A.term p ≤ t := (h.nodes p).peer.term ▸ ht
  have hsteps : Steps A (A.bump p t) := .single (.bump p t hterm)
  exact ⟨_, S, h.next_setRaft (.bump S hterm) hsteps rfl rfl hp (hrt ▸ ht) horder hrpcs (by simp)
    (by simp), hsteps⟩

end Nodes

/-! ## The moves -/

section Moves

variable {strict : Prop} {A : Protocol n C} {S : Snapshots n C} {gob : Gob n C}
variable {c c' : Cluster n C} {a : Action n C} {tr es : List (Event n C)}

theorem mem_or_answered {rpcs : List (Rpc n C)} {k : Nat} {m x : Rpc n C} (body : RpcBody n C)
    (hbody : Backed strict A S m.caller m.callee body)
    (hx : x ∈ rpcs.set k (m.answered body)) :
    x ∈ rpcs ∨ Backed strict A S x.caller x.callee x.body := by
  rcases List.mem_or_eq_of_mem_set hx with hx | rfl
  · exact .inl hx
  · exact .inr hbody

theorem refines_stand (hc : Sound gob c) (h : Refines strict A S tr c) {p : Fin n} {et : Timer}
    {ps : Persister} {rpcs : List (Rpc n C)}
    (hrpcs : ∀ m ∈ rpcs, m ∈ c.rpcs ∨ m ∈ c.broadcast p (.requestVote
      ⟨(c.raft p).currentTerm + 1, (c.raft p).me, (c.raft p).getLastLog.index,
        (c.raft p).getLastLog.term⟩))
    (horder : ∀ q, InOrder (((c.setRpcs rpcs).setRaft p ((c.raft p).standing et ps)).nodes q)) :
    Simulated strict A
      (tr ++ [.stand p ((c.raft p).currentTerm + 1) (c.raft p).getLastLog.term
        (c.raft p).getLastLog.index])
      ((c.setRpcs rpcs).setRaft p ((c.raft p).standing et ps)) := by
  have hp := (h.nodes p).peer
  have hlt : A.term p < (c.raft p).currentTerm + 1 := by
    rw [hp.term]
    exact Nat.lt_succ_self _
  have he := Evolves.stand S h.inv hlt
  have hstep : Step A (A.stand p ((c.raft p).currentTerm + 1)) := .stand p _ hlt
  refine ⟨_, S, h.next he (.single hstep) ?_ ?_ (by simp) horder
    (h.nodes_setRaft he (inv_step h.inv hstep) (hp.stand et ps) (Nat.le_succ _)) ?_, .single hstep⟩
  · intro v T q
    rw [voted_stand, State.stand_vote, h.votes]
    tauto
  · intro q T
    rw [led_stand]
    exact h.leaders q T
  · intro m hm
    rcases hrpcs m hm with hm | hm
    · exact .inl hm
    · obtain ⟨rfl, _, _, hb⟩ := mem_broadcast hm
      right
      rw [hb]
      refine ⟨hc.me m.caller, .inr ⟨rfl, rfl, rfl⟩, ?_⟩
      simp only [State.stand_bid, Function.update_self]
      exact ⟨hp.view.last.2.symm, hp.view.last.1.symm⟩

/-- A vote is granted to a candidate that is at least as up to date. -/
theorem refines_granted (h : Refines strict A S tr c) {m : Rpc n C} {args : RequestVoteArgs n}
    (hb : Backed strict A S m.caller m.callee (.requestVote args)) {st : NodeState} {et : Timer}
    {ps : Persister} {k : Nat} (ht : (c.raft m.callee).currentTerm ≤ args.term)
    (hst : (c.raft m.callee).currentTerm = args.term → st = (c.raft m.callee).state)
    (hst' : (c.raft m.callee).currentTerm < args.term → st = .follower)
    (hup : (c.raft m.callee).isLogUpToDate args.lastLogIndex args.lastLogTerm = true)
    (horder : ∀ q, InOrder (((c.setRpcs (c.rpcs.set k (m.answered
      (.requestVoteReply args ⟨args.term, true⟩)))).setRaft m.callee
        ((c.raft m.callee).granting args.term args.candidateId st et ps)).nodes q)) :
    Simulated strict A
      (tr ++ [.grant m.callee args.term args.candidateId (c.raft m.callee).getLastLog.term
        (c.raft m.callee).getLastLog.index])
      ((c.setRpcs (c.rpcs.set k (m.answered (.requestVoteReply args ⟨args.term, true⟩)))).setRaft
        m.callee ((c.raft m.callee).granting args.term args.candidateId st et ps)) := by
  obtain ⟨hid, hvote, hbt, hbl⟩ := hb
  have hp := (h.nodes m.callee).peer
  have hterm : A.term m.callee ≤ args.term := hp.term ▸ ht
  have hup' : NoNewer (A.log m.callee) (A.bid m.caller args.term) := by
    rw [isLogUpToDate, hp.view.last.1, hp.view.last.2, ← hbt, ← hbl] at hup
    simp only [Bool.or_eq_true, decide_eq_true_eq, Bool.and_eq_true] at hup
    unfold NoNewer
    omega
  have he : Evolves m.callee A S ((A.bump m.callee args.term).grant m.callee args.term m.caller) S :=
    (Evolves.bump S hterm).trans (.grant S _ _ _)
  have hsteps : Steps A ((A.bump m.callee args.term).grant m.callee args.term m.caller) :=
    .tail (.single (.bump m.callee args.term hterm)) (.grant _ _ _ (by simp) hvote hup')
  have hp' : Represents strict ((A.bump m.callee args.term).grant m.callee args.term m.caller) S
      m.callee ((c.raft m.callee).granting args.term args.candidateId st et ps) := by
    rcases ht.lt_or_eq with hlt | heq
    · have hb : Represents strict (A.bump m.callee args.term) S m.callee
          ((c.raft m.callee).granting args.term args.candidateId st et ps) :=
        hp.bump ht rfl rfl rfl (hst' hlt) (fun m hm => .inl hm) rfl
      exact hb.evolve (Evolves.grant (p := m.callee) S m.callee args.term m.caller) rfl rfl rfl
        (fun _ _ => rfl) fun _ hD _ => hD
    · refine (hp.evolve he ?_ rfl rfl (fun _ _ => rfl) fun _ hD _ => hD).of_same heq.symm rfl rfl
        (hst heq) rfl rfl rfl
      simp [← heq, hp.term]
  refine ⟨_, S, h.next he hsteps ?_ ?_ (by simp) horder
    (h.nodes_setRaft he (h.inv.steps hsteps) hp' ht)
    fun x hx => mem_or_answered (.requestVoteReply args _) trivial hx, hsteps⟩
  · intro v T q
    rw [voted_grant, hid, State.grant_vote, State.bump_vote, h.votes, and_comm (a := T = _)]
  · intro q T
    rw [led_grant]
    exact h.leaders q T

/-- `AppendEntries` is handled. -/
theorem refines_appendHandled (h : Refines strict A S tr c) {k : Nat} {m : Rpc n C}
    {args : AppendEntriesArgs n C} {rf : Raft n C} {reply : AppendEntriesReply}
    (hb : Backed strict A S m.caller m.callee (.appendEntries args))
    (hh : AppendHandled gob (c.raft m.callee) args rf reply)
    (horder : ∀ q, InOrder (((c.setRpcs (c.rpcs.set k (m.answered
      (.appendEntriesReply args reply)))).setRaft m.callee rf).nodes q)) :
    Simulated strict A (tr ++ []) ((c.setRpcs (c.rpcs.set k (m.answered
      (.appendEntriesReply args reply)))).setRaft m.callee rf) := by
  obtain ⟨hl, H, hr⟩ := hb
  have hp := (h.nodes m.callee).peer
  cases hh with
  | stale ht =>
    exact h.unseen hp le_rfl horder
      fun x hx => mem_or_answered (.appendEntriesReply args _) (by simp [Backed]) hx
  | refused v et ps reply ht hv hps hs hrt hci =>
    refine h.bump ht (hp.bump ht rfl rfl rfl rfl (fun m hm => .inl hm) rfl) rfl horder
      fun x hx => mem_or_answered (.appendEntriesReply args reply) ?_ hx
    intro hsucc
    simp [hs] at hsucc
  | accepted v et ps ht hv hf hprev hps =>
    obtain ⟨A', he, hsteps, hvote, hled, hp', hj, hconf⟩ :=
      hp.accept h.inv hr hl ht hf hprev v et ps
    refine ⟨A', S, h.next_setRaft he hsteps hvote hled hp' ht horder ?_ (by simp) (by simp), hsteps⟩
    intro x hx
    refine mem_or_answered (.appendEntriesReply args _) (fun _ => ⟨he.led _ _ hl, ?_, ?_⟩) hx
    · rw [hr.carries.reach]
      exact hj
    · rw [hr.carries.reach]
      exact fun _ => hconf

/-- `InstallSnapshot` is handled. -/
theorem refines_snapshotHandled (h : Refines strict A S tr c) {k : Nat} {m : Rpc n C}
    {args : InstallSnapshotArgs n} {rf : Raft n C}
    (hb : Backed strict A S m.caller m.callee (.installSnapshot args))
    (hh : SnapshotHandled gob (c.raft m.callee) args rf)
    (horder : ∀ q, InOrder (((c.setRpcs (c.rpcs.set k (m.answered
      (.installSnapshotReply args ⟨(c.raft m.callee).currentTerm⟩)))).setRaft
        m.callee rf).nodes q)) :
    Simulated strict A (tr ++ []) ((c.setRpcs (c.rpcs.set k (m.answered
      (.installSnapshotReply args ⟨(c.raft m.callee).currentTerm⟩)))).setRaft m.callee rf) := by
  have hk : KnownAt A args.term args.lastIncludedIndex args.lastIncludedTerm := hb
  have hp := (h.nodes m.callee).peer
  have hbumped : ∀ x, x ∈ c.rpcs.set k (m.answered
        (.installSnapshotReply args ⟨(c.raft m.callee).currentTerm⟩)) →
      x ∈ c.rpcs ∨ Backed strict (A.bump m.callee args.term) S x.caller x.callee x.body :=
    fun x hx => mem_or_answered (.installSnapshotReply args _) ⟨hk, by simp⟩ hx
  cases hh with
  | stale ht =>
    refine h.unseen hp le_rfl horder
      fun x hx => mem_or_answered (.installSnapshotReply args _) ⟨hk, ?_⟩ hx
    rw [hp.term]
    exact ht.le
  | ignored v et ps ht hv hps =>
    exact h.bump ht (hp.bump ht rfl rfl rfl rfl (fun m hm => .inl hm) rfl) rfl horder hbumped
  | queued v et ps ht hv hps hci =>
    refine h.bump ht (hp.bump ht rfl rfl rfl rfl (fun x hx => ?_) rfl) rfl horder hbumped
    rcases List.mem_append.mp hx with hx | hx
    · exact .inl hx
    · rw [List.mem_singleton.mp hx]
      exact .inr hk

/-- An election is won. -/
theorem refines_won (hel : Elections tr c) (hel' : Elections (tr ++ es) c')
    (h : Refines strict A S tr c) {p : Fin n} {et : Timer} {rpcs : List (Rpc n C)} {u : Fin n}
    (hes : es = [.count p (c.raft p).currentTerm u, .lead p (c.raft p).currentTerm])
    (hs : (c.raft p).state = .candidate)
    (hfit : ∀ q, q ≠ p → (c.raft p).matchIndex q ≤ (c.raft p).getLastLog.index)
    (hzero : strict → ∀ q, q ≠ p → (c.raft p).matchIndex q = 0)
    (hsub : ∀ m ∈ rpcs, m ∈ c.rpcs)
    (horder : ∀ q, InOrder (((c.setRpcs rpcs).setRaft p ((c.raft p).leading et)).nodes q)) :
    Simulated strict A (tr ++ es)
      ((c.setRpcs rpcs).setRaft p ((c.raft p).leading et)) := by
  have hp := (h.nodes p).peer
  have hsplit : tr ++ es = (tr ++ [.count p (c.raft p).currentTerm u]) ++
      [.lead p (c.raft p).currentTerm] := by simp [hes]
  have hvoted : ∀ v T q, Voted (tr ++ es) v T q ↔ A.vote v T q := by
    intro v T q
    rw [h.votes, hsplit, voted_append, voted_count]
    refine or_iff_left ?_
    simp [Voted, Granted, Stood]
  have hled : ∀ q T, Led (tr ++ es) q T ↔ A.led q T ∨ q = p ∧ T = (c.raft p).currentTerm := by
    intro q T
    rw [h.leaders, hsplit, led_append, led_count]
    simp [Led]
  have hwon : Led (tr ++ es) p (c.raft p).currentTerm := (hled p _).mpr (.inr ⟨rfl, rfl⟩)
  have hmaj : Majority fun v => A.vote v (c.raft p).currentTerm p :=
    (hel'.led p _ hwon).2.mono fun v hv => (hvoted v _ p).mp hv
  have hnew : ∀ q, ¬ A.led q (c.raft p).currentTerm := by
    intro q hq
    have hqp : q = p := hel'.led_unique ((hled q _).mpr (.inl hq)) hwon
    subst hqp
    exact (hel.candidate q hs).2.1 ((h.leaders q _).mp hq)
  have hlog := (hp.candidate hs).log_eq_bid h.inv hmaj hnew
  have he : Evolves p A S (A.lead p (c.raft p).currentTerm) S := .lead S hnew
  have hstep : Step A (A.lead p (c.raft p).currentTerm) := .lead p _ hp.term hmaj hlog hnew
  refine ⟨_, S, h.next he (.single hstep) ?_ ?_ (by simp [hes]) horder
    (h.nodes_setRaft he (inv_step h.inv hstep) (hp.lead h.inv hnew hfit hzero et) le_rfl)
    fun m hm => .inl (hsub m hm), .single hstep⟩
  · exact fun v T q => (hvoted v T q).symm
  · exact fun q T => (hled q T).symm

/-- A successful `AppendEntries` is recorded, and the commit index may advance. -/
theorem refines_matched (h : Refines strict A S tr c) {m : Rpc n C}
    {args : AppendEntriesArgs n C} {reply : AppendEntriesReply} {ci : Nat}
    {rpcs : List (Rpc n C)} (hsub : ∀ x ∈ rpcs, x ∈ c.rpcs)
    (hb : Backed strict A S m.caller m.callee (.appendEntriesReply args reply))
    (ht : args.term = (c.raft m.caller).currentTerm) (hs : (c.raft m.caller).state = .leader)
    (hsucc : reply.success = true)
    (hci : ci = (c.raft m.caller).commitIndex ∨ ((c.raft m.caller).matched m.callee
      (args.prevLogIndex + args.entries.length)).Advanced ci)
    (horder : ∀ q, InOrder (((c.setRpcs rpcs).setRaft m.caller
      (((c.raft m.caller).matched m.callee
        (args.prevLogIndex + args.entries.length)).committing ci)).nodes q)) :
    Simulated strict A (tr ++ []) ((c.setRpcs rpcs).setRaft m.caller
      (((c.raft m.caller).matched m.callee
        (args.prevLogIndex + args.entries.length)).committing ci)) := by
  obtain ⟨_, hj, hconf⟩ := hb hsucc
  rw [ht] at hj hconf
  have hp := (h.nodes m.caller).peer.matched hs hj hconf
  rcases hci with rfl | hadv
  · exact h.unseen (hp.of_same rfl rfl rfl rfl rfl rfl rfl) le_rfl horder
      fun x hx => .inl (hsub x hx)
  · obtain ⟨A', he, hsteps, hvote, hled, hp'⟩ := hp.advance h.inv hs hadv
    exact ⟨A', S, h.next_setRaft he hsteps hvote hled hp' le_rfl horder
      (fun x hx => .inl (hsub x hx)) (by simp) (by simp), hsteps⟩

/-- A peer that has a known history in its log, or in its snapshot, can confirm it. -/
theorem Refines.confirm (h : Refines strict A S tr c) {p q : Fin n} {T i t : Nat}
    (hl : A.led p T) (hG : KnownAt A T i t) (hT : T ≤ A.term q)
    (hheld : (c.raft q).currentTerm = T → i ≤ (c.raft q).getFirstLog.index ∨
      (c.raft q).logs[i - (c.raft q).getFirstLog.index]?.map LogEntry.term = some t) :
    ∃ A', Evolves p A S A' S ∧ Steps A A' ∧ A'.vote = A.vote ∧ A'.led = A.led ∧
      A'.term = A.term ∧ A'.log = A.log ∧ A'.front = A.front ∧ A'.decided = A.decided ∧
      Confirmed A' S T q i := by
  have hq := (h.nodes q).peer
  have hstay : Confirmed A S T q i → ∃ A', Evolves p A S A' S ∧ Steps A A' ∧ A'.vote = A.vote ∧
      A'.led = A.led ∧ A'.term = A.term ∧ A'.log = A.log ∧ A'.front = A.front ∧
      A'.decided = A.decided ∧ Confirmed A' S T q i :=
    fun hc => ⟨A, .refl p A S, .refl, rfl, rfl, rfl, rfl, rfl, rfl, hc⟩
  rcases hT.lt_or_eq with hlt | heq
  · exact hstay (.inl hlt)
  · have hview : View (S q) (A.log q) (c.raft q).logs := hq.view
    rw [hview.first_index] at hheld
    have hheld := hheld (hq.term.symm.trans heq.symm)
    by_cases hle : i ≤ (S q).length
    · exact hstay (.inr (.inl hle))
    · obtain ⟨G, hG, rfl, rfl⟩ := hG
      have hterm := hheld.resolve_left hle
      have hpre : G <+: A.log q := by
        have hag := (hview.agree h.inv.tree (h.inv.log_mem q) (hG.mem h.inv) (by omega) le_rfl
          (by rwa [List.take_length])).2
        rw [List.take_length] at hag
        exact hag ▸ List.take_prefix _ _
      have hfront := hG.prefix_front h.inv hl
      refine ⟨_, .confirm S q T G.length,
        .single (.follow q p T G (A.log q) heq.symm hl hfront (.inl ⟨rfl, hpre⟩)),
        rfl, rfl, rfl, Function.update_eq_self .., rfl, rfl, .inr (.inr ⟨_, le_rfl, .inr ⟨rfl, rfl, rfl⟩⟩)⟩

theorem records_eq {k : Nat} {m : Rpc n C} {args : InstallSnapshotArgs n}
    {reply : InstallSnapshotReply} (hm : c.rpcs[k]? = some m)
    (hb : m.body = .installSnapshotReply args reply)
    (hboot : (c.nodes m.caller).boot = m.boot) (ht : args.term = (c.raft m.caller).currentTerm)
    (hs : (c.raft m.caller).state = .leader) : c.records (.deliver k) = some (m, args) := by
  simp only [Cluster.records, hm, hb]
  rw [if_pos ⟨hboot, hs, ht.symm⟩]

/-- An `InstallSnapshot` reply is recorded. -/
theorem refines_recorded (h : Refines strict A S tr c) {m : Rpc n C}
    {args : InstallSnapshotArgs n} {reply : InstallSnapshotReply} {rpcs : List (Rpc n C)}
    (hsub : ∀ x ∈ rpcs, x ∈ c.rpcs)
    (hb : Backed strict A S m.caller m.callee (.installSnapshotReply args reply))
    (ht : args.term = (c.raft m.caller).currentTerm) (hs : (c.raft m.caller).state = .leader)
    (hheld : strict → (c.raft m.callee).currentTerm = args.term → SnapshotHeld c m args)
    (horder : ∀ q, InOrder (((c.setRpcs rpcs).setRaft m.caller
      ((c.raft m.caller).matched m.callee args.lastIncludedIndex)).nodes q)) :
    Simulated strict A (tr ++ []) ((c.setRpcs rpcs).setRaft m.caller
      ((c.raft m.caller).matched m.callee args.lastIncludedIndex)) := by
  obtain ⟨hk, hterm⟩ := hb
  have hp := (h.nodes m.caller).peer
  have hl := (hp.leader hs).led
  rw [ht] at hk hterm
  have hj : Justified A (c.raft m.caller).currentTerm m.callee args.lastIncludedIndex := by
    obtain ⟨G, hG, hlen, _⟩ := hk
    exact hlen ▸ hG.justified h.inv hl m.callee
  by_cases hst : strict
  · have hheld' := hheld hst
    rw [ht] at hheld'
    obtain ⟨A', he, hsteps, hvote, hled, hterm', hlog, hfront, hdec, hconf⟩ :=
      h.confirm hl hk hterm hheld'
    have hp' := hp.evolve he (by rw [hterm']) (by rw [hlog]) rfl (fun _ _ => by rw [hfront])
      fun D hD _ => hdec ▸ hD
    exact ⟨A', S, h.next_setRaft he hsteps hvote hled
      (hp'.matched hs (hj.mono he hl) fun _ => hconf) le_rfl horder
      (fun x hx => .inl (hsub x hx)) (by simp) (by simp), hsteps⟩
  · exact h.unseen (hp.matched hs hj fun hno => absurd hno hst) le_rfl horder
      fun x hx => .inl (hsub x hx)

/-- The requests of a leader are backed by its history. -/
theorem refines_asked (h : Refines strict A S tr c) {p peer : Fin n}
    {args : ReplicationArgs n C} (ha : Asked (c.raft p) peer args) :
    Backed strict A S p peer args.body := by
  have hp := (h.nodes p).peer
  cases args with
  | install args =>
    cases ha with
    | install hs hn =>
      refine ⟨S p, hp.snap_known, ?_⟩
      have hfirst := hp.view.first
      simp only [genInstallSnapshotArgs, hfirst, and_self]
  | append args =>
    have hs : (c.raft p).state = .leader := by
      cases ha with
      | append i e hs => exact hs
    have hargs : args.term = (c.raft p).currentTerm ∧
        args.leaderCommit = (c.raft p).commitIndex := by
      cases ha with
      | append i e => exact ⟨rfl, rfl⟩
    have hl := hp.leader hs
    obtain ⟨K, hK, hlen, hKlog⟩ := hp.leader_committed h.inv hs
    refine ⟨hargs.1 ▸ hl.led, A.log p, ha.carries hp.view (hp.leader_clean h.inv hs), ?_, ?_, ?_, ?_⟩
    · rw [hargs.1, hl.front]
      exact h.inv.win_front _
    · rw [hargs.1, hl.front]
    · rw [hargs.2]
      exact hlen ▸ hKlog.length_le
    · rw [hargs.1, hargs.2]
      have hK' : Known A ((A.log p).take K.length) (c.raft p).currentTerm := by
        rwa [take_isPrefix hKlog]
      exact hlen ▸ hK'

/-- Every move of the cluster is simulated by the protocol. -/
theorem refines_moves (hc : Sound gob c) (hel : Elections tr c) (h : Refines strict A S tr c)
    (hfit : MatchIndexFits c a) (hstrict : strict → RecordsFit c a) (hm : Moves gob c a c' es) :
    Simulated strict A (tr ++ es) c' := by
  have horder := inOrder_moves hc (fun p _ _ => h.commitsInLog p) h.order hm
  have hel' := elections_electoral hc hel (moves_electoral hm)
  have hkeep : ∀ x ∈ c.rpcs, x ∈ c.rpcs ∨ Backed strict A S x.caller x.callee x.body :=
    fun _ => .inl
  have herase : ∀ k, ∀ x ∈ c.rpcs.eraseIdx k,
      x ∈ c.rpcs ∨ Backed strict A S x.caller x.callee x.body :=
    fun _ _ hx => .inl (List.mem_of_mem_eraseIdx hx)
  cases hm with
  | timers p et tk =>
    exact h.unseen ((h.nodes p).peer.of_same rfl rfl rfl rfl rfl rfl rfl) le_rfl horder hkeep
  | lose k =>
    refine ⟨A, S, ?_, .refl⟩
    rw [List.append_nil]
    exact { h with rpcs := fun m hm => h.rpcs m (List.mem_of_mem_eraseIdx hm) }
  | reboot p rpcs hsub =>
    refine ⟨A, S, h.next_quiet (.refl p A S) .refl rfl rfl ?_ (by simp) horder ?_
      fun x hx => .inl (hsub.subset hx), .refl⟩
    · simp [Event.voting]
    · exact restarted_forall (fun _ _ => id) h.nodes ⟨(h.nodes p).peer.restart, by simp⟩
  | stand p et ps hps =>
    exact refines_stand hc h (fun x hx => List.mem_append.mp hx) horder
  | started p command ps hs hps =>
    have hp := (h.nodes p).peer
    have hl := hp.leader hs
    have hsteps : Steps A (A.append p _ command) :=
      .single (.append p _ command hp.term hl.led hl.front)
    exact ⟨_, S, h.next_setRaft (.append S h.inv hl.led command) hsteps rfl rfl
      (hp.append hs (hc.me p) command ps) le_rfl horder (fun x hx => .inl hx)
      (by simp [Event.voting]) (by simp), hsteps⟩
  | asked p peer args hne ha =>
    refine ⟨A, S, h.next_quiet (.refl p A S) .refl rfl rfl (by simp) (by simp) horder h.nodes ?_,
      .refl⟩
    intro x hx
    rcases List.mem_append.mp hx with hx | hx
    · exact .inl hx
    · rw [List.mem_singleton.mp hx]
      exact .inr (refines_asked h ha)
  | voteHandled k m args rf reply hk hb hh =>
    have hback := h.rpcs m (List.mem_of_getElem? hk)
    have hp := (h.nodes m.callee).peer
    rw [hb] at hback
    cases hh with
    | refused =>
      exact h.unseen hp le_rfl horder
        fun x hx => mem_or_answered (.requestVoteReply args _) trivial hx
    | behind et ps ht hps =>
      exact h.bump ht.le (hp.bump ht.le rfl rfl rfl rfl (fun m hm => .inl hm) rfl) rfl horder
        fun x hx => mem_or_answered (.requestVoteReply args _) trivial hx
    | granted st et ps ht hst hst' hv hup hps =>
      exact refines_granted h hback ht hst hst' hup horder
  | appendHandled k m args rf reply hk hb hh =>
    have hback := h.rpcs m (List.mem_of_getElem? hk)
    rw [hb] at hback
    exact refines_appendHandled h hback hh horder
  | snapshotHandled k m args rf hk hb hh =>
    have hback := h.rpcs m (List.mem_of_getElem? hk)
    rw [hb] at hback
    exact refines_snapshotHandled h hback hh horder
  | outrun k m t et ps hk ht hps =>
    exact h.bump ht.le ((h.nodes m.caller).peer.bump ht.le rfl rfl rfl rfl (fun m hm => .inl hm) rfl)
      rfl horder fun x hx => .inl (List.mem_of_mem_eraseIdx hx)
  | counted k m args reply hk hb hboot ht hs hg hfew =>
    refine ⟨A, S, h.next (.refl m.caller A S) .refl ?_ ?_ (by simp) horder ?_ (herase k), .refl⟩
    · intro v T q
      rw [voted_count]
      exact h.votes v T q
    · intro q T
      rw [led_count]
      exact h.leaders q T
    · exact h.nodes_setRaft (.refl m.caller A S) h.inv
        ((h.nodes m.caller).peer.of_same rfl rfl rfl rfl rfl rfl rfl) le_rfl
  | won k m args reply et hk hb hboot ht hs hg hmany =>
    have hwin := winner_eq hk hb hboot ht hs hg hmany
    exact refines_won hel hel' h (by rw [ht]) hs (hfit m.caller hwin)
      (fun hst => (hstrict hst).1 m.caller hwin)
      (fun x hx => List.mem_of_mem_eraseIdx hx) horder
  | backedOff k m args reply i =>
    exact h.unseen ((h.nodes m.caller).peer.of_same rfl rfl rfl rfl rfl rfl rfl) le_rfl horder
      (herase k)
  | matched k m args reply ci hk hb hboot ht hs hsucc hci =>
    have hback := h.rpcs m (List.mem_of_getElem? hk)
    rw [hb] at hback
    exact refines_matched h (fun x hx => List.mem_of_mem_eraseIdx hx) hback ht hs hsucc hci horder
  | recorded k m args reply hk hb hboot ht hs =>
    have hback := h.rpcs m (List.mem_of_getElem? hk)
    rw [hb] at hback
    refine refines_recorded h (fun x hx => List.mem_of_mem_eraseIdx hx) hback ht hs ?_ horder
    exact fun hst => (hstrict hst).2 (m, args) (records_eq hk hb hboot ht hs)
  | snapshotTaken p index data e ps hrec hf he hps =>
    obtain ⟨command, t, hmem⟩ := receivedCommand_mem hrec
    have hci : index ≤ (c.raft p).commitIndex :=
      ((h.order p).received_le command index t hmem).trans (h.order p).horizon_le
    obtain ⟨S', hev, hp⟩ := (h.nodes p).peer.compact hf hci he ps
    exact ⟨A, S', h.next_setRaft hev .refl rfl rfl hp le_rfl horder
      (fun x hx => .inl hx) (by simp) (by simp), .refl⟩
  | outdated p m hrec hci =>
    exact ⟨A, S, h.next_quiet (.refl p A S) .refl rfl rfl (by simp [Event.voting]) (by simp) horder
      h.nodes hkeep, .refl⟩
  | installed p m ps hrec hci hf hps =>
    have hk := (h.nodes p).received m (receivedSnapshot_mem hrec)
    obtain ⟨A', S', hev, hi, hvote, hled, hp⟩ := (h.nodes p).peer.install h.inv hk hf hci ps
    exact ⟨A', S', h.next_setRaft hev hi hvote hled hp le_rfl horder
      (fun x hx => .inl hx) (by simp [Event.voting]) (by simp), hi⟩
  | copied p spare hw hlt hf hlen =>
    have hfirst : (c.raft p).getFirstLog.index ≤ (c.raft p).lastApplied := by
      have := (h.order p).first_le
      rwa [show (c.nodes p).raft.horizon = (c.raft p).lastApplied by
        unfold horizon; rw [hw]] at this
    exact h.unseen ((h.nodes p).peer.copy hfirst hlt spare) le_rfl horder hkeep
  | sentEntry p ci e rest happ =>
    have hp := (h.nodes p).peer
    have hdec := hp.batch ci (e :: rest) happ
    refine ⟨A, S, h.next_quiet (.refl p A S) .refl rfl rfl (by simp [Event.voting]) ?_ horder ?_
      hkeep, .refl⟩
    · intro q b command i t hmem
      cases List.mem_singleton.mp hmem
      exact hdec e List.mem_cons_self
    · refine handed_forall (fun _ _ => id) h.nodes ⟨⟨hp.term, hp.view, hp.commit, hp.leader,
        hp.candidate, hp.sends, ?_⟩, fun m hm => ?_⟩
      · intro ci' entries heq x hx
        cases heq
        exact hdec x (List.mem_cons_of_mem _ hx)
      · exact (h.nodes p).received m (by simpa using hm)
  | finished p ci happ =>
    have hp := (h.nodes p).peer
    exact h.unseen ⟨hp.term, hp.view, hp.commit, hp.leader, hp.candidate, hp.sends,
      by simp [finishBatch]⟩ le_rfl horder hkeep
  | sentSnapshot p k m hk =>
    have hp := (h.nodes p).peer
    refine ⟨A, S, h.next_quiet (.refl p A S) .refl rfl rfl (by simp [Event.voting]) (by simp) horder
      ?_ hkeep, .refl⟩
    refine handed_forall (fun _ _ => id) h.nodes ⟨⟨hp.term, hp.view, hp.commit, hp.leader,
      hp.candidate, fun x hx => hp.sends x (List.mem_of_mem_eraseIdx hx), hp.batch⟩, ?_⟩
    intro x hx
    rcases List.mem_append.mp hx with hx | hx
    · exact (h.nodes p).received x hx
    · cases List.mem_singleton.mp hx
      exact hp.sends m (List.mem_of_getElem? hk)

theorem refines_init : Refines strict (State.initial : Protocol n C) (fun _ => []) [] init where
  run := .refl
  votes v T q := by simp [State.initial, Voted, Granted, Stood]
  leaders p T := by simp [State.initial, Led]
  applied p b command i t h := by simp at h
  order := inOrder_init
  nodes p := by
    refine ⟨⟨rfl, .initial, ⟨[], .inl rfl, rfl, List.prefix_refl _, .inl rfl⟩, ?_, ?_, ?_, ?_⟩, ?_⟩
    all_goals simp [init]
  rpcs m hm := by simp [init] at hm

/-- Where the cluster simulates the protocol, it goes on to do so along every run that meets
the conditions. -/
theorem simulated_run {ok : Cluster n C → Action n C → Prop} (hc : Sound gob c)
    (hel : Elections tr c) (hr : Refines strict A S tr c)
    (hfit : ∀ c a, ok c a → MatchIndexFits c a) (hstrict : ∀ c a, ok c a → strict → RecordsFit c a)
    (h : Run (Cluster.step gob) ok c es c') :
    Elections (tr ++ es) c' ∧ Simulated strict A (tr ++ es) c' := by
  induction h with
  | refl =>
    rw [List.append_nil]
    exact ⟨hel, A, S, hr, .refl⟩
  | snoc hrun hok hstep ih =>
    obtain ⟨hel, A', S', hr', hsteps⟩ := ih
    have hm := step_moves (hc.run hrun) hstep
    obtain ⟨A'', S'', hr'', hsteps'⟩ := refines_moves (hc.run hrun) hel hr' (hfit _ _ hok)
      (hstrict _ _ hok) hm
    rw [← List.append_assoc]
    exact ⟨elections_electoral (hc.run hrun) hel (moves_electoral hm), A'', S'', hr'',
      hsteps.trans hsteps'⟩

/-- Along every run that meets the conditions the cluster simulates the protocol. -/
theorem refines_run {ok : Cluster n C → Action n C → Prop} (strict : Prop)
    (hfit : ∀ c a, ok c a → MatchIndexFits c a) (hstrict : ∀ c a, ok c a → strict → RecordsFit c a)
    (h : RunWhere gob ok tr c) : ∃ A S, Refines strict A S tr c := by
  obtain ⟨-, A, S, hr, -⟩ := simulated_run sound_init elections_init refines_init hfit hstrict h
  exact ⟨A, S, hr⟩

end Moves

end RaftImplementation
