import RaftImplementation.Raft.Refinement

/-!
# Critical sections of a represented peer

Section by section: a peer that represents a node of the abstract protocol does so
again after the section, once the protocol has taken the steps that correspond to it.
-/

namespace RaftImplementation

open Library Library.ReplicatedLog Cluster Raft

variable {n : Nat} {C : Type}

variable {strict : Prop} {A : Protocol n C} {S : Snapshots n C} {p : Fin n} {rf rf' : Raft n C}

/-- A section that touches only timers, counters or `nextIndex`. -/
theorem Represents.of_same (h : Represents strict A S p rf)
    (ht : rf'.currentTerm = rf.currentTerm) (hl : rf'.logs = rf.logs)
    (hci : rf'.commitIndex = rf.commitIndex) (hs : rf'.state = rf.state)
    (hm : rf'.matchIndex = rf.matchIndex) (hsend : rf'.snapshotSends = rf.snapshotSends)
    (happ : rf'.applier = rf.applier) : Represents strict A S p rf' where
  term := ht ▸ h.term
  view := hl ▸ h.view
  commit := by
    rw [ht, hci]
    exact h.commit
  leader hlead := by
    rw [ht, hci, hm]
    exact h.leader (hs ▸ hlead)
  candidate hcand := by
    rw [ht]
    exact h.candidate (hs ▸ hcand)
  sends := by
    rw [hsend, ht]
    exact h.sends
  batch := by
    rw [happ]
    exact h.batch

/-- A peer that follows in term `t`. -/
theorem Represents.bump (h : Represents strict A S p rf) {t : Nat} (hle : rf.currentTerm ≤ t)
    (ht : rf'.currentTerm = t) (hl : rf'.logs = rf.logs)
    (hci : rf'.commitIndex = rf.commitIndex) (hs : rf'.state = .follower)
    (hsend : ∀ m ∈ rf'.snapshotSends, m ∈ rf.snapshotSends ∨
      KnownAt A t m.snapshotIndex m.snapshotTerm)
    (happ : rf'.applier = rf.applier) : Represents strict (A.bump p t) S p rf' where
  term := by simp [ht]
  view := by
    rw [hl]
    exact h.view
  commit := by
    obtain ⟨K, hK, hshow⟩ := h.commit
    rw [ht, hci]
    exact ⟨K, hK.le hle, hshow⟩
  leader hlead := by simp [hs] at hlead
  candidate hcand := by simp [hs] at hcand
  sends m hm := by
    rw [ht]
    rcases hsend m hm with hm | hm
    · exact (h.sends m hm).le hle
    · exact hm
  batch := by
    rw [happ]
    exact h.batch

/-- What the snapshot of a peer covers is known to it. -/
theorem Represents.snap_known (h : Represents strict A S p rf) :
    Known A (S p) rf.currentTerm := by
  obtain ⟨K, hK, _, hpre, _⟩ := h.commit
  exact hK.shorten hpre

theorem Represents.snap_le_commit (h : Represents strict A S p rf) :
    (S p).length ≤ rf.commitIndex := by
  obtain ⟨K, _, hlen, hpre, _⟩ := h.commit
  exact hlen ▸ hpre.length_le

/-- A peer that comes back from its persister. -/
theorem Represents.restart (h : Represents strict A S p rf) :
    Represents strict A S p (fresh p rf.persister rf.currentTerm rf.votedFor rf.logs) where
  term := h.term
  view := h.view
  commit := by
    refine ⟨S p, h.snap_known, ?_, List.prefix_refl _, .inl rfl⟩
    exact h.view.first_index.symm
  leader hlead := by simp at hlead
  candidate hcand := by simp at hcand
  sends := by simp
  batch := by simp

/-- A peer that stands for the next term. -/
theorem Represents.stand (h : Represents strict A S p rf) (et : Timer) (ps : Persister) :
    Represents strict (A.stand p (rf.currentTerm + 1)) S p (rf.standing et ps) where
  term := by simp
  view := h.view
  commit := by
    obtain ⟨K, hK, hshow⟩ := h.commit
    exact ⟨K, hK.le (Nat.le_succ _), hshow⟩
  leader hlead := by simp at hlead
  candidate _ := ⟨.inr ⟨rfl, rfl, rfl⟩, .inl (by simp)⟩
  sends m hm := (h.sends m hm).le (Nat.le_succ _)
  batch := h.batch

/-- A leader's snapshot is part of its history. -/
theorem Represents.leader_clean (hi : Inv A) (h : Represents strict A S p rf)
    (hs : rf.state = .leader) : S p <+: A.log p := by
  rw [(h.leader hs).front]
  exact h.snap_known.prefix_front hi (h.leader hs).led

/-- What a leader has committed is part of its history. -/
theorem Represents.leader_committed (hi : Inv A) (h : Represents strict A S p rf)
    (hs : rf.state = .leader) :
    ∃ K, Known A K rf.currentTerm ∧ K.length = rf.commitIndex ∧ K <+: A.log p := by
  obtain ⟨K, hK, hlen, _, hshow⟩ := h.commit
  refine ⟨K, hK, hlen, ?_⟩
  rcases hshow with rfl | hpre
  · exact h.leader_clean hi hs
  · exact hpre

theorem Represents.append (h : Represents strict A S p rf) (hs : rf.state = .leader)
    (hme : rf.me = p) (command : Option C) (ps : Persister) :
    Represents strict (A.append p rf.currentTerm command) S p (rf.appending command ps) := by
  have hl := h.leader hs
  have hlog : (A.append p rf.currentTerm command).log p =
      A.log p ++ [(rf.currentTerm, command)] := by simp [hl.front]
  refine ⟨h.term, ?_, ?_, ?_, ?_, h.sends, h.batch⟩
  · rw [hlog]
    exact h.view.append
  · obtain ⟨K, hK, hlen, hpre, hshow⟩ := h.commit
    refine ⟨K, hK, hlen, hpre, hshow.imp_right fun hpre => ?_⟩
    rw [hlog]
    exact hpre.trans (List.prefix_append _ _)
  · intro _
    refine ⟨hl.led, by simp, hl.decided_le, ?_, ?_⟩
    · intro q hq
      rw [appending_matchIndex, hme, Function.update_of_ne hq]
      exact hl.matched q hq
    · intro hst q hq
      rw [appending_matchIndex, hme, Function.update_of_ne hq]
      exact hl.confirmed hst q hq
  · intro hcand
    rw [appending_state, hs] at hcand
    cases hcand

/-! ## A successful `AppendEntries` -/

section Accept

variable {args : AppendEntriesArgs n C} {H X : History (Option C)} {ℓ : Fin n}
variable (hi : Inv A) (h : Represents strict A S p rf) (hr : Request A args H)
variable (hl : A.led ℓ args.term) (hle : rf.currentTerm ≤ args.term)
include hi h hr hl hle

/-- The commit index moves on to that of the leader, within the history it sent. -/
theorem Represents.accept_commit (hX : X = A.log p ∧ H <+: A.log p ∨
      X = H ∧ A.win args.term <+: H ∧ ¬ H <+: A.log p) :
    ∃ K, Known A K args.term ∧ K.length = max rf.commitIndex (min args.leaderCommit X.length) ∧
      S p <+: K ∧ (S p = K ∨ K <+: X) := by
  have hHX : H <+: X := by
    rcases hX with ⟨rfl, hpre⟩ | ⟨rfl, _⟩
    · exact hpre
    · exact List.prefix_refl _
  have hcommit := hr.commit_le
  have hHXlen := hHX.length_le
  by_cases hold : args.leaderCommit ≤ rf.commitIndex
  · obtain ⟨K, hK, hlen, hpre, hshow⟩ := h.commit
    refine ⟨K, hK.le hle, by omega, hpre, hshow.imp_right fun hKlog => ?_⟩
    rcases hX with ⟨rfl, _⟩ | ⟨rfl, _, hno⟩
    · exact hKlog
    · -- the leader has what was known, so what it sent does not cut it
      have hfront := (hK.le hle).prefix_front hi hl
      rcases Nat.le_total K.length X.length with hlen' | hlen'
      · exact List.prefix_of_prefix_length_le hfront hr.front hlen'
      · exact absurd ((List.prefix_of_prefix_length_le hr.front hfront hlen').trans hKlog) hno
  · have hlen : (H.take args.leaderCommit).length = args.leaderCommit :=
      List.length_take_of_le hcommit
    have hsnap := h.snap_le_commit
    refine ⟨H.take args.leaderCommit, hr.commit, by omega, ?_, ?_⟩
    · exact h.snap_known.prefix_of_le hi hr.commit (by omega)
    · exact .inr (( List.take_prefix _ _).trans hHX)

theorem Represents.accept_follow (v : Option (Fin n)) (et : Timer) (ps : Persister)
    (hv : View (S p) X (rf.accepting args v et ps).logs)
    (hX : X = A.log p ∧ H <+: A.log p ∨ X = H ∧ A.win args.term <+: H ∧ ¬ H <+: A.log p) :
    Represents strict ((A.bump p args.term).follow p args.term H.length X) S p
      (rf.accepting args v et ps) where
  term := by simp
  view := by simpa using hv
  commit := by
    obtain ⟨K, hK, hlen, hpre, hshow⟩ := h.accept_commit hi hr hl hle hX
    refine ⟨K, hK, ?_, hpre, by simpa using hshow⟩
    rw [hlen, accepting_commitIndex, ← hv.last.1]
    rfl
  leader hlead := by simp at hlead
  candidate hcand := by simp at hcand
  sends m hm := (h.sends m hm).le hle
  batch := h.batch

omit hi hl in
/-- The whole history of the leader is the snapshot of the peer: nothing changes. -/
theorem Represents.accept_snapshot (v : Option (Fin n)) (et : Timer) (ps : Persister)
    (heq : H = S p) (hlogs : (rf.accepting args v et ps).logs = rf.logs) :
    Represents strict (A.bump p args.term) S p (rf.accepting args v et ps) := by
  refine h.bump hle rfl hlogs ?_ rfl (fun m hm => .inl hm) rfl
  have hcommit := hr.commit_le
  have hsnap := h.snap_le_commit
  rw [heq] at hcommit
  rw [accepting_commitIndex]
  omega

theorem Represents.accept (hf : rf.getFirstLog.index ≤ args.prevLogIndex)
    (hprev : rf.logs[args.prevLogIndex - rf.getFirstLog.index]?.map LogEntry.term =
      some args.prevLogTerm) (v : Option (Fin n)) (et : Timer) (ps : Persister) :
    ∃ A', Evolves p A S A' S ∧ Steps A A' ∧ A'.vote = A.vote ∧ A'.led = A.led ∧
      Represents strict A' S p (rf.accepting args v et ps) ∧
      Justified A' args.term p H.length ∧ Confirmed A' S args.term p H.length := by
  have hterm : A.term p ≤ args.term := h.term ▸ hle
  have hb : Evolves p A S (A.bump p args.term) S := .bump S hterm
  have hbs : Steps A (A.bump p args.term) := .single (.bump p args.term hterm)
  have hfollow : ∀ X, View (S p) X (rf.accepting args v et ps).logs →
      (X = A.log p ∧ H <+: A.log p ∨ X = H ∧ A.win args.term <+: H ∧ ¬ H <+: A.log p) →
      ∃ A', Evolves p A S A' S ∧ Steps A A' ∧ A'.vote = A.vote ∧ A'.led = A.led ∧
        Represents strict A' S p (rf.accepting args v et ps) ∧
        Justified A' args.term p H.length ∧ Confirmed A' S args.term p H.length := by
    intro X hv hX
    have hack : ((A.bump p args.term).follow p args.term H.length X).ack p args.term H.length :=
      .inr ⟨rfl, rfl, rfl⟩
    exact ⟨_, hb.trans (.follow S _ _ X),
      hbs.tail (.follow p _ _ H X (by simp) hl hr.front hX), rfl, rfl,
      h.accept_follow hi hr hl hle v et ps hv hX, .inr (.inr ⟨_, le_rfl, hack⟩),
      .inr (.inr ⟨_, le_rfl, hack⟩)⟩
  have hH : H ∈ A.made := hi.tree.past _ (hi.front_mem _) H hr.front
  have hlogs : (rf.accepting args v et ps).logs =
      spliced (S p).length rf.logs args.entries := by
    rw [accepting_logs, h.view.first_index]
  rw [h.view.first_index] at hf hprev
  rcases h.view.splice hi.tree (hi.log_mem p) (h.snap_known.mem hi) hH hr.carries hf hprev with
    ⟨hpre, hsame⟩ | ⟨hno, hv⟩ | ⟨heq, hsame⟩
  · exact hfollow (A.log p) (by rw [hlogs, hsame]; exact h.view) (.inl ⟨rfl, hpre⟩)
  · exact hfollow H (by rw [hlogs]; exact hv) (.inr ⟨rfl, hr.win, hno⟩)
  · refine ⟨A.bump p args.term, hb, hbs, rfl, rfl,
      h.accept_snapshot hr hle v et ps heq (hlogs.trans hsame), ?_, ?_⟩
    · rw [heq]
      exact (h.snap_known.le hle).justified hi hl p
    · exact .inr (.inl (by rw [heq]))

end Accept

/-! ## Elections and commits -/

/-- A candidate with a majority of votes has the history it stood with: a snapshot that
replaced it covers no more than that. -/
theorem Candidacy.log_eq_bid (hi : Inv A) {T : Nat} (hc : Candidacy A p T)
    (hv : Majority fun v => A.vote v T p) (hnew : ∀ q, ¬ A.led q T) :
    A.log p = A.bid p T := by
  rcases hc.log with heq | ⟨⟨D, hD, hpre, hle⟩, hlen⟩
  · exact heq
  · obtain ⟨hne, hmem, _⟩ := hi.decided_mem D hD
    have hlt : lastTerm D < T := hle.lt_of_ne (hi.not_made_of_unled hnew hmem hne)
    have hbid := hi.decided_prefix_bid hv hD hlt
    have h₁ := hpre.length_le
    have h₂ := hbid.length_le
    rw [hpre.eq_of_length (by omega), hbid.eq_of_length (by omega)]

theorem Represents.lead (hi : Inv A) (h : Represents strict A S p rf)
    (hnew : ∀ q, ¬ A.led q rf.currentTerm)
    (hfit : ∀ q, q ≠ p → rf.matchIndex q ≤ rf.getLastLog.index)
    (hzero : strict → ∀ q, q ≠ p → rf.matchIndex q = 0) (et : Timer) :
    Represents strict (A.lead p rf.currentTerm) S p (rf.leading et) := by
  refine ⟨h.term, h.view, h.commit, ?_, ?_, h.sends, h.batch⟩
  · intro _
    refine ⟨.inr ⟨rfl, rfl⟩, by simp, ?_, ?_, ?_⟩
    · intro D hD hT
      obtain ⟨hne, hmem, _⟩ := hi.decided_mem D hD
      exact absurd hT (hi.not_made_of_unled hnew hmem hne)
    · intro q hq
      left
      have := hfit q hq
      rw [h.view.last.1] at this
      simpa using this
    · intro hst q hq
      refine .inr (.inl ?_)
      rw [leading_matchIndex, hzero hst q hq]
      exact Nat.zero_le _
  · intro hcand
    simp at hcand

theorem Represents.matched (h : Represents strict A S p rf) (hs : rf.state = .leader)
    {q : Fin n} {m : Nat} (hj : Justified A rf.currentTerm q m)
    (hc : strict → Confirmed A S rf.currentTerm q m) :
    Represents strict A S p (rf.matched q m) := by
  have hl := h.leader hs
  refine ⟨h.term, h.view, h.commit, ?_, ?_, h.sends, h.batch⟩
  · intro _
    refine ⟨hl.led, hl.front, hl.decided_le, ?_, ?_⟩
    · intro r hr
      by_cases hrq : r = q
      · subst hrq
        simpa using hj
      · simpa [hrq] using hl.matched r hr
    · intro hst r hr
      by_cases hrq : r = q
      · subst hrq
        simpa using hc hst
      · simpa [hrq] using hl.confirmed hst r hr
  · intro hcand
    rw [matched_state, hs] at hcand
    cases hcand

/-- The entries up to the quorum index are held by a majority, if the last of them is of
the leader's term. -/
theorem Represents.advance_held (hi : Inv A) (h : Represents strict A S p rf)
    (hs : rf.state = .leader) {ci : Nat} (hadv : rf.Advanced ci) :
    ci ≤ (A.log p).length ∧ lastTerm ((A.log p).take ci) = rf.currentTerm ∧
      Majority fun v => A.Holds v ((A.log p).take ci) := by
  have hl := h.leader hs
  have hsnap := h.snap_le_commit
  have habove := hadv.above
  have hown := hadv.own_term
  rw [h.view.first_index] at hown
  obtain ⟨hci, hterm⟩ := (h.view.term_iff (by omega)).mp hown
  refine ⟨hci, hterm, ?_⟩
  have hlen : ((A.log p).take ci).length = ci := List.length_take_of_le hci
  have hpre : (A.log p).take ci <+: A.front rf.currentTerm := hl.front ▸ List.take_prefix _ _
  refine (majority_of_rank rf.matchIndex hadv.quorum).mono fun v hv => ?_
  by_cases hvp : v = p
  · subst hvp
    right
    rw [hterm]
    exact hl.led
  · rcases hl.matched v hvp with hwin | ⟨D, hD, hT, hm⟩ | ⟨i, hm, hack⟩
    · -- what the leader had when it won is of earlier terms
      exfalso
      have hwinpre : (A.log p).take ci <+: A.win rf.currentTerm :=
        List.prefix_of_prefix_length_le hpre (hi.win_front _) (by omega)
      have hmem : A.win rf.currentTerm ∈ A.made :=
        hi.tree.past _ (hi.front_mem _) _ (hi.win_front _)
      have h₁ := hi.sorted _ hmem _ hwinpre
      have h₂ := hi.win_term p _ hl.led
      omega
    · exfalso
      have := hl.decided_le D hD hT
      omega
    · left
      rw [hterm]
      exact ⟨i, by omega, hack⟩

theorem Represents.advance (hi : Inv A) (h : Represents strict A S p rf)
    (hs : rf.state = .leader) {ci : Nat} (hadv : rf.Advanced ci) :
    ∃ A', Evolves p A S A' S ∧ Steps A A' ∧ A'.vote = A.vote ∧ A'.led = A.led ∧
      Represents strict A' S p (rf.committing ci) := by
  have hl := h.leader hs
  have habove := hadv.above
  have hsnap := h.snap_le_commit
  obtain ⟨hci, hterm, hmaj⟩ := h.advance_held hi hs hadv
  have hlen : ((A.log p).take ci).length = ci := List.length_take_of_le hci
  have hne : (A.log p).take ci ≠ [] := by
    intro hnil
    rw [hnil, List.length_nil] at hlen
    omega
  have hfront : (A.log p).take ci <+: A.front (lastTerm ((A.log p).take ci)) := by
    rw [hterm, ← hl.front]
    exact List.take_prefix _ _
  have he : Evolves p A S (A.decide ((A.log p).take ci)) S := by
    refine .decide S ?_
    rw [hterm]
    exact hl.led
  have hstep : Step A (A.decide ((A.log p).take ci)) := .decide _ hne hfront hmaj
  have hknown : Known (A.decide ((A.log p).take ci)) ((A.log p).take ci) rf.currentTerm :=
    .inr ⟨_, .inl rfl, List.prefix_refl _, hterm.le⟩
  refine ⟨_, he, .single hstep, rfl, rfl, h.term, h.view, ?_, ?_, ?_, ?_, ?_⟩
  · refine ⟨_, hknown, hlen, ?_, .inr ( List.take_prefix _ _)⟩
    exact (h.snap_known.mono he).prefix_of_le (inv_step hi hstep) hknown (by omega)
  · intro _
    refine ⟨hl.led, hl.front, ?_, ?_, ?_⟩
    · rintro D (rfl | hD) hT
      · exact hlen.le
      · exact (hl.decided_le D hD hT).trans habove.le
    · exact fun q hq => (hl.matched q hq).mono he hl.led
    · exact fun hst q hq => (hl.confirmed hst q hq).mono he
  · intro hcand
    rw [committing_state, hs] at hcand
    cases hcand
  · exact fun m hm => (h.sends m hm).mono he
  · exact fun ci' entries happ e hmem => (h.batch ci' entries happ e hmem).mono he

/-! ## Snapshots and the applier -/

theorem Represents.compact (h : Represents strict A S p rf) {i : Nat} {e : LogEntry C}
    (hf : rf.getFirstLog.index < i) (hci : i ≤ rf.commitIndex)
    (hget : rf.logs[i - rf.getFirstLog.index]? = some e) (ps : Persister) :
    ∃ S', Evolves p A S A S' ∧ Represents strict A S' p (rf.compacting e.term i ps) := by
  have hterm : rf.logs[i - rf.getFirstLog.index]?.map LogEntry.term = some e.term := by
    simp [hget]
  rw [h.view.first_index] at hf hterm
  obtain ⟨hlen, hlast⟩ := (h.view.term_iff hf).mp hterm
  have hl : ((A.log p).take i).length = i := List.length_take_of_le hlen
  have he : Evolves p A S A (Function.update S p ((A.log p).take i)) :=
    .snapshot S (by omega)
  have hsnap : Function.update S p ((A.log p).take i) p = (A.log p).take i :=
    Function.update_self ..
  refine ⟨_, he, h.term, ?_, ?_, ?_, h.candidate, h.sends, h.batch⟩
  · rw [hsnap, compacting_logs, ← hlast]
    exact h.view.compact hf.le hlen
  · obtain ⟨K, hK, hKlen, hpre, hshow⟩ := h.commit
    have hKlog : K <+: A.log p := by
      rcases hshow with rfl | hKlog
      · omega
      · exact hKlog
    refine ⟨K, hK, hKlen, ?_, .inr hKlog⟩
    rw [hsnap]
    exact List.prefix_of_prefix_length_le ( List.take_prefix _ _) hKlog (by omega)
  · intro hs
    have hl := h.leader hs
    exact ⟨hl.led, hl.front, hl.decided_le, hl.matched,
      fun hst q hq => (hl.confirmed hst q hq).mono he⟩

/-- A snapshot is installed: it replaces a history that is no longer, and otherwise hides
the part of the history that it covers. -/
theorem Represents.install (hi : Inv A) (h : Represents strict A S p rf) {t i : Nat}
    (hG : KnownAt A rf.currentTerm i t) (hf : rf.getFirstLog.index ≤ i)
    (hci : rf.commitIndex < i) (ps : Persister) :
    ∃ A' S', Evolves p A S A' S' ∧ Steps A A' ∧ A'.vote = A.vote ∧ A'.led = A.led ∧
      Represents strict A' S' p (rf.installed t i ps) := by
  obtain ⟨G, hG, rfl, rfl⟩ := hG
  rw [h.view.first_index] at hf
  have hset : A.Settled G rf.currentTerm := by
    rcases hG with rfl | hset
    · simp at hci
    · exact hset
  have hsnap : Function.update S p G p = G := Function.update_self ..
  have hview := h.view.install hf
  have hes : Evolves p A S A (Function.update S p G) := .snapshot S hf
  -- a leader's history contains the snapshot, so it is not replaced
  have hlead : rf.state = .leader → (A.log p).length ≤ G.length → G = A.log p := by
    intro hs hle
    have hfront := hG.prefix_front hi (h.leader hs).led
    rw [← (h.leader hs).front] at hfront
    exact hfront.eq_of_length_le hle
  by_cases hle : (A.log p).length ≤ G.length
  · rw [if_pos hle] at hview
    have hlog : (A.install p G).log p = G := by simp
    have he : Evolves p A S (A.install p G) (Function.update S p G) :=
      (Evolves.install S G).trans (.snapshot S hf)
    refine ⟨_, _, he, .single (.install p G (by rwa [h.term]) hle), rfl, rfl, h.term, ?_, ?_, ?_, ?_,
      h.sends, h.batch⟩
    · rw [hsnap, hlog]
      exact hview
    · exact ⟨G, hG, rfl, by rw [hsnap], .inl hsnap⟩
    · intro hs
      have hl := h.leader hs
      refine ⟨hl.led, ?_, ?_, hl.matched, fun hst q hq => (hl.confirmed hst q hq).mono he⟩
      · rw [hlog, hlead hs hle]
        exact hl.front
      · exact fun D hD hT => (hl.decided_le D hD hT).trans hci.le
    · intro hs
      obtain ⟨hstood, hbid⟩ := h.candidate hs
      refine ⟨hstood, .inr ?_⟩
      rw [hlog]
      refine ⟨hset, ?_⟩
      rcases hbid with heq | ⟨_, hlen⟩
      · rw [State.install_bid, installed_currentTerm, ← heq]
        exact hle
      · exact hlen.trans hle
  · rw [if_neg hle] at hview
    refine ⟨A, _, hes, .refl, rfl, rfl, h.term, ?_, ?_, ?_, h.candidate, h.sends, h.batch⟩
    · rw [hsnap]
      exact hview
    · exact ⟨G, hG, rfl, by rw [hsnap], .inl hsnap⟩
    · intro hs
      have hl := h.leader hs
      refine ⟨hl.led, hl.front, ?_, hl.matched,
        fun hst q hq => (hl.confirmed hst q hq).mono hes⟩
      exact fun D hD hT => (hl.decided_le D hD hT).trans hci.le

/-- The entries of a batch are the committed entries behind `lastApplied`. -/
theorem Represents.batch_decided (h : Represents strict A S p rf)
    (hfirst : rf.getFirstLog.index ≤ rf.lastApplied) (hlt : rf.lastApplied < rf.commitIndex)
    {spare : List (LogEntry C)} {e : LogEntry C} (he : e ∈ rf.batch spare) :
    DecidedEntry A e := by
  have hlast := h.commit_le_last
  rw [h.view.last.1] at hlast
  rw [h.view.first_index] at hfirst
  have hlen := h.view.length
  rw [Raft.batch, h.view.first_index, List.take_append_of_le_length (by omega)] at he
  obtain ⟨k, hk⟩ := List.mem_iff_getElem?.mp he
  rw [List.getElem?_drop, List.getElem?_take] at hk
  split at hk
  · rename_i hlt'
    obtain ⟨i, hi⟩ : ∃ i, rf.lastApplied + 1 - (S p).length + k = i - (S p).length ∧
        (S p).length < i ∧ i ≤ rf.commitIndex := ⟨rf.lastApplied + 1 + k, by omega⟩
    rw [hi.1, h.view.get hi.2.1] at hk
    obtain ⟨x, hx, rfl⟩ := Option.map_eq_some_iff.mp hk
    obtain ⟨K, hK, hKlen, _, hshow⟩ := h.commit
    -- the batch is not empty, so the committed history goes beyond the snapshot
    have hKlog : K <+: A.log p := by
      rcases hshow with heq | hKlog
      · rw [heq] at hfirst
        omega
      · exact hKlog
    rcases hK with rfl | ⟨D, hD, hKD, _⟩
    · rw [List.length_nil] at hKlen
      omega
    · refine ⟨D, hD, by dsimp only; omega, ?_⟩
      obtain ⟨Y, hY⟩ := hKlog
      obtain ⟨Z, rfl⟩ := hKD
      rw [← hY, List.getElem?_append_left (by omega)] at hx
      dsimp only
      rw [List.getElem?_append_left (by omega), hx]
  · simp at hk

theorem Represents.copy (h : Represents strict A S p rf)
    (hfirst : rf.getFirstLog.index ≤ rf.lastApplied) (hlt : rf.lastApplied < rf.commitIndex)
    (spare : List (LogEntry C)) :
    Represents strict A S p (rf.sending rf.commitIndex (rf.batch spare)) := by
  refine ⟨h.term, h.view, h.commit, h.leader, h.candidate, h.sends, ?_⟩
  intro ci entries heq e he
  cases heq
  exact h.batch_decided hfirst hlt he

end RaftImplementation
