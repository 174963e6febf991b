import Mathlib.Data.Prod.Lex
import RaftImplementation.Raft.Elections

/-!
# The election restriction

A victory rests on votes that were each counted once, and a vote on a comparison of
logs made when it was granted: the log of the voter at that moment against the log
its candidate had when it started the election, however late the request arrives.
The steps of the run give both moments.
-/

namespace RaftImplementation

open Library Cluster Raft

variable {n : Nat} {C : Type}

/-- By `(Term, Index)`, the last entry of `rf` is at most the last entry of `rf'`. -/
def NotNewer (rf rf' : Raft n C) : Prop :=
  toLex (rf.getLastLog.term, rf.getLastLog.index) ≤
    toLex (rf'.getLastLog.term, rf'.getLastLog.index)

/-- The persister holds the vote of term `T` for `q`. -/
def VotedDurably (gob : Gob n C) (rf : Raft n C) (T : Nat) (q : Fin n) : Prop :=
  ∃ l, durable gob rf.persister = some (T, some q, l)

/-- The voters whose votes of term `T` candidate `p` has counted, in order. -/
def countedVotes (p : Fin n) (T : Nat) (tr : List (Event n C)) : List (Fin n) :=
  tr.filterMap fun
    | .count q S v => if q = p ∧ S = T then some v else none
    | _ => none

variable {gob : Gob n C} {c c' : Cluster n C} {a : Action n C} {tr es : List (Event n C)}

/-! ## The two moments -/

theorem Raft.isLogUpToDate_iff (rf : Raft n C) (index term : Nat) :
    rf.isLogUpToDate index term = true ↔
      toLex (rf.getLastLog.term, rf.getLastLog.index) ≤ toLex (term, index) := by
  rw [Prod.Lex.toLex_le_toLex]
  simp only [isLogUpToDate, Bool.or_eq_true, Bool.and_eq_true, decide_eq_true_eq]
  omega

/-- A candidacy, as the step that begins it sees it. -/
structure StandsAt (gob : Gob n C) (c c' : Cluster n C) (p : Fin n) (T lt li : Nat) : Prop where
  term : T = (c.raft p).currentTerm + 1
  lastTerm : lt = (c.raft p).getLastLog.term
  lastIndex : li = (c.raft p).getLastLog.index
  durable : VotedDurably gob (c'.raft p) T p

theorem moves_stands (hc : Sound gob c) (h : Moves gob c a c' es) {p : Fin n} {T lt li : Nat}
    (hmem : Event.stand p T lt li ∈ es) : StandsAt gob c c' p T lt li := by
  cases h with
  | stand q et ps hps =>
    simp only [List.mem_singleton, Event.stand.injEq] at hmem
    obtain ⟨rfl, rfl, rfl, rfl⟩ := hmem
    rw [hc.me p] at hps
    constructor
    · rfl
    · rfl
    · rfl
    · exact ⟨_, by rw [setRaft_raft_self]; exact hps⟩
  | voteHandled k m args rf reply =>
    split at hmem
    · simp at hmem
    · simp at hmem
  | _ => simp at hmem

/-- A vote, as the step that grants it sees it: the request is under way, and the log of
the voter is not newer than the log the request speaks of. -/
structure GrantsAt (gob : Gob n C) (c c' : Cluster n C) (v : Fin n) (T : Nat) (q : Fin n) :
    Prop where
  durable : VotedDurably gob (c'.raft v) T q
  request : ∃ m ∈ c.rpcs, ∃ args, m.body = .requestVote args ∧ args.term = T ∧
    args.candidateId = q ∧ toLex ((c.raft v).getLastLog.term, (c.raft v).getLastLog.index) ≤
      toLex (args.lastLogTerm, args.lastLogIndex)

theorem moves_grants (h : Moves gob c a c' es) {v q : Fin n} {T lt li : Nat}
    (hmem : Event.grant v T q lt li ∈ es) : GrantsAt gob c c' v T q := by
  cases h with
  | voteHandled k m args rf reply hm hb hh =>
    split at hmem
    · rename_i hgranted
      simp only [List.mem_singleton, Event.grant.injEq] at hmem
      obtain ⟨rfl, rfl, rfl, -, -⟩ := hmem
      cases hh with
      | refused => simp at hgranted
      | behind et ps ht hps => simp at hgranted
      | granted st et ps ht hst hst' hv hup hps =>
        constructor
        · exact ⟨_, by rw [setRaft_raft_self]; exact hps⟩
        · exact ⟨m, List.mem_of_getElem? hm, args, hb, rfl, rfl,
            ((c.raft m.callee).isLogUpToDate_iff _ _).mp hup⟩
    · simp at hmem
  | _ => simp at hmem

/-- A peer stands at most once in a term, so a candidacy has one log. -/
def StandsOnce (tr : List (Event n C)) : Prop :=
  ∀ p T lt li lt' li', Event.stand p T lt li ∈ tr → Event.stand p T lt' li' ∈ tr →
    lt = lt' ∧ li = li'

theorem standsOnce_moves (hc : Sound gob c) (he : Elections tr c) (ho : StandsOnce tr)
    (h : Moves gob c a c' es) : StandsOnce (tr ++ es) := by
  -- a candidacy that begins is of a term its peer has not reached before
  have hfresh : ∀ p T lt li lt' li', Event.stand p T lt li ∈ tr →
      Event.stand p T lt' li' ∉ es := by
    intro p T lt li lt' li' hold hnew
    have hle := he.voted_le p T p (Stood.voted ⟨lt, li, hold⟩)
    have hterm := (moves_stands hc h hnew).term
    omega
  intro p T lt li lt' li' hmem hmem'
  cases List.mem_append.mp hmem with
  | inl hold =>
    cases List.mem_append.mp hmem' with
    | inl hold' => exact ho p T lt li lt' li' hold hold'
    | inr hnew' => exact absurd hnew' (hfresh p T lt li lt' li' hold)
  | inr hnew =>
    cases List.mem_append.mp hmem' with
    | inl hold' => exact absurd hnew (hfresh p T lt' li' lt li hold')
    | inr hnew' =>
      have hst := moves_stands hc h hnew
      have hst' := moves_stands hc h hnew'
      exact ⟨hst.lastTerm.trans hst'.lastTerm.symm, hst.lastIndex.trans hst'.lastIndex.symm⟩

theorem standsOnce_run {ok : Cluster n C → Action n C → Prop} (h : RunWhere gob ok tr c) :
    StandsOnce tr := by
  induction h with
  | refl => simp [StandsOnce]
  | snoc h hok hstep ih =>
    exact standsOnce_moves (sound_run h) (elections_run h) ih (step_moves (sound_run h) hstep)

/-! ## Votes are counted once -/

theorem mem_countedVotes {p v : Fin n} {T : Nat} : v ∈ countedVotes p T tr ↔ Counted tr p T v := by
  unfold countedVotes Counted
  rw [List.mem_filterMap]
  constructor
  · rintro ⟨e, he, hv⟩
    cases e with
    | count q S u =>
      simp only [Option.ite_none_right_eq_some, Option.some.injEq] at hv
      obtain ⟨⟨rfl, rfl⟩, rfl⟩ := hv
      exact he
    | _ => simp at hv
  · intro h
    exact ⟨_, h, by simp⟩

theorem countedVotes_append (p : Fin n) (T : Nat) (tr es : List (Event n C)) :
    countedVotes p T (tr ++ es) = countedVotes p T tr ++ countedVotes p T es := by
  simp [countedVotes]

theorem countedVotes_silent {p : Fin n} {T : Nat} (h : ∀ v, Event.count p T v ∉ es) :
    countedVotes p T (tr ++ es) = countedVotes p T tr := by
  have hnil : countedVotes p T es = [] := by
    rw [List.eq_nil_iff_forall_not_mem]
    intro v hv
    exact h v (mem_countedVotes.mp hv)
  rw [countedVotes_append, hnil, List.append_nil]

/-- No vote is counted twice, and the tally of a candidate is its own vote and the votes
it has counted. -/
structure Tally (tr : List (Event n C)) (c : Cluster n C) : Prop where
  nodup : ∀ p T, (countedVotes p T tr).Nodup
  exact : ∀ p, (c.raft p).state = .candidate →
    (c.raft p).grantedVotes = 1 + (countedVotes p (c.raft p).currentTerm tr).length

theorem tally_init : Tally ([] : List (Event n C)) init where
  nodup p T := by simp [countedVotes]
  exact p h := by simp [init] at h

/-- Where no vote is counted, the tallies have to be looked at only. -/
theorem Tally.silent (ht : Tally tr c) (hes : ∀ p T v, Event.count p T v ∉ es)
    (hexact : ∀ p, (c'.raft p).state = .candidate →
      (c'.raft p).grantedVotes = 1 + (countedVotes p (c'.raft p).currentTerm tr).length) :
    Tally (tr ++ es) c' := by
  constructor
  · intro p T
    rw [countedVotes_silent (hes p T)]
    exact ht.nodup p T
  · intro p hs
    rw [countedVotes_silent (hes p _)]
    exact hexact p hs

/-- A step that counts the vote of `u` for `p`, where it was not counted before. -/
theorem Tally.count (ht : Tally tr c) {p u : Fin n} {rpcs : List (Rpc n C)} {rf : Raft n C}
    {S : Nat} (hnew : ¬ Counted tr p S u)
    (hes : ∀ q T, countedVotes q T es = if p = q ∧ S = T then [u] else [])
    (hexact : rf.state = .candidate →
      rf.grantedVotes = 1 + (countedVotes p rf.currentTerm (tr ++ es)).length) :
    Tally (tr ++ es) ((c.setRpcs rpcs).setRaft p rf) := by
  constructor
  · intro q T
    rw [countedVotes_append, hes q T]
    split
    · rename_i heq
      obtain ⟨rfl, rfl⟩ := heq
      rw [← List.concat_eq_append]
      exact (ht.nodup p S).concat (mt mem_countedVotes.mp hnew)
    · rw [List.append_nil]
      exact ht.nodup q T
  · intro q hq
    by_cases hqp : q = p
    · subst hqp
      rw [setRaft_raft_self] at hq ⊢
      exact hexact hq
    · rw [setRaft_raft_ne _ p _ hqp] at hq ⊢
      rw [countedVotes_append, hes, if_neg fun h => hqp h.1.symm, List.append_nil]
      exact ht.exact q hq

theorem tally_stand (he : Elections tr c) (ht : Tally tr c) (p : Fin n) (et : Timer)
    (ps : Persister) (rpcs : List (Rpc n C)) (lt li : Nat) :
    Tally (tr ++ [.stand p ((c.raft p).currentTerm + 1) lt li])
      ((c.setRpcs rpcs).setRaft p ((c.raft p).standing et ps)) := by
  apply ht.silent
  · simp
  · intro q hs
    by_cases hq : q = p
    · subst hq
      rw [setRaft_raft_self]
      have hnone : countedVotes q ((c.raft q).currentTerm + 1) tr = [] := by
        rw [List.eq_nil_iff_forall_not_mem]
        intro v hv
        have hstood := (he.counted q _ v (mem_countedVotes.mp hv)).1
        have hle := he.voted_le q _ q hstood.voted
        omega
      simp [hnone]
    · rw [setRaft_raft_ne _ p _ hq] at hs ⊢
      exact ht.exact q hs

theorem tally_granted (ht : Tally tr c) {v r : Fin n} {T : Nat} {st : NodeState} {et : Timer}
    {ps : Persister} {rpcs : List (Rpc n C)} {lt li : Nat}
    (hterm : (c.raft v).currentTerm ≤ T)
    (hst : (c.raft v).currentTerm = T → st = (c.raft v).state)
    (hst' : (c.raft v).currentTerm < T → st = .follower) :
    Tally (tr ++ [.grant v T r lt li])
      ((c.setRpcs rpcs).setRaft v ((c.raft v).granting T r st et ps)) := by
  apply ht.silent
  · simp
  · intro q hs
    by_cases hq : q = v
    · subst hq
      rw [setRaft_raft_self] at hs ⊢
      cases Nat.lt_or_eq_of_le hterm with
      | inl hlt =>
        rw [granting_state, hst' hlt] at hs
        cases hs
      | inr heq =>
        rw [granting_state, hst heq] at hs
        rw [granting_grantedVotes, granting_currentTerm, ← heq]
        exact ht.exact q hs
    · rw [setRaft_raft_ne _ v _ hq] at hs ⊢
      exact ht.exact q hs

theorem countedVotes_single (p q u : Fin n) (S T : Nat) :
    countedVotes p T [(.count q S u : Event n C)] = if q = p ∧ S = T then [u] else [] := by
  by_cases h : q = p ∧ S = T
  · simp [countedVotes, h]
  · simp [countedVotes, h]

theorem countedVotes_victory (p q u r : Fin n) (S T U : Nat) :
    countedVotes p T [(.count q S u : Event n C), .lead r U] =
      if q = p ∧ S = T then [u] else [] := by
  by_cases h : q = p ∧ S = T
  · simp [countedVotes, h]
  · simp [countedVotes, h]

theorem tally_counted (ht : Tally tr c) {p u : Fin n} {rpcs : List (Rpc n C)}
    (hs : (c.raft p).state = .candidate) (hnew : ¬ Counted tr p (c.raft p).currentTerm u) :
    Tally (tr ++ [.count p (c.raft p).currentTerm u])
      ((c.setRpcs rpcs).setRaft p (c.raft p).counting) := by
  apply ht.count hnew fun q T => countedVotes_single q p u _ T
  intro _
  rw [countedVotes_append, countedVotes_single]
  simp [ht.exact p hs]
  omega

theorem tally_won (ht : Tally tr c) {p u : Fin n} {rpcs : List (Rpc n C)} {et : Timer}
    (hnew : ¬ Counted tr p (c.raft p).currentTerm u) :
    Tally (tr ++ [.count p (c.raft p).currentTerm u, .lead p (c.raft p).currentTerm])
      ((c.setRpcs rpcs).setRaft p ((c.raft p).leading et)) := by
  apply ht.count hnew fun q T => countedVotes_victory q p u p _ T _
  intro hs
  cases hs

theorem tally_electoral (he : Elections tr c) (ht : Tally tr c) (h : Electoral gob c c' es) :
    Tally (tr ++ es) c' := by
  cases h with
  | quiet hq hes =>
    apply ht.silent
    · intro p T v hmem
      simpa [Event.voting] using hes _ hmem
    · intro p hs
      cases hq.calm p with
      | same hterm hv hst hg =>
        rw [hterm, hg]
        exact ht.exact p (hst ▸ hs)
      | yields hterm hv hst => simp [hst] at hs
      | newer hterm hst => simp [hst] at hs
  | stand p et ps => exact tally_stand he ht p et ps _ _ _
  | granted k m args st et ps hm hb hterm hst hst' => exact tally_granted ht hterm hst hst'
  | counted k m args reply hm hb hterm hs hg =>
    have hnew := (he.of_reply hm hb).2.2
    rw [hterm] at hnew ⊢
    exact tally_counted ht hs hnew
  | won k m args reply et hm hb hterm hs hg hmany =>
    have hnew := (he.of_reply hm hb).2.2
    rw [hterm] at hnew ⊢
    exact tally_won ht hnew

theorem tally_run {ok : Cluster n C → Action n C → Prop} (h : RunWhere gob ok tr c) :
    Tally tr c := by
  induction h with
  | refl => exact tally_init
  | snoc h hok hstep ih =>
    exact tally_electoral (elections_run h) ih (moves_electoral (step_moves (sound_run h) hstep))

/-! ## The steps in which the votes were cast -/

/-- A granted vote was granted in a step of the run. -/
theorem granted_flatMap {rs : List (Taken (Cluster n C) (Action n C) (Event n C))}
    {v q : Fin n} {T : Nat} (h : Granted (rs.flatMap Taken.events) v T q) :
    ∃ g ∈ rs, Granted g.events v T q := by
  obtain ⟨lt, li, hmem⟩ := h
  obtain ⟨g, hg, hmem⟩ := List.mem_flatMap.mp hmem
  exact ⟨g, hg, lt, li, hmem⟩

/-- The steps of the run in which `q` started its election of term `T`. -/
theorem stood_flatMap {rs : List (Taken (Cluster n C) (Action n C) (Event n C))}
    {q : Fin n} {T : Nat} (h : Stood (rs.flatMap Taken.events) q T) :
    ∃ s ∈ rs, Stood s.events q T := by
  obtain ⟨lt, li, hmem⟩ := h
  obtain ⟨s, hs, hmem⟩ := List.mem_flatMap.mp hmem
  exact ⟨s, hs, lt, li, hmem⟩

section Moments

variable {rs : List (Taken (Cluster n C) (Action n C) (Event n C))}
variable {g s : Taken (Cluster n C) (Action n C) (Event n C)} {v q : Fin n} {T : Nat}

theorem course_stands {ok : Cluster n C → Action n C → Prop}
    (h : Course (Cluster.step gob) ok init rs c) (hs : s ∈ rs) {lt li : Nat}
    (hmem : Event.stand q T lt li ∈ s.events) : StandsAt gob s.before s.after q T lt li := by
  obtain ⟨rs', hp, -, hstep⟩ := h.of_mem hs
  exact moves_stands (sound_run hp.run) (step_moves (sound_run hp.run) hstep) hmem

/-- The voter's log when it grants is not newer than its candidate's log when the
candidate started the election. -/
theorem course_notNewer {ok : Cluster n C → Action n C → Prop}
    (h : Course (Cluster.step gob) ok init rs c) (hg : g ∈ rs) (hs : s ∈ rs)
    (hgrant : Granted g.events v T q) (hstand : Stood s.events q T) :
    VotedDurably gob (g.after.raft v) T q ∧ NotNewer (g.before.raft v) (s.before.raft q) := by
  obtain ⟨_, _, hgmem⟩ := hgrant
  obtain ⟨lt, li, hsmem⟩ := hstand
  obtain ⟨rs', hp, hsub, hstep⟩ := h.of_mem hg
  have hat := moves_grants (step_moves (sound_run hp.run) hstep) hgmem
  obtain ⟨m, hm, args, hb, rfl, rfl, hle⟩ := hat.request
  obtain ⟨hcaller, hold⟩ := (elections_run hp.run).requests m hm args hb
  rw [← hcaller] at hold
  -- the request speaks of the log with which its candidate stood
  obtain ⟨r, hr, hrmem⟩ := List.mem_flatMap.mp hold
  have honce := standsOnce_run h.run args.candidateId args.term _ _ lt li
    (List.mem_flatMap.mpr ⟨r, hsub hr, hrmem⟩) (List.mem_flatMap.mpr ⟨s, hs, hsmem⟩)
  have hst := course_stands h hs hsmem
  refine ⟨hat.durable, ?_⟩
  rw [NotNewer, ← hst.lastTerm, ← hst.lastIndex, ← honce.1, ← honce.2]
  exact hle

end Moments

section Counted

variable {p u : Fin n}

/-- A vote counted by the end of a victory was granted in an earlier step, and it is not
the candidate's own. -/
theorem Victory.counted (h : Victory c c' es p u) (he : Elections (tr ++ es) c') {T : Nat}
    {v : Fin n} (hv : v ∈ countedVotes p T (tr ++ es)) : v ≠ p ∧ Granted tr v T p := by
  obtain ⟨-, hne, hvoted⟩ := he.counted p T v (mem_countedVotes.mp hv)
  refine ⟨hne, ?_⟩
  cases hvoted with
  | inr hself => exact absurd hself.1 hne
  | inl hgranted =>
    cases granted_append.mp hgranted with
    | inl hold => exact hold
    | inr hnew =>
      obtain ⟨lt, li, hnew⟩ := hnew
      simp [h.events] at hnew

/-- The winner has counted the votes of the others and its own. -/
theorem Victory.grantedVotes (h : Victory c c' es p u) (ht : Tally tr c) :
    (c'.raft p).grantedVotes =
      (countedVotes p (c.raft p).currentTerm (tr ++ es)).length + 1 := by
  rw [countedVotes_append, h.events, countedVotes_victory, h.votes, ht.exact p h.candidate]
  simp
  omega

end Counted

/-- **Election restriction.** Whenever `L` becomes leader of term `T` there is a set `Q`
of more than half of the peers, with `L` in it. `L` recorded its own vote when it started
its election of term `T`; every other member granted its vote in a step of the run that
left it durable, and its last log entry was then at most the last entry `L` had when it
started that election. The votes counted are those of the other members, each once. -/
theorem election_restriction {rs : List (Taken (Cluster n C) (Action n C) (Event n C))}
    (h : Course (Cluster.step gob) always init rs c) (hstep : c.step gob a = some (c', es))
    (L : Fin n) (T : Nat) (hs : (c.raft L).state ≠ .leader) (hs' : (c'.raft L).state = .leader)
    (hT : (c'.raft L).currentTerm = T) :
    ∃ Q : Finset (Fin n), n < 2 * Q.card ∧ L ∈ Q ∧
      (∃ s ∈ rs, Stood s.events L T) ∧
      (∀ s ∈ rs, Stood s.events L T → VotedDurably gob (s.after.raft L) T L) ∧
      (∀ v ∈ Q, v ≠ L →
        (∃ g ∈ rs, Granted g.events v T L) ∧
        ∀ g ∈ rs, Granted g.events v T L →
          VotedDurably gob (g.after.raft v) T L ∧
          ∀ s ∈ rs, Stood s.events L T → NotNewer (g.before.raft v) (s.before.raft L)) ∧
      (countedVotes L T (rs.flatMap Taken.events ++ es)).Nodup ∧
      (∀ v, v ∈ countedVotes L T (rs.flatMap Taken.events ++ es) ↔ v ∈ Q ∧ v ≠ L) ∧
      (c'.raft L).grantedVotes = Q.card := by
  have hrun := h.run
  obtain ⟨u, hv⟩ := (moves_electoral (step_moves (sound_run hrun) hstep)).victory hs hs'
  have he := elections_run (hrun.snoc trivial hstep)
  have hnodup := (tally_run (hrun.snoc trivial hstep)).nodup L T
  have hterm : (c.raft L).currentTerm = T := hv.term.symm.trans hT
  obtain ⟨hstood, -⟩ := (elections_run hrun).candidate L hv.candidate
  rw [hterm] at hstood
  -- the members of `Q` beside `L` are the voters counted by the end of the step
  have hself : L ∉ countedVotes L T (rs.flatMap Taken.events ++ es) :=
    fun hL => (hv.counted he hL).1 rfl
  have hcard : (c'.raft L).grantedVotes =
      (insert L (countedVotes L T (rs.flatMap Taken.events ++ es)).toFinset).card := by
    rw [Finset.card_insert_of_notMem (by simpa using hself), List.toFinset_card_of_nodup hnodup,
      hv.grantedVotes (tally_run hrun), hterm]
  have hmany := hv.many
  refine ⟨insert L (countedVotes L T (rs.flatMap Taken.events ++ es)).toFinset, ?_,
    Finset.mem_insert_self .., stood_flatMap hstood, ?_, ?_, hnodup, ?_, hcard⟩
  · rw [← hcard, hv.votes]
    omega
  · rintro s hs ⟨lt, li, hstand⟩
    exact (course_stands h hs hstand).durable
  · intro v hvQ hne
    have hcounted : v ∈ countedVotes L T (rs.flatMap Taken.events ++ es) := by
      simpa [hne] using hvQ
    refine ⟨granted_flatMap (hv.counted he hcounted).2, fun g hg hgrant => ?_⟩
    obtain ⟨s, hs, hstand⟩ := stood_flatMap hstood
    refine ⟨(course_notNewer h hg hs hgrant hstand).1, fun s hs hstand => ?_⟩
    exact (course_notNewer h hg hs hgrant hstand).2
  · intro v
    constructor
    · intro hcounted
      exact ⟨by simp [hcounted], (hv.counted he hcounted).1⟩
    · rintro ⟨hvQ, hne⟩
      simpa [hne] using hvQ

/-- Peer 0 has the vote of peer 1 under way; its delivery makes it leader of term 1. -/
theorem election_restriction_of_three :
    ∃ rs, Course (Cluster.step (natGob 3)) always init rs (ran (natGob 3) always pollOfThree).1 ∧
      ∃ Q : Finset (Fin 3), 3 < 2 * Q.card ∧ 0 ∈ Q ∧ (∃ s ∈ rs, Stood s.events 0 1) ∧
        ((ran (natGob 3) always (pollOfThree ++ [.deliver 0])).1.raft 0).grantedVotes = Q.card := by
  have hrun : ClusterRun (natGob 3) (ran (natGob 3) always pollOfThree).2
      (ran (natGob 3) always pollOfThree).1 := reached_run (by decide +kernel)
  have hstep : (ran (natGob 3) always pollOfThree).1.step (natGob 3) (.deliver 0) =
      some ((ran (natGob 3) always (pollOfThree ++ [.deliver 0])).1,
        [.count 0 1 1, .lead 0 1]) := by rfl
  obtain ⟨rs, hcourse, -⟩ := Course.exists_of_run hrun
  obtain ⟨Q, hcard, hself, hstood, -, -, -, -, hvotes⟩ :=
    election_restriction hcourse hstep 0 1 (by decide +kernel) (by decide +kernel)
      (by decide +kernel)
  exact ⟨rs, hcourse, Q, hcard, hself, hstood, hvotes⟩

end RaftImplementation
