import RaftImplementation.Raft.Exchange

/-!
# Compaction is not seen by the protocol

A peer and the same peer after an accepted `Snapshot(i, ..)` are given the same calls. The
one has the entries before `i` and the command at `i`, the other has not; terms and indices
from `i` on are the same in both logs, and nothing else is read as long as no request
reaches back before `i`. So they answer alike, and stay as they were related.
-/

namespace RaftImplementation

open Raft

variable {n : Nat} {C : Type} (gob : Gob n C)

/-! ## Calls and answers -/

/-- The calls that both peers get. `advance` is `advanceCommitIndexForLeader` with the given
`matchIndex`. -/
inductive Call (n : Nat) (C : Type) where
  | requestVote (args : RequestVoteArgs n)
  | appendEntries (args : AppendEntriesArgs n C)
  | start (command : Option C)
  | advance (matchIndex : Fin n → Nat)

inductive Answer where
  | voted (reply : RequestVoteReply)
  | appended (reply : AppendEntriesReply)
  | started (result : Option (Nat × Nat))
  | advanced
  deriving DecidableEq, Repr

/-- A request that does not reach back before `i`, with entries that follow its previous
one. -/
def Call.Fits (i : Nat) : Call n C → Prop
  | .appendEntries args => i ≤ args.prevLogIndex ∧ Contiguous (args.prevLogIndex + 1) args.entries
  | _ => True

namespace Raft

def answer (rf : Raft n C) : Call n C → Section (Raft n C × Answer)
  | .requestVote args => let (rf, reply) := rf.requestVote gob args; .ok (rf, .voted reply)
  | .appendEntries args => do
    let (rf, reply) ← rf.appendEntries gob args
    return (rf, .appended reply)
  | .start command => let (rf, result) := rf.start gob command; .ok (rf, .started result)
  | .advance matchIndex => do
    let rf ← ({ rf with matchIndex := matchIndex } : Raft n C).advanceCommitIndexForLeader
    return (rf, .advanced)

/-- The peer after the calls, and its answers. -/
def answerAll (rf : Raft n C) : List (Call n C) → Section (Raft n C × List Answer)
  | [] => .ok (rf, [])
  | call :: calls => do
    let (rf, a) ← rf.answer gob call
    let (rf, as) ← rf.answerAll calls
    return (rf, a :: as)

/-- The log with the entries before index `i` dropped and the command at `i` cleared. -/
def compactedLogs (rf : Raft n C) (i : Nat) : List (LogEntry C) :=
  match rf.logs.drop (i - rf.getFirstLog.index) with
  | [] => []
  | e :: es => { e with command := none } :: es

end Raft

/-! ## The relation -/

/-- `s'` is `s` compacted at index `i`. -/
structure Compacted (i : Nat) (s s' : Raft n C) : Prop where
  wellFormed : s.WellFormed
  first_le : s.getFirstLog.index ≤ i
  le_last : i ≤ s.getLastLog.index
  le_commit : i ≤ s.commitIndex
  term : s'.currentTerm = s.currentTerm
  vote : s'.votedFor = s.votedFor
  role : s'.state = s.state
  commit : s'.commitIndex = s.commitIndex
  logs : ∃ t, s.termAt i = some t ∧ s'.logs = s.cutLogs t i

namespace Compacted

variable {i j : Nat} {s s' : Raft n C}

theorem first (h : Compacted i s s') : s'.getFirstLog.index = i := by
  obtain ⟨t, -, hl⟩ := h.logs
  rw [getFirstLog, hl]
  rfl

theorem wellFormed' (h : Compacted i s s') : s'.WellFormed := by
  obtain ⟨t, -, hl⟩ := h.logs
  exact cutLogs_wellFormed h.wellFormed h.first_le hl

theorem last (h : Compacted i s s') : s'.getLastLog.index = s.getLastLog.index := by
  obtain ⟨t, -, hl⟩ := h.logs
  have hlast := cutLogs_lastIndex h.wellFormed (t := t) h.first_le
  rw [← hl, Nat.max_eq_right h.le_last] at hlast
  exact hlast

/-- From `i` on, both logs have the same terms. -/
theorem termAt_eq (h : Compacted i s s') (hj : i ≤ j) : s'.termAt j = s.termAt j := by
  obtain ⟨t, ht, hl⟩ := h.logs
  have hf := h.first_le
  by_cases hji : j = i
  · subst hji
    rw [ht, termAt_of_le (by rw [h.first]), h.first, hl, Nat.sub_self]
    rfl
  · obtain ⟨k, rfl⟩ : ∃ k, j = i + 1 + k := ⟨j - (i + 1), by omega⟩
    rw [termAt_of_le (by rw [h.first]; omega), termAt_of_le (by omega), h.first, hl, cutLogs,
      show i + 1 + k - i = k + 1 by omega, List.getElem?_cons_succ, List.getElem?_drop]
    congr 2
    omega

theorem last_term (h : Compacted i s s') : s'.getLastLog.term = s.getLastLog.term := by
  have heq := h.termAt_eq h.le_last
  rw [h.wellFormed.termAt_last, ← h.last, h.wellFormed'.termAt_last] at heq
  exact Option.some.inj heq

theorem isLogUpToDate_eq (h : Compacted i s s') (index term : Nat) :
    s'.isLogUpToDate index term = s.isLogUpToDate index term := by
  rw [isLogUpToDate, isLogUpToDate, h.last, h.last_term]

/-- Sections that leave the logs and the commit indices alone. -/
theorem keep (h : Compacted i s s') {t t' : Raft n C} (hl : t.logs = s.logs)
    (hl' : t'.logs = s'.logs) (hc : t.commitIndex = s.commitIndex)
    (hc' : t'.commitIndex = s'.commitIndex) (hterm : t'.currentTerm = t.currentTerm)
    (hvote : t'.votedFor = t.votedFor) (hrole : t'.state = t.state) : Compacted i t t' := by
  have hfirst : t.getFirstLog = s.getFirstLog := by rw [getFirstLog, getFirstLog, hl]
  have hlast : t.getLastLog = s.getLastLog := by rw [getLastLog, getLastLog, hl]
  obtain ⟨u, hu, hcut⟩ := h.logs
  refine ⟨h.wellFormed.of_logs hl, ?_, ?_, ?_, hterm, hvote, hrole, ?_, u, ?_, ?_⟩
  · rw [hfirst]
    exact h.first_le
  · rw [hlast]
    exact h.le_last
  · rw [hc]
    exact h.le_commit
  · rw [hc, hc', h.commit]
  · rw [← hu, termAt, termAt, hfirst, hl]
  · rw [hl', hcut, cutLogs, cutLogs, hfirst, hl]

/-! ## The four calls -/

theorem requestVote (h : Compacted i s s') (args : RequestVoteArgs n) :
    (s'.requestVote gob args).2 = (s.requestVote gob args).2 ∧
      Compacted i (s.requestVote gob args).1 (s'.requestVote gob args).1 := by
  unfold Raft.requestVote
  rw [h.term, h.vote]
  split
  · exact ⟨rfl, h⟩
  · by_cases hgt : args.term > s.currentTerm
    · obtain ⟨et, ps, hb, -⟩ := s.follower_adoptTerm gob args.term
      obtain ⟨et', ps', hb', -⟩ := s'.follower_adoptTerm gob args.term
      have hbehind : Compacted i (s.behind args.term et ps) (s'.behind args.term et' ps') :=
        h.keep rfl rfl rfl rfl rfl rfl rfl
      simp only [hgt, ↓reduceIte, hb, hb', hbehind.isLogUpToDate_eq]
      split
      · exact ⟨rfl, hbehind.keep rfl rfl rfl rfl rfl rfl rfl⟩
      · exact ⟨rfl, hbehind⟩
    · simp only [hgt, ↓reduceIte, h.isLogUpToDate_eq]
      split
      · refine ⟨?_, h.keep rfl rfl rfl rfl h.term rfl h.role⟩
        show (⟨s'.currentTerm, true⟩ : RequestVoteReply) = ⟨s.currentTerm, true⟩
        rw [h.term]
      · refine ⟨?_, h⟩
        show (⟨s'.currentTerm, false⟩ : RequestVoteReply) = ⟨s.currentTerm, false⟩
        rw [h.term]

/-- The splice does the same on a log that is cut before its entries. -/
theorem spliced_cut {first j : Nat} {logs entries : List (LogEntry C)} {e : LogEntry C}
    (hc : Contiguous j entries) (hij : i < j) (hf : first ≤ i)
    (hlen : i + 1 - first ≤ logs.length) :
    spliced i (e :: logs.drop (i + 1 - first)) entries =
      e :: (spliced first logs entries).drop (i + 1 - first) := by
  induction entries generalizing j with
  | nil => rfl
  | cons x xs ih =>
    obtain ⟨rfl, hc⟩ := hc
    have hsame : (e :: logs.drop (i + 1 - first))[x.index - i]? = logs[x.index - first]? := by
      rw [show x.index - i = (x.index - i - 1) + 1 by omega, List.getElem?_cons_succ,
        List.getElem?_drop]
      congr 1
      omega
    rw [spliced, spliced, hsame]
    split
    · exact ih hc (by omega)
    · rw [show x.index - i = (x.index - i - 1) + 1 by omega, List.take_succ_cons, List.cons_append,
        List.drop_append_of_le_length (by rw [List.length_take]; omega), List.drop_take,
        show x.index - first - (i + 1 - first) = x.index - i - 1 by omega]

/-- A request whose previous entry both peers have with its term. -/
theorem accept (h : Compacted i s s') {args : AppendEntriesArgs n C}
    (hi : i ≤ args.prevLogIndex) (hc : Contiguous (args.prevLogIndex + 1) args.entries)
    (hprev : s.termAt args.prevLogIndex = some args.prevLogTerm) (v : Option (Fin n))
    (et et' : Timer) (ps ps' : Persister) :
    Compacted i (s.accepting args v et ps) (s'.accepting args v et' ps') := by
  have hf := h.first_le
  have hff : s.getFirstLog.index ≤ args.prevLogIndex := by omega
  obtain ⟨-, hreach⟩ := h.wellFormed.le_last_of_termAt hprev
  have hlen := h.wellFormed.last_index
  rw [termAt_of_le hff] at hprev
  have hfirst : (s.accepting args v et ps).getFirstLog.index = s.getFirstLog.index :=
    congrArg LogEntry.index (accepting_first h.wellFormed hc hff hprev v et ps)
  have hw := accepting_wellFormed h.wellFormed hc hff hprev v et ps
  obtain ⟨t, ht, hl⟩ := h.logs
  have htermi : (s.accepting args v et ps).termAt i = some t := by
    rw [← ht]
    exact termAt_congr hfirst (spliced_take hc (by omega) (by omega)) (by omega)
  have hlogs : (s'.accepting args v et' ps').logs = (s.accepting args v et ps).cutLogs t i := by
    rw [accepting_logs, h.first, hl, cutLogs, spliced_cut hc (by omega) hf (by omega), cutLogs,
      hfirst]
    rfl
  have hlast : lastIndex (s'.accepting args v et' ps').logs =
      lastIndex (s.accepting args v et ps).logs := by
    have hle := (hw.le_last_of_termAt htermi).2
    have hcut := cutLogs_lastIndex hw (t := t) (i := i) (by omega)
    rw [← hlogs, Nat.max_eq_right hle] at hcut
    exact hcut
  refine ⟨hw, by omega, (hw.le_last_of_termAt htermi).2, ?_, rfl, rfl, rfl, ?_, t, htermi, hlogs⟩
  · exact h.le_commit.trans (Nat.le_max_left _ _)
  · rw [accepting_logs, accepting_logs] at hlast
    rw [accepting_commitIndex, accepting_commitIndex, hlast, h.commit]

theorem appendEntries (h : Compacted i s s') {args : AppendEntriesArgs n C}
    (hi : i ≤ args.prevLogIndex) (hc : Contiguous (args.prevLogIndex + 1) args.entries) :
    ∃ t t' reply, s.appendEntries gob args = .ok (t, reply) ∧
      s'.appendEntries gob args = .ok (t', reply) ∧ Compacted i t t' := by
  by_cases ht : args.term < s.currentTerm
  · refine ⟨s, s', _, by rw [Raft.appendEntries, if_pos ht], ?_, h⟩
    rw [Raft.appendEntries, h.term, if_pos ht]
  · have ht : s.currentTerm ≤ args.term := Nat.le_of_not_lt ht
    have ht' : s'.currentTerm ≤ args.term := by rwa [h.term]
    have hf : s.getFirstLog.index ≤ args.prevLogIndex := h.first_le.trans hi
    have hf' : s'.getFirstLog.index ≤ args.prevLogIndex := by rwa [h.first]
    have hsame := h.termAt_eq hi
    by_cases hprev : s.termAt args.prevLogIndex = some args.prevLogTerm
    · have hprev' := hsame.trans hprev
      rw [termAt_of_le hf'] at hprev'
      obtain ⟨v, et, ps, heq, hv, -⟩ :=
        appendEntries_matched gob h.wellFormed hc ht hf (by rwa [termAt_of_le hf] at hprev)
      obtain ⟨v', et', ps', heq', hv', -⟩ :=
        appendEntries_matched gob h.wellFormed' hc ht' hf' hprev'
      rw [h.term, h.vote, ← hv] at hv'
      rw [hv'] at heq'
      exact ⟨_, _, _, heq, heq', h.accept hi hc hprev v et et' ps ps'⟩
    · have hprev' := hprev
      rw [← hsame, termAt_of_le hf'] at hprev'
      obtain ⟨v, et, ps, heq, hv, -⟩ :=
        appendEntries_refused gob h.wellFormed ht hf (by rwa [termAt_of_le hf] at hprev)
      obtain ⟨v', et', ps', heq', hv', -⟩ := appendEntries_refused gob h.wellFormed' ht' hf' hprev'
      rw [h.term, h.vote, ← hv] at hv'
      have hrefusal : (s'.following args.term v et' ps').refusal args =
          (s.following args.term v et ps).refusal args := by
        have hlast : (s'.following args.term v et' ps').getLastLog.index =
            (s.following args.term v et ps).getLastLog.index := h.last
        rw [refusal, refusal, hlast]
        rfl
      rw [hv', hrefusal] at heq'
      exact ⟨_, _, _, heq, heq', h.keep rfl rfl rfl rfl rfl rfl rfl⟩

/-- Both leaders append the same entry. -/
theorem append (h : Compacted i s s') (command : Option C) (ps ps' : Persister) :
    Compacted i (s.appending command ps) (s'.appending command ps') := by
  have hf := h.first_le
  have hle := h.le_last
  have hlast := h.wellFormed.last_index
  have hnew : s'.newEntry command = s.newEntry command := by
    rw [newEntry, newEntry, h.term, h.last]
  have hfirst : (s.appending command ps).getFirstLog = s.getFirstLog := by
    obtain ⟨es, hcons, -⟩ := h.wellFormed.cons
    rw [getFirstLog, appending_logs, hcons]
    rfl
  have hw := appending_wellFormed h.wellFormed command ps
  have hlast' := hw.last_index
  rw [hfirst, appending_logs, List.length_append, List.length_singleton] at hlast'
  obtain ⟨t, ht, hl⟩ := h.logs
  refine ⟨hw, by rw [hfirst]; exact hf, by omega, h.le_commit, h.term, h.vote, h.role, h.commit, t,
    ?_, ?_⟩
  · rw [← ht]
    apply termAt_congr (m := s.logs.length) (congrArg LogEntry.index hfirst)
    · rw [appending_logs, List.take_left, List.take_length]
    · omega
  · rw [appending_logs, hl, hnew, cutLogs, cutLogs, hfirst, appending_logs,
      List.drop_append_of_le_length (by omega), List.cons_append]

theorem start (h : Compacted i s s') (command : Option C) :
    (s'.start gob command).2 = (s.start gob command).2 ∧
      Compacted i (s.start gob command).1 (s'.start gob command).1 := by
  rcases s.start_eq gob command with ⟨hs, heq⟩ | ⟨hs, ps, heq, -⟩
  · rcases s'.start_eq gob command with ⟨-, heq'⟩ | ⟨hs', -⟩
    · rw [heq, heq']
      exact ⟨rfl, h⟩
    · exact absurd (h.role ▸ hs') hs
  · rcases s'.start_eq gob command with ⟨hs', -⟩ | ⟨-, ps', heq', -⟩
    · exact absurd (h.role.trans hs) hs'
    · rw [heq, heq', h.last, h.term]
      exact ⟨rfl, h.append command ps ps'⟩

theorem advance (h : Compacted i s s') (matchIndex : Fin n → Nat) :
    ∃ t t', ({ s with matchIndex := matchIndex } : Raft n C).advanceCommitIndexForLeader = .ok t ∧
      ({ s' with matchIndex := matchIndex } : Raft n C).advanceCommitIndexForLeader = .ok t' ∧
      Compacted i t t' := by
  have hm : Compacted i { s with matchIndex := matchIndex } { s' with matchIndex := matchIndex } :=
    h.keep rfl rfl rfl rfl h.term h.vote h.role
  generalize hs : ({ s with matchIndex := matchIndex } : Raft n C) = u at hm ⊢
  generalize hs' : ({ s' with matchIndex := matchIndex } : Raft n C) = u' at hm ⊢
  have hsort : u'.sortMatchIndex = u.sortMatchIndex := by
    rw [← hs, ← hs']
    rfl
  unfold advanceCommitIndexForLeader
  rw [hsort, hm.commit]
  generalize u.sortMatchIndex.getD (n - (n / 2 + 1)) 0 = N
  have hle := hm.le_commit
  have hf := hm.first_le
  by_cases hgt : N > u.commitIndex
  · have hfirst := hm.first
    have hmatch : u.isLogMatched N u.currentTerm =
        .ok (decide (u.termAt N = some u.currentTerm)) := by
      rw [hm.wellFormed.isLogMatched_eq (by omega), termAt_of_le (by omega)]
    have hmatch' : u'.isLogMatched N u'.currentTerm =
        .ok (decide (u.termAt N = some u.currentTerm)) := by
      rw [hm.wellFormed'.isLogMatched_eq (by omega), ← termAt_of_le (by omega),
        hm.termAt_eq (by omega), hm.term]
    simp only [hgt, ↓reduceIte, hmatch, hmatch', bind, Except.bind]
    split
    · refine ⟨_, _, rfl, rfl, ?_⟩
      obtain ⟨t, ht, hl⟩ := hm.logs
      exact ⟨hm.wellFormed.of_logs rfl, hf, hm.le_last, by dsimp only; omega, hm.term, hm.vote,
        hm.role, rfl, t, ht, hl⟩
    · exact ⟨_, _, rfl, rfl, hm⟩
  · simp only [hgt, ↓reduceIte]
    exact ⟨_, _, rfl, rfl, hm⟩

theorem answer (h : Compacted i s s') {call : Call n C} (hfits : call.Fits i) :
    ∃ t t' a, s.answer gob call = .ok (t, a) ∧ s'.answer gob call = .ok (t', a) ∧
      Compacted i t t' := by
  cases call with
  | requestVote args =>
    obtain ⟨hreply, hnext⟩ := h.requestVote gob args
    refine ⟨_, _, .voted (s.requestVote gob args).2, rfl, ?_, hnext⟩
    rw [← hreply]
    rfl
  | appendEntries args =>
    obtain ⟨t, t', reply, heq, heq', hnext⟩ := h.appendEntries gob hfits.1 hfits.2
    refine ⟨t, t', .appended reply, ?_, ?_, hnext⟩
    · rw [Raft.answer, heq]
      rfl
    · rw [Raft.answer, heq']
      rfl
  | start command =>
    obtain ⟨hresult, hnext⟩ := h.start gob command
    refine ⟨_, _, .started (s.start gob command).2, rfl, ?_, hnext⟩
    rw [← hresult]
    rfl
  | advance matchIndex =>
    obtain ⟨t, t', heq, heq', hnext⟩ := h.advance matchIndex
    refine ⟨t, t', .advanced, ?_, ?_, hnext⟩
    · rw [Raft.answer, heq]
      rfl
    · rw [Raft.answer, heq']
      rfl

theorem answerAll (h : Compacted i s s') {calls : List (Call n C)}
    (hfits : ∀ call ∈ calls, call.Fits i) :
    ∃ t t' as, s.answerAll gob calls = .ok (t, as) ∧ s'.answerAll gob calls = .ok (t', as) ∧
      Compacted i t t' := by
  induction calls generalizing s s' with
  | nil => exact ⟨s, s', [], rfl, rfl, h⟩
  | cons call calls ih =>
    obtain ⟨u, u', a, heq, heq', hnext⟩ := h.answer gob (hfits call List.mem_cons_self)
    obtain ⟨t, t', as, hrest, hrest', hend⟩ :=
      ih hnext fun c hc => hfits c (List.mem_cons_of_mem _ hc)
    refine ⟨t, t', a :: as, ?_, ?_, hend⟩
    · simp only [Raft.answerAll, heq, hrest, bind, Except.bind, pure, Except.pure]
    · simp only [Raft.answerAll, heq', hrest', bind, Except.bind, pure, Except.pure]

/-- The log of the compacted peer, as the source makes it. -/
theorem logs_eq (h : Compacted i s s') : s'.logs = s.compactedLogs i := by
  obtain ⟨t, ht, hl⟩ := h.logs
  obtain ⟨e, he, hidx⟩ := h.wellFormed.exists_at h.first_le h.le_last
  have hlt := (List.getElem?_eq_some_iff.mp he).1
  rw [termAt_of_le h.first_le, he, Option.map_some, Option.some.injEq] at ht
  rw [hl, cutLogs, compactedLogs, List.drop_eq_getElem_cons hlt,
    (List.getElem?_eq_some_iff.mp he).2, ← ht, ← hidx,
    show e.index + 1 - s.getFirstLog.index = e.index - s.getFirstLog.index + 1 by
      have := h.first_le; omega]

end Compacted

/-- The peer after an accepted `Snapshot(i, ..)` with `i` committed. -/
theorem snapshot_compacted {s s' : Raft n C} (hw : s.WellFormed) {i : Nat} {data : Option Bytes}
    (hf : s.getFirstLog.index < i) (hc : i ≤ s.commitIndex) (hl : i ≤ s.getLastLog.index)
    (hs' : s.snapshot gob i data = .ok s') : Compacted i s s' := by
  obtain ⟨e, ps, he, heq, -⟩ := snapshot_accepted gob hw hf hl data
  rw [hs', Except.ok.injEq] at heq
  subst heq
  refine ⟨hw, hf.le, hl, hc, rfl, rfl, rfl, rfl, e.term, ?_, rfl⟩
  rw [termAt_of_le hf.le, he]
  rfl

/-- A peer and the same peer after an accepted `Snapshot(i, ..)` give the same answers to any
sequence of calls in which no `AppendEntries` reaches back before `i`. At its end they have
the same term, vote, role and commit index, and the one log is the other without the entries
before `i` and the command at `i`. -/
theorem compaction_transparent {s s' : Raft n C} (hw : s.WellFormed) {i : Nat}
    {data : Option Bytes} (hf : s.getFirstLog.index < i) (hc : i ≤ s.commitIndex)
    (hl : i ≤ s.getLastLog.index) (hs' : s.snapshot gob i data = .ok s')
    {calls : List (Call n C)} (hfits : ∀ call ∈ calls, call.Fits i) :
    ∃ t t' answers, s.answerAll gob calls = .ok (t, answers) ∧
      s'.answerAll gob calls = .ok (t', answers) ∧
      t'.currentTerm = t.currentTerm ∧ t'.votedFor = t.votedFor ∧ t'.state = t.state ∧
      t'.commitIndex = t.commitIndex ∧ t'.logs = t.compactedLogs i := by
  obtain ⟨t, t', answers, heq, heq', hend⟩ :=
    (snapshot_compacted gob hw hf hc hl hs').answerAll gob hfits
  exact ⟨t, t', answers, heq, heq', hend.term, hend.vote, hend.role, hend.commit, hend.logs_eq⟩

/-- A vote request, entries that conflict behind index 2, and a call of the service. -/
def callsAfterTwo : List (Call 3 Nat) :=
  [.requestVote ⟨3, 2, 3, 2⟩, .appendEntries ⟨3, 2, 2, 2, 3, [⟨some 4, 3, 3⟩, ⟨some 5, 3, 4⟩]⟩,
    .start (some 6), .advance fun _ => 4]

/-- The leader of term 2 compacts at its commit index and goes on. -/
theorem compaction_transparent_of_four :
    ∃ s' t t' answers, leaderOfTermTwo.snapshot (natGob 3) 2 (some [1]) = .ok s' ∧
      leaderOfTermTwo.answerAll (natGob 3) callsAfterTwo = .ok (t, answers) ∧
      s'.answerAll (natGob 3) callsAfterTwo = .ok (t', answers) ∧
      t'.logs = t.compactedLogs 2 := by
  have hw : leaderOfTermTwo.WellFormed := wellFormed_of_cons rfl (by decide)
  obtain ⟨e, ps, -, hs', -⟩ := snapshot_accepted (natGob 3) hw
    (show leaderOfTermTwo.getFirstLog.index < 2 by decide) (by decide) (some [1])
  have hfits : ∀ call ∈ callsAfterTwo, call.Fits 2 := by
    simp [callsAfterTwo, Call.Fits, Contiguous]
  obtain ⟨t, t', answers, heq, heq', -, -, -, -, hlogs⟩ :=
    compaction_transparent (natGob 3) hw (by decide) (by decide) (by decide) hs' hfits
  exact ⟨_, t, t', answers, hs', heq, heq', hlogs⟩

end RaftImplementation
