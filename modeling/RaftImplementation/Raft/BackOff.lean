import RaftImplementation.Library.Retry
import RaftImplementation.Raft.Exchange
import RaftImplementation.Raft.Indices

/-!
# A leader and one follower on their own

`exchange` is one round of replication between two peers with nothing lost: the
request, its handler, the service's `CondInstallSnapshot` on a snapshot message
that the handler produced, and the processing of the reply. Here the rounds start
from two uncompacted logs. A refusal that is not for a short log names the term of
the leader's own entry, so the leader either finds that term one entry lower and
tries two entries lower, or tries the same entry again.
-/

namespace RaftImplementation

open Library Raft

variable {n : Nat} {C : Type}

/-- The service calls `CondInstallSnapshot` on each message. -/
def takeSnapshots (gob : Gob n C) : List SnapshotMsg → Raft n C → Section (Raft n C)
  | [], rf => .ok rf
  | m :: ms, rf => do
    let (rf, _) ← rf.condInstallSnapshot gob m.snapshotTerm m.snapshotIndex m.snapshot
    takeSnapshots gob ms rf

/-- One round between a leader and a follower, and whether an `AppendEntries` succeeded
in it. A panic ends the exchange. -/
def exchange (gob : Gob n C) (peer : Fin n) (s : Raft n C × Raft n C) :
    Option ((Raft n C × Raft n C) × Bool) :=
  match s.1.replicateOnceRound peer with
  | .ok (some (.append args)) =>
    match s.2.appendEntries gob args with
    | .ok (follower, reply) =>
      match s.1.onAppendEntriesReply gob peer args reply with
      | .ok leader => some ((leader, follower), reply.success)
      | .error _ => none
    | .error _ => none
  | .ok (some (.install args)) =>
    let (follower, reply) := s.2.installSnapshot gob args
    let sent := follower.snapshotSends.drop s.2.snapshotSends.length
    match takeSnapshots gob sent { follower with snapshotSends := s.2.snapshotSends } with
    | .ok follower => some ((s.1.onInstallSnapshotReply gob peer args reply, follower), false)
    | .error _ => none
  | _ => none

variable (gob : Gob n C) {L F : Raft n C} {peer : Fin n}

/-! ## The setting -/

/-- A log that starts at the dummy entry and whose terms do not decrease or pass `T`. -/
structure PlainLog (l : List (LogEntry C)) (T : Nat) : Prop where
  head : l.head?.map (fun e => (e.index, e.term)) = some (0, 0)
  contiguous : Contiguous 0 l
  sorted : l.Pairwise fun e e' => e.term ≤ e'.term
  positive : ∀ e ∈ l.tail, 1 ≤ e.term
  bounded : ∀ e ∈ l, e.term ≤ T

/-- Two such logs that satisfy log matching, entries with one index and term carrying
one command. -/
structure BackingOff (L F : Raft n C) (peer : Fin n) : Prop where
  leads : L.state = .leader
  term_le : F.currentTerm ≤ L.currentTerm
  leaderLog : PlainLog L.logs L.currentTerm
  followerLog : PlainLog F.logs L.currentTerm
  matching : LogsMatch F L
  commands : ∀ e ∈ F.logs, ∀ e' ∈ L.logs, e.index = e'.index → e.term = e'.term →
    e.command = e'.command
  next_pos : 1 ≤ L.nextIndex peer
  next_le : L.nextIndex peer ≤ L.getLastLog.index + 1

/-- What success means: the follower has the leader's log `l`, and the leader knows it. -/
def CaughtUp (l : List (LogEntry C)) (peer : Fin n) (s : Raft n C × Raft n C) : Prop :=
  (∀ i ≤ lastIndex l, s.2.logs[i]? = l[i]?) ∧ s.1.matchIndex peer = lastIndex l

theorem PlainLog.cons {l : List (LogEntry C)} {T : Nat} (h : PlainLog l T) :
    ∃ e es, l = e :: es ∧ e.index = 0 ∧ e.term = 0 := by
  have hhead := h.head
  cases l with
  | nil => simp at hhead
  | cons e es =>
    simp only [List.head?_cons, Option.map_some, Option.some.injEq, Prod.mk.injEq] at hhead
    exact ⟨e, es, rfl, hhead.1, hhead.2⟩

theorem PlainLog.wellFormed {rf : Raft n C} {T : Nat} (h : PlainLog rf.logs T) :
    rf.WellFormed ∧ rf.getFirstLog.index = 0 := by
  obtain ⟨e, es, hl, hidx, _⟩ := h.cons
  have hc := h.contiguous
  rw [hl] at hc
  refine ⟨wellFormed_of_cons hl ?_, ?_⟩
  · rw [hidx]
    exact hc.2
  · rw [getFirstLog, hl]
    exact hidx

theorem PlainLog.get {l : List (LogEntry C)} {T i : Nat} (h : PlainLog l T) {e : LogEntry C}
    (he : l[i]? = some e) : e.index = i := by
  have := h.contiguous.get he
  omega

theorem PlainLog.termAt_eq {rf : Raft n C} {T : Nat} (h : PlainLog rf.logs T) (i : Nat) :
    rf.termAt i = rf.logs[i]?.map LogEntry.term := by
  have hf := h.wellFormed.2
  rw [termAt_of_le (by omega), hf, Nat.sub_zero]

theorem PlainLog.term_le {l : List (LogEntry C)} {T i j : Nat} (h : PlainLog l T)
    {e e' : LogEntry C} (hij : i < j) (he : l[i]? = some e) (he' : l[j]? = some e') :
    e.term ≤ e'.term := by
  obtain ⟨hi, rfl⟩ := List.getElem?_eq_some_iff.mp he
  obtain ⟨hj, rfl⟩ := List.getElem?_eq_some_iff.mp he'
  exact List.pairwise_iff_getElem.mp h.sorted i j hi hj hij

/-- A round changes only the next index of the peer and volatile fields of the follower. -/
theorem BackingOff.round (h : BackingOff L F peer) {i : Nat} (hpos : 1 ≤ i)
    (hle : i ≤ L.getLastLog.index + 1) (v : Option (Fin n)) (et : Timer) (ps : Persister) :
    BackingOff (L.retrying peer i) (F.following L.currentTerm v et ps) peer where
  leads := h.leads
  term_le := le_rfl
  leaderLog := h.leaderLog
  followerLog := h.followerLog
  matching := h.matching
  commands := h.commands
  next_pos := by simpa using hpos
  next_le := by
    rw [retrying_nextIndex, Function.update_self]
    exact hle

/-! ## One round -/

theorem BackingOff.last_eq (h : BackingOff L F peer) :
    L.logs.length = L.getLastLog.index + 1 ∧ F.logs.length = F.getLastLog.index + 1 := by
  obtain ⟨hw, hf⟩ := h.leaderLog.wellFormed
  obtain ⟨hw', hf'⟩ := h.followerLog.wellFormed
  have := hw.last_index
  have := hw'.last_index
  omega

/-- The entry the leader compares first. -/
theorem BackingOff.exists_prev (h : BackingOff L F peer) :
    ∃ p e, L.nextIndex peer = p + 1 ∧ L.logs[p]? = some e := by
  have hpos := h.next_pos
  have hle := h.next_le
  have hlen := h.last_eq.1
  refine ⟨L.nextIndex peer - 1, _, by omega, List.getElem?_eq_getElem (by omega)⟩

theorem BackingOff.replicateOnceRound_eq (h : BackingOff L F peer) {p : Nat} {e : LogEntry C}
    (hn : L.nextIndex peer = p + 1) (he : L.logs[p]? = some e) :
    L.replicateOnceRound peer = .ok (some (.append (L.tailRequest p e.term))) := by
  obtain ⟨hw, hf⟩ := h.leaderLog.wellFormed
  have hr : L.InRange peer := (hw.inRange_iff peer).mpr h.next_le
  rcases L.replicateOnceRound_asked peer with ⟨hns, _⟩ | ⟨args, hok, ha⟩ | herr
  · exact absurd h.leads hns
  · rw [hok]
    cases ha with
    | install _ hn' => omega
    | append i e' _ hn' hf' he' =>
      obtain rfl : i = p := by omega
      rw [hf, Nat.sub_zero, he] at he'
      cases he'
      rfl
  · exact absurd herr (hw.replicateOnceRound_ne_error hr _)

/-- On an uncompacted log the commit rule does not panic. -/
theorem advance_ok (rf : Raft n C) (hw : rf.WellFormed) (hf : rf.getFirstLog.index = 0) :
    ∃ ci, rf.advanceCommitIndexForLeader = .ok (rf.committing ci) := by
  unfold advanceCommitIndexForLeader
  dsimp only
  split
  · rw [hw.isLogMatched_eq (by omega)]
    simp only [bind, Except.bind, decide_eq_true_eq]
    split
    · exact ⟨_, rfl⟩
    · exact ⟨rf.commitIndex, rfl⟩
  · exact ⟨rf.commitIndex, rfl⟩

/-- Logs that agree on the term of an entry hold the same entries up to it. -/
theorem BackingOff.same_below (h : BackingOff L F peer) {p j : Nat}
    (hp : p ≤ L.getLastLog.index) (ht : F.termAt p = L.termAt p) (hj : j ≤ p) :
    F.logs[j]? = L.logs[j]? := by
  obtain ⟨hw, hf⟩ := h.leaderLog.wellFormed
  obtain ⟨hw', hf'⟩ := h.followerLog.wellFormed
  obtain ⟨t, hLp⟩ := hw.termAt_eq_some (i := p) (by omega) hp
  have hterm : F.termAt j = L.termAt j :=
    h.matching.termAt_eq hw' hw (ht.trans hLp) hLp hj (by omega) (by omega)
  obtain ⟨e', he', hi'⟩ := hw.exists_at (i := j) (by omega) (by omega)
  rw [hf, Nat.sub_zero] at he'
  rw [h.followerLog.termAt_eq, h.leaderLog.termAt_eq, he', Option.map_some] at hterm
  obtain ⟨e, he, het⟩ := Option.map_eq_some_iff.mp hterm
  have hi : e.index = e'.index := (h.followerLog.get he).trans hi'.symm
  have hcmd := h.commands e (List.mem_of_getElem? he) e' (List.mem_of_getElem? he') hi het
  rw [he, he']
  cases e
  cases e'
  simp_all

/-- Where the terms agree at `p` and from there up to `d`, the entries before `d` are the same. -/
theorem BackingOff.same_before (h : BackingOff L F peer) {p d i : Nat}
    (hp : p ≤ L.getLastLog.index) (ht : F.termAt p = L.termAt p)
    (hag : ∀ j, p < j → j < d → F.termAt j = L.termAt j) (hd : d ≤ L.getLastLog.index + 1)
    (hi : i < d) : F.logs[i]? = L.logs[i]? := by
  by_cases hip : i ≤ p
  · exact h.same_below hp ht hip
  · exact h.same_below (by omega) (hag i (by omega) hi) le_rfl

/-- After a match at `p` the splice gives the follower the leader's log. -/
theorem BackingOff.spliced_agrees (h : BackingOff L F peer) {p i : Nat}
    (hp : p ≤ L.getLastLog.index) (ht : F.termAt p = L.termAt p)
    (hi : i ≤ L.getLastLog.index) :
    (spliced F.getFirstLog.index F.logs (L.logs.drop (p + 1 - L.getFirstLog.index)))[i]? =
      L.logs[i]? := by
  obtain ⟨hw, hf⟩ := h.leaderLog.wellFormed
  obtain ⟨hw', hf'⟩ := h.followerLog.wellFormed
  obtain ⟨t, hLp⟩ := hw.termAt_eq_some (i := p) (by omega) hp
  rcases spliced_tail (F := F) hw (by omega) hp (by omega) with
    ⟨heq, hall⟩ | ⟨d, hd, hdl, heq, hag, -⟩
  · rw [heq]
    exact h.same_before hp ht (fun j hj hjl => hall j hj (by omega)) le_rfl (by omega)
  · have hreach := hw'.reaches_of_agrees hw ⟨t, ht.trans hLp⟩ (by omega) hd hdl hag
    have hlen : (F.logs.take d).length = d := by
      rw [List.length_take_of_le]
      have := h.last_eq.2
      omega
    rw [heq, hf, hf', Nat.sub_zero]
    by_cases hid : i < d
    · rw [List.getElem?_append_left (by omega), List.getElem?_take_of_lt hid]
      exact h.same_before hp ht hag (by omega) hid
    · rw [List.getElem?_append_right (by omega), hlen, List.getElem?_drop,
        show d + (i - d) = i by omega]

theorem BackingOff.round_agree (h : BackingOff L F peer) {p : Nat}
    (hn : L.nextIndex peer = p + 1) (ht : F.termAt p = L.termAt p) :
    ∃ s, exchange gob peer (L, F) = some (s, true) ∧ CaughtUp L.logs peer s := by
  obtain ⟨hw, hf⟩ := h.leaderLog.wellFormed
  obtain ⟨hw', hf'⟩ := h.followerLog.wellFormed
  obtain ⟨p', e, hn', he⟩ := h.exists_prev
  obtain rfl : p' = p := by omega
  have hpl : p' ≤ L.getLastLog.index := by
    have := h.next_le
    omega
  have hlast := h.last_eq.1
  have hprev : F.logs[p' - F.getFirstLog.index]?.map LogEntry.term = some e.term := by
    rw [← termAt_of_le (by omega), ht, h.leaderLog.termAt_eq, he]
    rfl
  obtain ⟨v, et, ps, happ, _, _⟩ := appendEntries_matched gob hw'
    (hw.tail_contiguous (by omega) hpl : Contiguous ((L.tailRequest p' e.term).prevLogIndex + 1)
      (L.tailRequest p' e.term).entries)
    h.term_le (show F.getFirstLog.index ≤ p' by omega) hprev
  obtain ⟨ci, hadv⟩ := advance_ok
    (L.matched peer (p' + (L.tailRequest p' e.term).entries.length)) (hw.of_logs rfl) hf
  have hreply : L.onAppendEntriesReply gob peer (L.tailRequest p' e.term)
      { term := L.currentTerm, success := true } =
        .ok ((L.matched peer (p' + (L.tailRequest p' e.term).entries.length)).committing ci) := by
    unfold onAppendEntriesReply
    rw [if_pos ⟨rfl, h.leads⟩]
    exact hadv
  refine ⟨((L.matched peer (p' + (L.tailRequest p' e.term).entries.length)).committing ci,
    F.accepting (L.tailRequest p' e.term) v et ps), ?_, ?_, ?_⟩
  · simp only [exchange, h.replicateOnceRound_eq hn he, happ]
    rw [show (L.tailRequest p' e.term).term = L.currentTerm from rfl, hreply]
  · intro i hi
    rw [accepting_logs]
    exact h.spliced_agrees hpl ht hi
  · have hli : lastIndex L.logs = L.getLastLog.index := rfl
    simp only [committing_matchIndex, matched_matchIndex, Function.update_self, tailRequest,
      List.length_drop]
    omega

/-- A refusal in the leader's own term only moves the next index. -/
theorem BackingOff.round_refused (h : BackingOff L F peer) {p i : Nat} {e : LogEntry C}
    (hn : L.nextIndex peer = p + 1) (he : L.logs[p]? = some e)
    (hno : F.termAt p ≠ some e.term)
    (hback : ∀ v et ps, L.backOff peer (L.tailRequest p e.term)
      ((F.following L.currentTerm v et ps).refusal (L.tailRequest p e.term)) =
        .ok (L.retrying peer i)) :
    ∃ v et ps, exchange gob peer (L, F) =
      some ((L.retrying peer i, F.following L.currentTerm v et ps), false) := by
  obtain ⟨hw', hf'⟩ := h.followerLog.wellFormed
  have hle : F.getFirstLog.index ≤ (L.tailRequest p e.term).prevLogIndex := by omega
  have hno' : F.logs[(L.tailRequest p e.term).prevLogIndex - F.getFirstLog.index]?.map
      LogEntry.term ≠ some (L.tailRequest p e.term).prevLogTerm := by
    rw [← termAt_of_le hle]
    exact hno
  obtain ⟨v, et, ps, happ, _, _⟩ := appendEntries_refused gob hw' h.term_le hle hno'
  refine ⟨v, et, ps, ?_⟩
  obtain ⟨hsucc, hterm, _⟩ :=
    (F.following L.currentTerm v et ps).refusal_facts (L.tailRequest p e.term)
  have hreply : L.onAppendEntriesReply gob peer (L.tailRequest p e.term)
      ((F.following L.currentTerm v et ps).refusal (L.tailRequest p e.term)) =
        .ok (L.retrying peer i) := by
    unfold onAppendEntriesReply
    rw [if_pos ⟨rfl, h.leads⟩, hsucc, if_neg (by simp), hterm, following_currentTerm,
      if_neg (by simp), if_pos rfl]
    exact hback v et ps
  simp only [exchange, h.replicateOnceRound_eq hn he, happ]
  rw [show (L.tailRequest p e.term).term = L.currentTerm from rfl, hreply, hsucc]

/-- The follower's log is too short: the leader tries its last entry next. -/
theorem BackingOff.round_short (h : BackingOff L F peer) {p : Nat}
    (hn : L.nextIndex peer = p + 1) (hp : F.getLastLog.index < p) :
    ∃ v et ps, exchange gob peer (L, F) =
      some ((L.retrying peer (F.getLastLog.index + 1), F.following L.currentTerm v et ps),
        false) := by
  obtain ⟨p', e, hn', he⟩ := h.exists_prev
  obtain rfl : p' = p := by omega
  have hnone : F.termAt p' = none := h.followerLog.wellFormed.1.termAt_eq_none hp
  refine h.round_refused gob hn he (by simp [hnone]) fun v et ps => ?_
  have hshort : (F.following L.currentTerm v et ps).getLastLog.index < p' := hp
  simp only [refusal, tailRequest, hshort, ↓reduceIte]
  rfl

/-- The reply to a request whose entry has another term in the follower's log. -/
theorem refusal_of_long {p : Nat} {e : LogEntry C} (hp : p ≤ F.getLastLog.index)
    (v : Option (Fin n)) (et : Timer) (ps : Persister) :
    (F.following L.currentTerm v et ps).refusal (L.tailRequest p e.term) =
      ⟨L.currentTerm, false, p + 1, e.term⟩ := by
  have hlong : ¬ (F.following L.currentTerm v et ps).getLastLog.index < p := Nat.not_lt.mpr hp
  simp only [refusal, tailRequest, hlong, ↓reduceIte]
  rfl

/-- The entry below has the same term: the leader tries two entries lower. -/
theorem BackingOff.round_down (h : BackingOff L F peer) {p : Nat}
    (hn : L.nextIndex peer = p + 2) (hp : p + 1 ≤ F.getLastLog.index)
    (hne : F.termAt (p + 1) ≠ L.termAt (p + 1))
    (heq : L.termAt p = L.termAt (p + 1)) :
    ∃ v et ps, exchange gob peer (L, F) =
      some ((L.retrying peer p, F.following L.currentTerm v et ps), false) := by
  obtain ⟨p', e, hn', he⟩ := h.exists_prev
  obtain rfl : p' = p + 1 := by omega
  obtain ⟨_, hf⟩ := h.leaderLog.wellFormed
  have hte : L.termAt (p + 1) = some e.term := by simp [h.leaderLog.termAt_eq, he]
  rw [hte] at hne heq
  rw [h.leaderLog.termAt_eq] at heq
  refine h.round_refused gob hn he hne fun v et ps => ?_
  rw [refusal_of_long hp]
  obtain ⟨x, hx, hxt⟩ := Option.map_eq_some_iff.mp heq
  simp only [backOff, tailRequest, hf, Nat.sub_zero, findTerm, hx, hxt]
  simp [bind, Except.bind, pure, Except.pure, retrying]

/-- The leader's search finds nothing when all entries below have other terms. -/
theorem findTerm_eq_none {rf : Raft n C} {t : Int} {m : Nat} (hm : m ≤ rf.logs.length)
    (h : ∀ j < m, ∀ e, rf.logs[j]? = some e → (e.term : Int) ≠ t) :
    rf.findTerm t m = .ok none := by
  induction m with
  | zero => rfl
  | succ m ih =>
    have hget : rf.logs[m]? = some rf.logs[m] := List.getElem?_eq_getElem (by omega)
    rw [findTerm, hget]
    simp only
    rw [if_neg (h m (by omega) _ hget)]
    exact ih (by omega) fun j hj => h j (by omega)

/-- The entry below has a lower term: the leader tries the same entry again. -/
theorem BackingOff.round_stay (h : BackingOff L F peer) {p : Nat}
    (hn : L.nextIndex peer = p + 1) (hp : p ≤ F.getLastLog.index)
    (hne : F.termAt p ≠ L.termAt p) (hlow : L.termAt (p - 1) ≠ L.termAt p) :
    ∃ v et ps, exchange gob peer (L, F) =
      some ((L.retrying peer (p + 1), F.following L.currentTerm v et ps), false) := by
  obtain ⟨p', e, hn', he⟩ := h.exists_prev
  obtain rfl : p' = p := by omega
  obtain ⟨_, hf⟩ := h.leaderLog.wellFormed
  have hpl := (List.getElem?_eq_some_iff.mp he).1
  have hte : L.termAt p' = some e.term := by simp [h.leaderLog.termAt_eq, he]
  rw [hte] at hne hlow
  have hnone : L.findTerm (e.term : Int) p' = .ok none := by
    refine findTerm_eq_none hpl.le fun j hj x hx hxt => hlow ?_
    have hget : L.logs[p' - 1]? = some L.logs[p' - 1] := List.getElem?_eq_getElem (by omega)
    have hle : L.logs[p' - 1].term ≤ e.term := h.leaderLog.term_le (by omega) hget he
    have hge : e.term ≤ L.logs[p' - 1].term := by
      have hxt : x.term = e.term := by exact_mod_cast hxt
      rcases Nat.lt_or_eq_of_le (show j ≤ p' - 1 by omega) with hlt | rfl
      · exact hxt ▸ h.leaderLog.term_le hlt hx hget
      · rw [Option.some.inj (hget.symm.trans hx)]
        exact hxt.ge
    rw [h.leaderLog.termAt_eq, hget, Option.map_some]
    exact congrArg some (le_antisymm hle hge)
  refine h.round_refused gob hn he hne fun v et ps => ?_
  rw [refusal_of_long hp]
  simp only [backOff, tailRequest, hf, Nat.sub_zero, hnone]
  simp [bind, Except.bind, pure, Except.pure, retrying]

/-! ## All rounds -/

/-- The back-off from `p` gets through: wherever the logs disagree among `p`, `p - 2`,
`p - 4` and so on, the leader's entry below has the term of its entry there. -/
def GetsThrough (L F : Raft n C) (p : Nat) : Prop :=
  ∀ k, 2 * k ≤ p → F.termAt (p - 2 * k) ≠ L.termAt (p - 2 * k) →
    L.termAt (p - 2 * k - 1) = L.termAt (p - 2 * k)

theorem getsThrough_add_two {p : Nat} :
    GetsThrough L F (p + 2) ↔
      (F.termAt (p + 2) ≠ L.termAt (p + 2) → L.termAt (p + 1) = L.termAt (p + 2)) ∧
        GetsThrough L F p := by
  constructor
  · intro h
    refine ⟨fun hne => by simpa using h 0 (by omega) (by simpa using hne), fun k hk hne => ?_⟩
    have hq : p + 2 - 2 * (k + 1) = p - 2 * k := by omega
    have := h (k + 1) (by omega) (by rwa [hq])
    rwa [hq] at this
  · rintro ⟨h0, h⟩ k hk hne
    cases k with
    | zero => simpa using h0 (by simpa using hne)
    | succ k =>
      have hq : p + 2 - 2 * (k + 1) = p - 2 * k := by omega
      rw [hq] at hne ⊢
      exact h k (by omega) hne

/-- Where the logs agree, nothing below stands in the way. -/
theorem BackingOff.getsThrough_of_agree (h : BackingOff L F peer) {p : Nat}
    (hp : p ≤ L.getLastLog.index) (ht : F.termAt p = L.termAt p) : GetsThrough L F p := by
  intro k _ hne
  refine absurd ?_ hne
  rw [h.followerLog.termAt_eq, h.leaderLog.termAt_eq,
    h.same_below hp ht (show p - 2 * k ≤ p by omega)]

/-- At the dummy entries the logs agree, and no entry has the term of the dummy. -/
theorem BackingOff.dummy_term (h : BackingOff L F peer) :
    F.termAt 0 = L.termAt 0 ∧ ∀ e, L.logs[1]? = some e → L.termAt 0 ≠ some e.term := by
  obtain ⟨x, xs, hL, _, hx⟩ := h.leaderLog.cons
  obtain ⟨y, ys, hF, _, hy⟩ := h.followerLog.cons
  have hpos := h.leaderLog.positive
  rw [h.followerLog.termAt_eq, h.leaderLog.termAt_eq, hL, hF]
  rw [hL, List.tail_cons] at hpos
  refine ⟨by simp [hx, hy], fun e he => ?_⟩
  have hmem : e ∈ xs := List.mem_of_getElem? (by simpa using he)
  have := hpos e hmem
  simp only [List.getElem?_cons_zero, Option.map_some, hx, ne_eq, Option.some.injEq]
  omega

/-- A leader that tries the same entry again never stops doing so. -/
theorem BackingOff.stuck (h : BackingOff L F peer) {p : Nat} (hn : L.nextIndex peer = p + 1)
    (hp : p ≤ F.getLastLog.index) (hne : F.termAt p ≠ L.termAt p)
    (hlow : L.termAt (p - 1) ≠ L.termAt p) {P : Raft n C × Raft n C → Prop} :
    ¬ Succeeds (exchange gob peer) P (L, F) := by
  refine not_succeeds (I := fun s => BackingOff s.1 s.2 peer ∧ s.1.nextIndex peer = p + 1 ∧
    p ≤ s.2.getLastLog.index ∧ s.2.termAt p ≠ s.1.termAt p ∧
    s.1.termAt (p - 1) ≠ s.1.termAt p) ?_ ⟨h, hn, hp, hne, hlow⟩
  rintro ⟨L, F⟩ ⟨h, hn, hp, hne, hlow⟩
  obtain ⟨v, et, ps, hround⟩ := h.round_stay gob hn hp hne hlow
  have hle := h.next_le
  exact .inr ⟨_, hround, h.round (by omega) (by omega) v et ps, by simp, hp, hne, hlow⟩

/-- From an entry that both logs reach, success is exactly a matter of `GetsThrough`. -/
theorem BackingOff.succeeds_iff_of_le (h : BackingOff L F peer) {p : Nat}
    (hn : L.nextIndex peer = p + 1) (hp : p ≤ F.getLastLog.index) :
    Succeeds (exchange gob peer) (CaughtUp L.logs peer) (L, F) ↔
      GetsThrough L F p := by
  induction p using Nat.strong_induction_on generalizing L F with
  | _ p ih =>
    have hle := h.next_le
    by_cases ht : F.termAt p = L.termAt p
    · obtain ⟨s, hround, hs⟩ := h.round_agree gob hn ht
      have hthrough := h.getsThrough_of_agree (show p ≤ L.getLastLog.index by omega) ht
      exact ⟨fun _ => hthrough, fun _ => succeeds_of_done hround hs⟩
    · by_cases hlow : L.termAt (p - 1) = L.termAt p
      · -- The entry compared is above 1, since no entry has the term of the dummy.
        obtain ⟨hagree, hdummy⟩ := h.dummy_term
        obtain ⟨p', e, hn', he⟩ := h.exists_prev
        obtain rfl : p' = p := by omega
        rcases p' with _ | _ | q
        · exact absurd hagree ht
        · exact absurd (hlow.trans (by simp [h.leaderLog.termAt_eq, he])) (hdummy e he)
        · obtain ⟨v, et, ps, hround⟩ := h.round_down gob hn hp ht hlow
          have hnext := ih q (by omega) (h.round (show 1 ≤ q + 1 by omega) (by omega) v et ps)
            (by simp) (show q ≤ F.getLastLog.index by omega)
          rw [succeeds_iff_of_round hround, getsThrough_add_two]
          exact hnext.trans ⟨fun hg => ⟨fun _ => hlow, hg⟩, fun hg => hg.2⟩
      · refine ⟨fun hs => absurd hs (h.stuck gob hn hp ht hlow), fun hg => ?_⟩
        exact absurd (hg 0 (by omega) (by simpa using ht)) (by simpa using hlow)

/-- Between two uncompacted logs that match, repeated replication ends in success,
with the follower's log the leader's, exactly if the back-off from the last entry that
both logs may have gets through. -/
theorem backOff_terminates_iff (h : BackingOff L F peer) :
    Succeeds (exchange gob peer) (CaughtUp L.logs peer) (L, F) ↔
      GetsThrough L F (min (L.nextIndex peer - 1) F.getLastLog.index) := by
  have hpos := h.next_pos
  have hle := h.next_le
  by_cases hp : L.nextIndex peer - 1 ≤ F.getLastLog.index
  · rw [Nat.min_eq_left hp]
    exact h.succeeds_iff_of_le gob (by omega) hp
  · rw [Nat.min_eq_right (by omega)]
    obtain ⟨v, et, ps, hround⟩ :=
      h.round_short gob (p := L.nextIndex peer - 1) (by omega) (by omega)
    have hnext := (h.round (show 1 ≤ F.getLastLog.index + 1 by omega) (by omega) v et
      ps).succeeds_iff_of_le gob (p := F.getLastLog.index) (by simp) le_rfl
    rw [succeeds_iff_of_round hround]
    exact hnext

/-- A peer of three in term `T` with the given log. -/
def peerOfThree (me : Fin 3) (T : Nat) (l : List (LogEntry Nat)) : Raft 3 Nat :=
  fresh me makePersister T none l

/-- A leader of three in term `T` with the given log, about to send from `next` on. -/
def leaderOfThree (T next : Nat) (l : List (LogEntry Nat)) : Raft 3 Nat :=
  { peerOfThree 0 T l with state := .leader, nextIndex := fun _ => next }

theorem backOff_terminates_two_lower :
    Succeeds (exchange (natGob 3) 1)
      (CaughtUp [.dummy, ⟨some 1, 1, 1⟩, ⟨some 4, 3, 2⟩, ⟨some 5, 3, 3⟩] 1)
      (leaderOfThree 3 4 [.dummy, ⟨some 1, 1, 1⟩, ⟨some 4, 3, 2⟩, ⟨some 5, 3, 3⟩],
        peerOfThree 1 2 [.dummy, ⟨some 1, 1, 1⟩, ⟨some 2, 2, 2⟩, ⟨some 3, 2, 3⟩]) := by
  have h : BackingOff
      (leaderOfThree 3 4 [.dummy, ⟨some 1, 1, 1⟩, ⟨some 4, 3, 2⟩, ⟨some 5, 3, 3⟩])
      (peerOfThree 1 2 [.dummy, ⟨some 1, 1, 1⟩, ⟨some 2, 2, 2⟩, ⟨some 3, 2, 3⟩]) 1 := by
    refine ⟨rfl, by decide, ⟨rfl, by decide, by decide, by decide, by decide⟩,
      ⟨rfl, by decide, by decide, by decide, by decide⟩, ?_, by decide, by decide, by decide⟩
    unfold LogsMatch
    decide
  refine (backOff_terminates_iff (natGob 3) h).mpr ?_
  intro k hk hne
  have hk : 2 * k ≤ 3 := hk
  rcases (show k = 0 ∨ k = 1 by omega) with rfl | rfl
  · decide
  · exact absurd rfl hne

/-- With one entry each, of different terms, no round ever succeeds. -/
theorem backOff_never_ends :
    ∃ L F : Raft 3 Nat, BackingOff L F 1 ∧
      ¬ Succeeds (exchange (natGob 3) 1) (fun _ => True) (L, F) := by
  have h : BackingOff (leaderOfThree 2 2 [.dummy, ⟨some 1, 1, 1⟩])
      (peerOfThree 1 2 [.dummy, ⟨some 2, 2, 1⟩]) 1 := by
    refine ⟨rfl, by decide, ⟨rfl, by decide, by decide, by decide, by decide⟩,
      ⟨rfl, by decide, by decide, by decide, by decide⟩, ?_, by decide, by decide, by decide⟩
    unfold LogsMatch
    decide
  exact ⟨_, _, h, h.stuck (natGob 3) (p := 1) rfl (by decide) (by decide) (by decide)⟩

end RaftImplementation
