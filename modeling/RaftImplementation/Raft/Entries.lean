import RaftImplementation.Raft.Elections

/-!
# Where entries come from

Every entry outside position 0, in a log or under way, was appended by a `Start`
call that the trace has recorded. In its term a leader's last index never goes
down, and a term has one leader, so no two calls return the same index and term.
-/

namespace RaftImplementation

open Library Cluster Raft

variable {n : Nat} {C : Type}

/-- The index and term a `Start` call returned. -/
def Event.startKey : Event n C → Option (Nat × Nat)
  | .started _ index term _ => some (index, term)
  | _ => none

/-- The entry was appended by a `Start` call. -/
def StartedAs (tr : List (Event n C)) (e : LogEntry C) : Prop :=
  ∃ p, Event.started p e.index e.term e.command ∈ tr

theorem StartedAs.append {tr : List (Event n C)} {e : LogEntry C} (h : StartedAs tr e)
    (es : List (Event n C)) : StartedAs (tr ++ es) e := by
  obtain ⟨p, hp⟩ := h
  exact ⟨p, List.mem_append_left _ hp⟩

structure Created (tr : List (Event n C)) (c : Cluster n C) : Prop where
  logs : ∀ p, ∀ e ∈ (c.raft p).logs.tail, StartedAs tr e
  requests : ∀ m ∈ c.rpcs, ∀ args, m.body = .appendEntries args →
    ∀ e ∈ args.entries, StartedAs tr e
  led : ∀ p i T cmd, Event.started p i T cmd ∈ tr → Led tr p T
  /-- A leader's log reaches as far as every call of its term. -/
  bound : ∀ p i cmd, (c.raft p).state = .leader →
    Event.started p i (c.raft p).currentTerm cmd ∈ tr → i ≤ (c.raft p).getLastLog.index
  unique : tr.Pairwise fun e e' => ∀ k, e.startKey = some k → e'.startKey ≠ some k

variable {gob : Gob n C} {c c' : Cluster n C} {a : Action n C} {tr es : List (Event n C)}

theorem created_init : Created ([] : List (Event n C)) init where
  logs p e he := by simp [init] at he
  requests m hm := by simp [init] at hm
  led p i T cmd h := by simp at h
  bound p i cmd h := by simp [init] at h
  unique := List.Pairwise.nil

theorem mem_of_startKey_none (hes : ∀ e ∈ es, e.startKey = none) {p : Fin n} {i T : Nat}
    {cmd : Option C} (h : Event.started p i T cmd ∈ tr ++ es) :
    Event.started p i T cmd ∈ tr := by
  rcases List.mem_append.mp h with h | h
  · exact h
  · simpa [Event.startKey] using hes _ h

theorem Created.unique_append (hk : Created tr c) (hes : ∀ e ∈ es, e.startKey = none) :
    (tr ++ es).Pairwise fun e e' => ∀ k, e.startKey = some k → e'.startKey ≠ some k := by
  refine List.pairwise_append.mpr ⟨hk.unique, ?_, ?_⟩
  · refine List.Pairwise.imp_of_mem ?_ (List.pairwise_of_forall (R := fun _ _ => True) (by simp))
    intro e e' he _ _ k hkey
    rw [hes e he] at hkey
    cases hkey
  · intro e _ e' he' k _ hkey
    rw [hes e' he'] at hkey
    cases hkey

/-- A move that appends an entry is a `Start` call on a leader. -/
theorem moves_started (h : Moves gob c a c' es) : (∀ e ∈ es, e.startKey = none) ∨
    ∃ p command ps, (c.raft p).state = .leader ∧
      c' = c.setRaft p ((c.raft p).appending command ps) ∧
      es = [.started p ((c.raft p).getLastLog.index + 1) (c.raft p).currentTerm command] := by
  cases h with
  | started p command ps hs hps => exact .inr ⟨p, command, ps, hs, rfl, rfl⟩
  | voteHandled k m args rf reply hm hb hh =>
    left
    split
    · simp [Event.startKey]
    · simp
  | _ =>
    left
    simp [Event.startKey]

/-- The first entry that is dropped from a log is not in position 0. -/
theorem mem_tail_of_mem_drop {l : List (LogEntry C)} {k : Nat} (hk : 0 < k) {e : LogEntry C}
    (he : e ∈ l.drop k) : e ∈ l.tail := by
  obtain ⟨j, rfl⟩ : ∃ j, k = j + 1 := ⟨k - 1, by omega⟩
  rw [← List.drop_one]
  rw [Nat.add_comm, ← List.drop_drop] at he
  exact List.mem_of_mem_drop he

theorem mem_tail_spliced {h : LogEntry C} {l entries : List (LogEntry C)} {i : Nat}
    (hc : Contiguous i entries) (hi : h.index < i) {e : LogEntry C}
    (he : e ∈ (spliced h.index (h :: l) entries).tail) : e ∈ l ∨ e ∈ entries := by
  rcases spliced_cases h.index (h :: l) hc hi.le with ⟨heq, _⟩ | ⟨k, x, _, heq, _, _⟩
  · rw [heq] at he
    exact .inl he
  · obtain ⟨m, hm⟩ : ∃ m, i + k - h.index = m + 1 := ⟨i + k - h.index - 1, by omega⟩
    rw [heq, hm, List.take_succ_cons, List.cons_append, List.tail_cons] at he
    rcases List.mem_append.mp he with he | he
    · exact .inl (List.mem_of_mem_take he)
    · exact .inr (List.mem_of_mem_drop he)

/-- A `Start` call returns an index no call of the term has returned. -/
theorem created_started (hc : Sound gob c) (he : Elections tr c) (hk : Created tr c)
    {p : Fin n} {command : Option C} {ps : Persister} (hs : (c.raft p).state = .leader) :
    Created (tr ++ [.started p ((c.raft p).getLastLog.index + 1) (c.raft p).currentTerm command])
      (c.setRaft p ((c.raft p).appending command ps)) := by
  have hlast : ((c.raft p).appending command ps).getLastLog.index =
      (c.raft p).getLastLog.index + 1 := by
    simp [getLastLog, newEntry]
  have hled := he.leader p hs
  refine ⟨?_, ?_, ?_, ?_, ?_⟩
  · intro q e hmem
    rw [setRaft_raft] at hmem
    split at hmem
    · rw [appending_logs, List.tail_append_of_ne_nil (hc.wellFormed p).ne_nil] at hmem
      rcases List.mem_append.mp hmem with hmem | hmem
      · exact (hk.logs p e hmem).append _
      · rw [List.mem_singleton.mp hmem]
        exact ⟨p, List.mem_append_right _ (List.mem_singleton.mpr rfl)⟩
    · exact (hk.logs q e hmem).append _
  · intro m hm args hb e hmem
    exact (hk.requests m hm args hb e hmem).append _
  · intro q i T cmd h
    refine led_append.mpr (.inl ?_)
    rcases List.mem_append.mp h with h | h
    · exact hk.led q i T cmd h
    · cases List.mem_singleton.mp h
      exact hled
  · intro q i cmd hq h
    by_cases hqp : q = p
    · subst hqp
      rw [setRaft_raft_self] at h ⊢
      rw [hlast]
      rcases List.mem_append.mp h with h | h
      · exact (hk.bound q i cmd hs h).trans (Nat.le_succ _)
      · cases List.mem_singleton.mp h
        exact le_rfl
    · rw [setRaft_raft_ne c p _ hqp] at hq h ⊢
      rcases List.mem_append.mp h with h | h
      · exact hk.bound q i cmd hq h
      · exact absurd (Event.started.inj (List.mem_singleton.mp h)).1 hqp
  · refine List.pairwise_append.mpr ⟨hk.unique, List.pairwise_singleton .., ?_⟩
    rintro e hmem e' hmem' k hkey hkey'
    cases List.mem_singleton.mp hmem'
    cases e with
    | started q i T cmd =>
      have heq : some (i, T) =
          some ((c.raft p).getLastLog.index + 1, (c.raft p).currentTerm) := hkey.trans hkey'.symm
      simp only [Option.some.injEq, Prod.mk.injEq] at heq
      obtain ⟨rfl, rfl⟩ := heq
      have hqp : q = p := he.led_unique (hk.led _ _ _ _ hmem) hled
      subst hqp
      have := hk.bound q _ cmd hs hmem
      omega
    | _ => cases hkey

/-- The entry is part of an `AppendEntries` request under way. -/
def Requested (c : Cluster n C) (e : LogEntry C) : Prop :=
  ∃ m ∈ c.rpcs, ∃ args, m.body = .appendEntries args ∧ e ∈ args.entries

/-- Every entry of the second log, position 0 apart, is one of the first or requested. -/
def Grows (c : Cluster n C) (rf rf' : Raft n C) : Prop :=
  ∀ e ∈ rf'.logs.tail, e ∈ rf.logs.tail ∨ Requested c e

theorem Grows.of_logs {rf rf' : Raft n C} (hl : rf'.logs = rf.logs) : Grows c rf rf' :=
  fun _ he => .inl (hl ▸ he)

theorem Grows.cut {rf rf' : Raft n C} {t i : Nat} (hf : rf.getFirstLog.index ≤ i)
    (hl : rf'.logs = rf.cutLogs t i) : Grows c rf rf' := by
  intro e he
  rw [hl] at he
  exact .inl (mem_tail_of_mem_drop (by omega) he)

theorem Grows.accept (hc : Sound gob c) {k : Nat} {m : Rpc n C} {args : AppendEntriesArgs n C}
    {v : Option (Fin n)} {et : Timer} {ps : Persister} (hm : c.rpcs[k]? = some m)
    (hb : m.body = .appendEntries args)
    (hf : (c.raft m.callee).getFirstLog.index ≤ args.prevLogIndex) :
    Grows c (c.raft m.callee) ((c.raft m.callee).accepting args v et ps) := by
  intro e he
  have hmem := List.mem_of_getElem? hm
  obtain ⟨l, hl, _⟩ := (hc.wellFormed m.callee).cons
  rw [accepting_logs, hl] at he
  rcases mem_tail_spliced (hc.entries m hmem args hb) (by omega) he with h | h
  · rw [hl]
    exact .inl h
  · exact .inr ⟨m, hmem, args, hb, h⟩

/-- Apart from `Start`, a log takes its entries from requests. -/
theorem moves_grows (hc : Sound gob c) (h : Moves gob c a c' es)
    (hes : ∀ e ∈ es, e.startKey = none) : ∀ q, Grows c (c.raft q) (c'.raft q) := by
  have hrefl : ∀ rf : Raft n C, Grows c rf rf := fun _ => .of_logs rfl
  cases h with
  | started p command ps hs hps => simp [Event.startKey] at hes
  | timers p et tk => exact setRaft_rel hrefl (.of_logs rfl)
  | lose k => exact fun _ => hrefl _
  | reboot p rpcs hsub => exact restarted_rel hrefl (.of_logs rfl)
  | stand p et ps hps => exact setRaft_rel hrefl (.of_logs rfl)
  | asked p peer args hne ha => exact fun _ => hrefl _
  | voteHandled k m args rf reply hm hb hh =>
    refine setRaft_rel hrefl ?_
    cases hh with
    | refused => exact hrefl _
    | behind et ps ht hps => exact .of_logs rfl
    | granted st et ps ht hst hst' hv hup hps => exact .of_logs rfl
  | appendHandled k m args rf reply hm hb hh =>
    refine setRaft_rel hrefl ?_
    cases hh with
    | stale ht => exact hrefl _
    | refused v et ps reply ht hv hps hs hr hci => exact .of_logs rfl
    | accepted v et ps ht hv hf hprev hps => exact .accept hc hm hb hf
  | snapshotHandled k m args rf hm hb hh =>
    refine setRaft_rel hrefl ?_
    cases hh with
    | stale ht => exact hrefl _
    | ignored v et ps ht hv hps => exact .of_logs rfl
    | queued v et ps ht hv hps hci => exact .of_logs rfl
  | outrun k m t et ps => exact setRaft_rel hrefl (.of_logs rfl)
  | counted k m args reply => exact setRaft_rel hrefl (.of_logs rfl)
  | won k m args reply et => exact setRaft_rel hrefl (.of_logs rfl)
  | backedOff k m args reply i => exact setRaft_rel hrefl (.of_logs rfl)
  | matched k m args reply ci => exact setRaft_rel hrefl (.of_logs rfl)
  | recorded k m args reply => exact setRaft_rel hrefl (.of_logs rfl)
  | snapshotTaken p index data e ps hrec hf => exact setRaft_rel hrefl (.cut hf.le rfl)
  | outdated p m hrec hci => exact fun _ => hrefl _
  | installed p m ps hrec hci hf => exact setRaft_rel hrefl (.cut hf rfl)
  | copied p spare => exact setRaft_rel hrefl (.of_logs rfl)
  | sentEntry p ci e rest => exact handed_rel hrefl (.of_logs rfl)
  | finished p ci => exact setRaft_rel hrefl (.of_logs rfl)
  | sentSnapshot p k m => exact handed_rel hrefl (.of_logs rfl)

/-- A request carries entries of an older request, or of the log of its caller. -/
theorem moves_requested (h : Moves gob c a c' es) {e : LogEntry C} (he : Requested c' e) :
    Requested c e ∨ ∃ p, e ∈ (c.raft p).logs.tail := by
  obtain ⟨m, hm, args, hb, he⟩ := he
  cases moves_origin h hm with
  | old hm => exact .inl ⟨m, hm, args, hb, he⟩
  | asked args' hb' ha hne hboot hsame =>
    rw [hb'] at hb
    cases ha with
    | install hs hn => cases hb
    | append i e' hs hn hf hget =>
      cases hb
      exact .inr ⟨m.caller, mem_tail_of_mem_drop (by omega) he⟩
  | vote hne hb' => cases hb'.symm.trans hb
  | voted m₀ args' reply hm₀ hb₀ heq => rw [heq] at hb; cases hb
  | appended m₀ args' reply hm₀ hb₀ heq => rw [heq] at hb; cases hb
  | snapshotted m₀ args' hm₀ hb₀ heq => rw [heq] at hb; cases hb

/-- A move that is not a `Start` call: entries come from logs and requests, leaders stay
what they are, and a new leader finds no call of its term. -/
theorem created_quiet (hc : Sound gob c) (he : Elections tr c) (hk : Created tr c)
    (h : Moves gob c a c' es) (hes : ∀ e ∈ es, e.startKey = none) : Created (tr ++ es) c' := by
  have hreq : ∀ e, Requested c e → StartedAs tr e := by
    rintro e ⟨m, hm, args, hb, he⟩
    exact hk.requests m hm args hb e he
  refine ⟨?_, ?_, ?_, ?_, hk.unique_append hes⟩
  · intro q e hmem
    rcases moves_grows hc h hes q e hmem with hold | hnew
    · exact (hk.logs q e hold).append es
    · exact (hreq e hnew).append es
  · intro m hm args hb e hmem
    rcases moves_requested h ⟨m, hm, args, hb, hmem⟩ with hold | ⟨p, hlog⟩
    · exact (hreq e hold).append es
    · exact (hk.logs p e hlog).append es
  · intro q i T cmd hmem
    exact led_append.mpr (.inl (hk.led q i T cmd (mem_of_startKey_none hes hmem)))
  · intro q i cmd hs hmem
    have hmem := mem_of_startKey_none hes hmem
    rcases moves_leads hc h q with hlead | hel
    · obtain ⟨hs₀, hT, hlast⟩ := hlead hs
      rw [hT] at hmem
      exact (hk.bound q i cmd hs₀ hmem).trans hlast
    · obtain ⟨et, heq⟩ := hel.eq
      rw [heq] at hmem
      exact absurd (hk.led q i _ cmd hmem) (he.candidate q hel.candidate).2.1

theorem created_moves (hc : Sound gob c) (he : Elections tr c) (hk : Created tr c)
    (h : Moves gob c a c' es) : Created (tr ++ es) c' := by
  rcases moves_started h with hes | ⟨p, command, ps, hs, rfl, rfl⟩
  · exact created_quiet hc he hk h hes
  · exact created_started hc he hk hs

theorem created_run {ok : Cluster n C → Action n C → Prop} (h : RunWhere gob ok tr c) :
    Created tr c := by
  have hboth : Elections tr c ∧ Created tr c := by
    refine h.invariant (fun tr c => Elections tr c ∧ Created tr c)
      ⟨elections_init, created_init⟩ ?_
    rintro tr c a c' es hc ⟨he, hk⟩ _ _ hm
    exact ⟨elections_electoral hc he (moves_electoral hm), created_moves hc he hk hm⟩
  exact hboth.2

/-! ## Index and term identify a command -/

/-- The entry stands outside position 0 of a log, in memory or durable, or in an
`AppendEntries` request under way. -/
def Held (gob : Gob n C) (c : Cluster n C) (e : LogEntry C) : Prop :=
  (∃ p, e ∈ (c.raft p).logs.tail) ∨
  (∃ p t v l, durable gob (c.raft p).persister = some (t, v, l) ∧ e ∈ l.tail) ∨
  (∃ m ∈ c.rpcs, ∃ args, m.body = .appendEntries args ∧ e ∈ args.entries)

theorem Held.startedAs (hc : Sound gob c) (hk : Created tr c) {e : LogEntry C}
    (h : Held gob c e) : StartedAs tr e := by
  rcases h with ⟨p, h⟩ | ⟨p, t, v, l, hd, h⟩ | ⟨m, hm, args, hb, h⟩
  · exact hk.logs p e h
  · rw [hc.mirrored p] at hd
    cases hd
    exact hk.logs p e h
  · exact hk.requests m hm args hb e h

/-- Two recorded calls with one index and term are one event of the trace. -/
theorem Created.same_call (hk : Created tr c) {i j index term : Nat} {p q : Fin n}
    {cmd cmd' : Option C} (hi : tr[i]? = some (.started p index term cmd))
    (hj : tr[j]? = some (.started q index term cmd')) : i = j := by
  obtain ⟨hil, hi⟩ := List.getElem?_eq_some_iff.mp hi
  obtain ⟨hjl, hj⟩ := List.getElem?_eq_some_iff.mp hj
  have hpair := List.pairwise_iff_getElem.mp hk.unique
  rcases Nat.lt_trichotomy i j with hlt | heq | hlt
  · exact absurd (by rw [hj]; rfl) (hpair i j hil hjl hlt (index, term) (by rw [hi]; rfl))
  · exact heq
  · exact absurd (by rw [hi]; rfl) (hpair j i hjl hil hlt (index, term) (by rw [hj]; rfl))

/-- In every state of every run, entries with the same index and term carry the same
command, and no two `Start` calls returned the same index and term. -/
theorem index_term_identifies_command (h : ClusterRun gob tr c) :
    (∀ e e', Held gob c e → Held gob c e' → e.index = e'.index → e.term = e'.term →
      e.command = e'.command) ∧
    (∀ (i j : Nat) (p q : Fin n) (index term : Nat) (cmd cmd' : Option C),
      tr[i]? = some (.started p index term cmd) →
      tr[j]? = some (.started q index term cmd') → i = j) := by
  have hc := sound_run h
  have hk := created_run h
  constructor
  · intro e e' he he' hidx hterm
    obtain ⟨p, hp⟩ := he.startedAs hc hk
    obtain ⟨q, hq⟩ := he'.startedAs hc hk
    rw [← hidx, ← hterm] at hq
    obtain ⟨i, hi⟩ := List.mem_iff_getElem?.mp hp
    obtain ⟨j, hj⟩ := List.mem_iff_getElem?.mp hq
    have hij := hk.same_call hi hj
    rw [hij, hj] at hi
    exact (Event.started.inj (Option.some.inj hi)).2.2.2.symm
  · intro i j p q index term cmd cmd' hi hj
    exact hk.same_call hi hj

/-- Peer 0 leads, appends an entry, and has it on its way to peer 1. -/
def entryUnderWay : List (Action 3 Nat) :=
  Action.timeout 0 ++ [.deliver 0, .deliver 0, .lose 0, .start 0 (some 7), .replicate 0 1]

/-- The entry in the log of peer 0 and the one in its request. -/
theorem index_term_identifies_command_of_three :
    (∃ e ∈ ((ran (natGob 3) always entryUnderWay).1.raft 0).logs.tail, e.index = 1 ∧ e.term = 1) ∧
      (∃ m ∈ (ran (natGob 3) always entryUnderWay).1.rpcs, ∃ args, m.body = .appendEntries args ∧
        ∃ e ∈ args.entries, e.index = 1 ∧ e.term = 1) ∧
      ∀ e ∈ ((ran (natGob 3) always entryUnderWay).1.raft 0).logs.tail,
        ∀ m ∈ (ran (natGob 3) always entryUnderWay).1.rpcs, ∀ args,
          m.body = .appendEntries args → ∀ e' ∈ args.entries,
            e.index = e'.index → e.term = e'.term → e.command = e'.command := by
  have hrun : ClusterRun (natGob 3) (ran (natGob 3) always entryUnderWay).2
      (ran (natGob 3) always entryUnderWay).1 := reached_run (by decide +kernel)
  refine ⟨⟨⟨some 7, 1, 1⟩, by decide +kernel, rfl, rfl⟩, ?_, fun e he m hm args hb e' he' => ?_⟩
  · exact ⟨⟨0, 0, 1, .appendEntries ⟨1, 0, 0, 0, 0, [⟨some 7, 1, 1⟩]⟩⟩, by decide +kernel, _, rfl,
      _, List.mem_singleton_self _, rfl, rfl⟩
  · exact (index_term_identifies_command hrun).1 e e' (.inl ⟨0, he⟩)
      (.inr (.inr ⟨m, hm, args, hb, he'⟩))

end RaftImplementation
