import RaftImplementation.Raft.Encoding
import RaftImplementation.Raft.Moves

/-!
# One `AppendEntries` exchange

A leader always ships its whole tail. A follower that accepts keeps what it has as long
as the terms agree, and takes over the tail from the first index where they do not. So
after the exchange it has the leader's terms up to the leader's last index, and the bound
`min(LeaderCommit, last index)` on its commit index never bites.
-/

namespace RaftImplementation

open Raft

variable {n : Nat} {C : Type} (gob : Gob n C)

namespace Raft

/-! ## Terms by index -/

/-- The term of the log at index `i`, if it reaches there. -/
def termAt (rf : Raft n C) (i : Nat) : Option Nat :=
  if i < rf.getFirstLog.index then none
  else rf.logs[i - rf.getFirstLog.index]?.map LogEntry.term

variable {rf rf' : Raft n C} {i : Nat}

theorem termAt_of_le (hf : rf.getFirstLog.index ≤ i) :
    rf.termAt i = rf.logs[i - rf.getFirstLog.index]?.map LogEntry.term := by
  rw [termAt, if_neg (Nat.not_lt.mpr hf)]

theorem WellFormed.termAt_eq_some (hw : rf.WellFormed) (hf : rf.getFirstLog.index ≤ i)
    (hl : i ≤ rf.getLastLog.index) : ∃ t, rf.termAt i = some t := by
  obtain ⟨e, he, -⟩ := hw.exists_at hf hl
  rw [termAt_of_le hf, he]
  exact ⟨e.term, rfl⟩

theorem WellFormed.le_last_of_termAt (hw : rf.WellFormed) {t : Nat} (h : rf.termAt i = some t) :
    rf.getFirstLog.index ≤ i ∧ i ≤ rf.getLastLog.index := by
  have hlast := hw.last_index
  rw [termAt] at h
  split at h
  · cases h
  · obtain ⟨e, he, -⟩ := Option.map_eq_some_iff.mp h
    have hlt := (List.getElem?_eq_some_iff.mp he).1
    omega

theorem WellFormed.termAt_eq_none (hw : rf.WellFormed) (hl : rf.getLastLog.index < i) :
    rf.termAt i = none := by
  cases h : rf.termAt i with
  | none => rfl
  | some t =>
    have := hw.le_last_of_termAt h
    omega

theorem WellFormed.termAt_last (hw : rf.WellFormed) :
    rf.termAt rf.getLastLog.index = some rf.getLastLog.term := by
  have hlast := hw.last_index
  rw [termAt_of_le hw.first_le_last,
    show rf.getLastLog.index - rf.getFirstLog.index = rf.logs.length - 1 by omega, hw.get_last]
  rfl

/-- Logs that begin alike have the same terms there. -/
theorem termAt_congr {m : Nat} (hfirst : rf'.getFirstLog.index = rf.getFirstLog.index)
    (htake : rf'.logs.take m = rf.logs.take m) (hi : i < rf.getFirstLog.index + m) :
    rf'.termAt i = rf.termAt i := by
  rw [termAt, termAt, hfirst]
  split
  · rfl
  · have hlt : i - rf.getFirstLog.index < m := by omega
    rw [← List.getElem?_take_of_lt (l := rf'.logs) hlt, htake, List.getElem?_take_of_lt hlt]

/-- Entries that two logs share by index and term have the same terms before them. -/
def LogsMatch (F L : Raft n C) : Prop :=
  ∀ e ∈ F.logs, ∀ e' ∈ L.logs, e.index = e'.index → e.term = e'.term →
    ∀ d ∈ F.logs, ∀ d' ∈ L.logs, d.index = d'.index → d.index ≤ e.index → d.term = d'.term

theorem WellFormed.termAt_entry (hw : rf.WellFormed) {t : Nat}
    (h : rf.termAt i = some t) : ∃ e ∈ rf.logs, e.index = i ∧ e.term = t := by
  obtain ⟨hf, hl⟩ := hw.le_last_of_termAt h
  obtain ⟨e, he, hi⟩ := hw.exists_at hf hl
  rw [termAt_of_le hf, he, Option.map_some, Option.some.injEq] at h
  exact ⟨e, List.mem_of_getElem? he, hi, h⟩

theorem LogsMatch.termAt_eq {F L : Raft n C} {j t : Nat} (h : LogsMatch F L)
    (hF : F.WellFormed) (hL : L.WellFormed) (hFi : F.termAt i = some t)
    (hLi : L.termAt i = some t) (hj : j ≤ i) (hFj : F.getFirstLog.index ≤ j)
    (hLj : L.getFirstLog.index ≤ j) : F.termAt j = L.termAt j := by
  have hFl := (hF.le_last_of_termAt hFi).2
  have hLl := (hL.le_last_of_termAt hLi).2
  obtain ⟨t₁, ht₁⟩ := hF.termAt_eq_some hFj (by omega)
  obtain ⟨t₂, ht₂⟩ := hL.termAt_eq_some hLj (by omega)
  obtain ⟨e, he, hei, het⟩ := hF.termAt_entry hFi
  obtain ⟨e', he', hei', het'⟩ := hL.termAt_entry hLi
  obtain ⟨d, hd, hdj, hdt⟩ := hF.termAt_entry ht₁
  obtain ⟨d', hd', hdj', hdt'⟩ := hL.termAt_entry ht₂
  have hterm := h e he e' he' (by omega) (by omega) d hd d' hd' (by omega) (by omega)
  rw [ht₁, ht₂, ← hdt, ← hdt', hterm]

/-! ## The request and its effect -/

/-- The request that ships everything after `prev`. -/
def tailRequest (L : Raft n C) (prev prevTerm : Nat) : AppendEntriesArgs n C :=
  { term := L.currentTerm
    leaderId := L.me
    prevLogIndex := prev
    prevLogTerm := prevTerm
    leaderCommit := L.commitIndex
    entries := L.logs.drop (prev + 1 - L.getFirstLog.index) }

/-- What an accepted request of leader `L` leaves of follower `F`. -/
structure Exchanged (L F : Raft n C) (prev : Nat) (F' : Raft n C) : Prop where
  wellFormed : F'.WellFormed
  first : F'.getFirstLog.index = F.getFirstLog.index
  term : F'.currentTerm = L.currentTerm
  logs : F'.logs = spliced F.getFirstLog.index F.logs
    (L.logs.drop (prev + 1 - L.getFirstLog.index))
  below : F'.logs.take (prev + 1 - F.getFirstLog.index) =
    F.logs.take (prev + 1 - F.getFirstLog.index)
  agrees : ∀ i, prev < i → i ≤ L.getLastLog.index → F'.termAt i = L.termAt i
  kept : (∀ i, prev < i → i ≤ L.getLastLog.index → F.termAt i = L.termAt i) → F'.logs = F.logs
  cut : ∀ d, prev < d → d ≤ L.getLastLog.index →
    (∀ i, prev < i → i < d → F.termAt i = L.termAt i) → F.termAt d ≠ L.termAt d →
    F'.logs = F.logs.take (d - F.getFirstLog.index) ++ L.logs.drop (d - L.getFirstLog.index)
  commit : F'.commitIndex = max F.commitIndex L.commitIndex

section Tail

variable {L F : Raft n C} {prev : Nat}

theorem WellFormed.tail_contiguous (hL : L.WellFormed) (hf : L.getFirstLog.index ≤ prev)
    (hl : prev ≤ L.getLastLog.index) :
    Contiguous (prev + 1) (L.logs.drop (prev + 1 - L.getFirstLog.index)) := by
  have hlast := hL.last_index
  have hc := hL.contiguous.drop
    (show prev + 1 - L.getFirstLog.index ≤ L.logs.length by omega)
  rwa [show L.getFirstLog.index + (prev + 1 - L.getFirstLog.index) = prev + 1 by omega] at hc

/-- The entries of the tail, by index. -/
theorem tail_get (hf : L.getFirstLog.index ≤ prev) (j : Nat) :
    (L.logs.drop (prev + 1 - L.getFirstLog.index))[j]?.map LogEntry.term =
      L.termAt (prev + 1 + j) := by
  rw [termAt_of_le (by omega), List.getElem?_drop]
  congr 2
  omega

theorem WellFormed.genAppendEntriesArgs_tail (hL : L.WellFormed)
    (hf : L.getFirstLog.index ≤ prev) (hl : prev ≤ L.getLastLog.index) :
    ∃ t, L.termAt prev = some t ∧ L.genAppendEntriesArgs prev = .ok (L.tailRequest prev t) := by
  have hlast := hL.last_index
  rcases genAppendEntriesArgs_eq prev hf with ⟨e, he, hgen⟩ | ⟨hpast, -⟩
  · refine ⟨e.term, ?_, hgen⟩
    rw [termAt_of_le hf, he]
    rfl
  · omega

/-- The splice, on the tail of a leader. -/
theorem spliced_tail (hL : L.WellFormed) (hf : L.getFirstLog.index ≤ prev)
    (hl : prev ≤ L.getLastLog.index) (hF : F.getFirstLog.index ≤ prev) :
    (spliced F.getFirstLog.index F.logs (L.logs.drop (prev + 1 - L.getFirstLog.index)) = F.logs ∧
      ∀ i, prev < i → i ≤ L.getLastLog.index → F.termAt i = L.termAt i) ∨
    ∃ d, prev < d ∧ d ≤ L.getLastLog.index ∧
      spliced F.getFirstLog.index F.logs (L.logs.drop (prev + 1 - L.getFirstLog.index)) =
        F.logs.take (d - F.getFirstLog.index) ++ L.logs.drop (d - L.getFirstLog.index) ∧
      (∀ i, prev < i → i < d → F.termAt i = L.termAt i) ∧ F.termAt d ≠ L.termAt d := by
  have hlast := hL.last_index
  have hc := hL.tail_contiguous hf hl
  -- an entry of the tail that the follower has, by index and term
  have hterm : ∀ j x, (L.logs.drop (prev + 1 - L.getFirstLog.index))[j]? = some x →
      F.logs[x.index - F.getFirstLog.index]?.map LogEntry.term = some x.term →
      F.termAt (prev + 1 + j) = L.termAt (prev + 1 + j) := by
    intro j x hx heq
    rw [← tail_get hf, hx, termAt_of_le (by omega), ← hc.get hx, heq]
    rfl
  rcases spliced_cases F.getFirstLog.index F.logs hc (by omega) with
    ⟨heq, hall⟩ | ⟨k, e, he, heq, hall, hne⟩
  · refine .inl ⟨heq, ?_⟩
    intro i hi hil
    obtain ⟨j, rfl⟩ : ∃ j, i = prev + 1 + j := ⟨i - (prev + 1), by omega⟩
    have hj : j < (L.logs.drop (prev + 1 - L.getFirstLog.index)).length := by
      rw [List.length_drop]
      omega
    exact hterm j _ (List.getElem?_eq_getElem hj) (hall _ (List.getElem_mem hj))
  · have hk := (List.getElem?_eq_some_iff.mp he).1
    rw [List.length_drop] at hk
    refine .inr ⟨prev + 1 + k, by omega, by omega, ?_, ?_, ?_⟩
    · rw [heq, List.drop_drop]
      congr 2
      omega
    · intro i hi hid
      obtain ⟨j, rfl⟩ : ∃ j, i = prev + 1 + j := ⟨i - (prev + 1), by omega⟩
      have hj : j < (L.logs.drop (prev + 1 - L.getFirstLog.index)).length := by
        rw [List.length_drop]
        omega
      refine hterm j _ (List.getElem?_eq_getElem hj) (hall _ ?_)
      exact List.mem_take_iff_getElem.mpr ⟨j, by omega, rfl⟩
    · rw [← tail_get hf, he, termAt_of_le (by omega)]
      exact hne

/-- Where the follower's log ends before or differs at `d`, it still reaches up to there. -/
theorem WellFormed.reaches_of_agrees (hF : F.WellFormed) (hL : L.WellFormed) {d : Nat}
    (hprev : ∃ t, F.termAt prev = some t) (hf : L.getFirstLog.index ≤ prev) (hd : prev < d)
    (hdl : d ≤ L.getLastLog.index) (hag : ∀ i, prev < i → i < d → F.termAt i = L.termAt i) :
    d ≤ F.getLastLog.index + 1 := by
  by_cases hnext : d = prev + 1
  · obtain ⟨t, ht⟩ := hprev
    have := (hF.le_last_of_termAt ht).2
    omega
  · obtain ⟨t, ht⟩ := hL.termAt_eq_some (i := d - 1) (by omega) (by omega)
    rw [← hag (d - 1) (by omega) (by omega)] at ht
    have := (hF.le_last_of_termAt ht).2
    omega

/-- The follower's log up to `d`, followed by the leader's, has the leader's terms from `d` on. -/
theorem termAt_of_cut {F' : Raft n C} {d i : Nat} (hF : F.WellFormed)
    (hfirst : F'.getFirstLog.index = F.getFirstLog.index)
    (hlogs : F'.logs = F.logs.take (d - F.getFirstLog.index) ++
      L.logs.drop (d - L.getFirstLog.index))
    (hfd : F.getFirstLog.index ≤ d) (hld : L.getFirstLog.index ≤ d)
    (hd : d ≤ F.getLastLog.index + 1) (hi : d ≤ i) : F'.termAt i = L.termAt i := by
  have hlast := hF.last_index
  have hlen : (F.logs.take (d - F.getFirstLog.index)).length = d - F.getFirstLog.index :=
    List.length_take_of_le (by omega)
  rw [termAt_of_le (by omega), termAt_of_le (by omega), hfirst, hlogs,
    List.getElem?_append_right (by omega), hlen, List.getElem?_drop]
  congr 2
  omega

theorem exchanged_of_spliced {F' : Raft n C} (hL : L.WellFormed) (hF : F.WellFormed)
    (hcommit : L.commitIndex ≤ L.getLastLog.index) (hf : L.getFirstLog.index ≤ prev)
    (hl : prev ≤ L.getLastLog.index) (hff : F.getFirstLog.index ≤ prev)
    (hprev : ∃ t, F.termAt prev = some t) (hw : F'.WellFormed)
    (hfirst : F'.getFirstLog.index = F.getFirstLog.index)
    (hterm : F'.currentTerm = L.currentTerm)
    (hlogs : F'.logs = spliced F.getFirstLog.index F.logs
      (L.logs.drop (prev + 1 - L.getFirstLog.index)))
    (hci : F'.commitIndex = max F.commitIndex (min L.commitIndex F'.getLastLog.index)) :
    Exchanged L F prev F' := by
  have hcases := spliced_tail hL hf hl hff
  rw [← hlogs] at hcases
  have hbelow : F'.logs.take (prev + 1 - F.getFirstLog.index) =
      F.logs.take (prev + 1 - F.getFirstLog.index) := by
    obtain ⟨t, ht⟩ := hprev
    have hreach := (hF.le_last_of_termAt ht).2
    have hlast := hF.last_index
    rw [hlogs]
    exact spliced_take (hL.tail_contiguous hf hl) (by omega) (by omega)
  have hagrees : ∀ i, prev < i → i ≤ L.getLastLog.index → F'.termAt i = L.termAt i := by
    intro i hi hil
    rcases hcases with ⟨heq, hag⟩ | ⟨d, hd, hdl, heq, hag, -⟩
    · rw [termAt_congr (m := i + 1) hfirst (by rw [heq]) (by omega)]
      exact hag i hi hil
    · have hreach := hF.reaches_of_agrees hL hprev hf hd hdl hag
      by_cases hid : i < d
      · have hlast := hF.last_index
        rw [termAt_congr (m := d - F.getFirstLog.index) hfirst ?_ (by omega)]
        · exact hag i hi hid
        · have hlen : (F.logs.take (d - F.getFirstLog.index)).length = d - F.getFirstLog.index :=
            List.length_take_of_le (by omega)
          rw [heq, List.take_append_of_le_length (by omega), List.take_take, Nat.min_self]
      · exact termAt_of_cut hF hfirst heq (by omega) (by omega) hreach (by omega)
  have hreach : L.getLastLog.index ≤ F'.getLastLog.index := by
    by_cases hend : prev = L.getLastLog.index
    · obtain ⟨t, ht⟩ := hprev
      rw [← termAt_congr hfirst hbelow (by omega)] at ht
      have := (hw.le_last_of_termAt ht).2
      omega
    · obtain ⟨t, ht⟩ := hL.termAt_eq_some hL.first_le_last le_rfl
      rw [← hagrees _ (by omega) le_rfl] at ht
      exact (hw.le_last_of_termAt ht).2
  refine ⟨hw, hfirst, hterm, hlogs, hbelow, hagrees, ?_, ?_, ?_⟩
  · intro hall
    rcases hcases with ⟨heq, -⟩ | ⟨d, hd, hdl, -, -, hne⟩
    · exact heq
    · exact absurd (hall d hd hdl) hne
  · intro d hd hdl hag hne
    rcases hcases with ⟨-, hall⟩ | ⟨d', hd', hdl', heq, hag', hne'⟩
    · exact absurd (hall d hd hdl) hne
    · -- there is only one first index of disagreement
      have hsame : d = d' := by
        rcases Nat.lt_trichotomy d d' with hlt | heq | hgt
        · exact absurd (hag' d hd hlt) hne
        · exact heq
        · exact absurd (hag d' hd' hgt) hne'
      rw [hsame]
      exact heq
  · rw [hci, Nat.min_eq_left (by omega)]

/-- A follower accepts a request that finds its previous entry with its term. -/
theorem exchange_accepted (hL : L.WellFormed) (hF : F.WellFormed)
    (hcommit : L.commitIndex ≤ L.getLastLog.index) (hf : L.getFirstLog.index ≤ prev)
    (hl : prev ≤ L.getLastLog.index) (ht : F.currentTerm ≤ L.currentTerm)
    (hff : F.getFirstLog.index ≤ prev) {t : Nat} (hFt : F.termAt prev = some t) :
    ∃ F', F.appendEntries gob (L.tailRequest prev t) =
        .ok (F', { term := L.currentTerm, success := true }) ∧ Exchanged L F prev F' := by
  have hc : Contiguous ((L.tailRequest prev t).prevLogIndex + 1) (L.tailRequest prev t).entries :=
    hL.tail_contiguous hf hl
  have hff' : F.getFirstLog.index ≤ (L.tailRequest prev t).prevLogIndex := hff
  have hprev : F.logs[(L.tailRequest prev t).prevLogIndex - F.getFirstLog.index]?.map
      LogEntry.term = some (L.tailRequest prev t).prevLogTerm := by
    rw [← termAt_of_le hff']
    exact hFt
  have ht' : F.currentTerm ≤ (L.tailRequest prev t).term := ht
  obtain ⟨v, et, ps, heq, -, -⟩ := appendEntries_matched gob hF hc ht' hff' hprev
  refine ⟨_, heq, ?_⟩
  exact exchanged_of_spliced hL hF hcommit hf hl hff ⟨t, hFt⟩
    (accepting_wellFormed hF hc hff' hprev v et ps)
    (congrArg LogEntry.index (accepting_first hF hc hff' hprev v et ps)) rfl rfl rfl

/-- Every other request is refused. -/
theorem exchange_refused (hF : F.WellFormed) {m : AppendEntriesArgs n C}
    (hno : ¬ (F.currentTerm ≤ m.term ∧ F.termAt m.prevLogIndex = some m.prevLogTerm)) :
    ∃ F' reply, F.appendEntries gob m = .ok (F', reply) ∧ reply.success = false ∧
      F'.logs = F.logs ∧ F'.commitIndex = F.commitIndex := by
  by_cases ht : m.term < F.currentTerm
  · exact ⟨F, _, by rw [appendEntries, if_pos ht], rfl, rfl, rfl⟩
  · have ht : F.currentTerm ≤ m.term := Nat.le_of_not_lt ht
    by_cases hf : m.prevLogIndex < F.getFirstLog.index
    · obtain ⟨v, et, ps, heq, -, -⟩ := appendEntries_below gob ht hf
      exact ⟨_, _, heq, rfl, rfl, rfl⟩
    · have hf : F.getFirstLog.index ≤ m.prevLogIndex := Nat.le_of_not_lt hf
      rw [termAt_of_le hf] at hno
      obtain ⟨v, et, ps, heq, -, -⟩ := appendEntries_refused gob hF ht hf fun hp => hno ⟨ht, hp⟩
      exact ⟨_, _, heq, (refusal_facts _ _).1, rfl, rfl⟩

end Tail

end Raft

/-- One exchange between a leader `L` and a follower `F`. The request is accepted exactly if
its term is not behind and the follower has the previous entry with the leader's term. Then
the entries up to `prev` stay; after `prev` the follower has the leader's terms, and its log
is left alone if it had them before and otherwise cut at the first index where it had not,
with the leader's entries behind; its commit index catches up with the leader's. If the
request is refused, log and commit index stay. -/
theorem append_entries_exchange {L F : Raft n C} (hL : L.WellFormed) (hF : F.WellFormed)
    (hcommit : L.commitIndex ≤ L.getLastLog.index) {prev : Nat}
    (hf : L.getFirstLog.index ≤ prev) (hl : prev ≤ L.getLastLog.index) :
    ∃ m F' reply, L.genAppendEntriesArgs prev = .ok m ∧
      F.appendEntries gob m = .ok (F', reply) ∧
      (reply.success = true ↔ F.currentTerm ≤ m.term ∧ F.getFirstLog.index ≤ prev ∧
        prev ≤ F.getLastLog.index ∧ F.termAt prev = L.termAt prev) ∧
      (reply.success = true →
        F'.getFirstLog.index = F.getFirstLog.index ∧
        F'.logs.take (prev + 1 - F.getFirstLog.index) =
          F.logs.take (prev + 1 - F.getFirstLog.index) ∧
        (∀ i, prev < i → i ≤ L.getLastLog.index → F'.termAt i = L.termAt i) ∧
        ((∀ i, prev < i → i ≤ L.getLastLog.index → F.termAt i = L.termAt i) →
          F'.logs = F.logs) ∧
        (∀ d, prev < d → d ≤ L.getLastLog.index →
          (∀ i, prev < i → i < d → F.termAt i = L.termAt i) → F.termAt d ≠ L.termAt d →
          F'.logs = F.logs.take (d - F.getFirstLog.index) ++
            L.logs.drop (d - L.getFirstLog.index)) ∧
        F'.commitIndex = max F.commitIndex L.commitIndex) ∧
      (reply.success = false → F'.logs = F.logs ∧ F'.commitIndex = F.commitIndex) := by
  obtain ⟨t, hLt, hgen⟩ := hL.genAppendEntriesArgs_tail hf hl
  by_cases hok : F.currentTerm ≤ L.currentTerm ∧ F.termAt prev = some t
  · obtain ⟨ht, hFt⟩ := hok
    obtain ⟨hff, hfl⟩ := hF.le_last_of_termAt hFt
    obtain ⟨F', heq, hx⟩ := exchange_accepted gob hL hF hcommit hf hl ht hff hFt
    refine ⟨_, F', _, hgen, heq, ?_, ?_, ?_⟩
    · exact ⟨fun _ => ⟨ht, hff, hfl, by rw [hFt, hLt]⟩, fun _ => rfl⟩
    · exact fun _ => ⟨hx.first, hx.below, hx.agrees, hx.kept, hx.cut, hx.commit⟩
    · intro hfail
      cases hfail
  · obtain ⟨F', reply, heq, hfail, hlogs, hci⟩ :=
      exchange_refused gob hF (m := L.tailRequest prev t) hok
    refine ⟨_, F', reply, hgen, heq, ?_, ?_, ?_⟩
    · rw [hfail]
      refine ⟨fun h => absurd h Bool.false_ne_true, ?_⟩
      rintro ⟨ht, -, -, hp⟩
      exact absurd ⟨ht, hp.trans hLt⟩ hok
    · intro hsucc
      rw [hfail] at hsucc
      cases hsucc
    · exact fun _ => ⟨hlogs, hci⟩

/-- A leader of term 2 with three entries. -/
def leaderOfTermTwo : Raft 3 Nat :=
  { fresh 0 makePersister 2 (some 0)
      [.dummy, ⟨some 7, 1, 1⟩, ⟨some 8, 2, 2⟩, ⟨some 9, 2, 3⟩] with
    state := .leader
    commitIndex := 2 }

/-- A follower that still has an entry of term 1 at index 2. -/
def followerOfTermOne : Raft 3 Nat :=
  fresh 1 makePersister 1 (some 2) [.dummy, ⟨some 7, 1, 1⟩, ⟨some 5, 1, 2⟩]

theorem append_entries_exchange_of_two :
    ∃ m F' reply, leaderOfTermTwo.genAppendEntriesArgs 1 = .ok m ∧
      followerOfTermOne.appendEntries (natGob 3) m = .ok (F', reply) ∧
      reply.success = true ∧ F'.logs = leaderOfTermTwo.logs ∧ F'.commitIndex = 2 := by
  have hL : leaderOfTermTwo.WellFormed := wellFormed_of_cons rfl (by decide)
  have hF : followerOfTermOne.WellFormed := wellFormed_of_cons rfl (by decide)
  obtain ⟨m, F', reply, hgen, heq, hiff, hsucc, -⟩ :=
    append_entries_exchange (natGob 3) hL hF (by decide) (show leaderOfTermTwo.getFirstLog.index ≤ 1 by decide) (by decide)
  have hterm : m.term = 2 := by
    obtain ⟨t, -, hgen'⟩ := hL.genAppendEntriesArgs_tail
      (show leaderOfTermTwo.getFirstLog.index ≤ 1 by decide) (by decide)
    rw [hgen, Except.ok.injEq] at hgen'
    rw [hgen']
    rfl
  have hok : reply.success = true :=
    hiff.mpr ⟨by rw [hterm]; decide, by decide, by decide, by decide⟩
  obtain ⟨-, -, -, -, hcut, hci⟩ := hsucc hok
  refine ⟨m, F', reply, hgen, heq, hok, ?_, hci⟩
  rw [hcut 2 (by decide) (by decide) (by omega) (by decide)]
  rfl

end RaftImplementation
