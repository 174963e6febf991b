import RaftImplementation.Library.Histories
import RaftImplementation.Raft.Effects

/-!
# A log as a view of a history

A peer keeps the tail of its history behind a dummy entry that stands for its
snapshot. `View snap log logs` relates the slice `rf.logs` to two whole histories:
`snap`, which the snapshot covers, and `log`, to which the entries after the dummy
belong. The two need not be parts of one history: `CondInstallSnapshot` keeps a
suffix of the log without a look at the term at the index of the snapshot. The lemmas
below say what the log operations of the handlers do to these histories.
-/

namespace RaftImplementation

open Library Raft

variable {n : Nat} {C : Type}

/-- The log entries of a history, the first of which has index `s`. -/
def stamp (s : Nat) : History (Option C) → List (LogEntry C)
  | [] => []
  | (t, command) :: X => ⟨command, t, s⟩ :: stamp (s + 1) X

@[simp] theorem stamp_length (s : Nat) (X : History (Option C)) :
    (stamp s X).length = X.length := by
  induction X generalizing s with
  | nil => rfl
  | cons e X ih => simp [stamp, ih]

theorem stamp_append (s : Nat) (X Y : History (Option C)) :
    stamp s (X ++ Y) = stamp s X ++ stamp (s + X.length) Y := by
  induction X generalizing s with
  | nil => rfl
  | cons e X ih =>
    simp only [List.cons_append, stamp, ih, List.length_cons]
    rw [show s + 1 + X.length = s + (X.length + 1) by omega]

theorem stamp_drop (s k : Nat) (X : History (Option C)) :
    (stamp s X).drop k = stamp (s + k) (X.drop k) := by
  induction X generalizing s k with
  | nil => simp [stamp]
  | cons e X ih =>
    cases k with
    | zero => rfl
    | succ k =>
      simp only [stamp, List.drop_succ_cons, ih]
      rw [show s + 1 + k = s + (k + 1) by omega]

theorem stamp_take (s k : Nat) (X : History (Option C)) :
    (stamp s X).take k = stamp s (X.take k) := by
  induction X generalizing s k with
  | nil => simp [stamp]
  | cons e X ih =>
    cases k with
    | zero => rfl
    | succ k => simp only [stamp, List.take_succ_cons, ih]

theorem stamp_get (s k : Nat) (X : History (Option C)) :
    (stamp s X)[k]? = X[k]?.map fun e => ⟨e.2, e.1, s + k⟩ := by
  induction X generalizing s k with
  | nil => simp [stamp]
  | cons e X ih =>
    cases k with
    | zero => rfl
    | succ k =>
      simp only [stamp, List.getElem?_cons_succ, ih]
      rw [show s + 1 + k = s + (k + 1) by omega]

theorem stamp_contiguous (s : Nat) (X : History (Option C)) : Contiguous s (stamp s X) := by
  induction X generalizing s with
  | nil => trivial
  | cons e X ih => exact ⟨rfl, ih (s + 1)⟩

/-- The slice `logs` shows `log` from the end of `snap` on. -/
structure View (snap log : History (Option C)) (logs : List (LogEntry C)) : Prop where
  le : snap.length ≤ log.length
  meet : snap.length = log.length → snap = log
  logs_eq : logs =
    ⟨none, lastTerm snap, snap.length⟩ :: stamp (snap.length + 1) (log.drop snap.length)

namespace View

variable {snap log : History (Option C)} {logs : List (LogEntry C)} {rf : Raft n C}

theorem initial : View ([] : History (Option C)) [] [.dummy] := ⟨le_rfl, fun _ => rfl, rfl⟩

theorem first (h : View snap log rf.logs) :
    rf.getFirstLog = ⟨none, lastTerm snap, snap.length⟩ := by
  rw [getFirstLog, h.logs_eq]
  rfl

theorem first_index (h : View snap log rf.logs) : rf.getFirstLog.index = snap.length := by
  rw [h.first]

theorem length (h : View snap log logs) : logs.length = log.length - snap.length + 1 := by
  rw [h.logs_eq]
  simp

/-- The entry at an index behind the snapshot. -/
theorem get (h : View snap log logs) {i : Nat} (hi : snap.length < i) :
    logs[i - snap.length]? = log[i - 1]?.map fun e => ⟨e.2, e.1, i⟩ := by
  obtain ⟨k, rfl⟩ : ∃ k, i = snap.length + 1 + k := ⟨i - snap.length - 1, by omega⟩
  rw [h.logs_eq, show snap.length + 1 + k - snap.length = k + 1 by omega,
    List.getElem?_cons_succ, stamp_get, List.getElem?_drop,
    show snap.length + 1 + k - 1 = snap.length + k by omega]

/-- The term at an index behind the snapshot. -/
theorem term_iff (h : View snap log logs) {i t : Nat} (hi : snap.length < i) :
    logs[i - snap.length]?.map LogEntry.term = some t ↔
      i ≤ log.length ∧ lastTerm (log.take i) = t := by
  obtain ⟨k, rfl⟩ : ∃ k, i = k + 1 := ⟨i - 1, by omega⟩
  rw [h.get hi, Nat.add_sub_cancel]
  cases hk : log[k]? with
  | none =>
    have := List.getElem?_eq_none_iff.mp hk
    simp only [Option.map_none, reduceCtorEq, false_iff]
    omega
  | some e =>
    have := (List.getElem?_eq_some_iff.mp hk).1
    rw [lastTerm_take hk]
    simp only [Option.map_some, Option.some.injEq]
    exact ⟨fun ht => ⟨this, ht⟩, fun ht => ht.2⟩

theorem term_snap (h : View snap log logs) : logs[0]?.map LogEntry.term = some (lastTerm snap) := by
  rw [h.logs_eq]
  rfl

/-- Where the snapshot is part of the history, every entry has its term. -/
theorem term_of_mem (h : View snap log logs) (hclean : snap <+: log) {e : LogEntry C}
    (he : e ∈ logs) : e.index ≤ log.length ∧ e.term = lastTerm (log.take e.index) := by
  rw [h.logs_eq] at he
  rcases List.mem_cons.mp he with rfl | he
  · exact ⟨h.le, by rw [take_isPrefix hclean]⟩
  · obtain ⟨i, hi⟩ := List.mem_iff_getElem?.mp he
    rw [stamp_get, List.getElem?_drop] at hi
    obtain ⟨x, hx, rfl⟩ := Option.map_eq_some_iff.mp hi
    have hlt := (List.getElem?_eq_some_iff.mp hx).1
    refine ⟨by dsimp only; omega, ?_⟩
    dsimp only
    rw [show snap.length + 1 + i = snap.length + i + 1 by omega, lastTerm_take hx]

/-- The last entry shows the last term and the length of the history. -/
theorem last (h : View snap log rf.logs) :
    rf.getLastLog.index = log.length ∧ rf.getLastLog.term = lastTerm log := by
  rw [getLastLog, h.logs_eq]
  rcases h.le.lt_or_eq with hlt | heq
  · obtain ⟨X, e, rfl⟩ := (List.eq_nil_or_concat' log).resolve_left
      (by rintro rfl; simp at hlt)
    simp only [List.length_append, List.length_cons, List.length_nil, Nat.zero_add] at hlt
    rw [List.drop_append_of_le_length (by omega), stamp_append]
    have hone : stamp (snap.length + 1 + (X.drop snap.length).length) [e] =
        [⟨e.2, e.1, X.length + 1⟩] := by
      rw [List.length_drop, show snap.length + 1 + (X.length - snap.length) = X.length + 1 by omega]
      rfl
    rw [hone, ← List.cons_append, List.getLastD_concat]
    simp
  · rw [h.meet heq, List.drop_length]
    exact ⟨rfl, rfl⟩

/-- The entries behind an index. -/
theorem drop (h : View snap log logs) {i : Nat} (hi : snap.length ≤ i) :
    logs.drop (i + 1 - snap.length) = stamp (i + 1) (log.drop i) := by
  rw [h.logs_eq, show i + 1 - snap.length = i - snap.length + 1 by omega, List.drop_succ_cons,
    stamp_drop, List.drop_drop, show snap.length + 1 + (i - snap.length) = i + 1 by omega,
    show snap.length + (i - snap.length) = i by omega]

theorem append (h : View snap log rf.logs) {t : Nat} {command : Option C} :
    View snap (log ++ [(t, command)])
      (rf.logs ++ [⟨command, t, rf.getLastLog.index + 1⟩]) := by
  have hle := h.le
  refine ⟨by simp; omega, by simp; omega, ?_⟩
  rw [h.last.1, h.logs_eq, List.cons_append, List.drop_append_of_le_length hle, stamp_append,
    List.length_drop, show snap.length + 1 + (log.length - snap.length) = log.length + 1 by omega]
  rfl

theorem compact (h : View snap log rf.logs) {i : Nat} (hi : snap.length ≤ i)
    (hlen : i ≤ log.length) :
    View (log.take i) log (rf.cutLogs (lastTerm (log.take i)) i) := by
  have hl : (log.take i).length = i := List.length_take_of_le hlen
  refine ⟨by omega, ?_, ?_⟩
  · intro heq
    rw [List.take_of_length_le (by omega)]
  · rw [hl, cutLogs, h.first_index, h.drop hi]

theorem install (h : View snap log rf.logs) {G : History (Option C)}
    (hi : snap.length ≤ G.length) :
    View G (if log.length ≤ G.length then G else log) (rf.cutLogs (lastTerm G) G.length) := by
  have hcut : rf.cutLogs (lastTerm G) G.length =
      ⟨none, lastTerm G, G.length⟩ :: stamp (G.length + 1) (log.drop G.length) := by
    rw [cutLogs, h.first_index, h.drop hi]
  split
  · rename_i hle
    refine ⟨le_rfl, fun _ => rfl, ?_⟩
    rw [hcut, List.drop_of_length_le hle, List.drop_length]
  · rename_i hlt
    exact ⟨by omega, by omega, hcut⟩

end View

/-! ## AppendEntries -/

/-- The request carries the history `H` from `PrevLogIndex` on. -/
structure Carries (H : History (Option C)) (args : AppendEntriesArgs n C) : Prop where
  prev_le : args.prevLogIndex ≤ H.length
  prev_term : args.prevLogTerm = lastTerm (H.take args.prevLogIndex)
  entries_eq : args.entries = stamp (args.prevLogIndex + 1) (H.drop args.prevLogIndex)

namespace Carries

variable {H : History (Option C)} {args : AppendEntriesArgs n C}

theorem reach (h : Carries H args) : args.prevLogIndex + args.entries.length = H.length := by
  have := h.prev_le
  rw [h.entries_eq, stamp_length, List.length_drop]
  omega

/-- The term of an entry of the request. -/
theorem term (h : Carries H args) {k : Nat} {e : LogEntry C} (he : args.entries[k]? = some e) :
    args.prevLogIndex + k + 1 ≤ H.length ∧
      e.term = lastTerm (H.take (args.prevLogIndex + k + 1)) := by
  rw [h.entries_eq, stamp_get, List.getElem?_drop] at he
  obtain ⟨x, hx, rfl⟩ := Option.map_eq_some_iff.mp he
  exact ⟨(List.getElem?_eq_some_iff.mp hx).1, (lastTerm_take hx).symm⟩

theorem contiguous (h : Carries H args) : Contiguous (args.prevLogIndex + 1) args.entries := by
  rw [h.entries_eq]
  exact stamp_contiguous _ _

end Carries

/-- A leader whose snapshot is part of its history sends that history. -/
theorem Raft.Asked.carries {snap log : History (Option C)} {rf : Raft n C} {peer : Fin n}
    (hv : View snap log rf.logs) (hclean : snap <+: log) {args : AppendEntriesArgs n C}
    (h : Asked rf peer (.append args)) : Carries log args := by
  cases h with
  | append i e hs hn hf he =>
    have hi : i - rf.getFirstLog.index < rf.logs.length := (List.getElem?_eq_some_iff.mp he).1
    rw [hv.first_index] at hf he hi
    rw [hv.length] at hi
    have hle := hv.le
    refine ⟨by dsimp only; omega, ?_, ?_⟩
    · dsimp only
      have hterm : rf.logs[i - snap.length]?.map LogEntry.term = some e.term := by simp [he]
      rcases hf.lt_or_eq with hlt | rfl
      · exact ((hv.term_iff hlt).mp hterm).2.symm
      · rw [Nat.sub_self, hv.term_snap, Option.some.injEq] at hterm
        rw [take_isPrefix hclean, hterm]
    · rw [hv.first_index, hv.drop hf]

section Splice

variable {made : Set (History (Option C))} {snap log H : History (Option C)}
variable {logs : List (LogEntry C)} {args : AppendEntriesArgs n C}
variable (ht : HistoryTree made) (hlog : log ∈ made) (hsnap : snap ∈ made) (hH : H ∈ made)
variable (hv : View snap log logs) (hc : Carries H args)
include ht hlog hH hv

/-- A log with the term of `H` at an index behind the snapshot agrees with `H` up to it. -/
theorem View.agree {i : Nat} (hi : snap.length < i) (hle : i ≤ H.length)
    (hterm : logs[i - snap.length]?.map LogEntry.term = some (lastTerm (H.take i))) :
    i ≤ log.length ∧ log.take i = H.take i := by
  obtain ⟨hlen, heq⟩ := (hv.term_iff hi).mp hterm
  exact ⟨hlen, ht.agree hlog hH hlen hle heq⟩

include hc

/-- The log agrees with the request before the `k`-th entry, if the consistency check and
the comparison of the entries before it succeeded. -/
theorem View.agree_before
    (hprev : logs[args.prevLogIndex - snap.length]?.map LogEntry.term = some args.prevLogTerm)
    {k : Nat} (hk : k ≤ args.entries.length)
    (hall : ∀ x ∈ args.entries.take k, logs[x.index - snap.length]?.map LogEntry.term = some x.term)
    (hlt : snap.length < args.prevLogIndex + k) :
    log.take (args.prevLogIndex + k) = H.take (args.prevLogIndex + k) := by
  cases k with
  | zero =>
    rw [hc.prev_term] at hprev
    exact (hv.agree ht hlog hH hlt hc.prev_le hprev).2
  | succ k =>
    have he : args.entries[k]? = some args.entries[k] := List.getElem?_eq_getElem (by omega)
    obtain ⟨hle, hterm⟩ := hc.term he
    have hmem : args.entries[k] ∈ args.entries.take (k + 1) :=
      List.mem_take_iff_getElem.mpr ⟨k, by omega, rfl⟩
    have hsome := hall _ hmem
    rw [hc.contiguous.get he, hterm,
      show args.prevLogIndex + 1 + k = args.prevLogIndex + (k + 1) by omega] at hsome
    exact (hv.agree ht hlog hH hlt hle hsome).2

include hsnap

/-- A snapshot that is part of the log is part of every history whose request is accepted. -/
theorem View.snap_isPrefix (hclean : snap <+: log) (hf : snap.length ≤ args.prevLogIndex)
    (hprev : logs[args.prevLogIndex - snap.length]?.map LogEntry.term = some args.prevLogTerm) :
    snap <+: H := by
  rcases hf.lt_or_eq with hlt | heq
  · have hag := hv.agree_before ht hlog hH hc hprev (Nat.zero_le _) (by simp) hlt
    rw [Nat.add_zero] at hag
    have hpre : snap <+: log.take args.prevLogIndex := by
      rw [List.prefix_take_iff]
      exact ⟨hclean, hf⟩
    exact (hag ▸ hpre).trans ( List.take_prefix _ _)
  · have hle := hc.prev_le
    rw [hc.prev_term, ← heq, Nat.sub_self, hv.term_snap, Option.some.injEq] at hprev
    rw [← heq] at hle
    rw [ht.keyed snap hsnap _ (ht.take_mem hH snap.length)
      (List.length_take_of_le hle).symm hprev]
    exact List.take_prefix _ _

/-- What a successful `AppendEntries` does to a log: it already has the history of the
leader; or takes it over; or is at the end of its snapshot, which is the whole history
of the leader, and keeps what it has behind it. -/
theorem View.splice (hf : snap.length ≤ args.prevLogIndex)
    (hprev : logs[args.prevLogIndex - snap.length]?.map LogEntry.term = some args.prevLogTerm) :
    (H <+: log ∧ spliced snap.length logs args.entries = logs) ∨
    (¬ H <+: log ∧ View snap H (spliced snap.length logs args.entries)) ∨
    (H = snap ∧ spliced snap.length logs args.entries = logs) := by
  have hreach := hc.reach
  rcases spliced_cases snap.length logs hc.contiguous (by omega) with
    ⟨heq, hall⟩ | ⟨k, e, he, heq, hall, hne⟩
  · rcases (show snap.length ≤ H.length by omega).lt_or_eq with hlt | hlen
    · have hall' : ∀ x ∈ args.entries.take args.entries.length,
          logs[x.index - snap.length]?.map LogEntry.term = some x.term := by
        rw [List.take_length]
        exact hall
      have hag := hv.agree_before ht hlog hH hc hprev le_rfl hall' (by omega)
      rw [hreach, List.take_length] at hag
      exact .inl ⟨hag ▸ List.take_prefix _ _, heq⟩
    · -- nothing lies behind the snapshot in `H`
      refine .inr (.inr ⟨?_, heq⟩)
      have hp : args.prevLogIndex = snap.length := by omega
      rw [hc.prev_term, hp, Nat.sub_self, hv.term_snap, Option.some.injEq, hlen,
        List.take_length] at hprev
      exact ht.keyed H hH snap hsnap hlen.symm hprev.symm
  · obtain ⟨hle, hterm⟩ := hc.term he
    refine .inr (.inl ⟨?_, by omega, by omega, ?_⟩)
    · intro hpre
      apply hne
      rw [show args.prevLogIndex + 1 + k = args.prevLogIndex + k + 1 by omega, hterm]
      refine (hv.term_iff (by omega)).mpr ⟨hle.trans hpre.length_le, ?_⟩
      obtain ⟨Y, rfl⟩ := hpre
      rw [List.take_append_of_le_length hle]
    · have hk : k ≤ args.entries.length := ((List.getElem?_eq_some_iff.mp he).1).le
      obtain ⟨m, hm⟩ : ∃ m, args.prevLogIndex + k = snap.length + m :=
        ⟨args.prevLogIndex + k - snap.length, by omega⟩
      have hsame : (log.drop snap.length).take m = (H.drop snap.length).take m := by
        rcases Nat.eq_zero_or_pos m with rfl | hpos
        · rfl
        · have hag := hv.agree_before ht hlog hH hc hprev hk hall (by omega)
          rw [hm] at hag
          rw [List.take_drop, List.take_drop, hag]
      rw [heq, show args.prevLogIndex + 1 + k - snap.length = m + 1 by omega, hc.entries_eq,
        stamp_drop, List.drop_drop, hv.logs_eq, List.take_succ_cons, stamp_take, hsame, hm,
        show args.prevLogIndex + 1 + k = snap.length + 1 + m by omega, List.cons_append]
      have hsplit := stamp_append (snap.length + 1) ((H.drop snap.length).take m)
        ((H.drop snap.length).drop m)
      rw [List.take_append_drop, List.length_take_of_le (by rw [List.length_drop]; omega),
        List.drop_drop] at hsplit
      rw [hsplit]

end Splice

end RaftImplementation
