import RaftImplementation.Raft.Handlers

/-!
# Contiguous logs

All log access of the code is by `Index` minus the first `Index`. A log is well
formed when it is not empty and its indices are consecutive; on such a log the
accesses of the handlers are in range, and this module says what they read.
-/

namespace RaftImplementation

variable {n : Nat} {C : Type}

/-- The indices of the list are `s`, `s + 1`, and so on. -/
def Contiguous (s : Nat) : List (LogEntry C) → Prop
  | [] => True
  | e :: es => e.index = s ∧ Contiguous (s + 1) es

instance Contiguous.decidable : ∀ (s : Nat) (l : List (LogEntry C)), Decidable (Contiguous s l)
  | _, [] => isTrue trivial
  | s, e :: es =>
    have := Contiguous.decidable (s + 1) es
    inferInstanceAs (Decidable (e.index = s ∧ Contiguous (s + 1) es))

theorem contiguous_append (s : Nat) (a b : List (LogEntry C)) :
    Contiguous s (a ++ b) ↔ Contiguous s a ∧ Contiguous (s + a.length) b := by
  induction a generalizing s with
  | nil => simp [Contiguous]
  | cons e a ih =>
    simp only [List.cons_append, Contiguous, ih, List.length_cons, and_assoc]
    rw [show s + 1 + a.length = s + (a.length + 1) by omega]

theorem Contiguous.take {s : Nat} {l : List (LogEntry C)} (h : Contiguous s l) (k : Nat) :
    Contiguous s (l.take k) := by
  rw [← List.take_append_drop k l, contiguous_append] at h
  exact h.1

theorem Contiguous.drop {s : Nat} {l : List (LogEntry C)} (h : Contiguous s l) {k : Nat}
    (hk : k ≤ l.length) : Contiguous (s + k) (l.drop k) := by
  rw [← List.take_append_drop k l, contiguous_append, List.length_take_of_le hk] at h
  exact h.2

theorem Contiguous.get {s : Nat} {l : List (LogEntry C)} (h : Contiguous s l) {k : Nat}
    {e : LogEntry C} (hk : l[k]? = some e) : e.index = s + k := by
  induction l generalizing s k with
  | nil => simp at hk
  | cons a l ih =>
    cases k with
    | zero =>
      simp only [List.getElem?_cons_zero, Option.some.injEq] at hk
      rw [← hk]
      exact h.1
    | succ k =>
      have := ih h.2 (by simpa using hk)
      omega

/-- An entry of a contiguous list stands at the position its index says. -/
theorem Contiguous.get_of_mem {s : Nat} {l : List (LogEntry C)} (h : Contiguous s l)
    {e : LogEntry C} (he : e ∈ l) : s ≤ e.index ∧ l[e.index - s]? = some e := by
  obtain ⟨k, hk⟩ := List.mem_iff_getElem?.mp he
  have hi := h.get hk
  refine ⟨by omega, ?_⟩
  rw [show e.index - s = k by omega]
  exact hk

namespace Raft

structure WellFormed (rf : Raft n C) : Prop where
  ne_nil : rf.logs ≠ []
  contiguous : Contiguous rf.getFirstLog.index rf.logs

variable {rf : Raft n C}

theorem WellFormed.of_logs {rf' : Raft n C} (h : rf.WellFormed) (hl : rf'.logs = rf.logs) :
    rf'.WellFormed := by
  refine ⟨hl ▸ h.ne_nil, ?_⟩
  have hc := h.contiguous
  unfold getFirstLog at hc ⊢
  rw [hl]
  exact hc

/-- The log of a well formed peer, with its head shown. -/
theorem WellFormed.cons (h : rf.WellFormed) :
    ∃ es, rf.logs = rf.getFirstLog :: es ∧ Contiguous (rf.getFirstLog.index + 1) es := by
  have hne := h.ne_nil
  have hc := h.contiguous
  unfold getFirstLog at hc ⊢
  cases hl : rf.logs with
  | nil => exact absurd hl hne
  | cons e es =>
    rw [hl] at hc
    exact ⟨es, rfl, hc.2⟩

theorem wellFormed_of_cons {e : LogEntry C} {es : List (LogEntry C)} (hl : rf.logs = e :: es)
    (hc : Contiguous (e.index + 1) es) : rf.WellFormed := by
  refine ⟨by simp [hl], ?_⟩
  simp only [getFirstLog, hl, List.headD_cons]
  exact ⟨rfl, hc⟩

theorem WellFormed.length_pos (h : rf.WellFormed) : 0 < rf.logs.length :=
  List.length_pos_iff.mpr h.ne_nil

theorem WellFormed.get_last (h : rf.WellFormed) :
    rf.logs[rf.logs.length - 1]? = some rf.getLastLog := by
  have hpos := h.length_pos
  rw [getLastLog, List.getLastD_eq_getLast?, List.getLast?_eq_getElem?,
    List.getElem?_eq_getElem (by omega)]
  rfl

/-- The last index of a well formed log. -/
theorem WellFormed.last_index (h : rf.WellFormed) :
    rf.getLastLog.index + 1 = rf.getFirstLog.index + rf.logs.length := by
  have hpos := h.length_pos
  have := h.contiguous.get h.get_last
  omega

theorem WellFormed.first_le_last (h : rf.WellFormed) :
    rf.getFirstLog.index ≤ rf.getLastLog.index := by
  have := h.last_index
  have := h.length_pos
  omega

/-- An index between the first and the last is in the log. -/
theorem WellFormed.exists_at (h : rf.WellFormed) {i : Nat} (hf : rf.getFirstLog.index ≤ i)
    (hl : i ≤ rf.getLastLog.index) :
    ∃ e, rf.logs[i - rf.getFirstLog.index]? = some e ∧ e.index = i := by
  have hlast := h.last_index
  have hlt : i - rf.getFirstLog.index < rf.logs.length := by omega
  refine ⟨_, List.getElem?_eq_getElem hlt, ?_⟩
  have := h.contiguous.get (List.getElem?_eq_getElem hlt)
  omega

theorem logAt_eq_ok {i : Nat} {e : LogEntry C} (hf : rf.getFirstLog.index ≤ i)
    (he : rf.logs[i - rf.getFirstLog.index]? = some e) : rf.logAt i = .ok e := by
  rw [logAt, if_neg (by omega), he]

theorem logsFrom_eq_ok {i : Nat} (hf : rf.getFirstLog.index ≤ i)
    (hl : i ≤ rf.getFirstLog.index + rf.logs.length) :
    rf.logsFrom i = .ok (rf.logs.drop (i - rf.getFirstLog.index)) := by
  rw [logsFrom, if_neg (by omega)]

/-- `isLogMatched` compares the term of the entry at `i`, if the log reaches that far. -/
theorem WellFormed.isLogMatched_eq (h : rf.WellFormed) {i t : Nat}
    (hf : rf.getFirstLog.index ≤ i) :
    rf.isLogMatched i t = .ok
      (decide (rf.logs[i - rf.getFirstLog.index]?.map LogEntry.term = some t)) := by
  unfold isLogMatched
  by_cases hl : i ≤ rf.getLastLog.index
  · obtain ⟨e, he, _⟩ := h.exists_at hf hl
    simp [hl, logAt_eq_ok hf he, he, bind, Except.bind, pure, Except.pure]
  · have hlast := h.last_index
    have hnone : rf.logs[i - rf.getFirstLog.index]? = none :=
      List.getElem?_eq_none (by omega)
    simp [hl, hnone, pure, Except.pure]

/-! ## The splice loop -/

/-- The log after the splice loop of `AppendEntries`. -/
def spliced (first : Nat) (logs : List (LogEntry C)) : List (LogEntry C) → List (LogEntry C)
  | [] => logs
  | e :: es =>
    if logs[e.index - first]?.map LogEntry.term = some e.term then spliced first logs es
    else logs.take (e.index - first) ++ e :: es

/-- The splice either keeps the log, which then has all the entries, or cuts it at
the first entry that it does not have. -/
theorem spliced_cases (first : Nat) (logs : List (LogEntry C)) {i : Nat}
    {entries : List (LogEntry C)} (hc : Contiguous i entries) (hf : first ≤ i) :
    (spliced first logs entries = logs ∧
      ∀ e ∈ entries, logs[e.index - first]?.map LogEntry.term = some e.term) ∨
    ∃ k e, entries[k]? = some e ∧
      spliced first logs entries = logs.take (i + k - first) ++ entries.drop k ∧
      (∀ x ∈ entries.take k, logs[x.index - first]?.map LogEntry.term = some x.term) ∧
      logs[i + k - first]?.map LogEntry.term ≠ some e.term := by
  induction entries generalizing i with
  | nil => exact .inl ⟨rfl, by simp⟩
  | cons e es ih =>
    obtain ⟨rfl, hc⟩ := hc
    rw [spliced]
    split
    · rename_i hterm
      rcases ih hc (by omega) with ⟨heq, hall⟩ | ⟨k, x, hx, heq, hall, hne⟩
      · exact .inl ⟨heq, List.forall_mem_cons.mpr ⟨hterm, hall⟩⟩
      · have hk : e.index + 1 + k - first = e.index + (k + 1) - first := by omega
        rw [hk] at heq hne
        exact .inr ⟨k + 1, x, by simpa using hx, by simpa using heq,
          List.forall_mem_cons.mpr ⟨hterm, hall⟩, hne⟩
    · rename_i hterm
      exact .inr ⟨0, e, rfl, rfl, by simp, hterm⟩

/-- In the second case the cut lies within the log. -/
theorem cut_le_length {first i k : Nat} {logs entries : List (LogEntry C)} {e : LogEntry C}
    (hc : Contiguous i entries) (hf : first ≤ i) (hi : i ≤ first + logs.length)
    (he : entries[k]? = some e)
    (hall : ∀ x ∈ entries.take k, logs[x.index - first]?.map LogEntry.term = some x.term) :
    i + k - first ≤ logs.length := by
  cases k with
  | zero => omega
  | succ k =>
    have hlt : k + 1 < entries.length := (List.getElem?_eq_some_iff.mp he).1
    have hk : entries[k]? = some entries[k] := List.getElem?_eq_getElem (by omega)
    have hmem : entries[k] ∈ entries.take (k + 1) :=
      List.mem_take_iff_getElem.mpr ⟨k, by omega, rfl⟩
    have hsome := hall _ hmem
    rw [hc.get hk] at hsome
    obtain ⟨x, hx, _⟩ := Option.map_eq_some_iff.mp hsome
    have := (List.getElem?_eq_some_iff.mp hx).1
    omega

/-- The splice leaves what stands before its entries. -/
theorem spliced_take {first i : Nat} {logs entries : List (LogEntry C)}
    (hc : Contiguous i entries) (hf : first ≤ i) (hi : i ≤ first + logs.length) :
    (spliced first logs entries).take (i - first) = logs.take (i - first) := by
  rcases spliced_cases first logs hc hf with ⟨heq, -⟩ | ⟨k, e, he, heq, hall, -⟩
  · rw [heq]
  · have hlen := cut_le_length hc hf hi he hall
    rw [heq, List.take_append_of_le_length (by rw [List.length_take_of_le hlen]; omega),
      List.take_take, Nat.min_eq_left (by omega)]

/-- After the splice the log has every entry, by index and term. -/
theorem spliced_get {first i : Nat} {logs entries : List (LogEntry C)}
    (hc : Contiguous i entries) (hf : first ≤ i) (hi : i ≤ first + logs.length)
    {e : LogEntry C} (he : e ∈ entries) :
    (spliced first logs entries)[e.index - first]?.map LogEntry.term = some e.term := by
  rcases spliced_cases first logs hc hf with ⟨heq, hall⟩ | ⟨k, x, hx, heq, hall, _⟩
  · rw [heq]
    exact hall e he
  · have hlen := cut_le_length hc hf hi hx hall
    obtain ⟨j, hj⟩ := List.mem_iff_getElem?.mp he
    have hidx := hc.get hj
    rw [heq]
    by_cases hjk : j < k
    · rw [List.getElem?_append_left (by rw [List.length_take_of_le hlen]; omega),
        List.getElem?_take_of_lt (by omega)]
      refine hall e (List.mem_iff_getElem?.mpr ⟨j, ?_⟩)
      rw [List.getElem?_take_of_lt hjk, hj]
    · rw [List.getElem?_append_right (by rw [List.length_take_of_le hlen]; omega),
        List.length_take_of_le hlen, List.getElem?_drop,
        show k + (e.index - first - (i + k - first)) = j by omega, hj]
      rfl

/-- The splice keeps the head of the log and the log contiguous. -/
theorem spliced_contiguous {h : LogEntry C} {es entries : List (LogEntry C)} {i : Nat}
    (hes : Contiguous (h.index + 1) es) (hc : Contiguous i entries) (hf : h.index < i)
    (hi : i ≤ h.index + 1 + es.length) :
    ∃ es', spliced h.index (h :: es) entries = h :: es' ∧ Contiguous (h.index + 1) es' := by
  rcases spliced_cases h.index (h :: es) hc (by omega) with
    ⟨heq, _⟩ | ⟨k, e, he, heq, hall, _⟩
  · exact ⟨es, heq, hes⟩
  · have hlen := cut_le_length hc (by omega) (by simp only [List.length_cons]; omega) he hall
    obtain ⟨m, hm⟩ : ∃ m, i + k - h.index = m + 1 := ⟨i + k - h.index - 1, by omega⟩
    have hk : k ≤ entries.length := ((List.getElem?_eq_some_iff.mp he).1).le
    have hml : m ≤ es.length := by simp only [List.length_cons] at hlen; omega
    refine ⟨es.take m ++ entries.drop k, by rw [heq, hm]; rfl, ?_⟩
    rw [contiguous_append]
    refine ⟨hes.take m, ?_⟩
    have := hc.drop hk
    rwa [List.length_take_of_le hml, show h.index + 1 + m = i + k by omega]

/-! ## The leader's search for a term -/

/-- The leader's search ends below where it began, or runs off the log. -/
theorem findTerm_eq (rf : Raft n C) (t : Int) (m : Nat) :
    (∃ r, rf.findTerm t m = .ok r ∧
      ∀ i, r = some i → rf.getFirstLog.index ≤ i ∧ i < rf.getFirstLog.index + m) ∨
    rf.findTerm t m = .error rf.persister := by
  induction m with
  | zero => exact .inl ⟨none, rfl, by simp⟩
  | succ m ih =>
    rw [findTerm]
    split
    · exact .inr rfl
    · split
      · refine .inl ⟨_, rfl, ?_⟩
        intro i hi
        simp only [Option.some.injEq] at hi
        omega
      · rcases ih with ⟨r, h, hr⟩ | h
        · refine .inl ⟨r, h, ?_⟩
          intro i hi
          have := hr i hi
          omega
        · exact .inr h

end Raft

end RaftImplementation
