import RaftImplementation.Raft.Exchange

/-!
# Deliveries in either order

Two requests of one leader in one term carry tails of one growing log. A follower whose
log matches the leader's, and which has the previous entries of both, ends with the same
log whichever comes first: its own up to the first index where it differs from the longer
tail, and that tail from there on. From then on neither request changes anything.
-/

namespace RaftImplementation

open Raft

variable {n : Nat} {C : Type} (gob : Gob n C)

/-- The follower accepts the request and becomes `F'`. -/
def Delivers (F : Raft n C) (m : AppendEntriesArgs n C) (F' : Raft n C) : Prop :=
  ∃ reply, F.appendEntries gob m = .ok (F', reply) ∧ reply.success = true

variable {L F : Raft n C} {i j prev : Nat}

/-! ## A request and who accepts it -/

/-- What a leader's state has to offer for the request after `prev`. -/
structure Ships (L : Raft n C) (prev : Nat) : Prop where
  wellFormed : L.WellFormed
  commit_le : L.commitIndex ≤ L.getLastLog.index
  first_le : L.getFirstLog.index ≤ prev
  le_last : prev ≤ L.getLastLog.index

/-- `genAppendEntriesArgs` does not panic only within the log. -/
theorem Raft.WellFormed.ships_of_gen (hL : L.WellFormed)
    (hcommit : L.commitIndex ≤ L.getLastLog.index) {m : AppendEntriesArgs n C}
    (hm : L.genAppendEntriesArgs prev = .ok m) :
    Ships L prev ∧ ∃ t, L.termAt prev = some t ∧ m = L.tailRequest prev t := by
  have hlast := hL.last_index
  by_cases hf : L.getFirstLog.index ≤ prev
  · rcases genAppendEntriesArgs_eq prev hf with ⟨e, he, hgen⟩ | ⟨-, hgen⟩
    · have hlt := (List.getElem?_eq_some_iff.mp he).1
      rw [hgen, Except.ok.injEq] at hm
      refine ⟨⟨hL, hcommit, hf, by omega⟩, e.term, ?_, hm.symm⟩
      rw [termAt_of_le hf, he]
      rfl
    · rw [hgen] at hm
      cases hm
  · -- the entry before the first one cannot be read
    have hpanic : L.genAppendEntriesArgs prev = .error L.persister := by
      unfold genAppendEntriesArgs
      by_cases hnext : L.getFirstLog.index ≤ prev + 1
      · rw [logsFrom_eq_ok hnext (by omega), logAt, if_pos (by omega)]
        rfl
      · rw [logsFrom, if_pos (by omega)]
        rfl
    rw [hpanic] at hm
    cases hm

/-- Only a follower that has the previous entry accepts. -/
theorem Delivers.termAt_eq (hF : F.WellFormed) {m : AppendEntriesArgs n C} {F' : Raft n C}
    (h : Delivers gob F m F') :
    F.termAt m.prevLogIndex = some m.prevLogTerm := by
  obtain ⟨reply, heq, hsucc⟩ := h
  by_contra hno
  obtain ⟨F'', reply', heq', hfail, -⟩ := exchange_refused gob hF (m := m) fun hok => hno hok.2
  rw [heq, Except.ok.injEq, Prod.mk.injEq] at heq'
  rw [← heq'.2, hsucc] at hfail
  cases hfail

theorem Ships.deliver (h : Ships L prev) (hF : F.WellFormed) (ht : F.currentTerm = L.currentTerm)
    {t : Nat} (hFt : F.termAt prev = some t) :
    ∃ F', Delivers gob F (L.tailRequest prev t) F' ∧ Exchanged L F prev F' := by
  obtain ⟨F', heq, hx⟩ := exchange_accepted gob h.wellFormed hF h.commit_le h.first_le h.le_last ht.le
    (hF.le_last_of_termAt hFt).1 hFt
  exact ⟨F', ⟨_, heq, rfl⟩, hx⟩

/-! ## Two moments of one leader -/

section Grown

variable {L₁ L₂ : Raft n C}

theorem grown_first (h₁ : L₁.WellFormed) (hgrow : L₁.logs <+: L₂.logs) :
    L₂.getFirstLog.index = L₁.getFirstLog.index := by
  obtain ⟨es, hl, -⟩ := h₁.cons
  obtain ⟨xs, hxs⟩ := hgrow
  rw [getFirstLog, ← hxs, hl]
  rfl

theorem grown_last (h₁ : L₁.WellFormed) (h₂ : L₂.WellFormed) (hgrow : L₁.logs <+: L₂.logs) :
    L₁.getLastLog.index ≤ L₂.getLastLog.index := by
  have hlast₁ := h₁.last_index
  have hlast₂ := h₂.last_index
  have hfirst := grown_first h₁ hgrow
  have hlen := hgrow.length_le
  omega

theorem grown_termAt (h₁ : L₁.WellFormed) (hgrow : L₁.logs <+: L₂.logs)
    (hi : i ≤ L₁.getLastLog.index) : L₂.termAt i = L₁.termAt i := by
  have hlast := h₁.last_index
  apply termAt_congr (m := L₁.logs.length) (grown_first h₁ hgrow)
  · rw [List.take_length]
    exact (List.prefix_iff_eq_take.mp hgrow).symm
  · omega

end Grown

/-- Where two logs do not have the same terms, there is a first index at which they differ. -/
theorem exists_first_difference {hi : Nat}
    (h : ¬ ∀ i, prev < i → i ≤ hi → F.termAt i = L.termAt i) :
    ∃ d, prev < d ∧ d ≤ hi ∧ (∀ i, prev < i → i < d → F.termAt i = L.termAt i) ∧
      F.termAt d ≠ L.termAt d := by
  have hex : ∃ d, prev < d ∧ d ≤ hi ∧ F.termAt d ≠ L.termAt d := by
    push Not at h
    exact h
  obtain ⟨hd, hdl, hne⟩ := Nat.find_spec hex
  refine ⟨Nat.find hex, hd, hdl, ?_, hne⟩
  intro i hi hid
  by_contra hno
  exact Nat.find_min hex hid ⟨hi, by omega, hno⟩

/-- The setting: two requests of one leader at two moments of its term, and a follower in
that term that has the previous entries of both and whose log matches the leader's. -/
structure TwoRequests (L₁ L₂ : Raft n C) (prev₁ prev₂ : Nat) (F : Raft n C) : Prop where
  ships₁ : Ships L₁ prev₁
  ships₂ : Ships L₂ prev₂
  grown : L₁.logs <+: L₂.logs
  term : L₂.currentTerm = L₁.currentTerm
  wellFormed : F.WellFormed
  follows : F.currentTerm = L₁.currentTerm
  has₁ : F.termAt prev₁ = L₁.termAt prev₁
  has₂ : F.termAt prev₂ = L₂.termAt prev₂
  matching : LogsMatch F L₂

/-- The follower has the leader's terms from the earlier of the two previous entries on. -/
structure Settled (L₁ L₂ : Raft n C) (prev₁ prev₂ : Nat) (G : Raft n C) : Prop where
  wellFormed : G.WellFormed
  term : G.currentTerm = L₁.currentTerm
  agrees : ∀ i, min prev₁ prev₂ ≤ i → i ≤ L₂.getLastLog.index → G.termAt i = L₂.termAt i

section TwoRequests

variable {L₁ L₂ F₁ F₂ F₁₂ G G' : Raft n C} {prev₁ prev₂ : Nat}

namespace TwoRequests

/-- Between the two previous entries the logs agree. -/
theorem agrees (h : TwoRequests L₁ L₂ prev₁ prev₂ F) (hlo : min prev₁ prev₂ ≤ i)
    (hhi : i ≤ max prev₁ prev₂) : F.termAt i = L₂.termAt i := by
  have hfirst := grown_first h.ships₁.wellFormed h.grown
  have hf₁ := h.ships₁.first_le
  have hf₂ := h.ships₂.first_le
  obtain ⟨t₁, ht₁⟩ := h.ships₁.wellFormed.termAt_eq_some hf₁ h.ships₁.le_last
  obtain ⟨t₂, ht₂⟩ := h.ships₂.wellFormed.termAt_eq_some hf₂ h.ships₂.le_last
  have hF₁ := h.wellFormed.le_last_of_termAt (h.has₁.trans ht₁)
  have hF₂ := h.wellFormed.le_last_of_termAt (h.has₂.trans ht₂)
  rcases Nat.le_total prev₁ prev₂ with hle | hle
  · exact h.matching.termAt_eq h.wellFormed h.ships₂.wellFormed (h.has₂.trans ht₂) ht₂
      (by omega) (by omega) (by omega)
  · rw [← grown_termAt h.ships₁.wellFormed h.grown h.ships₁.le_last] at ht₁
    have hhas := h.has₁.trans (grown_termAt h.ships₁.wellFormed h.grown h.ships₁.le_last).symm
    exact h.matching.termAt_eq h.wellFormed h.ships₂.wellFormed (hhas.trans ht₁) ht₁
      (by omega) (by omega) (by omega)

/-- After the request with the longer tail the follower is settled. -/
theorem settled (h : TwoRequests L₁ L₂ prev₁ prev₂ F)
    (hag : ∀ i, min prev₁ prev₂ ≤ i → i ≤ prev₂ → G.termAt i = L₂.termAt i)
    (hx : Exchanged L₂ G prev₂ G') : Settled L₁ L₂ prev₁ prev₂ G' where
  wellFormed := hx.wellFormed
  term := hx.term.trans h.term
  agrees := by
    intro i hlo hhi
    by_cases hi : i ≤ prev₂
    · rw [termAt_congr hx.first hx.below (by omega)]
      exact hag i hlo hi
    · exact hx.agrees i (by omega) hhi

/-- The request with the shorter tail leaves the follower with the previous entry of the
other one. -/
theorem agrees_after (h : TwoRequests L₁ L₂ prev₁ prev₂ F) (hx : Exchanged L₁ F prev₁ F₁)
    (hlo : min prev₁ prev₂ ≤ i) (hhi : i ≤ prev₂) : F₁.termAt i = L₂.termAt i := by
  have hF := h.agrees hlo (by omega)
  by_cases hi : i ≤ prev₁
  · rw [termAt_congr hx.first hx.below (by omega)]
    exact hF
  · by_cases hend : i ≤ L₁.getLastLog.index
    · rw [hx.agrees i (by omega) hend, grown_termAt h.ships₁.wellFormed h.grown hend]
    · -- the follower had the whole shorter tail already
      have hkept : F₁.logs = F.logs := by
        apply hx.kept
        intro j hj hjl
        rw [← grown_termAt h.ships₁.wellFormed h.grown hjl]
        exact h.agrees (by omega) (by omega)
      rw [termAt_congr (m := i + 1) hx.first (by rw [hkept]) (by omega)]
      exact hF

/-- After the shorter tail the follower has the leader's terms up to its end. -/
theorem agrees_to_end (h : TwoRequests L₁ L₂ prev₁ prev₂ F) (hx : Exchanged L₁ F prev₁ F₁)
    (hi : prev₂ < i) (hil : i ≤ L₁.getLastLog.index) : F₁.termAt i = L₂.termAt i := by
  by_cases hi₁ : prev₁ < i
  · rw [hx.agrees i hi₁ hil, grown_termAt h.ships₁.wellFormed h.grown hil]
  · rw [termAt_congr hx.first hx.below (by omega)]
    exact h.agrees (by omega) (by omega)

theorem reaches (h : TwoRequests L₁ L₂ prev₁ prev₂ F) :
    F.getFirstLog.index ≤ prev₁ ∧ ∃ t, F.termAt prev₁ = some t := by
  obtain ⟨t, ht⟩ := h.ships₁.wellFormed.termAt_eq_some h.ships₁.first_le h.ships₁.le_last
  have hF := h.has₁.trans ht
  exact ⟨(h.wellFormed.le_last_of_termAt hF).1, t, hF⟩

/-- If the follower first differs from the shorter tail at `d`, that tail ends its log, and
the longer one would have continued it. -/
theorem cut_both (h : TwoRequests L₁ L₂ prev₁ prev₂ F) (hx₁ : Exchanged L₁ F prev₁ F₁)
    (hx₂ : Exchanged L₂ F prev₂ F₂) {xs : List (LogEntry C)} (hxs : L₁.logs ++ xs = L₂.logs)
    {d : Nat} (hd : prev₁ < d) (hdl : d ≤ L₁.getLastLog.index)
    (hmin : ∀ i, prev₁ < i → i < d → F.termAt i = L₁.termAt i)
    (hne : F.termAt d ≠ L₁.termAt d) :
    F₂.logs = F₁.logs ++ xs ∧ F₁.getLastLog.index = L₁.getLastLog.index := by
  have hfirst := grown_first h.ships₁.wellFormed h.grown
  have hgrown := grown_last h.ships₁.wellFormed h.ships₂.wellFormed h.grown
  have hf₁ := h.ships₁.first_le
  have hlen := h.ships₁.wellFormed.last_index
  have hcut₁ := hx₁.cut d hd hdl hmin hne
  rw [← grown_termAt h.ships₁.wellFormed h.grown hdl] at hne
  constructor
  · -- seen from the longer tail, the first difference is the same
    have hd₂ : prev₂ < d := by
      by_contra hle
      exact hne (h.agrees (by omega) (by omega))
    have hmin₂ : ∀ i, prev₂ < i → i < d → F.termAt i = L₂.termAt i := by
      intro i hi hid
      by_cases hi₁ : prev₁ < i
      · rw [grown_termAt h.ships₁.wellFormed h.grown (by omega)]
        exact hmin i hi₁ hid
      · exact h.agrees (by omega) (by omega)
    rw [hx₂.cut d hd₂ (by omega) hmin₂ hne, hcut₁, ← hxs, hfirst,
      List.drop_append_of_le_length (by omega), List.append_assoc]
  · obtain ⟨hff, hprev⟩ := h.reaches
    have hreach := h.wellFormed.reaches_of_agrees h.ships₁.wellFormed hprev hf₁ hd hdl hmin
    have hl := hx₁.wellFormed.last_index
    have hlF := h.wellFormed.last_index
    rw [hcut₁, List.length_append, List.length_take_of_le (by omega), List.length_drop,
      hx₁.first] at hl
    omega

/-- The longer tail leaves the same log with and without the shorter one before it. -/
theorem same_logs (h : TwoRequests L₁ L₂ prev₁ prev₂ F) (hx₁ : Exchanged L₁ F prev₁ F₁)
    (hx₁₂ : Exchanged L₂ F₁ prev₂ F₁₂) (hx₂ : Exchanged L₂ F prev₂ F₂) :
    F₁₂.logs = F₂.logs := by
  by_cases hall : ∀ i, prev₁ < i → i ≤ L₁.getLastLog.index → F.termAt i = L₁.termAt i
  · rw [hx₁₂.logs, hx₂.logs, hx₁.first, hx₁.kept hall]
  · obtain ⟨d, hd, hdl, hmin, hne⟩ := exists_first_difference hall
    obtain ⟨xs, hxs⟩ := id h.grown
    obtain ⟨hlogs, hlast⟩ := h.cut_both hx₁ hx₂ hxs hd hdl hmin hne
    have hfirst := grown_first h.ships₁.wellFormed h.grown
    rw [hlogs]
    cases xs with
    | nil =>
      rw [List.append_nil] at hxs ⊢
      have hend : L₂.getLastLog.index = L₁.getLastLog.index := by
        rw [getLastLog, getLastLog, hxs]
      apply hx₁₂.kept
      intro i hi hil
      exact h.agrees_to_end hx₁ hi (by omega)
    | cons x xs =>
      -- the follower's log ends where the shorter tail ends, so the rest is missing
      have hf₁ := h.ships₁.wellFormed.first_le_last
      have hlen₁ := h.ships₁.wellFormed.last_index
      have hlen₂ := h.ships₂.wellFormed.last_index
      have hlF := hx₁.wellFormed.last_index
      have hd₂ : prev₂ < L₁.getLastLog.index + 1 := by
        by_contra hle
        apply hne
        rw [← grown_termAt h.ships₁.wellFormed h.grown hdl]
        exact h.agrees (by omega) (by omega)
      rw [← hxs, List.length_append, List.length_cons, hfirst] at hlen₂
      have hnone : F₁.termAt (L₁.getLastLog.index + 1) ≠ L₂.termAt (L₁.getLastLog.index + 1) := by
        rw [hx₁.wellFormed.termAt_eq_none (by omega)]
        obtain ⟨t, ht⟩ := h.ships₂.wellFormed.termAt_eq_some
          (i := L₁.getLastLog.index + 1) (by omega) (by omega)
        rw [ht]
        exact (Option.some_ne_none t).symm
      rw [hx₁₂.cut (L₁.getLastLog.index + 1) hd₂ (by omega)
          (fun i hi hil => h.agrees_to_end hx₁ hi (by omega)) hnone,
        List.take_of_length_le (by omega), hfirst, ← hxs,
        List.drop_append_of_le_length (by omega), List.drop_of_length_le (by omega), List.nil_append]

end TwoRequests

/-- A settled follower accepts both requests and nothing changes. -/
theorem Settled.redeliver (h : Settled L₁ L₂ prev₁ prev₂ G) (hL : Ships L prev)
    (hprev : min prev₁ prev₂ ≤ prev) (hterm : L.currentTerm = L₁.currentTerm)
    (hlast : L.getLastLog.index ≤ L₂.getLastLog.index)
    (hsame : ∀ i, i ≤ L.getLastLog.index → L₂.termAt i = L.termAt i) {t : Nat}
    (ht : L.termAt prev = some t) :
    ∃ G', Delivers gob G (L.tailRequest prev t) G' ∧ Settled L₁ L₂ prev₁ prev₂ G' ∧
      G'.logs = G.logs ∧ G'.commitIndex = max G.commitIndex L.commitIndex := by
  have hle := hL.le_last
  have hag : ∀ i, prev ≤ i → i ≤ L.getLastLog.index → G.termAt i = L.termAt i := by
    intro i hi hil
    rw [h.agrees i (by omega) (by omega)]
    exact hsame i hil
  obtain ⟨G', hdel, hx⟩ := hL.deliver gob h.wellFormed (h.term.trans hterm.symm)
    ((hag prev le_rfl hle).trans ht)
  have hkept : G'.logs = G.logs := hx.kept fun i hi hil => hag i (by omega) hil
  refine ⟨G', hdel, ⟨hx.wellFormed, hx.term.trans hterm, ?_⟩, hkept, hx.commit⟩
  intro i hlo hhi
  rw [termAt_congr (m := i + 1) hx.first (by rw [hkept]) (by omega)]
  exact h.agrees i hlo hhi

/-- Once it has committed as far as both requests say, neither of them changes its log or
its `commitIndex`. -/
theorem Settled.unchanged (hG : Settled L₁ L₂ prev₁ prev₂ G) (h : TwoRequests L₁ L₂ prev₁ prev₂ F)
    (hle₁ : L₁.commitIndex ≤ G.commitIndex) (hle₂ : L₂.commitIndex ≤ G.commitIndex)
    {t₁ t₂ : Nat} (ht₁ : L₁.termAt prev₁ = some t₁) (ht₂ : L₂.termAt prev₂ = some t₂) :
    ∀ m ∈ [L₁.tailRequest prev₁ t₁, L₂.tailRequest prev₂ t₂], ∃ G', Delivers gob G m G' ∧
      G'.logs = G.logs ∧ G'.commitIndex = G.commitIndex := by
  intro m hm
  simp only [List.mem_cons, List.not_mem_nil, or_false] at hm
  rcases hm with rfl | rfl
  · have hlast := grown_last h.ships₁.wellFormed h.ships₂.wellFormed h.grown
    obtain ⟨G', hdel, -, hkept, hcommit⟩ := hG.redeliver gob h.ships₁ (by omega) rfl hlast
      (fun i hi => grown_termAt h.ships₁.wellFormed h.grown hi) ht₁
    exact ⟨G', hdel, hkept, by omega⟩
  · obtain ⟨G', hdel, -, hkept, hcommit⟩ :=
      hG.redeliver gob h.ships₂ (by omega) h.term le_rfl (fun _ _ => rfl) ht₂
    exact ⟨G', hdel, hkept, by omega⟩

end TwoRequests

/-- Two requests of one leader at two moments of its term, and a follower in that term that
would accept both and whose log matches the leader's: both are accepted in either order, log
and commit index are the same after both, and accepting one of them again changes neither. -/
theorem append_entries_commute {L₁ L₂ F : Raft n C} (h₁ : L₁.WellFormed) (h₂ : L₂.WellFormed)
    (hF : F.WellFormed) (hgrow : L₁.logs <+: L₂.logs) (hterm : L₂.currentTerm = L₁.currentTerm)
    (hfollows : F.currentTerm = L₁.currentTerm)
    (hc₁ : L₁.commitIndex ≤ L₁.getLastLog.index) (hc₂ : L₂.commitIndex ≤ L₂.getLastLog.index)
    (hmatch : LogsMatch F L₂) {prev₁ prev₂ : Nat} {m₁ m₂ : AppendEntriesArgs n C}
    (hm₁ : L₁.genAppendEntriesArgs prev₁ = .ok m₁) (hm₂ : L₂.genAppendEntriesArgs prev₂ = .ok m₂)
    (hacc₁ : ∃ F', Delivers gob F m₁ F') (hacc₂ : ∃ F', Delivers gob F m₂ F') :
    ∃ F₁ F₁₂ F₂ F₂₁, Delivers gob F m₁ F₁ ∧ Delivers gob F₁ m₂ F₁₂ ∧
      Delivers gob F m₂ F₂ ∧ Delivers gob F₂ m₁ F₂₁ ∧
      F₁₂.logs = F₂₁.logs ∧ F₁₂.commitIndex = F₂₁.commitIndex ∧
      ∀ G ∈ [F₁₂, F₂₁], ∀ m ∈ [m₁, m₂], ∃ G', Delivers gob G m G' ∧
        G'.logs = G.logs ∧ G'.commitIndex = G.commitIndex := by
  obtain ⟨hs₁, t₁, ht₁, rfl⟩ := h₁.ships_of_gen hc₁ hm₁
  obtain ⟨hs₂, t₂, ht₂, rfl⟩ := h₂.ships_of_gen hc₂ hm₂
  have hhas₁ : F.termAt prev₁ = some t₁ := hacc₁.choose_spec.termAt_eq gob hF
  have hhas₂ : F.termAt prev₂ = some t₂ := hacc₂.choose_spec.termAt_eq gob hF
  have h : TwoRequests L₁ L₂ prev₁ prev₂ F :=
    ⟨hs₁, hs₂, hgrow, hterm, hF, hfollows, hhas₁.trans ht₁.symm, hhas₂.trans ht₂.symm, hmatch⟩
  have hlast := grown_last h₁ h₂ hgrow
  have hsame := fun i hi => grown_termAt (i := i) h₁ hgrow hi
  -- the shorter tail first
  obtain ⟨F₁, hdel₁, hx₁⟩ := hs₁.deliver gob hF hfollows hhas₁
  have hag₁ := fun i hlo hhi => h.agrees_after (i := i) hx₁ hlo hhi
  obtain ⟨F₁₂, hdel₁₂, hx₁₂⟩ := hs₂.deliver gob hx₁.wellFormed (hx₁.term.trans hterm.symm)
    ((hag₁ prev₂ (by omega) le_rfl).trans ht₂)
  have hsettled₁₂ := h.settled hag₁ hx₁₂
  -- the longer tail first
  obtain ⟨F₂, hdel₂, hx₂⟩ := hs₂.deliver gob hF (hfollows.trans hterm.symm) hhas₂
  have hsettled₂ := h.settled (fun i hlo hhi => h.agrees hlo (by omega)) hx₂
  obtain ⟨F₂₁, hdel₂₁, hsettled₂₁, hlogs₂₁, hci₂₁⟩ :=
    hsettled₂.redeliver gob hs₁ (by omega) rfl hlast hsame ht₁
  have hlogs : F₁₂.logs = F₂₁.logs := (h.same_logs hx₁ hx₁₂ hx₂).trans hlogs₂₁.symm
  have hci : F₁₂.commitIndex = max (max F.commitIndex L₁.commitIndex) L₂.commitIndex := by
    rw [hx₁₂.commit, hx₁.commit]
  have hci' : F₂₁.commitIndex = max (max F.commitIndex L₂.commitIndex) L₁.commitIndex := by
    rw [hci₂₁, hx₂.commit]
  refine ⟨F₁, F₁₂, F₂, F₂₁, hdel₁, hdel₁₂, hdel₂, hdel₂₁, hlogs, by omega, ?_⟩
  intro G hG
  simp only [List.mem_cons, List.not_mem_nil, or_false] at hG
  rcases hG with rfl | rfl
  · exact hsettled₁₂.unchanged gob h (by omega) (by omega) ht₁ ht₂
  · exact hsettled₂₁.unchanged gob h (by omega) (by omega) ht₁ ht₂

/-- The leader of term 2 before it appended its last entry. -/
def leaderEarlier : Raft 3 Nat :=
  { leaderOfTermTwo with logs := [.dummy, ⟨some 7, 1, 1⟩, ⟨some 8, 2, 2⟩] }

/-- A follower in term 2 that has an old entry at index 2. -/
def followerInTermTwo : Raft 3 Nat :=
  { followerOfTermOne with currentTerm := 2 }

/-- The request of the later moment reaches back to the start of the log, that of the earlier
moment to index 1. -/
theorem append_entries_commute_of_two :
    ∃ m₁ m₂ F₁ F₁₂ F₂ F₂₁, leaderEarlier.genAppendEntriesArgs 1 = .ok m₁ ∧
      leaderOfTermTwo.genAppendEntriesArgs 0 = .ok m₂ ∧
      Delivers (natGob 3) followerInTermTwo m₁ F₁ ∧ Delivers (natGob 3) F₁ m₂ F₁₂ ∧
      Delivers (natGob 3) followerInTermTwo m₂ F₂ ∧ Delivers (natGob 3) F₂ m₁ F₂₁ ∧
      F₁₂.logs = F₂₁.logs ∧ F₁₂.commitIndex = F₂₁.commitIndex := by
  have h₁ : leaderEarlier.WellFormed := wellFormed_of_cons rfl (by decide)
  have h₂ : leaderOfTermTwo.WellFormed := wellFormed_of_cons rfl (by decide)
  have hF : followerInTermTwo.WellFormed := wellFormed_of_cons rfl (by decide)
  obtain ⟨t₁, ht₁, hm₁⟩ := h₁.genAppendEntriesArgs_tail
    (show leaderEarlier.getFirstLog.index ≤ 1 by decide) (by decide)
  obtain ⟨t₂, ht₂, hm₂⟩ := h₂.genAppendEntriesArgs_tail
    (show leaderOfTermTwo.getFirstLog.index ≤ 0 by decide) (by decide)
  have hs₁ : Ships leaderEarlier 1 := ⟨h₁, by decide, by decide, by decide⟩
  have hs₂ : Ships leaderOfTermTwo 0 := ⟨h₂, by decide, by decide, by decide⟩
  obtain ⟨G₁, hacc₁, -⟩ := hs₁.deliver (natGob 3) hF (by decide)
    (show followerInTermTwo.termAt 1 = some t₁ from ht₁ ▸ by decide)
  obtain ⟨G₂, hacc₂, -⟩ := hs₂.deliver (natGob 3) hF (by decide)
    (show followerInTermTwo.termAt 0 = some t₂ from ht₂ ▸ by decide)
  have hmatch : LogsMatch followerInTermTwo leaderOfTermTwo := by
    unfold LogsMatch
    decide
  obtain ⟨F₁, F₁₂, F₂, F₂₁, hd₁, hd₁₂, hd₂, hd₂₁, hlogs, hci, -⟩ :=
    append_entries_commute (natGob 3) h₁ h₂ hF ⟨[⟨some 9, 2, 3⟩], rfl⟩ rfl rfl (by decide)
      (by decide) hmatch hm₁ hm₂ ⟨G₁, hacc₁⟩ ⟨G₂, hacc₂⟩
  exact ⟨_, _, F₁, F₁₂, F₂, F₂₁, hm₁, hm₂, hd₁, hd₁₂, hd₂, hd₂₁, hlogs, hci⟩

end RaftImplementation
