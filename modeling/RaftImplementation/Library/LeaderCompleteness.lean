import RaftImplementation.Library.ReplicatedLog

/-!
# Leader completeness

A history that a majority has left behind without holding it is dead. Every other
history is live: later leaders have it, newer histories extend it, and whoever holds
it votes only for nodes that are at least as up to date. A decided history is held by
a majority and so never dead. The main results: a decided history is a prefix of the
history of every later leader (`Inv.decided_prefix_win`), and two decided histories
are prefixes of one another (`Inv.decided_comparable`).
-/

namespace RaftImplementation.Library

namespace ReplicatedLog

variable {ι α : Type} [Fintype ι] {s s' : State ι α}

/-! ## Histories that can still be decided -/

/-- A majority has left the term of `E` without holding it: `E` will never be decided. -/
def State.Dead (s : State ι α) (E : History α) : Prop :=
  Majority fun v => lastTerm E < s.term v ∧ ¬ s.Holds v E

/-- What is true of a history that may still be decided. -/
structure Live (s : State ι α) (E : History α) : Prop where
  wins : ∀ p T, s.led p T → lastTerm E < T → E <+: s.win T
  newer : ∀ X ∈ s.made, NoNewer E X → E <+: X
  logs : ∀ v, s.Holds v E → NoNewer E (s.log v)
  votes : ∀ v T p, s.Holds v E → s.vote v T p → lastTerm E < T → NoNewer E (s.bid p T)

structure Inv (s : State ι α) : Prop extends Basic s where
  /-- What a node has confirmed it keeps as long as it stays in the term. -/
  held : ∀ v T m, s.ack v T m → s.term v = T → (s.front T).take m <+: s.log v
  decided_mem : ∀ D ∈ s.decided, D ≠ [] ∧ D ∈ s.made ∧ Majority fun v => s.Holds v D
  alive : ∀ E ∈ s.made, E ≠ [] → s.Dead E ∨ Live s E

theorem State.Dead.mono {E : History α} (h : s.Dead E) (ht : ∀ v, s.term v ≤ s'.term v)
    (hh : ∀ v, lastTerm E < s.term v → s'.Holds v E → s.Holds v E) : s'.Dead E := by
  refine Majority.mono h fun v hv => ⟨hv.1.trans_le (ht v), fun hv' => ?_⟩
  exact hv.2 (hh v hv.1 hv')

theorem Basic.holds_le (h : Basic s) {v : ι} {E : History α} (hv : s.Holds v E) :
    lastTerm E ≤ s.term v := by
  rcases hv with ⟨m, _, ha⟩ | hl
  · exact (h.ack_le v _ m ha).1
  · exact h.led_le v _ hl

theorem Basic.noNewer_of_isPrefix (h : Basic s) {X Y : History α} (hX : X ∈ s.made)
    (hpre : Y <+: X) : NoNewer Y X := by
  have hterm := h.sorted X hX Y hpre
  have hlen := hpre.length_le
  unfold NoNewer
  omega

/-- A history that a majority holds is live. -/
theorem Inv.live_of_held (h : Inv s) {E : History α} (hE : E ∈ s.made) (hne : E ≠ [])
    (hq : Majority fun v => s.Holds v E) : Live s E := by
  rcases h.alive E hE hne with hdead | hlive
  · obtain ⟨v, hv, _, hno⟩ := hq.inter hdead
    exact absurd hv hno
  · exact hlive

theorem Inv.live_of_decided (h : Inv s) {D : History α} (hD : D ∈ s.decided) : Live s D := by
  obtain ⟨hne, hmem, hq⟩ := h.decided_mem D hD
  exact h.live_of_held hmem hne hq

/-- A node that a majority voted for stood with every live history of an earlier term. -/
theorem Inv.prefix_bid (h : Inv s) {p : ι} {T : Nat} (hv : Majority fun v => s.vote v T p)
    {E : History α} (hE : Live s E) (ht : lastTerm E < T) : s.Dead E ∨ E <+: s.bid p T := by
  by_cases hmeet : ∃ v, s.vote v T p ∧ s.Holds v E
  · obtain ⟨v, hvote, hholds⟩ := hmeet
    exact .inr (hE.newer _ (h.bid_mem p T) (hE.votes v T p hholds hvote ht))
  · refine .inl (hv.mono fun v hvote => ⟨ht.trans_le (h.vote_le v T p hvote), fun hholds => ?_⟩)
    exact hmeet ⟨v, hvote, hholds⟩

theorem Inv.decided_prefix_bid (h : Inv s) {p : ι} {T : Nat}
    (hv : Majority fun v => s.vote v T p) {D : History α} (hD : D ∈ s.decided)
    (ht : lastTerm D < T) : D <+: s.bid p T := by
  rcases h.prefix_bid hv (h.live_of_decided hD) ht with hdead | hpre
  · obtain ⟨v, hv, _, hno⟩ := (h.decided_mem D hD).2.2.inter hdead
    exact absurd hv hno
  · exact hpre

/-- **Leader completeness.** -/
theorem Inv.decided_prefix_win (h : Inv s) {D : History α} (hD : D ∈ s.decided) {p : ι} {T : Nat}
    (hl : s.led p T) (ht : lastTerm D < T) : D <+: s.win T :=
  (h.live_of_decided hD).wins p T hl ht

theorem Inv.decided_comparable (h : Inv s) {D E : History α} (hD : D ∈ s.decided)
    (hE : E ∈ s.decided) : D <+: E ∨ E <+: D := by
  rcases NoNewer.total D E with hle | hle
  · exact .inl ((h.live_of_decided hD).newer E (h.decided_mem E hE).2.1 hle)
  · exact .inr ((h.live_of_decided hE).newer D (h.decided_mem D hD).2.1 hle)

/-- A decided history is part of what a majority has now. -/
theorem Inv.decided_prefix_logs (h : Inv s) {D : History α} (hD : D ∈ s.decided) :
    Majority fun v => D <+: s.log v := by
  have hlive := h.live_of_decided hD
  exact (h.decided_mem D hD).2.2.mono fun v hv => hlive.newer _ (h.log_mem v) (hlive.logs v hv)

/-- What was decided by term `T` is part of what the leader of `T` has. -/
theorem Inv.settled_prefix_front (h : Inv s) {G : History α} {p : ι} {T : Nat}
    (hG : s.Settled G T) (hl : s.led p T) : G <+: s.front T := by
  obtain ⟨D, hD, hGD, hle⟩ := hG
  refine hGD.trans ?_
  rcases hle.lt_or_eq with hlt | heq
  · exact (h.decided_prefix_win hD hl hlt).trans (h.win_front T)
  · rw [← heq]
    exact (h.made_front D (h.decided_mem D hD).2.1 (h.decided_mem D hD).1).2

theorem inv_initial : Inv (State.initial : State ι α) where
  toBasic := basic_initial
  held _ _ _ h := h.elim
  decided_mem _ h := h.elim
  alive := by
    rintro E rfl hne
    exact absurd rfl hne

/-! ## One step -/

/-- The rule for a step that makes no history and decides nothing. -/
theorem Inv.of_kept (h : Inv s) (hb : Basic s')
    (hheld : ∀ v T m, s'.ack v T m → s'.term v = T → (s'.front T).take m <+: s'.log v)
    (hmade : s'.made = s.made)
    (hdec : s'.decided = s.decided) (hterm : ∀ v, s.term v ≤ s'.term v)
    (hmono : ∀ v E, s.Holds v E → s'.Holds v E)
    (hback : ∀ v, ∀ E ∈ s.made, E ≠ [] → lastTerm E < s.term v → s'.Holds v E → s.Holds v E)
    (hlive : ∀ E ∈ s.made, E ≠ [] → Live s E → s'.Dead E ∨ Live s' E) : Inv s' where
  toBasic := hb
  held := hheld
  decided_mem D hD := by
    rw [hdec] at hD
    rw [hmade]
    obtain ⟨hne, hmem, hq⟩ := h.decided_mem D hD
    exact ⟨hne, hmem, hq.mono fun v => hmono v D⟩
  alive E hE hne := by
    rw [hmade] at hE
    rcases h.alive E hE hne with hdead | hl
    · exact .inl (hdead.mono hterm fun v => hback v E hE hne)
    · exact hlive E hE hne hl

theorem Inv.grant (h : Inv s) {v p : ι} {T : Nat} (ht : s.term v = T) (hp : s.vote p T p)
    (hup : NoNewer (s.log v) (s.bid p T)) : Inv (s.grant v T p) := by
  refine h.of_kept (h.toBasic.grant ht hp) h.held rfl rfl (fun _ => le_rfl) (fun _ _ => id)
    (fun _ _ _ _ _ => id) fun E _ _ hE => .inr { hE with votes := ?_ }
  rintro u S q hu (hvote | ⟨rfl, rfl, rfl⟩) hlt
  · exact hE.votes u S q hu hvote hlt
  · exact (hE.logs u hu).trans hup

theorem Inv.lead (h : Inv s) {p : ι} {T : Nat} (ht : s.term p = T)
    (hv : Majority fun v => s.vote v T p) (hlog : s.log p = s.bid p T)
    (hnew : ∀ q, ¬ s.led q T) : Inv (s.lead p T) := by
  -- no history of term `T` exists yet, so who holds what does not change
  have hback : ∀ v, ∀ E ∈ s.made, E ≠ [] → (s.lead p T).Holds v E → s.Holds v E := by
    rintro v E hE hne (hack | hl | ⟨rfl, hT⟩)
    · exact .inl hack
    · exact .inr hl
    · exact absurd hT (h.not_made_of_unled hnew hE hne)
  refine h.of_kept (h.toBasic.lead ht hv hlog hnew) ?_ rfl rfl (fun _ => le_rfl) ?_ ?_ ?_
  · intro v S m hack hterm
    obtain ⟨q, hq⟩ := h.ack_led v S m hack
    have hS : S ≠ T := by
      rintro rfl
      exact hnew q hq
    simpa [hS] using h.held v S m hack hterm
  · rintro v E (hack | hl)
    · exact .inl hack
    · exact .inr (.inl hl)
  · exact fun v E hE hne _ => hback v E hE hne
  · intro E hE hne hlive
    by_cases hdead : s.Dead E
    · exact .inl (hdead.mono (fun _ => le_rfl) fun v _ => hback v E hE hne)
    · refine .inr ⟨?_, hlive.newer, ?_, ?_⟩
      · rintro q S (hl | ⟨rfl, rfl⟩) hlt
        · have hS : S ≠ T := by
            rintro rfl
            exact hnew q hl
          simpa [hS] using hlive.wins q S hl hlt
        · simpa [hlog] using (h.prefix_bid hv hlive hlt).resolve_left hdead
      · exact fun v hv => hlive.logs v (hback v E hE hne hv)
      · exact fun v S q hv => hlive.votes v S q (hback v E hE hne hv)

theorem Inv.decide (h : Inv s) {E : History α} (hne : E ≠ [])
    (hE : E <+: s.front (lastTerm E)) (hq : Majority fun v => s.Holds v E) :
    Inv (s.decide E) where
  toBasic := { h.toBasic with }
  held := h.held
  decided_mem := by
    rintro D (rfl | hD)
    · exact ⟨hne, h.tree.past _ (h.front_mem _) D hE, hq⟩
    · exact h.decided_mem D hD
  alive X hX hX0 := by
    rcases h.alive X hX hX0 with hdead | hlive
    · exact .inl hdead
    · exact .inr { hlive with }

/-- A node that takes over the leader's history keeps what it holds. -/
theorem Live.prefix_follow (h : Inv s) {f : ι} {T : Nat} {H X : History α} (ht : s.term f = T)
    {p : ι} (hl : s.led p T) (hH : H <+: s.front T)
    (hX : X = s.log f ∧ H <+: s.log f ∨ X = H ∧ s.win T <+: H ∧ ¬ H <+: s.log f)
    {E : History α} (hE : E ∈ s.made) (hne : E ≠ []) (hlive : Live s E) (hf : s.Holds f E) :
    E <+: X := by
  have hlog : E <+: s.log f := hlive.newer _ (h.log_mem f) (hlive.logs f hf)
  rcases hX with ⟨rfl, _⟩ | ⟨rfl, hwin, hno⟩
  · exact hlog
  · have hle := h.holds_le hf
    rw [ht] at hle
    rcases hle.lt_or_eq with hlt | rfl
    · exact (hlive.wins p T hl hlt).trans hwin
    · have hfront := (h.made_front E hE hne).2
      rcases Nat.le_total E.length X.length with hlen | hlen
      · exact List.prefix_of_prefix_length_le hfront hH hlen
      · exact absurd ((List.prefix_of_prefix_length_le hH hfront hlen).trans hlog) hno

variable [DecidableEq ι]

theorem Inv.bump (h : Inv s) {v : ι} {t : Nat} (ht : s.term v ≤ t) : Inv (s.bump v t) := by
  refine h.of_kept (h.toBasic.bump ht) ?_ rfl rfl ?_ (fun _ _ => id) (fun _ _ _ _ _ => id)
    fun E _ _ hE => .inr { hE with }
  · intro u T m hack hterm
    refine h.held u T m hack ?_
    by_cases hu : u = v
    · subst hu
      have := (h.ack_le u T m hack).1
      simp only [State.bump_term, Function.update_self] at hterm
      omega
    · simpa [hu] using hterm
  · intro u
    by_cases hu : u = v
    · subst hu
      simpa using ht
    · simp [hu]

theorem Inv.stand (h : Inv s) {p : ι} {T : Nat} (ht : s.term p < T) : Inv (s.stand p T) := by
  refine h.of_kept (h.toBasic.stand ht) ?_ rfl rfl ?_ (fun _ _ => id) (fun _ _ _ _ _ => id)
    fun E _ _ hE => .inr { hE with votes := ?_ }
  · intro u S m hack hterm
    refine h.held u S m hack ?_
    by_cases hu : u = p
    · subst hu
      have := (h.ack_le u S m hack).1
      simp only [State.stand_term, Function.update_self] at hterm
      omega
    · simpa [hu] using hterm
  · intro u
    by_cases hu : u = p
    · subst hu
      simpa using ht.le
    · simp [hu]
  · rintro u S q hu (hvote | ⟨rfl, rfl, rfl⟩) hlt
    · rw [h.stand_bid ht hvote]
      exact hE.votes u S q hu hvote hlt
    · simpa using hE.logs q hu

/-- A later term has a leader, and so a majority that has left `T`: what the leader of
`T` appends now is dead. -/
theorem Inv.append_dead (h : Inv s) {p q : ι} {T S : Nat} {a : α} (ht : s.term p = T)
    (hl : s.led p T) (hq : s.led q S) (hlt : T < S) :
    (s.append p T a).Dead (s.front T ++ [(T, a)]) := by
  refine (h.led_votes q S hq).mono fun v hv => ?_
  have hle := h.vote_le v S q hv
  rw [lastTerm_concat]
  refine ⟨hlt.trans_le hle, ?_⟩
  rintro (⟨m, hm, hack⟩ | hv')
  · rw [lastTerm_concat] at hack
    have := (h.ack_le v T m hack).2
    simp only [List.length_append, List.length_cons, List.length_nil] at hm
    omega
  · rw [lastTerm_concat] at hv'
    have hvp : v = p := h.led_unique v p T hv' hl
    subst hvp
    omega

/-- The history that the leader of the latest term appends is live. -/
theorem Inv.append_live (h : Inv s) {p : ι} {T : Nat} {a : α} (ht : s.term p = T)
    (hl : s.led p T) (hlast : ∀ q S, s.led q S → S ≤ T) :
    Live (s.append p T a) (s.front T ++ [(T, a)]) := by
  have hholds : ∀ v, (s.append p T a).Holds v (s.front T ++ [(T, a)]) → v = p := by
    rintro v (⟨m, hm, hack⟩ | hv)
    · rw [lastTerm_concat] at hack
      have := (h.ack_le v T m hack).2
      simp only [List.length_append, List.length_cons, List.length_nil] at hm
      omega
    · rw [lastTerm_concat] at hv
      exact h.led_unique v p T hv hl
  refine ⟨?_, ?_, ?_, ?_⟩
  · intro q S hq hlt
    rw [lastTerm_concat] at hlt
    exact absurd (hlast q S hq) (Nat.not_le.mpr hlt)
  · rintro X (rfl | hX) hnew
    · exact List.prefix_refl _
    · exfalso
      have hne : X ≠ [] := by
        rintro rfl
        have := hnew.term_le
        have := h.win_term p T hl
        simp only [lastTerm_concat, lastTerm_nil] at *
        omega
      obtain ⟨⟨q, hq⟩, hfront⟩ := h.made_front X hX hne
      have hle := hlast q _ hq
      rcases hnew with hlt | ⟨heq, hlen⟩
      · rw [lastTerm_concat] at hlt
        omega
      · have hT : lastTerm X = T := by simpa using heq.symm
        rw [hT] at hfront
        have := hfront.length_le
        simp only [List.length_append, List.length_cons, List.length_nil] at hlen
        omega
  · intro v hv
    rw [hholds v hv]
    simpa using NoNewer.refl (s.front T ++ [(T, a)])
  · intro v S q hv hvote hlt
    rw [lastTerm_concat] at hlt
    have := h.vote_le v S q hvote
    rw [hholds v hv] at this
    omega

/-- A live history stays live when a leader appends. -/
theorem Live.append (h : Inv s) {p : ι} {T : Nat} {a : α} (hl : s.led p T)
    (hlog : s.log p = s.front T) {E : History α} (hE : E ∈ s.made) (hne : E ≠ [])
    (hlive : Live s E) : Live (s.append p T a) E := by
  have hnext : NoNewer E (s.front T ++ [(T, a)]) → E <+: s.front T := by
    intro hnew
    have hle := hnew.term_le
    rw [lastTerm_concat] at hle
    rcases hle.lt_or_eq with hlt | rfl
    · exact (hlive.wins p T hl hlt).trans (h.win_front T)
    · exact (h.made_front E hE hne).2
  refine { hlive with newer := ?_, logs := ?_ }
  · rintro X (rfl | hX) hnew
    · exact (hnext hnew).trans (List.prefix_append _ _)
    · exact hlive.newer X hX hnew
  · intro v hv
    by_cases hvp : v = p
    · subst hvp
      have hnew : NoNewer E (s.front T) := hlog ▸ hlive.logs v hv
      have hgrow : NoNewer (s.front T) (s.front T ++ [(T, a)]) := by
        have := h.front_term hl
        unfold NoNewer
        simp only [lastTerm_concat, List.length_append]
        omega
      simpa using hnew.trans hgrow
    · simpa [hvp] using hlive.logs v hv

theorem Inv.append (h : Inv s) {p : ι} {T : Nat} {a : α} (ht : s.term p = T)
    (hl : s.led p T) (hlog : s.log p = s.front T) : Inv (s.append p T a) where
  toBasic := h.toBasic.append ht hl
  held v S m hack hterm := by
    have hkeep : ((s.append p T a).front S).take m = (s.front S).take m := by
      by_cases hS : S = T
      · subst hS
        simp only [State.append_front, Function.update_self]
        exact List.take_append_of_le_length (h.ack_le v S m hack).2
      · simp [hS]
    rw [hkeep]
    refine (h.held v S m hack hterm).trans ?_
    by_cases hv : v = p
    · subst hv
      simp [hlog]
    · simp [hv]
  decided_mem D hD := by
    obtain ⟨hne, hmem, hq⟩ := h.decided_mem D hD
    exact ⟨hne, .inr hmem, hq⟩
  alive := by
    rintro E (rfl | hE) hne
    · by_cases hlater : ∃ q S, s.led q S ∧ T < S
      · obtain ⟨q, S, hq, hlt⟩ := hlater
        exact .inl (h.append_dead ht hl hq hlt)
      · refine .inr (h.append_live ht hl fun q S hq => ?_)
        by_contra hlt
        exact hlater ⟨q, S, hq, by omega⟩
    · rcases h.alive E hE hne with hdead | hlive
      · exact .inl hdead
      · exact .inr (hlive.append h hl hlog hE hne)

omit [Fintype ι] in
/-- Following adds one holder, of histories of the leader's term. -/
theorem State.holds_follow {f v : ι} {T m : Nat} {X E : History α}
    (h : (s.follow f T m X).Holds v E) :
    s.Holds v E ∨ v = f ∧ lastTerm E = T ∧ E.length ≤ m := by
  rcases h with ⟨i, hi, hack | ⟨rfl, hT, rfl⟩⟩ | hv
  · exact .inl (.inl ⟨i, hi, hack⟩)
  · exact .inr ⟨rfl, hT, hi⟩
  · exact .inl (.inr hv)

/-- What a follower has acknowledged it keeps when it takes over more of the same history. -/
theorem Inv.held_follow (h : Inv s) {f : ι} {T : Nat} {H X : History α} (ht : s.term f = T)
    (hH : H <+: s.front T) (hHX : H <+: X) (hX : X = s.log f ∨ X = H ∧ ¬ H <+: s.log f)
    {v : ι} {S m : Nat} (hack : (s.follow f T H.length X).ack v S m) (hterm : s.term v = S) :
    (s.front S).take m <+: (s.follow f T H.length X).log v := by
  by_cases hv : v = f
  · subst hv
    have hS : S = T := hterm.symm.trans ht
    subst hS
    simp only [State.follow_log, Function.update_self]
    rcases hack with hack | ⟨_, _, rfl⟩
    · have hold := h.held v S m hack hterm
      rcases hX with rfl | ⟨rfl, hno⟩
      · exact hold
      · -- the acknowledged part is shorter than `H`, or `H` would have been there
        have hpre := List.take_prefix m (s.front S)
        rcases Nat.le_total ((s.front S).take m).length X.length with hlen | hlen
        · exact List.prefix_of_prefix_length_le hpre hH hlen
        · exact absurd ((List.prefix_of_prefix_length_le hH hpre hlen).trans hold) hno
    · rwa [take_isPrefix hH]
  · rcases hack with hack | ⟨rfl, _⟩
    · simpa [hv] using h.held v S m hack hterm
    · exact absurd rfl hv

theorem Inv.follow (h : Inv s) {f p : ι} {T : Nat} {H X : History α} (ht : s.term f = T)
    (hl : s.led p T) (hH : H <+: s.front T)
    (hX : X = s.log f ∧ H <+: s.log f ∨ X = H ∧ s.win T <+: H ∧ ¬ H <+: s.log f) :
    Inv (s.follow f T H.length X) := by
  have hHX : H <+: X := by
    rcases hX with ⟨rfl, hpre⟩ | ⟨rfl, _⟩
    · exact hpre
    · exact List.prefix_refl _
  have hXmem : X ∈ s.made := by
    rcases hX with ⟨rfl, _⟩ | ⟨rfl, _⟩
    · exact h.log_mem f
    · exact h.tree.past _ (h.front_mem T) X hH
  have hXterm : lastTerm X ≤ s.term f := by
    rcases hX with ⟨rfl, _⟩ | ⟨rfl, _⟩
    · exact h.log_term f
    · rw [ht]
      exact (h.sorted _ (h.front_mem T) X hH).trans (h.front_term hl)
  refine h.of_kept (h.toBasic.follow hXmem hXterm ht hl hH.length_le) ?_ rfl rfl
    (fun _ => le_rfl) ?_ ?_ ?_
  · intro v S m hack hterm
    exact h.held_follow ht hH hHX (hX.imp And.left fun hX => ⟨hX.1, hX.2.2⟩) hack hterm
  · rintro v E (⟨m, hm, hack⟩ | hv)
    · exact .inl ⟨m, hm, .inl hack⟩
    · exact .inr hv
  · intro v E _ _ hlt hv
    rcases State.holds_follow hv with hv | ⟨rfl, hT, _⟩
    · exact hv
    · omega
  · intro E hE hne hlive
    refine .inr { hlive with logs := ?_, votes := ?_ }
    · intro v hv
      by_cases hvf : v = f
      · subst hvf
        have hEX : E <+: X := by
          rcases State.holds_follow hv with hv | ⟨_, hT, hlen⟩
          · exact hlive.prefix_follow h ht hl hH hX hE hne hv
          · have hfront := (h.made_front E hE hne).2
            rw [hT] at hfront
            exact (List.prefix_of_prefix_length_le hfront hH hlen).trans hHX
        simpa using h.noNewer_of_isPrefix hXmem hEX
      · have hv := (State.holds_follow hv).resolve_right fun hno => hvf hno.1
        simpa [hvf] using hlive.logs v hv
    · intro v S q hv hvote hlt
      rcases State.holds_follow hv with hv | ⟨rfl, hT, _⟩
      · exact hlive.votes v S q hv hvote hlt
      · have := h.vote_le v S q hvote
        omega

theorem Inv.install (h : Inv s) {f : ι} {G : History α} (hG : s.Settled G (s.term f))
    (hlen : (s.log f).length ≤ G.length) : Inv (s.install f G) := by
  have hfront := fun p => h.settled_prefix_front (p := p) hG
  obtain ⟨D, hD, hGD, hterm⟩ := hG
  have hDmem := (h.decided_mem D hD).2.1
  have hGmem : G ∈ s.made := h.tree.past D hDmem G hGD
  have hGterm : lastTerm G ≤ s.term f := (h.sorted D hDmem G hGD).trans hterm
  have hheld : ∀ v T m, s.ack v T m → s.term v = T →
      (s.front T).take m <+: (s.install f G).log v := by
    intro v T m hack hv
    by_cases hvf : v = f
    · subst hvf
      obtain ⟨p, hl⟩ := h.ack_led v T m hack
      subst hv
      have hlen' := (h.held v _ m hack rfl).length_le.trans hlen
      simpa using List.prefix_of_prefix_length_le ( List.take_prefix m _) (hfront p hl) hlen'
    · simpa [hvf] using h.held v T m hack hv
  refine h.of_kept (h.toBasic.set_log hGmem hGterm) hheld rfl rfl (fun _ => le_rfl) (fun _ _ => id)
    (fun _ _ _ _ _ => id) fun E hE hne hlive => .inr { hlive with logs := ?_ }
  intro v hv
  by_cases hvf : v = f
  · subst hvf
    -- what `v` holds is in its old history, which is no longer than `G`
    have hlog : E <+: s.log v := hlive.newer _ (h.log_mem v) (hlive.logs v hv)
    have hle : E.length ≤ G.length := hlog.length_le.trans hlen
    have hED : E <+: D := by
      rcases NoNewer.total E D with hnew | hnew
      · exact hlive.newer D hDmem hnew
      · have hDE := (h.live_of_decided hD).newer E hE hnew
        have := hGD.length_le
        rw [hDE.eq_of_length_le (by omega)]
    simpa using h.noNewer_of_isPrefix hGmem (List.prefix_of_prefix_length_le hED hGD hle)
  · simpa [hvf] using hlive.logs v hv

theorem inv_step (h : Inv s) (hs : Step s s') : Inv s' := by
  cases hs with
  | bump v t ht => exact h.bump ht
  | stand p T ht => exact h.stand ht
  | grant v T p ht hp hup => exact h.grant ht hp hup
  | lead p T ht hv hlog hnew => exact h.lead ht hv hlog hnew
  | append p T a ht hl hlog => exact h.append ht hl hlog
  | follow f p T H X ht hl hH hX => exact h.follow ht hl hH hX
  | install f G hG hlen => exact h.install hG hlen
  | decide E hne hE hq => exact h.decide hne hE hq

/-- A run of the protocol. -/
abbrev Steps : State ι α → State ι α → Prop := Relation.ReflTransGen Step

theorem Inv.steps (h : Inv s) (hs : Steps s s') : Inv s' := by
  induction hs with
  | refl => exact h
  | tail _ hstep ih => exact inv_step ih hstep

theorem decided_step (h : Step s s') : s.decided ⊆ s'.decided := by
  cases h with
  | decide E hne hE hq => exact Set.subset_insert E s.decided
  | _ => exact subset_rfl

/-- What is decided stays decided. -/
theorem decided_steps (hs : Steps s s') : s.decided ⊆ s'.decided := by
  induction hs with
  | refl => exact subset_rfl
  | tail _ hstep ih => exact ih.trans (decided_step hstep)

end ReplicatedLog

end RaftImplementation.Library
