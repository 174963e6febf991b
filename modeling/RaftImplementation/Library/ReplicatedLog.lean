import Mathlib.Logic.Function.Basic
import Mathlib.Tactic.Simps.Basic
import RaftImplementation.Library.Histories
import RaftImplementation.Library.Majority

/-!
# A replicated log with elected leaders

The nodes of this protocol hold whole histories. A node stands for a term with the
history it has at that moment (its *bid*) and is voted for by nodes whose history is
no newer; a majority makes it the leader of the term. A leader extends its history;
the others take over what it has, and acknowledge it. What a majority holds, up to an
entry of the leader's own term, is *decided*, and a node may replace its history by a
decided one that is at least as long.
-/

namespace RaftImplementation.Library

namespace ReplicatedLog

/-- The nodes, and what has happened so far. -/
structure State (ι α : Type) where
  term : ι → Nat
  log : ι → History α
  /-- Every history that some leader has had, and their prefixes. -/
  made : Set (History α)
  vote : ι → Nat → ι → Prop
  /-- The history with which a node stands for a term. -/
  bid : ι → Nat → History α
  led : ι → Nat → Prop
  /-- The history of the leader of a term when it won. -/
  win : Nat → History α
  /-- The latest history of the leader of a term. -/
  front : Nat → History α
  /-- `ack v T m`: in term `T`, `v` has confirmed the first `m` entries of the leader. -/
  ack : ι → Nat → Nat → Prop
  decided : Set (History α)

/-- Nothing has happened yet. -/
def State.initial {ι α : Type} : State ι α where
  term _ := 0
  log _ := []
  made := {[]}
  vote _ _ _ := False
  bid _ _ := []
  led _ _ := False
  win _ := []
  front _ := []
  ack _ _ _ := False
  decided := ∅

variable {ι α : Type}

namespace State

section Updates

variable [DecidableEq ι] (s : State ι α)

/-- `v` has learned of term `t`. -/
@[simps]
def bump (v : ι) (t : Nat) : State ι α := { s with term := Function.update s.term v t }

/-- `p` stands for term `T`, and votes for itself. -/
@[simps]
def stand (p : ι) (T : Nat) : State ι α :=
  { s with
    term := Function.update s.term p T
    vote := fun v S q => s.vote v S q ∨ v = p ∧ S = T ∧ q = p
    bid := Function.update s.bid p (Function.update (s.bid p) T (s.log p)) }

/-- `v` votes for `p` in term `T`. -/
@[simps]
def grant (v : ι) (T : Nat) (p : ι) : State ι α :=
  { s with vote := fun u S q => s.vote u S q ∨ u = v ∧ S = T ∧ q = p }

/-- `p` is the leader of term `T`. -/
@[simps]
def lead (p : ι) (T : Nat) : State ι α :=
  { s with
    led := fun q S => s.led q S ∨ q = p ∧ S = T
    win := Function.update s.win T (s.log p)
    front := Function.update s.front T (s.log p) }

/-- The leader `p` of term `T` appends `a`. -/
@[simps]
def append (p : ι) (T : Nat) (a : α) : State ι α :=
  { s with
    log := Function.update s.log p (s.front T ++ [(T, a)])
    made := insert (s.front T ++ [(T, a)]) s.made
    front := Function.update s.front T (s.front T ++ [(T, a)]) }

/-- `f` has now the history `X`, and has confirmed `m` entries in term `T`. -/
@[simps]
def follow (f : ι) (T m : Nat) (X : History α) : State ι α :=
  { s with
    log := Function.update s.log f X
    ack := fun v S i => s.ack v S i ∨ v = f ∧ S = T ∧ i = m }

/-- `f` replaces its history. -/
@[simps]
def install (f : ι) (G : History α) : State ι α := { s with log := Function.update s.log f G }

@[simps]
def decide (E : History α) : State ι α := { s with decided := insert E s.decided }

end Updates

variable (s : State ι α)

/-- `v` holds the history `E`, which ends in an entry of its leader's own term: it has
confirmed it in that term, or is the leader. -/
def Holds (v : ι) (E : History α) : Prop :=
  (∃ m, E.length ≤ m ∧ s.ack v (lastTerm E) m) ∨ s.led v (lastTerm E)

/-- `G` is part of a decided history that was decided no later than in term `t`. -/
def Settled (G : History α) (t : Nat) : Prop := ∃ D ∈ s.decided, G <+: D ∧ lastTerm D ≤ t

end State

variable [Fintype ι]

/-- The steps of the protocol. -/
inductive Step [DecidableEq ι] (s : State ι α) : State ι α → Prop
  | bump (v : ι) (t : Nat) (h : s.term v ≤ t) : Step s (s.bump v t)
  | stand (p : ι) (T : Nat) (h : s.term p < T) : Step s (s.stand p T)
  | grant (v : ι) (T : Nat) (p : ι) (ht : s.term v = T) (hp : s.vote p T p)
      (hup : NoNewer (s.log v) (s.bid p T)) : Step s (s.grant v T p)
  | lead (p : ι) (T : Nat) (ht : s.term p = T) (hv : Majority fun v => s.vote v T p)
      (hlog : s.log p = s.bid p T) (hnew : ∀ q, ¬ s.led q T) : Step s (s.lead p T)
  | append (p : ι) (T : Nat) (a : α) (ht : s.term p = T) (hl : s.led p T)
      (hlog : s.log p = s.front T) : Step s (s.append p T a)
  /-- `f` has the leader's history `H` already, or takes it over. -/
  | follow (f p : ι) (T : Nat) (H X : History α) (ht : s.term f = T) (hl : s.led p T)
      (hH : H <+: s.front T)
      (hX : X = s.log f ∧ H <+: s.log f ∨ X = H ∧ s.win T <+: H ∧ ¬ H <+: s.log f) :
      Step s (s.follow f T H.length X)
  | install (f : ι) (G : History α) (hG : s.Settled G (s.term f))
      (hlen : (s.log f).length ≤ G.length) : Step s (s.install f G)
  | decide (E : History α) (hne : E ≠ []) (hE : E <+: s.front (lastTerm E))
      (hq : Majority fun v => s.Holds v E) : Step s (s.decide E)

/-! ## Elections and histories -/

/-- What holds of the histories in every state. -/
structure Basic (s : State ι α) : Prop where
  tree : HistoryTree s.made
  sorted : ∀ X ∈ s.made, ∀ Y, Y <+: X → lastTerm Y ≤ lastTerm X
  log_mem : ∀ v, s.log v ∈ s.made
  log_term : ∀ v, lastTerm (s.log v) ≤ s.term v
  bid_mem : ∀ p T, s.bid p T ∈ s.made
  vote_le : ∀ v T p, s.vote v T p → T ≤ s.term v
  vote_bid : ∀ v T p, s.vote v T p → T ≤ s.term p ∧ lastTerm (s.bid p T) < T
  led_le : ∀ p T, s.led p T → T ≤ s.term p
  led_votes : ∀ p T, s.led p T → Majority fun v => s.vote v T p
  led_unique : ∀ p q T, s.led p T → s.led q T → p = q
  win_term : ∀ p T, s.led p T → lastTerm (s.win T) < T
  win_front : ∀ T, s.win T <+: s.front T
  front_mem : ∀ T, s.front T ∈ s.made
  /-- What a leader has added is of its own term. -/
  own : ∀ T Y, Y <+: s.front T → (s.win T).length < Y.length → lastTerm Y = T
  made_front : ∀ X ∈ s.made, X ≠ [] →
    (∃ p, s.led p (lastTerm X)) ∧ X <+: s.front (lastTerm X)
  ack_led : ∀ v T m, s.ack v T m → ∃ p, s.led p T
  ack_le : ∀ v T m, s.ack v T m → T ≤ s.term v ∧ m ≤ (s.front T).length

variable {s s' : State ι α}

theorem basic_initial : Basic (State.initial : State ι α) where
  tree := .singleton_nil
  sorted := by
    rintro X rfl Y hY
    rw [List.prefix_nil.mp hY]
  log_mem _ := rfl
  log_term _ := le_rfl
  bid_mem _ _ := rfl
  vote_le _ _ _ h := h.elim
  vote_bid _ _ _ h := h.elim
  led_le _ _ h := h.elim
  led_votes _ _ h := h.elim
  led_unique _ _ _ h := h.elim
  win_term _ _ h := h.elim
  win_front _ := List.prefix_refl _
  front_mem _ := rfl
  own := by
    intro T Y hY hlen
    rw [List.prefix_nil.mp hY] at hlen
    simp [State.initial] at hlen
  made_front := by
    rintro X rfl hne
    exact absurd rfl hne
  ack_led _ _ _ h := h.elim
  ack_le _ _ _ h := h.elim

namespace Basic

theorem front_term (h : Basic s) {p : ι} {T : Nat} (hl : s.led p T) :
    lastTerm (s.front T) ≤ T := by
  by_cases hlen : (s.win T).length < (s.front T).length
  · exact (h.own T _ (List.prefix_refl _) hlen).le
  · rw [← (h.win_front T).eq_of_length_le (by omega)]
    exact (h.win_term p T hl).le

theorem not_made_of_unled (h : Basic s) {T : Nat} (hnew : ∀ q, ¬ s.led q T) {X : History α}
    (hX : X ∈ s.made) (hne : X ≠ []) : lastTerm X ≠ T := by
  rintro rfl
  obtain ⟨⟨p, hl⟩, _⟩ := h.made_front X hX hne
  exact hnew p hl

end Basic

theorem Basic.grant (h : Basic s) {v p : ι} {T : Nat} (ht : s.term v = T) (hp : s.vote p T p) :
    Basic (s.grant v T p) := by
  refine { h with vote_le := ?_, vote_bid := ?_, led_votes := ?_ }
  · rintro u S q (hv | ⟨rfl, rfl, rfl⟩)
    · exact h.vote_le u S q hv
    · exact ht.ge
  · rintro u S q (hv | ⟨rfl, rfl, rfl⟩)
    · exact h.vote_bid u S q hv
    · exact h.vote_bid q S q hp
  · intro q S hl
    exact (h.led_votes q S hl).mono fun u hv => .inl hv

theorem Basic.lead (h : Basic s) {p : ι} {T : Nat} (ht : s.term p = T)
    (hv : Majority fun v => s.vote v T p) (hlog : s.log p = s.bid p T)
    (hnew : ∀ q, ¬ s.led q T) : Basic (s.lead p T) := by
  have hne : ∀ q S, s.led q S → S ≠ T := by
    rintro q S hl rfl
    exact hnew q hl
  obtain ⟨v, hvote, -⟩ := hv.inter hv
  refine { h with
    led_le := ?_, led_votes := ?_, led_unique := ?_, win_term := ?_, win_front := ?_,
    front_mem := ?_, own := ?_, made_front := ?_, ack_led := ?_, ack_le := ?_ }
  · rintro q S (hl | ⟨rfl, rfl⟩)
    · exact h.led_le q S hl
    · exact ht.ge
  · rintro q S (hl | ⟨rfl, rfl⟩)
    · exact h.led_votes q S hl
    · exact hv
  · rintro q r S (hq | ⟨rfl, rfl⟩) (hr | ⟨rfl, hS⟩)
    · exact h.led_unique q r S hq hr
    · exact absurd hS (hne q S hq)
    · exact absurd hr (hnew r)
    · rfl
  · rintro q S (hl | ⟨rfl, rfl⟩)
    · simpa [hne q S hl] using h.win_term q S hl
    · simpa [hlog] using (h.vote_bid v S q hvote).2
  · intro S
    by_cases hS : S = T
    · subst hS
      simp
    · simpa [hS] using h.win_front S
  · intro S
    by_cases hS : S = T
    · subst hS
      simpa using h.log_mem p
    · simpa [hS] using h.front_mem S
  · intro S Y hY hlen
    by_cases hS : S = T
    · subst hS
      have := hY.length_le
      simp only [State.lead_front, State.lead_win, Function.update_self] at this hlen
      omega
    · simp only [State.lead_front, State.lead_win, Function.update_of_ne hS] at hY hlen
      exact h.own S Y hY hlen
  · intro X hX hX0
    have hT := h.not_made_of_unled hnew hX hX0
    obtain ⟨⟨q, hl⟩, hfront⟩ := h.made_front X hX hX0
    exact ⟨⟨q, .inl hl⟩, by simpa [hT] using hfront⟩
  · intro u S m ha
    obtain ⟨q, hl⟩ := h.ack_led u S m ha
    exact ⟨q, .inl hl⟩
  · intro u S m ha
    obtain ⟨q, hl⟩ := h.ack_led u S m ha
    simpa [hne q S hl] using h.ack_le u S m ha

variable [DecidableEq ι]

theorem Basic.bump (h : Basic s) {v : ι} {t : Nat} (ht : s.term v ≤ t) :
    Basic (s.bump v t) := by
  have hle : ∀ u, s.term u ≤ (s.bump v t).term u := by
    intro u
    by_cases hu : u = v
    · subst hu
      simpa using ht
    · simp [hu]
  exact { h with
    log_term := fun u => (h.log_term u).trans (hle u)
    vote_le := fun u T p hv => (h.vote_le u T p hv).trans (hle u)
    vote_bid := fun u T p hv => ⟨(h.vote_bid u T p hv).1.trans (hle p), (h.vote_bid u T p hv).2⟩
    led_le := fun p T hl => (h.led_le p T hl).trans (hle p)
    ack_le := fun u T m ha => ⟨(h.ack_le u T m ha).1.trans (hle u), (h.ack_le u T m ha).2⟩ }

/-- A bid that was voted for stays as it is. -/
theorem Basic.stand_bid (h : Basic s) {p : ι} {T : Nat} (ht : s.term p < T) {v q : ι} {S : Nat}
    (hv : s.vote v S q) : (s.stand p T).bid q S = s.bid q S := by
  have hle := (h.vote_bid v S q hv).1
  by_cases hq : q = p
  · subst hq
    simp [show S ≠ T by omega]
  · simp [hq]

theorem Basic.stand (h : Basic s) {p : ι} {T : Nat} (ht : s.term p < T) :
    Basic (s.stand p T) := by
  have hb := h.bump ht.le
  refine { hb with bid_mem := ?_, vote_le := ?_, vote_bid := ?_, led_votes := ?_ }
  · intro q S
    by_cases hq : q = p
    · subst hq
      by_cases hS : S = T
      · subst hS
        simpa using h.log_mem q
      · simpa [hS] using h.bid_mem q S
    · simpa [hq] using h.bid_mem q S
  · rintro v S q (hv | ⟨rfl, rfl, rfl⟩)
    · exact hb.vote_le v S q hv
    · simp
  · rintro v S q (hv | ⟨rfl, rfl, rfl⟩)
    · rw [h.stand_bid ht hv]
      exact hb.vote_bid v S q hv
    · have := h.log_term q
      simp only [State.stand_term, Function.update_self, State.stand_bid, le_refl, true_and]
      omega
  · intro q S hl
    exact (h.led_votes q S hl).mono fun v hv => .inl hv

theorem Basic.append (h : Basic s) {p : ι} {T : Nat} {a : α} (ht : s.term p = T)
    (hl : s.led p T) : Basic (s.append p T a) := by
  have hpos : T ≠ 0 := by
    have := h.win_term p T hl
    omega
  have hnonempty : ∀ Y : History α, lastTerm Y = T → Y ≠ [] := by
    rintro Y hY rfl
    exact hpos hY.symm
  have hgrow : ∀ S, s.front S <+: (s.append p T a).front S := by
    intro S
    by_cases hS : S = T
    · subst hS
      simp
    · simp [hS]
  refine { h with
    tree := ?_, sorted := ?_, log_mem := ?_, log_term := ?_, bid_mem := ?_, win_front := ?_,
    front_mem := ?_, own := ?_, made_front := ?_, ack_le := ?_ }
  · refine h.tree.insert_concat (h.front_mem T) fun Y hY hY' => ?_
    have hterm : lastTerm Y = T := hY'
    have hfront := (h.made_front Y hY (hnonempty Y hterm)).2
    rw [hterm] at hfront
    have := hfront.length_le
    omega
  · rintro X (rfl | hX) Y hY
    · rcases List.prefix_concat_iff.mp hY with rfl | hY
      · exact le_rfl
      · rw [lastTerm_concat]
        exact (h.sorted _ (h.front_mem T) Y hY).trans (h.front_term hl)
    · exact h.sorted X hX Y hY
  · intro v
    by_cases hv : v = p
    · subst hv
      exact .inl (by simp)
    · exact .inr (by simpa [hv] using h.log_mem v)
  · intro v
    by_cases hv : v = p
    · subst hv
      simp [ht]
    · simpa [hv] using h.log_term v
  · exact fun q S => .inr (h.bid_mem q S)
  · exact fun S => (h.win_front S).trans (hgrow S)
  · intro S
    by_cases hS : S = T
    · subst hS
      exact .inl (by simp)
    · exact .inr (by simpa [hS] using h.front_mem S)
  · intro S Y hY hlen
    by_cases hS : S = T
    · subst hS
      simp only [State.append_front, Function.update_self] at hY
      rcases List.prefix_concat_iff.mp hY with rfl | hY
      · exact lastTerm_concat _ _
      · exact h.own S Y hY hlen
    · simp only [State.append_front, Function.update_of_ne hS] at hY
      exact h.own S Y hY hlen
  · rintro X (rfl | hX) hne
    · exact ⟨⟨p, by simpa using hl⟩, by simp⟩
    · obtain ⟨hled, hfront⟩ := h.made_front X hX hne
      exact ⟨hled, hfront.trans (hgrow _)⟩
  · intro v S m ha
    exact ⟨(h.ack_le v S m ha).1, (h.ack_le v S m ha).2.trans (hgrow S).length_le⟩

theorem Basic.set_log (h : Basic s) {f : ι} {X : History α} (hX : X ∈ s.made)
    (ht : lastTerm X ≤ s.term f) : Basic (s.install f X) := by
  refine { h with log_mem := ?_, log_term := ?_ }
  · intro v
    by_cases hv : v = f
    · subst hv
      simpa using hX
    · simpa [hv] using h.log_mem v
  · intro v
    by_cases hv : v = f
    · subst hv
      simpa using ht
    · simpa [hv] using h.log_term v

theorem Basic.follow (h : Basic s) {f p : ι} {T m : Nat} {X : History α} (hX : X ∈ s.made)
    (hterm : lastTerm X ≤ s.term f) (ht : s.term f = T) (hl : s.led p T)
    (hm : m ≤ (s.front T).length) : Basic (s.follow f T m X) := by
  refine { h.set_log hX hterm with ack_led := ?_, ack_le := ?_ }
  · rintro v S i (ha | ⟨rfl, rfl, rfl⟩)
    · exact h.ack_led v S i ha
    · exact ⟨p, hl⟩
  · rintro v S i (ha | ⟨rfl, rfl, rfl⟩)
    · exact h.ack_le v S i ha
    · exact ⟨ht.ge, hm⟩

end ReplicatedLog

end RaftImplementation.Library
