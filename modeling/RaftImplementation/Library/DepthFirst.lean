import Mathlib.Data.List.Basic
import Mathlib.Tactic.Ring

/-!
# Depth-first search with a memory

A search goes from configuration to configuration, tries the candidates of each in their
order, and goes back when none is left. It remembers every configuration that it has
entered and enters none that it holds for the same as one of those.

If configurations that are held for the same can do the same, the search finds a
configuration that is done whenever there is one (`exhausted`), and it ends after a
number of steps that depends on the depth and on the number of candidates only.
-/

namespace RaftImplementation.Library

/-- `next k c` is the configuration that candidate `c` leads to, if it can be taken. -/
structure Search (K C : Type) where
  root : K
  done : K → Bool
  candidates : K → List C
  next : K → C → Option K
  same : K → K → Bool

namespace Search

variable {K C : Type}

/-- The configuration the search is in and its untried candidates, the same of those it
has come through, the configurations it has entered, and those it has gone back from. -/
structure State (K C : Type) where
  config : K
  untried : List C
  below : List (K × List C)
  memo : List K
  left : List K

variable (P : Search K C)

def start : State K C := ⟨P.root, P.candidates P.root, [], [], []⟩

/-- The next state, or the verdict. -/
def step (s : State K C) : State K C ⊕ Bool :=
  if P.done s.config then .inr true
  else
    match s.untried with
    | c :: untried =>
      match P.next s.config c with
      | none => .inl { s with untried := untried }
      | some k =>
        if s.memo.any (P.same k) then .inl { s with untried := untried }
        else .inl ⟨k, P.candidates k, (s.config, untried) :: s.below, s.memo ++ [k], s.left⟩
    | [] =>
      match s.below with
      | [] => .inr false
      | (k, untried) :: below => .inl ⟨k, untried, below, s.memo, s.left ++ [s.config]⟩

/-- The last state and the verdict, if the fuel lasts. -/
def run : Nat → State K C → Option (State K C × Bool)
  | 0, _ => none
  | fuel + 1, s =>
    match P.step s with
    | .inl s' => run fuel s'
    | .inr verdict => some (s, verdict)

/-- The configurations that can be reached. -/
inductive Reachable : K → Prop
  | root : Reachable P.root
  | next {k k' : K} {c : C} : Reachable k → c ∈ P.candidates k → P.next k c = some k' →
      Reachable k'

variable {P} {s s' : State K C} {k k' m : K} {c : C} {verdict : Bool}

/-- What a step does. -/
inductive Step (P : Search K C) (s : State K C) : State K C → Prop
  | rejected {c : C} {untried : List C} (hs : s.untried = c :: untried)
      (hnext : P.next s.config c = none) : Step P s { s with untried := untried }
  | known {c : C} {untried : List C} {k m : K} (hs : s.untried = c :: untried)
      (hnext : P.next s.config c = some k) (hm : m ∈ s.memo) (hsame : P.same k m = true) :
      Step P s { s with untried := untried }
  | entered {c : C} {untried : List C} {k : K} (hs : s.untried = c :: untried)
      (hnext : P.next s.config c = some k) (hnew : ∀ m ∈ s.memo, P.same k m = false) :
      Step P s ⟨k, P.candidates k, (s.config, untried) :: s.below, s.memo ++ [k], s.left⟩
  | back {k : K} {untried : List C} {below : List (K × List C)} (hs : s.untried = [])
      (hbelow : s.below = (k, untried) :: below) :
      Step P s ⟨k, untried, below, s.memo, s.left ++ [s.config]⟩

theorem step_inl (h : P.step s = .inl s') : P.done s.config = false ∧ P.Step s s' := by
  unfold step at h
  by_cases hdone : P.done s.config = true
  · rw [if_pos hdone] at h
    cases h
  · rw [if_neg hdone] at h
    refine ⟨by simpa using hdone, ?_⟩
    cases hs : s.untried with
    | nil =>
      cases hbelow : s.below with
      | nil =>
        simp only [hs, hbelow] at h
        cases h
      | cons frame below =>
        obtain ⟨k, untried⟩ := frame
        simp only [hs, hbelow, Sum.inl.injEq] at h
        subst h
        exact .back hs hbelow
    | cons c untried =>
      simp only [hs] at h
      cases hnext : P.next s.config c with
      | none =>
        simp only [hnext, Sum.inl.injEq] at h
        subst h
        exact .rejected hs hnext
      | some k =>
        simp only [hnext] at h
        by_cases hany : s.memo.any (P.same k) = true
        · rw [if_pos hany, Sum.inl.injEq] at h
          subst h
          obtain ⟨m, hm, hsame⟩ := List.any_eq_true.mp hany
          exact .known hs hnext hm hsame
        · rw [if_neg hany, Sum.inl.injEq] at h
          subst h
          refine .entered hs hnext ?_
          intro m hm
          by_contra hsame
          exact hany (List.any_eq_true.mpr ⟨m, hm, by simpa using hsame⟩)

theorem step_inr (h : P.step s = .inr verdict) :
    verdict = P.done s.config ∧ (verdict = false → s.untried = [] ∧ s.below = []) := by
  unfold step at h
  by_cases hdone : P.done s.config = true
  · rw [if_pos hdone, Sum.inr.injEq] at h
    subst h
    exact ⟨hdone.symm, by simp⟩
  · rw [if_neg hdone] at h
    cases hs : s.untried with
    | nil =>
      cases hbelow : s.below with
      | nil =>
        simp only [hs, hbelow, Sum.inr.injEq] at h
        subst h
        exact ⟨by simpa using hdone, fun _ => ⟨rfl, rfl⟩⟩
      | cons frame below =>
        simp only [hs, hbelow] at h
        cases h
    | cons c untried =>
      simp only [hs] at h
      split at h
      · cases h
      · split at h
        · cases h
        · cases h

/-! ## What the search has seen -/

/-- The memory has the configuration, or one that is held for the same. -/
def Known (P : Search K C) (memo : List K) (k : K) : Prop :=
  ∃ m ∈ memo, k = m ∨ P.same k m = true

/-- The memory has what these candidates lead to. -/
def Tried (P : Search K C) (memo : List K) (k : K) (cs : List C) : Prop :=
  ∀ c ∈ cs, ∀ k', P.next k c = some k' → P.Known memo k'

/-- A configuration on the way, all but the untried candidates of which have been tried. -/
def FrameFits (P : Search K C) (memo : List K) (frame : K × List C) : Prop :=
  P.Reachable frame.1 ∧ ∃ tried, P.candidates frame.1 = tried ++ frame.2 ∧
    P.Tried memo frame.1 tried

/-- What holds in every state of the search. -/
structure Explored (P : Search K C) (s : State K C) : Prop where
  memo : ∀ m ∈ s.memo, P.Reachable m
  distinct : s.memo.Pairwise fun m m' => P.same m' m = false
  top : P.FrameFits s.memo (s.config, s.untried)
  below : ∀ frame ∈ s.below, P.FrameFits s.memo frame ∧ P.done frame.1 = false
  left : ∀ k ∈ s.left, P.FrameFits s.memo (k, []) ∧ P.done k = false
  /-- What has been entered is on the way or has been left. -/
  cover : ∀ m ∈ P.root :: s.memo, m ∈ s.left ∨ m = s.config ∨ m ∈ s.below.map Prod.fst
  /-- The way starts at the root. -/
  bottom : (s.config :: s.below.map Prod.fst).getLast? = some P.root

theorem Known.append {memo : List K} (h : P.Known memo k) (m : K) : P.Known (memo ++ [m]) k := by
  obtain ⟨m', hm', hsame⟩ := h
  exact ⟨m', List.mem_append_left _ hm', hsame⟩

theorem FrameFits.append {memo : List K} {frame : K × List C} (h : P.FrameFits memo frame) (m : K) :
    P.FrameFits (memo ++ [m]) frame := by
  obtain ⟨hreach, tried, hcands, htried⟩ := h
  refine ⟨hreach, tried, hcands, ?_⟩
  intro c hc k' hnext
  exact (htried c hc k' hnext).append m

/-- One more candidate has been tried. -/
theorem FrameFits.tail {memo : List K} {untried : List C} (h : P.FrameFits memo (k, c :: untried))
    (hc : ∀ k', P.next k c = some k' → P.Known memo k') : P.FrameFits memo (k, untried) := by
  obtain ⟨hreach, tried, hcands, htried⟩ := h
  refine ⟨hreach, tried ++ [c], by simpa using hcands, ?_⟩
  intro c' hc' k' hnext
  cases List.mem_append.mp hc' with
  | inl hold => exact htried c' hold k' hnext
  | inr hnew =>
    rw [List.mem_singleton.mp hnew] at hnext
    exact hc k' hnext

theorem FrameFits.mem_candidates {memo : List K} {untried : List C}
    (h : P.FrameFits memo (k, c :: untried)) : c ∈ P.candidates k := by
  obtain ⟨-, tried, hcands, -⟩ := h
  rw [hcands]
  simp

theorem frameFits_fresh {memo : List K} (h : P.Reachable k) :
    P.FrameFits memo (k, P.candidates k) :=
  ⟨h, [], rfl, by simp [Tried]⟩

theorem explored_start (P : Search K C) : P.Explored P.start where
  memo := by simp [start]
  distinct := List.Pairwise.nil
  top := frameFits_fresh .root
  below := by simp [start]
  left := by simp [start]
  cover := by simp [start]
  bottom := by simp [start]

theorem Explored.step (h : P.Explored s) (hstep : P.step s = .inl s') : P.Explored s' := by
  obtain ⟨hundone, hstep⟩ := step_inl hstep
  have htop := h.top
  cases hstep with
  | rejected hs hnext =>
    rw [hs] at htop
    refine ⟨h.memo, h.distinct, htop.tail ?_, h.below, h.left, h.cover, h.bottom⟩
    intro k' hk'
    rw [hnext] at hk'
    cases hk'
  | @known c untried k m hs hnext hm hsame =>
    rw [hs] at htop
    refine ⟨h.memo, h.distinct, htop.tail ?_, h.below, h.left, h.cover, h.bottom⟩
    intro k' hk'
    rw [hnext, Option.some.injEq] at hk'
    subst hk'
    exact ⟨m, hm, .inr hsame⟩
  | @entered c untried k hs hnext hnew =>
    rw [hs] at htop
    have hreach : P.Reachable k := htop.1.next htop.mem_candidates hnext
    refine ⟨?_, ?_, frameFits_fresh hreach, ?_, ?_, ?_, ?_⟩
    · intro m hm
      cases List.mem_append.mp hm with
      | inl hold => exact h.memo m hold
      | inr hnew =>
        rw [List.mem_singleton.mp hnew]
        exact hreach
    · refine List.pairwise_append.mpr ⟨h.distinct, List.pairwise_singleton _ _, ?_⟩
      intro m hm k' hk'
      rw [List.mem_singleton.mp hk']
      exact hnew m hm
    · intro frame hframe
      cases List.mem_cons.mp hframe with
      | inl heq =>
        subst heq
        refine ⟨(htop.append k).tail ?_, hundone⟩
        intro k' hk'
        rw [hnext, Option.some.injEq] at hk'
        subst hk'
        exact ⟨k, by simp, .inl rfl⟩
      | inr hold => exact ⟨(h.below frame hold).1.append k, (h.below frame hold).2⟩
    · intro k' hk'
      exact ⟨(h.left k' hk').1.append k, (h.left k' hk').2⟩
    · intro m hm
      rw [List.mem_cons, List.mem_append, List.mem_singleton, ← or_assoc] at hm
      cases hm with
      | inl hold =>
        rcases h.cover m (List.mem_cons.mpr hold) with hleft | hconf | hbelow
        · exact .inl hleft
        · exact .inr (.inr (by simp [hconf]))
        · exact .inr (.inr (List.mem_cons_of_mem _ hbelow))
      | inr hnew => exact .inr (.inl hnew)
    · rw [List.map_cons, List.getLast?_cons_cons]
      exact h.bottom
  | @back k untried below hs hbelow =>
    rw [hs] at htop
    have hframe := h.below (k, untried) (by simp [hbelow])
    refine ⟨h.memo, h.distinct, hframe.1, ?_, ?_, ?_, ?_⟩
    · intro frame hmem
      exact h.below frame (by simp [hbelow, hmem])
    · intro k' hk'
      cases List.mem_append.mp hk' with
      | inl hold => exact h.left k' hold
      | inr hnew =>
        rw [List.mem_singleton.mp hnew]
        exact ⟨htop, hundone⟩
    · intro m hm
      rcases h.cover m hm with hleft | hconf | hmem
      · exact .inl (List.mem_append_left _ hleft)
      · exact .inl (by simp [hconf])
      · rw [hbelow, List.map_cons, List.mem_cons] at hmem
        exact .inr hmem
    · have hbottom := h.bottom
      rwa [hbelow, List.map_cons, List.getLast?_cons_cons] at hbottom

theorem Explored.run (h : P.Explored s) {fuel : Nat} (hrun : P.run fuel s = some (s', verdict)) :
    P.Explored s' ∧ P.step s' = .inr verdict := by
  induction fuel generalizing s with
  | zero => cases hrun
  | succ fuel ih =>
    rw [Search.run] at hrun
    cases hstep : P.step s with
    | inl s₁ =>
      simp only [hstep] at hrun
      exact ih (h.step hstep) hrun
    | inr verdict' =>
      simp only [hstep, Option.some.injEq, Prod.mk.injEq] at hrun
      obtain ⟨rfl, rfl⟩ := hrun
      exact ⟨h, hstep⟩

theorem Explored.config_eq_root (h : P.Explored s) (hbelow : s.below = []) : s.config = P.root := by
  have hbottom := h.bottom
  simpa [hbelow] using hbottom

/-! ## What a verdict says -/

/-- A relation that makes configurations do the same, and holds between those that the
search holds for the same. -/
structure Agrees (P : Search K C) (R : K → K → Prop) : Prop where
  refl : ∀ k, R k k
  trans : ∀ k k' k'', R k k' → R k' k'' → R k k''
  same : ∀ k m, P.same k m = true → R k m
  done : ∀ k m, R k m → P.done k = P.done m
  next : ∀ k m c k', R k m → c ∈ P.candidates k → P.next k c = some k' →
    ∃ c' ∈ P.candidates m, ∃ m', P.next m c' = some m' ∧ R k' m'

/-- A search that gives up has left a like of every configuration that can be reached. -/
theorem Explored.exhausted {R : K → K → Prop} (hR : P.Agrees R) (h : P.Explored s)
    (hstep : P.step s = .inr false) (hk : P.Reachable k) :
    P.done k = false ∧ ∃ m ∈ s.left ++ [s.config], R k m := by
  obtain ⟨hdone, hlast⟩ := step_inr hstep
  obtain ⟨huntried, hbelow⟩ := hlast rfl
  -- what has been left, and what is left now, has been tried in full
  have hfits : ∀ m ∈ s.left ++ [s.config], P.FrameFits s.memo (m, []) ∧ P.done m = false := by
    intro m hm
    cases List.mem_append.mp hm with
    | inl hleft => exact h.left m hleft
    | inr hconf =>
      rw [List.mem_singleton.mp hconf]
      have htop := h.top
      rw [huntried] at htop
      exact ⟨htop, hdone.symm⟩
  have hcover : ∀ m ∈ P.root :: s.memo, m ∈ s.left ++ [s.config] := by
    intro m hm
    rcases h.cover m hm with hleft | hconf | hmem
    · exact List.mem_append_left _ hleft
    · simp [hconf]
    · simp [hbelow] at hmem
  have hlike : ∃ m ∈ s.left ++ [s.config], R k m := by
    induction hk with
    | root => exact ⟨P.root, hcover P.root (by simp), hR.refl _⟩
    | @next k k' c _ hc hnext ih =>
      obtain ⟨m, hm, hkm⟩ := ih
      obtain ⟨c', hc', m', hm', hkm'⟩ := hR.next k m c k' hkm hc hnext
      obtain ⟨⟨-, tried, hcands, htried⟩, -⟩ := hfits m hm
      rw [List.append_nil] at hcands
      obtain ⟨m₂, hm₂, hsame⟩ := htried c' (hcands ▸ hc') m' hm'
      refine ⟨m₂, hcover m₂ (List.mem_cons_of_mem _ hm₂), ?_⟩
      cases hsame with
      | inl heq => exact heq ▸ hkm'
      | inr hsame => exact hR.trans _ _ _ hkm' (hR.same _ _ hsame)
  obtain ⟨m, hm, hkm⟩ := hlike
  exact ⟨(hR.done k m hkm).trans (hfits m hm).2, m, hm, hkm⟩

/-! ## How long it takes -/

/-- The steps that are at most left, if there are at most `width` candidates and `rank`
goes down from a configuration to the next. -/
def potential (width : Nat) (rank : K → Nat) (frames : List (K × List C)) : Nat :=
  (frames.map fun frame => frame.2.length * (width + 2) ^ rank frame.1 + 1).sum

theorem potential_fresh {width : Nat} {rank : K → Nat} (hwidth : (P.candidates k').length ≤ width)
    (hrank : rank k' < rank k) :
    (P.candidates k').length * (width + 2) ^ rank k' + 1 < (width + 2) ^ rank k := by
  have hpos : 0 < (width + 2) ^ rank k' := Nat.pow_pos (by omega)
  calc (P.candidates k').length * (width + 2) ^ rank k' + 1
      ≤ width * (width + 2) ^ rank k' + 1 :=
        Nat.add_le_add_right (Nat.mul_le_mul_right _ hwidth) 1
    _ < width * (width + 2) ^ rank k' + 2 * (width + 2) ^ rank k' := by omega
    _ = (width + 2) ^ (rank k' + 1) := by ring
    _ ≤ (width + 2) ^ rank k := Nat.pow_le_pow_right (by omega) hrank

/-- Every step uses up some of the potential. -/
theorem Explored.potential_lt {width : Nat} {rank : K → Nat} (h : P.Explored s)
    (hwidth : ∀ k, (P.candidates k).length ≤ width)
    (hrank : ∀ k c k', P.Reachable k → c ∈ P.candidates k → P.next k c = some k' → rank k' < rank k)
    (hstep : P.step s = .inl s') :
    potential width rank ((s'.config, s'.untried) :: s'.below) <
      potential width rank ((s.config, s.untried) :: s.below) := by
  obtain ⟨-, hstep⟩ := step_inl hstep
  have htop := h.top
  have hpos : 0 < (width + 2) ^ rank s.config := Nat.pow_pos (by omega)
  cases hstep with
  | rejected hs hnext =>
    simp only [potential, hs, List.map_cons, List.sum_cons, List.length_cons, Nat.succ_mul]
    omega
  | known hs hnext hm hsame =>
    simp only [potential, hs, List.map_cons, List.sum_cons, List.length_cons, Nat.succ_mul]
    omega
  | @entered c untried k hs hnext hnew =>
    rw [hs] at htop
    have hlt := potential_fresh (hwidth k) (hrank s.config c k htop.1 htop.mem_candidates hnext)
    simp only [potential, hs, List.map_cons, List.sum_cons, List.length_cons, Nat.succ_mul]
    omega
  | back hs hbelow =>
    simp only [potential, hs, hbelow, List.map_cons, List.sum_cons, List.length_nil]
    omega

/-- With enough fuel there is a verdict. -/
theorem run_isSome (width : Nat) (rank : K → Nat) (hwidth : ∀ k, (P.candidates k).length ≤ width)
    (hrank : ∀ k c k', P.Reachable k → c ∈ P.candidates k → P.next k c = some k' → rank k' < rank k)
    (h : P.Explored s) {fuel : Nat}
    (hfuel : potential width rank ((s.config, s.untried) :: s.below) < fuel) :
    (P.run fuel s).isSome = true := by
  induction fuel generalizing s with
  | zero => omega
  | succ fuel ih =>
    rw [Search.run]
    cases hstep : P.step s with
    | inl s₁ =>
      have hlt := h.potential_lt hwidth hrank hstep
      exact ih (h.step hstep) (by omega)
    | inr verdict => rfl

end Search

end RaftImplementation.Library
