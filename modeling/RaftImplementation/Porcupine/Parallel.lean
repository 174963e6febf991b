import RaftImplementation.Library.Runs
import RaftImplementation.Porcupine.Histories

/-!
# `checkParallel` (`porcupine/checker.go`, `porcupine.go`)

One goroutine for each partition runs `checkSingle` and sends its verdict to a channel. The
main one receives the verdicts until it has all of them, or until one is false and no more
is wanted, or until a timer fires; then it sets the flag that all goroutines read. The turns of the
goroutines and the steps of the main one interleave in any way.
-/

namespace RaftImplementation.Porcupine

open Library

variable {I O S : Type}

inductive CheckResult where
  | unknown
  | ok
  | illegal
  deriving DecidableEq, Repr

/-- A goroutine: in `checkSingle`, before it sends, or at its end. -/
inductive Worker (S : Type) where
  | checking (c : Checking S)
  | sending (ok : Bool) (longest : Longest)
  | finished (ok : Bool) (longest : Longest)

/-- `longest[i]`. -/
def Worker.longest : Worker S → Longest
  | .checking _ => []
  | .sending _ longest => longest
  | .finished _ longest => longest

/-- What a goroutine has sent. -/
def Worker.sent : Worker S → Option Bool
  | .finished ok _ => some ok
  | _ => none

theorem exists_append_of_getElem? {α : Type} {l : List α} {i : Nat} {x : α} (hx : l[i]? = some x) :
    ∃ l₁ l₂, l = l₁ ++ x :: l₂ ∧ ∀ y, l.set i y = l₁ ++ y :: l₂ := by
  obtain ⟨hi, rfl⟩ := List.getElem?_eq_some_iff.mp hx
  refine ⟨l.take i, l.drop (i + 1), by simp, fun y => ?_⟩
  rw [List.set_eq_take_append_cons_drop, if_pos hi]

theorem filterMap_sent_set {workers : List (Worker S)} {i : Nat} {w w' : Worker S}
    (hw : workers[i]? = some w) (hnone : w.sent = none) (hnone' : w'.sent = none) :
    (workers.set i w').filterMap Worker.sent = workers.filterMap Worker.sent := by
  obtain ⟨l₁, l₂, rfl, hset⟩ := exists_append_of_getElem? hw
  rw [hset]
  simp [hnone, hnone']

theorem filterMap_sent_finished {workers : List (Worker S)} {i : Nat} {w : Worker S} (ok : Bool)
    (longest : Longest) (hw : workers[i]? = some w) (hnone : w.sent = none) :
    ((workers.set i (.finished ok longest)).filterMap Worker.sent).Perm
      (workers.filterMap Worker.sent ++ [ok]) := by
  have hsome : (Worker.finished ok longest : Worker S).sent = some ok := rfl
  obtain ⟨l₁, l₂, rfl, hset⟩ := exists_append_of_getElem? hw
  rw [hset]
  simp only [List.filterMap_append, List.filterMap_cons, hnone, hsome, List.append_assoc]
  exact List.Perm.append_left _ (List.perm_append_singleton _ _).symm

/-- The main goroutine: in its loop, in the loop that waits for the others, or at its end,
with the result and the partial linearizations if these were asked for. A panic of any
goroutine ends the program. -/
inductive Main where
  | selecting (count : Nat) (ok : Bool)
  | draining (count : Nat) (ok timedOut : Bool)
  | returned (result : CheckResult) (partialLinearizations : Option (List (List (List Nat))))
  | panicked
  deriving DecidableEq

structure Parallel (S : Type) where
  workers : List (Worker S)
  /-- The channel. -/
  results : List Bool
  kill : Bool
  main : Main

inductive ParallelAction where
  | turn (i : Nat)
  | send (i : Nat)
  | receive
  | timeout
  /-- The main goroutine has waited for all and returns. -/
  | finish

/-- The result at the end of `checkParallel`. -/
def resultOf (ok timedOut : Bool) : CheckResult :=
  if !ok then .illegal else if timedOut then .unknown else .ok

/-- The set of the sequences in `longest`. The code makes a set of pointers; a search
records no sequence twice, so no two of them point to the same sequence. -/
def partials (longest : Longest) : List (List Nat) := (longest.filterMap id).dedup

def Parallel.partialLinearizations (s : Parallel S) : List (List (List Nat)) :=
  s.workers.map fun w => partials w.longest

/-- `count` verdicts have been received, of those that have been sent. -/
def Counted (s : Parallel S) (count : Nat) (received : List Bool) : Prop :=
  received.length = count ∧ (received ++ s.results).Perm (s.workers.filterMap Worker.sent)

theorem Counted.send {s : Parallel S} {count i : Nat} {received : List Bool} (h : Counted s count received) {ok : Bool}
    {longest : Longest} (hw : s.workers[i]? = some (.sending ok longest)) :
    Counted { s with
      workers := s.workers.set i (.finished ok longest)
      results := s.results ++ [ok] } count received := by
  refine ⟨h.1, ?_⟩
  rw [← List.append_assoc]
  exact (h.2.append_right [ok]).trans (filterMap_sent_finished ok longest hw rfl).symm

variable [DecidableEq S]

/-- The arguments of `checkParallel`. -/
structure ParallelCheck (I O S : Type) [DecidableEq S] where
  model : Model I O S
  history : List (List (Entry I O))
  computeInfo : Bool
  timeout : Int

namespace ParallelCheck

variable (p : ParallelCheck I O S)

def start : Parallel S where
  workers := p.history.map fun subhistory => .checking (startChecking p.model subhistory)
  results := []
  kill := false
  main := .selecting 0 true

/-- After the loop. -/
def afterLoop (s : Parallel S) (count : Nat) (ok timedOut : Bool) : Parallel S :=
  if p.computeInfo then { s with main := .draining count ok timedOut }
  else { s with main := .returned (resultOf ok timedOut) none }

/-- A verdict is received in the loop. -/
def received (s : Parallel S) (count : Nat) (ok : Bool) : Parallel S :=
  if !ok && !p.computeInfo then p.afterLoop { s with kill := true } count ok false
  else if p.history.length ≤ count then p.afterLoop s count ok false
  else { s with main := .selecting count ok }

/-- Goroutine `i` after a turn. -/
def turned (s : Parallel S) (i : Nat) : Option (Checking S ⊕ (Bool × Longest)) → Parallel S
  | none => { s with main := .panicked }
  | some (.inl c) => { s with workers := s.workers.set i (.checking c) }
  | some (.inr (ok, longest)) => { s with workers := s.workers.set i (.sending ok longest) }

def step (s : Parallel S) : ParallelAction → Option (Parallel S × List Unit)
  | .turn i =>
    match s.workers[i]?, p.history[i]? with
    | some (.checking c), some subhistory =>
      some (turned s i (turn p.model (makeLinkedEntries subhistory).nodes subhistory.length
        p.computeInfo s.kill c), [])
    | _, _ => none
  | .send i =>
    match s.workers[i]? with
    | some (.sending ok longest) =>
      -- the channel has room for one verdict of each goroutine
      if s.results.length < p.history.length then
        some ({ s with
          workers := s.workers.set i (.finished ok longest)
          results := s.results ++ [ok] }, [])
      else none
    | _ => none
  | .receive =>
    match s.results, s.main with
    | result :: results, .selecting count ok =>
      some (p.received { s with results := results } (count + 1) (ok && result), [])
    | _ :: results, .draining count ok timedOut =>
      if count < p.history.length then
        some ({ s with results := results, main := .draining (count + 1) ok timedOut }, [])
      else none
    | _, _ => none
  | .timeout =>
    match s.main with
    | .selecting count ok =>
      -- without a timeout the channel of the timer is nil
      if 0 < p.timeout then some (p.afterLoop { s with kill := true } count ok true, [])
      else none
    | _ => none
  | .finish =>
    match s.main with
    | .draining count ok timedOut =>
      if count < p.history.length then none
      else
        some ({ s with main := .returned (resultOf ok timedOut) (some s.partialLinearizations) }, [])
    | _ => none

/-! ## What a step can do -/

inductive Takes (s : Parallel S) : ParallelAction → Parallel S → Prop
  | turn {i : Nat} {c : Checking S} {subhistory : List (Entry I O)}
      (hw : s.workers[i]? = some (.checking c)) (hsub : p.history[i]? = some subhistory) :
      Takes s (.turn i) (turned s i (Porcupine.turn p.model (makeLinkedEntries subhistory).nodes
        subhistory.length p.computeInfo s.kill c))
  | send {i : Nat} {ok : Bool} {longest : Longest} (hw : s.workers[i]? = some (.sending ok longest)) :
      Takes s (.send i) { s with
        workers := s.workers.set i (.finished ok longest)
        results := s.results ++ [ok] }
  | receive {result : Bool} {results : List Bool} {count : Nat} {ok : Bool}
      (hres : s.results = result :: results) (hmain : s.main = .selecting count ok) :
      Takes s .receive (p.received { s with results := results } (count + 1) (ok && result))
  | drain {result : Bool} {results : List Bool} {count : Nat} {ok timedOut : Bool}
      (hres : s.results = result :: results) (hmain : s.main = .draining count ok timedOut)
      (hcount : count < p.history.length) :
      Takes s .receive { s with results := results, main := .draining (count + 1) ok timedOut }
  | timeout {count : Nat} {ok : Bool} (hmain : s.main = .selecting count ok) (htimer : 0 < p.timeout) :
      Takes s .timeout (p.afterLoop { s with kill := true } count ok true)
  | finish {count : Nat} {ok timedOut : Bool} (hmain : s.main = .draining count ok timedOut) :
      Takes s .finish
        { s with main := .returned (resultOf ok timedOut) (some s.partialLinearizations) }

variable {p} {s s' : Parallel S} {a : ParallelAction} {es : List Unit}

theorem step_takes (h : p.step s a = some (s', es)) : p.Takes s a s' := by
  cases a with
  | turn i =>
    simp only [step] at h
    split at h
    · rename_i c subhistory hw hsub
      cases h
      exact .turn hw hsub
    · cases h
  | send i =>
    simp only [step] at h
    split at h
    · rename_i ok longest hw
      split at h
      · cases h
        exact .send hw
      · cases h
    · cases h
  | receive =>
    simp only [step] at h
    split at h
    · rename_i result results count ok hres hmain
      cases h
      exact .receive hres hmain
    · rename_i result results count ok timedOut hres hmain
      split at h
      · rename_i hcount
        cases h
        exact .drain hres hmain hcount
      · cases h
    · cases h
  | timeout =>
    simp only [step] at h
    split at h
    · rename_i count ok hmain
      split at h
      · rename_i htimer
        cases h
        exact .timeout hmain htimer
      · cases h
    · cases h
  | finish =>
    simp only [step] at h
    split at h
    · rename_i count ok timedOut hmain
      split at h
      · cases h
      · cases h
        exact .finish hmain
    · cases h

/-! ## What the goroutines know -/

/-- The search in the entries decides `q`. -/
def Decides (model : Model I O S) (subhistory : List (Entry I O)) (q : Prop) : Prop :=
  ∃ ops, ∃ h : Pairing subhistory ops, (∃ σ, h.Explained model σ) ↔ q

/-- A verdict is right, but a false one need not be when the flag is set. -/
def RightVerdict (kill : Bool) (q : Prop) : Bool → Prop
  | true => q
  | false => kill = true ∨ ¬ q

theorem RightVerdict.killed {kill : Bool} {q : Prop} {ok : Bool} (h : RightVerdict kill q ok) :
    RightVerdict true q ok := by
  cases ok with
  | true => exact h
  | false => exact .inl rfl

def WorkerFits (p : ParallelCheck I O S) (kill : Bool) (subhistory : List (Entry I O)) (q : Prop) :
    Worker S → Prop
  | .checking c => ∃ ops, ∃ h : Pairing subhistory ops, ∃ a, ((∃ σ, h.Explained p.model σ) ↔ q) ∧
      Fits h p.model p.computeInfo c a ∧ (search p.model subhistory ops).Explored a
  | .sending ok _ => RightVerdict kill q ok
  | .finished ok _ => RightVerdict kill q ok

theorem WorkerFits.killed {kill : Bool} {subhistory : List (Entry I O)} {q : Prop} {w : Worker S}
    (h : WorkerFits p kill subhistory q w) : WorkerFits p true subhistory q w := by
  cases w with
  | checking c => exact h
  | sending ok longest => exact RightVerdict.killed h
  | finished ok longest => exact RightVerdict.killed h

/-- A turn of a goroutine does not panic, and if it returns, its verdict is right. -/
theorem WorkerFits.turn (hequal : p.model.EqualFits) {kill : Bool} {subhistory : List (Entry I O)}
    {q : Prop} {c : Checking S} (h : WorkerFits p kill subhistory q (.checking c)) :
    (∃ c', Porcupine.turn p.model (makeLinkedEntries subhistory).nodes subhistory.length p.computeInfo
        kill c = some (.inl c') ∧ WorkerFits p kill subhistory q (.checking c')) ∨
    (∃ ok longest, Porcupine.turn p.model (makeLinkedEntries subhistory).nodes subhistory.length
        p.computeInfo kill c = some (.inr (ok, longest)) ∧ RightVerdict kill q ok) := by
  obtain ⟨ops, h, a, hq, hf, hex⟩ := h
  rcases hf.turn_cases kill with ⟨c', a', hturn, -, hstep, hf'⟩ | ⟨hturn, hstep⟩ | ⟨hturn, hwhy⟩
  · exact .inl ⟨c', hturn, ops, h, a', hq, hf', hex.step hstep⟩
  · exact .inr ⟨_, _, hturn, hq.mp ⟨_, h.explained_of_step hex hstep⟩⟩
  · refine .inr ⟨_, _, hturn, hwhy.imp_right fun hstep => ?_⟩
    rw [← hq]
    exact h.not_explained_of_step hequal hex hstep

/-! ## What the main goroutine knows -/

/-- What can be concluded from a verdict of all, or when the timer has fired. -/
structure Concludes (p : ParallelCheck I O S) (Q : Nat → Prop) (ok timedOut : Bool) : Prop where
  illegal : ok = false → ∃ i < p.history.length, ¬ Q i
  all : ok = true → timedOut = false → ∀ i < p.history.length, Q i
  timer : timedOut = true → 0 < p.timeout

/-- The result is right. -/
def RightResult (p : ParallelCheck I O S) (Q : Nat → Prop) : CheckResult → Prop
  | .ok => ∀ i < p.history.length, Q i
  | .illegal => ∃ i < p.history.length, ¬ Q i
  | .unknown => 0 < p.timeout

theorem Concludes.rightResult {Q : Nat → Prop} {ok timedOut : Bool}
    (h : Concludes p Q ok timedOut) : RightResult p Q (resultOf ok timedOut) := by
  cases ok with
  | false => exact h.illegal rfl
  | true =>
    cases timedOut with
    | false => exact h.all rfl rfl
    | true => exact h.timer rfl

def MainFits (p : ParallelCheck I O S) (Q : Nat → Prop) (s : Parallel S) : Main → Prop
  | .selecting count ok => s.kill = false ∧ (count = 0 ∨ count < p.history.length) ∧
      (ok = false → ∃ i < p.history.length, ¬ Q i) ∧
      ∃ received, Counted s count received ∧ (ok = true → ∀ r ∈ received, r = true)
  | .draining count ok timedOut => Concludes p Q ok timedOut ∧ ∃ received, Counted s count received
  | .returned result _ => RightResult p Q result
  | .panicked => False

structure WorkersFit (p : ParallelCheck I O S) (Q : Nat → Prop) (s : Parallel S) : Prop where
  length : s.workers.length = p.history.length
  fits : ∀ i w subhistory, s.workers[i]? = some w → p.history[i]? = some subhistory →
    WorkerFits p s.kill subhistory (Q i) w

structure Inv (p : ParallelCheck I O S) (Q : Nat → Prop) (s : Parallel S) : Prop
    extends WorkersFit p Q s where
  main : MainFits p Q s s.main

variable {Q : Nat → Prop}

/-- A received verdict is that of a goroutine that has ended. -/
theorem WorkersFit.exists_finished (h : WorkersFit p Q s) {r : Bool} (hr : r ∈ s.workers.filterMap Worker.sent) :
    ∃ i < p.history.length, RightVerdict s.kill (Q i) r := by
  obtain ⟨w, hw, hsent⟩ := List.mem_filterMap.mp hr
  obtain ⟨i, hi⟩ := List.mem_iff_getElem?.mp hw
  have hlt := (List.getElem?_eq_some_iff.mp hi).1
  rw [h.length] at hlt
  have hfits := h.fits i w _ hi (List.getElem?_eq_getElem hlt)
  cases w with
  | finished ok longest =>
    cases hsent
    exact ⟨i, hlt, hfits⟩
  | checking c => cases hsent
  | sending ok longest => cases hsent

/-- If as many verdicts have been sent as there are goroutines, all have ended. -/
theorem WorkersFit.all_finished (h : WorkersFit p Q s)
    (hlen : p.history.length ≤ (s.workers.filterMap Worker.sent).length) {i : Nat}
    (hi : i < p.history.length) :
    ∃ r ∈ s.workers.filterMap Worker.sent, RightVerdict s.kill (Q i) r := by
  have hall : ∀ w ∈ s.workers, w.sent.isSome = true := by
    apply List.filterMap_length_eq_length.mp
    have hle := List.length_filterMap_le Worker.sent s.workers
    have hworkers := h.length
    omega
  have hi' : i < s.workers.length := h.length.symm ▸ hi
  have hmem := List.getElem_mem hi'
  have hfits := h.fits i _ _ (List.getElem?_eq_getElem hi') (List.getElem?_eq_getElem hi)
  obtain ⟨r, hr⟩ := Option.isSome_iff_exists.mp (hall _ hmem)
  refine ⟨r, List.mem_filterMap.mpr ⟨_, hmem, hr⟩, ?_⟩
  cases hw : s.workers[i] with
  | finished ok longest =>
    rw [hw] at hr hfits
    cases hr
    exact hfits
  | checking c =>
    rw [hw] at hr
    cases hr
  | sending ok longest =>
    rw [hw] at hr
    cases hr

/-! ## Every step keeps the invariant -/

theorem inv_start (hQ : ∀ i subhistory, p.history[i]? = some subhistory → Decides p.model subhistory (Q i)) :
    Inv p Q p.start := by
  refine ⟨⟨by simp [start], ?_⟩, rfl, .inl rfl, by simp, [], ?_, by simp⟩
  · intro i w subhistory hw hsub
    simp only [start, List.getElem?_map, hsub, Option.map_some, Option.some.injEq] at hw
    subst hw
    obtain ⟨ops, h, hq⟩ := hQ i subhistory hsub
    exact ⟨ops, h, _, hq, fits_start h _, Search.explored_start _⟩
  · refine ⟨rfl, ?_⟩
    have hnone : (p.start).workers.filterMap Worker.sent = [] := by
      apply List.filterMap_eq_nil_iff.mpr
      intro w hw
      obtain ⟨subhistory, -, rfl⟩ := List.mem_map.mp hw
      rfl
    rw [hnone]
    rfl

/-- The main goroutine does not look at what it has not received. -/
theorem MainFits.congr {main : Main} (h : MainFits p Q s main) (hkill : s'.kill = s.kill)
    (hres : s'.results = s.results)
    (hworkers : s'.workers.filterMap Worker.sent = s.workers.filterMap Worker.sent) : MainFits p Q s' main := by
  cases main with
  | selecting count ok =>
    simp only [MainFits, Counted, hkill, hres, hworkers] at h ⊢
    exact h
  | draining count ok timedOut =>
    simp only [MainFits, Counted, hres, hworkers] at h ⊢
    exact h
  | returned result info => exact h
  | panicked => exact h

/-- One goroutine goes on; `s'` is what the others and the main one see. -/
theorem Inv.set (h : Inv p Q s) {i : Nat} {w' : Worker S} {subhistory : List (Entry I O)}
    (hsub : p.history[i]? = some subhistory) (hw' : WorkerFits p s.kill subhistory (Q i) w')
    (hkill : s'.kill = s.kill) (hworkers : s'.workers = s.workers.set i w')
    (hmain : MainFits p Q s' s'.main) : Inv p Q s' := by
  refine ⟨⟨by rw [hworkers, List.length_set, h.length], ?_⟩, hmain⟩
  intro j w sub hw hj
  rw [hkill]
  rw [hworkers] at hw
  by_cases hij : i = j
  · subst hij
    rw [List.getElem?_set] at hw
    rw [hsub] at hj
    cases hj
    split at hw
    · split at hw
      · cases hw
        exact hw'
      · cases hw
    · exact h.fits i w _ hw hsub
  · rw [List.getElem?_set_ne hij] at hw
    exact h.fits j w sub hw hj

theorem Inv.turn (hequal : p.model.EqualFits) (h : Inv p Q s) {i : Nat} {c : Checking S}
    {subhistory : List (Entry I O)} (hw : s.workers[i]? = some (.checking c))
    (hsub : p.history[i]? = some subhistory) :
    Inv p Q (turned s i (Porcupine.turn p.model (makeLinkedEntries subhistory).nodes subhistory.length
      p.computeInfo s.kill c)) := by
  rcases (h.fits i _ _ hw hsub).turn hequal with ⟨c', hturn, hfits⟩ | ⟨ok, longest, hturn, hright⟩
  · rw [hturn]
    exact h.set hsub hfits rfl rfl (h.main.congr rfl rfl (filterMap_sent_set hw rfl rfl))
  · rw [hturn]
    have hfits : WorkerFits p s.kill subhistory (Q i) (.sending ok longest) := hright
    exact h.set hsub hfits rfl rfl (h.main.congr rfl rfl (filterMap_sent_set hw rfl rfl))

theorem Inv.send (h : Inv p Q s) {i : Nat} {ok : Bool} {longest : Longest}
    (hw : s.workers[i]? = some (.sending ok longest)) :
    Inv p Q { s with
      workers := s.workers.set i (.finished ok longest)
      results := s.results ++ [ok] } := by
  have hlt := (List.getElem?_eq_some_iff.mp hw).1
  rw [h.length] at hlt
  have hsub := List.getElem?_eq_getElem hlt
  have hright : RightVerdict s.kill (Q i) ok := h.fits i _ _ hw hsub
  have hfits : WorkerFits p s.kill p.history[i] (Q i) (.finished ok longest) := hright
  refine h.set hsub hfits rfl rfl ?_
  have hmain := h.main
  generalize s.main = main at hmain
  cases main with
  | selecting count ok' =>
    obtain ⟨hkill, hle, hfalse, received, hcounted, htrue⟩ := hmain
    exact ⟨hkill, hle, hfalse, received, hcounted.send hw, htrue⟩
  | draining count ok' timedOut =>
    obtain ⟨hconc, received, hcounted⟩ := hmain
    exact ⟨hconc, received, hcounted.send hw⟩
  | returned result info => exact hmain
  | panicked => exact hmain

/-- The flag is set. -/
theorem WorkersFit.killed (h : WorkersFit p Q s) : WorkersFit p Q { s with kill := true } := by
  refine ⟨h.length, ?_⟩
  intro i w subhistory hw hsub
  exact (h.fits i w subhistory hw hsub).killed

/-- The loop is left with a conclusion. -/
theorem WorkersFit.afterLoop (h : WorkersFit p Q s) {count : Nat} {ok timedOut : Bool}
    {received : List Bool} (hconc : Concludes p Q ok timedOut) (hcounted : Counted s count received) :
    Inv p Q (p.afterLoop s count ok timedOut) := by
  rw [ParallelCheck.afterLoop]
  by_cases hinfo : p.computeInfo = true
  · rw [if_pos hinfo]
    exact ⟨⟨h.length, h.fits⟩, hconc, received, hcounted⟩
  · rw [if_neg hinfo]
    exact ⟨⟨h.length, h.fits⟩, hconc.rightResult⟩

theorem Inv.timeout (h : Inv p Q s) {count : Nat} {ok : Bool} (hmain : s.main = .selecting count ok)
    (htimer : 0 < p.timeout) : Inv p Q (p.afterLoop { s with kill := true } count ok true) := by
  have hm := h.main
  rw [hmain] at hm
  obtain ⟨-, -, hfalse, received, hcounted, -⟩ := hm
  exact h.killed.afterLoop ⟨hfalse, by simp, fun _ => htimer⟩ hcounted

/-- All have been received, so there is a verdict of each goroutine. -/
theorem WorkersFit.forall_of_received (h : WorkersFit p Q s) {count : Nat} {received : List Bool}
    (hcounted : Counted s count received) (hcount : p.history.length ≤ count)
    (htrue : ∀ r ∈ received, r = true) : ∀ i < p.history.length, Q i := by
  obtain ⟨hlen, hperm⟩ := hcounted
  have hsum := hperm.length_eq
  rw [List.length_append] at hsum
  have hle := List.length_filterMap_le Worker.sent s.workers
  rw [h.length] at hle
  have hnil : s.results = [] := List.length_eq_zero_iff.mp (by omega)
  rw [hnil, List.append_nil] at hperm
  intro i hi
  obtain ⟨r, hr, hright⟩ := h.all_finished (by omega) hi
  rw [htrue r (hperm.mem_iff.mpr hr)] at hright
  exact hright

/-- The verdict is out of the channel. -/
theorem Inv.took (h : Inv p Q s) {result : Bool} {results : List Bool} {count : Nat} {ok : Bool}
    (hres : s.results = result :: results) (hmain : s.main = .selecting count ok) :
    s.kill = false ∧ ((ok && result) = false → ∃ i < p.history.length, ¬ Q i) ∧
      ∃ received, Counted { s with results := results } (count + 1) received ∧
        ((ok && result) = true → ∀ r ∈ received, r = true) := by
  have hm := h.main
  rw [hmain] at hm
  obtain ⟨hkill, -, hfalse, received, ⟨hlen, hperm⟩, htrue⟩ := hm
  rw [hres] at hperm
  refine ⟨hkill, ?_, received ++ [result], ⟨by simp [hlen], by simpa using hperm⟩, ?_⟩
  · intro hand
    cases ok with
    | false => exact hfalse rfl
    | true =>
      rw [Bool.true_and] at hand
      subst hand
      have hmem : false ∈ s.workers.filterMap Worker.sent := hperm.mem_iff.mp (by simp)
      obtain ⟨i, hi, hright⟩ := h.exists_finished hmem
      refine ⟨i, hi, Or.resolve_left hright ?_⟩
      simp [hkill]
  · intro hand r hr
    obtain ⟨hok, hresult⟩ := (Bool.and_eq_true _ _).mp hand
    cases List.mem_append.mp hr with
    | inl hold => exact htrue hok r hold
    | inr hnew => rwa [List.mem_singleton.mp hnew]

theorem Inv.receive (h : Inv p Q s) {result : Bool} {results : List Bool} {count : Nat} {ok : Bool}
    (hres : s.results = result :: results) (hmain : s.main = .selecting count ok) :
    Inv p Q (p.received { s with results := results } (count + 1) (ok && result)) := by
  obtain ⟨hkill, hfalse, received, hcounted, htrue⟩ := h.took hres hmain
  have hworkers : WorkersFit p Q { s with results := results } := ⟨h.length, h.fits⟩
  unfold ParallelCheck.received
  by_cases hbreak : (!(ok && result) && !p.computeInfo) = true
  · -- a false verdict, and no more is wanted
    rw [if_pos hbreak]
    have hok : (ok && result) = false := by
      rw [Bool.and_eq_true, Bool.not_eq_true'] at hbreak
      exact hbreak.1
    exact hworkers.killed.afterLoop ⟨hfalse, by simp [hok], by simp⟩ hcounted
  · rw [if_neg hbreak]
    by_cases hcount : p.history.length ≤ count + 1
    · rw [if_pos hcount]
      refine hworkers.afterLoop ⟨hfalse, fun hok _ => ?_, by simp⟩ hcounted
      exact hworkers.forall_of_received hcounted hcount (htrue hok)
    · rw [if_neg hcount]
      exact ⟨⟨h.length, h.fits⟩, hkill, by omega, hfalse, received, hcounted, htrue⟩

theorem Inv.drain (h : Inv p Q s) {result : Bool} {results : List Bool} {count : Nat}
    {ok timedOut : Bool} (hres : s.results = result :: results)
    (hmain : s.main = .draining count ok timedOut) :
    Inv p Q { s with results := results, main := .draining (count + 1) ok timedOut } := by
  have hm := h.main
  rw [hmain] at hm
  obtain ⟨hconc, received, hlen, hperm⟩ := hm
  rw [hres] at hperm
  exact ⟨⟨h.length, h.fits⟩, hconc, received ++ [result], by simp [hlen], by simpa using hperm⟩

theorem Inv.finish (h : Inv p Q s) {count : Nat} {ok timedOut : Bool}
    (hmain : s.main = .draining count ok timedOut) (info : Option (List (List (List Nat)))) :
    Inv p Q { s with main := .returned (resultOf ok timedOut) info } := by
  have hm := h.main
  rw [hmain] at hm
  exact ⟨⟨h.length, h.fits⟩, hm.1.rightResult⟩

theorem Inv.step (hequal : p.model.EqualFits) (h : Inv p Q s) (hstep : p.step s a = some (s', es)) :
    Inv p Q s' := by
  cases step_takes hstep with
  | turn hw hsub => exact h.turn hequal hw hsub
  | send hw => exact h.send hw
  | receive hres hmain => exact h.receive hres hmain
  | drain hres hmain _ => exact h.drain hres hmain
  | timeout hmain htimer => exact h.timeout hmain htimer
  | finish hmain => exact h.finish hmain _

/-- In every interleaving. -/
theorem inv_run (hequal : p.model.EqualFits)
    (hQ : ∀ i subhistory, p.history[i]? = some subhistory → Decides p.model subhistory (Q i))
    {tr : List Unit} (hrun : Run p.step always p.start tr s) : Inv p Q s := by
  induction hrun with
  | refl => exact inv_start hQ
  | snoc _ _ hstep ih => exact ih.step hequal hstep

/-! ## Every run ends -/

/-- Whatever the flag is, `checkSingle` goes on for less than so many turns. -/
def EndsIn (p : ParallelCheck I O S) (subhistory : List (Entry I O)) : Nat → Checking S → Prop
  | 0, _ => False
  | n + 1, c => ∀ kill c', Porcupine.turn p.model (makeLinkedEntries subhistory).nodes
      subhistory.length p.computeInfo kill c = some (.inl c') → EndsIn p subhistory n c'

theorem endsIn_of_fits {subhistory : List (Entry I O)} {ops : List (I × O)}
    {h : Pairing subhistory ops} {c : Checking S} {a : Search.State (List Nat × S) Nat}
    (hf : Fits h p.model p.computeInfo c a) (hex : (search p.model subhistory ops).Explored a) {n : Nat}
    (hn : Search.potential subhistory.length (fun k => ops.length - k.1.length)
      ((a.config, a.untried) :: a.below) < n) : EndsIn p subhistory n c := by
  induction n generalizing c a with
  | zero => omega
  | succ n ih =>
    intro kill c' hc'
    rcases hf.turn_cases kill with ⟨c₁, a', hturn, -, hstep, hf'⟩ | ⟨hturn, -⟩ | ⟨hturn, -⟩
    · rw [hturn] at hc'
      cases hc'
      have hlt := potential_search_lt h hex hstep
      exact ih hf' (hex.step hstep) (by omega)
    · rw [hturn] at hc'
      cases hc'
    · rw [hturn] at hc'
      cases hc'

/-- How many steps a goroutine has left. -/
def StepsLeft (p : ParallelCheck I O S) (subhistory : List (Entry I O)) (n : Nat) : Worker S → Prop
  | .checking c => ∃ m, EndsIn p subhistory m c ∧ n = m + 1
  | .sending _ _ => n = 1
  | .finished _ _ => n = 0

/-- How many steps the main one has left. -/
def mainLeft (p : ParallelCheck I O S) : Main → Nat
  | .selecting count _ => (p.history.length - count) + (p.history.length + 3)
  | .draining count _ _ => (p.history.length - count) + 1
  | .returned _ _ => 0
  | .panicked => 0

/-- What the goroutines have left. -/
def WorkersLeft (p : ParallelCheck I O S) (workers : List (Worker S)) (ns : List Nat) : Prop :=
  ∀ (i : Nat) w subhistory, workers[i]? = some w → p.history[i]? = some subhistory →
    ∃ m, ns[i]? = some m ∧ StepsLeft p subhistory m w

/-- At most `n` steps are left. -/
def RunsOut (p : ParallelCheck I O S) (s : Parallel S) (n : Nat) : Prop :=
  ∃ ns, WorkersLeft p s.workers ns ∧ ns.sum + mainLeft p s.main ≤ n

theorem WorkersLeft.set {workers : List (Worker S)} {ns : List Nat} (h : WorkersLeft p workers ns)
    {i m m' : Nat} {w w' : Worker S} {subhistory : List (Entry I O)} (hw : workers[i]? = some w)
    (hsub : p.history[i]? = some subhistory) (hm : ns[i]? = some m)
    (hleft : StepsLeft p subhistory m' w') (hlt : m' < m) :
    ∃ ns', WorkersLeft p (workers.set i w') ns' ∧ ns'.sum < ns.sum := by
  have hi := (List.getElem?_eq_some_iff.mp hw).1
  have hi' := (List.getElem?_eq_some_iff.mp hm).1
  refine ⟨ns.set i m', ?_, ?_⟩
  · intro j v sub hv hj
    by_cases hij : i = j
    · subst hij
      rw [List.getElem?_set_self hi] at hv
      cases hv
      rw [hsub] at hj
      cases hj
      exact ⟨m', List.getElem?_set_self hi', hleft⟩
    · rw [List.getElem?_set_ne hij] at hv
      obtain ⟨m₁, hm₁, hleft₁⟩ := h j v sub hv hj
      exact ⟨m₁, (List.getElem?_set_ne hij).trans hm₁, hleft₁⟩
  · obtain ⟨l₁, l₂, rfl, hset⟩ := exists_append_of_getElem? hm
    rw [hset]
    simp only [List.sum_append, List.sum_cons]
    omega

/-- A turn of a goroutine uses up a step. -/
theorem RunsOut.turn (hequal : p.model.EqualFits) (hinv : Inv p Q s) {n : Nat} (h : RunsOut p s n)
    {i : Nat} {c : Checking S} {subhistory : List (Entry I O)}
    (hw : s.workers[i]? = some (.checking c)) (hsub : p.history[i]? = some subhistory) :
    ∃ n' < n, RunsOut p (turned s i (Porcupine.turn p.model (makeLinkedEntries subhistory).nodes
      subhistory.length p.computeInfo s.kill c)) n' := by
  obtain ⟨ns, hworkers, hsum⟩ := h
  obtain ⟨m, hm, k, hends, rfl⟩ := hworkers i _ _ hw hsub
  obtain ⟨k, rfl⟩ : ∃ k', k = k' + 1 := by
    cases k with
    | zero => exact hends.elim
    | succ k' => exact ⟨k', rfl⟩
  rcases (hinv.fits i _ _ hw hsub).turn hequal with ⟨c', hturn, -⟩ | ⟨ok, longest, hturn, -⟩
  · have hleft : StepsLeft p subhistory (k + 1) (.checking c') := ⟨k, hends _ _ hturn, rfl⟩
    obtain ⟨ns', hworkers', hlt⟩ := hworkers.set hw hsub hm hleft (by omega)
    rw [hturn]
    exact ⟨ns'.sum + mainLeft p s.main, by omega, ns', hworkers', le_rfl⟩
  · have hleft : StepsLeft p subhistory 1 (.sending ok longest) := rfl
    obtain ⟨ns', hworkers', hlt⟩ := hworkers.set hw hsub hm hleft (by omega)
    rw [hturn]
    exact ⟨ns'.sum + mainLeft p s.main, by omega, ns', hworkers', le_rfl⟩

theorem RunsOut.send (hinv : Inv p Q s) {n : Nat} (h : RunsOut p s n) {i : Nat} {ok : Bool}
    {longest : Longest} (hw : s.workers[i]? = some (.sending ok longest)) :
    ∃ n' < n, RunsOut p { s with
      workers := s.workers.set i (.finished ok longest)
      results := s.results ++ [ok] } n' := by
  obtain ⟨ns, hworkers, hsum⟩ := h
  have hlt := (List.getElem?_eq_some_iff.mp hw).1
  rw [hinv.length] at hlt
  have hsub := List.getElem?_eq_getElem hlt
  obtain ⟨m, hm, hone⟩ := hworkers i _ _ hw hsub
  have hleft : StepsLeft p p.history[i] 0 (.finished ok longest) := rfl
  obtain ⟨ns', hworkers', hlt'⟩ := hworkers.set hw hsub hm hleft (by rw [hone]; omega)
  exact ⟨ns'.sum + mainLeft p s.main, by omega, ns', hworkers', le_rfl⟩

/-- So does a step of the main one. -/
theorem RunsOut.main {n : Nat} (h : RunsOut p s n) (hworkers : s'.workers = s.workers)
    (hlt : mainLeft p s'.main < mainLeft p s.main) : ∃ n' < n, RunsOut p s' n' := by
  obtain ⟨ns, hleft, hsum⟩ := h
  exact ⟨ns.sum + mainLeft p s'.main, by omega, ns, hworkers ▸ hleft, le_rfl⟩

theorem workers_afterLoop (count : Nat) (ok timedOut : Bool) :
    (p.afterLoop s count ok timedOut).workers = s.workers := by
  unfold afterLoop
  split
  · rfl
  · rfl

theorem mainLeft_afterLoop (count : Nat) (ok timedOut : Bool) :
    mainLeft p (p.afterLoop s count ok timedOut).main ≤ (p.history.length - count) + 1 := by
  unfold afterLoop
  split
  · exact le_rfl
  · exact Nat.zero_le _

theorem workers_received (count : Nat) (ok : Bool) : (p.received s count ok).workers = s.workers := by
  unfold received
  split
  · exact workers_afterLoop _ _ _
  · split
    · exact workers_afterLoop _ _ _
    · rfl

theorem mainLeft_received (count : Nat) (ok : Bool) :
    mainLeft p (p.received s (count + 1) ok).main <
      (p.history.length - count) + (p.history.length + 3) := by
  unfold received
  split
  · have hle := mainLeft_afterLoop (p := p) (s := { s with kill := true }) (count + 1) ok false
    omega
  · split
    · have hle := mainLeft_afterLoop (p := p) (s := s) (count + 1) ok false
      omega
    · simp only [mainLeft]
      omega

theorem RunsOut.step (hequal : p.model.EqualFits) (hinv : Inv p Q s) {n : Nat} (h : RunsOut p s n)
    (hstep : p.step s a = some (s', es)) : ∃ n' < n, RunsOut p s' n' := by
  cases step_takes hstep with
  | turn hw hsub => exact h.turn hequal hinv hw hsub
  | send hw => exact h.send hinv hw
  | receive hres hmain =>
    refine h.main (workers_received _ _) ?_
    rw [hmain]
    exact mainLeft_received _ _
  | drain hres hmain hcount =>
    refine h.main rfl ?_
    rw [hmain]
    simp only [mainLeft]
    omega
  | @timeout count ok hmain htimer =>
    refine h.main (workers_afterLoop _ _ _) (lt_of_le_of_lt (mainLeft_afterLoop _ _ _) ?_)
    rw [hmain]
    simp only [mainLeft]
    omega
  | finish hmain =>
    refine h.main rfl ?_
    rw [hmain]
    simp only [mainLeft]
    omega

theorem exists_runsOut_start
    (hQ : ∀ i subhistory, p.history[i]? = some subhistory → Decides p.model subhistory (Q i)) :
    ∃ n, RunsOut p p.start n := by
  have hleft : ∀ subhistory ∈ p.history,
      ∃ m, StepsLeft p subhistory m (.checking (startChecking p.model subhistory)) := by
    intro subhistory hmem
    obtain ⟨i, hi⟩ := List.mem_iff_getElem?.mp hmem
    obtain ⟨ops, h, -⟩ := hQ i subhistory hi
    exact ⟨_, _, endsIn_of_fits (fits_start h _) (Search.explored_start _) (Nat.lt_succ_self _), rfl⟩
  choose! left hleft using hleft
  refine ⟨_, p.history.map left, ?_, le_rfl⟩
  intro i w subhistory hw hsub
  simp only [start, List.getElem?_map, hsub, Option.map_some, Option.some.injEq] at hw
  subst hw
  exact ⟨left subhistory, by simp [hsub], hleft subhistory (List.mem_of_getElem? hsub)⟩

theorem length_le_of_course (hequal : p.model.EqualFits)
    (hQ : ∀ i subhistory, p.history[i]? = some subhistory → Decides p.model subhistory (Q i)) {n : Nat}
    (hn : RunsOut p p.start n) {rs : List (Taken (Parallel S) ParallelAction Unit)}
    (hcourse : Course p.step always p.start rs s) :
    ∃ n', RunsOut p s n' ∧ rs.length + n' ≤ n := by
  induction hcourse with
  | refl => exact ⟨n, hn, by simp⟩
  | snoc hcourse _ hstep ih =>
    obtain ⟨n₁, hn₁, hle⟩ := ih
    obtain ⟨n₂, hlt, hn₂⟩ := hn₁.step hequal (inv_run hequal hQ hcourse.run) hstep
    refine ⟨n₂, hn₂, ?_⟩
    simp only [List.length_append, List.length_cons, List.length_nil]
    omega

/-! ## Where a run can end -/

/-- When no goroutine can go on, all have sent their verdicts. -/
theorem WorkersFit.length_sent (h : WorkersFit p Q s) {count : Nat} {received : List Bool}
    (hcounted : Counted s count received) (hstuck : ∀ a, p.step s a = none) :
    (s.workers.filterMap Worker.sent).length = p.history.length := by
  rw [← h.length]
  apply List.filterMap_length_eq_length.mpr
  intro w hw
  obtain ⟨i, hi⟩ := List.mem_iff_getElem?.mp hw
  have hlt := (List.getElem?_eq_some_iff.mp hi).1
  rw [h.length] at hlt
  have hsub := List.getElem?_eq_getElem hlt
  cases w with
  | checking c =>
    have hturn := hstuck (.turn i)
    simp [step, hi, hsub] at hturn
  | sending ok longest =>
    have hsend := hstuck (.send i)
    have hroom : s.results.length < p.history.length := by
      have hne : (s.workers.filterMap Worker.sent).length ≠ s.workers.length := by
        intro heq
        have hsome := List.filterMap_length_eq_length.mp heq _ hw
        cases hsome
      have hle := List.length_filterMap_le Worker.sent s.workers
      have hsum := hcounted.2.length_eq
      have hworkers := h.length
      rw [List.length_append] at hsum
      omega
    simp [step, hi, hroom] at hsend
  | finished ok longest => rfl

/-- When nothing can go on, the main one has returned. -/
theorem Inv.returned_of_stuck (h : Inv p Q s) (hstuck : ∀ a, p.step s a = none)
    (hsome : p.history ≠ [] ∨ 0 < p.timeout) : ∃ result info, s.main = .returned result info := by
  have hmain := h.main
  have hreceive := hstuck .receive
  cases hm : s.main with
  | selecting count ok =>
    rw [hm] at hmain
    obtain ⟨-, hcount, -, received, hcounted, -⟩ := hmain
    have hsent := h.length_sent hcounted hstuck
    have hsum := hcounted.2.length_eq
    have hresults : s.results = [] := by
      cases hres : s.results with
      | nil => rfl
      | cons result results => simp [ParallelCheck.step, hres, hm] at hreceive
    have htimeout := hstuck .timeout
    have hpos : p.history.length ≠ 0 := by
      rcases hsome with hne | htimer
      · simpa using hne
      · simp [ParallelCheck.step, hm, htimer] at htimeout
    rw [hresults, List.append_nil, hcounted.1] at hsum
    omega
  | draining count ok timedOut =>
    rw [hm] at hmain
    obtain ⟨-, received, hcounted⟩ := hmain
    have hsent := h.length_sent hcounted hstuck
    have hsum := hcounted.2.length_eq
    have hfinish := hstuck .finish
    have hlt : count < p.history.length := by
      by_contra hge
      simp [ParallelCheck.step, hm, hge] at hfinish
    have hresults : s.results = [] := by
      cases hres : s.results with
      | nil => rfl
      | cons result results => simp [ParallelCheck.step, hres, hm, hlt] at hreceive
    rw [hresults, List.append_nil, hcounted.1] at hsum
    omega
  | returned result info => exact ⟨result, info, rfl⟩
  | panicked =>
    rw [hm] at hmain
    exact hmain.elim

/-- Without partitions and without a timer it waits forever. -/
theorem stuck_of_empty (hhist : p.history = []) (htimer : ¬ 0 < p.timeout) (a : ParallelAction) :
    p.step p.start a = none := by
  cases a with
  | turn i => simp [step, hhist]
  | send i => simp [step, start, hhist]
  | receive => simp [step, start]
  | timeout => simp [step, start, htimer]
  | finish => simp [step, start]

end ParallelCheck

/-! ## Partitions -/

/-- What the checker decides about its entries is whether `parts` are linearizable. -/
structure Judges (p : ParallelCheck I O S) (parts : List (List (Operation I O))) : Prop where
  equalFits : p.model.EqualFits
  length_eq : p.history.length = parts.length
  decides : ∀ (i : Nat) subhistory, p.history[i]? = some subhistory →
    ParallelCheck.Decides p.model subhistory
    (∀ part, parts[i]? = some part → p.model.Linearizable part)

namespace Judges

variable {p : ParallelCheck I O S} {parts : List (List (Operation I O))}

/-- What a right result says about the partitions. -/
theorem of_rightResult (h : Judges p parts) {result : CheckResult}
    (hres : ParallelCheck.RightResult p
      (fun i => ∀ part, parts[i]? = some part → p.model.Linearizable part) result) :
    (result = .ok → ∀ part ∈ parts, p.model.Linearizable part) ∧
    (result = .illegal → ∃ part ∈ parts, ¬ p.model.Linearizable part) ∧
    (result = .unknown → 0 < p.timeout) := by
  refine ⟨?_, ?_, ?_⟩
  · rintro rfl part hpart
    obtain ⟨i, hi⟩ := List.mem_iff_getElem?.mp hpart
    have hlt := (List.getElem?_eq_some_iff.mp hi).1
    exact hres i (h.length_eq ▸ hlt) part hi
  · rintro rfl
    obtain ⟨i, hi, hnot⟩ := hres
    push Not at hnot
    obtain ⟨part, hpart, hnot⟩ := hnot
    exact ⟨part, List.mem_of_getElem? hpart, hnot⟩
  · rintro rfl
    exact hres

theorem right (h : Judges p parts) {tr : List Unit} {s : Parallel S}
    (hrun : Run p.step always p.start tr s) :
    s.main ≠ .panicked ∧ ∀ result info, s.main = .returned result info →
      (result = .ok → ∀ part ∈ parts, p.model.Linearizable part) ∧
      (result = .illegal → ∃ part ∈ parts, ¬ p.model.Linearizable part) ∧
      (result = .unknown → 0 < p.timeout) := by
  have hmain := (ParallelCheck.inv_run h.equalFits h.decides hrun).main
  refine ⟨?_, ?_⟩
  · intro hpanic
    rw [hpanic] at hmain
    exact hmain
  · intro result info hret
    rw [hret] at hmain
    exact h.of_rightResult hmain

theorem bounded (h : Judges p parts) :
    ∃ n, ∀ rs s, Course p.step always p.start rs s → rs.length ≤ n := by
  obtain ⟨n, hn⟩ := ParallelCheck.exists_runsOut_start h.decides
  refine ⟨n, fun rs s hcourse => ?_⟩
  obtain ⟨n', -, hlen⟩ := ParallelCheck.length_le_of_course h.equalFits h.decides hn hcourse
  omega

theorem returns_iff (h : Judges p parts) :
    (∀ tr s, Run p.step always p.start tr s → (∀ a, p.step s a = none) →
      ∃ result info, s.main = .returned result info) ↔ parts ≠ [] ∨ 0 < p.timeout := by
  have hnil : p.history = [] ↔ parts = [] := by
    rw [← List.length_eq_zero_iff, ← List.length_eq_zero_iff, h.length_eq]
  constructor
  · intro hret
    by_contra hnone
    push Not at hnone
    obtain ⟨result, info, hstart⟩ := hret [] _ .refl
      (ParallelCheck.stuck_of_empty (hnil.mpr hnone.1) (by simpa using hnone.2))
    cases hstart
  · intro hsome tr s hrun hstuck
    refine (ParallelCheck.inv_run h.equalFits h.decides hrun).returned_of_stuck hstuck ?_
    exact hsome.imp_left (mt hnil.mp)

end Judges

/-! ## Checking operations -/

/-- `model` is as `fillDefault` leaves it. -/
def checkOperations (sort : List (Entry I O) → List (Entry I O)) (model : Model I O S)
    (history : List (Operation I O)) (verbose : Bool) (timeout : Int) : ParallelCheck I O S where
  model := model
  history := (model.partition history).map (makeEntries sort)
  computeInfo := verbose
  timeout := timeout

section Operations

variable {sort : List (Entry I O) → List (Entry I O)} {model : Model I O S}
variable {history : List (Operation I O)} {verbose : Bool} {timeout : Int}

theorem judges_operations (hsort : ∀ entries, SortsEntries entries (sort entries))
    (hequal : model.EqualFits)
    (hle : ∀ part ∈ model.partition history, ∀ op ∈ part, op.call ≤ op.ret) (verbose : Bool)
    (timeout : Int) :
    Judges (checkOperations sort model history verbose timeout) (model.partition history) := by
  refine ⟨hequal, by simp [checkOperations], fun i subhistory hsub => ?_⟩
  simp only [checkOperations, List.getElem?_map] at hsub
  obtain ⟨part, hpart, rfl⟩ := Option.map_eq_some_iff.mp hsub
  have hs : SortsEntries (operationEntries part) (makeEntries sort part) := hsort _
  have hle' := hle part (List.mem_of_getElem? hpart)
  refine ⟨_, operationPairing hs hle', (exists_explained_iff hs hle').trans ?_⟩
  simp [checkOperations, hpart]

/-- However its goroutines interleave and whenever the timer fires, `checkOperations` does not
panic, finds `Ok` only if all partitions are linearizable and `Illegal` only if one is not, and is
without an answer only with a timeout. -/
theorem checkOperations_right (hsort : ∀ entries, SortsEntries entries (sort entries))
    (hequal : model.EqualFits)
    (hle : ∀ part ∈ model.partition history, ∀ op ∈ part, op.call ≤ op.ret) {tr : List Unit}
    {s : Parallel S}
    (hrun : Run (checkOperations sort model history verbose timeout).step always
      (checkOperations sort model history verbose timeout).start tr s) :
    s.main ≠ .panicked ∧ ∀ result info, s.main = .returned result info →
      (result = .ok → ∀ part ∈ model.partition history, model.Linearizable part) ∧
      (result = .illegal → ∃ part ∈ model.partition history, ¬ model.Linearizable part) ∧
      (result = .unknown → 0 < timeout) :=
  (judges_operations hsort hequal hle verbose timeout).right hrun

/-- The calls of `twoCalls 1 0`. -/
def counterHistory : List (Operation Unit Nat) := [⟨0, (), 0, 1, 2⟩, ⟨1, (), 1, 0, 3⟩]

def counterCheck : ParallelCheck Unit Nat Nat := checkOperations sortEntries counter counterHistory true 0

theorem counterHistory_le :
    ∀ part ∈ counter.partition counterHistory, ∀ op ∈ part, op.call ≤ op.ret := by decide

def counterRun : Parallel Nat × List Unit :=
  reached counterCheck.step always counterCheck.start
    [.turn 0, .turn 0, .turn 0, .turn 0, .send 0, .receive, .finish]

theorem checkOperations_right_counter :
    counterRun.1.main = .returned .ok (some [[[1, 0]]]) ∧ counter.Linearizable counterHistory := by
  have hrun : Run counterCheck.step always counterCheck.start counterRun.2 counterRun.1 :=
    reached_run (by decide +kernel)
  have heval : counterRun.1.main = .returned .ok (some [[[1, 0]]]) := by decide +kernel
  obtain ⟨-, hres⟩ := checkOperations_right sortsEntries_sortEntries (equalFits_shallowEqual rfl)
    counterHistory_le hrun
  exact ⟨heval, (hres _ _ heval).1 rfl counterHistory (by simp [counter, noPartition])⟩

/-- `checkOperations` ends in every interleaving; and where it ends, it has returned, unless there
are no partitions and no timeout. -/
theorem checkOperations_ends (hsort : ∀ entries, SortsEntries entries (sort entries))
    (hequal : model.EqualFits)
    (hle : ∀ part ∈ model.partition history, ∀ op ∈ part, op.call ≤ op.ret) (verbose : Bool)
    (timeout : Int) :
    (∃ n, ∀ rs s, Course (checkOperations sort model history verbose timeout).step always
        (checkOperations sort model history verbose timeout).start rs s → rs.length ≤ n) ∧
    ((∀ tr s, Run (checkOperations sort model history verbose timeout).step always
          (checkOperations sort model history verbose timeout).start tr s →
        (∀ a, (checkOperations sort model history verbose timeout).step s a = none) →
        ∃ result info, s.main = .returned result info) ↔
      model.partition history ≠ [] ∨ 0 < timeout) :=
  ⟨(judges_operations hsort hequal hle verbose timeout).bounded,
    (judges_operations hsort hequal hle verbose timeout).returns_iff⟩

theorem checkOperations_ends_counter :
    (∃ n, ∀ rs s, Course counterCheck.step always counterCheck.start rs s → rs.length ≤ n) ∧
      ∀ tr s, Run counterCheck.step always counterCheck.start tr s →
        (∀ a, counterCheck.step s a = none) → ∃ result info, s.main = .returned result info := by
  obtain ⟨hfinite, hends⟩ := checkOperations_ends sortsEntries_sortEntries
    (equalFits_shallowEqual rfl) counterHistory_le true 0
  exact ⟨hfinite, hends.mpr (.inl (by simp [counter, noPartition]))⟩

end Operations

end RaftImplementation.Porcupine
