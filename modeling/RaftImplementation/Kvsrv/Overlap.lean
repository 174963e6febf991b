import RaftImplementation.Kvsrv.Clerks

/-!
# Overlapping deliveries of one request

`Call` returns false while the handler is still at work when the endpoint is disabled or
the server looks dead, so a clerk may repeat `Put` or `Append` while earlier invocations
with the same id go on. Here any number of invocations of each request are at work at the
same time.

The lookup in `status` and the write are in different sections. Two invocations that both
look before either writes both write; and an invocation that looks after the confirm has
erased the status writes once more.
-/

namespace RaftImplementation.Kvsrv

open Library

def Handler.isReturned : Handler → Bool
  | .returned _ => true
  | _ => false

/-- The operations that `PutAppend` serves. -/
def Op.mutates : Op → Bool
  | .get _ => false
  | .put _ _ => true
  | .append _ _ => true

/-- An invocation of a handler. -/
structure Invocation where
  id : Int
  op : Op
  confirm : Bool
  handler : Handler
  deriving DecidableEq

/-- What the clerk of a request is at: repeating it, or repeating its confirm. -/
inductive RequestPhase where
  | unused
  | trying (op : Op)
  | confirming (op : Op)

structure Overlap where
  server : KVServer
  clerks : Int → RequestPhase
  invocations : List Invocation

inductive OverlapAction where
  | begin (id : Int) (op : Op)
  | send (id : Int)
  /-- The clerk gets the reply of invocation `k`. -/
  | accept (k : Nat)
  | sendConfirm (id : Int)
  /-- The next section of invocation `k`. -/
  | run (k : Nat)

inductive OverlapEvent where
  /-- A section of the request has changed `kvMap`. -/
  | changed (id : Int)
  /-- An invocation that is not a confirm returns. -/
  | returned (id : Int) (value : String)
  /-- A confirm is processed. -/
  | confirmed (id : Int)
  deriving DecidableEq

def OverlapEvent.id : OverlapEvent → Int
  | .changed id => id
  | .returned id _ => id
  | .confirmed id => id

/-- The events of one request, in order. -/
def eventsOf (id : Int) (tr : List OverlapEvent) : List OverlapEvent := tr.filter fun e => e.id = id

namespace Overlap

def start : Overlap := ⟨startKVServer, fun _ => .unused, []⟩

def setClerk (s : Overlap) (id : Int) (phase : RequestPhase) : Overlap :=
  { s with clerks := Function.update s.clerks id phase }

@[simp] theorem clerks_setClerk_self (s : Overlap) (id : Int) (phase : RequestPhase) :
    (s.setClerk id phase).clerks id = phase := Function.update_self ..

theorem clerks_setClerk_ne (s : Overlap) {id id' : Int} (h : id' ≠ id) (phase : RequestPhase) :
    (s.setClerk id phase).clerks id' = s.clerks id' := Function.update_of_ne h ..

def spawn (s : Overlap) (inv : Invocation) : Overlap :=
  { s with invocations := s.invocations ++ [inv] }

def advance (s : Overlap) (k : Nat) (kv : KVServer) (inv : Invocation) : Overlap :=
  { s with server := kv, invocations := s.invocations.set k inv }

/-- The events of a section that takes the server from `kv` to `kv'`. -/
def sectionEvents (inv : Invocation) (kv kv' : KVServer) (handler : Handler) : List OverlapEvent :=
  (if kv'.kvMap = kv.kvMap then [] else [.changed inv.id]) ++
    if inv.confirm then [.confirmed inv.id]
    else match handler with
      | .returned value => [.returned inv.id value]
      | _ => []

def step (s : Overlap) : OverlapAction → Option (Overlap × List OverlapEvent)
  | .begin id op =>
    match s.clerks id with
    | .unused => if op.mutates then some (s.setClerk id (.trying op), []) else none
    | _ => none
  | .send id =>
    match s.clerks id with
    | .trying op => some (s.spawn ⟨id, op, false, .entered⟩, [])
    | _ => none
  | .accept k =>
    match s.invocations[k]? with
    | some ⟨id, _, false, .returned _⟩ =>
      match s.clerks id with
      | .trying op => some (s.setClerk id (.confirming op), [])
      | _ => none
    | _ => none
  | .sendConfirm id =>
    match s.clerks id with
    | .confirming op => some (s.spawn ⟨id, op, true, .entered⟩, [])
    | _ => none
  | .run k =>
    match s.invocations[k]? with
    | some inv =>
      (s.server.run (inv.op.request inv.id inv.confirm) inv.handler).map fun (kv, handler) =>
        (s.advance k kv { inv with handler := handler }, sectionEvents inv s.server kv handler)
    | none => none

/-- Invocation number `k`. -/
def Has (s : Overlap) (k : Nat) (inv : Invocation) : Prop := s.invocations[k]? = some inv

/-- What each action does, and what it needs of the clerk or the invocation. -/
inductive Takes (s : Overlap) : OverlapAction → Overlap × List OverlapEvent → Prop
  | begin {id : Int} {op : Op} (hclerk : s.clerks id = .unused) (hm : op.mutates = true) :
      Takes s (.begin id op) (s.setClerk id (.trying op), [])
  | send {id : Int} {op : Op} (hclerk : s.clerks id = .trying op) :
      Takes s (.send id) (s.spawn ⟨id, op, false, .entered⟩, [])
  | accept {k : Nat} {id : Int} {op op' : Op} {value : String}
      (hk : s.Has k ⟨id, op', false, .returned value⟩) (hclerk : s.clerks id = .trying op) :
      Takes s (.accept k) (s.setClerk id (.confirming op), [])
  | sendConfirm {id : Int} {op : Op} (hclerk : s.clerks id = .confirming op) :
      Takes s (.sendConfirm id) (s.spawn ⟨id, op, true, .entered⟩, [])
  | run {k : Nat} {inv : Invocation} {r : KVServer × Handler} (hk : s.Has k inv)
      (hr : s.server.Ran (inv.op.request inv.id inv.confirm) inv.handler r) :
      Takes s (.run k)
        (s.advance k r.1 { inv with handler := r.2 }, sectionEvents inv s.server r.1 r.2)

theorem step_takes {s : Overlap} {a : OverlapAction} {r : Overlap × List OverlapEvent}
    (hstep : s.step a = some r) : s.Takes a r := by
  cases a with
  | begin id op =>
    simp only [step] at hstep
    split at hstep
    · rename_i hclerk
      split at hstep
      · rename_i hm
        cases hstep
        exact .begin hclerk hm
      · cases hstep
    · cases hstep
  | send id =>
    simp only [step] at hstep
    split at hstep
    · rename_i hclerk
      cases hstep
      exact .send hclerk
    · cases hstep
  | accept k =>
    simp only [step] at hstep
    split at hstep
    · rename_i hk
      split at hstep
      · rename_i hclerk
        cases hstep
        exact .accept hk hclerk
      · cases hstep
    · cases hstep
  | sendConfirm id =>
    simp only [step] at hstep
    split at hstep
    · rename_i hclerk
      cases hstep
      exact .sendConfirm hclerk
    · cases hstep
  | run k =>
    simp only [step] at hstep
    split at hstep
    · rename_i hk
      obtain ⟨r, hr, heq⟩ := Option.map_eq_some_iff.mp hstep
      cases heq
      exact .run hk (KVServer.run_ran hr)
    · cases hstep

/-- No other invocation of the request has looked and not yet written. -/
def NoneMissed (s : Overlap) (id : Int) : Prop :=
  ∀ inv ∈ s.invocations, inv.id = id → inv.handler ≠ .missed

/-- All invocations of the request that are not confirms have returned. -/
def AllReturned (s : Overlap) (id : Int) : Prop :=
  ∀ inv ∈ s.invocations, inv.id = id → inv.confirm = false → inv.handler.isReturned = true

/-- The first section of an invocation: a confirm is processed when all invocations have
returned, and a request that finds no status when none is about to write. -/
def EntryFits (s : Overlap) (inv : Invocation) : Prop :=
  if inv.confirm then s.AllReturned inv.id
  else s.server.status.lookup inv.id = none → s.NoneMissed inv.id

def SectionFits (s : Overlap) : Option Invocation → Prop
  | some inv => inv.handler = .entered → s.EntryFits inv
  | none => True

def OverlapFits (s : Overlap) : OverlapAction → Prop
  | .run k => s.SectionFits s.invocations[k]?
  | _ => True

end Overlap

/-! ## How far a request has come -/

theorem Overlap.has_spawn {s : Overlap} {new inv : Invocation} {k : Nat}
    (h : (s.spawn new).Has k inv) : s.Has k inv ∨ inv = new := by
  cases getElem?_append_one h with
  | inl hold => exact Or.inl hold
  | inr hnew => exact Or.inr hnew.2

theorem Overlap.has_advance {s : Overlap} {kv : KVServer} {new inv : Invocation} {k j : Nat}
    (h : (s.advance k kv new).Has j inv) : j = k ∧ inv = new ∨ j ≠ k ∧ s.Has j inv := by
  rw [Overlap.Has, Overlap.advance, List.getElem?_set] at h
  by_cases hj : k = j
  · left
    rw [if_pos hj] at h
    split at h
    · exact ⟨hj.symm, (Option.some.inj h).symm⟩
    · cases h
  · right
    rw [if_neg hj] at h
    exact ⟨Ne.symm hj, h⟩

/-- A property of all invocations of a request, after one of them has moved. -/
theorem Overlap.forall_advance {s : Overlap} {kv : KVServer} {new : Invocation} {k : Nat}
    {φ : Invocation → Prop} (hnew : φ new)
    (hold : ∀ j inv, j ≠ k → s.Has j inv → inv.id = new.id → φ inv) :
    ∀ j inv, (s.advance k kv new).Has j inv → inv.id = new.id → φ inv := by
  intro j inv hj hid
  cases Overlap.has_advance hj with
  | inl hmoved =>
    rw [hmoved.2]
    exact hnew
  | inr hother => exact hold j inv hother.1 hother.2 hid

theorem Overlap.forall_spawn {s : Overlap} {new : Invocation} {φ : Invocation → Prop}
    (hnew : φ new) (hold : ∀ j inv, s.Has j inv → inv.id = new.id → φ inv) :
    ∀ j inv, (s.spawn new).Has j inv → inv.id = new.id → φ inv := by
  intro j inv hj hid
  cases Overlap.has_spawn hj with
  | inl hother => exact hold j inv hother hid
  | inr hadded =>
    rw [hadded]
    exact hnew

/-- The events of a request before its confirm: `v` is returned each time. -/
structure Uniform (id : Int) (v : String) (log : List OverlapEvent) : Prop where
  events : ∀ e ∈ log, e = .changed id ∨ e = .returned id v
  once : log.count (.changed id) ≤ 1

/-- A request that nobody has answered, one whose answer is in `status`, and one whose
confirm has been processed. `log` holds its events. -/
inductive Progress (s : Overlap) (id : Int) (log : List OverlapEvent) : Prop
  | fresh (hs : s.server.status.lookup id = none) (hlog : log = [])
      (hclerk : ∀ op, s.clerks id ≠ .confirming op)
      (hinv : ∀ k inv, s.Has k inv → inv.id = id →
        inv.confirm = false ∧ (inv.handler = .entered ∨ inv.handler = .missed))
      (hone : ∀ k k' inv inv', s.Has k inv → s.Has k' inv' →
        inv.id = id → inv'.id = id → inv.handler = .missed → inv'.handler = .missed → k = k')
  | recorded (v : String) (hs : s.server.status.lookup id = some v) (hlog : Uniform id v log)
      (hinv : ∀ k inv, s.Has k inv → inv.id = id →
        inv.handler = .entered ∨ inv.handler.isReturned = true)
  | settled (v : String) (before after : List OverlapEvent)
      (hlog : log = before ++ .confirmed id :: after) (hbefore : Uniform id v before)
      (hafter : ∀ e ∈ after, e = .confirmed id) (hclerk : ∃ op, s.clerks id = .confirming op)
      (hinv : ∀ k inv, s.Has k inv → inv.id = id →
        inv.handler.isReturned = true ∨ inv.confirm = true ∧ inv.handler = .entered)

/-- Requests other than the one that moves. -/
theorem Progress.frame {s s' : Overlap} {id : Int} {log : List OverlapEvent}
    (h : Progress s id log) (hs : s'.server.status.lookup id = s.server.status.lookup id)
    (hclerk : s'.clerks id = s.clerks id)
    (hinv : ∀ k inv, s'.Has k inv → inv.id = id →
      s.Has k inv) :
    Progress s' id log := by
  cases h with
  | fresh hnone hlog hc hi hone =>
    refine .fresh (hs.trans hnone) hlog (hclerk ▸ hc) ?_ ?_
    · intro k inv hk hid
      exact hi k inv (hinv k inv hk hid) hid
    · intro k k' inv inv' hk hk' hid hid'
      exact hone k k' inv inv' (hinv k inv hk hid) (hinv k' inv' hk' hid') hid hid'
  | recorded v hsome hlog hi =>
    refine .recorded v (hs.trans hsome) hlog ?_
    intro k inv hk hid
    exact hi k inv (hinv k inv hk hid) hid
  | settled v before after hlog hbefore hafter hc hi =>
    refine .settled v before after hlog hbefore hafter (hclerk ▸ hc) ?_
    intro k inv hk hid
    exact hi k inv (hinv k inv hk hid) hid

theorem Uniform.nil (id : Int) (v : String) : Uniform id v [] := ⟨by simp, by simp⟩

/-- One more return of the same value. -/
theorem Uniform.returned {id : Int} {v : String} {log : List OverlapEvent}
    (h : Uniform id v log) : Uniform id v (log ++ [.returned id v]) := by
  constructor
  · intro e he
    cases List.mem_append.mp he with
    | inl hold => exact h.events e hold
    | inr hnew => exact Or.inr (List.mem_singleton.mp hnew)
  · simpa using h.once

/-- What all requests have in common. -/
structure Coherent (s : Overlap) : Prop where
  clerks : ∀ id op, s.clerks id = .trying op ∨ s.clerks id = .confirming op → op.mutates = true
  mutates : ∀ k inv, s.Has k inv → inv.op.mutates = true
  confirms : ∀ k inv, s.Has k inv → inv.confirm = true →
    ∃ op, s.clerks inv.id = .confirming op

/-- The invariant of a run. -/
structure Ordered (s : Overlap) (tr : List OverlapEvent) : Prop where
  coherent : Coherent s
  progress : ∀ id, Progress s id (eventsOf id tr)

theorem ordered_start : Ordered .start [] := by
  refine ⟨⟨?_, ?_, ?_⟩, ?_⟩
  · intro id op h
    cases h with
    | inl h => cases h
    | inr h => cases h
  · intro k inv h
    cases h
  · intro k inv h
    cases h
  · intro id
    refine .fresh rfl rfl ?_ ?_ ?_
    · intro op h
      cases h
    · intro k inv h
      cases h
    · intro k k' inv inv' h
      cases h

/-! ## The steps -/

section Steps

variable {s : Overlap} {id : Int} {log : List OverlapEvent} {inv : Invocation} {k : Nat}

/-- A new invocation: of the request as long as the clerk tries, then of its confirm. -/
theorem Progress.spawn (h : Progress s inv.id log) (hentered : inv.handler = .entered)
    (hphase : inv.confirm = true ↔ ∃ op, s.clerks inv.id = .confirming op) :
    Progress (s.spawn inv) inv.id log := by
  cases h with
  | fresh hs hlog hclerk hinv hone =>
    have hconfirm : inv.confirm = false := by
      cases hc : inv.confirm with
      | false => rfl
      | true =>
        obtain ⟨op, hop⟩ := hphase.mp hc
        exact absurd hop (hclerk op)
    refine .fresh hs hlog hclerk (Overlap.forall_spawn ⟨hconfirm, Or.inl hentered⟩ hinv) ?_
    · intro j j' x x' hj hj' hid hid' hx hx'
      cases Overlap.has_spawn hj with
      | inr hnew => simp [hnew, hentered] at hx
      | inl hold =>
        cases Overlap.has_spawn hj' with
        | inr hnew => simp [hnew, hentered] at hx'
        | inl hold' => exact hone j j' x x' hold hold' hid hid' hx hx'
  | recorded v hs hlog hinv =>
    exact .recorded v hs hlog (Overlap.forall_spawn (Or.inl hentered) hinv)
  | settled v before after hlog hbefore hafter hclerk hinv =>
    exact .settled v before after hlog hbefore hafter hclerk
      (Overlap.forall_spawn (Or.inr ⟨hphase.mpr hclerk, hentered⟩) hinv)

/-- The clerk begins, or goes over to its confirm after some invocation has returned. -/
theorem Progress.setClerk (h : Progress s id log) {phase : RequestPhase}
    (htrying : ∀ op, s.clerks id ≠ .confirming op)
    (hphase : (∀ op, phase ≠ .confirming op) ∨
      ∃ k inv, s.Has k inv ∧ inv.id = id ∧ inv.handler.isReturned = true) :
    Progress (s.setClerk id phase) id log := by
  cases h with
  | fresh hs hlog hclerk hinv hone =>
    refine .fresh hs hlog ?_ hinv hone
    intro op
    rw [Overlap.clerks_setClerk_self]
    cases hphase with
    | inl hnot => exact hnot op
    | inr hreturned =>
      obtain ⟨k, inv, hk, hid, hret⟩ := hreturned
      cases (hinv k inv hk hid).2 with
      | inl hentered => simp [hentered, Handler.isReturned] at hret
      | inr hmissed => simp [hmissed, Handler.isReturned] at hret
  | recorded v hs hlog hinv => exact .recorded v hs hlog hinv
  | settled v before after hlog hbefore hafter hclerk hinv =>
    obtain ⟨op, hop⟩ := hclerk
    exact absurd hop (htrying op)

/-- The outcomes of a section of `Put` or `Append`. -/
inductive Mutated (kv : KVServer) (inv : Invocation) : KVServer × Handler → Prop
  | confirmed (hc : inv.confirm = true) (hh : inv.handler = .entered) :
      Mutated kv inv (kv.confirmed inv.id)
  | hit {val : String} (hc : inv.confirm = false) (hh : inv.handler = .entered)
      (hs : kv.status.lookup inv.id = some val) : Mutated kv inv (kv, .returned val)
  | miss (hc : inv.confirm = false) (hh : inv.handler = .entered)
      (hs : kv.status.lookup inv.id = none) : Mutated kv inv (kv, .missed)
  | wrote {kv' : KVServer} {val : String} (hh : inv.handler = .missed)
      (hs : kv'.status.lookup inv.id = some val) : Mutated kv inv (kv', .returned val)

theorem mutated_of_ran {kv : KVServer} {r : KVServer × Handler} (hm : inv.op.mutates = true)
    (hr : kv.Ran (inv.op.request inv.id inv.confirm) inv.handler r) : Mutated kv inv r := by
  obtain ⟨id, op, confirm, handler⟩ := inv
  cases hr with
  | confirmed hc =>
    rw [Op.request_confirm] at hc
    rw [Op.request_id]
    exact .confirmed hc rfl
  | hit hc hs =>
    rw [Op.request_confirm] at hc
    rw [Op.request_id] at hs
    exact .hit hc rfl hs
  | readMiss hreq =>
    obtain ⟨key, rfl, -⟩ := Op.request_eq_get hreq
    cases hm
  | writeMiss hreq hc hs =>
    rw [Op.request_confirm] at hc
    rw [Op.request_id] at hs
    exact .miss hc rfl hs
  | recorded hreq =>
    obtain ⟨key, rfl, -⟩ := Op.request_eq_get hreq
    cases hm
  | put hreq =>
    obtain ⟨key, value, rfl, rfl⟩ := Op.request_eq_put hreq
    exact .wrote rfl (Finmap.lookup_insert _)
  | append hreq =>
    obtain ⟨key, value, rfl, rfl⟩ := Op.request_eq_append hreq
    exact .wrote rfl (Finmap.lookup_insert _)

/-- The events of a section that leaves the map alone and returns. -/
theorem sectionEvents_returned (hc : inv.confirm = false) (kv : KVServer) (val : String) :
    Overlap.sectionEvents inv kv kv (.returned val) = [.returned inv.id val] := by
  simp [Overlap.sectionEvents, hc]

theorem sectionEvents_missed (hc : inv.confirm = false) (kv : KVServer) :
    Overlap.sectionEvents inv kv kv .missed = [] := by
  simp [Overlap.sectionEvents, hc]

theorem sectionEvents_confirmed (hc : inv.confirm = true) (kv : KVServer) :
    Overlap.sectionEvents inv kv (kv.confirmed inv.id).1 (kv.confirmed inv.id).2 =
      [.confirmed inv.id] := by
  simp [Overlap.sectionEvents, hc, KVServer.confirmed]

/-- A write changes the map at most once. -/
theorem uniform_sectionEvents (hc : inv.confirm = false) (kv kv' : KVServer) (val : String) :
    Uniform inv.id val (Overlap.sectionEvents inv kv kv' (.returned val)) := by
  rw [Overlap.sectionEvents, hc]
  split
  · exact (Uniform.nil inv.id val).returned
  · have hchanged : Uniform inv.id val [.changed inv.id] := ⟨by simp, by simp⟩
    exact hchanged.returned

/-- An invocation that finds no status. No other one has looked, so at most one looks at
a time. -/
theorem Progress.miss (h : Progress s inv.id log) (hk : s.Has k inv)
    (hc : inv.confirm = false) (hh : inv.handler = .entered)
    (hs : s.server.status.lookup inv.id = none) (hnomiss : s.NoneMissed inv.id) :
    Progress (s.advance k s.server { inv with handler := .missed }) inv.id log := by
  cases h with
  | fresh _ hlog hclerk hinv _ =>
    refine .fresh hs hlog hclerk ?_ ?_
    · exact Overlap.forall_advance ⟨hc, Or.inr rfl⟩ fun j x _ => hinv j x
    · intro j j' x x' hj hj' hid hid' hx hx'
      cases Overlap.has_advance hj with
      | inr hold => exact absurd hx (hnomiss x (List.mem_of_getElem? hold.2) hid)
      | inl hnew =>
        cases Overlap.has_advance hj' with
        | inr hold' => exact absurd hx' (hnomiss x' (List.mem_of_getElem? hold'.2) hid')
        | inl hnew' => rw [hnew.1, hnew'.1]
  | recorded v hsome => simp [hs] at hsome
  | settled v before after hlog hbefore hafter hclerk hinv =>
    have hdone := hinv k inv hk rfl
    simp [hc, hh, Handler.isReturned] at hdone

/-- An invocation that has looked writes and returns. -/
theorem Progress.write {kv : KVServer} {val : String} (h : Progress s inv.id log)
    (hk : s.Has k inv) (hh : inv.handler = .missed) (hs : kv.status.lookup inv.id = some val) :
    Progress (s.advance k kv { inv with handler := .returned val }) inv.id
      (log ++ Overlap.sectionEvents inv s.server kv (.returned val)) := by
  cases h with
  | fresh hnone hlog hclerk hinv hone =>
    subst hlog
    rw [List.nil_append]
    refine .recorded val hs (uniform_sectionEvents (hinv k inv hk rfl).1 _ _ _) ?_
    refine Overlap.forall_advance (Or.inr rfl) ?_
    intro j x hjk hj hid
    cases (hinv j x hj hid).2 with
    | inl hentered => exact Or.inl hentered
    | inr hmissed => exact absurd (hone j k x inv hj hk hid rfl hmissed hh) hjk
  | recorded v hsome hlog hinv =>
    have hdone := hinv k inv hk rfl
    simp [hh, Handler.isReturned] at hdone
  | settled v before after hlog hbefore hafter hclerk hinv =>
    have hdone := hinv k inv hk rfl
    simp [hh, Handler.isReturned] at hdone

/-- An invocation that finds the answer of an earlier one. -/
theorem Progress.hit {val : String} (h : Progress s inv.id log) (hk : s.Has k inv)
    (hc : inv.confirm = false) (hh : inv.handler = .entered)
    (hs : s.server.status.lookup inv.id = some val) :
    Progress (s.advance k s.server { inv with handler := .returned val }) inv.id
      (log ++ [.returned inv.id val]) := by
  cases h with
  | fresh hnone => simp [hs] at hnone
  | recorded v hsome hlog hinv =>
    rw [hs, Option.some.injEq] at hsome
    subst hsome
    exact .recorded val hs hlog.returned
      (Overlap.forall_advance (Or.inr rfl) fun j x _ => hinv j x)
  | settled v before after hlog hbefore hafter hclerk hinv =>
    have hdone := hinv k inv hk rfl
    simp [hc, hh, Handler.isReturned] at hdone

/-- A confirm, the first one or a repeated one. -/
theorem Progress.confirm (h : Progress s inv.id log) (hk : s.Has k inv)
    (hc : inv.confirm = true) (hclerk : ∃ op, s.clerks inv.id = .confirming op)
    (hall : s.AllReturned inv.id) :
    Progress (s.advance k (s.server.confirmed inv.id).1
      { inv with handler := (s.server.confirmed inv.id).2 }) inv.id
      (log ++ [.confirmed inv.id]) := by
  cases h with
  | fresh _ _ _ hinv _ =>
    have hunconfirmed := (hinv k inv hk rfl).1
    simp [hc] at hunconfirmed
  | recorded v _ hlog hinv =>
    refine .settled v log [] rfl hlog (by simp) hclerk ?_
    refine Overlap.forall_advance (Or.inl rfl) ?_
    intro j x _ hj hid
    cases hxc : x.confirm with
    | false => exact Or.inl (hall x (List.mem_of_getElem? hj) hid hxc)
    | true =>
      cases hinv j x hj hid with
      | inl hentered => exact Or.inr ⟨rfl, hentered⟩
      | inr hreturned => exact Or.inl hreturned
  | settled v before after hlog hbefore hafter _ hinv =>
    refine .settled v before (after ++ [.confirmed inv.id]) (by simp [hlog]) hbefore ?_ hclerk ?_
    · intro e he
      cases List.mem_append.mp he with
      | inl hold => exact hafter e hold
      | inr hnew => exact List.mem_singleton.mp hnew
    · exact Overlap.forall_advance (Or.inl rfl) fun j x _ => hinv j x

/-- A section of one of the invocations of the request. -/
theorem Progress.run {r : KVServer × Handler} (h : Progress s inv.id log) (hk : s.Has k inv)
    (hconfirming : inv.confirm = true → ∃ op, s.clerks inv.id = .confirming op)
    (hfits : s.SectionFits (some inv)) (hr : Mutated s.server inv r) :
    Progress (s.advance k r.1 { inv with handler := r.2 }) inv.id
      (log ++ Overlap.sectionEvents inv s.server r.1 r.2) := by
  cases hr with
  | confirmed hc hh =>
    have hall : s.AllReturned inv.id := by
      have hentry := hfits hh
      rwa [Overlap.EntryFits, if_pos hc] at hentry
    rw [sectionEvents_confirmed hc]
    exact h.confirm hk hc (hconfirming hc) hall
  | hit hc hh hs =>
    rw [sectionEvents_returned hc]
    exact h.hit hk hc hh hs
  | miss hc hh hs =>
    have hnomiss : s.NoneMissed inv.id := by
      have hentry := hfits hh
      rw [Overlap.EntryFits, if_neg (by simp [hc])] at hentry
      exact hentry hs
    rw [sectionEvents_missed hc, List.append_nil]
    exact h.miss hk hc hh hs hnomiss
  | wrote hh hs => exact h.write hk hh hs

variable {tr : List OverlapEvent}

theorem eventsOf_append (id : Int) (tr es : List OverlapEvent) :
    eventsOf id (tr ++ es) = eventsOf id tr ++ eventsOf id es := List.filter_append ..

/-- All events of a section are events of its request. -/
theorem id_of_mem_sectionEvents {kv kv' : KVServer} {handler : Handler} {e : OverlapEvent}
    (he : e ∈ Overlap.sectionEvents inv kv kv' handler) : e.id = inv.id := by
  unfold Overlap.sectionEvents at he
  cases List.mem_append.mp he with
  | inl hchanged =>
    split at hchanged
    · cases hchanged
    · rw [List.mem_singleton.mp hchanged]
      rfl
  | inr hrest =>
    split at hrest
    · rw [List.mem_singleton.mp hrest]
      rfl
    · cases handler with
      | returned value =>
        rw [List.mem_singleton.mp hrest]
        rfl
      | entered => cases hrest
      | read val => cases hrest
      | missed => cases hrest

namespace Ordered

theorem setClerk (h : Ordered s tr) {phase : RequestPhase}
    (htrying : ∀ op, s.clerks id ≠ .confirming op)
    (hmutates : ∀ op, phase = .trying op ∨ phase = .confirming op → op.mutates = true)
    (hphase : (∀ op, phase ≠ .confirming op) ∨
      ∃ k inv, s.Has k inv ∧ inv.id = id ∧ inv.handler.isReturned = true) :
    Ordered (s.setClerk id phase) tr := by
  refine ⟨⟨?_, h.coherent.mutates, ?_⟩, ?_⟩
  · intro id' op hop
    by_cases hid : id' = id
    · subst hid
      rw [Overlap.clerks_setClerk_self] at hop
      exact hmutates op hop
    · rw [Overlap.clerks_setClerk_ne s hid] at hop
      exact h.coherent.clerks id' op hop
  · intro k inv hk hconfirm
    obtain ⟨op, hop⟩ := h.coherent.confirms k inv hk hconfirm
    have hid : inv.id ≠ id := by
      intro hid
      exact htrying op (hid ▸ hop)
    exact ⟨op, (Overlap.clerks_setClerk_ne s hid phase).trans hop⟩
  · intro id'
    by_cases hid : id' = id
    · subst hid
      exact (h.progress id').setClerk htrying hphase
    · exact (h.progress id').frame rfl (Overlap.clerks_setClerk_ne s hid phase) fun _ _ hk _ => hk

theorem spawn (h : Ordered s tr) (hentered : inv.handler = .entered)
    (hmutates : inv.op.mutates = true)
    (hphase : inv.confirm = true ↔ ∃ op, s.clerks inv.id = .confirming op) :
    Ordered (s.spawn inv) tr := by
  refine ⟨⟨h.coherent.clerks, ?_, ?_⟩, ?_⟩
  · intro k x hk
    cases Overlap.has_spawn hk with
    | inl hold => exact h.coherent.mutates k x hold
    | inr hnew => rw [hnew, hmutates]
  · intro k x hk hconfirm
    cases Overlap.has_spawn hk with
    | inl hold => exact h.coherent.confirms k x hold hconfirm
    | inr hnew =>
      subst hnew
      exact hphase.mp hconfirm
  · intro id'
    by_cases hid : id' = inv.id
    · subst hid
      exact (h.progress inv.id).spawn hentered hphase
    · refine (h.progress id').frame rfl rfl ?_
      intro k x hk hx
      cases Overlap.has_spawn hk with
      | inl hold => exact hold
      | inr hnew => exact absurd (hnew ▸ hx).symm hid

theorem run {r : KVServer × Handler} (h : Ordered s tr) (hk : s.Has k inv)
    (hfits : s.SectionFits (some inv))
    (hr : s.server.Ran (inv.op.request inv.id inv.confirm) inv.handler r) :
    Ordered (s.advance k r.1 { inv with handler := r.2 })
      (tr ++ Overlap.sectionEvents inv s.server r.1 r.2) := by
  have hmutates := h.coherent.mutates k inv hk
  refine ⟨⟨h.coherent.clerks, ?_, ?_⟩, ?_⟩
  · intro j x hj
    cases Overlap.has_advance hj with
    | inl hnew => rw [hnew.2, hmutates]
    | inr hold => exact h.coherent.mutates j x hold.2
  · intro j x hj hconfirm
    cases Overlap.has_advance hj with
    | inl hnew =>
      rw [hnew.2] at hconfirm ⊢
      exact h.coherent.confirms k inv hk hconfirm
    | inr hold => exact h.coherent.confirms j x hold.2 hconfirm
  · intro id'
    rw [eventsOf_append]
    by_cases hid : id' = inv.id
    · subst hid
      have hown : eventsOf inv.id (Overlap.sectionEvents inv s.server r.1 r.2) =
          Overlap.sectionEvents inv s.server r.1 r.2 := by
        rw [eventsOf, List.filter_eq_self]
        intro e he
        exact decide_eq_true (id_of_mem_sectionEvents he)
      rw [hown]
      exact (h.progress inv.id).run hk (h.coherent.confirms k inv hk) hfits
        (mutated_of_ran hmutates hr)
    · have hnone : eventsOf id' (Overlap.sectionEvents inv s.server r.1 r.2) = [] := by
        rw [eventsOf, List.filter_eq_nil_iff]
        intro e he
        rw [id_of_mem_sectionEvents he]
        simpa using Ne.symm hid
      rw [hnone, List.append_nil]
      have hstatus : r.1.status.lookup id' = s.server.status.lookup id' := by
        apply hr.status_eq
        rw [Op.request_id]
        exact hid
      refine (h.progress id').frame hstatus rfl ?_
      intro j x hj hx
      cases Overlap.has_advance hj with
      | inl hnew => exact absurd (hnew.2 ▸ hx).symm hid
      | inr hold => exact hold.2

theorem step (h : Ordered s tr) {a : OverlapAction} (hok : s.OverlapFits a)
    {r : Overlap × List OverlapEvent} (hstep : s.Takes a r) : Ordered r.1 (tr ++ r.2) := by
  cases hstep with
  | begin hclerk hm =>
    rw [List.append_nil]
    apply h.setClerk
    · simp [hclerk]
    · intro op hop
      cases hop with
      | inl htrying =>
        cases htrying
        exact hm
      | inr hconfirming => cases hconfirming
    · simp
  | send hclerk =>
    rw [List.append_nil]
    exact h.spawn rfl (h.coherent.clerks _ _ (Or.inl hclerk)) (by simp [hclerk])
  | accept hk hclerk =>
    rw [List.append_nil]
    apply h.setClerk
    · simp [hclerk]
    · intro op hop
      cases hop with
      | inl htrying => cases htrying
      | inr hconfirming =>
        cases hconfirming
        exact h.coherent.clerks _ _ (Or.inl hclerk)
    · exact Or.inr ⟨_, _, hk, rfl, rfl⟩
  | sendConfirm hclerk =>
    rw [List.append_nil]
    exact h.spawn rfl (h.coherent.clerks _ _ (Or.inr hclerk)) (by simp [hclerk])
  | run hk hr =>
    rw [Overlap.OverlapFits, hk] at hok
    exact h.run hk hok hr

theorem run_ordered (h : Run Overlap.step Overlap.OverlapFits .start tr s) : Ordered s tr := by
  induction h with
  | refl => exact ordered_start
  | snoc _ hok hstep ih => exact ih.step hok (Overlap.step_takes hstep)

end Ordered

theorem mem_of_mem_takeWhile {α : Type} {p : α → Bool} {x y : α} {l m : List α}
    (hx : p x = false) (hy : y ∈ (l ++ x :: m).takeWhile p) : y ∈ l := by
  rw [List.takeWhile_append] at hy
  split at hy
  · simpa [hx] using hy
  · exact (List.takeWhile_sublist p).subset hy

/-- What the progress of a request says about its events. -/
theorem Progress.events (h : Progress s id log) :
    log.count (.changed id) ≤ 1 ∧
      ∃ v, ∀ w, .returned id w ∈ log.takeWhile (· ≠ .confirmed id) → w = v := by
  cases h with
  | fresh _ hlog =>
    subst hlog
    exact ⟨by simp, "", by simp⟩
  | recorded v _ hlog _ =>
    refine ⟨hlog.once, v, ?_⟩
    intro w hw
    cases hlog.events _ ((List.takeWhile_sublist _).subset hw) with
    | inl hchanged => cases hchanged
    | inr hreturned => exact (OverlapEvent.returned.inj hreturned).2
  | settled v before after hlog hbefore hafter _ _ =>
    subst hlog
    constructor
    · have hnone : after.count (.changed id) = 0 := by
        rw [List.count_eq_zero]
        intro hmem
        cases hafter _ hmem
      simp [List.count_append, hnone, hbefore.once]
    · refine ⟨v, ?_⟩
      intro w hw
      have hmem : OverlapEvent.returned id w ∈ before := mem_of_mem_takeWhile (by simp) hw
      cases hbefore.events _ hmem with
      | inl hchanged => cases hchanged
      | inr hreturned => exact (OverlapEvent.returned.inj hreturned).2

/-- In every run in which an invocation finds no status only while no other one of the
request is about to write, and a confirm is processed only when all invocations of the
request have returned: each request changes the map at most once, and its invocations
return the same value up to the confirm. -/
theorem mutates_at_most_once (h : Run Overlap.step Overlap.OverlapFits .start tr s) (id : Int) :
    (eventsOf id tr).count (.changed id) ≤ 1 ∧
      ∀ v w, .returned id v ∈ (eventsOf id tr).takeWhile (· ≠ .confirmed id) →
        .returned id w ∈ (eventsOf id tr).takeWhile (· ≠ .confirmed id) → v = w := by
  obtain ⟨hcount, u, hu⟩ := ((Ordered.run_ordered h).progress id).events
  refine ⟨hcount, ?_⟩
  intro v w hv hw
  rw [hu v hv, hu w hw]

end Steps

namespace Overlap

instance (s : Overlap) (id : Int) : Decidable (s.NoneMissed id) :=
  inferInstanceAs (Decidable (∀ inv ∈ s.invocations, inv.id = id → inv.handler ≠ .missed))

instance (s : Overlap) (id : Int) : Decidable (s.AllReturned id) :=
  inferInstanceAs (Decidable (∀ inv ∈ s.invocations, inv.id = id → inv.confirm = false →
    inv.handler.isReturned = true))

instance (s : Overlap) (inv : Invocation) : Decidable (s.EntryFits inv) :=
  inferInstanceAs (Decidable (if inv.confirm = true then s.AllReturned inv.id
    else s.server.status.lookup inv.id = none → s.NoneMissed inv.id))

instance (s : Overlap) : ∀ inv, Decidable (s.SectionFits inv)
  | some inv => inferInstanceAs (Decidable (inv.handler = .entered → s.EntryFits inv))
  | none => isTrue trivial

instance (s : Overlap) : ∀ a, Decidable (s.OverlapFits a)
  | .run _ => inferInstanceAs (Decidable (s.SectionFits _))
  | .begin _ _ | .send _ | .accept _ | .sendConfirm _ => isTrue trivial

end Overlap

/-- The second invocation looks after the first has written, and the confirm comes last. -/
def repeatedInTurn : Overlap × List OverlapEvent :=
  reached Overlap.step Overlap.OverlapFits .start
    [.begin 1 (.append "x" "a"), .send 1, .run 0, .send 1, .run 0, .run 1, .accept 0,
      .sendConfirm 1, .run 2]

theorem mutates_at_most_once_of_two :
    repeatedInTurn.2 = [.changed 1, .returned 1 "", .returned 1 "", .confirmed 1] ∧
      (eventsOf 1 repeatedInTurn.2).count (.changed 1) ≤ 1 := by
  have hrun : Run Overlap.step Overlap.OverlapFits .start repeatedInTurn.2 repeatedInTurn.1 :=
    reached_run (by decide +kernel)
  exact ⟨by decide +kernel, (mutates_at_most_once hrun 1).1⟩

/-- Two invocations of one `Append` look before either writes. -/
def repeatedAtOnce : Overlap × List OverlapEvent :=
  reached Overlap.step always .start
    [.begin 1 (.append "x" "a"), .send 1, .send 1, .run 0, .run 1, .run 0, .run 1]

/-- An invocation of `Append` looks after the confirm. -/
def repeatedLate : Overlap × List OverlapEvent :=
  reached Overlap.step always .start
    [.begin 1 (.append "x" "a"), .send 1, .send 1, .run 0, .run 0, .accept 0, .sendConfirm 1,
      .run 2, .run 1, .run 1]

theorem append_mutates_twice :
    Run Overlap.step always .start repeatedAtOnce.2 repeatedAtOnce.1 ∧
      repeatedAtOnce.2 = [.changed 1, .returned 1 "", .changed 1, .returned 1 "a"] ∧
      repeatedAtOnce.1.server.kvMap.lookup "x" = some "aa" ∧
      Run Overlap.step always .start repeatedLate.2 repeatedLate.1 ∧
      repeatedLate.2 =
        [.changed 1, .returned 1 "", .confirmed 1, .changed 1, .returned 1 "a"] ∧
      repeatedLate.1.server.kvMap.lookup "x" = some "aa" :=
  ⟨reached_run (by decide +kernel), by decide +kernel, by decide +kernel,
    reached_run (by decide +kernel), by decide +kernel, by decide +kernel⟩

end RaftImplementation.Kvsrv
