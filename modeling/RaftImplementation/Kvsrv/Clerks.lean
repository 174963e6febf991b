import RaftImplementation.Kvsrv.Server
import RaftImplementation.Library.Linearizability
import RaftImplementation.Library.Runs

/-!
# Clerks and linearizability (`kvsrv/client.go`)

One server and any number of clerks, each with at most one operation at a time. A `Call`
loses the request before it is handled, or runs the handler to its end and then loses or
delivers the reply; so a clerk has at most one handler at work. The sections of the
handlers of different clerks interleave in any way.

A clerk repeats its request under one id until it gets a reply, then repeats a confirm,
and decodes all replies into the same variable. `gob` does not transmit a zero value, so
the empty reply to a confirm leaves the variable as it is.

`Get` takes effect where it reads the map and `Put` and `Append` where they write it, in
the one invocation that finds no status. All later invocations find the status that this
one left.
-/

namespace RaftImplementation.Kvsrv

open Library

/-! ## The operations and the map -/

/-- An operation of a clerk. -/
inductive Op where
  | get (key : String)
  | put (key value : String)
  | append (key value : String)
  deriving DecidableEq, Repr

def Op.request (op : Op) (id : Int) (confirm : Bool) : Request :=
  match op with
  | .get key => .get ⟨key, id, confirm⟩
  | .put key value => .put ⟨key, value, id, confirm⟩
  | .append key value => .append ⟨key, value, id, confirm⟩

@[simp] theorem Op.request_id (op : Op) (id : Int) (confirm : Bool) :
    (op.request id confirm).id = id := by
  cases op with
  | get key => rfl
  | put key value => rfl
  | append key value => rfl

@[simp] theorem Op.request_confirm (op : Op) (id : Int) (confirm : Bool) :
    (op.request id confirm).confirm = confirm := by
  cases op with
  | get key => rfl
  | put key value => rfl
  | append key value => rfl

theorem Op.request_eq_get {op : Op} {id : Int} {confirm : Bool} {args : GetArgs}
    (h : op.request id confirm = .get args) :
    ∃ key, op = .get key ∧ args = ⟨key, id, confirm⟩ := by
  cases op with
  | get key =>
    cases h
    exact ⟨key, rfl, rfl⟩
  | put key value => cases h
  | append key value => cases h

theorem Op.request_eq_put {op : Op} {id : Int} {confirm : Bool} {args : PutAppendArgs}
    (h : op.request id confirm = .put args) :
    ∃ key value, op = .put key value ∧ args = ⟨key, value, id, confirm⟩ := by
  cases op with
  | get key => cases h
  | put key value =>
    cases h
    exact ⟨key, value, rfl, rfl⟩
  | append key value => cases h

theorem Op.request_eq_append {op : Op} {id : Int} {confirm : Bool} {args : PutAppendArgs}
    (h : op.request id confirm = .append args) :
    ∃ key value, op = .append key value ∧ args = ⟨key, value, id, confirm⟩ := by
  cases op with
  | get key => cases h
  | put key value => cases h
  | append key value =>
    cases h
    exact ⟨key, value, rfl, rfl⟩

/-- What the operation returns when `reply.Value` is as given. `Clerk.Put` returns nothing. -/
def Op.result (op : Op) (reply : String) : Option String :=
  match op with
  | .get _ => some reply
  | .put _ _ => none
  | .append _ _ => some reply

/-- The sequential map: `Get` returns the current value or "", `Put` overwrites, and
`Append` concatenates and returns the previous value. -/
def mapSpec : SequentialSpec (Map String String) Op (Option String) where
  initial := ∅
  apply m
    | .get key => (m, some ((m.lookup key).getD ""))
    | .put key value => (m.insert key value, none)
    | .append key value =>
      (m.insert key ((m.lookup key).getD "" ++ value), some ((m.lookup key).getD ""))

/-! ## The clerks -/

/-- Where a clerk stands: without an operation, before a `Call`, or in one. `confirm` is
`args.Confirm` and `reply` is `reply.Value`. -/
inductive Clerk where
  | idle
  | calling (op : Op) (id : Int) (confirm : Bool) (reply : String)
  | waiting (op : Op) (id : Int) (confirm : Bool) (reply : String) (handler : Handler)

def Clerk.id? : Clerk → Option Int
  | .idle => none
  | .calling _ id _ _ => some id
  | .waiting _ id _ _ _ => some id

/-- Decoding a reply into a variable: a zero value is not transmitted. -/
def decodeReply (reply value : String) : String := if value = "" then reply else value

theorem decodeReply_zero (value : String) : decodeReply "" value = value := by
  rw [decodeReply]
  split
  · rename_i hzero
    exact hzero.symm
  · rfl

/-- `used` holds the ids that `nrand` has given out; it gives none out twice. -/
structure System (P : Type) where
  server : KVServer
  clerks : P → Clerk
  used : List Int

inductive Action (P : Type) where
  | invoke (p : P) (op : Op) (id : Int)
  /-- The network loses the request, and `Call` returns false. -/
  | loseRequest (p : P)
  | dispatch (p : P)
  /-- The next section of the handler. -/
  | run (p : P)
  /-- The network loses the reply, and `Call` returns false. -/
  | loseReply (p : P)
  | deliver (p : P)

/-- The history of the clerks' operations. -/
abbrev ClerkEvent (P : Type) := HistoryEvent P Op (Option String)

namespace System

variable {P : Type}

def start : System P := ⟨startKVServer, fun _ => .idle, []⟩

variable [DecidableEq P]

def setClerk (s : System P) (p : P) (clerk : Clerk) : System P :=
  { s with clerks := Function.update s.clerks p clerk }

/-- `Call` returns true. After a confirm the operation returns. -/
def deliver (s : System P) (p : P) (op : Op) (id : Int) (confirm : Bool) (reply : String) :
    System P × List (ClerkEvent P) :=
  if confirm then (s.setClerk p .idle, [.ret p (op.result reply)])
  else (s.setClerk p (.calling op id true reply), [])

def step (s : System P) : Action P → Option (System P × List (ClerkEvent P))
  | .invoke p op id =>
    match s.clerks p with
    | .idle =>
      if id ∈ s.used then none
      else some ({ s.setClerk p (.calling op id false "") with used := id :: s.used }, [.call p op])
    | _ => none
  | .loseRequest p =>
    match s.clerks p with
    | .calling _ _ _ _ => some (s, [])
    | _ => none
  | .dispatch p =>
    match s.clerks p with
    | .calling op id confirm reply => some (s.setClerk p (.waiting op id confirm reply .entered), [])
    | _ => none
  | .run p =>
    match s.clerks p with
    | .waiting op id confirm reply handler =>
      (s.server.run (op.request id confirm) handler).map fun (kv, handler) =>
        (({ s with server := kv } : System P).setClerk p (.waiting op id confirm reply handler), [])
    | _ => none
  | .loseReply p =>
    match s.clerks p with
    | .waiting op id confirm reply (.returned _) =>
      some (s.setClerk p (.calling op id confirm reply), [])
    | _ => none
  | .deliver p =>
    match s.clerks p with
    | .waiting op id confirm reply (.returned value) =>
      some (s.deliver p op id confirm (decodeReply reply value))
    | _ => none

/-- What each action does, and where its clerk must be. -/
inductive Takes (s : System P) : Action P → System P × List (ClerkEvent P) → Prop
  | invoke {p : P} {op : Op} {id : Int} (hp : s.clerks p = .idle) (hid : id ∉ s.used) :
      Takes s (.invoke p op id)
        ({ s.setClerk p (.calling op id false "") with used := id :: s.used }, [.call p op])
  | loseRequest {p : P} {op : Op} {id : Int} {confirm : Bool} {reply : String}
      (hp : s.clerks p = .calling op id confirm reply) : Takes s (.loseRequest p) (s, [])
  | dispatch {p : P} {op : Op} {id : Int} {confirm : Bool} {reply : String}
      (hp : s.clerks p = .calling op id confirm reply) :
      Takes s (.dispatch p) (s.setClerk p (.waiting op id confirm reply .entered), [])
  | run {p : P} {op : Op} {id : Int} {confirm : Bool} {reply : String} {handler : Handler}
      {r : KVServer × Handler} (hp : s.clerks p = .waiting op id confirm reply handler)
      (hr : s.server.Ran (op.request id confirm) handler r) :
      Takes s (.run p) (({ s with server := r.1 } : System P).setClerk p
        (.waiting op id confirm reply r.2), [])
  | loseReply {p : P} {op : Op} {id : Int} {confirm : Bool} {reply value : String}
      (hp : s.clerks p = .waiting op id confirm reply (.returned value)) :
      Takes s (.loseReply p) (s.setClerk p (.calling op id confirm reply), [])
  | deliver {p : P} {op : Op} {id : Int} {confirm : Bool} {reply value : String}
      (hp : s.clerks p = .waiting op id confirm reply (.returned value)) :
      Takes s (.deliver p) (s.deliver p op id confirm (decodeReply reply value))

theorem step_takes {s : System P} {a : Action P} {r : System P × List (ClerkEvent P)}
    (hstep : s.step a = some r) : s.Takes a r := by
  cases a with
  | invoke p op id =>
    simp only [step] at hstep
    split at hstep
    · rename_i hp
      split at hstep
      · cases hstep
      · rename_i hid
        cases hstep
        exact .invoke hp hid
    · cases hstep
  | loseRequest p =>
    simp only [step] at hstep
    split at hstep
    · rename_i hp
      cases hstep
      exact .loseRequest hp
    · cases hstep
  | dispatch p =>
    simp only [step] at hstep
    split at hstep
    · rename_i hp
      cases hstep
      exact .dispatch hp
    · cases hstep
  | run p =>
    simp only [step] at hstep
    split at hstep
    · rename_i hp
      obtain ⟨r, hr, heq⟩ := Option.map_eq_some_iff.mp hstep
      cases heq
      exact .run hp (KVServer.run_ran hr)
    · cases hstep
  | loseReply p =>
    simp only [step] at hstep
    split at hstep
    · rename_i hp
      cases hstep
      exact .loseReply hp
    · cases hstep
  | deliver p =>
    simp only [step] at hstep
    split at hstep
    · rename_i hp
      cases hstep
      exact .deliver hp
    · cases hstep

end System

/-! ## How far an operation has come -/

/-- The status of an operation at the sequential map. -/
abbrev OpStatus := CallStatus Op (Option String)

/-- An operation before its first reply: the state of its handler, if it has one, and
whether it has taken effect. -/
inductive Stage (kv : KVServer) (op : Op) (id : Int) : Option Handler → OpStatus → Prop
  | pending {i : Nat} {handler : Option Handler} (hs : kv.status.lookup id = none)
      (hh : handler = none ∨ handler = some .entered ∨ handler = some .missed) :
      Stage kv op id handler (.called i op)
  | read {i : Nat} {key val : String} (hop : op = .get key) :
      Stage kv op id (some (.read val)) (.answered i (op.result val))
  | recorded {i : Nat} {handler : Option Handler} {val : String}
      (hs : kv.status.lookup id = some val)
      (hh : handler = none ∨ handler = some .entered ∨ handler = some (.returned val)) :
      Stage kv op id handler (.answered i (op.result val))

/-- After the first reply the operation has taken effect, and `reply` is its answer. -/
def Answered (op : Op) (reply : String) (status : OpStatus) : Prop :=
  ∃ i, status = .answered i (op.result reply)

def ClerkFits (kv : KVServer) : Clerk → OpStatus → Prop
  | .idle, status => status = .idle
  | .calling op id false reply, status => reply = "" ∧ Stage kv op id none status
  | .calling op _ true reply, status => Answered op reply status
  | .waiting op id false reply handler, status => reply = "" ∧ Stage kv op id (some handler) status
  | .waiting op _ true reply handler, status =>
    Answered op reply status ∧ (handler = .entered ∨ handler = .returned "")

/-- Only the status of the own id matters. -/
theorem Stage.frame {kv kv' : KVServer} {op : Op} {id : Int} {handler : Option Handler}
    {status : OpStatus} (h : Stage kv op id handler status)
    (hs : kv'.status.lookup id = kv.status.lookup id) : Stage kv' op id handler status := by
  cases h with
  | pending hnone hh => exact .pending (hs.trans hnone) hh
  | read hop => exact .read hop
  | recorded hsome hh => exact .recorded (hs.trans hsome) hh

/-- What the handler returns is the answer. -/
theorem Stage.answered {kv : KVServer} {op : Op} {id : Int} {value : String} {status : OpStatus}
    (h : Stage kv op id (some (.returned value)) status) : Answered op value status := by
  cases h with
  | pending _ hh => simp at hh
  | recorded _ hh =>
    simp only [reduceCtorEq, Option.some.injEq, Handler.returned.injEq, false_or] at hh
    rw [← hh]
    exact ⟨_, rfl⟩

/-- The request reaches the server. -/
theorem ClerkFits.dispatch {kv : KVServer} {op : Op} {id : Int} {confirm : Bool} {reply : String}
    {status : OpStatus} (h : ClerkFits kv (.calling op id confirm reply) status) :
    ClerkFits kv (.waiting op id confirm reply .entered) status := by
  cases confirm with
  | false =>
    obtain ⟨hreply, hstage⟩ := h
    refine ⟨hreply, ?_⟩
    cases hstage with
    | pending hs _ => exact .pending hs (.inr (.inl rfl))
    | recorded hs _ => exact .recorded hs (.inr (.inl rfl))
  | true => exact ⟨h, .inl rfl⟩

/-- The reply is lost. -/
theorem ClerkFits.loseReply {kv : KVServer} {op : Op} {id : Int} {confirm : Bool}
    {reply value : String} {status : OpStatus}
    (h : ClerkFits kv (.waiting op id confirm reply (.returned value)) status) :
    ClerkFits kv (.calling op id confirm reply) status := by
  cases confirm with
  | false =>
    obtain ⟨hreply, hstage⟩ := h
    refine ⟨hreply, ?_⟩
    cases hstage with
    | pending _ hh => simp at hh
    | recorded hs _ => exact .recorded hs (.inl rfl)
  | true => exact h.1

/-- A section of the handler of an operation that has not been answered to its clerk: the
map is left alone, or the operation takes effect. -/
theorem Stage.run {kv : KVServer} {op : Op} {id : Int} {handler : Handler}
    {status : OpStatus} {r : KVServer × Handler} (h : Stage kv op id (some handler) status)
    (hr : kv.Ran (op.request id false) handler r) :
    (r.1.kvMap = kv.kvMap ∧ Stage r.1 op id (some r.2) status) ∨
      ∃ i, status = .called i op ∧ r.1.kvMap = (mapSpec.apply kv.kvMap op).1 ∧
        Stage r.1 op id (some r.2) (.answered i (mapSpec.apply kv.kvMap op).2) := by
  cases hr with
  | confirmed hc => simp at hc
  | hit _ hs =>
    rw [Op.request_id] at hs
    cases h with
    | pending hnone => simp [hs] at hnone
    | recorded hsome =>
      rw [hs, Option.some.injEq] at hsome
      subst hsome
      exact Or.inl ⟨rfl, .recorded hs (.inr (.inr rfl))⟩
  | readMiss hreq _ hs =>
    rw [Op.request_id] at hs
    cases h with
    | pending _ _ =>
      obtain ⟨key, rfl, rfl⟩ := Op.request_eq_get hreq
      exact Or.inr ⟨_, rfl, rfl, .read rfl⟩
    | recorded hsome => simp [hs] at hsome
  | writeMiss _ _ hs =>
    rw [Op.request_id] at hs
    cases h with
    | pending _ _ => exact Or.inl ⟨rfl, .pending hs (.inr (.inr rfl))⟩
    | recorded hsome => simp [hs] at hsome
  | recorded hreq =>
    cases h with
    | pending _ hh => simp at hh
    | read hop =>
      obtain ⟨key, rfl, rfl⟩ := Op.request_eq_get hreq
      exact Or.inl ⟨rfl, .recorded (Finmap.lookup_insert _) (.inr (.inr rfl))⟩
    | recorded _ hh => simp at hh
  | put hreq =>
    cases h with
    | pending _ _ =>
      obtain ⟨key, value, rfl, rfl⟩ := Op.request_eq_put hreq
      exact Or.inr ⟨_, rfl, rfl, .recorded (Finmap.lookup_insert _) (.inr (.inr rfl))⟩
    | recorded _ hh => simp at hh
  | append hreq =>
    cases h with
    | pending _ _ =>
      obtain ⟨key, value, rfl, rfl⟩ := Op.request_eq_append hreq
      exact Or.inr ⟨_, rfl, rfl, .recorded (Finmap.lookup_insert _) (.inr (.inr rfl))⟩
    | recorded _ hh => simp at hh

theorem ClerkFits.frame {kv kv' : KVServer} {clerk : Clerk} {status : OpStatus}
    (h : ClerkFits kv clerk status)
    (hs : ∀ id, clerk.id? = some id → kv'.status.lookup id = kv.status.lookup id) :
    ClerkFits kv' clerk status := by
  cases clerk with
  | idle => exact h
  | calling op id confirm reply =>
    cases confirm with
    | false => exact ⟨h.1, h.2.frame (hs id rfl)⟩
    | true => exact h
  | waiting op id confirm reply handler =>
    cases confirm with
    | false => exact ⟨h.1, h.2.frame (hs id rfl)⟩
    | true => exact h

/-! ## The server follows the sequential map -/

section Simulation

variable {P : Type} {s : System P} {st : P → OpStatus}

/-- The clerks are where the map has their operations, and ids are not shared. -/
structure Simulates (s : System P) (st : P → OpStatus) : Prop where
  fits : ∀ p, ClerkFits s.server (s.clerks p) (st p)
  active : ∀ p id, (s.clerks p).id? = some id → id ∈ s.used
  distinct : ∀ p q id, (s.clerks p).id? = some id → (s.clerks q).id? = some id → p = q
  recorded : ∀ id, s.server.status.lookup id ≠ none → id ∈ s.used

theorem simulates_start : Simulates (P := P) .start fun _ => .idle := by
  constructor
  · intro p
    rfl
  · intro p id hid
    cases hid
  · intro p q id hid
    cases hid
  · intro id hid
    exact absurd rfl hid

namespace Simulates

theorem fits_at (h : Simulates s st) {p : P} {clerk : Clerk} (hp : s.clerks p = clerk) :
    ClerkFits s.server clerk (st p) := hp ▸ h.fits p

variable [DecidableEq P]

/-- Clerk `p` goes on with its operation, or is through with it; the server touches the
status of that operation only. -/
theorem update (h : Simulates s st) {p : P} {clerk : Clerk} {status : OpStatus} {kv : KVServer}
    (hfits : ClerkFits kv clerk status)
    (hid : ∀ id, clerk.id? = some id → (s.clerks p).id? = some id)
    (hkv : ∀ id, (s.clerks p).id? ≠ some id → kv.status.lookup id = s.server.status.lookup id) :
    Simulates (({ s with server := kv } : System P).setClerk p clerk)
      (Function.update st p status) := by
  have hids : ∀ q id, ((({ s with server := kv } : System P).setClerk p clerk).clerks q).id? =
      some id → (s.clerks q).id? = some id := by
    intro q id hq
    by_cases hqp : q = p
    · subst hqp
      simp only [System.setClerk, Function.update_self] at hq
      exact hid id hq
    · simpa only [System.setClerk, Function.update_of_ne hqp] using hq
  constructor
  · intro q
    by_cases hqp : q = p
    · subst hqp
      simpa only [System.setClerk, Function.update_self] using hfits
    · simp only [System.setClerk, Function.update_of_ne hqp]
      apply (h.fits q).frame
      intro id hq
      exact hkv id fun hp => hqp (h.distinct q p id hq hp)
  · intro q id hq
    exact h.active q id (hids q id hq)
  · intro q q' id hq hq'
    exact h.distinct q q' id (hids q id hq) (hids q' id hq')
  · intro id hlookup
    by_cases hp : (s.clerks p).id? = some id
    · exact h.active p id hp
    · have hsame : (({ s with server := kv } : System P).setClerk p clerk).server.status.lookup id =
          s.server.status.lookup id := hkv id hp
      rw [hsame] at hlookup
      exact h.recorded id hlookup

/-- A move of clerk `p` alone. -/
theorem setClerk (h : Simulates s st) {p : P} {clerk : Clerk}
    (hfits : ClerkFits s.server clerk (st p))
    (hid : ∀ id, clerk.id? = some id → (s.clerks p).id? = some id) :
    Simulates (s.setClerk p clerk) st := by
  have hnext := h.update hfits hid fun _ _ => rfl
  rw [Function.update_eq_self] at hnext
  exact hnext

/-- A new operation, with an id that was never used. -/
theorem invoke (h : Simulates s st) {p : P} (hp : s.clerks p = .idle) (op : Op) {id : Int}
    (hid : id ∉ s.used) (i : Nat) :
    Simulates { s.setClerk p (.calling op id false "") with used := id :: s.used }
      (Function.update st p (.called i op)) := by
  have hnone : s.server.status.lookup id = none := by
    by_contra hne
    exact hid (h.recorded id hne)
  have hother : ∀ q, q ≠ p → ∀ id', (Function.update s.clerks p (.calling op id false "") q).id? =
      some id' → id' ∈ s.used := by
    intro q hq id' hid'
    rw [Function.update_of_ne hq] at hid'
    exact h.active q id' hid'
  constructor
  · intro q
    by_cases hq : q = p
    · subst hq
      simp only [System.setClerk, Function.update_self]
      exact ⟨rfl, .pending hnone (.inl rfl)⟩
    · simpa only [System.setClerk, Function.update_of_ne hq] using h.fits q
  · intro q id' hid'
    by_cases hq : q = p
    · subst hq
      simp only [System.setClerk, Function.update_self, Clerk.id?, Option.some.injEq] at hid'
      simp [hid']
    · exact List.mem_cons_of_mem _ (hother q hq id' hid')
  · intro q q' id' hq hq'
    by_cases hqp : q = p
    · by_cases hqp' : q' = p
      · rw [hqp, hqp']
      · subst hqp
        simp only [System.setClerk, Function.update_self, Clerk.id?, Option.some.injEq] at hq
        rw [← hq] at hq'
        exact absurd (hother q' hqp' id hq') hid
    · by_cases hqp' : q' = p
      · subst hqp'
        simp only [System.setClerk, Function.update_self, Clerk.id?, Option.some.injEq] at hq'
        rw [← hq'] at hq
        exact absurd (hother q hqp id hq) hid
      · simp only [System.setClerk, Function.update_of_ne hqp, Function.update_of_ne hqp'] at hq hq'
        exact h.distinct q q' id' hq hq'
  · intro id' hid'
    exact List.mem_cons_of_mem _ (h.recorded id' hid')

variable {tr : List (ClerkEvent P)} {L : List (Nat × Option String)}

/-- One section of the handler of clerk `p`. -/
theorem run (h : Simulates s st) (hw : Witnessed mapSpec tr L s.server.kvMap st) {p : P} {op : Op}
    {id : Int} {confirm : Bool} {reply : String} {handler : Handler} {r : KVServer × Handler}
    (hp : s.clerks p = .waiting op id confirm reply handler)
    (hr : s.server.Ran (op.request id confirm) handler r) :
    ∃ L' st', Witnessed mapSpec tr L' r.1.kvMap st' ∧
      Simulates (({ s with server := r.1 } : System P).setClerk p
        (.waiting op id confirm reply r.2)) st' := by
  have hid : ∀ id', (Clerk.waiting op id confirm reply r.2).id? = some id' →
      (s.clerks p).id? = some id' := by
    intro id' hid'
    rw [hp]
    exact hid'
  have hkv : ∀ id', (s.clerks p).id? ≠ some id' →
      r.1.status.lookup id' = s.server.status.lookup id' := by
    intro id' hid'
    apply hr.status_eq
    rw [Op.request_id]
    rintro rfl
    exact hid' (by rw [hp]; rfl)
  have hfits := h.fits_at hp
  cases confirm with
  | false =>
    obtain ⟨hreply, hstage⟩ := hfits
    cases hstage.run hr with
    | inl hquiet =>
      obtain ⟨hmap, hstage'⟩ := hquiet
      have hfits' : ClerkFits r.1 (.waiting op id false reply r.2) (st p) := ⟨hreply, hstage'⟩
      have hnext := h.update hfits' hid hkv
      rw [Function.update_eq_self] at hnext
      rw [hmap]
      exact ⟨L, st, hw, hnext⟩
    | inr heffect =>
      obtain ⟨i, hcalled, hmap, hstage'⟩ := heffect
      have hfits' : ClerkFits r.1 (.waiting op id false reply r.2) _ := ⟨hreply, hstage'⟩
      have hnext := h.update hfits' hid hkv
      rw [hmap]
      exact ⟨_, _, hw.effect hcalled, hnext⟩
  | true =>
    obtain ⟨hanswered, hhandler⟩ := hfits
    have hconfirmed : r = s.server.confirmed id := by
      cases hhandler with
      | inl hentered =>
        subst hentered
        cases hr with
        | confirmed => rw [Op.request_id]
        | hit hc => simp at hc
        | readMiss _ hc => simp at hc
        | writeMiss _ hc => simp at hc
      | inr hreturned =>
        subst hreturned
        cases hr
    subst hconfirmed
    have hfits' : ClerkFits (s.server.confirmed id).1
        (.waiting op id true reply (s.server.confirmed id).2) (st p) := ⟨hanswered, .inr rfl⟩
    have hnext := h.update hfits' hid hkv
    rw [Function.update_eq_self] at hnext
    exact ⟨L, st, hw, hnext⟩

/-- A reply is decoded: the first one is the answer, and that to a confirm changes nothing. -/
theorem deliver (h : Simulates s st) (hw : Witnessed mapSpec tr L s.server.kvMap st) {p : P}
    {op : Op} {id : Int} {confirm : Bool} {reply value : String}
    (hp : s.clerks p = .waiting op id confirm reply (.returned value)) :
    ∃ st', Witnessed mapSpec (tr ++ (s.deliver p op id confirm (decodeReply reply value)).2) L
        (s.deliver p op id confirm (decodeReply reply value)).1.server.kvMap st' ∧
      Simulates (s.deliver p op id confirm (decodeReply reply value)).1 st' := by
  have hid : ∀ id', some id = some id' → (s.clerks p).id? = some id' := by
    intro id' hid'
    rw [hp]
    exact hid'
  have hfits := h.fits_at hp
  cases confirm with
  | false =>
    obtain ⟨rfl, hstage⟩ := hfits
    rw [decodeReply_zero]
    have hsame : tr ++ (s.deliver p op id false value).2 = tr := List.append_nil tr
    rw [hsame]
    exact ⟨st, hw, h.setClerk hstage.answered hid⟩
  | true =>
    obtain ⟨⟨i, hst⟩, hhandler⟩ := hfits
    have hempty : value = "" := by simpa using hhandler
    subst hempty
    have hidle : Simulates (s.setClerk p .idle) (Function.update st p .idle) := by
      have hfits' : ClerkFits s.server .idle .idle := rfl
      apply h.update hfits'
      · intro id' hid'
        cases hid'
      · intro _ _
        rfl
    exact ⟨_, hw.ret hst, hidle⟩

theorem step (h : Simulates s st) (hw : Witnessed mapSpec tr L s.server.kvMap st) {a : Action P}
    {r : System P × List (ClerkEvent P)} (hstep : s.Takes a r) :
    ∃ L' st', Witnessed mapSpec (tr ++ r.2) L' r.1.server.kvMap st' ∧ Simulates r.1 st' := by
  cases hstep with
  | invoke hp hid => exact ⟨L, _, hw.call _ (h.fits_at hp), h.invoke hp _ hid _⟩
  | loseRequest hp =>
    rw [List.append_nil]
    exact ⟨L, st, hw, h⟩
  | dispatch hp =>
    rw [List.append_nil]
    exact ⟨L, st, hw, h.setClerk (h.fits_at hp).dispatch fun _ hid => by rw [hp]; exact hid⟩
  | run hp hr =>
    rw [List.append_nil]
    exact h.run hw hp hr
  | loseReply hp =>
    rw [List.append_nil]
    exact ⟨L, st, hw, h.setClerk (h.fits_at hp).loseReply fun _ hid => by rw [hp]; exact hid⟩
  | deliver hp => exact ⟨L, h.deliver hw hp⟩

end Simulates

variable [DecidableEq P]

theorem simulates_run {tr : List (ClerkEvent P)} (h : Run System.step always .start tr s) :
    ∃ L st, Witnessed mapSpec tr L s.server.kvMap st ∧ Simulates s st := by
  induction h with
  | refl => exact ⟨[], _, .start, simulates_start⟩
  | snoc _ _ hstep ih =>
    obtain ⟨L, st, hw, hsim⟩ := ih
    exact hsim.step hw (System.step_takes hstep)

/-- The history of the clerks is linearizable in every run: the map of the server is what
the sequential map has become by the operations that took effect, each of them once. -/
theorem kvsrv_linearizable {tr : List (ClerkEvent P)} (h : Run System.step always .start tr s) :
    Linearizable mapSpec tr s.server.kvMap := by
  obtain ⟨L, st, hw, -⟩ := simulates_run h
  exact hw.linearizable

end Simulation

/-- Clerk 0 appends; the reply to its first request is lost, and clerk 1 reads before it
asks again. -/
def appendRetried : System Nat × List (ClerkEvent Nat) :=
  reached System.step always .start
    [.invoke 0 (.append "x" "a") 7, .dispatch 0, .run 0, .run 0, .loseReply 0,
      .invoke 1 (.get "x") 8, .dispatch 1, .run 1, .run 1, .deliver 1,
      .dispatch 0, .run 0, .deliver 0, .dispatch 0, .run 0, .deliver 0,
      .dispatch 1, .run 1, .deliver 1]

theorem kvsrv_linearizable_of_two :
    appendRetried.2 = [.call 0 (.append "x" "a"), .call 1 (.get "x"), .ret 0 (some ""),
        .ret 1 (some "a")] ∧
      appendRetried.1.server.kvMap.lookup "x" = some "a" ∧
      Linearizable mapSpec appendRetried.2 appendRetried.1.server.kvMap := by
  have hrun : Run System.step always .start appendRetried.2 appendRetried.1 :=
    reached_run (by decide +kernel)
  exact ⟨by decide +kernel, by decide +kernel, kvsrv_linearizable hrun⟩

end RaftImplementation.Kvsrv
