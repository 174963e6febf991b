import RaftImplementation.Library.Maps
import RaftImplementation.Library.Runs

/-!
# The simulated network (`labrpc.go`)

Any number of `Call`s are in progress, each with its own goroutine in `processReq` and, once
the request is dispatched, one more that runs the handler. A step is one of these goroutines
getting to the next point where it waits, draws a random number or takes the lock of the
network, or a call of one of the methods that set the network up. What the handlers do is not
said here: a handler that runs may return any reply.

Random numbers and timers are choices of the run. `longDelays` only makes a refused request
wait longer, and the counters are only read for statistics; both are left out. So are
arguments that cannot be encoded, services that a server does not have and replies that
cannot be decoded: they end the program, as `Process` says.
-/

namespace RaftImplementation.Labrpc

open Library

/-! ## The network -/

/-- End points, server names and server pointers. A name that is missing in a map and one that
is mapped to `nil` read alike. -/
structure Network (E N S : Type) where
  reliable : Bool
  longReordering : Bool
  ends : Map E Unit
  enabled : Map E Bool
  servers : Map N (Option S)
  connections : Map E (Option N)

/-- The results of `readEndnameInfo`; `none` is `nil`. -/
structure EndInfo (N S : Type) where
  enabled : Bool
  servername : Option N
  server : Option S
  reliable : Bool
  longreordering : Bool
  deriving DecidableEq

/-- A call of a method of the network. -/
inductive Setup (E N S : Type) where
  | reliable (yes : Bool)
  | longReordering (yes : Bool)
  | makeEnd (endname : E)
  | deleteEnd (endname : E)
  | addServer (servername : N) (rs : S)
  | deleteServer (servername : N)
  | connect (endname : E) (servername : N)
  | enable (endname : E) (enabled : Bool)

namespace Network

variable {E N S : Type}

def makeNetwork : Network E N S := ⟨true, false, ∅, ∅, ∅, ∅⟩

variable [DecidableEq E] [DecidableEq N]

def readEndnameInfo (rn : Network E N S) (endname : E) : EndInfo N S :=
  let servername := (rn.connections.lookup endname).join
  { enabled := (rn.enabled.lookup endname).getD false
    servername := servername
    server := servername.bind fun servername => (rn.servers.lookup servername).join
    reliable := rn.reliable
    longreordering := rn.longReordering }

def isServerDead [DecidableEq S] (rn : Network E N S) (endname : E) (servername : N) (server : S) :
    Bool :=
  (rn.enabled.lookup endname).getD false = false ∨ (rn.servers.lookup servername).join ≠ some server

/-- `MakeEnd` of an end that exists and `DeleteEnd` of one that does not are fatal. -/
def setup (rn : Network E N S) : Setup E N S → Option (Network E N S)
  | .reliable yes => some { rn with reliable := yes }
  | .longReordering yes => some { rn with longReordering := yes }
  | .makeEnd endname =>
    if endname ∈ rn.ends then none
    else some { rn with
      ends := rn.ends.insert endname ()
      enabled := rn.enabled.insert endname false
      connections := rn.connections.insert endname none }
  | .deleteEnd endname =>
    if endname ∈ rn.ends then
      some { rn with
        ends := rn.ends.erase endname
        enabled := rn.enabled.erase endname
        connections := rn.connections.erase endname }
    else none
  | .addServer servername rs => some { rn with servers := rn.servers.insert servername (some rs) }
  | .deleteServer servername => some { rn with servers := rn.servers.insert servername none }
  | .connect endname servername =>
    some { rn with connections := rn.connections.insert endname (some servername) }
  | .enable endname enabled => some { rn with enabled := rn.enabled.insert endname enabled }

end Network

/-! ## One call -/

/-- What the server needs of a request, and the name of the sending end. -/
structure ReqMsg (E Q : Type) where
  endname : E
  args : Q

/-- What `processReq` has read about the end when it goes on to call the server. -/
structure Target (N S : Type) where
  servername : N
  server : S
  reliable : Bool
  longreordering : Bool

/-- Where a `Call` and its `processReq` are. -/
inductive Stage (N S R : Type) where
  /-- `Call` offers the request to the network. -/
  | sending
  /-- `processReq` is about to begin. -/
  | accepted
  /-- There is no server to go to; a timer runs. -/
  | refused
  /-- Before the handler is started. -/
  | delayed (target : Target N S)
  /-- In the loop that waits for the handler. -/
  | waiting (target : Target N S)
  /-- Out of the loop, with a reply. -/
  | replied (target : Target N S) (reply : R)
  /-- Out of the loop because the server looked dead. -/
  | killed
  /-- The reply is kept back by a timer. -/
  | reordered (reply : R)
  /-- `Call` has returned; `none` is false. -/
  | answered (result : Option R)

/-- The goroutine that calls `dispatch`. -/
inductive Handler (R : Type) where
  | unstarted
  | running
  /-- It has returned from `dispatch` and waits for someone to read the reply. -/
  | returned (reply : R)
  | gone

structure Request (E N S Q R : Type) where
  msg : ReqMsg E Q
  stage : Stage N S R := .sending
  handler : Handler R := .unstarted

/-- What becomes of a reply: the two random draws at the end of `processReq`. -/
inductive Fate where
  | drop
  | reorder
  | pass

inductive CallStep (R : Type) where
  /-- The network takes the request. -/
  | accept
  /-- `Call` sees that the network is cleaned up. -/
  | abort
  | start
  | timeout
  | dropRequest
  | dispatch
  | handlerReturns (reply : R)
  | receive
  /-- 100 milliseconds are over. -/
  | check
  /-- The reply of a handler that nobody waits for any more is read away. -/
  | drain
  | finish (fate : Fate)
  | deliver

inductive CallEvent (S R : Type) where
  | called
  | dispatched (server : S)
  | returned (reply : R)
  | answered (result : Option R)
  deriving DecidableEq

/-- All there is besides the calls: the network, whether `rn.done` is closed, and whether the
goroutine of `MakeNetwork` still takes requests. -/
structure Shared (E N S : Type) where
  net : Network E N S
  done : Bool
  listening : Bool

section Calls

variable {E N S Q R : Type}

/-- The first `if` of `processReq`. -/
def EndInfo.stage (info : EndInfo N S) : Stage N S R :=
  match info.enabled, info.servername, info.server with
  | true, some servername, some server =>
    .delayed ⟨servername, server, info.reliable, info.longreordering⟩
  | _, _, _ => .refused

namespace Request

def answer (req : Request E N S Q R) (result : Option R) :
    Request E N S Q R × List (CallEvent S R) :=
  ({ req with stage := .answered result }, [.answered result])

variable [DecidableEq E] [DecidableEq N] [DecidableEq S]

/-- The end of `processReq`, with a reply at hand. -/
def finish (sh : Shared E N S) (req : Request E N S Q R) (target : Target N S) (reply : R) :
    Fate → Option (Request E N S Q R × List (CallEvent S R))
  | .drop =>
    if sh.net.isServerDead req.msg.endname target.servername target.server then
      some (req.answer none)
    else if target.reliable = false then some (req.answer none)
    else none
  | .reorder =>
    if sh.net.isServerDead req.msg.endname target.servername target.server then
      some (req.answer none)
    else if target.longreordering = true then some ({ req with stage := .reordered reply }, [])
    else none
  | .pass =>
    if sh.net.isServerDead req.msg.endname target.servername target.server then
      some (req.answer none)
    else some (req.answer (some reply))

def step (sh : Shared E N S) (req : Request E N S Q R) :
    CallStep R → Option (Request E N S Q R × List (CallEvent S R))
  | .accept =>
    match req.stage with
    | .sending => if sh.listening then some ({ req with stage := .accepted }, []) else none
    | _ => none
  | .abort =>
    match req.stage with
    | .sending => if sh.done then some (req.answer none) else none
    | _ => none
  | .start =>
    match req.stage with
    | .accepted =>
      some ({ req with stage := (sh.net.readEndnameInfo req.msg.endname).stage }, [])
    | _ => none
  | .timeout =>
    match req.stage with
    | .refused => some (req.answer none)
    | _ => none
  | .dropRequest =>
    match req.stage with
    | .delayed target => if target.reliable = false then some (req.answer none) else none
    | _ => none
  | .dispatch =>
    match req.stage with
    | .delayed target =>
      some ({ req with stage := .waiting target, handler := .running }, [.dispatched target.server])
    | _ => none
  | .handlerReturns reply =>
    match req.handler with
    | .running => some ({ req with handler := .returned reply }, [.returned reply])
    | _ => none
  | .receive =>
    match req.stage, req.handler with
    | .waiting target, .returned reply =>
      some ({ req with stage := .replied target reply, handler := .gone }, [])
    | _, _ => none
  | .check =>
    match req.stage with
    | .waiting target =>
      if sh.net.isServerDead req.msg.endname target.servername target.server then
        some ({ req with stage := .killed }, [])
      else some (req, [])
    | _ => none
  | .drain =>
    match req.stage, req.handler with
    | .killed, .returned _ => some ({ req with handler := .gone }, [])
    | .answered _, .returned _ => some ({ req with handler := .gone }, [])
    | _, _ => none
  | .finish fate =>
    match req.stage with
    | .replied target reply => req.finish sh target reply fate
    | .killed => some (req.answer none)
    | _ => none
  | .deliver =>
    match req.stage with
    | .reordered reply => some (req.answer (some reply))
    | _ => none

/-- Whether the server of a call looks dead. -/
def Dead (sh : Shared E N S) (req : Request E N S Q R) (target : Target N S) : Prop :=
  sh.net.isServerDead req.msg.endname target.servername target.server = true

/-- What each step does, and where the call must be. -/
inductive Takes (sh : Shared E N S) (req : Request E N S Q R) :
    CallStep R → Request E N S Q R → List (CallEvent S R) → Prop
  | accept (h : req.stage = .sending) (hl : sh.listening = true) :
      Takes sh req .accept { req with stage := .accepted } []
  | abort (h : req.stage = .sending) (hd : sh.done = true) :
      Takes sh req .abort { req with stage := .answered none } [.answered none]
  | start (h : req.stage = .accepted) :
      Takes sh req .start
        { req with stage := (sh.net.readEndnameInfo req.msg.endname).stage } []
  | timeout (h : req.stage = .refused) :
      Takes sh req .timeout { req with stage := .answered none } [.answered none]
  | dropRequest {target : Target N S} (h : req.stage = .delayed target)
      (hr : target.reliable = false) :
      Takes sh req .dropRequest { req with stage := .answered none } [.answered none]
  | dispatch {target : Target N S} (h : req.stage = .delayed target) :
      Takes sh req .dispatch { req with stage := .waiting target, handler := .running }
        [.dispatched target.server]
  | handlerReturns {reply : R} (hh : req.handler = .running) :
      Takes sh req (.handlerReturns reply) { req with handler := .returned reply } [.returned reply]
  | receive {target : Target N S} {reply : R} (h : req.stage = .waiting target)
      (hh : req.handler = .returned reply) :
      Takes sh req .receive { req with stage := .replied target reply, handler := .gone } []
  | alive {target : Target N S} (h : req.stage = .waiting target) (hd : ¬ req.Dead sh target) :
      Takes sh req .check req []
  | kill {target : Target N S} (h : req.stage = .waiting target) (hd : req.Dead sh target) :
      Takes sh req .check { req with stage := .killed } []
  | drain {reply : R} (h : req.stage = .killed ∨ ∃ result, req.stage = .answered result)
      (hh : req.handler = .returned reply) :
      Takes sh req .drain { req with handler := .gone } []
  | late {target : Target N S} {reply : R} {fate : Fate} (h : req.stage = .replied target reply)
      (hd : req.Dead sh target) :
      Takes sh req (.finish fate) { req with stage := .answered none } [.answered none]
  | dropReply {target : Target N S} {reply : R} (h : req.stage = .replied target reply)
      (hd : ¬ req.Dead sh target) (hr : target.reliable = false) :
      Takes sh req (.finish .drop) { req with stage := .answered none } [.answered none]
  | reorder {target : Target N S} {reply : R} (h : req.stage = .replied target reply)
      (hd : ¬ req.Dead sh target) (hl : target.longreordering = true) :
      Takes sh req (.finish .reorder) { req with stage := .reordered reply } []
  | pass {target : Target N S} {reply : R} (h : req.stage = .replied target reply)
      (hd : ¬ req.Dead sh target) :
      Takes sh req (.finish .pass) { req with stage := .answered (some reply) }
        [.answered (some reply)]
  | giveUp {fate : Fate} (h : req.stage = .killed) :
      Takes sh req (.finish fate) { req with stage := .answered none } [.answered none]
  | deliver {reply : R} (h : req.stage = .reordered reply) :
      Takes sh req .deliver { req with stage := .answered (some reply) } [.answered (some reply)]

variable {sh : Shared E N S} {req req' : Request E N S Q R} {es : List (CallEvent S R)}

theorem Takes.msg_eq {a : CallStep R} (h : Takes sh req a req' es) : req'.msg = req.msg := by
  cases h <;> rfl

theorem finish_takes {target : Target N S} {reply : R} {fate : Fate}
    (h : req.stage = .replied target reply)
    (hstep : req.finish sh target reply fate = some (req', es)) :
    Takes sh req (.finish fate) req' es := by
  by_cases hd : req.Dead sh target
  · have hanswer : req.finish sh target reply fate = some (req.answer none) := by
      cases fate with
      | drop => exact if_pos hd
      | reorder => exact if_pos hd
      | pass => exact if_pos hd
    rw [hanswer] at hstep
    cases hstep
    exact .late h hd
  · have hd' : ¬ sh.net.isServerDead req.msg.endname target.servername target.server = true := hd
    cases fate with
    | drop =>
      simp only [finish, if_neg hd'] at hstep
      split at hstep
      · cases hstep
        exact .dropReply h hd ‹_›
      · cases hstep
    | reorder =>
      simp only [finish, if_neg hd'] at hstep
      split at hstep
      · cases hstep
        exact .reorder h hd ‹_›
      · cases hstep
    | pass =>
      simp only [finish, if_neg hd'] at hstep
      cases hstep
      exact .pass h hd

theorem step_takes {a : CallStep R} (hstep : req.step sh a = some (req', es)) :
    Takes sh req a req' es := by
  cases a with
  | accept =>
    simp only [step] at hstep
    split at hstep
    · split at hstep
      · cases hstep
        exact .accept ‹_› ‹_›
      · cases hstep
    · cases hstep
  | abort =>
    simp only [step] at hstep
    split at hstep
    · split at hstep
      · cases hstep
        exact .abort ‹_› ‹_›
      · cases hstep
    · cases hstep
  | start =>
    simp only [step] at hstep
    split at hstep
    · cases hstep
      exact .start ‹_›
    · cases hstep
  | timeout =>
    simp only [step] at hstep
    split at hstep
    · cases hstep
      exact .timeout ‹_›
    · cases hstep
  | dropRequest =>
    simp only [step] at hstep
    split at hstep
    · split at hstep
      · cases hstep
        exact .dropRequest ‹_› ‹_›
      · cases hstep
    · cases hstep
  | dispatch =>
    simp only [step] at hstep
    split at hstep
    · cases hstep
      exact .dispatch ‹_›
    · cases hstep
  | handlerReturns reply =>
    simp only [step] at hstep
    split at hstep
    · cases hstep
      exact .handlerReturns ‹_›
    · cases hstep
  | receive =>
    simp only [step] at hstep
    split at hstep
    · cases hstep
      exact .receive ‹_› ‹_›
    · cases hstep
  | check =>
    simp only [step] at hstep
    split at hstep
    · split at hstep
      · cases hstep
        exact .kill ‹_› ‹_›
      · cases hstep
        exact .alive ‹_› ‹_›
    · cases hstep
  | drain =>
    simp only [step] at hstep
    split at hstep
    · cases hstep
      exact .drain (Or.inl ‹_›) ‹_›
    · cases hstep
      exact .drain (Or.inr ⟨_, ‹_›⟩) ‹_›
    · cases hstep
  | finish fate =>
    simp only [step] at hstep
    split at hstep
    · exact finish_takes ‹_› hstep
    · cases hstep
      exact .giveUp ‹_›
    · cases hstep
  | deliver =>
    simp only [step] at hstep
    split at hstep
    · cases hstep
      exact .deliver ‹_›
    · cases hstep

end Request

end Calls

/-! ## All calls together -/

/-- `I` tells the calls apart. -/
structure System (I E N S Q R : Type) where
  shared : Shared E N S
  requests : I → Option (Request E N S Q R)

inductive Action (I E N S Q R : Type) where
  | call (i : I) (msg : ReqMsg E Q)
  | own (i : I) (a : CallStep R)
  | setup (a : Setup E N S)
  | cleanup
  /-- The goroutine of `MakeNetwork` sees that the network is cleaned up. -/
  | stop

namespace System

variable {I E N S Q R : Type}

def start : System I E N S Q R := ⟨⟨.makeNetwork, false, true⟩, fun _ => none⟩

variable [DecidableEq I]

def setRequest (s : System I E N S Q R) (i : I) (req : Request E N S Q R) :
    System I E N S Q R :=
  { s with requests := Function.update s.requests i (some req) }

variable [DecidableEq E] [DecidableEq N] [DecidableEq S]

def step (s : System I E N S Q R) :
    Action I E N S Q R → Option (System I E N S Q R × List (I × CallEvent S R))
  | .call i msg =>
    match s.requests i with
    | none => some (s.setRequest i { msg }, [(i, .called)])
    | some _ => none
  | .own i a =>
    (s.requests i).bind fun req =>
      (req.step s.shared a).map fun (req, es) => (s.setRequest i req, es.map fun e => (i, e))
  | .setup a =>
    (s.shared.net.setup a).map fun net => ({ s with shared := { s.shared with net } }, [])
  | .cleanup =>
    -- closing a closed channel panics
    if s.shared.done then none else some ({ s with shared := { s.shared with done := true } }, [])
  | .stop =>
    if s.shared.done then some ({ s with shared := { s.shared with listening := false } }, [])
    else none

/-- What each action does, and what it needs. -/
inductive Takes (s : System I E N S Q R) :
    Action I E N S Q R → System I E N S Q R → List (I × CallEvent S R) → Prop
  | call {i : I} {msg : ReqMsg E Q} (h : s.requests i = none) :
      Takes s (.call i msg) (s.setRequest i { msg }) [(i, .called)]
  | own {i : I} {a : CallStep R} {req req' : Request E N S Q R} {es : List (CallEvent S R)}
      (h : s.requests i = some req) (hstep : req.Takes s.shared a req' es) :
      Takes s (.own i a) (s.setRequest i req') (es.map fun e => (i, e))
  | setup {a : Setup E N S} {net : Network E N S} (h : s.shared.net.setup a = some net) :
      Takes s (.setup a) { s with shared := { s.shared with net } } []
  | cleanup (h : s.shared.done = false) :
      Takes s .cleanup { s with shared := { s.shared with done := true } } []
  | stop (h : s.shared.done = true) :
      Takes s .stop { s with shared := { s.shared with listening := false } } []

theorem step_takes {s s' : System I E N S Q R} {a : Action I E N S Q R}
    {es : List (I × CallEvent S R)} (hstep : s.step a = some (s', es)) : s.Takes a s' es := by
  cases a with
  | call i msg =>
    simp only [step] at hstep
    cases hreq : s.requests i with
    | none =>
      simp only [hreq] at hstep
      cases hstep
      exact .call hreq
    | some req => simp [hreq] at hstep
  | own i a =>
    obtain ⟨req, hreq, hstep⟩ := Option.bind_eq_some_iff.mp hstep
    obtain ⟨⟨req', es'⟩, hown, heq⟩ := Option.map_eq_some_iff.mp hstep
    cases heq
    exact .own hreq (Request.step_takes hown)
  | setup a =>
    obtain ⟨net, hnet, heq⟩ := Option.map_eq_some_iff.mp hstep
    cases heq
    exact .setup hnet
  | cleanup =>
    simp only [step] at hstep
    split at hstep
    · cases hstep
    · cases hstep
      exact .cleanup (eq_false_of_ne_true ‹_›)
  | stop =>
    simp only [step] at hstep
    split at hstep
    · cases hstep
      exact .stop ‹_›
    · cases hstep

end System

/-! ## What holds of one call -/

section PerCall

variable {I E N S Q R : Type} [DecidableEq I]

/-- The events of call `i`, in order. -/
def eventsOf (i : I) (tr : List (I × CallEvent S R)) : List (CallEvent S R) :=
  (tr.filter fun e => e.1 = i).map Prod.snd

theorem eventsOf_append (i : I) (tr tr' : List (I × CallEvent S R)) :
    eventsOf i (tr ++ tr') = eventsOf i tr ++ eventsOf i tr' := by
  simp [eventsOf]

theorem eventsOf_self (i : I) (es : List (CallEvent S R)) :
    eventsOf i (es.map fun e => (i, e)) = es := by
  simp [eventsOf, List.filter_map, Function.comp_def]

theorem eventsOf_ne {i j : I} (h : j ≠ i) (es : List (CallEvent S R)) :
    eventsOf i (es.map fun e => (j, e)) = [] := by
  simp [eventsOf, List.filter_map, Function.comp_def, h]

variable [DecidableEq E] [DecidableEq N] [DecidableEq S]
variable {ok : System I E N S Q R → Action I E N S Q R → Prop} {i : I}
variable {s₀ s s' : System I E N S Q R} {tr es : List (I × CallEvent S R)}

/-- An action leaves call `i` as it is, or begins it, or is a step of it. -/
theorem System.Takes.cases_call {a : Action I E N S Q R} (h : s.Takes a s' es) (i : I) :
    ((∀ a', a ≠ .own i a') ∧ s'.requests i = s.requests i ∧ eventsOf i es = []) ∨
      (∃ msg, a = .call i msg ∧ s.requests i = none ∧ s'.requests i = some { msg } ∧
        eventsOf i es = [.called]) ∨
      ∃ a' req req' es', a = .own i a' ∧ s.requests i = some req ∧
        req.Takes s.shared a' req' es' ∧ s'.requests i = some req' ∧ eventsOf i es = es' := by
  cases h with
  | @call j msg hnone =>
    by_cases hj : j = i
    · subst hj
      exact Or.inr (Or.inl ⟨msg, rfl, hnone, Function.update_self .., eventsOf_self j [.called]⟩)
    · exact Or.inl ⟨nofun, Function.update_of_ne (Ne.symm hj) .., eventsOf_ne hj [.called]⟩
  | @own j a req req' es hreq hstep =>
    by_cases hj : j = i
    · subst hj
      exact Or.inr (Or.inr
        ⟨a, req, req', es, rfl, hreq, hstep, Function.update_self .., eventsOf_self j es⟩)
    · refine Or.inl ⟨?_, Function.update_of_ne (Ne.symm hj) .., eventsOf_ne hj es⟩
      intro a' heq
      cases heq
      exact hj rfl
  | setup _ => exact Or.inl ⟨nofun, rfl, rfl⟩
  | cleanup _ => exact Or.inl ⟨nofun, rfl, rfl⟩
  | stop _ => exact Or.inl ⟨nofun, rfl, rfl⟩

/-- The invariant rule for one call: other calls and the methods of the network do not touch
it. -/
theorem invariant_call {Inv : Option (Request E N S Q R) → List (CallEvent S R) → Prop}
    (hstart : Inv (s₀.requests i) []) (hcall : ∀ msg es, Inv none es → Inv (some { msg }) (es ++ [.called]))
    (hstep : ∀ s a req req' es es', ok s (.own i a) → s.requests i = some req →
      Inv (some req) es → req.Takes s.shared a req' es' → Inv (some req') (es ++ es'))
    (hrun : Run System.step ok s₀ tr s) : Inv (s.requests i) (eventsOf i tr) := by
  induction hrun with
  | refl => exact hstart
  | snoc _ hok hs ih =>
    rw [eventsOf_append]
    obtain ⟨-, hreq, hes⟩ | ⟨msg, -, hnone, hreq, hes⟩ |
        ⟨a, req, req', es', rfl, hreq, htakes, hreq', hes⟩ := (System.step_takes hs).cases_call i
    · rw [hreq, hes, List.append_nil]
      exact ih
    · rw [hnone] at ih
      rw [hreq, hes]
      exact hcall msg _ ih
    · rw [hreq] at ih
      rw [hreq', hes]
      exact hstep _ _ _ _ _ _ hok hreq ih htakes

end PerCall

end RaftImplementation.Labrpc
