import RaftImplementation.Kvsrv.Clerks
import RaftImplementation.Labrpc.Calls

/-!
# The service on the simulated network

The clerks and the server of `kvsrv` with the network of `labrpc` between them: each clerk has
an end of its own, a `Call` goes through `processReq`, and the handler of a request runs section
by section in the goroutine that `processReq` has started. The methods of the network may be
called at any time, and requests and replies get lost, delayed and reordered as the network
does it.

As long as no `Call` gives up on a handler that is still at work, all this is a run of the
clerks with the plain network of `Clerks`, with the same history. A `Call` gives up only if
its end has been disabled or the server deleted.
-/

namespace RaftImplementation.Kvsrv

open Library

/-- Where a clerk stands: `i` is its `Call`. -/
inductive NetClerk (I : Type) where
  | idle
  | calling (op : Op) (id : Int) (confirm : Bool) (reply : String)
  | inCall (op : Op) (id : Int) (confirm : Bool) (reply : String) (i : I)

/-- The network with requests of the clerks. There is one server, under any names. -/
abbrev Net (P I N : Type) := Labrpc.System I P N Unit Request String

/-- A call of a clerk. -/
abbrev ClerkCall (P N : Type) := Labrpc.Request P N Unit Request String

abbrev NetAction (P I N : Type) := Labrpc.Action I P N Unit Request String

structure Deployed (P I N : Type) where
  net : Net P I N
  server : KVServer
  handlers : I → Handler
  clerks : P → NetClerk I
  used : List Int

inductive DeployedAction (P I N : Type) where
  | invoke (p : P) (op : Op) (id : Int)
  /-- The clerk calls `Call`. -/
  | call (p : P) (i : I)
  | network (a : NetAction P I N)
  /-- The next section of the handler of call `i`. -/
  | run (i : I)
  /-- The handler of call `i` has returned, and its goroutine goes on with the reply. -/
  | ret (i : I)
  /-- `Call` has returned. -/
  | resume (p : P)

/-- The actions that the network takes by itself, or that are calls of its methods. -/
def ofNetwork {P I N : Type} : NetAction P I N → Bool
  | .call _ _ => false
  | .own _ (.handlerReturns _) => false
  | _ => true

/-- The call whose server is looked at, because 100 milliseconds are over. -/
def DeployedAction.looksAt {P I N : Type} : DeployedAction P I N → Option I
  | .network (.own i .check) => some i
  | _ => none

namespace Deployed

variable {P I N : Type}

def start : Deployed P I N := ⟨.start, startKVServer, fun _ => .entered, fun _ => .idle, []⟩

variable [DecidableEq P]

def setClerk (d : Deployed P I N) (p : P) (clerk : NetClerk I) : Deployed P I N :=
  { d with clerks := Function.update d.clerks p clerk }

/-- `Call` has returned true. After a confirm the operation returns. -/
def deliver (d : Deployed P I N) (p : P) (op : Op) (id : Int) (confirm : Bool) (reply : String) :
    Deployed P I N × List (ClerkEvent P) :=
  if confirm then (d.setClerk p .idle, [.ret p (op.result reply)])
  else (d.setClerk p (.calling op id true reply), [])

variable [DecidableEq I] [DecidableEq N]

def step (d : Deployed P I N) : DeployedAction P I N →
    Option (Deployed P I N × List (ClerkEvent P))
  | .invoke p op id =>
    match d.clerks p with
    | .idle =>
      if id ∈ d.used then none
      else some ({ d.setClerk p (.calling op id false "") with used := id :: d.used }, [.call p op])
    | _ => none
  | .call p i =>
    match d.clerks p with
    | .calling op id confirm reply =>
      (d.net.step (.call i ⟨p, op.request id confirm⟩)).map fun (net, _) =>
        (({ d with net, handlers := Function.update d.handlers i .entered } :
          Deployed P I N).setClerk p (.inCall op id confirm reply i), [])
    | _ => none
  | .network a =>
    if ofNetwork a then (d.net.step a).map fun (net, _) => ({ d with net }, []) else none
  | .run i =>
    match d.net.requests i with
    | some ⟨msg, _, .running⟩ =>
      (d.server.run msg.args (d.handlers i)).map fun (kv, handler) =>
        ({ d with server := kv, handlers := Function.update d.handlers i handler }, [])
    | _ => none
  | .ret i =>
    match d.handlers i with
    | .returned value =>
      (d.net.step (.own i (.handlerReturns value))).map fun (net, _) => ({ d with net }, [])
    | _ => none
  | .resume p =>
    match d.clerks p with
    | .inCall op id confirm reply i =>
      match (d.net.requests i).map Labrpc.Request.stage with
      | some (.answered none) => some (d.setClerk p (.calling op id confirm reply), [])
      | some (.answered (some value)) =>
        some (d.deliver p op id confirm (decodeReply reply value))
      | _ => none
    | _ => none

/-- The handler of the call has returned, or the server looks alive. -/
def KeepsHandler (sh : Labrpc.Shared P N Unit) (req : ClerkCall P N) : Prop :=
  match req.handler with
  | .running => req.Alive sh
  | _ => True

/-- No `Call` gives up on a handler that is still at work: when the time to look at the server
has come, the handler has returned or the server looks alive. -/
def NoneAbandoned (d : Deployed P I N) (a : DeployedAction P I N) : Prop :=
  ∀ i ∈ a.looksAt, ∀ req ∈ d.net.requests i, KeepsHandler d.net.shared req

instance decidableKeepsHandler (sh : Labrpc.Shared P N Unit) :
    (req : ClerkCall P N) → Decidable (KeepsHandler sh req)
  | ⟨msg, stage, .running⟩ =>
    inferInstanceAs (Decidable (Labrpc.Request.Alive sh ⟨msg, stage, .running⟩))
  | ⟨_, _, .unstarted⟩ | ⟨_, _, .returned _⟩ | ⟨_, _, .gone⟩ => isTrue trivial

instance decidableNoneAbandoned (d : Deployed P I N) (a : DeployedAction P I N) :
    Decidable (d.NoneAbandoned a) :=
  inferInstanceAs (Decidable (∀ i ∈ a.looksAt, ∀ req ∈ d.net.requests i,
    KeepsHandler d.net.shared req))

/-- What each action does, and what it needs. -/
inductive Takes (d : Deployed P I N) :
    DeployedAction P I N → Deployed P I N → List (ClerkEvent P) → Prop
  | invoke {p : P} {op : Op} {id : Int} (hp : d.clerks p = .idle) (hid : id ∉ d.used) :
      Takes d (.invoke p op id)
        { d.setClerk p (.calling op id false "") with used := id :: d.used } [.call p op]
  | call {p : P} {i : I} {op : Op} {id : Int} {confirm : Bool} {reply : String}
      (hp : d.clerks p = .calling op id confirm reply) (hi : d.net.requests i = none) :
      Takes d (.call p i)
        (({ d with
            net := d.net.setRequest i { msg := ⟨p, op.request id confirm⟩ }
            handlers := Function.update d.handlers i .entered } :
          Deployed P I N).setClerk p (.inCall op id confirm reply i)) []
  | own {i : I} {a : Labrpc.CallStep String} {req req' : ClerkCall P N}
      {es : List (Labrpc.CallEvent Unit String)} (ha : ∀ value, a ≠ .handlerReturns value)
      (hreq : d.net.requests i = some req) (hstep : req.Takes d.net.shared a req' es) :
      Takes d (.network (.own i a)) { d with net := d.net.setRequest i req' } []
  | network {a : NetAction P I N} {net : Net P I N} (hreq : net.requests = d.net.requests) :
      Takes d (.network a) { d with net } []
  | run {i : I} {req : ClerkCall P N} {kv : KVServer} {handler : Handler}
      (hreq : d.net.requests i = some req) (hrunning : req.handler = .running)
      (hrun : d.server.run req.msg.args (d.handlers i) = some (kv, handler)) :
      Takes d (.run i)
        { d with server := kv, handlers := Function.update d.handlers i handler } []
  | ret {i : I} {req : ClerkCall P N} {value : String}
      (hh : d.handlers i = .returned value) (hreq : d.net.requests i = some req)
      (hrunning : req.handler = .running) :
      Takes d (.ret i)
        { d with net := d.net.setRequest i { req with handler := .returned value } } []
  | failed {p : P} {i : I} {op : Op} {id : Int} {confirm : Bool} {reply : String}
      {req : ClerkCall P N}
      (hp : d.clerks p = .inCall op id confirm reply i) (hreq : d.net.requests i = some req)
      (hs : req.stage = .answered none) :
      Takes d (.resume p) (d.setClerk p (.calling op id confirm reply)) []
  | replied {p : P} {i : I} {op : Op} {id : Int} {confirm : Bool} {reply value : String}
      {req : ClerkCall P N}
      (hp : d.clerks p = .inCall op id confirm reply i) (hreq : d.net.requests i = some req)
      (hs : req.stage = .answered (some value)) :
      Takes d (.resume p) (d.deliver p op id confirm (decodeReply reply value)).1
        (d.deliver p op id confirm (decodeReply reply value)).2

variable {d d' : Deployed P I N} {es : List (ClerkEvent P)}

/-- The steps of the network are steps of one call or leave all calls as they are. -/
theorem network_takes {a : NetAction P I N} {net : Net P I N}
    {es : List (I × Labrpc.CallEvent Unit String)} (ha : ofNetwork a = true)
    (h : d.net.Takes a net es) : d.Takes (.network a) { d with net } [] := by
  cases h with
  | call _ => cases ha
  | @own i a req req' es hreq hstep =>
    refine .own ?_ hreq hstep
    rintro value rfl
    cases ha
  | setup _ => exact .network rfl
  | cleanup _ => exact .network rfl
  | stop _ => exact .network rfl

theorem step_takes {a : DeployedAction P I N} (hstep : d.step a = some (d', es)) :
    d.Takes a d' es := by
  cases a with
  | invoke p op id =>
    simp only [step] at hstep
    cases hp : d.clerks p with
    | idle =>
      simp only [hp] at hstep
      by_cases hid : id ∈ d.used
      · simp [hid] at hstep
      · rw [if_neg hid] at hstep
        cases hstep
        exact .invoke hp hid
    | calling op id confirm reply => simp [hp] at hstep
    | inCall op id confirm reply i => simp [hp] at hstep
  | call p i =>
    simp only [step] at hstep
    cases hp : d.clerks p with
    | idle => simp [hp] at hstep
    | calling op id confirm reply =>
      simp only [hp] at hstep
      obtain ⟨⟨net, es'⟩, hnet, heq⟩ := Option.map_eq_some_iff.mp hstep
      cases heq
      cases Labrpc.System.step_takes hnet with
      | call hi => exact .call hp hi
    | inCall op id confirm reply i => simp [hp] at hstep
  | network a =>
    simp only [step] at hstep
    by_cases ha : ofNetwork a = true
    · rw [if_pos ha] at hstep
      obtain ⟨⟨net, es'⟩, hnet, heq⟩ := Option.map_eq_some_iff.mp hstep
      cases heq
      exact network_takes ha (Labrpc.System.step_takes hnet)
    · simp [ha] at hstep
  | run i =>
    simp only [step] at hstep
    cases hreq : d.net.requests i with
    | none => simp [hreq] at hstep
    | some req =>
      obtain ⟨msg, stage, handler⟩ := req
      cases handler with
      | running =>
        simp only [hreq] at hstep
        obtain ⟨⟨kv, handler⟩, hrun, heq⟩ := Option.map_eq_some_iff.mp hstep
        cases heq
        exact .run hreq rfl hrun
      | unstarted => simp [hreq] at hstep
      | returned value => simp [hreq] at hstep
      | gone => simp [hreq] at hstep
  | ret i =>
    simp only [step] at hstep
    cases hh : d.handlers i with
    | returned value =>
      simp only [hh] at hstep
      obtain ⟨⟨net, es'⟩, hnet, heq⟩ := Option.map_eq_some_iff.mp hstep
      cases heq
      cases Labrpc.System.step_takes hnet with
      | own hreq htakes =>
        cases htakes with
        | handlerReturns hrunning => exact .ret hh hreq hrunning
    | entered => simp [hh] at hstep
    | read val => simp [hh] at hstep
    | missed => simp [hh] at hstep
  | resume p =>
    simp only [step] at hstep
    cases hp : d.clerks p with
    | idle => simp [hp] at hstep
    | calling op id confirm reply => simp [hp] at hstep
    | inCall op id confirm reply i =>
      simp only [hp] at hstep
      cases hreq : d.net.requests i with
      | none => simp [hreq] at hstep
      | some req =>
        simp only [hreq, Option.map_some] at hstep
        cases hs : req.stage with
        | answered result =>
          cases result with
          | none =>
            simp only [hs, Option.some.injEq, Prod.mk.injEq] at hstep
            obtain ⟨rfl, rfl⟩ := hstep
            exact .failed hp hreq hs
          | some value =>
            simp only [hs, Option.some.injEq] at hstep
            have hreplied := Takes.replied hp hreq hs
            rw [hstep] at hreplied
            exact hreplied
        | _ => simp [hs] at hstep

end Deployed

/-! ## What the plain network shows -/

/-- The part of a `Call` that the plain network shows: nothing before the request is dispatched,
and then the handler of the request. -/
inductive CallShows {N : Type} : Labrpc.Stage N Unit String → Labrpc.Handler String → Handler →
    Option Handler → Prop
  | early {stage : Labrpc.Stage N Unit String} (h : stage.Early) :
      CallShows stage .unstarted .entered none
  | lost {handler : Handler} : CallShows (.answered none) .unstarted handler none
  | running {target : Labrpc.Target N Unit} {handler : Handler} :
      CallShows (.waiting target) .running handler (some handler)
  | returned {stage : Labrpc.Stage N Unit String} {handler : Handler} {value : String}
      (h : (∃ target, stage = .waiting target) ∨ stage = .killed ∨ stage = .answered none) :
      CallShows stage (.returned value) handler (some (.returned value))
  | replied {target : Labrpc.Target N Unit} {handler : Handler} {value : String} :
      CallShows (.replied target value) .gone handler (some (.returned value))
  | reordered {handler : Handler} {value : String} :
      CallShows (.reordered value) .gone handler (some (.returned value))
  | answered {handler : Handler} {value : String} :
      CallShows (.answered (some value)) .gone handler (some (.returned value))
  | replyLost {stage : Labrpc.Stage N Unit String} {handler : Handler} {value : String}
      (h : stage = .killed ∨ stage = .answered none) :
      CallShows stage .gone handler (some (.returned value))

/-- The clerk with a handler that is at work for it, or with none. -/
def clerkWith (op : Op) (id : Int) (confirm : Bool) (reply : String) : Option Handler → Clerk
  | none => .calling op id confirm reply
  | some handler => .waiting op id confirm reply handler

section Simulation

variable {P I N : Type} {d d' : Deployed P I N} {k : System P}

/-- How clerk `p` looks on the plain network. -/
inductive ClerkShows (requests : I → Option (ClerkCall P N)) (handlers : I → Handler) (p : P) :
    NetClerk I → Clerk → Prop
  | idle : ClerkShows requests handlers p .idle .idle
  | calling {op : Op} {id : Int} {confirm : Bool} {reply : String} :
      ClerkShows requests handlers p (.calling op id confirm reply) (.calling op id confirm reply)
  | inCall {op : Op} {id : Int} {confirm : Bool} {reply : String} {i : I} {req : ClerkCall P N}
      {shown : Option Handler} (hreq : requests i = some req)
      (hmsg : req.msg = ⟨p, op.request id confirm⟩)
      (hshows : CallShows req.stage req.handler (handlers i) shown) :
      ClerkShows requests handlers p (.inCall op id confirm reply i)
        (clerkWith op id confirm reply shown)

/-- A call that no clerk waits for any more is over. -/
def Over (req : ClerkCall P N) : Prop :=
  (∃ result, req.stage = .answered result) ∧ req.handler ≠ .running

/-- Its clerk waits for the call. -/
def Owned (clerks : P → NetClerk I) (i : I) (req : ClerkCall P N) : Prop :=
  ∃ op id confirm reply, clerks req.msg.endname = .inCall op id confirm reply i

structure Shows (d : Deployed P I N) (k : System P) : Prop where
  server : k.server = d.server
  used : k.used = d.used
  clerks : ∀ p, ClerkShows d.net.requests d.handlers p (d.clerks p) (k.clerks p)
  owned : ∀ i req, d.net.requests i = some req → Owned d.clerks i req ∨ Over req

theorem shows_start : Shows (.start : Deployed P I N) .start :=
  ⟨rfl, rfl, fun _ => .idle, fun _ _ h => by cases h⟩

/-- A clerk sees only its own call. -/
theorem ClerkShows.frame {requests requests' : I → Option (ClerkCall P N)}
    {handlers handlers' : I → Handler} {p : P} {clerk : NetClerk I} {shown : Clerk}
    (h : ClerkShows requests handlers p clerk shown)
    (hcall : ∀ op id confirm reply i, clerk = .inCall op id confirm reply i →
      requests' i = requests i ∧ handlers' i = handlers i) :
    ClerkShows requests' handlers' p clerk shown := by
  cases h with
  | idle => exact .idle
  | calling => exact .calling
  | inCall hreq hmsg hshows =>
    obtain ⟨hsame, hhandler⟩ := hcall _ _ _ _ _ rfl
    exact .inCall (hsame.trans hreq) hmsg (by rwa [hhandler])

theorem ClerkShows.eq_idle {requests : I → Option (ClerkCall P N)} {handlers : I → Handler} {p : P}
    {shown : Clerk} (h : ClerkShows requests handlers p .idle shown) : shown = .idle := by
  cases h
  rfl

theorem ClerkShows.eq_calling {requests : I → Option (ClerkCall P N)} {handlers : I → Handler}
    {p : P} {shown : Clerk} {op : Op} {id : Int} {confirm : Bool} {reply : String}
    (h : ClerkShows requests handlers p (.calling op id confirm reply) shown) :
    shown = .calling op id confirm reply := by
  cases h
  rfl

theorem ClerkShows.exists_request {requests : I → Option (ClerkCall P N)} {handlers : I → Handler}
    {p : P} {shown : Clerk} {op : Op} {id : Int} {confirm : Bool} {reply : String} {i : I}
    (h : ClerkShows requests handlers p (.inCall op id confirm reply i) shown) :
    ∃ req, requests i = some req := by
  cases h with
  | inCall hreq _ _ => exact ⟨_, hreq⟩

theorem ClerkShows.of_inCall {requests : I → Option (ClerkCall P N)} {handlers : I → Handler}
    {p : P} {clerk : Clerk} {op : Op} {id : Int} {confirm : Bool} {reply : String} {i : I}
    {req : ClerkCall P N} (h : ClerkShows requests handlers p (.inCall op id confirm reply i) clerk)
    (hreq : requests i = some req) :
    req.msg = ⟨p, op.request id confirm⟩ ∧ ∃ shown,
      CallShows req.stage req.handler (handlers i) shown ∧
        clerk = clerkWith op id confirm reply shown := by
  cases h with
  | inCall hreq' hmsg hshows =>
    rw [hreq'] at hreq
    cases hreq
    exact ⟨hmsg, _, hshows, rfl⟩

/-- A handler that is at work shows. -/
theorem CallShows.eq_of_running {stage : Labrpc.Stage N Unit String} {handler : Handler}
    {shown : Option Handler} (h : CallShows stage .running handler shown) :
    (∃ target, stage = .waiting target) ∧ shown = some handler := by
  cases h with
  | running => exact ⟨⟨_, rfl⟩, rfl⟩

theorem CallShows.of_delayed {target : Labrpc.Target N Unit} {lab : Labrpc.Handler String}
    {handler : Handler} {shown : Option Handler}
    (h : CallShows (.delayed target : Labrpc.Stage N Unit String) lab handler shown) :
    handler = .entered ∧ shown = none := by
  cases h with
  | early _ => exact ⟨rfl, rfl⟩
  | returned hs => simp at hs
  | replyLost hs => simp at hs

/-- Once the `Call` has returned, what shows is the reply that it brings or has lost. -/
theorem CallShows.of_answered {lab : Labrpc.Handler String} {handler : Handler}
    {shown : Option Handler} {result : Option String}
    (h : CallShows (.answered result : Labrpc.Stage N Unit String) lab handler shown) :
    lab ≠ .running ∧ (result = none ∧ shown = none ∨
      ∃ value, (result = none ∨ result = some value) ∧ shown = some (.returned value)) := by
  cases h with
  | early hearly => exact hearly.elim
  | lost => exact ⟨nofun, Or.inl ⟨rfl, rfl⟩⟩
  | returned hs =>
    rcases hs with ⟨target, hs⟩ | hs | hs
    · cases hs
    · cases hs
    · cases hs
      exact ⟨nofun, Or.inr ⟨_, Or.inl rfl, rfl⟩⟩
  | answered => exact ⟨nofun, Or.inr ⟨_, Or.inr rfl, rfl⟩⟩
  | replyLost hs =>
    rcases hs with hs | hs
    · cases hs
    · cases hs
      exact ⟨nofun, Or.inr ⟨_, Or.inl rfl, rfl⟩⟩

variable {i : I} {req req' : ClerkCall P N} {handlers : I → Handler}

/-- The calls of a clerk that is not in a call are over. -/
theorem Shows.over (h : Shows d k) {p : P}
    (hp : ∀ op id confirm reply i, d.clerks p ≠ .inCall op id confirm reply i) {i : I}
    {req : ClerkCall P N} (hreq : d.net.requests i = some req) (hq : req.msg.endname = p) :
    Over req := by
  rcases h.owned i req hreq with ⟨op, id, confirm, reply, hown⟩ | hover
  · rw [hq] at hown
    exact absurd hown (hp op id confirm reply i)
  · exact hover

/-- Only the end that has sent the request is in the call. -/
theorem Shows.endname_eq (h : Shows d k) (hreq : d.net.requests i = some req) {q : P} {op : Op}
    {id : Int} {confirm : Bool} {reply : String}
    (hq : d.clerks q = .inCall op id confirm reply i) : req.msg.endname = q := by
  obtain ⟨hmsg, -⟩ := (hq ▸ h.clerks q).of_inCall hreq
  rw [hmsg]

/-- A handler that is at work is that of the call of a clerk, which shows it. -/
theorem Shows.of_running (h : Shows d k) (hreq : d.net.requests i = some req)
    (hrunning : req.handler = .running) :
    ∃ op id confirm reply target, d.clerks req.msg.endname = .inCall op id confirm reply i ∧
      req.msg.args = op.request id confirm ∧ req.stage = .waiting target ∧
      k.clerks req.msg.endname = .waiting op id confirm reply (d.handlers i) := by
  rcases h.owned i req hreq with ⟨op, id, confirm, reply, hp⟩ | ⟨-, hover⟩
  · obtain ⟨hmsg, shown, hshows, hk⟩ := (hp ▸ h.clerks req.msg.endname).of_inCall hreq
    rw [hrunning] at hshows
    obtain ⟨⟨target, hs⟩, rfl⟩ := hshows.eq_of_running
    refine ⟨op, id, confirm, reply, target, hp, ?_, hs, hk⟩
    rw [hmsg]
  · exact absurd hrunning hover

/-- When the `Call` of a clerk has returned, all its calls are over. -/
theorem Shows.over_of_answered (h : Shows d k) {p : P} {op : Op} {id : Int} {confirm : Bool}
    {reply : String} {result : Option String} (hp : d.clerks p = .inCall op id confirm reply i)
    (hreq : d.net.requests i = some req) (hs : req.stage = .answered result) {j : I}
    {req'' : ClerkCall P N} (hreq'' : d.net.requests j = some req'') (hq : req''.msg.endname = p) :
    Over req'' := by
  rcases h.owned j req'' hreq'' with ⟨op', id', confirm', reply', hown⟩ | hover
  · rw [hq, hp] at hown
    cases hown
    rw [hreq] at hreq''
    cases hreq''
    obtain ⟨-, shown, hshows, -⟩ := (hp ▸ h.clerks p).of_inCall hreq
    rw [hs] at hshows
    exact ⟨⟨result, hs⟩, hshows.of_answered.1⟩
  · exact hover

/-- The clerks that are not in call `i` do not see it change. -/
theorem Shows.clerk_frame [DecidableEq I] (h : Shows d k)
    (hhandlers : ∀ j, j ≠ i → handlers j = d.handlers j)
    {q : P} (hq : ∀ op id confirm reply, d.clerks q ≠ .inCall op id confirm reply i) :
    ClerkShows (d.net.setRequest i req').requests handlers q (d.clerks q) (k.clerks q) := by
  apply (h.clerks q).frame
  intro op id confirm reply j hclerk
  have hj : j ≠ i := by
    rintro rfl
    exact hq op id confirm reply hclerk
  exact ⟨Function.update_of_ne hj .., hhandlers j hj⟩

section Steps

variable [DecidableEq P] [DecidableEq N]

/-- A step of a call shows only if it is the dispatch of the request. -/
theorem CallShows.step {sh : Labrpc.Shared P N Unit} {req req' : ClerkCall P N}
    {a : Labrpc.CallStep String} {es : List (Labrpc.CallEvent Unit String)} {handler : Handler}
    {shown : Option Handler} (h : CallShows req.stage req.handler handler shown)
    (ha : ∀ value, a ≠ .handlerReturns value) (hdispatch : a ≠ .dispatch)
    (hok : a = .check → req.handler = .running → req.Alive sh) (hstep : req.Takes sh a req' es) :
    CallShows req'.stage req'.handler handler shown := by
  obtain ⟨msg, stage, lab⟩ := req
  cases hstep with
  | accept hs _ =>
    cases hs
    cases h with
    | early _ => exact .early trivial
    | returned hs => simp at hs
    | replyLost hs => simp at hs
  | abort hs _ =>
    cases hs
    cases h with
    | early _ => exact .lost
    | returned hs => simp at hs
    | replyLost hs => simp at hs
  | start hs =>
    cases hs
    cases h with
    | early _ => exact .early (Labrpc.EndInfo.early_stage _)
    | returned hs => simp at hs
    | replyLost hs => simp at hs
  | timeout hs =>
    cases hs
    cases h with
    | early _ => exact .lost
    | returned hs => simp at hs
    | replyLost hs => simp at hs
  | dropRequest hs _ =>
    cases hs
    cases h with
    | early _ => exact .lost
    | returned hs => simp at hs
    | replyLost hs => simp at hs
  | dispatch _ => exact absurd rfl hdispatch
  | handlerReturns _ => exact absurd rfl (ha _)
  | receive hs hh =>
    cases hs
    cases hh
    cases h with
    | returned _ => exact .replied
  | alive _ _ => exact h
  | kill hs hd =>
    cases hs
    cases h with
    | early hearly => exact hearly.elim
    | running => exact absurd hd (hok rfl rfl)
    | returned _ => exact .returned (Or.inr (Or.inl rfl))
    | replyLost hs => simp at hs
  | drain hs hh =>
    cases hh
    cases h with
    | returned hstage =>
      rcases hstage with ⟨target, hstage⟩ | hstage
      · cases hstage
        simp at hs
      · exact .replyLost hstage
  | late hs _ =>
    cases hs
    cases h with
    | early hearly => exact hearly.elim
    | returned hs => simp at hs
    | replied => exact .replyLost (Or.inr rfl)
    | replyLost hs => simp at hs
  | dropReply hs _ _ =>
    cases hs
    cases h with
    | early hearly => exact hearly.elim
    | returned hs => simp at hs
    | replied => exact .replyLost (Or.inr rfl)
    | replyLost hs => simp at hs
  | reorder hs _ _ =>
    cases hs
    cases h with
    | early hearly => exact hearly.elim
    | returned hs => simp at hs
    | replied => exact .reordered
    | replyLost hs => simp at hs
  | pass hs _ =>
    cases hs
    cases h with
    | early hearly => exact hearly.elim
    | returned hs => simp at hs
    | replied => exact .answered
    | replyLost hs => simp at hs
  | giveUp hs =>
    cases hs
    cases h with
    | early hearly => exact hearly.elim
    | returned _ => exact .returned (Or.inr (Or.inr rfl))
    | replyLost _ => exact .replyLost (Or.inr rfl)
  | deliver hs =>
    cases hs
    cases h with
    | early hearly => exact hearly.elim
    | returned hs => simp at hs
    | reordered => exact .answered
    | replyLost hs => simp at hs

/-- A call that is over stays over. -/
theorem Over.step {sh : Labrpc.Shared P N Unit} {req req' : ClerkCall P N}
    {a : Labrpc.CallStep String} {es : List (Labrpc.CallEvent Unit String)} (h : Over req)
    (hstep : req.Takes sh a req' es) : Over req' := by
  obtain ⟨⟨result, hresult⟩, hrunning⟩ := h
  cases hstep with
  | handlerReturns hh => exact absurd hh hrunning
  | drain _ _ => exact ⟨⟨result, hresult⟩, nofun⟩
  | accept hs _ | abort hs _ | start hs | timeout hs | dropRequest hs _ | dispatch hs | receive hs _
  | alive hs _ | kill hs _ | late hs _ | dropReply hs _ _ | reorder hs _ _ | pass hs _ | giveUp hs
  | deliver hs =>
    rw [hresult] at hs
    cases hs

end Steps

/-! ## The steps -/

section Clerks

variable [DecidableEq P]

/-- One clerk moves on. -/
theorem Shows.setClerk (h : Shows d k) {p : P} {clerk : NetClerk I} {shown : Clerk}
    (hp : ClerkShows d.net.requests d.handlers p clerk shown)
    (hcalls : ∀ i req, d.net.requests i = some req → req.msg.endname = p →
      (∃ op id confirm reply, clerk = .inCall op id confirm reply i) ∨ Over req) :
    Shows (d.setClerk p clerk) (k.setClerk p shown) := by
  refine ⟨h.server, h.used, ?_, ?_⟩
  · intro q
    by_cases hq : q = p
    · subst hq
      simp only [Deployed.setClerk, System.setClerk, Function.update_self]
      exact hp
    · simp only [Deployed.setClerk, System.setClerk, Function.update_of_ne hq]
      exact h.clerks q
  · intro i req hreq
    by_cases hq : req.msg.endname = p
    · rcases hcalls i req hreq hq with hown | hover
      · simp only [Owned, Deployed.setClerk, hq, Function.update_self]
        exact Or.inl hown
      · exact Or.inr hover
    · simp only [Owned, Deployed.setClerk, Function.update_of_ne hq]
      exact h.owned i req hreq

theorem Shows.invoke (h : Shows d k) {p : P} {op : Op} {id : Int} (hp : d.clerks p = .idle)
    (hid : id ∉ d.used) :
    ∃ k', Run System.step always k [.call p op] k' ∧
      Shows { d.setClerk p (.calling op id false "") with used := id :: d.used } k' := by
  have hk : k.clerks p = .idle := (hp ▸ h.clerks p).eq_idle
  have hstep : k.step (.invoke p op id) =
      some ({ k.setClerk p (.calling op id false "") with used := id :: k.used }, [.call p op]) := by
    simp only [System.step, hk, h.used, if_neg hid]
  have hset : Shows (d.setClerk p (.calling op id false "")) (k.setClerk p (.calling op id false "")) := by
    apply h.setClerk .calling
    intro i req hreq hq
    exact Or.inr (h.over (by simp [hp]) hreq hq)
  refine ⟨_, .single trivial hstep, hset.server, ?_, hset.clerks, hset.owned⟩
  exact congrArg (id :: ·) h.used

theorem Shows.failed (h : Shows d k) {p : P} {op : Op} {id : Int} {confirm : Bool} {reply : String}
    (hp : d.clerks p = .inCall op id confirm reply i) (hreq : d.net.requests i = some req)
    (hs : req.stage = .answered none) :
    ∃ k', Run System.step always k [] k' ∧
      Shows (d.setClerk p (.calling op id confirm reply)) k' := by
  have hnext : Shows (d.setClerk p (.calling op id confirm reply))
      (k.setClerk p (.calling op id confirm reply)) :=
    h.setClerk .calling fun j req'' hreq'' hq => Or.inr (h.over_of_answered hp hreq hs hreq'' hq)
  obtain ⟨-, shown, hshows, hk⟩ := (hp ▸ h.clerks p).of_inCall hreq
  rw [hs] at hshows
  rcases hshows.of_answered.2 with ⟨-, rfl⟩ | ⟨value, -, rfl⟩
  · -- the request was lost
    have hsame : k.setClerk p (.calling op id confirm reply) = k := by
      rw [show Clerk.calling op id confirm reply = k.clerks p from hk.symm]
      simp [System.setClerk]
    rw [hsame] at hnext
    exact ⟨k, .refl, hnext⟩
  · have hstep : k.step (.loseReply p) = some (k.setClerk p (.calling op id confirm reply), []) := by
      simp only [System.step, hk, clerkWith]
    exact ⟨_, .single trivial hstep, hnext⟩

theorem Shows.replied (h : Shows d k) {p : P} {op : Op} {id : Int} {confirm : Bool}
    {reply value : String} (hp : d.clerks p = .inCall op id confirm reply i)
    (hreq : d.net.requests i = some req) (hs : req.stage = .answered (some value)) :
    ∃ k', Run System.step always k (d.deliver p op id confirm (decodeReply reply value)).2 k' ∧
      Shows (d.deliver p op id confirm (decodeReply reply value)).1 k' := by
  obtain ⟨-, shown, hshows, hk⟩ := (hp ▸ h.clerks p).of_inCall hreq
  rw [hs] at hshows
  have hover : ∀ j req'', d.net.requests j = some req'' → req''.msg.endname = p → Over req'' :=
    fun j req'' hreq'' hq => h.over_of_answered hp hreq hs hreq'' hq
  rcases hshows.of_answered.2 with ⟨hnone, -⟩ | ⟨value', hvalue, rfl⟩
  · cases hnone
  · obtain rfl : value = value' := by simpa using hvalue
    have hstep : k.step (.deliver p) =
        some (k.deliver p op id confirm (decodeReply reply value)) := by
      simp only [System.step, hk, clerkWith]
    cases confirm with
    | true =>
      refine ⟨_, .single trivial hstep, ?_⟩
      exact h.setClerk .idle fun j req'' hreq'' hq => Or.inr (hover j req'' hreq'' hq)
    | false =>
      refine ⟨_, .single trivial hstep, ?_⟩
      exact h.setClerk .calling fun j req'' hreq'' hq => Or.inr (hover j req'' hreq'' hq)

variable [DecidableEq I]

/-- The call of a clerk goes on, and with it the server. -/
theorem Shows.advance (h : Shows d k) {p : P} {op : Op} {id : Int} {confirm : Bool}
    {reply : String} (hp : d.clerks p = .inCall op id confirm reply i)
    (hreq : d.net.requests i = some req) (hmsg : req'.msg = req.msg)
    (hhandlers : ∀ j, j ≠ i → handlers j = d.handlers j) {shown : Option Handler}
    (hshows : CallShows req'.stage req'.handler (handlers i) shown) (kv : KVServer) :
    Shows { d with net := d.net.setRequest i req', server := kv, handlers := handlers }
      (({ k with server := kv } : System P).setClerk p (clerkWith op id confirm reply shown)) := by
  have hself : (d.net.setRequest i req').requests i = some req' := Function.update_self ..
  have hend := h.endname_eq hreq hp
  refine ⟨rfl, h.used, ?_, ?_⟩
  · intro q
    by_cases hq : q = p
    · subst hq
      have hargs := ((hp ▸ h.clerks q).of_inCall hreq).1
      simp only [System.setClerk, Function.update_self, hp]
      exact .inCall hself (hmsg.trans hargs) hshows
    · simp only [System.setClerk, Function.update_of_ne hq]
      apply h.clerk_frame hhandlers
      intro op id confirm reply hclerk
      exact hq ((h.endname_eq hreq hclerk).symm.trans hend)
  · intro j req'' hreq''
    by_cases hj : j = i
    · subst hj
      rw [hself, Option.some.injEq] at hreq''
      left
      refine ⟨op, id, confirm, reply, ?_⟩
      rw [← hreq'', hmsg, hend]
      exact hp
    · exact h.owned j req'' ((Function.update_of_ne hj ..).symm.trans hreq'')

/-- The same, if nothing of it shows. -/
theorem Shows.advance_silent (h : Shows d k) {p : P} {op : Op} {id : Int} {confirm : Bool}
    {reply : String} (hp : d.clerks p = .inCall op id confirm reply i)
    (hreq : d.net.requests i = some req) (hmsg : req'.msg = req.msg)
    (hshows : ∀ shown, CallShows req.stage req.handler (d.handlers i) shown →
      CallShows req'.stage req'.handler (d.handlers i) shown) :
    Shows { d with net := d.net.setRequest i req' } k := by
  obtain ⟨-, shown, hbefore, hk⟩ := (hp ▸ h.clerks p).of_inCall hreq
  have hnext := h.advance hp hreq hmsg (fun _ _ => rfl) (hshows shown hbefore) d.server
  have hsame : ({ k with server := d.server } : System P).setClerk p
      (clerkWith op id confirm reply shown) = k := by
    rw [← hk, ← h.server]
    simp [System.setClerk]
  rw [hsame] at hnext
  exact hnext

theorem Shows.run (h : Shows d k) (hreq : d.net.requests i = some req)
    (hrunning : req.handler = .running) {kv : KVServer} {handler : Handler}
    (hrun : d.server.run req.msg.args (d.handlers i) = some (kv, handler)) :
    ∃ k', Run System.step always k [] k' ∧
      Shows { d with server := kv, handlers := Function.update d.handlers i handler } k' := by
  obtain ⟨op, id, confirm, reply, target, hp, hargs, hs, hk⟩ := h.of_running hreq hrunning
  have hstep : k.step (.run req.msg.endname) = some (({ k with server := kv } : System P).setClerk
      req.msg.endname (.waiting op id confirm reply handler), []) := by
    simp only [System.step, hk, h.server, ← hargs, hrun, Option.map_some]
  have hshows : CallShows req.stage req.handler (Function.update d.handlers i handler i)
      (some handler) := by
    rw [hs, hrunning, Function.update_self]
    exact .running
  have hnext := h.advance hp hreq rfl (fun j hj => Function.update_of_ne hj ..) hshows kv
  have hnet : d.net.setRequest i req = d.net := by
    rw [Labrpc.System.setRequest, ← hreq, Function.update_eq_self]
  rw [hnet] at hnext
  exact ⟨_, .single trivial hstep, hnext⟩

theorem Shows.ret (h : Shows d k) (hreq : d.net.requests i = some req)
    (hrunning : req.handler = .running) {value : String} (hh : d.handlers i = .returned value) :
    Shows { d with net := d.net.setRequest i { req with handler := .returned value } } k := by
  obtain ⟨op, id, confirm, reply, target, hp, -, hs, -⟩ := h.of_running hreq hrunning
  refine h.advance_silent hp hreq rfl ?_
  intro shown hshows
  rw [hrunning] at hshows
  obtain ⟨-, rfl⟩ := hshows.eq_of_running
  rw [hh]
  exact .returned (Or.inl ⟨target, hs⟩)

theorem Shows.call (h : Shows d k) {p : P} {op : Op} {id : Int} {confirm : Bool} {reply : String}
    (hp : d.clerks p = .calling op id confirm reply) (hi : d.net.requests i = none) :
    Shows (({ d with
        net := d.net.setRequest i { msg := ⟨p, op.request id confirm⟩ }
        handlers := Function.update d.handlers i .entered } :
      Deployed P I N).setClerk p (.inCall op id confirm reply i)) k := by
  have hk : k.clerks p = .calling op id confirm reply := (hp ▸ h.clerks p).eq_calling
  have hnew : ∀ q op id confirm reply, d.clerks q ≠ .inCall op id confirm reply i := by
    intro q op id confirm reply hclerk
    obtain ⟨req, hreq⟩ := (hclerk ▸ h.clerks q).exists_request
    rw [hi] at hreq
    cases hreq
  refine ⟨h.server, h.used, ?_, ?_⟩
  · intro q
    by_cases hq : q = p
    · subst hq
      have hself : (d.net.setRequest i { msg := ⟨q, op.request id confirm⟩ }).requests i =
          some { msg := ⟨q, op.request id confirm⟩ } := Function.update_self ..
      have hshows : CallShows (.sending : Labrpc.Stage N Unit String) .unstarted
          (Function.update d.handlers i .entered i) none := by
        rw [Function.update_self]
        exact .early trivial
      simp only [Deployed.setClerk, Function.update_self, hk]
      exact .inCall hself rfl hshows
    · simp only [Deployed.setClerk, Function.update_of_ne hq]
      exact h.clerk_frame (fun j hj => Function.update_of_ne hj ..) (hnew q)
  · intro j req hreq
    by_cases hj : j = i
    · subst hj
      have hself := hreq.symm.trans (Function.update_self ..)
      cases hself
      left
      refine ⟨op, id, confirm, reply, ?_⟩
      simp only [Deployed.setClerk, Function.update_self]
    · have hold : d.net.requests j = some req := (Function.update_of_ne hj ..).symm.trans hreq
      by_cases hq : req.msg.endname = p
      · exact Or.inr (h.over (by simp [hp]) hold hq)
      · simp only [Owned, Deployed.setClerk, Function.update_of_ne hq]
        exact h.owned j req hold

variable [DecidableEq N]

/-- A step of a call that no clerk waits for. -/
theorem Shows.own_over (h : Shows d k) (hreq : d.net.requests i = some req)
    (hown : ¬ Owned d.clerks i req) {sh : Labrpc.Shared P N Unit} {a : Labrpc.CallStep String}
    {es : List (Labrpc.CallEvent Unit String)} (hstep : req.Takes sh a req' es) :
    Shows { d with net := d.net.setRequest i req' } k := by
  refine ⟨h.server, h.used, ?_, ?_⟩
  · intro q
    apply h.clerk_frame fun _ _ => rfl
    intro op id confirm reply hclerk
    apply hown
    refine ⟨op, id, confirm, reply, ?_⟩
    rw [h.endname_eq hreq hclerk]
    exact hclerk
  · intro j req'' hreq''
    by_cases hj : j = i
    · subst hj
      rw [show (d.net.setRequest j req').requests j = some req' from Function.update_self ..,
        Option.some.injEq] at hreq''
      right
      rw [← hreq'']
      exact ((h.owned j req hreq).resolve_left hown).step hstep
    · exact h.owned j req'' ((Function.update_of_ne hj ..).symm.trans hreq'')

/-- A step that the network takes with call `i`, other than the dispatch. -/
theorem Shows.own (h : Shows d k) (hreq : d.net.requests i = some req)
    {a : Labrpc.CallStep String} {es : List (Labrpc.CallEvent Unit String)}
    (ha : ∀ value, a ≠ .handlerReturns value) (hdispatch : a ≠ .dispatch)
    (hok : d.NoneAbandoned (.network (.own i a))) (hstep : req.Takes d.net.shared a req' es) :
    Shows { d with net := d.net.setRequest i req' } k := by
  by_cases hown : Owned d.clerks i req
  · obtain ⟨op, id, confirm, reply, hp⟩ := hown
    apply h.advance_silent hp hreq hstep.msg_eq
    intro shown hshows
    apply hshows.step ha hdispatch _ hstep
    rintro rfl hrunning
    have halive := hok i rfl req hreq
    rw [Deployed.KeepsHandler, hrunning] at halive
    exact halive
  · exact h.own_over hreq hown hstep

theorem Shows.dispatch (h : Shows d k) (hreq : d.net.requests i = some req)
    {es : List (Labrpc.CallEvent Unit String)} (hstep : req.Takes d.net.shared .dispatch req' es) :
    ∃ k', Run System.step always k [] k' ∧ Shows { d with net := d.net.setRequest i req' } k' := by
  cases hstep with
  | @dispatch target hs =>
    rcases h.owned i req hreq with ⟨op, id, confirm, reply, hp⟩ | ⟨⟨result, hover⟩, -⟩
    · obtain ⟨-, shown, hbefore, hk⟩ := (hp ▸ h.clerks req.msg.endname).of_inCall hreq
      rw [hs] at hbefore
      obtain ⟨hentered, rfl⟩ := hbefore.of_delayed
      have hdispatch : k.step (.dispatch req.msg.endname) = some (k.setClerk req.msg.endname
          (.waiting op id confirm reply .entered), []) := by
        simp only [System.step, hk, clerkWith]
      have hshows : CallShows (.waiting target : Labrpc.Stage N Unit String) .running (d.handlers i)
          (some (d.handlers i)) := .running
      have hnext := h.advance hp hreq
        (rfl : ({ req with stage := .waiting target, handler := .running } : ClerkCall P N).msg = _)
        (fun _ _ => rfl) hshows d.server
      rw [hentered, ← h.server] at hnext
      exact ⟨_, .single trivial hdispatch, h.server ▸ hnext⟩
    · rw [hs] at hover
      cases hover

theorem Shows.step (h : Shows d k) {a : DeployedAction P I N} {es : List (ClerkEvent P)}
    (hok : d.NoneAbandoned a) (hstep : d.Takes a d' es) :
    ∃ k', Run System.step always k es k' ∧ Shows d' k' := by
  cases hstep with
  | invoke hp hid => exact h.invoke hp hid
  | call hp hi => exact ⟨k, .refl, h.call hp hi⟩
  | @own i a req req' es ha hreq hown =>
    by_cases hdispatch : a = .dispatch
    · subst hdispatch
      exact h.dispatch hreq hown
    · exact ⟨k, .refl, h.own hreq ha hdispatch hok hown⟩
  | network hreq =>
    refine ⟨k, .refl, h.server, h.used, ?_, ?_⟩
    · rw [hreq]
      exact h.clerks
    · rw [hreq]
      exact h.owned
  | run hreq hrunning hrun => exact h.run hreq hrunning hrun
  | ret hh hreq hrunning => exact ⟨k, .refl, h.ret hreq hrunning hh⟩
  | failed hp hreq hs => exact h.failed hp hreq hs
  | replied hp hreq hs => exact h.replied hp hreq hs

end Clerks

end Simulation

section Deployment

variable {P I N : Type} [DecidableEq P] [DecidableEq I] [DecidableEq N]
variable {d : Deployed P I N} {tr : List (ClerkEvent P)}

/-- The deployed service refines the clerks with the plain network: what the clerks see of a run
is what they see of a run there. -/
theorem deployed_refines (hrun : Run Deployed.step Deployed.NoneAbandoned .start tr d) :
    ∃ k, Run System.step always .start tr k ∧ Shows d k :=
  Run.simulates Shows shows_start
    (fun _ _ _ _ _ hshows hok hstep => hshows.step hok (Deployed.step_takes hstep)) hrun

/-- In every run in which no `Call` gives up on a handler that is still at work, the service on
the simulated network has the history and the server of a run of the clerks with the plain
network, and so it is linearizable. Requests and replies may be lost, delayed and reordered,
and the ends may be enabled, disabled and connected at any other time. -/
theorem kvsrv_over_labrpc_linearizable
    (hrun : Run Deployed.step Deployed.NoneAbandoned .start tr d) :
    (∃ k, Run System.step always .start tr k ∧ k.server = d.server) ∧
      Linearizable mapSpec tr d.server.kvMap := by
  obtain ⟨k, hplain, hshows⟩ := deployed_refines hrun
  obtain ⟨L, st, hw, -⟩ := simulates_run hplain
  refine ⟨⟨k, hplain, hshows.server⟩, ?_⟩
  rw [← hshows.server]
  exact hw.linearizable

end Deployment

/-- The network carries request `i` of clerk 0 to the server and its reply back. -/
def roundTrip (i : Nat) (sections : Nat) (fate : Labrpc.Fate) :
    List (DeployedAction Nat Nat Nat) :=
  [.call 0 i, .network (.own i .accept), .network (.own i .start), .network (.own i .dispatch)] ++
    List.replicate sections (.run i) ++
    [.network (.own i .check), .ret i, .network (.own i .receive), .network (.own i (.finish fate)),
      .resume 0]

/-- Clerk 0 appends on an unreliable network, which drops the first reply. -/
def appendOverNetwork : Deployed Nat Nat Nat × List (ClerkEvent Nat) :=
  reached Deployed.step Deployed.NoneAbandoned .start
    ([.network (.setup (.makeEnd 0)), .network (.setup (.addServer 5 ())),
        .network (.setup (.connect 0 5)), .network (.setup (.enable 0 true)),
        .network (.setup (.reliable false)), .invoke 0 (.append "x" "a") 7] ++
      roundTrip 0 2 .drop ++ roundTrip 1 1 .pass ++ roundTrip 2 1 .pass)

theorem kvsrv_over_labrpc_linearizable_append :
    Run Deployed.step Deployed.NoneAbandoned .start appendOverNetwork.2 appendOverNetwork.1 ∧
      appendOverNetwork.2 = [.call 0 (.append "x" "a"), .ret 0 (some "")] ∧
      (∃ k, Run System.step always .start appendOverNetwork.2 k ∧
        k.server = appendOverNetwork.1.server) ∧
      Linearizable mapSpec appendOverNetwork.2 appendOverNetwork.1.server.kvMap := by
  have hrun : Run Deployed.step Deployed.NoneAbandoned .start appendOverNetwork.2
      appendOverNetwork.1 := reached_run (by decide +kernel)
  exact ⟨hrun, by decide +kernel, kvsrv_over_labrpc_linearizable hrun⟩

end RaftImplementation.Kvsrv
