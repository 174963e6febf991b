import RaftImplementation.Labrpc.Network

/-!
# What a call can come to

The contract of `Call` as the head of `labrpc.go` states it: a `Call` that returns true has had
its request executed and brings the reply of that execution, and a `Call` returns unless the
handler does not. A request is dispatched at most once, and a `Call` that returns false may
have had its request executed, or may even have its handler still at work: the last only if
the end was disabled or the server deleted in between.
-/

namespace RaftImplementation.Labrpc

open Library

variable {I E N S Q R : Type}

/-! ## The events of one call -/

/-- All that the events of one call can be. -/
inductive CallHistory : List (CallEvent S R) → Prop
  | unborn : CallHistory []
  | called : CallHistory [.called]
  | lost : CallHistory [.called, .answered none]
  | running (server : S) : CallHistory [.called, .dispatched server]
  | abandoned (server : S) : CallHistory [.called, .dispatched server, .answered none]
  | late (server : S) (reply : R) :
      CallHistory [.called, .dispatched server, .answered none, .returned reply]
  | returned (server : S) (reply : R) :
      CallHistory [.called, .dispatched server, .returned reply]
  | replyLost (server : S) (reply : R) :
      CallHistory [.called, .dispatched server, .returned reply, .answered none]
  | replied (server : S) (reply : R) :
      CallHistory [.called, .dispatched server, .returned reply, .answered (some reply)]

/-- The stages before the handler is started. -/
def Stage.Early : Stage N S R → Prop
  | .sending => True
  | .accepted => True
  | .refused => True
  | .delayed _ => True
  | _ => False

/-- Where a call is after its events so far. -/
inductive Life : Stage N S R → Handler R → List (CallEvent S R) → Prop
  | early {stage : Stage N S R} (h : stage.Early) : Life stage .unstarted [.called]
  | lost : Life (.answered none) .unstarted [.called, .answered none]
  | waiting {target : Target N S} {server : S} :
      Life (.waiting target) .running [.called, .dispatched server]
  | killed {server : S} : Life .killed .running [.called, .dispatched server]
  | abandoned {server : S} :
      Life (.answered none) .running [.called, .dispatched server, .answered none]
  | late {server : S} {reply : R} {handler : Handler R}
      (h : handler = .returned reply ∨ handler = .gone) :
      Life (.answered none) handler [.called, .dispatched server, .answered none, .returned reply]
  | returned {target : Target N S} {server : S} {reply : R} :
      Life (.waiting target) (.returned reply) [.called, .dispatched server, .returned reply]
  | killedLate {server : S} {reply : R} {handler : Handler R}
      (h : handler = .returned reply ∨ handler = .gone) :
      Life .killed handler [.called, .dispatched server, .returned reply]
  | replied {target : Target N S} {server : S} {reply : R} :
      Life (.replied target reply) .gone [.called, .dispatched server, .returned reply]
  | reordered {server : S} {reply : R} :
      Life (.reordered reply) .gone [.called, .dispatched server, .returned reply]
  | replyLost {server : S} {reply : R} {handler : Handler R}
      (h : handler = .returned reply ∨ handler = .gone) :
      Life (.answered none) handler
        [.called, .dispatched server, .returned reply, .answered none]
  | answered {server : S} {reply : R} :
      Life (.answered (some reply)) .gone
        [.called, .dispatched server, .returned reply, .answered (some reply)]

theorem EndInfo.early_stage (info : EndInfo N S) : (info.stage : Stage N S R).Early := by
  obtain ⟨enabled, servername, server, reliable, longreordering⟩ := info
  cases enabled with
  | false => trivial
  | true =>
    cases servername with
    | none => trivial
    | some servername =>
      cases server with
      | none => trivial
      | some server => trivial

variable {sh : Shared E N S} {req req' : Request E N S Q R} {es es' : List (CallEvent S R)}

theorem Life.history {stage : Stage N S R} {handler : Handler R} (h : Life stage handler es) :
    CallHistory es := by
  cases h with
  | early _ => exact .called
  | lost => exact .lost
  | waiting => exact .running _
  | killed => exact .running _
  | abandoned => exact .abandoned _
  | late _ => exact .late _ _
  | returned => exact .returned _ _
  | killedLate _ => exact .returned _ _
  | replied => exact .returned _ _
  | reordered => exact .returned _ _
  | replyLost _ => exact .replyLost _ _
  | answered => exact .replied _ _

theorem Life.events_early {stage : Stage N S R} {handler : Handler R} (h : Life stage handler es)
    (hearly : stage.Early) : es = [.called] := by
  cases h with
  | early _ => rfl
  | _ => exact hearly.elim

theorem Life.events_of_reply {stage : Stage N S R} {handler : Handler R} {reply : R}
    (h : Life stage handler es)
    (hreply : (∃ target, stage = .replied target reply) ∨ stage = .reordered reply) :
    ∃ server, es = [.called, .dispatched server, .returned reply] := by
  rcases hreply with ⟨target, rfl⟩ | rfl
  · cases h with
    | early hearly => exact hearly.elim
    | replied => exact ⟨_, rfl⟩
  · cases h with
    | early hearly => exact hearly.elim
    | reordered => exact ⟨_, rfl⟩

/-- The events of a call that has returned and left nothing behind. -/
inductive Settled : List (CallEvent S R) → Prop
  | lost : Settled [.called, .answered none]
  | executed (server : S) (reply : R) (result : Option R) (h : result = none ∨ result = some reply) :
      Settled [.called, .dispatched server, .returned reply, .answered result]

theorem Life.not_settled {stage : Stage N S R} (h : Life stage .running es) : ¬ Settled es := by
  cases h with
  | waiting => exact fun h => nomatch h
  | killed => exact fun h => nomatch h
  | abandoned => exact fun h => nomatch h
  | late h => simp at h
  | killedLate h => simp at h
  | replyLost h => simp at h

theorem Life.answered_of_mem {stage : Stage N S R} {handler : Handler R} {result : Option R}
    (h : Life stage handler es) (hmem : .answered result ∈ es) : stage = .answered result := by
  cases h with
  | early _ => simp at hmem
  | waiting => simp at hmem
  | killed => simp at hmem
  | returned => simp at hmem
  | killedLate _ => simp at hmem
  | replied => simp at hmem
  | reordered => simp at hmem
  | lost =>
    simp at hmem
    rw [hmem]
  | abandoned =>
    simp at hmem
    rw [hmem]
  | late _ =>
    simp at hmem
    rw [hmem]
  | replyLost _ =>
    simp at hmem
    rw [hmem]
  | answered =>
    simp at hmem
    rw [hmem]

/-- An upper bound of the steps that a `Call` still has to make. -/
def Stage.rank : Stage N S R → Nat
  | .sending => 6
  | .accepted => 5
  | .refused => 4
  | .delayed _ => 4
  | .waiting _ => 3
  | .replied _ _ => 2
  | .killed => 1
  | .reordered _ => 1
  | .answered _ => 0

def Handler.rank : Handler R → Nat
  | .unstarted => 2
  | .running => 2
  | .returned _ => 1
  | .gone => 0

def Request.rank (req : Request E N S Q R) : Nat := req.stage.rank + req.handler.rank

def CallStep.isCheck : CallStep R → Bool
  | .check => true
  | _ => false

section Steps

variable [DecidableEq E] [DecidableEq N] [DecidableEq S]

theorem Life.step (h : Life req.stage req.handler es) {a : CallStep R}
    (hstep : req.Takes sh a req' es') : Life req'.stage req'.handler (es ++ es') := by
  obtain ⟨msg, stage, handler⟩ := req
  cases hstep with
  | accept hs _ =>
    cases hs
    cases h
    exact .early trivial
  | abort hs _ =>
    cases hs
    cases h
    exact .lost
  | start hs =>
    cases hs
    cases h
    exact .early (EndInfo.early_stage _)
  | timeout hs =>
    cases hs
    cases h
    exact .lost
  | dropRequest hs _ =>
    cases hs
    cases h
    exact .lost
  | dispatch hs =>
    cases hs
    cases h
    exact .waiting
  | handlerReturns hh =>
    cases hh
    cases h with
    | waiting => exact .returned
    | killed => exact .killedLate (Or.inl rfl)
    | abandoned => exact .late (Or.inl rfl)
    | late h => simp at h
    | killedLate h => simp at h
    | replyLost h => simp at h
  | receive hs hh =>
    cases hs
    cases hh
    cases h
    exact .replied
  | alive hs _ =>
    rw [List.append_nil]
    exact h
  | kill hs _ =>
    cases hs
    cases h with
    | early hearly => exact hearly.elim
    | waiting => exact .killed
    | returned => exact .killedLate (Or.inl rfl)
  | drain hs hh =>
    cases hh
    rw [List.append_nil]
    rcases hs with hs | ⟨result, hs⟩
    · cases hs
      cases h
      exact .killedLate (Or.inr rfl)
    · cases hs
      cases h with
      | late _ => exact .late (Or.inr rfl)
      | replyLost _ => exact .replyLost (Or.inr rfl)
  | late hs _ =>
    cases hs
    cases h with
    | early hearly => exact hearly.elim
    | replied => exact .replyLost (Or.inr rfl)
  | dropReply hs _ _ =>
    cases hs
    cases h with
    | early hearly => exact hearly.elim
    | replied => exact .replyLost (Or.inr rfl)
  | reorder hs _ _ =>
    cases hs
    cases h with
    | early hearly => exact hearly.elim
    | replied => exact .reordered
  | pass hs _ =>
    cases hs
    cases h with
    | early hearly => exact hearly.elim
    | replied => exact .answered
  | giveUp hs =>
    cases hs
    cases h with
    | early hearly => exact hearly.elim
    | killed => exact .abandoned
    | killedLate hh => exact .replyLost hh
  | deliver hs =>
    cases hs
    cases h with
    | early hearly => exact hearly.elim
    | reordered => exact .answered

/-- If the call waits for its handler, its end is enabled and its server registered. -/
def Request.Alive (sh : Shared E N S) (req : Request E N S Q R) : Prop :=
  match req.stage with
  | .waiting target => ¬ req.Dead sh target
  | _ => True

instance decidableDead (sh : Shared E N S) (req : Request E N S Q R) (target : Target N S) :
    Decidable (req.Dead sh target) :=
  inferInstanceAs (Decidable (sh.net.isServerDead req.msg.endname target.servername target.server =
    true))

instance decidableAlive (sh : Shared E N S) : (req : Request E N S Q R) → Decidable (req.Alive sh)
  | ⟨_, .waiting _, _⟩ => inferInstanceAs (Decidable (¬ Request.Dead sh _ _))
  | ⟨_, .sending, _⟩ | ⟨_, .accepted, _⟩ | ⟨_, .refused, _⟩ | ⟨_, .delayed _, _⟩
  | ⟨_, .replied _ _, _⟩ | ⟨_, .killed, _⟩ | ⟨_, .reordered _, _⟩ | ⟨_, .answered _, _⟩ =>
    isTrue trivial

/-- A life in which the server never looked dead. -/
structure CleanLife (req : Request E N S Q R) (es : List (CallEvent S R)) : Prop where
  life : Life req.stage req.handler es
  alive : req.stage ≠ .killed
  settled : ∀ result, req.stage = .answered result → Settled es

theorem CleanLife.step {a : CallStep R} (h : CleanLife req es) (halive : req.Alive sh)
    (hstep : req.Takes sh a req' es') : CleanLife req' (es ++ es') := by
  have hlife := h.life.step hstep
  have hlost : req.stage.Early → Settled (es ++ [.answered none]) := by
    intro hearly
    rw [h.life.events_early hearly]
    exact .lost
  have hexecuted : ∀ reply result, (∃ target, req.stage = .replied target reply) ∨
      req.stage = .reordered reply → result = none ∨ result = some reply →
      Settled (es ++ [.answered result]) := by
    intro reply result hreply hresult
    obtain ⟨server, rfl⟩ := h.life.events_of_reply hreply
    exact .executed server reply result hresult
  cases hstep with
  | accept _ _ => exact ⟨hlife, nofun, nofun⟩
  | abort hs _ => exact ⟨hlife, nofun, fun _ _ => hlost (by rw [hs]; trivial)⟩
  | start _ =>
    have hearly := EndInfo.early_stage (R := R) (sh.net.readEndnameInfo req.msg.endname)
    refine ⟨hlife, ?_, ?_⟩
    · intro heq
      rw [show (EndInfo.stage _ : Stage N S R) = _ from heq] at hearly
      exact hearly
    · intro result heq
      rw [show (EndInfo.stage _ : Stage N S R) = _ from heq] at hearly
      exact hearly.elim
  | timeout hs => exact ⟨hlife, nofun, fun _ _ => hlost (by rw [hs]; trivial)⟩
  | dropRequest hs _ => exact ⟨hlife, nofun, fun _ _ => hlost (by rw [hs]; trivial)⟩
  | dispatch _ => exact ⟨hlife, nofun, nofun⟩
  | handlerReturns hh =>
    refine ⟨hlife, h.alive, ?_⟩
    intro result hresult
    -- the handler of a call that has returned would have been left behind
    have hrunning := h.life
    rw [hh] at hrunning
    exact absurd (h.settled result hresult) hrunning.not_settled
  | receive _ _ => exact ⟨hlife, nofun, nofun⟩
  | alive _ _ =>
    rw [List.append_nil]
    exact h
  | kill hs hd =>
    rw [Request.Alive, hs] at halive
    exact absurd hd halive
  | drain _ _ =>
    refine ⟨hlife, h.alive, ?_⟩
    rw [List.append_nil]
    exact h.settled
  | late hs _ => exact ⟨hlife, nofun, fun _ _ => hexecuted _ _ (Or.inl ⟨_, hs⟩) (Or.inl rfl)⟩
  | dropReply hs _ _ =>
    exact ⟨hlife, nofun, fun _ _ => hexecuted _ _ (Or.inl ⟨_, hs⟩) (Or.inl rfl)⟩
  | reorder _ _ _ => exact ⟨hlife, nofun, nofun⟩
  | pass hs _ => exact ⟨hlife, nofun, fun _ _ => hexecuted _ _ (Or.inl ⟨_, hs⟩) (Or.inr rfl)⟩
  | giveUp hs => exact absurd hs h.alive
  | deliver hs => exact ⟨hlife, nofun, fun _ _ => hexecuted _ _ (Or.inr hs) (Or.inr rfl)⟩

/-! ## A server that can be reached all the time -/

/-- The network is not cleaned up, and a request from the end goes to the server reliably. -/
def Shared.Serves (sh : Shared E N S) (endname : E) (servername : N) (server : S) : Prop :=
  sh.done = false ∧ sh.net.readEndnameInfo endname =
    ⟨true, some servername, some server, true, sh.net.longReordering⟩

instance decidableServes (sh : Shared E N S) (endname : E) (servername : N) (server : S) :
    Decidable (sh.Serves endname servername server) :=
  inferInstanceAs (Decidable (_ ∧ _))

theorem Shared.Serves.not_dead {endname : E} {servername : N} {server : S}
    (h : sh.Serves endname servername server) :
    sh.net.isServerDead endname servername server = false := by
  obtain ⟨-, hinfo⟩ := h
  simp only [Network.readEndnameInfo, EndInfo.mk.injEq] at hinfo
  obtain ⟨henabled, hname, hserver, -⟩ := hinfo
  rw [hname, Option.bind_some] at hserver
  simp [Network.isServerDead, henabled, hserver]

def Stage.Pending : Stage N S R → Prop
  | .answered _ => False
  | _ => True

instance decidablePending : (stage : Stage N S R) → Decidable stage.Pending
  | .answered _ => isFalse id
  | .sending | .accepted | .refused | .delayed _ | .waiting _ | .replied _ _ | .killed
  | .reordered _ => isTrue trivial

/-- The stages of a call that is on its way to the server, at it, or back with a reply. -/
def Stage.ServedBy (servername : N) (server : S) : Stage N S R → Prop
  | .sending => True
  | .accepted => True
  | .delayed target => target = ⟨servername, server, true, target.longreordering⟩
  | .waiting target => target = ⟨servername, server, true, target.longreordering⟩
  | .replied target _ => target = ⟨servername, server, true, target.longreordering⟩
  | .reordered _ => True
  | .answered result => result.isSome = true
  | .refused => False
  | .killed => False

structure ServedLife (servername : N) (server : S) (req : Request E N S Q R)
    (es : List (CallEvent S R)) : Prop where
  stage : req.stage.ServedBy servername server
  answers : .answered none ∉ es
  dispatches : ∀ server', .dispatched server' ∈ es → server' = server

theorem ServedLife.step {servername : N} {server : S} {a : CallStep R}
    (h : ServedLife servername server req es)
    (hserves : req.stage.Pending → sh.Serves req.msg.endname servername server)
    (hstep : req.Takes sh a req' es') : ServedLife servername server req' (es ++ es') := by
  have hstage := h.stage
  -- a step without events into a stage of the kind
  have hquiet : ∀ req'' : Request E N S Q R, req''.stage.ServedBy servername server →
      ServedLife servername server req'' (es ++ []) := by
    intro req'' hstage''
    rw [List.append_nil]
    exact ⟨hstage'', h.answers, h.dispatches⟩
  have hanswer : ∀ reply, ServedLife servername server
      { req with stage := .answered (some reply) } (es ++ [.answered (some reply)]) := by
    intro reply
    refine ⟨rfl, by simpa using h.answers, ?_⟩
    intro server' hmem
    exact h.dispatches server' (by simpa using hmem)
  cases hstep with
  | accept _ _ => exact hquiet _ trivial
  | abort hs hd =>
    have hserved := hserves (by rw [hs]; trivial)
    exact absurd hd (by rw [hserved.1]; simp)
  | start hs =>
    have hserved := hserves (by rw [hs]; trivial)
    apply hquiet
    simp only [hserved.2]
    rfl
  | timeout hs =>
    rw [hs] at hstage
    exact hstage.elim
  | dropRequest hs hr =>
    rw [hs] at hstage
    rw [show _ = _ from hstage] at hr
    cases hr
  | dispatch hs =>
    rw [hs] at hstage
    refine ⟨hstage, by simpa using h.answers, ?_⟩
    intro server' hmem
    rcases List.mem_append.mp hmem with hmem | hmem
    · exact h.dispatches server' hmem
    · rw [List.mem_singleton, CallEvent.dispatched.injEq] at hmem
      rw [hmem, show _ = _ from hstage]
  | handlerReturns _ =>
    refine ⟨hstage, by simpa using h.answers, ?_⟩
    intro server' hmem
    exact h.dispatches server' (by simpa using hmem)
  | receive hs _ =>
    rw [hs] at hstage
    exact hquiet _ hstage
  | alive _ _ => exact hquiet _ hstage
  | kill hs hd =>
    have hserved := hserves (by rw [hs]; trivial)
    rw [hs] at hstage
    rw [Request.Dead, show _ = _ from hstage, hserved.not_dead] at hd
    cases hd
  | drain _ _ => exact hquiet _ hstage
  | late hs hd =>
    have hserved := hserves (by rw [hs]; trivial)
    rw [hs] at hstage
    rw [Request.Dead, show _ = _ from hstage, hserved.not_dead] at hd
    cases hd
  | dropReply hs _ hr =>
    rw [hs] at hstage
    rw [show _ = _ from hstage] at hr
    cases hr
  | reorder _ _ _ => exact hquiet _ trivial
  | pass _ _ => exact hanswer _
  | giveUp hs =>
    rw [hs] at hstage
    exact hstage.elim
  | deliver _ => exact hanswer _

/-! ## A server that is gone -/

/-- The call goes to this server and has not been decided. -/
def Stage.Targets (servername : N) (server : S) : Stage N S R → Prop
  | .delayed target => target.servername = servername ∧ target.server = server
  | .waiting target => target.servername = servername ∧ target.server = server
  | .replied target _ => target.servername = servername ∧ target.server = server
  | _ => False

structure DoomedLife (servername : N) (server : S) (req : Request E N S Q R)
    (es : List (CallEvent S R)) : Prop where
  stage : req.stage.Targets servername server ∨ req.stage = .killed ∨ req.stage = .answered none
  answers : ∀ reply, .answered (some reply) ∉ es

theorem Request.dead_of_gone {servername : N} {server : S} {target : Target N S}
    (hgone : (sh.net.servers.lookup servername).join ≠ some server)
    (htarget : target.servername = servername ∧ target.server = server) : req.Dead sh target := by
  obtain ⟨rfl, rfl⟩ := htarget
  simp [Request.Dead, Network.isServerDead, hgone]

theorem DoomedLife.step {servername : N} {server : S} {a : CallStep R}
    (h : DoomedLife servername server req es)
    (hgone : (sh.net.servers.lookup servername).join ≠ some server)
    (hstep : req.Takes sh a req' es') : DoomedLife servername server req' (es ++ es') := by
  obtain ⟨hstage, hanswers⟩ := h
  have hfail : ∀ req'' : Request E N S Q R, req''.stage = .answered none →
      DoomedLife servername server req'' (es ++ [.answered none]) := by
    intro req'' hnone
    exact ⟨Or.inr (Or.inr hnone), fun reply hmem => hanswers reply (by simpa using hmem)⟩
  cases hstep with
  | accept hs _ => simp [hs, Stage.Targets] at hstage
  | abort _ _ => exact hfail _ rfl
  | start hs => simp [hs, Stage.Targets] at hstage
  | timeout _ => exact hfail _ rfl
  | dropRequest _ _ => exact hfail _ rfl
  | dispatch hs =>
    simp only [hs, Stage.Targets, reduceCtorEq, or_false] at hstage
    exact ⟨Or.inl hstage, fun reply hmem => hanswers reply (by simpa using hmem)⟩
  | handlerReturns _ => exact ⟨hstage, fun reply hmem => hanswers reply (by simpa using hmem)⟩
  | receive hs _ =>
    simp only [hs, Stage.Targets, reduceCtorEq, or_false] at hstage
    rw [List.append_nil]
    exact ⟨Or.inl hstage, hanswers⟩
  | alive _ _ =>
    rw [List.append_nil]
    exact ⟨hstage, hanswers⟩
  | kill _ _ =>
    rw [List.append_nil]
    exact ⟨Or.inr (Or.inl rfl), hanswers⟩
  | drain _ _ =>
    rw [List.append_nil]
    exact ⟨hstage, hanswers⟩
  | late _ _ => exact hfail _ rfl
  | dropReply _ _ _ => exact hfail _ rfl
  | reorder hs hd _ =>
    simp only [hs, Stage.Targets, reduceCtorEq, or_false] at hstage
    exact absurd (Request.dead_of_gone hgone hstage) hd
  | pass hs hd =>
    simp only [hs, Stage.Targets, reduceCtorEq, or_false] at hstage
    exact absurd (Request.dead_of_gone hgone hstage) hd
  | giveUp _ => exact hfail _ rfl
  | deliver hs => simp [hs, Stage.Targets] at hstage

/-! ## Progress -/

end Steps

/-! ## Runs -/

/-- What holds of a call if it is there; otherwise it has no events. -/
def IfThere (Inv : Request E N S Q R → List (CallEvent S R) → Prop) :
    Option (Request E N S Q R) → List (CallEvent S R) → Prop
  | none, es => es = []
  | some req, es => Inv req es

/-! ### A network with one end and one server -/

abbrev SmallAction := Action Nat Nat Nat Nat Unit Nat

abbrev SmallSystem := System Nat Nat Nat Nat Unit Nat

/-- End 0 is connected to server 1, which is registered under the name 7; then it calls. -/
def connectAndCall : List SmallAction :=
  [.setup (.makeEnd 0), .setup (.addServer 7 1), .setup (.connect 0 7), .setup (.enable 0 true),
    .call 0 ⟨0, ()⟩, .own 0 .accept, .own 0 .start, .own 0 .dispatch]

/-- The handler returns 5, which `processReq` passes on. -/
def passReply : List SmallAction :=
  [.own 0 (.handlerReturns 5), .own 0 .receive, .own 0 (.finish .pass)]

section Runs

variable [DecidableEq I] [DecidableEq E] [DecidableEq N] [DecidableEq S]
variable {ok : System I E N S Q R → Action I E N S Q R → Prop}
variable {s₀ s : System I E N S Q R} {tr : List (I × CallEvent S R)} {i : I}

theorem ifThere_run {Inv : Request E N S Q R → List (CallEvent S R) → Prop}
    (hcall : ∀ msg, Inv { msg } [.called])
    (hstep : ∀ s a req req' es es', ok s (.own i a) → s.requests i = some req →
      Inv req es → req.Takes s.shared a req' es' → Inv req' (es ++ es'))
    (hrun : Run System.step ok .start tr s) : IfThere Inv (s.requests i) (eventsOf i tr) := by
  refine invariant_call ?_ ?_ hstep hrun
  · exact rfl
  · intro msg es hes
    rw [show es = [] from hes]
    exact hcall msg

theorem life_run (hrun : Run System.step ok .start tr s) (i : I) :
    IfThere (fun req es => Life req.stage req.handler es) (s.requests i) (eventsOf i tr) :=
  ifThere_run (fun _ => .early trivial) (fun _ _ _ _ _ _ _ _ hlife hstep => hlife.step hstep) hrun

/-- In every run the events of every call are one of nine lists. In particular a request is
dispatched at most once, a call returns at most once, and a call that returns true brings the
reply with which the one execution of its request has returned before. -/
theorem call_history (hrun : Run System.step always .start tr s) (i : I) :
    CallHistory (eventsOf i tr) := by
  have hlife := life_run hrun i
  cases hreq : s.requests i with
  | none =>
    rw [hreq] at hlife
    rw [show eventsOf i tr = [] from hlife]
    exact .unborn
  | some req =>
    rw [hreq] at hlife
    exact Life.history hlife

/-- While call `i` waits for its handler, its end is enabled and its server registered. -/
def StaysAlive (i : I) (s : System I E N S Q R) (_ : Action I E N S Q R) : Prop :=
  ∀ req ∈ s.requests i, req.Alive s.shared

instance decidableStaysAlive (i : I) (s : System I E N S Q R) (a : Action I E N S Q R) :
    Decidable (StaysAlive i s a) :=
  inferInstanceAs (Decidable (∀ req ∈ s.requests i, req.Alive s.shared))

theorem cleanLife_run (hrun : Run System.step (StaysAlive i) .start tr s) :
    IfThere CleanLife (s.requests i) (eventsOf i tr) := by
  refine ifThere_run ?_ ?_ hrun
  · intro msg
    exact ⟨.early trivial, nofun, nofun⟩
  · intro s a req req' es es' hok hreq hclean hstep
    exact hclean.step (hok req hreq) hstep

/-- If the end stays enabled and the server registered while a call waits for its handler, then
once the call has returned its request has never been dispatched, or its handler has returned
before: nothing of it is left at work. -/
theorem nothing_left_behind (hrun : Run System.step (StaysAlive i) .start tr s)
    {result : Option R} (hanswered : .answered result ∈ eventsOf i tr) :
    Settled (eventsOf i tr) := by
  have hclean := cleanLife_run hrun
  cases hreq : s.requests i with
  | none =>
    rw [hreq] at hclean
    rw [show eventsOf i tr = [] from hclean] at hanswered
    cases hanswered
  | some req =>
    rw [hreq] at hclean
    exact hclean.settled result (hclean.life.answered_of_mem hanswered)

/-- While call `i` is in progress, requests from its end go to the server reliably. -/
def StaysServed (i : I) (servername : N) (server : S) (s : System I E N S Q R)
    (_ : Action I E N S Q R) : Prop :=
  ∀ req ∈ s.requests i, req.stage.Pending → s.shared.Serves req.msg.endname servername server

instance decidableStaysServed (i : I) (servername : N) (server : S) (s : System I E N S Q R)
    (a : Action I E N S Q R) : Decidable (StaysServed i servername server s a) :=
  inferInstanceAs (Decidable (∀ req ∈ s.requests i, req.stage.Pending →
    s.shared.Serves req.msg.endname servername server))

/-- On a reliable network a call to a server that stays connected never fails, and it is this
server that executes the request. -/
theorem reliable_call_never_fails {servername : N} {server : S}
    (hrun : Run System.step (StaysServed i servername server) .start tr s) :
    .answered none ∉ eventsOf i tr ∧
      ∀ server', .dispatched server' ∈ eventsOf i tr → server' = server := by
  have hserved : IfThere (ServedLife servername server) (s.requests i) (eventsOf i tr) := by
    refine ifThere_run ?_ ?_ hrun
    · intro msg
      exact ⟨trivial, by simp, by simp⟩
    · intro s a req req' es es' hok hreq hlife hstep
      exact hlife.step (hok req hreq) hstep
  cases hreq : s.requests i with
  | none =>
    rw [hreq] at hserved
    rw [show eventsOf i tr = [] from hserved]
    simp
  | some req =>
    rw [hreq] at hserved
    exact ⟨hserved.answers, hserved.dispatches⟩

/-- The call is there, and doomed. -/
def DoomedCall (servername : N) (server : S) (o : Option (Request E N S Q R))
    (es : List (CallEvent S R)) : Prop :=
  ∃ req, o = some req ∧ DoomedLife servername server req es

/-- This instance is not registered under the name. -/
def StaysDeleted (servername : N) (server : S) (s : System I E N S Q R)
    (_ : Action I E N S Q R) : Prop :=
  (s.shared.net.servers.lookup servername).join ≠ some server

instance decidableStaysDeleted (servername : N) (server : S) (s : System I E N S Q R)
    (a : Action I E N S Q R) : Decidable (StaysDeleted servername server s a) :=
  inferInstanceAs (Decidable ((s.shared.net.servers.lookup servername).join ≠ some server))

/-- A call that goes to a server that is then deleted never returns true, if it was not decided
before the deletion; also if its request is executed. -/
theorem deleted_server_never_confirms {servername : N} {server : S} {req : Request E N S Q R}
    (hreq : s₀.requests i = some req) (htargets : req.stage.Targets servername server)
    (hrun : Run System.step (StaysDeleted servername server) s₀ tr s) (reply : R) :
    .answered (some reply) ∉ eventsOf i tr := by
  have hstart : DoomedCall servername server (s₀.requests i) [] :=
    ⟨req, hreq, Or.inl htargets, by simp⟩
  have hdoomed : DoomedCall servername server (s.requests i) (eventsOf i tr) := by
    refine invariant_call hstart ?_ ?_ hrun
    · rintro msg es ⟨req, hnone, -⟩
      cases hnone
    · rintro s a req req' es es' hok - ⟨_, heq, hlife⟩ hstep
      cases heq
      exact ⟨req', rfl, hlife.step hok hstep⟩
  obtain ⟨_, _, hlife⟩ := hdoomed
  exact hlife.answers reply

/-- The action is a step of call `i` other than one more look at the server. -/
def Action.moves (i : I) : Action I E N S Q R → Bool
  | .own j a => j = i ∧ a.isCheck = false
  | _ => false

variable {rs : List (Taken (System I E N S Q R) (Action I E N S Q R) (I × CallEvent S R))}

end Runs

/-- The call with its reply. -/
def delivered (ok : SmallSystem → SmallAction → Prop) [∀ s a, Decidable (ok s a)] :
    SmallSystem × List (Nat × CallEvent Nat Nat) :=
  reached System.step ok .start (connectAndCall ++ passReply)

theorem call_history_delivered :
    Run System.step always .start (delivered always).2 (delivered always).1 ∧
      eventsOf 0 (delivered always).2 =
        [.called, .dispatched 1, .returned 5, .answered (some 5)] ∧
      CallHistory (eventsOf 0 (delivered always).2) := by
  have hrun : Run System.step always .start (delivered always).2 (delivered always).1 :=
    reached_run (by decide +kernel)
  exact ⟨hrun, by decide +kernel, call_history hrun 0⟩

theorem nothing_left_behind_delivered :
    Run System.step (StaysAlive 0) .start (delivered (StaysAlive 0)).2
        (delivered (StaysAlive 0)).1 ∧
      CallEvent.answered (some 5) ∈ eventsOf 0 (delivered (StaysAlive 0)).2 ∧
      Settled (eventsOf 0 (delivered (StaysAlive 0)).2) := by
  have hrun : Run System.step (StaysAlive 0) .start (delivered (StaysAlive 0)).2
      (delivered (StaysAlive 0)).1 := reached_run (by decide +kernel)
  have hanswered : CallEvent.answered (some 5) ∈ eventsOf 0 (delivered (StaysAlive 0)).2 := by
    decide +kernel
  exact ⟨hrun, hanswered, nothing_left_behind hrun hanswered⟩

theorem reliable_call_never_fails_delivered :
    Run System.step (StaysServed 0 7 1) .start (delivered (StaysServed 0 7 1)).2
        (delivered (StaysServed 0 7 1)).1 ∧
      CallEvent.dispatched 1 ∈ eventsOf 0 (delivered (StaysServed 0 7 1)).2 ∧
      CallEvent.answered none ∉ eventsOf 0 (delivered (StaysServed 0 7 1)).2 ∧
      ∀ server, CallEvent.dispatched server ∈ eventsOf 0 (delivered (StaysServed 0 7 1)).2 →
        server = 1 := by
  have hrun : Run System.step (StaysServed 0 7 1) .start (delivered (StaysServed 0 7 1)).2
      (delivered (StaysServed 0 7 1)).1 := reached_run (by decide +kernel)
  exact ⟨hrun, by decide +kernel, reliable_call_never_fails hrun⟩

/-- The server is deleted while the handler runs. -/
def deletedMeanwhile : SmallSystem :=
  (reached System.step always .start (connectAndCall ++ [.setup (.deleteServer 7)])).1

/-- The rest of that call. -/
def deletedRest : SmallSystem × List (Nat × CallEvent Nat Nat) :=
  reached System.step (StaysDeleted 7 1) deletedMeanwhile passReply

theorem deleted_server_never_confirms_rest :
    Run System.step (StaysDeleted 7 1) deletedMeanwhile deletedRest.2 deletedRest.1 ∧
      eventsOf 0 deletedRest.2 = [.returned 5, .answered none] ∧
      ∀ reply, CallEvent.answered (some reply) ∉ eventsOf 0 deletedRest.2 := by
  have hrun : Run System.step (StaysDeleted 7 1) deletedMeanwhile deletedRest.2 deletedRest.1 :=
    reached_run (by decide +kernel)
  have htarget : deletedMeanwhile.requests 0 =
      some ⟨⟨0, ()⟩, .waiting ⟨7, 1, true, false⟩, .running⟩ := rfl
  exact ⟨hrun, by decide +kernel, deleted_server_never_confirms htarget ⟨rfl, rfl⟩ hrun⟩

end RaftImplementation.Labrpc
