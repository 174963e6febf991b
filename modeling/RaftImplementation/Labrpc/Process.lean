import RaftImplementation.Labrpc.Calls

/-!
# When the program ends (`labrpc.go`)

`Call` panics if its arguments cannot be encoded, and `log.Fatalf` ends the program if the
server does not know the service or the method, or if the reply cannot be decoded. `Network`
leaves this out: there every request and every reply gets through. Here the network runs inside
a program that such a call ends, and with it all other calls. A handler that panics, a wrong
`MakeEnd` or `DeleteEnd` and a second `Cleanup` end it as well.
-/

namespace RaftImplementation.Labrpc

open Library

variable {I E N S Q R : Type}

/-- What `labgob` and the servers make of requests and replies. -/
structure Wire (S Q R : Type) where
  /-- The arguments can be encoded. -/
  encodes : Q → Bool
  /-- The server has the service and the method that the request names. -/
  serves : S → Q → Bool
  /-- The caller can decode the reply. -/
  decodes : Q → R → Bool

/-- Why a program has ended. -/
inductive Exit where
  /-- `Call` panics. -/
  | encode
  /-- `dispatch` finds no service or no method of the name. -/
  | service
  /-- `Call` cannot decode the reply. -/
  | decode
  /-- A handler panics. -/
  | handler
  /-- `MakeEnd` of an end that exists, or `DeleteEnd` of one that does not. -/
  | setup
  /-- `Cleanup` closes a closed channel. -/
  | cleanup
  deriving DecidableEq

inductive Process (I E N S Q R : Type) where
  | up (s : System I E N S Q R)
  | ended (why : Exit)

/-- What can happen in a program. -/
inductive Turn (I E N S Q R : Type) where
  | act (a : Action I E N S Q R)
  | panics (i : I)

/-- The turn is a step of call `i` other than one more look at the server. -/
def Turn.moves [DecidableEq I] (i : I) : Turn I E N S Q R → Bool
  | .act a => a.moves i
  | .panics _ => false

section Programs

variable [DecidableEq E] [DecidableEq N] [DecidableEq S]

/-- The end of the program, if the event of a call is one. -/
def Wire.exitAt (w : Wire S Q R) (args : Q) : CallEvent S R → Option Exit
  | .dispatched server => if w.serves server args then none else some .service
  | .answered (some reply) => if w.decodes args reply then none else some .decode
  | _ => none

/-- The end of the program, if the action is one. -/
def Wire.exit (w : Wire S Q R) (s : System I E N S Q R) : Action I E N S Q R → Option Exit
  | .call i msg =>
    match s.requests i with
    | none => if w.encodes msg.args then none else some .encode
    | some _ => none
  | .own i a => (s.requests i).bind fun req =>
    (req.step s.shared a).bind fun (_, es) => es.findSome? (w.exitAt req.msg.args)
  | .setup a => if (s.shared.net.setup a).isSome then none else some .setup
  | .cleanup => if s.shared.done then some .cleanup else none
  | .stop => none

variable [DecidableEq I]

def Process.step (w : Wire S Q R) : Process I E N S Q R → Turn I E N S Q R →
    Option (Process I E N S Q R × List (I × CallEvent S R))
  | .ended _, _ => none
  | .up s, .act a =>
    match w.exit s a with
    | some why => some (.ended why, [])
    | none => (s.step a).map fun (s', es) => (.up s', es)
  | .up s, .panics i =>
    match s.requests i with
    | some ⟨_, _, .running⟩ => some (.ended .handler, [])
    | _ => none

variable {w : Wire S Q R} {s s' : System I E N S Q R} {p p' : Process I E N S Q R}
variable {x : Turn I E N S Q R} {es : List (I × CallEvent S R)} {i : I}

/-- What a turn does: the network goes on, or the program ends. -/
inductive Process.Takes (w : Wire S Q R) (s : System I E N S Q R) :
    Turn I E N S Q R → Process I E N S Q R → List (I × CallEvent S R) → Prop
  | goes {a : Action I E N S Q R} {s' : System I E N S Q R} {es : List (I × CallEvent S R)}
      (hexit : w.exit s a = none) (hstep : s.step a = some (s', es)) :
      Takes w s (.act a) (.up s') es
  | ends {a : Action I E N S Q R} {why : Exit} (hexit : w.exit s a = some why) :
      Takes w s (.act a) (.ended why) []
  | panics {i : I} {req : Request E N S Q R} (hreq : s.requests i = some req)
      (hrunning : req.handler = .running) : Takes w s (.panics i) (.ended .handler) []

theorem Process.step_takes (hstep : Process.step w (.up s) x = some (p, es)) :
    Process.Takes w s x p es := by
  cases x with
  | act a =>
    simp only [Process.step] at hstep
    cases hexit : w.exit s a with
    | some why =>
      rw [hexit] at hstep
      cases hstep
      exact .ends hexit
    | none =>
      rw [hexit] at hstep
      obtain ⟨⟨s', es'⟩, hs, heq⟩ := Option.map_eq_some_iff.mp hstep
      cases heq
      exact .goes hexit hs
  | panics i =>
    simp only [Process.step] at hstep
    split at hstep
    · rename_i hreq
      cases hstep
      exact .panics hreq rfl
    · cases hstep

variable {rs : List (Taken (Process I E N S Q R) (Turn I E N S Q R) (I × CallEvent S R))}

/-- There is a run of the network in which each call moves as often as in `rs`, and if the
program is still up, it is there that the network is. -/
def OnNetwork (rs : List (Taken (Process I E N S Q R) (Turn I E N S Q R) (I × CallEvent S R)))
    (p : Process I E N S Q R) : Prop :=
  ∃ rs' s, Course System.step always .start rs' s ∧
    (∀ i, (rs.countP fun r => r.action.moves i) = rs'.countP fun r => r.action.moves i) ∧
    ∀ s₁, p = .up s₁ → s₁ = s

theorem OnNetwork.steps (h : OnNetwork rs (.up s)) {a : Action I E N S Q R}
    {es' : List (I × CallEvent S R)} (hs : s.step a = some (s', es'))
    (hup : ∀ s₁, p = .up s₁ → s₁ = s') : OnNetwork (rs ++ [⟨.up s, .act a, es, p⟩]) p := by
  obtain ⟨rs', s₀, hnet, hcount, hsame⟩ := h
  obtain rfl := hsame s rfl
  refine ⟨_, s', hnet.snoc trivial hs, fun i => ?_, hup⟩
  rw [List.countP_append, List.countP_append, hcount]
  rfl

/-- The turn ends the program, for the given reason. -/
def Turn.Ends (w : Wire S Q R) (s : System I E N S Q R) (why : Exit) :
    Turn I E N S Q R → Prop
  | .act a => w.exit s a = some why
  | .panics i => why = .handler ∧ ∃ req, s.requests i = some req ∧ req.handler = .running

end Programs

end RaftImplementation.Labrpc
