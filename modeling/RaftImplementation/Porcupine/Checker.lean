import RaftImplementation.Library.Links
import RaftImplementation.Library.Maps
import RaftImplementation.Porcupine.Bitset

/-!
# The checker (`porcupine/checker.go`, `model.go`)

The kv tests hand the operations of their clients to `porcupine`, which searches for a
sequence of them that explains all answers. `checkSingle` keeps the calls and returns that
are not yet in the sequence in a doubly linked list. It scans the list for a call that can
come next, lifts it out of the list together with its return, and starts again; at a
return it goes back to the last call it has lifted. A cache has all pairs of a set of
operations and a state that it has come to.

An `interface{}` is a type parameter: `I` for inputs, `O` for outputs and `S` for states.
A pointer to a node is the position of its entry in the history, and the position after
the last one is the head. A pointer that is nil, an index out of range or a value of the
wrong type is a panic, and `none` here.
-/

namespace RaftImplementation.Porcupine

open Library

/-- `ret` is the field `Return`. -/
structure Operation (I O : Type) where
  clientId : Int
  input : I
  call : Int
  output : O
  ret : Int
  deriving DecidableEq, Repr

/-- `Kind` and `Value` are one field: a call has an input, a return an output. -/
structure Event (I O : Type) where
  clientId : Int
  value : I ⊕ O
  id : Int
  deriving DecidableEq, Repr

def noPartition {I O : Type} (history : List (Operation I O)) : List (List (Operation I O)) :=
  [history]

def noPartitionEvent {I O : Type} (history : List (Event I O)) : List (List (Event I O)) :=
  [history]

def shallowEqual {S : Type} [DecidableEq S] (state1 state2 : S) : Bool := state1 = state2

/-- The defaults are those of `fillDefault`. -/
structure Model (I O S : Type) [DecidableEq S] where
  partition : List (Operation I O) → List (List (Operation I O)) := noPartition
  partitionEvent : List (Event I O) → List (List (Event I O)) := noPartitionEvent
  init : S
  step : S → I → O → Bool × S
  equal : S → S → Bool := shallowEqual

/-! ## Entries -/

/-- `kind` and `value` are one field. -/
structure Entry (I O : Type) where
  value : I ⊕ O
  id : Nat
  time : Int
  clientId : Int
  deriving DecidableEq, Repr

variable {I O S : Type}

namespace Entry

def isCall (e : Entry I O) : Bool := e.value.isLeft

/-- `Less`. -/
def less (a b : Entry I O) : Bool :=
  if a.time ≠ b.time then a.time < b.time else a.isCall && !b.isCall

end Entry

def Operation.callEntry (elem : Operation I O) (id : Nat) : Entry I O :=
  ⟨.inl elem.input, id, elem.call, elem.clientId⟩

def Operation.returnEntry (elem : Operation I O) (id : Nat) : Entry I O :=
  ⟨.inr elem.output, id, elem.ret, elem.clientId⟩

/-- The entries of `makeEntries` before they are sorted. -/
def operationEntries (history : List (Operation I O)) : List (Entry I O) :=
  history.zipIdx.flatMap fun (elem, id) => [elem.callEntry id, elem.returnEntry id]

/-- What `sort.Sort` may leave: it does not say in which order equal entries come. -/
structure SortsEntries (entries sorted : List (Entry I O)) : Prop where
  perm : sorted.Perm entries
  sorted : sorted.Pairwise fun a b => Entry.less b a = false

/-- `sort` is what `sort.Sort` does. -/
def makeEntries (sort : List (Entry I O) → List (Entry I O)) (history : List (Operation I O)) :
    List (Entry I O) :=
  sort (operationEntries history)

/-- The loop of `renumber`. -/
def renumberFrom (m : Map Int Nat) (id : Nat) : List (Event I O) → List (Event I O)
  | [] => []
  | v :: events =>
    match m.lookup v.id with
    | some r => { v with id := r } :: renumberFrom m id events
    | none => { v with id := id } :: renumberFrom (m.insert v.id id) (id + 1) events

def renumber (events : List (Event I O)) : List (Event I O) := renumberFrom ∅ 0 events

/-- The ids are those of `renumber`, so they are not negative. -/
def convertEntries (events : List (Event I O)) : List (Entry I O) :=
  events.mapIdx fun i elem => ⟨elem.value, elem.id.toNat, i, elem.clientId⟩

/-! ## The linked list -/

/-- The fields of a node that do not change; `matching` is the field `match`. -/
structure Node (I O : Type) where
  value : I ⊕ O
  matching : Option Nat
  id : Nat

def insertBefore (links : Links Nat) (n : Nat) : Option Nat → Links Nat
  | none => links
  | some mark =>
    let beforeMark := links.prev mark
    let links := (links.setPrev mark (some n)).setNext n (some mark)
    match beforeMark with
    | none => links
    | some before => (links.setPrev n (some before)).setNext before (some n)

/-- What `makeLinkedEntries` has made so far, from the last entry on. `nodes` has them in
the order of the entries. -/
structure LinkedEntries (I O : Type) where
  root : Option Nat
  matching : Map Nat Nat
  nodes : List (Node I O)
  links : Links Nat

/-- One turn of its loop. -/
def LinkedEntries.add (l : LinkedEntries I O) (i : Nat) (elem : Entry I O) : LinkedEntries I O :=
  if elem.isCall then
    { root := some i
      matching := l.matching
      nodes := ⟨elem.value, l.matching.lookup elem.id, elem.id⟩ :: l.nodes
      links := insertBefore l.links i l.root }
  else
    { root := some i
      matching := l.matching.insert elem.id i
      nodes := ⟨elem.value, none, elem.id⟩ :: l.nodes
      links := insertBefore l.links i l.root }

/-- The entries from position `i` on. -/
def makeLinkedEntriesFrom (i : Nat) : List (Entry I O) → LinkedEntries I O
  | [] => ⟨none, ∅, [], ⟨fun _ => none, fun _ => none⟩⟩
  | elem :: entries => (makeLinkedEntriesFrom (i + 1) entries).add i elem

def makeLinkedEntries (entries : List (Entry I O)) : LinkedEntries I O :=
  makeLinkedEntriesFrom 0 entries

def lift (nodes : List (Node I O)) (links : Links Nat) (entry : Nat) : Option (Links Nat) := do
  let node ← nodes[entry]?
  let _ ← links.next entry
  let links ← links.unlink entry
  let matching ← node.matching
  links.unlink matching

def unlift (nodes : List (Node I O)) (links : Links Nat) (entry : Nat) : Option (Links Nat) := do
  let node ← nodes[entry]?
  let matching ← node.matching
  let links ← links.relink matching
  let _ ← links.next entry
  links.relink entry

/-! ## The cache -/

structure CacheEntry (S : Type) where
  linearized : Bitset
  state : S

abbrev Cache (S : Type) := Map Word (List (CacheEntry S))

variable [DecidableEq S]

def cacheContains (model : Model I O S) (cache : Cache S) (entry : CacheEntry S) : Bool :=
  ((cache.lookup entry.linearized.hash).getD []).any fun elem =>
    entry.linearized.equals elem.linearized && model.equal entry.state elem.state

def Cache.add (cache : Cache S) (entry : CacheEntry S) : Cache S :=
  cache.insert entry.linearized.hash
    ((cache.lookup entry.linearized.hash).getD [] ++ [entry])

/-! ## The search -/

structure CallsEntry (S : Type) where
  entry : Nat
  state : S

/-- For each operation, the longest sequence that has it; a sequence is its ids. -/
abbrev Longest := List (Option (List Nat))

/-- The variables of `checkSingle`. -/
structure Checking (S : Type) where
  links : Links Nat
  entry : Option Nat
  state : S
  linearized : Bitset
  cache : Cache S
  calls : List (CallsEntry S)
  longest : Longest

/-- The ids of the operations that have been called. -/
def seqOf (nodes : List (Node I O)) (calls : List (CallsEntry S)) : Option (List Nat) :=
  calls.mapM fun v => nodes[v.entry]?.map Node.id

/-- `longest` with `seq` for one of its operations, if it is longer. -/
def recordOne (seq : List Nat) (longest : Longest) (id : Nat) : Option Longest :=
  longest[id]?.map fun old =>
    if old.all fun l => l.length < seq.length then longest.set id (some seq) else longest

def record (longest : Longest) (seq : List Nat) : Option Longest :=
  seq.foldlM (recordOne seq) longest

/-- A call: the state after it, its bits and its links, or the next entry. -/
def tryCall (model : Model I O S) (nodes : List (Node I O)) (head : Nat) (c : Checking S)
    (entry : Nat) (node matching : Node I O) : Option (Checking S) := do
  let input ← node.value.getLeft?
  let output ← matching.value.getRight?
  let (ok, newState) := model.step c.state input output
  if ok then
    let newLinearized ← c.linearized.set node.id
    if !cacheContains model c.cache ⟨newLinearized, newState⟩ then
      let links ← lift nodes c.links entry
      some { links := links
             entry := links.next head
             state := newState
             linearized := newLinearized
             cache := c.cache.add ⟨newLinearized, newState⟩
             calls := c.calls ++ [⟨entry, c.state⟩]
             longest := c.longest }
    else some { c with entry := c.links.next entry }
  else some { c with entry := c.links.next entry }

/-- A return: the last call is taken back. -/
def takeBack (nodes : List (Node I O)) (computePartial : Bool) (c : Checking S)
    (callsTop : CallsEntry S) : Option (Checking S) := do
  let longest ←
    if computePartial then (seqOf nodes c.calls).bind (record c.longest) else some c.longest
  let node ← nodes[callsTop.entry]?
  let linearized ← c.linearized.clear node.id
  let links ← unlift nodes c.links callsTop.entry
  some { links := links
         entry := links.next callsTop.entry
         state := callsTop.state
         linearized := linearized
         cache := c.cache
         calls := c.calls.dropLast
         longest := longest }

/-- One turn of the loop: the next state, or what is returned. `kill` is the flag as it is
read in this turn. -/
def turn (model : Model I O S) (nodes : List (Node I O)) (head : Nat) (computePartial kill : Bool)
    (c : Checking S) : Option (Checking S ⊕ (Bool × Longest)) :=
  match c.links.next head with
  | none => do
    let seq ← seqOf nodes c.calls
    some (.inr (true, c.longest.map fun _ => some seq))
  | some _ =>
    if kill then some (.inr (false, c.longest))
    else do
      let entry ← c.entry
      let node ← nodes[entry]?
      match node.matching with
      | some matching =>
        let matching ← nodes[matching]?
        let c ← tryCall model nodes head c entry node matching
        some (.inl c)
      | none =>
        match c.calls.getLast? with
        | none => some (.inr (false, c.longest))
        | some callsTop =>
          let c ← takeBack nodes computePartial c callsTop
          some (.inl c)

/-- How a call ends, if the fuel lasts. -/
inductive Outcome (α : Type) where
  | running
  | panicked
  | returned (a : α)
  deriving DecidableEq

/-- The loop from turn `t` on, where `kill t` is the flag in turn `t`. -/
def loop (model : Model I O S) (nodes : List (Node I O)) (head : Nat) (computePartial : Bool)
    (kill : Nat → Bool) : Nat → Nat → Checking S → Outcome (Bool × Longest)
  | 0, _, _ => .running
  | fuel + 1, t, c =>
    match turn model nodes head computePartial (kill t) c with
    | none => .panicked
    | some (.inl c) => loop model nodes head computePartial kill fuel (t + 1) c
    | some (.inr result) => .returned result

def startChecking (model : Model I O S) (history : List (Entry I O)) : Checking S :=
  let l := makeLinkedEntries history
  let n := (l.links.follow history.length l.root).length / 2
  { links := insertBefore l.links history.length l.root
    entry := l.root
    state := model.init
    linearized := newBitset n
    cache := ∅
    calls := []
    longest := List.replicate n none }

def checkSingle (model : Model I O S) (history : List (Entry I O)) (computePartial : Bool)
    (kill : Nat → Bool) (fuel : Nat) : Outcome (Bool × Longest) :=
  loop model (makeLinkedEntries history).nodes history.length computePartial kill fuel 0
    (startChecking model history)

end RaftImplementation.Porcupine
