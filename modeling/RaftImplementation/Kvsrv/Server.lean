import RaftImplementation.Library.Maps

/-!
# The key/value server (`kvsrv/server.go`, `kvsrv/common.go`)

A handler is a sequence of sections, each under the read or the write lock of the server,
and between two sections anything may happen. `Get` and the two writers look a request up
in `status` in their first section and act in their second; a confirm is one section.
-/

namespace RaftImplementation.Kvsrv

open Library

structure GetArgs where
  key : String
  id : Int
  confirm : Bool
  deriving DecidableEq, Repr

structure PutAppendArgs where
  key : String
  value : String
  id : Int
  confirm : Bool
  deriving DecidableEq, Repr

/-- A request as the dispatcher hands it to a handler. -/
inductive Request where
  | get (args : GetArgs)
  | put (args : PutAppendArgs)
  | append (args : PutAppendArgs)
  deriving DecidableEq, Repr

def Request.id : Request → Int
  | .get args => args.id
  | .put args => args.id
  | .append args => args.id

def Request.confirm : Request → Bool
  | .get args => args.confirm
  | .put args => args.confirm
  | .append args => args.confirm

/-- Where a handler stands. -/
inductive Handler where
  | entered
  /-- `Get` has found no status and has read the value. -/
  | read (val : String)
  /-- `Put` or `Append` has found no status. -/
  | missed
  /-- The handler is done, with `reply.Value` as given. -/
  | returned (value : String)
  deriving DecidableEq, Repr

structure KVServer where
  kvMap : Map String String
  status : Map Int String
  deriving DecidableEq

def startKVServer : KVServer := ⟨∅, ∅⟩

namespace KVServer

/-- A map lookup in Go: the zero value for a key that is not there. -/
def valueOf (kv : KVServer) (key : String) : String := (kv.kvMap.lookup key).getD ""

/-- The section of a confirm. The reply is left as it is. -/
def confirmed (kv : KVServer) (id : Int) : KVServer × Handler :=
  ({ kv with status := kv.status.erase id }, .returned "")

/-- The first section of `Get`. A confirm also takes and releases the read lock first. -/
def enterGet (kv : KVServer) (args : GetArgs) : KVServer × Handler :=
  if args.confirm then kv.confirmed args.id
  else match kv.status.lookup args.id with
    | some val => (kv, .returned val)
    | none => (kv, .read (kv.valueOf args.key))

def recordGet (kv : KVServer) (args : GetArgs) (val : String) : KVServer × Handler :=
  ({ kv with status := kv.status.insert args.id val }, .returned val)

/-- The first section of `Put` and of `Append`. -/
def enterPutAppend (kv : KVServer) (args : PutAppendArgs) : KVServer × Handler :=
  if args.confirm then kv.confirmed args.id
  else match kv.status.lookup args.id with
    | some val => (kv, .returned val)
    | none => (kv, .missed)

/-- The second section of `Put` and of `Append`, which differ in the value they write. -/
def write (written : String → String → String) (kv : KVServer) (args : PutAppendArgs) :
    KVServer × Handler :=
  let val := kv.valueOf args.key
  (⟨kv.kvMap.insert args.key (written val args.value), kv.status.insert args.id val⟩,
    .returned val)

def writePut : KVServer → PutAppendArgs → KVServer × Handler := write fun _ value => value

def writeAppend : KVServer → PutAppendArgs → KVServer × Handler :=
  write fun val value => val ++ value

/-- The next section of a handler. -/
def run (kv : KVServer) : Request → Handler → Option (KVServer × Handler)
  | .get args, .entered => some (kv.enterGet args)
  | .get args, .read val => some (kv.recordGet args val)
  | .put args, .entered => some (kv.enterPutAppend args)
  | .put args, .missed => some (kv.writePut args)
  | .append args, .entered => some (kv.enterPutAppend args)
  | .append args, .missed => some (kv.writeAppend args)
  | _, _ => none

/-! ## What a section can do -/

/-- The outcomes of a section, for a request with the given id. -/
inductive Ran (kv : KVServer) (request : Request) : Handler → KVServer × Handler → Prop
  | confirmed (hc : request.confirm = true) : Ran kv request .entered (kv.confirmed request.id)
  | hit {val : String} (hc : request.confirm = false) (hs : kv.status.lookup request.id = some val) :
      Ran kv request .entered (kv, .returned val)
  | readMiss {args : GetArgs} (hr : request = .get args) (hc : request.confirm = false)
      (hs : kv.status.lookup request.id = none) :
      Ran kv request .entered (kv, .read (kv.valueOf args.key))
  | writeMiss {args : PutAppendArgs} (hr : request = .put args ∨ request = .append args)
      (hc : request.confirm = false) (hs : kv.status.lookup request.id = none) :
      Ran kv request .entered (kv, .missed)
  | recorded {args : GetArgs} {val : String} (hr : request = .get args) :
      Ran kv request (.read val) (kv.recordGet args val)
  | put {args : PutAppendArgs} (hr : request = .put args) :
      Ran kv request .missed (kv.writePut args)
  | append {args : PutAppendArgs} (hr : request = .append args) :
      Ran kv request .missed (kv.writeAppend args)

variable {kv : KVServer} {request : Request} {handler : Handler} {r : KVServer × Handler}

theorem ran_enterGet (kv : KVServer) (args : GetArgs) :
    Ran kv (.get args) .entered (kv.enterGet args) := by
  rw [enterGet]
  by_cases hc : args.confirm = true
  · rw [if_pos hc]
    exact .confirmed hc
  · rw [if_neg hc]
    have hc : args.confirm = false := by simpa using hc
    cases hs : kv.status.lookup args.id with
    | some val => exact .hit hc hs
    | none => exact .readMiss rfl hc hs

theorem ran_enterPutAppend (kv : KVServer) {args : PutAppendArgs}
    (hr : request = .put args ∨ request = .append args) :
    Ran kv request .entered (kv.enterPutAppend args) := by
  have hid : request.id = args.id := by
    cases hr with
    | inl hr => rw [hr]; rfl
    | inr hr => rw [hr]; rfl
  have hconfirm : request.confirm = args.confirm := by
    cases hr with
    | inl hr => rw [hr]; rfl
    | inr hr => rw [hr]; rfl
  rw [enterPutAppend, ← hid, ← hconfirm]
  by_cases hc : request.confirm = true
  · rw [if_pos hc]
    exact .confirmed hc
  · rw [if_neg hc]
    have hc : request.confirm = false := by simpa using hc
    cases hs : kv.status.lookup request.id with
    | some val => exact .hit hc hs
    | none => exact .writeMiss hr hc hs

theorem run_ran (h : kv.run request handler = some r) : Ran kv request handler r := by
  cases request with
  | get args =>
    cases handler with
    | entered =>
      cases h
      exact ran_enterGet kv args
    | read val =>
      cases h
      exact .recorded rfl
    | missed => cases h
    | returned value => cases h
  | put args =>
    cases handler with
    | entered =>
      cases h
      exact ran_enterPutAppend kv (.inl rfl)
    | missed =>
      cases h
      exact .put rfl
    | read val => cases h
    | returned value => cases h
  | append args =>
    cases handler with
    | entered =>
      cases h
      exact ran_enterPutAppend kv (.inr rfl)
    | missed =>
      cases h
      exact .append rfl
    | read val => cases h
    | returned value => cases h

/-- A section touches the status of its own request only. -/
theorem Ran.status_eq (h : Ran kv request handler r) {id : Int} (hid : id ≠ request.id) :
    r.1.status.lookup id = kv.status.lookup id := by
  cases h with
  | confirmed => exact Finmap.lookup_erase_ne hid
  | hit => rfl
  | readMiss => rfl
  | writeMiss => rfl
  | recorded hr =>
    subst hr
    exact Finmap.lookup_insert_of_ne _ hid
  | put hr =>
    subst hr
    exact Finmap.lookup_insert_of_ne _ hid
  | append hr =>
    subst hr
    exact Finmap.lookup_insert_of_ne _ hid

end KVServer

end RaftImplementation.Kvsrv
