import Mathlib.Data.String.Basic
import RaftImplementation.Porcupine.Parallel

/-!
# The model of a key/value store (`models/kv.go`)

`KvModel` is the value of one key: its `Partition` splits a history by the keys, so that the
checker looks at one key at a time. A history of operations on all keys is linearizable
if and only if its partitions are (`kvLinearizable_iff`), so what the checker finds is right for
the store as a whole.
-/

namespace RaftImplementation.Porcupine

open Library

/-- `op` is 0 for a get, 1 for a put, 2 for an append and otherwise an append that returns
the old value. -/
structure KvInput where
  op : UInt8
  key : String
  value : String
  deriving DecidableEq, Repr

structure KvOutput where
  value : String
  deriving DecidableEq, Repr

abbrev KvOperation := Operation KvInput KvOutput

/-- The loop of `Partition` that fills the map. -/
def kvGroups (history : List KvOperation) : Map String (List KvOperation) :=
  history.foldl (fun m v => m.insert v.input.key ((m.lookup v.input.key).getD [] ++ [v])) ∅

/-- The keys of the map are listed in any order and then sorted. -/
def kvPartition (history : List KvOperation) : List (List KvOperation) :=
  let keys := (history.map fun v => v.input.key).dedup.insertionSort (· ≤ ·)
  keys.map fun k => ((kvGroups history).lookup k).getD []

def kvStep (st : String) (inp : KvInput) (out : KvOutput) : Bool × String :=
  if inp.op = 0 then (out.value = st, st)
  else if inp.op = 1 then (true, inp.value)
  else if inp.op = 2 then (true, st ++ inp.value)
  else (out.value = st, st ++ inp.value)

def kvModel : Model KvInput KvOutput String where
  partition := kvPartition
  init := ""
  step := kvStep

variable {history : List KvOperation}

/-! ## Partitions -/

theorem lookup_kvGroups (history : List KvOperation) (k : String) :
    ((kvGroups history).lookup k).getD [] = history.filter fun v => v.input.key = k := by
  induction history using List.reverseRecOn with
  | nil => simp [kvGroups]
  | append_singleton history v ih =>
    have hfold : kvGroups (history ++ [v]) = (kvGroups history).insert v.input.key
        (((kvGroups history).lookup v.input.key).getD [] ++ [v]) := by
      simp [kvGroups]
    rw [hfold]
    by_cases hk : v.input.key = k
    · subst hk
      simp [ih]
    · rw [Finmap.lookup_insert_of_ne _ (Ne.symm hk), ih]
      simp [hk]

theorem mem_kvPartition {part : List KvOperation} :
    part ∈ kvPartition history ↔
      ∃ k ∈ history.map fun v => v.input.key, part = history.filter fun v => v.input.key = k := by
  simp only [kvPartition, List.mem_map, List.mem_insertionSort, List.mem_dedup, lookup_kvGroups]
  constructor
  · rintro ⟨k, hk, rfl⟩
    exact ⟨k, hk, rfl⟩
  · rintro ⟨k, hk, rfl⟩
    exact ⟨k, hk, rfl⟩

theorem le_of_mem_kvPartition (hle : ∀ op ∈ history, op.call ≤ op.ret) :
    ∀ part ∈ kvModel.partition history, ∀ op ∈ part, op.call ≤ op.ret := by
  intro part hpart op hop
  obtain ⟨k, -, rfl⟩ := mem_kvPartition.mp hpart
  exact hle op (List.mem_of_mem_filter hop)

theorem kvModel_equalFits : kvModel.EqualFits := equalFits_shallowEqual rfl

/-! ## All keys -/

/-- The store, as a function from keys to values. -/
def kvStoreStep : (String → String) → KvOperation → Option (String → String) :=
  onKey (fun v => v.input.key) fun st v => kvModel.after st v.io

/-- The operations can be put in a sequence that a store allows which is empty at first. -/
def KvLinearizable (history : List KvOperation) : Prop :=
  ∃ τ, Linearizes kvStoreStep (fun a b => a.ret < b.call) (fun _ => "") history τ

theorem kvLinearizable_iff_forall_key (hle : ∀ op ∈ history, op.call ≤ op.ret) :
    KvLinearizable history ↔
      ∀ k, kvModel.Linearizable (history.filter fun v => v.input.key = k) := by
  have hzip : history.zipIdx.map Prod.fst = history := List.zipIdx_map_fst 0 history
  have hnd : history.zipIdx.Nodup := by
    apply List.Nodup.of_map Prod.snd
    rw [List.zipIdx_map_snd]
    exact List.nodup_range'
  have hle' : ∀ x ∈ history.zipIdx, x.1.call ≤ x.1.ret := by
    intro x hx
    exact hle x.1 (hzip ▸ List.mem_map_of_mem hx)
  have hfilter : ∀ k, (history.filter fun v => v.input.key = k) =
      (history.zipIdx.filter fun x => x.1.input.key = k).map Prod.fst := by
    intro k
    conv_lhs => rw [← hzip, List.filter_map]
    rfl
  have hwhole : KvLinearizable history ↔ ∃ σ, Linearizes
      (onKey (fun x => x.1.input.key) fun st x => kvModel.after st x.1.io)
      (fun x y => x.1.ret < y.1.call) (fun _ => "") history.zipIdx σ := by
    rw [KvLinearizable]
    conv_lhs => rw [← hzip]
    exact exists_linearizes_map_iff
  -- two operations may be the same, but they have different positions
  rw [hwhole, exists_linearizes_iff_keys hnd hle']
  refine forall_congr' fun k => ?_
  rw [hfilter k]
  unfold Model.Linearizable Model.Explains
  rw [exists_linearizes_map_iff]
  rfl

/-- The history of a store is linearizable if and only if that of each key is. -/
theorem kvLinearizable_iff (hle : ∀ op ∈ history, op.call ≤ op.ret) :
    KvLinearizable history ↔ ∀ part ∈ kvModel.partition history, kvModel.Linearizable part := by
  rw [kvLinearizable_iff_forall_key hle]
  constructor
  · intro h part hpart
    obtain ⟨k, -, rfl⟩ := mem_kvPartition.mp hpart
    exact h k
  · intro h k
    by_cases hk : k ∈ history.map fun v => v.input.key
    · exact h _ (mem_kvPartition.mpr ⟨k, hk, rfl⟩)
    · have hnil : (history.filter fun v => v.input.key = k) = [] := by
        apply List.filter_eq_nil_iff.mpr
        intro v hv hkey
        exact hk (List.mem_map.mpr ⟨v, hv, by simpa using hkey⟩)
      rw [hnil]
      exact ⟨[], List.Perm.nil, rfl, List.Pairwise.nil⟩

/-- However it runs, the checker finds `Ok` only for histories that a store allows and
`Illegal` only for others. -/
theorem checkOperations_kvModel {sort : List (Entry KvInput KvOutput) → List (Entry KvInput KvOutput)}
    (hsort : ∀ entries, SortsEntries entries (sort entries))
    (hle : ∀ op ∈ history, op.call ≤ op.ret) {verbose : Bool} {timeout : Int} {tr : List Unit}
    {s : Parallel String}
    (hrun : Run (checkOperations sort kvModel history verbose timeout).step always
      (checkOperations sort kvModel history verbose timeout).start tr s) :
    ∀ result info, s.main = .returned result info →
      (result = .ok → KvLinearizable history) ∧ (result = .illegal → ¬ KvLinearizable history) := by
  intro result info hret
  have hjudges := judges_operations hsort kvModel_equalFits (le_of_mem_kvPartition hle) verbose timeout
  obtain ⟨hok, hillegal, -⟩ := (hjudges.right hrun).2 result info hret
  rw [kvLinearizable_iff hle]
  refine ⟨hok, fun hres hall => ?_⟩
  obtain ⟨part, hpart, hnot⟩ := hillegal hres
  exact hnot (hall part hpart)

/-- A put of `x` and an append to `y`, a get of `x` that overlaps the put and misses it, and
an append to `y` that finds the first one. -/
def twoKeys : List KvOperation :=
  [⟨0, ⟨1, "x", "a"⟩, 0, ⟨""⟩, 5⟩, ⟨1, ⟨3, "y", "b"⟩, 1, ⟨""⟩, 2⟩, ⟨2, ⟨0, "x", ""⟩, 3, ⟨""⟩, 4⟩,
    ⟨1, ⟨3, "y", "c"⟩, 6, ⟨"b"⟩, 7⟩]

def twoKeysCheck : ParallelCheck KvInput KvOutput String :=
  checkOperations sortEntries kvModel twoKeys false 0

def twoKeysRun : Parallel String × List Unit :=
  reached twoKeysCheck.step always twoKeysCheck.start
    [.turn 0, .turn 1, .turn 0, .turn 1, .turn 0, .turn 1, .turn 0, .turn 0, .turn 0, .send 1, .send 0,
      .receive, .receive]

theorem checkOperations_kvModel_twoKeys :
    twoKeysRun.1.main = .returned .ok none ∧ KvLinearizable twoKeys := by
  have hrun : Run twoKeysCheck.step always twoKeysCheck.start twoKeysRun.2 twoKeysRun.1 :=
    reached_run (by decide +kernel)
  have heval : twoKeysRun.1.main = .returned .ok none := by decide +kernel
  have hres := checkOperations_kvModel sortsEntries_sortEntries (by decide) hrun
  exact ⟨heval, (hres _ _ heval).1 rfl⟩

end RaftImplementation.Porcupine
