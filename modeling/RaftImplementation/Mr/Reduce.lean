import Mathlib.Data.List.Lex
import RaftImplementation.Library.Grouping
import RaftImplementation.Mr.Shuffle

/-!
# The reducer and the sequential program (`worker.go`, `mrsequential.go`)

`DoReduceTask` and the `main` of `mrsequential` have the same loop: it cuts the sorted pairs
into groups and calls `reducef` on each. They differ in the test for the end of a group.
The sequential program compares keys. `DoReduceTask` compares whole pairs, so a key with
two different values is reduced in pieces, and its output has a line for each piece.

What is written is the list of the lines, one for each `Fprintf`. Files can always be
created, and `sort.Sort` may leave pairs of one key in any order.
-/

namespace RaftImplementation.Mr

open Library

/-- A call of `reducef`. -/
structure ReduceCall where
  key : List UInt8
  values : List (List UInt8)
  deriving DecidableEq, Repr

/-- The calls of the loop, where `same` tells whether `intermediate[j]` is in the group of
`intermediate[i]`. -/
def reduceCalls (same : KeyValue → KeyValue → Bool) (intermediate : List KeyValue) :
    List ReduceCall :=
  (grouped same intermediate).map fun group => ⟨group.1.key, group.2.map KeyValue.value⟩

/-- `"%v %v\n"`. -/
def outputLine (key output : List UInt8) : List UInt8 := key ++ 32 :: output ++ [10]

/-- The lines that are written for the calls. -/
def outputLines (reducef : List UInt8 → List (List UInt8) → List UInt8)
    (calls : List ReduceCall) : List (List UInt8) :=
  calls.map fun call => outputLine call.key (reducef call.key call.values)

/-- The loop of `DoReduceTask`: `intermediate[j] == intermediate[i]`. -/
def doReduceCalls (intermediate : List KeyValue) : List ReduceCall :=
  reduceCalls (fun x y => x = y) intermediate

/-- The loop of `mrsequential`: `intermediate[j].Key == intermediate[i].Key`. -/
def sequentialCalls (intermediate : List KeyValue) : List ReduceCall :=
  reduceCalls (fun x y => x.key = y.key) intermediate

/-- `mr-out-<i>`. -/
def outName (i : Int) : FileName := ['m', 'r', '-', 'o', 'u', 't', '-'] ++ itoa i

/-- The output file and its lines. -/
def doReduceTask (reducef : List UInt8 → List (List UInt8) → List UInt8) (dir : Directory)
    (response : Task) : FileName × List (List UInt8) :=
  (outName response.taskId, outputLines reducef (doReduceCalls (shuffle dir response.fileSlice)))

/-- The pairs that the sequential program collects; it exits if a file cannot be opened. -/
def collect (mapf : FileName → List UInt8 → List KeyValue)
    (inputs : FileName → Option (List UInt8)) : List FileName → Option (List KeyValue)
  | [] => some []
  | filename :: filenames =>
    (inputs filename).bind fun content =>
      (collect mapf inputs filenames).map (mapf filename content ++ ·)

/-- `main` of `mrsequential` with the files of `os.Args[2:]`; without any it prints its
usage and exits. -/
def mrsequential (mapf : FileName → List UInt8 → List KeyValue)
    (reducef : List UInt8 → List (List UInt8) → List UInt8)
    (inputs : FileName → Option (List UInt8)) (filenames : List FileName) :
    Option (FileName × List (List UInt8)) :=
  if filenames = [] then none
  else (collect mapf inputs filenames).map fun kva =>
    (outName 0, outputLines reducef
      (sequentialCalls (kva.insertionSort fun a b => ¬ b.key < a.key)))

/-! ## What a reducer is for -/

/-- What `sort.Sort(ByKey(kva))` makes sure of. -/
def SortedByKey (kva : List KeyValue) : Prop := kva.Pairwise fun a b => ¬ b.key < a.key

/-- The order of the values does not matter. -/
def OrderFree (reducef : List UInt8 → List (List UInt8) → List UInt8) : Prop :=
  ∀ key values values', values.Perm values' → reducef key values = reducef key values'

/-- The values of a key. -/
def valuesOf (kva : List KeyValue) (key : List UInt8) : List (List UInt8) :=
  (kva.filter fun kv => kv.key = key).map KeyValue.value

/-- One call for each key, in increasing order, with all values of the key. -/
structure OncePerKey (kva : List KeyValue) (calls : List ReduceCall) : Prop where
  increasing : (calls.map ReduceCall.key).Pairwise (· < ·)
  keys : ∀ key, key ∈ calls.map ReduceCall.key ↔ key ∈ kva.map KeyValue.key
  values : ∀ call ∈ calls, call.values.Perm (valuesOf kva call.key)

/-- No key comes with two different values. -/
def OneValue (kva : List KeyValue) : Prop :=
  ∀ a ∈ kva, ∀ b ∈ kva, a.key = b.key → a.value = b.value

instance byte_trichotomous : Std.Trichotomous fun a b : UInt8 => a < b where
  trichotomous _ _ hab hba := UInt8.le_antisymm (UInt8.not_lt.mp hba) (UInt8.not_lt.mp hab)

/-- The order of Go strings. -/
instance bytes_strictTotalOrder : IsStrictTotalOrder (List UInt8) (· < ·) where
  trichotomous := (List.Lex.trichotomous fun a b : UInt8 => a < b).trichotomous
  irrefl := List.lt_irrefl
  trans _ _ _ := List.lt_trans

variable {kva kva' : List KeyValue} {calls calls' : List ReduceCall}
variable {reducef : List UInt8 → List (List UInt8) → List UInt8}

/-! ## Calls and lines -/

theorem OncePerKey.nodup (h : OncePerKey kva calls) : (calls.map ReduceCall.key).Nodup :=
  h.increasing.nodup

/-- Calls for the same pairs are for the same keys in the same order. -/
theorem OncePerKey.keys_eq (h : OncePerKey kva calls) (h' : OncePerKey kva' calls')
    (hperm : kva.Perm kva') : calls.map ReduceCall.key = calls'.map ReduceCall.key := by
  have hkeys : (calls.map ReduceCall.key).Perm (calls'.map ReduceCall.key) := by
    rw [List.perm_ext_iff_of_nodup h.nodup h'.nodup]
    intro key
    rw [h.keys, h'.keys, (hperm.map KeyValue.key).mem_iff]
  apply List.Perm.eq_of_pairwise _ h.increasing h'.increasing hkeys
  intro a b _ _ hab hba
  exact absurd (List.lt_trans hab hba) (List.lt_irrefl a)

/-- The lines are told by the pairs. -/
theorem OncePerKey.outputLines_eq (h : OncePerKey kva calls) (hfree : OrderFree reducef) :
    outputLines reducef calls = (calls.map ReduceCall.key).map fun key =>
      outputLine key (reducef key (valuesOf kva key)) := by
  rw [outputLines, List.map_map]
  apply List.map_congr_left
  intro call hcall
  rw [Function.comp_apply, hfree call.key _ _ (h.values call hcall)]

theorem valuesOf_perm (hperm : kva.Perm kva') (key : List UInt8) :
    (valuesOf kva key).Perm (valuesOf kva' key) := (hperm.filter _).map _

/-- Two reducers that do what they are for write the same lines. -/
theorem OncePerKey.same_lines (h : OncePerKey kva calls) (h' : OncePerKey kva' calls')
    (hperm : kva.Perm kva') (hfree : OrderFree reducef) :
    outputLines reducef calls = outputLines reducef calls' := by
  rw [h.outputLines_eq hfree, h'.outputLines_eq hfree, h.keys_eq h' hperm]
  apply List.map_congr_left
  intro key _
  rw [hfree key _ _ (valuesOf_perm hperm key)]

/-! ## The loop -/

section Loop

variable {same : KeyValue → KeyValue → Bool}

theorem keys_reduceCalls (same : KeyValue → KeyValue → Bool) (kva : List KeyValue) :
    (reduceCalls same kva).map ReduceCall.key = (grouped same kva).map fun group => group.1.key := by
  simp [reduceCalls]

/-- The keys of a group are one key, if the test looks at keys at all. -/
theorem key_of_group (hsame : ∀ x y, same x y = true → x.key = y.key)
    {group : KeyValue × List KeyValue} (hgroup : group ∈ grouped same kva) {kv : KeyValue}
    (hkv : kv ∈ group.2) : kv.key = group.1.key := by
  rcases grouped_same hgroup hkv with rfl | htest
  · rfl
  · exact hsame _ _ htest

theorem mem_keys_reduceCalls (hsame : ∀ x y, same x y = true → x.key = y.key)
    (key : List UInt8) :
    key ∈ (reduceCalls same kva).map ReduceCall.key ↔ key ∈ kva.map KeyValue.key := by
  rw [keys_reduceCalls]
  constructor
  · intro hkey
    obtain ⟨group, hgroup, rfl⟩ := List.mem_map.mp hkey
    exact List.mem_map_of_mem ((grouped_firsts same kva).subset (List.mem_map_of_mem hgroup))
  · intro hkey
    obtain ⟨kv, hkv, rfl⟩ := List.mem_map.mp hkey
    obtain ⟨group, hgroup, hmem⟩ := exists_group same hkv
    exact List.mem_map.mpr ⟨group, hgroup, (key_of_group hsame hgroup hmem).symm⟩

/-- On sorted pairs the loop does what it is for as soon as no key is called twice. -/
theorem oncePerKey_of_nodup (hsorted : SortedByKey kva)
    (hsame : ∀ x y, same x y = true → x.key = y.key)
    (hnd : ((reduceCalls same kva).map ReduceCall.key).Nodup) :
    OncePerKey kva (reduceCalls same kva) := by
  rw [keys_reduceCalls] at hnd
  refine ⟨?_, mem_keys_reduceCalls hsame, ?_⟩
  · rw [keys_reduceCalls]
    exact grouped_keys_lt_of_nodup hsorted hnd
  · intro call hcall
    obtain ⟨group, hgroup, rfl⟩ := List.mem_map.mp hcall
    have hall := filter_eq_group hnd (fun _ hp _ hx => key_of_group hsame hp hx) hgroup
    rw [grouped_flatMap] at hall
    rw [valuesOf, hall]

end Loop

/-- The sequential program reduces every key once. -/
theorem sequentialCalls_oncePerKey (hsorted : SortedByKey kva) :
    OncePerKey kva (sequentialCalls kva) := by
  apply oncePerKey_of_nodup hsorted (fun _ _ h => of_decide_eq_true h)
  rw [keys_reduceCalls]
  exact (grouped_keys_lt hsorted).nodup

/-! ## The loop of the worker -/

theorem doReduce_sameKey (x y : KeyValue) (h : decide (x = y) = true) : x.key = y.key :=
  congrArg KeyValue.key (of_decide_eq_true h)

/-- Where no key has two values, pairs and keys can be compared alike. -/
theorem OneValue.doReduceCalls_eq (h : OneValue kva) : doReduceCalls kva = sequentialCalls kva := by
  have htests : ∀ x ∈ kva, ∀ y ∈ kva, decide (x = y) = decide (x.key = y.key) := by
    intro x hx y hy
    rw [decide_eq_decide]
    constructor
    · exact congrArg KeyValue.key
    · intro hkey
      have hvalue := h x hx y hy hkey
      cases x
      cases y
      simp only [KeyValue.mk.injEq]
      exact ⟨hkey, hvalue⟩
  rw [doReduceCalls, sequentialCalls, reduceCalls, reduceCalls, grouped_congr htests]

/-- Pairs of one key are in one group, and so they are equal. -/
theorem oneValue_of_nodup (hnd : ((doReduceCalls kva).map ReduceCall.key).Nodup) :
    OneValue kva := by
  intro a ha b hb hkey
  obtain ⟨p, hp, hap⟩ := exists_group (fun x y => decide (x = y)) ha
  obtain ⟨q, hq, hbq⟩ := exists_group (fun x y => decide (x = y)) hb
  have hfirst : ∀ {group : KeyValue × List KeyValue} {kv : KeyValue},
      group ∈ grouped (fun x y => decide (x = y)) kva → kv ∈ group.2 → kv = group.1 :=
    fun hgroup hkv => (grouped_same hgroup hkv).elim id of_decide_eq_true
  rw [doReduceCalls, keys_reduceCalls] at hnd
  have hpq : p = q := by
    apply List.inj_on_of_nodup_map hnd hp hq
    rw [← hfirst hp hap, ← hfirst hq hbq]
    exact hkey
  rw [hfirst hp hap, hfirst hq hbq, hpq]

/-- As many lines as the sequential program writes are one for each key. -/
theorem nodup_of_length_eq (hkva' : SortedByKey kva') (hperm : kva.Perm kva')
    (hlen : (doReduceCalls kva).length = (sequentialCalls kva').length) :
    ((doReduceCalls kva).map ReduceCall.key).Nodup := by
  have honce := sequentialCalls_oncePerKey hkva'
  have hsub : (sequentialCalls kva').map ReduceCall.key ⊆ (doReduceCalls kva).map ReduceCall.key := by
    intro key hkey
    rw [honce.keys, ← (hperm.map KeyValue.key).mem_iff] at hkey
    exact (mem_keys_reduceCalls doReduce_sameKey key).mpr hkey
  have hkeys := (List.subperm_of_subset honce.nodup hsub).perm_of_length_le
    (by rw [List.length_map, List.length_map, hlen])
  exact hkeys.nodup_iff.mp honce.nodup

theorem OneValue.oncePerKey (h : OneValue kva) (hsorted : SortedByKey kva) :
    OncePerKey kva (doReduceCalls kva) := by
  rw [h.doReduceCalls_eq]
  exact sequentialCalls_oncePerKey hsorted

/-- The lines tell whether every key is reduced once: otherwise there are more of them. -/
theorem reduce_lines_iff (hfree : OrderFree reducef) (hkva : SortedByKey kva)
    (hkva' : SortedByKey kva') (hperm : kva.Perm kva') :
    outputLines reducef (doReduceCalls kva) = outputLines reducef (sequentialCalls kva') ↔
      OneValue kva := by
  constructor
  · intro hlines
    apply oneValue_of_nodup
    apply nodup_of_length_eq hkva' hperm
    simpa [outputLines] using congrArg List.length hlines
  · intro hone
    exact (hone.oncePerKey hkva).same_lines (sequentialCalls_oncePerKey hkva') hperm hfree

/-- Both sorts may leave pairs of one key in any order. The sequential program calls `reducef`
once for each key, in increasing order and with all values of the key. The worker does so,
and writes the same lines, if and only if no key comes with two different values. -/
theorem reduce_agrees_iff (hfree : OrderFree reducef) (hkva : SortedByKey kva)
    (hkva' : SortedByKey kva') (hperm : kva.Perm kva') :
    OncePerKey kva' (sequentialCalls kva') ∧
      (OncePerKey kva (doReduceCalls kva) ↔ OneValue kva) ∧
      (outputLines reducef (doReduceCalls kva) = outputLines reducef (sequentialCalls kva') ↔
        OneValue kva) := by
  refine ⟨sequentialCalls_oncePerKey hkva', ⟨?_, ?_⟩, reduce_lines_iff hfree hkva hkva' hperm⟩
  · intro honce
    exact oneValue_of_nodup honce.nodup
  · intro hone
    exact hone.oncePerKey hkva

/-- How many values there are, as a byte. -/
def countValues (_ : List UInt8) (values : List (List UInt8)) : List UInt8 :=
  [values.length.toUInt8]

theorem countValues_orderFree : OrderFree countValues := by
  intro key values values' hperm
  rw [countValues, countValues, hperm.length_eq]

/-- The word `a` twice and the word `b`, each with the value 1. -/
def wordCount : List KeyValue := [⟨[97], [49]⟩, ⟨[97], [49]⟩, ⟨[98], [49]⟩]

theorem reduce_agrees_on_wordCount :
    OncePerKey wordCount (doReduceCalls wordCount) ∧
      outputLines countValues (doReduceCalls wordCount) =
        outputLines countValues (sequentialCalls wordCount) := by
  have hsorted : SortedByKey wordCount := by
    unfold SortedByKey
    decide
  have hone : OneValue wordCount := by
    unfold OneValue
    decide
  obtain ⟨-, honce, hlines⟩ :=
    reduce_agrees_iff countValues_orderFree hsorted hsorted (List.Perm.refl _)
  exact ⟨honce.mpr hone, hlines.mpr hone⟩

/-- The word `a` in two files. -/
def twoPlaces : List KeyValue := [⟨[97], [49]⟩, ⟨[97], [50]⟩]

theorem key_reduced_twice :
    SortedByKey twoPlaces ∧ OrderFree countValues ∧
      doReduceCalls twoPlaces = [⟨[97], [[49]]⟩, ⟨[97], [[50]]⟩] ∧
      sequentialCalls twoPlaces = [⟨[97], [[49], [50]]⟩] ∧
      ¬ OncePerKey twoPlaces (doReduceCalls twoPlaces) ∧
      outputLines countValues (doReduceCalls twoPlaces) ≠
        outputLines countValues (sequentialCalls twoPlaces) := by
  have hsorted : SortedByKey twoPlaces := by
    unfold SortedByKey
    decide
  have hcalls : doReduceCalls twoPlaces = [⟨[97], [[49]]⟩, ⟨[97], [[50]]⟩] := by decide
  refine ⟨hsorted, countValues_orderFree, hcalls, by decide, ?_, by decide⟩
  intro honce
  have hnd := honce.nodup
  rw [hcalls] at hnd
  exact absurd hnd (by decide)

/-! ## The sorts -/

theorem sortedByKey_insertionSort (kva : List KeyValue) :
    SortedByKey (kva.insertionSort fun a b => ¬ b.key < a.key) := by
  have htotal : Std.Total fun a b : KeyValue => ¬ b.key < a.key :=
    ⟨fun a b => List.le_total a.key b.key⟩
  have htrans : IsTrans KeyValue fun a b => ¬ b.key < a.key :=
    ⟨fun _ _ _ hab hbc => List.le_trans (α := UInt8) hab hbc⟩
  exact List.pairwise_insertionSort (fun a b : KeyValue => ¬ b.key < a.key) kva

theorem sortedByKey_shuffle (dir : Directory) (files : List FileName) :
    SortedByKey (shuffle dir files) := by
  unfold shuffle
  cases readFiles dir files with
  | none => exact List.Pairwise.nil
  | some kva => exact sortedByKey_insertionSort kva

end RaftImplementation.Mr
