import RaftImplementation.Library.Utf8
import RaftImplementation.Mr.Calls
import RaftImplementation.Mr.Reduce

/-!
# A whole job (`coordinator.go`, `worker.go`, `wc.go`, `indexer.go`)

The map tasks of all files, the reduce tasks that `makeReduceTasks` makes of what they leave,
and the output files of these, against the one output file of the sequential program.
`makeReduceTasks` is there but its call in `toNextPhase` is commented out: the results say
what the job does once the call is made. The job begins in an empty directory, since
`selectReduceName` would also find what an earlier job has left.

Between the tasks the pairs are JSON, so the reducers read what `decoded` makes of the
directory: strings that are not UTF-8 do not come through.

The map tasks may be done in any order, and so may the reduce tasks: no task writes to a file
of another. The sequential program has a map function of its own here, equal to that of the
workers up to the order of the pairs, as the `Map` of the indexer goes through a Go map.
-/

namespace RaftImplementation.Mr

open Library

/-! ## The reduce tasks -/

namespace Coordinator

/-- One turn of the loop of `makeReduceTasks`. -/
def makeReduceTask (dir : Directory) (c : Coordinator) (i : Nat) : Coordinator :=
  let (id, c) := c.generateTaskId
  let task : Task :=
    { taskId := id, taskType := .reduceTask, fileSlice := selectReduceName dir i }
  { c with
    taskMetaHolder := (TaskMetaHolder.acceptMeta c.taskMetaHolder ⟨.waiting, task⟩).1
    taskChannelReduce := c.taskChannelReduce ++ [task] }

def makeReduceTasks (dir : Directory) (c : Coordinator) : Coordinator :=
  (List.range c.reducerNum).foldl (makeReduceTask dir) c

end Coordinator

/-- The reduce task of bucket `i`, after `maps` map tasks. -/
def reduceTaskFor (dir : Directory) (maps i : Nat) : Task :=
  { taskId := (maps + i : Nat), taskType := .reduceTask, fileSlice := selectReduceName dir i }

/-- The map tasks are all that has been made. -/
structure OnlyMaps (files : List FileName) (nReduce : Nat) (c : Coordinator) : Prop where
  reducerNum : c.reducerNum = nReduce
  taskId : c.taskId = files.length
  channel : c.taskChannelReduce = []

namespace OnlyMaps

variable {files : List FileName} {nReduce : Nat} {c c' : Coordinator} {replies : List Task}

theorem makeMapTasks (h : OnlyMaps [] nReduce c) (files : List FileName) :
    OnlyMaps files nReduce (c.makeMapTasks files) := by
  induction files using List.reverseRecOn with
  | nil => exact h
  | append_singleton files v ih =>
    have hsnoc : c.makeMapTasks (files ++ [v]) = (c.makeMapTasks files).makeMapTask v := by
      simp [Coordinator.makeMapTasks]
    rw [hsnoc]
    refine ⟨ih.reducerNum, ?_, ih.channel⟩
    rw [List.length_append, List.length_singleton, Int.natCast_add, ← ih.taskId]
    rfl

theorem pollNone (h : OnlyMaps files nReduce c) : OnlyMaps files nReduce c.pollNone.1 := by
  rw [Coordinator.pollNone]
  split
  · rw [Coordinator.toNextPhase]
    cases c.distPhase with
    | mapPhase => exact ⟨h.reducerNum, h.taskId, h.channel⟩
    | reducePhase => exact ⟨h.reducerNum, h.taskId, h.channel⟩
    | allDone => exact h
  · exact h

theorem pollTask (h : OnlyMaps files nReduce c) : OnlyMaps files nReduce c.pollTask.1 := by
  rw [Coordinator.pollTask]
  cases c.distPhase with
  | mapPhase =>
    cases c.taskChannelMap with
    | nil => exact h.pollNone
    | cons task rest => exact ⟨h.reducerNum, h.taskId, h.channel⟩
  | reducePhase =>
    simp only [h.channel]
    exact h.pollNone
  | allDone => exact h

theorem markFinished (h : OnlyMaps files nReduce c) {args : Task}
    (hm : c.markFinished args = some c') : OnlyMaps files nReduce c' := by
  obtain rfl | ⟨task, -, rfl⟩ := markFinished_inv hm
  · exact h
  · exact ⟨h.reducerNum, h.taskId, h.channel⟩

theorem call (h : OnlyMaps files nReduce c) {a : Call} {es : List Task}
    (hcall : c.call a = some (c', es)) : OnlyMaps files nReduce c' := by
  cases a with
  | pollTask =>
    cases hcall
    exact h.pollTask
  | markFinished args =>
    obtain ⟨c₁, hm, heq⟩ := Option.map_eq_some_iff.mp hcall
    cases heq
    exact h.markFinished hm

theorem of_run (hrun : Run Coordinator.call always (.makeCoordinator files nReduce) replies c) :
    OnlyMaps files nReduce c := by
  induction hrun with
  | refl =>
    have hnone : OnlyMaps [] nReduce ⟨nReduce, 0, .mapPhase, [], [], ∅, files⟩ := ⟨rfl, rfl, rfl⟩
    exact hnone.makeMapTasks files
  | snoc _ _ hcall ih => exact ih.call hcall

/-- The loop of `makeReduceTasks` after `k` turns. -/
theorem makeReduceTask_loop (h : OnlyMaps files nReduce c) (dir : Directory) (k : Nat) :
    ((List.range k).foldl (Coordinator.makeReduceTask dir) c).taskId = (files.length + k : Nat) ∧
      ((List.range k).foldl (Coordinator.makeReduceTask dir) c).taskChannelReduce =
        (List.range k).map (reduceTaskFor dir files.length) := by
  induction k with
  | zero => exact ⟨h.taskId, h.channel⟩
  | succ k ih =>
    obtain ⟨hid, hch⟩ := ih
    rw [List.range_succ, List.foldl_append, List.map_append, ← hch]
    refine ⟨?_, ?_⟩
    · rw [← Nat.add_assoc, Int.natCast_add, ← hid]
      rfl
    · rw [List.map_singleton, reduceTaskFor, ← hid]
      rfl

theorem makeReduceTasks (h : OnlyMaps files nReduce c) (dir : Directory) :
    (c.makeReduceTasks dir).taskChannelReduce =
      (List.range nReduce).map (reduceTaskFor dir files.length) := by
  rw [Coordinator.makeReduceTasks, h.reducerNum]
  exact (h.makeReduceTask_loop dir nReduce).2

end OnlyMaps

/-! ## All reducers together -/

section Reducers

variable {pairs kva : List KeyValue} {read : Nat → List KeyValue} {nReduce : Nat}
variable {reducef : List UInt8 → List (List UInt8) → List UInt8}

/-- The keys of the calls of all reducers, where `read r` is what reducer `r` reads. -/
def jobKeys (read : Nat → List KeyValue) (nReduce : Nat) : List (List UInt8) :=
  (List.range nReduce).flatMap fun r => (doReduceCalls (read r)).map ReduceCall.key

/-- What reducer `r` reads is what is in the files that it finds. -/
structure ReadsFound (pairs : List KeyValue) (nReduce : Nat) (read : Nat → List KeyValue) :
    Prop where
  pos : 1 ≤ nReduce
  sorted : ∀ r, SortedByKey (read r)
  found : ∀ r, (read r).Perm (pairs.filter fun kv => Finds r (bucketOf nReduce kv))

/-- No bucket has a number of two digits. -/
def OneDigit (nReduce : Nat) (pairs : List KeyValue) : Prop :=
  ∀ kv ∈ pairs, ihash kv.key % nReduce < 10

namespace ReadsFound

theorem mem_read (h : ReadsFound pairs nReduce read) {r : Nat} {kv : KeyValue} :
    kv ∈ read r ↔ kv ∈ pairs ∧ Finds r (bucketOf nReduce kv) := by
  rw [(h.found r).mem_iff, List.mem_filter, decide_eq_true_iff]

theorem own (h : ReadsFound pairs nReduce read) {kv : KeyValue} (hkv : kv ∈ pairs) :
    bucketOf nReduce kv < nReduce ∧ kv ∈ read (bucketOf nReduce kv) :=
  ⟨Nat.mod_lt _ h.pos, h.mem_read.mpr ⟨hkv, List.suffix_refl _⟩⟩

theorem mem_jobKeys (h : ReadsFound pairs nReduce read) (key : List UInt8) :
    key ∈ jobKeys read nReduce ↔ key ∈ pairs.map KeyValue.key := by
  constructor
  · intro hkey
    obtain ⟨r, -, hr⟩ := List.mem_flatMap.mp hkey
    obtain ⟨kv, hkv, rfl⟩ := List.mem_map.mp ((mem_keys_reduceCalls doReduce_sameKey key).mp hr)
    exact List.mem_map_of_mem (h.mem_read.mp hkv).1
  · intro hkey
    obtain ⟨kv, hkv, rfl⟩ := List.mem_map.mp hkey
    obtain ⟨hlt, hown⟩ := h.own hkv
    refine List.mem_flatMap.mpr ⟨_, List.mem_range.mpr hlt, ?_⟩
    exact (mem_keys_reduceCalls doReduce_sameKey _).mpr (List.mem_map_of_mem hown)

/-- A reducer reads only its own pairs, if no bucket has two digits. -/
theorem mem_read_of_oneDigit (h : ReadsFound pairs nReduce read) (hsmall : OneDigit nReduce pairs)
    {r : Nat} {kv : KeyValue} : kv ∈ read r ↔ kv ∈ pairs ∧ bucketOf nReduce kv = r := by
  rw [h.mem_read]
  constructor
  · rintro ⟨hkv, hfinds⟩
    exact ⟨hkv, ((toDigits_suffix_iff (hsmall kv hkv) r).mp hfinds).symm⟩
  · rintro ⟨hkv, rfl⟩
    exact ⟨hkv, List.suffix_refl _⟩

theorem oneValue_read (h : ReadsFound pairs nReduce read) (hone : OneValue pairs) (r : Nat) :
    OneValue (read r) :=
  fun a ha b hb => hone a (h.mem_read.mp ha).1 b (h.mem_read.mp hb).1

/-- No key is reduced twice if and only if no key comes with two values and no bucket has a
number of two digits. -/
theorem nodup_jobKeys_iff (h : ReadsFound pairs nReduce read) :
    (jobKeys read nReduce).Nodup ↔ OneValue pairs ∧ OneDigit nReduce pairs := by
  rw [jobKeys, List.nodup_flatMap]
  constructor
  · rintro ⟨hnd, hdisjoint⟩
    constructor
    · -- two pairs of one key are read by one reducer
      intro a ha b hb hkey
      obtain ⟨hlt, hown⟩ := h.own ha
      have hsame : bucketOf nReduce b = bucketOf nReduce a := by rw [bucketOf, bucketOf, hkey]
      have hown' := (h.own hb).2
      rw [hsame] at hown'
      exact oneValue_of_nodup (hnd _ (List.mem_range.mpr hlt)) a hown b hown' hkey
    · -- the file of a longer bucket number is found by the reducer of its last digit
      intro kv hkv
      by_contra hlarge
      obtain ⟨hlt, hown⟩ := h.own hkv
      have hother : kv ∈ read (bucketOf nReduce kv % 10) :=
        h.mem_read.mpr ⟨hkv, toDigits_mod_suffix _⟩
      have hless : bucketOf nReduce kv % 10 < bucketOf nReduce kv := by
        have hten : 10 ≤ bucketOf nReduce kv := Nat.not_lt.mp hlarge
        omega
      have hboth := List.pairwise_iff_getElem.mp hdisjoint _ _
        (by rw [List.length_range]; omega) (by rwa [List.length_range]) hless
      rw [List.getElem_range, List.getElem_range] at hboth
      exact hboth ((mem_keys_reduceCalls doReduce_sameKey _).mpr (List.mem_map_of_mem hother))
        ((mem_keys_reduceCalls doReduce_sameKey _).mpr (List.mem_map_of_mem hown))
  · rintro ⟨hone, hsmall⟩
    constructor
    · intro r _
      exact ((h.oneValue_read hone r).oncePerKey (h.sorted r)).nodup
    · apply List.nodup_range.imp
      intro r r' hne key hr hr'
      obtain ⟨kv, hkv, rfl⟩ := List.mem_map.mp ((mem_keys_reduceCalls doReduce_sameKey _).mp hr)
      obtain ⟨kv', hkv', hkey⟩ := List.mem_map.mp ((mem_keys_reduceCalls doReduce_sameKey _).mp hr')
      apply hne
      rw [← ((h.mem_read_of_oneDigit hsmall).mp hkv).2,
        ← ((h.mem_read_of_oneDigit hsmall).mp hkv').2, bucketOf, bucketOf, hkey]

/-- Where nothing is reduced twice, each key gets a line for all its values. -/
theorem lines_eq (h : ReadsFound pairs nReduce read) (hfree : OrderFree reducef)
    (hone : OneValue pairs) (hsmall : OneDigit nReduce pairs) :
    ((List.range nReduce).flatMap fun r => outputLines reducef (doReduceCalls (read r))) =
      (jobKeys read nReduce).map fun key => outputLine key (reducef key (valuesOf pairs key)) := by
  rw [jobKeys, List.map_flatMap]
  apply List.flatMap_congr
  intro r _
  have honce := (h.oneValue_read hone r).oncePerKey (h.sorted r)
  rw [honce.outputLines_eq hfree]
  apply List.map_congr_left
  intro key hkey
  obtain ⟨kv, hkv, rfl⟩ := List.mem_map.mp ((honce.keys key).mp hkey)
  have hbucket := ((h.mem_read_of_oneDigit hsmall).mp hkv).2
  have hall : (valuesOf (read r) kv.key).Perm (valuesOf pairs kv.key) := by
    apply (valuesOf_perm (h.found r) kv.key).trans
    rw [valuesOf, valuesOf, List.filter_filter, List.filter_congr]
    intro kv' hkv'
    by_cases hkey' : kv'.key = kv.key
    · have hfinds : Finds r (bucketOf nReduce kv') := by
        rw [bucketOf, hkey', ← hbucket]
        exact List.suffix_refl _
      simp [hkey', hfinds]
    · simp [hkey']
  rw [hfree _ _ _ hall]

/-- The lines of all reducers are those of the sequential program if and only if nothing is
reduced twice. -/
theorem lines_perm_iff (h : ReadsFound pairs nReduce read) (hfree : OrderFree reducef)
    (hkva : SortedByKey kva) (hperm : pairs.Perm kva) :
    ((List.range nReduce).flatMap fun r => outputLines reducef (doReduceCalls (read r))).Perm
        (outputLines reducef (sequentialCalls kva)) ↔
      OneValue pairs ∧ OneDigit nReduce pairs := by
  have honce := sequentialCalls_oncePerKey hkva
  have hkeys : ∀ key, key ∈ (sequentialCalls kva).map ReduceCall.key ↔
      key ∈ jobKeys read nReduce := by
    intro key
    rw [honce.keys, h.mem_jobKeys, (hperm.map KeyValue.key).mem_iff]
  rw [← h.nodup_jobKeys_iff]
  constructor
  · intro hlines
    -- there are as many calls as keys, so no key has two
    have hlen : (jobKeys read nReduce).length = ((sequentialCalls kva).map ReduceCall.key).length := by
      have heq := hlines.length_eq
      simp only [outputLines, List.length_flatMap, List.length_map] at heq
      simp only [jobKeys, List.length_flatMap, List.length_map, heq]
    have hsub := List.subperm_of_subset honce.nodup fun key hkey => (hkeys key).mp hkey
    exact (hsub.perm_of_length_le hlen.le).nodup_iff.mp honce.nodup
  · intro hnd
    obtain ⟨hone, hsmall⟩ := h.nodup_jobKeys_iff.mp hnd
    have hsame := (List.perm_ext_iff_of_nodup hnd honce.nodup).mpr fun key => (hkeys key).symm
    rw [h.lines_eq hfree hone hsmall, honce.outputLines_eq hfree]
    apply (hsame.map _).trans
    apply List.Perm.of_eq
    apply List.map_congr_left
    intro key _
    rw [hfree key _ _ (valuesOf_perm hperm key)]

end ReadsFound

end Reducers

/-! ## From the files to the lines -/

section Job

variable {mapf mapf' : FileName → List UInt8 → List KeyValue}
variable {reducef : List UInt8 → List (List UInt8) → List UInt8}
variable {inputs : FileName → Option (List UInt8)} {files : List FileName} {nReduce : Nat}
variable {tasks reduceTasks replies : List Task} {dir dir' : Directory} {c : Coordinator}

/-- The pairs that `mapf` makes of the files. -/
def pairsOf (mapf : FileName → List UInt8 → List KeyValue)
    (inputs : FileName → Option (List UInt8)) (files : List FileName) : List KeyValue :=
  files.flatMap fun v => ((inputs v).map (mapf v)).getD []

/-- What the reduce tasks write, over all output files. -/
def jobLines (reducef : List UInt8 → List (List UInt8) → List UInt8) (dir : Directory)
    (reduceTasks : List Task) : List (List UInt8) :=
  reduceTasks.flatMap fun response => (doReduceTask reducef dir response).2

/-! ### Through JSON -/

/-- A map task ends only if its file is there. -/
theorem intermediate_isSome (h : doMapTasks mapf inputs dir tasks = some dir') {task : Task}
    (htask : task ∈ tasks) : (intermediate mapf inputs task).isSome = true := by
  induction tasks generalizing dir with
  | nil => cases htask
  | cons first tasks ih =>
    obtain ⟨dir₁, hfirst, hrest⟩ := Option.bind_eq_some_iff.mp h
    rcases List.mem_cons.mp htask with rfl | htask
    · cases hkvs : intermediate mapf inputs task with
      | none => simp [doMapTask, hkvs] at hfirst
      | some kvs => rfl
    · exact ih hrest htask

theorem collect_of_inputs (h : ∀ v ∈ files, (inputs v).isSome = true) :
    collect mapf inputs files = some (pairsOf mapf inputs files) := by
  induction files with
  | nil => rfl
  | cons v files ih =>
    obtain ⟨content, hv⟩ := Option.isSome_iff_exists.mp (h v List.mem_cons_self)
    rw [collect, ih fun v hv => h v (List.mem_cons_of_mem _ hv)]
    simp [pairsOf, hv]

theorem pairsOf_perm (hsame : ∀ v content, (mapf v content).Perm (mapf' v content)) :
    (pairsOf mapf inputs files).Perm (pairsOf mapf' inputs files) := by
  apply List.Perm.flatMap_left
  intro v _
  cases inputs v with
  | none => exact List.Perm.refl _
  | some content => exact hsame v content

/-- The tasks emit the pairs of the files. -/
theorem emitted_mapTasks (nReduce : Nat) (files : List FileName) :
    (files.mapIdx (mapTaskFor nReduce)).flatMap (emitted mapf inputs) =
      pairsOf mapf inputs files := by
  have hfile : ∀ i v, emitted mapf inputs (mapTaskFor nReduce i v) =
      ((inputs v).map (mapf v)).getD [] := fun _ _ => rfl
  induction files using List.reverseRecOn with
  | nil => rfl
  | append_singleton files v ih =>
    rw [List.mapIdx_concat, List.flatMap_append, ih, List.flatMap_singleton, hfile, pairsOf,
      pairsOf, List.flatMap_append, List.flatMap_singleton]

/-- The map tasks of the files, done in some order. -/
structure MapsDone (mapf : FileName → List UInt8 → List KeyValue)
    (inputs : FileName → Option (List UInt8)) (files : List FileName) (nReduce : Nat)
    (dir : Directory) : Prop where
  pos : 1 ≤ nReduce
  done : ∃ tasks, tasks.Perm (files.mapIdx (mapTaskFor nReduce)) ∧
    doMapTasks mapf inputs .empty tasks = some dir

theorem MapsDone.inputs_isSome (h : MapsDone mapf inputs files nReduce dir) :
    ∀ v ∈ files, (inputs v).isSome = true := by
  intro v hv
  obtain ⟨tasks, hperm, hdone⟩ := h.done
  obtain ⟨i, hi, rfl⟩ := List.mem_iff_getElem.mp hv
  have htask : mapTaskFor nReduce i files[i] ∈ tasks :=
    hperm.mem_iff.mpr (List.mem_mapIdx.mpr ⟨i, hi, rfl⟩)
  have hkvs := intermediate_isSome hdone htask
  simpa [intermediate, mapTaskFor] using hkvs

theorem MapsDone.readsFound (h : MapsDone mapf inputs files nReduce dir) :
    ReadsFound (pairsOf mapf inputs files) nReduce
      fun r => shuffle dir (selectReduceName dir r) := by
  obtain ⟨tasks, hperm, hdone⟩ := h.done
  refine ⟨h.pos, fun r => sortedByKey_shuffle dir _, ?_⟩
  intro r
  have hids : (tasks.map Task.taskId).Nodup :=
    (hperm.map Task.taskId).nodup_iff.mpr (taskIds_nodup nReduce files)
  have hrn : ∀ task ∈ tasks, task.reducerNum = nReduce := by
    intro task htask
    obtain ⟨i, hi, rfl⟩ := List.mem_mapIdx.mp (hperm.mem_iff.mp htask)
    rfl
  apply (shuffle_selectReduceName h.pos hids hrn hdone r).trans
  rw [← emitted_mapTasks nReduce files]
  exact (hperm.flatMap_right _).filter _

theorem jobLines_perm (h : OnlyMaps files nReduce c)
    (hreduce : reduceTasks.Perm (c.makeReduceTasks dir).taskChannelReduce) :
    (jobLines reducef dir reduceTasks).Perm ((List.range nReduce).flatMap fun r =>
      outputLines reducef (doReduceCalls (shuffle dir (selectReduceName dir r)))) := by
  rw [h.makeReduceTasks] at hreduce
  apply (hreduce.flatMap_right _).trans
  rw [List.flatMap_map]
  exact List.Perm.refl _

/-- What the sequential program writes. -/
def sequentialLines (mapf : FileName → List UInt8 → List KeyValue)
    (reducef : List UInt8 → List (List UInt8) → List UInt8)
    (inputs : FileName → Option (List UInt8)) (files : List FileName) : List (List UInt8) :=
  outputLines reducef (sequentialCalls
    ((pairsOf mapf inputs files).insertionSort fun a b => ¬ b.key < a.key))

theorem mrsequential_eq (hne : files ≠ []) (hin : ∀ v ∈ files, (inputs v).isSome = true) :
    mrsequential mapf reducef inputs files =
      some (outName 0, sequentialLines mapf reducef inputs files) := by
  rw [mrsequential, if_neg hne, collect_of_inputs hin]
  rfl

/-- The output files of a job hold the lines of the sequential program if and only if nothing
is reduced twice. -/
theorem jobLines_perm_iff (hfree : OrderFree reducef)
    (hsame : ∀ v content, (mapf v content).Perm (mapf' v content))
    (honly : OnlyMaps files nReduce c) (hmaps : MapsDone mapf inputs files nReduce dir)
    (hreduce : reduceTasks.Perm (c.makeReduceTasks dir).taskChannelReduce) :
    (jobLines reducef dir reduceTasks).Perm (sequentialLines mapf' reducef inputs files) ↔
      OneValue (pairsOf mapf inputs files) ∧ OneDigit nReduce (pairsOf mapf inputs files) := by
  have hlines : (jobLines reducef dir reduceTasks).Perm _ := jobLines_perm honly hreduce
  have hsort := List.perm_insertionSort (fun a b : KeyValue => ¬ b.key < a.key)
    (pairsOf mapf' inputs files)
  rw [← hmaps.readsFound.lines_perm_iff hfree (sortedByKey_insertionSort _)
    ((pairsOf_perm hsame).trans hsort.symm)]
  exact ⟨hlines.symm.trans, hlines.trans⟩

end Job

/-- The files `a` and `b`, with the letter `l` each. -/
def twoLetters : List FileName := [['a'], ['b']]

end RaftImplementation.Mr
