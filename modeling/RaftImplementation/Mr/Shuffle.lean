import Mathlib.Data.List.Sort
import RaftImplementation.Library.Buckets
import RaftImplementation.Library.Numerals
import RaftImplementation.Mr.Coordinator

/-!
# From the map tasks to the reducers (`worker.go`, `coordinator.go`)

`DoMapTask` puts the pairs of bucket `i` into the file `mr-tmp-<task>-<i>`, and the files
of reducer `r` are those that `selectReduceName` finds by their names: they begin with
`mr-tmp` and end with the numeral of `r`. The suffix has no separator in front, so the
file of a bucket of two or more digits is found by other reducers as well.

A file is the list of the values in it: JSON is taken to give back what was encoded, as it
does for strings in UTF-8 (`Job` has what becomes of other ones). The sorts may be any:
`sort.Sort` is not stable, and the results below are up to order.
-/

namespace RaftImplementation.Mr

open Library

/-- A Go string is a sequence of bytes. -/
structure KeyValue where
  key : List UInt8
  value : List UInt8
  deriving DecidableEq, Repr

/-- `fnv.New32a`. -/
def fnv32a (data : List UInt8) : UInt32 :=
  data.foldl (fun h b => (h ^^^ b.toUInt32) * 16777619) 2166136261

def ihash (key : List UInt8) : Nat := (fnv32a key &&& 0x7fffffff).toNat

/-! ## Files -/

/-- The working directory: no two files have the same name. -/
structure Directory where
  entries : List (FileName × List KeyValue)
  nodup : (entries.map Prod.fst).Nodup

namespace Directory

def empty : Directory := ⟨[], List.nodup_nil⟩

/-- `os.Create`, and the values written to the file: one of that name is truncated. -/
def create (dir : Directory) (name : FileName) (kvs : List KeyValue) : Directory where
  entries := dir.entries.filter (fun e => e.1 ≠ name) ++ [(name, kvs)]
  nodup := by
    have hsub := (dir.entries.filter_sublist (p := fun e => e.1 ≠ name)).map Prod.fst
    rw [List.map_append, List.nodup_append]
    exact ⟨dir.nodup.sublist hsub, by simp, by simp⟩

def openFile (dir : Directory) (name : FileName) : Option (List KeyValue) :=
  dir.entries.lookup name

/-- The names in order. -/
def readDir (dir : Directory) : List FileName :=
  (dir.entries.map Prod.fst).insertionSort fun a b => ¬ b < a

end Directory

/-! ## The functions of the two sources -/

def oname (taskId : Int) (i : Nat) : FileName :=
  ['m', 'r', '-', 't', 'm', 'p', '-'] ++ itoa taskId ++ '-' :: itoa i

/-- Where `DoMapTask` puts a pair. -/
def bucketOf (rn : Nat) (kv : KeyValue) : Nat := ihash kv.key % rn

/-- The pairs that `mapf` makes of the task's file; `none` if there is no such file
(`FileSlice[0]` panics, or `Open` fails and the worker exits). -/
def intermediate (mapf : FileName → List UInt8 → List KeyValue)
    (inputs : FileName → Option (List UInt8)) (response : Task) : Option (List KeyValue) :=
  match response.fileSlice with
  | [] => none
  | filename :: _ => (inputs filename).map (mapf filename)

/-- The last loop of `DoMapTask`. -/
def writeBuckets (dir : Directory) (taskId : Int) (hashedKV : List (List KeyValue)) (rn : Nat) :
    Directory :=
  (List.range rn).foldl (fun dir i => dir.create (oname taskId i) (hashedKV.getD i [])) dir

/-- With no reducers the first pair is a division by zero. -/
def doMapTask (mapf : FileName → List UInt8 → List KeyValue)
    (inputs : FileName → Option (List UInt8)) (dir : Directory) (response : Task) :
    Option Directory :=
  match intermediate mapf inputs response with
  | none => none
  | some kvs =>
    let rn := response.reducerNum
    if rn = 0 ∧ kvs ≠ [] then none
    else some (writeBuckets dir response.taskId (distribute rn (bucketOf rn) kvs) rn)

def doMapTasks (mapf : FileName → List UInt8 → List KeyValue)
    (inputs : FileName → Option (List UInt8)) : Directory → List Task → Option Directory
  | dir, [] => some dir
  | dir, task :: tasks =>
    (doMapTask mapf inputs dir task).bind fun dir => doMapTasks mapf inputs dir tasks

def selectReduceName (dir : Directory) (reduceNum : Nat) : List FileName :=
  dir.readDir.filter fun name =>
    ['m', 'r', '-', 't', 'm', 'p'] <+: name ∧ itoa reduceNum <:+ name

/-- The loop of `shuffle`, which gives up at the first file that cannot be opened. -/
def readFiles (dir : Directory) : List FileName → Option (List KeyValue)
  | [] => some []
  | filepath :: files =>
    (dir.openFile filepath).bind fun kvs => (readFiles dir files).map (kvs ++ ·)

def shuffle (dir : Directory) (files : List FileName) : List KeyValue :=
  match readFiles dir files with
  | none => []
  | some kva => kva.insertionSort fun a b => ¬ b.key < a.key

/-! ## Names -/

theorem oname_injective {taskId taskId' : Int} {i i' : Nat}
    (h : oname taskId i = oname taskId' i') : taskId = taskId' ∧ i = i' := by
  obtain ⟨hfront, hnum⟩ := append_cons_inj (minus_notMem_toDigits i) (minus_notMem_toDigits i') h
  exact ⟨itoa_injective (List.append_cancel_left hfront), toDigits_injective hnum⟩

/-- Reducer `r` finds the file of bucket `i` if the numeral of `i` ends with that of `r`. -/
def Finds (r i : Nat) : Prop := Nat.toDigits 10 r <:+ Nat.toDigits 10 i

instance (r i : Nat) : Decidable (Finds r i) :=
  inferInstanceAs (Decidable (Nat.toDigits 10 r <:+ Nat.toDigits 10 i))

theorem oname_selected (r : Nat) (taskId : Int) (i : Nat) :
    (['m', 'r', '-', 't', 'm', 'p'] <+: oname taskId i ∧ itoa r <:+ oname taskId i) ↔
      Finds r i := by
  have hstart : ['m', 'r', '-', 't', 'm', 'p'] <+: oname taskId i :=
    ⟨'-' :: itoa taskId ++ '-' :: itoa i, by simp [oname]⟩
  constructor
  · rintro ⟨-, hsuffix⟩
    exact (suffix_append_cons_iff (minus_notMem_toDigits r)).mp hsuffix
  · intro h
    exact ⟨hstart, (suffix_append_cons_iff (minus_notMem_toDigits r)).mpr h⟩

/-! ## Reading files back -/

namespace Directory

theorem openFile_of_mem (dir : Directory) {e : FileName × List KeyValue} (he : e ∈ dir.entries) :
    dir.openFile e.1 = some e.2 := by
  obtain ⟨entries, hnd⟩ := dir
  simp only [openFile]
  induction entries with
  | nil => cases he
  | cons f entries ih =>
    rw [List.map_cons, List.nodup_cons] at hnd
    cases List.mem_cons.mp he with
    | inl heq =>
      rw [heq, List.lookup_cons, beq_self_eq_true]
    | inr hmem =>
      have hne : e.1 ≠ f.1 := by
        intro heq
        exact hnd.1 (heq ▸ List.mem_map_of_mem hmem)
      rw [List.lookup_cons, beq_false_of_ne hne]
      exact ih hnd.2 hmem

theorem entries_create {dir : Directory} {name : FileName}
    (h : name ∉ dir.entries.map Prod.fst) (kvs : List KeyValue) :
    (dir.create name kvs).entries = dir.entries ++ [(name, kvs)] := by
  have hall : dir.entries.filter (fun e => e.1 ≠ name) = dir.entries := by
    rw [List.filter_eq_self]
    intro e he
    simp only [ne_eq, decide_eq_true_eq]
    rintro rfl
    exact h (List.mem_map_of_mem he)
  exact congrArg (· ++ [(name, kvs)]) hall

/-- Files with new names, one after the other. -/
theorem entries_foldl_create {dir : Directory} {files : List (FileName × List KeyValue)}
    (h : ((dir.entries ++ files).map Prod.fst).Nodup) :
    (files.foldl (fun dir f => dir.create f.1 f.2) dir).entries = dir.entries ++ files := by
  induction files generalizing dir with
  | nil => simp
  | cons f files ih =>
    have hsplit : dir.entries ++ f :: files = dir.entries ++ [f] ++ files := by simp
    have hnew : f.1 ∉ dir.entries.map Prod.fst := by
      intro hmem
      rw [List.map_append, List.nodup_append] at h
      exact h.2.2 f.1 hmem f.1 (by simp) rfl
    rw [List.foldl_cons, ih (by rwa [entries_create hnew, ← hsplit]), entries_create hnew, hsplit]

end Directory

theorem readFiles_of_open {dir : Directory} {content : FileName → List KeyValue}
    {files : List FileName} (h : ∀ f ∈ files, dir.openFile f = some (content f)) :
    readFiles dir files = some (files.flatMap content) := by
  induction files with
  | nil => rfl
  | cons f files ih =>
    rw [readFiles, h f List.mem_cons_self, ih fun g hg => h g (List.mem_cons_of_mem f hg)]
    rfl

/-- What a reducer reads is what the selected files hold. -/
theorem shuffle_perm (dir : Directory) (selected : FileName → Bool) :
    (shuffle dir (dir.readDir.filter selected)).Perm
      ((dir.entries.filter fun e => selected e.1).flatMap Prod.snd) := by
  have hnames : (dir.readDir.filter selected).Perm
      ((dir.entries.filter fun e => selected e.1).map Prod.fst) := by
    have hsort := (List.perm_insertionSort (fun a b => ¬ b < a) (dir.entries.map Prod.fst)).filter
      selected
    rwa [List.filter_map] at hsort
  have hopen : ∀ f ∈ dir.readDir.filter selected,
      dir.openFile f = some ((dir.openFile f).getD []) := by
    intro f hf
    obtain ⟨e, he, rfl⟩ := List.mem_map.mp (hnames.subset hf)
    rw [dir.openFile_of_mem (List.mem_filter.mp he).1]
    rfl
  have hsnd : ((dir.entries.filter fun e => selected e.1).map Prod.fst).flatMap
      (fun f => (dir.openFile f).getD []) =
        (dir.entries.filter fun e => selected e.1).flatMap Prod.snd := by
    rw [List.flatMap_map]
    apply List.flatMap_congr
    intro e he
    rw [dir.openFile_of_mem (List.mem_filter.mp he).1]
    rfl
  rw [shuffle, readFiles_of_open hopen, ← hsnd]
  exact (List.perm_insertionSort _ _).trans (hnames.flatMap_right _)

/-! ## What the map tasks leave -/

section Tasks

variable (mapf : FileName → List UInt8 → List KeyValue) (inputs : FileName → Option (List UInt8))

/-- The pairs that a task emits. -/
def emitted (task : Task) : List KeyValue := (intermediate mapf inputs task).getD []

/-- The files of one task. -/
def bucketFiles (nReduce : Nat) (task : Task) : List (FileName × List KeyValue) :=
  (List.range nReduce).map fun i =>
    (oname task.taskId i, (emitted mapf inputs task).filter fun kv => bucketOf nReduce kv = i)

variable {mapf inputs} {nReduce : Nat} {dir dir' : Directory} {task : Task} {tasks : List Task}

theorem writeBuckets_eq (dir : Directory) (taskId : Int) (rn : Nat) (kvs : List KeyValue) :
    writeBuckets dir taskId (distribute rn (bucketOf rn) kvs) rn =
      ((List.range rn).map fun i => (oname taskId i, kvs.filter fun kv => bucketOf rn kv = i)).foldl
        (fun dir f => dir.create f.1 f.2) dir := by
  rw [List.foldl_map, writeBuckets]
  apply List.foldl_ext
  intro dir i hi
  rw [List.getD_eq_getElem?_getD, getElem?_distribute _ _ (List.mem_range.mp hi)]
  rfl

/-- A task that succeeds adds its files. -/
theorem doMapTask_entries (hrn : task.reducerNum = nReduce)
    (hnd : ((dir.entries ++ bucketFiles mapf inputs nReduce task).map Prod.fst).Nodup)
    (h : doMapTask mapf inputs dir task = some dir') :
    dir'.entries = dir.entries ++ bucketFiles mapf inputs nReduce task := by
  rw [doMapTask] at h
  cases hkvs : intermediate mapf inputs task with
  | none => simp [hkvs] at h
  | some kvs =>
    simp only [hkvs, hrn] at h
    split at h
    · cases h
    · rw [Option.some.injEq, writeBuckets_eq] at h
      rw [bucketFiles, emitted, hkvs, Option.getD_some] at hnd ⊢
      rw [← h]
      exact Directory.entries_foldl_create hnd

theorem doMapTasks_entries (hrn : ∀ task ∈ tasks, task.reducerNum = nReduce)
    (hnd : ((dir.entries ++ tasks.flatMap (bucketFiles mapf inputs nReduce)).map Prod.fst).Nodup)
    (h : doMapTasks mapf inputs dir tasks = some dir') :
    dir'.entries = dir.entries ++ tasks.flatMap (bucketFiles mapf inputs nReduce) := by
  induction tasks generalizing dir with
  | nil =>
    rw [doMapTasks, Option.some.injEq] at h
    simp [h]
  | cons task tasks ih =>
    rw [List.flatMap_cons, ← List.append_assoc] at hnd ⊢
    obtain ⟨dir₁, htask, htasks⟩ := Option.bind_eq_some_iff.mp h
    have hfirst : dir₁.entries = dir.entries ++ bucketFiles mapf inputs nReduce task := by
      apply doMapTask_entries (hrn task List.mem_cons_self) _ htask
      rw [List.map_append] at hnd
      exact (List.nodup_append.mp hnd).1
    rw [← hfirst] at hnd ⊢
    exact ih (fun task htask => hrn task (List.mem_cons_of_mem _ htask)) hnd htasks

/-- Tasks with different ids write different files. -/
theorem bucketFiles_nodup (n : Nat) (mapf : FileName → List UInt8 → List KeyValue)
    (inputs : FileName → Option (List UInt8)) (hids : (tasks.map Task.taskId).Nodup) :
    ((tasks.flatMap (bucketFiles mapf inputs n)).map Prod.fst).Nodup := by
  have hnames : (tasks.flatMap (bucketFiles mapf inputs n)).map Prod.fst =
      tasks.flatMap fun task => (List.range n).map (oname task.taskId) := by
    rw [List.map_flatMap]
    simp [bucketFiles, Function.comp_def]
  rw [hnames, List.nodup_flatMap]
  constructor
  · intro task _
    apply List.Nodup.map _ List.nodup_range
    intro i i' h
    exact (oname_injective h).2
  · apply (List.pairwise_map.mp hids).imp
    intro task task' hne name hname hname'
    obtain ⟨i, -, rfl⟩ := List.mem_map.mp hname
    obtain ⟨i', -, h⟩ := List.mem_map.mp hname'
    exact hne (oname_injective h).1.symm

/-- Of one task, reducer `r` reads the pairs in the buckets whose files it finds. -/
theorem bucketFiles_read (hpos : 1 ≤ nReduce) (r : Nat) (task : Task) :
    (((bucketFiles mapf inputs nReduce task).filter fun e =>
        ['m', 'r', '-', 't', 'm', 'p'] <+: e.1 ∧ itoa r <:+ e.1).flatMap Prod.snd).Perm
      ((emitted mapf inputs task).filter fun kv => Finds r (bucketOf nReduce kv)) := by
  have hfiles : ((bucketFiles mapf inputs nReduce task).filter fun e =>
      ['m', 'r', '-', 't', 'm', 'p'] <+: e.1 ∧ itoa r <:+ e.1).flatMap Prod.snd =
        ((List.range nReduce).filter fun i => Finds r i).flatMap fun i =>
          (emitted mapf inputs task).filter fun kv => bucketOf nReduce kv = i := by
    rw [bucketFiles, List.filter_map, List.flatMap_map]
    simp only [Function.comp_def, oname_selected]
  have hbuckets : ∀ kv ∈ emitted mapf inputs task,
      decide (bucketOf nReduce kv ∈ (List.range nReduce).filter fun i => Finds r i) =
        decide (Finds r (bucketOf nReduce kv)) := by
    intro kv _
    have hlt : bucketOf nReduce kv < nReduce := Nat.mod_lt _ hpos
    simp [hlt]
  rw [hfiles, ← List.filter_congr hbuckets]
  exact flatMap_filter_perm _ _ (List.nodup_range.filter _)

/-- What reducer `r` reads after all map tasks. -/
theorem shuffle_selectReduceName (hpos : 1 ≤ nReduce) (hids : (tasks.map Task.taskId).Nodup)
    (hrn : ∀ task ∈ tasks, task.reducerNum = nReduce)
    (h : doMapTasks mapf inputs .empty tasks = some dir) (r : Nat) :
    (shuffle dir (selectReduceName dir r)).Perm
      ((tasks.flatMap (emitted mapf inputs)).filter fun kv => Finds r (bucketOf nReduce kv)) := by
  have hentries : dir.entries = tasks.flatMap (bucketFiles mapf inputs nReduce) := by
    have hnd := bucketFiles_nodup nReduce mapf inputs hids
    exact doMapTasks_entries hrn (show ((Directory.empty.entries ++ _).map _).Nodup from hnd) h
  apply (shuffle_perm dir _).trans
  rw [hentries, List.filter_flatMap, List.filter_flatMap, List.flatMap_assoc]
  apply List.Perm.flatMap_left
  intro task _
  exact bucketFiles_read hpos r task

/-- After all map tasks every reducer reads exactly the pairs that are hashed to it, if
and only if no pair is hashed to a bucket beyond 9. -/
theorem shuffle_partitions_iff (mapf : FileName → List UInt8 → List KeyValue)
    (inputs : FileName → Option (List UInt8)) (hpos : 1 ≤ nReduce)
    (hids : (tasks.map Task.taskId).Nodup) (hrn : ∀ task ∈ tasks, task.reducerNum = nReduce)
    (h : doMapTasks mapf inputs .empty tasks = some dir) :
    (∀ r < nReduce, (shuffle dir (selectReduceName dir r)).Perm
        ((tasks.flatMap (emitted mapf inputs)).filter fun kv => ihash kv.key % nReduce = r)) ↔
      ∀ kv ∈ tasks.flatMap (emitted mapf inputs), ihash kv.key % nReduce < 10 := by
  have hread := shuffle_selectReduceName hpos hids hrn h
  constructor
  · intro hall kv hkv
    -- the file of the pair's bucket is also found by the reducer of its last digit
    have hlast : ihash kv.key % nReduce % 10 < nReduce :=
      Nat.lt_of_le_of_lt (Nat.mod_le _ 10) (Nat.mod_lt _ hpos)
    have hfound : kv ∈ shuffle dir (selectReduceName dir (ihash kv.key % nReduce % 10)) := by
      apply (hread _).symm.subset
      exact List.mem_filter.mpr ⟨hkv, decide_eq_true (toDigits_mod_suffix _)⟩
    have hown := (List.mem_filter.mp ((hall _ hlast).subset hfound)).2
    have hmod : ihash kv.key % nReduce = ihash kv.key % nReduce % 10 := of_decide_eq_true hown
    rw [hmod]
    exact Nat.mod_lt _ (by decide)
  · intro hsmall r hr
    apply (hread r).trans
    rw [List.filter_congr]
    intro kv hkv
    simp only [Finds, bucketOf, toDigits_suffix_iff (hsmall kv hkv), eq_comm]

end Tasks

/-- The contents of a file is the only key, and its value is empty. -/
def contentsAsKey (_ : FileName) (contents : List UInt8) : List KeyValue := [⟨contents, []⟩]

/-- Every file holds the letter `l`, which is hashed to bucket 10 of 11 and to 7 of 10. -/
def letterL (_ : FileName) : Option (List UInt8) := some [108]

/-- Two map tasks. -/
def twoTasks (nReduce : Nat) : List Task :=
  [mapTaskFor nReduce 0 ['a'], mapTaskFor nReduce 1 ['b']]

/-- What the two tasks leave. -/
def twoTasksDone (nReduce : Nat) : Directory :=
  (doMapTasks contentsAsKey letterL .empty (twoTasks nReduce)).getD .empty

theorem shuffle_partitions_iff_of_ten :
    doMapTasks contentsAsKey letterL .empty (twoTasks 10) = some (twoTasksDone 10) ∧
      ∀ r < 10, (shuffle (twoTasksDone 10) (selectReduceName (twoTasksDone 10) r)).Perm
        ([⟨[108], []⟩, ⟨[108], []⟩].filter fun kv : KeyValue => ihash kv.key % 10 = r) := by
  have hrun : doMapTasks contentsAsKey letterL .empty (twoTasks 10) = some (twoTasksDone 10) := rfl
  exact ⟨hrun, (shuffle_partitions_iff contentsAsKey letterL (by decide) (by decide) (by decide)
    hrun).mpr (by decide +kernel)⟩

/-- With eleven reducers the pairs of bucket 10 are read by reducer 0 as well. -/
theorem bucket_ten_read_twice :
    doMapTasks contentsAsKey letterL .empty (twoTasks 11) = some (twoTasksDone 11) ∧
      ihash [108] % 11 = 10 ∧
      shuffle (twoTasksDone 11) (selectReduceName (twoTasksDone 11) 10) =
        [⟨[108], []⟩, ⟨[108], []⟩] ∧
      shuffle (twoTasksDone 11) (selectReduceName (twoTasksDone 11) 0) =
        [⟨[108], []⟩, ⟨[108], []⟩] :=
  ⟨rfl, by decide +kernel, by decide +kernel, by decide +kernel⟩

end RaftImplementation.Mr
