import Mathlib.Data.List.Dedup
import RaftImplementation.Mr.Job

/-!
# Two applications (`wc.go`, `indexer.go`)

Their `Map` splits the contents with `strings.FieldsFunc` at everything that is not a letter.
`words` stands for that call: nothing here depends on what a letter is.

The word count gives every word the value `1`, so the reducers of a job can compare whole
pairs. The indexer gives it the name of the document, and there the comparison shows.
-/

namespace RaftImplementation.Mr

open Library

/-- `strconv.Itoa` as bytes: the characters of a numeral are ASCII. -/
def itoaBytes (n : Nat) : List UInt8 := (itoa n).map fun ch => ch.toNat.toUInt8

/-- The bytes of a file name. -/
def nameBytes (name : FileName) : List UInt8 := name.flatMap String.utf8EncodeChar

theorem nameBytes_injective : Function.Injective nameBytes := by
  intro name name' h
  have hbytes : name.utf8Encode = name'.utf8Encode := by
    rw [List.utf8Encode, List.utf8Encode]
    exact congrArg List.toByteArray h
  have hstring : String.ofList name = String.ofList name' := String.toByteArray_inj.mp hbytes
  exact String.ofList_injective hstring

section Words

variable (words : List UInt8 → List (List UInt8))

/-- The words of all files. -/
def wordsOf (inputs : FileName → Option (List UInt8)) (files : List FileName) :
    List (List UInt8) :=
  files.flatMap fun v => ((inputs v).map words).getD []

/-! ## The word count -/

/-- `Map` of `wc.go`. -/
def wcMap (_filename : FileName) (contents : List UInt8) : List KeyValue :=
  (words contents).map fun w => ⟨w, [49]⟩

/-- `Reduce` of `wc.go`. -/
def wcReduce (_key : List UInt8) (values : List (List UInt8)) : List UInt8 :=
  itoaBytes values.length

theorem wcReduce_orderFree : OrderFree wcReduce := by
  intro key values values' hperm
  rw [wcReduce, wcReduce, hperm.length_eq]

variable {words} {inputs : FileName → Option (List UInt8)} {files : List FileName} {nReduce : Nat}
variable {reduceTasks replies : List Task} {dir : Directory} {c : Coordinator}

theorem pairsOf_wcMap : pairsOf (wcMap words) inputs files =
    (wordsOf words inputs files).map fun w => ⟨w, [49]⟩ := by
  rw [pairsOf, wordsOf, List.map_flatMap]
  apply List.flatMap_congr
  intro v _
  cases inputs v with
  | none => rfl
  | some contents => rfl

theorem wcMap_oneValue : OneValue (pairsOf (wcMap words) inputs files) := by
  rw [pairsOf_wcMap]
  intro a ha b hb _
  obtain ⟨w, -, rfl⟩ := List.mem_map.mp ha
  obtain ⟨w', -, rfl⟩ := List.mem_map.mp hb
  rfl

/-- There is a 1 for each time that the word occurs. -/
theorem length_valuesOf_wcMap (w : List UInt8) :
    (valuesOf (pairsOf (wcMap words) inputs files) w).length =
      (wordsOf words inputs files).count w := by
  rw [valuesOf, List.length_map, pairsOf_wcMap, ← List.countP_eq_length_filter, List.countP_map,
    List.count]
  apply List.countP_congr
  intro w' _
  simp

/-- A line for each word, with the number of times that it occurs in the files. -/
def wordCounts (words : List UInt8 → List (List UInt8)) (inputs : FileName → Option (List UInt8))
    (files : List FileName) : List (List UInt8) :=
  (wordsOf words inputs files).dedup.map fun w =>
    outputLine w (itoaBytes ((wordsOf words inputs files).count w))

theorem sequentialLines_wcMap (words : List UInt8 → List (List UInt8))
    (inputs : FileName → Option (List UInt8)) (files : List FileName) :
    (sequentialLines (wcMap words) wcReduce inputs files).Perm (wordCounts words inputs files) := by
  have hperm := List.perm_insertionSort (fun a b : KeyValue => ¬ b.key < a.key)
    (pairsOf (wcMap words) inputs files)
  have honce := sequentialCalls_oncePerKey
    (sortedByKey_insertionSort (pairsOf (wcMap words) inputs files))
  rw [sequentialLines, honce.outputLines_eq wcReduce_orderFree, wordCounts]
  refine List.Perm.trans (List.Perm.of_eq (List.map_congr_left ?_)) (List.Perm.map _ ?_)
  · intro w _
    rw [wcReduce, (valuesOf_perm hperm w).length_eq, length_valuesOf_wcMap]
  · -- each word is a key once
    rw [List.perm_ext_iff_of_nodup honce.nodup (List.nodup_dedup _)]
    intro w
    rw [honce.keys, (hperm.map KeyValue.key).mem_iff, pairsOf_wcMap, List.mem_dedup]
    simp

/-- The sequential program counts the words of all files. A job does so, over all its output
files, if and only if no word is hashed to a bucket beyond 9. -/
theorem wordCount_job_iff (hne : files ≠ [])
    (hrun : Run Coordinator.call always (.makeCoordinator files nReduce) replies c)
    (hmaps : MapsDone (wcMap words) inputs files nReduce dir)
    (hreduce : reduceTasks.Perm (c.makeReduceTasks dir).taskChannelReduce) :
    (∃ lines, mrsequential (wcMap words) wcReduce inputs files = some (outName 0, lines) ∧
        lines.Perm (wordCounts words inputs files)) ∧
      ((jobLines wcReduce dir reduceTasks).Perm (wordCounts words inputs files) ↔
        ∀ w ∈ wordsOf words inputs files, ihash w % nReduce < 10) := by
  have hagrees := jobLines_perm_iff wcReduce_orderFree
    (fun v contents => List.Perm.refl (wcMap words v contents)) (OnlyMaps.of_run hrun) hmaps hreduce
  have hcounts := sequentialLines_wcMap words inputs files
  have hsmall : OneDigit nReduce (pairsOf (wcMap words) inputs files) ↔
      ∀ w ∈ wordsOf words inputs files, ihash w % nReduce < 10 := by
    rw [OneDigit, pairsOf_wcMap, List.forall_mem_map]
  refine ⟨⟨_, mrsequential_eq hne hmaps.inputs_isSome, hcounts⟩, ?_⟩
  rw [← hsmall]
  constructor
  · intro hjob
    exact (hagrees.mp (hjob.trans hcounts.symm)).2
  · intro hdigit
    exact (hagrees.mpr ⟨wcMap_oneValue, hdigit⟩).trans hcounts

/-! ## The indexer -/

/-- `Map` of `indexer.go`: `visit` is the order in which `range` goes through the map of the
words of a document. -/
def indexerMap (words : List UInt8 → List (List UInt8))
    (visit : FileName → List (List UInt8) → List (List UInt8)) (document : FileName)
    (value : List UInt8) : List KeyValue :=
  (visit document (words value).dedup).map fun w => ⟨w, nameBytes document⟩

/-- `Reduce` of `indexer.go`. -/
def indexerReduce (_key : List UInt8) (values : List (List UInt8)) : List UInt8 :=
  itoaBytes values.length ++
    32 :: [44].intercalate (values.insertionSort fun a b => ¬ b < a)

theorem indexerReduce_orderFree : OrderFree indexerReduce := by
  intro key values values' hperm
  have htotal : Std.Total fun a b : List UInt8 => ¬ b < a := ⟨List.le_total⟩
  have htrans : IsTrans (List UInt8) fun a b => ¬ b < a :=
    ⟨fun _ _ _ hab hbc => List.le_trans (α := UInt8) hab hbc⟩
  have hsorted : values.insertionSort (fun a b => ¬ b < a) =
      values'.insertionSort fun a b => ¬ b < a := by
    apply List.Perm.eq_of_pairwise _ (List.pairwise_insertionSort _ values)
      (List.pairwise_insertionSort _ values')
    · exact ((List.perm_insertionSort _ values).trans hperm).trans
        (List.perm_insertionSort _ values').symm
    · intro a b _ _ hab hba
      exact bytes_strictTotalOrder.trichotomous a b hba hab
  rw [indexerReduce, indexerReduce, hperm.length_eq, hsorted]

variable {visit visit' : FileName → List (List UInt8) → List (List UInt8)}

theorem mem_pairsOf_indexerMap (hvisit : ∀ v ws, (visit v ws).Perm ws) (kv : KeyValue) :
    kv ∈ pairsOf (indexerMap words visit) inputs files ↔
      ∃ v ∈ files, kv.key ∈ wordsOf words inputs [v] ∧ kv.value = nameBytes v := by
  rw [pairsOf, List.mem_flatMap]
  apply exists_congr
  intro v
  apply and_congr_right
  intro _
  rw [wordsOf, List.flatMap_singleton]
  cases inputs v with
  | none => simp
  | some value =>
    simp only [Option.map_some, Option.getD_some, indexerMap, List.mem_map]
    constructor
    · rintro ⟨w, hw, rfl⟩
      exact ⟨List.mem_dedup.mp ((hvisit v _).mem_iff.mp hw), rfl⟩
    · rintro ⟨hw, hvalue⟩
      refine ⟨kv.key, (hvisit v _).mem_iff.mpr (List.mem_dedup.mpr hw), ?_⟩
      rw [← hvalue]

theorem mem_wordsOf {w : List UInt8} :
    w ∈ wordsOf words inputs files ↔ ∃ v ∈ files, w ∈ wordsOf words inputs [v] := by
  simp [wordsOf]

/-- A word has one value if it is in one document. -/
theorem indexerMap_oneValue_iff (hvisit : ∀ v ws, (visit v ws).Perm ws) :
    OneValue (pairsOf (indexerMap words visit) inputs files) ↔
      ∀ v ∈ files, ∀ v' ∈ files, ∀ w ∈ wordsOf words inputs [v],
        w ∈ wordsOf words inputs [v'] → v = v' := by
  constructor
  · intro hone v hv v' hv' w hw hw'
    have ha := (mem_pairsOf_indexerMap hvisit ⟨w, nameBytes v⟩).mpr ⟨v, hv, hw, rfl⟩
    have hb := (mem_pairsOf_indexerMap hvisit ⟨w, nameBytes v'⟩).mpr ⟨v', hv', hw', rfl⟩
    exact nameBytes_injective (hone _ ha _ hb rfl)
  · intro halone a ha b hb hkey
    obtain ⟨v, hv, hw, hvalue⟩ := (mem_pairsOf_indexerMap hvisit a).mp ha
    obtain ⟨v', hv', hw', hvalue'⟩ := (mem_pairsOf_indexerMap hvisit b).mp hb
    rw [hvalue, hvalue', halone v hv v' hv' a.key hw (hkey ▸ hw')]

theorem indexerMap_oneDigit_iff (hvisit : ∀ v ws, (visit v ws).Perm ws) :
    (∀ kv ∈ pairsOf (indexerMap words visit) inputs files, ihash kv.key % nReduce < 10) ↔
      ∀ w ∈ wordsOf words inputs files, ihash w % nReduce < 10 := by
  constructor
  · intro hall w hw
    obtain ⟨v, hv, hwv⟩ := mem_wordsOf.mp hw
    exact hall ⟨w, nameBytes v⟩ ((mem_pairsOf_indexerMap hvisit _).mpr ⟨v, hv, hwv, rfl⟩)
  · intro hall kv hkv
    obtain ⟨v, hv, hw, -⟩ := (mem_pairsOf_indexerMap hvisit kv).mp hkv
    exact hall _ (mem_wordsOf.mpr ⟨v, hv, hw⟩)

/-- The two programs may visit the words of a document in different orders. -/
theorem indexerMap_perm (hvisit : ∀ v ws, (visit v ws).Perm ws)
    (hvisit' : ∀ v ws, (visit' v ws).Perm ws) (v : FileName) (value : List UInt8) :
    (indexerMap words visit v value).Perm (indexerMap words visit' v value) :=
  ((hvisit v _).trans (hvisit' v _).symm).map _

/-- A job of the indexer writes what the sequential program writes if and only if no word is in
two documents and none is hashed to a bucket beyond 9. -/
theorem indexer_job_iff (hvisit : ∀ v ws, (visit v ws).Perm ws)
    (hvisit' : ∀ v ws, (visit' v ws).Perm ws) (hne : files ≠ [])
    (hrun : Run Coordinator.call always (.makeCoordinator files nReduce) replies c)
    (hmaps : MapsDone (indexerMap words visit) inputs files nReduce dir)
    (hreduce : reduceTasks.Perm (c.makeReduceTasks dir).taskChannelReduce) :
    ∃ lines, mrsequential (indexerMap words visit') indexerReduce inputs files =
        some (outName 0, lines) ∧
      ((jobLines indexerReduce dir reduceTasks).Perm lines ↔
        (∀ v ∈ files, ∀ v' ∈ files, ∀ w ∈ wordsOf words inputs [v],
            w ∈ wordsOf words inputs [v'] → v = v') ∧
          ∀ w ∈ wordsOf words inputs files, ihash w % nReduce < 10) := by
  refine ⟨_, mrsequential_eq hne hmaps.inputs_isSome, ?_⟩
  rw [← indexerMap_oneValue_iff hvisit, ← indexerMap_oneDigit_iff hvisit]
  exact jobLines_perm_iff indexerReduce_orderFree (indexerMap_perm hvisit hvisit')
    (OnlyMaps.of_run hrun) hmaps hreduce

end Words

/-- Every byte is a word. -/
def letters (contents : List UInt8) : List (List UInt8) := contents.map fun b => [b]

/-- `a` holds `ll`, every other file `l`. -/
def someLetters (v : FileName) : Option (List UInt8) :=
  if v = ['a'] then some [108, 108] else some [108]

/-- What the map tasks of the two files leave, done last to first. -/
def lettersMapped (mapf : FileName → List UInt8 → List KeyValue) : Directory :=
  (doMapTasks mapf someLetters .empty (twoTasks 10).reverse).getD .empty

/-- The reduce tasks after that. -/
def lettersReduceTasks (mapf : FileName → List UInt8 → List KeyValue) : List Task :=
  ((Coordinator.makeCoordinator twoLetters 10).makeReduceTasks
    (lettersMapped mapf)).taskChannelReduce

/-- The line `l 3`. -/
theorem wordCount_job_iff_twoLetters :
    MapsDone (wcMap letters) someLetters twoLetters 10 (lettersMapped (wcMap letters)) ∧
      (jobLines wcReduce (lettersMapped (wcMap letters))
        (lettersReduceTasks (wcMap letters))).Perm [[108, 32, 51, 10]] := by
  have hmaps : MapsDone (wcMap letters) someLetters twoLetters 10
      (lettersMapped (wcMap letters)) :=
    ⟨by decide, _, (twoTasks 10).reverse_perm, rfl⟩
  obtain ⟨-, hiff⟩ := wordCount_job_iff (by decide) .refl hmaps (List.Perm.refl _)
  exact ⟨hmaps, hiff.mpr (by decide +kernel)⟩

/-- The letter is in both documents, and gets two lines. -/
theorem indexer_job_iff_twoLetters :
    ∃ lines, mrsequential (indexerMap letters fun _ ws => ws) indexerReduce someLetters twoLetters =
        some (outName 0, lines) ∧
      ¬ (jobLines indexerReduce (lettersMapped (indexerMap letters fun _ ws => ws))
        (lettersReduceTasks (indexerMap letters fun _ ws => ws))).Perm lines := by
  have hmaps : MapsDone (indexerMap letters fun _ ws => ws) someLetters twoLetters 10
      (lettersMapped (indexerMap letters fun _ ws => ws)) :=
    ⟨by decide, _, (twoTasks 10).reverse_perm, rfl⟩
  obtain ⟨lines, hlines, hiff⟩ := indexer_job_iff (fun _ ws => List.Perm.refl ws)
    (fun _ ws => List.Perm.refl ws) (by decide) .refl hmaps (List.Perm.refl _)
  refine ⟨lines, hlines, ?_⟩
  intro hperm
  exact absurd (hiff.mp hperm).1 (by decide)

end RaftImplementation.Mr
