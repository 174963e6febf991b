import RaftImplementation.Porcupine.CheckSingle

/-!
# From histories to entries

`makeEntries` sorts the calls and returns of a history by their times, calls before returns
at equal times. So an entry for a return comes before one for a call if and only if the
operation had returned at an earlier time, and what the checker decides about the entries
is whether the history is linearizable.
-/

namespace RaftImplementation.Porcupine

open Library

variable {I O S : Type} {history : List (Operation I O)} {entries : List (Entry I O)}
variable {op op' : Operation I O} {e : Entry I O} {i j p : Nat}

def Operation.io (op : Operation I O) : I × O := (op.input, op.output)

theorem mem_operationEntries : e ∈ operationEntries history ↔
    ∃ (i : Nat) (op : Operation I O),
      history[i]? = some op ∧ (e = op.callEntry i ∨ e = op.returnEntry i) := by
  simp only [operationEntries, List.mem_flatMap, Prod.exists, List.mem_zipIdx_iff_getElem?,
    List.mem_cons, List.not_mem_nil, or_false]
  exact exists_comm

/-- A call or a return, and of which operation. -/
def Entry.kindId (e : Entry I O) : Bool × Nat := (e.isCall, e.id)

theorem nodup_operationEntries (history : List (Operation I O)) :
    ((operationEntries history).map Entry.kindId).Nodup := by
  rw [operationEntries, List.map_flatMap]
  refine List.nodup_flatMap.mpr ⟨?_, ?_⟩
  · rintro ⟨op, i⟩ _
    simp [Entry.kindId, Entry.isCall, Operation.callEntry, Operation.returnEntry]
  · have hids : history.zipIdx.Pairwise fun a b => a.2 ≠ b.2 := by
      rw [← List.pairwise_map (f := Prod.snd) (R := (· ≠ ·)), List.zipIdx_map_snd]
      exact List.nodup_range'
    refine hids.imp ?_
    rintro ⟨op, i⟩ ⟨op', j⟩ hij x hx hx'
    simp only [List.map_cons, List.map_nil, List.mem_cons, List.not_mem_nil, or_false] at hx hx'
    have hi : x.2 = i := by
      rcases hx with rfl | rfl
      · rfl
      · rfl
    have hj : x.2 = j := by
      rcases hx' with rfl | rfl
      · rfl
      · rfl
    exact hij (hi.symm.trans hj)

theorem length_operationEntries (history : List (Operation I O)) :
    (operationEntries history).length = 2 * history.length := by
  rw [operationEntries, List.length_flatMap]
  simp [Nat.mul_comm]

/-- The position of an entry. -/
def entryAt (entries : List (Entry I O)) (isCall : Bool) (i : Nat) : Nat :=
  entries.findIdx fun e => e.kindId == (isCall, i)

/-- One way to sort. -/
def sortEntries (entries : List (Entry I O)) : List (Entry I O) :=
  entries.insertionSort fun a b => Entry.less b a = false

theorem less_eq_false_iff {a b : Entry I O} : Entry.less b a = false ↔
    a.time < b.time ∨ a.time = b.time ∧ (b.isCall = true → a.isCall = true) := by
  unfold Entry.less
  by_cases htime : b.time = a.time
  · rw [if_neg (by simpa using htime)]
    simp [htime]
  · rw [if_pos htime, decide_eq_false_iff_not]
    omega

theorem sortsEntries_sortEntries (entries : List (Entry I O)) :
    SortsEntries entries (sortEntries entries) := by
  have htotal : Std.Total fun a b : Entry I O => Entry.less b a = false := by
    refine ⟨fun a b => ?_⟩
    rw [less_eq_false_iff, less_eq_false_iff]
    by_cases htime : a.time = b.time
    · by_cases ha : a.isCall = true
      · exact .inl (.inr ⟨htime, fun _ => ha⟩)
      · exact .inr (.inr ⟨htime.symm, fun h => absurd h ha⟩)
    · omega
  have htrans : IsTrans (Entry I O) fun a b => Entry.less b a = false := by
    refine ⟨fun a b c hab hbc => ?_⟩
    rw [less_eq_false_iff] at hab hbc ⊢
    rcases hab with hab | ⟨hab, hab'⟩
    · exact .inl (by omega)
    · rcases hbc with hbc | ⟨hbc, hbc'⟩
      · exact .inl (by omega)
      · exact .inr ⟨hab.trans hbc, fun h => hab' (hbc' h)⟩
  exact ⟨List.perm_insertionSort _ _, List.pairwise_insertionSort _ _⟩

namespace SortsEntries

variable (hs : SortsEntries (operationEntries history) entries)

include hs

theorem entryAt_eq (he : entries[p]? = some e) : entryAt entries e.isCall e.id = p := by
  have hnd : (entries.map Entry.kindId).Nodup :=
    (hs.perm.map _).nodup_iff.mpr (nodup_operationEntries history)
  obtain ⟨hp, rfl⟩ := List.getElem?_eq_some_iff.mp he
  have hlt : entryAt entries entries[p].isCall entries[p].id < entries.length := by
    apply List.findIdx_lt_length_of_exists
    exact ⟨_, List.getElem_mem hp, by simp [Entry.kindId]⟩
  have hfound : entries[entryAt entries entries[p].isCall entries[p].id].kindId = entries[p].kindId :=
    beq_iff_eq.mp (@List.findIdx_getElem _ _ entries hlt)
  apply (List.getElem?_inj (by simpa using hlt) hnd).mp
  rw [List.getElem?_map, List.getElem?_map, he, List.getElem?_eq_getElem hlt]
  exact congrArg some hfound

theorem getElem?_call (hop : history[i]? = some op) :
    entries[entryAt entries true i]? = some (op.callEntry i) := by
  have hmem : op.callEntry i ∈ entries :=
    hs.perm.mem_iff.mpr (mem_operationEntries.mpr ⟨i, op, hop, .inl rfl⟩)
  obtain ⟨p, hp⟩ := List.mem_iff_getElem?.mp hmem
  have hat := hs.entryAt_eq hp
  rw [show entryAt entries true i = p from hat, hp]

theorem getElem?_return (hop : history[i]? = some op) :
    entries[entryAt entries false i]? = some (op.returnEntry i) := by
  have hmem : op.returnEntry i ∈ entries :=
    hs.perm.mem_iff.mpr (mem_operationEntries.mpr ⟨i, op, hop, .inr rfl⟩)
  obtain ⟨p, hp⟩ := List.mem_iff_getElem?.mp hmem
  have hat := hs.entryAt_eq hp
  rw [show entryAt entries false i = p from hat, hp]

/-- Sorted positions: an entry that has to come first does so. -/
theorem lt_of_less {q : Nat} {e' : Entry I O} (he : entries[p]? = some e) (he' : entries[q]? = some e')
    (hless : e.less e' = true) : p < q := by
  obtain ⟨hp, rfl⟩ := List.getElem?_eq_some_iff.mp he
  obtain ⟨hq, rfl⟩ := List.getElem?_eq_some_iff.mp he'
  by_contra hle
  rcases Nat.lt_or_eq_of_le (Nat.le_of_not_lt hle) with hlt | rfl
  · rw [List.pairwise_iff_getElem.mp hs.sorted q p hq hp hlt] at hless
    cases hless
  · simp [Entry.less] at hless

theorem entryAt_lt (hop : history[i]? = some op) (hop' : history[j]? = some op')
    (hle : op.call ≤ op'.ret) : entryAt entries true i < entryAt entries false j := by
  refine hs.lt_of_less (hs.getElem?_call hop) (hs.getElem?_return hop') ?_
  rw [Entry.less]
  split
  · rename_i hne
    exact decide_eq_true (lt_of_le_of_ne hle hne)
  · rfl

/-- A return comes before a call if and only if it was at an earlier time. -/
theorem return_lt_call_iff (hop : history[i]? = some op) (hop' : history[j]? = some op') :
    entryAt entries false i < entryAt entries true j ↔ op.ret < op'.call := by
  constructor
  · intro hlt
    by_contra hle
    have hlt' := hs.entryAt_lt hop' hop (by omega)
    omega
  · intro hlt
    refine hs.lt_of_less (hs.getElem?_return hop) (hs.getElem?_call hop') ?_
    rw [Entry.less, if_pos]
    · exact decide_eq_true hlt
    · exact hlt.ne

end SortsEntries

/-- The sorted entries are the calls and returns of the history. -/
def operationPairing (hs : SortsEntries (operationEntries history) entries)
    (hle : ∀ op ∈ history, op.call ≤ op.ret) : Pairing entries (history.map Operation.io) where
  callAt := entryAt entries true
  retAt := entryAt entries false
  call_eq i x hx := by
    rw [List.getElem?_map] at hx
    obtain ⟨op, hop, rfl⟩ := Option.map_eq_some_iff.mp hx
    rw [hs.getElem?_call hop]
    rfl
  ret_eq i x hx := by
    rw [List.getElem?_map] at hx
    obtain ⟨op, hop, rfl⟩ := Option.map_eq_some_iff.mp hx
    rw [hs.getElem?_return hop]
    rfl
  lt i hi := by
    rw [List.length_map] at hi
    have hop := List.getElem?_eq_getElem hi
    exact hs.entryAt_lt hop hop (hle _ (List.getElem_mem hi))
  cover p hp := by
    have he := List.getElem?_eq_getElem hp
    have hat := hs.entryAt_eq he
    obtain ⟨i, op, hop, heq⟩ := mem_operationEntries.mp (hs.perm.mem_iff.mp (List.getElem_mem hp))
    refine ⟨i, by simpa using (List.getElem?_eq_some_iff.mp hop).1, ?_⟩
    rcases heq with heq | heq
    · rw [heq] at hat
      exact .inl hat.symm
    · rw [heq] at hat
      exact .inr hat.symm
  length_eq := by
    rw [hs.perm.length_eq, length_operationEntries, List.length_map]

variable [DecidableEq S] {model : Model I O S}

/-- `τ` has the operations in an order that the model allows, and in which none comes before
one that had returned when it was called. -/
def Model.Explains (model : Model I O S) (history τ : List (Operation I O)) : Prop :=
  Linearizes (fun s op => model.after s op.io) (fun a b => a.ret < b.call) model.init history τ

def Model.Linearizable (model : Model I O S) (history : List (Operation I O)) : Prop :=
  ∃ τ, model.Explains history τ

theorem forall₂_range {α : Type} (l : List α) :
    List.Forall₂ (fun i x => l[i]? = some x) (List.range l.length) l := by
  refine List.forall₂_iff_get.mpr ⟨List.length_range, ?_⟩
  intro i hi hi'
  simp

/-- What is decided about the entries is whether the history is linearizable. -/
theorem exists_explained_iff (hs : SortsEntries (operationEntries history) entries)
    (hle : ∀ op ∈ history, op.call ≤ op.ret) :
    (∃ σ, (operationPairing hs hle).Explained model σ) ↔ model.Linearizable history := by
  have hstep : ∀ i op, history[i]? = some op →
      ∀ s, model.perform (history.map Operation.io) s i = model.after s op.io := by
    intro i op hop s
    simp [Model.perform, hop]
  have hops := forall₂_range history
  unfold Pairing.Explained
  rw [List.length_map]
  constructor
  · refine exists_linearizes_of_forall₂ hops hstep ?_
    intro i op j op' hop hop'
    exact (hs.return_lt_call_iff hop hop').mpr
  · refine exists_linearizes_of_forall₂ hops.flip (fun op i hop s => (hstep i op hop s).symm) ?_
    intro op i op' j hop hop'
    exact (hs.return_lt_call_iff hop hop').mp

end RaftImplementation.Porcupine
