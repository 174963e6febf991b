import Mathlib.Logic.Function.Basic
import RaftImplementation.Porcupine.KvModel

/-!
# Checking events

`checkEvents` gets the calls and the returns themselves, in the order in which they were
recorded and with ids that tell which belong together. `renumber` replaces the ids by 0, 1
and so on as they appear, and `convertEntries` takes the position of an event for its time.
So the checker looks at the same entries as for the operations, under other numbers, and
finds the same.

`KvModel` has a `Partition` but no `PartitionEvent`. Its events are all judged as one
partition, that is as operations on a single key.
-/

namespace RaftImplementation.Porcupine

open Library

variable {I O S : Type} {events : List (Event I O)} {history : List (Operation I O)}

/-! ## Renumbering -/

/-- The ids that have been seen, in the order in which they first appear. -/
def seenAfter (seen : List Int) : List (Event I O) → List Int
  | [] => seen
  | v :: events => seenAfter (if v.id ∈ seen then seen else seen ++ [v.id]) events

theorem prefix_seenAfter (seen : List Int) (events : List (Event I O)) :
    seen <+: seenAfter seen events := by
  induction events generalizing seen with
  | nil => exact List.prefix_rfl
  | cons v events ih =>
    refine List.IsPrefix.trans ?_ (ih _)
    split
    · exact List.prefix_rfl
    · exact List.prefix_append _ _

theorem nodup_seenAfter {seen : List Int} (h : seen.Nodup) (events : List (Event I O)) :
    (seenAfter seen events).Nodup := by
  induction events generalizing seen with
  | nil => exact h
  | cons v events ih =>
    refine ih ?_
    split
    · exact h
    · rename_i hv
      exact List.nodup_append_comm.mp (List.nodup_cons.mpr ⟨hv, h⟩)

theorem mem_seenAfter {seen : List Int} {x : Int} :
    x ∈ seenAfter seen events ↔ x ∈ seen ∨ ∃ v ∈ events, v.id = x := by
  induction events generalizing seen with
  | nil => simp [seenAfter]
  | cons v events ih =>
    rw [seenAfter, ih]
    split
    · rename_i hv
      constructor
      · rintro (hx | ⟨w, hw, rfl⟩)
        · exact .inl hx
        · exact .inr ⟨w, List.mem_cons_of_mem _ hw, rfl⟩
      · rintro (hx | ⟨w, hw, rfl⟩)
        · exact .inl hx
        · rcases List.mem_cons.mp hw with rfl | hw
          · exact .inl hv
          · exact .inr ⟨w, hw, rfl⟩
    · simp [or_assoc, eq_comm]

theorem idxOf_seenAfter {seen : List Int} {x : Int} (hx : x ∈ seen) (events : List (Event I O)) :
    (seenAfter seen events).idxOf x = seen.idxOf x := by
  obtain ⟨rest, hrest⟩ := prefix_seenAfter seen events
  rw [← hrest, List.idxOf_append_of_mem hx]

/-- The map of `renumber` has the ids that have been seen, and each gets its place among
them. -/
theorem renumberFrom_eq {m : Map Int Nat} (seen : List Int)
    (hm : ∀ x, m.lookup x = if x ∈ seen then some (seen.idxOf x) else none)
    (events : List (Event I O)) : renumberFrom m seen.length events =
      events.map fun v => { v with id := ((seenAfter seen events).idxOf v.id : Nat) } := by
  induction events generalizing m seen with
  | nil => rfl
  | cons v events ih =>
    rw [renumberFrom, hm v.id, List.map_cons, seenAfter]
    by_cases hv : v.id ∈ seen
    · simp only [if_pos hv]
      rw [ih seen hm, idxOf_seenAfter hv]
    · simp only [if_neg hv]
      have hmem : v.id ∈ seen ++ [v.id] := by simp
      have hidx : (seen ++ [v.id]).idxOf v.id = seen.length := by
        rw [List.idxOf_append_of_notMem hv]
        simp
      have hm' : ∀ x, (m.insert v.id seen.length).lookup x =
          if x ∈ seen ++ [v.id] then some ((seen ++ [v.id]).idxOf x) else none := by
        intro x
        by_cases hx : x = v.id
        · subst hx
          rw [Finmap.lookup_insert, if_pos hmem, hidx]
        · rw [Finmap.lookup_insert_of_ne _ hx, hm x]
          by_cases hxs : x ∈ seen
          · rw [if_pos hxs, if_pos (List.mem_append_left _ hxs), List.idxOf_append_of_mem hxs]
          · rw [if_neg hxs, if_neg (by simp [hxs, hx])]
      have hih := ih _ hm'
      rw [List.length_append, List.length_singleton] at hih
      rw [hih, idxOf_seenAfter hmem, hidx]

theorem renumber_eq (events : List (Event I O)) : renumber events =
    events.map fun v => { v with id := ((seenAfter [] events).idxOf v.id : Nat) } :=
  renumberFrom_eq [] (by simp) events

/-! ## The same entries under other numbers -/

section Numbers

variable {entries entries' : List (Entry I O)} {ops ops' : List (I × O)}

/-- `order` has the operations by their new numbers. -/
structure Renumbers (entries entries' : List (Entry I O)) (ops ops' : List (I × O))
    (number : Nat → Nat) (order : List Nat) : Prop where
  perm : order.Perm (List.range ops.length)
  placed : ∀ i < ops.length, order[number i]? = some i
  listed : List.Forall₂ (fun i x => ops[i]? = some x) order ops'
  tags : entries'.map Entry.tag = entries.map fun e => (e.value, number e.id)

namespace Renumbers

variable {number : Nat → Nat} {order : List Nat} {i k p : Nat} {x : I × O}
variable (h : Renumbers entries entries' ops ops' number order)
include h

theorem length_order : order.length = ops.length := by
  rw [h.perm.length_eq, List.length_range]

theorem length_ops : ops'.length = ops.length := by
  rw [← h.listed.length_eq, h.length_order]

/-- The operation with number `k`. -/
theorem exists_order (hk : k < ops'.length) :
    ∃ i < ops.length, order[k]? = some i ∧ number i = k := by
  have hk' : k < order.length := by rwa [h.listed.length_eq]
  have hi : order[k] < ops.length := by
    rw [← List.mem_range, ← h.perm.mem_iff]
    exact List.getElem_mem hk'
  refine ⟨order[k], hi, List.getElem?_eq_getElem hk', ?_⟩
  have hnodup : order.Nodup := h.perm.nodup_iff.mpr List.nodup_range
  have hlt : number order[k] < order.length :=
    (List.getElem?_eq_some_iff.mp (h.placed _ hi)).1
  refine (List.getElem?_inj hlt hnodup).mp ?_
  rw [h.placed _ hi, List.getElem?_eq_getElem hk']

theorem getElem?_ops (hi : order[k]? = some i) : ops'[k]? = ops[i]? := by
  obtain ⟨hk, rfl⟩ := List.getElem?_eq_some_iff.mp hi
  obtain ⟨hlen, hall⟩ := List.forall₂_iff_get.mp h.listed
  have := hall k hk (hlen ▸ hk)
  rw [List.getElem?_eq_getElem (hlen ▸ hk)]
  exact this.symm

theorem getElem?_tag : entries'[p]?.map Entry.tag =
    (entries[p]?.map Entry.tag).map fun t => (t.1, number t.2) := by
  rw [← List.getElem?_map, h.tags, List.getElem?_map, Option.map_map]
  rfl

/-- The entries of the operation with number `k` are where they were. -/
def pairing (hp : Pairing entries ops) : Pairing entries' ops' where
  callAt k := hp.callAt (order.getD k 0)
  retAt k := hp.retAt (order.getD k 0)
  call_eq k x hx := by
    obtain ⟨i, hi, horder, rfl⟩ := h.exists_order (List.getElem?_eq_some_iff.mp hx).1
    rw [h.getElem?_ops horder] at hx
    rw [List.getD_eq_getElem?_getD, horder, Option.getD_some, h.getElem?_tag, hp.call_eq i x hx]
    rfl
  ret_eq k x hx := by
    obtain ⟨i, hi, horder, rfl⟩ := h.exists_order (List.getElem?_eq_some_iff.mp hx).1
    rw [h.getElem?_ops horder] at hx
    rw [List.getD_eq_getElem?_getD, horder, Option.getD_some, h.getElem?_tag, hp.ret_eq i x hx]
    rfl
  lt k hk := by
    obtain ⟨i, hi, horder, rfl⟩ := h.exists_order hk
    rw [List.getD_eq_getElem?_getD, horder]
    exact hp.lt i hi
  cover p hlt := by
    have hlen : entries'.length = entries.length := by
      simpa using congrArg List.length h.tags
    obtain ⟨i, hi, hat⟩ := hp.cover p (hlen ▸ hlt)
    have horder := h.placed i hi
    refine ⟨number i, ?_, ?_⟩
    · rw [h.length_ops, ← h.length_order]
      exact (List.getElem?_eq_some_iff.mp horder).1
    · rwa [List.getD_eq_getElem?_getD, horder]
  length_eq := by
    have hlen : entries'.length = entries.length := by
      simpa using congrArg List.length h.tags
    rw [hlen, hp.length_eq, h.length_ops]

variable [DecidableEq S] {model : Model I O S}

theorem exists_explained_iff (hp : Pairing entries ops) :
    (∃ σ, (h.pairing hp).Explained model σ) ↔ ∃ σ, hp.Explained model σ := by
  -- number by number the operations are the same
  have hsame : List.Forall₂ (fun k i => order[k]? = some i) (List.range ops'.length) order := by
    rw [← h.listed.length_eq]
    refine List.forall₂_iff_get.mpr ⟨List.length_range, ?_⟩
    intro k hk hk'
    simp
  have hstep : ∀ k i, order[k]? = some i →
      ∀ s, model.perform ops' s k = model.perform ops s i := by
    intro k i horder s
    rw [Model.perform, Model.perform, h.getElem?_ops horder]
  have hat : ∀ k i, order[k]? = some i → order.getD k 0 = i := by
    intro k i horder
    rw [List.getD_eq_getElem?_getD, horder, Option.getD_some]
  constructor
  · intro hσ
    have hτ : ∃ τ, Linearizes (model.perform ops) (fun i j => hp.retAt i < hp.callAt j)
        model.init order τ := by
      refine exists_linearizes_of_forall₂ hsame hstep ?_ hσ
      intro k i l j hk hl hlt
      show hp.retAt (order.getD k 0) < hp.callAt (order.getD l 0)
      rwa [hat k i hk, hat l j hl]
    obtain ⟨τ, hτ⟩ := hτ
    exact ⟨τ, hτ.perm.trans h.perm, hτ.legal, hτ.order⟩
  · rintro ⟨σ, hσ⟩
    refine exists_linearizes_of_forall₂ hsame.flip (fun i k hk s => (hstep k i hk s).symm) ?_
      ⟨σ, hσ.perm.trans h.perm.symm, hσ.legal, hσ.order⟩
    intro i k j l hk hl hlt
    rwa [← hat k i hk, ← hat l j hl]

end Renumbers

end Numbers

/-! ## Recorded histories -/

/-- The event of an entry, when the operations have the given ids. -/
def Entry.event (ids : Nat → Int) (e : Entry I O) : Event I O := ⟨e.clientId, e.value, ids e.id⟩

/-- `events` are the calls and the returns of the history in the order of their times, with an
id of its own for each operation. -/
def RecordedAs (events : List (Event I O)) (history : List (Operation I O)) : Prop :=
  ∃ entries ids, SortsEntries (operationEntries history) entries ∧ Function.Injective ids ∧
    events = entries.map (Entry.event ids)

theorem convertEntries_tags (events : List (Event I O)) :
    (convertEntries (renumber events)).map Entry.tag =
      events.map fun v => (v.value, (seenAfter [] events).idxOf v.id) := by
  refine List.ext_getElem? fun p => ?_
  rw [convertEntries, renumber_eq]
  simp only [List.getElem?_map, List.getElem?_mapIdx, Option.map_map]
  rfl

variable {entries : List (Entry I O)} {ids : Nat → Int}

theorem mem_seen_iff (hs : SortsEntries (operationEntries history) entries) {x : Int} :
    x ∈ seenAfter [] (entries.map (Entry.event ids)) ↔ ∃ i < history.length, ids i = x := by
  rw [mem_seenAfter]
  constructor
  · rintro (hx | ⟨v, hv, rfl⟩)
    · cases hx
    · obtain ⟨e, he, rfl⟩ := List.mem_map.mp hv
      obtain ⟨i, op, hop, heq⟩ := mem_operationEntries.mp (hs.perm.mem_iff.mp he)
      refine ⟨i, (List.getElem?_eq_some_iff.mp hop).1, ?_⟩
      rcases heq with rfl | rfl
      · rfl
      · rfl
  · rintro ⟨i, hi, rfl⟩
    have hcall := hs.getElem?_call (List.getElem?_eq_getElem hi)
    refine .inr ⟨_, List.mem_map_of_mem (List.mem_of_getElem? hcall), rfl⟩

/-- The checker is given the entries of the history under the numbers of `renumber`. -/
theorem exists_renumbers (hs : SortsEntries (operationEntries history) entries)
    (hids : Function.Injective ids) :
    ∃ ops' number order, Renumbers entries
      (convertEntries (renumber (entries.map (Entry.event ids)))) (history.map Operation.io) ops'
      number order := by
  generalize hseen : seenAfter [] (entries.map (Entry.event ids)) = seen
  have hmem : ∀ x, x ∈ seen ↔ ∃ i < history.length, ids i = x := by
    intro x
    rw [← hseen]
    exact mem_seen_iff hs
  have hnodup : seen.Nodup := hseen ▸ nodup_seenAfter List.nodup_nil _
  -- the operation of an id
  have hinv : Function.LeftInverse (Function.invFun ids) ids := Function.leftInverse_invFun hids
  have hperm : (seen.map (Function.invFun ids)).Perm (List.range history.length) := by
    refine (List.perm_ext_iff_of_nodup ?_ List.nodup_range).mpr fun i => ?_
    · refine hnodup.map_on ?_
      intro x hx y hy hxy
      obtain ⟨i, -, rfl⟩ := (hmem x).mp hx
      obtain ⟨j, -, rfl⟩ := (hmem y).mp hy
      rw [hinv, hinv] at hxy
      rw [hxy]
    · rw [List.mem_map, List.mem_range]
      constructor
      · rintro ⟨x, hx, rfl⟩
        obtain ⟨i, hi, rfl⟩ := (hmem x).mp hx
        rwa [hinv]
      · exact fun hi => ⟨ids i, (hmem _).mpr ⟨i, hi, rfl⟩, hinv i⟩
  have hrange := forall₂_range (history.map Operation.io)
  rw [List.length_map] at hrange
  obtain ⟨ops', hops', -⟩ := List.perm_comp_forall₂ hperm hrange
  refine ⟨ops', fun i => seen.idxOf (ids i), seen.map (Function.invFun ids), ?_, ?_, hops', ?_⟩
  · simpa using hperm
  · intro i hi
    have hi' : ids i ∈ seen := (hmem _).mpr ⟨i, by simpa using hi, rfl⟩
    rw [List.getElem?_map, List.getElem?_idxOf hi', Option.map_some, hinv]
  · rw [convertEntries_tags, hseen, List.map_map]
    rfl

/-! ## Checking events -/

variable [DecidableEq S] {model : Model I O S} {parts : List (List (Operation I O))}

/-- `model` is as `fillDefault` leaves it. -/
def checkEvents (model : Model I O S) (history : List (Event I O)) (verbose : Bool)
    (timeout : Int) : ParallelCheck I O S where
  model := model
  history := (model.partitionEvent history).map fun subhistory =>
    convertEntries (renumber subhistory)
  computeInfo := verbose
  timeout := timeout

theorem decides_recorded (model : Model I O S) (hrec : RecordedAs events history)
    (hle : ∀ op ∈ history, op.call ≤ op.ret) :
    ParallelCheck.Decides model (convertEntries (renumber events)) (model.Linearizable history) := by
  obtain ⟨entries, ids, hs, hids, rfl⟩ := hrec
  obtain ⟨ops', number, order, hnum⟩ := exists_renumbers hs hids
  exact ⟨ops', hnum.pairing (operationPairing hs hle),
    (hnum.exists_explained_iff _).trans (exists_explained_iff hs hle)⟩

theorem judges_events (hequal : model.EqualFits)
    (hrec : List.Forall₂ RecordedAs (model.partitionEvent events) parts)
    (hle : ∀ part ∈ parts, ∀ op ∈ part, op.call ≤ op.ret) (verbose : Bool) (timeout : Int) :
    Judges (checkEvents model events verbose timeout) parts := by
  refine ⟨hequal, by simpa [checkEvents] using hrec.length_eq, fun i subhistory hsub => ?_⟩
  simp only [checkEvents, List.getElem?_map] at hsub
  obtain ⟨subevents, hi, rfl⟩ := Option.map_eq_some_iff.mp hsub
  obtain ⟨hlt, rfl⟩ := List.getElem?_eq_some_iff.mp hi
  obtain ⟨hlen, hall⟩ := List.forall₂_iff_get.mp hrec
  have hpart : parts[i]? = some parts[i] := List.getElem?_eq_getElem (hlen ▸ hlt)
  obtain ⟨ops, hp, hdec⟩ := decides_recorded model (hall i hlt (hlen ▸ hlt))
    (hle _ (List.getElem_mem _))
  refine ⟨ops, hp, hdec.trans ?_⟩
  simp [checkEvents, hpart]

/-- For partitions that are recorded as events, `checkEvents` ends in every interleaving, does
not panic, and finds what is right for the operations. -/
theorem checkEvents_right (hequal : model.EqualFits)
    (hrec : List.Forall₂ RecordedAs (model.partitionEvent events) parts)
    (hle : ∀ part ∈ parts, ∀ op ∈ part, op.call ≤ op.ret) (verbose : Bool) (timeout : Int) :
    (∃ n, ∀ rs s, Course (checkEvents model events verbose timeout).step always
      (checkEvents model events verbose timeout).start rs s → rs.length ≤ n) ∧
    ∀ tr s, Run (checkEvents model events verbose timeout).step always
        (checkEvents model events verbose timeout).start tr s →
      s.main ≠ .panicked ∧
      ((∀ a, (checkEvents model events verbose timeout).step s a = none) →
        parts ≠ [] ∨ 0 < timeout → ∃ result info, s.main = .returned result info) ∧
      ∀ result info, s.main = .returned result info →
        (result = .ok → ∀ part ∈ parts, model.Linearizable part) ∧
        (result = .illegal → ∃ part ∈ parts, ¬ model.Linearizable part) ∧
        (result = .unknown → 0 < timeout) := by
  have hjudges := judges_events hequal hrec hle verbose timeout
  refine ⟨hjudges.bounded, fun tr s hrun => ?_⟩
  obtain ⟨hpanic, hright⟩ := hjudges.right hrun
  exact ⟨hpanic, fun hstuck hsome => hjudges.returns_iff.mpr hsome tr s hrun hstuck, hright⟩

/-- A put of `x`, and then a get of `y` that returns what was put. -/
def strayRead : List KvOperation :=
  [⟨0, ⟨1, "x", "a"⟩, 0, ⟨""⟩, 1⟩, ⟨1, ⟨0, "y", ""⟩, 2, ⟨"a"⟩, 3⟩]

def strayReadEvents : List (Event KvInput KvOutput) :=
  [⟨0, .inl ⟨1, "x", "a"⟩, 7⟩, ⟨0, .inr ⟨""⟩, 7⟩, ⟨1, .inl ⟨0, "y", ""⟩, 9⟩, ⟨1, .inr ⟨"a"⟩, 9⟩]

theorem recordedAs_strayRead : RecordedAs strayReadEvents strayRead := by
  refine ⟨sortEntries (operationEntries strayRead), fun i => 7 + 2 * i,
    sortsEntries_sortEntries _, fun i j hij => ?_, by decide +kernel⟩
  have : (7 : Int) + 2 * i = 7 + 2 * j := hij
  omega

def strayReadCheck : ParallelCheck KvInput KvOutput String :=
  checkEvents kvModel strayReadEvents false 0

def strayReadRun : Parallel String × List Unit :=
  reached strayReadCheck.step always strayReadCheck.start
    [.turn 0, .turn 0, .turn 0, .send 0, .receive]

theorem not_kvLinearizable_strayRead : ¬ KvLinearizable strayRead := by
  rw [kvLinearizable_iff (by decide)]
  intro hall
  -- the only operation on `y` is a get of what was not put there
  obtain ⟨τ, hτ⟩ := hall [⟨1, ⟨0, "y", ""⟩, 2, ⟨"a"⟩, 3⟩] (by decide +kernel)
  have hlegal := hτ.legal
  rw [List.perm_singleton.mp hτ.perm] at hlegal
  revert hlegal
  decide

/-- As events of one key the stray read is in order, though no store allows it. -/
theorem checkEvents_right_strayRead : strayReadRun.1.main = .returned .ok none ∧
    kvModel.Linearizable strayRead ∧ ¬ KvLinearizable strayRead := by
  have hrun : Run strayReadCheck.step always strayReadCheck.start strayReadRun.2 strayReadRun.1 :=
    reached_run (by decide +kernel)
  have heval : strayReadRun.1.main = .returned .ok none := by decide +kernel
  have hrec : List.Forall₂ RecordedAs (kvModel.partitionEvent strayReadEvents) [strayRead] :=
    .cons recordedAs_strayRead .nil
  obtain ⟨-, hright⟩ := checkEvents_right kvModel_equalFits hrec (by decide) false 0
  exact ⟨heval, ((hright _ _ hrun).2.2 _ _ heval).1 rfl _ (by simp), not_kvLinearizable_strayRead⟩

end RaftImplementation.Porcupine
