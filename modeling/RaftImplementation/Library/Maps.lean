import Mathlib.Data.Finmap

/-!
# Maps and range loops

A map is a `Finmap`: two maps are equal if every key has the same value in both. A
loop over a map visits its entries in an order that the language does not fix. `merge`
is such a loop in which the entry of key `k` touches slot `k` of another map only, and
may fail; whether it fails and what it leaves do not depend on the order, which is what
makes it a function of the maps. `mergeList` and `updateList` are the loops in one order.
-/

namespace RaftImplementation.Library

abbrev Map (K V : Type) := Finmap fun _ : K => V

namespace Map

variable {K V W : Type}

/-! ## Listing a map -/

/-- `l` lists the entries of `m`, in the order in which some loop visits them. -/
def Lists (m : Map K V) (l : List (Σ _ : K, V)) : Prop := m.entries = l

theorem Lists.nodupKeys {m : Map K V} {l : List (Σ _ : K, V)} (h : m.Lists l) : l.NodupKeys :=
  Multiset.coe_nodupKeys.mp (h ▸ m.nodupKeys)

theorem exists_lists (m : Map K V) : ∃ l, m.Lists l := by
  induction m using Finmap.induction_on with
  | H l => exact ⟨l.entries, rfl⟩

theorem Lists.mem_keys {m : Map K V} {l : List (Σ _ : K, V)} (h : m.Lists l) {k : K} :
    k ∈ l.keys ↔ k ∈ m := by
  rw [Finmap.mem_def, h]
  rfl

variable [DecidableEq K]

/-! ## Merging one map into another -/

/-- Slot `k` after the loop, where `ws` has `w` at `k` and the slot held `old`; the outer
option is the failure. -/
def slot (upd : Option V → W → Option V) (old : Option V) : Option W → Option (Option V)
  | none => some old
  | some w => (upd old w).map some

/-- The loop over the entries of `ws` in the given order. -/
def mergeList (upd : Option V → W → Option V) : Map K V → List (Σ _ : K, W) → Option (Map K V)
  | m, [] => some m
  | m, ⟨k, w⟩ :: ws =>
    match upd (m.lookup k) w with
    | none => none
    | some v => mergeList upd (m.insert k v) ws

variable {upd : Option V → W → Option V} {m m' : Map K V}

/-- The loop goes through if every entry can update its slot. -/
theorem mergeList_isSome {l : List (Σ _ : K, W)} (hl : l.NodupKeys) :
    (mergeList upd m l).isSome = true ↔
      ∀ k w, l.dlookup k = some w → (upd (m.lookup k) w).isSome = true := by
  induction l generalizing m with
  | nil => simp [mergeList]
  | cons e l ih =>
    obtain ⟨k, w⟩ := e
    rw [List.nodupKeys_cons] at hl
    have hk : l.dlookup k = none := List.dlookup_eq_none.mpr hl.1
    rw [mergeList]
    cases hu : upd (m.lookup k) w with
    | none =>
      simp only [Option.isSome_none, Bool.false_eq_true, false_iff, not_forall]
      exact ⟨k, w, List.dlookup_cons_eq l k w, by simp [hu]⟩
    | some v =>
      rw [ih hl.2]
      constructor
      · intro h k' w' hw'
        by_cases hkk : k' = k
        · subst hkk
          rw [List.dlookup_cons_eq, Option.some.injEq] at hw'
          simp [← hw', hu]
        · rw [List.dlookup_cons_ne l ⟨k, w⟩ hkk] at hw'
          have := h k' w' hw'
          rwa [Finmap.lookup_insert_of_ne m hkk] at this
      · intro h k' w' hw'
        have hkk : k' ≠ k := by
          rintro rfl
          simp [hk] at hw'
        rw [Finmap.lookup_insert_of_ne m hkk]
        exact h k' w' (by rwa [List.dlookup_cons_ne l ⟨k, w⟩ hkk])

/-- What the loop leaves in every slot. -/
theorem lookup_mergeList {l : List (Σ _ : K, W)} (hl : l.NodupKeys)
    (h : mergeList upd m l = some m') (k : K) :
    slot upd (m.lookup k) (l.dlookup k) = some (m'.lookup k) := by
  induction l generalizing m with
  | nil =>
    cases h
    rfl
  | cons e l ih =>
    obtain ⟨k', w⟩ := e
    rw [List.nodupKeys_cons] at hl
    rw [mergeList] at h
    cases hu : upd (m.lookup k') w with
    | none => simp [hu] at h
    | some v =>
      rw [hu] at h
      have hrest := ih hl.2 h
      by_cases hk : k = k'
      · subst hk
        rw [List.dlookup_eq_none.mpr hl.1, slot, Finmap.lookup_insert] at hrest
        rw [List.dlookup_cons_eq, slot, hu, Option.map_some]
        exact hrest
      · rw [Finmap.lookup_insert_of_ne m hk] at hrest
        rwa [List.dlookup_cons_ne l ⟨k', w⟩ hk]

theorem mergeList_perm {l l' : List (Σ _ : K, W)} (hl : l.NodupKeys) (hp : l.Perm l') :
    mergeList upd m l = mergeList upd m l' := by
  have hl' := (List.perm_nodupKeys hp).mp hl
  have hlookup : ∀ k, l.dlookup k = l'.dlookup k := fun k => List.perm_dlookup k hl hp
  have hsome : (mergeList upd m l).isSome = (mergeList upd m l').isSome := by
    rw [Bool.eq_iff_iff, mergeList_isSome hl, mergeList_isSome hl']
    simp only [hlookup]
  cases hr : mergeList upd m l with
  | none =>
    rw [hr, Option.isSome_none, eq_comm, Option.isSome_eq_false_iff, Option.isNone_iff_eq_none]
      at hsome
    exact hsome.symm
  | some m₁ =>
    rw [hr, Option.isSome_some] at hsome
    obtain ⟨m₂, hr'⟩ := Option.isSome_iff_exists.mp hsome.symm
    rw [hr', Option.some.injEq]
    apply Finmap.ext_lookup
    intro k
    have h₁ := lookup_mergeList hl hr k
    rw [hlookup k, lookup_mergeList hl' hr' k, Option.some.injEq] at h₁
    exact h₁.symm

/-- `for k, w := range ws` with an update of slot `k` of `m` as its body. -/
def merge (upd : Option V → W → Option V) (m : Map K V) (ws : Map K W) : Option (Map K V) :=
  ws.liftOn (fun l => mergeList upd m l.entries) fun l _ hp => mergeList_perm l.nodupKeys hp

theorem merge_isSome {ws : Map K W} : (merge upd m ws).isSome = true ↔
    ∀ k w, ws.lookup k = some w → (upd (m.lookup k) w).isSome = true := by
  induction ws using Finmap.induction_on with
  | H l => exact mergeList_isSome l.nodupKeys

theorem lookup_merge {ws : Map K W} (h : merge upd m ws = some m') (k : K) :
    slot upd (m.lookup k) (ws.lookup k) = some (m'.lookup k) := by
  induction ws using Finmap.induction_on with
  | H l => exact lookup_mergeList l.nodupKeys h k

/-! ## Changing every value -/

/-- `for k := range m` with a change of the value at `k` as its body. -/
def mapValues (f : V → W) (m : Map K V) : Map K W where
  entries := m.entries.map (Sigma.map id fun _ => f)
  nodupKeys := by
    induction m using Finmap.induction_on with
    | H l => exact l.nodupKeys.map₂ _ _

theorem lookup_mapValues (f : V → W) (m : Map K V) (k : K) :
    (mapValues f m).lookup k = (m.lookup k).map f := by
  induction m using Finmap.induction_on with
  | H l => exact List.dlookup_map₂ k

/-! ## Loops in a given order -/

theorem mergeList_eq_merge {ws : Map K W} {l : List (Σ _ : K, W)} (h : ws.Lists l) (m : Map K V) :
    mergeList upd m l = merge upd m ws := by
  induction ws using Finmap.induction_on with
  | H l' => exact mergeList_perm h.nodupKeys (Multiset.coe_eq_coe.mp h).symm

/-- `m[k] = f(m[k])` for the keys `k` in the given order. -/
def updateList (f : V → V) : Map K V → List K → Map K V
  | m, [] => m
  | m, k :: ks =>
    match m.lookup k with
    | none => updateList f m ks
    | some v => updateList f (m.insert k (f v)) ks

theorem lookup_updateList (f : V → V) {ks : List K} (hks : ks.Nodup) (m : Map K V) (k : K) :
    (updateList f m ks).lookup k = if k ∈ ks then (m.lookup k).map f else m.lookup k := by
  induction ks generalizing m with
  | nil => simp [updateList]
  | cons k' ks ih =>
    rw [List.nodup_cons] at hks
    rw [updateList]
    cases hv : m.lookup k' with
    | none =>
      simp only [ih hks.2, List.mem_cons]
      by_cases hk : k = k'
      · subst hk
        simp [hks.1, hv]
      · simp [hk]
    | some v =>
      simp only [ih hks.2, List.mem_cons]
      by_cases hk : k = k'
      · subst hk
        simp [hks.1, hv]
      · rw [Finmap.lookup_insert_of_ne m hk]
        simp [hk]

theorem updateList_eq_mapValues (f : V → V) {m : Map K V} {l : List (Σ _ : K, V)} (h : m.Lists l) :
    updateList f m l.keys = mapValues f m := by
  apply Finmap.ext_lookup
  intro k
  rw [lookup_updateList f h.nodupKeys, lookup_mapValues]
  split
  · rfl
  · rename_i hk
    rw [h.mem_keys, ← Finmap.lookup_eq_none] at hk
    rw [hk, Option.map_none]

/-! ## Sums over a map -/

/-- The sum of a number for every value. -/
def total (f : V → Nat) (m : Map K V) : Nat := (m.entries.map fun e => f e.2).sum

theorem insert_erase (m : Map K V) (k : K) (v : V) : (m.erase k).insert k v = m.insert k v := by
  apply Finmap.ext_lookup
  intro k'
  by_cases hk : k' = k
  · subst hk
    rw [Finmap.lookup_insert, Finmap.lookup_insert]
  · rw [Finmap.lookup_insert_of_ne _ hk, Finmap.lookup_insert_of_ne _ hk, Finmap.lookup_erase_ne hk]

theorem total_insert (f : V → Nat) (m : Map K V) (k : K) (v : V) :
    total f (m.insert k v) = f v + total f (m.erase k) := by
  rw [← insert_erase, total, Finmap.entries_insert_of_notMem Finmap.notMem_erase_self,
    Multiset.map_cons, Multiset.sum_cons]
  rfl

/-- The sum splits into the value at a key and the rest. -/
theorem total_split (f : V → Nat) (m : Map K V) (k : K) :
    total f m = ((m.lookup k).map f).getD 0 + total f (m.erase k) := by
  cases hk : m.lookup k with
  | none =>
    have hsame : m.erase k = m := by
      apply Finmap.ext_lookup
      intro k'
      by_cases hkk : k' = k
      · subst hkk
        rw [Finmap.lookup_erase, hk]
      · exact Finmap.lookup_erase_ne hkk
    rw [hsame, Option.map_none, Option.getD_none, Nat.zero_add]
  | some v =>
    have hsame : m.insert k v = m := by
      apply Finmap.ext_lookup
      intro k'
      by_cases hkk : k' = k
      · subst hkk
        rw [Finmap.lookup_insert, hk]
      · exact Finmap.lookup_insert_of_ne _ hkk
    rw [Option.map_some, Option.getD_some, ← total_insert, hsame]

end Map

end RaftImplementation.Library
