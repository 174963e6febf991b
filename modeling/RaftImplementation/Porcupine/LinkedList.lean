import Mathlib.Data.List.Nodup
import RaftImplementation.Porcupine.Checker

/-!
# The list that the checker works on

If the entries are the calls and returns of some operations (`Pairing`), then
`makeLinkedEntries` links them in their order and gives each call its return, `lift` takes
the two entries of an operation out, and `unlift` puts them back: every pointer is again
as it was before.
-/

namespace RaftImplementation.Porcupine

open Library

variable {I O : Type} {history entries : List (Entry I O)} {ops : List (I × O)}

/-! ## What is linked -/

/-- The node is in no list. -/
def Loose (L : Links Nat) (q : Nat) : Prop := L.next q = none ∧ L.prev q = none

theorem insertBefore_first {L : Links Nat} {q r : Nat} (hr : L.prev r = none) :
    insertBefore L q (some r) = (L.setPrev r (some q)).setNext q (some r) := by
  simp only [insertBefore, hr]

theorem root_makeLinkedEntriesFrom (i : Nat) (entries : List (Entry I O)) :
    (makeLinkedEntriesFrom i entries).root = if entries = [] then none else some i := by
  cases entries with
  | nil => rfl
  | cons elem entries =>
    rw [makeLinkedEntriesFrom, LinkedEntries.add]
    by_cases hcall : elem.isCall = true
    · simp [hcall]
    · simp [hcall]

theorem links_makeLinkedEntriesFrom (i : Nat) (elem : Entry I O) (entries : List (Entry I O)) :
    (makeLinkedEntriesFrom i (elem :: entries)).links =
      insertBefore (makeLinkedEntriesFrom (i + 1) entries).links i
        (makeLinkedEntriesFrom (i + 1) entries).root := by
  rw [makeLinkedEntriesFrom, LinkedEntries.add]
  by_cases hcall : elem.isCall = true
  · rw [if_pos hcall]
  · rw [if_neg hcall]

/-- Only the entries are linked, the first has none before it, and a loose node that is
put before it comes before all of them. -/
structure LinkedFrom (L : Links Nat) (root : Option Nat) (i len : Nat) : Prop where
  loose : ∀ q, q < i ∨ i + len ≤ q → Loose L q
  first : ∀ r, root = some r → L.prev r = none
  insert : ∀ q, q < i ∨ i + len ≤ q →
    (insertBefore L q root).Linked q (List.range' i len)

theorem LinkedFrom.cons {L : Links Nat} {root : Option Nat} {i len : Nat}
    (h : LinkedFrom L root (i + 1) len) (hroot : root = if len = 0 then none else some (i + 1)) :
    LinkedFrom (insertBefore L i root) (some i) i (len + 1) := by
  have hi := h.loose i (by omega)
  have hlinked := h.insert i (by omega)
  have hloose : ∀ q, q ≠ i → q < i + 1 ∨ i + 1 + len ≤ q → Loose (insertBefore L i root) q := by
    intro q hqi hq
    have hold := h.loose q hq
    by_cases hlen : len = 0
    · rw [hroot, if_pos hlen]
      exact hold
    · rw [if_neg hlen] at hroot
      rw [hroot, insertBefore_first (h.first _ hroot)]
      refine ⟨(Function.update_of_ne hqi _ _).trans hold.1, ?_⟩
      exact (Function.update_of_ne (by omega) _ _).trans hold.2
  have hfirst : (insertBefore L i root).prev i = none := by
    by_cases hlen : len = 0
    · rw [hroot, if_pos hlen]
      exact hi.2
    · rw [if_neg hlen] at hroot
      rw [hroot, insertBefore_first (h.first _ hroot)]
      exact (Function.update_of_ne (by omega) _ _).trans hi.2
  refine ⟨fun q hq => hloose q (by omega) (by omega), ?_, ?_⟩
  · rintro r hr
    cases hr
    exact hfirst
  · intro q hq
    rw [insertBefore_first hfirst, List.range'_succ]
    refine ⟨Function.update_self _ _ _, Function.update_self _ _ _, hlinked.frame ?_ ?_⟩
    · intro y hy
      apply Function.update_of_ne
      rw [List.mem_cons, List.mem_range'_1] at hy
      omega
    · intro y hy
      apply Function.update_of_ne
      rw [List.mem_range'_1] at hy
      omega

theorem linkedFrom_makeLinkedEntriesFrom (i : Nat) (entries : List (Entry I O)) :
    LinkedFrom (makeLinkedEntriesFrom i entries).links (makeLinkedEntriesFrom i entries).root i
      entries.length := by
  induction entries generalizing i with
  | nil => exact ⟨fun q _ => ⟨rfl, rfl⟩, by simp [makeLinkedEntriesFrom], fun q _ => rfl⟩
  | cons elem entries ih =>
    have hroot := root_makeLinkedEntriesFrom (i + 1) entries
    rw [links_makeLinkedEntriesFrom, root_makeLinkedEntriesFrom i (elem :: entries),
      if_neg (List.cons_ne_nil _ _)]
    exact (ih (i + 1)).cons (by simpa using hroot)

/-- After the head has been put before them, the entries are linked in their order. -/
theorem linked_makeLinkedEntries (history : List (Entry I O)) :
    (insertBefore (makeLinkedEntries history).links history.length
      (makeLinkedEntries history).root).Linked history.length (List.range history.length) := by
  rw [List.range_eq_range']
  exact (linkedFrom_makeLinkedEntriesFrom 0 history).insert _ (by omega)

/-- All entries are counted. -/
theorem length_makeLinkedEntries (history : List (Entry I O)) :
    ((makeLinkedEntries history).links.follow history.length
      (makeLinkedEntries history).root).length = history.length := by
  cases history with
  | nil => rfl
  | cons elem entries =>
    have hlinked := (linkedFrom_makeLinkedEntriesFrom 1 entries).insert 0 (by omega)
    rw [makeLinkedEntries, links_makeLinkedEntriesFrom, root_makeLinkedEntriesFrom 0 (elem :: entries),
      if_neg (List.cons_ne_nil _ _), hlinked.follow_eq (by simp)]
    simp

/-! ## Which return a call has -/

theorem nodes_makeLinkedEntriesFrom (i : Nat) (elem : Entry I O) (entries : List (Entry I O)) :
    (makeLinkedEntriesFrom i (elem :: entries)).nodes =
      ⟨elem.value,
        if elem.isCall then (makeLinkedEntriesFrom (i + 1) entries).matching.lookup elem.id else none,
        elem.id⟩ :: (makeLinkedEntriesFrom (i + 1) entries).nodes := by
  rw [makeLinkedEntriesFrom, LinkedEntries.add]
  by_cases hcall : elem.isCall = true
  · rw [if_pos hcall, if_pos hcall]
  · rw [if_neg hcall, if_neg hcall]

/-- A return is found by its id, if it is the only one. -/
theorem lookup_makeLinkedEntriesFrom {i q : Nat} {e : Entry I O} (he : entries[q]? = some e)
    (hret : e.isCall = false)
    (honly : ∀ q' e', entries[q']? = some e' → e'.isCall = false → e'.id = e.id → q' = q) :
    (makeLinkedEntriesFrom i entries).matching.lookup e.id = some (i + q) := by
  induction entries generalizing i q with
  | nil => simp at he
  | cons elem entries ih =>
    rw [makeLinkedEntriesFrom, LinkedEntries.add]
    cases q with
    | zero =>
      rw [List.getElem?_cons_zero, Option.some.injEq] at he
      subst he
      rw [if_neg (by simp [hret])]
      exact Finmap.lookup_insert _
    | succ q =>
      rw [List.getElem?_cons_succ] at he
      have hrest : (makeLinkedEntriesFrom (i + 1) entries).matching.lookup e.id =
          some (i + (q + 1)) := by
        rw [ih he, show i + 1 + q = i + (q + 1) by omega]
        intro q' e' he' hret' hid
        have hq' := honly (q' + 1) e' (by simpa using he') hret' hid
        omega
      by_cases hcall : elem.isCall = true
      · rw [if_pos hcall]
        exact hrest
      · rw [if_neg hcall]
        refine (Finmap.lookup_insert_of_ne _ ?_).trans hrest
        intro hid
        have hzero := honly 0 elem rfl (by simpa using hcall) hid.symm
        omega

theorem nodes_getElem?_ret {i p : Nat} {e : Entry I O} (he : entries[p]? = some e)
    (hret : e.isCall = false) :
    (makeLinkedEntriesFrom i entries).nodes[p]? = some ⟨e.value, none, e.id⟩ := by
  induction entries generalizing i p with
  | nil => simp at he
  | cons elem entries ih =>
    rw [nodes_makeLinkedEntriesFrom]
    cases p with
    | zero =>
      rw [List.getElem?_cons_zero, Option.some.injEq] at he
      subst he
      simp [hret]
    | succ p => exact ih (by simpa using he)

theorem nodes_getElem?_call {i p q : Nat} {e e' : Entry I O} (he : entries[p]? = some e)
    (hcall : e.isCall = true) (hpq : p < q) (he' : entries[q]? = some e') (hret : e'.isCall = false)
    (hid : e'.id = e.id)
    (honly : ∀ q' e'', entries[q']? = some e'' → e''.isCall = false → e''.id = e'.id → q' = q) :
    (makeLinkedEntriesFrom i entries).nodes[p]? = some ⟨e.value, some (i + q), e.id⟩ := by
  induction entries generalizing i p q with
  | nil => simp at he
  | cons elem entries ih =>
    rw [nodes_makeLinkedEntriesFrom]
    obtain ⟨q, rfl⟩ : ∃ r, q = r + 1 := ⟨q - 1, by omega⟩
    rw [List.getElem?_cons_succ] at he'
    have honly' : ∀ q' e'', entries[q']? = some e'' → e''.isCall = false → e''.id = e'.id →
        q' = q := by
      intro q' e'' he'' hret' hid'
      have hq' := honly (q' + 1) e'' (by simpa using he'') hret' hid'
      omega
    cases p with
    | zero =>
      rw [List.getElem?_cons_zero, Option.some.injEq] at he
      subst he
      rw [List.getElem?_cons_zero, if_pos hcall, ← hid,
        lookup_makeLinkedEntriesFrom he' hret honly', hid, show i + 1 + q = i + (q + 1) by omega]
    | succ p =>
      rw [List.getElem?_cons_succ, ih (by simpa using he) (by omega) he' honly',
        show i + 1 + q = i + (q + 1) by omega]

/-! ## Operations -/

/-- What the search reads of an entry. -/
def Entry.tag (e : Entry I O) : (I ⊕ O) × Nat := (e.value, e.id)

/-- The entries are the calls and the returns of `ops`, and each call comes before its
return. -/
structure Pairing (history : List (Entry I O)) (ops : List (I × O)) where
  callAt : Nat → Nat
  retAt : Nat → Nat
  call_eq : ∀ i x, ops[i]? = some x → history[callAt i]?.map Entry.tag = some (.inl x.1, i)
  ret_eq : ∀ i x, ops[i]? = some x → history[retAt i]?.map Entry.tag = some (.inr x.2, i)
  lt : ∀ i < ops.length, callAt i < retAt i
  cover : ∀ p < history.length, ∃ i < ops.length, p = callAt i ∨ p = retAt i
  length_eq : history.length = 2 * ops.length

/-- The operation of an entry. -/
def opAt (history : List (Entry I O)) (p : Nat) : Nat := (history[p]?.map Entry.id).getD 0

def isCallAt (history : List (Entry I O)) (p : Nat) : Bool :=
  (history[p]?.map Entry.isCall).getD false

/-- The entries of the operations that are not in `σ`. -/
def remaining (history : List (Entry I O)) (σ : List Nat) : List Nat :=
  (List.range history.length).filter fun p => opAt history p ∉ σ

theorem mem_remaining {σ : List Nat} {p : Nat} :
    p ∈ remaining history σ ↔ p < history.length ∧ opAt history p ∉ σ := by
  simp [remaining]

theorem remaining_pairwise (history : List (Entry I O)) (σ : List Nat) :
    (remaining history σ).Pairwise (· < ·) :=
  List.pairwise_lt_range.filter _

theorem remaining_nodup (history : List (Entry I O)) (σ : List Nat) :
    (history.length :: remaining history σ).Nodup := by
  refine List.nodup_cons.mpr ⟨?_, (List.nodup_range).filter _⟩
  simp [mem_remaining]

theorem remaining_append (history : List (Entry I O)) (σ : List Nat) (i : Nat) :
    remaining history (σ ++ [i]) = (remaining history σ).filter fun p => opAt history p ≠ i := by
  rw [remaining, remaining, List.filter_filter]
  apply List.filter_congr
  intro p _
  simp [and_comm]

theorem opAt_eq {e : Entry I O} {p : Nat} (he : history[p]? = some e) : opAt history p = e.id := by
  rw [opAt, he]
  rfl

theorem isCallAt_eq {e : Entry I O} {p : Nat} (he : history[p]? = some e) :
    isCallAt history p = e.isCall := by
  rw [isCallAt, he]
  rfl

namespace Pairing

variable {i j p : Nat} {x : I × O} {σ : List Nat}

theorem exists_call (h : Pairing history ops) (hx : ops[i]? = some x) :
    ∃ e, history[h.callAt i]? = some e ∧ e.value = .inl x.1 ∧ e.id = i := by
  obtain ⟨e, he, htag⟩ := Option.map_eq_some_iff.mp (h.call_eq i x hx)
  exact ⟨e, he, congrArg Prod.fst htag, congrArg Prod.snd htag⟩

theorem exists_ret (h : Pairing history ops) (hx : ops[i]? = some x) :
    ∃ e, history[h.retAt i]? = some e ∧ e.value = .inr x.2 ∧ e.id = i := by
  obtain ⟨e, he, htag⟩ := Option.map_eq_some_iff.mp (h.ret_eq i x hx)
  exact ⟨e, he, congrArg Prod.fst htag, congrArg Prod.snd htag⟩

theorem callAt_spec (h : Pairing history ops) (hi : i < ops.length) :
    h.callAt i < history.length ∧ opAt history (h.callAt i) = i ∧
      isCallAt history (h.callAt i) = true := by
  obtain ⟨e, he, hvalue, hid⟩ := h.exists_call (List.getElem?_eq_getElem hi)
  refine ⟨(List.getElem?_eq_some_iff.mp he).1, (opAt_eq he).trans hid, ?_⟩
  rw [isCallAt_eq he, Entry.isCall, hvalue]
  rfl

theorem retAt_spec (h : Pairing history ops) (hi : i < ops.length) :
    h.retAt i < history.length ∧ opAt history (h.retAt i) = i ∧
      isCallAt history (h.retAt i) = false := by
  obtain ⟨e, he, hvalue, hid⟩ := h.exists_ret (List.getElem?_eq_getElem hi)
  refine ⟨(List.getElem?_eq_some_iff.mp he).1, (opAt_eq he).trans hid, ?_⟩
  rw [isCallAt_eq he, Entry.isCall, hvalue]
  rfl

theorem opAt_lt (h : Pairing history ops) (hp : p < history.length) : opAt history p < ops.length := by
  obtain ⟨i, hi, rfl | rfl⟩ := h.cover p hp
  · rwa [(h.callAt_spec hi).2.1]
  · rwa [(h.retAt_spec hi).2.1]

theorem eq_callAt (h : Pairing history ops) (hp : p < history.length) (hcall : isCallAt history p = true) :
    p = h.callAt (opAt history p) := by
  obtain ⟨i, hi, rfl | rfl⟩ := h.cover p hp
  · rw [(h.callAt_spec hi).2.1]
  · rw [(h.retAt_spec hi).2.2] at hcall
    cases hcall

theorem eq_retAt (h : Pairing history ops) (hp : p < history.length)
    (hret : isCallAt history p = false) : p = h.retAt (opAt history p) := by
  obtain ⟨i, hi, rfl | rfl⟩ := h.cover p hp
  · rw [(h.callAt_spec hi).2.2] at hret
    cases hret
  · rw [(h.retAt_spec hi).2.1]

theorem callAt_mem_remaining (h : Pairing history ops) (hi : i < ops.length) (hσ : i ∉ σ) :
    h.callAt i ∈ remaining history σ := by
  obtain ⟨hlt, hop, -⟩ := h.callAt_spec hi
  exact mem_remaining.mpr ⟨hlt, hop.symm ▸ hσ⟩

theorem retAt_mem_remaining (h : Pairing history ops) (hi : i < ops.length) (hσ : i ∉ σ) :
    h.retAt i ∈ remaining history σ := by
  obtain ⟨hlt, hop, -⟩ := h.retAt_spec hi
  exact mem_remaining.mpr ⟨hlt, hop.symm ▸ hσ⟩

/-- An operation goes with its two entries. -/
theorem remaining_eq (h : Pairing history ops) (hi : i < ops.length) :
    remaining history (σ ++ [i]) =
      ((remaining history σ).filter (· ≠ h.callAt i)).filter (· ≠ h.retAt i) := by
  rw [remaining_append, List.filter_filter]
  apply List.filter_congr
  intro p hp
  have hlt := (mem_remaining.mp hp).1
  rw [← Bool.decide_and]
  apply decide_eq_decide.mpr
  constructor
  · rintro hne
    refine ⟨?_, ?_⟩
    · rintro rfl
      exact hne (h.retAt_spec hi).2.1
    · rintro rfl
      exact hne (h.callAt_spec hi).2.1
  · rintro ⟨hret, hcall⟩ rfl
    cases hkind : isCallAt history p with
    | true => exact hcall (h.eq_callAt hlt hkind)
    | false => exact hret (h.eq_retAt hlt hkind)

theorem node_ret (h : Pairing history ops) (hx : ops[i]? = some x) :
    (makeLinkedEntries history).nodes[h.retAt i]? = some ⟨.inr x.2, none, i⟩ := by
  obtain ⟨e, he, hvalue, hid⟩ := h.exists_ret hx
  rw [makeLinkedEntries, nodes_getElem?_ret he (by simp [Entry.isCall, hvalue]), hvalue, hid]

theorem node_call (h : Pairing history ops) (hx : ops[i]? = some x) :
    (makeLinkedEntries history).nodes[h.callAt i]? = some ⟨.inl x.1, some (h.retAt i), i⟩ := by
  have hi := (List.getElem?_eq_some_iff.mp hx).1
  obtain ⟨e, he, hvalue, hid⟩ := h.exists_call hx
  obtain ⟨e', he', hvalue', hid'⟩ := h.exists_ret hx
  have honly : ∀ q e'', history[q]? = some e'' → e''.isCall = false → e''.id = e'.id →
      q = h.retAt i := by
    intro q e'' he'' hret hid''
    have hq := h.eq_retAt (List.getElem?_eq_some_iff.mp he'').1 ((isCallAt_eq he'').trans hret)
    rwa [opAt_eq he'', hid'', hid'] at hq
  rw [makeLinkedEntries, nodes_getElem?_call he (by simp [Entry.isCall, hvalue]) (h.lt i hi) he'
    (by simp [Entry.isCall, hvalue']) (hid'.trans hid.symm) honly, hvalue, hid, Nat.zero_add]

/-- The two entries of an operation are lifted out of the list, and `unlift` puts back
every pointer. -/
theorem lift_unlift (h : Pairing history ops) {L : Links Nat} (hi : i < ops.length) (hσ : i ∉ σ)
    (hL : L.Linked history.length (remaining history σ)) :
    ∃ L', lift (makeLinkedEntries history).nodes L (h.callAt i) = some L' ∧
      L'.Linked history.length (remaining history (σ ++ [i])) ∧
      unlift (makeLinkedEntries history).nodes L' (h.callAt i) = some L := by
  have hnode := h.node_call (List.getElem?_eq_getElem hi)
  have hnd := remaining_nodup history σ
  have hcall := h.callAt_mem_remaining hi hσ
  have hret := h.retAt_mem_remaining hi hσ
  -- the return is after the call, so there is a next entry
  obtain ⟨q, hq⟩ : ∃ q, L.next (h.callAt i) = some q := by
    obtain ⟨a, b, hab⟩ := List.append_of_mem hcall
    have hsorted := remaining_pairwise history σ
    rw [hab] at hsorted hret hL
    rw [hL.right.next_eq]
    cases b with
    | cons q b => exact ⟨q, rfl⟩
    | nil =>
      have hlt := h.lt i hi
      rcases List.mem_append.mp hret with hmem | hmem
      · have hlt' := (List.pairwise_append.mp hsorted).2.2 _ hmem (h.callAt i) (by simp)
        omega
      · rw [List.mem_singleton] at hmem
        omega
  obtain ⟨L₁, hL₁, hlinked₁, hnext₁, hrelink₁⟩ := hL.unlink hnd hcall
  have hret₁ : h.retAt i ∈ (remaining history σ).filter (· ≠ h.callAt i) := by
    have hlt := h.lt i hi
    exact List.mem_filter.mpr ⟨hret, decide_eq_true (by omega)⟩
  have hnd₁ : (history.length :: (remaining history σ).filter (· ≠ h.callAt i)).Nodup :=
    hnd.sublist (List.filter_sublist.cons_cons _)
  obtain ⟨L₂, hL₂, hlinked₂, -, hrelink₂⟩ := hlinked₁.unlink hnd₁ hret₁
  refine ⟨L₂, ?_, ?_, ?_⟩
  · simp [lift, hnode, hq, hL₁, hL₂]
  · rwa [h.remaining_eq hi]
  · simp [unlift, hnode, hrelink₂, hnext₁, hq, hrelink₁]

end Pairing

end RaftImplementation.Porcupine
