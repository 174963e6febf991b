import RaftImplementation.Porcupine.Search

/-!
# What `checkSingle` finds

Every turn of the loop is a step of the search (`Fits.turn_inl`, `Fits.turn_inr`): the list
has the entries that are not in the sequence, the bitset stands for the set of those that
are, the cache has what the search has entered, and the calls that have been lifted are the
way back. So the loop never panics, it ends, its verdict is right, and it keeps the longest
sequence for each operation.
-/

namespace RaftImplementation.Porcupine

open Library

variable {I O S : Type} [DecidableEq S] {model : Model I O S} {history : List (Entry I O)}
variable {ops : List (I × O)} {σ τ : List Nat} {i : Nat} {s s' : S}

/-! ## The cache -/

/-- The cache has what the search has entered. -/
def CacheFits (model : Model I O S) (bits : Nat) (cache : Cache S) (memo : List (List Nat × S)) : Prop :=
  ∀ (σ : List Nat) (s : S) (b : Bitset), b.Represents bits σ →
    (cacheContains model cache ⟨b, s⟩ = true ↔
      ∃ m ∈ memo, (∀ i, i ∈ σ ↔ i ∈ m.1) ∧ model.equal s m.2 = true)

theorem cacheContains_add (cache : Cache S) (e e' : CacheEntry S) :
    cacheContains model (cache.add e') e = (cacheContains model cache e ||
      (e.linearized.equals e'.linearized && model.equal e.state e'.state)) := by
  unfold cacheContains Cache.add
  by_cases hhash : e.linearized.hash = e'.linearized.hash
  · rw [hhash, Finmap.lookup_insert]
    simp
  · -- another hash: another bucket, and another set
    have hne : e.linearized.equals e'.linearized = false := by
      rw [Bool.eq_false_iff, ne_eq, Bitset.equals_iff]
      intro heq
      exact hhash (congrArg Bitset.hash heq)
    rw [Finmap.lookup_insert_of_ne _ hhash, hne]
    simp

theorem CacheFits.add {bits : Nat} {cache : Cache S} {memo : List (List Nat × S)}
    (h : CacheFits model bits cache memo) {b : Bitset} (hb : b.Represents bits σ) :
    CacheFits model bits (cache.add ⟨b, s⟩) (memo ++ [(σ, s)]) := by
  intro σ' s' b' hb'
  rw [cacheContains_add, Bool.or_eq_true, Bool.and_eq_true, h σ' s' b' hb', hb'.equals_iff hb]
  constructor
  · rintro (⟨m, hm, hsame⟩ | hnew)
    · exact ⟨m, List.mem_append_left _ hm, hsame⟩
    · exact ⟨(σ, s), by simp, hnew⟩
  · rintro ⟨m, hm, hsame⟩
    cases List.mem_append.mp hm with
    | inl hold => exact .inl ⟨m, hold, hsame⟩
    | inr hnew =>
      rw [List.mem_singleton.mp hnew] at hsame
      exact .inr hsame

theorem cacheFits_empty (bits : Nat) : CacheFits model bits ∅ [] := by
  intro σ s b _
  simp [cacheContains]

/-! ## The longest sequences -/

/-- The longer of the two, and the old one if they have the same length. -/
def longer (seq : List Nat) (old : Option (List Nat)) : Option (List Nat) :=
  if old.all fun l => l.length < seq.length then some seq else old

theorem longer_longer (seq : List Nat) (old : Option (List Nat)) :
    longer seq (longer seq old) = longer seq old := by
  unfold longer
  by_cases hall : (old.all fun l => l.length < seq.length) = true
  · rw [if_pos hall, if_neg (by simp)]
  · rw [if_neg hall, if_neg hall]

theorem recordOne_eq (seq : List Nat) {longest : Longest} {id : Nat} (hid : id < longest.length) :
    ∃ longest', recordOne seq longest id = some longest' ∧ longest'.length = longest.length ∧
      ∀ i, longest'[i]? = if i = id then longest[i]?.map (longer seq) else longest[i]? := by
  have hold := List.getElem?_eq_getElem hid
  by_cases hall : (longest[id].all fun l => l.length < seq.length) = true
  · refine ⟨longest.set id (some seq), by simp [recordOne, hold, hall], List.length_set, ?_⟩
    intro i
    by_cases hi : i = id
    · subst hi
      rw [if_pos rfl, hold, Option.map_some, longer, if_pos hall, List.getElem?_set_self hid]
    · rw [if_neg hi, List.getElem?_set_ne (Ne.symm hi)]
  · refine ⟨longest, by simp [recordOne, hold, hall], rfl, ?_⟩
    intro i
    by_cases hi : i = id
    · subst hi
      rw [if_pos rfl, hold, Option.map_some, longer, if_neg hall]
    · rw [if_neg hi]

/-- The sequence is kept for each of its operations for which it is the longest. -/
theorem record_eq {longest : Longest} {seq : List Nat} (hseq : ∀ id ∈ seq, id < longest.length) :
    ∃ longest', record longest seq = some longest' ∧ longest'.length = longest.length ∧
      ∀ i, longest'[i]? = if i ∈ seq then longest[i]?.map (longer seq) else longest[i]? := by
  have hloop : ∀ (ids : List Nat) (longest : Longest), (∀ id ∈ ids, id < longest.length) →
      ∃ longest', ids.foldlM (recordOne seq) longest = some longest' ∧
        longest'.length = longest.length ∧
        ∀ i, longest'[i]? = if i ∈ ids then longest[i]?.map (longer seq) else longest[i]? := by
    intro ids
    induction ids with
    | nil => exact fun longest _ => ⟨longest, rfl, rfl, fun i => by simp⟩
    | cons id ids ih =>
      intro longest hids
      obtain ⟨l₁, hl₁, hlen₁, hget₁⟩ := recordOne_eq seq (hids id (by simp))
      obtain ⟨l₂, hl₂, hlen₂, hget₂⟩ := ih l₁ fun id' hid' =>
        hlen₁ ▸ hids id' (List.mem_cons_of_mem id hid')
      refine ⟨l₂, ?_, hlen₂.trans hlen₁, ?_⟩
      · rw [List.foldlM_cons, hl₁]
        exact hl₂
      · intro i
        rw [hget₂, hget₁]
        by_cases hi : i = id
        · subst hi
          by_cases hmem : i ∈ ids
          · simp [hmem, Function.comp_def, longer_longer]
          · simp [hmem]
        · simp [hi]
  exact hloop seq longest hseq

/-- What is kept for operation `i` when `seqs` have been recorded. -/
structure LongestOf (seqs : List (List Nat)) (i : Nat) (kept : Option (List Nat)) : Prop where
  none : kept = none → ∀ τ ∈ seqs, i ∉ τ
  some : ∀ σ, kept = some σ → σ ∈ seqs ∧ i ∈ σ ∧ ∀ τ ∈ seqs, i ∈ τ → τ.length ≤ σ.length

theorem LongestOf.append {seqs : List (List Nat)} {kept : Option (List Nat)}
    (h : LongestOf seqs i kept) (seq : List Nat) :
    LongestOf (seqs ++ [seq]) i (if i ∈ seq then longer seq kept else kept) := by
  by_cases hi : i ∈ seq
  · rw [if_pos hi]
    cases kept with
    | none =>
      refine ⟨by simp [longer], ?_⟩
      intro σ hσ
      obtain rfl : seq = σ := by simpa [longer] using hσ
      refine ⟨by simp, hi, ?_⟩
      intro τ hτ hiτ
      cases List.mem_append.mp hτ with
      | inl hold => exact absurd hiτ (h.none rfl τ hold)
      | inr hnew => rw [List.mem_singleton.mp hnew]
    | some l =>
      obtain ⟨hl, hil, hmax⟩ := h.some l rfl
      by_cases hlt : l.length < seq.length
      · refine ⟨by simp [longer, hlt], ?_⟩
        intro σ hσ
        obtain rfl : seq = σ := by simpa [longer, hlt] using hσ
        refine ⟨by simp, hi, ?_⟩
        intro τ hτ hiτ
        cases List.mem_append.mp hτ with
        | inl hold => exact (hmax τ hold hiτ).trans hlt.le
        | inr hnew => rw [List.mem_singleton.mp hnew]
      · refine ⟨by simp [longer, hlt], ?_⟩
        intro σ hσ
        obtain rfl : l = σ := by simpa [longer, hlt] using hσ
        refine ⟨by simp [hl], hil, ?_⟩
        intro τ hτ hiτ
        cases List.mem_append.mp hτ with
        | inl hold => exact hmax τ hold hiτ
        | inr hnew =>
          rw [List.mem_singleton.mp hnew]
          omega
  · rw [if_neg hi]
    refine ⟨?_, ?_⟩
    · intro hnone τ hτ
      cases List.mem_append.mp hτ with
      | inl hold => exact h.none hnone τ hold
      | inr hnew => exact List.mem_singleton.mp hnew ▸ hi
    · intro σ hσ
      obtain ⟨hmem, hiσ, hmax⟩ := h.some σ hσ
      refine ⟨by simp [hmem], hiσ, ?_⟩
      intro τ hτ hiτ
      cases List.mem_append.mp hτ with
      | inl hold => exact hmax τ hold hiτ
      | inr hnew => exact absurd (List.mem_singleton.mp hnew ▸ hiτ) hi

/-- What the record of some sequences is. -/
structure Records (n : Nat) (seqs : List (List Nat)) (longest : Longest) : Prop where
  length : longest.length = n
  longestOf : ∀ i kept, longest[i]? = some kept → LongestOf seqs i kept

theorem records_nil (n : Nat) : Records n [] (List.replicate n none) := by
  refine ⟨List.length_replicate, ?_⟩
  intro i kept hkept
  rw [List.getElem?_replicate] at hkept
  split at hkept
  · cases hkept
    exact ⟨by simp, by simp⟩
  · cases hkept

theorem Records.append {n : Nat} {seqs : List (List Nat)} {longest : Longest} {seq : List Nat}
    (h : Records n seqs longest) (hseq : ∀ id ∈ seq, id < n) :
    ∃ longest', record longest seq = some longest' ∧ Records n (seqs ++ [seq]) longest' := by
  obtain ⟨longest', hrecord, hlen, hget⟩ := record_eq (h.length.symm ▸ hseq)
  refine ⟨longest', hrecord, hlen.trans h.length, ?_⟩
  intro i kept hi
  rw [hget] at hi
  by_cases hmem : i ∈ seq
  · rw [if_pos hmem] at hi
    obtain ⟨old, hold, rfl⟩ := Option.map_eq_some_iff.mp hi
    simpa [hmem] using (h.longestOf i old hold).append seq
  · rw [if_neg hmem] at hi
    simpa [hmem] using (h.longestOf i kept hi).append seq

/-! ## The calls that have been lifted -/

/-- The calls are those of the sequence. Each call knows the state before it, and `unlift`
and `clear` bring back the links and the bits before it; the search goes on after the entry of the
call. -/
inductive Stacked (h : Pairing history ops) (model : Model I O S) :
    Links Nat → Bitset → List (CallsEntry S) → List Nat × S → List ((List Nat × S) × List Nat) → Prop
  | bottom {L : Links Nat} {b : Bitset}
      (hlinked : L.Linked history.length (remaining history []))
      (hbits : b.Represents ops.length []) : Stacked h model L b [] ([], model.init) []
  | push {L L' : Links Nat} {b b' : Bitset} {calls : List (CallsEntry S)} {σ : List Nat} {s s' : S}
      {below : List ((List Nat × S) × List Nat)} {i : Nat} {before after : List Nat}
      (hstacked : Stacked h model L b calls (σ, s) below) (hi : i < ops.length)
      (hrem : remaining history σ = before ++ h.callAt i :: after)
      (hbefore : ∀ p ∈ before, isCallAt history p = true)
      (hlinked : L'.Linked history.length (remaining history (σ ++ [i])))
      (hunlift : unlift (makeLinkedEntries history).nodes L' (h.callAt i) = some L)
      (hbits : b'.Represents ops.length (σ ++ [i])) (hclear : b'.clear i = some b) :
      Stacked h model L' b' (calls ++ [⟨h.callAt i, s⟩]) (σ ++ [i], s')
        (((σ, s), candidatesFrom history after) :: below)

namespace Stacked

variable {h : Pairing history ops} {L : Links Nat} {b : Bitset} {calls : List (CallsEntry S)}
variable {k : List Nat × S} {below : List ((List Nat × S) × List Nat)}

theorem linked (hs : Stacked h model L b calls k below) :
    L.Linked history.length (remaining history k.1) := by
  cases hs with
  | bottom hlinked _ => exact hlinked
  | push _ _ _ _ hlinked _ _ _ => exact hlinked

theorem represents (hs : Stacked h model L b calls k below) : b.Represents ops.length k.1 := by
  cases hs with
  | bottom _ hbits => exact hbits
  | push _ _ _ _ _ _ hbits _ => exact hbits

theorem seqOf_eq (hs : Stacked h model L b calls k below) :
    seqOf (makeLinkedEntries history).nodes calls = some k.1 := by
  induction hs with
  | bottom => rfl
  | push _ hi _ _ _ _ _ _ ih =>
    have hnode := h.node_call (List.getElem?_eq_getElem hi)
    rw [seqOf] at ih ⊢
    rw [List.mapM_append, ih]
    simp [hnode]

theorem lt_length (hs : Stacked h model L b calls k below) : ∀ j ∈ k.1, j < ops.length := by
  induction hs with
  | bottom => simp
  | push _ hi _ _ _ _ _ _ ih =>
    intro j hj
    cases List.mem_append.mp hj with
    | inl hold => exact ih j hold
    | inr hnew => rwa [List.mem_singleton.mp hnew]

theorem calls_eq_nil (hs : Stacked h model L b calls k below) (hbelow : below = []) : calls = [] := by
  cases hs with
  | bottom => rfl
  | push => cases hbelow

end Stacked

/-! ## The entry that is looked at -/

/-- The entries before `entry` are calls, and the candidates from there on are untried. -/
def ScansAt (history : List (Entry I O)) (σ : List Nat) (entry : Option Nat) (untried : List Nat) : Prop :=
  ∃ before after, remaining history σ = before ++ after ∧
    (∀ p ∈ before, isCallAt history p = true) ∧ entry = after.head? ∧
    untried = candidatesFrom history after

theorem scansAt_first {L : Links Nat} (hL : L.Linked history.length (remaining history σ)) :
    ScansAt history σ (L.next history.length) (candidatesFrom history (remaining history σ)) :=
  ⟨[], _, rfl, by simp, hL.next_eq, rfl⟩

/-- A candidate is left: the entry is its call. -/
theorem ScansAt.call (h : Pairing history ops) {entry : Option Nat} {untried : List Nat}
    (hs : ScansAt history σ entry (i :: untried)) :
    i < ops.length ∧ i ∉ σ ∧ entry = some (h.callAt i) ∧
      ∃ before after, remaining history σ = before ++ h.callAt i :: after ∧
        (∀ p ∈ before, isCallAt history p = true) ∧ untried = candidatesFrom history after := by
  obtain ⟨before, after, hrem, hbefore, hentry, huntried⟩ := hs
  cases after with
  | nil => cases huntried
  | cons p after =>
    rw [candidatesFrom] at huntried
    cases hcall : isCallAt history p with
    | false => simp [hcall] at huntried
    | true =>
      rw [List.takeWhile_cons_of_pos hcall, List.map_cons, List.cons.injEq] at huntried
      obtain ⟨rfl, huntried⟩ := huntried
      have hmem : p ∈ remaining history σ := by simp [hrem]
      obtain ⟨hlt, hσ⟩ := mem_remaining.mp hmem
      have hp := h.eq_callAt hlt hcall
      refine ⟨h.opAt_lt hlt, hσ, ?_, before, after, ?_, hbefore, huntried⟩
      · rw [← hp]
        exact hentry
      · rw [← hp]
        exact hrem

/-- None is left: the entry is a return. -/
theorem ScansAt.ret (h : Pairing history ops) {entry : Option Nat} (hs : ScansAt history σ entry [])
    (hrem : remaining history σ ≠ []) : ∃ i < ops.length, entry = some (h.retAt i) := by
  obtain ⟨before, after, heq, hbefore, hentry, huntried⟩ := hs
  cases after with
  | nil =>
    -- there cannot be calls only
    rw [List.append_nil] at heq
    obtain ⟨p, hp⟩ := List.exists_mem_of_ne_nil _ hrem
    obtain ⟨hlt, hσ⟩ := mem_remaining.mp hp
    have hop := h.opAt_lt hlt
    have hcall := hbefore _ (heq ▸ h.retAt_mem_remaining hop hσ)
    rw [(h.retAt_spec hop).2.2] at hcall
    cases hcall
  | cons p after =>
    have hmem : p ∈ remaining history σ := by simp [heq]
    have hlt := (mem_remaining.mp hmem).1
    cases hcall : isCallAt history p with
    | true =>
      rw [candidatesFrom, List.takeWhile_cons_of_pos hcall, List.map_cons] at huntried
      cases huntried
    | false => exact ⟨opAt history p, h.opAt_lt hlt, h.eq_retAt hlt hcall ▸ hentry⟩

theorem scansAt_next (h : Pairing history ops) {L : Links Nat} {before after : List Nat}
    (hL : L.Linked history.length (remaining history σ)) (hi : i < ops.length)
    (hrem : remaining history σ = before ++ h.callAt i :: after)
    (hbefore : ∀ p ∈ before, isCallAt history p = true) :
    ScansAt history σ (L.next (h.callAt i)) (candidatesFrom history after) := by
  refine ⟨before ++ [h.callAt i], after, by simpa using hrem, ?_, ?_, rfl⟩
  · intro p hp
    cases List.mem_append.mp hp with
    | inl hold => exact hbefore p hold
    | inr hnew => exact List.mem_singleton.mp hnew ▸ (h.callAt_spec hi).2.2
  · rw [hrem] at hL
    exact hL.right.next_eq

/-- The way back from the last call. -/
theorem Stacked.pop {h : Pairing history ops} {L : Links Nat} {b : Bitset}
    {calls : List (CallsEntry S)} {k k' : List Nat × S} {untried : List Nat}
    {below : List ((List Nat × S) × List Nat)}
    (hs : Stacked h model L b calls k ((k', untried) :: below)) :
    ∃ i calls' L' b', i < ops.length ∧ calls = calls' ++ [⟨h.callAt i, k'.2⟩] ∧
      unlift (makeLinkedEntries history).nodes L (h.callAt i) = some L' ∧ b.clear i = some b' ∧
      Stacked h model L' b' calls' k' below ∧
      ScansAt history k'.1 (L'.next (h.callAt i)) untried := by
  cases hs with
  | push hstacked hi hrem hbefore _ hunlift _ hclear =>
    exact ⟨_, _, _, _, hi, rfl, hunlift, hclear, hstacked,
      scansAt_next h hstacked.linked hi hrem hbefore⟩

/-! ## What a turn does -/

section Turn

variable {nodes : List (Node I O)} {head entry : Nat} {computePartial : Bool} {c : Checking S}
variable {node matching : Node I O} {x : I × O}

theorem turn_call {m : Nat} (hnext : c.links.next head ≠ none) (hentry : c.entry = some entry)
    (hnode : nodes[entry]? = some node) (hm : node.matching = some m)
    (hmatching : nodes[m]? = some matching) :
    turn model nodes head computePartial false c =
      (tryCall model nodes head c entry node matching).map Sum.inl := by
  obtain ⟨q, hq⟩ := Option.ne_none_iff_exists'.mp hnext
  simp [turn, hq, hentry, hnode, hm, hmatching, Option.map_eq_bind]

theorem turn_ret {callsTop : CallsEntry S} (hnext : c.links.next head ≠ none)
    (hentry : c.entry = some entry) (hnode : nodes[entry]? = some node) (hm : node.matching = none)
    (hcalls : c.calls.getLast? = some callsTop) :
    turn model nodes head computePartial false c =
      (takeBack nodes computePartial c callsTop).map Sum.inl := by
  obtain ⟨q, hq⟩ := Option.ne_none_iff_exists'.mp hnext
  simp [turn, hq, hentry, hnode, hm, hcalls, Option.map_eq_bind]

theorem after_eq_some : model.after s x = some s' ↔ model.step s x.1 x.2 = (true, s') := by
  rw [Model.after]
  obtain ⟨ok, s₁⟩ := model.step s x.1 x.2
  cases ok with
  | false => simp
  | true => simp

theorem after_eq_none : model.after s x = none ↔ (model.step s x.1 x.2).1 = false := by
  rw [Model.after]
  obtain ⟨ok, s₁⟩ := model.step s x.1 x.2
  cases ok with
  | false => simp
  | true => simp

variable {m m' : Option Nat}

theorem tryCall_rejected (hafter : model.after c.state x = none) :
    tryCall model nodes head c entry ⟨.inl x.1, m, i⟩ ⟨.inr x.2, m', i⟩ =
      some { c with entry := c.links.next entry } := by
  simp [tryCall, after_eq_none.mp hafter]

theorem tryCall_known {b : Bitset} (hafter : model.after c.state x = some s')
    (hset : c.linearized.set i = some b) (hknown : cacheContains model c.cache ⟨b, s'⟩ = true) :
    tryCall model nodes head c entry ⟨.inl x.1, m, i⟩ ⟨.inr x.2, m', i⟩ =
      some { c with entry := c.links.next entry } := by
  simp [tryCall, after_eq_some.mp hafter, hset, hknown]

theorem tryCall_entered {b : Bitset} {L : Links Nat} (hafter : model.after c.state x = some s')
    (hset : c.linearized.set i = some b) (hnew : cacheContains model c.cache ⟨b, s'⟩ = false)
    (hlift : lift nodes c.links entry = some L) :
    tryCall model nodes head c entry ⟨.inl x.1, m, i⟩ ⟨.inr x.2, m', i⟩ =
      some { links := L
             entry := L.next head
             state := s'
             linearized := b
             cache := c.cache.add ⟨b, s'⟩
             calls := c.calls ++ [⟨entry, c.state⟩]
             longest := c.longest } := by
  simp [tryCall, after_eq_some.mp hafter, hset, hnew, hlift]

omit [DecidableEq S] in
theorem takeBack_eq {callsTop : CallsEntry S} {seq : List Nat} {longest : Longest} {b : Bitset}
    {L : Links Nat} (hseq : seqOf nodes c.calls = some seq)
    (hlongest : (if computePartial then record c.longest seq else some c.longest) = some longest)
    (hnode : nodes[callsTop.entry]? = some node) (hclear : c.linearized.clear node.id = some b)
    (hunlift : unlift nodes c.links callsTop.entry = some L) :
    takeBack nodes computePartial c callsTop =
      some { links := L
             entry := L.next callsTop.entry
             state := callsTop.state
             linearized := b
             cache := c.cache
             calls := c.calls.dropLast
             longest := longest } := by
  cases computePartial with
  | false =>
    obtain rfl : c.longest = longest := by simpa using hlongest
    simp [takeBack, hnode, hclear, hunlift]
  | true =>
    rw [if_pos rfl] at hlongest
    simp [takeBack, hseq, hlongest, hnode, hclear, hunlift]

end Turn

/-- The variables of the loop, and the state of the search they stand for. -/
structure Fits (h : Pairing history ops) (model : Model I O S) (computePartial : Bool)
    (c : Checking S) (a : Search.State (List Nat × S) Nat) : Prop where
  stacked : Stacked h model c.links c.linearized c.calls a.config a.below
  state : c.state = a.config.2
  scansAt : ScansAt history a.config.1 c.entry a.untried
  cache : CacheFits model ops.length c.cache a.memo
  longest : Records ops.length (if computePartial then a.left.map Prod.fst else []) c.longest

namespace Fits

variable {h : Pairing history ops} {computePartial : Bool} {c : Checking S}
variable {a a' : Search.State (List Nat × S) Nat}

theorem next_head (hf : Fits h model computePartial c a) :
    c.links.next history.length = (remaining history a.config.1).head? :=
  hf.stacked.linked.next_eq

theorem remaining_ne_nil (hundone : (search model history ops).done a.config = false) :
    remaining history a.config.1 ≠ [] := by
  intro hnil
  have hdone : (search model history ops).done a.config = (remaining history a.config.1).isEmpty := rfl
  rw [hundone, hnil] at hdone
  cases hdone

theorem next_head_ne (hf : Fits h model computePartial c a)
    (hundone : (search model history ops).done a.config = false) :
    c.links.next history.length ≠ none := by
  rw [hf.next_head, ne_eq, List.head?_eq_none_iff]
  exact remaining_ne_nil hundone

/-- The candidate is passed over. -/
theorem skip (hf : Fits h model computePartial c a) {untried : List Nat}
    (hs : a.untried = i :: untried) :
    Fits h model computePartial { c with entry := c.links.next (h.callAt i) }
      { a with untried := untried } := by
  obtain ⟨hi, -, -, before, after, hrem, hbefore, rfl⟩ := (hs ▸ hf.scansAt).call h
  exact ⟨hf.stacked, hf.state, scansAt_next h hf.stacked.linked hi hrem hbefore, hf.cache, hf.longest⟩

theorem tryCall_eq (hf : Fits h model computePartial c a) {untried : List Nat}
    (hs : a.untried = i :: untried) (hundone : (search model history ops).done a.config = false) :
    ∃ x, ops[i]? = some x ∧
      turn model (makeLinkedEntries history).nodes history.length computePartial false c =
        (tryCall model (makeLinkedEntries history).nodes history.length c (h.callAt i)
          ⟨.inl x.1, some (h.retAt i), i⟩ ⟨.inr x.2, none, i⟩).map Sum.inl := by
  obtain ⟨hi, -, hentry, -⟩ := (hs ▸ hf.scansAt).call h
  have hx := List.getElem?_eq_getElem hi
  exact ⟨_, hx, turn_call (hf.next_head_ne hundone) hentry (h.node_call hx) rfl (h.node_ret hx)⟩

/-- The candidate is entered: its entries are lifted. -/
theorem enter (hf : Fits h model computePartial c a) {untried : List Nat} {b : Bitset}
    (hs : a.untried = i :: untried) (hset : c.linearized.set i = some b)
    (hbits : b.Represents ops.length (a.config.1 ++ [i])) :
    ∃ L, lift (makeLinkedEntries history).nodes c.links (h.callAt i) = some L ∧
      Fits h model computePartial
        { links := L
          entry := L.next history.length
          state := s'
          linearized := b
          cache := c.cache.add ⟨b, s'⟩
          calls := c.calls ++ [⟨h.callAt i, c.state⟩]
          longest := c.longest }
        ⟨(a.config.1 ++ [i], s'), (search model history ops).candidates (a.config.1 ++ [i], s'),
          (a.config, untried) :: a.below, a.memo ++ [(a.config.1 ++ [i], s')], a.left⟩ := by
  obtain ⟨hi, hσ, -, before, after, hrem, hbefore, rfl⟩ := (hs ▸ hf.scansAt).call h
  obtain ⟨L, hlift, hlinked, hunlift⟩ := h.lift_unlift hi hσ hf.stacked.linked
  have hclear := hf.stacked.represents.clear_set hset hσ
  refine ⟨L, hlift, ?_, rfl, scansAt_first hlinked, hf.cache.add hbits, hf.longest⟩
  rw [hf.state]
  exact .push hf.stacked hi hrem hbefore hlinked hunlift hbits hclear

/-- What is kept when the search goes back. -/
theorem record_back (hf : Fits h model computePartial c a) :
    ∃ longest,
      (if computePartial then record c.longest a.config.1 else some c.longest) = some longest ∧
      Records ops.length (if computePartial then (a.left ++ [a.config]).map Prod.fst else [])
        longest := by
  have hold := hf.longest
  cases computePartial with
  | false => exact ⟨c.longest, rfl, hold⟩
  | true =>
    obtain ⟨longest, hrecord, hnew⟩ := hold.append hf.stacked.lt_length
    exact ⟨longest, hrecord, by simpa using hnew⟩

/-- The last call is taken back. -/
theorem back (hf : Fits h model computePartial c a) {k : List Nat × S} {untried : List Nat}
    {below : List ((List Nat × S) × List Nat)} (hbelow : a.below = (k, untried) :: below) :
    ∃ callsTop c', c.calls.getLast? = some callsTop ∧
      takeBack (makeLinkedEntries history).nodes computePartial c callsTop = some c' ∧
      Fits h model computePartial c' ⟨k, untried, below, a.memo, a.left ++ [a.config]⟩ := by
  obtain ⟨longest, hlongest, hrecords⟩ := hf.record_back
  obtain ⟨i, calls, L, b, hi, hcalls, hunlift, hclear, hstacked, hscan⟩ := (hbelow ▸ hf.stacked).pop
  have hnode := h.node_call (List.getElem?_eq_getElem hi)
  refine ⟨⟨h.callAt i, k.2⟩, _, by simp [hcalls],
    takeBack_eq hf.stacked.seqOf_eq hlongest hnode hclear hunlift, ?_⟩
  exact ⟨by simpa [hcalls] using hstacked, rfl, hscan, hf.cache, hrecords⟩

/-- A candidate that the model allows: its bit can be set, and the cache tells whether the
search has been there. -/
theorem next_eq (hf : Fits h model computePartial c a) {untried : List Nat} {x : I × O}
    {k : List Nat × S} (hs : a.untried = i :: untried) (hx : ops[i]? = some x)
    (hnext : (search model history ops).next a.config i = some k) :
    ∃ s' b, k = (a.config.1 ++ [i], s') ∧ model.after c.state x = some s' ∧
      c.linearized.set i = some b ∧ b.Represents ops.length (a.config.1 ++ [i]) ∧
      (cacheContains model c.cache ⟨b, s'⟩ = true ↔
        ∃ m ∈ a.memo, (search model history ops).same k m = true) := by
  obtain ⟨hi, -⟩ := (hs ▸ hf.scansAt).call h
  obtain ⟨s', hs', rfl⟩ := Option.map_eq_some_iff.mp hnext
  rw [Model.perform, hx, Option.bind_some, ← hf.state] at hs'
  obtain ⟨b, hset, hbits⟩ := hf.stacked.represents.set hi
  refine ⟨s', b, rfl, hs', hset, hbits, ?_⟩
  rw [hf.cache _ _ _ hbits]
  exact exists_congr fun m => and_congr_right fun _ => (same_iff (k := (a.config.1 ++ [i], s'))).symm

/-- A turn in which the search goes on. -/
theorem turn_inl (hf : Fits h model computePartial c a)
    (hstep : (search model history ops).step a = .inl a') :
    ∃ c', turn model (makeLinkedEntries history).nodes history.length computePartial false c =
        some (.inl c') ∧ Fits h model computePartial c' a' := by
  obtain ⟨hundone, hstep⟩ := Search.step_inl hstep
  cases hstep with
  | @rejected i untried hs hnext =>
    obtain ⟨x, hx, hturn⟩ := hf.tryCall_eq hs hundone
    have hafter : model.after c.state x = none := by
      rw [hf.state]
      simpa [search, Model.perform, hx] using hnext
    rw [hturn, tryCall_rejected hafter]
    exact ⟨_, rfl, hf.skip hs⟩
  | @known i untried k m hs hnext hm hsame =>
    obtain ⟨x, hx, hturn⟩ := hf.tryCall_eq hs hundone
    obtain ⟨s', b, -, hafter, hset, -, hcache⟩ := hf.next_eq hs hx hnext
    rw [hturn, tryCall_known hafter hset (hcache.mpr ⟨m, hm, hsame⟩)]
    exact ⟨_, rfl, hf.skip hs⟩
  | @entered i untried k hs hnext hnew =>
    obtain ⟨x, hx, hturn⟩ := hf.tryCall_eq hs hundone
    obtain ⟨s', b, rfl, hafter, hset, hbits, hcache⟩ := hf.next_eq hs hx hnext
    have hmiss : cacheContains model c.cache ⟨b, s'⟩ = false := by
      rw [Bool.eq_false_iff, ne_eq, hcache]
      rintro ⟨m, hm, hsame⟩
      rw [hnew m hm] at hsame
      cases hsame
    obtain ⟨L, hlift, hfits⟩ := hf.enter hs hset hbits
    rw [hturn, tryCall_entered hafter hset hmiss hlift]
    exact ⟨_, rfl, hfits⟩
  | @back k untried below hs hbelow =>
    obtain ⟨callsTop, c', hlast, htake, hfits⟩ := hf.back hbelow
    obtain ⟨i, hi, hentry⟩ := (hs ▸ hf.scansAt).ret h (remaining_ne_nil hundone)
    have hnode := h.node_ret (List.getElem?_eq_getElem hi)
    rw [turn_ret (hf.next_head_ne hundone) hentry hnode rfl hlast, htake]
    exact ⟨c', rfl, hfits⟩

/-- A turn that finds nothing left in the list. -/
theorem turn_done (hf : Fits h model computePartial c a) (kill : Bool)
    (hdone : (search model history ops).done a.config = true) :
    turn model (makeLinkedEntries history).nodes history.length computePartial kill c =
      some (.inr (true, List.replicate ops.length (some a.config.1))) := by
  have hnil : remaining history a.config.1 = [] := List.isEmpty_iff.mp hdone
  have hnext := hf.next_head
  rw [hnil] at hnext
  simp [turn, hnext, hf.stacked.seqOf_eq, List.map_const', hf.longest.length]

/-- A turn that finds the flag set. -/
theorem turn_killed (hf : Fits h model computePartial c a)
    (hundone : (search model history ops).done a.config = false) :
    turn model (makeLinkedEntries history).nodes history.length computePartial true c =
      some (.inr (false, c.longest)) := by
  obtain ⟨q, hq⟩ := Option.ne_none_iff_exists'.mp (hf.next_head_ne hundone)
  simp [turn, hq]

/-- A turn that gives up. -/
theorem turn_exhausted (hf : Fits h model computePartial c a)
    (hstep : (search model history ops).step a = .inr false) :
    turn model (makeLinkedEntries history).nodes history.length computePartial false c =
      some (.inr (false, c.longest)) := by
  obtain ⟨hundone, hlast⟩ := Search.step_inr hstep
  obtain ⟨huntried, hbelow⟩ := hlast rfl
  obtain ⟨q, hq⟩ := Option.ne_none_iff_exists'.mp (hf.next_head_ne hundone.symm)
  obtain ⟨i, hi, hentry⟩ := (huntried ▸ hf.scansAt).ret h (remaining_ne_nil hundone.symm)
  have hnode := h.node_ret (List.getElem?_eq_getElem hi)
  simp [turn, hq, hentry, hnode, hf.stacked.calls_eq_nil hbelow]

/-- All that a turn can do. -/
theorem turn_cases (hf : Fits h model computePartial c a) (kill : Bool) :
    (∃ c' a', turn model (makeLinkedEntries history).nodes history.length computePartial kill c =
        some (.inl c') ∧ kill = false ∧ (search model history ops).step a = .inl a' ∧
        Fits h model computePartial c' a') ∨
    (turn model (makeLinkedEntries history).nodes history.length computePartial kill c =
        some (.inr (true, List.replicate ops.length (some a.config.1))) ∧
      (search model history ops).step a = .inr true) ∨
    (turn model (makeLinkedEntries history).nodes history.length computePartial kill c =
        some (.inr (false, c.longest)) ∧
      (kill = true ∨ (search model history ops).step a = .inr false)) := by
  cases hdone : (search model history ops).done a.config with
  | true => exact .inr (.inl ⟨hf.turn_done kill hdone, by simp [Search.step, hdone]⟩)
  | false =>
    cases kill with
    | true => exact .inr (.inr ⟨hf.turn_killed hdone, .inl rfl⟩)
    | false =>
      cases hstep : (search model history ops).step a with
      | inl a' =>
        obtain ⟨c', hturn, hf'⟩ := hf.turn_inl hstep
        exact .inl ⟨c', a', hturn, rfl, rfl, hf'⟩
      | inr verdict =>
        obtain ⟨rfl, -⟩ := Search.step_inr hstep
        rw [hdone] at hstep ⊢
        exact .inr (.inr ⟨hf.turn_exhausted hstep, .inr rfl⟩)

end Fits

/-! ## What the loop returns -/

/-- How the loop ends, by how the search does: with its verdict, or because the flag was
set in one of the turns from `t` on. -/
inductive Ends (h : Pairing history ops) (model : Model I O S) (computePartial : Bool)
    (kill : Nat → Bool) (fuel t : Nat) (a : Search.State (List Nat × S) Nat) :
    Outcome (Bool × Longest) → Prop
  | running (hrun : (search model history ops).run fuel a = none) :
      Ends h model computePartial kill fuel t a .running
  | found {a' : Search.State (List Nat × S) Nat}
      (hrun : (search model history ops).run fuel a = some (a', true)) :
      Ends h model computePartial kill fuel t a
        (.returned (true, List.replicate ops.length (some a'.config.1)))
  | exhausted {a' : Search.State (List Nat × S) Nat} {longest : Longest}
      (hrun : (search model history ops).run fuel a = some (a', false))
      (hlongest : Records ops.length (if computePartial then a'.left.map Prod.fst else []) longest) :
      Ends h model computePartial kill fuel t a (.returned (false, longest))
  | killed {longest : Longest} {t' : Nat} (ht : t ≤ t') (hlt : t' < t + fuel) (hkill : kill t' = true) :
      Ends h model computePartial kill fuel t a (.returned (false, longest))

theorem Ends.of_next {h : Pairing history ops} {computePartial : Bool} {kill : Nat → Bool}
    {fuel t : Nat} {a a' : Search.State (List Nat × S) Nat} {outcome : Outcome (Bool × Longest)}
    (hrun : (search model history ops).run (fuel + 1) a = (search model history ops).run fuel a')
    (hends : Ends h model computePartial kill fuel (t + 1) a' outcome) :
    Ends h model computePartial kill (fuel + 1) t a outcome := by
  cases hends with
  | running hrun' => exact .running (hrun.trans hrun')
  | found hrun' => exact .found (hrun.trans hrun')
  | exhausted hrun' hlongest => exact .exhausted (hrun.trans hrun') hlongest
  | killed ht hlt hkill => exact .killed (by omega) (by omega) hkill

theorem Fits.ends {h : Pairing history ops} {computePartial : Bool} {c : Checking S}
    {a : Search.State (List Nat × S) Nat} (hf : Fits h model computePartial c a)
    (kill : Nat → Bool) (fuel t : Nat) :
    Ends h model computePartial kill fuel t a
      (loop model (makeLinkedEntries history).nodes history.length computePartial kill fuel t c) := by
  induction fuel generalizing t c a with
  | zero => exact .running rfl
  | succ fuel ih =>
    rcases hf.turn_cases (kill t) with ⟨c', a', hturn, hkill, hstep, hf'⟩ | ⟨hturn, hstep⟩ | ⟨hturn, hwhy⟩
    · have hrun : (search model history ops).run (fuel + 1) a =
          (search model history ops).run fuel a' := by simp [Search.run, hstep]
      simp only [loop, hturn]
      exact .of_next hrun (ih hf' (t + 1))
    · have hrun : (search model history ops).run (fuel + 1) a = some (a, true) := by
        simp [Search.run, hstep]
      simp only [loop, hturn]
      exact .found hrun
    · simp only [loop, hturn]
      rcases hwhy with hkill | hstep
      · exact .killed le_rfl (by omega) hkill
      · exact .exhausted (by simp [Search.run, hstep]) hf.longest

theorem fits_start (h : Pairing history ops) (computePartial : Bool) :
    Fits h model computePartial (startChecking model history) (search model history ops).start := by
  have hall : remaining history [] = List.range history.length := by simp [remaining]
  have hn : ((makeLinkedEntries history).links.follow history.length
      (makeLinkedEntries history).root).length / 2 = ops.length := by
    rw [length_makeLinkedEntries, h.length_eq]
    omega
  have hroot : (makeLinkedEntries history).root = (List.range history.length).head? := by
    rw [makeLinkedEntries, root_makeLinkedEntriesFrom]
    cases history with
    | nil => rfl
    | cons e entries => simp [List.range_succ_eq_map]
  refine ⟨.bottom ?_ ?_, rfl, ⟨[], _, rfl, by simp, ?_, rfl⟩, cacheFits_empty _, ?_⟩
  · rw [hall]
    exact linked_makeLinkedEntries history
  · simp only [startChecking, hn]
    exact Bitset.represents_new _
  · rw [Search.start]
    show (makeLinkedEntries history).root = (remaining history []).head?
    rw [hroot, hall]
  · simp only [startChecking, hn, Search.start, List.map_nil, ite_self]
    exact records_nil _

theorem length_candidatesFrom_le (σ : List Nat) :
    (candidatesFrom history (remaining history σ)).length ≤ history.length := by
  rw [candidatesFrom, List.length_map]
  calc ((remaining history σ).takeWhile (isCallAt history)).length
      ≤ (remaining history σ).length := (List.takeWhile_sublist _).length_le
    _ ≤ (List.range history.length).length := List.filter_sublist.length_le
    _ = history.length := List.length_range

/-- A sequence has at most all operations. -/
theorem length_le_of_reachable (h : Pairing history ops) {k : List Nat × S}
    (hk : (search model history ops).Reachable k) : k.1.length ≤ ops.length := by
  have hbegins := (reachable_iff h (σ := k.1) (s := k.2)).mp hk
  simpa using (hbegins.nodup.subperm hbegins.subset).length_le

/-- Every candidate that is taken makes the sequence longer. -/
theorem length_lt_of_next (h : Pairing history ops) {k k' : List Nat × S}
    (hk : (search model history ops).Reachable k) (hi : i ∈ (search model history ops).candidates k)
    (hnext : (search model history ops).next k i = some k') :
    ops.length - k'.1.length < ops.length - k.1.length := by
  have hle := length_le_of_reachable h (hk.next hi hnext)
  obtain ⟨s', -, rfl⟩ := Option.map_eq_some_iff.mp hnext
  simp only [List.length_append, List.length_cons, List.length_nil] at hle ⊢
  omega

theorem potential_search_lt (h : Pairing history ops) {a a' : Search.State (List Nat × S) Nat}
    (hex : (search model history ops).Explored a)
    (hstep : (search model history ops).step a = .inl a') :
    Search.potential history.length (fun k => ops.length - k.1.length)
        ((a'.config, a'.untried) :: a'.below) <
      Search.potential history.length (fun k => ops.length - k.1.length)
        ((a.config, a.untried) :: a.below) :=
  hex.potential_lt (fun k => length_candidatesFrom_le k.1)
    (fun _ _ _ hk hi hnext => length_lt_of_next h hk hi hnext) hstep

/-- The search ends. -/
theorem run_search_isSome (model : Model I O S) (h : Pairing history ops) {fuel : Nat}
    (hfuel : history.length * (history.length + 2) ^ ops.length + 1 < fuel) :
    ((search model history ops).run fuel (search model history ops).start).isSome = true := by
  refine Search.run_isSome history.length (fun k => ops.length - k.1.length)
    (fun k => length_candidatesFrom_le k.1)
    (fun _ _ _ hk hi hnext => length_lt_of_next h hk hi hnext) (Search.explored_start _) ?_
  refine lt_of_le_of_lt ?_ hfuel
  simp only [Search.potential, Search.start, search, List.map_cons, List.map_nil, List.sum_cons,
    List.sum_nil, List.length_nil, Nat.sub_zero, Nat.add_zero]
  exact Nat.add_le_add_right (Nat.mul_le_mul_right _ (length_candidatesFrom_le [])) 1

theorem checkSingle_ends (model : Model I O S) (h : Pairing history ops) (computePartial : Bool)
    (kill : Nat → Bool) (fuel : Nat) :
    Ends h model computePartial kill fuel 0 (search model history ops).start
      (checkSingle model history computePartial kill fuel) :=
  (fits_start h computePartial).ends kill fuel 0

/-- Left alone, the loop returns with the verdict of the search. -/
theorem checkSingle_returns (model : Model I O S) (h : Pairing history ops) (computePartial : Bool)
    {fuel : Nat} (hfuel : history.length * (history.length + 2) ^ ops.length + 1 < fuel) :
    ∃ a ok longest,
      checkSingle model history computePartial (fun _ => false) fuel = .returned (ok, longest) ∧
      (search model history ops).run fuel (search model history ops).start = some (a, ok) ∧
      (ok = true → longest = List.replicate ops.length (some a.config.1)) ∧
      (ok = false → Records ops.length (if computePartial then a.left.map Prod.fst else []) longest) := by
  have hends := checkSingle_ends model h computePartial (fun _ => false) fuel
  have hsome := run_search_isSome model h hfuel
  generalize checkSingle model history computePartial (fun _ => false) fuel = outcome at hends ⊢
  cases hends with
  | running hrun =>
    rw [hrun] at hsome
    cases hsome
  | found hrun => exact ⟨_, _, _, rfl, hrun, fun _ => rfl, by simp⟩
  | exhausted hrun hlongest => exact ⟨_, _, _, rfl, hrun, by simp, fun _ => hlongest⟩
  | killed _ _ hkill => cases hkill

/-- The operations of `σ` in this order explain the history. -/
def Pairing.Explained (h : Pairing history ops) (model : Model I O S) (σ : List Nat) : Prop :=
  Linearizes (model.perform ops) (fun i j => h.retAt i < h.callAt j) model.init
    (List.range ops.length) σ

/-- The operations of `σ` in this order can be the first ones of such a sequence. -/
def Pairing.Begun (h : Pairing history ops) (model : Model I O S) (σ : List Nat) : Prop :=
  ∃ s, Begins (model.perform ops) (fun i j => h.retAt i < h.callAt j) model.init
    (List.range ops.length) σ s

section Results

variable {h : Pairing history ops} {computePartial : Bool} {kill : Nat → Bool} {fuel : Nat}
variable {longest : Longest} {a : Search.State (List Nat × S) Nat}

theorem Pairing.explained_of_step (h : Pairing history ops)
    (hex : (search model history ops).Explored a)
    (hstep : (search model history ops).step a = .inr true) : h.Explained model a.config.1 := by
  obtain ⟨hdone, -⟩ := Search.step_inr hstep
  have hbegins := (reachable_iff h).mp hex.top.1
  exact hbegins.linearizes List.nodup_range ((done_iff h).mp hdone.symm)

theorem Pairing.not_explained_of_step (h : Pairing history ops) (hequal : model.EqualFits)
    (hex : (search model history ops).Explored a)
    (hstep : (search model history ops).step a = .inr false) : ¬ ∃ σ, h.Explained model σ := by
  intro hσ
  obtain ⟨k, hk, hdone⟩ := (exists_done_iff h).mpr hσ
  rw [(hex.exhausted (agrees_search hequal) hstep hk).1] at hdone
  cases hdone

theorem explained_of_run
    (hrun : (search model history ops).run fuel (search model history ops).start = some (a, true)) :
    h.Explained model a.config.1 := by
  obtain ⟨hex, hstep⟩ := (Search.explored_start _).run hrun
  exact h.explained_of_step hex hstep

theorem not_explained_of_run (hequal : model.EqualFits)
    (hrun : (search model history ops).run fuel (search model history ops).start = some (a, false)) :
    ¬ ∃ σ, h.Explained model σ := by
  obtain ⟨hex, hstep⟩ := (Search.explored_start _).run hrun
  exact h.not_explained_of_step hequal hex hstep

theorem Ends.of_true
    (hends : Ends h model computePartial kill fuel 0 (search model history ops).start
      (.returned (true, longest))) :
    ∃ σ, h.Explained model σ ∧ longest = List.replicate ops.length (some σ) := by
  cases hends with
  | found hrun => exact ⟨_, explained_of_run hrun, rfl⟩

theorem Ends.of_false (hequal : model.EqualFits) (hkill : ∀ t < fuel, kill t = false)
    (hends : Ends h model computePartial kill fuel 0 (search model history ops).start
      (.returned (false, longest))) : ¬ ∃ σ, h.Explained model σ := by
  cases hends with
  | exhausted hrun _ => exact not_explained_of_run hequal hrun
  | @killed _ t' _ hlt hset =>
    rw [hkill t' (by omega)] at hset
    cases hset

/-- Whatever has been left is the beginning of a sequence. -/
theorem begun_of_mem_left (h : Pairing history ops) (hex : (search model history ops).Explored a)
    {σ : List Nat} (hσ : σ ∈ a.left.map Prod.fst) : h.Begun model σ := by
  obtain ⟨k, hk, rfl⟩ := List.mem_map.mp hσ
  exact ⟨k.2, (reachable_iff h).mp (hex.left k hk).1.1⟩

/-- A search that gives up has left a sequence with the same operations. -/
theorem exists_left_of_begun (h : Pairing history ops) (hequal : model.EqualFits)
    (hex : (search model history ops).Explored a)
    (hstep : (search model history ops).step a = .inr false) (hτ : h.Begun model τ) (hi : i ∈ τ) :
    ∃ ρ ∈ a.left.map Prod.fst, i ∈ ρ ∧ ρ.length = τ.length := by
  obtain ⟨s, hτ⟩ := hτ
  obtain ⟨-, m, hm, hcont⟩ := hex.exhausted (agrees_search hequal) hstep ((reachable_iff h).mpr hτ)
  have him : i ∈ m.1 := (hcont.1 i).mp hi
  cases List.mem_append.mp hm with
  | inl hleft =>
    obtain ⟨s', hbegins⟩ := begun_of_mem_left h hex (List.mem_map_of_mem hleft)
    refine ⟨m.1, List.mem_map_of_mem hleft, him, ?_⟩
    exact ((List.perm_ext_iff_of_nodup hτ.nodup hbegins.nodup).mpr hcont.1).length_eq.symm
  | inr hconf =>
    -- in the end it is back at the empty sequence
    obtain ⟨-, hlast⟩ := Search.step_inr hstep
    rw [List.mem_singleton.mp hconf, hex.config_eq_root (hlast rfl).2] at him
    cases him

/-- A sequence that explains the history is the longest beginning for each operation. -/
theorem longest_of_found
    (hrun : (search model history ops).run fuel (search model history ops).start = some (a, true))
    (hi : i < ops.length) :
    h.Begun model a.config.1 ∧ i ∈ a.config.1 ∧
      ∀ τ, h.Begun model τ → i ∈ τ → τ.length ≤ a.config.1.length := by
  obtain ⟨hex, -⟩ := (Search.explored_start _).run hrun
  have hall := (explained_of_run (h := h) hrun).perm
  refine ⟨⟨_, (reachable_iff h).mp hex.top.1⟩, hall.mem_iff.mpr (List.mem_range.mpr hi), ?_⟩
  rintro τ ⟨s, hτ⟩ -
  rw [hall.length_eq, List.length_range]
  exact length_le_of_reachable h ((reachable_iff h).mpr hτ)

/-- The longest of the sequences that a search which gives up has left is the longest
beginning. -/
theorem longest_of_exhausted (hequal : model.EqualFits) {kept : Option (List Nat)}
    (hrun : (search model history ops).run fuel (search model history ops).start = some (a, false))
    (hkeeps : LongestOf (a.left.map Prod.fst) i kept) :
    (kept = none → ¬ ∃ σ, h.Begun model σ ∧ i ∈ σ) ∧
      ∀ σ, kept = some σ → h.Begun model σ ∧ i ∈ σ ∧
        ∀ τ, h.Begun model τ → i ∈ τ → τ.length ≤ σ.length := by
  obtain ⟨hex, hstep⟩ := (Search.explored_start _).run hrun
  refine ⟨?_, ?_⟩
  · rintro hnone ⟨τ, hτ, hi⟩
    obtain ⟨ρ, hρ, hiρ, -⟩ := exists_left_of_begun h hequal hex hstep hτ hi
    exact hkeeps.none hnone ρ hρ hiρ
  · intro σ hσ
    obtain ⟨hmem, hi, hmax⟩ := hkeeps.some σ hσ
    refine ⟨begun_of_mem_left h hex hmem, hi, ?_⟩
    intro τ hτ hiτ
    obtain ⟨ρ, hρ, hiρ, hlen⟩ := exists_left_of_begun h hequal hex hstep hτ hiτ
    exact hlen ▸ hmax ρ hρ hiρ

end Results

/-- A counter that returns its old value. -/
def counter : Model Unit Nat Nat where
  init := 0
  step s _ out := (out = s, s + 1)

/-- Two calls at the counter that overlap, and what they return. -/
def twoCalls (out out' : Nat) : List (Entry Unit Nat) :=
  [⟨.inl (), 0, 0, 0⟩, ⟨.inl (), 1, 1, 1⟩, ⟨.inr out, 0, 2, 0⟩, ⟨.inr out', 1, 3, 1⟩]

def twoCallsPairing (out out' : Nat) : Pairing (twoCalls out out') [((), out), ((), out')] where
  callAt i := i
  retAt i := i + 2
  call_eq i x hx := by
    match i, hx with
    | 0, rfl => rfl
    | 1, rfl => rfl
  ret_eq i x hx := by
    match i, hx with
    | 0, rfl => rfl
    | 1, rfl => rfl
  lt i _ := by omega
  cover p hp := by
    have hlt : p < 4 := hp
    exact ⟨p % 2, Nat.mod_lt p (by decide), by omega⟩
  length_eq := rfl

/-- Left alone, `checkSingle` returns, and it returns true if and only if the operations can be
put in a sequence that the model allows and that keeps the order of those that did not overlap. -/
theorem checkSingle_decides (h : Pairing history ops) (hequal : model.EqualFits) (computePartial : Bool)
    {fuel : Nat} (hfuel : history.length * (history.length + 2) ^ ops.length + 1 < fuel) :
    ∃ ok longest,
      checkSingle model history computePartial (fun _ => false) fuel = .returned (ok, longest) ∧
      (ok = true ↔ ∃ σ, h.Explained model σ) := by
  obtain ⟨a, ok, longest, hret, hrun, -, -⟩ := checkSingle_returns model h computePartial hfuel
  refine ⟨ok, longest, hret, ?_⟩
  cases ok with
  | true => exact ⟨fun _ => ⟨_, explained_of_run hrun⟩, fun _ => rfl⟩
  | false => exact ⟨by simp, fun hσ => absurd hσ (not_explained_of_run hequal hrun)⟩

/-- The second call comes first. -/
theorem checkSingle_decides_twoCalls :
    checkSingle counter (twoCalls 1 0) false (fun _ => false) 200 =
        .returned (true, [some [1, 0], some [1, 0]]) ∧
      ∃ σ, (twoCallsPairing 1 0).Explained counter σ := by
  have heval : checkSingle counter (twoCalls 1 0) false (fun _ => false) 200 =
      .returned (true, [some [1, 0], some [1, 0]]) := by decide +kernel
  obtain ⟨ok, longest, hret, hiff⟩ := checkSingle_decides (twoCallsPairing 1 0)
    (equalFits_shallowEqual rfl : counter.EqualFits) false (by decide : 4 * (4 + 2) ^ 2 + 1 < 200)
  rw [heval] at hret
  cases hret
  exact ⟨heval, hiff.mp rfl⟩

/-- Whenever the flag is set, `checkSingle` does not panic, a sequence that it returns explains the
history, and if it returns false then the flag was set or there is no such sequence. -/
theorem checkSingle_killed (h : Pairing history ops) (hequal : model.EqualFits) (computePartial : Bool)
    (kill : Nat → Bool) (fuel : Nat) :
    checkSingle model history computePartial kill fuel ≠ .panicked ∧
    (∀ longest, checkSingle model history computePartial kill fuel = .returned (true, longest) →
      ∃ σ, h.Explained model σ ∧ longest = List.replicate ops.length (some σ)) ∧
    (∀ longest, checkSingle model history computePartial kill fuel = .returned (false, longest) →
      (∃ t < fuel, kill t = true) ∨ ¬ ∃ σ, h.Explained model σ) := by
  have hends := checkSingle_ends model h computePartial kill fuel
  generalize checkSingle model history computePartial kill fuel = outcome at hends ⊢
  refine ⟨?_, ?_, ?_⟩
  · rintro rfl
    cases hends
  · rintro longest rfl
    exact hends.of_true
  · rintro longest rfl
    by_cases hkill : ∃ t < fuel, kill t = true
    · exact .inl hkill
    · refine .inr (hends.of_false hequal ?_)
      intro t ht
      by_contra hset
      exact hkill ⟨t, ht, by simpa using hset⟩

/-- The flag is set too late: true comes with the sequence, and false says that there is none. -/
theorem checkSingle_killed_twoCalls :
    checkSingle counter (twoCalls 1 0) false (fun t => 20 < t) 20 =
        .returned (true, [some [1, 0], some [1, 0]]) ∧
      (twoCallsPairing 1 0).Explained counter [1, 0] ∧
      checkSingle counter (twoCalls 5 0) false (fun t => 20 < t) 20 = .returned (false, [none, none]) ∧
      ¬ ∃ σ, (twoCallsPairing 5 0).Explained counter σ := by
  have hequal : counter.EqualFits := equalFits_shallowEqual rfl
  have htrue : checkSingle counter (twoCalls 1 0) false (fun t => 20 < t) 20 =
      .returned (true, [some [1, 0], some [1, 0]]) := by decide +kernel
  have hfalse : checkSingle counter (twoCalls 5 0) false (fun t => 20 < t) 20 =
      .returned (false, [none, none]) := by decide +kernel
  obtain ⟨-, hfound, -⟩ := checkSingle_killed (twoCallsPairing 1 0) hequal false (fun t => 20 < t) 20
  obtain ⟨-, -, hnone⟩ := checkSingle_killed (twoCallsPairing 5 0) hequal false (fun t => 20 < t) 20
  obtain ⟨σ, hσ, hreturned⟩ := hfound _ htrue
  cases hreturned
  refine ⟨htrue, hσ, hfalse, (hnone _ hfalse).resolve_left ?_⟩
  rintro ⟨t, ht, hset⟩
  have : 20 < t := of_decide_eq_true hset
  omega

/-- For each operation, `checkSingle` returns the longest beginning of a sequence that has the
operation, or nothing if there is none: it does return, as the flag is never set. -/
theorem checkSingle_longest (h : Pairing history ops) (hequal : model.EqualFits) {fuel : Nat}
    (hfuel : history.length * (history.length + 2) ^ ops.length + 1 < fuel) :
    ∃ ok longest, checkSingle model history true (fun _ => false) fuel = .returned (ok, longest) ∧
      longest.length = ops.length ∧ ∀ i kept, longest[i]? = some kept →
        (kept = none → ¬ ∃ σ, h.Begun model σ ∧ i ∈ σ) ∧
        (∀ σ, kept = some σ → h.Begun model σ ∧ i ∈ σ ∧
          ∀ τ, h.Begun model τ → i ∈ τ → τ.length ≤ σ.length) := by
  obtain ⟨a, ok, longest, hret, hrun, htrue, hfalse⟩ := checkSingle_returns model h true hfuel
  refine ⟨ok, longest, hret, ?_⟩
  cases ok with
  | true =>
    rw [htrue rfl]
    refine ⟨List.length_replicate, ?_⟩
    intro i kept hkept
    obtain ⟨hi, hkept⟩ := List.getElem?_eq_some_iff.mp hkept
    rw [List.getElem_replicate] at hkept
    rw [List.length_replicate] at hi
    subst hkept
    refine ⟨by simp, ?_⟩
    rintro σ hσ
    cases hσ
    exact longest_of_found hrun hi
  | false =>
    have hlongest := hfalse rfl
    rw [if_pos rfl] at hlongest
    refine ⟨hlongest.length, ?_⟩
    intro i kept hkept
    exact longest_of_exhausted hequal hrun (hlongest.longestOf i kept hkept)

/-- The first call can never have returned 5, and the second alone is the longest. -/
theorem checkSingle_longest_twoCalls :
    checkSingle counter (twoCalls 5 0) true (fun _ => false) 200 =
        .returned (false, [none, some [1]]) ∧
      (¬ ∃ σ, (twoCallsPairing 5 0).Begun counter σ ∧ 0 ∈ σ) ∧
      ∀ τ, (twoCallsPairing 5 0).Begun counter τ → 1 ∈ τ → τ.length ≤ 1 := by
  have heval : checkSingle counter (twoCalls 5 0) true (fun _ => false) 200 =
      .returned (false, [none, some [1]]) := by decide +kernel
  obtain ⟨ok, longest, hret, -, hlongest⟩ := checkSingle_longest (twoCallsPairing 5 0)
    (equalFits_shallowEqual rfl : counter.EqualFits) (by decide : 4 * (4 + 2) ^ 2 + 1 < 200)
  rw [heval] at hret
  cases hret
  refine ⟨heval, (hlongest 0 none rfl).1 rfl, ?_⟩
  exact ((hlongest 1 (some [1]) rfl).2 [1] rfl).2.2

end RaftImplementation.Porcupine
