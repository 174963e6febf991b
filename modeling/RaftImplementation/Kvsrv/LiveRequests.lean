import Mathlib.Data.Set.Card
import RaftImplementation.Kvsrv.Clerks

/-!
# The table of answered requests holds live requests only

A clerk returns from an operation after the reply to a confirm. The handler of the
confirm has then deleted the id, and no other handler of that operation is at work that
could enter it again. So an id in `status` always belongs to an operation in progress.
-/

namespace RaftImplementation.Kvsrv

open Library

variable {P : Type} {s s' : System P} {tr tr' : List (ClerkEvent P)}

namespace System

/-- The operation with this id was called, and has returned. -/
def Returned (s : System P) (id : Int) : Prop :=
  id ∈ s.used ∧ ∀ p, (s.clerks p).id? ≠ some id

/-- The clerks with an operation in progress. -/
def busy (s : System P) : Set P := { p | s.clerks p ≠ .idle }

end System

/-- A confirm has been handled: its reply is on the way to the clerk. -/
def Clerk.Confirmed (clerk : Clerk) (id : Int) : Prop :=
  ∃ op reply value, clerk = .waiting op id true reply (.returned value)

/-- Every id in the table is that of an operation in progress, and that of none whose
confirm has been handled. -/
structure Live (s : System P) : Prop where
  owner : ∀ id, s.server.status.lookup id ≠ none → ∃ p, (s.clerks p).id? = some id
  confirmed : ∀ p id, (s.clerks p).Confirmed id → s.server.status.lookup id = none

theorem live_start : Live (P := P) .start := by
  constructor
  · intro id hid
    exact absurd rfl hid
  · intro p id hid
    rfl

/-- The handler of a confirm has deleted the id when it returns. -/
theorem Simulates.run_confirm {st : P → OpStatus} (h : Simulates s st) {p : P} {op : Op}
    {id : Int} {reply : String} {handler : Handler} {r : KVServer × Handler}
    (hp : s.clerks p = .waiting op id true reply handler)
    (hr : s.server.Ran (op.request id true) handler r) : r.1.status.lookup id = none := by
  have hhandler := (h.fits_at hp).2
  cases hr with
  | confirmed =>
    rw [Op.request_id]
    exact Finmap.lookup_erase id s.server.status
  | hit hc => simp at hc
  | readMiss _ hc => simp at hc
  | writeMiss _ hc => simp at hc
  | recorded => simp at hhandler
  | put => simp at hhandler
  | append => simp at hhandler

variable [DecidableEq P]

namespace Live

/-- Clerk `p` goes on while the server is at `kv`. The table changes at the id of `p` only,
and that id leaves the table before it leaves the clerk. -/
theorem update (h : Live s) {p : P} {clerk : Clerk} {kv : KVServer}
    (hkv : ∀ id, (s.clerks p).id? ≠ some id → kv.status.lookup id = s.server.status.lookup id)
    (hid : ∀ id, (s.clerks p).id? = some id → kv.status.lookup id ≠ none → clerk.id? = some id)
    (hconf : ∀ id, clerk.Confirmed id → kv.status.lookup id = none)
    (hdistinct : ∀ q id, q ≠ p → (s.clerks q).id? = some id → (s.clerks p).id? ≠ some id) :
    Live (({ s with server := kv } : System P).setClerk p clerk) := by
  constructor
  · intro id hlookup
    simp only [System.setClerk] at hlookup ⊢
    by_cases hp : (s.clerks p).id? = some id
    · refine ⟨p, ?_⟩
      rw [Function.update_self]
      exact hid id hp hlookup
    · rw [hkv id hp] at hlookup
      obtain ⟨q, hq⟩ := h.owner id hlookup
      have hqp : q ≠ p := by
        rintro rfl
        exact hp hq
      refine ⟨q, ?_⟩
      rwa [Function.update_of_ne hqp]
  · intro q id hq
    simp only [System.setClerk] at hq ⊢
    by_cases hqp : q = p
    · subst hqp
      rw [Function.update_self] at hq
      exact hconf id hq
    · rw [Function.update_of_ne hqp] at hq
      have hown : (s.clerks q).id? = some id := by
        obtain ⟨op, reply, value, heq⟩ := hq
        rw [heq]
        rfl
      rw [hkv id (hdistinct q id hqp hown)]
      exact h.confirmed q id hq

/-- Clerk `p` goes on and the server does nothing. -/
theorem setClerk (h : Live s) {p : P} {clerk : Clerk}
    (hid : ∀ id, (s.clerks p).id? = some id → s.server.status.lookup id ≠ none →
      clerk.id? = some id)
    (hconf : ∀ id, ¬ clerk.Confirmed id)
    (hdistinct : ∀ q id, q ≠ p → (s.clerks q).id? = some id → (s.clerks p).id? ≠ some id) :
    Live (s.setClerk p clerk) :=
  h.update (fun _ _ => rfl) hid (fun id hc => absurd hc (hconf id)) hdistinct

end Live

theorem Live.step {st : P → OpStatus} (h : Live s) (hsim : Simulates s st) {a : Action P}
    {r : System P × List (ClerkEvent P)} (hstep : s.Takes a r) : Live r.1 := by
  have hdistinct : ∀ p q id, q ≠ p → (s.clerks q).id? = some id → (s.clerks p).id? ≠ some id :=
    fun p q id hqp hq hp => hqp (hsim.distinct q p id hq hp)
  cases hstep with
  | @invoke p op id hp hid =>
    have hnext : Live (s.setClerk p (.calling op id false "")) := by
      apply h.setClerk
      · intro id' hid'
        rw [hp] at hid'
        cases hid'
      · rintro id' ⟨_, _, _, heq⟩
        cases heq
      · exact hdistinct p
    exact ⟨hnext.owner, hnext.confirmed⟩
  | loseRequest hp => exact h
  | @dispatch p op id confirm reply hp =>
    apply h.setClerk
    · intro id' hid' _
      rwa [hp] at hid'
    · rintro id' ⟨_, _, _, heq⟩
      cases heq
    · exact hdistinct p
  | @run p op id confirm reply handler r hp hr =>
    apply h.update
    · intro id' hid'
      apply hr.status_eq
      rw [Op.request_id]
      rintro rfl
      exact hid' (by rw [hp]; rfl)
    · intro id' hid' _
      rwa [hp] at hid'
    · rintro id' ⟨_, _, _, heq⟩
      obtain ⟨rfl, rfl, rfl, rfl, -⟩ := Clerk.waiting.inj heq
      exact hsim.run_confirm hp hr
    · exact hdistinct p
  | @loseReply p op id confirm reply value hp =>
    apply h.setClerk
    · intro id' hid' _
      rwa [hp] at hid'
    · rintro id' ⟨_, _, _, heq⟩
      cases heq
    · exact hdistinct p
  | @deliver p op id confirm reply value hp =>
    cases confirm with
    | false =>
      apply h.setClerk
      · intro id' hid' _
        rwa [hp] at hid'
      · rintro id' ⟨_, _, _, heq⟩
        cases heq
      · exact hdistinct p
    | true =>
      -- the operation returns, and its id is not in the table
      have hgone : s.server.status.lookup id = none :=
        h.confirmed p id ⟨op, reply, value, hp⟩
      apply h.setClerk
      · intro id' hid' hlookup
        rw [hp] at hid'
        cases hid'
        exact absurd hgone hlookup
      · rintro id' ⟨_, _, _, heq⟩
        cases heq
      · exact hdistinct p

theorem live_run (h : Run System.step always .start tr s) : Live s := by
  induction h with
  | refl => exact live_start
  | snoc hrun _ hstep ih =>
    obtain ⟨_, st, -, hsim⟩ := simulates_run hrun
    exact ih.step hsim (System.step_takes hstep)

/-! ## After the return -/

/-- Ids are never given out again. -/
theorem System.Returned.step {id : Int} (h : s.Returned id) {a : Action P}
    {r : System P × List (ClerkEvent P)} (hstep : s.Takes a r) : r.1.Returned id := by
  have hset : ∀ {p : P} {clerk : Clerk} {kv : KVServer},
      (clerk.id? = none ∨ clerk.id? = (s.clerks p).id?) →
      (({ s with server := kv } : System P).setClerk p clerk).Returned id := by
    intro p clerk kv hid
    refine ⟨h.1, ?_⟩
    intro q
    simp only [System.setClerk]
    by_cases hq : q = p
    · subst hq
      rw [Function.update_self]
      cases hid with
      | inl hnone =>
        rw [hnone]
        simp
      | inr hsame =>
        rw [hsame]
        exact h.2 q
    · rw [Function.update_of_ne hq]
      exact h.2 q
  cases hstep with
  | @invoke p op id' hp hid =>
    refine ⟨List.mem_cons_of_mem _ h.1, ?_⟩
    intro q
    simp only [System.setClerk]
    by_cases hq : q = p
    · subst hq
      rw [Function.update_self]
      rintro ⟨⟩
      exact hid h.1
    · rw [Function.update_of_ne hq]
      exact h.2 q
  | loseRequest hp => exact h
  | dispatch hp => exact hset (.inr (by rw [hp]; rfl))
  | run hp hr => exact hset (.inr (by rw [hp]; rfl))
  | loseReply hp => exact hset (.inr (by rw [hp]; rfl))
  | @deliver p op id' confirm reply value hp =>
    cases confirm with
    | false => exact hset (.inr (by rw [hp]; rfl))
    | true => exact hset (.inl rfl)

theorem System.Returned.run {id : Int} (h : s.Returned id)
    (hrun : Run System.step always s tr s') : s'.Returned id := by
  induction hrun with
  | refl => exact h
  | snoc _ _ hstep ih => exact ih.step (System.step_takes hstep)

/-! ## The size of the table -/

omit [DecidableEq P] in
/-- Every id of the table has a clerk of its own. -/
theorem Live.card_le (h : Live s) : (s.server.status.keys.card : ℕ∞) ≤ s.busy.encard := by
  classical
  have howner : ∀ id : s.server.status.keys, ∃ p, (s.clerks p).id? = some id.1 := by
    rintro ⟨id, hid⟩
    apply h.owner
    rw [Finmap.mem_keys, ← Finmap.lookup_isSome] at hid
    exact Option.isSome_iff_ne_none.mp hid
  choose owner howner using howner
  have hinj : Function.Injective owner := by
    intro id id' heq
    have hid := howner id
    rw [heq, howner id', Option.some.injEq] at hid
    exact Subtype.ext hid.symm
  have hbusy : Set.range owner ⊆ s.busy := by
    rintro p ⟨id, rfl⟩ hidle
    have hid := howner id
    rw [hidle] at hid
    cases hid
  calc (s.server.status.keys.card : ℕ∞)
      = (s.server.status.keys : Set Int).encard := (Set.encard_coe_eq_coe_finsetCard _).symm
    _ = (Set.range owner).encard := by
        rw [← Set.image_univ, hinj.encard_image, Set.encard_univ, Set.encard]
        rfl
    _ ≤ s.busy.encard := Set.encard_le_encard hbusy

/-- In every run, every id in the table belongs to an operation that was called and has not
returned; the id of an operation that has returned never comes back; and the table has no
more ids than there are operations in progress. -/
theorem status_holds_live_requests (h : Run System.step always .start tr s) :
    (∀ id, s.server.status.lookup id ≠ none → ∃ p, (s.clerks p).id? = some id) ∧
    (∀ id, s.Returned id → ∀ tr' s', Run System.step always s tr' s' →
      s'.server.status.lookup id = none) ∧
    (s.server.status.keys.card : ℕ∞) ≤ s.busy.encard := by
  refine ⟨(live_run h).owner, ?_, (live_run h).card_le⟩
  intro id hret tr' s' hrun
  by_contra hlookup
  obtain ⟨p, hp⟩ := (live_run (h.trans hrun)).owner id hlookup
  exact (hret.run hrun).2 p hp

/-- The reply to the append of clerk 0 is lost; clerk 1 reads and returns meanwhile. -/
def appendUnanswered : System (Fin 2) × List (ClerkEvent (Fin 2)) :=
  reached System.step always .start
    [.invoke 0 (.append "x" "a") 7, .dispatch 0, .run 0, .run 0, .loseReply 0,
      .invoke 1 (.get "x") 8, .dispatch 1, .run 1, .run 1, .deliver 1,
      .dispatch 1, .run 1, .deliver 1]

theorem append_unanswered_live :
    appendUnanswered.1.server.status.lookup 7 = some "" ∧
      (∃ p, (appendUnanswered.1.clerks p).id? = some 7) ∧
      appendUnanswered.1.Returned 8 ∧ appendUnanswered.1.server.status.lookup 8 = none := by
  have hrun : Run System.step always .start appendUnanswered.2 appendUnanswered.1 :=
    reached_run (by decide +kernel)
  have hseven : appendUnanswered.1.server.status.lookup 7 = some "" := by decide +kernel
  have height : appendUnanswered.1.Returned 8 := ⟨by decide +kernel, by decide +kernel⟩
  obtain ⟨howner, hgone, -⟩ := status_holds_live_requests hrun
  exact ⟨hseven, howner 7 (by simp [hseven]), height, hgone 8 height _ _ .refl⟩

end RaftImplementation.Kvsrv
