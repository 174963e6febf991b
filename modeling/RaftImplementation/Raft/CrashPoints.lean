import RaftImplementation.Raft.Encoding
import RaftImplementation.Raft.Sections
import RaftImplementation.Raft.Writes

/-!
# Crashes in the middle of a critical section

In the runs of `Cluster.step` a peer crashes between two sections. Here it may also
go down right after any single write: `torn a k` runs the section of action `a` up
to the mark at position `k`, which must be a write, and restarts the peer from what
that write left. Nothing of the section but its writes survives, and the message it
was handling is gone.

The observer of these runs records the votes that the peers cast and every content
they write, in order. The ticker writes the raised term together with the vote of
the term before, so the durable record is truthful exactly as long as no peer stands
for election while it holds a vote for another one.
-/

namespace RaftImplementation

open Library Cluster Raft

variable {n : Nat} {C : Type}

inductive CrashAction (n : Nat) (C : Type) where
  | whole (a : Action n C)
  | torn (a : Action n C) (k : Nat)
  deriving DecidableEq, Repr

namespace Cluster

variable (gob : Gob n C)

/-- The peer on which the action runs a section that may persist, and the marks of
that section. -/
def sectionMarks (c : Cluster n C) : Action n C → Option (Fin n × List (Mark n))
  | .elect p =>
    if (c.raft p).ticking then some (p, (c.raft p).electionTimeoutMarks gob) else none
  | .start p command => some (p, (c.raft p).startMarks gob command)
  | .deliver k => c.rpcs[k]?.bind fun m =>
    let live : Bool := (c.nodes m.caller).boot = m.boot
    match m.body with
    | .requestVote args => some (m.callee, (c.raft m.callee).requestVoteMarks gob args)
    | .appendEntries args => some (m.callee, (c.raft m.callee).appendEntriesMarks gob args)
    | .installSnapshot args => some (m.callee, (c.raft m.callee).installSnapshotMarks gob args)
    | .requestVoteReply args reply =>
      if live then some (m.caller, (c.raft m.caller).onRequestVoteReplyMarks gob args reply)
      else none
    | .appendEntriesReply args reply =>
      if live then some (m.caller, (c.raft m.caller).onAppendEntriesReplyMarks gob args reply)
      else none
    | .installSnapshotReply args reply =>
      if live then some (m.caller, (c.raft m.caller).onInstallSnapshotReplyMarks gob args reply)
      else none
  | .snapshot p index data =>
    if receivedCommand (c.nodes p) index then
      some (p, (c.raft p).snapshotMarks gob index data)
    else none
  | .condInstall p m =>
    if receivedSnapshot (c.nodes p) m then
      some (p, (c.raft p).condInstallSnapshotMarks gob m.snapshotTerm m.snapshotIndex m.snapshot)
    else none
  | _ => none

/-- The marks of the section that an action runs, with their peer. -/
def written (c : Cluster n C) (a : Action n C) : List (Fin n × Mark n) :=
  match c.sectionMarks gob a with
  | some (p, ms) => ms.map (p, ·)
  | none => []

/-- The RPCs under way once the peer that runs the action has crashed in it: a request
is not answered and a reply is not waited for any more. -/
def withdrawn (c : Cluster n C) : Action n C → List (Rpc n C)
  | .deliver k => c.rpcs.eraseIdx k
  | _ => c.rpcs

def crashStep (c : Cluster n C) : CrashAction n C → Option (Cluster n C × List (Fin n × Mark n))
  | .whole a => (c.step gob a).map fun r => (r.1, c.written gob a)
  | .torn a k => (c.sectionMarks gob a).bind fun (p, ms) =>
    match ms[k]? with
    | some (.write ps) =>
      ((c.setRpcs (c.withdrawn a)).reboot gob p ps).map fun r =>
        (r.1, (ms.take (k + 1)).map (p, ·))
    | _ => none

end Cluster

/-- The marks of peer `p`. -/
def history (p : Fin n) (tr : List (Fin n × Mark n)) : List (Mark n) :=
  tr.filterMap fun (q, m) => if q = p then some m else none

/-- Whatever vote is durable was cast before it was written. -/
def Truthful (gob : Gob n C) (tr : List (Fin n × Mark n)) : Prop :=
  ∀ pre p ps post T v l, tr = pre ++ (p, .write ps) :: post →
    durable gob ps = some (T, some v, l) → (p, .cast T v) ∈ pre

/-- No peer's durable vote of one term changes from one candidate to another. -/
def Unchanging (gob : Gob n C) (tr : List (Fin n × Mark n)) : Prop :=
  ∀ p ps ps' T v w l l', (p, .write ps) ∈ tr → (p, .write ps') ∈ tr →
    durable gob ps = some (T, some v, l) → durable gob ps' = some (T, some w, l') → v = w

/-- The peer whose election the action starts. -/
def CrashAction.candidate : CrashAction n C → Option (Fin n)
  | .whole (.elect p) | .torn (.elect p) _ => some p
  | _ => none

/-- A peer whose election the action starts holds no vote for another peer. -/
def OwnVote (c : Cluster n C) (a : CrashAction n C) : Prop :=
  ∀ p, a.candidate = some p → (c.raft p).votedFor = none ∨ (c.raft p).votedFor = some p

instance (c : Cluster n C) (a : CrashAction n C) : Decidable (OwnVote c a) :=
  inferInstanceAs (Decidable (∀ p, a.candidate = some p →
    (c.raft p).votedFor = none ∨ (c.raft p).votedFor = some p))

/-! ## The record of one peer -/

/-- The marks `ms` of a peer whose durable record is the vote `v` in term `t`. -/
structure Kept (gob : Gob n C) (ms : List (Mark n)) (t : Nat) (v : Option (Fin n)) : Prop where
  held : ∀ u, v = some u → .cast t u ∈ ms
  truthful : ∀ pre ps post T u l, ms = pre ++ .write ps :: post →
    durable gob ps = some (T, some u, l) → .cast T u ∈ pre
  latest : ∀ ps T u l, .write ps ∈ ms → durable gob ps = some (T, some u, l) →
    T < t ∨ (T = t ∧ v = some u)
  unique : ∀ ps ps' T u w l l', .write ps ∈ ms → .write ps' ∈ ms →
    durable gob ps = some (T, some u, l) → durable gob ps' = some (T, some w, l') → u = w

section Records

variable {gob : Gob n C} {ms : List (Mark n)} {t t' : Nat} {v v' : Option (Fin n)}
variable {me : Fin n} {own : Option (Fin n) → Prop} {ps ps' : Persister} {l : List (LogEntry C)}

theorem Kept.cast (h : Kept gob ms t v) (T : Nat) (u : Fin n) :
    Kept gob (ms ++ [.cast T u]) t v where
  held w hw := List.mem_append_left _ (h.held w hw)
  truthful pre ps post T' u' l hsplit hd := by
    rcases post.eq_nil_or_concat' with rfl | ⟨post', last, rfl⟩
    · cases (List.append_inj' hsplit rfl).2
    · rw [← List.cons_append, ← List.append_assoc] at hsplit
      exact h.truthful pre ps post' T' u' l (List.append_inj' hsplit rfl).1 hd
  latest ps T' u' l hmem hd := h.latest ps T' u' l (by simpa using hmem) hd
  unique ps ps' T' u' w l l' hmem hmem' hd hd' :=
    h.unique ps ps' T' u' w l l' (by simpa using hmem) (by simpa using hmem') hd hd'

/-- A write keeps the record if the vote of the old term is not replaced and the new
vote has been cast. -/
theorem Kept.write (h : Kept gob ms t v) (hps : durable gob ps = some (t', v', l))
    (hnext : t < t' ∨ (t' = t ∧ (v = none ∨ v = v')))
    (hcast : ∀ u, v' = some u → .cast t' u ∈ ms) : Kept gob (ms ++ [.write ps]) t' v' := by
  -- what was written before is of an earlier term, or is what `ps` holds
  have hold : ∀ ps₁ T u l₁, .write ps₁ ∈ ms → durable gob ps₁ = some (T, some u, l₁) →
      T < t' ∨ (T = t' ∧ v' = some u) := by
    intro ps₁ T u l₁ hmem hd
    rcases h.latest ps₁ T u l₁ hmem hd with hlt | ⟨rfl, rfl⟩
    · left
      omega
    · rcases hnext with hlt | ⟨rfl, hnone | rfl⟩
      · exact .inl hlt
      · cases hnone
      · exact .inr ⟨rfl, rfl⟩
  have hnew : ∀ ps₁ T u l₁, .write ps₁ ∈ ms ++ [.write ps] →
      durable gob ps₁ = some (T, some u, l₁) → T < t' ∨ (T = t' ∧ v' = some u) := by
    intro ps₁ T u l₁ hmem hd
    rcases List.mem_append.mp hmem with hmem | hmem
    · exact hold ps₁ T u l₁ hmem hd
    · cases List.mem_singleton.mp hmem
      cases hps.symm.trans hd
      exact .inr ⟨rfl, rfl⟩
  refine ⟨?_, ?_, hnew, ?_⟩
  · exact fun u hu => List.mem_append_left _ (hcast u hu)
  · intro pre ps₁ post T u l₁ hsplit hd
    rcases post.eq_nil_or_concat' with rfl | ⟨post', last, rfl⟩
    · obtain ⟨rfl, hlast⟩ := List.append_inj' hsplit rfl
      cases hlast
      cases hps.symm.trans hd
      exact hcast u rfl
    · rw [← List.cons_append, ← List.append_assoc] at hsplit
      exact h.truthful pre ps₁ post' T u l₁ (List.append_inj' hsplit rfl).1 hd
  · intro ps₁ ps₂ T u w l₁ l₂ hmem₁ hmem₂ hd₁ hd₂
    rcases hnew ps₁ T u l₁ hmem₁ hd₁ with hlt | ⟨rfl, rfl⟩
    · -- of an earlier term: neither of the two is the new write
      have earlier {ps₁ : Persister} {u : Fin n} {l₁ : List (LogEntry C)}
          (hmem : .write ps₁ ∈ ms ++ [.write ps])
          (hd : durable gob ps₁ = some (T, some u, l₁)) : .write ps₁ ∈ ms := by
        rcases List.mem_append.mp hmem with hmem | hmem
        · exact hmem
        · cases List.mem_singleton.mp hmem
          cases hps.symm.trans hd
          omega
      exact h.unique ps₁ ps₂ T u w l₁ l₂ (earlier hmem₁ hd₁) (earlier hmem₂ hd₂) hd₁ hd₂
    · rcases hnew ps₂ T w l₂ hmem₂ hd₂ with hlt | ⟨-, hv⟩
      · omega
      · exact Option.some.inj hv

/-- What a peer that never stands with the vote of another one writes keeps its record. -/
theorem Wrote.kept {l₀ : List (LogEntry C)}
    (h : Wrote gob me (fun v => v = none ∨ v = some me) ps ms ps')
    (h0 : durable gob ps = some (0, none, l₀)) (hd : durable gob ps' = some (t, v, l)) :
    Kept gob ms t v := by
  induction h generalizing t v l with
  | nil =>
    cases h0.symm.trans hd
    constructor
    · rintro u ⟨⟩
    · intro pre ps post T u l hsplit
      simp at hsplit
    · rintro ps T u l ⟨⟩
    · rintro ps ps' T u w l l' ⟨⟩
  | saved _ h₁ h₂ hl ih =>
    cases h₂.symm.trans hd
    exact (ih h₁).write hd (.inr ⟨rfl, .inr rfl⟩) (ih h₁).held
  | adopted _ h₁ ht h₂ ih =>
    cases h₂.symm.trans hd
    exact (ih h₁).write hd (.inl ht) (by rintro u ⟨⟩)
  | granted _ h₁ hv h₂ ih =>
    cases h₂.symm.trans hd
    rw [List.append_cons]
    refine ((ih h₁).cast _ _).write hd (.inr ⟨rfl, hv⟩) ?_
    rintro u ⟨⟩
    exact List.mem_append_right _ (List.mem_singleton_self _)
  | raised _ h₁ hv h₂ ih =>
    cases h₂.symm.trans hd
    rw [List.append_cons]
    refine ((ih h₁).cast _ _).write hd (.inl (Nat.lt_succ_self _)) ?_
    rintro u rfl
    cases hv.resolve_left (by simp)
    exact List.mem_append_right _ (List.mem_singleton_self _)
  | voted _ h₁ hv hcast h₂ ih =>
    cases h₂.symm.trans hd
    refine (ih h₁).write hd (.inr ⟨rfl, hv⟩) ?_
    rintro u ⟨⟩
    exact hcast

/-- No vote has been cast in a term above the durable one. -/
theorem Wrote.cast_le (h : Wrote gob me own ps ms ps') (hd : durable gob ps' = some (t, v, l))
    {T : Nat} {u : Fin n} (hcast : .cast T u ∈ ms) : T ≤ t := by
  induction h generalizing t v l with
  | nil => cases hcast
  | saved _ h₁ h₂ hl ih =>
    cases h₂.symm.trans hd
    exact ih h₁ (by simpa using hcast)
  | adopted _ h₁ ht h₂ ih =>
    cases h₂.symm.trans hd
    exact (ih h₁ (by simpa using hcast)).trans ht.le
  | granted _ h₁ hv h₂ ih =>
    cases h₂.symm.trans hd
    rcases List.mem_append.mp hcast with hold | hnew
    · exact ih h₁ hold
    · simp only [List.mem_cons, Mark.cast.injEq, reduceCtorEq, List.not_mem_nil, or_false] at hnew
      exact hnew.1.le
  | raised _ h₁ hv h₂ ih =>
    cases h₂.symm.trans hd
    rcases List.mem_append.mp hcast with hold | hnew
    · exact (ih h₁ hold).trans (Nat.le_succ _)
    · simp only [List.mem_cons, Mark.cast.injEq, reduceCtorEq, List.not_mem_nil, or_false] at hnew
      exact hnew.1.le
  | voted _ h₁ hv hown h₂ ih =>
    cases h₂.symm.trans hd
    exact ih h₁ (by simpa using hcast)

end Records

/-! ## The marks of one peer among those of all -/

theorem history_append (p : Fin n) (tr tr' : List (Fin n × Mark n)) :
    history p (tr ++ tr') = history p tr ++ history p tr' := List.filterMap_append

theorem mem_history {p : Fin n} {tr : List (Fin n × Mark n)} {m : Mark n} :
    m ∈ history p tr ↔ (p, m) ∈ tr := by
  simp [history]

theorem history_self (p : Fin n) (ms : List (Mark n)) : history p (ms.map (p, ·)) = ms := by
  simp [history, List.filterMap_map]

theorem history_other {p q : Fin n} (h : p ≠ q) (ms : List (Mark n)) :
    history q (ms.map (p, ·)) = [] := by
  simp [history, List.filterMap_map, h]

theorem truthful_of_history {gob : Gob n C} {tr : List (Fin n × Mark n)}
    (h : ∀ p, ∃ t v, Kept gob (history p tr) t v) : Truthful gob tr := by
  rintro pre p ps post T v l rfl hd
  obtain ⟨t, w, hk⟩ := h p
  have hsplit : history p (pre ++ (p, .write ps) :: post) =
      history p pre ++ .write ps :: history p post := by simp [history]
  exact mem_history.mp (hk.truthful _ ps _ T v l hsplit hd)

theorem unchanging_of_history {gob : Gob n C} {tr : List (Fin n × Mark n)}
    (h : ∀ p, ∃ t v, Kept gob (history p tr) t v) : Unchanging gob tr := by
  intro p ps ps' T v w l l' hmem hmem' hd hd'
  obtain ⟨t, u, hk⟩ := h p
  exact hk.unique ps ps' T v w l l' (mem_history.mpr hmem) (mem_history.mpr hmem') hd hd'

/-! ## One step -/

variable {gob : Gob n C} {c c' : Cluster n C} {a : Action n C} {es : List (Event n C)}
variable {own : Fin n → Option (Fin n) → Prop} {rpcs : List (Rpc n C)} {p : Fin n}
variable {rf : Raft n C} {ms : List (Mark n)}

/-- Every peer goes from its persister in `c` to the one in `c'` by its marks in `tr`. -/
def AllWrote (gob : Gob n C) (own : Fin n → Option (Fin n) → Prop) (c c' : Cluster n C)
    (tr : List (Fin n × Mark n)) : Prop :=
  ∀ q, Wrote gob q (own q) (c.raft q).persister (history q tr) (c'.raft q).persister

theorem allWrote_same (h : ∀ q, (c'.raft q).persister = (c.raft q).persister) :
    AllWrote gob own c c' [] := by
  intro q
  rw [h q]
  exact .nil

theorem allWrote_of_one (hother : ∀ q, q ≠ p → (c'.raft q).persister = (c.raft q).persister)
    (h : Wrote gob p (own p) (c.raft p).persister ms (c'.raft p).persister) :
    AllWrote gob own c c' (ms.map (p, ·)) := by
  intro q
  by_cases hq : q = p
  · subst hq
    rwa [history_self]
  · rw [history_other (Ne.symm hq), hother q hq]
    exact .nil

theorem allWrote_setRaft (h : Wrote gob p (own p) (c.raft p).persister ms rf.persister) :
    AllWrote gob own c ((c.setRpcs rpcs).setRaft p rf) (ms.map (p, ·)) := by
  refine allWrote_of_one (fun q hq => ?_) ?_
  · rw [setRaft_raft_ne _ p rf hq, setRpcs_raft]
  · rwa [setRaft_raft_self]

/-- A restart from `ps`. -/
theorem allWrote_reboot {ps : Persister}
    (h : Wrote gob p (own p) (c.raft p).persister ms ps)
    (hr : (c.setRpcs rpcs).reboot gob p ps = some (c', es)) (hc : Sound gob c) :
    AllWrote gob own c c' (ms.map (p, ·)) := by
  obtain ⟨t, v, l, hd, -⟩ : ∃ t v l, durable gob ps = some (t, v, l) ∧ Shaped l := by
    obtain ⟨es', hl, hes⟩ := (hc.wellFormed p).cons
    exact h.shaped ⟨_, _, _, hc.mirrored p, _, _, hl, hes⟩
  simp only [reboot, make_eq_fresh gob hd, Option.map_some, Option.some.injEq,
    Prod.mk.injEq] at hr
  obtain ⟨rfl, -⟩ := hr
  refine allWrote_of_one (fun q hq => ?_) ?_
  · simp [raft, hq]
  · simpa [raft] using h

/-- `ms` is what the section of `a` on `p` does to the persister, whether the section
is finished or not. -/
structure SectionWrote (gob : Gob n C) (own : Fin n → Option (Fin n) → Prop) (c : Cluster n C)
    (a : Action n C) (p : Fin n) (ms : List (Mark n)) : Prop where
  wrote : ∃ ps, Wrote gob p (own p) (c.raft p).persister ms ps
  whole : ∀ c' es, c.step gob a = some (c', es) → AllWrote gob own c c' (ms.map (p, ·))

theorem sectionWrote_setRaft (hw : Wrote gob p (own p) (c.raft p).persister ms rf.persister)
    (hstep : ∃ rpcs es, c.step gob a = some ((c.setRpcs rpcs).setRaft p rf, es)) :
    SectionWrote gob own c a p ms where
  wrote := ⟨_, hw⟩
  whole c' es h := by
    obtain ⟨rpcs, es', hstep⟩ := hstep
    obtain ⟨rfl, -⟩ := Prod.mk.inj (Option.some.inj (hstep.symm.trans h))
    exact allWrote_setRaft hw

/-- A panic before the first write. -/
theorem sectionWrote_reboot (hc : Sound gob c)
    (hstep : ∃ rpcs, c.step gob a = (c.setRpcs rpcs).reboot gob p (c.raft p).persister) :
    SectionWrote gob own c a p [] where
  wrote := ⟨_, .nil⟩
  whole c' es h := by
    obtain ⟨rpcs, hstep⟩ := hstep
    exact allWrote_reboot .nil (hstep.symm.trans h) hc

theorem deliver_sectionWrote (hc : Sound gob c) {k : Nat} {m : Rpc n C}
    (hm : c.rpcs[k]? = some m) (h : c.sectionMarks gob (.deliver k) = some (p, ms)) :
    SectionWrote gob own c (.deliver k) p ms := by
  have hstep : c.step gob (.deliver k) = c.deliver gob k m := by simp [Cluster.step, hm]
  simp only [sectionMarks, hm, Option.bind_some, decide_eq_true_eq] at h
  cases hb : m.body with
  | requestVote args =>
    simp only [hb, Option.some.injEq, Prod.mk.injEq] at h
    obtain ⟨rfl, rfl⟩ := h
    refine sectionWrote_setRaft (requestVote_wrote (hc.mirrored m.callee) args) ?_
    rw [hstep, Cluster.deliver, hb]
    exact ⟨_, _, rfl⟩
  | appendEntries args =>
    simp only [hb, Option.some.injEq, Prod.mk.injEq] at h
    obtain ⟨rfl, rfl⟩ := h
    obtain ⟨rf, reply, happ, hw⟩ := appendEntries_wrote m.callee (own m.callee)
      (hc.mirrored m.callee) (hc.wellFormed m.callee)
      (hc.entries m (List.mem_of_getElem? hm) args hb)
    refine sectionWrote_setRaft hw ?_
    simp only [hstep, Cluster.deliver, hb]
    rw [happ]
    exact ⟨_, _, rfl⟩
  | installSnapshot args =>
    simp only [hb, Option.some.injEq, Prod.mk.injEq] at h
    obtain ⟨rfl, rfl⟩ := h
    refine sectionWrote_setRaft (installSnapshot_wrote (hc.mirrored m.callee) args) ?_
    rw [hstep, Cluster.deliver, hb]
    exact ⟨_, _, rfl⟩
  | requestVoteReply args reply =>
    simp only [hb, Option.ite_none_right_eq_some, Option.some.injEq, Prod.mk.injEq] at h
    obtain ⟨hlive, rfl, rfl⟩ := h
    refine sectionWrote_setRaft (onRequestVoteReply_wrote (hc.mirrored m.caller) args reply)
      ?_
    simp only [hstep, Cluster.deliver, hb, hlive, decide_true, ↓reduceIte]
    exact ⟨_, _, rfl⟩
  | appendEntriesReply args reply =>
    simp only [hb, Option.ite_none_right_eq_some, Option.some.injEq, Prod.mk.injEq] at h
    obtain ⟨hlive, rfl, rfl⟩ := h
    rcases onAppendEntriesReply_wrote m.caller (own m.caller) (hc.mirrored m.caller) m.callee
      args reply (hc.wellFormed m.caller) with ⟨rf, hr, hw⟩ | ⟨hr, hnone⟩
    · refine sectionWrote_setRaft hw ?_
      simp only [hstep, Cluster.deliver, hb, hlive, decide_true, ↓reduceIte]
      rw [hr]
      exact ⟨_, _, rfl⟩
    · rw [hnone]
      refine sectionWrote_reboot hc ?_
      simp only [hstep, Cluster.deliver, hb, hlive, decide_true, ↓reduceIte]
      rw [hr]
      exact ⟨_, rfl⟩
  | installSnapshotReply args reply =>
    simp only [hb, Option.ite_none_right_eq_some, Option.some.injEq, Prod.mk.injEq] at h
    obtain ⟨hlive, rfl, rfl⟩ := h
    refine sectionWrote_setRaft
      (onInstallSnapshotReply_wrote (hc.mirrored m.caller) m.callee args reply) ?_
    simp only [hstep, Cluster.deliver, hb, hlive, decide_true, ↓reduceIte]
    exact ⟨_, _, rfl⟩

theorem sectionMarks_wrote (own : Fin n → Option (Fin n) → Prop) (hc : Sound gob c)
    (h : c.sectionMarks gob a = some (p, ms))
    (hown : ∀ p, a = .elect p → own p (c.raft p).votedFor) :
    SectionWrote gob own c a p ms := by
  cases a with
  | elect q =>
    simp only [sectionMarks, Option.ite_none_right_eq_some, Option.some.injEq,
      Prod.mk.injEq] at h
    obtain ⟨hticking, rfl, rfl⟩ := h
    have hw := electionTimeout_wrote (hc.mirrored q) (hown q rfl)
    rw [hc.me q] at hw
    refine sectionWrote_setRaft hw ?_
    simp only [Cluster.step, Cluster.elect, hticking, ↓reduceIte]
    exact ⟨c.rpcs ++ c.broadcast q _, _, rfl⟩
  | start q command =>
    simp only [sectionMarks, Option.some.injEq, Prod.mk.injEq] at h
    obtain ⟨rfl, rfl⟩ := h
    refine sectionWrote_setRaft (start_wrote (hc.mirrored q) (hc.wellFormed q) command) ?_
    simp only [Cluster.step, Cluster.start]
    rcases (c.raft q).start_eq gob command with ⟨-, hst⟩ | ⟨-, ps, hst, -⟩
    · rw [hst]
      exact ⟨c.rpcs, _, rfl⟩
    · rw [hst]
      exact ⟨c.rpcs, _, rfl⟩
  | deliver k =>
    cases hm : c.rpcs[k]? with
    | none => simp [sectionMarks, hm] at h
    | some m => exact deliver_sectionWrote hc hm h
  | snapshot q index data =>
    simp only [sectionMarks, Option.ite_none_right_eq_some, Option.some.injEq,
      Prod.mk.injEq] at h
    obtain ⟨hrec, rfl, rfl⟩ := h
    obtain ⟨rf, hr, hw⟩ := snapshot_wrote q (own q) (hc.mirrored q) (hc.wellFormed q) index data
    refine sectionWrote_setRaft hw ?_
    simp only [Cluster.step, hrec, ↓reduceIte]
    rw [hr]
    exact ⟨_, _, rfl⟩
  | condInstall q m =>
    simp only [sectionMarks, Option.ite_none_right_eq_some, Option.some.injEq,
      Prod.mk.injEq] at h
    obtain ⟨hrec, rfl, rfl⟩ := h
    rcases condInstallSnapshot_wrote q (own q) (hc.mirrored q) (hc.wellFormed q)
      m.snapshotTerm m.snapshotIndex m.snapshot with ⟨rf, result, hr, hw⟩ | ⟨hr, hnone⟩
    · refine sectionWrote_setRaft hw ?_
      simp only [Cluster.step, hrec, ↓reduceIte]
      rw [hr]
      exact ⟨_, _, rfl⟩
    · rw [hnone]
      refine sectionWrote_reboot hc ?_
      simp only [Cluster.step, hrec, ↓reduceIte]
      rw [hr]
      exact ⟨c.rpcs, rfl⟩
  | fire q | tick q | replicate q peer | lose k | copyBatch q spare | sendEntry q
  | finishBatch q | sendSnapshot q k | crash q => cases h

/-- A step that runs no section which persists leaves every persister as it is. -/
theorem idle_persister (hc : Sound gob c) (hnone : c.sectionMarks gob a = none)
    (h : c.step gob a = some (c', es)) (q : Fin n) :
    (c'.raft q).persister = (c.raft q).persister := by
  have hran := step_ran hc h q
  unfold RanOrRestarted at hran
  rw [make_eq_fresh gob (hc.mirrored q), Option.some.injEq] at hran
  cases a with
  | elect p =>
    simp only [Cluster.step, Cluster.elect, Option.ite_none_right_eq_some] at h
    simp [sectionMarks, h.1] at hnone
  | start p command => cases hnone
  | deliver k =>
    cases hm : c.rpcs[k]? with
    | none => simp [Cluster.step, hm] at h
    | some m =>
      simp only [sectionMarks, hm, Option.bind_some, decide_eq_true_eq] at hnone
      simp only [Cluster.step, hm, Cluster.deliver, decide_eq_true_eq] at h
      -- what runs no section is a reply to a process that is gone
      cases hb : m.body with
      | requestVote args | appendEntries args | installSnapshot args => simp [hb] at hnone
      | requestVoteReply args reply | appendEntriesReply args reply
      | installSnapshotReply args reply =>
        simp only [hb, ite_eq_right_iff, reduceCtorEq, imp_false] at hnone
        simp only [hb, hnone, ↓reduceIte, Option.some.injEq, Prod.mk.injEq] at h
        rw [← h.1]
        rfl
  | snapshot p index data =>
    simp only [Cluster.step, Option.ite_none_right_eq_some] at h
    simp [sectionMarks, h.1] at hnone
  | condInstall p m =>
    simp only [Cluster.step, Option.ite_none_right_eq_some] at h
    simp [sectionMarks, h.1] at hnone
  | fire p | tick p | replicate p peer | lose k | copyBatch p spare | sendEntry p
  | finishBatch p | sendSnapshot p k | crash p =>
    generalize c'.raft q = rf at hran
    rcases hran with ⟨-, hran⟩ | ⟨-, rfl⟩
    · cases hran <;> rfl
    · rfl

theorem step_allWrote (hc : Sound gob c) (h : c.step gob a = some (c', es))
    (hown : ∀ p, a = .elect p → own p (c.raft p).votedFor) :
    AllWrote gob own c c' (c.written gob a) := by
  unfold written
  cases hmarks : c.sectionMarks gob a with
  | none => exact allWrote_same (idle_persister hc hmarks h)
  | some r => exact (sectionMarks_wrote own hc hmarks hown).whole c' es h

/-- The restart after a torn section finds a log in order. -/
theorem torn_sound (hc : Sound gob c) {ps : Persister}
    (hw : Wrote gob p (own p) (c.raft p).persister ms ps)
    (hr : (c.setRpcs (c.withdrawn a)).reboot gob p ps = some (c', es)) : Sound gob c' := by
  obtain ⟨es', hl, hes⟩ := (hc.wellFormed p).cons
  obtain ⟨t, v, l, hd, e, rest, hshape, hrest⟩ :=
    hw.shaped ⟨_, _, _, hc.mirrored p, _, _, hl, hes⟩
  have hsub : ∀ m ∈ c.withdrawn a, m ∈ c.rpcs := by
    intro m hm
    cases a with
    | deliver k => exact List.mem_of_mem_eraseIdx hm
    | _ => exact hm
  simp only [reboot, make_eq_fresh gob hd, Option.map_some, Option.some.injEq,
    Prod.mk.injEq] at hr
  obtain ⟨rfl, -⟩ := hr
  refine hc.update p (fun q hq => ?_) ?_ ?_ ?_ (fun m hm _ _ => .inl (hsub m hm))
  · simp [raft, hq]
  · simp [raft]
  · simpa [raft] using wellFormed_of_cons hshape hrest
  · simpa [raft, Mirrored] using hd

/-- One step, whole or torn. -/
theorem crashStep_allWrote {b : CrashAction n C} {tr : List (Fin n × Mark n)}
    (hc : Sound gob c) (h : c.crashStep gob b = some (c', tr))
    (hown : ∀ p, b.candidate = some p → own p (c.raft p).votedFor) :
    Sound gob c' ∧ AllWrote gob own c c' tr := by
  cases b with
  | whole a =>
    simp only [crashStep, Option.map_eq_some_iff, Prod.mk.injEq] at h
    obtain ⟨⟨c₁, es⟩, hstep, rfl, rfl⟩ := h
    refine ⟨sound_moves hc (step_moves hc hstep), step_allWrote hc hstep ?_⟩
    rintro p rfl
    exact hown p rfl
  | torn a k =>
    simp only [crashStep, Option.bind_eq_some_iff] at h
    obtain ⟨⟨p, ms⟩, hmarks, h⟩ := h
    dsimp only at h
    split at h
    · rename_i ps hk
      simp only [Option.map_eq_some_iff, Prod.mk.injEq] at h
      obtain ⟨⟨c₁, es⟩, hr, rfl, rfl⟩ := h
      obtain ⟨ps', hw⟩ := (sectionMarks_wrote own hc hmarks
        (by rintro p rfl; exact hown p rfl)).wrote
      have hcut := hw.cut hk
      exact ⟨torn_sound hc hcut hr, allWrote_reboot hcut hr hc⟩
    · cases h

/-- What every run writes, if its steps satisfy a guard that bounds the vote of those
who stand. -/
theorem crashRun_wrote (own : Fin n → Option (Fin n) → Prop)
    {ok : Cluster n C → CrashAction n C → Prop} {tr : List (Fin n × Mark n)}
    (hok : ∀ c b, ok c b → ∀ p, b.candidate = some p → own p (c.raft p).votedFor)
    (h : Run (crashStep gob) ok init tr c) :
    Sound gob c ∧ ∀ p, Wrote gob p (own p) makePersister (history p tr) (c.raft p).persister := by
  refine Run.invariant (fun tr c => Sound gob c ∧
    ∀ p, Wrote gob p (own p) makePersister (history p tr) (c.raft p).persister)
    ⟨sound_init, fun p => .nil⟩ ?_ h
  rintro tr c b c' es ⟨hc, hw⟩ hb hstep
  obtain ⟨hc', hw'⟩ := crashStep_allWrote hc hstep (hok c b hb)
  refine ⟨hc', fun p => ?_⟩
  rw [history_append]
  exact (hw p).trans (hw' p)

/-! ## Whole runs -/

/-- The first write of an election in the next term. -/
theorem candidate_events {b : CrashAction n C} {tr : List (Fin n × Mark n)}
    (hc : Sound gob c) (h : c.crashStep gob b = some (c', tr)) (hb : b.candidate = some p) :
    ∃ ps rest, tr = (p, .cast ((c.raft p).currentTerm + 1) p) :: (p, .write ps) :: rest ∧
      durable gob ps =
        some ((c.raft p).currentTerm + 1, (c.raft p).votedFor, (c.raft p).logs) := by
  obtain ⟨ps, hmarks, hd, -⟩ := (c.raft p).electionTimeoutMarks_eq gob
  rw [hc.me p] at hmarks
  cases b with
  | whole a =>
    cases a with
    | elect q =>
      obtain rfl := Option.some.inj hb
      simp only [crashStep, Option.map_eq_some_iff, Prod.mk.injEq] at h
      obtain ⟨⟨c₁, es⟩, hstep, -, rfl⟩ := h
      simp only [Cluster.step, Cluster.elect, Option.ite_none_right_eq_some] at hstep
      refine ⟨ps, [(q, .write ((c.raft q).electionTimeout gob).1.persister)], ?_, hd⟩
      simp [written, sectionMarks, hstep.1, hmarks]
    | _ => cases hb
  | torn a k =>
    cases a with
    | elect q =>
      obtain rfl := Option.some.inj hb
      simp only [crashStep, sectionMarks, Option.bind_eq_some_iff,
        Option.ite_none_right_eq_some, Option.some.injEq] at h
      obtain ⟨-, ⟨-, rfl⟩, h⟩ := h
      rw [hmarks] at h
      -- the cast at position 0 is no write, so the cut is behind the first write
      cases k with
      | zero => cases h
      | succ k =>
        dsimp only at h
        split at h
        · simp only [Option.map_eq_some_iff, Prod.mk.injEq] at h
          obtain ⟨-, -, -, rfl⟩ := h
          exact ⟨ps, _, rfl, hd⟩
        · cases h
    | _ => cases hb

/-- The durable votes of a run with crashes at any write are truthful and never change
within a term if and only if no peer stood for election with a vote for another one. -/
theorem durable_votes_truthful_iff
    {rs : List (Taken (Cluster n C) (CrashAction n C) (Fin n × Mark n))}
    (h : Course (crashStep gob) always init rs c) :
    (Truthful gob (rs.flatMap Taken.events) ∧ Unchanging gob (rs.flatMap Taken.events)) ↔
      ∀ r ∈ rs, OwnVote r.before r.action := by
  constructor
  · rintro ⟨htrue, -⟩ r hr p hp
    obtain ⟨rs', rest, rfl, hrun, -, hstep⟩ := h.split hr
    obtain ⟨hc, hw⟩ := crashRun_wrote (fun _ _ => True) (fun _ _ _ _ _ => trivial) hrun.run
    obtain ⟨ps, more, hevents, hd⟩ := candidate_events hc hstep hp
    by_contra hother
    rw [not_or] at hother
    obtain ⟨v, hv⟩ := Option.ne_none_iff_exists'.mp hother.1
    rw [hv] at hd
    -- the first write of the election names `v` for a term in which nobody has voted yet
    have hcast := htrue (rs'.flatMap Taken.events ++
      [(p, .cast ((r.before.raft p).currentTerm + 1) p)]) p ps
      (more ++ rest.flatMap Taken.events) _ v _ (by simp [hevents]) hd
    rcases List.mem_append.mp hcast with hold | hown
    · have hle := (hw p).cast_le (hc.mirrored p) (mem_history.mpr hold)
      omega
    · cases List.mem_singleton.mp hown
      exact hother.2 hv
  · intro hok
    have hkept : ∀ p, ∃ t v, Kept gob (history p (rs.flatMap Taken.events)) t v := by
      intro p
      obtain ⟨hc, hw⟩ := crashRun_wrote (fun p v => v = none ∨ v = some p)
        (fun _ _ hb => hb) (h.guard hok).run
      exact ⟨_, _, (hw p).kept rfl (hc.mirrored p)⟩
    exact ⟨truthful_of_history hkept, unchanging_of_history hkept⟩

/-- Where the listed actions lead from the first boot, and what the peers write. -/
def crashRan (ok : Cluster 3 Nat → CrashAction 3 Nat → Prop) [∀ c b, Decidable (ok c b)]
    (as : List (CrashAction 3 Nat)) : Cluster 3 Nat × List (Fin 3 × Mark 3) :=
  reached (crashStep (natGob 3)) ok init as

/-- Peer 0 goes down between the two writes of its first election, restarts and stands
again; peer 1 goes down between adopting the new term and granting its vote. -/
def tornElections : List (CrashAction 3 Nat) :=
  [.whole (.fire 0), .whole (.tick 0), .torn (.elect 0) 1,
    .whole (.fire 0), .whole (.tick 0), .whole (.elect 0), .torn (.deliver 0) 0]

theorem durable_votes_of_torn_elections :
    ∃ rs c, Course (crashStep (natGob 3)) always init rs c ∧
      rs.flatMap Taken.events = (crashRan OwnVote tornElections).2 ∧
      Truthful (natGob 3) (rs.flatMap Taken.events) ∧
      Unchanging (natGob 3) (rs.flatMap Taken.events) := by
  have hrun : Run (crashStep (natGob 3)) OwnVote init (crashRan OwnVote tornElections).2
      (crashRan OwnVote tornElections).1 := reached_run (by decide +kernel)
  obtain ⟨rs, hcourse, htr⟩ := Course.exists_of_run hrun
  have hown : ∀ r ∈ rs, OwnVote r.before r.action := by
    intro r hr
    obtain ⟨-, -, -, -, hok, -⟩ := hcourse.split hr
    exact hok
  have hall : Course (crashStep (natGob 3)) always init rs
      (crashRan OwnVote tornElections).1 := hcourse.guard fun _ _ => trivial
  obtain ⟨htrue, hsame⟩ := (durable_votes_truthful_iff hall).mpr hown
  exact ⟨rs, _, hall, htr, htrue, hsame⟩

/-- Peer 1 votes for peer 0 in term 1, and then its own election timer fires. -/
def votedThenTimedOut : List (CrashAction 3 Nat) :=
  [.whole (.fire 0), .whole (.tick 0), .whole (.elect 0), .whole (.deliver 0),
    .whole (.fire 1), .whole (.tick 1)]

/-- If peer 1 goes down after the first write of its election, it restarts with a vote
for peer 0 in term 2, which it never cast; if it does not, its durable vote of term 2
changes from peer 0 to itself. -/
theorem durable_vote_never_cast :
    (∃ tr c, Run (crashStep (natGob 3)) always init tr c ∧ ¬ Truthful (natGob 3) tr ∧
      (c.raft 1).currentTerm = 2 ∧ (c.raft 1).votedFor = some 0 ∧ (1, .cast 2 0) ∉ tr) ∧
    ∃ tr c, Run (crashStep (natGob 3)) always init tr c ∧ ¬ Unchanging (natGob 3) tr := by
  set torn := crashRan always (votedThenTimedOut ++ [.torn (.elect 1) 1])
  set whole := crashRan always (votedThenTimedOut ++ [.whole (.elect 1)])
  have hold : durable (natGob 3) (torn.1.raft 1).persister = some (2, some 0, [.dummy]) := by
    decide +kernel
  have hnew : durable (natGob 3) (whole.1.raft 1).persister = some (2, some 1, [.dummy]) := by
    decide +kernel
  have hcast : (1, .cast 2 0) ∉ torn.2 := by decide +kernel
  refine ⟨⟨torn.2, torn.1, reached_run (by decide +kernel), fun htrue => ?_,
    by decide +kernel, by decide +kernel, hcast⟩,
    whole.2, whole.1, reached_run (by decide +kernel), fun hsame => ?_⟩
  · have hsplit : torn.2 = torn.2.dropLast ++ [(1, .write (torn.1.raft 1).persister)] := by
      decide +kernel
    exact hcast (List.dropLast_subset _ (htrue _ 1 _ [] 2 0 _ hsplit hold))
  · have hmem : (1, .write (torn.1.raft 1).persister) ∈ whole.2 := by decide +kernel
    have hmem' : (1, .write (whole.1.raft 1).persister) ∈ whole.2 := by decide +kernel
    cases hsame 1 _ _ 2 0 1 _ _ hmem hmem' hold hnew

end RaftImplementation
