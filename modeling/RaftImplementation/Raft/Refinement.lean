import RaftImplementation.Library.LeaderCompleteness
import RaftImplementation.Raft.ApplyOrder
import RaftImplementation.Raft.Elections
import RaftImplementation.Raft.Views

/-!
# The cluster and the replicated log

The states of a cluster are related to those of the abstract protocol of
`Library.ReplicatedLog`, in which nodes hold whole histories. A peer shows its history
from the end of its snapshot on; its snapshot, its committed entries and the snapshots
on their way are parts of decided histories; a leader's record of what a peer has is
backed by a confirmation, by a decision of its own term, or is about entries it had
when it was elected. The last case is where the code departs from the protocol:
`matchIndex` survives from one leadership of a process to the next.

With `strict` set, the relation also says that the peer really has what the leader has
recorded since its election.
-/

namespace RaftImplementation

open Library Library.ReplicatedLog Cluster Raft

variable {n : Nat} {C : Type}

/-- A state of the abstract protocol for this cluster. -/
abbrev Protocol (n : Nat) (C : Type) := ReplicatedLog.State (Fin n) (Option C)

/-- The histories that the snapshots of the peers cover. -/
abbrev Snapshots (n : Nat) (C : Type) := Fin n → History (Option C)

section Relation

variable (strict : Prop) (A : Protocol n C) (S : Snapshots n C)

/-- `G` is empty, or was decided by term `t`. -/
def Known (G : History (Option C)) (t : Nat) : Prop := G = [] ∨ A.Settled G t

/-- A known history has this length and last term. -/
def KnownAt (t i u : Nat) : Prop := ∃ G, Known A G t ∧ G.length = i ∧ lastTerm G = u

/-- The entry stands at its index in a decided history. -/
def DecidedEntry (e : LogEntry C) : Prop :=
  ∃ D ∈ A.decided, 0 < e.index ∧ D[e.index - 1]? = some (e.term, e.command)

/-- A leader of term `T` may believe that `q` has its first `m` entries. -/
def Justified (T : Nat) (q : Fin n) (m : Nat) : Prop :=
  m ≤ (A.win T).length ∨ (∃ D ∈ A.decided, lastTerm D = T ∧ m ≤ D.length) ∨
    ∃ i, m ≤ i ∧ A.ack q T i

/-- As long as `q` is in term `T`, it has the first `m` entries of the leader. -/
def Confirmed (T : Nat) (q : Fin n) (m : Nat) : Prop :=
  T < A.term q ∨ m ≤ (S q).length ∨ ∃ i, m ≤ i ∧ A.ack q T i

/-- What a leader of term `T` relies on. -/
structure Leadership (p : Fin n) (T ci : Nat) (matchIndex : Fin n → Nat) : Prop where
  led : A.led p T
  front : A.log p = A.front T
  decided_le : ∀ D ∈ A.decided, lastTerm D = T → D.length ≤ ci
  matched : ∀ q, q ≠ p → Justified A T q (matchIndex q)
  confirmed : strict → ∀ q, q ≠ p → Confirmed A S T q (matchIndex q)

/-- A candidate still has the history it stood with, or a snapshot has replaced it. -/
structure Candidacy (p : Fin n) (T : Nat) : Prop where
  stood : A.vote p T p
  log : A.log p = A.bid p T ∨ A.Settled (A.log p) T ∧ (A.bid p T).length ≤ (A.log p).length

/-- The committed entries of `p` are a known history, of which the log shows what is
behind the snapshot. -/
def CommitKnown (p : Fin n) (t ci : Nat) : Prop :=
  ∃ K, Known A K t ∧ K.length = ci ∧ S p <+: K ∧ (S p = K ∨ K <+: A.log p)

structure Represents (p : Fin n) (rf : Raft n C) : Prop where
  term : A.term p = rf.currentTerm
  view : View (S p) (A.log p) rf.logs
  commit : CommitKnown A S p rf.currentTerm rf.commitIndex
  leader : rf.state = .leader →
    Leadership strict A S p rf.currentTerm rf.commitIndex rf.matchIndex
  candidate : rf.state = .candidate → Candidacy A p rf.currentTerm
  sends : ∀ m ∈ rf.snapshotSends, KnownAt A rf.currentTerm m.snapshotIndex m.snapshotTerm
  batch : ∀ ci entries, rf.applier = .sending ci entries → ∀ e ∈ entries, DecidedEntry A e

structure RepresentsNode (p : Fin n) (nd : Node n C) : Prop where
  peer : Represents strict A S p nd.raft
  received : ∀ m, .snapshot m ∈ nd.received →
    KnownAt A nd.raft.currentTerm m.snapshotIndex m.snapshotTerm

/-- A request carries the leader's history `H`. -/
structure Request (args : AppendEntriesArgs n C) (H : History (Option C)) : Prop where
  carries : Carries H args
  win : A.win args.term <+: H
  front : H <+: A.front args.term
  commit_le : args.leaderCommit ≤ H.length
  commit : Known A (H.take args.leaderCommit) args.term

/-- What an RPC from `caller` to `callee` says is true of the protocol. -/
def Backed (caller callee : Fin n) : RpcBody n C → Prop
  | .requestVote args => args.candidateId = caller ∧ A.vote caller args.term caller ∧
      lastTerm (A.bid caller args.term) = args.lastLogTerm ∧
      (A.bid caller args.term).length = args.lastLogIndex
  | .requestVoteReply _ _ => True
  | .appendEntries args => A.led caller args.term ∧ ∃ H, Request A args H
  | .appendEntriesReply args reply => reply.success = true → A.led caller args.term ∧
      Justified A args.term callee (args.prevLogIndex + args.entries.length) ∧
      (strict → Confirmed A S args.term callee (args.prevLogIndex + args.entries.length))
  | .installSnapshot args => KnownAt A args.term args.lastIncludedIndex args.lastIncludedTerm
  | .installSnapshotReply args _ =>
      KnownAt A args.term args.lastIncludedIndex args.lastIncludedTerm ∧
      args.term ≤ A.term callee

/-- `A` is a state that the protocol reaches and that says what has happened in `tr` and
where the cluster is. -/
structure Refines (tr : List (Event n C)) (c : Cluster n C) : Prop where
  run : Steps State.initial A
  votes : ∀ v T q, A.vote v T q ↔ Voted tr v T q
  leaders : ∀ p T, A.led p T ↔ Led tr p T
  applied : ∀ p b command i t, Event.received p b (.command command i t) ∈ tr →
    DecidedEntry A ⟨command, t, i⟩
  order : ∀ p, InOrder (c.nodes p)
  nodes : ∀ p, RepresentsNode strict A S p (c.nodes p)
  rpcs : ∀ m ∈ c.rpcs, Backed strict A S m.caller m.callee m.body

end Relation

/-! ## Known histories -/

section Known

variable {A : Protocol n C} {G H : History (Option C)} {t u : Nat}

theorem Known.le (h : Known A G t) (hle : t ≤ u) : Known A G u := by
  rcases h with rfl | ⟨D, hD, hpre, hterm⟩
  · exact .inl rfl
  · exact .inr ⟨D, hD, hpre, hterm.trans hle⟩

theorem Known.shorten (h : Known A H t) (hpre : G <+: H) : Known A G t := by
  rcases h with rfl | ⟨D, hD, hpre', hterm⟩
  · exact .inl (List.prefix_nil.mp hpre)
  · exact .inr ⟨D, hD, hpre.trans hpre', hterm⟩

theorem KnownAt.le {i v : Nat} (h : KnownAt A t i v) (hle : t ≤ u) : KnownAt A u i v := by
  obtain ⟨G, hG, hi⟩ := h
  exact ⟨G, hG.le hle, hi⟩

/-- Known histories are prefixes of one another. -/
theorem Known.prefix_of_le (hi : Inv A) (hG : Known A G t) (hH : Known A H u)
    (hle : G.length ≤ H.length) : G <+: H := by
  rcases hG with rfl | ⟨D, hD, hGD, _⟩
  · exact List.nil_prefix
  · rcases hH with rfl | ⟨E, hE, hHE, _⟩
    · rw [List.eq_nil_of_length_eq_zero (Nat.le_zero.mp hle)]
    · rcases hi.decided_comparable hD hE with hDE | hED
      · exact List.prefix_of_prefix_length_le (hGD.trans hDE) hHE hle
      · exact List.prefix_of_prefix_length_le hGD (hHE.trans hED) hle

theorem Known.mem (hi : Inv A) (hG : Known A G t) : G ∈ A.made := by
  rcases hG with rfl | ⟨D, hD, hpre, _⟩
  · exact hi.tree.nil
  · exact hi.tree.past D (hi.decided_mem D hD).2.1 G hpre

/-- The leader of a term has what was known by then. -/
theorem Known.prefix_front (hi : Inv A) (hG : Known A G t) {p : Fin n} (hl : A.led p t) :
    G <+: A.front t := by
  rcases hG with rfl | hG
  · exact List.nil_prefix
  · exact hi.settled_prefix_front hG hl

/-- What is known by the leader's term it had when it was elected, or was decided in
that term. -/
theorem Known.justified (hi : Inv A) (hG : Known A G t) {p : Fin n} (hl : A.led p t)
    (q : Fin n) : Justified A t q G.length := by
  rcases hG with rfl | ⟨D, hD, hpre, hle⟩
  · exact .inl (Nat.zero_le _)
  · rcases hle.lt_or_eq with hlt | heq
    · exact .inl ((hpre.trans (hi.decided_prefix_win hD hl hlt)).length_le)
    · exact .inr (.inl ⟨D, hD, heq, hpre.length_le⟩)

end Known

/-! ## The protocol moves on -/

/-- From `A` to `A'` the protocol has moved on, and only `p` has changed its history, its
snapshot or its term. -/
structure Evolves (p : Fin n) (A : Protocol n C) (S : Snapshots n C) (A' : Protocol n C)
    (S' : Snapshots n C) : Prop where
  term_le : ∀ q, A.term q ≤ A'.term q
  term_eq : ∀ q, q ≠ p → A'.term q = A.term q
  log_eq : ∀ q, q ≠ p → A'.log q = A.log q
  snap_le : ∀ q, (S q).length ≤ (S' q).length
  snap_eq : ∀ q, q ≠ p → S' q = S q
  vote : ∀ v T q, A.vote v T q → A'.vote v T q
  bid : ∀ v T q, A.vote v T q → A'.bid q T = A.bid q T
  led : ∀ q T, A.led q T → A'.led q T
  win : ∀ q T, A.led q T → A'.win T = A.win T
  front : ∀ q T, A.led q T → A.front T <+: A'.front T
  front_eq : ∀ q T, q ≠ p → A.led q T → A'.front T = A.front T
  ack : ∀ v T m, A.ack v T m → A'.ack v T m
  decided : ∀ D ∈ A.decided, D ∈ A'.decided
  decided_new : ∀ D ∈ A'.decided, D ∈ A.decided ∨ A'.led p (lastTerm D)

section Monotone

variable {strict : Prop} {p : Fin n} {A A' : Protocol n C} {S S' : Snapshots n C}

theorem Evolves.refl (p : Fin n) (A : Protocol n C) (S : Snapshots n C) : Evolves p A S A S where
  term_le _ := le_rfl
  term_eq _ _ := rfl
  log_eq _ _ := rfl
  snap_le _ := le_rfl
  snap_eq _ _ := rfl
  vote _ _ _ := id
  bid _ _ _ _ := rfl
  led _ _ := id
  win _ _ _ := rfl
  front _ _ _ := List.prefix_refl _
  front_eq _ _ _ _ := rfl
  ack _ _ _ := id
  decided _ := id
  decided_new _ := .inl

variable (he : Evolves p A S A' S')
include he

theorem Known.mono {G : History (Option C)} {t : Nat} (h : Known A G t) : Known A' G t := by
  rcases h with rfl | ⟨D, hD, hG⟩
  · exact .inl rfl
  · exact .inr ⟨D, he.decided D hD, hG⟩

theorem KnownAt.mono {t i u : Nat} (h : KnownAt A t i u) : KnownAt A' t i u := by
  obtain ⟨G, hG, hi⟩ := h
  exact ⟨G, hG.mono he, hi⟩

theorem DecidedEntry.mono {e : LogEntry C} (h : DecidedEntry A e) : DecidedEntry A' e := by
  obtain ⟨D, hD, hi⟩ := h
  exact ⟨D, he.decided D hD, hi⟩

theorem Justified.mono {T m : Nat} {q r : Fin n} (hl : A.led r T) (h : Justified A T q m) :
    Justified A' T q m := by
  rcases h with hwin | ⟨D, hD, hm⟩ | ⟨i, hi, hack⟩
  · exact .inl (by rwa [he.win r T hl])
  · exact .inr (.inl ⟨D, he.decided D hD, hm⟩)
  · exact .inr (.inr ⟨i, hi, he.ack q T i hack⟩)

theorem Confirmed.mono {T m : Nat} {q : Fin n} (h : Confirmed A S T q m) :
    Confirmed A' S' T q m := by
  rcases h with hlt | hsnap | ⟨i, hi, hack⟩
  · exact .inl (hlt.trans_le (he.term_le q))
  · exact .inr (.inl (hsnap.trans (he.snap_le q)))
  · exact .inr (.inr ⟨i, hi, he.ack q T i hack⟩)

theorem Request.mono {args : AppendEntriesArgs n C} {H : History (Option C)} {r : Fin n}
    (hl : A.led r args.term) (h : Request A args H) : Request A' args H where
  carries := h.carries
  win := by
    rw [he.win r _ hl]
    exact h.win
  front := h.front.trans (he.front r _ hl)
  commit_le := h.commit_le
  commit := h.commit.mono he

theorem Backed.mono {caller callee : Fin n} {body : RpcBody n C}
    (h : Backed strict A S caller callee body) : Backed strict A' S' caller callee body := by
  cases body with
  | requestVote args =>
    obtain ⟨hid, hvote, hterm, hlen⟩ := h
    refine ⟨hid, he.vote _ _ _ hvote, ?_⟩
    rw [he.bid _ _ _ hvote]
    exact ⟨hterm, hlen⟩
  | requestVoteReply args reply => trivial
  | appendEntries args =>
    obtain ⟨hl, H, hH⟩ := h
    exact ⟨he.led _ _ hl, H, hH.mono he hl⟩
  | appendEntriesReply args reply =>
    intro hsucc
    obtain ⟨hl, hj, hc⟩ := h hsucc
    exact ⟨he.led _ _ hl, hj.mono he hl, fun hst => (hc hst).mono he⟩
  | installSnapshot args => exact KnownAt.mono he h
  | installSnapshotReply args reply => exact ⟨h.1.mono he, h.2.trans (he.term_le _)⟩

/-- A peer whose own part of the protocol has not changed is still represented. -/
theorem Represents.evolve {q : Fin n} {rf : Raft n C} (h : Represents strict A S q rf)
    (hterm : A'.term q = A.term q) (hlog : A'.log q = A.log q) (hsnap : S' q = S q)
    (hfront : ∀ T, A.led q T → A'.front T = A.front T)
    (hdec : ∀ D ∈ A'.decided, A.led q (lastTerm D) → D ∈ A.decided) :
    Represents strict A' S' q rf where
  term := hterm.trans h.term
  view := by
    rw [hlog, hsnap]
    exact h.view
  commit := by
    obtain ⟨K, hK, hlen, hpre, hshow⟩ := h.commit
    refine ⟨K, hK.mono he, hlen, ?_⟩
    rw [hlog, hsnap]
    exact ⟨hpre, hshow⟩
  leader hs := by
    have hl := h.leader hs
    refine ⟨he.led _ _ hl.led, ?_, ?_, ?_, ?_⟩
    · rw [hlog, hfront _ hl.led]
      exact hl.front
    · intro D hD hT
      exact hl.decided_le D (hdec D hD (hT ▸ hl.led)) hT
    · exact fun r hr => (hl.matched r hr).mono he hl.led
    · exact fun hst r hr => (hl.confirmed hst r hr).mono he
  candidate hs := by
    obtain ⟨hstood, hbid⟩ := h.candidate hs
    refine ⟨he.vote _ _ _ hstood, ?_⟩
    rw [he.bid _ _ _ hstood, hlog]
    refine hbid.imp_right fun hset => ⟨?_, hset.2⟩
    obtain ⟨D, hD, hpre⟩ := hset.1
    exact ⟨D, he.decided D hD, hpre⟩
  sends m hm := (h.sends m hm).mono he
  batch ci entries happ e hmem := (h.batch ci entries happ e hmem).mono he

/-- A peer that does not move is still represented. -/
theorem Represents.mono (hi : Inv A') {q : Fin n} (hq : q ≠ p) {rf : Raft n C}
    (h : Represents strict A S q rf) : Represents strict A' S' q rf := by
  refine h.evolve he (he.term_eq q hq) (he.log_eq q hq) (he.snap_eq q hq)
    (fun T => he.front_eq q T hq) fun D hD hl => ?_
  rcases he.decided_new D hD with hD | hp
  · exact hD
  · exact absurd (hi.led_unique q p _ (he.led _ _ hl) hp) hq

theorem RepresentsNode.mono (hi : Inv A') {q : Fin n} (hq : q ≠ p) {nd : Node n C}
    (h : RepresentsNode strict A S q nd) : RepresentsNode strict A' S' q nd where
  peer := h.peer.mono he hi hq
  received m hm := (h.received m hm).mono he

end Monotone

/-! ## The steps of the protocol as evolutions -/

section Steps

variable {p : Fin n} {A A' A'' : Protocol n C} {S S' S'' : Snapshots n C}

theorem Evolves.trans (h : Evolves p A S A' S') (h' : Evolves p A' S' A'' S'') :
    Evolves p A S A'' S'' where
  term_le q := (h.term_le q).trans (h'.term_le q)
  term_eq q hq := (h'.term_eq q hq).trans (h.term_eq q hq)
  log_eq q hq := (h'.log_eq q hq).trans (h.log_eq q hq)
  snap_le q := (h.snap_le q).trans (h'.snap_le q)
  snap_eq q hq := (h'.snap_eq q hq).trans (h.snap_eq q hq)
  vote v T q hv := h'.vote v T q (h.vote v T q hv)
  bid v T q hv := (h'.bid v T q (h.vote v T q hv)).trans (h.bid v T q hv)
  led q T hl := h'.led q T (h.led q T hl)
  win q T hl := (h'.win q T (h.led q T hl)).trans (h.win q T hl)
  front q T hl := (h.front q T hl).trans (h'.front q T (h.led q T hl))
  front_eq q T hq hl := (h'.front_eq q T hq (h.led q T hl)).trans (h.front_eq q T hq hl)
  ack v T m ha := h'.ack v T m (h.ack v T m ha)
  decided D hD := h'.decided D (h.decided D hD)
  decided_new D hD := by
    rcases h'.decided_new D hD with hD | hl
    · exact (h.decided_new D hD).imp_right (h'.led p _)
    · exact .inr hl

variable (S)

theorem Evolves.bump {t : Nat} (ht : A.term p ≤ t) : Evolves p A S (A.bump p t) S := by
  refine { Evolves.refl p A S with term_le := ?_, term_eq := ?_ }
  · intro q
    by_cases hq : q = p
    · subst hq
      simpa using ht
    · simp [hq]
  · intro q hq
    simp [hq]

theorem Evolves.stand (hi : Inv A) {T : Nat} (ht : A.term p < T) :
    Evolves p A S (A.stand p T) S := by
  have hb := Evolves.bump (A := A) S ht.le
  refine { hb with vote := fun _ _ _ => .inl, bid := ?_ }
  exact fun v S q hv => hi.stand_bid ht hv

theorem Evolves.grant (v : Fin n) (T : Nat) (q : Fin n) : Evolves p A S (A.grant v T q) S :=
  { Evolves.refl p A S with vote := fun _ _ _ => .inl }

theorem Evolves.lead {T : Nat} (hnew : ∀ q, ¬ A.led q T) : Evolves p A S (A.lead p T) S := by
  have hne : ∀ q U, A.led q U → U ≠ T := by
    rintro q U hl rfl
    exact hnew q hl
  refine { Evolves.refl p A S with
    led := fun _ _ => .inl, win := ?_, front := ?_, front_eq := ?_, decided_new := ?_ }
  · intro q U hl
    simp [hne q U hl]
  · intro q U hl
    simp [hne q U hl]
  · intro q U _ hl
    simp [hne q U hl]
  · exact fun D => .inl

theorem Evolves.append (hi : Inv A) {T : Nat} (hl : A.led p T) (command : Option C) :
    Evolves p A S (A.append p T command) S := by
  refine { Evolves.refl p A S with log_eq := ?_, front := ?_, front_eq := ?_ }
  · intro q hq
    simp [hq]
  · intro q U _
    by_cases hU : U = T
    · subst hU
      simp
    · simp [hU]
  · intro q U hq hl'
    have hU : U ≠ T := by
      rintro rfl
      exact hq (hi.led_unique q p U hl' hl)
    simp [hU]

theorem Evolves.follow (T m : Nat) (X : History (Option C)) :
    Evolves p A S (A.follow p T m X) S := by
  refine { Evolves.refl p A S with log_eq := ?_, ack := fun _ _ _ => .inl }
  intro q hq
  simp [hq]

theorem Evolves.confirm (q : Fin n) (T m : Nat) :
    Evolves p A S (A.follow q T m (A.log q)) S := by
  refine { Evolves.refl p A S with log_eq := ?_, ack := fun _ _ _ => .inl }
  intro r _
  simp

theorem Evolves.decide {E : History (Option C)} (hl : A.led p (lastTerm E)) :
    Evolves p A S (A.decide E) S := by
  refine { Evolves.refl p A S with decided := fun _ => .inr, decided_new := ?_ }
  rintro D (rfl | hD)
  · exact .inr hl
  · exact .inl hD

/-- The snapshot of `p` is replaced by a longer one. -/
theorem Evolves.snapshot {G : History (Option C)} (hle : (S p).length ≤ G.length) :
    Evolves p A S A (Function.update S p G) := by
  refine { Evolves.refl p A S with snap_le := ?_, snap_eq := ?_ }
  · intro q
    by_cases hq : q = p
    · subst hq
      simpa using hle
    · simp [hq]
  · intro q hq
    simp [hq]

theorem Evolves.install (G : History (Option C)) : Evolves p A S (A.install p G) S := by
  refine { Evolves.refl p A S with log_eq := ?_ }
  intro q hq
  simp [hq]

end Steps

/-! ## Assembling a step -/

section Assembly

variable {strict : Prop} {p : Fin n} {A A' : Protocol n C} {S S' : Snapshots n C}
variable {c c' : Cluster n C} {tr es : List (Event n C)}

/-- The commit index of a represented peer is within its log. -/
theorem Represents.commit_le_last {rf : Raft n C} (h : Represents strict A S p rf) :
    rf.commitIndex ≤ rf.getLastLog.index := by
  obtain ⟨K, _, hlen, _, hshow⟩ := h.commit
  rw [h.view.last.1, ← hlen]
  rcases hshow with rfl | hpre
  · exact h.view.le
  · exact hpre.length_le

theorem Refines.inv (h : Refines strict A S tr c) : Inv A := inv_initial.steps h.run

theorem Refines.commitsInLog (h : Refines strict A S tr c) : c.CommitsInLog :=
  fun p => (h.nodes p).peer.commit_le_last

/-- A step is simulated if the machine that moves and the new RPCs are as they should. -/
theorem Refines.next (h : Refines strict A S tr c) (he : Evolves p A S A' S')
    (hsteps : Steps A A')
    (hvotes : ∀ v T q, A'.vote v T q ↔ Voted (tr ++ es) v T q)
    (hleaders : ∀ q T, A'.led q T ↔ Led (tr ++ es) q T)
    (happlied : ∀ q b command i t, Event.received q b (.command command i t) ∈ es →
      DecidedEntry A' ⟨command, t, i⟩)
    (horder : ∀ q, InOrder (c'.nodes q)) (hnodes : ∀ q, RepresentsNode strict A' S' q (c'.nodes q))
    (hrpcs : ∀ m ∈ c'.rpcs, m ∈ c.rpcs ∨ Backed strict A' S' m.caller m.callee m.body) :
    Refines strict A' S' (tr ++ es) c' where
  run := h.run.trans hsteps
  votes := hvotes
  leaders := hleaders
  applied q b command i t hmem := by
    rcases List.mem_append.mp hmem with hmem | hmem
    · exact (h.applied q b command i t hmem).mono he
    · exact happlied q b command i t hmem
  order := horder
  nodes := hnodes
  rpcs m hm := by
    rcases hrpcs m hm with hold | hnew
    · exact (h.rpcs m hold).mono he
    · exact hnew

/-- A step without election events that changes neither votes nor leaders. -/
theorem Refines.next_quiet (h : Refines strict A S tr c) (he : Evolves p A S A' S')
    (hsteps : Steps A A')
    (hvote : A'.vote = A.vote) (hled : A'.led = A.led) (hes : ∀ e ∈ es, e.voting = false)
    (happlied : ∀ q b command i t, Event.received q b (.command command i t) ∈ es →
      DecidedEntry A' ⟨command, t, i⟩)
    (horder : ∀ q, InOrder (c'.nodes q)) (hnodes : ∀ q, RepresentsNode strict A' S' q (c'.nodes q))
    (hrpcs : ∀ m ∈ c'.rpcs, m ∈ c.rpcs ∨ Backed strict A' S' m.caller m.callee m.body) :
    Refines strict A' S' (tr ++ es) c' := by
  refine h.next he hsteps ?_ ?_ happlied horder hnodes hrpcs
  · intro v T q
    rw [hvote, h.votes, voted_append]
    exact (or_iff_left (not_voting (p := q) hes).2.1).symm
  · intro q T
    rw [hled, h.leaders, led_append]
    exact (or_iff_left (not_voting (q := q) (v := q) hes).2.2.2).symm

end Assembly

end RaftImplementation
