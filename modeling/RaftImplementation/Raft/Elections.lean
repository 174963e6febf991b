import RaftImplementation.Library.Majority
import RaftImplementation.Raft.Encoding
import RaftImplementation.Raft.Moves

/-!
# Elections

The trace of a run remembers every candidacy, every granted vote, every counted
vote and every victory. A peer votes at most once in a term, since its vote is
durable and its term never goes down; a candidate counts each of its requests at
most once, since an RPC is never duplicated; so a victory stands for a majority of
voters, and two victories in one term share a voter.
-/

namespace RaftImplementation

open Library Cluster Raft

variable {n : Nat} {C : Type}

/-! ## The trace of an election -/

/-- The event belongs to an election. -/
def Event.voting : Event n C → Bool
  | .stand .. => true
  | .grant .. => true
  | .count .. => true
  | .lead .. => true
  | _ => false

section Trace

variable (tr : List (Event n C))

def Stood (p : Fin n) (T : Nat) : Prop := ∃ lt li, Event.stand p T lt li ∈ tr

def Granted (v : Fin n) (T : Nat) (q : Fin n) : Prop := ∃ lt li, Event.grant v T q lt li ∈ tr

/-- `v` gave its vote of term `T` to `q`; a candidate votes for itself. -/
def Voted (v : Fin n) (T : Nat) (q : Fin n) : Prop := Granted tr v T q ∨ (v = q ∧ Stood tr q T)

def Counted (p : Fin n) (T : Nat) (v : Fin n) : Prop := Event.count p T v ∈ tr

def Led (p : Fin n) (T : Nat) : Prop := Event.lead p T ∈ tr

variable {tr} {es : List (Event n C)} {p q v : Fin n} {T : Nat}

theorem stood_append : Stood (tr ++ es) p T ↔ Stood tr p T ∨ Stood es p T := by
  simp only [Stood, List.mem_append, exists_or]

theorem granted_append : Granted (tr ++ es) v T q ↔ Granted tr v T q ∨ Granted es v T q := by
  simp only [Granted, List.mem_append, exists_or]

theorem voted_append : Voted (tr ++ es) v T q ↔ Voted tr v T q ∨ Voted es v T q := by
  simp only [Voted, stood_append, granted_append]
  tauto

theorem counted_append : Counted (tr ++ es) p T v ↔ Counted tr p T v ∨ Counted es p T v := by
  simp only [Counted, List.mem_append]

theorem led_append : Led (tr ++ es) p T ↔ Led tr p T ∨ Led es p T := by
  simp only [Led, List.mem_append]

/-- Events outside elections add no candidacy, vote or victory. -/
theorem not_voting (hes : ∀ e ∈ es, e.voting = false) :
    ¬ Stood es p T ∧ ¬ Voted es v T q ∧ ¬ Counted es p T v ∧ ¬ Led es p T := by
  have hno : ∀ e : Event n C, e.voting = true → e ∉ es := by
    intro e he hmem
    simp [hes e hmem] at he
  refine ⟨?_, ?_, hno _ rfl, hno _ rfl⟩
  · rintro ⟨lt, li, h⟩
    exact hno _ rfl h
  · rintro (⟨lt, li, h⟩ | ⟨_, lt, li, h⟩)
    · exact hno _ rfl h
    · exact hno _ rfl h

end Trace

/-! ## Ballots -/

/-- The candidate, term and voter of a vote RPC under way. -/
def Rpc.ballot (m : Rpc n C) : Option (Fin n × Nat × Fin n) :=
  match m.body with
  | .requestVote args => some (m.caller, args.term, m.callee)
  | .requestVoteReply args _ => some (m.caller, args.term, m.callee)
  | _ => none

def Cluster.ballots (c : Cluster n C) : List (Fin n × Nat × Fin n) := c.rpcs.filterMap Rpc.ballot

theorem filterMap_set_eq {α β : Type} {f : α → Option β} {l : List α} {k : Nat} {m x : α}
    (hm : l[k]? = some m) (h : f x = f m) : (l.set k x).filterMap f = l.filterMap f := by
  induction l generalizing k with
  | nil => simp
  | cons a l ih =>
    cases k with
    | zero =>
      simp only [List.getElem?_cons_zero, Option.some.injEq] at hm
      simp [List.filterMap_cons, hm, h]
    | succ k =>
      have := ih (by simpa using hm)
      simp [List.filterMap_cons, this]

/-- The RPCs change, but no vote is asked for or granted. -/
structure BallotsKept (rpcs rpcs' : List (Rpc n C)) : Prop where
  sublist : (rpcs'.filterMap Rpc.ballot).Sublist (rpcs.filterMap Rpc.ballot)
  requests : ∀ m ∈ rpcs', ∀ args, m.body = .requestVote args → m ∈ rpcs
  replies : ∀ m ∈ rpcs', ∀ args reply, m.body = .requestVoteReply args reply →
    reply.voteGranted = true → m ∈ rpcs

theorem BallotsKept.of_sublist {rpcs rpcs' : List (Rpc n C)} (h : rpcs'.Sublist rpcs) :
    BallotsKept rpcs rpcs' where
  sublist := h.filterMap _
  requests _ hm _ _ := h.subset hm
  replies _ hm _ _ _ _ := h.subset hm

theorem BallotsKept.refl (rpcs : List (Rpc n C)) : BallotsKept rpcs rpcs :=
  .of_sublist (List.Sublist.refl _)

theorem BallotsKept.snoc (rpcs : List (Rpc n C)) {m : Rpc n C} (h : m.ballot = none) :
    BallotsKept rpcs (rpcs ++ [m]) := by
  refine ⟨?_, ?_, ?_⟩
  · simp [List.filterMap_append, h]
  · intro x hx args hb
    rcases List.mem_append.mp hx with hx | hx
    · exact hx
    · rw [List.mem_singleton.mp hx] at hb
      simp [Rpc.ballot, hb] at h
  · intro x hx args reply hb _
    rcases List.mem_append.mp hx with hx | hx
    · exact hx
    · rw [List.mem_singleton.mp hx] at hb
      simp [Rpc.ballot, hb] at h

/-- A request is answered, but not by a vote. -/
theorem BallotsKept.answered {rpcs : List (Rpc n C)} {k : Nat} {m : Rpc n C}
    {body : RpcBody n C} (hm : rpcs[k]? = some m) (hk : (m.answered body).ballot = m.ballot)
    (hreq : ∀ args, body ≠ .requestVote args)
    (hrep : ∀ args reply, body = .requestVoteReply args reply → reply.voteGranted = false) :
    BallotsKept rpcs (rpcs.set k (m.answered body)) := by
  refine ⟨?_, ?_, ?_⟩
  · rw [filterMap_set_eq hm hk]
  · intro x hx args hb
    rcases List.mem_or_eq_of_mem_set hx with hx | rfl
    · exact hx
    · exact absurd hb (hreq args)
  · intro x hx args reply hb hg
    rcases List.mem_or_eq_of_mem_set hx with hx | rfl
    · exact hx
    · simp [hrep args reply hb] at hg

/-! ## Moves outside elections -/

/-- A peer that neither stands, votes, counts a vote nor wins. -/
inductive Calm (rf rf' : Raft n C) : Prop
  | same (ht : rf'.currentTerm = rf.currentTerm) (hv : rf'.votedFor = rf.votedFor)
      (hs : rf'.state = rf.state) (hg : rf'.grantedVotes = rf.grantedVotes)
  | yields (ht : rf'.currentTerm = rf.currentTerm) (hv : rf'.votedFor = rf.votedFor)
      (hs : rf'.state = .follower)
  | newer (ht : rf.currentTerm < rf'.currentTerm) (hs : rf'.state = .follower)

theorem Calm.refl (rf : Raft n C) : Calm rf rf := .same rfl rfl rfl rfl

theorem Calm.term_le {rf rf' : Raft n C} (h : Calm rf rf') :
    rf.currentTerm ≤ rf'.currentTerm := by
  cases h with
  | same ht => exact ht.ge
  | yields ht => exact ht.ge
  | newer ht => exact ht.le

/-- The head of `AppendEntries` and of `InstallSnapshot` is calm. -/
theorem Calm.follows {rf rf' : Raft n C} {t : Nat} {v : Option (Fin n)}
    (ht : rf.currentTerm ≤ t) (hv : v = if rf.currentTerm < t then none else rf.votedFor)
    (ht' : rf'.currentTerm = t) (hv' : rf'.votedFor = v) (hs : rf'.state = .follower) :
    Calm rf rf' := by
  by_cases hlt : rf.currentTerm < t
  · exact .newer (by omega) hs
  · rw [if_neg hlt] at hv
    exact .yields (by omega) (by rw [hv', hv]) hs

structure Quiet (c c' : Cluster n C) : Prop where
  calm : ∀ p, Calm (c.raft p) (c'.raft p)
  kept : BallotsKept c.rpcs c'.rpcs

theorem Quiet.of_node {c c' : Cluster n C} (p : Fin n)
    (hother : ∀ q, q ≠ p → c'.raft q = c.raft q) (hp : Calm (c.raft p) (c'.raft p))
    (hrpcs : BallotsKept c.rpcs c'.rpcs) : Quiet c c' := by
  refine ⟨fun q => ?_, hrpcs⟩
  by_cases hq : q = p
  · rw [hq]; exact hp
  · rw [hother q hq]; exact .refl _

theorem Quiet.setRaft {c : Cluster n C} {p : Fin n} {rf : Raft n C} {rpcs : List (Rpc n C)}
    (hp : Calm (c.raft p) rf) (hrpcs : BallotsKept c.rpcs rpcs) :
    Quiet c ((c.setRpcs rpcs).setRaft p rf) := by
  refine .of_node p (fun q hq => setRaft_raft_ne _ p rf hq) ?_ hrpcs
  rw [setRaft_raft_self]
  exact hp

/-- The moves of an election, and all others. -/
inductive Electoral (gob : Gob n C) (c : Cluster n C) : Cluster n C → List (Event n C) → Prop
  | quiet {c' : Cluster n C} {es : List (Event n C)} (hq : Quiet c c')
      (hes : ∀ e ∈ es, e.voting = false) : Electoral gob c c' es
  | stand (p : Fin n) (et : Timer) (ps : Persister) :
      Electoral gob c
        ((c.setRpcs (c.rpcs ++ c.broadcast p (.requestVote
            ⟨(c.raft p).currentTerm + 1, (c.raft p).me, (c.raft p).getLastLog.index,
              (c.raft p).getLastLog.term⟩))).setRaft p ((c.raft p).standing et ps))
        [.stand p ((c.raft p).currentTerm + 1) (c.raft p).getLastLog.term
          (c.raft p).getLastLog.index]
  | granted (k : Nat) (m : Rpc n C) (args : RequestVoteArgs n) (st : NodeState) (et : Timer)
      (ps : Persister) (hm : c.rpcs[k]? = some m) (hb : m.body = .requestVote args)
      (ht : (c.raft m.callee).currentTerm ≤ args.term)
      (hst : (c.raft m.callee).currentTerm = args.term → st = (c.raft m.callee).state)
      (hst' : (c.raft m.callee).currentTerm < args.term → st = .follower)
      (hv : (c.raft m.callee).currentTerm = args.term →
        (c.raft m.callee).votedFor = none ∨
          (c.raft m.callee).votedFor = some args.candidateId) :
      Electoral gob c
        ((c.setRpcs (c.rpcs.set k (m.answered (.requestVoteReply args ⟨args.term, true⟩)))).setRaft
          m.callee ((c.raft m.callee).granting args.term args.candidateId st et ps))
        [.grant m.callee args.term args.candidateId (c.raft m.callee).getLastLog.term
          (c.raft m.callee).getLastLog.index]
  | counted (k : Nat) (m : Rpc n C) (args : RequestVoteArgs n) (reply : RequestVoteReply)
      (hm : c.rpcs[k]? = some m) (hb : m.body = .requestVoteReply args reply)
      (ht : args.term = (c.raft m.caller).currentTerm)
      (hs : (c.raft m.caller).state = .candidate) (hg : reply.voteGranted = true) :
      Electoral gob c
        ((c.setRpcs (c.rpcs.eraseIdx k)).setRaft m.caller (c.raft m.caller).counting)
        [.count m.caller args.term m.callee]
  | won (k : Nat) (m : Rpc n C) (args : RequestVoteArgs n) (reply : RequestVoteReply)
      (et : Timer) (hm : c.rpcs[k]? = some m) (hb : m.body = .requestVoteReply args reply)
      (ht : args.term = (c.raft m.caller).currentTerm)
      (hs : (c.raft m.caller).state = .candidate) (hg : reply.voteGranted = true)
      (hmany : n / 2 < (c.raft m.caller).grantedVotes + 1) :
      Electoral gob c
        ((c.setRpcs (c.rpcs.eraseIdx k)).setRaft m.caller ((c.raft m.caller).leading et))
        [.count m.caller args.term m.callee, .lead m.caller (c.raft m.caller).currentTerm]

variable {gob : Gob n C} {c c' : Cluster n C} {es tr : List (Event n C)}

theorem Electoral.idle_rpcs {p : Fin n} {rf : Raft n C} (hp : Calm (c.raft p) rf)
    (hes : ∀ e ∈ es, e.voting = false) : Electoral gob c (c.setRaft p rf) es :=
  .quiet (Quiet.setRaft hp (.refl c.rpcs)) hes

theorem Electoral.erased {p : Fin n} {rf : Raft n C} (hp : Calm (c.raft p) rf) (k : Nat) :
    Electoral gob c ((c.setRpcs (c.rpcs.eraseIdx k)).setRaft p rf) [] :=
  .quiet (.setRaft hp (.of_sublist (List.eraseIdx_sublist ..))) (by simp)

theorem Electoral.handed {p : Fin n} {rf : Raft n C} (hp : Calm (c.raft p) rf)
    (m : ApplyMsg C) (hes : ∀ e ∈ es, e.voting = false) :
    Electoral gob c (c.handed p rf m) es := by
  refine .quiet (.of_node p (fun q hq => handed_raft_ne c p rf m hq) ?_ (.refl c.rpcs)) hes
  rw [handed_raft_self]
  exact hp

/-- A replication request is answered. -/
theorem Electoral.replied {k : Nat} {m : Rpc n C} {rf : Raft n C} {body : RpcBody n C}
    (hm : c.rpcs[k]? = some m) (hp : Calm (c.raft m.callee) rf) (hold : m.ballot = none)
    (hnew : (m.answered body).ballot = none) :
    Electoral gob c ((c.setRpcs (c.rpcs.set k (m.answered body))).setRaft m.callee rf) [] := by
  refine .quiet (.setRaft hp (.answered hm (by rw [hold, hnew]) ?_ ?_)) (by simp)
  · rintro args rfl
    simp [Rpc.ballot, Rpc.answered] at hnew
  · rintro args reply rfl
    simp [Rpc.ballot, Rpc.answered] at hnew

theorem voteHandled_electoral {k : Nat} {m : Rpc n C} {args : RequestVoteArgs n}
    {rf : Raft n C} {reply : RequestVoteReply} (hm : c.rpcs[k]? = some m)
    (hb : m.body = .requestVote args) (hh : VoteHandled gob (c.raft m.callee) args rf reply) :
    Electoral gob c
      ((c.setRpcs (c.rpcs.set k (m.answered (.requestVoteReply args reply)))).setRaft m.callee rf)
      (if reply.voteGranted then
        [.grant m.callee args.term args.candidateId (c.raft m.callee).getLastLog.term
          (c.raft m.callee).getLastLog.index] else []) := by
  have hkept : ∀ t, BallotsKept c.rpcs
      (c.rpcs.set k (m.answered (.requestVoteReply args ⟨t, false⟩))) := by
    intro t
    refine .answered hm (by simp [Rpc.ballot, Rpc.answered, hb]) (by simp) ?_
    rintro _ _ ⟨⟩
    rfl
  cases hh with
  | refused => exact .quiet (.setRaft (.refl _) (hkept _)) (by simp)
  | behind et ps ht hps => exact .quiet (.setRaft (.newer ht rfl) (hkept _)) (by simp)
  | granted st et ps ht hst hst' hv hup hps =>
    exact .granted k m args st et ps hm hb ht hst hst' hv

theorem moves_electoral {a : Action n C} (h : Moves gob c a c' es) : Electoral gob c c' es := by
  cases h with
  | timers p et tk => exact .idle_rpcs (.same rfl rfl rfl rfl) (by simp)
  | lose k => exact .quiet ⟨fun p => .refl _, .of_sublist (List.eraseIdx_sublist ..)⟩ (by simp)
  | reboot p rpcs hsub =>
    refine .quiet (.of_node p (fun q hq => ?_) ?_ (.of_sublist hsub)) (by simp [Event.voting])
    · rw [raft, restarted_nodes_ne c p rpcs hq]
    · rw [restarted_raft_self]
      exact .yields rfl rfl rfl
  | stand p et ps hps => exact .stand p et ps
  | started p command ps hs hps => exact .idle_rpcs (.same rfl rfl rfl rfl) (by simp [Event.voting])
  | asked p peer args hne ha =>
    refine .quiet ⟨fun p => .refl _, .snoc _ ?_⟩ (by simp)
    cases args with
    | install a => rfl
    | append a => rfl
  | voteHandled k m args rf reply hm hb hh => exact voteHandled_electoral hm hb hh
  | appendHandled k m args rf reply hm hb hh =>
    refine .replied hm ?_ (by simp [Rpc.ballot, hb]) rfl
    cases hh with
    | stale ht => exact .refl _
    | refused v et ps reply ht hv => exact .follows ht hv rfl rfl rfl
    | accepted v et ps ht hv => exact .follows ht hv rfl rfl rfl
  | snapshotHandled k m args rf hm hb hh =>
    refine .replied hm ?_ (by simp [Rpc.ballot, hb]) rfl
    cases hh with
    | stale ht => exact .refl _
    | ignored v et ps ht hv => exact .follows ht hv rfl rfl rfl
    | queued v et ps ht hv => exact .follows ht hv rfl rfl rfl
  | outrun k m t et ps hm ht hps => exact .erased (.newer ht rfl) k
  | counted k m args reply hm hb hboot ht hs hg hfew =>
    exact .counted k m args reply hm hb ht hs hg
  | won k m args reply et hm hb hboot ht hs hg hmany =>
    exact .won k m args reply et hm hb ht hs hg hmany
  | backedOff k m args reply i =>
    refine .erased ?_ k
    exact .same rfl rfl rfl rfl
  | matched k m args reply ci =>
    refine .erased ?_ k
    exact .same rfl rfl rfl rfl
  | recorded k m args reply =>
    refine .erased ?_ k
    exact .same rfl rfl rfl rfl
  | snapshotTaken p index data e ps => exact .idle_rpcs (.same rfl rfl rfl rfl) (by simp)
  | outdated p m => exact .quiet ⟨fun p => .refl _, .refl _⟩ (by simp [Event.voting])
  | installed p m ps => exact .idle_rpcs (.same rfl rfl rfl rfl) (by simp [Event.voting])
  | copied p spare => exact .idle_rpcs (.same rfl rfl rfl rfl) (by simp)
  | sentEntry p ci e rest =>
    refine .handed ?_ _ (by simp [Event.voting])
    exact .same rfl rfl rfl rfl
  | finished p ci => exact .idle_rpcs (.same rfl rfl rfl rfl) (by simp)
  | sentSnapshot p k m =>
    refine .handed ?_ _ (by simp [Event.voting])
    exact .same rfl rfl rfl rfl

/-! ## The invariant -/

/-- A vote is of a term its voter has reached, and of the present one if that is it;
a peer votes at most once in a term. -/
structure Votes (tr : List (Event n C)) (c : Cluster n C) : Prop where
  voted_le : ∀ v T q, Voted tr v T q → T ≤ (c.raft v).currentTerm
  voted_for : ∀ v q, Voted tr v (c.raft v).currentTerm q → (c.raft v).votedFor = some q
  functional : ∀ v T q q', Voted tr v T q → Voted tr v T q' → q = q'

/-- A vote RPC under way belongs to a candidacy, is the only one of its candidate,
term and voter, and has not been counted. -/
structure Ballots (tr : List (Event n C)) (c : Cluster n C) : Prop where
  requests : ∀ m ∈ c.rpcs, ∀ args, m.body = .requestVote args → args.candidateId = m.caller ∧
    Event.stand m.caller args.term args.lastLogTerm args.lastLogIndex ∈ tr
  replies : ∀ m ∈ c.rpcs, ∀ args reply, m.body = .requestVoteReply args reply →
    reply.voteGranted = true → Granted tr m.callee args.term m.caller
  uncounted : ∀ p T v, (p, T, v) ∈ c.ballots → Stood tr p T ∧ v ≠ p ∧ ¬ Counted tr p T v
  nodup : c.ballots.Nodup

/-- A candidate has counted real votes of other peers, and a victory stands for a
majority of voters. -/
structure Tallies (tr : List (Event n C)) (c : Cluster n C) : Prop where
  counted : ∀ p T v, Counted tr p T v → Stood tr p T ∧ v ≠ p ∧ Voted tr v T p
  candidate : ∀ p, (c.raft p).state = .candidate → Stood tr p (c.raft p).currentTerm ∧
    ¬ Led tr p (c.raft p).currentTerm ∧
    ∃ A : Finset (Fin n), (∀ v ∈ A, Counted tr p (c.raft p).currentTerm v) ∧
      (c.raft p).grantedVotes ≤ 1 + A.card
  led : ∀ p T, Led tr p T → Stood tr p T ∧ Majority fun v => Voted tr v T p
  leader : ∀ p, (c.raft p).state = .leader → Led tr p (c.raft p).currentTerm

structure Elections (tr : List (Event n C)) (c : Cluster n C) : Prop
  extends Votes tr c, Ballots tr c, Tallies tr c

theorem Stood.voted {p : Fin n} {T : Nat} (h : Stood tr p T) : Voted tr p T p := .inr ⟨rfl, h⟩

/-- Two victories in one term are one peer's. -/
theorem Elections.led_unique (he : Elections tr c) {p q : Fin n} {T : Nat} (hp : Led tr p T)
    (hq : Led tr q T) : p = q := by
  obtain ⟨v, hvp, hvq⟩ := (he.led p T hp).2.inter (he.led q T hq).2
  exact he.functional v T p q hvp hvq

theorem elections_init : Elections ([] : List (Event n C)) init where
  voted_le v T q h := by simp [Voted, Granted, Stood] at h
  voted_for v q h := by simp [Voted, Granted, Stood] at h
  functional v T q q' h := by simp [Voted, Granted, Stood] at h
  requests m hm := by simp [init] at hm
  replies m hm := by simp [init] at hm
  uncounted p T v h := by simp [Cluster.ballots, init] at h
  nodup := by simp [Cluster.ballots, init]
  counted p T v h := by simp [Counted] at h
  candidate p h := by simp [init] at h
  led p T h := by simp [Led] at h
  leader p h := by simp [init] at h

/-! ## Quiet moves -/

theorem elections_quiet (he : Elections tr c) (hq : Quiet c c')
    (hes : ∀ e ∈ es, e.voting = false) : Elections (tr ++ es) c' := by
  have hstood : ∀ p T, Stood (tr ++ es) p T ↔ Stood tr p T := fun p T => by
    rw [stood_append, or_iff_left (not_voting (v := p) (q := p) hes).1]
  have hvoted : ∀ v T q, Voted (tr ++ es) v T q ↔ Voted tr v T q := fun v T q => by
    rw [voted_append, or_iff_left (not_voting (p := v) hes).2.1]
  have hcounted : ∀ p T v, Counted (tr ++ es) p T v ↔ Counted tr p T v := fun p T v => by
    rw [counted_append, or_iff_left (not_voting (q := p) hes).2.2.1]
  have hled : ∀ p T, Led (tr ++ es) p T ↔ Led tr p T := fun p T => by
    rw [led_append, or_iff_left (not_voting (v := p) (q := p) hes).2.2.2]
  refine ⟨⟨?_, ?_, ?_⟩, ⟨?_, ?_, ?_, ?_⟩, ⟨?_, ?_, ?_, ?_⟩⟩
  · intro v T q h
    exact (he.voted_le v T q ((hvoted v T q).mp h)).trans (hq.calm v).term_le
  · intro v q h
    rw [hvoted] at h
    have hle := he.voted_le v _ q h
    cases hq.calm v with
    | same ht hv => rw [hv]; rw [ht] at h; exact he.voted_for v q h
    | yields ht hv => rw [hv]; rw [ht] at h; exact he.voted_for v q h
    | newer ht => omega
  · intro v T q q' h h'
    exact he.functional v T q q' ((hvoted v T q).mp h) ((hvoted v T q').mp h')
  · intro m hm args hb
    obtain ⟨hcand, hst⟩ := he.requests m (hq.kept.requests m hm args hb) args hb
    exact ⟨hcand, List.mem_append_left _ hst⟩
  · intro m hm args reply hb hg
    exact granted_append.mpr (.inl
      (he.replies m (hq.kept.replies m hm args reply hb hg) args reply hb hg))
  · intro p T v h
    rw [hstood, hcounted]
    exact he.uncounted p T v (hq.kept.sublist.subset h)
  · exact he.nodup.sublist hq.kept.sublist
  · intro p T v h
    rw [hstood, hvoted]
    exact he.counted p T v ((hcounted p T v).mp h)
  · intro p hs
    cases hq.calm p with
    | same ht hv hs' hg =>
      simp only [hstood, hled, hcounted, ht, hg]
      exact he.candidate p (by rw [← hs', hs])
    | yields ht hv hs' => rw [hs'] at hs; cases hs
    | newer ht hs' => rw [hs'] at hs; cases hs
  · intro p T h
    simp only [hstood, hvoted]
    exact he.led p T ((hled p T).mp h)
  · intro p hs
    rw [hled]
    cases hq.calm p with
    | same ht hv hs' => rw [ht]; exact he.leader p (by rw [← hs', hs])
    | yields ht hv hs' => rw [hs'] at hs; cases hs
    | newer ht hs' => rw [hs'] at hs; cases hs

/-! ## Candidacies -/

section Standing

variable {p q v : Fin n} {T S lt li : Nat}

theorem stood_stand : Stood (tr ++ [.stand p T lt li]) q S ↔
    Stood tr q S ∨ (q = p ∧ S = T) := by
  rw [stood_append]
  refine or_congr_right ⟨?_, ?_⟩
  · rintro ⟨lt', li', h⟩
    simp only [List.mem_singleton, Event.stand.injEq] at h
    exact ⟨h.1, h.2.1⟩
  · rintro ⟨rfl, rfl⟩
    exact ⟨lt, li, List.mem_singleton.mpr rfl⟩

theorem voted_stand : Voted (tr ++ [.stand p T lt li]) v S q ↔
    Voted tr v S q ∨ (v = p ∧ q = p ∧ S = T) := by
  have hg : ¬ Granted [(.stand p T lt li : Event n C)] v S q := by simp [Granted]
  simp only [Voted, stood_stand, granted_append, hg, or_false]
  constructor
  · rintro (h | ⟨rfl, h | ⟨rfl, rfl⟩⟩)
    · exact .inl (.inl h)
    · exact .inl (.inr ⟨rfl, h⟩)
    · exact .inr ⟨rfl, rfl, rfl⟩
  · rintro ((h | ⟨rfl, h⟩) | ⟨rfl, rfl, rfl⟩)
    · exact .inl h
    · exact .inr ⟨rfl, .inl h⟩
    · exact .inr ⟨rfl, .inr ⟨rfl, rfl⟩⟩

theorem counted_stand : Counted (tr ++ [.stand p T lt li]) q S v ↔ Counted tr q S v := by
  simp [Counted]

theorem led_stand : Led (tr ++ [.stand p T lt li]) q S ↔ Led tr q S := by
  simp [Led]

theorem broadcast_ballots (args : RequestVoteArgs n) :
    (c.broadcast p (.requestVote args)).filterMap Rpc.ballot =
      ((List.finRange n).filter (· ≠ p)).map fun q => (p, args.term, q) := by
  unfold Cluster.broadcast
  rw [List.filterMap_map, ← List.filterMap_eq_map]
  rfl

/-- The next term of a peer is one it has not voted in. -/
theorem Votes.next_unvoted (hv : Votes tr c) (hT : T = (c.raft p).currentTerm + 1) :
    ¬ Voted tr p T q := by
  intro h
  have := hv.voted_le p T q h
  omega

theorem votes_stand (hc : Sound gob c) (hv : Votes tr c) (et : Timer) (ps : Persister)
    (hT : T = (c.raft p).currentTerm + 1) (rpcs : List (Rpc n C)) :
    Votes (tr ++ [.stand p T lt li])
      ((c.setRpcs rpcs).setRaft p ((c.raft p).standing et ps)) := by
  refine ⟨?_, ?_, ?_⟩
  · intro v S q h
    rw [setRaft_raft]
    rcases voted_stand.mp h with h | ⟨rfl, rfl, rfl⟩
    · have := hv.voted_le v S q h
      split
      · rename_i hvp
        subst hvp
        simp only [standing_currentTerm]
        omega
      · exact this
    · simp only [↓reduceIte, standing_currentTerm]
      omega
  · intro v q h
    rw [setRaft_raft] at h ⊢
    by_cases hvp : v = p
    · subst hvp
      simp only [↓reduceIte, standing_currentTerm, standing_votedFor, ← hT] at h ⊢
      rcases voted_stand.mp h with h | ⟨_, hq, _⟩
      · exact absurd h (hv.next_unvoted hT)
      · rw [hc.me v, hq]
    · simp only [hvp, ↓reduceIte, setRpcs_raft] at h ⊢
      rcases voted_stand.mp h with h | ⟨hvp', _⟩
      · exact hv.voted_for v q h
      · exact absurd hvp' hvp
  · intro v S q q' h h'
    rcases voted_stand.mp h with hq | ⟨rfl, rfl, rfl⟩
    · rcases voted_stand.mp h' with hq' | ⟨rfl, rfl, rfl⟩
      · exact hv.functional v S q q' hq hq'
      · exact absurd hq (hv.next_unvoted hT)
    · rcases voted_stand.mp h' with hq' | ⟨_, rfl, _⟩
      · exact absurd hq' (hv.next_unvoted hT)
      · rfl

theorem ballots_stand (hc : Sound gob c) (he : Elections tr c) (rf : Raft n C)
    (hT : T = (c.raft p).currentTerm + 1) :
    Ballots (tr ++ [.stand p T lt li])
      ((c.setRpcs (c.rpcs ++ c.broadcast p (.requestVote
        ⟨T, (c.raft p).me, li, lt⟩))).setRaft p rf) := by
  have hpnew : ¬ Stood tr p T := fun h => he.next_unvoted hT h.voted
  refine ⟨?_, ?_, ?_, ?_⟩
  · intro m hm args hb
    rw [setRaft_rpcs, setRpcs_rpcs] at hm
    rcases List.mem_append.mp hm with hm | hm
    · obtain ⟨hcand, hst⟩ := he.requests m hm args hb
      exact ⟨hcand, List.mem_append_left _ hst⟩
    · obtain ⟨hcaller, _, _, hbody⟩ := mem_broadcast hm
      rw [hbody] at hb
      cases hb
      rw [hcaller]
      exact ⟨hc.me p, List.mem_append_right _ (List.mem_singleton.mpr rfl)⟩
  · intro m hm args reply hb hg
    rw [setRaft_rpcs, setRpcs_rpcs] at hm
    rcases List.mem_append.mp hm with hm | hm
    · exact granted_append.mpr (.inl (he.replies m hm args reply hb hg))
    · obtain ⟨_, _, _, hbody⟩ := mem_broadcast hm
      rw [hbody] at hb
      cases hb
  · intro q S v h
    rw [stood_stand, counted_stand]
    rw [Cluster.ballots, setRaft_rpcs, setRpcs_rpcs, List.filterMap_append, broadcast_ballots,
      List.mem_append] at h
    rcases h with h | h
    · obtain ⟨hst, hne, hnc⟩ := he.uncounted q S v h
      exact ⟨.inl hst, hne, hnc⟩
    · obtain ⟨r, hr, hkey⟩ := List.mem_map.mp h
      simp only [Prod.mk.injEq] at hkey
      obtain ⟨rfl, rfl, rfl⟩ := hkey
      refine ⟨.inr ⟨rfl, rfl⟩, by simpa using (List.mem_filter.mp hr).2, fun hcnt => ?_⟩
      exact hpnew (he.counted p T r hcnt).1
  · rw [Cluster.ballots, setRaft_rpcs, setRpcs_rpcs, List.filterMap_append, broadcast_ballots]
    refine List.nodup_append.mpr ⟨he.nodup, ?_, ?_⟩
    · refine List.Nodup.map ?_ ((List.nodup_finRange n).filter _)
      intro a b hab
      simpa using hab
    · rintro ⟨q, S, v⟩ hold x hx rfl
      obtain ⟨r, _, hkey⟩ := List.mem_map.mp hx
      simp only [Prod.mk.injEq] at hkey
      obtain ⟨rfl, rfl, rfl⟩ := hkey
      exact hpnew (he.uncounted p T r hold).1

theorem tallies_stand (he : Elections tr c) (et : Timer) (ps : Persister)
    (hT : T = (c.raft p).currentTerm + 1) (rpcs : List (Rpc n C)) :
    Tallies (tr ++ [.stand p T lt li])
      ((c.setRpcs rpcs).setRaft p ((c.raft p).standing et ps)) := by
  have hpnew : ¬ Stood tr p T := fun h => he.next_unvoted hT h.voted
  refine ⟨?_, ?_, ?_, ?_⟩
  · intro q S v h
    obtain ⟨hst, hne, hv⟩ := he.counted q S v (counted_stand.mp h)
    exact ⟨stood_stand.mpr (.inl hst), hne, voted_stand.mpr (.inl hv)⟩
  · intro q hs
    rw [setRaft_raft] at hs ⊢
    simp only [stood_stand, led_stand, counted_stand]
    by_cases hq : q = p
    · subst hq
      simp only [↓reduceIte, standing_currentTerm, standing_grantedVotes, ← hT]
      exact ⟨.inr ⟨trivial, trivial⟩, fun hl => hpnew (he.led q T hl).1, ∅, by simp, by simp⟩
    · simp only [hq, ↓reduceIte, setRpcs_raft] at hs ⊢
      obtain ⟨hst, hnl, A, hA, hcard⟩ := he.candidate q hs
      exact ⟨.inl hst, hnl, A, hA, hcard⟩
  · intro q S h
    obtain ⟨hst, hmaj⟩ := he.led q S (led_stand.mp h)
    exact ⟨stood_stand.mpr (.inl hst), hmaj.mono fun v hv => voted_stand.mpr (.inl hv)⟩
  · intro q hs
    rw [setRaft_raft] at hs ⊢
    rw [led_stand]
    by_cases hq : q = p
    · subst hq
      simp at hs
    · simp only [hq, ↓reduceIte, setRpcs_raft] at hs ⊢
      exact he.leader q hs

end Standing

/-! ## Granted votes -/

section Granting

variable {u v q r : Fin n} {T S lt li : Nat}

theorem voted_grant : Voted (tr ++ [.grant u T r lt li]) v S q ↔
    Voted tr v S q ∨ (v = u ∧ q = r ∧ S = T) := by
  have hs : ¬ Stood [(.grant u T r lt li : Event n C)] q S := by simp [Stood]
  have hg : Granted [(.grant u T r lt li : Event n C)] v S q ↔ v = u ∧ q = r ∧ S = T := by
    constructor
    · rintro ⟨lt', li', h⟩
      simp only [List.mem_singleton, Event.grant.injEq] at h
      exact ⟨h.1, h.2.2.1, h.2.1⟩
    · rintro ⟨rfl, rfl, rfl⟩
      exact ⟨lt, li, List.mem_singleton.mpr rfl⟩
  rw [voted_append]
  refine or_congr_right ⟨?_, fun h => .inl (hg.mpr h)⟩
  rintro (h | ⟨_, h⟩)
  · exact hg.mp h
  · exact absurd h hs

theorem stood_grant : Stood (tr ++ [.grant u T r lt li]) q S ↔ Stood tr q S := by
  simp [Stood]

theorem counted_grant : Counted (tr ++ [.grant u T r lt li]) q S v ↔ Counted tr q S v := by
  simp [Counted]

theorem led_grant : Led (tr ++ [.grant u T r lt li]) q S ↔ Led tr q S := by
  simp [Led]

variable {st : NodeState} {et : Timer} {ps : Persister}

/-- A voter that may grant its vote of term `T` to `r` has given it to nobody else. -/
theorem Votes.free_vote (hv : Votes tr c) (hT : (c.raft u).currentTerm ≤ T)
    (hfree : (c.raft u).currentTerm = T →
      (c.raft u).votedFor = none ∨ (c.raft u).votedFor = some r)
    (h : Voted tr u T q) : q = r := by
  have hle := hv.voted_le u T q h
  have heq : (c.raft u).currentTerm = T := by omega
  rw [← heq] at h
  have hq := hv.voted_for u q h
  rcases hfree heq with hn | hr
  · simp [hn] at hq
  · rw [hr] at hq
    exact (Option.some.inj hq).symm

theorem votes_grant (hv : Votes tr c) (hT : (c.raft u).currentTerm ≤ T)
    (hfree : (c.raft u).currentTerm = T →
      (c.raft u).votedFor = none ∨ (c.raft u).votedFor = some r) (rpcs : List (Rpc n C)) :
    Votes (tr ++ [.grant u T r lt li])
      ((c.setRpcs rpcs).setRaft u ((c.raft u).granting T r st et ps)) := by
  refine ⟨?_, ?_, ?_⟩
  · intro v S q h
    rw [setRaft_raft]
    rcases voted_grant.mp h with h | ⟨rfl, rfl, rfl⟩
    · have := hv.voted_le v S q h
      split
      · rename_i hvu
        subst hvu
        exact this.trans hT
      · exact this
    · simp
  · intro v q h
    rw [setRaft_raft] at h ⊢
    by_cases hvu : v = u
    · subst hvu
      simp only [↓reduceIte, granting_currentTerm, granting_votedFor] at h ⊢
      rcases voted_grant.mp h with h | ⟨_, rfl, _⟩
      · rw [hv.free_vote hT hfree h]
      · rfl
    · simp only [hvu, ↓reduceIte, setRpcs_raft] at h ⊢
      rcases voted_grant.mp h with h | ⟨hvu', _⟩
      · exact hv.voted_for v q h
      · exact absurd hvu' hvu
  · intro v S q q' h h'
    rcases voted_grant.mp h with hq | ⟨rfl, rfl, rfl⟩
    · rcases voted_grant.mp h' with hq' | ⟨rfl, rfl, rfl⟩
      · exact hv.functional v S q q' hq hq'
      · exact hv.free_vote hT hfree hq
    · rcases voted_grant.mp h' with hq' | ⟨_, rfl, _⟩
      · exact (hv.free_vote hT hfree hq').symm
      · rfl

theorem ballots_grant (hb : Ballots tr c) {k : Nat} {m : Rpc n C} {args : RequestVoteArgs n}
    {t : Nat} (hm : c.rpcs[k]? = some m) (hreq : m.body = .requestVote args) (rf : Raft n C) :
    Ballots (tr ++ [.grant m.callee args.term args.candidateId lt li])
      ((c.setRpcs (c.rpcs.set k (m.answered (.requestVoteReply args ⟨t, true⟩)))).setRaft
        m.callee rf) := by
  have hmem := List.mem_of_getElem? hm
  have hkeys : (c.rpcs.set k (m.answered (.requestVoteReply args ⟨t, true⟩))).filterMap
      Rpc.ballot = c.ballots := filterMap_set_eq hm (by simp [Rpc.ballot, Rpc.answered, hreq])
  refine ⟨?_, ?_, ?_, ?_⟩
  · intro x hx a ha
    rcases List.mem_or_eq_of_mem_set hx with hx | rfl
    · obtain ⟨hcand, hst⟩ := hb.requests x hx a ha
      exact ⟨hcand, List.mem_append_left _ hst⟩
    · simp [Rpc.answered] at ha
  · intro x hx a reply ha hg
    rcases List.mem_or_eq_of_mem_set hx with hx | rfl
    · exact granted_append.mpr (.inl (hb.replies x hx a reply ha hg))
    · simp only [Rpc.answered, RpcBody.requestVoteReply.injEq] at ha
      obtain ⟨rfl, _⟩ := ha
      refine granted_append.mpr (.inr ⟨lt, li, ?_⟩)
      rw [(hb.requests m hmem args hreq).1]
      exact List.mem_singleton.mpr rfl
  · intro q S v h
    rw [stood_grant, counted_grant]
    rw [Cluster.ballots, setRaft_rpcs, setRpcs_rpcs, hkeys] at h
    exact hb.uncounted q S v h
  · rw [Cluster.ballots, setRaft_rpcs, setRpcs_rpcs, hkeys]
    exact hb.nodup

theorem tallies_grant (ht : Tallies tr c) (hT : (c.raft u).currentTerm ≤ T)
    (hst : (c.raft u).currentTerm = T → st = (c.raft u).state)
    (hst' : (c.raft u).currentTerm < T → st = .follower) (rpcs : List (Rpc n C)) :
    Tallies (tr ++ [.grant u T r lt li])
      ((c.setRpcs rpcs).setRaft u ((c.raft u).granting T r st et ps)) := by
  have hkeep : st ≠ .follower → (c.raft u).currentTerm = T ∧ st = (c.raft u).state := by
    intro hne
    by_cases hlt : (c.raft u).currentTerm < T
    · exact absurd (hst' hlt) hne
    · exact ⟨by omega, hst (by omega)⟩
  refine ⟨?_, ?_, ?_, ?_⟩
  · intro q S v h
    obtain ⟨hs, hne, hv⟩ := ht.counted q S v (counted_grant.mp h)
    exact ⟨stood_grant.mpr hs, hne, voted_grant.mpr (.inl hv)⟩
  · intro q hs
    rw [setRaft_raft] at hs ⊢
    simp only [stood_grant, led_grant, counted_grant]
    by_cases hq : q = u
    · subst hq
      simp only [↓reduceIte, granting_currentTerm, granting_state, granting_grantedVotes]
        at hs ⊢
      obtain ⟨hteq, hseq⟩ := hkeep (by simp [hs])
      rw [← hteq]
      exact ht.candidate q (by rw [← hseq, hs])
    · simp only [hq, ↓reduceIte, setRpcs_raft] at hs ⊢
      exact ht.candidate q hs
  · intro q S h
    obtain ⟨hs, hmaj⟩ := ht.led q S (led_grant.mp h)
    exact ⟨stood_grant.mpr hs, hmaj.mono fun v hv => voted_grant.mpr (.inl hv)⟩
  · intro q hs
    rw [setRaft_raft] at hs ⊢
    rw [led_grant]
    by_cases hq : q = u
    · subst hq
      simp only [↓reduceIte, granting_currentTerm, granting_state] at hs ⊢
      obtain ⟨hteq, hseq⟩ := hkeep (by simp [hs])
      rw [← hteq]
      exact ht.leader q (by rw [← hseq, hs])
    · simp only [hq, ↓reduceIte, setRpcs_raft] at hs ⊢
      exact ht.leader q hs

end Granting

/-! ## Counted votes and victories -/

/-- What one element contributes once is gone when the element is. -/
theorem not_mem_filterMap_eraseIdx {α β : Type} {f : α → Option β} {l : List α} {k : Nat}
    {m : α} {b : β} (hl : (l.filterMap f).Nodup) (hm : l[k]? = some m) (hb : f m = some b) :
    b ∉ (l.eraseIdx k).filterMap f := by
  obtain ⟨hk, rfl⟩ := List.getElem?_eq_some_iff.mp hm
  rw [List.eraseIdx_eq_take_drop_succ, List.filterMap_append]
  rw [← List.take_append_drop k l, List.drop_eq_getElem_cons hk, List.filterMap_append,
    List.filterMap_cons_some hb, List.nodup_append, List.nodup_cons] at hl
  obtain ⟨_, ⟨hnot, _⟩, hdisj⟩ := hl
  rw [List.mem_append, not_or]
  exact ⟨fun h => hdisj b h b List.mem_cons_self rfl, hnot⟩

section Counting

variable {p q u v : Fin n} {T S : Nat}

theorem stood_count : Stood (tr ++ [.count p T u]) q S ↔ Stood tr q S := by
  simp [Stood]

theorem voted_count : Voted (tr ++ [.count p T u]) v S q ↔ Voted tr v S q := by
  simp [Voted, Granted, Stood]

theorem counted_count : Counted (tr ++ [.count p T u]) q S v ↔
    Counted tr q S v ∨ (q = p ∧ S = T ∧ v = u) := by
  simp [Counted]

theorem led_count : Led (tr ++ [.count p T u]) q S ↔ Led tr q S := by
  simp [Led]

/-- The ballot of a vote reply that is about to be counted. -/
theorem Ballots.of_reply (hb : Ballots tr c) {k : Nat} {m : Rpc n C}
    {args : RequestVoteArgs n} {reply : RequestVoteReply} (hm : c.rpcs[k]? = some m)
    (hrep : m.body = .requestVoteReply args reply) :
    Stood tr m.caller args.term ∧ m.callee ≠ m.caller ∧
      ¬ Counted tr m.caller args.term m.callee := by
  refine hb.uncounted _ _ _ (List.mem_filterMap.mpr ⟨m, List.mem_of_getElem? hm, ?_⟩)
  simp [Rpc.ballot, hrep]

/-- Where nobody votes and no term changes, the votes stay what they are. -/
theorem Votes.congr {tr' : List (Event n C)} (hv : Votes tr c)
    (hvoted : ∀ v S q, Voted tr' v S q ↔ Voted tr v S q)
    (hterm : ∀ q, (c'.raft q).currentTerm = (c.raft q).currentTerm)
    (hfor : ∀ q, (c'.raft q).votedFor = (c.raft q).votedFor) : Votes tr' c' := by
  refine ⟨?_, ?_, ?_⟩
  · intro v S q h
    rw [hterm]
    exact hv.voted_le v S q ((hvoted v S q).mp h)
  · intro v q h
    rw [hterm, hvoted] at h
    rw [hfor]
    exact hv.voted_for v q h
  · intro v S q q' h h'
    exact hv.functional v S q q' ((hvoted v S q).mp h) ((hvoted v S q').mp h')

/-- The reply that is counted is the only ballot of its voter. -/
theorem ballots_count (hb : Ballots tr c) {k : Nat} {m : Rpc n C} {args : RequestVoteArgs n}
    {reply : RequestVoteReply} (hm : c.rpcs[k]? = some m)
    (hrep : m.body = .requestVoteReply args reply) (hrpcs : c'.rpcs = c.rpcs.eraseIdx k) :
    Ballots (tr ++ [.count m.caller args.term m.callee]) c' := by
  have hsub : c'.rpcs.Sublist c.rpcs := hrpcs ▸ List.eraseIdx_sublist ..
  refine ⟨?_, ?_, ?_, hb.nodup.sublist (hsub.filterMap _)⟩
  · intro x hx a ha
    obtain ⟨hcand, hst⟩ := hb.requests x (hsub.subset hx) a ha
    exact ⟨hcand, List.mem_append_left _ hst⟩
  · intro x hx a r ha hr
    exact granted_append.mpr (.inl (hb.replies x (hsub.subset hx) a r ha hr))
  · intro q S v h
    obtain ⟨hst, hvq, hnc⟩ := hb.uncounted q S v ((hsub.filterMap _).subset h)
    rw [stood_count, counted_count, not_or]
    refine ⟨hst, hvq, hnc, ?_⟩
    rintro ⟨rfl, rfl, rfl⟩
    rw [Cluster.ballots, hrpcs] at h
    exact not_mem_filterMap_eraseIdx hb.nodup hm (by simp [Rpc.ballot, hrep]) h

/-- A vote that was not counted before adds a voter. -/
theorem tallies_count (he : Elections tr c) {k : Nat} {m : Rpc n C} {args : RequestVoteArgs n}
    {reply : RequestVoteReply} (hm : c.rpcs[k]? = some m)
    (hrep : m.body = .requestVoteReply args reply)
    (hT : args.term = (c.raft m.caller).currentTerm)
    (hs : (c.raft m.caller).state = .candidate) (hg : reply.voteGranted = true)
    (hsame : ∀ q, c'.raft q = if q = m.caller then (c.raft m.caller).counting else c.raft q) :
    Tallies (tr ++ [.count m.caller args.term m.callee]) c' := by
  obtain ⟨hstood, hne, hunc⟩ := he.toBallots.of_reply hm hrep
  refine ⟨?_, ?_, ?_, ?_⟩
  · intro q S v h
    rw [stood_count, voted_count]
    rcases counted_count.mp h with h | ⟨rfl, rfl, rfl⟩
    · exact he.counted q S v h
    · exact ⟨hstood, hne, .inl (he.replies m (List.mem_of_getElem? hm) args reply hrep hg)⟩
  · intro q hq
    rw [hsame] at hq ⊢
    simp only [stood_count, led_count, counted_count]
    by_cases hqc : q = m.caller
    · subst hqc
      simp only [↓reduceIte, counting_currentTerm, counting_grantedVotes]
      obtain ⟨hst, hnl, A, hA, hcard⟩ := he.candidate m.caller hs
      have hnew : m.callee ∉ A := fun h => hunc (hT ▸ hA _ h)
      refine ⟨hst, hnl, insert m.callee A, ?_, ?_⟩
      · intro v hv
        rcases Finset.mem_insert.mp hv with rfl | hv
        · exact .inr ⟨trivial, hT.symm, rfl⟩
        · exact .inl (hA v hv)
      · rw [Finset.card_insert_of_notMem hnew]
        omega
    · simp only [hqc, ↓reduceIte] at hq ⊢
      obtain ⟨hst, hnl, A, hA, hcard⟩ := he.candidate q hq
      exact ⟨hst, hnl, A, fun v hv => .inl (hA v hv), hcard⟩
  · intro q S h
    obtain ⟨hst, hmaj⟩ := he.led q S (led_count.mp h)
    exact ⟨stood_count.mpr hst, hmaj.mono fun v hv => voted_count.mpr hv⟩
  · intro q hq
    rw [hsame] at hq ⊢
    rw [led_count]
    by_cases hqc : q = m.caller
    · simp [hqc, hs] at hq
    · simp only [hqc, ↓reduceIte] at hq ⊢
      exact he.leader q hq

theorem elections_count (he : Elections tr c) {k : Nat} {m : Rpc n C}
    {args : RequestVoteArgs n} {reply : RequestVoteReply} (hm : c.rpcs[k]? = some m)
    (hrep : m.body = .requestVoteReply args reply)
    (hT : args.term = (c.raft m.caller).currentTerm)
    (hs : (c.raft m.caller).state = .candidate) (hg : reply.voteGranted = true) :
    Elections (tr ++ [.count m.caller args.term m.callee])
      ((c.setRpcs (c.rpcs.eraseIdx k)).setRaft m.caller (c.raft m.caller).counting) := by
  refine ⟨he.toVotes.congr (fun _ _ _ => voted_count) ?_ ?_, ballots_count he.toBallots hm hrep rfl,
    tallies_count he hm hrep hT hs hg fun q => setRaft_raft ..⟩
  · exact setRaft_rel (R := fun rf rf' => rf'.currentTerm = rf.currentTerm) (fun _ => rfl) rfl
  · exact setRaft_rel (R := fun rf rf' => rf'.votedFor = rf.votedFor) (fun _ => rfl) rfl

/-- A candidate with enough votes has a majority behind it. -/
theorem Tallies.majority (ht : Tallies tr c) (hs : (c.raft p).state = .candidate)
    (hmany : n / 2 < (c.raft p).grantedVotes) :
    Majority fun v => Voted tr v (c.raft p).currentTerm p := by
  obtain ⟨hst, _, A, hA, hcard⟩ := ht.candidate p hs
  have hp : p ∉ A := fun h => (ht.counted _ _ _ (hA p h)).2.1 rfl
  refine ⟨insert p A, ?_, ?_⟩
  · intro v hv
    rcases Finset.mem_insert.mp hv with rfl | hv
    · exact hst.voted
    · exact (ht.counted _ _ _ (hA v hv)).2.2
  · rw [Finset.card_insert_of_notMem hp, Fintype.card_fin]
    omega

theorem stood_lead : Stood (tr ++ [.lead p T]) q S ↔ Stood tr q S := by
  simp [Stood]

theorem voted_lead : Voted (tr ++ [.lead p T]) v S q ↔ Voted tr v S q := by
  simp [Voted, Granted, Stood]

theorem counted_lead : Counted (tr ++ [.lead p T]) q S v ↔ Counted tr q S v := by
  simp [Counted]

theorem led_lead : Led (tr ++ [.lead p T]) q S ↔ Led tr q S ∨ (q = p ∧ S = T) := by
  simp [Led]

theorem ballots_lead (hb : Ballots tr c) (hrpcs : c'.rpcs = c.rpcs) :
    Ballots (tr ++ [.lead p T]) c' := by
  refine ⟨?_, ?_, ?_, ?_⟩
  · intro x hx a ha
    obtain ⟨hcand, hst⟩ := hb.requests x (hrpcs ▸ hx) a ha
    exact ⟨hcand, List.mem_append_left _ hst⟩
  · intro x hx a r ha hr
    exact granted_append.mpr (.inl (hb.replies x (hrpcs ▸ hx) a r ha hr))
  · intro q S v h
    rw [stood_lead, counted_lead]
    rw [Cluster.ballots, hrpcs] at h
    exact hb.uncounted q S v h
  · rw [Cluster.ballots, hrpcs]
    exact hb.nodup

/-- The new leader has a majority; nobody else's role changes. -/
theorem tallies_lead (ht : Tallies tr c) (hs : (c.raft p).state = .candidate)
    (hmany : n / 2 < (c.raft p).grantedVotes) (hs' : (c'.raft p).state = .leader)
    (hterm : ∀ q, (c'.raft q).currentTerm = (c.raft q).currentTerm)
    (hother : ∀ q, q ≠ p → c'.raft q = c.raft q) :
    Tallies (tr ++ [.lead p (c.raft p).currentTerm]) c' := by
  refine ⟨?_, ?_, ?_, ?_⟩
  · intro q S v h
    rw [stood_lead, voted_lead]
    exact ht.counted q S v (counted_lead.mp h)
  · intro q hq
    simp only [stood_lead, led_lead, counted_lead]
    by_cases hqp : q = p
    · rw [hqp, hs'] at hq
      cases hq
    · rw [hother q hqp] at hq ⊢
      obtain ⟨hst, hnl, hA⟩ := ht.candidate q hq
      exact ⟨hst, fun h => h.elim hnl fun h => hqp h.1, hA⟩
  · intro q S h
    simp only [stood_lead, voted_lead]
    rcases led_lead.mp h with h | ⟨rfl, rfl⟩
    · exact ht.led q S h
    · exact ⟨(ht.candidate q hs).1, ht.majority hs hmany⟩
  · intro q hq
    rw [led_lead, hterm]
    by_cases hqp : q = p
    · exact .inr ⟨hqp, by rw [hqp]⟩
    · rw [hother q hqp] at hq
      exact .inl (ht.leader q hq)

theorem elections_lead (he : Elections tr c) (et : Timer)
    (hs : (c.raft p).state = .candidate) (hmany : n / 2 < (c.raft p).grantedVotes) :
    Elections (tr ++ [.lead p (c.raft p).currentTerm])
      (c.setRaft p { c.raft p with state := .leader, electionTimer := et }) := by
  have hterm : ∀ q, ((c.setRaft p { c.raft p with state := .leader, electionTimer := et }).raft
      q).currentTerm = (c.raft q).currentTerm :=
    setRaft_rel (R := fun rf rf' => rf'.currentTerm = rf.currentTerm) (fun _ => rfl) rfl
  refine ⟨he.toVotes.congr (fun _ _ _ => voted_lead) hterm ?_, ballots_lead he.toBallots rfl,
    tallies_lead he.toTallies hs hmany ?_ hterm fun q hq => setRaft_raft_ne _ _ _ hq⟩
  · exact setRaft_rel (R := fun rf rf' => rf'.votedFor = rf.votedFor) (fun _ => rfl) rfl
  · rw [setRaft_raft_self]

end Counting

theorem elections_electoral (hc : Sound gob c) (he : Elections tr c)
    (h : Electoral gob c c' es) : Elections (tr ++ es) c' := by
  cases h with
  | quiet hq hes => exact elections_quiet he hq hes
  | stand p et ps =>
    exact ⟨votes_stand hc he.toVotes et ps rfl _, ballots_stand hc he _ rfl,
      tallies_stand he et ps rfl _⟩
  | granted k m args st et ps hm hb ht hst hst' hv =>
    exact ⟨votes_grant he.toVotes ht hv _, ballots_grant he.toBallots hm hb _,
      tallies_grant he.toTallies ht hst hst' _⟩
  | counted k m args reply hm hb ht hs hg => exact elections_count he hm hb ht hs hg
  | won k m args reply et hm hb ht hs hg hmany =>
    have hcount := elections_count he hm hb ht hs hg
    have hlead := elections_lead hcount (p := m.caller) et (by simpa using hs)
      (by simpa using hmany)
    rw [List.append_assoc, setRaft_setRaft, setRaft_raft_self] at hlead
    exact hlead

/-- The election invariant holds along every run. -/
theorem elections_run {ok : Cluster n C → Action n C → Prop} (h : RunWhere gob ok tr c) :
    Elections tr c :=
  h.invariant (fun tr c => Elections tr c) elections_init
    fun _ _ _ _ _ hc he _ _ hm => elections_electoral hc he (moves_electoral hm)

/-- The peer that the action, if it is taken, makes leader. -/
def Cluster.winner (c : Cluster n C) : Action n C → Option (Fin n)
  | .deliver k =>
    match c.rpcs[k]? with
    | some m =>
      match m.body with
      | .requestVoteReply args reply =>
        let rf := c.raft m.caller
        if (c.nodes m.caller).boot = m.boot ∧ args.term = rf.currentTerm ∧
            rf.state = .candidate ∧ reply.voteGranted = true ∧ n / 2 < rf.grantedVotes + 1 then
          some m.caller
        else none
      | _ => none
    | none => none
  | _ => none

theorem winner_eq {k : Nat} {m : Rpc n C} {args : RequestVoteArgs n} {reply : RequestVoteReply}
    (hm : c.rpcs[k]? = some m) (hb : m.body = .requestVoteReply args reply)
    (hboot : (c.nodes m.caller).boot = m.boot) (ht : args.term = (c.raft m.caller).currentTerm)
    (hs : (c.raft m.caller).state = .candidate) (hg : reply.voteGranted = true)
    (hmany : n / 2 < (c.raft m.caller).grantedVotes + 1) :
    c.winner (.deliver k) = some m.caller := by
  simp only [Cluster.winner, hm, hb]
  rw [if_pos ⟨hboot, ht, hs, hg, hmany⟩]

/-! ## Leaderships -/

/-- A leader after the move was leader of the same term before it, and its log has not
become shorter. -/
def Leads (rf rf' : Raft n C) : Prop :=
  rf'.state = .leader → rf.state = .leader ∧ rf'.currentTerm = rf.currentTerm ∧
    rf.getLastLog.index ≤ rf'.getLastLog.index

theorem Leads.of_logs {rf rf' : Raft n C} (hs : rf'.state = rf.state)
    (ht : rf'.currentTerm = rf.currentTerm) (hl : rf'.logs = rf.logs) : Leads rf rf' := by
  intro hlead
  refine ⟨hs ▸ hlead, ht, ?_⟩
  unfold getLastLog
  rw [hl]

theorem Leads.refl (rf : Raft n C) : Leads rf rf := .of_logs rfl rfl rfl

theorem Leads.of_not {rf rf' : Raft n C} (hs : rf'.state ≠ .leader) : Leads rf rf' :=
  fun h => absurd h hs

theorem Leads.cut {rf rf' : Raft n C} (hw : rf.WellFormed) {t i : Nat}
    (hf : rf.getFirstLog.index ≤ i) (hl : rf'.logs = rf.cutLogs t i)
    (hs : rf'.state = rf.state) (ht : rf'.currentTerm = rf.currentTerm) : Leads rf rf' := by
  intro hlead
  refine ⟨hs ▸ hlead, ht, ?_⟩
  rw [show rf'.getLastLog.index = lastIndex rf'.logs from rfl, hl, cutLogs_lastIndex hw hf]
  exact le_max_right ..

/-- The step in which `p` becomes leader. -/
structure Elected (c : Cluster n C) (a : Action n C) (c' : Cluster n C) (es : List (Event n C))
    (p : Fin n) : Prop where
  winner : c.winner a = some p
  candidate : (c.raft p).state = .candidate
  eq : ∃ et, c'.raft p = (c.raft p).leading et
  led : Led es p (c.raft p).currentTerm

/-- A move keeps a leadership, ends it, or begins one by a won election. -/
theorem moves_leads (hc : Sound gob c) {a : Action n C} (h : Moves gob c a c' es) (q : Fin n) :
    Leads (c.raft q) (c'.raft q) ∨ Elected c a c' es q := by
  cases h with
  | won k m args reply et hm hb hboot ht hs hg hmany =>
    by_cases hq : q = m.caller
    · subst hq
      exact .inr ⟨winner_eq hm hb hboot ht hs hg hmany, hs, ⟨et, setRaft_raft_self ..⟩,
        List.mem_cons_of_mem _ List.mem_cons_self⟩
    · rw [setRaft_raft_ne _ _ _ hq]
      exact .inl (.refl _)
  | timers p et tk =>
    refine .inl (setRaft_rel Leads.refl ?_ q)
    exact .of_logs rfl rfl rfl
  | lose k => exact .inl (.refl _)
  | reboot p rpcs hsub =>
    refine .inl (restarted_rel Leads.refl ?_ q)
    exact .of_not (by simp)
  | stand p et ps hps =>
    refine .inl (setRaft_rel Leads.refl ?_ q)
    exact .of_not (by simp)
  | started p command ps hs hps =>
    refine .inl (setRaft_rel Leads.refl ?_ q)
    exact fun _ => ⟨hs, rfl, by simp [getLastLog, newEntry]⟩
  | asked p peer args hne ha => exact .inl (.refl _)
  | voteHandled k m args rf reply hm hb hh =>
    refine .inl (setRaft_rel Leads.refl ?_ q)
    cases hh with
    | refused => exact .refl _
    | behind et ps ht hps => exact .of_not (by simp)
    | granted st et ps ht hst hst' hv hup hps =>
      rcases Nat.lt_or_eq_of_le ht with hlt | heq
      · exact .of_not (by simp [hst' hlt])
      · exact .of_logs (hst heq) heq.symm rfl
  | appendHandled k m args rf reply hm hb hh =>
    refine .inl (setRaft_rel Leads.refl ?_ q)
    cases hh with
    | stale ht => exact .refl _
    | refused v et ps reply ht hv => exact .of_not (by simp)
    | accepted v et ps ht hv => exact .of_not (by simp)
  | snapshotHandled k m args rf hm hb hh =>
    refine .inl (setRaft_rel Leads.refl ?_ q)
    cases hh with
    | stale ht => exact .refl _
    | ignored v et ps ht hv => exact .of_not (by simp)
    | queued v et ps ht hv => exact .of_not (by simp)
  | outrun k m t et ps =>
    refine .inl (setRaft_rel Leads.refl ?_ q)
    exact .of_not (by simp)
  | counted k m args reply =>
    refine .inl (setRaft_rel Leads.refl ?_ q)
    exact .of_logs rfl rfl rfl
  | backedOff k m args reply i =>
    refine .inl (setRaft_rel Leads.refl ?_ q)
    exact .of_logs rfl rfl rfl
  | matched k m args reply ci =>
    refine .inl (setRaft_rel Leads.refl ?_ q)
    exact .of_logs rfl rfl rfl
  | recorded k m args reply =>
    refine .inl (setRaft_rel Leads.refl ?_ q)
    exact .of_logs rfl rfl rfl
  | snapshotTaken p index data e ps hrec hf =>
    refine .inl (setRaft_rel Leads.refl ?_ q)
    exact .cut (hc.wellFormed p) hf.le rfl rfl rfl
  | outdated p m => exact .inl (.refl _)
  | installed p m ps hrec hci hf =>
    refine .inl (setRaft_rel Leads.refl ?_ q)
    exact .cut (hc.wellFormed p) hf rfl rfl rfl
  | copied p spare =>
    refine .inl (setRaft_rel Leads.refl ?_ q)
    exact .of_logs rfl rfl rfl
  | sentEntry p ci e rest =>
    refine .inl (handed_rel Leads.refl ?_ q)
    exact .of_logs rfl rfl rfl
  | finished p ci =>
    refine .inl (setRaft_rel Leads.refl ?_ q)
    exact .of_logs rfl rfl rfl
  | sentSnapshot p k m =>
    refine .inl (handed_rel Leads.refl ?_ q)
    exact .of_logs rfl rfl rfl

/-! ## Election safety -/

/-- In the step from `c` to `c'`, `p` becomes leader of term `T`. -/
def BecomesLeader (gob : Gob n C) (c c' : Cluster n C) (p : Fin n) (T : Nat) : Prop :=
  (∃ a es, c.step gob a = some (c', es)) ∧ (c.raft p).state ≠ .leader ∧
    (c'.raft p).state = .leader ∧ (c'.raft p).currentTerm = T

/-- The step in which `p` wins its election with the vote of `u`. -/
structure Victory (c c' : Cluster n C) (es : List (Event n C)) (p u : Fin n) : Prop where
  events : es = [.count p (c.raft p).currentTerm u, .lead p (c.raft p).currentTerm]
  candidate : (c.raft p).state = .candidate
  term : (c'.raft p).currentTerm = (c.raft p).currentTerm
  votes : (c'.raft p).grantedVotes = (c.raft p).grantedVotes + 1
  many : n / 2 < (c.raft p).grantedVotes + 1

theorem Electoral.victory {p : Fin n} (h : Electoral gob c c' es)
    (hs : (c.raft p).state ≠ .leader) (hs' : (c'.raft p).state = .leader) :
    ∃ u, Victory c c' es p u := by
  cases h with
  | won k m args reply et hm hb hterm hcand hg hmany =>
    by_cases hp : p = m.caller
    · subst hp
      refine ⟨m.callee, ?_⟩
      constructor
      · rw [hterm]
      · exact hcand
      · rw [setRaft_raft_self]
        rfl
      · rw [setRaft_raft_self]
        rfl
      · exact hmany
    · rw [setRaft_raft_ne _ m.caller _ hp] at hs'
      exact absurd hs' hs
  | quiet hq hes =>
    cases hq.calm p with
    | same hterm hv hst => exact absurd (hst ▸ hs') hs
    | yields hterm hv hst => simp [hst] at hs'
    | newer hterm hst => simp [hst] at hs'
  | stand q et ps =>
    rw [setRaft_raft] at hs'
    split at hs'
    · simp at hs'
    · exact absurd hs' hs
  | granted k m args st et ps hm hb hterm hst hst' hv =>
    rw [setRaft_raft] at hs'
    split at hs'
    · rename_i hp
      subst hp
      cases Nat.lt_or_eq_of_le hterm with
      | inl hlt => simp [hst' hlt] at hs'
      | inr heq => exact absurd (hst heq ▸ hs') hs
    · exact absurd hs' hs
  | counted k m args reply hm hb hterm hcand hg =>
    rw [setRaft_raft] at hs'
    split at hs'
    · simp [hcand] at hs'
    · exact absurd hs' hs

theorem Victory.led {p u : Fin n} (h : Victory c c' es p u) :
    Led es p (c.raft p).currentTerm := by
  rw [h.events]
  exact List.mem_cons_of_mem _ List.mem_cons_self

/-- No two peers are ever leaders of one term, be it at different moments, and no peer
becomes leader of a term twice. -/
theorem election_safety (gob : Gob n C) :
    (∀ tr c tr' c', ClusterRun gob tr c → Run (Cluster.step gob) always c tr' c' →
      ∀ p q, (c.raft p).state = .leader → (c'.raft q).state = .leader →
        (c.raft p).currentTerm = (c'.raft q).currentTerm → p = q) ∧
    (∀ tr c c₁ tr' c₂ c₃ p T, ClusterRun gob tr c → BecomesLeader gob c c₁ p T →
      Run (Cluster.step gob) always c₁ tr' c₂ → ¬ BecomesLeader gob c₂ c₃ p T) := by
  constructor
  · intro tr c tr' c' h h' p q hp hq hT
    have hled := (elections_run h).leader p hp
    have he := elections_run (h.trans h')
    rw [hT] at hled
    exact he.led_unique (led_append.mpr (.inl hled)) (he.leader q hq)
  · rintro tr c c₁ tr' c₂ c₃ p T h ⟨⟨a, es, hstep⟩, hs, hs', hT⟩ h' ⟨⟨a', es', hstep'⟩, hr, hr', hT'⟩
    obtain ⟨u, hv⟩ := (moves_electoral (step_moves (sound_run h) hstep)).victory hs hs'
    have h₂ := (h.snoc trivial hstep).trans h'
    obtain ⟨u', hv'⟩ := (moves_electoral (step_moves (sound_run h₂) hstep')).victory hr hr'
    have heq : (c.raft p).currentTerm = (c₂.raft p).currentTerm := by
      rw [← hv.term, hT, ← hv'.term, hT']
    refine ((elections_run h₂).candidate p hv'.candidate).2.1 ?_
    rw [led_append, led_append, ← heq]
    exact .inl (.inr hv.led)

/-- Peer 0 times out and has the vote of peer 1 on its way. -/
def pollOfThree : List (Action 3 Nat) := Action.timeout 0 ++ [.deliver 0]

/-- The state `as` leads to after the poll. -/
def afterPoll (as : List (Action 3 Nat)) : Cluster 3 Nat :=
  (ran (natGob 3) always (pollOfThree ++ as)).1

/-- Peer 0 wins and, later in its leadership, appends an entry. -/
theorem election_safety_of_three :
    BecomesLeader (natGob 3) (afterPoll []) (afterPoll [.deliver 0]) 0 1 ∧
      ((afterPoll [.deliver 0, .start 0 (some 7)]).raft 0).state = .leader ∧
      (∀ q, ((afterPoll [.deliver 0, .start 0 (some 7)]).raft q).state = .leader →
        ((afterPoll [.deliver 0]).raft 0).currentTerm =
          ((afterPoll [.deliver 0, .start 0 (some 7)]).raft q).currentTerm → 0 = q) ∧
      ∀ c, ¬ BecomesLeader (natGob 3) (afterPoll [.deliver 0, .start 0 (some 7)]) c 0 1 := by
  have hrun : ClusterRun (natGob 3) (ran (natGob 3) always (pollOfThree ++ [])).2
      (afterPoll []) := reached_run (by decide +kernel)
  have hwon : (afterPoll []).step (natGob 3) (.deliver 0) =
      some (afterPoll [.deliver 0], [.count 0 1 1, .lead 0 1]) := by rfl
  have hwin : BecomesLeader (natGob 3) (afterPoll []) (afterPoll [.deliver 0]) 0 1 :=
    ⟨⟨_, _, hwon⟩, by decide +kernel, by decide +kernel, by decide +kernel⟩
  have hlater : Run (Cluster.step (natGob 3)) always (afterPoll [.deliver 0])
      [.started 0 1 1 (some 7)] (afterPoll [.deliver 0, .start 0 (some 7)]) :=
    .single (a := Action.start 0 (some 7)) trivial (by rfl)
  refine ⟨hwin, by decide +kernel, fun q hq hT => ?_, fun c => ?_⟩
  · exact (election_safety (natGob 3)).1 _ _ _ _ (hrun.snoc trivial hwon) hlater 0 q
      (by decide +kernel) hq hT
  · exact (election_safety (natGob 3)).2 _ _ _ _ _ c 0 1 hrun hwin hlater

end RaftImplementation
