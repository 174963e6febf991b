import Mathlib.Data.List.Chain
import RaftImplementation.Raft.Sections
import RaftImplementation.Raft.Durability

/-!
# What a leader records of its peers

`matchIndex` is written in three places: `Start` notes the leader's own new entry,
and the reply of an `AppendEntries` or an `InstallSnapshot` notes how far its
request reached. Each writes what belongs to its own request, whatever is recorded
already. So during a leadership the record of a peer is what the leader was told
last about it, and it is monotone exactly when what it is told, reply after reply
and `Start` after `Start`, goes up.
-/

namespace RaftImplementation

open Library Cluster Raft

variable {n : Nat} {C : Type}

/-- How far a reply tells a leader of term `T` that the answering peer agrees with it:
up to the last entry of an accepted `AppendEntries`, or up to the end of an installed
snapshot. A reply that refuses, or that belongs to another term, tells nothing. -/
def Rpc.reaches (T : Nat) (m : Rpc n C) : Option Nat :=
  match m.body with
  | .appendEntriesReply args reply =>
    if args.term = T ∧ reply.success then some (args.prevLogIndex + args.entries.length) else none
  | .installSnapshotReply args reply =>
    if args.term = T ∧ reply.term ≤ T then some args.lastIncludedIndex else none
  | _ => none

/-- What the RPC `m` tells the leader `p` of term `T` about `q`: it answers a call that
this boot of `p` made to `q`. -/
def Cluster.heard (c : Cluster n C) (p : Fin n) (T : Nat) (q : Fin n) (m : Rpc n C) :
    Option Nat :=
  if m.caller = p ∧ m.boot = (c.nodes p).boot ∧ m.callee = q then m.reaches T else none

/-- How far peer `q` agrees with the leader `p` of term `T`, by what the step `r` tells
`p`: a reply of `q`, or a `Start` call on `p` itself, which returned the index of the
new entry. -/
def learned (p : Fin n) (T : Nat) (q : Fin n)
    (r : Taken (Cluster n C) (Action n C) (Event n C)) : Option Nat :=
  match r.action with
  | .deliver k => r.before.rpcs[k]?.bind (r.before.heard p T q)
  | .start s _ =>
    if s = p ∧ q = p then
      r.events.findSome? fun
        | .started _ index _ _ => some index
        | _ => none
    else none
  | _ => none

/-- What the steps `rs` tell the leader `p` of term `T` about peer `q`, in their order. -/
def told (p : Fin n) (T : Nat) (q : Fin n)
    (rs : List (Taken (Cluster n C) (Action n C) (Event n C))) : List Nat :=
  rs.filterMap (learned p T q)

variable {gob : Gob n C} {c c' : Cluster n C} {a : Action n C} {es : List (Event n C)}
variable {p q : Fin n} {T : Nat}

/-! ## The functions that process a reply -/

/-- What the caller `rf` of the RPC `m` has recorded of `q` once it has processed the
reply. -/
def Raft.afterReply (rf : Raft n C) (m : Rpc n C) (q : Fin n) : Nat :=
  if m.callee = q then (m.reaches rf.currentTerm).getD (rf.matchIndex q) else rf.matchIndex q

theorem onAppendEntriesReply_matchIndex {rf rf' : Raft n C} {m : Rpc n C}
    {args : AppendEntriesArgs n C} {reply : AppendEntriesReply} (hw : rf.WellFormed)
    (hs : rf.state = .leader) (hb : m.body = .appendEntriesReply args reply)
    (h : rf.onAppendEntriesReply gob m.callee args reply = .ok rf') (q : Fin n) :
    rf'.matchIndex q = rf.afterReply m q := by
  by_cases hack : args.term = rf.currentTerm ∧ reply.success = true
  · unfold onAppendEntriesReply at h
    rw [if_pos ⟨hack.1, hs⟩, if_pos hack.2] at h
    rcases advanceCommitIndexForLeader_eq
      (rf.matched m.callee (args.prevLogIndex + args.entries.length))
      (hw.of_logs rfl) with ⟨ci, hadv, -⟩ | hadv
    · obtain rfl := Except.ok.inj (hadv.symm.trans h)
      simp [afterReply, Rpc.reaches, hb, hack, matched, Function.update_apply, eq_comm]
    · cases hadv.symm.trans h
  · have hkept : rf.afterReply m q = rf.matchIndex q := by
      simp [afterReply, Rpc.reaches, hb, hack]
    rw [hkept]
    cases onAppendEntriesReply_inv gob hw h with
    | ignored => rfl
    | behind et ps ht hps => rfl
    | backedOff i ht hs hsucc hi => rfl
    | matched ci ht hs hsucc hci => exact absurd ⟨ht, hsucc⟩ hack

theorem onInstallSnapshotReply_matchIndex {rf : Raft n C} {m : Rpc n C}
    {args : InstallSnapshotArgs n} {reply : InstallSnapshotReply}
    (hs : rf.state = .leader) (hb : m.body = .installSnapshotReply args reply) (q : Fin n) :
    (rf.onInstallSnapshotReply gob m.callee args reply).matchIndex q = rf.afterReply m q := by
  simp only [onInstallSnapshotReply, hs, true_and]
  by_cases ht : rf.currentTerm = args.term
  · by_cases hgt : reply.term > rf.currentTerm
    · obtain ⟨et, ps, hbehind, -⟩ := rf.follower_adoptTerm gob reply.term
      rw [if_pos ht, if_pos hgt, hbehind]
      simp [afterReply, Rpc.reaches, hb, not_le.mpr hgt]
    · rw [if_pos ht, if_neg hgt]
      simp [afterReply, Rpc.reaches, hb, ht, not_lt.mp (ht ▸ hgt), Function.update_apply, eq_comm]
  · rw [if_neg ht]
    simp [afterReply, Rpc.reaches, hb, Ne.symm ht]

/-! ## One step of a leadership -/

/-- Every section but `Start` and the processing of a replication reply leaves the
record alone. -/
theorem ran_matchIndex (hc : Sound gob c) {rf : Raft n C} (h : Ran gob c p a rf)
    (hstart : ∀ command, a ≠ .start p command)
    (happend : ∀ k m args reply, a = .deliver k → c.rpcs[k]? = some m →
      m.body ≠ .appendEntriesReply args reply)
    (hinstall : ∀ k m args reply, a = .deliver k → c.rpcs[k]? = some m →
      m.body ≠ .installSnapshotReply args reply) :
    rf.matchIndex = (c.raft p).matchIndex := by
  cases h with
  | idle | fire _ | tick _ | applier _ _ | sendSnapshot _ => rfl
  | elect _ =>
    obtain ⟨et, ps, helect, -⟩ := (c.raft p).electionTimeout_eq gob
    rw [helect]
    rfl
  | start command => exact absurd rfl (hstart command)
  | requestVote k m args _ _ _ =>
    generalize hr : (c.raft p).requestVote gob args = r
    have hh := requestVote_handled gob (c.raft p) args
    rw [hr] at hh
    obtain ⟨rf', reply⟩ := r
    cases hh <;> rfl
  | appendEntries k m args rf reply hm hb hq happ =>
    subst hq
    have hh := appendEntries_inv gob (hc.wellFormed m.callee) (hc.mirrored m.callee)
      (hc.entries m (List.mem_of_getElem? hm) args hb) happ
    cases hh <;> rfl
  | installSnapshot k m args _ _ _ =>
    generalize hr : ((c.raft p).installSnapshot gob args).1 = rf'
    have hh := (installSnapshot_handled gob (hc.mirrored p) args).1
    rw [hr] at hh
    cases hh <;> rfl
  | onRequestVoteReply k m args reply _ _ _ _ =>
    generalize hr : (c.raft p).onRequestVoteReply gob args reply = rf'
    have hh := onRequestVoteReply_handled gob (c.raft p) args reply
    rw [hr] at hh
    cases hh <;> rfl
  | onAppendEntriesReply k m args reply rf hm hb _ _ =>
    exact absurd hb (happend k m args reply rfl hm)
  | onInstallSnapshotReply k m args reply hm hb _ =>
    exact absurd hb (hinstall k m args reply rfl hm)
  | snapshot index data rf hok =>
    have hh := snapshot_inv gob (hc.wellFormed p) hok
    cases hh <;> rfl
  | condInstallSnapshot m rf result _ hok =>
    have hh := condInstallSnapshot_inv gob (hc.wellFormed p) hok
    cases hh <;> rfl

/-- A peer that leads after the step was not restarted by it. -/
theorem ran_of_leader (hc : Sound gob c) (h : c.step gob a = some (c', es))
    (hs' : (c'.raft p).state = .leader) :
    (c'.nodes p).boot = (c.nodes p).boot ∧ Ran gob c p a (c'.raft p) := by
  rcases step_ran hc h p with hran | ⟨-, hmake⟩
  · exact hran
  · rw [make_eq_fresh gob (hc.mirrored p), Option.some.injEq] at hmake
    rw [← hmake] at hs'
    cases hs'

theorem heard_of_not_caller {m : Rpc n C}
    (h : ¬(m.caller = p ∧ m.boot = (c.nodes p).boot)) : c.heard p T q m = none :=
  if_neg fun hand => h ⟨hand.1, hand.2.1⟩

theorem heard_caller {m : Rpc n C} (hT : (c.raft m.caller).currentTerm = T)
    (hboot : (c.nodes m.caller).boot = m.boot) :
    (c.heard m.caller T q m).getD ((c.raft m.caller).matchIndex q) =
      (c.raft m.caller).afterReply m q := by
  simp only [heard, hboot, true_and, afterReply, hT]
  split <;> rfl

/-- The reply `m` is processed by its caller and by nobody else. -/
theorem matchIndex_caller {m : Rpc n C} {rf : Raft n C} {rpcs : List (Rpc n C)}
    (hT : (c.raft p).currentTerm = T) (hboot : (c.nodes m.caller).boot = m.boot)
    (h : m.caller = p → rf.matchIndex q = (c.raft p).afterReply m q) :
    (((c.setRpcs rpcs).setRaft m.caller rf).raft p).matchIndex q =
      (c.heard p T q m).getD ((c.raft p).matchIndex q) := by
  by_cases hp : m.caller = p
  · subst hp
    rw [setRaft_raft_self, heard_caller hT hboot]
    exact h rfl
  · rw [setRaft_raft_ne _ _ rf (Ne.symm hp), heard_of_not_caller fun hand => hp hand.1]
    rfl

/-- A reply whose caller has been restarted since is dropped. -/
theorem matchIndex_dropped {m : Rpc n C} {rpcs : List (Rpc n C)}
    (hboot : (c.nodes m.caller).boot ≠ m.boot) :
    ((c.setRpcs rpcs).raft p).matchIndex q =
      (c.heard p T q m).getD ((c.raft p).matchIndex q) := by
  rw [heard_of_not_caller]
  · rfl
  · rintro ⟨rfl, hlive⟩
    exact hboot hlive.symm

/-- Peer `p` is the leader, in term `T`. -/
def Cluster.LeadsIn (c : Cluster n C) (p : Fin n) (T : Nat) : Prop :=
  (c.raft p).state = .leader ∧ (c.raft p).currentTerm = T

instance (c : Cluster n C) (p : Fin n) (T : Nat) : Decidable (c.LeadsIn p T) :=
  inferInstanceAs (Decidable (_ ∧ _))

section Deliveries

variable {k : Nat} {m : Rpc n C}

/-- The delivery of anything but a replication reply tells nothing. -/
theorem deliver_matchIndex_other (hc : Sound gob c) (hm : c.rpcs[k]? = some m)
    (hran : Ran gob c p (.deliver k) (c'.raft p)) (hnone : m.reaches T = none)
    (happend : ∀ args reply, m.body ≠ .appendEntriesReply args reply)
    (hinstall : ∀ args reply, m.body ≠ .installSnapshotReply args reply) :
    (c'.raft p).matchIndex q = (c.heard p T q m).getD ((c.raft p).matchIndex q) := by
  rw [heard, hnone, ite_self, Option.getD_none]
  refine congrFun (ran_matchIndex hc hran (by simp) ?_ ?_) q
  · rintro k' m' args reply ⟨⟩ hm'
    obtain rfl := Option.some.inj (hm.symm.trans hm')
    exact happend args reply
  · rintro k' m' args reply ⟨⟩ hm'
    obtain rfl := Option.some.inj (hm.symm.trans hm')
    exact hinstall args reply

theorem deliver_matchIndex_append {args : AppendEntriesArgs n C} {reply : AppendEntriesReply}
    (hc : Sound gob c) (hb : m.body = .appendEntriesReply args reply)
    (h : c.deliver gob k m = some (c', es)) (hs : c.LeadsIn p T)
    (hsame : (c'.nodes p).boot = (c.nodes p).boot) :
    (c'.raft p).matchIndex q = (c.heard p T q m).getD ((c.raft p).matchIndex q) := by
  simp only [Cluster.deliver, hb, decide_eq_true_eq] at h
  split at h
  · rename_i hboot
    cases hr : (c.raft m.caller).onAppendEntriesReply gob m.callee args reply with
    | error ps =>
      -- the caller panics and is restarted, so it is not `p`
      rw [show (c.nodes m.caller).raft = c.raft m.caller from rfl, hr] at h
      simp only [settle, reboot, Option.map_eq_some_iff, Prod.mk.injEq] at h
      obtain ⟨rf, -, rfl, -⟩ := h
      by_cases hp : p = m.caller
      · subst hp
        simp at hsame
      · rw [heard_of_not_caller fun hand => hp hand.1.symm]
        simp [raft, hp]
    | ok rf =>
      rw [show (c.nodes m.caller).raft = c.raft m.caller from rfl, hr] at h
      simp only [settle, Option.some.injEq, Prod.mk.injEq] at h
      obtain ⟨rfl, -⟩ := h
      refine matchIndex_caller hs.2 hboot fun hp => ?_
      subst hp
      exact onAppendEntriesReply_matchIndex (hc.wellFormed m.caller) hs.1 hb hr q
  · rename_i hboot
    obtain ⟨rfl, -⟩ := Prod.mk.inj (Option.some.inj h)
    exact matchIndex_dropped hboot

theorem deliver_matchIndex_install {args : InstallSnapshotArgs n} {reply : InstallSnapshotReply}
    (hb : m.body = .installSnapshotReply args reply) (h : c.deliver gob k m = some (c', es))
    (hs : c.LeadsIn p T) :
    (c'.raft p).matchIndex q = (c.heard p T q m).getD ((c.raft p).matchIndex q) := by
  simp only [Cluster.deliver, hb, decide_eq_true_eq] at h
  split at h
  · rename_i hboot
    obtain ⟨rfl, -⟩ := Prod.mk.inj (Option.some.inj h)
    refine matchIndex_caller hs.2 hboot fun hp => ?_
    subst hp
    exact onInstallSnapshotReply_matchIndex hs.1 hb q
  · rename_i hboot
    obtain ⟨rfl, -⟩ := Prod.mk.inj (Option.some.inj h)
    exact matchIndex_dropped hboot

theorem deliver_matchIndex (hc : Sound gob c) (hm : c.rpcs[k]? = some m)
    (h : c.deliver gob k m = some (c', es)) (hs : c.LeadsIn p T) (hs' : c'.LeadsIn p T) :
    (c'.raft p).matchIndex q = (c.heard p T q m).getD ((c.raft p).matchIndex q) := by
  have hstep : c.step gob (.deliver k) = some (c', es) := by simpa [Cluster.step, hm] using h
  obtain ⟨hsame, hran⟩ := ran_of_leader hc hstep hs'.1
  cases hb : m.body with
  | appendEntriesReply args reply => exact deliver_matchIndex_append hc hb h hs hsame
  | installSnapshotReply args reply => exact deliver_matchIndex_install hb h hs
  | requestVote args | appendEntries args | installSnapshot args | requestVoteReply args reply =>
    exact deliver_matchIndex_other hc hm hran (by simp [Rpc.reaches, hb]) (by simp [hb])
      (by simp [hb])

end Deliveries

/-- As long as a peer leads, a step changes its record of `q` to what it tells about
`q`, and leaves it alone if it tells nothing. -/
theorem step_matchIndex (hc : Sound gob c) (h : c.step gob a = some (c', es))
    (hs : c.LeadsIn p T) (hs' : c'.LeadsIn p T) :
    (c'.raft p).matchIndex q =
      (learned p T q ⟨c, a, es, c'⟩).getD ((c.raft p).matchIndex q) := by
  obtain ⟨-, hran⟩ := ran_of_leader hc h hs'.1
  cases a with
  | start s command =>
    by_cases hp : s = p
    · subst hp
      rcases (c.raft s).start_eq gob command with ⟨hno, -⟩ | ⟨-, ps, hstart, -⟩
      · exact absurd hs.1 hno
      · rw [Cluster.step, Cluster.start, show (c.nodes s).raft = c.raft s from rfl, hstart] at h
        obtain ⟨rfl, rfl⟩ := Prod.mk.inj (Option.some.inj h)
        rw [setRaft_raft_self]
        change Function.update (c.raft s).matchIndex (c.raft s).me _ q = _
        rw [hc.me s, Function.update_apply]
        simp only [learned, true_and]
        split <;> rfl
    · simp only [learned, hp, false_and, if_false, Option.getD_none]
      exact congrFun (ran_matchIndex hc hran (fun _ heq => hp (Action.start.inj heq).1)
        (by simp) (by simp)) q
  | deliver k =>
    simp only [Cluster.step] at h
    split at h
    · rename_i m hm
      simp only [learned, hm, Option.bind_some]
      exact deliver_matchIndex hc hm h hs hs'
    · cases h
  | fire s | tick s | elect s | replicate s peer | lose k | snapshot s index data
  | condInstall s m | copyBatch s spare | sendEntry s | finishBatch s | sendSnapshot s k
  | crash s => exact congrFun (ran_matchIndex hc hran (by simp) (by simp) (by simp)) q

/-! ## A whole leadership -/

variable {rs : List (Taken (Cluster n C) (Action n C) (Event n C))}

theorem told_snoc (r : Taken (Cluster n C) (Action n C) (Event n C)) :
    told p T q (rs ++ [r]) = told p T q rs ++ (learned p T q r).toList := by
  cases h : learned p T q r <;> simp [told, h]

/-- What `p` has recorded of `q` is what it was told last. -/
theorem matchIndex_eq_told (hc : Sound gob c)
    (h : Course (Cluster.step gob) (fun c _ => c.LeadsIn p T) c rs c')
    (hend : c'.LeadsIn p T) :
    (c'.raft p).matchIndex q = (told p T q rs).getLastD ((c.raft p).matchIndex q) := by
  induction h with
  | refl => rfl
  | snoc hcourse hok hstep ih =>
    rw [step_matchIndex (hc.run hcourse.run) hstep hok hend, ih hok, told_snoc]
    cases learned p T q _ <;> simp

/-- A chain with one more element at its end. -/
theorem isChain_cons_toList (i : Nat) (l : List Nat) (w : Option Nat) :
    (i :: (l ++ w.toList)).IsChain (· ≤ ·) ↔
      (i :: l).IsChain (· ≤ ·) ∧ l.getLastD i ≤ w.getD (l.getLastD i) := by
  cases w with
  | none => simp
  | some j =>
    rw [Option.toList_some, ← List.cons_append, List.isChain_append]
    simp [List.getLast?_cons]

/-- The record of a leadership never decreases if and only if, peer by peer, what the
leader is told goes up: each processed reply or `Start` reaches at least as far as the
one about the same peer before it, and the first at least as far as the record with
which the interval begins. -/
theorem match_index_monotone_iff {tr : List (Event n C)} (h : ClusterRun gob tr c)
    (hrs : Course (Cluster.step gob) (fun c _ => c.LeadsIn p T) c rs c')
    (hend : c'.LeadsIn p T) :
    (∀ r ∈ rs, ∀ q, (r.before.raft p).matchIndex q ≤ (r.after.raft p).matchIndex q) ↔
      ∀ q, ((c.raft p).matchIndex q :: told p T q rs).IsChain (· ≤ ·) := by
  induction hrs with
  | refl => simp [told]
  | snoc hcourse hok hstep ih =>
    rename_i rs c₁ a c₂ es
    have hsound := (sound_run h).run hcourse.run
    -- the chain of one peer grows by what the last step tells, if it tells anything
    have hlast (q : Fin n) : ((c.raft p).matchIndex q :: told p T q
          (rs ++ [⟨c₁, a, es, c₂⟩])).IsChain (· ≤ ·) ↔
        ((c.raft p).matchIndex q :: told p T q rs).IsChain (· ≤ ·) ∧
          (c₁.raft p).matchIndex q ≤ (c₂.raft p).matchIndex q := by
      rw [told_snoc, isChain_cons_toList, step_matchIndex hsound hstep hok hend,
        matchIndex_eq_told (sound_run h) hcourse hok]
    simp only [List.forall_mem_append, List.forall_mem_singleton, ih hok, hlast, forall_and]

/-- Peer 0 sends its first entry to peer 1 and, before the answer is back, its first
two entries. Peer 1 has answered both. -/
def overlappingRounds : List (Action 3 Nat) :=
  Action.timeout 0 ++ [.deliver 0, .deliver 0, .start 0 (some 7), .replicate 0 1,
    .start 0 (some 8), .replicate 0 1, .deliver 1, .deliver 2]

/-- The state `as` leads to once the rounds have been answered. -/
def afterRounds (as : List (Action 3 Nat)) : Cluster 3 Nat :=
  (ran (natGob 3) always (overlappingRounds ++ as)).1

theorem run_overlappingRounds :
    ClusterRun (natGob 3) (ran (natGob 3) always (overlappingRounds ++ [])).2 (afterRounds []) :=
  reached_run (by decide +kernel)

/-- The answers are processed in the order in which the rounds began, and another
`Start` follows. -/
theorem match_index_monotone_in_order :
    ∃ rs, Course (Cluster.step (natGob 3)) (fun c _ => c.LeadsIn 0 1) (afterRounds []) rs
        (afterRounds [.deliver 1, .deliver 1, .start 0 (some 9)]) ∧
      told 0 1 0 rs = [3] ∧ told 0 1 1 rs = [1, 2] ∧
      ∀ r ∈ rs, ∀ q, (r.before.raft 0).matchIndex q ≤ (r.after.raft 0).matchIndex q := by
  have hnone : Course (Cluster.step (natGob 3)) (fun c _ => c.LeadsIn 0 1) (afterRounds []) []
      (afterRounds []) := .refl
  have hfirst : (afterRounds []).step (natGob 3) (.deliver 1) =
      some (afterRounds [.deliver 1], []) := by rfl
  have hsecond : (afterRounds [.deliver 1]).step (natGob 3) (.deliver 1) =
      some (afterRounds [.deliver 1, .deliver 1], []) := by rfl
  have hthird : (afterRounds [.deliver 1, .deliver 1]).step (natGob 3) (.start 0 (some 9)) =
      some (afterRounds [.deliver 1, .deliver 1, .start 0 (some 9)],
        [.started 0 3 1 (some 9)]) := by rfl
  have hcourse := ((hnone.snoc (by decide +kernel) hfirst).snoc (by decide +kernel) hsecond).snoc
    (by decide +kernel) hthird
  exact ⟨_, hcourse, by decide +kernel, by decide +kernel,
    (match_index_monotone_iff run_overlappingRounds hcourse (by decide +kernel)).mpr
      (by decide +kernel)⟩

/-- Processed in the other order, the answer of the first round lowers what the second
has recorded, in one leadership. -/
theorem match_index_decreases :
    ∃ tr, ClusterRun (natGob 3) tr (afterRounds []) ∧
      ∃ rs, Course (Cluster.step (natGob 3)) (fun c _ => c.LeadsIn 0 1) (afterRounds []) rs
          (afterRounds [.deliver 2, .deliver 1]) ∧
        (afterRounds [.deliver 2, .deliver 1]).LeadsIn 0 1 ∧
        ∃ r ∈ rs, (r.before.raft 0).matchIndex 1 = 2 ∧ (r.after.raft 0).matchIndex 1 = 1 := by
  have hnone : Course (Cluster.step (natGob 3)) (fun c _ => c.LeadsIn 0 1) (afterRounds []) []
      (afterRounds []) := .refl
  have hfirst : (afterRounds []).step (natGob 3) (.deliver 2) =
      some (afterRounds [.deliver 2], []) := by rfl
  have hsecond : (afterRounds [.deliver 2]).step (natGob 3) (.deliver 1) =
      some (afterRounds [.deliver 2, .deliver 1], []) := by rfl
  have hcourse := (hnone.snoc (by decide +kernel) hfirst).snoc (by decide +kernel) hsecond
  exact ⟨_, run_overlappingRounds, _, hcourse, by decide +kernel, _,
    List.mem_append_right _ (List.mem_singleton_self _), by decide +kernel, by decide +kernel⟩

end RaftImplementation
