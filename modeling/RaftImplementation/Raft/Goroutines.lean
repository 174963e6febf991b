import RaftImplementation.Raft.Indices

/-!
# The goroutines of the peers

`Cluster` lets `replicateOnceRound` and the applier run at any time. Here they are started
by what starts them in the code: the ticker and its heartbeat timer, the replicators and the
applier with the condition variables they wait on, and the signals of the critical sections.

The applier waits on a variable of `rf.mu`, and both places that raise `commitIndex` signal
it under that lock. So it never sleeps while there is something to apply. A replicator waits
on a variable with a lock of its own, and `Start` signals without it. A signal that comes
between the check of `needReplicating` and `Wait` is lost. So replicators may sleep while
their peer lags; the heartbeats, which never stop as long as a peer leads, then do their work.
-/

namespace RaftImplementation

open Library Cluster Raft

variable {n : Nat} {C : Type}

/-- Where the goroutine `replicator(peer)` is. -/
inductive Replicator where
  /-- Before a call of `needReplicating`. -/
  | checking
  /-- `needReplicating` has returned false, and `Wait` is next. -/
  | leaving
  /-- In `Wait`. -/
  | asleep
  /-- `needReplicating` has returned true, and `replicateOnceRound` is next. -/
  | starting
  /-- In the call of a round. -/
  | calling
  deriving DecidableEq, Repr

/-- A signal wakes who is in `Wait` and is lost on anybody else. -/
def Replicator.signal : Replicator → Replicator
  | .asleep => .checking
  | r => r

/-- The replicator has found nothing to do and will not look again by itself. -/
def Replicator.Parked (r : Replicator) : Prop := r = .leaving ∨ r = .asleep

/-- The signal is lost on a replicator that stays parked. -/
theorem Replicator.leaving_of_signal {r : Replicator} (h : r.signal.Parked) : r = .leaving := by
  cases r <;> simp_all [Replicator.signal, Replicator.Parked]

structure Goroutines (n : Nat) where
  heartbeatTimer : Timer
  /-- The ticker has received from `heartbeatTimer.C` and waits for the lock. -/
  beating : Bool
  /-- The applier is in `applyCond.Wait`. -/
  applierAsleep : Bool
  replicator : Fin n → Replicator
  /-- How many goroutines of `BroadcastHeartbeat(true)` have not begun their round yet. -/
  rounds : Fin n → Nat

/-- The replicator of `peer` goes to `r`. -/
@[simps]
def Goroutines.setReplicator (g : Goroutines n) (peer : Fin n) (r : Replicator) : Goroutines n :=
  { g with replicator := Function.update g.replicator peer r }

/-- As `Make` starts them. -/
def Goroutines.made : Goroutines n where
  heartbeatTimer := ⟨true, false⟩
  beating := false
  applierAsleep := false
  replicator _ := .checking
  rounds _ := 0

/-- What `ChangeState` does to the heartbeat timer. -/
def Timer.changeState (t : Timer) (old new : NodeState) : Timer :=
  if old = new then t
  else match new with
    | .follower => t.stop
    | .candidate => t
    | .leader => t.reset

def Raft.needReplicating (rf : Raft n C) (peer : Fin n) : Bool :=
  rf.state = .leader && rf.matchIndex peer < rf.getLastLog.index

def Goroutines.broadcastHeartbeat (g : Goroutines n) (me : Fin n) (isHeartbeat : Bool) :
    Goroutines n :=
  if isHeartbeat then
    { g with rounds := fun peer => if peer = me then g.rounds peer else g.rounds peer + 1 }
  else
    { g with replicator := fun peer =>
        if peer = me then g.replicator peer else (g.replicator peer).signal }

/-- What the critical section of action `a` that takes peer `p` from `rf` to `rf'` does to
its goroutines. -/
def Goroutines.after (g : Goroutines n) (p : Fin n) (a : Action n C) (rf rf' : Raft n C) :
    Goroutines n :=
  let g := { g with heartbeatTimer := g.heartbeatTimer.changeState rf.state rf'.state }
  match a with
  | .start q _ => if q = p ∧ rf.state = .leader then g.broadcastHeartbeat p false else g
  | .deliver _ =>
    -- `AppendEntries` and `advanceCommitIndexForLeader` signal when they raise `commitIndex`
    let g := if rf.commitIndex < rf'.commitIndex then { g with applierAsleep := false } else g
    if rf.state ≠ .leader ∧ rf'.state = .leader then g.broadcastHeartbeat p true else g
  | _ => g

structure Processes (n : Nat) (C : Type) where
  cluster : Cluster n C
  goroutines : Fin n → Goroutines n

inductive Schedule (n : Nat) (C : Type) where
  /-- A step of the cluster, other than those below. -/
  | run (a : Action n C)
  | fireHeartbeat (p : Fin n)
  | receiveHeartbeat (p : Fin n)
  /-- The section of the ticker for a heartbeat. -/
  | beat (p : Fin n)
  /-- The applier has the lock: it copies a batch or goes to sleep. -/
  | applier (p : Fin n) (spare : List (LogEntry C))
  | needReplicating (p peer : Fin n)
  | wait (p peer : Fin n)
  /-- `replicateOnceRound`, called by the replicator. -/
  | round (p peer : Fin n)
  | returned (p peer : Fin n)
  /-- `replicateOnceRound`, started by `BroadcastHeartbeat(true)`. -/
  | heartbeatRound (p peer : Fin n)

namespace Processes

variable (gob : Gob n C)

def set (s : Processes n C) (p : Fin n) (g : Goroutines n) : Processes n C :=
  { s with goroutines := Function.update s.goroutines p g }

/-- A step of the cluster, with what it does to the goroutines. -/
def advance (s : Processes n C) (a : Action n C) :
    Option (Processes n C × List (Event n C)) :=
  (s.cluster.step gob a).map fun (c, es) =>
    ({ cluster := c
       goroutines := fun p =>
        if (c.nodes p).boot = (s.cluster.nodes p).boot then
          (s.goroutines p).after p a (s.cluster.raft p) (c.raft p)
        else .made }, es)

def step (s : Processes n C) : Schedule n C → Option (Processes n C × List (Event n C))
  | .run (.copyBatch _ _) => none
  | .run (.replicate _ _) => none
  | .run (.tick p) =>
    -- the ticker is one goroutine
    if (s.goroutines p).beating then none else s.advance gob (.tick p)
  | .run a => s.advance gob a
  | .fireHeartbeat p =>
    let g := s.goroutines p
    if g.heartbeatTimer.running then
      some (s.set p { g with heartbeatTimer := ⟨false, true⟩ }, [])
    else none
  | .receiveHeartbeat p =>
    let g := s.goroutines p
    if g.heartbeatTimer.ticked ∧ ¬ g.beating ∧ ¬ (s.cluster.raft p).ticking then
      some (s.set p { g with
        heartbeatTimer := { g.heartbeatTimer with ticked := false }, beating := true }, [])
    else none
  | .beat p =>
    let g := s.goroutines p
    if g.beating then
      if (s.cluster.raft p).state = .leader then
        some (s.set p { g.broadcastHeartbeat p true with
          heartbeatTimer := g.heartbeatTimer.reset, beating := false }, [])
      else some (s.set p { g with beating := false }, [])
    else none
  | .applier p spare =>
    let g := s.goroutines p
    let rf := s.cluster.raft p
    match rf.applier with
    | .waiting =>
      if g.applierAsleep then none
      else if rf.commitIndex ≤ rf.lastApplied then
        some (s.set p { g with applierAsleep := true }, [])
      else s.advance gob (.copyBatch p spare)
    | .sending _ _ => none
  | .needReplicating p peer =>
    let g := s.goroutines p
    if peer ≠ p ∧ g.replicator peer = .checking then
      some (s.set p (g.setReplicator peer
        (if (s.cluster.raft p).needReplicating peer then .starting else .leaving)), [])
    else none
  | .wait p peer =>
    let g := s.goroutines p
    if g.replicator peer = .leaving then
      some (s.set p (g.setReplicator peer .asleep), [])
    else none
  | .round p peer =>
    let g := s.goroutines p
    if g.replicator peer = .starting then
      (s.set p (g.setReplicator peer .calling)).advance gob
        (.replicate p peer)
    else none
  | .returned p peer =>
    let g := s.goroutines p
    if g.replicator peer = .calling then
      some (s.set p (g.setReplicator peer .checking), [])
    else none
  | .heartbeatRound p peer =>
    let g := s.goroutines p
    if 0 < g.rounds peer then
      (s.set p { g with rounds := Function.update g.rounds peer (g.rounds peer - 1) }).advance gob
        (.replicate p peer)
    else none

def start : Processes n C := ⟨init, fun _ => .made⟩

end Processes

/-- A run of the processes from their first boot. -/
abbrev ProcessRun (gob : Gob n C) (tr : List (Event n C)) (s : Processes n C) : Prop :=
  Run (Processes.step gob) always Processes.start tr s

variable {gob : Gob n C} {s s' : Processes n C} {x : Schedule n C} {tr es : List (Event n C)}

/-! ## What a step does -/

/-- A step of one goroutine of peer `p` that leaves the peer as it is. -/
inductive Goroutines.Turns (p : Fin n) (rf : Raft n C) (g : Goroutines n) : Goroutines n → Prop
  | fire : Turns p rf g { g with heartbeatTimer := ⟨false, true⟩ }
  | receive : Turns p rf g { g with
      heartbeatTimer := { g.heartbeatTimer with ticked := false }, beating := true }
  | beat : Turns p rf g { g.broadcastHeartbeat p true with
      heartbeatTimer := g.heartbeatTimer.reset, beating := false }
  | skip (h : rf.state ≠ .leader) : Turns p rf g { g with beating := false }
  | sleep (h : rf.commitIndex ≤ rf.lastApplied) : Turns p rf g { g with applierAsleep := true }
  | check (peer : Fin n) : Turns p rf g
      (g.setReplicator peer (if rf.needReplicating peer then .starting else .leaving))
  | wait (peer : Fin n) (h : g.replicator peer = .leaving) :
      Turns p rf g (g.setReplicator peer .asleep)
  | returned (peer : Fin n) :
      Turns p rf g (g.setReplicator peer .checking)

/-- At most a replicator or a goroutine of a heartbeat has begun its round. -/
structure Processes.Begins (s s₁ : Processes n C) : Prop where
  cluster : s₁.cluster = s.cluster
  heartbeatTimer : ∀ p, (s₁.goroutines p).heartbeatTimer = (s.goroutines p).heartbeatTimer
  beating : ∀ p, (s₁.goroutines p).beating = (s.goroutines p).beating
  applierAsleep : ∀ p, (s₁.goroutines p).applierAsleep = (s.goroutines p).applierAsleep
  replicator : ∀ p peer, (s₁.goroutines p).replicator peer = (s.goroutines p).replicator peer ∨
    (s₁.goroutines p).replicator peer = .calling

theorem Processes.Begins.refl (s : Processes n C) : s.Begins s :=
  ⟨rfl, fun _ => rfl, fun _ => rfl, fun _ => rfl, fun _ _ => .inl rfl⟩

theorem Processes.Begins.set {p : Fin n} {g : Goroutines n}
    (ht : g.heartbeatTimer = (s.goroutines p).heartbeatTimer)
    (hb : g.beating = (s.goroutines p).beating)
    (ha : g.applierAsleep = (s.goroutines p).applierAsleep)
    (hr : ∀ peer, g.replicator peer = (s.goroutines p).replicator peer ∨
      g.replicator peer = .calling) : s.Begins (s.set p g) := by
  refine ⟨rfl, fun q => ?_, fun q => ?_, fun q => ?_, fun q => ?_⟩ <;>
    by_cases hq : q = p
  · subst hq
    simpa [Processes.set] using ht
  · simp [Processes.set, hq]
  · subst hq
    simpa [Processes.set] using hb
  · simp [Processes.set, hq]
  · subst hq
    simpa [Processes.set] using ha
  · simp [Processes.set, hq]
  · subst hq
    simpa [Processes.set] using hr
  · simp [Processes.set, hq]

/-- A step is a turn of one goroutine, or a critical section. -/
inductive Took (gob : Gob n C) (s : Processes n C) (x : Schedule n C) :
    Processes n C → List (Event n C) → Prop
  | turn (p : Fin n) (g : Goroutines n)
      (h : (s.goroutines p).Turns p (s.cluster.raft p) g) : Took gob s x (s.set p g) []
  | act (s₁ : Processes n C) (a : Action n C) {s' : Processes n C} {es : List (Event n C)}
      (hb : s.Begins s₁) (ha : x = .run a ∨ (∃ p peer, a = .replicate p peer) ∨
        ∃ p spare, a = .copyBatch p spare)
      (h : s₁.advance gob a = some (s', es)) : Took gob s x s' es

theorem step_took (h : s.step gob x = some (s', es)) : Took gob s x s' es := by
  cases x with
  | run a =>
    have hadv : s.advance gob a = some (s', es) := by
      cases a with
      | copyBatch p spare => cases h
      | replicate p peer => cases h
      | tick p =>
        simp only [Processes.step] at h
        split at h
        · cases h
        · exact h
      | _ => exact h
    exact .act s a (.refl s) (.inl rfl) hadv
  | fireHeartbeat p =>
    simp only [Processes.step, Option.ite_none_right_eq_some, Option.some.injEq,
      Prod.mk.injEq] at h
    obtain ⟨-, rfl, rfl⟩ := h
    exact .turn p _ .fire
  | receiveHeartbeat p =>
    simp only [Processes.step, Option.ite_none_right_eq_some, Option.some.injEq,
      Prod.mk.injEq] at h
    obtain ⟨-, rfl, rfl⟩ := h
    exact .turn p _ .receive
  | beat p =>
    simp only [Processes.step, Option.ite_none_right_eq_some] at h
    obtain ⟨-, h⟩ := h
    split at h
    · cases h
      exact .turn p _ .beat
    · rename_i hs
      cases h
      exact .turn p _ (.skip hs)
  | applier p spare =>
    simp only [Processes.step] at h
    split at h
    · split at h
      · cases h
      · split at h
        · rename_i hle
          cases h
          exact .turn p _ (.sleep hle)
        · exact .act s _ (.refl s) (.inr (.inr ⟨p, spare, rfl⟩)) h
    · cases h
  | needReplicating p peer =>
    simp only [Processes.step, Option.ite_none_right_eq_some, Option.some.injEq,
      Prod.mk.injEq] at h
    obtain ⟨-, rfl, rfl⟩ := h
    exact .turn p _ (.check peer)
  | wait p peer =>
    simp only [Processes.step, Option.ite_none_right_eq_some, Option.some.injEq,
      Prod.mk.injEq] at h
    obtain ⟨hr, rfl, rfl⟩ := h
    exact .turn p _ (.wait peer hr)
  | round p peer =>
    simp only [Processes.step, Option.ite_none_right_eq_some] at h
    refine .act _ _ ?_ (.inr (.inl ⟨p, peer, rfl⟩)) h.2
    refine .set rfl rfl rfl fun q => ?_
    by_cases hq : q = peer
    · subst hq
      simp
    · simp [hq]
  | returned p peer =>
    simp only [Processes.step, Option.ite_none_right_eq_some, Option.some.injEq,
      Prod.mk.injEq] at h
    obtain ⟨-, rfl, rfl⟩ := h
    exact .turn p _ (.returned peer)
  | heartbeatRound p peer =>
    simp only [Processes.step, Option.ite_none_right_eq_some] at h
    refine .act _ _ ?_ (.inr (.inl ⟨p, peer, rfl⟩)) h.2
    exact .set rfl rfl rfl fun _ => .inl rfl

theorem advance_eq {a : Action n C} (h : s.advance gob a = some (s', es)) :
    s.cluster.step gob a = some (s'.cluster, es) ∧
      ∀ p, s'.goroutines p = .made ∨
        s'.goroutines p = (s.goroutines p).after p a (s.cluster.raft p) (s'.cluster.raft p) := by
  unfold Processes.advance at h
  obtain ⟨⟨c, es'⟩, hstep, heq⟩ := Option.map_eq_some_iff.mp h
  cases heq
  refine ⟨hstep, fun p => ?_⟩
  by_cases hboot : (c.nodes p).boot = (s.cluster.nodes p).boot
  · exact .inr (if_pos hboot)
  · exact .inl (if_neg hboot)

theorem Processes.advance_of_step {a : Action n C} {c' : Cluster n C} (s : Processes n C)
    (h : s.cluster.step gob a = some (c', es)) :
    ∃ s', s.advance gob a = some (s', es) ∧ s'.cluster = c' := by
  unfold Processes.advance
  rw [h]
  exact ⟨_, rfl, rfl⟩

/-- Without their goroutines, the processes are the cluster. -/
theorem processes_cluster (h : ProcessRun gob tr s) : ClusterRun gob tr s.cluster := by
  induction h with
  | refl => exact .refl
  | snoc hrun _ hstep ih =>
    cases step_took hstep with
    | turn p g h =>
      rw [List.append_nil]
      exact ih
    | act s₁ a hb ha h =>
      have hadv := (advance_eq h).1
      rw [hb.cluster] at hadv
      exact ih.snoc trivial hadv

/-! ## The applier and the heartbeats -/

/-- How a critical section of action `a` may move the two indices of the applier: it leaves
`commitIndex` alone, or raises it while it processes an RPC, or leaves nothing to apply. -/
def Settles (a : Action n C) (rf rf' : Raft n C) : Prop :=
  (rf'.commitIndex = rf.commitIndex ∧ rf.lastApplied ≤ rf'.lastApplied) ∨
    ((∃ k, a = .deliver k) ∧ rf.commitIndex < rf'.commitIndex) ∨
    rf'.commitIndex = rf'.lastApplied

variable {c c' : Cluster n C} {a : Action n C}

theorem Settles.refl (rf : Raft n C) : Settles a rf rf := .inl ⟨rfl, le_rfl⟩

theorem Settles.raise {k : Nat} {rf rf' : Raft n C} (hci : rf.commitIndex ≤ rf'.commitIndex)
    (hla : rf'.lastApplied = rf.lastApplied) : Settles (.deliver k : Action n C) rf rf' := by
  rcases hci.lt_or_eq with hlt | heq
  · exact .inr (.inl ⟨⟨k, rfl⟩, hlt⟩)
  · exact .inl ⟨heq.symm, hla.ge⟩

theorem moves_settles (h : Moves gob c a c' es) (q : Fin n) :
    Settles a (c.raft q) (c'.raft q) := by
  cases h with
  | timers p et tk => exact setRaft_rel .refl (.refl _) q
  | lose k => exact .refl _
  | reboot p rpcs hsub => exact restarted_rel .refl (.inr (.inr rfl)) q
  | stand p et ps hps => exact setRaft_rel .refl (.inl ⟨rfl, le_rfl⟩) q
  | started p command ps hs hps => exact setRaft_rel .refl (.inl ⟨rfl, le_rfl⟩) q
  | asked p peer args hne ha => exact .refl _
  | voteHandled k m args rf reply hm hb hh =>
    refine setRaft_rel .refl ?_ q
    cases hh with
    | refused => exact .refl _
    | behind et ps ht hps => exact .inl ⟨rfl, le_rfl⟩
    | granted st et ps => exact .inl ⟨rfl, le_rfl⟩
  | appendHandled k m args rf reply hm hb hh =>
    refine setRaft_rel .refl ?_ q
    cases hh with
    | stale ht => exact .refl _
    | refused v et ps reply => exact .inl ⟨rfl, le_rfl⟩
    | accepted v et ps ht hv hf hprev hps => exact .raise (le_max_left _ _) rfl
  | snapshotHandled k m args rf hm hb hh =>
    refine setRaft_rel .refl ?_ q
    cases hh with
    | stale ht => exact .refl _
    | ignored v et ps => exact .inl ⟨rfl, le_rfl⟩
    | queued v et ps => exact .inl ⟨rfl, le_rfl⟩
  | outrun k m t et ps => exact setRaft_rel .refl (.inl ⟨rfl, le_rfl⟩) q
  | counted k m args reply => exact setRaft_rel .refl (.inl ⟨rfl, le_rfl⟩) q
  | won k m args reply et => exact setRaft_rel .refl (.inl ⟨rfl, le_rfl⟩) q
  | backedOff k m args reply i => exact setRaft_rel .refl (.inl ⟨rfl, le_rfl⟩) q
  | matched k m args reply ci hm hb hboot ht hs hsucc hci =>
    refine setRaft_rel .refl (.raise ?_ rfl) q
    rcases hci with rfl | hadv
    · exact le_rfl
    · exact hadv.above.le
  | recorded k m args reply => exact setRaft_rel .refl (.inl ⟨rfl, le_rfl⟩) q
  | snapshotTaken p index data e ps => exact setRaft_rel .refl (.inl ⟨rfl, le_rfl⟩) q
  | outdated p m hrec hci => exact .refl _
  | installed p m ps => exact setRaft_rel .refl (.inr (.inr rfl)) q
  | copied p spare => exact setRaft_rel .refl (.inl ⟨rfl, le_rfl⟩) q
  | sentEntry p ci e rest happ => exact handed_rel .refl (.inl ⟨rfl, le_rfl⟩) q
  | finished p ci happ => exact setRaft_rel .refl (.inl ⟨rfl, le_max_left _ _⟩) q
  | sentSnapshot p k m hk => exact handed_rel .refl (.inl ⟨rfl, le_rfl⟩) q

namespace Goroutines

variable (g : Goroutines n) (p : Fin n) (rf rf' : Raft n C)

@[simp]
theorem broadcastHeartbeat_heartbeatTimer (b : Bool) :
    (g.broadcastHeartbeat p b).heartbeatTimer = g.heartbeatTimer := by
  cases b <;> rfl

@[simp]
theorem broadcastHeartbeat_beating (b : Bool) : (g.broadcastHeartbeat p b).beating = g.beating := by
  cases b <;> rfl

@[simp]
theorem broadcastHeartbeat_applierAsleep (b : Bool) :
    (g.broadcastHeartbeat p b).applierAsleep = g.applierAsleep := by
  cases b <;> rfl

theorem after_heartbeatTimer (a : Action n C) : (g.after p a rf rf').heartbeatTimer =
    g.heartbeatTimer.changeState rf.state rf'.state := by
  unfold after
  cases a with
  | start q command =>
    dsimp only
    split <;> simp
  | deliver k =>
    dsimp only
    split <;> split <;> simp
  | _ => rfl

theorem after_beating (a : Action n C) : (g.after p a rf rf').beating = g.beating := by
  unfold after
  cases a with
  | start q command =>
    dsimp only
    split <;> simp
  | deliver k =>
    dsimp only
    split <;> split <;> simp
  | _ => rfl

/-- The section wakes the applier only if it raises `commitIndex`, and does if it does so
while it processes an RPC. -/
theorem after_applierAsleep {a : Action n C} (h : (g.after p a rf rf').applierAsleep = true) :
    g.applierAsleep = true ∧ ∀ k, a = .deliver k → ¬ rf.commitIndex < rf'.commitIndex := by
  unfold after at h
  cases a with
  | start q command =>
    dsimp only at h
    refine ⟨?_, fun k hk => by cases hk⟩
    split at h
    · simpa using h
    · exact h
  | deliver k =>
    dsimp only at h
    by_cases hlt : rf.commitIndex < rf'.commitIndex
    · rw [if_pos hlt] at h
      split at h <;> simp at h
    · rw [if_neg hlt] at h
      refine ⟨?_, fun _ _ => hlt⟩
      split at h
      · simpa using h
      · exact h
  | _ => exact ⟨h, fun k hk => by cases hk⟩

/-- No section parks a replicator, and `Start` leaves parked only one that is between its
check and `Wait`. -/
theorem after_parked {a : Action n C} {peer : Fin n} (hne : peer ≠ p)
    (h : ((g.after p a rf rf').replicator peer).Parked) :
    (g.replicator peer).Parked ∧
      ∀ command, a = .start p command → rf.state = .leader → g.replicator peer = .leaving := by
  unfold after at h
  cases a with
  | start q command =>
    by_cases hq : q = p ∧ rf.state = .leader
    · have hsig : (g.replicator peer).signal.Parked := by
        simpa [hq, broadcastHeartbeat, hne] using h
      have hleaving := Replicator.leaving_of_signal hsig
      exact ⟨.inl hleaving, fun _ _ _ => hleaving⟩
    · refine ⟨by simpa [hq] using h, fun command' heq hs => ?_⟩
      cases heq
      exact absurd ⟨rfl, hs⟩ hq
  | deliver k =>
    refine ⟨?_, fun _ hk => by cases hk⟩
    dsimp only at h
    split at h <;> split at h <;> simpa [broadcastHeartbeat] using h
  | _ => exact ⟨h, fun _ hk => by cases hk⟩

end Goroutines

/-- An applier that sleeps has nothing to apply, and a leader has a heartbeat to come. -/
structure Attended (rf : Raft n C) (g : Goroutines n) : Prop where
  applier : g.applierAsleep = true → rf.commitIndex ≤ rf.lastApplied
  heartbeat : rf.state = .leader → g.heartbeatTimer.running = true ∨
    g.heartbeatTimer.ticked = true ∨ g.beating = true

namespace Attended

variable {p : Fin n} {rf rf' : Raft n C} {g g' : Goroutines n}

theorem made (rf : Raft n C) : Attended rf .made :=
  ⟨by simp [Goroutines.made], fun _ => .inl rfl⟩

theorem turns (h : Attended rf g) (ht : g.Turns p rf g') : Attended rf g' := by
  cases ht with
  | fire => exact ⟨h.applier, fun _ => .inr (.inl rfl)⟩
  | receive => exact ⟨h.applier, fun _ => .inr (.inr rfl)⟩
  | beat => exact ⟨h.applier, fun _ => .inl rfl⟩
  | skip hs => exact ⟨h.applier, fun hlead => absurd hlead hs⟩
  | sleep hle => exact ⟨fun _ => hle, h.heartbeat⟩
  | check peer => exact ⟨h.applier, h.heartbeat⟩
  | wait peer hr => exact ⟨h.applier, h.heartbeat⟩
  | returned peer => exact ⟨h.applier, h.heartbeat⟩

theorem begins {s₁ : Processes n C} (h : ∀ p, Attended (s.cluster.raft p) (s.goroutines p))
    (hb : s.Begins s₁) (p : Fin n) : Attended (s₁.cluster.raft p) (s₁.goroutines p) := by
  refine ⟨fun ha => ?_, fun hs => ?_⟩
  · rw [hb.applierAsleep] at ha
    rw [hb.cluster]
    exact (h p).applier ha
  · rw [hb.cluster] at hs
    rw [hb.heartbeatTimer, hb.beating]
    exact (h p).heartbeat hs

theorem after (h : Attended rf g) (hs : Settles a rf rf') :
    Attended rf' (g.after p a rf rf') := by
  refine ⟨fun ha => ?_, fun hlead => ?_⟩
  · obtain ⟨hasleep, hraise⟩ := g.after_applierAsleep p rf rf' ha
    rcases hs with ⟨hci, hla⟩ | ⟨⟨k, hk⟩, hlt⟩ | heq
    · rw [hci]
      exact (h.applier hasleep).trans hla
    · exact absurd hlt (hraise k hk)
    · exact heq.le
  · rw [Goroutines.after_heartbeatTimer, Goroutines.after_beating, hlead]
    by_cases hold : rf.state = .leader
    · rw [hold, Timer.changeState, if_pos rfl]
      exact h.heartbeat hold
    · -- a peer that becomes leader resets its heartbeat timer
      rw [Timer.changeState, if_neg hold]
      exact .inl rfl

end Attended

theorem attended_step (hc : Sound gob s.cluster)
    (h : ∀ p, Attended (s.cluster.raft p) (s.goroutines p)) (hstep : s.step gob x = some (s', es))
    (p : Fin n) : Attended (s'.cluster.raft p) (s'.goroutines p) := by
  cases step_took hstep with
  | turn q g ht =>
    by_cases hp : p = q
    · subst hp
      rw [show (s.set p g).goroutines p = g by simp [Processes.set]]
      exact (h p).turns ht
    · rw [show (s.set q g).goroutines p = s.goroutines p by simp [Processes.set, hp]]
      exact h p
  | act s₁ a hb ha hadv =>
    obtain ⟨hstep₁, hg⟩ := advance_eq hadv
    have hset : Settles a (s₁.cluster.raft p) (s'.cluster.raft p) :=
      moves_settles (step_moves (hb.cluster ▸ hc) hstep₁) p
    rcases hg p with hmade | hafter
    · rw [hmade]
      exact .made _
    · rw [hafter]
      exact (Attended.begins h hb p).after hset

theorem attended_run (h : ProcessRun gob tr s) (p : Fin n) :
    Attended (s.cluster.raft p) (s.goroutines p) := by
  induction h generalizing p with
  | refl => exact .made _
  | snoc hrun _ hstep ih => exact attended_step (sound_run (processes_cluster hrun)) ih hstep p

/-- While a peer has committed entries to apply, its applier does not sleep. -/
theorem applier_never_oversleeps (h : ProcessRun gob tr s) {p : Fin n}
    (hlag : (s.cluster.raft p).lastApplied < (s.cluster.raft p).commitIndex) :
    (s.goroutines p).applierAsleep = false := by
  by_contra hasleep
  exact absurd ((attended_run h p).applier (by simpa using hasleep)) (Nat.not_le.mpr hlag)

/-- Where the listed steps lead from the first boot, and what they emit. -/
abbrev processesRan (gob : Gob n C) (xs : List (Schedule n C)) :
    Processes n C × List (Event n C) :=
  reached (Processes.step gob) always Processes.start xs

/-- The applier of peer 0 goes to sleep, peer 0 is elected, and the replicator of peer 1 finds
nothing to do. -/
def parkedOfThree : List (Schedule 3 Nat) :=
  .applier 0 [] :: (pollOfThree ++ [Action.deliver 0]).map .run ++ [.needReplicating 0 1]

/-- The replicator waits, is signalled, and has the command copied to peer 1. -/
def signalledOfThree : List (Schedule 3 Nat) :=
  parkedOfThree ++ [.wait 0 1, .run (.start 0 (some 7)), .needReplicating 0 1, .round 0 1,
    .run (.deliver 1), .run (.deliver 1)]

theorem signalledOfThree_run : ProcessRun (natGob 3) (processesRan (natGob 3) signalledOfThree).2
    (processesRan (natGob 3) signalledOfThree).1 := reached_run (by decide +kernel)

theorem applier_never_oversleeps_of_three :
    ((processesRan (natGob 3) parkedOfThree).1.goroutines 0).applierAsleep = true ∧
      ((processesRan (natGob 3) signalledOfThree).1.cluster.raft 0).lastApplied <
        ((processesRan (natGob 3) signalledOfThree).1.cluster.raft 0).commitIndex ∧
      ((processesRan (natGob 3) signalledOfThree).1.goroutines 0).applierAsleep = false :=
  ⟨by decide +kernel, by decide +kernel,
    applier_never_oversleeps signalledOfThree_run (by decide +kernel)⟩

/-- The steps by which the ticker of `p` sends a heartbeat to `peer`. -/
def HeartbeatTo (p peer : Fin n) (_ : Processes n C) (x : Schedule n C) : Prop :=
  x = .fireHeartbeat p ∨ x = .receiveHeartbeat p ∨ x = .beat p ∨ x = .heartbeatRound p peer

/-- With these steps, and no others, `p` comes to call `peer`. -/
def CallsNext (gob : Gob n C) (s : Processes n C) (p peer : Fin n) : Prop :=
  ∃ s' args, Run (Processes.step gob) (HeartbeatTo p peer) s [] s' ∧
    Asked (s.cluster.raft p) peer args ∧
    s'.cluster = s.cluster.setRpcs
      (s.cluster.rpcs ++ [⟨p, (s.cluster.nodes p).boot, peer, args.body⟩])

theorem CallsNext.cons {p peer : Fin n} {g : Goroutines n} (hx : HeartbeatTo p peer s x)
    (hstep : s.step gob x = some (s.set p g, [])) (h : CallsNext gob (s.set p g) p peer) :
    CallsNext gob s p peer := by
  obtain ⟨s', args, hrun, ha, hs'⟩ := h
  exact ⟨s', args, (Run.single hx hstep).trans hrun, ha, hs'⟩

/-- The round of a leader sends a call. -/
theorem replicate_asks (hc : Sound gob c) {p peer : Fin n} (hne : peer ≠ p)
    (hs : (c.raft p).state = .leader) (hr : (c.raft p).InRange peer) :
    ∃ args, Asked (c.raft p) peer args ∧ c.step gob (.replicate p peer) =
      some (c.setRpcs (c.rpcs ++ [⟨p, (c.nodes p).boot, peer, args.body⟩]), []) := by
  rcases (c.raft p).replicateOnceRound_asked peer with ⟨hns, _⟩ | ⟨args, hok, ha⟩ | herr
  · exact absurd hs hns
  · refine ⟨args, ha, ?_⟩
    rw [Cluster.step, Cluster.replicate, if_neg hne, hok]
    cases args <;> rfl
  · exact absurd herr ((hc.wellFormed p).replicateOnceRound_ne_error hr _)

section Heartbeat

variable {p peer : Fin n} (hc : Sound gob s.cluster) (hne : peer ≠ p)
  (hlead : (s.cluster.raft p).state = .leader) (hr : (s.cluster.raft p).InRange peer)
include hc hne hlead hr

theorem callsNext_of_rounds (h : 0 < (s.goroutines p).rounds peer) : CallsNext gob s p peer := by
  obtain ⟨args, ha, hstep⟩ := replicate_asks hc hne hlead hr
  obtain ⟨s', hadv, hcl⟩ := (s.set p { s.goroutines p with
    rounds := Function.update _ peer ((s.goroutines p).rounds peer - 1) }).advance_of_step hstep
  refine ⟨s', args, Run.single (a := Schedule.heartbeatRound p peer) ?_ ?_, ha, hcl⟩
  · exact .inr (.inr (.inr rfl))
  · rw [Processes.step, if_pos h]
    exact hadv

theorem callsNext_of_beating (h : (s.goroutines p).beating = true) : CallsNext gob s p peer := by
  have hstep : s.step gob (.beat p) = some (s.set p
      { (s.goroutines p).broadcastHeartbeat p true with
        heartbeatTimer := (s.goroutines p).heartbeatTimer.reset, beating := false }, []) := by
    rw [Processes.step]
    dsimp only
    rw [if_pos h, if_pos hlead]
  refine .cons (.inr (.inr (.inl rfl))) hstep ?_
  refine callsNext_of_rounds hc hne hlead hr ?_
  simp [Processes.set, Goroutines.broadcastHeartbeat, hne]

theorem callsNext_of_ticked (hidle : (s.cluster.raft p).ticking = false)
    (h : (s.goroutines p).heartbeatTimer.ticked = true) : CallsNext gob s p peer := by
  by_cases hb : (s.goroutines p).beating = true
  · exact callsNext_of_beating hc hne hlead hr hb
  · have hstep : s.step gob (.receiveHeartbeat p) = some (s.set p { s.goroutines p with
        heartbeatTimer := { (s.goroutines p).heartbeatTimer with ticked := false }
        beating := true }, []) := by
      rw [Processes.step]
      dsimp only
      rw [if_pos ⟨h, hb, by simp [hidle]⟩]
    refine .cons (.inr (.inl rfl)) hstep ?_
    exact callsNext_of_beating hc hne hlead hr (by simp [Processes.set])

theorem callsNext_of_running (hidle : (s.cluster.raft p).ticking = false)
    (h : (s.goroutines p).heartbeatTimer.running = true) : CallsNext gob s p peer := by
  have hstep : s.step gob (.fireHeartbeat p) =
      some (s.set p { s.goroutines p with heartbeatTimer := ⟨false, true⟩ }, []) := by
    rw [Processes.step]
    dsimp only
    rw [if_pos h]
  refine .cons (.inl rfl) hstep ?_
  exact callsNext_of_ticked hc hne hlead hr hidle (by simp [Processes.set])

end Heartbeat

/-- Whatever signals were lost, the heartbeats of a leader bring it to call every other
peer, unless its ticker has already heard the election timer. -/
theorem heartbeat_reaches_peer (h : ProcessRun gob tr s) {p peer : Fin n} (hne : peer ≠ p)
    (hlead : (s.cluster.raft p).state = .leader) (hidle : (s.cluster.raft p).ticking = false)
    (hr : (s.cluster.raft p).InRange peer) : CallsNext gob s p peer := by
  have hc := sound_run (processes_cluster h)
  rcases (attended_run h p).heartbeat hlead with hrunning | hticked | hbeating
  · exact callsNext_of_running hc hne hlead hr hidle hrunning
  · exact callsNext_of_ticked hc hne hlead hr hidle hticked
  · exact callsNext_of_beating hc hne hlead hr hbeating

/-- The signal for peer 1 is lost. -/
theorem heartbeat_reaches_peer_of_three : CallsNext (natGob 3)
    (processesRan (natGob 3) (parkedOfThree ++ [.run (.start 0 (some 7)), .wait 0 1])).1 0 1 :=
  heartbeat_reaches_peer (reached_run (by decide +kernel)) (by decide) (by decide +kernel)
    (by decide +kernel) (by decide +kernel)

/-! ## The replicators -/

theorem needReplicating_iff {rf : Raft n C} {peer : Fin n} : rf.needReplicating peer = true ↔
    rf.state = .leader ∧ rf.matchIndex peer < rf.getLastLog.index := by
  simp [Raft.needReplicating]

/-- The steps that can make `peer` lag behind `p`. -/
inductive FallsBehind (c c' : Cluster n C) (p peer : Fin n) : Action n C → Prop
  | started (command : Option C) (h : (c.raft p).state = .leader) :
      FallsBehind c c' p peer (.start p command)
  | elected (k : Nat) (h : (c.raft p).state = .candidate) (h' : (c'.raft p).state = .leader) :
      FallsBehind c c' p peer (.deliver k)
  /-- The reply to an older call comes after that to a later one. -/
  | lowered (k : Nat) (h : (c'.raft p).matchIndex peer < (c.raft p).matchIndex peer) :
      FallsBehind c c' p peer (.deliver k)
  | installed (m : SnapshotMsg) (h : (c.raft p).getLastLog.index < m.snapshotIndex) :
      FallsBehind c c' p peer (.condInstall p m)

/-- What was not needed before is not needed after. -/
def NeedKept (peer : Fin n) (rf rf' : Raft n C) : Prop :=
  rf'.needReplicating peer = true → rf.needReplicating peer = true

theorem NeedKept.refl (peer : Fin n) (rf : Raft n C) : NeedKept peer rf rf := id

theorem NeedKept.of_not {peer : Fin n} {rf rf' : Raft n C} (h : rf'.state ≠ .leader) :
    NeedKept peer rf rf' :=
  fun hneed => absurd (needReplicating_iff.mp hneed).1 h

theorem NeedKept.of_le {peer : Fin n} {rf rf' : Raft n C} (hs : rf'.state = rf.state)
    (hm : rf.matchIndex peer ≤ rf'.matchIndex peer)
    (hl : rf'.getLastLog.index ≤ rf.getLastLog.index) : NeedKept peer rf rf' := by
  intro hneed
  obtain ⟨hlead, hlt⟩ := needReplicating_iff.mp hneed
  exact needReplicating_iff.mpr ⟨hs ▸ hlead, by omega⟩

theorem NeedKept.of_logs {peer : Fin n} {rf rf' : Raft n C} (hs : rf'.state = rf.state)
    (hm : rf'.matchIndex = rf.matchIndex) (hl : rf'.logs = rf.logs) : NeedKept peer rf rf' :=
  .of_le hs (by rw [hm]) (by rw [getLastLog, getLastLog, hl])

/-- Cutting a log keeps its last index, unless the cut is past its end. -/
theorem NeedKept.cut {peer : Fin n} {rf rf' : Raft n C} (hw : rf.WellFormed) {t i : Nat}
    (hf : rf.getFirstLog.index ≤ i) (hi : i ≤ rf.getLastLog.index) (hs : rf'.state = rf.state)
    (hm : rf'.matchIndex = rf.matchIndex) (hl : rf'.logs = rf.cutLogs t i) :
    NeedKept peer rf rf' := by
  refine .of_le hs (by rw [hm]) ?_
  rw [show rf'.getLastLog.index = lastIndex rf'.logs from rfl, hl, cutLogs_lastIndex hw hf]
  exact max_le hi le_rfl

/-- A reply that changes the match index of one peer. -/
theorem fallsBehind_matched {p q peer : Fin n} {k : Nat} {rf' : Raft n C}
    {rpcs : List (Rpc n C)} (hs : rf'.state = (c.raft p).state) (hl : rf'.logs = (c.raft p).logs)
    (c' : Cluster n C) (hc' : c' = (c.setRpcs rpcs).setRaft p rf') :
    NeedKept peer (c.raft q) (c'.raft q) ∨ FallsBehind c c' q peer (.deliver k) := by
  by_cases hq : q = p
  · subst hq
    by_cases hlow : (c'.raft q).matchIndex peer < (c.raft q).matchIndex peer
    · exact .inr (.lowered k hlow)
    · rw [hc', setRaft_raft_self] at hlow ⊢
      refine .inl (.of_le hs (Nat.le_of_not_lt hlow) ?_)
      rw [getLastLog, getLastLog, hl]
  · rw [hc', setRaft_raft_ne _ _ _ hq]
    exact .inl (.refl _ _)

theorem moves_need (hc : Sound gob c) (h : Moves gob c a c' es) (q peer : Fin n) :
    NeedKept peer (c.raft q) (c'.raft q) ∨ FallsBehind c c' q peer a := by
  cases h with
  | started p command ps hs hps =>
    by_cases hq : q = p
    · subst hq
      exact .inr (.started command hs)
    · rw [setRaft_raft_ne _ _ _ hq]
      exact .inl (.refl _ _)
  | won k m args reply et hm hb hboot ht hs hg hmany =>
    by_cases hq : q = m.caller
    · subst hq
      exact .inr (.elected k hs (by rw [setRaft_raft_self]; rfl))
    · rw [setRaft_raft_ne _ _ _ hq]
      exact .inl (.refl _ _)
  | matched k m args reply ci =>
    refine fallsBehind_matched ?_ ?_ _ rfl <;> rfl
  | recorded k m args reply =>
    refine fallsBehind_matched ?_ ?_ _ rfl <;> rfl
  | installed p m ps hrec hlt hf hps =>
    by_cases hq : q = p
    · subst hq
      by_cases hi : m.snapshotIndex ≤ (c.raft q).getLastLog.index
      · rw [setRaft_raft_self]
        exact .inl (.cut (hc.wellFormed q) hf hi rfl rfl rfl)
      · exact .inr (.installed m (Nat.lt_of_not_le hi))
    · rw [setRaft_raft_ne _ _ _ hq]
      exact .inl (.refl _ _)
  | snapshotTaken p index data e ps hrec hf he hps =>
    refine .inl (setRaft_rel (NeedKept.refl peer) ?_ q)
    have hlast := (hc.wellFormed p).last_index
    have hlen := (List.getElem?_eq_some_iff.mp he).1
    exact .cut (hc.wellFormed p) hf.le (by omega) rfl rfl rfl
  | timers p et tk =>
    refine .inl (setRaft_rel (NeedKept.refl peer) ?_ q)
    exact .of_logs rfl rfl rfl
  | lose k => exact .inl (.refl _ _)
  | reboot p rpcs hsub => exact .inl (restarted_rel (NeedKept.refl peer) (.of_not (by simp)) q)
  | stand p et ps hps => exact .inl (setRaft_rel (NeedKept.refl peer) (.of_not (by simp)) q)
  | asked p peer args hne ha => exact .inl (.refl _ _)
  | voteHandled k m args rf reply hm hb hh =>
    refine .inl (setRaft_rel (NeedKept.refl peer) ?_ q)
    cases hh with
    | refused => exact .refl _ _
    | behind et ps ht hps => exact .of_not (by simp)
    | granted st et ps ht hst hst' hv hup hps =>
      rcases Nat.lt_or_eq_of_le ht with hlt | heq
      · exact .of_not (by simp [hst' hlt])
      · exact .of_logs (hst heq) rfl rfl
  | appendHandled k m args rf reply hm hb hh =>
    refine .inl (setRaft_rel (NeedKept.refl peer) ?_ q)
    cases hh with
    | stale ht => exact .refl _ _
    | refused v et ps reply => exact .of_not (by simp)
    | accepted v et ps ht hv hf hprev hps => exact .of_not (by simp)
  | snapshotHandled k m args rf hm hb hh =>
    refine .inl (setRaft_rel (NeedKept.refl peer) ?_ q)
    cases hh with
    | stale ht => exact .refl _ _
    | ignored v et ps => exact .of_not (by simp)
    | queued v et ps => exact .of_not (by simp)
  | outrun k m t et ps =>
    exact .inl (setRaft_rel (NeedKept.refl peer) (.of_not (by simp)) q)
  | counted k m args reply =>
    refine .inl (setRaft_rel (NeedKept.refl peer) ?_ q)
    exact .of_logs rfl rfl rfl
  | backedOff k m args reply i =>
    refine .inl (setRaft_rel (NeedKept.refl peer) ?_ q)
    exact .of_logs rfl rfl rfl
  | outdated p m hrec hci => exact .inl (.refl _ _)
  | copied p spare =>
    refine .inl (setRaft_rel (NeedKept.refl peer) ?_ q)
    exact .of_logs rfl rfl rfl
  | sentEntry p ci e rest happ =>
    refine .inl (handed_rel (NeedKept.refl peer) ?_ q)
    exact .of_logs rfl rfl rfl
  | finished p ci happ =>
    refine .inl (setRaft_rel (NeedKept.refl peer) ?_ q)
    exact .of_logs rfl rfl rfl
  | sentSnapshot p k m hk =>
    refine .inl (handed_rel (NeedKept.refl peer) ?_ q)
    exact .of_logs rfl rfl rfl

/-- The replicator of `peer` sleeps, or is about to, while `peer` lags. -/
def Oversleeps (s : Processes n C) (p peer : Fin n) : Prop :=
  (s.cluster.raft p).needReplicating peer = true ∧ ((s.goroutines p).replicator peer).Parked

theorem Goroutines.Turns.parked {p peer : Fin n} {rf : Raft n C} {g g' : Goroutines n}
    (h : g.Turns p rf g') (hneed : rf.needReplicating peer = true)
    (hg' : (g'.replicator peer).Parked) : (g.replicator peer).Parked := by
  cases h with
  | check q =>
    by_cases hq : peer = q
    · subst hq
      simp [hneed, Replicator.Parked] at hg'
    · simpa [hq] using hg'
  | wait q hr =>
    by_cases hq : peer = q
    · subst hq
      exact .inl hr
    · simpa [hq] using hg'
  | returned q =>
    by_cases hq : peer = q
    · subst hq
      simp [Replicator.Parked] at hg'
    · simpa [hq] using hg'
  | fire | receive | beat | skip | sleep => exact hg'

/-- A replicator begins to oversleep only when `Start` signals it between its check and
`Wait`, when its leader is elected, when a late reply lowers the match index of the peer, or
when its leader installs a snapshot past the end of its log. -/
theorem replicator_oversleeps (h : ProcessRun gob tr s) (hstep : s.step gob x = some (s', es))
    {p peer : Fin n} (hne : peer ≠ p) (hover : ¬ Oversleeps s p peer)
    (hover' : Oversleeps s' p peer) :
    ∃ a, x = .run a ∧ FallsBehind s.cluster s'.cluster p peer a ∧
      ∀ command, a = .start p command → (s.goroutines p).replicator peer = .leaving := by
  obtain ⟨hneed', hparked'⟩ := hover'
  have hawake : (s.cluster.raft p).needReplicating peer = true →
      ¬ ((s.goroutines p).replicator peer).Parked := fun hneed hparked => hover ⟨hneed, hparked⟩
  cases step_took hstep with
  | turn q g ht =>
    -- the peer itself does not move, and no goroutine goes to sleep while it is needed
    refine absurd ?_ (hawake hneed')
    by_cases hp : p = q
    · subst hp
      rw [show (s.set p g).goroutines p = g by simp [Processes.set]] at hparked'
      exact ht.parked hneed' hparked'
    · rwa [show (s.set q g).goroutines p = s.goroutines p by simp [Processes.set, hp]] at hparked'
  | act s₁ a hb ha hadv =>
    obtain ⟨hstep₁, hg⟩ := advance_eq hadv
    have hafter := (hg p).resolve_left fun hmade => by
      simp [hmade, Goroutines.made, Replicator.Parked] at hparked'
    rw [hafter] at hparked'
    obtain ⟨hparked, hstart⟩ := Goroutines.after_parked _ p _ _ hne hparked'
    have hsame : (s₁.goroutines p).replicator peer = (s.goroutines p).replicator peer := by
      refine (hb.replicator p peer).resolve_right fun hcall => ?_
      simp [hcall, Replicator.Parked] at hparked
    rw [hsame] at hparked hstart
    rw [hb.cluster] at hstep₁ hstart
    have hsound := sound_run (processes_cluster h)
    rcases moves_need hsound (step_moves hsound hstep₁) p peer with hkept | hfall
    · exact absurd hparked (hawake (hkept hneed'))
    · refine ⟨a, ?_, hfall, fun command heq => ?_⟩
      · rcases ha with hx | ⟨q, r, rfl⟩ | ⟨q, spare, rfl⟩
        · exact hx
        · cases hfall
        · cases hfall
      · subst heq
        cases hfall with
        | started _ hs => exact hstart command rfl hs

theorem replicator_oversleeps_of_three :
    FallsBehind (processesRan (natGob 3) parkedOfThree).1.cluster
        (processesRan (natGob 3) (parkedOfThree ++ [.run (.start 0 (some 7))])).1.cluster 0 1
        (.start 0 (some 7)) ∧
      ((processesRan (natGob 3) parkedOfThree).1.goroutines 0).replicator 1 = .leaving := by
  have hrun : ProcessRun (natGob 3) (processesRan (natGob 3) parkedOfThree).2
      (processesRan (natGob 3) parkedOfThree).1 := reached_run (by decide +kernel)
  have hstep : (processesRan (natGob 3) parkedOfThree).1.step (natGob 3)
      (.run (.start 0 (some 7))) = some
        ((processesRan (natGob 3) (parkedOfThree ++ [.run (.start 0 (some 7))])).1,
          [.started 0 1 1 (some 7)]) := by rfl
  have hover : ¬ Oversleeps (processesRan (natGob 3) parkedOfThree).1 0 1 :=
    fun hover => absurd hover.1 (by decide +kernel)
  obtain ⟨a, ha, hfall, hleaving⟩ := replicator_oversleeps hrun hstep (by decide) hover
    ⟨by decide +kernel, .inl (by decide +kernel)⟩
  cases ha
  exact ⟨hfall, hleaving _ rfl⟩

end RaftImplementation
