import RaftImplementation.Raft.Entries
import RaftImplementation.Raft.Views

/-!
# Log matching

A log is clean when its dummy entry and the entries behind it are parts of one
history. All histories that the leaders of a run have had form a tree: an entry is
appended once, by the one leader of its term, at an index that this leader had not
used. So two clean logs that agree on the term at one index agree at every smaller
one. `CondInstallSnapshot` is the only section that can leave a log which is not
clean: it keeps what lies behind the index of the snapshot without comparing the term
there (`SnapshotFits`).
-/

namespace RaftImplementation

open Library Cluster Raft

variable {n : Nat} {C : Type}

/-! ## Clean logs -/

/-- The log shows one history. -/
def CleanLog (made : Set (History (Option C))) (logs : List (LogEntry C)) : Prop :=
  ∃ X ∈ made, ∃ k ≤ X.length, View (X.take k) X logs

/-- Some history has this length and last term. -/
def Covered (made : Set (History (Option C))) (i t : Nat) : Prop :=
  ∃ G ∈ made, G.length = i ∧ lastTerm G = t

/-- The machine's log is clean, and the snapshots on their way to its service or read by
it stand for histories. -/
structure CleanNode (made : Set (History (Option C))) (nd : Node n C) : Prop where
  log : CleanLog made nd.raft.logs
  sends : ∀ m ∈ nd.raft.snapshotSends, Covered made m.snapshotIndex m.snapshotTerm
  received : ∀ m, .snapshot m ∈ nd.received → Covered made m.snapshotIndex m.snapshotTerm

/-- A replication request under way carries a history. -/
def CleanRpc (made : Set (History (Option C))) (m : Rpc n C) : Prop :=
  match m.body with
  | .appendEntries args => ∃ H ∈ made, Carries H args
  | .installSnapshot args => Covered made args.lastIncludedIndex args.lastIncludedTerm
  | _ => True

structure Clean (made : Set (History (Option C))) (tr : List (Event n C)) (c : Cluster n C) :
    Prop where
  tree : HistoryTree made
  started : ∀ X ∈ made, X ≠ [] → ∃ p command, Event.started p X.length (lastTerm X) command ∈ tr
  nodes : ∀ p, CleanNode made (c.nodes p)
  rpcs : ∀ m ∈ c.rpcs, CleanRpc made m

section Monotone

variable {made made' : Set (History (Option C))} (hsub : made ⊆ made')
include hsub

theorem CleanLog.mono {logs : List (LogEntry C)} (h : CleanLog made logs) :
    CleanLog made' logs := by
  obtain ⟨X, hX, hk⟩ := h
  exact ⟨X, hsub hX, hk⟩

theorem Covered.mono {i t : Nat} (h : Covered made i t) : Covered made' i t := by
  obtain ⟨G, hG, hi⟩ := h
  exact ⟨G, hsub hG, hi⟩

theorem CleanNode.mono {nd : Node n C} (h : CleanNode made nd) : CleanNode made' nd where
  log := h.log.mono hsub
  sends m hm := (h.sends m hm).mono hsub
  received m hm := (h.received m hm).mono hsub

theorem CleanRpc.mono {m : Rpc n C} (h : CleanRpc made m) : CleanRpc made' m := by
  unfold CleanRpc at h ⊢
  split
  · rename_i args hb
    simp only [hb] at h
    obtain ⟨H, hH, hc⟩ := h
    exact ⟨H, hsub hH, hc⟩
  · rename_i args hb
    simp only [hb] at h
    exact h.mono hsub
  · trivial

end Monotone

variable {made : Set (History (Option C))}

theorem CleanLog.matching (ht : HistoryTree made) {logs logs' : List (LogEntry C)}
    (h : CleanLog made logs) (h' : CleanLog made logs') {e e' d d' : LogEntry C}
    (he : e ∈ logs) (he' : e' ∈ logs') (hi : e.index = e'.index) (hterm : e.term = e'.term)
    (hd : d ∈ logs) (hd' : d' ∈ logs') (hj : d.index = d'.index) (hle : d.index ≤ e.index) :
    d.term = d'.term := by
  obtain ⟨X, hX, k, _, hv⟩ := h
  obtain ⟨Y, hY, l, _, hw⟩ := h'
  have hXterm := fun e => hv.term_of_mem (e := e) ( List.take_prefix k X)
  have hYterm := fun e => hw.term_of_mem (e := e) ( List.take_prefix l Y)
  obtain ⟨hX', hXt⟩ := hXterm e he
  obtain ⟨hY', hYt⟩ := hYterm e' he'
  have hag : X.take e.index = Y.take e.index := by
    refine ht.agree hX hY hX' (by omega) ?_
    rw [← hXt, hi, ← hYt, hterm]
  calc d.term = lastTerm (X.take d.index) := (hXterm d hd).2
    _ = lastTerm ((X.take e.index).take d.index) := by rw [List.take_take, min_eq_left hle]
    _ = lastTerm ((Y.take e.index).take d.index) := by rw [hag]
    _ = lastTerm (Y.take d.index) := by rw [List.take_take, min_eq_left hle]
    _ = d'.term := by rw [hj, (hYterm d' hd').2]

/-! ## Operations on clean logs -/

section Operations

variable {rf : Raft n C}

theorem CleanLog.append {X : History (Option C)} {k : Nat} (hk : k ≤ X.length)
    (hv : View (X.take k) X rf.logs) (command : Option C) :
    CleanLog (insert (X ++ [(rf.currentTerm, command)]) made)
      (rf.logs ++ [rf.newEntry command]) := by
  refine ⟨_, .inl rfl, k, by simp; omega, ?_⟩
  rw [List.take_append_of_le_length hk]
  exact hv.append

theorem CleanLog.accept (ht : HistoryTree made) (h : CleanLog made rf.logs) {H : History (Option C)}
    (hH : H ∈ made) {args : AppendEntriesArgs n C} (hc : Carries H args)
    (hf : rf.getFirstLog.index ≤ args.prevLogIndex)
    (hprev : rf.logs[args.prevLogIndex - rf.getFirstLog.index]?.map LogEntry.term =
      some args.prevLogTerm) :
    CleanLog made (spliced rf.getFirstLog.index rf.logs args.entries) := by
  obtain ⟨X, hX, k, hk, hv⟩ := h
  have hsnap : X.take k ∈ made := ht.take_mem hX k
  rw [hv.first_index] at hf hprev ⊢
  rcases hv.splice ht hX hsnap hH hc hf hprev with ⟨_, heq⟩ | ⟨_, hv'⟩ | ⟨_, heq⟩
  · rw [heq]
    exact ⟨X, hX, k, hk, hv⟩
  · have hpre := hv.snap_isPrefix ht hX hsnap hH hc ( List.take_prefix _ _) hf hprev
    refine ⟨H, hH, (X.take k).length, hpre.length_le, ?_⟩
    rwa [take_isPrefix hpre]
  · rw [heq]
    exact ⟨X, hX, k, hk, hv⟩

theorem CleanLog.compact (h : CleanLog made rf.logs) {i : Nat} {e : LogEntry C}
    (hf : rf.getFirstLog.index < i) (he : rf.logs[i - rf.getFirstLog.index]? = some e) :
    CleanLog made (rf.cutLogs e.term i) := by
  obtain ⟨X, hX, k, hk, hv⟩ := h
  have hterm : rf.logs[i - rf.getFirstLog.index]?.map LogEntry.term = some e.term := by simp [he]
  rw [hv.first_index] at hf hterm
  obtain ⟨hi, ht⟩ := (hv.term_iff hf).mp hterm
  refine ⟨X, hX, i, hi, ?_⟩
  rw [← ht]
  exact hv.compact hf.le hi

/-- A snapshot whose term the log has at its index leaves the log clean. -/
theorem CleanLog.install (ht : HistoryTree made) (h : CleanLog made rf.logs) {t i : Nat}
    (hG : Covered made i t) (hf : rf.getFirstLog.index ≤ i)
    (hfits : i < rf.getLastLog.index →
      rf.logs[i - rf.getFirstLog.index]?.map LogEntry.term = some t) :
    CleanLog made (rf.cutLogs t i) := by
  obtain ⟨X, hX, k, hk, hv⟩ := h
  obtain ⟨G, hGmem, rfl, rfl⟩ := hG
  rw [hv.first_index] at hf hfits
  rw [hv.last.1] at hfits
  have hinst := hv.install hf
  by_cases hle : X.length ≤ G.length
  · rw [if_pos hle] at hinst
    refine ⟨G, hGmem, G.length, le_rfl, ?_⟩
    rwa [List.take_length]
  · rw [if_neg hle] at hinst
    have hag : X.take G.length = G := by
      have hterm := hfits (by omega)
      rcases hf.lt_or_eq with hlt | heq
      · have := (hv.agree ht hX hGmem hlt le_rfl (by rwa [List.take_length])).2
        rwa [List.take_length] at this
      · rw [← heq, Nat.sub_self, hv.term_snap, Option.some.injEq] at hterm
        have hk' : k = G.length := by rw [← heq, List.length_take_of_le hk]
        rw [← hk']
        exact ht.keyed _ (ht.take_mem hX k) G hGmem heq hterm
    exact ⟨X, hX, G.length, by omega, by rwa [hag]⟩

end Operations

/-! ## One move -/

variable {gob : Gob n C} {c c' : Cluster n C} {a : Action n C} {tr es : List (Event n C)}

/-- An accepted snapshot whose index lies inside the log meets its term there. -/
def SnapshotFits (c : Cluster n C) : Action n C → Prop
  | .condInstall p m =>
    let rf := c.raft p
    rf.commitIndex < m.snapshotIndex → m.snapshotIndex < rf.getLastLog.index →
      rf.logs[m.snapshotIndex - rf.getFirstLog.index]?.map LogEntry.term = some m.snapshotTerm
  | _ => True

instance (c : Cluster n C) : ∀ a, Decidable (SnapshotFits c a)
  | .condInstall p m => inferInstanceAs (Decidable ((c.raft p).commitIndex < m.snapshotIndex →
      m.snapshotIndex < (c.raft p).getLastLog.index →
      (c.raft p).logs[m.snapshotIndex - (c.raft p).getFirstLog.index]?.map LogEntry.term =
        some m.snapshotTerm))
  | .fire _ | .tick _ | .elect _ | .start _ _ | .replicate _ _ | .deliver _ | .lose _
  | .snapshot _ _ _ | .copyBatch _ _ | .sendEntry _ | .finishBatch _ | .sendSnapshot _ _
  | .crash _ => isTrue trivial

theorem CleanNode.setRaft (h : ∀ p, CleanNode made (c.nodes p)) {p : Fin n} {rf : Raft n C}
    {rpcs : List (Rpc n C)} (hl : CleanLog made rf.logs)
    (hs : ∀ m ∈ rf.snapshotSends, m ∈ (c.raft p).snapshotSends ∨
      Covered made m.snapshotIndex m.snapshotTerm) :
    ∀ q, CleanNode made (((c.setRpcs rpcs).setRaft p rf).nodes q) :=
  setRaft_forall (fun _ _ => id) h
    ⟨hl, fun m hm => (hs m hm).elim ((h p).sends m) id, (h p).received⟩

theorem cleanNode_moves (hm : Clean made tr c) (hok : SnapshotFits c a)
    (h : Moves gob c a c' es) (hes : ∀ e ∈ es, e.startKey = none) :
    ∀ q, CleanNode made (c'.nodes q) := by
  have hn := hm.nodes
  cases h with
  | timers p et tk => exact CleanNode.setRaft hn (hn p).log (fun m hm => .inl hm)
  | lose k => exact hn
  | reboot p rpcs hsub =>
    exact restarted_forall (fun _ _ => id) hn ⟨(hn p).log, by simp, by simp⟩
  | stand p et ps hps => exact CleanNode.setRaft hn (hn p).log (fun m hm => .inl hm)
  | started p command ps hs hps =>
    simp [Event.startKey] at hes
  | asked p peer args hne ha => exact hn
  | voteHandled k m args rf reply hk hb hh =>
    cases hh with
    | refused => exact CleanNode.setRaft hn (hn m.callee).log (fun m hm => .inl hm)
    | behind et ps ht hps => exact CleanNode.setRaft hn (hn m.callee).log (fun m hm => .inl hm)
    | granted st et ps => exact CleanNode.setRaft hn (hn m.callee).log (fun m hm => .inl hm)
  | appendHandled k m args rf reply hk hb hh =>
    cases hh with
    | stale ht => exact CleanNode.setRaft hn (hn m.callee).log (fun m hm => .inl hm)
    | refused v et ps reply => exact CleanNode.setRaft hn (hn m.callee).log (fun m hm => .inl hm)
    | accepted v et ps ht hv hf hprev hps =>
      have hrpc := hm.rpcs m (List.mem_of_getElem? hk)
      simp only [CleanRpc, hb] at hrpc
      obtain ⟨H, hH, hc⟩ := hrpc
      exact CleanNode.setRaft hn ((hn m.callee).log.accept hm.tree hH hc hf hprev)
        (fun m hm => .inl hm)
  | snapshotHandled k m args rf hk hb hh =>
    cases hh with
    | stale ht => exact CleanNode.setRaft hn (hn m.callee).log (fun m hm => .inl hm)
    | ignored v et ps => exact CleanNode.setRaft hn (hn m.callee).log (fun m hm => .inl hm)
    | queued v et ps ht hv hps hci =>
      have hrpc := hm.rpcs m (List.mem_of_getElem? hk)
      simp only [CleanRpc, hb] at hrpc
      refine CleanNode.setRaft hn (hn m.callee).log (fun x hx => ?_)
      rcases List.mem_append.mp hx with hx | hx
      · exact .inl hx
      · rw [List.mem_singleton.mp hx]
        exact .inr hrpc
  | outrun k m t et ps => exact CleanNode.setRaft hn (hn m.caller).log (fun m hm => .inl hm)
  | counted k m args reply => exact CleanNode.setRaft hn (hn m.caller).log (fun m hm => .inl hm)
  | won k m args reply et => exact CleanNode.setRaft hn (hn m.caller).log (fun m hm => .inl hm)
  | backedOff k m args reply i =>
    exact CleanNode.setRaft hn (hn m.caller).log (fun m hm => .inl hm)
  | matched k m args reply ci =>
    exact CleanNode.setRaft hn (hn m.caller).log (fun m hm => .inl hm)
  | recorded k m args reply => exact CleanNode.setRaft hn (hn m.caller).log (fun m hm => .inl hm)
  | snapshotTaken p index data e ps hrec hf he hps =>
    exact CleanNode.setRaft hn ((hn p).log.compact hf he) (fun m hm => .inl hm)
  | outdated p m hrec hc => exact hn
  | installed p m ps hrec hc hf hps =>
    have hcov := (hn p).received m (receivedSnapshot_mem hrec)
    exact CleanNode.setRaft hn ((hn p).log.install hm.tree hcov hf (hok hc))
      (fun m hm => .inl hm)
  | copied p spare => exact CleanNode.setRaft hn (hn p).log (fun m hm => .inl hm)
  | sentEntry p ci e rest happ =>
    refine handed_forall (fun _ _ => id) hn ⟨(hn p).log, (hn p).sends, fun m hm => ?_⟩
    exact (hn p).received m (by simpa using hm)
  | finished p ci => exact CleanNode.setRaft hn (hn p).log (fun m hm => .inl hm)
  | sentSnapshot p k m hk =>
    refine handed_forall (fun _ _ => id) hn ⟨(hn p).log, fun x hx => ?_, fun x hx => ?_⟩
    · exact (hn p).sends x (List.mem_of_mem_eraseIdx hx)
    · rcases List.mem_append.mp hx with hx | hx
      · exact (hn p).received x hx
      · cases List.mem_singleton.mp hx
        exact (hn p).sends m (List.mem_of_getElem? hk)

/-- A leader with a clean log sends histories. -/
theorem CleanLog.asked (ht : HistoryTree made) {rf : Raft n C} (h : CleanLog made rf.logs)
    {m : Rpc n C} {peer : Fin n} {args : ReplicationArgs n C} (hb : m.body = args.body)
    (ha : Asked rf peer args) : CleanRpc made m := by
  obtain ⟨X, hX, k, hk, hv⟩ := h
  cases args with
  | install args =>
    simp only [CleanRpc, hb, ReplicationArgs.body]
    cases ha with
    | install hs hn =>
      refine ⟨X.take k, ht.take_mem hX k, ?_⟩
      simp only [genInstallSnapshotArgs, hv.first, and_self]
  | append args =>
    simp only [CleanRpc, hb, ReplicationArgs.body]
    exact ⟨X, hX, ha.carries hv ( List.take_prefix k X)⟩

theorem cleanRpc_moves (hm : Clean made tr c) (h : Moves gob c a c' es) :
    ∀ m ∈ c'.rpcs, CleanRpc made m := by
  intro m hmem
  cases moves_origin h hmem with
  | old hold => exact hm.rpcs m hold
  | vote hne hb => simp [CleanRpc, hb]
  | asked args hb ha => exact (hm.nodes m.caller).log.asked hm.tree hb ha
  | voted m₀ args reply hm₀ hb heq => simp [CleanRpc, heq, Rpc.answered]
  | appended m₀ args reply hm₀ hb heq => simp [CleanRpc, heq, Rpc.answered]
  | snapshotted m₀ args hm₀ hb heq => simp [CleanRpc, heq, Rpc.answered]

/-- A leader that appends an entry begins a new history. -/
theorem clean_started (he : Elections tr c) (hk : Created tr c)
    (hm : Clean made tr c) {p : Fin n} (command : Option C) (ps : Persister)
    (hs : (c.raft p).state = .leader) :
    ∃ made', Clean made' (tr ++ [.started p ((c.raft p).getLastLog.index + 1)
        (c.raft p).currentTerm command]) (c.setRaft p ((c.raft p).appending command ps)) := by
  obtain ⟨X, hX, k, hle, hv⟩ := (hm.nodes p).log
  have hlast : (c.raft p).getLastLog.index = X.length := hv.last.1
  have hsub : made ⊆ insert (X ++ [((c.raft p).currentTerm, command)]) made :=
    Set.subset_insert _ _
  refine ⟨insert (X ++ [((c.raft p).currentTerm, command)]) made, ?_, ?_, ?_, ?_⟩
  · refine hm.tree.insert_concat hX ?_
    intro Y hY hterm hlen
    -- an entry of this index and term would come from a call of this leader
    obtain ⟨q, cmd, hq⟩ := hm.started Y hY (by rintro rfl; simp at hlen)
    have hterm : lastTerm Y = (c.raft p).currentTerm := hterm
    rw [hterm] at hq
    have hqp : q = p := he.led_unique (hk.led q _ _ cmd hq) (he.leader p hs)
    subst hqp
    have := hk.bound q _ cmd hs hq
    omega
  · rintro Y (rfl | hY) hne
    · refine ⟨p, command, List.mem_append_right _ ?_⟩
      simp [hlast]
    · obtain ⟨q, cmd, hq⟩ := hm.started Y hY hne
      exact ⟨q, cmd, List.mem_append_left _ hq⟩
  · have hn : ∀ q, CleanNode (insert (X ++ [((c.raft p).currentTerm, command)]) made)
        (c.nodes q) := fun q => (hm.nodes q).mono hsub
    exact CleanNode.setRaft hn (CleanLog.append hle hv command) (fun m hm => .inl hm)
  · exact fun m hmem => (hm.rpcs m hmem).mono hsub

theorem clean_moves (he : Elections tr c) (hk : Created tr c) (hm : Clean made tr c)
    (hok : SnapshotFits c a) (h : Moves gob c a c' es) : ∃ made', Clean made' (tr ++ es) c' := by
  rcases moves_started h with hes | ⟨p, command, ps, hs, rfl, rfl⟩
  · refine ⟨made, hm.tree, ?_, cleanNode_moves hm hok h hes, cleanRpc_moves hm h⟩
    intro X hX hne
    obtain ⟨q, cmd, hq⟩ := hm.started X hX hne
    exact ⟨q, cmd, List.mem_append_left _ hq⟩
  · exact clean_started he hk hm command ps hs

theorem clean_init : Clean {[]} ([] : List (Event n C)) init where
  tree := .singleton_nil
  started := by
    rintro X rfl hne
    exact absurd rfl hne
  nodes _ := ⟨⟨[], rfl, 0, le_rfl, .initial⟩, by simp [init], by simp [init]⟩
  rpcs := by simp [init]

theorem clean_run (h : RunWhere gob SnapshotFits tr c) : ∃ made, Clean made tr c := by
  have hall : (Elections tr c ∧ Created tr c) ∧ ∃ made, Clean made tr c := by
    refine h.invariant (fun tr c => (Elections tr c ∧ Created tr c) ∧ ∃ made, Clean made tr c)
      ⟨⟨elections_init, created_init⟩, {[]}, clean_init⟩ ?_
    rintro tr c a c' es hc ⟨⟨he, hk⟩, made, hm⟩ hok _ hmove
    exact ⟨⟨elections_electoral hc he (moves_electoral hmove), created_moves hc he hk hmove⟩,
      clean_moves he hk hm hok hmove⟩
  exact hall.2

/-! ## Log matching -/

/-- In every run in which accepted snapshots meet their term in the log, logs that share
an entry by index and term have the same terms at all smaller indices. -/
theorem log_matching (h : RunWhere gob SnapshotFits tr c) (p q : Fin n) :
    ∀ e ∈ (c.raft p).logs, ∀ e' ∈ (c.raft q).logs, e.index = e'.index → e.term = e'.term →
      ∀ d ∈ (c.raft p).logs, ∀ d' ∈ (c.raft q).logs, d.index = d'.index → d.index ≤ e.index →
        d.term = d'.term := by
  intro e he e' he' hi hterm d hd d' hd' hj hle
  obtain ⟨made, hm⟩ := clean_run h
  exact (hm.nodes p).log.matching hm.tree (hm.nodes q).log he he' hi hterm hd hd' hj hle

/-- Peer 0 leads three peers and compacts; peer 2, whose reply was lost, installs the
snapshot over the entries that it has already. -/
def fittingSnapshot : List (Action 3 Nat) :=
  [Action.timeout 0, [.deliver 0, .deliver 0, .lose 0],
    [.start 0 (some 11), .start 0 (some 12), .replicate 0 2, .deliver 0, .lose 0],
    [.replicate 0 1, .deliver 0, .deliver 0],
    [.copyBatch 0 [], .sendEntry 0, .snapshot 0 1 (some [1])],
    [.replicate 0 2, .deliver 0, .sendSnapshot 2 0, .condInstall 2 ⟨some [1], 1, 1⟩]].flatten

theorem log_matching_of_three :
    ((ran (natGob 3) SnapshotFits fittingSnapshot).1.raft 2).logs =
        [⟨none, 1, 1⟩, ⟨some 12, 1, 2⟩] ∧
      ((ran (natGob 3) SnapshotFits fittingSnapshot).1.raft 1).logs =
        [⟨none, 0, 0⟩, ⟨some 11, 1, 1⟩, ⟨some 12, 1, 2⟩] ∧
      (⟨none, 1, 1⟩ : LogEntry Nat).term = (⟨some 11, 1, 1⟩ : LogEntry Nat).term := by
  have hrun : RunWhere (natGob 3) SnapshotFits (ran (natGob 3) SnapshotFits fittingSnapshot).2
      (ran (natGob 3) SnapshotFits fittingSnapshot).1 := reached_run (by decide +kernel)
  have h₂ : ((ran (natGob 3) SnapshotFits fittingSnapshot).1.raft 2).logs =
      [⟨none, 1, 1⟩, ⟨some 12, 1, 2⟩] := by decide +kernel
  have h₁ : ((ran (natGob 3) SnapshotFits fittingSnapshot).1.raft 1).logs =
      [⟨none, 0, 0⟩, ⟨some 11, 1, 1⟩, ⟨some 12, 1, 2⟩] := by decide +kernel
  refine ⟨h₂, h₁, log_matching hrun 2 1 ⟨some 12, 1, 2⟩ ?_ ⟨some 12, 1, 2⟩ ?_ rfl rfl _ ?_ _ ?_
    rfl (by decide)⟩
  · simp [h₂]
  · simp [h₁]
  · simp [h₂]
  · simp [h₁]

/-- Peers 0 and 4 hold two entries of term 1; peer 2 leads term 2 without them, commits
another entry at index 1 and compacts it. Peer 0 installs the snapshot and keeps its
entry of term 1 behind it. -/
def keptSuffix : List (Action 5 Nat) :=
  [Action.timeout 0, [.deliver 0, .deliver 1, .deliver 0, .deliver 0, .lose 0, .lose 0],
    [.start 0 (some 11), .start 0 (some 12), .replicate 0 4, .deliver 0, .lose 0],
    Action.timeout 2, [.deliver 1, .deliver 2, .deliver 1, .deliver 1, .lose 0, .lose 0],
    [.start 2 (some 21), .replicate 2 1, .replicate 2 3],
    [.deliver 0, .deliver 1, .deliver 0, .deliver 0],
    [.copyBatch 2 [], .sendEntry 2, .finishBatch 2, .snapshot 2 1 (some [1])],
    [.replicate 2 0, .deliver 0, .sendSnapshot 0 0, .condInstall 0 ⟨some [1], 2, 1⟩]].flatten

/-- The two logs share their last entry, and differ before it. -/
theorem log_matching_broken :
    ClusterRun (natGob 5) (ran (natGob 5) always keptSuffix).2
        (ran (natGob 5) always keptSuffix).1 ∧
      ((ran (natGob 5) always keptSuffix).1.raft 0).logs =
        [⟨none, 2, 1⟩, ⟨some 12, 1, 2⟩] ∧
      ((ran (natGob 5) always keptSuffix).1.raft 4).logs =
        [⟨none, 0, 0⟩, ⟨some 11, 1, 1⟩, ⟨some 12, 1, 2⟩] ∧
      ¬ ∀ e ∈ ((ran (natGob 5) always keptSuffix).1.raft 0).logs,
        ∀ e' ∈ ((ran (natGob 5) always keptSuffix).1.raft 4).logs,
          e.index = e'.index → e.term = e'.term →
          ∀ d ∈ ((ran (natGob 5) always keptSuffix).1.raft 0).logs,
            ∀ d' ∈ ((ran (natGob 5) always keptSuffix).1.raft 4).logs,
              d.index = d'.index → d.index ≤ e.index → d.term = d'.term :=
  ⟨reached_run (by decide +kernel), by decide +kernel, by decide +kernel, by decide +kernel⟩

end RaftImplementation
