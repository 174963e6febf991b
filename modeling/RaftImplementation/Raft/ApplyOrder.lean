import RaftImplementation.Raft.Moves

/-!
# The indices of the applier

The applier copies a batch, sends it without the lock, and records at the end how far
it got. In between, `Snapshot` may compact the log past `lastApplied`, so the order of
the indices is stated with the batch under way (`horizon`). It holds as long as no log
ends before `commitIndex`.
-/

namespace RaftImplementation

open Library Cluster Raft

variable {n : Nat} {C : Type}

/-- How far the service will have read once the batch under way is sent. -/
def Raft.horizon (rf : Raft n C) : Nat :=
  match rf.applier with
  | .waiting => rf.lastApplied
  | .sending ci _ => max rf.lastApplied ci

/-- No peer has committed past the end of its log. -/
def Cluster.CommitsInLog (c : Cluster n C) : Prop :=
  ∀ p, (c.raft p).commitIndex ≤ (c.raft p).getLastLog.index

structure InOrder (nd : Node n C) : Prop where
  first_le : nd.raft.getFirstLog.index ≤ nd.raft.horizon
  horizon_le : nd.raft.horizon ≤ nd.raft.commitIndex
  received_le : ∀ command i t, .command command i t ∈ nd.received → i ≤ nd.raft.horizon
  batch_le : ∀ ci entries, nd.raft.applier = .sending ci entries → ∀ e ∈ entries, e.index ≤ ci

variable {gob : Gob n C} {c c' : Cluster n C} {a : Action n C} {es : List (Event n C)}

theorem Raft.horizon_congr {rf rf' : Raft n C} (happ : rf'.applier = rf.applier)
    (hla : rf'.lastApplied = rf.lastApplied) : rf'.horizon = rf.horizon := by
  unfold horizon
  rw [happ, hla]

theorem Raft.lastApplied_le_horizon (rf : Raft n C) : rf.lastApplied ≤ rf.horizon := by
  unfold horizon
  split
  · exact le_rfl
  · exact le_max_left _ _

/-- A log that reaches `commitIndex` gives a batch of consecutive entries. -/
theorem Raft.batch_contiguous {rf : Raft n C} (hw : rf.WellFormed)
    (hf : rf.getFirstLog.index ≤ rf.lastApplied) (hlt : rf.lastApplied < rf.commitIndex)
    (hlast : rf.commitIndex ≤ rf.getLastLog.index) (spare : List (LogEntry C)) :
    Contiguous (rf.lastApplied + 1) (rf.batch spare) ∧
      (rf.batch spare).length = rf.commitIndex - rf.lastApplied := by
  have hlen := hw.last_index
  unfold batch
  rw [List.take_append_of_le_length (by omega)]
  have htake := hw.contiguous.take (rf.commitIndex + 1 - rf.getFirstLog.index)
  have hdrop := htake.drop (k := rf.lastApplied + 1 - rf.getFirstLog.index)
    (by rw [List.length_take]; omega)
  rw [show rf.getFirstLog.index + (rf.lastApplied + 1 - rf.getFirstLog.index) =
    rf.lastApplied + 1 by omega] at hdrop
  refine ⟨hdrop, ?_⟩
  rw [List.length_drop, List.length_take]
  omega

namespace InOrder

variable {nd : Node n C}

/-- A section that leaves the applier alone and does not lower `commitIndex`. -/
theorem of_commit (h : InOrder nd) {rf : Raft n C} {b : Nat}
    (hf : rf.getFirstLog.index = nd.raft.getFirstLog.index)
    (hla : rf.lastApplied = nd.raft.lastApplied) (happ : rf.applier = nd.raft.applier)
    (hci : nd.raft.commitIndex ≤ rf.commitIndex) : InOrder ⟨rf, b, nd.received⟩ := by
  have hh : rf.horizon = nd.raft.horizon := horizon_congr happ hla
  refine ⟨?_, ?_, ?_, ?_⟩
  · rw [hf, hh]
    exact h.first_le
  · rw [hh]
    exact h.horizon_le.trans hci
  · rw [hh]
    exact h.received_le
  · rw [happ]
    exact h.batch_le

theorem of_same (h : InOrder nd) {rf : Raft n C} {b : Nat} (hl : rf.logs = nd.raft.logs)
    (hla : rf.lastApplied = nd.raft.lastApplied) (happ : rf.applier = nd.raft.applier)
    (hci : rf.commitIndex = nd.raft.commitIndex) : InOrder ⟨rf, b, nd.received⟩ := by
  refine h.of_commit ?_ hla happ hci.ge
  unfold getFirstLog
  rw [hl]

/-- A snapshot of an index the service has read. -/
theorem compact (h : InOrder nd) {t i b : Nat} (hrec : receivedCommand nd i = true)
    (ps : Persister) : InOrder ⟨nd.raft.compacting t i ps, b, nd.received⟩ := by
  obtain ⟨command, u, hmem⟩ := receivedCommand_mem hrec
  exact ⟨h.received_le command i u hmem, h.horizon_le, h.received_le, h.batch_le⟩

/-- An installed snapshot is ahead of the batch under way. -/
theorem horizon_installed (h : InOrder nd) {t i : Nat} (hc : nd.raft.commitIndex < i)
    (ps : Persister) : (nd.raft.installed t i ps).horizon = i := by
  have hle := h.horizon_le
  unfold horizon at hle ⊢
  rw [installed_applier, installed_lastApplied]
  split
  · rfl
  · rename_i ci entries happ
    simp only [happ] at hle
    omega

/-- An installed snapshot is ahead of everything. -/
theorem install (h : InOrder nd) {t i b : Nat} (hc : nd.raft.commitIndex < i) (ps : Persister) :
    InOrder ⟨nd.raft.installed t i ps, b, nd.received⟩ := by
  have hle := h.horizon_le
  have hh : (nd.raft.installed t i ps).horizon = i := h.horizon_installed hc ps
  refine ⟨?_, ?_, ?_, h.batch_le⟩
  · rw [hh]
    exact le_rfl
  · rw [hh]
    exact le_rfl
  · intro command j u hj
    rw [hh]
    have := h.received_le command j u hj
    omega

theorem first_le_lastApplied (h : InOrder nd) (happ : nd.raft.applier = .waiting) :
    nd.raft.getFirstLog.index ≤ nd.raft.lastApplied := by
  have hle := h.first_le
  unfold horizon at hle
  rwa [happ] at hle

/-- A batch none of whose entries is beyond `commitIndex`. -/
theorem copy (h : InOrder nd) (happ : nd.raft.applier = .waiting)
    (hlt : nd.raft.lastApplied < nd.raft.commitIndex) {spare : List (LogEntry C)}
    (hbatch : ∀ e ∈ nd.raft.batch spare, e.index ≤ nd.raft.commitIndex) {b : Nat} :
    InOrder ⟨nd.raft.sending nd.raft.commitIndex (nd.raft.batch spare), b, nd.received⟩ := by
  have hh : (nd.raft.sending nd.raft.commitIndex (nd.raft.batch spare)).horizon =
      nd.raft.commitIndex := max_eq_right hlt.le
  have hfirst := h.first_le_lastApplied happ
  refine ⟨?_, ?_, ?_, ?_⟩
  · rw [hh]
    exact hfirst.trans hlt.le
  · rw [hh]
    exact le_rfl
  · intro command i t hi
    rw [hh]
    exact (h.received_le command i t hi).trans h.horizon_le
  · intro ci entries heq e he
    cases heq
    exact hbatch e he

/-- The entry that the applier sends is one the batch accounts for. -/
theorem send (h : InOrder nd) {ci b : Nat} {e : LogEntry C} {rest : List (LogEntry C)}
    (happ : nd.raft.applier = .sending ci (e :: rest)) :
    InOrder ⟨nd.raft.sending ci rest, b,
      nd.received ++ [.command e.command e.index e.term]⟩ := by
  have hb := h.batch_le ci _ happ
  have hh : nd.raft.horizon = (nd.raft.sending ci rest).horizon := by
    unfold horizon
    rw [happ]
    rfl
  refine ⟨hh ▸ h.first_le, hh ▸ h.horizon_le, ?_, ?_⟩
  · intro command i t hi
    rcases List.mem_append.mp hi with hi | hi
    · exact hh ▸ h.received_le command i t hi
    · cases List.mem_singleton.mp hi
      exact (hb e List.mem_cons_self).trans (le_max_right _ _)
  · intro ci' entries heq x hx
    cases heq
    exact hb x (List.mem_cons_of_mem _ hx)

theorem finish (h : InOrder nd) {ci b : Nat} (happ : nd.raft.applier = .sending ci []) :
    InOrder ⟨nd.raft.finishBatch ci, b, nd.received⟩ := by
  have hh : nd.raft.horizon = (nd.raft.finishBatch ci).horizon := by
    unfold horizon
    rw [happ]
    rfl
  exact ⟨hh ▸ h.first_le, hh ▸ h.horizon_le, hh ▸ h.received_le, by simp [finishBatch]⟩

/-- A snapshot message that the service reads is no command. -/
theorem sendSnapshot (h : InOrder nd) (k : Nat) (m : SnapshotMsg) {b : Nat} :
    InOrder ⟨nd.raft.unqueueing k, b, nd.received ++ [.snapshot m]⟩ :=
  ⟨h.first_le, h.horizon_le, fun command i t hi => h.received_le command i t (by simpa using hi),
    h.batch_le⟩

end InOrder

theorem inOrder_init (p : Fin n) : InOrder ((init : Cluster n C).nodes p) :=
  ⟨le_rfl, le_rfl, by simp [init], by simp [init]⟩

/-- Every move keeps the order, if a batch is copied from a log that reaches
`commitIndex`. -/
theorem inOrder_moves (hc : Sound gob c)
    (hlast : ∀ p spare, a = .copyBatch p spare →
      (c.raft p).commitIndex ≤ (c.raft p).getLastLog.index)
    (ho : ∀ p, InOrder (c.nodes p)) (h : Moves gob c a c' es) : ∀ p, InOrder (c'.nodes p) := by
  cases h with
  | timers p et tk =>
    exact setRaft_forall (fun _ _ => id) ho ((ho p).of_same rfl rfl rfl rfl)
  | lose k => exact ho
  | reboot p rpcs hsub =>
    exact restarted_forall (fun _ _ => id) ho ⟨le_rfl, le_rfl, by simp, by simp⟩
  | stand p et ps hps =>
    exact setRaft_forall (fun _ _ => id) ho ((ho p).of_same rfl rfl rfl rfl)
  | started p command ps hs hps =>
    refine setRaft_forall (fun _ _ => id) ho ((ho p).of_commit ?_ rfl rfl le_rfl)
    obtain ⟨l, hl, _⟩ := (hc.wellFormed p).cons
    unfold getFirstLog
    rw [appending_logs, hl]
    rfl
  | asked p peer args hne ha => exact ho
  | voteHandled k m args rf reply hm hb hh =>
    refine setRaft_forall (fun _ _ => id) ho ?_
    cases hh with
    | refused => exact ho m.callee
    | behind et ps ht hps => exact (ho m.callee).of_same rfl rfl rfl rfl
    | granted st et ps => exact (ho m.callee).of_same rfl rfl rfl rfl
  | appendHandled k m args rf reply hm hb hh =>
    refine setRaft_forall (fun _ _ => id) ho ?_
    cases hh with
    | stale ht => exact ho m.callee
    | refused v et ps reply => exact (ho m.callee).of_same rfl rfl rfl rfl
    | accepted v et ps ht hv hf hprev hps =>
      refine (ho m.callee).of_commit ?_ rfl rfl (le_max_left _ _)
      have hcont := hc.entries m (List.mem_of_getElem? hm) args hb
      rw [accepting_first (hc.wellFormed m.callee) hcont hf hprev v et ps]
  | snapshotHandled k m args rf hm hb hh =>
    refine setRaft_forall (fun _ _ => id) ho ?_
    cases hh with
    | stale ht => exact ho m.callee
    | ignored v et ps => exact (ho m.callee).of_same rfl rfl rfl rfl
    | queued v et ps => exact (ho m.callee).of_same rfl rfl rfl rfl
  | outrun k m t et ps =>
    exact setRaft_forall (fun _ _ => id) ho ((ho m.caller).of_same rfl rfl rfl rfl)
  | counted k m args reply =>
    exact setRaft_forall (fun _ _ => id) ho ((ho m.caller).of_same rfl rfl rfl rfl)
  | won k m args reply et =>
    exact setRaft_forall (fun _ _ => id) ho ((ho m.caller).of_same rfl rfl rfl rfl)
  | backedOff k m args reply i =>
    exact setRaft_forall (fun _ _ => id) ho ((ho m.caller).of_same rfl rfl rfl rfl)
  | matched k m args reply ci hm hb hboot ht hs hsucc hci =>
    refine setRaft_forall (fun _ _ => id) ho ((ho m.caller).of_commit rfl rfl rfl ?_)
    rcases hci with rfl | hadv
    · exact le_rfl
    · exact hadv.above.le
  | recorded k m args reply =>
    exact setRaft_forall (fun _ _ => id) ho ((ho m.caller).of_same rfl rfl rfl rfl)
  | snapshotTaken p index data e ps hrec hf he hps =>
    exact setRaft_forall (fun _ _ => id) ho ((ho p).compact hrec ps)
  | outdated p m hrec hci => exact ho
  | installed p m ps hrec hci hf hps =>
    exact setRaft_forall (fun _ _ => id) ho ((ho p).install hci ps)
  | copied p spare hw hlt hf hlen =>
    -- a log that reaches `commitIndex` gives consecutive entries up to it
    have hfirst := (ho p).first_le_lastApplied hw
    obtain ⟨hcont, hlength⟩ :=
      batch_contiguous (hc.wellFormed p) hfirst hlt (hlast p spare rfl) spare
    have hbatch : ∀ e ∈ (c.raft p).batch spare, e.index ≤ (c.raft p).commitIndex := by
      intro e he
      obtain ⟨hge, hget⟩ := hcont.get_of_mem he
      have hlt' := (List.getElem?_eq_some_iff.mp hget).1
      omega
    exact setRaft_forall (fun _ _ => id) ho ((ho p).copy hw hlt hbatch)
  | sentEntry p ci e rest happ => exact handed_forall (fun _ _ => id) ho ((ho p).send happ)
  | finished p ci happ => exact setRaft_forall (fun _ _ => id) ho ((ho p).finish happ)
  | sentSnapshot p k m hk => exact handed_forall (fun _ _ => id) ho ((ho p).sendSnapshot k m)

end RaftImplementation
