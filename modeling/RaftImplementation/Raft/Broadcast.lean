import RaftImplementation.Library.TotalOrder
import RaftImplementation.Raft.Completeness
import RaftImplementation.Raft.Entries

/-!
# The cluster delivers one log

From outside a cluster is a service of totally ordered delivery: `Start` submits an entry,
and a send on an `applyCh` delivers one. Of the three things that `Library.TotalOrder` asks
of a delivery, agreement comes from the simulation of the protocol. That the entry was
submitted, and that no index before it has been left out, is an invariant of the appliers:
each batch goes on where deliveries have got to, and a log is cut, and a snapshot sent and
installed, only at an index that has been delivered.
-/

namespace RaftImplementation

open Library Library.ReplicatedLog Cluster Raft

variable {n : Nat} {C : Type}

/-- Together the services have received all commands up to index `i`. -/
def DeliveredTo (tr : List (Event n C)) (i : Nat) : Prop :=
  ∀ j, 0 < j → j ≤ i → ∃ p b command t, Event.received p b (.command command j t) ∈ tr

theorem DeliveredTo.append {tr : List (Event n C)} {i : Nat} (h : DeliveredTo tr i)
    (es : List (Event n C)) : DeliveredTo (tr ++ es) i := by
  intro j hpos hle
  obtain ⟨p, b, command, t, hmem⟩ := h j hpos hle
  exact ⟨p, b, command, t, List.mem_append_left _ hmem⟩

theorem DeliveredTo.next {tr : List (Event n C)} {i : Nat} (h : DeliveredTo tr i) (p : Fin n)
    (b : Nat) (command : Option C) (t : Nat) :
    DeliveredTo (tr ++ [.received p b (.command command (i + 1) t)]) (i + 1) := by
  intro j hpos hle
  rcases Nat.lt_or_eq_of_le hle with hlt | rfl
  · exact h.append _ j hpos (Nat.le_of_lt_succ hlt)
  · exact ⟨p, b, command, t, List.mem_append_right _ (List.mem_singleton.mpr rfl)⟩

/-- The index at which a service is when it has read the message. -/
def ApplyMsg.position : ApplyMsg C → Nat
  | .command _ i _ => i
  | .snapshot m => m.snapshotIndex

/-- What a machine has cut, applied or passed on has been delivered by some machine. -/
structure Supplied (tr : List (Event n C)) (nd : Node n C) : Prop where
  first : DeliveredTo tr nd.raft.getFirstLog.index
  applied : DeliveredTo tr nd.raft.lastApplied
  /-- A batch goes on at an index up to which deliveries have got. -/
  batch : ∀ ci entries, nd.raft.applier = .sending ci entries →
    ∃ k, DeliveredTo tr k ∧ Contiguous (k + 1) entries ∧ k + entries.length = ci ∧
      ∀ e ∈ entries, StartedAs tr e
  sends : ∀ m ∈ nd.raft.snapshotSends, DeliveredTo tr m.snapshotIndex
  received : ∀ m ∈ nd.received, DeliveredTo tr m.position

namespace Supplied

variable {tr : List (Event n C)} {nd : Node n C} {b : Nat}

theorem append (h : Supplied tr nd) (es : List (Event n C)) : Supplied (tr ++ es) nd where
  first := h.first.append es
  applied := h.applied.append es
  batch ci entries happ := by
    obtain ⟨k, hk, hcont, hlen, hst⟩ := h.batch ci entries happ
    exact ⟨k, hk.append es, hcont, hlen, fun e he => (hst e he).append es⟩
  sends m hm := (h.sends m hm).append es
  received m hm := (h.received m hm).append es

/-- A section that moves neither the start of the log nor the applier. -/
theorem of_same (h : Supplied tr nd) {rf : Raft n C}
    (hf : rf.getFirstLog.index = nd.raft.getFirstLog.index)
    (hla : rf.lastApplied = nd.raft.lastApplied) (happ : rf.applier = nd.raft.applier)
    (hsn : rf.snapshotSends = nd.raft.snapshotSends) : Supplied tr ⟨rf, b, nd.received⟩ where
  first := by
    show DeliveredTo tr rf.getFirstLog.index
    rw [hf]
    exact h.first
  applied := by
    show DeliveredTo tr rf.lastApplied
    rw [hla]
    exact h.applied
  batch ci entries hsend := h.batch ci entries (happ ▸ hsend)
  sends m hm := h.sends m (hsn ▸ hm)
  received := h.received

theorem restart (h : Supplied tr nd) (p : Fin n) (ps : Persister) (t : Nat)
    (v : Option (Fin n)) : Supplied tr ⟨Raft.fresh p ps t v nd.raft.logs, b, []⟩ where
  first := h.first
  applied := h.first
  batch := by simp
  sends := by simp
  received := by simp

/-- The service has read the index at which it cuts the log. -/
theorem compact (h : Supplied tr nd) {i t : Nat} (hrec : receivedCommand nd i = true)
    (ps : Persister) : Supplied tr ⟨nd.raft.compacting t i ps, b, nd.received⟩ := by
  obtain ⟨command, u, hmem⟩ := receivedCommand_mem hrec
  exact ⟨h.received _ hmem, h.applied, h.batch, h.sends, h.received⟩

theorem install (h : Supplied tr nd) {m : SnapshotMsg} (hrec : receivedSnapshot nd m = true)
    (ps : Persister) :
    Supplied tr ⟨nd.raft.installed m.snapshotTerm m.snapshotIndex ps, b, nd.received⟩ := by
  have hm : DeliveredTo tr m.snapshotIndex := h.received _ (receivedSnapshot_mem hrec)
  exact ⟨hm, hm, h.batch, h.sends, h.received⟩

/-- A batch is cut out of the log, behind its first entry and behind what is applied. -/
theorem copy (h : Supplied tr nd) (hw : nd.raft.WellFormed)
    (hf : nd.raft.getFirstLog.index ≤ nd.raft.lastApplied)
    (hlt : nd.raft.lastApplied < nd.raft.commitIndex)
    (hlast : nd.raft.commitIndex ≤ nd.raft.getLastLog.index)
    (hst : ∀ e ∈ nd.raft.logs.tail, StartedAs tr e) (spare : List (LogEntry C)) :
    Supplied tr
      ⟨nd.raft.sending nd.raft.commitIndex (nd.raft.batch spare), b, nd.received⟩ := by
  obtain ⟨hcont, hlen⟩ := batch_contiguous hw hf hlt hlast spare
  refine ⟨h.first, h.applied, ?_, h.sends, h.received⟩
  intro ci entries hsend
  cases hsend
  refine ⟨nd.raft.lastApplied, h.applied, hcont, by omega, fun e he => hst e ?_⟩
  have hlast' := hw.last_index
  rw [Raft.batch, List.take_append_of_le_length (by omega), List.drop_take] at he
  exact mem_tail_of_mem_drop (by omega) (List.mem_of_mem_take he)

theorem send (h : Supplied tr nd) {ci : Nat} {e : LogEntry C} {rest : List (LogEntry C)}
    (happ : nd.raft.applier = .sending ci (e :: rest)) (p : Fin n) :
    Supplied (tr ++ [.received p nd.boot (.command e.command e.index e.term)])
      ⟨nd.raft.sending ci rest, b, nd.received ++ [.command e.command e.index e.term]⟩ := by
  obtain ⟨k, hk, ⟨hidx, hcont⟩, hlen, hst⟩ := h.batch ci _ happ
  have hnext := hk.next p nd.boot e.command e.term
  rw [← hidx] at hnext
  have hnew := h.append [.received p nd.boot (.command e.command e.index e.term)]
  refine ⟨hnew.first, hnew.applied, ?_, hnew.sends, ?_⟩
  · intro ci' entries hsend
    cases hsend
    refine ⟨e.index, hnext, hidx ▸ hcont, ?_, fun x hx => (hst x (.tail _ hx)).append _⟩
    rw [List.length_cons] at hlen
    omega
  · intro m hm
    rcases List.mem_append.mp hm with hm | hm
    · exact hnew.received m hm
    · rw [List.mem_singleton.mp hm]
      exact hnext

theorem finish (h : Supplied tr nd) {ci : Nat} (happ : nd.raft.applier = .sending ci []) :
    Supplied tr ⟨nd.raft.finishBatch ci, b, nd.received⟩ := by
  obtain ⟨k, hk, -, hlen, -⟩ := h.batch ci _ happ
  rw [List.length_nil, Nat.add_zero] at hlen
  refine ⟨h.first, ?_, by simp [finishBatch], h.sends, h.received⟩
  show DeliveredTo tr (max nd.raft.lastApplied ci)
  rcases max_choice nd.raft.lastApplied ci with heq | heq
  · rw [heq]
    exact h.applied
  · rw [heq, ← hlen]
    exact hk

theorem sendSnapshot (h : Supplied tr nd) {k : Nat} {m : SnapshotMsg}
    (hk : nd.raft.snapshotSends[k]? = some m) :
    Supplied tr ⟨nd.raft.unqueueing k, b, nd.received ++ [.snapshot m]⟩ := by
  have hm := h.sends m (List.mem_of_getElem? hk)
  refine ⟨h.first, h.applied, h.batch, ?_, ?_⟩
  · intro x hx
    exact h.sends x (List.mem_of_mem_eraseIdx hx)
  · intro x hx
    rcases List.mem_append.mp hx with hx | hx
    · exact h.received x hx
    · rw [List.mem_singleton.mp hx]
      exact hm

end Supplied

variable {gob : Gob n C} {c c' : Cluster n C} {a : Action n C} {tr es : List (Event n C)}

theorem DecidedEntry.eq {A : Protocol n C} (hi : Inv A) {e e' : LogEntry C}
    (h : DecidedEntry A e) (h' : DecidedEntry A e') (hidx : e.index - 1 = e'.index - 1) :
    e = e' := by
  have hpos : 0 < e.index := h.choose_spec.2.1
  have hpos' : 0 < e'.index := h'.choose_spec.2.1
  have hsame : e.index = e'.index := by omega
  obtain ⟨hterm, hcommand⟩ := h.unique hi h' hsame
  cases e
  cases e'
  cases hsame
  cases hterm
  cases hcommand
  rfl

section Refinement

variable [DecidableEq C]

end Refinement

end RaftImplementation
