import RaftImplementation.Raft.Moves

/-!
# The writes inside a critical section

A section that changes the term and the vote may call `rf.persist()` twice, so the
persister passes through contents that no other goroutine sees and a crash may
leave behind. For every section that persists, a function lists what it does to the
durable record in program order: the votes it casts and the contents it writes.
`Wrote` says which sequences of casts and writes there are; every prefix of such a
sequence that ends with a write is one again, which is what a crash in the middle
of a section leaves.
-/

namespace RaftImplementation

variable {n : Nat} {C : Type}

inductive Mark (n : Nat) where
  /-- The peer gives its vote in `term` to `candidate`. A candidate votes for itself
  from the moment it raises the term; a voter grants when it sets `votedFor`. -/
  | cast (term : Nat) (candidate : Fin n)
  /-- `SaveStateAndSnapshot` leaves `ps`. -/
  | write (ps : Persister)
  deriving DecidableEq, Repr

namespace Raft

variable (gob : Gob n C)

/-! ## What each section writes -/

def electionTimeoutMarks (rf : Raft n C) : List (Mark n) :=
  let rf := rf.changeState .candidate
  let rf := { rf with currentTerm := rf.currentTerm + 1 }
  let saved := rf.persist gob
  [.cast rf.currentTerm rf.me, .write saved.persister,
    .write (({ saved with votedFor := some saved.me } : Raft n C).persist gob).persister]

def requestVoteMarks (rf : Raft n C) (args : RequestVoteArgs n) : List (Mark n) :=
  if args.term < rf.currentTerm ∨
      (args.term = rf.currentTerm ∧ rf.votedFor ≠ none ∧ rf.votedFor ≠ some args.candidateId) then
    []
  else
    let adopted :=
      if args.term > rf.currentTerm then (rf.changeState .follower).adoptTerm gob args.term
      else rf
    (if args.term > rf.currentTerm then [.write adopted.persister] else []) ++
    (if adopted.isLogUpToDate args.lastLogIndex args.lastLogTerm then
      [.cast adopted.currentTerm args.candidateId,
        .write (({ adopted with votedFor := some args.candidateId } : Raft n C).persist
          gob).persister]
    else [])

def onRequestVoteReplyMarks (rf : Raft n C) (args : RequestVoteArgs n)
    (reply : RequestVoteReply) : List (Mark n) :=
  if args.term = rf.currentTerm ∧ rf.state = .candidate then
    if reply.voteGranted then []
    else if reply.term > rf.currentTerm then
      [.write ((rf.changeState .follower).adoptTerm gob reply.term).persister]
    else []
  else []

def spliceEntriesMarks (rf : Raft n C) : List (LogEntry C) → List (Mark n)
  | [] => []
  | entry :: rest =>
    if entry.index < rf.getFirstLog.index then []
    else
      let k := entry.index - rf.getFirstLog.index
      let replaced : Raft n C :=
        { rf with logs := shrinkEntries (rf.logs.take k ++ entry :: rest) }
      match rf.logs[k]? with
      | some e =>
        if e.term = entry.term then spliceEntriesMarks rf rest
        else [.write (replaced.persist gob).persister]
      | none => if k = rf.logs.length then [.write (replaced.persist gob).persister] else []

def appendEntriesMarks (rf : Raft n C) (args : AppendEntriesArgs n C) : List (Mark n) :=
  if args.term < rf.currentTerm then []
  else
    let adopted := if args.term > rf.currentTerm then rf.adoptTerm gob args.term else rf
    let follower := (adopted.changeState .follower).resetElectionTimer
    (if args.term > rf.currentTerm then [.write (rf.adoptTerm gob args.term).persister] else []) ++
    (if args.prevLogIndex < follower.getFirstLog.index then []
    else match follower.isLogMatched args.prevLogIndex args.prevLogTerm with
      | .ok true => follower.spliceEntriesMarks gob args.entries
      | _ => [])

def installSnapshotMarks (rf : Raft n C) (args : InstallSnapshotArgs n) : List (Mark n) :=
  if args.term < rf.currentTerm then []
  else if args.term > rf.currentTerm then [.write (rf.adoptTerm gob args.term).persister]
  else []

def startMarks (rf : Raft n C) (command : Option C) : List (Mark n) :=
  if rf.state = .leader then [.write (rf.start gob command).1.persister] else []

def onInstallSnapshotReplyMarks (rf : Raft n C) (args : InstallSnapshotArgs n)
    (reply : InstallSnapshotReply) : List (Mark n) :=
  if rf.state = .leader ∧ rf.currentTerm = args.term then
    if reply.term > rf.currentTerm then
      [.write ((rf.changeState .follower).adoptTerm gob reply.term).persister]
    else []
  else []

def onAppendEntriesReplyMarks (rf : Raft n C) (args : AppendEntriesArgs n C)
    (reply : AppendEntriesReply) : List (Mark n) :=
  if args.term = rf.currentTerm ∧ rf.state = .leader then
    if reply.success then []
    else if reply.term > rf.currentTerm then
      [.write ((rf.changeState .follower).adoptTerm gob reply.term).persister]
    else []
  else []

/-- `Snapshot` writes once, at its end. -/
def snapshotMarks (rf : Raft n C) (index : Nat) (data : Option Bytes) : List (Mark n) :=
  if index ≤ rf.getFirstLog.index ∨ index > rf.getLastLog.index then []
  else match rf.snapshot gob index data with
    | .ok rf => [.write rf.persister]
    | .error _ => []

/-- So does `CondInstallSnapshot`. -/
def condInstallSnapshotMarks (rf : Raft n C) (lastIncludedTerm lastIncludedIndex : Nat)
    (snapshot : Option Bytes) : List (Mark n) :=
  if lastIncludedIndex ≤ rf.commitIndex then []
  else match rf.condInstallSnapshot gob lastIncludedTerm lastIncludedIndex snapshot with
    | .ok (rf, _) => [.write rf.persister]
    | .error _ => []

end Raft

/-! ## Sequences of casts and writes -/

open Raft

/-- A log that begins with some entry and counts on from it. -/
def Shaped (l : List (LogEntry C)) : Prop := ∃ e es, l = e :: es ∧ Contiguous (e.index + 1) es

/-- `Wrote gob me own ps ms ps'`: peer `me` does `ms`, and its persister goes from `ps`
to `ps'`. The term rises by the term of a message, which clears the vote, or by a
timeout, which does not; `own` is what is known of the vote there. -/
inductive Wrote (gob : Gob n C) (me : Fin n) (own : Option (Fin n) → Prop) (ps : Persister) :
    List (Mark n) → Persister → Prop
  | nil : Wrote gob me own ps [] ps
  | saved {ms : List (Mark n)} {ps₁ ps₂ : Persister} {t : Nat} {v : Option (Fin n)}
      {l l' : List (LogEntry C)} (h : Wrote gob me own ps ms ps₁)
      (h₁ : durable gob ps₁ = some (t, v, l)) (h₂ : durable gob ps₂ = some (t, v, l'))
      (hl : Shaped l') : Wrote gob me own ps (ms ++ [.write ps₂]) ps₂
  | adopted {ms : List (Mark n)} {ps₁ ps₂ : Persister} {t t' : Nat} {v : Option (Fin n)}
      {l : List (LogEntry C)} (h : Wrote gob me own ps ms ps₁)
      (h₁ : durable gob ps₁ = some (t, v, l)) (ht : t < t')
      (h₂ : durable gob ps₂ = some (t', none, l)) :
      Wrote gob me own ps (ms ++ [.write ps₂]) ps₂
  | granted {ms : List (Mark n)} {ps₁ ps₂ : Persister} {t : Nat} {v : Option (Fin n)}
      {l : List (LogEntry C)} {candidate : Fin n} (h : Wrote gob me own ps ms ps₁)
      (h₁ : durable gob ps₁ = some (t, v, l)) (hv : v = none ∨ v = some candidate)
      (h₂ : durable gob ps₂ = some (t, some candidate, l)) :
      Wrote gob me own ps (ms ++ [.cast t candidate, .write ps₂]) ps₂
  | raised {ms : List (Mark n)} {ps₁ ps₂ : Persister} {t : Nat} {v : Option (Fin n)}
      {l : List (LogEntry C)} (h : Wrote gob me own ps ms ps₁)
      (h₁ : durable gob ps₁ = some (t, v, l)) (hv : own v)
      (h₂ : durable gob ps₂ = some (t + 1, v, l)) :
      Wrote gob me own ps (ms ++ [.cast (t + 1) me, .write ps₂]) ps₂
  | voted {ms : List (Mark n)} {ps₁ ps₂ : Persister} {t : Nat} {v : Option (Fin n)}
      {l : List (LogEntry C)} (h : Wrote gob me own ps ms ps₁)
      (h₁ : durable gob ps₁ = some (t, v, l)) (hv : own v) (hcast : .cast t me ∈ ms)
      (h₂ : durable gob ps₂ = some (t, some me, l)) :
      Wrote gob me own ps (ms ++ [.write ps₂]) ps₂

variable {gob : Gob n C} {me : Fin n} {own : Option (Fin n) → Prop}
variable {ps ps' ps₂ : Persister} {ms ms' : List (Mark n)}

theorem Wrote.trans (h : Wrote gob me own ps ms ps') (h' : Wrote gob me own ps' ms' ps₂) :
    Wrote gob me own ps (ms ++ ms') ps₂ := by
  induction h' with
  | nil => simpa using h
  | saved _ h₁ h₂ hl ih => simpa using ih.saved h₁ h₂ hl
  | adopted _ h₁ ht h₂ ih => simpa using ih.adopted h₁ ht h₂
  | granted _ h₁ hv h₂ ih => simpa using ih.granted h₁ hv h₂
  | raised _ h₁ hv h₂ ih => simpa using ih.raised h₁ hv h₂
  | voted _ h₁ hv hcast h₂ ih =>
    simpa using ih.voted h₁ hv (List.mem_append_right _ hcast) h₂

/-- What is read back from a written persister is well shaped. -/
theorem Wrote.shaped (h : Wrote gob me own ps ms ps')
    (h0 : ∃ t v l, durable gob ps = some (t, v, l) ∧ Shaped l) :
    ∃ t v l, durable gob ps' = some (t, v, l) ∧ Shaped l := by
  have same {ps₁ : Persister} {t : Nat} {v : Option (Fin n)} {l : List (LogEntry C)}
      (h₁ : durable gob ps₁ = some (t, v, l))
      (ih : ∃ t v l, durable gob ps₁ = some (t, v, l) ∧ Shaped l) : Shaped l := by
    obtain ⟨t', v', l', hd, hl⟩ := ih
    cases hd.symm.trans h₁
    exact hl
  induction h with
  | nil => exact h0
  | saved _ h₁ h₂ hl ih => exact ⟨_, _, _, h₂, hl⟩
  | adopted _ h₁ ht h₂ ih => exact ⟨_, _, _, h₂, same h₁ ih⟩
  | granted _ h₁ hv h₂ ih => exact ⟨_, _, _, h₂, same h₁ ih⟩
  | raised _ h₁ hv h₂ ih => exact ⟨_, _, _, h₂, same h₁ ih⟩
  | voted _ h₁ hv hcast h₂ ih => exact ⟨_, _, _, h₂, same h₁ ih⟩

/-- A write in a sequence that ends with a write is an earlier one or the last one. -/
theorem write_of_snoc {k : Nat} (hk : (ms ++ [Mark.write ps'])[k]? = some (.write ps₂)) :
    (ms[k]? = some (.write ps₂) ∧ (ms ++ [Mark.write ps']).take (k + 1) = ms.take (k + 1)) ∨
      (ps₂ = ps' ∧ (ms ++ [Mark.write ps']).take (k + 1) = ms ++ [.write ps']) := by
  rcases Nat.lt_or_ge k ms.length with hlt | hge
  · rw [List.getElem?_append_left hlt] at hk
    exact .inl ⟨hk, List.take_append_of_le_length hlt⟩
  · have hlast : k = ms.length := by
      have := (List.getElem?_eq_some_iff.mp hk).1
      rw [List.length_append, List.length_singleton] at this
      omega
    subst hlast
    rw [List.getElem?_concat_length] at hk
    cases hk
    exact .inr ⟨rfl, List.take_of_length_le (by simp)⟩

/-- A write in a sequence that ends with a cast is an earlier one. -/
theorem write_of_snoc_cast {k t : Nat} {u : Fin n}
    (hk : (ms ++ [Mark.cast t u])[k]? = some (.write ps₂)) :
    ms[k]? = some (.write ps₂) ∧ (ms ++ [Mark.cast t u]).take (k + 1) = ms.take (k + 1) := by
  rcases Nat.lt_or_ge k ms.length with hlt | hge
  · rw [List.getElem?_append_left hlt] at hk
    exact ⟨hk, List.take_append_of_le_length hlt⟩
  · rw [List.getElem?_append_right hge, List.getElem?_singleton] at hk
    split at hk
    · cases hk
    · cases hk

/-- A crash after the write at position `k` leaves a sequence of the same kind. -/
theorem Wrote.cut (h : Wrote gob me own ps ms ps') {k : Nat}
    (hk : ms[k]? = some (.write ps₂)) : Wrote gob me own ps (ms.take (k + 1)) ps₂ := by
  -- one more write is cut behind it, or before it by the induction hypothesis
  have extend {ms : List (Mark n)} {ps' : Persister}
      (ih : ms[k]? = some (.write ps₂) → Wrote gob me own ps (ms.take (k + 1)) ps₂)
      (hall : Wrote gob me own ps (ms ++ [.write ps']) ps')
      (hk : (ms ++ [Mark.write ps'])[k]? = some (.write ps₂)) :
      Wrote gob me own ps ((ms ++ [Mark.write ps']).take (k + 1)) ps₂ := by
    rcases write_of_snoc hk with ⟨hold, htake⟩ | ⟨rfl, htake⟩
    · rw [htake]
      exact ih hold
    · rwa [htake]
  have behind {ms : List (Mark n)} {t : Nat} {u : Fin n}
      (ih : ms[k]? = some (.write ps₂) → Wrote gob me own ps (ms.take (k + 1)) ps₂)
      (hk : (ms ++ [Mark.cast t u])[k]? = some (.write ps₂)) :
      Wrote gob me own ps ((ms ++ [Mark.cast t u]).take (k + 1)) ps₂ := by
    obtain ⟨hold, htake⟩ := write_of_snoc_cast hk
    rw [htake]
    exact ih hold
  induction h with
  | nil => cases hk
  | saved h h₁ h₂ hl ih => exact extend ih (h.saved h₁ h₂ hl) hk
  | adopted h h₁ ht h₂ ih => exact extend ih (h.adopted h₁ ht h₂) hk
  | granted h h₁ hv h₂ ih =>
    have hall := h.granted h₁ hv h₂
    rw [List.append_cons] at hk hall ⊢
    exact extend (behind ih) hall hk
  | raised h h₁ hv h₂ ih =>
    have hall := h.raised h₁ hv h₂
    rw [List.append_cons] at hk hall ⊢
    exact extend (behind ih) hall hk
  | voted h h₁ hv hcast h₂ ih => exact extend ih (h.voted h₁ hv hcast h₂) hk

/-! ## What each section writes is such a sequence -/

/-- An election writes twice: the new term with the old vote, then with the new one. -/
theorem Raft.electionTimeoutMarks_eq (gob : Gob n C) (rf : Raft n C) :
    ∃ ps, rf.electionTimeoutMarks gob = [.cast (rf.currentTerm + 1) rf.me, .write ps,
        .write (rf.electionTimeout gob).1.persister] ∧
      durable gob ps = some (rf.currentTerm + 1, rf.votedFor, rf.logs) ∧
      durable gob (rf.electionTimeout gob).1.persister =
        some (rf.currentTerm + 1, some rf.me, rf.logs) := by
  obtain ⟨et, hs⟩ := rf.changeState_eq .candidate
  unfold electionTimeoutMarks electionTimeout
  rw [hs]
  exact ⟨_, rfl, durable_save gob _ _ _ _ _, durable_save gob _ _ _ _ _⟩

section Sections

variable {rf rf' : Raft n C} (hm : rf.Mirrored gob)
include hm

theorem Wrote.adopt {t : Nat} (ht : rf.currentTerm < t)
    (h : durable gob ps' = some (t, none, rf.logs)) :
    Wrote gob me own rf.persister [.write ps'] ps' :=
  Wrote.nil.adopted hm ht h

theorem Wrote.save {l : List (LogEntry C)} (hl : Shaped l)
    (h : durable gob ps' = some (rf.currentTerm, rf.votedFor, l)) :
    Wrote gob me own rf.persister [.write ps'] ps' :=
  Wrote.nil.saved hm h hl

theorem electionTimeout_wrote (hv : own rf.votedFor) :
    Wrote gob rf.me own rf.persister (rf.electionTimeoutMarks gob)
      (rf.electionTimeout gob).1.persister := by
  obtain ⟨ps, hmarks, hps, hps'⟩ := rf.electionTimeoutMarks_eq gob
  rw [hmarks]
  have hnone : Wrote gob rf.me own rf.persister [] rf.persister := .nil
  exact (hnone.raised hm hv hps).voted hps hv List.mem_cons_self hps'

theorem requestVote_wrote (args : RequestVoteArgs n) :
    Wrote gob me own rf.persister (rf.requestVoteMarks gob args)
      (rf.requestVote gob args).1.persister := by
  unfold requestVoteMarks requestVote
  split
  · exact .nil
  · rename_i hno
    simp only [not_or, not_and, not_lt] at hno
    obtain ⟨hle, hvote⟩ := hno
    by_cases hgt : args.term > rf.currentTerm
    · obtain ⟨et, ps, hb, hps⟩ := rf.follower_adoptTerm gob args.term
      have hadopt : Wrote gob me own rf.persister [.write ps] ps := Wrote.adopt hm hgt hps
      simp only [hgt, ↓reduceIte, hb]
      split
      · exact hadopt.granted hps (.inl rfl) (durable_save gob _ _ _ _ _)
      · exact hadopt
    · simp only [hgt, ↓reduceIte]
      split
      · have hv : rf.votedFor = none ∨ rf.votedFor = some args.candidateId := by
          by_cases hn : rf.votedFor = none
          · exact .inl hn
          · exact .inr (not_not.mp (hvote (by omega) hn))
        exact Wrote.nil.granted hm hv (durable_save gob _ _ _ _ _)
      · exact .nil

theorem onRequestVoteReply_wrote (args : RequestVoteArgs n) (reply : RequestVoteReply) :
    Wrote gob me own rf.persister (rf.onRequestVoteReplyMarks gob args reply)
      (rf.onRequestVoteReply gob args reply).persister := by
  unfold onRequestVoteReplyMarks onRequestVoteReply
  split
  · split
    · dsimp only
      split
      · obtain ⟨et, hs⟩ := rf.counting.changeState_eq .leader
        rw [show ({ rf with grantedVotes := rf.grantedVotes + 1 } : Raft n C) = rf.counting
          from rfl, hs]
        exact .nil
      · exact .nil
    · split
      · rename_i hgt
        obtain ⟨et, ps, hb, hps⟩ := rf.follower_adoptTerm gob reply.term
        rw [hb]
        exact Wrote.adopt hm hgt hps
      · exact .nil
  · exact .nil

/-- The head of `AppendEntries` and of `InstallSnapshot`. -/
theorem follow_wrote {t : Nat}
    (hf : ((if t > rf.currentTerm then rf.adoptTerm gob t else rf).changeState
      .follower).resetElectionTimer = rf') :
    Wrote gob me own rf.persister
        (if t > rf.currentTerm then [.write (rf.adoptTerm gob t).persister] else [])
        rf'.persister ∧ rf'.Mirrored gob := by
  obtain ⟨et, hs⟩ :=
    (if t > rf.currentTerm then rf.adoptTerm gob t else rf).changeState_eq .follower
  rw [hs] at hf
  subst hf
  by_cases hgt : t > rf.currentTerm
  · simp only [hgt, ↓reduceIte]
    have hps : durable gob (rf.adoptTerm gob t).persister = some (t, none, rf.logs) :=
      durable_save gob _ _ _ _ _
    exact ⟨Wrote.adopt hm hgt hps, hps⟩
  · simp only [hgt, ↓reduceIte]
    exact ⟨.nil, hm⟩

theorem installSnapshot_wrote (args : InstallSnapshotArgs n) :
    Wrote gob me own rf.persister (rf.installSnapshotMarks gob args)
      (rf.installSnapshot gob args).1.persister := by
  unfold installSnapshotMarks installSnapshot
  dsimp only
  split
  · exact .nil
  · generalize hfol : ((if args.term > rf.currentTerm then rf.adoptTerm gob args.term
      else rf).changeState .follower).resetElectionTimer = rf₁
    obtain ⟨hwrote, -⟩ := follow_wrote hm hfol
    by_cases hold : args.lastIncludedIndex ≤ rf₁.commitIndex
    · rw [if_pos hold]
      exact hwrote
    · rw [if_neg hold]
      exact hwrote

/-- The splice loop writes at most once, and then stops. -/
theorem spliceEntries_wrote {entries : List (LogEntry C)} (hw' : rf'.WellFormed)
    (h : rf.spliceEntries gob entries = .ok rf') :
    Wrote gob me own rf.persister (rf.spliceEntriesMarks gob entries) rf'.persister := by
  induction entries with
  | nil =>
    obtain rfl := Except.ok.inj h
    exact .nil
  | cons entry rest ih =>
    rw [spliceEntries] at h
    rw [spliceEntriesMarks]
    split at h
    · cases h
    · rename_i hnot
      rw [if_neg hnot]
      dsimp only at h ⊢
      obtain ⟨es, hl, hes⟩ := hw'.cons
      cases he : rf.logs[entry.index - rf.getFirstLog.index]? with
      | some e =>
        rw [he] at h
        dsimp only at h ⊢
        split at h
        · rename_i hsame
          rw [if_pos hsame]
          exact ih h
        · rename_i hdiff
          rw [if_neg hdiff]
          obtain rfl := Except.ok.inj h
          exact Wrote.save hm ⟨_, _, hl, hes⟩ (durable_save gob _ _ _ _ _)
      | none =>
        rw [he] at h
        dsimp only at h ⊢
        split at h
        · rename_i hend
          rw [if_pos hend]
          obtain rfl := Except.ok.inj h
          exact Wrote.save hm ⟨_, _, hl, hes⟩ (durable_save gob _ _ _ _ _)
        · cases h

variable (me own) in
theorem appendEntries_wrote (hw : rf.WellFormed) {args : AppendEntriesArgs n C}
    (hc : Contiguous (args.prevLogIndex + 1) args.entries) :
    ∃ rf' reply, rf.appendEntries gob args = .ok (rf', reply) ∧
      Wrote gob me own rf.persister (rf.appendEntriesMarks gob args) rf'.persister := by
  obtain ⟨rf', reply, hok, hh⟩ := appendEntries_handled gob hw hm hc
  have hw' : rf'.WellFormed := by
    cases hh with
    | stale ht => exact hw
    | refused v et ps reply ht hv hps hs hr hci => exact hw.of_logs rfl
    | accepted v et ps ht hv hf hprev hps => exact accepting_wellFormed hw hc hf hprev v et ps
  refine ⟨rf', reply, hok, ?_⟩
  unfold appendEntries at hok
  unfold appendEntriesMarks
  split at hok
  · rename_i hstale
    rw [if_pos hstale]
    obtain ⟨rfl, -⟩ := Prod.mk.inj (Except.ok.inj hok)
    exact .nil
  · rename_i hnot
    rw [if_neg hnot]
    dsimp only at hok ⊢
    generalize hfol : ((if args.term > rf.currentTerm then rf.adoptTerm gob args.term
      else rf).changeState .follower).resetElectionTimer = rf₁ at hok ⊢
    obtain ⟨hwrote, hm₁⟩ := follow_wrote hm hfol
    refine hwrote.trans ?_
    split at hok
    · rename_i hbelow
      rw [if_pos hbelow]
      obtain ⟨rfl, -⟩ := Prod.mk.inj (Except.ok.inj hok)
      exact .nil
    · rename_i hfirst
      rw [if_neg hfirst]
      cases hmatch : rf₁.isLogMatched args.prevLogIndex args.prevLogTerm with
      | error ps =>
        rw [hmatch] at hok
        cases hok
      | ok matched =>
        rw [hmatch] at hok
        cases matched with
        | true =>
          cases hsplice : rf₁.spliceEntries gob args.entries with
          | error ps =>
            simp only [hsplice, bind, Except.bind, ↓reduceIte, reduceCtorEq] at hok
          | ok rf₂ =>
            simp only [hsplice, bind, Except.bind, ↓reduceIte, pure, Except.pure,
              Except.ok.injEq, Prod.mk.injEq] at hok
            obtain ⟨rfl, -⟩ := hok
            rw [followLeaderCommit_eq] at hw' ⊢
            have hw₂ : rf₂.WellFormed := hw'.of_logs rfl
            have hspliced : Wrote gob me own rf₁.persister
                (rf₁.spliceEntriesMarks gob args.entries) rf₂.persister :=
              spliceEntries_wrote hm₁ hw₂ hsplice
            exact hspliced
        | false =>
          cases hreply : rf₁.conflictReply args with
          | error ps =>
            simp only [hreply, bind, Except.bind, Bool.false_eq_true, ↓reduceIte,
              reduceCtorEq] at hok
          | ok conflict =>
            simp only [hreply, bind, Except.bind, Bool.false_eq_true, ↓reduceIte, pure,
              Except.pure, Except.ok.injEq, Prod.mk.injEq] at hok
            obtain ⟨rfl, -⟩ := hok
            exact .nil

theorem onInstallSnapshotReply_wrote (peer : Fin n) (args : InstallSnapshotArgs n)
    (reply : InstallSnapshotReply) :
    Wrote gob me own rf.persister (rf.onInstallSnapshotReplyMarks gob args reply)
      (rf.onInstallSnapshotReply gob peer args reply).persister := by
  unfold onInstallSnapshotReplyMarks onInstallSnapshotReply
  split
  · split
    · rename_i hgt
      obtain ⟨et, ps, hb, hps⟩ := rf.follower_adoptTerm gob reply.term
      rw [hb]
      exact Wrote.adopt hm hgt hps
    · exact .nil
  · exact .nil

variable (me own) in
/-- A panic while a reply of `AppendEntries` is processed comes before any write. -/
theorem onAppendEntriesReply_wrote (peer : Fin n) (args : AppendEntriesArgs n C)
    (reply : AppendEntriesReply) (hw : rf.WellFormed) :
    (∃ rf', rf.onAppendEntriesReply gob peer args reply = .ok rf' ∧
      Wrote gob me own rf.persister (rf.onAppendEntriesReplyMarks gob args reply)
        rf'.persister) ∨
    (rf.onAppendEntriesReply gob peer args reply = .error rf.persister ∧
      rf.onAppendEntriesReplyMarks gob args reply = []) := by
  unfold onAppendEntriesReply onAppendEntriesReplyMarks
  split
  · split
    · rcases advanceCommitIndexForLeader_eq
        (rf.matched peer (args.prevLogIndex + args.entries.length))
        (hw.of_logs rfl) with ⟨ci, hadv, hci⟩ | hadv
      · exact .inl ⟨_, hadv, .nil⟩
      · exact .inr ⟨hadv, rfl⟩
    · split
      · rename_i hgt
        obtain ⟨et, ps, hb, hps⟩ := rf.follower_adoptTerm gob reply.term
        rw [hb]
        exact .inl ⟨_, rfl, Wrote.adopt hm hgt hps⟩
      · split
        · rcases rf.backOff_handled peer args reply with ⟨i, hback, hi⟩ | hback
          · exact .inl ⟨_, hback, .nil⟩
          · exact .inr ⟨hback, rfl⟩
        · exact .inl ⟨_, rfl, .nil⟩
  · exact .inl ⟨_, rfl, .nil⟩

theorem start_wrote (hw : rf.WellFormed) (command : Option C) :
    Wrote gob me own rf.persister (rf.startMarks gob command)
      (rf.start gob command).1.persister := by
  unfold startMarks
  rcases rf.start_eq gob command with ⟨hs, heq⟩ | ⟨hs, ps, heq, hps⟩
  · rw [if_neg hs, heq]
    exact .nil
  · rw [if_pos hs, heq]
    obtain ⟨es, hl, hes⟩ := (appending_wellFormed hw command ps).cons
    exact Wrote.save hm ⟨_, _, hl, hes⟩ hps

variable (me own) in
theorem snapshot_wrote (hw : rf.WellFormed) (index : Nat) (data : Option Bytes) :
    ∃ rf', rf.snapshot gob index data = .ok rf' ∧
      Wrote gob me own rf.persister (rf.snapshotMarks gob index data) rf'.persister := by
  unfold snapshotMarks
  by_cases hout : index ≤ rf.getFirstLog.index ∨ index > rf.getLastLog.index
  · refine ⟨rf, ?_, ?_⟩
    · unfold snapshot
      rw [if_pos hout]
      rfl
    · rw [if_pos hout]
      exact .nil
  · have hf : rf.getFirstLog.index < index := by omega
    obtain ⟨e, ps, -, heq, hps⟩ := snapshot_accepted gob hw hf (by omega) data
    refine ⟨_, heq, ?_⟩
    rw [if_neg hout, heq]
    have hcut : (rf.compacting e.term index ps).WellFormed := cutLogs_wellFormed hw hf.le rfl
    obtain ⟨es, hl, hes⟩ := hcut.cons
    exact Wrote.save hm ⟨_, _, hl, hes⟩ hps

variable (me own) in
/-- A panic of `CondInstallSnapshot` comes before its write. -/
theorem condInstallSnapshot_wrote (hw : rf.WellFormed) (t i : Nat) (data : Option Bytes) :
    (∃ rf' result, rf.condInstallSnapshot gob t i data = .ok (rf', result) ∧
      Wrote gob me own rf.persister (rf.condInstallSnapshotMarks gob t i data) rf'.persister) ∨
    (rf.condInstallSnapshot gob t i data = .error rf.persister ∧
      rf.condInstallSnapshotMarks gob t i data = []) := by
  unfold condInstallSnapshotMarks
  rcases condInstallSnapshot_tried gob hw t i data with ⟨rf', result, heq, htried⟩ | herr
  · left
    refine ⟨rf', result, heq, ?_⟩
    rw [heq]
    cases htried with
    | outdated hc =>
      rw [if_pos hc]
      exact .nil
    | accepted ps hc hf hps =>
      rw [if_neg (Nat.not_le.mpr hc)]
      have hcut : (rf.installed t i ps).WellFormed := cutLogs_wellFormed hw hf rfl
      obtain ⟨es, hl, hes⟩ := hcut.cons
      exact Wrote.save hm ⟨_, _, hl, hes⟩ hps
  · right
    refine ⟨herr, ?_⟩
    rw [herr]
    exact ite_self _

end Sections

end RaftImplementation
