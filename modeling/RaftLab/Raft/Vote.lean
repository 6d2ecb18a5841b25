import RaftLab.Raft.State

set_option autoImplicit false

/-! # Elections

`fillRequestVoteArgs`, the `RequestVote` handler and the reply handler that `canvassVotes`
builds for one election. An election is one call of `canvassVotes`: it has its own
`voteArgs` and its own counter `votes`, which the reply handler closes over.
-/

namespace RaftLab

structure RequestVoteArgs (n : Nat) where
  term : Nat
  candidateID : Fin n
  lastLogIndex : Int
  lastLogTerm : Nat
  deriving DecidableEq, Repr

structure RequestVoteReply where
  currentTerm : Nat
  voteGranted : Bool
  deriving DecidableEq, Repr

namespace Raft

variable {n : Nat} {C D : Type}

/-- Turn to candidate and vote for itself. Nothing is persisted here. -/
def fillRequestVoteArgs (rf : Raft n C D) : Option (Raft n C D × RequestVoteArgs n) := do
  let rf' := { rf with
    votedFor := some rf.me
    currentTerm := rf.currentTerm + 1
    state := .candidate }
  let (lastLogIndex, lastLogTerm) ← rf'.lastLogIndexAndTerm
  pure (rf', {
    term := rf'.currentTerm
    candidateID := rf.me
    lastLogIndex := lastLogIndex
    lastLogTerm := lastLogTerm })

/-- Convert to follower when the request carries a higher term. -/
def adoptTerm (rf : Raft n C D) (term : Nat) : Raft n C D :=
  if term > rf.currentTerm then
    { rf with currentTerm := term, state := .follower, votedFor := none }
  else rf

/-- Is the candidate's log at least as up to date as one ending in `lastLogIdx`, `lastLogTerm`? -/
def upToDate (args : RequestVoteArgs n) (lastLogIdx : Int) (lastLogTerm : Nat) : Bool :=
  (args.lastLogTerm = lastLogTerm && args.lastLogIndex ≥ lastLogIdx)
    || args.lastLogTerm > lastLogTerm

/-- The `RequestVote` handler. A granted vote leaves `CurrentTerm` of the reply at zero. -/
def requestVote (rf : Raft n C D) (args : RequestVoteArgs n) :
    Option (Raft n C D × RequestVoteReply) := do
  let (lastLogIdx, lastLogTerm) ← rf.lastLogIndexAndTerm
  if args.term < rf.currentTerm then
    pure (rf.persist, { currentTerm := rf.currentTerm, voteGranted := false })
  else
    let rf' := rf.adoptTerm args.term
    if rf'.votedFor = none ∧ upToDate args lastLogIdx lastLogTerm then
      let rf'' := { rf' with state := .follower, votedFor := some args.candidateID }
      pure (rf''.persist, { currentTerm := 0, voteGranted := true })
    else
      pure (rf'.persist, { currentTerm := 0, voteGranted := false })

/-- The reply handler of one election: the new peer and the new value of `votes`. -/
def voteReplyHandler (rf : Raft n C D) (voteArgs : RequestVoteArgs n) (votes : Nat)
    (reply : RequestVoteReply) : Raft n C D × Nat :=
  if rf.state = .candidate then
    if reply.currentTerm > voteArgs.term then
      ({ rf with currentTerm := reply.currentTerm }.turnToFollow.persist, votes)
    else if reply.voteGranted then
      if votes = n / 2 then
        ({ rf with state := .leader }.resetOnElection, votes)
      else (rf, votes + 1)
    else (rf, votes)
  else (rf, votes)

/-! ## What the handlers do -/

theorem lastLogIndexAndTerm_eq_some {rf : Raft n C D} {i : Int} {t : Nat}
    (h : rf.lastLogIndexAndTerm = some (i, t)) :
    i = rf.snapshotIndex + rf.logs.length - 1 ∧
      ∃ e, rf.logs.getLast? = some e ∧ e.term = t := by
  simp only [lastLogIndexAndTerm, Option.bind_eq_bind, Option.bind_eq_some_iff,
    Option.pure_def, Option.some.injEq, Prod.mk.injEq] at h
  obtain ⟨e, he, hi, ht⟩ := h
  refine ⟨hi.symm, e, ?_, ht⟩
  obtain ⟨k, hk, hget⟩ := Slice.index_eq_some he
  rw [List.getLast?_eq_getElem?, ← hget]
  congr 1
  omega

theorem fillRequestVoteArgs_eq_some {rf rf' : Raft n C D} {args : RequestVoteArgs n}
    (h : rf.fillRequestVoteArgs = some (rf', args)) :
    rf' = { rf with votedFor := some rf.me, currentTerm := rf.currentTerm + 1,
                    state := .candidate } ∧
      args.term = rf.currentTerm + 1 ∧ args.candidateID = rf.me ∧
      rf.lastLogIndexAndTerm = some (args.lastLogIndex, args.lastLogTerm) := by
  simp only [fillRequestVoteArgs, Option.bind_eq_bind, Option.bind_eq_some_iff,
    Option.pure_def, Option.some.injEq, Prod.mk.injEq, Prod.exists] at h
  obtain ⟨i, t, hlast, rfl, rfl⟩ := h
  exact ⟨rfl, rfl, rfl, hlast⟩

/-- A vote request is refused as stale, granted, or refused after adopting its term. -/
theorem requestVote_cases {rf rf' : Raft n C D} {args : RequestVoteArgs n}
    {reply : RequestVoteReply} (h : rf.requestVote args = some (rf', reply)) :
    (args.term < rf.currentTerm ∧ rf' = rf.persist ∧
      reply = { currentTerm := rf.currentTerm, voteGranted := false }) ∨
    (rf.currentTerm ≤ args.term ∧ (rf.adoptTerm args.term).votedFor = none ∧
      (∃ i t, rf.lastLogIndexAndTerm = some (i, t) ∧ upToDate args i t = true) ∧
      rf' = { rf.adoptTerm args.term with
        state := .follower, votedFor := some args.candidateID }.persist ∧
      reply = { currentTerm := 0, voteGranted := true }) ∨
    (rf.currentTerm ≤ args.term ∧ rf' = (rf.adoptTerm args.term).persist ∧
      reply = { currentTerm := 0, voteGranted := false }) := by
  simp only [requestVote, Option.bind_eq_bind, Option.bind_eq_some_iff, Prod.exists] at h
  obtain ⟨i, t, hlast, h⟩ := h
  split at h
  · rename_i hlt
    cases h
    exact Or.inl ⟨hlt, rfl, rfl⟩
  · rename_i hge
    split at h
    · rename_i hgrant
      cases h
      exact Or.inr (Or.inl ⟨by omega, hgrant.1, ⟨i, t, hlast, hgrant.2⟩, rfl, rfl⟩)
    · cases h
      exact Or.inr (Or.inr ⟨by omega, rfl, rfl⟩)

theorem adoptTerm_currentTerm {rf : Raft n C D} {t : Nat} (h : rf.currentTerm ≤ t) :
    (rf.adoptTerm t).currentTerm = t := by
  unfold adoptTerm
  split
  · rfl
  · omega

theorem adoptTerm_of_lt {rf : Raft n C D} {t : Nat} (h : rf.currentTerm < t) :
    rf.adoptTerm t = { rf with currentTerm := t, state := .follower, votedFor := none } :=
  if_pos h

theorem adoptTerm_of_le {rf : Raft n C D} {t : Nat} (h : t ≤ rf.currentTerm) :
    rf.adoptTerm t = rf :=
  if_neg (Nat.not_lt.mpr h)

/-- What the reply handler of an election can do: nothing, step down, win, or count. -/
theorem voteReplyHandler_cases (rf : Raft n C D) (voteArgs : RequestVoteArgs n) (votes : Nat)
    (reply : RequestVoteReply) :
    (rf.voteReplyHandler voteArgs votes reply = (rf, votes)) ∨
    (rf.state = .candidate ∧ voteArgs.term < reply.currentTerm ∧
      rf.voteReplyHandler voteArgs votes reply =
        ({ rf with currentTerm := reply.currentTerm }.turnToFollow.persist, votes)) ∨
    (rf.state = .candidate ∧ reply.currentTerm ≤ voteArgs.term ∧ reply.voteGranted = true ∧
      votes = n / 2 ∧
      rf.voteReplyHandler voteArgs votes reply =
        ({ rf with state := .leader }.resetOnElection, votes)) ∨
    (rf.state = .candidate ∧ reply.voteGranted = true ∧
      rf.voteReplyHandler voteArgs votes reply = (rf, votes + 1)) := by
  unfold voteReplyHandler
  by_cases hc : rf.state = .candidate
  · rw [if_pos hc]
    by_cases ht : reply.currentTerm > voteArgs.term
    · rw [if_pos ht]
      exact Or.inr (Or.inl ⟨hc, ht, rfl⟩)
    · rw [if_neg ht]
      by_cases hg : reply.voteGranted = true
      · rw [if_pos hg]
        by_cases hv : votes = n / 2
        · rw [if_pos hv]
          exact Or.inr (Or.inr (Or.inl ⟨hc, by omega, hg, hv, rfl⟩))
        · rw [if_neg hv]
          exact Or.inr (Or.inr (Or.inr ⟨hc, hg, rfl⟩))
      · rw [if_neg hg]
        exact Or.inl rfl
  · rw [if_neg hc]
    exact Or.inl rfl

end Raft

end RaftLab
