import RaftLab.Raft.Vote

set_option autoImplicit false

/-! # Log replication

`consistencyCheck`, the `AppendEntries` handler, `consistencyCheckReplyHandler` and
`updateCommitIndex`, with `sendSnapshot`, to which the leader falls back when the entries a
follower needs have been compacted away.
-/

namespace RaftLab

structure AppendEntriesArgs (n : Nat) (C : Type) where
  term : Nat
  leaderID : Fin n
  prevLogIndex : Int
  prevLogTerm : Nat
  entries : List (LogEntry C)
  leaderCommit : Int
  deriving DecidableEq, Repr

structure AppendEntriesReply where
  currentTerm : Nat
  success : Bool
  conflictTerm : Nat
  firstIndex : Int
  deriving DecidableEq, Repr

structure InstallSnapshotArgs (n : Nat) (D : Type) where
  term : Nat
  leaderID : Fin n
  lastIncludedIndex : Int
  lastIncludedTerm : Nat
  snapshot : Option D

structure InstallSnapshotReply where
  currentTerm : Nat
  deriving DecidableEq, Repr

namespace Raft

variable {n : Nat} {C D : Type}

/-! ## The follower -/

/-- The loop that looks for the first entry of the conflicting term: the slice position
after the last entry below `i` whose term is not `t`, if there is one. -/
def scanConflict (logs : List (LogEntry C)) (t : Nat) : Nat → Option Nat
  | 0 => none
  | i + 1 =>
      if (logs[i]?).any (fun e => e.term ≠ t) then some (i + 1) else scanConflict logs t i

/-- The follower's own position and term at the leader's `PrevLogIndex`; `(0, 0)` when its
log is too short. -/
def prevEntry (rf : Raft n C D) (prevLogIndex : Int) : Option (Int × Nat) :=
  if prevLogIndex < rf.logs.length + rf.snapshotIndex then do
    let e ← Slice.index rf.logs (prevLogIndex - rf.snapshotIndex)
    pure (prevLogIndex, e.term)
  else pure (0, 0)

/-- Accept the entries: cut the log after `preLogIdx`, append, and follow the leader's
commit index. -/
def appendAccept (rf : Raft n C D) (args : AppendEntriesArgs n C) (preLogIdx : Int) :
    Option (Raft n C D × AppendEntriesReply) := do
  let kept ← Slice.takeTo rf.logs (preLogIdx - rf.snapshotIndex + 1)
  let logs := kept ++ args.entries
  let last : Int := rf.snapshotIndex + logs.length - 1
  let commitIndex :=
    if args.leaderCommit > rf.commitIndex then min args.leaderCommit last else rf.commitIndex
  let e ← Slice.index logs (last - rf.snapshotIndex)
  pure ({ rf with logs := logs, commitIndex := commitIndex }.persist,
    { currentTerm := 0, success := true, conflictTerm := e.term, firstIndex := last })

/-- Refuse the entries, with the hint the leader backs up by. -/
def appendConflict (rf : Raft n C D) (preLogIdx : Int) (preLogTerm : Nat) :
    Option (Raft n C D × AppendEntriesReply) :=
  if preLogTerm = 0 then do
    -- the leader has more entries, or the follower has none at all
    let first : Int := rf.logs.length + rf.snapshotIndex
    let e ← Slice.index rf.logs (first - rf.snapshotIndex - 1)
    pure (rf.persist,
      { currentTerm := 0, success := false, conflictTerm := e.term, firstIndex := first })
  else
    let first : Int :=
      match scanConflict rf.logs preLogTerm (preLogIdx - rf.snapshotIndex).toNat with
      | some i => i + rf.snapshotIndex
      | none => 1 + rf.snapshotIndex
    some (rf.persist,
      { currentTerm := 0, success := false, conflictTerm := preLogTerm, firstIndex := first })

/-- What a valid request changes before the logs are compared. A candidate stays candidate. -/
def hearLeader (rf : Raft n C D) (args : AppendEntriesArgs n C) : Raft n C D :=
  let rf := if rf.currentTerm < args.term then { rf with currentTerm := args.term } else rf
  -- for stale leader
  let rf := if rf.state = .leader then rf.turnToFollow else rf
  -- for straggler (follower)
  if rf.votedFor ≠ some args.leaderID then { rf with votedFor := some args.leaderID } else rf

/-- The `AppendEntries` handler. -/
def appendEntries (rf : Raft n C D) (args : AppendEntriesArgs n C) :
    Option (Raft n C D × AppendEntriesReply) :=
  if args.term < rf.currentTerm then
    some (rf, { currentTerm := rf.currentTerm, success := false, conflictTerm := 0,
                firstIndex := 0 })
  else
    let rf := rf.hearLeader args
    if args.prevLogIndex < rf.snapshotIndex then
      some (rf, { currentTerm := rf.currentTerm, success := false,
                  conflictTerm := rf.snapshotTerm, firstIndex := rf.snapshotIndex })
    else do
      let (preLogIdx, preLogTerm) ← rf.prevEntry args.prevLogIndex
      if preLogIdx = args.prevLogIndex ∧ preLogTerm = args.prevLogTerm then
        rf.appendAccept args preLogIdx
      else
        rf.appendConflict preLogIdx preLogTerm

/-! ## The leader -/

/-- The arguments of `sendSnapshot`. -/
def sendSnapshot (rf : Raft n C D) : InstallSnapshotArgs n D :=
  { term := rf.currentTerm
    leaderID := rf.me
    lastIncludedIndex := rf.snapshotIndex
    lastIncludedTerm := rf.snapshotTerm
    snapshot := rf.persister.snapshot }

/-- What a leader sends to a follower: entries, or its snapshot. -/
inductive Outgoing (n : Nat) (C D : Type) where
  | append (args : AppendEntriesArgs n C)
  | snapshot (args : InstallSnapshotArgs n D)

/-- The entries from `nextIndex[i]` on. -/
def entriesFor (rf : Raft n C D) (i : Fin n) : Option (List (LogEntry C)) :=
  if rf.nextIndex i < rf.logs.length + rf.snapshotIndex then
    Slice.dropFrom rf.logs (rf.nextIndex i - rf.snapshotIndex)
  else some []

/-- `consistencyCheck`: what the peer sends to follower `i`, nothing when it is not leader. -/
def consistencyCheck (rf : Raft n C D) (i : Fin n) : Option (Option (Outgoing n C D)) :=
  if rf.state ≠ .leader then some none
  else
    let pre := rf.nextIndex i - 1
    if pre < rf.snapshotIndex then some (some (.snapshot rf.sendSnapshot))
    else do
      let beyond := pre - rf.snapshotIndex > rf.logs.length - 1
      let previndex := if beyond then rf.logs.length + rf.snapshotIndex - 1 else pre
      let prevlog := if beyond then (rf.logs.length : Int) - 1 else pre - rf.snapshotIndex
      let e ← Slice.index rf.logs prevlog
      let entries ← rf.entriesFor i
      pure (some (.append {
        term := rf.currentTerm
        leaderID := rf.me
        prevLogIndex := previndex
        prevLogTerm := e.term
        entries := entries
        leaderCommit := rf.commitIndex }))

/-- `match[len(rf.peers)/2]` of the sorted copy of `matchIndex`. -/
def medianMatch (rf : Raft n C D) : Option Int :=
  (((List.finRange n).map rf.matchIndex).insertionSort (· ≤ ·))[n / 2]?

/-- `updateCommitIndex`: advance to the median of `matchIndex` if that entry is of this term. -/
def updateCommitIndex (rf : Raft n C D) : Option (Raft n C D) := do
  let target ← rf.medianMatch
  if rf.commitIndex < target ∧ rf.snapshotIndex < target then
    let e ← Slice.index rf.logs (target - rf.snapshotIndex)
    if e.term = rf.currentTerm then pure { rf with commitIndex := target } else pure rf
  else pure rf

/-- The loop that looks for the leader's last entry of term `t`, from slice position `i`
down to `1`. -/
def scanLast (logs : List (LogEntry C)) (t : Nat) : Nat → Option Nat
  | 0 => none
  | i + 1 =>
      if (logs[i + 1]?).any (fun e => e.term = t) then some (i + 1) else scanLast logs t i

/-- Where the leader backs `nextIndex` up to after a refusal, before clamping. -/
def backupIndex (rf : Raft n C D) (reply : AppendEntriesReply) : Int :=
  if reply.conflictTerm ≠ 0 then
    match scanLast rf.logs reply.conflictTerm (rf.logs.length - 1) with
    | some i => min (i + rf.snapshotIndex) reply.firstIndex
    | none => reply.firstIndex
  else reply.firstIndex

/-- Back `nextIndex[i]` up after a refusal; the second component says that the snapshot is
sent. -/
def backup (rf : Raft n C D) (i : Fin n) (reply : AppendEntriesReply) : Raft n C D × Bool :=
  let next := rf.backupIndex reply
  if rf.snapshotIndex ≠ 0 ∧ next ≤ rf.snapshotIndex then
    ({ rf with nextIndex := Function.update rf.nextIndex i next }, true)
  else
    -- snapshot + 1 <= nextIndex <= len(rf.Logs) + snapshot
    let next := min (max next (1 + rf.snapshotIndex)) (rf.logs.length + rf.snapshotIndex)
    let next := if rf.nextIndex i = next then max (next - 1) rf.snapshotIndex else next
    ({ rf with nextIndex := Function.update rf.nextIndex i next }, false)

/-- `consistencyCheckReplyHandler` for the reply of follower `i`; the second component is
the snapshot request it may send. -/
def consistencyCheckReplyHandler (rf : Raft n C D) (i : Fin n) (reply : AppendEntriesReply) :
    Option (Raft n C D × Option (InstallSnapshotArgs n D)) :=
  if rf.state ≠ .leader then some (rf, none)
  else if reply.success then
    if reply.firstIndex > rf.logs.length + rf.snapshotIndex - 1 then
      none  -- panic("rf.matchIndex[n] >= len(rf.Logs)")
    else do
      let rf' ← { rf with
        matchIndex := Function.update rf.matchIndex i reply.firstIndex
        nextIndex := Function.update rf.nextIndex i (reply.firstIndex + 1) }.updateCommitIndex
      pure (rf', none)
  else if reply.currentTerm > rf.currentTerm then
    -- a new leader was found: the term itself is not adopted
    some (rf.turnToFollow.persist, none)
  else
    let (rf', sendsSnapshot) := rf.backup i reply
    some (rf', if sendsSnapshot then some rf'.sendSnapshot else none)

/-- The reply handler of `sendSnapshot`. -/
def snapshotReplyHandler (rf : Raft n C D) (server : Fin n) (reply : InstallSnapshotReply) :
    Raft n C D :=
  if rf.state = .leader then
    if reply.currentTerm > rf.currentTerm then
      { rf with currentTerm := reply.currentTerm }.turnToFollow
    else
      { rf with
        matchIndex := Function.update rf.matchIndex server rf.snapshotIndex
        nextIndex := Function.update rf.nextIndex server (rf.snapshotIndex + 1) }
  else rf

/-! ## What the handlers do -/

theorem hearLeader_eq {rf : Raft n C D} {args : AppendEntriesArgs n C}
    (h : rf.currentTerm ≤ args.term) :
    rf.hearLeader args =
      { rf with
        currentTerm := args.term
        state := if rf.state = .leader then .follower else rf.state
        votedFor := some args.leaderID } := by
  rcases rf with ⟨ps, me, st, ct, vf, lg, ci, la, ni, mi, si, sti⟩
  simp only at h
  by_cases hst : st = .leader <;> rcases Nat.lt_or_eq_of_le h with hlt | rfl <;>
    simp [hearLeader, turnToFollow, *]

theorem prevEntry_eq_some {rf : Raft n C D} {prev i : Int} {t : Nat}
    (h : rf.prevEntry prev = some (i, t)) :
    (prev < rf.logs.length + rf.snapshotIndex ∧ i = prev ∧
      ∃ e, Slice.index rf.logs (prev - rf.snapshotIndex) = some e ∧ e.term = t) ∨
    (rf.logs.length + rf.snapshotIndex ≤ prev ∧ i = 0 ∧ t = 0) := by
  unfold prevEntry at h
  split at h
  · rename_i hlt
    simp only [Option.bind_eq_bind, Option.bind_eq_some_iff, Option.pure_def,
      Option.some.injEq, Prod.mk.injEq] at h
    obtain ⟨e, he, rfl, rfl⟩ := h
    exact Or.inl ⟨hlt, rfl, e, he, rfl⟩
  · rename_i hge
    cases h
    exact Or.inr ⟨by omega, rfl, rfl⟩

/-- The peer after accepting entries cut after slice position `k`. -/
def accepted (rf : Raft n C D) (args : AppendEntriesArgs n C) (k : Nat) : Raft n C D :=
  { rf with
    logs := rf.logs.take (k + 1) ++ args.entries
    commitIndex :=
      if args.leaderCommit > rf.commitIndex
      then min args.leaderCommit (rf.snapshotIndex + k + args.entries.length)
      else rf.commitIndex }.persist

theorem accepted_commitIndex (rf : Raft n C D) (args : AppendEntriesArgs n C) (k : Nat) :
    ((rf.accepted args k).commitIndex ≤ args.leaderCommit ∧
        (rf.accepted args k).commitIndex ≤ rf.snapshotIndex + k + args.entries.length) ∨
      (rf.accepted args k).commitIndex = rf.commitIndex := by
  by_cases hlt : args.leaderCommit > rf.commitIndex
  · have heq : (rf.accepted args k).commitIndex =
        min args.leaderCommit (rf.snapshotIndex + k + args.entries.length) := if_pos hlt
    rw [heq]
    exact Or.inl ⟨Int.min_le_left _ _, Int.min_le_right _ _⟩
  · exact Or.inr (if_neg hlt)

theorem appendAccept_eq_some {rf rf' : Raft n C D} {args : AppendEntriesArgs n C}
    {reply : AppendEntriesReply} {i : Int} (hi : rf.snapshotIndex ≤ i)
    (h : rf.appendAccept args i = some (rf', reply)) :
    ∃ k : Nat, i = rf.snapshotIndex + k ∧ k < rf.logs.length ∧ rf' = rf.accepted args k ∧
      reply.success = true ∧ reply.currentTerm = 0 ∧
      reply.firstIndex = rf.snapshotIndex + k + args.entries.length := by
  simp only [appendAccept, Option.bind_eq_bind, Option.bind_eq_some_iff, Option.pure_def,
    Option.some.injEq, Prod.mk.injEq] at h
  obtain ⟨kept, hkept, e, -, rfl, rfl⟩ := h
  obtain ⟨-, hlen, rfl⟩ := Slice.takeTo_eq_some hkept
  have hk : (i - rf.snapshotIndex + 1).toNat = (i - rf.snapshotIndex).toNat + 1 := by omega
  have hlast : rf.snapshotIndex +
      ((rf.logs.take (i - rf.snapshotIndex + 1).toNat ++ args.entries).length : Int) - 1
      = rf.snapshotIndex + (i - rf.snapshotIndex).toNat + args.entries.length := by
    rw [List.length_append, List.length_take, hk]
    omega
  refine ⟨(i - rf.snapshotIndex).toNat, by omega, by omega, ?_, rfl, rfl, hlast⟩
  rw [accepted, hlast, hk]

theorem appendConflict_eq_some {rf rf' : Raft n C D} {reply : AppendEntriesReply} {i : Int}
    {t : Nat} (h : rf.appendConflict i t = some (rf', reply)) :
    rf' = rf.persist ∧ reply.success = false ∧ reply.currentTerm = 0 := by
  unfold appendConflict at h
  split at h
  · simp only [Option.bind_eq_bind, Option.bind_eq_some_iff, Option.pure_def,
      Option.some.injEq, Prod.mk.injEq] at h
    obtain ⟨e, -, rfl, rfl⟩ := h
    exact ⟨rfl, rfl, rfl⟩
  · cases h
    exact ⟨rfl, rfl, rfl⟩

/-- The four ways out of `AppendEntries`: the request is stale, it is older than the
snapshot, its entries are accepted after slice position `k`, or the logs conflict. -/
theorem appendEntries_cases {rf rf' : Raft n C D} {args : AppendEntriesArgs n C}
    {reply : AppendEntriesReply} (h : rf.appendEntries args = some (rf', reply)) :
    (args.term < rf.currentTerm ∧ rf' = rf ∧ reply.success = false ∧
      reply.currentTerm = rf.currentTerm) ∨
    (rf.currentTerm ≤ args.term ∧ args.prevLogIndex < rf.snapshotIndex ∧
      rf' = rf.hearLeader args ∧ reply.success = false ∧ reply.currentTerm = args.term) ∨
    (rf.currentTerm ≤ args.term ∧
      (∃ k : Nat, args.prevLogIndex = rf.snapshotIndex + k ∧
        (∃ e, rf.logs[k]? = some e ∧ e.term = args.prevLogTerm) ∧
        rf' = (rf.hearLeader args).accepted args k ∧
        reply.success = true ∧ reply.currentTerm = 0 ∧
        reply.firstIndex = rf.snapshotIndex + k + args.entries.length)) ∨
    (rf.currentTerm ≤ args.term ∧ rf.snapshotIndex ≤ args.prevLogIndex ∧
      rf' = (rf.hearLeader args).persist ∧ reply.success = false ∧ reply.currentTerm = 0) := by
  unfold appendEntries at h
  split at h
  · rename_i hlt
    cases h
    exact Or.inl ⟨hlt, rfl, rfl, rfl⟩
  rename_i hge
  have hle : rf.currentTerm ≤ args.term := by omega
  have hsnap : (rf.hearLeader args).snapshotIndex = rf.snapshotIndex := by
    rw [hearLeader_eq hle]
  have hterm : (rf.hearLeader args).currentTerm = args.term := by rw [hearLeader_eq hle]
  have hlogs : (rf.hearLeader args).logs = rf.logs := by rw [hearLeader_eq hle]
  simp only at h
  split at h
  · rename_i hpast
    cases h
    rw [hsnap] at hpast
    exact Or.inr (Or.inl ⟨hle, hpast, rfl, rfl, hterm⟩)
  rename_i hpast
  simp only [Option.bind_eq_bind, Option.bind_eq_some_iff, Prod.exists] at h
  obtain ⟨i, t, hprev, h⟩ := h
  split at h
  · rename_i hmatch
    obtain ⟨rfl, rfl⟩ := hmatch
    obtain ⟨k, hk, hklt, hrf, hsucc, hct, hfirst⟩ := appendAccept_eq_some (by omega) h
    rw [hsnap] at hk hfirst
    rw [hlogs] at hklt
    refine Or.inr (Or.inr (Or.inl ⟨hle, k, hk, ?_, hrf, hsucc, hct, hfirst⟩))
    rcases prevEntry_eq_some hprev with ⟨-, -, e, he, het⟩ | ⟨hlong, -, -⟩
    · rw [hlogs, hsnap, hk, show rf.snapshotIndex + (k : Int) - rf.snapshotIndex = k by omega,
        Slice.index_natCast] at he
      exact ⟨e, he, het⟩
    · rw [hlogs, hsnap] at hlong
      omega
  · obtain ⟨hrf, hsucc, hct⟩ := appendConflict_eq_some h
    exact Or.inr (Or.inr (Or.inr ⟨hle, by omega, hrf, hsucc, hct⟩))

/-- A replication message is the whole suffix of the leader's log after slice position `k`. -/
theorem consistencyCheck_append {rf : Raft n C D} {i : Fin n} {args : AppendEntriesArgs n C}
    (h : rf.consistencyCheck i = some (some (.append args))) :
    rf.state = .leader ∧ args.term = rf.currentTerm ∧ args.leaderID = rf.me ∧
      args.leaderCommit = rf.commitIndex ∧
      ∃ k : Nat, args.prevLogIndex = rf.snapshotIndex + k ∧
        (∃ e, rf.logs[k]? = some e ∧ e.term = args.prevLogTerm) ∧
        args.entries = rf.logs.drop (k + 1) := by
  unfold consistencyCheck at h
  split at h
  · cases h
  rename_i hlead
  simp only at h
  split at h
  · cases h
  rename_i hpre
  simp only [Option.bind_eq_bind, Option.bind_eq_some_iff, Option.pure_def,
    Option.some.injEq, Outgoing.append.injEq] at h
  obtain ⟨e, he, entries, hent, rfl⟩ := h
  refine ⟨not_not.mp hlead, rfl, rfl, rfl, ?_⟩
  unfold entriesFor at hent
  simp only
  by_cases hb : rf.nextIndex i - 1 - rf.snapshotIndex > rf.logs.length - 1
  · -- `nextIndex` points beyond the log: nothing is sent after the last entry
    simp only [hb, if_true] at he ⊢
    obtain ⟨k, hk, hget⟩ := Slice.index_eq_some he
    rw [if_neg (by omega)] at hent
    refine ⟨k, by omega, ⟨e, hget, rfl⟩, ?_⟩
    rw [List.drop_eq_nil_of_le (by omega)]
    exact (Option.some.inj hent).symm
  · simp only [hb, if_false] at he ⊢
    obtain ⟨k, hk, hget⟩ := Slice.index_eq_some he
    refine ⟨k, by omega, ⟨e, hget, rfl⟩, ?_⟩
    split at hent
    · obtain ⟨-, -, rfl⟩ := Slice.dropFrom_eq_some hent
      congr 1
      omega
    · rw [List.drop_eq_nil_of_le (by omega)]
      exact (Option.some.inj hent).symm

theorem consistencyCheck_snapshot {rf : Raft n C D} {i : Fin n} {args : InstallSnapshotArgs n D}
    (h : rf.consistencyCheck i = some (some (.snapshot args))) :
    rf.state = .leader ∧ args = rf.sendSnapshot := by
  unfold consistencyCheck at h
  split at h
  · cases h
  rename_i hlead
  simp only at h
  split at h
  · exact ⟨not_not.mp hlead, by cases h; rfl⟩
  · simp [Option.bind_eq_some_iff] at h

/-- `updateCommitIndex` leaves the peer alone, or advances to the median of `matchIndex`. -/
theorem updateCommitIndex_cases {rf rf' : Raft n C D} (h : rf.updateCommitIndex = some rf') :
    rf' = rf ∨
    ∃ target, rf.medianMatch = some target ∧ rf.commitIndex < target ∧
      rf.snapshotIndex < target ∧
      (∃ e, Slice.index rf.logs (target - rf.snapshotIndex) = some e ∧
        e.term = rf.currentTerm) ∧
      rf' = { rf with commitIndex := target } := by
  simp only [updateCommitIndex, Option.bind_eq_bind, Option.bind_eq_some_iff] at h
  obtain ⟨target, hm, h⟩ := h
  split at h
  · rename_i hlt
    simp only [Option.bind_eq_some_iff] at h
    obtain ⟨e, he, h⟩ := h
    split at h
    · rename_i ht
      cases h
      exact Or.inr ⟨target, hm, hlt.1, hlt.2, ⟨e, he, ht⟩, rfl⟩
    · cases h
      exact Or.inl rfl
  · cases h
    exact Or.inl rfl

/-- The leader's cells for follower `i` after a success reply. -/
def acknowledged (rf : Raft n C D) (i : Fin n) (index : Int) : Raft n C D :=
  { rf with
    matchIndex := Function.update rf.matchIndex i index
    nextIndex := Function.update rf.nextIndex i (index + 1) }

theorem backup_fst (rf : Raft n C D) (i : Fin n) (reply : AppendEntriesReply) :
    ∃ next, (rf.backup i reply).1 =
      { rf with nextIndex := Function.update rf.nextIndex i next } := by
  unfold backup
  simp only
  by_cases h : rf.snapshotIndex ≠ 0 ∧ rf.backupIndex reply ≤ rf.snapshotIndex
  · rw [if_pos h]
    exact ⟨_, rfl⟩
  · rw [if_neg h]
    exact ⟨_, rfl⟩

/-- What the reply of an `AppendEntries` call can do at the caller. -/
theorem consistencyCheckReplyHandler_cases {rf rf' : Raft n C D} {i : Fin n}
    {reply : AppendEntriesReply} {out : Option (InstallSnapshotArgs n D)}
    (h : rf.consistencyCheckReplyHandler i reply = some (rf', out)) :
    (rf.state ≠ .leader ∧ rf' = rf ∧ out = none) ∨
    (rf.state = .leader ∧ reply.success = true ∧
      reply.firstIndex ≤ rf.logs.length + rf.snapshotIndex - 1 ∧
      (rf.acknowledged i reply.firstIndex).updateCommitIndex = some rf' ∧ out = none) ∨
    (rf.state = .leader ∧ reply.success = false ∧ rf.currentTerm < reply.currentTerm ∧
      rf' = rf.turnToFollow.persist ∧ out = none) ∨
    (rf.state = .leader ∧ reply.success = false ∧ reply.currentTerm ≤ rf.currentTerm ∧
      (∃ next, rf' = { rf with nextIndex := Function.update rf.nextIndex i next }) ∧
      (out = none ∨ out = some rf'.sendSnapshot)) := by
  unfold consistencyCheckReplyHandler at h
  split at h
  · rename_i hlead
    cases h
    exact Or.inl ⟨hlead, rfl, rfl⟩
  rename_i hlead
  have hlead : rf.state = .leader := not_not.mp hlead
  split at h
  · rename_i hsucc
    split at h
    · cases h
    rename_i hle
    simp only [Option.bind_eq_bind, Option.bind_eq_some_iff, Option.pure_def,
      Option.some.injEq, Prod.mk.injEq] at h
    obtain ⟨rf1, h1, rfl, rfl⟩ := h
    exact Or.inr (Or.inl ⟨hlead, hsucc, by omega, h1, rfl⟩)
  rename_i hsucc
  have hsucc : reply.success = false := by simpa using hsucc
  split at h
  · rename_i hgt
    cases h
    exact Or.inr (Or.inr (Or.inl ⟨hlead, hsucc, hgt, rfl, rfl⟩))
  · rename_i hle
    refine Or.inr (Or.inr (Or.inr ⟨hlead, hsucc, by omega, ?_⟩))
    simp only [Option.some.injEq, Prod.mk.injEq] at h
    obtain ⟨rfl, rfl⟩ := h
    constructor
    · exact backup_fst rf i reply
    · cases (rf.backup i reply).2
      · exact Or.inl rfl
      · exact Or.inr rfl

theorem snapshotReplyHandler_cases (rf : Raft n C D) (i : Fin n) (reply : InstallSnapshotReply) :
    (rf.state ≠ .leader ∧ rf.snapshotReplyHandler i reply = rf) ∨
    (rf.state = .leader ∧ rf.currentTerm < reply.currentTerm ∧
      rf.snapshotReplyHandler i reply =
        { rf with currentTerm := reply.currentTerm }.turnToFollow) ∨
    (rf.state = .leader ∧ reply.currentTerm ≤ rf.currentTerm ∧
      rf.snapshotReplyHandler i reply = rf.acknowledged i rf.snapshotIndex) := by
  unfold snapshotReplyHandler
  by_cases hlead : rf.state = .leader
  · rw [if_pos hlead]
    by_cases ht : reply.currentTerm > rf.currentTerm
    · rw [if_pos ht]
      exact Or.inr (Or.inl ⟨hlead, ht, rfl⟩)
    · rw [if_neg ht]
      exact Or.inr (Or.inr ⟨hlead, by omega, rfl⟩)
  · rw [if_neg hlead]
    exact Or.inl ⟨hlead, rfl⟩

end Raft

end RaftLab
