import RaftLab.Raft.Append

set_option autoImplicit false

/-! # Log compaction and delivery to the service

`NewSnapShot`, the `InstallSnapshot` handler, and `applyLogEntryDaemon`, which copies the
newly committed entries under the lock and sends them on `applyCh` after releasing it.
-/

namespace RaftLab.Raft

variable {n : Nat} {C D : Type}

/-- `NewSnapShot`: the service has a snapshot up to `index`; drop the log below it. -/
def newSnapShot (rf : Raft n C D) (snapshotdata : Option D) (index : Int) :
    Option (Raft n C D) :=
  if rf.commitIndex < index ∨ index ≤ rf.snapshotIndex then some rf
  else do
    -- the last entry of the snapshot stays as the first entry of the log
    let logs ← Slice.dropFrom rf.logs (index - rf.snapshotIndex)
    let e ← Slice.index logs 0
    let rf' := { rf with logs := logs, snapshotIndex := index, snapshotTerm := e.term }
    pure { rf' with
      persister := rf'.persister.saveStateAndSnapshot rf'.stateData snapshotdata }

/-- The message by which a snapshot reaches the service. -/
def snapshotMsg (index : Int) (snapshot : Option D) : ApplyMsg C D :=
  { commandValid := true
    command := none
    commandIndex := index
    useSnapshot := true
    snapshot := snapshot }

/-- Replace everything up to `LastIncludedIndex` by the snapshot, keeping the entries `rest`. -/
def installAt (rf : Raft n C D) (args : InstallSnapshotArgs n D) (rest : List (LogEntry C)) :
    Raft n C D :=
  let rf' := { rf with
    snapshotIndex := args.lastIncludedIndex
    snapshotTerm := args.lastIncludedTerm
    commitIndex := args.lastIncludedIndex
    lastApplied := args.lastIncludedIndex
    logs := { term := args.lastIncludedTerm, command := none } :: rest }
  { rf' with persister := rf'.persister.saveStateAndSnapshot rf'.stateData args.snapshot }

/-- The `InstallSnapshot` handler; the third component is the message sent on `applyCh`. -/
def installSnapshot (rf : Raft n C D) (args : InstallSnapshotArgs n D) :
    Option (Raft n C D × InstallSnapshotReply × Option (ApplyMsg C D)) :=
  let reply : InstallSnapshotReply := { currentTerm := rf.currentTerm }
  if args.term < rf.currentTerm then some (rf, reply, none)
  -- may have duplicate snapshot
  else if args.lastIncludedIndex ≤ rf.snapshotIndex then some (rf, reply, none)
  -- snapshot have all logs
  else if args.lastIncludedIndex ≥ rf.snapshotIndex + rf.logs.length - 1 then
    some (rf.installAt args [], reply,
      some (snapshotMsg args.lastIncludedIndex args.snapshot))
  -- snapshot contains part of logs
  else do
    let tmp ← Slice.dropFrom rf.logs (args.lastIncludedIndex - rf.snapshotIndex + 1)
    pure (rf.installAt args tmp, reply,
      some (snapshotMsg args.lastIncludedIndex args.snapshot))

/-- The messages for the entries `logs`, the first of which has index `first`. -/
def applyMsgs (first : Int) : List (LogEntry C) → List (ApplyMsg C D)
  | [] => []
  | e :: logs =>
      { commandValid := true
        command := e.command
        commandIndex := first
        useSnapshot := false
        snapshot := none } :: applyMsgs (first + 1) logs

theorem length_applyMsgs (first : Int) (logs : List (LogEntry C)) :
    (applyMsgs first logs : List (ApplyMsg C D)).length = logs.length := by
  induction logs generalizing first with
  | nil => rfl
  | cons e logs ih => rw [applyMsgs, List.length_cons, List.length_cons, ih]

/-- The part of `applyLogEntryDaemon` under the lock: take the entries up to `commitIndex`.
There is no step while `lastApplied` equals `commitIndex`. When a late request has cut the log
below `commitIndex`, the entries come from `spare`, which the array has behind the log. -/
def applyLogEntries (rf : Raft n C D) (spare : List (LogEntry C)) :
    Option (Raft n C D × List (ApplyMsg C D)) :=
  if rf.lastApplied = rf.commitIndex then none
  else if rf.lastApplied < rf.commitIndex then do
    let logs ← Slice.between rf.logs spare (rf.lastApplied - rf.snapshotIndex + 1)
      (rf.commitIndex - rf.snapshotIndex + 1)
    pure ({ rf with lastApplied := rf.commitIndex }, applyMsgs (rf.lastApplied + 1) logs)
  else some (rf, [])

/-! ## What they do -/

theorem newSnapShot_cases {rf rf' : Raft n C D} {data : Option D} {index : Int}
    (h : rf.newSnapShot data index = some rf') :
    ((rf.commitIndex < index ∨ index ≤ rf.snapshotIndex) ∧ rf' = rf) ∨
    (rf.snapshotIndex < index ∧ index ≤ rf.commitIndex ∧
      ∃ e rest, rf.logs.drop (index - rf.snapshotIndex).toNat = e :: rest ∧
        rf' = { rf with
          logs := e :: rest
          snapshotIndex := index
          snapshotTerm := e.term
          persister :=
            { raftstate := some { currentTerm := rf.currentTerm, votedFor := rf.votedFor,
                                  logs := e :: rest, snapshotIndex := index,
                                  snapshotTerm := e.term }
              snapshot := data } }) := by
  unfold newSnapShot at h
  split at h
  · rename_i hguard
    cases h
    exact Or.inl ⟨hguard, rfl⟩
  rename_i hguard
  rw [not_or] at hguard
  simp only [Option.bind_eq_bind, Option.bind_eq_some_iff, Option.pure_def,
    Option.some.injEq] at h
  obtain ⟨logs, hlogs, e, he, rfl⟩ := h
  obtain ⟨-, -, rfl⟩ := Slice.dropFrom_eq_some hlogs
  obtain ⟨k, hk, hget⟩ := Slice.index_eq_some he
  obtain rfl : k = 0 := by omega
  refine Or.inr ⟨by omega, by omega, e, ?_⟩
  cases hd : rf.logs.drop (index - rf.snapshotIndex).toNat with
  | nil => rw [hd] at hget; simp at hget
  | cons a rest =>
      rw [hd] at hget
      obtain rfl : a = e := by simpa using hget
      exact ⟨rest, rfl, rfl⟩

/-- A snapshot is ignored, or installed in front of some final part of the old log. -/
theorem installSnapshot_cases {rf rf' : Raft n C D} {args : InstallSnapshotArgs n D}
    {reply : InstallSnapshotReply} {msg : Option (ApplyMsg C D)}
    (h : rf.installSnapshot args = some (rf', reply, msg)) :
    reply.currentTerm = rf.currentTerm ∧
    (((args.term < rf.currentTerm ∨ args.lastIncludedIndex ≤ rf.snapshotIndex) ∧
        rf' = rf ∧ msg = none) ∨
      (rf.currentTerm ≤ args.term ∧ rf.snapshotIndex < args.lastIncludedIndex ∧
        (∃ k, rf' = rf.installAt args (rf.logs.drop k)) ∧
        msg = some (snapshotMsg args.lastIncludedIndex args.snapshot))) := by
  unfold installSnapshot at h
  simp only at h
  split at h
  · rename_i hlt
    cases h
    exact ⟨rfl, Or.inl ⟨Or.inl hlt, rfl, rfl⟩⟩
  rename_i hge
  split at h
  · rename_i hle
    cases h
    exact ⟨rfl, Or.inl ⟨Or.inr hle, rfl, rfl⟩⟩
  rename_i hgt
  split at h
  · cases h
    refine ⟨rfl, Or.inr ⟨by omega, by omega, ⟨rf.logs.length, ?_⟩, rfl⟩⟩
    rw [List.drop_length]
  · simp only [Option.bind_eq_bind, Option.bind_eq_some_iff, Option.pure_def,
      Option.some.injEq, Prod.mk.injEq] at h
    obtain ⟨tmp, htmp, rfl, rfl, rfl⟩ := h
    obtain ⟨-, -, rfl⟩ := Slice.dropFrom_eq_some htmp
    exact ⟨rfl, Or.inr ⟨by omega, by omega, ⟨_, rfl⟩, rfl⟩⟩

theorem applyLogEntries_cases {rf rf' : Raft n C D} {spare : List (LogEntry C)}
    {msgs : List (ApplyMsg C D)} (h : rf.applyLogEntries spare = some (rf', msgs)) :
    (rf.commitIndex < rf.lastApplied ∧ rf' = rf ∧ msgs = []) ∨
    (rf.lastApplied < rf.commitIndex ∧ rf' = { rf with lastApplied := rf.commitIndex } ∧
      ∃ logs, Slice.between rf.logs spare (rf.lastApplied - rf.snapshotIndex + 1)
          (rf.commitIndex - rf.snapshotIndex + 1) = some logs ∧
        msgs = applyMsgs (rf.lastApplied + 1) logs) := by
  unfold applyLogEntries at h
  split at h
  · cases h
  rename_i hne
  split at h
  · rename_i hlt
    simp only [Option.bind_eq_bind, Option.bind_eq_some_iff, Option.pure_def,
      Option.some.injEq, Prod.mk.injEq] at h
    obtain ⟨logs, hlogs, rfl, rfl⟩ := h
    exact Or.inr ⟨hlt, rfl, logs, hlogs, rfl⟩
  · cases h
    exact Or.inl ⟨by omega, rfl, rfl⟩

/-- There is no other panic in it than over a slice that begins before the log or ends beyond
its array. -/
theorem applyLogEntries_eq_none {rf : Raft n C D} {spare : List (LogEntry C)}
    (hdue : rf.lastApplied ≠ rf.commitIndex) (h : rf.applyLogEntries spare = none) :
    rf.lastApplied < rf.commitIndex ∧ (rf.lastApplied + 1 < rf.snapshotIndex ∨
      rf.snapshotIndex + rf.logs.length + spare.length ≤ rf.commitIndex) := by
  unfold applyLogEntries at h
  rw [if_neg hdue] at h
  split at h
  · rename_i hlt
    rw [Option.bind_eq_bind, Option.bind_eq_none_iff] at h
    have hnone := Option.eq_none_iff_forall_ne_some.mpr fun logs hlogs => nomatch h logs hlogs
    have := Slice.between_eq_none_iff.mp hnone
    omega
  · cases h

end RaftLab.Raft
