import RaftLab.Raft.Snapshot

set_option autoImplicit false

/-! # One peer seen from its service

What a service that sits on one peer can observe of it. `Procedure` lists the procedures of
the peer that take `rf.mu`, run to their end and release it, with their arguments:
`Raft.call` runs one. None of them touches what the service and Raft share: the snapshot,
its index and `lastApplied` (`call_keepsSnapshot`).

`InstallSnapshot` is different: it sends on `applyCh` while it holds the lock and stores its
result only after the service has taken the message. `beginInstall` and `finishInstall` are
its two halves.
-/

namespace RaftLab

/-- A call of a procedure that is one atomic step under `rf.mu`. -/
inductive Procedure (n : Nat) (C : Type) where
  | canvassVotes
  | requestVote (args : RequestVoteArgs n)
  | voteReply (voteArgs : RequestVoteArgs n) (votes : Nat) (reply : RequestVoteReply)
  | start (command : Option C)
  | appendEntries (args : AppendEntriesArgs n C)
  | appendReply (i : Fin n) (reply : AppendEntriesReply)
  | snapshotReply (i : Fin n) (reply : InstallSnapshotReply)

namespace Raft

variable {n : Nat} {C D : Type}

/-- The peer after the call. -/
def call (rf : Raft n C D) : Procedure n C → Option (Raft n C D)
  | .canvassVotes => rf.fillRequestVoteArgs.map Prod.fst
  | .requestVote args => (rf.requestVote args).map Prod.fst
  | .voteReply voteArgs votes reply => some (rf.voteReplyHandler voteArgs votes reply).1
  | .start command => some (rf.start command).1
  | .appendEntries args => (rf.appendEntries args).map Prod.fst
  | .appendReply i reply => (rf.consistencyCheckReplyHandler i reply).map Prod.fst
  | .snapshotReply i reply => some (rf.snapshotReplyHandler i reply)

/-- `InstallSnapshot` up to its send on `applyCh`: the fields are set and nothing is stored
yet. The second component is the message, if there is one to send. -/
def beginInstall (rf : Raft n C D) (args : InstallSnapshotArgs n D) :
    Option (Raft n C D × Option (ApplyMsg C D)) :=
  (rf.installSnapshot args).map
    (fun out => ({ out.1 with persister := rf.persister }, out.2.2))

/-- `InstallSnapshot` after its message has been taken. -/
def finishInstall (rf : Raft n C D) (snapshot : Option D) : Raft n C D :=
  { rf with persister := rf.persister.saveStateAndSnapshot rf.stateData snapshot }

/-! ## What the procedures leave alone -/

/-- `rf'` has the snapshot of `rf`, and `lastApplied`; a state stored on the way carries the
same snapshot index. -/
structure KeepsSnapshot (rf rf' : Raft n C D) : Prop where
  me : rf'.me = rf.me
  snapshotIndex : rf'.snapshotIndex = rf.snapshotIndex
  lastApplied : rf'.lastApplied = rf.lastApplied
  snapshot : rf'.persister.snapshot = rf.persister.snapshot
  raftstate : rf'.persister.raftstate = rf.persister.raftstate ∨
    ∃ d, rf'.persister.raftstate = some d ∧ d.snapshotIndex = rf.snapshotIndex

section keepsSnapshot

variable {rf rf' rf'' : Raft n C D}

/-- Only fields other than these have changed. -/
theorem KeepsSnapshot.of_eq (hme : rf'.me = rf.me)
    (hindex : rf'.snapshotIndex = rf.snapshotIndex)
    (happlied : rf'.lastApplied = rf.lastApplied) (hps : rf'.persister = rf.persister) :
    rf.KeepsSnapshot rf' :=
  ⟨hme, hindex, happlied, by rw [hps], Or.inl (by rw [hps])⟩

theorem KeepsSnapshot.refl (rf : Raft n C D) : rf.KeepsSnapshot rf := .of_eq rfl rfl rfl rfl

theorem KeepsSnapshot.persist (h : rf.KeepsSnapshot rf') : rf.KeepsSnapshot rf'.persist :=
  ⟨h.me, h.snapshotIndex, h.lastApplied, h.snapshot,
    Or.inr ⟨rf'.stateData, rfl, h.snapshotIndex⟩⟩

theorem adoptTerm_keepsSnapshot (rf : Raft n C D) (t : Nat) :
    rf.KeepsSnapshot (rf.adoptTerm t) := by
  rcases Nat.lt_or_ge rf.currentTerm t with hlt | hge
  · rw [adoptTerm_of_lt hlt]
    exact .of_eq rfl rfl rfl rfl
  · rw [adoptTerm_of_le hge]
    exact .refl rf

theorem requestVote_keepsSnapshot {args : RequestVoteArgs n} {reply : RequestVoteReply}
    (h : rf.requestVote args = some (rf', reply)) : rf.KeepsSnapshot rf' := by
  have hadopt := adoptTerm_keepsSnapshot rf args.term
  rcases requestVote_cases h with ⟨-, rfl, -⟩ | ⟨-, -, -, rfl, -⟩ | ⟨-, rfl, -⟩
  · exact (KeepsSnapshot.refl rf).persist
  · refine KeepsSnapshot.persist ?_
    exact ⟨hadopt.me, hadopt.snapshotIndex, hadopt.lastApplied, hadopt.snapshot,
      hadopt.raftstate⟩
  · exact hadopt.persist

theorem voteReplyHandler_keepsSnapshot (rf : Raft n C D) (voteArgs : RequestVoteArgs n)
    (votes : Nat) (reply : RequestVoteReply) :
    rf.KeepsSnapshot (rf.voteReplyHandler voteArgs votes reply).1 := by
  rcases voteReplyHandler_cases rf voteArgs votes reply with
    h | ⟨-, -, h⟩ | ⟨-, -, -, -, h⟩ | ⟨-, -, h⟩
  · rw [h]
    exact .refl rf
  · rw [h]
    exact .persist (.of_eq rfl rfl rfl rfl)
  · rw [h]
    exact .of_eq rfl rfl rfl rfl
  · rw [h]
    exact .refl rf

theorem start_keepsSnapshot (rf : Raft n C D) (command : Option C) :
    rf.KeepsSnapshot (rf.start command).1 := by
  unfold start
  split
  · exact .persist (.of_eq rfl rfl rfl rfl)
  · exact .refl rf

theorem appendEntries_keepsSnapshot {args : AppendEntriesArgs n C} {reply : AppendEntriesReply}
    (h : rf.appendEntries args = some (rf', reply)) : rf.KeepsSnapshot rf' := by
  rcases appendEntries_cases h with
    ⟨-, rfl, -, -⟩ | ⟨hle, -, rfl, -, -⟩ | ⟨hle, k, -, -, rfl, -, -, -⟩ | ⟨hle, -, rfl, -, -⟩
  · exact .refl _
  · rw [hearLeader_eq hle]
    exact .of_eq rfl rfl rfl rfl
  · rw [hearLeader_eq hle, accepted]
    exact .persist (.of_eq rfl rfl rfl rfl)
  · rw [hearLeader_eq hle]
    exact .persist (.of_eq rfl rfl rfl rfl)

theorem consistencyCheckReplyHandler_keepsSnapshot {i : Fin n} {reply : AppendEntriesReply}
    {out : Option (InstallSnapshotArgs n D)}
    (h : rf.consistencyCheckReplyHandler i reply = some (rf', out)) : rf.KeepsSnapshot rf' := by
  rcases consistencyCheckReplyHandler_cases h with
    ⟨-, rfl, -⟩ | ⟨-, -, -, hup, -⟩ | ⟨-, -, -, rfl, -⟩ | ⟨-, -, -, ⟨next, rfl⟩, -⟩
  · exact .refl _
  · rcases updateCommitIndex_cases hup with rfl | ⟨target, -, -, -, -, rfl⟩
    · exact .of_eq rfl rfl rfl rfl
    · exact .of_eq rfl rfl rfl rfl
  · exact .persist (.of_eq rfl rfl rfl rfl)
  · exact .of_eq rfl rfl rfl rfl

theorem snapshotReplyHandler_keepsSnapshot (rf : Raft n C D) (i : Fin n)
    (reply : InstallSnapshotReply) : rf.KeepsSnapshot (rf.snapshotReplyHandler i reply) := by
  rcases snapshotReplyHandler_cases rf i reply with ⟨-, h⟩ | ⟨-, -, h⟩ | ⟨-, -, h⟩
  · rw [h]
    exact .refl rf
  · rw [h]
    exact .of_eq rfl rfl rfl rfl
  · rw [h]
    exact .of_eq rfl rfl rfl rfl

/-- **The procedures of a peer leave its snapshot to the service.** -/
theorem call_keepsSnapshot {c : Procedure n C} (h : rf.call c = some rf') :
    rf.KeepsSnapshot rf' := by
  cases c with
  | canvassVotes =>
      obtain ⟨⟨rf1, args⟩, hfill, rfl⟩ := Option.map_eq_some_iff.mp h
      obtain ⟨rfl, -, -, -⟩ := fillRequestVoteArgs_eq_some hfill
      exact .of_eq rfl rfl rfl rfl
  | requestVote args =>
      obtain ⟨⟨rf1, reply⟩, hrv, rfl⟩ := Option.map_eq_some_iff.mp h
      exact requestVote_keepsSnapshot hrv
  | voteReply voteArgs votes reply =>
      obtain rfl := Option.some.inj h
      exact voteReplyHandler_keepsSnapshot rf voteArgs votes reply
  | start command =>
      obtain rfl := Option.some.inj h
      exact start_keepsSnapshot rf command
  | appendEntries args =>
      obtain ⟨⟨rf1, reply⟩, hae, rfl⟩ := Option.map_eq_some_iff.mp h
      exact appendEntries_keepsSnapshot hae
  | appendReply i reply =>
      obtain ⟨⟨rf1, out⟩, hcc, rfl⟩ := Option.map_eq_some_iff.mp h
      exact consistencyCheckReplyHandler_keepsSnapshot hcc
  | snapshotReply i reply =>
      obtain rfl := Option.some.inj h
      exact snapshotReplyHandler_keepsSnapshot rf i reply

end keepsSnapshot

/-! ## The two halves of `InstallSnapshot` -/

variable {rf rf' : Raft n C D} {args : InstallSnapshotArgs n D}

/-- The first half ignores the snapshot, or sets the indices to its own and has a message to
send. -/
theorem beginInstall_cases {msg : Option (ApplyMsg C D)}
    (h : rf.beginInstall args = some (rf', msg)) :
    (rf' = rf ∧ msg = none) ∨
    (rf.snapshotIndex < args.lastIncludedIndex ∧ rf'.me = rf.me ∧
      rf'.snapshotIndex = args.lastIncludedIndex ∧
      rf'.lastApplied = args.lastIncludedIndex ∧ rf'.persister = rf.persister ∧
      msg = some (snapshotMsg args.lastIncludedIndex args.snapshot)) := by
  obtain ⟨⟨rf1, reply, out⟩, hinst, hout⟩ := Option.map_eq_some_iff.mp h
  obtain ⟨rfl, rfl⟩ := Prod.mk.inj hout
  obtain ⟨-, ⟨-, rfl, rfl⟩ | ⟨-, hlt, ⟨k, rfl⟩, rfl⟩⟩ := installSnapshot_cases hinst
  · exact Or.inl ⟨rfl, rfl⟩
  · exact Or.inr ⟨hlt, rfl, rfl, rfl, rfl, rfl⟩

/-- Run one after the other, the two halves are the whole procedure. -/
theorem installSnapshot_of_halves {msg : ApplyMsg C D}
    (h : rf.beginInstall args = some (rf', some msg)) :
    ∃ reply, rf.installSnapshot args =
      some (rf'.finishInstall args.snapshot, reply, some msg) := by
  obtain ⟨⟨rf1, reply, out⟩, hinst, hout⟩ := Option.map_eq_some_iff.mp h
  obtain ⟨rfl, hmsg⟩ := Prod.mk.inj hout
  obtain rfl : out = some msg := hmsg
  obtain ⟨-, ⟨-, -, hnone⟩ | ⟨-, -, ⟨k, rfl⟩, -⟩⟩ := installSnapshot_cases hinst
  · cases hnone
  · exact ⟨reply, hinst⟩

end Raft

end RaftLab
