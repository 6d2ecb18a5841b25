import RaftLab.Cluster.Steps

set_option autoImplicit false

/-! # What a crash would restore

`Make` restores five fields from the persister. A peer is `Synced` when a crash right now
would give all five back. Each step of the cluster either saves them at the peer it runs at
(`Saves`), or changes them and does not save them (`Unsaved`), or touches neither the fields
nor the persister; `step_persistence` sorts every step into these three. The steps of the
second kind are exactly the ones that take a peer out of sync:

* `fillRequestVoteArgs`, at every election timeout;
* the early return of `AppendEntries` below the snapshot, when it has changed the term or
  the vote;
* the reply handler of `sendSnapshot`, when it steps down to a higher term.

A peer out of sync is back in sync after its next `persist`.
-/

namespace RaftLab

namespace Raft

variable {n : Nat} {C D : Type} {rf rf' : Raft n C D}

/-- A crash at this point, followed by `Make`, restores the five persistent fields. -/
def Synced (rf : Raft n C D) : Prop :=
  (make rf.me rf.persister).stateData = rf.stateData

instance [DecidableEq C] (rf : Raft n C D) : Decidable rf.Synced :=
  inferInstanceAs (Decidable (_ = _))

/-- The five fields of a peer made from an empty persister. -/
def bootData : StateData n C :=
  { currentTerm := 0, votedFor := none, logs := [{ term := 0, command := none }],
    snapshotIndex := 0, snapshotTerm := 0 }

theorem make_stateData (me : Fin n) (ps : Persister n C D) :
    (make me ps).stateData = ps.raftstate.getD bootData := by
  rcases ps with ⟨_ | d, snapshot⟩
  · rfl
  · rfl

theorem synced_iff : rf.Synced ↔ rf.persister.raftstate.getD bootData = rf.stateData := by
  rw [Synced, make_stateData]

theorem synced_of_saved (h : rf.persister.raftstate = some rf.stateData) : rf.Synced := by
  rw [synced_iff, h]
  rfl

theorem synced_persist (rf : Raft n C D) : rf.persist.Synced := synced_of_saved rfl

/-- `rf'` has the fields and the stored state of `rf`. -/
def Held (rf rf' : Raft n C D) : Prop :=
  rf'.stateData = rf.stateData ∧ rf'.persister.raftstate = rf.persister.raftstate

/-- `rf'` has the stored state of `rf` and other fields. -/
def Lost (rf rf' : Raft n C D) : Prop :=
  rf'.stateData ≠ rf.stateData ∧ rf'.persister.raftstate = rf.persister.raftstate

theorem Held.synced (h : rf.Held rf') (hs : rf.Synced) : rf'.Synced := by
  rw [synced_iff] at hs ⊢
  rw [h.1, h.2]
  exact hs

theorem Lost.not_synced (h : rf.Lost rf') (hs : rf.Synced) : ¬ rf'.Synced := by
  intro hs'
  rw [synced_iff] at hs hs'
  rw [h.2] at hs'
  exact h.1 (hs'.symm.trans hs)

/-- Fields that differ in the term differ. -/
theorem lost_of_currentTerm (h : rf'.currentTerm ≠ rf.currentTerm)
    (hp : rf'.persister = rf.persister) : rf.Lost rf' := by
  refine ⟨fun heq => h ?_, by rw [hp]⟩
  exact congrArg StateData.currentTerm heq

/-! ## The handlers with more than one outcome -/

/-- Below the snapshot, `AppendEntries` changes the term or the vote without saving them. -/
theorem hearLeader_lost {args : AppendEntriesArgs n C} (hle : rf.currentTerm ≤ args.term)
    (hnew : rf.currentTerm < args.term ∨ rf.votedFor ≠ some args.leaderID) :
    rf.Lost (rf.hearLeader args) := by
  rw [hearLeader_eq hle]
  refine ⟨fun heq => ?_, rfl⟩
  rcases hnew with hlt | hvote
  · have hterm : args.term = rf.currentTerm := congrArg StateData.currentTerm heq
    omega
  · have hvf : some args.leaderID = rf.votedFor := congrArg StateData.votedFor heq
    exact hvote hvf.symm

theorem hearLeader_held {args : AppendEntriesArgs n C} (hle : rf.currentTerm ≤ args.term)
    (hold : ¬ (rf.currentTerm < args.term ∨ rf.votedFor ≠ some args.leaderID)) :
    rf.Held (rf.hearLeader args) := by
  rw [not_or, not_not] at hold
  have hterm : args.term = rf.currentTerm := by omega
  rw [hearLeader_eq hle, ← hold.2, hterm]
  exact ⟨rfl, rfl⟩

theorem updateCommitIndex_held (h : rf.updateCommitIndex = some rf') : rf.Held rf' := by
  rcases updateCommitIndex_cases h with rfl | ⟨target, -, -, -, -, rfl⟩
  · exact ⟨rfl, rfl⟩
  · exact ⟨rfl, rfl⟩

/-- How a handler treats the persistent fields of its peer: it saves them, it changes them and does
not save them, or it touches neither the fields nor what is stored. -/
inductive Treats (saves unsaved : Prop) (rf rf' : Raft n C D) : Prop where
  | saved (hs : saves) (hu : ¬ unsaved) (h : rf'.Synced)
  | unsaved (hs : ¬ saves) (hu : unsaved) (h : rf.Lost rf')
  | held (hs : ¬ saves) (hu : ¬ unsaved) (h : rf.Held rf')

theorem fillRequestVoteArgs_treats {args : RequestVoteArgs n}
    (h : rf.fillRequestVoteArgs = some (rf', args)) : Treats False True rf rf' := by
  obtain ⟨rfl, -, -, -⟩ := fillRequestVoteArgs_eq_some h
  exact .unsaved id trivial (lost_of_currentTerm (Nat.succ_ne_self _) rfl)

theorem requestVote_treats {args : RequestVoteArgs n} {reply : RequestVoteReply}
    (h : rf.requestVote args = some (rf', reply)) : Treats True False rf rf' := by
  refine .saved trivial id ?_
  rcases requestVote_cases h with ⟨-, rfl, -⟩ | ⟨-, -, -, rfl, -⟩ | ⟨-, rfl, -⟩
  · exact synced_persist _
  · exact synced_persist _
  · exact synced_persist _

theorem voteReplyHandler_treats {args : RequestVoteArgs n} {votes votes' : Nat}
    {reply : RequestVoteReply} (h : rf.voteReplyHandler args votes reply = (rf', votes')) :
    Treats (rf.state = .candidate ∧ args.term < reply.currentTerm) False rf rf' := by
  by_cases hdown : rf.state = .candidate ∧ args.term < reply.currentTerm
  · refine .saved hdown id ?_
    rw [voteReplyHandler, if_pos hdown.1, if_pos hdown.2] at h
    cases h
    exact synced_persist _
  · refine .held hdown id ?_
    rcases voteReplyHandler_cases rf args votes reply with
      heq | ⟨hc, hlt, -⟩ | ⟨-, -, -, -, heq⟩ | ⟨-, -, heq⟩
    · cases h.symm.trans heq
      exact ⟨rfl, rfl⟩
    · exact absurd ⟨hc, hlt⟩ hdown
    · cases h.symm.trans heq
      exact ⟨rfl, rfl⟩
    · cases h.symm.trans heq
      exact ⟨rfl, rfl⟩

theorem start_treats (rf : Raft n C D) (command : Option C) :
    Treats (rf.state = .leader) False rf (rf.start command).1 := by
  unfold start
  split
  · rename_i hl
    exact .saved hl id (synced_persist _)
  · rename_i hl
    exact .held hl id ⟨rfl, rfl⟩

theorem appendEntries_treats {args : AppendEntriesArgs n C} {reply : AppendEntriesReply}
    (h : rf.appendEntries args = some (rf', reply)) :
    Treats (rf.currentTerm ≤ args.term ∧ rf.snapshotIndex ≤ args.prevLogIndex)
      (rf.currentTerm ≤ args.term ∧ args.prevLogIndex < rf.snapshotIndex ∧
        (rf.currentTerm < args.term ∨ rf.votedFor ≠ some args.leaderID)) rf rf' := by
  rcases appendEntries_cases h with ⟨hlt, rfl, -⟩ | ⟨hle, hpast, rfl, -⟩ |
    ⟨hle, j, hj, -, rfl, -⟩ | ⟨hle, hsnap, rfl, -⟩
  · exact .held (fun hs => by omega) (fun hu => by omega) ⟨rfl, rfl⟩
  · -- the early return below the snapshot
    have hns : ¬ (rf.currentTerm ≤ args.term ∧ rf.snapshotIndex ≤ args.prevLogIndex) := by omega
    by_cases hnew : rf.currentTerm < args.term ∨ rf.votedFor ≠ some args.leaderID
    · exact .unsaved hns ⟨hle, hpast, hnew⟩ (hearLeader_lost hle hnew)
    · exact .held hns (fun hu => hnew hu.2.2) (hearLeader_held hle hnew)
  · exact .saved ⟨hle, by omega⟩ (fun hu => by omega) (synced_persist _)
  · exact .saved ⟨hle, hsnap⟩ (fun hu => by omega) (synced_persist _)

theorem consistencyCheckReplyHandler_treats {i : Fin n} {reply : AppendEntriesReply}
    {out : Option (InstallSnapshotArgs n D)}
    (h : rf.consistencyCheckReplyHandler i reply = some (rf', out)) :
    Treats (rf.state = .leader ∧ reply.success = false ∧ rf.currentTerm < reply.currentTerm) False
      rf rf' := by
  rcases consistencyCheckReplyHandler_cases h with ⟨hl, rfl, -⟩ |
    ⟨-, hsucc, -, hup, -⟩ | ⟨hl, hsucc, hlt, rfl, -⟩ | ⟨-, -, hle, ⟨next, rfl⟩, -⟩
  · exact .held (fun hs => hl hs.1) id ⟨rfl, rfl⟩
  · refine .held (fun hs => ?_) id ?_
    · rw [hs.2.1] at hsucc
      cases hsucc
    · have hheld := updateCommitIndex_held hup
      exact ⟨hheld.1, hheld.2⟩
  · exact .saved ⟨hl, hsucc, hlt⟩ id (synced_persist _)
  · exact .held (fun hs => by omega) id ⟨rfl, rfl⟩

theorem installSnapshot_treats {args : InstallSnapshotArgs n D} {reply : InstallSnapshotReply}
    {msg : Option (ApplyMsg C D)} (h : rf.installSnapshot args = some (rf', reply, msg)) :
    Treats (rf.currentTerm ≤ args.term ∧ rf.snapshotIndex < args.lastIncludedIndex) False
      rf rf' := by
  rcases (installSnapshot_cases h).2 with ⟨hno, rfl, -⟩ | ⟨hle, hlt, ⟨j, rfl⟩, -⟩
  · exact .held (fun hs => by omega) id ⟨rfl, rfl⟩
  · exact .saved ⟨hle, hlt⟩ id (synced_of_saved rfl)

theorem snapshotReplyHandler_treats (rf : Raft n C D) (i : Fin n) (reply : InstallSnapshotReply) :
    Treats False (rf.state = .leader ∧ rf.currentTerm < reply.currentTerm) rf
      (rf.snapshotReplyHandler i reply) := by
  rcases snapshotReplyHandler_cases rf i reply with ⟨hl, heq⟩ | ⟨hl, hlt, heq⟩ | ⟨-, hle, heq⟩
  · rw [heq]
    exact .held id (fun hu => hl hu.1) ⟨rfl, rfl⟩
  · rw [heq]
    exact .unsaved id ⟨hl, hlt⟩ (lost_of_currentTerm (Nat.ne_of_gt hlt) rfl)
  · rw [heq]
    exact .held id (fun hu => by omega) ⟨rfl, rfl⟩

theorem newSnapShot_treats {data : Option D} {index : Int}
    (h : rf.newSnapShot data index = some rf') :
    Treats (rf.snapshotIndex < index ∧ index ≤ rf.commitIndex) False rf rf' := by
  rcases newSnapShot_cases h with ⟨hno, rfl⟩ | ⟨hlt, hle, e, rest, -, rfl⟩
  · exact .held (fun hs => by omega) id ⟨rfl, rfl⟩
  · exact .saved ⟨hlt, hle⟩ id (synced_of_saved rfl)

theorem applyLogEntries_treats {spare : List (LogEntry C)} {msgs : List (ApplyMsg C D)}
    (h : rf.applyLogEntries spare = some (rf', msgs)) : Treats False False rf rf' := by
  refine .held id id ?_
  rcases applyLogEntries_cases h with ⟨-, rfl, -⟩ | ⟨-, rfl, -⟩
  · exact ⟨rfl, rfl⟩
  · exact ⟨rfl, rfl⟩

/-- `Make` restores what is stored. -/
theorem make_treats (rf : Raft n C D) (me : Fin n) :
    Treats True False rf (make me rf.persister) := by
  refine .saved trivial id ?_
  rw [synced_iff, make_stateData, make_persister]

end Raft

namespace Cluster

variable {n : Nat} {C D : Type} {s s' : Cluster n C D}

/-- Event `e` makes peer `p` save its five fields, or restart from the saved ones. -/
def Saves (s : Cluster n C D) (p : Fin n) : Event n C D → Prop
  | .requestVote k => ∃ call ∈ s.voteRequestAt k, call.dst = p
  | .voteReply k => ∃ x ∈ s.voteReplyAt k, x.2.1.me = p ∧ (s.peers p).state = .candidate ∧
      x.2.1.voteArgs.term < x.2.2.currentTerm
  | .start q _ => q = p ∧ (s.peers p).state = .leader
  | .appendEntries k => ∃ call ∈ requestAt s.appendCalls k, call.dst = p ∧
      (s.peers p).currentTerm ≤ call.args.term ∧
      (s.peers p).snapshotIndex ≤ call.args.prevLogIndex
  | .appendReply k => ∃ x ∈ s.replyAt s.appendCalls k, x.1.src = p ∧
      (s.peers p).state = .leader ∧ x.2.success = false ∧
      (s.peers p).currentTerm < x.2.currentTerm
  | .installSnapshot k => ∃ call ∈ requestAt s.snapshotCalls k, call.dst = p ∧
      (s.peers p).currentTerm ≤ call.args.term ∧
      (s.peers p).snapshotIndex < call.args.lastIncludedIndex
  | .newSnapShot q _ index => q = p ∧ (s.peers p).snapshotIndex < index ∧
      index ≤ (s.peers p).commitIndex
  | .crash q => q = p
  | .canvassVotes _ | .consistencyCheck .. | .snapshotReply _ | .applyTake .. | .applySend _ =>
      False

/-- Event `e` makes peer `p` change one of its five fields and not save it. -/
def Unsaved (s : Cluster n C D) (p : Fin n) : Event n C D → Prop
  | .canvassVotes q => q = p
  | .appendEntries k => ∃ call ∈ requestAt s.appendCalls k, call.dst = p ∧
      (s.peers p).currentTerm ≤ call.args.term ∧
      call.args.prevLogIndex < (s.peers p).snapshotIndex ∧
      ((s.peers p).currentTerm < call.args.term ∨
        (s.peers p).votedFor ≠ some call.args.leaderID)
  | .snapshotReply k => ∃ x ∈ s.replyAt s.snapshotCalls k, x.1.src = p ∧
      (s.peers p).state = .leader ∧ (s.peers p).currentTerm < x.2.currentTerm
  | .requestVote _ | .voteReply _ | .start .. | .consistencyCheck .. | .appendReply _
  | .installSnapshot _ | .newSnapShot .. | .applyTake .. | .applySend _ | .crash _ => False

instance (s : Cluster n C D) (p : Fin n) (e : Event n C D) : Decidable (Saves s p e) := by
  cases e <;> unfold Saves <;> infer_instance

instance (s : Cluster n C D) (p : Fin n) (e : Event n C D) : Decidable (Unsaved s p e) := by
  cases e <;> unfold Unsaved <;> infer_instance

/-- Event `e` makes peer `p` send a request or answer one. -/
def Emits (s : Cluster n C D) (p : Fin n) : Event n C D → Prop
  | .canvassVotes q => q = p ∧ 2 ≤ n
  | .requestVote k => ∃ call ∈ s.voteRequestAt k, call.dst = p
  | .appendEntries k => ∃ call ∈ requestAt s.appendCalls k, call.dst = p
  | .installSnapshot k => ∃ call ∈ requestAt s.snapshotCalls k, call.dst = p
  | .consistencyCheck q _ => q = p ∧ (s.peers p).state = .leader
  | .appendReply k => ∃ x ∈ s.replyAt s.appendCalls k, x.1.src = p ∧
      ∃ out ∈ (s.peers p).consistencyCheckReplyHandler x.1.dst x.2, out.2.isSome = true
  | .voteReply _ | .start .. | .snapshotReply _ | .newSnapShot .. | .applyTake ..
  | .applySend _ | .crash _ => False

/-- How a step treats the persistent fields of one peer. -/
inductive Persistence (s s' : Cluster n C D) (p : Fin n) (e : Event n C D) : Prop where
  | saved (hs : Saves s p e) (hu : ¬ Unsaved s p e) (h : (s'.peers p).Synced)
  | unsaved (hs : ¬ Saves s p e) (hu : Unsaved s p e) (h : (s.peers p).Lost (s'.peers p))
  | held (hs : ¬ Saves s p e) (hu : ¬ Unsaved s p e) (h : (s.peers p).Held (s'.peers p))

theorem Persistence.of_elsewhere {p : Fin n} {e : Event n C D} (hs : ¬ Saves s p e)
    (hu : ¬ Unsaved s p e) (h : s'.peers p = s.peers p) : Persistence s s' p e := by
  refine .held hs hu ?_
  rw [h]
  exact ⟨rfl, rfl⟩

/-- A step in which peer `q` handles something, with what its handler does to the fields. -/
theorem Persistence.of_treats {p q : Fin n} {e : Event n C D} {rf : Raft n C D}
    {saves unsaved : Prop} (hs : Saves s p e ↔ q = p ∧ saves) (hu : Unsaved s p e ↔ q = p ∧ unsaved)
    (ht : q = p → Raft.Treats saves unsaved (s.peers p) rf)
    (hpeers : s'.peers = Function.update s.peers q rf) : Persistence s s' p e := by
  by_cases hq : q = p
  · have hself : s'.peers p = rf := by rw [hpeers, hq, Function.update_self]
    cases ht hq with
    | saved hsaves hkept h =>
        exact .saved (hs.mpr ⟨hq, hsaves⟩) (fun h => hkept (hu.mp h).2) (hself ▸ h)
    | unsaved hsaves hlost h =>
        exact .unsaved (fun h => hsaves (hs.mp h).2) (hu.mpr ⟨hq, hlost⟩) (hself ▸ h)
    | held hsaves hkept h =>
        exact .held (fun h => hsaves (hs.mp h).2) (fun h => hkept (hu.mp h).2) (hself ▸ h)
  · refine .of_elsewhere (fun h => hq (hs.mp h).1) (fun h => hq (hu.mp h).1) ?_
    rw [hpeers, Function.update_of_ne (Ne.symm hq)]

/-- Every step saves the fields of `p`, changes them without saving, or leaves them alone. -/
theorem step_persistence {e : Event n C D} (h : s.step e = some s') (p : Fin n) :
    Persistence s s' p e := by
  -- events that never save, or leave unsaved, and events that always do
  have hno : ∀ q : Fin n, False ↔ q = p ∧ False := fun _ => ⟨False.elim, And.right⟩
  have hat : ∀ q : Fin n, q = p ↔ q = p ∧ True := fun _ => ⟨fun hq => ⟨hq, trivial⟩, And.left⟩
  cases e with
  | canvassVotes q =>
      obtain ⟨rf, args, hfill, rfl⟩ := stepCanvassVotes_eq_some h
      refine .of_treats (hno q) (hat q) ?_ rfl
      rintro rfl
      exact Raft.fillRequestVoteArgs_treats hfill
  | requestVote k =>
      obtain ⟨call, rf, reply, hcall, hrv, rfl⟩ := stepRequestVote_eq_some h
      refine .of_treats ((exists_mem_iff hcall).trans (hat call.dst)) (hno call.dst) ?_ rfl
      rintro rfl
      exact Raft.requestVote_treats hrv
  | voteReply k =>
      obtain ⟨call, cv, reply, rf, votes, hcall, hh, rfl⟩ := stepVoteReply_eq_some h
      refine .of_treats (exists_mem_iff hcall) (hno cv.me) ?_ rfl
      rintro rfl
      exact Raft.voteReplyHandler_treats hh
  | start q command =>
      obtain rfl : s.setPeer q ((s.peers q).start command).1 = s' := Option.some.inj h
      refine .of_treats Iff.rfl (hno q) ?_ rfl
      rintro rfl
      exact Raft.start_treats _ command
  | consistencyCheck q i =>
      obtain ⟨out, -, -, rfl⟩ := stepConsistencyCheck_eq_some h
      exact .of_elsewhere id id (by rw [send_peers])
  | appendEntries k =>
      obtain ⟨call, rf, reply, hcall, hae, rfl⟩ := stepAppendEntries_eq_some h
      refine .of_treats (exists_mem_iff hcall) (exists_mem_iff hcall) ?_ rfl
      rintro rfl
      exact Raft.appendEntries_treats hae
  | appendReply k =>
      obtain ⟨call, reply, rf, out, hcall, hh, rfl⟩ := stepAppendReply_eq_some h
      refine .of_treats (exists_mem_iff hcall) (hno call.src) ?_ (send_peers ..)
      rintro rfl
      exact Raft.consistencyCheckReplyHandler_treats hh
  | installSnapshot k =>
      obtain ⟨call, rf, reply, msg, hcall, his, rfl⟩ := stepInstallSnapshot_eq_some h
      refine .of_treats (exists_mem_iff hcall) (hno call.dst) ?_ rfl
      rintro rfl
      exact Raft.installSnapshot_treats his
  | snapshotReply k =>
      obtain ⟨call, reply, hcall, rfl⟩ := stepSnapshotReply_eq_some h
      refine .of_treats (hno call.src) (exists_mem_iff hcall) ?_ rfl
      rintro rfl
      exact Raft.snapshotReplyHandler_treats _ call.dst reply
  | newSnapShot q data index =>
      obtain ⟨rf, hrf, rfl⟩ := stepNewSnapShot_eq_some h
      refine .of_treats Iff.rfl (hno q) ?_ rfl
      rintro rfl
      exact Raft.newSnapShot_treats hrf
  | applyTake q spare =>
      obtain ⟨rf, msgs, -, htake, rfl⟩ := stepApplyTake_eq_some h
      refine .of_treats (hno q) (hno q) ?_ rfl
      rintro rfl
      exact Raft.applyLogEntries_treats htake
  | applySend q =>
      obtain ⟨msg, rest, -, rfl⟩ := stepApplySend_eq_some h
      exact .of_elsewhere id id rfl
  | crash q =>
      obtain rfl := Option.some.inj h
      refine .of_treats (hat q) (hno q) ?_ rfl
      rintro rfl
      exact Raft.make_treats _ q

/-! ## Along a run -/

theorem synced_init (p : Fin n) : ((init : Cluster n C D).peers p).Synced := by
  rw [Raft.synced_iff]
  rfl

theorem synced_of_saves {e : Event n C D} {p : Fin n} (h : s.step e = some s')
    (hs : Saves s p e) : (s'.peers p).Synced := by
  cases step_persistence h p with
  | saved _ _ hsync => exact hsync
  | unsaved hns => exact absurd hs hns
  | held hns => exact absurd hs hns

/-- From a peer in sync, a step ends in sync unless it is of the unsaved kind. -/
theorem synced_step_iff {e : Event n C D} {p : Fin n} (h : s.step e = some s')
    (hsync : (s.peers p).Synced) : (s'.peers p).Synced ↔ ¬ Unsaved s p e := by
  cases step_persistence h p with
  | saved _ hu hsync' => exact iff_of_true hsync' hu
  | unsaved _ hu hlost => exact iff_of_false (hlost.not_synced hsync) (not_not.mpr hu)
  | held _ hu hheld => exact iff_of_true (hheld.synced hsync) hu

/-- **Since its last save, or since `Make`, a peer is in sync as long as it takes no unsaved
step**, and the first unsaved step takes it out of sync. -/
theorem synced_since_saved {es es' : List (Event n C D)} {s₁ s₂ : Cluster n C D} {p : Fin n}
    (h₁ : runFrom es = some s₁)
    (hbase : es = [] ∨ ∃ es₀ e s₀, es = es₀ ++ [e] ∧ runFrom es₀ = some s₀ ∧ Saves s₀ p e)
    (hok : Machine.Along step (fun s e => ¬ Unsaved s p e) s₁ es')
    (h₂ : Machine.run step s₁ es' = some s₂) :
    (s₂.peers p).Synced ∧
      ∀ e s₃, s₂.step e = some s₃ → ((s₃.peers p).Synced ↔ ¬ Unsaved s₂ p e) := by
  have hsync₁ : (s₁.peers p).Synced := by
    rcases hbase with rfl | ⟨es₀, e, s₀, rfl, h₀, hs⟩
    · obtain rfl : init = s₁ := Option.some.inj h₁
      exact synced_init p
    · rw [runFrom, Machine.run_append, show Machine.run step init es₀ = some s₀ from h₀] at h₁
      obtain ⟨t, ht, hnil⟩ := Machine.run_cons h₁
      obtain rfl : t = s₁ := Option.some.inj hnil
      exact synced_of_saves ht hs
  have hsync₂ : (s₂.peers p).Synced :=
    Machine.run_induction (I := fun s => (s.peers p).Synced)
      (fun s e s' hi hk hs => (synced_step_iff hs hi).mpr hk) hsync₁ hok h₂
  exact ⟨hsync₂, fun e s₃ h₃ => synced_step_iff h₃ hsync₂⟩

/-- Peer `1` votes for peer `0`, which then leads and replicates an entry to it. -/
theorem synced_since_saved_voter : ∃ s : Cluster 3 Nat Unit,
    runFrom ([.canvassVotes 0] ++ [.requestVote 0] ++
      [.voteReply 0, .start 0 (some 7), .consistencyCheck 0 1, .appendEntries 0]) = some s ∧
      (s.peers 1).currentTerm = 1 ∧ (s.peers 1).logs.length = 2 ∧ (s.peers 1).Synced := by
  have hsave : (runFrom ([.canvassVotes 0] : List (Event 3 Nat Unit))).any
      (fun s => Saves s 1 (.requestVote 0)) = true := by decide
  obtain ⟨s₀, h₀, hs⟩ := (Option.any_eq_true _ _).mp hsave
  have hrun : (runFrom ([.canvassVotes 0] ++ [.requestVote 0] : List (Event 3 Nat Unit))).any
      (fun s => Machine.Along step (fun s e => ¬ Unsaved s 1 e) s
          [.voteReply 0, .start 0 (some 7), .consistencyCheck 0 1, .appendEntries 0] ∧
        (Machine.run step s
          [.voteReply 0, .start 0 (some 7), .consistencyCheck 0 1, .appendEntries 0]).any
          (fun s => (s.peers 1).currentTerm = 1 ∧ (s.peers 1).logs.length = 2)) = true := by
    decide
  obtain ⟨s₁, h₁, hrest⟩ := (Option.any_eq_true _ _).mp hrun
  obtain ⟨hok, hend⟩ := of_decide_eq_true hrest
  obtain ⟨s₂, h₂, hfacts⟩ := (Option.any_eq_true _ _).mp hend
  obtain ⟨hterm, hlen⟩ := of_decide_eq_true hfacts
  refine ⟨s₂, ?_, hterm, hlen, ?_⟩
  · rw [runFrom, Machine.run_append, show Machine.run step init _ = some s₁ from h₁]
    exact h₂
  · exact (synced_since_saved h₁ (Or.inr ⟨_, _, s₀, rfl, h₀, of_decide_eq_true hs⟩) hok h₂).1

/-- The first election timeout of a peer sends its vote requests with a term and a vote that
a crash would forget. -/
theorem unsynced_when_canvassing :
    ¬ ∀ (es : List (Event 3 Nat Unit)) (e : Event 3 Nat Unit) (s s' : Cluster 3 Nat Unit)
      (p : Fin 3), runFrom es = some s → s.step e = some s' → Emits s p e →
        (s'.peers p).Synced := by
  intro hall
  have hrun : ((init : Cluster 3 Nat Unit).step (.canvassVotes 0)).any
      (fun s => ¬ (s.peers 0).Synced) = true := by decide
  obtain ⟨s', hs', hns⟩ := (Option.any_eq_true _ _).mp hrun
  have hemits : Emits (init : Cluster 3 Nat Unit) 0 (.canvassVotes 0) := ⟨rfl, by decide⟩
  exact of_decide_eq_true hns (hall [] _ init s' 0 rfl hs' hemits)

end Cluster

end RaftLab
