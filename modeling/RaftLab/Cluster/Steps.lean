import RaftLab.Cluster.Model

set_option autoImplicit false

/-! # What each step of the cluster does

One lemma for each event: from a step that happened, the call it is about, what the handler
returned, and the state after it. Later proofs take a step apart with these lemmas only.
-/

namespace RaftLab.Cluster

variable {n : Nat} {C D : Type} {s s' : Cluster n C D}

theorem exists_mem_iff {α : Type} {o : Option α} {a : α} (h : o = some a) {P : α → Prop} :
    (∃ x ∈ o, P x) ↔ P a := by
  rw [h]
  simp

theorem voteRequestAt_eq_some {k : Nat} {call : VoteCall n}
    (h : s.voteRequestAt k = some call) :
    s.voteCalls[k]? = some call ∧ call.status = .sent := by
  simp only [voteRequestAt, Option.bind_eq_bind, Option.bind_eq_some_iff,
    Option.guard_eq_some', Option.pure_def, Option.some.injEq] at h
  obtain ⟨call', hcall, -, hst, rfl⟩ := h
  exact ⟨hcall, hst⟩

theorem voteReplyAt_eq_some {k : Nat} {call : VoteCall n} {cv : Canvass n}
    {reply : RequestVoteReply} (h : s.voteReplyAt k = some (call, cv, reply)) :
    s.voteCalls[k]? = some call ∧ call.status = .replied reply ∧
      s.canvasses[call.canvass]? = some cv ∧ cv.epoch = s.epoch cv.me := by
  simp only [voteReplyAt, Option.bind_eq_bind, Option.bind_eq_some_iff,
    Option.guard_eq_some', Option.pure_def, Option.some.injEq, Prod.mk.injEq] at h
  obtain ⟨call', hcall, reply', hst, cv', hcv, -, hep, rfl, rfl, rfl⟩ := h
  exact ⟨hcall, CallStatus.inFlight?_eq_some.mp hst, hcv, hep⟩

theorem requestAt_eq_some {A R : Type} [DecidableEq R] {calls : List (Call n A R)} {k : Nat}
    {call : Call n A R} (h : requestAt calls k = some call) :
    calls[k]? = some call ∧ call.status = .sent := by
  simp only [requestAt, Option.bind_eq_bind, Option.bind_eq_some_iff,
    Option.guard_eq_some', Option.pure_def, Option.some.injEq] at h
  obtain ⟨call', hcall, -, hst, rfl⟩ := h
  exact ⟨hcall, hst⟩

theorem replyAt_eq_some {A R : Type} {calls : List (Call n A R)} {k : Nat}
    {call : Call n A R} {reply : R} (h : s.replyAt calls k = some (call, reply)) :
    calls[k]? = some call ∧ call.status = .replied reply ∧
      call.epoch = s.epoch call.src := by
  simp only [replyAt, Option.bind_eq_bind, Option.bind_eq_some_iff,
    Option.guard_eq_some', Option.pure_def, Option.some.injEq, Prod.mk.injEq] at h
  obtain ⟨call', hcall, reply', hst, -, hep, rfl, rfl⟩ := h
  exact ⟨hcall, CallStatus.inFlight?_eq_some.mp hst, hep⟩

theorem stepCanvassVotes_eq_some {p : Fin n} (h : s.stepCanvassVotes p = some s') :
    ∃ rf voteArgs, (s.peers p).fillRequestVoteArgs = some (rf, voteArgs) ∧
      s' = { s.setPeer p rf with
        canvasses := s.canvasses ++
          [{ me := p, epoch := s.epoch p, voteArgs := voteArgs, votes := 1 }]
        voteCalls := s.voteCalls ++ voteCallsOf s.canvasses.length p voteArgs } := by
  simp only [stepCanvassVotes, Option.bind_eq_bind, Option.bind_eq_some_iff, Option.pure_def,
    Option.some.injEq, Prod.exists] at h
  obtain ⟨rf, args, hfill, rfl⟩ := h
  exact ⟨rf, args, hfill, rfl⟩

theorem stepRequestVote_eq_some {k : Nat} (h : s.stepRequestVote k = some s') :
    ∃ call rf reply, s.voteRequestAt k = some call ∧
      (s.peers call.dst).requestVote call.args = some (rf, reply) ∧
      s' = { s.setPeer call.dst rf with
        voteCalls := s.voteCalls.set k { call with status := .replied reply } } := by
  simp only [stepRequestVote, Option.bind_eq_bind, Option.bind_eq_some_iff, Option.pure_def,
    Option.some.injEq, Prod.exists] at h
  obtain ⟨call, hat, rf, reply, hrv, rfl⟩ := h
  exact ⟨call, rf, reply, hat, hrv, rfl⟩

theorem stepVoteReply_eq_some {k : Nat} (h : s.stepVoteReply k = some s') :
    ∃ call cv reply rf votes, s.voteReplyAt k = some (call, cv, reply) ∧
      (s.peers cv.me).voteReplyHandler cv.voteArgs cv.votes reply = (rf, votes) ∧
      s' = { s.setPeer cv.me rf with
        canvasses := s.canvasses.set call.canvass { cv with votes := votes }
        voteCalls := s.voteCalls.set k { call with status := .done reply }
        wins := if (s.peers cv.me).state ≠ .leader ∧ rf.state = .leader
          then s.wins ++ [(cv.me, rf.currentTerm)] else s.wins } := by
  simp only [stepVoteReply, Option.bind_eq_bind, Option.bind_eq_some_iff, Option.pure_def,
    Option.some.injEq, Prod.exists] at h
  obtain ⟨call, cv, reply, hat, rfl⟩ := h
  exact ⟨call, cv, reply, _, _, hat, rfl, rfl⟩

theorem stepConsistencyCheck_eq_some {p i : Fin n} (h : s.stepConsistencyCheck p i = some s') :
    ∃ out, i ≠ p ∧ (s.peers p).consistencyCheck i = some out ∧ s' = s.send p i out := by
  simp only [stepConsistencyCheck, Option.bind_eq_bind, Option.bind_eq_some_iff,
    Option.guard_eq_some', Option.pure_def, Option.some.injEq] at h
  obtain ⟨-, hne, out, hout, rfl⟩ := h
  exact ⟨out, hne, hout, rfl⟩

theorem stepAppendEntries_eq_some {k : Nat} (h : s.stepAppendEntries k = some s') :
    ∃ call rf reply, requestAt s.appendCalls k = some call ∧
      (s.peers call.dst).appendEntries call.args = some (rf, reply) ∧
      s' = { s.setPeer call.dst rf with
        appendCalls := s.appendCalls.set k { call with status := .replied reply } } := by
  simp only [stepAppendEntries, Option.bind_eq_bind, Option.bind_eq_some_iff, Option.pure_def,
    Option.some.injEq, Prod.exists] at h
  obtain ⟨call, hat, rf, reply, hae, rfl⟩ := h
  exact ⟨call, rf, reply, hat, hae, rfl⟩

theorem stepAppendReply_eq_some {k : Nat} (h : s.stepAppendReply k = some s') :
    ∃ call reply rf out, s.replyAt s.appendCalls k = some (call, reply) ∧
      (s.peers call.src).consistencyCheckReplyHandler call.dst reply = some (rf, out) ∧
      s' = { s.setPeer call.src rf with
        appendCalls := s.appendCalls.set k { call with status := .done reply } }.send
          call.src call.dst (out.map .snapshot) := by
  simp only [stepAppendReply, Option.bind_eq_bind, Option.bind_eq_some_iff, Option.pure_def,
    Option.some.injEq, Prod.exists] at h
  obtain ⟨call, reply, hat, rf, out, hh, rfl⟩ := h
  exact ⟨call, reply, rf, out, hat, hh, rfl⟩

theorem stepInstallSnapshot_eq_some {k : Nat} (h : s.stepInstallSnapshot k = some s') :
    ∃ call rf reply msg, requestAt s.snapshotCalls k = some call ∧
      (s.peers call.dst).installSnapshot call.args = some (rf, reply, msg) ∧
      s' = { s.setPeer call.dst rf with
        snapshotCalls := s.snapshotCalls.set k { call with status := .replied reply }
        applied := Function.update s.applied call.dst
          (s.applied call.dst ++ msg.toList) } := by
  simp only [stepInstallSnapshot, Option.bind_eq_bind, Option.bind_eq_some_iff,
    Option.pure_def, Option.some.injEq, Prod.exists] at h
  obtain ⟨call, hat, rf, reply, msg, his, rfl⟩ := h
  exact ⟨call, rf, reply, msg, hat, his, rfl⟩

theorem stepSnapshotReply_eq_some {k : Nat} (h : s.stepSnapshotReply k = some s') :
    ∃ call reply, s.replyAt s.snapshotCalls k = some (call, reply) ∧
      s' = { s.setPeer call.src ((s.peers call.src).snapshotReplyHandler call.dst reply) with
        snapshotCalls := s.snapshotCalls.set k { call with status := .done reply } } := by
  simp only [stepSnapshotReply, Option.bind_eq_bind, Option.bind_eq_some_iff, Option.pure_def,
    Option.some.injEq, Prod.exists] at h
  obtain ⟨call, reply, hat, rfl⟩ := h
  exact ⟨call, reply, hat, rfl⟩

theorem stepNewSnapShot_eq_some {p : Fin n} {data : Option D} {index : Int}
    (h : s.stepNewSnapShot p data index = some s') :
    ∃ rf, (s.peers p).newSnapShot data index = some rf ∧ s' = s.setPeer p rf := by
  simp only [stepNewSnapShot, Option.bind_eq_bind, Option.bind_eq_some_iff, Option.pure_def,
    Option.some.injEq] at h
  obtain ⟨rf, hrf, rfl⟩ := h
  exact ⟨rf, hrf, rfl⟩

theorem stepApplyTake_eq_some {p : Fin n} {spare : List (LogEntry C)}
    (h : s.stepApplyTake p spare = some s') :
    ∃ rf msgs, s.pending p = [] ∧ (s.peers p).applyLogEntries spare = some (rf, msgs) ∧
      s' = { s.setPeer p rf with pending := Function.update s.pending p msgs } := by
  simp only [stepApplyTake, Option.bind_eq_bind, Option.bind_eq_some_iff,
    Option.guard_eq_some', Option.pure_def, Option.some.injEq, Prod.exists] at h
  obtain ⟨-, hemp, rf, msgs, htake, rfl⟩ := h
  exact ⟨rf, msgs, by simpa using hemp, htake, rfl⟩

theorem stepApplySend_eq_some {p : Fin n} (h : s.stepApplySend p = some s') :
    ∃ msg rest, s.pending p = msg :: rest ∧
      s' = { s with
        pending := Function.update s.pending p rest
        applied := Function.update s.applied p (s.applied p ++ [msg]) } := by
  unfold stepApplySend at h
  split at h
  · cases h
  · rename_i msg rest hp
    cases h
    exact ⟨msg, rest, hp, rfl⟩

/-! ## What `send` leaves alone -/

section send

variable (p i : Fin n) (out : Option (Raft.Outgoing n C D))

@[simp] theorem send_peers : (s.send p i out).peers = s.peers := by
  rcases out with _ | ⟨_ | _⟩ <;> rfl

@[simp] theorem send_epoch : (s.send p i out).epoch = s.epoch := by
  rcases out with _ | ⟨_ | _⟩ <;> rfl

@[simp] theorem send_canvasses : (s.send p i out).canvasses = s.canvasses := by
  rcases out with _ | ⟨_ | _⟩ <;> rfl

@[simp] theorem send_voteCalls : (s.send p i out).voteCalls = s.voteCalls := by
  rcases out with _ | ⟨_ | _⟩ <;> rfl

@[simp] theorem send_pending : (s.send p i out).pending = s.pending := by
  rcases out with _ | ⟨_ | _⟩ <;> rfl

@[simp] theorem send_applied : (s.send p i out).applied = s.applied := by
  rcases out with _ | ⟨_ | _⟩ <;> rfl

@[simp] theorem send_wins : (s.send p i out).wins = s.wins := by
  rcases out with _ | ⟨_ | _⟩ <;> rfl

/-- An append call after `send` is an old one or the one just sent. -/
theorem mem_send_appendCalls {call : Call n (AppendEntriesArgs n C) AppendEntriesReply}
    (h : call ∈ (s.send p i out).appendCalls) :
    call ∈ s.appendCalls ∨
      ∃ args, out = some (.append args) ∧
        call = { src := p, dst := i, epoch := s.epoch p, args := args, status := .sent } := by
  rcases out with _ | ⟨args | args⟩
  · exact Or.inl h
  · rcases List.mem_append.mp h with h | h
    · exact Or.inl h
    · exact Or.inr ⟨args, rfl, List.mem_singleton.mp h⟩
  · exact Or.inl h

theorem mem_send_snapshotCalls {call : Call n (InstallSnapshotArgs n D) InstallSnapshotReply}
    (h : call ∈ (s.send p i out).snapshotCalls) :
    call ∈ s.snapshotCalls ∨
      ∃ args, out = some (.snapshot args) ∧
        call = { src := p, dst := i, epoch := s.epoch p, args := args, status := .sent } := by
  rcases out with _ | ⟨args | args⟩
  · exact Or.inl h
  · exact Or.inl h
  · rcases List.mem_append.mp h with h | h
    · exact Or.inl h
    · exact Or.inr ⟨args, rfl, List.mem_singleton.mp h⟩

end send

/-! ## The peers after a step -/

/-- `rf'` is what some handler, reply handler or daemon makes of the peer `rf`. -/
inductive PeerStep (rf : Raft n C D) : Raft n C D → Prop where
  | canvassVotes {rf' args} : rf.fillRequestVoteArgs = some (rf', args) → PeerStep rf rf'
  | requestVote {rf' args reply} : rf.requestVote args = some (rf', reply) → PeerStep rf rf'
  | voteReply {rf' args votes reply votes'} :
      rf.voteReplyHandler args votes reply = (rf', votes') → PeerStep rf rf'
  | start {command} : PeerStep rf (rf.start command).1
  | appendEntries {rf' args reply} : rf.appendEntries args = some (rf', reply) → PeerStep rf rf'
  | appendReply {rf' i reply out} :
      rf.consistencyCheckReplyHandler i reply = some (rf', out) → PeerStep rf rf'
  | installSnapshot {rf' args reply msg} :
      rf.installSnapshot args = some (rf', reply, msg) → PeerStep rf rf'
  | snapshotReply {i reply} : PeerStep rf (rf.snapshotReplyHandler i reply)
  | newSnapShot {rf' data index} : rf.newSnapShot data index = some rf' → PeerStep rf rf'
  | applyTake {rf' spare msgs} : rf.applyLogEntries spare = some (rf', msgs) → PeerStep rf rf'

/-- Every peer is left alone by a step, handles something in it, or crashes. -/
theorem peers_step {e : Event n C D} (h : s.step e = some s') (p : Fin n) :
    s'.peers p = s.peers p ∨ PeerStep (s.peers p) (s'.peers p) ∨
      (e = .crash p ∧ s'.peers p = Raft.make p (s.peers p).persister) := by
  have hset : ∀ {q : Fin n} {rf : Raft n C D}, PeerStep (s.peers q) rf →
      Function.update s.peers q rf p = s.peers p ∨
        PeerStep (s.peers p) (Function.update s.peers q rf p) := by
    intro q rf hstep
    by_cases hqp : p = q
    · subst hqp
      rw [Function.update_self]
      exact Or.inr hstep
    · exact Or.inl (Function.update_of_ne hqp _ _)
  have hdone : ∀ {t : Cluster n C D},
      t.peers p = s.peers p ∨ PeerStep (s.peers p) (t.peers p) →
      t.peers p = s.peers p ∨ PeerStep (s.peers p) (t.peers p) ∨
        (e = .crash p ∧ t.peers p = Raft.make p (s.peers p).persister) :=
    fun h => h.imp_right Or.inl
  cases e with
  | canvassVotes q =>
      obtain ⟨rf, args, hfill, rfl⟩ := stepCanvassVotes_eq_some h
      exact hdone (hset (.canvassVotes hfill))
  | requestVote k =>
      obtain ⟨call, rf, reply, -, hrv, rfl⟩ := stepRequestVote_eq_some h
      exact hdone (hset (.requestVote hrv))
  | voteReply k =>
      obtain ⟨call, cv, reply, rf, votes, -, hh, rfl⟩ := stepVoteReply_eq_some h
      exact hdone (hset (.voteReply hh))
  | start q command =>
      obtain rfl := Option.some.inj h
      exact hdone (hset .start)
  | consistencyCheck q i =>
      obtain ⟨out, -, -, rfl⟩ := stepConsistencyCheck_eq_some h
      rw [send_peers]
      exact Or.inl rfl
  | appendEntries k =>
      obtain ⟨call, rf, reply, -, hae, rfl⟩ := stepAppendEntries_eq_some h
      exact hdone (hset (.appendEntries hae))
  | appendReply k =>
      obtain ⟨call, reply, rf, out, -, hh, rfl⟩ := stepAppendReply_eq_some h
      refine hdone ?_
      rw [send_peers]
      exact hset (.appendReply hh)
  | installSnapshot k =>
      obtain ⟨call, rf, reply, msg, -, his, rfl⟩ := stepInstallSnapshot_eq_some h
      exact hdone (hset (.installSnapshot his))
  | snapshotReply k =>
      obtain ⟨call, reply, -, rfl⟩ := stepSnapshotReply_eq_some h
      exact hdone (hset .snapshotReply)
  | newSnapShot q data index =>
      obtain ⟨rf, hrf, rfl⟩ := stepNewSnapShot_eq_some h
      exact hdone (hset (.newSnapShot hrf))
  | applyTake q spare =>
      obtain ⟨rf, msgs, -, htake, rfl⟩ := stepApplyTake_eq_some h
      exact hdone (hset (.applyTake htake))
  | applySend q =>
      obtain ⟨msg, rest, -, rfl⟩ := stepApplySend_eq_some h
      exact Or.inl rfl
  | crash q =>
      obtain rfl := Option.some.inj h
      by_cases hqp : p = q
      · subst hqp
        exact Or.inr (Or.inr ⟨rfl, Function.update_self ..⟩)
      · exact Or.inl (Function.update_of_ne hqp _ _)

/-! ## The records after a step -/

/-- Wins are never forgotten. -/
theorem wins_step {e : Event n C D} (h : s.step e = some s') : s.wins <+: s'.wins := by
  cases e with
  | voteReply k =>
      obtain ⟨_, cv, reply, rf, votes, -, -, rfl⟩ := stepVoteReply_eq_some h
      show s.wins <+: ite _ _ _
      split
      · exact List.prefix_append _ _
      · exact List.prefix_refl _
  | consistencyCheck p i =>
      obtain ⟨out, -, -, rfl⟩ := stepConsistencyCheck_eq_some h
      rw [send_wins]
  | appendReply k =>
      obtain ⟨_, reply, rf, out, -, -, rfl⟩ := stepAppendReply_eq_some h
      rw [send_wins]
      exact List.prefix_refl _
  | canvassVotes p =>
      obtain ⟨rf, args, -, rfl⟩ := stepCanvassVotes_eq_some h
      exact List.prefix_refl _
  | requestVote k =>
      obtain ⟨_, rf, reply, -, -, rfl⟩ := stepRequestVote_eq_some h
      exact List.prefix_refl _
  | start p command =>
      obtain rfl := Option.some.inj h
      exact List.prefix_refl _
  | appendEntries k =>
      obtain ⟨_, rf, reply, -, -, rfl⟩ := stepAppendEntries_eq_some h
      exact List.prefix_refl _
  | installSnapshot k =>
      obtain ⟨_, rf, reply, msg, -, -, rfl⟩ := stepInstallSnapshot_eq_some h
      exact List.prefix_refl _
  | snapshotReply k =>
      obtain ⟨_, reply, -, rfl⟩ := stepSnapshotReply_eq_some h
      exact List.prefix_refl _
  | newSnapShot p data index =>
      obtain ⟨rf, -, rfl⟩ := stepNewSnapShot_eq_some h
      exact List.prefix_refl _
  | applyTake p spare =>
      obtain ⟨rf, msgs, -, -, rfl⟩ := stepApplyTake_eq_some h
      exact List.prefix_refl _
  | applySend p =>
      obtain ⟨msg, rest, -, rfl⟩ := stepApplySend_eq_some h
      exact List.prefix_refl _
  | crash p =>
      obtain rfl := Option.some.inj h
      exact List.prefix_refl _


/-- The list of append calls after a step: the same, with a new status for the call that was
handled, or with one more call, cut from the log of a leader. -/
theorem appendCalls_cases {e : Event n C D} (h : s.step e = some s') :
    s'.appendCalls = s.appendCalls ∨
    (∃ k call rf reply, requestAt s.appendCalls k = some call ∧
      (s.peers call.dst).appendEntries call.args = some (rf, reply) ∧
      s'.appendCalls = s.appendCalls.set k { call with status := .replied reply }) ∨
    (∃ k call reply, s.replyAt s.appendCalls k = some (call, reply) ∧
      s'.appendCalls = s.appendCalls.set k { call with status := .done reply }) ∨
    (∃ p i args, i ≠ p ∧ (s.peers p).consistencyCheck i = some (some (.append args)) ∧
      s'.peers = s.peers ∧
      s'.appendCalls = s.appendCalls ++
        [{ src := p, dst := i, epoch := s.epoch p, args := args, status := .sent }]) := by
  cases e with
  | consistencyCheck p i =>
      obtain ⟨out, hne, hout, rfl⟩ := stepConsistencyCheck_eq_some h
      rcases out with _ | ⟨args | args⟩
      · exact Or.inl rfl
      · exact Or.inr (Or.inr (Or.inr ⟨p, i, args, hne, hout, rfl, rfl⟩))
      · exact Or.inl rfl
  | appendEntries k =>
      obtain ⟨call, rf, reply, hat, hae, rfl⟩ := stepAppendEntries_eq_some h
      exact Or.inr (Or.inl ⟨k, call, rf, reply, hat, hae, rfl⟩)
  | appendReply k =>
      obtain ⟨call, reply, rf, out, hat, -, rfl⟩ := stepAppendReply_eq_some h
      refine Or.inr (Or.inr (Or.inl ⟨k, call, reply, hat, ?_⟩))
      cases out <;> rfl
  | canvassVotes p =>
      obtain ⟨rf, args, -, rfl⟩ := stepCanvassVotes_eq_some h
      exact Or.inl rfl
  | requestVote k =>
      obtain ⟨_, rf, reply, -, -, rfl⟩ := stepRequestVote_eq_some h
      exact Or.inl rfl
  | voteReply k =>
      obtain ⟨_, cv, reply, rf, votes, -, -, rfl⟩ := stepVoteReply_eq_some h
      exact Or.inl rfl
  | start p command =>
      obtain rfl := Option.some.inj h
      exact Or.inl rfl
  | installSnapshot k =>
      obtain ⟨_, rf, reply, msg, -, -, rfl⟩ := stepInstallSnapshot_eq_some h
      exact Or.inl rfl
  | snapshotReply k =>
      obtain ⟨_, reply, -, rfl⟩ := stepSnapshotReply_eq_some h
      exact Or.inl rfl
  | newSnapShot p data index =>
      obtain ⟨rf, -, rfl⟩ := stepNewSnapShot_eq_some h
      exact Or.inl rfl
  | applyTake p spare =>
      obtain ⟨rf, msgs, -, -, rfl⟩ := stepApplyTake_eq_some h
      exact Or.inl rfl
  | applySend p =>
      obtain ⟨msg, rest, -, rfl⟩ := stepApplySend_eq_some h
      exact Or.inl rfl
  | crash p =>
      obtain rfl := Option.some.inj h
      exact Or.inl rfl

/-- The append calls after a step: old ones, old ones with a new status, or one cut from the
log of a leader. -/
theorem appendCalls_step {e : Event n C D} (h : s.step e = some s')
    {call : Call n (AppendEntriesArgs n C) AppendEntriesReply} (hmem : call ∈ s'.appendCalls) :
    (∃ old ∈ s.appendCalls, call.args = old.args ∧ call.src = old.src ∧ call.dst = old.dst) ∨
      ∃ i, (s.peers call.src).consistencyCheck i = some (some (.append call.args)) ∧
        call.dst = i ∧ i ≠ call.src := by
  have hset : ∀ {k : Nat} {old : Call n (AppendEntriesArgs n C) AppendEntriesReply} {st},
      s.appendCalls[k]? = some old →
      call ∈ s.appendCalls.set k { old with status := st } →
      ∃ old ∈ s.appendCalls, call.args = old.args ∧ call.src = old.src ∧ call.dst = old.dst := by
    intro k old st hk hmem
    rcases List.mem_or_eq_of_mem_set hmem with hmem | rfl
    · exact ⟨call, hmem, rfl, rfl, rfl⟩
    · exact ⟨old, List.mem_of_getElem? hk, rfl, rfl, rfl⟩
  rcases appendCalls_cases h with heq | ⟨k, old, rf, reply, hat, -, heq⟩ |
    ⟨k, old, reply, hat, heq⟩ | ⟨p, i, args, hne, hout, -, heq⟩ <;> rw [heq] at hmem
  · exact Or.inl ⟨call, hmem, rfl, rfl, rfl⟩
  · exact Or.inl (hset (requestAt_eq_some hat).1 hmem)
  · exact Or.inl (hset (replyAt_eq_some hat).1 hmem)
  · rcases List.mem_append.mp hmem with hmem | hmem
    · exact Or.inl ⟨call, hmem, rfl, rfl, rfl⟩
    · obtain rfl := List.mem_singleton.mp hmem
      exact Or.inr ⟨i, hout, rfl, hne⟩

/-- The snapshot calls after a step: old ones, old ones with a new status, or the snapshot
of the peer that sends it. -/
theorem snapshotCalls_step {e : Event n C D} (h : s.step e = some s')
    {call : Call n (InstallSnapshotArgs n D) InstallSnapshotReply}
    (hmem : call ∈ s'.snapshotCalls) :
    (∃ old ∈ s.snapshotCalls, call.args = old.args) ∨
      call.args = (s'.peers call.src).sendSnapshot := by
  -- an answer changes the status of a record only
  have hset : ∀ {k : Nat} {old : Call n (InstallSnapshotArgs n D) InstallSnapshotReply} {st},
      s.snapshotCalls[k]? = some old →
      call ∈ s.snapshotCalls.set k { old with status := st } →
      ∃ old ∈ s.snapshotCalls, call.args = old.args := by
    intro k old st hk hmem
    rcases List.mem_or_eq_of_mem_set hmem with hmem | rfl
    · exact ⟨call, hmem, rfl⟩
    · exact ⟨old, List.mem_of_getElem? hk, rfl⟩
  cases e with
  | consistencyCheck p i =>
      obtain ⟨out, -, hout, rfl⟩ := stepConsistencyCheck_eq_some h
      rcases mem_send_snapshotCalls p i out hmem with hmem | ⟨args, rfl, rfl⟩
      · exact Or.inl ⟨call, hmem, rfl⟩
      · rw [send_peers]
        exact Or.inr (Raft.consistencyCheck_snapshot hout).2
  | appendReply k =>
      obtain ⟨old, reply, rf, out, -, hh, rfl⟩ := stepAppendReply_eq_some h
      rcases mem_send_snapshotCalls _ _ _ hmem with hmem | ⟨args, hsome, rfl⟩
      · exact Or.inl ⟨call, hmem, rfl⟩
      · rw [send_peers, setPeer_peers, Function.update_self]
        -- the leader sends one where the hint leads into its snapshot
        rcases Raft.consistencyCheckReplyHandler_cases hh with ⟨-, -, rfl⟩ | ⟨-, -, -, -, rfl⟩ |
          ⟨-, -, -, -, rfl⟩ | ⟨-, -, -, -, rfl | rfl⟩
        · cases hsome
        · cases hsome
        · cases hsome
        · cases hsome
        · cases hsome
          exact Or.inr rfl
  | installSnapshot k =>
      obtain ⟨old, rf, reply, msg, hat, -, rfl⟩ := stepInstallSnapshot_eq_some h
      exact Or.inl (hset (requestAt_eq_some hat).1 hmem)
  | snapshotReply k =>
      obtain ⟨old, reply, hat, rfl⟩ := stepSnapshotReply_eq_some h
      exact Or.inl (hset (replyAt_eq_some hat).1 hmem)
  | canvassVotes p =>
      obtain ⟨rf, args, -, rfl⟩ := stepCanvassVotes_eq_some h
      exact Or.inl ⟨call, hmem, rfl⟩
  | requestVote k =>
      obtain ⟨_, rf, reply, -, -, rfl⟩ := stepRequestVote_eq_some h
      exact Or.inl ⟨call, hmem, rfl⟩
  | voteReply k =>
      obtain ⟨_, cv, reply, rf, votes, -, -, rfl⟩ := stepVoteReply_eq_some h
      exact Or.inl ⟨call, hmem, rfl⟩
  | start p command =>
      obtain rfl := Option.some.inj h
      exact Or.inl ⟨call, hmem, rfl⟩
  | appendEntries k =>
      obtain ⟨_, rf, reply, -, -, rfl⟩ := stepAppendEntries_eq_some h
      exact Or.inl ⟨call, hmem, rfl⟩
  | newSnapShot p data index =>
      obtain ⟨rf, -, rfl⟩ := stepNewSnapShot_eq_some h
      exact Or.inl ⟨call, hmem, rfl⟩
  | applyTake p spare =>
      obtain ⟨rf, msgs, -, -, rfl⟩ := stepApplyTake_eq_some h
      exact Or.inl ⟨call, hmem, rfl⟩
  | applySend p =>
      obtain ⟨msg, rest, -, rfl⟩ := stepApplySend_eq_some h
      exact Or.inl ⟨call, hmem, rfl⟩
  | crash p =>
      obtain rfl := Option.some.inj h
      exact Or.inl ⟨call, hmem, rfl⟩

end RaftLab.Cluster
