import RaftLab.Cluster.LeaderLog
import RaftLab.Raft.Commit

set_option autoImplicit false

/-! # Acknowledgements and the leader's log

`consistencyCheckReplyHandler` panics when a follower acknowledges more than the leader has,
and `updateCommitIndex` reads the log at the median of `matchIndex`. Both are safe as long as
an acknowledgement is counted by the leadership that asked for it: a request carries the
leader's log up to its last entry, and the last index of a leader never falls. A reply has no
mark of the request it answers, so one that is late enough is counted by a later leadership
of the same peer, whose log may be shorter.
-/

namespace RaftLab

variable {n : Nat} {C D : Type}

namespace Raft

/-- The log has its placeholder, and a leader has matched no follower beyond its own log. -/
structure MatchBounded (rf : Raft n C D) : Prop where
  nonempty : rf.logs ≠ []
  snapshotIndex_nonneg : 0 ≤ rf.snapshotIndex
  matched : rf.state = .leader → ∀ i, rf.matchIndex i ≤ rf.lastIndex

variable {rf rf' : Raft n C D}

theorem MatchBounded.snapshotIndex_le (h : rf.MatchBounded) :
    rf.snapshotIndex ≤ rf.lastIndex := by
  have hlen := List.length_pos_of_ne_nil h.nonempty
  rw [lastIndex]
  omega

theorem MatchBounded.of_eq (h : rf.MatchBounded) (hlogs : rf'.logs = rf.logs)
    (hsnap : rf'.snapshotIndex = rf.snapshotIndex)
    (hmatch : rf'.state = .leader → rf.state = .leader ∧ rf'.matchIndex = rf.matchIndex) :
    rf'.MatchBounded where
  nonempty := by
    rw [hlogs]
    exact h.nonempty
  snapshotIndex_nonneg := by
    rw [hsnap]
    exact h.snapshotIndex_nonneg
  matched hl i := by
    obtain ⟨hold, heq⟩ := hmatch hl
    rw [heq, lastIndex, hlogs, hsnap]
    exact h.matched hold i

/-- A new match that the log reaches. -/
theorem MatchBounded.acknowledged (h : rf.MatchBounded) (i : Fin n) {index : Int}
    (hle : index ≤ rf.lastIndex) : (rf.acknowledged i index).MatchBounded where
  nonempty := h.nonempty
  snapshotIndex_nonneg := h.snapshotIndex_nonneg
  matched hl j := by
    show Function.update rf.matchIndex i index j ≤ rf.lastIndex
    by_cases hji : j = i
    · rw [hji, Function.update_self]
      exact hle
    · rw [Function.update_of_ne hji]
      exact h.matched hl j

/-- A new leader knows of its own log only. -/
theorem MatchBounded.resetOnElection (h : rf.MatchBounded) :
    { rf with state := .leader }.resetOnElection.MatchBounded where
  nonempty := h.nonempty
  snapshotIndex_nonneg := h.snapshotIndex_nonneg
  matched _ i := by
    show (if i = rf.me then (rf.logs.length : Int) + rf.snapshotIndex - 1 else 0) ≤ rf.lastIndex
    have hle := h.snapshotIndex_le
    have hnonneg := h.snapshotIndex_nonneg
    split
    · rw [lastIndex]
      omega
    · omega

theorem MatchBounded.start (h : rf.MatchBounded) (command : Option C) :
    (rf.start command).1.MatchBounded := by
  unfold Raft.start
  split
  · rename_i hl
    refine ⟨by simp, h.snapshotIndex_nonneg, fun _ i => ?_⟩
    show Function.update rf.matchIndex rf.me
        (((rf.logs ++ [_]).length : Int) - 1 + rf.snapshotIndex) i
      ≤ rf.snapshotIndex + ((rf.logs ++ [_]).length : Int) - 1
    by_cases hi : i = rf.me
    · rw [hi, Function.update_self]
      omega
    · rw [Function.update_of_ne hi, List.length_append]
      have hold := h.matched hl i
      rw [lastIndex] at hold
      omega
  · exact h

/-- The last index after a snapshot of another peer is not lower. -/
theorem lastIndex_le_installSnapshot {args : InstallSnapshotArgs n D}
    {reply : InstallSnapshotReply} {msg : Option (ApplyMsg C D)}
    (h : rf.installSnapshot args = some (rf', reply, msg)) : rf.lastIndex ≤ rf'.lastIndex := by
  rcases (installSnapshot_cases h).2 with ⟨-, rfl, -⟩ | ⟨hterm, hlt, -, -⟩
  · exact le_refl _
  · rw [installSnapshot_of_le hterm hlt] at h
    cases h
    show rf.snapshotIndex + rf.logs.length - 1 ≤
      args.lastIncludedIndex + ((_ :: List.drop _ _ : List (LogEntry C)).length : Int) - 1
    rw [List.length_cons, List.length_drop]
    omega

theorem MatchBounded.installSnapshot (hb : rf.MatchBounded) {args : InstallSnapshotArgs n D}
    {reply : InstallSnapshotReply} {msg : Option (ApplyMsg C D)}
    (h : rf.installSnapshot args = some (rf', reply, msg)) : rf'.MatchBounded := by
  have hlast := lastIndex_le_installSnapshot h
  have hnonneg := hb.snapshotIndex_nonneg
  rcases (installSnapshot_cases h).2 with ⟨-, rfl, -⟩ | ⟨-, hlt, ⟨k, rfl⟩, -⟩
  · exact hb
  · refine ⟨by simp [installAt], ?_, fun hl i => le_trans (hb.matched hl i) hlast⟩
    show 0 ≤ args.lastIncludedIndex
    omega

theorem MatchBounded.newSnapShot (hb : rf.MatchBounded) {data : Option D} {index : Int}
    (h : rf.newSnapShot data index = some rf') : rf'.MatchBounded := by
  have hlast := (newSnapShot_extends h).lastIndex_eq
  have hnonneg := hb.snapshotIndex_nonneg
  rw [List.length_nil, Nat.cast_zero, add_zero] at hlast
  rcases newSnapShot_cases h with ⟨-, rfl⟩ | ⟨hlt, -, e, rest, -, rfl⟩
  · exact hb
  · refine ⟨by simp, ?_, fun hl i => ?_⟩
    · show 0 ≤ index
      omega
    · rw [hlast]
      exact hb.matched hl i

/-! ## The median -/

theorem medianMatch_le {target : Int} (hb : rf.MatchBounded) (hl : rf.state = .leader)
    (hm : rf.medianMatch = some target) : target ≤ rf.lastIndex := by
  have hmem := List.mem_of_getElem? hm
  rw [List.mem_insertionSort, List.mem_map] at hmem
  obtain ⟨i, -, rfl⟩ := hmem
  exact hb.matched hl i

/-- Handling the reply does not panic: an acknowledgement reaches no further than the log,
and the index at which `updateCommitIndex` reads the log is inside it. -/
structure ReplySafe (rf : Raft n C D) (i : Fin n) (reply : AppendEntriesReply) : Prop where
  returns : ∃ out, rf.consistencyCheckReplyHandler i reply = some out
  firstIndex_le : rf.state = .leader → reply.success = true → reply.firstIndex ≤ rf.lastIndex
  target_inside : rf.state = .leader → reply.success = true →
    ∀ target, (rf.acknowledged i reply.firstIndex).medianMatch = some target →
      rf.commitIndex < target → rf.snapshotIndex < target → ∃ e, rf.entryAt target = some e

/-- Only an acknowledgement beyond the log can make the reply handler panic. -/
theorem MatchBounded.replySafe (hb : rf.MatchBounded) {i : Fin n} {reply : AppendEntriesReply}
    (hle : rf.state = .leader → reply.success = true → reply.firstIndex ≤ rf.lastIndex) :
    rf.ReplySafe i reply := by
  have hinside : rf.state = .leader → reply.success = true →
      ∀ target, (rf.acknowledged i reply.firstIndex).medianMatch = some target →
        rf.commitIndex < target → rf.snapshotIndex < target → ∃ e, rf.entryAt target = some e := by
    intro hl hs target hm _ hsnap
    have htarget : target ≤ (rf.acknowledged i reply.firstIndex).lastIndex :=
      medianMatch_le (hb.acknowledged i (hle hl hs)) hl hm
    change target ≤ rf.lastIndex at htarget
    rw [← Option.ne_none_iff_exists', Ne, entryAt_eq_none_iff]
    omega
  refine ⟨?_, hle, hinside⟩
  unfold consistencyCheckReplyHandler
  by_cases hl : rf.state = .leader
  · rw [if_neg (not_not.mpr hl)]
    by_cases hs : reply.success = true
    · have hfirst := hle hl hs
      rw [lastIndex] at hfirst
      rw [if_pos hs, if_neg (by omega)]
      obtain ⟨target, hm⟩ := exists_medianMatch (rf.acknowledged i reply.firstIndex) i
      have hread := hinside hl hs target hm
      -- the only index that is read is the median
      show ∃ out, ((rf.acknowledged i reply.firstIndex).updateCommitIndex).bind _ = some out
      unfold updateCommitIndex
      rw [hm]
      simp only [Option.bind_eq_bind, Option.bind_some]
      split
      · rename_i hlt
        obtain ⟨e, he⟩ := hread hlt.1 hlt.2
        have he : Slice.index (rf.acknowledged i reply.firstIndex).logs
            (target - (rf.acknowledged i reply.firstIndex).snapshotIndex) = some e := he
        rw [he]
        simp only [Option.bind_some]
        split <;> exact ⟨_, rfl⟩
      · exact ⟨_, rfl⟩
    · rw [if_neg hs]
      split <;> exact ⟨_, rfl⟩
  · rw [if_pos hl]
    exact ⟨_, rfl⟩

/-- And such an acknowledgement does. -/
theorem MatchBounded.panics_iff (hb : rf.MatchBounded) {i : Fin n} {reply : AppendEntriesReply} :
    rf.consistencyCheckReplyHandler i reply = none ↔
      rf.state = .leader ∧ reply.success = true ∧ rf.lastIndex < reply.firstIndex := by
  constructor
  · intro hnone
    by_contra hno
    have hsafe : rf.ReplySafe i reply :=
      hb.replySafe fun hl hs => not_lt.mp fun hlt => hno ⟨hl, hs, hlt⟩
    obtain ⟨out, hout⟩ := hsafe.returns
    rw [hnone] at hout
    cases hout
  · rintro ⟨hl, hs, hlt⟩
    rw [lastIndex] at hlt
    rw [consistencyCheckReplyHandler, if_neg (not_not.mpr hl), if_pos hs, if_pos (by omega)]

end Raft

namespace Cluster

variable {s s' : Cluster n C D}

/-- Every handler keeps what a leader has matched inside its log. -/
theorem PeerStep.matchBounded {rf rf' : Raft n C D} (h : PeerStep rf rf')
    (hb : rf.MatchBounded) : rf'.MatchBounded := by
  cases h with
  | canvassVotes hfill =>
      rw [(Raft.fillRequestVoteArgs_eq_some hfill).1]
      exact hb.of_eq rfl rfl (fun hl => by cases hl)
  | requestVote hrv =>
      have hadopt : ∀ t, (rf.adoptTerm t).MatchBounded := by
        intro t
        unfold Raft.adoptTerm
        split
        · exact hb.of_eq rfl rfl (fun hl => by cases hl)
        · exact hb
      rcases Raft.requestVote_cases hrv with ⟨-, rfl, -⟩ | ⟨-, -, -, rfl, -⟩ | ⟨-, rfl, -⟩
      · exact hb.of_eq rfl rfl (fun hl => ⟨hl, rfl⟩)
      · exact (hadopt _).of_eq rfl rfl (fun hl => by cases hl)
      · exact (hadopt _).of_eq rfl rfl (fun hl => ⟨hl, rfl⟩)
  | @voteReply _ args votes reply _ hh =>
      rcases Raft.voteReplyHandler_cases rf args votes reply with heq | ⟨-, -, heq⟩ |
        ⟨-, -, -, -, heq⟩ | ⟨-, -, heq⟩ <;> obtain ⟨rfl, -⟩ := Prod.mk.inj (heq.symm.trans hh)
      · exact hb
      · exact hb.of_eq rfl rfl (fun hl => by cases hl)
      · -- the winner starts with its own last index for itself and 0 for the others
        exact hb.resetOnElection
      · exact hb
  | start => exact hb.start _
  | @appendEntries _ args _ hae =>
      -- who hears from a leader is none, so that only the log and the snapshot index count
      have hheard : rf.currentTerm ≤ args.term → (rf.hearLeader args).state ≠ .leader := by
        intro hle
        rw [Raft.hearLeader_eq hle]
        by_cases hl : rf.state = .leader <;> simp [hl]
      rcases Raft.appendEntries_cases hae with ⟨-, rfl, -⟩ | ⟨hle, -, rfl, -⟩ |
        ⟨hle, k, -, ⟨e, hk, -⟩, rfl, -⟩ | ⟨hle, -, rfl, -⟩
      · exact hb
      · refine hb.of_eq ?_ ?_ (fun hl => absurd hl (hheard hle)) <;> rw [Raft.hearLeader_eq hle]
      · refine ⟨?_, ?_, fun hl => absurd hl (hheard hle)⟩
        · rw [Raft.hearLeader_eq hle]
          obtain ⟨hklt, -⟩ := List.getElem?_eq_some_iff.mp hk
          apply List.ne_nil_of_length_pos
          show 0 < (rf.logs.take (k + 1) ++ args.entries).length
          rw [List.length_append, List.length_take]
          omega
        · rw [Raft.hearLeader_eq hle]
          exact hb.snapshotIndex_nonneg
      · refine hb.of_eq ?_ ?_ (fun hl => absurd hl (hheard hle)) <;> rw [Raft.hearLeader_eq hle] <;>
          rfl
  | @appendReply _ i reply _ hh =>
      rcases Raft.consistencyCheckReplyHandler_cases hh with ⟨-, rfl, -⟩ | ⟨-, -, hle, hup, -⟩ |
        ⟨-, -, -, rfl, -⟩ | ⟨-, -, -, ⟨next, rfl⟩, -⟩
      · exact hb
      · have hack := hb.acknowledged i (show reply.firstIndex ≤ rf.lastIndex by
          rw [Raft.lastIndex]; omega)
        rcases Raft.updateCommitIndex_cases hup with rfl | ⟨_, _, _, _, _, rfl⟩
        · exact hack
        · exact hack.of_eq rfl rfl (fun hl => ⟨hl, rfl⟩)
      · exact hb.of_eq rfl rfl (fun hl => by cases hl)
      · exact hb.of_eq rfl rfl (fun hl => ⟨hl, rfl⟩)
  | installSnapshot his => exact hb.installSnapshot his
  | @snapshotReply i reply =>
      rcases Raft.snapshotReplyHandler_cases rf i reply with ⟨-, heq⟩ | ⟨-, -, heq⟩ |
        ⟨-, -, heq⟩ <;> rw [heq]
      · exact hb
      · exact hb.of_eq rfl rfl (fun hl => by cases hl)
      · exact hb.acknowledged i hb.snapshotIndex_le
  | newSnapShot hrf => exact hb.newSnapShot hrf
  | applyTake htake =>
      rcases Raft.applyLogEntries_cases htake with ⟨-, rfl, -⟩ | ⟨-, rfl, -⟩
      · exact hb
      · exact hb.of_eq rfl rfl (fun hl => ⟨hl, rfl⟩)

/-- The last index of a leader does not fall. -/
theorem leader_lastIndex_le {e : Event n C D} {p : Fin n} (h : s.step e = some s')
    (hl : (s.peers p).state = .leader) (hl' : (s'.peers p).state = .leader) :
    (s.peers p).lastIndex ≤ (s'.peers p).lastIndex := by
  rcases leader_log_step h hl hl' with ⟨-, hlogs, hsnap⟩ | ⟨c, -, hrf⟩ | ⟨data, index, -, hrf⟩ |
    ⟨call, -, -, reply, msg, hrf⟩
  · rw [Raft.lastIndex, Raft.lastIndex, hlogs, hsnap]
  · rw [hrf, (Raft.start_extends hl c).lastIndex_eq]
    omega
  · rw [(Raft.newSnapShot_extends hrf).lastIndex_eq]
    simp
  · exact Raft.lastIndex_le_installSnapshot hrf

/-! ## Requests of the present leadership -/

/-- For each peer, how many append calls there were when it last became leader. -/
def leadershipBegan (s : Cluster n C D) (began : Fin n → Nat) (s' : Cluster n C D) (p : Fin n) :
    Nat :=
  if (s.peers p).state ≠ .leader ∧ (s'.peers p).state = .leader then s'.appendCalls.length
  else began p

/-- A leader counts the acceptance of a request it sent before it last became leader. -/
def LateAck (x : Cluster n C D × (Fin n → Nat)) : Event n C D → Prop
  | .appendReply k => ∃ y ∈ x.1.replyAt x.1.appendCalls k,
      (x.1.peers y.1.src).state = .leader ∧ y.2.success = true ∧ k < x.2 y.1.src
  | _ => False

/-- The requests of a leader's present leadership reach no further than its log, and an
acceptance acknowledges what the request carried. -/
structure AckInv (x : Cluster n C D × (Fin n → Nat)) : Prop where
  peers : ∀ p, (x.1.peers p).MatchBounded
  sent : ∀ k call, x.1.appendCalls[k]? = some call → (x.1.peers call.src).state = .leader →
    x.2 call.src ≤ k →
    call.args.prevLogIndex + call.args.entries.length ≤ (x.1.peers call.src).lastIndex
  answered : ∀ call ∈ x.1.appendCalls, ∀ reply, call.status.answer? = some reply →
    reply.success = true →
    reply.firstIndex = call.args.prevLogIndex + call.args.entries.length

/-- A request carries the leader's log to its end. -/
theorem consistencyCheck_reach {rf : Raft n C D} {i : Fin n} {args : AppendEntriesArgs n C}
    (h : rf.consistencyCheck i = some (some (.append args))) :
    args.prevLogIndex + args.entries.length = rf.lastIndex := by
  obtain ⟨-, -, -, -, k, hprev, ⟨e, hk, -⟩, hent⟩ := Raft.consistencyCheck_append h
  obtain ⟨hklt, -⟩ := List.getElem?_eq_some_iff.mp hk
  rw [hprev, hent, List.length_drop, Raft.lastIndex]
  omega

/-- Call `k` after a step: it was there before, or it has just been cut from a leader's log. -/
theorem appendCall_step {e : Event n C D} (h : s.step e = some s') {k : Nat}
    {call : Call n (AppendEntriesArgs n C) AppendEntriesReply}
    (hk : s'.appendCalls[k]? = some call) :
    (∃ old, s.appendCalls[k]? = some old ∧ call.args = old.args ∧ call.src = old.src) ∨
      (s'.peers = s.peers ∧ call.args.prevLogIndex + call.args.entries.length
        = (s.peers call.src).lastIndex) := by
  -- an answer changes the status of a record only
  have hset : ∀ {j : Nat} {old : Call n (AppendEntriesArgs n C) AppendEntriesReply} {st},
      s.appendCalls[j]? = some old →
      (s.appendCalls.set j { old with status := st })[k]? = some call →
      ∃ old, s.appendCalls[k]? = some old ∧ call.args = old.args ∧ call.src = old.src := by
    intro j old st hj hk
    rcases Records.getElem?_set_cases hj hk with ⟨rfl, rfl⟩ | ⟨-, hk⟩
    · exact ⟨old, hj, rfl, rfl⟩
    · exact ⟨call, hk, rfl, rfl⟩
  rcases appendCalls_cases h with heq | ⟨j, old, rf, reply, hat, -, heq⟩ |
    ⟨j, old, reply, hat, heq⟩ | ⟨p, i, args, -, hout, hpeers, heq⟩ <;> rw [heq] at hk
  · exact Or.inl ⟨call, hk, rfl, rfl⟩
  · exact Or.inl (hset (requestAt_eq_some hat).1 hk)
  · exact Or.inl (hset (replyAt_eq_some hat).1 hk)
  · rcases Records.getElem?_concat_cases hk with hk | ⟨-, rfl⟩
    · exact Or.inl ⟨call, hk, rfl, rfl⟩
    · exact Or.inr ⟨hpeers, consistencyCheck_reach hout⟩

theorem AckInv.init : AckInv ((init : Cluster n C D), fun _ => 0) where
  peers p := ⟨by simp [Cluster.init, Raft.make, Raft.newborn, Raft.readPersist,
    Persister.makePersister], le_refl _, fun hl => by cases hl⟩
  sent k call hk := by simp [Cluster.init] at hk
  answered call hmem := by simp [Cluster.init] at hmem

theorem AckInv.step {x x' : Cluster n C D × (Fin n → Nat)} {e : Event n C D} (hinv : AckInv x)
    (hcrash : e.isCrash = false)
    (h : Machine.observed Cluster.step leadershipBegan x e = some x') : AckInv x' := by
  obtain ⟨hs, hbegan⟩ := Machine.observed_eq_some h
  constructor
  · intro p
    rcases peers_step hs p with heq | hstep | ⟨rfl, -⟩
    · rw [heq]
      exact hinv.peers p
    · exact hstep.matchBounded (hinv.peers p)
    · cases hcrash
  · intro k call hk hl' hle
    -- a peer that has just become leader has sent nothing yet
    have hl : (x.1.peers call.src).state = .leader := by
      by_contra hnot
      rw [hbegan, leadershipBegan, if_pos ⟨hnot, hl'⟩] at hle
      have hlt := (List.getElem?_eq_some_iff.mp hk).1
      omega
    rw [hbegan, leadershipBegan, if_neg (fun hnew => hnew.1 hl)] at hle
    rcases appendCall_step hs hk with ⟨old, hold, hargs, hsrc⟩ | ⟨hpeers, heq⟩
    · rw [hsrc] at hle hl hl' ⊢
      rw [hargs]
      exact le_trans (hinv.sent k old hold hl hle) (leader_lastIndex_le hs hl hl')
    · rw [heq, hpeers]
  · intro call hmem reply hans hsucc
    rcases appendCalls_cases hs with heq | ⟨j, old, rf, reply', hat, hae, heq⟩ |
      ⟨j, old, reply', hat, heq⟩ | ⟨p, i, args, -, -, -, heq⟩ <;> rw [heq] at hmem
    · exact hinv.answered call hmem reply hans hsucc
    · rcases List.mem_or_eq_of_mem_set hmem with hmem | rfl
      · exact hinv.answered call hmem reply hans hsucc
      · obtain rfl : reply' = reply := by simpa [CallStatus.answer?] using hans
        rcases Raft.appendEntries_cases hae with ⟨-, -, hf, -⟩ | ⟨-, -, -, hf, -⟩ |
          ⟨-, k, hprev, -, -, -, -, hfirst⟩ | ⟨-, -, -, hf, -⟩
        · rw [hsucc] at hf
          cases hf
        · rw [hsucc] at hf
          cases hf
        · rw [hfirst, hprev]
        · rw [hsucc] at hf
          cases hf
    · rcases List.mem_or_eq_of_mem_set hmem with hmem | rfl
      · exact hinv.answered call hmem reply hans hsucc
      · obtain rfl : reply' = reply := by simpa [CallStatus.answer?] using hans
        obtain ⟨hj, hst, -⟩ := replyAt_eq_some hat
        exact hinv.answered old (List.mem_of_getElem? hj) reply' (by rw [hst]; rfl) hsucc
    · rcases List.mem_append.mp hmem with hmem | hmem
      · exact hinv.answered call hmem reply hans hsucc
      · obtain rfl := List.mem_singleton.mp hmem
        cases hans

instance (x : Cluster n C D × (Fin n → Nat)) (e : Event n C D) : Decidable (LateAck x e) :=
  match e with
  | .appendReply k => inferInstanceAs (Decidable (∃ y ∈ x.1.replyAt x.1.appendCalls k, _))
  | .canvassVotes _ | .requestVote _ | .voteReply _ | .start .. | .consistencyCheck ..
  | .appendEntries _ | .installSnapshot _ | .snapshotReply _ | .newSnapShot .. | .applyTake ..
  | .applySend _ | .crash _ => isFalse id

/-- **When the reply handler panics.** In every run without crashes, the handling of a reply on its
way panics if and only if a leader is told of an acceptance beyond its log. It is safe unless a
leader counts the acceptance of a request it sent before it last became leader. -/
theorem reply_safe {es : List (Event n C D)} (hcrash : ∀ e ∈ es, e.isCrash = false)
    (hrun : runFrom es = some s) :
    ∃ began, Machine.run (Machine.observed step leadershipBegan) (init, fun _ => 0) es
        = some (s, began) ∧
      ∀ k call reply, s.replyAt s.appendCalls k = some (call, reply) →
        ((s.peers call.src).consistencyCheckReplyHandler call.dst reply = none ↔
          (s.peers call.src).state = .leader ∧ reply.success = true ∧
            (s.peers call.src).lastIndex < reply.firstIndex) ∧
        (¬ LateAck (s, began) (.appendReply k) →
          (s.peers call.src).ReplySafe call.dst reply) := by
  obtain ⟨began, hobs⟩ : ∃ began,
      Machine.run (Machine.observed step leadershipBegan) (init, fun _ => 0) es
        = some (s, began) := Machine.exists_run_observed _ hrun
  refine ⟨began, hobs, fun k call reply hk => ?_⟩
  have hinv : AckInv (s, began) :=
    Machine.run_induction (fun _ _ _ hi hok hs => hi.step hok hs) AckInv.init
      (Machine.along_of_forall hcrash) hobs
  obtain ⟨hget, hst, -⟩ := replyAt_eq_some hk
  refine ⟨(hinv.peers call.src).panics_iff, fun hlate => ?_⟩
  refine (hinv.peers call.src).replySafe fun hl hsucc => ?_
  rw [hinv.answered call (List.mem_of_getElem? hget) reply (by rw [hst]; rfl) hsucc]
  refine hinv.sent k call hget hl ?_
  by_contra hlt
  exact hlate ⟨(call, reply), hk, hl, hsucc, not_le.mp hlt⟩

/-- An acknowledgement on its way to the leader that asked for it. -/
def ackOnItsWay : List (Event 3 Nat Unit) :=
  [.canvassVotes 0, .requestVote 0, .voteReply 0, .start 0 (some 10), .consistencyCheck 0 1,
   .appendEntries 0]

theorem reply_safe_ackOnItsWay :
    ∃ s call reply, runFrom ackOnItsWay = some s ∧
      s.replyAt s.appendCalls 0 = some (call, reply) ∧ (s.peers call.src).state = .leader ∧
      reply.success = true ∧ (s.peers call.src).ReplySafe call.dst reply := by
  have hfacts : (Machine.run (Machine.observed step leadershipBegan) (init, fun _ => 0)
      ackOnItsWay).any (fun x => ¬ LateAck x (.appendReply 0) ∧
        (x.1.replyAt x.1.appendCalls 0).any (fun y =>
          (x.1.peers y.1.src).state = .leader ∧ y.2.success = true)) = true := by decide
  obtain ⟨s, hs⟩ := Option.isSome_iff_exists.mp (show (runFrom ackOnItsWay).isSome = true by decide)
  obtain ⟨began, hobs, hsafe⟩ := reply_safe (by decide) hs
  rw [hobs] at hfacts
  simp only [Option.any_some, decide_eq_true_eq, Option.any_eq_true] at hfacts
  obtain ⟨hlate, ⟨call, reply⟩, hk, hl, hsucc⟩ := hfacts
  exact ⟨s, call, reply, hs, hk, hl, hsucc, (hsafe 0 call reply hk).2 hlate⟩

/-- Peer 0 leads term 1 and peer 1 accepts its entry; the reply is delayed. Peer 2 leads term
2 without that entry and cuts it from the log of peer 0, which then leads term 3. -/
def regainedLeadership : List (Event 5 Nat Unit) :=
  [.canvassVotes 0, .requestVote 0, .requestVote 1, .voteReply 0, .voteReply 1,
   .start 0 (some 10), .consistencyCheck 0 1, .appendEntries 0,
   .canvassVotes 2, .requestVote 6, .requestVote 7, .voteReply 6, .voteReply 7,
   .consistencyCheck 2 0, .appendEntries 1,
   .canvassVotes 0, .requestVote 10, .requestVote 11, .voteReply 10, .voteReply 11]

/-- The delayed acknowledgement reaches a leader whose log is shorter: the handler panics. -/
theorem late_acknowledgement_panics :
    ∃ s call reply, (∀ e ∈ regainedLeadership, e.isCrash = false) ∧
      runFrom regainedLeadership = some s ∧
      s.replyAt s.appendCalls 0 = some (call, reply) ∧
      (s.peers call.src).lastIndex < reply.firstIndex ∧
      (s.peers call.src).consistencyCheckReplyHandler call.dst reply = none := by
  have hrun : (runFrom regainedLeadership).any (fun s => (s.replyAt s.appendCalls 0).any (fun y =>
      (s.peers y.1.src).lastIndex < y.2.firstIndex ∧
      ((s.peers y.1.src).consistencyCheckReplyHandler y.1.dst y.2).isNone)) = true := by decide
  simp only [Option.any_eq_true, decide_eq_true_eq, Option.isNone_iff_eq_none] at hrun
  obtain ⟨s, hs, ⟨call, reply⟩, hk, hlt, hnone⟩ := hrun
  exact ⟨s, call, reply, by decide, hs, hk, hlt, hnone⟩

end Cluster

end RaftLab
