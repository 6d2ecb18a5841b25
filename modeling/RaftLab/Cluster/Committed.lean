import RaftLab.Cluster.Safety

set_option autoImplicit false

/-! # Committed prefixes and what is delivered of them

The code lets a follower lower its `commitIndex`: with a request that cuts the log below it,
`commitIndex` becomes the smaller of `LeaderCommit` and the new last index. On the runs on which
the cluster keeps a ledger it never comes to that. A follower keeps whatever its log has in common
with the leader's, and that includes all it has committed (`Cluster.advances_step`). So the
committed prefix of a peer only grows, it is in the log of every later leader, and the messages
that a peer sends on `applyCh` are the entries of its own log, each once and in order.
-/

namespace RaftLab

variable {n : Nat} {C D : Type}

namespace Raft

/-- The entries `1 … commitIndex` of a peer that has taken no snapshot. -/
def committed (rf : Raft n C D) : List (LogEntry C) :=
  (rf.logs.take (rf.commitIndex.toNat + 1)).drop 1

/-- The entries that the apply daemon has taken. -/
def taken (rf : Raft n C D) : List (LogEntry C) :=
  (rf.logs.take (rf.lastApplied.toNat + 1)).drop 1

/-- `lastApplied`, `commitIndex` and the last index are in this order. -/
structure InOrder (rf : Raft n C D) : Prop where
  lastApplied_le : rf.lastApplied ≤ rf.commitIndex
  commitIndex_lt : rf.commitIndex < rf.logs.length

/-- From `rf` to `rf'` the committed part of the log stays, and may grow; nothing is taken. -/
structure Advances (rf rf' : Raft n C D) : Prop where
  commitIndex_le : rf.commitIndex ≤ rf'.commitIndex
  kept : 0 < rf.commitIndex → rf.logs.take (rf.commitIndex.toNat + 1) <+: rf'.logs
  commitIndex_lt : rf'.commitIndex < rf'.logs.length
  lastApplied : rf'.lastApplied = rf.lastApplied

variable {rf rf' : Raft n C D}

theorem committed_eq_nil (h : rf.commitIndex ≤ 0) : rf.committed = [] := by
  rw [committed, show rf.commitIndex.toNat = 0 by omega]
  exact List.drop_eq_nil_of_le (List.length_take_le _ _)

theorem InOrder.taken_isPrefix (h : rf.InOrder) : rf.taken <+: rf.committed := by
  have hle := h.lastApplied_le
  exact (List.take_prefix_take_left (by omega)).drop 1

/-- Up to an index that is committed, the log does not change. -/
theorem Advances.take_eq (h : rf.Advances rf') (hin : rf.InOrder) {i : Int}
    (hi : i ≤ rf.commitIndex) :
    (rf'.logs.take (i.toNat + 1)).drop 1 = (rf.logs.take (i.toNat + 1)).drop 1 := by
  by_cases hpos : 0 < i
  · have hlt := hin.commitIndex_lt
    have hkept := h.kept (Int.lt_of_lt_of_le hpos hi)
    have htake := hkept.take (i.toNat + 1)
    rw [List.take_take, Nat.min_eq_left (by omega)] at htake
    rw [htake.eq_of_length]
    have := hkept.length_le
    rw [List.length_take] at this
    rw [List.length_take, List.length_take]
    omega
  · rw [show i.toNat = 0 by omega]
    rw [List.drop_eq_nil_of_le (List.length_take_le _ _),
      List.drop_eq_nil_of_le (List.length_take_le _ _)]

theorem Advances.committed_isPrefix (h : rf.Advances rf') (hin : rf.InOrder) :
    rf.committed <+: rf'.committed := by
  have hle := h.commitIndex_le
  rw [committed, ← h.take_eq hin (Int.le_refl _)]
  exact (List.take_prefix_take_left (by omega)).drop 1

theorem Advances.taken_eq (h : rf.Advances rf') (hin : rf.InOrder) : rf'.taken = rf.taken := by
  rw [taken, h.lastApplied]
  exact h.take_eq hin hin.lastApplied_le

theorem Advances.inOrder (h : rf.Advances rf') (hin : rf.InOrder) : rf'.InOrder where
  lastApplied_le := by
    rw [h.lastApplied]
    exact Int.le_trans hin.lastApplied_le h.commitIndex_le
  commitIndex_lt := h.commitIndex_lt

/-! ## What the handlers do to the committed part -/

/-- The two peers agree on all that commitment is about. -/
def SameCommit (rf rf' : Raft n C D) : Prop :=
  rf'.logs = rf.logs ∧ rf'.commitIndex = rf.commitIndex ∧ rf'.lastApplied = rf.lastApplied

theorem SameCommit.advances (h : rf.SameCommit rf') (hin : rf.InOrder) : rf.Advances rf' where
  commitIndex_le := by rw [h.2.1]
  kept := by
    intro _
    rw [h.1]
    exact List.take_prefix _ _
  commitIndex_lt := by
    rw [h.1, h.2.1]
    exact hin.commitIndex_lt
  lastApplied := h.2.2

theorem start_advances (hin : rf.InOrder) (command : Option C) :
    rf.Advances (rf.start command).1 := by
  unfold start
  split
  · refine ⟨Int.le_refl _, fun _ => ?_, ?_, rfl⟩
    · exact (List.take_prefix _ _).trans (List.prefix_append _ _)
    · have := hin.commitIndex_lt
      show rf.commitIndex < ((rf.logs ++ _).length : Nat)
      rw [List.length_append]
      omega
  · exact SameCommit.advances ⟨rfl, rfl, rfl⟩ hin

theorem updateCommitIndex_advances (hin : rf.InOrder) (hidx : rf.snapshotIndex = 0)
    (h : rf.updateCommitIndex = some rf') : rf.Advances rf' := by
  rcases updateCommitIndex_cases h with rfl | ⟨target, -, hlt, -, ⟨e, he, -⟩, rfl⟩
  · exact SameCommit.advances ⟨rfl, rfl, rfl⟩ hin
  · refine ⟨Int.le_of_lt hlt, fun _ => List.take_prefix _ _, ?_, rfl⟩
    rw [hidx, Int.sub_zero] at he
    obtain ⟨k, rfl, hget⟩ := Slice.index_eq_some he
    exact Int.ofNat_lt.mpr (List.getElem?_eq_some_iff.mp hget).1

theorem requestVote_sameCommit {args : RequestVoteArgs n} {reply : RequestVoteReply}
    (h : rf.requestVote args = some (rf', reply)) : rf.SameCommit rf' := by
  have hadopt : rf.SameCommit (rf.adoptTerm args.term) := by
    unfold adoptTerm
    split <;> exact ⟨rfl, rfl, rfl⟩
  rcases requestVote_cases h with ⟨-, rfl, -⟩ | ⟨-, -, -, rfl, -⟩ | ⟨-, rfl, -⟩
  · exact ⟨rfl, rfl, rfl⟩
  · exact hadopt
  · exact hadopt

theorem voteReplyHandler_sameCommit {args : RequestVoteArgs n} {votes votes' : Nat}
    {reply : RequestVoteReply} (h : rf.voteReplyHandler args votes reply = (rf', votes')) :
    rf.SameCommit rf' := by
  rcases voteReplyHandler_cases rf args votes reply with heq | ⟨-, -, heq⟩ |
    ⟨-, -, -, -, heq⟩ | ⟨-, -, heq⟩ <;> cases h.symm.trans heq <;> exact ⟨rfl, rfl, rfl⟩

theorem consistencyCheckReplyHandler_advances (hin : rf.InOrder) (hidx : rf.snapshotIndex = 0)
    {i : Fin n} {reply : AppendEntriesReply} {out : Option (InstallSnapshotArgs n D)}
    (h : rf.consistencyCheckReplyHandler i reply = some (rf', out)) : rf.Advances rf' := by
  rcases consistencyCheckReplyHandler_cases h with ⟨-, rfl, -⟩ | ⟨-, -, -, hup, -⟩ |
    ⟨-, -, -, rfl, -⟩ | ⟨-, -, -, ⟨next, rfl⟩, -⟩
  · exact SameCommit.advances ⟨rfl, rfl, rfl⟩ hin
  · have hack : (rf.acknowledged i reply.firstIndex).InOrder := ⟨hin.1, hin.2⟩
    have hadv := updateCommitIndex_advances hack hidx hup
    exact ⟨hadv.1, hadv.2, hadv.3, hadv.4⟩
  · exact SameCommit.advances ⟨rfl, rfl, rfl⟩ hin
  · exact SameCommit.advances ⟨rfl, rfl, rfl⟩ hin

theorem snapshotReplyHandler_sameCommit (rf : Raft n C D) (i : Fin n)
    (reply : InstallSnapshotReply) : rf.SameCommit (rf.snapshotReplyHandler i reply) := by
  rcases snapshotReplyHandler_cases rf i reply with ⟨-, heq⟩ | ⟨-, -, heq⟩ | ⟨-, -, heq⟩ <;>
    rw [heq] <;> exact ⟨rfl, rfl, rfl⟩

theorem hearLeader_sameCommit {args : AppendEntriesArgs n C} (h : rf.currentTerm ≤ args.term) :
    rf.SameCommit (rf.hearLeader args) := by
  rw [hearLeader_eq h]
  exact ⟨rfl, rfl, rfl⟩

/-- Entries are accepted without harm when the committed part is in the new log. -/
theorem accepted_advances (hin : rf.InOrder) (hidx : rf.snapshotIndex = 0)
    {args : AppendEntriesArgs n C} {k : Nat}
    (hk : k < rf.logs.length)
    (hkept : 0 < rf.commitIndex →
      rf.logs.take (rf.commitIndex.toNat + 1) <+: (rf.accepted args k).logs) :
    rf.Advances (rf.accepted args k) := by
  have hlen : (rf.accepted args k).logs.length = k + 1 + args.entries.length := by
    show (rf.logs.take (k + 1) ++ args.entries).length = _
    rw [List.length_append, List.length_take]
    omega
  have hcom : (rf.accepted args k).commitIndex = if args.leaderCommit > rf.commitIndex
      then min args.leaderCommit (rf.snapshotIndex + k + args.entries.length)
      else rf.commitIndex := rfl
  -- the old `commitIndex` is inside the new log
  have hlast : rf.commitIndex < k + 1 + args.entries.length := by
    by_cases hpos : 0 < rf.commitIndex
    · have := (hkept hpos).length_le
      have hlt := hin.commitIndex_lt
      rw [hlen, List.length_take] at this
      omega
    · omega
  rw [hidx] at hcom
  refine ⟨?_, hkept, ?_, rfl⟩
  · rw [hcom]
    split <;> omega
  · rw [hcom, hlen]
    split <;> omega

end Raft

namespace Cluster

variable {s s' : Cluster n C D} {a : Ledger (Fin n) (LogEntry C)}

/-- **A follower keeps what it has committed.** -/
theorem advances_accept (h : Shows s a)
    {call : Call n (AppendEntriesArgs n C) AppendEntriesReply} (hsent : Sent a call)
    (hin : (s.peers call.dst).InOrder)
    (hle : (s.peers call.dst).currentTerm ≤ call.args.term) {j : Nat}
    (hj : call.args.prevLogIndex = j)
    (hprev : ∃ e, (s.peers call.dst).logs[j]? = some e ∧ e.term = call.args.prevLogTerm)
    (hcut : (((s.peers call.dst).hearLeader call.args).accepted call.args j).logs <+:
        (s.peers call.dst).logs →
      ∀ e ∈ (s.peers call.dst).logs.drop
          (((s.peers call.dst).hearLeader call.args).accepted call.args j).logs.length,
        e.term ≠ call.args.term) :
    (s.peers call.dst).Advances
      (((s.peers call.dst).hearLeader call.args).accepted call.args j) := by
  have hp := h.peers call.dst
  obtain ⟨m, l, k, hl, -, hm, hml, hpre, hk, ⟨e', he', het'⟩, hent, -, -⟩ := hsent
  obtain ⟨e, he, het⟩ := hprev
  obtain rfl : k = j := by
    rw [hk] at hj
    exact Int.ofNat_inj.mp hj
  obtain ⟨hlogs, hcom, happ⟩ := Raft.hearLeader_sameCommit hle
  have hpfol : TermLog.Follows LogEntry.term a.lead (s.peers call.dst).logs := by
    rw [← hp.log]
    exact h.sound.log_follows call.dst
  have hnew : (((s.peers call.dst).hearLeader call.args).accepted call.args k).logs = l := by
    show ((s.peers call.dst).hearLeader call.args).logs.take (k + 1) ++ call.args.entries = l
    rw [hlogs, hent]
    exact hpfol.splice ((h.sound.lead_follows _).of_isPrefix hpre) he he' (het.trans het'.symm)
  rw [hnew] at hcut
  have hkept : 0 < (s.peers call.dst).commitIndex →
      (s.peers call.dst).logs.take ((s.peers call.dst).commitIndex.toNat + 1) <+: l := by
    intro hpos
    exact committed_kept h hl hm hml hpre hle hcut hpos
  have hadv : ((s.peers call.dst).hearLeader call.args).Advances
      (((s.peers call.dst).hearLeader call.args).accepted call.args k) := Raft.accepted_advances
    ⟨by rw [happ, hcom]; exact hin.1, by rw [hlogs, hcom]; exact hin.2⟩
    (by rw [Raft.hearLeader_eq hle]; exact hp.snapshotIndex)
    (by rw [hlogs]; exact (List.getElem?_eq_some_iff.mp he).1)
    (by rw [hlogs, hcom, hnew]; exact hkept)
  obtain ⟨h1, -, h3, h4⟩ := hadv
  refine ⟨by rw [← hcom]; exact h1, ?_, h3, h4.trans happ⟩
  rw [hnew]
  exact hkept

/-- Every step but the taking of entries leaves the committed part of every log in place. -/
theorem advances_step {e : Event n C D} (h : Shows s a) (hin : ∀ p, (s.peers p).InOrder)
    (hok : KeepsLedger s e) (htake : ∀ p spare, e ≠ .applyTake p spare)
    (hs : s.step e = some s') (q : Fin n) : (s.peers q).Advances (s'.peers q) := by
  have hself : ∀ p, (s.peers p).Advances (s.peers p) :=
    fun p => Raft.SameCommit.advances ⟨rfl, rfl, rfl⟩ (hin p)
  have hset : ∀ {p : Fin n} {rf : Raft n C D}, (s.peers p).Advances rf →
      (s.peers q).Advances (Function.update s.peers p rf q) := by
    intro p rf hadv
    exact (Function.forall_update_iff s.peers fun q rf => (s.peers q).Advances rf).mpr
      ⟨hadv, fun q _ => hself q⟩ q
  cases e with
  | canvassVotes p =>
      obtain ⟨rf, args, hfill, rfl⟩ := stepCanvassVotes_eq_some hs
      obtain ⟨rfl, -⟩ := Raft.fillRequestVoteArgs_eq_some hfill
      exact hset (Raft.SameCommit.advances ⟨rfl, rfl, rfl⟩ (hin p))
  | requestVote k =>
      obtain ⟨call, rf, reply, -, hrv, rfl⟩ := stepRequestVote_eq_some hs
      exact hset ((Raft.requestVote_sameCommit hrv).advances (hin _))
  | voteReply k =>
      obtain ⟨call, cv, reply, rf, votes, -, hh, rfl⟩ := stepVoteReply_eq_some hs
      exact hset ((Raft.voteReplyHandler_sameCommit hh).advances (hin _))
  | start p command =>
      obtain rfl := Option.some.inj hs
      exact hset (Raft.start_advances (hin p) command)
  | consistencyCheck p i =>
      obtain ⟨out, -, -, rfl⟩ := stepConsistencyCheck_eq_some hs
      rw [send_peers]
      exact hself q
  | appendEntries k =>
      obtain ⟨call, rf, reply, hat, hae, rfl⟩ := stepAppendEntries_eq_some hs
      have hsent := h.appends call (List.mem_of_getElem? (requestAt_eq_some hat).1)
      have hidx := (h.peers call.dst).snapshotIndex
      refine hset ?_
      rcases Raft.appendEntries_cases hae with ⟨-, rfl, -⟩ | ⟨hle, -, rfl, -⟩ |
        ⟨hle, j, hj, hprev, rfl, hr, -⟩ | ⟨hle, -, rfl, -⟩
      · exact hself _
      · exact (Raft.hearLeader_sameCommit hle).advances (hin _)
      · rw [hidx, Int.zero_add] at hj
        exact advances_accept h hsent (hin _) hle hj hprev fun hpre x hx hterm =>
          hok.2.2.2 ⟨call, hat, _, hae, hr, hpre, x, hx, hterm⟩
      · have hsame := Raft.hearLeader_sameCommit hle
        exact Raft.SameCommit.advances ⟨hsame.1, hsame.2.1, hsame.2.2⟩ (hin _)
  | appendReply k =>
      obtain ⟨call, reply, rf, out, -, hh, rfl⟩ := stepAppendReply_eq_some hs
      rw [send_peers]
      exact hset (Raft.consistencyCheckReplyHandler_advances (hin _)
        (h.peers call.src).snapshotIndex hh)
  | installSnapshot k =>
      obtain ⟨call, rf, reply, msg, hat, his, rfl⟩ := stepInstallSnapshot_eq_some hs
      have hzero := h.snapshots call (List.mem_of_getElem? (requestAt_eq_some hat).1)
      rcases (Raft.installSnapshot_cases his).2 with ⟨-, rfl, -⟩ | ⟨-, hlt, -⟩
      · exact hset (hself _)
      · rw [hzero, (h.peers call.dst).snapshotIndex] at hlt
        omega
  | snapshotReply k =>
      obtain ⟨call, reply, -, rfl⟩ := stepSnapshotReply_eq_some hs
      exact hset ((Raft.snapshotReplyHandler_sameCommit _ _ _).advances (hin _))
  | newSnapShot p data index => cases hok.2.1
  | applyTake p spare => exact absurd rfl (htake p spare)
  | applySend p =>
      obtain ⟨msg, rest, -, rfl⟩ := stepApplySend_eq_some hs
      exact hself q
  | crash p => cases hok.1.1.1

/-! ## Delivery -/

/-- Every peer has its indices in order, and what it has sent on `applyCh` or is about to send is
what the apply daemon has taken of its log. -/
structure Orderly (s : Cluster n C D) : Prop where
  inOrder : ∀ p, (s.peers p).InOrder
  delivery : ∀ p, s.applied p ++ s.pending p = Raft.applyMsgs 1 (s.peers p).taken

theorem orderly_init : Orderly (init : Cluster n C D) where
  inOrder := fun _ => ⟨Int.le_refl _, Int.zero_lt_one⟩
  delivery := fun _ => rfl

/-- Every step but the taking of entries leaves the deliveries of every peer alone, apart from
sending one. -/
theorem deliveries_step {e : Event n C D} (h : Shows s a)
    (htake : ∀ p spare, e ≠ .applyTake p spare) (hcrash : e.isCrash = false)
    (hs : s.step e = some s') (q : Fin n) :
    s'.applied q ++ s'.pending q = s.applied q ++ s.pending q := by
  cases e with
  | canvassVotes p =>
      obtain ⟨rf, args, -, rfl⟩ := stepCanvassVotes_eq_some hs
      rfl
  | requestVote k =>
      obtain ⟨call, rf, reply, -, -, rfl⟩ := stepRequestVote_eq_some hs
      rfl
  | voteReply k =>
      obtain ⟨call, cv, reply, rf, votes, -, -, rfl⟩ := stepVoteReply_eq_some hs
      rfl
  | start p command =>
      obtain rfl := Option.some.inj hs
      rfl
  | consistencyCheck p i =>
      obtain ⟨out, -, -, rfl⟩ := stepConsistencyCheck_eq_some hs
      rw [send_applied, send_pending]
  | appendEntries k =>
      obtain ⟨call, rf, reply, -, -, rfl⟩ := stepAppendEntries_eq_some hs
      rfl
  | appendReply k =>
      obtain ⟨call, reply, rf, out, -, -, rfl⟩ := stepAppendReply_eq_some hs
      rw [send_applied, send_pending]
      rfl
  | installSnapshot k =>
      obtain ⟨call, rf, reply, msg, hat, his, rfl⟩ := stepInstallSnapshot_eq_some hs
      have hzero := h.snapshots call (List.mem_of_getElem? (requestAt_eq_some hat).1)
      rcases (Raft.installSnapshot_cases his).2 with ⟨-, -, rfl⟩ | ⟨-, hlt, -⟩
      · show Function.update s.applied call.dst (s.applied call.dst ++ []) q ++ s.pending q = _
        rw [List.append_nil, Function.update_eq_self]
      · rw [hzero, (h.peers call.dst).snapshotIndex] at hlt
        omega
  | snapshotReply k =>
      obtain ⟨call, reply, -, rfl⟩ := stepSnapshotReply_eq_some hs
      rfl
  | newSnapShot p data index =>
      obtain ⟨rf, -, rfl⟩ := stepNewSnapShot_eq_some hs
      rfl
  | applyTake p spare => exact absurd rfl (htake p spare)
  | applySend p =>
      obtain ⟨msg, rest, hpend, rfl⟩ := stepApplySend_eq_some hs
      show Function.update s.applied p (s.applied p ++ [msg]) q ++
        Function.update s.pending p rest q = _
      by_cases hq : q = p
      · subst hq
        rw [Function.update_self, Function.update_self, hpend, List.append_assoc,
          List.singleton_append]
      · rw [Function.update_of_ne hq, Function.update_of_ne hq]
  | crash p => cases hcrash

theorem applyMsgs_append (first : Int) (l m : List (LogEntry C)) :
    (Raft.applyMsgs first (l ++ m) : List (ApplyMsg C D)) =
      Raft.applyMsgs first l ++ Raft.applyMsgs (first + l.length) m := by
  induction l generalizing first with
  | nil => simp [Raft.applyMsgs]
  | cons x l ih =>
      rw [List.cons_append, Raft.applyMsgs, Raft.applyMsgs, ih, List.cons_append,
        List.length_cons]
      congr 3
      push_cast
      omega

theorem getElem?_applyMsgs (first : Int) (l : List (LogEntry C)) (k : Nat) :
    (Raft.applyMsgs first l : List (ApplyMsg C D))[k]? = l[k]?.map (fun e =>
      { commandValid := true, command := e.command, commandIndex := first + k,
        useSnapshot := false, snapshot := none }) := by
  induction l generalizing first k with
  | nil => rfl
  | cons e l ih =>
      cases k with
      | zero => simp [Raft.applyMsgs]
      | succ k =>
          rw [Raft.applyMsgs, List.getElem?_cons_succ, List.getElem?_cons_succ, ih]
          congr 2
          funext e
          congr 1
          push_cast
          omega

theorem getElem?_applyMsgs_eq_some {first : Int} {l : List (LogEntry C)} {k : Nat}
    {msg : ApplyMsg C D} (h : (Raft.applyMsgs first l : List (ApplyMsg C D))[k]? = some msg) :
    ∃ e, l[k]? = some e ∧ msg.commandIndex = first + k ∧ msg.command = e.command := by
  rw [getElem?_applyMsgs, Option.map_eq_some_iff] at h
  obtain ⟨e, he, rfl⟩ := h
  exact ⟨e, he, rfl, rfl⟩

/-- The apply daemon takes the entries behind those it has taken, up to `commitIndex`. -/
theorem taken_applyLogEntries {rf rf' : Raft n C D} {spare : List (LogEntry C)}
    {msgs : List (ApplyMsg C D)} (hin : rf.InOrder) (hpos : 0 ≤ rf.lastApplied)
    (hidx : rf.snapshotIndex = 0) (h : rf.applyLogEntries spare = some (rf', msgs)) :
    rf' = { rf with lastApplied := rf.commitIndex } ∧
      Raft.applyMsgs 1 rf'.taken = Raft.applyMsgs 1 rf.taken ++ msgs := by
  have hle := hin.lastApplied_le
  have hlt := hin.commitIndex_lt
  rcases Raft.applyLogEntries_cases h with ⟨hgt, -, -⟩ | ⟨-, rfl, logs, hlogs, rfl⟩
  · omega
  · refine ⟨rfl, ?_⟩
    rw [hidx, Int.sub_zero, Int.sub_zero,
      Slice.between_of_le (by omega) (by omega) (by omega)] at hlogs
    obtain rfl := Option.some.inj hlogs
    have hlen : rf.taken.length = rf.lastApplied.toNat := by
      rw [Raft.taken, List.length_drop, List.length_take]
      omega
    have hsplit : ({ rf with lastApplied := rf.commitIndex } : Raft n C D).taken = rf.taken ++
        (rf.logs.take (rf.commitIndex + 1).toNat).drop (rf.lastApplied + 1).toNat := by
      rw [Raft.taken, Raft.taken,
        show (rf.commitIndex + 1).toNat = rf.commitIndex.toNat + 1 by omega,
        show (rf.lastApplied + 1).toNat = rf.lastApplied.toNat + 1 by omega]
      have hcut := List.take_append_drop (rf.lastApplied.toNat + 1)
        (rf.logs.take (rf.commitIndex.toNat + 1))
      rw [List.take_take, Nat.min_eq_left (by omega)] at hcut
      rw [← List.drop_append_of_le_length, hcut]
      rw [List.length_take]
      omega
    rw [hsplit, applyMsgs_append, hlen]
    congr 2
    omega

theorem orderly_step {e : Event n C D} (h : Shows s a) (ho : Orderly s) (hok : KeepsLedger s e)
    (hs : s.step e = some s') : Orderly s' := by
  by_cases htake : ∃ p spare, e = .applyTake p spare
  · obtain ⟨p, spare, rfl⟩ := htake
    obtain ⟨rf, msgs, hpend, htake, rfl⟩ := stepApplyTake_eq_some hs
    have hp := h.peers p
    obtain ⟨hrf, hmsgs⟩ :=
      taken_applyLogEntries (ho.inOrder p) hp.lastApplied hp.snapshotIndex htake
    constructor
    · refine (Function.forall_update_iff s.peers fun _ rf => rf.InOrder).mpr
        ⟨?_, fun q _ => ho.inOrder q⟩
      rw [hrf]
      exact ⟨Int.le_refl _, (ho.inOrder p).commitIndex_lt⟩
    · intro q
      show s.applied q ++ Function.update s.pending p msgs q =
        Raft.applyMsgs 1 (Function.update s.peers p rf q).taken
      by_cases hq : q = p
      · subst hq
        rw [Function.update_self, Function.update_self, hmsgs, ← ho.delivery q, hpend,
          List.append_nil]
      · rw [Function.update_of_ne hq, Function.update_of_ne hq]
        exact ho.delivery q
  · have htake : ∀ p spare, e ≠ .applyTake p spare := fun p spare hp => htake ⟨p, spare, hp⟩
    have hadv := advances_step h ho.inOrder hok htake hs
    refine ⟨fun q => (hadv q).inOrder (ho.inOrder q), fun q => ?_⟩
    rw [deliveries_step h htake hok.1.1.1 hs q, (hadv q).taken_eq (ho.inOrder q)]
    exact ho.delivery q

/-- What is committed stays committed, in every step. -/
theorem committed_step {e : Event n C D} (h : Shows s a) (ho : Orderly s) (hok : KeepsLedger s e)
    (hs : s.step e = some s') (q : Fin n) :
    (s.peers q).committed <+: (s'.peers q).committed := by
  by_cases htake : ∃ p spare, e = .applyTake p spare
  · obtain ⟨p, spare, rfl⟩ := htake
    obtain ⟨rf, msgs, -, htake, rfl⟩ := stepApplyTake_eq_some hs
    have hsame : (s.peers p).committed <+: rf.committed := by
      rw [(taken_applyLogEntries (ho.inOrder p) (h.peers p).lastApplied
        (h.peers p).snapshotIndex htake).1]
      exact List.prefix_refl _
    exact (Function.forall_update_iff s.peers fun q rf =>
      (s.peers q).committed <+: rf.committed).mpr ⟨hsame, fun q _ => List.prefix_refl _⟩ q
  · have hadv := advances_step h ho.inOrder hok (fun p spare hp => htake ⟨p, spare, hp⟩) hs q
    exact hadv.committed_isPrefix (ho.inOrder q)

/-! ## Over whole runs -/

theorem orderly_run (h : Shows s a) (ho : Orderly s) {es : List (Event n C D)}
    (hok : Machine.Along step KeepsLedger s es) (hr : Machine.run step s es = some s') :
    ∃ a', a.Extends a' ∧ Shows s' a' ∧ Orderly s' ∧
      ∀ q, (s.peers q).committed <+: (s'.peers q).committed := by
  refine Machine.run_induction (I := fun t => ∃ b, a.Extends b ∧ Shows t b ∧ Orderly t ∧
    ∀ q, (s.peers q).committed <+: (t.peers q).committed) ?_
    ⟨a, .refl a, h, ho, fun q => List.prefix_refl _⟩ hok hr
  rintro t e t' ⟨b, hext, hb, hot, hcom⟩ hk ht
  obtain ⟨p, b', hm, hb'⟩ := shows_step hb hk ht
  exact ⟨b', hext.trans (hb.sound.moves hm).2.ext, hb', orderly_step hb hot hk ht,
    fun q => (hcom q).trans (committed_step hb hot hk ht q)⟩

/-- Two moments of one run, with the ledger shown at the first and at the second. -/
theorem orderly_moments {es fs : List (Event n C D)}
    (hok : Machine.Along step KeepsLedger init (es ++ fs)) (hs : runFrom es = some s)
    (hs' : Machine.run step s fs = some s') :
    ∃ a a', a.Extends a' ∧ Shows s a ∧ Orderly s ∧ Shows s' a' ∧ Orderly s' ∧
      ∀ q, (s.peers q).committed <+: (s'.peers q).committed := by
  obtain ⟨hbefore, hafter⟩ := Machine.along_append hok hs
  obtain ⟨a, -, h, ho, -⟩ := orderly_run shows_init orderly_init hbefore hs
  obtain ⟨a', hext, h', ho', hcom⟩ := orderly_run h ho hafter hs'
  exact ⟨a, a', hext, h, ho, h', ho', hcom⟩

/-- **Leader completeness.** What a peer has committed at some moment is in the log of every peer
that leads, at that moment or later, a term at or above the peer's term. -/
theorem leader_has_committed {es fs : List (Event n C D)}
    (hok : Machine.Along step KeepsLedger init (es ++ fs)) (hs : runFrom es = some s)
    (hs' : Machine.run step s fs = some s') {p q : Fin n} (hl : (s'.peers q).state = .leader)
    (hle : (s.peers p).currentTerm ≤ (s'.peers q).currentTerm) :
    (s.peers p).committed <+: (s'.peers q).logs.drop 1 := by
  obtain ⟨a, a', hext, h, -, h', -, -⟩ := orderly_moments hok hs hs'
  have hcov : CoveredIn a' (s.peers p).currentTerm (s.peers p).commitIndex (s.peers p).logs :=
    (h.peers p).commit.extend hext (Nat.le_refl _)
  by_cases hpos : 0 < (s.peers p).commitIndex
  · have hpre := hcov.prefix_lead h'.sound hpos ((h'.peers q).leader hl) hle
    rw [lead_eq_logs h' hl] at hpre
    exact hpre.drop 1
  · rw [Raft.committed_eq_nil (by omega)]
    exact List.nil_prefix

/-- After `oneCommand`, peer `1` takes over in term 2. -/
def successor : List (Event 3 Nat Unit) := [.canvassVotes 1, .requestVote 2, .voteReply 2]

theorem leader_has_committed_successor :
    Machine.Along step KeepsLedger init (oneCommand ++ successor) ∧
      ∃ s s', runFrom oneCommand = some s ∧ Machine.run step s successor = some s' ∧
        (s.peers 0).committed ≠ [] ∧ (s.peers 0).committed <+: (s'.peers 1).logs.drop 1 := by
  have hok : Machine.Along step KeepsLedger init (oneCommand ++ successor) := by decide
  have hrun : (runFrom oneCommand).any (fun s => (s.peers 0).committed ≠ [] ∧
      (Machine.run step s successor).any (fun s' => (s'.peers 1).state = .leader ∧
        (s.peers 0).currentTerm ≤ (s'.peers 1).currentTerm) = true) = true := by decide
  obtain ⟨s, hs, hex⟩ := (Option.any_eq_true _ _).mp hrun
  obtain ⟨hne, hex'⟩ := of_decide_eq_true hex
  obtain ⟨s', hs', hlead⟩ := (Option.any_eq_true _ _).mp hex'
  obtain ⟨hl, hle⟩ := of_decide_eq_true hlead
  exact ⟨hok, s, s', hs, hs', hne, leader_has_committed hok hs hs' hl hle⟩

/-- Two prefixes covered by one ledger are prefixes of one log. -/
theorem comparable_of_covered (hs : a.Sound LogEntry.term .placeholder) {t t' : Nat} {i i' : Int}
    {l l' : List (LogEntry C)} (h : CoveredIn a t i l) (h' : CoveredIn a t' i' l') (hpos : 0 < i)
    (hpos' : 0 < i') :
    ∃ m, l.take (i.toNat + 1) <+: m ∧ l'.take (i'.toNat + 1) <+: m := by
  rcases h with hneg | ⟨u, k, hcom, hu, hk, hpre⟩
  · omega
  rcases h' with hneg | ⟨u', k', hcom', hu', hk', hpre'⟩
  · omega
  -- a committed index above zero is one of a term that has a leader
  have hled : ∀ {u k : Nat}, a.Committed LogEntry.term u k → 0 < k → ∃ c, a.leader u = some c := by
    intro u k hcom hkpos
    cases hl : a.leader u with
    | some c => exact ⟨c, rfl⟩
    | none =>
        obtain ⟨e, he, -⟩ := hcom.1
        have hlt := (List.getElem?_eq_some_iff.mp he).1
        rw [hs.unled u hl] at hlt
        split at hlt <;> simp only [List.length_singleton, List.length_nil] at hlt <;> omega
  rcases Nat.le_total u u' with hle | hle
  · obtain ⟨c, hc⟩ := hled hcom' (by omega)
    exact ⟨a.lead u', CoveredIn.prefix_lead hs (Or.inr ⟨u, k, hcom, Nat.le_refl u, hk, hpre⟩)
      hpos hc hle, hpre'.2⟩
  · obtain ⟨c, hc⟩ := hled hcom (by omega)
    exact ⟨a.lead u, hpre.2, CoveredIn.prefix_lead hs
      (Or.inr ⟨u', k', hcom', Nat.le_refl u', hk', hpre'⟩) hpos' hc hle⟩

theorem committed_comparable (hs : a.Sound LogEntry.term .placeholder) {t t' : Nat}
    {rf rf' : Raft n C D} (h : CoveredIn a t rf.commitIndex rf.logs)
    (h' : CoveredIn a t' rf'.commitIndex rf'.logs) :
    rf.committed <+: rf'.committed ∨ rf'.committed <+: rf.committed := by
  by_cases hpos : 0 < rf.commitIndex
  · by_cases hpos' : 0 < rf'.commitIndex
    · obtain ⟨m, hm, hm'⟩ := comparable_of_covered hs h h' hpos hpos'
      exact List.prefix_or_prefix_of_prefix (hm.drop 1) (hm'.drop 1)
    · have hnil : rf'.committed = [] := Raft.committed_eq_nil (by omega)
      rw [hnil]
      exact Or.inr List.nil_prefix
  · have hnil : rf.committed = [] := Raft.committed_eq_nil (by omega)
    rw [hnil]
    exact Or.inl List.nil_prefix

/-- **Committed prefixes grow and agree.** What a peer has committed it never loses, and of what
two peers have committed, at the same or at different moments, one is a prefix of the other. -/
theorem committed_prefixes_agree {es fs : List (Event n C D)}
    (hok : Machine.Along step KeepsLedger init (es ++ fs)) (hs : runFrom es = some s)
    (hs' : Machine.run step s fs = some s') (p q : Fin n) :
    (s.peers p).committed <+: (s'.peers p).committed ∧
      ((s.peers p).committed <+: (s'.peers q).committed ∨
        (s'.peers q).committed <+: (s.peers p).committed) := by
  obtain ⟨a, a', hext, h, -, h', -, hcom⟩ := orderly_moments hok hs hs'
  exact ⟨hcom p, committed_comparable h'.sound ((h.peers p).commit.extend hext (Nat.le_refl _))
    (h'.peers q).commit⟩

theorem committed_prefixes_agree_successor :
    ∃ s s', runFrom oneCommand = some s ∧ Machine.run step s successor = some s' ∧
      (s.peers 1).committed ≠ [] ∧ (s.peers 1).committed <+: (s'.peers 1).committed := by
  have hok : Machine.Along step KeepsLedger init (oneCommand ++ successor) := by decide
  have hrun : (runFrom oneCommand).any (fun s => (s.peers 1).committed ≠ [] ∧
      (Machine.run step s successor).isSome = true) = true := by decide
  obtain ⟨s, hs, hex⟩ := (Option.any_eq_true _ _).mp hrun
  obtain ⟨hne, hsome⟩ := of_decide_eq_true hex
  obtain ⟨s', hs'⟩ := Option.isSome_iff_exists.mp hsome
  exact ⟨s, s', hs, hs', hne, (committed_prefixes_agree hok hs hs' 1 1).1⟩

theorem applyMsgs_isPrefix {first : Int} {l m : List (LogEntry C)} (h : l <+: m) :
    (Raft.applyMsgs first l : List (ApplyMsg C D)) <+: Raft.applyMsgs first m := by
  obtain ⟨r, rfl⟩ := h
  rw [applyMsgs_append]
  exact List.prefix_append _ _

/-- What a peer has sent is about entries it has committed. -/
theorem Orderly.applied_isPrefix (ho : Orderly s) (p : Fin n) :
    s.applied p <+: Raft.applyMsgs 1 (s.peers p).committed := by
  have hall : s.applied p <+: Raft.applyMsgs 1 (s.peers p).taken := by
    rw [← ho.delivery p]
    exact List.prefix_append _ _
  exact hall.trans (applyMsgs_isPrefix (ho.inOrder p).taken_isPrefix)

/-- **One sequence of deliveries.** On every run on which the cluster keeps a ledger: the messages
that a peer has sent on `applyCh`, and those its daemon has taken and not sent yet, are the entries
`1 … lastApplied` of its own log, each once and in order, and `lastApplied`, `commitIndex` and the
last index are in this order. Of what two peers have sent, at the same or at different moments, one
is a prefix of the other. -/
theorem deliveries_form_one_sequence {es fs : List (Event n C D)}
    (hok : Machine.Along step KeepsLedger init (es ++ fs)) (hs : runFrom es = some s)
    (hs' : Machine.run step s fs = some s') (p q : Fin n) :
    (s.applied p ++ s.pending p =
        Raft.applyMsgs 1 (((s.peers p).logs.take ((s.peers p).lastApplied.toNat + 1)).drop 1) ∧
      0 ≤ (s.peers p).lastApplied ∧ (s.peers p).lastApplied ≤ (s.peers p).commitIndex ∧
      (s.peers p).commitIndex < (s.peers p).logs.length) ∧
    (s.applied p <+: s'.applied q ∨ s'.applied q <+: s.applied p) := by
  obtain ⟨a, a', hext, h, ho, h', ho', -⟩ := orderly_moments hok hs hs'
  refine ⟨⟨ho.delivery p, (h.peers p).lastApplied, (ho.inOrder p).lastApplied_le,
    (ho.inOrder p).commitIndex_lt⟩, ?_⟩
  -- both are prefixes of the messages for the longer committed prefix
  rcases committed_comparable h'.sound ((h.peers p).commit.extend hext (Nat.le_refl _))
    (h'.peers q).commit with hle | hle
  · exact List.prefix_or_prefix_of_prefix
      ((ho.applied_isPrefix p).trans (applyMsgs_isPrefix hle)) (ho'.applied_isPrefix q)
  · exact List.prefix_or_prefix_of_prefix (ho.applied_isPrefix p)
      ((ho'.applied_isPrefix q).trans (applyMsgs_isPrefix hle))

theorem deliveries_form_one_sequence_oneCommand :
    ∃ s, runFrom oneCommand = some s ∧ (s.applied 0).length = 1 ∧
      s.applied 0 ++ s.pending 0 =
        Raft.applyMsgs 1 (((s.peers 0).logs.take ((s.peers 0).lastApplied.toNat + 1)).drop 1) := by
  have hok : Machine.Along step KeepsLedger init (oneCommand ++ []) := by decide
  have hrun : (runFrom oneCommand).any (fun s => (s.applied 0).length = 1) = true := by decide
  obtain ⟨s, hs, hlen⟩ := (Option.any_eq_true _ _).mp hrun
  exact ⟨s, hs, of_decide_eq_true hlen,
    (deliveries_form_one_sequence hok hs (Machine.run_nil s) 0 1).1.1⟩

end Cluster

end RaftLab
