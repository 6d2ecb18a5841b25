import RaftLab.Cluster.Steps

set_option autoImplicit false

/-! # Terms, votes and roles

The part of a peer that elections are about is its *seat*: role, current term and vote. This
file says once what every step of the cluster does to the seats, the elections, the vote
calls and the list of wins (`step_voting`); election safety and the law of one vote per term
are derived from that description alone.

It also names the branches of the code on which those laws fail:

* `StaleDepose` — a candidate takes over the term of a reply to an *older* election of its
  own, although its current term is no smaller. Its vote in that term is forgotten.
* `StaleWin` — a candidate counts the last missing vote of an election whose term is no
  longer its current term, and becomes leader of the current one.
* `VoteReset` — a leader that learns of a newer term from an `AppendEntries` reply steps
  down and forgets its vote without adopting the term.
-/

namespace RaftLab

/-- Role, current term and vote of a peer. -/
structure Seat (n : Nat) where
  me : Fin n
  state : Role
  currentTerm : Nat
  votedFor : Option (Fin n)
  deriving DecidableEq, Repr

def Raft.seat {n : Nat} {C D : Type} (rf : Raft n C D) : Seat n :=
  { me := rf.me, state := rf.state, currentTerm := rf.currentTerm, votedFor := rf.votedFor }

namespace Cluster

variable {n : Nat} {C D : Type} {s s' : Cluster n C D}

def seat (s : Cluster n C D) (p : Fin n) : Seat n := (s.peers p).seat

theorem seat_update (f : Fin n → Raft n C D) (p : Fin n) (rf : Raft n C D) :
    (fun q => (Function.update f p rf q).seat)
      = Function.update (fun q => (f q).seat) p rf.seat := by
  funext q
  by_cases h : q = p
  · subst h
    rw [Function.update_self, Function.update_self]
  · rw [Function.update_of_ne h, Function.update_of_ne h]

/-- A step that sets one peer to `rf` without touching its seat leaves all seats alone. -/
theorem seat_update_of_eq {f : Fin n → Raft n C D} {p : Fin n} {rf : Raft n C D}
    (h : rf.seat = (f p).seat) :
    (fun q => (Function.update f p rf q).seat) = fun q => (f q).seat := by
  rw [seat_update, h]
  exact Function.update_eq_self p (fun q => (f q).seat)

/-! ## The branches on which the laws of voting fail -/

/-- The vote reply that event `e` hands to its candidate. -/
def voteReplyOf (s : Cluster n C D) :
    Event n C D → Option (VoteCall n × Canvass n × RequestVoteReply)
  | .voteReply k => s.voteReplyAt k
  | _ => none

/-- The `AppendEntries` reply that event `e` hands to its caller. -/
def appendReplyOf (s : Cluster n C D) :
    Event n C D → Option (Call n (AppendEntriesArgs n C) AppendEntriesReply × AppendEntriesReply)
  | .appendReply k => s.replyAt s.appendCalls k
  | _ => none

/-- A vote reply takes a candidate to a term that is not above its own. -/
def StaleDepose (s : Cluster n C D) (e : Event n C D) : Prop :=
  ∃ x ∈ s.voteReplyOf e, (s.peers x.2.1.me).state = .candidate ∧
    x.2.1.voteArgs.term < x.2.2.currentTerm ∧
    x.2.2.currentTerm ≤ (s.peers x.2.1.me).currentTerm

/-- A vote reply makes a candidate leader of a term it did not campaign in. -/
def StaleWin (s : Cluster n C D) (e : Event n C D) : Prop :=
  ∃ x ∈ s.voteReplyOf e, (s.peers x.2.1.me).state = .candidate ∧
    x.2.2.currentTerm ≤ x.2.1.voteArgs.term ∧ x.2.2.voteGranted = true ∧
    x.2.1.votes = n / 2 ∧ x.2.1.voteArgs.term ≠ (s.peers x.2.1.me).currentTerm

/-- An `AppendEntries` reply makes a leader forget its vote in the current term. -/
def VoteReset (s : Cluster n C D) (e : Event n C D) : Prop :=
  ∃ x ∈ s.appendReplyOf e, (s.peers x.1.src).state = .leader ∧ x.2.success = false ∧
    (s.peers x.1.src).currentTerm < x.2.currentTerm

instance (s : Cluster n C D) (e : Event n C D) : Decidable (StaleDepose s e) :=
  inferInstanceAs (Decidable (∃ x ∈ s.voteReplyOf e, _))

instance (s : Cluster n C D) (e : Event n C D) : Decidable (StaleWin s e) :=
  inferInstanceAs (Decidable (∃ x ∈ s.voteReplyOf e, _))

instance (s : Cluster n C D) (e : Event n C D) : Decidable (VoteReset s e) :=
  inferInstanceAs (Decidable (∃ x ∈ s.appendReplyOf e, _))

/-! ## What a step does to the seats -/

/-- How a `RequestVote` request moves the seat of its receiver. -/
inductive Ballot (st : Seat n) (args : RequestVoteArgs n) : Seat n → Bool → Prop where
  | stale (h : args.term < st.currentTerm) : Ballot st args st false
  | grant (h : st.currentTerm < args.term ∨
        st.currentTerm = args.term ∧ st.votedFor = none) :
      Ballot st args { st with
        state := .follower, currentTerm := args.term,
        votedFor := some args.candidateID } true
  | adopt (h : st.currentTerm < args.term) :
      Ballot st args { st with
        state := .follower, currentTerm := args.term, votedFor := none } false
  | refuse (h : st.currentTerm = args.term) : Ballot st args st false

/-- How a vote reply moves the seat and the vote count of its candidate. -/
inductive Tally (st : Seat n) (args : RequestVoteArgs n) (votes : Nat)
    (reply : RequestVoteReply) : Seat n → Nat → Prop where
  | ignore : Tally st args votes reply st votes
  | depose (hc : st.state = .candidate) (h : args.term < reply.currentTerm) :
      Tally st args votes reply
        { st with state := .follower, currentTerm := reply.currentTerm, votedFor := none }
        votes
  | win (hc : st.state = .candidate) (hle : reply.currentTerm ≤ args.term)
      (hg : reply.voteGranted = true) (hv : votes = n / 2) :
      Tally st args votes reply { st with state := .leader } votes
  | count (hc : st.state = .candidate) (hg : reply.voteGranted = true) :
      Tally st args votes reply st (votes + 1)

/-- What a step that is not a crash does to seats, elections, vote calls and wins. -/
inductive VotingStep (s s' : Cluster n C D) : Event n C D → Prop where
  | quiet {e : Event n C D} (hseat : s'.seat = s.seat) (hcv : s'.canvasses = s.canvasses)
      (hvc : s'.voteCalls = s.voteCalls) (hw : s'.wins = s.wins) : VotingStep s s' e
  | campaign (p : Fin n) (args : RequestVoteArgs n)
      (ht : args.term = (s.seat p).currentTerm + 1) (hid : args.candidateID = (s.seat p).me)
      (hseat : s'.seat = Function.update s.seat p { s.seat p with
        state := .candidate, currentTerm := args.term, votedFor := some (s.seat p).me })
      (hcv : s'.canvasses = s.canvasses ++
        [{ me := p, epoch := s.epoch p, voteArgs := args, votes := 1 }])
      (hvc : s'.voteCalls = s.voteCalls ++ voteCallsOf s.canvasses.length p args)
      (hw : s'.wins = s.wins) : VotingStep s s' (.canvassVotes p)
  | answer (k : Nat) (call : VoteCall n) (reply : RequestVoteReply)
      (st : Seat n) (hat : s.voteRequestAt k = some call)
      (hst : Ballot (s.seat call.dst) call.args st reply.voteGranted)
      (hseat : s'.seat = Function.update s.seat call.dst st)
      (hcv : s'.canvasses = s.canvasses)
      (hvc : s'.voteCalls = s.voteCalls.set k { call with status := .replied reply })
      (hw : s'.wins = s.wins) : VotingStep s s' (.requestVote k)
  | tally (k : Nat) (call : VoteCall n) (cv : Canvass n) (reply : RequestVoteReply)
      (st : Seat n) (votes : Nat) (hat : s.voteReplyAt k = some (call, cv, reply))
      (hst : Tally (s.seat cv.me) cv.voteArgs cv.votes reply st votes)
      (hseat : s'.seat = Function.update s.seat cv.me st)
      (hcv : s'.canvasses = s.canvasses.set call.canvass { cv with votes := votes })
      (hvc : s'.voteCalls = s.voteCalls.set k { call with status := .done reply })
      (hw : s'.wins = if (s.seat cv.me).state ≠ .leader ∧ st.state = .leader
        then s.wins ++ [(cv.me, st.currentTerm)] else s.wins) :
      VotingStep s s' (.voteReply k)
  | hear (k : Nat) (p l : Fin n) (t : Nat) (hle : (s.seat p).currentTerm ≤ t)
      (hseat : s'.seat = Function.update s.seat p { s.seat p with
        state := if (s.seat p).state = .leader then .follower else (s.seat p).state
        currentTerm := t
        votedFor := some l })
      (hcv : s'.canvasses = s.canvasses) (hvc : s'.voteCalls = s.voteCalls)
      (hw : s'.wins = s.wins) : VotingStep s s' (.appendEntries k)
  | reset (k : Nat) (p : Fin n) (hbad : VoteReset s (.appendReply k))
      (hseat : s'.seat = Function.update s.seat p { s.seat p with
        state := .follower, votedFor := none })
      (hcv : s'.canvasses = s.canvasses) (hvc : s'.voteCalls = s.voteCalls)
      (hw : s'.wins = s.wins) : VotingStep s s' (.appendReply k)
  | stepDown (k : Nat) (p : Fin n) (t : Nat) (hlt : (s.seat p).currentTerm < t)
      (hseat : s'.seat = Function.update s.seat p { s.seat p with
        state := .follower, currentTerm := t, votedFor := none })
      (hcv : s'.canvasses = s.canvasses) (hvc : s'.voteCalls = s.voteCalls)
      (hw : s'.wins = s.wins) : VotingStep s s' (.snapshotReply k)

theorem requestVote_ballot {rf rf' : Raft n C D} {args : RequestVoteArgs n}
    {reply : RequestVoteReply} (h : rf.requestVote args = some (rf', reply)) :
    Ballot rf.seat args rf'.seat reply.voteGranted := by
  rcases Raft.requestVote_cases h with ⟨hlt, rfl, rfl⟩ | ⟨hle, hopen, -, rfl, rfl⟩ |
    ⟨hle, rfl, rfl⟩
  · exact Ballot.stale hlt
  · rcases Nat.lt_or_eq_of_le hle with hlt | heq
    · rw [Raft.adoptTerm_of_lt hlt]
      exact Ballot.grant (Or.inl hlt)
    · rw [Raft.adoptTerm_of_le (Nat.le_of_eq heq.symm)] at hopen ⊢
      have hb : Ballot rf.seat args { rf.seat with
          state := .follower, currentTerm := args.term,
          votedFor := some args.candidateID } true := Ballot.grant (Or.inr ⟨heq, hopen⟩)
      rw [← heq] at hb
      exact hb
  · rcases Nat.lt_or_eq_of_le hle with hlt | heq
    · rw [Raft.adoptTerm_of_lt hlt]
      exact Ballot.adopt hlt
    · rw [Raft.adoptTerm_of_le (Nat.le_of_eq heq.symm)]
      exact Ballot.refuse heq

theorem voteReplyHandler_tally (rf : Raft n C D) (args : RequestVoteArgs n) (votes : Nat)
    (reply : RequestVoteReply) :
    Tally rf.seat args votes reply (rf.voteReplyHandler args votes reply).1.seat
      (rf.voteReplyHandler args votes reply).2 := by
  rcases rf.voteReplyHandler_cases args votes reply with h | ⟨hc, hlt, h⟩ |
    ⟨hc, hle, hg, hv, h⟩ | ⟨hc, hg, h⟩ <;> rw [h]
  · exact Tally.ignore
  · exact Tally.depose hc hlt
  · exact Tally.win hc hle hg hv
  · exact Tally.count hc hg

/-- **What a step does to seats, elections, vote calls and wins.** -/
theorem step_voting {e : Event n C D} (hcrash : e.isCrash = false)
    (h : s.step e = some s') : VotingStep s s' e := by
  cases e with
  | canvassVotes p =>
      obtain ⟨rf, args, hfill, rfl⟩ := stepCanvassVotes_eq_some h
      obtain ⟨rfl, ht, hid, -⟩ := Raft.fillRequestVoteArgs_eq_some hfill
      refine .campaign p args ht hid ?_ rfl rfl rfl
      rw [ht]
      exact seat_update s.peers p _
  | requestVote k =>
      obtain ⟨call, rf, reply, hat, hrv, rfl⟩ := stepRequestVote_eq_some h
      exact .answer k call reply rf.seat hat (requestVote_ballot hrv)
        (seat_update s.peers _ _) rfl rfl rfl
  | voteReply k =>
      obtain ⟨call, cv, reply, rf, votes, hat, hh, rfl⟩ := stepVoteReply_eq_some h
      have htally := voteReplyHandler_tally (s.peers cv.me) cv.voteArgs cv.votes reply
      rw [hh] at htally
      exact .tally k call cv reply rf.seat votes hat htally (seat_update s.peers _ _) rfl rfl rfl
  | start p command =>
      obtain rfl : s.setPeer p ((s.peers p).start command).1 = s' := Option.some.inj h
      refine .quiet (seat_update_of_eq ?_) rfl rfl rfl
      unfold Raft.start
      split <;> rfl
  | consistencyCheck p i =>
      obtain ⟨out, -, -, rfl⟩ := stepConsistencyCheck_eq_some h
      refine .quiet ?_ (by simp) (by simp) (by simp)
      funext q
      simp [seat]
  | appendEntries k =>
      obtain ⟨call, rf, reply, -, hae, rfl⟩ := stepAppendEntries_eq_some h
      -- every request but one of an older term makes the receiver follow its sender
      rcases Raft.appendEntries_cases hae with ⟨-, rfl, -, -⟩ | ⟨hle, -, rfl, -, -⟩ |
        ⟨hle, j, -, -, rfl, -, -, -⟩ | ⟨hle, -, rfl, -, -⟩
      · exact .quiet (seat_update_of_eq rfl) rfl rfl rfl
      all_goals
        refine .hear k call.dst call.args.leaderID call.args.term hle ?_ rfl rfl rfl
        rw [Raft.hearLeader_eq hle]
        exact seat_update s.peers _ _
  | appendReply k =>
      obtain ⟨call, reply, rf, out, hat, hh, hs'⟩ := stepAppendReply_eq_some h
      have hseat : s'.seat = Function.update s.seat call.src rf.seat := by
        funext q
        simp only [hs', seat, send_peers]
        exact congrFun (seat_update s.peers call.src rf) q
      have hcv : s'.canvasses = s.canvasses := by simp [hs']
      have hvc : s'.voteCalls = s.voteCalls := by simp [hs']
      have hw : s'.wins = s.wins := by simp [hs']
      -- in all but one of the cases the peer keeps its seat
      have hquiet : rf.seat = s.seat call.src → VotingStep s s' (.appendReply k) := fun hrf =>
        .quiet (by rw [hseat, hrf, Function.update_eq_self]) hcv hvc hw
      rcases Raft.consistencyCheckReplyHandler_cases hh with ⟨-, rfl, -⟩ |
        ⟨-, -, -, hup, -⟩ | ⟨hl, hs, hlt, rfl, -⟩ | ⟨-, -, -, ⟨next, rfl⟩, -⟩
      · exact hquiet rfl
      · apply hquiet
        rcases Raft.updateCommitIndex_cases hup with rfl | ⟨_, -, -, -, -, rfl⟩ <;> rfl
      · exact .reset k call.src ⟨(call, reply), hat, hl, hs, hlt⟩ hseat hcv hvc hw
      · exact hquiet rfl
  | installSnapshot k =>
      obtain ⟨call, rf, reply, msg, -, his, rfl⟩ := stepInstallSnapshot_eq_some h
      refine .quiet (seat_update_of_eq ?_) rfl rfl rfl
      rcases Raft.installSnapshot_cases his with ⟨-, ⟨-, rfl, -⟩ | ⟨-, -, ⟨j, rfl⟩, -⟩⟩ <;> rfl
  | snapshotReply k =>
      obtain ⟨call, reply, -, rfl⟩ := stepSnapshotReply_eq_some h
      rcases Raft.snapshotReplyHandler_cases (s.peers call.src) call.dst reply with
        ⟨-, heq⟩ | ⟨-, hlt, heq⟩ | ⟨-, -, heq⟩ <;> rw [heq]
      · exact .quiet (seat_update_of_eq rfl) rfl rfl rfl
      · exact .stepDown k call.src reply.currentTerm hlt (seat_update s.peers _ _) rfl rfl rfl
      · exact .quiet (seat_update_of_eq rfl) rfl rfl rfl
  | newSnapShot p data index =>
      obtain ⟨rf, hrf, rfl⟩ := stepNewSnapShot_eq_some h
      refine .quiet (seat_update_of_eq ?_) rfl rfl rfl
      rcases Raft.newSnapShot_cases hrf with ⟨-, rfl⟩ | ⟨-, -, e, rest, -, rfl⟩ <;> rfl
  | applyTake p spare =>
      obtain ⟨rf, msgs, -, htake, rfl⟩ := stepApplyTake_eq_some h
      refine .quiet (seat_update_of_eq ?_) rfl rfl rfl
      rcases Raft.applyLogEntries_cases htake with ⟨-, rfl, -⟩ | ⟨-, rfl, -⟩ <;> rfl
  | applySend p =>
      obtain ⟨msg, rest, -, rfl⟩ := stepApplySend_eq_some h
      exact .quiet rfl rfl rfl rfl
  | crash p => cases hcrash

end Cluster

end RaftLab
