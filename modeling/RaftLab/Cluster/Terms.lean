import RaftLab.Lib.Records
import RaftLab.Cluster.Voting

set_option autoImplicit false

/-! # Terms only grow

In a run without crashes `CurrentTerm` never falls and bounds the terms of the log, if and only
if neither of two branches is taken:

* `TermFall` — a candidate takes over the term of a reply to an older election of its own,
  although its current term is already higher (the strict case of `StaleDepose`);
* `EarlyInstall` — a peer installs a snapshot whose last entry has a higher term than the
  peer: the handler never adopts the term of the request.
-/

namespace RaftLab

variable {n : Nat} {C D : Type}

/-- Every entry of the log is of a term the peer has reached. -/
def Raft.Bounded (rf : Raft n C D) : Prop := ∀ e ∈ rf.logs, e.term ≤ rf.currentTerm

/-- `rf'` is a later state of the peer: its term has not fallen, and bounds the log. -/
def Raft.Grows (rf rf' : Raft n C D) : Prop :=
  rf.currentTerm ≤ rf'.currentTerm ∧ rf'.Bounded

namespace Raft

variable {rf rf' : Raft n C D}

theorem Grows.of_eq (hb : rf.Bounded) (hlogs : rf'.logs = rf.logs)
    (hterm : rf.currentTerm ≤ rf'.currentTerm) : rf.Grows rf' := by
  refine ⟨hterm, fun e he => ?_⟩
  rw [hlogs] at he
  exact le_trans (hb e he) hterm

theorem requestVote_grows (hb : rf.Bounded) {args : RequestVoteArgs n}
    {reply : RequestVoteReply} (h : rf.requestVote args = some (rf', reply)) : rf.Grows rf' := by
  have hlogs : ∀ t, (rf.adoptTerm t).logs = rf.logs := by
    intro t
    unfold adoptTerm
    split <;> rfl
  rcases requestVote_cases h with ⟨-, rfl, -⟩ | ⟨hle, -, -, rfl, -⟩ | ⟨hle, rfl, -⟩
  · exact .of_eq hb rfl (le_refl _)
  · refine .of_eq hb (hlogs _) ?_
    show rf.currentTerm ≤ (rf.adoptTerm args.term).currentTerm
    rw [adoptTerm_currentTerm hle]
    exact hle
  · refine .of_eq hb (hlogs _) ?_
    rw [persist_currentTerm, adoptTerm_currentTerm hle]
    exact hle

theorem voteReplyHandler_grows (hb : rf.Bounded) {args : RequestVoteArgs n} {votes votes' : Nat}
    {reply : RequestVoteReply} (h : rf.voteReplyHandler args votes reply = (rf', votes'))
    (hfall : rf.state = .candidate → args.term < reply.currentTerm →
      rf.currentTerm ≤ reply.currentTerm) : rf.Grows rf' := by
  rcases rf.voteReplyHandler_cases args votes reply with heq | ⟨hc, hlt, heq⟩ |
    ⟨-, -, -, -, heq⟩ | ⟨-, -, heq⟩ <;> rw [heq] at h <;> cases h
  · exact .of_eq hb rfl (le_refl _)
  · exact .of_eq hb rfl (hfall hc hlt)
  · exact .of_eq hb rfl (le_refl _)
  · exact .of_eq hb rfl (le_refl _)

/-- A candidate takes over the term of the reply, whatever its own is. -/
theorem voteReplyHandler_newer {args : RequestVoteArgs n} {votes votes' : Nat}
    {reply : RequestVoteReply} (hc : rf.state = .candidate)
    (hlt : args.term < reply.currentTerm)
    (h : rf.voteReplyHandler args votes reply = (rf', votes')) :
    rf'.currentTerm = reply.currentTerm := by
  rw [voteReplyHandler, if_pos hc, if_pos hlt] at h
  cases h
  rfl

theorem start_grows (hb : rf.Bounded) (command : Option C) : rf.Grows (rf.start command).1 := by
  unfold start
  split
  · refine ⟨le_refl _, fun e he => ?_⟩
    rcases List.mem_append.mp he with he | he
    · exact hb e he
    · rw [List.mem_singleton.mp he]
      exact le_refl _
  · exact .of_eq hb rfl (le_refl _)

theorem appendEntries_grows (hb : rf.Bounded) {args : AppendEntriesArgs n C}
    {reply : AppendEntriesReply} (hargs : ∀ e ∈ args.entries, e.term ≤ args.term)
    (h : rf.appendEntries args = some (rf', reply)) : rf.Grows rf' := by
  rcases appendEntries_cases h with ⟨-, rfl, -, -⟩ | ⟨hle, -, rfl, -, -⟩ |
    ⟨hle, k, -, -, rfl, -, -, -⟩ | ⟨hle, -, rfl, -, -⟩
  · exact .of_eq hb rfl (le_refl _)
  · rw [hearLeader_eq hle]
    exact .of_eq hb rfl hle
  · rw [hearLeader_eq hle]
    refine ⟨hle, fun e he => ?_⟩
    rcases List.mem_append.mp he with he | he
    · exact le_trans (hb e (List.mem_of_mem_take he)) hle
    · exact hargs e he
  · rw [hearLeader_eq hle]
    exact .of_eq hb rfl hle

theorem consistencyCheckReplyHandler_grows (hb : rf.Bounded) {i : Fin n}
    {reply : AppendEntriesReply} {out : Option (InstallSnapshotArgs n D)}
    (h : rf.consistencyCheckReplyHandler i reply = some (rf', out)) : rf.Grows rf' := by
  rcases consistencyCheckReplyHandler_cases h with ⟨-, rfl, -⟩ | ⟨-, -, -, hup, -⟩ |
    ⟨-, -, -, rfl, -⟩ | ⟨-, -, -, ⟨next, rfl⟩, -⟩
  · exact .of_eq hb rfl (le_refl _)
  · rcases updateCommitIndex_cases hup with rfl | ⟨t, -, -, -, -, rfl⟩
    · exact .of_eq hb rfl (le_refl _)
    · exact .of_eq hb rfl (le_refl _)
  · exact .of_eq hb rfl (le_refl _)
  · exact .of_eq hb rfl (le_refl _)

theorem installSnapshot_grows (hb : rf.Bounded) {args : InstallSnapshotArgs n D}
    {reply : InstallSnapshotReply} {msg : Option (ApplyMsg C D)}
    (h : rf.installSnapshot args = some (rf', reply, msg))
    (hearly : rf.currentTerm ≤ args.term → rf.snapshotIndex < args.lastIncludedIndex →
      args.lastIncludedTerm ≤ rf.currentTerm) : rf.Grows rf' := by
  rcases installSnapshot_cases h with ⟨-, ⟨-, rfl, -⟩ | ⟨hle, hlt, ⟨k, rfl⟩, -⟩⟩
  · exact .of_eq hb rfl (le_refl _)
  · refine ⟨le_refl _, fun e he => ?_⟩
    rcases List.mem_cons.mp he with rfl | he
    · exact hearly hle hlt
    · exact hb e (List.mem_of_mem_drop he)

/-- The placeholder of an installed snapshot is under the peer's term only if its term was
reached before. -/
theorem installSnapshot_bounded {args : InstallSnapshotArgs n D} {reply : InstallSnapshotReply}
    {msg : Option (ApplyMsg C D)} (h : rf.installSnapshot args = some (rf', reply, msg))
    (hle : rf.currentTerm ≤ args.term) (hlt : rf.snapshotIndex < args.lastIncludedIndex)
    (hb : rf'.Bounded) : args.lastIncludedTerm ≤ rf.currentTerm := by
  rcases (installSnapshot_cases h).2 with ⟨hno, -, -⟩ | ⟨-, -, ⟨k, rfl⟩, -⟩
  · omega
  · exact hb _ List.mem_cons_self

theorem snapshotReplyHandler_grows (hb : rf.Bounded) (i : Fin n) (reply : InstallSnapshotReply) :
    rf.Grows (rf.snapshotReplyHandler i reply) := by
  rcases rf.snapshotReplyHandler_cases i reply with ⟨-, heq⟩ | ⟨-, hlt, heq⟩ | ⟨-, -, heq⟩ <;>
    rw [heq]
  · exact .of_eq hb rfl (le_refl _)
  · exact .of_eq hb rfl (Nat.le_of_lt hlt)
  · exact .of_eq hb rfl (le_refl _)

theorem newSnapShot_grows (hb : rf.Bounded) {data : Option D} {index : Int}
    (h : rf.newSnapShot data index = some rf') : rf.Grows rf' := by
  rcases newSnapShot_cases h with ⟨-, rfl⟩ | ⟨-, -, e, rest, hdrop, rfl⟩
  · exact .of_eq hb rfl (le_refl _)
  · refine ⟨le_refl _, fun x hx => ?_⟩
    have hx : x ∈ e :: rest := hx
    rw [← hdrop] at hx
    exact hb x (List.mem_of_mem_drop hx)

end Raft

namespace Cluster

variable {s s' : Cluster n C D}

/-- A vote reply lowers the term of its candidate. -/
def TermFall (s : Cluster n C D) (e : Event n C D) : Prop :=
  ∃ x ∈ s.voteReplyOf e, (s.peers x.2.1.me).state = .candidate ∧
    x.2.1.voteArgs.term < x.2.2.currentTerm ∧
    x.2.2.currentTerm < (s.peers x.2.1.me).currentTerm

/-- The snapshot request that event `e` hands to its receiver. -/
def snapshotRequestOf (s : Cluster n C D) :
    Event n C D → Option (Call n (InstallSnapshotArgs n D) InstallSnapshotReply)
  | .installSnapshot k => requestAt s.snapshotCalls k
  | _ => none

/-- A snapshot from a later term than the receiver's is installed. -/
def EarlyInstall (s : Cluster n C D) (e : Event n C D) : Prop :=
  ∃ call ∈ s.snapshotRequestOf e, (s.peers call.dst).currentTerm ≤ call.args.term ∧
    (s.peers call.dst).snapshotIndex < call.args.lastIncludedIndex ∧
    (s.peers call.dst).currentTerm < call.args.lastIncludedTerm

/-- A step that keeps terms growing: neither a crash nor one of the two branches. -/
def KeepsTerms (s : Cluster n C D) (e : Event n C D) : Prop :=
  e.isCrash = false ∧ ¬ TermFall s e ∧ ¬ EarlyInstall s e

instance (s : Cluster n C D) (e : Event n C D) : Decidable (TermFall s e) :=
  inferInstanceAs (Decidable (∃ x ∈ s.voteReplyOf e, _))

instance (s : Cluster n C D) (e : Event n C D) : Decidable (EarlyInstall s e) :=
  inferInstanceAs (Decidable (∃ x ∈ s.snapshotRequestOf e, _))

instance (s : Cluster n C D) (e : Event n C D) : Decidable (KeepsTerms s e) :=
  inferInstanceAs (Decidable (_ ∧ _))

/-- Terms bound the logs of the peers and the entries in flight. -/
structure TermInv (s : Cluster n C D) : Prop where
  logs : ∀ p, (s.peers p).Bounded
  entries : ∀ call ∈ s.appendCalls, ∀ e ∈ call.args.entries, e.term ≤ call.args.term

/-- Every peer of `s'` is a later state of the peer of `s`. -/
def GrowsTo (s s' : Cluster n C D) : Prop := ∀ p, (s.peers p).Grows (s'.peers p)

theorem growsTo_update {p : Fin n} {rf : Raft n C D} (hinv : TermInv s)
    (hpeers : s'.peers = Function.update s.peers p rf) (h : (s.peers p).Grows rf) :
    s.GrowsTo s' := by
  rw [GrowsTo, hpeers]
  exact (Function.forall_update_iff s.peers fun q rf => (s.peers q).Grows rf).mpr
    ⟨h, fun q _ => .of_eq (hinv.logs q) rfl (le_refl _)⟩

/-- **No step lowers a term**, and every log stays bounded by its peer's term. -/
theorem growsTo_step {e : Event n C D} (hinv : TermInv s) (hok : KeepsTerms s e)
    (h : s.step e = some s') : s.GrowsTo s' := by
  obtain ⟨hcrash, hfall, hearly⟩ := hok
  cases e with
  | canvassVotes p =>
      obtain ⟨rf, args, hfill, rfl⟩ := stepCanvassVotes_eq_some h
      obtain ⟨rfl, -, -, -⟩ := Raft.fillRequestVoteArgs_eq_some hfill
      exact growsTo_update hinv rfl (.of_eq (hinv.logs p) rfl (Nat.le_succ _))
  | requestVote k =>
      obtain ⟨call, rf, reply, -, hrv, rfl⟩ := stepRequestVote_eq_some h
      exact growsTo_update hinv rfl (Raft.requestVote_grows (hinv.logs _) hrv)
  | voteReply k =>
      obtain ⟨call, cv, reply, rf, votes, hat, hh, rfl⟩ := stepVoteReply_eq_some h
      refine growsTo_update hinv rfl (Raft.voteReplyHandler_grows (hinv.logs _) hh ?_)
      intro hc hlt
      by_contra hcon
      exact hfall ⟨(call, cv, reply), hat, hc, hlt, Nat.lt_of_not_le hcon⟩
  | start p command =>
      obtain rfl : s.setPeer p ((s.peers p).start command).1 = s' := Option.some.inj h
      exact growsTo_update hinv rfl (Raft.start_grows (hinv.logs p) command)
  | consistencyCheck p i =>
      obtain ⟨out, -, -, rfl⟩ := stepConsistencyCheck_eq_some h
      intro q
      rw [send_peers]
      exact .of_eq (hinv.logs q) rfl (le_refl _)
  | appendEntries k =>
      obtain ⟨call, rf, reply, hat, hae, rfl⟩ := stepAppendEntries_eq_some h
      have hmem := List.mem_of_getElem? (requestAt_eq_some hat).1
      exact growsTo_update hinv rfl
        (Raft.appendEntries_grows (hinv.logs _) (hinv.entries call hmem) hae)
  | appendReply k =>
      obtain ⟨call, reply, rf, out, -, hh, rfl⟩ := stepAppendReply_eq_some h
      exact growsTo_update hinv (send_peers _ _ _)
        (Raft.consistencyCheckReplyHandler_grows (hinv.logs _) hh)
  | installSnapshot k =>
      obtain ⟨call, rf, reply, msg, hat, his, rfl⟩ := stepInstallSnapshot_eq_some h
      refine growsTo_update hinv rfl (Raft.installSnapshot_grows (hinv.logs _) his ?_)
      intro hle hlt
      by_contra hcon
      exact hearly ⟨call, hat, hle, hlt, Nat.lt_of_not_le hcon⟩
  | snapshotReply k =>
      obtain ⟨call, reply, -, rfl⟩ := stepSnapshotReply_eq_some h
      exact growsTo_update hinv rfl (Raft.snapshotReplyHandler_grows (hinv.logs _) _ _)
  | newSnapShot p data index =>
      obtain ⟨rf, hrf, rfl⟩ := stepNewSnapShot_eq_some h
      exact growsTo_update hinv rfl (Raft.newSnapShot_grows (hinv.logs p) hrf)
  | applyTake p spare =>
      obtain ⟨rf, msgs, -, htake, rfl⟩ := stepApplyTake_eq_some h
      refine growsTo_update hinv rfl ?_
      rcases Raft.applyLogEntries_cases htake with ⟨-, rfl, -⟩ | ⟨-, rfl, -⟩
      · exact .of_eq (hinv.logs p) rfl (le_refl _)
      · exact .of_eq (hinv.logs p) rfl (le_refl _)
  | applySend p =>
      obtain ⟨msg, rest, -, rfl⟩ := stepApplySend_eq_some h
      exact fun q => .of_eq (hinv.logs q) rfl (le_refl _)
  | crash p => cases hcrash

/-- The two branches do break the law. -/
theorem keepsTerms_of_growsTo {e : Event n C D} (hcrash : e.isCrash = false)
    (h : s.step e = some s') (hgrows : s.GrowsTo s') : KeepsTerms s e := by
  refine ⟨hcrash, ?_, ?_⟩
  · rintro ⟨⟨call, cv, reply⟩, hx, hc, hlt, hfall⟩
    cases e with
    | voteReply k =>
        obtain ⟨call', cv', reply', rf, votes, hat, hh, rfl⟩ := stepVoteReply_eq_some h
        cases hat.symm.trans hx
        have hterm := Raft.voteReplyHandler_newer hc hlt hh
        have hle := (hgrows cv.me).1
        rw [setPeer_peers, Function.update_self, hterm] at hle
        exact absurd hfall (Nat.not_lt.mpr hle)
    | _ => cases hx
  · rintro ⟨call, hx, hle, hlt, hearly⟩
    cases e with
    | installSnapshot k =>
        obtain ⟨call', rf, reply, msg, hat, his, rfl⟩ := stepInstallSnapshot_eq_some h
        cases hat.symm.trans hx
        have hbounded := (hgrows call.dst).2
        rw [setPeer_peers, Function.update_self] at hbounded
        exact absurd hearly (Nat.not_lt.mpr (Raft.installSnapshot_bounded his hle hlt hbounded))
    | _ => cases hx

theorem termInv_init : TermInv (init : Cluster n C D) where
  logs := by
    intro p e he
    rw [List.mem_singleton.mp he]
    exact le_refl _
  entries := by intro call h; cases h

theorem termInv_step {e : Event n C D} (hinv : TermInv s) (hok : KeepsTerms s e)
    (h : s.step e = some s') : TermInv s' where
  logs := fun p => (growsTo_step hinv hok h p).2
  entries := by
    intro call hmem
    rcases appendCalls_step h hmem with ⟨old, hold, hargs, -, -⟩ | ⟨i, hcc, -, -⟩
    · rw [hargs]
      exact hinv.entries old hold
    · obtain ⟨-, hterm, -, -, k, -, -, hent⟩ := Raft.consistencyCheck_append hcc
      intro e he
      rw [hent] at he
      rw [hterm]
      exact hinv.logs _ e (List.mem_of_mem_drop he)

theorem growsTo_run {es : List (Event n C D)} (hinv : TermInv s)
    (hok : Machine.Along step KeepsTerms s es) (hrun : Machine.run step s es = some s') :
    s.GrowsTo s' := by
  -- the invariant is carried along with the comparison to the first moment
  have hboth : TermInv s' ∧ ∀ q, (s.peers q).currentTerm ≤ (s'.peers q).currentTerm :=
    Machine.run_induction
      (I := fun t => TermInv t ∧ ∀ q, (s.peers q).currentTerm ≤ (t.peers q).currentTerm)
      (fun _ _ _ hi hk hs => ⟨termInv_step hi.1 hk hs,
        fun q => le_trans (hi.2 q) (growsTo_step hi.1 hk hs q).1⟩)
      ⟨hinv, fun _ => le_refl _⟩ hok hrun
  exact fun p => ⟨hboth.2 p, hboth.1.logs p⟩

/-- **Terms only grow**: in a run without crashes no term falls between two moments, and at every
moment terms bound the logs, if and only if no step takes one of the two branches. -/
theorem currentTerm_grows_iff {es : List (Event n C D)} (hcrash : ∀ e ∈ es, e.isCrash = false)
    (hrun : runFrom es = some s) :
    Machine.Along step KeepsTerms init es ↔
      ∀ before segment after s₁ s₂, es = before ++ segment ++ after →
        runFrom before = some s₁ → Machine.run step s₁ segment = some s₂ → ∀ p,
        (s₁.peers p).currentTerm ≤ (s₂.peers p).currentTerm ∧
          ∀ e ∈ (s₂.peers p).logs, e.term ≤ (s₂.peers p).currentTerm := by
  refine Machine.segments_iff_along (R := fun s₁ _ s₂ => s₁.GrowsTo s₂) hrun ?_ ?_
  · intro before segment after s₁ s₂ _ h₁ h₂ hok₁ hok₂
    have hinv : TermInv s₁ :=
      Machine.run_induction (fun _ _ _ hi hk hs => termInv_step hi hk hs) termInv_init hok₁ h₁
    exact growsTo_run hinv hok₂ h₂
  · exact fun _ e _ he hs hgrows => keepsTerms_of_growsTo (hcrash e he) hs hgrows

/-- A leader replicates an entry and steps down when a candidate of term 2 asks for its
vote. -/
def handover : List (Event 3 Nat Unit) :=
  [.canvassVotes 0, .requestVote 0, .voteReply 0, .start 0 (some 7), .consistencyCheck 0 1,
    .appendEntries 0, .canvassVotes 1, .requestVote 2, .appendReply 0]

theorem currentTerm_grows_iff_handover :
    Machine.Along step KeepsTerms init handover ∧
      ∃ s₁ s₂, runFrom (handover.take 6) = some s₁ ∧
        Machine.run step s₁ (handover.drop 6) = some s₂ ∧ (s₂.peers 0).logs.length = 2 ∧
        (s₁.peers 0).currentTerm ≤ (s₂.peers 0).currentTerm ∧
        ∀ e ∈ (s₂.peers 0).logs, e.term ≤ (s₂.peers 0).currentTerm := by
  have hok : Machine.Along step KeepsTerms init handover := by decide
  have hrun : (runFrom (handover.take 6)).any (fun s₁ => (Machine.run step s₁ (handover.drop 6)).any
      (fun s₂ => (s₂.peers 0).logs.length = 2)) = true := by decide
  simp only [Option.any_eq_true, decide_eq_true_eq] at hrun
  obtain ⟨s₁, h₁, s₂, h₂, hlen⟩ := hrun
  obtain ⟨s, hs⟩ := Option.isSome_iff_exists.mp (show (runFrom handover).isSome = true by decide)
  have hgrows := (currentTerm_grows_iff (by decide) hs).mp hok _ _ [] s₁ s₂ rfl h₁ h₂ 0
  exact ⟨hok, s₁, s₂, h₁, h₂, hlen, hgrows⟩

/-! ## Terms fall, and entries overtake them, on the excluded branches -/

/-- Peer `0` is a candidate of term 3 when the refusal of its term-1 request arrives. -/
def lateRefusal : List (Event 3 Nat Unit) :=
  [.canvassVotes 0, .canvassVotes 1, .canvassVotes 1, .requestVote 0, .canvassVotes 0,
    .canvassVotes 0]

/-- Peer `2` has heard of no election when the leader of term 1 sends it a snapshot. -/
def earlySnapshot : List (Event 3 Nat Unit) :=
  [.canvassVotes 0, .requestVote 0, .voteReply 0, .start 0 (some 7), .consistencyCheck 0 1,
    .appendEntries 0, .appendReply 0, .newSnapShot 0 (some ()) 1, .consistencyCheck 0 2,
    .installSnapshot 0]

/-- Both halves of the law fail in runs without crashes: a step takes peer `0` from term 3
back to term 2, and peer `2` of term 0 ends with an entry of term 1. -/
theorem currentTerm_falls_and_is_overtaken :
    (¬ ∀ (es : List (Event 3 Nat Unit)) (e : Event 3 Nat Unit) (s₁ s₂ : Cluster 3 Nat Unit),
        (∀ f ∈ es ++ [e], f.isCrash = false) → runFrom es = some s₁ → s₁.step e = some s₂ →
        ∀ p, (s₁.peers p).currentTerm ≤ (s₂.peers p).currentTerm) ∧
    (¬ ∀ (es : List (Event 3 Nat Unit)) (s : Cluster 3 Nat Unit),
        (∀ f ∈ es, f.isCrash = false) → runFrom es = some s →
        ∀ p, ∀ e ∈ (s.peers p).logs, e.term ≤ (s.peers p).currentTerm) := by
  constructor
  · intro hall
    have hrun : (runFrom lateRefusal).any (fun s => (s.step (.voteReply 0)).any
        (fun s' => (s'.peers 0).currentTerm < (s.peers 0).currentTerm)) = true := by decide
    obtain ⟨s₁, hs₁, hstep⟩ := (Option.any_eq_true _ _).mp hrun
    obtain ⟨s₂, hs₂, hlt⟩ := (Option.any_eq_true _ _).mp hstep
    have hle := hall lateRefusal (.voteReply 0) s₁ s₂ (by decide) hs₁ hs₂ 0
    have hlt : (s₂.peers 0).currentTerm < (s₁.peers 0).currentTerm := of_decide_eq_true hlt
    omega
  · intro hall
    have hrun : (runFrom earlySnapshot).any (fun s =>
        ∃ e ∈ (s.peers 2).logs, (s.peers 2).currentTerm < e.term) = true := by decide
    obtain ⟨s, hs, hex⟩ := (Option.any_eq_true _ _).mp hrun
    obtain ⟨e, he, hlt⟩ := of_decide_eq_true hex
    have hle := hall earlySnapshot s (by decide) hs 2 e he
    omega

end Cluster

end RaftLab
