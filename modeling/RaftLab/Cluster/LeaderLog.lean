import RaftLab.Cluster.Election
import RaftLab.Cluster.Terms
import RaftLab.Cluster.Install

set_option autoImplicit false

/-! # The log of a leader

What can happen to the log of a peer that is leader before and after a step: it takes a new
command, it drops entries it has a snapshot of, or a snapshot of another peer is installed
over it. The last is a gap in the handler: `InstallSnapshot` does not make a leader step
down. A snapshot inside the leader's own log only cuts the log off; one that ends beyond it
replaces the log of a peer that goes on as leader of its term.
-/

namespace RaftLab

variable {n : Nat} {C D : Type}

namespace Raft

/-- `rf'` is a later state of a log that has only grown by the entries `started`: above the
snapshot its entries are the old ones followed by the started ones. -/
structure Extends (rf rf' : Raft n C D) (started : List (LogEntry C)) : Prop where
  snapshotIndex_le : rf.snapshotIndex ≤ rf'.snapshotIndex
  lastIndex_eq : rf'.lastIndex = rf.lastIndex + started.length
  entryAt_eq : ∀ i, rf'.snapshotIndex < i →
    rf'.entryAt i = Slice.index (rf.logs ++ started) (i - rf.snapshotIndex)

variable {rf rf' rf'' : Raft n C D}

/-- A log that only lost a beginning has grown by nothing. -/
theorem Extends.of_entryAt (hsnap : rf.snapshotIndex ≤ rf'.snapshotIndex)
    (hlast : rf'.lastIndex = rf.lastIndex)
    (hentry : ∀ i, rf'.snapshotIndex < i → rf'.entryAt i = rf.entryAt i) :
    rf.Extends rf' [] where
  snapshotIndex_le := hsnap
  lastIndex_eq := by simpa using hlast
  entryAt_eq i hi := by
    rw [List.append_nil]
    exact hentry i hi

theorem Extends.of_eq (hlogs : rf'.logs = rf.logs)
    (hsnap : rf'.snapshotIndex = rf.snapshotIndex) : rf.Extends rf' [] := by
  refine .of_entryAt (by omega) ?_ (fun i _ => ?_)
  · rw [lastIndex, lastIndex, hlogs, hsnap]
  · rw [entryAt, entryAt, hlogs, hsnap]

theorem Extends.trans {xs ys : List (LogEntry C)} (h : rf.Extends rf' xs)
    (h' : rf'.Extends rf'' ys) : rf.Extends rf'' (xs ++ ys) where
  snapshotIndex_le := le_trans h.snapshotIndex_le h'.snapshotIndex_le
  lastIndex_eq := by
    rw [h'.lastIndex_eq, h.lastIndex_eq, List.length_append]
    omega
  entryAt_eq i hi := by
    have hsnap := h'.snapshotIndex_le
    have hlast := h.lastIndex_eq
    unfold lastIndex at hlast
    have hlen : ((rf.logs ++ xs).length : Int) = rf.logs.length + xs.length := by
      rw [List.length_append]
      omega
    rw [h'.entryAt_eq i hi, ← List.append_assoc]
    by_cases hold : i - rf'.snapshotIndex < rf'.logs.length
    · -- the entry was there before `ys`
      rw [Slice.index_append_left hold, Slice.index_append_left (by omega)]
      exact h.entryAt_eq i (by omega)
    · rw [← sub_add_cancel (i - rf'.snapshotIndex) (rf'.logs.length : Int),
        Slice.index_append_right (by omega),
        ← sub_add_cancel (i - rf.snapshotIndex) ((rf.logs ++ xs).length : Int),
        Slice.index_append_right (by omega)]
      congr 1
      omega

theorem start_extends (hl : rf.state = .leader) (command : Option C) :
    rf.Extends (rf.start command).1 [{ term := rf.currentTerm, command := command }] := by
  unfold start
  rw [if_pos hl]
  refine ⟨le_refl _, ?_, fun i _ => rfl⟩
  show rf.snapshotIndex + ((rf.logs ++ [_]).length : Int) - 1
    = rf.snapshotIndex + rf.logs.length - 1 + _
  rw [List.length_append]
  omega

theorem newSnapShot_extends {data : Option D} {index : Int}
    (h : rf.newSnapShot data index = some rf') : rf.Extends rf' [] := by
  rcases newSnapShot_cases h with ⟨-, rfl⟩ | ⟨hlt, -, e, rest, hdrop, rfl⟩
  · exact .of_eq rfl rfl
  · have hlen := congrArg List.length hdrop
    rw [List.length_drop, List.length_cons] at hlen
    refine .of_entryAt (le_of_lt hlt) ?_ (fun i hi => ?_)
    · show index + ((e :: rest).length : Int) - 1 = rf.snapshotIndex + rf.logs.length - 1
      rw [List.length_cons]
      omega
    · show Slice.index (e :: rest) (i - index) = Slice.index rf.logs (i - rf.snapshotIndex)
      have hi : index < i := hi
      rw [← hdrop, Slice.index_drop _ (by omega)]
      congr 1
      omega

/-- A snapshot that ends inside the log cuts the log off. -/
theorem installSnapshot_extends {args : InstallSnapshotArgs n D} {reply : InstallSnapshotReply}
    {msg : Option (ApplyMsg C D)} (h : rf.installSnapshot args = some (rf', reply, msg))
    (hinside : rf.currentTerm ≤ args.term → rf.snapshotIndex < args.lastIncludedIndex →
      args.lastIncludedIndex ≤ rf.lastIndex) : rf.Extends rf' [] := by
  rcases (installSnapshot_cases h).2 with ⟨-, rfl, -⟩ | ⟨hterm, hlt, -, -⟩
  · exact .of_eq rfl rfl
  · have hle := hinside hterm hlt
    rw [installSnapshot_of_le hterm hlt] at h
    cases h
    refine .of_entryAt (le_of_lt hlt) ?_ (fun i hi => entryAt_installAt hlt hi)
    show args.lastIncludedIndex + ((_ :: List.drop _ _ : List (LogEntry C)).length : Int) - 1 = _
    rw [lastIndex] at hle ⊢
    rw [List.length_cons, List.length_drop]
    omega

/-- One that ends beyond the log makes it longer. -/
theorem lastIncludedIndex_le_lastIndex {args : InstallSnapshotArgs n D}
    {reply : InstallSnapshotReply} {msg : Option (ApplyMsg C D)}
    (h : rf.installSnapshot args = some (rf', reply, msg)) (hterm : rf.currentTerm ≤ args.term)
    (hlt : rf.snapshotIndex < args.lastIncludedIndex) :
    args.lastIncludedIndex ≤ rf'.lastIndex := by
  rw [installSnapshot_of_le hterm hlt] at h
  cases h
  show args.lastIncludedIndex ≤
    args.lastIncludedIndex + ((_ :: List.drop _ _ : List (LogEntry C)).length : Int) - 1
  rw [List.length_cons]
  omega

/-- The log and its snapshot index are the same. -/
def SameLog (rf rf' : Raft n C D) : Prop :=
  rf'.logs = rf.logs ∧ rf'.snapshotIndex = rf.snapshotIndex

theorem adoptTerm_sameLog (rf : Raft n C D) (t : Nat) : rf.SameLog (rf.adoptTerm t) := by
  unfold adoptTerm
  split <;> exact ⟨rfl, rfl⟩

theorem requestVote_sameLog {args : RequestVoteArgs n} {reply : RequestVoteReply}
    (h : rf.requestVote args = some (rf', reply)) : rf.SameLog rf' := by
  rcases requestVote_cases h with ⟨-, rfl, -⟩ | ⟨-, -, -, rfl, -⟩ | ⟨-, rfl, -⟩
  · exact ⟨rfl, rfl⟩
  · exact adoptTerm_sameLog rf _
  · exact adoptTerm_sameLog rf _

/-- A leader ignores the votes that come in late. -/
theorem voteReplyHandler_of_leader {args : RequestVoteArgs n} {votes votes' : Nat}
    {reply : RequestVoteReply} (hl : rf.state = .leader)
    (h : rf.voteReplyHandler args votes reply = (rf', votes')) : rf' = rf := by
  have hfst := congrArg Prod.fst h
  unfold voteReplyHandler at hfst
  rw [if_neg (by rw [hl]; decide)] at hfst
  exact hfst.symm

/-- A leader that accepts entries steps down. -/
theorem appendEntries_sameLog {args : AppendEntriesArgs n C} {reply : AppendEntriesReply}
    (h : rf.appendEntries args = some (rf', reply)) (hl : rf.state = .leader)
    (hl' : rf'.state = .leader) : rf.SameLog rf' := by
  rcases appendEntries_cases h with ⟨-, rfl, -⟩ | ⟨hle, -, rfl, -⟩ | ⟨hle, k, -, -, rfl, -⟩ |
    ⟨hle, -, rfl, -⟩
  · exact ⟨rfl, rfl⟩
  · rw [hearLeader_eq hle]
    exact ⟨rfl, rfl⟩
  · exfalso
    have hst : (rf.hearLeader args).state = .leader := hl'
    rw [hearLeader_eq hle] at hst
    simp [hl] at hst
  · rw [hearLeader_eq hle]
    exact ⟨rfl, rfl⟩

theorem consistencyCheckReplyHandler_sameLog {i : Fin n} {reply : AppendEntriesReply}
    {out : Option (InstallSnapshotArgs n D)}
    (h : rf.consistencyCheckReplyHandler i reply = some (rf', out)) : rf.SameLog rf' := by
  rcases consistencyCheckReplyHandler_cases h with ⟨-, rfl, -⟩ | ⟨-, -, -, hup, -⟩ |
    ⟨-, -, -, rfl, -⟩ | ⟨-, -, -, ⟨next, rfl⟩, -⟩
  · exact ⟨rfl, rfl⟩
  · rcases updateCommitIndex_cases hup with rfl | ⟨_, _, _, _, _, rfl⟩ <;> exact ⟨rfl, rfl⟩
  · exact ⟨rfl, rfl⟩
  · exact ⟨rfl, rfl⟩

theorem snapshotReplyHandler_sameLog (rf : Raft n C D) (i : Fin n)
    (reply : InstallSnapshotReply) : rf.SameLog (rf.snapshotReplyHandler i reply) := by
  rcases snapshotReplyHandler_cases rf i reply with ⟨-, heq⟩ | ⟨-, -, heq⟩ | ⟨-, -, heq⟩ <;>
    rw [heq] <;> exact ⟨rfl, rfl⟩

theorem applyLogEntries_sameLog {spare : List (LogEntry C)} {msgs : List (ApplyMsg C D)}
    (h : rf.applyLogEntries spare = some (rf', msgs)) : rf.SameLog rf' := by
  rcases applyLogEntries_cases h with ⟨-, rfl, -⟩ | ⟨-, rfl, -⟩ <;> exact ⟨rfl, rfl⟩

end Raft

namespace Cluster

variable {s s' : Cluster n C D}

/-- A step that sets peer `q` leaves the log of `p` alone, if it does so when `q` is `p`. -/
theorem sameLog_update {f : Fin n → Raft n C D} {p q : Fin n} {rf : Raft n C D}
    (h : q = p → (f p).SameLog rf) : (f p).SameLog (Function.update f q rf p) := by
  by_cases hqp : q = p
  · subst hqp
    rw [Function.update_self]
    exact h rfl
  · rw [Function.update_of_ne (Ne.symm hqp)]
    exact ⟨rfl, rfl⟩

/-- What a step can do to the log of a peer that is leader before and after it. -/
theorem leader_log_step {e : Event n C D} {p : Fin n} (h : s.step e = some s')
    (hl : (s.peers p).state = .leader) (hl' : (s'.peers p).state = .leader) :
    ((∀ c, e ≠ .start p c) ∧ (s'.peers p).logs = (s.peers p).logs ∧
      (s'.peers p).snapshotIndex = (s.peers p).snapshotIndex) ∨
    (∃ c, e = .start p c ∧ s'.peers p = ((s.peers p).start c).1) ∨
    (∃ data index, e = .newSnapShot p data index ∧
      (s.peers p).newSnapShot data index = some (s'.peers p)) ∨
    (∃ call ∈ s.snapshotRequestOf e, call.dst = p ∧ ∃ reply msg,
      (s.peers p).installSnapshot call.args = some (s'.peers p, reply, msg)) := by
  cases e with
  | canvassVotes q =>
      obtain ⟨rf, args, hfill, rfl⟩ := stepCanvassVotes_eq_some h
      refine Or.inl ⟨by simp, sameLog_update fun hqp => ?_⟩
      subst hqp
      rw [(Raft.fillRequestVoteArgs_eq_some hfill).1]
      exact ⟨rfl, rfl⟩
  | requestVote k =>
      obtain ⟨call, rf, reply, -, hrv, rfl⟩ := stepRequestVote_eq_some h
      refine Or.inl ⟨by simp, sameLog_update fun hqp => ?_⟩
      subst hqp
      exact Raft.requestVote_sameLog hrv
  | voteReply k =>
      obtain ⟨call, cv, reply, rf, votes, -, hh, rfl⟩ := stepVoteReply_eq_some h
      refine Or.inl ⟨by simp, sameLog_update fun hqp => ?_⟩
      subst hqp
      -- a leader counts no votes
      rw [Raft.voteReplyHandler_of_leader hl hh]
      exact ⟨rfl, rfl⟩
  | start q c =>
      obtain rfl := Option.some.inj h
      by_cases hqp : q = p
      · subst hqp
        exact Or.inr (Or.inl ⟨c, rfl, Function.update_self ..⟩)
      · exact Or.inl ⟨by simp [hqp], sameLog_update fun h => absurd h hqp⟩
  | consistencyCheck q i =>
      obtain ⟨out, -, -, rfl⟩ := stepConsistencyCheck_eq_some h
      rw [send_peers]
      exact Or.inl ⟨by simp, rfl, rfl⟩
  | appendEntries k =>
      obtain ⟨call, rf, reply, -, hae, rfl⟩ := stepAppendEntries_eq_some h
      refine Or.inl ⟨by simp, sameLog_update fun hqp => ?_⟩
      subst hqp
      -- only a request of an older term leaves it the leader, and that one is refused
      have hst : (Function.update s.peers call.dst rf call.dst).state = .leader := hl'
      rw [Function.update_self] at hst
      exact Raft.appendEntries_sameLog hae hl hst
  | appendReply k =>
      obtain ⟨call, reply, rf, out, -, hh, rfl⟩ := stepAppendReply_eq_some h
      rw [send_peers]
      refine Or.inl ⟨by simp, sameLog_update fun hqp => ?_⟩
      subst hqp
      exact Raft.consistencyCheckReplyHandler_sameLog hh
  | installSnapshot k =>
      obtain ⟨call, rf, reply, msg, hat, his, rfl⟩ := stepInstallSnapshot_eq_some h
      by_cases hqp : call.dst = p
      · subst hqp
        refine Or.inr (Or.inr (Or.inr ⟨call, hat, rfl, reply, msg, ?_⟩))
        show _ = some (Function.update s.peers call.dst rf call.dst, reply, msg)
        rw [Function.update_self]
        exact his
      · exact Or.inl ⟨by simp, sameLog_update fun h => absurd h hqp⟩
  | snapshotReply k =>
      obtain ⟨call, reply, -, rfl⟩ := stepSnapshotReply_eq_some h
      refine Or.inl ⟨by simp, sameLog_update fun hqp => ?_⟩
      subst hqp
      exact Raft.snapshotReplyHandler_sameLog _ call.dst reply
  | newSnapShot q data index =>
      obtain ⟨rf, hrf, rfl⟩ := stepNewSnapShot_eq_some h
      by_cases hqp : q = p
      · subst hqp
        refine Or.inr (Or.inr (Or.inl ⟨data, index, rfl, ?_⟩))
        rw [setPeer_peers, Function.update_self]
        exact hrf
      · exact Or.inl ⟨by simp, sameLog_update fun h => absurd h hqp⟩
  | applyTake q spare =>
      obtain ⟨rf, msgs, -, htake, rfl⟩ := stepApplyTake_eq_some h
      refine Or.inl ⟨by simp, sameLog_update fun hqp => ?_⟩
      subst hqp
      exact Raft.applyLogEntries_sameLog htake
  | applySend q =>
      obtain ⟨msg, rest, -, rfl⟩ := stepApplySend_eq_some h
      exact Or.inl ⟨by simp, rfl, rfl⟩
  | crash q =>
      obtain rfl := Option.some.inj h
      by_cases hqp : q = p
      · subst hqp
        -- `Make` starts a follower
        have hst : (Function.update s.peers q (Raft.make q (s.peers q).persister) q).state
            = .leader := hl'
        rw [Function.update_self] at hst
        rcases hps : (s.peers q).persister with ⟨_ | d, snap⟩ <;> rw [hps] at hst <;> cases hst
      · exact Or.inl ⟨by simp, sameLog_update fun h => absurd h hqp⟩

/-! ## Leader Append-Only -/

/-- Peer `p` is leader of term `t`. -/
def IsLeaderOf (s : Cluster n C D) (p : Fin n) (t : Nat) : Prop :=
  (s.peers p).state = .leader ∧ (s.peers p).currentTerm = t

/-- The entry that event `e` appends to the log of `p`, the leader of term `t`. -/
def startedEntry (p : Fin n) (t : Nat) : Event n C D → Option (LogEntry C)
  | .start q command => if q = p then some { term := t, command := command } else none
  | _ => none

/-- A snapshot that ends beyond the log of `p` is installed although `p` is leader. -/
def OverrunsLeader (s : Cluster n C D) (p : Fin n) (e : Event n C D) : Prop :=
  ∃ call ∈ s.snapshotRequestOf e, call.dst = p ∧ (s.peers p).state = .leader ∧
    (s.peers p).currentTerm ≤ call.args.term ∧
    (s.peers p).snapshotIndex < call.args.lastIncludedIndex ∧
    (s.peers p).lastIndex < call.args.lastIncludedIndex

/-- The step does not overrun the log of `p`. -/
def KeepsLeaderLog (p : Fin n) (s : Cluster n C D) (e : Event n C D) : Prop :=
  ¬ s.OverrunsLeader p e

instance (s : Cluster n C D) (p : Fin n) (t : Nat) : Decidable (s.IsLeaderOf p t) :=
  inferInstanceAs (Decidable (_ ∧ _))

instance (s : Cluster n C D) (p : Fin n) (e : Event n C D) : Decidable (s.OverrunsLeader p e) :=
  inferInstanceAs (Decidable (∃ call ∈ s.snapshotRequestOf e, _))

instance (p : Fin n) (s : Cluster n C D) (e : Event n C D) : Decidable (KeepsLeaderLog p s e) :=
  inferInstanceAs (Decidable (¬ _))

/-- One step of a leader extends its log by what is started. -/
theorem leader_extends_step {e : Event n C D} {p : Fin n} {t : Nat}
    (hok : KeepsLeaderLog p s e) (hlead : s.IsLeaderOf p t) (hl' : s'.IsLeaderOf p t)
    (h : s.step e = some s') :
    (s.peers p).Extends (s'.peers p) (startedEntry p t e).toList := by
  obtain ⟨hl, ht⟩ := hlead
  rcases leader_log_step h hl hl'.1 with ⟨hne, hlogs, hsnap⟩ | ⟨c, rfl, hrf⟩ |
    ⟨data, index, rfl, hrf⟩ | ⟨call, hcall, hdst, reply, msg, hrf⟩
  · have hnone : startedEntry p t e = none := by
      cases e with
      | start q c =>
          have hqp : q ≠ p := fun hqp => hne c (by rw [hqp])
          simp [startedEntry, hqp]
      | _ => rfl
    rw [hnone]
    exact .of_eq hlogs hsnap
  · rw [hrf]
    simp only [startedEntry, if_true, Option.toList_some]
    rw [← ht]
    exact Raft.start_extends hl c
  · exact Raft.newSnapShot_extends hrf
  · have hnone : startedEntry p t e = none := by
      cases e with
      | installSnapshot k => rfl
      | _ => cases hcall
    rw [hnone]
    refine Raft.installSnapshot_extends hrf fun hterm hsnap => ?_
    by_contra hlt
    exact hok ⟨call, hcall, hdst, hl, hterm, hsnap, not_le.mp hlt⟩

/-- An overrun makes the log longer without a call of `Start`. -/
theorem keepsLeaderLog_of_extends {e : Event n C D} {p : Fin n} {t : Nat}
    (h : s.step e = some s')
    (hext : (s.peers p).Extends (s'.peers p) ([e].filterMap (startedEntry p t))) :
    KeepsLeaderLog p s e := by
  rintro ⟨call, hcall, rfl, -, hterm, hsnap, hlast⟩
  cases e with
  | installSnapshot k =>
      obtain ⟨call', rf, reply, msg, hat, his, rfl⟩ := stepInstallSnapshot_eq_some h
      cases hat.symm.trans hcall
      have hle := Raft.lastIncludedIndex_le_lastIndex his hterm hsnap
      have heq : (Function.update s.peers call.dst rf call.dst).lastIndex =
        (s.peers call.dst).lastIndex + (0 : Nat) := hext.lastIndex_eq
      rw [Function.update_self] at heq
      omega
  | _ => cases hcall

theorem leader_extends_run {p : Fin n} {t : Nat} {es : List (Event n C D)}
    (hok : Machine.Along step (KeepsLeaderLog p) s es)
    (hstay : ∀ before after u, es = before ++ after → Machine.run step s before = some u →
      u.IsLeaderOf p t) (hrun : Machine.run step s es = some s') :
    (s.peers p).Extends (s'.peers p) (es.filterMap (startedEntry p t)) := by
  induction es generalizing s with
  | nil =>
      obtain rfl : s = s' := by simpa using hrun
      exact .of_eq rfl rfl
  | cons e es ih =>
      obtain ⟨u, hu, hrest⟩ := Machine.run_cons hrun
      have hstay' : ∀ before after v, es = before ++ after → Machine.run step u before = some v →
          v.IsLeaderOf p t := by
        intro before after v hes hv
        refine hstay (e :: before) after v (by rw [hes, List.cons_append]) ?_
        rw [Machine.run, hu]
        exact hv
      have hfirst := leader_extends_step hok.1 (hstay [] _ s rfl rfl) (hstay' [] es u rfl rfl) hu
      have hall := hfirst.trans (ih (hok.2 u hu) hstay' hrest)
      rw [List.filterMap_cons]
      cases hse : startedEntry p t e with
      | none => simpa [hse] using hall
      | some entry => simpa [hse] using hall

/-- **Leader Append-Only.** While a peer stays leader of one term, its log above its snapshot is
between any two moments what it was, followed by the commands given to `Start`, if and only if no
snapshot that ends beyond its log is installed. -/
theorem leader_append_only_iff {p : Fin n} {t : Nat} {es : List (Event n C D)}
    (hstay : ∀ before after u, es = before ++ after → Machine.run step s before = some u →
      u.IsLeaderOf p t) (hrun : Machine.run step s es = some s') :
    Machine.Along step (KeepsLeaderLog p) s es ↔
      ∀ before segment after u v, es = before ++ segment ++ after →
        Machine.run step s before = some u → Machine.run step u segment = some v →
        (u.peers p).Extends (v.peers p) (segment.filterMap (startedEntry p t)) := by
  refine Machine.segments_iff_along (R := fun u segment v =>
    (u.peers p).Extends (v.peers p) (segment.filterMap (startedEntry p t))) hrun ?_ ?_
  · intro before segment after u v hes hu hv _ hok
    refine leader_extends_run hok (fun first rest w hsplit hw => ?_) hv
    refine hstay (before ++ first) (rest ++ after) w ?_ ?_
    · rw [hes, hsplit]
      simp only [List.append_assoc]
    · rw [Machine.run_append, hu]
      exact hw
  · exact fun _ _ _ _ hs hext => keepsLeaderLog_of_extends hs hext

/-- The leader of `oneElection` takes two commands, commits and compacts them, and takes a
third one. -/
def leadAndCompact : List (Event 3 Nat Unit) :=
  [.start 0 (some 10), .start 0 (some 11), .consistencyCheck 0 1, .appendEntries 1,
   .appendReply 1, .newSnapShot 0 (some ()) 2, .start 0 (some 12)]

theorem leader_append_only_iff_leadAndCompact :
    ∃ s s', runFrom oneElection = some s ∧ Machine.run step s leadAndCompact = some s' ∧
      (s'.peers 0).snapshotIndex = 2 ∧
      (s.peers 0).Extends (s'.peers 0) [⟨1, some 10⟩, ⟨1, some 11⟩, ⟨1, some 12⟩] := by
  have hrun : (runFrom oneElection).any (fun s =>
      Machine.Along step (KeepsLeaderLog 0) s leadAndCompact ∧
      Machine.Along step (fun u _ => u.IsLeaderOf 0 1) s leadAndCompact ∧
      (Machine.run step s leadAndCompact).any (fun s' =>
        (s'.peers 0).snapshotIndex = 2 ∧ s'.IsLeaderOf 0 1)) = true := by decide
  simp only [Option.any_eq_true, decide_eq_true_eq] at hrun
  obtain ⟨s, hs, hok, hstay, s', hs', hsnap, hlead⟩ := hrun
  have hext := (leader_append_only_iff (Machine.always_of_along hstay hlead hs') hs').mp hok
  exact ⟨s, s', hs, hs', hsnap, hext [] _ [] s s' (by simp) rfl hs'⟩

/-- Peer 0 leads term 1 with one entry of its own. Peer 1 leads term 2, commits two entries
with peer 2, compacts them and sends peer 0 the snapshot. -/
def overrun : List (Event 3 Nat Unit) :=
  [.canvassVotes 0, .requestVote 0, .voteReply 0, .start 0 (some 10),
   .canvassVotes 1, .requestVote 3, .voteReply 3, .start 1 (some 20), .start 1 (some 21),
   .consistencyCheck 1 2, .appendEntries 0, .appendReply 0,
   .newSnapShot 1 (some ()) 2, .consistencyCheck 1 0]

/-- The snapshot replaces the log of peer 0, which stays leader of term 1: its log is longer
without any call of `Start`. -/
theorem leader_log_replaced :
    ∃ s s', runFrom overrun = some s ∧ s.step (.installSnapshot 0) = some s' ∧
      s.IsLeaderOf 0 1 ∧ s'.IsLeaderOf 0 1 ∧
      (s.peers 0).lastIndex = 1 ∧ (s'.peers 0).lastIndex = 2 ∧
      (s'.peers 0).termAt 2 = some 2 ∧
      ¬ (s.peers 0).Extends (s'.peers 0) [] := by
  have hrun : (runFrom overrun).any (fun s => (s.step (.installSnapshot 0)).any (fun s' =>
      s.IsLeaderOf 0 1 ∧ s'.IsLeaderOf 0 1 ∧
      (s.peers 0).lastIndex = 1 ∧ (s'.peers 0).lastIndex = 2 ∧
      (s'.peers 0).termAt 2 = some 2)) = true := by decide
  simp only [Option.any_eq_true, decide_eq_true_eq] at hrun
  obtain ⟨s, hs, s', hs', hl, hl', hlast, hlast', hterm⟩ := hrun
  refine ⟨s, s', hs, hs', hl, hl', hlast, hlast', hterm, fun hext => ?_⟩
  have heq := hext.lastIndex_eq
  rw [hlast, hlast'] at heq
  simp at heq

end Cluster

end RaftLab
