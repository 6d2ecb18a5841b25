import RaftLab.Raft.Window
import RaftLab.Cluster.Model

set_option autoImplicit false

/-! # Installing a snapshot over a log

`InstallSnapshot` keeps every entry above `LastIncludedIndex` without looking at the term of
its own entry there. The kept entries follow the snapshot in some history only if that term
is `LastIncludedTerm`; otherwise they belong to another history, and the terms of the new log
may fall and contradict the logs of other peers.
-/

namespace RaftLab.Raft

variable {n : Nat} {C D : Type}

/-- What is above `LastIncludedIndex` afterwards: the old entries if the old entry at
`LastIncludedIndex` is the one the snapshot ends with, and nothing otherwise. -/
def KeepsConsistentSuffix (rf rf' : Raft n C D) (args : InstallSnapshotArgs n D) : Prop :=
  ∀ i, args.lastIncludedIndex < i →
    rf'.entryAt i =
      if rf.termAt args.lastIncludedIndex = some args.lastIncludedTerm then rf.entryAt i else none

/-- The peer's log obeys the laws of the log after the step if it did before. -/
def KeepsLogLaws (rf rf' : Raft n C D) : Prop :=
  (rf.NondecreasingTerms → rf'.NondecreasingTerms) ∧
    ∀ other : Raft n C D, rf.LogMatching other → rf'.LogMatching other

section install

variable {rf : Raft n C D} {args : InstallSnapshotArgs n D}

/-- Over an entry of the snapshot's own term the snapshot only cuts the log off. -/
theorem installAt_cutFrom (hlast : rf.snapshotIndex < args.lastIncludedIndex)
    (hsame : rf.termAt args.lastIncludedIndex = some args.lastIncludedTerm) :
    (rf.installAt args
      (rf.logs.drop (args.lastIncludedIndex - rf.snapshotIndex + 1).toNat)).CutFrom rf where
  snapshotIndex_le := le_of_lt hlast
  termAt_eq i hi := by
    rcases eq_or_lt_of_le hi with rfl | hi
    · exact (termAt_installAt rf args _).trans hsame.symm
    · rw [termAt, termAt, entryAt_installAt hlast hi]
  entryAt_eq i hi := entryAt_installAt hlast hi

/-- A log that consists of the snapshot alone obeys the laws. -/
theorem keepsLogLaws_installAt_nil (rf : Raft n C D) (args : InstallSnapshotArgs n D) :
    rf.KeepsLogLaws (rf.installAt args []) := by
  have honly : ∀ i t, (rf.installAt args []).termAt i = some t →
      i = args.lastIncludedIndex ∧ t = args.lastIncludedTerm := by
    intro i t h
    have hb := termAt_eq_some h
    have hi : i = args.lastIncludedIndex := by
      simp only [installAt, lastIndex, List.length_singleton] at hb
      omega
    subst hi
    rw [termAt_installAt] at h
    exact ⟨rfl, (Option.some.inj h).symm⟩
  constructor
  · intro _ i j s t _ hs ht
    rw [(honly i s hs).2, (honly j t ht).2]
  · intro other _ i t hi ho j hji hj _
    -- the only index the log has is that of the snapshot itself
    have hii := (honly i t hi).1
    have hjj : j = i := by
      have hle : args.lastIncludedIndex ≤ j := hj
      omega
    subst hjj
    refine ⟨hi.trans ho.symm, fun hlt => ?_⟩
    have hlt : args.lastIncludedIndex < j := hlt
    omega

end install

/-- **Snapshots over a log.** A snapshot above the receiver's own leaves exactly the entries
that follow it, and keeps the laws of the log, if and only if the receiver has no entries
above `LastIncludedIndex` or its entry there has term `LastIncludedTerm`. -/
theorem installSnapshot_keeps_suffix_iff (rf : Raft n C D) (args : InstallSnapshotArgs n D)
    (hlast : rf.snapshotIndex < args.lastIncludedIndex) :
    (∃ rf' reply msg, rf.installSnapshot args = some (rf', reply, msg) ∧
      rf.KeepsConsistentSuffix rf' args ∧ rf.KeepsLogLaws rf') ↔
    (rf.lastIndex ≤ args.lastIncludedIndex ∨
      rf.termAt args.lastIncludedIndex = some args.lastIncludedTerm) := by
  -- whether the request is stale or not, nothing above `LastIncludedIndex` is lost
  have hkept : ∀ rf' reply msg, rf.installSnapshot args = some (rf', reply, msg) →
      ∀ i, args.lastIncludedIndex < i → rf'.entryAt i = rf.entryAt i := by
    intro rf' reply msg h i hi
    by_cases hterm : rf.currentTerm ≤ args.term
    · rw [installSnapshot_of_le hterm hlast] at h
      cases h
      exact entryAt_installAt hlast hi
    · rw [installSnapshot_of_lt (by omega)] at h
      cases h
      rfl
  have hnone : rf.lastIndex ≤ args.lastIncludedIndex →
      ∀ i, args.lastIncludedIndex < i → rf.entryAt i = none :=
    fun hle i hi => entryAt_eq_none_iff.mpr (Or.inr (by omega))
  constructor
  · rintro ⟨rf', reply, msg, h, hsuffix, -⟩
    by_contra hcond
    rw [not_or, not_le] at hcond
    have hgone := hsuffix rf.lastIndex hcond.1
    rw [if_neg hcond.2, hkept rf' reply msg h _ hcond.1, entryAt_eq_none_iff] at hgone
    omega
  · intro hcond
    have hsuffix : ∀ rf' reply msg, rf.installSnapshot args = some (rf', reply, msg) →
        rf.KeepsConsistentSuffix rf' args := by
      intro rf' reply msg h i hi
      rw [hkept rf' reply msg h i hi]
      split
      · rfl
      · rename_i hne
        exact hnone (hcond.resolve_right hne) i hi
    by_cases hterm : rf.currentTerm ≤ args.term
    · have h := installSnapshot_of_le hterm hlast
      refine ⟨_, _, _, h, hsuffix _ _ _ h, ?_⟩
      rcases hcond with hle | hsame
      · rw [List.drop_eq_nil_of_le (by rw [lastIndex] at hle; omega)]
        exact keepsLogLaws_installAt_nil rf args
      · have hcut := installAt_cutFrom hlast hsame
        exact ⟨hcut.nondecreasingTerms, fun other => hcut.logMatching⟩
    · have h : rf.installSnapshot args = _ := installSnapshot_of_lt (not_le.mp hterm)
      exact ⟨rf, _, _, h, hsuffix _ _ _ h, id, fun _ hm => hm⟩

/-- A peer with two entries and a snapshot that ends with the first of them. -/
theorem installSnapshot_keeps_suffix_iff_matching :
    let rf : Raft 3 Nat Unit := { make 0 Persister.makePersister with
      logs := [⟨0, none⟩, ⟨1, some 10⟩, ⟨1, some 11⟩] }
    let args : InstallSnapshotArgs 3 Unit := ⟨1, 1, 1, 1, none⟩
    rf.snapshotIndex < args.lastIncludedIndex ∧
      ∃ rf' reply msg, rf.installSnapshot args = some (rf', reply, msg) ∧
        rf.KeepsConsistentSuffix rf' args ∧ rf.KeepsLogLaws rf' :=
  ⟨by decide, (installSnapshot_keeps_suffix_iff _ _ (by decide)).mpr (by decide)⟩

end RaftLab.Raft

namespace RaftLab.Cluster

/-- Peer 0 leads term 1 and keeps two entries to itself. Peer 1 leads term 2, commits one
entry with peer 2, compacts its log and sends peer 0 the snapshot. -/
def conflictingSuffix : List (Event 3 Nat Unit) :=
  [.canvassVotes 0, .requestVote 0, .voteReply 0, .start 0 (some 10), .start 0 (some 11),
   .canvassVotes 1, .requestVote 3, .voteReply 3, .start 1 (some 20),
   .consistencyCheck 1 2, .appendEntries 0, .appendReply 0,
   .newSnapShot 1 (some ()) 1, .consistencyCheck 1 0]

/-- A snapshot of a committed entry is installed in front of an entry of another history:
the terms of the log fall. -/
theorem snapshot_before_conflicting_entry :
    ∃ s call rf' reply msg, runFrom conflictingSuffix = some s ∧
      requestAt s.snapshotCalls 0 = some call ∧
      -- the snapshot ends with an entry that its sender has committed
      call.args.lastIncludedIndex ≤ (s.peers call.src).commitIndex ∧
      (s.peers call.src).termAt call.args.lastIncludedIndex = some call.args.lastIncludedTerm ∧
      (s.peers call.dst).snapshotIndex < call.args.lastIncludedIndex ∧
      (s.peers call.dst).installSnapshot call.args = some (rf', reply, msg) ∧
      ¬ (s.peers call.dst).KeepsConsistentSuffix rf' call.args ∧
      (s.peers call.dst).NondecreasingTerms ∧ ¬ rf'.NondecreasingTerms := by
  have hrun : (runFrom conflictingSuffix).any (fun s => (requestAt s.snapshotCalls 0).any
      (fun call => ((s.peers call.dst).installSnapshot call.args).any (fun out =>
        call.args.lastIncludedIndex ≤ (s.peers call.src).commitIndex ∧
        (s.peers call.src).termAt call.args.lastIncludedIndex = some call.args.lastIncludedTerm ∧
        (s.peers call.dst).snapshotIndex < call.args.lastIncludedIndex ∧
        call.args.lastIncludedIndex < 2 ∧
        (s.peers call.dst).termAt call.args.lastIncludedIndex ≠ some call.args.lastIncludedTerm ∧
        out.1.entryAt 2 ≠ none ∧
        (s.peers call.dst).NondecreasingTerms ∧ ¬ out.1.NondecreasingTerms))) = true := by
    decide
  simp only [Option.any_eq_true, decide_eq_true_eq] at hrun
  obtain ⟨s, hs, call, hcall, ⟨rf', reply, msg⟩, hout, hcommit, hterm, hsnap, htwo, hne, hkept,
    hmono, hfall⟩ := hrun
  refine ⟨s, call, rf', reply, msg, hs, hcall, hcommit, hterm, hsnap, hout, ?_, hmono, hfall⟩
  intro hsuffix
  have hgone := hsuffix 2 htwo
  rw [if_neg hne] at hgone
  exact hkept hgone

end RaftLab.Cluster
