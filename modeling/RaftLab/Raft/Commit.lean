import RaftLab.Lib.Median
import RaftLab.Raft.Window

set_option autoImplicit false

/-! # The commit rule

`updateCommitIndex` reads one position of a sorted copy of `matchIndex` and tests the term of one
entry. Here it is compared with the rule it stands for: commit up to the greatest index, above
`commitIndex` and the snapshot, that enough peers hold and whose entry is of the current term.

* `commit_rule_and_quorums` — with `n - n / 2` as "enough", the code follows the rule, and the
  peers that hold the new index meet every set of `n / 2 + 1` peers, which is the number of votes
  an election takes;
* `strict_majority_iff` — the peers that hold the new index are more than half of all peers when
  `n` is odd; for an even `n` this needs the two middle values of `matchIndex` to be equal.
-/

namespace RaftLab.Raft

variable {n : Nat} {C D : Type} {rf rf' : Raft n C D} {N target : Int}

/-- The peers whose `matchIndex` has reached `N`. -/
def holders (rf : Raft n C D) (N : Int) : Finset (Fin n) :=
  Finset.univ.filter (fun i => N ≤ rf.matchIndex i)

/-- The leader may commit up to `N`: it is new, at least `n - n / 2` peers hold it, and its entry
is of the current term. -/
structure Committable (rf : Raft n C D) (N : Int) : Prop where
  new : max rf.commitIndex rf.snapshotIndex < N
  held : n - n / 2 ≤ (rf.holders N).card
  own : rf.termAt N = some rf.currentTerm

/-! ## The sorted copy -/

/-- Position `m` of the sorted copy of `matchIndex`. -/
def sortedMatch (rf : Raft n C D) (m : Nat) : Option Int :=
  (((List.finRange n).map rf.matchIndex).insertionSort (· ≤ ·))[m]?

theorem exists_sortedMatch (rf : Raft n C D) {m : Nat} (hm : m < n) :
    ∃ x, rf.sortedMatch m = some x := by
  refine ⟨_, List.getElem?_eq_getElem ?_⟩
  rwa [List.length_insertionSort, List.length_map, List.length_finRange]

theorem exists_medianMatch (rf : Raft n C D) (i : Fin n) :
    ∃ target, rf.medianMatch = some target :=
  rf.exists_sortedMatch (Nat.div_lt_self i.pos (by decide))

/-- An index is at most the value at position `m` when all but `m` peers hold it. -/
theorem le_sortedMatch_iff {m : Nat} {x : Int} (hx : rf.sortedMatch m = some x) (N : Int) :
    N ≤ x ↔ n - m ≤ (rf.holders N).card :=
  Median.le_sorted_table_iff hx N

/-- What `updateCommitIndex` tests before it advances to `target`. -/
structure AdvancesTo (rf : Raft n C D) (target : Int) : Prop where
  median : rf.sortedMatch (n / 2) = some target
  commitIndex_lt : rf.commitIndex < target
  snapshotIndex_lt : rf.snapshotIndex < target
  own : rf.termAt target = some rf.currentTerm

theorem updateCommitIndex_of_advances (h : rf.AdvancesTo target) :
    rf.updateCommitIndex = some { rf with commitIndex := target } := by
  have hmedian : rf.medianMatch = some target := h.median
  obtain ⟨e, he, ht⟩ := Option.map_eq_some_iff.mp h.own
  have he : Slice.index rf.logs (target - rf.snapshotIndex) = some e := he
  simp only [updateCommitIndex, hmedian, Option.bind_eq_bind, Option.bind_some]
  rw [if_pos ⟨h.commitIndex_lt, h.snapshotIndex_lt⟩, he, Option.bind_some, if_pos ht]
  rfl

/-- Without an index to advance to, and with the median inside the log, nothing changes. -/
theorem updateCommitIndex_of_not_advances (hmedian : rf.medianMatch = some target)
    (hlast : target ≤ rf.lastIndex) (hno : ¬ rf.AdvancesTo target) :
    rf.updateCommitIndex = some rf := by
  simp only [updateCommitIndex, hmedian, Option.bind_eq_bind, Option.bind_some]
  split
  · rename_i hlt
    obtain ⟨e, he⟩ : ∃ e, rf.entryAt target = some e := by
      rw [← Option.ne_none_iff_exists', Ne, entryAt_eq_none_iff]
      omega
    have hindex : Slice.index rf.logs (target - rf.snapshotIndex) = some e := he
    rw [hindex, Option.bind_some]
    split
    · rename_i ht
      refine absurd ⟨hmedian, hlt.1, hlt.2, ?_⟩ hno
      rw [termAt, he, Option.map_some, ht]
    · rfl
  · rfl

/-- Raising `commitIndex` is advancing. -/
theorem advancesTo_of_lt (h : rf.updateCommitIndex = some rf')
    (hlt : rf.commitIndex < rf'.commitIndex) : rf.AdvancesTo rf'.commitIndex := by
  rcases updateCommitIndex_cases h with rfl | ⟨target, hm, hc, hs, ⟨e, he, ht⟩, rfl⟩
  · exact absurd hlt (lt_irrefl _)
  · refine ⟨hm, hc, hs, ?_⟩
    show Option.map _ (Slice.index rf.logs (target - rf.snapshotIndex)) = _
    rw [he, Option.map_some, ht]

/-! ## The commit rule -/

theorem AdvancesTo.isGreatest (h : rf.AdvancesTo target) :
    IsGreatest {N | rf.Committable N} target := by
  constructor
  · refine ⟨max_lt h.commitIndex_lt h.snapshotIndex_lt, ?_, h.own⟩
    exact (le_sortedMatch_iff h.median target).mp (le_refl target)
  · intro N hN
    exact (le_sortedMatch_iff h.median N).mpr hN.held

/-- The terms rise to the current one, so that with an index that may be committed the median is
one that may be committed. -/
theorem Committable.advancesTo (h : rf.Committable N) (hmono : rf.NondecreasingTerms)
    (hcur : ∀ i t, rf.termAt i = some t → t ≤ rf.currentTerm)
    (hmedian : rf.medianMatch = some target) (hlast : target ≤ rf.lastIndex) :
    rf.AdvancesTo target := by
  have hle : N ≤ target := (le_sortedMatch_iff hmedian N).mpr h.held
  obtain ⟨hcommit, hsnap⟩ := max_lt_iff.mp h.new
  obtain ⟨t, ht⟩ : ∃ t, rf.termAt target = some t := by
    rw [← Option.ne_none_iff_exists', Ne, termAt_eq_none_iff]
    omega
  have heq : t = rf.currentTerm := Nat.le_antisymm (hcur _ _ ht) (hmono _ _ _ _ hle h.own ht)
  exact ⟨hmedian, by omega, by omega, heq ▸ ht⟩

/-! ## The votes an election takes -/

/-- The reply handler of one election run on `replies` in order, with the counter at `votes`. -/
def tally (voteArgs : RequestVoteArgs n) : Raft n C D → Nat → List RequestVoteReply → Raft n C D
  | rf, _, [] => rf
  | rf, votes, reply :: replies =>
      let (rf', votes') := rf.voteReplyHandler voteArgs votes reply
      tally voteArgs rf' votes' replies

theorem tally_of_leader {voteArgs : RequestVoteArgs n} {replies : List RequestVoteReply} :
    ∀ {votes : Nat}, rf.state = .leader → rf.tally voteArgs votes replies = rf := by
  induction replies with
  | nil => exact fun _ => rfl
  | cons reply replies ih =>
      intro votes hl
      have hignored : rf.voteReplyHandler voteArgs votes reply = (rf, votes) := by
        simp [voteReplyHandler, hl]
      rw [tally, hignored]
      exact ih hl

/-- A candidate whose counter is at `votes` leads after the replies exactly when the granted ones
bring it beyond half of the peers. -/
theorem tally_leads_iff {voteArgs : RequestVoteArgs n} {replies : List RequestVoteReply} :
    ∀ {votes : Nat}, rf.state = .candidate → votes ≤ n / 2 →
      (∀ reply ∈ replies, reply.currentTerm ≤ voteArgs.term) →
      ((rf.tally voteArgs votes replies).state = .leader ↔
        n / 2 + 1 ≤ votes + replies.countP (·.voteGranted)) := by
  induction replies with
  | nil =>
      intro votes hc hv _
      rw [tally, hc, List.countP_nil]
      simp only [reduceCtorEq, false_iff]
      omega
  | cons reply replies ih =>
      intro votes hc hv hterms
      have hterm : ¬ voteArgs.term < reply.currentTerm :=
        Nat.not_lt.mpr (hterms reply List.mem_cons_self)
      have hrest : ∀ r ∈ replies, r.currentTerm ≤ voteArgs.term := fun r hr =>
        hterms r (List.mem_cons_of_mem _ hr)
      rw [tally, List.countP_cons]
      cases hg : reply.voteGranted with
      | false =>
          have hstay : rf.voteReplyHandler voteArgs votes reply = (rf, votes) := by
            simp [voteReplyHandler, hg, hterm]
          rw [hstay]
          simpa using ih hc hv hrest
      | true =>
          by_cases hhalf : votes = n / 2
          · -- the vote that makes it leader; the later replies are ignored
            have hwin : rf.voteReplyHandler voteArgs votes reply
                = ({ rf with state := .leader }.resetOnElection, votes) := by
              simp [voteReplyHandler, hc, hg, hterm, hhalf]
            rw [hwin]
            dsimp only
            rw [tally_of_leader rfl]
            refine iff_of_true rfl ?_
            simp only [if_true]
            omega
          · have hcount : rf.voteReplyHandler voteArgs votes reply = (rf, votes + 1) := by
              simp [voteReplyHandler, hc, hg, hterm, hhalf]
            rw [hcount]
            dsimp only
            rw [ih hc (by omega) hrest]
            simp only [if_true]
            omega

/-- **The commit rule and the quorums.** A leader whose terms never fall and stay at or below its
own, and whose `matchIndex` stays inside its log, sets `commitIndex` to the greatest index it may
commit, and leaves it alone if there is none. The peers that hold the new index meet every set of
`n / 2 + 1` peers; and a candidate becomes leader with the vote that makes, together with its own,
`n / 2 + 1`. -/
theorem commit_rule_and_quorums {rf : Raft n C D} (hn : 2 ≤ n) (hmono : rf.NondecreasingTerms)
    (hcur : ∀ i t, rf.termAt i = some t → t ≤ rf.currentTerm)
    (hmatch : ∀ i, rf.matchIndex i ≤ rf.lastIndex) :
    (∃ rf', rf.updateCommitIndex = some rf' ∧
      ((∃ N, IsGreatest {N | rf.Committable N} N ∧ rf' = { rf with commitIndex := N } ∧
          ∀ V : Finset (Fin n), V.card = n / 2 + 1 → ∃ p ∈ V, p ∈ rf.holders N) ∨
        ((∀ N, ¬ rf.Committable N) ∧ rf' = rf))) ∧
    (∀ (cand cand' : Raft n C D) (voteArgs : RequestVoteArgs n) (replies : List RequestVoteReply),
      cand.fillRequestVoteArgs = some (cand', voteArgs) →
      (∀ reply ∈ replies, reply.currentTerm ≤ voteArgs.term) →
      ((cand'.tally voteArgs 1 replies).state = .leader ↔
        n / 2 + 1 ≤ 1 + replies.countP (·.voteGranted))) := by
  constructor
  · obtain ⟨target, hmedian⟩ := rf.exists_medianMatch rf.me
    have hlast : target ≤ rf.lastIndex := by
      -- somebody holds the median
      have hheld := (le_sortedMatch_iff hmedian target).mp (le_refl target)
      obtain ⟨i, hi⟩ : (rf.holders target).Nonempty := Finset.card_pos.mp (by omega)
      exact le_trans (Finset.mem_filter.mp hi).2 (hmatch i)
    by_cases hadv : rf.AdvancesTo target
    · refine ⟨_, updateCommitIndex_of_advances hadv, .inl ⟨target, hadv.isGreatest, rfl, ?_⟩⟩
      intro V hV
      exact Median.exists_mem_both (by rw [Fintype.card_fin]; omega)
        (by rw [Fintype.card_fin]; exact hadv.isGreatest.1.held)
    · refine ⟨rf, updateCommitIndex_of_not_advances hmedian hlast hadv, .inr ⟨?_, rfl⟩⟩
      exact fun N hN => hadv (hN.advancesTo hmono hcur hmedian hlast)
  · intro cand cand' voteArgs replies hfill hterms
    obtain ⟨rfl, -, -, -⟩ := fillRequestVoteArgs_eq_some hfill
    exact tally_leads_iff rfl (by omega) hterms

/-- Three peers: the leader of term 2 has two entries of its term and one follower holds both. -/
def leaderOfTwoEntries : Raft 3 Nat Unit :=
  { newborn 0 Persister.makePersister with
    state := .leader
    currentTerm := 2
    logs := [⟨0, none⟩, ⟨1, some 5⟩, ⟨2, some 6⟩, ⟨2, some 7⟩]
    matchIndex := ![3, 3, 1] }

theorem commit_rule_and_quorums_leaderOfTwoEntries :
    ∃ rf', leaderOfTwoEntries.updateCommitIndex = some rf' ∧
      ((∃ N, IsGreatest {N | leaderOfTwoEntries.Committable N} N ∧
          rf' = { leaderOfTwoEntries with commitIndex := N } ∧
          ∀ V : Finset (Fin 3), V.card = 2 → ∃ p ∈ V, p ∈ leaderOfTwoEntries.holders N) ∨
        ((∀ N, ¬ leaderOfTwoEntries.Committable N) ∧ rf' = leaderOfTwoEntries)) := by
  have hcur : ∀ i t, leaderOfTwoEntries.termAt i = some t → t ≤ leaderOfTwoEntries.currentTerm := by
    intro i t ht
    obtain ⟨e, he, rfl⟩ := Option.map_eq_some_iff.mp ht
    obtain ⟨k, -, hk⟩ := entryAt_eq_some he
    have hall : ∀ e ∈ leaderOfTwoEntries.logs, e.term ≤ 2 := by decide
    exact hall e (List.mem_of_getElem? hk)
  exact (commit_rule_and_quorums (by decide) (by decide) hcur (by decide)).1

/-! ## More than half -/

/-- **When more than half of the peers hold what is committed.** If `updateCommitIndex` raises
`commitIndex`, more than half of the peers hold the new index, exactly when the number of peers is
odd or, in a state in which it advances, the two middle values of the sorted `matchIndex` are
equal. -/
theorem strict_majority_iff (rf : Raft n C D) :
    (∀ rf', rf.updateCommitIndex = some rf' → rf.commitIndex < rf'.commitIndex →
      n < 2 * (rf.holders rf'.commitIndex).card) ↔
    (n % 2 = 1 ∨ ∀ target, rf.AdvancesTo target → rf.sortedMatch (n / 2 - 1) = some target) := by
  have hpos : 0 < n := rf.me.pos
  -- more than half hold an index when it is at most the lower of the two middle values
  have hmore : ∀ x N, rf.sortedMatch ((n - 1) / 2) = some x →
      (n < 2 * (rf.holders N).card ↔ N ≤ x) := by
    intro x N hx
    rw [le_sortedMatch_iff hx]
    omega
  obtain ⟨x, hx⟩ := rf.exists_sortedMatch (show (n - 1) / 2 < n by omega)
  constructor
  · intro h
    refine or_iff_not_imp_left.mpr fun heven target hadv => ?_
    have hlower : n / 2 - 1 = (n - 1) / 2 := by omega
    have hheld : n < 2 * (rf.holders target).card :=
      h _ (updateCommitIndex_of_advances hadv) hadv.commitIndex_lt
    -- the lower middle value is not above the upper one
    have hle : x ≤ target := by
      rw [le_sortedMatch_iff hadv.median]
      have := (le_sortedMatch_iff hx x).mp (le_refl x)
      omega
    rw [hlower, hx, le_antisymm hle ((hmore x target hx).mp hheld)]
  · intro h rf' hup hlt
    have hadv := advancesTo_of_lt hup hlt
    rw [hmore x _ hx]
    by_cases hodd : n % 2 = 1
    · have hsame : n / 2 = (n - 1) / 2 := by omega
      have hmedian := hadv.median
      rw [hsame, hx] at hmedian
      exact le_of_eq (Option.some.inj hmedian).symm
    · have hlower : n / 2 - 1 = (n - 1) / 2 := by omega
      have hmiddle := h.resolve_left hodd _ hadv
      rw [hlower, hx] at hmiddle
      exact le_of_eq (Option.some.inj hmiddle).symm

/-- Four peers: the leader has one entry, which one follower holds. -/
def leaderOfFour : Raft 4 Nat Unit :=
  { newborn 0 Persister.makePersister with
    state := .leader
    currentTerm := 1
    logs := [⟨0, none⟩, ⟨1, some 5⟩]
    matchIndex := ![1, 0, 0, 0] }

/-- **Two of four peers commit.** The success reply of one follower raises `commitIndex` to an
index that only the leader and that follower hold. -/
theorem half_of_four_commits :
    ∃ rf' : Raft 4 Nat Unit,
      leaderOfFour.consistencyCheckReplyHandler 1
        { currentTerm := 1, success := true, conflictTerm := 0, firstIndex := 1 }
        = some (rf', none) ∧
      (leaderOfFour.acknowledged 1 1).updateCommitIndex = some rf' ∧
      (leaderOfFour.acknowledged 1 1).commitIndex < rf'.commitIndex ∧
      ((leaderOfFour.acknowledged 1 1).holders rf'.commitIndex).card = 2 :=
  ⟨_, rfl, rfl, by decide, by decide⟩

end RaftLab.Raft
