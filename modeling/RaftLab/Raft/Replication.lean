import RaftLab.Raft.Window

set_option autoImplicit false

/-! # `AppendEntries` by absolute index

What the handler answers, and what it makes of the log, in terms of the entries at absolute
indices: one lemma for each way through the handler. The message itself is a suffix of the
leader's log, wherever `nextIndex` points, and a follower that accepts it ends where the leader's
log ended.
-/

namespace RaftLab.Raft

variable {n : Nat} {C D : Type} {rf : Raft n C D} {args : AppendEntriesArgs n C}

/-- The request is not stale and its previous entry is in the log. -/
def Accepts (rf : Raft n C D) (args : AppendEntriesArgs n C) : Prop :=
  rf.currentTerm ≤ args.term ∧ rf.termAt args.prevLogIndex = some args.prevLogTerm

instance (rf : Raft n C D) (args : AppendEntriesArgs n C) : Decidable (rf.Accepts args) :=
  inferInstanceAs (Decidable (_ ∧ _))

section hearLeader

variable (h : rf.currentTerm ≤ args.term)
include h

theorem hearLeader_logs : (rf.hearLeader args).logs = rf.logs := by rw [hearLeader_eq h]

theorem hearLeader_snapshotIndex : (rf.hearLeader args).snapshotIndex = rf.snapshotIndex := by
  rw [hearLeader_eq h]

theorem hearLeader_commitIndex : (rf.hearLeader args).commitIndex = rf.commitIndex := by
  rw [hearLeader_eq h]

theorem hearLeader_entryAt (i : Int) : (rf.hearLeader args).entryAt i = rf.entryAt i := by
  rw [entryAt, entryAt, hearLeader_logs h, hearLeader_snapshotIndex h]

theorem hearLeader_lastIndex : (rf.hearLeader args).lastIndex = rf.lastIndex := by
  rw [lastIndex, lastIndex, hearLeader_logs h, hearLeader_snapshotIndex h]

theorem hearLeader_termAt (i : Int) : (rf.hearLeader args).termAt i = rf.termAt i := by
  rw [termAt, termAt, hearLeader_entryAt h]

end hearLeader

/-- The handler finds its own entry at `PrevLogIndex`. -/
theorem prevEntry_of_termAt {prev : Int} {t : Nat} (h : rf.termAt prev = some t) :
    rf.prevEntry prev = some (prev, t) := by
  obtain ⟨e, he, rfl⟩ := Option.map_eq_some_iff.mp h
  have hle := (termAt_eq_some h).2
  rw [lastIndex] at hle
  unfold prevEntry
  rw [if_pos (by omega), show Slice.index rf.logs (prev - rf.snapshotIndex) = some e from he]
  rfl

/-- The log is too short for the request. -/
theorem prevEntry_of_lt {prev : Int} (h : rf.lastIndex < prev) :
    rf.prevEntry prev = some (0, 0) := by
  rw [lastIndex] at h
  unfold prevEntry
  rw [if_neg (by omega)]
  rfl

/-- The handler after the term, the role and the snapshot have been looked at. -/
theorem appendEntries_of_prevEntry {i : Int} {t : Nat} (hle : rf.currentTerm ≤ args.term)
    (hsnap : rf.snapshotIndex ≤ args.prevLogIndex)
    (hprev : (rf.hearLeader args).prevEntry args.prevLogIndex = some (i, t)) :
    rf.appendEntries args =
      if i = args.prevLogIndex ∧ t = args.prevLogTerm then (rf.hearLeader args).appendAccept args i
      else (rf.hearLeader args).appendConflict i t := by
  unfold appendEntries
  rw [if_neg (by omega)]
  simp only
  rw [if_neg (by rw [hearLeader_snapshotIndex hle]; omega), hprev]
  rfl

/-! ## Accepted requests -/

theorem appendAccept_of_lt {k : Nat} (hk : k < rf.logs.length) :
    ∃ t, rf.appendAccept args (rf.snapshotIndex + k) =
      some (rf.accepted args k,
        { currentTerm := 0, success := true, conflictTerm := t,
          firstIndex := rf.snapshotIndex + k + args.entries.length }) := by
  have htake : Slice.takeTo rf.logs (rf.snapshotIndex + k - rf.snapshotIndex + 1)
      = some (rf.logs.take (k + 1)) := by
    rw [add_sub_cancel_left, ← Nat.cast_add_one]
    exact Slice.takeTo_natCast (by omega)
  have hlast : rf.snapshotIndex + ((rf.logs.take (k + 1) ++ args.entries).length : Int) - 1
      = rf.snapshotIndex + k + args.entries.length := by
    rw [List.length_append, List.length_take]
    omega
  obtain ⟨e, he⟩ : ∃ e, Slice.index (rf.logs.take (k + 1) ++ args.entries)
      (rf.snapshotIndex + k + args.entries.length - rf.snapshotIndex) = some e := by
    rw [← Option.ne_none_iff_exists', Ne, Slice.index_eq_none_iff]
    rw [← hlast]
    omega
  refine ⟨e.term, ?_⟩
  unfold appendAccept
  rw [htake]
  simp only [Option.bind_eq_bind, Option.bind_some, hlast, he]
  rfl

section accepted

variable {k : Nat} (hk : k < rf.logs.length)
include hk

theorem accepted_lastIndex :
    (rf.accepted args k).lastIndex = rf.snapshotIndex + k + args.entries.length := by
  show rf.snapshotIndex + ((rf.logs.take (k + 1) ++ args.entries).length : Int) - 1 = _
  rw [List.length_append, List.length_take]
  omega

theorem accepted_entryAt_of_le {i : Int} (hi : i ≤ rf.snapshotIndex + k) :
    (rf.accepted args k).entryAt i = rf.entryAt i := by
  show Slice.index (rf.logs.take (k + 1) ++ args.entries) (i - rf.snapshotIndex) =
    Slice.index rf.logs (i - rf.snapshotIndex)
  rw [Slice.index_append_left (by rw [List.length_take]; omega)]
  conv_rhs => rw [← List.take_append_drop (k + 1) rf.logs]
  rw [Slice.index_append_left (by rw [List.length_take]; omega)]

theorem accepted_entryAt_of_lt {i : Int} (hi : rf.snapshotIndex + k < i) :
    (rf.accepted args k).entryAt i =
      Slice.index args.entries (i - (rf.snapshotIndex + k) - 1) := by
  show Slice.index (rf.logs.take (k + 1) ++ args.entries) (i - rf.snapshotIndex) = _
  have hlen : ((rf.logs.take (k + 1)).length : Int) = k + 1 := by
    rw [List.length_take]
    omega
  rw [← Slice.index_append_right (s := rf.logs.take (k + 1)) (t := args.entries) (by omega), hlen]
  congr 1
  omega

end accepted

/-- An accepted request: the log is kept up to `PrevLogIndex` and goes on with the entries of
the request. -/
theorem appendEntries_of_accepts (h : rf.Accepts args) :
    ∃ rf' reply, rf.appendEntries args = some (rf', reply) ∧ reply.success = true ∧
      rf'.logs ≠ [] ∧ rf'.snapshotIndex = rf.snapshotIndex ∧
      rf'.lastIndex = args.prevLogIndex + args.entries.length ∧
      rf'.commitIndex = (if args.leaderCommit > rf.commitIndex
        then min args.leaderCommit (args.prevLogIndex + args.entries.length)
        else rf.commitIndex) ∧
      (∀ i ≤ args.prevLogIndex, rf'.entryAt i = rf.entryAt i) ∧
      ∀ i, args.prevLogIndex < i →
        rf'.entryAt i = Slice.index args.entries (i - args.prevLogIndex - 1) := by
  obtain ⟨hle, hterm⟩ := h
  obtain ⟨e, he, -⟩ := Option.map_eq_some_iff.mp hterm
  obtain ⟨k, hprev, hget⟩ := entryAt_eq_some he
  have hsnap := hearLeader_snapshotIndex hle
  have hk' : k < (rf.hearLeader args).logs.length := by
    rw [hearLeader_logs hle]
    exact (List.getElem?_eq_some_iff.mp hget).1
  obtain ⟨t, haccept⟩ : ∃ t, (rf.hearLeader args).appendAccept args _ = some (_, _) :=
    appendAccept_of_lt hk'
  -- `hearLeader` leaves the log alone, so that the entry is found there as well
  have happend : rf.appendEntries args = some ((rf.hearLeader args).accepted args k,
      { currentTerm := 0, success := true, conflictTerm := t,
        firstIndex := (rf.hearLeader args).snapshotIndex + k + args.entries.length }) := by
    rw [appendEntries_of_prevEntry hle (by omega)
      (prevEntry_of_termAt ((hearLeader_termAt hle _).trans hterm)), if_pos ⟨rfl, rfl⟩,
      ← haccept, hsnap, hprev]
  refine ⟨_, _, happend, rfl, ?_, hsnap, ?_, ?_, fun i hi => ?_, fun i hi => ?_⟩
  · apply List.ne_nil_of_length_pos
    show 0 < ((rf.hearLeader args).logs.take (k + 1) ++ args.entries).length
    rw [List.length_append, List.length_take]
    omega
  · rw [accepted_lastIndex hk', hsnap, hprev]
  · show (if args.leaderCommit > (rf.hearLeader args).commitIndex then _ else _) = _
    rw [hearLeader_commitIndex hle, hsnap, hprev]
  · rw [accepted_entryAt_of_le hk' (by rw [hsnap]; omega), hearLeader_entryAt hle]
  · rw [accepted_entryAt_of_lt hk' (by rw [hsnap]; omega), hsnap, hprev]

/-! ## Refused requests -/

theorem appendEntries_of_stale (h : args.term < rf.currentTerm) :
    rf.appendEntries args = some (rf,
      { currentTerm := rf.currentTerm, success := false, conflictTerm := 0,
        firstIndex := 0 }) := by
  unfold appendEntries
  rw [if_pos h]

/-- A request below the follower's snapshot is refused with the snapshot's own index. -/
theorem appendEntries_of_lt_snapshotIndex (hle : rf.currentTerm ≤ args.term)
    (hlt : args.prevLogIndex < rf.snapshotIndex) :
    rf.appendEntries args = some (rf.hearLeader args,
      { currentTerm := args.term, success := false, conflictTerm := rf.snapshotTerm,
        firstIndex := rf.snapshotIndex }) := by
  unfold appendEntries
  rw [if_neg (by omega)]
  simp only
  rw [if_pos (by rw [hearLeader_snapshotIndex hle]; exact hlt), hearLeader_eq hle]

theorem exists_index_last (hne : rf.logs ≠ []) :
    ∃ e, rf.entryAt rf.lastIndex = some e := by
  have hlen := List.length_pos_of_ne_nil hne
  rw [← Option.ne_none_iff_exists', Ne, entryAt_eq_none_iff, lastIndex]
  omega

/-- The answer of a follower whose own entry at `PrevLogIndex` is missing, or of term zero:
its last term, and the index after its last entry. -/
theorem appendConflict_zero (hne : rf.logs ≠ []) (i : Int) :
    ∃ t, rf.termAt rf.lastIndex = some t ∧
      rf.appendConflict i 0 = some (rf.persist,
        { currentTerm := 0, success := false, conflictTerm := t,
          firstIndex := rf.lastIndex + 1 }) := by
  obtain ⟨e, he⟩ := exists_index_last hne
  refine ⟨e.term, by rw [termAt, he]; rfl, ?_⟩
  have hread : Slice.index rf.logs (rf.lastIndex + 1 - rf.snapshotIndex - 1) = some e := by
    rw [← he, entryAt]
    congr 1
    omega
  have hfirst : (rf.logs.length : Int) + rf.snapshotIndex = rf.lastIndex + 1 := by
    rw [lastIndex]
    omega
  unfold appendConflict
  simp only [if_true, hfirst, hread, Option.bind_eq_bind, Option.bind_some]
  rfl

/-- A request beyond the follower's log. -/
theorem appendEntries_of_lastIndex_lt (hne : rf.logs ≠ []) (hsnap : 0 ≤ rf.snapshotIndex)
    (hle : rf.currentTerm ≤ args.term) (hlt : rf.lastIndex < args.prevLogIndex) :
    ∃ t, rf.termAt rf.lastIndex = some t ∧
      rf.appendEntries args = some ((rf.hearLeader args).persist,
        { currentTerm := 0, success := false, conflictTerm := t,
          firstIndex := rf.lastIndex + 1 }) := by
  have hlen := List.length_pos_of_ne_nil hne
  have hlast := hearLeader_lastIndex hle
  obtain ⟨t, ht, hconf⟩ := appendConflict_zero
    (show (rf.hearLeader args).logs ≠ [] by rw [hearLeader_logs hle]; exact hne) 0
  rw [hlast] at ht hconf
  have hsnap' : rf.snapshotIndex ≤ rf.lastIndex := by
    rw [lastIndex]
    omega
  refine ⟨t, (hearLeader_termAt hle _).symm.trans ht, ?_⟩
  rw [appendEntries_of_prevEntry hle (by omega) (prevEntry_of_lt (by rw [hlast]; exact hlt)),
    if_neg (by omega)]
  exact hconf

theorem scanConflict_le {logs : List (LogEntry C)} {t : Nat} :
    ∀ {i j : Nat}, scanConflict logs t i = some j → 1 ≤ j ∧ j ≤ i := by
  intro i
  induction i with
  | zero =>
      intro j h
      cases h
  | succ i ih =>
      intro j h
      unfold scanConflict at h
      split at h
      · obtain rfl := Option.some.inj h
        omega
      · have hj := ih h
        omega

/-- The answer of a follower with another entry at `PrevLogIndex`: its term, and where the
search for the first entry of that term ends. -/
theorem appendConflict_pos {t : Nat} (ht : t ≠ 0) (i : Int) :
    ∃ first, rf.snapshotIndex < first ∧ first ≤ max i (rf.snapshotIndex + 1) ∧
      rf.appendConflict i t = some (rf.persist,
        { currentTerm := 0, success := false, conflictTerm := t, firstIndex := first }) := by
  unfold appendConflict
  rw [if_neg ht]
  cases hscan : scanConflict rf.logs t (i - rf.snapshotIndex).toNat with
  | none => exact ⟨1 + rf.snapshotIndex, by omega, by omega, rfl⟩
  | some j =>
      have hj := scanConflict_le hscan
      exact ⟨j + rf.snapshotIndex, by omega, by omega, rfl⟩

/-- A request whose previous entry has another term in the follower's log. -/
theorem appendEntries_of_mismatch {t : Nat} (hle : rf.currentTerm ≤ args.term)
    (hterm : rf.termAt args.prevLogIndex = some t) (hne : t ≠ args.prevLogTerm) (hpos : t ≠ 0) :
    ∃ first, rf.snapshotIndex < first ∧
      first ≤ max args.prevLogIndex (rf.snapshotIndex + 1) ∧
      rf.appendEntries args = some ((rf.hearLeader args).persist,
        { currentTerm := 0, success := false, conflictTerm := t, firstIndex := first }) := by
  have hsnap := hearLeader_snapshotIndex hle
  obtain ⟨first, hfirst, hbound, hconf⟩ : ∃ first, (rf.hearLeader args).snapshotIndex < first ∧
      first ≤ max args.prevLogIndex _ ∧ (rf.hearLeader args).appendConflict _ t = some (_, _) :=
    appendConflict_pos hpos args.prevLogIndex
  rw [hsnap] at hfirst hbound
  refine ⟨first, hfirst, hbound, ?_⟩
  rw [appendEntries_of_prevEntry hle (termAt_eq_some hterm).1
    (prevEntry_of_termAt ((hearLeader_termAt hle _).trans hterm)), if_neg (fun hx => hne hx.2)]
  exact hconf

/-- A request whose previous entry has term zero in the follower's log. -/
theorem appendEntries_of_mismatch_zero (hle : rf.currentTerm ≤ args.term)
    (hterm : rf.termAt args.prevLogIndex = some 0) (hne : 0 ≠ args.prevLogTerm) :
    ∃ t, rf.termAt rf.lastIndex = some t ∧
      rf.appendEntries args = some ((rf.hearLeader args).persist,
        { currentTerm := 0, success := false, conflictTerm := t,
          firstIndex := rf.lastIndex + 1 }) := by
  have hb := termAt_eq_some hterm
  have hnil : (rf.hearLeader args).logs ≠ [] := by
    rw [hearLeader_logs hle]
    intro hnil
    rw [lastIndex, hnil] at hb
    simp at hb
    omega
  obtain ⟨t, ht, hconf⟩ := appendConflict_zero hnil args.prevLogIndex
  rw [hearLeader_lastIndex hle] at ht hconf
  refine ⟨t, (hearLeader_termAt hle _).symm.trans ht, ?_⟩
  rw [appendEntries_of_prevEntry hle hb.1
    (prevEntry_of_termAt ((hearLeader_termAt hle _).trans hterm)), if_neg (fun hx => hne hx.2)]
  exact hconf

/-- A refused request changes neither the log nor the commit index. -/
theorem appendEntries_of_not_accepts (hnil : rf.logs ≠ []) (hsnap : 0 ≤ rf.snapshotIndex)
    (h : ¬ rf.Accepts args) :
    ∃ rf' reply, rf.appendEntries args = some (rf', reply) ∧ reply.success = false ∧
      rf'.logs = rf.logs ∧ rf'.snapshotIndex = rf.snapshotIndex ∧
      rf'.commitIndex = rf.commitIndex := by
  by_cases hle : rf.currentTerm ≤ args.term
  · have hkeeps : (rf.hearLeader args).logs = rf.logs ∧
        (rf.hearLeader args).snapshotIndex = rf.snapshotIndex ∧
        (rf.hearLeader args).commitIndex = rf.commitIndex :=
      ⟨hearLeader_logs hle, hearLeader_snapshotIndex hle, hearLeader_commitIndex hle⟩
    cases hterm : rf.termAt args.prevLogIndex with
    | none =>
        rcases termAt_eq_none_iff.mp hterm with hlt | hlt
        · exact ⟨_, _, appendEntries_of_lt_snapshotIndex hle hlt, rfl, hkeeps⟩
        · obtain ⟨t, -, heq⟩ := appendEntries_of_lastIndex_lt hnil hsnap hle hlt
          exact ⟨_, _, heq, rfl, hkeeps⟩
    | some t =>
        have hne : t ≠ args.prevLogTerm := by
          rintro rfl
          exact h ⟨hle, hterm⟩
        by_cases hpos : t = 0
        · subst hpos
          obtain ⟨t, -, heq⟩ := appendEntries_of_mismatch_zero hle hterm hne
          exact ⟨_, _, heq, rfl, hkeeps⟩
        · obtain ⟨first, -, -, heq⟩ := appendEntries_of_mismatch hle hterm hne hpos
          exact ⟨_, _, heq, rfl, hkeeps⟩
  · exact ⟨_, _, appendEntries_of_stale (not_le.mp hle), rfl, rfl, rfl, rfl⟩

/-! ## The leader's message -/

/-- The message names an entry of the log and carries what the log has after it, up to the end. -/
structure SuffixOf (args : AppendEntriesArgs n C) (rf : Raft n C D) : Prop where
  prev : rf.termAt args.prevLogIndex = some args.prevLogTerm
  entries : ∀ j, args.prevLogIndex < j →
    Slice.index args.entries (j - args.prevLogIndex - 1) = rf.entryAt j

/-- The last entry of the message is the last one of the log. -/
theorem SuffixOf.lastIndex_eq (h : SuffixOf args rf) :
    args.prevLogIndex + args.entries.length = rf.lastIndex := by
  obtain ⟨hge, hle⟩ := termAt_eq_some h.prev
  -- the log has nothing behind the message, and what is behind `PrevLogIndex` is in it
  have hover : rf.entryAt (args.prevLogIndex + args.entries.length + 1) = none := by
    rw [← h.entries _ (by omega), Slice.index_eq_none_iff]
    omega
  have hend := entryAt_eq_none_iff.mp hover
  by_contra hne
  have hinside : rf.entryAt (args.prevLogIndex + args.entries.length) = none := by
    rw [entryAt_eq_none_iff]
    omega
  rw [← h.entries _ (by omega), Slice.index_eq_none_iff] at hinside
  omega

section leader

variable {i : Fin n}

theorem consistencyCheck_of_lt (hl : rf.state = .leader)
    (h : rf.nextIndex i - 1 < rf.snapshotIndex) :
    rf.consistencyCheck i = some (some (.snapshot rf.sendSnapshot)) := by
  unfold consistencyCheck
  rw [if_neg (not_not.mpr hl)]
  simp only
  rw [if_pos h]

/-- From the snapshot on, the leader asks about the entry before `nextIndex`, or about its last
entry when `nextIndex` points beyond it. -/
theorem consistencyCheck_of_ge (hl : rf.state = .leader) (hne : rf.logs ≠ [])
    (h : rf.snapshotIndex ≤ rf.nextIndex i - 1) :
    ∃ args, rf.consistencyCheck i = some (some (.append args)) ∧
      args.prevLogIndex = min (rf.nextIndex i - 1) rf.lastIndex := by
  have hlen := List.length_pos_of_ne_nil hne
  obtain ⟨entries, hentries⟩ : ∃ entries, rf.entriesFor i = some entries := by
    unfold entriesFor
    split
    · rw [Slice.dropFrom, if_pos (by omega)]
      exact ⟨_, rfl⟩
    · exact ⟨_, rfl⟩
  unfold consistencyCheck
  rw [if_neg (not_not.mpr hl)]
  simp only
  rw [if_neg (by omega)]
  -- `nextIndex` beyond the log is cut back to the last entry
  by_cases hbeyond : rf.nextIndex i - 1 - rf.snapshotIndex > rf.logs.length - 1
  · obtain ⟨e, he⟩ : ∃ e, Slice.index rf.logs (rf.logs.length - 1) = some e := by
      rw [← Option.ne_none_iff_exists', Ne, Slice.index_eq_none_iff]
      omega
    simp only [hbeyond, if_true]
    rw [he, hentries]
    refine ⟨_, rfl, ?_⟩
    show (rf.logs.length : Int) + rf.snapshotIndex - 1 = _
    rw [lastIndex]
    omega
  · obtain ⟨e, he⟩ : ∃ e, Slice.index rf.logs (rf.nextIndex i - 1 - rf.snapshotIndex) = some e := by
      rw [← Option.ne_none_iff_exists', Ne, Slice.index_eq_none_iff]
      omega
    simp only [hbeyond, if_false]
    rw [he, hentries]
    refine ⟨_, rfl, ?_⟩
    show rf.nextIndex i - 1 = _
    rw [lastIndex]
    omega

theorem suffixOf_of_consistencyCheck (h : rf.consistencyCheck i = some (some (.append args))) :
    SuffixOf args rf := by
  obtain ⟨-, -, -, -, k, hprev, ⟨e, hget, hterm⟩, hentries⟩ := consistencyCheck_append h
  constructor
  · rw [termAt, hprev, entryAt_add, hget, Option.map_some, hterm]
  · intro j hj
    rw [hentries, Slice.index_drop (k + 1) (by omega), entryAt]
    congr 1
    omega

end leader

/-- A follower that accepts ends with the last entry of the request and reports its index. -/
theorem lastIndex_of_success {rf' : Raft n C D} {reply : AppendEntriesReply}
    (h : rf.appendEntries args = some (rf', reply)) (hsuccess : reply.success = true) :
    rf'.lastIndex = args.prevLogIndex + args.entries.length ∧
      reply.firstIndex = args.prevLogIndex + args.entries.length := by
  rcases appendEntries_cases h with ⟨-, -, hno, -⟩ | ⟨-, -, -, hno, -⟩ |
    ⟨hle, k, hprev, ⟨e, hget, -⟩, rfl, -, -, hfirst⟩ | ⟨-, -, -, hno, -⟩
  · rw [hno] at hsuccess
    cases hsuccess
  · rw [hno] at hsuccess
    cases hsuccess
  · have hk : k < (rf.hearLeader args).logs.length := by
      rw [hearLeader_logs hle]
      exact (List.getElem?_eq_some_iff.mp hget).1
    rw [accepted_lastIndex hk, hearLeader_snapshotIndex hle, hprev]
    exact ⟨rfl, hfirst⟩
  · rw [hno] at hsuccess
    cases hsuccess

/-- **A replication message is an exact suffix of the leader's log.** A leader with a log answers
every `nextIndex` without leaving a slice: with its snapshot exactly when the entry before
`nextIndex` is below it, and otherwise with all that its log has after an entry of it, the one
before `nextIndex` or the last one. Every follower that accepts has its last index where the
leader had it when it sent, and reports that index. -/
theorem consistencyCheck_exact_suffix {rf : Raft n C D} (hl : rf.state = .leader)
    (hne : rf.logs ≠ []) (i : Fin n) :
    (rf.consistencyCheck i = some (some (.snapshot rf.sendSnapshot)) ↔
        rf.nextIndex i - 1 < rf.snapshotIndex) ∧
      (rf.snapshotIndex ≤ rf.nextIndex i - 1 →
        ∃ args, rf.consistencyCheck i = some (some (.append args)) ∧
          args.prevLogIndex = min (rf.nextIndex i - 1) rf.lastIndex ∧ SuffixOf args rf ∧
          ∀ (follower follower' : Raft n C D) (reply : AppendEntriesReply),
            follower.appendEntries args = some (follower', reply) → reply.success = true →
            follower'.lastIndex = rf.lastIndex ∧ reply.firstIndex = rf.lastIndex) := by
  constructor
  · constructor
    · intro hsnapshot
      by_contra hge
      obtain ⟨args, happend, -⟩ := consistencyCheck_of_ge hl hne (not_lt.mp hge)
      rw [happend] at hsnapshot
      cases hsnapshot
    · exact consistencyCheck_of_lt hl
  · intro hge
    obtain ⟨args, happend, hprev⟩ := consistencyCheck_of_ge hl hne hge
    have hsuffix := suffixOf_of_consistencyCheck happend
    refine ⟨args, happend, hprev, hsuffix, fun follower follower' reply h hsuccess => ?_⟩
    rw [← hsuffix.lastIndex_eq]
    exact lastIndex_of_success h hsuccess

/-- A leader that has compacted its log up to index 5 and has two entries after it. One follower's
`nextIndex` is below that, one is inside and one beyond the log. -/
def leaderFromFive : Raft 3 Nat Unit :=
  { newborn 0 Persister.makePersister with
    state := .leader
    currentTerm := 3
    logs := [⟨2, some 15⟩, ⟨2, some 16⟩, ⟨3, some 17⟩]
    nextIndex := ![5, 7, 20]
    snapshotIndex := 5
    snapshotTerm := 2 }

/-- A follower of the same term that lacks the last entry. -/
def followerToSix : Raft 3 Nat Unit :=
  { leaderFromFive with me := 1, state := .follower, logs := [⟨2, some 15⟩, ⟨2, some 16⟩] }

theorem consistencyCheck_exact_suffix_leaderFromFive :
    leaderFromFive.consistencyCheck 0 = some (some (.snapshot leaderFromFive.sendSnapshot)) ∧
      (∃ args, leaderFromFive.consistencyCheck 1 = some (some (.append args)) ∧
        args.prevLogIndex = 6 ∧ SuffixOf args leaderFromFive ∧
        ∃ follower' reply, followerToSix.appendEntries args = some (follower', reply) ∧
          reply.success = true ∧ follower'.lastIndex = 7 ∧ reply.firstIndex = 7) ∧
      ∃ args, leaderFromFive.consistencyCheck 2 = some (some (.append args)) ∧
        args.prevLogIndex = 7 ∧ SuffixOf args leaderFromFive := by
  have hne : leaderFromFive.logs ≠ [] := by decide
  refine ⟨(consistencyCheck_exact_suffix rfl hne 0).1.mpr (by decide), ?_, ?_⟩
  · obtain ⟨args, hcheck, hprev, hsuffix, hends⟩ :=
      (consistencyCheck_exact_suffix rfl hne 1).2 (by decide)
    refine ⟨args, hcheck, hprev, hsuffix, ?_⟩
    have hargs : leaderFromFive.consistencyCheck 1 = some (some (.append
      ⟨3, 0, 6, 2, [⟨3, some 17⟩], 0⟩)) := rfl
    cases hargs.symm.trans hcheck
    exact ⟨_, _, rfl, rfl, hends followerToSix _ _ rfl rfl⟩
  · obtain ⟨args, hcheck, hprev, hsuffix, -⟩ :=
      (consistencyCheck_exact_suffix rfl hne 2).2 (by decide)
    exact ⟨args, hcheck, hprev, hsuffix⟩

end RaftLab.Raft
