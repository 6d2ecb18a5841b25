import RaftLab.Raft.Replication
import RaftLab.Cluster.LeaderLog

set_option autoImplicit false

/-! # Stale `AppendEntries` requests

`AppendEntries` cuts the follower's log after `PrevLogIndex` and appends the entries of the
request, whether or not the log already has them. A request that was sent earlier, when the
leader's log was shorter, therefore takes away entries that a later request of the same
leadership has brought, and leaves `commitIndex` beyond the end of the log.
-/

namespace RaftLab

variable {n : Nat} {C D : Type}

/-- Two logs have the same entry wherever both have one above their snapshots. -/
def Raft.Agrees (a b : Raft n C D) : Prop :=
  ∀ i, a.snapshotIndex < i → b.snapshotIndex < i → i ≤ a.lastIndex → i ≤ b.lastIndex →
    a.entryAt i = b.entryAt i

instance : Std.Symm (fun a b : Raft n C D => a.Agrees b) :=
  ⟨fun _ _ h i ha hb hla hlb => (h i hb ha hlb hla).symm⟩

/-- A log that has only grown agrees with what it was. -/
theorem Raft.Extends.agrees {rf rf' : Raft n C D} {started : List (LogEntry C)}
    (h : rf.Extends rf' started) : rf.Agrees rf' := by
  intro i _ hsnap' hlast _
  rw [Raft.lastIndex] at hlast
  rw [h.entryAt_eq i hsnap', Slice.index_append_left (by omega), Raft.entryAt]

/-- States of the leader at successive moments of one leadership: its log only grows, apart
from compaction, its commit index does not fall and is never above its last index. -/
structure Leadership (n : Nat) (C D : Type) where
  term : Nat
  moments : List (Raft n C D)
  leads : ∀ m ∈ moments, m.state = .leader ∧ m.currentTerm = term
  grows : moments.Pairwise (fun m m' => m.commitIndex ≤ m'.commitIndex ∧
    m.lastIndex ≤ m'.lastIndex ∧ m.Agrees m')
  committed : ∀ m ∈ moments, m.commitIndex ≤ m.lastIndex

namespace Leadership

variable {L : Leadership n C D} {args : AppendEntriesArgs n C}

/-- Entry `e` is in the leader's log at index `i`, at some moment of the leadership. -/
def Holds (L : Leadership n C D) (i : Int) (e : LogEntry C) : Prop :=
  ∃ m ∈ L.moments, m.snapshotIndex < i ∧ m.entryAt i = some e

/-- `consistencyCheck` built the request at some moment of the leadership. -/
def Built (L : Leadership n C D) (args : AppendEntriesArgs n C) : Prop :=
  ∃ m ∈ L.moments, ∃ i, m.consistencyCheck i = some (some (.append args))

/-- The log of one leadership has one entry at each index. -/
theorem entryAt_of_holds {i : Int} {e : LogEntry C} {m : Raft n C D} (h : L.Holds i e)
    (hm : m ∈ L.moments) (hsnap : m.snapshotIndex < i) (hlast : i ≤ m.lastIndex) :
    m.entryAt i = some e := by
  obtain ⟨m', hm', hsnap', he⟩ := h
  have hagree : m.Agrees m' :=
    (L.grows.imp fun h => h.2.2).forall_of_forall (fun _ _ _ _ _ _ _ => rfl) hm hm'
  have hlast' : i ≤ m'.lastIndex := by
    have hne : m'.entryAt i ≠ none := by simp [he]
    rw [Ne, Raft.entryAt_eq_none_iff] at hne
    omega
  rw [hagree i hsnap hsnap' hlast hlast', he]

/-- A request ends where the leader's log ended when it was built: it brings the leader's
entries, and its commit index is not beyond its end. -/
theorem built_spec (h : L.Built args) :
    args.leaderCommit ≤ args.prevLogIndex + args.entries.length ∧
      ∀ i e, args.prevLogIndex < i → i ≤ args.prevLogIndex + args.entries.length →
        L.Holds i e → Slice.index args.entries (i - args.prevLogIndex - 1) = some e := by
  obtain ⟨m, hm, i, hcheck⟩ := h
  have hcommit := L.committed m hm
  obtain ⟨-, -, -, hlc, k, hprev, ⟨e₀, hk, -⟩, hent⟩ := Raft.consistencyCheck_append hcheck
  obtain ⟨hklt, -⟩ := List.getElem?_eq_some_iff.mp hk
  have hlen : (args.entries.length : Int) = m.logs.length - (k + 1) := by
    rw [hent, List.length_drop]
    omega
  constructor
  · rw [Raft.lastIndex] at hcommit
    omega
  · intro j e hlt hle hholds
    have hheld := entryAt_of_holds hholds hm (by omega) (by rw [Raft.lastIndex]; omega)
    rw [hent, Slice.index_drop _ (by omega), ← hheld, Raft.entryAt]
    congr 1
    push_cast
    omega

end Leadership

/-! ## One delivery -/

/-- What a delivery must not do: lower the commit index, remove an entry that agrees with the
leader's log, or leave the commit index beyond the end of the log. -/
def Harmless (L : Leadership n C D) (rf : Raft n C D) (args : AppendEntriesArgs n C) : Prop :=
  ∃ rf' reply, rf.appendEntries args = some (rf', reply) ∧
    rf.commitIndex ≤ rf'.commitIndex ∧
    (∀ i e, rf.entryAt i = some e → L.Holds i e → rf'.entryAt i = some e) ∧
    rf'.commitIndex ≤ rf'.lastIndex

/-- The request is refused by a follower whose commit index is inside its log, or it is
accepted and the follower has nothing beyond its end that is committed or agrees with the
leader's log. -/
def ReachesFarEnough (L : Leadership n C D) (rf : Raft n C D) (args : AppendEntriesArgs n C) :
    Prop :=
  if rf.Accepts args then
    rf.commitIndex ≤ args.prevLogIndex + args.entries.length ∧
      ∀ i e, args.prevLogIndex + args.entries.length < i → rf.entryAt i = some e → ¬ L.Holds i e
  else rf.commitIndex ≤ rf.lastIndex

theorem harmless_iff {L : Leadership n C D} {rf : Raft n C D} {args : AppendEntriesArgs n C}
    (hrf : rf.LogStarted) (hbuilt : L.Built args) :
    Harmless L rf args ↔ ReachesFarEnough L rf args := by
  unfold ReachesFarEnough
  split
  · rename_i hacc
    obtain ⟨rf', reply, heq, -, -, -, hlast, hcommit, hkept, hnew⟩ :=
      Raft.appendEntries_of_accepts hacc
    obtain ⟨hlc, hheld⟩ := L.built_spec hbuilt
    -- the new commit index is the leader's where that is higher, and inside the request
    have hcases : (rf.commitIndex < args.leaderCommit ∧ rf'.commitIndex = args.leaderCommit) ∨
        (args.leaderCommit ≤ rf.commitIndex ∧ rf'.commitIndex = rf.commitIndex) := by
      rw [hcommit]
      split
      · rename_i hgt
        exact Or.inl ⟨hgt, by omega⟩
      · rename_i hle
        exact Or.inr ⟨by omega, rfl⟩
    constructor
    · rintro ⟨rf'', reply', heq', -, hagree, hinside⟩
      obtain ⟨rfl, -⟩ := Prod.mk.inj (Option.some.inj (heq'.symm.trans heq))
      refine ⟨by omega, fun i e hi he hholds => ?_⟩
      have hgone : rf''.entryAt i = none := Raft.entryAt_eq_none_iff.mpr (Or.inr (by omega))
      rw [hagree i e he hholds] at hgone
      cases hgone
    · rintro ⟨hinside, habove⟩
      refine ⟨rf', reply, heq, by omega, fun i e he hholds => ?_, by omega⟩
      by_cases hold : i ≤ args.prevLogIndex
      · rw [hkept i hold, he]
      · by_cases hin : i ≤ args.prevLogIndex + args.entries.length
        · rw [hnew i (by omega), hheld i e (by omega) hin hholds]
        · exact absurd hholds (habove i e (by omega) he)
  · rename_i hacc
    obtain ⟨rf', reply, heq, -, hlogs, hsnap, hcommit⟩ :=
      Raft.appendEntries_of_not_accepts hrf.nonempty hrf.snapshotIndex_nonneg hacc
    have hlast : rf'.lastIndex = rf.lastIndex := by
      rw [Raft.lastIndex, Raft.lastIndex, hlogs, hsnap]
    constructor
    · rintro ⟨rf'', reply', heq', -, -, hinside⟩
      obtain ⟨rfl, -⟩ := Prod.mk.inj (Option.some.inj (heq'.symm.trans heq))
      omega
    · intro hinside
      refine ⟨rf', reply, heq, by omega, fun i e he _ => ?_, by omega⟩
      rw [Raft.entryAt, hlogs, hsnap]
      exact he

/-! ## Deliveries in any order -/

/-- Deliver a request to the follower. -/
def deliver (rf : Raft n C D) (args : AppendEntriesArgs n C) : Option (Raft n C D) :=
  (rf.appendEntries args).map Prod.fst

theorem deliver_logStarted {rf rf' : Raft n C D} {args : AppendEntriesArgs n C}
    (hrf : rf.LogStarted) (h : deliver rf args = some rf') : rf'.LogStarted := by
  obtain ⟨⟨rf'', reply⟩, heq, rfl⟩ := Option.map_eq_some_iff.mp h
  by_cases hacc : rf.Accepts args
  · obtain ⟨rf₁, reply₁, heq₁, -, hnil, hsnap, -⟩ := Raft.appendEntries_of_accepts hacc
    obtain ⟨rfl, -⟩ := Prod.mk.inj (Option.some.inj (heq.symm.trans heq₁))
    exact ⟨hnil, hsnap ▸ hrf.snapshotIndex_nonneg⟩
  · obtain ⟨rf₁, reply₁, heq₁, -, hlogs, hsnap, -⟩ :=
      Raft.appendEntries_of_not_accepts hrf.nonempty hrf.snapshotIndex_nonneg hacc
    obtain ⟨rfl, -⟩ := Prod.mk.inj (Option.some.inj (heq.symm.trans heq₁))
    exact ⟨hlogs ▸ hrf.nonempty, hsnap ▸ hrf.snapshotIndex_nonneg⟩

/-- **Stale requests.** Requests of one leadership, delivered to a follower in any order and
with any of them lost, are all harmless if and only if each of them, when it arrives, reaches
far enough. -/
theorem deliveries_harmless_iff (L : Leadership n C D) {rf : Raft n C D} (hrf : rf.LogStarted)
    {requests : List (AppendEntriesArgs n C)} (hbuilt : ∀ args ∈ requests, L.Built args) :
    Machine.Along deliver (Harmless L) rf requests ↔
      Machine.Along deliver (ReachesFarEnough L) rf requests := by
  induction requests generalizing rf with
  | nil => exact Iff.rfl
  | cons args requests ih =>
      have hone := harmless_iff hrf (hbuilt args (by simp))
      have hrest : ∀ rf', deliver rf args = some rf' →
          (Machine.Along deliver (Harmless L) rf' requests ↔
            Machine.Along deliver (ReachesFarEnough L) rf' requests) :=
        fun rf' h => ih (deliver_logStarted hrf h) (fun a ha => hbuilt a (by simp [ha]))
      constructor
      · exact fun h => ⟨hone.mp h.1, fun rf' hs => (hrest rf' hs).mp (h.2 rf' hs)⟩
      · exact fun h => ⟨hone.mpr h.1, fun rf' hs => (hrest rf' hs).mpr (h.2 rf' hs)⟩

/-- A request that ends no earlier than the follower's log reaches far enough. -/
theorem reachesFarEnough_of_lastIndex_le {L : Leadership n C D} {rf : Raft n C D}
    {args : AppendEntriesArgs n C} (hcommit : rf.commitIndex ≤ rf.lastIndex)
    (hlast : rf.lastIndex ≤ args.prevLogIndex + args.entries.length) :
    ReachesFarEnough L rf args := by
  unfold ReachesFarEnough
  split
  · refine ⟨by omega, fun i e hi he => ?_⟩
    have hnone : rf.entryAt i = none := Raft.entryAt_eq_none_iff.mpr (Or.inr (by omega))
    rw [hnone] at he
    cases he
  · exact hcommit

/-- A leader of term 1 with one entry. -/
def leaderOfOne : Raft 3 Nat Unit :=
  { Raft.make 0 Persister.makePersister with
    state := .leader
    currentTerm := 1
    logs := [⟨0, none⟩, ⟨1, some 10⟩]
    nextIndex := fun _ => 1 }

/-- The leader before and after it starts a second command. -/
def beforeAndAfterStart : Leadership 3 Nat Unit where
  term := 1
  moments := [leaderOfOne, (leaderOfOne.start (some 11)).1]
  leads := by decide
  grows := by
    have hagrees := (Raft.start_extends (show leaderOfOne.state = .leader from rfl)
      (some 11)).agrees
    simp only [List.pairwise_cons, List.mem_singleton, forall_eq, List.not_mem_nil,
      false_imp_iff, implies_true, List.Pairwise.nil, and_true]
    exact ⟨by decide, by decide, hagrees⟩
  committed := by decide

/-- The requests of the two moments reach a new follower in the order they were sent. -/
theorem deliveries_harmless_inOrder :
    Machine.Along deliver (Harmless beforeAndAfterStart)
      (Raft.make 1 Persister.makePersister)
      [⟨1, 0, 0, 0, [⟨1, some 10⟩], 0⟩, ⟨1, 0, 0, 0, [⟨1, some 10⟩, ⟨1, some 11⟩], 0⟩] := by
  refine (deliveries_harmless_iff beforeAndAfterStart ⟨by decide, by decide⟩ ?_).mpr ?_
  · intro args hmem
    rcases List.mem_cons.mp hmem with rfl | hmem
    · exact ⟨leaderOfOne, by simp [beforeAndAfterStart], 1, rfl⟩
    · obtain rfl := List.mem_singleton.mp hmem
      exact ⟨(leaderOfOne.start (some 11)).1, by simp [beforeAndAfterStart], 1, rfl⟩
  · refine ⟨reachesFarEnough_of_lastIndex_le (by decide) (by decide), fun rf' h => ?_⟩
    obtain rfl := Option.some.inj h
    exact ⟨reachesFarEnough_of_lastIndex_le (by decide) (by decide), fun _ _ => trivial⟩

namespace Cluster

/-- The leader sends peer 1 a heartbeat, then an entry, which peer 1 accepts and commits. The
heartbeat is still on its way. -/
def lateHeartbeat : List (Event 3 Nat Unit) :=
  [.canvassVotes 0, .requestVote 0, .voteReply 0, .consistencyCheck 0 1, .start 0 (some 10),
   .consistencyCheck 0 1, .appendEntries 1, .appendReply 1, .consistencyCheck 0 1,
   .appendEntries 2]

/-- The late heartbeat removes a committed entry that agrees with the leader's log, and the
commit index of peer 1 is beyond its log. -/
theorem late_heartbeat_truncates :
    ∃ s s' call, runFrom lateHeartbeat = some s ∧ s.step (.appendEntries 0) = some s' ∧
      -- the heartbeat is of the leadership that also sent the entry
      s.IsLeaderOf 0 1 ∧ requestAt s.appendCalls 0 = some call ∧ call.args.term = 1 ∧
      (s.peers 0).entryAt 1 = some ⟨1, some 10⟩ ∧ (s.peers 1).entryAt 1 = some ⟨1, some 10⟩ ∧
      (s'.peers 1).entryAt 1 = none ∧
      (s'.peers 1).lastIndex < (s'.peers 1).commitIndex := by
  have hrun : (runFrom lateHeartbeat).any (fun s => (s.step (.appendEntries 0)).any (fun s' =>
      (requestAt s.appendCalls 0).any (fun call =>
        s.IsLeaderOf 0 1 ∧ call.args.term = 1 ∧
        (s.peers 0).entryAt 1 = some ⟨1, some 10⟩ ∧ (s.peers 1).entryAt 1 = some ⟨1, some 10⟩ ∧
        (s'.peers 1).entryAt 1 = none ∧
        (s'.peers 1).lastIndex < (s'.peers 1).commitIndex))) = true := by decide
  simp only [Option.any_eq_true, decide_eq_true_eq] at hrun
  obtain ⟨s, hs, s', hs', call, hcall, hlead, hterm, hentry, hentry', hgone, hlast⟩ := hrun
  exact ⟨s, s', call, hs, hs', hlead, hcall, hterm, hentry, hentry', hgone, hlast⟩

end Cluster

end RaftLab
