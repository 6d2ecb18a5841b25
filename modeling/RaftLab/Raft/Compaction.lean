import RaftLab.Lib.Run
import RaftLab.Raft.Window

set_option autoImplicit false

/-! # Log compaction is transparent

Two copies of a peer take the same steps; one of them also compacts its log with
`NewSnapShot`. The compacting copy is the other one with the beginning of its log taken off:
`restore` puts it back. Every slice position an operation computes is then larger by the same
amount in the plain copy, so both compute the same results, as long as the operation is not
asked about entries that only the plain copy still has.
-/

namespace RaftLab.Raft

variable {n : Nat} {C D : Type}

/-- The peer with the entries `dropped` back in front of its log. What it has stored, and the
term of its snapshot, depend on the snapshots it has taken and are given. -/
def restore (a : Raft n C D) (dropped : List (LogEntry C)) (ps : Persister n C D) (st : Nat) :
    Raft n C D :=
  { a with
    logs := dropped ++ a.logs
    snapshotIndex := a.snapshotIndex - dropped.length
    snapshotTerm := st
    persister := ps }

/-- `b` is `a` before some of its log was compacted away; what was is committed. -/
structure CompactedFrom (a b : Raft n C D) : Prop where
  restored : ∃ dropped ps st, b = a.restore dropped ps st
  nonempty : a.logs ≠ []
  committed : a.snapshotIndex ≤ a.commitIndex

section restore

variable (a : Raft n C D) (dropped : List (LogEntry C)) (ps : Persister n C D) (st : Nat)

@[simp] theorem restore_me : (a.restore dropped ps st).me = a.me := rfl
@[simp] theorem restore_state : (a.restore dropped ps st).state = a.state := rfl
@[simp] theorem restore_currentTerm : (a.restore dropped ps st).currentTerm = a.currentTerm := rfl
@[simp] theorem restore_votedFor : (a.restore dropped ps st).votedFor = a.votedFor := rfl
@[simp] theorem restore_logs : (a.restore dropped ps st).logs = dropped ++ a.logs := rfl
@[simp] theorem restore_commitIndex : (a.restore dropped ps st).commitIndex = a.commitIndex := rfl
@[simp] theorem restore_nextIndex : (a.restore dropped ps st).nextIndex = a.nextIndex := rfl
@[simp] theorem restore_matchIndex : (a.restore dropped ps st).matchIndex = a.matchIndex := rfl
@[simp] theorem restore_snapshotIndex :
    (a.restore dropped ps st).snapshotIndex = a.snapshotIndex - dropped.length := rfl

theorem restore_entryAt {i : Int} (h : a.snapshotIndex ≤ i) :
    (a.restore dropped ps st).entryAt i = a.entryAt i := by
  show Slice.index (dropped ++ a.logs) (i - (a.snapshotIndex - dropped.length)) =
    Slice.index a.logs (i - a.snapshotIndex)
  rw [← Slice.index_append_right (s := dropped) (t := a.logs) (by omega)]
  congr 1
  omega

theorem restore_lastIndex : (a.restore dropped ps st).lastIndex = a.lastIndex := by
  show a.snapshotIndex - dropped.length + ((dropped ++ a.logs).length : Int) - 1 =
    a.snapshotIndex + a.logs.length - 1
  rw [List.length_append]
  omega

theorem restore_lastLogIndexAndTerm (hne : a.logs ≠ []) :
    (a.restore dropped ps st).lastLogIndexAndTerm = a.lastLogIndexAndTerm := by
  have hlen := List.length_pos_of_ne_nil hne
  rw [lastLogIndexAndTerm_eq, lastLogIndexAndTerm_eq, restore_lastIndex, termAt, termAt,
    restore_entryAt _ _ _ _ (by rw [lastIndex]; omega)]

theorem restore_adoptTerm (t : Nat) :
    (a.restore dropped ps st).adoptTerm t = (a.adoptTerm t).restore dropped ps st := by
  show (if t > a.currentTerm then _ else _) = _
  unfold adoptTerm
  split <;> rfl

theorem restore_hearLeader (args : AppendEntriesArgs n C) (h : a.currentTerm ≤ args.term) :
    (a.restore dropped ps st).hearLeader args = (a.hearLeader args).restore dropped ps st := by
  rw [hearLeader_eq h, hearLeader_eq (show (a.restore dropped ps st).currentTerm ≤ _ from h)]
  rfl

theorem restore_prevEntry {prev : Int} (h : a.snapshotIndex ≤ prev) :
    (a.restore dropped ps st).prevEntry prev = a.prevEntry prev := by
  have hlen : (((a.restore dropped ps st).logs.length : Int) +
      (a.restore dropped ps st).snapshotIndex) = a.logs.length + a.snapshotIndex := by
    show (((dropped ++ a.logs).length : Int) + (a.snapshotIndex - dropped.length)) = _
    rw [List.length_append]
    omega
  have hentry := restore_entryAt a dropped ps st h
  unfold entryAt at hentry
  unfold prevEntry
  rw [hlen, hentry]

theorem restore_start (command : Option C) :
    ∃ ps', (a.restore dropped ps st).start command =
      ((a.start command).1.restore dropped ps' st, (a.start command).2) := by
  refine ⟨((a.restore dropped ps st).start command).1.persister, ?_⟩
  by_cases hl : a.state = .leader
  · have hindex : (((dropped ++ (a.logs ++ [(⟨a.currentTerm, command⟩ : LogEntry C)])).length : Int)
          - 1 + (a.snapshotIndex - dropped.length)) =
        ((a.logs ++ [(⟨a.currentTerm, command⟩ : LogEntry C)]).length : Int)
          - 1 + a.snapshotIndex := by
      rw [List.length_append]
      omega
    simp only [start, restore, persist, hl, if_true, List.append_assoc, hindex]
  · simp only [start, restore, hl, if_false]

end restore

/-! ## The same step in both copies -/

/-- The steps both copies take. -/
inductive Action (n : Nat) (C : Type) where
  | start (command : Option C)
  | requestVote (args : RequestVoteArgs n)
  | appendEntries (args : AppendEntriesArgs n C)
  | updateCommitIndex
  | consistencyCheck (i : Fin n)

/-- What a step returns or sends. -/
inductive Output (n : Nat) (C D : Type) where
  | started (index : Int) (term : Nat) (isLeader : Bool)
  | voted (reply : RequestVoteReply)
  | appended (reply : AppendEntriesReply)
  | updated
  | sent (out : Option (Outgoing n C D))

/-- One step of a copy; `none` when it panics. -/
def act (rf : Raft n C D) : Action n C → Option (Raft n C D × Output n C D)
  | .start command =>
      let out := rf.start command
      some (out.1, .started out.2.1 out.2.2.1 out.2.2.2)
  | .requestVote args => (rf.requestVote args).map (fun out => (out.1, .voted out.2))
  | .appendEntries args => (rf.appendEntries args).map (fun out => (out.1, .appended out.2))
  | .updateCommitIndex => rf.updateCommitIndex.map (fun rf' => (rf', .updated))
  | .consistencyCheck i => (rf.consistencyCheck i).map (fun out => (rf, .sent out))

/-- The step is not about entries below the snapshot of the compacting copy. -/
def Within (a : Raft n C D) : Action n C → Prop
  | .appendEntries args => a.snapshotIndex ≤ args.prevLogIndex
  | .consistencyCheck i => a.snapshotIndex ≤ a.nextIndex i - 1
  | _ => True

instance (a : Raft n C D) (action : Action n C) : Decidable (a.Within action) :=
  match action with
  | .start _ | .requestVote _ | .updateCommitIndex => isTrue trivial
  | .appendEntries args => inferInstanceAs (Decidable (a.snapshotIndex ≤ args.prevLogIndex))
  | .consistencyCheck i => inferInstanceAs (Decidable (a.snapshotIndex ≤ a.nextIndex i - 1))

/-- The results agree; of two refusals only that both refuse. -/
def Output.Agree : Output n C D → Output n C D → Prop
  | .appended r, .appended r' => r.success = r'.success ∧
      (r.success = true → r.firstIndex = r'.firstIndex ∧ r.conflictTerm = r'.conflictTerm)
  | o, o' => o = o'

/-- Both copies panic, or both return, agree, and are related again by `R`. -/
def Lockstep (R : Raft n C D → Raft n C D → Prop) (a b : Raft n C D) (action : Action n C) :
    Prop :=
  Option.Rel (fun x y => x.2.Agree y.2 ∧ R x.1 y.1) (a.act action) (b.act action)

theorem rel_map {α β γ δ : Type} {R : α → β → Prop} {S : γ → δ → Prop} {f : α → γ} {g : β → δ}
    {x : Option α} {y : Option β} (h : Option.Rel R x y) (hfg : ∀ a b, R a b → S (f a) (g b)) :
    Option.Rel S (x.map f) (y.map g) := by
  cases h with
  | none => exact .none
  | some h => exact .some (hfg _ _ h)

theorem Lockstep.mono {R S : Raft n C D → Raft n C D → Prop} {a b : Raft n C D}
    {action : Action n C} (hRS : ∀ x y, R x y → S x y) (h : Lockstep R a b action) :
    Lockstep S a b action := by
  unfold Lockstep at h ⊢
  have hmap := rel_map h (S := fun x y => x.2.Agree y.2 ∧ S x.1 y.1) (f := id) (g := id)
    (fun x y hxy => ⟨hxy.1, hRS _ _ hxy.2⟩)
  rw [Option.map_id] at hmap
  exact hmap

namespace CompactedFrom

variable {a b : Raft n C D}

/-- Storing the state keeps the two copies related. -/
theorem persist {dropped : List (LogEntry C)} {ps : Persister n C D} {st : Nat}
    (hne : a.logs ≠ []) (hc : a.snapshotIndex ≤ a.commitIndex) :
    a.persist.CompactedFrom (a.restore dropped ps st).persist :=
  ⟨⟨dropped, _, st, rfl⟩, hne, hc⟩

theorem start (h : a.CompactedFrom b) (command : Option C) :
    Lockstep CompactedFrom a b (.start command) := by
  obtain ⟨dropped, ps, st, rfl⟩ := h.restored
  obtain ⟨ps', heq⟩ := restore_start a dropped ps st command
  have hkeeps : (a.start command).1.logs ≠ [] ∧
      (a.start command).1.snapshotIndex ≤ (a.start command).1.commitIndex := by
    unfold Raft.start
    split
    · exact ⟨by simp, h.committed⟩
    · exact ⟨h.nonempty, h.committed⟩
  unfold Lockstep act
  dsimp only
  rw [heq]
  exact .some ⟨rfl, ⟨dropped, ps', st, rfl⟩, hkeeps.1, hkeeps.2⟩

theorem requestVote (h : a.CompactedFrom b) (args : RequestVoteArgs n) :
    Lockstep CompactedFrom a b (.requestVote args) := by
  obtain ⟨dropped, ps, st, rfl⟩ := h.restored
  have hkeeps : (a.adoptTerm args.term).logs ≠ [] ∧
      (a.adoptTerm args.term).snapshotIndex ≤ (a.adoptTerm args.term).commitIndex := by
    unfold adoptTerm
    split <;> exact ⟨h.nonempty, h.committed⟩
  refine rel_map (R := fun x y => x.2 = y.2 ∧ x.1.CompactedFrom y.1) ?_
    (fun x y hxy => ⟨congrArg Output.voted hxy.1, hxy.2⟩)
  simp only [Raft.requestVote, restore_lastLogIndexAndTerm a dropped ps st h.nonempty,
    restore_adoptTerm, restore_currentTerm, restore_votedFor]
  rcases a.lastLogIndexAndTerm with _ | ⟨i, t⟩
  · exact .none
  simp only [Option.bind_eq_bind, Option.bind_some]
  split
  · exact .some ⟨rfl, persist h.nonempty h.committed⟩
  · split
    · exact .some ⟨rfl, ⟨dropped, _, st, rfl⟩, hkeeps.1, hkeeps.2⟩
    · exact .some ⟨rfl, persist hkeeps.1 hkeeps.2⟩

theorem hearLeader (h : a.CompactedFrom b) {args : AppendEntriesArgs n C}
    (hle : a.currentTerm ≤ args.term) :
    (a.hearLeader args).CompactedFrom (b.hearLeader args) := by
  obtain ⟨dropped, ps, st, rfl⟩ := h.restored
  rw [restore_hearLeader a dropped ps st args hle, hearLeader_eq hle]
  exact ⟨⟨dropped, ps, st, rfl⟩, h.nonempty, h.committed⟩

theorem appendAccept (h : a.CompactedFrom b) (args : AppendEntriesArgs n C) {i : Int}
    (hi : a.snapshotIndex ≤ i) :
    Option.Rel (fun x y => x.2 = y.2 ∧ x.1.CompactedFrom y.1)
      (a.appendAccept args i) (b.appendAccept args i) := by
  obtain ⟨dropped, ps, st, rfl⟩ := h.restored
  have htake : Slice.takeTo (dropped ++ a.logs) (i - (a.snapshotIndex - dropped.length) + 1) =
      (Slice.takeTo a.logs (i - a.snapshotIndex + 1)).map (dropped ++ ·) := by
    rw [← Slice.takeTo_append_right (by omega)]
    congr 1
    omega
  simp only [Raft.appendAccept, restore_logs, restore_snapshotIndex, restore_commitIndex, htake]
  cases hkept : Slice.takeTo a.logs (i - a.snapshotIndex + 1) with
  | none => exact .none
  | some kept =>
      have hlen : 1 ≤ kept.length := by
        obtain ⟨-, hle, rfl⟩ := Slice.takeTo_eq_some hkept
        rw [List.length_take]
        omega
      have hge : 1 ≤ (kept ++ args.entries).length := by
        rw [List.length_append]
        omega
      -- the last index is the same, and its slice position is shifted by what was dropped
      have hlast : a.snapshotIndex - dropped.length
            + ((dropped ++ (kept ++ args.entries)).length : Int) - 1 =
          a.snapshotIndex + ((kept ++ args.entries).length : Int) - 1 := by
        rw [List.length_append]
        omega
      have hindex : Slice.index (dropped ++ (kept ++ args.entries))
            (a.snapshotIndex + ((kept ++ args.entries).length : Int) - 1
              - (a.snapshotIndex - dropped.length)) =
          Slice.index (kept ++ args.entries)
            (a.snapshotIndex + ((kept ++ args.entries).length : Int) - 1 - a.snapshotIndex) := by
        rw [← Slice.index_append_right (s := dropped) (t := kept ++ args.entries) (by omega)]
        congr 1
        omega
      simp only [Option.map_some, Option.bind_eq_bind, Option.bind_some, List.append_assoc, hlast,
        hindex]
      cases Slice.index (kept ++ args.entries)
          (a.snapshotIndex + ((kept ++ args.entries).length : Int) - 1 - a.snapshotIndex) with
      | none => exact .none
      | some e =>
          refine .some ⟨rfl, ⟨dropped, _, st, rfl⟩, List.ne_nil_of_length_pos hge, ?_⟩
          show a.snapshotIndex ≤ ite _ _ _
          have hc := h.committed
          split <;> omega

theorem appendConflict (h : a.CompactedFrom b) (i : Int) (t : Nat) :
    Option.Rel (fun x y => (x.2.success = false ∧ y.2.success = false) ∧ x.1.CompactedFrom y.1)
      (a.appendConflict i t) (b.appendConflict i t) := by
  obtain ⟨dropped, ps, st, rfl⟩ := h.restored
  have hret : ∀ rf : Raft n C D, rf.logs ≠ [] →
      ∃ reply, rf.appendConflict i t = some (rf.persist, reply) ∧ reply.success = false := by
    intro rf hne
    have hlen := List.length_pos_of_ne_nil hne
    unfold Raft.appendConflict
    split
    · dsimp only
      cases he : Slice.index rf.logs
          (((rf.logs.length : Int) + rf.snapshotIndex) - rf.snapshotIndex - 1) with
      | none =>
          rw [Slice.index_eq_none_iff] at he
          omega
      | some e => exact ⟨_, rfl, rfl⟩
    · exact ⟨_, rfl, rfl⟩
  obtain ⟨ra, ha, hsa⟩ := hret a h.nonempty
  obtain ⟨rb, hb, hsb⟩ := hret (a.restore dropped ps st) (by simp [h.nonempty])
  rw [ha, hb]
  exact .some ⟨⟨hsa, hsb⟩, persist h.nonempty h.committed⟩

theorem appendEntries (h : a.CompactedFrom b) (args : AppendEntriesArgs n C)
    (hprev : a.snapshotIndex ≤ args.prevLogIndex) :
    Lockstep CompactedFrom a b (.appendEntries args) := by
  have hagree : ∀ r r' : AppendEntriesReply, r = r' →
      (Output.appended r : Output n C D).Agree (.appended r') := by
    rintro r - rfl
    exact ⟨rfl, fun _ => ⟨rfl, rfl⟩⟩
  have hrefuse : ∀ r r' : AppendEntriesReply, r.success = false ∧ r'.success = false →
      (Output.appended r : Output n C D).Agree (.appended r') := by
    rintro r r' ⟨hr, hr'⟩
    exact ⟨hr.trans hr'.symm, fun ht => by simp [hr] at ht⟩
  have hterm : b.currentTerm = a.currentTerm := by
    obtain ⟨dropped, ps, st, rfl⟩ := h.restored
    rfl
  unfold Lockstep act
  dsimp only
  unfold Raft.appendEntries
  rw [hterm]
  by_cases hlt : args.term < a.currentTerm
  · rw [if_pos hlt, if_pos hlt]
    exact .some ⟨hagree _ _ rfl, h⟩
  rw [if_neg hlt, if_neg hlt]
  have hle : a.currentTerm ≤ args.term := by omega
  have hheard := h.hearLeader hle
  have hsnap : (a.hearLeader args).snapshotIndex = a.snapshotIndex := by rw [hearLeader_eq hle]
  generalize a.hearLeader args = a₁ at hheard hsnap ⊢
  generalize b.hearLeader args = b₁ at hheard ⊢
  have hprev₁ : a₁.snapshotIndex ≤ args.prevLogIndex := by omega
  -- the entry is behind the snapshot, where the two logs agree
  have hentry : b₁.prevEntry args.prevLogIndex = a₁.prevEntry args.prevLogIndex ∧
      b₁.snapshotIndex ≤ a₁.snapshotIndex := by
    obtain ⟨dropped, ps, st, rfl⟩ := hheard.restored
    exact ⟨restore_prevEntry a₁ dropped ps st hprev₁, by simp⟩
  dsimp only
  rw [if_neg (by omega), if_neg (by omega), hentry.1]
  cases hp : a₁.prevEntry args.prevLogIndex with
  | none => exact .none
  | some e =>
      obtain ⟨i, t⟩ := e
      simp only [Option.bind_eq_bind, Option.bind_some]
      split
      · rename_i hmatch
        exact rel_map (hheard.appendAccept args (by omega))
          (fun x y hxy => ⟨hagree _ _ hxy.1, hxy.2⟩)
      · exact rel_map (hheard.appendConflict i t)
          (fun x y hxy => ⟨hrefuse _ _ hxy.1, hxy.2⟩)

theorem updateCommitIndex (h : a.CompactedFrom b) :
    Lockstep CompactedFrom a b .updateCommitIndex := by
  refine rel_map (R := CompactedFrom) ?_ (fun x y hxy => ⟨rfl, hxy⟩)
  have hc := h.committed
  obtain ⟨dropped, ps, st, rfl⟩ := h.restored
  unfold Raft.updateCommitIndex
  rw [show (a.restore dropped ps st).medianMatch = a.medianMatch from rfl]
  cases a.medianMatch with
  | none => exact .none
  | some target =>
      simp only [Option.bind_eq_bind, Option.bind_some]
      by_cases hlt : a.commitIndex < target
      · have hlt' : (a.restore dropped ps st).commitIndex < target ∧
            (a.restore dropped ps st).snapshotIndex < target := by
          rw [restore_commitIndex, restore_snapshotIndex]
          omega
        have hentry := restore_entryAt a dropped ps st (show a.snapshotIndex ≤ target by omega)
        unfold entryAt at hentry
        rw [if_pos ⟨hlt, by omega⟩, if_pos hlt', hentry]
        cases Slice.index a.logs (target - a.snapshotIndex) with
        | none => exact .none
        | some e =>
            simp only [Option.bind_some]
            by_cases ht : e.term = a.currentTerm
            · rw [if_pos ht, if_pos (show e.term = (a.restore dropped ps st).currentTerm from ht)]
              refine .some ⟨⟨dropped, ps, st, rfl⟩, h.nonempty, ?_⟩
              show a.snapshotIndex ≤ target
              omega
            · rw [if_neg ht, if_neg (show ¬ e.term = (a.restore dropped ps st).currentTerm from ht)]
              exact .some h
      · rw [if_neg (fun hx => hlt hx.1), if_neg (fun hx => hlt hx.1)]
        exact .some h

theorem consistencyCheck (h : a.CompactedFrom b) (i : Fin n)
    (hpre : a.snapshotIndex ≤ a.nextIndex i - 1) :
    Lockstep CompactedFrom a b (.consistencyCheck i) := by
  suffices heq : b.consistencyCheck i = a.consistencyCheck i by
    unfold Lockstep act
    dsimp only
    rw [heq]
    cases a.consistencyCheck i with
    | none => exact .none
    | some out => exact .some ⟨rfl, h⟩
  obtain ⟨dropped, ps, st, rfl⟩ := h.restored
  have hlen : ((dropped ++ a.logs).length : Int) = a.logs.length + dropped.length := by
    rw [List.length_append]
    omega
  have hentries : (a.restore dropped ps st).entriesFor i = a.entriesFor i := by
    simp only [entriesFor, restore_nextIndex, restore_logs, restore_snapshotIndex, hlen]
    rw [← Slice.dropFrom_append_right (s := dropped) (t := a.logs) (by omega)]
    split <;> split <;> first | rfl | omega | (congr 1; omega)
  have hindex : ∀ k : Int, 0 ≤ k →
      Slice.index (dropped ++ a.logs) (k + dropped.length) = Slice.index a.logs k :=
    fun k hk => Slice.index_append_right hk
  unfold Raft.consistencyCheck
  by_cases hl : a.state ≠ .leader
  · rw [if_pos hl, if_pos (show (a.restore dropped ps st).state ≠ .leader from hl)]
  rw [if_neg hl, if_neg (show ¬ (a.restore dropped ps st).state ≠ .leader from hl)]
  simp only [hentries, restore_nextIndex, restore_snapshotIndex, restore_logs, hlen]
  have hne := List.length_pos_of_ne_nil h.nonempty
  rw [if_neg (show ¬ a.nextIndex i - 1 < a.snapshotIndex - dropped.length by omega),
    if_neg (show ¬ a.nextIndex i - 1 < a.snapshotIndex by omega)]
  -- both are cut back to the last entry, or neither
  by_cases hb : a.nextIndex i - 1 - a.snapshotIndex > a.logs.length - 1
  · have hb' : a.nextIndex i - 1 - (a.snapshotIndex - dropped.length)
        > a.logs.length + dropped.length - 1 := by omega
    simp only [hb, hb', if_true]
    rw [show (a.logs.length : Int) + dropped.length - 1
        = (a.logs.length - 1) + dropped.length by omega, hindex _ (by omega),
      show (a.logs.length : Int) + dropped.length + (a.snapshotIndex - dropped.length) - 1
        = a.logs.length + a.snapshotIndex - 1 by omega]
    rfl
  · have hb' : ¬ a.nextIndex i - 1 - (a.snapshotIndex - dropped.length)
        > a.logs.length + dropped.length - 1 := by omega
    simp only [hb, hb', if_false]
    rw [show a.nextIndex i - 1 - (a.snapshotIndex - dropped.length)
        = (a.nextIndex i - 1 - a.snapshotIndex) + dropped.length by omega, hindex _ (by omega)]
    rfl

/-- Every step both copies take keeps them related. -/
theorem lockstep (h : a.CompactedFrom b) (action : Action n C) (hw : a.Within action) :
    Lockstep CompactedFrom a b action := by
  cases action with
  | start command => exact h.start command
  | requestVote args => exact h.requestVote args
  | appendEntries args => exact h.appendEntries args hw
  | updateCommitIndex => exact h.updateCommitIndex
  | consistencyCheck i => exact h.consistencyCheck i hw

/-- The compacting copy can take a snapshot up to any committed index its log reaches. -/
theorem newSnapShot (h : a.CompactedFrom b) (data : Option D) {index : Int}
    (hold : a.snapshotIndex < index) (hcommit : index ≤ a.commitIndex)
    (hlast : index ≤ a.lastIndex) :
    ∃ a', a.newSnapShot data index = some a' ∧ a'.CompactedFrom b := by
  obtain ⟨dropped, ps, st, rfl⟩ := h.restored
  obtain ⟨k, rfl⟩ : ∃ k : Nat, index = a.snapshotIndex + k :=
    ⟨(index - a.snapshotIndex).toNat, by omega⟩
  have hk : k < a.logs.length := by
    rw [lastIndex] at hlast
    omega
  have hdrop : Slice.dropFrom a.logs (a.snapshotIndex + k - a.snapshotIndex)
      = some (a.logs.drop k) := by
    rw [add_sub_cancel_left, Slice.dropFrom_natCast (by omega)]
  have hfirst : Slice.index (a.logs.drop k) 0 = some a.logs[k] := by
    rw [Slice.index_drop k (le_refl 0), zero_add, Slice.index_natCast,
      List.getElem?_eq_getElem hk]
  unfold Raft.newSnapShot
  rw [if_neg (by omega), hdrop]
  simp only [Option.bind_eq_bind, Option.bind_some, hfirst]
  refine ⟨_, rfl, ⟨dropped ++ a.logs.take k, ps, st, ?_⟩, ?_, hcommit⟩
  · -- what is dropped now goes behind what was dropped before
    simp only [restore, List.append_assoc, List.take_append_drop, List.length_append,
      List.length_take, Nat.min_eq_left (le_of_lt hk)]
    congr 1
    omega
  · exact List.ne_nil_of_length_pos (by rw [List.length_drop]; omega)

end CompactedFrom

/-! ## Runs of the two copies -/

/-- What an observer who knows nothing of the snapshots sees of the two copies is the same. -/
structure SameView (a b : Raft n C D) : Prop where
  currentTerm : a.currentTerm = b.currentTerm
  votedFor : a.votedFor = b.votedFor
  state : a.state = b.state
  commitIndex : a.commitIndex = b.commitIndex
  lastLogIndexAndTerm : a.lastLogIndexAndTerm = b.lastLogIndexAndTerm
  entryAt : ∀ i, a.snapshotIndex < i → a.entryAt i = b.entryAt i
  termAt : a.termAt a.snapshotIndex = b.termAt a.snapshotIndex

theorem CompactedFrom.sameView {a b : Raft n C D} (h : a.CompactedFrom b) : a.SameView b := by
  obtain ⟨dropped, ps, st, rfl⟩ := h.restored
  refine ⟨rfl, rfl, rfl, rfl, (restore_lastLogIndexAndTerm a dropped ps st h.nonempty).symm,
    fun i hi => (restore_entryAt a dropped ps st (le_of_lt hi)).symm, ?_⟩
  rw [Raft.termAt, Raft.termAt, restore_entryAt a dropped ps st (le_refl _)]

/-- The two copies. -/
structure Copies (n : Nat) (C D : Type) where
  compacting : Raft n C D
  plain : Raft n C D

/-- A step of both copies, or a snapshot of the compacting one. -/
inductive Move (n : Nat) (C D : Type) where
  | both (action : Action n C)
  | compact (snapshotdata : Option D) (index : Int)

/-- One move of the copies, where it is allowed and neither of them panics. -/
def Copies.step (c : Copies n C D) : Move n C D → Option (Copies n C D)
  | .both action => do
      guard (c.compacting.Within action)
      let (a, _) ← c.compacting.act action
      let (b, _) ← c.plain.act action
      pure { compacting := a, plain := b }
  | .compact snapshotdata index => do
      guard (c.compacting.snapshotIndex < index ∧
        index ≤ min c.compacting.commitIndex c.compacting.lastIndex)
      let a ← c.compacting.newSnapShot snapshotdata index
      pure { c with compacting := a }

/-- One move keeps the copies related. -/
theorem Copies.step_compactedFrom {c c' : Copies n C D} {move : Move n C D}
    (h : c.compacting.CompactedFrom c.plain) (hs : c.step move = some c') :
    c'.compacting.CompactedFrom c'.plain := by
  cases move with
  | both action =>
      simp only [step, Option.bind_eq_bind, Option.bind_eq_some_iff, Option.guard_eq_some',
        Option.pure_def, Option.some.injEq, Prod.exists] at hs
      obtain ⟨-, hw, a, o, ha, b, o', hb, rfl⟩ := hs
      have hrel := h.lockstep action hw
      rw [Lockstep, ha, hb] at hrel
      cases hrel with
      | some hx => exact hx.2
  | compact data index =>
      simp only [step, Option.bind_eq_bind, Option.bind_eq_some_iff, Option.guard_eq_some',
        Option.pure_def, Option.some.injEq] at hs
      obtain ⟨-, ⟨hold, hmin⟩, a, ha, rfl⟩ := hs
      obtain ⟨a', ha', hrel⟩ := h.newSnapShot data hold (by omega) (by omega)
      obtain rfl : a' = a := Option.some.inj (ha'.symm.trans ha)
      exact hrel

/-- **Compaction is transparent.** After any allowed moves of two copies of a peer, what is
seen of them is the same; every further step both can be asked to take makes both panic or
both return the same results with the same view after it, and every snapshot the compacting
copy may take succeeds and leaves the view the same. -/
theorem compaction_transparent {rf : Raft n C D} (hne : rf.logs ≠ [])
    (hcommit : rf.snapshotIndex ≤ rf.commitIndex) {moves : List (Move n C D)} {c : Copies n C D}
    (hrun : Machine.run Copies.step { compacting := rf, plain := rf } moves = some c) :
    c.compacting.SameView c.plain ∧
    (∀ action, c.compacting.Within action → Lockstep SameView c.compacting c.plain action) ∧
    (∀ data index, c.compacting.snapshotIndex < index →
      index ≤ min c.compacting.commitIndex c.compacting.lastIndex →
      ∃ a', c.compacting.newSnapShot data index = some a' ∧ a'.SameView c.plain) := by
  have hstart : rf.CompactedFrom rf := by
    refine ⟨⟨[], rf.persister, rf.snapshotTerm, ?_⟩, hne, hcommit⟩
    simp [restore]
  have hrel : c.compacting.CompactedFrom c.plain :=
    Machine.run_induction (I := fun c => c.compacting.CompactedFrom c.plain)
      (fun _ _ _ h _ hs => Copies.step_compactedFrom h hs) hstart
      (Machine.along_of_forall (P := fun _ => True) (fun _ _ => trivial)) hrun
  refine ⟨hrel.sameView, fun action hw => ?_, fun data index hold hmin => ?_⟩
  · exact (hrel.lockstep action hw).mono (fun _ _ h => h.sameView)
  · obtain ⟨a', ha', h'⟩ := hrel.newSnapShot data hold (by omega) (by omega)
    exact ⟨a', ha', h'.sameView⟩

/-- A follower with two committed entries. -/
def twoCommitted : Raft 3 Nat Unit :=
  { make 0 Persister.makePersister with
    currentTerm := 1
    logs := [⟨0, none⟩, ⟨1, some 10⟩, ⟨1, some 11⟩]
    commitIndex := 2 }

/-- One copy compacts its first entry and both accept the next one. -/
def compactThenAppend : List (Move 3 Nat Unit) :=
  [.compact (some ()) 1, .both (.appendEntries ⟨1, 1, 2, 1, [⟨1, some 12⟩], 3⟩)]

theorem compaction_transparent_compactThenAppend :
    ∃ c, Machine.run Copies.step { compacting := twoCommitted, plain := twoCommitted }
        compactThenAppend = some c ∧
      c.compacting.snapshotIndex = 1 ∧ c.plain.snapshotIndex = 0 ∧
      c.compacting.commitIndex = 3 ∧ c.compacting.SameView c.plain := by
  have hrun : (Machine.run Copies.step { compacting := twoCommitted, plain := twoCommitted }
      compactThenAppend).any (fun c => c.compacting.snapshotIndex = 1 ∧
        c.plain.snapshotIndex = 0 ∧ c.compacting.commitIndex = 3) = true := by decide
  simp only [Option.any_eq_true, decide_eq_true_eq] at hrun
  obtain ⟨c, hc, hsnap, hplain, hcommit⟩ := hrun
  exact ⟨c, hc, hsnap, hplain, hcommit,
    (compaction_transparent (show twoCommitted.logs ≠ [] by decide) (by decide) hc).1⟩

end RaftLab.Raft
