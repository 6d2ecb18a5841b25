import RaftLab.Raft.Snapshot

set_option autoImplicit false

/-! # The log by absolute index

The handlers address the log by absolute index and turn it into a slice position with their
own offsets. Here the log is read the other way round: `entryAt i` is the entry with absolute
index `i`, for the indices from `snapshotIndex` to `lastIndex`. The command of the entry at
`snapshotIndex` itself is a placeholder; only its term counts.
-/

namespace RaftLab.Raft

variable {n : Nat} {C D : Type} {rf rf' : Raft n C D}

/-- The entry with absolute index `i`. -/
def entryAt (rf : Raft n C D) (i : Int) : Option (LogEntry C) :=
  Slice.index rf.logs (i - rf.snapshotIndex)

/-- The term of the entry with absolute index `i`. -/
def termAt (rf : Raft n C D) (i : Int) : Option Nat := (rf.entryAt i).map (·.term)

/-- The absolute index of the last entry. -/
def lastIndex (rf : Raft n C D) : Int := rf.snapshotIndex + rf.logs.length - 1

@[simp] theorem entryAt_add (rf : Raft n C D) (k : Nat) :
    rf.entryAt (rf.snapshotIndex + k) = rf.logs[k]? := by
  rw [entryAt, add_sub_cancel_left, Slice.index_natCast]

@[simp] theorem entryAt_snapshotIndex (rf : Raft n C D) :
    rf.entryAt rf.snapshotIndex = rf.logs[0]? := by
  simpa using rf.entryAt_add 0

theorem entryAt_eq_none_iff {i : Int} :
    rf.entryAt i = none ↔ i < rf.snapshotIndex ∨ rf.lastIndex < i := by
  rw [entryAt, Slice.index_eq_none_iff, lastIndex]
  omega

theorem entryAt_eq_some {i : Int} {e : LogEntry C} (h : rf.entryAt i = some e) :
    ∃ k : Nat, i = rf.snapshotIndex + k ∧ rf.logs[k]? = some e := by
  obtain ⟨k, hk, he⟩ := Slice.index_eq_some h
  exact ⟨k, by omega, he⟩

theorem termAt_eq_none_iff {i : Int} :
    rf.termAt i = none ↔ i < rf.snapshotIndex ∨ rf.lastIndex < i := by
  rw [termAt, Option.map_eq_none_iff, entryAt_eq_none_iff]

theorem termAt_eq_some {i : Int} {t : Nat} (h : rf.termAt i = some t) :
    rf.snapshotIndex ≤ i ∧ i ≤ rf.lastIndex := by
  have hne : rf.termAt i ≠ none := by simp [h]
  rw [Ne, termAt_eq_none_iff] at hne
  omega

theorem lastLogIndexAndTerm_eq (rf : Raft n C D) :
    rf.lastLogIndexAndTerm = (rf.termAt rf.lastIndex).map (fun t => (rf.lastIndex, t)) := by
  show (rf.entryAt rf.lastIndex).bind (fun e => some (rf.lastIndex, e.term)) = _
  rw [termAt]
  cases rf.entryAt rf.lastIndex <;> rfl

/-- The log has its placeholder. -/
structure LogStarted (rf : Raft n C D) : Prop where
  nonempty : rf.logs ≠ []
  snapshotIndex_nonneg : 0 ≤ rf.snapshotIndex

theorem LogStarted.snapshotIndex_le (h : rf.LogStarted) : rf.snapshotIndex ≤ rf.lastIndex := by
  have hlen := List.length_pos_of_ne_nil h.nonempty
  rw [lastIndex]
  omega

/-! ## After a snapshot of another peer -/

/-- An accepted snapshot goes in front of all entries above `LastIncludedIndex`. -/
theorem installSnapshot_of_le {rf : Raft n C D} {args : InstallSnapshotArgs n D}
    (hterm : rf.currentTerm ≤ args.term) (hlast : rf.snapshotIndex < args.lastIncludedIndex) :
    rf.installSnapshot args =
      some (rf.installAt args (rf.logs.drop (args.lastIncludedIndex - rf.snapshotIndex + 1).toNat),
        { currentTerm := rf.currentTerm },
        some (snapshotMsg args.lastIncludedIndex args.snapshot)) := by
  unfold installSnapshot
  rw [if_neg (by omega), if_neg (by omega)]
  split
  · rename_i hall
    rw [List.drop_eq_nil_of_le (by omega)]
  · rw [Slice.dropFrom, if_pos (by omega)]
    rfl

theorem installSnapshot_of_lt {rf : Raft n C D} {args : InstallSnapshotArgs n D}
    (hterm : args.term < rf.currentTerm) :
    rf.installSnapshot args = some (rf, { currentTerm := rf.currentTerm }, none) := by
  unfold installSnapshot
  rw [if_pos hterm]

/-- The log after an accepted snapshot, above `LastIncludedIndex`. -/
theorem entryAt_installAt {rf : Raft n C D} {args : InstallSnapshotArgs n D} {i : Int}
    (hlast : rf.snapshotIndex < args.lastIncludedIndex) (hi : args.lastIncludedIndex < i) :
    (rf.installAt args
      (rf.logs.drop (args.lastIncludedIndex - rf.snapshotIndex + 1).toNat)).entryAt i
      = rf.entryAt i := by
  show Slice.index (_ :: _) (i - args.lastIncludedIndex) =
    Slice.index rf.logs (i - rf.snapshotIndex)
  rw [Slice.index_cons_of_pos (by omega), Slice.index_drop _ (by omega)]
  congr 1
  omega

theorem termAt_installAt (rf : Raft n C D) (args : InstallSnapshotArgs n D)
    (rest : List (LogEntry C)) :
    (rf.installAt args rest).termAt args.lastIncludedIndex = some args.lastIncludedTerm := by
  rw [termAt, show args.lastIncludedIndex = (rf.installAt args rest).snapshotIndex from rfl,
    entryAt_snapshotIndex]
  rfl

/-! ## Laws of the log -/

/-- The terms of the log never fall. -/
def NondecreasingTerms (rf : Raft n C D) : Prop :=
  ∀ i j s t, i ≤ j → rf.termAt i = some s → rf.termAt j = some t → s ≤ t

theorem nondecreasingTerms_iff :
    rf.NondecreasingTerms ↔ (rf.logs.map (·.term)).Pairwise (· ≤ ·) := by
  have hterm : ∀ (k : Nat) (hk : k < (rf.logs.map (·.term)).length),
      rf.termAt (rf.snapshotIndex + k) = some (rf.logs.map (·.term))[k] := by
    intro k hk
    rw [termAt, entryAt_add, ← List.getElem?_map, List.getElem?_eq_getElem hk]
  rw [List.pairwise_iff_getElem]
  constructor
  · intro h i j hi hj hij
    exact h _ _ _ _ (by omega) (hterm i hi) (hterm j hj)
  · intro h i j s t hij hs ht
    have hi := termAt_eq_some hs
    have hj := termAt_eq_some ht
    obtain ⟨k, rfl⟩ : ∃ k : Nat, i = rf.snapshotIndex + k :=
      ⟨(i - rf.snapshotIndex).toNat, by omega⟩
    obtain ⟨l, rfl⟩ : ∃ l : Nat, j = rf.snapshotIndex + l :=
      ⟨(j - rf.snapshotIndex).toNat, by omega⟩
    have hlen : (rf.logs.map (·.term)).length = rf.logs.length := List.length_map _
    rw [lastIndex] at hi hj
    rw [hterm k (by omega)] at hs
    rw [hterm l (by omega)] at ht
    obtain rfl := Option.some.inj hs
    obtain rfl := Option.some.inj ht
    rcases Nat.lt_or_eq_of_le (show k ≤ l by omega) with hlt | rfl
    · exact h k l _ _ hlt
    · exact le_refl _

instance (rf : Raft n C D) : Decidable rf.NondecreasingTerms :=
  decidable_of_iff _ nondecreasingTerms_iff.symm

/-- Two logs with an entry of the same term at one index agree below it, as far as both
reach down: in the terms, and above both snapshots also in the commands. -/
def LogMatching (a b : Raft n C D) : Prop :=
  ∀ i t, a.termAt i = some t → b.termAt i = some t →
    ∀ j ≤ i, a.snapshotIndex ≤ j → b.snapshotIndex ≤ j →
      a.termAt j = b.termAt j ∧
        (a.snapshotIndex < j → b.snapshotIndex < j → a.entryAt j = b.entryAt j)

/-- `rf'` is the log of `rf` with a beginning replaced by its last term. -/
structure CutFrom (rf' rf : Raft n C D) : Prop where
  snapshotIndex_le : rf.snapshotIndex ≤ rf'.snapshotIndex
  termAt_eq : ∀ i, rf'.snapshotIndex ≤ i → rf'.termAt i = rf.termAt i
  entryAt_eq : ∀ i, rf'.snapshotIndex < i → rf'.entryAt i = rf.entryAt i

namespace CutFrom

theorem termAt_of_some (h : rf'.CutFrom rf) {i : Int} {t : Nat} (ht : rf'.termAt i = some t) :
    rf.termAt i = some t := by
  rw [← h.termAt_eq i (termAt_eq_some ht).1]
  exact ht

theorem nondecreasingTerms (h : rf'.CutFrom rf) (hmono : rf.NondecreasingTerms) :
    rf'.NondecreasingTerms :=
  fun i j s t hij hs ht => hmono i j s t hij (h.termAt_of_some hs) (h.termAt_of_some ht)

theorem logMatching (h : rf'.CutFrom rf) {other : Raft n C D} (hm : rf.LogMatching other) :
    rf'.LogMatching other := by
  intro i t hi hoi j hji hj hoj
  have hold := hm i t (h.termAt_of_some hi) hoi j hji (le_trans h.snapshotIndex_le hj) hoj
  constructor
  · rw [h.termAt_eq j hj]
    exact hold.1
  · intro hlt holt
    rw [h.entryAt_eq j hlt]
    exact hold.2 (lt_of_le_of_lt h.snapshotIndex_le hlt) holt

end CutFrom

end RaftLab.Raft
