import Mathlib.Tactic

set_option autoImplicit false

/-! # Indexing and slicing with run-time bounds

Slices indexed by signed integers, as in Go: `s[i]`, `s[i:]`, `s[:j]` and `s[i:j]` stop the
program when an index is out of range. A list stands for the slice and `none` for the
run-time panic.

The upper bound of `s[i:j]` is the capacity of `s` and not its length: behind a slice that
was cut, its array still has the old elements. So `between` is given what the array has
behind `s`. `takeTo` is for an `s[:j]` whose `j` is within the length.
-/

namespace RaftLab.Slice

variable {α : Type}

/-- `s[i]`. -/
def index (s : List α) (i : Int) : Option α :=
  if 0 ≤ i then s[i.toNat]? else none

/-- `s[i:]`. -/
def dropFrom (s : List α) (i : Int) : Option (List α) :=
  if 0 ≤ i ∧ i ≤ s.length then some (s.drop i.toNat) else none

/-- `s[:j]`, where `s[j-1]` has been read. -/
def takeTo (s : List α) (j : Int) : Option (List α) :=
  if 0 ≤ j ∧ j ≤ s.length then some (s.take j.toNat) else none

/-- `s[i:j]`; `spare` is what the array has behind `s`. -/
def between (s spare : List α) (i j : Int) : Option (List α) :=
  if 0 ≤ i ∧ i ≤ j ∧ j ≤ s.length + spare.length then
    some (((s ++ spare).take j.toNat).drop i.toNat)
  else none

@[simp] theorem index_natCast (s : List α) (i : Nat) : index s (i : Int) = s[i]? := by
  simp [index]

theorem index_eq_some {s : List α} {i : Int} {a : α} (h : index s i = some a) :
    ∃ k : Nat, i = k ∧ s[k]? = some a := by
  unfold index at h
  split at h
  · exact ⟨i.toNat, by omega, h⟩
  · cases h

theorem index_eq_none_iff {s : List α} {i : Int} :
    index s i = none ↔ i < 0 ∨ (s.length : Int) ≤ i := by
  unfold index
  split
  · rw [List.getElem?_eq_none_iff]
    omega
  · exact iff_of_true rfl (by omega)

theorem index_drop {s : List α} {i : Int} (k : Nat) (h : 0 ≤ i) :
    index (s.drop k) i = index s (i + k) := by
  obtain ⟨m, rfl⟩ := Int.eq_ofNat_of_zero_le h
  rw [index_natCast, List.getElem?_drop, ← Nat.cast_add, index_natCast, Nat.add_comm]

theorem index_cons_of_pos {s : List α} {a : α} {i : Int} (h : 0 < i) :
    index (a :: s) i = index s (i - 1) := by
  obtain ⟨m, rfl⟩ : ∃ m : Nat, i = m + 1 := ⟨(i - 1).toNat, by omega⟩
  rw [← Nat.cast_add_one, index_natCast, List.getElem?_cons_succ, Nat.cast_add_one,
    add_sub_cancel_right, index_natCast]

theorem dropFrom_eq_some {s t : List α} {i : Int} (h : dropFrom s i = some t) :
    0 ≤ i ∧ i ≤ s.length ∧ t = s.drop i.toNat := by
  unfold dropFrom at h
  split at h
  · rename_i hi
    exact ⟨hi.1, hi.2, (Option.some.inj h).symm⟩
  · cases h

theorem dropFrom_natCast {s : List α} {i : Nat} (h : i ≤ s.length) :
    dropFrom s (i : Int) = some (s.drop i) := by
  simp [dropFrom, h]

theorem takeTo_eq_some {s t : List α} {j : Int} (h : takeTo s j = some t) :
    0 ≤ j ∧ j ≤ s.length ∧ t = s.take j.toNat := by
  unfold takeTo at h
  split at h
  · rename_i hj
    exact ⟨hj.1, hj.2, (Option.some.inj h).symm⟩
  · cases h

theorem takeTo_natCast {s : List α} {j : Nat} (h : j ≤ s.length) :
    takeTo s (j : Int) = some (s.take j) := by
  simp [takeTo, h]

theorem between_eq_some {s spare t : List α} {i j : Int} (h : between s spare i j = some t) :
    0 ≤ i ∧ i ≤ j ∧ j ≤ s.length + spare.length ∧
      t = ((s ++ spare).take j.toNat).drop i.toNat := by
  unfold between at h
  split at h
  · rename_i hij
    exact ⟨hij.1, hij.2.1, hij.2.2, (Option.some.inj h).symm⟩
  · cases h

theorem between_eq_none_iff {s spare : List α} {i j : Int} :
    between s spare i j = none ↔ i < 0 ∨ j < i ∨ (s.length : Int) + spare.length < j := by
  unfold between
  split
  · exact iff_of_false nofun (by omega)
  · exact iff_of_true rfl (by omega)

/-- Within the length, it does not matter what is behind the slice. -/
theorem between_of_le {s spare : List α} {i j : Int} (hi : 0 ≤ i) (hij : i ≤ j)
    (hj : j ≤ s.length) : between s spare i j = some ((s.take j.toNat).drop i.toNat) := by
  unfold between
  rw [if_pos (by omega), List.take_append_of_le_length (by omega)]

/-- Every element of the result has its place in the array. -/
theorem length_of_between {s spare t : List α} {i j : Int} (h : between s spare i j = some t) :
    (t.length : Int) = j - i := by
  obtain ⟨hi, hij, hj, rfl⟩ := between_eq_some h
  rw [List.length_drop, List.length_take, List.length_append]
  omega

/-! ## Slices with something put in front -/

section append

variable {s t : List α} {i : Int}

theorem index_append_right (h : 0 ≤ i) : index (s ++ t) (i + s.length) = index t i := by
  obtain ⟨k, rfl⟩ := Int.eq_ofNat_of_zero_le h
  rw [← Nat.cast_add, index_natCast, index_natCast, List.getElem?_append_right (by omega)]
  congr 1
  omega

theorem index_append_left (h : i < s.length) : index (s ++ t) i = index s i := by
  unfold index
  split
  · rw [List.getElem?_append_left (by omega)]
  · rfl

theorem dropFrom_append_right (h : 0 ≤ i) :
    dropFrom (s ++ t) (i + s.length) = dropFrom t i := by
  obtain ⟨k, rfl⟩ := Int.eq_ofNat_of_zero_le h
  unfold dropFrom
  have hdrop : (s ++ t).drop ((k : Int) + s.length).toNat = t.drop (k : Int).toNat := by
    rw [show ((k : Int) + s.length).toNat = s.length + k by omega, List.drop_append]
    simp
  simp only [hdrop, List.length_append, Nat.cast_add]
  split <;> split <;> first | rfl | omega

theorem takeTo_append_right (h : 0 ≤ i) :
    takeTo (s ++ t) (i + s.length) = (takeTo t i).map (s ++ ·) := by
  obtain ⟨k, rfl⟩ := Int.eq_ofNat_of_zero_le h
  unfold takeTo
  have htake : (s ++ t).take ((k : Int) + s.length).toNat = s ++ t.take (k : Int).toNat := by
    rw [show ((k : Int) + s.length).toNat = s.length + k by omega, List.take_length_add_append]
    simp
  simp only [htake, List.length_append, Nat.cast_add]
  split <;> split <;> first | rfl | omega

end append

end RaftLab.Slice
