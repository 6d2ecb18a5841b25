import Mathlib.Data.List.Sort
import Mathlib.Data.List.FinRange
import Mathlib.Data.Fintype.Basic
import Mathlib.Tactic

set_option autoImplicit false

/-! # Reading a quorum off a sorted list

Sort the values `f i` of a finite table in ascending order and read position `m`: a value is at
most the one read exactly when at least `n - m` of the values are as large as it is
(`le_sorted_table_iff`). The values at least as large as the one in the middle belong to half of
the parties, and such a set meets every set of more than half of them (`exists_mem_both`).
-/

namespace RaftLab.Median

variable {α : Type} [LinearOrder α]

/-- Behind position `m` of a sorted list nothing is smaller than the entry there. -/
theorem le_of_mem_drop {l : List α} (hl : l.Pairwise (· ≤ ·)) {m : Nat} {x : α}
    (hx : l[m]? = some x) : ∀ y ∈ l.drop m, x ≤ y := by
  obtain ⟨hlt, rfl⟩ := List.getElem?_eq_some_iff.mp hx
  have hdrop : (l.drop m).Pairwise (· ≤ ·) := hl.drop
  rw [List.drop_eq_getElem_cons hlt] at hdrop ⊢
  intro y hy
  rcases List.mem_cons.mp hy with rfl | hy
  · exact le_refl _
  · exact (List.pairwise_cons.mp hdrop).1 y hy

theorem length_sub_le_countP {l : List α} {m : Nat} {x : α}
    (hx : (l.insertionSort (· ≤ ·))[m]? = some x) :
    l.length - m ≤ l.countP (fun y => x ≤ y) := by
  set s := l.insertionSort (· ≤ ·) with hs
  have hperm : s.Perm l := List.perm_insertionSort _ l
  have hge := le_of_mem_drop (List.pairwise_insertionSort (· ≤ ·) l) hx
  calc l.length - m
      = (s.drop m).length := by rw [List.length_drop, hperm.length_eq]
    _ = (s.drop m).countP (fun y => x ≤ y) := by
        rw [List.countP_eq_length.mpr]
        intro y hy
        exact decide_eq_true (hge y hy)
    _ ≤ s.countP (fun y => x ≤ y) := (List.drop_sublist m s).countP_le
    _ = l.countP (fun y => x ≤ y) := hperm.countP_eq _

/-- Up to position `m` of a sorted list nothing is larger than the entry there. -/
theorem le_of_mem_take {l : List α} (hl : l.Pairwise (· ≤ ·)) {m : Nat} {x : α}
    (hx : l[m]? = some x) : ∀ y ∈ l.take (m + 1), y ≤ x := by
  obtain ⟨hlt, rfl⟩ := List.getElem?_eq_some_iff.mp hx
  have htake : (l.take (m + 1)).Pairwise (· ≤ ·) := hl.take
  rw [← List.take_append_getElem hlt] at htake ⊢
  intro y hy
  rcases List.mem_append.mp hy with hy | hy
  · exact (List.pairwise_append.mp htake).2.2 y hy _ List.mem_cons_self
  · exact le_of_eq (List.mem_singleton.mp hy)

/-- **Order statistics.** A value is at most the one at position `m` of the sorted list exactly
when all but `m` of the values are as large as it is. -/
theorem le_sorted_iff {l : List α} {m : Nat} {x : α}
    (hx : (l.insertionSort (· ≤ ·))[m]? = some x) (y : α) :
    y ≤ x ↔ l.length - m ≤ l.countP (fun z => y ≤ z) := by
  constructor
  · intro hyx
    refine Nat.le_trans (length_sub_le_countP hx) (List.countP_mono_left fun z _ hz => ?_)
    exact decide_eq_true (le_trans hyx (of_decide_eq_true hz))
  · intro hcount
    by_contra hlt
    set s := l.insertionSort (· ≤ ·) with hs
    have hperm : s.Perm l := List.perm_insertionSort _ l
    have hm : m < s.length := (List.getElem?_eq_some_iff.mp hx).1
    have hsmall := le_of_mem_take (List.pairwise_insertionSort (· ≤ ·) l) hx
    -- nothing up to `m` is as large as `y`
    have hnone : (s.take (m + 1)).countP (fun z => y ≤ z) = 0 := by
      rw [List.countP_eq_zero]
      intro z hz hyz
      exact hlt (le_trans (of_decide_eq_true hyz) (hsmall z hz))
    have hfew : l.countP (fun z => y ≤ z) ≤ s.length - (m + 1) :=
      calc l.countP (fun z => y ≤ z)
          = s.countP (fun z => y ≤ z) := (hperm.countP_eq _).symm
        _ = (s.take (m + 1) ++ s.drop (m + 1)).countP (fun z => y ≤ z) := by
            rw [List.take_append_drop]
        _ = (s.drop (m + 1)).countP (fun z => y ≤ z) := by
            rw [List.countP_append, hnone, Nat.zero_add]
        _ ≤ (s.drop (m + 1)).length := List.countP_le_length
        _ = s.length - (m + 1) := List.length_drop
    rw [hperm.length_eq] at hm hfew
    omega

/-! ## Tables -/

omit [LinearOrder α] in
theorem countP_map_finRange {n : Nat} (f : Fin n → α) (p : α → Bool) :
    ((List.finRange n).map f).countP p = (Finset.univ.filter (fun i => p (f i) = true)).card := by
  have hset : Finset.univ.filter (fun i => p (f i) = true)
      = ((List.finRange n).filter (fun i => p (f i))).toFinset := by
    ext i
    simp
  rw [hset, List.toFinset_card_of_nodup ((List.nodup_finRange n).filter _), List.countP_map,
    List.countP_eq_length_filter]
  rfl

/-- Position `m` of the sorted table, in terms of the entries that are as large as a value. -/
theorem le_sorted_table_iff {n m : Nat} {f : Fin n → α} {x : α}
    (hx : (((List.finRange n).map f).insertionSort (· ≤ ·))[m]? = some x) (y : α) :
    y ≤ x ↔ n - m ≤ (Finset.univ.filter (fun i => y ≤ f i)).card := by
  rw [le_sorted_iff hx, countP_map_finRange, List.length_map, List.length_finRange]
  simp only [decide_eq_true_eq]

/-- **The quorum behind the value read.** -/
theorem exists_quorum {n m : Nat} {f : Fin n → α} {x : α}
    (hx : (((List.finRange n).map f).insertionSort (· ≤ ·))[m]? = some x) :
    ∃ Q : Finset (Fin n), n - m ≤ Q.card ∧ ∀ i ∈ Q, x ≤ f i :=
  ⟨Finset.univ.filter (fun i => x ≤ f i), (le_sorted_table_iff hx x).mp (le_refl x),
    fun _ hi => (Finset.mem_filter.mp hi).2⟩

/-! ## Two quorums -/

/-- A set of more than half of the parties meets a set of at least half of them. -/
theorem exists_mem_both {P : Type} [Fintype P] [DecidableEq P] {V Q : Finset P}
    (hV : Fintype.card P / 2 + 1 ≤ V.card)
    (hQ : Fintype.card P - Fintype.card P / 2 ≤ Q.card) : ∃ p, p ∈ V ∧ p ∈ Q := by
  by_contra hnone
  have hdisj : Disjoint V Q := by
    rw [Finset.disjoint_left]
    intro p hp hq
    exact hnone ⟨p, hp, hq⟩
  have hcard := Finset.card_le_univ (V ∪ Q)
  rw [Finset.card_union_of_disjoint hdisj] at hcard
  omega

end RaftLab.Median
