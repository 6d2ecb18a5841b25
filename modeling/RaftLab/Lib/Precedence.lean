import Mathlib.Tactic

set_option autoImplicit false

/-! # The order of the elements of a list

`Precedes l x y` says that `x` stands before `y` in `l`. In a list without repetition this is a
strict total order on the elements. The elements before the first one that fails a test are those
that pass it and that no failing element precedes (`mem_takeWhile_iff`).
-/

namespace RaftLab

variable {α : Type} {l : List α} {x y : α}

/-- `x` stands before `y` in `l`. -/
def Precedes (l : List α) (x y : α) : Prop := [x, y].Sublist l

instance [DecidableEq α] (l : List α) (x y : α) : Decidable (Precedes l x y) :=
  inferInstanceAs (Decidable ([x, y].Sublist l))

namespace Precedes

theorem left_mem (h : Precedes l x y) : x ∈ l := h.subset List.mem_cons_self

theorem right_mem (h : Precedes l x y) : y ∈ l := h.subset (by simp)

theorem cons_iff {a : α} : Precedes (a :: l) x y ↔ Precedes l x y ∨ a = x ∧ y ∈ l := by
  constructor
  · intro h
    cases h with
    | cons _ h => exact .inl h
    | cons_cons _ h => exact .inr ⟨rfl, List.singleton_sublist.mp h⟩
  · rintro (h | ⟨rfl, hy⟩)
    · exact h.cons a
    · exact (List.singleton_sublist.mpr hy).cons_cons a

theorem asymm (hl : l.Nodup) (h : Precedes l x y) : ¬ Precedes l y x := by
  induction l with
  | nil => exact absurd h.left_mem List.not_mem_nil
  | cons a l ih =>
      obtain ⟨ha, hl⟩ := List.nodup_cons.mp hl
      intro h'
      rcases cons_iff.mp h with h | ⟨rfl, hy⟩ <;> rcases cons_iff.mp h' with h' | ⟨rfl, hx⟩
      · exact ih hl h h'
      · exact ha h.right_mem
      · exact ha h'.right_mem
      · exact ha hx

theorem total (hx : x ∈ l) (hy : y ∈ l) (hne : x ≠ y) : Precedes l x y ∨ Precedes l y x := by
  induction l with
  | nil => cases hx
  | cons a l ih =>
      rcases List.mem_cons.mp hx with rfl | hx' <;> rcases List.mem_cons.mp hy with rfl | hy'
      · exact absurd rfl hne
      · exact .inl (cons_iff.mpr (.inr ⟨rfl, hy'⟩))
      · exact .inr (cons_iff.mpr (.inr ⟨rfl, hx'⟩))
      · exact (ih hx' hy').imp (·.cons a) (·.cons a)

/-- Leaving out elements does not change the order of the others. -/
theorem filter_iff {q : α → Bool} :
    Precedes (l.filter q) x y ↔ Precedes l x y ∧ q x = true ∧ q y = true := by
  constructor
  · intro h
    exact ⟨h.trans List.filter_sublist, (List.mem_filter.mp h.left_mem).2,
      (List.mem_filter.mp h.right_mem).2⟩
  · rintro ⟨h, hx, hy⟩
    have hfilter := List.Sublist.filter q h
    rwa [List.filter_cons_of_pos hx, List.filter_cons_of_pos hy, List.filter_nil] at hfilter

/-- What `y` precedes stands in the part after `y`. -/
theorem mem_after {A B : List α} (hl : (A ++ y :: B).Nodup) (h : Precedes (A ++ y :: B) y x) :
    x ∈ B := by
  induction A with
  | nil =>
      rcases cons_iff.mp h with h | ⟨-, hx⟩
      · exact absurd h.left_mem (List.nodup_cons.mp hl).1
      · exact hx
  | cons a A ih =>
      obtain ⟨ha, hl⟩ := List.nodup_cons.mp hl
      rcases cons_iff.mp h with h | ⟨rfl, -⟩
      · exact ih hl h
      · exact absurd (by simp) ha

/-- Renaming the elements apart does not change their order. -/
theorem map_iff {β : Type} {f : α → β} (hl : (l.map f).Nodup) (hx : x ∈ l) (hy : y ∈ l) :
    Precedes (l.map f) (f x) (f y) ↔ Precedes l x y := by
  constructor
  · intro h
    by_cases hxy : x = y
    · subst hxy
      exact absurd h (h.asymm hl)
    · rcases total hx hy hxy with h' | h'
      · exact h'
      · exact absurd (h'.map f) (h.asymm hl)
  · intro h
    exact h.map f

end Precedes

/-- What is left when just two elements fail a test. -/
theorem filter_eq_of_two {A Q R : List α} {q : α → Bool} (hl : (A ++ x :: Q ++ y :: R).Nodup)
    (hx : q x = false) (hy : q y = false)
    (hrest : ∀ z ∈ A ++ x :: Q ++ y :: R, z ≠ x → z ≠ y → q z = true) :
    (A ++ x :: Q ++ y :: R).filter q = A ++ Q ++ R := by
  have hkeep : ∀ B : List α, (∀ z ∈ B, z ∈ A ++ x :: Q ++ y :: R ∧ z ≠ x ∧ z ≠ y) →
      B.filter q = B := fun B hB =>
    List.filter_eq_self.mpr fun z hz => hrest z (hB z hz).1 (hB z hz).2.1 (hB z hz).2.2
  simp only [List.nodup_append, List.nodup_cons, List.mem_append, List.mem_cons] at hl
  rw [List.filter_append, List.filter_append, List.filter_cons_of_neg (by simp [hx]),
    List.filter_cons_of_neg (by simp [hy]), hkeep A, hkeep Q, hkeep R]
  · grind
  · grind
  · grind

/-- The elements before the first one that fails a test. -/
theorem mem_takeWhile_iff {p : α → Bool} (hl : l.Nodup) :
    x ∈ l.takeWhile p ↔ x ∈ l ∧ p x = true ∧ ∀ y, p y = false → ¬ Precedes l y x := by
  induction l with
  | nil => simp
  | cons a l ih =>
      obtain ⟨ha, hl⟩ := List.nodup_cons.mp hl
      rw [List.takeWhile_cons]
      split
      · rename_i hpa
        rw [List.mem_cons, List.mem_cons, ih hl]
        constructor
        · rintro (rfl | ⟨hx, hpx, hno⟩)
          · refine ⟨.inl rfl, hpa, fun y hy h => ?_⟩
            rcases Precedes.cons_iff.mp h with h | ⟨-, hx⟩
            · exact ha h.right_mem
            · exact ha hx
          · refine ⟨.inr hx, hpx, fun y hy h => ?_⟩
            rcases Precedes.cons_iff.mp h with h | ⟨rfl, -⟩
            · exact hno y hy h
            · rw [hpa] at hy
              cases hy
        · rintro ⟨rfl | hx, hpx, hno⟩
          · exact .inl rfl
          · exact .inr ⟨hx, hpx, fun y hy h => hno y hy (h.cons a)⟩
      · rename_i hpa
        -- nothing is taken, and `a` stands before all the others
        refine ⟨fun h => absurd h List.not_mem_nil, ?_⟩
        rintro ⟨hx, hpx, hno⟩
        rcases List.mem_cons.mp hx with rfl | hx
        · exact absurd hpx hpa
        · exact absurd (Precedes.cons_iff.mpr (.inr ⟨rfl, hx⟩)) (hno a (by simpa using hpa))

end RaftLab
