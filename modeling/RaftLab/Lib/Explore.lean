import Mathlib.Algebra.BigOperators.Group.Finset.Basic
import Mathlib.Data.Finset.Card
import Mathlib.Logic.Relation
import Mathlib.Tactic

set_option autoImplicit false

/-! # Exploring a graph with a set of marks

A depth-first search marks a node before it goes on to its successors, and passes over marked
nodes. On a cyclic graph a node may be passed over while the search of its successors is still
going on, so "everything reachable is marked" is not true in between. What is true is `Explores`:
the nodes marked in between have all their successors marked. The rules `Explores.nil`, `pass`,
`append` and `visit` follow the search; once the marks are closed at the start,
`Explores.mem_iff` says that the search has added exactly what can be reached.

`gained` adds up a weight over the nodes that were marked in between.
-/

namespace RaftLab.Explore

variable {T : Type}

/-- There is a path from `a` to `b`. -/
def Reaches (next : T → List T) : T → T → Prop := Relation.ReflTransGen (fun x y => y ∈ next x)

/-- All successors of the nodes in `S` are in `S`. -/
def Closed (next : T → List T) (S : Finset T) : Prop := ∀ t ∈ S, ∀ u ∈ next t, u ∈ S

/-- A search from `roots` has taken the marks from `S` to `S₁`. -/
structure Explores (next : T → List T) (roots : List T) (S S₁ : Finset T) : Prop where
  subset : S ⊆ S₁
  roots_mem : ∀ r ∈ roots, r ∈ S₁
  closed : ∀ t ∈ S₁, t ∉ S → ∀ u ∈ next t, u ∈ S₁
  reached : ∀ t ∈ S₁, t ∉ S → ∃ r ∈ roots, Reaches next r t

variable {next : T → List T} {roots roots' : List T} {S S₁ S₂ : Finset T} {t : T}

namespace Explores

theorem nil (next : T → List T) (S : Finset T) : Explores next [] S S where
  subset := Finset.Subset.refl S
  roots_mem := fun _ hr => absurd hr List.not_mem_nil
  closed := fun _ ht hnot => absurd ht hnot
  reached := fun _ ht hnot => absurd ht hnot

/-- A marked node is passed over. -/
theorem pass (next : T → List T) (ht : t ∈ S) : Explores next [t] S S where
  subset := Finset.Subset.refl S
  roots_mem := fun _ hr => List.mem_singleton.mp hr ▸ ht
  closed := fun _ hu hnot => absurd hu hnot
  reached := fun _ hu hnot => absurd hu hnot

/-- One search after another. -/
theorem append (h : Explores next roots S S₁) (h' : Explores next roots' S₁ S₂) :
    Explores next (roots ++ roots') S S₂ where
  subset := h.subset.trans h'.subset
  roots_mem := by
    intro r hr
    rcases List.mem_append.mp hr with hr | hr
    · exact h'.subset (h.roots_mem r hr)
    · exact h'.roots_mem r hr
  closed := by
    intro t ht hnot u hu
    by_cases hin : t ∈ S₁
    · exact h'.subset (h.closed t hin hnot u hu)
    · exact h'.closed t ht hin u hu
  reached := by
    intro t ht hnot
    by_cases hin : t ∈ S₁
    · obtain ⟨r, hr, hpath⟩ := h.reached t hin hnot
      exact ⟨r, List.mem_append_left _ hr, hpath⟩
    · obtain ⟨r, hr, hpath⟩ := h'.reached t ht hin
      exact ⟨r, List.mem_append_right _ hr, hpath⟩

/-- A node is marked and its successors are searched. -/
theorem visit [DecidableEq T] (h : Explores next (next t) (insert t S) S₁) :
    Explores next [t] S S₁ where
  subset := (Finset.subset_insert t S).trans h.subset
  roots_mem := fun _ hr => List.mem_singleton.mp hr ▸ h.subset (Finset.mem_insert_self t S)
  closed := by
    intro u hu hnot v hv
    by_cases hut : u = t
    · subst hut
      exact h.roots_mem v hv
    · exact h.closed u hu (by simp [hut, hnot]) v hv
  reached := by
    intro u hu hnot
    refine ⟨t, List.mem_singleton_self t, ?_⟩
    by_cases hut : u = t
    · subst hut
      exact .refl
    · obtain ⟨r, hr, hpath⟩ := h.reached u hu (by simp [hut, hnot])
      exact .head hr hpath

/-- **What a search marks.** From marks that are closed a search leads to marks that are closed,
and it adds exactly the nodes that can be reached. -/
theorem mem_iff (h : Explores next roots S S₁) (hS : Closed next S) (t : T) :
    t ∈ S₁ ↔ t ∈ S ∨ ∃ r ∈ roots, Reaches next r t := by
  have hclosed : Closed next S₁ := by
    intro u hu v hv
    by_cases hin : u ∈ S
    · exact h.subset (hS u hin v hv)
    · exact h.closed u hu hin v hv
  constructor
  · intro ht
    by_cases hin : t ∈ S
    · exact .inl hin
    · exact .inr (h.reached t ht hin)
  · rintro (hin | ⟨r, hr, hpath⟩)
    · exact h.subset hin
    · have hstart := h.roots_mem r hr
      induction hpath with
      | refl => exact hstart
      | tail _ hstep ih => exact hclosed _ ih _ hstep

/-- A later search has fewer nodes left to mark. -/
theorem card_compl_le [Fintype T] [DecidableEq T] (h : Explores next roots S S₁) :
    S₁ᶜ.card ≤ Sᶜ.card :=
  Finset.card_le_card (Finset.compl_subset_compl.mpr h.subset)

end Explores

/-! ## Adding up over the marked nodes -/

section gained

variable [DecidableEq T] (weight : T → Nat)

/-- The weight of the nodes marked in between. -/
def gained (S S₁ : Finset T) : Nat := ∑ t ∈ S₁ \ S, weight t

theorem gained_self (S : Finset T) : gained weight S S = 0 := by
  rw [gained, Finset.sdiff_self, Finset.sum_empty]

theorem gained_add (h : S ⊆ S₁) (h' : S₁ ⊆ S₂) :
    gained weight S S₁ + gained weight S₁ S₂ = gained weight S S₂ := by
  have hdisj : Disjoint (S₁ \ S) (S₂ \ S₁) := by
    rw [Finset.disjoint_left]
    intro t ht ht'
    exact (Finset.mem_sdiff.mp ht').2 (Finset.mem_sdiff.mp ht).1
  rw [gained, gained, gained, ← Finset.sum_union hdisj]
  congr 1
  ext t
  simp only [Finset.mem_union, Finset.mem_sdiff]
  constructor
  · rintro (⟨hin, hnot⟩ | ⟨hin, hnot⟩)
    · exact ⟨h' hin, hnot⟩
    · exact ⟨hin, fun ht => hnot (h ht)⟩
  · rintro ⟨hin, hnot⟩
    by_cases ht : t ∈ S₁
    · exact .inl ⟨ht, hnot⟩
    · exact .inr ⟨hin, ht⟩

/-- A node that is marked first counts once. -/
theorem gained_insert (ht : t ∉ S) (h : insert t S ⊆ S₁) :
    weight t + gained weight (insert t S) S₁ = gained weight S S₁ := by
  rw [← gained_add weight (Finset.subset_insert t S) h]
  congr 1
  have hone : insert t S \ S = {t} := by
    ext u
    simp only [Finset.mem_sdiff, Finset.mem_insert, Finset.mem_singleton]
    constructor
    · rintro ⟨rfl | hu, hnot⟩
      · rfl
      · exact absurd hu hnot
    · rintro rfl
      exact ⟨.inl rfl, ht⟩
  rw [gained, hone, Finset.sum_singleton]

end gained

end RaftLab.Explore
