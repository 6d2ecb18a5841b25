import Mathlib.Tactic

set_option autoImplicit false

/-! # Lists of records updated in place

A table of records is a list; `l.set k b` replaces record `k`. What holds of some or of all
records after the update follows from what held before and from what holds of `b`.
-/

namespace RaftLab.Records

variable {α : Type} {l : List α} {k : Nat} {a b : α} {P : α → Prop}

theorem lt_length_of_getElem? (hk : l[k]? = some a) : k < l.length :=
  (List.getElem?_eq_some_iff.mp hk).1

theorem set_eq_self (hk : l[k]? = some a) : l.set k a = l := by
  obtain ⟨hlt, rfl⟩ := List.getElem?_eq_some_iff.mp hk
  exact List.set_getElem_self hlt

/-- A view of the records that the update does not change. -/
theorem map_set_eq {β : Type} {f : α → β} (hk : l[k]? = some a) (hf : f b = f a) :
    (l.set k b).map f = l.map f := by
  rw [List.map_set, hf]
  exact set_eq_self (by rw [List.getElem?_map, hk]; rfl)

theorem forall_mem_set (hl : ∀ x ∈ l, P x) (hb : P b) : ∀ x ∈ l.set k b, P x := by
  intro x hx
  rcases List.mem_or_eq_of_mem_set hx with hx | rfl
  · exact hl x hx
  · exact hb

theorem forall_mem_append_singleton (hl : ∀ x ∈ l, P x) (hb : P b) :
    ∀ x ∈ l ++ [b], P x := by
  intro x hx
  rcases List.mem_append.mp hx with hx | hx
  · exact hl x hx
  · rw [List.mem_singleton.mp hx]
    exact hb

/-- Record `k` did not have the property: afterwards some record has it exactly when some
record had it, or the new one does. -/
theorem exists_mem_set_or (hk : l[k]? = some a) (ha : ¬ P a) :
    (∃ x ∈ l.set k b, P x) ↔ (∃ x ∈ l, P x) ∨ P b := by
  constructor
  · rintro ⟨x, hx, hP⟩
    rcases List.mem_or_eq_of_mem_set hx with hx | rfl
    · exact Or.inl ⟨x, hx, hP⟩
    · exact Or.inr hP
  · rintro (⟨x, hx, hP⟩ | hP)
    · obtain ⟨i, hi⟩ := List.mem_iff_getElem?.mp hx
      have hne : k ≠ i := by
        rintro rfl
        exact ha (Option.some.inj (hk.symm.trans hi) ▸ hP)
      exact ⟨x, List.mem_of_getElem? (by rw [List.getElem?_set_ne hne]; exact hi), hP⟩
    · exact ⟨b, List.mem_set (lt_length_of_getElem? hk) b, hP⟩

/-- The update does not change whether record `k` has the property. -/
theorem exists_mem_set_iff (hk : l[k]? = some a) (hab : P b ↔ P a) :
    (∃ x ∈ l.set k b, P x) ↔ ∃ x ∈ l, P x := by
  by_cases ha : P a
  · exact ⟨fun _ => ⟨a, List.mem_of_getElem? hk, ha⟩,
      fun _ => ⟨b, List.mem_set (lt_length_of_getElem? hk) b, hab.mpr ha⟩⟩
  · rw [exists_mem_set_or hk ha]
    constructor
    · rintro (h | hb)
      · exact h
      · exact absurd (hab.mp hb) ha
    · exact Or.inl

/-- Record `i` after the update of record `k`. -/
theorem getElem?_set_cases {i : Nat} {x : α} (hk : l[k]? = some a)
    (h : (l.set k b)[i]? = some x) : (i = k ∧ x = b) ∨ (i ≠ k ∧ l[i]? = some x) := by
  by_cases hik : i = k
  · subst hik
    rw [List.getElem?_set_self (lt_length_of_getElem? hk)] at h
    exact Or.inl ⟨rfl, (Option.some.inj h).symm⟩
  · rw [List.getElem?_set_ne (Ne.symm hik)] at h
    exact Or.inr ⟨hik, h⟩

/-- Record `j` after one more record is added. -/
theorem getElem?_concat_cases {j : Nat} (h : (l ++ [a])[j]? = some b) :
    l[j]? = some b ∨ (j = l.length ∧ a = b) := by
  rcases Nat.lt_or_ge j l.length with hlt | hge
  · rw [List.getElem?_append_left hlt] at h
    exact Or.inl h
  · have hj := (List.getElem?_eq_some_iff.mp h).1
    rw [List.length_append, List.length_singleton] at hj
    obtain rfl : j = l.length := by omega
    rw [List.getElem?_concat_length] at h
    exact Or.inr ⟨rfl, Option.some.inj h⟩

end RaftLab.Records
