import Mathlib.Order.Bounds.Basic
import Mathlib.Tactic

set_option autoImplicit false

/-! # What is new in a sequence

The elements of a sequence have a key and a rank. An element is fresh when its rank exceeds the
rank of every earlier element with its key, and it is a first occurrence when no earlier element
has its key and its rank. `kept ok` keeps the elements for which `ok` holds of the elements before
them, so `kept IsFresh` are the fresh ones.

If the first occurrences of each key have rising ranks, the fresh elements are the first occurrences
(`isFresh_iff_isFirst`), whatever was repeated after them.
-/

namespace RaftLab.Fresh

variable {α κ τ : Type}

section kept

variable (ok : List α → α → Prop) [∀ before a, Decidable (ok before a)]

/-- The elements of a list that are kept, after the elements `before`. -/
def keptAfter (before : List α) : List α → List α
  | [] => []
  | a :: l =>
      if ok before a then a :: keptAfter (before ++ [a]) l else keptAfter (before ++ [a]) l

/-- The elements for which `ok` holds of the elements before them. -/
def kept (l : List α) : List α := keptAfter ok [] l

variable {ok}

theorem keptAfter_append (before l m : List α) :
    keptAfter ok before (l ++ m) = keptAfter ok before l ++ keptAfter ok (before ++ l) m := by
  induction l generalizing before with
  | nil => simp [keptAfter]
  | cons a l ih =>
      simp only [List.cons_append, keptAfter, ih]
      split <;> simp

/-- One element more. -/
theorem kept_concat (l : List α) (a : α) :
    kept ok (l ++ [a]) = kept ok l ++ if ok l a then [a] else [] := by
  rw [kept, keptAfter_append]
  rfl

theorem kept_concat_of_pos {l : List α} {a : α} (h : ok l a) :
    kept ok (l ++ [a]) = kept ok l ++ [a] := by
  rw [kept_concat, if_pos h]

theorem kept_concat_of_neg {l : List α} {a : α} (h : ¬ ok l a) :
    kept ok (l ++ [a]) = kept ok l := by
  rw [kept_concat, if_neg h, List.append_nil]

/-- Two conditions that agree along a list keep the same. -/
theorem kept_congr {ok' : List α → α → Prop} [∀ before a, Decidable (ok' before a)] {l : List α}
    (h : ∀ before a after, l = before ++ a :: after → (ok before a ↔ ok' before a)) :
    kept ok l = kept ok' l := by
  induction l using List.reverseRecOn with
  | nil => rfl
  | append_singleton l a ih =>
      have hrest : kept ok l = kept ok' l :=
        ih fun before b after hl => h before b (after ++ [a]) (by rw [hl]; simp)
      rw [kept_concat, kept_concat, hrest]
      simp only [h l a [] rfl]

end kept

section fresh

variable (key : α → κ) (rank : α → τ)

/-- The element outranks all earlier ones with its key. -/
def IsFresh [LT τ] (before : List α) (a : α) : Prop :=
  ∀ b ∈ before, key b = key a → rank b < rank a

/-- No earlier element has its key and its rank. -/
def IsFirst (before : List α) (a : α) : Prop :=
  ∀ b ∈ before, key b = key a → rank b ≠ rank a

instance [LT τ] [DecidableEq κ] [DecidableLT τ] (before : List α) (a : α) :
    Decidable (IsFresh key rank before a) :=
  inferInstanceAs (Decidable (∀ b ∈ before, key b = key a → rank b < rank a))

instance [DecidableEq κ] [DecidableEq τ] (before : List α) (a : α) :
    Decidable (IsFirst key rank before a) :=
  inferInstanceAs (Decidable (∀ b ∈ before, key b = key a → rank b ≠ rank a))

variable [LinearOrder τ] [DecidableEq κ] {key rank} {l : List α} {a : α}

omit [DecidableEq κ] in
/-- A fresh element occurs for the first time. -/
theorem IsFresh.isFirst (h : IsFresh key rank l a) : IsFirst key rank l a :=
  fun b hb hkey => ne_of_lt (h b hb hkey)

/-- Every pair of a key and a rank that occurs has a first occurrence. -/
theorem exists_mem_kept_isFirst {k : κ} {r : τ} (h : ∃ a ∈ l, key a = k ∧ rank a = r) :
    ∃ a ∈ kept (IsFirst key rank) l, key a = k ∧ rank a = r := by
  induction l using List.reverseRecOn with
  | nil =>
      obtain ⟨a, ha, -⟩ := h
      exact absurd ha List.not_mem_nil
  | append_singleton l c ih =>
      by_cases hearlier : ∃ a ∈ l, key a = k ∧ rank a = r
      · obtain ⟨a, ha, hsame⟩ := ih hearlier
        exact ⟨a, by rw [kept_concat]; exact List.mem_append_left _ ha, hsame⟩
      · obtain ⟨a, ha, hkey, hrank⟩ := h
        rcases List.mem_append.mp ha with ha | ha
        · exact absurd ⟨a, ha, hkey, hrank⟩ hearlier
        · obtain rfl := List.mem_singleton.mp ha
          have hfirst : IsFirst key rank l a := fun b hb hkb hrb =>
            hearlier ⟨b, hb, hkb.trans hkey, hrb.trans hrank⟩
          exact ⟨a, by rw [kept_concat_of_pos hfirst]; simp, hkey, hrank⟩

/-- **Fresh elements are first occurrences**, when the first occurrences of each key have rising
ranks. -/
theorem isFresh_iff_isFirst (before after : List α)
    (h : (kept (IsFirst key rank) (before ++ a :: after)).Pairwise
      fun a b => key a = key b → rank a < rank b) :
    IsFresh key rank before a ↔ IsFirst key rank before a := by
  refine ⟨IsFresh.isFirst, fun hfirst b hb hkey => ?_⟩
  have hsplit : kept (IsFirst key rank) (before ++ a :: after)
      = kept (IsFirst key rank) before ++
        a :: keptAfter (IsFirst key rank) (before ++ [a]) after := by
    rw [kept, keptAfter_append, List.nil_append, keptAfter, if_pos hfirst]
    rfl
  rw [hsplit] at h
  -- the first element like `b` was kept before `a`
  obtain ⟨b', hb', hkey', hrank'⟩ : ∃ b' ∈ kept (IsFirst key rank) before,
      key b' = key b ∧ rank b' = rank b := exists_mem_kept_isFirst ⟨b, hb, rfl, rfl⟩
  have hlt := (List.pairwise_append.mp h).2.2 b' hb' a List.mem_cons_self (hkey'.trans hkey)
  rwa [hrank'] at hlt

omit [DecidableEq κ] in
/-- The position of the first occurrence is the only one. -/
theorem exists_position {k : κ} {r : τ} (h : ∃ a ∈ l, key a = k ∧ rank a = r) :
    ∃ (i : Nat) (a : α), l[i]? = some a ∧ key a = k ∧ rank a = r ∧ IsFirst key rank (l.take i) a ∧
      ∀ (j : Nat) (b : α), l[j]? = some b → key b = k → rank b = r →
        i ≤ j ∧ (IsFirst key rank (l.take j) b → j = i) := by
  classical
  have hex : ∃ i : Nat, ∃ a, l[i]? = some a ∧ key a = k ∧ rank a = r := by
    obtain ⟨a, ha, hsame⟩ := h
    obtain ⟨i, hi⟩ := List.mem_iff_getElem?.mp ha
    exact ⟨i, a, hi, hsame⟩
  obtain ⟨a, ha, hkey, hrank⟩ := Nat.find_spec hex
  have hleast : ∀ (j : Nat) (b : α), l[j]? = some b → key b = k → rank b = r → Nat.find hex ≤ j :=
    fun j b hb hkb hrb => Nat.find_min' hex ⟨b, hb, hkb, hrb⟩
  refine ⟨Nat.find hex, a, ha, hkey, hrank, ?_, fun j b hb hkb hrb => ⟨hleast j b hb hkb hrb, ?_⟩⟩
  · intro b hb hkb hrb
    obtain ⟨j, hj⟩ := List.mem_iff_getElem?.mp hb
    rw [List.getElem?_take] at hj
    split at hj
    · rename_i hlt
      have := hleast j b hj (hkb.trans hkey) (hrb.trans hrank)
      omega
    · cases hj
  · intro hfirst
    by_contra hne
    have hlt : Nat.find hex < j := lt_of_le_of_ne (hleast j b hb hkb hrb) (Ne.symm hne)
    have hmem : a ∈ l.take j :=
      List.mem_iff_getElem?.mpr ⟨Nat.find hex, by rw [List.getElem?_take_of_lt hlt]; exact ha⟩
    exact hfirst a hmem (hkey.trans hkb.symm) (hrank.trans hrb.symm)

end fresh

end RaftLab.Fresh
