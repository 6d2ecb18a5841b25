import Mathlib.Tactic

set_option autoImplicit false

/-! # Repeating a round until it succeeds

`round : σ → Option (β ⊕ σ)` is one round of an exchange: it ends with a result, or goes on
in a new state, or fails (`none`). `Finishes` says that repeating it ends with a result after
finitely many rounds. The rule `finishes_iff` settles when it does: on states where `Good`
holds every round that does not end lowers a measure, and a state where it does not hold is
followed by another such state for ever.
-/

namespace RaftLab.Rounds

variable {σ β : Type} (round : σ → Option (β ⊕ σ))

/-- After finitely many rounds there is a result. -/
inductive Finishes : σ → Prop where
  | done {s : σ} {b : β} : round s = some (.inl b) → Finishes s
  | more {s s' : σ} : round s = some (.inr s') → Finishes s' → Finishes s

/-- The state after `k` rounds, none of which ended. -/
def after : Nat → σ → Option σ
  | 0, s => some s
  | k + 1, s =>
      match round s with
      | some (.inr s') => after k s'
      | _ => none

variable {round}

theorem after_succ {k : Nat} {s t : σ} (h : after round (k + 1) s = some t) :
    ∃ s', round s = some (.inr s') ∧ after round k s' = some t := by
  unfold after at h
  split at h
  · rename_i s' hs'
    exact ⟨s', hs', h⟩
  · cases h

theorem Finishes.next {s s' : σ} (h : Finishes round s) (hs : round s = some (.inr s')) :
    Finishes round s' := by
  cases h with
  | done hd =>
      rw [hs] at hd
      cases hd
  | more hm hf =>
      rw [hs] at hm
      cases hm
      exact hf

theorem Finishes.after {k : Nat} {s t : σ} (h : Finishes round s)
    (hk : Rounds.after round k s = some t) : Finishes round t := by
  induction k generalizing s with
  | zero =>
      obtain rfl := Option.some.inj hk
      exact h
  | succ k ih =>
      obtain ⟨s', hs', hrest⟩ := after_succ hk
      exact ih (h.next hs') hrest

variable {I Good : σ → Prop} {μ : σ → Nat}

theorem after_invariant (hI : ∀ s s', I s → round s = some (.inr s') → I s') {k : Nat} {s t : σ}
    (hs : I s) (hk : after round k s = some t) : I t := by
  induction k generalizing s with
  | zero =>
      obtain rfl := Option.some.inj hk
      exact hs
  | succ k ih =>
      obtain ⟨s', hs', hrest⟩ := after_succ hk
      exact ih (hI s s' hs hs') hrest

/-- A state that is not good is followed by such states only. -/
theorem not_finishes (hI : ∀ s s', I s → round s = some (.inr s') → I s')
    (hbad : ∀ s, I s → ¬ Good s → ∃ s', round s = some (.inr s') ∧ ¬ Good s') {s : σ} (hs : I s)
    (hg : ¬ Good s) : ¬ Finishes round s := by
  intro hf
  induction hf with
  | done hd =>
      obtain ⟨s', hs', -⟩ := hbad _ hs hg
      rw [hs'] at hd
      cases hd
  | more hm hf ih =>
      obtain ⟨s', hs', hg'⟩ := hbad _ hs hg
      rw [hm] at hs'
      cases hs'
      exact ih (hI _ _ hs hm) hg'

/-- While the states are good the measure falls until a round ends. -/
theorem finishes_of_good (hI : ∀ s s', I s → round s = some (.inr s') → I s')
    (hgood : ∀ s, I s → Good s → (∃ b, round s = some (.inl b)) ∨
      ∃ s', round s = some (.inr s') ∧ μ s' < μ s)
    {s : σ} (hs : I s) (hall : ∀ k t, after round k s = some t → Good t) : Finishes round s := by
  induction hm : μ s using Nat.strong_induction_on generalizing s with
  | _ m ih =>
      rcases hgood s hs (hall 0 s rfl) with ⟨b, hb⟩ | ⟨s', hs', hlt⟩
      · exact .done hb
      · refine .more hs' (ih (μ s') (by omega) (hI s s' hs hs') (fun k t hk => ?_) rfl)
        refine hall (k + 1) t ?_
        unfold after
        rw [hs']
        exact hk

/-- **When repeating a round succeeds.** -/
theorem finishes_iff (hI : ∀ s s', I s → round s = some (.inr s') → I s')
    (hgood : ∀ s, I s → Good s → (∃ b, round s = some (.inl b)) ∨
      ∃ s', round s = some (.inr s') ∧ μ s' < μ s)
    (hbad : ∀ s, I s → ¬ Good s → ∃ s', round s = some (.inr s') ∧ ¬ Good s')
    {s : σ} (hs : I s) :
    Finishes round s ↔ ∀ k t, after round k s = some t → Good t := by
  constructor
  · intro hf k t hk
    by_contra hg
    exact not_finishes hI hbad (after_invariant hI hs hk) hg (hf.after hk)
  · exact finishes_of_good hI hgood hs

end RaftLab.Rounds
