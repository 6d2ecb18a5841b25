import RaftLab.Lib.Run

set_option autoImplicit false

/-! # Machines that end with one value

`done s` is the value with which a machine has ended in state `s`, if it has. `EndsWith` says that
the machine ends with `v` whatever it does: before it has ended it takes only boundedly many steps
and some step is always possible, so every way to go on leads to an end, and there the value is
`v`. The rule `endsWith_of_rank` proves this from an invariant of the states before the end with a
rank that every step lowers.
-/

namespace RaftLab.Machine

variable {σ ε β : Type} {step : σ → ε → Option σ} {done : σ → Option β} {s s' : σ} {v v' : β}

structure EndsWith (step : σ → ε → Option σ) (done : σ → Option β) (s : σ) (v : β) : Prop where
  bounded : ∃ bound, ∀ es s', run step s es = some s' → done s' = none → es.length ≤ bound
  enabled : ∀ es s', run step s es = some s' → done s' = none → ∃ e, (step s' e).isSome = true
  value : ∀ es s' b, run step s es = some s' → done s' = some b → b = v

/-- What a run shows, if the machine ends with `v`. -/
theorem EndsWith.done_cases (h : EndsWith step done s v) {es : List ε}
    (hrun : run step s es = some s') : done s' = some v ∨ done s' = none := by
  cases hd : done s' with
  | none => exact .inr rfl
  | some b => exact .inl (congrArg some (h.value es s' b hrun hd))

/-- A run of any length can be had, unless the end is reached before. -/
theorem EndsWith.exists_run (h : EndsWith step done s v) (k : Nat) :
    (∃ es s', run step s es = some s' ∧ done s' = some v) ∨
      ∃ es s', run step s es = some s' ∧ done s' = none ∧ es.length = k := by
  induction k with
  | zero =>
      rcases h.done_cases (run_nil s) with hend | hopen
      · exact .inl ⟨[], s, rfl, hend⟩
      · exact .inr ⟨[], s, rfl, hopen, rfl⟩
  | succ k ih =>
      rcases ih with hend | ⟨es, s', hrun, hopen, hk⟩
      · exact .inl hend
      · obtain ⟨e, he⟩ := h.enabled es s' hrun hopen
        obtain ⟨t, ht⟩ := Option.isSome_iff_exists.mp he
        have hrun' : run step s (es ++ [e]) = some t := by
          rw [run_append, hrun]
          simp [run, ht]
        rcases h.done_cases hrun' with hend | hopen
        · exact .inl ⟨_, t, hrun', hend⟩
        · exact .inr ⟨_, t, hrun', hopen, by simp [hk]⟩

/-- The end is reached. -/
theorem EndsWith.exists_done (h : EndsWith step done s v) :
    ∃ es s', run step s es = some s' ∧ done s' = some v := by
  obtain ⟨bound, hbound⟩ := h.bounded
  rcases h.exists_run (bound + 1) with hend | ⟨es, s', hrun, hopen, hk⟩
  · exact hend
  · exact absurd (hbound es s' hrun hopen) (by omega)

theorem EndsWith.unique (h : EndsWith step done s v) (h' : EndsWith step done s v') : v = v' := by
  obtain ⟨es, s', hrun, hd⟩ := h.exists_done
  exact h'.value es s' v hrun hd

/-- Along a run the rank falls until the machine has ended. -/
theorem run_rank {J : σ → Nat → Prop}
    (hstep : ∀ s k e s', J s k → step s e = some s' → (∃ k' < k, J s' k') ∨ done s' = some v)
    (hdone : ∀ s e s', done s = some v → step s e = some s' → done s' = some v)
    {es : List ε} {k : Nat} (hs : J s k) (hr : run step s es = some s') :
    (∃ k', J s' k' ∧ k' + es.length ≤ k) ∨ done s' = some v := by
  induction es generalizing s k with
  | nil =>
      obtain rfl : s = s' := by simpa using hr
      exact .inl ⟨k, hs, Nat.le_refl _⟩
  | cons e es ih =>
      obtain ⟨t, ht, hrest⟩ := run_cons hr
      rcases hstep s k e t hs ht with ⟨k₁, hlt, ht₁⟩ | hend
      · rcases ih ht₁ hrest with ⟨k', hk', hle⟩ | hend
        · refine .inl ⟨k', hk', ?_⟩
          rw [List.length_cons]
          omega
        · exact .inr hend
      · right
        refine run_mono (R := fun a b => done a = some v → done b = some v) ?_ ?_ ?_ hrest hend
        · exact fun _ h => h
        · exact fun _ _ _ h h' hend => h' (h hend)
        · exact fun s e s' hs hend => hdone s e s' hend hs

/-- **Ending by a rank.** -/
theorem endsWith_of_rank {J : σ → Nat → Prop} {k : Nat} (hs : J s k)
    (hopen : ∀ s k, J s k → done s = none)
    (henabled : ∀ s k, J s k → ∃ e, (step s e).isSome = true)
    (hstep : ∀ s k e s', J s k → step s e = some s' → (∃ k' < k, J s' k') ∨ done s' = some v)
    (hdone : ∀ s e s', done s = some v → step s e = some s' → done s' = some v) :
    EndsWith step done s v := by
  refine ⟨⟨k, fun es s' hrun hnone => ?_⟩, fun es s' hrun hnone => ?_, fun es s' b hrun hb => ?_⟩
  · rcases run_rank hstep hdone hs hrun with ⟨k', -, hle⟩ | hend
    · omega
    · rw [hnone] at hend
      cases hend
  · rcases run_rank hstep hdone hs hrun with ⟨k', hk', -⟩ | hend
    · exact henabled s' k' hk'
    · rw [hnone] at hend
      cases hend
  · rcases run_rank hstep hdone hs hrun with ⟨k', hk', -⟩ | hend
    · rw [hopen s' k' hk'] at hb
      cases hb
    · exact Option.some.inj (hb.symm.trans hend)

end RaftLab.Machine
