import RaftLab.Lib.Run

set_option autoImplicit false

/-! # Where the runs of a machine can lead

`Leads ok s s'`: some run from `s` that meets the condition `ok` ends in `s'`. A run of one machine
is carried over to another by a function (`leads_of_run`). That something can always be reached is
shown in steps, while an invariant `J` is kept: one goal after the other, none of them lost again
(`leads_all`), or with a number that falls until the goal is reached (`leads_until`).
-/

namespace RaftLab.Machine

variable {σ ε τ : Type} {step : σ → ε → Option σ}

/-- A run along which `ok` is met leads from `s` to `s'`. -/
def Leads (step : σ → ε → Option σ) (ok : σ → ε → Prop) (s s' : σ) : Prop :=
  ∃ es, Along step ok s es ∧ run step s es = some s'

theorem Leads.refl (ok : σ → ε → Prop) (s : σ) : Leads step ok s s := ⟨[], trivial, rfl⟩

theorem Leads.single {ok : σ → ε → Prop} {s s' : σ} {e : ε} (hok : ok s e)
    (hs : step s e = some s') : Leads step ok s s' := by
  refine ⟨[e], along_cons hok hs trivial, ?_⟩
  rw [run, hs]
  rfl

theorem Leads.trans {ok : σ → ε → Prop} {s t u : σ} (h : Leads step ok s t)
    (h' : Leads step ok t u) : Leads step ok s u := by
  obtain ⟨es, hal, hr⟩ := h
  obtain ⟨fs, hal', hr'⟩ := h'
  refine ⟨es ++ fs, ?_, by rw [run_append, hr]; exact hr'⟩
  clear hr'
  induction es generalizing s with
  | nil =>
      obtain rfl : s = t := by simpa using hr
      exact hal'
  | cons e es ih =>
      obtain ⟨v, hv, hrest⟩ := run_cons hr
      exact along_cons hal.1 hv (ih (hal.2 v hv) hrest)

theorem Leads.mono {ok ok' : σ → ε → Prop} (himp : ∀ s e, ok s e → ok' s e) {s s' : σ}
    (h : Leads step ok s s') : Leads step ok' s s' := by
  obtain ⟨es, hal, hr⟩ := h
  refine ⟨es, ?_, hr⟩
  clear hr
  induction es generalizing s with
  | nil => trivial
  | cons e es ih => exact ⟨himp s e hal.1, fun t ht => ih (hal.2 t ht)⟩

theorem Leads.induction {ok : σ → ε → Prop} {I : σ → Prop}
    (hstep : ∀ s e s', I s → ok s e → step s e = some s' → I s') {s s' : σ}
    (h : Leads step ok s s') (hs : I s) : I s' := by
  obtain ⟨es, hal, hr⟩ := h
  exact run_induction hstep hs hal hr

/-- **Refinement by a function.** -/
theorem leads_of_run {ε' : Type} {step' : τ → ε' → Option τ} {ok : σ → ε → Prop}
    {ok' : τ → ε' → Prop} {I : σ → Prop} {f : σ → τ}
    (hstep : ∀ s e s', I s → ok s e → step s e = some s' → I s' ∧ Leads step' ok' (f s) (f s'))
    {s s' : σ} {es : List ε} (hs : I s) (hok : Along step ok s es)
    (hr : run step s es = some s') : I s' ∧ Leads step' ok' (f s) (f s') := by
  induction es generalizing s with
  | nil =>
      obtain rfl : s = s' := by simpa using hr
      exact ⟨hs, .refl ok' (f s)⟩
  | cons e es ih =>
      obtain ⟨t, ht, hrest⟩ := run_cons hr
      obtain ⟨ht', hlead⟩ := hstep s e t hs hok.1 ht
      obtain ⟨hend, hlead'⟩ := ih ht' (hok.2 t ht) hrest
      exact ⟨hend, hlead.trans hlead'⟩

/-! ## Goals -/

section goals

variable {ok : σ → ε → Prop} {J : σ → Prop} {s : σ}

/-- Goals that can be reached one by one, none of them lost on the way to another, can all be
reached. -/
theorem leads_all {ι : Type} {G : ι → σ → Prop}
    (hgoal : ∀ s i, J s → ∃ s', Leads step ok s s' ∧ J s' ∧ G i s' ∧ ∀ j, G j s → G j s')
    (l : List ι) (hs : J s) :
    ∃ s', Leads step ok s s' ∧ J s' ∧ (∀ i ∈ l, G i s') ∧ ∀ j, G j s → G j s' := by
  induction l generalizing s with
  | nil => exact ⟨s, .refl ok s, hs, fun i hi => absurd hi List.not_mem_nil, fun _ h => h⟩
  | cons i l ih =>
      obtain ⟨t, hst, ht, hgt, hkeep⟩ := hgoal s i hs
      obtain ⟨u, htu, hu, hgu, hkeep'⟩ := ih ht
      exact ⟨u, hst.trans htu, hu, List.forall_mem_cons.mpr ⟨hkeep' i hgt, hgu⟩,
        fun j hj => hkeep' j (hkeep j hj)⟩

/-- A goal that comes nearer with every attempt can be reached. -/
theorem leads_until {goal : σ → Prop} (distance : σ → Nat)
    (hnear : ∀ s, J s → ∃ s', Leads step ok s s' ∧ J s' ∧ (goal s' ∨ distance s' < distance s))
    (hs : J s) : ∃ s', Leads step ok s s' ∧ J s' ∧ goal s' := by
  induction hd : distance s using Nat.strong_induction_on generalizing s with
  | _ d ih =>
      obtain ⟨t, hst, ht, hgoal | hlt⟩ := hnear s hs
      · exact ⟨t, hst, ht, hgoal⟩
      · obtain ⟨u, htu, hu, hgoal⟩ := ih _ (hd ▸ hlt) ht rfl
        exact ⟨u, hst.trans htu, hu, hgoal⟩

end goals

end RaftLab.Machine
