import Mathlib.Tactic

set_option autoImplicit false

/-! # Runs of a machine with a partial step

A machine is a step function `step : σ → ε → Option σ`: event `e` takes state `s` to `s'`
when `step s e = some s'`, and cannot happen in `s` when `step s e = none`. `run` iterates
it over a list of events. `Along ok` says that every step of a run meets a condition `ok`
on the event and on the state it is taken in. The induction over runs is done once here:

* `run_induction` — an invariant of the start that every step meeting the condition keeps
  holds at the end of every run along which the condition is met;
* `run_history_induction` — the same for what is said of a state and of the events that led
  to it;
* `always_iff_along` — a property that a step keeps exactly when it meets the condition holds
  in all states of a run exactly when the condition is met along it;
* `segments_iff_along` — the same for what is said of the two ends of any part of the run and
  of the events between them;
* `run_mono` — a reflexive and transitive relation between consecutive states holds
  between the two ends;
* `run_simulation` — a relation to the states of a second system that every step keeps,
  the second system making any number of moves, holds at the end.

`observed` puts an observer next to a machine, for properties of a run that its last state
does not show.
-/

namespace RaftLab.Machine

variable {σ ε τ : Type} (step : σ → ε → Option σ)

/-- The state reached from `s` by the events `es`, in order. -/
def run (s : σ) : List ε → Option σ
  | [] => some s
  | e :: es => (step s e).bind (fun s' => run s' es)

/-- Every step of the run from `s` along `es` is taken in a state where `ok` allows it. -/
def Along (ok : σ → ε → Prop) (s : σ) : List ε → Prop
  | [] => True
  | e :: es => ok s e ∧ ∀ s', step s e = some s' → Along ok s' es

instance decidableAlong (ok : σ → ε → Prop) [∀ s e, Decidable (ok s e)] (s : σ) :
    (es : List ε) → Decidable (Along step ok s es)
  | [] => isTrue trivial
  | e :: es =>
      match h : step s e with
      | none => decidable_of_iff (ok s e)
          ⟨fun hok => ⟨hok, fun _ ht => by rw [h] at ht; cases ht⟩, fun hal => hal.1⟩
      | some t =>
          have := decidableAlong ok t es
          decidable_of_iff (ok s e ∧ Along step ok t es)
            ⟨fun hal => ⟨hal.1, fun u hu => by rw [h] at hu; cases hu; exact hal.2⟩,
              fun hal => ⟨hal.1, hal.2 t h⟩⟩

variable {step}

@[simp] theorem run_nil (s : σ) : run step s [] = some s := rfl

theorem run_cons {s s' : σ} {e : ε} {es : List ε} (h : run step s (e :: es) = some s') :
    ∃ t, step s e = some t ∧ run step t es = some s' := by
  simpa [run, Option.bind_eq_some_iff] using h

theorem run_append (s : σ) (es fs : List ε) :
    run step s (es ++ fs) = (run step s es).bind (fun t => run step t fs) := by
  induction es generalizing s with
  | nil => rfl
  | cons e es ih =>
      simp only [List.cons_append, run]
      cases step s e with
      | none => rfl
      | some t => exact ih t

/-- A machine that can do all that another one can has its runs. -/
theorem run_of_imp {step' : σ → ε → Option σ}
    (h : ∀ s e s', step s e = some s' → step' s e = some s') {s s' : σ} {es : List ε}
    (hr : run step s es = some s') : run step' s es = some s' := by
  induction es generalizing s with
  | nil => exact hr
  | cons e es ih =>
      obtain ⟨t, ht, hrest⟩ := run_cons hr
      rw [run, h s e t ht, Option.bind_some]
      exact ih hrest

theorem along_cons {ok : σ → ε → Prop} {s t : σ} {e : ε} {es : List ε} (hok : ok s e)
    (hs : step s e = some t) (h : Along step ok t es) : Along step ok s (e :: es) := by
  refine ⟨hok, fun u hu => ?_⟩
  obtain rfl : t = u := Option.some.inj (hs.symm.trans hu)
  exact h

theorem along_append {ok : σ → ε → Prop} {s t : σ} {es fs : List ε}
    (h : Along step ok s (es ++ fs)) (hr : run step s es = some t) :
    Along step ok s es ∧ Along step ok t fs := by
  induction es generalizing s with
  | nil =>
      obtain rfl : s = t := by simpa using hr
      exact ⟨trivial, h⟩
  | cons e es ih =>
      obtain ⟨u, hu, hrest⟩ := run_cons hr
      have hi := ih (h.2 u hu) hrest
      refine ⟨⟨h.1, fun v hv => ?_⟩, hi.2⟩
      obtain rfl : u = v := Option.some.inj (hu.symm.trans hv)
      exact hi.1

/-- A condition on the events alone is met along a run when every event meets it. -/
theorem along_of_forall {P : ε → Prop} {s : σ} {es : List ε} (h : ∀ e ∈ es, P e) :
    Along step (fun _ e => P e) s es := by
  induction es generalizing s with
  | nil => trivial
  | cons e es ih =>
      exact ⟨h e (by simp), fun t _ => ih (fun f hf => h f (by simp [hf]))⟩

/-- A condition that is met wherever the run passes is met along it. -/
theorem along_of_prefixes {ok : σ → ε → Prop} {s : σ} {es : List ε}
    (h : ∀ before e after t, es = before ++ e :: after → run step s before = some t → ok t e) :
    Along step ok s es := by
  induction es generalizing s with
  | nil => trivial
  | cons e es ih =>
      refine ⟨h [] e es s rfl rfl, fun t ht => ih fun before e' after u hes hu => ?_⟩
      refine h (e :: before) e' after u (by rw [hes]; rfl) ?_
      simp only [run, ht, Option.bind_some]
      exact hu

/-- In a run that is taken to its end, that is for the steps that are taken. -/
theorem along_of_steps {ok : σ → ε → Prop} {s s' : σ} {es : List ε}
    (hr : run step s es = some s')
    (h : ∀ before e after t t', es = before ++ e :: after → run step s before = some t →
      step t e = some t' → ok t e) : Along step ok s es := by
  refine along_of_prefixes fun before e after t hes ht => ?_
  rw [hes, run_append, ht] at hr
  obtain ⟨t', ht', -⟩ := run_cons hr
  exact h before e after t t' hes ht ht'

theorem along_and {ok ok' : σ → ε → Prop} {s : σ} {es : List ε}
    (h : Along step ok s es) (h' : Along step ok' s es) :
    Along step (fun s e => ok s e ∧ ok' s e) s es := by
  induction es generalizing s with
  | nil => trivial
  | cons e es ih => exact ⟨⟨h.1, h'.1⟩, fun t ht => ih (h.2 t ht) (h'.2 t ht)⟩

/-- What holds wherever a step is taken, and at the end, holds in every state of the run. -/
theorem always_of_along {Q : σ → Prop} {s s' : σ} {es : List ε}
    (h : Along step (fun t _ => Q t) s es) (hend : Q s') (hr : run step s es = some s') :
    ∀ before after t, es = before ++ after → run step s before = some t → Q t := by
  rintro before after t rfl ht
  obtain ⟨-, hafter⟩ := along_append h ht
  rw [run_append, ht] at hr
  cases after with
  | nil =>
      obtain rfl : t = s' := by simpa using hr
      exact hend
  | cons e after => exact hafter.1

/-- **Invariants over runs.** -/
theorem run_induction {I : σ → Prop} {ok : σ → ε → Prop}
    (hstep : ∀ s e s', I s → ok s e → step s e = some s' → I s')
    {s s' : σ} {es : List ε} (hs : I s) (hok : Along step ok s es)
    (hr : run step s es = some s') : I s' := by
  induction es generalizing s with
  | nil =>
      obtain rfl : s = s' := by simpa using hr
      exact hs
  | cons e es ih =>
      obtain ⟨t, ht, hrest⟩ := run_cons hr
      exact ih (hstep s e t hs hok.1 ht) (hok.2 t ht) hrest

/-- **Invariants of the events so far.** What holds of a state and of the events that led to it. -/
theorem run_history_induction {J : List ε → σ → Prop} {s : σ} (hs : J [] s)
    (hstep : ∀ es t e t', run step s es = some t → J es t → step t e = some t' → J (es ++ [e]) t')
    {s' : σ} {es : List ε} (hr : run step s es = some s') : J es s' := by
  induction es using List.reverseRecOn generalizing s' with
  | nil =>
      obtain rfl : s = s' := by simpa using hr
      exact hs
  | append_singleton es e ih =>
      rw [run_append, Option.bind_eq_some_iff] at hr
      obtain ⟨t, ht, hlast⟩ := hr
      obtain ⟨t', ht', hnil⟩ := run_cons hlast
      obtain rfl : t' = s' := by simpa using hnil
      exact hstep es t e t' ht (ih ht) ht'

/-- **When a property holds all along a run.** The property holds at the start, and a step from a
state that has it leads to one that has it exactly when the step meets the condition: then all
states of a run have the property if and only if all its steps meet the condition. -/
theorem always_iff_along {Q : σ → Prop} {ok : σ → ε → Prop} {s : σ} (hs : Q s)
    (hstep : ∀ es t e t', run step s es = some t → Q t → step t e = some t' → (ok t e ↔ Q t'))
    {s' : σ} {es : List ε} (hr : run step s es = some s') :
    (∀ before after t, es = before ++ after → run step s before = some t → Q t) ↔
      Along step ok s es := by
  constructor
  · intro h
    refine along_of_steps hr fun before e after t t' hes ht ht' => ?_
    have hrun : run step s (before ++ [e]) = some t' := by
      rw [run_append, ht]
      simp [run, ht']
    refine (hstep before t e t' ht (h before (e :: after) t hes ht) ht').mpr ?_
    exact h (before ++ [e]) after t' (by simp [hes]) hrun
  · rintro h before after t rfl ht
    have hal := (along_append h ht).1
    -- from the front of the run, with the events that led to each state
    have hall : Along step ok s before → Q t := by
      refine run_history_induction (J := fun es t => Along step ok s es → Q t) (fun _ => hs) ?_ ht
      intro es u e u' hu ih hu' hal
      have hsplit := along_append hal hu
      exact (hstep es u e u' hu (ih hsplit.1) hu').mp hsplit.2.1
    exact hall hal

/-- **When a relation holds over every part of a run.** A part all of whose steps meet the condition
has it, and a single step has it only if it meets the condition. -/
theorem segments_iff_along {R : σ → List ε → σ → Prop} {ok : σ → ε → Prop} {s s' : σ} {es : List ε}
    (hr : run step s es = some s')
    (hkeep : ∀ before segment after t u, es = before ++ segment ++ after →
      run step s before = some t → run step t segment = some u →
      Along step ok s before → Along step ok t segment → R t segment u)
    (hbreak : ∀ t e t', e ∈ es → step t e = some t' → R t [e] t' → ok t e) :
    Along step ok s es ↔ ∀ before segment after t u, es = before ++ segment ++ after →
      run step s before = some t → run step t segment = some u → R t segment u := by
  constructor
  · intro hal before segment after t u hes ht hu
    rw [hes, List.append_assoc] at hal
    obtain ⟨hbefore, hrest⟩ := along_append hal ht
    exact hkeep before segment after t u hes ht hu hbefore (along_append hrest hu).1
  · intro hall
    refine along_of_steps hr fun before e after t t' hes ht ht' => ?_
    have hone : run step t [e] = some t' := by simp [run, ht']
    refine hbreak t e t' (by simp [hes]) ht' ?_
    exact hall before [e] after t t' (by simp [hes]) ht hone

/-- **Relations between the two ends of a run.** -/
theorem run_mono {R : σ → σ → Prop} (hrefl : ∀ s, R s s)
    (htrans : ∀ s t u, R s t → R t u → R s u)
    (hstep : ∀ s e s', step s e = some s' → R s s')
    {s s' : σ} {es : List ε} (hr : run step s es = some s') : R s s' := by
  induction es generalizing s with
  | nil =>
      obtain rfl : s = s' := by simpa using hr
      exact hrefl s
  | cons e es ih =>
      obtain ⟨t, ht, hrest⟩ := run_cons hr
      exact htrans s t s' (hstep s e t ht) (ih hrest)

/-- **Forward simulation.** A relation `R` to the states of a second system, kept by every
step with some moves `Move` of the second system, carries the second system along. -/
theorem run_simulation {Move : τ → τ → Prop} {R : σ → τ → Prop} {ok : σ → ε → Prop}
    (hstep : ∀ s e s' a, R s a → ok s e → step s e = some s' →
      ∃ a', Relation.ReflTransGen Move a a' ∧ R s' a')
    {s s' : σ} {es : List ε} {a : τ} (hs : R s a) (hok : Along step ok s es)
    (hr : run step s es = some s') :
    ∃ a', Relation.ReflTransGen Move a a' ∧ R s' a' := by
  induction es generalizing s a with
  | nil =>
      obtain rfl : s = s' := by simpa using hr
      exact ⟨a, .refl, hs⟩
  | cons e es ih =>
      obtain ⟨t, ht, hrest⟩ := run_cons hr
      obtain ⟨b, hab, hb⟩ := hstep s e t a hs hok.1 ht
      obtain ⟨a', hba, ha'⟩ := ih hb (hok.2 t ht) hrest
      exact ⟨a', hab.trans hba, ha'⟩

/-! ## Observers -/

/-- The machine with an observer next to it, which updates what it has noted from the states
before and after each step and never influences the step. -/
def observed {γ : Type} (step : σ → ε → Option σ) (observe : σ → γ → σ → γ) (x : σ × γ) (e : ε) :
    Option (σ × γ) :=
  (step x.1 e).map (fun s' => (s', observe x.1 x.2 s'))

theorem observed_eq_some {γ : Type} {observe : σ → γ → σ → γ} {x x' : σ × γ} {e : ε}
    (h : observed step observe x e = some x') :
    step x.1 e = some x'.1 ∧ x'.2 = observe x.1 x.2 x'.1 := by
  simp only [observed, Option.map_eq_some_iff] at h
  obtain ⟨s', hs, rfl⟩ := h
  exact ⟨hs, rfl⟩

/-- Every run can be observed. -/
theorem exists_run_observed {γ : Type} {observe : σ → γ → σ → γ} {s s' : σ} {es : List ε}
    (g : γ) (h : run step s es = some s') :
    ∃ g', run (observed step observe) (s, g) es = some (s', g') := by
  induction es generalizing s g with
  | nil =>
      obtain rfl : s = s' := by simpa using h
      exact ⟨g, rfl⟩
  | cons e es ih =>
      obtain ⟨t, ht, hrest⟩ := run_cons h
      obtain ⟨g', hg'⟩ := ih (observe s g t) hrest
      refine ⟨g', ?_⟩
      simp only [run, observed, ht, Option.map_some, Option.bind_some]
      exact hg'

end RaftLab.Machine
