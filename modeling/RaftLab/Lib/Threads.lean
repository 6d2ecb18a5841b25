import Mathlib.Data.Set.Basic
import RaftLab.Lib.Run

set_option autoImplicit false

/-! # Threads, mutexes and a rendezvous

Threads `T` move along the edges of a flow graph with points `P`. An edge takes or releases a
mutex of `M`, sends or receives a message of `C` on one unbuffered channel, or does neither. A
lock is taken when nobody holds the mutex, and a send and a receive of one message happen
together. `Deadlocked s D` says that the threads `D` wait for each other: none can move, and whoever
could end the wait of one of them is one of them. Then none of them ever moves again
(`Deadlocked.step`).
-/

namespace RaftLab

inductive Action (M C : Type) where
  | internal
  | lock (m : M)
  | unlock (m : M)
  | send (c : C)
  | receive (c : C)
  deriving DecidableEq

/-- The mutexes held after an action, when `held` were held before it. -/
def Action.after {M C : Type} [DecidableEq M] : Action M C → (M → Bool) → M → Bool
  | .lock m, held => Function.update held m true
  | .unlock m, held => Function.update held m false
  | .internal, held | .send _, held | .receive _, held => held

/-- A flow graph in which every thread keeps to its own points, and in which the mutexes held at a
point are the same on every way to it. -/
structure Program (T M C P : Type) [DecidableEq M] where
  start : T → P
  next : P → List (Action M C × P)
  region : T → P → Prop
  holds : P → M → Bool
  region_start : ∀ t, region t (start t)
  region_next : ∀ t p a q, region t p → (a, q) ∈ next p → region t q
  holds_start : ∀ t m, holds (start t) m = false
  holds_next : ∀ p a q, (a, q) ∈ next p → holds q = a.after (holds p)
  holds_unlock : ∀ p m q, (Action.unlock m, q) ∈ next p → holds p m = true

namespace Threads

structure State (T M P : Type) where
  point : T → P
  owner : M → Option T

inductive Event (T M C P : Type) where
  | act (t : T) (a : Action M C) (q : P)
  /-- `t` sends `c` and goes on to `p`, `u` receives it and goes on to `q`. -/
  | meet (t u : T) (c : C) (p q : P)
  deriving DecidableEq

variable {T M C P : Type} [DecidableEq T] [DecidableEq M] [DecidableEq C] [DecidableEq P]
  (prog : Program T M C P)

def init : State T M P := ⟨prog.start, fun _ => none⟩

def step (s : State T M P) : Event T M C P → Option (State T M P)
  | .act t a q =>
      if (a, q) ∈ prog.next (s.point t) then
        match a with
        | .internal => some { s with point := Function.update s.point t q }
        | .lock m =>
            if s.owner m = none then
              some ⟨Function.update s.point t q, Function.update s.owner m (some t)⟩
            else none
        | .unlock m => some ⟨Function.update s.point t q, Function.update s.owner m none⟩
        | .send _ | .receive _ => none
      else none
  | .meet t u c p q =>
      if t ≠ u ∧ (.send c, p) ∈ prog.next (s.point t) ∧ (.receive c, q) ∈ prog.next (s.point u) then
        some { s with point := Function.update (Function.update s.point t p) u q }
      else none

variable {prog} {s s' : State T M P}

/-! ## What a step does -/

/-- The ways a step can change the state. -/
theorem step_cases {event : Event T M C P} (h : step prog s event = some s') :
    (∃ t q, event = .act t .internal q ∧ (.internal, q) ∈ prog.next (s.point t) ∧
      s' = { s with point := Function.update s.point t q }) ∨
    (∃ t m q, event = .act t (.lock m) q ∧ (.lock m, q) ∈ prog.next (s.point t) ∧
      s.owner m = none ∧
      s' = ⟨Function.update s.point t q, Function.update s.owner m (some t)⟩) ∨
    (∃ t m q, event = .act t (.unlock m) q ∧ (.unlock m, q) ∈ prog.next (s.point t) ∧
      s' = ⟨Function.update s.point t q, Function.update s.owner m none⟩) ∨
    (∃ t u c p q, event = .meet t u c p q ∧ t ≠ u ∧ (.send c, p) ∈ prog.next (s.point t) ∧
      (.receive c, q) ∈ prog.next (s.point u) ∧
      s' = { s with point := Function.update (Function.update s.point t p) u q }) := by
  cases event with
  | act t a q =>
      simp only [step] at h
      split_ifs at h with hnext
      cases a with
      | internal =>
          cases h
          exact .inl ⟨t, q, rfl, hnext, rfl⟩
      | lock m =>
          dsimp only at h
          split_ifs at h with howner
          cases h
          exact .inr (.inl ⟨t, m, q, rfl, hnext, howner, rfl⟩)
      | unlock m =>
          cases h
          exact .inr (.inr (.inl ⟨t, m, q, rfl, hnext, rfl⟩))
      | send c => cases h
      | receive c => cases h
  | meet t u c p q =>
      simp only [step] at h
      split_ifs at h with hmeet
      cases h
      exact .inr (.inr (.inr ⟨t, u, c, p, q, rfl, hmeet.1, hmeet.2.1, hmeet.2.2, rfl⟩))

/-- A step moves one thread, not along a send or a receive, or it moves a pair that meets. -/
theorem step_point {event : Event T M C P} (h : step prog s event = some s') :
    (∃ t a q, event = .act t a q ∧ (a, q) ∈ prog.next (s.point t) ∧ (∀ c, a ≠ .send c) ∧
      (∀ c, a ≠ .receive c) ∧ s'.point = Function.update s.point t q) ∨
    (∃ t u c p q, event = .meet t u c p q ∧ t ≠ u ∧ (.send c, p) ∈ prog.next (s.point t) ∧
      (.receive c, q) ∈ prog.next (s.point u) ∧
      s'.point = Function.update (Function.update s.point t p) u q) := by
  rcases step_cases h with ⟨t, q, rfl, hnext, rfl⟩ | ⟨t, m, q, rfl, hnext, -, rfl⟩ |
    ⟨t, m, q, rfl, hnext, rfl⟩ | ⟨t, u, c, p, q, rfl, hne, hsend, hrecv, rfl⟩
  · exact .inl ⟨t, _, q, rfl, hnext, by simp, by simp, rfl⟩
  · exact .inl ⟨t, _, q, rfl, hnext, by simp, by simp, rfl⟩
  · exact .inl ⟨t, _, q, rfl, hnext, by simp, by simp, rfl⟩
  · exact .inr ⟨t, u, c, p, q, rfl, hne, hsend, hrecv, rfl⟩

/-- Every thread is at a point of its own, and a mutex is owned by the thread whose point holds
it. -/
structure Consistent (prog : Program T M C P) (s : State T M P) : Prop where
  region : ∀ t, prog.region t (s.point t)
  owner : ∀ t m, s.owner m = some t ↔ prog.holds (s.point t) m = true

omit [DecidableEq T] [DecidableEq C] [DecidableEq P] in
theorem consistent_init : Consistent prog (init prog) where
  region := prog.region_start
  owner t m := by simp [init, prog.holds_start]

omit [DecidableEq C] [DecidableEq P] in
theorem region_update (h : ∀ t, prog.region t (s.point t)) {t : T} {a : Action M C} {q : P}
    (hnext : (a, q) ∈ prog.next (s.point t)) :
    ∀ v, prog.region v (Function.update s.point t q v) :=
  (Function.forall_update_iff s.point (p := prog.region)).mpr
    ⟨prog.region_next t _ a q (h t) hnext, fun v _ => h v⟩

omit [DecidableEq C] [DecidableEq P] in
/-- A thread moves along an edge, after which it owns what it holds and the others own what they
did. -/
theorem Consistent.of_owner (h : Consistent prog s) {t : T} {a : Action M C} {q : P}
    {owner : M → Option T} (hnext : (a, q) ∈ prog.next (s.point t))
    (hself : ∀ m, owner m = some t ↔ a.after (prog.holds (s.point t)) m = true)
    (hother : ∀ v, v ≠ t → ∀ m, owner m = some v ↔ s.owner m = some v) :
    Consistent prog ⟨Function.update s.point t q, owner⟩ := by
  refine ⟨region_update h.region hnext, fun v m => ?_⟩
  by_cases hv : v = t
  · subst hv
    simp only [Function.update_self, prog.holds_next _ a q hnext]
    exact hself m
  · simp only [Function.update_of_ne hv]
    exact (hother v hv m).trans (h.owner v m)

omit [DecidableEq C] [DecidableEq P] in
/-- A thread moves along an edge that leaves the mutexes alone. -/
theorem Consistent.move (h : Consistent prog s) {t : T} {a : Action M C} {q : P}
    (hnext : (a, q) ∈ prog.next (s.point t))
    (hafter : a.after (prog.holds (s.point t)) = prog.holds (s.point t)) :
    Consistent prog { s with point := Function.update s.point t q } :=
  h.of_owner hnext (fun m => by rw [hafter]; exact h.owner t m) fun _ _ _ => Iff.rfl

theorem Consistent.step {event : Event T M C P} (h : Consistent prog s)
    (hs : step prog s event = some s') : Consistent prog s' := by
  rcases step_cases hs with ⟨t, q, -, hnext, rfl⟩ | ⟨t, m, q, -, hnext, hnone, rfl⟩ |
    ⟨t, m, q, -, hnext, rfl⟩ | ⟨t, u, c, p, q, -, hne, hsend, hrecv, rfl⟩
  · exact h.move hnext rfl
  · -- nobody owned the mutex before
    refine h.of_owner hnext (fun m' => ?_) fun v hv m' => ?_
    · by_cases hm : m' = m
      · simp [hm, Action.after]
      · simpa [hm, Action.after] using h.owner t m'
    · by_cases hm : m' = m
      · simp [hm, hnone, Ne.symm hv]
      · simp [hm]
  · -- the thread that moves owned the mutex
    have howner : s.owner m = some t := (h.owner t m).mpr (prog.holds_unlock _ m q hnext)
    refine h.of_owner hnext (fun m' => ?_) fun v hv m' => ?_
    · by_cases hm : m' = m
      · simp [hm, Action.after]
      · simpa [hm, Action.after] using h.owner t m'
    · by_cases hm : m' = m
      · simp [hm, howner, Ne.symm hv]
      · simp [hm]
  · have hfirst := h.move hsend rfl
    refine hfirst.move (a := .receive c) ?_ rfl
    simpa [Function.update_of_ne (Ne.symm hne)] using hrecv

/-! ## Deadlock -/

/-- Some step moves the thread. -/
def Free (prog : Program T M C P) (s : State T M P) (t : T) : Prop :=
  (∃ a q, (step prog s (.act t a q)).isSome = true) ∨
    (∃ u c p q, (step prog s (.meet t u c p q)).isSome = true) ∨
    ∃ u c p q, (step prog s (.meet u t c p q)).isSome = true

def MaySend (prog : Program T M C P) (u : T) : Prop :=
  ∃ p c q, prog.region u p ∧ (.send c, q) ∈ prog.next p

def MayReceive (prog : Program T M C P) (u : T) : Prop :=
  ∃ p c q, prog.region u p ∧ (.receive c, q) ∈ prog.next p

/-- `u` could end the wait of `t`: it owns the mutex that `t` wants, or is a partner for the message
that `t` wants to send or to receive. -/
inductive WaitsFor (prog : Program T M C P) (s : State T M P) (t u : T) : Prop
  | lock {m : M} {q : P} (hnext : (.lock m, q) ∈ prog.next (s.point t))
      (howner : s.owner m = some u)
  | send {c : C} {q : P} (hnext : (.send c, q) ∈ prog.next (s.point t)) (hu : MayReceive prog u)
  | receive {c : C} {q : P} (hnext : (.receive c, q) ∈ prog.next (s.point t))
      (hu : MaySend prog u)

/-- **A deadlocked set**: each of its threads waits, none can move, and all that could end the wait
of one of them are among them. -/
structure Deadlocked (prog : Program T M C P) (s : State T M P) (D : Set T) : Prop where
  nonempty : D.Nonempty
  blocked : ∀ t ∈ D, ¬ Free prog s t
  waits : ∀ t ∈ D, ∃ u, WaitsFor prog s t u
  closed : ∀ t ∈ D, ∀ u, WaitsFor prog s t u → u ∈ D

theorem free_of_internal {t : T} {q : P} (h : (.internal, q) ∈ prog.next (s.point t)) :
    Free prog s t :=
  .inl ⟨.internal, q, by simp [step, h]⟩

theorem free_of_unlock {t : T} {m : M} {q : P} (h : (.unlock m, q) ∈ prog.next (s.point t)) :
    Free prog s t :=
  .inl ⟨.unlock m, q, by simp [step, h]⟩

theorem exists_owner_of_not_free {t : T} {m : M} {q : P} (h : ¬ Free prog s t)
    (hnext : (.lock m, q) ∈ prog.next (s.point t)) : ∃ u, s.owner m = some u := by
  cases howner : s.owner m with
  | none => exact absurd (.inl ⟨.lock m, q, by simp [step, hnext, howner]⟩) h
  | some u => exact ⟨u, rfl⟩

theorem free_of_meet {t u : T} {c : C} {p q : P} (hne : t ≠ u)
    (hsend : (.send c, p) ∈ prog.next (s.point t))
    (hrecv : (.receive c, q) ∈ prog.next (s.point u)) : Free prog s t ∧ Free prog s u := by
  have h : (step prog s (.meet t u c p q)).isSome = true := by simp [step, hne, hsend, hrecv]
  exact ⟨.inr (.inl ⟨u, c, p, q, h⟩), .inr (.inr ⟨t, c, p, q, h⟩)⟩

/-- A thread that can move has an edge that needs nobody, a lock that nobody holds, or a partner. -/
theorem Free.cases {t : T} (h : Free prog s t) :
    (∃ q, (.internal, q) ∈ prog.next (s.point t)) ∨
    (∃ m q, (.unlock m, q) ∈ prog.next (s.point t)) ∨
    (∃ m q, (.lock m, q) ∈ prog.next (s.point t) ∧ s.owner m = none) ∨
    (∃ u c p q, t ≠ u ∧ (.send c, p) ∈ prog.next (s.point t) ∧
      (.receive c, q) ∈ prog.next (s.point u)) ∨
    ∃ u c p q, u ≠ t ∧ (.send c, p) ∈ prog.next (s.point u) ∧
      (.receive c, q) ∈ prog.next (s.point t) := by
  rcases h with ⟨a, q, h⟩ | ⟨u, c, p, q, h⟩ | ⟨u, c, p, q, h⟩
  · obtain ⟨s', h⟩ := Option.isSome_iff_exists.mp h
    rcases step_cases h with ⟨_, _, he, hn, -⟩ | ⟨_, m, _, he, hn, ho, -⟩ | ⟨_, m, _, he, hn, -⟩ |
      ⟨_, _, _, _, _, he, -⟩ <;> cases he
    · exact .inl ⟨q, hn⟩
    · exact .inr (.inr (.inl ⟨m, q, hn, ho⟩))
    · exact .inr (.inl ⟨m, q, hn⟩)
  · simp only [step] at h
    split_ifs at h with hmeet
    · exact .inr (.inr (.inr (.inl ⟨u, c, p, q, hmeet⟩)))
    · cases h
  · simp only [step] at h
    split_ifs at h with hmeet
    · exact .inr (.inr (.inr (.inr ⟨u, c, p, q, hmeet⟩)))
    · cases h

/-- A thread that can only take one mutex waits for its owner and for nobody else. -/
theorem waits_of_next_eq_lock {t u : T} {m : M} {q : P}
    (hnext : prog.next (s.point t) = [(.lock m, q)]) (howner : s.owner m = some u) :
    ¬ Free prog s t ∧ WaitsFor prog s t u ∧ ∀ v, WaitsFor prog s t v → v = u := by
  have hmem : (.lock m, q) ∈ prog.next (s.point t) := by simp [hnext]
  refine ⟨fun hfree => ?_, .lock hmem howner, fun v hw => ?_⟩
  · rcases hfree.cases with ⟨q', h⟩ | ⟨m', q', h⟩ | ⟨m', q', h, hnone⟩ | ⟨v, c, p, q', -, h, -⟩ |
      ⟨v, c, p, q', -, -, h⟩ <;> simp only [hnext, List.mem_singleton, Prod.mk.injEq] at h
    · cases h.1
    · cases h.1
    · obtain ⟨hm, -⟩ := h
      cases hm
      simp [howner] at hnone
    · cases h.1
    · cases h.1
  · cases hw with
    | lock h ho =>
        simp only [hnext, List.mem_singleton, Prod.mk.injEq] at h
        cases h.1
        exact Option.some.inj (ho.symm.trans howner)
    | send h => simp [hnext] at h
    | receive h => simp [hnext] at h

/-- What a step leaves alone, for a set of threads none of which can move: their points, and the
mutexes they own. -/
structure Untouched (s s' : State T M P) (D : Set T) : Prop where
  point : ∀ t ∈ D, s'.point t = s.point t
  owner : ∀ u ∈ D, ∀ m, s.owner m = some u → s'.owner m = some u

theorem untouched_of_blocked {event : Event T M C P} {D : Set T} (h : Consistent prog s)
    (hD : ∀ t ∈ D, ¬ Free prog s t) (hs : step prog s event = some s') : Untouched s s' D := by
  rcases step_cases hs with ⟨t, q, -, hnext, rfl⟩ | ⟨t, m, q, rfl, hnext, hnone, rfl⟩ |
    ⟨t, m, q, -, hnext, rfl⟩ | ⟨t, u, c, p, q, -, hne, hsend, hrecv, rfl⟩
  · have ht : t ∉ D := fun htD => hD t htD (free_of_internal hnext)
    exact ⟨fun v hv => Function.update_of_ne (ne_of_mem_of_not_mem hv ht) _ _, fun _ _ _ ho => ho⟩
  · have ht : t ∉ D := fun htD => hD t htD (.inl ⟨.lock m, q, by simp [hs]⟩)
    refine ⟨fun v hv => Function.update_of_ne (ne_of_mem_of_not_mem hv ht) _ _, ?_⟩
    intro v hv m' ho
    have hm : m' ≠ m := by
      rintro rfl
      simp [hnone] at ho
    simpa [hm] using ho
  · have ht : t ∉ D := fun htD => hD t htD (free_of_unlock hnext)
    refine ⟨fun v hv => Function.update_of_ne (ne_of_mem_of_not_mem hv ht) _ _, ?_⟩
    intro v hv m' ho
    have hm : m' ≠ m := by
      -- the thread that releases a mutex is the one that owns it
      rintro rfl
      have howner : s.owner m' = some t := (h.owner t m').mpr (prog.holds_unlock _ m' q hnext)
      exact ht (Option.some.inj (howner.symm.trans ho) ▸ hv)
    simpa [hm] using ho
  · have hfree := free_of_meet hne hsend hrecv
    have ht : t ∉ D := fun htD => hD t htD hfree.1
    have hu : u ∉ D := fun huD => hD u huD hfree.2
    refine ⟨fun v hv => ?_, fun _ _ _ ho => ho⟩
    show Function.update (Function.update s.point t p) u q v = s.point v
    rw [Function.update_of_ne (ne_of_mem_of_not_mem hv hu),
      Function.update_of_ne (ne_of_mem_of_not_mem hv ht)]

/-- **Deadlock is forever.** Whatever step is taken, the set stays deadlocked and its threads stay
where they are. -/
theorem Deadlocked.step {event : Event T M C P} {D : Set T} (hc : Consistent prog s)
    (h : Deadlocked prog s D) (hs : step prog s event = some s') :
    Deadlocked prog s' D ∧ ∀ t ∈ D, s'.point t = s.point t := by
  have hun := untouched_of_blocked hc h.blocked hs
  have hc' := hc.step hs
  -- whoever a member waits for afterwards it waited for before
  have hback : ∀ t ∈ D, ∀ u, WaitsFor prog s' t u → WaitsFor prog s t u := by
    intro t ht u hw
    cases hw with
    | @lock m q hnext howner =>
        rw [hun.point t ht] at hnext
        obtain ⟨v, hv⟩ := exists_owner_of_not_free (h.blocked t ht) hnext
        have hvD := h.closed t ht v (.lock hnext hv)
        obtain rfl : v = u := Option.some.inj ((hun.owner v hvD m hv).symm.trans howner)
        exact .lock hnext hv
    | send hnext hu => exact .send (hun.point t ht ▸ hnext) hu
    | receive hnext hu => exact .receive (hun.point t ht ▸ hnext) hu
  refine ⟨⟨h.nonempty, fun t ht hfree => ?_, fun t ht => ?_, fun t ht u hw =>
    h.closed t ht u (hback t ht u hw)⟩, hun.point⟩
  · have hpt := hun.point t ht
    rcases hfree.cases with ⟨q, hn⟩ | ⟨m, q, hn⟩ | ⟨m, q, hn, hnone⟩ |
      ⟨u, c, p, q, hne, hsend, hrecv⟩ | ⟨u, c, p, q, hne, hsend, hrecv⟩
    · exact h.blocked t ht (free_of_internal (hpt ▸ hn))
    · exact h.blocked t ht (free_of_unlock (hpt ▸ hn))
    · rw [hpt] at hn
      obtain ⟨v, hv⟩ := exists_owner_of_not_free (h.blocked t ht) hn
      have hv' := hun.owner v (h.closed t ht v (.lock hn hv)) m hv
      simp [hnone] at hv'
    · -- a partner would be a member, and so was one before
      rw [hpt] at hsend
      have huD := h.closed t ht u (.send hsend ⟨_, c, q, hc'.region u, hrecv⟩)
      rw [hun.point u huD] at hrecv
      exact h.blocked t ht (free_of_meet hne hsend hrecv).1
    · rw [hpt] at hrecv
      have huD := h.closed t ht u (.receive hrecv ⟨_, c, p, hc'.region u, hsend⟩)
      rw [hun.point u huD] at hsend
      exact h.blocked t ht (free_of_meet hne hsend hrecv).2
  · obtain ⟨u, hw⟩ := h.waits t ht
    refine ⟨u, ?_⟩
    cases hw with
    | @lock m q hnext howner =>
        have huD := h.closed t ht u (.lock hnext howner)
        exact .lock (by rw [hun.point t ht]; exact hnext) (hun.owner u huD m howner)
    | send hnext hu => exact .send (by rw [hun.point t ht]; exact hnext) hu
    | receive hnext hu => exact .receive (by rw [hun.point t ht]; exact hnext) hu

/-- The whole rest of a run. -/
theorem Deadlocked.run {es : List (Event T M C P)} {D : Set T} (hc : Consistent prog s)
    (h : Deadlocked prog s D) (hr : Machine.run (Threads.step prog) s es = some s') :
    ∀ t ∈ D, s'.point t = s.point t := by
  have hall : Consistent prog s' ∧ Deadlocked prog s' D ∧ ∀ t ∈ D, s'.point t = s.point t := by
    refine Machine.run_history_induction (J := fun _ x => Consistent prog x ∧ Deadlocked prog x D ∧
      ∀ t ∈ D, x.point t = s.point t) ⟨hc, h, fun _ _ => rfl⟩ ?_ hr
    rintro _ x e x' - ⟨hcx, hx, hpt⟩ hs
    obtain ⟨hx', hstay⟩ := hx.step hcx hs
    exact ⟨hcx.step hs, hx', fun t ht => (hstay t ht).trans (hpt t ht)⟩
  exact hall.2.2

theorem consistent_run {es : List (Event T M C P)}
    (hr : Machine.run (step prog) (init prog) es = some s) : Consistent prog s :=
  Machine.run_history_induction (J := fun _ x => Consistent prog x) consistent_init
    (fun _ _ _ _ _ h hs => h.step hs) hr

end Threads

end RaftLab
