import RaftLab.Lib.Locality

set_option autoImplicit false

/-! # Linearization points

A way to show that a history is linearizable. Every operation gets a point, a natural number, such
that an operation that returned before another one was called has the smaller point; and the object
goes through states `st 0`, `st 1`, … such that the operations with point `j`, in the order of the
history, take it from `st j` to `st (j + 1)`.
-/

namespace RaftLab.Object

variable {S α τ : Type} {o : Object S α} {s s' s'' : S} {as bs : List α}

/-- The object accepts the operations from state `s`, and is in state `s'` after them. -/
def Takes (o : Object S α) : S → List α → S → Prop
  | s, [], s' => s = s'
  | s, a :: as, s' => (o.step s a).1 = true ∧ Takes o (o.step s a).2 as s'

theorem Takes.accepts (h : o.Takes s as s') : o.Accepts s as := by
  induction as generalizing s with
  | nil => trivial
  | cons a as ih => exact ⟨h.1, ih h.2⟩

theorem Takes.append (h : o.Takes s as s') (h' : o.Takes s' bs s'') : o.Takes s (as ++ bs) s'' := by
  induction as generalizing s with
  | nil =>
      obtain rfl : s = s' := h
      exact h'
  | cons a as ih => exact ⟨h.1, ih h.2⟩

/-- Operations that are accepted in state `s` and leave it as it is. -/
theorem takes_self (h : ∀ a ∈ as, o.step s a = (true, s)) : o.Takes s as s := by
  induction as with
  | nil => rfl
  | cons a as ih =>
      have ha := h a List.mem_cons_self
      refine ⟨by rw [ha], ?_⟩
      rw [ha]
      exact ih fun b hb => h b (List.mem_cons_of_mem _ hb)

theorem takes_singleton {a : α} (h : o.step s a = (true, s')) : o.Takes s [a] s' := by
  refine ⟨by rw [h], ?_⟩
  rw [h]
  rfl

/-! ## The order by points -/

section byPoints

variable (point : α → Nat) (l : List α)

/-- The operations with a point below `N`, by their points, and those with one point as in `l`. -/
def byPoints (N : Nat) : List α := (List.range N).flatMap fun j => l.filter fun a => point a = j

theorem byPoints_succ (N : Nat) :
    byPoints point l (N + 1) = byPoints point l N ++ l.filter fun a => point a = N := by
  rw [byPoints, List.range_succ, List.flatMap_append, List.flatMap_singleton]
  rfl

theorem mem_byPoints {N : Nat} {a : α} : a ∈ byPoints point l N ↔ a ∈ l ∧ point a < N := by
  simp only [byPoints, List.mem_flatMap, List.mem_range, List.mem_filter, decide_eq_true_eq]
  constructor
  · rintro ⟨j, hj, ha, rfl⟩
    exact ⟨ha, hj⟩
  · rintro ⟨ha, hlt⟩
    exact ⟨point a, hlt, ha, rfl⟩

theorem byPoints_perm_filter (N : Nat) :
    (byPoints point l N).Perm (l.filter fun a => point a < N) := by
  induction N with
  | zero => simp [byPoints]
  | succ N ih =>
      rw [byPoints_succ]
      -- split what is below `N + 1` into what is below `N` and the rest
      have hsplit := List.filter_append_perm (fun a => decide (point a < N))
        (l.filter fun a => point a < N + 1)
      rw [List.filter_filter, List.filter_filter] at hsplit
      refine (ih.append_right _).trans (List.Perm.trans (List.Perm.of_eq ?_) hsplit)
      congr 1
      · refine List.filter_congr fun a _ => ?_
        rw [← Bool.decide_and, decide_eq_decide]
        omega
      · refine List.filter_congr fun a _ => ?_
        rw [← decide_not, ← Bool.decide_and, decide_eq_decide]
        omega

theorem byPoints_perm {N : Nat} (h : ∀ a ∈ l, point a < N) : (byPoints point l N).Perm l := by
  refine (byPoints_perm_filter point l N).trans (List.Perm.of_eq ?_)
  exact List.filter_eq_self.mpr fun a ha => decide_eq_true (h a ha)

theorem pairwise_byPoints (N : Nat) :
    (byPoints point l N).Pairwise fun a b => point a ≤ point b := by
  induction N with
  | zero => exact List.Pairwise.nil
  | succ N ih =>
      rw [byPoints_succ, List.pairwise_append]
      have hlast : ∀ a ∈ l.filter fun a => point a = N, point a = N :=
        fun a ha => of_decide_eq_true (List.mem_filter.mp ha).2
      refine ⟨ih, ?_, fun a ha b hb => ?_⟩
      · exact List.pairwise_of_forall_mem_list fun a ha b hb => by rw [hlast a ha, hlast b hb]
      · rw [hlast b hb]
        exact Nat.le_of_lt ((mem_byPoints point l).mp ha).2

theorem takes_byPoints {β : Type} {o : Object S β} {f : α → β} {st : Nat → S} {N : Nat}
    (h : ∀ j < N, o.Takes (st j) ((l.filter fun a => point a = j).map f) (st (j + 1))) :
    o.Takes (st 0) ((byPoints point l N).map f) (st N) := by
  induction N with
  | zero => rfl
  | succ N ih =>
      rw [byPoints_succ, List.map_append]
      exact (ih fun j hj => h j (Nat.lt_succ_of_lt hj)).append (h N (Nat.lt_succ_self N))

end byPoints

/-- **Linearization points.** -/
theorem linearizable_of_points [LT τ] {β : Type} {o : Object S β} {call ret : β → τ} {f : α → β}
    {l : List α} (point : α → Nat) (st : Nat → S) (N : Nat) (hinit : st 0 = o.init)
    (hpoint : ∀ a ∈ l, point a < N)
    (htime : ∀ a ∈ l, ∀ b ∈ l, ret (f b) < call (f a) → point b < point a)
    (hblock : ∀ j < N, o.Takes (st j) ((l.filter fun a => point a = j).map f) (st (j + 1))) :
    o.Linearizable call ret (l.map f) := by
  rw [linearizable_map_iff]
  have hperm := byPoints_perm point l hpoint
  refine ⟨byPoints point l N, hperm, ?_, ?_⟩
  · refine (pairwise_byPoints point l N).imp_of_mem fun {a b} ha hb hle hlt => ?_
    have := htime a (hperm.mem_iff.mp ha) b (hperm.mem_iff.mp hb) hlt
    omega
  · rw [← hinit]
    exact (takes_byPoints point l hblock).accepts

end RaftLab.Object
