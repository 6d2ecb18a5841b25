import Mathlib.Tactic

set_option autoImplicit false

/-! # Doubly linked lists with removal that can be undone

`next` and `prev` pointers over cells of any type, and the lists they spell out. A cell in the
middle is taken out by letting its two neighbours point past it. It keeps its own pointers, so it
can be put back by letting the neighbours point at it again, provided that nothing else was
changed in between: `Linked.unlink` says that the list loses the cell and that putting it back
restores every pointer.
-/

namespace RaftLab

/-- The pointers of a set of cells. -/
@[ext]
structure Links (α : Type) where
  next : α → Option α
  prev : α → Option α

namespace Links

variable {α : Type}

/-- The pointers spell out `l`: each cell points at the one after it and back, and the last
points nowhere. Where the first cell points back to is left open. -/
def Linked (k : Links α) : List α → Prop
  | [] => True
  | [a] => k.next a = none
  | a :: b :: l => k.next a = some b ∧ k.prev b = some a ∧ Linked k (b :: l)

variable {k k' : Links α} {l A B : List α} {a p x : α}

theorem linked_cons_iff : Linked k (a :: l) ↔
    k.next a = l.head? ∧ (∀ b, l.head? = some b → k.prev b = some a) ∧ Linked k l := by
  cases l with
  | nil => simp [Linked]
  | cons b l => simp [Linked]

/-- The part of a list from some cell on is linked. -/
theorem Linked.of_append (h : Linked k (A ++ B)) : Linked k B := by
  induction A with
  | nil => exact h
  | cons a A ih => exact ih (linked_cons_iff.mp h).2.2

theorem Linked.next_eq (h : Linked k (A ++ x :: B)) : k.next x = B.head? :=
  (linked_cons_iff.mp h.of_append).1

theorem Linked.prev_eq (h : Linked k (A ++ p :: x :: B)) : k.prev x = some p :=
  (linked_cons_iff.mp h.of_append).2.1 x rfl

/-- `x` is found by following `next` from `a` on. -/
def Reaches (k : Links α) (a x : α) : Prop :=
  Relation.ReflTransGen (fun b c => k.next b = some c) a x

/-- Following `next` does not leave a linked list. -/
theorem Linked.mem_of_reaches (h : Linked k l) (ha : a ∈ l) (hx : k.Reaches a x) : x ∈ l := by
  induction hx with
  | refl => exact ha
  | tail _ hnext ih =>
      obtain ⟨A, B, rfl⟩ := List.append_of_mem ih
      rw [h.next_eq] at hnext
      exact List.mem_append_right _ (List.mem_cons_of_mem _ (List.mem_of_mem_head? hnext))

/-- A list stays linked when the pointers it depends on stay. -/
theorem Linked.congr (h : Linked k l) (hnext : ∀ a ∈ l, k'.next a = k.next a)
    (hprev : ∀ a ∈ l.tail, k'.prev a = k.prev a) : Linked k' l := by
  induction l with
  | nil => trivial
  | cons a l ih =>
      obtain ⟨hn, hp, hl⟩ := linked_cons_iff.mp h
      refine linked_cons_iff.mpr ⟨?_, fun b hb => ?_, ih hl ?_ ?_⟩
      · rw [hnext a List.mem_cons_self, hn]
      · rw [hprev b (List.mem_of_mem_head? hb), hp b hb]
      · exact fun c hc => hnext c (List.mem_cons_of_mem _ hc)
      · exact fun c hc => hprev c (List.mem_of_mem_tail hc)

/-- The cells before `p` do not see what follows it. -/
theorem Linked.splice (h : Linked k (A ++ p :: l)) (hB : Linked k' (p :: B))
    (hnext : ∀ a ∈ A, k'.next a = k.next a) (hprev : ∀ a ∈ A ++ [p], k'.prev a = k.prev a) :
    Linked k' (A ++ p :: B) := by
  induction A with
  | nil => exact hB
  | cons a A ih =>
      have hhead : ∀ l' : List α, (A ++ p :: l').head? = (A ++ [p]).head? := fun l' => by
        cases A <;> rfl
      rw [List.cons_append] at h ⊢
      obtain ⟨hn, hp, hl⟩ := linked_cons_iff.mp h
      rw [hhead] at hn hp
      refine linked_cons_iff.mpr ⟨?_, fun b hb => ?_, ih hl ?_ ?_⟩
      · rw [hhead, hnext a List.mem_cons_self, hn]
      · rw [hhead] at hb
        rw [hprev b (List.mem_cons_of_mem _ (List.mem_of_mem_head? hb)), hp b hb]
      · exact fun c hc => hnext c (List.mem_cons_of_mem _ hc)
      · exact fun c hc => hprev c (List.mem_cons_of_mem _ hc)

/-- The pointers spell out a list without repetition in which `x` comes right after `p`. -/
structure Between (k : Links α) (A : List α) (p x : α) (B : List α) : Prop where
  linked : Linked k (A ++ p :: x :: B)
  nodup : (A ++ p :: x :: B).Nodup

namespace Between

theorem ne (h : Between k A p x B) : x ≠ p := by
  have := h.nodup
  simp only [List.nodup_append, List.nodup_cons, List.mem_cons] at this
  exact fun heq => this.2.1.1 (.inl heq.symm)

/-- No cell before the removed one, nor that cell itself, comes right after it. -/
theorem next_ne (h : Between k A p x B) {a : α} (ha : a ∈ A ++ [p, x]) : k.next x ≠ some a := by
  have hlinked : Linked k ((A ++ [p]) ++ x :: B) := by simpa using h.linked
  rw [hlinked.next_eq]
  intro hb
  have hnodup : ((A ++ [p, x]) ++ B).Nodup := by simpa using h.nodup
  exact (List.nodup_append.mp hnodup).2.2 a ha a (List.mem_of_mem_head? hb) rfl

end Between

variable [DecidableEq α]

def setNext (k : Links α) (a : α) (b : Option α) : Links α :=
  { k with next := Function.update k.next a b }

def setPrev (k : Links α) (a : α) (b : Option α) : Links α :=
  { k with prev := Function.update k.prev a b }

/-- Lets the cell after `x`, if there is one, point back to `b`. -/
def setPrevOfNext (k : Links α) (x : α) (b : Option α) : Links α :=
  match k.next x with
  | some n => k.setPrev n b
  | none => k

/-- Takes `x` out of its list: its neighbours point past it. -/
def unlink (k : Links α) (x : α) : Option (Links α) :=
  (k.prev x).map fun p => (k.setNext p (k.next x)).setPrevOfNext x (k.prev x)

/-- Puts `x` back: its neighbours point at it. -/
def relink (k : Links α) (x : α) : Option (Links α) :=
  (k.prev x).map fun p => (k.setNext p (some x)).setPrevOfNext x (some x)

@[simp] theorem setNext_next (k : Links α) (a : α) (b : Option α) :
    (k.setNext a b).next = Function.update k.next a b := rfl

@[simp] theorem setNext_prev (k : Links α) (a : α) (b : Option α) :
    (k.setNext a b).prev = k.prev := rfl

@[simp] theorem setPrev_next (k : Links α) (a : α) (b : Option α) :
    (k.setPrev a b).next = k.next := rfl

@[simp] theorem setPrev_prev (k : Links α) (a : α) (b : Option α) :
    (k.setPrev a b).prev = Function.update k.prev a b := rfl

@[simp] theorem setPrevOfNext_next (k : Links α) (x : α) (b : Option α) :
    (k.setPrevOfNext x b).next = k.next := by
  rw [setPrevOfNext]
  split <;> rfl

theorem setPrevOfNext_of_next {k : Links α} {x n : α} (h : k.next x = some n) (b : Option α) :
    k.setPrevOfNext x b = k.setPrev n b := by
  rw [setPrevOfNext, h]

theorem setPrevOfNext_prev_of_ne {k : Links α} {x a : α} (h : k.next x ≠ some a) (b : Option α) :
    (k.setPrevOfNext x b).prev a = k.prev a := by
  rw [setPrevOfNext]
  split
  · rename_i n hn
    have hne : a ≠ n := by
      rintro rfl
      exact h hn
    exact Function.update_of_ne hne _ _
  · rfl

theorem setPrevOfNext_prev_self {k : Links α} {x a : α} (h : k.next x = some a) (b : Option α) :
    (k.setPrevOfNext x b).prev a = b := by
  rw [setPrevOfNext_of_next h]
  exact Function.update_self _ _ _

/-! ## Taking a cell out and putting it back -/

/-- The pointers after `x`, which comes right after `p`, has been taken out. -/
def without (k : Links α) (p x : α) : Links α :=
  (k.setNext p (k.next x)).setPrevOfNext x (some p)

namespace Between

theorem unlink_eq (h : Between k A p x B) : k.unlink x = some (k.without p x) := by
  rw [unlink, h.linked.prev_eq]
  rfl

theorem without_next (k : Links α) (p x : α) :
    (k.without p x).next = Function.update k.next p (k.next x) :=
  setPrevOfNext_next _ _ _

theorem setNext_next_eq (h : Between k A p x B) (b : Option α) :
    (k.setNext p b).next x = k.next x :=
  Function.update_of_ne h.ne _ _

theorem without_prev_of_ne (h : Between k A p x B) {a : α} (ha : k.next x ≠ some a) :
    (k.without p x).prev a = k.prev a :=
  setPrevOfNext_prev_of_ne (by rwa [h.setNext_next_eq]) _

theorem without_prev_of_next (h : Between k A p x B) {a : α} (ha : k.next x = some a) :
    (k.without p x).prev a = some p :=
  setPrevOfNext_prev_self (by rwa [h.setNext_next_eq]) _

/-- The list loses the cell. -/
theorem without_linked (h : Between k A p x B) : Linked (k.without p x) (A ++ p :: B) := by
  have hlinked : Linked k ((A ++ [p]) ++ x :: B) := by simpa using h.linked
  have hnext : k.next x = B.head? := hlinked.next_eq
  have hB : Linked k B := (linked_cons_iff.mp hlinked.of_append).2.2
  have hnodup := h.nodup
  simp only [List.nodup_append, List.nodup_cons, List.mem_cons, not_or] at hnodup
  obtain ⟨-, ⟨⟨-, hpB⟩, -, hBnodup⟩, hAB⟩ := hnodup
  have hkeep : ∀ a, a ≠ p → (k.without p x).next a = k.next a := fun a ha => by
    rw [without_next, Function.update_of_ne ha]
  refine h.linked.splice (linked_cons_iff.mpr ⟨?_, fun b hb => ?_, hB.congr ?_ ?_⟩) ?_ ?_
  · rw [without_next, Function.update_self, hnext]
  · exact h.without_prev_of_next (hnext.trans hb)
  · exact fun a ha => hkeep a fun heq => hpB (heq ▸ ha)
  · intro a ha
    refine h.without_prev_of_ne fun hfirst => ?_
    obtain ⟨B', rfl⟩ := List.head?_eq_some_iff.mp (hnext.symm.trans hfirst)
    exact (List.nodup_cons.mp hBnodup).1 ha
  · exact fun a ha => hkeep a (hAB a ha p (.inl rfl))
  · intro a ha
    refine h.without_prev_of_ne (h.next_ne ?_)
    rcases List.mem_append.mp ha with ha | ha
    · exact List.mem_append_left _ ha
    · exact List.mem_append_right _ (List.mem_cons.mpr (.inl (List.mem_singleton.mp ha)))

/-- Putting the cell back restores every pointer. -/
theorem relink_without (h : Between k A p x B) : (k.without p x).relink x = some k := by
  have hlinked : Linked k ((A ++ [p]) ++ x :: B) := by simpa using h.linked
  have hprev : (k.without p x).prev x = some p := by
    rw [h.without_prev_of_ne (h.next_ne (by simp)), h.linked.prev_eq]
  have hx : ((k.without p x).setNext p (some x)).next x = k.next x := by
    rw [setNext_next, Function.update_of_ne h.ne, without_next, Function.update_of_ne h.ne]
  rw [relink, hprev, Option.map_some, Option.some.injEq]
  refine Links.ext ?_ (funext fun a => ?_)
  · rw [setPrevOfNext_next, setNext_next, without_next, Function.update_idem]
    exact Function.update_eq_self_iff.mpr h.linked.next_eq.symm
  · by_cases ha : k.next x = some a
    · rw [setPrevOfNext_prev_self (hx.trans ha)]
      have hhead : B.head? = some a := hlinked.next_eq.symm.trans ha
      exact ((linked_cons_iff.mp hlinked.of_append).2.1 a hhead).symm
    · rw [setPrevOfNext_prev_of_ne (by rwa [hx]), setNext_prev, h.without_prev_of_ne ha]

end Between

/-- **Removal and its undoing**: a cell that is not the first can be taken out, the others stay
linked in their order, it still points where it did, and putting it back restores every
pointer. -/
theorem Linked.unlink (hA : A ≠ []) (h : Linked k (A ++ x :: B)) (hnodup : (A ++ x :: B).Nodup) :
    ∃ k', k.unlink x = some k' ∧ Linked k' (A ++ B) ∧ k'.next x = k.next x ∧
      k'.relink x = some k := by
  obtain ⟨A', p, rfl⟩ : ∃ A' p, A = A' ++ [p] :=
    ⟨A.dropLast, A.getLast hA, (List.dropLast_append_getLast hA).symm⟩
  have hx : Between k A' p x B := ⟨by simpa using h, by simpa using hnodup⟩
  refine ⟨_, hx.unlink_eq, by simpa using hx.without_linked, ?_, hx.relink_without⟩
  rw [Between.without_next, Function.update_of_ne hx.ne]

end Links

end RaftLab
