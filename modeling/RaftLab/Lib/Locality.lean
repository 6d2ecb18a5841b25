import Mathlib.Data.List.MinMax
import Mathlib.Data.List.Perm.Basic
import Mathlib.Logic.Function.Basic
import Mathlib.Tactic

set_option autoImplicit false

/-! # Linearizability is local

An object accepts operations one after the other. Operations are called and return at points in
time; a history is linearizable if its operations can be put in an order that the object accepts
and in which no operation stands before one that returned before it was called. A family of
objects of one kind takes each operation to the member that its key names. The family's history
is linearizable if and only if every member's part of it is (`linearizable_family_iff`).
-/

namespace RaftLab

variable {S α κ τ : Type}

/-- An object with states `S` and operations `α`. An operation comes with its output: `step` says
whether the object accepts it, and the state after it. -/
structure Object (S α : Type) where
  init : S
  step : S → α → Bool × S

/-- In the order no operation stands before one that returned before it was called. -/
def InRealTime [LT τ] (call ret : α → τ) (order : List α) : Prop :=
  order.Pairwise fun a b => ¬ ret b < call a

namespace Object

/-- From state `s` the object accepts the operations one after the other. -/
def Accepts (o : Object S α) : S → List α → Prop
  | _, [] => True
  | s, a :: as => (o.step s a).1 = true ∧ Accepts o (o.step s a).2 as

instance (o : Object S α) : (s : S) → (as : List α) → Decidable (o.Accepts s as)
  | _, [] => isTrue trivial
  | s, a :: as =>
      have := instDecidableAccepts o (o.step s a).2 as
      inferInstanceAs (Decidable (_ ∧ _))

/-- **Linearizable**: some order of the operations is in real time and is accepted. -/
def Linearizable [LT τ] (o : Object S α) (call ret : α → τ) (history : List α) : Prop :=
  ∃ order, order.Perm history ∧ InRealTime call ret order ∧ o.Accepts o.init order

/-- One object for every key, each operation going to the one its key names. -/
def family [DecidableEq κ] (o : Object S α) (key : α → κ) : Object (κ → S) α where
  init _ := o.init
  step s a := ((o.step (s (key a)) a).1, Function.update s (key a) (o.step (s (key a)) a).2)

theorem linearizable_nil [LT τ] (o : Object S α) (call ret : α → τ) :
    o.Linearizable call ret [] :=
  ⟨[], List.Perm.refl _, List.Pairwise.nil, trivial⟩

/-- An order of the images of `l` is the image of an order of `l`. -/
theorem exists_perm_map_eq {β : Type} {f : α → β} {l : List α} {m : List β}
    (h : m.Perm (l.map f)) : ∃ order : List α, order.Perm l ∧ order.map f = m := by
  have hmap : List.Forall₂ (fun b a => b = f a) (l.map f) l :=
    List.forall₂_map_left_iff.mpr (List.forall₂_same.mpr fun _ _ => rfl)
  obtain ⟨order, hforall, hperm⟩ := List.perm_comp_forall₂ h hmap
  have heq : List.Forall₂ (· = ·) m (order.map f) := List.forall₂_map_right_iff.mpr hforall
  rw [List.forall₂_eq_eq_eq] at heq
  exact ⟨order, hperm, heq.symm⟩

/-- The operations may be named: a history of the operations that `l` names is linearizable when
some order of the names is in real time and accepted. -/
theorem linearizable_map_iff [LT τ] {β : Type} (o : Object S β) (call ret : β → τ) (f : α → β)
    (l : List α) :
    o.Linearizable call ret (l.map f) ↔
      ∃ order : List α, order.Perm l ∧ order.Pairwise (fun a b => ¬ ret (f b) < call (f a)) ∧
        o.Accepts o.init (order.map f) := by
  constructor
  · rintro ⟨m, hperm, htime, haccepts⟩
    obtain ⟨order, horder, rfl⟩ := exists_perm_map_eq hperm
    exact ⟨order, horder, List.pairwise_map.mp htime, haccepts⟩
  · rintro ⟨order, horder, htime, haccepts⟩
    exact ⟨order.map f, horder.map f, List.pairwise_map.mpr htime, haccepts⟩

/-- A family accepts an order when each member accepts the operations with its key. -/
theorem family_accepts_iff [DecidableEq κ] (o : Object S α) (key : α → κ) (order : List α)
    (s : κ → S) :
    (o.family key).Accepts s order ↔
      ∀ k, o.Accepts (s k) (order.filter fun a => key a = k) := by
  induction order generalizing s with
  | nil => exact ⟨fun _ _ => trivial, fun _ => trivial⟩
  | cons a as ih =>
      show (o.step (s (key a)) a).1 = true ∧
        (o.family key).Accepts (Function.update s (key a) (o.step (s (key a)) a).2) as ↔ _
      rw [ih]
      constructor
      · rintro ⟨hstep, hrest⟩ k
        have hk := hrest k
        -- only the object of its own key takes part in the step
        by_cases hkey : key a = k
        · subst hkey
          rw [Function.update_self] at hk
          rw [List.filter_cons_of_pos (by simp)]
          exact ⟨hstep, hk⟩
        · rw [Function.update_of_ne (Ne.symm hkey)] at hk
          rwa [List.filter_cons_of_neg (by simpa using hkey)]
      · intro h
        have ha := h (key a)
        rw [List.filter_cons_of_pos (by simp)] at ha
        refine ⟨ha.1, fun k => ?_⟩
        by_cases hkey : key a = k
        · subst hkey
          rw [Function.update_self]
          exact ha.2
        · rw [Function.update_of_ne (Ne.symm hkey)]
          have hk := h k
          rwa [List.filter_cons_of_neg (by simpa using hkey)] at hk

end Object

/-! ## Merging the orders of the keys -/

section Merge

variable [LinearOrder τ] [DecidableEq κ] {call ret : α → τ} {key : α → κ}

theorem exists_first_return (ret : α → τ) {history : List α} (hne : history ≠ []) :
    ∃ m ∈ history, ∀ b ∈ history, ret m ≤ ret b := by
  cases hm : history.argmin ret with
  | none => exact absurd (List.argmin_eq_none.mp hm) hne
  | some m => exact ⟨m, List.argmin_mem hm, fun b hb => List.le_of_mem_argmin hb hm⟩

/-- The operation that some key's order begins with and that no operation of the history returned
before: the first one of the key of the operation that returns first. -/
theorem exists_head {history : List α} {orders : κ → List α} (hne : history ≠ [])
    (hcall : ∀ a ∈ history, call a ≤ ret a)
    (horders : ∀ k, (orders k).Perm (history.filter fun a => key a = k))
    (htime : ∀ k, InRealTime call ret (orders k)) :
    ∃ a as, orders (key a) = a :: as ∧ a ∈ history ∧ ∀ b ∈ history, ¬ ret b < call a := by
  obtain ⟨m, hm, hfirst⟩ := exists_first_return ret hne
  have hmem : m ∈ orders (key m) := (horders (key m)).mem_iff.mpr (by simpa using hm)
  cases ho : orders (key m) with
  | nil => simp [ho] at hmem
  | cons a as =>
      have ha : a ∈ history ∧ key a = key m := by
        have : a ∈ orders (key m) := by simp [ho]
        simpa using (horders (key m)).mem_iff.mp this
      have hle : call a ≤ ret m := by
        rw [ho] at hmem
        rcases List.mem_cons.mp hmem with rfl | hmem
        · exact hcall m hm
        · have hpair := htime (key m)
          rw [ho] at hpair
          exact not_lt.mp ((List.pairwise_cons.mp hpair).1 m hmem)
      refine ⟨a, as, by rw [ha.2, ho], ha.1, fun b hb => ?_⟩
      exact not_lt.mpr (le_trans hle (hfirst b hb))

/-- Orders of the keys' operations, each in real time, are parts of one order of all operations
that is in real time. -/
theorem exists_merge {history : List α} {orders : κ → List α}
    (hcall : ∀ a ∈ history, call a ≤ ret a)
    (horders : ∀ k, (orders k).Perm (history.filter fun a => key a = k))
    (htime : ∀ k, InRealTime call ret (orders k)) :
    ∃ order : List α, order.Perm history ∧ InRealTime call ret order ∧
      ∀ k, order.filter (fun a => key a = k) = orders k := by
  -- one operation is put in front at a time, so the induction is on how many there are
  induction hn : history.length generalizing history orders with
  | zero =>
      obtain rfl := List.eq_nil_of_length_eq_zero hn
      exact ⟨[], List.Perm.refl _, List.Pairwise.nil, fun k => (horders k).eq_nil.symm⟩
  | succ n ih =>
      have hne : history ≠ [] := by
        rintro rfl
        simp at hn
      obtain ⟨a, as, ho, ha, hfirst⟩ := exists_head hne hcall horders htime
      obtain ⟨before, after, rfl⟩ := List.append_of_mem ha
      have hperm : (before ++ a :: after).Perm (a :: (before ++ after)) := List.perm_middle
      have hrest : ∀ k, (Function.update orders (key a) as k).Perm
          ((before ++ after).filter fun b => key b = k) := by
        intro k
        have hk := (horders k).trans (hperm.filter _)
        by_cases hkey : key a = k
        · subst hkey
          rw [ho, List.filter_cons_of_pos (by simp)] at hk
          rw [Function.update_self]
          exact hk.cons_inv
        · rw [List.filter_cons_of_neg (by simpa using hkey)] at hk
          rwa [Function.update_of_ne (Ne.symm hkey)]
      have htime' : ∀ k, InRealTime call ret (Function.update orders (key a) as k) := by
        intro k
        by_cases hkey : key a = k
        · subst hkey
          have hpair := htime (key a)
          rw [ho] at hpair
          rw [Function.update_self]
          exact (List.pairwise_cons.mp hpair).2
        · rw [Function.update_of_ne (Ne.symm hkey)]
          exact htime k
      obtain ⟨order, horder, hreal, hfilter⟩ := ih
        (fun b hb => hcall b (hperm.mem_iff.mpr (List.mem_cons_of_mem a hb))) hrest htime'
        (by rw [hperm.length_eq] at hn; simpa using hn)
      refine ⟨a :: order, (horder.cons a).trans hperm.symm, ?_, fun k => ?_⟩
      · refine List.pairwise_cons.mpr ⟨fun b hb => hfirst b ?_, hreal⟩
        exact hperm.mem_iff.mpr (List.mem_cons_of_mem a (horder.mem_iff.mp hb))
      · have hk := hfilter k
        by_cases hkey : key a = k
        · subst hkey
          rw [Function.update_self] at hk
          rw [List.filter_cons_of_pos (by simp), hk, ho]
        · rw [Function.update_of_ne (Ne.symm hkey)] at hk
          rw [List.filter_cons_of_neg (by simpa using hkey), hk]

/-- **Locality.** A history of a family is linearizable if and only if for every key the
operations with that key are. -/
theorem Object.linearizable_family_iff (o : Object S α) {history : List α}
    (hcall : ∀ a ∈ history, call a ≤ ret a) :
    (o.family key).Linearizable call ret history ↔
      ∀ k, o.Linearizable call ret (history.filter fun a => key a = k) := by
  constructor
  · rintro ⟨order, hperm, htime, hacc⟩ k
    exact ⟨order.filter fun a => key a = k, hperm.filter _, htime.filter _,
      (o.family_accepts_iff key order _).mp hacc k⟩
  · intro h
    choose orders hperm htime hacc using h
    obtain ⟨order, horder, hreal, hfilter⟩ := exists_merge hcall hperm htime
    refine ⟨order, horder, hreal, (o.family_accepts_iff key order _).mpr fun k => ?_⟩
    rw [hfilter k]
    exact hacc k

end Merge

end RaftLab
