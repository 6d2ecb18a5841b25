import Mathlib.Data.List.TakeWhile
import RaftLab.Lib.Backtrack
import RaftLab.Lib.Precedence
import RaftLab.Linearizability.Check

set_option autoImplicit false

/-! # Linearizations and the search for one

`Recorded` says what the nodes of a history of `n` operations are. `Linearizable` is what the
checker is for: an order of the operations that respects real time, along which the model accepts
every output. The second half sets up the search for such an order as a backtracking problem. Its
configurations are pairs of a set of linearized operations and a state, its moves the calls that
no return of another remaining operation precedes. A configuration is solvable exactly when the
remaining operations can be linearized from it (`solvable_iff`).
-/

namespace RaftLab.Linearizability

open Backtrack (Problem)

variable {S V : Type}

/-- The nodes `l`, in this order, record `n` operations: operation `i` is called at node `call i`
and returns later, at node `ret i`. -/
structure Recorded (node : Nat → Node V) (n : Nat) (l : List Nat) (call ret : Nat → Nat) :
    Prop where
  nodes : l.Perm ((List.range n).map call ++ (List.range n).map ret)
  nodup : l.Nodup
  order : ∀ i < n, Precedes l (call i) (ret i)
  call_id : ∀ i < n, (node (call i)).id = i
  ret_id : ∀ i < n, (node (ret i)).id = i
  call_matching : ∀ i < n, (node (call i)).matching = some (ret i)
  ret_matching : ∀ i < n, (node (ret i)).matching = none

namespace Model

/-- From state `s` the model accepts the inputs with the outputs, one after the other. -/
def Accepts (model : Model S V) : S → List (V × V) → Prop
  | _, [] => True
  | s, (input, output) :: ops =>
      (model.step s input output).1 = true ∧ Accepts model (model.step s input output).2 ops

instance (model : Model S V) : (s : S) → (ops : List (V × V)) → Decidable (model.Accepts s ops)
  | _, [] => isTrue trivial
  | s, (input, output) :: ops =>
      have := instDecidableAccepts model (model.step s input output).2 ops
      inferInstanceAs (Decidable (_ ∧ _))

/-- `step` respects `equal`: in states that count as equal it accepts the same outputs, and then
leads to states that count as equal. -/
def Respects (model : Model S V) : Prop :=
  ∀ s t, model.equal s t = true → ∀ input output,
    (model.step s input output).1 = (model.step t input output).1 ∧
    ((model.step s input output).1 = true →
      model.equal (model.step s input output).2 (model.step t input output).2 = true)

end Model

/-- The input and the output of operation `i`. -/
def operation (node : Nat → Node V) (call ret : Nat → Nat) (i : Nat) : V × V :=
  ((node (call i)).value, (node (ret i)).value)

/-- **The operations have a linearization**: an order of all of them in which an operation that
returned before another was called comes first, and along which the model accepts every output
from its initial state. -/
def Linearizable (model : Model S V) (node : Nat → Node V) (n : Nat) (l : List Nat)
    (call ret : Nat → Nat) : Prop :=
  ∃ order : List Nat, order.Perm (List.range n) ∧
    (∀ i < n, ∀ j < n, Precedes l (ret i) (call j) → Precedes order i j) ∧
    model.Accepts model.init (order.map (operation node call ret))

/-! ## The nodes of a recorded history -/

namespace Recorded

variable {node : Nat → Node V} {n : Nat} {l : List Nat} {call ret : Nat → Nat} {a i : Nat}

theorem mem_iff (h : Recorded node n l call ret) :
    a ∈ l ↔ ∃ i < n, a = call i ∨ a = ret i := by
  rw [h.nodes.mem_iff, List.mem_append, List.mem_map, List.mem_map]
  constructor
  · rintro (⟨i, hi, rfl⟩ | ⟨i, hi, rfl⟩)
    · exact ⟨i, List.mem_range.mp hi, .inl rfl⟩
    · exact ⟨i, List.mem_range.mp hi, .inr rfl⟩
  · rintro ⟨i, hi, rfl | rfl⟩
    · exact .inl ⟨i, List.mem_range.mpr hi, rfl⟩
    · exact .inr ⟨i, List.mem_range.mpr hi, rfl⟩

theorem length_eq (h : Recorded node n l call ret) : l.length = 2 * n := by
  have := h.nodes.length_eq
  simp only [List.length_append, List.length_map, List.length_range] at this
  omega

theorem id_lt (h : Recorded node n l call ret) (ha : a ∈ l) : (node a).id < n := by
  obtain ⟨i, hi, rfl | rfl⟩ := h.mem_iff.mp ha
  · rwa [h.call_id i hi]
  · rwa [h.ret_id i hi]

/-- A node with a match is the call of its operation. -/
theorem eq_call (h : Recorded node n l call ret) (ha : a ∈ l)
    (hm : (node a).matching.isSome = true) : a = call (node a).id := by
  obtain ⟨i, hi, rfl | rfl⟩ := h.mem_iff.mp ha
  · rw [h.call_id i hi]
  · rw [h.ret_matching i hi] at hm
    cases hm

/-- The nodes depend only on what is recorded at them. -/
theorem congr (h : Recorded node n l call ret) {node' : Nat → Node V}
    (hnode : ∀ a ∈ l, node' a = node a) : Recorded node' n l call ret := by
  have hcall : ∀ i < n, node' (call i) = node (call i) := fun i hi =>
    hnode _ (h.mem_iff.mpr ⟨i, hi, .inl rfl⟩)
  have hret : ∀ i < n, node' (ret i) = node (ret i) := fun i hi =>
    hnode _ (h.mem_iff.mpr ⟨i, hi, .inr rfl⟩)
  refine ⟨h.nodes, h.nodup, h.order, ?_, ?_, ?_, ?_⟩ <;> intro i hi
  · rw [hcall i hi, h.call_id i hi]
  · rw [hret i hi, h.ret_id i hi]
  · rw [hcall i hi, h.call_matching i hi]
  · rw [hret i hi, h.ret_matching i hi]

end Recorded

/-- What the search needs of the nodes: a node with a match stands before it, and the two are the
only nodes with their id. Of the nodes without a match nothing is asked, so a call whose return
stands before it may be among them. -/
structure Paired (node : Nat → Node V) (n : Nat) (l : List Nat) : Prop where
  nodup : l.Nodup
  id_lt : ∀ a ∈ l, (node a).id < n
  order : ∀ a ∈ l, ∀ r, (node a).matching = some r → Precedes l a r
  same_id : ∀ a ∈ l, ∀ r, (node a).matching = some r → (node r).id = (node a).id
  only : ∀ a ∈ l, ∀ r, (node a).matching = some r →
    ∀ x ∈ l, (node x).id = (node a).id → x = a ∨ x = r

theorem Paired.congr {node node' : Nat → Node V} {n : Nat} {l : List Nat} (h : Paired node n l)
    (hnode : ∀ a ∈ l, node' a = node a) : Paired node' n l where
  nodup := h.nodup
  id_lt := fun a ha => by rw [hnode a ha]; exact h.id_lt a ha
  order := fun a ha r hr => h.order a ha r (hnode a ha ▸ hr)
  same_id := by
    intro a ha r hr
    rw [hnode a ha] at hr ⊢
    rw [hnode r (h.order a ha r hr).right_mem]
    exact h.same_id a ha r hr
  only := by
    intro a ha r hr x hx hid
    rw [hnode a ha] at hr hid
    rw [hnode x hx] at hid
    exact h.only a ha r hr x hx hid

/-- The nodes of recorded operations are paired. -/
theorem Recorded.paired {node : Nat → Node V} {n : Nat} {l : List Nat} {call ret : Nat → Nat}
    (h : Recorded node n l call ret) : Paired node n l := by
  have hcall : ∀ a ∈ l, ∀ r, (node a).matching = some r →
      ∃ i < n, (node a).id = i ∧ a = call i ∧ r = ret i := by
    intro a ha r hr
    obtain ⟨i, hi, rfl | rfl⟩ := h.mem_iff.mp ha
    · rw [h.call_matching i hi] at hr
      exact ⟨i, hi, h.call_id i hi, rfl, (Option.some.inj hr).symm⟩
    · rw [h.ret_matching i hi] at hr
      cases hr
  refine ⟨h.nodup, fun a ha => h.id_lt ha, ?_, ?_, ?_⟩ <;> intro a ha r hr
  · obtain ⟨i, hi, -, rfl, rfl⟩ := hcall a ha r hr
    exact h.order i hi
  · obtain ⟨i, hi, hid, -, rfl⟩ := hcall a ha r hr
    rw [hid, h.ret_id i hi]
  · intro x hx hsame
    obtain ⟨i, hi, hid, rfl, rfl⟩ := hcall a ha r hr
    obtain ⟨j, hj, rfl | rfl⟩ := h.mem_iff.mp hx
    · rw [h.call_id j hj, hid] at hsame
      exact .inl (hsame ▸ rfl)
    · rw [h.ret_id j hj, hid] at hsame
      exact .inr (hsame ▸ rfl)

/-! ## The search problem -/

/-- The nodes of the operations that are not in `F`. -/
def remaining (node : Nat → Node V) (l : List Nat) (F : Finset Nat) : List Nat :=
  l.filter fun a => (node a).id ∉ F

/-- The calls that come before the first return. -/
def candidates (node : Nat → Node V) (l : List Nat) : List Nat :=
  l.takeWhile fun a => (node a).matching.isSome

/-- The search for an order of the operations recorded by the nodes `l`. -/
def orderProblem (model : Model S V) (node : Nat → Node V) (l : List Nat) :
    Problem (Finset Nat × S) Nat where
  goal c := (remaining node l c.1).isEmpty
  moves c := candidates node (remaining node l c.1)
  move c a :=
    match (node a).matching with
    | some r =>
        let (ok, s) := model.step c.2 (node a).value (node r).value
        if ok then some (insert (node a).id c.1, s) else none
    | none => none
  same c d := c.1 = d.1 && model.equal c.2 d.2

section Search

variable {model : Model S V} {node : Nat → Node V} {n : Nat} {l : List Nat} {call ret : Nat → Nat}
  {F : Finset Nat} {s s' : S} {a i : Nat}

theorem mem_remaining : a ∈ remaining node l F ↔ a ∈ l ∧ (node a).id ∉ F := by
  rw [remaining, List.mem_filter, decide_eq_true_iff]

theorem remaining_insert (i : Nat) :
    remaining node l (insert i F) = (remaining node l F).filter fun a => (node a).id ≠ i := by
  rw [remaining, remaining, List.filter_filter]
  refine List.filter_congr fun a _ => ?_
  simp [not_or]

theorem mem_of_mem_candidates (ha : a ∈ candidates node l) :
    a ∈ l ∧ (node a).matching.isSome = true :=
  ⟨(List.takeWhile_sublist _).subset ha,
    List.mem_takeWhile_imp (p := fun a => (node a).matching.isSome) ha⟩

theorem orderProblem_move_eq_some {F' : Finset Nat} :
    (orderProblem model node l).move (F, s) a = some (F', s') ↔
      ∃ r, (node a).matching = some r ∧
        (model.step s (node a).value (node r).value).1 = true ∧
        F' = insert (node a).id F ∧ s' = (model.step s (node a).value (node r).value).2 := by
  dsimp only [orderProblem]
  cases (node a).matching with
  | none => simp
  | some r =>
      dsimp only
      constructor
      · intro h
        split at h
        · rename_i hok
          cases h
          exact ⟨r, rfl, hok, rfl, rfl⟩
        · cases h
      · rintro ⟨r', hr, hok, rfl, rfl⟩
        cases hr
        rw [if_pos hok]

/-- Every move linearizes an operation that remained, so the search ends. -/
theorem orderProblem_bounded (model : Model S V) (node : Nat → Node V) (l : List Nat) :
    (orderProblem model node l).Bounded (fun c => (remaining node l c.1).length) l.length where
  moves_le c :=
    Nat.le_trans (List.takeWhile_sublist _).length_le List.filter_sublist.length_le
  rank_lt := by
    rintro ⟨F, s⟩ a ⟨F', s'⟩ ha hmove
    obtain ⟨r, -, -, rfl, -⟩ := orderProblem_move_eq_some.mp hmove
    rw [remaining_insert]
    exact List.length_filter_lt_length_iff_exists.mpr
      ⟨a, (mem_of_mem_candidates ha).1, by simp⟩

/-- Induction over the moves that solve a configuration. -/
theorem solvable_induction {motive : Finset Nat → S → Prop}
    (goal : ∀ F s, remaining node l F = [] → motive F s)
    (move : ∀ F s a r, a ∈ candidates node (remaining node l F) → (node a).matching = some r →
      (model.step s (node a).value (node r).value).1 = true →
      motive (insert (node a).id F) (model.step s (node a).value (node r).value).2 → motive F s)
    {F : Finset Nat} {s : S} (h : (orderProblem model node l).Solvable (F, s)) : motive F s := by
  generalize hc : (F, s) = c at h
  induction h generalizing F s with
  | goal hgoal =>
      subst hc
      exact goal F s (List.isEmpty_iff.mp hgoal)
  | @move c c' a ha hmove _ ih =>
      subst hc
      obtain ⟨F', s'⟩ := c'
      obtain ⟨r, hr, hok, rfl, rfl⟩ := orderProblem_move_eq_some.mp hmove
      exact move F s a r ha hr hok (ih rfl)

/-- Equal states are solvable together. -/
theorem solvable_of_equal (hm : model.Respects) (h : (orderProblem model node l).Solvable (F, s))
    {t : S} (ht : model.equal s t = true) : (orderProblem model node l).Solvable (F, t) := by
  refine solvable_induction (motive := fun F s => ∀ t, model.equal s t = true →
    (orderProblem model node l).Solvable (F, t)) ?_ ?_ h t ht
  · exact fun F s hempty _ _ => .goal (List.isEmpty_iff.mpr hempty)
  · intro F s a r ha hr hok ih t ht
    obtain ⟨hsame, heq⟩ := hm s t ht (node a).value (node r).value
    exact .move ha (orderProblem_move_eq_some.mpr ⟨r, hr, hsame ▸ hok, rfl, rfl⟩) (ih _ (heq hok))

theorem orderProblem_sound (hm : model.Respects) (node : Nat → Node V) (l : List Nat) :
    (orderProblem model node l).Sound (fun c => (remaining node l c.1).length) l.length where
  toBounded := orderProblem_bounded model node l
  rank_same := by
    intro c v hsame
    obtain ⟨hF, -⟩ : c.1 = v.1 ∧ _ := by simpa [orderProblem] using hsame
    show (remaining node l c.1).length = (remaining node l v.1).length
    rw [hF]
  solvable_same := by
    intro c v hsame hc
    obtain ⟨hF, heq⟩ : c.1 = v.1 ∧ _ := by simpa [orderProblem] using hsame
    have := solvable_of_equal hm hc heq
    rwa [hF] at this

/-! ## Solvable configurations -/

/-- An operation none of whose nodes has a match is never linearized. -/
theorem not_solvable_of_unmatched (ha : a ∈ l)
    (hnone : ∀ x ∈ l, (node x).id = (node a).id → (node x).matching = none)
    (haF : (node a).id ∉ F) : ¬ (orderProblem model node l).Solvable (F, s) := by
  intro hsolv
  refine solvable_induction (motive := fun F _ => (node a).id ∉ F → False) ?_ ?_ hsolv haF
  · intro F s hempty haF
    have hmem : a ∈ remaining node l F := mem_remaining.mpr ⟨ha, haF⟩
    rw [hempty] at hmem
    cases hmem
  · intro F s x r hx hr _ ih haF
    have hxl : x ∈ l := (mem_remaining.mp (mem_of_mem_candidates hx).1).1
    have hne : (node a).id ≠ (node x).id := fun heq => by
      rw [hnone x hxl heq.symm] at hr
      cases hr
    exact ih fun hin => (Finset.mem_insert.mp hin).elim hne haF

/-- The order of the operations outside `F` completes a linearization from state `s`. -/
structure Completes (model : Model S V) (node : Nat → Node V) (n : Nat) (l : List Nat)
    (call ret : Nat → Nat) (F : Finset Nat) (s : S) (order : List Nat) : Prop where
  nodup : order.Nodup
  mem : ∀ i, i ∈ order ↔ i < n ∧ i ∉ F
  realTime : order.Pairwise fun i j => ¬ Precedes l (ret j) (call i)
  accepts : model.Accepts s (order.map (operation node call ret))

/-- The operations that may come next: no other remaining operation has returned before they
were called. -/
theorem call_mem_candidates (h : Recorded node n l call ret) (hi : i < n) :
    call i ∈ candidates node (remaining node l F) ↔
      i ∉ F ∧ ∀ j < n, j ∉ F → ¬ Precedes l (ret j) (call i) := by
  have hcall : call i ∈ l := h.mem_iff.mpr ⟨i, hi, .inl rfl⟩
  have hnodup : (remaining node l F).Nodup := h.nodup.sublist List.filter_sublist
  rw [candidates, mem_takeWhile_iff hnodup, mem_remaining, h.call_id i hi]
  have hsome : (node (call i)).matching.isSome = true := by rw [h.call_matching i hi]; rfl
  constructor
  · rintro ⟨⟨-, hF⟩, -, hno⟩
    refine ⟨hF, fun j hj hjF hprec => hno (ret j) (by rw [h.ret_matching j hj]; rfl) ?_⟩
    rw [remaining, Precedes.filter_iff, h.ret_id j hj, h.call_id i hi]
    exact ⟨hprec, decide_eq_true hjF, decide_eq_true hF⟩
  · rintro ⟨hF, hno⟩
    refine ⟨⟨hcall, hF⟩, hsome, fun y hy hprec => ?_⟩
    obtain ⟨hprec, hyF, -⟩ := Precedes.filter_iff.mp hprec
    obtain ⟨j, hj, rfl | rfl⟩ := h.mem_iff.mp hprec.left_mem
    · rw [h.call_matching j hj] at hy
      cases hy
    · rw [h.ret_id j hj] at hyF
      exact hno j hj (of_decide_eq_true hyF) hprec

theorem remaining_eq_nil_iff (h : Recorded node n l call ret) :
    remaining node l F = [] ↔ ∀ i < n, i ∈ F := by
  rw [List.eq_nil_iff_forall_not_mem]
  constructor
  · intro hnil i hi
    by_contra hF
    refine hnil (call i) (mem_remaining.mpr ⟨h.mem_iff.mpr ⟨i, hi, .inl rfl⟩, ?_⟩)
    rwa [h.call_id i hi]
  · intro hall a ha
    obtain ⟨hl, hF⟩ := mem_remaining.mp ha
    exact hF (hall _ (h.id_lt hl))

/-- The first operation of a completion is a move, and the rest completes what follows. -/
theorem completes_cons_iff (h : Recorded node n l call ret) {order : List Nat} (hi : i < n) :
    Completes model node n l call ret F s (i :: order) ↔
      call i ∈ candidates node (remaining node l F) ∧
      (model.step s (node (call i)).value (node (ret i)).value).1 = true ∧
      Completes model node n l call ret (insert i F)
        (model.step s (node (call i)).value (node (ret i)).value).2 order := by
  rw [call_mem_candidates h hi]
  constructor
  · rintro ⟨hnodup, hmem, hreal, hok, hrest⟩
    obtain ⟨hnot, hnodup⟩ := List.nodup_cons.mp hnodup
    obtain ⟨hfirst, hreal⟩ := List.pairwise_cons.mp hreal
    have hiF : i ∉ F := ((hmem i).mp List.mem_cons_self).2
    refine ⟨⟨hiF, fun j hj hjF => ?_⟩, hok, hnodup, fun j => ?_, hreal, hrest⟩
    · rcases List.mem_cons.mp ((hmem j).mpr ⟨hj, hjF⟩) with rfl | hjo
      · exact (h.order j hj).asymm h.nodup
      · -- what comes later in the order does not return before `i` is called
        exact hfirst j hjo
    · rw [Finset.mem_insert, not_or]
      constructor
      · intro hj
        obtain ⟨hjn, hjF⟩ := (hmem j).mp (List.mem_cons_of_mem _ hj)
        exact ⟨hjn, fun heq => hnot (heq ▸ hj), hjF⟩
      · rintro ⟨hjn, hne, hjF⟩
        exact (List.mem_cons.mp ((hmem j).mpr ⟨hjn, hjF⟩)).resolve_left hne
  · rintro ⟨⟨hiF, hno⟩, hok, hnodup, hmem, hreal, hrest⟩
    refine ⟨List.nodup_cons.mpr ⟨fun hi' => ?_, hnodup⟩, fun j => ?_,
      List.pairwise_cons.mpr ⟨fun j hj => ?_, hreal⟩, hok, hrest⟩
    · exact ((hmem i).mp hi').2 (Finset.mem_insert_self _ _)
    · rw [List.mem_cons, hmem j, Finset.mem_insert, not_or]
      constructor
      · rintro (rfl | ⟨hjn, -, hjF⟩)
        · exact ⟨hi, hiF⟩
        · exact ⟨hjn, hjF⟩
      · rintro ⟨hjn, hjF⟩
        by_cases hji : j = i
        · exact .inl hji
        · exact .inr ⟨hjn, hji, hjF⟩
    · obtain ⟨hjn, hjF⟩ := (hmem j).mp hj
      exact hno j hjn fun hin => hjF (Finset.mem_insert_of_mem hin)

/-- **A configuration is solvable when the remaining operations have an order that completes
the linearization.** -/
theorem solvable_iff (h : Recorded node n l call ret) :
    (orderProblem model node l).Solvable (F, s) ↔
      ∃ order, Completes model node n l call ret F s order := by
  constructor
  · refine solvable_induction
      (motive := fun F s => ∃ order, Completes model node n l call ret F s order) ?_ ?_
    · intro F s hempty
      have hall := (remaining_eq_nil_iff h).mp hempty
      refine ⟨[], List.nodup_nil, fun i => ?_, List.Pairwise.nil, trivial⟩
      exact ⟨fun hi => absurd hi List.not_mem_nil, fun hi => absurd (hall i hi.1) hi.2⟩
    · rintro F s a r ha hr hok ⟨order, horder⟩
      obtain ⟨hrem, hcall⟩ := mem_of_mem_candidates ha
      have hal := (mem_remaining.mp hrem).1
      have hi := h.id_lt hal
      have hacall := h.eq_call hal hcall
      generalize (node a).id = i at hi hacall horder
      subst hacall
      rw [h.call_matching i hi] at hr
      cases hr
      exact ⟨i :: order, (completes_cons_iff h hi).mpr ⟨ha, hok, horder⟩⟩
  · rintro ⟨order, horder⟩
    -- along the order, each operation is a move of the search
    induction order generalizing F s with
    | nil =>
        refine .goal (List.isEmpty_iff.mpr ((remaining_eq_nil_iff h).mpr fun i hi => ?_))
        by_contra hF
        exact List.not_mem_nil ((horder.mem i).mpr ⟨hi, hF⟩)
    | cons i order ih =>
        have hi : i < n := ((horder.mem i).mp List.mem_cons_self).1
        obtain ⟨hcand, hok, hrest⟩ := (completes_cons_iff h hi).mp horder
        refine .move hcand (orderProblem_move_eq_some.mpr
          ⟨ret i, h.call_matching i hi, hok, rfl, rfl⟩) ?_
        rw [h.call_id i hi]
        exact ih hrest

/-- A linearization is an order that completes the empty one. -/
theorem linearizable_iff (h : Recorded node n l call ret) :
    Linearizable model node n l call ret ↔
      ∃ order, Completes model node n l call ret ∅ model.init order := by
  refine exists_congr fun order => ⟨?_, ?_⟩
  · rintro ⟨hperm, hreal, haccepts⟩
    have hmem : ∀ i, i ∈ order ↔ i < n ∧ i ∉ (∅ : Finset Nat) := fun i => by
      simp [hperm.mem_iff]
    have hnodup : order.Nodup := hperm.nodup_iff.mpr List.nodup_range
    refine ⟨hnodup, hmem, List.pairwise_iff_forall_sublist.mpr fun {i j} hij hprec => ?_, haccepts⟩
    -- had `j` returned before the call of `i`, it would come first
    have hin : Precedes order i j := hij
    exact hin.asymm hnodup (hreal j ((hmem j).mp hin.right_mem).1 i ((hmem i).mp hin.left_mem).1
      hprec)
  · rintro ⟨hnodup, hmem, hreal, haccepts⟩
    have hmem' : ∀ i, i ∈ order ↔ i ∈ List.range n := fun i => by
      rw [hmem, List.mem_range]
      simp
    refine ⟨(List.perm_ext_iff_of_nodup hnodup List.nodup_range).mpr hmem',
      fun i hi j hj hprec => ?_, haccepts⟩
    have hne : i ≠ j := by
      rintro rfl
      exact (h.order i hi).asymm h.nodup hprec
    rcases Precedes.total ((hmem' i).mpr (List.mem_range.mpr hi))
      ((hmem' j).mpr (List.mem_range.mpr hj)) hne with hij | hji
    · exact hij
    · exact absurd hprec (List.pairwise_iff_forall_sublist.mp hreal hji)

end Search

end RaftLab.Linearizability
