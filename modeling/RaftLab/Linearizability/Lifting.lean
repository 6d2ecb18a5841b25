import RaftLab.Lib.Run
import RaftLab.Linearizability.Decides

set_option autoImplicit false

/-! # `lift` and `unlift` in stack order

A node that `lift` takes out keeps its own pointers, and `unlift` trusts them. They are right as
long as the last lift is the first to be undone. Here any number of lifts and unlifts is made on a
history behind a head node, with the outstanding lifts kept on a stack.

`Lifted` goes through the stack: at each level the list is the original one without the calls and
returns that are on the stack, and `unlift` of the top restores the heap of the level below, all
its pointers included. A lift adds a level (`Lifted.lift`), an unlift takes one off
(`Lifted.unlift`), and no step touches the levels below.
-/

namespace RaftLab.Linearizability

variable {V : Type}

/-- A history behind a head node: a doubly linked list without repetition in which the match of a
call stands behind it, is the match of no other call and has no match itself. -/
structure Headed (h : Heap V) (head : Nat) (l : List Nat) : Prop where
  linked : h.links.Linked (head :: l)
  nodup : (head :: l).Nodup
  head_matching : (h.node head).matching = none
  order : ∀ a ∈ l, ∀ r, (h.node a).matching = some r → Precedes l a r
  injective : ∀ a ∈ l, ∀ b ∈ l, ∀ r, (h.node a).matching = some r →
    (h.node b).matching = some r → a = b
  ret : ∀ a ∈ l, ∀ r, (h.node a).matching = some r → (h.node r).matching = none

/-! ## Sequences of lifts and unlifts -/

inductive LiftStep where
  | lift (entry : Nat)
  | unlift

/-- The heap and the calls whose lifts are outstanding, the last one first. -/
structure Lifting (V : Type) where
  heap : Heap V
  outstanding : List Nat

/-- A lift, or the unlift of the last outstanding one. -/
def Lifting.step (s : Lifting V) : LiftStep → Option (Lifting V)
  | .lift entry => (s.heap.lift entry).map fun heap => ⟨heap, entry :: s.outstanding⟩
  | .unlift =>
      match s.outstanding with
      | [] => none
      | entry :: outstanding => (s.heap.unlift entry).map fun heap => ⟨heap, outstanding⟩

/-- A call may be lifted when it is still found behind the head, and there must be something to
undo. -/
def Lifting.Allowed (head : Nat) (s : Lifting V) : LiftStep → Prop
  | .lift entry => s.heap.links.Reaches head entry ∧ (s.heap.node entry).matching ≠ none
  | .unlift => s.outstanding ≠ []

/-- The calls and the returns of the outstanding lifts. -/
def lifted (node : Nat → Node V) (outstanding : List Nat) : List Nat :=
  outstanding.flatMap fun entry => entry :: (node entry).matching.toList

/-- The list without the calls and the returns of the outstanding lifts. -/
def listed (node : Nat → Node V) (l outstanding : List Nat) : List Nat :=
  l.filter fun a => a ∉ lifted node outstanding

section Stack

variable {h heap : Heap V} {head e m : Nat} {l outstanding : List Nat}

theorem mem_lifted {node : Nat → Node V} {a : Nat} :
    a ∈ lifted node outstanding ↔ ∃ e ∈ outstanding, a = e ∨ (node e).matching = some a := by
  simp [lifted, List.mem_flatMap]

theorem mem_listed {node : Nat → Node V} {a : Nat} :
    a ∈ listed node l outstanding ↔ a ∈ l ∧ a ∉ lifted node outstanding := by
  simp [listed, List.mem_filter]

/-- One more lift takes its call and its return out of the list. -/
theorem listed_cons {node : Nat → Node V} (hm : (node e).matching = some m) :
    listed node l (e :: outstanding)
      = (listed node l outstanding).filter fun a => a ≠ e ∧ a ≠ m := by
  unfold listed
  rw [List.filter_filter]
  refine List.filter_congr fun a _ => ?_
  have hiff : a ∉ lifted node (e :: outstanding) ↔
      (a ≠ e ∧ a ≠ m) ∧ a ∉ lifted node outstanding := by
    simp [lifted, hm, and_assoc]
  simp only [hiff, Bool.decide_and]

/-- The heap has come from `h` by the outstanding lifts of calls, each of which `unlift` takes
back. -/
inductive Lifted (h : Heap V) (head : Nat) (l : List Nat) : Heap V → List Nat → Prop
  | start : Lifted h head l h []
  | lift {heap heap' : Heap V} {outstanding : List Nat} {e m : Nat} :
      Lifted h head l heap outstanding → e ∈ l → (h.node e).matching = some m →
      heap'.node = h.node →
      heap'.links.Linked (head :: listed h.node l (e :: outstanding)) →
      heap'.unlift e = some heap → Lifted h head l heap' (e :: outstanding)

namespace Lifted

theorem node_eq (hs : Lifted h head l heap outstanding) : heap.node = h.node := by
  cases hs with
  | start => rfl
  | lift _ _ _ hnode _ _ => exact hnode

theorem linked (hh : Headed h head l) (hs : Lifted h head l heap outstanding) :
    heap.links.Linked (head :: listed h.node l outstanding) := by
  cases hs with
  | start => simpa [listed, lifted] using hh.linked
  | lift _ _ _ _ hlinked _ => exact hlinked

/-- What is on the stack are calls of the history. -/
theorem call_of_mem (hs : Lifted h head l heap outstanding) (he : e ∈ outstanding) :
    e ∈ l ∧ ∃ m, (h.node e).matching = some m := by
  induction hs with
  | start => cases he
  | lift _ hmem hm _ _ _ ih =>
      rcases List.mem_cons.mp he with rfl | he
      · exact ⟨hmem, _, hm⟩
      · exact ih he

/-- The return of a call that is still in the list is in it, too. -/
theorem ret_mem_listed (hh : Headed h head l) (hs : Lifted h head l heap outstanding)
    (he : e ∈ listed h.node l outstanding) (hm : (h.node e).matching = some m) :
    m ∈ listed h.node l outstanding := by
  obtain ⟨hel, hefree⟩ := mem_listed.mp he
  refine mem_listed.mpr ⟨(hh.order e hel m hm).right_mem, fun hlifted => ?_⟩
  obtain ⟨e', he', hcase⟩ := mem_lifted.mp hlifted
  obtain ⟨hel', m', hm'⟩ := hs.call_of_mem he'
  rcases hcase with rfl | hsame
  · -- the return would be a call
    rw [hh.ret e hel m hm] at hm'
    cases hm'
  · -- another call would have the same return
    obtain rfl : e' = e := hh.injective e' hel' e hel m hsame hm
    exact hefree (mem_lifted.mpr ⟨e', he', .inl rfl⟩)

/-- **A lift adds a level**: it succeeds, takes the call and its return out of the list, and can
be undone. -/
theorem exists_lift (hh : Headed h head l) (hs : Lifted h head l heap outstanding)
    (he : e ∈ listed h.node l outstanding) (hm : (h.node e).matching = some m) :
    ∃ heap', heap.lift e = some heap' ∧ Lifted h head l heap' (e :: outstanding) := by
  have hsub : (listed h.node l outstanding).Sublist l := List.filter_sublist
  have hprec : Precedes (listed h.node l outstanding) e m := by
    have hmfree := (mem_listed.mp (hs.ret_mem_listed hh he hm)).2
    obtain ⟨hel, hefree⟩ := mem_listed.mp he
    exact Precedes.filter_iff.mpr
      ⟨hh.order e hel m hm, by simpa using hefree, by simpa using hmfree⟩
  have hnodup : (head :: listed h.node l outstanding).Nodup :=
    hh.nodup.sublist (hsub.cons_cons head)
  have hlinked := hs.linked hh
  -- the list around the call and its return
  obtain ⟨A, C, hAC⟩ := List.append_of_mem he
  have hmC : m ∈ C := by
    rw [hAC] at hprec hnodup
    exact Precedes.mem_after (List.nodup_cons.mp hnodup).2 hprec
  obtain ⟨Q, R, rfl⟩ := List.append_of_mem hmC
  have hsplit : listed h.node l outstanding = A ++ e :: Q ++ m :: R := by
    rw [hAC, List.append_assoc, List.cons_append]
  rw [hsplit, ← List.cons_append, ← List.cons_append] at hlinked hnodup
  obtain ⟨k, hlift, hk, hunlift⟩ :=
    Heap.lift_linked (List.cons_ne_nil head A) (hs.node_eq ▸ hm) hlinked hnodup
  have hrest : listed h.node l (e :: outstanding) = A ++ Q ++ R := by
    rw [listed_cons hm, hsplit]
    refine filter_eq_of_two (List.nodup_cons.mp hnodup).2 (by simp) (by simp) ?_
    intro z _ hze hzm
    simp [hze, hzm]
  refine ⟨_, hlift, .lift hs (hsub.subset he) hm hs.node_eq ?_ hunlift⟩
  rw [hrest]
  exact hk

/-- An unlift takes the last level off. -/
theorem exists_unlift (hs : Lifted h head l heap (e :: outstanding)) :
    ∃ heap', heap.unlift e = some heap' ∧ Lifted h head l heap' outstanding := by
  cases hs with
  | lift hs _ _ _ _ hunlift => exact ⟨_, hunlift, hs⟩

/-- Undoing all outstanding lifts leads back to the heap at the start. -/
theorem run_unlift (hs : Lifted h head l heap outstanding) :
    Machine.run Lifting.step ⟨heap, outstanding⟩ (List.replicate outstanding.length .unlift)
      = some ⟨h, []⟩ := by
  induction hs with
  | start => rfl
  | lift _ _ _ _ _ hunlift ih =>
      rw [List.length_cons, List.replicate_succ, Machine.run, Lifting.step]
      simp only [hunlift, Option.map_some, Option.bind_some]
      exact ih

/-- An allowed step succeeds and goes on. -/
theorem step (hh : Headed h head l) {s : Lifting V} (hs : Lifted h head l s.heap s.outstanding)
    {event : LiftStep} (hok : s.Allowed head event) :
    ∃ s', s.step event = some s' ∧ Lifted h head l s'.heap s'.outstanding := by
  cases event with
  | lift entry =>
      obtain ⟨hreach, hmatch⟩ := hok
      rw [hs.node_eq] at hmatch
      obtain ⟨m, hm⟩ := Option.ne_none_iff_exists'.mp hmatch
      have hmem := (hs.linked hh).mem_of_reaches List.mem_cons_self hreach
      have hne : entry ≠ head := by
        rintro rfl
        exact hmatch hh.head_matching
      obtain ⟨heap', hlift, hs'⟩ := hs.exists_lift hh ((List.mem_cons.mp hmem).resolve_left hne) hm
      exact ⟨⟨heap', entry :: s.outstanding⟩, by rw [Lifting.step, hlift]; rfl, hs'⟩
  | unlift =>
      obtain ⟨heap, outstanding⟩ := s
      obtain ⟨e, rest, rfl⟩ := List.exists_cons_of_ne_nil hok
      obtain ⟨heap', hunlift, hs'⟩ := hs.exists_unlift
      exact ⟨⟨heap', rest⟩, by simp [Lifting.step, hunlift], hs'⟩

/-- A whole sequence of allowed steps succeeds. -/
theorem run (hh : Headed h head l) {s : Lifting V} (hs : Lifted h head l s.heap s.outstanding)
    {steps : List LiftStep}
    (hok : Machine.Along Lifting.step (Lifting.Allowed head) s steps) :
    ∃ s', Machine.run Lifting.step s steps = some s' ∧
      Lifted h head l s'.heap s'.outstanding := by
  induction steps generalizing s with
  | nil => exact ⟨s, rfl, hs⟩
  | cons event steps ih =>
      obtain ⟨t, ht, hs'⟩ := hs.step hh hok.1
      obtain ⟨s', hrun, hlifted⟩ := ih hs' (hok.2 t ht)
      exact ⟨s', by rw [Machine.run, ht, Option.bind_some, hrun], hlifted⟩

end Lifted

/-- **`lift` and `unlift` are inverse in stack order.** On every history behind a head node, and
for every sequence of lifts of calls that are still in the list, mixed with unlifts of the last
outstanding lift: after every step the list from the head on is the original one without the calls
and returns of the outstanding lifts, in its order and with `prev` mirroring `next`, and undoing all
of them gives back every pointer. -/
theorem lift_unlift_stack_order {h : Heap V} {head : Nat} {l : List Nat} (hh : Headed h head l)
    {steps : List LiftStep}
    (hok : Machine.Along Lifting.step (Lifting.Allowed head) ⟨h, []⟩ steps) :
    ∀ before after, steps = before ++ after →
      ∃ s, Machine.run Lifting.step ⟨h, []⟩ before = some s ∧
        s.heap.links.Linked (head :: listed h.node l s.outstanding) ∧
        Machine.run Lifting.step s (List.replicate s.outstanding.length .unlift)
          = some ⟨h, []⟩ := by
  rintro before after rfl
  obtain ⟨t, hall, -⟩ := Lifted.run hh .start hok
  rw [Machine.run_append, Option.bind_eq_some_iff] at hall
  obtain ⟨s, hs, -⟩ := hall
  obtain ⟨s', hrun, hlifted⟩ := Lifted.run hh .start (Machine.along_append hok hs).1
  exact ⟨s', hrun, hlifted.linked hh, hlifted.run_unlift⟩

end Stack

/-! ## The history of the checker -/

section Checker

variable {h : Heap V} {subhistory : Option Nat} {n : Nat} {l : List Nat}

theorem Paired.ret_matching {node : Nat → Node V} (hp : Paired node n l) {a r : Nat} (ha : a ∈ l)
    (hr : (node a).matching = some r) : (node r).matching = none := by
  have hprec := hp.order a ha r hr
  by_contra hne
  obtain ⟨r', hr'⟩ := Option.ne_none_iff_exists'.mp hne
  have hprec' := hp.order r hprec.right_mem r' hr'
  have hid : (node r').id = (node a).id :=
    (hp.same_id r hprec.right_mem r' hr').trans (hp.same_id a ha r hr)
  rcases hp.only a ha r hr r' hprec'.right_mem hid with rfl | rfl
  · exact hprec.asymm hp.nodup hprec'
  · exact hprec'.asymm hp.nodup hprec'

theorem Paired.matching_injective {node : Nat → Node V} (hp : Paired node n l) {a b r : Nat}
    (ha : a ∈ l) (hb : b ∈ l) (har : (node a).matching = some r)
    (hbr : (node b).matching = some r) : a = b := by
  have hid : (node b).id = (node a).id := (hp.same_id b hb r hbr).symm.trans (hp.same_id a ha r har)
  rcases hp.only a ha r har b hb hid with hba | rfl
  · exact hba.symm
  · rw [hp.ret_matching ha har] at hbr
    cases hbr

/-- The heap with which the loop of `checkSingle` begins is a history behind its head. -/
theorem Chained.headed [Inhabited V] (hc : Chained h subhistory n l) :
    Headed ((h.new ⟨default, none, 2 ^ 64 - 1⟩).1.insertBefore h.size subhistory) h.size l := by
  have hnode : ((h.new ⟨default, none, 2 ^ 64 - 1⟩).1.insertBefore h.size subhistory).node
      = withHead h := Heap.insertBefore_node _ _ _
  have hp := hc.paired_withHead
  constructor
  · rw [hc.first]
    exact Heap.insertBefore_new_linked hc.linked hc.nodup hc.allocated hc.before _
  · exact List.nodup_cons.mpr ⟨hc.head_notMem, hc.nodup⟩
  · rw [hnode, withHead, Function.update_self]
  · rw [hnode]
    exact hp.order
  · rw [hnode]
    exact fun a ha b hb r har hbr => hp.matching_injective ha hb har hbr
  · rw [hnode]
    exact fun a ha r hr => hp.ret_matching ha hr

end Checker

/-- The second increment is lifted above the first and undone, then the first is undone and the
second lifted alone. -/
theorem lift_unlift_stack_order_overlapping :
    ∃ s, Machine.run Lifting.step
        ⟨(overlapping.new ⟨default, none, 2 ^ 64 - 1⟩).1.insertBefore 4 (some 0), []⟩
        [.lift 0, .lift 1, .unlift, .unlift, .lift 1] = some s ∧
      s.heap.links.Linked [4, 0, 2] := by
  have hok : Machine.Along Lifting.step (Lifting.Allowed 4)
      ⟨(overlapping.new ⟨default, none, 2 ^ 64 - 1⟩).1.insertBefore 4 (some 0), []⟩
      [.lift 0, .lift 1, .unlift, .unlift, .lift 1] := by
    refine Machine.along_cons ⟨.single rfl, nofun⟩ rfl ?_
    refine Machine.along_cons ⟨.single rfl, nofun⟩ rfl ?_
    refine Machine.along_cons (List.cons_ne_nil _ _) rfl ?_
    refine Machine.along_cons (List.cons_ne_nil _ _) rfl ?_
    exact ⟨⟨.head (b := 0) rfl (.single rfl), nofun⟩, fun _ _ => trivial⟩
  obtain ⟨s, hrun, hlinked, -⟩ :=
    lift_unlift_stack_order overlapping_wellFormed.chained.headed hok _ [] (List.append_nil _).symm
  refine ⟨s, hrun, ?_⟩
  cases hrun
  exact hlinked

end RaftLab.Linearizability
