import RaftLab.Linearizability.Order

set_option autoImplicit false

/-! # `checkSingle` decides linearizability

Every iteration of the loop is one round of the search of `orderProblem`: the list behind the head
holds the nodes of the operations that are not linearized, `entry` is the next node to look at, the
stack of calls is the stack of frames, and the cache answers as the list of entered configurations
does. The relation `Simulates` carries this; it is kept by every iteration (`iteration_simulates`),
and so the loop gives the answer of the search. For that the nodes need only be `Chained`; that the
answer is about linearizability takes the matches of a `WellFormed` history.
-/

namespace RaftLab.Linearizability

open Backtrack (Problem Frame)

variable {S V : Type}

/-- The history that starts at `subhistory` is the linked list of the nodes `l`, with nothing
before the first, and records `n` operations. -/
structure WellFormed (h : Heap V) (subhistory : Option Nat) (n : Nat) (l : List Nat)
    (call ret : Nat → Nat) : Prop extends Recorded h.node n l call ret where
  first : subhistory = l.head?
  linked : h.links.Linked l
  before : ∀ a, l.head? = some a → h.links.prev a = none
  allocated : ∀ a ∈ l, a < h.size

/-- The history that starts at `subhistory` is the linked list of the nodes `l`, with nothing
before the first. They are paired as far as they have matches, and there are two for each of `n`
operations. -/
structure Chained (h : Heap V) (subhistory : Option Nat) (n : Nat) (l : List Nat) : Prop
    extends Paired h.node n l where
  length_eq : l.length = 2 * n
  first : subhistory = l.head?
  linked : h.links.Linked l
  before : ∀ a, l.head? = some a → h.links.prev a = none
  allocated : ∀ a ∈ l, a < h.size

theorem WellFormed.chained {h : Heap V} {subhistory : Option Nat} {n : Nat} {l : List Nat}
    {call ret : Nat → Nat} (hw : WellFormed h subhistory n l call ret) :
    Chained h subhistory n l where
  toPaired := hw.paired
  length_eq := hw.toRecorded.length_eq
  first := hw.first
  linked := hw.linked
  before := hw.before
  allocated := hw.allocated

section Simulation

variable (model : Model S V) (node : Nat → Node V) (n : Nat) (l : List Nat) (head : Nat)

/-- The list behind the head holds the nodes of the operations that are not in the bitset. -/
structure Level (heap : Heap V) (b : Bitset) : Prop where
  nodes : heap.node = node
  linked : heap.links.Linked (head :: remaining node l b.toFinset)
  sized : b.Sized n

/-- The walk along the nodes `L` has come to `entry`, and the calls it can still try are `rest`. -/
def WalkedTo (L : List Nat) (entry : Option Nat) (rest : List Nat) : Prop :=
  ∃ A C, L = A ++ C ∧ (C = [] → L = []) ∧ entry = C.head? ∧ rest = candidates node C

/-- Each call on the stack was lifted in the frame next to it, from a list and a bitset that
`unlift` and `clear` restore. -/
def Stacked : Heap V → Bitset → List (CallsEntry S) → List (Frame (Finset Nat × S) Nat) → Prop
  | _, _, [], [] => True
  | heap, b, c :: calls, f :: frames =>
      ∃ heap' b', Level node n l head heap' b' ∧
        heap.unlift c.entry = some heap' ∧ b.clear (node c.entry).id = some b' ∧
        f.cfg = (b'.toFinset, c.state) ∧
        WalkedTo node (remaining node l b'.toFinset) (heap'.links.next c.entry) f.rest ∧
        Stacked heap' b' calls frames
  | _, _, _, _ => False

/-- The variables of the loop and the state of the search. -/
structure Simulates (s : Search S V) (t : Backtrack.State (Finset Nat × S) Nat) : Prop where
  level : Level node n l head s.heap s.linearized
  cfg : t.top.cfg = (s.linearized.toFinset, s.state)
  walked : WalkedTo node (remaining node l s.linearized.toFinset) s.entry t.top.rest
  stack : Stacked node n l head s.heap s.linearized s.calls t.below
  cache : ∀ b st, b.Sized n →
    cacheContains model s.cache ⟨b, st⟩
      = t.seen.any ((orderProblem model node l).same (b.toFinset, st))

variable {model node n l head} {F : Finset Nat} {heap : Heap V}
  {b b' : Bitset} {A C : List Nat} {a r : Nat}

/-- The return of a remaining call is further down the list. -/
theorem mem_after_call (h : Paired node n l) (hL : remaining node l F = A ++ a :: C)
    (hr : (node a).matching = some r) : r ∈ C ∧ (node r).id = (node a).id := by
  have ha : a ∈ remaining node l F := by rw [hL]; simp
  obtain ⟨hal, haF⟩ := mem_remaining.mp ha
  have hid := h.same_id a hal r hr
  refine ⟨Precedes.mem_after (A := A) (y := a) ?_ ?_, hid⟩
  · rw [← hL]
    exact h.nodup.sublist List.filter_sublist
  · rw [← hL, remaining, Precedes.filter_iff, hid]
    exact ⟨h.order a hal r hr, decide_eq_true haF, decide_eq_true haF⟩

/-- Linearizing an operation takes its two nodes out of the list. -/
theorem remaining_insert_eq (h : Paired node n l) {Q R : List Nat}
    (hL : remaining node l F = A ++ a :: Q ++ r :: R) (hr : (node a).matching = some r)
    (hid : (node r).id = (node a).id) :
    remaining node l (insert (node a).id F) = A ++ Q ++ R := by
  have hnodup : (A ++ a :: Q ++ r :: R).Nodup := hL ▸ h.nodup.sublist List.filter_sublist
  have hmem : ∀ x ∈ A ++ a :: Q ++ r :: R, x ∈ l := fun x hx =>
    (mem_remaining.mp (hL ▸ hx)).1
  have hal : a ∈ l := hmem a (by simp)
  rw [remaining_insert, hL]
  refine filter_eq_of_two hnodup (by simp) (by simp [hid]) fun x hx hxa hxr => ?_
  -- a node with the id of `a` is one of the two
  have hne : (node x).id ≠ (node a).id := fun hsame =>
    (h.only a hal r hr x (hmem x hx) hsame).elim hxa hxr
  simpa using hne

/-- **Lifting an operation**: the list and the bitset go on to agree, and `unlift` and `clear`
undo the step. -/
theorem Level.lift (h : Paired node n l) (hhead : head ∉ l)
    (hlevel : Level node n l head heap b) (hL : remaining node l b.toFinset = A ++ a :: C)
    (hr : (node a).matching = some r) (hset : b.set (node a).id = some b') :
    ∃ heap', heap.lift a = some heap' ∧ Level node n l head heap' b' ∧
      heap'.unlift a = some heap ∧ b'.clear (node a).id = some b := by
  obtain ⟨hrC, hid⟩ := mem_after_call h hL hr
  obtain ⟨Q, R, rfl⟩ := List.append_of_mem hrC
  have hL' : remaining node l b.toFinset = A ++ a :: Q ++ r :: R := by simpa using hL
  have hnodup : ((head :: A) ++ a :: Q ++ r :: R).Nodup := by
    have hsub : (remaining node l b.toFinset).Nodup := h.nodup.sublist List.filter_sublist
    rw [List.cons_append, List.cons_append, ← hL']
    exact List.nodup_cons.mpr ⟨fun hmem => hhead (mem_remaining.mp hmem).1, hsub⟩
  have hlinked : heap.links.Linked ((head :: A) ++ a :: Q ++ r :: R) := by
    rw [List.cons_append, List.cons_append, ← hL']
    exact hlevel.linked
  obtain ⟨k, hlift, hk, hunlift⟩ :=
    Heap.lift_linked (List.cons_ne_nil _ _) (hlevel.nodes ▸ hr) hlinked hnodup
  refine ⟨_, hlift, ⟨hlevel.nodes, ?_, hlevel.sized.set hset⟩, hunlift, ?_⟩
  · rw [Bitset.toFinset_set hset, remaining_insert_eq h hL' hr hid]
    exact hk
  · have hF : (node a).id ∉ b.toFinset := (mem_remaining.mp (hL ▸ List.mem_append_right A
      List.mem_cons_self)).2
    exact Bitset.clear_of_set hset hF

/-! ## The walk -/

theorem WalkedTo.start (L : List Nat) : WalkedTo node L L.head? (candidates node L) :=
  ⟨[], L, rfl, id, rfl, rfl⟩

/-- The node after a call can be walked to: its return is still to come. -/
theorem WalkedTo.after_call (h : Paired node n l)
    (hlinked : heap.links.Linked (head :: remaining node l F))
    (hL : remaining node l F = A ++ a :: C) (hr : (node a).matching = some r) :
    WalkedTo node (remaining node l F) (heap.links.next a) (candidates node C) := by
  have hne : C ≠ [] := List.ne_nil_of_mem (mem_after_call h hL hr).1
  refine ⟨A ++ [a], C, by simpa using hL, fun hnil => absurd hnil hne, ?_, rfl⟩
  rw [hL, ← List.cons_append] at hlinked
  exact hlinked.next_eq

theorem candidates_of_call (hr : (node a).matching = some r) :
    candidates node (a :: C) = a :: candidates node C :=
  List.takeWhile_cons_of_pos (by rw [hr]; rfl)

theorem candidates_of_return (hr : (node a).matching = none) : candidates node (a :: C) = [] :=
  List.takeWhile_cons_of_neg (by rw [hr]; exact Bool.false_ne_true)

/-! ## The cache -/

/-- A new entry in its bucket is found like a new configuration in the list of entered ones. -/
theorem cacheContains_update {cache : Cache S} {seen : List (Finset Nat × S)} {st : S}
    (hcache : ∀ b st, b.Sized n → cacheContains model cache ⟨b, st⟩
      = seen.any ((orderProblem model node l).same (b.toFinset, st)))
    (hb' : b'.Sized n) (b : Bitset) (st' : S) (hb : b.Sized n) :
    cacheContains model
        (Function.update cache b'.hash (cache b'.hash ++ [⟨b', st⟩])) ⟨b, st'⟩
      = (seen ++ [(b'.toFinset, st)]).any
          ((orderProblem model node l).same (b.toFinset, st')) := by
  have hsame : (b.equals b' && model.equal st' st)
      = (orderProblem model node l).same (b.toFinset, st') (b'.toFinset, st) := by
    show _ = (decide (b.toFinset = b'.toFinset) && model.equal st' st)
    congr 1
    rw [Bool.eq_iff_iff, Bitset.equals_iff, decide_eq_true_iff]
    exact ⟨fun heq => heq ▸ rfl, Bitset.eq_of_toFinset_eq hb hb'⟩
  rw [List.any_append, ← hcache b st' hb, cacheContains, cacheContains]
  -- equal sets have equal hashes, so that only the bucket of `b'` can change the answer
  by_cases hhash : b.hash = b'.hash
  · rw [hhash, Function.update_self, List.any_append]
    simp [hsame]
  · have hne : b.equals b' = false := by
      rw [Bool.eq_false_iff, Ne, Bitset.equals_iff]
      exact fun heq => hhash (heq ▸ rfl)
    rw [hne, Bool.false_and] at hsame
    rw [Function.update_of_ne hhash]
    simp [← hsame]

/-! ## One iteration is one round -/

variable (model node n l head) in
/-- What the loop makes of an iteration is what the search makes of a round. -/
def Matches (o : Option (Search S V ⊕ Bool)) :
    Backtrack.State (Finset Nat × S) Nat ⊕ Bool → Prop
  | .inl t => ∃ s, o = some (.inl s) ∧ Simulates model node n l head s t
  | .inr result => o = some (.inr result)

variable {s : Search S V} {below : List (Frame (Finset Nat × S) Nat)}
  {seen : List (Finset Nat × S)}

/-- At a return, the last call is taken back. -/
theorem iteration_return {rest : List Nat}
    (hs : Simulates model node n l head s
      ⟨⟨(s.linearized.toFinset, s.state), rest⟩, below, seen⟩)
    (hne : s.heap.links.next head ≠ none) (hentry : s.entry = some a)
    (hr : (s.heap.node a).matching = none) :
    Matches model node n l head (iteration model head false s) (Problem.leave below seen) := by
  have hstack := hs.stack
  cases hcalls : s.calls with
  | nil =>
      rw [hcalls] at hstack
      cases below with
      | nil => exact iteration_fail hne hentry hr hcalls
      | cons f frames => exact hstack.elim
  | cons c calls =>
      rw [hcalls] at hstack
      cases below with
      | nil => exact hstack.elim
      | cons f frames =>
          obtain ⟨heap', b', hlevel', hunlift, hclear, hcfg, hwalked, hstack'⟩ := hstack
          rw [iteration_backtrack hne hentry hr hcalls (hs.level.nodes ▸ hclear) hunlift]
          exact ⟨_, rfl, hlevel', hcfg, hwalked, hstack', hs.cache⟩

/-- At a call, the walk goes on to the next node, or the call is lifted and the walk starts
over. -/
theorem iteration_call (h : Paired node n l) (hhead : head ∉ l) {rest : List Nat}
    (hs : Simulates model node n l head s
      ⟨⟨(s.linearized.toFinset, s.state), rest⟩, below, seen⟩)
    (hne : s.heap.links.next head ≠ none)
    (hL : remaining node l s.linearized.toFinset = A ++ a :: C) (hentry : s.entry = some a)
    (hr : (node a).matching = some r) :
    Matches model node n l head (iteration model head false s)
      ((orderProblem model node l).tryMove (s.linearized.toFinset, s.state) a
        (candidates node C) below seen) := by
  have hnodes := hs.level.nodes
  have hr' : (s.heap.node a).matching = some r := hnodes ▸ hr
  have hafter := WalkedTo.after_call h hs.level.linked hL hr
  have hskipped : Simulates model node n l head { s with entry := s.heap.links.next a }
      ⟨⟨(s.linearized.toFinset, s.state), candidates node C⟩, below, seen⟩ :=
    ⟨hs.level, rfl, hafter, hs.stack, hs.cache⟩
  have hmove : (orderProblem model node l).move (s.linearized.toFinset, s.state) a
      = if (model.step s.state (node a).value (node r).value).1 then
          some (insert (node a).id s.linearized.toFinset,
            (model.step s.state (node a).value (node r).value).2)
        else none := by
    dsimp only [orderProblem]
    rw [hr]
  -- skipped if the model refuses it or the cache has it, lifted otherwise
  cases hstep : model.step s.state (node a).value (node r).value with
  | mk ok st =>
      rw [hstep] at hmove
      have hstep' : model.step s.state (s.heap.node a).value (s.heap.node r).value = (ok, st) :=
        hnodes ▸ hstep
      cases ok with
      | false =>
          rw [Problem.tryMove, hmove]
          refine ⟨_, iteration_skip hne hentry hr' fun st' hst' => ?_, hskipped⟩
          rw [hstep'] at hst'
          cases hst'
      | true =>
          have hal : a ∈ l :=
            (mem_remaining.mp (hL ▸ List.mem_append_right A List.mem_cons_self)).1
          obtain ⟨b', hset⟩ := Bitset.set_eq_some hs.level.sized (h.id_lt a hal)
          have hsized' := hs.level.sized.set hset
          rw [Problem.tryMove, hmove, if_pos rfl, ← Bitset.toFinset_set hset]
          dsimp only
          rw [← hs.cache b' st hsized']
          split
          · rename_i hcached
            refine ⟨_, iteration_skip hne hentry hr' fun st' hst' => ?_, hskipped⟩
            rw [hstep'] at hst'
            cases hst'
            exact ⟨b', hnodes ▸ hset, hcached⟩
          · rename_i hfresh
            obtain ⟨heap', hlift, hlevel', hunlift, hclear⟩ := hs.level.lift h hhead hL hr hset
            refine ⟨_, iteration_lift hne hentry hr' hstep' (hnodes ▸ hset) (by simpa using hfresh)
              hlift, hlevel', rfl, ?_, ?_, ?_⟩
            · rw [(Links.linked_cons_iff.mp hlevel'.linked).1]
              exact WalkedTo.start _
            · exact ⟨s.heap, s.linearized, hs.level, hunlift, hclear, rfl, hafter, hs.stack⟩
            · exact fun b st' hb => cacheContains_update hs.cache hsized' b st' hb

/-- **One iteration is one round of the search.** -/
theorem iteration_simulates (h : Paired node n l) (hhead : head ∉ l)
    {t : Backtrack.State (Finset Nat × S) Nat} (hs : Simulates model node n l head s t) :
    Matches model node n l head (iteration model head false s)
      ((orderProblem model node l).step t) := by
  obtain ⟨⟨cfg, rest⟩, below, seen⟩ := t
  obtain rfl : cfg = (s.linearized.toFinset, s.state) := hs.cfg
  obtain ⟨A, C, hL, hnil, hentry, hrest⟩ := hs.walked
  obtain rfl : rest = candidates node C := hrest
  have hnext : s.heap.links.next head = (remaining node l s.linearized.toFinset).head? :=
    (Links.linked_cons_iff.mp hs.level.linked).1
  have hgoal : (orderProblem model node l).goal (s.linearized.toFinset, s.state)
      = (remaining node l s.linearized.toFinset).isEmpty := rfl
  cases C with
  | nil =>
      rw [hnil rfl] at hnext hgoal
      rw [Problem.step, if_pos (hgoal.trans List.isEmpty_nil)]
      exact if_pos hnext
  | cons a C =>
      rw [hL] at hnext hgoal
      have hne : s.heap.links.next head ≠ none := by rw [hnext]; simp
      have hopen : (orderProblem model node l).goal (s.linearized.toFinset, s.state) ≠ true := by
        rw [hgoal]; simp
      rw [Problem.step, if_neg hopen]
      cases hr : (node a).matching with
      | none =>
          have hmatch := iteration_return hs hne hentry (hs.level.nodes ▸ hr)
          rwa [candidates_of_return hr]
      | some r =>
          have hmatch := iteration_call h hhead hs hne hL hentry hr
          rwa [candidates_of_call hr]

/-- The loop gives the answer of the search. -/
theorem loop_eq_run (h : Paired node n l) (hhead : head ∉ l) (fuel : Nat) :
    ∀ {i : Nat} {s : Search S V} {t : Backtrack.State (Finset Nat × S) Nat},
      Simulates model node n l head s t →
      loop model head (fun _ => false) fuel i s = (orderProblem model node l).run fuel t := by
  induction fuel with
  | zero => exact fun _ => rfl
  | succ fuel ih =>
      intro i s t hs
      have hmatch := iteration_simulates h hhead hs
      rw [loop, Problem.run]
      cases hstep : (orderProblem model node l).step t with
      | inl t' =>
          rw [hstep] at hmatch
          obtain ⟨s', hs', hsim⟩ := hmatch
          rw [hs']
          exact ih hsim
      | inr result =>
          rw [hstep] at hmatch
          rw [show iteration model head false s = _ from hmatch]

end Simulation

/-! ## Fuel and the kill flag -/

section Killed

variable {model : Model S V}

theorem loop_succ {head : Nat} {kill : Nat → Bool} {fuel : Nat} :
    ∀ {i : Nat} {s : Search S V} {b : Bool}, loop model head kill fuel i s = some b →
      loop model head kill (fuel + 1) i s = some b := by
  induction fuel with
  | zero => exact fun hloop => nomatch hloop
  | succ fuel ih =>
      intro i s b hloop
      rw [loop] at hloop ⊢
      split at hloop
      · exact ih hloop
      · exact hloop
      · cases hloop

/-- More fuel does not change the answer. -/
theorem loop_of_le {head : Nat} {kill : Nat → Bool} {fuel fuel' i : Nat} {s : Search S V} {b : Bool}
    (hle : fuel ≤ fuel') (hloop : loop model head kill fuel i s = some b) :
    loop model head kill fuel' i s = some b := by
  induction fuel', hle using Nat.le_induction with
  | base => exact hloop
  | succ _ _ ih => exact loop_succ ih

/-- Read in an iteration, the kill flag ends the loop or changes nothing. -/
theorem iteration_killed (model : Model S V) (head : Nat) (killed : Bool) (s : Search S V) :
    iteration model head killed s = iteration model head false s ∨
      killed = true ∧ iteration model head killed s = some (.inr false) := by
  cases killed with
  | false => exact .inl rfl
  | true =>
      by_cases hnext : s.heap.links.next head = none
      · left
        rw [iteration, iteration, if_pos hnext, if_pos hnext]
      · right
        rw [iteration, if_neg hnext]
        exact ⟨rfl, rfl⟩

/-- A loop that answers when it is not interrupted answers with any readings of the kill flag. -/
theorem exists_loop_killed {head : Nat} (kill : Nat → Bool) {fuel : Nat} :
    ∀ {i j : Nat} {s : Search S V} {b : Bool}, loop model head (fun _ => false) fuel j s = some b →
      ∃ b', loop model head kill fuel i s = some b' := by
  induction fuel with
  | zero => exact fun hloop => nomatch hloop
  | succ fuel ih =>
      intro i j s b hloop
      rw [loop] at hloop ⊢
      rcases iteration_killed model head (kill i) s with hsame | ⟨-, hkilled⟩
      · rw [hsame]
        split at hloop
        · exact ih hloop
        · exact ⟨_, rfl⟩
        · cases hloop
      · rw [hkilled]
        exact ⟨false, rfl⟩

end Killed

/-! ## From the start -/

section Start

variable [Inhabited V] {model : Model S V} {h : Heap V} {subhistory : Option Nat} {n : Nat}
  {l : List Nat} {call ret : Nat → Nat}

/-- The nodes after the head has been made. -/
def withHead (h : Heap V) : Nat → Node V :=
  Function.update h.node h.size ⟨default, none, 2 ^ 64 - 1⟩

theorem Chained.withHead_eq (hc : Chained h subhistory n l) {a : Nat} (ha : a ∈ l) :
    withHead h a = h.node a :=
  Function.update_of_ne (Nat.ne_of_lt (hc.allocated a ha)) _ _

theorem Chained.paired_withHead (hc : Chained h subhistory n l) : Paired (withHead h) n l :=
  hc.toPaired.congr fun _ => hc.withHead_eq

theorem WellFormed.recorded_withHead (hw : WellFormed h subhistory n l call ret) :
    Recorded (withHead h) n l call ret :=
  hw.toRecorded.congr fun _ => hw.chained.withHead_eq

theorem WellFormed.linearizable_withHead (hw : WellFormed h subhistory n l call ret) :
    Linearizable model (withHead h) n l call ret ↔ Linearizable model h.node n l call ret := by
  refine exists_congr fun order => and_congr_right fun hperm => and_congr_right fun _ => ?_
  have hops : order.map (operation (withHead h) call ret)
      = order.map (operation h.node call ret) := by
    refine List.map_congr_left fun i hi => ?_
    have hi : i < n := List.mem_range.mp (hperm.mem_iff.mp hi)
    rw [operation, operation, hw.chained.withHead_eq (hw.mem_iff.mpr ⟨i, hi, .inl rfl⟩),
      hw.chained.withHead_eq (hw.mem_iff.mpr ⟨i, hi, .inr rfl⟩)]
  rw [hops]

/-- The variables of the loop when it begins, with room for `n` operations. -/
def initial (model : Model S V) (h : Heap V) (subhistory : Option Nat) (n : Nat) : Search S V where
  heap := (h.new ⟨default, none, 2 ^ 64 - 1⟩).1.insertBefore h.size subhistory
  linearized := Bitset.newBitset n
  cache := fun _ => []
  calls := []
  state := model.init
  entry := subhistory

theorem checkSingle_eq_loop {kill : Nat → Bool} {fuel m : Nat}
    (hlen : h.length fuel subhistory = some m) :
    checkSingle model kill fuel h subhistory
      = loop model h.size kill fuel 0 (initial model h subhistory (m / 2)) := by
  rw [checkSingle, hlen]
  rfl

/-- The loop begins with nothing linearized, like the search. -/
theorem Chained.simulates_initial (hc : Chained h subhistory n l) :
    Simulates model (withHead h) n l h.size (initial model h subhistory n)
      ((orderProblem model (withHead h) l).start (∅, model.init)) := by
  have hall : remaining (withHead h) l (Bitset.newBitset n).toFinset = l := by
    rw [Bitset.toFinset_newBitset, remaining]
    simp
  refine ⟨⟨?_, ?_, Bitset.sized_newBitset n⟩, ?_, ?_, trivial, fun _ _ _ => rfl⟩
  · exact Heap.insertBefore_node _ _ _
  · show ((h.new _).1.insertBefore h.size subhistory).links.Linked
      (h.size :: remaining (withHead h) l (Bitset.newBitset n).toFinset)
    rw [hall, hc.first]
    exact Heap.insertBefore_new_linked hc.linked hc.nodup hc.allocated hc.before _
  · show _ = ((Bitset.newBitset n).toFinset, model.init)
    rw [Bitset.toFinset_newBitset]
    rfl
  · show WalkedTo _ (remaining (withHead h) l (Bitset.newBitset n).toFinset) subhistory
      (candidates (withHead h) (remaining (withHead h) l ∅))
    rw [← Bitset.toFinset_newBitset n, hall, hc.first]
    exact WalkedTo.start l

omit [Inhabited V] in
theorem Chained.head_notMem (hc : Chained h subhistory n l) : h.size ∉ l :=
  fun hmem => Nat.lt_irrefl _ (hc.allocated _ hmem)

theorem Chained.checkSingle_eq_loop (hc : Chained h subhistory n l) {fuel : Nat}
    (hfuel : l.length ≤ fuel) (kill : Nat → Bool) :
    checkSingle model kill fuel h subhistory
      = loop model h.size kill fuel 0 (initial model h subhistory n) := by
  have hlen : h.length fuel subhistory = some (2 * n) := by
    rw [hc.first, Heap.length_eq hc.linked hfuel, hc.length_eq]
  rw [RaftLab.Linearizability.checkSingle_eq_loop hlen, Nat.mul_div_cancel_left n two_pos]

/-- `checkSingle` gives the answer of the search that starts with nothing linearized. -/
theorem Chained.checkSingle_eq_run (hc : Chained h subhistory n l) {fuel : Nat}
    (hfuel : l.length ≤ fuel) :
    checkSingle model (fun _ => false) fuel h subhistory
      = (orderProblem model (withHead h) l).run fuel
          ((orderProblem model (withHead h) l).start (∅, model.init)) := by
  rw [hc.checkSingle_eq_loop hfuel]
  exact loop_eq_run hc.paired_withHead hc.head_notMem fuel hc.simulates_initial

/-- On chained nodes `checkSingle` decides whether the search has a solution. -/
theorem Chained.checkSingle_decides (hm : model.Respects) (hc : Chained h subhistory n l) :
    ∃ result, (∃ N, ∀ fuel, N ≤ fuel →
        checkSingle model (fun _ => false) fuel h subhistory = some result) ∧
      (result = true ↔ (orderProblem model (withHead h) l).Solvable (∅, model.init)) := by
  obtain ⟨result, ⟨N, hrun⟩, hiff⟩ :=
    Problem.run_start_decides (orderProblem_sound hm (withHead h) l) (∅, model.init)
  refine ⟨result, ⟨l.length + N, fun fuel hfuel => ?_⟩, hiff⟩
  rw [hc.checkSingle_eq_run (by omega)]
  exact hrun fuel (by omega)

/-- On a well-formed history the search has a solution when the operations have an order that
completes the empty linearization. -/
theorem WellFormed.solvable_iff (hw : WellFormed h subhistory n l call ret) :
    (orderProblem model (withHead h) l).Solvable (∅, model.init) ↔
      ∃ order, Completes model h.node n l call ret ∅ model.init order := by
  rw [RaftLab.Linearizability.solvable_iff hw.recorded_withHead,
    ← linearizable_iff hw.recorded_withHead, hw.linearizable_withHead,
    linearizable_iff hw.toRecorded]

/-- **`checkSingle` decides linearizability**: on every well-formed history, when the kill flag
is never set, it returns, and it returns `true` exactly when the operations have a linearization.
Of the model's `equal` only what the argument needs is asked, that `step` respects it. -/
theorem checkSingle_decides_linearizable (hm : model.Respects)
    (hw : WellFormed h subhistory n l call ret) :
    ∃ result, (∃ N, ∀ fuel, N ≤ fuel →
        checkSingle model (fun _ => false) fuel h subhistory = some result) ∧
      (result = true ↔ Linearizable model h.node n l call ret) := by
  obtain ⟨result, hreturns, hiff⟩ := hw.chained.checkSingle_decides hm
  refine ⟨result, hreturns, ?_⟩
  rw [hiff, hw.solvable_iff, linearizable_iff hw.toRecorded]

/-- A counter whose operations add their input and return the value before. -/
def fetchAdd : Model Nat Nat :=
  ⟨0, fun s input output => (output == s, s + input), fun s t => s == t⟩

/-- Two overlapping increments of a counter, of which the one that was called first returns 1. -/
def overlapping : Heap Nat where
  node := fun
    | 0 => ⟨1, some 2, 0⟩
    | 1 => ⟨1, some 3, 1⟩
    | 2 => ⟨1, none, 0⟩
    | _ => ⟨0, none, 1⟩
  links :=
    { next := fun a => if a < 3 then some (a + 1) else none
      prev := fun a => if a = 0 then none else some (a - 1) }
  size := 4

theorem overlapping_wellFormed :
    WellFormed overlapping (some 0) 2 [0, 1, 2, 3] (fun i => i) (fun i => i + 2) where
  nodes := by decide
  nodup := by decide
  order := by decide
  call_id := by decide
  ret_id := by decide
  call_matching := by decide
  ret_matching := by decide
  first := rfl
  linked := ⟨rfl, rfl, rfl, rfl, rfl, rfl, rfl⟩
  before := by rintro a ⟨⟩; rfl
  allocated := by decide

theorem checkSingle_decides_linearizable_overlapping :
    ∃ N, ∀ fuel, N ≤ fuel →
      checkSingle fetchAdd (fun _ => false) fuel overlapping (some 0) = some true := by
  have hrespects : fetchAdd.Respects := by
    intro s t hst input output
    obtain rfl : s = t := beq_iff_eq.mp hst
    exact ⟨rfl, fun _ => beq_self_eq_true _⟩
  obtain ⟨result, hreturns, hiff⟩ :=
    checkSingle_decides_linearizable hrespects overlapping_wellFormed
  -- the second increment comes first
  obtain rfl : result = true := hiff.mpr ⟨[1, 0], by decide, by decide, by decide⟩
  exact hreturns

/-! ## Whatever the model answers -/

variable (model) in
/-- Uninterrupted, `checkSingle` answers on chained nodes, whatever the model does. -/
theorem Chained.checkSingle_answers (hc : Chained h subhistory n l) :
    ∃ N b, ∀ fuel, N ≤ fuel →
      checkSingle model (fun _ => false) fuel h subhistory = some b := by
  obtain ⟨b, hb⟩ := Problem.exists_run_eq_some (orderProblem_bounded model (withHead h) l)
    (Problem.fitting_start (∅, model.init))
  generalize Problem.work _ _ _ = work at hb
  refine ⟨l.length + work + 1, b, fun fuel hfuel => ?_⟩
  rw [hc.checkSingle_eq_run (by omega)]
  exact hb fuel (by omega)

/-- **`checkSingle` terminates safely**, on every well-formed history, for every model, whatever
its `step` and its `equal` answer, and whatever is read of the kill flag: from some number of
iterations on it returns one and the same result. In particular no iteration follows a nil pointer,
leaves the bitset or pops an empty stack, since then there would be no result. -/
theorem checkSingle_terminates_safely (model : Model S V)
    (hw : WellFormed h subhistory n l call ret) (kill : Nat → Bool) :
    ∃ N result, ∀ fuel, N ≤ fuel → checkSingle model kill fuel h subhistory = some result := by
  have hc := hw.chained
  obtain ⟨N, b, hb⟩ := hc.checkSingle_answers model
  have hlong : l.length ≤ l.length + N := Nat.le_add_right _ _
  have hanswer := hb (l.length + N) (Nat.le_add_left _ _)
  rw [hc.checkSingle_eq_loop hlong] at hanswer
  obtain ⟨result, hresult⟩ := exists_loop_killed kill (i := 0) hanswer
  refine ⟨l.length + N, result, fun fuel hfuel => ?_⟩
  rw [hc.checkSingle_eq_loop (Nat.le_trans hlong hfuel)]
  exact loop_of_le hfuel hresult

/-- A model that accepts everything and whose states are never told apart. -/
def careless : Model Nat Nat := ⟨0, fun s input _ => (true, s + input), fun _ _ => true⟩

theorem checkSingle_terminates_safely_overlapping :
    ∃ N result, ∀ fuel, N ≤ fuel →
      checkSingle careless (fun i => decide (5 < i)) fuel overlapping (some 0) = some result :=
  checkSingle_terminates_safely careless overlapping_wellFormed _

end Start

end RaftLab.Linearizability
