import RaftLab.Lib.Ending
import RaftLab.Linearizability.Events

set_option autoImplicit false

/-! # Collecting the verdicts

`CheckOperations` and `CheckEvents` split a history, start a goroutine that runs `checkSingle` on
each part, and then receive the results one after the other. The first `false` sets the kill flag,
which the other goroutines read in every iteration, and ends the loop; otherwise the loop ends when
as many results have come as there are parts, or when the timer fires. `Collecting` is the state of
all of them, and its step takes one goroutine, the loop or the timer one step further.

Until the loop ends the kill flag is not set, so every goroutine is on the way to the verdict that
it has uninterrupted (`Open`). The test of the loop stands behind the receive: with no part at all
there is nothing to receive, and the loop does not end (`conjoins_iff`).
-/

namespace RaftLab.Linearizability

open Machine

variable {S V I O : Type}

/-! ## Models with partitions -/

/-- A model as it is passed to the checker; a function that is nil is `none`. -/
structure GivenModel (S I O : Type) where
  partition : Option (List (Operation I O) → List (List (Operation I O)))
  partitionEvent : Option (List (Event (I ⊕ O)) → List (List (Event (I ⊕ O))))
  init : S
  step : S → I ⊕ O → I ⊕ O → Bool × S
  equal : Option (S → S → Bool)

/-- A model with all its functions. -/
structure PartitionedModel (S I O : Type) extends Model S (I ⊕ O) where
  partition : List (Operation I O) → List (List (Operation I O))
  partitionEvent : List (Event (I ⊕ O)) → List (List (Event (I ⊕ O)))

def noPartition (history : List (Operation I O)) : List (List (Operation I O)) := [history]

def noPartitionEvent (history : List (Event V)) : List (List (Event V)) := [history]

def shallowEqual [DecidableEq S] (state1 state2 : S) : Bool := state1 == state2

def fillDefault [DecidableEq S] (model : GivenModel S I O) : PartitionedModel S I O where
  partition := model.partition.getD noPartition
  partitionEvent := model.partitionEvent.getD noPartitionEvent
  init := model.init
  step := model.step
  equal := model.equal.getD shallowEqual

/-- The linked histories of the parts, in `CheckOperationsTimeout`. -/
def operationParts [Inhabited (I ⊕ O)] (model : PartitionedModel S I O)
    (sort : List (Entry (I ⊕ O)) → List (Entry (I ⊕ O))) (history : List (Operation I O)) :
    List (Heap (I ⊕ O) × Option Nat) :=
  (model.partition history).map fun subhistory => makeLinkedEntries (makeEntries sort subhistory)

/-- The linked histories of the parts, in `CheckEventsTimeout`. -/
def eventParts [Inhabited (I ⊕ O)] (model : PartitionedModel S I O)
    (history : List (Event (I ⊕ O))) : List (Heap (I ⊕ O) × Option Nat) :=
  (model.partitionEvent history).map fun subhistory =>
    makeLinkedEntries (convertEntries (renumber subhistory))

/-! ## The goroutines -/

/-- Where a call of `checkSingle` is: in the loop of `length`, at node `n` with `l` nodes counted,
or in its own loop. -/
inductive Walk (S V : Type) where
  | counting (h : Heap V) (subhistory n : Option Nat) (l : Nat)
  | searching (headEntry : Nat) (s : Search S V)

/-- One iteration, in which the kill flag is read if it is one of the search. -/
def Walk.turn [Inhabited V] (model : Model S V) (killed : Bool) :
    Walk S V → Option (Walk S V ⊕ Bool)
  | .counting h subhistory (some n) l =>
      some (.inl (.counting h subhistory (h.links.next n) (l + 1)))
  | .counting h subhistory none l =>
      some (.inl (.searching h.size (initial model h subhistory (l / 2))))
  | .searching headEntry s =>
      (iteration model headEntry killed s).map (Sum.map (.searching headEntry) id)

/-- A goroutine: it runs `checkSingle`, waits to send its result, and is done. -/
inductive Worker (S V : Type) where
  | running (w : Walk S V)
  | sending (result : Bool)
  | sent

def Worker.isSent : Worker S V → Bool
  | .sent => true
  | _ => false

/-- The result that waits to be sent. -/
def Worker.result? : Worker S V → Option Bool
  | .sending result => some result
  | _ => none

/-- The goroutines of `n` parts, the kill flag, the variables of the loop, and the value that has
been returned. -/
structure Collecting (n : Nat) (S V : Type) where
  workers : Fin n → Worker S V
  kill : Bool
  ok : Bool
  count : Nat
  returned : Option Bool

inductive CollectEvent (n : Nat) where
  | turn (i : Fin n)
  | receive (i : Fin n)
  | timeout
  deriving DecidableEq

namespace Collecting

variable {n : Nat}

def setWorker (s : Collecting n S V) (i : Fin n) (w : Worker S V) : Collecting n S V :=
  { s with workers := Function.update s.workers i w }

/-- The loop has received `result` from goroutine `i`. -/
def take (s : Collecting n S V) (i : Fin n) (result : Bool) : Collecting n S V :=
  let s := { s.setWorker i .sent with ok := s.ok && result }
  if !s.ok then { s with kill := true, returned := some s.ok }
  else
    let s := { s with count := s.count + 1 }
    if n ≤ s.count then { s with returned := some s.ok } else s

/-- One step. There is a timer if the timeout is positive. A goroutine whose turn panics takes
none. -/
def step [Inhabited V] (model : Model S V) (timeout : Int) (s : Collecting n S V) :
    CollectEvent n → Option (Collecting n S V)
  | .turn i =>
      match s.workers i with
      | .running w =>
          match w.turn model s.kill with
          | some (.inl w) => some (s.setWorker i (.running w))
          | some (.inr result) => some (s.setWorker i (.sending result))
          | none => none
      | _ => none
  | .receive i =>
      match s.returned, s.workers i with
      | none, .sending result => some (s.take i result)
      | _, _ => none
  | .timeout =>
      if 0 < timeout ∧ s.returned = none then some { s with returned := some s.ok } else none

/-- All goroutines have been started, and the loop begins. -/
def start (parts : List (Heap V × Option Nat)) : Collecting parts.length S V where
  workers i := .running (.counting (parts.get i).1 (parts.get i).2 (parts.get i).2 0)
  kill := false
  ok := true
  count := 0
  returned := none

/-! ### What a step does -/

section Steps

variable {model : Model S V} {timeout : Int} {s s' : Collecting n S V} {i : Fin n}

theorem of_step_turn [Inhabited V] (hs : s.step model timeout (.turn i) = some s') :
    ∃ w, s.workers i = .running w ∧
      ((∃ w', w.turn model s.kill = some (.inl w') ∧ s' = s.setWorker i (.running w')) ∨
        ∃ result, w.turn model s.kill = some (.inr result) ∧
          s' = s.setWorker i (.sending result)) := by
  rw [step] at hs
  split at hs
  · rename_i w hw
    refine ⟨w, hw, ?_⟩
    split at hs
    · rename_i w' hturn
      exact .inl ⟨w', hturn, (Option.some.inj hs).symm⟩
    · rename_i result hturn
      exact .inr ⟨result, hturn, (Option.some.inj hs).symm⟩
    · cases hs
  · cases hs

theorem of_step_receive [Inhabited V] (hs : s.step model timeout (.receive i) = some s') :
    ∃ result, s.returned = none ∧ s.workers i = .sending result ∧ s' = s.take i result := by
  rw [step] at hs
  split at hs
  · rename_i result hreturned hsending
    exact ⟨result, hreturned, hsending, (Option.some.inj hs).symm⟩
  · cases hs

theorem of_step_timeout [Inhabited V] (hs : s.step model timeout .timeout = some s') :
    0 < timeout ∧ s.returned = none ∧ s' = { s with returned := some s.ok } := by
  rw [step] at hs
  split at hs
  · rename_i htimer
    exact ⟨htimer.1, htimer.2, (Option.some.inj hs).symm⟩
  · cases hs

theorem take_false : (s.take i false).returned = some false := by
  simp [take]

theorem take_true (hok : s.ok = true) :
    s.take i true =
      { s.setWorker i .sent with
        count := s.count + 1
        returned := if n ≤ s.count + 1 then some true else s.returned } := by
  rw [take, hok]
  by_cases hlast : n ≤ s.count + 1
  · simp [setWorker, hok, hlast]
  · simp [setWorker, hok, hlast]

/-- Once it has returned, the loop does nothing more. -/
theorem returned_step [Inhabited V] {b : Bool} (hb : s.returned = some b) {e : CollectEvent n}
    (hs : s.step model timeout e = some s') : s'.returned = some b := by
  cases e with
  | turn i =>
      obtain ⟨w, -, ⟨w', -, rfl⟩ | ⟨result, -, rfl⟩⟩ := of_step_turn hs
      · exact hb
      · exact hb
  | receive i =>
      obtain ⟨result, hnone, -⟩ := of_step_receive hs
      rw [hb] at hnone
      cases hnone
  | timeout =>
      obtain ⟨-, hnone, -⟩ := of_step_timeout hs
      rw [hb] at hnone
      cases hnone

end Steps

end Collecting

/-! ## A goroutine on its own -/

section Solo

variable [Inhabited V] {model : Model S V}

/-- The result of a goroutine that is not interrupted, if it has one within `fuel` turns. -/
def solo (model : Model S V) : Nat → Walk S V → Option Bool
  | 0, _ => none
  | fuel + 1, w =>
      match w.turn model false with
      | some (.inl w) => solo model fuel w
      | some (.inr result) => some result
      | none => none

theorem solo_searching (headEntry fuel i : Nat) (s : Search S V) :
    solo model fuel (.searching headEntry s)
      = loop model headEntry (fun _ => false) fuel i s := by
  induction fuel generalizing i s with
  | zero => rfl
  | succ fuel ih =>
      rw [solo, loop, Walk.turn]
      cases iteration model headEntry false s with
      | none => rfl
      | some r =>
          cases r with
          | inl s => exact ih (i + 1) s
          | inr result => rfl

variable (model) in
/-- The turns in which the length is counted. -/
theorem exists_solo_counting {h : Heap V} (subhistory : Option Nat) (fuel' : Nat) {fuel : Nat} :
    ∀ {n : Option Nat} {l m : Nat}, h.lengthFrom fuel n l = some m →
      ∃ k, solo model k (.counting h subhistory n l)
        = solo model fuel' (.searching h.size (initial model h subhistory (m / 2))) := by
  induction fuel with
  | zero =>
      intro n l m hlen
      cases n with
      | none =>
          cases hlen
          exact ⟨fuel' + 1, rfl⟩
      | some a => cases hlen
  | succ fuel ih =>
      intro n l m hlen
      cases n with
      | none =>
          cases hlen
          exact ⟨fuel' + 1, rfl⟩
      | some a =>
          obtain ⟨k, hk⟩ := ih hlen
          exact ⟨k + 1, hk⟩

/-- A goroutine comes to the verdict of `checkSingle`. -/
theorem Answers.exists_solo {linked : Heap V × Option Nat} {b : Bool}
    (h : Answers model linked b) :
    ∃ fuel, solo model fuel (.counting linked.1 linked.2 linked.2 0) = some b := by
  obtain ⟨N, hN⟩ := h
  have hcheck := hN N (Nat.le_refl N)
  cases hlen : linked.1.length N linked.2 with
  | none =>
      rw [checkSingle, hlen] at hcheck
      cases hcheck
  | some m =>
      rw [checkSingle_eq_loop hlen, ← solo_searching] at hcheck
      obtain ⟨k, hk⟩ := exists_solo_counting model linked.2 N hlen
      exact ⟨k, hk.trans hcheck⟩

end Solo

/-! ## Before the loop ends -/

/-- The goroutine is on the way to the result `v`, or its `true` has been received. It takes at most
`k` more steps. -/
def Worker.OnWay [Inhabited V] (model : Model S V) : Worker S V → Bool → Nat → Prop
  | .running w, v, k => ∃ fuel, solo model fuel w = some v ∧ k = fuel + 1
  | .sending result, v, k => result = v ∧ k = 1
  | .sent, v, k => v = true ∧ k = 0

/-- **The loop has not ended.** The kill flag is not set, so the goroutines are on the way to their
uninterrupted results `v`, with `k` steps left in all; and not all of them have been received. -/
structure Open [Inhabited V] {n : Nat} (model : Model S V) (v : Fin n → Bool)
    (s : Collecting n S V) (k : Nat) : Prop where
  returned : s.returned = none
  kill : s.kill = false
  ok : s.ok = true
  count_lt : s.count < n
  count_eq : s.count = (Finset.univ.filter fun i => (s.workers i).isSent = true).card
  onWay : ∃ cost : Fin n → Nat,
    (∀ i, (s.workers i).OnWay model (v i) (cost i)) ∧ ∑ i, cost i = k

section Open

variable [Inhabited V] {n : Nat} {model : Model S V} {v : Fin n → Bool} {s s' : Collecting n S V}
  {k : Nat} {i : Fin n}

/-- A goroutine that goes on lowers the number of steps left. -/
theorem exists_cost_update {cost : Fin n → Nat} {w : Worker S V} {c : Nat}
    (hcost : ∀ i, (s.workers i).OnWay model (v i) (cost i)) (hw : w.OnWay model (v i) c)
    (hlt : c < cost i) :
    ∃ cost' : Fin n → Nat, (∀ j, ((s.setWorker i w).workers j).OnWay model (v j) (cost' j)) ∧
      ∑ j, cost' j < ∑ j, cost j := by
  refine ⟨Function.update cost i c, fun j => ?_, ?_⟩
  · show (Function.update s.workers i w j).OnWay model (v j) (Function.update cost i c j)
    by_cases hj : j = i
    · subst hj
      rw [Function.update_self, Function.update_self]
      exact hw
    · rw [Function.update_of_ne hj, Function.update_of_ne hj]
      exact hcost j
  · refine Finset.sum_lt_sum (fun j _ => ?_) ⟨i, Finset.mem_univ i, ?_⟩
    · by_cases hj : j = i
      · subst hj
        rw [Function.update_self]
        exact hlt.le
      · rw [Function.update_of_ne hj]
    · rw [Function.update_self]
      exact hlt

/-- A goroutine that has not sent takes a turn. -/
theorem Open.setWorker (h : Open model v s k) {w : Worker S V}
    (hsent : (s.workers i).isSent = false) (hw : w.isSent = false)
    (hnext : ∀ c, (s.workers i).OnWay model (v i) c → ∃ c' < c, w.OnWay model (v i) c') :
    ∃ k' < k, Open model v (s.setWorker i w) k' := by
  obtain ⟨cost, hcost, rfl⟩ := h.onWay
  obtain ⟨c, hlt, hc⟩ := hnext _ (hcost i)
  obtain ⟨cost', hcost', hsum⟩ := exists_cost_update hcost hc hlt
  refine ⟨_, hsum, h.returned, h.kill, h.ok, h.count_lt, ?_, cost', hcost', rfl⟩
  rw [show (s.setWorker i w).count = s.count from rfl, h.count_eq]
  congr 1
  refine Finset.filter_congr fun j _ => ?_
  show _ ↔ (Function.update s.workers i w j).isSent = true
  by_cases hj : j = i
  · subst hj
    rw [Function.update_self, hsent, hw]
  · rw [Function.update_of_ne hj]

theorem Open.turn (h : Open model v s k) {timeout : Int}
    (hs : s.step model timeout (.turn i) = some s') : ∃ k' < k, Open model v s' k' := by
  obtain ⟨w, hw, hturn⟩ := Collecting.of_step_turn hs
  rw [h.kill] at hturn
  have hsent : (s.workers i).isSent = false := by rw [hw]; rfl
  -- the turn is the one that is taken without interruption
  have hsolo : ∀ c, (s.workers i).OnWay model (v i) c → ∃ fuel, c = fuel + 2 ∧
      solo model (fuel + 1) w = some (v i) := by
    intro c hc
    rw [hw] at hc
    obtain ⟨fuel, hfuel, rfl⟩ := hc
    cases fuel with
    | zero => cases hfuel
    | succ fuel => exact ⟨fuel, rfl, hfuel⟩
  rcases hturn with ⟨w', hturn, rfl⟩ | ⟨result, hturn, rfl⟩
  · refine h.setWorker hsent rfl fun c hc => ?_
    obtain ⟨fuel, rfl, hfuel⟩ := hsolo c hc
    rw [solo, hturn] at hfuel
    exact ⟨fuel + 1, by omega, fuel, hfuel, rfl⟩
  · refine h.setWorker hsent rfl fun c hc => ?_
    obtain ⟨fuel, rfl, hfuel⟩ := hsolo c hc
    rw [solo, hturn] at hfuel
    exact ⟨1, by omega, Option.some.inj hfuel, rfl⟩

omit [Inhabited V] in
/-- One more goroutine has sent its result. -/
theorem card_sent_setWorker (hi : (s.workers i).isSent = false) :
    (Finset.univ.filter fun j => ((s.setWorker i .sent).workers j).isSent = true).card
      = (Finset.univ.filter fun j => (s.workers j).isSent = true).card + 1 := by
  have hnot : i ∉ Finset.univ.filter fun j => (s.workers j).isSent = true := by
    rw [Finset.mem_filter, hi]
    exact fun h => nomatch h.2
  rw [← Finset.card_insert_of_notMem hnot]
  congr 1
  ext j
  rw [Finset.mem_filter, Finset.mem_insert, Finset.mem_filter]
  show _ ∧ (Function.update s.workers i .sent j).isSent = true ↔ _
  by_cases hj : j = i
  · subst hj
    simp [Worker.isSent]
  · rw [Function.update_of_ne hj]
    simp [hj]

theorem Worker.OnWay.of_sent {w : Worker S V} {b : Bool} {c : Nat} (h : w.OnWay model b c)
    (hsent : w.isSent = true) : b = true := by
  cases w with
  | running w => cases hsent
  | sending result => cases hsent
  | sent => exact h.1

/-- A result `false` ends the loop; a result `true` is counted, and the last one ends it. -/
theorem Open.receive (h : Open model v s k) {timeout : Int}
    (hs : s.step model timeout (.receive i) = some s') :
    (∃ k' < k, Open model v s' k') ∨ (v i = false ∧ s'.returned = some false) ∨
      ((∀ j, v j = true) ∧ s'.returned = some true) := by
  obtain ⟨result, -, hi, rfl⟩ := Collecting.of_step_receive hs
  obtain ⟨cost, hcost, rfl⟩ := h.onWay
  obtain ⟨rfl, hci⟩ : result = v i ∧ cost i = 1 := by
    have hway := hcost i
    rwa [hi] at hway
  cases hv : v i with
  | false => exact .inr (.inl ⟨rfl, Collecting.take_false⟩)
  | true =>
      have hcount := card_sent_setWorker (s := s) (i := i) (by rw [hi]; rfl)
      rw [← h.count_eq] at hcount
      have hsent : (Worker.sent : Worker S V).OnWay model (v i) 0 := ⟨hv, rfl⟩
      obtain ⟨cost', hcost', hsum⟩ := exists_cost_update hcost hsent (by omega)
      have hlt := h.count_lt
      rw [Collecting.take_true h.ok]
      by_cases hlast : n ≤ s.count + 1
      · -- all results have been received, and all are `true`
        have hall : (Finset.univ.filter fun j =>
            ((s.setWorker i .sent).workers j).isSent = true) = Finset.univ := by
          refine Finset.eq_univ_of_card _ ?_
          rw [hcount, Fintype.card_fin]
          omega
        refine .inr (.inr ⟨fun j => ?_, if_pos hlast⟩)
        have hj := Finset.mem_univ j
        rw [← hall, Finset.mem_filter] at hj
        exact (hcost' j).of_sent hj.2
      · refine .inl ⟨_, hsum, ?_, h.kill, h.ok, Nat.lt_of_not_le hlast, hcount.symm, cost', hcost',
          rfl⟩
        exact (if_neg hlast).trans h.returned

/-- As long as the loop has not ended, some goroutine can go on or has a result to be received. -/
theorem Open.enabled (h : Open model v s k) (timeout : Int) :
    ∃ e, (s.step model timeout e).isSome = true := by
  obtain ⟨cost, hcost, -⟩ := h.onWay
  -- fewer results than workers have come in
  obtain ⟨i, hi⟩ : ∃ i, (s.workers i).isSent ≠ true := by
    by_contra hall
    push Not at hall
    have hcount := h.count_eq
    rw [Finset.filter_true_of_mem fun i _ => hall i, Finset.card_univ, Fintype.card_fin] at hcount
    have := h.count_lt
    omega
  have hway := hcost i
  cases hw : s.workers i with
  | sent =>
      rw [hw] at hi
      exact absurd rfl hi
  | sending result =>
      refine ⟨.receive i, ?_⟩
      simp only [Collecting.step, h.returned, hw]
      rfl
  | running w =>
      refine ⟨.turn i, ?_⟩
      rw [hw] at hway
      obtain ⟨fuel, hfuel, -⟩ := hway
      simp only [Collecting.step, hw, h.kill]
      cases fuel with
      | zero => cases hfuel
      | succ fuel =>
          rw [solo] at hfuel
          cases hturn : w.turn model false with
          | none => rw [hturn] at hfuel; cases hfuel
          | some r => cases r <;> rfl

end Open

/-- At the start every goroutine is on the way to its verdict. -/
theorem exists_open_start [Inhabited V] {model : Model S V} {parts : List (Heap V × Option Nat)}
    (hne : parts ≠ []) {v : Fin parts.length → Bool}
    (hv : ∀ i, Answers model (parts.get i) (v i)) :
    ∃ k, Open model v (Collecting.start parts) k := by
  choose fuel hfuel using fun i => (hv i).exists_solo
  refine ⟨∑ i, (fuel i + 1), rfl, rfl, rfl, List.length_pos_iff.mpr hne, ?_, fun i => fuel i + 1,
    fun i => ⟨fuel i, hfuel i, rfl⟩, rfl⟩
  exact (Finset.card_eq_zero.mpr (Finset.filter_false_of_mem fun i _ h => nomatch h)).symm

/-! ## The result -/

section Result

variable [Inhabited V] {model : Model S V} {parts : List (Heap V × Option Nat)}

/-- **The loop returns the conjunction.** Without a timeout it ends, whatever the order in which the
goroutines go on and their results are received, and its value is the conjunction of what
`checkSingle` returns on the parts when it is not interrupted. -/
def Conjoins (model : Model S V) (parts : List (Heap V × Option Nat)) : Prop :=
  (∀ linked ∈ parts, ∃ b, Answers model linked b) ∧
    ∃ b, EndsWith (Collecting.step model 0) Collecting.returned (Collecting.start parts) b ∧
      (b = true ↔ ∀ linked ∈ parts, Answers model linked true)

theorem forall_answers_iff {v : Fin parts.length → Bool}
    (hv : ∀ i, Answers model (parts.get i) (v i)) :
    (∀ i, v i = true) ↔ ∀ linked ∈ parts, Answers model linked true := by
  constructor
  · intro h linked hmem
    obtain ⟨i, rfl⟩ := List.mem_iff_get.mp hmem
    exact h i ▸ hv i
  · intro h i
    exact (hv i).unique (h _ (List.get_mem _ _))

theorem endsWith_all (hne : parts ≠ []) {v : Fin parts.length → Bool}
    (hv : ∀ i, Answers model (parts.get i) (v i)) :
    EndsWith (Collecting.step model 0) Collecting.returned (Collecting.start parts)
      (decide (∀ i, v i = true)) := by
  obtain ⟨k, hopen⟩ := exists_open_start hne hv
  refine endsWith_of_rank (J := Open model v) hopen (fun s k h => h.returned)
    (fun s k h => h.enabled 0) (fun s k e s' h hs => ?_)
    (fun s e s' hd hs => Collecting.returned_step hd hs)
  cases e with
  | turn i => exact .inl (h.turn hs)
  | receive i =>
      rcases h.receive hs with hk | ⟨hfalse, hret⟩ | ⟨hall, hret⟩
      · exact .inl hk
      · right
        have hnot : ¬ ∀ j, v j = true := fun hall => by
          rw [hall i] at hfalse
          cases hfalse
        rw [hret, decide_eq_false hnot]
      · right
        rw [hret, decide_eq_true hall]
  | timeout => exact absurd (Collecting.of_step_timeout hs).1 (lt_irrefl 0)

/-- With no part nothing can happen. -/
theorem start_stuck (parts : List (Heap V × Option Nat)) (hnil : parts = [])
    (e : CollectEvent parts.length) :
    Collecting.step model 0 (Collecting.start (S := S) parts) e = none := by
  subst hnil
  cases e with
  | turn i => exact i.elim0
  | receive i => exact i.elim0
  | timeout => rfl

theorem conjoins_iff :
    Conjoins model parts ↔ parts ≠ [] ∧ ∀ linked ∈ parts, ∃ b, Answers model linked b := by
  constructor
  · rintro ⟨hanswers, b, hends, -⟩
    refine ⟨fun hnil => ?_, hanswers⟩
    obtain ⟨e, he⟩ := hends.enabled [] _ rfl rfl
    rw [start_stuck parts hnil] at he
    cases he
  · rintro ⟨hne, hanswers⟩
    choose v hv using fun i => hanswers (parts.get i) (List.get_mem _ _)
    refine ⟨hanswers, _, endsWith_all hne hv, ?_⟩
    rw [decide_eq_true_iff, forall_answers_iff hv]

/-- **Any run**, with a timer or without: a `false` that is returned is the verdict on some part,
and a `true` is the verdict on all of them, unless the timer has fired. -/
theorem returned_cases {v : Fin parts.length → Bool}
    (hv : ∀ i, Answers model (parts.get i) (v i)) {timeout : Int}
    {es : List (CollectEvent parts.length)} {s : Collecting parts.length S V}
    (hrun : run (Collecting.step model timeout) (Collecting.start parts) es = some s) :
    s.returned = none ∨ (s.returned = some false ∧ ∃ i, v i = false) ∨
      (s.returned = some true ∧ (.timeout ∈ es ∨ ∀ i, v i = true)) := by
  -- until something is returned a worker is on its way, unless there are no parts
  have hcases : (s.returned = none ∧ s.ok = true ∧ (parts = [] ∨ ∃ k, Open model v s k)) ∨
      (s.returned = some false ∧ ∃ i, v i = false) ∨
      (s.returned = some true ∧ (.timeout ∈ es ∨ ∀ i, v i = true)) := by
    refine run_history_induction (J := fun es s =>
      (s.returned = none ∧ s.ok = true ∧ (parts = [] ∨ ∃ k, Open model v s k)) ∨
      (s.returned = some false ∧ ∃ i, v i = false) ∨
      (s.returned = some true ∧ (.timeout ∈ es ∨ ∀ i, v i = true))) ?_ ?_ hrun
    · refine .inl ⟨rfl, rfl, ?_⟩
      by_cases hnil : parts = []
      · exact .inl hnil
      · exact .inr (exists_open_start hnil hv)
    · rintro es t e t' - (⟨hnone, hok, hopen⟩ | ⟨hfalse, hi⟩ | ⟨htrue, hwhy⟩) hstep
      · cases e with
        | timeout =>
            obtain ⟨-, -, rfl⟩ := Collecting.of_step_timeout hstep
            exact .inr (.inr ⟨congrArg some hok, .inl (by simp)⟩)
        | turn i =>
            rcases hopen with hnil | ⟨k, hopen⟩
            · subst hnil
              exact i.elim0
            · obtain ⟨k', -, hopen'⟩ := hopen.turn hstep
              exact .inl ⟨hopen'.returned, hopen'.ok, .inr ⟨k', hopen'⟩⟩
        | receive i =>
            rcases hopen with hnil | ⟨k, hopen⟩
            · subst hnil
              exact i.elim0
            · rcases hopen.receive hstep with ⟨k', -, hopen'⟩ | ⟨hfalse, hret⟩ | ⟨hall, hret⟩
              · exact .inl ⟨hopen'.returned, hopen'.ok, .inr ⟨k', hopen'⟩⟩
              · exact .inr (.inl ⟨hret, i, hfalse⟩)
              · exact .inr (.inr ⟨hret, .inr hall⟩)
      · exact .inr (.inl ⟨Collecting.returned_step hfalse hstep, hi⟩)
      · refine .inr (.inr ⟨Collecting.returned_step htrue hstep, ?_⟩)
        exact hwhy.imp_left (List.mem_append_left _)
  exact hcases.imp_left And.left

end Result

/-! ## The two entry points -/

section EntryPoints

variable [DecidableEq S] [Inhabited (I ⊕ O)]

/-- **When the loop ends with the conjunction.** `CheckOperations` does so exactly when the
partition has a part, and `CheckEvents` when it has one and `checkSingle` answers on every part. It
does on every part in which each id has one call and one return. -/
theorem collecting_conjoins_iff (model : GivenModel S I O)
    {sort : List (Entry (I ⊕ O)) → List (Entry (I ⊕ O))} (hsort : ∀ l, SortedByTime l (sort l))
    (history : List (Operation I O)) (events : List (Event (I ⊕ O))) :
    (Conjoins (fillDefault model).toModel (operationParts (fillDefault model) sort history) ↔
      (fillDefault model).partition history ≠ []) ∧
    (Conjoins (fillDefault model).toModel (eventParts (fillDefault model) events) ↔
      (fillDefault model).partitionEvent events ≠ [] ∧
      ∀ subhistory ∈ (fillDefault model).partitionEvent events, ∃ b,
        Answers (fillDefault model).toModel
          (makeLinkedEntries (convertEntries (renumber subhistory))) b) ∧
    ∀ subhistory : List (Event (I ⊕ O)), EachOnce subhistory → ∃ b,
      Answers (fillDefault model).toModel
        (makeLinkedEntries (convertEntries (renumber subhistory))) b := by
  refine ⟨?_, ?_, fun subhistory h => ?_⟩
  · rw [conjoins_iff, operationParts, ne_eq, List.map_eq_nil_iff]
    refine and_iff_left fun linked hlinked => ?_
    obtain ⟨subhistory, -, rfl⟩ := List.mem_map.mp hlinked
    exact (lists_of_perm (hsort _).perm).toComplete.answers _
  · rw [conjoins_iff, eventParts, ne_eq, List.map_eq_nil_iff, List.forall_mem_map]
  · obtain ⟨n, hn⟩ := h.complete
    exact hn.answers _

end EntryPoints

/-! ## The key-value model -/

/-- `KvModel()`. The partition ranges over a map, so `shuffle` is the order in which its groups
come. -/
def kvGivenModel (shuffle : List (List KvOperation) → List (List KvOperation)) :
    GivenModel String KvInput KvOutput where
  partition := some fun history => shuffle (partition history)
  partitionEvent := none
  init := kvModel.init
  step := kvModel.step
  equal := some shallowEqual

theorem collecting_conjoins_iff_twoKeys :
    Conjoins kvModel (operationParts (fillDefault (kvGivenModel id)) returnsFirst twoKeys) :=
  (collecting_conjoins_iff (kvGivenModel id) sortedByTime_returnsFirst twoKeys []).1.mpr
    (by decide)

/-- After the events the loop has not returned, and neither it nor a goroutine can take a step. -/
def StuckAfter {n : Nat} (start : Collecting n String (KvInput ⊕ KvOutput))
    (es : List (CollectEvent n)) : Prop :=
  (run (Collecting.step kvModel 0) start es).map Collecting.returned = some none ∧
    ∀ e, run (Collecting.step kvModel 0) start (es ++ [e]) = none

/-- Two calls and one return under one id. -/
def doubledCall : List (Event (KvInput ⊕ KvOutput)) :=
  [⟨.call, .inl ⟨2, "x", "a"⟩, 7⟩, ⟨.call, .inl ⟨2, "x", "a"⟩, 7⟩, ⟨.ret, .inr ⟨""⟩, 7⟩]

/-- **The loop need not end.** The partition of the empty history by key has no part, so
`CheckOperations` waits for a result that nobody sends. In `CheckEvents` the second of two calls
with one return is lifted when nothing stands behind it any more, and the goroutine panics. -/
theorem empty_history_and_doubled_call :
    StuckAfter (Collecting.start (operationParts (fillDefault (kvGivenModel id)) returnsFirst []))
      [] ∧
    StuckAfter (Collecting.start (eventParts (fillDefault (kvGivenModel id)) doubledCall))
      (List.replicate 5 (.turn ⟨0, Nat.zero_lt_one⟩)) := by
  refine ⟨⟨rfl, fun e => ?_⟩, by decide +kernel, fun e => ?_⟩
  · have hnil : operationParts (fillDefault (kvGivenModel id)) returnsFirst [] = [] := rfl
    rw [List.nil_append, run, start_stuck _ hnil, Option.bind_none]
  · cases e with
    | turn i =>
        obtain rfl : i = ⟨0, Nat.zero_lt_one⟩ := Subsingleton.elim (α := Fin 1) _ _
        decide +kernel
    | receive i =>
        obtain rfl : i = ⟨0, Nat.zero_lt_one⟩ := Subsingleton.elim (α := Fin 1) _ _
        decide +kernel
    | timeout => decide +kernel

end RaftLab.Linearizability
