import RaftLab.Linearizability.Bitset
import RaftLab.Linearizability.Nodes

set_option autoImplicit false

/-! # The checker

`checkSingle` looks for an order of the operations of a history in which the model accepts every
output. It walks along the linked history. A call whose operation the model accepts next is
lifted out, and the walk starts over; when it meets a return, an operation that is not
linearized yet has ended, and the last lifted one is put back. Reached pairs of a set of linearized
operations and a state are kept in a cache, and a call that leads to such a pair is passed over.

The kill flag is read once in every iteration; `kill i` is what iteration `i` reads.
-/

namespace RaftLab.Linearizability

variable {S V : Type}

/-- What the checker uses of a model: `init` is the result of `Init`, and `step` gives whether the
output is accepted and the new state. -/
structure Model (S V : Type) where
  init : S
  step : S → V → V → Bool × S
  equal : S → S → Bool

structure CacheEntry (S : Type) where
  linearized : Bitset
  state : S

/-- The map from hashes to slices of cache entries. -/
abbrev Cache (S : Type) := BitVec 64 → List (CacheEntry S)

def cacheContains (model : Model S V) (cache : Cache S) (entry : CacheEntry S) : Bool :=
  (cache entry.linearized.hash).any fun elem =>
    entry.linearized.equals elem.linearized && model.equal entry.state elem.state

structure CallsEntry (S : Type) where
  entry : Nat
  state : S

/-- The variables of the loop. The slice `calls` is a stack, here with its top first. -/
structure Search (S V : Type) where
  heap : Heap V
  linearized : Bitset
  cache : Cache S
  calls : List (CallsEntry S)
  state : S
  entry : Option Nat

/-- The test of the loop and one run of its body: the new variables, or the result. -/
def iteration (model : Model S V) (headEntry : Nat) (killed : Bool) (s : Search S V) :
    Option (Search S V ⊕ Bool) :=
  if s.heap.links.next headEntry = none then some (.inr true)
  else if killed then some (.inr false)
  else do
    let entry ← s.entry
    match (s.heap.node entry).matching with
    | some matching =>
        let (ok, newState) :=
          model.step s.state (s.heap.node entry).value (s.heap.node matching).value
        if ok then
          let newLinearized ← s.linearized.set (s.heap.node entry).id
          let newCacheEntry : CacheEntry S := ⟨newLinearized, newState⟩
          -- not yet tried: linearize the call here and start again from the head
          if !cacheContains model s.cache newCacheEntry then
            let hash := newLinearized.hash
            let linearized ← s.linearized.set (s.heap.node entry).id
            let heap ← s.heap.lift entry
            return .inl
              { heap := heap
                linearized := linearized
                cache := Function.update s.cache hash (s.cache hash ++ [newCacheEntry])
                calls := ⟨entry, s.state⟩ :: s.calls
                state := newState
                entry := heap.links.next headEntry }
          else return .inl { s with entry := s.heap.links.next entry }
        else return .inl { s with entry := s.heap.links.next entry }
    | none =>
        -- a return comes first: take the last call back and go on behind it
        match s.calls with
        | [] => return .inr false
        | callsTop :: calls =>
            let entry := callsTop.entry
            let linearized ← s.linearized.clear (s.heap.node entry).id
            let heap ← s.heap.unlift entry
            return .inl
              { s with
                heap := heap
                linearized := linearized
                calls := calls
                state := callsTop.state
                entry := heap.links.next entry }

/-- The loop, from iteration `i` on. -/
def loop (model : Model S V) (headEntry : Nat) (kill : Nat → Bool) :
    Nat → Nat → Search S V → Option Bool
  | 0, _, _ => none
  | fuel + 1, i, s =>
      match iteration model headEntry (kill i) s with
      | some (.inl s') => loop model headEntry kill fuel (i + 1) s'
      | some (.inr result) => some result
      | none => none

/-- The result, when the loops end within `fuel` iterations without a panic. -/
def checkSingle [Inhabited V] (model : Model S V) (kill : Nat → Bool) (fuel : Nat) (h : Heap V)
    (subhistory : Option Nat) : Option Bool := do
  let n := (← h.length fuel subhistory) / 2
  -- the head has a nil value and the largest `uint` as its id
  let (h, headEntry) := h.new ⟨default, none, 2 ^ 64 - 1⟩
  let h := h.insertBefore headEntry subhistory
  loop model headEntry kill fuel 0
    { heap := h
      linearized := Bitset.newBitset n
      cache := fun _ => []
      calls := []
      state := model.init
      entry := subhistory }

/-! ## What an iteration does -/

section Iteration

variable {model : Model S V} {headEntry a r : Nat} {s : Search S V} {b : Bitset}
  {heap : Heap V} {c : CallsEntry S} {calls : List (CallsEntry S)}

/-- At a return with no call to take back, the search has failed. -/
theorem iteration_fail (hne : s.heap.links.next headEntry ≠ none) (hentry : s.entry = some a)
    (hr : (s.heap.node a).matching = none) (hcalls : s.calls = []) :
    iteration model headEntry false s = some (.inr false) := by
  simp [iteration, hne, hentry, hr, hcalls]

/-- At a return, the last call is taken back. -/
theorem iteration_backtrack (hne : s.heap.links.next headEntry ≠ none)
    (hentry : s.entry = some a) (hr : (s.heap.node a).matching = none)
    (hcalls : s.calls = c :: calls) (hclear : s.linearized.clear (s.heap.node c.entry).id = some b)
    (hunlift : s.heap.unlift c.entry = some heap) :
    iteration model headEntry false s = some (.inl
      { heap := heap, linearized := b, cache := s.cache, calls := calls, state := c.state,
        entry := heap.links.next c.entry }) := by
  simp [iteration, hne, hentry, hr, hcalls, hclear, hunlift]

/-- A call is passed over when the model rejects it or it leads to a cached pair. -/
theorem iteration_skip (hne : s.heap.links.next headEntry ≠ none)
    (hentry : s.entry = some a) (hr : (s.heap.node a).matching = some r)
    (hskip : ∀ st, model.step s.state (s.heap.node a).value (s.heap.node r).value = (true, st) →
      ∃ b, s.linearized.set (s.heap.node a).id = some b ∧
        cacheContains model s.cache ⟨b, st⟩ = true) :
    iteration model headEntry false s
      = some (.inl { s with entry := s.heap.links.next a }) := by
  cases hstep : model.step s.state (s.heap.node a).value (s.heap.node r).value with
  | mk ok st =>
      cases ok with
      | false => simp [iteration, hne, hentry, hr, hstep]
      | true =>
          obtain ⟨b, hset, hcache⟩ := hskip st hstep
          simp [iteration, hne, hentry, hr, hstep, hset, hcache]

/-- A call that leads to a new pair is lifted. -/
theorem iteration_lift {st : S} (hne : s.heap.links.next headEntry ≠ none)
    (hentry : s.entry = some a) (hr : (s.heap.node a).matching = some r)
    (hstep : model.step s.state (s.heap.node a).value (s.heap.node r).value = (true, st))
    (hset : s.linearized.set (s.heap.node a).id = some b)
    (hcache : cacheContains model s.cache ⟨b, st⟩ = false) (hlift : s.heap.lift a = some heap) :
    iteration model headEntry false s = some (.inl
      { heap := heap
        linearized := b
        cache := Function.update s.cache b.hash (s.cache b.hash ++ [⟨b, st⟩])
        calls := ⟨a, s.state⟩ :: s.calls
        state := st
        entry := heap.links.next headEntry }) := by
  simp [iteration, hne, hentry, hr, hstep, hset, hcache, hlift]

end Iteration

end RaftLab.Linearizability
