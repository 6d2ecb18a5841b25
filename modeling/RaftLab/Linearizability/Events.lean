import RaftLab.Linearizability.Times

set_option autoImplicit false

/-! # The entries of a list of events

`renumber` gives the ids of the events new numbers from 0 on, in the order in which they occur:
different ids get different numbers, and all numbers are used (`exists_renumber`). So events in
which each id has one call and one return become a complete list of entries, and when the call
comes first, the linked list that is built from them is the list of events
(`ListsEvents`). New numbers do not change the verdict (`Lists.answers_renumbered`), and therefore
neither do the ids under which the events of a history are reported (`Lists.answers_eventsOf`).
-/

namespace RaftLab.Linearizability

variable {S I O V : Type}

/-! ## `renumber` -/

/-- The loop has renumbered the events `seen`. -/
structure Renumbering.Holds (k : Renumbering V) (seen : List (Event V)) : Prop where
  known : ∀ i, (k.m i).isSome = true ↔ ∃ v ∈ seen, v.id = i
  lt : ∀ i r, k.m i = some r → r < k.id
  injective : ∀ i j r, k.m i = some r → k.m j = some r → i = j
  onto : ∀ r < k.id, ∃ i, k.m i = some r
  events_eq : k.events = seen.map fun v => ⟨v.kind, v.value, (k.m v.id).getD 0⟩

namespace Renumbering.Holds

variable {k : Renumbering V} {seen : List (Event V)} {v : Event V}

theorem next_of_some (h : k.Holds seen) {r : Nat} (hr : k.m v.id = some r) :
    (k.next v).Holds (seen ++ [v]) := by
  have hnext : k.next v = { k with events := k.events ++ [⟨v.kind, v.value, r⟩] } := by
    rw [next, hr]
  rw [hnext]
  refine ⟨fun i => ?_, h.lt, h.injective, h.onto, ?_⟩
  · obtain ⟨w, hw, hwid⟩ := (h.known v.id).mp (by rw [hr]; rfl)
    rw [h.known]
    constructor
    · rintro ⟨u, hu, rfl⟩
      exact ⟨u, List.mem_append_left _ hu, rfl⟩
    · rintro ⟨u, hu, rfl⟩
      rcases List.mem_append.mp hu with hu | hu
      · exact ⟨u, hu, rfl⟩
      · obtain rfl := List.mem_singleton.mp hu
        exact ⟨w, hw, hwid⟩
  · rw [List.map_append, ← h.events_eq, List.map_singleton, hr]
    rfl

theorem next_of_none (h : k.Holds seen) (hnone : k.m v.id = none) :
    (k.next v).Holds (seen ++ [v]) := by
  have hnext : k.next v =
      { events := k.events ++ [⟨v.kind, v.value, k.id⟩]
        m := Function.update k.m v.id (some k.id)
        id := k.id + 1 } := by rw [next, hnone]
  -- the numbers given before stay
  have hold : ∀ i r, k.m i = some r → Function.update k.m v.id (some k.id) i = some r := by
    intro i r hr
    have hne : i ≠ v.id := by
      rintro rfl
      rw [hnone] at hr
      cases hr
    rw [Function.update_of_ne hne, hr]
  have hcases : ∀ i r, Function.update k.m v.id (some k.id) i = some r →
      i = v.id ∧ r = k.id ∨ k.m i = some r := by
    intro i r hr
    by_cases hi : i = v.id
    · rw [hi, Function.update_self] at hr
      exact .inl ⟨hi, (Option.some.inj hr).symm⟩
    · rw [Function.update_of_ne hi] at hr
      exact .inr hr
  rw [hnext]
  constructor
  case known =>
    intro i
    by_cases hi : i = v.id
    · subst hi
      simp
    · dsimp only
      rw [Function.update_of_ne hi, h.known]
      simp [Ne.symm hi]
  case lt =>
    intro i r hr
    rcases hcases i r hr with ⟨-, rfl⟩ | hr
    · exact Nat.lt_succ_self _
    · exact Nat.lt_succ_of_lt (h.lt i r hr)
  case injective =>
    -- the new number is above all that were given before
    intro i j r hi hj
    rcases hcases i r hi with ⟨rfl, rfl⟩ | hi <;> rcases hcases j _ hj with ⟨rfl, hrj⟩ | hj
    · rfl
    · exact absurd (h.lt j _ hj) (Nat.lt_irrefl _)
    · exact absurd (h.lt i _ hi) (by rw [hrj]; exact Nat.lt_irrefl _)
    · exact h.injective i j r hi hj
  case onto =>
    intro r hr
    rcases Nat.lt_succ_iff_lt_or_eq.mp hr with hr | rfl
    · obtain ⟨i, hi⟩ := h.onto r hr
      exact ⟨i, hold i r hi⟩
    · exact ⟨v.id, Function.update_self _ _ _⟩
  case events_eq =>
    rw [List.map_append, h.events_eq, List.map_singleton]
    dsimp only
    rw [Function.update_self]
    congr 1
    refine List.map_congr_left fun u hu => ?_
    obtain ⟨r, hr⟩ := Option.isSome_iff_exists.mp ((h.known u.id).mpr ⟨u, hu, rfl⟩)
    rw [hold u.id r hr, hr]

end Renumbering.Holds

theorem Renumbering.holds_foldl (events : List (Event V)) :
    (events.foldl Renumbering.next ⟨[], fun _ => none, 0⟩).Holds events := by
  -- the loop has read a prefix of the events: induction from the back
  induction events using List.reverseRecOn with
  | nil =>
      refine ⟨fun i => by simp, ?_, ?_, ?_, rfl⟩
      · exact fun _ _ h => nomatch h
      · exact fun _ _ _ h => nomatch h
      · exact fun _ h => absurd h (Nat.not_lt_zero _)
  | append_singleton events v ih =>
      rw [List.foldl_append]
      cases hm : (events.foldl Renumbering.next ⟨[], fun _ => none, 0⟩).m v.id with
      | none => exact ih.next_of_none hm
      | some r => exact ih.next_of_some hm

/-- **What `renumber` does.** Every id gets a number of its own, and the numbers used are those
below some `n`. -/
theorem exists_renumber (events : List (Event V)) :
    ∃ (number : Nat → Nat) (n : Nat),
      renumber events = events.map (fun v => ⟨v.kind, v.value, number v.id⟩) ∧
      (∀ v ∈ events, ∀ w ∈ events, number v.id = number w.id → v.id = w.id) ∧
      (∀ r, r < n ↔ ∃ v ∈ events, number v.id = r) := by
  have h := Renumbering.holds_foldl events
  have hsome : ∀ v ∈ events, ∃ r, (events.foldl Renumbering.next ⟨[], fun _ => none, 0⟩).m v.id
      = some r := fun v hv => Option.isSome_iff_exists.mp ((h.known v.id).mpr ⟨v, hv, rfl⟩)
  rw [renumber]
  generalize events.foldl Renumbering.next ⟨[], fun _ => none, 0⟩ = k at h hsome
  refine ⟨fun i => (k.m i).getD 0, k.id, h.events_eq, fun v hv w hw hvw => ?_, fun r => ?_⟩
  · obtain ⟨r, hr⟩ := hsome v hv
    obtain ⟨r', hr'⟩ := hsome w hw
    simp only [hr, hr', Option.getD_some] at hvw
    exact h.injective v.id w.id r hr (hvw ▸ hr')
  · constructor
    · intro hr
      obtain ⟨i, hi⟩ := h.onto r hr
      obtain ⟨v, hv, rfl⟩ := (h.known i).mp (by rw [hi]; rfl)
      exact ⟨v, hv, by simp only [hi, Option.getD_some]⟩
    · rintro ⟨v, hv, rfl⟩
      obtain ⟨r, hr⟩ := hsome v hv
      simp only [hr, Option.getD_some]
      exact h.lt v.id r hr

/-! ## Complete lists of events -/

/-- Every id that occurs has one call and one return. -/
structure EachOnce (events : List (Event V)) : Prop where
  nodup : (events.map fun v => (v.kind, v.id)).Nodup
  both : ∀ v ∈ events, ∀ kind, ∃ w ∈ events, w.kind = kind ∧ w.id = v.id

theorem entryKind_injective : Function.Injective entryKind := by
  intro a b
  cases a <;> cases b <;> simp [entryKind]

theorem entryKind_surjective : Function.Surjective entryKind := by
  intro kind
  cases kind with
  | call => exact ⟨.call, rfl⟩
  | ret => exact ⟨.ret, rfl⟩

/-- The entry of an event whose id got a number. -/
def entryOf (number : Nat → Nat) (v : Event V) : Entry V :=
  ⟨entryKind v.kind, v.value, number v.id, -1⟩

section Numbered

variable {events : List (Event V)} {number : Nat → Nat} {n : Nat}

theorem convertEntries_renumber
    (heq : renumber events = events.map (fun v => ⟨v.kind, v.value, number v.id⟩)) :
    convertEntries (renumber events) = events.map (entryOf number) := by
  rw [heq, convertEntries, List.map_map]
  rfl

theorem labels_entryOf (events : List (Event V)) (number : Nat → Nat) :
    (events.map (entryOf number)).map Entry.label
      = (events.map fun v => (v.kind, v.id)).map (Prod.map entryKind number) := by
  rw [List.map_map, List.map_map]
  rfl

theorem EachOnce.complete_entryOf (h : EachOnce events)
    (hinj : ∀ v ∈ events, ∀ w ∈ events, number v.id = number w.id → v.id = w.id)
    (hlt : ∀ r, r < n ↔ ∃ v ∈ events, number v.id = r) :
    Complete (events.map (entryOf number)) n := by
  have hlabels : (events.map (entryOf number)).map Entry.label
      = events.map fun v => (entryKind v.kind, number v.id) := by
    rw [List.map_map]
    rfl
  refine ⟨?_, ?_⟩
  · rw [hlabels]
    refine List.Nodup.map_on (fun v hv w hw hvw => ?_) h.nodup.of_map
    obtain ⟨hkind, hid⟩ := Prod.mk.inj hvw
    exact List.inj_on_of_nodup_map h.nodup hv hw
      (Prod.ext (entryKind_injective hkind) (hinj v hv w hw hid))
  · rintro ⟨kind, r⟩
    rw [hlabels, List.mem_map]
    constructor
    · rintro ⟨v, hv, hvr⟩
      exact (hlt r).mpr ⟨v, hv, congrArg Prod.snd hvr⟩
    · intro hr
      obtain ⟨v, hv, rfl⟩ := (hlt r).mp hr
      obtain ⟨kind', rfl⟩ := entryKind_surjective kind
      obtain ⟨w, hw, rfl, hid⟩ := h.both v hv kind'
      exact ⟨w, hw, by rw [hid]⟩

end Numbered

theorem EachOnce.complete {events : List (Event V)} (h : EachOnce events) :
    ∃ n, Complete (convertEntries (renumber events)) n := by
  obtain ⟨number, n, heq, hinj, hlt⟩ := exists_renumber events
  refine ⟨n, ?_⟩
  rw [convertEntries_renumber heq]
  exact h.complete_entryOf hinj hlt

/-! ## The linked list of the events -/

/-- Every id that occurs does so as one call and, later, one return. -/
def CallThenReturn (events : List (Event V)) : Prop :=
  ∀ v ∈ events, (events.filter fun w => w.id = v.id).map (·.kind) = [.call, .ret]

instance (events : List (Event V)) : Decidable (CallThenReturn events) :=
  inferInstanceAs (Decidable (∀ v ∈ events, _))

/-- The nodes are the events, in their order, as a doubly linked list from `root` on: the values
are the same, the ids are the numbers below `n`, equal where those of the events are, and a call
points to its return. -/
structure ListsEvents (heap : Heap V) (root : Option Nat) (events : List (Event V))
    (nodes : List Nat) (n : Nat) : Prop where
  root_eq : root = nodes.head?
  linked : heap.links.Linked nodes
  before : ∀ a, nodes.head? = some a → heap.links.prev a = none
  nodup : nodes.Nodup
  length_eq : nodes.length = events.length
  values : nodes.map (fun a => (heap.node a).value) = events.map (·.value)
  ids : ∀ i, i < n ↔ ∃ a ∈ nodes, (heap.node a).id = i
  same_id : ∀ x ∈ nodes.zip events, ∀ y ∈ nodes.zip events,
    (heap.node x.1).id = (heap.node y.1).id ↔ x.2.id = y.2.id
  call : ∀ x ∈ nodes.zip events, x.2.kind = .call →
    ∃ y ∈ nodes.zip events, y.2.kind = .ret ∧ (heap.node y.1).id = (heap.node x.1).id ∧
      (heap.node x.1).matching = some y.1
  ret : ∀ x ∈ nodes.zip events, x.2.kind = .ret → (heap.node x.1).matching = none

namespace CallThenReturn

variable {events : List (Event V)} {v : Event V}

/-- The labels with one id, in order. -/
theorem filter_labels (h : CallThenReturn events) (hv : v ∈ events) :
    (events.map fun w => (w.kind, w.id)).filter (fun x => x.2 = v.id)
      = [(.call, v.id), (.ret, v.id)] := by
  have hid : ∀ w ∈ events.filter (fun w => w.id = v.id), (w.kind, w.id) = (w.kind, v.id) := by
    intro w hw
    rw [of_decide_eq_true (List.mem_filter.mp hw).2]
  calc (events.map fun w => (w.kind, w.id)).filter (fun x => x.2 = v.id)
      = (events.filter fun w => w.id = v.id).map fun w => (w.kind, w.id) := List.filter_map
    _ = (events.filter fun w => w.id = v.id).map fun w => (w.kind, v.id) :=
        List.map_congr_left hid
    _ = ((events.filter fun w => w.id = v.id).map (·.kind)).map (·, v.id) := by
        rw [List.map_map]
        rfl
    _ = [(.call, v.id), (.ret, v.id)] := by rw [h v hv, List.map_cons, List.map_singleton]

theorem precedes (h : CallThenReturn events) (hv : v ∈ events) :
    Precedes (events.map fun w => (w.kind, w.id)) (.call, v.id) (.ret, v.id) := by
  rw [Precedes, ← h.filter_labels hv]
  exact List.filter_sublist

theorem eachOnce (h : CallThenReturn events) : EachOnce events where
  nodup := by
    rw [List.nodup_iff_count_le_one]
    rintro ⟨kind, id⟩
    by_cases hmem : (kind, id) ∈ events.map fun w => (w.kind, w.id)
    · obtain ⟨v, hv, hlabel⟩ := List.mem_map.mp hmem
      obtain rfl : v.id = id := congrArg Prod.snd hlabel
      -- only the labels with this id count, a call and a return
      rw [← List.count_filter (p := fun x => decide (x.2 = v.id)) (decide_eq_true rfl),
        h.filter_labels hv]
      cases kind <;> simp
    · rw [List.count_eq_zero_of_not_mem hmem]
      omega
  both := by
    intro v hv kind
    have hmem : (kind, v.id) ∈ events.map fun w => (w.kind, w.id) := by
      cases kind with
      | call => exact (h.precedes hv).left_mem
      | ret => exact (h.precedes hv).right_mem
    obtain ⟨w, hw, hlabel⟩ := List.mem_map.mp hmem
    exact ⟨w, hw, Prod.mk.inj hlabel⟩

variable [Inhabited V] {number : Nat → Nat} {n : Nat}

/-- The node of an event. -/
theorem node_entryOf (h : CallThenReturn events)
    (hc : Complete (events.map (entryOf number)) n) (hv : v ∈ events) :
    (makeLinkedEntries (events.map (entryOf number))).1.node
        (address (events.map (entryOf number)) (entryOf number v).label) =
      { value := v.value
        matching := if v.kind = .call
          then some (address (events.map (entryOf number)) (.ret, number v.id)) else none
        id := number v.id } := by
  have hprec : Precedes ((events.map (entryOf number)).map Entry.label)
      (.call, number v.id) (.ret, number v.id) := by
    rw [labels_entryOf]
    exact (h.precedes hv).map (Prod.map entryKind number)
  have hkind : (entryOf number v).kind = .call ↔ v.kind = .call := by
    rw [entryOf]
    cases v.kind <;> simp [entryKind]
  rw [node_address hc.nodup (List.mem_map_of_mem hv)]
  simp only [hkind]
  simp only [entryOf, hprec, and_true]

end CallThenReturn

theorem mem_zip_map_left {α β : Type} {f : α → β} {l : List α} {x : β × α} :
    x ∈ (l.map f).zip l ↔ x.2 ∈ l ∧ x.1 = f x.2 := by
  have hzip : (l.map f).zip l = l.map fun v => (f v, v) := by
    simpa using List.zip_map' (f := f) (g := id) (l := l)
  rw [hzip, List.mem_map]
  constructor
  · rintro ⟨v, hv, rfl⟩
    exact ⟨hv, rfl⟩
  · rintro ⟨hv, hx⟩
    exact ⟨x.2, hv, Prod.ext hx.symm rfl⟩

/-- **Building the linked history is faithful.** From events in which every id, whatever it is,
occurs as one call and later one return, a doubly linked list is made that lists them. -/
theorem linked_events_faithful [Inhabited V] (events : List (Event V))
    (h : CallThenReturn events) :
    ∃ nodes n, ListsEvents (makeLinkedEntries (convertEntries (renumber events))).1
      (makeLinkedEntries (convertEntries (renumber events))).2 events nodes n := by
  obtain ⟨number, n, heq, hinj, hlt⟩ := exists_renumber events
  have hc := h.eachOnce.complete_entryOf hinj hlt
  have hnode := fun v (hv : v ∈ events) => h.node_entryOf hc hv
  rw [convertEntries_renumber heq]
  generalize hes : events.map (entryOf number) = es at hc hnode
  -- the node of an event is at the address of its label
  have hnodes : addresses es.length
      = events.map fun v => address es (entryOf number v).label := by
    rw [← map_address hc.nodup, ← hes, List.map_map, List.map_map]
    rfl
  have hchained := hc.chained
  rw [hnodes] at hchained
  refine ⟨events.map fun v => address es (entryOf number v).label, n,
    { root_eq := hchained.first
      linked := hchained.linked
      before := hchained.before
      nodup := hchained.nodup
      length_eq := List.length_map _
      values := ?values
      ids := ?ids
      same_id := ?same_id
      call := ?call
      ret := ?ret }⟩
  case values =>
    rw [List.map_map]
    exact List.map_congr_left fun v hv => congrArg Node.value (hnode v hv)
  case ids =>
    intro i
    rw [hlt i]
    constructor
    · rintro ⟨v, hv, rfl⟩
      exact ⟨_, List.mem_map_of_mem hv, by rw [hnode v hv]⟩
    · rintro ⟨a, ha, hid⟩
      obtain ⟨v, hv, rfl⟩ := List.mem_map.mp ha
      rw [hnode v hv] at hid
      exact ⟨v, hv, hid⟩
  case same_id =>
    intro x hx y hy
    obtain ⟨hx, hxa⟩ := mem_zip_map_left.mp hx
    obtain ⟨hy, hya⟩ := mem_zip_map_left.mp hy
    rw [hxa, hya, hnode _ hx, hnode _ hy]
    exact ⟨hinj _ hx _ hy, fun hid => congrArg number hid⟩
  case call =>
    intro x hx hcall
    obtain ⟨hx, hxa⟩ := mem_zip_map_left.mp hx
    obtain ⟨w, hw, hret, hid⟩ := h.eachOnce.both x.2 hx .ret
    refine ⟨(address es (entryOf number w).label, w), mem_zip_map_left.mpr ⟨hw, rfl⟩, hret, ?_, ?_⟩
    · rw [hxa, hnode _ hx, hnode w hw, hid]
    · rw [hxa, hnode _ hx, if_pos hcall, ← hid, entryOf, hret]
      rfl
  case ret =>
    intro x hx hret
    obtain ⟨hx, hxa⟩ := mem_zip_map_left.mp hx
    rw [hxa, hnode _ hx, hret]
    rfl

/-- Two overlapping operations under the ids 7 and 3. -/
def crossing : List (Event Nat) := [⟨.call, 10, 7⟩, ⟨.call, 11, 3⟩, ⟨.ret, 12, 7⟩, ⟨.ret, 13, 3⟩]

theorem linked_events_faithful_crossing :
    ∃ nodes n, ListsEvents (makeLinkedEntries (convertEntries (renumber crossing))).1
      (makeLinkedEntries (convertEntries (renumber crossing))).2 crossing nodes n :=
  linked_events_faithful crossing (by decide)

/-! ## New numbers -/

/-- An injection of the numbers below `n` into themselves only permutes them. -/
theorem range_map_perm {n : Nat} {τ : Nat → Nat} (hlt : ∀ i < n, τ i < n)
    (hinj : ∀ i < n, ∀ j < n, τ i = τ j → i = j) :
    ((List.range n).map τ).Perm (List.range n) := by
  have hnodup : ((List.range n).map τ).Nodup := by
    refine List.Nodup.map_on (fun i hi j hj => ?_) List.nodup_range
    exact hinj i (List.mem_range.mp hi) j (List.mem_range.mp hj)
  have hsub : (List.range n).map τ ⊆ List.range n := by
    intro r hr
    obtain ⟨i, hi, rfl⟩ := List.mem_map.mp hr
    exact List.mem_range.mpr (hlt i (List.mem_range.mp hi))
  refine (hnodup.subperm hsub).perm_of_length_le ?_
  rw [List.length_map]

/-- The entries with new numbers, at no time. -/
def renumbered (τ : Nat → Nat) (es : List (Entry V)) : List (Entry V) :=
  es.map fun e => ⟨e.kind, e.value, τ e.id, -1⟩

theorem labels_renumbered (τ : Nat → Nat) (es : List (Entry V)) :
    (renumbered τ es).map Entry.label = (es.map Entry.label).map (Prod.map id τ) := by
  rw [renumbered, List.map_map, List.map_map]
  rfl

section Renumbered

variable {es : List (Entry (I ⊕ O))} {ops : List (Operation I O × Nat)} {τ : Nat → Nat}

theorem Lists.lists_renumbered (h : Lists es ops) (hlt : ∀ i < ops.length, τ i < ops.length)
    (hinj : ∀ i < ops.length, ∀ j < ops.length, τ i = τ j → i = j) :
    Lists (renumbered τ es) (ops.map (Prod.map id τ)) where
  nodup := by
    rw [labels_renumbered]
    refine List.Nodup.map_on (fun x hx y hy hxy => ?_) h.nodup
    obtain ⟨hkind, hid⟩ := Prod.mk.inj hxy
    exact Prod.ext hkind (hinj _ ((h.mem x).mp hx) _ ((h.mem y).mp hy) hid)
  mem := by
    rintro ⟨kind, r⟩
    rw [labels_renumbered, List.length_map, List.mem_map]
    constructor
    · rintro ⟨x, hx, hxr⟩
      obtain rfl : τ x.2 = r := congrArg Prod.snd hxr
      exact hlt _ ((h.mem x).mp hx)
    · intro hr
      obtain ⟨i, hi, rfl⟩ := List.mem_map.mp
        ((range_map_perm hlt hinj).mem_iff.mpr (List.mem_range.mpr hr))
      exact ⟨(kind, i), (h.mem _).mpr (List.mem_range.mp hi), rfl⟩
  ids := by
    have hmap : (ops.map (Prod.map id τ)).map Prod.snd = (ops.map Prod.snd).map τ := by
      rw [List.map_map, List.map_map]
      rfl
    rw [hmap, List.length_map]
    exact (h.ids.map τ).trans (range_map_perm hlt hinj)
  value := by
    intro e' he' p' hp' hid
    obtain ⟨e, he, rfl⟩ := List.mem_map.mp he'
    obtain ⟨p, hp, rfl⟩ := List.mem_map.mp hp'
    have hlt : e.id < ops.length := (h.mem e.label).mp (List.mem_map_of_mem he)
    exact h.value e he p hp (hinj _ hlt _ (h.id_lt hp) hid)

/-- The new labels stand in the old order. -/
theorem Lists.precedes_renumbered_iff (h : Lists es ops)
    (hlt : ∀ i < ops.length, τ i < ops.length)
    (hinj : ∀ i < ops.length, ∀ j < ops.length, τ i = τ j → i = j) {kind kind' : EntryKind}
    {i j : Nat} (hi : i < ops.length) (hj : j < ops.length) :
    Precedes ((renumbered τ es).map Entry.label) (kind, τ i) (kind', τ j) ↔
      Precedes (es.map Entry.label) (kind, i) (kind', j) := by
  have hnodup := (h.lists_renumbered hlt hinj).nodup
  rw [labels_renumbered] at hnodup ⊢
  exact Precedes.map_iff (x := (kind, i)) (y := (kind', j)) hnodup ((h.mem _).mpr hi)
    ((h.mem _).mpr hj)

/-- An order of the operations respects the entries under the old numbers when it does under the
new ones. -/
theorem Lists.respects_renumbered_iff (h : Lists es ops)
    (hlt : ∀ i < ops.length, τ i < ops.length)
    (hinj : ∀ i < ops.length, ∀ j < ops.length, τ i = τ j → i = j)
    {order : List (Operation I O × Nat)} (hperm : order.Perm ops) :
    RespectsEntries (renumbered τ es) (order.map (Prod.map id τ)) ↔
      RespectsEntries es order := by
  rw [RespectsEntries, RespectsEntries, List.pairwise_map]
  refine List.Pairwise.iff_of_mem fun {p q} hp hq => not_congr ?_
  exact h.precedes_renumbered_iff hlt hinj (h.id_lt (hperm.mem_iff.mp hq))
    (h.id_lt (hperm.mem_iff.mp hp))

/-- **New numbers do not change the verdict.** -/
theorem Lists.answers_renumbered [Inhabited (I ⊕ O)] {model : Model S (I ⊕ O)}
    (hm : model.Respects) (h : Lists es ops) (hlt : ∀ i < ops.length, τ i < ops.length)
    (hinj : ∀ i < ops.length, ∀ j < ops.length, τ i = τ j → i = j) {b : Bool}
    (hb : Answers model (makeLinkedEntries es) b) :
    Answers model (makeLinkedEntries (renumbered τ es)) b := by
  obtain ⟨b₁, hb₁, hiff₁⟩ := h.verdict hm
  obtain ⟨b₂, hb₂, hiff₂⟩ := (h.lists_renumbered hlt hinj).verdict hm
  obtain rfl : b = b₁ := hb.unique hb₁
  have hfst : ∀ order : List (Operation I O × Nat),
      (order.map (Prod.map id τ)).map Prod.fst = order.map Prod.fst := fun order => by
    rw [List.map_map]
    rfl
  have hsame : b = true ↔ b₂ = true := by
    rw [hiff₁, hiff₂, List.length_map]
    refine and_congr ?_ ⟨?_, ?_⟩
    · -- every number is a new number
      have hall : (∀ i < ops.length, Precedes
          ((renumbered τ es).map Entry.label) (.call, i) (.ret, i)) ↔
          ∀ i < ops.length, Precedes
            ((renumbered τ es).map Entry.label) (.call, τ i) (.ret, τ i) := by
        refine ⟨fun hall i hi => hall _ (hlt i hi), fun hall r hr => ?_⟩
        obtain ⟨i, hi, rfl⟩ := List.mem_map.mp
          ((range_map_perm hlt hinj).mem_iff.mpr (List.mem_range.mpr hr))
        exact hall i (List.mem_range.mp hi)
      rw [hall]
      refine forall_congr' fun i => forall_congr' fun hi => ?_
      exact (h.precedes_renumbered_iff hlt hinj hi hi).symm
    · rintro ⟨order, hperm, hrespects, haccepts⟩
      refine ⟨order.map (Prod.map id τ), hperm.map _, ?_, ?_⟩
      · exact (h.respects_renumbered_iff hlt hinj hperm).mpr hrespects
      · rwa [hfst]
    · rintro ⟨order', hperm', hrespects, haccepts⟩
      obtain ⟨order, hperm, rfl⟩ := Object.exists_perm_map_eq hperm'
      refine ⟨order, hperm, ?_, ?_⟩
      · exact (h.respects_renumbered_iff hlt hinj hperm).mp hrespects
      · rwa [hfst] at haccepts
  obtain rfl : b = b₂ := Bool.eq_iff_iff.mpr hsame
  exact hb₂

end Renumbered

/-! ## The events of a history -/

/-- The kind of the event that an entry was made from. -/
def eventKind : EntryKind → EventKind
  | .call => .call
  | .ret => .ret

/-- The calls and returns as events, in the order of the entries, operation `i` under the id
`ids i`. -/
def eventsOf (ids : Nat → Nat) (es : List (Entry V)) : List (Event V) :=
  es.map fun e => ⟨eventKind e.kind, e.value, ids e.id⟩

theorem entryKind_eventKind (kind : EntryKind) : entryKind (eventKind kind) = kind := by
  cases kind <;> rfl

/-- The events become the entries with new numbers. -/
theorem Complete.exists_renumbered {es : List (Entry V)} {n : Nat} (h : Complete es n)
    {ids : Nat → Nat} (hids : ∀ i < n, ∀ j < n, ids i = ids j → i = j) :
    ∃ τ : Nat → Nat, (∀ i < n, τ i < n) ∧ (∀ i < n, ∀ j < n, τ i = τ j → i = j) ∧
      convertEntries (renumber (eventsOf ids es)) = renumbered τ es := by
  obtain ⟨number, m, heq, hinj, hlt⟩ := exists_renumber (eventsOf ids es)
  have hid : ∀ e ∈ es, e.id < n := fun e he => (h.mem e.label).mp (List.mem_map_of_mem he)
  have hmem : ∀ i < n, ∃ v ∈ eventsOf ids es, v.id = ids i := by
    intro i hi
    obtain ⟨e, he, -, rfl⟩ := h.exists_entry .call hi
    exact ⟨_, List.mem_map_of_mem he, rfl⟩
  have hinj' : ∀ i < n, ∀ j < n, number (ids i) = number (ids j) → i = j := by
    intro i hi j hj hij
    obtain ⟨v, hv, hvi⟩ := hmem i hi
    obtain ⟨w, hw, hwj⟩ := hmem j hj
    refine hids i hi j hj ?_
    rw [← hvi, ← hwj] at hij ⊢
    exact hinj v hv w hw hij
  have hnm : m = n := by
    -- the numbers of the operations are the `m` numbers
    have himage : (Finset.range n).image (fun i => number (ids i)) = Finset.range m := by
      ext r
      rw [Finset.mem_image, Finset.mem_range, hlt r]
      constructor
      · rintro ⟨i, hi, rfl⟩
        obtain ⟨v, hv, hvi⟩ := hmem i (Finset.mem_range.mp hi)
        exact ⟨v, hv, by rw [hvi]⟩
      · rintro ⟨v, hv, rfl⟩
        obtain ⟨e, he, rfl⟩ := List.mem_map.mp hv
        exact ⟨e.id, Finset.mem_range.mpr (hid e he), rfl⟩
    have hcard := congrArg Finset.card himage
    rw [Finset.card_image_of_injOn, Finset.card_range, Finset.card_range] at hcard
    · exact hcard.symm
    · intro i hi j hj
      exact hinj' i (Finset.mem_range.mp hi) j (Finset.mem_range.mp hj)
  subst hnm
  refine ⟨fun i => number (ids i), fun i hi => ?_, hinj', ?_⟩
  · obtain ⟨v, hv, hvi⟩ := hmem i hi
    exact (hlt _).mpr ⟨v, hv, by rw [hvi]⟩
  · rw [heq, convertEntries, eventsOf, renumbered, List.map_map, List.map_map]
    refine List.map_congr_left fun e _ => ?_
    show Entry.mk (entryKind (eventKind e.kind)) e.value (number (ids e.id)) (-1) = _
    rw [entryKind_eventKind]

/-- The verdict on the events of a history is the verdict on its entries. -/
theorem Lists.answers_eventsOf [Inhabited (I ⊕ O)] {model : Model S (I ⊕ O)}
    {es : List (Entry (I ⊕ O))} {ops : List (Operation I O × Nat)} (hm : model.Respects)
    (h : Lists es ops) {ids : Nat → Nat}
    (hids : ∀ i < ops.length, ∀ j < ops.length, ids i = ids j → i = j) {b : Bool}
    (hb : Answers model (makeLinkedEntries es) b) :
    Answers model (makeLinkedEntries (convertEntries (renumber (eventsOf ids es)))) b := by
  obtain ⟨τ, hlt, hinj, heq⟩ := h.toComplete.exists_renumbered hids
  rw [heq]
  exact h.answers_renumbered hm hlt hinj hb

end RaftLab.Linearizability
