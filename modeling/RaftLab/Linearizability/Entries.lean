import RaftLab.Linearizability.Decides
import RaftLab.Linearizability.KvModel

set_option autoImplicit false

/-! # From operations and events to the linked history

Before a history is checked it is turned into a list of entries, a call and a return for every
operation: `makeEntries` numbers the operations and sorts the entries by time, `renumber` and
`convertEntries` take a list of events as it is and give its ids new numbers. `makeLinkedEntries`
then builds the linked list from the back, with a map from ids to the returns it has seen.

The node of an entry is made when the entries after it have been made, so its address is the number
of entries after it. In these terms `Linking.Built` says what the heap is, for any list of entries.
If the ids of a list are `0` to `n - 1`, each with one call and one return, the nodes are `Chained`
(`Complete.chained`), and if moreover every call stands before its return they are `WellFormed`
(`Complete.wellFormed`).
-/

namespace RaftLab.Linearizability

variable {V I O : Type}

inductive EntryKind where
  | call
  | ret
  deriving DecidableEq

structure Entry (V : Type) where
  kind : EntryKind
  value : V
  id : Nat
  time : Int
  deriving DecidableEq

/-- `CallEvent` and `ReturnEvent`. -/
inductive EventKind where
  | call
  | ret
  deriving DecidableEq

structure Event (V : Type) where
  kind : EventKind
  value : V
  id : Nat
  deriving DecidableEq

/-! ## The entries of a history -/

/-- The entries of the operations from number `id` on, as the loop of `makeEntries` appends them. -/
def entriesFrom : Nat → List (Operation I O) → List (Entry (I ⊕ O))
  | _, [] => []
  | id, elem :: history =>
      ⟨.call, .inl elem.input, id, elem.call⟩ :: ⟨.ret, .inr elem.output, id, elem.ret⟩ ::
        entriesFrom (id + 1) history

/-- `es` is `l` in an order that `sort.Sort` may leave it in: sorted by time, with entries of one
time in any order. -/
structure SortedByTime (l es : List (Entry V)) : Prop where
  perm : es.Perm l
  sorted : es.Pairwise fun e e' => e.time ≤ e'.time

/-- `makeEntries`, with a function that sorts by time. -/
def makeEntries (sort : List (Entry (I ⊕ O)) → List (Entry (I ⊕ O)))
    (history : List (Operation I O)) : List (Entry (I ⊕ O)) :=
  sort (entriesFrom 0 history)

/-! ## The entries of a list of events -/

/-- The variables of the loop of `renumber`: the events renumbered so far, the map and the next
number. -/
structure Renumbering (V : Type) where
  events : List (Event V)
  m : Nat → Option Nat
  id : Nat

def Renumbering.next (k : Renumbering V) (v : Event V) : Renumbering V :=
  match k.m v.id with
  | some r => { k with events := k.events ++ [⟨v.kind, v.value, r⟩] }
  | none =>
      { events := k.events ++ [⟨v.kind, v.value, k.id⟩]
        m := Function.update k.m v.id (some k.id)
        id := k.id + 1 }

def renumber (events : List (Event V)) : List (Event V) :=
  (events.foldl Renumbering.next ⟨[], fun _ => none, 0⟩).events

def entryKind (kind : EventKind) : EntryKind := if kind = .ret then .ret else .call

def convertEntries (events : List (Event V)) : List (Entry V) :=
  events.map fun elem => ⟨entryKind elem.kind, elem.value, elem.id, -1⟩

/-! ## Linking the entries -/

/-- The variables of the loop of `makeLinkedEntries`. -/
structure Linking (V : Type) where
  heap : Heap V
  root : Option Nat
  matching : Nat → Option Nat

/-- Nothing has been made yet. -/
def Linking.empty [Inhabited V] : Linking V where
  heap := ⟨fun _ => ⟨default, none, 0⟩, ⟨fun _ => none, fun _ => none⟩, 0⟩
  root := none
  matching := fun _ => none

/-- The body of the loop. -/
def Linking.add (k : Linking V) (elem : Entry V) : Linking V :=
  match elem.kind with
  | .ret =>
      let (heap, entry) := k.heap.new ⟨elem.value, none, elem.id⟩
      { heap := heap.insertBefore entry k.root
        root := some entry
        matching := Function.update k.matching elem.id (some entry) }
  | .call =>
      let (heap, entry) := k.heap.new ⟨elem.value, k.matching elem.id, elem.id⟩
      { k with heap := heap.insertBefore entry k.root, root := some entry }

/-- The linked history and its first node. The loop runs from the last entry to the first. -/
def makeLinkedEntries [Inhabited V] (entries : List (Entry V)) : Heap V × Option Nat :=
  let k := entries.foldr (fun elem (k : Linking V) => k.add elem) .empty
  (k.heap, k.root)

/-! ## What is built -/

/-- The addresses below `n`, from the last to the first. -/
def addresses : Nat → List Nat
  | 0 => []
  | n + 1 => n :: addresses n

theorem mem_addresses {n a : Nat} : a ∈ addresses n ↔ a < n := by
  induction n with
  | zero => simp [addresses]
  | succ n ih =>
      rw [addresses, List.mem_cons, ih]
      omega

theorem length_addresses (n : Nat) : (addresses n).length = n := by
  induction n with
  | zero => rfl
  | succ n ih => rw [addresses, List.length_cons, ih]

theorem nodup_addresses (n : Nat) : (addresses n).Nodup := by
  induction n with
  | zero => exact List.nodup_nil
  | succ n ih => exact List.nodup_cons.mpr ⟨fun h => Nat.lt_irrefl n (mem_addresses.mp h), ih⟩

/-- The kind and the id of an entry. -/
def Entry.label (e : Entry V) : EntryKind × Nat := (e.kind, e.id)

/-- The address of the first entry with the label: the number of entries after it. -/
def addressOf : List (Entry V) → EntryKind × Nat → Option Nat
  | [], _ => none
  | e :: es, label => if e.label = label then some es.length else addressOf es label

/-- The node that is made for an entry in front of the entries `after`. -/
def nodeOf (e : Entry V) (after : List (Entry V)) : Node V where
  value := e.value
  matching :=
    match e.kind with
    | .ret => none
    | .call => addressOf after (.ret, e.id)
  id := e.id

/-- The loop has made the nodes of the entries `es`. -/
structure Linking.Built (k : Linking V) (es : List (Entry V)) : Prop where
  size : k.heap.size = es.length
  linked : k.heap.links.Linked (addresses es.length)
  root : k.root = (addresses es.length).head?
  before : ∀ a, k.root = some a → k.heap.links.prev a = none
  matching : ∀ id, k.matching id = addressOf es (.ret, id)
  node : ∀ front e after, es = front ++ e :: after → k.heap.node after.length = nodeOf e after

theorem built_empty [Inhabited V] : (Linking.empty : Linking V).Built [] where
  size := rfl
  linked := trivial
  root := rfl
  before := fun _ h => nomatch h
  matching := fun _ => rfl
  node := fun front e after h => absurd h.symm (by simp)

/-- A new node put in front has nothing before it. -/
theorem insertBefore_new_prev {h : Heap V} {l : List Nat} (hsize : ∀ a ∈ l, a < h.size)
    (hfirst : ∀ a, l.head? = some a → h.links.prev a = none) (n : Node V) :
    ((h.new n).1.insertBefore h.size l.head?).links.prev h.size = none := by
  cases l with
  | nil => exact Function.update_self _ _ _
  | cons a l =>
      have hne : a ≠ h.size := Nat.ne_of_lt (hsize a List.mem_cons_self)
      rw [List.head?_cons, Heap.insertBefore_new_links hne (hfirst a rfl)]
      exact (Function.update_of_ne (Ne.symm hne) _ _).trans (Function.update_self _ _ _)

theorem insertBefore_size (h : Heap V) (n : Nat) (mark : Option Nat) :
    (h.insertBefore n mark).size = h.size := by
  cases mark with
  | none => rfl
  | some a =>
      dsimp only [Heap.insertBefore]
      split <;> rfl

/-- Both branches of the body put the entry's node in front. -/
theorem Linking.add_eq (k : Linking V) (e : Entry V) {es : List (Entry V)} (hk : k.Built es) :
    (k.add e).heap = (k.heap.new (nodeOf e es)).1.insertBefore k.heap.size k.root ∧
      (k.add e).root = some k.heap.size ∧
      (k.add e).matching = if e.kind = .ret then
        Function.update k.matching e.id (some k.heap.size) else k.matching := by
  unfold add nodeOf
  cases e.kind with
  | ret => exact ⟨rfl, rfl, rfl⟩
  | call =>
      dsimp only
      rw [← hk.matching e.id]
      exact ⟨rfl, rfl, rfl⟩

theorem Linking.Built.add {k : Linking V} {es : List (Entry V)} (hk : k.Built es) (e : Entry V) :
    (k.add e).Built (e :: es) := by
  obtain ⟨hheap, hroot, hmatching⟩ := k.add_eq e hk
  have hsize : ∀ a ∈ addresses es.length, a < k.heap.size := fun a ha => by
    rw [hk.size]
    exact mem_addresses.mp ha
  have hfirst : ∀ a, (addresses es.length).head? = some a → k.heap.links.prev a = none :=
    fun a ha => hk.before a (hk.root.trans ha)
  -- the entries are added from the last to the first, each in front of the list
  have hcons : addresses (e :: es).length = k.heap.size :: addresses es.length := by
    rw [hk.size]
    rfl
  rw [hk.root] at hheap
  constructor
  case size =>
    rw [hheap, insertBefore_size]
    show k.heap.size + 1 = _
    rw [hk.size]
    rfl
  case linked =>
    rw [hheap, hcons]
    exact Heap.insertBefore_new_linked hk.linked (nodup_addresses _) hsize hfirst _
  case root =>
    rw [hroot, hcons]
    rfl
  case before =>
    intro a ha
    obtain rfl : k.heap.size = a := Option.some.inj (hroot.symm.trans ha)
    rw [hheap]
    exact insertBefore_new_prev hsize hfirst _
  case matching =>
    intro id
    rw [hmatching, addressOf]
    by_cases hlabel : e.label = (.ret, id)
    · obtain ⟨hret, rfl⟩ : e.kind = .ret ∧ e.id = id := Prod.mk.inj hlabel
      rw [if_pos hret, if_pos hlabel, Function.update_self, hk.size]
    · rw [if_neg hlabel, ← hk.matching id]
      split
      · rename_i hret
        have hne : id ≠ e.id := fun heq => hlabel (Prod.ext hret heq.symm)
        exact Function.update_of_ne hne _ _
      · rfl
  case node =>
    intro front e' after hes
    rw [hheap, Heap.insertBefore_node]
    cases front with
    | nil =>
        obtain ⟨rfl, rfl⟩ := List.cons.inj hes
        rw [← hk.size]
        exact Function.update_self _ _ _
    | cons d front =>
        obtain ⟨-, hrest⟩ := List.cons.inj hes
        have hne : after.length ≠ k.heap.size := by
          rw [hk.size, hrest]
          simp
          omega
        exact (Function.update_of_ne hne _ _).trans (hk.node front e' after hrest)

theorem built_foldr [Inhabited V] (es : List (Entry V)) :
    (es.foldr (fun elem (k : Linking V) => k.add elem) .empty).Built es := by
  induction es with
  | nil => exact built_empty
  | cons e es ih => exact ih.add e

/-! ## The nodes by their labels -/

section Labels

variable {es : List (Entry V)} {e : Entry V} {label : EntryKind × Nat} {n : Nat}

/-- The address of the entry with the label, if there is one. -/
def address (es : List (Entry V)) (label : EntryKind × Nat) : Nat := (addressOf es label).getD 0

theorem addressOf_append_of_notMem {front : List (Entry V)}
    (hlabel : label ∉ front.map Entry.label) (es : List (Entry V)) :
    addressOf (front ++ es) label = addressOf es label := by
  induction front with
  | nil => rfl
  | cons e front ih =>
      rw [List.map_cons, List.mem_cons, not_or] at hlabel
      rw [List.cons_append, addressOf, if_neg (Ne.symm hlabel.1), ih hlabel.2]

theorem addressOf_eq_none (hlabel : label ∉ es.map Entry.label) : addressOf es label = none := by
  have := addressOf_append_of_notMem hlabel []
  rwa [List.append_nil] at this

theorem addressOf_eq_some (hlabel : label ∈ es.map Entry.label) :
    addressOf es label = some (address es label) := by
  rw [address]
  induction es with
  | nil => cases hlabel
  | cons e es ih =>
      rw [addressOf]
      split
      · rfl
      · rename_i hne
        exact ih ((List.mem_cons.mp hlabel).resolve_left (Ne.symm hne))

/-- The labels of the entries are at the addresses, in the order of the list. -/
theorem map_address (hnodup : (es.map Entry.label).Nodup) :
    (es.map Entry.label).map (address es) = addresses es.length := by
  induction es with
  | nil => rfl
  | cons e es ih =>
      obtain ⟨hnot, hnodup⟩ := List.nodup_cons.mp hnodup
      have hfirst : address (e :: es) e.label = es.length := by
        rw [address, addressOf, if_pos rfl]
        rfl
      have hrest : ∀ label ∈ es.map Entry.label, address (e :: es) label = address es label := by
        intro label hlabel
        have hne : e.label ≠ label := fun heq => hnot (heq ▸ hlabel)
        rw [address, addressOf, if_neg hne, address]
      rw [List.map_cons, List.map_cons, hfirst, List.map_congr_left hrest, ih hnodup]
      rfl

theorem mem_addresses_iff (hnodup : (es.map Entry.label).Nodup) {a : Nat} :
    a ∈ addresses es.length ↔ ∃ e ∈ es, address es e.label = a := by
  rw [← map_address hnodup, List.map_map, List.mem_map]
  rfl

theorem precedes_address_iff (hnodup : (es.map Entry.label).Nodup) {label' : EntryKind × Nat}
    (hlabel : label ∈ es.map Entry.label) (hlabel' : label' ∈ es.map Entry.label) :
    Precedes (addresses es.length) (address es label) (address es label') ↔
      Precedes (es.map Entry.label) label label' := by
  rw [← map_address hnodup]
  refine Precedes.map_iff ?_ hlabel hlabel'
  rw [map_address hnodup]
  exact nodup_addresses _

variable [Inhabited V]

/-- **What is linked.** A call has a match, the return with its id, if that stands behind it. -/
theorem node_address (hnodup : (es.map Entry.label).Nodup) (he : e ∈ es) :
    (makeLinkedEntries es).1.node (address es e.label) =
      { value := e.value
        matching := if e.kind = .call ∧ Precedes (es.map Entry.label) (.call, e.id) (.ret, e.id)
          then some (address es (.ret, e.id)) else none
        id := e.id } := by
  obtain ⟨front, after, rfl⟩ := List.mem_iff_append.mp he
  have hsplit := hnodup
  rw [List.map_append, List.map_cons, List.nodup_append] at hsplit
  obtain ⟨-, hback, hdisj⟩ := hsplit
  have hfront : e.label ∉ front.map Entry.label := fun hmem =>
    hdisj _ hmem _ List.mem_cons_self rfl
  have haddress : address (front ++ e :: after) e.label = after.length := by
    rw [address, addressOf_append_of_notMem hfront, addressOf, if_pos rfl]
    rfl
  rw [haddress, makeLinkedEntries, (built_foldr _).node front e after rfl, nodeOf]
  congr 1
  cases hkind : e.kind with
  | ret => rw [if_neg (fun h => nomatch h.1)]
  | call =>
      have hlabel : e.label = (.call, e.id) := Prod.ext hkind rfl
      dsimp only
      split
      · rename_i hprec
        -- the return stands behind the call, so it is the one that had been seen
        have hmem : (.ret, e.id) ∈ after.map Entry.label := by
          refine Precedes.mem_after (A := front.map Entry.label) (y := e.label) ?_ ?_
          · simpa only [List.map_append, List.map_cons] using hnodup
          · rw [hlabel]
            simpa only [List.map_append, List.map_cons, hlabel] using hprec.2
        have hnot : (.ret, e.id) ∉ (front ++ [e]).map Entry.label := by
          rw [List.map_append, List.mem_append, not_or]
          refine ⟨fun h => hdisj _ h _ (List.mem_cons_of_mem _ hmem) rfl, ?_⟩
          rw [List.map_singleton, List.mem_singleton, hlabel]
          simp
        have hskip := addressOf_append_of_notMem hnot after
        rw [List.append_assoc, List.singleton_append] at hskip
        rw [address, hskip, addressOf_eq_some hmem]
        rfl
      · rename_i hprec
        refine addressOf_eq_none fun hmem => hprec ⟨rfl, ?_⟩
        rw [List.map_append, List.map_cons, hlabel]
        exact (Precedes.cons_iff.mpr (.inr ⟨rfl, hmem⟩)).trans (List.sublist_append_right _ _)

/-- A node with a match is a call with its return behind it. -/
theorem matching_address (hnodup : (es.map Entry.label).Nodup) (he : e ∈ es) {r : Nat}
    (hr : ((makeLinkedEntries es).1.node (address es e.label)).matching = some r) :
    e.kind = .call ∧ Precedes (es.map Entry.label) (.call, e.id) (.ret, e.id) ∧
      r = address es (.ret, e.id) := by
  rw [node_address hnodup he] at hr
  dsimp only at hr
  split at hr
  · rename_i hcall
    exact ⟨hcall.1, hcall.2, (Option.some.inj hr).symm⟩
  · cases hr

theorem id_address (hnodup : (es.map Entry.label).Nodup) (he : e ∈ es) :
    ((makeLinkedEntries es).1.node (address es e.label)).id = e.id := by
  rw [node_address hnodup he]

/-! ## Complete lists of entries -/

/-- The entries are a call and a return for every id below `n`. -/
structure Complete (es : List (Entry V)) (n : Nat) : Prop where
  nodup : (es.map Entry.label).Nodup
  mem : ∀ label, label ∈ es.map Entry.label ↔ label.2 < n

namespace Complete

omit [Inhabited V] in
theorem exists_entry (h : Complete es n) (kind : EntryKind) {i : Nat} (hi : i < n) :
    ∃ e ∈ es, e.kind = kind ∧ e.id = i := by
  obtain ⟨e, he, hlabel⟩ := List.mem_map.mp ((h.mem (kind, i)).mpr hi)
  exact ⟨e, he, Prod.mk.inj hlabel⟩

omit [Inhabited V] in
theorem labels_perm (h : Complete es n) :
    (es.map Entry.label).Perm
      ((List.range n).map (Prod.mk .call) ++ (List.range n).map (Prod.mk .ret)) := by
  have hinj : ∀ kind : EntryKind, Function.Injective (Prod.mk (β := Nat) kind) :=
    fun kind i j hij => (Prod.mk.inj hij).2
  refine (List.perm_ext_iff_of_nodup h.nodup ?_).mpr fun label => ?_
  · refine List.nodup_append.mpr ⟨List.nodup_range.map (hinj _), List.nodup_range.map (hinj _), ?_⟩
    intro x hx y hy
    obtain ⟨i, -, rfl⟩ := List.mem_map.mp hx
    obtain ⟨j, -, rfl⟩ := List.mem_map.mp hy
    simp
  · obtain ⟨kind, i⟩ := label
    rw [h.mem]
    cases kind <;> simp

omit [Inhabited V] in
theorem length_eq (h : Complete es n) : es.length = 2 * n := by
  have := h.labels_perm.length_eq
  simp only [List.length_map, List.length_append, List.length_range] at this
  omega

/-- The nodes of a complete list are chained, in whatever order the entries stand. -/
theorem chained (h : Complete es n) :
    Chained (makeLinkedEntries es).1 (makeLinkedEntries es).2 n (addresses es.length) where
  nodup := nodup_addresses _
  id_lt := by
    intro a ha
    obtain ⟨e, he, rfl⟩ := (mem_addresses_iff h.nodup).mp ha
    rw [id_address h.nodup he]
    exact (h.mem e.label).mp (List.mem_map_of_mem he)
  order := by
    intro a ha r hr
    obtain ⟨e, he, rfl⟩ := (mem_addresses_iff h.nodup).mp ha
    obtain ⟨hkind, hprec, rfl⟩ := matching_address h.nodup he hr
    have hlabel : e.label = (.call, e.id) := Prod.ext hkind rfl
    rw [hlabel]
    exact (precedes_address_iff h.nodup hprec.left_mem hprec.right_mem).mpr hprec
  same_id := by
    intro a ha r hr
    obtain ⟨e, he, rfl⟩ := (mem_addresses_iff h.nodup).mp ha
    obtain ⟨-, hprec, rfl⟩ := matching_address h.nodup he hr
    obtain ⟨e', he', hlabel⟩ := List.mem_map.mp hprec.right_mem
    rw [id_address h.nodup he, ← hlabel, id_address h.nodup he']
    exact congrArg Prod.snd hlabel
  only := by
    intro a ha r hr x hx hsame
    obtain ⟨e, he, rfl⟩ := (mem_addresses_iff h.nodup).mp ha
    obtain ⟨e', he', rfl⟩ := (mem_addresses_iff h.nodup).mp hx
    obtain ⟨hkind, -, rfl⟩ := matching_address h.nodup he hr
    rw [id_address h.nodup he, id_address h.nodup he'] at hsame
    -- the number determines the operation, and the kind which of its two events it is
    cases hkind' : e'.kind with
    | call =>
        left
        have hlabel : e'.label = e.label := Prod.ext (hkind'.trans hkind.symm) hsame
        rw [hlabel]
    | ret =>
        right
        have hlabel : e'.label = (.ret, e.id) := Prod.ext hkind' hsame
        rw [hlabel]
  length_eq := by rw [length_addresses, h.length_eq]
  first := (built_foldr es).root
  linked := (built_foldr es).linked
  before := fun a ha => (built_foldr es).before a ((built_foldr es).root.trans ha)
  allocated := by
    intro a ha
    rw [makeLinkedEntries, (built_foldr es).size]
    exact mem_addresses.mp ha

/-- When every call stands before its return, they are well-formed. -/
theorem wellFormed (h : Complete es n)
    (horder : ∀ i < n, Precedes (es.map Entry.label) (.call, i) (.ret, i)) :
    WellFormed (makeLinkedEntries es).1 (makeLinkedEntries es).2 n (addresses es.length)
      (fun i => address es (.call, i)) (fun i => address es (.ret, i)) := by
  have hnode : ∀ (kind : EntryKind) (i : Nat), i < n → ∃ v,
      (makeLinkedEntries es).1.node (address es (kind, i)) =
        ⟨v, if kind = .call then some (address es (.ret, i)) else none, i⟩ := by
    intro kind i hi
    obtain ⟨e, he, rfl, rfl⟩ := h.exists_entry kind hi
    have heq := node_address h.nodup he
    simp only [horder e.id hi, and_true] at heq
    exact ⟨e.value, heq⟩
  have hc := h.chained
  refine ⟨⟨?_, hc.nodup, ?_, ?_, ?_, ?_, ?_⟩, hc.first, hc.linked, hc.before, hc.allocated⟩
  · rw [← map_address h.nodup]
    refine (h.labels_perm.map (address es)).trans (List.Perm.of_eq ?_)
    rw [List.map_append, List.map_map, List.map_map]
    rfl
  · intro i hi
    exact (precedes_address_iff h.nodup ((h.mem _).mpr hi) ((h.mem _).mpr hi)).mpr (horder i hi)
  · intro i hi
    obtain ⟨v, hv⟩ := hnode .call i hi
    rw [hv]
  · intro i hi
    obtain ⟨v, hv⟩ := hnode .ret i hi
    rw [hv]
  · intro i hi
    obtain ⟨v, hv⟩ := hnode .call i hi
    rw [hv]
    rfl
  · intro i hi
    obtain ⟨v, hv⟩ := hnode .ret i hi
    rw [hv]
    rfl

end Complete

end Labels

end RaftLab.Linearizability
