import RaftLab.Lib.Links

set_option autoImplicit false

/-! # The linked history

A history is a doubly linked list of nodes, one for each call and one for each return. Nodes
are addressed by numbers, a pointer is an `Option Nat`, and following a nil pointer panics,
which is `none`. A node's `next` and `prev` are the only fields that are ever assigned after it
was made, so they are kept apart, as the `links` of the heap.

`lift` takes a call and its return out of the list and `unlift` puts them back:
`Heap.lift_linked` says that the rest stays linked in order and that `unlift` restores every
pointer.
-/

namespace RaftLab.Linearizability

variable {V : Type}

/-- A node without its `next` and `prev`. A call's `matching` points to its return; a return
has none. The values are whatever the program records as inputs and outputs. -/
structure Node (V : Type) where
  value : V
  matching : Option Nat
  id : Nat

/-- The nodes made so far, at the addresses below `size`. -/
structure Heap (V : Type) where
  node : Nat → Node V
  links : Links Nat
  size : Nat

namespace Heap

/-- A new node, with nil pointers. -/
def new (h : Heap V) (n : Node V) : Heap V × Nat :=
  ({ node := Function.update h.node h.size n
     links := (h.links.setNext h.size none).setPrev h.size none
     size := h.size + 1 }, h.size)

def insertBefore (h : Heap V) (n : Nat) (mark : Option Nat) : Heap V :=
  match mark with
  | none => h
  | some mark =>
      let beforeMark := h.links.prev mark
      let links := (h.links.setPrev mark (some n)).setNext n (some mark)
      match beforeMark with
      | none => { h with links := links }
      | some beforeMark =>
          { h with links := (links.setPrev n (some beforeMark)).setNext beforeMark (some n) }

/-- The loop of `length`, which counts in `l`. -/
def lengthFrom (h : Heap V) : Nat → Option Nat → Nat → Option Nat
  | _, none, l => some l
  | 0, some _, _ => none
  | fuel + 1, some n, l => lengthFrom h fuel (h.links.next n) (l + 1)

def length (h : Heap V) (fuel : Nat) (n : Option Nat) : Option Nat := h.lengthFrom fuel n 0

def lift (h : Heap V) (entry : Nat) : Option (Heap V) := do
  let prev ← h.links.prev entry
  let links := h.links.setNext prev (h.links.next entry)
  let next ← links.next entry
  let links := links.setPrev next (links.prev entry)
  let matching ← (h.node entry).matching
  let prev ← links.prev matching
  let links := links.setNext prev (links.next matching)
  -- the node after the return may be missing, unlike the one after the call
  let links := links.setPrevOfNext matching (links.prev matching)
  return { h with links := links }

def unlift (h : Heap V) (entry : Nat) : Option (Heap V) := do
  let matching ← (h.node entry).matching
  let prev ← h.links.prev matching
  let links := h.links.setNext prev (some matching)
  let links := links.setPrevOfNext matching (some matching)
  let prev ← links.prev entry
  let links := links.setNext prev (some entry)
  let next ← links.next entry
  let links := links.setPrev next (some entry)
  return { h with links := links }

/-! ## Lifting an operation -/

variable {h h' : Heap V} {k₁ k₂ : Links Nat} {e m : Nat} {A Q R : List Nat}

/-- `lift` unlinks the call and then its return. -/
theorem lift_eq (hm : (h.node e).matching = some m) (hnext : k₁.next e ≠ none)
    (h₁ : h.links.unlink e = some k₁) (h₂ : k₁.unlink m = some k₂) :
    h.lift e = some { h with links := k₂ } := by
  obtain ⟨p, hp, rfl⟩ := Option.map_eq_some_iff.mp h₁
  obtain ⟨q, hq, rfl⟩ := Option.map_eq_some_iff.mp h₂
  rw [Links.setPrevOfNext_next] at hnext
  obtain ⟨n, hn⟩ := Option.ne_none_iff_exists'.mp hnext
  rw [Links.setPrevOfNext_of_next hn, hp] at hq ⊢
  simp only [lift, hm, hp, hn, hq, Links.setNext_prev, Option.bind_eq_bind, Option.bind_some,
    Option.pure_def]

/-- `unlift` links the return in again and then the call. -/
theorem unlift_eq (hm : (h.node e).matching = some m) (hnext : k₂.next e ≠ none)
    (h₁ : h.links.relink m = some k₁) (h₂ : k₁.relink e = some k₂) :
    h.unlift e = some { h with links := k₂ } := by
  obtain ⟨q, hq, rfl⟩ := Option.map_eq_some_iff.mp h₁
  obtain ⟨p, hp, rfl⟩ := Option.map_eq_some_iff.mp h₂
  rw [Links.setPrevOfNext_next] at hnext
  obtain ⟨n, hn⟩ := Option.ne_none_iff_exists'.mp hnext
  simp only [unlift, hm, hq, hp, hn, Option.bind_eq_bind, Option.bind_some, Option.pure_def]
  rw [Links.setPrevOfNext_of_next hn]

/-- **A call and its return can be lifted out of the list, and put back.** The other nodes stay
linked in order, and `unlift` restores the heap as it was. -/
theorem lift_linked (hA : A ≠ []) (hm : (h.node e).matching = some m)
    (hl : h.links.Linked (A ++ e :: Q ++ m :: R)) (hnodup : (A ++ e :: Q ++ m :: R).Nodup) :
    ∃ k, h.lift e = some { h with links := k } ∧ k.Linked (A ++ Q ++ R) ∧
      Heap.unlift { h with links := k } e = some h := by
  rw [List.append_assoc, List.cons_append] at hl hnodup
  obtain ⟨k₁, h₁, hl₁, hkeep, hback₁⟩ := hl.unlink hA hnodup
  rw [← List.append_assoc] at hl₁
  have hsub : (A ++ Q ++ m :: R).Sublist (A ++ e :: (Q ++ m :: R)) := by
    rw [List.append_assoc]
    exact List.Sublist.append_left (List.sublist_cons_self _ _) A
  obtain ⟨k₂, h₂, hl₂, -, hback₂⟩ := hl₁.unlink (by simp [hA]) (hnodup.sublist hsub)
  have hnext : h.links.next e ≠ none := by
    rw [hl.next_eq]
    cases Q <;> simp
  exact ⟨k₂, lift_eq hm (hkeep ▸ hnext) h₁ h₂, hl₂, unlift_eq hm hnext hback₂ hback₁⟩

/-! ## Counting the nodes and putting a head in front of them -/

theorem lengthFrom_eq {l : List Nat} :
    ∀ {fuel c : Nat}, h.links.Linked l → l.length ≤ fuel →
      h.lengthFrom fuel l.head? c = some (c + l.length) := by
  induction l with
  | nil => exact fun _ _ => by rw [List.head?_nil, lengthFrom]; rfl
  | cons a l ih =>
      intro fuel c hl hfuel
      obtain ⟨fuel, rfl⟩ : ∃ k, fuel = k + 1 := ⟨fuel - 1, by rw [List.length_cons] at hfuel; omega⟩
      obtain ⟨hnext, -, htail⟩ := Links.linked_cons_iff.mp hl
      rw [List.head?_cons, lengthFrom, hnext, ih htail (by simpa using hfuel), List.length_cons]
      congr 1
      omega

theorem length_eq {l : List Nat} {fuel : Nat} (hl : h.links.Linked l) (hfuel : l.length ≤ fuel) :
    h.length fuel l.head? = some l.length := by
  rw [length, lengthFrom_eq hl hfuel, Nat.zero_add]

@[simp] theorem insertBefore_node (h : Heap V) (n : Nat) (mark : Option Nat) :
    (h.insertBefore n mark).node = h.node := by
  cases mark with
  | none => rfl
  | some a =>
      dsimp only [insertBefore]
      split <;> rfl

/-- A new node put before a node that is the first. -/
theorem insertBefore_new_links {a : Nat} (hne : a ≠ h.size) (hfirst : h.links.prev a = none)
    (n : Node V) : ((h.new n).1.insertBefore h.size (some a)).links
      = ((h.new n).1.links.setPrev a (some h.size)).setNext h.size (some a) := by
  have hnil : (h.new n).1.links.prev a = none := (Function.update_of_ne hne _ _).trans hfirst
  rw [insertBefore]
  simp only [hnil]

/-- A new node put before the first node of a list is the first of the longer list. -/
theorem insertBefore_new_linked {l : List Nat} (hl : h.links.Linked l) (hnodup : l.Nodup)
    (hsize : ∀ a ∈ l, a < h.size) (hfirst : ∀ a, l.head? = some a → h.links.prev a = none)
    (n : Node V) : ((h.new n).1.insertBefore h.size l.head?).links.Linked (h.size :: l) := by
  cases l with
  | nil =>
      show Function.update h.links.next h.size none h.size = none
      exact Function.update_self _ _ _
  | cons a l =>
      have hne : a ≠ h.size := Nat.ne_of_lt (hsize a List.mem_cons_self)
      rw [List.head?_cons, insertBefore_new_links hne (hfirst a rfl)]
      refine Links.linked_cons_iff.mpr ⟨Function.update_self _ _ _, ?_, hl.congr ?_ ?_⟩
      · rintro b ⟨⟩
        exact Function.update_self _ _ _
      · intro b hb
        have hb' : b ≠ h.size := Nat.ne_of_lt (hsize b hb)
        exact (Function.update_of_ne hb' _ _).trans (Function.update_of_ne hb' _ _)
      · intro b hb
        have hb' : b ≠ h.size := Nat.ne_of_lt (hsize b (List.mem_cons_of_mem _ hb))
        have hba : b ≠ a := fun heq => (List.nodup_cons.mp hnodup).1 (heq ▸ hb)
        exact (Function.update_of_ne hba _ _).trans (Function.update_of_ne hb' _ _)

end Heap

end RaftLab.Linearizability
