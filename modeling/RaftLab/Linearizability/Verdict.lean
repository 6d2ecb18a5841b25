import RaftLab.Linearizability.Entries

set_option autoImplicit false

/-! # The verdict on a list of entries

`Lists es ops` says that the entries `es` are those of the numbered operations `ops`, in any order.
The verdict of `checkSingle` on them is settled for every such order (`Lists.verdict`): it is `true`
exactly when every call stands before its return and the operations can be put in an order that the
model accepts and in which none stands before one whose return stands before its call.
-/

namespace RaftLab.Linearizability

variable {S I O : Type}

/-- The value of a call is the input of its operation, that of a return the output. -/
def valueOf : EntryKind → Operation I O → I ⊕ O
  | .call, op => .inl op.input
  | .ret, op => .inr op.output

/-- The entries are those of the operations, which are numbered from 0 on in some way. -/
structure Lists (es : List (Entry (I ⊕ O))) (ops : List (Operation I O × Nat)) : Prop
    extends Complete es ops.length where
  ids : (ops.map Prod.snd).Perm (List.range ops.length)
  value : ∀ e ∈ es, ∀ p ∈ ops, e.id = p.2 → e.value = valueOf e.kind p.1

/-- Uninterrupted, `checkSingle` returns `b` on the linked history. -/
def Answers {V : Type} [Inhabited V] (model : Model S V) (linked : Heap V × Option Nat)
    (b : Bool) : Prop :=
  ∃ N, ∀ fuel, N ≤ fuel → checkSingle model (fun _ => false) fuel linked.1 linked.2 = some b

theorem Answers.unique {V : Type} [Inhabited V] {model : Model S V} {linked : Heap V × Option Nat}
    {b b' : Bool} (h : Answers model linked b) (h' : Answers model linked b') : b = b' := by
  obtain ⟨N, hN⟩ := h
  obtain ⟨N', hN'⟩ := h'
  exact Option.some.inj ((hN _ (Nat.le_max_left N N')).symm.trans (hN' _ (Nat.le_max_right N N')))

/-- On a complete list of entries there is an answer, whatever the model does. -/
theorem Complete.answers {V : Type} [Inhabited V] {es : List (Entry V)} {n : Nat}
    (h : Complete es n) (model : Model S V) : ∃ b, Answers model (makeLinkedEntries es) b := by
  obtain ⟨N, b, hb⟩ := h.chained.checkSingle_answers model
  exact ⟨b, N, hb⟩

namespace Lists

variable {es : List (Entry (I ⊕ O))} {ops : List (Operation I O × Nat)}

theorem id_lt (h : Lists es ops) {p : Operation I O × Nat} (hp : p ∈ ops) : p.2 < ops.length :=
  List.mem_range.mp (h.ids.mem_iff.mp (List.mem_map_of_mem hp))

variable [Inhabited (I ⊕ O)]

/-- The operation at a number is the one with that number. -/
theorem operation_eq (h : Lists es ops) {p : Operation I O × Nat} (hp : p ∈ ops) :
    operation (makeLinkedEntries es).1.node (fun i => address es (.call, i))
      (fun i => address es (.ret, i)) p.2 = (.inl p.1.input, .inr p.1.output) := by
  have hvalue : ∀ kind, ((makeLinkedEntries es).1.node (address es (kind, p.2))).value
      = valueOf kind p.1 := by
    intro kind
    obtain ⟨e, he, hkind, hid⟩ := h.exists_entry kind (h.id_lt hp)
    have hlabel : e.label = (kind, p.2) := Prod.ext hkind hid
    rw [← hlabel, node_address h.nodup he, h.value e he p hp hid, hkind]
  exact Prod.ext (hvalue .call) (hvalue .ret)

/-- If some call stands behind its return, the search has no solution. -/
theorem not_solvable {model : Model S (I ⊕ O)} (h : Lists es ops) {i : Nat} (hi : i < ops.length)
    (horder : ¬ Precedes (es.map Entry.label) (.call, i) (.ret, i)) :
    ¬ (orderProblem model (withHead (makeLinkedEntries es).1) (addresses es.length)).Solvable
      (∅, model.init) := by
  obtain ⟨e, he, -, rfl⟩ := h.exists_entry .call hi
  have hc := h.chained
  have hmem : address es e.label ∈ addresses es.length :=
    (mem_addresses_iff h.nodup).mpr ⟨e, he, rfl⟩
  refine not_solvable_of_unmatched hmem (fun x hx hsame => ?_) (Finset.notMem_empty _)
  rw [hc.withHead_eq hx, hc.withHead_eq hmem, id_address h.nodup he] at hsame
  rw [hc.withHead_eq hx]
  obtain ⟨e', he', rfl⟩ := (mem_addresses_iff h.nodup).mp hx
  rw [id_address h.nodup he'] at hsame
  rw [node_address h.nodup he', hsame]
  exact if_neg fun hcall => horder hcall.2

end Lists

/-- In the order no operation stands before one whose return stands before its call. -/
def RespectsEntries (es : List (Entry (I ⊕ O))) (order : List (Operation I O × Nat)) : Prop :=
  order.Pairwise fun p q => ¬ Precedes (es.map Entry.label) (.ret, q.2) (.call, p.2)

theorem Model.accepts_iff_object (model : Model S (I ⊕ O)) (ops : List (Operation I O)) (s : S) :
    model.Accepts s (ops.map fun op => (.inl op.input, .inr op.output)) ↔
      model.object.Accepts s ops := by
  induction ops generalizing s with
  | nil => exact Iff.rfl
  | cons op ops ih => exact and_congr_right fun _ => ih _

section Verdict

variable {es : List (Entry (I ⊕ O))} {ops : List (Operation I O × Nat)} {model : Model S (I ⊕ O)}
  [Inhabited (I ⊕ O)]

theorem Lists.completes_iff (h : Lists es ops) :
    (∃ order, Completes model (makeLinkedEntries es).1.node ops.length (addresses es.length)
        (fun i => address es (.call, i)) (fun i => address es (.ret, i)) ∅ model.init order) ↔
      ∃ order : List (Operation I O × Nat), order.Perm ops ∧ RespectsEntries es order ∧
        model.object.Accepts model.init (order.map Prod.fst) := by
  have hprec : ∀ i j, i < ops.length → j < ops.length →
      (Precedes (addresses es.length) (address es (.ret, j)) (address es (.call, i)) ↔
        Precedes (es.map Entry.label) (.ret, j) (.call, i)) := fun i j hi hj =>
    precedes_address_iff h.nodup ((h.mem _).mpr hj) ((h.mem _).mpr hi)
  have hops : ∀ order : List (Operation I O × Nat), order.Perm ops →
      (order.map Prod.snd).map (operation (makeLinkedEntries es).1.node
        (fun i => address es (.call, i)) (fun i => address es (.ret, i)))
      = (order.map Prod.fst).map fun op => (.inl op.input, .inr op.output) := by
    intro order hperm
    rw [List.map_map, List.map_map]
    exact List.map_congr_left fun p hp => h.operation_eq (hperm.mem_iff.mp hp)
  constructor
  · rintro ⟨order, hnodup, hmem, htime, haccepts⟩
    -- the numbers in the order, each with its operation
    have hrange : order.Perm (ops.map Prod.snd) := by
      refine List.Perm.trans ?_ h.ids.symm
      refine (List.perm_ext_iff_of_nodup hnodup List.nodup_range).mpr fun i => ?_
      rw [hmem, List.mem_range]
      simp
    obtain ⟨order, hperm, rfl⟩ := Object.exists_perm_map_eq hrange
    refine ⟨order, hperm, ?_, ?_⟩
    · refine List.Pairwise.imp_of_mem (fun {p q} hp hq hno => ?_) (List.pairwise_map.mp htime)
      rwa [← hprec _ _ (h.id_lt (hperm.mem_iff.mp hp)) (h.id_lt (hperm.mem_iff.mp hq))]
    · rwa [hops order hperm, model.accepts_iff_object] at haccepts
  · rintro ⟨order, hperm, htime, haccepts⟩
    have hids : (order.map Prod.snd).Perm (List.range ops.length) :=
      (hperm.map Prod.snd).trans h.ids
    refine ⟨order.map Prod.snd, hids.nodup_iff.mpr List.nodup_range, fun i => ?_,
      List.pairwise_map.mpr ?_, ?_⟩
    · rw [hids.mem_iff, List.mem_range]
      simp
    · refine List.Pairwise.imp_of_mem (fun {p q} hp hq hno => ?_) htime
      rwa [hprec _ _ (h.id_lt (hperm.mem_iff.mp hp)) (h.id_lt (hperm.mem_iff.mp hq))]
    · rwa [hops order hperm, model.accepts_iff_object]

/-- **The verdict.** On the entries of a history, in any order, `checkSingle` returns, and it
returns `true` exactly when every call stands before its return and the operations have an order
that respects the entries and that the model accepts. -/
theorem Lists.verdict (hm : model.Respects) (h : Lists es ops) :
    ∃ b, Answers model (makeLinkedEntries es) b ∧ (b = true ↔
      (∀ i < ops.length, Precedes (es.map Entry.label) (.call, i) (.ret, i)) ∧
      ∃ order : List (Operation I O × Nat), order.Perm ops ∧ RespectsEntries es order ∧
        model.object.Accepts model.init (order.map Prod.fst)) := by
  obtain ⟨b, hanswers, hiff⟩ := h.chained.checkSingle_decides hm
  refine ⟨b, hanswers, ?_⟩
  by_cases horder : ∀ i < ops.length, Precedes (es.map Entry.label) (.call, i) (.ret, i)
  · rw [hiff, (h.wellFormed horder).solvable_iff, h.completes_iff]
    exact (and_iff_right horder).symm
  · rw [hiff]
    refine iff_of_false ?_ fun htrue => horder htrue.1
    push Not at horder
    obtain ⟨i, hi, hno⟩ := horder
    exact h.not_solvable hi hno

end Verdict

end RaftLab.Linearizability
