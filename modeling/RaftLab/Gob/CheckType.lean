import RaftLab.Lib.Explore
import RaftLab.Lib.Run

set_option autoImplicit false

/-! # The capitalization check

`labgob` warns about struct fields whose names do not begin with a capital letter. `checkType`
goes through a type and the types it is made of, which may be recursive, and keeps the types it has
begun with in the map `checked`, which outlives the call.

The types are the nodes of a graph: `kind` is what `reflect` shows of a type. Depth-first search
does not end by the shape of its input, so `checkType` has a bound on the depth of its recursion and
is `none` beyond it; `checkType_returns` shows that more than the number of types is enough.

The calls are sequential, so the lock around `checked` and `errorCount` does not appear. A Go map
to `bool` is the set of its keys that are `true`.
-/

namespace RaftLab.Gob

open Explore (Explores Reaches gained)

variable {T : Type}

structure Field (T : Type) where
  name : String
  type : T

/-- `t.Kind()` with the parts of the type that the kind has; kinds without parts that are looked
at are `other`. -/
inductive Kind (T : Type) where
  | struct (fields : List (Field T))
  | slice (elem : T)
  | array (elem : T)
  | ptr (elem : T)
  | map (key elem : T)
  | other

/-- The types and what `reflect` shows of them. -/
structure Types (T : Type) where
  kind : T → Kind T
  name : T → String

/-- The variables of the package, with the lines printed so far. -/
structure Checker (T : Type) where
  checked : Finset T
  errorCount : Nat
  printed : List String

/-- The first character of a string; of the empty string it is the replacement character. -/
def decodeRuneInString (s : String) : Char := s.toList.head?.getD (Char.ofNat 0xFFFD)

def message (field type : String) : String :=
  "labgob error: lower-case field " ++ field ++ " of " ++ type ++
    " in RPC or persist/snapshot will break your Raft\n"

namespace Types

variable [DecidableEq T] (g : Types T) (isUpper : Char → Bool)

/-- The test of a field's name, with the complaint. `isUpper` is `unicode.IsUpper`. -/
def checkField (t : T) (c : Checker T) (f : Field T) : Checker T :=
  if isUpper (decodeRuneInString f.name) == false then
    { c with
      errorCount := c.errorCount + 1
      printed := c.printed ++ [message f.name (g.name t)] }
  else c

def checkType : Nat → Checker T → T → Option (Checker T)
  | 0, _, _ => none
  | depth + 1, c, t =>
      -- only complain once, and avoid recursion
      if t ∈ c.checked then some c
      else
        let c := { c with checked := insert t c.checked }
        match g.kind t with
        | .struct fields =>
            Machine.run (fun c f => checkType depth (g.checkField isUpper t c f) f.type) c fields
        | .slice elem => checkType depth c elem
        | .array elem => checkType depth c elem
        | .ptr elem => checkType depth c elem
        | .map key elem => do
            let c ← checkType depth c elem
            checkType depth c key
        | .other => some c

/-! ## What a call does -/

/-- The types that a type is made of, in the order in which they are checked. -/
def parts (t : T) : List T :=
  match g.kind t with
  | .struct fields => fields.map Field.type
  | .slice elem => [elem]
  | .array elem => [elem]
  | .ptr elem => [elem]
  | .map key elem => [elem, key]
  | .other => []

/-- The fields of a struct type whose names do not begin with a capital letter. -/
def lowerCaseFields (t : T) : List (Field T) :=
  match g.kind t with
  | .struct fields => fields.filter fun f => isUpper (decodeRuneInString f.name) == false
  | _ => []

/-- The line is about a lower-case field of a type in `S`. -/
def Complains (S : Finset T) (line : String) : Prop :=
  ∃ t ∈ S, ∃ f ∈ g.lowerCaseFields isUpper t, line = message f.name (g.name t)

/-- The checker has gone from `c` to `c'` by checking `roots`. Besides the lower-case fields of the
types that were checked in between, `own` more were counted; and there is a line for each. -/
structure Checks (roots : List T) (own : Nat) (c c' : Checker T) : Prop where
  explores : Explores g.parts roots c.checked c'.checked
  errorCount : c'.errorCount = c.errorCount
    + (own + gained (fun t => (g.lowerCaseFields isUpper t).length) c.checked c'.checked)
  printed : ∃ lines, c'.printed = c.printed ++ lines ∧
    c.errorCount + lines.length = c'.errorCount ∧
    ∀ line ∈ lines, g.Complains isUpper c'.checked line

variable {g isUpper} {roots roots' : List T} {own own' : Nat} {c c' c'' : Checker T} {t : T}

omit [DecidableEq T] in
theorem Complains.mono {S S' : Finset T} {line : String} (h : g.Complains isUpper S line)
    (hsub : S ⊆ S') : g.Complains isUpper S' line := by
  obtain ⟨t, ht, hf⟩ := h
  exact ⟨t, hsub ht, hf⟩

namespace Checks

/-- Nothing was marked and nothing was said. -/
theorem of_explores (h : Explores g.parts roots c.checked c.checked) :
    g.Checks isUpper roots 0 c c where
  explores := h
  errorCount := by rw [Explore.gained_self]; rfl
  printed := ⟨[], by simp, by simp, by simp⟩

theorem append (h : g.Checks isUpper roots own c c') (h' : g.Checks isUpper roots' own' c' c'') :
    g.Checks isUpper (roots ++ roots') (own + own') c c'' where
  explores := h.explores.append h'.explores
  errorCount := by
    rw [h'.errorCount, h.errorCount,
      ← Explore.gained_add _ h.explores.subset h'.explores.subset]
    omega
  printed := by
    obtain ⟨lines, hprinted, hlength, hlines⟩ := h.printed
    obtain ⟨lines', hprinted', hlength', hlines'⟩ := h'.printed
    refine ⟨lines ++ lines', ?_, ?_, fun line hline => ?_⟩
    · rw [hprinted', hprinted, List.append_assoc]
    · rw [List.length_append]
      omega
    · rcases List.mem_append.mp hline with hline | hline
      · exact (hlines line hline).mono h'.explores.subset
      · exact hlines' line hline

/-- The name of one field is tested. -/
theorem checkField {f : Field T} (ht : t ∈ c.checked)
    (hf : f ∈ g.lowerCaseFields isUpper t ∨ isUpper (decodeRuneInString f.name) = true) :
    g.Checks isUpper [] (if isUpper (decodeRuneInString f.name) then 0 else 1) c
      (g.checkField isUpper t c f) := by
  unfold Types.checkField
  cases hupper : isUpper (decodeRuneInString f.name) with
  | true => exact of_explores (Explores.nil _ _)
  | false =>
      have hlower : f ∈ g.lowerCaseFields isUpper t := hf.resolve_right (by simp [hupper])
      rw [if_pos (by rfl : (false == false) = true)]
      refine ⟨Explores.nil _ _, ?_, [message f.name (g.name t)], rfl, rfl, ?_⟩
      · rw [Explore.gained_self]
        rfl
      · intro line hline
        exact ⟨t, ht, f, hlower, List.mem_singleton.mp hline⟩

/-- A type is marked, its own fields are counted and its parts are checked. -/
theorem visit (ht : t ∉ c.checked)
    (h : g.Checks isUpper (g.parts t) (g.lowerCaseFields isUpper t).length
      { c with checked := insert t c.checked } c') : g.Checks isUpper [t] 0 c c' where
  explores := h.explores.visit
  errorCount := by
    rw [h.errorCount, ← Explore.gained_insert _ ht h.explores.subset, Nat.zero_add]
  printed := h.printed

end Checks

/-! ## Every call returns -/

/-- The fields of a struct, one after the other, when each call under them returns. -/
theorem run_fields_checks {check : Checker T → T → Option (Checker T)} {bound : Nat} [Fintype T]
    (hcheck : ∀ c t, c.checkedᶜ.card < bound →
      ∃ c', check c t = some c' ∧ g.Checks isUpper [t] 0 c c')
    {fields : List (Field T)} :
    ∀ {c : Checker T}, c.checkedᶜ.card < bound → t ∈ c.checked →
      (∀ f ∈ fields, f ∈ g.lowerCaseFields isUpper t ∨
        isUpper (decodeRuneInString f.name) = true) →
      ∃ c', Machine.run (fun c f => check (g.checkField isUpper t c f) f.type) c fields = some c' ∧
        g.Checks isUpper (fields.map Field.type)
          (fields.filter fun f => isUpper (decodeRuneInString f.name) == false).length c c' := by
  induction fields with
  | nil => exact fun {c} _ _ _ => ⟨c, rfl, .of_explores (Explores.nil _ _)⟩
  | cons f fields ih =>
      intro c hbound ht hfields
      have hfield := Checks.checkField ht (hfields f List.mem_cons_self)
      have hbound₁ := Nat.lt_of_le_of_lt hfield.explores.card_compl_le hbound
      obtain ⟨c₁, hrun₁, hone⟩ := hcheck _ f.type hbound₁
      have hfirst := hfield.append hone
      obtain ⟨c₂, hrun₂, hrest⟩ := ih
        (Nat.lt_of_le_of_lt hfirst.explores.card_compl_le hbound)
        (hfirst.explores.subset ht) (fun f' hf' => hfields f' (List.mem_cons_of_mem _ hf'))
      refine ⟨c₂, ?_, ?_⟩
      · rw [Machine.run, hrun₁, Option.bind_some]
        exact hrun₂
      · have hall := hfirst.append hrest
        rw [List.filter_cons]
        cases hupper : isUpper (decodeRuneInString f.name) <;> rw [hupper] at hall
        · simpa [Nat.add_comm] using hall
        · simpa using hall

/-- **Each call returns**, when its depth is bounded by more than the types that are not checked
yet, and checks its type. -/
theorem checkType_returns [Fintype T] (depth : Nat) :
    ∀ (c : Checker T) (t : T), c.checkedᶜ.card < depth →
      ∃ c', g.checkType isUpper depth c t = some c' ∧ g.Checks isUpper [t] 0 c c' := by
  induction depth with
  | zero => exact fun c t h => absurd h (Nat.not_lt_zero _)
  | succ depth ih =>
      intro c t hdepth
      rw [checkType]
      by_cases ht : t ∈ c.checked
      · rw [if_pos ht]
        exact ⟨c, rfl, .of_explores (Explores.pass _ ht)⟩
      · rw [if_neg ht]
        -- the type itself is marked now, so one less is left for the calls inside
        have hleft : (insert t c.checked)ᶜ.card < depth := by
          have hmem : t ∈ c.checkedᶜ := Finset.mem_compl.mpr ht
          rw [Finset.compl_insert, Finset.card_erase_of_mem hmem]
          have := Finset.card_pos.mpr ⟨t, hmem⟩
          omega
        have hself : t ∈ insert t c.checked := Finset.mem_insert_self t c.checked
        have hpart := fun u => ih { c with checked := insert t c.checked } u hleft
        have hvisit : ∀ {c'}, g.Checks isUpper (g.parts t) (g.lowerCaseFields isUpper t).length
            { c with checked := insert t c.checked } c' → g.Checks isUpper [t] 0 c c' :=
          Checks.visit ht
        unfold parts lowerCaseFields at hvisit
        cases hkind : g.kind t <;> rw [hkind] at hvisit <;> dsimp only at hvisit ⊢
        case struct fields =>
          have hlower : ∀ f ∈ fields, f ∈ g.lowerCaseFields isUpper t ∨
              isUpper (decodeRuneInString f.name) = true := by
            intro f hf
            cases hupper : isUpper (decodeRuneInString f.name) with
            | true => exact .inr rfl
            | false => exact .inl (by simp [lowerCaseFields, hkind, hf, hupper])
          obtain ⟨c', hrun, hchecks⟩ := run_fields_checks ih
            (c := { c with checked := insert t c.checked }) hleft hself hlower
          exact ⟨c', hrun, hvisit hchecks⟩
        case map key elem =>
          obtain ⟨c₁, hrun₁, hfirst⟩ := hpart elem
          obtain ⟨c₂, hrun₂, hsecond⟩ := ih c₁ key
            (Nat.lt_of_le_of_lt hfirst.explores.card_compl_le hleft)
          exact ⟨c₂, by rw [hrun₁]; exact hrun₂, hvisit (hfirst.append hsecond)⟩
        case other =>
          exact ⟨_, rfl, hvisit (.of_explores (Explores.nil _ _))⟩
        all_goals
          obtain ⟨c', hrun, hchecks⟩ := hpart _
          exact ⟨c', hrun, hvisit hchecks⟩

/-- A call that returns within a depth returns the same within a larger one. -/
theorem checkType_succ {depth : Nat} :
    ∀ {c c' : Checker T} {t : T}, g.checkType isUpper depth c t = some c' →
      g.checkType isUpper (depth + 1) c t = some c' := by
  induction depth with
  | zero => exact fun h => nomatch h
  | succ depth ih =>
      intro c c' t h
      rw [checkType] at h ⊢
      by_cases ht : t ∈ c.checked
      · rwa [if_pos ht] at h ⊢
      · rw [if_neg ht] at h ⊢
        cases hkind : g.kind t <;> rw [hkind] at h <;> dsimp only at h ⊢
        case struct fields => exact Machine.run_of_imp (fun _ _ _ hs => ih hs) h
        case map key elem =>
          obtain ⟨c₁, hfirst, hsecond⟩ := Option.bind_eq_some_iff.mp h
          exact Option.bind_eq_some_iff.mpr ⟨c₁, ih hfirst, ih hsecond⟩
        case other => exact h
        all_goals exact ih h

theorem checkType_of_le {depth depth' : Nat} (hle : depth ≤ depth') {c c' : Checker T} {t : T}
    (h : g.checkType isUpper depth c t = some c') : g.checkType isUpper depth' c t = some c' := by
  induction depth', hle using Nat.le_induction with
  | base => exact h
  | succ _ _ ih => exact checkType_succ ih

variable (g isUpper roots) in
/-- Calls one after the other. -/
theorem run_checkType_returns [Fintype T] {depth : Nat} :
    ∀ {c : Checker T}, c.checkedᶜ.card < depth →
      ∃ c', Machine.run (g.checkType isUpper depth) c roots = some c' ∧
        g.Checks isUpper roots 0 c c' := by
  induction roots with
  | nil => exact fun {c} _ => ⟨c, rfl, .of_explores (Explores.nil _ _)⟩
  | cons t roots ih =>
      intro c hdepth
      obtain ⟨c₁, hrun₁, hfirst⟩ := checkType_returns depth c t hdepth
      obtain ⟨c₂, hrun₂, hrest⟩ := ih (Nat.lt_of_le_of_lt hfirst.explores.card_compl_le hdepth)
      exact ⟨c₂, by rw [Machine.run, hrun₁, Option.bind_some]; exact hrun₂, hfirst.append hrest⟩

variable (g isUpper) in
/-- **The check visits every reachable type once.** From an empty map, any sequence of calls
returns, within a depth that depends only on the number of types. Then exactly the types that can
be reached from those of the calls are checked, `errorCount` has grown by the number of their
lower-case fields, and a line was printed for each. -/
theorem checkType_visits_reachable [Fintype T] (roots : List T) (errorCount : Nat)
    (printed : List String) :
    ∃ c', (∀ depth, Fintype.card T < depth →
        Machine.run (g.checkType isUpper depth) ⟨∅, errorCount, printed⟩ roots = some c') ∧
      (∀ t, t ∈ c'.checked ↔ ∃ r ∈ roots, Reaches g.parts r t) ∧
      c'.errorCount
        = errorCount + ∑ t ∈ c'.checked, (g.lowerCaseFields isUpper t).length ∧
      ∃ lines, c'.printed = printed ++ lines ∧ errorCount + lines.length = c'.errorCount ∧
        ∀ line ∈ lines, g.Complains isUpper c'.checked line := by
  have hcard : (∅ : Finset T)ᶜ.card < Fintype.card T + 1 := by
    rw [Finset.compl_empty, Finset.card_univ]
    exact Nat.lt_succ_self _
  obtain ⟨c', hrun, hchecks⟩ := run_checkType_returns g isUpper roots
    (c := ⟨∅, errorCount, printed⟩) hcard
  refine ⟨c', fun depth hdepth => ?_, fun t => ?_, ?_, hchecks.printed⟩
  · exact Machine.run_of_imp (fun _ _ _ hs => checkType_of_le hdepth hs) hrun
  · rw [hchecks.explores.mem_iff (fun _ hu => absurd hu (Finset.notMem_empty _))]
    simp
  · rw [hchecks.errorCount, gained, Finset.sdiff_empty, Nat.zero_add]

/-- The types of `TestCapital`: a slice of maps from pointers to a struct with the fields `Yes` and
`no`, and a pointer to a slice of maps from that struct. -/
def capital : Types (Fin 8) where
  kind := ![.slice 1, .map 2 3, .ptr 4, .other, .struct [⟨"Yes", 3⟩, ⟨"no", 3⟩], .slice 6, .map 4 3,
    .ptr 5]
  name := ![ "", "", "", "int", "T4", "", "", ""]

example : (Machine.run (capital.checkType Char.isUpper 9) ⟨∅, 0, []⟩ [0, 7]).map
    (fun c => c.errorCount) = some 1 := by decide

end Types

end RaftLab.Gob
