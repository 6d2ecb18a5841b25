import RaftLab.Lib.Locality
import RaftLab.Linearizability.Check

set_option autoImplicit false

/-! # The key-value model and its partition

`kvModel` describes one key's value: `partition` splits a history by key before it is checked.
`kvStore` is what the service promises, a map from all keys to strings. It is the family of
`kvModel`'s objects, so a history is linearizable for the store exactly when every group of its
partition is linearizable for the model.
-/

namespace RaftLab.Linearizability

variable {S I O : Type}

structure Operation (I O : Type) where
  input : I
  /-- invocation time -/
  call : Int
  output : O
  /-- response time -/
  ret : Int
  deriving DecidableEq

/-- The object that a model of inputs `I` and outputs `O` describes. -/
def Model.object (model : Model S (I ⊕ O)) : Object S (Operation I O) where
  init := model.init
  step s op := model.step s (.inl op.input) (.inr op.output)

/-- A history is linearizable for an object, at the times of its calls and returns. -/
def LinearizableFor (o : Object S (Operation I O)) (history : List (Operation I O)) : Prop :=
  o.Linearizable Operation.call Operation.ret history

/-! ## The model -/

structure KvInput where
  /-- 0 is get, 1 is put, 2 is append. -/
  op : UInt8
  key : String
  value : String
  deriving DecidableEq

structure KvOutput where
  value : String
  deriving DecidableEq

abbrev KvOperation := Operation KvInput KvOutput

/-- The map that `Partition` fills: the keys it has, and the slice at each key (nil at a key it
does not have). -/
structure KeyedSlices where
  keys : List String
  slice : String → List KvOperation

namespace KeyedSlices

def empty : KeyedSlices := ⟨[], fun _ => []⟩

/-- `m[key] = append(m[key], v)` -/
def append (m : KeyedSlices) (v : KvOperation) : KeyedSlices where
  keys := if v.input.key ∈ m.keys then m.keys else m.keys ++ [v.input.key]
  slice := Function.update m.slice v.input.key (m.slice v.input.key ++ [v])

end KeyedSlices

/-- The groups that `Partition` returns, in the order in which their keys first occur. The source
ranges over a map, so it may return them in any other order. -/
def partition (history : List KvOperation) : List (List KvOperation) :=
  let m := history.foldl KeyedSlices.append .empty
  m.keys.map m.slice

def kvModel : Model String (KvInput ⊕ KvOutput) where
  init := ""
  step st input output :=
    match input, output with
    | .inl inp, .inr out =>
        if inp.op = 0 then (out.value == st, st)
        else if inp.op = 1 then (true, inp.value)
        else (true, st ++ inp.value)
    -- a type assertion fails here; no operation has such a pair of values
    | _, _ => (false, st)
  equal s t := s == t

/-! ## The store -/

/-- The service: a map from keys to strings, in which an absent key reads as the empty string. -/
def kvStore : Object (String → String) KvOperation where
  init _ := ""
  step st op :=
    if op.input.op = 0 then (op.output.value == st op.input.key, st)
    else if op.input.op = 1 then (true, Function.update st op.input.key op.input.value)
    else (true, Function.update st op.input.key (st op.input.key ++ op.input.value))

/-- The store keeps one object of the model for each key. -/
theorem kvStore_eq_family : kvStore = kvModel.object.family fun op => op.input.key := by
  have hstep : kvStore.step = (kvModel.object.family fun op => op.input.key).step := by
    funext st op
    simp only [kvStore, Object.family, Model.object, kvModel]
    split_ifs
    · rw [Function.update_eq_self]
    · rfl
    · rfl
  exact congrArg (Object.mk fun _ => "") hstep

/-! ## The partition -/

/-- The map that a history has filled: every key's slice is the part of the history with that key,
and the keys are those that occur. -/
structure KeyedSlices.Holds (m : KeyedSlices) (history : List KvOperation) : Prop where
  slice_eq : ∀ k, m.slice k = history.filter fun op => op.input.key = k
  mem_keys : ∀ k, k ∈ m.keys ↔ ∃ op ∈ history, op.input.key = k

theorem KeyedSlices.Holds.append {m : KeyedSlices} {history : List KvOperation}
    (h : m.Holds history) (v : KvOperation) : (m.append v).Holds (history ++ [v]) := by
  constructor
  · intro k
    rw [List.filter_append, ← h.slice_eq k]
    show Function.update m.slice v.input.key _ k = _
    by_cases hk : v.input.key = k
    · subst hk
      simp
    · rw [Function.update_of_ne (Ne.symm hk)]
      simp [hk]
  · intro k
    have hkeys : k ∈ (m.append v).keys ↔ k ∈ m.keys ∨ v.input.key = k := by
      show k ∈ (if _ then _ else _) ↔ _
      split_ifs with hmem
      · exact ⟨.inl, fun hk => hk.elim id fun hk => hk ▸ hmem⟩
      · simp [eq_comm]
    rw [hkeys, h.mem_keys]
    simp [or_and_right, exists_or]

theorem KeyedSlices.holds_foldl (history : List KvOperation) :
    (history.foldl KeyedSlices.append .empty).Holds history := by
  -- the loop has read a prefix of the history: induction from the back
  induction history using List.reverseRecOn with
  | nil => exact ⟨fun _ => rfl, fun k => by simp [KeyedSlices.empty]⟩
  | append_singleton history v ih =>
      rw [List.foldl_append]
      exact ih.append v

/-- A group of the partition is the part of the history with one of its keys. -/
theorem mem_partition {history g : List KvOperation} :
    g ∈ partition history ↔
      ∃ k, (∃ op ∈ history, op.input.key = k) ∧
        history.filter (fun op => op.input.key = k) = g := by
  have h := KeyedSlices.holds_foldl history
  simp only [partition, List.mem_map, h.mem_keys, h.slice_eq]

/-- The store keeps the keys apart: its history is linearizable when the part of every key is. -/
theorem linearizable_store_iff {history : List KvOperation}
    (hcall : ∀ op ∈ history, op.call ≤ op.ret) {groups : List (List KvOperation)}
    (hgroups : groups.Perm (partition history)) :
    LinearizableFor kvStore history ↔ ∀ g ∈ groups, LinearizableFor kvModel.object g := by
  unfold LinearizableFor
  rw [kvStore_eq_family, kvModel.object.linearizable_family_iff hcall]
  constructor
  · intro h g hg
    obtain ⟨k, -, rfl⟩ := mem_partition.mp (hgroups.mem_iff.mp hg)
    exact h k
  · intro h k
    by_cases hk : ∃ op ∈ history, op.input.key = k
    · exact h _ (hgroups.mem_iff.mpr (mem_partition.mpr ⟨k, hk, rfl⟩))
    · -- a key that does not occur has no group
      have hnil : history.filter (fun op => op.input.key = k) = [] := by
        simpa using hk
      rw [hnil]
      exact Object.linearizable_nil _ _ _

/-- **Checking key by key.** A history is linearizable for the store if and only if every group
that `Partition` returns, in whatever order, is linearizable for the model. -/
theorem store_linearizable_iff_groups {history : List KvOperation}
    (hcall : ∀ op ∈ history, op.call < op.ret) {groups : List (List KvOperation)}
    (hgroups : groups.Perm (partition history)) :
    LinearizableFor kvStore history ↔ ∀ g ∈ groups, LinearizableFor kvModel.object g :=
  linearizable_store_iff (fun op hop => le_of_lt (hcall op hop)) hgroups

/-- Two keys: the read of `y` overlaps the write of `x`. -/
def twoKeys : List KvOperation :=
  [⟨⟨1, "x", "a"⟩, 0, ⟨""⟩, 3⟩, ⟨⟨0, "y", ""⟩, 1, ⟨""⟩, 2⟩, ⟨⟨0, "x", ""⟩, 4, ⟨"a"⟩, 5⟩]

theorem store_linearizable_iff_groups_twoKeys : LinearizableFor kvStore twoKeys := by
  refine (store_linearizable_iff_groups (by decide) (List.Perm.refl (partition twoKeys))).mpr ?_
  intro g hg
  have hparts : partition twoKeys =
      [[⟨⟨1, "x", "a"⟩, 0, ⟨""⟩, 3⟩, ⟨⟨0, "x", ""⟩, 4, ⟨"a"⟩, 5⟩],
        [⟨⟨0, "y", ""⟩, 1, ⟨""⟩, 2⟩]] := by decide
  rw [hparts] at hg
  rcases List.mem_pair.mp hg with rfl | rfl
  · exact ⟨_, List.Perm.refl _, by unfold InRealTime; decide, rfl, rfl, trivial⟩
  · exact ⟨_, List.Perm.refl _, by unfold InRealTime; decide, rfl, trivial⟩

end RaftLab.Linearizability
