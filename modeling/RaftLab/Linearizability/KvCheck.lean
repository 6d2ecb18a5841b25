import RaftLab.Linearizability.Collect

set_option autoImplicit false

/-! # Checking the key-value service

What the two entry points say about a history of the key-value service in which every operation
takes time and no two timestamps are the same. `CheckOperations` splits it by key, so its verdict is
about the store of all keys; a `false` is right even with a timeout. `KvModel` has no partition of
events, so `CheckEvents` takes all operations for operations on one key.
-/

namespace RaftLab.Linearizability

open Machine

/-- All timestamps of the history. -/
def timestamps (history : List KvOperation) : List Int :=
  history.flatMap fun op => [op.call, op.ret]

/-- The history is one of the service: operations take time, and timestamps are distinct. -/
structure Timed (history : List KvOperation) : Prop where
  call_lt : ∀ op ∈ history, op.call < op.ret
  distinct : (timestamps history).Nodup

/-- Of distinct times that do not go back the second is later. -/
theorem Timed.of_le {history : List KvOperation} (hle : ∀ op ∈ history, op.call ≤ op.ret)
    (hdistinct : (timestamps history).Nodup) : Timed history where
  call_lt op hop := by
    have hne := (List.nodup_flatMap.mp hdistinct).1 op hop
    exact lt_of_le_of_ne (hle op hop) (by simpa using hne)
  distinct := hdistinct

theorem Timed.untied {history : List KvOperation} (h : Timed history) :
    ∀ a ∈ history, ∀ b ∈ history, a.ret ≠ b.call := by
  intro a ha b hb heq
  by_cases hab : a = b
  · subst hab
    exact absurd heq (ne_of_gt (h.call_lt a ha))
  · have hdisjoint := (List.nodup_flatMap.mp h.distinct).2
    have hsymm : Std.Symm
        (Function.onFun List.Disjoint fun op : KvOperation => [op.call, op.ret]) :=
      ⟨fun _ _ h => h.symm⟩
    have hret : a.ret ∈ [a.call, a.ret] := by simp
    refine hdisjoint.forall ha hb hab hret ?_
    rw [heq]
    exact List.mem_cons_self

/-- A part of the history is timed, too. -/
theorem verdict_of_subset {history g : List KvOperation} (h : Timed history)
    (hsub : ∀ op ∈ g, op ∈ history) {es : List (Entry (KvInput ⊕ KvOutput))}
    (hs : SortedByTime (entriesFrom 0 g) es) :
    ∃ b, Answers kvModel (makeLinkedEntries es) b ∧
      (b = true ↔ LinearizableFor kvModel.object g) :=
  verdict_of_untied kvModel_respects (fun op hop => h.call_lt op (hsub op hop))
    (fun a ha b hb => h.untied a (hsub a ha) b (hsub b hb)) hs

section Service

variable {history : List KvOperation}
  {shuffle : List (List KvOperation) → List (List KvOperation)}
  {sort : List (Entry (KvInput ⊕ KvOutput)) → List (Entry (KvInput ⊕ KvOutput))}

/-- The parts that `CheckOperationsTimeout` makes. -/
theorem mem_operationParts (hshuffle : ∀ l, (shuffle l).Perm l)
    {linked : Heap (KvInput ⊕ KvOutput) × Option Nat} :
    linked ∈ operationParts (fillDefault (kvGivenModel shuffle)) sort history ↔
      ∃ g ∈ partition history, makeLinkedEntries (makeEntries sort g) = linked := by
  show linked ∈ (shuffle (partition history)).map _ ↔ _
  rw [List.mem_map]
  exact exists_congr fun g => and_congr_left fun _ => (hshuffle _).mem_iff

theorem mem_of_mem_group {g : List KvOperation} (hg : g ∈ partition history) :
    ∀ op ∈ g, op ∈ history := by
  obtain ⟨k, -, rfl⟩ := mem_partition.mp hg
  exact fun op hop => (List.mem_filter.mp hop).1

/-- The verdicts on all parts are `true` exactly when the history is linearizable for the store. -/
theorem forall_parts_answer_iff (h : Timed history) (hshuffle : ∀ l, (shuffle l).Perm l)
    (hsort : ∀ l, SortedByTime l (sort l)) :
    (∀ linked ∈ operationParts (fillDefault (kvGivenModel shuffle)) sort history,
      Answers kvModel linked true) ↔ LinearizableFor kvStore history := by
  rw [linearizable_store_iff (fun op hop => (h.call_lt op hop).le) (List.Perm.refl _)]
  constructor
  · intro hall g hg
    obtain ⟨b, hb, hiff⟩ := verdict_of_subset h (mem_of_mem_group hg) (hsort (entriesFrom 0 g))
    exact hiff.mp (hb.unique (hall _ ((mem_operationParts hshuffle).mpr ⟨g, hg, rfl⟩)))
  · intro hall linked hlinked
    obtain ⟨g, hg, rfl⟩ := (mem_operationParts hshuffle).mp hlinked
    obtain ⟨b, hb, hiff⟩ := verdict_of_subset h (mem_of_mem_group hg) (hsort (entriesFrom 0 g))
    exact hiff.mpr (hall g hg) ▸ hb

theorem exists_answers (history : List KvOperation)
    (shuffle : List (List KvOperation) → List (List KvOperation))
    (hsort : ∀ l, SortedByTime l (sort l)) :
    ∀ linked ∈ operationParts (fillDefault (kvGivenModel shuffle)) sort history,
      ∃ b, Answers kvModel linked b := by
  intro linked hlinked
  obtain ⟨g, -, rfl⟩ := List.mem_map.mp hlinked
  exact (lists_of_perm (hsort _).perm).toComplete.answers _

/-- **A negative verdict is never wrong.** Whatever the timeout, the moment at which the timer fires
and the order in which the results arrive: if `CheckOperationsTimeout` returns `false`, the history
is not linearizable for the store. If it returns `true` and the timer has not fired, it is. -/
theorem negative_verdict_is_right (h : Timed history) (hshuffle : ∀ l, (shuffle l).Perm l)
    (hsort : ∀ l, SortedByTime l (sort l)) (timeout : Int)
    {es : List (CollectEvent
      (operationParts (fillDefault (kvGivenModel shuffle)) sort history).length)}
    {s : Collecting (operationParts (fillDefault (kvGivenModel shuffle)) sort history).length String
      (KvInput ⊕ KvOutput)}
    (hrun : run (Collecting.step (fillDefault (kvGivenModel shuffle)).toModel timeout)
      (Collecting.start (operationParts (fillDefault (kvGivenModel shuffle)) sort history)) es
        = some s) :
    (s.returned = some false → ¬ LinearizableFor kvStore history) ∧
      (s.returned = some true → .timeout ∉ es → LinearizableFor kvStore history) := by
  choose v hv using fun i => exists_answers history shuffle hsort _
    (List.get_mem (operationParts (fillDefault (kvGivenModel shuffle)) sort history) i)
  have hall := (forall_answers_iff hv).trans (forall_parts_answer_iff h hshuffle hsort)
  rcases returned_cases hv hrun with hnone | ⟨hfalse, i, hi⟩ | ⟨htrue, hwhy⟩
  · rw [hnone]
    exact ⟨(nomatch ·), (nomatch ·)⟩
  · rw [hfalse]
    refine ⟨fun _ hlin => ?_, (nomatch ·)⟩
    rw [hall.mpr hlin i] at hi
    cases hi
  · rw [htrue]
    refine ⟨(nomatch ·), fun _ htimeout => ?_⟩
    exact hall.mp (hwhy.resolve_left htimeout)

end Service

theorem perm_id (l : List (List KvOperation)) : (id l).Perm l := List.Perm.refl l

/-- A read of a value that nobody wrote, and a write to another key. -/
def strayRead : List KvOperation := [⟨⟨0, "x", ""⟩, 0, ⟨"b"⟩, 1⟩, ⟨⟨1, "y", "a"⟩, 2, ⟨""⟩, 3⟩]

/-- The goroutine of `y` has counted its nodes when the one of `x` has failed and its result is
received. The kill flag is set, and the goroutine of `y` gives up. -/
def strayReadRun : List (CollectEvent 2) :=
  [.turn 1, .turn 1] ++ List.replicate 5 (.turn 0) ++ [.receive 0, .turn 1, .turn 1]

theorem negative_verdict_is_right_strayRead :
    ∃ s, run (Collecting.step kvModel 7) (Collecting.start
        (operationParts (fillDefault (kvGivenModel id)) returnsFirst strayRead)) strayReadRun
          = some s ∧
      s.returned = some false ∧ (s.workers (1 : Fin 2)).result? = some false ∧
      ¬ LinearizableFor kvStore strayRead := by
  have hfacts : (run (Collecting.step kvModel 7) (Collecting.start
      (operationParts (fillDefault (kvGivenModel id)) returnsFirst strayRead))
      strayReadRun).any (fun s => s.returned = some false ∧
        (s.workers (1 : Fin 2)).result? = some false) = true := by decide +kernel
  obtain ⟨s, hrun, hs⟩ := (Option.any_eq_true _ _).mp hfacts
  obtain ⟨hfalse, hgaveUp⟩ := of_decide_eq_true hs
  refine ⟨s, hrun, hfalse, hgaveUp, ?_⟩
  exact (negative_verdict_is_right ⟨by decide, by decide⟩ perm_id sortedByTime_returnsFirst 7
    hrun).1 hfalse

/-! ## The two entry points -/

section EntryPoints

variable {history : List KvOperation}
  {shuffle : List (List KvOperation) → List (List KvOperation)}
  {sort : List (Entry (KvInput ⊕ KvOutput)) → List (Entry (KvInput ⊕ KvOutput))}

/-- `CheckOperations` ends, with a verdict about the store. -/
theorem checkOperations_endsWith (hne : history ≠ []) (h : Timed history)
    (hshuffle : ∀ l, (shuffle l).Perm l) (hsort : ∀ l, SortedByTime l (sort l)) :
    ∃ b, EndsWith (Collecting.step (fillDefault (kvGivenModel shuffle)).toModel 0)
        Collecting.returned
        (Collecting.start (operationParts (fillDefault (kvGivenModel shuffle)) sort history)) b ∧
      (b = true ↔ LinearizableFor kvStore history) := by
  have hparts : operationParts (fillDefault (kvGivenModel shuffle)) sort history ≠ [] := by
    obtain ⟨op, hop⟩ := List.exists_mem_of_ne_nil history hne
    have hg := mem_partition.mpr ⟨op.input.key, ⟨op, hop, rfl⟩, rfl⟩
    exact List.ne_nil_of_mem ((mem_operationParts hshuffle).mpr ⟨_, hg, rfl⟩)
  obtain ⟨-, b, hends, hiff⟩ := conjoins_iff.mpr ⟨hparts, exists_answers history shuffle hsort⟩
  exact ⟨b, hends, hiff.trans (forall_parts_answer_iff h hshuffle hsort)⟩

/-- `CheckEvents` ends, with a verdict about one register. -/
theorem checkEvents_endsWith (h : Timed history)
    (shuffle : List (List KvOperation) → List (List KvOperation))
    (hsort : ∀ l, SortedByTime l (sort l)) (ids : Nat → Nat)
    (hids : ∀ i < history.length, ∀ j < history.length, ids i = ids j → i = j) :
    ∃ b, EndsWith (Collecting.step (fillDefault (kvGivenModel shuffle)).toModel 0)
        Collecting.returned
        (Collecting.start (eventParts (fillDefault (kvGivenModel shuffle))
          (eventsOf ids (makeEntries sort history)))) b ∧
      (b = true ↔ LinearizableFor kvModel.object history) := by
  have hs := hsort (entriesFrom 0 history)
  obtain ⟨b, hb, hiff⟩ := verdict_of_subset h (fun _ => id) hs
  have hlists := lists_of_perm hs.perm
  have hanswer : Answers kvModel (makeLinkedEntries (convertEntries (renumber
      (eventsOf ids (makeEntries sort history))))) b := by
    refine hlists.answers_eventsOf kvModel_respects ?_ hb
    rwa [List.length_zipIdx]
  -- there is one part
  have hparts : eventParts (fillDefault (kvGivenModel shuffle))
      (eventsOf ids (makeEntries sort history))
      = [makeLinkedEntries (convertEntries (renumber (eventsOf ids (makeEntries sort history))))] :=
    rfl
  have hconjoins : Conjoins kvModel (eventParts (fillDefault (kvGivenModel shuffle))
      (eventsOf ids (makeEntries sort history))) := by
    rw [conjoins_iff, hparts, List.forall_mem_singleton]
    exact ⟨List.cons_ne_nil _ _, b, hanswer⟩
  obtain ⟨-, b', hends, hiff'⟩ := hconjoins
  refine ⟨b', hends, ?_⟩
  rw [hiff', ← hiff, hparts, List.forall_mem_singleton]
  exact ⟨fun h => hanswer.unique h, fun h => h ▸ hanswer⟩

/-- **When the event path agrees with the operation path.** For a non-empty history and any numbers
that tell its operations apart, both entry points return one verdict if and only if the history, its
keys disregarded, is linearizable for one register exactly when it is linearizable for the store. -/
theorem events_agree_iff (hne : history ≠ []) (h : Timed history)
    (hshuffle : ∀ l, (shuffle l).Perm l) (hsort : ∀ l, SortedByTime l (sort l)) {ids : Nat → Nat}
    (hids : ∀ i < history.length, ∀ j < history.length, ids i = ids j → i = j) :
    (∃ b, EndsWith (Collecting.step (fillDefault (kvGivenModel shuffle)).toModel 0)
        Collecting.returned
        (Collecting.start (operationParts (fillDefault (kvGivenModel shuffle)) sort history)) b ∧
      EndsWith (Collecting.step (fillDefault (kvGivenModel shuffle)).toModel 0)
        Collecting.returned
        (Collecting.start (eventParts (fillDefault (kvGivenModel shuffle))
          (eventsOf ids (makeEntries sort history)))) b) ↔
    (LinearizableFor kvModel.object history ↔ LinearizableFor kvStore history) := by
  obtain ⟨b₁, hends₁, hiff₁⟩ := checkOperations_endsWith hne h hshuffle hsort
  obtain ⟨b₂, hends₂, hiff₂⟩ := checkEvents_endsWith h shuffle hsort ids hids
  rw [← hiff₁, ← hiff₂]
  constructor
  · rintro ⟨b, hb₁, hb₂⟩
    rw [hends₁.unique hb₁, hends₂.unique hb₂]
  · intro hsame
    obtain rfl : b₂ = b₁ := Bool.eq_iff_iff.mpr hsame
    exact ⟨b₂, hends₁, hends₂⟩

/-- On one key the store is the register. -/
theorem linearizable_store_iff_of_key (hcall : ∀ op ∈ history, op.call ≤ op.ret) {k : String}
    (hkey : ∀ op ∈ history, op.input.key = k) :
    LinearizableFor kvModel.object history ↔ LinearizableFor kvStore history := by
  have hfilter : history.filter (fun op => op.input.key = k) = history :=
    List.filter_eq_self.mpr fun op hop => decide_eq_true (hkey op hop)
  rw [linearizable_store_iff hcall (List.Perm.refl _)]
  constructor
  · intro hlin g hg
    obtain ⟨k', ⟨op, hop, rfl⟩, rfl⟩ := mem_partition.mp hg
    rwa [hkey op hop, hfilter]
  · intro hall
    cases hhistory : history with
    | nil => exact Object.linearizable_nil _ _ _
    | cons op ops =>
        rw [← hhistory]
        have hop : op ∈ history := hhistory ▸ List.mem_cons_self
        exact hall _ (mem_partition.mpr ⟨k, ⟨op, hop, hkey op hop⟩, hfilter⟩)

end EntryPoints

/-- Overlapping operations on one key. -/
def oneKey : List KvOperation :=
  [⟨⟨1, "x", "a"⟩, 0, ⟨""⟩, 3⟩, ⟨⟨0, "x", ""⟩, 1, ⟨""⟩, 2⟩, ⟨⟨2, "x", "b"⟩, 4, ⟨""⟩, 5⟩]

theorem events_agree_iff_oneKey :
    ∃ b, EndsWith (Collecting.step kvModel 0) Collecting.returned
        (Collecting.start (operationParts (fillDefault (kvGivenModel id)) returnsFirst oneKey)) b ∧
      EndsWith (Collecting.step kvModel 0) Collecting.returned
        (Collecting.start (eventParts (fillDefault (kvGivenModel id))
          (eventsOf (fun i => 100 - i) (makeEntries returnsFirst oneKey)))) b :=
  (events_agree_iff (by decide) ⟨by decide, by decide⟩ perm_id sortedByTime_returnsFirst
    (by decide)).mpr (linearizable_store_iff_of_key (k := "x") (by decide) (by decide))

/-- A write to one key and then a read of another. -/
def writeThenOther : List KvOperation :=
  [⟨⟨1, "x", "a"⟩, 0, ⟨""⟩, 1⟩, ⟨⟨0, "y", ""⟩, 2, ⟨""⟩, 3⟩]

/-- The read of `y` finds nothing, as it should. `CheckOperations` returns `true`, but `CheckEvents`
expects it to see what was written to `x`. -/
theorem writeThenOther_verdicts_differ :
    EndsWith (Collecting.step kvModel 0) Collecting.returned (Collecting.start
        (operationParts (fillDefault (kvGivenModel id)) returnsFirst writeThenOther)) true ∧
      EndsWith (Collecting.step kvModel 0) Collecting.returned
        (Collecting.start (eventParts (fillDefault (kvGivenModel id))
          (eventsOf id (makeEntries returnsFirst writeThenOther)))) false := by
  have htimed : Timed writeThenOther := ⟨by decide, by decide⟩
  constructor
  · obtain ⟨b, hends, hiff⟩ := checkOperations_endsWith (by decide) htimed perm_id
      sortedByTime_returnsFirst
    obtain rfl : b = true := by
      refine hiff.mpr ⟨writeThenOther, List.Perm.refl _, ?_, rfl, rfl, trivial⟩
      unfold InRealTime
      decide
    exact hends
  · obtain ⟨b, hends, hiff⟩ := checkEvents_endsWith htimed id sortedByTime_returnsFirst id
      (by decide)
    have hall : ∀ order ∈ writeThenOther.permutations',
        order.Pairwise (fun a b => ¬ b.ret < a.call) → ¬ kvModel.object.Accepts "" order := by
      decide
    obtain rfl : b = false := by
      refine Bool.eq_false_iff.mpr fun htrue => ?_
      obtain ⟨order, hperm, htime, haccepts⟩ := hiff.mp htrue
      exact hall order (List.mem_permutations'.mpr hperm) htime haccepts
    exact hends

end RaftLab.Linearizability
