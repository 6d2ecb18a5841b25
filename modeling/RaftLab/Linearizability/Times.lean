import RaftLab.Linearizability.Verdict

set_option autoImplicit false

/-! # Entries sorted by time

In the entries that `makeEntries` sorts, an entry stands before another if its time is smaller.
Among entries of one time the order is up to the sort, and it matters: a return that is put before
a call of the same time orders the two operations, and one that is put before its own call makes
the history impossible. So a verdict `true` is always right, but `false` may not be:
`verdict_is_linearizability_iff` says for which histories no sort can go wrong. If no operation
returns at the time of a call, every sort gives the right verdict (`verdict_of_untied`).
-/

namespace RaftLab.Linearizability

variable {S I O V : Type}

/-- The time of an operation's call or return. -/
def timeOf : EntryKind → Operation I O → Int
  | .call, op => op.call
  | .ret, op => op.ret

/-! ## The entries of the numbered operations -/

theorem mem_entriesFrom {k : Nat} {history : List (Operation I O)} {e : Entry (I ⊕ O)} :
    e ∈ entriesFrom k history ↔ ∃ kind, ∃ p ∈ history.zipIdx k,
      e = ⟨kind, valueOf kind p.1, p.2, timeOf kind p.1⟩ := by
  induction history generalizing k with
  | nil => simp [entriesFrom]
  | cons op history ih =>
      rw [entriesFrom, List.mem_cons, List.mem_cons, ih]
      simp only [List.zipIdx_cons, List.mem_cons, exists_eq_or_imp, exists_or]
      rw [← or_assoc]
      refine or_congr_left ⟨?_, ?_⟩
      · rintro (rfl | rfl)
        · exact ⟨.call, rfl⟩
        · exact ⟨.ret, rfl⟩
      · rintro ⟨kind, rfl⟩
        cases kind with
        | call => exact .inl rfl
        | ret => exact .inr rfl

theorem nodup_labels_entriesFrom (k : Nat) (history : List (Operation I O)) :
    ((entriesFrom k history).map Entry.label).Nodup := by
  induction history generalizing k with
  | nil => exact List.nodup_nil
  | cons op history ih =>
      -- the numbers of the later operations are larger
      have hlater : ∀ kind, (kind, k) ∉ (entriesFrom (k + 1) history).map Entry.label := by
        intro kind hmem
        obtain ⟨e, he, hlabel⟩ := List.mem_map.mp hmem
        obtain ⟨kind', p, hp, rfl⟩ := mem_entriesFrom.mp he
        have hle := List.le_snd_of_mem_zipIdx hp
        have hid : p.2 = k := congrArg Prod.snd hlabel
        omega
      rw [entriesFrom, List.map_cons, List.map_cons, List.nodup_cons, List.nodup_cons]
      refine ⟨fun hmem => ?_, hlater .ret, ih (k + 1)⟩
      rcases List.mem_cons.mp hmem with heq | hmem
      · cases congrArg Prod.fst heq
      · exact hlater .call hmem

/-- In any order the entries of a history list its operations, numbered as they come. -/
theorem lists_of_perm {history : List (Operation I O)} {es : List (Entry (I ⊕ O))}
    (hes : es.Perm (entriesFrom 0 history)) : Lists es history.zipIdx where
  ids := by
    rw [List.zipIdx_map_snd, List.length_zipIdx, List.range_eq_range']
  nodup := (hes.map Entry.label).nodup_iff.mpr (nodup_labels_entriesFrom 0 history)
  mem := by
    rintro ⟨kind, i⟩
    rw [(hes.map Entry.label).mem_iff, List.mem_map, List.length_zipIdx]
    constructor
    · rintro ⟨e, he, hlabel⟩
      obtain ⟨kind', p, hp, rfl⟩ := mem_entriesFrom.mp he
      have hlt := List.snd_lt_add_of_mem_zipIdx hp
      have hid : p.2 = i := congrArg Prod.snd hlabel
      omega
    · intro hi
      have hp : (history[i], i) ∈ history.zipIdx :=
        List.mem_zipIdx_iff_getElem?.mpr (List.getElem?_eq_getElem hi)
      exact ⟨_, mem_entriesFrom.mpr ⟨kind, _, hp, rfl⟩, rfl⟩
  value := by
    intro e he p hp hid
    obtain ⟨kind, q, hq, rfl⟩ := mem_entriesFrom.mp (hes.mem_iff.mp he)
    -- one position of the history has one operation
    have hsame : q.1 = p.1 := by
      have hq' := List.mem_zipIdx_iff_getElem?.mp hq
      have hid' : q.2 = p.2 := hid
      rw [hid', List.mem_zipIdx_iff_getElem?.mp hp] at hq'
      exact (Option.some.inj hq').symm
    show valueOf kind q.1 = valueOf kind p.1
    rw [hsame]

/-! ## The order of the entries and their times -/

section Sorted

variable {history : List (Operation I O)} {es : List (Entry (I ⊕ O))} {p q : Operation I O × Nat}

/-- The labels stand in the order of the entries. -/
theorem precedes_labels_iff {kind kind' : EntryKind} (hes : es.Perm (entriesFrom 0 history))
    (hp : p ∈ history.zipIdx) (hq : q ∈ history.zipIdx) :
    Precedes (es.map Entry.label) (kind, p.2) (kind', q.2) ↔
      Precedes es ⟨kind, valueOf kind p.1, p.2, timeOf kind p.1⟩
        ⟨kind', valueOf kind' q.1, q.2, timeOf kind' q.1⟩ :=
  Precedes.map_iff (lists_of_perm hes).nodup
    (hes.mem_iff.mpr (mem_entriesFrom.mpr ⟨kind, p, hp, rfl⟩))
    (hes.mem_iff.mpr (mem_entriesFrom.mpr ⟨kind', q, hq, rfl⟩))

theorem SortedByTime.time_le (hs : SortedByTime (entriesFrom 0 history) es)
    (kind kind' : EntryKind) (hp : p ∈ history.zipIdx) (hq : q ∈ history.zipIdx)
    (hprec : Precedes (es.map Entry.label) (kind, p.2) (kind', q.2)) :
    timeOf kind p.1 ≤ timeOf kind' q.1 :=
  List.pairwise_iff_forall_sublist.mp hs.sorted ((precedes_labels_iff hs.perm hp hq).mp hprec)

theorem SortedByTime.precedes (hs : SortedByTime (entriesFrom 0 history) es)
    (kind kind' : EntryKind) (hp : p ∈ history.zipIdx) (hq : q ∈ history.zipIdx)
    (hlt : timeOf kind p.1 < timeOf kind' q.1) :
    Precedes (es.map Entry.label) (kind, p.2) (kind', q.2) := by
  have hl := lists_of_perm hs.perm
  have hne : (kind, p.2) ≠ (kind', q.2) := by
    intro heq
    obtain ⟨rfl, hid⟩ := Prod.mk.inj heq
    have hp' := List.mem_zipIdx_iff_getElem?.mp hp
    rw [hid, List.mem_zipIdx_iff_getElem?.mp hq] at hp'
    rw [Option.some.inj hp'] at hlt
    exact lt_irrefl _ hlt
  rcases Precedes.total ((hl.mem _).mpr (hl.id_lt hp)) ((hl.mem _).mpr (hl.id_lt hq)) hne with h | h
  · exact h
  · exact absurd (hs.time_le _ _ hq hp h) (not_le.mpr hlt)

end Sorted

/-! ## Which verdicts a sort can give -/

/-- Linearizable when an operation is also required before one that is called at the very time at
which it returns. -/
def LinearizableTouching (o : Object S (Operation I O)) (history : List (Operation I O)) : Prop :=
  o.Linearizable (fun op => op.call + 1) Operation.ret history

section Orders

variable {model : Model S (I ⊕ O)} {history : List (Operation I O)} {es : List (Entry (I ⊕ O))}

/-- The operations in their order, as they are named by their numbers. -/
theorem linearizable_iff_zipIdx (o : Object S (Operation I O)) (call ret : Operation I O → Int)
    (history : List (Operation I O)) :
    o.Linearizable call ret history ↔
      ∃ order : List (Operation I O × Nat), order.Perm history.zipIdx ∧
        order.Pairwise (fun p q => ¬ ret q.1 < call p.1) ∧
        o.Accepts o.init (order.map Prod.fst) := by
  conv_lhs => rw [← List.zipIdx_map_fst 0 history]
  exact o.linearizable_map_iff call ret Prod.fst history.zipIdx

/-- If the returns before a call are only those before the times `call`, an order in real time
respects the entries. -/
theorem exists_respectsEntries {call : Operation I O → Int}
    (hprec : ∀ p ∈ history.zipIdx, ∀ q ∈ history.zipIdx,
      Precedes (es.map Entry.label) (.ret, q.2) (.call, p.2) → q.1.ret < call p.1)
    (h : model.object.Linearizable call Operation.ret history) :
    ∃ order : List (Operation I O × Nat), order.Perm history.zipIdx ∧ RespectsEntries es order ∧
      model.object.Accepts model.init (order.map Prod.fst) := by
  obtain ⟨order, hperm, htime, haccepts⟩ := (linearizable_iff_zipIdx _ _ _ _).mp h
  refine ⟨order, hperm, List.Pairwise.imp_of_mem (fun {p q} hp hq hno h => hno ?_) htime, haccepts⟩
  exact hprec p (hperm.mem_iff.mp hp) q (hperm.mem_iff.mp hq) h

/-- If all returns before the times `call` are before the calls, an order that respects the entries
is in real time. -/
theorem linearizable_of_respectsEntries {call : Operation I O → Int}
    (hprec : ∀ p ∈ history.zipIdx, ∀ q ∈ history.zipIdx,
      q.1.ret < call p.1 → Precedes (es.map Entry.label) (.ret, q.2) (.call, p.2))
    (h : ∃ order : List (Operation I O × Nat), order.Perm history.zipIdx ∧
      RespectsEntries es order ∧ model.object.Accepts model.init (order.map Prod.fst)) :
    model.object.Linearizable call Operation.ret history := by
  obtain ⟨order, hperm, htime, haccepts⟩ := h
  refine (linearizable_iff_zipIdx _ _ _ _).mpr
    ⟨order, hperm, List.Pairwise.imp_of_mem (fun {p q} hp hq hno h => hno ?_) htime, haccepts⟩
  exact hprec p (hperm.mem_iff.mp hp) q (hperm.mem_iff.mp hq) h

theorem exists_mem_zipIdx {i : Nat} (hi : i < history.length) :
    ∃ op ∈ history, (op, i) ∈ history.zipIdx :=
  ⟨history[i], List.getElem_mem hi,
    List.mem_zipIdx_iff_getElem?.mpr (List.getElem?_eq_getElem hi)⟩

theorem linearizableTouching_of_untied {o : Object S (Operation I O)}
    (huntied : ∀ a ∈ history, ∀ b ∈ history, a.ret ≠ b.call) (h : LinearizableFor o history) :
    LinearizableTouching o history := by
  obtain ⟨order, hperm, htime, haccepts⟩ := h
  refine ⟨order, hperm, List.Pairwise.imp_of_mem (fun {a b} ha hb hno h => hno ?_) htime, haccepts⟩
  exact lt_of_le_of_ne (Int.le_of_lt_add_one h)
    (huntied b (hperm.mem_iff.mp hb) a (hperm.mem_iff.mp ha))

end Orders

section Verdicts

variable [Inhabited (I ⊕ O)] {model : Model S (I ⊕ O)} {history : List (Operation I O)}
  {es : List (Entry (I ⊕ O))}

/-- However the entries are sorted, a verdict `true` is right. It is given if every operation takes
time and touching operations can be kept in order. -/
theorem SortedByTime.verdict (hm : model.Respects) (hs : SortedByTime (entriesFrom 0 history) es) :
    ∃ b, Answers model (makeLinkedEntries es) b ∧
      (b = true → LinearizableFor model.object history) ∧
      ((∀ op ∈ history, op.call < op.ret) → LinearizableTouching model.object history →
        b = true) := by
  obtain ⟨b, hanswers, hiff⟩ := (lists_of_perm hs.perm).verdict hm
  refine ⟨b, hanswers, fun hb => ?_, fun hlt htouching => hiff.mpr ⟨fun i hi => ?_, ?_⟩⟩
  · refine linearizable_of_respectsEntries (fun p hp q hq h => ?_) (hiff.mp hb).2
    exact hs.precedes .ret .call hq hp h
  · rw [List.length_zipIdx] at hi
    obtain ⟨op, hop, hp⟩ := exists_mem_zipIdx hi
    exact hs.precedes .call .ret hp hp (hlt op hop)
  · refine exists_respectsEntries (fun p hp q hq h => ?_) htouching
    exact Int.lt_add_one_of_le (hs.time_le .ret .call hq hp h)

/-- If no operation returns at the time of a call, the verdict is right however the entries are
sorted. -/
theorem verdict_of_untied (hm : model.Respects) (hlt : ∀ op ∈ history, op.call < op.ret)
    (huntied : ∀ a ∈ history, ∀ b ∈ history, a.ret ≠ b.call)
    (hs : SortedByTime (entriesFrom 0 history) es) :
    ∃ b, Answers model (makeLinkedEntries es) b ∧
      (b = true ↔ LinearizableFor model.object history) := by
  obtain ⟨b, hanswers, htrue, hof⟩ := hs.verdict hm
  exact ⟨b, hanswers, htrue, fun h => hof hlt (linearizableTouching_of_untied huntied h)⟩

end Verdicts

/-! ## The worst sort -/

/-- By time, and at one time the returns first. -/
def ReturnsFirst (e e' : Entry V) : Prop :=
  e.time < e'.time ∨ e.time = e'.time ∧ (e.kind = .ret ∨ e'.kind = .call)

instance : DecidableRel (ReturnsFirst (V := V)) := fun _ _ =>
  inferInstanceAs (Decidable (_ ∨ _))

instance : Std.Total (ReturnsFirst (V := V)) where
  total e e' := by
    rcases lt_trichotomy e.time e'.time with h | h | h
    · exact .inl (.inl h)
    · cases hkind : e.kind with
      | call => exact .inr (.inr ⟨h.symm, .inr hkind⟩)
      | ret => exact .inl (.inr ⟨h, .inl hkind⟩)
    · exact .inr (.inl h)

instance : IsTrans (Entry V) ReturnsFirst where
  trans e e' e'' := by
    rintro (h | ⟨h, hk⟩) (h' | ⟨h', hk'⟩)
    · exact .inl (h.trans h')
    · exact .inl (h' ▸ h)
    · exact .inl (h ▸ h')
    · refine .inr ⟨h.trans h', ?_⟩
      rcases hk with hk | hk
      · exact .inl hk
      · refine .inr (hk'.resolve_left fun hret => ?_)
        rw [hk] at hret
        cases hret

def returnsFirst (l : List (Entry V)) : List (Entry V) := l.insertionSort ReturnsFirst

theorem sortedByTime_returnsFirst (l : List (Entry V)) : SortedByTime l (returnsFirst l) where
  perm := List.perm_insertionSort _ _
  sorted := (List.pairwise_insertionSort ReturnsFirst l).imp
    fun h => h.elim le_of_lt fun h => h.1.le

/-- The returns at the time of a call are put before it. -/
theorem precedes_returnsFirst {history : List (Operation I O)} {p q : Operation I O × Nat}
    (hp : p ∈ history.zipIdx) (hq : q ∈ history.zipIdx) (hle : q.1.ret ≤ p.1.call) :
    Precedes ((returnsFirst (entriesFrom 0 history)).map Entry.label) (.ret, q.2) (.call, p.2) := by
  have hs := sortedByTime_returnsFirst (entriesFrom 0 history)
  have hl := lists_of_perm hs.perm
  rcases Precedes.total ((hl.mem (.ret, q.2)).mpr (hl.id_lt hq))
    ((hl.mem (.call, p.2)).mpr (hl.id_lt hp)) (by simp) with h | h
  · exact h
  · -- then the call would not stand where this order puts it
    have hfirst := List.pairwise_iff_forall_sublist.mp
      (List.pairwise_insertionSort ReturnsFirst (entriesFrom 0 history))
      ((precedes_labels_iff hs.perm hp hq).mp h)
    rcases hfirst with hlt | ⟨-, hkind | hkind⟩
    · exact absurd hlt (not_lt.mpr hle)
    · cases hkind
    · cases hkind

/-! ## Ties -/

section Ties

variable [Inhabited (I ⊕ O)] {model : Model S (I ⊕ O)}

/-- With the returns first, an operation that takes no time is never accepted, and touching
operations are kept in order. -/
theorem verdict_returnsFirst (hm : model.Respects) (history : List (Operation I O)) :
    ∃ b, Answers model (makeLinkedEntries (makeEntries returnsFirst history)) b ∧
      (b = true ↔
        (∀ op ∈ history, op.call < op.ret) ∧ LinearizableTouching model.object history) := by
  have hs := sortedByTime_returnsFirst (entriesFrom 0 history)
  have hl := lists_of_perm hs.perm
  obtain ⟨b, hanswers, hiff⟩ := hl.verdict hm
  obtain ⟨b', hanswers', -, hof⟩ := hs.verdict hm
  obtain rfl : b = b' := hanswers.unique hanswers'
  refine ⟨b, hanswers, fun hb => ?_, fun h => hof h.1 h.2⟩
  obtain ⟨hcalls, horder⟩ := hiff.mp hb
  constructor
  · intro op hop
    obtain ⟨i, hi⟩ := List.mem_iff_getElem?.mp hop
    have hp : (op, i) ∈ history.zipIdx := List.mem_zipIdx_iff_getElem?.mpr hi
    by_contra hle
    -- the return would stand before the call
    exact (hcalls i (hl.id_lt hp)).asymm hl.nodup (precedes_returnsFirst hp hp (not_lt.mp hle))
  · refine linearizable_of_respectsEntries (fun p hp q hq h => ?_) horder
    exact precedes_returnsFirst hp hq (Int.le_of_lt_add_one h)

/-- **Ties.** Whatever order the sort leaves entries of one time in, the verdict is
linearizability, with `a` before `b` exactly when `a` returns before `b` is called, if and only if:
should the history be linearizable, then every operation takes time, and the history is still
linearizable when operations that touch, one called at the time at which the other returns, are
kept in order. -/
theorem verdict_is_linearizability_iff (hm : model.Respects) (history : List (Operation I O)) :
    (∀ sort : List (Entry (I ⊕ O)) → List (Entry (I ⊕ O)), (∀ l, SortedByTime l (sort l)) →
      ∃ b, Answers model (makeLinkedEntries (makeEntries sort history)) b ∧
        (b = true ↔ LinearizableFor model.object history)) ↔
    (LinearizableFor model.object history →
      (∀ op ∈ history, op.call < op.ret) ∧ LinearizableTouching model.object history) := by
  constructor
  · intro h hlin
    obtain ⟨b, hanswers, hb⟩ := h returnsFirst sortedByTime_returnsFirst
    obtain ⟨b', hanswers', hb'⟩ := verdict_returnsFirst hm history
    exact hb'.mp ((hanswers'.unique hanswers).trans (hb.mpr hlin))
  · intro h sort hsort
    obtain ⟨b, hanswers, htrue, hof⟩ := (hsort (entriesFrom 0 history)).verdict hm
    exact ⟨b, hanswers, htrue, fun hlin => hof (h hlin).1 (h hlin).2⟩

end Ties

instance : Inhabited (KvInput ⊕ KvOutput) := ⟨.inr ⟨""⟩⟩

/-- Equal states are the same string. -/
theorem kvModel_respects : kvModel.Respects := by
  intro s t hst input output
  obtain rfl : s = t := beq_iff_eq.mp hst
  exact ⟨rfl, fun _ => beq_self_eq_true _⟩

/-- Two writes are called at one time and return at one time. -/
def tiedWrites : List KvOperation :=
  [⟨⟨1, "x", "a"⟩, 0, ⟨""⟩, 1⟩, ⟨⟨1, "x", "b"⟩, 0, ⟨""⟩, 1⟩, ⟨⟨0, "x", ""⟩, 2, ⟨"a"⟩, 3⟩]

theorem verdict_is_linearizability_iff_tiedWrites :
    ∃ b, Answers kvModel (makeLinkedEntries (makeEntries returnsFirst tiedWrites)) b ∧
      (b = true ↔ LinearizableFor kvModel.object tiedWrites) :=
  (verdict_is_linearizability_iff kvModel_respects tiedWrites).mpr
    (fun h => ⟨by decide, linearizableTouching_of_untied (by decide) h⟩)
    returnsFirst sortedByTime_returnsFirst

/-- A read that is called at the time at which a write returns. -/
def touching : List KvOperation :=
  [⟨⟨1, "x", "a"⟩, 0, ⟨""⟩, 1⟩, ⟨⟨0, "x", ""⟩, 1, ⟨""⟩, 2⟩]

/-- The read does not see the write. The write did not return before the read was called, so the
read may come first, but the verdict is `false`. Sorted with the returns first the entries stay as
they were appended. -/
theorem touching_rejected :
    LinearizableFor kvModel.object touching ∧
      makeEntries returnsFirst touching = entriesFrom 0 touching ∧
      Answers kvModel (makeLinkedEntries (makeEntries returnsFirst touching)) false := by
  refine ⟨⟨touching.reverse, List.reverse_perm _, ?_, ?_⟩, by decide, ?_⟩
  · unfold InRealTime
    decide
  · decide
  · obtain ⟨b, hanswers, hb⟩ := verdict_returnsFirst kvModel_respects touching
    have hfalse : ¬ LinearizableTouching kvModel.object touching := by
      rintro ⟨order, hperm, htime, haccepts⟩
      have hall : ∀ order ∈ touching.permutations',
          order.Pairwise (fun a b => ¬ b.ret < a.call + 1) →
          ¬ kvModel.object.Accepts "" order := by decide
      exact hall order (List.mem_permutations'.mpr hperm) htime haccepts
    obtain rfl : b = false := Bool.eq_false_iff.mpr fun htrue => hfalse (hb.mp htrue).2
    exact hanswers

end RaftLab.Linearizability
