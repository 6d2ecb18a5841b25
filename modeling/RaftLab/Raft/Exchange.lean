import RaftLab.Lib.Rounds
import RaftLab.Raft.Replication

set_option autoImplicit false

/-! # Backtracking to where leader and follower agree

One round of the exchange between a leader and a follower: `consistencyCheck`, the follower's
handler and the leader's reply handler, with the detour over `InstallSnapshot` when the leader
sends its snapshot. A refusal moves `nextIndex` down, to the leader's last entry of the
conflicting term or to the follower's hint. It works as long as the leader does not ask below
the follower's own snapshot: there the follower answers with the index of its snapshot, which
as a `nextIndex` makes the leader ask below the snapshot again.
-/

namespace RaftLab.Raft

variable {n : Nat} {C D : Type}

/-! ## The exchange -/

/-- The leader's snapshot is delivered and its reply handled. -/
def snapshotExchange (i : Fin n) (leader follower : Raft n C D)
    (args : InstallSnapshotArgs n D) :
    Option ((Raft n C D × AppendEntriesReply) ⊕ (Raft n C D × Raft n C D)) := do
  let (follower', reply, _) ← follower.installSnapshot args
  pure (.inr (leader.snapshotReplyHandler i reply, follower'))

/-- One round between the leader and follower number `i`; it ends with a reply that says
`Success`, or goes on with what both have become. -/
def exchange (i : Fin n) (x : Raft n C D × Raft n C D) :
    Option ((Raft n C D × AppendEntriesReply) ⊕ (Raft n C D × Raft n C D)) := do
  match ← x.1.consistencyCheck i with
  | none => none
  | some (.snapshot args) => snapshotExchange i x.1 x.2 args
  | some (.append args) =>
      let (follower', reply) ← x.2.appendEntries args
      if reply.success then pure (.inl (follower', reply))
      else
        let (leader', out) ← x.1.consistencyCheckReplyHandler i reply
        match out with
        | none => pure (.inr (leader', follower'))
        | some args => snapshotExchange i leader' follower' args

/-- The log has its placeholder, of the snapshot's term, and only the entry at index zero has
term zero. -/
structure WellFormed (rf : Raft n C D) : Prop extends LogStarted rf where
  snapshotTerm_eq : rf.termAt rf.snapshotIndex = some rf.snapshotTerm
  positive : ∀ j t, 0 < j → rf.termAt j = some t → t ≠ 0

/-- A leader and a follower in the middle of the exchange. -/
structure Exchanging (i : Fin n) (x : Raft n C D × Raft n C D) : Prop where
  leads : x.1.state = .leader
  term_le : x.2.currentTerm ≤ x.1.currentTerm
  leader : x.1.WellFormed
  follower : x.2.WellFormed
  agree : x.1.snapshotIndex = x.2.snapshotIndex → x.1.snapshotTerm = x.2.snapshotTerm
  le_nextIndex : x.1.snapshotIndex ≤ x.1.nextIndex i
  nextIndex_le : x.1.nextIndex i ≤ x.1.lastIndex + 1

/-- The leader does not ask below the follower's snapshot. -/
def AsksAboveSnapshot (i : Fin n) (x : Raft n C D × Raft n C D) : Prop :=
  x.2.snapshotIndex ≤ x.1.snapshotIndex ∨ x.2.snapshotIndex < x.1.nextIndex i

instance (i : Fin n) (x : Raft n C D × Raft n C D) : Decidable (AsksAboveSnapshot i x) :=
  inferInstanceAs (Decidable (_ ∨ _))

/-! ## The leader's side -/

/-- The leader with a new `nextIndex[i]`. -/
def setNext (rf : Raft n C D) (i : Fin n) (next : Int) : Raft n C D :=
  { rf with nextIndex := Function.update rf.nextIndex i next }

@[simp] theorem setNext_nextIndex (rf : Raft n C D) (i : Fin n) (next : Int) :
    (rf.setNext i next).nextIndex i = next := Function.update_self ..

section leader

variable {rf : Raft n C D} {i : Fin n}

/-- Inside its log the leader asks about the entry before `nextIndex`. -/
theorem consistencyCheck_of_le (hl : rf.state = .leader)
    (h : rf.snapshotIndex ≤ rf.nextIndex i - 1) (hlast : rf.nextIndex i ≤ rf.lastIndex + 1) :
    ∃ args, rf.consistencyCheck i = some (some (.append args)) ∧ args.term = rf.currentTerm ∧
      args.prevLogIndex = rf.nextIndex i - 1 ∧
      rf.termAt (rf.nextIndex i - 1) = some args.prevLogTerm := by
  have hne : rf.logs ≠ [] := by
    rintro hnil
    rw [lastIndex, hnil, List.length_nil] at hlast
    omega
  obtain ⟨args, happend, hprev⟩ := consistencyCheck_of_ge hl hne h
  have hprev : args.prevLogIndex = rf.nextIndex i - 1 := by omega
  refine ⟨args, happend, (consistencyCheck_append happend).2.1, hprev, ?_⟩
  rw [← hprev]
  exact (suffixOf_of_consistencyCheck happend).prev

theorem scanLast_pos {logs : List (LogEntry C)} {t : Nat} :
    ∀ {k j : Nat}, scanLast logs t k = some j → 1 ≤ j := by
  intro k
  induction k with
  | zero =>
      intro j h
      cases h
  | succ k ih =>
      intro j h
      unfold scanLast at h
      split at h
      · obtain rfl := Option.some.inj h
        omega
      · exact ih h

/-- Backing up goes no higher than the follower's hint, and below it at most to the first
entry above the leader's snapshot. -/
theorem backupIndex_bounds (rf : Raft n C D) (reply : AppendEntriesReply) :
    rf.backupIndex reply ≤ reply.firstIndex ∧
      min (rf.snapshotIndex + 1) reply.firstIndex ≤ rf.backupIndex reply := by
  unfold backupIndex
  split
  · cases hscan : scanLast rf.logs reply.conflictTerm (rf.logs.length - 1) with
    | none => exact ⟨le_refl _, min_le_right _ _⟩
    | some j =>
        have hj := scanLast_pos hscan
        dsimp only
        omega
  · exact ⟨le_refl _, min_le_right _ _⟩

/-- The two ways to back up: to the snapshot, or inside the log, where a `nextIndex` that
would not move is lowered by one. -/
theorem backup_cases (rf : Raft n C D) (i : Fin n) (reply : AppendEntriesReply) :
    ∃ next sends, rf.backup i reply =
        (rf.setNext i next, sends) ∧
      ((sends = true ∧ rf.snapshotIndex ≠ 0 ∧ rf.backupIndex reply ≤ rf.snapshotIndex) ∨
       (sends = false ∧ (rf.snapshotIndex = 0 ∨ rf.snapshotIndex < rf.backupIndex reply) ∧
        ∃ clamped, clamped = min (max (rf.backupIndex reply) (1 + rf.snapshotIndex))
            (rf.logs.length + rf.snapshotIndex) ∧
          ((rf.nextIndex i = clamped ∧ next = max (clamped - 1) rf.snapshotIndex) ∨
            (rf.nextIndex i ≠ clamped ∧ next = clamped)))) := by
  unfold backup
  simp only
  by_cases h : rf.snapshotIndex ≠ 0 ∧ rf.backupIndex reply ≤ rf.snapshotIndex
  · rw [if_pos h]
    exact ⟨_, _, rfl, Or.inl ⟨rfl, h⟩⟩
  · rw [if_neg h]
    refine ⟨_, _, rfl, Or.inr ⟨rfl, by omega, _, rfl, ?_⟩⟩
    split
    · rename_i heq
      exact Or.inl ⟨heq, rfl⟩
    · rename_i hne
      exact Or.inr ⟨hne, rfl⟩

end leader

/-! ## The follower's side -/

section follower

variable {rf : Raft n C D}

theorem WellFormed.of_eq {rf' : Raft n C D} (h : rf.WellFormed) (hlogs : rf'.logs = rf.logs)
    (hsnap : rf'.snapshotIndex = rf.snapshotIndex) (hterm : rf'.snapshotTerm = rf.snapshotTerm) :
    rf'.WellFormed := by
  have hat : ∀ j, rf'.termAt j = rf.termAt j := by
    intro j
    rw [termAt, termAt, entryAt, entryAt, hlogs, hsnap]
  refine ⟨⟨?_, ?_⟩, ?_, fun j t hj ht => h.positive j t hj ((hat j).symm.trans ht)⟩
  · rw [hlogs]
    exact h.nonempty
  · rw [hsnap]
    exact h.snapshotIndex_nonneg
  · rw [hat, hsnap, hterm]
    exact h.snapshotTerm_eq

/-- The hint of a refusal. Below its snapshot the follower names the snapshot; otherwise a
place above its snapshot, and below the question unless that was about the snapshot itself. -/
def Hint (i : Fin n) (x : Raft n C D × Raft n C D) (first : Int) : Prop :=
  (x.1.nextIndex i - 1 < x.2.snapshotIndex ∧ first = x.2.snapshotIndex) ∨
    (x.2.snapshotIndex ≤ x.1.nextIndex i - 1 ∧ x.2.snapshotIndex < first ∧
      (first ≤ x.1.nextIndex i - 1 ∨
        (x.1.snapshotIndex < x.2.snapshotIndex ∧ x.1.nextIndex i - 1 = x.2.snapshotIndex ∧
          first = x.1.nextIndex i)))

/-- What a refusal tells the leader. -/
structure Refusal (i : Fin n) (x : Raft n C D × Raft n C D) (follower' : Raft n C D)
    (reply : AppendEntriesReply) : Prop where
  success : reply.success = false
  term_le : reply.currentTerm ≤ x.1.currentTerm
  wellFormed : follower'.WellFormed
  currentTerm : follower'.currentTerm = x.1.currentTerm
  snapshotIndex : follower'.snapshotIndex = x.2.snapshotIndex
  snapshotTerm : follower'.snapshotTerm = x.2.snapshotTerm
  hint : Hint i x reply.firstIndex

/-- The follower accepts the leader's question, or refuses it with a hint. -/
theorem accepts_or_refuses {i : Fin n} {x : Raft n C D × Raft n C D} (h : Exchanging i x)
    (hpre : x.1.snapshotIndex ≤ x.1.nextIndex i - 1) {args : AppendEntriesArgs n C}
    (hterm : args.term = x.1.currentTerm) (hprev : args.prevLogIndex = x.1.nextIndex i - 1)
    (hprevTerm : x.1.termAt (x.1.nextIndex i - 1) = some args.prevLogTerm) :
    x.2.Accepts args ∨
      ∃ follower' reply, x.2.appendEntries args = some (follower', reply) ∧
        Refusal i x follower' reply := by
  have hle : x.2.currentTerm ≤ args.term := by
    rw [hterm]
    exact h.term_le
  have hF := h.follower
  -- the refusals differ in the hint only
  have hrefuse : ∀ {follower'} {reply : AppendEntriesReply},
      (follower' = x.2.hearLeader args ∨ follower' = (x.2.hearLeader args).persist) →
      reply.success = false → reply.currentTerm ≤ x.1.currentTerm → Hint i x reply.firstIndex →
      Refusal i x follower' reply := by
    intro follower' reply hf hs ht hfirst
    rw [hearLeader_eq hle, hterm] at hf
    refine ⟨hs, ht, ?_, ?_, ?_, ?_, hfirst⟩
    · rcases hf with rfl | rfl <;> exact hF.of_eq rfl rfl rfl
    · rcases hf with rfl | rfl <;> rfl
    · rcases hf with rfl | rfl <;> rfl
    · rcases hf with rfl | rfl <;> rfl
  rcases lt_or_ge args.prevLogIndex x.2.snapshotIndex with hlt | hge
  · exact Or.inr ⟨_, _, appendEntries_of_lt_snapshotIndex hle hlt,
      hrefuse (Or.inl rfl) rfl (le_of_eq hterm) (Or.inl ⟨by omega, rfl⟩)⟩
  rcases lt_or_ge x.2.lastIndex args.prevLogIndex with hlt | hle'
  · obtain ⟨t, -, heq⟩ := appendEntries_of_lastIndex_lt hF.nonempty hF.snapshotIndex_nonneg hle hlt
    have hsl := hF.snapshotIndex_le
    exact Or.inr ⟨_, _, heq, hrefuse (Or.inr rfl) rfl (Nat.zero_le _)
      (Or.inr ⟨by omega, by dsimp only; omega, Or.inl (by dsimp only; omega)⟩)⟩
  · obtain ⟨t, ht⟩ : ∃ t, x.2.termAt args.prevLogIndex = some t := by
      rw [← Option.ne_none_iff_exists', Ne, termAt_eq_none_iff]
      omega
    by_cases hmatch : t = args.prevLogTerm
    · subst hmatch
      exact Or.inl ⟨hle, ht⟩
    · refine Or.inr ?_
      -- both snapshots end with the same entry, so the question was not about both
      have hdiff : ¬ (args.prevLogIndex = x.2.snapshotIndex ∧
          x.1.snapshotIndex = x.2.snapshotIndex) := by
        rintro ⟨hp, hs⟩
        have hFt := hF.snapshotTerm_eq
        have hLt := h.leader.snapshotTerm_eq
        rw [← hp, ht] at hFt
        rw [hs, ← hp, hprev, hprevTerm, h.agree hs] at hLt
        exact hmatch (by rw [Option.some.inj hFt, Option.some.inj hLt])
      have hF0 := hF.snapshotIndex_nonneg
      have hL0 := h.leader.snapshotIndex_nonneg
      have hpos : t ≠ 0 := hF.positive _ t (by omega) ht
      obtain ⟨first, hfirst, hbound, heq⟩ := appendEntries_of_mismatch hle ht hmatch hpos
      refine ⟨_, _, heq, hrefuse (Or.inr rfl) rfl (Nat.zero_le _) (Or.inr ⟨by omega, hfirst, ?_⟩)⟩
      dsimp only
      omega

end follower

/-! ## The detour over the snapshot -/

/-- The follower has the end of the leader's snapshot and the leader asks about it next. -/
def Ready (i : Fin n) (x : Raft n C D × Raft n C D) : Prop :=
  x.1.nextIndex i = x.1.snapshotIndex + 1 ∧
    x.2.termAt x.1.snapshotIndex = some x.1.snapshotTerm

instance (i : Fin n) (x : Raft n C D × Raft n C D) : Decidable (Ready i x) :=
  inferInstanceAs (Decidable (_ ∧ _))

/-- An accepted snapshot of the leader leaves a well-formed log. -/
theorem WellFormed.installAt {leader follower : Raft n C D} (hL : leader.WellFormed)
    (hF : follower.WellFormed) (hlt : follower.snapshotIndex < leader.snapshotIndex) :
    (follower.installAt leader.sendSnapshot (follower.logs.drop
      (leader.snapshotIndex - follower.snapshotIndex + 1).toNat)).WellFormed := by
  have hnonneg := hF.snapshotIndex_nonneg
  have hat := termAt_installAt follower leader.sendSnapshot (follower.logs.drop
    (leader.snapshotIndex - follower.snapshotIndex + 1).toNat)
  refine ⟨⟨by simp [Raft.installAt], hL.snapshotIndex_nonneg⟩, hat, fun j t hj ht => ?_⟩
  have hge : leader.snapshotIndex ≤ j := (termAt_eq_some ht).1
  rcases eq_or_lt_of_le hge with rfl | hgt
  · obtain rfl : leader.snapshotTerm = t := Option.some.inj (hat.symm.trans ht)
    exact hL.positive _ _ hj hL.snapshotTerm_eq
  · refine hF.positive j t hj ?_
    rw [← ht, termAt, termAt]
    exact congrArg (Option.map _) (entryAt_installAt hlt hgt).symm

/-- After the detour the leader asks about the end of its snapshot. The follower has it,
unless its own snapshot is newer, and then nothing has changed. -/
theorem snapshotExchange_spec (i : Fin n) (leader follower : Raft n C D)
    (hl : leader.state = .leader) (hterm : follower.currentTerm ≤ leader.currentTerm)
    (hL : leader.WellFormed) (hF : follower.WellFormed)
    (hagree : leader.snapshotIndex = follower.snapshotIndex →
      leader.snapshotTerm = follower.snapshotTerm) :
    ∃ x', snapshotExchange i leader follower leader.sendSnapshot = some (.inr x') ∧
      Exchanging i x' ∧ x'.1.snapshotIndex = leader.snapshotIndex ∧
      x'.1.nextIndex i = leader.snapshotIndex + 1 ∧
      (leader.snapshotIndex < follower.snapshotIndex →
        x'.2.snapshotIndex = follower.snapshotIndex) ∧
      (follower.snapshotIndex ≤ leader.snapshotIndex → Ready i x') := by
  have hle := hL.snapshotIndex_le
  have hnext : (leader.acknowledged i leader.snapshotIndex).nextIndex i
      = leader.snapshotIndex + 1 := Function.update_self ..
  have hreply : leader.snapshotReplyHandler i { currentTerm := follower.currentTerm }
      = leader.acknowledged i leader.snapshotIndex := by
    unfold snapshotReplyHandler
    rw [if_pos hl, if_neg (not_lt.mpr hterm)]
    rfl
  -- the leader's part of the state is the same in both cases
  have hstate : ∀ follower' : Raft n C D, follower'.currentTerm ≤ leader.currentTerm →
      follower'.WellFormed →
      (leader.snapshotIndex = follower'.snapshotIndex →
        leader.snapshotTerm = follower'.snapshotTerm) →
      Exchanging i (leader.acknowledged i leader.snapshotIndex, follower') := by
    intro follower' ht hwf hag
    refine ⟨hl, ht, hL.of_eq rfl rfl rfl, hwf, hag, ?_, ?_⟩
    · show leader.snapshotIndex ≤ (leader.acknowledged i leader.snapshotIndex).nextIndex i
      rw [hnext]
      omega
    · show (leader.acknowledged i leader.snapshotIndex).nextIndex i ≤ leader.lastIndex + 1
      rw [hnext]
      omega
  by_cases hnew : follower.snapshotIndex < leader.snapshotIndex
  · have hinstall : follower.installSnapshot leader.sendSnapshot = some (_, _, _) :=
      installSnapshot_of_le hterm hnew
    have hwf := hL.installAt hF hnew
    refine ⟨(_, follower.installAt leader.sendSnapshot (follower.logs.drop
      (leader.snapshotIndex - follower.snapshotIndex + 1).toNat)), ?_,
      hstate _ hterm hwf (fun _ => rfl), rfl, hnext, by omega,
      fun _ => ⟨hnext, hwf.snapshotTerm_eq⟩⟩
    unfold snapshotExchange
    rw [hinstall]
    simp only [Option.bind_eq_bind, Option.bind_some, hreply]
    rfl
  · have hignore : follower.installSnapshot leader.sendSnapshot
        = some (follower, { currentTerm := follower.currentTerm }, none) := by
      unfold installSnapshot
      rw [if_neg (show ¬ leader.sendSnapshot.term < _ from not_lt.mpr hterm),
        if_pos (show leader.sendSnapshot.lastIncludedIndex ≤ _ from not_lt.mp hnew)]
    refine ⟨_, ?_, hstate follower hterm hF hagree, rfl, hnext, fun _ => rfl, fun hge => ?_⟩
    · unfold snapshotExchange
      rw [hignore]
      simp only [Option.bind_eq_bind, Option.bind_some, hreply]
      rfl
    · have hsame : leader.snapshotIndex = follower.snapshotIndex := by omega
      refine ⟨hnext, ?_⟩
      show follower.termAt leader.snapshotIndex = some leader.snapshotTerm
      rw [hsame, hagree hsame]
      exact hF.snapshotTerm_eq

/-! ## One round -/

theorem exchange_of_accepts {i : Fin n} {x : Raft n C D × Raft n C D}
    {args : AppendEntriesArgs n C} (hcheck : x.1.consistencyCheck i = some (some (.append args)))
    (hacc : x.2.Accepts args) : ∃ b, exchange i x = some (.inl b) := by
  obtain ⟨follower', reply, heq, hs, -⟩ := appendEntries_of_accepts hacc
  refine ⟨(follower', reply), ?_⟩
  unfold exchange
  simp only [hcheck, heq, Option.bind_eq_bind, Option.bind_some, hs, if_true]
  rfl

theorem exchange_of_refusal {i : Fin n} {x : Raft n C D × Raft n C D}
    {args : AppendEntriesArgs n C} {follower' : Raft n C D} {reply : AppendEntriesReply}
    (hl : x.1.state = .leader) (hcheck : x.1.consistencyCheck i = some (some (.append args)))
    (heq : x.2.appendEntries args = some (follower', reply)) (href : Refusal i x follower' reply)
    {next : Int} {sends : Bool} (hback : x.1.backup i reply =
      (x.1.setNext i next, sends)) :
    exchange i x =
      if sends then
        snapshotExchange i (x.1.setNext i next) follower'
          (x.1.setNext i next).sendSnapshot
      else some (.inr (x.1.setNext i next,
        follower')) := by
  have hhandler : x.1.consistencyCheckReplyHandler i reply =
      some (x.1.setNext i next,
        if sends then
          some (x.1.setNext i next).sendSnapshot
        else none) := by
    unfold consistencyCheckReplyHandler
    rw [if_neg (not_not.mpr hl), if_neg (by rw [href.success]; decide),
      if_neg (not_lt.mpr href.term_le), hback]
  unfold exchange
  simp only [hcheck, heq, Option.bind_eq_bind, Option.bind_some, href.success, hhandler]
  cases sends <;> rfl

/-- What a round that does not end does. -/
structure GoesOn (i : Fin n) (x x' : Raft n C D × Raft n C D) : Prop where
  exchanging : Exchanging i x'
  snapshotIndex : x'.1.snapshotIndex = x.1.snapshotIndex
  notReady : ¬ Ready i x
  /-- Above the follower's snapshot `nextIndex` falls, or the snapshot has been sent. -/
  above : AsksAboveSnapshot i x → Ready i x' ∨ x'.1.nextIndex i < x.1.nextIndex i
  /-- Below the follower's snapshot it stays below. -/
  below : ¬ AsksAboveSnapshot i x → ¬ AsksAboveSnapshot i x'

/-- Below the leader's own snapshot the round sends the snapshot. -/
theorem exchange_of_lt {i : Fin n} {x : Raft n C D × Raft n C D} (h : Exchanging i x)
    (hpre : x.1.nextIndex i - 1 < x.1.snapshotIndex) :
    ∃ x', exchange i x = some (.inr x') ∧ GoesOn i x x' := by
  obtain ⟨x', heq, hx', hsnap, hnext, hkeeps, hready⟩ :=
    snapshotExchange_spec i x.1 x.2 h.leads h.term_le h.leader h.follower h.agree
  refine ⟨x', ?_, hx', hsnap, fun hr => ?_, fun habove => ?_, fun hbelow => ?_⟩
  · unfold exchange
    rw [consistencyCheck_of_lt h.leads hpre]
    exact heq
  · have hne := hr.1
    omega
  · refine Or.inl (hready ?_)
    rcases habove with hle | hlt
    · exact hle
    · omega
  · rw [AsksAboveSnapshot, not_or] at hbelow ⊢
    have hF := hkeeps (by omega)
    omega

/-- A refused round backs up, over the snapshot or inside the log. -/
theorem exchange_of_hint {i : Fin n} {x : Raft n C D × Raft n C D} (h : Exchanging i x)
    (hpre : x.1.snapshotIndex ≤ x.1.nextIndex i - 1) {args : AppendEntriesArgs n C}
    (hcheck : x.1.consistencyCheck i = some (some (.append args))) {follower' : Raft n C D}
    {reply : AppendEntriesReply} (heq : x.2.appendEntries args = some (follower', reply))
    (href : Refusal i x follower' reply) (hready : ¬ Ready i x) :
    ∃ x', exchange i x = some (.inr x') ∧ GoesOn i x x' := by
  have hF0 := h.follower.snapshotIndex_nonneg
  have hL0 := h.leader.snapshotIndex_nonneg
  have hLlast := h.leader.snapshotIndex_le
  have hlast : x.1.lastIndex + 1 = x.1.logs.length + x.1.snapshotIndex := by
    rw [lastIndex]
    omega
  have hagree : x.1.snapshotIndex = follower'.snapshotIndex →
      x.1.snapshotTerm = follower'.snapshotTerm := by
    rw [href.snapshotIndex, href.snapshotTerm]
    exact h.agree
  have hhint := href.hint
  unfold Hint at hhint
  obtain ⟨hup, hlow⟩ := backupIndex_bounds x.1 reply
  obtain ⟨next, sends, hback, hcases⟩ := backup_cases x.1 i reply
  rw [exchange_of_refusal h.leads hcheck heq href hback]
  rcases hcases with ⟨rfl, hne, hle⟩ | ⟨rfl, hzero, clamped, hclamped, hnext⟩
  · -- the hint is below the leader's snapshot, hence so is the follower's snapshot
    have hL : (x.1.setNext i next).WellFormed := h.leader.of_eq rfl rfl rfl
    obtain ⟨x', heq', hx', hsnap, hnext, hkeeps, hready'⟩ :=
      snapshotExchange_spec i (x.1.setNext i next) follower' h.leads (le_of_eq href.currentTerm)
        hL href.wellFormed hagree
    rw [href.snapshotIndex] at hkeeps hready'
    refine ⟨x', heq', hx', hsnap, hready, fun habove => Or.inl (hready' ?_), fun hbelow => ?_⟩
    · unfold AsksAboveSnapshot at habove
      show x.2.snapshotIndex ≤ x.1.snapshotIndex
      omega
    · rw [AsksAboveSnapshot, not_or] at hbelow ⊢
      have hlt : x.1.snapshotIndex < x.2.snapshotIndex := by omega
      have hF := hkeeps hlt
      have hS : x'.1.snapshotIndex = x.1.snapshotIndex := hsnap
      have hN : x'.1.nextIndex i = x.1.snapshotIndex + 1 := hnext
      omega
  · have hN : (x.1.setNext i next).nextIndex i = next := setNext_nextIndex ..
    have hrange : x.1.snapshotIndex ≤ next ∧ next ≤ x.1.lastIndex + 1 := by omega
    refine ⟨_, rfl, ⟨h.leads, le_of_eq href.currentTerm, h.leader.of_eq rfl rfl rfl,
      href.wellFormed, hagree, ?_, ?_⟩, rfl, hready, fun habove => Or.inr ?_, fun hbelow => ?_⟩
    · rw [hN]
      exact hrange.1
    · rw [hN]
      exact hrange.2
    · rw [hN]
      unfold AsksAboveSnapshot at habove
      omega
    · rw [AsksAboveSnapshot, not_or] at hbelow ⊢
      rw [hN]
      show ¬ follower'.snapshotIndex ≤ x.1.snapshotIndex ∧ ¬ follower'.snapshotIndex < next
      rw [href.snapshotIndex]
      omega

/-- A round ends with success, above the follower's snapshot, or goes on. -/
theorem exchange_step {i : Fin n} {x : Raft n C D × Raft n C D} (h : Exchanging i x) :
    (AsksAboveSnapshot i x ∧ ∃ b, exchange i x = some (.inl b)) ∨
      ∃ x', exchange i x = some (.inr x') ∧ GoesOn i x x' := by
  rcases lt_or_ge (x.1.nextIndex i - 1) x.1.snapshotIndex with hlt | hpre
  · exact Or.inr (exchange_of_lt h hlt)
  · obtain ⟨args, hcheck, hterm, hprev, hprevTerm⟩ :=
      consistencyCheck_of_le h.leads hpre h.nextIndex_le
    by_cases hacc : x.2.Accepts args
    · have hge := (termAt_eq_some hacc.2).1
      exact Or.inl ⟨Or.inr (by omega), exchange_of_accepts hcheck hacc⟩
    · obtain ⟨follower', reply, heq, href⟩ :=
        (accepts_or_refuses h hpre hterm hprev hprevTerm).resolve_left hacc
      refine Or.inr (exchange_of_hint h hpre hcheck heq href fun hr => hacc ⟨?_, ?_⟩)
      · rw [hterm]
        exact h.term_le
      · -- a follower that is ready accepts
        have hasks : x.1.nextIndex i - 1 = x.1.snapshotIndex := by
          rw [hr.1]
          omega
        rw [hprev, hasks, hr.2, ← hprevTerm, hasks, h.leader.snapshotTerm_eq]

/-! ## The whole exchange -/

/-- The rounds left: none but the last when the follower is ready. -/
def roundsLeft (i : Fin n) (x : Raft n C D × Raft n C D) : Nat :=
  if Ready i x then 0 else 1 + (x.1.nextIndex i - x.1.snapshotIndex).toNat

theorem GoesOn.roundsLeft_lt {i : Fin n} {x x' : Raft n C D × Raft n C D} (h : GoesOn i x x')
    (habove : AsksAboveSnapshot i x) : roundsLeft i x' < roundsLeft i x := by
  have hle := h.exchanging.le_nextIndex
  have hsnap := h.snapshotIndex
  unfold roundsLeft
  rw [if_neg h.notReady]
  split
  · omega
  · rename_i hnot
    have hlt := (h.above habove).resolve_left hnot
    omega

theorem exchanging_next {i : Fin n} (x x' : Raft n C D × Raft n C D) (h : Exchanging i x)
    (hs : exchange i x = some (.inr x')) : Exchanging i x' := by
  rcases exchange_step h with ⟨-, b, hb⟩ | ⟨y, hy, hgo⟩
  · rw [hs] at hb
    cases hb
  · obtain rfl : x' = y := by simpa using hs.symm.trans hy
    exact hgo.exchanging

/-- A leader that asks below the follower's snapshot goes on to do so. -/
theorem below_next {i : Fin n} (x : Raft n C D × Raft n C D) (h : Exchanging i x)
    (hbelow : ¬ AsksAboveSnapshot i x) :
    ∃ x', exchange i x = some (.inr x') ∧ ¬ AsksAboveSnapshot i x' := by
  rcases exchange_step h with ⟨habove, -⟩ | ⟨x', hx', hgo⟩
  · exact absurd habove hbelow
  · exact ⟨x', hx', hgo.below hbelow⟩

/-- A leader and a follower that agree where both snapshots end, with `nextIndex` inside the
leader's log, are in the middle of the exchange. -/
theorem exchanging_of {leader follower : Raft n C D} {i : Fin n} (hL : leader.WellFormed)
    (hF : follower.WellFormed) (hlead : leader.state = .leader)
    (hterm : follower.currentTerm ≤ leader.currentTerm)
    (hagree : ∀ j ≤ leader.snapshotIndex, j ≤ follower.snapshotIndex →
      ∀ s t, leader.termAt j = some s → follower.termAt j = some t → s = t)
    (hnext : leader.snapshotIndex < leader.nextIndex i)
    (hnext' : leader.nextIndex i ≤ leader.lastIndex + 1) : Exchanging i (leader, follower) := by
  refine ⟨hlead, hterm, hL, hF, fun hsame => ?_, le_of_lt hnext, hnext'⟩
  have hsame : leader.snapshotIndex = follower.snapshotIndex := hsame
  refine hagree leader.snapshotIndex (le_refl _) (le_of_eq hsame) _ _ hL.snapshotTerm_eq ?_
  rw [hsame]
  exact hF.snapshotTerm_eq

/-- **Backtracking.** The exchange reaches a reply that says `Success` after finitely many
rounds if and only if no round before it asks below the snapshot of a follower whose snapshot
is newer than the leader's. -/
theorem backtracking_succeeds_iff {leader follower : Raft n C D} {i : Fin n}
    (hL : leader.WellFormed) (hF : follower.WellFormed) (hlead : leader.state = .leader)
    (hterm : follower.currentTerm ≤ leader.currentTerm)
    (hagree : ∀ j ≤ leader.snapshotIndex, j ≤ follower.snapshotIndex →
      ∀ s t, leader.termAt j = some s → follower.termAt j = some t → s = t)
    (hnext : leader.snapshotIndex < leader.nextIndex i)
    (hnext' : leader.nextIndex i ≤ leader.lastIndex + 1) :
    Rounds.Finishes (exchange i) (leader, follower) ↔
      ∀ k x, Rounds.after (exchange i) k (leader, follower) = some x → AsksAboveSnapshot i x := by
  refine Rounds.finishes_iff (I := Exchanging i) (μ := roundsLeft i) exchanging_next ?_
    below_next (exchanging_of hL hF hlead hterm hagree hnext hnext')
  intro x h habove
  rcases exchange_step h with ⟨-, hb⟩ | ⟨x', hx', hgo⟩
  · exact Or.inl hb
  · exact Or.inr ⟨x', hx', hgo.roundsLeft_lt habove⟩

/-! ## Two exchanges -/

theorem WellFormed.of_logs {rf : Raft n C D} {e : LogEntry C} {rest : List (LogEntry C)}
    (hlogs : rf.logs = e :: rest) (hsnap : 0 ≤ rf.snapshotIndex) (hterm : e.term = rf.snapshotTerm)
    (hpos : 0 < rf.snapshotIndex → e.term ≠ 0) (hrest : ∀ x ∈ rest, x.term ≠ 0) :
    rf.WellFormed := by
  refine ⟨⟨by simp [hlogs], hsnap⟩, ?_, fun j t hj ht => ?_⟩
  · rw [termAt, entryAt_snapshotIndex, hlogs]
    exact congrArg some hterm
  · obtain ⟨x, hx, rfl⟩ := Option.map_eq_some_iff.mp ht
    obtain ⟨k, rfl, hget⟩ := entryAt_eq_some hx
    rw [hlogs] at hget
    cases k with
    | zero =>
        obtain rfl : e = x := by simpa using hget
        exact hpos (by omega)
    | succ k => exact hrest x (List.mem_of_getElem? (by simpa using hget))

/-- A leader of term 2 with two entries of term 1 and one of term 2, newly elected. -/
def leaderOfThree : Raft 3 Nat Unit :=
  { make 0 Persister.makePersister with
    state := .leader
    currentTerm := 2
    logs := [⟨0, none⟩, ⟨1, some 10⟩, ⟨1, some 11⟩, ⟨2, some 12⟩]
    nextIndex := fun _ => 4 }

/-- A follower with the two entries of term 1. -/
def followerOfTwo : Raft 3 Nat Unit :=
  { make 1 Persister.makePersister with
    currentTerm := 1
    logs := [⟨0, none⟩, ⟨1, some 10⟩, ⟨1, some 11⟩]
    commitIndex := 2 }

theorem leaderOfThree_wellFormed : leaderOfThree.WellFormed :=
  .of_logs rfl (by decide) rfl (by decide) (by decide)

theorem backtracking_succeeds_followerOfTwo :
    Rounds.Finishes (exchange 1) (leaderOfThree, followerOfTwo) := by
  refine (backtracking_succeeds_iff leaderOfThree_wellFormed
    (.of_logs rfl (by decide) rfl (by decide) (by decide)) rfl (by decide) ?_ (by decide)
    (by decide)).mpr ?_
  · intro j hj hj' s t hs ht
    have hb := termAt_eq_some hs
    obtain rfl : j = 0 := le_antisymm hj hb.1
    exact Option.some.inj (hs.symm.trans ht)
  · intro k x hk
    match k with
    | 0 =>
        obtain rfl := Option.some.inj hk
        exact Or.inl (by decide)
    | 1 =>
        obtain rfl := Option.some.inj hk
        exact Or.inl (by decide)
    | k + 2 => cases hk

/-- The same follower after it has compacted its log up to its last entry. -/
def compactedFollower : Raft 3 Nat Unit :=
  { followerOfTwo with
    logs := [⟨1, some 11⟩]
    snapshotIndex := 2
    snapshotTerm := 1 }

/-- The follower's logs match, it agrees with the leader at its snapshot, and the leader's log
reaches beyond it; but its hint leads the leader below the snapshot, and no round succeeds. -/
theorem compacted_follower_is_lost :
    leaderOfThree.state = .leader ∧ leaderOfThree.WellFormed ∧ compactedFollower.WellFormed ∧
      compactedFollower.currentTerm ≤ leaderOfThree.currentTerm ∧
      leaderOfThree.LogMatching compactedFollower ∧
      leaderOfThree.termAt compactedFollower.snapshotIndex
        = compactedFollower.termAt compactedFollower.snapshotIndex ∧
      compactedFollower.snapshotIndex ≤ leaderOfThree.lastIndex ∧
      leaderOfThree.snapshotIndex < leaderOfThree.nextIndex 1 ∧
      leaderOfThree.nextIndex 1 ≤ leaderOfThree.lastIndex + 1 ∧
      ¬ Rounds.Finishes (exchange 1) (leaderOfThree, compactedFollower) := by
  have hF : compactedFollower.WellFormed :=
    .of_logs rfl (by decide) rfl (by decide) (by decide)
  have hexch : Exchanging 1 (leaderOfThree, compactedFollower) :=
    ⟨rfl, by decide, leaderOfThree_wellFormed, hF, by decide, by decide, by decide⟩
  refine ⟨rfl, leaderOfThree_wellFormed, hF, by decide, ?_, by decide, by decide, by decide,
    by decide, fun hfin => ?_⟩
  · -- the follower has the entry at its snapshot only
    intro i t hi hi' j hji hj hj'
    have hi : 2 ≤ i ∧ i ≤ 2 := termAt_eq_some hi'
    have hj' : 2 ≤ j := hj'
    obtain rfl : j = 2 := by omega
    refine ⟨rfl, fun _ hlt => absurd hlt (by decide)⟩
  · obtain ⟨x, hx, hbelow⟩ : ∃ x, exchange 1 (leaderOfThree, compactedFollower) = some (.inr x) ∧
        ¬ AsksAboveSnapshot 1 x := ⟨_, rfl, by decide⟩
    exact Rounds.not_finishes exchanging_next below_next (exchanging_next _ _ hexch hx) hbelow
      (hfin.next hx)

end RaftLab.Raft
