import RaftLab.Raft.Commit
import RaftLab.Raft.Exchange
import RaftLab.Cluster.Campaign

set_option autoImplicit false

/-! # The cluster can always go on

A leader whose term is above all others brings every other peer to its own log: each refusal lowers
`nextIndex`, which the placeholder at index 0 stops at 1 (`Led.catch_up`). With an entry of its own
term at the end of the log it commits all of it, and one more round of heartbeats tells the others
(`Led.commit`). Together with `exists_led`: from every state of a run on which the cluster keeps a
ledger, a new command can be committed and delivered at every peer
(`every_command_can_be_delivered`).
-/

namespace RaftLab

variable {n : Nat} {C D : Type}

namespace Raft

variable {rf : Raft n C D} {i : Fin n}

/-- What `updateCommitIndex` does when `matchIndex` is inside the log. -/
theorem updateCommitIndex_spec (hmatch : ∀ q, rf.matchIndex q ≤ rf.lastIndex) (p : Fin n) :
    ∃ c, rf.updateCommitIndex = some { rf with commitIndex := c } ∧
      ((∀ q, rf.matchIndex q = rf.lastIndex) → rf.termAt rf.lastIndex = some rf.currentTerm →
        rf.snapshotIndex < rf.lastIndex → rf.commitIndex ≤ rf.lastIndex → c = rf.lastIndex) := by
  obtain ⟨target, hmedian⟩ := rf.exists_medianMatch p
  have hle : target ≤ rf.lastIndex := by
    by_contra hgt
    have hheld := (le_sortedMatch_iff hmedian (rf.lastIndex + 1)).mp (by omega)
    have hnone : rf.holders (rf.lastIndex + 1) = ∅ := by
      refine Finset.filter_eq_empty_iff.mpr fun q _ hq => ?_
      have := hmatch q
      omega
    rw [hnone, Finset.card_empty] at hheld
    have := p.pos
    omega
  have hge : (∀ q, rf.matchIndex q = rf.lastIndex) → rf.lastIndex ≤ target := by
    intro hall
    have hevery : rf.holders rf.lastIndex = Finset.univ :=
      Finset.filter_true_of_mem fun q _ => (hall q).ge
    refine (le_sortedMatch_iff hmedian rf.lastIndex).mpr ?_
    rw [hevery, Finset.card_univ, Fintype.card_fin]
    omega
  by_cases hadv : rf.AdvancesTo target
  · exact ⟨target, updateCommitIndex_of_advances hadv,
      fun hall _ _ _ => Int.le_antisymm hle (hge hall)⟩
  · refine ⟨rf.commitIndex, updateCommitIndex_of_not_advances hmedian hle hadv, ?_⟩
    intro hall hown hsnap hcom
    obtain rfl : target = rf.lastIndex := Int.le_antisymm hle (hge hall)
    by_contra hne
    exact hadv ⟨hmedian, by omega, hsnap, hown⟩

/-- A leader with a whole log that hears of a refusal lowers `nextIndex`, but not below 1: the
follower's hint is above the placeholder and below the index that was asked about. -/
theorem handler_of_refusal (reply : AppendEntriesReply) (hl : rf.state = .leader)
    (hsnap : rf.snapshotIndex = 0) (hno : reply.success = false)
    (hterm : reply.currentTerm ≤ rf.currentTerm) (hpos : 0 < reply.firstIndex)
    (hlt : reply.firstIndex < rf.nextIndex i) (hnext : rf.nextIndex i ≤ rf.logs.length) :
    ∃ next, rf.consistencyCheckReplyHandler i reply = some (rf.setNext i next, none) ∧
      1 ≤ next ∧ next < rf.nextIndex i := by
  obtain ⟨hup, hlow⟩ := backupIndex_bounds rf reply
  obtain ⟨next, sends, hback, ⟨-, hne, -⟩ | ⟨rfl, -, clamped, hclamped, hcases⟩⟩ :=
    backup_cases rf i reply
  · exact absurd hsnap hne
  · rw [hsnap] at hlow hclamped
    refine ⟨next, ?_, ?_, ?_⟩
    · unfold consistencyCheckReplyHandler
      rw [if_neg (not_not.mpr hl), if_neg (by rw [hno]; decide), if_neg (not_lt.mpr hterm), hback]
      rfl
    · omega
    · omega

/-- A follower whose log begins as the leader's accepts the request, or its refusal lowers
`nextIndex`. -/
theorem accepts_or_lowers {fo : Raft n C D} {args : AppendEntriesArgs n C}
    (hcheck : rf.consistencyCheck i = some (some (.append args)))
    (hprev : args.prevLogIndex = rf.nextIndex i - 1)
    (hsnap : rf.snapshotIndex = 0) (hsnap' : fo.snapshotIndex = 0)
    (hroot : rf.logs[0]? = some .placeholder) (hroot' : fo.logs[0]? = some .placeholder)
    (hterm : fo.currentTerm ≤ args.term)
    (hpos : ∀ k t, 0 < k → fo.termAt k = some t → t ≠ 0)
    (hnext : rf.nextIndex i ≤ rf.logs.length) :
    fo.Accepts args ∨ ∃ reply next,
      fo.appendEntries args = some ((fo.hearLeader args).persist, reply) ∧
      reply.success = false ∧ reply.currentTerm = 0 ∧
      rf.consistencyCheckReplyHandler i reply = some (rf.setNext i next, none) ∧
      1 ≤ next ∧ next < rf.nextIndex i := by
  obtain ⟨hl, -, -, -, k, hk, ⟨e, he, het⟩, -⟩ := consistencyCheck_append hcheck
  rw [hsnap] at hk
  have hnil : fo.logs ≠ [] := by
    intro hnil
    rw [hnil] at hroot'
    cases hroot'
  have hlen := List.length_pos_of_ne_nil hnil
  cases hat : fo.termAt args.prevLogIndex with
  | none =>
      rcases termAt_eq_none_iff.mp hat with hlt | hlt
      · omega
      · -- the follower's log is too short
        obtain ⟨t, -, heq⟩ := appendEntries_of_lastIndex_lt hnil (by omega) hterm hlt
        rw [lastIndex] at hlt heq
        obtain ⟨next, hhandler, hbounds⟩ := handler_of_refusal (i := i)
          { currentTerm := 0, success := false, conflictTerm := t,
            firstIndex := fo.snapshotIndex + fo.logs.length - 1 + 1 }
          hl hsnap rfl (Nat.zero_le _) (by simp only; omega) (by simp only; omega) hnext
        exact Or.inr ⟨_, next, heq, rfl, rfl, hhandler, hbounds⟩
  | some t =>
      by_cases heq : t = args.prevLogTerm
      · exact Or.inl ⟨hterm, by rw [hat, heq]⟩
      · -- at the placeholder the two logs agree
        have hpos' : 0 < args.prevLogIndex := by
          by_contra hle
          obtain rfl : k = 0 := by omega
          have hzero : args.prevLogIndex = fo.snapshotIndex := by omega
          rw [hzero, termAt, entryAt_snapshotIndex, hroot'] at hat
          rw [hroot] at he
          cases he
          cases hat
          exact heq het
        obtain ⟨first, hfirst, hbound, heq'⟩ :=
          appendEntries_of_mismatch hterm hat heq (hpos _ _ hpos' hat)
        obtain ⟨next, hhandler, hbounds⟩ := handler_of_refusal (i := i)
          { currentTerm := 0, success := false, conflictTerm := t, firstIndex := first }
          hl hsnap rfl (Nat.zero_le _) (by simp only; omega) (by simp only; omega) hnext
        exact Or.inr ⟨_, next, heq', rfl, rfl, hhandler, hbounds⟩

end Raft

namespace Cluster

variable {s s' : Cluster n C D} {p q : Fin n} {t : Nat} {l : List (LogEntry C)}

/-! ## One round -/

theorem requestAt_of {A R : Type} [DecidableEq R] {calls : List (Call n A R)} {k : Nat}
    {call : Call n A R} (h : calls[k]? = some call) (hsent : call.status = .sent) :
    requestAt calls k = some call := by
  simp [requestAt, h, hsent]

theorem replyAt_of {A R : Type} {calls : List (Call n A R)} {k : Nat} {call : Call n A R}
    {reply : R} (h : calls[k]? = some call) (hrep : call.status = .replied reply)
    (hepoch : call.epoch = s.epoch call.src) : s.replyAt calls k = some (call, reply) := by
  simp [replyAt, h, hrep, hepoch, CallStatus.inFlight?]

/-- A request is harmless that takes no entry of its own term away. -/
theorem keepsLedger_appendEntries {k : Nat}
    {call : Call n (AppendEntriesArgs n C) AppendEntriesReply} {rf : Raft n C D}
    {reply : AppendEntriesReply} (hat : requestAt s.appendCalls k = some call)
    (hae : (s.peers call.dst).appendEntries call.args = some (rf, reply))
    (hcut : reply.success = true → rf.logs <+: (s.peers call.dst).logs →
      ∀ e ∈ (s.peers call.dst).logs.drop rf.logs.length, e.term ≠ call.args.term) :
    KeepsLedger s (.appendEntries k) := by
  refine ⟨⟨⟨rfl, ?_, ?_⟩, ?_⟩, rfl, ?_, ?_⟩
  · rintro ⟨x, hx, -⟩
    cases hx
  · rintro ⟨x, hx, -⟩
    cases hx
  · rintro ⟨x, hx, -⟩
    cases hx
  · rintro ⟨x, hx, -⟩
    cases hx
  · rintro ⟨x, hx, y, hy, hsucc, hpre, e, he, het⟩
    obtain rfl := Option.some.inj (hat.symm.trans hx)
    obtain rfl := Option.some.inj (hae.symm.trans hy)
    exact hcut hsucc hpre e he het

/-- A reply in the leader's own term is harmless. -/
theorem keepsLedger_appendReply {k : Nat}
    {call : Call n (AppendEntriesArgs n C) AppendEntriesReply} {reply : AppendEntriesReply}
    (hat : s.replyAt s.appendCalls k = some (call, reply))
    (hle : reply.currentTerm ≤ (s.peers call.src).currentTerm)
    (hterm : call.args.term = (s.peers call.src).currentTerm) :
    KeepsLedger s (.appendReply k) := by
  refine ⟨⟨⟨rfl, ?_, ?_⟩, ?_⟩, rfl, ?_, ?_⟩
  · rintro ⟨x, hx, -⟩
    cases hx
  · rintro ⟨x, hx, -, -, hlt⟩
    obtain rfl := Option.some.inj (hat.symm.trans hx)
    exact absurd hlt (Nat.not_lt.mpr hle)
  · rintro ⟨x, hx, -⟩
    cases hx
  · rintro ⟨x, hx, -, -, hne⟩
    obtain rfl := Option.some.inj (hat.symm.trans hx)
    exact hne hterm
  · rintro ⟨x, hx, -⟩
    cases hx

/-- A check of the leader, the request it sends and the reply, one after the other. -/
theorem exists_round (hne : q ≠ p) {args : AppendEntriesArgs n C} {fo rf : Raft n C D}
    {reply : AppendEntriesReply}
    (hcheck : (s.peers p).consistencyCheck q = some (some (.append args)))
    (hfo : (s.peers q).appendEntries args = some (fo, reply))
    (hrf : (s.peers p).consistencyCheckReplyHandler q reply = some (rf, none))
    (hle : reply.currentTerm ≤ (s.peers p).currentTerm)
    (hcut : reply.success = true → fo.logs <+: (s.peers q).logs →
      ∀ e ∈ (s.peers q).logs.drop fo.logs.length, e.term ≠ args.term) :
    ∃ s', Reaches s s' ∧ s'.peers = Function.update (Function.update s.peers q fo) p rf := by
  let k := s.appendCalls.length
  let call : Call n (AppendEntriesArgs n C) AppendEntriesReply :=
    { src := p, dst := q, epoch := s.epoch p, args := args, status := .sent }
  let s₁ : Cluster n C D := { s with appendCalls := s.appendCalls ++ [call] }
  have hstep₁ : s.step (.consistencyCheck p q) = some s₁ := by
    show s.stepConsistencyCheck p q = _
    simp [stepConsistencyCheck, hne, hcheck, s₁, call, send]
  have hk : s₁.appendCalls[k]? = some call := List.getElem?_concat_length
  let answered : Call n (AppendEntriesArgs n C) AppendEntriesReply :=
    { call with status := .replied reply }
  let s₂ : Cluster n C D :=
    { s₁.setPeer q fo with appendCalls := s₁.appendCalls.set k answered }
  have hstep₂ : s₁.step (.appendEntries k) = some s₂ := by
    have hfo : (s₁.peers call.dst).appendEntries call.args = some (fo, reply) := hfo
    show s₁.stepAppendEntries k = _
    simp only [stepAppendEntries, requestAt_of hk rfl, hfo, Option.bind_eq_bind, Option.bind_some]
    rfl
  have hp : s₂.peers p = s.peers p := Function.update_of_ne hne.symm _ _
  have hat : s₂.replyAt s₂.appendCalls k = some (answered, reply) :=
    replyAt_of (List.getElem?_set_self (List.getElem?_eq_some_iff.mp hk).1) rfl rfl
  let s₃ : Cluster n C D := { s₂.setPeer p rf with
    appendCalls := s₂.appendCalls.set k { answered with status := .done reply } }
  have hstep₃ : s₂.step (.appendReply k) = some s₃ := by
    have hrf : (s₂.peers answered.src).consistencyCheckReplyHandler answered.dst reply
        = some (rf, none) := by
      show (s₂.peers p).consistencyCheckReplyHandler q reply = _
      rw [hp]
      exact hrf
    show s₂.stepAppendReply k = _
    simp only [stepAppendReply, hat, hrf, Option.bind_eq_bind, Option.bind_some]
    rfl
  have hargs := (Raft.consistencyCheck_append hcheck).2.1
  refine ⟨s₃, ?_, rfl⟩
  refine .trans (.single ⟨keepsLedger_of_none rfl rfl rfl rfl rfl, rfl⟩ hstep₁)
    (.trans (.single ⟨keepsLedger_appendEntries (requestAt_of hk rfl) hfo hcut, rfl⟩ hstep₂)
      (.single ⟨keepsLedger_appendReply hat ?_ ?_, rfl⟩ hstep₃))
  · show reply.currentTerm ≤ (s₂.peers p).currentTerm
    rw [hp]
    exact hle
  · show args.term = (s₂.peers p).currentTerm
    rw [hp]
    exact hargs

/-! ## Catching up -/

/-- The leader `p` with the log `l` knows that peer `q` has the same log. -/
structure Caught (s : Cluster n C D) (p q : Fin n) (l : List (LogEntry C)) : Prop where
  logs : (s.peers q).logs = l
  matched : (s.peers p).matchIndex q = l.length - 1
  next : (s.peers p).nextIndex q = l.length

/-- Nothing has happened to the peers other than `q`, but that `p` has learned about `q`. -/
structure Aside (s s' : Cluster n C D) (p q : Fin n) : Prop where
  peers : ∀ r, r ≠ p → r ≠ q → s'.peers r = s.peers r
  matched : ∀ r, r ≠ q → (s'.peers p).matchIndex r = (s.peers p).matchIndex r
  next : ∀ r, r ≠ q → (s'.peers p).nextIndex r = (s.peers p).nextIndex r

theorem Aside.refl (s : Cluster n C D) (p q : Fin n) : Aside s s p q :=
  ⟨fun _ _ _ => rfl, fun _ _ => rfl, fun _ _ => rfl⟩

theorem Aside.trans {s'' : Cluster n C D} (h : Aside s s' p q) (h' : Aside s' s'' p q) :
    Aside s s'' p q :=
  ⟨fun r hp hq => (h'.peers r hp hq).trans (h.peers r hp hq),
    fun r hq => (h'.matched r hq).trans (h.matched r hq),
    fun r hq => (h'.next r hq).trans (h.next r hq)⟩

theorem Caught.aside {r : Fin n} (h : Caught s p r l) (ha : Aside s s' p q) (hrp : r ≠ p)
    (hrq : r ≠ q) : Caught s' p r l where
  logs := by
    rw [ha.peers r hrp hrq]
    exact h.logs
  matched := (ha.matched r hrq).trans h.matched
  next := (ha.next r hrq).trans h.next

/-- The leader after it has learned something about `q`. -/
structure Learns (q : Fin n) (rf rf' : Raft n C D) : Prop where
  state : rf'.state = rf.state
  currentTerm : rf'.currentTerm = rf.currentTerm
  logs : rf'.logs = rf.logs
  matched : ∀ r, r ≠ q → rf'.matchIndex r = rf.matchIndex r
  next : ∀ r, r ≠ q → rf'.nextIndex r = rf.nextIndex r

theorem Led.of_learns (h : Led s p t l) (hne : q ≠ p) (hr : Reaches s s') {fo rf : Raft n C D}
    (hpeers : s'.peers = Function.update (Function.update s.peers q fo) p rf)
    (hrf : Learns q (s.peers p) rf) (hfo : fo.currentTerm ≤ t) (hpos : 1 ≤ rf.nextIndex q)
    (hle : rf.nextIndex q ≤ l.length) : Led s' p t l ∧ Aside s s' p q := by
  have hp : s'.peers p = rf := by rw [hpeers, Function.update_self]
  have hothers : ∀ r, r ≠ p → r ≠ q → s'.peers r = s.peers r := by
    intro r hrp hrq
    rw [hpeers, Function.update_of_ne hrp, Function.update_of_ne hrq]
  have hnext : ∀ r, r ≠ p → 1 ≤ rf.nextIndex r ∧ rf.nextIndex r ≤ l.length := by
    intro r hrp
    by_cases hrq : r = q
    · rw [hrq]
      exact ⟨hpos, hle⟩
    · rw [hrf.next r hrq]
      exact ⟨h.next_pos r hrp, h.next_le r hrp⟩
  constructor
  · refine ⟨h.healthy.reaches hr, ?_, ?_, ?_, fun r => ?_, ?_, ?_, ?_⟩
    · rw [hp, hrf.state]
      exact h.leads
    · rw [hp, hrf.currentTerm]
      exact h.term
    · rw [hp, hrf.logs]
      exact h.logs
    · by_cases hrp : r = p
      · rw [hrp, hp, hrf.currentTerm]
        exact h.below p
      · by_cases hrq : r = q
        · rw [hrq, hpeers, Function.update_of_ne hne, Function.update_self]
          exact hfo
        · rw [hothers r hrp hrq]
          exact h.below r
    · rw [hp]
      exact fun r hrp => (hnext r hrp).1
    · rw [hp]
      exact fun r hrp => (hnext r hrp).2
    · rw [hp, hrf.matched p hne.symm]
      exact h.own
  · refine ⟨hothers, ?_, ?_⟩ <;> rw [hp]
    · exact hrf.matched
    · exact hrf.next

/-- Entries behind the placeholder have a term. -/
theorem Healthy.termAt_ne_zero (h : Healthy s) (q : Fin n) {k : Int} {u : Nat} (hk : 0 < k)
    (hterm : (s.peers q).termAt k = some u) : u ≠ 0 := by
  obtain ⟨a, ha⟩ := h.shows
  rintro rfl
  obtain ⟨e, he, het⟩ := Option.map_eq_some_iff.mp hterm
  obtain ⟨i, hi, hget⟩ := Raft.entryAt_eq_some he
  rw [(ha.peers q).snapshotIndex] at hi
  rw [← (ha.peers q).log] at hget
  -- in term 0 nobody has written anything but the placeholder
  have hnone : a.leader 0 = none := by
    cases hl : a.leader 0 with
    | none => rfl
    | some c => exact absurd (ha.sound.leader_lt hl).1 (Nat.lt_irrefl 0)
  have hpre := ha.sound.log_follows q i e hget
  rw [het, ha.sound.unled 0 hnone, if_pos rfl] at hpre
  have hlen := hpre.length_le
  rw [TermLog.length_take_succ hget, List.length_singleton] at hlen
  omega

/-- What the leader sends to `q`: the entry before `nextIndex`, and all that follow it. -/
theorem Led.check (h : Led s p t l) (hne : q ≠ p) :
    ∃ args, (s.peers p).consistencyCheck q = some (some (.append args)) ∧
      args.prevLogIndex = (s.peers p).nextIndex q - 1 := by
  have hsnap := h.healthy.snapshotIndex p
  have hpos := h.next_pos q hne
  have hle := h.next_le q hne
  obtain ⟨args, hcheck, hprev⟩ := Raft.consistencyCheck_of_ge (i := q) h.leads
    (h.healthy.logs_ne p) (by omega)
  refine ⟨args, hcheck, ?_⟩
  rw [hprev, Raft.lastIndex, h.logs]
  omega

/-- A follower that accepts has the leader's log afterwards, and loses no entry of the leader's
term. -/
theorem Led.follower (h : Led s p t l) {args : AppendEntriesArgs n C}
    (hcheck : (s.peers p).consistencyCheck q = some (some (.append args)))
    (hacc : (s.peers q).Accepts args) :
    ∃ fo reply, (s.peers q).appendEntries args = some (fo, reply) ∧ reply.success = true ∧
      reply.currentTerm = 0 ∧ reply.firstIndex = l.length - 1 ∧ fo.logs = l ∧
      fo.currentTerm = t ∧
      fo.commitIndex = (if (s.peers p).commitIndex > (s.peers q).commitIndex
        then min (s.peers p).commitIndex (l.length - 1) else (s.peers q).commitIndex) ∧
      ∀ x ∈ (s.peers q).logs.drop l.length, x.term ≠ args.term := by
  obtain ⟨a, ha⟩ := h.healthy.shows
  have hq := ha.peers q
  have hlead := lead_eq_logs ha h.leads
  rw [h.term, h.logs] at hlead
  have hfollows : TermLog.Follows LogEntry.term a.lead (s.peers q).logs := by
    rw [← hq.log]
    exact ha.sound.log_follows q
  obtain ⟨-, hterm, -, hcommit, k, hk, ⟨e, he, het⟩, hent⟩ := Raft.consistencyCheck_append hcheck
  rw [(ha.peers p).snapshotIndex, Int.zero_add] at hk
  rw [h.term] at hterm
  rw [h.logs] at he hent
  have hend : args.prevLogIndex + args.entries.length = l.length - 1 := by
    have hlt : k < l.length := (List.getElem?_eq_some_iff.mp he).1
    rw [hk, hent, List.length_drop]
    omega
  obtain ⟨fo, reply, hfo, hsucc, -, -, -, hcom, -⟩ := Raft.appendEntries_of_accepts hacc
  have hfirst := (Raft.lastIndex_of_success hfo hsucc).2
  rw [hend] at hcom hfirst
  rw [hcommit] at hcom
  have hcut : ∀ x ∈ (s.peers q).logs.drop l.length, x.term ≠ args.term := by
    -- all entries of the leader's term are in its log
    intro x hx hxt
    obtain ⟨i, hi⟩ := List.getElem?_of_mem hx
    rw [List.getElem?_drop] at hi
    have hpre := (hfollows _ x hi).length_le
    rw [hxt, hterm, hlead, TermLog.length_take_succ hi] at hpre
    omega
  rcases Raft.appendEntries_cases hfo with ⟨-, -, hno, -⟩ | ⟨-, -, -, hno, -⟩ |
    ⟨hle, j, hj, ⟨e', he', het'⟩, rfl, -, hzero, -⟩ | ⟨-, -, -, hno, -⟩
  · rw [hno] at hsucc
    cases hsucc
  · rw [hno] at hsucc
    cases hsucc
  · obtain rfl : k = j := by
      rw [hk, hq.snapshotIndex] at hj
      omega
    refine ⟨_, reply, hfo, hsucc, hzero, hfirst, ?_, ?_, hcom, hcut⟩
    · show ((s.peers q).hearLeader args).logs.take (k + 1) ++ args.entries = l
      rw [Raft.hearLeader_logs hle, hent]
      refine hfollows.splice ?_ he' he (het'.trans het.symm)
      rw [← hlead]
      exact ha.sound.lead_follows t
    · show ((s.peers q).hearLeader args).currentTerm = t
      rw [Raft.hearLeader_eq hle, ← hterm]
  · rw [hno] at hsucc
    cases hsucc

/-- The leader counts an acknowledgement of its whole log. When all others have acknowledged it and
the last entry is of its own term, everything is committed. -/
theorem Led.counts (h : Led s p t l) (q : Fin n) {reply : AppendEntriesReply}
    (hsucc : reply.success = true) (hfirst : reply.firstIndex = l.length - 1) :
    ∃ c, (s.peers p).consistencyCheckReplyHandler q reply =
        some ({ (s.peers p).acknowledged q (l.length - 1) with commitIndex := c }, none) ∧
      ((∀ r, r ≠ q → (s.peers p).matchIndex r = l.length - 1) →
        (s.peers p).termAt (l.length - 1) = some t → 1 < l.length → c = l.length - 1) := by
  obtain ⟨a, ha⟩ := h.healthy.shows
  have hp := ha.peers p
  have hlead := lead_eq_logs ha h.leads
  rw [h.term, h.logs] at hlead
  have hlast : ((s.peers p).acknowledged q (l.length - 1)).lastIndex = l.length - 1 := by
    show (s.peers p).snapshotIndex + ((s.peers p).logs.length : Int) - 1 = _
    rw [hp.snapshotIndex, h.logs]
    omega
  have hmatch : ∀ r, ((s.peers p).acknowledged q (l.length - 1)).matchIndex r ≤
      ((s.peers p).acknowledged q (l.length - 1)).lastIndex := by
    rw [hlast]
    refine (Function.forall_update_iff (s.peers p).matchIndex fun _ x => x ≤ _).mpr
      ⟨Int.le_refl _, fun r _ => ?_⟩
    have hacked := ha.sound.acked_lead r t
    rw [hlead] at hacked
    have hmatched := hp.matched h.leads r
    have hpos := List.length_pos_of_ne_nil (h.healthy.logs_ne p)
    rw [h.term] at hmatched
    rw [h.logs] at hpos
    omega
  obtain ⟨c, hup, hc⟩ := Raft.updateCommitIndex_spec hmatch p
  refine ⟨c, ?_, fun hall hown hlen => ?_⟩
  · have hup : Raft.updateCommitIndex { s.peers p with
        matchIndex := Function.update (s.peers p).matchIndex q (l.length - 1)
        nextIndex := Function.update (s.peers p).nextIndex q (l.length - 1 + 1) } = _ := hup
    unfold Raft.consistencyCheckReplyHandler
    rw [if_neg (not_not.mpr h.leads), if_pos hsucc, hfirst,
      if_neg (by rw [h.logs, hp.snapshotIndex]; omega), hup]
    rfl
  · have hin := (h.healthy.orderly.inOrder p).commitIndex_lt
    rw [h.logs] at hin
    rw [hlast] at hc
    refine hc ?_ ?_ ?_ ?_
    · exact (Function.forall_update_iff (s.peers p).matchIndex fun _ x => x = _).mpr ⟨rfl, hall⟩
    · exact hown.trans (congrArg some h.term.symm)
    · show (s.peers p).snapshotIndex < _
      rw [hp.snapshotIndex]
      omega
    · show (s.peers p).commitIndex ≤ _
      omega

/-- **A request that is accepted** gives the follower the leader's log, and the leader notes it. -/
theorem Led.accept (h : Led s p t l) (hne : q ≠ p) {args : AppendEntriesArgs n C}
    (hcheck : (s.peers p).consistencyCheck q = some (some (.append args)))
    (hacc : (s.peers q).Accepts args) :
    ∃ s', Reaches s s' ∧ Led s' p t l ∧ Aside s s' p q ∧ Caught s' p q l ∧
      (s'.peers q).commitIndex = (if (s.peers p).commitIndex > (s.peers q).commitIndex
        then min (s.peers p).commitIndex (l.length - 1) else (s.peers q).commitIndex) ∧
      ((∀ r, r ≠ q → (s.peers p).matchIndex r = l.length - 1) →
        (s.peers p).termAt (l.length - 1) = some t → 1 < l.length →
        (s'.peers p).commitIndex = l.length - 1) := by
  obtain ⟨fo, reply, hfo, hsucc, hzero, hfirst, hlogs, hterm, hcom, hcut⟩ :=
    h.follower hcheck hacc
  obtain ⟨c, hhandler, hc⟩ := h.counts q hsucc hfirst
  obtain ⟨s', hr, hpeers⟩ := exists_round hne hcheck hfo hhandler (by rw [hzero]; omega)
    (by rw [hlogs]; exact fun _ _ => hcut)
  have hps : s'.peers p = { (s.peers p).acknowledged q (l.length - 1) with commitIndex := c } := by
    rw [hpeers, Function.update_self]
  have hqs : s'.peers q = fo := by
    rw [hpeers, Function.update_of_ne hne, Function.update_self]
  have hnext : ((s.peers p).acknowledged q (l.length - 1)).nextIndex q = l.length := by
    show Function.update (s.peers p).nextIndex q _ q = _
    rw [Function.update_self]
    omega
  have hpos := List.length_pos_of_ne_nil (h.healthy.logs_ne p)
  rw [h.logs] at hpos
  obtain ⟨hled, haside⟩ := h.of_learns hne hr hpeers
    ⟨rfl, rfl, rfl, fun r hrq => Function.update_of_ne hrq _ _,
      fun r hrq => Function.update_of_ne hrq _ _⟩ hterm.le (by rw [hnext]; omega) hnext.le
  refine ⟨s', hr, hled, haside, ⟨by rw [hqs, hlogs], ?_, ?_⟩, by rw [hqs, hcom], ?_⟩
  · rw [hps]
    exact Function.update_self ..
  · rw [hps]
    exact hnext
  · rw [hps]
    exact hc

/-- One round brings the follower to the leader's log, or lowers `nextIndex`. -/
theorem Led.round (h : Led s p t l) (hne : q ≠ p) :
    ∃ s', Reaches s s' ∧ Led s' p t l ∧ Aside s s' p q ∧
      (Caught s' p q l ∨ (s'.peers p).nextIndex q < (s.peers p).nextIndex q) := by
  obtain ⟨args, hcheck, hprev⟩ := h.check hne
  have hterm : args.term = t := (Raft.consistencyCheck_append hcheck).2.1.trans h.term
  have hbelow := h.below q
  rcases Raft.accepts_or_lowers hcheck hprev (h.healthy.snapshotIndex p)
    (h.healthy.snapshotIndex q) (h.healthy.rooted p) (h.healthy.rooted q) (by omega)
    (fun k u => h.healthy.termAt_ne_zero q) (by rw [h.logs]; exact h.next_le q hne) with
    hacc | ⟨reply, next, hfo, hno, hzero, hhandler, hpos, hlt⟩
  · obtain ⟨s', hr, hled, haside, hcaught, -⟩ := h.accept hne hcheck hacc
    exact ⟨s', hr, hled, haside, Or.inl hcaught⟩
  · obtain ⟨s', hr, hpeers⟩ := exists_round hne hcheck hfo hhandler (by rw [hzero]; omega)
      (by rw [hno]; exact fun h => nomatch h)
    have hnext : ((s.peers p).setNext q next).nextIndex q = next := Raft.setNext_nextIndex ..
    have hle := h.next_le q hne
    obtain ⟨hled, haside⟩ := h.of_learns hne hr hpeers
      ⟨rfl, rfl, rfl, fun _ _ => rfl, fun r hrq => Function.update_of_ne hrq _ _⟩
      (by rw [Raft.hearLeader_eq (by omega)]; exact hterm.le) (by rw [hnext]; exact hpos)
      (by rw [hnext]; omega)
    refine ⟨s', hr, hled, haside, Or.inr ?_⟩
    rw [hpeers, Function.update_self, hnext]
    exact hlt

theorem Led.catch_up (h : Led s p t l) (hne : q ≠ p) :
    ∃ s', Reaches s s' ∧ Led s' p t l ∧ Aside s s' p q ∧ Caught s' p q l := by
  have hnear : ∀ u, Led u p t l ∧ Aside s u p q → ∃ v, Reaches u v ∧
      (Led v p t l ∧ Aside s v p q) ∧ (Caught v p q l ∨
        ((v.peers p).nextIndex q).toNat < ((u.peers p).nextIndex q).toNat) := by
    rintro u ⟨hled, haside⟩
    obtain ⟨v, hr, hled', haside', hstep⟩ := hled.round hne
    refine ⟨v, hr, ⟨hled', haside.trans haside'⟩, hstep.imp id fun hlt => ?_⟩
    have := hled'.next_pos q hne
    omega
  obtain ⟨s', hr, ⟨hled, haside⟩, hcaught⟩ :=
    Machine.leads_until _ hnear ⟨h, .refl s p q⟩
  exact ⟨s', hr, hled, haside, hcaught⟩

/-- Every other peer can be brought to the leader's log. -/
theorem Led.catch_up_all (h : Led s p t l) :
    ∃ s', Reaches s s' ∧ Led s' p t l ∧ ∀ q, q ≠ p → Caught s' p q l := by
  have hone : ∀ (u : Cluster n C D) (q : Fin n), Led u p t l → ∃ v, Reaches u v ∧ Led v p t l ∧
      (q ≠ p → Caught v p q l) ∧ ∀ r, (r ≠ p → Caught u p r l) → r ≠ p → Caught v p r l := by
    intro u q hu
    by_cases hq : q = p
    · exact ⟨u, .refl _ u, hu, fun hne => absurd hq hne, fun _ hr => hr⟩
    · obtain ⟨v, hr, hled, haside, hcaught⟩ := hu.catch_up hq
      refine ⟨v, hr, hled, fun _ => hcaught, fun r hcaughtr hrp => ?_⟩
      by_cases hrq : r = q
      · rw [hrq]
        exact hcaught
      · exact (hcaughtr hrp).aside haside hrp hrq
  obtain ⟨s', hr, hled, hall, -⟩ := Machine.leads_all hone (List.finRange n) h
  exact ⟨s', hr, hled, fun q => hall q (List.mem_finRange q)⟩

/-! ## Committing -/

/-- A heartbeat to a peer that has the log: the leader commits what it has, and the follower what
the leader had committed. -/
theorem Led.heartbeat (h : Led s p t l) (hall : ∀ q, q ≠ p → Caught s p q l) (hne : q ≠ p)
    (hown : (s.peers p).termAt (l.length - 1) = some t) (hlen : 1 < l.length) :
    ∃ s', Reaches s s' ∧ Led s' p t l ∧ Aside s s' p q ∧ (∀ r, r ≠ p → Caught s' p r l) ∧
      (s'.peers p).commitIndex = l.length - 1 ∧
      ((s.peers p).commitIndex = l.length - 1 → (s'.peers q).commitIndex = l.length - 1) := by
  have hcaught := hall q hne
  obtain ⟨args, hcheck, hprev⟩ := h.check hne
  have hsuffix := (Raft.suffixOf_of_consistencyCheck hcheck).prev
  have hterm : args.term = t := (Raft.consistencyCheck_append hcheck).2.1.trans h.term
  have hacc : (s.peers q).Accepts args := by
    refine ⟨by rw [hterm]; exact h.below q, ?_⟩
    rw [← hsuffix, Raft.termAt, Raft.termAt, Raft.entryAt, Raft.entryAt,
      h.healthy.snapshotIndex p, h.healthy.snapshotIndex q, hcaught.logs, h.logs]
  obtain ⟨s', hr, hled, haside, hcaught', hcom, hc⟩ := h.accept hne hcheck hacc
  refine ⟨s', hr, hled, haside, fun r hrp => ?_, hc (fun r hrq => ?_) hown hlen, fun hp => ?_⟩
  · by_cases hrq : r = q
    · rw [hrq]
      exact hcaught'
    · exact (hall r hrp).aside haside hrp hrq
  · by_cases hrp : r = p
    · rw [hrp]
      exact h.own
    · exact (hall r hrp).matched
  · have hin := (h.healthy.orderly.inOrder q).commitIndex_lt
    rw [hcaught.logs] at hin
    rw [hcom, hp]
    split <;> omega

/-- **A leader with an entry of its own term can commit its log at every peer.** -/
theorem Led.commit (h : Led s p t l) (hn : 2 ≤ n)
    (hown : ∃ e, l.getLast? = some e ∧ e.term = t) (hlen : 1 < l.length) :
    ∃ s', Reaches s s' ∧ Led s' p t l ∧ (∀ q, (s'.peers q).logs = l) ∧
      ∀ q, (s'.peers q).commitIndex = l.length - 1 := by
  -- what the heartbeats need to know of the last entry
  have hlast : ∀ {u : Cluster n C D}, Led u p t l → (u.peers p).termAt (l.length - 1) = some t := by
    intro u hu
    obtain ⟨e, he, het⟩ := hown
    have hidx : (l.length : Int) - 1 = (u.peers p).snapshotIndex + (l.length - 1 : Nat) := by
      rw [hu.healthy.snapshotIndex p]
      omega
    rw [hidx, Raft.termAt, Raft.entryAt_add, hu.logs, ← List.getLast?_eq_getElem?, he,
      Option.map_some, het]
  obtain ⟨s₁, hr₁, hled₁, hall₁⟩ := h.catch_up_all
  -- the first heartbeat makes the leader commit
  obtain ⟨q₀, hq₀⟩ : ∃ q : Fin n, q ≠ p := by
    have : Nontrivial (Fin n) := Fin.nontrivial_iff_two_le.mpr hn
    exact exists_ne p
  obtain ⟨s₂, hr₂, hled₂, -, hall₂, hcom₂, -⟩ :=
    hled₁.heartbeat hall₁ hq₀ (hlast hled₁) hlen
  -- the others follow
  have hone : ∀ (u : Cluster n C D) (q : Fin n),
      (Led u p t l ∧ (∀ q, q ≠ p → Caught u p q l) ∧ (u.peers p).commitIndex = l.length - 1) →
      ∃ v, Reaches u v ∧ (Led v p t l ∧ (∀ q, q ≠ p → Caught v p q l) ∧
          (v.peers p).commitIndex = l.length - 1) ∧
        (q ≠ p → (v.peers q).commitIndex = l.length - 1) ∧
        ∀ r, (r ≠ p → (u.peers r).commitIndex = l.length - 1) →
          r ≠ p → (v.peers r).commitIndex = l.length - 1 := by
    rintro u q ⟨hled, hall, hcom⟩
    by_cases hq : q = p
    · exact ⟨u, .refl _ u, ⟨hled, hall, hcom⟩, fun hne => absurd hq hne, fun _ hr => hr⟩
    · obtain ⟨v, hr, hled', haside, hall', hcom', hqcom⟩ :=
        hled.heartbeat hall hq (hlast hled) hlen
      refine ⟨v, hr, ⟨hled', hall', hcom'⟩, fun _ => hqcom hcom, fun r hrcom hrp => ?_⟩
      by_cases hrq : r = q
      · rw [hrq]
        exact hqcom hcom
      · rw [haside.peers r hrp hrq]
        exact hrcom hrp
  obtain ⟨s₃, hr₃, ⟨hled₃, hall₃, hcom₃⟩, hothers, -⟩ :=
    Machine.leads_all hone (List.finRange n) ⟨hled₂, hall₂, hcom₂⟩
  refine ⟨s₃, (hr₁.trans hr₂).trans hr₃, hled₃, fun q => ?_, fun q => ?_⟩
  · by_cases hq : q = p
    · rw [hq]
      exact hled₃.logs
    · exact (hall₃ q hq).logs
  · by_cases hq : q = p
    · rw [hq]
      exact hcom₃
    · exact hothers q (List.mem_finRange q) hq

/-! ## A new command -/

/-- The leader takes a command. -/
theorem Led.start (h : Led s p t l) (command : Option C) :
    ∃ s', s.step (.start p command) = some s' ∧
      Led s' p t (l ++ [{ term := t, command := command }]) := by
  let rf : Raft n C D := ((s.peers p).start command).1
  have hrf : rf.state = .leader ∧ rf.currentTerm = t ∧
      rf.logs = l ++ [{ term := t, command := command }] ∧
      (∀ q, q ≠ p → rf.nextIndex q = (s.peers p).nextIndex q) ∧
      rf.matchIndex p = l.length := by
    have hme := h.healthy.me p
    show (Raft.start (s.peers p) command).1.state = _ ∧ _
    rw [show rf = (Raft.start (s.peers p) command).1 from rfl, Raft.start, if_pos h.leads]
    refine ⟨h.leads, h.term, ?_, fun q hq => ?_, ?_⟩
    · show (s.peers p).logs ++ _ = _
      rw [h.logs, h.term]
    · show Function.update (s.peers p).nextIndex (s.peers p).me _ q = _
      rw [hme, Function.update_of_ne hq]
    · show Function.update (s.peers p).matchIndex (s.peers p).me _ p = _
      rw [hme, Function.update_self, h.healthy.snapshotIndex p, h.logs, Int.add_zero,
        List.length_append, List.length_singleton]
      omega
  obtain ⟨hleads, hterm, hlogs, hnext, hmatch⟩ := hrf
  have hp : (s.setPeer p rf).peers p = rf := Function.update_self ..
  refine ⟨s.setPeer p rf, rfl, healthy_step h.healthy (keepsLedger_start s p command) rfl,
    by rw [hp, hleads], by rw [hp, hterm], by rw [hp, hlogs], ?_, fun q hq => ?_, fun q hq => ?_,
    ?_⟩
  · exact (Function.forall_update_iff s.peers fun _ rf => rf.currentTerm ≤ t).mpr
      ⟨hterm.le, fun r _ => h.below r⟩
  · rw [hp, hnext q hq]
    exact h.next_pos q hq
  · have hle := h.next_le q hq
    rw [hp, hnext q hq, List.length_append]
    omega
  · rw [hp, hmatch, List.length_append, List.length_singleton]
    omega

/-- What a peer has committed is in the log of a leader whose term is not below. -/
theorem Led.committed_isPrefix (h : Led s p t l) (q : Fin n) :
    (s.peers q).committed <+: l.drop 1 := by
  obtain ⟨a, ha⟩ := h.healthy.shows
  by_cases hpos : 0 < (s.peers q).commitIndex
  · have hpre := (ha.peers q).commit.prefix_lead ha.sound hpos ((ha.peers p).leader h.leads)
      (by rw [h.term]; exact h.below q)
    rw [lead_eq_logs ha h.leads, h.logs] at hpre
    exact hpre.drop 1
  · rw [Raft.committed_eq_nil (by omega)]
    exact List.nil_prefix

/-! ## Delivery -/

/-- A run on which safety does not fail. -/
abbrev Safely (s s' : Cluster n C D) : Prop := Machine.Leads step KeepsLedger s s'

theorem Reaches.safely (h : Reaches s s') : Safely s s' := h.mono fun _ _ hok => hok.1

theorem Healthy.safely (h : Healthy s) (hr : Safely s s') : Healthy s' :=
  hr.induction (fun _ _ _ h hok hs => healthy_step h hok hs) h

theorem Healthy.committed_isPrefix (h : Healthy s) (hr : Safely s s') (q : Fin n) :
    (s.peers q).committed <+: (s'.peers q).committed := by
  obtain ⟨a, ha⟩ := h.shows
  obtain ⟨es, hok, hrun⟩ := hr
  obtain ⟨-, -, -, -, hcom⟩ := orderly_run ha h.orderly hok hrun
  exact hcom q

/-- The apply daemon sends what it has taken. -/
theorem exists_flush (s : Cluster n C D) (p : Fin n) :
    ∃ s', Safely s s' ∧ s'.peers = s.peers ∧
      s'.pending = Function.update s.pending p [] := by
  induction hpend : s.pending p generalizing s with
  | nil =>
      refine ⟨s, .refl _ s, rfl, ?_⟩
      rw [← hpend, Function.update_eq_self]
  | cons msg rest ih =>
      let s₁ : Cluster n C D := { s with
        pending := Function.update s.pending p rest
        applied := Function.update s.applied p (s.applied p ++ [msg]) }
      have hstep : s.step (.applySend p) = some s₁ := by
        show s.stepApplySend p = _
        rw [stepApplySend, hpend]
      obtain ⟨s', hr, hpeers, hnil⟩ := ih s₁ (Function.update_self ..)
      refine ⟨s', .trans (.single (keepsLedger_of_none rfl rfl rfl rfl rfl) hstep) hr, hpeers, ?_⟩
      rw [hnil]
      exact Function.update_idem ..

/-- The apply daemon takes the entries that are newly committed. -/
theorem Healthy.exists_take (h : Healthy s) (hnil : s.pending p = [])
    (hne : (s.peers p).lastApplied ≠ (s.peers p).commitIndex) :
    ∃ s', s.step (.applyTake p []) = some s' ∧
      s'.peers = Function.update s.peers p
        { s.peers p with lastApplied := (s.peers p).commitIndex } ∧
      ∃ msgs, s'.pending = Function.update s.pending p msgs := by
  obtain ⟨a, ha⟩ := h.shows
  have hpos := (ha.peers p).lastApplied
  have hidx := (ha.peers p).snapshotIndex
  obtain ⟨hle, hlt⟩ := h.orderly.inOrder p
  obtain ⟨logs, hlogs⟩ : ∃ logs, Slice.between (s.peers p).logs []
      ((s.peers p).lastApplied - (s.peers p).snapshotIndex + 1)
      ((s.peers p).commitIndex - (s.peers p).snapshotIndex + 1) = some logs :=
    ⟨_, Slice.between_of_le (by omega) (by omega) (by omega)⟩
  let rf : Raft n C D := { s.peers p with lastApplied := (s.peers p).commitIndex }
  let msgs : List (ApplyMsg C D) := Raft.applyMsgs ((s.peers p).lastApplied + 1) logs
  have htake : (s.peers p).applyLogEntries [] = some (rf, msgs) := by
    rw [Raft.applyLogEntries, if_neg hne, if_pos (by omega), hlogs]
    rfl
  refine ⟨{ s.setPeer p rf with pending := Function.update s.pending p msgs }, ?_, rfl, msgs, rfl⟩
  show s.stepApplyTake p [] = _
  simp only [stepApplyTake, hnil, htake, Option.bind_eq_bind]
  rfl

/-- The apply daemon delivers all that is committed. -/
theorem exists_delivery (h : Healthy s) (p : Fin n) :
    ∃ s', Safely s s' ∧
      s'.peers = Function.update s.peers p
        { s.peers p with lastApplied := (s.peers p).commitIndex } ∧
      s'.pending = Function.update s.pending p [] := by
  obtain ⟨s₁, hr₁, hpeers₁, hpend₁⟩ := exists_flush s p
  by_cases heq : (s.peers p).lastApplied = (s.peers p).commitIndex
  · refine ⟨s₁, hr₁, ?_, hpend₁⟩
    rw [hpeers₁, ← heq]
    exact (Function.update_eq_self p s.peers).symm
  · obtain ⟨s₂, hstep, hpeers₂, hpend₂⟩ := (h.safely hr₁).exists_take (p := p)
      (by rw [hpend₁, Function.update_self]) (by rw [hpeers₁]; exact heq)
    obtain ⟨s₃, hr₃, hpeers₃, hpend₃⟩ := exists_flush s₂ p
    refine ⟨s₃, (hr₁.trans (.single (keepsLedger_of_none rfl rfl rfl rfl rfl) hstep)).trans hr₃,
      ?_, ?_⟩
    · rw [hpeers₃, hpeers₂, hpeers₁]
    · obtain ⟨msgs, hpend₂⟩ := hpend₂
      rw [hpend₃, hpend₂, Function.update_idem, hpend₁, Function.update_idem]

/-- Every peer delivers all that it has committed. -/
theorem exists_deliveries (h : Healthy s) :
    ∃ s', Safely s s' ∧ ∀ p, (s'.peers p).committed = (s.peers p).committed ∧
      s'.applied p = Raft.applyMsgs 1 (s'.peers p).committed := by
  have hone : ∀ (u : Cluster n C D) (p : Fin n),
      (Healthy u ∧ ∀ q, (u.peers q).committed = (s.peers q).committed) →
      ∃ v, Safely u v ∧ (Healthy v ∧ ∀ q, (v.peers q).committed = (s.peers q).committed) ∧
        ((v.peers p).lastApplied = (v.peers p).commitIndex ∧ v.pending p = []) ∧
        ∀ q, ((u.peers q).lastApplied = (u.peers q).commitIndex ∧ u.pending q = []) →
          (v.peers q).lastApplied = (v.peers q).commitIndex ∧ v.pending q = [] := by
    rintro u p ⟨hu, hcom⟩
    obtain ⟨v, hr, hpeers, hpend⟩ := exists_delivery hu p
    have hp : (v.peers p).lastApplied = (v.peers p).commitIndex ∧ v.pending p = [] := by
      rw [hpeers, hpend, Function.update_self, Function.update_self]
      exact ⟨rfl, rfl⟩
    refine ⟨v, hr, ⟨hu.safely hr, fun q => ?_⟩, hp, fun q hq => ?_⟩
    · rw [← hcom q, hpeers]
      by_cases hqp : q = p
      · rw [hqp, Function.update_self]
        rfl
      · rw [Function.update_of_ne hqp]
    · by_cases hqp : q = p
      · rw [hqp]
        exact hp
      · rw [hpeers, hpend, Function.update_of_ne hqp, Function.update_of_ne hqp]
        exact hq
  obtain ⟨s', hr, ⟨hhealthy, hcom⟩, hall, -⟩ :=
    Machine.leads_all hone (List.finRange n) ⟨h, fun _ => rfl⟩
  refine ⟨s', hr, fun p => ⟨hcom p, ?_⟩⟩
  obtain ⟨happ, hpend⟩ := hall p (List.mem_finRange p)
  have hdel := hhealthy.orderly.delivery p
  rw [hpend, List.append_nil, Raft.taken, happ] at hdel
  exact hdel

/-- **The cluster can always go on.** From every state of a run on which the cluster keeps a
ledger, and for every command, some run of this kind ends with every peer having delivered one
sequence of messages: it begins with what the peer had delivered before, and its last message
carries the command. -/
theorem every_command_can_be_delivered (hn : 2 ≤ n) {es : List (Event n C D)}
    (hok : Machine.Along step KeepsLedger init es) (hs : runFrom es = some s)
    (command : Option C) :
    ∃ fs s' msgs msg, Machine.Along step KeepsLedger s fs ∧ Machine.run step s fs = some s' ∧
      msg.command = command ∧ ∀ p, s'.applied p = msgs ++ [msg] ∧ s.applied p <+: msgs := by
  have h := healthy_run hok hs
  obtain ⟨s₁, p, t, l, hr₁, hled₁⟩ := exists_led h hn
  obtain ⟨s₂, hstep, hled₂⟩ := hled₁.start command
  have hpos := List.length_pos_of_ne_nil (hled₁.healthy.logs_ne p)
  rw [hled₁.logs] at hpos
  obtain ⟨s₃, hr₃, hled₃, hlogs, hcom⟩ := hled₂.commit hn
    ⟨_, List.getLast?_concat, rfl⟩ (by rw [List.length_append, List.length_singleton]; omega)
  obtain ⟨s₄, hr₄, hall⟩ := exists_deliveries hled₃.healthy
  have hrun : Safely s s₄ := (hr₁.safely.trans (.single (keepsLedger_start _ p command)
    hstep)).trans (hr₃.safely.trans hr₄)
  have hcommitted : ∀ q, (s₃.peers q).committed =
      l.drop 1 ++ [{ term := t, command := command }] := by
    intro q
    rw [Raft.committed, hlogs q, hcom q, List.take_of_length_le (by omega),
      List.drop_append_of_le_length (by omega)]
  obtain ⟨fs, hal, hr⟩ := hrun
  refine ⟨fs, s₄, Raft.applyMsgs 1 (l.drop 1),
    { commandValid := true
      command := command
      commandIndex := 1 + (l.drop 1).length
      useSnapshot := false
      snapshot := none }, hal, hr, rfl, fun q => ⟨?_, ?_⟩⟩
  · rw [(hall q).2, (hall q).1, hcommitted q, applyMsgs_append]
    rfl
  · refine (h.orderly.applied_isPrefix q).trans (applyMsgs_isPrefix ?_)
    exact (h.committed_isPrefix hr₁.safely q).trans (hled₁.committed_isPrefix q)

/-- Two peers call for votes at once after a command has been delivered: nobody leads. -/
def contested : List (Event 3 Nat Unit) := oneCommand ++ [.canvassVotes 0, .canvassVotes 1]

theorem every_command_can_be_delivered_contested :
    ∃ s, runFrom contested = some s ∧ (∀ p, (s.peers p).state ≠ .leader) ∧
      ∃ fs s' msgs msg, Machine.Along step KeepsLedger s fs ∧ Machine.run step s fs = some s' ∧
        msg.command = some 8 ∧ ∀ p, s'.applied p = msgs ++ [msg] ∧ s.applied p <+: msgs := by
  have hok : Machine.Along step KeepsLedger init contested := by decide
  have hrun : (runFrom contested).any (fun s => ∀ p, (s.peers p).state ≠ .leader) = true := by
    decide
  obtain ⟨s, hs, hnone⟩ := (Option.any_eq_true _ _).mp hrun
  exact ⟨s, hs, of_decide_eq_true hnone,
    every_command_can_be_delivered (by decide) hok hs (some 8)⟩

end Cluster

end RaftLab
