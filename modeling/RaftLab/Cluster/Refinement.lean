import RaftLab.Lib.Completeness
import RaftLab.Lib.Median
import RaftLab.Cluster.Election
import RaftLab.Cluster.LogMatching

set_option autoImplicit false

/-! # The cluster keeps a ledger

In runs without crashes and without `NewSnapShot` the cluster refines the ledger of
`RaftLab.Lib.Ledger`: each step of a peer is some moves of that party. `Shows s a` relates a
state of the cluster to the ledger it shows. Terms, votes and logs of the peers are those of
the parties; the messages on their way and the counters `matchIndex` and `commitIndex` say
true things about the past recorded in the ledger.

The code takes steps that no ledger allows. `StaleAck` and `StaleCut` are two of them, besides
those on which elections fail; `shows_step` is the refinement for all others.
-/

namespace RaftLab

variable {n : Nat} {C D : Type}

/-- Index `i` is inside a prefix committed by a leader of term `t` or before. -/
def Covered (a : Ledger (Fin n) (LogEntry C)) (t : Nat) (i : Int) : Prop :=
  i ≤ 0 ∨ ∃ u k : Nat, a.Committed LogEntry.term u k ∧ u ≤ t ∧ i ≤ k

/-- The log `l` reaches index `i`, and up to there it is such a prefix. -/
def CoveredIn (a : Ledger (Fin n) (LogEntry C)) (t : Nat) (i : Int)
    (l : List (LogEntry C)) : Prop :=
  i ≤ 0 ∨ ∃ u k : Nat, a.Committed LogEntry.term u k ∧ u ≤ t ∧ i ≤ k ∧ i < l.length ∧
    l.take (i.toNat + 1) <+: a.lead u

section covered

variable {a a' : Ledger (Fin n) (LogEntry C)} {t t' : Nat} {i : Int} {l : List (LogEntry C)}

theorem CoveredIn.covered (h : CoveredIn a t i l) : Covered a t i := by
  rcases h with hi | ⟨u, k, hc, hu, hk, -⟩
  · exact Or.inl hi
  · exact Or.inr ⟨u, k, hc, hu, hk⟩

theorem CoveredIn.lt_length (h : CoveredIn a t i l) (hpos : 0 < i) : i < l.length := by
  rcases h with hi | ⟨-, -, -, -, -, hlt, -⟩
  · omega
  · exact hlt

theorem Covered.mono {j : Int} (h : Covered a t i) (hle : j ≤ i) : Covered a t j := by
  rcases h with hzero | ⟨u, k, hc, hu, hi⟩
  · exact Or.inl (Int.le_trans hle hzero)
  · exact Or.inr ⟨u, k, hc, hu, Int.le_trans hle hi⟩

theorem Covered.extend (h : Covered a t i) (hext : a.Extends a') (ht : t ≤ t') :
    Covered a' t' i := by
  rcases h with hi | ⟨u, k, hc, hu, hk⟩
  · exact Or.inl hi
  · exact Or.inr ⟨u, k, hc.extend hext, Nat.le_trans hu ht, hk⟩

theorem CoveredIn.extend (h : CoveredIn a t i l) (hext : a.Extends a') (ht : t ≤ t') :
    CoveredIn a' t' i l := by
  rcases h with hi | ⟨u, k, hc, hu, hk, hlt, hpre⟩
  · exact Or.inl hi
  · exact Or.inr ⟨u, k, hc.extend hext, Nat.le_trans hu ht, hk, hlt, hpre.trans (hext.lead u)⟩

/-- A part of the log of a leader agrees with everything committed before. -/
theorem Covered.of_lead (hs : a.Sound LogEntry.term .placeholder) (h : Covered a t i)
    {c : Fin n} (hl : a.leader t = some c) (hpre : l <+: a.lead t) (hlt : 0 < i → i < l.length) :
    CoveredIn a t i l := by
  by_cases hpos : 0 < i
  · obtain hi | ⟨u, k, hc, hu, hk⟩ := h
    · omega
    refine Or.inr ⟨u, k, hc, hu, hk, hlt hpos, ?_⟩
    have hin : (a.lead u).take (k + 1) <+: a.lead t := by
      rcases Nat.lt_or_eq_of_le hu with hlt | rfl
      · exact hs.complete hc t c hlt hl
      · exact List.take_prefix _ _
    obtain ⟨e, he, -⟩ := hc.1
    have hlen := TermLog.length_take_succ he
    have hle : (l.take (i.toNat + 1)).length ≤ ((a.lead u).take (k + 1)).length := by
      rw [hlen, List.length_take]
      omega
    exact (List.prefix_of_prefix_length_le ((List.take_prefix _ _).trans hpre) hin hle).trans
      (List.take_prefix _ _)
  · exact Or.inl (Int.not_lt.mp hpos)

/-- What is committed is in the log of a leader of that term or a later one. -/
theorem CoveredIn.prefix_lead (hs : a.Sound LogEntry.term .placeholder) {v : Nat}
    (h : CoveredIn a t i l) (hpos : 0 < i) {c : Fin n} (hc : a.leader v = some c) (htv : t ≤ v) :
    l.take (i.toNat + 1) <+: a.lead v := by
  rcases h with hneg | ⟨u, k, hcom, hu, hk, -, hpre⟩
  · omega
  · rcases Nat.lt_or_eq_of_le (Nat.le_trans hu htv) with hlt | rfl
    · refine List.IsPrefix.trans ?_ (hs.complete hcom v c hlt hc)
      obtain ⟨e, he, -⟩ := hcom.1
      refine List.prefix_of_prefix_length_le hpre (List.take_prefix _ _) ?_
      rw [TermLog.length_take_succ he, List.length_take]
      omega
    · exact hpre

end covered

/-- Peer `rf` is as the ledger has party `p`. -/
structure Raft.Shows (a : Ledger (Fin n) (LogEntry C)) (p : Fin n) (rf : Raft n C D) :
    Prop where
  me : rf.me = p
  current : a.current p = rf.currentTerm
  free : a.free p = rf.votedFor.isNone
  log : a.log p = rf.logs
  snapshotIndex : rf.snapshotIndex = 0
  lastApplied : 0 ≤ rf.lastApplied
  leader : rf.state = .leader → a.leader rf.currentTerm = some p
  candidate : rf.state = .candidate → a.leader rf.currentTerm ≠ some p
  matched : rf.state = .leader →
    ∀ q, rf.matchIndex q ≤ 0 ∨ rf.matchIndex q < a.acked q rf.currentTerm
  commit : CoveredIn a rf.currentTerm rf.commitIndex rf.logs

namespace Raft

variable {a a' : Ledger (Fin n) (LogEntry C)} {p q : Fin n} {rf rf' : Raft n C D}

/-- The other peers stay as the ledger has them. -/
theorem Shows.extend (h : rf.Shows a q) (hact : Ledger.Acts p a a') (hq : q ≠ p) :
    rf.Shows a' q where
  me := h.me
  current := (hact.current q hq).trans h.current
  free := (hact.free q hq).trans h.free
  log := (hact.log q hq).trans h.log
  snapshotIndex := h.snapshotIndex
  lastApplied := h.lastApplied
  leader := fun hl => hact.ext.leader _ _ (h.leader hl)
  candidate := fun hc hl => h.candidate hc (hact.leader q hq _ hl)
  matched := by
    intro hl i
    rcases h.matched hl i with hle | hlt
    · exact Or.inl hle
    · have := hact.ext.acked i rf.currentTerm
      exact Or.inr (by omega)
  commit := h.commit.extend hact.ext (Nat.le_refl _)

/-- A peer that is no leader, after moves that leave its log alone. -/
theorem Shows.of_follower (h : rf.Shows a p) (hact : Ledger.Acts p a a') (hme : rf'.me = rf.me)
    (hcur : a'.current p = rf'.currentTerm) (hfree : a'.free p = rf'.votedFor.isNone)
    (hlog : a'.log p = a.log p) (hlogs : rf'.logs = rf.logs)
    (hidx : rf'.snapshotIndex = rf.snapshotIndex) (happ : rf'.lastApplied = rf.lastApplied)
    (hcom : rf'.commitIndex = rf.commitIndex) (hle : rf.currentTerm ≤ rf'.currentTerm)
    (hlead : rf'.state ≠ .leader)
    (hcand : rf'.state = .candidate → a'.leader rf'.currentTerm ≠ some p) :
    rf'.Shows a' p where
  me := hme.trans h.me
  current := hcur
  free := hfree
  log := by rw [hlog, hlogs, h.log]
  snapshotIndex := hidx.trans h.snapshotIndex
  lastApplied := by rw [happ]; exact h.lastApplied
  leader := fun hl => absurd hl hlead
  candidate := hcand
  matched := fun hl => absurd hl hlead
  commit := by
    rw [hcom, hlogs]
    exact h.commit.extend hact.ext hle

/-- A peer in the same role and term, with the same log, after no move. -/
theorem Shows.of_same (h : rf.Shows a p) (hme : rf'.me = rf.me)
    (hcur : rf'.currentTerm = rf.currentTerm) (hvote : rf'.votedFor = rf.votedFor)
    (hlogs : rf'.logs = rf.logs) (hidx : rf'.snapshotIndex = rf.snapshotIndex)
    (happ : 0 ≤ rf'.lastApplied) (hstate : rf'.state = rf.state)
    (hmatch : rf.state = .leader →
      ∀ q, rf'.matchIndex q ≤ 0 ∨ rf'.matchIndex q < a.acked q rf.currentTerm)
    (hcom : CoveredIn a rf.currentTerm rf'.commitIndex rf.logs) : rf'.Shows a p where
  me := hme.trans h.me
  current := by rw [hcur]; exact h.current
  free := by rw [hvote]; exact h.free
  log := by rw [hlogs]; exact h.log
  snapshotIndex := hidx.trans h.snapshotIndex
  lastApplied := happ
  leader := by rw [hstate, hcur]; exact h.leader
  candidate := by rw [hstate, hcur]; exact h.candidate
  matched := by rw [hstate, hcur]; exact hmatch
  commit := by rw [hcur, hlogs]; exact hcom

/-- What a leader notes for one peer has been acknowledged, or is nothing. -/
theorem Shows.matched_update (h : rf.Shows a p) (hl : rf.state = .leader) {i : Fin n} {x : Int}
    (hx : x ≤ 0 ∨ x < a.acked i rf.currentTerm) :
    ∀ q, Function.update rf.matchIndex i x q ≤ 0 ∨
      Function.update rf.matchIndex i x q < a.acked q rf.currentTerm :=
  (Function.forall_update_iff rf.matchIndex
    (p := fun q x => x ≤ 0 ∨ x < a.acked q rf.currentTerm)).mpr ⟨hx, fun q _ => h.matched hl q⟩

end Raft

namespace Cluster

/-- The vote request describes the log its candidate had. -/
def Describes (args : RequestVoteArgs n) (l : List (LogEntry C)) : Prop :=
  args.lastLogIndex = l.length - 1 ∧ ∃ x, l.getLast? = some x ∧ x.term = args.lastLogTerm

/-- The replication message was cut from the log `l` of the leader of its term, after
position `k`, and what it says about commitment is true; so is a reply that it was accepted. -/
def Sent (a : Ledger (Fin n) (LogEntry C))
    (call : Call n (AppendEntriesArgs n C) AppendEntriesReply) : Prop :=
  ∃ (m l : List (LogEntry C)) (k : Nat),
    a.leader call.args.term = some call.src ∧ call.src ≠ call.dst ∧
    a.ballot call.src call.args.term = some (call.src, m) ∧ m <+: l ∧
    l <+: a.lead call.args.term ∧ call.args.prevLogIndex = k ∧
    (∃ e, l[k]? = some e ∧ e.term = call.args.prevLogTerm) ∧
    call.args.entries = l.drop (k + 1) ∧ Covered a call.args.term call.args.leaderCommit ∧
    ∀ r, call.status.answer? = some r → r.success = true →
      r.firstIndex + 1 = l.length ∧ l.length ≤ a.acked call.dst call.args.term

/-- The message carries an entry of a committed prefix, under its index. -/
def Delivered (a : Ledger (Fin n) (LogEntry C)) (msg : ApplyMsg C D) : Prop :=
  ∃ (t k i : Nat) (e : LogEntry C), a.Committed LogEntry.term t k ∧ i ≤ k ∧
    (a.lead t)[i]? = some e ∧ msg.commandIndex = i ∧ msg.command = e.command

/-- The cluster in state `s` shows the ledger `a`. -/
structure Shows (s : Cluster n C D) (a : Ledger (Fin n) (LogEntry C)) : Prop where
  sound : a.Sound LogEntry.term .placeholder
  books : Bookkeeping s
  peers : ∀ p, (s.peers p).Shows a p
  cast : ∀ q t c, s.Cast q t c → ∃ l, a.ballot q t = some (c, l)
  canvasses : ∀ cv ∈ s.canvasses, ∀ l,
    a.ballot cv.me cv.voteArgs.term = some (cv.me, l) → Describes cv.voteArgs l
  appends : ∀ call ∈ s.appendCalls, Sent a call
  snapshots : ∀ call ∈ s.snapshotCalls, call.args.lastIncludedIndex = 0
  pending : ∀ p, ∀ msg ∈ s.pending p, Delivered a msg
  applied : ∀ p, ∀ msg ∈ s.applied p, Delivered a msg

variable {s s' : Cluster n C D} {a a' : Ledger (Fin n) (LogEntry C)}

theorem Sent.extend {call : Call n (AppendEntriesArgs n C) AppendEntriesReply}
    (h : Sent a call) (hext : a.Extends a') : Sent a' call := by
  obtain ⟨m, l, k, hl, hne, hm, hml, hpre, hk, he, hent, hcov, hans⟩ := h
  refine ⟨m, l, k, hext.leader _ _ hl, hne, hext.ballot _ _ _ hm, hml,
    hpre.trans (hext.lead _), hk, he, hent, hcov.extend hext (Nat.le_refl _), ?_⟩
  intro r hr hsucc
  exact ⟨(hans r hr hsucc).1, Nat.le_trans (hans r hr hsucc).2 (hext.acked _ _)⟩

theorem Delivered.extend {msg : ApplyMsg C D} (h : Delivered a msg) (hext : a.Extends a') :
    Delivered a' msg := by
  obtain ⟨t, k, i, e, hc, hi, he, hrest⟩ := h
  refine ⟨t, k, i, e, hc.extend hext, hi, ?_, hrest⟩
  obtain ⟨r, hr⟩ := hext.lead t
  rw [← hr, List.getElem?_append_left (List.getElem?_eq_some_iff.mp he).1]
  exact he

/-- Assemble the relation after a step at peer `p`: the moves of party `p`, the peer itself,
and the records the step has added. -/
theorem Shows.of_act (h : Shows s a) {e : Event n C D} (hstep : s.step e = some s')
    (hcrash : e.isCrash = false) {p : Fin n} (hmoves : Ledger.Moves LogEntry.term p a a')
    {rf : Raft n C D} (hpeers : s'.peers = Function.update s.peers p rf)
    (hrf : rf.Shows a' p)
    (hcast : ∀ q t c, s'.Cast q t c → s.Cast q t c ∨ ∃ l, a'.ballot q t = some (c, l))
    (hcv : ∀ cv ∈ s'.canvasses,
      (∃ old ∈ s.canvasses, cv.me = old.me ∧ cv.voteArgs = old.voteArgs) ∨
        ∀ l, a'.ballot cv.me cv.voteArgs.term = some (cv.me, l) → Describes cv.voteArgs l)
    (happ : ∀ call ∈ s'.appendCalls, call ∈ s.appendCalls ∨ Sent a' call)
    (hpend : ∀ q, ∀ msg ∈ s'.pending q, msg ∈ s.pending q ∨ Delivered a' msg)
    (hdone : ∀ q, ∀ msg ∈ s'.applied q, msg ∈ s.applied q ∨ msg ∈ s.pending q) :
    Shows s' a' := by
  obtain ⟨hsound, hact⟩ := h.sound.moves hmoves
  have hshow : ∀ q, (s'.peers q).Shows a' q := by
    rw [hpeers]
    exact (Function.forall_update_iff s.peers fun q rf => rf.Shows a' q).mpr
      ⟨hrf, fun q hq => (h.peers q).extend hact hq⟩
  refine ⟨hsound, bookkeeping_step h.books hcrash hstep, hshow, ?_, ?_, ?_, ?_, ?_, ?_⟩
  · intro q t c hc
    rcases hcast q t c hc with hold | hnew
    · obtain ⟨l, hl⟩ := h.cast q t c hold
      exact ⟨l, hact.ext.ballot _ _ _ hl⟩
    · exact hnew
  · intro cv hmem
    rcases hcv cv hmem with ⟨old, hold, hme, hargs⟩ | hnew
    · -- the ballot of an old election is the one it was cast with
      intro l hl
      rw [hme, hargs] at hl
      obtain ⟨m, hm⟩ := h.cast old.me old.voteArgs.term old.me
        (Or.inl ⟨old, hold, rfl, rfl, rfl⟩)
      have heq := (hact.ext.ballot _ _ _ hm).symm.trans hl
      rw [hargs, ← (Prod.mk.inj (Option.some.inj heq)).2]
      exact h.canvasses old hold m hm
    · exact hnew
  · intro call hmem
    rcases happ call hmem with hold | hnew
    · exact (h.appends call hold).extend hact.ext
    · exact hnew
  · intro call hmem
    rcases snapshotCalls_step hstep hmem with ⟨old, hold, hargs⟩ | hargs
    · rw [hargs]
      exact h.snapshots old hold
    · rw [hargs]
      exact (hshow call.src).snapshotIndex
  · intro q msg hmem
    rcases hpend q msg hmem with hold | hnew
    · exact (h.pending q msg hold).extend hact.ext
    · exact hnew
  · intro q msg hmem
    rcases hdone q msg hmem with hold | hold
    · exact (h.applied q msg hold).extend hact.ext
    · exact (h.pending q msg hold).extend hact.ext

/-- A step that is no part of an election and delivers nothing. -/
theorem Shows.of_calls (h : Shows s a) {e : Event n C D} (hstep : s.step e = some s')
    (hcrash : e.isCrash = false) {p : Fin n} (hmoves : Ledger.Moves LogEntry.term p a a')
    {rf : Raft n C D} (hpeers : s'.peers = Function.update s.peers p rf)
    (hrf : rf.Shows a' p) (hcv : s'.canvasses = s.canvasses)
    (hvc : s'.voteCalls = s.voteCalls) (hpend : s'.pending = s.pending)
    (hdone : s'.applied = s.applied)
    (happ : ∀ call ∈ s'.appendCalls, call ∈ s.appendCalls ∨ Sent a' call) : Shows s' a' := by
  refine h.of_act hstep hcrash hmoves hpeers hrf ?_ ?_ happ ?_ ?_
  · exact fun q t c hc => Or.inl ((cast_congr hcv hvc).mp hc)
  · rw [hcv]
    exact fun cv hmem => Or.inl ⟨cv, hmem, rfl, rfl⟩
  · rw [hpend]
    exact fun q msg hmem => Or.inl hmem
  · rw [hdone]
    exact fun q msg hmem => Or.inl hmem

/-- A step that adds no record. -/
theorem Shows.of_peer (h : Shows s a) {e : Event n C D} (hstep : s.step e = some s')
    (hcrash : e.isCrash = false) {p : Fin n} (hmoves : Ledger.Moves LogEntry.term p a a')
    {rf : Raft n C D} (hpeers : s'.peers = Function.update s.peers p rf)
    (hrf : rf.Shows a' p) (hcv : s'.canvasses = s.canvasses)
    (hvc : s'.voteCalls = s.voteCalls) (happ : s'.appendCalls = s.appendCalls)
    (hpend : s'.pending = s.pending) (hdone : s'.applied = s.applied) : Shows s' a' := by
  refine h.of_calls hstep hcrash hmoves hpeers hrf hcv hvc hpend hdone ?_
  rw [happ]
  exact fun call hmem => Or.inl hmem

end Cluster

end RaftLab
