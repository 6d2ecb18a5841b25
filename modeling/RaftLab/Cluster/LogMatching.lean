import RaftLab.Lib.TermLog
import RaftLab.Cluster.Persistence

set_option autoImplicit false

/-! # Log matching

Runs without `NewSnapShot`, with crashes, in which no term is won twice. The author of term
`t` is its one leader, and `lead t` is the longest log that leader has had in term `t`. Every
log of the cluster follows these authors: the logs of the peers, the logs in the persisters,
and the log a replication message was cut from. The message may be accepted when its leader
is long deposed or has lost entries; the log it was cut from still follows.

`LogInv` is that invariant, `logInv_step` its preservation, and `logs_match` the law for two
peers of any state reached.
-/

namespace RaftLab

variable {n : Nat} {C D : Type}

/-- The first entry of every log. -/
def LogEntry.placeholder : LogEntry C := { term := 0, command := none }

namespace Raft

/-- The five fields a restart would give the peer. -/
def stored (rf : Raft n C D) : StateData n C := rf.persister.raftstate.getD bootData

/-- What log matching needs of peer `p`, given the terms won and the logs of their leaders. -/
structure Matches (wins : List (Fin n × Nat)) (lead : Nat → List (LogEntry C)) (p : Fin n)
    (rf : Raft n C D) : Prop where
  follows : TermLog.Follows LogEntry.term lead rf.logs
  snapshotIndex : rf.snapshotIndex = 0
  storedIndex : rf.stored.snapshotIndex = 0
  storedLogs : rf.stored.logs = rf.logs
  positive : rf.state ≠ .follower → 0 < rf.currentTerm
  leading : rf.state = .leader → (p, rf.currentTerm) ∈ wins ∧ lead rf.currentTerm = rf.logs

variable {wins wins' : List (Fin n × Nat)} {lead lead' : Nat → List (LogEntry C)} {p : Fin n}
  {rf rf' : Raft n C D}

theorem stored_of_saved (h : rf.persister.raftstate = some rf.stateData) :
    rf.stored = rf.stateData := by
  rw [stored, h]
  rfl

/-- A handler that leaves a following log, saves it when it has changed it, and does not
make or keep a leader of a changed log. -/
theorem Matches.update (h : rf.Matches wins lead p)
    (hlog : TermLog.Follows LogEntry.term lead rf'.logs) (hidx : rf'.snapshotIndex = 0)
    (hst : rf'.persister.raftstate = some rf'.stateData ∨
      rf'.persister.raftstate = rf.persister.raftstate ∧ rf'.logs = rf.logs)
    (hrole : rf'.state = .follower ∨ rf'.state = .candidate ∧ 0 < rf'.currentTerm ∨
      rf'.state = rf.state ∧ rf'.currentTerm = rf.currentTerm ∧ rf'.logs = rf.logs) :
    rf'.Matches wins lead p := by
  have hstored : rf'.stored.snapshotIndex = 0 ∧ rf'.stored.logs = rf'.logs := by
    rcases hst with hsaved | ⟨hsame, hlogs⟩
    · rw [stored_of_saved hsaved]
      exact ⟨hidx, rfl⟩
    · have heq : rf'.stored = rf.stored := by rw [stored, stored, hsame]
      rw [heq, hlogs]
      exact ⟨h.storedIndex, h.storedLogs⟩
  refine ⟨hlog, hidx, hstored.1, hstored.2, ?_, ?_⟩
  · intro hne
    rcases hrole with hf | ⟨-, hpos⟩ | ⟨hs, ht, -⟩
    · exact absurd hf hne
    · exact hpos
    · rw [ht]
      exact h.positive (by rwa [hs] at hne)
  · intro hl
    rcases hrole with hf | ⟨hc, -⟩ | ⟨hs, ht, hlogs⟩
    · rw [hf] at hl
      cases hl
    · rw [hc] at hl
      cases hl
    · rw [ht, hlogs]
      exact h.leading (by rwa [hs] at hl)

/-- A handler that touches neither the log nor the stored state. -/
theorem Matches.quiet (h : rf.Matches wins lead p) (hlogs : rf'.logs = rf.logs)
    (hidx : rf'.snapshotIndex = rf.snapshotIndex)
    (hst : rf'.persister.raftstate = some rf'.stateData ∨
      rf'.persister.raftstate = rf.persister.raftstate)
    (hrole : rf'.state = .follower ∨ rf'.state = .candidate ∧ 0 < rf'.currentTerm ∨
      rf'.state = rf.state ∧ rf'.currentTerm = rf.currentTerm) :
    rf'.Matches wins lead p := by
  refine h.update (by rw [hlogs]; exact h.follows) (hidx.trans h.snapshotIndex) ?_ ?_
  · rcases hst with hsaved | hsame
    · exact Or.inl hsaved
    · exact Or.inr ⟨hsame, hlogs⟩
  · rcases hrole with hf | hc | ⟨hs, ht⟩
    · exact Or.inl hf
    · exact Or.inr (Or.inl hc)
    · exact Or.inr (Or.inr ⟨hs, ht, hlogs⟩)

/-- The authors' logs grow, other than the one of a term this peer leads. -/
theorem Matches.mono (h : rf.Matches wins lead p) (hw : wins ⊆ wins')
    (hlead : ∀ t, lead t <+: lead' t)
    (hown : rf.state = .leader → lead' rf.currentTerm = lead rf.currentTerm) :
    rf.Matches wins' lead' p where
  follows := h.follows.mono hlead
  snapshotIndex := h.snapshotIndex
  storedIndex := h.storedIndex
  storedLogs := h.storedLogs
  positive := h.positive
  leading := by
    intro hl
    rw [hown hl]
    exact ⟨hw (h.leading hl).1, (h.leading hl).2⟩

theorem requestVote_matches (h : rf.Matches wins lead p) {args : RequestVoteArgs n}
    {reply : RequestVoteReply} (hh : rf.requestVote args = some (rf', reply)) :
    rf'.Matches wins lead p := by
  have hadopt : ((rf.adoptTerm args.term).persist).Matches wins lead p := by
    rcases Nat.lt_or_ge rf.currentTerm args.term with hlt | hge
    · rw [adoptTerm_of_lt hlt]
      exact h.quiet rfl rfl (Or.inl rfl) (Or.inl rfl)
    · rw [adoptTerm_of_le hge]
      exact h.quiet rfl rfl (Or.inl rfl) (Or.inr (Or.inr ⟨rfl, rfl⟩))
  rcases requestVote_cases hh with ⟨-, rfl, -⟩ | ⟨-, -, -, rfl, -⟩ | ⟨-, rfl, -⟩
  · exact h.quiet rfl rfl (Or.inl rfl) (Or.inr (Or.inr ⟨rfl, rfl⟩))
  · exact hadopt.quiet rfl rfl (Or.inl rfl) (Or.inl rfl)
  · exact hadopt

/-- What a valid request does before the logs are compared. A candidate stays one. -/
theorem hearLeader_matches (h : rf.Matches wins lead p) {args : AppendEntriesArgs n C}
    (hle : rf.currentTerm ≤ args.term) : (rf.hearLeader args).Matches wins lead p := by
  rw [hearLeader_eq hle]
  refine h.quiet rfl rfl (Or.inr rfl) ?_
  have hpos := h.positive
  cases hs : rf.state with
  | follower => exact Or.inl rfl
  | candidate =>
      rw [hs] at hpos
      refine Or.inr (Or.inl ⟨rfl, ?_⟩)
      exact Nat.lt_of_lt_of_le (hpos (by decide)) hle
  | leader => exact Or.inl rfl

/-- `hearLeader` leaves no leader. -/
theorem hearLeader_state_ne (rf : Raft n C D) {args : AppendEntriesArgs n C}
    (hle : rf.currentTerm ≤ args.term) : (rf.hearLeader args).state ≠ .leader := by
  rw [hearLeader_eq hle]
  cases hs : rf.state <;> simp

/-- The request was cut from a log that follows the authors. -/
def Cut (lead : Nat → List (LogEntry C)) (args : AppendEntriesArgs n C) : Prop :=
  ∃ (m : List (LogEntry C)) (k : Nat), TermLog.Follows LogEntry.term lead m ∧
    args.prevLogIndex = k ∧ (∃ e, m[k]? = some e ∧ e.term = args.prevLogTerm) ∧
    args.entries = m.drop (k + 1)

theorem Cut.mono {args : AppendEntriesArgs n C} (h : Cut lead args)
    (hlead : ∀ t, lead t <+: lead' t) : Cut lead' args := by
  obtain ⟨m, k, hm, hrest⟩ := h
  exact ⟨m, k, hm.mono hlead, hrest⟩

/-- Accepting a request replaces the log by the one the request was cut from. -/
theorem appendEntries_matches (h : rf.Matches wins lead p) {args : AppendEntriesArgs n C}
    {reply : AppendEntriesReply} (hcut : Cut lead args)
    (hh : rf.appendEntries args = some (rf', reply)) : rf'.Matches wins lead p := by
  rcases appendEntries_cases hh with ⟨-, rfl, -⟩ | ⟨hle, -, rfl, -⟩ |
    ⟨hle, k, hk, ⟨e, he, het⟩, rfl, -⟩ | ⟨hle, -, rfl, -⟩
  · exact h
  · exact hearLeader_matches h hle
  · have hheard := hearLeader_matches h hle
    have hlogs : (rf.hearLeader args).logs = rf.logs := by rw [hearLeader_eq hle]
    obtain ⟨m, j, hm, hj, ⟨e', he', het'⟩, hent⟩ := hcut
    have hkj : k = j := by
      rw [h.snapshotIndex, hj] at hk
      omega
    subst hkj
    have hnew : ((rf.hearLeader args).accepted args k).logs = m := by
      show (rf.hearLeader args).logs.take (k + 1) ++ args.entries = m
      rw [hlogs, hent]
      exact h.follows.splice hm he he' (het.trans het'.symm)
    refine hheard.update (by rw [hnew]; exact hm) hheard.snapshotIndex (Or.inl rfl) ?_
    -- the old log is gone, but its holder is not a leader
    have hpos := hheard.positive
    have hne := hearLeader_state_ne rf hle
    show (rf.hearLeader args).state = .follower ∨
      (rf.hearLeader args).state = .candidate ∧ 0 < (rf.hearLeader args).currentTerm ∨ _
    cases hs : (rf.hearLeader args).state with
    | follower => exact Or.inl rfl
    | candidate =>
        rw [hs] at hpos
        exact Or.inr (Or.inl ⟨rfl, hpos (by decide)⟩)
    | leader => exact absurd hs hne
  · have hheard := hearLeader_matches h hle
    exact hheard.quiet rfl rfl (Or.inl rfl) (Or.inr (Or.inr ⟨rfl, rfl⟩))

theorem updateCommitIndex_matches (h : rf.Matches wins lead p)
    (hh : rf.updateCommitIndex = some rf') : rf'.Matches wins lead p := by
  rcases updateCommitIndex_cases hh with rfl | ⟨target, -, -, -, -, rfl⟩
  · exact h
  · exact h.quiet rfl rfl (Or.inr rfl) (Or.inr (Or.inr ⟨rfl, rfl⟩))

theorem consistencyCheckReplyHandler_matches (h : rf.Matches wins lead p) {i : Fin n}
    {reply : AppendEntriesReply} {out : Option (InstallSnapshotArgs n D)}
    (hh : rf.consistencyCheckReplyHandler i reply = some (rf', out)) :
    rf'.Matches wins lead p := by
  rcases consistencyCheckReplyHandler_cases hh with ⟨-, rfl, -⟩ | ⟨-, -, -, hup, -⟩ |
    ⟨-, -, -, rfl, -⟩ | ⟨-, -, -, ⟨next, rfl⟩, -⟩
  · exact h
  · have hack : (rf.acknowledged i reply.firstIndex).Matches wins lead p :=
      h.quiet rfl rfl (Or.inr rfl) (Or.inr (Or.inr ⟨rfl, rfl⟩))
    exact updateCommitIndex_matches hack hup
  · exact h.quiet rfl rfl (Or.inl rfl) (Or.inl rfl)
  · exact h.quiet rfl rfl (Or.inr rfl) (Or.inr (Or.inr ⟨rfl, rfl⟩))

theorem snapshotReplyHandler_matches (h : rf.Matches wins lead p) (i : Fin n)
    (reply : InstallSnapshotReply) : (rf.snapshotReplyHandler i reply).Matches wins lead p := by
  rcases snapshotReplyHandler_cases rf i reply with ⟨-, heq⟩ | ⟨-, -, heq⟩ | ⟨-, -, heq⟩
  · rw [heq]
    exact h
  · rw [heq]
    exact h.quiet rfl rfl (Or.inr rfl) (Or.inl rfl)
  · rw [heq]
    exact h.quiet rfl rfl (Or.inr rfl) (Or.inr (Or.inr ⟨rfl, rfl⟩))

theorem make_matches (h : rf.Matches wins lead p) :
    (make p rf.persister).Matches wins lead p := by
  have hdata : (make p rf.persister).stateData = rf.stored := make_stateData p rf.persister
  have hlogs : (make p rf.persister).logs = rf.logs :=
    (congrArg StateData.logs hdata).trans h.storedLogs
  have hidx : (make p rf.persister).snapshotIndex = rf.snapshotIndex :=
    ((congrArg StateData.snapshotIndex hdata).trans h.storedIndex).trans h.snapshotIndex.symm
  refine h.quiet hlogs hidx (Or.inr ?_) (Or.inl ?_)
  · rw [make_persister]
  · rcases hr : rf.persister.raftstate with _ | d
    · rw [make, hr]
      rfl
    · rw [make, hr]
      rfl

end Raft

namespace Cluster

variable {s s' : Cluster n C D} {lead lead' : Nat → List (LogEntry C)}

/-- Every log of the cluster follows the leaders of the terms won so far. -/
structure LogInv (s : Cluster n C D) (lead : Nat → List (LogEntry C)) : Prop where
  boot : lead 0 = [.placeholder]
  fresh : ∀ t, 0 < t → t ∉ s.wins.map Prod.snd → lead t = []
  peers : ∀ p, (s.peers p).Matches s.wins lead p
  appends : ∀ call ∈ s.appendCalls, Raft.Cut lead call.args
  snapshots : ∀ call ∈ s.snapshotCalls, call.args.lastIncludedIndex = 0

theorem logInv_init : ∃ lead, LogInv (init : Cluster n C D) lead := by
  refine ⟨fun t => if t = 0 then [.placeholder] else [], rfl, ?_, ?_, ?_, ?_⟩
  · intro t ht _
    exact if_neg (by omega)
  · intro p
    refine ⟨?_, rfl, rfl, rfl, fun h => absurd rfl h, fun h => nomatch h⟩
    intro i e he
    have hlt : i < 1 := (List.getElem?_eq_some_iff.mp he).1
    obtain rfl : i = 0 := by omega
    obtain rfl : LogEntry.placeholder = e := Option.some.inj he
    exact List.prefix_refl _
  · intro call h
    cases h
  · intro call h
    cases h

/-- The messages after a step follow when the peers do. -/
theorem LogInv.of_peers (hinv : LogInv s lead) {e : Event n C D} (h : s.step e = some s')
    (hlead : ∀ t, lead t <+: lead' t) (hboot : lead' 0 = [.placeholder])
    (hfresh : ∀ t, 0 < t → t ∉ s'.wins.map Prod.snd → lead' t = [])
    (hpeers : ∀ p, (s'.peers p).Matches s'.wins lead' p) : LogInv s' lead' where
  boot := hboot
  fresh := hfresh
  peers := hpeers
  appends := by
    intro call hmem
    rcases appendCalls_step h hmem with ⟨old, hold, hargs, -, -⟩ | ⟨i, hcc, -, -⟩
    · rw [hargs]
      exact (hinv.appends old hold).mono hlead
    · obtain ⟨-, -, -, -, k, hk, hprev, hent⟩ := Raft.consistencyCheck_append hcc
      have hm := hinv.peers call.src
      refine ⟨(s.peers call.src).logs, k, hm.follows.mono hlead, ?_, hprev, hent⟩
      rw [hk, hm.snapshotIndex, Int.zero_add]
  snapshots := by
    intro call hmem
    rcases snapshotCalls_step h hmem with ⟨old, hold, hargs⟩ | hargs
    · rw [hargs]
      exact hinv.snapshots old hold
    · rw [hargs]
      exact (hpeers call.src).snapshotIndex

/-- A step at one peer that wins no term and writes no entry. -/
theorem LogInv.of_peer (hinv : LogInv s lead) {e : Event n C D} (h : s.step e = some s')
    {p : Fin n} {rf : Raft n C D} (hp : s'.peers = Function.update s.peers p rf)
    (hw : s'.wins = s.wins) (hrf : rf.Matches s.wins lead p) : ∃ lead', LogInv s' lead' := by
  refine ⟨lead, hinv.of_peers h (fun t => List.prefix_refl _) hinv.boot ?_ ?_⟩
  · rw [hw]
    exact hinv.fresh
  · rw [hp, hw]
    exact (Function.forall_update_iff s.peers fun q rf => rf.Matches s.wins lead q).mpr
      ⟨hrf, fun q _ => hinv.peers q⟩

/-- The log of a term that somebody has won gets longer, and those of the other terms stay. -/
theorem LogInv.of_written (hinv : LogInv s lead) {e : Event n C D} (h : s.step e = some s')
    {p : Fin n} {t : Nat} {l : List (LogEntry C)} (hpos : 0 < t) (hwon : (p, t) ∈ s'.wins)
    (hl : lead t <+: l)
    (hpeers : ∀ q, (s'.peers q).Matches s'.wins (Function.update lead t l) q) :
    LogInv s' (Function.update lead t l) := by
  refine hinv.of_peers h (TermLog.isPrefix_update hl) ?_ ?_ hpeers
  · rw [Function.update_of_ne (by omega)]
    exact hinv.boot
  · intro u hu hfresh
    have hne : u ≠ t := by
      rintro rfl
      exact hfresh (List.mem_map_of_mem hwon)
    rw [Function.update_of_ne hne]
    exact hinv.fresh u hu fun hmem =>
      hfresh (List.map_subset Prod.snd (wins_step h).subset hmem)

/-- The leader of a term writes an entry. -/
theorem LogInv.of_start (hinv : LogInv s lead) (hnodup : (s.wins.map Prod.snd).Nodup)
    {p : Fin n} {command : Option C} (h : s.step (.start p command) = some s')
    (hl : (s.peers p).state = .leader) : ∃ lead', LogInv s' lead' := by
  obtain rfl : s.setPeer p ((s.peers p).start command).1 = s' := Option.some.inj h
  obtain ⟨hwin, hlog⟩ := (hinv.peers p).leading hl
  have hpos : 0 < (s.peers p).currentTerm := (hinv.peers p).positive (by rw [hl]; decide)
  -- nobody else leads this term
  have hsole : ∀ q, (s.peers q).state = .leader →
      (s.peers q).currentTerm = (s.peers p).currentTerm → q = p := by
    intro q hq heq
    have hwq := ((hinv.peers q).leading hq).1
    rw [heq] at hwq
    have hinj := List.inj_on_of_nodup_map hnodup hwq hwin rfl
    exact congrArg Prod.fst hinj
  generalize ht : (s.peers p).currentTerm = t at *
  let entry : LogEntry C := { term := t, command := command }
  have hgrow : ∀ u, lead u <+: Function.update lead t (lead t ++ [entry]) u :=
    TermLog.isPrefix_update (List.prefix_append _ _)
  refine ⟨_, hinv.of_written h hpos hwin (List.prefix_append _ [entry]) fun q => ?_⟩
  rw [setPeer_peers]
  by_cases hq : q = p
  · subst hq
    rw [Function.update_self, Raft.start, if_pos hl]
    have hfol := (hinv.peers q).follows.mono hgrow
    refine ⟨?_, (hinv.peers q).snapshotIndex, (hinv.peers q).snapshotIndex, rfl, ?_, ?_⟩
    · show TermLog.Follows _ _
        ((s.peers q).logs ++ [{ term := (s.peers q).currentTerm, command := command }])
      rw [ht]
      refine hfol.concat (e := entry) ?_
      show (s.peers q).logs ++ [entry] <+: Function.update lead t (lead t ++ [entry]) t
      rw [Function.update_self, hlog]
    · intro _
      show 0 < (s.peers q).currentTerm
      omega
    · intro _
      show (q, (s.peers q).currentTerm) ∈ s.wins ∧ Function.update lead t _ (s.peers q).currentTerm
        = (s.peers q).logs ++ [{ term := (s.peers q).currentTerm, command := command }]
      rw [ht, Function.update_self, hlog]
      exact ⟨hwin, rfl⟩
  · rw [Function.update_of_ne hq]
    refine (hinv.peers q).mono (List.Subset.refl _) hgrow fun hlq => Function.update_of_ne ?_ _ _
    exact fun heq => hq (hsole q hlq heq)

/-- A candidate wins a term that nobody has won before. -/
theorem LogInv.of_win (hinv : LogInv s lead) {e : Event n C D} (h : s.step e = some s')
    {p : Fin n} (hc : (s.peers p).state = .candidate)
    (hp : s'.peers = Function.update s.peers p
      ({ s.peers p with state := .leader }.resetOnElection))
    (hw : s'.wins = s.wins ++ [(p, (s.peers p).currentTerm)])
    (hnodup : (s'.wins.map Prod.snd).Nodup) : ∃ lead', LogInv s' lead' := by
  have hpos : 0 < (s.peers p).currentTerm := (hinv.peers p).positive (by rw [hc]; decide)
  have hnew : (s.peers p).currentTerm ∉ s.wins.map Prod.snd := by
    rw [hw, List.map_append, List.nodup_append] at hnodup
    intro hmem
    exact hnodup.2.2 _ hmem _ (by simp) rfl
  have hnone := hinv.fresh _ hpos hnew
  have hwon : (p, (s.peers p).currentTerm) ∈ s'.wins := by
    rw [hw]
    simp
  generalize ht : (s.peers p).currentTerm = t at *
  -- no other leader has written in this term
  have hnil : lead t <+: (s.peers p).logs := hnone ▸ List.nil_prefix
  have hgrow := TermLog.isPrefix_update hnil
  refine ⟨_, hinv.of_written h hpos hwon hnil fun q => ?_⟩
  rw [hp]
  by_cases hq : q = p
  · subst hq
    rw [Function.update_self]
    have hm := hinv.peers q
    refine ⟨hm.follows.mono hgrow, hm.snapshotIndex, hm.storedIndex, hm.storedLogs, ?_, ?_⟩
    · intro _
      show 0 < (s.peers q).currentTerm
      omega
    · intro _
      show (q, (s.peers q).currentTerm) ∈ s'.wins ∧
        Function.update lead t (s.peers q).logs (s.peers q).currentTerm = (s.peers q).logs
      rw [ht, Function.update_self]
      exact ⟨hwon, rfl⟩
  · rw [Function.update_of_ne hq]
    refine (hinv.peers q).mono (wins_step h).subset hgrow fun hlq => Function.update_of_ne ?_ _ _
    rintro rfl
    exact hnew (List.mem_map_of_mem ((hinv.peers q).leading hlq).1)

/-- **Every step keeps the logs following**, the authors' logs growing with it. -/
theorem logInv_step {e : Event n C D} (hinv : LogInv s lead) (hsnap : e.isSnapshot = false)
    (hnodup : (s'.wins.map Prod.snd).Nodup) (h : s.step e = some s') :
    ∃ lead', LogInv s' lead' := by
  cases e with
  | canvassVotes p =>
      obtain ⟨rf, args, hfill, rfl⟩ := stepCanvassVotes_eq_some h
      obtain ⟨rfl, -, -, -⟩ := Raft.fillRequestVoteArgs_eq_some hfill
      refine hinv.of_peer h rfl rfl ((hinv.peers p).quiet rfl rfl (Or.inr rfl) ?_)
      exact Or.inr (Or.inl ⟨rfl, Nat.succ_pos _⟩)
  | requestVote k =>
      obtain ⟨call, rf, reply, -, hrv, rfl⟩ := stepRequestVote_eq_some h
      exact hinv.of_peer h rfl rfl (Raft.requestVote_matches (hinv.peers call.dst) hrv)
  | voteReply k =>
      obtain ⟨call, cv, reply, rf, votes, -, hh, rfl⟩ := stepVoteReply_eq_some h
      rcases Raft.voteReplyHandler_cases (s.peers cv.me) cv.voteArgs cv.votes reply with
        heq | ⟨-, -, heq⟩ | ⟨hc, -, -, -, heq⟩ | ⟨-, -, heq⟩
      · cases hh.symm.trans heq
        exact hinv.of_peer h rfl (if_neg (fun hl => hl.1 hl.2)) (hinv.peers cv.me)
      · cases hh.symm.trans heq
        refine hinv.of_peer h rfl (if_neg (fun hl => nomatch hl.2)) ?_
        exact (hinv.peers cv.me).quiet rfl rfl (Or.inl rfl) (Or.inl rfl)
      · -- the vote that makes it the leader: its log becomes the log of the term
        cases hh.symm.trans heq
        refine hinv.of_win h hc rfl (if_pos ⟨?_, rfl⟩) hnodup
        rw [hc]
        decide
      · cases hh.symm.trans heq
        exact hinv.of_peer h rfl (if_neg (fun hl => hl.1 hl.2)) (hinv.peers cv.me)
  | start p command =>
      by_cases hl : (s.peers p).state = .leader
      · have hw : s'.wins = s.wins := by
          obtain rfl : s.setPeer p ((s.peers p).start command).1 = s' := Option.some.inj h
          rfl
        rw [hw] at hnodup
        exact hinv.of_start hnodup h hl
      · obtain rfl : s.setPeer p ((s.peers p).start command).1 = s' := Option.some.inj h
        refine hinv.of_peer h rfl rfl ?_
        rw [Raft.start, if_neg hl]
        exact hinv.peers p
  | consistencyCheck p i =>
      obtain ⟨out, -, -, rfl⟩ := stepConsistencyCheck_eq_some h
      refine hinv.of_peer h ?_ (send_wins p i out) (hinv.peers p)
      rw [send_peers, Function.update_eq_self]
  | appendEntries k =>
      obtain ⟨call, rf, reply, hat, hae, rfl⟩ := stepAppendEntries_eq_some h
      have hmem := List.mem_of_getElem? (requestAt_eq_some hat).1
      exact hinv.of_peer h rfl rfl
        (Raft.appendEntries_matches (hinv.peers call.dst) (hinv.appends call hmem) hae)
  | appendReply k =>
      obtain ⟨call, reply, rf, out, -, hh, rfl⟩ := stepAppendReply_eq_some h
      exact hinv.of_peer h (send_peers _ _ _) (send_wins _ _ _)
        (Raft.consistencyCheckReplyHandler_matches (hinv.peers call.src) hh)
  | installSnapshot k =>
      obtain ⟨call, rf, reply, msg, hat, his, rfl⟩ := stepInstallSnapshot_eq_some h
      have hmem := List.mem_of_getElem? (requestAt_eq_some hat).1
      -- index 0 is never above the receiver's snapshot index
      rcases (Raft.installSnapshot_cases his).2 with ⟨-, rfl, -⟩ | ⟨-, hlt, -⟩
      · exact hinv.of_peer h rfl rfl (hinv.peers call.dst)
      · rw [hinv.snapshots call hmem, (hinv.peers call.dst).snapshotIndex] at hlt
        omega
  | snapshotReply k =>
      obtain ⟨call, reply, -, rfl⟩ := stepSnapshotReply_eq_some h
      exact hinv.of_peer h rfl rfl
        (Raft.snapshotReplyHandler_matches (hinv.peers call.src) call.dst reply)
  | newSnapShot p data index => cases hsnap
  | applyTake p spare =>
      obtain ⟨rf, msgs, -, htake, rfl⟩ := stepApplyTake_eq_some h
      refine hinv.of_peer h rfl rfl ?_
      rcases Raft.applyLogEntries_cases htake with ⟨-, rfl, -⟩ | ⟨-, rfl, -⟩
      · exact hinv.peers p
      · exact (hinv.peers p).quiet rfl rfl (Or.inr rfl) (Or.inr (Or.inr ⟨rfl, rfl⟩))
  | applySend p =>
      obtain ⟨msg, rest, -, rfl⟩ := stepApplySend_eq_some h
      refine hinv.of_peer h ?_ rfl (hinv.peers p)
      exact (Function.update_eq_self _ _).symm
  | crash p =>
      obtain rfl := Option.some.inj h
      exact hinv.of_peer h rfl rfl (Raft.make_matches (hinv.peers p))

theorem logInv_run {es : List (Event n C D)} (hsnap : ∀ e ∈ es, e.isSnapshot = false)
    (hr : runFrom es = some s) (hwins : (s.wins.map Prod.snd).Nodup) :
    ∃ lead, LogInv s lead := by
  refine Machine.run_induction
    (I := fun s => (s.wins.map Prod.snd).Nodup → ∃ lead, LogInv s lead)
    (fun s e s' hi hok hs hnodup => ?_) (fun _ => logInv_init)
    (Machine.along_of_forall hsnap) hr hwins
  -- terms won once at the end have been won once before
  have hsub : (s.wins.map Prod.snd).Sublist (s'.wins.map Prod.snd) :=
    (wins_step hs).sublist.map Prod.snd
  obtain ⟨lead, hinv⟩ := hi (hnodup.sublist hsub)
  exact logInv_step hinv hok hnodup hs

/-- **Log matching.** Two logs that hold entries of the same index and the same term are
identical up to that index. -/
theorem logs_match {es : List (Event n C D)} (hsnap : ∀ e ∈ es, e.isSnapshot = false)
    (hr : runFrom es = some s) (hwins : (s.wins.map Prod.snd).Nodup) (p q : Fin n) (i : Nat)
    {e e' : LogEntry C} (he : (s.peers p).logs[i]? = some e)
    (he' : (s.peers q).logs[i]? = some e') (ht : e.term = e'.term) :
    (s.peers p).snapshotIndex = 0 ∧ (s.peers q).snapshotIndex = 0 ∧
      ∀ j ≤ i, (s.peers p).logs[j]? = (s.peers q).logs[j]? := by
  obtain ⟨lead, hinv⟩ := logInv_run hsnap hr hwins
  refine ⟨(hinv.peers p).snapshotIndex, (hinv.peers q).snapshotIndex, fun j hj => ?_⟩
  have htake := (hinv.peers p).follows.matching (hinv.peers q).follows he he' ht
  calc (s.peers p).logs[j]?
      = ((s.peers p).logs.take (i + 1))[j]? := (List.getElem?_take_of_lt (by omega)).symm
    _ = ((s.peers q).logs.take (i + 1))[j]? := by rw [htake]
    _ = (s.peers q).logs[j]? := List.getElem?_take_of_lt (by omega)

/-- Peer `0` leads term 1 and replicates one entry; peer `2` leads term 2 with the entry in
its log, peer `1` crashes, and peer `2` replicates a second entry to it. -/
def twoTerms : List (Event 3 Nat Unit) :=
  [.canvassVotes 0, .requestVote 0, .voteReply 0, .start 0 (some 7), .consistencyCheck 0 1,
    .consistencyCheck 0 2, .appendEntries 0, .appendEntries 1, .canvassVotes 2, .crash 1,
    .requestVote 3, .voteReply 3, .start 2 (some 8), .consistencyCheck 2 1, .appendEntries 2]

theorem logs_match_twoTerms : ∃ s, runFrom twoTerms = some s ∧
    ((s.peers 1).logs.map LogEntry.term = [0, 1, 2] ∧
      (s.peers 0).logs.map LogEntry.term = [0, 1]) ∧
    ∀ j ≤ 1, (s.peers 0).logs[j]? = (s.peers 1).logs[j]? := by
  have hrun : (runFrom twoTerms).any (fun s => (s.wins.map Prod.snd).Nodup ∧
      ((s.peers 1).logs.map LogEntry.term = [0, 1, 2] ∧
        (s.peers 0).logs.map LogEntry.term = [0, 1]) ∧
      (s.peers 0).logs[1]? = some ⟨1, some 7⟩ ∧
      (s.peers 1).logs[1]? = some ⟨1, some 7⟩) = true := by decide
  obtain ⟨s, hs, hfacts⟩ := (Option.any_eq_true _ _).mp hrun
  obtain ⟨hwins, hterms, h0, h1⟩ := of_decide_eq_true hfacts
  exact ⟨s, hs, hterms, (logs_match (by decide) hs hwins 0 1 1 h0 h1 rfl).2.2⟩

end Cluster

end RaftLab
