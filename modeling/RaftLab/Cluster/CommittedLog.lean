import RaftLab.Cluster.Committed
import RaftLab.Cluster.LeaderLog

set_option autoImplicit false

/-! # The committed log of the cluster

Of the committed prefixes of the peers the longest is the committed log of the cluster. It only
grows, at its end, and every peer has committed a prefix of it. Its entries have been passed to
`Start`; and as long as a peer leads the term in which its `Start` returned an index, the entry
under this index is the one that was passed to it.
-/

namespace RaftLab.Cluster

variable {n : Nat} {C D : Type} {s s' : Cluster n C D} {a a' : Ledger (Fin n) (LogEntry C)}

/-- The longest committed prefix of a peer. -/
def committedLog (s : Cluster n C D) : List (LogEntry C) :=
  (List.finRange n).foldl (fun best p =>
    if best.length < (s.peers p).committed.length then (s.peers p).committed else best) []

/-- It is the one of some peer, or empty, and none is longer. -/
theorem committedLog_spec (s : Cluster n C D) :
    (s.committedLog = [] ∨ ∃ p, s.committedLog = (s.peers p).committed) ∧
      ∀ p, (s.peers p).committed.length ≤ s.committedLog.length := by
  have key : ∀ (l : List (Fin n)) (best : List (LogEntry C)),
      (best = [] ∨ ∃ p, best = (s.peers p).committed) →
      ((l.foldl (fun best p =>
          if best.length < (s.peers p).committed.length then (s.peers p).committed else best) best
            = [] ∨
        ∃ p, l.foldl (fun best p =>
          if best.length < (s.peers p).committed.length then (s.peers p).committed else best) best
            = (s.peers p).committed) ∧
      best.length ≤ (l.foldl (fun best p =>
          if best.length < (s.peers p).committed.length then (s.peers p).committed else best)
            best).length ∧
      ∀ p ∈ l, (s.peers p).committed.length ≤ (l.foldl (fun best p =>
          if best.length < (s.peers p).committed.length then (s.peers p).committed else best)
            best).length) := by
    intro l
    induction l with
    | nil => exact fun best hbest => ⟨hbest, Nat.le_refl _, fun p hp => absurd hp List.not_mem_nil⟩
    | cons q l ih =>
        intro best hbest
        rw [List.foldl_cons]
        by_cases hlt : best.length < (s.peers q).committed.length
        · rw [if_pos hlt]
          obtain ⟨hfrom, hle, hall⟩ := ih (s.peers q).committed (Or.inr ⟨q, rfl⟩)
          exact ⟨hfrom, Nat.le_trans (Nat.le_of_lt hlt) hle, List.forall_mem_cons.mpr ⟨hle, hall⟩⟩
        · rw [if_neg hlt]
          obtain ⟨hfrom, hle, hall⟩ := ih best hbest
          exact ⟨hfrom, hle, List.forall_mem_cons.mpr ⟨Nat.le_trans (Nat.not_lt.mp hlt) hle, hall⟩⟩
  obtain ⟨hfrom, -, hall⟩ := key (List.finRange n) [] (Or.inl rfl)
  exact ⟨hfrom, fun p => hall p (List.mem_finRange p)⟩

/-- Every peer has committed a prefix of the committed log. -/
theorem committed_prefix_committedLog (h : Shows s a) (p : Fin n) :
    (s.peers p).committed <+: s.committedLog := by
  obtain ⟨hfrom, hall⟩ := committedLog_spec s
  have hle := hall p
  rcases hfrom with hnil | ⟨q, hq⟩
  · rw [hnil, List.length_nil, Nat.le_zero, List.length_eq_zero_iff] at hle
    rw [hle]
    exact List.nil_prefix
  · rw [hq] at hle ⊢
    rcases committed_comparable h.sound (h.peers p).commit (h.peers q).commit with hpre | hpre
    · exact hpre
    · rw [hpre.eq_of_length_le hle]

/-- The committed log only grows. -/
theorem committedLog_isPrefix (h' : Shows s' a')
    (hcom : ∀ q, (s.peers q).committed <+: (s'.peers q).committed) :
    s.committedLog <+: s'.committedLog := by
  rcases (committedLog_spec s).1 with hnil | ⟨p, hp⟩
  · rw [hnil]
    exact List.nil_prefix
  · rw [hp]
    exact (hcom p).trans (committed_prefix_committedLog h' p)

/-! ## Where entries come from -/

/-- What a step can do to the log of a peer that does not crash. -/
theorem logs_step {e : Event n C D} (h : s.step e = some s') (hcrash : e.isCrash = false)
    (p : Fin n) :
    (s'.peers p).logs = (s.peers p).logs ∨
    (∃ command, e = .start p command ∧ (s.peers p).state = .leader ∧ (s'.peers p).logs =
      (s.peers p).logs ++ [{ term := (s.peers p).currentTerm, command := command }]) ∨
    (∃ call ∈ s.appendCalls, ∃ k, (s'.peers p).logs =
      (s.peers p).logs.take (k + 1) ++ call.args.entries) ∨
    (∃ j t k, e = .installSnapshot j ∧
      (s'.peers p).logs = { term := t, command := none } :: (s.peers p).logs.drop k) ∨
    (e.isSnapshot = true ∧ ∃ k, (s'.peers p).logs = (s.peers p).logs.drop k) := by
  -- the other peers keep their logs
  have hset : ∀ {q : Fin n} {rf : Raft n C D}, q ≠ p →
      (Function.update s.peers q rf p).logs = (s.peers p).logs := by
    intro q rf hne
    rw [Function.update_of_ne hne.symm]
  have hsame : ∀ {q : Fin n} {rf : Raft n C D}, (s.peers q).SameLog rf →
      (Function.update s.peers q rf p).logs = (s.peers p).logs := by
    intro q rf hlog
    exact (sameLog_update (f := s.peers) (p := p) fun hqp => hqp ▸ hlog).1
  cases e with
  | canvassVotes q =>
      obtain ⟨rf, args, hfill, rfl⟩ := stepCanvassVotes_eq_some h
      obtain ⟨rfl, -⟩ := Raft.fillRequestVoteArgs_eq_some hfill
      exact Or.inl (hsame ⟨rfl, rfl⟩)
  | requestVote k =>
      obtain ⟨call, rf, reply, -, hrv, rfl⟩ := stepRequestVote_eq_some h
      exact Or.inl (hsame (Raft.requestVote_sameLog hrv))
  | voteReply k =>
      obtain ⟨call, cv, reply, rf, votes, -, hh, rfl⟩ := stepVoteReply_eq_some h
      refine Or.inl ?_
      by_cases hq : cv.me = p
      · subst hq
        show (Function.update s.peers cv.me rf cv.me).logs = _
        rw [Function.update_self]
        exact (Raft.voteReplyHandler_sameCommit hh).1
      · exact hset hq
  | start q command =>
      obtain rfl := Option.some.inj h
      by_cases hq : q = p
      · subst hq
        rw [setPeer_peers, Function.update_self]
        by_cases hl : (s.peers q).state = .leader
        · refine Or.inr (Or.inl ⟨command, rfl, hl, ?_⟩)
          rw [Raft.start, if_pos hl]
          rfl
        · rw [Raft.start, if_neg hl]
          exact Or.inl rfl
      · exact Or.inl (hset hq)
  | consistencyCheck q i =>
      obtain ⟨out, -, -, rfl⟩ := stepConsistencyCheck_eq_some h
      rw [send_peers]
      exact Or.inl rfl
  | appendEntries k =>
      obtain ⟨call, rf, reply, hat, hae, rfl⟩ := stepAppendEntries_eq_some h
      by_cases hq : call.dst = p
      · subst hq
        show (Function.update s.peers call.dst rf call.dst).logs = _ ∨ _
        rw [Function.update_self]
        rcases Raft.appendEntries_cases hae with ⟨-, rfl, -⟩ | ⟨hle, -, rfl, -⟩ |
          ⟨hle, j, -, -, rfl, -⟩ | ⟨hle, -, rfl, -⟩
        · exact Or.inl rfl
        · exact Or.inl (Raft.hearLeader_sameCommit hle).1
        · refine Or.inr (Or.inr (Or.inl
            ⟨call, List.mem_of_getElem? (requestAt_eq_some hat).1, j, ?_⟩))
          show Raft.logs (Function.update s.peers call.dst _ call.dst) = _
          rw [Function.update_self, ← (Raft.hearLeader_sameCommit hle).1]
          rfl
        · exact Or.inl (Raft.hearLeader_sameCommit hle).1
      · exact Or.inl (hset hq)
  | appendReply k =>
      obtain ⟨call, reply, rf, out, -, hh, rfl⟩ := stepAppendReply_eq_some h
      rw [send_peers]
      exact Or.inl (hsame (Raft.consistencyCheckReplyHandler_sameLog hh))
  | installSnapshot k =>
      obtain ⟨call, rf, reply, msg, -, his, rfl⟩ := stepInstallSnapshot_eq_some h
      by_cases hq : call.dst = p
      · subst hq
        show (Function.update s.peers call.dst rf call.dst).logs = _ ∨ _
        rw [Function.update_self]
        rcases (Raft.installSnapshot_cases his).2 with ⟨-, rfl, -⟩ | ⟨-, -, ⟨k, rfl⟩, -⟩
        · exact Or.inl rfl
        · refine Or.inr (Or.inr (Or.inr (Or.inl ⟨_, call.args.lastIncludedTerm, k, rfl, ?_⟩)))
          show Raft.logs (Function.update s.peers call.dst _ call.dst) = _
          rw [Function.update_self]
          rfl
      · exact Or.inl (hset hq)
  | snapshotReply k =>
      obtain ⟨call, reply, -, rfl⟩ := stepSnapshotReply_eq_some h
      exact Or.inl (hsame (Raft.snapshotReplyHandler_sameLog _ call.dst reply))
  | newSnapShot q data index =>
      obtain ⟨rf, hrf, rfl⟩ := stepNewSnapShot_eq_some h
      by_cases hq : q = p
      · subst hq
        rw [setPeer_peers, Function.update_self]
        rcases Raft.newSnapShot_cases hrf with ⟨-, rfl⟩ | ⟨-, -, e, rest, hdrop, rfl⟩
        · exact Or.inl rfl
        · exact Or.inr (Or.inr (Or.inr (Or.inr ⟨rfl, _, hdrop.symm⟩)))
      · exact Or.inl (hset hq)
  | applyTake q spare =>
      obtain ⟨rf, msgs, -, htake, rfl⟩ := stepApplyTake_eq_some h
      exact Or.inl (hsame (Raft.applyLogEntries_sameLog htake))
  | applySend q =>
      obtain ⟨msg, rest, -, rfl⟩ := stepApplySend_eq_some h
      exact Or.inl rfl
  | crash q => cases hcrash

/-- All entries in the logs and on their way have a property. -/
structure EntriesIn (P : LogEntry C → Prop) (s : Cluster n C D) : Prop where
  logs : ∀ p, ∀ e ∈ (s.peers p).logs, P e
  calls : ∀ call ∈ s.appendCalls, ∀ e ∈ call.args.entries, P e

theorem EntriesIn.mono {P Q : LogEntry C → Prop} (h : EntriesIn P s) (hPQ : ∀ e, P e → Q e) :
    EntriesIn Q s :=
  ⟨fun p e he => hPQ e (h.logs p e he), fun call hcall e he => hPQ e (h.calls call hcall e he)⟩

theorem EntriesIn.init {P : LogEntry C → Prop} (hnil : ∀ t, P { term := t, command := none }) :
    EntriesIn P (init : Cluster n C D) where
  logs := by
    intro p e he
    rw [List.mem_singleton.mp he]
    exact hnil 0
  calls := by
    intro call hcall
    cases hcall

/-- **Entries come from `Start`**: a property of entries without a command and of all entries that
are started is a property of all entries, as long as no peer crashes. -/
theorem EntriesIn.step {P : LogEntry C → Prop} (h : EntriesIn P s)
    (hnil : ∀ t, P { term := t, command := none }) {e : Event n C D} (hcrash : e.isCrash = false)
    (hstart : ∀ p command, e = .start p command → (s.peers p).state = .leader →
      P { term := (s.peers p).currentTerm, command := command })
    (hs : s.step e = some s') : EntriesIn P s' where
  logs := by
    intro p x hx
    rcases logs_step hs hcrash p with heq | ⟨command, rfl, hl, heq⟩ | ⟨call, hcall, k, heq⟩ |
      ⟨-, t, k, -, heq⟩ | ⟨-, k, heq⟩ <;> rw [heq] at hx
    · exact h.logs p x hx
    · rcases List.mem_append.mp hx with hold | hnew
      · exact h.logs p x hold
      · rw [List.mem_singleton.mp hnew]
        exact hstart p command rfl hl
    · rcases List.mem_append.mp hx with hold | hnew
      · exact h.logs p x (List.mem_of_mem_take hold)
      · exact h.calls call hcall x hnew
    · rcases List.mem_cons.mp hx with rfl | hold
      · exact hnil t
      · exact h.logs p x (List.mem_of_mem_drop hold)
    · exact h.logs p x (List.mem_of_mem_drop hx)
  calls := by
    intro call hcall x hx
    rcases appendCalls_step hs hcall with ⟨old, hold, hargs, -, -⟩ | ⟨i, hcc, -, -⟩
    · rw [hargs] at hx
      exact h.calls old hold x hx
    · obtain ⟨-, -, -, -, k, -, -, hent⟩ := Raft.consistencyCheck_append hcc
      rw [hent] at hx
      exact h.logs call.src x (List.mem_of_mem_drop hx)

/-! ## What `Start` promises -/

/-- The leader of term `term` has written the command under `index`. -/
def Promised (a : Ledger (Fin n) (LogEntry C)) (index : Int) (term : Nat) (command : Option C) :
    Prop :=
  (a.lead term)[index.toNat]? = some { term := term, command := command }

theorem Promised.extend {index : Int} {term : Nat} {command : Option C}
    (h : Promised a index term command) (hext : a.Extends a') :
    Promised a' index term command := by
  obtain ⟨r, hr⟩ := hext.lead term
  rw [Promised, ← hr, List.getElem?_append_left (List.getElem?_eq_some_iff.mp h).1]
  exact h

/-- Safety fails only on a vote reply, on an `AppendEntries` request or reply, on a crash and on a
snapshot. -/
theorem keepsLedger_of_none {e : Event n C D} (hcrash : e.isCrash = false)
    (hsnap : e.isSnapshot = false) (hvote : s.voteReplyOf e = none)
    (hrequest : s.appendRequestOf e = none) (hreply : s.appendReplyOf e = none) :
    KeepsLedger s e := by
  refine ⟨⟨⟨hcrash, ?_, ?_⟩, ?_⟩, hsnap, ?_, ?_⟩
  · rintro ⟨x, hx, -⟩
    cases hvote.symm.trans hx
  · rintro ⟨x, hx, -⟩
    cases hreply.symm.trans hx
  · rintro ⟨x, hx, -⟩
    cases hvote.symm.trans hx
  · rintro ⟨x, hx, -⟩
    cases hreply.symm.trans hx
  · rintro ⟨x, hx, -⟩
    cases hrequest.symm.trans hx

/-- A call of `Start` is no step on which safety fails. -/
theorem keepsLedger_start (s : Cluster n C D) (p : Fin n) (command : Option C) :
    KeepsLedger s (.start p command) :=
  keepsLedger_of_none rfl rfl rfl rfl rfl

/-- `Start` at a leader returns the index and the term of the entry it writes. -/
theorem start_eq_of_leader {rf : Raft n C D} (hl : rf.state = .leader) (hidx : rf.snapshotIndex = 0)
    (command : Option C) :
    (rf.start command).2 = ((rf.logs.length : Int), rf.currentTerm, true) := by
  rw [Raft.start, if_pos hl]
  simp only [Prod.mk.injEq, and_true]
  rw [hidx, List.length_append, List.length_singleton]
  omega

theorem promised_of_start {p : Fin n} {command : Option C} (h' : Shows s' a')
    (hl : (s.peers p).state = .leader) (hs : s.step (.start p command) = some s') :
    Promised a' (s.peers p).logs.length (s.peers p).currentTerm command := by
  obtain rfl : s.setPeer p ((s.peers p).start command).1 = s' := Option.some.inj hs
  have hrf : ((s.setPeer p ((s.peers p).start command).1).peers p) =
      ((s.peers p).start command).1 := Function.update_self ..
  have hlead := lead_eq_logs h' (p := p) (by rw [hrf, Raft.start, if_pos hl]; exact hl)
  rw [hrf, Raft.start, if_pos hl] at hlead
  have hlead : a'.lead (s.peers p).currentTerm = (s.peers p).logs ++
      [{ term := (s.peers p).currentTerm, command := command }] := hlead
  rw [Promised, hlead, Int.toNat_natCast, List.getElem?_concat_length]

/-- In the log of a peer that leads the term, the promise is kept. -/
theorem Promised.entry {index : Int} {term : Nat} {command : Option C} {p : Fin n}
    (h : Promised a index term command) (hs : Shows s a) (hl : (s.peers p).state = .leader)
    (ht : (s.peers p).currentTerm = term) :
    (s.peers p).logs[index.toNat]? = some { term := term, command := command } := by
  subst ht
  rw [Promised, lead_eq_logs hs hl] at h
  exact h

/-- An entry of the committed part of a log has its place in the committed log. -/
theorem committedLog_getElem? (h : Shows s a) (ho : Orderly s) {p : Fin n} {i : Nat}
    (hi : ((i : Int) + 1) ≤ (s.peers p).commitIndex) :
    s.committedLog[i]? = (s.peers p).logs[i + 1]? := by
  have hlt := (ho.inOrder p).commitIndex_lt
  have hget : (s.peers p).committed[i]? = (s.peers p).logs[i + 1]? := by
    rw [Raft.committed, List.getElem?_drop, List.getElem?_take_of_lt (by omega), Nat.add_comm]
  obtain ⟨r, hr⟩ := committed_prefix_committedLog h p
  rw [← hr, List.getElem?_append_left, hget]
  rw [Raft.committed, List.length_drop, List.length_take]
  omega

/-- **What `Start` promises**, on every run on which the cluster keeps a ledger. If `Start` has
returned an index and a term at a leader, then as long as the peer leads this term its log has the
command under this index; and if the peer delivers a message under this index meanwhile, the message
carries the command. -/
theorem start_keeps_its_promise {es fs : List (Event n C D)} {p : Fin n} {command : Option C}
    {index : Int} {term : Nat}
    (hok : Machine.Along step KeepsLedger init (es ++ .start p command :: fs))
    (hs : runFrom es = some s)
    (hstart : ((s.peers p).start command).2 = (index, term, true))
    (hs' : Machine.run step s (.start p command :: fs) = some s')
    (hl : (s'.peers p).state = .leader) (ht : (s'.peers p).currentTerm = term) :
    (s'.peers p).logs[index.toNat]? = some { term := term, command := command } ∧
      ∀ msg ∈ s'.applied p, msg.commandIndex = index → msg.command = command := by
  obtain ⟨hbefore, hafter⟩ := Machine.along_append hok hs
  obtain ⟨a, -, h, ho, -⟩ := orderly_run shows_init orderly_init hbefore hs
  obtain ⟨s₁, hs₁, hrest⟩ := Machine.run_cons hs'
  have hlead : (s.peers p).state = .leader := by
    by_contra hne
    rw [Raft.start, if_neg hne] at hstart
    cases hstart
  rw [start_eq_of_leader hlead (h.peers p).snapshotIndex] at hstart
  cases hstart
  obtain ⟨q, a₁, -, h₁⟩ := shows_step h hafter.1 hs₁
  obtain ⟨a', hext, h', ho', -⟩ :=
    orderly_run h₁ (orderly_step h ho hafter.1 hs₁) (hafter.2 s₁ hs₁) hrest
  have hentry := ((promised_of_start h₁ hlead hs₁).extend hext).entry h' hl ht
  refine ⟨hentry, fun msg hmsg hidx => ?_⟩
  -- what is delivered is in the committed part of the peer's own log
  obtain ⟨k, hk⟩ := List.mem_iff_getElem?.mp ((ho'.applied_isPrefix p).subset hmsg)
  obtain ⟨x, hx, hxidx, hxcmd⟩ := getElem?_applyMsgs_eq_some hk
  rw [hidx] at hxidx
  have hget : (s'.peers p).logs[k + 1]? = some x := by
    have hlt := (List.getElem?_eq_some_iff.mp hx).1
    rw [Raft.committed, List.length_drop, List.length_take] at hlt
    rw [Raft.committed, List.getElem?_drop, List.getElem?_take_of_lt (by omega), Nat.add_comm] at hx
    exact hx
  rw [show ((s.peers p).logs.length : Int).toNat = k + 1 by omega, hget] at hentry
  rw [hxcmd, Option.some.inj hentry]

theorem start_keeps_its_promise_oneCommand :
    ∃ s, runFrom oneCommand = some s ∧ s.applied 0 ≠ [] ∧
      (s.peers 0).logs[1]? = some { term := 1, command := some 7 } ∧
      ∀ msg ∈ s.applied 0, msg.commandIndex = 1 → msg.command = some 7 := by
  have hok : Machine.Along step KeepsLedger init
      (oneCommand.take 3 ++ .start 0 (some 7) :: oneCommand.drop 4) := by decide
  have hrun : (runFrom (oneCommand.take 3)).any (fun s =>
      ((s.peers 0).start (some 7)).2 = (1, 1, true) ∧
      (Machine.run step s (.start 0 (some 7) :: oneCommand.drop 4)).any (fun s' =>
        (s'.peers 0).state = .leader ∧ (s'.peers 0).currentTerm = 1 ∧ s'.applied 0 ≠ []) = true)
      = true := by decide
  obtain ⟨s, hs, hex⟩ := (Option.any_eq_true _ _).mp hrun
  obtain ⟨hstart, hex'⟩ := of_decide_eq_true hex
  obtain ⟨s', hs', hex''⟩ := (Option.any_eq_true _ _).mp hex'
  obtain ⟨hl, ht, hne⟩ := of_decide_eq_true hex''
  obtain ⟨hlog, hmsgs⟩ := start_keeps_its_promise hok hs hstart hs' hl ht
  refine ⟨s', ?_, hne, hlog, hmsgs⟩
  have hsplit :
      runFrom (oneCommand.take 3 ++ .start 0 (some 7) :: oneCommand.drop 4) = some s' := by
    rw [runFrom, Machine.run_append]
    exact Option.bind_eq_some_iff.mpr ⟨s, hs, hs'⟩
  exact hsplit

end RaftLab.Cluster
