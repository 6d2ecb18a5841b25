import RaftLab.Cluster.Refinement

set_option autoImplicit false

/-! # Each step of the cluster is some moves of one party

One lemma for each event, and `shows_step` for all of them.
-/

namespace RaftLab.Cluster

variable {n : Nat} {C D : Type} {s s' : Cluster n C D} {a a' : Ledger (Fin n) (LogEntry C)}

/-! ## The branches on which safety fails -/

/-- The `AppendEntries` request that event `e` hands to its receiver. -/
def appendRequestOf (s : Cluster n C D) :
    Event n C D → Option (Call n (AppendEntriesArgs n C) AppendEntriesReply)
  | .appendEntries k => requestAt s.appendCalls k
  | _ => none

/-- A leader counts the acceptance of a request it sent in another term. -/
def StaleAck (s : Cluster n C D) (e : Event n C D) : Prop :=
  ∃ x ∈ s.appendReplyOf e, (s.peers x.1.src).state = .leader ∧ x.2.success = true ∧
    x.1.args.term ≠ (s.peers x.1.src).currentTerm

/-- A peer accepts a request that only takes entries of the request's own term away from it. -/
def StaleCut (s : Cluster n C D) (e : Event n C D) : Prop :=
  ∃ call ∈ s.appendRequestOf e, ∃ x ∈ (s.peers call.dst).appendEntries call.args,
    x.2.success = true ∧ x.1.logs <+: (s.peers call.dst).logs ∧
    ∃ entry ∈ (s.peers call.dst).logs.drop x.1.logs.length, entry.term = call.args.term

instance (s : Cluster n C D) (e : Event n C D) : Decidable (StaleAck s e) :=
  inferInstanceAs (Decidable (∃ x ∈ s.appendReplyOf e, _))

instance [DecidableEq C] (s : Cluster n C D) (e : Event n C D) : Decidable (StaleCut s e) :=
  inferInstanceAs (Decidable (∃ call ∈ s.appendRequestOf e, ∃ x ∈ _, _))

/-- A step that keeps the cluster a ledger: elections stay safe, there is no snapshot, no late
acknowledgement is counted and no late request cuts a log. -/
def KeepsLedger (s : Cluster n C D) (e : Event n C D) : Prop :=
  KeepsElections s e ∧ e.isSnapshot = false ∧ ¬ StaleAck s e ∧ ¬ StaleCut s e

instance [DecidableEq C] (s : Cluster n C D) (e : Event n C D) : Decidable (KeepsLedger s e) :=
  inferInstanceAs (Decidable (_ ∧ _))

/-- Some party can move so that the ledger is shown by `s'`. -/
def Refines (a : Ledger (Fin n) (LogEntry C)) (s' : Cluster n C D) : Prop :=
  ∃ p a', Ledger.Moves LogEntry.term p a a' ∧ Shows s' a'

/-! ## Elections -/

theorem describes_of_lastLog {rf : Raft n C D} (hidx : rf.snapshotIndex = 0)
    {args : RequestVoteArgs n}
    (h : rf.lastLogIndexAndTerm = some (args.lastLogIndex, args.lastLogTerm)) :
    Describes args rf.logs := by
  obtain ⟨hi, hlast⟩ := Raft.lastLogIndexAndTerm_eq_some h
  refine ⟨?_, hlast⟩
  rw [hi, hidx, Int.zero_add]

theorem shows_canvassVotes (h : Shows s a) {p : Fin n}
    (hs : s.step (.canvassVotes p) = some s') : Refines a s' := by
  obtain ⟨rf, args, hfill, rfl⟩ := stepCanvassVotes_eq_some hs
  obtain ⟨rfl, hterm, hid, hlast⟩ := Raft.fillRequestVoteArgs_eq_some hfill
  have hp := h.peers p
  obtain ⟨b, hm, hcur, hfree, hlog, hleader, hball⟩ :=
    Ledger.exists_campaign LogEntry.term (a := a) p
  rw [hp.current] at hcur hball
  have hact := (h.sound.moves hm).2
  refine ⟨p, b, hm, h.of_act hs rfl hm rfl ?_ ?_ ?_ ?_ ?_ ?_⟩
  · refine hp.of_follower hact rfl hcur hfree (by rw [hlog]) rfl rfl rfl rfl (Nat.le_succ _)
      (by simp) (fun _ hl => ?_)
    -- the new term is above every term in which this peer has voted
    rw [hleader] at hl
    have hlt := (h.sound.leader_lt hl).2
    have hle := a.horizon_le p
    rw [hp.current] at hle
    exact absurd hlt (by simp only; omega)
  · intro q t c hc
    rcases (cast_campaign (by rfl) (by rfl)).mp hc with hold | ⟨rfl, rfl, rfl⟩
    · exact Or.inl hold
    · exact Or.inr ⟨_, by rw [hterm]; exact hball⟩
  · intro cv hmem
    rcases List.mem_append.mp hmem with hold | hnew
    · exact Or.inl ⟨cv, hold, rfl, rfl⟩
    · obtain rfl := List.mem_singleton.mp hnew
      right
      intro l hl
      rw [hterm, hball] at hl
      rw [← (Prod.mk.inj (Option.some.inj hl)).2, hp.log]
      exact describes_of_lastLog hp.snapshotIndex hlast
  · exact fun call hmem => Or.inl hmem
  · exact fun q msg hmem => Or.inl hmem
  · exact fun q msg hmem => Or.inl hmem

/-- The comparison of `RequestVote` compares the logs of candidate and voter. -/
theorem upToDate_of_describes {rf : Raft n C D} (hidx : rf.snapshotIndex = 0)
    {args : RequestVoteArgs n} {l : List (LogEntry C)} (hd : Describes args l) {i : Int} {t : Nat}
    (hlast : rf.lastLogIndexAndTerm = some (i, t)) (hup : Raft.upToDate args i t = true) :
    Ledger.UpToDate LogEntry.term l rf.logs := by
  obtain ⟨hlen, x, hx, hxt⟩ := hd
  obtain ⟨hi, y, hy, hyt⟩ := Raft.lastLogIndexAndTerm_eq_some hlast
  refine ⟨x, y, hx, hy, ?_⟩
  simp only [Raft.upToDate, Bool.or_eq_true, Bool.and_eq_true, decide_eq_true_eq] at hup
  rw [hidx] at hi
  rcases hup with ⟨hteq, hge⟩ | hgt
  · exact Or.inr ⟨by omega, by omega⟩
  · exact Or.inl (by omega)

theorem shows_requestVote (h : Shows s a) {k : Nat}
    (hs : s.step (.requestVote k) = some s') : Refines a s' := by
  obtain ⟨call, rf, reply, hat, hrv, rfl⟩ := stepRequestVote_eq_some hs
  obtain ⟨hk, hsent⟩ := voteRequestAt_eq_some hat
  have hp := h.peers call.dst
  -- whatever the ledger does, the only new vote is the one in the reply
  have assemble : ∀ b, Ledger.Moves LogEntry.term call.dst a b → rf.Shows b call.dst →
      (reply.voteGranted = true →
        ∃ l, b.ballot call.dst call.args.term = some (call.args.candidateID, l)) →
      Refines a { s.setPeer call.dst rf with
        voteCalls := s.voteCalls.set k { call with status := .replied reply } } := by
    intro b hm hrf hgrant
    refine ⟨call.dst, b, hm, h.of_act hs rfl hm rfl hrf ?_ ?_ ?_ ?_ ?_⟩
    · intro q t c hc
      rcases (cast_answer hk hsent (by rfl) (by rfl)).mp hc with hold | ⟨rfl, rfl, rfl, hg⟩
      · exact Or.inl hold
      · exact Or.inr (hgrant hg)
    · exact fun cv hmem => Or.inl ⟨cv, hmem, rfl, rfl⟩
    · exact fun call hmem => Or.inl hmem
    · exact fun q msg hmem => Or.inl hmem
    · exact fun q msg hmem => Or.inl hmem
  rcases Raft.requestVote_cases hrv with ⟨-, rfl, rfl⟩ |
    ⟨hle, hopen, ⟨i, t, hlast, hup⟩, rfl, rfl⟩ | ⟨hle, rfl, rfl⟩
  · refine assemble a .refl ?_ (fun hg => nomatch hg)
    exact hp.of_same rfl rfl rfl rfl rfl hp.lastApplied rfl hp.matched hp.commit
  · -- the candidate has cast its own ballot with the log that the request describes
    obtain ⟨cv, hget, hargs, hne⟩ := h.books.calls call (List.mem_of_getElem? hk)
    have hcv := List.mem_of_getElem? hget
    obtain ⟨l, hl⟩ := h.cast cv.me cv.voteArgs.term cv.me (Or.inl ⟨cv, hcv, rfl, rfl, rfl⟩)
    have hdesc := h.canvasses cv hcv l hl
    rw [← hargs] at hl hdesc
    have hid : call.args.candidateID = cv.me := by
      rw [hargs]
      exact h.books.cand cv hcv
    have hupd := upToDate_of_describes hp.snapshotIndex hdesc hlast hup
    rw [← hp.log] at hupd
    have hfree : a.current call.dst = call.args.term → a.free call.dst = true := by
      intro heq
      rw [hp.current] at heq
      rw [Raft.adoptTerm_of_le (Nat.le_of_eq heq.symm)] at hopen
      rw [hp.free, hopen]
      rfl
    obtain ⟨b, hm, hcur, hfr, hlog, hleader, hball⟩ := Ledger.exists_vote LogEntry.term
      (by rw [hp.current]; exact hle) hfree (h.sound.settled _ _ _ hl).1 hl hupd
    have hact := (h.sound.moves hm).2
    refine assemble b hm ?_ (fun _ => ⟨_, by rw [hid]; exact hball⟩)
    rcases Nat.lt_or_eq_of_le hle with hlt | heq
    · rw [Raft.adoptTerm_of_lt hlt]
      exact hp.of_follower hact rfl hcur hfr (by rw [hlog]) rfl rfl rfl rfl hle
        (by simp) (fun hc => nomatch hc)
    · rw [Raft.adoptTerm_of_le (Nat.le_of_eq heq.symm)]
      exact hp.of_follower hact rfl (hcur.trans heq.symm) hfr (by rw [hlog]) rfl rfl rfl rfl
        (Nat.le_refl _) (by simp) (fun hc => nomatch hc)
  · rcases Nat.lt_or_eq_of_le hle with hlt | heq
    · obtain ⟨b, hm, hcur, hfr, hlog, -, -, -, -⟩ := Ledger.exists_raise LogEntry.term
        (show a.current call.dst < call.args.term by rw [hp.current]; exact hlt)
      refine assemble b hm ?_ (fun hg => nomatch hg)
      rw [Raft.adoptTerm_of_lt hlt]
      exact hp.of_follower (h.sound.moves hm).2 rfl hcur hfr (by rw [hlog]) rfl rfl rfl rfl hle
        (by simp) (fun hc => nomatch hc)
    · refine assemble a .refl ?_ (fun hg => nomatch hg)
      rw [Raft.adoptTerm_of_le (Nat.le_of_eq heq.symm)]
      exact hp.of_same rfl rfl rfl rfl rfl hp.lastApplied rfl hp.matched hp.commit

/-- Two peers cannot both have more than half of the votes of a term. -/
theorem leader_eq_none (h : Shows s a) {p : Fin n} {t : Nat} (hmaj : s.Majority p t)
    (hne : a.leader t ≠ some p) : a.leader t = none := by
  cases hl : a.leader t with
  | none => rfl
  | some d =>
      obtain ⟨⟨V, hV, hball⟩, -⟩ := h.sound.elected t d hl
      obtain ⟨Q, hQ, hcast⟩ := hmaj
      rw [Fintype.card_fin] at hV
      obtain ⟨q, hqV, hqQ⟩ := Median.exists_mem_both (P := Fin n) (V := V) (Q := Q)
        (by rw [Fintype.card_fin]; exact hV) (by rw [Fintype.card_fin]; omega)
      obtain ⟨l, hl'⟩ := hball q hqV
      obtain ⟨m, hm⟩ := h.cast q t p (hcast q hqQ)
      rw [hl'] at hm
      have hdp : d = p := (Prod.mk.inj (Option.some.inj hm)).1
      rw [hl, hdp] at hne
      exact absurd rfl hne

theorem shows_win (h : Shows s a) {p : Fin n} (hc : (s.peers p).state = .candidate)
    (hmaj : s.Majority p (s.peers p).currentTerm)
    (hown : s.Cast p (s.peers p).currentTerm p) :
    ∃ b, Ledger.Moves LogEntry.term p a b ∧
      ({ s.peers p with state := .leader }.resetOnElection).Shows b p := by
  have hp := h.peers p
  have hnone := leader_eq_none h hmaj (hp.candidate hc)
  obtain ⟨V, hV, hcast⟩ := hmaj
  -- the votes in the records are the ballots that the abstract election needs
  have helect : Ledger.Move LogEntry.term a p { a with
      leader := Function.update a.leader (a.current p) (some p)
      lead := Function.update a.lead (a.current p) (a.log p)
      acked := a.ackTo p (a.log p).length } := by
    refine .elect p V ?_ (by rw [Fintype.card_fin]; exact hV) ?_ ?_
    · rw [hp.current]
      exact hnone
    · intro q hq
      rw [hp.current]
      exact h.cast q _ p (hcast q hq)
    · rw [hp.current]
      exact h.cast p _ p hown
  have hact := h.sound.acts helect
  refine ⟨_, .single helect, ?_⟩
  refine ⟨hp.me, hp.current, hp.free, hp.log, hp.snapshotIndex, hp.lastApplied, ?_, ?_, ?_, ?_⟩
  · intro _
    show Function.update a.leader (a.current p) (some p) (s.peers p).currentTerm = some p
    rw [hp.current, Function.update_self]
  · exact fun hcand => nomatch hcand
  · -- of the others it knows nothing yet, of itself the whole log
    intro _ q
    show (if q = (s.peers p).me then
      ((s.peers p).logs.length : Int) + (s.peers p).snapshotIndex - 1 else 0) ≤ 0 ∨
        (if q = (s.peers p).me then
      ((s.peers p).logs.length : Int) + (s.peers p).snapshotIndex - 1 else 0) <
        a.ackTo p (a.log p).length q (s.peers p).currentTerm
    by_cases hq : q = p
    · subst hq
      have hle := a.le_ackTo_self q (a.log q).length
      rw [hp.current, hp.log] at hle
      rw [if_pos hp.me.symm, hp.snapshotIndex, hp.log]
      exact Or.inr (by omega)
    · rw [hp.me, if_neg hq]
      exact Or.inl (Int.le_refl 0)
  · exact hp.commit.extend hact.ext (Nat.le_refl _)

theorem shows_voteReply (h : Shows s a) {k : Nat} (hok : KeepsElections s (.voteReply k))
    (hs : s.step (.voteReply k) = some s') : Refines a s' := by
  obtain ⟨call, cv, reply, rf, votes, hat, hh, rfl⟩ := stepVoteReply_eq_some hs
  obtain ⟨hk, hrep, hj, -⟩ := voteReplyAt_eq_some hat
  have hcv := List.mem_of_getElem? hj
  have hp := h.peers cv.me
  have assemble : ∀ b, Ledger.Moves LogEntry.term cv.me a b → rf.Shows b cv.me →
      Refines a { s.setPeer cv.me rf with
        canvasses := s.canvasses.set call.canvass { cv with votes := votes }
        voteCalls := s.voteCalls.set k { call with status := .done reply }
        wins := if (s.peers cv.me).state ≠ .leader ∧ rf.state = .leader
          then s.wins ++ [(cv.me, rf.currentTerm)] else s.wins } := by
    intro b hm hrf
    refine ⟨cv.me, b, hm, h.of_act hs rfl hm rfl hrf ?_ ?_ ?_ ?_ ?_⟩
    · exact fun q t c hc => Or.inl ((cast_tally hk hrep hj (by rfl) (by rfl)).mp hc)
    · intro cv' hmem
      rcases List.mem_or_eq_of_mem_set hmem with hold | rfl
      · exact Or.inl ⟨cv', hold, rfl, rfl⟩
      · exact Or.inl ⟨cv, hcv, rfl, rfl⟩
    · exact fun call hmem => Or.inl hmem
    · exact fun q msg hmem => Or.inl hmem
    · exact fun q msg hmem => Or.inl hmem
  rcases Raft.voteReplyHandler_cases (s.peers cv.me) cv.voteArgs cv.votes reply with
    heq | ⟨hc, hlt, heq⟩ | ⟨hc, hle, hg, hv, heq⟩ | ⟨-, -, heq⟩
  · cases hh.symm.trans heq
    exact assemble a .refl hp
  · have hlt' := currentTerm_lt_of_not_staleDepose hok.1.2.1 hat hc hlt
    obtain ⟨b, hm, hcur, hfr, hlog, -, -, -, -⟩ := Ledger.exists_raise LogEntry.term
      (show a.current cv.me < reply.currentTerm by rw [hp.current]; exact hlt')
    cases hh.symm.trans heq
    refine assemble b hm ?_
    exact hp.of_follower (h.sound.moves hm).2 rfl hcur hfr (by rw [hlog]) rfl rfl rfl rfl
      (Nat.le_of_lt hlt') (by simp [Raft.turnToFollow]) (fun hc => nomatch hc)
  · -- the votes are for the term the candidate is in
    have hterm : cv.voteArgs.term = (s.peers cv.me).currentTerm := by
      by_contra hne
      exact hok.2 ⟨(call, cv, reply), hat, hc, hle, hg, hv, hne⟩
    have hmaj := h.books.majority_of_win hat hg hv
    rw [hterm] at hmaj
    obtain ⟨b, hm, hrf⟩ := shows_win h hc hmaj (Or.inl ⟨cv, hcv, rfl, hterm, rfl⟩)
    cases hh.symm.trans heq
    exact assemble b hm hrf
  · cases hh.symm.trans heq
    exact assemble a .refl hp

/-! ## Replication -/

/-- The log of a leader is the log the ledger has for its term. -/
theorem lead_eq_logs (h : Shows s a) {p : Fin n} (hl : (s.peers p).state = .leader) :
    a.lead (s.peers p).currentTerm = (s.peers p).logs := by
  have hp := h.peers p
  have hlead := hp.leader hl
  rw [← hp.current] at hlead ⊢
  rw [h.sound.leading p hlead, hp.log]

theorem shows_start (h : Shows s a) {p : Fin n} {command : Option C}
    (hs : s.step (.start p command) = some s') : Refines a s' := by
  obtain rfl : s.setPeer p ((s.peers p).start command).1 = s' := Option.some.inj hs
  have hp := h.peers p
  by_cases hl : (s.peers p).state = .leader
  · have hleader := hp.leader hl
    have happend : Ledger.Move LogEntry.term a p { a with
        log := Function.update a.log p
          (a.log p ++ [{ term := (s.peers p).currentTerm, command := command }])
        lead := Function.update a.lead (a.current p)
          (a.log p ++ [{ term := (s.peers p).currentTerm, command := command }])
        acked := a.ackTo p ((a.log p).length + 1) } := by
      refine .append p _ ?_ hp.current.symm
      rw [hp.current]
      exact hleader
    have hsound := h.sound.move happend
    have hact := h.sound.acts happend
    refine ⟨p, _, .single happend, h.of_peer hs rfl (.single happend) rfl ?_ rfl rfl rfl rfl rfl⟩
    rw [Raft.start, if_pos hl]
    refine ⟨hp.me, hp.current, hp.free, ?_, hp.snapshotIndex, hp.lastApplied, fun _ => hleader,
      fun hc => ?_, ?_, ?_⟩
    · show Function.update a.log p _ p = (s.peers p).logs ++ _
      rw [Function.update_self, hp.log]
    · have hc : (s.peers p).state = .candidate := hc
      rw [hl] at hc
      cases hc
    · intro _ q
      show Function.update (s.peers p).matchIndex (s.peers p).me _ q ≤ 0 ∨
        Function.update (s.peers p).matchIndex (s.peers p).me _ q <
          a.ackTo p ((a.log p).length + 1) q (s.peers p).currentTerm
      rw [hp.me]
      by_cases hq : q = p
      · subst hq
        have hle := a.le_ackTo_self q ((a.log q).length + 1)
        rw [hp.current, hp.log] at hle
        rw [Function.update_self, hp.snapshotIndex, hp.log, List.length_append,
          List.length_singleton]
        exact Or.inr (by omega)
      · rw [Function.update_of_ne hq]
        rcases hp.matched hl q with hle | hlt
        · exact Or.inl hle
        · have := hact.ext.acked q (s.peers p).currentTerm
          exact Or.inr (Int.lt_of_lt_of_le hlt (Int.ofNat_le.mpr this))
    · -- everything committed so far is in the leader's log already
      refine (hp.commit.covered.extend hact.ext (Nat.le_refl _)).of_lead hsound hleader ?_ ?_
      · show _ <+: Function.update a.lead (a.current p) _ (s.peers p).currentTerm
        rw [hp.current, Function.update_self, hp.log]
        exact List.prefix_refl _
      · intro hpos
        have hlt := hp.commit.lt_length hpos
        show (s.peers p).commitIndex < ((s.peers p).logs ++ _).length
        rw [List.length_append]
        omega
  · refine ⟨p, a, .refl, h.of_peer hs rfl .refl rfl ?_ rfl rfl rfl rfl rfl⟩
    rw [Raft.start, if_neg hl]
    exact hp

/-- What a leader sends is cut from its log. -/
theorem sent_of_consistencyCheck (h : Shows s a) {p i : Fin n} (hne : i ≠ p)
    {args : AppendEntriesArgs n C}
    (hcc : (s.peers p).consistencyCheck i = some (some (.append args))) (ep : Nat) :
    Sent a { src := p, dst := i, epoch := ep, args := args, status := .sent } := by
  have hp := h.peers p
  obtain ⟨hl, hterm, -, hcom, k, hk, hprev, hent⟩ := Raft.consistencyCheck_append hcc
  have hleader := hp.leader hl
  have hlead := lead_eq_logs h hl
  obtain ⟨-, m, hm, hml, -⟩ := h.sound.elected _ p hleader
  rw [hlead] at hml
  refine ⟨m, (s.peers p).logs, k, ?_, hne.symm, ?_, hml, ?_, ?_, hprev, hent, ?_, ?_⟩
  · rw [hterm]
    exact hleader
  · rw [hterm]
    exact hm
  · rw [hterm, hlead]
  · rw [hk, hp.snapshotIndex, Int.zero_add]
  · rw [hterm, hcom]
    exact hp.commit.covered
  · exact fun r hr => nomatch hr

theorem shows_consistencyCheck (h : Shows s a) {p i : Fin n}
    (hs : s.step (.consistencyCheck p i) = some s') : Refines a s' := by
  obtain ⟨out, hne, hout, rfl⟩ := stepConsistencyCheck_eq_some hs
  refine ⟨p, a, .refl, h.of_calls hs rfl .refl ?_ (h.peers p) (send_canvasses p i out)
    (send_voteCalls p i out) (send_pending p i out) (send_applied p i out) ?_⟩
  · rw [send_peers, Function.update_eq_self]
  · intro call hmem
    rcases mem_send_appendCalls p i out hmem with hold | ⟨args, rfl, rfl⟩
    · exact Or.inl hold
    · exact Or.inr (sent_of_consistencyCheck h hne hout _)

/-- A call stays true about the past when its answer is a refusal. -/
theorem Sent.refused {call : Call n (AppendEntriesArgs n C) AppendEntriesReply}
    (h : Sent a call) {reply : AppendEntriesReply} (hr : reply.success = false) :
    Sent a { call with status := .replied reply } := by
  obtain ⟨m, l, k, hl, hne, hm, hml, hpre, hk, he, hent, hcov, -⟩ := h
  refine ⟨m, l, k, hl, hne, hm, hml, hpre, hk, he, hent, hcov, ?_⟩
  intro r hr' hsucc
  obtain rfl : reply = r := Option.some.inj hr'
  rw [hr] at hsucc
  cases hsucc

/-- A peer hears from the leader of its term and refuses the entries. -/
theorem shows_refuse (h : Shows s a) {call : Call n (AppendEntriesArgs n C) AppendEntriesReply}
    (hsent : Sent a call) (hle : (s.peers call.dst).currentTerm ≤ call.args.term) :
    ∃ b, Ledger.Moves LogEntry.term call.dst a b ∧
      (((s.peers call.dst).hearLeader call.args).persist).Shows b call.dst := by
  have hp := h.peers call.dst
  obtain ⟨m, l, k, hl, hne, -, -, -, -, -, -, -, -⟩ := hsent
  obtain ⟨b, hm, hcur, hfr, hlog, -, hleader, -⟩ := Ledger.exists_hear LogEntry.term
    (show a.current call.dst ≤ call.args.term by rw [hp.current]; exact hle) hl
  refine ⟨b, hm, ?_⟩
  rw [Raft.hearLeader_eq hle]
  refine hp.of_follower (h.sound.moves hm).2 rfl hcur hfr (by rw [hlog]) rfl rfl rfl rfl hle ?_ ?_
  · cases hst : (s.peers call.dst).state <;> simp
  · intro _ heq
    rw [hleader] at heq
    exact hne (Option.some.inj (hl.symm.trans heq))

/-- **A follower keeps what it has committed**, whatever it takes over from a leader. -/
theorem committed_kept (h : Shows s a) {p c : Fin n} {t : Nat} {m l : List (LogEntry C)}
    (hl : a.leader t = some c) (hm : a.ballot c t = some (c, m)) (hml : m <+: l)
    (hpre : l <+: a.lead t) (hle : (s.peers p).currentTerm ≤ t)
    (hcut : l <+: (s.peers p).logs → ∀ e ∈ (s.peers p).logs.drop l.length, e.term ≠ t)
    (hpos : 0 < (s.peers p).commitIndex) :
    (s.peers p).logs.take ((s.peers p).commitIndex.toNat + 1) <+: l :=
  h.sound.retained hl hm hml hpre hcut (List.take_prefix _ _)
    ((h.peers p).commit.prefix_lead h.sound hpos hl hle)

/-- A peer takes over the log of the request. -/
theorem shows_accept (h : Shows s a) {call : Call n (AppendEntriesArgs n C) AppendEntriesReply}
    (hsent : Sent a call) (hle : (s.peers call.dst).currentTerm ≤ call.args.term) {j : Nat}
    (hj : call.args.prevLogIndex = j)
    (hprev : ∃ e, (s.peers call.dst).logs[j]? = some e ∧ e.term = call.args.prevLogTerm)
    (hcut : (((s.peers call.dst).hearLeader call.args).accepted call.args j).logs <+:
        (s.peers call.dst).logs →
      ∀ e ∈ (s.peers call.dst).logs.drop
          (((s.peers call.dst).hearLeader call.args).accepted call.args j).logs.length,
        e.term ≠ call.args.term) {reply : AppendEntriesReply}
    (hfirst : reply.firstIndex = j + call.args.entries.length) :
    ∃ b, Ledger.Moves LogEntry.term call.dst a b ∧
      (((s.peers call.dst).hearLeader call.args).accepted call.args j).Shows b call.dst ∧
      Sent b { call with status := .replied reply } := by
  have hp := h.peers call.dst
  obtain ⟨m, l, k, hl, hne, hm, hml, hpre, hk, ⟨e', he', het'⟩, hent, hcov, -⟩ := hsent
  obtain ⟨e, he, het⟩ := hprev
  have hkj : k = j := by
    rw [hk] at hj
    exact Int.ofNat_inj.mp hj
  subst hkj
  -- the logs meet at the previous entry, so the new log is the one the request was cut from
  have hlfol : TermLog.Follows LogEntry.term a.lead l := (h.sound.lead_follows _).of_isPrefix hpre
  have hpfol : TermLog.Follows LogEntry.term a.lead (s.peers call.dst).logs := by
    rw [← hp.log]
    exact h.sound.log_follows call.dst
  have hlogs : (((s.peers call.dst).hearLeader call.args).accepted call.args k).logs = l := by
    show ((s.peers call.dst).hearLeader call.args).logs.take (k + 1) ++ call.args.entries = l
    rw [Raft.hearLeader_eq hle, hent]
    exact hpfol.splice hlfol he he' (het.trans het'.symm)
  rw [hlogs] at hcut
  have hkept := committed_kept h hl hm hml hpre hle hcut
  rw [← hp.log] at hcut
  obtain ⟨b, hmv, hcur, hfr, hlog, hleader, hlead, hack⟩ := Ledger.exists_accept LogEntry.term
    (show a.current call.dst ≤ call.args.term by rw [hp.current]; exact hle) hl hne hm hml hpre
    hcut
  obtain ⟨hsound, hact⟩ := h.sound.moves hmv
  have hlen : (k : Int) + call.args.entries.length + 1 = l.length := by
    have hlt : k < l.length := (List.getElem?_eq_some_iff.mp he').1
    rw [hent, List.length_drop]
    omega
  refine ⟨b, hmv, ?_, ?_⟩
  · have hbl : b.leader call.args.term = some call.src := hact.ext.leader _ _ hl
    have hbpre : l <+: b.lead call.args.term := hpre.trans (hact.ext.lead _)
    have hstate := Raft.hearLeader_state_ne (s.peers call.dst) hle
    -- what is committed afterwards was committed before, or the leader has said so
    have hcovered : Covered b call.args.term
        (((s.peers call.dst).hearLeader call.args).accepted call.args k).commitIndex := by
      rcases Raft.accepted_commitIndex ((s.peers call.dst).hearLeader call.args) call.args k with
        ⟨hlc, -⟩ | heq
      · exact (hcov.extend hact.ext (Nat.le_refl _)).mono hlc
      · rw [heq, Raft.hearLeader_eq hle]
        exact hp.commit.covered.extend hact.ext hle
    have hinside : 0 < (((s.peers call.dst).hearLeader call.args).accepted
        call.args k).commitIndex → (((s.peers call.dst).hearLeader call.args).accepted
        call.args k).commitIndex < l.length := by
      rcases Raft.accepted_commitIndex ((s.peers call.dst).hearLeader call.args) call.args k with
        ⟨-, hlast⟩ | heq
      · rw [Raft.hearLeader_eq hle] at hlast ⊢
        have hidx := hp.snapshotIndex
        dsimp only at hlast
        omega
      · rw [heq, Raft.hearLeader_eq hle]
        intro hpos
        have hold := hp.commit.lt_length hpos
        have hlonger := (hkept hpos).length_le
        rw [List.length_take] at hlonger
        dsimp only
        omega
    rw [Raft.hearLeader_eq hle] at hlogs hstate hcovered hinside ⊢
    exact
      { me := hp.me
        current := hcur
        free := hfr
        log := hlog.trans hlogs.symm
        snapshotIndex := hp.snapshotIndex
        lastApplied := hp.lastApplied
        leader := fun hld => absurd hld hstate
        candidate := fun _ heq => hne (Option.some.inj (hbl.symm.trans heq))
        matched := fun hld => absurd hld hstate
        commit := by
          rw [hlogs]
          exact hcovered.of_lead hsound hbl hbpre hinside }
  · refine ⟨m, l, k, hact.ext.leader _ _ hl, hne, hact.ext.ballot _ _ _ hm, hml,
      hpre.trans (hact.ext.lead _), hk, ⟨e', he', het'⟩, hent,
      hcov.extend hact.ext (Nat.le_refl _), ?_⟩
    intro r hr _
    obtain rfl : reply = r := Option.some.inj hr
    refine ⟨?_, hack⟩
    rw [hfirst, hlen]

theorem shows_appendEntries (h : Shows s a) {k : Nat} (hcut : ¬ StaleCut s (.appendEntries k))
    (hs : s.step (.appendEntries k) = some s') : Refines a s' := by
  obtain ⟨call, rf, reply, hat, hae, rfl⟩ := stepAppendEntries_eq_some hs
  have hk := (requestAt_eq_some hat).1
  have hsent := h.appends call (List.mem_of_getElem? hk)
  have hp := h.peers call.dst
  have assemble : ∀ b, Ledger.Moves LogEntry.term call.dst a b → rf.Shows b call.dst →
      Sent b { call with status := .replied reply } →
      Refines a { s.setPeer call.dst rf with
        appendCalls := s.appendCalls.set k { call with status := .replied reply } } := by
    intro b hm hrf hnew
    refine ⟨call.dst, b, hm, h.of_calls hs rfl hm rfl hrf rfl rfl rfl rfl ?_⟩
    intro call' hmem
    rcases List.mem_or_eq_of_mem_set hmem with hold | rfl
    · exact Or.inl hold
    · exact Or.inr hnew
  rcases Raft.appendEntries_cases hae with ⟨-, rfl, hr, -⟩ | ⟨hle, hpast, -, -, -⟩ |
    ⟨hle, j, hj, hprev, rfl, hr, -, hfirst⟩ | ⟨hle, -, rfl, hr, -⟩
  · exact assemble a .refl hp (hsent.refused hr)
  · -- no request starts below index zero
    obtain ⟨-, -, i, -, -, -, -, -, hi, -⟩ := hsent
    rw [hi, hp.snapshotIndex] at hpast
    omega
  · rw [hp.snapshotIndex, Int.zero_add] at hj hfirst
    obtain ⟨b, hm, hrf, hnew⟩ := shows_accept h hsent hle hj hprev (fun hpre e he het =>
      hcut ⟨call, hat, _, hae, hr, hpre, e, he, het⟩) hfirst
    exact assemble b hm hrf hnew
  · obtain ⟨b, hm, hrf⟩ := shows_refuse h hsent hle
    exact assemble b hm hrf ((hsent.refused hr).extend (h.sound.moves hm).2.ext)

/-- The median of `matchIndex` is acknowledged by half of the peers or more. -/
theorem committed_of_median {p : Fin n} {rf : Raft n C D} (hrf : rf.Shows a p)
    (hl : rf.state = .leader) (hlogs : a.lead rf.currentTerm = rf.logs) {target : Int}
    (hmed : rf.medianMatch = some target) (hpos : 0 < target) {e : LogEntry C}
    (he : rf.logs[target.toNat]? = some e) (het : e.term = rf.currentTerm) :
    a.Committed LogEntry.term rf.currentTerm target.toNat := by
  obtain ⟨Q, hQ, hge⟩ := Median.exists_quorum hmed
  refine ⟨⟨e, by rw [hlogs]; exact he, het⟩, Q, by rw [Fintype.card_fin]; exact hQ, ?_⟩
  intro q hq
  have hle := hge q hq
  rcases hrf.matched hl q with hneg | hlt
  · omega
  · omega

theorem shows_updateCommitIndex {p : Fin n} {rf rf' : Raft n C D}
    (hrf : rf.Shows a p) (hl : rf.state = .leader) (hlogs : a.lead rf.currentTerm = rf.logs)
    (hup : rf.updateCommitIndex = some rf') : rf'.Shows a p := by
  rcases Raft.updateCommitIndex_cases hup with rfl | ⟨target, hmed, -, hpos, ⟨e, he, het⟩, rfl⟩
  · exact hrf
  · rw [hrf.snapshotIndex] at hpos he
    rw [Int.sub_zero] at he
    obtain ⟨k, hk, hget⟩ := Slice.index_eq_some he
    have hkt : k = target.toNat := by omega
    rw [hkt] at hget
    have hcom := committed_of_median hrf hl hlogs hmed hpos hget het
    refine hrf.of_same rfl rfl rfl rfl rfl hrf.lastApplied rfl hrf.matched (Or.inr ?_)
    refine ⟨rf.currentTerm, target.toNat, hcom, Nat.le_refl _, ?_, ?_, ?_⟩
    · show target ≤ target.toNat
      omega
    · show target < rf.logs.length
      have hlt := (List.getElem?_eq_some_iff.mp hget).1
      omega
    · rw [hlogs]
      exact List.take_prefix _ _

theorem shows_appendReply (h : Shows s a) {k : Nat} (hreset : ¬ VoteReset s (.appendReply k))
    (hack : ¬ StaleAck s (.appendReply k)) (hs : s.step (.appendReply k) = some s') :
    Refines a s' := by
  obtain ⟨call, reply, rf, out, hat, hh, rfl⟩ := stepAppendReply_eq_some hs
  obtain ⟨hk, hrep, -⟩ := replyAt_eq_some hat
  have hsent := h.appends call (List.mem_of_getElem? hk)
  have hp := h.peers call.src
  have assemble : rf.Shows a call.src → Refines a ({ s.setPeer call.src rf with
      appendCalls := s.appendCalls.set k { call with status := .done reply } }.send
        call.src call.dst (out.map .snapshot)) := by
    intro hrf
    refine ⟨call.src, a, .refl, h.of_calls hs rfl .refl (send_peers _ _ _) hrf
      (send_canvasses _ _ _) (send_voteCalls _ _ _) (send_pending _ _ _) (send_applied _ _ _) ?_⟩
    intro call' hmem
    rcases mem_send_appendCalls _ _ _ hmem with hold | ⟨args, hsome, -⟩
    · rcases List.mem_or_eq_of_mem_set hold with hold | rfl
      · exact Or.inl hold
      · -- handling the reply does not change what it says
        obtain ⟨m, l, j, hl, hne, hm, hml, hpre, hj, he, hent, hcov, hans⟩ := hsent
        refine Or.inr ⟨m, l, j, hl, hne, hm, hml, hpre, hj, he, hent, hcov, ?_⟩
        rw [hrep] at hans
        exact hans
    · cases out <;> cases hsome
  rcases Raft.consistencyCheckReplyHandler_cases hh with ⟨-, rfl, -⟩ | ⟨hl, hsucc, -, hup, -⟩ |
    ⟨hl, hfail, hlt, -, -⟩ | ⟨hl, -, -, ⟨next, rfl⟩, -⟩
  · exact assemble hp
  · have hterm : call.args.term = (s.peers call.src).currentTerm := by
      by_contra hne
      exact hack ⟨(call, reply), hat, hl, hsucc, hne⟩
    have hshow : ((s.peers call.src).acknowledged call.dst reply.firstIndex).Shows a call.src := by
      obtain ⟨m, l, j, -, -, -, -, -, -, -, -, -, hans⟩ := hsent
      obtain ⟨hfirst, hle⟩ := hans reply (by rw [hrep]; rfl) hsucc
      rw [hterm] at hle
      exact hp.of_same rfl rfl rfl rfl rfl hp.lastApplied rfl
        (fun _ => hp.matched_update hl (Or.inr (by omega))) hp.commit
    exact assemble (shows_updateCommitIndex hshow hl (lead_eq_logs h hl) hup)
  · exact absurd ⟨(call, reply), hat, hl, hfail, hlt⟩ hreset
  · refine assemble (hp.of_same rfl rfl rfl rfl rfl hp.lastApplied rfl hp.matched hp.commit)

/-! ## Snapshots and delivery -/

theorem shows_installSnapshot (h : Shows s a) {k : Nat}
    (hs : s.step (.installSnapshot k) = some s') : Refines a s' := by
  obtain ⟨call, rf, reply, msg, hat, his, rfl⟩ := stepInstallSnapshot_eq_some hs
  have hp := h.peers call.dst
  have hzero := h.snapshots call (List.mem_of_getElem? (requestAt_eq_some hat).1)
  rcases (Raft.installSnapshot_cases his).2 with ⟨-, rfl, rfl⟩ | ⟨-, hlt, -⟩
  · refine ⟨call.dst, a, .refl, h.of_peer hs rfl .refl rfl hp rfl rfl rfl rfl ?_⟩
    show Function.update s.applied call.dst (s.applied call.dst ++ []) = s.applied
    rw [List.append_nil, Function.update_eq_self]
  · rw [hzero, hp.snapshotIndex] at hlt
    omega

theorem shows_snapshotReply (h : Shows s a) {k : Nat}
    (hs : s.step (.snapshotReply k) = some s') : Refines a s' := by
  obtain ⟨call, reply, hat, rfl⟩ := stepSnapshotReply_eq_some hs
  have hp := h.peers call.src
  rcases Raft.snapshotReplyHandler_cases (s.peers call.src) call.dst reply with ⟨-, heq⟩ |
    ⟨hl, hlt, heq⟩ | ⟨hl, -, heq⟩
  · refine ⟨call.src, a, .refl, h.of_peer hs rfl .refl rfl ?_ rfl rfl rfl rfl rfl⟩
    rw [heq]
    exact hp
  · obtain ⟨b, hm, hcur, hfr, hlog, -, -, -, -⟩ := Ledger.exists_raise LogEntry.term
      (show a.current call.src < reply.currentTerm by rw [hp.current]; exact hlt)
    refine ⟨call.src, b, hm, h.of_peer hs rfl hm rfl ?_ rfl rfl rfl rfl rfl⟩
    rw [heq]
    exact hp.of_follower (h.sound.moves hm).2 rfl hcur hfr (by rw [hlog]) rfl rfl rfl rfl
      (Nat.le_of_lt hlt) (by simp [Raft.turnToFollow]) (fun hc => nomatch hc)
  · refine ⟨call.src, a, .refl, h.of_peer hs rfl .refl rfl ?_ rfl rfl rfl rfl rfl⟩
    rw [heq]
    refine hp.of_same rfl rfl rfl rfl rfl hp.lastApplied rfl
      (fun _ => hp.matched_update hl (Or.inl ?_)) hp.commit
    rw [hp.snapshotIndex]

/-- The messages for a slice of the log carry its entries under their indices. -/
theorem mem_applyMsgs {first : Nat} {logs : List (LogEntry C)} {msg : ApplyMsg C D}
    (h : msg ∈ (Raft.applyMsgs first logs : List (ApplyMsg C D))) :
    ∃ i e, logs[i]? = some e ∧ msg.commandIndex = (first + i : Nat) ∧
      msg.command = e.command := by
  induction logs generalizing first with
  | nil => cases h
  | cons x logs ih =>
      rcases List.mem_cons.mp h with rfl | hmem
      · exact ⟨0, x, rfl, rfl, rfl⟩
      · have hmem : msg ∈ (Raft.applyMsgs ((first + 1 : Nat) : Int) logs :
            List (ApplyMsg C D)) := hmem
        obtain ⟨i, e, he, hidx, hcmd⟩ := ih hmem
        refine ⟨i + 1, e, he, ?_, hcmd⟩
        rw [hidx]
        congr 1
        omega

theorem shows_applyTake (h : Shows s a) {p : Fin n} {spare : List (LogEntry C)}
    (hs : s.step (.applyTake p spare) = some s') : Refines a s' := by
  obtain ⟨rf, msgs, -, htake, rfl⟩ := stepApplyTake_eq_some hs
  have hp := h.peers p
  have assemble : rf.Shows a p → (∀ msg ∈ msgs, Delivered a msg) → Refines a { s.setPeer p rf with
      pending := Function.update s.pending p msgs } := by
    intro hrf hmsgs
    refine ⟨p, a, .refl, h.of_act hs rfl .refl rfl hrf ?_ ?_ ?_ ?_ ?_⟩
    · exact fun q t c hc => Or.inl ((cast_congr (by rfl) (by rfl)).mp hc)
    · exact fun cv hmem => Or.inl ⟨cv, hmem, rfl, rfl⟩
    · exact fun call hmem => Or.inl hmem
    · intro q msg hmem
      have hmem : msg ∈ Function.update s.pending p msgs q := hmem
      by_cases hq : q = p
      · subst hq
        rw [Function.update_self] at hmem
        exact Or.inr (hmsgs msg hmem)
      · rw [Function.update_of_ne hq] at hmem
        exact Or.inl hmem
    · exact fun q msg hmem => Or.inl hmem
  rcases Raft.applyLogEntries_cases htake with ⟨-, rfl, rfl⟩ | ⟨hlt, rfl, logs, hlogs, rfl⟩
  · exact assemble hp (fun msg hmem => nomatch hmem)
  · have hpos := hp.lastApplied
    refine assemble
      (hp.of_same rfl rfl rfl rfl rfl (by simp only; omega) rfl hp.matched hp.commit) ?_
    intro msg hmem
    -- the log reaches `commitIndex`, so nothing comes from behind it
    have hin := hp.commit.lt_length (by omega)
    rw [hp.snapshotIndex, Int.sub_zero, Int.sub_zero,
      Slice.between_of_le (by omega) (by omega) (by omega)] at hlogs
    obtain rfl := Option.some.inj hlogs
    rw [show (s.peers p).lastApplied + 1 = ((s.peers p).lastApplied.toNat + 1 : Nat) by omega]
      at hmem
    obtain ⟨i, e, he, hidx, hcmd⟩ := mem_applyMsgs hmem
    -- the entry lies in the committed part of the log
    rcases hp.commit with hneg | ⟨u, k, hcom, -, hk, -, hpre⟩
    · omega
    · rw [List.getElem?_drop, show ((s.peers p).commitIndex + 1).toNat
        = (s.peers p).commitIndex.toNat + 1 by omega] at he
      obtain ⟨r, hr⟩ := hpre
      have hlt' := (List.getElem?_eq_some_iff.mp he).1
      rw [List.length_take] at hlt'
      refine ⟨u, k, _, e, hcom, ?_, ?_, hidx, hcmd⟩
      · omega
      · rw [← hr, List.getElem?_append_left (by rw [List.length_take]; omega)]
        rw [← he]
        congr 1

theorem shows_applySend (h : Shows s a) {p : Fin n} (hs : s.step (.applySend p) = some s') :
    Refines a s' := by
  obtain ⟨msg, rest, hpend, rfl⟩ := stepApplySend_eq_some hs
  refine ⟨p, a, .refl, h.of_act hs rfl .refl (Function.update_eq_self _ _).symm (h.peers p)
    ?_ ?_ ?_ ?_ ?_⟩
  · exact fun q t c hc => Or.inl ((cast_congr (by rfl) (by rfl)).mp hc)
  · exact fun cv hmem => Or.inl ⟨cv, hmem, rfl, rfl⟩
  · exact fun call hmem => Or.inl hmem
  · refine (Function.forall_update_iff s.pending fun q l =>
      ∀ m ∈ l, m ∈ s.pending q ∨ Delivered a m).mpr ⟨fun m hmem => ?_, fun q _ m => Or.inl⟩
    rw [hpend]
    exact Or.inl (List.mem_cons_of_mem _ hmem)
  · refine (Function.forall_update_iff s.applied fun q l =>
      ∀ m ∈ l, m ∈ s.applied q ∨ m ∈ s.pending q).mpr ⟨fun m hmem => ?_, fun q _ m => Or.inl⟩
    rcases List.mem_append.mp hmem with hold | hnew
    · exact Or.inl hold
    · right
      rw [hpend, List.mem_singleton.mp hnew]
      exact List.mem_cons_self

/-- **Refinement.** Every step that keeps a ledger is some moves of one party. -/
theorem shows_step {e : Event n C D} (h : Shows s a) (hok : KeepsLedger s e)
    (hs : s.step e = some s') : Refines a s' := by
  obtain ⟨helect, hsnap, hack, hcut⟩ := hok
  cases e with
  | canvassVotes p => exact shows_canvassVotes h hs
  | requestVote k => exact shows_requestVote h hs
  | voteReply k => exact shows_voteReply h helect hs
  | start p command => exact shows_start h hs
  | consistencyCheck p i => exact shows_consistencyCheck h hs
  | appendEntries k => exact shows_appendEntries h hcut hs
  | appendReply k => exact shows_appendReply h helect.1.2.2 hack hs
  | installSnapshot k => exact shows_installSnapshot h hs
  | snapshotReply k => exact shows_snapshotReply h hs
  | newSnapShot p data index => cases hsnap
  | applyTake p spare => exact shows_applyTake h hs
  | applySend p => exact shows_applySend h hs
  | crash p => cases helect.1.1

end RaftLab.Cluster
