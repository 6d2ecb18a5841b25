import RaftLab.Lib.Reach
import RaftLab.Raft.Replication
import RaftLab.Cluster.CommittedLog

set_option autoImplicit false

/-! # An election can always be won

The runs on which the cluster keeps a ledger never come to a state from which no peer can become
leader. The peer with the most up-to-date log calls elections until its term is above all others;
then every peer that is asked grants its vote, and with half of them it leads (`exists_led`). The
steps of such a run are those of the election timers and of the network; no client and no apply
daemon takes part.
-/

namespace RaftLab

variable {n : Nat} {C D : Type}

/-- Whether the event belongs to an election or to the replication of the log. -/
def Event.isProtocol : Event n C D → Bool
  | .canvassVotes _ | .requestVote _ | .voteReply _ => true
  | .consistencyCheck .. | .appendEntries _ | .appendReply _ => true
  | _ => false

namespace Raft

variable {rf : Raft n C D}

theorem exists_lastLog (h : rf.logs ≠ []) :
    ∃ t, rf.lastLogIndexAndTerm = some (rf.lastIndex, t) := by
  obtain ⟨e, he⟩ := exists_index_last h
  have hread : Slice.index rf.logs (rf.snapshotIndex + rf.logs.length - 1 - rf.snapshotIndex)
      = some e := he
  refine ⟨e.term, ?_⟩
  simp only [lastLogIndexAndTerm, hread, Option.bind_eq_bind, Option.bind_some]
  rfl

/-- A vote that is asked for in a later term is given to a candidate whose log is up to date. -/
theorem requestVote_of_newer {args : RequestVoteArgs n} {i : Int} {t : Nat}
    (hlt : rf.currentTerm < args.term) (hlast : rf.lastLogIndexAndTerm = some (i, t))
    (hup : upToDate args i t = true) :
    rf.requestVote args = some ({ rf with
        currentTerm := args.term
        state := .follower
        votedFor := some args.candidateID }.persist,
      { currentTerm := 0, voteGranted := true }) := by
  simp only [requestVote, hlast, Option.bind_eq_bind, Option.bind_some]
  rw [if_neg (by omega), adoptTerm_of_lt hlt, if_pos ⟨rfl, hup⟩]
  rfl

end Raft

namespace Cluster

variable {s s' : Cluster n C D} {p q : Fin n}

/-! ## Healthy states -/

/-- What all states of the runs have on which the cluster keeps a ledger. -/
structure Healthy (s : Cluster n C D) : Prop where
  shows : ∃ a, Shows s a
  orderly : Orderly s
  rooted : ∀ p, (s.peers p).logs[0]? = some .placeholder

theorem healthy_init : Healthy (init : Cluster n C D) :=
  ⟨⟨_, shows_init⟩, orderly_init, fun _ => rfl⟩

theorem rooted_step {e : Event n C D} {a : Ledger (Fin n) (LogEntry C)} (h : Shows s a)
    (hroot : ∀ p, (s.peers p).logs[0]? = some .placeholder) (hok : KeepsLedger s e)
    (hs : s.step e = some s') (p : Fin n) : (s'.peers p).logs[0]? = some .placeholder := by
  have hlen : 0 < (s.peers p).logs.length := (List.getElem?_eq_some_iff.mp (hroot p)).1
  rcases logs_step hs hok.1.1.1 p with heq | ⟨command, -, -, heq⟩ | ⟨call, -, k, heq⟩ |
    ⟨j, t, k, rfl, -⟩ | ⟨hsnap, -⟩
  · rw [heq]
    exact hroot p
  · rw [heq, List.getElem?_append_left hlen]
    exact hroot p
  · rw [heq, List.getElem?_append_left (by rw [List.length_take]; omega),
      List.getElem?_take_of_lt (by omega)]
    exact hroot p
  · -- a snapshot that reaches nowhere is not installed
    obtain ⟨call, rf, reply, msg, hat, his, rfl⟩ := stepInstallSnapshot_eq_some hs
    have hzero := h.snapshots call (List.mem_of_getElem? (requestAt_eq_some hat).1)
    rcases (Raft.installSnapshot_cases his).2 with ⟨-, rfl, -⟩ | ⟨-, hlt, -⟩
    · show (Function.update s.peers call.dst (s.peers call.dst) p).logs[0]? = _
      rw [Function.update_eq_self]
      exact hroot p
    · rw [hzero, (h.peers call.dst).snapshotIndex] at hlt
      omega
  · rw [hok.2.1] at hsnap
    cases hsnap

theorem healthy_step {e : Event n C D} (h : Healthy s) (hok : KeepsLedger s e)
    (hs : s.step e = some s') : Healthy s' := by
  obtain ⟨a, ha⟩ := h.shows
  obtain ⟨-, a', -, ha'⟩ := shows_step ha hok hs
  exact ⟨⟨a', ha'⟩, orderly_step ha h.orderly hok hs, rooted_step ha h.rooted hok hs⟩

theorem healthy_run {es : List (Event n C D)} (hok : Machine.Along step KeepsLedger init es)
    (hs : runFrom es = some s) : Healthy s :=
  Machine.run_induction (fun _ _ _ h hok hs => healthy_step h hok hs) healthy_init hok hs

theorem Healthy.logs_ne (h : Healthy s) (p : Fin n) : (s.peers p).logs ≠ [] := by
  intro hnil
  have hroot := h.rooted p
  rw [hnil] at hroot
  cases hroot

theorem Healthy.snapshotIndex (h : Healthy s) (p : Fin n) : (s.peers p).snapshotIndex = 0 := by
  obtain ⟨a, ha⟩ := h.shows
  exact (ha.peers p).snapshotIndex

theorem Healthy.me (h : Healthy s) (p : Fin n) : (s.peers p).me = p := by
  obtain ⟨a, ha⟩ := h.shows
  exact (ha.peers p).me

/-- Elections and replication can take `s` to `s'`, and safety does not fail on the way. -/
abbrev Reaches (s s' : Cluster n C D) : Prop :=
  Machine.Leads step (fun s e => KeepsLedger s e ∧ e.isProtocol = true) s s'

theorem Healthy.reaches (h : Healthy s) (hr : Reaches s s') : Healthy s' :=
  hr.induction (fun _ _ _ h hok hs => healthy_step h hok.1 hs) h

/-! ## Requests and replies that are there -/

theorem voteRequestAt_of {k : Nat} {call : VoteCall n} (h : s.voteCalls[k]? = some call)
    (hsent : call.status = .sent) : s.voteRequestAt k = some call := by
  simp [voteRequestAt, h, hsent]

theorem voteReplyAt_of {k : Nat} {call : VoteCall n} {cv : Canvass n} {reply : RequestVoteReply}
    (h : s.voteCalls[k]? = some call) (hrep : call.status = .replied reply)
    (hcv : s.canvasses[call.canvass]? = some cv) (hepoch : cv.epoch = s.epoch cv.me) :
    s.voteReplyAt k = some (call, cv, reply) := by
  simp [voteReplyAt, h, hrep, hcv, hepoch, CallStatus.inFlight?]

/-- A vote reply of the candidate's own term is harmless. -/
theorem keepsLedger_voteReply {k : Nat} {call : VoteCall n} {cv : Canvass n}
    {reply : RequestVoteReply} (hat : s.voteReplyAt k = some (call, cv, reply))
    (hle : reply.currentTerm ≤ cv.voteArgs.term)
    (hterm : cv.voteArgs.term = (s.peers cv.me).currentTerm) : KeepsLedger s (.voteReply k) := by
  refine ⟨⟨⟨rfl, ?_, ?_⟩, ?_⟩, rfl, ?_, ?_⟩
  · rintro ⟨x, hx, -, hlt, -⟩
    obtain rfl := Option.some.inj (hat.symm.trans hx)
    exact absurd hlt (Nat.not_lt.mpr hle)
  · rintro ⟨x, hx, -⟩
    cases hx
  · rintro ⟨x, hx, -, -, -, -, hne⟩
    obtain rfl := Option.some.inj (hat.symm.trans hx)
    exact hne hterm
  · rintro ⟨x, hx, -⟩
    cases hx
  · rintro ⟨x, hx, -⟩
    cases hx

/-! ## Calling an election -/

/-- The timer of a peer can fire at any time; it then asks every other peer. -/
theorem exists_canvass (h : Healthy s) (p : Fin n) :
    ∃ args j s', Describes args (s.peers p).logs ∧ args.term = (s.peers p).currentTerm + 1 ∧
      Reaches s s' ∧
      s'.peers = Function.update s.peers p { s.peers p with
        votedFor := some (s.peers p).me
        currentTerm := (s.peers p).currentTerm + 1
        state := .candidate } ∧
      s'.canvasses[j]? = some { me := p, epoch := s'.epoch p, voteArgs := args, votes := 1 } ∧
      ∀ q, q ≠ p → ∃ k : Nat,
        s'.voteCalls[k]? = some { canvass := j, dst := q, args := args, status := .sent } := by
  obtain ⟨t, hlast⟩ := Raft.exists_lastLog (h.logs_ne p)
  let rf : Raft n C D := { s.peers p with
    votedFor := some (s.peers p).me
    currentTerm := (s.peers p).currentTerm + 1
    state := .candidate }
  let args : RequestVoteArgs n :=
    { term := (s.peers p).currentTerm + 1
      candidateID := (s.peers p).me
      lastLogIndex := (s.peers p).lastIndex
      lastLogTerm := t }
  have hfill : (s.peers p).fillRequestVoteArgs = some (rf, args) := by
    have hlast : rf.lastLogIndexAndTerm = some ((s.peers p).lastIndex, t) := hlast
    show (rf.lastLogIndexAndTerm >>= _) = _
    rw [hlast]
    rfl
  let s' : Cluster n C D := { s.setPeer p rf with
    canvasses := s.canvasses ++
      [{ me := p, epoch := s.epoch p, voteArgs := args, votes := 1 }]
    voteCalls := s.voteCalls ++ voteCallsOf s.canvasses.length p args }
  have hstep : s.step (.canvassVotes p) = some s' := by
    show s.stepCanvassVotes p = _
    simp only [stepCanvassVotes, hfill, Option.bind_eq_bind, Option.bind_some]
    rfl
  refine ⟨args, s.canvasses.length, s', describes_of_lastLog (h.snapshotIndex p) hlast, rfl,
    .single ⟨keepsLedger_of_none rfl rfl rfl rfl rfl, rfl⟩ hstep, rfl,
    List.getElem?_concat_length, fun q hq => ?_⟩
  apply List.getElem?_of_mem
  apply List.mem_append_right
  exact List.mem_map.mpr ⟨q, by simpa using hq, rfl⟩

/-- A peer can call elections until its term is as high as one likes. -/
theorem exists_raise (h : Healthy s) (p : Fin n) (m : Nat) :
    ∃ s', Reaches s s' ∧ (∀ q, q ≠ p → s'.peers q = s.peers q) ∧
      (s'.peers p).logs = (s.peers p).logs ∧
      (s'.peers p).currentTerm = (s.peers p).currentTerm + m := by
  induction m with
  | zero => exact ⟨s, .refl _ s, fun _ _ => rfl, rfl, rfl⟩
  | succ m ih =>
      obtain ⟨t, hst, hothers, hlogs, hterm⟩ := ih
      obtain ⟨args, j, u, -, -, htu, hpeers, -⟩ := exists_canvass (h.reaches hst) p
      refine ⟨u, hst.trans htu, fun q hq => ?_, ?_, ?_⟩
      · rw [hpeers, Function.update_of_ne hq]
        exact hothers q hq
      · rw [hpeers, Function.update_self]
        exact hlogs
      · rw [hpeers, Function.update_self]
        show (t.peers p).currentTerm + 1 = _
        omega

/-! ## Winning it -/

/-- Peer `p` runs election `j` in a term above all others, has `votes` votes and may ask the peers
`qs`, who will not refuse. -/
structure Campaigns (s : Cluster n C D) (p : Fin n) (j : Nat) (args : RequestVoteArgs n)
    (votes : Nat) (qs : List (Fin n)) : Prop where
  healthy : Healthy s
  state : (s.peers p).state = .candidate
  term : (s.peers p).currentTerm = args.term
  describes : Describes args (s.peers p).logs
  canvass : s.canvasses[j]? =
    some { me := p, epoch := s.epoch p, voteArgs := args, votes := votes }
  below : ∀ q, (s.peers q).currentTerm ≤ args.term
  others : ∀ q ∈ qs, q ≠ p
  newer : ∀ q ∈ qs, (s.peers q).currentTerm < args.term
  upToDate : ∀ q ∈ qs, Ledger.UpToDate LogEntry.term (s.peers p).logs (s.peers q).logs
  calls : ∀ q ∈ qs, ∃ k : Nat,
    s.voteCalls[k]? = some { canvass := j, dst := q, args := args, status := .sent }

/-- The comparison of `RequestVote` is one of the logs. -/
theorem upToDate_of_logs {rf : Raft n C D} (hidx : rf.snapshotIndex = 0)
    {args : RequestVoteArgs n} {l : List (LogEntry C)} (hd : Describes args l) {i : Int} {t : Nat}
    (hlast : rf.lastLogIndexAndTerm = some (i, t))
    (hup : Ledger.UpToDate LogEntry.term l rf.logs) : Raft.upToDate args i t = true := by
  obtain ⟨hlen, x, hx, hxt⟩ := hd
  obtain ⟨hi, y, hy, hyt⟩ := Raft.lastLogIndexAndTerm_eq_some hlast
  obtain ⟨x', y', hx', hy', hcmp⟩ := hup
  obtain rfl := Option.some.inj (hx.symm.trans hx')
  obtain rfl := Option.some.inj (hy.symm.trans hy')
  rw [hidx] at hi
  simp only [Raft.upToDate, Bool.or_eq_true, Bool.and_eq_true, decide_eq_true_eq]
  omega

/-- A peer that is asked grants its vote, and the reply reaches the candidate. -/
theorem Campaigns.ask {j votes : Nat} {args : RequestVoteArgs n} {qs : List (Fin n)}
    (h : Campaigns s p j args votes qs) (hq : q ∈ qs) :
    ∃ s', Reaches s s' ∧
      s'.peers p = ((s.peers p).voteReplyHandler args votes
        { currentTerm := 0, voteGranted := true }).1 ∧
      s'.canvasses[j]? = some
        { me := p, epoch := s'.epoch p, voteArgs := args,
          votes := ((s.peers p).voteReplyHandler args votes
            { currentTerm := 0, voteGranted := true }).2 } ∧
      (s'.peers q).currentTerm = args.term ∧ (∀ r, r ≠ p → r ≠ q → s'.peers r = s.peers r) ∧
      ∀ r, r ≠ q → ∀ k : Nat,
        s.voteCalls[k]? = some { canvass := j, dst := r, args := args, status := .sent } →
        s'.voteCalls[k]? = some { canvass := j, dst := r, args := args, status := .sent } := by
  obtain ⟨k, hk⟩ := h.calls q hq
  have hne := h.others q hq
  obtain ⟨t, hlast⟩ := Raft.exists_lastLog (h.healthy.logs_ne q)
  have hgrant := Raft.requestVote_of_newer (h.newer q hq) hlast
    (upToDate_of_logs (h.healthy.snapshotIndex q) h.describes hlast (h.upToDate q hq))
  -- the request
  let rf : Raft n C D := { s.peers q with
    currentTerm := args.term
    state := .follower
    votedFor := some args.candidateID }.persist
  let call : VoteCall n :=
    { canvass := j, dst := q, args := args
      status := .replied { currentTerm := 0, voteGranted := true } }
  let s₁ : Cluster n C D := { s.setPeer q rf with voteCalls := s.voteCalls.set k call }
  have hstep₁ : s.step (.requestVote k) = some s₁ := by
    show s.stepRequestVote k = _
    simp only [stepRequestVote, voteRequestAt_of hk rfl, hgrant, Option.bind_eq_bind,
      Option.bind_some]
    rfl
  have hlen : k < s.voteCalls.length := (List.getElem?_eq_some_iff.mp hk).1
  have hp : s₁.peers p = s.peers p := Function.update_of_ne hne.symm _ _
  -- the reply
  have hat : s₁.voteReplyAt k = some (call,
      { me := p, epoch := s.epoch p, voteArgs := args, votes := votes },
      { currentTerm := 0, voteGranted := true }) :=
    voteReplyAt_of (List.getElem?_set_self hlen) rfl h.canvass rfl
  have hok₂ : KeepsLedger s₁ (.voteReply k) := by
    refine keepsLedger_voteReply hat (Nat.zero_le _) ?_
    rw [hp]
    exact h.term.symm
  have hstep₂ : ∃ s₂, s₁.step (.voteReply k) = some s₂ :=
    Option.isSome_iff_exists.mp (by simp [step, stepVoteReply, hat])
  obtain ⟨s₂, hs₂⟩ := hstep₂
  obtain ⟨call', cv, reply, rf', votes', hat', hh, rfl⟩ := stepVoteReply_eq_some hs₂
  cases hat.symm.trans hat'
  rw [hp] at hh
  refine ⟨_, .trans (.single ⟨keepsLedger_of_none (e := .requestVote k) rfl rfl rfl rfl rfl, rfl⟩
    hstep₁) (.single ⟨hok₂, rfl⟩ hs₂), ?_, ?_, ?_, ?_, ?_⟩
  · rw [hh]
    exact Function.update_self ..
  · rw [hh]
    exact List.getElem?_set_self (List.getElem?_eq_some_iff.mp h.canvass).1
  · show (Function.update s₁.peers p rf' q).currentTerm = _
    rw [Function.update_of_ne hne]
    show (Function.update s.peers q rf q).currentTerm = _
    rw [Function.update_self]
    rfl
  · intro r hrp hrq
    show Function.update s₁.peers p rf' r = _
    rw [Function.update_of_ne hrp]
    exact Function.update_of_ne hrq _ _
  · intro r hrq k' hk'
    -- another call, since it has another destination
    have hkk : k ≠ k' := by
      rintro rfl
      cases hk.symm.trans hk'
      exact hrq rfl
    show ((s.voteCalls.set k call).set k _)[k']? = _
    rw [List.getElem?_set_ne hkk, List.getElem?_set_ne hkk]
    exact hk'

/-- Peer `p` leads term `t`, above which there is no other, with the log `l`. -/
structure Led (s : Cluster n C D) (p : Fin n) (t : Nat) (l : List (LogEntry C)) : Prop where
  healthy : Healthy s
  leads : (s.peers p).state = .leader
  term : (s.peers p).currentTerm = t
  logs : (s.peers p).logs = l
  below : ∀ q, (s.peers q).currentTerm ≤ t
  next_pos : ∀ q, q ≠ p → 1 ≤ (s.peers p).nextIndex q
  next_le : ∀ q, q ≠ p → (s.peers p).nextIndex q ≤ l.length
  own : (s.peers p).matchIndex p = l.length - 1

theorem Campaigns.win {j votes : Nat} {args : RequestVoteArgs n} {qs : List (Fin n)}
    (h : Campaigns s p j args votes qs) (hnodup : qs.Nodup) (hv : votes ≤ n / 2)
    (hlen : n / 2 < votes + qs.length) :
    ∃ s' l, Reaches s s' ∧ Led s' p args.term l := by
  induction qs generalizing s votes with
  | nil => exact absurd hlen (by rw [List.length_nil]; omega)
  | cons q qs ih =>
      obtain ⟨s', hr, hpeer, hcv, hqterm, hothers, hcalls⟩ := h.ask List.mem_cons_self
      have hhealthy := h.healthy.reaches hr
      have hne := h.others q List.mem_cons_self
      by_cases hhalf : votes = n / 2
      · have hwin : (s.peers p).voteReplyHandler args votes
            { currentTerm := 0, voteGranted := true } =
            ({ s.peers p with state := .leader }.resetOnElection, votes) := by
          simp [Raft.voteReplyHandler, h.state, hhalf]
        rw [hwin] at hpeer
        have hpos := List.length_pos_of_ne_nil (h.healthy.logs_ne p)
        have hidx := h.healthy.snapshotIndex p
        refine ⟨s', (s.peers p).logs, hr, hhealthy, ?_, ?_, ?_, ?_, ?_, ?_, ?_⟩
        · rw [hpeer]
          rfl
        · rw [hpeer]
          exact h.term
        · rw [hpeer]
          rfl
        · intro r
          by_cases hrp : r = p
          · rw [hrp, hpeer]
            exact h.below p
          · by_cases hrq : r = q
            · rw [hrq, hqterm]
            · rw [hothers r hrp hrq]
              exact h.below r
        · intro r _
          rw [hpeer]
          show (1 : Int) ≤ (s.peers p).logs.length + (s.peers p).snapshotIndex
          omega
        · intro r _
          rw [hpeer]
          show (s.peers p).logs.length + (s.peers p).snapshotIndex ≤ _
          omega
        · rw [hpeer]
          show (if p = (s.peers p).me then
            ((s.peers p).logs.length : Int) + (s.peers p).snapshotIndex - 1 else 0) = _
          rw [if_pos (h.healthy.me p).symm, hidx, Int.add_zero]
      · have hcount : (s.peers p).voteReplyHandler args votes
            { currentTerm := 0, voteGranted := true } = (s.peers p, votes + 1) := by
          simp [Raft.voteReplyHandler, h.state, hhalf]
        rw [hcount] at hpeer hcv
        obtain ⟨hnot, hnodup'⟩ := List.nodup_cons.mp hnodup
        -- the peers still to be asked are as they were
        have hsame : ∀ r ∈ qs, s'.peers r = s.peers r := fun r hr =>
          hothers r (h.others r (List.mem_cons_of_mem _ hr)) fun heq => hnot (heq ▸ hr)
        suffices hnext : Campaigns s' p j args (votes + 1) qs by
          obtain ⟨s₁, l, hr₁, hled⟩ :=
            ih hnext hnodup' (by omega) (by rw [List.length_cons] at hlen; omega)
          exact ⟨s₁, l, hr.trans hr₁, hled⟩
        refine ⟨hhealthy, ?_, ?_, ?_, hcv, ?_, ?_, ?_, ?_, ?_⟩
        · rw [hpeer]
          exact h.state
        · rw [hpeer]
          exact h.term
        · rw [hpeer]
          exact h.describes
        · intro r
          by_cases hrp : r = p
          · rw [hrp, hpeer]
            exact h.below p
          · by_cases hrq : r = q
            · rw [hrq, hqterm]
            · rw [hothers r hrp hrq]
              exact h.below r
        · exact fun r hr => h.others r (List.mem_cons_of_mem _ hr)
        · intro r hr
          rw [hsame r hr]
          exact h.newer r (List.mem_cons_of_mem _ hr)
        · intro r hr
          rw [hsame r hr, hpeer]
          exact h.upToDate r (List.mem_cons_of_mem _ hr)
        · intro r hr
          obtain ⟨k, hk⟩ := h.calls r (List.mem_cons_of_mem _ hr)
          exact ⟨k, hcalls r (fun heq => hnot (heq ▸ hr)) k hk⟩

/-- Some peer has a log that is up to date with every other. -/
theorem exists_upToDate (h : Healthy s) (hn : 0 < n) :
    ∃ p, ∀ q, Ledger.UpToDate LogEntry.term (s.peers p).logs (s.peers q).logs := by
  have hlast : ∀ p, ∃ x, (s.peers p).logs.getLast? = some x := fun p =>
    ⟨_, List.getLast?_eq_some_getLast (h.logs_ne p)⟩
  choose last hlast using hlast
  obtain ⟨p, -, hmax⟩ := Finset.exists_max_image Finset.univ
    (fun p => toLex ((last p).term, (s.peers p).logs.length)) ⟨⟨0, hn⟩, Finset.mem_univ _⟩
  refine ⟨p, fun q => ⟨last p, last q, hlast p, hlast q, ?_⟩⟩
  exact Prod.Lex.toLex_le_toLex.mp (hmax q (Finset.mem_univ q))

/-- **An election can always be won.** -/
theorem exists_led (h : Healthy s) (hn : 2 ≤ n) :
    ∃ s' p t l, Reaches s s' ∧ Led s' p t l := by
  obtain ⟨p, hbest⟩ := exists_upToDate h (by omega)
  obtain ⟨m, hm⟩ : ∃ m, ∀ q, (s.peers q).currentTerm ≤ m :=
    ⟨Finset.univ.sup fun q => (s.peers q).currentTerm,
      fun q => Finset.le_sup (f := fun q => (s.peers q).currentTerm) (Finset.mem_univ q)⟩
  obtain ⟨s₁, hr₁, hothers, hlogs, hterm⟩ := exists_raise h p m
  obtain ⟨args, j, s₂, hdesc, hargs, hr₂, hpeers, hcv, hcalls⟩ := exists_canvass (h.reaches hr₁) p
  have hp : s₂.peers p = { s₁.peers p with
      votedFor := some (s₁.peers p).me
      currentTerm := (s₁.peers p).currentTerm + 1
      state := .candidate } := by
    rw [hpeers, Function.update_self]
  have hq : ∀ q, q ≠ p → s₂.peers q = s.peers q := by
    intro q hq
    rw [hpeers, Function.update_of_ne hq, hothers q hq]
  have hlt : ∀ q, (s.peers q).currentTerm < args.term := by
    intro q
    have := hm q
    omega
  have hcamp : Campaigns s₂ p j args 1 ((List.finRange n).erase p) := by
    have hmem : ∀ q ∈ (List.finRange n).erase p, q ≠ p := fun q hq =>
      ((List.nodup_finRange n).mem_erase_iff.mp hq).1
    refine ⟨(h.reaches hr₁).reaches hr₂, by rw [hp], by rw [hp, hargs], by rw [hp]; exact hdesc,
      hcv, fun q => ?_, hmem, fun q hmemq => ?_, fun q hmemq => ?_,
      fun q hmemq => hcalls q (hmem q hmemq)⟩
    · by_cases hqp : q = p
      · rw [hqp, hp, hargs]
      · rw [hq q hqp]
        exact Nat.le_of_lt (hlt q)
    · rw [hq q (hmem q hmemq)]
      exact hlt q
    · rw [hq q (hmem q hmemq), hp]
      show Ledger.UpToDate LogEntry.term (s₁.peers p).logs _
      rw [hlogs]
      exact hbest q
  have hlen : ((List.finRange n).erase p).length = n - 1 := by
    rw [List.length_erase_of_mem (List.mem_finRange p), List.length_finRange]
  obtain ⟨s₃, l, hr₃, hled⟩ := hcamp.win ((List.nodup_finRange n).erase p) (by omega)
    (by rw [hlen]; omega)
  exact ⟨s₃, p, args.term, l, (hr₁.trans hr₂).trans hr₃, hled⟩

end Cluster

end RaftLab
