import RaftLab.Lib.Records
import RaftLab.Cluster.Voting

set_option autoImplicit false

/-! # One vote per term, and election safety

Runs without crashes in which none of the branches `StaleDepose`, `VoteReset` (and, for
election safety, `StaleWin`) is taken. The first two make a peer forget its vote of the
current term; where they are avoided a peer votes at most once in a term (`VoteInv`), so
that two elections of one term cannot both collect more than half of the votes
(`ElectionInv`). On the branches themselves both laws fail, and the file ends with the runs
that show it.
-/

namespace RaftLab

variable {n : Nat} {C D : Type}

/-- The handler has answered the call with `VoteGranted = true`. -/
def VoteCall.granted (call : VoteCall n) : Bool :=
  call.status.answer?.any (fun r => r.voteGranted)

/-- The caller has received the vote of the call. -/
def VoteCall.Counted (call : VoteCall n) : Prop :=
  ∃ reply, call.status = .done reply ∧ reply.voteGranted = true

/-- The seat keeps its vote: its term grows, or stays without the vote being withdrawn. -/
def Seat.KeepsVote (st st' : Seat n) : Prop :=
  st.currentTerm < st'.currentTerm ∨
    (st'.currentTerm = st.currentTerm ∧ (st'.votedFor = none → st.votedFor = none))

theorem Seat.KeepsVote.refl (st : Seat n) : Seat.KeepsVote st st := Or.inr ⟨rfl, id⟩

theorem Seat.keepsVote_update {f : Fin n → Seat n} {p : Fin n} {st : Seat n}
    (h : Seat.KeepsVote (f p) st) (q : Fin n) :
    Seat.KeepsVote (f q) (Function.update f p st q) :=
  (Function.forall_update_iff f fun q st => Seat.KeepsVote (f q) st).mpr
    ⟨h, fun _ _ => .refl _⟩ q

namespace Cluster

variable {s s' : Cluster n C D}

/-- Peer `q` has cast a vote for `c` in term `t`: for itself when it started an election in
that term, or by granting a request of that term. -/
def Cast (s : Cluster n C D) (q : Fin n) (t : Nat) (c : Fin n) : Prop :=
  (∃ cv ∈ s.canvasses, cv.me = q ∧ cv.voteArgs.term = t ∧ c = q) ∨
  (∃ call ∈ s.voteCalls, call.dst = q ∧ call.args.term = t ∧ call.args.candidateID = c ∧
    call.granted = true)

instance (s : Cluster n C D) (q : Fin n) (t : Nat) (c : Fin n) : Decidable (s.Cast q t c) :=
  inferInstanceAs (Decidable (_ ∨ _))

/-! ## Votes are recorded, never withdrawn -/

theorem cast_congr (hcv : s'.canvasses = s.canvasses) (hvc : s'.voteCalls = s.voteCalls)
    {q : Fin n} {t : Nat} {c : Fin n} : s'.Cast q t c ↔ s.Cast q t c := by
  simp only [Cast, hcv, hvc]

theorem not_granted_of_mem_voteCallsOf {j : Nat} {p : Fin n} {args : RequestVoteArgs n}
    {call : VoteCall n} (h : call ∈ voteCallsOf j p args) : call.granted = false := by
  obtain ⟨q, -, rfl⟩ := List.mem_map.mp h
  rfl

theorem cast_campaign {p : Fin n} {args : RequestVoteArgs n} {ep : Nat}
    (hcv : s'.canvasses = s.canvasses ++ [{ me := p, epoch := ep, voteArgs := args, votes := 1 }])
    (hvc : s'.voteCalls = s.voteCalls ++ voteCallsOf s.canvasses.length p args)
    {q : Fin n} {t : Nat} {c : Fin n} :
    s'.Cast q t c ↔ s.Cast q t c ∨ (q = p ∧ t = args.term ∧ c = p) := by
  simp only [Cast, hcv, hvc, List.mem_append, List.mem_singleton]
  constructor
  · rintro (⟨cv, hcv' | rfl, rfl, rfl, rfl⟩ | ⟨call, hcall | hcall, rfl, rfl, rfl, hg⟩)
    · exact Or.inl (Or.inl ⟨cv, hcv', rfl, rfl, rfl⟩)
    · exact Or.inr ⟨rfl, rfl, rfl⟩
    · exact Or.inl (Or.inr ⟨call, hcall, rfl, rfl, rfl, hg⟩)
    · rw [not_granted_of_mem_voteCallsOf hcall] at hg
      cases hg
  · rintro ((⟨cv, hcv', h⟩ | ⟨call, hcall, h⟩) | ⟨rfl, rfl, rfl⟩)
    · exact Or.inl ⟨cv, Or.inl hcv', h⟩
    · exact Or.inr ⟨call, Or.inl hcall, h⟩
    · exact Or.inl ⟨_, Or.inr rfl, rfl, rfl, rfl⟩

theorem cast_answer {k : Nat} {call : VoteCall n} {reply : RequestVoteReply}
    (hk : s.voteCalls[k]? = some call) (hsent : call.status = .sent)
    (hcv : s'.canvasses = s.canvasses)
    (hvc : s'.voteCalls = s.voteCalls.set k { call with status := .replied reply })
    {q : Fin n} {t : Nat} {c : Fin n} :
    s'.Cast q t c ↔ s.Cast q t c ∨
      (call.dst = q ∧ call.args.term = t ∧ call.args.candidateID = c ∧
        reply.voteGranted = true) := by
  -- the answered call was not granted before
  have hnot : ¬ (call.dst = q ∧ call.args.term = t ∧ call.args.candidateID = c ∧
      call.granted = true) := by
    rintro ⟨-, -, -, hg⟩
    simp [VoteCall.granted, hsent, CallStatus.answer?] at hg
  rw [Cast, Cast, hcv, hvc, Records.exists_mem_set_or hk hnot, or_assoc]
  simp [VoteCall.granted, CallStatus.answer?]

theorem cast_tally {k j : Nat} {call : VoteCall n} {cv : Canvass n} {reply : RequestVoteReply}
    {votes : Nat} (hk : s.voteCalls[k]? = some call) (hst : call.status = .replied reply)
    (hj : s.canvasses[j]? = some cv)
    (hcv : s'.canvasses = s.canvasses.set j { cv with votes := votes })
    (hvc : s'.voteCalls = s.voteCalls.set k { call with status := .done reply })
    {q : Fin n} {t : Nat} {c : Fin n} : s'.Cast q t c ↔ s.Cast q t c := by
  rw [Cast, Cast, hcv, hvc]
  refine or_congr (Records.exists_mem_set_iff hj Iff.rfl) (Records.exists_mem_set_iff hk ?_)
  simp [VoteCall.granted, hst, CallStatus.answer?]

/-! ## One vote per term -/

/-- What carries the law of one vote per term: a vote is of a term the voter has reached,
and while it is still in that term its `VotedFor` is taken. -/
structure VoteInv (s : Cluster n C D) : Prop where
  bound : ∀ q t c, s.Cast q t c → t ≤ (s.seat q).currentTerm
  taken : ∀ q c, s.Cast q (s.seat q).currentTerm c → (s.seat q).votedFor ≠ none
  unique : ∀ q t c c', s.Cast q t c → s.Cast q t c' → c = c'

/-- A step on which nobody votes and every seat keeps its vote. -/
theorem VoteInv.of_keepsVote (hinv : VoteInv s)
    (hcast : ∀ q t c, s'.Cast q t c ↔ s.Cast q t c)
    (hkeep : ∀ q, Seat.KeepsVote (s.seat q) (s'.seat q)) : VoteInv s' where
  bound := by
    intro q t c h
    have hb := hinv.bound q t c ((hcast q t c).mp h)
    rcases hkeep q with hlt | ⟨heq, -⟩ <;> omega
  taken := by
    intro q c h hnone
    have hc := (hcast q _ c).mp h
    have hb := hinv.bound q _ c hc
    rcases hkeep q with hlt | ⟨heq, hv⟩
    · omega
    · rw [heq] at hc
      exact hinv.taken q c hc (hv hnone)
  unique := by
    intro q t c c' h h'
    exact hinv.unique q t c c' ((hcast q t c).mp h) ((hcast q t c').mp h')

/-- The same for a step that changes one seat. -/
theorem VoteInv.of_seat (hinv : VoteInv s) (hcast : ∀ q t c, s'.Cast q t c ↔ s.Cast q t c)
    {p : Fin n} {st : Seat n} (hseat : s'.seat = Function.update s.seat p st)
    (hkeep : Seat.KeepsVote (s.seat p) st) : VoteInv s' := by
  refine hinv.of_keepsVote hcast ?_
  rw [hseat]
  exact Seat.keepsVote_update hkeep

/-- A step on which peer `p` votes for `d`, in a term above its own or in its own term
while its vote is free. -/
theorem VoteInv.of_vote (hinv : VoteInv s) {p d : Fin n} {st : Seat n}
    (hcast : ∀ q t c, s'.Cast q t c ↔ s.Cast q t c ∨ (q = p ∧ t = st.currentTerm ∧ c = d))
    (hseat : s'.seat = Function.update s.seat p st)
    (hfree : (s.seat p).currentTerm < st.currentTerm ∨
      ((s.seat p).currentTerm = st.currentTerm ∧ (s.seat p).votedFor = none))
    (hvoted : st.votedFor ≠ none) : VoteInv s' := by
  have hself : s'.seat p = st := by rw [hseat, Function.update_self]
  have hother : ∀ q, q ≠ p → s'.seat q = s.seat q := by
    intro q hq
    rw [hseat, Function.update_of_ne hq]
  -- the voter had no vote in the term it votes in
  have hfresh : ∀ c, ¬ s.Cast p st.currentTerm c := by
    intro c hc
    rcases hfree with hlt | ⟨heq, hnone⟩
    · have := hinv.bound p _ c hc
      omega
    · rw [← heq] at hc
      exact hinv.taken p c hc hnone
  refine ⟨?_, ?_, ?_⟩
  · intro q t c h
    rcases (hcast q t c).mp h with hold | ⟨rfl, rfl, rfl⟩
    · have hb := hinv.bound q t c hold
      by_cases hq : q = p
      · subst hq
        rw [hself]
        rcases hfree with hlt | ⟨heq, -⟩ <;> omega
      · rw [hother q hq]
        exact hb
    · rw [hself]
  · intro q c h
    by_cases hq : q = p
    · subst hq
      rw [hself]
      exact hvoted
    · rw [hother q hq] at h ⊢
      rcases (hcast q _ c).mp h with hold | ⟨rfl, -, -⟩
      · exact hinv.taken q c hold
      · exact absurd rfl hq
  · intro q t c c' h h'
    rcases (hcast q t c).mp h with hold | ⟨rfl, rfl, rfl⟩
    · rcases (hcast q t c').mp h' with hold' | ⟨rfl, rfl, rfl⟩
      · exact hinv.unique q t c c' hold hold'
      · exact absurd hold (hfresh c)
    · rcases (hcast q _ c').mp h' with hold' | ⟨-, -, rfl⟩
      · exact absurd hold' (hfresh c')
      · rfl

/-- A step that keeps the votes: it is no crash, and no vote is forgotten. -/
def KeepsVotes (s : Cluster n C D) (e : Event n C D) : Prop :=
  e.isCrash = false ∧ ¬ StaleDepose s e ∧ ¬ VoteReset s e

instance (s : Cluster n C D) (e : Event n C D) : Decidable (KeepsVotes s e) :=
  inferInstanceAs (Decidable (_ ∧ _))

theorem currentTerm_lt_of_not_staleDepose {k : Nat} {call : VoteCall n} {cv : Canvass n}
    {reply : RequestVoteReply} (h : ¬ StaleDepose s (.voteReply k))
    (hat : s.voteReplyAt k = some (call, cv, reply)) (hc : (s.seat cv.me).state = .candidate)
    (hlt : cv.voteArgs.term < reply.currentTerm) :
    (s.seat cv.me).currentTerm < reply.currentTerm := by
  by_contra hcon
  exact h ⟨(call, cv, reply), hat, hc, hlt, Nat.le_of_not_lt hcon⟩

theorem voteInv_init : VoteInv (init : Cluster n C D) := by
  have hnone : ∀ q t c, ¬ (init : Cluster n C D).Cast q t c := by
    rintro q t c (⟨cv, hmem, -⟩ | ⟨call, hmem, -⟩)
    · cases hmem
    · cases hmem
  exact ⟨fun q t c h => absurd h (hnone q t c), fun q c h => absurd h (hnone q _ c),
    fun q t c c' h _ => absurd h (hnone q t c)⟩

theorem voteInv_step {e : Event n C D} (hinv : VoteInv s) (hok : KeepsVotes s e)
    (h : s.step e = some s') : VoteInv s' := by
  obtain ⟨hcrash, hdep, hreset⟩ := hok
  cases step_voting hcrash h with
  | quiet hseat hcv hvc _ =>
      refine hinv.of_keepsVote (fun q t c => cast_congr hcv hvc) (fun q => ?_)
      rw [hseat]
      exact .refl _
  | campaign p args ht hid hseat hcv hvc _ =>
      refine hinv.of_vote (p := p) (d := p) (fun q t c => cast_campaign hcv hvc) hseat ?_ ?_
      · left
        simp only [ht]
        omega
      · exact Option.some_ne_none _
  | answer k call reply st hat hst hseat hcv hvc _ =>
      obtain ⟨hk, hsent⟩ := voteRequestAt_eq_some hat
      have hcast := fun q t c => cast_answer (q := q) (t := t) (c := c) hk hsent hcv hvc
      generalize hg : reply.voteGranted = g at hst hcast
      cases hst with
      | grant hfree =>
          refine hinv.of_vote (p := call.dst) (d := call.args.candidateID)
            (fun q t c => (hcast q t c).trans ?_) hseat hfree (Option.some_ne_none _)
          simp only [and_true]
          constructor
          · rintro (h | ⟨rfl, rfl, rfl⟩)
            · exact Or.inl h
            · exact Or.inr ⟨rfl, rfl, rfl⟩
          · rintro (h | ⟨rfl, rfl, rfl⟩)
            · exact Or.inl h
            · exact Or.inr ⟨rfl, rfl, rfl⟩
      -- without a vote nothing is cast, and only a newer term forgets the old one
      | stale hlt => exact hinv.of_seat (fun q t c => (hcast q t c).trans (by simp)) hseat (.refl _)
      | adopt hlt =>
          exact hinv.of_seat (fun q t c => (hcast q t c).trans (by simp)) hseat (Or.inl hlt)
      | refuse heq =>
          exact hinv.of_seat (fun q t c => (hcast q t c).trans (by simp)) hseat (.refl _)
  | tally k call cv reply st votes hat hst hseat hcv hvc _ =>
      obtain ⟨hk, hrep, hj, -⟩ := voteReplyAt_eq_some hat
      refine hinv.of_seat (fun q t c => cast_tally hk hrep hj hcv hvc) hseat ?_
      cases hst with
      | ignore => exact .refl _
      | depose hc hlt => exact Or.inl (currentTerm_lt_of_not_staleDepose hdep hat hc hlt)
      | win hc hle hg hv => exact Or.inr ⟨rfl, id⟩
      | count hc hg => exact .refl _
  | hear k p l t hle hseat hcv hvc _ =>
      refine hinv.of_seat (fun q t c => cast_congr hcv hvc) hseat ?_
      -- in its own term the peer now counts the leader as the one it voted for
      rcases Nat.lt_or_eq_of_le hle with hlt | heq
      · exact Or.inl hlt
      · exact Or.inr ⟨heq.symm, fun hnone => absurd hnone (Option.some_ne_none _)⟩
  | reset k p hbad _ _ _ _ => exact absurd hbad hreset
  | stepDown k p t hlt hseat hcv hvc _ =>
      exact hinv.of_seat (fun q t c => cast_congr hcv hvc) hseat (Or.inl hlt)

/-- **One vote per term.** -/
theorem cast_subsingleton {es : List (Event n C D)}
    (hok : Machine.Along step KeepsVotes init es) (hr : runFrom es = some s)
    (q : Fin n) (t : Nat) : { c | s.Cast q t c }.Subsingleton := by
  have hinv : VoteInv s :=
    Machine.run_induction (fun _ _ _ hi hk hs => voteInv_step hi hk hs) voteInv_init hok hr
  intro c hc c' hc'
  exact hinv.unique q t c c' hc hc'

/-- An election of three peers in which two peers vote. -/
def oneElection : List (Event 3 Nat Unit) :=
  [.canvassVotes 0, .requestVote 0, .voteReply 0, .consistencyCheck 0 1, .appendEntries 0,
    .appendReply 0]

theorem cast_subsingleton_oneElection :
    Machine.Along step KeepsVotes init oneElection ∧
      ∃ s, runFrom oneElection = some s ∧ { c | s.Cast 1 1 c }.Subsingleton := by
  have hok : Machine.Along step KeepsVotes init oneElection := by decide
  obtain ⟨s, hs⟩ := Option.isSome_iff_exists.mp (show (runFrom oneElection).isSome = true by decide)
  exact ⟨hok, s, hs, cast_subsingleton hok hs 1 1⟩

/-! ## Elections and their calls -/

/-- How elections, vote calls and vote counts belong together. -/
structure Bookkeeping (s : Cluster n C D) : Prop where
  named : ∀ p, (s.seat p).me = p
  cand : ∀ cv ∈ s.canvasses, cv.voteArgs.candidateID = cv.me
  calls : ∀ call ∈ s.voteCalls, ∃ cv, s.canvasses[call.canvass]? = some cv ∧
    call.args = cv.voteArgs ∧ call.dst ≠ cv.me
  distinct : (s.voteCalls.map (fun call => (call.canvass, call.dst))).Nodup
  votes : ∀ j cv, s.canvasses[j]? = some cv → ∃ Q : Finset (Fin n), cv.votes ≤ Q.card + 1 ∧
    ∀ q ∈ Q, ∃ call ∈ s.voteCalls, call.canvass = j ∧ call.dst = q ∧ call.Counted

theorem Ballot.me_eq {st st' : Seat n} {args : RequestVoteArgs n} {b : Bool}
    (h : Ballot st args st' b) : st'.me = st.me := by
  cases h <;> rfl

theorem Tally.me_eq {st st' : Seat n} {args : RequestVoteArgs n} {v v' : Nat}
    {reply : RequestVoteReply} (h : Tally st args v reply st' v') : st'.me = st.me := by
  cases h <;> rfl

theorem named_update (hn : ∀ p, (s.seat p).me = p) {p : Fin n} {st : Seat n}
    (hseat : s'.seat = Function.update s.seat p st) (hme : st.me = (s.seat p).me) (q : Fin n) :
    (s'.seat q).me = q := by
  rw [hseat]
  by_cases hq : q = p
  · subst hq
    rw [Function.update_self, hme]
    exact hn q
  · rw [Function.update_of_ne hq]
    exact hn q

/-- A step that only moves one seat. -/
theorem Bookkeeping.of_seat (hb : Bookkeeping s) (hcv : s'.canvasses = s.canvasses)
    (hvc : s'.voteCalls = s.voteCalls) (hn : ∀ p, (s'.seat p).me = p) : Bookkeeping s' where
  named := hn
  cand := by rw [hcv]; exact hb.cand
  calls := by rw [hcv, hvc]; exact hb.calls
  distinct := by rw [hvc]; exact hb.distinct
  votes := by rw [hcv, hvc]; exact hb.votes

theorem Bookkeeping.campaign (hb : Bookkeeping s) {p : Fin n} {ep : Nat}
    {args : RequestVoteArgs n} (hid : args.candidateID = p)
    (hcv : s'.canvasses = s.canvasses ++ [{ me := p, epoch := ep, voteArgs := args, votes := 1 }])
    (hvc : s'.voteCalls = s.voteCalls ++ voteCallsOf s.canvasses.length p args)
    (hn : ∀ p, (s'.seat p).me = p) : Bookkeeping s' := by
  have hrange : ∀ call ∈ s.voteCalls, call.canvass < s.canvasses.length := by
    intro call hcall
    obtain ⟨cv, hget, -⟩ := hb.calls call hcall
    exact Records.lt_length_of_getElem? hget
  constructor
  case named => exact hn
  case cand =>
    rw [hcv]
    exact Records.forall_mem_append_singleton hb.cand hid
  case calls =>
    intro call hcall
    rw [hvc] at hcall
    rw [hcv]
    rcases List.mem_append.mp hcall with hold | hnew
    · rw [List.getElem?_append_left (hrange call hold)]
      exact hb.calls call hold
    · obtain ⟨q, hq, rfl⟩ := List.mem_map.mp hnew
      refine ⟨{ me := p, epoch := ep, voteArgs := args, votes := 1 }, ?_, rfl, ?_⟩
      · simp
      · simpa using (List.mem_filter.mp hq).2
  case distinct =>
    rw [hvc, List.map_append, List.nodup_append]
    refine ⟨hb.distinct, ?_, ?_⟩
    · rw [voteCallsOf, List.map_map]
      refine List.Nodup.map ?_ ((List.nodup_finRange n).filter _)
      intro a b hab
      simpa using hab
    · -- the new calls are for a canvass that had no number before
      rintro _ hold _ hnew rfl
      obtain ⟨call, hcall, hpair⟩ := List.mem_map.mp hold
      obtain ⟨call', hcall', hpair'⟩ := List.mem_map.mp hnew
      obtain ⟨q, -, rfl⟩ := List.mem_map.mp hcall'
      have hlt := hrange call hcall
      have : call.canvass = s.canvasses.length := by
        rw [← hpair'] at hpair
        exact congrArg Prod.fst hpair
      omega
  case votes =>
    intro j cv hj
    rw [hcv] at hj
    rcases Nat.lt_or_ge j s.canvasses.length with hlt | hge
    · rw [List.getElem?_append_left hlt] at hj
      obtain ⟨Q, hQ, hmem⟩ := hb.votes j cv hj
      refine ⟨Q, hQ, fun q hq => ?_⟩
      obtain ⟨call, hcall, h⟩ := hmem q hq
      exact ⟨call, by rw [hvc]; exact List.mem_append_left _ hcall, h⟩
    · refine ⟨∅, ?_, by simp⟩
      rw [List.getElem?_append_right hge] at hj
      have hmem := List.mem_of_getElem? hj
      rw [List.mem_singleton.mp hmem]
      simp

theorem Bookkeeping.answer (hb : Bookkeeping s) {k : Nat} {call : VoteCall n}
    {reply : RequestVoteReply} (hk : s.voteCalls[k]? = some call) (hsent : call.status = .sent)
    (hcv : s'.canvasses = s.canvasses)
    (hvc : s'.voteCalls = s.voteCalls.set k { call with status := .replied reply })
    (hn : ∀ p, (s'.seat p).me = p) : Bookkeeping s' where
  named := hn
  cand := by rw [hcv]; exact hb.cand
  calls := by
    rw [hvc, hcv]
    exact Records.forall_mem_set hb.calls (hb.calls call (List.mem_of_getElem? hk))
  distinct := by
    rw [hvc, Records.map_set_eq hk]
    · exact hb.distinct
    · rfl
  votes := by
    intro j cv hj
    rw [hcv] at hj
    obtain ⟨Q, hQ, hmem⟩ := hb.votes j cv hj
    refine ⟨Q, hQ, fun q hq => ?_⟩
    rw [hvc, Records.exists_mem_set_or hk]
    · exact Or.inl (hmem q hq)
    · rintro ⟨-, -, reply', hdone, -⟩
      rw [hsent] at hdone
      cases hdone

theorem Bookkeeping.tally (hb : Bookkeeping s) {k : Nat} {call : VoteCall n} {cv : Canvass n}
    {reply : RequestVoteReply} {st : Seat n} {votes : Nat}
    (hat : s.voteReplyAt k = some (call, cv, reply))
    (hst : Tally (s.seat cv.me) cv.voteArgs cv.votes reply st votes)
    (hcv : s'.canvasses = s.canvasses.set call.canvass { cv with votes := votes })
    (hvc : s'.voteCalls = s.voteCalls.set k { call with status := .done reply })
    (hn : ∀ p, (s'.seat p).me = p) : Bookkeeping s' := by
  obtain ⟨hk, hrep, hj, -⟩ := voteReplyAt_eq_some hat
  have hcall := List.mem_of_getElem? hk
  -- the reply was not counted before
  have hnot : ∀ j q, ¬ (call.canvass = j ∧ call.dst = q ∧ call.Counted) := by
    rintro j q ⟨-, -, reply', hdone, -⟩
    rw [hrep] at hdone
    cases hdone
  have hold : ∀ j q, (∃ c ∈ s.voteCalls, c.canvass = j ∧ c.dst = q ∧ c.Counted) →
      ∃ c ∈ s'.voteCalls, c.canvass = j ∧ c.dst = q ∧ c.Counted := by
    intro j q h
    rw [hvc, Records.exists_mem_set_or hk (hnot j q)]
    exact Or.inl h
  constructor
  case named => exact hn
  case cand =>
    rw [hcv]
    exact Records.forall_mem_set hb.cand (hb.cand cv (List.mem_of_getElem? hj))
  case calls =>
    rw [hvc, hcv]
    have hkeep : ∀ c ∈ s.voteCalls,
        ∃ cv', (s.canvasses.set call.canvass { cv with votes := votes })[c.canvass]? = some cv' ∧
          c.args = cv'.voteArgs ∧ c.dst ≠ cv'.me := by
      intro c hc
      obtain ⟨cv', hget, hargs, hne⟩ := hb.calls c hc
      by_cases hcc : call.canvass = c.canvass
      · rw [← hcc] at hget ⊢
        obtain rfl : cv = cv' := Option.some.inj (hj.symm.trans hget)
        exact ⟨_, List.getElem?_set_self (Records.lt_length_of_getElem? hj), hargs, hne⟩
      · rw [List.getElem?_set_ne hcc]
        exact ⟨cv', hget, hargs, hne⟩
    exact Records.forall_mem_set hkeep (hkeep call hcall)
  case distinct =>
    rw [hvc, Records.map_set_eq hk]
    · exact hb.distinct
    · rfl
  case votes =>
    intro j cv' hj'
    rw [hcv] at hj'
    rcases Records.getElem?_set_cases hj hj' with ⟨rfl, rfl⟩ | ⟨-, hget⟩
    · obtain ⟨Q, hQ, hmem⟩ := hb.votes call.canvass cv hj
      by_cases hcount : votes = cv.votes + 1 ∧ reply.voteGranted = true
      · -- the destination joins the counted voters; it was not among them
        have hfresh : call.dst ∉ Q := by
          intro hq
          obtain ⟨c, hc, hcj, hcq, reply', hdone, -⟩ := hmem call.dst hq
          have heq : c = call :=
            List.inj_on_of_nodup_map hb.distinct hc hcall (by rw [hcj, hcq])
          rw [heq, hrep] at hdone
          cases hdone
        refine ⟨insert call.dst Q, ?_, ?_⟩
        · rw [Finset.card_insert_of_notMem hfresh]
          simp only
          omega
        · intro q hq
          rcases Finset.mem_insert.mp hq with rfl | hq
          · rw [hvc]
            exact ⟨_, List.mem_set (Records.lt_length_of_getElem? hk) _, rfl, rfl,
              reply, rfl, hcount.2⟩
          · exact hold _ _ (hmem q hq)
      · refine ⟨Q, ?_, fun q hq => hold _ _ (hmem q hq)⟩
        cases hst with
        | ignore => exact hQ
        | depose _ _ => exact hQ
        | win _ _ _ _ => exact hQ
        | count _ hg => exact absurd ⟨rfl, hg⟩ hcount
    · obtain ⟨Q, hQ, hmem⟩ := hb.votes j cv' hget
      exact ⟨Q, hQ, fun q hq => hold j q (hmem q hq)⟩

theorem bookkeeping_init : Bookkeeping (init : Cluster n C D) where
  named := fun _ => rfl
  cand := by intro cv h; cases h
  calls := by intro call h; cases h
  distinct := List.nodup_nil
  votes := by intro j cv h; simp [init] at h

theorem bookkeeping_step {e : Event n C D} (hb : Bookkeeping s) (hcrash : e.isCrash = false)
    (h : s.step e = some s') : Bookkeeping s' := by
  cases step_voting hcrash h with
  | quiet hseat hcv hvc _ => exact hb.of_seat hcv hvc (by rw [hseat]; exact hb.named)
  | campaign p args ht hid hseat hcv hvc _ =>
      exact hb.campaign (hid.trans (hb.named p)) hcv hvc (named_update hb.named hseat rfl)
  | answer k call reply st hat hst hseat hcv hvc _ =>
      obtain ⟨hk, hsent⟩ := voteRequestAt_eq_some hat
      exact hb.answer hk hsent hcv hvc (named_update hb.named hseat hst.me_eq)
  | tally k call cv reply st votes hat hst hseat hcv hvc _ =>
      exact hb.tally hat hst hcv hvc (named_update hb.named hseat hst.me_eq)
  | hear k p l t hle hseat hcv hvc _ =>
      exact hb.of_seat hcv hvc (named_update hb.named hseat rfl)
  | reset k p _ hseat hcv hvc _ => exact hb.of_seat hcv hvc (named_update hb.named hseat rfl)
  | stepDown k p t _ hseat hcv hvc _ =>
      exact hb.of_seat hcv hvc (named_update hb.named hseat rfl)

/-! ## Election safety -/

/-- A step that keeps elections safe: votes are kept, and nobody wins a term with the votes of
another one. -/
def KeepsElections (s : Cluster n C D) (e : Event n C D) : Prop :=
  KeepsVotes s e ∧ ¬ StaleWin s e

instance (s : Cluster n C D) (e : Event n C D) : Decidable (KeepsElections s e) :=
  inferInstanceAs (Decidable (_ ∧ _))

/-- More than half of the peers have voted for `p` in term `t`. -/
def Majority (s : Cluster n C D) (p : Fin n) (t : Nat) : Prop :=
  ∃ Q : Finset (Fin n), n / 2 + 1 ≤ Q.card ∧ ∀ q ∈ Q, s.Cast q t p

/-- Two majorities of one term are for the same peer. -/
theorem Majority.unique (hv : VoteInv s) {p p' : Fin n} {t : Nat} (h : s.Majority p t)
    (h' : s.Majority p' t) : p = p' := by
  obtain ⟨Q, hQ, hcast⟩ := h
  obtain ⟨Q', hQ', hcast'⟩ := h'
  have hcard : (Finset.univ : Finset (Fin n)).card < Q.card + Q'.card := by
    rw [Finset.card_univ, Fintype.card_fin]
    omega
  obtain ⟨q, hq⟩ := Finset.inter_nonempty_of_card_lt_card_add_card
    (Finset.subset_univ Q) (Finset.subset_univ Q') hcard
  obtain ⟨hq, hq'⟩ := Finset.mem_inter.mp hq
  exact hv.unique q t p p' (hcast q hq) (hcast' q hq')

theorem Majority.mono {p : Fin n} {t : Nat} (h : s.Majority p t)
    (hcast : ∀ q t c, s.Cast q t c → s'.Cast q t c) : s'.Majority p t := by
  obtain ⟨Q, hQ, hmem⟩ := h
  exact ⟨Q, hQ, fun q hq => hcast q t p (hmem q hq)⟩

/-- The last missing vote completes a majority for the term of the election. -/
theorem Bookkeeping.majority_of_win (hb : Bookkeeping s) {k : Nat} {call : VoteCall n}
    {cv : Canvass n} {reply : RequestVoteReply}
    (hat : s.voteReplyAt k = some (call, cv, reply)) (hg : reply.voteGranted = true)
    (hv : cv.votes = n / 2) : s.Majority cv.me cv.voteArgs.term := by
  obtain ⟨hk, hrep, hj, -⟩ := voteReplyAt_eq_some hat
  have hcall := List.mem_of_getElem? hk
  obtain ⟨Q, hQ, hmem⟩ := hb.votes call.canvass cv hj
  have hcand := hb.cand cv (List.mem_of_getElem? hj)
  obtain ⟨cv', hget, hargs, hne⟩ := hb.calls call hcall
  obtain rfl : cv = cv' := Option.some.inj (hj.symm.trans hget)
  -- the candidate itself, the sender of this reply and the voters counted so far are distinct
  have hdst : call.dst ∉ Q := by
    intro hq
    obtain ⟨c, hc, hcj, hcq, reply', hdone, -⟩ := hmem call.dst hq
    have heq : c = call := List.inj_on_of_nodup_map hb.distinct hc hcall (by rw [hcj, hcq])
    rw [heq, hrep] at hdone
    cases hdone
  have hme : cv.me ∉ insert call.dst Q := by
    intro hq
    rcases Finset.mem_insert.mp hq with heq | hq
    · exact hne heq.symm
    · obtain ⟨c, hc, hcj, hcq, -⟩ := hmem cv.me hq
      obtain ⟨cv', hget', -, hne'⟩ := hb.calls c hc
      rw [hcj] at hget'
      obtain rfl : cv = cv' := Option.some.inj (hj.symm.trans hget')
      exact hne' hcq
  refine ⟨insert cv.me (insert call.dst Q), ?_, ?_⟩
  · rw [Finset.card_insert_of_notMem hme, Finset.card_insert_of_notMem hdst]
    omega
  · intro q hq
    rcases Finset.mem_insert.mp hq with rfl | hq
    · exact Or.inl ⟨cv, List.mem_of_getElem? hj, rfl, rfl, rfl⟩
    · rcases Finset.mem_insert.mp hq with rfl | hq
      · refine Or.inr ⟨call, hcall, rfl, by rw [hargs], by rw [hargs, hcand], ?_⟩
        simp [VoteCall.granted, hrep, CallStatus.answer?, hg]
      · obtain ⟨c, hc, hcj, rfl, reply', hdone, hg'⟩ := hmem q hq
        obtain ⟨cv', hget', hargs', -⟩ := hb.calls c hc
        rw [hcj] at hget'
        obtain rfl : cv = cv' := Option.some.inj (hj.symm.trans hget')
        refine Or.inr ⟨c, hc, rfl, by rw [hargs'], by rw [hargs', hcand], ?_⟩
        simp [VoteCall.granted, hdone, CallStatus.answer?, hg']

/-- Every win is backed by a majority of votes, and every leader has won its term. -/
structure ElectionInv (s : Cluster n C D) : Prop where
  book : Bookkeeping s
  vote : VoteInv s
  wins : ∀ w ∈ s.wins, s.Majority w.1 w.2
  leader : ∀ p, (s.seat p).state = .leader → (p, (s.seat p).currentTerm) ∈ s.wins

/-- A step after which everyone who leads did so before, in the same term. -/
theorem ElectionInv.of_noWin (hinv : ElectionInv s) (hb : Bookkeeping s') (hv : VoteInv s')
    (hcast : ∀ q t c, s.Cast q t c → s'.Cast q t c) (hw : s'.wins = s.wins)
    (hl : ∀ p, (s'.seat p).state = .leader →
      (s.seat p).state = .leader ∧ (s'.seat p).currentTerm = (s.seat p).currentTerm) :
    ElectionInv s' where
  book := hb
  vote := hv
  wins := by
    rw [hw]
    exact fun w hmem => (hinv.wins w hmem).mono hcast
  leader := by
    intro p hp
    obtain ⟨hp', ht⟩ := hl p hp
    rw [hw, ht]
    exact hinv.leader p hp'

/-- A step in which `p` wins its current term. -/
theorem ElectionInv.of_win (hinv : ElectionInv s) (hb : Bookkeeping s') (hv : VoteInv s')
    (hcast : ∀ q t c, s.Cast q t c → s'.Cast q t c) {p : Fin n}
    (hmaj : s.Majority p (s.seat p).currentTerm)
    (hw : s'.wins = s.wins ++ [(p, (s.seat p).currentTerm)])
    (hseat : s'.seat = Function.update s.seat p { s.seat p with state := .leader }) :
    ElectionInv s' where
  book := hb
  vote := hv
  wins := by
    rw [hw]
    exact Records.forall_mem_append_singleton
      (fun w hmem => (hinv.wins w hmem).mono hcast) (hmaj.mono hcast)
  leader := by
    rw [hseat, hw]
    exact (Function.forall_update_iff s.seat
      (p := fun q st => st.state = .leader → (q, st.currentTerm) ∈ s.wins ++ [_])).mpr
        ⟨fun _ => List.mem_append_right _ (List.mem_singleton.mpr rfl),
          fun q _ hq => List.mem_append_left _ (hinv.leader q hq)⟩

/-- The side condition of `ElectionInv.of_noWin` for a step that moves one seat. -/
theorem leader_update {f : Fin n → Seat n} {p : Fin n} {st : Seat n}
    (h : st.state = .leader → (f p).state = .leader ∧ st.currentTerm = (f p).currentTerm)
    (q : Fin n) (hq : (Function.update f p st q).state = .leader) :
    (f q).state = .leader ∧ (Function.update f p st q).currentTerm = (f q).currentTerm := by
  by_cases hqp : q = p
  · subst hqp
    rw [Function.update_self] at hq ⊢
    exact h hq
  · rw [Function.update_of_ne hqp] at hq ⊢
    exact ⟨hq, rfl⟩

theorem electionInv_init : ElectionInv (init : Cluster n C D) where
  book := bookkeeping_init
  vote := voteInv_init
  wins := by intro w h; cases h
  leader := by intro p h; cases h

theorem electionInv_step {e : Event n C D} (hinv : ElectionInv s) (hok : KeepsElections s e)
    (h : s.step e = some s') : ElectionInv s' := by
  have hb : Bookkeeping s' := bookkeeping_step hinv.book hok.1.1 h
  have hv : VoteInv s' := voteInv_step hinv.vote hok.1 h
  cases step_voting hok.1.1 h with
  | quiet hseat hcv hvc hw =>
      refine hinv.of_noWin hb hv (fun q t c => (cast_congr hcv hvc).mpr) hw ?_
      rw [hseat]
      exact fun p hp => ⟨hp, rfl⟩
  | campaign p args ht hid hseat hcv hvc hw =>
      refine hinv.of_noWin hb hv (fun q t c h => (cast_campaign hcv hvc).mpr (Or.inl h)) hw ?_
      rw [hseat]
      exact leader_update (fun hl => by cases hl)
  | answer k call reply st hat hst hseat hcv hvc hw =>
      obtain ⟨hk, hsent⟩ := voteRequestAt_eq_some hat
      refine hinv.of_noWin hb hv
        (fun q t c h => (cast_answer hk hsent hcv hvc).mpr (Or.inl h)) hw ?_
      rw [hseat]
      refine leader_update (fun hl => ?_)
      generalize reply.voteGranted = g at hst
      cases hst with
      | stale _ => exact ⟨hl, rfl⟩
      | grant _ => cases hl
      | adopt _ => cases hl
      | refuse _ => exact ⟨hl, rfl⟩
  | tally k call cv reply st votes hat hst hseat hcv hvc hw =>
      obtain ⟨hk, hrep, hj, -⟩ := voteReplyAt_eq_some hat
      have hcast := fun q t c => cast_tally (q := q) (t := t) (c := c) hk hrep hj hcv hvc
      by_cases hwin : (s.seat cv.me).state ≠ .leader ∧ st.state = .leader
      · rw [if_pos hwin] at hw
        cases hst with
        | ignore => exact absurd hwin.2 hwin.1
        | count _ _ => exact absurd hwin.2 hwin.1
        | depose _ _ => cases hwin.2
        | win hc hle hg hvotes =>
            -- the canvass is of the term in which its candidate still stands
            have hterm : cv.voteArgs.term = (s.seat cv.me).currentTerm := by
              by_contra hne
              exact hok.2 ⟨(call, cv, reply), hat, hc, hle, hg, hvotes, hne⟩
            -- every vote it counts was cast by another peer, and its own by itself
            have hmaj := hinv.book.majority_of_win hat hg hvotes
            rw [hterm] at hmaj
            exact hinv.of_win hb hv (fun q t c => (hcast q t c).mpr) hmaj hw hseat
      · rw [if_neg hwin] at hw
        refine hinv.of_noWin hb hv (fun q t c => (hcast q t c).mpr) hw ?_
        rw [hseat]
        refine leader_update (fun hl => ?_)
        have hlead : (s.seat cv.me).state = .leader := by
          by_contra hne
          exact hwin ⟨hne, hl⟩
        cases hst with
        | ignore => exact ⟨hlead, rfl⟩
        | count _ _ => exact ⟨hlead, rfl⟩
        | depose _ _ => cases hl
        | win _ _ _ _ => exact ⟨hlead, rfl⟩
  | hear k p l t hle hseat hcv hvc hw =>
      refine hinv.of_noWin hb hv (fun q t c => (cast_congr hcv hvc).mpr) hw ?_
      rw [hseat]
      refine leader_update (fun hl => ?_)
      -- a leader that hears from another one steps down
      simp only at hl
      split at hl
      · cases hl
      · rename_i hne
        exact absurd hl hne
  | reset k p hbad _ _ _ _ => exact absurd hbad hok.1.2.2
  | stepDown k p t hlt hseat hcv hvc hw =>
      refine hinv.of_noWin hb hv (fun q t c => (cast_congr hcv hvc).mpr) hw ?_
      rw [hseat]
      exact leader_update (fun hl => by cases hl)

theorem wins_subset_run {es : List (Event n C D)} (hr : Machine.run step s es = some s') :
    s.wins ⊆ s'.wins :=
  Machine.run_mono (R := fun s s' => s.wins ⊆ s'.wins) (fun _ => List.Subset.refl _)
    (fun _ _ _ => List.Subset.trans) (fun _ _ _ h => (wins_step h).subset) hr

/-- **Election safety**, over a whole run: peers that lead the same term, at whatever two
moments of the run, are the same peer. -/
theorem leader_unique {es es' : List (Event n C D)} {s₁ s₂ : Cluster n C D}
    (hok : Machine.Along step KeepsElections init (es ++ es'))
    (h₁ : runFrom es = some s₁) (h₂ : Machine.run step s₁ es' = some s₂) (p q : Fin n)
    (hp : (s₁.peers p).state = .leader) (hq : (s₂.peers q).state = .leader)
    (ht : (s₁.peers p).currentTerm = (s₂.peers q).currentTerm) : p = q := by
  obtain ⟨hok₁, hok₂⟩ := Machine.along_append hok h₁
  have hinv₁ : ElectionInv s₁ :=
    Machine.run_induction (fun _ _ _ hi hk hs => electionInv_step hi hk hs)
      electionInv_init hok₁ h₁
  have hinv₂ : ElectionInv s₂ :=
    Machine.run_induction (fun _ _ _ hi hk hs => electionInv_step hi hk hs) hinv₁ hok₂ h₂
  have hwin₁ : (p, (s₁.peers p).currentTerm) ∈ s₂.wins :=
    wins_subset_run h₂ (hinv₁.leader p hp)
  have hwin₂ : (q, (s₂.peers q).currentTerm) ∈ s₂.wins := hinv₂.leader q hq
  rw [ht] at hwin₁
  exact (hinv₂.wins _ hwin₁).unique hinv₂.vote (hinv₂.wins _ hwin₂)

theorem leader_unique_oneElection :
    Machine.Along step KeepsElections init (oneElection ++ []) ∧
      ∃ s, runFrom oneElection = some s ∧ (s.peers 0).state = .leader ∧
        ∀ q, (s.peers q).state = .leader →
          (s.peers 0).currentTerm = (s.peers q).currentTerm → 0 = q := by
  have hok : Machine.Along step KeepsElections init (oneElection ++ []) := by decide
  have hrun : (runFrom oneElection).any (fun s => (s.peers 0).state = .leader) = true := by decide
  obtain ⟨s, hs, hlead⟩ := (Option.any_eq_true _ _).mp hrun
  have hlead : (s.peers 0).state = .leader := of_decide_eq_true hlead
  exact ⟨hok, s, hs, hlead, fun q hq ht => leader_unique hok hs rfl 0 q hlead hq ht⟩

/-! ## The laws fail on the excluded branches -/

/-- Peers `0` and `1` both campaign in term 1; `0` leads it with the vote of `2`. Peer `2`
then moves to term 2 and refuses a heartbeat of `0`, which steps down and forgets its vote. -/
def doubleVote : List (Event 3 Nat Unit) :=
  [.canvassVotes 0, .canvassVotes 1, .requestVote 1, .voteReply 1, .canvassVotes 2,
    .consistencyCheck 0 2, .appendEntries 0, .appendReply 0, .requestVote 2]

/-- One vote per term fails without `VoteReset` excluded: peer `0` votes for itself and for
peer `1` in term 1. -/
theorem two_votes_in_one_term :
    ¬ ∀ (es : List (Event 3 Nat Unit)) (s : Cluster 3 Nat Unit),
      (∀ e ∈ es, e.isCrash = false) → runFrom es = some s →
      ∀ q t, { c | s.Cast q t c }.Subsingleton := by
  intro hall
  have hrun : (runFrom doubleVote).any (fun s => s.Cast 0 1 0 ∧ s.Cast 0 1 1) = true := by decide
  obtain ⟨s, hs, hcast⟩ := (Option.any_eq_true _ _).mp hrun
  have hcast : s.Cast 0 1 0 ∧ s.Cast 0 1 1 := of_decide_eq_true hcast
  exact absurd (hall doubleVote s (by decide) hs 0 1 hcast.1 hcast.2) (by decide)

/-- Peer `1` votes for `0` in term 1 and for `2`, which campaigns twice, in term 2; `2` leads
term 2 and its heartbeat takes the candidate `0` to term 2. Only then the vote of term 1
arrives, and makes `0` leader of term 2. -/
def twoLeaders : List (Event 3 Nat Unit) :=
  [.canvassVotes 0, .requestVote 0, .canvassVotes 2, .canvassVotes 2, .requestVote 5,
    .voteReply 5, .consistencyCheck 2 0, .appendEntries 0, .voteReply 0]

/-- Election safety fails without `StaleWin` excluded: peers `0` and `2` both lead term 2. -/
theorem two_leaders_in_one_term :
    ¬ ∀ (es es' : List (Event 3 Nat Unit)) (s₁ s₂ : Cluster 3 Nat Unit),
      (∀ e ∈ es ++ es', e.isCrash = false) →
      runFrom es = some s₁ → Machine.run step s₁ es' = some s₂ →
      ∀ p q, (s₁.peers p).state = .leader → (s₂.peers q).state = .leader →
        (s₁.peers p).currentTerm = (s₂.peers q).currentTerm → p = q := by
  intro hall
  have hrun : (runFrom twoLeaders).any (fun s => (s.peers 0).state = .leader ∧
      (s.peers 2).state = .leader ∧ (s.peers 0).currentTerm = (s.peers 2).currentTerm) = true := by
    decide
  obtain ⟨s, hs, hlead⟩ := (Option.any_eq_true _ _).mp hrun
  obtain ⟨h0, h2, ht⟩ := of_decide_eq_true hlead
  exact absurd (hall twoLeaders [] s s (by decide) hs rfl 0 2 h0 h2 ht) (by decide)

end Cluster

end RaftLab
