import RaftLab.Cluster.Catchup
import RaftLab.KV.Stack

set_option autoImplicit false

/-! # Every call of a clerk can return

The loops of `Clerk.Get` and `Clerk.PutAppend` never give up. Here the whole service is shown to
meet them: from every state of a run on which the cluster keeps a ledger, a call that is in progress
can return, with no help of other clerks. Some server is elected; the clerk goes round the servers
until it asks this one; the request is answered from the duplicate table, or its entry is committed
and consumed, which closes the channel of the handler; and the reply reaches the clerk.

An operation that `applyDaemon` does not know makes it panic on every server. `Clerk.Put` and
`Clerk.Append` pass no such operation.
-/

namespace RaftLab

/-- Whether `applyDaemon` knows the operation. -/
def OpName.isKnown : OpName → Bool
  | .other _ => false
  | _ => true

def ClerkCall.isKnown : ClerkCall → Bool
  | .get _ => true
  | .putAppend _ _ op => op.isKnown

/-- Whether a call that begins with the event is one of a known operation. -/
def StackEvent.isKnown {ns nc : Nat} : StackEvent ns nc → Bool
  | .act (.begin _ call) => call.isKnown
  | _ => true

theorem Clerk.request_isKnown (ck : Clerk) (call : ClerkCall) :
    (ck.request call).cmd.op.isKnown = call.isKnown := by
  cases call <;> rfl

namespace Tables

theorem exists_applyOp (t : Tables) {cmd : Op} (h : cmd.op.isKnown = true) :
    ∃ t', t.applyOp cmd = some t' := by
  unfold applyOp
  split
  · unfold execute
    cases hop : cmd.op with
    | get => exact ⟨_, rfl⟩
    | put => exact ⟨_, rfl⟩
    | append => exact ⟨_, rfl⟩
    | other name =>
        rw [hop] at h
        cases h
  · exact ⟨t, rfl⟩

end Tables

/-- What has been sent on `applyCh` is not taken back. -/
theorem Cluster.applied_step {n : Nat} {C D : Type} {s s' : Cluster n C D} {e : Event n C D}
    (h : s.step e = some s') (q : Fin n) : s.applied q <+: s'.applied q := by
  have hset : ∀ (p : Fin n) (more : List (ApplyMsg C D)),
      s.applied q <+: Function.update s.applied p (s.applied p ++ more) q := fun p more =>
    (Function.forall_update_iff s.applied fun q l => s.applied q <+: l).mpr
      ⟨List.prefix_append _ _, fun _ _ => List.prefix_refl _⟩ q
  cases e with
  | canvassVotes p =>
      obtain ⟨rf, args, -, rfl⟩ := stepCanvassVotes_eq_some h
      exact List.prefix_refl _
  | requestVote k =>
      obtain ⟨call, rf, reply, -, -, rfl⟩ := stepRequestVote_eq_some h
      exact List.prefix_refl _
  | voteReply k =>
      obtain ⟨call, cv, reply, rf, votes, -, -, rfl⟩ := stepVoteReply_eq_some h
      exact List.prefix_refl _
  | start p command =>
      obtain rfl := Option.some.inj h
      exact List.prefix_refl _
  | consistencyCheck p i =>
      obtain ⟨out, -, -, rfl⟩ := stepConsistencyCheck_eq_some h
      rw [send_applied]
  | appendEntries k =>
      obtain ⟨call, rf, reply, -, -, rfl⟩ := stepAppendEntries_eq_some h
      exact List.prefix_refl _
  | appendReply k =>
      obtain ⟨call, reply, rf, out, -, -, rfl⟩ := stepAppendReply_eq_some h
      rw [send_applied]
      exact List.prefix_refl _
  | installSnapshot k =>
      obtain ⟨call, rf, reply, msg, -, -, rfl⟩ := stepInstallSnapshot_eq_some h
      exact hset call.dst msg.toList
  | snapshotReply k =>
      obtain ⟨call, reply, -, rfl⟩ := stepSnapshotReply_eq_some h
      exact List.prefix_refl _
  | newSnapShot p data index =>
      obtain ⟨rf, -, rfl⟩ := stepNewSnapShot_eq_some h
      exact List.prefix_refl _
  | applyTake p spare =>
      obtain ⟨rf, msgs, -, -, rfl⟩ := stepApplyTake_eq_some h
      exact List.prefix_refl _
  | applySend p =>
      obtain ⟨msg, rest, -, rfl⟩ := stepApplySend_eq_some h
      exact hset p [msg]
  | crash p =>
      obtain rfl := Option.some.inj h
      exact List.prefix_refl _

namespace Stack

variable {ns nc : Nat} {s s' : Stack ns nc} {c : Fin nc} {p : Fin ns} {k : Nat}

/-! ## What all states have -/

/-- All commands, requests and calls are of known operations. -/
structure Known (s : Stack ns nc) : Prop where
  started : ∀ op ∈ s.started, op.op.isKnown = true
  calls : ∀ call ∈ s.calls, call.request.cmd.op.isKnown = true
  pending : ∀ c, ∀ pd ∈ (s.clients c).pending, pd.call.isKnown = true

theorem known_act {e : SystemEvent ns nc} (h : s.Known)
    (hknown : (StackEvent.act e : StackEvent ns nc).isKnown = true)
    (hs : s.stepAct e = some s') : s'.Known := by
  obtain ⟨hlocal, t, ht, rfl⟩ := stepAct_eq_some hs
  have hstarted := (local_step hlocal ht).2.1
  have hpend : ∀ {cl : Client} {c : Fin nc}, (∀ pd ∈ cl.pending, pd.call.isKnown = true) →
      ∀ d, ∀ pd ∈ (Function.update s.clients c cl d).pending, pd.call.isKnown = true := by
    intro cl c hcl
    exact (Function.forall_update_iff s.clients
      fun _ cl => ∀ pd ∈ cl.pending, pd.call.isKnown = true).mpr ⟨hcl, fun d _ => h.pending d⟩
  suffices hrest : (∀ call ∈ t.calls, call.request.cmd.op.isKnown = true) ∧
      ∀ c, ∀ pd ∈ (t.clients c).pending, pd.call.isKnown = true by
    refine ⟨?_, hrest.1, hrest.2⟩
    show ∀ op ∈ t.started, _
    rw [hstarted]
    exact h.started
  cases e with
  | commit command => cases hlocal
  | roleChange p term leader => cases hlocal
  | deliver p size => cases hlocal
  | enter k index => cases hlocal
  | check k =>
      obtain ⟨call, hd, hcall, -, -, rfl⟩ := System.stepCheck_eq_some ht
      exact ⟨Records.forall_mem_set h.calls (h.calls call (List.mem_of_getElem? hcall)), h.pending⟩
  | wake k =>
      obtain ⟨call, i, tm, hcall, -, -, rfl⟩ := System.stepWake_eq_some ht
      exact ⟨Records.forall_mem_set h.calls (h.calls call (List.mem_of_getElem? hcall)), h.pending⟩
  | read k =>
      obtain ⟨call, args, hcall, -, -, rfl⟩ := System.stepRead_eq_some ht
      exact ⟨Records.forall_mem_set h.calls (h.calls call (List.mem_of_getElem? hcall)), h.pending⟩
  | begin c call =>
      obtain ⟨-, rfl⟩ := System.stepBegin_eq_some ht
      refine ⟨h.calls, hpend ?_⟩
      rintro pd ⟨⟩
      exact hknown
  | send c =>
      obtain ⟨pd, dst, hpd, rfl⟩ := System.stepSend_eq_some ht
      have hcall : pd.call.isKnown = true := h.pending c pd hpd
      refine ⟨Records.forall_mem_append_singleton h.calls ?_, hpend ?_⟩
      · show ((s.clients c).clerk.request pd.call).cmd.op.isKnown = true
        rw [Clerk.request_isKnown]
        exact hcall
      · rintro pd' ⟨⟩
        exact hcall
  | giveUp c =>
      obtain ⟨pd, hpd, rfl⟩ := System.stepGiveUp_eq_some ht
      refine ⟨h.calls, hpend ?_⟩
      rintro pd' ⟨⟩
      exact h.pending c pd hpd
  | done c =>
      obtain ⟨pd, k, call, reply, hpd, -, -, -, ⟨value, -, rfl⟩ | rfl⟩ :=
        System.stepDone_eq_some ht
      · refine ⟨h.calls, hpend ?_⟩
        rintro pd' ⟨⟩
      · refine ⟨h.calls, hpend ?_⟩
        rintro pd' ⟨⟩
        exact h.pending c pd hpd

/-- What all states have of the runs on which the cluster keeps a ledger. -/
structure Well (s : Stack ns nc) : Prop where
  inv : s.Inv
  rooted : ∀ p, (s.peer p).logs[0]? = some .placeholder
  consumed : ∀ p, s.consumed p ≤ (s.cluster.applied p).length
  known : s.Known

theorem Well.healthy (h : s.Well) : s.cluster.Healthy := by
  obtain ⟨a, hgr⟩ := h.inv.2
  exact ⟨⟨a, hgr.ledger⟩, hgr.orderly, h.rooted⟩

/-- The condition on the steps of a run. -/
def Allowed (s : Stack ns nc) (e : StackEvent ns nc) : Prop := s.RaftSafe e ∧ e.isKnown = true

instance (s : Stack ns nc) (e : StackEvent ns nc) : Decidable (s.Allowed e) :=
  inferInstanceAs (Decidable (_ ∧ _))

theorem well_step {e : StackEvent ns nc} (h : s.Well) (hok : s.Allowed e)
    (hs : s.step e = some s') : s'.Well := by
  obtain ⟨a, hgr⟩ := h.inv.2
  obtain ⟨a', hgr', hseen⟩ := grounded_step hgr h.inv.1 hok.1 hs
  have hinv := inv_of_seen h.inv ⟨a', hgr'⟩ hseen
  cases e with
  | raft e =>
      obtain ⟨-, cluster, hc, rfl⟩ := stepRaft_eq_some hs
      refine ⟨hinv, Cluster.rooted_step hgr.ledger h.rooted hok.1 hc, fun p => ?_,
        h.known.started, h.known.calls, h.known.pending⟩
      exact Nat.le_trans (h.consumed p) (Cluster.applied_step hc p).length_le
  | apply p size =>
      obtain ⟨msg, hmsg, -⟩ := Option.bind_eq_some_iff.mp hs
      obtain ⟨-, -, hplain, hidx⟩ := hgr.next_message hmsg
      obtain ⟨kv, ch, -, -, rfl⟩ := stepApply_eq_some (hgr.maxraftstate p) hmsg hplain hidx hs
      refine ⟨hinv, h.rooted, ?_, h.known.started, h.known.calls, h.known.pending⟩
      exact (Function.forall_update_iff s.consumed
        fun q m => m ≤ (s.cluster.applied q).length).mpr
          ⟨Records.lt_length_of_getElem? hmsg, fun q _ => h.consumed q⟩
  | enter k =>
      obtain ⟨call, hcall, -, ⟨reply, -, rfl⟩ | ⟨-, rf, index, term, isLeader, hstart, rfl⟩⟩ :=
        stepEnter_eq_some hs
      · have hreq := h.known.calls call (List.mem_of_getElem? hcall)
        exact ⟨hinv, h.rooted, h.consumed, h.known.started,
          Records.forall_mem_set h.known.calls hreq, h.known.pending⟩
      · have hreq := h.known.calls call (List.mem_of_getElem? hcall)
        have hrf : rf = ((s.peer call.dst).start (some call.request.cmd)).1 := by rw [hstart]
        refine ⟨hinv, ?_, h.consumed, ?_, Records.forall_mem_set h.known.calls hreq,
          h.known.pending⟩
        · refine Cluster.rooted_step hgr.ledger h.rooted
            (Cluster.keepsLedger_start s.cluster call.dst (some call.request.cmd)) ?_
          rw [hrf]
          rfl
        · intro op hop
          rcases List.mem_append.mp hop with hold | hnew
          · exact h.known.started op hold
          · split at hnew
            · rw [List.mem_singleton.mp hnew]
              exact hreq
            · cases hnew
  | act e =>
      have hknown := known_act h.known hok.2 hs
      obtain ⟨-, t, -, rfl⟩ := stepAct_eq_some hs
      exact ⟨hinv, h.rooted, h.consumed, hknown⟩

theorem well_init {ids : Fin nc → Int} (hids : Function.Injective ids) {maxraftstate : Int}
    (hmax : maxraftstate < 0) : (init ids maxraftstate : Stack ns nc).Well := by
  refine ⟨inv_start hids hmax, fun _ => rfl, fun _ => Nat.le_refl _, ?_, ?_, ?_⟩
  · exact fun op hop => by cases hop
  · exact fun call hcall => by cases hcall
  · exact fun c pd hpd => by cases hpd

/-- Allowed steps can take `s` to `s'`. -/
abbrev Goes (s s' : Stack ns nc) : Prop := Machine.Leads step Allowed s s'

theorem Well.goes (h : s.Well) (hg : Goes s s') : s'.Well :=
  hg.induction (fun _ _ _ h hok hs => well_step h hok hs) h

/-- What the peers can do among themselves they can do below the service. -/
theorem goes_of_reaches (s : Stack ns nc) {cluster : Cluster ns Op KVSnapshot}
    (h : s.cluster.Reaches cluster) : Goes s { s with cluster := cluster } := by
  obtain ⟨es, hok, hr⟩ := h
  induction es generalizing s with
  | nil =>
      obtain rfl : s.cluster = cluster := by simpa using hr
      exact .refl _ s
  | cons e es ih =>
      obtain ⟨d, hd, hrest⟩ := Machine.run_cons hr
      have hready : s.ready e = true := by
        have hprotocol := hok.1.2
        cases e <;> first | rfl | cases hprotocol
      have hstep : s.step (.raft e) = some { s with cluster := d } := by
        show s.stepRaft e = _
        simp only [stepRaft, hready, hd, Option.bind_eq_bind]
        rfl
      exact .trans (.single (e := .raft e) ⟨hok.1.1, rfl⟩ hstep)
        (ih { s with cluster := d } (hok.2 d hd) hrest)

/-! ## The clerk asks the leader -/

/-- The clerk `c` is in a call with the request `r` and has no remote call out. -/
def Between (s : Stack ns nc) (c : Fin nc) (r : Request) : Prop :=
  ∃ pd, (s.clients c).pending = some pd ∧ pd.rpc = none ∧ (s.clients c).clerk.request pd.call = r

/-- The clerk `c` waits for its remote call `k` with the request `r` to server `p`, whose handler
is at `hd`. -/
structure Asked (s : Stack ns nc) (c : Fin nc) (k : Nat) (p : Fin ns) (r : Request)
    (hd : Handler) : Prop where
  pending : ∃ pd, (s.clients c).pending = some pd ∧ pd.rpc = some k ∧
    (s.clients c).clerk.request pd.call = r
  call : s.calls[k]? = some { dst := p, request := r, handler := hd }

theorem step_giveUp {pd : Pending} (hpd : (s.clients c).pending = some pd)
    (hrpc : pd.rpc.isSome = true) :
    s.step (.act (.giveUp c)) = some { s with
      clients := Function.update s.clients c
        { clerk := (s.clients c).clerk.nextLeader, pending := some { pd with rpc := none } } } := by
  have hpd : (s.view.clients c).pending = some pd := hpd
  show s.stepAct (.giveUp c) = _
  simp only [stepAct, System.step, System.stepGiveUp, hpd, hrpc, Option.bind_eq_bind,
    Option.bind_some]
  rfl

theorem step_send {pd : Pending} (hpd : (s.clients c).pending = some pd) (hrpc : pd.rpc = none)
    (hp : (s.clients c).clerk.leader % ns = p) :
    s.step (.act (.send c)) = some { s with
      clients := Function.update s.clients c
        { clerk := (s.clients c).clerk.choose ns
          pending := some { pd with rpc := some s.calls.length } }
      calls := s.calls ++ [{ dst := p
                             request := (s.clients c).clerk.request pd.call
                             handler := .sent }] } := by
  have hpd : (s.view.clients c).pending = some pd := hpd
  have hlt : ((s.view.clients c).clerk.choose ns).leader < ns := by
    show (s.clients c).clerk.leader % ns < ns
    rw [hp]
    exact p.isLt
  show s.stepAct (.send c) = _
  simp only [stepAct, System.step, System.stepSend, hpd, hrpc, Option.bind_eq_bind,
    Option.bind_some, hlt, dite_true]
  have hdst : (⟨((s.view.clients c).clerk.choose ns).leader, hlt⟩ : Fin ns) = p := Fin.ext hp
  rw [hdst, Clerk.request_choose]
  rfl

/-- The clerk asks a server and gives up. -/
theorem exists_turn {r : Request} (hn : 0 < ns) (h : s.Between c r) :
    ∃ s', Goes s s' ∧ s'.Between c r ∧ s'.cluster = s.cluster ∧ s'.returned = s.returned ∧
      (s'.clients c).clerk.leader = (s.clients c).clerk.leader % ns + 1 := by
  obtain ⟨pd, hpd, hrpc, hr⟩ := h
  have hsend := step_send (p := ⟨_, Nat.mod_lt (s.clients c).clerk.leader hn⟩) hpd hrpc rfl
  generalize hs₁ : ({ s with clients := _, calls := _ } : Stack ns nc) = s₁ at hsend
  have hcl : s₁.clients c =
      { clerk := (s.clients c).clerk.choose ns
        pending := some { pd with rpc := some s.calls.length } } := by
    rw [← hs₁]
    exact Function.update_self ..
  have hgive := step_giveUp (s := s₁) (c := c) (by rw [hcl]) rfl
  refine ⟨_, .trans (.single (e := .act (.send c)) ⟨trivial, rfl⟩ hsend)
    (.single (e := .act (.giveUp c)) ⟨trivial, rfl⟩ hgive), ?_, ?_, ?_, ?_⟩
  · refine ⟨{ pd with rpc := none }, ?_, rfl, ?_⟩
    · show (Function.update s₁.clients c _ c).pending = _
      rw [Function.update_self]
    · show (Function.update s₁.clients c _ c).clerk.request pd.call = r
      rw [Function.update_self, hcl]
      show (((s.clients c).clerk.choose ns).nextLeader).request pd.call = r
      rw [Clerk.request_nextLeader, Clerk.request_choose, hr]
  · rw [← hs₁]
  · rw [← hs₁]
  · show (Function.update s₁.clients c _ c).clerk.leader = _
    rw [Function.update_self, hcl]
    rfl

/-- The clerk goes round the servers. -/
theorem exists_turns {r : Request} (hn : 0 < ns) (h : s.Between c r) (m : Nat) :
    ∃ s', Goes s s' ∧ s'.Between c r ∧ s'.cluster = s.cluster ∧ s'.returned = s.returned ∧
      (s'.clients c).clerk.leader ≡ (s.clients c).clerk.leader + m [MOD ns] := by
  induction m with
  | zero => exact ⟨s, .refl _ s, h, rfl, rfl, Nat.ModEq.refl _⟩
  | succ m ih =>
      obtain ⟨s₁, hg₁, hb₁, hc₁, hret₁, hlead₁⟩ := ih
      obtain ⟨s₂, hg₂, hb₂, hc₂, hret₂, hlead₂⟩ := exists_turn hn hb₁
      refine ⟨s₂, hg₁.trans hg₂, hb₂, hc₂.trans hc₁, hret₂.trans hret₁, ?_⟩
      rw [hlead₂]
      exact ((Nat.mod_modEq _ _).trans hlead₁).add_right 1

/-- Sooner or later the clerk asks server `p`. -/
theorem exists_ask {r : Request} (h : s.Between c r) (p : Fin ns) :
    ∃ s' k, Goes s s' ∧ s'.Asked c k p r .sent ∧ s'.cluster = s.cluster ∧
      s'.returned = s.returned := by
  obtain ⟨s₁, hg₁, ⟨pd, hpd, hrpc, hr⟩, hc₁, hret₁, hlead⟩ :=
    exists_turns p.pos h (ns - (s.clients c).clerk.leader % ns + p)
  have hp : (s₁.clients c).clerk.leader % ns = p := by
    have hlt := Nat.mod_lt (s.clients c).clerk.leader p.pos
    have hsum : (s.clients c).clerk.leader + (ns - (s.clients c).clerk.leader % ns + p)
        ≡ p [MOD ns] := by
      calc (s.clients c).clerk.leader + (ns - (s.clients c).clerk.leader % ns + p)
          ≡ (s.clients c).clerk.leader % ns + (ns - (s.clients c).clerk.leader % ns + p)
              [MOD ns] := (Nat.mod_modEq _ _).symm.add_right _
        _ = ns + p := by omega
        _ ≡ p [MOD ns] := Nat.add_modEq_left
    have := hlead.trans hsum
    rw [Nat.ModEq, Nat.mod_eq_of_lt p.isLt] at this
    exact this
  have hsend := step_send hpd hrpc hp
  refine ⟨_, s₁.calls.length, hg₁.trans (.single (e := .act (.send c)) ⟨trivial, rfl⟩ hsend),
    ⟨⟨{ pd with rpc := some s₁.calls.length }, ?_, rfl, ?_⟩, ?_⟩, hc₁, hret₁⟩
  · show (Function.update s₁.clients c _ c).pending = _
    rw [Function.update_self]
  · show (Function.update s₁.clients c _ c).clerk.request pd.call = r
    rw [Function.update_self]
    show ((s₁.clients c).clerk.choose ns).request pd.call = r
    rw [Clerk.request_choose, hr]
  · show (s₁.calls ++ [_])[s₁.calls.length]? = _
    rw [List.getElem?_concat_length, hr]

/-! ## The handler -/

variable {r : Request} {hd : Handler}

theorem Asked.move (h : s.Asked c k p r hd) (hd' : Handler) :
    ({ s with calls := s.calls.set k { dst := p, request := r, handler := hd' } } :
      Stack ns nc).Asked c k p r hd' :=
  ⟨h.pending, List.getElem?_set_self (Records.lt_length_of_getElem? h.call)⟩

/-- The first `GetState` at the leader. -/
theorem Asked.check (h : s.Asked c k p r .sent) (hl : (s.peer p).state = .leader) :
    s.step (.act (.check k)) = some { s with
      calls := s.calls.set k { dst := p, request := r, handler := .checked } } := by
  have hcall : s.view.calls[k]? = _ := h.call
  have hlead : (s.view.servers p).leader = true := decide_eq_true hl
  show s.stepAct (.check k) = _
  simp only [stepAct, System.step, System.stepCheck, hcall, hlead, Option.bind_eq_bind,
    Option.bind_some]
  rfl

/-- After the second `GetState`, if the server still leads the term of `Start`. -/
def woken : Request → Handler
  | .get _ => .reading
  | .putAppend _ => .replied (KVServer.okReply "")

theorem Asked.wake {index : Int} {term : Nat} (h : s.Asked c k p r (.waiting index term))
    (hclosed : k ∈ s.closed) (hl : (s.peer p).state = .leader)
    (hterm : (s.peer p).currentTerm = term) :
    s.step (.act (.wake k)) = some { s with
      calls := s.calls.set k { dst := p, request := r, handler := woken r } } := by
  have hcall : s.view.calls[k]? = _ := h.call
  have hclosed : k ∈ s.view.closed := hclosed
  have hwake : System.afterWake (s.view.servers p) r term = woken r := by
    have hlead : (s.view.servers p).leader = true := decide_eq_true hl
    have hsame : (s.view.servers p).term = term := hterm
    unfold System.afterWake
    rw [if_neg (by rw [hlead, hsame]; simp)]
    cases r <;> rfl
  show s.stepAct (.wake k) = _
  simp only [stepAct, System.step, System.stepWake, hcall, hclosed, Option.bind_eq_bind,
    Option.bind_some, hwake]
  rfl

theorem Asked.read {args : GetArgs} (h : s.Asked c k p (.get args) .reading) :
    s.step (.act (.read k)) = some { s with
      calls := s.calls.set k { dst := p, request := .get args,
                               handler := .replied ((s.stores p).readKey args.key) } } := by
  have hcall : s.view.calls[k]? = _ := h.call
  show s.stepAct (.read k) = _
  simp only [stepAct, System.step, System.stepRead, hcall, Option.bind_eq_bind,
    Option.bind_some]
  rfl

/-- The clerk accepts the reply. -/
def Accepted (r : Request) (reply : GetReply) : Prop :=
  reply.wrongLeader = false ∧ (reply.err = .ok ∨ ∃ args, r = .get args)

/-- The call of the clerk has returned. -/
def HasReturned (s s' : Stack ns nc) (c : Fin nc) (r : Request) : Prop :=
  (s'.clients c).pending = none ∧ ∃ R, R.request = r ∧ s'.returned = s.returned ++ [R]

theorem Asked.done {reply : GetReply} (h : s.Asked c k p r (.replied reply))
    (hacc : Accepted r reply) :
    ∃ s', s.step (.act (.done c)) = some s' ∧ HasReturned s s' c r := by
  obtain ⟨pd, hpd, hrpc, hr⟩ := h.pending
  have hpd : (s.view.clients c).pending = some pd := hpd
  have hcall : s.view.calls[k]? = _ := h.call
  obtain ⟨value, hvalue⟩ : ∃ value, pd.call.result reply = some value := by
    obtain ⟨hwrong, herr⟩ := hacc
    cases hc : pd.call with
    | get key => exact ⟨_, if_neg (by rw [hwrong]; decide)⟩
    | putAppend key value op =>
        rw [hc] at hr
        rcases herr with hok | ⟨args, rfl⟩
        · exact ⟨_, if_pos ⟨hwrong, hok⟩⟩
        · cases hr
  have hreply : s.view.replyOf? k = some reply := by
    simp only [System.replyOf?, hcall, Option.bind_eq_bind, Option.bind_some]
    rfl
  have hstep : s.step (.act (.done c)) = some { s with
      clients := Function.update s.clients c
        { clerk := (s.clients c).clerk.nextSeq, pending := none }
      returned := s.returned ++
        [{ request := (s.clients c).clerk.request pd.call, value := value, began := pd.began,
           ended := s.log.length }] } := by
    show s.stepAct (.done c) = _
    simp only [stepAct, System.step, System.stepDone, hpd, hrpc, hreply, hvalue,
      Option.bind_eq_bind, Option.bind_some]
    rfl
  refine ⟨_, hstep, ?_, _, hr, rfl⟩
  show (Function.update s.clients c _ c).pending = none
  rw [Function.update_self]

/-! ## `applyDaemon` -/

theorem notify_notifyChs_of_ne (kv : KVServer) {index i : Int} (h : i ≠ index) :
    (kv.notify index).1.notifyChs i = kv.notifyChs i := by
  unfold KVServer.notify
  split
  · exact Function.update_of_ne h _ _
  · rfl

/-- `applyDaemon` can deal with every message. It closes the channel that waits for the index, and
leaves the other channels alone. -/
theorem exists_apply (h : s.Well) (hlt : s.consumed p < (s.cluster.applied p).length) :
    ∃ kv ch, s.step (.apply p 0) = some (s.finish p kv ch) ∧
      (∀ i, i ≠ ((s.consumed p + 1 : Nat) : Int) →
        kv.notifyChs i = (s.stores p).notifyChs i) ∧
      ∀ op, s.log[s.consumed p]? = some (some op) →
        ch = (s.stores p).notifyChs (s.consumed p + 1 : Nat) := by
  obtain ⟨a, hgr⟩ := h.inv.2
  obtain ⟨msg, hmsg⟩ : ∃ msg, (s.cluster.applied p)[s.consumed p]? = some msg :=
    ⟨_, List.getElem?_eq_getElem hlt⟩
  obtain ⟨-, hentry, hplain, hidx⟩ := hgr.next_message hmsg
  have hlabel : (s.stores p).snapshotIndex ≤ s.consumed p := h.inv.1.served.label p
  cases hcmd : msg.command with
  | none =>
      refine ⟨s.stores p, none, ?_, fun _ _ => rfl, fun op hop => ?_⟩
      · show s.stepApply p 0 = _
        simp only [stepApply, hmsg, Option.bind_eq_bind, Option.bind_some, hplain,
          Bool.false_eq_true, if_false, hcmd]
        rfl
      · rw [hentry, hcmd] at hop
        cases hop
  | some cmd =>
      have hknown : cmd.op.isKnown = true :=
        h.known.started cmd (hgr.started (List.mem_of_getElem? (hentry.trans (by rw [hcmd]))))
      obtain ⟨t, ht⟩ := Tables.exists_applyOp (s.stores p).toTables hknown
      have happ : (s.stores p).applyCommand (s.peer p).persister 0 (s.consumed p + 1 : Nat) cmd =
          some ({ s.stores p with toTables := t }, (s.peer p).persister, none) := by
        have hneed : ({ s.stores p with toTables := t } : KVServer).needSnapshot 0 = false :=
          if_pos (hgr.maxraftstate p)
        simp only [KVServer.applyCommand, ht, Option.bind_eq_bind, Option.bind_some, hneed]
        rfl
      refine ⟨_, _, ?_, fun i hi => notify_notifyChs_of_ne { s.stores p with toTables := t } hi,
        fun op _ => KVServer.notify_snd { s.stores p with toTables := t } _⟩
      show s.stepApply p 0 = _
      simp only [stepApply, hmsg, Option.bind_eq_bind, Option.bind_some, hplain,
        Bool.false_eq_true, if_false, hcmd, hidx]
      rw [if_pos (by push_cast; omega), happ]
      simp only [Option.bind_some, setPersister_self]
      rfl

/-- Server `p` leads term `t`. All of its log `l` is committed; the last entry is the command of
the call `k` of clerk `c`, whose handler waits for the index of this entry. -/
structure Consuming (s : Stack ns nc) (c : Fin nc) (k : Nat) (p : Fin ns) (r : Request) (t : Nat)
    (l : List (LogEntry Op)) : Prop where
  well : s.Well
  leads : (s.peer p).state = .leader
  term : (s.peer p).currentTerm = t
  logs : (s.peer p).logs = l
  commit : (s.peer p).commitIndex = l.length - 1
  last : l[l.length - 1]? = some { term := t, command := some r.cmd }
  asked : s.Asked c k p r (.waiting (l.length - 1) t)
  channel : s.consumed p + 1 < l.length → (s.stores p).notifyChs (l.length - 1) = some k
  closed : s.consumed p + 1 = l.length → k ∈ s.closed

variable {t : Nat} {l : List (LogEntry Op)}

theorem Consuming.committed_length (h : s.Consuming c k p r t l) :
    (s.peer p).committed.length = l.length - 1 := by
  rw [Raft.committed, h.logs, h.commit, List.length_drop, List.length_take]
  omega

/-- The entry that the next message is about. -/
theorem Consuming.log_get (h : s.Consuming c k p r t l) (hlt : s.consumed p + 1 = l.length - 1) :
    s.log[s.consumed p]? = some (some r.cmd) := by
  obtain ⟨a, hgr⟩ := h.well.inv.2
  have hget := Cluster.committedLog_getElem? hgr.ledger hgr.orderly (p := p) (i := s.consumed p)
    (by rw [show (s.cluster.peers p).commitIndex = _ from h.commit]; omega)
  rw [show (s.cluster.peers p).logs = l from h.logs, hlt, h.last] at hget
  rw [log, List.getElem?_map, hget]
  rfl

/-- What is still to be taken, sent and consumed at server `p`. -/
def remaining (l : List (LogEntry Op)) (p : Fin ns) (s : Stack ns nc) : Nat :=
  (l.length - s.consumed p) + (l.length - (s.cluster.applied p).length) +
    (l.length - (s.peer p).lastApplied.toNat)

/-- A step of the apply daemon of the peer changes nothing else. -/
theorem Consuming.raft {e : Event ns Op KVSnapshot} {cluster : Cluster ns Op KVSnapshot}
    (h : s.Consuming c k p r t l) (hready : s.ready e = true) (hok : s.cluster.KeepsLedger e)
    (hs : s.cluster.step e = some cluster) {la : Int}
    (hp : cluster.peers p = { s.peer p with lastApplied := la }) :
    Goes s { s with cluster := cluster } ∧
      ({ s with cluster := cluster } : Stack ns nc).Consuming c k p r t l := by
  have hstep : s.step (.raft e) = some { s with cluster := cluster } := by
    show s.stepRaft e = _
    simp only [stepRaft, hready, hs, Option.bind_eq_bind]
    rfl
  have hgoes : Goes s { s with cluster := cluster } := .single (e := .raft e) ⟨hok, rfl⟩ hstep
  refine ⟨hgoes, h.well.goes hgoes, ?_, ?_, ?_, ?_, h.last, ⟨h.asked.pending, h.asked.call⟩,
    h.channel, h.closed⟩
  · show (cluster.peers p).state = _
    rw [hp]
    exact h.leads
  · show (cluster.peers p).currentTerm = _
    rw [hp]
    exact h.term
  · show (cluster.peers p).logs = _
    rw [hp]
    exact h.logs
  · show (cluster.peers p).commitIndex = _
    rw [hp]
    exact h.commit

/-- As long as the entry has not been consumed, something can be done about it. -/
theorem Consuming.next (h : s.Consuming c k p r t l) (hlt : s.consumed p + 1 < l.length) :
    ∃ s', Goes s s' ∧ s'.Consuming c k p r t l ∧ s'.returned = s.returned ∧
      remaining l p s' < remaining l p s := by
  obtain ⟨a, hgr⟩ := h.well.inv.2
  have hpos := (hgr.ledger.peers p).lastApplied
  have hle : (s.peer p).lastApplied ≤ (s.peer p).commitIndex :=
    (hgr.orderly.inOrder p).lastApplied_le
  have hcommit := h.commit
  -- what the daemon has taken it has sent, or is about to send
  have hsent : (s.cluster.applied p).length + (s.cluster.pending p).length =
      (s.peer p).lastApplied.toNat := by
    rw [← List.length_append, hgr.orderly.delivery p, Raft.length_applyMsgs, Raft.taken,
      show (s.cluster.peers p).logs = l from h.logs, List.length_drop, List.length_take]
    show min ((s.peer p).lastApplied.toNat + 1) l.length - 1 = _
    omega
  have hconsumed := h.well.consumed p
  by_cases hsome : s.consumed p < (s.cluster.applied p).length
  · -- a message is there to be consumed
    obtain ⟨kv, ch, hstep, hothers, hch⟩ := exists_apply h.well hsome
    have hgoes : Goes s (s.finish p kv ch) := .single (e := .apply p 0) ⟨trivial, rfl⟩ hstep
    have hnext : (s.finish p kv ch).consumed p = s.consumed p + 1 := Function.update_self ..
    have hstore : (s.finish p kv ch).stores p = kv := Function.update_self ..
    refine ⟨_, hgoes, ⟨h.well.goes hgoes, h.leads, h.term, h.logs, h.commit, h.last,
      ⟨h.asked.pending, h.asked.call⟩, fun hlt' => ?_, fun heq => ?_⟩, rfl, ?_⟩
    · rw [hnext] at hlt'
      rw [hstore, hothers _ (by push_cast; omega)]
      exact h.channel hlt
    · rw [hnext] at heq
      refine List.mem_append_right _ (Option.mem_toList.mpr ?_)
      rw [hch _ (h.log_get (by omega)), show ((s.consumed p + 1 : Nat) : Int) = l.length - 1 by
        push_cast; omega]
      exact h.channel hlt
    · show (l.length - (s.finish p kv ch).consumed p) + _ + _ < _
      rw [hnext]
      show (l.length - (s.consumed p + 1)) + (l.length - (s.cluster.applied p).length) +
        (l.length - (s.peer p).lastApplied.toNat) < remaining l p s
      unfold remaining
      omega
  · cases hpend : s.cluster.pending p with
    | cons msg rest =>
        -- the daemon sends the next message, which is received
        have hready : s.ready (.applySend p) = true :=
          decide_eq_true (show s.consumed p = (s.cluster.applied p).length by omega)
        have hstep : s.cluster.step (.applySend p) = some { s.cluster with
            pending := Function.update s.cluster.pending p rest
            applied := Function.update s.cluster.applied p (s.cluster.applied p ++ [msg]) } := by
          show s.cluster.stepApplySend p = _
          rw [Cluster.stepApplySend, hpend]
        obtain ⟨hgoes, hnext⟩ := h.raft hready
          (Cluster.keepsLedger_of_none rfl rfl rfl rfl rfl) hstep rfl
        refine ⟨_, hgoes, hnext, rfl, ?_⟩
        rw [hpend, List.length_cons] at hsent
        show _ + (l.length - (Function.update s.cluster.applied p _ p).length) + _ < _
        rw [Function.update_self, List.length_append, List.length_singleton]
        show (l.length - s.consumed p) + _ + (l.length - (s.peer p).lastApplied.toNat) <
          remaining l p s
        unfold remaining
        omega
    | nil =>
        rw [hpend, List.length_nil] at hsent
        obtain ⟨cluster, hstep, hpeers, -⟩ := h.well.healthy.exists_take hpend
          (show (s.peer p).lastApplied ≠ (s.peer p).commitIndex by omega)
        have hp : cluster.peers p =
            { s.peer p with lastApplied := (s.peer p).commitIndex } := by
          rw [hpeers, Function.update_self]
          rfl
        obtain ⟨hgoes, hnext⟩ := h.raft (e := .applyTake p []) rfl
          (Cluster.keepsLedger_of_none rfl rfl rfl rfl rfl) hstep hp
        have hgrow := (Cluster.applied_step hstep p).length_le
        refine ⟨_, hgoes, hnext, rfl, ?_⟩
        show (l.length - s.consumed p) + (l.length - (cluster.applied p).length) +
          (l.length - (cluster.peers p).lastApplied.toNat) < remaining l p s
        rw [hp]
        unfold remaining
        simp only
        omega

/-- The entry can be consumed, which closes the channel of the handler. -/
theorem Consuming.consume (h : s.Consuming c k p r t l) :
    ∃ s', Goes s s' ∧ s'.Consuming c k p r t l ∧ s'.returned = s.returned ∧ k ∈ s'.closed := by
  have hnear : ∀ u : Stack ns nc, u.Consuming c k p r t l ∧ u.returned = s.returned →
      ∃ v, Goes u v ∧ (v.Consuming c k p r t l ∧ v.returned = s.returned) ∧
        (k ∈ v.closed ∨ remaining l p v < remaining l p u) := by
    rintro u ⟨hu, hret⟩
    by_cases hlt : u.consumed p + 1 < l.length
    · obtain ⟨v, hg, hv, hret', hless⟩ := hu.next hlt
      exact ⟨v, hg, ⟨hv, hret'.trans hret⟩, Or.inr hless⟩
    · refine ⟨u, .refl _ u, ⟨hu, hret⟩, Or.inl (hu.closed ?_)⟩
      obtain ⟨a, hgr⟩ := hu.well.inv.2
      have hle := hgr.consumed p
      rw [hu.committed_length] at hle
      have hpos := Records.lt_length_of_getElem? hu.last
      omega
  obtain ⟨s', hg, ⟨hs', hret⟩, hclosed⟩ := Machine.leads_until _ hnear ⟨h, rfl⟩
  exact ⟨s', hg, hs', hret, hclosed⟩

/-! ## The critical section -/

theorem filterDuplicate_eq_some {kv : KVServer} {reply : GetReply}
    (h : kv.filterDuplicate r = some reply) : ∃ value, reply = KVServer.okReply value := by
  unfold KVServer.filterDuplicate at h
  split at h
  · cases h
  · split at h
    · split at h
      · exact ⟨_, (Option.some.inj h).symm⟩
      · exact ⟨_, (Option.some.inj h).symm⟩
    · cases h

/-- The handler at the leader answers from the duplicate table, or starts its command and waits
for it. -/
theorem Asked.enter (h : s.Asked c k p r .checked) (hled : s.cluster.Led p t l) :
    (∃ s' value, s.step (.enter k) = some s' ∧
      s'.Asked c k p r (.replied (KVServer.okReply value)) ∧ s'.returned = s.returned) ∨
    ∃ s', s.step (.enter k) = some s' ∧
      s'.cluster.Led p t (l ++ [{ term := t, command := some r.cmd }]) ∧
      s'.Asked c k p r (.waiting l.length t) ∧ (s'.stores p).notifyChs l.length = some k ∧
      s'.consumed = s.consumed ∧ s'.returned = s.returned := by
  have hlt := Records.lt_length_of_getElem? h.call
  cases hdup : (s.stores p).filterDuplicate r with
  | some reply =>
      obtain ⟨value, rfl⟩ := filterDuplicate_eq_some hdup
      refine Or.inl ⟨_, value, ?_, h.move (.replied (KVServer.okReply value)), rfl⟩
      show s.stepEnter k = _
      simp only [stepEnter, h.call, hdup, Option.bind_eq_bind, Option.bind_some]
      rfl
  | none =>
      obtain ⟨cluster, hstart, hled'⟩ := hled.start (some r.cmd)
      have hret := Cluster.start_eq_of_leader hled.leads (hled.healthy.snapshotIndex p)
        (some r.cmd)
      rw [hled.logs, hled.term] at hret
      have hcluster : s.cluster.setPeer p ((s.cluster.peers p).start (some r.cmd)).1 = cluster :=
        Option.some.inj hstart
      rcases hrf : (s.cluster.peers p).start (some r.cmd) with ⟨rf, index, term, isLeader⟩
      rw [hrf] at hret hcluster
      cases hret
      refine Or.inr ⟨{ s.follow (s.view.register k ⟨p, r, .checked⟩ l.length t) with
        cluster := cluster
        started := s.started ++ [r.cmd] }, ?_, hled', ⟨h.pending, ?_⟩, ?_, rfl, rfl⟩
      · show s.stepEnter k = _
        simp only [stepEnter, h.call, hdup, Option.bind_eq_bind, Option.bind_some, peer, hrf]
        rw [← hcluster]
        rfl
      · exact List.getElem?_set_self hlt
      · show (Function.update s.replica p _ p).kv.notifyChs l.length = some k
        rw [Function.update_self]
        exact Function.update_self ..

/-! ## From the request to the reply -/

/-- A handler at the leader that has been woken answers, and its clerk returns. -/
theorem Asked.answer (h : s.Asked c k p r (woken r)) :
    ∃ s', Goes s s' ∧ HasReturned s s' c r := by
  cases r with
  | putAppend args =>
      have h : s.Asked c k p (.putAppend args) (.replied (KVServer.okReply "")) := h
      obtain ⟨s', hdone, hret⟩ := h.done ⟨rfl, Or.inl rfl⟩
      exact ⟨s', .single (e := .act (.done c)) ⟨trivial, rfl⟩ hdone, hret⟩
  | get args =>
      have hacc : Accepted (.get args) ((s.stores p).readKey args.key) := by
        refine ⟨?_, Or.inr ⟨args, rfl⟩⟩
        unfold KVServer.readKey
        split <;> rfl
      obtain ⟨s', hdone, hret⟩ := (h.move (.replied ((s.stores p).readKey args.key))).done hacc
      exact ⟨s', .trans (.single (e := .act (.read k)) ⟨trivial, rfl⟩ h.read)
        (.single (e := .act (.done c)) ⟨trivial, rfl⟩ hdone), hret⟩

/-- A request that reaches the leader can be answered. -/
theorem Asked.served (h : s.Asked c k p r .sent) (hn : 2 ≤ ns) (hwell : s.Well)
    (hled : s.cluster.Led p t l) : ∃ s', Goes s s' ∧ HasReturned s s' c r := by
  have hcheck := h.check hled.leads
  have hg₁ : Goes s _ := .single (e := .act (.check k)) ⟨trivial, rfl⟩ hcheck
  rcases (h.move .checked).enter hled with ⟨s₂, value, henter, hasked, hret⟩ |
    ⟨s₂, henter, hled₂, hasked, hchannel, hconsumed, hret⟩
  · -- the duplicate table knows the request
    obtain ⟨s₃, hdone, hpend, R, hR, hret'⟩ := hasked.done ⟨rfl, Or.inl rfl⟩
    refine ⟨s₃, (hg₁.trans (.single (e := .enter k) ⟨trivial, rfl⟩ henter)).trans
      (.single (e := .act (.done c)) ⟨trivial, rfl⟩ hdone), hpend, R, hR, ?_⟩
    rw [hret', hret]
  · have hg₂ : Goes s s₂ := hg₁.trans (.single (e := .enter k) ⟨trivial, rfl⟩ henter)
    have hpos := List.length_pos_of_ne_nil (hled.healthy.logs_ne p)
    rw [hled.logs] at hpos
    -- the entry is committed
    obtain ⟨cluster, hreach, hled₃, -, hcom⟩ := hled₂.commit hn
      ⟨_, List.getLast?_concat, rfl⟩ (by rw [List.length_append, List.length_singleton]; omega)
    have hg₃ := hg₂.trans (goes_of_reaches s₂ hreach)
    have hlen : (l ++ [({ term := t, command := some r.cmd } : LogEntry Op)]).length =
      l.length + 1 := by rw [List.length_append, List.length_singleton]
    have hconsuming : ({ s₂ with cluster := cluster } : Stack ns nc).Consuming c k p r t
        (l ++ [{ term := t, command := some r.cmd }]) := by
      refine ⟨hwell.goes hg₃, hled₃.leads, hled₃.term, hled₃.logs, hcom p, ?_,
        ⟨hasked.pending, ?_⟩, fun _ => ?_, fun heq => ?_⟩
      · rw [hlen, Nat.add_sub_cancel, List.getElem?_concat_length]
      · rw [hlen, Nat.cast_add_one, add_sub_cancel_right]
        exact hasked.call
      · rw [hlen, Nat.cast_add_one, add_sub_cancel_right]
        exact hchannel
      · -- what has been consumed was committed before
        have heq : s₂.consumed p + 1 = _ := heq
        obtain ⟨a, hgr⟩ := hwell.inv.2
        have hle := Nat.le_trans (hgr.consumed p) (hled.committed_isPrefix p).length_le
        rw [hlen, hconsumed] at heq
        rw [List.length_drop] at hle
        have heq : s.consumed p + 1 = l.length + 1 := heq
        omega
    -- and consumed
    obtain ⟨s₄, hg₄, hs₄, hret₄, hclosed⟩ := hconsuming.consume
    have hwake := hs₄.asked.wake hclosed hs₄.leads hs₄.term
    obtain ⟨s₅, hg₅, hpend, R, hR, hret₅⟩ := (hs₄.asked.move (woken r)).answer
    refine ⟨s₅, (hg₃.trans hg₄).trans
      ((Machine.Leads.single (e := .act (.wake k)) ⟨trivial, rfl⟩ hwake).trans hg₅),
      hpend, R, hR, ?_⟩
    rw [hret₅]
    show s₄.returned ++ [R] = _
    rw [hret₄]
    show s₂.returned ++ [R] = _
    rw [hret]

/-- **Every call of a clerk can return.** From every state of a run of the service on which the
cluster keeps a ledger, for a service that takes no snapshots and clerks that use the operations
of the service: a clerk in a call can come to its return, and no other call returns meanwhile. -/
theorem every_call_can_return (hn : 2 ≤ ns) {ids : Fin nc → Int} (hids : Function.Injective ids)
    {maxraftstate : Int} (hmax : maxraftstate < 0) {es : List (StackEvent ns nc)}
    (hok : Machine.Along step Allowed (init ids maxraftstate) es)
    (hr : Machine.run step (init ids maxraftstate) es = some s) {pd : Pending}
    (hpd : (s.clients c).pending = some pd) :
    ∃ fs s' R, Machine.Along step Allowed s fs ∧ Machine.run step s fs = some s' ∧
      (s'.clients c).pending = none ∧ R.request = (s.clients c).clerk.request pd.call ∧
      s'.returned = s.returned ++ [R] := by
  have hwell : s.Well :=
    Machine.run_induction (fun _ _ _ h hok hs => well_step h hok hs) (well_init hids hmax) hok hr
  -- a leader
  obtain ⟨cluster, p, t, l, hreach, hled⟩ := Cluster.exists_led hwell.healthy hn
  have hg₁ := goes_of_reaches s hreach
  -- the clerk between two iterations
  obtain ⟨s₂, hg₂, hbetween, hc₂, hret₂⟩ : ∃ s₂, Goes { s with cluster := cluster } s₂ ∧
      s₂.Between c ((s.clients c).clerk.request pd.call) ∧ s₂.cluster = cluster ∧
      s₂.returned = s.returned := by
    cases hrpc : pd.rpc with
    | none => exact ⟨_, .refl _ _, ⟨pd, hpd, hrpc, rfl⟩, rfl, rfl⟩
    | some k =>
        have hgive := step_giveUp (s := { s with cluster := cluster }) hpd (by rw [hrpc]; rfl)
        refine ⟨_, .single (e := .act (.giveUp c)) ⟨trivial, rfl⟩ hgive,
          ⟨{ pd with rpc := none }, ?_, rfl, ?_⟩, rfl, rfl⟩
        · show (Function.update s.clients c _ c).pending = _
          rw [Function.update_self]
        · show (Function.update s.clients c _ c).clerk.request pd.call = _
          rw [Function.update_self]
          exact Clerk.request_nextLeader _ _
  obtain ⟨s₃, k, hg₃, hasked, hc₃, hret₃⟩ := exists_ask hbetween p
  have hg := (hg₁.trans hg₂).trans hg₃
  obtain ⟨s₄, hg₄, hnone, R, hR, hret₄⟩ := hasked.served hn (hwell.goes hg)
    (by rw [hc₃, hc₂]; exact hled)
  obtain ⟨fs, hal, hrun⟩ := hg.trans hg₄
  exact ⟨fs, s₄, R, hal, hrun, hnone, hR, by rw [hret₄, hret₃, hret₂]⟩

/-- The handler of a clerk's request waits at server `0` when server `1` calls an election: server
`0` steps down and votes for nobody. -/
def stranded : List (StackEvent 3 1) :=
  [.raft (.canvassVotes 0), .raft (.requestVote 0), .raft (.voteReply 0),
   .act (.begin 0 (.putAppend "x" "a" .append)), .act (.send 0), .act (.check 0), .enter 0,
   .raft (.canvassVotes 1), .raft (.requestVote 2)]

theorem every_call_can_return_stranded : ∃ s : Stack 3 1,
    Machine.run step (init (fun _ => 7) (-1)) stranded = some s ∧
      (∀ p, (s.peer p).state ≠ .leader) ∧
      ∃ fs s' R, Machine.Along step Allowed s fs ∧ Machine.run step s fs = some s' ∧
        (s'.clients 0).pending = none ∧ s'.returned = s.returned ++ [R] := by
  have hids : Function.Injective (fun _ : Fin 1 => (7 : Int)) :=
    fun c c' _ => Subsingleton.elim c c'
  have hok : Machine.Along step Allowed (init (fun _ => 7) (-1)) stranded := by decide
  have hrun : (Machine.run step (init (fun _ => 7) (-1)) stranded).any (fun s =>
      (∀ p, (s.peer p).state ≠ .leader) ∧ (s.clients 0).pending.isSome = true) = true := by decide
  obtain ⟨s, hs, hstate⟩ := (Option.any_eq_true _ _).mp hrun
  obtain ⟨hnone, hsome⟩ := of_decide_eq_true hstate
  obtain ⟨pd, hpd⟩ := Option.isSome_iff_exists.mp hsome
  obtain ⟨fs, s', R, hal, hr, hpend, -, hret⟩ :=
    every_call_can_return (by decide) hids (by decide) hok hs hpd
  exact ⟨s, hs, hnone, fs, s', R, hal, hr, hpend, hret⟩

end Stack

end RaftLab
