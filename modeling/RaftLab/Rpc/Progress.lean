import RaftLab.Rpc.Discipline

set_option autoImplicit false

/-! # Calls that are stranded

A call that has not returned should be waiting for its handler, or something should be able to
happen for it. Once the request is handed over this is so in every state. Before, it depends on
the goroutine that receives on `endCh`: the end's own `done` channel, which `Call` also selects
on, is never set by `MakeEnd`, so after `Cleanup` has made that goroutine return, a call that
wants to hand over its request waits forever.
-/

namespace RaftLab.Rpc

variable {E N P A R : Type}

/-- The steps that bring a call nearer to its return. The handler's return is not one of them, nor
is looking again at the server or draining a channel. -/
def CallEvent.advances : CallEvent R → Bool
  | .handlerReturn _ | .poll | .drain => false
  | _ => true

def Client.HasReturned (client : Client R) : Prop := ∃ ok reply, client = .returned ok reply

/-- `ProcessReq` is in its loop and the handler runs. -/
def Call.WaitsForHandler (c : Call E N P A R) : Prop :=
  (∃ info, c.proc = .polling info) ∧ ∃ server req, c.handler = .running server req

section

variable [DecidableEq E] [DecidableEq N] [DecidableEq P]

/-- **No call is stranded.** A call that has not returned waits for a handler that has not
returned, or has a step that brings it nearer to its return; and one that is handing over its
request is received from, or its end's `done` channel is closed. -/
def NoneStranded (s : State E N P A R) : Prop :=
  ∀ k c, s.calls[k]? = some c → ¬ c.client.HasReturned →
    (c.WaitsForHandler ∨
      ∃ event, event.advances = true ∧ (s.step (.onCall k event)).isSome = true) ∧
    (c.client = .sending →
      s.net.dispatching = true ∨ c.clientEnd.done = some () ∧ s.net.closed = true)

end

/-- The goroutine that receives on `endCh` returns only when no call is handing over a request, and
no call is made after it has returned. -/
def ServesHandOvers (s : State E N P A R) : Event E N P A R → Prop
  | .onNet .dispatcherExit => ∀ c ∈ s.calls, c.client ≠ .sending
  | .call _ _ _ => s.net.dispatching = true
  | _ => True

instance [DecidableEq R] (s : State E N P A R) :
    (event : Event E N P A R) → Decidable (ServesHandOvers s event)
  | .onNet .dispatcherExit => inferInstanceAs (Decidable (∀ c ∈ s.calls, c.client ≠ .sending))
  | .call _ _ _ => inferInstanceAs (Decidable (s.net.dispatching = true))
  | .onCall _ _ | .onNet (.makeEnd _) | .onNet (.connect _ _) | .onNet (.enable _ _)
  | .onNet (.addServer _ _) | .onNet (.deleteServer _) | .onNet (.reliable _)
  | .onNet (.longReordering _) | .onNet .cleanup => isTrue trivial

/-! ## Ends and the dispatching goroutine -/

/-- No end has a `done` channel. -/
structure NoDone (s : State E N P A R) : Prop where
  ends : ∀ name e, s.net.ends name = some e → e.done = none
  calls : ∀ c ∈ s.calls, c.clientEnd.done = none

/-- Requests are received while a call is handing one over. -/
def Manned (s : State E N P A R) : Prop :=
  s.net.dispatching = true ∨ ∀ c ∈ s.calls, c.client ≠ .sending

section

variable [DecidableEq P]

theorem Call.Steps.clientEnd_eq {rn : Net E N P} {c c' : Call E N P A R} {event : CallEvent R}
    (h : c.Steps rn event c') : c'.clientEnd = c.clientEnd := by
  cases h <;> rfl

/-- A call that hands over its request has not done anything before. -/
theorem Call.Steps.sending_of {rn : Net E N P} {c c' : Call E N P A R} {event : CallEvent R}
    (h : c.Steps rn event c') (hc : c'.client = .sending) : c.client = .sending := by
  cases h <;> first | exact hc | cases hc

end

variable [DecidableEq E] [DecidableEq N]

theorem Net.step_ends {rn rn' : Net E N P} {event : NetEvent E N P} (h : rn.step event = some rn')
    {name : E} {e : ClientEnd E} (he : rn'.ends name = some e) :
    rn.ends name = some e ∨ e.done = none := by
  cases event with
  | makeEnd endname =>
      simp only [step] at h
      split at h <;> cases h
      by_cases hname : name = endname
      · subst hname
        obtain rfl : _ = e := by simpa using he
        exact .inr rfl
      · exact .inl (by simpa [hname] using he)
  | cleanup | dispatcherExit =>
      simp only [step] at h
      split_ifs at h
      cases h
      exact .inl he
  | connect | enable | addServer | deleteServer | reliable | longReordering =>
      cases h
      exact .inl he

/-- The goroutine that receives on `endCh` does not come back, and returns only by its own step. -/
theorem Net.step_dispatching {rn rn' : Net E N P} {event : NetEvent E N P}
    (h : rn.step event = some rn') :
    rn'.dispatching = rn.dispatching ∨ event = .dispatcherExit ∧ rn'.dispatching = false := by
  cases event with
  | makeEnd endname =>
      simp only [step] at h
      split at h <;> cases h
      exact .inl rfl
  | cleanup =>
      simp only [step] at h
      split_ifs at h
      cases h
      exact .inl rfl
  | dispatcherExit =>
      simp only [step] at h
      split_ifs at h
      cases h
      exact .inr ⟨rfl, rfl⟩
  | connect | enable | addServer | deleteServer | reliable | longReordering =>
      cases h
      exact .inl rfl

variable [DecidableEq P] {s s' : State E N P A R} {es : List (Event E N P A R)}

theorem NoDone.step {event : Event E N P A R} (h : NoDone s) (hs : s.step event = some s') :
    NoDone s' := by
  rcases State.step_cases hs with ⟨endname, e, svcMeth, args, rfl, he, rfl⟩ |
    ⟨k, ev, c, c', rfl, hc, hsteps, rfl⟩ | ⟨ev, rn, rfl, hrn, rfl⟩
  · exact ⟨h.ends, Records.forall_mem_append_singleton h.calls (h.ends endname e he)⟩
  · refine ⟨h.ends, Records.forall_mem_set h.calls ?_⟩
    rw [hsteps.clientEnd_eq]
    exact h.calls c (List.mem_of_getElem? hc)
  · refine ⟨fun name e he => ?_, h.calls⟩
    rcases Net.step_ends hrn he with hold | hnone
    · exact h.ends name e hold
    · exact hnone

theorem noDone_run (hr : Machine.run State.step State.init es = some s) : NoDone s :=
  Machine.run_history_induction (J := fun _ s => NoDone s)
    ⟨fun _ _ he => (by cases he), fun _ hc => (by cases hc)⟩
    (fun _ _ _ _ _ h hs => h.step hs) hr

theorem manned_step {event : Event E N P A R} (h : Manned s) (hok : ServesHandOvers s event)
    (hs : s.step event = some s') : Manned s' := by
  rcases State.step_cases hs with ⟨endname, e, svcMeth, args, rfl, -, rfl⟩ |
    ⟨k, ev, c, c', rfl, hc, hsteps, rfl⟩ | ⟨ev, rn, rfl, hrn, rfl⟩
  · exact .inl hok
  · refine h.imp id fun hnone => Records.forall_mem_set hnone fun hc' => ?_
    exact hnone c (List.mem_of_getElem? hc) (hsteps.sending_of hc')
  · rcases Net.step_dispatching hrn with hsame | ⟨rfl, -⟩
    · exact h.imp (fun hd => hsame.trans hd) id
    · exact .inr hok

/-! ## Progress -/

theorem isSome_step_onCall {k : Nat} {c : Call E N P A R} {event : CallEvent R}
    (hc : s.calls[k]? = some c) (h : (c.step s.net event).isSome = true) :
    (s.step (.onCall k event)).isSome = true := by
  obtain ⟨c', hc'⟩ := Option.isSome_iff_exists.mp h
  simp [State.step, hc, hc']

omit [DecidableEq E] [DecidableEq N] in
/-- A call whose request is handed over waits for its handler or has a step. -/
theorem Call.Consistent.advances (rn : Net E N P) {c : Call E N P A R} (h : c.Consistent)
    (hwaiting : c.client = .waiting) :
    c.WaitsForHandler ∨ ∃ event : CallEvent R, event.advances = true ∧
      (c.step rn event).isSome = true := by
  -- one step for each place where `ProcessReq` can be
  cases hproc : c.proc with
  | idle =>
      simp only [Consistent, hproc] at h
      exact absurd hwaiting h.1
  | started =>
      refine .inr ⟨.read, rfl, ?_⟩
      simp only [Call.step, hproc]
      split <;> rfl
  | timer => exact .inr ⟨.fire, rfl, by simp [Call.step, hproc]⟩
  | live info => exact .inr ⟨.dispatch, rfl, by simp [Call.step, hproc]⟩
  | polling info =>
      simp only [Consistent, hproc] at h
      obtain ⟨-, hrun | ⟨r, hret⟩, -⟩ := h
      · exact .inl ⟨⟨info, hproc⟩, _, _, hrun⟩
      · exact .inr ⟨.receive, rfl, by simp [Call.step, hproc, hret]⟩
  | polled info reply =>
      refine .inr ⟨.conclude .send, rfl, ?_⟩
      simp only [Call.step, hproc, Call.conclude]
      split <;> simp_all
  | delayed msg => exact .inr ⟨.fire, rfl, by simp [Call.step, hproc]⟩
  | replying msg => exact .inr ⟨.deliver, rfl, by simp [Call.step, hproc, hwaiting]⟩
  | finished =>
      simp only [Consistent, hproc] at h
      obtain ⟨⟨ok, reply, hret⟩, -⟩ := h
      simp [hwaiting] at hret

theorem noneStranded_of_manned (hr : Machine.run State.step State.init es = some s)
    (h : Manned s) : NoneStranded s := by
  intro k c hc hnot
  have hsending : c.client = .sending → s.net.dispatching = true := fun hclient =>
    h.resolve_right fun hnone => hnone c (List.mem_of_getElem? hc) hclient
  refine ⟨?_, fun hclient => .inl (hsending hclient)⟩
  cases hclient : c.client with
  | sending =>
      refine .inr ⟨.handOver, rfl, isSome_step_onCall hc ?_⟩
      simp [Call.step, hclient, hsending hclient]
  | waiting =>
      rcases (State.consistent hr hc).advances s.net hclient with hw | ⟨ev, hadv, hstep⟩
      · exact .inl hw
      · exact .inr ⟨ev, hadv, isSome_step_onCall hc hstep⟩
  | returned ok reply => exact absurd ⟨ok, reply, hclient⟩ hnot

/-- Where no call is stranded, a call that is handing over its request is received from. -/
theorem NoneStranded.manned (h : NoneStranded s) (hdone : NoDone s) : Manned s := by
  by_cases hd : s.net.dispatching = true
  · exact .inl hd
  · refine .inr fun c hc hclient => ?_
    obtain ⟨k, hk⟩ := List.mem_iff_getElem?.mp hc
    have hnot : ¬ c.client.HasReturned := by
      rintro ⟨ok, reply, hret⟩
      simp [hclient] at hret
    rcases (h k c hk hnot).2 hclient with hdisp | ⟨hsome, -⟩
    · exact hd hdisp
    · rw [hdone.calls c hc] at hsome
      cases hsome

theorem serves_of_manned {event : Event E N P A R} (hs : s.step event = some s')
    (h : Manned s') : ServesHandOvers s event := by
  rcases State.step_cases hs with ⟨endname, e, svcMeth, args, rfl, -, rfl⟩ |
    ⟨k, ev, c, c', rfl, -, -, -⟩ | ⟨ev, rn, rfl, hrn, rfl⟩
  · exact h.resolve_right fun hnone => hnone (.new e svcMeth args) (by simp) rfl
  · trivial
  · cases ev with
    | dispatcherExit =>
        simp only [Net.step] at hrn
        split_ifs at hrn
        cases hrn
        exact h.resolve_left (by simp)
    | makeEnd | connect | enable | addServer | deleteServer | reliable | longReordering | cleanup =>
        trivial

/-- **When no call is stranded.** Along a run no state has a stranded call if and only if the
goroutine that receives on `endCh` never returns while a call is handing over its request and no
call is made after it has returned. -/
theorem none_stranded_iff (hr : Machine.run State.step State.init es = some s) :
    (∀ before after t, es = before ++ after →
      Machine.run State.step State.init before = some t → NoneStranded t) ↔
    Machine.Along State.step ServesHandOvers State.init es := by
  have hstart : Machine.run State.step State.init [] = some (State.init : State E N P A R) := rfl
  refine Machine.always_iff_along (noneStranded_of_manned hstart (.inl rfl)) ?_ hr
  intro before t event t' ht hnone ht'
  have hrun : Machine.run State.step State.init (before ++ [event]) = some t' := by
    rw [Machine.run_append, ht]
    simp [Machine.run, ht']
  constructor
  · intro hok
    exact noneStranded_of_manned hrun (manned_step (hnone.manned (noDone_run ht)) hok ht')
  · exact fun hnone' => serves_of_manned ht' (hnone'.manned (noDone_run hrun))

/-- Two calls, of which one is made and one returns while the network is being cleaned up. -/
def callsThenCleanup : List (Event Nat Nat Nat Nat Nat) :=
  [.onNet (.makeEnd 0), .call 0 "Server.Handler" 5, .onCall 0 .handOver, .onNet .cleanup,
    .call 0 "Server.Handler" 6, .onCall 1 .handOver, .onNet .dispatcherExit, .onCall 0 .read,
    .onCall 0 .fire, .onCall 0 .deliver]

theorem none_stranded_callsThenCleanup :
    ∃ t, Machine.run State.step State.init callsThenCleanup = some t ∧ NoneStranded t := by
  obtain ⟨t, ht⟩ : ∃ t, Machine.run State.step State.init callsThenCleanup = some t := ⟨_, rfl⟩
  exact ⟨t, ht, (none_stranded_iff ht).mpr (by decide) callsThenCleanup [] t (by simp) ht⟩

/-! ## A call after the network is cleaned up -/

/-- Request `k` will never be handed over. -/
def Stuck (k : Nat) (s : State E N P A R) : Prop :=
  s.net.dispatching = false ∧
    ∃ c, s.calls[k]? = some c ∧ c.client = .sending ∧ c.proc = .idle ∧ c.handler = .none ∧
      c.draining = false ∧ c.clientEnd.done = none

theorem Stuck.step {k : Nat} {event : Event E N P A R} (h : Stuck k s)
    (hs : s.step event = some s') : Stuck k s' := by
  obtain ⟨hd, c, hc, hclient, hproc, hhandler, hdraining, hdone⟩ := h
  rcases State.step_cases hs with ⟨endname, e, svcMeth, args, rfl, -, rfl⟩ |
    ⟨i, ev, b, b', rfl, hb, hsteps, rfl⟩ | ⟨ev, rn, rfl, hrn, rfl⟩
  · refine ⟨hd, c, ?_, hclient, hproc, hhandler, hdraining, hdone⟩
    rw [List.getElem?_append_left (Records.lt_length_of_getElem? hc)]
    exact hc
  · by_cases hi : i = k
    · -- none of the call's own steps finds what it needs
      subst hi
      obtain rfl : c = b := Option.some.inj (hc.symm.trans hb)
      cases hsteps <;> simp_all
    · refine ⟨hd, c, ?_, hclient, hproc, hhandler, hdraining, hdone⟩
      rw [List.getElem?_set_ne hi]
      exact hc
  · refine ⟨?_, c, hc, hclient, hproc, hhandler, hdraining, hdone⟩
    rcases Net.step_dispatching hrn with hsame | ⟨-, hexit⟩
    · exact hsame.trans hd
    · exact hexit

/-- The network is cleaned up and its goroutine has returned when a call is made. -/
def callAfterCleanup : List (Event Nat Nat Nat Nat Nat) :=
  [.onNet (.makeEnd 0), .onNet .cleanup, .onNet .dispatcherExit, .call 0 "Server.Handler" 5]

/-- The call is stranded, and whatever happens afterwards it never returns. -/
theorem call_after_cleanup_is_stranded :
    ∃ s, Machine.run State.step State.init callAfterCleanup = some s ∧ ¬ NoneStranded s ∧
      ∀ more s', Machine.run State.step s more = some s' →
        ∃ c, s'.calls[0]? = some c ∧ c.client = .sending := by
  obtain ⟨s, hs, hstuck⟩ : ∃ s, Machine.run State.step State.init callAfterCleanup = some s ∧
      Stuck 0 s := ⟨_, rfl, rfl, _, rfl, rfl, rfl, rfl, rfl, rfl⟩
  refine ⟨s, hs, fun h => ?_, fun more s' hmore => ?_⟩
  · obtain ⟨hd, c, hc, hclient, -⟩ := hstuck
    have hmanned := h.manned (noDone_run hs)
    exact (hmanned.resolve_left (by simp [hd])) c (List.mem_of_getElem? hc) hclient
  · obtain ⟨-, c, hc, hclient, -⟩ := Machine.run_history_induction (J := fun _ s => Stuck 0 s)
      hstuck (fun _ _ _ _ _ h hs => h.step hs) hmore
    exact ⟨c, hc, hclient⟩

end RaftLab.Rpc
