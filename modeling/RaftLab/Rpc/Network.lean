import RaftLab.Lib.Records
import RaftLab.Lib.Run

set_option autoImplicit false

/-! # The simulated network

Every `Call` is one record. It holds where its client is, where the goroutines that work for it
are (`ProcessReq` with its timers, the one that runs the handler, the one that drains its channel)
and how often its handler was run and a message was sent on its `replyCh`. A rendezvous on an
unbuffered channel is one step of both sides. What the network's mutex protects is `Net`; a step
of a call reads it and never changes it.

Time is not modelled: a delay ends at any moment, and what `rand` decides is a choice of the step.
So `longDelays`, which only picks a delay, is left out, as are the statistics `count` and `bytes`.
Arguments and replies are values, as if encoding and decoding gave back what was sent. A handler
that ends the program (an unknown service or method) is one that does not return.

The types are `E` of end names, `N` of server names, `P` of pointers to servers, `A` of arguments
and `R` of replies.
-/

namespace RaftLab.Rpc

structure ReqMsg (E A : Type) where
  endname : E
  svcMeth : String
  args : A
  deriving DecidableEq

structure ReplyMsg (R : Type) where
  ok : Bool
  reply : Option R
  deriving DecidableEq

/-- The reply that stands for a lost message or a dead server. -/
def ReplyMsg.failed {R : Type} : ReplyMsg R := ⟨false, none⟩

/-- The end's `ch` is always the network's `endCh`. Its `done` is nil, or the network's. -/
structure ClientEnd (E : Type) where
  endname : E
  done : Option Unit
  deriving DecidableEq

/-- The network's fields, whether its `done` channel is closed, and whether the goroutine that
`MakeNetwork` starts still receives on `endCh`. -/
structure Net (E N P : Type) where
  reliable : Bool
  longReordering : Bool
  ends : E → Option (ClientEnd E)
  enabled : E → Bool
  servers : N → Option P
  connections : E → Option N
  closed : Bool
  dispatching : Bool

/-- What `ProcessReq` keeps of the result of `ReadEndnameInfo`. -/
structure Info (N P : Type) where
  servername : N
  server : P
  reliable : Bool
  longreordering : Bool
  deriving DecidableEq

/-- Where the client is in `Call`. -/
inductive Client (R : Type) where
  | sending
  | waiting
  | returned (ok : Bool) (reply : Option R)
  deriving DecidableEq

/-- Where `ProcessReq` and the timers it sets are. -/
inductive Proc (N P R : Type) where
  | idle
  | started
  /-- The end is disabled or leads to no server; a timer will send the failure. -/
  | timer
  | live (info : Info N P)
  | polling (info : Info N P)
  /-- The loop is left; `reply` is there if `replyOK`. -/
  | polled (info : Info N P) (reply : Option (ReplyMsg R))
  | delayed (msg : ReplyMsg R)
  | replying (msg : ReplyMsg R)
  | finished
  deriving DecidableEq

/-- Where the goroutine that runs the handler is. After the handler has returned it waits to send
the result on `ech`. -/
inductive Handler (E A P R : Type) where
  | none
  | running (server : P) (req : ReqMsg E A)
  | returned (server : P) (req : ReqMsg E A) (msg : ReplyMsg R)
  | done (server : P) (req : ReqMsg E A) (msg : ReplyMsg R)
  deriving DecidableEq

structure Call (E N P A R : Type) where
  clientEnd : ClientEnd E
  req : ReqMsg E A
  client : Client R
  proc : Proc N P R
  handler : Handler E A P R
  /-- A goroutine waits to drain `ech`. -/
  draining : Bool
  /-- How often the handler was started. -/
  runs : Nat
  /-- How often a message was sent on `replyCh`, or is waiting there to be received. -/
  sends : Nat

structure State (E N P A R : Type) where
  net : Net E N P
  calls : List (Call E N P A R)

/-- What `rand` decides about a reply. -/
inductive Choice where
  | dropReply
  | delay
  | send
  deriving DecidableEq

/-- The steps of a call. -/
inductive CallEvent (R : Type) where
  | handOver
  | abandon
  | read
  | dropRequest
  | dispatch
  | handlerReturn (reply : R)
  | receive
  | poll
  | conclude (choice : Choice)
  | fire
  | deliver
  | drain
  deriving DecidableEq

inductive NetEvent (E N P : Type) where
  | makeEnd (endname : E)
  | connect (endname : E) (servername : N)
  | enable (endname : E) (enabled : Bool)
  | addServer (servername : N) (server : P)
  | deleteServer (servername : N)
  | reliable (yes : Bool)
  | longReordering (yes : Bool)
  | cleanup
  | dispatcherExit
  deriving DecidableEq

inductive Event (E N P A R : Type) where
  | call (endname : E) (svcMeth : String) (args : A)
  | onCall (k : Nat) (event : CallEvent R)
  | onNet (event : NetEvent E N P)
  deriving DecidableEq

variable {E N P A R : Type} [DecidableEq E] [DecidableEq N] [DecidableEq P]

/-! ## The network's methods -/

namespace Net

def makeNetwork : Net E N P where
  reliable := true
  longReordering := false
  ends _ := none
  enabled _ := false
  servers _ := none
  connections _ := none
  closed := false
  dispatching := true

/-- The end, when it is enabled and connected to a server, and nothing otherwise. -/
def readEndnameInfo (rn : Net E N P) (endname : E) : Option (Info N P) :=
  if rn.enabled endname then
    (rn.connections endname).bind fun servername =>
      (rn.servers servername).map fun server =>
        ⟨servername, server, rn.reliable, rn.longReordering⟩
  else none

def isServerDead (rn : Net E N P) (endname : E) (servername : N) (server : P) : Bool :=
  rn.enabled endname == false || rn.servers servername != some server

/-- `MakeEnd` does not set `done`. A second end of one name and a second `Cleanup` end the
program. -/
def step (rn : Net E N P) : NetEvent E N P → Option (Net E N P)
  | .makeEnd endname =>
      match rn.ends endname with
      | some _ => none
      | none => some { rn with
          ends := Function.update rn.ends endname (some ⟨endname, none⟩)
          enabled := Function.update rn.enabled endname false
          connections := Function.update rn.connections endname none }
  | .connect endname servername =>
      some { rn with connections := Function.update rn.connections endname (some servername) }
  | .enable endname enabled =>
      some { rn with enabled := Function.update rn.enabled endname enabled }
  | .addServer servername server =>
      some { rn with servers := Function.update rn.servers servername (some server) }
  | .deleteServer servername =>
      some { rn with servers := Function.update rn.servers servername none }
  | .reliable yes => some { rn with reliable := yes }
  | .longReordering yes => some { rn with longReordering := yes }
  | .cleanup => if rn.closed then none else some { rn with closed := true }
  | .dispatcherExit =>
      if rn.closed && rn.dispatching then some { rn with dispatching := false } else none

end Net

/-! ## The steps of a call -/

namespace Call

def new (clientEnd : ClientEnd E) (svcMeth : String) (args : A) : Call E N P A R where
  clientEnd := clientEnd
  req := ⟨clientEnd.endname, svcMeth, args⟩
  client := .sending
  proc := .idle
  handler := .none
  draining := false
  runs := 0
  sends := 0

/-- `req.replyCh <- msg` -/
def answer (c : Call E N P A R) (msg : ReplyMsg R) : Call E N P A R :=
  { c with proc := .replying msg, sends := c.sends + 1 }

/-- What `ProcessReq` does after its loop. -/
def conclude (rn : Net E N P) (c : Call E N P A R) (info : Info N P)
    (reply : Option (ReplyMsg R)) (choice : Choice) : Option (Call E N P A R) :=
  match reply, rn.isServerDead c.req.endname info.servername info.server, choice with
  | none, _, _ | some _, true, _ => some (c.answer .failed)
  | some _, false, .dropReply => if info.reliable then none else some (c.answer .failed)
  | some msg, false, .delay =>
      if info.longreordering then some { c with proc := .delayed msg } else none
  | some msg, false, .send => some (c.answer msg)

def step (rn : Net E N P) (c : Call E N P A R) : CallEvent R → Option (Call E N P A R)
  | .handOver =>
      match c.client, rn.dispatching with
      | .sending, true => some { c with client := .waiting, proc := .started }
      | _, _ => none
  | .abandon =>
      match c.client, c.clientEnd.done, rn.closed with
      | .sending, some _, true => some { c with client := .returned false none }
      | _, _, _ => none
  | .read =>
      match c.proc with
      | .started =>
          match rn.readEndnameInfo c.req.endname with
          | some info => some { c with proc := .live info }
          | none => some { c with proc := .timer }
      | _ => none
  | .dropRequest =>
      match c.proc with
      | .live info => if info.reliable then none else some (c.answer .failed)
      | _ => none
  | .dispatch =>
      match c.proc with
      | .live info => some { c with
          proc := .polling info
          handler := .running info.server c.req
          runs := c.runs + 1 }
      | _ => none
  | .handlerReturn reply =>
      match c.handler with
      | .running server req => some { c with handler := .returned server req ⟨true, some reply⟩ }
      | _ => none
  | .receive =>
      match c.proc, c.handler with
      | .polling info, .returned server req msg => some { c with
          proc := .polled info (some msg)
          handler := .done server req msg }
      | _, _ => none
  | .poll =>
      match c.proc with
      | .polling info =>
          -- the loop leaves the handler behind, and `draining` receives what it sends
          if rn.isServerDead c.req.endname info.servername info.server then
            some { c with proc := .polled info none, draining := true }
          else some c
      | _ => none
  | .conclude choice =>
      match c.proc with
      | .polled info reply => c.conclude rn info reply choice
      | _ => none
  | .fire =>
      match c.proc with
      | .timer => some (c.answer .failed)
      | .delayed msg => some (c.answer msg)
      | _ => none
  | .deliver =>
      match c.proc, c.client with
      | .replying msg, .waiting => some { c with
          client := .returned msg.ok (if msg.ok then msg.reply else none)
          proc := .finished }
      | _, _ => none
  | .drain =>
      match c.draining, c.handler with
      | true, .returned server req msg => some { c with
          handler := .done server req msg
          draining := false }
      | _, _ => none

end Call

namespace State

def init : State E N P A R := ⟨.makeNetwork, []⟩

def step (s : State E N P A R) : Event E N P A R → Option (State E N P A R)
  | .call endname svcMeth args => do
      let e ← s.net.ends endname
      pure { s with calls := s.calls ++ [.new e svcMeth args] }
  | .onCall k event => do
      let c ← s.calls[k]?
      let c' ← c.step s.net event
      pure { s with calls := s.calls.set k c' }
  | .onNet event => do
      let rn ← s.net.step event
      pure { s with net := rn }

end State

/-! ## What a step does -/

omit [DecidableEq E] [DecidableEq N] [DecidableEq P] in
theorem Net.readEndnameInfo_eq_some {rn : Net E N P} {endname : E} {info : Info N P}
    (h : rn.readEndnameInfo endname = some info) :
    rn.enabled endname = true ∧ rn.connections endname = some info.servername ∧
      rn.servers info.servername = some info.server := by
  unfold readEndnameInfo at h
  split_ifs at h with henabled
  obtain ⟨servername, hname, h⟩ := Option.bind_eq_some_iff.mp h
  obtain ⟨server, hserver, rfl⟩ := Option.map_eq_some_iff.mp h
  exact ⟨henabled, hname, hserver⟩

omit [DecidableEq E] [DecidableEq N] in
theorem Net.isServerDead_eq_false {rn : Net E N P} {endname : E} {servername : N} {server : P}
    (h : rn.isServerDead endname servername server = false) :
    rn.enabled endname = true ∧ rn.servers servername = some server := by
  simpa [isServerDead] using h

/-- **Every way a call can step**, with what it finds and what it changes. -/
inductive Call.Steps (rn : Net E N P) (c : Call E N P A R) : CallEvent R → Call E N P A R → Prop
  | handOver (hclient : c.client = .sending) (hrn : rn.dispatching = true) :
      Steps rn c .handOver { c with client := .waiting, proc := .started }
  | abandon (hclient : c.client = .sending) (hdone : c.clientEnd.done = some ())
      (hrn : rn.closed = true) : Steps rn c .abandon { c with client := .returned false none }
  | live (hproc : c.proc = .started) {info : Info N P}
      (hinfo : rn.readEndnameInfo c.req.endname = some info) :
      Steps rn c .read { c with proc := .live info }
  | timer (hproc : c.proc = .started) (hinfo : rn.readEndnameInfo c.req.endname = none) :
      Steps rn c .read { c with proc := .timer }
  | dropRequest {info : Info N P} (hproc : c.proc = .live info)
      (hunreliable : info.reliable = false) :
      Steps rn c .dropRequest (c.answer .failed)
  | dispatch {info : Info N P} (hproc : c.proc = .live info) :
      Steps rn c .dispatch
        { c with
          proc := .polling info
          handler := .running info.server c.req
          runs := c.runs + 1 }
  | handlerReturn {server : P} {req : ReqMsg E A} (hhandler : c.handler = .running server req)
      (reply : R) :
      Steps rn c (.handlerReturn reply)
        { c with handler := .returned server req ⟨true, some reply⟩ }
  | receive {info : Info N P} {server : P} {req : ReqMsg E A} {msg : ReplyMsg R}
      (hproc : c.proc = .polling info) (hhandler : c.handler = .returned server req msg) :
      Steps rn c .receive
        { c with proc := .polled info (some msg), handler := .done server req msg }
  | leave {info : Info N P} (hproc : c.proc = .polling info)
      (hdead : rn.isServerDead c.req.endname info.servername info.server = true) :
      Steps rn c .poll { c with proc := .polled info none, draining := true }
  | stay {info : Info N P} (hproc : c.proc = .polling info)
      (halive : rn.isServerDead c.req.endname info.servername info.server = false) :
      Steps rn c .poll c
  | fail {info : Info N P} {reply : Option (ReplyMsg R)} (hproc : c.proc = .polled info reply)
      (choice : Choice)
      (hwhy : reply = none ∨ rn.isServerDead c.req.endname info.servername info.server = true ∨
        choice = .dropReply ∧ info.reliable = false) :
      Steps rn c (.conclude choice) (c.answer .failed)
  | delay {info : Info N P} {msg : ReplyMsg R} (hproc : c.proc = .polled info (some msg))
      (halive : rn.isServerDead c.req.endname info.servername info.server = false)
      (hlong : info.longreordering = true) :
      Steps rn c (.conclude .delay) { c with proc := .delayed msg }
  | send {info : Info N P} {msg : ReplyMsg R} (hproc : c.proc = .polled info (some msg))
      (halive : rn.isServerDead c.req.endname info.servername info.server = false) :
      Steps rn c (.conclude .send) (c.answer msg)
  | fireTimer (hproc : c.proc = .timer) : Steps rn c .fire (c.answer .failed)
  | fireDelayed {msg : ReplyMsg R} (hproc : c.proc = .delayed msg) :
      Steps rn c .fire (c.answer msg)
  | deliver {msg : ReplyMsg R} (hproc : c.proc = .replying msg) (hclient : c.client = .waiting) :
      Steps rn c .deliver
        { c with
          client := .returned msg.ok (if msg.ok then msg.reply else none)
          proc := .finished }
  | drain {server : P} {req : ReqMsg E A} {msg : ReplyMsg R} (hdraining : c.draining = true)
      (hhandler : c.handler = .returned server req msg) :
      Steps rn c .drain { c with handler := .done server req msg, draining := false }

omit [DecidableEq E] [DecidableEq N] in
theorem Call.steps_of_conclude {rn : Net E N P} {c c' : Call E N P A R} {info : Info N P}
    {reply : Option (ReplyMsg R)} {choice : Choice} (hproc : c.proc = .polled info reply)
    (h : c.conclude rn info reply choice = some c') : c.Steps rn (.conclude choice) c' := by
  unfold conclude at h
  split at h
  · obtain rfl := Option.some.inj h
    exact .fail hproc _ (.inl rfl)
  · next hdead =>
      obtain rfl := Option.some.inj h
      exact .fail hproc _ (.inr (.inl hdead))
  · split_ifs at h with hreliable
    obtain rfl := Option.some.inj h
    exact .fail hproc _ (.inr (.inr ⟨rfl, by simpa using hreliable⟩))
  · next hdead =>
      split_ifs at h with hlong
      obtain rfl := Option.some.inj h
      exact .delay hproc hdead hlong
  · next hdead =>
      obtain rfl := Option.some.inj h
      exact .send hproc hdead

omit [DecidableEq E] [DecidableEq N] in
theorem Call.steps_of_step {rn : Net E N P} {c c' : Call E N P A R} {event : CallEvent R}
    (h : c.step rn event = some c') : c.Steps rn event c' := by
  cases event with
  | handOver =>
      simp only [step] at h
      split at h <;> cases h
      next hclient hrn => exact .handOver hclient hrn
  | abandon =>
      simp only [step] at h
      split at h <;> cases h
      next hclient hdone hrn => exact .abandon hclient hdone hrn
  | read =>
      simp only [step] at h
      split at h
      · next hproc =>
          split at h <;> cases h
          · next hinfo => exact .live hproc hinfo
          · next hinfo => exact .timer hproc hinfo
      · cases h
  | dropRequest =>
      simp only [step] at h
      split at h
      · next hproc =>
          split_ifs at h with hreliable
          cases h
          exact .dropRequest hproc (by simpa using hreliable)
      · cases h
  | dispatch =>
      simp only [step] at h
      split at h <;> cases h
      next hproc => exact .dispatch hproc
  | handlerReturn reply =>
      simp only [step] at h
      split at h <;> cases h
      next hhandler => exact .handlerReturn hhandler reply
  | receive =>
      simp only [step] at h
      split at h <;> cases h
      next hproc hhandler => exact .receive hproc hhandler
  | poll =>
      simp only [step] at h
      split at h
      · next hproc =>
          split_ifs at h with hdead <;> cases h
          · exact .leave hproc hdead
          · exact .stay hproc (by simpa using hdead)
      · cases h
  | conclude choice =>
      simp only [step] at h
      split at h
      · next hproc => exact steps_of_conclude hproc h
      · cases h
  | fire =>
      simp only [step] at h
      split at h <;> cases h
      · next hproc => exact .fireTimer hproc
      · next hproc => exact .fireDelayed hproc
  | deliver =>
      simp only [step] at h
      split at h <;> cases h
      next hproc hclient => exact .deliver hproc hclient
  | drain =>
      simp only [step] at h
      split at h <;> cases h
      next hdraining hhandler => exact .drain hdraining hhandler

/-- A step starts a call, is a step of one call, or changes the network. -/
theorem State.step_cases {s s' : State E N P A R} {event : Event E N P A R}
    (h : s.step event = some s') :
    (∃ endname e svcMeth args, event = .call endname svcMeth args ∧
      s.net.ends endname = some e ∧
      s' = { s with calls := s.calls ++ [.new e svcMeth args] }) ∨
    (∃ k ev c c', event = .onCall k ev ∧ s.calls[k]? = some c ∧ c.Steps s.net ev c' ∧
      s' = { s with calls := s.calls.set k c' }) ∨
    (∃ ev rn, event = .onNet ev ∧ s.net.step ev = some rn ∧ s' = { s with net := rn }) := by
  cases event with
  | call endname svcMeth args =>
      obtain ⟨e, he, h⟩ := Option.bind_eq_some_iff.mp h
      obtain rfl := Option.some.inj h
      exact .inl ⟨endname, e, svcMeth, args, rfl, he, rfl⟩
  | onCall k ev =>
      obtain ⟨c, hc, h⟩ := Option.bind_eq_some_iff.mp h
      obtain ⟨c', hc', h⟩ := Option.bind_eq_some_iff.mp h
      obtain rfl := Option.some.inj h
      exact .inr (.inl ⟨k, ev, c, c', rfl, hc, Call.steps_of_step hc', rfl⟩)
  | onNet ev =>
      obtain ⟨rn, hrn, h⟩ := Option.bind_eq_some_iff.mp h
      obtain rfl := Option.some.inj h
      exact .inr (.inr ⟨ev, rn, rfl, hrn, rfl⟩)

/-- **What holds of a call and of the events so far.** It holds of a new call, more events do not
change it, and every step of the call keeps it. -/
theorem State.call_induction {J : List (Event E N P A R) → Nat → Call E N P A R → Prop}
    (hnew : ∀ es k e svcMeth args, J es k (.new e svcMeth args))
    (hmore : ∀ es k c event, J es k c → J (es ++ [event]) k c)
    (hstep : ∀ es s k ev c c', Machine.run State.step State.init es = some s →
      s.calls[k]? = some c → c.Steps s.net ev c' → J es k c → J (es ++ [.onCall k ev]) k c')
    {es : List (Event E N P A R)} {s : State E N P A R}
    (hr : Machine.run State.step State.init es = some s) {k : Nat} {c : Call E N P A R}
    (hc : s.calls[k]? = some c) : J es k c := by
  refine Machine.run_history_induction
    (J := fun es s => ∀ k c, s.calls[k]? = some c → J es k c) ?_ ?_ hr k c hc
  · intro k c hc
    cases hc
  · intro es t event t' ht ih ht' k c hc
    rcases State.step_cases ht' with ⟨endname, e, svcMeth, args, rfl, -, rfl⟩ |
      ⟨i, ev, d, d', rfl, hd, hsteps, rfl⟩ | ⟨ev, rn, rfl, -, rfl⟩
    · rcases Records.getElem?_concat_cases hc with hold | ⟨rfl, rfl⟩
      · exact hmore es k c _ (ih k c hold)
      · exact hnew _ _ _ _ _
    · rcases Records.getElem?_set_cases hd hc with ⟨rfl, rfl⟩ | ⟨-, hold⟩
      · exact hstep es t k ev d c ht hd hsteps (ih k d hd)
      · exact hmore es k c _ (ih k c hold)
    · exact hmore es k c _ (ih k c hc)

end RaftLab.Rpc
