import RaftLab.Rpc.Network

set_option autoImplicit false

/-! # What a call can rely on

`Consistent` ties the goroutines of a call to each other: what the client waits for, what the
handler has done and how often, by where `ProcessReq` is. `Answered` is what a reply stands for.
Both hold in every state of every run, and together they say that a handler is run at most once,
that one message at most is sent, and that a call returns true only with its own handler's reply
from a server that was still alive afterwards.
-/

namespace RaftLab.Rpc

variable {E N P A R : Type}

/-! ## The goroutines of a call -/

/-- Where the client and the handler are, and how often a handler was run and a message sent, when
`ProcessReq` is at `proc`. -/
def Call.Consistent (c : Call E N P A R) : Prop :=
  match c.proc with
  | .idle =>
      c.client ≠ .waiting ∧ c.handler = .none ∧ c.draining = false ∧ c.runs = 0 ∧ c.sends = 0
  | .started | .timer | .live _ =>
      c.client = .waiting ∧ c.handler = .none ∧ c.draining = false ∧ c.runs = 0 ∧ c.sends = 0
  | .polling info =>
      c.client = .waiting ∧
        (c.handler = .running info.server c.req ∨
          ∃ r, c.handler = .returned info.server c.req ⟨true, some r⟩) ∧
        c.draining = false ∧ c.runs = 1 ∧ c.sends = 0
  | .polled info reply =>
      c.client = .waiting ∧
        (∀ msg, reply = some msg →
          ∃ r, msg = ⟨true, some r⟩ ∧ c.handler = .done info.server c.req msg) ∧
        c.runs = 1 ∧ c.sends = 0
  | .delayed _ => c.client = .waiting ∧ c.runs = 1 ∧ c.sends = 0
  | .replying _ => c.client = .waiting ∧ c.runs ≤ 1 ∧ c.sends = 1
  | .finished => (∃ ok reply, c.client = .returned ok reply) ∧ c.runs ≤ 1 ∧ c.sends = 1

theorem Call.Consistent.answer {c : Call E N P A R} (hclient : c.client = .waiting)
    (hruns : c.runs ≤ 1) (hsends : c.sends = 0) (msg : ReplyMsg R) : (c.answer msg).Consistent := by
  refine ⟨hclient, hruns, ?_⟩
  show c.sends + 1 = 1
  rw [hsends]

theorem Call.consistent_new (e : ClientEnd E) (svcMeth : String) (args : A) :
    (Call.new e svcMeth args : Call E N P A R).Consistent :=
  ⟨by simp [Call.new], rfl, rfl, rfl, rfl⟩

theorem Call.Consistent.counts {c : Call E N P A R} (h : c.Consistent) :
    c.runs ≤ 1 ∧ c.sends ≤ 1 := by
  unfold Consistent at h
  split at h <;> omega

/-- Only a call whose request is not handed over yet is sending. -/
theorem Call.Consistent.idle_of_sending {c : Call E N P A R} (h : c.Consistent)
    (hclient : c.client = .sending) : c.proc = .idle := by
  unfold Consistent at h
  split at h <;> simp_all

/-- Outside the loop of `ProcessReq` the goroutine of a handler that has not handed over its
result moves on by itself. -/
theorem Call.Consistent.setHandler {c : Call E N P A R} (h : c.Consistent)
    (hnone : c.handler ≠ .none) (hdone : ∀ server req msg, c.handler ≠ .done server req msg)
    (hloop : ∀ info, c.proc ≠ .polling info) (handler : Handler E A P R) (draining : Bool) :
    { c with handler := handler, draining := draining }.Consistent := by
  cases hproc : c.proc with
  | idle | started | timer | live =>
      simp only [Consistent, hproc] at h
      exact absurd h.2.1 hnone
  | polling info => exact absurd hproc (hloop info)
  | polled info reply =>
      simp only [Consistent, hproc] at h ⊢
      refine ⟨h.1, fun msg hmsg => ?_, h.2.2⟩
      obtain ⟨r, -, hd⟩ := h.2.1 msg hmsg
      exact absurd hd (hdone _ _ _)
  | delayed | replying | finished =>
      simp only [Consistent, hproc] at h ⊢
      exact h

variable [DecidableEq P]

theorem Call.Consistent.step {rn : Net E N P} {c c' : Call E N P A R} {event : CallEvent R}
    (h : c.Consistent) (hs : c.Steps rn event c') : c'.Consistent := by
  cases hs with
  | handOver hclient _ =>
      simp only [Consistent, h.idle_of_sending hclient] at h
      exact ⟨rfl, h.2⟩
  | abandon hclient _ _ =>
      have hidle := h.idle_of_sending hclient
      simp only [Consistent, hidle] at h ⊢
      exact ⟨by simp, h.2⟩
  | live hproc _ =>
      simp only [Consistent, hproc] at h
      exact h
  | timer hproc _ =>
      simp only [Consistent, hproc] at h
      exact h
  | dropRequest hproc _ =>
      simp only [Consistent, hproc] at h
      obtain ⟨hclient, -, -, hruns, hsends⟩ := h
      exact .answer hclient (by omega) hsends _
  | dispatch hproc =>
      simp only [Consistent, hproc] at h
      obtain ⟨hclient, -, hdraining, hruns, hsends⟩ := h
      exact ⟨hclient, .inl rfl, hdraining, by simp [hruns], hsends⟩
  | @handlerReturn server req hhandler reply =>
      -- the loop still waits for this handler, or has left it to itself
      by_cases hloop : ∃ info, c.proc = .polling info
      · obtain ⟨info, hproc⟩ := hloop
        simp only [Consistent, hproc] at h ⊢
        obtain ⟨hclient, hrun | ⟨r, hret⟩, hcounts⟩ := h
        · obtain ⟨rfl, rfl⟩ : server = _ ∧ req = _ := by simpa [hhandler] using hrun
          exact ⟨hclient, .inr ⟨reply, rfl⟩, hcounts⟩
        · simp [hhandler] at hret
      · exact h.setHandler (by simp [hhandler]) (by simp [hhandler])
          (fun info hproc => hloop ⟨info, hproc⟩) _ _
  | receive hproc hhandler =>
      simp only [Consistent, hproc] at h
      obtain ⟨hclient, hrun | ⟨r, hret⟩, hcounts⟩ := h
      · simp [hhandler] at hrun
      · rw [hhandler] at hret
        cases hret
        refine ⟨hclient, fun msg hmsg => ⟨r, ?_, ?_⟩, hcounts.2⟩
        · exact (Option.some.inj hmsg).symm
        · rw [← Option.some.inj hmsg]
  | leave hproc _ =>
      simp only [Consistent, hproc] at h
      exact ⟨h.1, fun msg hmsg => (by cases hmsg), h.2.2.2⟩
  | stay => exact h
  | fail hproc _ _ =>
      simp only [Consistent, hproc] at h
      obtain ⟨hclient, -, hruns, hsends⟩ := h
      exact .answer hclient (by omega) hsends _
  | delay hproc _ _ =>
      simp only [Consistent, hproc] at h
      exact ⟨h.1, h.2.2⟩
  | send hproc _ =>
      simp only [Consistent, hproc] at h
      obtain ⟨hclient, -, hruns, hsends⟩ := h
      exact .answer hclient (by omega) hsends _
  | fireTimer hproc =>
      simp only [Consistent, hproc] at h
      obtain ⟨hclient, -, -, hruns, hsends⟩ := h
      exact .answer hclient (by omega) hsends _
  | fireDelayed hproc =>
      simp only [Consistent, hproc] at h
      obtain ⟨hclient, hruns, hsends⟩ := h
      exact .answer hclient (by omega) hsends _
  | deliver hproc _ =>
      simp only [Consistent, hproc] at h
      exact ⟨⟨_, _, rfl⟩, h.2⟩
  | drain hdraining hhandler =>
      -- nobody drains while the loop still waits for the handler
      refine h.setHandler (by simp [hhandler]) (by simp [hhandler]) (fun info hproc => ?_) _ _
      simp [Consistent, hproc, hdraining] at h

variable [DecidableEq E] [DecidableEq N]

theorem State.consistent {es : List (Event E N P A R)} {s : State E N P A R}
    (hr : Machine.run State.step State.init es = some s) {k : Nat} {c : Call E N P A R}
    (hc : s.calls[k]? = some c) : c.Consistent :=
  State.call_induction (J := fun _ _ c => c.Consistent)
    (fun _ _ e svcMeth args => Call.consistent_new e svcMeth args) (fun _ _ _ _ h => h)
    (fun _ _ _ _ _ _ _ _ hs h => h.step hs) hr hc

/-! ## What a reply stands for -/

/-- Among the events is the one by which the processing of request `k` began, and the network
then had the end enabled and connected to the server of `info`. -/
def LookedUp (es : List (Event E N P A R)) (k : Nat) (req : ReqMsg E A) (info : Info N P) : Prop :=
  ∃ before after s, es = before ++ .onCall k .read :: after ∧
    Machine.run State.step State.init before = some s ∧
    s.net.enabled req.endname = true ∧
    s.net.connections req.endname = some info.servername ∧
    s.net.servers info.servername = some info.server

/-- After some of the events, the handler of request `k` had been run on the server that was
looked up when processing began, with the request's own arguments, and had returned `r`; and the
end was enabled and the same server registered under its name. -/
def Answered (es : List (Event E N P A R)) (k : Nat) (req : ReqMsg E A) (r : R) : Prop :=
  ∃ before after s c info, es = before ++ after ∧ LookedUp before k req info ∧
    Machine.run State.step State.init before = some s ∧ s.calls[k]? = some c ∧
    c.handler = .done info.server req ⟨true, some r⟩ ∧
    s.net.enabled req.endname = true ∧
    s.net.servers info.servername = some info.server

theorem LookedUp.more {es : List (Event E N P A R)} {k : Nat} {req : ReqMsg E A}
    {info : Info N P} (h : LookedUp es k req info) (event : Event E N P A R) :
    LookedUp (es ++ [event]) k req info := by
  obtain ⟨before, after, s, rfl, h⟩ := h
  exact ⟨before, after ++ [event], s, by simp, h⟩

theorem Answered.more {es : List (Event E N P A R)} {k : Nat} {req : ReqMsg E A} {r : R}
    (h : Answered es k req r) (event : Event E N P A R) : Answered (es ++ [event]) k req r := by
  obtain ⟨before, after, s, c, info, rfl, h⟩ := h
  exact ⟨before, after ++ [event], s, c, info, by simp, h⟩

/-- The server that `ProcessReq` works with. -/
def Proc.info? : Proc N P R → Option (Info N P)
  | .live info | .polling info | .polled info _ => some info
  | _ => none

/-- The message that is on its way to the client. -/
def Proc.msg? : Proc N P R → Option (ReplyMsg R)
  | .delayed msg | .replying msg => some msg
  | _ => none

/-- What the events say about where a call is. -/
structure Explained (es : List (Event E N P A R)) (k : Nat) (c : Call E N P A R) : Prop where
  lookedUp : ∀ info, c.proc.info? = some info → LookedUp es k c.req info
  message : ∀ msg, c.proc.msg? = some msg → msg.ok = true →
    ∃ r, msg.reply = some r ∧ Answered es k c.req r
  returned : ∀ reply, c.client = .returned true reply →
    ∃ r, reply = some r ∧ Answered es k c.req r

namespace Explained

variable {es : List (Event E N P A R)} {k : Nat} {c c' : Call E N P A R}

theorem more (h : Explained es k c) (event : Event E N P A R) :
    Explained (es ++ [event]) k c where
  lookedUp info hinfo := (h.lookedUp info hinfo).more event
  message msg hmsg hok := by
    obtain ⟨r, hr, ha⟩ := h.message msg hmsg hok
    exact ⟨r, hr, ha.more event⟩
  returned reply hreply := by
    obtain ⟨r, hr, ha⟩ := h.returned reply hreply
    exact ⟨r, hr, ha.more event⟩

/-- A step of `ProcessReq` that looks up no server and puts no message on its way. -/
theorem move (h : Explained es k c) (hreq : c'.req = c.req) (hclient : c'.client = c.client)
    (hinfo : ∀ info, c'.proc.info? = some info → c.proc.info? = some info)
    (hmsg : ∀ msg, c'.proc.msg? = some msg → c.proc.msg? = some msg) : Explained es k c' := by
  constructor
  · rw [hreq]
    exact fun info hi => h.lookedUp info (hinfo info hi)
  · rw [hreq]
    exact fun msg hm => h.message msg (hmsg msg hm)
  · rw [hreq, hclient]
    exact h.returned

/-- A message is put on its way, the failure or one that the handler's reply stands behind. -/
theorem put (h : Explained es k c) (hreq : c'.req = c.req) (hclient : c'.client = c.client)
    (hinfo : c'.proc.info? = none) {msg : ReplyMsg R} (hmsg : c'.proc.msg? = some msg)
    (hok : msg.ok = true → ∃ r, msg.reply = some r ∧ Answered es k c.req r) :
    Explained es k c' := by
  constructor
  · intro info hi
    rw [hinfo] at hi
    cases hi
  · intro m hm
    rw [hmsg] at hm
    rw [hreq, ← Option.some.inj hm]
    exact hok
  · rw [hreq, hclient]
    exact h.returned

theorem fail (h : Explained es k c) : Explained es k (c.answer .failed) :=
  h.put rfl rfl rfl rfl fun hok => by cases hok

end Explained

/-- After the loop the handler's reply stands behind the message if the server is alive. -/
theorem answered_of_alive {es : List (Event E N P A R)} {s : State E N P A R} {k : Nat}
    {c : Call E N P A R} {info : Info N P} {msg : ReplyMsg R}
    (hr : Machine.run State.step State.init es = some s) (hc : s.calls[k]? = some c)
    (h : Explained es k c) (hproc : c.proc = .polled info (some msg))
    (halive : s.net.isServerDead c.req.endname info.servername info.server = false) :
    ∃ r, msg.reply = some r ∧ Answered es k c.req r := by
  have hcons := State.consistent hr hc
  simp only [Call.Consistent, hproc] at hcons
  obtain ⟨r, rfl, hdone⟩ := hcons.2.1 msg rfl
  obtain ⟨henabled, hserver⟩ := Net.isServerDead_eq_false halive
  exact ⟨r, rfl, es, [], s, c, info, (List.append_nil es).symm,
    h.lookedUp info (by rw [hproc]; rfl), hr, hc, hdone, henabled, hserver⟩

theorem explained_step {es : List (Event E N P A R)} {s : State E N P A R} {k : Nat}
    {c c' : Call E N P A R} {event : CallEvent R}
    (hr : Machine.run State.step State.init es = some s) (hc : s.calls[k]? = some c)
    (hs : c.Steps s.net event c') (h : Explained es k c) :
    Explained (es ++ [.onCall k event]) k c' := by
  cases hs with
  | handOver =>
      exact ⟨fun _ hi => (by cases hi), fun _ hm => (by cases hm), fun _ hret => by cases hret⟩
  | abandon =>
      exact ⟨(h.more _).lookedUp, (h.more _).message, fun _ hret => by cases hret⟩
  | live hproc hinfo =>
      -- the event itself is the one by which processing begins
      obtain ⟨henabled, hname, hserver⟩ := Net.readEndnameInfo_eq_some hinfo
      refine ⟨fun i hi => ?_, fun _ hm => (by cases hm), (h.more _).returned⟩
      obtain rfl := Option.some.inj hi
      exact ⟨es, [], s, rfl, hr, henabled, hname, hserver⟩
  | timer => exact (h.more _).move rfl rfl (fun _ hi => by cases hi) fun _ hm => by cases hm
  | dropRequest => exact (h.more _).fail
  | dispatch hproc =>
      exact (h.more _).move rfl rfl (fun _ hi => by rw [hproc]; exact hi) fun _ hm => by cases hm
  | handlerReturn => exact (h.more _).move rfl rfl (fun _ hi => hi) fun _ hm => hm
  | receive hproc =>
      exact (h.more _).move rfl rfl (fun _ hi => by rw [hproc]; exact hi) fun _ hm => by cases hm
  | leave hproc =>
      exact (h.more _).move rfl rfl (fun _ hi => by rw [hproc]; exact hi) fun _ hm => by cases hm
  | stay => exact h.more _
  | fail => exact (h.more _).fail
  | delay hproc halive =>
      obtain ⟨r, hreply, ha⟩ := answered_of_alive hr hc h hproc halive
      exact (h.more _).put rfl rfl rfl rfl fun _ => ⟨r, hreply, ha.more _⟩
  | send hproc halive =>
      obtain ⟨r, hreply, ha⟩ := answered_of_alive hr hc h hproc halive
      exact (h.more _).put rfl rfl rfl rfl fun _ => ⟨r, hreply, ha.more _⟩
  | fireTimer => exact (h.more _).fail
  | fireDelayed hproc =>
      exact (h.more _).put rfl rfl rfl rfl ((h.more _).message _ (by rw [hproc]; rfl))
  | @deliver msg hproc hclient =>
      refine ⟨fun _ hi => (by cases hi), fun _ hm => (by cases hm), fun reply hret => ?_⟩
      obtain ⟨hok, rfl⟩ : msg.ok = true ∧ (if msg.ok then msg.reply else none) = reply := by
        simpa using hret
      rw [if_pos hok]
      exact (h.more _).message msg (by rw [hproc]; rfl) hok
  | drain => exact (h.more _).move rfl rfl (fun _ hi => hi) fun _ hm => hm

/-- **The discipline of calls.** In every run, every request runs its handler at most once and at
most one message is sent to answer it. A call returns true only with the reply of its own handler,
run with its own arguments on the server looked up when processing began, and only if after the
handler returned there was a moment when the end was enabled and that server still registered. -/
theorem call_discipline {es : List (Event E N P A R)} {s : State E N P A R}
    (hr : Machine.run State.step State.init es = some s) {k : Nat} {c : Call E N P A R}
    (hc : s.calls[k]? = some c) :
    c.runs ≤ 1 ∧ c.sends ≤ 1 ∧
      ∀ reply, c.client = .returned true reply → ∃ r, reply = some r ∧ Answered es k c.req r := by
  have hcounts := (State.consistent hr hc).counts
  have hexplained : Explained es k c := State.call_induction
    (fun _ _ _ _ _ =>
      ⟨fun _ hi => (by cases hi), fun _ hm => (by cases hm), fun _ hret => by cases hret⟩)
    (fun _ _ _ event h => h.more event)
    (fun _ _ _ _ _ _ hr hc hs h => explained_step hr hc hs h) hr hc
  exact ⟨hcounts.1, hcounts.2, hexplained.returned⟩

/-- One call on one end to one server, answered in time. -/
def oneCall : List (Event Nat Nat Nat Nat Nat) :=
  [.onNet (.makeEnd 0), .onNet (.addServer 7 1), .onNet (.connect 0 7), .onNet (.enable 0 true),
    .call 0 "Server.Handler" 5, .onCall 0 .handOver, .onCall 0 .read, .onCall 0 .dispatch,
    .onCall 0 (.handlerReturn 6), .onCall 0 .receive, .onCall 0 (.conclude .send),
    .onCall 0 .deliver]

theorem call_discipline_oneCall :
    ∃ r, some 6 = some r ∧ Answered oneCall 0 ⟨0, "Server.Handler", 5⟩ r := by
  obtain ⟨s, hs, c, hc, hreq, hret⟩ : ∃ s, Machine.run State.step State.init oneCall = some s ∧
      ∃ c, s.calls[0]? = some c ∧ c.req = ⟨0, "Server.Handler", 5⟩ ∧
        c.client = .returned true (some 6) := ⟨_, rfl, _, rfl, rfl, rfl⟩
  rw [← hreq]
  exact (call_discipline hs hc).2.2 (some 6) hret

end RaftLab.Rpc
