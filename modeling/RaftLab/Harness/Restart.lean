import RaftLab.Rpc.Discipline

set_option autoImplicit false

/-! # Restarting a server

`ShutdownServer` and `StartServer` of `kvraft/config.go`, next to the network and its calls. A
server `i` has many instances in turn. Each writes to the `Persister` it was started with, also
after it has been shut down, since nothing really stops it. `cfg.saved[i]` points to the persister
from which the next instance starts: a copy, so that the old instance cannot write to it any more.
Ends are made, connected and switched by the events of the network, at any time.

A persister is given by all that has been saved in it and in those it was copied from, the last
being what it holds. `saves` records what the handler of each call has saved.

`ShutdownServer` takes the server off the network before it copies the persister, and `ProcessReq`
asks once more whether the server is there before it passes a reply on. Together they make that what
a handler has saved before its reply reached the client is never lost
(`acknowledged_saves_survive`).
-/

namespace RaftLab

open Rpc (Net Info Handler)

structure Instance (n : Nat) where
  home : Fin n
  persister : Nat
  deriving DecidableEq

/-- Where the tester is with a server. -/
inductive ServerPhase where
  | down
  /-- In `ShutdownServer`, after `DeleteServer`. -/
  | deleted
  /-- In `StartServer`: instance `p` runs and is not registered yet. -/
  | starting (p : Nat)
  | up (p : Nat)
  deriving DecidableEq

/-- The network with its calls, and what the tester keeps of the servers. The instances of all
servers are numbered; so are the persisters, `objects` of which have been made. -/
structure Lab (n : Nat) (E A R V : Type) where
  rpc : Rpc.State E (Fin n) Nat A R
  store : Nat → List V
  objects : Nat
  instances : List (Instance n)
  saved : Fin n → Option Nat
  phase : Fin n → ServerPhase
  saves : Nat → List V

namespace Lab

inductive Event (n : Nat) (E A R V : Type) where
  | rpc (e : Rpc.Event E (Fin n) Nat A R)
  /-- The handler of call `k` saves `v` in the persister of its instance. -/
  | save (k : Nat) (v : V)
  /-- Instance `p` saves `v` outside the handlers of calls. -/
  | write (p : Nat) (v : V)
  /-- `ShutdownServer`, up to `DeleteServer`. -/
  | shutdownServer (i : Fin n)
  /-- `ShutdownServer`: the fresh persister. -/
  | copySaved (i : Fin n)
  /-- `StartServer`, up to `StartKVServer`. -/
  | startServer (i : Fin n)
  /-- `StartServer`: the last line. -/
  | addServer (i : Fin n)

variable {n : Nat} {E A R V : Type} [DecidableEq E]

def init : Lab n E A R V where
  rpc := .init
  store _ := []
  objects := 0
  instances := []
  saved _ := none
  phase _ := .down
  saves _ := []

omit [DecidableEq E] in
/-- Save `v` in persister `o`. -/
def put (s : Lab n E A R V) (o : Nat) (v : V) : Lab n E A R V :=
  { s with store := Function.update s.store o (s.store o ++ [v]) }

omit [DecidableEq E] in
/-- `cfg.saved[i]` becomes a new persister with the given content. -/
def supersede (s : Lab n E A R V) (i : Fin n) (content : List V) : Lab n E A R V :=
  { s with
    store := Function.update s.store s.objects content
    objects := s.objects + 1
    saved := Function.update s.saved i (some s.objects) }

/-- Only the tester adds and deletes servers. -/
def isTester : Rpc.Event E (Fin n) Nat A R → Bool
  | .onNet (.addServer _ _) | .onNet (.deleteServer _) => true
  | _ => false

def stepSave (s : Lab n E A R V) (k : Nat) (v : V) : Option (Lab n E A R V) := do
  let c ← s.rpc.calls[k]?
  match c.handler with
  | .running p _ =>
      let inst ← s.instances[p]?
      pure { s.put inst.persister v with saves := Function.update s.saves k (s.saves k ++ [v]) }
  | _ => none

def stepShutdown (s : Lab n E A R V) (i : Fin n) : Option (Lab n E A R V) :=
  match s.phase i with
  | .up _ | .down => do
      let rpc ← s.rpc.step (.onNet (.deleteServer i))
      pure { s with rpc := rpc, phase := Function.update s.phase i .deleted }
  | _ => none

def stepCopySaved (s : Lab n E A R V) (i : Fin n) : Option (Lab n E A R V) :=
  match s.phase i with
  | .deleted =>
      let s' := match s.saved i with
        | some o => s.supersede i (s.store o)
        | none => s
      some { s' with phase := Function.update s.phase i .down }
  | _ => none

def stepStart (s : Lab n E A R V) (i : Fin n) : Option (Lab n E A R V) :=
  match s.phase i with
  | .down | .up _ =>
      let content := match s.saved i with
        | some o => s.store o
        | none => []
      some { s.supersede i content with
        instances := s.instances ++ [⟨i, s.objects⟩]
        phase := Function.update s.phase i (.starting s.instances.length) }
  | _ => none

def stepAddServer (s : Lab n E A R V) (i : Fin n) : Option (Lab n E A R V) :=
  match s.phase i with
  | .starting p => do
      let rpc ← s.rpc.step (.onNet (.addServer i p))
      pure { s with rpc := rpc, phase := Function.update s.phase i (.up p) }
  | _ => none

def step (s : Lab n E A R V) : Event n E A R V → Option (Lab n E A R V)
  | .rpc e => if isTester e then none else (s.rpc.step e).map (fun rpc => { s with rpc := rpc })
  | .save k v => s.stepSave k v
  | .write p v => (s.instances[p]?).map (fun inst => s.put inst.persister v)
  | .shutdownServer i => s.stepShutdown i
  | .copySaved i => s.stepCopySaved i
  | .startServer i => s.stepStart i
  | .addServer i => s.stepAddServer i

/-- A server is started only when it is shut down. -/
def Careful (s : Lab n E A R V) : Event n E A R V → Prop
  | .startServer i => s.phase i = .down
  | _ => True

instance (s : Lab n E A R V) : (e : Event n E A R V) → Decidable (Careful s e)
  | .startServer i => inferInstanceAs (Decidable (s.phase i = .down))
  | .rpc _ | .save _ _ | .write _ _ | .shutdownServer _ | .copySaved _ | .addServer _ =>
      isTrue trivial

end Lab

/-! ## One call -/

/-- The instance that runs or has run the handler. -/
def Rpc.Handler.server? {E A P R : Type} : Handler E A P R → Option P
  | .none => .none
  | .running p _ | .returned p _ _ | .done p _ _ => some p

/-- A reply is on its way to the client, or has come there. -/
def Rpc.Call.Accepted {E N P A R : Type} (c : Rpc.Call E N P A R) : Prop :=
  (∃ msg, c.proc.msg? = some msg ∧ msg.ok = true) ∨ ∃ reply, c.client = .returned true reply

theorem Rpc.Call.not_accepted_answer {E N P A R : Type} {c : Rpc.Call E N P A R}
    (h : (c.answer .failed).Accepted) : c.Accepted := by
  rcases h with ⟨msg, hmsg, hok⟩ | hret
  · cases hmsg
    cases hok
  · exact .inr hret

namespace Lab

variable {n : Nat} {E A R V : Type} {s s' : Lab n E A R V} {k : Nat}
  {c c' : Rpc.Call E (Fin n) Nat A R}

/-- The handler is done, and what it has saved is in the persister from which the next instance of
its server starts. -/
def Safe (s : Lab n E A R V) (k : Nat) (c : Rpc.Call E (Fin n) Nat A R) : Prop :=
  ∃ p req msg i own o, c.handler = .done p req msg ∧ s.instances[p]? = some ⟨i, own⟩ ∧
    s.saved i = some o ∧ ∀ v ∈ s.saves k, v ∈ s.store o

structure Good (s : Lab n E A R V) (k : Nat) (c : Rpc.Call E (Fin n) Nat A R) : Prop where
  consistent : c.Consistent
  unserved : c.handler = .none → s.saves k = []
  looked : ∀ info, c.proc.info? = some info →
    ∃ own, s.instances[info.server]? = some ⟨info.servername, own⟩
  stored : ∀ p, c.handler.server? = some p →
    ∃ i own, s.instances[p]? = some ⟨i, own⟩ ∧ ∀ v ∈ s.saves k, v ∈ s.store own
  safe : c.Accepted → s.Safe k c

/-- A step that neither touches the handler nor passes a reply on. -/
theorem Good.move (h : s.Good k c) (hcons : c'.Consistent) (hhandler : c'.handler = c.handler)
    (hlooked : ∀ info, c'.proc.info? = some info →
      ∃ own, s.instances[info.server]? = some ⟨info.servername, own⟩)
    (hacc : c'.Accepted → c.Accepted) : s.Good k c' where
  consistent := hcons
  unserved hnone := h.unserved (hhandler ▸ hnone)
  looked := hlooked
  stored := by
    rw [hhandler]
    exact h.stored
  safe ha := by
    unfold Safe
    rw [hhandler]
    exact h.safe (hacc ha)

/-- The handler goes on. No reply has been passed on before it is done. -/
theorem Good.serve (h : s.Good k c) (hcons : c'.Consistent)
    (hserver : c'.handler.server? = c.handler.server?) (hsome : c.handler.server?.isSome = true)
    (hnot : ∀ p req msg, c.handler ≠ .done p req msg)
    (hinfo : ∀ info, c'.proc.info? = some info → c.proc.info? = some info)
    (hacc : c'.Accepted → c.Accepted) : s.Good k c' where
  consistent := hcons
  unserved hnone := by
    rw [← hserver, hnone] at hsome
    cases hsome
  looked info hi := h.looked info (hinfo info hi)
  stored := by
    rw [hserver]
    exact h.stored
  safe ha := by
    obtain ⟨p, req, msg, _, _, _, hdone, -⟩ := h.safe (hacc ha)
    exact absurd hdone (hnot p req msg)

/-- `ProcessReq` passes the reply on, while the instance writes to the persister that the tester
will copy. -/
theorem Good.pass (h : s.Good k c) {info : Info (Fin n) Nat} {msg : Rpc.ReplyMsg R}
    (hproc : c.proc = .polled info (some msg))
    (hcurrent : ∀ own, s.instances[info.server]? = some ⟨info.servername, own⟩ →
      s.saved info.servername = some own)
    (hcons : c'.Consistent) (hhandler : c'.handler = c.handler)
    (hinfo : c'.proc.info? = none) : s.Good k c' where
  consistent := hcons
  unserved hnone := h.unserved (hhandler ▸ hnone)
  looked info hi := by
    rw [hinfo] at hi
    cases hi
  stored := by
    rw [hhandler]
    exact h.stored
  safe _ := by
    have hcall := h.consistent
    simp only [Rpc.Call.Consistent, hproc] at hcall
    obtain ⟨r, rfl, hdone⟩ := hcall.2.1 msg rfl
    obtain ⟨own, hinst⟩ := h.looked info (by rw [hproc]; rfl)
    obtain ⟨i, own', hinst', hstored⟩ := h.stored info.server (by rw [hdone]; rfl)
    rw [hinst] at hinst'
    cases hinst'
    exact ⟨_, _, _, _, _, _, hhandler.trans hdone, hinst, hcurrent own hinst, hstored⟩

theorem good_new {e : Rpc.ClientEnd E} {svcMeth : String} {args : A} (hsaves : s.saves k = []) :
    s.Good k (.new e svcMeth args) where
  consistent := Rpc.Call.consistent_new e svcMeth args
  unserved _ := hsaves
  looked _ hi := by cases hi
  stored _ hp := by cases hp
  safe ha := by
    rcases ha with ⟨_, hmsg, -⟩ | ⟨_, hret⟩
    · cases hmsg
    · cases hret

/-! ## What the rest of the lab does to a call -/

/-- Nothing is lost: neither from a persister nor on the way from one to the next. -/
structure Grows (s s' : Lab n E A R V) : Prop where
  instances : ∀ (p : Nat) inst, s.instances[p]? = some inst → s'.instances[p]? = some inst
  store : ∀ o, o < s.objects → ∀ v ∈ s.store o, v ∈ s'.store o
  saved : ∀ i o, s.saved i = some o → ∃ o', s'.saved i = some o' ∧ ∀ v ∈ s.store o, v ∈ s'.store o'

theorem Good.grow (h : s.Good k c) (hgrow : s.Grows s')
    (hlt : ∀ (p : Nat) inst, s.instances[p]? = some inst → inst.persister < s.objects)
    (hsaves : s'.saves k = s.saves k) : s'.Good k c where
  consistent := h.consistent
  unserved hnone := hsaves.trans (h.unserved hnone)
  looked info hi := by
    obtain ⟨own, hinst⟩ := h.looked info hi
    exact ⟨own, hgrow.instances _ _ hinst⟩
  stored p hp := by
    obtain ⟨i, own, hinst, hstored⟩ := h.stored p hp
    refine ⟨i, own, hgrow.instances _ _ hinst, ?_⟩
    rw [hsaves]
    exact fun v hv => hgrow.store own (hlt _ _ hinst) v (hstored v hv)
  safe ha := by
    obtain ⟨p, req, msg, i, own, o, hdone, hinst, hsaved, hkept⟩ := h.safe ha
    obtain ⟨o', hsaved', hmore⟩ := hgrow.saved i o hsaved
    refine ⟨p, req, msg, i, own, o', hdone, hgrow.instances _ _ hinst, hsaved', ?_⟩
    rw [hsaves]
    exact fun v hv => hmore v (hkept v hv)

theorem grows_put (s : Lab n E A R V) (o : Nat) (v : V) : s.Grows (s.put o v) := by
  have hstore : ∀ o', ∀ w ∈ s.store o', w ∈ (s.put o v).store o' := by
    intro o' w hw
    by_cases ho : o' = o
    · subst ho
      show w ∈ Function.update s.store o' _ o'
      rw [Function.update_self]
      exact List.mem_append_left _ hw
    · show w ∈ Function.update s.store o _ o'
      rwa [Function.update_of_ne ho]
  exact ⟨fun _ _ h => h, fun o' _ => hstore o', fun i o' h => ⟨o', h, hstore o'⟩⟩

/-- A fresh persister with the content of the one it supersedes. -/
theorem grows_supersede {i : Fin n} {content : List V}
    (hlt : ∀ i o, s.saved i = some o → o < s.objects)
    (hcontent : ∀ o, s.saved i = some o → content = s.store o) :
    s.Grows (s.supersede i content) := by
  have hold : ∀ o, o < s.objects → (s.supersede i content).store o = s.store o :=
    fun o ho => Function.update_of_ne (Nat.ne_of_lt ho) _ _
  refine ⟨fun _ _ h => h, fun o ho v hv => by rwa [hold o ho], fun j o hj => ?_⟩
  by_cases hji : j = i
  · subst hji
    refine ⟨s.objects, Function.update_self .., fun v hv => ?_⟩
    show v ∈ Function.update s.store s.objects content s.objects
    rwa [Function.update_self, hcontent o hj]
  · exact ⟨o, (Function.update_of_ne hji _ _).trans hj, fun v hv => by rwa [hold o (hlt j o hj)]⟩

/-! ## The invariant -/

structure Sound (s : Lab n E A R V) : Prop where
  saved_lt : ∀ i o, s.saved i = some o → o < s.objects
  instance_lt : ∀ (p : Nat) inst, s.instances[p]? = some inst → inst.persister < s.objects
  /-- A running instance writes to `cfg.saved[i]`. -/
  current : ∀ i p, s.phase i = .up p ∨ s.phase i = .starting p →
    ∃ own, s.instances[p]? = some ⟨i, own⟩ ∧ s.saved i = some own
  registered : ∀ i p, s.rpc.net.servers i = some p → s.phase i = .up p
  unused : ∀ k, s.rpc.calls.length ≤ k → s.saves k = []
  calls : ∀ (k : Nat) c, s.rpc.calls[k]? = some c → s.Good k c

theorem sound_init : Sound (init : Lab n E A R V) where
  saved_lt _ _ h := by cases h
  instance_lt _ _ h := by cases h
  current _ _ h := by rcases h with h | h <;> cases h
  registered _ _ h := by cases h
  unused _ _ := rfl
  calls _ _ h := by cases h

theorem Sound.good_step (h : s.Sound) {event : Rpc.CallEvent R} (hc : s.Good k c)
    (hs : c.Steps s.rpc.net event c') : s.Good k c' := by
  have hcons := hc.consistent.step hs
  -- whoever is registered is the instance that writes to `cfg.saved[i]`
  have hcurrent : ∀ {i p}, s.rpc.net.servers i = some p →
      ∃ own, s.instances[p]? = some ⟨i, own⟩ ∧ s.saved i = some own :=
    fun hserver => h.current _ _ (.inl (h.registered _ _ hserver))
  have hpass : ∀ {info : Info (Fin n) Nat},
      s.rpc.net.isServerDead c.req.endname info.servername info.server = false →
      ∀ own, s.instances[info.server]? = some ⟨info.servername, own⟩ →
        s.saved info.servername = some own := by
    intro info halive own hinst
    obtain ⟨own', hinst', hsaved⟩ := hcurrent (Net.isServerDead_eq_false halive).2
    rw [hinst] at hinst'
    cases hinst'
    exact hsaved
  cases hs with
  | handOver =>
      refine hc.move hcons rfl (fun _ hi => by cases hi) fun ha => ?_
      rcases ha with ⟨_, hmsg, -⟩ | ⟨_, hret⟩
      · cases hmsg
      · cases hret
  | abandon =>
      refine hc.move hcons rfl hc.looked fun ha => ha.imp_right ?_
      rintro ⟨_, hret⟩
      cases hret
  | live hproc hinfo =>
      obtain ⟨-, -, hserver⟩ := Net.readEndnameInfo_eq_some hinfo
      obtain ⟨own, hinst, -⟩ := hcurrent hserver
      refine hc.move hcons rfl (fun info hi => ?_) fun ha => ha.imp_left ?_
      · cases hi
        exact ⟨own, hinst⟩
      · rintro ⟨_, hmsg, -⟩
        cases hmsg
  | timer =>
      refine hc.move hcons rfl (fun _ hi => by cases hi) fun ha => ha.imp_left ?_
      rintro ⟨_, hmsg, -⟩
      cases hmsg
  | dropRequest | fail | fireTimer =>
      exact hc.move hcons rfl (fun _ hi => by cases hi) Rpc.Call.not_accepted_answer
  | @dispatch info hproc =>
      have hlive := hc.consistent
      simp only [Rpc.Call.Consistent, hproc] at hlive
      have hsaves := hc.unserved hlive.2.1
      obtain ⟨own, hinst⟩ := hc.looked info (by rw [hproc]; rfl)
      refine ⟨hcons, fun hnone => (by cases hnone), fun i hi => ?_, fun p hp => ?_, fun ha => ?_⟩
      · exact hc.looked i (by rw [hproc]; exact hi)
      · cases hp
        exact ⟨_, own, hinst, by rw [hsaves]; exact fun _ hv => absurd hv List.not_mem_nil⟩
      · rcases ha with ⟨_, hmsg, -⟩ | ⟨_, hret⟩
        · cases hmsg
        · rw [hlive.1] at hret
          cases hret
  | handlerReturn hhandler =>
      exact hc.serve hcons (by rw [hhandler]; rfl) (by rw [hhandler]; rfl)
        (fun _ _ _ hdone => by rw [hhandler] at hdone; cases hdone) (fun _ hi => hi) fun ha => ha
  | receive hproc hhandler =>
      refine hc.serve hcons (by rw [hhandler]; rfl) (by rw [hhandler]; rfl)
        (fun _ _ _ hdone => by rw [hhandler] at hdone; cases hdone)
        (fun _ hi => by rw [hproc]; exact hi) fun ha => ha.imp_left ?_
      rintro ⟨_, hmsg, -⟩
      cases hmsg
  | leave hproc =>
      refine hc.move hcons rfl (fun i hi => hc.looked i (by rw [hproc]; exact hi))
        fun ha => ha.imp_left ?_
      rintro ⟨_, hmsg, -⟩
      cases hmsg
  | stay => exact hc
  | delay hproc halive => exact hc.pass hproc (hpass halive) hcons rfl rfl
  | send hproc halive => exact hc.pass hproc (hpass halive) hcons rfl rfl
  | fireDelayed hproc =>
      refine hc.move hcons rfl (fun _ hi => by cases hi) fun ha => ha.imp_left ?_
      rintro ⟨m, hmsg, hok⟩
      exact ⟨m, by rw [hproc]; exact hmsg, hok⟩
  | @deliver msg hproc =>
      refine hc.move hcons rfl (fun _ hi => by cases hi) fun ha => ?_
      rcases ha with ⟨_, hmsg, -⟩ | ⟨reply, hret⟩
      · cases hmsg
      · have hok : msg.ok = true := (by simpa using hret : msg.ok = true ∧ _).1
        exact .inl ⟨msg, by rw [hproc]; rfl, hok⟩
  | drain _ hhandler =>
      exact hc.serve hcons (by rw [hhandler]; rfl) (by rw [hhandler]; rfl)
        (fun _ _ _ hdone => by rw [hhandler] at hdone; cases hdone) (fun _ hi => hi) fun ha => ha

/-! ## The steps of the lab -/

theorem good_rpc {rpc : Rpc.State E (Fin n) Nat A R} (h : s.Good k c) :
    ({ s with rpc := rpc } : Lab n E A R V).Good k c :=
  ⟨h.consistent, h.unserved, h.looked, h.stored, h.safe⟩

variable [DecidableEq E]

theorem net_step_servers {rn rn' : Net E (Fin n) Nat} {ev : Rpc.NetEvent E (Fin n) Nat}
    (hs : rn.step ev = some rn')
    (hnot : isTester (.onNet ev : Rpc.Event E (Fin n) Nat A R) = false) :
    rn'.servers = rn.servers := by
  cases ev with
  | addServer | deleteServer => cases hnot
  | makeEnd endname =>
      simp only [Net.step] at hs
      split at hs <;> cases hs
      rfl
  | connect | enable | reliable | longReordering =>
      cases hs
      rfl
  | cleanup | dispatcherExit =>
      simp only [Net.step] at hs
      split_ifs at hs
      cases hs
      rfl

theorem Sound.rpc (h : s.Sound) {e : Rpc.Event E (Fin n) Nat A R} (hnot : isTester e = false)
    {rpc : Rpc.State E (Fin n) Nat A R} (hs : s.rpc.step e = some rpc) :
    ({ s with rpc := rpc } : Lab n E A R V).Sound := by
  rcases Rpc.State.step_cases hs with ⟨endname, ce, svcMeth, args, rfl, -, rfl⟩ |
    ⟨j, ev, d, d', rfl, hd, hsteps, rfl⟩ | ⟨ev, rn, rfl, hrn, rfl⟩
  · refine { h with unused := fun k hk => h.unused k ?_, calls := fun k c hc => good_rpc ?_ }
    · have hlen : (s.rpc.calls ++ [Rpc.Call.new ce svcMeth args]).length ≤ k := hk
      rw [List.length_append] at hlen
      omega
    · rcases Records.getElem?_concat_cases hc with hold | ⟨rfl, rfl⟩
      · exact h.calls k c hold
      · exact good_new (h.unused _ (Nat.le_refl _))
  · refine { h with unused := fun k hk => h.unused k ?_, calls := fun k c hc => good_rpc ?_ }
    · have hlen : (s.rpc.calls.set j d').length ≤ k := hk
      rwa [List.length_set] at hlen
    · rcases Records.getElem?_set_cases hd hc with ⟨rfl, rfl⟩ | ⟨-, hold⟩
      · exact h.good_step (h.calls k d hd) hsteps
      · exact h.calls k c hold
  · refine { h with registered := ?_, calls := fun k c hc => good_rpc (h.calls k c hc) }
    show ∀ i p, rn.servers i = some p → s.phase i = .up p
    rw [net_step_servers hrn hnot]
    exact h.registered

omit [DecidableEq E] in
theorem Sound.put (h : s.Sound) (o : Nat) (v : V) : (s.put o v).Sound :=
  { h with calls := fun k c hc => (h.calls k c hc).grow (grows_put s o v) h.instance_lt rfl }

omit [DecidableEq E] in
/-- A handler saves: it has not returned yet. -/
theorem Sound.save (h : s.Sound) {v : V} {p own : Nat} {req : Rpc.ReqMsg E A} {i : Fin n}
    (hc : s.rpc.calls[k]? = some c) (hhandler : c.handler = .running p req)
    (hinst : s.instances[p]? = some ⟨i, own⟩) :
    Sound { s.put own v with saves := Function.update s.saves k (s.saves k ++ [v]) } := by
  have hput := h.put own v
  refine { hput with unused := fun j hj => ?_, calls := fun j d hd => ?_ }
  · have hne : j ≠ k := by
      rintro rfl
      exact absurd (Records.lt_length_of_getElem? hc) (Nat.not_lt.mpr hj)
    exact (Function.update_of_ne hne _ _).trans (h.unused j hj)
  · by_cases hj : j = k
    · subst hj
      obtain rfl : c = d := Option.some.inj (hc.symm.trans hd)
      have hgood := hput.calls j c hc
      refine ⟨hgood.consistent, fun hnone => ?_, hgood.looked, fun q hq => ?_, fun ha => ?_⟩
      · rw [hhandler] at hnone
        cases hnone
      · rw [hhandler] at hq
        cases hq
        obtain ⟨i', own', hinst', hstored⟩ := (h.calls j c hc).stored p (by rw [hhandler]; rfl)
        rw [hinst] at hinst'
        cases hinst'
        refine ⟨i, own, hinst, ?_⟩
        show ∀ w ∈ Function.update s.saves j _ j, w ∈ Function.update s.store own _ own
        rw [Function.update_self, Function.update_self]
        intro w hw
        exact List.mem_append.mpr ((List.mem_append.mp hw).imp_left (hstored w))
      · obtain ⟨_, _, _, _, _, _, hdone, -⟩ := hgood.safe ha
        rw [hhandler] at hdone
        cases hdone
    · exact (hput.calls j d hd).grow ⟨fun _ _ h => h, fun _ _ _ h => h, fun _ o h =>
        ⟨o, h, fun _ h => h⟩⟩ hput.instance_lt (Function.update_of_ne hj _ _)

omit [DecidableEq E] in
/-- `cfg.saved[i]` is replaced by a copy while no instance of server `i` is running. -/
theorem Sound.supersede (h : s.Sound) {i : Fin n} (content : List V)
    (hdown : ∀ p, s.phase i ≠ .up p) (hstart : ∀ p, s.phase i ≠ .starting p)
    (hcontent : ∀ o, s.saved i = some o → content = s.store o) : (s.supersede i content).Sound where
  saved_lt := by
    refine (Function.forall_update_iff s.saved
      (p := fun _ x => ∀ o, x = some o → o < s.objects + 1)).mpr ⟨?_, fun j _ o hj => ?_⟩
    · rintro _ ⟨⟩
      exact Nat.lt_succ_self _
    · exact Nat.lt_succ_of_lt (h.saved_lt j o hj)
  instance_lt p inst hp := Nat.lt_succ_of_lt (h.instance_lt p inst hp)
  current j p hp := by
    have hji : j ≠ i := by
      rintro rfl
      exact hp.elim (hdown p) (hstart p)
    obtain ⟨own, hinst, hsaved⟩ := h.current j p hp
    exact ⟨own, hinst, (Function.update_of_ne hji _ _).trans hsaved⟩
  registered := h.registered
  unused := h.unused
  calls k c hc := (h.calls k c hc).grow (grows_supersede h.saved_lt hcontent) h.instance_lt rfl

omit [DecidableEq E] in
/-- The phase of a server changes while it is not registered. -/
theorem Sound.setPhase (h : s.Sound) {i : Fin n} {phase : ServerPhase}
    (hout : s.rpc.net.servers i = none) (hcurrent : ∀ p, phase = .up p ∨ phase = .starting p →
      ∃ own, s.instances[p]? = some ⟨i, own⟩ ∧ s.saved i = some own) :
    Sound { s with phase := Function.update s.phase i phase } := by
  refine { h with
    current := ?_
    registered := ?_
    calls := fun k c hc => { h.calls k c hc with safe := (h.calls k c hc).safe } }
  · exact (Function.forall_update_iff s.phase (p := fun j x => ∀ p, x = .up p ∨ x = .starting p →
      ∃ own, s.instances[p]? = some ⟨j, own⟩ ∧ s.saved j = some own)).mpr
      ⟨hcurrent, fun j _ => h.current j⟩
  · refine (Function.forall_update_iff s.phase
      (p := fun j x => ∀ p, s.rpc.net.servers j = some p → x = .up p)).mpr
      ⟨fun p hp => ?_, fun j _ => h.registered j⟩
    rw [hout] at hp
    cases hp

omit [DecidableEq E] in
theorem Sound.setServer (h : s.Sound) {i : Fin n} (server : Option Nat)
    (hup : ∀ p, server = some p → s.phase i = .up p) :
    Sound { s with rpc :=
      { s.rpc with net :=
        { s.rpc.net with servers := Function.update s.rpc.net.servers i server } } } := by
  refine { h with registered := ?_, calls := fun k c hc => good_rpc (h.calls k c hc) }
  exact (Function.forall_update_iff s.rpc.net.servers
    (p := fun j x => ∀ p, x = some p → s.phase j = .up p)).mpr ⟨hup, fun j _ => h.registered j⟩

omit [DecidableEq E] in
theorem Sound.addInstance (h : s.Sound) (inst : Instance n) (hlt : inst.persister < s.objects) :
    Sound { s with instances := s.instances ++ [inst] } := by
  have hold : ∀ (p : Nat) x, s.instances[p]? = some x → (s.instances ++ [inst])[p]? = some x := by
    intro p x hp
    rwa [List.getElem?_append_left (Records.lt_length_of_getElem? hp)]
  refine { h with instance_lt := fun p x hp => ?_, current := fun i p hp => ?_, calls := ?_ }
  · rcases Records.getElem?_concat_cases hp with hp | ⟨-, rfl⟩
    · exact h.instance_lt p x hp
    · exact hlt
  · obtain ⟨own, hinst, hsaved⟩ := h.current i p hp
    exact ⟨own, hold p _ hinst, hsaved⟩
  · exact fun k c hc => (h.calls k c hc).grow ⟨hold, fun _ _ _ hv => hv, fun _ o ho =>
      ⟨o, ho, fun _ hv => hv⟩⟩ h.instance_lt rfl

omit [DecidableEq E] in
theorem Sound.unregistered (h : s.Sound) {i : Fin n} (hphase : ∀ p, s.phase i ≠ .up p) :
    s.rpc.net.servers i = none := by
  cases hserver : s.rpc.net.servers i with
  | none => rfl
  | some p => exact absurd (h.registered i p hserver) (hphase p)

theorem Sound.step {e : Event n E A R V} (h : s.Sound) (hok : Careful s e)
    (hs : s.step e = some s') : s'.Sound := by
  cases e with
  | rpc e =>
      simp only [Lab.step] at hs
      split_ifs at hs with htester
      obtain ⟨rpc, hrpc, rfl⟩ := Option.map_eq_some_iff.mp hs
      exact h.rpc (by simpa using htester) hrpc
  | save k v =>
      obtain ⟨c, hc, hs⟩ := Option.bind_eq_some_iff.mp hs
      split at hs
      · rename_i p req hhandler
        obtain ⟨⟨i, own⟩, hinst, hs⟩ := Option.bind_eq_some_iff.mp hs
        cases hs
        exact h.save hc hhandler hinst
      · cases hs
  | write p v =>
      obtain ⟨inst, -, rfl⟩ := Option.map_eq_some_iff.mp hs
      exact h.put _ v
  | shutdownServer i =>
      simp only [Lab.step, stepShutdown] at hs
      split at hs
      case h_1 | h_2 =>
        cases hs
        exact (h.setServer none nofun).setPhase (Function.update_self ..)
          (fun p hp => by rcases hp with hp | hp <;> cases hp)
      case h_3 => cases hs
  | copySaved i =>
      simp only [Lab.step, stepCopySaved] at hs
      split at hs
      · rename_i hphase
        have hout := h.unregistered (i := i) (by rw [hphase]; nofun)
        have hdown : ∀ p, ServerPhase.down = .up p ∨ ServerPhase.down = .starting p → False := by
          rintro p (hp | hp) <;> cases hp
        cases hs
        cases hsaved : s.saved i with
        | none => exact h.setPhase hout fun p hp => (hdown p hp).elim
        | some o =>
            have hcopy := h.supersede (i := i) (s.store o) (by rw [hphase]; nofun)
              (by rw [hphase]; nofun) (by rw [hsaved]; rintro _ ⟨⟩; rfl)
            exact hcopy.setPhase hout fun p hp => (hdown p hp).elim
      · cases hs
  | startServer i =>
      have hphase : s.phase i = .down := hok
      have hout := h.unregistered (i := i) (by rw [hphase]; nofun)
      simp only [Lab.step, stepStart, hphase] at hs
      cases hs
      have hcopy := h.supersede (i := i) (match s.saved i with
        | some o => s.store o
        | none => []) (by rw [hphase]; nofun) (by rw [hphase]; nofun)
        (fun o ho => by rw [ho])
      refine (hcopy.addInstance ⟨i, s.objects⟩ (Nat.lt_succ_self _)).setPhase hout ?_
      rintro p (hp | hp)
      · cases hp
      · cases hp
        refine ⟨s.objects, ?_, Function.update_self ..⟩
        show (s.instances ++ [_])[s.instances.length]? = _
        rw [List.getElem?_concat_length]
  | addServer i =>
      simp only [Lab.step, stepAddServer] at hs
      split at hs
      · rename_i p hphase
        have hout := h.unregistered (i := i) (by rw [hphase]; nofun)
        cases hs
        have hup : Sound { s with phase := Function.update s.phase i (.up p) } := by
          refine h.setPhase hout fun q hq => ?_
          rcases hq with hq | hq
          · cases hq
            exact h.current i p (.inr hphase)
          · cases hq
        exact hup.setServer (some p) (by rintro _ ⟨⟩; exact Function.update_self ..)
      · cases hs

/-- The only server of a lab of one. -/
def solo : Fin 1 := ⟨0, Nat.one_pos⟩

/-- The server's first instance, with an end to it and a call on its way to the handler. -/
def dispatched : List (Event 1 Nat Unit Nat Nat) :=
  [.startServer solo, .addServer solo, .rpc (.onNet (.makeEnd 5)),
   .rpc (.onNet (.connect 5 solo)), .rpc (.onNet (.enable 5 true)),
   .rpc (.call 5 "KVServer.PutAppend" ()), .rpc (.onCall 0 .handOver), .rpc (.onCall 0 .read),
   .rpc (.onCall 0 .dispatch)]

/-- Started over a running instance, a server can lose what the old one acknowledges afterwards. -/
theorem start_over_running_loses : ∃ s c,
    Machine.run Lab.step init
      (dispatched ++ [.startServer solo, .save 0 7, .rpc (.onCall 0 (.handlerReturn 1)),
        .rpc (.onCall 0 .receive), .rpc (.onCall 0 (.conclude .send)),
        .rpc (.onCall 0 .deliver), .addServer solo]) = some s ∧
      s.rpc.calls[0]? = some c ∧ c.client = .returned true (some 1) ∧ s.saves 0 = [7] ∧
      s.saved solo = some 1 ∧ s.store 1 = [] :=
  ⟨_, _, rfl, rfl, rfl, rfl, rfl, rfl⟩

end Lab

end RaftLab
