import RaftLab.KV.Clerk
import RaftLab.KV.History

set_option autoImplicit false

/-! # Exactly-once writes and fresh reads

The invariant of the system of `KV/Clerk.lean`, in two parts.

* `Issued`: every request, every started command and every entry of the log stems from a
  clerk: it carries the clerk's id and a sequence number below the current one, or it is the
  call the clerk is in. A call below the current one has been committed. The entries of a
  client stand in sequence, and those of the current call after the point where it began.
* `Served`: the tables of a server are those of the entries it has consumed; a closed channel
  belongs to an index that has been consumed; a reply that a clerk may still accept is backed
  by an entry of the log.

A returned call then has its entry, the first entry of a request takes effect, and no other
entry of it does.
-/

namespace RaftLab

open Tables (Reflects)

/-! ## Clients -/

namespace Client

/-- The call a client is in, as a request. -/
def current? (cl : Client) : Option Request :=
  cl.pending.map (fun pd => cl.clerk.request pd.call)

/-- The request is an earlier one of the client, or the current one. -/
structure Issued (cl : Client) (r : Request) : Prop where
  clientID : r.clientID = cl.clerk.id
  pos : 1 ≤ r.seqNo
  old_or_current : r.seqNo < cl.clerk.seq ∨ cl.current? = some r

variable {cl : Client} {r : Request}

theorem seqNo_of_current (h : cl.current? = some r) :
    r.clientID = cl.clerk.id ∧ r.seqNo = cl.clerk.seq := by
  obtain ⟨pd, -, rfl⟩ := Option.map_eq_some_iff.mp h
  exact ⟨Clerk.request_clientID _ _, Clerk.request_seqNo _ _⟩

theorem Issued.seqNo_le (h : cl.Issued r) : r.seqNo ≤ cl.clerk.seq := by
  rcases h.old_or_current with hlt | hcur
  · omega
  · rw [(seqNo_of_current hcur).2]

theorem Issued.current (h : cl.Issued r) (hs : r.seqNo = cl.clerk.seq) :
    cl.current? = some r := by
  rcases h.old_or_current with hlt | hcur
  · omega
  · exact hcur

theorem current?_eq {cl' : Client} {pd pd' : Pending} (h : cl.pending = some pd)
    (h' : cl'.pending = some pd')
    (hr : cl'.clerk.request pd'.call = cl.clerk.request pd.call) :
    cl'.current? = cl.current? := by
  rw [current?, current?, h, h']
  exact congrArg some hr

/-- Between two iterations of a call nothing changes for the requests. -/
theorem Issued.of_same {cl' : Client} (h : cl.Issued r) (hid : cl'.clerk.id = cl.clerk.id)
    (hseq : cl'.clerk.seq = cl.clerk.seq) (hcur : cl'.current? = cl.current?) :
    cl'.Issued r :=
  ⟨by rw [hid]; exact h.clientID, h.pos, by rw [hseq, hcur]; exact h.old_or_current⟩

/-- What the log and the remote calls hold of a client: its earlier requests are committed,
the entries of its current call are not older than the call, and the remote call it waits
for is one of its current call. -/
structure Ok (log : List (Option Op)) (requests : List Request) (cl : Client) : Prop where
  seq : 1 ≤ cl.clerk.seq
  logged : ∀ σ, 1 ≤ σ → σ < cl.clerk.seq → LoggedBefore log log.length cl.clerk.id σ
  began_le : ∀ pd, cl.pending = some pd → pd.began ≤ log.length
  began : ∀ pd, cl.pending = some pd → ∀ j op, log[j]? = some (some op) →
    op.clientID = cl.clerk.id → op.seqNo = cl.clerk.seq → pd.began ≤ j
  rpc : ∀ pd k, cl.pending = some pd → pd.rpc = some k →
    requests[k]? = some (cl.clerk.request pd.call)

/-- The clerk goes on with its call, under the same number. -/
theorem Ok.sameCall {log : List (Option Op)} {requests requests' : List Request} {pd : Pending}
    {clerk : Clerk} {rpc : Option Nat} (h : cl.Ok log requests) (hpd : cl.pending = some pd)
    (hid : clerk.id = cl.clerk.id) (hseq : clerk.seq = cl.clerk.seq)
    (hrpc : ∀ k, rpc = some k → requests'[k]? = some (clerk.request pd.call)) :
    Ok log requests' { clerk := clerk, pending := some { pd with rpc := rpc } } where
  seq := by
    rw [hseq]
    exact h.seq
  logged := by
    rw [hseq, hid]
    exact h.logged
  began_le := by
    rintro pd' ⟨⟩
    exact h.began_le pd hpd
  began := by
    rw [hseq, hid]
    rintro pd' ⟨⟩
    exact h.began pd hpd
  rpc := by
    rintro pd' k ⟨⟩
    exact hrpc k

/-- An entry more. -/
theorem Ok.commit {log : List (Option Op)} {requests : List Request} (h : cl.Ok log requests)
    (command : Option Op) : cl.Ok (log ++ [command]) requests := by
  have hlen : (log ++ [command]).length = log.length + 1 := by simp
  refine { h with logged := ?_, began_le := ?_, began := ?_ }
  · intro σ hσ hlt
    obtain ⟨i, op, hi, hrest⟩ := (h.logged σ hσ hlt).append [command]
    exact ⟨i, op, by omega, hrest⟩
  · intro pd hpd
    have hle := h.began_le pd hpd
    omega
  · intro pd hpd j op hj hc hs
    rcases Records.getElem?_concat_cases hj with hold | ⟨rfl, -⟩
    · exact h.began pd hpd j op hold hc hs
    · exact h.began_le pd hpd

/-- Remote calls more. -/
theorem Ok.send {log : List (Option Op)} {requests : List Request} (h : cl.Ok log requests)
    (more : List Request) : cl.Ok log (requests ++ more) :=
  { h with rpc := fun pd k hpd hk => getElem?_append_of_eq_some (h.rpc pd k hpd hk) more }

end Client

namespace System

variable {ns nc : Nat} {s s' : System ns nc}

/-- The requests of the remote calls. -/
def requests (s : System ns nc) : List Request := s.calls.map RemoteCall.request

/-- Where requests, started commands and entries come from. -/
structure Issued (s : System ns nc) : Prop where
  ids : ∀ c c', (s.clients c).clerk.id = (s.clients c').clerk.id → c = c'
  clients : ∀ c, (s.clients c).Ok s.log s.requests
  requests : ∀ r ∈ s.requests, ∃ c, (s.clients c).Issued r
  started : ∀ op ∈ s.started, ∃ c r, (s.clients c).Issued r ∧ op = r.cmd
  entries : ∀ op, some op ∈ s.log → op ∈ s.started
  inSequence : InSequence s.log

namespace Issued

/-- A command with the number of the current call is the command of the current call. -/
theorem eq_of_current {c : Fin nc} {r : Request} {op : Op} (h : s.Issued)
    (hcur : (s.clients c).current? = some r) (hop : op ∈ s.started)
    (hc : op.clientID = r.clientID) (hs : op.seqNo = r.seqNo) : op = r.cmd := by
  obtain ⟨c', r', hr', rfl⟩ := h.started op hop
  obtain ⟨hid, hseq⟩ := Client.seqNo_of_current hcur
  rw [Request.cmd_clientID] at hc
  rw [Request.cmd_seqNo] at hs
  obtain rfl : c' = c := h.ids c' c (by rw [← hr'.clientID, hc, hid])
  have hcur' := hr'.current (by rw [hs, hseq])
  rw [hcur] at hcur'
  rw [Option.some.inj hcur']

/-- No command has a number beyond the current one. -/
theorem seqNo_le {c : Fin nc} {op : Op} (h : s.Issued) (hop : op ∈ s.started)
    (hc : op.clientID = (s.clients c).clerk.id) : op.seqNo ≤ (s.clients c).clerk.seq := by
  obtain ⟨c', r', hr', rfl⟩ := h.started op hop
  rw [Request.cmd_clientID] at hc
  obtain rfl : c' = c := h.ids c' c (by rw [← hr'.clientID, hc])
  rw [Request.cmd_seqNo]
  exact hr'.seqNo_le

/-- Steps that leave the clients, the log and the requests alone. -/
theorem of_eq (h : s.Issued) (hlog : s'.log = s.log) (hstart : s'.started = s.started)
    (hcl : s'.clients = s.clients) (hreq : s'.requests = s.requests) : s'.Issued := by
  constructor
  case ids => rw [hcl]; exact h.ids
  case clients => rw [hcl, hlog, hreq]; exact h.clients
  case requests => rw [hcl, hreq]; exact h.requests
  case started => rw [hcl, hstart]; exact h.started
  case entries => rw [hlog, hstart]; exact h.entries
  case inSequence => rw [hlog]; exact h.inSequence

/-- A handler moves on. -/
theorem setHandler {k : Nat} {call : RemoteCall ns} {hd : Handler} (h : s.Issued)
    (hk : s.calls[k]? = some call) : (s.setHandler k call hd).Issued :=
  h.of_eq rfl rfl rfl (Records.map_set_eq hk rfl)

theorem register {k : Nat} {call : RemoteCall ns} {index : Int} {term : Nat} (h : s.Issued)
    (hk : s.calls[k]? = some call) : (s.register k call index term).Issued :=
  h.of_eq rfl rfl rfl (Records.map_set_eq hk rfl)

/-- A started command is the command of a request. -/
theorem start {r : Request} (h : s.Issued) (hr : r ∈ s.requests) :
    { s with started := s.started ++ [r.cmd] }.Issued := by
  refine { h with started := ?_, entries := ?_ }
  · intro op hop
    rcases List.mem_append.mp hop with hold | hnew
    · exact h.started op hold
    · obtain ⟨c, hc⟩ := h.requests r hr
      exact ⟨c, r, hc, List.mem_singleton.mp hnew⟩
  · intro op hop
    exact List.mem_append_left _ (h.entries op hop)

/-- A new entry has its client's earlier requests before it. -/
theorem commit {command : Option Op} (h : s.Issued)
    (hs : s.stepCommit command = some s') : s'.Issued := by
  obtain ⟨hmem, rfl⟩ := stepCommit_eq_some hs
  refine { h with clients := ?_, entries := ?_, inSequence := ?_ }
  · exact fun c => (h.clients c).commit command
  · intro op hop
    rcases List.mem_append.mp hop with hold | hnew
    · exact h.entries op hold
    · exact hmem op (List.mem_singleton.mp hnew).symm
  · intro j op hj σ hσ hlt
    rcases Records.getElem?_concat_cases hj with hold | ⟨rfl, hlast⟩
    · exact (h.inSequence j op hold σ hσ hlt).append _
    · obtain ⟨c, r, hr, rfl⟩ := h.started op (hmem op hlast)
      have hle := hr.seqNo_le
      rw [Request.cmd_seqNo] at hlt
      have hbefore := (h.clients c).logged σ hσ (by omega)
      rw [Request.cmd_clientID, hr.clientID]
      exact hbefore.append _

/-- One client changes, and remote calls of its own may be added. -/
theorem setClient {c : Fin nc} {cl : Client} (more : List (RemoteCall ns)) (h : s.Issued)
    (hid : cl.clerk.id = (s.clients c).clerk.id)
    (hmono : ∀ r, (s.clients c).Issued r → cl.Issued r)
    (hmore : ∀ call ∈ more, cl.Issued call.request)
    (hok : cl.Ok s.log (s.requests ++ more.map RemoteCall.request)) :
    { s.setClient c cl with calls := s.calls ++ more }.Issued := by
  have hreqs : ({ s.setClient c cl with calls := s.calls ++ more } : System ns nc).requests
      = s.requests ++ more.map RemoteCall.request := List.map_append
  have hids : ∀ d, (Function.update s.clients c cl d).clerk.id = (s.clients d).clerk.id :=
    (Function.forall_update_iff s.clients
      (p := fun d x => x.clerk.id = (s.clients d).clerk.id)).mpr ⟨hid, fun _ _ => rfl⟩
  have hiss : ∀ d, ∀ r, (s.clients d).Issued r → (Function.update s.clients c cl d).Issued r :=
    (Function.forall_update_iff s.clients
      (p := fun d x => ∀ r, (s.clients d).Issued r → x.Issued r)).mpr ⟨hmono, fun _ _ _ hr => hr⟩
  constructor
  case ids =>
    intro d d' heq
    exact h.ids d d' ((hids d).symm.trans (heq.trans (hids d')))
  case clients =>
    intro d
    rw [hreqs]
    exact (Function.forall_update_iff s.clients
      (p := fun _ x => x.Ok s.log (s.requests ++ more.map RemoteCall.request))).mpr
        ⟨hok, fun d _ => (h.clients d).send _⟩ d
  case requests =>
    intro r hr
    rw [hreqs] at hr
    rcases List.mem_append.mp hr with hold | hnew
    · obtain ⟨d, hd⟩ := h.requests r hold
      exact ⟨d, hiss d r hd⟩
    · obtain ⟨call, hcall, rfl⟩ := List.mem_map.mp hnew
      refine ⟨c, ?_⟩
      show (Function.update s.clients c cl c).Issued call.request
      rw [Function.update_self]
      exact hmore call hcall
  case started =>
    intro op hop
    obtain ⟨d, r, hr, rfl⟩ := h.started op hop
    exact ⟨d, r, hiss d r hr, rfl⟩
  case entries => exact h.entries
  case inSequence => exact h.inSequence

/-- One client changes and sends nothing. -/
theorem setClient_only {c : Fin nc} {cl : Client} (h : s.Issued)
    (hid : cl.clerk.id = (s.clients c).clerk.id)
    (hmono : ∀ r, (s.clients c).Issued r → cl.Issued r) (hok : cl.Ok s.log s.requests) :
    (s.setClient c cl).Issued := by
  have hset := h.setClient [] hid hmono (fun call hcall => by cases hcall)
    (by rw [List.map_nil, List.append_nil]; exact hok)
  rw [List.append_nil] at hset
  exact hset

/-- An idle client has no request with its current number. -/
theorem lt_of_idle {c : Fin nc} {r : Request} (h : s.Issued)
    (hidle : (s.clients c).pending = none) (hr : ∃ c', (s.clients c').Issued r)
    (hid : r.clientID = (s.clients c).clerk.id) : r.seqNo < (s.clients c).clerk.seq := by
  obtain ⟨c', hr⟩ := hr
  obtain rfl : c' = c := h.ids c' c (by rw [← hr.clientID, hid])
  rcases hr.old_or_current with hlt | hcur
  · exact hlt
  · rw [Client.current?, hidle] at hcur
    cases hcur

theorem begin {c : Fin nc} {call : ClerkCall} (h : s.Issued)
    (hs : s.stepBegin c call = some s') : s'.Issued := by
  obtain ⟨hidle, rfl⟩ := stepBegin_eq_some hs
  have hok := h.clients c
  refine h.setClient_only rfl ?_ { hok with began_le := ?_, began := ?_, rpc := ?_ }
  · intro r hr
    refine ⟨hr.clientID, hr.pos, Or.inl ?_⟩
    exact h.lt_of_idle hidle ⟨c, hr⟩ hr.clientID
  · intro pd hpd
    cases hpd
    exact Nat.le_refl _
  · intro pd hpd j op hj hc hseq
    obtain ⟨c', r, hr, rfl⟩ := h.started op (h.entries op (List.mem_of_getElem? hj))
    rw [Request.cmd_clientID] at hc
    rw [Request.cmd_seqNo] at hseq
    have hlt := h.lt_of_idle hidle ⟨c', hr⟩ hc
    have hseq : r.seqNo = (s.clients c).clerk.seq := hseq
    omega
  · intro pd k hpd hk
    cases hpd
    cases hk

/-- The clerk goes on to the next server. -/
theorem retry {c : Fin nc} {pd : Pending} (h : s.Issued)
    (hpd : (s.clients c).pending = some pd) :
    (s.setClient c { clerk := (s.clients c).clerk.nextLeader,
                     pending := some { pd with rpc := none } }).Issued :=
  h.setClient_only rfl
    (fun _ hr => hr.of_same rfl rfl (Client.current?_eq hpd rfl (Clerk.request_nextLeader _ _)))
    ((h.clients c).sameCall hpd rfl rfl fun _ hk => nomatch hk)

theorem send {c : Fin nc} (h : s.Issued) (hs : s.stepSend c = some s') : s'.Issued := by
  obtain ⟨pd, dst, hpd, rfl⟩ := stepSend_eq_some hs
  have hok := h.clients c
  refine h.setClient _ rfl (fun r hr => hr.of_same rfl rfl
    (Client.current?_eq hpd rfl (Clerk.request_choose _ _ _))) ?_
    (hok.sameCall hpd rfl rfl fun k hk => ?_)
  · intro call hcall
    rw [List.mem_singleton.mp hcall]
    refine ⟨Clerk.request_clientID _ _, ?_, Or.inr ?_⟩
    · rw [Clerk.request_seqNo]
      exact hok.seq
    · exact congrArg some (Clerk.request_choose _ _ _)
  · cases hk
    have hlen : s.requests.length = s.calls.length := List.length_map _
    rw [← hlen, List.map_singleton, List.getElem?_concat_length]
    exact congrArg some (Clerk.request_choose _ _ _).symm

/-- A call returns: its request is in the log. -/
theorem finish {c : Fin nc} (h : s.Issued)
    (hlog : LoggedBefore s.log s.log.length (s.clients c).clerk.id (s.clients c).clerk.seq) :
    (s.setClient c { clerk := (s.clients c).clerk.nextSeq, pending := none }).Issued := by
  have hok := h.clients c
  refine h.setClient_only rfl ?_ ⟨?_, ?_, ?_, ?_, ?_⟩
  · intro r hr
    have hle := hr.seqNo_le
    refine ⟨hr.clientID, hr.pos, Or.inl ?_⟩
    show r.seqNo < (s.clients c).clerk.seq + 1
    omega
  · have hseq := hok.seq
    show 1 ≤ (s.clients c).clerk.seq + 1
    omega
  · intro σ hσ hlt
    have hlt : σ < (s.clients c).clerk.seq + 1 := hlt
    rcases Int.lt_or_eq_of_le (Int.le_of_lt_add_one hlt) with hold | rfl
    · exact hok.logged σ hσ hold
    · exact hlog
  · intro pd hpd
    cases hpd
  · intro pd hpd
    cases hpd
  · intro pd k hpd
    cases hpd

end Issued

end System

/-! ## Servers -/

/-- The handler has registered its channel under `index`. -/
def Handler.Past (index : Int) : Handler → Prop
  | .sent => False
  | .checked => False
  | .waiting i _ => i = index
  | .reading => True
  | .replied _ => True

/-- The reply is backed by the log: a prefix contains the request's entry, and gives the value
that a `Get` returns. -/
def Answered (log : List (Option Op)) (r : Request) (reply : GetReply) : Prop :=
  ∃ m t i, Reflects log m t ∧ i < m ∧ log[i]? = some (some r.cmd) ∧
    ∀ args, r = .get args → (if reply.err = .ok then reply.value else "") = t.lookup args.key

theorem Answered.append {log : List (Option Op)} {r : Request} {reply : GetReply}
    (h : Answered log r reply) (l : List (Option Op)) : Answered (log ++ l) r reply := by
  obtain ⟨m, t, i, hm, hi, hget, hval⟩ := h
  exact ⟨m, t, i, hm.append l, hi, getElem?_append_of_eq_some hget l, hval⟩

namespace System

variable {ns nc : Nat} {s s' : System ns nc}

/-- What a handler has found out is in the log. Only a reply that its clerk can still accept
is of interest. -/
def Backed (s : System ns nc) (call : RemoteCall ns) : Prop :=
  match call.handler with
  | .reading => ∃ i, s.log[i]? = some (some call.request.cmd) ∧
      i < (s.servers call.dst).applied
  | .replied reply => ∀ c, (s.clients c).current? = some call.request →
      reply.wrongLeader = false → Answered s.log call.request reply
  | _ => True

/-- What the servers and the handlers hold of the log. -/
structure Served (s : System ns nc) : Prop where
  reflects : ∀ p, Reflects s.log (s.servers p).applied (s.servers p).kv.toTables
  label : ∀ p, (s.servers p).kv.snapshotIndex ≤ (s.servers p).applied
  channels : ∀ p index k, (s.servers p).kv.notifyChs index = some k →
    ∃ call, s.calls[k]? = some call ∧ call.dst = p ∧ call.handler.Past index
  closed : ∀ k ∈ s.closed, ∃ call, s.calls[k]? = some call ∧
    ∃ j : Nat, call.handler.Past (j + 1) ∧ j < (s.servers call.dst).applied
  handlers : ∀ call ∈ s.calls, s.Backed call

theorem Backed.mono {call : RemoteCall ns} {l : List (Option Op)} (h : s.Backed call)
    (hlog : s'.log = s.log ++ l)
    (happ : (s.servers call.dst).applied ≤ (s'.servers call.dst).applied)
    (hcur : ∀ c, (s'.clients c).current? = some call.request →
      ∃ c', (s.clients c').current? = some call.request) : s'.Backed call := by
  unfold Backed at h ⊢
  rw [hlog]
  split
  · rename_i hd
    rw [hd] at h
    obtain ⟨i, hget, hi⟩ := h
    exact ⟨i, getElem?_append_of_eq_some hget l, Nat.lt_of_lt_of_le hi happ⟩
  · rename_i reply hd
    rw [hd] at h
    intro c hc hw
    obtain ⟨c', hc'⟩ := hcur c hc
    exact (h c' hc' hw).append l
  · trivial

namespace Served

/-- Steps of the environment and of the clerks: the log may grow, new requests may be sent,
and no request becomes current that was not. -/
theorem of_frame {l : List (Option Op)} {more : List (RemoteCall ns)} (h : s.Served)
    (hlog : s'.log = s.log ++ l)
    (hkv : ∀ p, (s'.servers p).kv = (s.servers p).kv)
    (happ : ∀ p, (s'.servers p).applied = (s.servers p).applied)
    (hcalls : s'.calls = s.calls ++ more) (hmore : ∀ call ∈ more, call.handler = .sent)
    (hclosed : s'.closed = s.closed)
    (hcur : ∀ r ∈ s.requests, ∀ c, (s'.clients c).current? = some r →
      ∃ c', (s.clients c').current? = some r) : s'.Served := by
  constructor
  case reflects =>
    intro p
    rw [hlog, hkv, happ]
    exact (h.reflects p).append l
  case label =>
    intro p
    rw [hkv, happ]
    exact h.label p
  case channels =>
    intro p index k hk
    rw [hkv] at hk
    obtain ⟨call, hcall, hrest⟩ := h.channels p index k hk
    rw [hcalls]
    exact ⟨call, getElem?_append_of_eq_some hcall more, hrest⟩
  case closed =>
    intro k hk
    rw [hclosed] at hk
    obtain ⟨call, hcall, j, hpast, hj⟩ := h.closed k hk
    rw [hcalls]
    refine ⟨call, getElem?_append_of_eq_some hcall more, j, hpast, ?_⟩
    rw [happ]
    exact hj
  case handlers =>
    intro call hcall
    rw [hcalls] at hcall
    rcases List.mem_append.mp hcall with hold | hnew
    · exact (h.handlers call hold).mono hlog (Nat.le_of_eq (happ call.dst).symm)
        (hcur call.request (List.mem_map_of_mem hold))
    · unfold Backed
      rw [hmore call hnew]
      trivial

/-- The handler of call `k` moves on to `hd`. -/
theorem setHandler {k : Nat} {call : RemoteCall ns} {hd : Handler} (h : s.Served)
    (hk : s.calls[k]? = some call)
    (hpast : ∀ index, call.handler.Past index → hd.Past index)
    (hback : s.Backed { call with handler := hd }) : (s.setHandler k call hd).Served := by
  have hget : ∀ (k' : Nat) (call' : RemoteCall ns), s.calls[k']? = some call' →
      ∃ call'' : RemoteCall ns, (s.calls.set k { call with handler := hd })[k']? = some call'' ∧
        call''.dst = call'.dst ∧
        ∀ index, call'.handler.Past index → call''.handler.Past index := by
    intro k' call' hk'
    by_cases hkk : k' = k
    · subst hkk
      obtain rfl : call = call' := Option.some.inj (hk.symm.trans hk')
      exact ⟨_, List.getElem?_set_self (Records.lt_length_of_getElem? hk), rfl, hpast⟩
    · exact ⟨call', by rw [List.getElem?_set_ne (Ne.symm hkk)]; exact hk', rfl,
        fun _ hp => hp⟩
  refine { h with channels := ?_, closed := ?_, handlers := ?_ }
  · intro p index k' hk'
    obtain ⟨call', hcall', hdst, hp⟩ := h.channels p index k' hk'
    obtain ⟨call'', hcall'', hdst', hp'⟩ := hget k' call' hcall'
    exact ⟨call'', hcall'', hdst'.trans hdst, hp' index hp⟩
  · intro k' hk'
    obtain ⟨call', hcall', j, hp, hj⟩ := h.closed k' hk'
    obtain ⟨call'', hcall'', hdst', hp'⟩ := hget k' call' hcall'
    refine ⟨call'', hcall'', j, hp' _ hp, ?_⟩
    rw [hdst']
    exact hj
  · exact Records.forall_mem_set h.handlers hback

/-- The handler of call `k` registers its channel under `index` and waits. -/
theorem register {k : Nat} {call : RemoteCall ns} {index : Int} {term : Nat} (h : s.Served)
    (hk : s.calls[k]? = some call) (hchecked : call.handler = .checked) :
    (s.register k call index term).Served := by
  have hpast : ∀ i, call.handler.Past i → (Handler.waiting index term).Past i := by
    intro i hp
    rw [hchecked] at hp
    exact hp.elim
  have hset : (s.setHandler k call (.waiting index term)).Served :=
    h.setHandler hk hpast trivial
  have happ : ∀ p, ((s.register k call index term).servers p).applied
      = (s.servers p).applied :=
    (Function.forall_update_iff s.servers
      (p := fun p x => x.applied = (s.servers p).applied)).mpr ⟨rfl, fun _ _ => rfl⟩
  constructor
  case reflects =>
    exact (Function.forall_update_iff s.servers
      (p := fun _ x => Reflects s.log x.applied x.kv.toTables)).mpr
        ⟨h.reflects call.dst, fun p _ => h.reflects p⟩
  case label =>
    exact (Function.forall_update_iff s.servers
      (p := fun _ x => x.kv.snapshotIndex ≤ x.applied)).mpr
        ⟨h.label call.dst, fun p _ => h.label p⟩
  case channels =>
    intro p
    refine (Function.forall_update_iff s.servers
      (p := fun p x => ∀ i k', x.kv.notifyChs i = some k' →
        ∃ call', (s.setHandler k call (.waiting index term)).calls[k']? = some call' ∧
          call'.dst = p ∧ call'.handler.Past i)).mpr
        ⟨fun i k' hk' => ?_, fun p _ => hset.channels p⟩ p
    by_cases hi : i = index
    · -- the slot of the new channel
      subst hi
      have hch : Function.update (s.servers call.dst).kv.notifyChs i (some k) i = some k' := hk'
      rw [Function.update_self] at hch
      obtain rfl := Option.some.inj hch
      exact ⟨_, List.getElem?_set_self (Records.lt_length_of_getElem? hk), rfl, rfl⟩
    · have hold : Function.update (s.servers call.dst).kv.notifyChs index (some k) i =
          some k' := hk'
      rw [Function.update_of_ne hi] at hold
      exact hset.channels call.dst i k' hold
  case closed =>
    intro k' hk'
    obtain ⟨call', hcall', j, hp, hj⟩ := hset.closed k' hk'
    refine ⟨call', hcall', j, hp, ?_⟩
    rw [happ]
    exact hj
  case handlers =>
    intro call' hcall'
    exact (hset.handlers call' hcall').mono (List.append_nil _).symm
      (Nat.le_of_eq (happ call'.dst).symm) (fun c hc => ⟨c, hc⟩)

/-- The tables of a server after the next entry. -/
theorem consume {p : Fin ns} {size : Int} {command : Option Op} {r : Replica ns}
    {ch : Option Nat} (h : s.Served) (hc : s.log[(s.servers p).applied]? = some command)
    (hcon : System.consume (s.servers p) size command = some (r, ch)) :
    Reflects s.log r.applied r.kv.toTables ∧ r.kv.snapshotIndex ≤ r.applied := by
  have hlabel := h.label p
  obtain ⟨happ, ⟨hskip, hkv, -⟩ | ⟨cmd, t, rfl, ht, htab, hidx, -, -⟩⟩ := consume_cases hcon
  · rw [happ, hkv]
    refine ⟨?_, by omega⟩
    rcases hskip with rfl | hle
    · exact (h.reflects p).succ hc rfl
    · omega
  · rw [happ, htab]
    exact ⟨(h.reflects p).succ hc ht, by omega⟩

theorem deliver {p : Fin ns} {size : Int} (h : s.Served)
    (hs : s.stepDeliver p size = some s') : s'.Served := by
  obtain ⟨command, r, ch, hc, hcon, rfl⟩ := stepDeliver_eq_some hs
  obtain ⟨hrefl, hlabel⟩ := h.consume hc hcon
  obtain ⟨happ, hcases⟩ := consume_cases hcon
  have hmono : ∀ q, (s.servers q).applied ≤ (Function.update s.servers p r q).applied :=
    (Function.forall_update_iff s.servers
      (p := fun q x => (s.servers q).applied ≤ x.applied)).mpr
        ⟨by rw [happ]; omega, fun _ _ => Nat.le_refl _⟩
  have hchs : ∀ index k, r.kv.notifyChs index = some k →
      (s.servers p).kv.notifyChs index = some k := by
    rcases hcases with ⟨-, hkv, -⟩ | ⟨cmd, t, -, -, -, -, hnot, -⟩
    · rw [hkv]
      exact fun _ _ hk => hk
    · exact hnot
  constructor
  case reflects =>
    exact (Function.forall_update_iff s.servers
      (p := fun _ x => Reflects s.log x.applied x.kv.toTables)).mpr
        ⟨hrefl, fun q _ => h.reflects q⟩
  case label =>
    exact (Function.forall_update_iff s.servers
      (p := fun _ x => x.kv.snapshotIndex ≤ x.applied)).mpr ⟨hlabel, fun q _ => h.label q⟩
  case channels =>
    exact (Function.forall_update_iff s.servers
      (p := fun q x => ∀ index k, x.kv.notifyChs index = some k →
        ∃ call, s.calls[k]? = some call ∧ call.dst = q ∧ call.handler.Past index)).mpr
        ⟨fun index k hk => h.channels p index k (hchs index k hk), fun q _ => h.channels q⟩
  case closed =>
    intro k hk
    rcases List.mem_append.mp hk with hold | hnew
    · obtain ⟨call, hcall, j, hp, hj⟩ := h.closed k hold
      exact ⟨call, hcall, j, hp, Nat.lt_of_lt_of_le hj (hmono call.dst)⟩
    · -- the channel that waited for the index of this entry
      have hch : ch = some k := Option.mem_toList.mp hnew
      obtain ⟨-, -, hnone⟩ | ⟨cmd, t, -, -, -, -, -, hslot⟩ := hcases
      · rw [hch] at hnone
        cases hnone
      · obtain ⟨call, hcall, rfl, hp⟩ := h.channels p _ k (hslot.symm.trans hch)
        refine ⟨call, hcall, (s.servers call.dst).applied, ?_, ?_⟩
        · exact_mod_cast hp
        · show _ < (Function.update s.servers call.dst r call.dst).applied
          rw [Function.update_self, happ]
          omega
  case handlers =>
    intro call hcall
    exact (h.handlers call hcall).mono (List.append_nil _).symm (hmono call.dst)
      (fun c hc => ⟨c, hc⟩)

end Served

/-! ## Replies -/

/-- The duplicate table answers a current request only after its entry, and with the value
that a `Get` read there. -/
theorem answered_of_duplicate {c : Fin nc} {p : Fin ns} {r : Request} {reply : GetReply}
    (hi : s.Issued) (h : s.Served) (hcur : (s.clients c).current? = some r)
    (hdup : (s.servers p).kv.filterDuplicate r = some reply) : Answered s.log r reply := by
  unfold KVServer.filterDuplicate at hdup
  split at hdup
  · cases hdup
  rename_i dup hd
  split at hdup
  · rename_i hle
    obtain ⟨j, op, u, hj, hget, hc, hs, hu, hval⟩ := Tables.duplicate_source (h.reflects p) hd
    have hop : op ∈ s.started := hi.entries op (List.mem_of_getElem? hget)
    obtain ⟨hid, hseq⟩ := Client.seqNo_of_current hcur
    -- the record cannot belong to a later request of the same client
    have hmax := hi.seqNo_le hop (hc.trans hid)
    obtain rfl : op = r.cmd := hi.eq_of_current hcur hop hc (by omega)
    refine ⟨j + 1, u, j, hu, Nat.lt_succ_self j, hget, ?_⟩
    rintro args rfl
    obtain rfl := Option.some.inj hdup
    exact hval rfl
  · cases hdup

/-- The end of `Get` reads a prefix that contains the entry. -/
theorem answered_of_read {p : Fin ns} {args : GetArgs} {i : Nat} (h : s.Served)
    (hget : s.log[i]? = some (some (Request.get args).cmd))
    (hi : i < (s.servers p).applied) :
    Answered s.log (.get args) ((s.servers p).kv.readKey args.key) := by
  refine ⟨_, _, i, h.reflects p, hi, hget, ?_⟩
  rintro args' hargs
  obtain rfl : args = args' := Request.get.inj hargs
  unfold KVServer.readKey
  split
  · rename_i value hv
    show value = ((s.servers p).kv.db args.key).getD ""
    rw [hv]
    rfl
  · rename_i hv
    show "" = ((s.servers p).kv.db args.key).getD ""
    rw [hv]
    rfl

namespace Served

theorem check {k : Nat} (h : s.Served) (hs : s.stepCheck k = some s') : s'.Served := by
  obtain ⟨call, hd, hk, hsent, hhd, rfl⟩ := stepCheck_eq_some hs
  refine h.setHandler hk ?_ ?_
  · intro index hp
    rw [hsent] at hp
    exact hp.elim
  · rcases hhd with rfl | rfl
    · trivial
    · intro c _ hw
      cases hw

theorem enter {k : Nat} {index : Int} (h : s.Served) (hi : s.Issued)
    (hs : s.stepEnter k index = some s') : s'.Served := by
  obtain ⟨call, hk, hchecked, ⟨reply, hreply, rfl⟩ | ⟨-, rfl⟩ | rfl⟩ := stepEnter_eq_some hs
  · refine h.setHandler hk ?_ ?_
    · intro index hp
      rw [hchecked] at hp
      exact hp.elim
    · intro c hcur _
      exact answered_of_duplicate hi h hcur hreply
  · exact { h.register hk hchecked with }
  · exact h.register hk hchecked

/-- After the second `GetState` a server that still leads has the entry, and has consumed
it. -/
theorem wake {k : Nat} (h : s.Served) (hraft : s.RaftKeeps (.wake k))
    (hs : s.stepWake k = some s') : s'.Served := by
  obtain ⟨call, index, term, hk, hclosed, hw, rfl⟩ := stepWake_eq_some hs
  obtain ⟨call', hk', j, hpast, hj⟩ := h.closed k hclosed
  obtain rfl : call = call' := Option.some.inj (hk.symm.trans hk')
  rw [hw] at hpast
  obtain rfl : index = j + 1 := hpast
  -- in the term of `Start` the entry under its index is the command
  have hentry : (s.servers call.dst).leader = true → (s.servers call.dst).term = term →
      s.log[j]? = some (some call.request.cmd) := by
    intro hlead hterm
    have hat := hraft call _ term hk hw (by omega) hlead hterm
    rwa [show ((j : Int) + 1 - 1).toNat = j by omega] at hat
  refine h.setHandler hk ?_ ?_
  · intro i _
    unfold afterWake
    split
    · trivial
    · split
      · trivial
      · trivial
  · unfold afterWake
    split
    · -- the clerk does not take this reply
      intro c _ hwrong
      cases hwrong
    · rename_i hstill
      rw [not_or, not_not] at hstill
      have hget := hentry (by simpa using hstill.1) hstill.2.symm
      split
      · exact ⟨j, hget, hj⟩
      · rename_i args hargs
        intro c _ _
        refine ⟨_, _, j, h.reflects call.dst, hj, hget, ?_⟩
        intro args' hargs'
        rw [show call.request = .get args' from hargs'] at hargs
        cases hargs

theorem read {k : Nat} (h : s.Served) (hs : s.stepRead k = some s') : s'.Served := by
  obtain ⟨call, args, hk, hreading, hargs, rfl⟩ := stepRead_eq_some hs
  have hback := h.handlers call (List.mem_of_getElem? hk)
  unfold Backed at hback
  rw [hreading] at hback
  obtain ⟨i, hget, hi⟩ := hback
  refine h.setHandler hk (fun _ _ => trivial) ?_
  intro c _ _
  show Answered s.log call.request _
  rw [hargs] at hget ⊢
  exact answered_of_read h hget hi

theorem commit {command : Option Op} (h : s.Served)
    (hs : s.stepCommit command = some s') : s'.Served := by
  obtain ⟨-, rfl⟩ := stepCommit_eq_some hs
  exact h.of_frame rfl (fun _ => rfl) (fun _ => rfl) (List.append_nil _).symm
    (fun call hcall => by cases hcall) rfl (fun r _ c hc => ⟨c, hc⟩)

theorem roleChange {p : Fin ns} {term : Nat} {leader : Bool} (h : s.Served) :
    (s.setServer p { s.servers p with term := term, leader := leader }).Served := by
  have hupd : ∀ q, (Function.update s.servers p
        { s.servers p with term := term, leader := leader } q).kv = (s.servers q).kv ∧
      (Function.update s.servers p
        { s.servers p with term := term, leader := leader } q).applied =
          (s.servers q).applied := by
    intro q
    by_cases hq : q = p
    · subst hq
      rw [Function.update_self]
      exact ⟨rfl, rfl⟩
    · rw [Function.update_of_ne hq]
      exact ⟨rfl, rfl⟩
  exact h.of_frame (List.append_nil _).symm (fun q => (hupd q).1) (fun q => (hupd q).2)
    (List.append_nil _).symm (fun call hcall => by cases hcall) rfl (fun r _ c hc => ⟨c, hc⟩)

/-- A client changes; no request on its way becomes the client's current one. -/
theorem setClient {c : Fin nc} {cl : Client} (more : List (RemoteCall ns)) (h : s.Served)
    (hcur : ∀ r ∈ s.requests, cl.current? = some r → (s.clients c).current? = some r)
    (hmore : ∀ call ∈ more, call.handler = .sent) :
    { s.setClient c cl with calls := s.calls ++ more }.Served := by
  refine h.of_frame (List.append_nil _).symm (fun _ => rfl) (fun _ => rfl) rfl hmore rfl ?_
  intro r hr d hd
  have hd : (Function.update s.clients c cl d).current? = some r := hd
  by_cases hdc : d = c
  · subst hdc
    rw [Function.update_self] at hd
    exact ⟨d, hcur r hr hd⟩
  · rw [Function.update_of_ne hdc] at hd
    exact ⟨d, hd⟩

theorem setClient_only {c : Fin nc} {cl : Client} (h : s.Served)
    (hcur : ∀ r ∈ s.requests, cl.current? = some r → (s.clients c).current? = some r) :
    (s.setClient c cl).Served := by
  have hset := h.setClient [] hcur (fun call hcall => by cases hcall)
  rw [List.append_nil] at hset
  exact hset

theorem begin {c : Fin nc} {call : ClerkCall} (h : s.Served) (hi : s.Issued)
    (hs : s.stepBegin c call = some s') : s'.Served := by
  obtain ⟨hidle, rfl⟩ := stepBegin_eq_some hs
  refine h.setClient_only ?_
  intro r hr hcur
  obtain ⟨hid, hseq⟩ := Client.seqNo_of_current hcur
  have hlt := hi.lt_of_idle hidle (hi.requests r hr) hid
  have hseq : r.seqNo = (s.clients c).clerk.seq := hseq
  omega

theorem retry {c : Fin nc} {pd : Pending} (h : s.Served)
    (hpd : (s.clients c).pending = some pd) :
    (s.setClient c { clerk := (s.clients c).clerk.nextLeader,
                     pending := some { pd with rpc := none } }).Served := by
  refine h.setClient_only ?_
  intro r _ hcur
  rw [← hcur]
  exact Eq.symm (Client.current?_eq hpd rfl (Clerk.request_nextLeader _ _))

theorem send {c : Fin nc} (h : s.Served) (hs : s.stepSend c = some s') : s'.Served := by
  obtain ⟨pd, dst, hpd, rfl⟩ := stepSend_eq_some hs
  refine h.setClient _ ?_ ?_
  · intro r _ hcur
    rw [← hcur]
    exact Eq.symm (Client.current?_eq hpd rfl (Clerk.request_choose _ _ _))
  · intro call hcall
    rw [List.mem_singleton.mp hcall]

end Served

end System

/-! ## Returned calls -/

/-- The request of a returned call took effect after the call began; the value is the one
after a prefix that contains the entry and was committed when the call returned. -/
def Returned.Sound (log : List (Option Op)) (R : Returned) : Prop :=
  ∃ i m t, R.began ≤ i ∧ i < m ∧ m ≤ R.ended ∧ TakesEffect log i R.request.cmd ∧
    Reflects log m t ∧ ∀ args, R.request = .get args → R.value = t.lookup args.key

theorem Returned.Sound.append {log : List (Option Op)} {R : Returned} (h : R.Sound log)
    (l : List (Option Op)) : R.Sound (log ++ l) := by
  obtain ⟨i, m, t, hb, hi, hm, heff, ht, hval⟩ := h
  exact ⟨i, m, t, hb, hi, hm, heff.append l, ht.append l, hval⟩

/-- What the clerk accepts is not a refusal, and a `Get` returns what the reply says. -/
theorem ClerkCall.result_eq_some {call : ClerkCall} {reply : GetReply} {value : String}
    (h : call.result reply = some value) :
    reply.wrongLeader = false ∧ ∀ key, call = .get key →
      value = if reply.err = .ok then reply.value else "" := by
  cases call with
  | get key =>
      simp only [result] at h
      split at h
      · cases h
      · rename_i hw
        exact ⟨by simpa using hw, fun _ _ => (Option.some.inj h).symm⟩
  | putAppend key v op =>
      simp only [result] at h
      split at h
      · rename_i hw
        exact ⟨hw.1, fun key hkey => by cases hkey⟩
      · cases h

namespace System

variable {ns nc : Nat} {s s' : System ns nc}

/-- The invariant of the system. -/
structure Inv (s : System ns nc) : Prop where
  issued : s.Issued
  served : s.Served
  returned : ∀ R ∈ s.returned, R.Sound s.log

/-- An accepted reply is sound. -/
theorem sound_of_accepted {c : Fin nc} {pd : Pending} {k : Nat} {call : RemoteCall ns}
    {reply : GetReply} {value : String} (h : s.Inv) (hpd : (s.clients c).pending = some pd)
    (hk : pd.rpc = some k) (hcall : s.calls[k]? = some call)
    (hreply : call.handler = .replied reply) (hres : pd.call.result reply = some value) :
    (Returned.mk ((s.clients c).clerk.request pd.call) value pd.began s.log.length).Sound
      s.log := by
  have hok := h.issued.clients c
  have hreq : call.request = (s.clients c).clerk.request pd.call := by
    have hrpc := hok.rpc pd k hpd hk
    rw [requests, List.getElem?_map, hcall] at hrpc
    exact Option.some.inj hrpc
  have hcur : (s.clients c).current? = some call.request := by
    rw [Client.current?, hpd, hreq]
    rfl
  obtain ⟨hid, hseq⟩ := Client.seqNo_of_current hcur
  obtain ⟨haccept, hvalue⟩ := ClerkCall.result_eq_some hres
  have hback := h.served.handlers call (List.mem_of_getElem? hcall)
  unfold Backed at hback
  rw [hreply] at hback
  obtain ⟨m, t, i, hm, hi, hget, hval⟩ := hback c hcur haccept
  rw [← hreq]
  -- the first entry of the request is the one that takes effect
  have hlogged : LoggedBefore s.log m call.request.clientID call.request.seqNo :=
    ⟨i, call.request.cmd, hi, hget, Request.cmd_clientID _, Request.cmd_seqNo _⟩
  have hpos : 1 ≤ call.request.seqNo := by
    rw [hseq]
    exact hok.seq
  obtain ⟨i₀, op, hi₀, hc₀, hs₀, heff⟩ :=
    exists_takesEffect h.issued.inSequence hpos hm hlogged
  have hmem : op ∈ s.started := h.issued.entries op (List.mem_of_getElem? heff.entry)
  obtain rfl : op = call.request.cmd := h.issued.eq_of_current hcur hmem hc₀ hs₀
  have hbegan : pd.began ≤ i₀ :=
    hok.began pd hpd i₀ _ heff.entry (hc₀.trans hid) (hs₀.trans hseq)
  refine ⟨i₀, m, t, hbegan, hi₀, hm.le, heff, hm, ?_⟩
  intro args hargs
  have hargs : call.request = .get args := hargs
  rw [← hval args hargs]
  rw [hreq] at hargs
  cases hcl : pd.call with
  | get key => exact hvalue key hcl
  | putAppend key v op =>
      rw [hcl] at hargs
      cases hargs

theorem inv_done {c : Fin nc} (h : s.Inv) (hs : s.stepDone c = some s') : s'.Inv := by
  obtain ⟨pd, k, call, reply, hpd, hk, hcall, hreply, ⟨value, hres, rfl⟩ | rfl⟩ :=
    stepDone_eq_some hs
  · have hsound := sound_of_accepted h hpd hk hcall hreply hres
    obtain ⟨i, m, t, -, hi, hm, heff, -, -⟩ := hsound
    have hlogged : LoggedBefore s.log s.log.length (s.clients c).clerk.id
        (s.clients c).clerk.seq := by
      refine ⟨i, _, Nat.lt_of_lt_of_le hi hm, heff.entry, ?_, ?_⟩
      · rw [Request.cmd_clientID, Clerk.request_clientID]
      · rw [Request.cmd_seqNo, Clerk.request_seqNo]
    refine ⟨{ h.issued.finish hlogged with }, ?_, ?_⟩
    · have hserved : (s.setClient c
          { clerk := (s.clients c).clerk.nextSeq, pending := none }).Served :=
        h.served.setClient_only (fun r _ hcur => by cases hcur)
      exact { hserved with }
    · exact Records.forall_mem_append_singleton h.returned
        (sound_of_accepted h hpd hk hcall hreply hres)
  · exact ⟨h.issued.retry hpd, h.served.retry hpd, h.returned⟩

theorem inv_enter {k : Nat} {index : Int} (h : s.Inv)
    (hs : s.stepEnter k index = some s') : s'.Inv := by
  have hserved := h.served.enter h.issued hs
  obtain ⟨call, hk, -, ⟨reply, -, rfl⟩ | ⟨-, rfl⟩ | rfl⟩ := stepEnter_eq_some hs
  · exact ⟨h.issued.setHandler hk, hserved, h.returned⟩
  · refine ⟨?_, hserved, h.returned⟩
    have hreg : (s.register k call index (s.servers call.dst).term).Issued :=
      h.issued.register hk
    refine hreg.start ?_
    rw [requests]
    exact List.mem_map.mpr ⟨_, List.mem_set (Records.lt_length_of_getElem? hk) _, rfl⟩
  · exact ⟨h.issued.register hk, hserved, h.returned⟩

theorem inv_step {e : SystemEvent ns nc} (h : s.Inv) (hraft : s.RaftKeeps e)
    (hs : s.step e = some s') : s'.Inv := by
  cases e with
  | commit command =>
      have hissued := h.issued.commit hs
      have hserved := h.served.commit hs
      obtain ⟨-, rfl⟩ := stepCommit_eq_some hs
      exact ⟨hissued, hserved, fun R hR => (h.returned R hR).append _⟩
  | roleChange p term leader =>
      obtain rfl := Option.some.inj hs
      exact ⟨h.issued.of_eq rfl rfl rfl rfl, h.served.roleChange, h.returned⟩
  | deliver p size =>
      have hserved := h.served.deliver hs
      obtain ⟨command, r, ch, -, -, rfl⟩ := stepDeliver_eq_some hs
      exact ⟨h.issued.of_eq rfl rfl rfl rfl, hserved, h.returned⟩
  | check k =>
      have hserved := h.served.check hs
      obtain ⟨call, hd, hk, -, -, rfl⟩ := stepCheck_eq_some hs
      exact ⟨h.issued.setHandler hk, hserved, h.returned⟩
  | enter k index => exact inv_enter h hs
  | wake k =>
      have hserved := h.served.wake hraft hs
      obtain ⟨call, index, term, hk, -, -, rfl⟩ := stepWake_eq_some hs
      exact ⟨h.issued.setHandler hk, hserved, h.returned⟩
  | read k =>
      have hserved := h.served.read hs
      obtain ⟨call, args, hk, -, -, rfl⟩ := stepRead_eq_some hs
      exact ⟨h.issued.setHandler hk, hserved, h.returned⟩
  | begin c call =>
      have hissued := h.issued.begin hs
      have hserved := h.served.begin h.issued hs
      obtain ⟨-, rfl⟩ := stepBegin_eq_some hs
      exact ⟨hissued, hserved, h.returned⟩
  | send c =>
      have hissued := h.issued.send hs
      have hserved := h.served.send hs
      obtain ⟨pd, dst, -, rfl⟩ := stepSend_eq_some hs
      exact ⟨hissued, hserved, h.returned⟩
  | giveUp c =>
      obtain ⟨pd, hpd, rfl⟩ := stepGiveUp_eq_some hs
      exact ⟨h.issued.retry hpd, h.served.retry hpd, h.returned⟩
  | done c => exact inv_done h hs

theorem inv_init {ids : Fin nc → Int} (hids : Function.Injective ids) (maxraftstate : Int) :
    (init ids maxraftstate : System ns nc).Inv := by
  refine ⟨⟨?_, ?_, ?_, ?_, ?_, ?_⟩, ⟨?_, ?_, ?_, ?_, ?_⟩, ?_⟩
  · exact fun c c' heq => hids heq
  · intro c
    refine ⟨Int.le_refl 1, ?_, ?_, ?_, ?_⟩
    · intro σ hσ hlt
      have hlt : σ < 1 := hlt
      omega
    · intro pd hpd; cases hpd
    · intro pd hpd; cases hpd
    · intro pd k hpd; cases hpd
  · intro r hr; cases hr
  · intro op hop; cases hop
  · intro op hop; cases hop
  · intro j op hj; cases hj
  · exact fun p => Replay.Reflects.zero _ _ _
  · exact fun p => Int.le_refl 0
  · intro p index k hk; cases hk
  · intro k hk; cases hk
  · intro call hcall; cases hcall
  · intro R hR; cases hR

/-- **Exactly-once writes and fresh reads.** In every run over a Raft that keeps its part, the
tables of a server are those of the entries it has consumed, and for every call that has
returned:

* its command has taken effect at exactly one position of the committed log, which was
  appended after the call began and before it returned;
* a `Get` has returned the value of its key after a prefix that contains its entry and was
  committed before it returned. -/
theorem exactly_once_and_fresh {ids : Fin nc → Int} (hids : Function.Injective ids)
    {maxraftstate : Int} {es : List (SystemEvent ns nc)}
    (hok : Machine.Along step RaftKeeps (init ids maxraftstate) es)
    (hr : Machine.run step (init ids maxraftstate) es = some s) :
    (∀ p, Tables.replay (s.log.take (s.servers p).applied) =
      some (s.servers p).kv.toTables) ∧
    ∀ R ∈ s.returned,
      (∃ i, R.began ≤ i ∧ i < R.ended ∧ TakesEffect s.log i R.request.cmd ∧
        ∀ j op, op.clientID = R.request.clientID → op.seqNo = R.request.seqNo →
          TakesEffect s.log j op → j = i) ∧
      (∀ args, R.request = .get args → ∃ i m t, i < m ∧ m ≤ R.ended ∧
        s.log[i]? = some (some R.request.cmd) ∧ Tables.replay (s.log.take m) = some t ∧
        R.value = t.lookup args.key) := by
  have hinv := Machine.run_induction (fun _ _ _ h hraft hs => inv_step h hraft hs)
    (inv_init hids maxraftstate) hok hr
  refine ⟨fun p => (hinv.served.reflects p).run, ?_⟩
  intro R hR
  obtain ⟨i, m, t, hbegan, hi, hm, heff, ht, hval⟩ := hinv.returned R hR
  constructor
  · refine ⟨i, hbegan, Nat.lt_of_lt_of_le hi hm, heff, ?_⟩
    intro j op hc hs hj
    refine heff.unique hj ?_ ?_
    · rw [hc, Request.cmd_clientID]
    · rw [hs, Request.cmd_seqNo]
  · intro args hargs
    exact ⟨i, m, t, hi, hm, heff.entry, ht.run, hval args hargs⟩

/-- The command of the first call of the run below. -/
def appendA : Op := { key := "x", value := "a", op := .append, clientID := 7, seqNo := 1 }

def getX : Op := { key := "x", value := "", op := .get, clientID := 7, seqNo := 2 }

/-- A clerk appends at server `0`, hears nothing, and appends again at server `1`, which has
taken over; both entries are committed. It then reads the key. -/
def retried : List (SystemEvent 2 1) :=
  [.roleChange 0 1 true, .begin 0 (.putAppend "x" "a" .append), .send 0, .check 0, .enter 0 1,
   .giveUp 0, .send 0, .roleChange 1 2 true, .check 1, .enter 1 2,
   .commit (some appendA), .commit (some appendA), .deliver 1 0, .deliver 1 0, .wake 1,
   .done 0, .begin 0 (.get "x"), .send 0, .check 2, .enter 2 3, .commit (some getX),
   .deliver 1 0, .wake 2, .read 2, .done 0]

/-- The log has the command of the handler that wakes up. -/
theorem raftKeeps_wake {k : Nat} {call : RemoteCall ns} {index : Int} {term : Nat}
    (hcall : s.calls[k]? = some call) (hw : call.handler = .waiting index term)
    (hlog : s.log[(index - 1).toNat]? = some (some call.request.cmd)) :
    s.RaftKeeps (.wake k) := by
  intro call' index' term' hcall' hw' _ _ _
  obtain rfl : call = call' := Option.some.inj (hcall.symm.trans hcall')
  obtain ⟨rfl, -⟩ := Handler.waiting.inj (hw.symm.trans hw')
  exact hlog

theorem raftKeeps_retried :
    Machine.Along step RaftKeeps (init (fun _ => 7) (-1)) retried := by
  iterate 14 refine Machine.along_cons trivial rfl ?_
  refine Machine.along_cons (raftKeeps_wake rfl rfl rfl) rfl ?_
  iterate 7 refine Machine.along_cons trivial rfl ?_
  refine Machine.along_cons (raftKeeps_wake rfl rfl rfl) rfl ?_
  refine Machine.along_cons trivial rfl ?_
  exact Machine.along_cons trivial rfl trivial

theorem exactly_once_and_fresh_retried :
    ∃ s : System 2 1, Machine.run step (init (fun _ => 7) (-1)) retried = some s ∧
      s.returned.map Returned.value = ["", "a"] ∧
      ∀ R ∈ s.returned, ∃ i, R.began ≤ i ∧ i < R.ended ∧
        TakesEffect s.log i R.request.cmd := by
  obtain ⟨s, hs, hret⟩ : ∃ s : System 2 1,
      Machine.run step (init (fun _ => 7) (-1)) retried = some s ∧
      s.returned.map Returned.value = ["", "a"] := ⟨_, rfl, by decide⟩
  have hids : Function.Injective (fun _ : Fin 1 => (7 : Int)) :=
    fun c c' _ => Subsingleton.elim c c'
  refine ⟨s, hs, hret, ?_⟩
  intro R hR
  obtain ⟨⟨i, hb, hi, heff, -⟩, -⟩ :=
    (exactly_once_and_fresh hids raftKeeps_retried hs).2 R hR
  exact ⟨i, hb, hi, heff⟩

end System

end RaftLab
