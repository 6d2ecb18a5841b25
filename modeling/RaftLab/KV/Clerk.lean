import RaftLab.Lib.Records
import RaftLab.KV.Server

set_option autoImplicit false

/-! # Clerks, requests and servers over a correct Raft

The client side of `kvraft/client.go`, the request handlers of `kvraft/server.go`, and the
system they form. Raft is what the service may assume of it: one committed log `log` that
only grows at its end, by commands that some server has passed to `Start`, and that every
server consumes in order; and at each server a term and a role that may change at any time.
`Start` at a leader returns the server's term and some positive index; elsewhere it returns
`(-1, 0)`.

A remote call is a record that is never removed; its handler moves on one step at a time, in
any order with the others, or stops for ever. Call number `k` waits on channel number `k`. A
clerk in a call has at most one remote call whose reply it still waits for; on a timeout, or
when the network reports a failure, it goes on to the next server.

`started`, `began` and `returned` record the past: what was passed to `Start`, how long the
log was when a call began, and the calls that have returned. `returned` and `began` are
never read, and `started` only bounds what can be committed.
-/

namespace RaftLab

structure GetArgs where
  key : String
  clientID : Int
  seqNo : Int
  deriving DecidableEq, Repr

structure PutAppendArgs where
  key : String
  value : String
  op : OpName
  clientID : Int
  seqNo : Int
  deriving DecidableEq, Repr

/-- The arguments of a remote call. A `PutAppendReply` is a `GetReply` whose value is never
set, so that one type of replies serves both. -/
inductive Request where
  | get (args : GetArgs)
  | putAppend (args : PutAppendArgs)
  deriving DecidableEq, Repr

namespace Request

def clientID : Request → Int
  | get args => args.clientID
  | putAppend args => args.clientID

def seqNo : Request → Int
  | get args => args.seqNo
  | putAppend args => args.seqNo

/-- The `Op` that the handler passes to `Start`. -/
def cmd : Request → Op
  | get args => { key := args.key, value := "", op := .get, clientID := args.clientID,
                  seqNo := args.seqNo }
  | putAppend args => { key := args.key, value := args.value, op := args.op,
                        clientID := args.clientID, seqNo := args.seqNo }

@[simp] theorem cmd_clientID (r : Request) : r.cmd.clientID = r.clientID := by
  cases r <;> rfl

@[simp] theorem cmd_seqNo (r : Request) : r.cmd.seqNo = r.seqNo := by
  cases r <;> rfl

end Request

/-! ## The handlers `Get` and `PutAppend` -/

namespace KVServer

/-- The reply of a server that does not lead, or no longer leads the same term. -/
def wrongLeader : GetReply := { wrongLeader := true, err := .empty, value := "" }

/-- The reply with `Err = OK`. -/
def okReply (value : String) : GetReply := { wrongLeader := false, err := .ok, value := value }

/-- The duplicate filter at the beginning of both handlers. -/
def filterDuplicate (kv : KVServer) (r : Request) : Option GetReply :=
  match kv.duplicate r.clientID with
  | none => none
  | some dup =>
      if r.seqNo ≤ dup.seq then
        match r with
        | .get _ => some (okReply dup.reply.value)
        | .putAppend _ => some (okReply "")
      else none

/-- `kv.notifyChs[index] = ch`. -/
def register (kv : KVServer) (index : Int) (ch : Nat) : KVServer :=
  { kv with notifyChs := Function.update kv.notifyChs index (some ch) }

/-- The end of `Get`: read the key under the lock. -/
def readKey (kv : KVServer) (key : String) : GetReply :=
  match kv.db key with
  | some value => okReply value
  | none => { wrongLeader := false, err := .errNoKey, value := "" }

end KVServer

/-! ## The clerk -/

structure Clerk where
  leader : Nat
  seq : Int
  id : Int

/-- A call of `Clerk.Get` or `Clerk.PutAppend`; `Put` and `Append` are `PutAppend` with the
operation's name. -/
inductive ClerkCall where
  | get (key : String)
  | putAppend (key value : String) (op : OpName)
  deriving DecidableEq, Repr

namespace Clerk

/-- `MakeClerk`, for a number of servers and the generated id. -/
def makeClerk (servers : Nat) (id : Int) : Clerk := { leader := servers, seq := 1, id := id }

/-- The arguments of an iteration. -/
def request (ck : Clerk) : ClerkCall → Request
  | .get key => .get { key := key, clientID := ck.id, seqNo := ck.seq }
  | .putAppend key value op =>
      .putAppend { key := key, value := value, op := op, clientID := ck.id, seqNo := ck.seq }

/-- `ck.leader %= cnt`. -/
def choose (ck : Clerk) (cnt : Nat) : Clerk := { ck with leader := ck.leader % cnt }

/-- `ck.leader++`. -/
def nextLeader (ck : Clerk) : Clerk := { ck with leader := ck.leader + 1 }

/-- `ck.seq++`. -/
def nextSeq (ck : Clerk) : Clerk := { ck with seq := ck.seq + 1 }

@[simp] theorem request_clientID (ck : Clerk) (call : ClerkCall) :
    (ck.request call).clientID = ck.id := by
  cases call <;> rfl

@[simp] theorem request_seqNo (ck : Clerk) (call : ClerkCall) :
    (ck.request call).seqNo = ck.seq := by
  cases call <;> rfl

@[simp] theorem request_choose (ck : Clerk) (cnt : Nat) (call : ClerkCall) :
    (ck.choose cnt).request call = ck.request call := by
  cases call <;> rfl

@[simp] theorem request_nextLeader (ck : Clerk) (call : ClerkCall) :
    ck.nextLeader.request call = ck.request call := by
  cases call <;> rfl

end Clerk

/-- What the clerk returns on a reply; `none` if it has to try again. -/
def ClerkCall.result (call : ClerkCall) (reply : GetReply) : Option String :=
  match call with
  | .get _ =>
      if reply.wrongLeader then none
      else some (if reply.err = .ok then reply.value else "")
  | .putAppend .. => if reply.wrongLeader = false ∧ reply.err = .ok then some "" else none

/-! ## The system -/

/-- Where the handler of a remote call is. -/
inductive Handler where
  /-- The request is on its way. -/
  | sent
  /-- The first `GetState` has said that the server leads. -/
  | checked
  /-- Blocked on the channel registered under `index`; `Start` has returned `term`. -/
  | waiting (index : Int) (term : Nat)
  /-- `Get` is about to read the store. -/
  | reading
  | replied (reply : GetReply)
  deriving DecidableEq, Repr

structure RemoteCall (ns : Nat) where
  dst : Fin ns
  request : Request
  handler : Handler
  deriving DecidableEq, Repr

/-- A server: its `KVServer`, the persister, what `GetState` returns, and the number of
entries `applyDaemon` has consumed. -/
structure Replica (ns : Nat) where
  kv : KVServer
  persister : Persister ns Op KVSnapshot
  term : Nat
  leader : Bool
  applied : Nat

/-- A clerk's call in progress. -/
structure Pending where
  call : ClerkCall
  began : Nat
  rpc : Option Nat
  deriving DecidableEq, Repr

structure Client where
  clerk : Clerk
  pending : Option Pending

/-- A call that has returned `value`, when the log had `ended` entries. -/
structure Returned where
  request : Request
  value : String
  began : Nat
  ended : Nat
  deriving DecidableEq, Repr

/-- `ns` servers and `nc` clerks. -/
structure System (ns nc : Nat) where
  log : List (Option Op)
  started : List Op
  servers : Fin ns → Replica ns
  closed : List Nat
  calls : List (RemoteCall ns)
  clients : Fin nc → Client
  returned : List Returned

inductive SystemEvent (ns nc : Nat) where
  /-- Raft commits a command. -/
  | commit (command : Option Op)
  /-- The term or the role of a server changes. -/
  | roleChange (p : Fin ns) (term : Nat) (leader : Bool)
  /-- `applyDaemon` of a server consumes the next entry. -/
  | deliver (p : Fin ns) (raftStateSize : Int)
  /-- The first `GetState` of the handler of call `k`. -/
  | check (k : Nat)
  /-- The handler's critical section; `index` is what `Start` returns at a leader. -/
  | enter (k : Nat) (index : Int)
  /-- The handler goes on after its channel was closed, with the second `GetState`. -/
  | wake (k : Nat)
  /-- `Get` reads the store and replies. -/
  | read (k : Nat)
  /-- Clerk `c` is called. -/
  | begin (c : Fin nc) (call : ClerkCall)
  /-- An iteration of the clerk's loop sends its remote call. -/
  | send (c : Fin nc)
  /-- The clerk's timer fires, or its remote call fails. -/
  | giveUp (c : Fin nc)
  /-- The reply reaches the clerk. -/
  | done (c : Fin nc)

namespace System

variable {ns nc : Nat}

/-- New servers and new clerks with the given ids. -/
def init (ids : Fin nc → Int) (maxraftstate : Int) : System ns nc :=
  { log := []
    started := []
    servers := fun _ =>
      { kv := KVServer.startKVServer maxraftstate (Persister.makePersister (n := ns))
        persister := Persister.makePersister
        term := 0
        leader := false
        applied := 0 }
    closed := []
    calls := []
    clients := fun c => { clerk := Clerk.makeClerk ns (ids c), pending := none }
    returned := [] }

def setHandler (s : System ns nc) (k : Nat) (call : RemoteCall ns) (h : Handler) :
    System ns nc :=
  { s with calls := s.calls.set k { call with handler := h } }

def setServer (s : System ns nc) (p : Fin ns) (r : Replica ns) : System ns nc :=
  { s with servers := Function.update s.servers p r }

def setClient (s : System ns nc) (c : Fin nc) (cl : Client) : System ns nc :=
  { s with clients := Function.update s.clients c cl }

/-- The handler of call `k` registers its channel and waits. -/
def register (s : System ns nc) (k : Nat) (call : RemoteCall ns) (index : Int) (term : Nat) :
    System ns nc :=
  let r := s.servers call.dst
  (s.setServer call.dst { r with kv := r.kv.register index k }).setHandler k call
    (.waiting index term)

def stepCommit (s : System ns nc) (command : Option Op) : Option (System ns nc) :=
  if ∀ op ∈ command, op ∈ s.started then some { s with log := s.log ++ [command] } else none

/-- The command branch of `applyDaemon` for one entry. What `NewSnapShot` does to Raft's own
log is not visible here. -/
def consume (r : Replica ns) (raftStateSize : Int) :
    Option Op → Option (Replica ns × Option Nat)
  | none => some ({ r with applied := r.applied + 1 }, none)
  | some cmd =>
      -- what the snapshot in the tables covers is skipped
      if ((r.applied + 1 : Nat) : Int) > r.kv.snapshotIndex then do
        let (kv, persister, _) ←
          r.kv.applyCommand r.persister raftStateSize (r.applied + 1 : Nat) cmd
        let out := kv.notify (r.applied + 1 : Nat)
        pure ({ r with kv := out.1, persister := persister, applied := r.applied + 1 }, out.2)
      else some ({ r with applied := r.applied + 1 }, none)

def stepDeliver (s : System ns nc) (p : Fin ns) (raftStateSize : Int) :
    Option (System ns nc) := do
  let command ← s.log[(s.servers p).applied]?
  let (r, ch) ← consume (s.servers p) raftStateSize command
  pure { s.setServer p r with closed := s.closed ++ ch.toList }

def stepCheck (s : System ns nc) (k : Nat) : Option (System ns nc) := do
  let call ← s.calls[k]?
  guard (call.handler = .sent)
  pure (s.setHandler k call
    (if (s.servers call.dst).leader then .checked else .replied KVServer.wrongLeader))

def stepEnter (s : System ns nc) (k : Nat) (index : Int) : Option (System ns nc) := do
  let call ← s.calls[k]?
  guard (call.handler = .checked)
  let r := s.servers call.dst
  match r.kv.filterDuplicate call.request with
  | some reply => pure (s.setHandler k call (.replied reply))
  | none =>
      if r.leader then do
        guard (0 < index)
        pure { s.register k call index r.term with
          started := s.started ++ [call.request.cmd] }
      -- the lead is lost since the check: `Start` returns `(-1, 0)`, and the handler waits
      else pure (s.register k call (-1) 0)

/-- After the second `GetState`: the server still leads the term of `Start`, or not. -/
def afterWake (r : Replica ns) (request : Request) (term : Nat) : Handler :=
  if r.leader = false ∨ term ≠ r.term then .replied KVServer.wrongLeader
  else
    match request with
    | .get _ => .reading
    | .putAppend _ => .replied (KVServer.okReply "")

def stepWake (s : System ns nc) (k : Nat) : Option (System ns nc) := do
  let call ← s.calls[k]?
  guard (k ∈ s.closed)
  match call.handler with
  | .waiting _ term =>
      pure (s.setHandler k call (afterWake (s.servers call.dst) call.request term))
  | _ => none

def stepRead (s : System ns nc) (k : Nat) : Option (System ns nc) := do
  let call ← s.calls[k]?
  guard (call.handler = .reading)
  match call.request with
  | .get args =>
      pure (s.setHandler k call (.replied ((s.servers call.dst).kv.readKey args.key)))
  | .putAppend _ => none

def stepBegin (s : System ns nc) (c : Fin nc) (call : ClerkCall) : Option (System ns nc) := do
  guard ((s.clients c).pending = none)
  pure (s.setClient c { s.clients c with
    pending := some { call := call, began := s.log.length, rpc := none } })

def stepSend (s : System ns nc) (c : Fin nc) : Option (System ns nc) := do
  let pd ← (s.clients c).pending
  guard (pd.rpc = none)
  let ck := (s.clients c).clerk.choose ns
  -- with no servers the remainder would stop the program
  if h : ck.leader < ns then
    pure { s.setClient c { clerk := ck, pending := some { pd with rpc := some s.calls.length } }
      with calls := s.calls ++
        [{ dst := ⟨ck.leader, h⟩, request := ck.request pd.call, handler := .sent }] }
  else none

def stepGiveUp (s : System ns nc) (c : Fin nc) : Option (System ns nc) := do
  let pd ← (s.clients c).pending
  guard (pd.rpc.isSome)
  pure (s.setClient c { clerk := (s.clients c).clerk.nextLeader,
                        pending := some { pd with rpc := none } })

/-- The reply of call `k`, once its handler has returned. -/
def replyOf? (s : System ns nc) (k : Nat) : Option GetReply := do
  let call ← s.calls[k]?
  match call.handler with
  | .replied reply => pure reply
  | _ => none

def stepDone (s : System ns nc) (c : Fin nc) : Option (System ns nc) := do
  let pd ← (s.clients c).pending
  let k ← pd.rpc
  let reply ← s.replyOf? k
  let ck := (s.clients c).clerk
  match pd.call.result reply with
  | some value =>
      pure { s.setClient c { clerk := ck.nextSeq, pending := none } with
        returned := s.returned ++
          [{ request := ck.request pd.call, value := value, began := pd.began,
             ended := s.log.length }] }
  | none =>
      pure (s.setClient c { clerk := ck.nextLeader, pending := some { pd with rpc := none } })

def step (s : System ns nc) : SystemEvent ns nc → Option (System ns nc)
  | .commit command => s.stepCommit command
  | .roleChange p term leader =>
      some (s.setServer p { s.servers p with term := term, leader := leader })
  | .deliver p raftStateSize => s.stepDeliver p raftStateSize
  | .check k => s.stepCheck k
  | .enter k index => s.stepEnter k index
  | .wake k => s.stepWake k
  | .read k => s.stepRead k
  | .begin c call => s.stepBegin c call
  | .send c => s.stepSend c
  | .giveUp c => s.stepGiveUp c
  | .done c => s.stepDone c

/-- What the service assumes of Raft when a handler wakes up: if the server leads the term it
led when `Start` returned `index`, then the entry at `index` is the started command. -/
def RaftKeeps (s : System ns nc) : SystemEvent ns nc → Prop
  | .wake k => ∀ call index term, s.calls[k]? = some call →
      call.handler = .waiting index term → 0 < index →
      (s.servers call.dst).leader = true → (s.servers call.dst).term = term →
      s.log[(index - 1).toNat]? = some (some call.request.cmd)
  | _ => True

/-! ## What each step does -/

variable {s s' : System ns nc}

theorem stepCommit_eq_some {command : Option Op} (h : s.stepCommit command = some s') :
    (∀ op, command = some op → op ∈ s.started) ∧
      s' = { s with log := s.log ++ [command] } := by
  unfold stepCommit at h
  split at h
  · rename_i hmem
    exact ⟨fun op hop => hmem op hop, (Option.some.inj h).symm⟩
  · cases h

/-- An entry is ignored, or its command goes through the duplicate table and the channel that
waits for its index is closed. -/
theorem consume_cases {r r' : Replica ns} {size : Int} {command : Option Op} {ch : Option Nat}
    (h : consume r size command = some (r', ch)) :
    r'.applied = r.applied + 1 ∧
    (((command = none ∨ ((r.applied + 1 : Nat) : Int) ≤ r.kv.snapshotIndex) ∧ r'.kv = r.kv ∧
        ch = none) ∨
      ∃ cmd t, command = some cmd ∧ r.kv.applyOp cmd = some t ∧ r'.kv.toTables = t ∧
        (r'.kv.snapshotIndex = r.kv.snapshotIndex ∨
          r'.kv.snapshotIndex = (r.applied + 1 : Nat)) ∧
        (∀ index k, r'.kv.notifyChs index = some k → r.kv.notifyChs index = some k) ∧
        ch = r.kv.notifyChs (r.applied + 1 : Nat)) := by
  cases command with
  | none =>
      cases h
      exact ⟨rfl, Or.inl ⟨Or.inl rfl, rfl, rfl⟩⟩
  | some cmd =>
      simp only [consume] at h
      split at h
      · simp only [Option.bind_eq_bind, Option.bind_eq_some_iff, Option.pure_def,
          Option.some.injEq, Prod.mk.injEq, Prod.exists] at h
        obtain ⟨kv, persister, out, happ, rfl, rfl⟩ := h
        obtain ⟨t, ht, hkv⟩ := KVServer.applyCommand_cases happ
        refine ⟨rfl, Or.inr ⟨cmd, t, rfl, ht, ?_⟩⟩
        -- a snapshot on the way changes the label and no channel
        have hchs : kv.toTables = t ∧ kv.notifyChs = r.kv.notifyChs ∧
            (kv.snapshotIndex = r.kv.snapshotIndex ∨
              kv.snapshotIndex = (r.applied + 1 : Nat)) := by
          rcases hkv with ⟨rfl, -, -⟩ | ⟨rfl, -, -⟩
          · exact ⟨rfl, rfl, Or.inl rfl⟩
          · exact ⟨rfl, rfl, Or.inr rfl⟩
        obtain ⟨htab, hnot, hidx⟩ := hchs
        refine ⟨?_, ?_, ?_, ?_⟩
        · rw [KVServer.notify_toTables]
          exact htab
        · rw [KVServer.notify_snapshotIndex]
          exact hidx
        · intro index k hk
          rw [← hnot]
          exact KVServer.notify_notifyChs hk
        · rw [← hnot]
          exact KVServer.notify_snd kv _
      · rename_i hle
        cases h
        exact ⟨rfl, Or.inl ⟨Or.inr (by omega), rfl, rfl⟩⟩

theorem stepDeliver_eq_some {p : Fin ns} {size : Int} (h : s.stepDeliver p size = some s') :
    ∃ command r ch, s.log[(s.servers p).applied]? = some command ∧
      consume (s.servers p) size command = some (r, ch) ∧
      s' = { s.setServer p r with closed := s.closed ++ ch.toList } := by
  simp only [stepDeliver, Option.bind_eq_bind, Option.bind_eq_some_iff, Option.pure_def,
    Option.some.injEq, Prod.exists] at h
  obtain ⟨command, hc, r, ch, hcon, rfl⟩ := h
  exact ⟨command, r, ch, hc, hcon, rfl⟩

theorem stepCheck_eq_some {k : Nat} (h : s.stepCheck k = some s') :
    ∃ call hd, s.calls[k]? = some call ∧ call.handler = .sent ∧
      (hd = .checked ∨ hd = .replied KVServer.wrongLeader) ∧ s' = s.setHandler k call hd := by
  simp only [stepCheck, Option.bind_eq_bind, Option.bind_eq_some_iff, Option.guard_eq_some',
    Option.pure_def, Option.some.injEq] at h
  obtain ⟨call, hcall, -, hsent, rfl⟩ := h
  refine ⟨call, _, hcall, hsent, ?_, rfl⟩
  split
  · exact Or.inl rfl
  · exact Or.inr rfl

theorem stepEnter_eq_some {k : Nat} {index : Int} (h : s.stepEnter k index = some s') :
    ∃ call, s.calls[k]? = some call ∧ call.handler = .checked ∧
      ((∃ reply, (s.servers call.dst).kv.filterDuplicate call.request = some reply ∧
          s' = s.setHandler k call (.replied reply)) ∨
        (0 < index ∧ s' = { s.register k call index (s.servers call.dst).term with
          started := s.started ++ [call.request.cmd] }) ∨
        s' = s.register k call (-1) 0) := by
  simp only [stepEnter, Option.bind_eq_bind, Option.bind_eq_some_iff,
    Option.guard_eq_some'] at h
  obtain ⟨call, hcall, -, hchecked, h⟩ := h
  refine ⟨call, hcall, hchecked, ?_⟩
  split at h
  · rename_i reply hreply
    exact Or.inl ⟨reply, hreply, (Option.some.inj h).symm⟩
  · split at h
    · simp only [Option.bind_eq_some_iff, Option.guard_eq_some', Option.pure_def,
        Option.some.injEq] at h
      obtain ⟨-, hpos, rfl⟩ := h
      exact Or.inr (Or.inl ⟨hpos, rfl⟩)
    · exact Or.inr (Or.inr (Option.some.inj h).symm)

theorem stepWake_eq_some {k : Nat} (h : s.stepWake k = some s') :
    ∃ call index term, s.calls[k]? = some call ∧ k ∈ s.closed ∧
      call.handler = .waiting index term ∧
      s' = s.setHandler k call (afterWake (s.servers call.dst) call.request term) := by
  simp only [stepWake, Option.bind_eq_bind, Option.bind_eq_some_iff,
    Option.guard_eq_some'] at h
  obtain ⟨call, hcall, -, hclosed, h⟩ := h
  split at h
  · rename_i index term hw
    exact ⟨call, index, term, hcall, hclosed, hw, (Option.some.inj h).symm⟩
  · cases h

theorem stepRead_eq_some {k : Nat} (h : s.stepRead k = some s') :
    ∃ call args, s.calls[k]? = some call ∧ call.handler = .reading ∧
      call.request = .get args ∧
      s' = s.setHandler k call (.replied ((s.servers call.dst).kv.readKey args.key)) := by
  simp only [stepRead, Option.bind_eq_bind, Option.bind_eq_some_iff,
    Option.guard_eq_some'] at h
  obtain ⟨call, hcall, -, hreading, h⟩ := h
  split at h
  · rename_i args hargs
    exact ⟨call, args, hcall, hreading, hargs, (Option.some.inj h).symm⟩
  · cases h

theorem stepBegin_eq_some {c : Fin nc} {call : ClerkCall} (h : s.stepBegin c call = some s') :
    (s.clients c).pending = none ∧ s' = s.setClient c { s.clients c with
      pending := some { call := call, began := s.log.length, rpc := none } } := by
  simp only [stepBegin, Option.bind_eq_bind, Option.bind_eq_some_iff, Option.guard_eq_some',
    Option.pure_def, Option.some.injEq] at h
  obtain ⟨-, hidle, rfl⟩ := h
  exact ⟨hidle, rfl⟩

theorem stepSend_eq_some {c : Fin nc} (h : s.stepSend c = some s') :
    ∃ pd dst, (s.clients c).pending = some pd ∧
      s' = { s.setClient c { clerk := (s.clients c).clerk.choose ns,
                             pending := some { pd with rpc := some s.calls.length } }
        with calls := s.calls ++
          [{ dst := dst, request := (s.clients c).clerk.request pd.call,
             handler := .sent }] } := by
  simp only [stepSend, Option.bind_eq_bind, Option.bind_eq_some_iff,
    Option.guard_eq_some'] at h
  obtain ⟨pd, hpd, -, -, h⟩ := h
  split at h
  · rename_i hlt
    refine ⟨pd, ⟨((s.clients c).clerk.choose ns).leader, hlt⟩, hpd, ?_⟩
    rw [← Option.some.inj h, Clerk.request_choose]
  · cases h

theorem stepGiveUp_eq_some {c : Fin nc} (h : s.stepGiveUp c = some s') :
    ∃ pd, (s.clients c).pending = some pd ∧
      s' = s.setClient c { clerk := (s.clients c).clerk.nextLeader,
                           pending := some { pd with rpc := none } } := by
  simp only [stepGiveUp, Option.bind_eq_bind, Option.bind_eq_some_iff, Option.guard_eq_some',
    Option.pure_def, Option.some.injEq] at h
  obtain ⟨pd, hpd, -, -, rfl⟩ := h
  exact ⟨pd, hpd, rfl⟩

theorem replyOf?_eq_some {k : Nat} {reply : GetReply} (h : s.replyOf? k = some reply) :
    ∃ call, s.calls[k]? = some call ∧ call.handler = .replied reply := by
  simp only [replyOf?, Option.bind_eq_bind, Option.bind_eq_some_iff] at h
  obtain ⟨call, hcall, h⟩ := h
  split at h
  · rename_i reply' hr
    cases h
    exact ⟨call, hcall, hr⟩
  · cases h

theorem stepDone_eq_some {c : Fin nc} (h : s.stepDone c = some s') :
    ∃ pd k call reply, (s.clients c).pending = some pd ∧ pd.rpc = some k ∧
      s.calls[k]? = some call ∧ call.handler = .replied reply ∧
      ((∃ value, pd.call.result reply = some value ∧
          s' = { s.setClient c { clerk := (s.clients c).clerk.nextSeq, pending := none } with
            returned := s.returned ++
              [{ request := (s.clients c).clerk.request pd.call, value := value,
                 began := pd.began, ended := s.log.length }] }) ∨
        s' = s.setClient c { clerk := (s.clients c).clerk.nextLeader,
                             pending := some { pd with rpc := none } }) := by
  simp only [stepDone, Option.bind_eq_bind, Option.bind_eq_some_iff] at h
  obtain ⟨pd, hpd, k, hk, reply, hreply, h⟩ := h
  obtain ⟨call, hcall, hh⟩ := replyOf?_eq_some hreply
  refine ⟨pd, k, call, reply, hpd, hk, hcall, hh, ?_⟩
  split at h
  · rename_i value hv
    exact Or.inl ⟨value, hv, (Option.some.inj h).symm⟩
  · exact Or.inr (Option.some.inj h).symm

end System

end RaftLab
