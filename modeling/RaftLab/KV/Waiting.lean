import RaftLab.KV.Clerk
import RaftLab.KV.Handover
import RaftLab.Raft.Window

set_option autoImplicit false

/-! # Requests that wait for their index

The handlers `Get` and `PutAppend` at one server, next to its `applyDaemon` and its Raft peer. A
handler asks whether the server leads, and later, in its critical section, calls `Start`, leaves a
new channel in `notifyChs` under the index that `Start` returned, and blocks on the channel until
`applyDaemon` has come to that index. Raft takes any steps in between.

A blocked handler can still be woken when its own channel is in the slot of its index and the index
is ahead of everything `applyDaemon` has dealt with (`NoneOrphaned`). A step can break this in three
ways, and in no other (`none_orphaned_iff_heeded`): a handler registers under an index that is not
ahead, among them the `-1` of a server that no longer leads; it takes the slot of a handler that
waits; or `applyDaemon` deals with a message at or beyond the index of a blocked handler that it
does not wake, as it does with a snapshot. Each of them happens (`waiting_requests_orphaned`).
-/

namespace RaftLab

variable {n : Nat}

/-- A request at the server, and where its handler is. The channel that the handler makes has the
number of the request. -/
structure Served where
  request : Request
  handler : Handler
  deriving DecidableEq

/-- A server with the handlers of its requests. `closed` are the channels that have been closed,
and `processed` the indices of the messages that `applyDaemon` has finished with. -/
structure Frontend (n : Nat) where
  peer : Peer n
  calls : List Served
  closed : List Nat
  processed : List Int

inductive FrontendEvent (n : Nat) where
  /-- A step of `applyDaemon` or of the Raft peer. -/
  | peer (e : PeerEvent n)
  | arrive (request : Request)
  /-- The first `GetState` of handler `k`. -/
  | check (k : Nat)
  /-- The critical section of handler `k`, with its call of `Start`. -/
  | enter (k : Nat)
  /-- Handler `k` goes on after its channel was closed, with the second `GetState`. -/
  | wake (k : Nat)
  /-- `Get` reads the store and replies. -/
  | read (k : Nat)

def ApplyDaemon.isCompacting : ApplyDaemon → Bool
  | .compacting .. => true
  | _ => false

def Installer.isIdle : Installer → Bool
  | .idle => true
  | _ => false

namespace Frontend

/-- `StartKVServer` on a given persister. -/
def start (me : Fin n) (maxraftstate : Int) (persister : Persister n Op KVSnapshot) :
    Frontend n where
  peer := Peer.start me maxraftstate persister
  calls := []
  closed := []
  processed := []

/-- The index of the message that `applyDaemon` has finished with between two states. -/
def handled (nd nd' : Node n) : Option Int :=
  match nd.daemon, nd'.daemon with
  | .received msg, .waiting => some msg.commandIndex
  | .compacting _ index, .waiting => some index
  | _, _ => none

/-- The channel whose slot has been emptied. `applyDaemon` deletes a slot right after it has closed
the channel in it. -/
def emptied (nd nd' : Node n) (index : Int) : Option Nat :=
  if nd'.kv.notifyChs index = none then nd.kv.notifyChs index else none

def movePeer (f : Frontend n) (p : Peer n) : Frontend n :=
  { f with
    peer := p
    closed := f.closed ++
      ((handled f.peer.node p.node).bind (emptied f.peer.node p.node)).toList
    processed := f.processed ++ (handled f.peer.node p.node).toList }

def setHandler (f : Frontend n) (k : Nat) (call : Served) (h : Handler) : Frontend n :=
  { f with calls := f.calls.set k { call with handler := h } }

/-- The handler of request `k` has called `Start`, which returned `index` and `term`; it registers
its channel and waits. -/
def await (f : Frontend n) (k : Nat) (call : Served) (rf : Raft n Op KVSnapshot) (index : Int)
    (term : Nat) : Frontend n :=
  { f.setHandler k call (.waiting index term) with
    peer := { f.peer with
      node := { f.peer.node with rf := rf, kv := f.peer.node.kv.register index k } } }

def stepPeer (f : Frontend n) : PeerEvent n → Option (Frontend n)
  -- only handlers call `Start` and register channels
  | .inner (.await ..) | .inner (.call (.start _)) => none
  | e => (f.peer.step e).map f.movePeer

def stepCheck (f : Frontend n) (k : Nat) : Option (Frontend n) := do
  let call ← f.calls[k]?
  guard (call.handler = .sent)
  guard f.peer.node.installer.isIdle
  pure (f.setHandler k call
    (if f.peer.node.rf.getState.2 then .checked else .replied KVServer.wrongLeader))

def stepEnter (f : Frontend n) (k : Nat) : Option (Frontend n) := do
  let call ← f.calls[k]?
  guard (call.handler = .checked)
  guard (f.peer.node.daemon.isCompacting = false)
  match f.peer.node.kv.filterDuplicate call.request with
  | some reply => pure (f.setHandler k call (.replied reply))
  | none =>
      guard f.peer.node.installer.isIdle
      let (rf, index, term, _) := f.peer.node.rf.start (some call.request.cmd)
      pure (f.await k call rf index term)

/-- After the second `GetState`: the server still leads the term of `Start`, or not. -/
def afterWake (rf : Raft n Op KVSnapshot) (request : Request) (term : Nat) : Handler :=
  let (curTerm, isLeader) := rf.getState
  if isLeader = false ∨ term ≠ curTerm then .replied KVServer.wrongLeader
  else
    match request with
    | .get _ => .reading
    | .putAppend _ => .replied (KVServer.okReply "")

def stepWake (f : Frontend n) (k : Nat) : Option (Frontend n) := do
  let call ← f.calls[k]?
  guard (k ∈ f.closed)
  guard f.peer.node.installer.isIdle
  match call.handler with
  | .waiting _ term =>
      pure (f.setHandler k call (afterWake f.peer.node.rf call.request term))
  | _ => none

def stepRead (f : Frontend n) (k : Nat) : Option (Frontend n) := do
  let call ← f.calls[k]?
  guard (call.handler = .reading)
  guard (f.peer.node.daemon.isCompacting = false)
  match call.request with
  | .get args => pure (f.setHandler k call (.replied (f.peer.node.kv.readKey args.key)))
  | .putAppend _ => none

def step (f : Frontend n) : FrontendEvent n → Option (Frontend n)
  | .peer e => f.stepPeer e
  | .arrive request => some { f with calls := f.calls ++ [⟨request, .sent⟩] }
  | .check k => f.stepCheck k
  | .enter k => f.stepEnter k
  | .wake k => f.stepWake k
  | .read k => f.stepRead k

/-! ## The property -/

/-- Handler `k` is blocked on its channel, which it has registered under `index`. -/
def Blocked (f : Frontend n) (k : Nat) (index : Int) : Prop :=
  ∃ call term, f.calls[k]? = some call ∧ call.handler = .waiting index term ∧ k ∉ f.closed

/-- **No waiting request is orphaned**: the channel of every blocked handler is in the slot of its
index, which is positive and ahead of all that `applyDaemon` has finished with. -/
def NoneOrphaned (f : Frontend n) : Prop :=
  ∀ k index, f.Blocked k index →
    f.peer.node.kv.notifyChs index = some k ∧ 0 < index ∧ ∀ i ∈ f.processed, i < index

/-! ## What a step does to the slots -/

/-- `applyDaemon` wakes the handler of the message's index. It passes over snapshots, nil commands
and commands that its snapshot covers. -/
def Wakes (kv : KVServer) (msg : ApplyMsg Op KVSnapshot) : Prop :=
  msg.useSnapshot = false ∧ msg.command ≠ none ∧ kv.snapshotIndex < msg.commandIndex

instance (kv : KVServer) (msg : ApplyMsg Op KVSnapshot) : Decidable (Wakes kv msg) :=
  inferInstanceAs (Decidable (_ ∧ _))

inductive Effect where
  | quiet
  /-- `applyDaemon` finishes with the message of an index, and wakes the handler that waits for it
  or not. -/
  | finish (index : Int) (wakes : Bool)
  /-- Handler `k` registers its channel under an index. -/
  | register (k : Nat) (index : Int)

/-- What an event does, seen from the state in which it happens. The index under which a handler
registers is the one behind the last of the log, or `-1` if the server does not lead. -/
def effect (f : Frontend n) : FrontendEvent n → Effect
  | .peer (.inner (.process size)) =>
      match f.peer.node.daemon with
      | .received msg =>
          if Wakes f.peer.node.kv msg then
            -- with a snapshot to take, it has not finished yet
            if f.peer.node.kv.needSnapshot size then .quiet else .finish msg.commandIndex true
          else .finish msg.commandIndex false
      | _ => .quiet
  | .peer (.inner .newSnapShot) =>
      match f.peer.node.daemon with
      | .compacting _ index => .finish index true
      | _ => .quiet
  | .enter k =>
      match f.calls[k]? with
      | some call =>
          if f.peer.node.kv.filterDuplicate call.request = none then
            .register k
              (if f.peer.node.rf.state = .leader then f.peer.node.rf.lastIndex + 1 else -1)
          else .quiet
      | none => .quiet
  | _ => .quiet

/-- **The condition on a step.** `applyDaemon` goes past no index that a blocked handler waits for
without waking it; and a handler registers under a positive index that is ahead of all that has
been processed and that no blocked handler waits for. -/
def Heeded (f : Frontend n) (e : FrontendEvent n) : Prop :=
  match f.effect e with
  | .quiet => True
  | .finish i true => ∀ k index, f.Blocked k index → i ≤ index
  | .finish i false => ∀ k index, f.Blocked k index → i < index
  | .register _ index => 0 < index ∧ (∀ i ∈ f.processed, i < index) ∧
      ∀ j i, f.Blocked j i → i ≠ index

/-! ### Deciding them -/

/-- The index on whose channel handler `k` is blocked. -/
def blockedOn (f : Frontend n) (k : Nat) : Option Int :=
  match f.calls[k]? with
  | some ⟨_, .waiting index _⟩ => if k ∈ f.closed then none else some index
  | _ => none

theorem blocked_iff {f : Frontend n} {k : Nat} {index : Int} :
    f.Blocked k index ↔ f.blockedOn k = some index := by
  unfold Blocked blockedOn
  constructor
  · rintro ⟨⟨request, handler⟩, term, hcall, rfl, hopen⟩
    rw [hcall]
    exact if_neg hopen
  · intro h
    split at h
    · rename_i request index' term hcall
      split at h
      · cases h
      · rename_i hopen
        obtain rfl := Option.some.inj h
        exact ⟨_, term, hcall, rfl, hopen⟩
    · cases h

theorem Blocked.lt_length {f : Frontend n} {k : Nat} {index : Int} (h : f.Blocked k index) :
    k < f.calls.length := by
  obtain ⟨call, term, hcall, -⟩ := h
  exact (List.getElem?_eq_some_iff.mp hcall).1

instance decidableForallBlocked (f : Frontend n) (P : Nat → Int → Prop)
    [∀ k i, Decidable (P k i)] : Decidable (∀ k i, f.Blocked k i → P k i) :=
  decidable_of_iff (∀ k ∈ List.range f.calls.length, ∀ i ∈ f.blockedOn k, P k i)
    ⟨fun h k i hblocked =>
      h k (List.mem_range.mpr hblocked.lt_length) i (blocked_iff.mp hblocked),
      fun h k _ i hi => h k i (blocked_iff.mpr hi)⟩

instance (f : Frontend n) : Decidable f.NoneOrphaned := decidableForallBlocked f _

instance (f : Frontend n) (e : FrontendEvent n) : Decidable (f.Heeded e) :=
  match h : f.effect e with
  | .quiet => isTrue (by rw [Heeded, h]; trivial)
  | .finish i true =>
      decidable_of_iff (∀ k index, f.Blocked k index → i ≤ index) (by rw [Heeded, h])
  | .finish i false =>
      decidable_of_iff (∀ k index, f.Blocked k index → i < index) (by rw [Heeded, h])
  | .register _ index =>
      decidable_of_iff (0 < index ∧ (∀ i ∈ f.processed, i < index) ∧
        ∀ j i, f.Blocked j i → i ≠ index) (by rw [Heeded, h])

/-! ### The steps of the handlers -/

section Steps

variable {f f' : Frontend n} {k : Nat}

theorem stepCheck_eq_some (h : f.stepCheck k = some f') :
    ∃ call hd, f.calls[k]? = some call ∧ call.handler = .sent ∧
      (hd = .checked ∨ hd = .replied KVServer.wrongLeader) ∧ f' = f.setHandler k call hd := by
  simp only [stepCheck, Option.bind_eq_bind, Option.bind_eq_some_iff, Option.guard_eq_some',
    Option.pure_def, Option.some.injEq] at h
  obtain ⟨call, hcall, -, hsent, -, -, rfl⟩ := h
  refine ⟨call, _, hcall, hsent, ?_, rfl⟩
  split
  · exact .inl rfl
  · exact .inr rfl

theorem start_index (rf : Raft n Op KVSnapshot) (command : Option Op) :
    (rf.start command).2.1 = if rf.state = .leader then rf.lastIndex + 1 else -1 := by
  unfold Raft.start Raft.lastIndex
  split
  · simp only [List.length_append, List.length_singleton]
    push_cast
    omega
  · rfl

theorem stepEnter_eq_some (h : f.stepEnter k = some f') :
    ∃ call, f.calls[k]? = some call ∧ call.handler = .checked ∧
      ((∃ reply, f.peer.node.kv.filterDuplicate call.request = some reply ∧
          f' = f.setHandler k call (.replied reply)) ∨
        (f.peer.node.kv.filterDuplicate call.request = none ∧ ∃ rf term, f' = f.await k call rf
          (if f.peer.node.rf.state = .leader then f.peer.node.rf.lastIndex + 1 else -1) term)) := by
  simp only [stepEnter, Option.bind_eq_bind, Option.bind_eq_some_iff, Option.guard_eq_some'] at h
  obtain ⟨call, hcall, -, hchecked, -, -, h⟩ := h
  refine ⟨call, hcall, hchecked, ?_⟩
  split at h
  · rename_i reply hreply
    exact .inl ⟨reply, hreply, (Option.some.inj h).symm⟩
  · rename_i hnone
    simp only [Option.bind_eq_some_iff, Option.guard_eq_some', Option.pure_def,
      Option.some.injEq] at h
    obtain ⟨-, -, rfl⟩ := h
    refine .inr ⟨hnone, (f.peer.node.rf.start (some call.request.cmd)).1,
      (f.peer.node.rf.start (some call.request.cmd)).2.2.1, ?_⟩
    rw [start_index]

theorem stepWake_eq_some (h : f.stepWake k = some f') :
    ∃ call term, f.calls[k]? = some call ∧ k ∈ f.closed ∧
      f' = f.setHandler k call (afterWake f.peer.node.rf call.request term) := by
  simp only [stepWake, Option.bind_eq_bind, Option.bind_eq_some_iff, Option.guard_eq_some'] at h
  obtain ⟨call, hcall, -, hclosed, -, -, h⟩ := h
  split at h
  · rename_i index term hw
    exact ⟨call, term, hcall, hclosed, (Option.some.inj h).symm⟩
  · cases h

theorem stepRead_eq_some (h : f.stepRead k = some f') :
    ∃ call reply, f.calls[k]? = some call ∧ call.handler = .reading ∧
      f' = f.setHandler k call (.replied reply) := by
  simp only [stepRead, Option.bind_eq_bind, Option.bind_eq_some_iff, Option.guard_eq_some'] at h
  obtain ⟨call, hcall, -, hreading, -, -, h⟩ := h
  split at h
  · exact ⟨call, _, hcall, hreading, (Option.some.inj h).symm⟩
  · cases h

end Steps

/-! ### The steps of `applyDaemon` -/

section Daemon

variable {nd nd' : Node n} {size : Int} {msg : ApplyMsg Op KVSnapshot}

theorem notify_slots (kv : KVServer) (index : Int) :
    (kv.notify index).1.notifyChs = Function.update kv.notifyChs index none := by
  unfold KVServer.notify
  split
  · rfl
  · rename_i hnone
    rw [← hnone, Function.update_eq_self]

/-- A message that wakes nobody is finished with, and no slot changes. -/
theorem process_of_not_wakes (hw : ¬ Wakes nd.kv msg) (h : nd.process size msg = some nd') :
    nd'.daemon = .waiting ∧ nd'.kv.notifyChs = nd.kv.notifyChs := by
  unfold Node.process at h
  split at h
  · obtain rfl := Option.some.inj h
    refine ⟨rfl, ?_⟩
    show (nd.kv.readSnapshot msg.snapshot).notifyChs = _
    cases msg.snapshot <;> rfl
  · rename_i huse
    split at h
    · obtain rfl := Option.some.inj h
      exact ⟨rfl, rfl⟩
    · rename_i cmd hcmd
      split at h
      · rename_i hlt
        exact absurd ⟨by simpa using huse, by rw [hcmd]; simp, hlt⟩ hw
      · obtain rfl := Option.some.inj h
        exact ⟨rfl, rfl⟩

/-- A command is finished with and its slot emptied, unless there is a snapshot to take first. -/
theorem process_of_wakes (hw : Wakes nd.kv msg) (h : nd.process size msg = some nd') :
    if nd.kv.needSnapshot size then
      nd'.daemon.isCompacting = true ∧ nd'.kv.notifyChs = nd.kv.notifyChs
    else nd'.daemon = .waiting ∧
      nd'.kv.notifyChs = Function.update nd.kv.notifyChs msg.commandIndex none := by
  obtain ⟨huse, hcmd, hlt⟩ := hw
  obtain ⟨cmd, hcmd⟩ := Option.ne_none_iff_exists'.mp hcmd
  simp only [Node.process, huse, hcmd, Bool.false_eq_true, if_false, if_pos hlt,
    Node.processCommand, KVServer.applyCommand, Option.bind_eq_bind, Option.bind_eq_some_iff] at h
  obtain ⟨⟨kv, persist, out⟩, ⟨t, -, hkv⟩, h⟩ := h
  -- the tables have no part in `needSnapshot`
  have hneed : KVServer.needSnapshot { nd.kv with toTables := t } size = nd.kv.needSnapshot size :=
    rfl
  rw [hneed] at hkv
  split at hkv
  · rename_i hsize
    obtain ⟨rfl, rfl, rfl⟩ : _ ∧ _ ∧ _ := by
      simpa only [Option.pure_def, Option.some.injEq, Prod.mk.injEq] using hkv
    obtain rfl := Option.some.inj h
    rw [if_pos hsize]
    exact ⟨rfl, rfl⟩
  · rename_i hsize
    obtain ⟨rfl, rfl, rfl⟩ : _ ∧ _ ∧ _ := by
      simpa only [Option.pure_def, Option.some.injEq, Prod.mk.injEq] using hkv
    obtain rfl := Option.some.inj h
    rw [if_neg hsize]
    exact ⟨rfl, notify_slots _ _⟩

end Daemon

/-! ### The effect of a step -/

structure Unchanged (f f' : Frontend n) : Prop where
  slots : f'.peer.node.kv.notifyChs = f.peer.node.kv.notifyChs
  processed : f'.processed = f.processed
  blocked : ∀ k i, f'.Blocked k i ↔ f.Blocked k i

/-- The message of index `i` is finished with; if it wakes, the channel in the slot of `i` is
closed. -/
structure Finished (f f' : Frontend n) (i : Int) (wakes : Bool) : Prop where
  slots : f'.peer.node.kv.notifyChs
    = if wakes then Function.update f.peer.node.kv.notifyChs i none else f.peer.node.kv.notifyChs
  processed : f'.processed = f.processed ++ [i]
  blocked : ∀ k j, f'.Blocked k j ↔
    f.Blocked k j ∧ ¬ (wakes = true ∧ f.peer.node.kv.notifyChs i = some k)

/-- Handler `k`, which was not blocked, now is, under `index`. -/
structure Registered (f f' : Frontend n) (k : Nat) (index : Int) : Prop where
  slots : f'.peer.node.kv.notifyChs = Function.update f.peer.node.kv.notifyChs index (some k)
  processed : f'.processed = f.processed
  fresh : ∀ i, ¬ f.Blocked k i
  blocked : ∀ j i, f'.Blocked j i ↔ (j = k ∧ i = index) ∨ f.Blocked j i

def Effect.Holds (f f' : Frontend n) : Effect → Prop
  | .quiet => Unchanged f f'
  | .finish i wakes => Finished f f' i wakes
  | .register k index => Registered f f' k index

/-- What is known of the channels: one that is in a slot belongs to a handler that is blocked under
that index, and one that is closed to a handler that has registered it. -/
structure Held (f : Frontend n) : Prop where
  slot : ∀ i k, f.peer.node.kv.notifyChs i = some k → f.Blocked k i
  closed : ∀ k ∈ f.closed, ∃ call, f.calls[k]? = some call ∧
    call.handler ≠ .sent ∧ call.handler ≠ .checked

theorem Blocked.unique {f : Frontend n} {k : Nat} {i j : Int} (hi : f.Blocked k i)
    (hj : f.Blocked k j) : i = j := by
  obtain ⟨call, term, hcall, hwait, -⟩ := hi
  obtain ⟨call', term', hcall', hwait', -⟩ := hj
  obtain rfl : call = call' := Option.some.inj (hcall.symm.trans hcall')
  rw [hwait] at hwait'
  cases hwait'
  rfl

section Effects

variable {f f' : Frontend n} {k : Nat} {call : Served} {hd : Handler}

/-- A handler that is not blocked goes on, and does not block. -/
theorem unchanged_setHandler (hcall : f.calls[k]? = some call) (hnot : ∀ i, ¬ f.Blocked k i)
    (hnew : ∀ i t, hd ≠ .waiting i t) : Unchanged f (f.setHandler k call hd) := by
  refine ⟨rfl, rfl, fun j i => ?_⟩
  have hlt : k < f.calls.length := (List.getElem?_eq_some_iff.mp hcall).1
  by_cases hj : k = j
  · subst hj
    refine iff_of_false ?_ (hnot i)
    rintro ⟨call', term, hcall', hwait, -⟩
    have hset : (f.calls.set k { call with handler := hd })[k]? = some call' := hcall'
    rw [List.getElem?_set_self hlt] at hset
    obtain rfl := Option.some.inj hset
    exact hnew i term hwait
  · unfold Blocked setHandler
    rw [List.getElem?_set_ne hj]

theorem not_blocked_of_handler (hcall : f.calls[k]? = some call)
    (hnot : ∀ i t, call.handler ≠ .waiting i t) (i : Int) : ¬ f.Blocked k i := by
  rintro ⟨call', term, hcall', hwait, -⟩
  obtain rfl : call = call' := Option.some.inj (hcall.symm.trans hcall')
  exact hnot i term hwait

/-- A handler before its critical section has not made its channel yet. -/
theorem Held.notMem_closed (hheld : f.Held) (hcall : f.calls[k]? = some call)
    (hearly : call.handler = .sent ∨ call.handler = .checked) : k ∉ f.closed := by
  intro hmem
  obtain ⟨call', hcall', hsent, hchecked⟩ := hheld.closed k hmem
  obtain rfl : call = call' := Option.some.inj (hcall.symm.trans hcall')
  exact hearly.elim hsent hchecked

theorem registered_await (hheld : f.Held) (hcall : f.calls[k]? = some call)
    (hchecked : call.handler = .checked) (rf : Raft n Op KVSnapshot) (index : Int) (term : Nat) :
    Registered f (f.await k call rf index term) k index := by
  have hlt : k < f.calls.length := (List.getElem?_eq_some_iff.mp hcall).1
  have hopen : k ∉ f.closed := hheld.notMem_closed hcall (.inr hchecked)
  have hfresh := not_blocked_of_handler hcall (by rw [hchecked]; simp)
  refine ⟨rfl, rfl, hfresh, fun j i => ?_⟩
  by_cases hj : k = j
  · subst hj
    constructor
    · rintro ⟨call', term', hcall', hwait, -⟩
      -- the record of the call itself: it now waits at `index` and nowhere else
      have hset : (f.calls.set k { call with handler := .waiting index term })[k]? = some call' :=
        hcall'
      rw [List.getElem?_set_self hlt] at hset
      obtain rfl := Option.some.inj hset
      cases hwait
      exact .inl ⟨rfl, rfl⟩
    · rintro (⟨-, rfl⟩ | hblocked)
      · exact ⟨_, term, List.getElem?_set_self hlt, rfl, hopen⟩
      · exact absurd hblocked (hfresh i)
  · have hsame : (f.await k call rf index term).Blocked j i ↔ f.Blocked j i := by
      unfold Blocked await setHandler
      rw [List.getElem?_set_ne hj]
    rw [hsame]
    exact ⟨.inr, fun h => h.resolve_left fun h => hj h.1.symm⟩

theorem blocked_movePeer {p : Peer n} {j : Nat} {i : Int} :
    (f.movePeer p).Blocked j i ↔ f.Blocked j i ∧
      (handled f.peer.node p.node).bind (emptied f.peer.node p.node) ≠ some j := by
  have hmem : j ∈ (f.movePeer p).closed ↔ j ∈ f.closed ∨
      (handled f.peer.node p.node).bind (emptied f.peer.node p.node) = some j := by
    show j ∈ f.closed ++ _ ↔ _
    rw [List.mem_append, Option.mem_toList]
  unfold Blocked
  rw [hmem]
  constructor
  · rintro ⟨call, term, hcall, hwait, hnot⟩
    rw [not_or] at hnot
    exact ⟨⟨call, term, hcall, hwait, hnot.1⟩, hnot.2⟩
  · rintro ⟨⟨call, term, hcall, hwait, hnot⟩, hne⟩
    exact ⟨call, term, hcall, hwait, not_or.mpr ⟨hnot, hne⟩⟩

theorem unchanged_movePeer {p : Peer n} (hhandled : handled f.peer.node p.node = none)
    (hslots : p.node.kv.notifyChs = f.peer.node.kv.notifyChs) : Unchanged f (f.movePeer p) := by
  refine ⟨hslots, ?_, fun j i => ?_⟩
  · show f.processed ++ (handled f.peer.node p.node).toList = f.processed
    rw [hhandled]
    exact List.append_nil _
  · rw [blocked_movePeer, hhandled]
    simp

theorem finished_movePeer {p : Peer n} {i : Int} (wakes : Bool)
    (hhandled : handled f.peer.node p.node = some i)
    (hslots : p.node.kv.notifyChs = if wakes then Function.update f.peer.node.kv.notifyChs i none
      else f.peer.node.kv.notifyChs) : Finished f (f.movePeer p) i wakes := by
  refine ⟨hslots, ?_, fun j k => ?_⟩
  · show f.processed ++ (handled f.peer.node p.node).toList = f.processed ++ [i]
    rw [hhandled]
    rfl
  · rw [blocked_movePeer, hhandled, Option.bind_some, emptied, hslots]
    cases wakes with
    | true => simp
    | false => cases hslot : f.peer.node.kv.notifyChs i <;> simp [hslot]

/-- As long as `applyDaemon` stays where it is, or waits, it finishes with nothing. -/
theorem handled_eq_none {nd nd' : Node n} (h : nd'.daemon = nd.daemon ∨ nd.daemon = .waiting) :
    handled nd nd' = none := by
  unfold handled
  rcases h with h | h
  · rw [h]
    cases nd.daemon <;> rfl
  · rw [h]

theorem stepPeer_eq_some {e : PeerEvent n} (h : f.stepPeer e = some f') :
    (∀ i ch, e ≠ .inner (.await i ch)) ∧ ∃ p, f.peer.step e = some p ∧ f' = f.movePeer p := by
  unfold stepPeer at h
  split at h
  · cases h
  · cases h
  · rename_i hawait _
    obtain ⟨p, hp, rfl⟩ := Option.map_eq_some_iff.mp h
    exact ⟨hawait, p, hp, rfl⟩

/-- `applyDaemon` deals with a message. -/
theorem effect_process {size : Int} {nd : Node n}
    (h : f.peer.node.step (.process size) = some nd) :
    (f.effect (.peer (.inner (.process size)))).Holds f
      (f.movePeer { f.peer with node := nd }) := by
  obtain ⟨msg, hmsg, hprocess⟩ := Node.step_process h
  simp only [effect, hmsg]
  by_cases hw : Wakes f.peer.node.kv msg
  · have hspec := process_of_wakes hw hprocess
    rw [if_pos hw]
    by_cases hsize : f.peer.node.kv.needSnapshot size = true
    · rw [if_pos hsize] at hspec ⊢
      refine unchanged_movePeer ?_ hspec.2
      -- it has gone on to take a snapshot
      have hcompacting := hspec.1
      show handled f.peer.node nd = none
      unfold handled
      rw [hmsg]
      cases hd : nd.daemon with
      | waiting => rw [hd] at hcompacting; cases hcompacting
      | received msg => rfl
      | compacting data index => rfl
    · rw [if_neg hsize] at hspec ⊢
      refine finished_movePeer true ?_ hspec.2
      show handled f.peer.node nd = some msg.commandIndex
      rw [handled, hmsg, hspec.1]
  · have hspec := process_of_not_wakes hw hprocess
    rw [if_neg hw]
    refine finished_movePeer false ?_ hspec.2
    show handled f.peer.node nd = some msg.commandIndex
    rw [handled, hmsg, hspec.1]

theorem effect_newSnapShot {nd : Node n} (h : f.peer.node.step .newSnapShot = some nd) :
    (f.effect (.peer (.inner .newSnapShot))).Holds f (f.movePeer { f.peer with node := nd }) := by
  obtain ⟨data, index, rf, hdaemon, -, -, rfl⟩ := Node.step_newSnapShot h
  simp only [effect, hdaemon]
  refine finished_movePeer true ?_ (notify_slots _ _)
  show handled f.peer.node _ = some index
  rw [handled, hdaemon]

/-- Every other step of the peer leaves the slots alone and finishes with nothing. -/
theorem effect_peer {e : PeerEvent n} (h : f.stepPeer e = some f') :
    (f.effect (.peer e)).Holds f f' := by
  obtain ⟨hawait, p, hp, rfl⟩ := stepPeer_eq_some h
  cases e with
  | take spare =>
      obtain ⟨-, -, rf, msgs, -, rfl⟩ := Peer.step_take hp
      exact unchanged_movePeer (handled_eq_none (.inl rfl)) rfl
  | send =>
      obtain ⟨msg, rest, nd, -, hnd, rfl⟩ := Peer.step_send hp
      obtain ⟨hwaiting, rfl⟩ := Node.step_receive hnd
      exact unchanged_movePeer (handled_eq_none (.inr hwaiting)) rfl
  | inner e =>
      obtain ⟨nd, hnd, rfl⟩ := Peer.step_inner hp
      cases e with
      | call c =>
          obtain ⟨-, rf, -, rfl⟩ := Node.step_call hnd
          exact unchanged_movePeer (handled_eq_none (.inl rfl)) rfl
      | await i ch => exact absurd rfl (hawait i ch)
      | receive msg => cases hp
      | process size => exact effect_process hnd
      | newSnapShot => exact effect_newSnapShot hnd
      | beginInstall args =>
          obtain ⟨-, rf, msg, -, rfl⟩ := Node.step_beginInstall hnd
          exact unchanged_movePeer (handled_eq_none (.inl rfl)) rfl
      | sendSnapshot =>
          obtain ⟨msg, -, hwaiting, rfl⟩ := Node.step_sendSnapshot hnd
          exact unchanged_movePeer (handled_eq_none (.inr hwaiting)) rfl
      | finishInstall =>
          obtain ⟨snapshot, -, rfl⟩ := Node.step_finishInstall hnd
          exact unchanged_movePeer (handled_eq_none (.inl rfl)) rfl
      | crash => cases hp

theorem afterWake_cases (rf : Raft n Op KVSnapshot) (request : Request) (term : Nat) :
    afterWake rf request term = .reading ∨ ∃ reply, afterWake rf request term = .replied reply := by
  unfold afterWake
  dsimp only
  split
  · exact .inr ⟨_, rfl⟩
  · cases request with
    | get args => exact .inl rfl
    | putAppend args => exact .inr ⟨_, rfl⟩

theorem unchanged_arrive (f : Frontend n) (request : Request) :
    Unchanged f { f with calls := f.calls ++ [⟨request, .sent⟩] } := by
  refine ⟨rfl, rfl, fun k i => ?_⟩
  by_cases hk : k < f.calls.length
  · unfold Blocked
    rw [List.getElem?_append_left hk]
  · have hnone : f.calls[k]? = none := List.getElem?_eq_none (Nat.le_of_not_lt hk)
    refine iff_of_false ?_ ?_
    · -- the new handler has not even been checked
      rintro ⟨call, term, hcall, hwait, -⟩
      rw [List.getElem?_append_right (Nat.le_of_not_lt hk)] at hcall
      obtain rfl := List.mem_singleton.mp (List.mem_of_getElem? hcall)
      cases hwait
    · rintro ⟨call, term, hcall, -⟩
      rw [hnone] at hcall
      cases hcall

/-- **What a step does.** -/
theorem effect_holds (hheld : f.Held) {e : FrontendEvent n} (h : f.step e = some f') :
    (f.effect e).Holds f f' := by
  cases e with
  | peer e => exact effect_peer h
  | arrive request =>
      obtain rfl := Option.some.inj h
      exact unchanged_arrive f request
  | check k =>
      obtain ⟨call, hd, hcall, hsent, hhd, rfl⟩ := stepCheck_eq_some h
      refine unchanged_setHandler hcall (not_blocked_of_handler hcall (by rw [hsent]; simp)) ?_
      rcases hhd with rfl | rfl <;> simp
  | enter k =>
      obtain ⟨call, hcall, hchecked, ⟨reply, hreply, rfl⟩ | ⟨hnone, rf, term, rfl⟩⟩ :=
        stepEnter_eq_some h
      · simp only [effect, hcall, hreply]
        refine unchanged_setHandler hcall (not_blocked_of_handler hcall (by rw [hchecked]; simp)) ?_
        simp
      · simp only [effect, hcall, hnone, if_true]
        exact registered_await hheld hcall hchecked rf _ term
  | wake k =>
      obtain ⟨call, term, hcall, hclosed, rfl⟩ := stepWake_eq_some h
      refine unchanged_setHandler hcall (fun i hblocked => ?_) ?_
      · -- a call that wakes up was not blocked: its channel is closed
        obtain ⟨-, -, -, -, hopen⟩ := hblocked
        exact hopen hclosed
      · rcases afterWake_cases f.peer.node.rf call.request term with heq | ⟨reply, heq⟩ <;>
          simp [heq]
  | read k =>
      obtain ⟨call, reply, hcall, hreading, rfl⟩ := stepRead_eq_some h
      refine unchanged_setHandler hcall (not_blocked_of_handler hcall (by rw [hreading]; simp)) ?_
      simp

/-! ### The channels along a run -/

theorem Effect.Holds.slot {eff : Effect} (heff : eff.Holds f f') (hheld : f.Held) {i : Int}
    {k : Nat} (hk : f'.peer.node.kv.notifyChs i = some k) : f'.Blocked k i := by
  cases eff with
  | quiet =>
      rw [heff.slots] at hk
      exact (heff.blocked k i).mpr (hheld.slot i k hk)
  | finish j wakes =>
      rw [heff.slots] at hk
      refine (heff.blocked k i).mpr ?_
      cases wakes with
      | false => exact ⟨hheld.slot i k hk, fun h => nomatch h.1⟩
      | true =>
          have hij : i ≠ j := by
            rintro rfl
            rw [if_pos rfl, Function.update_self] at hk
            cases hk
          rw [if_pos rfl, Function.update_of_ne hij] at hk
          -- a channel is in one slot only
          exact ⟨hheld.slot i k hk, fun h => hij ((hheld.slot i k hk).unique (hheld.slot j k h.2))⟩
  | register l index =>
      rw [heff.slots] at hk
      refine (heff.blocked k i).mpr ?_
      by_cases hi : i = index
      · rw [hi, Function.update_self] at hk
        exact .inl ⟨(Option.some.inj hk).symm, hi⟩
      · rw [Function.update_of_ne hi] at hk
        exact .inr (hheld.slot i k hk)

theorem Held.closed_setHandler (hheld : f.Held) (hcall : f.calls[k]? = some call)
    (hk : k ∈ f.closed → hd ≠ .sent ∧ hd ≠ .checked) :
    ∀ j ∈ f.closed, ∃ call', (f.calls.set k { call with handler := hd })[j]? = some call' ∧
      call'.handler ≠ .sent ∧ call'.handler ≠ .checked := by
  intro j hj
  have hlt : k < f.calls.length := (List.getElem?_eq_some_iff.mp hcall).1
  by_cases hkj : k = j
  · subst hkj
    exact ⟨_, List.getElem?_set_self hlt, hk hj⟩
  · rw [List.getElem?_set_ne hkj]
    exact hheld.closed j hj

theorem Held.closed_step (hheld : f.Held) {e : FrontendEvent n} (h : f.step e = some f') :
    ∀ k ∈ f'.closed, ∃ call, f'.calls[k]? = some call ∧
      call.handler ≠ .sent ∧ call.handler ≠ .checked := by
  cases e with
  | peer e =>
      obtain ⟨-, p, -, rfl⟩ := stepPeer_eq_some h
      intro k hk
      rcases List.mem_append.mp hk with hk | hk
      · exact hheld.closed k hk
      · -- its slot has just been emptied
        obtain ⟨i, -, hemptied⟩ := Option.bind_eq_some_iff.mp (Option.mem_toList.mp hk)
        unfold emptied at hemptied
        split at hemptied
        · obtain ⟨call, term, hcall, hwait, -⟩ := hheld.slot i k hemptied
          exact ⟨call, hcall, by rw [hwait]; simp, by rw [hwait]; simp⟩
        · cases hemptied
  | arrive request =>
      obtain rfl := Option.some.inj h
      intro k hk
      obtain ⟨call, hcall, hnot⟩ := hheld.closed k hk
      refine ⟨call, ?_, hnot⟩
      rw [List.getElem?_append_left (List.getElem?_eq_some_iff.mp hcall).1]
      exact hcall
  | check k =>
      obtain ⟨call, hd, hcall, hsent, -, rfl⟩ := stepCheck_eq_some h
      exact hheld.closed_setHandler hcall fun hk =>
        absurd hk (hheld.notMem_closed hcall (.inl hsent))
  | enter k =>
      obtain ⟨call, hcall, hchecked, ⟨reply, -, rfl⟩ | ⟨-, rf, term, rfl⟩⟩ := stepEnter_eq_some h
      · exact hheld.closed_setHandler hcall fun _ => ⟨by simp, by simp⟩
      · exact hheld.closed_setHandler hcall fun _ => ⟨by simp, by simp⟩
  | wake k =>
      obtain ⟨call, term, hcall, -, rfl⟩ := stepWake_eq_some h
      refine hheld.closed_setHandler hcall fun _ => ?_
      rcases afterWake_cases f.peer.node.rf call.request term with heq | ⟨reply, heq⟩ <;>
        simp [heq]
  | read k =>
      obtain ⟨call, reply, hcall, -, rfl⟩ := stepRead_eq_some h
      exact hheld.closed_setHandler hcall fun _ => ⟨by simp, by simp⟩

theorem Held.step (hheld : f.Held) {e : FrontendEvent n} (h : f.step e = some f') : f'.Held :=
  ⟨fun _ _ => (effect_holds hheld h).slot hheld, hheld.closed_step h⟩

theorem held_start (me : Fin n) (maxraftstate : Int) (persister : Persister n Op KVSnapshot) :
    (start me maxraftstate persister).Held := by
  refine ⟨fun i k hk => ?_, fun k hk => nomatch hk⟩
  have hnone : (KVServer.startKVServer maxraftstate persister).notifyChs i = none := by
    unfold KVServer.startKVServer
    cases persister.snapshot <;> rfl
  rw [show (start me maxraftstate persister).peer.node.kv.notifyChs i = none from hnone] at hk
  cases hk

/-! ## When nobody is orphaned -/

theorem Unchanged.noneOrphaned (h : Unchanged f f') (hnone : f.NoneOrphaned) : f'.NoneOrphaned := by
  intro k index hblocked
  rw [h.slots, h.processed]
  exact hnone k index ((h.blocked k index).mp hblocked)

theorem Finished.ahead {i : Int} {wakes : Bool} (h : Finished f f' i wakes)
    (hafter : f'.NoneOrphaned) {index : Int} (hblocked : f'.Blocked k index) : i < index := by
  refine (hafter k index hblocked).2.2 i ?_
  rw [h.processed]
  exact List.mem_append_right _ (List.mem_singleton_self i)

/-- A message wakes the handler that waits for it, and must come before those that wait for later
ones. -/
theorem Finished.noneOrphaned_iff_of_wakes {i : Int} (h : Finished f f' i true) (hheld : f.Held)
    (hnone : f.NoneOrphaned) : f'.NoneOrphaned ↔ ∀ k index, f.Blocked k index → i ≤ index := by
  constructor
  · intro hafter k index hblocked
    by_cases hslot : f.peer.node.kv.notifyChs i = some k
    · exact le_of_eq ((hheld.slot i k hslot).unique hblocked)
    · exact le_of_lt (h.ahead hafter ((h.blocked k index).mpr ⟨hblocked, fun hk => hslot hk.2⟩))
  · intro hle k index hblocked
    obtain ⟨hblocked, hopen⟩ := (h.blocked k index).mp hblocked
    obtain ⟨hslot, hpos, hahead⟩ := hnone k index hblocked
    -- the handler that waits for `i` itself has been woken
    have hne : index ≠ i := by
      rintro rfl
      exact hopen ⟨rfl, hslot⟩
    refine ⟨?_, hpos, ?_⟩
    · rw [h.slots, if_pos rfl, Function.update_of_ne hne, hslot]
    · rw [h.processed]
      refine List.forall_mem_append.mpr ⟨hahead, List.forall_mem_singleton.mpr ?_⟩
      exact lt_of_le_of_ne (hle k index hblocked) (Ne.symm hne)

/-- A message that wakes nobody must come before all that is waited for. -/
theorem Finished.noneOrphaned_iff_of_skips {i : Int} (h : Finished f f' i false)
    (hnone : f.NoneOrphaned) : f'.NoneOrphaned ↔ ∀ k index, f.Blocked k index → i < index := by
  constructor
  · intro hafter k index hblocked
    exact h.ahead hafter ((h.blocked k index).mpr ⟨hblocked, fun hk => nomatch hk.1⟩)
  · intro hlt k index hblocked
    obtain ⟨hblocked, -⟩ := (h.blocked k index).mp hblocked
    obtain ⟨hslot, hpos, hahead⟩ := hnone k index hblocked
    refine ⟨by rw [h.slots]; exact hslot, hpos, ?_⟩
    rw [h.processed]
    exact List.forall_mem_append.mpr
      ⟨hahead, List.forall_mem_singleton.mpr (hlt k index hblocked)⟩

/-- A channel may only go into a free slot that is ahead. -/
theorem Registered.noneOrphaned_iff {index : Int} (h : Registered f f' k index)
    (hnone : f.NoneOrphaned) : f'.NoneOrphaned ↔
      0 < index ∧ (∀ i ∈ f.processed, i < index) ∧ ∀ j i, f.Blocked j i → i ≠ index := by
  constructor
  · intro hafter
    obtain ⟨-, hpos, hahead⟩ := hafter k index ((h.blocked k index).mpr (.inl ⟨rfl, rfl⟩))
    refine ⟨hpos, h.processed ▸ hahead, fun j i hblocked hi => ?_⟩
    -- the slot would hold two channels
    obtain ⟨hslot, -⟩ := hafter j i ((h.blocked j i).mpr (.inr hblocked))
    rw [h.slots, hi, Function.update_self] at hslot
    obtain rfl := Option.some.inj hslot
    exact h.fresh i hblocked
  · rintro ⟨hpos, hahead, hfree⟩ j i hblocked
    rw [h.slots, h.processed]
    rcases (h.blocked j i).mp hblocked with ⟨rfl, rfl⟩ | hblocked
    · exact ⟨Function.update_self _ _ _, hpos, hahead⟩
    · rw [Function.update_of_ne (hfree j i hblocked)]
      exact hnone j i hblocked

/-- **One step.** It leaves nobody orphaned exactly when it meets the condition. -/
theorem heeded_iff (hheld : f.Held) (hnone : f.NoneOrphaned) {e : FrontendEvent n}
    (h : f.step e = some f') : f.Heeded e ↔ f'.NoneOrphaned := by
  have heff := effect_holds hheld h
  unfold Heeded
  cases heq : f.effect e with
  | quiet =>
      rw [heq] at heff
      exact iff_of_true trivial (Unchanged.noneOrphaned heff hnone)
  | finish i wakes =>
      rw [heq] at heff
      cases wakes with
      | true => exact (Finished.noneOrphaned_iff_of_wakes heff hheld hnone).symm
      | false => exact (Finished.noneOrphaned_iff_of_skips heff hnone).symm
  | register k index =>
      rw [heq] at heff
      exact (Registered.noneOrphaned_iff heff hnone).symm

end Effects

/-- **Waiting requests.** From a server that has just been started, on any persister, along any run
of its handlers, `applyDaemon` and the Raft peer: no waiting request is ever orphaned if and only if
every step meets the condition `Heeded` in the state in which it is taken. -/
theorem none_orphaned_iff_heeded (me : Fin n) (maxraftstate : Int)
    (persister : Persister n Op KVSnapshot) {es : List (FrontendEvent n)} {f : Frontend n}
    (hr : Machine.run step (start me maxraftstate persister) es = some f) :
    (∀ before after g, es = before ++ after →
      Machine.run step (start me maxraftstate persister) before = some g → g.NoneOrphaned) ↔
    Machine.Along step Heeded (start me maxraftstate persister) es := by
  refine Machine.always_iff_along ?_ (fun es g e g' hg hnone hs => ?_) hr
  · rintro k index ⟨call, term, hcall, -⟩
    cases hcall
  · have hheld : g.Held := Machine.run_history_induction (J := fun _ g => Held g)
      (held_start me maxraftstate persister) (fun _ _ _ _ _ h hs => h.step hs) hg
    exact heeded_iff hheld hnone hs

/-! ## Runs -/

/-- A server started for the first time. -/
def newServer : Frontend 3 := start 0 (-1) Persister.makePersister

/-- An append of client `c`. -/
def appendOf (c : Int) : Request :=
  .putAppend { key := "x", value := "a", op := .append, clientID := c, seqNo := 1 }

/-- The server stands for election and becomes leader of a term. -/
def elected (term : Nat) : List (FrontendEvent 3) :=
  [.peer (.inner (.call .canvassVotes)),
   .peer (.inner (.call (.voteReply
     { term := term, candidateID := 0, lastLogIndex := 0, lastLogTerm := 0 } 1
     { currentTerm := 0, voteGranted := true })))]

/-- The first request of the elected server is registered under index 1. -/
def firstWaits : List (FrontendEvent 3) :=
  elected 1 ++ [.arrive (appendOf 7), .check 0, .enter 0]

/-- A heartbeat of the leader of term 2, whose log is empty. -/
def heartbeat : FrontendEvent 3 :=
  .peer (.inner (.call (.appendEntries
    { term := 2, leaderID := 1, prevLogIndex := 0, prevLogTerm := 0, entries := [],
      leaderCommit := 0 })))

/-- The request is replicated, committed and applied, and its handler goes on. -/
def firstWoken : List (FrontendEvent 3) :=
  firstWaits ++
    [.peer (.inner (.call (.appendReply 1
      { currentTerm := 1, success := true, conflictTerm := 0, firstIndex := 1 }))),
     .peer (.take []), .peer .send, .peer (.inner (.process 0)), .wake 0]

theorem none_orphaned_iff_heeded_firstWoken :
    ∃ f, Machine.run step newServer firstWoken = some f ∧ f.NoneOrphaned := by
  obtain ⟨f, hf⟩ : ∃ f, Machine.run step newServer firstWoken = some f := ⟨_, rfl⟩
  refine ⟨f, hf, ?_⟩
  have hheeded : Machine.Along step Heeded newServer firstWoken := by decide
  exact (none_orphaned_iff_heeded 0 (-1) Persister.makePersister hf).mpr hheeded firstWoken [] f
    (List.append_nil _).symm hf

/-- The leadership is lost between `GetState` and `Start`. -/
def lostLeadership : List (FrontendEvent 3) :=
  elected 1 ++ [.arrive (appendOf 7), .check 0, heartbeat, .enter 0]

/-- The leadership is lost, with the entry, and won again; the next request gets the same index. -/
def indexReused : List (FrontendEvent 3) :=
  firstWaits ++ heartbeat :: elected 3 ++ [.arrive (appendOf 8), .check 1, .enter 1]

/-- The leader of term 2 sends a snapshot of five entries. -/
def snapshotJumps : List (FrontendEvent 3) :=
  firstWaits ++
    [.peer (.inner (.beginInstall
      { term := 2, leaderID := 1, lastIncludedIndex := 5, lastIncludedTerm := 2,
        snapshot := some { toTables := .empty, snapshotIndex := 5 } })),
     .peer (.inner .sendSnapshot), .peer (.inner (.process 0)), .peer (.inner .finishInstall)]

/-- **Waiting requests are orphaned.** A handler waits under the index `-1`; a handler has lost its
slot to a later one; and a snapshot has gone past the index of a handler. -/
theorem waiting_requests_orphaned :
    (∃ f, Machine.run step newServer lostLeadership = some f ∧ f.Blocked 0 (-1) ∧
      ¬ f.NoneOrphaned) ∧
    (∃ f, Machine.run step newServer indexReused = some f ∧ f.Blocked 0 1 ∧ f.Blocked 1 1 ∧
      ¬ f.NoneOrphaned) ∧
    (∃ f, Machine.run step newServer snapshotJumps = some f ∧ f.Blocked 0 1 ∧ 5 ∈ f.processed ∧
      ¬ f.NoneOrphaned) := by
  refine ⟨?_, ?_, ?_⟩
  · obtain ⟨f, hf, hblocked⟩ : ∃ f, Machine.run step newServer lostLeadership = some f ∧
        f.Blocked 0 (-1) := ⟨_, rfl, _, _, rfl, rfl, by decide⟩
    exact ⟨f, hf, hblocked, fun hnone => absurd (hnone 0 (-1) hblocked).2.1 (by decide)⟩
  · obtain ⟨f, hf, hfirst, hsecond⟩ : ∃ f, Machine.run step newServer indexReused = some f ∧
        f.Blocked 0 1 ∧ f.Blocked 1 1 :=
      ⟨_, rfl, ⟨_, _, rfl, rfl, by decide⟩, ⟨_, _, rfl, rfl, by decide⟩⟩
    refine ⟨f, hf, hfirst, hsecond, fun hnone => ?_⟩
    have hsame := (hnone 0 1 hfirst).1.symm.trans (hnone 1 1 hsecond).1
    cases hsame
  · obtain ⟨f, hf, hblocked, hmem⟩ : ∃ f, Machine.run step newServer snapshotJumps = some f ∧
        f.Blocked 0 1 ∧ 5 ∈ f.processed :=
      ⟨_, rfl, ⟨_, _, rfl, rfl, by decide⟩, by decide⟩
    exact ⟨f, hf, hblocked, hmem, fun hnone =>
      absurd ((hnone 0 1 hblocked).2.2 5 hmem) (by decide)⟩

end Frontend

end RaftLab
