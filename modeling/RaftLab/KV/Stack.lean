import RaftLab.Lib.Reach
import RaftLab.Cluster.CommittedLog
import RaftLab.KV.ExactlyOnce

set_option autoImplicit false

/-! # The whole service

Clerks, `KVServer`s and the Raft peers below them in one model. The handlers call `Start` and
`GetState` of their own peer, and `applyDaemon` consumes what the peer sends on `applyCh`. The
channel is unbuffered: a peer can send only when `applyDaemon` has dealt with everything before.
The call of `NewSnapShot` belongs to the step of `applyDaemon` that makes it. No server is
restarted.

`System` is the same service over a Raft that is taken for granted. `view` forgets the cluster but
for its committed log and what `GetState` returns at each peer. The clerks, and the handlers until
they call `Start`, see no more of Raft than this: their steps are those of `System`.

A run on which the cluster keeps a ledger, of a service that takes no snapshots, is seen as a run
of `System` in which Raft keeps its part (`stack_refines_system`), so that what holds of `System`
holds of the whole service (`stack_exactly_once_and_fresh`).
-/

namespace RaftLab

/-- `ns` servers and `nc` clerks. `consumed` counts the messages of its peer that `applyDaemon` of
a server has dealt with; `started` and `returned` record the past. -/
structure Stack (ns nc : Nat) where
  cluster : Cluster ns Op KVSnapshot
  stores : Fin ns → KVServer
  consumed : Fin ns → Nat
  started : List Op
  closed : List Nat
  calls : List (RemoteCall ns)
  clients : Fin nc → Client
  returned : List Returned

/-- Whether the event is a step of a clerk or of a handler, the call of `Start` apart. -/
def SystemEvent.isLocal {ns nc : Nat} : SystemEvent ns nc → Bool
  | .commit _ | .roleChange .. | .deliver .. | .enter .. => false
  | _ => true

/-- Whether the event is the beginning of a clerk's call, or a reply that reaches the clerk. -/
def SystemEvent.isClerk {ns nc : Nat} : SystemEvent ns nc → Bool
  | .begin .. | .done _ => true
  | _ => false

inductive StackEvent (ns nc : Nat) where
  /-- A step of a Raft peer, or of the network between the peers. -/
  | raft (e : Event ns Op KVSnapshot)
  /-- `applyDaemon` of a server deals with the message it has received. -/
  | apply (p : Fin ns) (raftStateSize : Int)
  /-- The critical section of the handler of call `k`, with its call of `Start`. -/
  | enter (k : Nat)
  /-- A step of a clerk, or another step of a handler. -/
  | act (e : SystemEvent ns nc)

def StackEvent.isClerk {ns nc : Nat} : StackEvent ns nc → Bool
  | .act e => e.isClerk
  | _ => false

namespace Stack

variable {ns nc : Nat}

def init (ids : Fin nc → Int) (maxraftstate : Int) : Stack ns nc :=
  { cluster := Cluster.init
    stores := fun _ => KVServer.startKVServer maxraftstate (Persister.makePersister (n := ns))
    consumed := fun _ => 0
    started := []
    closed := []
    calls := []
    clients := fun c => { clerk := Clerk.makeClerk ns (ids c), pending := none }
    returned := [] }

/-- The peer of a server. -/
def peer (s : Stack ns nc) (p : Fin ns) : Raft ns Op KVSnapshot := s.cluster.peers p

/-- The commands of the committed log. -/
def log (s : Stack ns nc) : List (Option Op) := s.cluster.committedLog.map LogEntry.command

/-- What the service sees of Raft at server `p`. -/
def replica (s : Stack ns nc) (p : Fin ns) : Replica ns :=
  { kv := s.stores p
    persister := Persister.makePersister
    term := (s.peer p).getState.1
    leader := (s.peer p).getState.2
    applied := s.consumed p }

/-- The service without the cluster. -/
def view (s : Stack ns nc) : System ns nc :=
  { log := s.log
    started := s.started
    servers := s.replica
    closed := s.closed
    calls := s.calls
    clients := s.clients
    returned := s.returned }

/-- The service moves as it is seen, and Raft does not. -/
def follow (s : Stack ns nc) (t : System ns nc) : Stack ns nc :=
  { s with
    stores := fun p => (t.servers p).kv
    started := t.started
    closed := t.closed
    calls := t.calls
    clients := t.clients
    returned := t.returned }

/-- The event is one of Raft itself, and a message that it sends on `applyCh` is received. -/
def ready (s : Stack ns nc) : Event ns Op KVSnapshot → Bool
  | .start .. | .newSnapShot .. | .crash _ => false
  | .applySend p => s.consumed p = (s.cluster.applied p).length
  | .installSnapshot k =>
      s.cluster.snapshotCalls[k]?.all fun call =>
        s.consumed call.dst = (s.cluster.applied call.dst).length
  | _ => true

def stepRaft (s : Stack ns nc) (e : Event ns Op KVSnapshot) : Option (Stack ns nc) := do
  guard (s.ready e)
  let cluster ← s.cluster.step e
  pure { s with cluster := cluster }

/-- `applyDaemon` is done with a message at server `p`, and has closed the channel `ch`. -/
def finish (s : Stack ns nc) (p : Fin ns) (kv : KVServer) (ch : Option Nat) : Stack ns nc :=
  { s with
    stores := Function.update s.stores p kv
    consumed := Function.update s.consumed p (s.consumed p + 1)
    closed := s.closed ++ ch.toList }

/-- The persister of a server has been written to. -/
def setPersister (s : Stack ns nc) (p : Fin ns) (persister : Persister ns Op KVSnapshot) :
    Stack ns nc :=
  { s with cluster := s.cluster.setPeer p { s.peer p with persister := persister } }

/-- The body of `applyDaemon` for the message it has received. -/
def stepApply (s : Stack ns nc) (p : Fin ns) (raftStateSize : Int) : Option (Stack ns nc) := do
  let msg ← (s.cluster.applied p)[s.consumed p]?
  let kv := s.stores p
  if msg.useSnapshot then
    let (kv', persister, _) :=
      (kv.readSnapshot msg.snapshot).generateSnapshot (s.peer p).persister msg.commandIndex
    pure ((s.setPersister p persister).finish p kv' none)
  else
    match msg.command with
    | none => pure (s.finish p kv none)
    | some cmd =>
        if msg.commandIndex > kv.snapshotIndex then do
          let (kv', persister, snapshot) ←
            kv.applyCommand (s.peer p).persister raftStateSize msg.commandIndex cmd
          let s' := s.setPersister p persister
          let cluster ← match snapshot with
            | none => some s'.cluster
            | some data => s'.cluster.step (.newSnapShot p (some data) msg.commandIndex)
          let (kv'', ch) := kv'.notify msg.commandIndex
          pure ({ s' with cluster := cluster }.finish p kv'' ch)
        else pure (s.finish p kv none)

def stepEnter (s : Stack ns nc) (k : Nat) : Option (Stack ns nc) := do
  let call ← s.calls[k]?
  guard (call.handler = .checked)
  match (s.stores call.dst).filterDuplicate call.request with
  | some reply => pure (s.follow (s.view.setHandler k call (.replied reply)))
  | none =>
      let (rf, index, term, isLeader) := (s.peer call.dst).start (some call.request.cmd)
      pure { s.follow (s.view.register k call index term) with
        cluster := s.cluster.setPeer call.dst rf
        started := s.started ++ if isLeader then [call.request.cmd] else [] }

def stepAct (s : Stack ns nc) (e : SystemEvent ns nc) : Option (Stack ns nc) := do
  guard e.isLocal
  let t ← s.view.step e
  pure (s.follow t)

def step (s : Stack ns nc) : StackEvent ns nc → Option (Stack ns nc)
  | .raft e => s.stepRaft e
  | .apply p raftStateSize => s.stepApply p raftStateSize
  | .enter k => s.stepEnter k
  | .act e => s.stepAct e

/-- On a step of Raft the cluster keeps a ledger. -/
def RaftSafe (s : Stack ns nc) : StackEvent ns nc → Prop
  | .raft e => s.cluster.KeepsLedger e
  | _ => True

instance (s : Stack ns nc) : (e : StackEvent ns nc) → Decidable (s.RaftSafe e)
  | .raft e => inferInstanceAs (Decidable (s.cluster.KeepsLedger e))
  | .apply .. | .enter _ | .act _ => isTrue trivial

/-! ## What each step does -/

variable {s s' : Stack ns nc}

theorem stepRaft_eq_some {e : Event ns Op KVSnapshot} (h : s.stepRaft e = some s') :
    s.ready e = true ∧ ∃ cluster, s.cluster.step e = some cluster ∧
      s' = { s with cluster := cluster } := by
  simp only [stepRaft, Option.bind_eq_bind, Option.bind_eq_some_iff, Option.guard_eq_some',
    Option.pure_def, Option.some.injEq] at h
  obtain ⟨-, hready, cluster, hcluster, rfl⟩ := h
  exact ⟨hready, cluster, hcluster, rfl⟩

theorem stepEnter_eq_some {k : Nat} (h : s.stepEnter k = some s') :
    ∃ call, s.calls[k]? = some call ∧ call.handler = .checked ∧
      ((∃ reply, (s.stores call.dst).filterDuplicate call.request = some reply ∧
          s' = s.follow (s.view.setHandler k call (.replied reply))) ∨
        (s.stores call.dst).filterDuplicate call.request = none ∧
          ∃ rf index term isLeader,
            (s.peer call.dst).start (some call.request.cmd) = (rf, index, term, isLeader) ∧
            s' = { s.follow (s.view.register k call index term) with
              cluster := s.cluster.setPeer call.dst rf
              started := s.started ++ if isLeader then [call.request.cmd] else [] }) := by
  simp only [stepEnter, Option.bind_eq_bind, Option.bind_eq_some_iff,
    Option.guard_eq_some'] at h
  obtain ⟨call, hcall, -, hchecked, h⟩ := h
  refine ⟨call, hcall, hchecked, ?_⟩
  split at h
  · rename_i reply hreply
    exact Or.inl ⟨reply, hreply, (Option.some.inj h).symm⟩
  · rename_i hnone
    exact Or.inr ⟨hnone, _, _, _, _, rfl, (Option.some.inj h).symm⟩

theorem stepAct_eq_some {e : SystemEvent ns nc} (h : s.stepAct e = some s') :
    e.isLocal = true ∧ ∃ t, s.view.step e = some t ∧ s' = s.follow t := by
  simp only [stepAct, Option.bind_eq_bind, Option.bind_eq_some_iff, Option.guard_eq_some',
    Option.pure_def, Option.some.injEq] at h
  obtain ⟨-, hlocal, t, ht, rfl⟩ := h
  exact ⟨hlocal, t, ht, rfl⟩

/-- A service without snapshots applies a command and tells nobody but the waiting request. -/
theorem applyCommand_of_neg {kv kv' : KVServer} {persist persist' : Persister ns Op KVSnapshot}
    {size index : Int} {cmd : Op} {out : Option KVSnapshot} (hmax : kv.maxraftstate < 0)
    (h : kv.applyCommand persist size index cmd = some (kv', persist', out)) :
    persist' = persist ∧ out = none ∧ kv'.maxraftstate = kv.maxraftstate ∧
      ∀ other : Persister ns Op KVSnapshot,
        kv.applyCommand other size index cmd = some (kv', other, none) := by
  have hneed : ∀ t : Tables, ({ kv with toTables := t } : KVServer).needSnapshot size = false :=
    fun t => if_pos hmax
  simp only [KVServer.applyCommand, hneed, Option.bind_eq_bind, Option.bind_eq_some_iff,
    Bool.false_eq_true, if_false, Option.pure_def, Option.some.injEq, Prod.mk.injEq] at h ⊢
  obtain ⟨t, ht, rfl, rfl, rfl⟩ := h
  exact ⟨rfl, rfl, rfl, fun other => ⟨t, ht, rfl, trivial⟩⟩

theorem notify_maxraftstate (kv : KVServer) (index : Int) :
    (kv.notify index).1.maxraftstate = kv.maxraftstate := by
  unfold KVServer.notify
  split <;> rfl

theorem setPersister_self (s : Stack ns nc) (p : Fin ns) :
    s.setPersister p (s.peer p).persister = s := by
  have hset : s.cluster.setPeer p (s.peer p) = s.cluster := by
    rw [Cluster.setPeer, peer, Function.update_eq_self]
  show ({ s with cluster := s.cluster.setPeer p (s.peer p) } : Stack ns nc) = s
  rw [hset]

/-- Without snapshots, dealing with the message of an entry is what `System` does with the entry. -/
theorem stepApply_eq_some {p : Fin ns} {size : Int} {msg : ApplyMsg Op KVSnapshot}
    (hmax : (s.stores p).maxraftstate < 0)
    (hmsg : (s.cluster.applied p)[s.consumed p]? = some msg) (hplain : msg.useSnapshot = false)
    (hidx : msg.commandIndex = (s.consumed p + 1 : Nat)) (h : s.stepApply p size = some s') :
    ∃ kv ch, System.consume (s.replica p) size msg.command =
        some ({ s.replica p with kv := kv, applied := s.consumed p + 1 }, ch) ∧
      kv.maxraftstate < 0 ∧ s' = s.finish p kv ch := by
  simp only [stepApply, hmsg, Option.bind_eq_bind, Option.bind_some, hplain, Bool.false_eq_true,
    if_false, hidx] at h
  split at h
  · rename_i hnone
    refine ⟨s.stores p, none, ?_, hmax, (Option.some.inj h).symm⟩
    rw [hnone]
    rfl
  · rename_i cmd hcmd
    rw [hcmd]
    split at h
    · rename_i hgt
      rw [Option.bind_eq_some_iff] at h
      obtain ⟨⟨kv, persister, out⟩, happ, h⟩ := h
      obtain ⟨rfl, rfl, hkv, hother⟩ := applyCommand_of_neg hmax happ
      simp only [setPersister_self] at h
      refine ⟨(kv.notify (s.consumed p + 1 : Nat)).1, (kv.notify (s.consumed p + 1 : Nat)).2, ?_,
        ?_, (Option.some.inj h).symm⟩
      · have hcons : ((s.replica p).applied + 1 : Nat) > (s.replica p).kv.snapshotIndex := hgt
        rw [System.consume, if_pos hcons]
        show (KVServer.applyCommand (s.stores p) Persister.makePersister size
          (s.consumed p + 1 : Nat) cmd >>= _) = _
        rw [hother]
        rfl
      · rw [notify_maxraftstate, hkv]
        exact hmax
    · rename_i hle
      refine ⟨s.stores p, none, ?_, hmax, (Option.some.inj h).symm⟩
      exact if_neg hle

/-! ## Moves of the system -/

/-- Moves of `System` over a Raft that keeps its part, of clerks or of others. -/
abbrev Seen (clerk : Bool) (t t' : System ns nc) : Prop :=
  Machine.Leads System.step (fun t e => t.RaftKeeps e ∧ e.isClerk = clerk) t t'

/-- Raft commits commands that have been started. -/
theorem seen_commits (t : System ns nc) (l : List (Option Op))
    (h : ∀ op, some op ∈ l → op ∈ t.started) : Seen false t { t with log := t.log ++ l } := by
  induction l generalizing t with
  | nil =>
      rw [List.append_nil]
      exact .refl _ t
  | cons command l ih =>
      have hstep : t.step (.commit command) = some { t with log := t.log ++ [command] } := by
        refine if_pos fun op hop => h op ?_
        rw [Option.mem_def.mp hop]
        exact List.mem_cons_self
      have hrest := ih { t with log := t.log ++ [command] }
        fun op hop => h op (List.mem_cons_of_mem _ hop)
      rw [List.append_assoc] at hrest
      exact .trans (.single (e := .commit command) ⟨trivial, rfl⟩ hstep) hrest

/-- The terms and the roles of servers change. -/
theorem seen_roleChanges (t : System ns nc) (term : Fin ns → Nat) (leader : Fin ns → Bool)
    (ps : List (Fin ns)) :
    Seen false t { t with servers := fun p => if p ∈ ps then
      { t.servers p with term := term p, leader := leader p } else t.servers p } := by
  induction ps generalizing t with
  | nil => exact .refl _ t
  | cons q ps ih =>
      refine .trans (.single (e := .roleChange q (term q) (leader q)) ⟨trivial, rfl⟩ rfl) ?_
      refine (congrArg (Seen false _) ?_).mp (ih _)
      simp only [System.setServer]
      congr 1
      funext p
      by_cases hq : p = q
      · subst hq
        simp
      · simp [hq]

/-- What Raft may do, as the service sees it. -/
theorem seen_raft (t : System ns nc) (l : List (Option Op))
    (h : ∀ op, some op ∈ l → op ∈ t.started) (term : Fin ns → Nat) (leader : Fin ns → Bool) :
    Seen false t { t with
      log := t.log ++ l
      servers := fun p => { t.servers p with term := term p, leader := leader p } } := by
  have hroles := seen_roleChanges { t with log := t.log ++ l } term leader (List.finRange ns)
  simp only [List.mem_finRange, if_true] at hroles
  exact (seen_commits t l h).trans hroles

/-- A step of a clerk or of a handler leaves Raft and the stores alone, and nobody begins to
wait. -/
theorem local_step {t t' : System ns nc} {e : SystemEvent ns nc} (hlocal : e.isLocal = true)
    (h : t.step e = some t') :
    t'.log = t.log ∧ t'.started = t.started ∧ t'.servers = t.servers ∧
      ∀ call ∈ t'.calls, ∀ index term, call.handler = .waiting index term → call ∈ t.calls := by
  have hsame : ∀ call ∈ t.calls, ∀ index term, call.handler = Handler.waiting index term →
      call ∈ t.calls := fun _ hcall _ _ _ => hcall
  cases e with
  | commit command => cases hlocal
  | roleChange p term leader => cases hlocal
  | deliver p size => cases hlocal
  | enter k index => cases hlocal
  | check k =>
      obtain ⟨call, hd, -, -, hhd, rfl⟩ := System.stepCheck_eq_some h
      refine ⟨rfl, rfl, rfl, Records.forall_mem_set hsame fun index term hw => ?_⟩
      rcases hhd with rfl | rfl <;> cases hw
  | wake k =>
      obtain ⟨call, i, tm, -, -, -, rfl⟩ := System.stepWake_eq_some h
      refine ⟨rfl, rfl, rfl, Records.forall_mem_set hsame fun index term hw => ?_⟩
      have hw : System.afterWake (t.servers call.dst) call.request tm = .waiting index term := hw
      unfold System.afterWake at hw
      split at hw
      · cases hw
      · split at hw <;> cases hw
  | read k =>
      obtain ⟨call, args, -, -, -, rfl⟩ := System.stepRead_eq_some h
      exact ⟨rfl, rfl, rfl, Records.forall_mem_set hsame fun index term hw => by cases hw⟩
  | begin c call =>
      obtain ⟨-, rfl⟩ := System.stepBegin_eq_some h
      exact ⟨rfl, rfl, rfl, hsame⟩
  | send c =>
      obtain ⟨pd, dst, -, rfl⟩ := System.stepSend_eq_some h
      exact ⟨rfl, rfl, rfl,
        Records.forall_mem_append_singleton hsame fun index term hw => by cases hw⟩
  | giveUp c =>
      obtain ⟨pd, -, rfl⟩ := System.stepGiveUp_eq_some h
      exact ⟨rfl, rfl, rfl, hsame⟩
  | done c =>
      obtain ⟨pd, k, call, reply, -, -, -, -, ⟨value, -, rfl⟩ | rfl⟩ := System.stepDone_eq_some h
      · exact ⟨rfl, rfl, rfl, hsame⟩
      · exact ⟨rfl, rfl, rfl, hsame⟩

/-! ## The service in step with the cluster -/

open Cluster (Shows Orderly EntriesIn Promised)

variable {a a' : Ledger (Fin ns) (LogEntry Op)}

/-- The cluster shows the ledger `a`; all commands in it have been started; what `Start` has
promised to the waiting handlers is in the ledger; and `applyDaemon` has consumed messages about
committed entries only. No snapshot is ever due. -/
structure Grounded (s : Stack ns nc) (a : Ledger (Fin ns) (LogEntry Op)) : Prop where
  ledger : Shows s.cluster a
  orderly : Orderly s.cluster
  entries : EntriesIn (fun e => ∀ op, e.command = some op → op ∈ s.started) s.cluster
  promised : ∀ call ∈ s.calls, ∀ index term, call.handler = .waiting index term → 0 < index →
    Promised a index term (some call.request.cmd)
  consumed : ∀ p, s.consumed p ≤ (s.peer p).committed.length
  maxraftstate : ∀ p, (s.stores p).maxraftstate < 0

theorem Grounded.started (h : s.Grounded a) {op : Op} (hop : some op ∈ s.log) :
    op ∈ s.started := by
  obtain ⟨e, he, hcmd⟩ := List.mem_map.mp hop
  rcases (Cluster.committedLog_spec s.cluster).1 with hnil | ⟨p, hp⟩
  · rw [hnil] at he
    cases he
  · rw [hp] at he
    exact h.entries.logs p e (List.mem_of_mem_take (List.mem_of_mem_drop he)) op hcmd

/-- The service has moved, and Raft has gone on meanwhile. -/
theorem Grounded.seen (h' : s'.Grounded a') {t : System ns nc} (hlog : t.log <+: s'.log)
    (ht : { t with
      log := s'.log
      servers := fun p => { t.servers p with
        term := (s'.replica p).term, leader := (s'.replica p).leader } } = s'.view) :
    Seen false t s'.view := by
  obtain ⟨l, hl⟩ := hlog
  have hstarted : t.started = s'.started := congrArg System.started ht
  have hraft := seen_raft t l (fun op hop => ?_) (fun p => (s'.replica p).term)
    (fun p => (s'.replica p).leader)
  · rw [hl, ht] at hraft
    exact hraft
  · rw [hstarted]
    refine h'.started ?_
    rw [← hl]
    exact List.mem_append_right _ hop

theorem log_isPrefix {c c' : Cluster ns Op KVSnapshot} (h : c.committedLog <+: c'.committedLog) :
    c.committedLog.map LogEntry.command <+: c'.committedLog.map LogEntry.command := h.map _

theorem grounded_raft {e : Event ns Op KVSnapshot} (h : s.Grounded a)
    (hok : s.cluster.KeepsLedger e) (hs : s.stepRaft e = some s') :
    ∃ a', s'.Grounded a' ∧ Seen false s.view s'.view := by
  obtain ⟨hready, c, hc, rfl⟩ := stepRaft_eq_some hs
  obtain ⟨p, a', hm, h'⟩ := Cluster.shows_step h.ledger hok hc
  have hcom := Cluster.committed_step h.ledger h.orderly hok hc
  have hcrash : e.isCrash = false := by
    cases e with
    | crash p => cases hready
    | _ => rfl
  have hgr : ({ s with cluster := c } : Stack ns nc).Grounded a' := by
    refine { h with ledger := h', orderly := ?_, entries := ?_, promised := ?_, consumed := ?_ }
    · exact Cluster.orderly_step h.ledger h.orderly hok hc
    · refine h.entries.step (fun t op hop => by cases hop) hcrash (fun q command he => ?_) hc
      subst he
      cases hready
    · intro call hcall index term hw hpos
      exact (h.promised call hcall index term hw hpos).extend (h.ledger.sound.moves hm).2.ext
    · intro q
      exact Nat.le_trans (h.consumed q) (hcom q).length_le
  refine ⟨a', hgr, hgr.seen ?_ rfl⟩
  exact log_isPrefix (Cluster.committedLog_isPrefix h' hcom)

theorem grounded_act {e : SystemEvent ns nc} (h : s.Grounded a) (hs : s.stepAct e = some s') :
    s'.Grounded a ∧ s.view.step e = some s'.view := by
  obtain ⟨hlocal, t, ht, rfl⟩ := stepAct_eq_some hs
  obtain ⟨hlog, hstarted, hservers, hwait⟩ := local_step hlocal ht
  constructor
  · refine { h with entries := ?_, promised := ?_, maxraftstate := ?_ }
    · show EntriesIn (fun e => ∀ op, e.command = some op → op ∈ t.started) s.cluster
      rw [hstarted]
      exact h.entries
    · intro call hcall index term hw
      exact h.promised call (hwait call hcall index term hw) index term hw
    · intro p
      show (t.servers p).kv.maxraftstate < 0
      rw [hservers]
      exact h.maxraftstate p
  · rw [ht]
    have hview : (s.follow t).view = { t with log := s.log, servers := s.replica } := by
      have hkv : (fun p => (t.servers p).kv) = s.stores := by
        rw [hservers]
        rfl
      rw [follow, hkv]
      rfl
    rw [hview, show s.log = t.log from hlog.symm, show s.replica = t.servers from hservers.symm]

/-- The next message to consume is about the entry of the committed log at this place. -/
theorem Grounded.next_message (h : s.Grounded a) {p : Fin ns} {msg : ApplyMsg Op KVSnapshot}
    (hmsg : (s.cluster.applied p)[s.consumed p]? = some msg) :
    s.consumed p < (s.peer p).committed.length ∧ s.log[s.consumed p]? = some msg.command ∧
      msg.useSnapshot = false ∧ msg.commandIndex = (s.consumed p + 1 : Nat) := by
  obtain ⟨rest, hrest⟩ := h.orderly.applied_isPrefix p
  have hat : (Raft.applyMsgs 1 (s.peer p).committed :
      List (ApplyMsg Op KVSnapshot))[s.consumed p]? = some msg := by
    rw [peer, ← hrest, List.getElem?_append_left (List.getElem?_eq_some_iff.mp hmsg).1]
    exact hmsg
  rw [Cluster.getElem?_applyMsgs, Option.map_eq_some_iff] at hat
  obtain ⟨e, he, rfl⟩ := hat
  obtain ⟨hlt, -⟩ := List.getElem?_eq_some_iff.mp he
  refine ⟨hlt, ?_, rfl, by push_cast; omega⟩
  obtain ⟨more, hmore⟩ := Cluster.committed_prefix_committedLog h.ledger p
  have hget : s.cluster.committedLog[s.consumed p]? = some e := by
    rw [← hmore]
    exact getElem?_append_of_eq_some he more
  rw [log, List.getElem?_map, hget]
  rfl

theorem view_finish (s : Stack ns nc) (p : Fin ns) (kv : KVServer) (ch : Option Nat) :
    (s.finish p kv ch).view =
      { s.view.setServer p { s.replica p with kv := kv, applied := s.consumed p + 1 } with
        closed := s.closed ++ ch.toList } := by
  simp only [view, System.setServer, System.mk.injEq]
  refine ⟨rfl, rfl, ?_, rfl, rfl, rfl, rfl⟩
  funext q
  by_cases hq : q = p
  · subst hq
    simp [replica, finish, peer]
  · simp [replica, finish, peer, hq]

theorem grounded_apply {p : Fin ns} {size : Int} (h : s.Grounded a)
    (hs : s.stepApply p size = some s') :
    s'.Grounded a ∧ s.view.step (.deliver p size) = some s'.view := by
  obtain ⟨msg, hmsg, -⟩ := Option.bind_eq_some_iff.mp hs
  obtain ⟨hlt, hentry, hplain, hidx⟩ := h.next_message hmsg
  obtain ⟨kv, ch, hcons, hmax, rfl⟩ :=
    stepApply_eq_some (h.maxraftstate p) hmsg hplain hidx hs
  constructor
  · refine { h with consumed := ?_, maxraftstate := ?_ }
    · exact (Function.forall_update_iff s.consumed
        fun q m => m ≤ (s.peer q).committed.length).mpr ⟨hlt, fun q _ => h.consumed q⟩
    · exact (Function.forall_update_iff s.stores fun _ kv => kv.maxraftstate < 0).mpr
        ⟨hmax, fun q _ => h.maxraftstate q⟩
  · have hentry : s.view.log[(s.view.servers p).applied]? = some msg.command := hentry
    have hcons : System.consume (s.view.servers p) size msg.command = _ := hcons
    rw [view_finish]
    show s.view.stepDeliver p size = _
    rw [System.stepDeliver, hentry, Option.bind_eq_bind, Option.bind_some, hcons]
    rfl

/-- When a handler goes on, its entry is in the committed log, if its server still leads the term
of the call of `Start`. -/
theorem Grounded.raftKeeps (h : s.Grounded a) (hinv : s.view.Inv) {e : SystemEvent ns nc}
    {t : System ns nc} (hs : s.view.step e = some t) : s.view.RaftKeeps e := by
  cases e with
  | wake k =>
      intro call index term hcall hw hpos hlead hterm
      obtain ⟨call', i', term', hcall', hclosed, -, -⟩ := System.stepWake_eq_some hs
      obtain ⟨call'', hcall'', j, hpast, hj⟩ := hinv.served.closed k hclosed
      obtain rfl : call = call'' := Option.some.inj (hcall.symm.trans hcall'')
      -- the channel was closed for the index under which the handler has registered it
      rw [hw] at hpast
      obtain rfl : index = j + 1 := hpast
      have hlead : (s.peer call.dst).state = .leader := of_decide_eq_true hlead
      have hentry := (h.promised call (List.mem_of_getElem? hcall) _ term hw hpos).entry
        h.ledger hlead hterm
      have hj : j < (s.peer call.dst).committed.length :=
        Nat.lt_of_lt_of_le hj (h.consumed call.dst)
      have hci : (j : Int) + 1 ≤ (s.peer call.dst).commitIndex := by
        rw [Raft.committed, List.length_drop, List.length_take] at hj
        omega
      have hget := Cluster.committedLog_getElem? h.ledger h.orderly (p := call.dst) hci
      rw [show ((j : Int) + 1).toNat = j + 1 by omega] at hentry
      rw [show ((j : Int) + 1 - 1).toNat = j by omega]
      show (s.cluster.committedLog.map LogEntry.command)[j]? = _
      rw [List.getElem?_map, hget, hentry]
      rfl
  | _ => trivial

/-- The system can enter the critical section with the index that `Start` returns. -/
theorem Grounded.enter (h : s.Grounded a) {k : Nat} {call : RemoteCall ns}
    {rf : Raft ns Op KVSnapshot} {index : Int} {term : Nat} {isLeader : Bool}
    (hcall : s.calls[k]? = some call) (hchecked : call.handler = .checked)
    (hnone : (s.stores call.dst).filterDuplicate call.request = none)
    (hstart : (s.peer call.dst).start (some call.request.cmd) = (rf, index, term, isLeader)) :
    s.view.step (.enter k index) = some { s.view.register k call index term with
      started := s.started ++ if isLeader then [call.request.cmd] else [] } := by
  have hcall : s.view.calls[k]? = some call := hcall
  have hnone : (s.view.servers call.dst).kv.filterDuplicate call.request = none := hnone
  show s.view.stepEnter k index = _
  simp only [System.stepEnter, hcall, hchecked, hnone, Option.bind_eq_bind, Option.bind_some,
    guard_true, Option.pure_def]
  have hp := h.ledger.peers call.dst
  by_cases hl : (s.peer call.dst).state = .leader
  · have hlead : (s.view.servers call.dst).leader = true := decide_eq_true hl
    have hret := Cluster.start_eq_of_leader hl hp.snapshotIndex (some call.request.cmd)
    rw [hstart] at hret
    cases hret
    have hin := h.orderly.inOrder call.dst
    have hpos : (0 : Int) < (s.peer call.dst).logs.length :=
      Int.lt_of_le_of_lt (Int.le_trans hp.lastApplied hin.lastApplied_le) hin.commitIndex_lt
    rw [if_pos hlead, if_pos rfl]
    simp only [hpos, guard_true, Option.pure_def, Option.bind_some]
    rfl
  · have hlead : (s.view.servers call.dst).leader = false := decide_eq_false hl
    rw [Raft.start, if_neg hl] at hstart
    cases hstart
    rw [hlead, if_neg Bool.false_ne_true, if_neg Bool.false_ne_true, List.append_nil]
    rfl

/-- After a call of `Start` the service is in step with the cluster. -/
theorem Grounded.start (h : s.Grounded a) {k : Nat} {call : RemoteCall ns}
    {rf : Raft ns Op KVSnapshot} {index : Int} {term : Nat} {isLeader : Bool}
    (hstart : (s.peer call.dst).start (some call.request.cmd) = (rf, index, term, isLeader)) :
    ∃ a', ({ s.follow (s.view.register k call index term) with
        cluster := s.cluster.setPeer call.dst rf
        started := s.started ++ if isLeader then [call.request.cmd] else [] } :
          Stack ns nc).Grounded a' ∧
      s.cluster.committedLog <+: (s.cluster.setPeer call.dst rf).committedLog := by
  have hrf : rf = ((s.peer call.dst).start (some call.request.cmd)).1 := by rw [hstart]
  have hc : s.cluster.step (.start call.dst (some call.request.cmd)) =
      some (s.cluster.setPeer call.dst rf) := by
    rw [hrf]
    rfl
  have hok := Cluster.keepsLedger_start s.cluster call.dst (some call.request.cmd)
  obtain ⟨p, a', hm, h'⟩ := Cluster.shows_step h.ledger hok hc
  have hcom := Cluster.committed_step h.ledger h.orderly hok hc
  refine ⟨a', ?_, Cluster.committedLog_isPrefix h' hcom⟩
  constructor
  case ledger => exact h'
  case orderly => exact Cluster.orderly_step h.ledger h.orderly hok hc
  case entries =>
    have hmono : EntriesIn (fun e => ∀ op, e.command = some op →
        op ∈ s.started ++ if isLeader then [call.request.cmd] else []) s.cluster :=
      h.entries.mono fun e he op hop => List.mem_append_left _ (he op hop)
    refine hmono.step (fun t op hop => by cases hop) rfl (fun q command he hl => ?_) hc
    cases he
    rintro op ⟨⟩
    have hret := Cluster.start_eq_of_leader hl (h.ledger.peers call.dst).snapshotIndex
      (some call.request.cmd)
    rw [show (s.cluster.peers call.dst).start (some call.request.cmd) = _ from hstart] at hret
    cases hret
    exact List.mem_append_right _ (List.mem_singleton_self _)
  case promised =>
    refine Records.forall_mem_set (fun c hcall i t hw hpos =>
      (h.promised c hcall i t hw hpos).extend (h.ledger.sound.moves hm).2.ext) ?_
    intro i t hw hpos
    cases hw
    by_cases hl : (s.peer call.dst).state = .leader
    · have hret := Cluster.start_eq_of_leader hl (h.ledger.peers call.dst).snapshotIndex
        (some call.request.cmd)
      rw [hstart] at hret
      cases hret
      exact Cluster.promised_of_start h' hl hc
    · rw [Raft.start, if_neg hl] at hstart
      cases hstart
      cases hpos
  case consumed =>
    intro q
    exact Nat.le_trans (h.consumed q) (hcom q).length_le
  case maxraftstate =>
    exact (Function.forall_update_iff s.replica fun _ r => r.kv.maxraftstate < 0).mpr
      ⟨h.maxraftstate call.dst, fun q _ => h.maxraftstate q⟩

theorem grounded_enter {k : Nat} (h : s.Grounded a) (hs : s.stepEnter k = some s') :
    ∃ a', s'.Grounded a' ∧ Seen false s.view s'.view := by
  obtain ⟨call, hcall, hchecked, ⟨reply, hreply, rfl⟩ |
    ⟨hnone, rf, index, term, isLeader, hstart, rfl⟩⟩ := stepEnter_eq_some hs
  · refine ⟨a, { h with promised := ?_ }, .single (e := .enter k 0) ⟨trivial, rfl⟩ ?_⟩
    · exact Records.forall_mem_set h.promised fun i t hw => by cases hw
    · have hcall : s.view.calls[k]? = some call := hcall
      have hreply : (s.view.servers call.dst).kv.filterDuplicate call.request = some reply := hreply
      show s.view.stepEnter k 0 = _
      simp only [System.stepEnter, hcall, hchecked, hreply, Option.bind_eq_bind, Option.bind_some,
        guard_true, Option.pure_def]
      rfl
  · obtain ⟨a', hgr, hlog⟩ := h.start (k := k) hstart
    refine ⟨a', hgr, .trans (.single (e := .enter k index) ⟨trivial, rfl⟩
      (h.enter hcall hchecked hnone hstart)) (hgr.seen (log_isPrefix hlog) ?_)⟩
    simp only [view, System.register, System.setHandler, System.setServer, follow, System.mk.injEq,
      and_true, true_and]
    funext q
    by_cases hq : q = call.dst
    · subst hq
      simp [replica, peer, Cluster.setPeer]
    · simp [replica, peer, Cluster.setPeer, hq]

/-- A service without snapshots starts in step with the cluster. -/
theorem grounded_init (ids : Fin nc → Int) {maxraftstate : Int} (hmax : maxraftstate < 0) :
    (init ids maxraftstate : Stack ns nc).Grounded (Ledger.initial LogEntry.placeholder) where
  ledger := Cluster.shows_init
  orderly := Cluster.orderly_init
  entries := EntriesIn.init fun _ op hop => by cases hop
  promised := fun call hcall => by cases hcall
  consumed := fun p => Nat.zero_le _
  maxraftstate := fun p => hmax

theorem view_init (ids : Fin nc → Int) (maxraftstate : Int) :
    (init ids maxraftstate : Stack ns nc).view = System.init ids maxraftstate := by
  have hlog : (init ids maxraftstate : Stack ns nc).log = [] := by
    rw [log]
    rcases (Cluster.committedLog_spec (Cluster.init : Cluster ns Op KVSnapshot)).1 with h | ⟨p, h⟩
    · exact congrArg (List.map LogEntry.command) h
    · exact congrArg (List.map LogEntry.command) h
  rw [view, hlog]
  rfl

theorem grounded_step {e : StackEvent ns nc} (h : s.Grounded a) (hinv : s.view.Inv)
    (hok : s.RaftSafe e) (hs : s.step e = some s') :
    ∃ a', s'.Grounded a' ∧ Seen e.isClerk s.view s'.view := by
  cases e with
  | raft e => exact grounded_raft h hok hs
  | apply p size =>
      obtain ⟨h', hview⟩ := grounded_apply h hs
      exact ⟨a, h', .single (e := .deliver p size) ⟨trivial, rfl⟩ hview⟩
  | enter k => exact grounded_enter h hs
  | act e =>
      obtain ⟨h', hview⟩ := grounded_act h hs
      exact ⟨a, h', .single ⟨h.raftKeeps hinv hview, rfl⟩ hview⟩

/-- The invariant of the service and of the cluster. -/
def Inv (s : Stack ns nc) : Prop := s.view.Inv ∧ ∃ a, s.Grounded a

theorem inv_of_seen {clerk : Bool} (h : s.Inv) (h' : ∃ a, s'.Grounded a)
    (hseen : Seen clerk s.view s'.view) : s'.Inv :=
  ⟨hseen.induction (fun _ _ _ hi hok hs => System.inv_step hi hok.1 hs) h.1, h'⟩

theorem inv_start {ids : Fin nc → Int} (hids : Function.Injective ids) {maxraftstate : Int}
    (hmax : maxraftstate < 0) : (init ids maxraftstate : Stack ns nc).Inv := by
  refine ⟨?_, _, grounded_init ids hmax⟩
  rw [view_init]
  exact System.inv_init hids maxraftstate

/-- Along a run the service stays in step with the cluster, and is seen to move as `System`. -/
theorem seen_run {ids : Fin nc → Int} (hids : Function.Injective ids) {maxraftstate : Int}
    (hmax : maxraftstate < 0) {es : List (StackEvent ns nc)}
    (hok : Machine.Along step RaftSafe (init ids maxraftstate) es)
    (hr : Machine.run step (init ids maxraftstate) es = some s) :
    s.Inv ∧ Machine.Leads System.step System.RaftKeeps (System.init ids maxraftstate) s.view := by
  rw [← view_init]
  refine Machine.leads_of_run (I := Inv) ?_ (inv_start hids hmax) hok hr
  intro s e s' hinv hsafe hs
  obtain ⟨a, h⟩ := hinv.2
  obtain ⟨a', h', hseen⟩ := grounded_step h hinv.1 hsafe hs
  exact ⟨inv_of_seen hinv ⟨a', h'⟩ hseen, hseen.mono fun _ _ hok => hok.1⟩

/-- **The service over the cluster is the service over an ideal Raft.** In every run of clerks,
servers and peers on which the cluster keeps a ledger, of a service that takes no snapshots, the
clerks and the servers move as over a Raft with one committed log: the events of `System` that
lead there exist, and Raft keeps its promise at every one of them. -/
theorem stack_refines_system {ids : Fin nc → Int} (hids : Function.Injective ids)
    {maxraftstate : Int} (hmax : maxraftstate < 0) {es : List (StackEvent ns nc)}
    (hok : Machine.Along step RaftSafe (init ids maxraftstate) es)
    (hr : Machine.run step (init ids maxraftstate) es = some s) :
    ∃ fs, Machine.Along System.step System.RaftKeeps (System.init ids maxraftstate) fs ∧
      Machine.run System.step (System.init ids maxraftstate) fs = some s.view :=
  (seen_run hids hmax hok hr).2

/-- Server `0` of three is elected; a clerk appends at it and reads the key, and the entries are
replicated to server `1`. -/
def served : List (StackEvent 3 1) :=
  [.raft (.canvassVotes 0), .raft (.requestVote 0), .raft (.voteReply 0),
   .act (.begin 0 (.putAppend "x" "a" .append)), .act (.send 0), .act (.check 0), .enter 0,
   .raft (.consistencyCheck 0 1), .raft (.appendEntries 0), .raft (.appendReply 0),
   .raft (.applyTake 0 []), .raft (.applySend 0), .apply 0 0, .act (.wake 0), .act (.done 0),
   .act (.begin 0 (.get "x")), .act (.send 0), .act (.check 1), .enter 1,
   .raft (.consistencyCheck 0 1), .raft (.appendEntries 1), .raft (.appendReply 1),
   .raft (.applyTake 0 []), .raft (.applySend 0), .apply 0 0, .act (.wake 1), .act (.read 1),
   .act (.done 0)]

theorem raftSafe_served : Machine.Along step RaftSafe (init (fun _ => 7) (-1)) served := by
  decide

theorem returned_served : ∃ s : Stack 3 1,
    Machine.run step (init (fun _ => 7) (-1)) served = some s ∧
      s.returned.map Returned.value = ["", "a"] := by
  have hrun : (Machine.run step (init (fun _ => 7) (-1)) served).any
      (fun s => s.returned.map Returned.value = ["", "a"]) = true := by decide
  obtain ⟨s, hs, hret⟩ := (Option.any_eq_true _ _).mp hrun
  exact ⟨s, hs, of_decide_eq_true hret⟩

theorem stack_refines_system_served : ∃ s : Stack 3 1,
    Machine.run step (init (fun _ => 7) (-1)) served = some s ∧
      s.returned.map Returned.value = ["", "a"] ∧
      ∃ fs, Machine.run System.step (System.init (fun _ => 7) (-1)) fs = some s.view := by
  obtain ⟨s, hs, hret⟩ := returned_served
  have hids : Function.Injective (fun _ : Fin 1 => (7 : Int)) :=
    fun c c' _ => Subsingleton.elim c c'
  obtain ⟨fs, -, hfs⟩ := stack_refines_system hids (by decide) raftSafe_served hs
  exact ⟨s, hs, hret, fs, hfs⟩

/-- **Exactly-once writes and fresh reads, over the cluster.** In every such run the tables of a
server are those of the committed entries its `applyDaemon` has consumed, and for every call that
has returned:

* its command has taken effect at exactly one position of the committed log of the cluster, which
  was committed after the call began and before it returned;
* a `Get` has returned the value of its key after a prefix that contains its entry and was
  committed before it returned. -/
theorem stack_exactly_once_and_fresh {ids : Fin nc → Int} (hids : Function.Injective ids)
    {maxraftstate : Int} (hmax : maxraftstate < 0) {es : List (StackEvent ns nc)}
    (hok : Machine.Along step RaftSafe (init ids maxraftstate) es)
    (hr : Machine.run step (init ids maxraftstate) es = some s) :
    (∀ p, Tables.replay (s.log.take (s.consumed p)) = some (s.stores p).toTables) ∧
    ∀ R ∈ s.returned,
      (∃ i, R.began ≤ i ∧ i < R.ended ∧ TakesEffect s.log i R.request.cmd ∧
        ∀ j op, op.clientID = R.request.clientID → op.seqNo = R.request.seqNo →
          TakesEffect s.log j op → j = i) ∧
      (∀ args, R.request = .get args → ∃ i m t, i < m ∧ m ≤ R.ended ∧
        s.log[i]? = some (some R.request.cmd) ∧ Tables.replay (s.log.take m) = some t ∧
        R.value = t.lookup args.key) := by
  obtain ⟨⟨hinv, -⟩, -⟩ := seen_run hids hmax hok hr
  refine ⟨fun p => (hinv.served.reflects p).run, fun R hR => ?_⟩
  obtain ⟨i, m, t, hbegan, hi, hm, heff, ht, hval⟩ := hinv.returned R hR
  constructor
  · refine ⟨i, hbegan, Nat.lt_of_lt_of_le hi hm, heff, fun j op hc hs hj => ?_⟩
    refine heff.unique hj ?_ ?_
    · rw [hc, Request.cmd_clientID]
    · rw [hs, Request.cmd_seqNo]
  · intro args hargs
    exact ⟨i, m, t, hi, hm, heff.entry, ht.run, hval args hargs⟩

theorem stack_exactly_once_and_fresh_served : ∃ s : Stack 3 1,
    Machine.run step (init (fun _ => 7) (-1)) served = some s ∧
      s.returned.map Returned.value = ["", "a"] ∧
      ∀ R ∈ s.returned, ∃ i, R.began ≤ i ∧ i < R.ended ∧ TakesEffect s.log i R.request.cmd := by
  obtain ⟨s, hs, hret⟩ := returned_served
  have hids : Function.Injective (fun _ : Fin 1 => (7 : Int)) :=
    fun c c' _ => Subsingleton.elim c c'
  refine ⟨s, hs, hret, fun R hR => ?_⟩
  obtain ⟨⟨i, hb, hi, heff, -⟩, -⟩ :=
    (stack_exactly_once_and_fresh hids (by decide) raftSafe_served hs).2 R hR
  exact ⟨i, hb, hi, heff⟩

end Stack

end RaftLab
