import RaftLab.KV.Recovery

set_option autoImplicit false

/-! # Two senders on one channel

The messages that `applyDaemon` consumes come from two threads of the Raft peer.
`applyLogEntryDaemon` copies the committed entries under `rf.mu`, sets `lastApplied`,
releases the lock and sends them one by one; `InstallSnapshot` sends its snapshot while it
holds the lock. A snapshot can therefore be handed over in the middle of a batch. It moves
the tables to the prefix of its own index, forwards or backwards, and the rest of the batch
follows.

* `tables_follow_log` — the tables stay on the committed log as long as a snapshot is taken
  only when the next message of the batch, if there is one, is not beyond the entry after
  the snapshot;
* `snapshot_inside_batch` — otherwise an entry between the two is skipped.
-/

namespace RaftLab

open Tables (Reflects)

/-- A server and the messages its apply daemon has copied and not yet sent. -/
structure Peer (n : Nat) where
  node : Node n
  batch : List (ApplyMsg Op KVSnapshot)

inductive PeerEvent (n : Nat) where
  /-- A step of the server other than receiving an entry and crashing. -/
  | inner (e : NodeEvent n)
  /-- `applyLogEntryDaemon` copies the entries up to `commitIndex`; `spare` is what the array
  of the log has behind the log. -/
  | take (spare : List (LogEntry Op))
  /-- `applyLogEntryDaemon` hands the next entry to `applyDaemon`. -/
  | send

namespace Peer

variable {n : Nat} {log : List (Option Op)}

/-- `StartKVServer` on a given persister. -/
def start (me : Fin n) (maxraftstate : Int) (persister : Persister n Op KVSnapshot) : Peer n :=
  { node :=
      { rf := Raft.make me persister
        kv := KVServer.startKVServer maxraftstate persister
        daemon := .waiting
        installer := .idle
        generated := [] }
    batch := [] }

/-- The part of `applyLogEntryDaemon` under `rf.mu`. -/
def take (p : Peer n) (spare : List (LogEntry Op)) : Option (Peer n) :=
  match p.node.installer, p.batch with
  | .idle, [] => (p.node.rf.applyLogEntries spare).map (fun out =>
      { node := { p.node with rf := out.1 }, batch := out.2 })
  | _, _ => none

def step (p : Peer n) : PeerEvent n → Option (Peer n)
  | .inner (.receive _) => none
  | .inner .crash => none
  | .inner e => (p.node.step e).map (fun nd => { p with node := nd })
  | .take spare => p.take spare
  | .send =>
      match p.batch with
      | [] => none
      | msg :: rest => (p.node.step (.receive msg)).map (fun nd => ⟨nd, rest⟩)

/-- The committed logs of all peers agree, so that the entries copied are those of `log`; and
an installed snapshot reflects exactly the entries up to its index. -/
def Agrees (log : List (Option Op)) (p : Peer n) : PeerEvent n → Prop
  | .take spare => ∀ out ∈ p.node.rf.applyLogEntries spare, ∀ msg ∈ out.2,
      0 < msg.commandIndex ∧ log[(msg.commandIndex - 1).toNat]? = some msg.command
  | .inner (.beginInstall args) => ∃ (k : Nat) (data : KVSnapshot),
      args.lastIncludedIndex = k ∧ args.snapshot = some data ∧ Reflects log k data.toTables
  | _ => True

/-- A snapshot for index `k` is taken only when the batch is at most at index `k + 1`. -/
def InOrder (p : Peer n) : PeerEvent n → Prop
  | .inner .sendSnapshot =>
      match p.node.installer with
      | .sending msg => ∀ next ∈ p.batch.head?, next.commandIndex ≤ msg.commandIndex + 1
      | _ => True
  | _ => True

/-! ## The batch -/

/-- The messages bring the entries from position `j` on, one after the other. -/
def Queued (log : List (Option Op)) : Nat → List (ApplyMsg Op KVSnapshot) → Prop
  | _, [] => True
  | j, msg :: rest => msg.useSnapshot = false ∧ msg.commandIndex = j + 1 ∧
      log[j]? = some msg.command ∧ Queued log (j + 1) rest

/-- Copied entries that agree with the log are queued. -/
theorem queued_applyMsgs {j : Nat} {logs : List (LogEntry Op)}
    (h : ∀ msg ∈ (Raft.applyMsgs (j + 1) logs : List (ApplyMsg Op KVSnapshot)),
      0 < msg.commandIndex ∧ log[(msg.commandIndex - 1).toNat]? = some msg.command) :
    Queued log j (Raft.applyMsgs (j + 1) logs) := by
  induction logs generalizing j with
  | nil => trivial
  | cons e logs ih =>
      have hhead := (h _ List.mem_cons_self).2
      rw [show ((j : Int) + 1 - 1).toNat = j by omega] at hhead
      have hrest : Queued log (j + 1) (Raft.applyMsgs (((j + 1 : Nat) : Int) + 1) logs) :=
        ih (fun msg hmsg => h msg (List.mem_cons_of_mem _ hmsg))
      exact ⟨rfl, rfl, hhead, hrest⟩

/-- The batch goes on from what the server has reached, up to `lastApplied`. -/
structure Follows (log : List (Option Op)) (p : Peer n) (m t j : Nat) : Prop where
  onLog : p.node.OnLog log m t
  queued : Queued log j p.batch
  next : j ≤ t
  lastApplied : (∀ msg, p.node.installer ≠ .sending msg) →
    p.node.rf.lastApplied ≤ (max t (j + p.batch.length) : Nat)
  sending : ∀ msg, p.node.installer = .sending msg →
    p.node.rf.lastApplied = msg.commandIndex

/-! ## One step -/

variable {p p' : Peer n} {m t j : Nat}

theorem step_inner {e : NodeEvent n} (h : p.step (.inner e) = some p') :
    ∃ nd, p.node.step e = some nd ∧ p' = { p with node := nd } := by
  cases e with
  | receive msg => cases h
  | crash => cases h
  | _ =>
      obtain ⟨nd, hnd, rfl⟩ := Option.map_eq_some_iff.mp h
      exact ⟨nd, hnd, rfl⟩

theorem step_send (h : p.step .send = some p') :
    ∃ msg rest nd, p.batch = msg :: rest ∧ p.node.step (.receive msg) = some nd ∧
      p' = ⟨nd, rest⟩ := by
  simp only [step] at h
  split at h
  · cases h
  · rename_i msg rest hb
    obtain ⟨nd, hnd, rfl⟩ := Option.map_eq_some_iff.mp h
    exact ⟨msg, rest, nd, hb, hnd, rfl⟩

theorem step_take {spare : List (LogEntry Op)} (h : p.step (.take spare) = some p') :
    p.node.installer = .idle ∧ p.batch = [] ∧ ∃ rf msgs,
      p.node.rf.applyLogEntries spare = some (rf, msgs) ∧
      p' = { node := { p.node with rf := rf }, batch := msgs } := by
  simp only [step, take] at h
  split at h
  · rename_i hi hb
    obtain ⟨⟨rf, msgs⟩, hout, rfl⟩ := Option.map_eq_some_iff.mp h
    exact ⟨hi, hb, rf, msgs, hout, rfl⟩
  · cases h

namespace Follows

/-- A step that keeps `lastApplied` and what the server reaches. -/
theorem of_onLog {nd : Node n} {m' : Nat} (h : Follows log p m t j)
    (ho : nd.OnLog log m' t) (happ : nd.rf.lastApplied = p.node.rf.lastApplied)
    (hi : ∀ msg, nd.installer = .sending msg ↔ p.node.installer = .sending msg) :
    Follows log { p with node := nd } m' t j := by
  refine ⟨ho, h.queued, h.next, ?_, ?_⟩
  · intro hns
    show nd.rf.lastApplied ≤ _
    rw [happ]
    exact h.lastApplied (fun msg hmsg => hns msg ((hi msg).mpr hmsg))
  · intro msg hmsg
    show nd.rf.lastApplied = _
    rw [happ]
    exact h.sending msg ((hi msg).mp hmsg)

/-- Handing over the next entry of the batch. -/
theorem send (h : Follows log p m t j) (hs : p.step .send = some p') :
    Follows log p' m (max m (j + 1)) (j + 1) := by
  obtain ⟨msg, rest, nd, hb, hrec, rfl⟩ := step_send hs
  obtain ⟨hw, hnd⟩ := Node.step_receive hrec
  obtain rfl := h.onLog.eq_of_waiting hw
  have hq := h.queued
  rw [hb] at hq
  obtain ⟨huse, hindex, hcmd, hrest⟩ := hq
  refine ⟨h.onLog.receive ⟨huse, hindex, h.next, hcmd⟩ hrec, hrest, by omega, ?_, ?_⟩
  · intro hns
    rw [hnd] at hns ⊢
    have hla := h.lastApplied hns
    rw [hb, List.length_cons] at hla
    show p.node.rf.lastApplied ≤ (max (max t (j + 1)) (j + 1 + rest.length) : Nat)
    omega
  · intro msg' hmsg'
    rw [hnd] at hmsg' ⊢
    exact h.sending msg' hmsg'

/-- Copying a new batch: it begins after `lastApplied`, which the server has reached. -/
theorem take {spare : List (LogEntry Op)} (h : Follows log p m t j)
    (hok : p.Agrees log (.take spare)) (hs : p.step (.take spare) = some p') :
    ∃ j', Follows log p' m t j' := by
  obtain ⟨hidle, hb, rf, msgs, htake, rfl⟩ := step_take hs
  have hns : ∀ msg, p.node.installer ≠ .sending msg := by simp [hidle]
  have hla := h.lastApplied hns
  have hnext := h.next
  rw [hb, List.length_nil, Nat.add_zero, Nat.max_eq_left hnext] at hla
  have hon : ({ p.node with rf := rf } : Node n).OnLog log m t :=
    ⟨h.onLog.reflects, h.onLog.label, h.onLog.daemon, h.onLog.installer⟩
  have hagree := hok _ htake
  rcases Raft.applyLogEntries_cases htake with ⟨-, rfl, rfl⟩ | ⟨hlt, rfl, logs, hbetween, rfl⟩
  · exact ⟨t, hon, trivial, Nat.le_refl t, fun _ => by simpa using hla, h.sending⟩
  · have hcount : ((Raft.applyMsgs (p.node.rf.lastApplied + 1) logs :
        List (ApplyMsg Op KVSnapshot)).length : Int)
          = p.node.rf.commitIndex - p.node.rf.lastApplied := by
      rw [Raft.length_applyMsgs, Slice.length_of_between hbetween]
      omega
    -- the batch is not empty, and its first index is positive
    obtain ⟨k, hk⟩ : ∃ k : Nat, p.node.rf.lastApplied = k := by
      cases logs with
      | nil =>
          simp only [Raft.applyMsgs, List.length_nil] at hcount
          omega
      | cons e logs =>
          have hpos : 0 < p.node.rf.lastApplied + 1 := (hagree _ List.mem_cons_self).1
          exact ⟨p.node.rf.lastApplied.toNat, by omega⟩
    rw [hk] at hagree hcount hla ⊢
    refine ⟨k, hon, queued_applyMsgs hagree, by omega, fun _ => ?_, fun msg hmsg => ?_⟩
    · show p.node.rf.commitIndex ≤ _
      dsimp only
      omega
    · exact absurd hmsg (hns msg)

/-- Setting the fields of a snapshot, before it is handed over. -/
theorem beginInstall {args : InstallSnapshotArgs n KVSnapshot} (h : Follows log p m t j)
    (hok : p.Agrees log (.inner (.beginInstall args)))
    (hs : p.step (.inner (.beginInstall args)) = some p') : Follows log p' m t j := by
  obtain ⟨nd, hnd, rfl⟩ := step_inner hs
  obtain ⟨k, data, hk, hdata, href⟩ := hok
  have hcarries : CarriesSnapshot log k
      (Raft.snapshotMsg args.lastIncludedIndex args.snapshot) :=
    ⟨rfl, ⟨data, hdata, href⟩, Int.le_of_eq hk⟩
  have ho := h.onLog.beginInstall ⟨k, hcarries⟩ hnd
  obtain ⟨hidle, rf, out, hbegin, rfl⟩ := Node.step_beginInstall hnd
  rcases Raft.beginInstall_cases hbegin with ⟨rfl, rfl⟩ | ⟨-, -, -, happ, -, rfl⟩
  · refine h.of_onLog ho rfl (fun msg => ?_)
    rw [hidle]
    rfl
  · refine ⟨ho, h.queued, h.next, fun hns => absurd rfl (hns _), ?_⟩
    intro msg hmsg
    cases hmsg
    exact happ

/-- Handing over the snapshot: the batch is not ahead of it. -/
theorem sendSnapshot (h : Follows log p m t j) (hin : p.InOrder (.inner .sendSnapshot))
    (hs : p.step (.inner .sendSnapshot) = some p') : ∃ t' j', Follows log p' m t' j' := by
  obtain ⟨nd, hnd, rfl⟩ := step_inner hs
  obtain ⟨msg, k, hi, hmsg, ho⟩ := h.onLog.sendSnapshot hnd
  obtain ⟨msg', hi', -, rfl⟩ := Node.step_sendSnapshot hnd
  obtain rfl : msg' = msg := by
    rw [hi] at hi'
    exact (Installer.sending.inj hi').symm
  have hla : p.node.rf.lastApplied ≤ k := by
    rw [h.sending msg' hi]
    exact hmsg.commandIndex
  simp only [InOrder, hi] at hin
  by_cases hb : p.batch = []
  · -- nothing is queued: the next batch begins where the snapshot ends
    refine ⟨k, k, ho, ?_, Nat.le_refl k, fun _ => ?_, fun msg hm => by cases hm⟩
    · rw [hb]
      trivial
    · show p.node.rf.lastApplied ≤ (max k (k + p.batch.length) : Nat)
      omega
  · obtain ⟨next, rest, hb⟩ := List.exists_cons_of_ne_nil hb
    have hq := h.queued
    rw [hb] at hq
    -- the batch begins at most one entry beyond the end of the snapshot
    have hle : j ≤ k := by
      have hnext := hin next (by rw [hb]; rfl)
      rw [hq.2.1] at hnext
      have hindex := hmsg.commandIndex
      omega
    refine ⟨k, j, ho, h.queued, hle, fun _ => ?_, fun msg hm => by cases hm⟩
    show p.node.rf.lastApplied ≤ (max k (j + p.batch.length) : Nat)
    omega

end Follows

theorem follows_step {e : PeerEvent n} (h : ∃ m t j, Follows log p m t j)
    (hok : p.Agrees log e) (hin : p.InOrder e) (hs : p.step e = some p') :
    ∃ m t j, Follows log p' m t j := by
  obtain ⟨m, t, j, h⟩ := h
  cases e with
  | take =>
      obtain ⟨j', h'⟩ := h.take hok hs
      exact ⟨m, t, j', h'⟩
  | send => exact ⟨_, _, _, h.send hs⟩
  | inner e =>
      obtain ⟨nd, hnd, rfl⟩ := step_inner hs
      cases e with
      | receive msg => cases hs
      | crash => cases hs
      | call c =>
          have ho := h.onLog.call hnd
          obtain ⟨-, rf, hcall, rfl⟩ := Node.step_call hnd
          exact ⟨m, t, j, h.of_onLog ho (Raft.call_keepsSnapshot hcall).lastApplied
            (fun msg => Iff.rfl)⟩
      | await index ch =>
          have ho := h.onLog.await hnd
          rw [Node.step_await hnd] at ho ⊢
          exact ⟨m, t, j, h.of_onLog ho rfl (fun msg => Iff.rfl)⟩
      | process size =>
          have ho := h.onLog.process hnd
          obtain ⟨msg, -, hproc⟩ := Node.step_process hnd
          rcases Node.process_cases hproc with ⟨-, rfl⟩ | ⟨-, -, rfl⟩ |
            ⟨-, cmd, u, -, -, rfl⟩ | ⟨-, cmd, u, -, -, rfl⟩
          all_goals exact ⟨t, t, j, h.of_onLog ho rfl (fun msg => Iff.rfl)⟩
      | newSnapShot =>
          have ho := h.onLog.newSnapShot hnd
          obtain ⟨data, index, rf, -, -, hnew, rfl⟩ := Node.step_newSnapShot hnd
          rcases Raft.newSnapShot_cases hnew with ⟨-, rfl⟩ | ⟨-, -, e, rest, -, rfl⟩
          all_goals exact ⟨m, t, j, h.of_onLog ho rfl (fun msg => Iff.rfl)⟩
      | beginInstall args => exact ⟨m, t, j, h.beginInstall hok hs⟩
      | sendSnapshot =>
          obtain ⟨t', j', h'⟩ := h.sendSnapshot hin hs
          exact ⟨m, t', j', h'⟩
      | finishInstall =>
          have ho := h.onLog.finishInstall hnd
          obtain ⟨snapshot, hi, rfl⟩ := Node.step_finishInstall hnd
          refine ⟨m, t, j, h.of_onLog ho rfl (fun msg => ?_)⟩
          rw [hi]
          constructor <;> intro hc <;> cases hc

theorem follows_start {me : Fin n} {maxraftstate : Int} {ps : Persister n Op KVSnapshot}
    (hps : ps.restored.Covers log ps.storedIndex) :
    ∃ m t j, Follows log (start me maxraftstate ps) m t j := by
  obtain ⟨m, href, hlabel, hstored⟩ := hps
  have hon : (start me maxraftstate ps).node.OnLog log m m := by
    refine ⟨?_, ?_, rfl, fun msg hmsg => by cases hmsg⟩
    · show Reflects log m (KVServer.startKVServer maxraftstate ps).toTables
      rw [Persister.startKVServer_toTables]
      exact href
    · show (KVServer.startKVServer maxraftstate ps).snapshotIndex ≤ m
      rw [Persister.startKVServer_snapshotIndex]
      exact hlabel
  refine ⟨m, m, m, hon, trivial, Nat.le_refl m, fun _ => ?_, fun msg hmsg => by cases hmsg⟩
  have hla : (start me maxraftstate ps).node.rf.lastApplied = ps.storedIndex :=
    Persister.make_snapshotIndex me ps
  rw [hla]
  omega

/-- **The two senders together.** From any stored state that reaches its own index, as long
as no snapshot is taken ahead of which the batch has already gone by more than one entry, the
tables are always those of a prefix of the committed log. -/
theorem tables_follow_log {me : Fin n} {maxraftstate : Int} {ps : Persister n Op KVSnapshot}
    {es : List (PeerEvent n)} {p : Peer n} (hps : ps.restored.Covers log ps.storedIndex)
    (hok : Machine.Along step (Agrees log) (start me maxraftstate ps) es)
    (hin : Machine.Along step InOrder (start me maxraftstate ps) es)
    (hr : Machine.run step (start me maxraftstate ps) es = some p) :
    ∃ m : Nat, m ≤ log.length ∧ Tables.replay (log.take m) = some p.node.kv.toTables := by
  obtain ⟨m, t, j, h⟩ := Machine.run_induction
    (fun _ _ _ h hboth hs => follows_step h hboth.1 hboth.2 hs) (follows_start hps)
    (Machine.along_and hok hin) hr
  exact ⟨m, h.onLog.reflects.le, h.onLog.reflects.run⟩

/-! ### A snapshot between two entries of a batch -/

/-- Three appends to one key. -/
def threeOps : List (Option Op) :=
  [some { key := "x", value := "a", op := .append, clientID := 7, seqNo := 1 },
   some { key := "x", value := "b", op := .append, clientID := 7, seqNo := 2 },
   some { key := "x", value := "c", op := .append, clientID := 7, seqNo := 3 }]

/-- The leader's request with the three entries, all of them committed. -/
def threeEntries : AppendEntriesArgs 3 Op :=
  { term := 1, leaderID := 1, prevLogIndex := 0, prevLogTerm := 0,
    entries := threeOps.map (fun c => { term := 1, command := c }), leaderCommit := 3 }

/-- The leader's snapshot of the first `k` entries. -/
def installUpTo (k : Nat) : InstallSnapshotArgs 3 KVSnapshot :=
  { term := 1, leaderID := 1, lastIncludedIndex := k, lastIncludedTerm := 1,
    snapshot := (Tables.replay (threeOps.take k)).map
      (fun t => { toTables := t, snapshotIndex := k }) }

/-- The batch of three is copied and its first two entries are consumed; then the snapshot of
the first `k` entries comes in, and the third entry follows. -/
def snapshotAfterTwo (k : Nat) : List (PeerEvent 3) :=
  [.inner (.call (.appendEntries threeEntries)), .take [],
   .send, .inner (.process 0), .send, .inner (.process 0),
   .inner (.beginInstall (installUpTo k)), .inner .sendSnapshot, .inner (.process 0),
   .inner .finishInstall, .send, .inner (.process 0)]

/-- A server started for the first time. -/
def fresh : Peer 3 := start 0 (-1) Persister.makePersister

theorem agrees_snapshotAfterTwo {k : Nat} (hk : k = 1 ∨ k = 2) :
    Machine.Along step (Agrees threeOps) fresh (snapshotAfterTwo k) := by
  have htake : ∀ msg ∈ (Raft.applyMsgs 1
      (threeOps.map (fun c => ({ term := 1, command := c } : LogEntry Op))) :
      List (ApplyMsg Op KVSnapshot)),
      0 < msg.commandIndex ∧ threeOps[(msg.commandIndex - 1).toNat]? = some msg.command := by
    decide
  rcases hk with rfl | rfl
  all_goals
    refine Machine.along_cons trivial rfl ?_
    refine Machine.along_cons ?_ rfl ?_
    · intro out hout
      cases hout
      exact htake
    refine Machine.along_cons trivial rfl ?_
    refine Machine.along_cons trivial rfl ?_
    refine Machine.along_cons trivial rfl ?_
    refine Machine.along_cons trivial rfl ?_
    refine Machine.along_cons ⟨_, _, rfl, rfl, by decide, rfl⟩ rfl ?_
    refine Machine.along_cons trivial rfl ?_
    refine Machine.along_cons trivial rfl ?_
    refine Machine.along_cons trivial rfl ?_
    refine Machine.along_cons trivial rfl ?_
    exact Machine.along_cons trivial rfl trivial

/-- A snapshot of the first two entries comes in just before the third. -/
theorem tables_follow_log_snapshotAfterTwo :
    ∃ p : Peer 3, Machine.run step fresh (snapshotAfterTwo 2) = some p ∧
      ∃ m : Nat, m ≤ 3 ∧ Tables.replay (threeOps.take m) = some p.node.kv.toTables := by
  have hps : (Persister.makePersister (n := 3)).restored.Covers threeOps
      (Persister.makePersister (n := 3)).storedIndex :=
    ⟨0, Replay.Reflects.zero _ _ _, Int.le_refl 0, Int.le_refl 0⟩
  have hin : Machine.Along step InOrder fresh (snapshotAfterTwo 2) := by
    refine Machine.along_cons trivial rfl ?_
    refine Machine.along_cons trivial rfl ?_
    refine Machine.along_cons trivial rfl ?_
    refine Machine.along_cons trivial rfl ?_
    refine Machine.along_cons trivial rfl ?_
    refine Machine.along_cons trivial rfl ?_
    refine Machine.along_cons trivial rfl ?_
    refine Machine.along_cons ?_ rfl ?_
    · intro next hnext
      cases hnext
      decide
    refine Machine.along_cons trivial rfl ?_
    refine Machine.along_cons trivial rfl ?_
    refine Machine.along_cons trivial rfl ?_
    exact Machine.along_cons trivial rfl trivial
  obtain ⟨p, hp⟩ : ∃ p, Machine.run step fresh (snapshotAfterTwo 2) = some p := ⟨_, rfl⟩
  exact ⟨p, hp, tables_follow_log hps (agrees_snapshotAfterTwo (Or.inr rfl)) hin hp⟩

theorem lookup_ne_of_take {m : Nat} {t : Tables}
    (h : Tables.replay (threeOps.take m) = some t) : t.db "x" ≠ some "ac" := by
  have hall : ∀ k ≤ 3, (Tables.replay (threeOps.take k)).all
      (fun t => t.db "x" ≠ some "ac") = true := by decide
  rw [List.take_eq_take_min] at h
  have hk := hall (min m threeOps.length) (Nat.min_le_right _ _)
  rw [h] at hk
  simpa using hk

/-- **A snapshot of one entry, taken when the batch has gone on to the third, loses the
second.** The store then holds no prefix of the committed log. -/
theorem snapshot_inside_batch :
    ∃ (es : List (PeerEvent 3)) (p : Peer 3),
      Machine.Along step (Agrees threeOps) fresh es ∧ Machine.run step fresh es = some p ∧
      p.node.daemon = .waiting ∧ p.node.kv.db "x" = some "ac" ∧
      ∀ m t, Tables.replay (threeOps.take m) = some t → t.db ≠ p.node.kv.db := by
  obtain ⟨p, hp, hw, hdb⟩ : ∃ p, Machine.run step fresh (snapshotAfterTwo 1) = some p ∧
      p.node.daemon = .waiting ∧ p.node.kv.db "x" = some "ac" := ⟨_, rfl, rfl, by decide⟩
  refine ⟨_, p, agrees_snapshotAfterTwo (Or.inl rfl), hp, hw, hdb, ?_⟩
  intro m t ht heq
  refine lookup_ne_of_take ht ?_
  rw [heq]
  exact hdb

end Peer

end RaftLab
