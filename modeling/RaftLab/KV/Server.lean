import RaftLab.Raft.Snapshot
import RaftLab.Lib.Replay

set_option autoImplicit false

/-! # The key/value server

The data of `kvraft/server.go` and `kvraft/common.go` and the procedures of `KVServer` that
`applyDaemon` runs: applying a command through the duplicate table, taking and reading
snapshots, and waking the request that waits for an index.

A Go map is a function to `Option`; reading an absent key gives the zero value. The names of
operations are Go strings, of which only three are known to `applyDaemon`: any other one is
`OpName.other` and makes it panic. Channels are numbered. Encoding a snapshot with `gob` is
taken to round-trip, so the encoded data is the record `KVSnapshot` itself. The length of
the encoded Raft state, which `needSnapshot` compares with `maxraftstate`, is a parameter.
-/

namespace RaftLab

/-- The values of `Op.Op`. -/
inductive OpName where
  | get
  | put
  | append
  | other (name : String)
  deriving DecidableEq, Repr

structure Op where
  key : String
  value : String
  op : OpName
  clientID : Int
  seqNo : Int
  deriving DecidableEq, Repr

/-- The values of `Err` that the handlers use. -/
inductive Err where
  | empty
  | ok
  | errNoKey
  deriving DecidableEq, Repr

structure GetReply where
  wrongLeader : Bool
  err : Err
  value : String
  deriving DecidableEq, Repr

structure LatestReply where
  seq : Int
  reply : GetReply
  deriving DecidableEq, Repr

/-- The replicated part of `KVServer`: the store and the duplicate table. -/
structure Tables where
  db : String → Option String
  duplicate : Int → Option LatestReply

namespace Tables

def empty : Tables := { db := fun _ => none, duplicate := fun _ => none }

/-- `kv.db[key]`. -/
def lookup (t : Tables) (key : String) : String := (t.db key).getD ""

/-- The test of `applyDaemon`: the table has no request of this client at or above `seqNo`. -/
def isNew (t : Tables) (clientID seqNo : Int) : Bool :=
  match t.duplicate clientID with
  | none => true
  | some dup => dup.seq < seqNo

/-- `kv.db[key] = value`. -/
def setDb (t : Tables) (key value : String) : Tables :=
  { t with db := Function.update t.db key (some value) }

/-- `kv.duplicate[clientID] = &LatestReply{...}`. -/
def setDuplicate (t : Tables) (clientID : Int) (latest : LatestReply) : Tables :=
  { t with duplicate := Function.update t.duplicate clientID (some latest) }

/-- A `GetReply` with only `Value` set. -/
def replyOf (value : String) : GetReply := { wrongLeader := false, err := .empty, value := value }

/-- The `switch` of `applyDaemon`; `none` is its panic. -/
def execute (t : Tables) (cmd : Op) : Option Tables :=
  match cmd.op with
  | .get => some (t.setDuplicate cmd.clientID
      { seq := cmd.seqNo, reply := replyOf (t.lookup cmd.key) })
  | .put => some ((t.setDb cmd.key cmd.value).setDuplicate cmd.clientID
      { seq := cmd.seqNo, reply := replyOf "" })
  | .append => some ((t.setDb cmd.key (t.lookup cmd.key ++ cmd.value)).setDuplicate
      cmd.clientID { seq := cmd.seqNo, reply := replyOf "" })
  | .other _ => none

/-- Apply a command unless it is a duplicate. -/
def applyOp (t : Tables) (cmd : Op) : Option Tables :=
  if t.isNew cmd.clientID cmd.seqNo then t.execute cmd else some t

/-- Apply one entry of the log; a `nil` command is ignored. -/
def apply (t : Tables) : Option Op → Option Tables
  | none => some t
  | some cmd => t.applyOp cmd

/-- The tables after the commands of `log`, from empty maps and without any snapshot. -/
def replay (log : List (Option Op)) : Option Tables := Machine.run apply empty log

/-- The tables are those after the first `m` entries of `log`. -/
abbrev Reflects (log : List (Option Op)) (m : Nat) (t : Tables) : Prop :=
  Replay.Reflects apply empty log m t

end Tables

/-- What `generateSnapshot` encodes. -/
structure KVSnapshot extends Tables where
  snapshotIndex : Int

/-- The fields of `KVServer` that its procedures read and write, the persister apart. -/
structure KVServer extends Tables where
  maxraftstate : Int
  snapshotIndex : Int
  notifyChs : Int → Option Nat

namespace KVServer

variable {n : Nat}

def needSnapshot (kv : KVServer) (raftStateSize : Int) : Bool :=
  if kv.maxraftstate < 0 then false
  else if kv.maxraftstate < raftStateSize then true
  else
    -- abs < 10% of max
    let abs := kv.maxraftstate - raftStateSize
    let threshold := kv.maxraftstate.tdiv 10
    abs < threshold

/-- `generateSnapshot`: label the tables with `index` and store them. -/
def generateSnapshot (kv : KVServer) (persist : Persister n Op KVSnapshot) (index : Int) :
    KVServer × Persister n Op KVSnapshot × KVSnapshot :=
  let data : KVSnapshot := { toTables := kv.toTables, snapshotIndex := index }
  ({ kv with snapshotIndex := index }, persist.saveSnapshot (some data), data)

def readSnapshot (kv : KVServer) : Option KVSnapshot → KVServer
  | none => kv  -- bootstrap without any state
  | some data => { kv with toTables := data.toTables, snapshotIndex := data.snapshotIndex }

/-- `StartKVServer`: empty maps, then the stored snapshot. -/
def startKVServer (maxraftstate : Int) (persister : Persister n Op KVSnapshot) : KVServer :=
  { toTables := .empty, maxraftstate := maxraftstate, snapshotIndex := 0,
    notifyChs := fun _ => none : KVServer }.readSnapshot persister.snapshot

/-- The command branch of `applyDaemon` up to its call of `NewSnapShot`. The third component
is the snapshot to hand to Raft, if one was taken. -/
def applyCommand (kv : KVServer) (persist : Persister n Op KVSnapshot) (raftStateSize : Int)
    (index : Int) (cmd : Op) :
    Option (KVServer × Persister n Op KVSnapshot × Option KVSnapshot) := do
  let tables ← kv.applyOp cmd
  let kv' := { kv with toTables := tables }
  if kv'.needSnapshot raftStateSize then
    let (kv'', persist', data) := kv'.generateSnapshot persist index
    pure (kv'', persist', some data)
  else pure (kv', persist, none)

/-- Close the channel of the request that waits for `index`; the second component is that
channel. -/
def notify (kv : KVServer) (index : Int) : KVServer × Option Nat :=
  match kv.notifyChs index with
  | some ch => ({ kv with notifyChs := Function.update kv.notifyChs index none }, some ch)
  | none => (kv, none)

@[simp] theorem notify_toTables (kv : KVServer) (index : Int) :
    (kv.notify index).1.toTables = kv.toTables := by
  unfold notify
  split <;> rfl

@[simp] theorem notify_snapshotIndex (kv : KVServer) (index : Int) :
    (kv.notify index).1.snapshotIndex = kv.snapshotIndex := by
  unfold notify
  split <;> rfl

theorem notify_notifyChs {kv : KVServer} {index i : Int} {k : Nat}
    (h : (kv.notify index).1.notifyChs i = some k) : kv.notifyChs i = some k := by
  unfold notify at h
  split at h
  · by_cases hi : i = index
    · subst hi
      simp only [Function.update_self] at h
      cases h
    · simpa only [Function.update_of_ne hi] using h
  · exact h

theorem notify_snd (kv : KVServer) (index : Int) :
    (kv.notify index).2 = kv.notifyChs index := by
  unfold notify
  split
  · rename_i ch hch
    exact hch.symm
  · rename_i hnone
    exact hnone.symm

/-- The command is applied to the tables, and they are stored under the command's index or
nothing is stored. -/
theorem applyCommand_cases {kv kv' : KVServer} {persist persist' : Persister n Op KVSnapshot}
    {size index : Int} {cmd : Op} {out : Option KVSnapshot}
    (h : kv.applyCommand persist size index cmd = some (kv', persist', out)) :
    ∃ t, kv.applyOp cmd = some t ∧
      ((kv' = { kv with toTables := t } ∧ persist' = persist ∧ out = none) ∨
        (kv' = { kv with toTables := t, snapshotIndex := index } ∧
          persist' = persist.saveSnapshot (some { toTables := t, snapshotIndex := index }) ∧
          out = some { toTables := t, snapshotIndex := index })) := by
  simp only [applyCommand, Option.bind_eq_bind, Option.bind_eq_some_iff] at h
  obtain ⟨t, ht, h⟩ := h
  refine ⟨t, ht, ?_⟩
  split at h
  · cases h
    exact Or.inr ⟨rfl, rfl, rfl⟩
  · cases h
    exact Or.inl ⟨rfl, rfl, rfl⟩

end KVServer

/-! ## The duplicate table -/

namespace Tables

variable {t t' : Tables} {cmd : Op}

/-- The table has a request of this client at or above `seqNo`. -/
def Seen (t : Tables) : Option Op → Prop
  | none => True
  | some cmd => t.isNew cmd.clientID cmd.seqNo = false

theorem isNew_eq_false {c s : Int} :
    t.isNew c s = false ↔ ∃ dup, t.duplicate c = some dup ∧ s ≤ dup.seq := by
  unfold isNew
  cases t.duplicate c with
  | none => simp
  | some dup => simp

/-- Executing a command records its sequence number and touches no other client's record. -/
theorem execute_duplicate (h : t.execute cmd = some t') :
    ∃ reply, t'.duplicate =
      Function.update t.duplicate cmd.clientID (some { seq := cmd.seqNo, reply := reply }) := by
  unfold execute at h
  split at h
  · cases h
    exact ⟨_, rfl⟩
  · cases h
    exact ⟨_, rfl⟩
  · cases h
    exact ⟨_, rfl⟩
  · cases h

theorem applyOp_cases (h : t.applyOp cmd = some t') :
    (t.isNew cmd.clientID cmd.seqNo = true ∧ t.execute cmd = some t') ∨
      (t.isNew cmd.clientID cmd.seqNo = false ∧ t' = t) := by
  unfold applyOp at h
  split at h
  · rename_i hnew
    exact Or.inl ⟨hnew, h⟩
  · rename_i hold
    exact Or.inr ⟨by simpa using hold, (Option.some.inj h).symm⟩

/-- A record is never replaced by one with a smaller sequence number. -/
theorem applyOp_isNew_eq_false {c s : Int} (hold : t.isNew c s = false)
    (h : t.applyOp cmd = some t') : t'.isNew c s = false := by
  rcases applyOp_cases h with ⟨hnew, hex⟩ | ⟨-, rfl⟩
  · obtain ⟨dup, hdup, hle⟩ := isNew_eq_false.mp hold
    obtain ⟨reply, heq⟩ := execute_duplicate hex
    rw [isNew_eq_false, heq]
    by_cases hc : c = cmd.clientID
    · subst hc
      refine ⟨_, Function.update_self _ _ _, ?_⟩
      have hlt : dup.seq < cmd.seqNo := by simpa [isNew, hdup] using hnew
      show s ≤ cmd.seqNo
      omega
    · exact ⟨dup, by rw [Function.update_of_ne hc]; exact hdup, hle⟩
  · exact hold

theorem applyOp_seen (h : t.applyOp cmd = some t') : t'.Seen (some cmd) := by
  rcases applyOp_cases h with ⟨-, hex⟩ | ⟨hold, rfl⟩
  · obtain ⟨reply, heq⟩ := execute_duplicate hex
    refine isNew_eq_false.mpr ⟨{ seq := cmd.seqNo, reply := reply }, ?_, Int.le_refl _⟩
    rw [heq]
    exact Function.update_self _ _ _
  · exact hold

/-- **The duplicate table absorbs repeated commands.** -/
theorem absorbing : Replay.Absorbing apply Seen where
  seen := by
    intro t c t' h
    cases c with
    | none => trivial
    | some cmd => exact applyOp_seen h
  kept := by
    intro t c d t' hs h
    cases c with
    | none => trivial
    | some cmd =>
        cases d with
        | none =>
            obtain rfl : t = t' := Option.some.inj h
            exact hs
        | some cmd' => exact applyOp_isNew_eq_false hs h
  again := by
    intro t c hs
    cases c with
    | none => rfl
    | some cmd =>
        have hold : t.isNew cmd.clientID cmd.seqNo = false := hs
        show t.applyOp cmd = some t
        rw [applyOp, hold]
        rfl

end Tables

end RaftLab
