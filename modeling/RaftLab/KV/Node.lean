import RaftLab.Raft.Procedures
import RaftLab.KV.Server

set_option autoImplicit false

/-! # A key/value server on its Raft peer

One process: a `KVServer`, its Raft peer, and the persister they share. The steps are cut
where another thread or a crash can come in between:

* `applyDaemon` receives a message (`receive`), runs its critical section up to the end or
  up to the call of `NewSnapShot` (`process`), and runs that call (`newSnapShot`). It holds
  `kv.mu` from the second step to the last, and `NewSnapShot` takes `rf.mu`;
* `InstallSnapshot` sets the fields of the peer (`beginInstall`), hands its message to
  `applyDaemon` (`sendSnapshot`) and stores state and snapshot (`finishInstall`). It holds
  `rf.mu` all the time;
* every other procedure of the peer is one step (`call`);
* a request leaves its channel in `notifyChs` (`await`);
* the process crashes and starts again from the persister (`crash`).

Where the messages of `receive` come from is left open here. `generated` records every
snapshot `generateSnapshot` has ever produced; no step reads it.
-/

namespace RaftLab

/-- Where `applyDaemon` is. -/
inductive ApplyDaemon where
  | waiting
  | received (msg : ApplyMsg Op KVSnapshot)
  | compacting (data : KVSnapshot) (index : Int)

/-- Where `InstallSnapshot` is. -/
inductive Installer where
  | idle
  | sending (msg : ApplyMsg Op KVSnapshot)
  | storing (snapshot : Option KVSnapshot)

structure Node (n : Nat) where
  rf : Raft n Op KVSnapshot
  kv : KVServer
  daemon : ApplyDaemon
  installer : Installer
  generated : List KVSnapshot

inductive NodeEvent (n : Nat) where
  | call (c : Procedure n Op)
  | await (index : Int) (ch : Nat)
  | receive (msg : ApplyMsg Op KVSnapshot)
  | process (raftStateSize : Int)
  | newSnapShot
  | beginInstall (args : InstallSnapshotArgs n KVSnapshot)
  | sendSnapshot
  | finishInstall
  | crash

namespace Node

variable {n : Nat}

/-- A new server with an empty persister. -/
def init (me : Fin n) (maxraftstate : Int) : Node n :=
  { rf := Raft.make me Persister.makePersister
    kv := KVServer.startKVServer maxraftstate (Persister.makePersister (n := n))
    daemon := .waiting
    installer := .idle
    generated := [] }

def setPersister (nd : Node n) (persister : Persister n Op KVSnapshot) : Node n :=
  { nd with rf := { nd.rf with persister := persister } }

/-- The snapshot branch of `applyDaemon`. -/
def processSnapshot (nd : Node n) (msg : ApplyMsg Op KVSnapshot) : Node n :=
  let (kv, persist, data) :=
    (nd.kv.readSnapshot msg.snapshot).generateSnapshot nd.rf.persister msg.commandIndex
  { nd.setPersister persist with
    kv := kv, daemon := .waiting, generated := nd.generated ++ [data] }

/-- The command branch of `applyDaemon`, up to the call of `NewSnapShot` if there is one. -/
def processCommand (nd : Node n) (raftStateSize index : Int) (cmd : Op) : Option (Node n) := do
  let (kv, persist, out) ← nd.kv.applyCommand nd.rf.persister raftStateSize index cmd
  match out with
  | some data =>
      pure { nd.setPersister persist with
        kv := kv, daemon := .compacting data index, generated := nd.generated ++ [data] }
  | none =>
      pure { nd.setPersister persist with kv := (kv.notify index).1, daemon := .waiting }

/-- What `applyDaemon` does with a message. -/
def process (nd : Node n) (raftStateSize : Int) (msg : ApplyMsg Op KVSnapshot) :
    Option (Node n) :=
  if msg.useSnapshot then some (nd.processSnapshot msg)
  else
    match msg.command with
    | none => some { nd with daemon := .waiting }
    | some cmd =>
        if msg.commandIndex > nd.kv.snapshotIndex then
          nd.processCommand raftStateSize msg.commandIndex cmd
        else some { nd with daemon := .waiting }

def step (nd : Node n) : NodeEvent n → Option (Node n)
  | .call c =>
      match nd.installer with
      | .idle => (nd.rf.call c).map (fun rf => { nd with rf := rf })
      | _ => none
  | .await index ch =>
      match nd.daemon with
      -- `applyDaemon` holds `kv.mu` while it is in `NewSnapShot`
      | .compacting .. => none
      | _ => some { nd with
          kv := { nd.kv with notifyChs := Function.update nd.kv.notifyChs index (some ch) } }
  | .receive msg =>
      match nd.daemon with
      | .waiting => some { nd with daemon := .received msg }
      | _ => none
  | .process raftStateSize =>
      match nd.daemon with
      | .received msg => nd.process raftStateSize msg
      | _ => none
  | .newSnapShot =>
      match nd.daemon, nd.installer with
      | .compacting data index, .idle => (nd.rf.newSnapShot (some data) index).map (fun rf =>
          { nd with rf := rf, kv := (nd.kv.notify index).1, daemon := .waiting })
      | _, _ => none
  | .beginInstall args =>
      match nd.installer with
      | .idle => (nd.rf.beginInstall args).map (fun out =>
          { nd with rf := out.1, installer := out.2.elim .idle .sending })
      | _ => none
  | .sendSnapshot =>
      match nd.installer, nd.daemon with
      -- `applyCh` has no buffer: the daemon takes the message as it is sent
      | .sending msg, .waiting =>
          some { nd with daemon := .received msg, installer := .storing msg.snapshot }
      | _, _ => none
  | .finishInstall =>
      match nd.installer with
      | .storing snapshot =>
          some { nd with rf := nd.rf.finishInstall snapshot, installer := .idle }
      | _ => none
  | .crash =>
      some { nd with
        rf := Raft.make nd.rf.me nd.rf.persister
        kv := KVServer.startKVServer nd.kv.maxraftstate nd.rf.persister
        daemon := .waiting
        installer := .idle }

/-! ## What each step does -/

variable {nd nd' : Node n}

theorem step_call {c : Procedure n Op} (h : nd.step (.call c) = some nd') :
    nd.installer = .idle ∧ ∃ rf, nd.rf.call c = some rf ∧ nd' = { nd with rf := rf } := by
  simp only [step] at h
  split at h
  · rename_i hidle
    obtain ⟨rf, hrf, rfl⟩ := Option.map_eq_some_iff.mp h
    exact ⟨hidle, rf, hrf, rfl⟩
  · cases h

theorem step_await {index : Int} {ch : Nat} (h : nd.step (.await index ch) = some nd') :
    nd' = { nd with
      kv := { nd.kv with notifyChs := Function.update nd.kv.notifyChs index (some ch) } } := by
  simp only [step] at h
  split at h
  · cases h
  · exact (Option.some.inj h).symm

theorem step_receive {msg : ApplyMsg Op KVSnapshot} (h : nd.step (.receive msg) = some nd') :
    nd.daemon = .waiting ∧ nd' = { nd with daemon := .received msg } := by
  simp only [step] at h
  split at h
  · rename_i hw
    exact ⟨hw, (Option.some.inj h).symm⟩
  · cases h

theorem step_process {size : Int} (h : nd.step (.process size) = some nd') :
    ∃ msg, nd.daemon = .received msg ∧ nd.process size msg = some nd' := by
  simp only [step] at h
  split at h
  · rename_i msg hmsg
    exact ⟨msg, hmsg, h⟩
  · cases h

theorem step_newSnapShot (h : nd.step .newSnapShot = some nd') :
    ∃ data index rf, nd.daemon = .compacting data index ∧ nd.installer = .idle ∧
      nd.rf.newSnapShot (some data) index = some rf ∧
      nd' = { nd with rf := rf, kv := (nd.kv.notify index).1, daemon := .waiting } := by
  simp only [step] at h
  split at h
  · rename_i data index hd hi
    obtain ⟨rf, hrf, rfl⟩ := Option.map_eq_some_iff.mp h
    exact ⟨data, index, rf, hd, hi, hrf, rfl⟩
  · cases h

theorem step_beginInstall {args : InstallSnapshotArgs n KVSnapshot}
    (h : nd.step (.beginInstall args) = some nd') :
    nd.installer = .idle ∧ ∃ rf msg, nd.rf.beginInstall args = some (rf, msg) ∧
      nd' = { nd with rf := rf, installer := msg.elim .idle .sending } := by
  simp only [step] at h
  split at h
  · rename_i hi
    obtain ⟨⟨rf, msg⟩, hbegin, rfl⟩ := Option.map_eq_some_iff.mp h
    exact ⟨hi, rf, msg, hbegin, rfl⟩
  · cases h

theorem step_sendSnapshot (h : nd.step .sendSnapshot = some nd') :
    ∃ msg, nd.installer = .sending msg ∧ nd.daemon = .waiting ∧
      nd' = { nd with daemon := .received msg, installer := .storing msg.snapshot } := by
  simp only [step] at h
  split at h
  · rename_i msg hi hd
    exact ⟨msg, hi, hd, (Option.some.inj h).symm⟩
  · cases h

theorem step_finishInstall (h : nd.step .finishInstall = some nd') :
    ∃ snapshot, nd.installer = .storing snapshot ∧
      nd' = { nd with rf := nd.rf.finishInstall snapshot, installer := .idle } := by
  simp only [step] at h
  split at h
  · rename_i snapshot hi
    exact ⟨snapshot, hi, (Option.some.inj h).symm⟩
  · cases h

theorem step_crash (h : nd.step .crash = some nd') :
    nd' = { nd with
      rf := Raft.make nd.rf.me nd.rf.persister
      kv := KVServer.startKVServer nd.kv.maxraftstate nd.rf.persister
      daemon := .waiting
      installer := .idle } :=
  (Option.some.inj h).symm

/-- The four ways `applyDaemon` deals with a message: it reads a snapshot, ignores a command,
applies one, or applies one and stores the tables under its index. -/
theorem process_cases {size : Int} {msg : ApplyMsg Op KVSnapshot}
    (h : nd.process size msg = some nd') :
    (msg.useSnapshot = true ∧ nd' = nd.processSnapshot msg) ∨
    (msg.useSnapshot = false ∧
      (msg.command = none ∨ msg.commandIndex ≤ nd.kv.snapshotIndex) ∧
      nd' = { nd with daemon := .waiting }) ∨
    (msg.useSnapshot = false ∧ ∃ cmd t, msg.command = some cmd ∧ nd.kv.applyOp cmd = some t ∧
      nd' = { nd with
        kv := ({ nd.kv with toTables := t }.notify msg.commandIndex).1
        daemon := .waiting }) ∨
    (msg.useSnapshot = false ∧ ∃ cmd t, msg.command = some cmd ∧ nd.kv.applyOp cmd = some t ∧
      nd' = { nd.setPersister (nd.rf.persister.saveSnapshot
          (some { toTables := t, snapshotIndex := msg.commandIndex })) with
        kv := { nd.kv with toTables := t, snapshotIndex := msg.commandIndex }
        daemon := .compacting { toTables := t, snapshotIndex := msg.commandIndex }
          msg.commandIndex
        generated := nd.generated ++
          [{ toTables := t, snapshotIndex := msg.commandIndex }] }) := by
  unfold process at h
  split at h
  · rename_i huse
    exact Or.inl ⟨huse, (Option.some.inj h).symm⟩
  rename_i huse
  have huse : msg.useSnapshot = false := by simpa using huse
  split at h
  · rename_i hnil
    exact Or.inr (Or.inl ⟨huse, Or.inl hnil, (Option.some.inj h).symm⟩)
  rename_i cmd hcmd
  split at h
  · simp only [processCommand, Option.bind_eq_bind, Option.bind_eq_some_iff,
      Prod.exists] at h
    obtain ⟨kv, persist, out, happ, h⟩ := h
    obtain ⟨t, ht, ⟨rfl, rfl, rfl⟩ | ⟨rfl, rfl, rfl⟩⟩ := KVServer.applyCommand_cases happ
    · exact Or.inr (Or.inr (Or.inl ⟨huse, cmd, t, hcmd, ht, (Option.some.inj h).symm⟩))
    · exact Or.inr (Or.inr (Or.inr ⟨huse, cmd, t, hcmd, ht, (Option.some.inj h).symm⟩))
  · rename_i hle
    exact Or.inr (Or.inl ⟨huse, Or.inr (by omega), (Option.some.inj h).symm⟩)

end Node

end RaftLab
