import RaftLab.KV.Node

set_option autoImplicit false

/-! # The tables of a server and the committed log

`Node.OnLog log nd m t`: the tables in memory are those after the first `m` entries of the
committed log, and once `applyDaemon` is done with the message it has in hand they will be
those after the first `t`. The lemmas say how each step moves `m` and `t`, as long as

* a command message brings the entry after the first `m` or an earlier one
  (`CarriesEntry`), and
* a snapshot message for index `k` brings the tables of a prefix of length at least `k`
  (`CarriesSnapshot`).

What is in the persister plays no part here; a crash is the subject of `KV/Recovery.lean`.
-/

namespace RaftLab

open Tables (Reflects)

variable {n : Nat} {log : List (Option Op)}

/-- The message brings the entry at position `i` of the log, which is not beyond `m`. -/
structure CarriesEntry (log : List (Option Op)) (m i : Nat) (msg : ApplyMsg Op KVSnapshot) :
    Prop where
  useSnapshot : msg.useSnapshot = false
  commandIndex : msg.commandIndex = i + 1
  le : i ≤ m
  command : log[i]? = some msg.command

/-- The message brings a snapshot of the first `p` entries, with an index of at most `p`. -/
structure CarriesSnapshot (log : List (Option Op)) (p : Nat) (msg : ApplyMsg Op KVSnapshot) :
    Prop where
  useSnapshot : msg.useSnapshot = true
  snapshot : ∃ data, msg.snapshot = some data ∧ Reflects log p data.toTables
  commandIndex : msg.commandIndex ≤ p

instance (log : List (Option Op)) (m i : Nat) (msg : ApplyMsg Op KVSnapshot) :
    Decidable (CarriesEntry log m i msg) :=
  decidable_of_iff (msg.useSnapshot = false ∧ msg.commandIndex = i + 1 ∧ i ≤ m ∧
      log[i]? = some msg.command)
    ⟨fun h => ⟨h.1, h.2.1, h.2.2.1, h.2.2.2⟩, fun h => ⟨h.1, h.2, h.3, h.4⟩⟩

/-- From tables that reflect `m`, the daemon is about to reach `t`. -/
def ApplyDaemon.Reaches (log : List (Option Op)) (tables : Tables) (m t : Nat) :
    ApplyDaemon → Prop
  | .waiting => t = m
  | .received msg =>
      (∃ i, CarriesEntry log m i msg ∧ t = max m (i + 1)) ∨ CarriesSnapshot log t msg
  | .compacting data index =>
      t = m ∧ data.toTables = tables ∧ data.snapshotIndex = index ∧ index ≤ m

namespace Node

structure OnLog (log : List (Option Op)) (nd : Node n) (m t : Nat) : Prop where
  reflects : Reflects log m nd.kv.toTables
  label : nd.kv.snapshotIndex ≤ m
  daemon : nd.daemon.Reaches log nd.kv.toTables m t
  installer : ∀ msg, nd.installer = .sending msg → ∃ p, CarriesSnapshot log p msg

namespace OnLog

variable {nd nd' : Node n} {m t : Nat}

theorem eq_of_waiting (h : OnLog log nd m t) (hw : nd.daemon = .waiting) : t = m := by
  have hd := h.daemon
  rw [hw] at hd
  exact hd

/-- The same state may also reflect a longer prefix. -/
theorem extend {k : Nat} (h : OnLog log nd m m) (hw : nd.daemon = .waiting)
    (hk : Reflects log k nd.kv.toTables) : OnLog log nd (max m k) (max m k) := by
  refine ⟨?_, ?_, ?_, h.installer⟩
  · rcases Nat.le_total m k with hle | hle
    · rw [Nat.max_eq_right hle]
      exact hk
    · rw [Nat.max_eq_left hle]
      exact h.reflects
  · have hlabel := h.label
    omega
  · rw [hw]
    exact rfl

/-! ## One step -/

theorem call {c : Procedure n Op} (h : OnLog log nd m t)
    (hs : nd.step (.call c) = some nd') : OnLog log nd' m t := by
  obtain ⟨-, rf, -, rfl⟩ := step_call hs
  exact ⟨h.reflects, h.label, h.daemon, h.installer⟩

theorem await {index : Int} {ch : Nat} (h : OnLog log nd m t)
    (hs : nd.step (.await index ch) = some nd') : OnLog log nd' m t := by
  rw [step_await hs]
  exact ⟨h.reflects, h.label, h.daemon, h.installer⟩

theorem receive {msg : ApplyMsg Op KVSnapshot} {i : Nat} (h : OnLog log nd m t)
    (hmsg : CarriesEntry log m i msg) (hs : nd.step (.receive msg) = some nd') :
    OnLog log nd' m (max m (i + 1)) := by
  obtain ⟨-, rfl⟩ := step_receive hs
  exact ⟨h.reflects, h.label, Or.inl ⟨i, hmsg, rfl⟩, h.installer⟩

/-- Reading a snapshot leads to its tables, labelled with the index of the message. -/
theorem processSnapshot {msg : ApplyMsg Op KVSnapshot} (h : OnLog log nd m t)
    (hmsg : CarriesSnapshot log t msg) : OnLog log (nd.processSnapshot msg) t t := by
  obtain ⟨data, hdata, href⟩ := hmsg.snapshot
  have hkv : (nd.processSnapshot msg).kv.toTables = data.toTables := by
    show (nd.kv.readSnapshot msg.snapshot).toTables = data.toTables
    rw [hdata]
    rfl
  refine ⟨?_, hmsg.commandIndex, rfl, h.installer⟩
  rw [hkv]
  exact href

/-- Ignoring an entry is right: it has no command, or its effect is in the tables. -/
theorem ignore {msg : ApplyMsg Op KVSnapshot} {i : Nat} (h : OnLog log nd m t)
    (hmsg : CarriesEntry log m i msg)
    (hskip : msg.command = none ∨ msg.commandIndex ≤ nd.kv.snapshotIndex) :
    Reflects log (max m (i + 1)) nd.kv.toTables := by
  rcases hskip with hnil | hle
  · have hc : log[i]? = some none := hnil ▸ hmsg.command
    exact h.reflects.deliver Tables.absorbing hmsg.le hc rfl
  · have hi : i + 1 ≤ m := by
      have hlabel := h.label
      have hindex := hmsg.commandIndex
      omega
    rw [Nat.max_eq_left hi]
    exact h.reflects

/-- Applying the command of an entry leads to a prefix that contains the entry. -/
theorem applyOp {msg : ApplyMsg Op KVSnapshot} {i : Nat} {cmd : Op} {u : Tables}
    (h : OnLog log nd m t) (hmsg : CarriesEntry log m i msg) (hc : msg.command = some cmd)
    (hu : nd.kv.applyOp cmd = some u) : Reflects log (max m (i + 1)) u := by
  have hentry : log[i]? = some (some cmd) := hc ▸ hmsg.command
  exact h.reflects.deliver Tables.absorbing hmsg.le hentry hu

/-- Once the message in hand has been processed, the tables reflect `t`. -/
theorem process {size : Int} (h : OnLog log nd m t)
    (hs : nd.step (.process size) = some nd') : OnLog log nd' t t := by
  obtain ⟨msg, hd, hproc⟩ := step_process hs
  have hreach := h.daemon
  rw [hd] at hreach
  rcases hreach with ⟨i, hmsg, rfl⟩ | hmsg
  · have hlabel : nd.kv.snapshotIndex ≤ (max m (i + 1) : Nat) := by
      have hl := h.label
      omega
    have hindex : msg.commandIndex ≤ (max m (i + 1) : Nat) := by
      rw [hmsg.commandIndex]
      omega
    rcases process_cases hproc with ⟨huse, -⟩ | ⟨-, hskip, rfl⟩ | ⟨-, cmd, u, hc, hu, rfl⟩ |
      ⟨-, cmd, u, hc, hu, rfl⟩
    · rw [hmsg.useSnapshot] at huse
      cases huse
    · exact ⟨h.ignore hmsg hskip, hlabel, rfl, h.installer⟩
    · refine ⟨?_, ?_, rfl, h.installer⟩
      · rw [KVServer.notify_toTables]
        exact h.applyOp hmsg hc hu
      · rw [KVServer.notify_snapshotIndex]
        exact hlabel
    · exact ⟨h.applyOp hmsg hc hu, hindex, ⟨rfl, rfl, rfl, hindex⟩, h.installer⟩
  · rcases process_cases hproc with ⟨-, rfl⟩ | ⟨huse, -⟩ | ⟨huse, -⟩ | ⟨huse, -⟩
    · exact h.processSnapshot hmsg
    all_goals
      rw [hmsg.useSnapshot] at huse
      cases huse

theorem newSnapShot (h : OnLog log nd m t) (hs : nd.step .newSnapShot = some nd') :
    OnLog log nd' m t := by
  obtain ⟨data, index, rf, hd, -, -, rfl⟩ := step_newSnapShot hs
  have hreach := h.daemon
  rw [hd] at hreach
  refine ⟨?_, ?_, hreach.1, h.installer⟩
  · rw [KVServer.notify_toTables]
    exact h.reflects
  · rw [KVServer.notify_snapshotIndex]
    exact h.label

theorem beginInstall {args : InstallSnapshotArgs n KVSnapshot} (h : OnLog log nd m t)
    (hargs : ∃ p, CarriesSnapshot log p
      (Raft.snapshotMsg args.lastIncludedIndex args.snapshot))
    (hs : nd.step (.beginInstall args) = some nd') : OnLog log nd' m t := by
  obtain ⟨-, rf, out, hbegin, rfl⟩ := step_beginInstall hs
  refine ⟨h.reflects, h.label, h.daemon, ?_⟩
  intro msg hmsg
  rcases Raft.beginInstall_cases hbegin with ⟨-, rfl⟩ | ⟨-, -, -, -, -, rfl⟩
  · cases hmsg
  · cases hmsg
    exact hargs

/-- The daemon takes the snapshot and will reach the prefix it reflects. -/
theorem sendSnapshot (h : OnLog log nd m t) (hs : nd.step .sendSnapshot = some nd') :
    ∃ msg p, nd.installer = .sending msg ∧ CarriesSnapshot log p msg ∧
      OnLog log nd' m p := by
  obtain ⟨msg, hi, -, rfl⟩ := step_sendSnapshot hs
  obtain ⟨p, hmsg⟩ := h.installer msg hi
  refine ⟨msg, p, hi, hmsg, h.reflects, h.label, Or.inr hmsg, ?_⟩
  intro msg' hmsg'
  cases hmsg'

theorem finishInstall (h : OnLog log nd m t) (hs : nd.step .finishInstall = some nd') :
    OnLog log nd' m t := by
  obtain ⟨snapshot, -, rfl⟩ := step_finishInstall hs
  refine ⟨h.reflects, h.label, h.daemon, ?_⟩
  intro msg hmsg
  cases hmsg

end OnLog

end Node

end RaftLab
