import RaftLab.KV.OnLog

set_option autoImplicit false

/-! # Snapshots, redelivery and crashes

The persister of a server is written at separate moments: `generateSnapshot` stores the
tables alone, `NewSnapShot` and `InstallSnapshot` store Raft's state and a snapshot
together. `Node.Durable` says what holds between these writes: whatever snapshot is stored
reflects a prefix of the committed log that reaches both its own label and the stored Raft
state's `snapshotIndex`. A restarted server can therefore be fed from that index on.

A `Service` is any number of servers over one committed log. A server may install any
snapshot that some server has generated, under any index up to the prefix it reflects.
-/

namespace RaftLab

open Tables (Reflects)

variable {n : Nat} {log : List (Option Op)}

/-! ## What the persister holds -/

/-- The snapshot reflects a prefix that reaches its own label and index `k`. -/
def KVSnapshot.Covers (log : List (Option Op)) (k : Int) (data : KVSnapshot) : Prop :=
  ∃ p : Nat, Reflects log p data.toTables ∧ data.snapshotIndex ≤ p ∧ k ≤ p

theorem KVSnapshot.Covers.mono {data : KVSnapshot} {k k' : Int} (h : data.Covers log k)
    (hle : k' ≤ k) : data.Covers log k' := by
  obtain ⟨p, hp, hlabel, hk⟩ := h
  exact ⟨p, hp, hlabel, by omega⟩

/-- Tables that reflect two prefixes reflect the longer one. -/
theorem KVSnapshot.Covers.reach {data : KVSnapshot} {k k' : Int} {m : Nat}
    (h : data.Covers log k) (hm : Reflects log m data.toTables) (hle : k' ≤ m) :
    data.Covers log k' := by
  obtain ⟨p, hp, hlabel, -⟩ := h
  rcases Nat.le_total p m with hpm | hmp
  · exact ⟨m, hm, by omega, hle⟩
  · exact ⟨p, hp, hlabel, by omega⟩

namespace Persister

/-- The snapshot a restarted server begins with. -/
def restored (ps : Persister n Op KVSnapshot) : KVSnapshot :=
  ps.snapshot.getD { toTables := .empty, snapshotIndex := 0 }

/-- The `snapshotIndex` a restarted peer begins with. -/
def storedIndex (ps : Persister n Op KVSnapshot) : Int :=
  (ps.raftstate.map StateData.snapshotIndex).getD 0

theorem make_snapshotIndex (me : Fin n) (ps : Persister n Op KVSnapshot) :
    (Raft.make me ps).snapshotIndex = ps.storedIndex := by
  rcases ps with ⟨_ | d, snapshot⟩
  · rfl
  · rfl

theorem startKVServer_toTables (maxraftstate : Int) (ps : Persister n Op KVSnapshot) :
    (KVServer.startKVServer maxraftstate ps).toTables = ps.restored.toTables := by
  rcases ps with ⟨raftstate, _ | data⟩
  · rfl
  · rfl

theorem startKVServer_snapshotIndex (maxraftstate : Int) (ps : Persister n Op KVSnapshot) :
    (KVServer.startKVServer maxraftstate ps).snapshotIndex = ps.restored.snapshotIndex := by
  rcases ps with ⟨raftstate, _ | data⟩
  · rfl
  · rfl

end Persister

namespace Node

/-- What is stored, and what is about to be, can be fed again from the stored index on. `t`
is the prefix that the tables in memory reach with the message in hand. -/
structure Durable (log : List (Option Op)) (nd : Node n) (t : Nat) : Prop where
  disk : nd.rf.persister.restored.Covers log nd.rf.persister.storedIndex
  idle : nd.installer = .idle → nd.rf.persister.restored.Covers log nd.rf.snapshotIndex
  stored_le_index : nd.rf.persister.storedIndex ≤ nd.rf.snapshotIndex
  stored_le_reach : nd.rf.persister.storedIndex ≤ t
  index_le_reach : (∀ msg, nd.installer ≠ .sending msg) → nd.rf.snapshotIndex ≤ t
  sending : ∀ msg, nd.installer = .sending msg → nd.rf.snapshotIndex = msg.commandIndex ∧
    ∃ data, msg.snapshot = some data ∧ data.Covers log msg.commandIndex
  storing : ∀ snapshot, nd.installer = .storing snapshot →
    ∃ data, snapshot = some data ∧ data.Covers log nd.rf.snapshotIndex
  generated : ∀ data ∈ nd.generated, data.Covers log data.snapshotIndex

variable {nd nd' : Node n} {m t : Nat}

theorem Durable.mono (h : Durable log nd m) (hle : m ≤ t) : Durable log nd t := by
  refine { h with stored_le_reach := ?_, index_le_reach := fun hns => ?_ }
  · have hs := h.stored_le_reach
    omega
  · have hs := h.index_le_reach hns
    omega

/-- While no snapshot is being installed, what is stored covers the peer's index, which is between
the stored index and what the tables reach. -/
theorem Durable.of_idle (hidle : nd.installer = .idle)
    (hcov : nd.rf.persister.restored.Covers log nd.rf.snapshotIndex)
    (hle : nd.rf.persister.storedIndex ≤ nd.rf.snapshotIndex) (hreach : nd.rf.snapshotIndex ≤ t)
    (hgen : ∀ data ∈ nd.generated, data.Covers log data.snapshotIndex) : Durable log nd t where
  disk := hcov.mono hle
  idle _ := hcov
  stored_le_index := hle
  stored_le_reach := hle.trans hreach
  index_le_reach _ := hreach
  sending msg hmsg := by simp [hidle] at hmsg
  storing snapshot hsnap := by simp [hidle] at hsnap
  generated := hgen

/-- A procedure of the peer stores at most its current index. -/
theorem Durable.call {c : Procedure n Op} (h : Durable log nd t)
    (hs : nd.step (.call c) = some nd') : Durable log nd' t := by
  obtain ⟨hidle, rf, hcall, rfl⟩ := step_call hs
  have hk := Raft.call_keepsSnapshot hcall
  have hrest : rf.persister.restored = nd.rf.persister.restored := by
    rw [Persister.restored, hk.snapshot]
    rfl
  -- `persist` writes the index in memory, where it is called
  have hstored : rf.persister.storedIndex = nd.rf.persister.storedIndex ∨
      rf.persister.storedIndex = nd.rf.snapshotIndex := by
    rcases hk.raftstate with heq | ⟨d, hd, hdi⟩
    · left
      rw [Persister.storedIndex, heq]
      rfl
    · right
      rw [Persister.storedIndex, hd, ← hdi]
      rfl
  have hreach : nd.rf.snapshotIndex ≤ t := h.index_le_reach (by simp [hidle])
  have hcov := h.idle hidle
  have hle := h.stored_le_index
  refine Durable.of_idle hidle ?_ ?_ ?_ h.generated
  · show rf.persister.restored.Covers log rf.snapshotIndex
    rw [hrest, hk.snapshotIndex]
    exact hcov
  · show rf.persister.storedIndex ≤ rf.snapshotIndex
    rw [hk.snapshotIndex]
    omega
  · show rf.snapshotIndex ≤ t
    rw [hk.snapshotIndex]
    exact hreach

/-- `generateSnapshot` stores tables that reflect what the server has reached. -/
theorem Durable.generate {data : KVSnapshot} {kv : KVServer} {daemon : ApplyDaemon}
    (h : Durable log nd t) (href : Reflects log t data.toTables)
    (hlabel : data.snapshotIndex ≤ t) :
    Durable log { nd.setPersister (nd.rf.persister.saveSnapshot (some data)) with
      kv := kv, daemon := daemon, generated := nd.generated ++ [data] } t := by
  constructor
  case disk => exact ⟨t, href, hlabel, h.stored_le_reach⟩
  case idle =>
    intro hidle
    have hidle : nd.installer = .idle := hidle
    exact ⟨t, href, hlabel, h.index_le_reach (by simp [hidle])⟩
  case stored_le_index => exact h.stored_le_index
  case stored_le_reach => exact h.stored_le_reach
  case index_le_reach => exact h.index_le_reach
  case sending => exact h.sending
  case storing => exact h.storing
  case generated =>
    intro d hd
    rcases List.mem_append.mp hd with hold | hnew
    · exact h.generated d hold
    · obtain rfl := List.mem_singleton.mp hnew
      exact ⟨t, href, hlabel, hlabel⟩

theorem Durable.process {size : Int} (h : Durable log nd t) (ho : OnLog log nd m t)
    (hs : nd.step (.process size) = some nd') : Durable log nd' t := by
  have ho' := ho.process hs
  obtain ⟨msg, -, hproc⟩ := step_process hs
  rcases process_cases hproc with ⟨-, rfl⟩ | ⟨-, -, rfl⟩ | ⟨-, cmd, u, -, -, rfl⟩ |
    ⟨-, cmd, u, -, -, rfl⟩
  · exact h.generate ho'.reflects ho'.label
  · exact { h with }
  · exact { h with }
  · exact h.generate ho'.reflects ho'.label

/-- `NewSnapShot` stores the tables that `generateSnapshot` took, under the same index. -/
theorem Durable.newSnapShot (h : Durable log nd t) (ho : OnLog log nd m t)
    (hs : nd.step .newSnapShot = some nd') : Durable log nd' t := by
  obtain ⟨data, index, rf, hd, hidle, hnew, rfl⟩ := step_newSnapShot hs
  have hreach := ho.daemon
  rw [hd] at hreach
  obtain ⟨rfl, htables, hlabel, hindex⟩ := hreach
  have hcov : data.Covers log index := by
    refine ⟨t, ?_, by omega, hindex⟩
    rw [htables]
    exact ho.reflects
  rcases Raft.newSnapShot_cases hnew with ⟨-, rfl⟩ | ⟨-, -, e, rest, -, rfl⟩
  · exact { h with }
  · exact Durable.of_idle hidle hcov (Int.le_refl index) hindex h.generated

theorem Durable.beginInstall {args : InstallSnapshotArgs n KVSnapshot}
    (h : Durable log nd t)
    (hargs : ∃ data, args.snapshot = some data ∧ data.Covers log args.lastIncludedIndex)
    (hs : nd.step (.beginInstall args) = some nd') : Durable log nd' t := by
  obtain ⟨hidle, rf, out, hbegin, rfl⟩ := step_beginInstall hs
  rcases Raft.beginInstall_cases hbegin with ⟨rfl, rfl⟩ | ⟨hlt, -, hindex, -, hps, rfl⟩
  · rw [show (none : Option (ApplyMsg Op KVSnapshot)).elim Installer.idle .sending
      = nd.installer from hidle.symm]
    exact { h with }
  · -- the index in memory goes up before anything is stored
    have hstored := h.stored_le_index
    constructor
    case disk =>
      show rf.persister.restored.Covers log rf.persister.storedIndex
      rw [hps]
      exact h.disk
    case idle => intro hi; cases hi
    case stored_le_index =>
      show rf.persister.storedIndex ≤ rf.snapshotIndex
      rw [hps, hindex]
      omega
    case stored_le_reach =>
      show rf.persister.storedIndex ≤ t
      rw [hps]
      exact h.stored_le_reach
    case index_le_reach => intro hns; exact absurd rfl (hns _)
    case sending =>
      intro msg hmsg
      cases hmsg
      exact ⟨hindex, hargs⟩
    case storing => intro snapshot hsnap; cases hsnap
    case generated => exact h.generated

theorem Durable.sendSnapshot {msg : ApplyMsg Op KVSnapshot} {p : Nat} (h : Durable log nd t)
    (hi : nd.installer = .sending msg) (hp : msg.commandIndex ≤ p)
    (hs : nd.step .sendSnapshot = some nd') : Durable log nd' p := by
  obtain ⟨msg', hi', -, rfl⟩ := step_sendSnapshot hs
  obtain rfl : msg' = msg := by
    rw [hi] at hi'
    exact (Installer.sending.inj hi').symm
  obtain ⟨hindex, data, hdata, hcov⟩ := h.sending msg' hi
  have hstored := h.stored_le_index
  constructor
  case disk => exact h.disk
  case idle => intro hidle; cases hidle
  case stored_le_index => exact hstored
  case stored_le_reach =>
    show nd.rf.persister.storedIndex ≤ p
    omega
  case index_le_reach =>
    intro _
    show nd.rf.snapshotIndex ≤ p
    omega
  case sending => intro msg'' hmsg; cases hmsg
  case storing =>
    intro snapshot hsnap
    cases hsnap
    refine ⟨data, hdata, ?_⟩
    show data.Covers log nd.rf.snapshotIndex
    rw [hindex]
    exact hcov
  case generated => exact h.generated

theorem Durable.finishInstall (h : Durable log nd t)
    (hs : nd.step .finishInstall = some nd') : Durable log nd' t := by
  obtain ⟨snapshot, hi, rfl⟩ := step_finishInstall hs
  obtain ⟨data, rfl, hcov⟩ := h.storing snapshot hi
  have hreach : nd.rf.snapshotIndex ≤ t := h.index_le_reach (by simp [hi])
  exact Durable.of_idle rfl hcov (Int.le_refl nd.rf.snapshotIndex) hreach h.generated

/-- A restarted server has the tables of a prefix that reaches the stored index. -/
theorem Durable.crash (h : Durable log nd t) (hs : nd.step .crash = some nd') :
    ∃ p, OnLog log nd' p p ∧ Durable log nd' p := by
  rw [step_crash hs]
  obtain ⟨p, href, hlabel, hstored⟩ := h.disk
  have hps := Raft.make_persister nd.rf.me nd.rf.persister
  have hindex := Persister.make_snapshotIndex nd.rf.me nd.rf.persister
  refine ⟨p, ⟨?_, ?_, rfl, fun msg hmsg => by cases hmsg⟩, ?_⟩
  · rw [Persister.startKVServer_toTables]
    exact href
  · rw [Persister.startKVServer_snapshotIndex]
    exact hlabel
  · refine Durable.of_idle rfl ?_ ?_ ?_ h.generated
    · rw [hps, hindex]
      exact h.disk
    · rw [hps, hindex]
    · rw [hindex]
      exact hstored

/-! ## One step of a server -/

/-- What the environment may send a server: an entry not beyond the one after some prefix its
tables reflect, or a generated snapshot under an index that its contents reach. -/
def Delivers (log : List (Option Op)) (made : KVSnapshot → Prop) (nd : Node n) :
    NodeEvent n → Prop
  | .receive msg => ∃ m i, Reflects log m nd.kv.toTables ∧ CarriesEntry log m i msg
  | .beginInstall args => ∃ data, args.snapshot = some data ∧ made data ∧
      ∃ m : Nat, Reflects log m data.toTables ∧ args.lastIncludedIndex ≤ m
  | _ => True

/-- The invariant of a server. -/
def Recoverable (log : List (Option Op)) (nd : Node n) : Prop :=
  ∃ m t, OnLog log nd m t ∧ Durable log nd t

theorem recoverable_init (log : List (Option Op)) (me : Fin n) (maxraftstate : Int) :
    Recoverable log (init me maxraftstate) := by
  have hzero : Reflects log 0 Tables.empty := Replay.Reflects.zero _ _ _
  refine ⟨0, 0, ⟨hzero, Int.le_refl 0, rfl, fun msg hmsg => by cases hmsg⟩, ?_⟩
  exact Durable.of_idle rfl ⟨0, hzero, Int.le_refl 0, Int.le_refl 0⟩ (Int.le_refl 0)
    (Int.le_refl 0) fun data hdata => by cases hdata

theorem recoverable_step {made : KVSnapshot → Prop} {e : NodeEvent n}
    (hmade : ∀ data, made data → data.Covers log data.snapshotIndex)
    (h : Recoverable log nd) (hok : Delivers log made nd e) (hs : nd.step e = some nd') :
    Recoverable log nd' := by
  obtain ⟨m, t, ho, hd⟩ := h
  cases e with
  | call c => exact ⟨m, t, ho.call hs, hd.call hs⟩
  | await index ch =>
      refine ⟨m, t, ho.await hs, ?_⟩
      rw [step_await hs]
      exact { hd with }
  | receive msg =>
      obtain ⟨k, i, hk, hmsg⟩ := hok
      obtain ⟨hw, heq⟩ := step_receive hs
      obtain rfl := ho.eq_of_waiting hw
      -- the tables may reflect a longer prefix than the one the entry was sent for
      have hmsg' : CarriesEntry log (max t k) i msg :=
        { hmsg with le := Nat.le_trans hmsg.le (Nat.le_max_right _ _) }
      refine ⟨_, _, (ho.extend hw hk).receive hmsg' hs, ?_⟩
      rw [heq]
      exact { hd.mono (by omega : t ≤ max (max t k) (i + 1)) with }
  | process size => exact ⟨t, t, ho.process hs, hd.process ho hs⟩
  | newSnapShot => exact ⟨m, t, ho.newSnapShot hs, hd.newSnapShot ho hs⟩
  | beginInstall args =>
      obtain ⟨data, hdata, hin, k, hk, hle⟩ := hok
      have hcov : data.Covers log args.lastIncludedIndex := (hmade data hin).reach hk hle
      exact ⟨m, t, ho.beginInstall ⟨k, rfl, ⟨data, hdata, hk⟩, hle⟩ hs,
        hd.beginInstall ⟨data, hdata, hcov⟩ hs⟩
  | sendSnapshot =>
      obtain ⟨msg, p, hi, hmsg, ho'⟩ := ho.sendSnapshot hs
      exact ⟨m, p, ho', hd.sendSnapshot hi hmsg.commandIndex hs⟩
  | finishInstall => exact ⟨m, t, ho.finishInstall hs, hd.finishInstall hs⟩
  | crash =>
      obtain ⟨p, ho', hd'⟩ := hd.crash hs
      exact ⟨p, p, ho', hd'⟩

end Node

/-! ## Any number of servers -/

/-- The servers of the key/value service. -/
structure Service (n : Nat) where
  server : Fin n → Node n

namespace Service

def init (maxraftstate : Int) : Service n := ⟨fun me => Node.init me maxraftstate⟩

/-- One server takes a step. -/
def step (s : Service n) (e : Fin n × NodeEvent n) : Option (Service n) :=
  ((s.server e.1).step e.2).map (fun nd => ⟨Function.update s.server e.1 nd⟩)

/-- Some server has generated the snapshot. -/
def Made (s : Service n) (data : KVSnapshot) : Prop := ∃ q, data ∈ (s.server q).generated

/-- Entries and snapshots reach a server as `Node.Delivers` says, where the snapshots are
those that servers have generated. -/
def Delivers (log : List (Option Op)) (s : Service n) (e : Fin n × NodeEvent n) : Prop :=
  (s.server e.1).Delivers log s.Made e.2

theorem recoverable_run {maxraftstate : Int} {es : List (Fin n × NodeEvent n)} {s : Service n}
    (hok : Machine.Along step (Delivers log) (init maxraftstate) es)
    (hr : Machine.run step (init maxraftstate) es = some s) (q : Fin n) :
    (s.server q).Recoverable log := by
  have hstep : ∀ (s : Service n) (e : Fin n × NodeEvent n) (s' : Service n),
      (∀ q, (s.server q).Recoverable log) → Delivers log s e → step s e = some s' →
      ∀ q, (s'.server q).Recoverable log := by
    intro s e s' hs hdel hst
    obtain ⟨nd, hnd, rfl⟩ := Option.map_eq_some_iff.mp hst
    -- the server that made a snapshot vouches for it
    have hmade : ∀ data, s.Made data → data.Covers log data.snapshotIndex := by
      rintro data ⟨r, hr⟩
      obtain ⟨m, t, -, hd⟩ := hs r
      exact hd.generated data hr
    exact (Function.forall_update_iff s.server fun _ nd => nd.Recoverable log).mpr
      ⟨Node.recoverable_step hmade (hs e.1) hdel hnd, fun q _ => hs q⟩
  have hinit : ∀ q : Fin n, ((init maxraftstate : Service n).server q).Recoverable log := by
    intro q
    exact Node.recoverable_init log q maxraftstate
  exact Machine.run_induction hstep hinit hok hr q

/-- **Through snapshots, redelivery and crashes, the tables of every server are those of a
prefix of the committed log.** The prefix reaches the server's `snapshotIndex`, and Raft's
stored one unless a message is in hand. What a crash at this point would restore is again a
prefix, and it reaches the `snapshotIndex` that Raft would restore, so that redelivery can
begin with the entry after it. -/
theorem tables_reflect_log {maxraftstate : Int} {es : List (Fin n × NodeEvent n)}
    {s : Service n} (hok : Machine.Along step (Delivers log) (init maxraftstate) es)
    (hr : Machine.run step (init maxraftstate) es = some s) (q : Fin n) :
    (∃ m : Nat, m ≤ log.length ∧ Tables.replay (log.take m) = some (s.server q).kv.toTables ∧
      (s.server q).kv.snapshotIndex ≤ m ∧
      ((s.server q).daemon = .waiting →
        (Raft.make (s.server q).rf.me (s.server q).rf.persister).snapshotIndex ≤ m)) ∧
    (∃ m : Nat, m ≤ log.length ∧
      Tables.replay (log.take m) = some (KVServer.startKVServer (s.server q).kv.maxraftstate
        (s.server q).rf.persister).toTables ∧
      (Raft.make (s.server q).rf.me (s.server q).rf.persister).snapshotIndex ≤ m) := by
  obtain ⟨m, t, ho, hd⟩ := recoverable_run hok hr q
  obtain ⟨p, href, -, hstored⟩ := hd.disk
  have hreach : (s.server q).daemon = .waiting →
      (Raft.make (s.server q).rf.me (s.server q).rf.persister).snapshotIndex ≤ m := by
    intro hw
    rw [Persister.make_snapshotIndex, ← ho.eq_of_waiting hw]
    exact hd.stored_le_reach
  refine ⟨⟨m, ho.reflects.le, ho.reflects.run, ho.label, hreach⟩, p, href.le, ?_, ?_⟩
  · rw [Persister.startKVServer_toTables]
    exact href.run
  · rw [Persister.make_snapshotIndex]
    exact hstored

/-! ### A run with two crashes -/

/-- Two commands of one client. -/
def twoOps : List (Option Op) :=
  [some { key := "x", value := "1", op := .put, clientID := 7, seqNo := 1 },
   some { key := "x", value := "2", op := .append, clientID := 7, seqNo := 2 }]

/-- The message for the entry at position `i` of `twoOps`. -/
def entryMsg (i : Nat) : ApplyMsg Op KVSnapshot :=
  { commandValid := true, command := twoOps[i]?.join, commandIndex := i + 1,
    useSnapshot := false, snapshot := none }

/-- The snapshot of the first command. -/
def snapshotOne : KVSnapshot :=
  { toTables := (Tables.replay (twoOps.take 1)).getD .empty, snapshotIndex := 1 }

def installOne : InstallSnapshotArgs 2 KVSnapshot :=
  { term := 1, leaderID := 0, lastIncludedIndex := 1, lastIncludedTerm := 1,
    snapshot := some snapshotOne }

/-- Server `0` crashes after `generateSnapshot` and before `NewSnapShot`, and is given its
first entry again. Server `1` installs the snapshot, crashes before `InstallSnapshot` has
stored anything, and goes on with the second entry. -/
def twoCrashes : List (Fin 2 × NodeEvent 2) :=
  [(0, .receive (entryMsg 0)), (0, .process 1), (0, .crash),
   (0, .receive (entryMsg 0)), (0, .process 0),
   (1, .beginInstall installOne), (1, .sendSnapshot), (1, .process 0), (1, .crash),
   (1, .receive (entryMsg 1)), (1, .process 0)]

theorem delivers_twoCrashes :
    Machine.Along step (Delivers twoOps) (init 0) twoCrashes := by
  have hone : Reflects twoOps 1 snapshotOne.toTables := ⟨by decide, rfl⟩
  refine Machine.along_cons ⟨0, 0, ⟨by decide, rfl⟩, by decide⟩ rfl ?_
  refine Machine.along_cons trivial rfl ?_
  refine Machine.along_cons trivial rfl ?_
  refine Machine.along_cons ⟨1, 0, hone, by decide⟩ rfl ?_
  refine Machine.along_cons trivial rfl ?_
  refine Machine.along_cons ⟨snapshotOne, rfl, ⟨0, List.mem_singleton.mpr rfl⟩, 1, hone,
    by decide⟩ rfl ?_
  refine Machine.along_cons trivial rfl ?_
  refine Machine.along_cons trivial rfl ?_
  refine Machine.along_cons trivial rfl ?_
  refine Machine.along_cons ⟨1, 1, hone, by decide⟩ rfl ?_
  exact Machine.along_cons trivial rfl trivial

theorem tables_reflect_log_twoCrashes :
    ∃ s : Service 2, Machine.run step (init 0) twoCrashes = some s ∧
      ∃ m : Nat, m ≤ 2 ∧ Tables.replay (twoOps.take m) = some (s.server 1).kv.toTables := by
  obtain ⟨s, hs⟩ : ∃ s, Machine.run step (init 0) twoCrashes = some s := ⟨_, rfl⟩
  obtain ⟨⟨m, hm, hrep, -, -⟩, -⟩ := tables_reflect_log delivers_twoCrashes hs 1
  exact ⟨s, hs, m, hm, hrep⟩

end Service

end RaftLab
