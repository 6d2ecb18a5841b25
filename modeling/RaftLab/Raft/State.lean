import RaftLab.Lib.Slice

set_option autoImplicit false

/-! # The state of a Raft peer

The data of `raft/raft.go` and `raft/persister.go`. A peer of a cluster of `n` peers is
numbered by `Fin n`; `C` is the type of commands and `D` the type of snapshot contents, both
opaque to Raft. Log positions are Go `int`s, hence `Int`; terms are only ever compared and
increased and are `Nat`. `Logs[0]` is a placeholder for the entry at `snapshotIndex`, so the
entry with absolute index `i` is `Logs[i - snapshotIndex]`.

Encoding with `labgob` is taken to round-trip: the persister stores the encoded values
themselves. `none` stands for an empty byte slice.
-/

namespace RaftLab

/-- Members of groups of one to five can be written as numerals. -/
instance neZeroOne : NeZero 1 := ⟨by decide⟩

instance neZeroTwo : NeZero 2 := ⟨by decide⟩

instance neZeroThree : NeZero 3 := ⟨by decide⟩

instance neZeroFour : NeZero 4 := ⟨by decide⟩

instance neZeroFive : NeZero 5 := ⟨by decide⟩

/-- `Follower`, `Candidate`, `Leader`. -/
inductive Role where
  | follower
  | candidate
  | leader
  deriving DecidableEq, Repr

/-- `LogEntry`; a `nil` command is `none`. -/
structure LogEntry (C : Type) where
  term : Nat
  command : Option C
  deriving DecidableEq, Repr

/-- `ApplyMsg`. -/
structure ApplyMsg (C D : Type) where
  commandValid : Bool
  command : Option C
  commandIndex : Int
  useSnapshot : Bool
  snapshot : Option D
  deriving DecidableEq, Repr

/-- What `stateData` encodes: the five persistent fields. -/
structure StateData (n : Nat) (C : Type) where
  currentTerm : Nat
  votedFor : Option (Fin n)
  logs : List (LogEntry C)
  snapshotIndex : Int
  snapshotTerm : Nat
  deriving DecidableEq, Repr

/-- `Persister`. -/
structure Persister (n : Nat) (C D : Type) where
  raftstate : Option (StateData n C)
  snapshot : Option D

namespace Persister

variable {n : Nat} {C D : Type}

def makePersister : Persister n C D := ⟨none, none⟩

def saveRaftState (ps : Persister n C D) (state : StateData n C) : Persister n C D :=
  { ps with raftstate := some state }

def saveStateAndSnapshot (_ps : Persister n C D) (state : StateData n C) (snapshot : Option D) :
    Persister n C D :=
  { raftstate := some state, snapshot := snapshot }

def saveSnapshot (ps : Persister n C D) (snapshot : Option D) : Persister n C D :=
  { ps with snapshot := snapshot }

end Persister

/-- The fields of `Raft` that the handlers read and write; `len(rf.peers)` is `n` and a
`VotedFor` of `-1` is `none`. -/
structure Raft (n : Nat) (C D : Type) where
  persister : Persister n C D
  me : Fin n
  state : Role
  currentTerm : Nat
  votedFor : Option (Fin n)
  logs : List (LogEntry C)
  commitIndex : Int
  lastApplied : Int
  nextIndex : Fin n → Int
  matchIndex : Fin n → Int
  snapshotIndex : Int
  snapshotTerm : Nat

namespace Raft

variable {n : Nat} {C D : Type}

/-! ## Persistence -/

def stateData (rf : Raft n C D) : StateData n C :=
  { currentTerm := rf.currentTerm
    votedFor := rf.votedFor
    logs := rf.logs
    snapshotIndex := rf.snapshotIndex
    snapshotTerm := rf.snapshotTerm }

def persist (rf : Raft n C D) : Raft n C D :=
  { rf with persister := rf.persister.saveRaftState rf.stateData }

def readPersist (rf : Raft n C D) : Option (StateData n C) → Raft n C D
  | none => rf  -- bootstrap without any state
  | some d =>
      { rf with
        currentTerm := d.currentTerm
        votedFor := d.votedFor
        logs := d.logs
        snapshotIndex := d.snapshotIndex
        snapshotTerm := d.snapshotTerm }

/-- The fields `Make` sets before it reads the persister. -/
def newborn (me : Fin n) (persister : Persister n C D) : Raft n C D :=
  { persister := persister
    me := me
    state := .follower
    currentTerm := 0
    votedFor := none
    logs := [{ term := 0, command := none }]
    commitIndex := 0
    lastApplied := 0
    nextIndex := fun _ => 0
    matchIndex := fun _ => 0
    snapshotIndex := 0
    snapshotTerm := 0 }

/-- `Make`: a new peer, restored from what the persister holds. -/
def make (me : Fin n) (persister : Persister n C D) : Raft n C D :=
  let rf := (newborn me persister).readPersist persister.raftstate
  { rf with lastApplied := rf.snapshotIndex, commitIndex := rf.snapshotIndex }

/-! ## Small operations shared by the handlers -/

/-- `getState`: the current term, and whether the peer believes it is the leader. -/
def getState (rf : Raft n C D) : Nat × Bool := (rf.currentTerm, rf.state = .leader)

/-- The index of the last log entry, and its term. -/
def lastLogIndexAndTerm (rf : Raft n C D) : Option (Int × Nat) := do
  let index := rf.snapshotIndex + rf.logs.length - 1
  let e ← Slice.index rf.logs (index - rf.snapshotIndex)
  pure (index, e.term)

def turnToFollow (rf : Raft n C D) : Raft n C D :=
  { rf with state := .follower, votedFor := none }

def resetOnElection (rf : Raft n C D) : Raft n C D :=
  let length : Int := rf.logs.length + rf.snapshotIndex
  { rf with
    matchIndex := fun i => if i = rf.me then length - 1 else 0
    nextIndex := fun _ => length }

/-- `Start`: append a command to the leader's log. -/
def start (rf : Raft n C D) (command : Option C) : Raft n C D × Int × Nat × Bool :=
  if rf.state = .leader then
    let logs := rf.logs ++ [{ term := rf.currentTerm, command := command }]
    let index : Int := logs.length - 1 + rf.snapshotIndex
    -- only the leader's own cells are updated
    let rf' := { rf with
      logs := logs
      nextIndex := Function.update rf.nextIndex rf.me (index + 1)
      matchIndex := Function.update rf.matchIndex rf.me index }
    (rf'.persist, index, rf.currentTerm, true)
  else
    (rf, -1, 0, false)

section simp_lemmas

variable (rf : Raft n C D)

@[simp] theorem persist_me : rf.persist.me = rf.me := rfl
@[simp] theorem persist_state : rf.persist.state = rf.state := rfl
@[simp] theorem persist_currentTerm : rf.persist.currentTerm = rf.currentTerm := rfl
@[simp] theorem persist_votedFor : rf.persist.votedFor = rf.votedFor := rfl
@[simp] theorem persist_logs : rf.persist.logs = rf.logs := rfl
@[simp] theorem persist_commitIndex : rf.persist.commitIndex = rf.commitIndex := rfl
@[simp] theorem persist_lastApplied : rf.persist.lastApplied = rf.lastApplied := rfl
@[simp] theorem persist_nextIndex : rf.persist.nextIndex = rf.nextIndex := rfl
@[simp] theorem persist_matchIndex : rf.persist.matchIndex = rf.matchIndex := rfl
@[simp] theorem persist_snapshotIndex : rf.persist.snapshotIndex = rf.snapshotIndex := rfl
@[simp] theorem persist_snapshotTerm : rf.persist.snapshotTerm = rf.snapshotTerm := rfl

end simp_lemmas

theorem make_persister (me : Fin n) (ps : Persister n C D) : (make me ps).persister = ps := by
  rcases ps with ⟨_ | d, snapshot⟩
  · rfl
  · rfl

end Raft

end RaftLab
