import RaftLab.Lib.Reach
import RaftLab.Raft.Procedures

set_option autoImplicit false

/-! # The goroutines of one peer

The goroutines of one peer from `Make` to the end that `Kill` calls for, over the fields `rf` that
they share under `rf.mu`: `electionDaemon` with its timer, `applyLogEntryDaemon` with `commitCond`,
and any number of others, numbered by `k`. One of these runs a task at a time: the handler of an
RPC or of a reply, a call of the service, or what the peer itself has started by `go`. Calls come
from outside at any time and with any arguments.

A task is cut where another goroutine can come in between: at its look at `shutdownCh`, at
`rf.mu.Lock()`, at a send on `resetTimer`, which only `electionDaemon` receives, and at the send of
a snapshot on `applyCh`, which the service receives. Nobody sees the order of the assignments under
the lock, so they are made at once, after the send on `resetTimer`. A timer that has expired keeps
its value in its channel until it is received. `applyCh` is closed when `applyLogEntryDaemon` has
exited, and `Kill` is called once.

When a request has cut the log below `commitIndex`, `applyLogEntryDaemon` reads entries that the
array of `rf.Logs` still has behind it. They are the field `spare`. How much room a task leaves
there and what is in it depends on the task and on `append`; it is a parameter, `room`, and what is
proved holds for every `room`.

`Stepped` lists the steps one by one; every invariant of the goroutines goes by it.
-/

namespace RaftLab

variable {n : Nat} {C D : Type}

/-- What a goroutine runs under `rf.mu`. -/
inductive Task (n : Nat) (C D : Type) where
  | call (c : Procedure n C)
  | installSnapshot (args : InstallSnapshotArgs n D)
  | newSnapShot (snapshotdata : Option D) (index : Int)
  | getState
  | consistencyCheck (i : Fin n)
  /-- The `GetState` with which a round of `heartbeatDaemon` begins. -/
  | heartbeat

/-- The task looks at `shutdownCh` first and returns if that is closed. -/
def Task.checksShutdown : Task n C D → Bool
  | .call (.requestVote _) | .call (.appendEntries _) | .call (.start _) => true
  | .installSnapshot _ => true
  | _ => false

/-- The task is called from outside. -/
def Task.isExternal : Task n C D → Bool
  | .call .canvassVotes | .consistencyCheck _ | .heartbeat => false
  | _ => true

def Task.isInstall : Task n C D → Bool
  | .installSnapshot _ => true
  | _ => false

/-- The task can move `commitIndex` by the replication of entries. -/
def Task.replicates : Task n C D → Bool
  | .call (.appendEntries _) | .call (.appendReply _ _) => true
  | _ => false

def Task.isHeartbeat : Task n C D → Bool
  | .heartbeat => true
  | _ => false

/-- What the peer starts by `go`. -/
inductive Job (n : Nat) where
  | canvassVotes
  | heartbeatDaemon
  | consistencyCheck (i : Fin n)
  | broadcast
  deriving DecidableEq

/-- What the job runs under `rf.mu`; `commitCond.Broadcast()` does not take it. -/
def Job.task : Job n → Option (Task n C D)
  | .canvassVotes => some (.call .canvassVotes)
  | .heartbeatDaemon => some .heartbeat
  | .consistencyCheck i => some (.consistencyCheck i)
  | .broadcast => none

namespace Raft

/-- The task sends on `resetTimer`. -/
def resets (rf : Raft n C D) : Task n C D → Bool
  | .call (.requestVote args) => (rf.requestVote args).any (fun out => out.2.voteGranted)
  | .call (.voteReply voteArgs _ reply) =>
      rf.state = .candidate ∧ reply.currentTerm > voteArgs.term
  | .call (.appendEntries args) => rf.currentTerm ≤ args.term
  | .call (.appendReply _ reply) =>
      rf.state = .leader ∧ reply.success = false ∧ reply.currentTerm > rf.currentTerm
  | .installSnapshot args =>
      rf.currentTerm ≤ args.term ∧ rf.snapshotIndex < args.lastIncludedIndex
  | _ => false

/-- What the task does to the fields, what it starts, and its message on `applyCh`. -/
def perform (rf : Raft n C D) :
    Task n C D → Option (Raft n C D × List (Job n) × Option (ApplyMsg C D))
  | .call (.voteReply voteArgs votes reply) =>
      let rf' := (rf.voteReplyHandler voteArgs votes reply).1
      some (rf', if rf.state = .candidate ∧ rf'.state = .leader then [.heartbeatDaemon] else [],
        none)
  | .call (.appendEntries args) =>
      (rf.appendEntries args).map (fun out =>
        (out.1, if out.2.success ∧ args.leaderCommit > rf.commitIndex then [.broadcast] else [],
          none))
  | .call (.appendReply i reply) =>
      -- `updateCommitIndex` starts the broadcast when it advances
      (rf.consistencyCheckReplyHandler i reply).map (fun out =>
        (out.1, if rf.commitIndex < out.1.commitIndex then [.broadcast] else [], none))
  | .call c => (rf.call c).map (fun rf' => (rf', [], none))
  | .installSnapshot args => (rf.beginInstall args).map (fun out => (out.1, [], out.2))
  | .newSnapShot snapshotdata index =>
      (rf.newSnapShot snapshotdata index).map (fun rf' => (rf', [], none))
  | .consistencyCheck i => (rf.consistencyCheck i).map (fun _ => (rf, [], none))
  | .getState | .heartbeat => some (rf, [], none)

end Raft

namespace Daemons

inductive Timer where
  | running
  /-- Expired; the value is in the channel. -/
  | fired
  /-- Stopped, or expired and received. -/
  | stopped
  deriving DecidableEq

inductive ElectionPoint where
  | select
  /-- A value has come on `resetTimer`: `electionTimer.Stop()` is next. -/
  | stop
  /-- The timer had expired: `<-electionTimer.C` is next. -/
  | drain
  /-- `electionTimer.Reset` is next. -/
  | rearm
  | exited
  deriving DecidableEq

inductive ApplyPoint (C D : Type) where
  | lock
  /-- At the head of the loop around `commitCond.Wait()`, with the lock. -/
  | check
  | waiting
  /-- Woken, and waiting for the lock. -/
  | woken
  /-- `Wait` has returned: the look at `shutdownCh` is next. -/
  | awake
  | send (msgs : List (ApplyMsg C D))
  /-- `close(rf.applyCh)` is next. -/
  | closing
  | exited

def ApplyPoint.holds : ApplyPoint C D → Bool
  | .check | .awake => true
  | _ => false

/-- `applyCh` is closed. -/
def ApplyPoint.isExited : ApplyPoint C D → Bool
  | .exited => true
  | _ => false

inductive Point (n : Nat) (C D : Type) where
  | idle
  /-- Called: the look at `shutdownCh`, if there is one, is next. -/
  | called (t : Task n C D)
  | lock (t : Task n C D)
  /-- With the lock, sending on `resetTimer`. -/
  | reset (t : Task n C D)
  /-- With the lock, the rest of the task is next. -/
  | body (t : Task n C D)
  /-- With the lock, `InstallSnapshot` sends on `applyCh`. -/
  | send (msg : ApplyMsg C D)
  /-- The deferred `rf.mu.Unlock()` is next; `heartbeatDaemon` may go on. -/
  | unlock (beats : Bool)
  /-- `heartbeatDaemon` sends on `resetTimer`, without the lock. -/
  | beat
  /-- `heartbeatDaemon` has sent on `resetTimer`. -/
  | beaten

def Point.holds : Point n C D → Bool
  | .reset _ | .body _ | .send _ | .unlock _ => true
  | _ => false

/-- In `InstallSnapshot`, past its look at `shutdownCh` and not past its send. -/
def Point.installs : Point n C D → Bool
  | .lock t | .reset t | .body t => t.isInstall
  | .send _ => true
  | _ => false

/-- Who holds `rf.mu`. -/
inductive Owner where
  | apply
  | goroutine (k : Nat)
  deriving DecidableEq

inductive KillPoint where
  | notCalled
  /-- `shutdownCh` is closed: `commitCond.Broadcast()` is next. -/
  | closed
  | returned
  deriving DecidableEq

inductive Panic where
  /-- An index out of range in a task, or a `panic` of the source. -/
  | task
  /-- The slice that `applyLogEntryDaemon` takes is out of range. -/
  | bounds
  | sendOnClosedChannel
  deriving DecidableEq

/-- What the array of `rf.Logs` has behind the log after a task, by the task, the fields and what
the array had there before. -/
abbrev Room (n : Nat) (C D : Type) :=
  Task n C D → Raft n C D → List (LogEntry C) → List (LogEntry C)

structure State (n : Nat) (C D : Type) where
  rf : Raft n C D
  /-- What the array of `rf.Logs` has behind the log. -/
  spare : List (LogEntry C)
  owner : Option Owner
  kill : KillPoint
  timer : Timer
  election : ElectionPoint
  apply : ApplyPoint C D
  point : Nat → Point n C D
  /-- Started by `go` and not yet running. -/
  jobs : List (Job n)
  panicked : Option Panic

inductive Event (n : Nat) (C D : Type) where
  | call (k : Nat) (t : Task n C D)
  | go (k : Nat) (j : Job n)
  | move (k : Nat)
  /-- `electionDaemon` receives what goroutine `k` sends on `resetTimer`. -/
  | reset (k : Nat)
  | fire
  /-- `electionDaemon` receives from the timer. -/
  | timeout
  /-- `electionDaemon` receives from `shutdownCh`. -/
  | shutdown
  /-- `electionDaemon` goes on outside its `select`. -/
  | election
  | broadcast
  | apply
  /-- The service receives from `applyLogEntryDaemon`. -/
  | receive
  /-- The service receives from the `InstallSnapshot` of goroutine `k`. -/
  | receiveSnapshot (k : Nat)
  | kill

/-- The event is not a call from outside. -/
def Event.isOwn : Event n C D → Bool
  | .call _ _ | .kill => false
  | _ => true

/-- `Make` has started the two daemons. -/
def init (rf : Raft n C D) (spare : List (LogEntry C)) : State n C D :=
  { rf := rf
    spare := spare
    owner := none
    kill := .notCalled
    timer := .running
    election := .select
    apply := .lock
    point := fun _ => .idle
    jobs := []
    panicked := none }

namespace State

/-- `shutdownCh` is closed. -/
def isShutdown (s : State n C D) : Bool := s.kill ≠ .notCalled

def goto (s : State n C D) (k : Nat) (p : Point n C D) : State n C D :=
  { s with point := Function.update s.point k p }

/-- `commitCond.Broadcast()`. -/
def wake (s : State n C D) : State n C D :=
  match s.apply with
  | .waiting => { s with apply := .woken }
  | _ => s

/-- The rest of the task `t` of goroutine `k`, which holds the lock. -/
def perform (room : Room n C D) (s : State n C D) (k : Nat) (t : Task n C D) : State n C D :=
  match s.rf.perform t with
  | none => { s with panicked := some .task }
  | some (rf, jobs, some msg) =>
      { s.goto k (.send msg) with
        rf := rf, spare := room t s.rf s.spare, jobs := s.jobs ++ jobs }
  | some (rf, jobs, none) =>
      { s.goto k (.unlock (t.isHeartbeat && rf.state = .leader)) with
        rf := rf, spare := room t s.rf s.spare, jobs := s.jobs ++ jobs }

end State

def stepGoroutine (room : Room n C D) (s : State n C D) (k : Nat) : Option (State n C D) :=
  match s.point k with
  -- it waits for a call, or for `electionDaemon`
  | .idle | .reset _ | .beat => none
  | .called t => some (s.goto k (if s.isShutdown && t.checksShutdown then .idle else .lock t))
  | .lock t =>
      if s.owner = none then
        some { s.goto k (if s.rf.resets t then .reset t else .body t) with
          owner := some (.goroutine k) }
      else none
  | .body t => some (s.perform room k t)
  -- it waits for the service, or finds the channel closed
  | .send _ =>
      if s.apply.isExited then some { s with panicked := some .sendOnClosedChannel } else none
  | .unlock beats => some { s.goto k (if beats then .beat else .idle) with owner := none }
  | .beaten =>
      if s.isShutdown then some (s.goto k .idle)
      else
        let others := (List.finRange n).filter (· ≠ s.rf.me)
        some { s.goto k (.lock .heartbeat) with jobs := s.jobs ++ others.map .consistencyCheck }

def stepReset (s : State n C D) (k : Nat) : Option (State n C D) :=
  if s.election = .select then
    match s.point k with
    | .reset t => some { s.goto k (.body t) with election := .stop }
    | .beat => some { s.goto k .beaten with election := .stop }
    | _ => none
  else none

/-- `electionDaemon` outside its `select`. -/
def stepElection (s : State n C D) : Option (State n C D) :=
  match s.election with
  | .select | .exited => none
  | .stop =>
      if s.timer = .running then some { s with timer := .stopped, election := .rearm }
      else some { s with election := .drain }
  | .drain =>
      if s.timer = .fired then some { s with timer := .stopped, election := .rearm } else none
  | .rearm => some { s with timer := .running, election := .select }

/-- `applyLogEntryDaemon`, but for its sends. -/
def stepApply (s : State n C D) : Option (State n C D) :=
  match s.apply with
  | .lock => if s.owner = none then some { s with owner := some .apply, apply := .check } else none
  | .check =>
      if s.rf.lastApplied = s.rf.commitIndex then some { s with owner := none, apply := .waiting }
      else
        match s.rf.applyLogEntries s.spare with
        | none => some { s with panicked := some .bounds }
        | some (rf, msgs) => some { s with rf := rf, owner := none, apply := .send msgs }
  | .woken => if s.owner = none then some { s with owner := some .apply, apply := .awake } else none
  | .awake =>
      if s.isShutdown then some { s with owner := none, apply := .closing }
      else some { s with apply := .check }
  | .send [] => some { s with apply := .lock }
  | .closing => some { s with apply := .exited }
  | .waiting | .send (_ :: _) | .exited => none

def stepReceive (s : State n C D) : Option (State n C D) :=
  match s.apply with
  | .send (_ :: msgs) => some { s with apply := .send msgs }
  | _ => none

def stepReceiveSnapshot (s : State n C D) (k : Nat) : Option (State n C D) :=
  match s.point k with
  | .send msg =>
      if s.apply.isExited then none
      else some { s.goto k (.unlock false) with rf := s.rf.finishInstall msg.snapshot }
  | _ => none

def stepKill (s : State n C D) : Option (State n C D) :=
  match s.kill with
  | .notCalled => some { s with kill := .closed }
  | .closed => some { s.wake with kill := .returned }
  | .returned => none

def stepEvent (room : Room n C D) (s : State n C D) : Event n C D → Option (State n C D)
  | .call k t =>
      match s.point k with
      | .idle => if t.isExternal then some (s.goto k (.called t)) else none
      | _ => none
  | .go k j =>
      match s.point k, j.task with
      | .idle, some t =>
          if j ∈ s.jobs then some { s.goto k (.lock t) with jobs := s.jobs.erase j } else none
      | _, _ => none
  | .move k => stepGoroutine room s k
  | .reset k => stepReset s k
  | .fire => if s.timer = .running then some { s with timer := .fired } else none
  | .timeout =>
      if s.election = .select ∧ s.timer = .fired then
        some { s with timer := .stopped, election := .rearm, jobs := s.jobs ++ [.canvassVotes] }
      else none
  | .shutdown =>
      if s.election = .select ∧ s.isShutdown then some { s with election := .exited } else none
  | .election => stepElection s
  | .broadcast =>
      if .broadcast ∈ s.jobs then some { s.wake with jobs := s.jobs.erase .broadcast } else none
  | .apply => stepApply s
  | .receive => stepReceive s
  | .receiveSnapshot k => stepReceiveSnapshot s k
  | .kill => stepKill s

/-- A panic ends the process. -/
def step (room : Room n C D) (s : State n C D) (e : Event n C D) : Option (State n C D) :=
  if s.panicked = none then stepEvent room s e else none

end Daemons

/-! ## What a task does to the indices -/

namespace Raft

variable {rf rf' : Raft n C D} {t : Task n C D} {jobs : List (Job n)} {msg : Option (ApplyMsg C D)}

theorem appendEntries_commitIndex {args : AppendEntriesArgs n C} {reply : AppendEntriesReply}
    (h : rf.appendEntries args = some (rf', reply)) (hne : rf'.commitIndex ≠ rf.commitIndex) :
    reply.success = true ∧ args.leaderCommit > rf.commitIndex := by
  rcases appendEntries_cases h with
    ⟨-, rfl, -⟩ | ⟨hle, -, rfl, -⟩ | ⟨hle, k, -, -, rfl, hsucc, -⟩ | ⟨hle, -, rfl, -⟩
  · exact absurd rfl hne
  · exact absurd (by rw [hearLeader_eq hle]) hne
  · refine ⟨hsucc, ?_⟩
    by_contra hge
    rw [hearLeader_eq hle] at hne
    exact hne (if_neg hge)
  · exact absurd (by rw [hearLeader_eq hle]; rfl) hne

theorem consistencyCheckReplyHandler_commitIndex {i : Fin n} {reply : AppendEntriesReply}
    {out : Option (InstallSnapshotArgs n D)}
    (h : rf.consistencyCheckReplyHandler i reply = some (rf', out))
    (hne : rf'.commitIndex ≠ rf.commitIndex) : rf.commitIndex < rf'.commitIndex := by
  rcases consistencyCheckReplyHandler_cases h with
    ⟨-, rfl, -⟩ | ⟨-, -, -, hup, -⟩ | ⟨-, -, -, rfl, -⟩ | ⟨-, -, -, ⟨next, rfl⟩, -⟩
  · exact absurd rfl hne
  · rcases updateCommitIndex_cases hup with rfl | ⟨target, -, hlt, -, -, rfl⟩
    · exact absurd rfl hne
    · exact hlt
  · exact absurd rfl hne
  · exact absurd rfl hne

/-- Only the replication of entries moves `commitIndex`. -/
theorem call_commitIndex {c : Procedure n C} (h : rf.call c = some rf')
    (hne : rf'.commitIndex ≠ rf.commitIndex) :
    (∃ args, c = .appendEntries args) ∨ ∃ i reply, c = .appendReply i reply := by
  cases c with
  | appendEntries args => exact .inl ⟨args, rfl⟩
  | appendReply i reply => exact .inr ⟨i, reply, rfl⟩
  | canvassVotes =>
      obtain ⟨⟨rf₁, args⟩, hfill, rfl⟩ := Option.map_eq_some_iff.mp h
      obtain ⟨rfl, -⟩ := fillRequestVoteArgs_eq_some hfill
      exact absurd rfl hne
  | requestVote args =>
      obtain ⟨⟨rf₁, reply⟩, hvote, rfl⟩ := Option.map_eq_some_iff.mp h
      have hadopt : (rf.adoptTerm args.term).commitIndex = rf.commitIndex := by
        unfold adoptTerm
        split <;> rfl
      rcases requestVote_cases hvote with ⟨-, rfl, -⟩ | ⟨-, -, -, rfl, -⟩ | ⟨-, rfl, -⟩
      · exact absurd rfl hne
      · exact absurd hadopt hne
      · exact absurd hadopt hne
  | voteReply voteArgs votes reply =>
      obtain rfl := Option.some.inj h
      rcases voteReplyHandler_cases rf voteArgs votes reply with
        h | ⟨-, -, h⟩ | ⟨-, -, -, -, h⟩ | ⟨-, -, h⟩
      · exact absurd (by rw [h]) hne
      · exact absurd (by rw [h]; rfl) hne
      · exact absurd (by rw [h]; rfl) hne
      · exact absurd (by rw [h]) hne
  | start command =>
      obtain rfl := Option.some.inj h
      refine absurd ?_ hne
      unfold start
      split <;> rfl
  | snapshotReply i reply =>
      obtain rfl := Option.some.inj h
      rcases snapshotReplyHandler_cases rf i reply with ⟨-, h⟩ | ⟨-, -, h⟩ | ⟨-, -, h⟩
      · exact absurd (by rw [h]) hne
      · exact absurd (by rw [h]; rfl) hne
      · exact absurd (by rw [h]; rfl) hne

/-- **A task that leaves entries to deliver starts a broadcast**, if there were none before. -/
theorem perform_due (h : rf.perform t = some (rf', jobs, msg))
    (hdue : rf'.lastApplied ≠ rf'.commitIndex) :
    rf.lastApplied ≠ rf.commitIndex ∨ .broadcast ∈ jobs := by
  -- a procedure leaves `lastApplied` alone
  have hcall : ∀ c, rf.call c = some rf' →
      rf.lastApplied ≠ rf.commitIndex ∨ rf'.commitIndex ≠ rf.commitIndex := by
    intro c hc
    by_cases hne : rf'.commitIndex = rf.commitIndex
    · left
      rwa [(call_keepsSnapshot hc).lastApplied, hne] at hdue
    · exact .inr hne
  -- and most leave `commitIndex` alone as well
  have hquiet : ∀ c, rf.call c = some rf' → (∀ args, c ≠ .appendEntries args) →
      (∀ i reply, c ≠ .appendReply i reply) → rf.lastApplied ≠ rf.commitIndex := by
    intro c hc happend hreply
    refine (hcall c hc).resolve_right fun hne => ?_
    rcases call_commitIndex hc hne with ⟨args, rfl⟩ | ⟨i, reply, rfl⟩
    · exact happend args rfl
    · exact hreply i reply rfl
  cases t with
  | call c =>
      cases c with
      | appendEntries args =>
          obtain ⟨⟨rf₁, reply⟩, happend, hout⟩ := Option.map_eq_some_iff.mp h
          cases hout
          refine (hcall (.appendEntries args) (by rw [call, happend]; rfl)).imp_right fun hne => ?_
          rw [if_pos (appendEntries_commitIndex happend hne)]
          exact List.mem_singleton_self _
      | appendReply i reply =>
          obtain ⟨⟨rf₁, out⟩, hreply, hout⟩ := Option.map_eq_some_iff.mp h
          cases hout
          refine (hcall (.appendReply i reply) (by rw [call, hreply]; rfl)).imp_right fun hne => ?_
          rw [if_pos (consistencyCheckReplyHandler_commitIndex hreply hne)]
          exact List.mem_singleton_self _
      | voteReply voteArgs votes reply =>
          cases h
          exact .inl (hquiet (.voteReply voteArgs votes reply) rfl nofun nofun)
      | canvassVotes =>
          obtain ⟨rf₁, hc, hout⟩ := Option.map_eq_some_iff.mp h
          cases hout
          exact .inl (hquiet _ hc nofun nofun)
      | requestVote args =>
          obtain ⟨rf₁, hc, hout⟩ := Option.map_eq_some_iff.mp h
          cases hout
          exact .inl (hquiet _ hc nofun nofun)
      | start command =>
          cases h
          exact .inl (hquiet (.start command) rfl nofun nofun)
      | snapshotReply i reply =>
          cases h
          exact .inl (hquiet (.snapshotReply i reply) rfl nofun nofun)
  | installSnapshot args =>
      obtain ⟨⟨rf₁, msg₁⟩, hbegin, hout⟩ := Option.map_eq_some_iff.mp h
      cases hout
      rw [beginInstall] at hbegin
      obtain ⟨⟨rf₂, reply, msg₂⟩, hinst, hout⟩ := Option.map_eq_some_iff.mp hbegin
      cases hout
      obtain ⟨-, ⟨-, rfl, -⟩ | ⟨-, -, ⟨k, rfl⟩, -⟩⟩ := installSnapshot_cases hinst
      · exact .inl hdue
      -- both indices are those of the snapshot now
      · exact absurd rfl hdue
  | newSnapShot snapshotdata index =>
      obtain ⟨rf₁, hnew, hout⟩ := Option.map_eq_some_iff.mp h
      cases hout
      rcases newSnapShot_cases hnew with ⟨-, rfl⟩ | ⟨-, -, e, rest, -, rfl⟩ <;> exact .inl hdue
  | consistencyCheck i =>
      obtain ⟨out, -, hout⟩ := Option.map_eq_some_iff.mp h
      cases hout
      exact .inl hdue
  | getState =>
      cases h
      exact .inl hdue
  | heartbeat =>
      cases h
      exact .inl hdue

theorem perform_broadcast (h : rf.perform t = some (rf', jobs, msg)) (hjob : .broadcast ∈ jobs) :
    t.replicates = true := by
  cases t with
  | call c =>
      cases c with
      | appendEntries args => rfl
      | appendReply i reply => rfl
      | voteReply voteArgs votes reply =>
          cases h
          split at hjob <;> simp at hjob
      | _ =>
          simp only [perform, Option.map_eq_some_iff, Prod.mk.injEq] at h
          obtain ⟨_, -, -, rfl, -⟩ := h
          cases hjob
  | getState | heartbeat =>
      cases h
      cases hjob
  | _ =>
      simp only [perform, Option.map_eq_some_iff, Prod.mk.injEq] at h
      obtain ⟨_, -, -, rfl, -⟩ := h
      cases hjob

/-- Only a snapshot is sent under the lock. -/
theorem perform_msg {m : ApplyMsg C D} (h : rf.perform t = some (rf', jobs, some m)) :
    t.isInstall = true := by
  cases t with
  | installSnapshot args => rfl
  | call c => cases c <;> simp [perform] at h
  | newSnapShot snapshotdata index => simp [perform] at h
  | consistencyCheck i => simp [perform] at h
  | getState => simp [perform] at h
  | heartbeat => simp [perform] at h

end Raft

namespace Daemons

/-! ## The steps one by one -/

/-- The step that event `e` makes in `s`, with what it needs. -/
inductive Stepped (room : Room n C D) (s : State n C D) : Event n C D → State n C D → Prop
  | call {k t} (hk : s.point k = .idle) : Stepped room s (.call k t) (s.goto k (.called t))
  | go {k j t} (hk : s.point k = .idle) (htask : j.task = some t) :
      Stepped room s (.go k j) { s.goto k (.lock t) with jobs := s.jobs.erase j }
  | turnedAway {k t} (hk : s.point k = .called t) : Stepped room s (.move k) (s.goto k .idle)
  | letIn {k t} (hk : s.point k = .called t)
      (hopen : s.isShutdown = false ∨ t.checksShutdown = false) :
      Stepped room s (.move k) (s.goto k (.lock t))
  | lock {k t p} (hk : s.point k = .lock t) (hfree : s.owner = none)
      (hp : p = .reset t ∨ p = .body t) :
      Stepped room s (.move k) { s.goto k p with owner := some (.goroutine k) }
  | bodyPanics {k t} (hk : s.point k = .body t) :
      Stepped room s (.move k) { s with panicked := some .task }
  | bodySends {k t rf jobs msg} (hk : s.point k = .body t)
      (hperform : s.rf.perform t = some (rf, jobs, some msg)) :
      Stepped room s (.move k) { s.goto k (.send msg) with
        rf := rf, spare := room t s.rf s.spare, jobs := s.jobs ++ jobs }
  | bodyEnds {k t rf jobs beats} (hk : s.point k = .body t)
      (hperform : s.rf.perform t = some (rf, jobs, none)) :
      Stepped room s (.move k) { s.goto k (.unlock beats) with
        rf := rf, spare := room t s.rf s.spare, jobs := s.jobs ++ jobs }
  | sendPanics {k msg} (hk : s.point k = .send msg) (hexit : s.apply.isExited = true) :
      Stepped room s (.move k) { s with panicked := some .sendOnClosedChannel }
  | unlock {k beats p} (hk : s.point k = .unlock beats) (hp : p = .beat ∨ p = .idle) :
      Stepped room s (.move k) { s.goto k p with owner := none }
  | beatsEnd {k} (hk : s.point k = .beaten) : Stepped room s (.move k) (s.goto k .idle)
  | beatsAgain {k jobs} (hk : s.point k = .beaten) (hjobs : .broadcast ∉ jobs) :
      Stepped room s (.move k) { s.goto k (.lock .heartbeat) with jobs := s.jobs ++ jobs }
  | reset {k t} (hk : s.point k = .reset t) (hselect : s.election = .select) :
      Stepped room s (.reset k) { s.goto k (.body t) with election := .stop }
  | beat {k} (hk : s.point k = .beat) (hselect : s.election = .select) :
      Stepped room s (.reset k) { s.goto k .beaten with election := .stop }
  | fire : Stepped room s .fire { s with timer := .fired }
  | timeout (hselect : s.election = .select) :
      Stepped room s .timeout
        { s with timer := .stopped, election := .rearm, jobs := s.jobs ++ [.canvassVotes] }
  | shutdown (hselect : s.election = .select) (hshut : s.isShutdown = true) :
      Stepped room s .shutdown { s with election := .exited }
  | stop (hstop : s.election = .stop) :
      Stepped room s .election { s with timer := .stopped, election := .rearm }
  | stopFails (hstop : s.election = .stop) (hrun : s.timer ≠ .running) :
      Stepped room s .election { s with election := .drain }
  | drain (hdrain : s.election = .drain) :
      Stepped room s .election { s with timer := .stopped, election := .rearm }
  | rearm (hrearm : s.election = .rearm) :
      Stepped room s .election { s with timer := .running, election := .select }
  | broadcast (hjob : .broadcast ∈ s.jobs) :
      Stepped room s .broadcast { s.wake with jobs := s.jobs.erase .broadcast }
  | applyLock (happly : s.apply = .lock) (hfree : s.owner = none) :
      Stepped room s .apply { s with owner := some .apply, apply := .check }
  | applyWait (happly : s.apply = .check) (hnone : s.rf.lastApplied = s.rf.commitIndex) :
      Stepped room s .apply { s with owner := none, apply := .waiting }
  | applyPanics (happly : s.apply = .check) (hdue : s.rf.lastApplied ≠ s.rf.commitIndex)
      (htake : s.rf.applyLogEntries s.spare = none) :
      Stepped room s .apply { s with panicked := some .bounds }
  | applyTake {rf msgs} (happly : s.apply = .check)
      (htake : s.rf.applyLogEntries s.spare = some (rf, msgs)) :
      Stepped room s .apply { s with rf := rf, owner := none, apply := .send msgs }
  | applyWoken (happly : s.apply = .woken) (hfree : s.owner = none) :
      Stepped room s .apply { s with owner := some .apply, apply := .awake }
  | applyShutdown (happly : s.apply = .awake) (hshut : s.isShutdown = true) :
      Stepped room s .apply { s with owner := none, apply := .closing }
  | applyAwake (happly : s.apply = .awake) : Stepped room s .apply { s with apply := .check }
  | applySent (happly : s.apply = .send []) : Stepped room s .apply { s with apply := .lock }
  | applyClose (happly : s.apply = .closing) : Stepped room s .apply { s with apply := .exited }
  | receive {msg msgs} (happly : s.apply = .send (msg :: msgs)) :
      Stepped room s .receive { s with apply := .send msgs }
  | receiveSnapshot {k msg} (hk : s.point k = .send msg) :
      Stepped room s (.receiveSnapshot k)
        { s.goto k (.unlock false) with rf := s.rf.finishInstall msg.snapshot }
  | close (hkill : s.kill = .notCalled) : Stepped room s .kill { s with kill := .closed }
  | killed (hkill : s.kill = .closed) : Stepped room s .kill { s.wake with kill := .returned }

variable {room : Room n C D} {s s' : State n C D} {k : Nat}

theorem step_eq_some {e : Event n C D} :
    step room s e = some s' ↔ s.panicked = none ∧ stepEvent room s e = some s' := by
  unfold step
  split <;> simp_all

theorem stepped_goroutine (hs : stepGoroutine room s k = some s') :
    Stepped room s (.move k) s' := by
  unfold stepGoroutine at hs
  split at hs
  case h_1 | h_2 | h_3 => cases hs
  case h_4 t hk =>
    cases hs
    split
    · exact .turnedAway hk
    · rename_i hopen
      exact .letIn hk (by simpa [← Bool.not_eq_true, imp_iff_not_or] using hopen)
  case h_5 t hk =>
    split at hs
    · rename_i hfree
      cases hs
      refine .lock hk hfree ?_
      split
      · exact .inl rfl
      · exact .inr rfl
    · cases hs
  case h_6 t hk =>
    cases hs
    unfold State.perform
    split
    · exact .bodyPanics hk
    · rename_i rf jobs msg hperform
      exact .bodySends hk hperform
    · rename_i rf jobs hperform
      exact .bodyEnds hk hperform
  case h_7 msg hk =>
    split_ifs at hs with hexit
    cases hs
    exact .sendPanics hk hexit
  case h_8 beats hk =>
    cases hs
    refine .unlock hk ?_
    split
    · exact .inl rfl
    · exact .inr rfl
  case h_9 hk =>
    split_ifs at hs
    · cases hs
      exact .beatsEnd hk
    · cases hs
      exact .beatsAgain hk (by simp)

theorem stepped_election (hs : stepElection s = some s') : Stepped room s .election s' := by
  unfold stepElection at hs
  split at hs
  case h_1 | h_2 => cases hs
  case h_3 hstop =>
    split_ifs at hs with hrun
    · cases hs
      exact .stop hstop
    · cases hs
      exact .stopFails hstop hrun
  case h_4 hdrain =>
    split_ifs at hs
    cases hs
    exact .drain hdrain
  case h_5 hrearm =>
    cases hs
    exact .rearm hrearm

theorem stepped_apply (hs : stepApply s = some s') : Stepped room s .apply s' := by
  unfold stepApply at hs
  split at hs
  case h_1 happly =>
    split_ifs at hs with hfree
    cases hs
    exact .applyLock happly hfree
  case h_2 happly =>
    split_ifs at hs with hnone
    · cases hs
      exact .applyWait happly hnone
    · split at hs
      · rename_i htake
        cases hs
        exact .applyPanics happly hnone htake
      · rename_i htake
        cases hs
        exact .applyTake happly htake
  case h_3 happly =>
    split_ifs at hs with hfree
    cases hs
    exact .applyWoken happly hfree
  case h_4 happly =>
    split_ifs at hs with hshut
    · cases hs
      exact .applyShutdown happly hshut
    · cases hs
      exact .applyAwake happly
  case h_5 happly =>
    cases hs
    exact .applySent happly
  case h_6 happly =>
    cases hs
    exact .applyClose happly
  case h_7 | h_8 | h_9 => cases hs

theorem stepped_of_step {e : Event n C D} (hs : step room s e = some s') :
    Stepped room s e s' := by
  obtain ⟨-, hs⟩ := step_eq_some.mp hs
  cases e with
  | call k t =>
      simp only [stepEvent] at hs
      split at hs
      · rename_i hk
        split_ifs at hs
        cases hs
        exact .call hk
      · cases hs
  | go k j =>
      simp only [stepEvent] at hs
      split at hs
      · rename_i t hk htask
        split_ifs at hs
        cases hs
        exact .go hk htask
      · cases hs
  | move k => exact stepped_goroutine hs
  | reset k =>
      simp only [stepEvent, stepReset] at hs
      split_ifs at hs with hselect
      split at hs
      · rename_i t hk
        cases hs
        exact .reset hk hselect
      · rename_i hk
        cases hs
        exact .beat hk hselect
      · cases hs
  | fire =>
      simp only [stepEvent] at hs
      split_ifs at hs
      cases hs
      exact .fire
  | timeout =>
      simp only [stepEvent] at hs
      split_ifs at hs with hselect
      cases hs
      exact .timeout hselect.1
  | shutdown =>
      simp only [stepEvent] at hs
      split_ifs at hs with hselect
      cases hs
      exact .shutdown hselect.1 hselect.2
  | election => exact stepped_election hs
  | broadcast =>
      simp only [stepEvent] at hs
      split_ifs at hs with hjob
      cases hs
      exact .broadcast hjob
  | apply => exact stepped_apply hs
  | receive =>
      simp only [stepEvent, stepReceive] at hs
      split at hs
      · rename_i happly
        cases hs
        exact .receive happly
      · cases hs
  | receiveSnapshot k =>
      simp only [stepEvent, stepReceiveSnapshot] at hs
      split at hs
      · rename_i hk
        split_ifs at hs
        cases hs
        exact .receiveSnapshot hk
      · cases hs
  | kill =>
      simp only [stepEvent, stepKill] at hs
      split at hs
      · rename_i hkill
        cases hs
        exact .close hkill
      · rename_i hkill
        cases hs
        exact .killed hkill
      · cases hs

end Daemons

end RaftLab
