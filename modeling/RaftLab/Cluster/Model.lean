import RaftLab.Lib.Run
import RaftLab.Raft.Snapshot

set_option autoImplicit false

/-! # A cluster of peers and the messages between them

The system `raft.go` runs in: `n` peers and the remote calls between them. Every handler
and every reply handler holds `rf.mu` from beginning to end and is one atomic step.

A remote call is a record that is never removed. It is `sent`, then `replied` once its
handler has run at the destination, then `done` once the caller has handled the reply. A
call can make its next move at any later time or never, in any order with the others: this
covers loss, delay and reordering of requests and replies. No message is forged, no handler
runs twice for one call and no reply is handled twice.

The fields `applied` and `wins` record the past: the messages sent on `applyCh`, and the
transitions to `Leader`. No handler reads them.
-/

namespace RaftLab

/-- How far a remote call has come. -/
inductive CallStatus (R : Type) where
  | sent
  | replied (reply : R)
  | done (reply : R)
  deriving DecidableEq, Repr

namespace CallStatus

variable {R : Type}

/-- The reply on its way to the caller. -/
def inFlight? : CallStatus R → Option R
  | replied r => some r
  | _ => none

/-- The reply the handler has produced, handled by the caller or not. -/
def answer? : CallStatus R → Option R
  | sent => none
  | replied r => some r
  | done r => some r

theorem inFlight?_eq_some {st : CallStatus R} {r : R} :
    st.inFlight? = some r ↔ st = replied r := by
  cases st <;> simp [inFlight?]

end CallStatus

/-- One call of `canvassVotes`: the variables its reply handler closes over. -/
structure Canvass (n : Nat) where
  me : Fin n
  epoch : Nat
  voteArgs : RequestVoteArgs n
  votes : Nat

/-- A `Raft.RequestVote` call of the election numbered `canvass`. -/
structure VoteCall (n : Nat) where
  canvass : Nat
  dst : Fin n
  args : RequestVoteArgs n
  status : CallStatus RequestVoteReply

/-- A remote call of peer `src` to peer `dst`. -/
structure Call (n : Nat) (A R : Type) where
  src : Fin n
  dst : Fin n
  epoch : Nat
  args : A
  status : CallStatus R

/-- The peers, the calls, and the messages each apply daemon has taken and not yet sent.
`epoch` counts the restarts of a peer; replies to an earlier instance are lost. -/
structure Cluster (n : Nat) (C D : Type) where
  peers : Fin n → Raft n C D
  epoch : Fin n → Nat
  canvasses : List (Canvass n)
  voteCalls : List (VoteCall n)
  appendCalls : List (Call n (AppendEntriesArgs n C) AppendEntriesReply)
  snapshotCalls : List (Call n (InstallSnapshotArgs n D) InstallSnapshotReply)
  pending : Fin n → List (ApplyMsg C D)
  applied : Fin n → List (ApplyMsg C D)
  wins : List (Fin n × Nat)

/-- What can happen next. -/
inductive Event (n : Nat) (C D : Type) where
  /-- The election timer of `p` fires. -/
  | canvassVotes (p : Fin n)
  /-- Vote call `k` reaches its destination. -/
  | requestVote (k : Nat)
  /-- The reply of vote call `k` reaches the candidate. -/
  | voteReply (k : Nat)
  | start (p : Fin n) (command : Option C)
  /-- The heartbeat daemon of `p` checks follower `i`. -/
  | consistencyCheck (p i : Fin n)
  | appendEntries (k : Nat)
  | appendReply (k : Nat)
  | installSnapshot (k : Nat)
  | snapshotReply (k : Nat)
  | newSnapShot (p : Fin n) (snapshotdata : Option D) (index : Int)
  /-- The apply daemon of `p` takes the newly committed entries; `spare` is what the array of
  its log has behind the log, which is any entries. -/
  | applyTake (p : Fin n) (spare : List (LogEntry C))
  /-- The apply daemon of `p` sends the next message on `applyCh`. -/
  | applySend (p : Fin n)
  /-- Peer `p` crashes and restarts from its persister. -/
  | crash (p : Fin n)

/-- Whether the event is a crash. -/
def Event.isCrash {n : Nat} {C D : Type} : Event n C D → Bool
  | .crash _ => true
  | _ => false

/-- Whether the event is a call of `NewSnapShot`. -/
def Event.isSnapshot {n : Nat} {C D : Type} : Event n C D → Bool
  | .newSnapShot .. => true
  | _ => false

namespace Cluster

variable {n : Nat} {C D : Type}

/-- Every peer freshly made, with an empty persister. -/
def init : Cluster n C D :=
  { peers := fun p => Raft.make p Persister.makePersister
    epoch := fun _ => 0
    canvasses := []
    voteCalls := []
    appendCalls := []
    snapshotCalls := []
    pending := fun _ => []
    applied := fun _ => []
    wins := [] }

def setPeer (s : Cluster n C D) (p : Fin n) (rf : Raft n C D) : Cluster n C D :=
  { s with peers := Function.update s.peers p rf }

section setPeer

variable (s : Cluster n C D) (p : Fin n) (rf : Raft n C D)

@[simp] theorem setPeer_peers : (s.setPeer p rf).peers = Function.update s.peers p rf := rfl
@[simp] theorem setPeer_epoch : (s.setPeer p rf).epoch = s.epoch := rfl
@[simp] theorem setPeer_canvasses : (s.setPeer p rf).canvasses = s.canvasses := rfl
@[simp] theorem setPeer_voteCalls : (s.setPeer p rf).voteCalls = s.voteCalls := rfl
@[simp] theorem setPeer_appendCalls : (s.setPeer p rf).appendCalls = s.appendCalls := rfl
@[simp] theorem setPeer_snapshotCalls : (s.setPeer p rf).snapshotCalls = s.snapshotCalls := rfl
@[simp] theorem setPeer_pending : (s.setPeer p rf).pending = s.pending := rfl
@[simp] theorem setPeer_applied : (s.setPeer p rf).applied = s.applied := rfl
@[simp] theorem setPeer_wins : (s.setPeer p rf).wins = s.wins := rfl

end setPeer

/-! ## Requests and replies on their way -/

/-- Vote call `k`, if its request has not reached its destination. -/
def voteRequestAt (s : Cluster n C D) (k : Nat) : Option (VoteCall n) := do
  let call ← s.voteCalls[k]?
  guard (call.status = .sent)
  pure call

/-- Vote call `k`, its election and its reply, if the reply is on its way to an instance of
the candidate that is still running. -/
def voteReplyAt (s : Cluster n C D) (k : Nat) :
    Option (VoteCall n × Canvass n × RequestVoteReply) := do
  let call ← s.voteCalls[k]?
  let reply ← call.status.inFlight?
  let cv ← s.canvasses[call.canvass]?
  guard (cv.epoch = s.epoch cv.me)
  pure (call, cv, reply)

/-- Call `k`, if its request has not reached its destination. -/
def requestAt {A R : Type} [DecidableEq R] (calls : List (Call n A R)) (k : Nat) :
    Option (Call n A R) := do
  let call ← calls[k]?
  guard (call.status = .sent)
  pure call

/-- Call `k` and its reply, if the reply is on its way to a running instance of the caller. -/
def replyAt {A R : Type} (s : Cluster n C D) (calls : List (Call n A R)) (k : Nat) :
    Option (Call n A R × R) := do
  let call ← calls[k]?
  let reply ← call.status.inFlight?
  guard (call.epoch = s.epoch call.src)
  pure (call, reply)

/-! ## The steps -/

/-- The vote calls of the election numbered `j` of peer `p`, one to every other peer. -/
def voteCallsOf (j : Nat) (p : Fin n) (args : RequestVoteArgs n) : List (VoteCall n) :=
  ((List.finRange n).filter (· ≠ p)).map
    (fun q => { canvass := j, dst := q, args := args, status := .sent })

def stepCanvassVotes (s : Cluster n C D) (p : Fin n) : Option (Cluster n C D) := do
  let (rf, voteArgs) ← (s.peers p).fillRequestVoteArgs
  pure { s.setPeer p rf with
    canvasses := s.canvasses ++
      [{ me := p, epoch := s.epoch p, voteArgs := voteArgs, votes := 1 }]
    voteCalls := s.voteCalls ++ voteCallsOf s.canvasses.length p voteArgs }

def stepRequestVote (s : Cluster n C D) (k : Nat) : Option (Cluster n C D) := do
  let call ← s.voteRequestAt k
  let (rf, reply) ← (s.peers call.dst).requestVote call.args
  pure { s.setPeer call.dst rf with
    voteCalls := s.voteCalls.set k { call with status := .replied reply } }

def stepVoteReply (s : Cluster n C D) (k : Nat) : Option (Cluster n C D) := do
  let (call, cv, reply) ← s.voteReplyAt k
  let rf := s.peers cv.me
  let out := rf.voteReplyHandler cv.voteArgs cv.votes reply
  pure { s.setPeer cv.me out.1 with
    canvasses := s.canvasses.set call.canvass { cv with votes := out.2 }
    voteCalls := s.voteCalls.set k { call with status := .done reply }
    wins := if rf.state ≠ .leader ∧ out.1.state = .leader
      then s.wins ++ [(cv.me, out.1.currentTerm)] else s.wins }

def stepStart (s : Cluster n C D) (p : Fin n) (command : Option C) : Option (Cluster n C D) :=
  some (s.setPeer p ((s.peers p).start command).1)

/-- The state with what `p` sends to `i` added to the calls. -/
def send (s : Cluster n C D) (p i : Fin n) : Option (Raft.Outgoing n C D) → Cluster n C D
  | none => s
  | some (.append args) =>
      { s with appendCalls := s.appendCalls ++
        [{ src := p, dst := i, epoch := s.epoch p, args := args, status := .sent }] }
  | some (.snapshot args) =>
      { s with snapshotCalls := s.snapshotCalls ++
        [{ src := p, dst := i, epoch := s.epoch p, args := args, status := .sent }] }

def stepConsistencyCheck (s : Cluster n C D) (p i : Fin n) : Option (Cluster n C D) := do
  guard (i ≠ p)
  let out ← (s.peers p).consistencyCheck i
  pure (s.send p i out)

def stepAppendEntries (s : Cluster n C D) (k : Nat) : Option (Cluster n C D) := do
  let call ← requestAt s.appendCalls k
  let (rf, reply) ← (s.peers call.dst).appendEntries call.args
  pure { s.setPeer call.dst rf with
    appendCalls := s.appendCalls.set k { call with status := .replied reply } }

def stepAppendReply (s : Cluster n C D) (k : Nat) : Option (Cluster n C D) := do
  let (call, reply) ← s.replyAt s.appendCalls k
  let (rf, out) ← (s.peers call.src).consistencyCheckReplyHandler call.dst reply
  pure ({ s.setPeer call.src rf with
    appendCalls := s.appendCalls.set k { call with status := .done reply } }.send
      call.src call.dst (out.map .snapshot))

def stepInstallSnapshot (s : Cluster n C D) (k : Nat) : Option (Cluster n C D) := do
  let call ← requestAt s.snapshotCalls k
  let (rf, reply, msg) ← (s.peers call.dst).installSnapshot call.args
  pure { s.setPeer call.dst rf with
    snapshotCalls := s.snapshotCalls.set k { call with status := .replied reply }
    applied := Function.update s.applied call.dst (s.applied call.dst ++ msg.toList) }

def stepSnapshotReply (s : Cluster n C D) (k : Nat) : Option (Cluster n C D) := do
  let (call, reply) ← s.replyAt s.snapshotCalls k
  pure { s.setPeer call.src ((s.peers call.src).snapshotReplyHandler call.dst reply) with
    snapshotCalls := s.snapshotCalls.set k { call with status := .done reply } }

def stepNewSnapShot (s : Cluster n C D) (p : Fin n) (snapshotdata : Option D) (index : Int) :
    Option (Cluster n C D) := do
  let rf ← (s.peers p).newSnapShot snapshotdata index
  pure (s.setPeer p rf)

def stepApplyTake (s : Cluster n C D) (p : Fin n) (spare : List (LogEntry C)) :
    Option (Cluster n C D) := do
  guard ((s.pending p).isEmpty)
  let (rf, msgs) ← (s.peers p).applyLogEntries spare
  pure { s.setPeer p rf with pending := Function.update s.pending p msgs }

def stepApplySend (s : Cluster n C D) (p : Fin n) : Option (Cluster n C D) :=
  match s.pending p with
  | [] => none
  | msg :: rest =>
      some { s with
        pending := Function.update s.pending p rest
        applied := Function.update s.applied p (s.applied p ++ [msg]) }

def stepCrash (s : Cluster n C D) (p : Fin n) : Option (Cluster n C D) :=
  some { s.setPeer p (Raft.make p (s.peers p).persister) with
    epoch := Function.update s.epoch p (s.epoch p + 1)
    pending := Function.update s.pending p [] }

/-- One step of the cluster; `none` when the event cannot happen, or the handler panics. -/
def step (s : Cluster n C D) : Event n C D → Option (Cluster n C D)
  | .canvassVotes p => s.stepCanvassVotes p
  | .requestVote k => s.stepRequestVote k
  | .voteReply k => s.stepVoteReply k
  | .start p command => s.stepStart p command
  | .consistencyCheck p i => s.stepConsistencyCheck p i
  | .appendEntries k => s.stepAppendEntries k
  | .appendReply k => s.stepAppendReply k
  | .installSnapshot k => s.stepInstallSnapshot k
  | .snapshotReply k => s.stepSnapshotReply k
  | .newSnapShot p snapshotdata index => s.stepNewSnapShot p snapshotdata index
  | .applyTake p spare => s.stepApplyTake p spare
  | .applySend p => s.stepApplySend p
  | .crash p => s.stepCrash p

/-- The cluster after the events `es`, from the freshly made one. -/
def runFrom (es : List (Event n C D)) : Option (Cluster n C D) :=
  Machine.run step init es

end Cluster

end RaftLab
