import RaftLab.Raft.Daemons

set_option autoImplicit false

/-! # Shutting a peer down

`Kill` closes `shutdownCh` and then wakes `applyLogEntryDaemon`, which closes `applyCh` on its way
out. Two things can go wrong, and only if somebody is at the wrong place at that moment:

* an `InstallSnapshot` that is past its look at `shutdownCh` may send on the closed `applyCh`, which
  panics; otherwise nobody does (`applyCh_open_for_senders`);
* a daemon that is about to wait when `Kill` broadcasts is not woken, and unless a reply to
  `AppendEntries` commits something it waits for ever, with `applyCh` open (`missed_kill_lasts`).
-/

namespace RaftLab.Daemons

variable {n : Nat} {C D : Type} {room : Room n C D} {s s' : State n C D} {k : Nat}

/-! ## The closed channel -/

/-- Once `shutdownCh` is closed no `InstallSnapshot` is past its look at it. -/
def Clear (s : State n C D) : Prop :=
  s.isShutdown = true → ∀ k, (s.point k).installs = false

theorem Clear.goto (h : Clear s) {p : Point n C D}
    (hp : s.isShutdown = true → (s.point k).installs = false → p.installs = false) :
    Clear (s.goto k p) := by
  intro hshut
  exact (Function.forall_update_iff s.point (p := fun _ q => q.installs = false)).mpr
    ⟨hp hshut (h hshut k), fun j _ => h hshut j⟩

theorem Clear.wake (h : Clear s) : Clear s.wake := by
  unfold State.wake
  split
  · exact h
  · exact h

/-- `Kill` comes at a moment when no `InstallSnapshot` is past its look at `shutdownCh`. -/
def KillsClear (s : State n C D) (e : Event n C D) : Prop :=
  e = .kill → s.kill = .notCalled → ∀ k, (s.point k).installs = false

theorem Clear.step {e : Event n C D} (h : Clear s) (hok : KillsClear s e)
    (hs : Daemons.step room s e = some s') : Clear s' := by
  cases stepped_of_step hs with
  | call | turnedAway | bodyEnds | beatsEnd | beatsAgain | beat | receiveSnapshot =>
      exact h.goto fun _ _ => rfl
  | @go _ j _ hk htask =>
      refine h.goto fun _ _ => ?_
      cases j <;> cases htask <;> rfl
  | @letIn _ t hk hopen =>
      refine h.goto fun hshut _ => ?_
      -- a closed `shutdownCh` turns an `InstallSnapshot` away
      rcases hopen with hno | hno
      · rw [hshut] at hno
        cases hno
      · cases t with
        | installSnapshot args => cases hno
        | _ => rfl
  | lock hk _ hp =>
      refine h.goto fun _ hnot => ?_
      rw [hk] at hnot
      rcases hp with rfl | rfl <;> exact hnot
  | bodySends hk hperform =>
      -- only `InstallSnapshot` has a message
      refine h.goto fun _ hnot => ?_
      rw [hk, Point.installs, Raft.perform_msg hperform] at hnot
      cases hnot
  | unlock hk hp =>
      refine h.goto fun _ _ => ?_
      rcases hp with rfl | rfl <;> rfl
  | reset hk =>
      refine h.goto fun _ hnot => ?_
      rwa [hk] at hnot
  | broadcast => exact h.wake
  | close hkill => exact fun _ => hok rfl hkill
  | killed hkill =>
      obtain ⟨-, hpoint, -, -⟩ := wake_fields s
      intro _ k
      show (s.wake.point k).installs = false
      rw [hpoint]
      exact h (by rw [State.isShutdown, hkill]; rfl) k
  | _ => exact h

theorem Clear.not_sendOnClosed {e : Event n C D} (h : Clear s) (hsound : Sound s)
    (hs : Daemons.step room s e = some s') : s'.panicked ≠ some .sendOnClosedChannel := by
  have hp : s.panicked ≠ some .sendOnClosedChannel := by
    rw [(step_eq_some.mp hs).1]
    nofun
  cases stepped_of_step hs with
  | @sendPanics k _ hk hexit =>
      -- `applyCh` is closed only after `shutdownCh`
      have hno := h (hsound.closing (isClosing_of_isExited hexit)) k
      rw [hk] at hno
      cases hno
  | bodyPanics | applyPanics => nofun
  | broadcast | killed => rwa [← (wake_fields s).2.2.1] at hp
  | _ => exact hp

/-- **Nobody sends on the closed `applyCh`**, in every run in which `Kill` closes `shutdownCh` at a
moment when no `InstallSnapshot` is past its look at that channel. -/
theorem applyCh_open_for_senders {rf : Raft n C D} {spare : List (LogEntry C)}
    {es : List (Event n C D)}
    (hok : Machine.Along (Daemons.step room) KillsClear (init rf spare) es)
    (hr : Machine.run (Daemons.step room) (init rf spare) es = some s) :
    s.panicked ≠ some .sendOnClosedChannel := by
  have hall : Sound s ∧ Clear s ∧ s.panicked ≠ some .sendOnClosedChannel := by
    refine Machine.run_induction (I := fun x => Sound x ∧ Clear x ∧
      x.panicked ≠ some .sendOnClosedChannel) ?_ ⟨sound_init, nofun, nofun⟩ hok hr
    rintro x e x' ⟨hx, hclear, -⟩ hokx hs
    exact ⟨hx.step hs, hclear.step hokx hs, hclear.not_sendOnClosed hx hs⟩
  exact hall.2.2

/-- A snapshot arrives after the peer has shut down. -/
def lateSnapshot : List (Event 3 Nat Unit) :=
  [.apply, .apply, .kill, .kill, .apply, .apply, .apply,
   .call 0 (.installSnapshot
    { term := 1, leaderID := 1, lastIncludedIndex := 2, lastIncludedTerm := 1,
      snapshot := some () }), .move 0]

theorem applyCh_open_for_senders_lateSnapshot : ∃ s : State 3 Nat Unit,
    Machine.run (Daemons.step noRoom) (init (Raft.make 0 .makePersister) []) lateSnapshot =
      some s ∧
      s.apply.isExited = true ∧ s.panicked ≠ some .sendOnClosedChannel := by
  have hrun : (Machine.run (Daemons.step noRoom) (init (Raft.make 0 .makePersister) [])
      lateSnapshot).any (fun s => s.apply.isExited) = true := by decide
  obtain ⟨s, hs, hexit⟩ := (Option.any_eq_true _ _).mp hrun
  have hok : Machine.Along (Daemons.step noRoom) KillsClear (init (Raft.make 0 .makePersister) [])
      lateSnapshot := by
    refine Machine.along_cons nofun rfl (Machine.along_cons nofun rfl ?_)
    -- nothing has been called yet
    refine Machine.along_cons (fun _ _ k => rfl) rfl (Machine.along_cons nofun rfl ?_)
    exact ⟨nofun, fun _ _ => ⟨nofun, fun _ _ => ⟨nofun, fun _ _ => ⟨nofun, fun _ _ =>
      ⟨nofun, fun _ _ => trivial⟩⟩⟩⟩⟩
  exact ⟨s, hs, hexit, applyCh_open_for_senders hok hs⟩

/-- The snapshot's request has passed its look at `shutdownCh` when the peer is killed. It takes the
lock after `applyLogEntryDaemon` has seen the closed channel, and before `electionDaemon` does. -/
def earlySnapshot : List (Event 3 Nat Unit) :=
  [.apply, .apply,
   .call 0 (.installSnapshot
    { term := 1, leaderID := 1, lastIncludedIndex := 2, lastIncludedTerm := 1,
      snapshot := some () }), .move 0,
   .kill, .kill, .apply, .apply, .move 0, .reset 0, .move 0, .apply, .move 0]

theorem earlySnapshot_sends_on_closed_channel :
    (Machine.run (Daemons.step noRoom) (init (Raft.make 0 .makePersister) []) earlySnapshot).any
      (fun s => s.panicked = some .sendOnClosedChannel) = true := by decide

/-! ## The missed broadcast -/

/-- In a task that can still start a broadcast after `shutdownCh` has been closed. -/
def Point.replicates : Point n C D → Bool
  | .called t => t.replicates && !t.checksShutdown
  | .lock t | .reset t | .body t => t.replicates
  | _ => false

/-- The event is the arrival of a reply to `AppendEntries`. -/
def Event.isAppendReply : Event n C D → Bool
  | .call _ (.call (.appendReply _ _)) => true
  | _ => false

/-- `Kill` is over, `applyLogEntryDaemon` waits on `commitCond`, and nobody is on the way to wake
it. -/
structure Missed (s : State n C D) : Prop where
  kill : s.kill = .returned
  waits : s.apply = .waiting
  jobs : .broadcast ∉ s.jobs
  point : ∀ k, (s.point k).replicates = false

/-- One goroutine moves, to a point from which it starts no broadcast. -/
theorem Missed.of_move (h : Missed s) {p : Point n C D} (hkill : s'.kill = s.kill)
    (happly : s'.apply = s.apply) (hpoint : s'.point = Function.update s.point k p)
    (hp : p.replicates = false)
    (hjobs : .broadcast ∈ s'.jobs → .broadcast ∈ s.jobs) : Missed s' where
  kill := hkill.trans h.kill
  waits := happly.trans h.waits
  jobs hjob := h.jobs (hjobs hjob)
  point := by
    rw [hpoint]
    exact (Function.forall_update_iff s.point (p := fun _ q => q.replicates = false)).mpr
      ⟨hp, fun j _ => h.point j⟩

theorem Missed.step {e : Event n C D} (h : Missed s) (hno : e.isAppendReply = false)
    (hs : Daemons.step room s e = some s') : Missed s' := by
  have hbody : ∀ {k t rf jobs msg}, s.point k = .body t →
      s.rf.perform t = some (rf, jobs, msg) → .broadcast ∉ jobs := by
    intro k t rf jobs msg hk hperform hjob
    have hnot := h.point k
    rw [hk, Point.replicates, Raft.perform_broadcast hperform hjob] at hnot
    cases hnot
  have hshut : s.isShutdown = true := by rw [State.isShutdown, h.kill]; rfl
  cases stepped_of_step hs with
  | @call k t hk =>
      refine h.of_move rfl rfl rfl ?_ id
      -- an `AppendEntries` will be turned away
      cases t with
      | call c =>
          cases c with
          | appendReply i reply => cases hno
          | _ => rfl
      | _ => rfl
  | @go k j t hk htask =>
      refine h.of_move rfl rfl rfl ?_ List.mem_of_mem_erase
      cases j <;> cases htask <;> rfl
  | turnedAway | beatsEnd | beat | receiveSnapshot => exact h.of_move rfl rfl rfl rfl id
  | @letIn k t hk hopen =>
      refine h.of_move rfl rfl rfl ?_ id
      have hnot := h.point k
      rcases hopen with hopen | hopen
      · rw [hshut] at hopen
        cases hopen
      · rwa [hk, Point.replicates, hopen, Bool.not_false, Bool.and_true] at hnot
  | @lock k t p hk _ hp =>
      have hnot := h.point k
      rw [hk] at hnot
      rcases hp with rfl | rfl <;> exact h.of_move rfl rfl rfl hnot id
  | bodySends hk hperform | bodyEnds hk hperform =>
      exact h.of_move rfl rfl rfl rfl fun hjob =>
        (List.mem_append.mp hjob).resolve_right (hbody hk hperform)
  | unlock hk hp => rcases hp with rfl | rfl <;> exact h.of_move rfl rfl rfl rfl id
  | beatsAgain hk hjobs =>
      exact h.of_move rfl rfl rfl rfl fun hjob => (List.mem_append.mp hjob).resolve_right hjobs
  | @reset k t hk =>
      have hnot := h.point k
      rw [hk] at hnot
      exact h.of_move rfl rfl rfl hnot id
  | timeout =>
      refine { h with jobs := fun hjob => h.jobs ?_ }
      exact (List.mem_append.mp hjob).resolve_right (by simp)
  | broadcast hjob => exact absurd hjob h.jobs
  | applyLock happly | applyWait happly | applyPanics happly | applyTake happly
  | applyWoken happly | applyShutdown happly | applyAwake happly | applySent happly
  | applyClose happly | receive happly =>
      rw [h.waits] at happly
      cases happly
  | close hkill | killed hkill =>
      rw [h.kill] at hkill
      cases hkill
  | _ => exact { h with }

/-- **A missed `Kill` is missed for ever.** If `Kill` is over while `applyLogEntryDaemon` waits and
nobody is on the way to wake it, then on every further run without a reply to `AppendEntries` it
goes on waiting: `applyCh` is never closed, and the service goes on reading it. -/
theorem missed_kill_lasts {es : List (Event n C D)} (h : Missed s)
    (hno : ∀ e ∈ es, e.isAppendReply = false)
    (hr : Machine.run (Daemons.step room) s es = some s') :
    s'.apply = .waiting :=
  (Machine.run_induction (fun _ _ _ hx hok hs => hx.step hok hs) h
    (Machine.along_of_forall hno) hr).waits

/-- `Kill` runs while `applyLogEntryDaemon` has found nothing to deliver and does not wait yet. -/
def missedKill : List (Event 3 Nat Unit) := [.apply, .kill, .kill, .apply, .shutdown]

theorem missed_kill_lasts_missedKill : ∃ s : State 3 Nat Unit,
    Machine.run (Daemons.step noRoom) (init (Raft.make 0 .makePersister) []) missedKill = some s ∧
      s.kill = .returned ∧ s.election = .exited ∧
      ∀ es s', (∀ e ∈ es, e.isAppendReply = false) →
        Machine.run (Daemons.step noRoom) s es = some s' → s'.apply = .waiting := by
  refine ⟨_, rfl, rfl, rfl, fun es s' hno hr => missed_kill_lasts ?_ hno hr⟩
  exact ⟨rfl, rfl, List.not_mem_nil, fun _ => rfl⟩

end RaftLab.Daemons
