import RaftLab.Raft.Goroutines

set_option autoImplicit false

/-! # The lock of a peer and its daemons

What holds in every state of every run of the goroutines of one peer (`Sound`): the owner of
`rf.mu` is the goroutine inside the lock, `electionDaemon` never blocks on its own timer, and
`applyLogEntryDaemon` does not wait on `commitCond` with entries to deliver, unless a broadcast is
on its way. From there:

* whoever holds `rf.mu` can release it, unless it sends on `resetTimer` and `electionDaemon` has
  gone; that needs a `Kill`, and then lasts for ever (`mutex_is_released_iff`);
* `applyLogEntryDaemon` never sleeps through a commit (`no_commit_is_missed`).
-/

namespace RaftLab.Daemons

variable {n : Nat} {C D : Type} {room : Room n C D} {s s' : State n C D} {k : Nat}

/-! ## Who holds the lock -/

/-- The owner of `rf.mu` is the goroutine that is at a point inside the lock. -/
structure Owned (owner : Option Owner) (a : ApplyPoint C D) (p : Nat → Point n C D) : Prop where
  apply : owner = some .apply ↔ a.holds = true
  goroutine : ∀ k, owner = some (.goroutine k) ↔ (p k).holds = true

section owned

variable {owner : Option Owner} {a a' : ApplyPoint C D} {p : Nat → Point n C D} {q : Point n C D}

theorem Owned.of_update {owner' : Option Owner} (happly : owner' = some .apply ↔ a.holds = true)
    (hself : owner' = some (.goroutine k) ↔ q.holds = true)
    (hother : ∀ j, j ≠ k → (owner' = some (.goroutine j) ↔ (p j).holds = true)) :
    Owned owner' a (Function.update p k q) :=
  ⟨happly, (Function.forall_update_iff p
    (p := fun j q => owner' = some (.goroutine j) ↔ q.holds = true)).mpr ⟨hself, hother⟩⟩

theorem Owned.goto (h : Owned owner a p) (hq : q.holds = (p k).holds) :
    Owned owner a (Function.update p k q) :=
  .of_update h.apply (by rw [hq]; exact h.goroutine k) fun j _ => h.goroutine j

theorem Owned.lock (h : Owned none a p) (hq : q.holds = true) :
    Owned (some (.goroutine k)) a (Function.update p k q) := by
  refine .of_update ?_ (by simp [hq]) fun j hj => ?_
  · simpa using h.apply
  · simpa [Ne.symm hj] using h.goroutine j

theorem Owned.unlock (h : Owned owner a p) (hk : (p k).holds = true) (hq : q.holds = false) :
    Owned none a (Function.update p k q) := by
  have howner := (h.goroutine k).mpr hk
  refine .of_update ?_ (by simp [hq]) fun j hj => ?_
  · simpa [howner] using h.apply
  · simpa [howner, Ne.symm hj] using h.goroutine j

theorem Owned.apply_move (h : Owned owner a p) (ha : a'.holds = a.holds) : Owned owner a' p :=
  ⟨by rw [ha]; exact h.apply, h.goroutine⟩

theorem Owned.apply_lock (h : Owned none a p) (ha : a'.holds = true) : Owned (some .apply) a' p :=
  ⟨by simp [ha], fun k => by simpa using h.goroutine k⟩

theorem Owned.apply_unlock (h : Owned owner a p) (ha : a.holds = true) (ha' : a'.holds = false) :
    Owned none a' p := by
  have howner := h.apply.mpr ha
  exact ⟨by simp [ha'], fun k => by simpa [howner] using h.goroutine k⟩

end owned

/-! ## What holds in every state -/

/-- `applyLogEntryDaemon` has seen that `shutdownCh` is closed. -/
def ApplyPoint.isClosing : ApplyPoint C D → Bool
  | .closing | .exited => true
  | _ => false

theorem isClosing_of_isExited {a : ApplyPoint C D} (h : a.isExited = true) :
    a.isClosing = true := by
  cases a <;> first | rfl | cases h

structure Sound (s : State n C D) : Prop where
  owned : Owned s.owner s.apply s.point
  /-- Outside the few lines that reset it, the timer runs or has a value to receive. -/
  armed : s.election = .select ∨ s.election = .stop → s.timer ≠ .stopped
  /-- `<-electionTimer.C` does not block. -/
  fired : s.election = .drain → s.timer = .fired
  gone : s.election = .exited → s.isShutdown = true
  closing : s.apply.isClosing = true → s.isShutdown = true
  /-- Entries to deliver and nobody awake: a broadcast is on its way. -/
  awaited : s.apply = .waiting → s.rf.lastApplied ≠ s.rf.commitIndex → .broadcast ∈ s.jobs

theorem sound_init {rf : Raft n C D} {spare : List (LogEntry C)} : Sound (init rf spare) where
  owned := ⟨by simp [init, ApplyPoint.holds], fun k => by simp [init, Point.holds]⟩
  armed _ := by simp [init]
  fired h := by simp [init] at h
  gone h := by simp [init] at h
  closing h := by simp [init, ApplyPoint.isClosing] at h
  awaited h := by simp [init] at h

theorem Sound.goto (h : Sound s) {p : Point n C D} (hp : p.holds = (s.point k).holds) :
    Sound (s.goto k p) :=
  { h with owned := h.owned.goto hp }

theorem Sound.jobs (h : Sound s) {jobs : List (Job n)}
    (hjobs : .broadcast ∈ s.jobs → .broadcast ∈ jobs) : Sound { s with jobs := jobs } :=
  { h with awaited := fun hw hdue => hjobs (h.awaited hw hdue) }

/-- The rest of a task: what it commits it announces. -/
theorem Sound.perform (h : Sound s) {t : Task n C D} {rf : Raft n C D} {jobs : List (Job n)}
    {msg : Option (ApplyMsg C D)} {p : Point n C D} {spare : List (LogEntry C)}
    (hp : p.holds = (s.point k).holds) (hperform : s.rf.perform t = some (rf, jobs, msg)) :
    Sound { s.goto k p with rf := rf, spare := spare, jobs := s.jobs ++ jobs } := by
  refine { h with owned := h.owned.goto hp, awaited := fun hw hdue => ?_ }
  rcases Raft.perform_due hperform hdue with hdue' | hjob
  · exact List.mem_append_left _ (h.awaited hw hdue')
  · exact List.mem_append_right _ hjob

/-- `electionDaemon` goes on to a point where nothing is asked of the timer. -/
theorem Sound.elect (h : Sound s) {election : ElectionPoint} {timer : Timer}
    (harmed : election = .select ∨ election = .stop → timer ≠ .stopped)
    (hdrain : election ≠ .drain) (hexited : election ≠ .exited) :
    Sound { s with election := election, timer := timer } :=
  { h with
    armed := harmed
    fired := fun hel => absurd hel hdrain
    gone := fun hel => absurd hel hexited }

/-- `applyLogEntryDaemon` goes on to a point where it does not wait. -/
theorem Sound.applies (h : Sound s) {owner : Option Owner} {apply : ApplyPoint C D}
    (howned : Owned owner apply s.point) (hclosing : apply.isClosing = true → s.isShutdown = true)
    (hwait : apply ≠ .waiting) : Sound { s with owner := owner, apply := apply } :=
  { h with
    owned := howned
    closing := hclosing
    awaited := fun hw => absurd hw hwait }

theorem wake_apply_ne (s : State n C D) : s.wake.apply ≠ .waiting := by
  unfold State.wake
  split
  · nofun
  · rename_i hne
    exact fun hw => hne hw

theorem Sound.wake (h : Sound s) : Sound s.wake := by
  unfold State.wake
  split
  · rename_i hw
    exact h.applies (h.owned.apply_move (by rw [hw]; rfl)) nofun nofun
  · exact h

theorem Sound.step {e : Event n C D} (h : Sound s) (hs : Daemons.step room s e = some s') :
    Sound s' := by
  cases stepped_of_step hs with
  | call hk => exact h.goto (by rw [hk]; rfl)
  | @go k j t hk htask =>
      refine (h.goto (by rw [hk]; rfl)).jobs fun hjob => ?_
      have hne : .broadcast ≠ j := by
        rintro rfl
        cases htask
      exact (List.mem_erase_of_ne hne).mpr hjob
  | turnedAway hk => exact h.goto (by rw [hk]; rfl)
  | letIn hk => exact h.goto (by rw [hk]; rfl)
  | lock hk hfree hp =>
      have howned := h.owned
      rw [hfree] at howned
      refine { h with owned := howned.lock ?_ }
      rcases hp with rfl | rfl <;> rfl
  | bodyPanics hk => exact { h with }
  | bodySends hk hperform => exact h.perform (by rw [hk]; rfl) hperform
  | bodyEnds hk hperform => exact h.perform (by rw [hk]; rfl) hperform
  | sendPanics hk => exact { h with }
  | unlock hk hp =>
      refine { h with owned := h.owned.unlock (by rw [hk]; rfl) ?_ }
      rcases hp with rfl | rfl <;> rfl
  | beatsEnd hk => exact h.goto (by rw [hk]; rfl)
  | beatsAgain hk => exact (h.goto (by rw [hk]; rfl)).jobs fun hjob => List.mem_append_left _ hjob
  | reset hk hselect =>
      exact (h.goto (by rw [hk]; rfl)).elect (fun _ => h.armed (.inl hselect)) nofun nofun
  | beat hk hselect =>
      exact (h.goto (by rw [hk]; rfl)).elect (fun _ => h.armed (.inl hselect)) nofun nofun
  | fire => exact { h with armed := fun _ => nofun, fired := fun _ => rfl }
  | timeout hselect => exact (h.jobs (List.mem_append_left _)).elect nofun nofun nofun
  | shutdown hselect hshut =>
      exact { h with armed := nofun, fired := nofun, gone := fun _ => hshut }
  | stop hstop => exact h.elect nofun nofun nofun
  | stopFails hstop hrun =>
      -- `Stop` has returned false, and the timer has not been stopped before
      refine { h with armed := nofun, fired := fun _ => ?_, gone := nofun }
      have harmed := h.armed (.inr hstop)
      cases htimer : s.timer with
      | running => exact absurd htimer hrun
      | fired => rfl
      | stopped => exact absurd htimer harmed
  | drain => exact h.elect nofun nofun nofun
  | rearm => exact h.elect (fun _ => nofun) nofun nofun
  | broadcast => exact { h.wake with awaited := fun hw => absurd hw (wake_apply_ne s) }
  | applyLock happly hfree =>
      have howned := h.owned
      rw [hfree] at howned
      exact h.applies (howned.apply_lock rfl) nofun nofun
  | applyWait happly hnone =>
      exact { h with
        owned := h.owned.apply_unlock (by rw [happly]; rfl) rfl
        closing := nofun
        awaited := fun _ hdue => absurd hnone hdue }
  | applyPanics => exact { h with }
  | applyTake happly =>
      exact { h with
        owned := h.owned.apply_unlock (by rw [happly]; rfl) rfl
        closing := nofun
        awaited := nofun }
  | applyWoken happly hfree =>
      have howned := h.owned
      rw [hfree] at howned
      exact h.applies (howned.apply_lock rfl) nofun nofun
  | applyShutdown happly hshut =>
      exact h.applies (h.owned.apply_unlock (by rw [happly]; rfl) rfl) (fun _ => hshut) nofun
  | applyAwake happly => exact h.applies (h.owned.apply_move (by rw [happly]; rfl)) nofun nofun
  | applySent happly => exact h.applies (h.owned.apply_move (by rw [happly]; rfl)) nofun nofun
  | applyClose happly =>
      exact h.applies (h.owned.apply_move (by rw [happly]; rfl))
        (fun _ => h.closing (by rw [happly]; rfl)) nofun
  | receive happly => exact h.applies (h.owned.apply_move (by rw [happly]; rfl)) nofun nofun
  | receiveSnapshot hk => exact { h with owned := h.owned.goto (by rw [hk]; rfl) }
  | close => exact { h with gone := fun _ => rfl, closing := fun _ => rfl }
  | killed => exact { h.wake with gone := fun _ => rfl, closing := fun _ => rfl }

theorem sound_run {rf : Raft n C D} {spare : List (LogEntry C)} {es : List (Event n C D)}
    (hr : Machine.run (Daemons.step room) (init rf spare) es = some s) : Sound s :=
  Machine.run_history_induction (J := fun _ x => Sound x) sound_init
    (fun _ _ _ _ _ h hs => h.step hs) hr

/-- The rest of a task panics, or leads to the send of its message or to the unlock. -/
theorem perform_cases (room : Room n C D) (s : State n C D) (k : Nat) (t : Task n C D) :
    (s.perform room k t = { s with panicked := some .task }) ∨
    ∃ rf jobs msg p, s.rf.perform t = some (rf, jobs, msg) ∧
      ((∃ m, msg = some m ∧ p = .send m) ∨ msg = none ∧ ∃ beats, p = .unlock beats) ∧
      s.perform room k t =
        { s.goto k p with rf := rf, spare := room t s.rf s.spare, jobs := s.jobs ++ jobs } := by
  rcases hperform : s.rf.perform t with _ | ⟨rf, jobs, _ | m⟩
  · left
    rw [State.perform, hperform]
  · refine .inr ⟨rf, jobs, none, .unlock (t.isHeartbeat && rf.state = .leader), rfl,
      .inr ⟨rfl, _, rfl⟩, ?_⟩
    rw [State.perform, hperform]
  · refine .inr ⟨rf, jobs, some m, .send m, rfl, .inl ⟨m, rfl, rfl⟩, ?_⟩
    rw [State.perform, hperform]

/-! ## Releasing the lock -/

/-- A run without calls from outside. -/
abbrev Goes (room : Room n C D) (s s' : State n C D) : Prop :=
  Machine.Leads (Daemons.step room) (fun _ e => e.isOwn = true) s s'

/-- The lock can be released, or the process panics before. -/
def Frees (room : Room n C D) (s : State n C D) : Prop :=
  ∃ s', Goes room s s' ∧ (s'.owner = none ∨ s'.panicked.isSome = true)

theorem goes_of_event {e : Event n C D} (hp : s.panicked = none) (hown : e.isOwn = true)
    (hs : stepEvent room s e = some s') : Goes room s s' :=
  .single hown (step_eq_some.mpr ⟨hp, hs⟩)

theorem Frees.of_goes (hgo : Goes room s s') (h : Frees room s') : Frees room s := by
  obtain ⟨t, hgo', hfree⟩ := h
  exact ⟨t, hgo.trans hgo', hfree⟩

theorem frees_of_panicked (h : s.panicked.isSome = true) : Frees room s := ⟨s, .refl _ _, .inr h⟩

theorem frees_unlock {beats : Bool} (hp : s.panicked = none) (hk : s.point k = .unlock beats) :
    Frees room s := by
  have hs : stepEvent room s (.move k) =
      some { s.goto k (if beats then .beat else .idle) with owner := none } := by
    rw [stepEvent, stepGoroutine, hk]
  exact ⟨_, goes_of_event hp rfl hs, .inl rfl⟩

theorem goto_point (s : State n C D) (k : Nat) (p : Point n C D) : (s.goto k p).point k = p :=
  Function.update_self ..

theorem frees_send {msg : ApplyMsg C D} (hp : s.panicked = none) (hk : s.point k = .send msg) :
    Frees room s := by
  by_cases hexit : s.apply.isExited = true
  · have hs : stepEvent room s (.move k) =
        some { s with panicked := some .sendOnClosedChannel } := by
      rw [stepEvent, stepGoroutine, hk]
      exact if_pos hexit
    exact .of_goes (goes_of_event hp rfl hs) (frees_of_panicked rfl)
  · have hs : stepEvent room s (.receiveSnapshot k) =
        some { s.goto k (.unlock false) with rf := s.rf.finishInstall msg.snapshot } := by
      rw [stepEvent, stepReceiveSnapshot, hk]
      exact if_neg hexit
    exact .of_goes (goes_of_event hp rfl hs) (frees_unlock hp (goto_point s k _))

theorem frees_body {t : Task n C D} (hp : s.panicked = none) (hk : s.point k = .body t) :
    Frees room s := by
  have hs : stepEvent room s (.move k) = some (s.perform room k t) := by
    rw [stepEvent, stepGoroutine, hk]
  refine .of_goes (goes_of_event hp rfl hs) ?_
  rcases perform_cases room s k t with heq |
    ⟨rf, jobs, msg, p, -, ⟨m, -, rfl⟩ | ⟨-, beats, rfl⟩, heq⟩
  · rw [heq]
    exact frees_of_panicked rfl
  · rw [heq]
    exact frees_send hp (goto_point s k _)
  · rw [heq]
    exact frees_unlock hp (goto_point s k _)

/-- `electionDaemon` comes back to its `select`, if it has not left. -/
theorem Sound.exists_select (h : Sound s) (hp : s.panicked = none) (hne : s.election ≠ .exited) :
    ∃ timer, Goes room s { s with election := .select, timer := timer } := by
  have hrearm : ∀ timer, Goes room { s with election := .rearm, timer := timer }
      { s with election := .select, timer := .running } :=
    fun timer => goes_of_event (e := .election) hp rfl rfl
  have hdrain : ∀ timer, timer = .fired → Goes room { s with election := .drain, timer := timer }
      { s with election := .select, timer := .running } := by
    rintro timer rfl
    refine Machine.Leads.trans ?_ (hrearm .stopped)
    exact goes_of_event (e := .election) hp rfl rfl
  cases hel : s.election with
  | select =>
      refine ⟨s.timer, ?_⟩
      rw [← hel]
      exact .refl _ s
  | stop =>
      refine ⟨.running, ?_⟩
      have hs : stepEvent room s .election =
          if s.timer = .running then some { s with timer := .stopped, election := .rearm }
          else some { s with election := .drain } := by
        rw [stepEvent, stepElection, hel]
      by_cases hrun : s.timer = .running
      · exact (goes_of_event hp rfl (hs.trans (if_pos hrun))).trans (hrearm .stopped)
      · have hstep := (goes_of_event hp rfl (hs.trans (if_neg hrun)))
        have hfired : s.timer = .fired := by
          have := h.armed (.inr hel)
          cases htimer : s.timer <;> simp_all
        exact hstep.trans (hdrain s.timer hfired)
  | drain =>
      refine ⟨.running, ?_⟩
      have := hdrain s.timer (h.fired hel)
      rwa [← hel] at this
  | rearm =>
      refine ⟨.running, ?_⟩
      have := hrearm s.timer
      rwa [← hel] at this
  | exited => exact absurd hel hne

theorem Sound.frees_reset {t : Task n C D} (h : Sound s) (hp : s.panicked = none)
    (hne : s.election ≠ .exited) (hk : s.point k = .reset t) : Frees room s := by
  obtain ⟨timer, hgo⟩ := h.exists_select hp hne
  refine .of_goes hgo ?_
  have hs : stepEvent room { s with election := .select, timer := timer } (.reset k) =
      some { s.goto k (.body t) with election := .stop, timer := timer } := by
    simp only [stepEvent, stepReset, hk]
    rfl
  exact .of_goes (goes_of_event hp rfl hs) (frees_body hp (goto_point s k _))

/-! `applyLogEntryDaemon` with the lock. -/

theorem goes_wait (hp : s.panicked = none) (hcheck : s.apply = .check)
    (hnone : s.rf.lastApplied = s.rf.commitIndex) :
    Goes room s { s with owner := none, apply := .waiting } := by
  refine goes_of_event (e := .apply) hp rfl ?_
  rw [stepEvent, stepApply, hcheck]
  exact if_pos hnone

/-- It takes the entries, or panics over them. -/
theorem exists_take (hp : s.panicked = none) (hcheck : s.apply = .check)
    (hdue : s.rf.lastApplied ≠ s.rf.commitIndex) :
    ∃ s', Goes room s s' ∧ (s'.panicked.isSome = true ∨
      s'.owner = none ∧ s'.rf.commitIndex ≤ s'.rf.lastApplied) := by
  rcases htake : s.rf.applyLogEntries s.spare with _ | ⟨rf, msgs⟩
  · have hs : stepEvent room s .apply = some { s with panicked := some .bounds } := by
      rw [stepEvent, stepApply, hcheck]
      simp only [if_neg hdue, htake]
    exact ⟨_, goes_of_event hp rfl hs, .inl rfl⟩
  · have hs : stepEvent room s .apply =
        some { s with rf := rf, owner := none, apply := .send msgs } := by
      rw [stepEvent, stepApply, hcheck]
      simp only [if_neg hdue, htake]
    refine ⟨_, goes_of_event hp rfl hs, .inr ⟨rfl, ?_⟩⟩
    rcases Raft.applyLogEntries_cases htake with ⟨hlt, rfl, -⟩ | ⟨-, rfl, -⟩
    · exact Int.le_of_lt hlt
    · exact Int.le_refl _

theorem goes_closing (hp : s.panicked = none) (hawake : s.apply = .awake)
    (hshut : s.isShutdown = true) : Goes room s { s with owner := none, apply := .closing } := by
  refine goes_of_event (e := .apply) hp rfl ?_
  rw [stepEvent, stepApply, hawake]
  exact if_pos hshut

theorem goes_check (hp : s.panicked = none) (hawake : s.apply = .awake)
    (hshut : ¬ s.isShutdown = true) : Goes room s { s with apply := .check } := by
  refine goes_of_event (e := .apply) hp rfl ?_
  rw [stepEvent, stepApply, hawake]
  exact if_neg hshut

theorem frees_check (hp : s.panicked = none) (hcheck : s.apply = .check) : Frees room s := by
  by_cases hnone : s.rf.lastApplied = s.rf.commitIndex
  · exact ⟨_, goes_wait hp hcheck hnone, .inl rfl⟩
  · obtain ⟨s', hgo, hpanic | ⟨hfree, -⟩⟩ := exists_take hp hcheck hnone
    · exact ⟨s', hgo, .inr hpanic⟩
    · exact ⟨s', hgo, .inl hfree⟩

theorem frees_awake (hp : s.panicked = none) (hawake : s.apply = .awake) : Frees room s := by
  by_cases hshut : s.isShutdown = true
  · exact ⟨_, goes_closing hp hawake hshut, .inl rfl⟩
  · exact .of_goes (goes_check hp hawake hshut) (frees_check hp rfl)

/-- A goroutine with the lock sends on `resetTimer` and `electionDaemon` has gone. -/
def Jammed (s : State n C D) : Prop := s.election = .exited ∧ ∃ k t, s.point k = .reset t

theorem Sound.frees (h : Sound s) (hp : s.panicked = none) (hj : ¬ Jammed s) : Frees room s := by
  cases howner : s.owner with
  | none => exact ⟨s, .refl _ _, .inl howner⟩
  | some o =>
      cases o with
      | apply =>
          have hholds := h.owned.apply.mp howner
          cases happly : s.apply with
          | check => exact frees_check hp happly
          | awake => exact frees_awake hp happly
          | _ =>
              rw [happly] at hholds
              cases hholds
      | goroutine k =>
          have hholds := (h.owned.goroutine k).mp howner
          cases hk : s.point k with
          | reset t => exact h.frees_reset hp (fun hex => hj ⟨hex, k, t, hk⟩) hk
          | body t => exact frees_body hp hk
          | send msg => exact frees_send hp hk
          | unlock beats => exact frees_unlock hp hk
          | _ =>
              rw [hk] at hholds
              cases hholds

/-! ## A jam lasts -/

theorem wake_fields (s : State n C D) :
    s.wake.election = s.election ∧ s.wake.point = s.point ∧ s.wake.panicked = s.panicked ∧
      s.wake.kill = s.kill := by
  unfold State.wake
  split <;> exact ⟨rfl, rfl, rfl, rfl⟩

/-- An array that ends with the log. -/
def noRoom : Room n C D := fun _ _ _ => []

/-- The daemon comes to have taken all committed entries, to its end, or the process panics. -/
def Serves (room : Room n C D) (s : State n C D) : Prop :=
  ∃ s', Goes room s s' ∧ (s'.rf.commitIndex ≤ s'.rf.lastApplied ∨ s'.apply.isExited = true ∨
    s'.panicked.isSome = true)

theorem Serves.of_goes (hgo : Goes room s s') (h : Serves room s') : Serves room s := by
  obtain ⟨t, hgo', hend⟩ := h
  exact ⟨t, hgo.trans hgo', hend⟩

section serves

variable (hp : s.panicked = none) (hfree : s.owner = none)
include hp

theorem serves_check (hcheck : s.apply = .check) : Serves room s := by
  by_cases hnone : s.rf.lastApplied = s.rf.commitIndex
  · exact ⟨s, .refl _ _, .inl (Int.le_of_eq hnone.symm)⟩
  · obtain ⟨s', hgo, hpanic | ⟨-, hle⟩⟩ := exists_take hp hcheck hnone
    · exact ⟨s', hgo, .inr (.inr hpanic)⟩
    · exact ⟨s', hgo, .inl hle⟩

theorem serves_closing (hclosing : s.apply = .closing) : Serves room s := by
  have hs : stepEvent room s .apply = some { s with apply := .exited } := by
    rw [stepEvent, stepApply, hclosing]
  exact ⟨_, goes_of_event hp rfl hs, .inr (.inl rfl)⟩

include hfree

theorem serves_lock (hlock : s.apply = .lock) : Serves room s := by
  have hs : stepEvent room s .apply = some { s with owner := some .apply, apply := .check } := by
    rw [stepEvent, stepApply, hlock]
    exact if_pos hfree
  exact .of_goes (goes_of_event hp rfl hs) (serves_check hp rfl)

theorem serves_woken (hwoken : s.apply = .woken) : Serves room s := by
  have hs : stepEvent room s .apply = some { s with owner := some .apply, apply := .awake } := by
    rw [stepEvent, stepApply, hwoken]
    exact if_pos hfree
  refine .of_goes (goes_of_event hp rfl hs) ?_
  by_cases hshut : s.isShutdown = true
  · exact .of_goes (goes_closing hp rfl hshut) (serves_closing hp rfl)
  · exact .of_goes (goes_check hp rfl hshut) (serves_check hp rfl)

theorem serves_waiting (hwait : s.apply = .waiting) (hjob : .broadcast ∈ s.jobs) :
    Serves room s := by
  have hs : stepEvent room s .broadcast =
      some { s with apply := .woken, jobs := s.jobs.erase .broadcast } := by
    rw [stepEvent, if_pos hjob, State.wake, hwait]
  exact .of_goes (goes_of_event hp rfl hs) (serves_woken hp hfree rfl)

theorem serves_send {msgs : List (ApplyMsg C D)} (hsend : s.apply = .send msgs) :
    Serves room s := by
  induction msgs generalizing s with
  | nil =>
      have hs : stepEvent room s .apply = some { s with apply := .lock } := by
        rw [stepEvent, stepApply, hsend]
      exact .of_goes (goes_of_event hp rfl hs) (serves_lock hp hfree rfl)
  | cons msg msgs ih =>
      have hs : stepEvent room s .receive = some { s with apply := .send msgs } := by
        rw [stepEvent, stepReceive, hsend]
      exact .of_goes (goes_of_event hp rfl hs) (ih hp hfree rfl)

end serves

theorem Sound.serves (h : Sound s) (hp : s.panicked = none) (hfree : s.owner = none) :
    Serves room s := by
  by_cases hdue : s.rf.lastApplied = s.rf.commitIndex
  · exact ⟨s, .refl _ _, .inl (Int.le_of_eq hdue.symm)⟩
  · cases happly : s.apply with
    | lock => exact serves_lock hp hfree happly
    | check => exact serves_check hp happly
    | waiting => exact serves_waiting hp hfree happly (h.awaited happly hdue)
    | woken => exact serves_woken hp hfree happly
    | awake =>
        have howner := h.owned.apply.mpr (by rw [happly]; rfl)
        rw [hfree] at howner
        cases howner
    | send msgs => exact serves_send hp hfree happly
    | closing => exact serves_closing hp happly
    | exited => exact ⟨s, .refl _ _, .inr (.inl (by rw [happly]; rfl))⟩

theorem Sound.goes (h : Sound s) (hgo : Goes room s s') : Sound s' :=
  hgo.induction (fun _ _ _ hx _ hs => hx.step hs) h

/-- The slice of `rf.Logs` that `applyLogEntryDaemon` would take is out of range: it begins before
the log, or it ends beyond the array of the log. -/
def OutOfRange (s : State n C D) : Prop :=
  s.rf.lastApplied < s.rf.commitIndex ∧ (s.rf.lastApplied + 1 < s.rf.snapshotIndex ∨
    s.rf.snapshotIndex + s.rf.logs.length + s.spare.length ≤ s.rf.commitIndex)

/-- The daemon panics over nothing else. -/
theorem outOfRange_step {e : Event n C D} (hs : Daemons.step room s e = some s')
    (hbounds : s'.panicked = some .bounds) : OutOfRange s' := by
  have hp : s.panicked ≠ some .bounds := by
    rw [(step_eq_some.mp hs).1]
    nofun
  obtain ⟨-, -, hwpan, -⟩ := wake_fields s
  cases stepped_of_step hs with
  | applyPanics happly hdue htake => exact Raft.applyLogEntries_eq_none hdue htake
  | bodyPanics | sendPanics => cases hbounds
  | broadcast | killed => exact absurd (hwpan.symm.trans hbounds) hp
  | _ => exact absurd hbounds hp

theorem outOfRange_run {rf : Raft n C D} {spare : List (LogEntry C)} {es : List (Event n C D)}
    (hr : Machine.run (Daemons.step room) (init rf spare) es = some s) :
    s.panicked = some .bounds → OutOfRange s :=
  Machine.run_history_induction (J := fun _ x => x.panicked = some .bounds → OutOfRange x)
    (fun h => by cases h) (fun _ _ _ _ _ _ hs => outOfRange_step hs) hr

/-- **No commit is missed.** In every state of every run: if `applyLogEntryDaemon` waits on
`commitCond` while there are entries to deliver, a broadcast is on its way. And unless the peer is
jammed, the daemon can go on, without further calls, until it has taken all that is committed, or
to its end after a `Kill`. What can come in between is a panic: of a task, or of the daemon itself
if it is about to take entries that the array of `rf.Logs` does not have. -/
theorem no_commit_is_missed {rf : Raft n C D} {spare : List (LogEntry C)}
    {es : List (Event n C D)}
    (hr : Machine.run (Daemons.step room) (init rf spare) es = some s) :
    (s.apply = .waiting → s.rf.lastApplied ≠ s.rf.commitIndex → .broadcast ∈ s.jobs) ∧
    (¬ Jammed s → ∃ s', Goes room s s' ∧ (s'.rf.commitIndex ≤ s'.rf.lastApplied ∨
      (s'.apply.isExited = true ∧ s'.isShutdown = true) ∨
      (s'.panicked.isSome = true ∧ (s'.panicked = some .bounds → OutOfRange s')))) := by
  have hsound := sound_run hr
  refine ⟨hsound.awaited, fun hj => ?_⟩
  have hserves : Serves room s := by
    by_cases hp : s.panicked = none
    · obtain ⟨s₁, hgo, hfree | hpanic⟩ := hsound.frees hp hj
      · by_cases hp₁ : s₁.panicked = none
        · exact .of_goes hgo ((hsound.goes hgo).serves hp₁ hfree)
        · exact ⟨s₁, hgo, .inr (.inr (Option.isSome_iff_ne_none.mpr hp₁))⟩
      · exact ⟨s₁, hgo, .inr (.inr hpanic)⟩
    · exact ⟨s, .refl _ _, .inr (.inr (Option.isSome_iff_ne_none.mpr hp))⟩
  obtain ⟨s', hgo, htaken | hexit | hpanic⟩ := hserves
  · exact ⟨s', hgo, .inl htaken⟩
  · have hshut := (hsound.goes hgo).closing (isClosing_of_isExited hexit)
    exact ⟨s', hgo, .inr (.inl ⟨hexit, hshut⟩)⟩
  · obtain ⟨fs, hown, hfs⟩ := hgo
    have hrun : Machine.run (Daemons.step room) (init rf spare) (es ++ fs) = some s' := by
      rw [Machine.run_append, hr]
      exact hfs
    exact ⟨s', ⟨fs, hown, hfs⟩, .inr (.inr ⟨hpanic, outOfRange_run hrun⟩)⟩

/-- The daemon waits when a leader brings an entry and says that it is committed. -/
def asleep : List (Event 3 Nat Unit) :=
  [.apply, .apply,
   .call 0 (.call (.appendEntries
    { term := 1, leaderID := 1, prevLogIndex := 0, prevLogTerm := 0,
      entries := [{ term := 1, command := some 7 }], leaderCommit := 1 })),
   .move 0, .move 0, .reset 0, .move 0, .move 0]

theorem no_commit_is_missed_asleep : ∃ s : State 3 Nat Unit,
    Machine.run (Daemons.step noRoom) (init (Raft.make 0 .makePersister) []) asleep = some s ∧
      s.rf.lastApplied < s.rf.commitIndex ∧ ∃ s', Goes noRoom s s' ∧
        (s'.rf.commitIndex ≤ s'.rf.lastApplied ∨
          (s'.apply.isExited = true ∧ s'.isShutdown = true) ∨
          (s'.panicked.isSome = true ∧ (s'.panicked = some .bounds → OutOfRange s'))) := by
  have hrun : (Machine.run (Daemons.step noRoom) (init (Raft.make 0 .makePersister) []) asleep).any
      (fun s => s.election = .stop ∧ s.rf.lastApplied < s.rf.commitIndex) = true := by decide
  obtain ⟨s, hs, hstate⟩ := (Option.any_eq_true _ _).mp hrun
  obtain ⟨hstop, hdue⟩ := of_decide_eq_true hstate
  refine ⟨s, hs, hdue, (no_commit_is_missed hs).2 fun hjam => ?_⟩
  rw [hjam.1] at hstop
  cases hstop

end RaftLab.Daemons
