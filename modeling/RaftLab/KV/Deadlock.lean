import RaftLab.Lib.Threads

set_option autoImplicit false

/-! # The threads of one server and what they wait for

The threads of a Raft peer and of the key-value server on top of it that share `rf.mu`, `kv.mu`
and the unbuffered `applyCh`: any number of `InstallSnapshot` calls, `applyLogEntryDaemon`,
`applyDaemon` and any number of `Get` and `PutAppend` calls. `next` gives for each point of their
code what can come next; what the code decides from its data (a stale request, a duplicate, a
snapshot that is due) is a choice between edges.

`InstallSnapshot` sends on `applyCh` while it holds `rf.mu`. The receiver may be on its way to
`rf.mu` itself, in `NewSnapShot`, or to `kv.mu` while a request holds that and wants `rf.mu` in
`Start`. These are the only deadlocks (`deadlocked_iff`).

Left out is what involves other threads: the send on `resetTimer`, which `electionDaemon` receives
without taking a mutex, the channel that a request waits on until its command is applied, and
shutting down.
-/

namespace RaftLab.Locks

open Threads (Event Free WaitsFor Deadlocked Consistent MaySend MayReceive)

inductive Mutex where
  | rf
  | kv
  deriving DecidableEq

/-- The messages on `applyCh`. -/
inductive Msg where
  | snapshot
  | command
  deriving DecidableEq

inductive Thread where
  | installSnapshot (i : Nat)
  | applyLogEntryDaemon
  | applyDaemon
  | handler (k : Nat)
  deriving DecidableEq

inductive Point where
  -- `InstallSnapshot`
  | noInstall | installLock | installLocked | installSend | installSent
  -- `applyLogEntryDaemon`
  | pushLock | pushLocked | pushWait | pushSend
  -- `applyDaemon`
  | receive | snapLock | snapLocked | cmdReceived | cmdLock | cmdLocked
  | newSnapShotLock | newSnapShotLocked | cmdNotify
  -- `Get` and `PutAppend`
  | noRequest | getStateLock | getStateLocked | kvLock | kvLocked | startLock | startLocked
  | started | awaiting | recheckLock | recheckLocked | readLock | readLocked
  deriving DecidableEq

inductive Kind where
  | install | push | apply | request
  deriving DecidableEq

def Thread.kind : Thread → Kind
  | .installSnapshot _ => .install
  | .applyLogEntryDaemon => .push
  | .applyDaemon => .apply
  | .handler _ => .request

namespace Point

def kind : Point → Kind
  | noInstall | installLock | installLocked | installSend | installSent => .install
  | pushLock | pushLocked | pushWait | pushSend => .push
  | receive | snapLock | snapLocked | cmdReceived | cmdLock | cmdLocked | newSnapShotLock
  | newSnapShotLocked | cmdNotify => .apply
  | noRequest | getStateLock | getStateLocked | kvLock | kvLocked | startLock | startLocked
  | started | awaiting | recheckLock | recheckLocked | readLock | readLocked => .request

/-- What a thread at the point can do next, and where it is then. -/
def next : Point → List (Action Mutex Msg × Point)
  | noInstall => [(.internal, installLock)]
  | installLock => [(.lock .rf, installLocked)]
  -- an old term or an old snapshot: return; otherwise the log is replaced
  | installLocked => [(.unlock .rf, noInstall), (.internal, installSend)]
  | installSend => [(.send .snapshot, installSent)]
  | installSent => [(.unlock .rf, noInstall)]
  | pushLock => [(.lock .rf, pushLocked)]
  -- wait on `commitCond`, send the entries that are due, or find that none are
  | pushLocked => [(.unlock .rf, pushWait), (.unlock .rf, pushSend), (.unlock .rf, pushLock)]
  | pushWait => [(.internal, pushLock)]
  -- there may be another entry to send
  | pushSend => [(.send .command, pushSend), (.send .command, pushLock)]
  | receive => [(.receive .snapshot, snapLock), (.receive .command, cmdReceived)]
  | snapLock => [(.lock .kv, snapLocked)]
  | snapLocked => [(.unlock .kv, receive)]
  -- no command, or one that a snapshot covers, is ignored
  | cmdReceived => [(.internal, receive), (.internal, cmdLock)]
  | cmdLock => [(.lock .kv, cmdLocked)]
  -- `needSnapshot`
  | cmdLocked => [(.internal, newSnapShotLock), (.unlock .kv, receive)]
  | newSnapShotLock => [(.lock .rf, newSnapShotLocked)]
  | newSnapShotLocked => [(.unlock .rf, cmdNotify)]
  | cmdNotify => [(.unlock .kv, receive)]
  | noRequest => [(.internal, getStateLock)]
  | getStateLock => [(.lock .rf, getStateLocked)]
  | getStateLocked => [(.unlock .rf, noRequest), (.unlock .rf, kvLock)]
  | kvLock => [(.lock .kv, kvLocked)]
  -- a duplicate is answered at once
  | kvLocked => [(.unlock .kv, noRequest), (.internal, startLock)]
  | startLock => [(.lock .rf, startLocked)]
  | startLocked => [(.unlock .rf, started)]
  | started => [(.unlock .kv, awaiting)]
  | awaiting => [(.internal, recheckLock)]
  | recheckLock => [(.lock .rf, recheckLocked)]
  -- `Get` goes on to read the value
  | recheckLocked => [(.unlock .rf, noRequest), (.unlock .rf, readLock)]
  | readLock => [(.lock .kv, readLocked)]
  | readLocked => [(.unlock .kv, noRequest)]

def holds : Point → Mutex → Bool
  | installLocked, .rf | installSend, .rf | installSent, .rf | pushLocked, .rf
  | newSnapShotLocked, .rf | getStateLocked, .rf | startLocked, .rf | recheckLocked, .rf => true
  | snapLocked, .kv | cmdLocked, .kv | newSnapShotLock, .kv | newSnapShotLocked, .kv
  | cmdNotify, .kv | kvLocked, .kv | startLock, .kv | startLocked, .kv | started, .kv
  | readLocked, .kv => true
  | _, _ => false

theorem kind_next (p : Point) : ∀ e ∈ p.next, e.2.kind = p.kind := by
  cases p <;> decide

theorem holds_next (p : Point) : ∀ e ∈ p.next,
    e.2.holds .rf = e.1.after p.holds .rf ∧ e.2.holds .kv = e.1.after p.holds .kv := by
  cases p <;> decide

theorem holds_unlock (p : Point) : ∀ e ∈ p.next,
    (e.1 = .unlock .rf → p.holds .rf = true) ∧ (e.1 = .unlock .kv → p.holds .kv = true) := by
  cases p <;> decide

theorem next_receive (p : Point) : ∀ e ∈ p.next,
    e.1 = .receive .snapshot ∨ e.1 = .receive .command → p = receive := by
  cases p <;> decide

end Point

def server : Program Thread Mutex Msg Point where
  start
    | .installSnapshot _ => .noInstall
    | .applyLogEntryDaemon => .pushLock
    | .applyDaemon => .receive
    | .handler _ => .noRequest
  next := Point.next
  region t p := p.kind = t.kind
  holds := Point.holds
  region_start t := by cases t <;> rfl
  region_next t p a q hp hnext := (p.kind_next (a, q) hnext).trans hp
  holds_start t m := by cases t <;> cases m <;> rfl
  holds_next p a q hnext := by
    funext m
    cases m with
    | rf => exact (p.holds_next (a, q) hnext).1
    | kv => exact (p.holds_next (a, q) hnext).2
  holds_unlock p m q hnext := by
    cases m with
    | rf => exact (p.holds_unlock (.unlock .rf, q) hnext).1 rfl
    | kv => exact (p.holds_unlock (.unlock .kv, q) hnext).2 rfl

abbrev State := Threads.State Thread Mutex Point

def init : State := Threads.init server

def step (s : State) (event : Event Thread Mutex Msg Point) : Option State :=
  Threads.step server s event

/-! ## Who can move -/

/-- The thread needs nobody to go on. -/
def Point.runs (p : Point) : Bool :=
  p.next.any fun e => match e.1 with
    | .internal | .unlock _ => true
    | .lock _ | .send _ | .receive _ => false

theorem free_of_runs {s : State} {t : Thread} (h : (s.point t).runs = true) :
    Free server s t := by
  obtain ⟨⟨a, q⟩, hnext, ha⟩ := List.any_eq_true.mp h
  cases a with
  | internal => exact Threads.free_of_internal hnext
  | unlock m => exact Threads.free_of_unlock hnext
  | lock m => cases ha
  | send c => cases ha
  | receive c => cases ha

/-- Of the threads that hold `rf.mu`, only one that sends a snapshot may have to wait. -/
theorem Point.holds_rf {p : Point} (h : p.holds .rf = true) :
    p = .installSend ∨ p.runs = true := by
  cases p <;> first | exact .inr rfl | exact .inl rfl | cases h

/-- Of the threads that hold `kv.mu`, only those that want `rf.mu` too may have to wait. -/
theorem Point.holds_kv {p : Point} (h : p.holds .kv = true) :
    p = .newSnapShotLock ∨ p = .startLock ∨ p.runs = true := by
  cases p <;> first | exact .inr (.inr rfl) | exact .inl rfl | exact .inr (.inl rfl) | cases h

/-- What a thread that has to wait waits for. -/
theorem Point.cases (p : Point) :
    p.runs = true ∨ (∃ q, p.next = [(.lock .rf, q)]) ∨ (∃ q, p.next = [(.lock .kv, q)]) ∨
      p = .installSend ∨ p = .pushSend ∨ p = .receive := by
  cases p <;> first
    | exact .inl rfl
    | exact .inr (.inl ⟨_, rfl⟩)
    | exact .inr (.inr (.inl ⟨_, rfl⟩))
    | exact .inr (.inr (.inr (by decide)))

theorem Point.eq_receive {p q : Point} {c : Msg} (h : (.receive c, q) ∈ p.next) :
    p = .receive := by
  cases c with
  | snapshot => exact p.next_receive _ h (.inl rfl)
  | command => exact p.next_receive _ h (.inr rfl)

theorem Thread.eq_applyDaemon {t : Thread} (h : t.kind = .apply) : t = .applyDaemon := by
  cases t <;> first | rfl | cases h

/-! ## The deadlocks -/

/-- The thread that holds the mutex is at the point. -/
def HolderAt (s : State) (m : Mutex) (p : Point) : Prop := (s.owner m).map s.point = some p

instance (s : State) (m : Mutex) (p : Point) : Decidable (HolderAt s m p) :=
  inferInstanceAs (Decidable (_ = _))

/-- `InstallSnapshot` holds `rf.mu` and sends on `applyCh`. -/
def Pinned (s : State) : Prop := HolderAt s .rf .installSend

/-- A request holds `kv.mu` and wants `rf.mu`, in `Start`. -/
def Starting (s : State) : Prop := HolderAt s .kv .startLock

/-- `applyDaemon` wants `kv.mu`. -/
def WantsKv (s : State) : Prop :=
  s.point .applyDaemon = .snapLock ∨ s.point .applyDaemon = .cmdLock

/-- `applyDaemon` does not receive before somebody gets `rf.mu`: itself in `NewSnapShot`, or the
request that holds `kv.mu`. -/
def NeedsRf (s : State) : Prop :=
  s.point .applyDaemon = .newSnapShotLock ∨ WantsKv s ∧ Starting s

instance (s : State) : Decidable (Pinned s) := inferInstanceAs (Decidable (HolderAt _ _ _))

instance (s : State) : Decidable (Starting s) := inferInstanceAs (Decidable (HolderAt _ _ _))

instance (s : State) : Decidable (WantsKv s) := inferInstanceAs (Decidable (_ ∨ _))

instance (s : State) : Decidable (NeedsRf s) := inferInstanceAs (Decidable (_ ∨ _ ∧ _))

section Deadlock

variable {s : State} {D : Set Thread}

theorem mayReceive_iff {t : Thread} : MayReceive server t ↔ t = .applyDaemon := by
  constructor
  · rintro ⟨p, c, q, hp, hnext⟩
    obtain rfl := Point.eq_receive hnext
    exact Thread.eq_applyDaemon hp.symm
  · rintro rfl
    exact ⟨.receive, .command, .cmdReceived, rfl, by decide⟩

/-- Who waits for `rf.mu` in a deadlock waits for a thread that sends a snapshot. -/
theorem pinned_of_waits (hc : Consistent server s) (h : Deadlocked server s D) {t : Thread}
    (ht : t ∈ D) {q : Point} (hnext : (.lock .rf, q) ∈ (s.point t).next) :
    ∃ u ∈ D, s.owner .rf = some u ∧ s.point u = .installSend := by
  obtain ⟨u, hu⟩ := Threads.exists_owner_of_not_free (h.blocked t ht) hnext
  have huD := h.closed t ht u (.lock hnext hu)
  rcases Point.holds_rf ((hc.owner u .rf).mp hu) with hsend | hruns
  · exact ⟨u, huD, hu, hsend⟩
  · exact absurd (free_of_runs hruns) (h.blocked u huD)

/-- Who waits for `kv.mu` in a deadlock waits for a thread that wants `rf.mu`. -/
theorem holder_of_waits (hc : Consistent server s) (h : Deadlocked server s D) {t : Thread}
    (ht : t ∈ D) {q : Point} (hnext : (.lock .kv, q) ∈ (s.point t).next) :
    ∃ u ∈ D, s.owner .kv = some u ∧
      (s.point u = .newSnapShotLock ∨ s.point u = .startLock) := by
  obtain ⟨u, hu⟩ := Threads.exists_owner_of_not_free (h.blocked t ht) hnext
  have huD := h.closed t ht u (.lock hnext hu)
  rcases Point.holds_kv ((hc.owner u .kv).mp hu) with hnew | hstart | hruns
  · exact ⟨u, huD, hu, .inl hnew⟩
  · exact ⟨u, huD, hu, .inr hstart⟩
  · exact absurd (free_of_runs hruns) (h.blocked u huD)

theorem applyDaemon_mem_of_send (h : Deadlocked server s D) {t : Thread} (ht : t ∈ D) {c : Msg}
    {q : Point} (hnext : (.send c, q) ∈ (s.point t).next) : .applyDaemon ∈ D :=
  h.closed t ht .applyDaemon (.send hnext (mayReceive_iff.mpr rfl))

theorem applyDaemon_mem_of_rf (hc : Consistent server s) (h : Deadlocked server s D) {t : Thread}
    (ht : t ∈ D) {q : Point} (hnext : (.lock .rf, q) ∈ (s.point t).next) : .applyDaemon ∈ D := by
  obtain ⟨u, huD, -, hsend⟩ := pinned_of_waits hc h ht hnext
  exact applyDaemon_mem_of_send h huD (c := .snapshot) (q := .installSent) (by rw [hsend]; decide)

/-- Every deadlock has the receiver of `applyCh` in it. -/
theorem applyDaemon_mem (hc : Consistent server s) (h : Deadlocked server s D) :
    .applyDaemon ∈ D := by
  obtain ⟨t, ht⟩ := h.nonempty
  rcases (s.point t).cases with hruns | ⟨q, hnext⟩ | ⟨q, hnext⟩ | hsend | hsend | hrecv
  · exact absurd (free_of_runs hruns) (h.blocked t ht)
  · exact applyDaemon_mem_of_rf hc h ht (q := q) (by simp [hnext])
  · obtain ⟨u, huD, -, hu | hu⟩ := holder_of_waits hc h ht (q := q) (by simp [hnext])
    · exact applyDaemon_mem_of_rf hc h huD (q := .newSnapShotLocked) (by rw [hu]; decide)
    · exact applyDaemon_mem_of_rf hc h huD (q := .startLocked) (by rw [hu]; decide)
  · exact applyDaemon_mem_of_send h ht (c := .snapshot) (q := .installSent) (by rw [hsend]; decide)
  · exact applyDaemon_mem_of_send h ht (c := .command) (q := .pushLock) (by rw [hsend]; decide)
  · have hkind := hc.region t
    rw [hrecv] at hkind
    rwa [← Thread.eq_applyDaemon hkind.symm]

/-- In a deadlock `applyDaemon` does not receive: `applyLogEntryDaemon` would be in it too, and
could send or waits for a thread that could. -/
theorem not_receiving (hc : Consistent server s) (h : Deadlocked server s D) :
    s.point .applyDaemon ≠ .receive := by
  intro hrecv
  have hD := applyDaemon_mem hc h
  have hpush : .applyLogEntryDaemon ∈ D := h.closed _ hD _
    (.receive (c := .command) (q := .cmdReceived) (show _ ∈ Point.next _ by rw [hrecv]; decide)
      ⟨.pushSend, .command, .pushLock, rfl, by decide⟩)
  have hkind : (s.point .applyLogEntryDaemon).kind = .push := hc.region .applyLogEntryDaemon
  -- a sender in the set would meet the daemon that waits for it
  have hmeets : ∀ u ∈ D, ∀ c p q, u ≠ .applyDaemon → (.send c, p) ∈ (s.point u).next →
      (.receive c, q) ∈ Point.next .receive → False := by
    intro u hu c p q hne hsend hr
    have hfree : Free server s u ∧ Free server s .applyDaemon :=
      Threads.free_of_meet (q := q) hne hsend (show _ ∈ Point.next _ by rw [hrecv]; exact hr)
    exact h.blocked u hu hfree.1
  cases hpt : s.point .applyLogEntryDaemon with
  | pushSend =>
      exact hmeets _ hpush .command .pushLock .cmdReceived (by decide) (by rw [hpt]; decide)
        (by decide)
  | pushLock =>
      obtain ⟨u, huD, -, hsend⟩ :=
        pinned_of_waits hc h hpush (q := .pushLocked) (by rw [hpt]; decide)
      refine hmeets u huD .snapshot .installSent .snapLock ?_ (by rw [hsend]; decide) (by decide)
      rintro rfl
      rw [hrecv] at hsend
      cases hsend
  | pushLocked | pushWait =>
      exact h.blocked _ hpush (free_of_runs (by rw [hpt]; rfl))
  | _ => simp [hpt, Point.kind] at hkind

theorem holderAt_iff {m : Mutex} {p : Point} :
    HolderAt s m p ↔ ∃ t, s.owner m = some t ∧ s.point t = p :=
  Option.map_eq_some_iff

theorem pinned_of_rf (hc : Consistent server s) (h : Deadlocked server s D) {t : Thread}
    (ht : t ∈ D) {q : Point} (hnext : (.lock .rf, q) ∈ (s.point t).next) : Pinned s := by
  obtain ⟨u, -, hu, hsend⟩ := pinned_of_waits hc h ht hnext
  exact holderAt_iff.mpr ⟨u, hu, hsend⟩

/-- `applyDaemon` waits for `kv.mu` in a deadlock: a request that starts its command has it. -/
theorem starting_of_kv (hc : Consistent server s) (h : Deadlocked server s D)
    (hwants : WantsKv s) : Pinned s ∧ Starting s := by
  have hD := applyDaemon_mem hc h
  obtain ⟨q, hnext⟩ : ∃ q, (.lock .kv, q) ∈ (s.point .applyDaemon).next := by
    rcases hwants with hpt | hpt
    · exact ⟨.snapLocked, by rw [hpt]; decide⟩
    · exact ⟨.cmdLocked, by rw [hpt]; decide⟩
  obtain ⟨u, huD, hu, hnew | hstart⟩ := holder_of_waits hc h hD hnext
  · have hkind := hc.region u
    rw [hnew] at hkind
    obtain rfl := Thread.eq_applyDaemon hkind.symm
    rcases hwants with hpt | hpt <;> simp [hpt] at hnew
  · refine ⟨pinned_of_rf hc h huD (q := .startLocked) (by rw [hstart]; decide), ?_⟩
    exact holderAt_iff.mpr ⟨u, hu, hstart⟩

theorem pinned_needsRf_of_deadlocked (hc : Consistent server s) (h : Deadlocked server s D) :
    Pinned s ∧ NeedsRf s := by
  have hD := applyDaemon_mem hc h
  have hkind : (s.point .applyDaemon).kind = .apply := hc.region .applyDaemon
  cases hpt : s.point .applyDaemon with
  | receive => exact absurd hpt (not_receiving hc h)
  | newSnapShotLock =>
      exact ⟨pinned_of_rf hc h hD (q := .newSnapShotLocked) (by rw [hpt]; decide), .inl hpt⟩
  | snapLock =>
      have hboth := starting_of_kv hc h (.inl hpt)
      exact ⟨hboth.1, .inr ⟨.inl hpt, hboth.2⟩⟩
  | cmdLock =>
      have hboth := starting_of_kv hc h (.inr hpt)
      exact ⟨hboth.1, .inr ⟨.inr hpt, hboth.2⟩⟩
  | snapLocked | cmdReceived | cmdLocked | newSnapShotLocked | cmdNotify =>
      exact absurd (free_of_runs (by rw [hpt]; rfl)) (h.blocked _ hD)
  | _ => simp [hpt, Point.kind] at hkind

/-- The threads of the deadlock: the one that sends the snapshot, its receiver, and the request that
starts its command while it holds `kv.mu`, if there is one. -/
def cycle (s : State) : Set Thread :=
  {t | t = .applyDaemon ∨ s.owner .rf = some t ∨ s.owner .kv = some t ∧ s.point t = .startLock}

theorem NeedsRf.ne_receive (h : NeedsRf s) : s.point .applyDaemon ≠ .receive := by
  rcases h with h | ⟨h | h, -⟩ <;> simp [h]

/-- A snapshot is sent and nobody receives. -/
theorem send_waits {t : Thread} (ht : s.point t = .installSend)
    (hrecv : s.point .applyDaemon ≠ .receive) (hc : Consistent server s) :
    ¬ Free server s t ∧ WaitsFor server s t .applyDaemon ∧
      ∀ u, WaitsFor server s t u → u = .applyDaemon := by
  have hnext : server.next (s.point t) = [(.send .snapshot, .installSent)] := by rw [ht]; rfl
  refine ⟨fun hfree => ?_, .send (c := .snapshot) (q := .installSent) (by rw [hnext]; simp)
    (mayReceive_iff.mpr rfl), fun u hw => ?_⟩
  · rcases hfree.cases with ⟨q, h⟩ | ⟨m, q, h⟩ | ⟨m, q, h, -⟩ | ⟨u, c, p, q, -, -, h⟩ |
      ⟨u, c, p, q, -, -, h⟩
    · simp [hnext] at h
    · simp [hnext] at h
    · simp [hnext] at h
    · have hu := Point.eq_receive h
      have hkind := hc.region u
      rw [hu] at hkind
      exact hrecv (Thread.eq_applyDaemon hkind.symm ▸ hu)
    · simp [hnext] at h
  · cases hw with
    | lock h => simp [hnext] at h
    | send h hu => exact mayReceive_iff.mp hu
    | receive h => simp [hnext] at h

/-- Each thread of the cycle waits for one that is in it too. -/
theorem cycle_waits (hc : Consistent server s) (hpin : Pinned s) (hneeds : NeedsRf s)
    {t : Thread} (ht : t ∈ cycle s) :
    ∃ u ∈ cycle s, ¬ Free server s t ∧ WaitsFor server s t u ∧
      ∀ v, WaitsFor server s t v → v = u := by
  obtain ⟨w, hw, hsend⟩ := holderAt_iff.mp hpin
  have hwD : w ∈ cycle s := .inr (.inl hw)
  have hrf : ∀ {t q}, (s.point t).next = [(.lock .rf, q)] →
      ¬ Free server s t ∧ WaitsFor server s t w ∧ ∀ v, WaitsFor server s t v → v = w :=
    fun hnext => Threads.waits_of_next_eq_lock hnext hw
  rcases ht with rfl | hown | ⟨-, hstart⟩
  · rcases hneeds with hnew | ⟨hwants, hst⟩
    · exact ⟨w, hwD, hrf (q := .newSnapShotLocked) (by rw [hnew]; rfl)⟩
    · obtain ⟨v, hv, hvpt⟩ := holderAt_iff.mp hst
      refine ⟨v, .inr (.inr ⟨hv, hvpt⟩), ?_⟩
      rcases hwants with hpt | hpt
      · exact Threads.waits_of_next_eq_lock (q := .snapLocked)
          (show Point.next _ = _ by rw [hpt]; rfl) hv
      · exact Threads.waits_of_next_eq_lock (q := .cmdLocked)
          (show Point.next _ = _ by rw [hpt]; rfl) hv
  · obtain rfl : w = t := Option.some.inj (hw.symm.trans hown)
    exact ⟨.applyDaemon, .inl rfl, send_waits hsend hneeds.ne_receive hc⟩
  · exact ⟨w, hwD, hrf (q := .startLocked) (by rw [hstart]; rfl)⟩

theorem deadlocked_cycle (hc : Consistent server s) (hpin : Pinned s) (hneeds : NeedsRf s) :
    Deadlocked server s (cycle s) := by
  refine ⟨⟨.applyDaemon, .inl rfl⟩, fun t ht => ?_, fun t ht => ?_, fun t ht v hv => ?_⟩ <;>
    obtain ⟨u, hu, hblocked, hwait, honly⟩ := cycle_waits hc hpin hneeds ht
  · exact hblocked
  · exact ⟨u, hwait⟩
  · rw [honly v hv]
    exact hu

/-- There is a deadlock exactly when a snapshot is sent under `rf.mu` to a receiver that does not
receive before somebody gets `rf.mu`. -/
theorem deadlocked_iff (hc : Consistent server s) :
    (∃ D, Deadlocked server s D) ↔ Pinned s ∧ NeedsRf s :=
  ⟨fun ⟨_, h⟩ => pinned_needsRf_of_deadlocked hc h,
    fun ⟨hpin, hneeds⟩ => ⟨cycle s, deadlocked_cycle hc hpin hneeds⟩⟩

end Deadlock

/-! ## Runs without a deadlock -/

/-- The step does not lead into a deadlock. `InstallSnapshot` goes on to its send only if
`applyDaemon` does not need `rf.mu`. While a snapshot is being sent, `applyDaemon` does not go for
`rf.mu`, nor for `kv.mu` if a request with `kv.mu` starts its command; and no request with `kv.mu`
starts its command if `applyDaemon` wants `kv.mu`. -/
def Spares (s : State) : Event Thread Mutex Msg Point → Prop
  | .act (.installSnapshot _) _ q => q = .installSend → ¬ NeedsRf s
  | .act .applyDaemon _ q =>
      (q = .newSnapShotLock → ¬ Pinned s) ∧ (q = .cmdLock → ¬ (Pinned s ∧ Starting s))
  | .act (.handler _) _ q => q = .startLock → ¬ (Pinned s ∧ WantsKv s)
  | .act .applyLogEntryDaemon _ _ | .meet _ _ _ _ _ => True

instance (s : State) : (event : Event Thread Mutex Msg Point) → Decidable (Spares s event)
  | .act (.installSnapshot _) _ _ => inferInstanceAs (Decidable (_ → _))
  | .act .applyDaemon _ _ => inferInstanceAs (Decidable ((_ → _) ∧ (_ → _)))
  | .act (.handler _) _ _ => inferInstanceAs (Decidable (_ → _))
  | .act .applyLogEntryDaemon _ _ | .meet _ _ _ _ _ => isTrue trivial

section Run

variable {s s' : State} {event : Event Thread Mutex Msg Point}

/-- Where a point belongs to one family of threads, its holder is one of them. -/
theorem holderAt_iff_exists (hc : Consistent server s) {m : Mutex} {p : Point}
    (hholds : p.holds m = true) {ι : Type} {f : ι → Thread}
    (hkind : ∀ t : Thread, p.kind = t.kind → ∃ i, t = f i) :
    HolderAt s m p ↔ ∃ i, s.point (f i) = p := by
  rw [holderAt_iff]
  constructor
  · rintro ⟨t, -, rfl⟩
    obtain ⟨i, rfl⟩ := hkind t (hc.region t)
    exact ⟨i, rfl⟩
  · rintro ⟨i, rfl⟩
    exact ⟨f i, (hc.owner (f i) m).mpr hholds, rfl⟩

theorem pinned_iff (hc : Consistent server s) :
    Pinned s ↔ ∃ i, s.point (.installSnapshot i) = .installSend := by
  refine holderAt_iff_exists hc rfl fun t ht => ?_
  cases t with
  | installSnapshot i => exact ⟨i, rfl⟩
  | applyLogEntryDaemon | applyDaemon | handler => cases ht

theorem starting_iff (hc : Consistent server s) :
    Starting s ↔ ∃ k, s.point (.handler k) = .startLock := by
  refine holderAt_iff_exists hc rfl fun t ht => ?_
  cases t with
  | handler k => exact ⟨k, rfl⟩
  | applyLogEntryDaemon | applyDaemon | installSnapshot => cases ht

/-- Only a receive leads to where a snapshot is applied. -/
theorem Point.next_snapLock (p : Point) : ∀ e ∈ p.next, e.2 = .snapLock →
    e.1 = .receive .snapshot := by
  cases p <;> decide

theorem Point.next_send_snapshot (p : Point) : ∀ e ∈ p.next, e.1 = .send .snapshot →
    p = .installSend ∧ e.2 = .installSent := by
  cases p <;> decide

/-- The needs of `applyDaemon` depend on where it and the requests are. -/
theorem needsRf_congr (hc : Consistent server s) (hc' : Consistent server s')
    (hdaemon : s'.point .applyDaemon = s.point .applyDaemon)
    (hhandler : ∀ k, s'.point (.handler k) = s.point (.handler k)) : NeedsRf s' ↔ NeedsRf s := by
  simp only [NeedsRf, WantsKv, starting_iff hc, starting_iff hc', hdaemon, hhandler]

theorem pinned_congr (hc : Consistent server s) (hc' : Consistent server s')
    (h : ∀ i, s'.point (.installSnapshot i) = s.point (.installSnapshot i)) :
    Pinned s' ↔ Pinned s := by
  simp only [pinned_iff hc, pinned_iff hc', h]

theorem starting_congr (hc : Consistent server s) (hc' : Consistent server s')
    (h : ∀ k, s'.point (.handler k) = s.point (.handler k)) : Starting s' ↔ Starting s := by
  simp only [starting_iff hc, starting_iff hc', h]

/-- `InstallSnapshot` steps. -/
theorem spares_iff_install {i : Nat} {a : Action Mutex Msg} {q : Point}
    (hc : Consistent server s) (hc' : Consistent server s') (hsafe : ¬ (Pinned s ∧ NeedsRf s))
    (hpt : s'.point = Function.update s.point (.installSnapshot i) q) :
    Spares s (.act (.installSnapshot i) a q) ↔ ¬ (Pinned s' ∧ NeedsRf s') := by
  rw [needsRf_congr hc hc' (by simp [hpt]) (by simp [hpt])]
  by_cases hq : q = .installSend
  · subst hq
    have hpin : Pinned s' := (pinned_iff hc').mpr ⟨i, by simp [hpt]⟩
    exact ⟨fun hok hboth => hok rfl hboth.2, fun h _ hneeds => h ⟨hpin, hneeds⟩⟩
  · have hback : Pinned s' → Pinned s := by
      rw [pinned_iff hc, pinned_iff hc']
      rintro ⟨j, hj⟩
      refine ⟨j, ?_⟩
      by_cases hij : j = i
      · subst hij
        simp [hpt, hq] at hj
      · simpa [hpt, hij] using hj
    exact ⟨fun _ hboth => hsafe ⟨hback hboth.1, hboth.2⟩, fun _ hsend => absurd hsend hq⟩

/-- `applyDaemon` steps, without receiving. -/
theorem spares_iff_apply {a : Action Mutex Msg} {q : Point}
    (hc : Consistent server s) (hc' : Consistent server s')
    (hpt : s'.point = Function.update s.point .applyDaemon q) (hsnap : q ≠ .snapLock) :
    Spares s (.act .applyDaemon a q) ↔ ¬ (Pinned s' ∧ NeedsRf s') := by
  have hst : Starting s' ↔ Starting s := starting_congr hc hc' (by simp [hpt])
  rw [pinned_congr hc hc' (by simp [hpt])]
  have hq : s'.point .applyDaemon = q := by simp [hpt]
  have hneeds : NeedsRf s' ↔ q = .newSnapShotLock ∨ q = .cmdLock ∧ Starting s := by
    simp [NeedsRf, WantsKv, hq, hst, hsnap]
  rw [hneeds]
  constructor
  · rintro hok ⟨hpin, hnew | ⟨hcmd, hstart⟩⟩
    · exact hok.1 hnew hpin
    · exact hok.2 hcmd ⟨hpin, hstart⟩
  · exact fun h => ⟨fun hnew hpin => h ⟨hpin, .inl hnew⟩,
      fun hcmd hboth => h ⟨hboth.1, .inr ⟨hcmd, hboth.2⟩⟩⟩

/-- A request steps. -/
theorem spares_iff_handler {k : Nat} {a : Action Mutex Msg} {q : Point}
    (hc : Consistent server s) (hc' : Consistent server s') (hsafe : ¬ (Pinned s ∧ NeedsRf s))
    (hpt : s'.point = Function.update s.point (.handler k) q) :
    Spares s (.act (.handler k) a q) ↔ ¬ (Pinned s' ∧ NeedsRf s') := by
  have hdaemon : s'.point .applyDaemon = s.point .applyDaemon := by simp [hpt]
  rw [pinned_congr hc hc' (by simp [hpt])]
  by_cases hq : q = .startLock
  · subst hq
    have hst : Starting s' := (starting_iff hc').mpr ⟨k, by simp [hpt]⟩
    have hneeds : NeedsRf s' ↔ s.point .applyDaemon = .newSnapShotLock ∨ WantsKv s := by
      simp [NeedsRf, WantsKv, hdaemon, hst]
    have hnew : Pinned s → s.point .applyDaemon ≠ .newSnapShotLock := fun hp hn =>
      hsafe ⟨hp, .inl hn⟩
    rw [hneeds]
    constructor
    · rintro hok ⟨hpin, hn | hwants⟩
      · exact hnew hpin hn
      · exact hok rfl ⟨hpin, hwants⟩
    · exact fun h _ hboth => h ⟨hboth.1, .inr hboth.2⟩
  · -- anywhere else the request is not in `Start`
    have hback : NeedsRf s' → NeedsRf s := by
      simp only [NeedsRf, WantsKv, hdaemon, starting_iff hc, starting_iff hc']
      rintro (h | ⟨h, j, hj⟩)
      · exact .inl h
      · refine .inr ⟨h, j, ?_⟩
        by_cases hjk : j = k
        · subst hjk
          simp [hpt, hq] at hj
        · simpa [hpt, hjk] using hj
    exact ⟨fun _ hboth => hsafe ⟨hboth.1, hback hboth.2⟩, fun _ hstart => absurd hstart hq⟩

/-- A message is handed over. The thread that sent a snapshot was the only one to hold `rf.mu`, so
none is being sent afterwards. -/
theorem safe_of_meet {t u : Thread} {c : Msg} {p q : Point} (hc : Consistent server s)
    (hc' : Consistent server s') (hsend : (.send c, p) ∈ (s.point t).next)
    (hrecv : (.receive c, q) ∈ (s.point u).next)
    (hpt : s'.point = Function.update (Function.update s.point t p) u q) :
    ¬ (Pinned s' ∧ NeedsRf s') := by
  rintro ⟨hpin, hneeds⟩
  have hu := Point.eq_receive hrecv
  have hkind := hc.region u
  rw [hu] at hkind hrecv
  obtain rfl := Thread.eq_applyDaemon hkind.symm
  have hq : s'.point .applyDaemon = q := by simp [hpt]
  rcases (show (c = .snapshot ∧ q = .snapLock) ∨ (c = .command ∧ q = .cmdReceived) by
    simpa [Point.next] using hrecv) with ⟨rfl, rfl⟩ | ⟨rfl, rfl⟩
  · obtain ⟨ht, rfl⟩ := (s.point t).next_send_snapshot (.send .snapshot, p) hsend rfl
    obtain ⟨i, hi⟩ := (pinned_iff hc').mp hpin
    have hit : Thread.installSnapshot i ≠ t := by
      rintro rfl
      simp [hpt] at hi
    have hi' : s.point (.installSnapshot i) = .installSend := by simpa [hpt, hit] using hi
    have howner : ∀ v, s.point v = .installSend → s.owner .rf = some v := fun v hv =>
      (hc.owner v .rf).mpr (show Point.holds _ _ = _ by rw [hv]; rfl)
    exact hit (Option.some.inj ((howner _ hi').symm.trans (howner t ht)))
  · rcases hneeds with h | ⟨h | h, -⟩ <;> simp [hq] at h

/-- A step leads into a deadlock exactly when it does not spare it. -/
theorem spares_iff (hc : Consistent server s) (hsafe : ¬ (Pinned s ∧ NeedsRf s))
    (hs : step s event = some s') : Spares s event ↔ ¬ (Pinned s' ∧ NeedsRf s') := by
  have hc' : Consistent server s' := hc.step hs
  rcases Threads.step_point hs with ⟨t, a, q, rfl, hnext, -, hrecv, hpt⟩ |
    ⟨t, u, c, p, q, rfl, -, hsend, hrecv, hpt⟩
  · cases t with
    | applyLogEntryDaemon =>
        rw [pinned_congr hc hc' (by simp [hpt]),
          needsRf_congr hc hc' (by simp [hpt]) (by simp [hpt])]
        exact ⟨fun _ => hsafe, fun _ => trivial⟩
    | installSnapshot i => exact spares_iff_install hc hc' hsafe hpt
    | applyDaemon =>
        exact spares_iff_apply hc hc' hpt fun hq =>
          hrecv _ ((s.point .applyDaemon).next_snapLock (a, q) hnext hq)
    | handler k => exact spares_iff_handler hc hc' hsafe hpt
  · exact ⟨fun _ => safe_of_meet hc hc' hsend hrecv hpt, fun _ => trivial⟩

/-- **When the server cannot deadlock.** No state of a run has a deadlocked set of threads if and
only if every step of the run spares the deadlocks. -/
theorem no_deadlock_iff {es : List (Event Thread Mutex Msg Point)}
    (hr : Machine.run step init es = some s) :
    (∀ before after t, es = before ++ after → Machine.run step init before = some t →
      ∀ D, ¬ Deadlocked server t D) ↔
    Machine.Along step Spares init es := by
  have hnone : ∀ {t : State}, Consistent server t →
      ((∀ D, ¬ Deadlocked server t D) ↔ ¬ (Pinned t ∧ NeedsRf t)) := fun hc => by
    rw [← deadlocked_iff hc, not_exists]
  refine Machine.always_iff_along ((hnone Threads.consistent_init).mpr (by decide)) ?_ hr
  intro before t event t' ht hsafe ht'
  have hc : Consistent server t := Threads.consistent_run ht
  rw [hnone (hc.step ht')]
  exact spares_iff hc ((hnone hc).mp hsafe) ht'

end Run

/-- An entry is applied with a snapshot being due, and a snapshot is installed afterwards. -/
def applyThenInstall : List (Event Thread Mutex Msg Point) :=
  [.act .applyLogEntryDaemon (.lock .rf) .pushLocked,
    .act .applyLogEntryDaemon (.unlock .rf) .pushSend,
    .meet .applyLogEntryDaemon .applyDaemon .command .pushLock .cmdReceived,
    .act .applyDaemon .internal .cmdLock, .act .applyDaemon (.lock .kv) .cmdLocked,
    .act .applyDaemon .internal .newSnapShotLock,
    .act .applyDaemon (.lock .rf) .newSnapShotLocked, .act .applyDaemon (.unlock .rf) .cmdNotify,
    .act .applyDaemon (.unlock .kv) .receive,
    .act (.installSnapshot 0) .internal .installLock,
    .act (.installSnapshot 0) (.lock .rf) .installLocked,
    .act (.installSnapshot 0) .internal .installSend,
    .meet (.installSnapshot 0) .applyDaemon .snapshot .installSent .snapLock]

theorem no_deadlock_applyThenInstall :
    ∃ s, Machine.run step init applyThenInstall = some s ∧ ∀ D, ¬ Deadlocked server s D := by
  obtain ⟨s, hs⟩ : ∃ s, Machine.run step init applyThenInstall = some s := ⟨_, rfl⟩
  exact ⟨s, hs, (no_deadlock_iff hs).mpr (by decide) applyThenInstall [] s (by simp) hs⟩

/-- The same, but the snapshot arrives while the entry is being applied. -/
def installWhileApplying : List (Event Thread Mutex Msg Point) :=
  [.act .applyLogEntryDaemon (.lock .rf) .pushLocked,
    .act .applyLogEntryDaemon (.unlock .rf) .pushSend,
    .meet .applyLogEntryDaemon .applyDaemon .command .pushLock .cmdReceived,
    .act .applyDaemon .internal .cmdLock, .act .applyDaemon (.lock .kv) .cmdLocked,
    .act (.installSnapshot 0) .internal .installLock,
    .act (.installSnapshot 0) (.lock .rf) .installLocked,
    .act (.installSnapshot 0) .internal .installSend,
    .act .applyDaemon .internal .newSnapShotLock]

/-- `InstallSnapshot` holds `rf.mu` and waits for `applyDaemon`, which waits for `rf.mu`. Whatever
happens afterwards, neither ever moves. -/
theorem install_while_applying_deadlocks :
    ∃ s D, Machine.run step init installWhileApplying = some s ∧ Deadlocked server s D ∧
      .installSnapshot 0 ∈ D ∧ .applyDaemon ∈ D ∧
      ∀ more s', Machine.run step s more = some s' → ∀ t ∈ D, s'.point t = s.point t := by
  obtain ⟨s, hs, hpin, hneeds, howner⟩ : ∃ s, Machine.run step init installWhileApplying = some s ∧
      Pinned s ∧ NeedsRf s ∧ s.owner .rf = some (.installSnapshot 0) :=
    ⟨_, rfl, rfl, .inl rfl, rfl⟩
  have hc : Consistent server s := Threads.consistent_run hs
  have hD := deadlocked_cycle hc hpin hneeds
  exact ⟨s, cycle s, hs, hD, .inr (.inl howner), .inl rfl, fun _ _ hmore => hD.run hc hmore⟩

end RaftLab.Locks
