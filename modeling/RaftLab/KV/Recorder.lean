import RaftLab.KV.Linearize
import RaftLab.KV.Stack

set_option autoImplicit false

/-! # Recording a history

The clients of the linearizability test of `kvraft/test_test.go`, next to the service. A client
reads the clock, calls its clerk, reads the clock again when the call has returned, and appends the
operation to the history that all clients share. The clock may stand still, but does not go back.
At the end, when no client is in a call, the test hands the history to `CheckOperationsTimeout`.

The recorder is over any machine that the service can be taken for: `System`, or the whole service
with the cluster. In both cases the history is linearizable when the clients have stopped
(`history_linearizable`, `stack_history_linearizable`).
-/

namespace RaftLab

open Linearizability (KvOperation kvStore LinearizableFor)

/-! ## What the service keeps of its calls -/

namespace Client

/-- The clerk's id and number, and the call it is in. -/
def standing (cl : Client) : Int × Int × Option (ClerkCall × Nat) :=
  (cl.clerk.id, cl.clerk.seq, cl.pending.map fun pd => (pd.call, pd.began))

theorem current?_congr {cl cl' : Client} (h : cl'.standing = cl.standing) :
    cl'.current? = cl.current? := by
  obtain ⟨⟨leader, seq, id⟩, pending⟩ := cl
  obtain ⟨⟨leader', seq', id'⟩, pending'⟩ := cl'
  simp only [standing, Prod.mk.injEq] at h
  obtain ⟨rfl, rfl, hpend⟩ := h
  cases pending <;> cases pending' <;> simp only [Option.map_some, Option.map_none,
    Option.some.injEq, Prod.mk.injEq, reduceCtorEq] at hpend
  · rfl
  · rw [current?, current?, Option.map_some, Option.map_some, hpend.1]
    cases Pending.call _ <;> rfl

end Client

namespace System

variable {ns nc : Nat} {t t' : System ns nc}

/-- What no step but the beginning and the return of a call changes. -/
structure Frame (t t' : System ns nc) : Prop where
  standing : ∀ c, (t'.clients c).standing = (t.clients c).standing
  returned : t'.returned = t.returned
  log : t.log <+: t'.log
  requests : ∀ r ∈ t'.requests, r ∈ t.requests ∨ ∃ c, (t.clients c).current? = some r
  started : ∀ op ∈ t'.started, op ∈ t.started ∨ ∃ r ∈ t.requests, op = r.cmd

/-- A step of Raft or of a server. -/
theorem Frame.of_eq (hcl : t'.clients = t.clients) (hret : t'.returned = t.returned)
    (hlog : t.log <+: t'.log) (hreq : t'.requests = t.requests)
    (hst : t'.started = t.started) : Frame t t' where
  standing := fun c => by rw [hcl]
  returned := hret
  log := hlog
  requests := fun r hr => Or.inl (hreq ▸ hr)
  started := fun op hop => Or.inl (hst ▸ hop)

/-- A clerk goes on with its call. -/
theorem Frame.retry {c : Fin nc} {pd : Pending} {clerk : Clerk} {rpc : Option Nat}
    (hpd : (t.clients c).pending = some pd) (hid : clerk.id = (t.clients c).clerk.id)
    (hseq : clerk.seq = (t.clients c).clerk.seq) (d : Fin nc) :
    (Function.update t.clients c { clerk := clerk, pending := some { pd with rpc := rpc } }
      d).standing = (t.clients d).standing := by
  refine (Function.forall_update_iff t.clients fun d cl =>
    cl.standing = (t.clients d).standing).mpr ⟨?_, fun _ _ => rfl⟩ d
  simp only [Client.standing, hid, hseq, hpd]
  rfl

theorem frame_of_quiet {e : SystemEvent ns nc} (hq : e.isClerk = false)
    (h : t.step e = some t') : Frame t t' := by
  cases e with
  | commit command =>
      obtain ⟨-, rfl⟩ := stepCommit_eq_some h
      exact .of_eq rfl rfl (List.prefix_append _ _) rfl rfl
  | roleChange p term leader =>
      obtain rfl := Option.some.inj h
      exact .of_eq rfl rfl (List.prefix_refl _) rfl rfl
  | deliver p size =>
      obtain ⟨command, r, ch, -, -, rfl⟩ := stepDeliver_eq_some h
      exact .of_eq rfl rfl (List.prefix_refl _) rfl rfl
  | check k =>
      obtain ⟨call, hd, hk, -, -, rfl⟩ := stepCheck_eq_some h
      exact .of_eq rfl rfl (List.prefix_refl _) (Records.map_set_eq hk rfl) rfl
  | enter k index =>
      obtain ⟨call, hk, -, ⟨reply, -, rfl⟩ | ⟨-, rfl⟩ | rfl⟩ := stepEnter_eq_some h
      · exact .of_eq rfl rfl (List.prefix_refl _) (Records.map_set_eq hk rfl) rfl
      · have hreg : Frame t (t.register k call index (t.servers call.dst).term) :=
          .of_eq rfl rfl (List.prefix_refl _) (Records.map_set_eq hk rfl) rfl
        refine { hreg with started := fun op hop => ?_ }
        rcases List.mem_append.mp hop with hold | hnew
        · exact Or.inl hold
        · exact Or.inr ⟨call.request, List.mem_map_of_mem (List.mem_of_getElem? hk),
            List.mem_singleton.mp hnew⟩
      · exact .of_eq rfl rfl (List.prefix_refl _) (Records.map_set_eq hk rfl) rfl
  | wake k =>
      obtain ⟨call, index, term, hk, -, -, rfl⟩ := stepWake_eq_some h
      exact .of_eq rfl rfl (List.prefix_refl _) (Records.map_set_eq hk rfl) rfl
  | read k =>
      obtain ⟨call, args, hk, -, -, rfl⟩ := stepRead_eq_some h
      exact .of_eq rfl rfl (List.prefix_refl _) (Records.map_set_eq hk rfl) rfl
  | begin c call => cases hq
  | send c =>
      obtain ⟨pd, dst, hpd, rfl⟩ := stepSend_eq_some h
      refine ⟨Frame.retry hpd rfl rfl, rfl, List.prefix_refl _, fun r hr => ?_,
        fun op hop => Or.inl hop⟩
      rw [requests, List.map_append] at hr
      rcases List.mem_append.mp hr with hold | hnew
      · exact Or.inl hold
      · rw [List.map_singleton] at hnew
        refine Or.inr ⟨c, ?_⟩
        rw [List.mem_singleton.mp hnew, Client.current?, hpd]
        rfl
  | giveUp c =>
      obtain ⟨pd, hpd, rfl⟩ := stepGiveUp_eq_some h
      exact ⟨Frame.retry hpd rfl rfl, rfl, List.prefix_refl _, fun r hr => Or.inl hr,
        fun op hop => Or.inl hop⟩
  | done c => cases hq

/-- The request has been returned, or is the one a clerk is in. -/
def Accounted (t : System ns nc) (r : Request) : Prop :=
  (∃ R ∈ t.returned, R.request = r) ∨ ∃ c, (t.clients c).current? = some r

/-- Every request and every started command is accounted for, and calls end within the log. -/
structure Traced (t : System ns nc) : Prop where
  ended : ∀ R ∈ t.returned, R.ended ≤ t.log.length
  requests : ∀ r ∈ t.requests, t.Accounted r
  started : ∀ op ∈ t.started, ∃ r, t.Accounted r ∧ op = r.cmd

theorem traced_init (ids : Fin nc → Int) (maxraftstate : Int) :
    (init ids maxraftstate : System ns nc).Traced where
  ended := fun R hR => by cases hR
  requests := fun r hr => by cases hr
  started := fun op hop => by cases hop

theorem Traced.frame (h : t.Traced) (hf : Frame t t') : t'.Traced := by
  have hcur : ∀ c, (t'.clients c).current? = (t.clients c).current? :=
    fun c => Client.current?_congr (hf.standing c)
  have hacc : ∀ r, t.Accounted r → t'.Accounted r := by
    rintro r (⟨R, hR, rfl⟩ | ⟨c, hc⟩)
    · exact Or.inl ⟨R, hf.returned ▸ hR, rfl⟩
    · exact Or.inr ⟨c, (hcur c).trans hc⟩
  constructor
  case ended =>
    intro R hR
    rw [hf.returned] at hR
    exact Nat.le_trans (h.ended R hR) hf.log.length_le
  case requests =>
    intro r hr
    rcases hf.requests r hr with hold | ⟨c, hc⟩
    · exact hacc r (h.requests r hold)
    · exact Or.inr ⟨c, (hcur c).trans hc⟩
  case started =>
    intro op hop
    rcases hf.started op hop with hold | ⟨r, hr, rfl⟩
    · obtain ⟨r, hr, rfl⟩ := h.started op hold
      exact ⟨r, hacc r hr, rfl⟩
    · exact ⟨r, hacc r (h.requests r hr), rfl⟩

/-- A call begins or returns: what was accounted for still is. -/
theorem Traced.of_accounted (h : t.Traced) (hended : ∀ R ∈ t'.returned, R.ended ≤ t'.log.length)
    (hreq : t'.requests = t.requests) (hst : t'.started = t.started)
    (hacc : ∀ r, t.Accounted r → t'.Accounted r) : t'.Traced := by
  refine ⟨hended, fun r hr => ?_, fun op hop => ?_⟩
  · exact hacc r (h.requests r (hreq ▸ hr))
  · obtain ⟨r, hr, rfl⟩ := h.started op (hst ▸ hop)
    exact ⟨r, hacc r hr, rfl⟩

theorem Traced.begin (h : t.Traced) {c : Fin nc} {call : ClerkCall}
    (hs : t.stepBegin c call = some t') : t'.Traced := by
  obtain ⟨hidle, rfl⟩ := stepBegin_eq_some hs
  refine h.of_accounted h.ended rfl rfl fun r hr => ?_
  rcases hr with hret | ⟨d, hd⟩
  · exact Or.inl hret
  · refine Or.inr ⟨d, ?_⟩
    have hne : d ≠ c := by
      rintro rfl
      rw [Client.current?, hidle] at hd
      cases hd
    show (Function.update t.clients c _ d).current? = some r
    rw [Function.update_of_ne hne]
    exact hd

theorem Traced.return {c : Fin nc} {pd : Pending} {value : String} (h : t.Traced)
    (hpd : (t.clients c).pending = some pd) :
    ({ t.setClient c { clerk := (t.clients c).clerk.nextSeq, pending := none } with
        returned := t.returned ++
          [{ request := (t.clients c).clerk.request pd.call, value := value, began := pd.began,
             ended := t.log.length }] } : System ns nc).Traced := by
  refine h.of_accounted ?_ rfl rfl fun r hr => ?_
  · exact Records.forall_mem_append_singleton h.ended (Nat.le_refl _)
  · rcases hr with ⟨R, hR, rfl⟩ | ⟨d, hd⟩
    · exact Or.inl ⟨R, List.mem_append_left _ hR, rfl⟩
    · by_cases hdc : d = c
      · subst hdc
        rw [Client.current?, hpd] at hd
        exact Or.inl ⟨_, List.mem_append_right _ (List.mem_singleton_self _), Option.some.inj hd⟩
      · refine Or.inr ⟨d, ?_⟩
        show (Function.update t.clients c _ d).current? = some r
        rw [Function.update_of_ne hdc]
        exact hd

end System

/-! ## The clients of the test -/

/-- A machine that the service can be taken for. -/
structure Backend (σ ε : Type) (ns nc : Nat) where
  step : σ → ε → Option σ
  view : σ → System ns nc
  begin : Fin nc → ClerkCall → ε
  done : Fin nc → ε
  isClerk : ε → Bool

/-- Where a client is between its readings of the clock. -/
inductive Phase where
  | idle
  | started (start : Int)
  | calling (start : Int) (call : TestCall)
  | returned (start : Int) (call : TestCall) (result : Returned)

/-- Whether the client is in a call, or has not yet recorded it. -/
def Phase.isOpen : Phase → Bool
  | idle | started _ => false
  | calling .. | returned .. => true

/-- The service and the clients. `now` is the last time that was read. -/
structure Recorder (σ : Type) (nc : Nat) where
  service : σ
  now : Int
  phases : Fin nc → Phase
  records : List Recording

inductive RecorderEvent (ε : Type) (nc : Nat) where
  /-- Client `c` reads the clock before a call. -/
  | readStart (c : Fin nc) (time : Int)
  | invoke (c : Fin nc) (call : TestCall)
  /-- A reply reaches the clerk of client `c`. -/
  | reply (c : Fin nc)
  /-- Client `c` reads the clock after a call and appends the operation. -/
  | readStop (c : Fin nc) (time : Int)
  /-- Any other step of the service. -/
  | other (e : ε)

namespace Recorder

variable {σ ε : Type} {ns nc : Nat} (S : Backend σ ε ns nc)

def start (service : σ) : Recorder σ nc :=
  { service := service, now := 0, phases := fun _ => .idle, records := [] }

/-- The history of the test. -/
def operations (x : Recorder σ nc) : List KvOperation := x.records.map Recording.operation

def setPhase (x : Recorder σ nc) (c : Fin nc) (ph : Phase) : Recorder σ nc :=
  { x with phases := Function.update x.phases c ph }

/-- The client's phase when a reply has reached its clerk: the call has returned, or it goes on. -/
def afterReply (t : System ns nc) (c : Fin nc) (start : Int) (call : TestCall) : Phase :=
  match (t.clients c).pending, t.returned.getLast? with
  | none, some R => .returned start call R
  | _, _ => .calling start call

def step (x : Recorder σ nc) : RecorderEvent ε nc → Option (Recorder σ nc)
  | .readStart c time =>
      match x.phases c with
      | .idle => do
          guard (x.now ≤ time)
          pure { x.setPhase c (.started time) with now := time }
      | _ => none
  | .invoke c call =>
      match x.phases c with
      | .started start => do
          let s ← S.step x.service (S.begin c call.clerkCall)
          pure { x.setPhase c (.calling start call) with service := s }
      | _ => none
  | .reply c =>
      match x.phases c with
      | .calling start call => do
          let s ← S.step x.service (S.done c)
          pure { x.setPhase c (afterReply (S.view s) c start call) with service := s }
      | _ => none
  | .readStop c time =>
      match x.phases c with
      | .returned start call result => do
          guard (x.now ≤ time)
          pure { x.setPhase c .idle with
            now := time
            records := x.records ++
              [{ start := start, call := call, result := result, stop := time }] }
      | _ => none
  | .other e => do
      guard (S.isClerk e = false)
      let s ← S.step x.service e
      pure { x with service := s }

/-- A condition on the steps of the service. -/
def When (ok : σ → ε → Prop) (x : Recorder σ nc) : RecorderEvent ε nc → Prop
  | .other e => ok x.service e
  | _ => True

/-! ### What each step does -/

variable {S} {x x' : Recorder σ nc}

theorem step_readStart {c : Fin nc} {time : Int} (h : x.step S (.readStart c time) = some x') :
    x.phases c = .idle ∧ x.now ≤ time ∧
      x' = { x.setPhase c (.started time) with now := time } := by
  simp only [step] at h
  split at h
  · rename_i hph
    simp only [Option.bind_eq_bind, Option.bind_eq_some_iff, Option.guard_eq_some', Option.pure_def,
      Option.some.injEq] at h
    obtain ⟨-, hle, rfl⟩ := h
    exact ⟨hph, hle, rfl⟩
  · cases h

theorem step_invoke {c : Fin nc} {call : TestCall} (h : x.step S (.invoke c call) = some x') :
    ∃ start s, x.phases c = .started start ∧
      S.step x.service (S.begin c call.clerkCall) = some s ∧
      x' = { x.setPhase c (.calling start call) with service := s } := by
  simp only [step] at h
  split at h
  · rename_i start hph
    simp only [Option.bind_eq_bind, Option.bind_eq_some_iff, Option.pure_def,
      Option.some.injEq] at h
    obtain ⟨s, hs, rfl⟩ := h
    exact ⟨start, s, hph, hs, rfl⟩
  · cases h

theorem step_reply {c : Fin nc} (h : x.step S (.reply c) = some x') :
    ∃ start call s, x.phases c = .calling start call ∧ S.step x.service (S.done c) = some s ∧
      x' = { x.setPhase c (afterReply (S.view s) c start call) with service := s } := by
  simp only [step] at h
  split at h
  · rename_i start call hph
    simp only [Option.bind_eq_bind, Option.bind_eq_some_iff, Option.pure_def,
      Option.some.injEq] at h
    obtain ⟨s, hs, rfl⟩ := h
    exact ⟨start, call, s, hph, hs, rfl⟩
  · cases h

theorem step_readStop {c : Fin nc} {time : Int} (h : x.step S (.readStop c time) = some x') :
    ∃ start call result, x.phases c = .returned start call result ∧ x.now ≤ time ∧
      x' = { x.setPhase c .idle with
        now := time
        records := x.records ++
          [{ start := start, call := call, result := result, stop := time }] } := by
  simp only [step] at h
  split at h
  · rename_i start call result hph
    simp only [Option.bind_eq_bind, Option.bind_eq_some_iff, Option.guard_eq_some', Option.pure_def,
      Option.some.injEq] at h
    obtain ⟨-, hle, rfl⟩ := h
    exact ⟨start, call, result, hph, hle, rfl⟩
  · cases h

theorem step_other {e : ε} (h : x.step S (.other e) = some x') :
    S.isClerk e = false ∧ ∃ s, S.step x.service e = some s ∧ x' = { x with service := s } := by
  simp only [step, Option.bind_eq_bind, Option.bind_eq_some_iff, Option.guard_eq_some',
    Option.pure_def, Option.some.injEq] at h
  obtain ⟨-, hq, s, hs, rfl⟩ := h
  exact ⟨hq, s, hs, rfl⟩

/-! ### The invariant -/

/-- What is known of a client in a phase, at time `now` and with these records. Its clerk has the
id and the number of `st` and is in the call of `st`. -/
def PhaseOk (returned : List Returned) (now : Int) (records : List Recording)
    (st : Int × Int × Option (ClerkCall × Nat)) : Phase → Prop
  | .idle => st.2.2 = none
  | .started start => st.2.2 = none ∧ start ≤ now
  | .calling start call => start ≤ now ∧ ∃ began, st.2.2 = some (call.clerkCall, began) ∧
      ∀ y ∈ records, y.stop < start → y.result.ended ≤ began
  | .returned start call R => st.2.2 = none ∧ start ≤ now ∧ R ∈ returned ∧
      (∃ ck : Clerk, R.request = ck.request call.clerkCall) ∧
      R.request.clientID = st.1 ∧ R.request.seqNo < st.2.1 ∧
      (∀ y ∈ records, y.result.request.clientID = st.1 →
        y.result.request.seqNo < R.request.seqNo) ∧
      ∀ y ∈ records, y.stop < start → y.result.ended ≤ R.began

/-- The records are those of the calls that have returned, as far as the clients have come. -/
structure Ok (x : Recorder σ nc) (t : System ns nc) : Prop where
  traced : t.Traced
  phases : ∀ c, PhaseOk t.returned x.now x.records (t.clients c).standing (x.phases c)
  complete : ∀ R ∈ t.returned, (∃ y ∈ x.records, y.result = R) ∨
    ∃ c start call, x.phases c = .returned start call R
  recorded : ∀ y ∈ x.records, y.Matches ∧ y.result ∈ t.returned ∧ y.start ≤ x.now
  below : ∀ y ∈ x.records, ∀ c, y.result.request.clientID = (t.clients c).clerk.id →
    y.result.request.seqNo < (t.clients c).clerk.seq
  distinct : x.records.Pairwise fun y z =>
    ¬ (y.result.request.clientID = z.result.request.clientID ∧
      y.result.request.seqNo = z.result.request.seqNo)
  inTime : ∀ y ∈ x.records, ∀ z ∈ x.records, z.stop < y.start → z.result.ended ≤ y.result.began
  /-- The clock has not gone back. -/
  forth : ∀ y ∈ x.records, y.start ≤ y.stop

variable {t t' : System ns nc}

/-- The service moves and no call begins or returns. -/
theorem Ok.frame (h : x.Ok t) (hf : System.Frame t t') (s : σ) :
    ({ x with service := s } : Recorder σ nc).Ok t' := by
  have hid : ∀ c, (t'.clients c).clerk.id = (t.clients c).clerk.id :=
    fun c => congrArg Prod.fst (hf.standing c)
  have hseq : ∀ c, (t'.clients c).clerk.seq = (t.clients c).clerk.seq :=
    fun c => congrArg (fun st => st.2.1) (hf.standing c)
  constructor
  case traced => exact h.traced.frame hf
  case phases =>
    intro c
    rw [hf.standing, hf.returned]
    exact h.phases c
  case complete =>
    rw [hf.returned]
    exact h.complete
  case recorded =>
    rw [hf.returned]
    exact h.recorded
  case below =>
    intro y hy c hc
    rw [hid] at hc
    rw [hseq]
    exact h.below y hy c hc
  case distinct => exact h.distinct
  case inTime => exact h.inTime
  case forth => exact h.forth

/-- Time passes. -/
theorem PhaseOk.mono {returned returned' : List Returned} {now now' : Int}
    {records : List Recording} {st : Int × Int × Option (ClerkCall × Nat)} {ph : Phase}
    (h : PhaseOk returned now records st ph) (hnow : now ≤ now')
    (hret : ∀ R ∈ returned, R ∈ returned') : PhaseOk returned' now' records st ph := by
  cases ph with
  | idle => exact h
  | started start => exact ⟨h.1, Int.le_trans h.2 hnow⟩
  | calling start call => exact ⟨Int.le_trans h.1 hnow, h.2⟩
  | returned start call R =>
      obtain ⟨hst, hle, hR, hrest⟩ := h
      exact ⟨hst, Int.le_trans hle hnow, hret R hR, hrest⟩

/-- A client that has nothing to record yet goes on. -/
theorem Ok.complete_update (h : x.Ok t) {c : Fin nc} {ph : Phase}
    (hph : ∀ start call R, x.phases c ≠ .returned start call R) {R : Returned}
    (hR : R ∈ t.returned) : (∃ y ∈ x.records, y.result = R) ∨
      ∃ d start call, Function.update x.phases c ph d = .returned start call R := by
  rcases h.complete R hR with hrec | ⟨d, start, call, hd⟩
  · exact Or.inl hrec
  · refine Or.inr ⟨d, start, call, ?_⟩
    have hne : d ≠ c := by
      rintro rfl
      exact hph start call R hd
    exact (Function.update_of_ne hne _ _).trans hd

theorem Ok.readStart (h : x.Ok t) {c : Fin nc} {time : Int} (hph : x.phases c = .idle)
    (hle : x.now ≤ time) :
    ({ x.setPhase c (.started time) with now := time } : Recorder σ nc).Ok t := by
  have hc := h.phases c
  rw [hph] at hc
  refine { h with phases := ?_, complete := ?_, recorded := ?_ }
  · exact (Function.forall_update_iff x.phases fun d ph =>
      PhaseOk t.returned time x.records (t.clients d).standing ph).mpr
      ⟨⟨hc, Int.le_refl _⟩, fun d _ => (h.phases d).mono hle fun _ hR => hR⟩
  · exact fun R hR => h.complete_update (by rw [hph]; nofun) hR
  · intro y hy
    obtain ⟨hm, hret, hst⟩ := h.recorded y hy
    exact ⟨hm, hret, Int.le_trans hst hle⟩

theorem Ok.invoke (h : x.Ok t) {c : Fin nc} {start : Int} {call : TestCall} (s : σ)
    (hph : x.phases c = .started start) (hs : t.step (.begin c call.clerkCall) = some t') :
    ({ x.setPhase c (.calling start call) with service := s } : Recorder σ nc).Ok t' := by
  have htraced := h.traced.begin hs
  obtain ⟨-, rfl⟩ := System.stepBegin_eq_some hs
  have hc := h.phases c
  rw [hph] at hc
  refine { h with traced := htraced, phases := ?_, complete := ?_, below := ?_ }
  · intro d
    by_cases hd : d = c
    · subst hd
      show PhaseOk _ _ _ (Function.update t.clients d _ d).standing
        (Function.update x.phases d _ d)
      rw [Function.update_self, Function.update_self]
      -- all calls that have returned so far ended before this one begins
      refine ⟨hc.2, t.log.length, rfl, fun y hy _ => ?_⟩
      exact h.traced.ended _ (h.recorded y hy).2.1
    · show PhaseOk _ _ _ (Function.update t.clients c _ d).standing
        (Function.update x.phases c _ d)
      rw [Function.update_of_ne hd, Function.update_of_ne hd]
      exact h.phases d
  · exact fun R hR => h.complete_update (by rw [hph]; nofun) hR
  · intro y hy
    exact (Function.forall_update_iff t.clients fun _ cl =>
      y.result.request.clientID = cl.clerk.id → y.result.request.seqNo < cl.clerk.seq).mpr
      ⟨h.below y hy c, fun d _ => h.below y hy d⟩

/-- A call returns. -/
theorem Ok.return (h : x.Ok t) {c : Fin nc} {start : Int} {call : TestCall} {pd : Pending}
    {R : Returned} (s : σ) (hph : x.phases c = .calling start call)
    (hpd : (t.clients c).pending = some pd)
    (hR : R.request = (t.clients c).clerk.request pd.call ∧ R.began = pd.began ∧
      R.ended = t.log.length) :
    ({ x.setPhase c (.returned start call R) with service := s } : Recorder σ nc).Ok
      { t.setClient c { clerk := (t.clients c).clerk.nextSeq, pending := none } with
        returned := t.returned ++ [R] } := by
  obtain ⟨hreq, hbegan, hended⟩ := hR
  have htraced : ({ t.setClient c { clerk := (t.clients c).clerk.nextSeq, pending := none } with
      returned := t.returned ++ [R] } : System ns nc).Traced := by
    obtain ⟨request, value, began, ended⟩ := R
    cases hreq
    cases hbegan
    cases hended
    exact h.traced.return hpd
  have hc := h.phases c
  rw [hph, Client.standing, hpd] at hc
  obtain ⟨hle, began, hcall, hbefore⟩ := hc
  obtain ⟨hcl, hbeg⟩ := Prod.mk.inj (Option.some.inj hcall)
  constructor
  case traced => exact htraced
  case phases =>
    intro d
    by_cases hd : d = c
    · subst hd
      show PhaseOk _ _ _ (Function.update t.clients d _ d).standing
        (Function.update x.phases d _ d)
      rw [Function.update_self, Function.update_self]
      refine ⟨rfl, hle, List.mem_append_right _ (List.mem_singleton_self R),
        ⟨_, by rw [hreq, hcl]⟩, ?_, ?_, ?_, ?_⟩
      · rw [hreq, Clerk.request_clientID]
        rfl
      · rw [hreq, Clerk.request_seqNo]
        exact Int.lt_succ _
      · intro y hy hid
        rw [hreq, Clerk.request_seqNo]
        exact h.below y hy d hid
      · intro y hy hlt
        rw [hbegan, hbeg]
        exact hbefore y hy hlt
    · show PhaseOk _ _ _ (Function.update t.clients c _ d).standing
        (Function.update x.phases c _ d)
      rw [Function.update_of_ne hd, Function.update_of_ne hd]
      exact (h.phases d).mono (Int.le_refl _) fun _ hold => List.mem_append_left _ hold
  case complete =>
    intro R' hR'
    rcases List.mem_append.mp hR' with hold | hnew
    · exact h.complete_update (by rw [hph]; nofun) hold
    · rw [List.mem_singleton.mp hnew]
      exact Or.inr ⟨c, start, call, Function.update_self ..⟩
  case recorded =>
    intro y hy
    obtain ⟨hm, hret, hst⟩ := h.recorded y hy
    exact ⟨hm, List.mem_append_left _ hret, hst⟩
  case below =>
    intro y hy
    exact (Function.forall_update_iff t.clients fun _ cl =>
      y.result.request.clientID = cl.clerk.id → y.result.request.seqNo < cl.clerk.seq).mpr
      ⟨fun hid => Int.lt_trans (h.below y hy c hid) (Int.lt_succ _), fun d _ => h.below y hy d⟩
  case distinct => exact h.distinct
  case inTime => exact h.inTime
  case forth => exact h.forth

theorem Ok.reply (h : x.Ok t) {c : Fin nc} {start : Int} {call : TestCall} (s : σ)
    (hph : x.phases c = .calling start call) (hs : t.step (.done c) = some t') :
    ({ x.setPhase c (afterReply t' c start call) with service := s } : Recorder σ nc).Ok t' := by
  obtain ⟨pd, k, rc, reply, hpd, -, -, -, ⟨value, -, rfl⟩ | rfl⟩ := System.stepDone_eq_some hs
  · generalize hR :
      Returned.mk ((t.clients c).clerk.request pd.call) value pd.began t.log.length = R
    have hret := h.return (R := R) s hph hpd (by subst hR; exact ⟨rfl, rfl, rfl⟩)
    have hafter : afterReply ({ t.setClient c
        { clerk := (t.clients c).clerk.nextSeq, pending := none } with
        returned := t.returned ++ [R] } : System ns nc) c start call =
        .returned start call R := by
      simp [afterReply, System.setClient]
    rw [hafter]
    exact hret
  · -- the clerk goes on, and so does the client
    have hafter : afterReply (t.setClient c
        { clerk := (t.clients c).clerk.nextLeader, pending := some { pd with rpc := none } })
        c start call = .calling start call := by
      simp [afterReply, System.setClient]
    have hsame : x.setPhase c (.calling start call) = x := by
      rw [setPhase, ← hph, Function.update_eq_self]
    have hframe : System.Frame t (t.setClient c
        { clerk := (t.clients c).clerk.nextLeader, pending := some { pd with rpc := none } }) :=
      ⟨System.Frame.retry hpd rfl rfl, rfl, List.prefix_refl _, fun r hr => Or.inl hr,
        fun op hop => Or.inl hop⟩
    rw [hafter, hsame]
    exact h.frame hframe s

theorem Ok.readStop (h : x.Ok t) (hids : ∀ c d, (t.clients c).clerk.id = (t.clients d).clerk.id →
      c = d) {c : Fin nc} {start time : Int} {call : TestCall} {R : Returned}
    (hph : x.phases c = .returned start call R) (hle : x.now ≤ time) :
    ({ x.setPhase c .idle with
      now := time
      records := x.records ++ [{ start := start, call := call, result := R, stop := time }] } :
        Recorder σ nc).Ok t := by
  have hc := h.phases c
  rw [hph] at hc
  obtain ⟨hst, hstart, hR, hck, hid, hseq, hlast, hbefore⟩ := hc
  constructor
  case traced => exact h.traced
  case phases =>
    intro d
    by_cases hd : d = c
    · subst hd
      show PhaseOk _ _ _ _ (Function.update x.phases d _ d)
      rw [Function.update_self]
      exact hst
    · show PhaseOk _ _ _ _ (Function.update x.phases c _ d)
      rw [Function.update_of_ne hd]
      have hd' := h.phases d
      -- the new record ends now, and belongs to another client
      cases hphd : x.phases d with
      | idle =>
          rw [hphd] at hd'
          exact hd'
      | started st =>
          rw [hphd] at hd'
          exact ⟨hd'.1, Int.le_trans hd'.2 hle⟩
      | calling st call' =>
          rw [hphd] at hd'
          obtain ⟨hst', began, hcall, hbef⟩ := hd'
          refine ⟨Int.le_trans hst' hle, began, hcall,
            Records.forall_mem_append_singleton hbef fun hlt => ?_⟩
          have hlt : time < st := hlt
          omega
      | returned st call' R' =>
          rw [hphd] at hd'
          obtain ⟨hp, hst', hR', hck', hid', hseq', hlast', hbef⟩ := hd'
          refine ⟨hp, Int.le_trans hst' hle, hR', hck', hid', hseq',
            Records.forall_mem_append_singleton hlast' fun hsame => ?_,
            Records.forall_mem_append_singleton hbef fun hlt => ?_⟩
          · exact absurd (hids d c (hsame.symm.trans hid)) hd
          · have hlt : time < st := hlt
            omega
  case complete =>
    intro R' hR'
    rcases h.complete R' hR' with ⟨y, hy, rfl⟩ | ⟨d, st, call', hd⟩
    · exact Or.inl ⟨y, List.mem_append_left _ hy, rfl⟩
    · by_cases hdc : d = c
      · subst hdc
        rw [hph] at hd
        cases hd
        exact Or.inl ⟨_, List.mem_append_right _ (List.mem_singleton_self _), rfl⟩
      · exact Or.inr ⟨d, st, call', (Function.update_of_ne hdc _ _).trans hd⟩
  case recorded =>
    refine Records.forall_mem_append_singleton (fun y hy => ?_) ⟨hck, hR, Int.le_trans hstart hle⟩
    obtain ⟨hm, hret, hyst⟩ := h.recorded y hy
    exact ⟨hm, hret, Int.le_trans hyst hle⟩
  case below =>
    refine Records.forall_mem_append_singleton h.below fun d hd => ?_
    obtain rfl : c = d := hids c d (hid.symm.trans hd)
    exact hseq
  case distinct =>
    refine List.pairwise_append.mpr ⟨h.distinct, List.pairwise_singleton _ _, fun y hy z hz => ?_⟩
    rw [List.mem_singleton.mp hz]
    rintro ⟨hsame, hnum⟩
    have hlt := hlast y hy (hsame.trans hid)
    have hnum : y.result.request.seqNo = R.request.seqNo := hnum
    omega
  case inTime =>
    refine Records.forall_mem_append_singleton (fun y hy => ?_) ?_
    · refine Records.forall_mem_append_singleton (h.inTime y hy) fun hlt => ?_
      have hlt : time < y.start := hlt
      have hyst := (h.recorded y hy).2.2
      omega
    · refine Records.forall_mem_append_singleton hbefore fun hlt => ?_
      have hlt : time < start := hlt
      omega
  case forth => exact Records.forall_mem_append_singleton h.forth (Int.le_trans hstart hle)

/-! ### Runs -/

variable {I : σ → Prop} {ok : σ → ε → Prop}

/-- The service moves as `System` does, clerk by clerk. -/
structure Follows (S : Backend σ ε ns nc) (I : σ → Prop) (ok : σ → ε → Prop) : Prop where
  inv : ∀ s, I s → (S.view s).Inv
  begin : ∀ s c call s', I s → S.step s (S.begin c call) = some s' →
    I s' ∧ (S.view s).step (.begin c call) = some (S.view s')
  done : ∀ s c s', I s → S.step s (S.done c) = some s' →
    I s' ∧ (S.view s).step (.done c) = some (S.view s')
  other : ∀ s e s', I s → ok s e → S.isClerk e = false → S.step s e = some s' →
    I s' ∧ Machine.Leads System.step (fun _ e => e.isClerk = false) (S.view s) (S.view s')

theorem Ok.quiet (h : x.Ok t)
    (hq : Machine.Leads System.step (fun _ e => e.isClerk = false) t t') (s : σ) :
    ({ x with service := s } : Recorder σ nc).Ok t' :=
  hq.induction (I := fun t => ({ x with service := s } : Recorder σ nc).Ok t)
    (fun _ _ _ ht hquiet hs => ht.frame (System.frame_of_quiet hquiet hs) s)
    (h.frame (.of_eq rfl rfl (List.prefix_refl _) rfl rfl) s)

theorem ok_step (hS : Follows S I ok) {e : RecorderEvent ε nc}
    (h : I x.service ∧ x.Ok (S.view x.service)) (hok : x.When ok e)
    (hs : x.step S e = some x') : I x'.service ∧ x'.Ok (S.view x'.service) := by
  obtain ⟨hI, h⟩ := h
  cases e with
  | readStart c time =>
      obtain ⟨hph, hle, rfl⟩ := step_readStart hs
      exact ⟨hI, h.readStart hph hle⟩
  | invoke c call =>
      obtain ⟨start, s, hph, hstep, rfl⟩ := step_invoke hs
      obtain ⟨hI', hview⟩ := hS.begin _ _ _ _ hI hstep
      exact ⟨hI', h.invoke s hph hview⟩
  | reply c =>
      obtain ⟨start, call, s, hph, hstep, rfl⟩ := step_reply hs
      obtain ⟨hI', hview⟩ := hS.done _ _ _ hI hstep
      exact ⟨hI', h.reply s hph hview⟩
  | readStop c time =>
      obtain ⟨start, call, R, hph, hle, rfl⟩ := step_readStop hs
      exact ⟨hI, h.readStop (hS.inv _ hI).issued.ids hph hle⟩
  | other e =>
      obtain ⟨hq, s, hstep, rfl⟩ := step_other hs
      obtain ⟨hI', hlead⟩ := hS.other _ _ _ hI hok hq hstep
      exact ⟨hI', h.quiet hlead s⟩

theorem ok_start (s : σ) {ids : Fin nc → Int} {maxraftstate : Int} :
    (start s : Recorder σ nc).Ok (System.init ids maxraftstate : System ns nc) where
  traced := System.traced_init ids maxraftstate
  phases := fun c => rfl
  complete := fun R hR => by cases hR
  recorded := fun y hy => by cases hy
  below := fun y hy => by cases hy
  distinct := List.Pairwise.nil
  inTime := fun y hy => by cases hy
  forth := fun y hy => by cases hy

/-- When no client is in a call, the records are all the calls behind the log. -/
theorem Ok.recorded_log (h : x.Ok t) (hinv : t.Inv)
    (hstop : ∀ c, (x.phases c).isOpen = false) : Recorded t.log x.records where
  matched := fun y hy => (h.recorded y hy).1
  sound := fun y hy => hinv.returned _ (h.recorded y hy).2.1
  complete := by
    intro op hop
    obtain ⟨r, hr, rfl⟩ := h.traced.started op (hinv.issued.entries op hop)
    rcases hr with ⟨R, hR, rfl⟩ | ⟨c, hc⟩
    · rcases h.complete R hR with ⟨y, hy, rfl⟩ | ⟨c, start, call, hph⟩
      · exact ⟨y, hy, rfl⟩
      · have hopen := hstop c
        rw [hph] at hopen
        cases hopen
    · -- a clerk in a call has a client in a call
      have hpend : (t.clients c).pending = none := by
        have hph := h.phases c
        have hopen := hstop c
        cases hphase : x.phases c with
        | idle =>
            rw [hphase] at hph
            exact Option.map_eq_none_iff.mp hph
        | started start =>
            rw [hphase] at hph
            exact Option.map_eq_none_iff.mp hph.1
        | calling start call =>
            rw [hphase] at hopen
            cases hopen
        | returned start call R =>
            rw [hphase] at hopen
            cases hopen
      rw [Client.current?, hpend] at hc
      cases hc
  distinct := h.distinct
  inTime := h.inTime

theorem linearizable_run (hS : Follows S I ok) {s : σ} {ids : Fin nc → Int} {maxraftstate : Int}
    (hI : I s) (hview : S.view s = System.init ids maxraftstate) {es : List (RecorderEvent ε nc)}
    (hok : Machine.Along (step S) (When ok) (start s) es)
    (hr : Machine.run (step S) (start s) es = some x)
    (hstop : ∀ c, (x.phases c).isOpen = false) :
    LinearizableFor kvStore x.operations ∧ ∀ op ∈ x.operations, op.call ≤ op.ret := by
  obtain ⟨hI', h⟩ := Machine.run_induction
    (I := fun x : Recorder σ nc => I x.service ∧ x.Ok (S.view x.service))
    (fun _ _ _ h hok hs => ok_step hS h hok hs) ⟨hI, hview ▸ ok_start s⟩ hok hr
  refine ⟨linearizable_of_records (h.recorded_log (hS.inv _ hI') hstop), fun op hop => ?_⟩
  obtain ⟨y, hy, rfl⟩ := List.mem_map.mp hop
  exact h.forth y hy

/-! ## The verdict of the test -/

section Verdict

open Machine Linearizability

/-- Whatever the timeout, the order of the partition and of equal times, and the moments at which
goroutines move: `CheckOperationsTimeout` does not return `false`. -/
def NeverRejected (history : List KvOperation) : Prop :=
  ∀ (shuffle : List (List KvOperation) → List (List KvOperation))
    (sort : List (Entry (KvInput ⊕ KvOutput)) → List (Entry (KvInput ⊕ KvOutput))) (timeout : Int),
    (∀ l, (shuffle l).Perm l) → (∀ l, SortedByTime l (sort l)) →
    ∀ es s, run (Collecting.step (fillDefault (kvGivenModel shuffle)).toModel timeout)
      (Collecting.start (operationParts (fillDefault (kvGivenModel shuffle)) sort history)) es =
        some s → s.returned ≠ some false

theorem neverRejected_of_linearizable {history : List KvOperation}
    (hlin : LinearizableFor kvStore history) (hle : ∀ op ∈ history, op.call ≤ op.ret)
    (hdistinct : (timestamps history).Nodup) : NeverRejected history := by
  intro shuffle sort timeout hshuffle hsort es s hrun hfalse
  have h := Timed.of_le hle hdistinct
  choose v hv using fun i => exists_answers history shuffle hsort _
    (List.get_mem (operationParts (fillDefault (kvGivenModel shuffle)) sort history) i)
  have hall := ((forall_answers_iff hv).trans (forall_parts_answer_iff h hshuffle hsort)).mpr hlin
  rcases returned_cases hv hrun with hnone | ⟨-, i, hi⟩ | ⟨htrue, -⟩
  · rw [hnone] at hfalse
    cases hfalse
  · rw [hall i] at hi
    cases hi
  · rw [htrue] at hfalse
    cases hfalse

end Verdict

/-! ## The service over an ideal Raft, and over the cluster -/

/-- The service over a Raft that is taken for granted. -/
def ideal (ns nc : Nat) : Backend (System ns nc) (SystemEvent ns nc) ns nc where
  step := System.step
  view := id
  begin := .begin
  done := .done
  isClerk := SystemEvent.isClerk

theorem ideal_follows : Follows (ideal ns nc) System.Inv System.RaftKeeps where
  inv := fun _ h => h
  begin := fun _ c call _ h hs => ⟨System.inv_step (e := .begin c call) h trivial hs, hs⟩
  done := fun _ c _ h hs => ⟨System.inv_step (e := .done c) h trivial hs, hs⟩
  other := fun _ _ _ h hok hq hs => ⟨System.inv_step h hok hs, .single hq hs⟩

/-- The service over the cluster. -/
def clustered (ns nc : Nat) : Backend (Stack ns nc) (StackEvent ns nc) ns nc where
  step := Stack.step
  view := Stack.view
  begin := fun c call => .act (.begin c call)
  done := fun c => .act (.done c)
  isClerk := StackEvent.isClerk

theorem clustered_follows : Follows (clustered ns nc) Stack.Inv Stack.RaftSafe where
  inv := fun _ h => h.1
  begin := by
    intro s c call s' hinv hs
    obtain ⟨a, h⟩ := hinv.2
    obtain ⟨h', hview⟩ := Stack.grounded_act h hs
    exact ⟨⟨System.inv_step (e := .begin c call) hinv.1 trivial hview, a, h'⟩, hview⟩
  done := by
    intro s c s' hinv hs
    obtain ⟨a, h⟩ := hinv.2
    obtain ⟨h', hview⟩ := Stack.grounded_act h hs
    exact ⟨⟨System.inv_step (e := .done c) hinv.1 trivial hview, a, h'⟩, hview⟩
  other := by
    intro s e s' hinv hsafe hq hs
    obtain ⟨a, h⟩ := hinv.2
    obtain ⟨a', h', hseen⟩ := Stack.grounded_step h hinv.1 hsafe hs
    have hq : e.isClerk = false := hq
    rw [hq] at hseen
    exact ⟨Stack.inv_of_seen hinv ⟨a', h'⟩ hseen, hseen.mono fun _ _ hok => hok.2⟩

/-- **The service is linearizable.** Over a Raft that keeps its part, with snapshots or without, the
history that the clients of the test have recorded is linearizable for the store of all keys once no
client is in a call; and if its times are distinct, `CheckOperationsTimeout` does not reject it. -/
theorem history_linearizable {ids : Fin nc → Int} (hids : Function.Injective ids)
    {maxraftstate : Int} {x : Recorder (System ns nc) nc}
    {es : List (RecorderEvent (SystemEvent ns nc) nc)}
    (hok : Machine.Along (step (ideal ns nc)) (When System.RaftKeeps)
      (start (System.init ids maxraftstate)) es)
    (hr : Machine.run (step (ideal ns nc)) (start (System.init ids maxraftstate)) es = some x)
    (hstop : ∀ c, (x.phases c).isOpen = false) :
    LinearizableFor kvStore x.operations ∧
      ((Linearizability.timestamps x.operations).Nodup → NeverRejected x.operations) := by
  obtain ⟨hlin, hle⟩ :=
    linearizable_run ideal_follows (System.inv_init hids maxraftstate) rfl hok hr hstop
  exact ⟨hlin, neverRejected_of_linearizable hlin hle⟩

/-- The read of the second client below. -/
def readX : Op := { key := "x", value := "", op := .get, clientID := 8, seqNo := 1 }

/-- Over an ideal Raft of one server one client appends to a key, and while it is waiting another
one reads it and is told first. -/
def overlapping : List (RecorderEvent (SystemEvent 1 2) 2) :=
  [.other (.roleChange 0 1 true), .readStart 0 3, .invoke 0 (.append "x" "a"), .other (.send 0),
   .readStart 1 4, .invoke 1 (.get "x"), .other (.send 1), .other (.check 0), .other (.check 1),
   .other (.enter 0 1), .other (.enter 1 2), .other (.commit (some System.appendA)),
   .other (.commit (some readX)), .other (.deliver 0 0), .other (.deliver 0 0), .other (.wake 1),
   .other (.read 1), .reply 1, .readStop 1 5, .other (.wake 0), .reply 0, .readStop 0 6]

def twoIds (c : Fin 2) : Int := 7 + c.val

theorem raftKeeps_overlapping : Machine.Along (step (ideal 1 2)) (When System.RaftKeeps)
    (start (System.init twoIds (-1))) overlapping := by
  iterate 15 refine Machine.along_cons trivial rfl ?_
  refine Machine.along_cons (System.raftKeeps_wake rfl rfl rfl) rfl ?_
  iterate 3 refine Machine.along_cons trivial rfl ?_
  refine Machine.along_cons (System.raftKeeps_wake rfl rfl rfl) rfl ?_
  refine Machine.along_cons trivial rfl ?_
  exact Machine.along_cons trivial rfl trivial

theorem history_linearizable_overlapping : ∃ x, Machine.run (step (ideal 1 2))
      (start (System.init twoIds (-1))) overlapping = some x ∧
    x.operations = [⟨⟨0, "x", ""⟩, 4, ⟨"a"⟩, 5⟩, ⟨⟨2, "x", "a"⟩, 3, ⟨""⟩, 6⟩] ∧
      LinearizableFor kvStore x.operations ∧ NeverRejected x.operations := by
  obtain ⟨x, hr, hops, hstop⟩ : ∃ x, Machine.run (step (ideal 1 2))
      (start (System.init twoIds (-1))) overlapping = some x ∧
      x.operations = [⟨⟨0, "x", ""⟩, 4, ⟨"a"⟩, 5⟩, ⟨⟨2, "x", "a"⟩, 3, ⟨""⟩, 6⟩] ∧
      ∀ c, (x.phases c).isOpen = false :=
    ⟨_, rfl, by decide, by decide⟩
  have hids : Function.Injective twoIds := by decide
  obtain ⟨hlin, hnever⟩ := history_linearizable hids raftKeeps_overlapping hr hstop
  refine ⟨x, hr, hops, hlin, hnever ?_⟩
  rw [hops]
  decide

/-- **The whole service is linearizable.** The same of clerks, servers and peers together, for every
run on which the cluster keeps a ledger, of a service that takes no snapshots. -/
theorem stack_history_linearizable {ids : Fin nc → Int} (hids : Function.Injective ids)
    {maxraftstate : Int} (hmax : maxraftstate < 0) {x : Recorder (Stack ns nc) nc}
    {es : List (RecorderEvent (StackEvent ns nc) nc)}
    (hok : Machine.Along (step (clustered ns nc)) (When Stack.RaftSafe)
      (start (Stack.init ids maxraftstate)) es)
    (hr : Machine.run (step (clustered ns nc)) (start (Stack.init ids maxraftstate)) es = some x)
    (hstop : ∀ c, (x.phases c).isOpen = false) :
    LinearizableFor kvStore x.operations ∧
      ((Linearizability.timestamps x.operations).Nodup → NeverRejected x.operations) := by
  obtain ⟨hlin, hle⟩ := linearizable_run clustered_follows (Stack.inv_start hids hmax)
    (Stack.view_init ids maxraftstate) hok hr hstop
  exact ⟨hlin, neverRejected_of_linearizable hlin hle⟩

instance {ok : σ → ε → Prop} [∀ s e, Decidable (ok s e)] (x : Recorder σ nc) :
    (e : RecorderEvent ε nc) → Decidable (x.When ok e)
  | .other e => inferInstanceAs (Decidable (ok x.service e))
  | .readStart .. | .invoke .. | .reply _ | .readStop .. => isTrue trivial

/-- A client appends to a key and reads it, at server `0` of three. -/
def appendThenGet : List (RecorderEvent (StackEvent 3 1) 1) :=
  [.other (.raft (.canvassVotes 0)), .other (.raft (.requestVote 0)), .other (.raft (.voteReply 0)),
   .readStart 0 3, .invoke 0 (.append "x" "a"), .other (.act (.send 0)), .other (.act (.check 0)),
   .other (.enter 0), .other (.raft (.consistencyCheck 0 1)), .other (.raft (.appendEntries 0)),
   .other (.raft (.appendReply 0)), .other (.raft (.applyTake 0 [])), .other (.raft (.applySend 0)),
   .other (.apply 0 0), .other (.act (.wake 0)), .reply 0, .readStop 0 5,
   .readStart 0 6, .invoke 0 (.get "x"), .other (.act (.send 0)), .other (.act (.check 1)),
   .other (.enter 1), .other (.raft (.consistencyCheck 0 1)), .other (.raft (.appendEntries 1)),
   .other (.raft (.appendReply 1)), .other (.raft (.applyTake 0 [])), .other (.raft (.applySend 0)),
   .other (.apply 0 0), .other (.act (.wake 1)), .other (.act (.read 1)), .reply 0, .readStop 0 9]

theorem stack_history_linearizable_appendThenGet : ∃ x, Machine.run (step (clustered 3 1))
      (start (Stack.init (fun _ => 7) (-1))) appendThenGet = some x ∧
    x.operations = [⟨⟨2, "x", "a"⟩, 3, ⟨""⟩, 5⟩, ⟨⟨0, "x", ""⟩, 6, ⟨"a"⟩, 9⟩] ∧
      LinearizableFor kvStore x.operations ∧ NeverRejected x.operations := by
  have hok : Machine.Along (step (clustered 3 1)) (When Stack.RaftSafe)
      (start (Stack.init (fun _ => 7) (-1))) appendThenGet := by decide
  have hrun : (Machine.run (step (clustered 3 1)) (start (Stack.init (fun _ => 7) (-1)))
      appendThenGet).any (fun x =>
        x.operations = [⟨⟨2, "x", "a"⟩, 3, ⟨""⟩, 5⟩, ⟨⟨0, "x", ""⟩, 6, ⟨"a"⟩, 9⟩] ∧
        ∀ c, (x.phases c).isOpen = false) = true := by decide
  obtain ⟨x, hr, hx⟩ := (Option.any_eq_true _ _).mp hrun
  obtain ⟨hops, hstop⟩ := of_decide_eq_true hx
  have hids : Function.Injective (fun _ : Fin 1 => (7 : Int)) :=
    fun c c' _ => Subsingleton.elim c c'
  obtain ⟨hlin, hnever⟩ := stack_history_linearizable hids (by decide) hok hr hstop
  refine ⟨x, hr, hops, hlin, hnever ?_⟩
  rw [hops]
  decide

end Recorder

end RaftLab
