import RaftLab.Lib.Points
import RaftLab.KV.ExactlyOnce
import RaftLab.Linearizability.KvCheck

set_option autoImplicit false

/-! # From the committed log to a linearizable history

A client of the test records each of its calls of a clerk with the times before and after it. A
call that has returned is backed by the committed log (`Returned.Sound`): a write took effect at one
position of it, a read saw the store after a prefix of it. These positions are linearization
points: the write at position `i` has the point `2 * i + 1`, the read after `m` entries the point
`2 * m`. When every command of the log belongs to a recorded call, the recorded operations are
linearizable for the store of all keys (`linearizable_of_records`).
-/

namespace RaftLab

open Tables (Reflects)
open Linearizability (KvInput KvOutput KvOperation kvStore LinearizableFor)

/-- The calls that a client of the test makes. -/
inductive TestCall where
  | get (key : String)
  | put (key value : String)
  | append (key value : String)
  deriving DecidableEq, Repr

namespace TestCall

/-- `Get`, `Put` or `Append` of the clerk. -/
def clerkCall : TestCall → ClerkCall
  | get key => .get key
  | put key value => .putAppend key value .put
  | append key value => .putAppend key value .append

def input : TestCall → KvInput
  | get key => { op := 0, key := key, value := "" }
  | put key value => { op := 1, key := key, value := value }
  | append key value => { op := 2, key := key, value := value }

/-- The value that `Get` has returned; nothing for the writes. -/
def output : TestCall → String → KvOutput
  | get _, v => { value := v }
  | put .., _ | append .., _ => { value := "" }

end TestCall

/-- A call, the times before and after it, and what the system knows of it. -/
structure Recording where
  start : Int
  call : TestCall
  result : Returned
  stop : Int

namespace Recording

def operation (x : Recording) : KvOperation :=
  { input := x.call.input
    call := x.start
    output := x.call.output x.result.value
    ret := x.stop }

/-- The request of the result is one of the recorded call. -/
def Matches (x : Recording) : Prop := ∃ ck : Clerk, x.result.request = ck.request x.call.clerkCall

end Recording

/-! ## The store along the log -/

namespace Tables

variable {t t' : Tables} {op : Op}

theorem lookup_setDb (t : Tables) (key value : String) :
    (t.setDb key value).lookup = Function.update t.lookup key value := by
  funext k
  by_cases hk : k = key
  · subst hk
    simp [lookup, setDb]
  · simp [lookup, setDb, hk]

/-- What an executed command does to the values. -/
theorem lookup_execute (h : t.execute op = some t') :
    (op.op = .get ∧ t'.lookup = t.lookup) ∨
    (op.op = .put ∧ t'.lookup = Function.update t.lookup op.key op.value) ∨
    (op.op = .append ∧
      t'.lookup = Function.update t.lookup op.key (t.lookup op.key ++ op.value)) := by
  unfold execute at h
  split at h
  · rename_i hop
    cases h
    exact Or.inl ⟨hop, rfl⟩
  · rename_i hop
    cases h
    exact Or.inr (Or.inl ⟨hop, lookup_setDb t op.key op.value⟩)
  · rename_i hop
    cases h
    exact Or.inr (Or.inr ⟨hop, lookup_setDb t op.key _⟩)
  · cases h

/-- Whether a command can be executed depends on its name alone. -/
theorem exists_execute (h : t.execute op = some t') (u : Tables) :
    ∃ u', u.execute op = some u' := by
  unfold execute at h ⊢
  split at h
  · exact ⟨_, rfl⟩
  · exact ⟨_, rfl⟩
  · exact ⟨_, rfl⟩
  · cases h

end Tables

variable {log : List (Option Op)}

/-- A log in which every command takes effect somewhere can be replayed to its end. -/
theorem exists_reflects (h : ∀ op, some op ∈ log → ∃ i, TakesEffect log i op) {j : Nat}
    (hj : j ≤ log.length) : ∃ t, Reflects log j t := by
  induction j with
  | zero => exact ⟨_, Replay.Reflects.zero _ _ _⟩
  | succ j ih =>
      obtain ⟨t, ht⟩ := ih (Nat.le_of_succ_le hj)
      have hget : log[j]? = some log[j] := List.getElem?_eq_getElem hj
      obtain ⟨t', ht'⟩ : ∃ t', t.apply log[j] = some t' := by
        cases hc : log[j] with
        | none => exact ⟨t, rfl⟩
        | some op =>
            obtain ⟨i, -, u, u', -, -, hex⟩ := h op (hc ▸ List.getElem_mem hj)
            obtain ⟨t', ht'⟩ := Tables.exists_execute hex t
            by_cases hnew : t.isNew op.clientID op.seqNo = true
            · exact ⟨t', (if_pos hnew).trans ht'⟩
            · exact ⟨t, if_neg hnew⟩
      exact ⟨t', ht.succ hget ht'⟩

/-- The entry at which a command takes effect leads from the tables before it to those after it. -/
theorem TakesEffect.execute_eq {i : Nat} {op : Op} {t t' : Tables} (h : TakesEffect log i op)
    (ht : Reflects log i t) (ht' : Reflects log (i + 1) t') : t.execute op = some t' := by
  obtain ⟨u, u', hu, hnew, hex⟩ := h.executed
  obtain rfl := hu.unique ht
  have happ : u.apply (some op) = some u' := (if_pos hnew).trans hex
  rw [hex, (hu.succ h.entry happ).unique ht']

/-- An entry that is not executed, or only reads, changes no value. -/
theorem lookup_eq_of_not_write {i : Nat} {t t' : Tables} (ht : Reflects log i t)
    (ht' : Reflects log (i + 1) t')
    (h : ∀ op, TakesEffect log i op → op.op = .get) : t'.lookup = t.lookup := by
  obtain ⟨c, u, hc, hu, happ⟩ := ht'.pred
  obtain rfl := hu.unique ht
  cases c with
  | none =>
      obtain rfl : u = t' := Option.some.inj happ
      rfl
  | some op =>
      rcases Tables.applyOp_cases happ with ⟨hnew, hex⟩ | ⟨-, rfl⟩
      · have hget := h op ⟨hc, u, t', hu, hnew, hex⟩
        exact (Tables.execute_get hget hex).1
      · rfl

/-! ## Linearization points -/

/-- The point of a call that has returned. -/
def PointAt (log : List (Option Op)) (R : Returned) (j : Nat) : Prop :=
  match R.request with
  | .get args => ∃ m t, j = 2 * m ∧ R.began < m ∧ m ≤ R.ended ∧ Reflects log m t ∧
      R.value = t.lookup args.key
  | .putAppend _ => ∃ i, j = 2 * i + 1 ∧ R.began ≤ i ∧ i < R.ended ∧
      TakesEffect log i R.request.cmd

theorem exists_pointAt {R : Returned} (h : R.Sound log) : ∃ j, PointAt log R j := by
  obtain ⟨i, m, t, hbegan, hi, hm, heff, ht, hval⟩ := h
  unfold PointAt
  cases hreq : R.request with
  | get args => exact ⟨2 * m, m, t, rfl, by omega, hm, ht, hval args hreq⟩
  | putAppend args => exact ⟨2 * i + 1, i, rfl, hbegan, by omega, hreq ▸ heff⟩

/-- The point lies within the call. -/
theorem PointAt.within {R : Returned} {j : Nat} (h : PointAt log R j) :
    2 * R.began < j ∧ j ≤ 2 * R.ended ∧ j ≤ 2 * log.length := by
  unfold PointAt at h
  split at h
  · obtain ⟨m, t, rfl, hbegan, hended, ht, -⟩ := h
    have := ht.le
    omega
  · obtain ⟨i, rfl, hbegan, hended, heff⟩ := h
    have := (List.getElem?_eq_some_iff.mp heff.entry).1
    omega

section records

variable {records : List Recording} {point : Returned → Nat} {x y : Recording}

/-- The recorded calls are the calls behind the log. -/
structure Recorded (log : List (Option Op)) (records : List Recording) : Prop where
  matched : ∀ x ∈ records, x.Matches
  sound : ∀ x ∈ records, x.result.Sound log
  complete : ∀ op, some op ∈ log → ∃ x ∈ records, x.result.request.cmd = op
  distinct : records.Pairwise fun x y =>
    ¬ (x.result.request.clientID = y.result.request.clientID ∧
      x.result.request.seqNo = y.result.request.seqNo)
  inTime : ∀ x ∈ records, ∀ y ∈ records, y.stop < x.start → y.result.ended ≤ x.result.began

/-- At an even point there are reads, and they find what they have returned. -/
theorem takes_even (h : Recorded log records)
    (hpoint : ∀ x ∈ records, PointAt log x.result (point x.result)) {m : Nat} {t : Tables}
    (ht : Reflects log m t) :
    kvStore.Takes t.lookup
      ((records.filter fun x => point x.result = 2 * m).map Recording.operation) t.lookup := by
  refine Object.takes_self fun op hop => ?_
  obtain ⟨x, hx, rfl⟩ := List.mem_map.mp hop
  obtain ⟨hmem, hpt⟩ := List.mem_filter.mp hx
  have hat := hpoint x hmem
  obtain ⟨ck, hck⟩ := h.matched x hmem
  rw [of_decide_eq_true hpt] at hat
  unfold PointAt at hat
  rw [hck] at hat
  rcases x with ⟨start, call, R, stop⟩
  cases call with
  | get key =>
      obtain ⟨m', t', hmm, -, -, ht', hval⟩ := hat
      obtain rfl : m = m' := by omega
      obtain rfl := ht.unique ht'
      have hval : R.value = t.lookup key := hval
      simp [Recording.operation, TestCall.input, TestCall.output, kvStore, hval]
  | put key value =>
      obtain ⟨i, hi, -⟩ := hat
      omega
  | append key value =>
      obtain ⟨i, hi, -⟩ := hat
      omega

/-- A write with an odd point has taken effect there. -/
theorem PointAt.takesEffect (hx : x.Matches) {i : Nat} (hat : PointAt log x.result (2 * i + 1)) :
    TakesEffect log i x.result.request.cmd ∧ x.result.request.cmd.op ≠ .get := by
  obtain ⟨ck, hck⟩ := hx
  unfold PointAt at hat
  rw [hck] at hat ⊢
  cases hcall : x.call with
  | get key =>
      rw [hcall] at hat
      obtain ⟨m, t, hm, -⟩ := hat
      omega
  | put key value =>
      rw [hcall] at hat
      obtain ⟨i', hi, -, -, heff⟩ := hat
      obtain rfl : i = i' := by omega
      exact ⟨heff, nofun⟩
  | append key value =>
      rw [hcall] at hat
      obtain ⟨i', hi, -, -, heff⟩ := hat
      obtain rfl : i = i' := by omega
      exact ⟨heff, nofun⟩

/-- The store takes a write as `applyDaemon` does. -/
theorem step_write (hx : x.Matches) (hwrite : x.result.request.cmd.op ≠ .get) {t t' : Tables}
    (hex : t.execute x.result.request.cmd = some t') :
    kvStore.step t.lookup x.operation = (true, t'.lookup) := by
  obtain ⟨ck, hck⟩ := hx
  rw [hck] at hex hwrite
  cases hcall : x.call with
  | get key =>
      rw [hcall] at hwrite
      exact absurd rfl hwrite
  | put key value =>
      rw [hcall] at hex
      rcases Tables.lookup_execute hex with ⟨hop, -⟩ | ⟨-, hlook⟩ | ⟨hop, -⟩
      · cases hop
      · rw [hlook, Recording.operation, hcall]
        rfl
      · cases hop
  | append key value =>
      rw [hcall] at hex
      rcases Tables.lookup_execute hex with ⟨hop, -⟩ | ⟨hop, -⟩ | ⟨-, hlook⟩
      · cases hop
      · cases hop
      · rw [hlook, Recording.operation, hcall]
        rfl

/-- At an odd point there is the write that took effect there, or nothing changes. -/
theorem takes_odd (h : Recorded log records)
    (hpoint : ∀ x ∈ records, PointAt log x.result (point x.result))
    {i : Nat} {t t' : Tables} (ht : Reflects log i t) (ht' : Reflects log (i + 1) t') :
    kvStore.Takes t.lookup
      ((records.filter fun x => point x.result = 2 * i + 1).map Recording.operation)
      t'.lookup := by
  have hblock : ∀ x ∈ records.filter fun x => point x.result = 2 * i + 1,
      x ∈ records ∧ TakesEffect log i x.result.request.cmd ∧ x.result.request.cmd.op ≠ .get := by
    intro x hx
    obtain ⟨hmem, hpt⟩ := List.mem_filter.mp hx
    have hat := hpoint x hmem
    rw [of_decide_eq_true hpt] at hat
    exact ⟨hmem, hat.takesEffect (h.matched x hmem)⟩
  have hpair := h.distinct.sublist (List.filter_sublist (p := fun x => point x.result = 2 * i + 1))
  cases hL : records.filter fun x => point x.result = 2 * i + 1 with
  | nil =>
      refine (lookup_eq_of_not_write ht ht' fun op heff => ?_).symm
      by_contra hop
      -- the write at this entry is recorded, and has its point here
      obtain ⟨x, hx, rfl⟩ := h.complete op (List.mem_of_getElem? heff.entry)
      have hat := hpoint x hx
      have hmem : x ∈ records.filter fun x => point x.result = 2 * i + 1 := by
        refine List.mem_filter.mpr ⟨hx, decide_eq_true ?_⟩
        unfold PointAt at hat
        cases hreq : x.result.request with
        | get args =>
            rw [hreq] at hop
            exact absurd rfl hop
        | putAppend args =>
            rw [hreq] at hat heff
            obtain ⟨i', hi', -, -, heff'⟩ := hat
            rw [hi', heff.unique heff' rfl rfl]
      rw [hL] at hmem
      cases hmem
  | cons x rest =>
      rw [hL] at hblock hpair
      obtain ⟨hmem, heff, hwrite⟩ := hblock x List.mem_cons_self
      -- another one would have the same entry
      obtain rfl : rest = [] := by
        refine List.eq_nil_iff_forall_not_mem.mpr fun y hy => ?_
        obtain ⟨-, heff', -⟩ := hblock y (List.mem_cons_of_mem _ hy)
        refine List.rel_of_pairwise_cons hpair hy ?_
        have hcmd : x.result.request.cmd = y.result.request.cmd :=
          Option.some.inj (Option.some.inj (heff.entry.symm.trans heff'.entry))
        rw [← Request.cmd_clientID, ← Request.cmd_seqNo, hcmd, Request.cmd_clientID,
          Request.cmd_seqNo]
        exact ⟨rfl, rfl⟩
      exact Object.takes_singleton
        (step_write (h.matched x hmem) hwrite (heff.execute_eq ht ht'))

/-- **Recorded calls are linearizable** for the store of all keys. -/
theorem linearizable_of_records (h : Recorded log records) :
    LinearizableFor kvStore (records.map Recording.operation) := by
  have heffect : ∀ op, some op ∈ log → ∃ i, TakesEffect log i op := by
    intro op hop
    obtain ⟨x, hx, rfl⟩ := h.complete op hop
    obtain ⟨i, -, -, -, -, -, heff, -⟩ := h.sound x hx
    exact ⟨i, heff⟩
  have hstate : ∀ j, ∃ t, j ≤ log.length → Reflects log j t := by
    intro j
    by_cases hj : j ≤ log.length
    · obtain ⟨t, ht⟩ := exists_reflects heffect hj
      exact ⟨t, fun _ => ht⟩
    · exact ⟨.empty, fun hle => absurd hle hj⟩
  have hpoints : ∀ R : Returned, ∃ j, R.Sound log → PointAt log R j := by
    intro R
    by_cases hR : R.Sound log
    · obtain ⟨j, hj⟩ := exists_pointAt hR
      exact ⟨j, fun _ => hj⟩
    · exact ⟨0, fun hs => absurd hs hR⟩
  choose state hstate using hstate
  choose point hpoint using hpoints
  have hat : ∀ x ∈ records, PointAt log x.result (point x.result) :=
    fun x hx => hpoint _ (h.sound x hx)
  refine Object.linearizable_of_points (fun x => point x.result)
    (fun j => (state (j / 2)).lookup) (2 * log.length + 1) ?_ ?_ ?_ ?_
  · rw [← (Replay.Reflects.zero Tables.apply Tables.empty log).unique (hstate 0 (Nat.zero_le _))]
    rfl
  · intro x hx
    exact Nat.lt_succ_of_le (hat x hx).within.2.2
  · intro x hx y hy hlt
    have hle := h.inTime x hx y hy hlt
    have hpx := (hat x hx).within
    have hpy := (hat y hy).within
    omega
  · intro j hj
    obtain ⟨m, rfl | rfl⟩ := Nat.even_or_odd' j
    · rw [show 2 * m / 2 = m by omega, show (2 * m + 1) / 2 = m by omega]
      exact takes_even h hat (hstate m (by omega))
    · rw [show (2 * m + 1) / 2 = m by omega, show (2 * m + 1 + 1) / 2 = m + 1 by omega]
      exact takes_odd h hat (hstate m (by omega)) (hstate (m + 1) (by omega))

end records

end RaftLab
