import RaftLab.Cluster.Committed

set_option autoImplicit false

/-! # The tester's readers of `applyCh`

`start1` of `raft/config.go` gives each server a goroutine that reads `applyCh` and keeps what it
has read in `cfg.logs`, under `cfg.mu`. It stops the program when a server delivers another command
under an index than some server before, or skips an index. `nCommitted` counts the servers that have
delivered an index.

The goroutines are silent exactly when the messages are coherent in the order in which they are read
(`silent_iff_coherent`), and they are silent on every run on which the cluster keeps a ledger, in
whatever order the channels are read.
-/

namespace RaftLab

variable {n : Nat} {C D : Type}

/-- `cfg.logs`, a map from indices to commands for each server, and `cfg.maxIndex`. -/
structure Monitor (n : Nat) (C : Type) where
  logs : Fin n → Int → Option (Option C)
  maxIndex : Int

/-- The values of `err_msg`. -/
inductive ApplyError (n : Nat) (C : Type) where
  /-- `commit index=%v server=%v %v != server=%v %v` -/
  | mismatch (index : Int) (server : Fin n) (command : Option C) (other : Fin n) (old : Option C)
  /-- `server %v apply out of order %v` -/
  | outOfOrder (server : Fin n) (index : Int)
  /-- `committed values do not match: index %v, %v, %v` -/
  | committedMismatch (index : Int) (command other : Option C)

namespace Monitor

variable [DecidableEq C]

def init : Monitor n C := { logs := fun _ _ => none, maxIndex := 0 }

/-- The loop over `cfg.logs`: the last server that has another command under `index`. -/
def clash (m : Monitor n C) (index : Int) (v : Option C) : Option (Fin n × Option C) :=
  (List.finRange n).foldl (fun found j =>
    match m.logs j index with
    | some old => if old ≠ v then some (j, old) else found
    | none => found) none

/-- `cfg.logs[i][index] = v`, with `cfg.maxIndex`. -/
def note (m : Monitor n C) (i : Fin n) (index : Int) (v : Option C) : Monitor n C :=
  { logs := Function.update m.logs i (Function.update (m.logs i) index (some v))
    maxIndex := if index > m.maxIndex then index else m.maxIndex }

/-- The goroutine of server `i` on one message. An error ends the program. -/
def receive (m : Monitor n C) (i : Fin n) (msg : ApplyMsg C D) :
    Except (ApplyError n C) (Monitor n C) :=
  -- other types of messages are ignored
  if msg.commandValid = false then .ok m
  else
    let v := msg.command
    let prevok := (m.logs i (msg.commandIndex - 1)).isSome
    -- the second complaint overwrites the first
    if msg.commandIndex > 1 ∧ prevok = false then .error (.outOfOrder i msg.commandIndex)
    else
      match m.clash msg.commandIndex v with
      | some (j, old) => .error (.mismatch msg.commandIndex i v j old)
      | none => .ok (m.note i msg.commandIndex v)

/-- The readers, one message of one server after the other. -/
def step (m : Monitor n C) (x : Fin n × ApplyMsg C D) : Option (Monitor n C) :=
  (m.receive x.1 x.2).toOption

/-- `nCommitted`: how many servers have delivered `index`, and the command. -/
def nCommitted (m : Monitor n C) (index : Int) : Except (ApplyError n C) (Nat × Option C) :=
  (List.finRange n).foldlM (fun acc i =>
    match m.logs i index with
    | some cmd1 =>
        if acc.1 > 0 ∧ acc.2 ≠ cmd1 then .error (.committedMismatch index acc.2 cmd1)
        else .ok (acc.1 + 1, cmd1)
    | none => .ok acc) (0, none)

/-! ## When the readers are silent -/

/-- After the messages `read`, message `msg` of server `i` is what it should be: it agrees with all
messages under its index, and server `i` has delivered the index before. -/
def Fits (read : List (Fin n × ApplyMsg C D)) (i : Fin n) (msg : ApplyMsg C D) : Prop :=
  msg.commandValid = true →
    (∀ x ∈ read, x.2.commandValid = true → x.2.commandIndex = msg.commandIndex →
      x.2.command = msg.command) ∧
    (1 < msg.commandIndex → ∃ x ∈ read, x.1 = i ∧ x.2.commandValid = true ∧
      x.2.commandIndex = msg.commandIndex - 1)

/-- Every message fits behind those before it. -/
def Coherent (feed : List (Fin n × ApplyMsg C D)) : Prop :=
  ∀ before x after, feed = before ++ x :: after → Fits before x.1 x.2

/-- The maps hold what has been read, and nothing else. -/
def Recorded (m : Monitor n C) (read : List (Fin n × ApplyMsg C D)) : Prop :=
  ∀ i index v, m.logs i index = some v ↔
    ∃ x ∈ read, x.1 = i ∧ x.2.commandValid = true ∧ x.2.commandIndex = index ∧ x.2.command = v

section

variable {m m' : Monitor n C} {read : List (Fin n × ApplyMsg C D)} {i : Fin n}
  {msg : ApplyMsg C D}

omit [DecidableEq C] in
theorem recorded_init : Recorded (init : Monitor n C) ([] : List (Fin n × ApplyMsg C D)) := by
  intro i index v
  simp [init]

/-- No server has another command under the index. -/
theorem clash_eq_none_iff {index : Int} {v : Option C} :
    m.clash index v = none ↔ ∀ j old, m.logs j index = some old → old = v := by
  have key : ∀ (l : List (Fin n)) (found : Option (Fin n × Option C)),
      l.foldl (fun found j =>
        match m.logs j index with
        | some old => if old ≠ v then some (j, old) else found
        | none => found) found = none ↔
      found = none ∧ ∀ j ∈ l, ∀ old, m.logs j index = some old → old = v := by
    intro l
    induction l with
    | nil => simp
    | cons j l ih =>
        intro found
        rw [List.foldl_cons, ih, List.forall_mem_cons]
        cases hj : m.logs j index with
        | none => simp
        | some old =>
            by_cases hv : old = v
            · simp [hv]
            · simp [hv]
  rw [clash, key]
  simp [List.mem_finRange]

/-- The reader accepts a message exactly when the message fits. -/
theorem receive_isOk_iff (h : m.Recorded read) :
    (∃ m', m.receive i msg = .ok m') ↔ Fits read i msg := by
  have hclash : m.clash msg.commandIndex msg.command = none ↔
      ∀ x ∈ read, x.2.commandValid = true → x.2.commandIndex = msg.commandIndex →
        x.2.command = msg.command := by
    rw [clash_eq_none_iff]
    constructor
    · intro hall x hx hvalid hidx
      exact hall x.1 x.2.command ((h _ _ _).mpr ⟨x, hx, rfl, hvalid, hidx, rfl⟩)
    · intro hall j old hold
      obtain ⟨x, hx, -, hvalid, hidx, rfl⟩ := (h _ _ _).mp hold
      exact hall x hx hvalid hidx
  have hprev : (m.logs i (msg.commandIndex - 1)).isSome = true ↔
      ∃ x ∈ read, x.1 = i ∧ x.2.commandValid = true ∧
        x.2.commandIndex = msg.commandIndex - 1 := by
    rw [Option.isSome_iff_exists]
    constructor
    · rintro ⟨v, hv⟩
      obtain ⟨x, hx, hi, hvalid, hidx, -⟩ := (h _ _ _).mp hv
      exact ⟨x, hx, hi, hvalid, hidx⟩
    · rintro ⟨x, hx, hi, hvalid, hidx⟩
      exact ⟨x.2.command, (h _ _ _).mpr ⟨x, hx, hi, hvalid, hidx, rfl⟩⟩
  unfold receive Fits
  rw [← hclash, ← hprev]
  cases hvalid : msg.commandValid with
  | false => simp
  | true =>
      by_cases hord : msg.commandIndex > 1 ∧ (m.logs i (msg.commandIndex - 1)).isSome = false
      · simp [hord]
      · simp only [Bool.true_eq_false, if_false, hord, true_implies]
        cases hc : m.clash msg.commandIndex msg.command with
        | none =>
            simp only [Except.ok.injEq, exists_eq', true_and, true_iff]
            intro hgt
            by_contra hnone
            exact hord ⟨hgt, by simpa using hnone⟩
        | some x => simp

theorem recorded_receive (h : m.Recorded read) (hr : m.receive i msg = .ok m') :
    m'.Recorded (read ++ [(i, msg)]) := by
  have hfits := (receive_isOk_iff h).mp ⟨m', hr⟩
  unfold receive at hr
  cases hvalid : msg.commandValid with
  | false =>
      rw [if_pos hvalid] at hr
      cases hr
      intro j index v
      rw [h j index v]
      simp [hvalid]
  | true =>
      obtain ⟨hagree, -⟩ := hfits hvalid
      have hm' : m' = m.note i msg.commandIndex msg.command := by
        rw [if_neg (by simp [hvalid])] at hr
        simp only at hr
        split at hr
        · cases hr
        · split at hr
          · cases hr
          · exact (Except.ok.inj hr).symm
      subst hm'
      intro j index v
      show Function.update m.logs i _ j index = some v ↔ _
      by_cases hat : j = i ∧ index = msg.commandIndex
      · obtain ⟨rfl, rfl⟩ := hat
        rw [Function.update_self, Function.update_self]
        constructor
        · intro hv
          exact ⟨(j, msg), by simp, rfl, hvalid, rfl, Option.some.inj hv⟩
        · rintro ⟨x, hx, -, hxvalid, hxidx, rfl⟩
          rcases List.mem_append.mp hx with hold | hnew
          · rw [hagree x hold hxvalid hxidx]
          · rw [List.mem_singleton.mp hnew]
      · have hsame : Function.update m.logs i
            (Function.update (m.logs i) msg.commandIndex (some msg.command)) j index =
              m.logs j index := by
          by_cases hj : j = i
          · subst hj
            rw [Function.update_self, Function.update_of_ne (fun heq => hat ⟨rfl, heq⟩)]
          · rw [Function.update_of_ne hj]
        rw [hsame, h j index v]
        constructor
        · rintro ⟨x, hx, hrest⟩
          exact ⟨x, List.mem_append_left _ hx, hrest⟩
        · rintro ⟨x, hx, hi, hxvalid, hxidx, hv⟩
          rcases List.mem_append.mp hx with hold | hnew
          · exact ⟨x, hold, hi, hxvalid, hxidx, hv⟩
          · rw [List.mem_singleton.mp hnew] at hi hxidx
            exact absurd ⟨hi.symm, hxidx.symm⟩ hat

theorem step_eq_some {x : Fin n × ApplyMsg C D} :
    m.step x = some m' ↔ m.receive x.1 x.2 = .ok m' := by
  unfold step
  cases m.receive x.1 x.2 with
  | ok m'' => simp [Except.toOption]
  | error err => simp [Except.toOption]

/-- The maps after a run of the readers. -/
theorem recorded_run {feed : List (Fin n × ApplyMsg C D)}
    (h : Machine.run step (init : Monitor n C) feed = some m) : m.Recorded feed := by
  refine Machine.run_history_induction (J := fun read m => Recorded m read) recorded_init ?_ h
  intro read m x m' _ hrec hstep
  exact recorded_receive hrec (step_eq_some.mp hstep)

theorem exists_run_of_coherent {feed : List (Fin n × ApplyMsg C D)} (hco : Coherent feed) :
    ∃ m, Machine.run step (init : Monitor n C) feed = some m := by
  induction feed using List.reverseRecOn with
  | nil => exact ⟨init, rfl⟩
  | append_singleton feed x ih =>
      obtain ⟨m, hm⟩ := ih (fun before y after heq =>
        hco before y (after ++ [x]) (by rw [heq, List.append_assoc, List.cons_append]))
      obtain ⟨m', hm'⟩ := (receive_isOk_iff (recorded_run hm)).mpr (hco feed x [] rfl)
      refine ⟨m', ?_⟩
      rw [Machine.run_append, hm, Option.bind_some, Machine.run, step_eq_some.mpr hm']
      rfl

/-- **The readers are silent exactly on coherent messages.** -/
theorem silent_iff_coherent (feed : List (Fin n × ApplyMsg C D)) :
    (∃ m, Machine.run step (init : Monitor n C) feed = some m) ↔ Coherent feed := by
  refine ⟨?_, exists_run_of_coherent⟩
  rintro ⟨m, hm⟩ before x after rfl
  rw [Machine.run_append, Option.bind_eq_some_iff] at hm
  obtain ⟨m', hm', hrest⟩ := hm
  obtain ⟨m'', hstep, -⟩ := Machine.run_cons hrest
  exact (receive_isOk_iff (recorded_run hm')).mp ⟨m'', step_eq_some.mp hstep⟩

omit [DecidableEq C] in
/-- In coherent messages an index has one command. -/
theorem Coherent.agree {feed : List (Fin n × ApplyMsg C D)} (h : Coherent feed)
    {x y : Fin n × ApplyMsg C D} (hx : x ∈ feed) (hy : y ∈ feed)
    (hxv : x.2.commandValid = true) (hyv : y.2.commandValid = true)
    (hidx : x.2.commandIndex = y.2.commandIndex) : x.2.command = y.2.command := by
  obtain ⟨before, after, rfl⟩ := List.append_of_mem hx
  rcases List.mem_append.mp hy with hy | hy
  · exact ((h before x after rfl hxv).1 y hy hyv hidx.symm).symm
  · rcases List.mem_cons.mp hy with rfl | hy
    · rfl
    · obtain ⟨between, after, rfl⟩ := List.append_of_mem hy
      exact (h (before ++ x :: between) y after (by simp) hyv).1 x (by simp) hxv hidx

/-- Where all servers agree on an index, `nCommitted` counts those that have delivered it. -/
theorem nCommitted_eq {index : Int}
    (hagree : ∀ i j v w, m.logs i index = some v → m.logs j index = some w → v = w) :
    ∃ cmd, m.nCommitted index =
        .ok ((List.finRange n).countP (fun i => (m.logs i index).isSome), cmd) ∧
      ∀ i v, m.logs i index = some v → v = cmd := by
  -- over the servers that are left, from a count and a command that is right if it is counted
  have key : ∀ (l : List (Fin n)) (count : Nat) (cmd : Option C),
      (0 < count → ∃ j, m.logs j index = some cmd) →
      ∃ cmd', l.foldlM (fun acc i =>
          match m.logs i index with
          | some cmd1 =>
              if acc.1 > 0 ∧ acc.2 ≠ cmd1 then .error (.committedMismatch index acc.2 cmd1)
              else .ok (acc.1 + 1, cmd1)
          | none => .ok acc) (count, cmd) =
        (.ok (count + l.countP (fun i => (m.logs i index).isSome), cmd') :
          Except (ApplyError n C) (Nat × Option C)) ∧
        (0 < count + l.countP (fun i => (m.logs i index).isSome) →
          ∃ j, m.logs j index = some cmd') := by
    intro l
    induction l with
    | nil => exact fun count cmd hcmd => ⟨cmd, rfl, hcmd⟩
    | cons i l ih =>
        intro count cmd hcmd
        rw [List.foldlM_cons]
        cases hi : m.logs i index with
        | none =>
            obtain ⟨cmd', heq, hcmd'⟩ := ih count cmd hcmd
            rw [List.countP_cons_of_neg (by simp [hi])]
            exact ⟨cmd', heq, hcmd'⟩
        | some v =>
            have hok : ¬ (count > 0 ∧ cmd ≠ v) := by
              rintro ⟨hpos, hne⟩
              obtain ⟨j, hj⟩ := hcmd hpos
              exact hne (hagree j i cmd v hj hi)
            obtain ⟨cmd', heq, hcmd'⟩ := ih (count + 1) v (fun _ => ⟨i, hi⟩)
            rw [List.countP_cons_of_pos (by simp [hi]), ← Nat.add_assoc, Nat.add_right_comm]
            refine ⟨cmd', ?_, hcmd'⟩
            simp only [if_neg hok]
            exact heq
  obtain ⟨cmd, heq, hcmd⟩ := key (List.finRange n) 0 none (fun h => absurd h (Nat.lt_irrefl 0))
  rw [Nat.zero_add] at heq hcmd
  refine ⟨cmd, heq, fun i v hi => ?_⟩
  obtain ⟨j, hj⟩ := hcmd (List.countP_pos_iff.mpr ⟨i, List.mem_finRange i, by simp [hi]⟩)
  exact hagree i j v cmd hi hj

end

/-! ## The tester and the cluster -/

section

variable {s : Cluster n C D}

/-- The messages of server `p`, in the order in which they are read. -/
def readOf (feed : List (Fin n × ApplyMsg C D)) (p : Fin n) : List (ApplyMsg C D) :=
  (feed.filter (fun x => x.1 = p)).map Prod.snd

omit [DecidableEq C] in
theorem readOf_append_cons (before after : List (Fin n × ApplyMsg C D)) (x : Fin n × ApplyMsg C D) :
    readOf (before ++ x :: after) x.1 = readOf before x.1 ++ x.2 :: readOf after x.1 := by
  simp [readOf]

omit [DecidableEq C] in
theorem mem_readOf {feed : List (Fin n × ApplyMsg C D)} {x : Fin n × ApplyMsg C D} :
    x ∈ feed ↔ x.2 ∈ readOf feed x.1 := by
  obtain ⟨p, msg⟩ := x
  simp [readOf]

omit [DecidableEq C] in
theorem commandValid_of_mem {first : Int} {l : List (LogEntry C)} {msg : ApplyMsg C D}
    (h : msg ∈ (Raft.applyMsgs first l : List (ApplyMsg C D))) : msg.commandValid = true := by
  obtain ⟨k, hk⟩ := List.mem_iff_getElem?.mp h
  rw [Cluster.getElem?_applyMsgs, Option.map_eq_some_iff] at hk
  obtain ⟨e, -, rfl⟩ := hk
  rfl

omit [DecidableEq C] in
/-- Messages taken from one sequence of entries, the k-th message of each server being the one
for entry k, are coherent. -/
theorem coherent_of_sequence {feed : List (Fin n × ApplyMsg C D)}
    {log : Fin n → List (LogEntry C)}
    (hlog : ∀ p q, log p <+: log q ∨ log q <+: log p)
    (hfeed : ∀ p, readOf feed p <+: Raft.applyMsgs 1 (log p)) : Coherent feed := by
  -- the messages of a server by their positions
  have hget : ∀ (p : Fin n) (k : Nat) (msg : ApplyMsg C D), (readOf feed p)[k]? = some msg →
      ∃ e, (log p)[k]? = some e ∧ msg.commandValid = true ∧ msg.commandIndex = 1 + k ∧
        msg.command = e.command := by
    intro p k msg hk
    obtain ⟨rest, hrest⟩ := hfeed p
    have hmsg : (Raft.applyMsgs 1 (log p) : List (ApplyMsg C D))[k]? = some msg := by
      rw [← hrest, List.getElem?_append_left (List.getElem?_eq_some_iff.mp hk).1, hk]
    rw [Cluster.getElem?_applyMsgs, Option.map_eq_some_iff] at hmsg
    obtain ⟨e, he, rfl⟩ := hmsg
    exact ⟨e, he, rfl, rfl, rfl⟩
  have hat : ∀ (before after : List (Fin n × ApplyMsg C D)) (x : Fin n × ApplyMsg C D),
      feed = before ++ x :: after → ∃ e, (log x.1)[(readOf before x.1).length]? = some e ∧
        x.2.commandIndex = 1 + (readOf before x.1).length ∧ x.2.command = e.command := by
    intro before after x heq
    obtain ⟨e, he, -, hidx, hcmd⟩ := hget x.1 (readOf before x.1).length x.2
      (by rw [heq, readOf_append_cons]; simp)
    exact ⟨e, he, hidx, hcmd⟩
  intro before x after heq _
  obtain ⟨e, he, hidx, hcmd⟩ := hat before after x heq
  constructor
  · intro y hy _ hyidx
    obtain ⟨before', after', rfl⟩ := List.append_of_mem hy
    obtain ⟨e', he', hidx', hcmd'⟩ := hat before' (after' ++ x :: after) y
      (by rw [heq, List.append_assoc, List.cons_append])
    have hlen : (readOf before' y.1).length =
        (readOf (before' ++ y :: after') x.1).length := by omega
    -- one of the two sequences is a prefix of the other
    have hee : e' = e := by
      rw [hlen] at he'
      rcases hlog y.1 x.1 with ⟨r, hr⟩ | ⟨r, hr⟩
      · rw [← hr, List.getElem?_append_left (List.getElem?_eq_some_iff.mp he').1, he'] at he
        exact Option.some.inj he
      · rw [← hr, List.getElem?_append_left (List.getElem?_eq_some_iff.mp he).1, he] at he'
        exact (Option.some.inj he').symm
    rw [hcmd, hcmd', hee]
  · intro hgt
    -- the message of the same server just before this one
    obtain ⟨k, hk⟩ : ∃ k, (readOf before x.1).length = k + 1 :=
      ⟨(readOf before x.1).length - 1, by omega⟩
    obtain ⟨msg, hmsg⟩ : ∃ msg, (readOf before x.1)[k]? = some msg :=
      ⟨_, List.getElem?_eq_getElem (by omega)⟩
    obtain ⟨-, -, hvalid, hprev, -⟩ := hget x.1 k msg (by
      rw [heq, readOf_append_cons, List.getElem?_append_left (by omega), hmsg])
    obtain ⟨y, hy, rfl⟩ := List.mem_map.mp (List.mem_of_getElem? hmsg)
    obtain ⟨hmem, hserver⟩ := List.mem_filter.mp hy
    exact ⟨y, hmem, of_decide_eq_true hserver, hvalid, by omega⟩

/-- **The tester accepts.** On a run on which the cluster keeps a ledger, the readers of `applyCh`
never complain, in whatever order they come to read the channels; and `nCommitted` never
complains either, but counts the servers whose reader has read the index. -/
theorem tester_accepts {es : List (Event n C D)}
    (hok : Machine.Along Cluster.step Cluster.KeepsLedger Cluster.init es)
    (hr : Cluster.runFrom es = some s) {feed : List (Fin n × ApplyMsg C D)}
    (hfeed : ∀ p, readOf feed p <+: s.applied p) :
    ∃ m, Machine.run step (init : Monitor n C) feed = some m ∧
      ∀ index, ∃ cmd, m.nCommitted index = .ok ((List.finRange n).countP (fun i =>
          decide (∃ msg ∈ readOf feed i, msg.commandIndex = index)), cmd) ∧
        ∀ i, ∀ msg ∈ readOf feed i, msg.commandIndex = index → msg.command = cmd := by
  obtain ⟨a, -, h, ho, -⟩ := Cluster.orderly_run Cluster.shows_init Cluster.orderly_init hok hr
  have hfeed' : ∀ p, readOf feed p <+: Raft.applyMsgs 1 (s.peers p).committed :=
    fun p => (hfeed p).trans (ho.applied_isPrefix p)
  have hco : Coherent feed := coherent_of_sequence (fun p q =>
    Cluster.committed_comparable h.sound (h.peers p).commit (h.peers q).commit) hfeed'
  have hmem : ∀ {x : Fin n × ApplyMsg C D}, x ∈ feed ↔ x.2 ∈ readOf feed x.1 := mem_readOf
  have hvalid : ∀ x ∈ feed, x.2.commandValid = true := fun x hx =>
    commandValid_of_mem ((hfeed' x.1).subset (hmem.mp hx))
  obtain ⟨m, hm⟩ := exists_run_of_coherent hco
  have hrec := recorded_run hm
  refine ⟨m, hm, fun index => ?_⟩
  -- what a map holds under the index has been read by that server
  have hlogs : ∀ i v, m.logs i index = some v ↔
      ∃ msg ∈ readOf feed i, msg.commandIndex = index ∧ msg.command = v := by
    intro i v
    rw [hrec i index v]
    constructor
    · rintro ⟨x, hx, rfl, -, hidx, hv⟩
      exact ⟨x.2, hmem.mp hx, hidx, hv⟩
    · rintro ⟨msg, hmsg, hidx, hv⟩
      have hx : (i, msg) ∈ feed := hmem.mpr hmsg
      exact ⟨(i, msg), hx, rfl, hvalid _ hx, hidx, hv⟩
  have hagree : ∀ i j v w, m.logs i index = some v → m.logs j index = some w → v = w := by
    intro i j v w hi hj
    obtain ⟨msg, hmsg, hidx, rfl⟩ := (hlogs i v).mp hi
    obtain ⟨msg', hmsg', hidx', rfl⟩ := (hlogs j w).mp hj
    have hx : (i, msg) ∈ feed := hmem.mpr hmsg
    have hy : (j, msg') ∈ feed := hmem.mpr hmsg'
    exact hco.agree hx hy (hvalid _ hx) (hvalid _ hy) (hidx.trans hidx'.symm)
  obtain ⟨cmd, hcount, hcmd⟩ := nCommitted_eq hagree
  refine ⟨cmd, ?_, fun i msg hmsg hidx => hcmd i _ ((hlogs i _).mpr ⟨msg, hmsg, hidx, rfl⟩)⟩
  rw [hcount]
  congr 2
  refine List.countP_congr fun i _ => ?_
  rw [decide_eq_true_iff, Option.isSome_iff_exists]
  constructor
  · rintro ⟨v, hv⟩
    obtain ⟨msg, hmsg, hidx, -⟩ := (hlogs i v).mp hv
    exact ⟨msg, hmsg, hidx⟩
  · rintro ⟨msg, hmsg, hidx⟩
    exact ⟨msg.command, (hlogs i _).mpr ⟨msg, hmsg, hidx, rfl⟩⟩

/-- The deliveries of `oneCommand`, read at server `1` first. -/
def oneCommandFeed : List (Fin 3 × ApplyMsg Nat Unit) :=
  [(1, ⟨true, some 7, 1, false, none⟩), (0, ⟨true, some 7, 1, false, none⟩)]

theorem tester_accepts_oneCommand :
    ∃ m, Machine.run step (init : Monitor 3 Nat) oneCommandFeed = some m ∧
      ∃ cmd, m.nCommitted 1 = .ok (2, cmd) := by
  have hok : Machine.Along Cluster.step Cluster.KeepsLedger Cluster.init Cluster.oneCommand := by
    decide
  have hrun : (Cluster.runFrom Cluster.oneCommand).any (fun s =>
      s.applied 0 = [⟨true, some 7, 1, false, none⟩] ∧
      s.applied 1 = [⟨true, some 7, 1, false, none⟩] ∧ s.applied 2 = []) = true := by decide
  obtain ⟨s, hs, hex⟩ := (Option.any_eq_true _ _).mp hrun
  obtain ⟨h0, h1, h2⟩ := of_decide_eq_true hex
  have hfeed : ∀ p, readOf oneCommandFeed p <+: s.applied p := by
    intro p
    match p with
    | 0 => rw [h0]; exact List.prefix_refl _
    | 1 => rw [h1]; exact List.prefix_refl _
    | 2 => rw [h2]; exact List.prefix_refl _
  obtain ⟨m, hm, hcount⟩ := tester_accepts hok hs hfeed
  obtain ⟨cmd, hcmd, -⟩ := hcount 1
  exact ⟨m, hm, cmd, hcmd⟩

end

end Monitor

end RaftLab
