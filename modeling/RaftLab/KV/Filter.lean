import RaftLab.Lib.Fresh
import RaftLab.KV.Clerk
import RaftLab.KV.History

set_option autoImplicit false

/-! # The duplicate table as a filter

`applyDaemon` consumes a list of commands and decides by the duplicate table which of them to
execute. `Filtered` says what the two tables hold after any list of commands, without reference to
the table itself: the store is what the fresh commands make of an empty one, a command being fresh
when its sequence number exceeds that of every earlier command of its client, and a client's record
is that of its last fresh command. The step lemma is `Filtered.applyOp`.
-/

namespace RaftLab

open Fresh (IsFresh IsFirst kept)

/-! ## What the store should be -/

namespace Op

/-- The operation is one of the three that `applyDaemon` knows. -/
def Known (op : Op) : Prop := op.op = .get ∨ op.op = .put ∨ op.op = .append

instance (op : Op) : Decidable op.Known :=
  inferInstanceAs (Decidable (op.op = .get ∨ op.op = .put ∨ op.op = .append))

/-- What the operation makes of a store. -/
def applyTo (op : Op) (db : String → Option String) : String → Option String :=
  match op.op with
  | .put => Function.update db op.key (some op.value)
  | .append => Function.update db op.key (some ((db op.key).getD "" ++ op.value))
  | _ => db

/-- Other keys are left alone. -/
theorem applyTo_of_ne {op : Op} {key : String} (h : key ≠ op.key) (db : String → Option String) :
    op.applyTo db key = db key := by
  cases hop : op.op <;> simp only [applyTo, hop]
  · exact Function.update_of_ne h _ _
  · exact Function.update_of_ne h _ _

/-- The operation appends to `key`. -/
def AppendsTo (key : String) (op : Op) : Prop := op.op = .append ∧ op.key = key

instance (key : String) (op : Op) : Decidable (op.AppendsTo key) :=
  inferInstanceAs (Decidable (op.op = .append ∧ op.key = key))

end Op

/-- The store after the operations, applied one after the other to an empty one. -/
def plainDb (ops : List Op) : String → Option String :=
  ops.foldl (fun db op => op.applyTo db) fun _ => none

/-- The commands whose sequence number exceeds that of every earlier command of the same client. -/
def freshOps (ops : List Op) : List Op := kept (IsFresh Op.clientID Op.seqNo) ops

/-- The commands that are not repetitions of an earlier request of the same client. -/
def firstOps (ops : List Op) : List Op := kept (IsFirst Op.clientID Op.seqNo) ops

theorem freshOps_concat_of_pos {ops : List Op} {op : Op}
    (h : IsFresh Op.clientID Op.seqNo ops op) : freshOps (ops ++ [op]) = freshOps ops ++ [op] :=
  Fresh.kept_concat_of_pos h

theorem freshOps_concat_of_neg {ops : List Op} {op : Op}
    (h : ¬ IsFresh Op.clientID Op.seqNo ops op) : freshOps (ops ++ [op]) = freshOps ops :=
  Fresh.kept_concat_of_neg h

theorem plainDb_concat (ops : List Op) (op : Op) :
    plainDb (ops ++ [op]) = op.applyTo (plainDb ops) := by
  rw [plainDb, List.foldl_append]
  rfl

/-- The value is the one that the last `Put` to the key has stored, if there is one, followed by
what the `Append`s after it have appended, in their order. -/
def SpelledBy (ops : List Op) (key value : String) : Prop :=
  ∃ base before after, ops = before ++ after ∧
    ((before = [] ∧ base = "") ∨
      ∃ rest op, before = rest ++ [op] ∧ op.op = .put ∧ op.key = key ∧ op.value = base) ∧
    (∀ op ∈ after, op.op = .put → op.key ≠ key) ∧
    value = (after.filter (Op.AppendsTo key)).foldl (fun v op => v ++ op.value) base

namespace SpelledBy

variable {ops : List Op} {op : Op} {key value : String}

/-- A `Put` starts over. -/
theorem put (ops : List Op) (hop : op.op = .put) : SpelledBy (ops ++ [op]) op.key op.value :=
  ⟨op.value, ops ++ [op], [], (List.append_nil _).symm, .inr ⟨ops, op, rfl, hop, rfl, rfl⟩,
    by simp, rfl⟩

/-- Any other operation goes to the second part, where it counts if it appends to the key. -/
theorem concat (h : SpelledBy ops key value) (hop : op.op = .put → op.key ≠ key) :
    SpelledBy (ops ++ [op]) key (if op.AppendsTo key then value ++ op.value else value) := by
  obtain ⟨base, before, after, rfl, hbase, hnoput, rfl⟩ := h
  refine ⟨base, before, after ++ [op], List.append_assoc _ _ _, hbase, ?_, ?_⟩
  · exact List.forall_mem_append.mpr ⟨hnoput, List.forall_mem_singleton.mpr hop⟩
  · rw [List.filter_append, List.foldl_append]
    by_cases happend : op.AppendsTo key
    · rw [if_pos happend, List.filter_cons_of_pos (by simpa using happend)]
      rfl
    · rw [if_neg happend, List.filter_cons_of_neg (by simpa using happend)]
      rfl

end SpelledBy

theorem spelledBy_plainDb (ops : List Op) (key : String) :
    SpelledBy ops key ((plainDb ops key).getD "") := by
  induction ops using List.reverseRecOn with
  | nil => exact ⟨"", [], [], rfl, .inl ⟨rfl, rfl⟩, by simp, rfl⟩
  | append_singleton ops op ih =>
      rw [plainDb_concat]
      by_cases hput : op.op = .put ∧ op.key = key
      · obtain ⟨hop, rfl⟩ := hput
        have hvalue : op.applyTo (plainDb ops) op.key = some op.value := by simp [Op.applyTo, hop]
        rw [hvalue]
        exact .put ops hop
      · have hvalue : (op.applyTo (plainDb ops) key).getD ""
            = if op.AppendsTo key then (plainDb ops key).getD "" ++ op.value
              else (plainDb ops key).getD "" := by
          by_cases hkey : op.key = key
          · subst hkey
            cases hop : op.op with
            | put => exact absurd ⟨hop, rfl⟩ hput
            | get => simp [Op.applyTo, Op.AppendsTo, hop]
            | append => simp [Op.applyTo, Op.AppendsTo, hop]
            | other name => simp [Op.applyTo, Op.AppendsTo, hop]
          · rw [Op.applyTo_of_ne (Ne.symm hkey), if_neg fun happend => hkey happend.2]
        rw [hvalue]
        exact ih.concat fun hop hkey => hput ⟨hop, hkey⟩

/-! ## The tables after a list of commands -/

/-- The record of client `c` after the commands `ops`: it is that of a fresh command, whose
sequence number is the largest of the client; for a `Get` it holds the value the key had there. -/
def RecordOf (ops : List Op) (c : Int) : Option LatestReply → Prop
  | none => ∀ op ∈ ops, op.clientID ≠ c
  | some dup => ∃ before op after, ops = before ++ op :: after ∧ op.clientID = c ∧
      op.seqNo = dup.seq ∧ IsFresh Op.clientID Op.seqNo before op ∧
      (∀ op' ∈ ops, op'.clientID = c → op'.seqNo ≤ dup.seq) ∧
      dup.reply = Tables.replyOf
        (if op.op = .get then (plainDb (freshOps before) op.key).getD "" else "")

/-- The tables after the commands `ops`. -/
structure Filtered (ops : List Op) (t : Tables) : Prop where
  db : t.db = plainDb (freshOps ops)
  duplicate : ∀ c, RecordOf ops c (t.duplicate c)

namespace Filtered

variable {ops : List Op} {op : Op} {t t' : Tables}

theorem nil : Filtered [] Tables.empty :=
  ⟨rfl, fun _ _ hop => absurd hop List.not_mem_nil⟩

/-- The test of `applyDaemon` finds the fresh commands. -/
theorem isNew_iff (h : Filtered ops t) :
    t.isNew op.clientID op.seqNo = true ↔ IsFresh Op.clientID Op.seqNo ops op := by
  have hrecord := h.duplicate op.clientID
  unfold Tables.isNew
  cases hd : t.duplicate op.clientID with
  | none =>
      rw [hd] at hrecord
      exact iff_of_true rfl fun op' hop' hc => absurd hc (hrecord op' hop')
  | some dup =>
      rw [hd] at hrecord
      obtain ⟨before, last, after, rfl, hc, hseq, -, hmax, -⟩ := hrecord
      simp only [decide_eq_true_eq]
      constructor
      · intro hlt op' hop' hc'
        exact lt_of_le_of_lt (hmax op' hop' hc') hlt
      · intro hfresh
        rw [← hseq]
        exact hfresh last (by simp) hc

/-- A record that a command of another client, or a command that is not fresh, leaves alone. -/
theorem recordOf_concat {c : Int} {o : Option LatestReply} (h : RecordOf ops c o)
    (hop : op.clientID = c → ¬ IsFresh Op.clientID Op.seqNo ops op) :
    RecordOf (ops ++ [op]) c o := by
  cases o with
  | none =>
      intro op' hop'
      rcases List.mem_append.mp hop' with hop' | hop'
      · exact h op' hop'
      · rw [List.mem_singleton.mp hop']
        intro hc
        refine hop hc fun b hb hbc => absurd (hbc.trans hc) (h b hb)
  | some dup =>
      obtain ⟨before, last, after, rfl, hc, hseq, hfresh, hmax, hreply⟩ := h
      refine ⟨before, last, after ++ [op], by simp, hc, hseq, hfresh, ?_, hreply⟩
      intro op' hop' hc'
      rcases List.mem_append.mp hop' with hop' | hop'
      · exact hmax op' hop' hc'
      · obtain rfl := List.mem_singleton.mp hop'
        have hnot := hop hc'
        unfold IsFresh at hnot
        push Not at hnot
        obtain ⟨b, hb, hbc, hle⟩ := hnot
        exact le_trans hle (hmax b hb (hbc.trans hc'))

/-- A fresh command that is executed leaves its record. -/
theorem recordOf_executed {reply : GetReply} (h : Filtered ops t)
    (hfresh : IsFresh Op.clientID Op.seqNo ops op)
    (hreply : reply = Tables.replyOf (if op.op = .get then t.lookup op.key else "")) :
    RecordOf (ops ++ [op]) op.clientID (some { seq := op.seqNo, reply := reply }) := by
  refine ⟨ops, op, [], rfl, rfl, rfl, hfresh, fun op' hop' hc => ?_, ?_⟩
  · rcases List.mem_append.mp hop' with hop' | hop'
    · exact le_of_lt (hfresh op' hop' hc)
    · rw [List.mem_singleton.mp hop']
  · rw [hreply, Tables.lookup, h.db]

/-- A known command is executed: it acts on the store and leaves its record. -/
theorem execute_eq (hknown : op.Known) (t : Tables) :
    t.execute op = some
      { db := op.applyTo t.db
        duplicate := Function.update t.duplicate op.clientID (some
          { seq := op.seqNo
            reply := Tables.replyOf (if op.op = .get then t.lookup op.key else "") }) } := by
  rcases hknown with hop | hop | hop <;> simp only [Tables.execute, Op.applyTo, hop] <;> rfl

/-- **One more command.** -/
theorem applyOp (h : Filtered ops t) (hknown : op.Known) :
    ∃ t', t.applyOp op = some t' ∧ Filtered (ops ++ [op]) t' := by
  by_cases hfresh : IsFresh Op.clientID Op.seqNo ops op
  · refine ⟨_, by rw [Tables.applyOp, if_pos (h.isNew_iff.mpr hfresh), execute_eq hknown], ?_, ?_⟩
    · show op.applyTo t.db = _
      rw [freshOps_concat_of_pos hfresh, plainDb_concat, h.db]
    · intro c
      by_cases hc : op.clientID = c
      · subst hc
        show RecordOf _ _ (Function.update t.duplicate op.clientID _ _)
        rw [Function.update_self]
        exact h.recordOf_executed hfresh rfl
      · show RecordOf _ _ (Function.update t.duplicate op.clientID _ _)
        rw [Function.update_of_ne (Ne.symm hc)]
        exact recordOf_concat (h.duplicate c) fun heq => absurd heq hc
  · refine ⟨t, ?_, ?_, fun c => recordOf_concat (h.duplicate c) fun _ => hfresh⟩
    · have hold : ¬ t.isNew op.clientID op.seqNo = true := fun hnew => hfresh (h.isNew_iff.mp hnew)
      rw [Tables.applyOp, if_neg hold]
    · rw [freshOps_concat_of_neg hfresh, h.db]

end Filtered

/-! ## A server that is fed with commands -/

section feed

variable {ns : Nat}

/-- The command branch of `applyDaemon` for the next command, with the size of the Raft state that
`needSnapshot` reads. -/
def feed (r : Replica ns) (msg : Int × Op) : Option (Replica ns) :=
  (System.consume r msg.1 (some msg.2)).map Prod.fst

/-- A new server. -/
def newReplica (ns : Nat) (maxraftstate : Int) : Replica ns :=
  { kv := KVServer.startKVServer maxraftstate (Persister.makePersister (n := ns))
    persister := Persister.makePersister
    term := 0
    leader := false
    applied := 0 }

/-- A server that has consumed the commands `ops`. -/
structure Replica.Fed (r : Replica ns) (ops : List Op) : Prop where
  tables : Filtered ops r.kv.toTables
  applied : r.applied = ops.length
  label : r.kv.snapshotIndex ≤ ops.length

/-- The command branch returns when the command can be applied. -/
theorem exists_consume {r : Replica ns} {op : Op} {t : Tables} (size : Int)
    (h : r.kv.applyOp op = some t) : ∃ out, System.consume r size (some op) = some out := by
  simp only [System.consume, KVServer.applyCommand, h, Option.bind_eq_bind, Option.bind_some]
  split
  · split <;> exact ⟨_, rfl⟩
  · exact ⟨_, rfl⟩

theorem Replica.Fed.feed {r : Replica ns} {ops : List Op} {op : Op} (h : r.Fed ops)
    (hknown : op.Known) (size : Int) :
    ∃ r', feed r (size, op) = some r' ∧ r'.Fed (ops ++ [op]) := by
  obtain ⟨t, ht, hfiltered⟩ := h.tables.applyOp hknown
  obtain ⟨⟨r', ch⟩, hout⟩ := exists_consume size ht
  have hlabel := h.label
  have happ := h.applied
  refine ⟨r', by rw [RaftLab.feed, hout]; rfl, ?_⟩
  obtain ⟨happ', ⟨hskip, -, -⟩ | ⟨cmd, t', hcmd, ht', htab, hidx, -, -⟩⟩ :=
    System.consume_cases hout
  · -- the index is above the label, so nothing is skipped
    rcases hskip with hnone | hle
    · cases hnone
    · omega
  · obtain rfl : op = cmd := Option.some.inj hcmd
    obtain rfl : t = t' := Option.some.inj (ht.symm.trans ht')
    refine ⟨htab ▸ hfiltered, ?_, ?_⟩
    · rw [happ', happ, List.length_append, List.length_singleton]
    · rw [List.length_append, List.length_singleton]
      omega

/-- Feeding a new server with a list of commands. -/
theorem run_feed (ns : Nat) (maxraftstate : Int) {msgs : List (Int × Op)}
    (hknown : ∀ msg ∈ msgs, msg.2.Known) :
    ∃ r, Machine.run feed (newReplica ns maxraftstate) msgs = some r ∧
      r.Fed (msgs.map Prod.snd) := by
  -- the commands that were consumed form a prefix: induction from the back
  induction msgs using List.reverseRecOn with
  | nil => exact ⟨_, rfl, Filtered.nil, rfl, Int.le_refl 0⟩
  | append_singleton msgs msg ih =>
      obtain ⟨r, hrun, hfed⟩ := ih fun m hm => hknown m (List.mem_append_left _ hm)
      obtain ⟨r', hstep, hfed'⟩ := hfed.feed (hknown msg (by simp)) msg.1
      refine ⟨r', ?_, by rw [List.map_append]; exact hfed'⟩
      rw [Machine.run_append, hrun, Option.bind_some, Machine.run, hstep]
      rfl

end feed

/-! ## Where a request takes effect -/

/-- The log of the commands can be replayed, with the tables that the commands leave. -/
theorem exists_reflects_filtered {ops : List Op} (hknown : ∀ op ∈ ops, op.Known) {i : Nat}
    (hi : i ≤ ops.length) :
    ∃ t, Tables.Reflects (ops.map some) i t ∧ Filtered (ops.take i) t := by
  induction i with
  | zero => exact ⟨_, Replay.Reflects.zero _ _ _, Filtered.nil⟩
  | succ i ih =>
      obtain ⟨t, hrefl, hfiltered⟩ := ih (by omega)
      have hget : ops[i]? = some ops[i] := List.getElem?_eq_getElem (by omega)
      obtain ⟨t', ht', hfiltered'⟩ := hfiltered.applyOp (hknown ops[i] (List.getElem_mem _))
      refine ⟨t', hrefl.succ (c := some ops[i]) ?_ ht', ?_⟩
      · rw [List.getElem?_map, hget]
        rfl
      · rw [← List.take_append_getElem (by omega)]
        exact hfiltered'

/-- A command takes effect exactly where it is fresh. -/
theorem takesEffect_iff {ops : List Op} (hknown : ∀ op ∈ ops, op.Known) {i : Nat} {op : Op} :
    TakesEffect (ops.map some) i op ↔
      ops[i]? = some op ∧ IsFresh Op.clientID Op.seqNo (ops.take i) op := by
  have hentry : (ops.map some)[i]? = some (some op) ↔ ops[i]? = some op := by
    rw [List.getElem?_map]
    cases ops[i]? <;> simp
  constructor
  · rintro ⟨hget, t, t', hrefl, hnew, -⟩
    have hget' := hentry.mp hget
    obtain ⟨u, hu, hfiltered⟩ := exists_reflects_filtered hknown
      (Nat.le_of_lt (Records.lt_length_of_getElem? hget'))
    obtain rfl := hrefl.unique hu
    exact ⟨hget', hfiltered.isNew_iff.mp hnew⟩
  · rintro ⟨hget, hfresh⟩
    obtain ⟨t, hrefl, hfiltered⟩ := exists_reflects_filtered hknown
      (Nat.le_of_lt (Records.lt_length_of_getElem? hget))
    have hexecuted := Filtered.execute_eq (hknown op (List.mem_of_getElem? hget)) t
    exact ⟨hentry.mpr hget, t, _, hrefl, hfiltered.isNew_iff.mpr hfresh, hexecuted⟩

/-- The requests of each client first appear in the order of their sequence numbers. -/
def RisingRequests (ops : List Op) : Prop :=
  (firstOps ops).Pairwise fun a b => a.clientID = b.clientID → a.seqNo < b.seqNo

instance (ops : List Op) : Decidable (RisingRequests ops) :=
  inferInstanceAs (Decidable (List.Pairwise _ _))

namespace RisingRequests

variable {ops : List Op}

theorem isFresh_iff_isFirst (h : RisingRequests ops) {i : Nat} {op : Op} (hi : ops[i]? = some op) :
    IsFresh Op.clientID Op.seqNo (ops.take i) op ↔
      IsFirst Op.clientID Op.seqNo (ops.take i) op := by
  obtain ⟨hlt, rfl⟩ := List.getElem?_eq_some_iff.mp hi
  refine Fresh.isFresh_iff_isFirst (ops.take i) (ops.drop (i + 1)) ?_
  rw [← List.drop_eq_getElem_cons hlt, List.take_append_drop]
  exact h

theorem freshOps_eq (h : RisingRequests ops) : freshOps ops = firstOps ops := by
  refine Fresh.kept_congr fun before a after hsplit => Fresh.isFresh_iff_isFirst before after ?_
  rw [← hsplit]
  exact h

end RisingRequests

/-- Every request takes effect exactly once, where it stands first, when the requests of each
client first appear in order. -/
theorem RisingRequests.takesEffect_once {ops : List Op} (h : RisingRequests ops)
    (hknown : ∀ op ∈ ops, op.Known) {c σ : Int}
    (hocc : ∃ op ∈ ops, op.clientID = c ∧ op.seqNo = σ) :
    ∃ (i : Nat) (op : Op), op.clientID = c ∧ op.seqNo = σ ∧ TakesEffect (ops.map some) i op ∧
      ∀ (j : Nat) (op' : Op), ops[j]? = some op' → op'.clientID = c → op'.seqNo = σ →
        i ≤ j ∧ (TakesEffect (ops.map some) j op' → j = i) := by
  obtain ⟨i, op, hget, hc, hσ, hfirst, honly⟩ := Fresh.exists_position hocc
  refine ⟨i, op, hc, hσ, ?_, fun j op' hget' hc' hσ' => ?_⟩
  · exact (takesEffect_iff hknown).mpr ⟨hget, (h.isFresh_iff_isFirst hget).mpr hfirst⟩
  · obtain ⟨hle, hunique⟩ := honly j op' hget' hc' hσ'
    refine ⟨hle, fun heffect => hunique ?_⟩
    exact (h.isFresh_iff_isFirst hget').mp ((takesEffect_iff hknown).mp heffect).2

/-- **The duplicate table makes application exactly-once.** Fed with any list of commands, a new
server ends with the store that the fresh ones make of an empty one, and with the records of each
client's largest sequence number. If the requests of each client first appear in order, every
request takes effect exactly once, where it stands first: the store is made by the first
occurrences, and of each client's `Append`s to a key each stands once in the value, in the order of
their sequence numbers. -/
theorem duplicate_table_exactly_once (ns : Nat) (maxraftstate : Int) {msgs : List (Int × Op)}
    (hknown : ∀ msg ∈ msgs, msg.2.Known) :
    ∃ r, Machine.run feed (newReplica ns maxraftstate) msgs = some r ∧
      r.kv.db = plainDb (freshOps (msgs.map Prod.snd)) ∧
      (∀ c, RecordOf (msgs.map Prod.snd) c (r.kv.duplicate c)) ∧
      (RisingRequests (msgs.map Prod.snd) →
        r.kv.db = plainDb (firstOps (msgs.map Prod.snd)) ∧
        (∀ c σ, (∃ op ∈ msgs.map Prod.snd, op.clientID = c ∧ op.seqNo = σ) →
          ∃ (i : Nat) (op : Op), op.clientID = c ∧ op.seqNo = σ ∧
            TakesEffect ((msgs.map Prod.snd).map some) i op ∧
            ∀ (j : Nat) (op' : Op), (msgs.map Prod.snd)[j]? = some op' → op'.clientID = c →
              op'.seqNo = σ →
              i ≤ j ∧ (TakesEffect ((msgs.map Prod.snd).map some) j op' → j = i)) ∧
        ∀ key, SpelledBy (firstOps (msgs.map Prod.snd)) key (r.kv.lookup key)) := by
  obtain ⟨r, hrun, hfed⟩ := run_feed ns maxraftstate hknown
  refine ⟨r, hrun, hfed.tables.db, hfed.tables.duplicate, fun hrising => ⟨?_, ?_, fun key => ?_⟩⟩
  · rw [hfed.tables.db, hrising.freshOps_eq]
  · intro c σ hocc
    refine hrising.takesEffect_once (fun op hop => ?_) hocc
    obtain ⟨msg, hmsg, rfl⟩ := List.mem_map.mp hop
    exact hknown msg hmsg
  · rw [Tables.lookup, hfed.tables.db, hrising.freshOps_eq]
    exact spelledBy_plainDb _ key

/-- Two clients append to one key; the first one's requests come again, and out of place. -/
def repeatedAppends : List (Int × Op) :=
  [(0, { key := "x", value := "a", op := .append, clientID := 7, seqNo := 1 }),
   (0, { key := "x", value := "c", op := .append, clientID := 8, seqNo := 1 }),
   (0, { key := "x", value := "a", op := .append, clientID := 7, seqNo := 1 }),
   (0, { key := "x", value := "b", op := .append, clientID := 7, seqNo := 2 }),
   (0, { key := "x", value := "a", op := .append, clientID := 7, seqNo := 1 })]

theorem duplicate_table_exactly_once_repeatedAppends :
    ∃ r, Machine.run feed (newReplica 3 (-1)) repeatedAppends = some r ∧
      r.kv.db "x" = some "acb" := by
  have hknown : ∀ msg ∈ repeatedAppends, msg.2.Known := by decide
  obtain ⟨r, hrun, -, -, hrising⟩ := duplicate_table_exactly_once 3 (-1) hknown
  exact ⟨r, hrun, by rw [(hrising (by decide)).1]; decide⟩

end RaftLab
