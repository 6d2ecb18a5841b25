import RaftLab.KV.Server

set_option autoImplicit false

/-! # What the committed log says about a request

A request may stand in the committed log several times. `TakesEffect log i op` says that
`applyDaemon` executes the entry at position `i`, instead of filtering it as a duplicate. It
does so for at most one position of a request (`TakesEffect.unique`), and, when every client
has its requests committed in the order of their sequence numbers (`InSequence`), for the
first one (`exists_takesEffect`). A record of the duplicate table comes from an entry that
took effect, with the value that a `Get` read there (`duplicate_source`).
-/

namespace RaftLab

namespace Tables

variable {log : List (Option Op)} {m : Nat} {t : Tables}

/-- A command that is executed as a `Get` leaves the store alone and records the value. -/
theorem execute_get {t' : Tables} {op : Op} (hop : op.op = .get)
    (h : t.execute op = some t') :
    t'.lookup = t.lookup ∧ t'.duplicate op.clientID =
      some { seq := op.seqNo, reply := replyOf (t.lookup op.key) } := by
  unfold execute at h
  rw [hop] at h
  cases h
  exact ⟨rfl, Function.update_self _ _ _⟩

/-- A record of the duplicate table belongs to an entry of the prefix; if that is a `Get`, the
record holds the value of its key after the entry. -/
theorem duplicate_source {c : Int} {dup : LatestReply} (h : Reflects log m t)
    (hd : t.duplicate c = some dup) :
    ∃ j op u, j < m ∧ log[j]? = some (some op) ∧ op.clientID = c ∧ op.seqNo = dup.seq ∧
      Reflects log (j + 1) u ∧ (op.op = .get → dup.reply.value = u.lookup op.key) := by
  induction m generalizing t with
  | zero =>
      obtain rfl : empty = t := (Replay.Reflects.zero _ _ _).unique h
      cases hd
  | succ m ih =>
      obtain ⟨command, t₀, hc, ht₀, happ⟩ := h.pred
      -- the record is the one of the last entry, or it was there before
      have hold : t₀.duplicate c = some dup → ∃ j op u, j < m + 1 ∧
          log[j]? = some (some op) ∧ op.clientID = c ∧ op.seqNo = dup.seq ∧
          Reflects log (j + 1) u ∧ (op.op = .get → dup.reply.value = u.lookup op.key) := by
        intro hd₀
        obtain ⟨j, op, u, hj, hrest⟩ := ih ht₀ hd₀
        exact ⟨j, op, u, by omega, hrest⟩
      cases command with
      | none =>
          obtain rfl : t₀ = t := Option.some.inj happ
          exact hold hd
      | some op =>
          rcases applyOp_cases happ with ⟨-, hex⟩ | ⟨-, rfl⟩
          · obtain ⟨reply, heq⟩ := execute_duplicate hex
            by_cases hcl : c = op.clientID
            · subst hcl
              rw [heq, Function.update_self] at hd
              obtain rfl := Option.some.inj hd
              refine ⟨m, op, t, by omega, hc, rfl, rfl, h, ?_⟩
              intro hget
              obtain ⟨hlook, hrec⟩ := execute_get hget hex
              rw [heq, Function.update_self] at hrec
              have hreply : reply = replyOf (t₀.lookup op.key) :=
                congrArg LatestReply.reply (Option.some.inj hrec)
              rw [hreply, hlook]
              rfl
            · rw [heq, Function.update_of_ne hcl] at hd
              exact hold hd
          · exact hold hd

end Tables

open Tables (Reflects)

variable {log : List (Option Op)} {i j m : Nat} {op op' : Op}

/-- The entry at position `i` is `op`, and `applyDaemon` executes it. -/
structure TakesEffect (log : List (Option Op)) (i : Nat) (op : Op) : Prop where
  entry : log[i]? = some (some op)
  executed : ∃ t t', Reflects log i t ∧ t.isNew op.clientID op.seqNo = true ∧
    t.execute op = some t'

theorem getElem?_append_of_eq_some {α : Type} {l : List α} {a : α} (h : l[i]? = some a)
    (l' : List α) : (l ++ l')[i]? = some a := by
  rw [List.getElem?_append_left (List.getElem?_eq_some_iff.mp h).1]
  exact h

/-- What has taken effect has taken effect for good. -/
theorem TakesEffect.append (h : TakesEffect log i op) (l : List (Option Op)) :
    TakesEffect (log ++ l) i op := by
  obtain ⟨t, t', ht, hnew, hex⟩ := h.executed
  exact ⟨getElem?_append_of_eq_some h.entry l, t, t', ht.append l, hnew, hex⟩

/-- After an entry, its request is no longer new. -/
theorem not_isNew_of_lt {t : Tables} (hi : log[i]? = some (some op)) (hlt : i < m)
    (h : Reflects log m t) : t.isNew op.clientID op.seqNo = false := by
  have hseen : t.Seen (some op) := h.seen Tables.absorbing hlt hi
  exact hseen

theorem TakesEffect.not_lt (hi : TakesEffect log i op) (hj : TakesEffect log j op')
    (hc : op'.clientID = op.clientID) (hs : op'.seqNo = op.seqNo) : ¬ i < j := by
  intro hlt
  obtain ⟨t, t', ht, hnew, -⟩ := hj.executed
  have hold := not_isNew_of_lt hi.entry hlt ht
  rw [hc, hs, hold] at hnew
  cases hnew

/-- **A request takes effect at most once.** -/
theorem TakesEffect.unique (hi : TakesEffect log i op) (hj : TakesEffect log j op')
    (hc : op'.clientID = op.clientID) (hs : op'.seqNo = op.seqNo) : j = i := by
  have h1 := hi.not_lt hj hc hs
  have h2 := hj.not_lt hi hc.symm hs.symm
  omega

/-- The request `(c, σ)` stands in the log before position `j`. -/
def LoggedBefore (log : List (Option Op)) (j : Nat) (c σ : Int) : Prop :=
  ∃ i op, i < j ∧ log[i]? = some (some op) ∧ op.clientID = c ∧ op.seqNo = σ

theorem LoggedBefore.append {c σ : Int} (h : LoggedBefore log j c σ) (l : List (Option Op)) :
    LoggedBefore (log ++ l) j c σ := by
  obtain ⟨i, op, hi, hget, hc, hs⟩ := h
  exact ⟨i, op, hi, getElem?_append_of_eq_some hget l, hc, hs⟩

/-- Before an entry stand all earlier requests of its client; numbers begin with `1`. -/
def InSequence (log : List (Option Op)) : Prop :=
  ∀ j op, log[j]? = some (some op) → ∀ σ, 1 ≤ σ → σ < op.seqNo →
    LoggedBefore log j op.clientID σ

/-- **A request takes effect where it stands first**, when the requests of its client are
committed in sequence. -/
theorem exists_takesEffect {c σ : Int} {t : Tables} (hseq : InSequence log) (hσ : 1 ≤ σ)
    (h : Reflects log m t) (hl : LoggedBefore log m c σ) :
    ∃ i op, i < m ∧ op.clientID = c ∧ op.seqNo = σ ∧ TakesEffect log i op := by
  classical
  let first := Nat.find hl
  obtain ⟨op, hlt, hget, hc, hs⟩ : ∃ op, first < m ∧ log[first]? = some (some op) ∧
      op.clientID = c ∧ op.seqNo = σ := Nat.find_spec hl
  have hmin : ¬ LoggedBefore log first c σ := by
    rintro ⟨i, op', hi, hget', hc', hs'⟩
    exact Nat.find_min hl hi ⟨op', by omega, hget', hc', hs'⟩
  obtain ⟨t', ht'⟩ := h.exists_of_le (Nat.succ_le_of_lt hlt)
  obtain ⟨command, u, hcmd, hu, happ⟩ := ht'.pred
  obtain rfl : command = some op := Option.some.inj (hcmd.symm.trans hget)
  refine ⟨first, op, hlt, hc, hs, hget, u, t', hu, ?_⟩
  rcases Tables.applyOp_cases happ with ⟨hnew, hex⟩ | ⟨hold, -⟩
  · exact ⟨hnew, hex⟩
  · -- a record at or above `σ` would come from an entry before the first one
    exfalso
    obtain ⟨dup, hdup, hle⟩ := Tables.isNew_eq_false.mp hold
    obtain ⟨j, op', w, hj, hget', hc', hs', -, -⟩ := Tables.duplicate_source hu hdup
    rcases Int.lt_or_eq_of_le hle with hgt | heq
    · have hbefore := hseq j op' hget' σ hσ (by omega)
      rw [hc', hc] at hbefore
      obtain ⟨i, op'', hi, hrest⟩ := hbefore
      exact hmin ⟨i, op'', by omega, hrest⟩
    · exact hmin ⟨j, op', hj, hget', by rw [hc', hc], by omega⟩

end RaftLab
