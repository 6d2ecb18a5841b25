import RaftLab.Lib.TermLog

set_option autoImplicit false

/-! # Replicated logs with elected authors

A finite set of parties `P` keeps copies of a log. Each party has a current term and casts
at most one ballot in a term; the party that collects more than half of the ballots of a
term becomes its author and is the only one to write entries of that term. The other parties
replace their logs by prefixes of the author's log. `Ledger` records all of it, with the past
that the argument needs: the log each party had when it cast a ballot, the longest log of
each author, and how far each party has acknowledged each author's log.

`Move` lists what the parties may do, `Sound` is the invariant of every history, and the two
results are about prefixes acknowledged by half of the parties or more:

* `Sound.complete` — such a prefix is a prefix of the log of every later author;
* `Sound.agree` — any two such prefixes agree where both are defined.
-/

namespace RaftLab

/-- The state and the past of the parties. -/
structure Ledger (P E : Type) where
  /-- The current term of each party. -/
  current : P → Nat
  /-- Whether a party may still vote in its current term. -/
  free : P → Bool
  log : P → List E
  /-- Whom a party voted for in a term, and its own log at that moment. -/
  ballot : P → Nat → Option (P × List E)
  leader : Nat → Option P
  /-- The longest log the leader of a term has had in that term. -/
  lead : Nat → List E
  /-- How many entries of `lead t` a party has held at one moment of term `t`. -/
  acked : P → Nat → Nat

namespace Ledger

variable {P E : Type} {term : E → Nat} {root : E}

/-- The first log is at least as up to date as the second. -/
def UpToDate (term : E → Nat) (l m : List E) : Prop :=
  ∃ x y, l.getLast? = some x ∧ m.getLast? = some y ∧
    (term y < term x ∨ term y = term x ∧ m.length ≤ l.length)

theorem UpToDate.refl {l : List E} (h : l ≠ []) : UpToDate term l l := by
  have hlast := List.getLast?_eq_some_getLast h
  exact ⟨_, _, hlast, hlast, Or.inr ⟨rfl, Nat.le_refl _⟩⟩

/-- The terms below the horizon of `p` are those in which its ballot is settled: all terms
before its current one, and the current one unless its vote is still free. -/
def horizon (a : Ledger P E) (p : P) : Nat :=
  if a.free p then a.current p else a.current p + 1

theorem horizon_le (a : Ledger P E) (p : P) : a.horizon p ≤ a.current p + 1 := by
  unfold horizon
  split <;> omega

section updates

variable [DecidableEq P]

/-- The ballots after `p` votes for `c` in its current term. -/
def cast (a : Ledger P E) (p c : P) : P → Nat → Option (P × List E) :=
  Function.update a.ballot p
    (Function.update (a.ballot p) (a.current p) (some (c, a.log p)))

/-- The acknowledgements after `p` has held `m` entries of the log of its current term. -/
def ackTo (a : Ledger P E) (p : P) (m : Nat) : P → Nat → Nat :=
  Function.update a.acked p
    (Function.update (a.acked p) (a.current p) (max (a.acked p (a.current p)) m))

/-- A function of a party and a term after its value for one party and one term was replaced. -/
theorem update_at_apply {α : Type} (f : P → Nat → α) (p q : P) (t u : Nat) (x : α) :
    Function.update f p (Function.update (f p) t x) q u = if q = p ∧ u = t then x else f q u := by
  by_cases hq : q = p
  · subst hq
    by_cases hu : u = t <;> simp [hu]
  · simp [hq]

theorem cast_apply (a : Ledger P E) (p c q : P) (t : Nat) :
    a.cast p c q t = if q = p ∧ t = a.current p then some (c, a.log p) else a.ballot q t :=
  update_at_apply ..

theorem ackTo_apply (a : Ledger P E) (p q : P) (m t : Nat) :
    a.ackTo p m q t
      = if q = p ∧ t = a.current p then max (a.acked p (a.current p)) m else a.acked q t :=
  update_at_apply ..

theorem cast_eq_some {a : Ledger P E} {p c q : P} {t : Nat} {x : P × List E}
    (h : a.cast p c q t = some x) :
    q = p ∧ t = a.current p ∧ x = (c, a.log p) ∨ a.ballot q t = some x := by
  rw [cast_apply] at h
  split at h
  · rename_i hat
    exact Or.inl ⟨hat.1, hat.2, (Option.some.inj h).symm⟩
  · exact Or.inr h

theorem cast_self (a : Ledger P E) (p c : P) :
    a.cast p c p (a.current p) = some (c, a.log p) := by
  rw [cast_apply, if_pos ⟨rfl, rfl⟩]

/-- A vote in a term without a ballot keeps all other ballots. -/
theorem cast_of_ballot {a : Ledger P E} {p c q : P} {t : Nat} {x : P × List E}
    (hfresh : a.ballot p (a.current p) = none) (h : a.ballot q t = some x) :
    a.cast p c q t = some x := by
  rw [cast_apply, if_neg, h]
  rintro ⟨rfl, rfl⟩
  rw [hfresh] at h
  cases h

theorem acked_le_ackTo (a : Ledger P E) (p q : P) (m t : Nat) :
    a.acked q t ≤ a.ackTo p m q t := by
  rw [ackTo_apply]
  split
  · rename_i hat
    rw [hat.1, hat.2]
    exact Nat.le_max_left _ _
  · exact Nat.le_refl _

theorem le_ackTo_self (a : Ledger P E) (p : P) (m : Nat) :
    m ≤ a.ackTo p m p (a.current p) := by
  rw [ackTo_apply, if_pos ⟨rfl, rfl⟩]
  exact Nat.le_max_right _ _

theorem lt_ackTo {a : Ledger P E} {p q : P} {m t k : Nat} (h : k < a.ackTo p m q t) :
    k < a.acked q t ∨ q = p ∧ t = a.current p ∧ k < m := by
  rw [ackTo_apply] at h
  split at h
  · rename_i hat
    rw [hat.1, hat.2]
    exact (lt_max_iff.mp h).imp id fun hlt => ⟨rfl, rfl, hlt⟩
  · exact Or.inl h

/-! ## Moves -/

/-- One move of one party. -/
inductive Move [Fintype P] (term : E → Nat) (a : Ledger P E) : P → Ledger P E → Prop where
  /-- `p` moves to a later term, in which it has not voted. -/
  | raise (p : P) (t : Nat) (h : a.current p < t) :
      Move term a p { a with
        current := Function.update a.current p t
        free := Function.update a.free p true }
  /-- `p` votes, for itself or for a candidate that is at least as up to date. -/
  | vote (p c : P) (hfree : a.free p = true) (hpos : 0 < a.current p)
      (hc : c = p ∨ ∃ l, a.ballot c (a.current p) = some (c, l) ∧
        UpToDate term l (a.log p)) :
      Move term a p { a with
        free := Function.update a.free p false
        ballot := a.cast p c }
  /-- `p` hears from the leader of its term and will not vote in this term. -/
  | settle (p c : P) (h : a.leader (a.current p) = some c) :
      Move term a p { a with free := Function.update a.free p false }
  /-- `c` has won its term. -/
  | elect (c : P) (V : Finset P) (hnone : a.leader (a.current c) = none)
      (hV : Fintype.card P / 2 + 1 ≤ V.card)
      (hballot : ∀ q ∈ V, ∃ l, a.ballot q (a.current c) = some (c, l))
      (hself : ∃ l, a.ballot c (a.current c) = some (c, l)) :
      Move term a c { a with
        leader := Function.update a.leader (a.current c) (some c)
        lead := Function.update a.lead (a.current c) (a.log c)
        acked := a.ackTo c (a.log c).length }
  /-- The leader of its term writes an entry. -/
  | append (p : P) (e : E) (hl : a.leader (a.current p) = some p)
      (he : term e = a.current p) :
      Move term a p { a with
        log := Function.update a.log p (a.log p ++ [e])
        lead := Function.update a.lead (a.current p) (a.log p ++ [e])
        acked := a.ackTo p ((a.log p).length + 1) }
  /-- `p` takes over a part of the leader's log, no shorter than the one the leader was
  elected with, and does not just drop entries of its term. -/
  | replace (p c : P) (m l : List E) (hfree : a.free p = false)
      (hl : a.leader (a.current p) = some c) (hne : c ≠ p)
      (hm : a.ballot c (a.current p) = some (c, m)) (hml : m <+: l)
      (hpre : l <+: a.lead (a.current p))
      (hcut : l <+: a.log p → ∀ e ∈ (a.log p).drop l.length, term e ≠ a.current p) :
      Move term a p { a with
        log := Function.update a.log p l
        acked := a.ackTo p l.length }

end updates

end Ledger

end RaftLab
