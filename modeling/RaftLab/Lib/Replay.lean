import RaftLab.Lib.Run

set_option autoImplicit false

/-! # Replaying a log of commands

A replicated state machine is a function `apply : S → C → Option S`; its state is what the
commands of a log make of the empty state, in order. `Reflects` says that a state is the one
after the first `m` commands. A machine is `Absorbing` when it remembers the commands it has
applied, so that a command applied a second time changes nothing. Such a machine can be fed
old commands again: it needs the next one or any earlier one, and stays on the log.
-/

namespace RaftLab.Replay

variable {S C : Type}

/-- `s` is the state after the first `m` commands of `log`. -/
structure Reflects (apply : S → C → Option S) (init : S) (log : List C) (m : Nat) (s : S) :
    Prop where
  le : m ≤ log.length
  run : Machine.run apply init (log.take m) = some s

/-- An applied command is `Seen` from then on, and a seen command has no effect. -/
structure Absorbing (apply : S → C → Option S) (Seen : S → C → Prop) : Prop where
  seen : ∀ {s c s'}, apply s c = some s' → Seen s' c
  kept : ∀ {s c d s'}, Seen s c → apply s d = some s' → Seen s' c
  again : ∀ {s c}, Seen s c → apply s c = some s

namespace Reflects

variable {apply : S → C → Option S} {init : S} {log : List C} {m k i : Nat} {s s' t : S} {c : C}

theorem zero (apply : S → C → Option S) (init : S) (log : List C) :
    Reflects apply init log 0 init :=
  ⟨Nat.zero_le _, rfl⟩

/-- A longer log has the same beginnings. -/
theorem append (h : Reflects apply init log m s) (l : List C) :
    Reflects apply init (log ++ l) m s := by
  refine ⟨?_, ?_⟩
  · rw [List.length_append]
    exact Nat.le_trans h.le (Nat.le_add_right _ _)
  · rw [List.take_append_of_le_length h.le]
    exact h.run

theorem unique (h : Reflects apply init log m s) (h' : Reflects apply init log m t) : s = t :=
  Option.some.inj (h.run.symm.trans h'.run)

theorem succ (h : Reflects apply init log m s) (hc : log[m]? = some c)
    (ha : apply s c = some s') : Reflects apply init log (m + 1) s' := by
  obtain ⟨hlt, hget⟩ := List.getElem?_eq_some_iff.mp hc
  refine ⟨hlt, ?_⟩
  have htake : log.take (m + 1) = log.take m ++ [c] := by
    rw [← List.take_append_getElem hlt, hget]
  rw [htake, Machine.run_append, h.run]
  show (apply s c).bind (fun u => some u) = some s'
  rw [ha]
  rfl

/-- The last command of a prefix was applied to the state before it. -/
theorem pred (h : Reflects apply init log (m + 1) s') :
    ∃ c s, log[m]? = some c ∧ Reflects apply init log m s ∧ apply s c = some s' := by
  have hlt : m < log.length := h.le
  have hrun := h.run
  rw [← List.take_append_getElem hlt, Machine.run_append, Option.bind_eq_some_iff] at hrun
  obtain ⟨s, hs, hlast⟩ := hrun
  refine ⟨log[m], s, List.getElem?_eq_getElem hlt, ⟨Nat.le_of_lt hlt, hs⟩, ?_⟩
  obtain ⟨u, hu, hend⟩ := Machine.run_cons hlast
  rw [hu]
  exact hend

/-- Every prefix of a log that can be replayed can be replayed. -/
theorem exists_of_le (h : Reflects apply init log m s) (hk : k ≤ m) :
    ∃ t, Reflects apply init log k t := by
  induction m generalizing s with
  | zero =>
      obtain rfl : k = 0 := by omega
      exact ⟨s, h⟩
  | succ m ih =>
      rcases Nat.lt_or_eq_of_le hk with hlt | rfl
      · obtain ⟨-, t, -, ht, -⟩ := h.pred
        exact ih ht (by omega)
      · exact ⟨s, h⟩

section absorbing

variable {Seen : S → C → Prop} (habs : Absorbing apply Seen)
include habs

/-- Every command of the prefix has been seen. -/
theorem seen (h : Reflects apply init log m s) (hi : i < m) (hc : log[i]? = some c) :
    Seen s c := by
  induction m generalizing s with
  | zero => omega
  | succ m ih =>
      obtain ⟨d, t, hd, ht, ha⟩ := h.pred
      rcases Nat.lt_or_eq_of_le (Nat.le_of_lt_succ hi) with hlt | rfl
      · exact habs.kept (ih ht hlt) ha
      · obtain rfl : d = c := Option.some.inj (hd.symm.trans hc)
        exact habs.seen ha

/-- **Redelivery.** Applying the next command or an earlier one leads to a prefix again. -/
theorem deliver (h : Reflects apply init log m s) (hi : i ≤ m) (hc : log[i]? = some c)
    (ha : apply s c = some s') : Reflects apply init log (max m (i + 1)) s' := by
  rcases Nat.lt_or_eq_of_le hi with hlt | rfl
  · have hs : apply s c = some s := habs.again (h.seen habs hlt hc)
    obtain rfl : s = s' := Option.some.inj (hs.symm.trans ha)
    rw [Nat.max_eq_left hlt]
    exact h
  · rw [Nat.max_eq_right (Nat.le_succ i)]
    exact h.succ hc ha

end absorbing

end Reflects

end RaftLab.Replay
