import Mathlib.Tactic

set_option autoImplicit false

/-! # Logs written term by term

Entries carry a term, and each term has at most one author, whose log is `lead t`. A log
*follows* the authors when each of its prefixes that ends in an entry of term `t` is a
prefix of `lead t`. Two logs that follow the same authors and meet at one position, with
entries of one term, are equal up to that position (`Follows.matching`). The property
survives whatever replication does to logs: prefixes, growth of the authors' logs, an
author appending to its own log, and a suffix spliced in where two logs meet.
-/

namespace RaftLab.TermLog

variable {E : Type} {term : E → Nat} {lead lead' : Nat → List E} {l m : List E}

/-- Each prefix of `l` that ends in an entry of term `t` is a prefix of `lead t`. -/
def Follows (term : E → Nat) (lead : Nat → List E) (l : List E) : Prop :=
  ∀ i e, l[i]? = some e → l.take (i + 1) <+: lead (term e)

theorem length_take_succ {i : Nat} {e : E} (h : l[i]? = some e) :
    (l.take (i + 1)).length = i + 1 := by
  have hlt : i < l.length := (List.getElem?_eq_some_iff.mp h).1
  rw [List.length_take]
  omega

/-- **Matching.** Logs that meet at a position are equal up to it. -/
theorem Follows.matching (hl : Follows term lead l) (hm : Follows term lead m) {i : Nat}
    {e e' : E} (he : l[i]? = some e) (he' : m[i]? = some e') (ht : term e = term e') :
    l.take (i + 1) = m.take (i + 1) := by
  have h1 : l.take (i + 1) <+: lead (term e') := ht ▸ hl i e he
  have h2 : m.take (i + 1) <+: lead (term e') := hm i e' he'
  have hlen : (l.take (i + 1)).length = (m.take (i + 1)).length := by
    rw [length_take_succ he, length_take_succ he']
  exact (List.prefix_of_prefix_length_le h1 h2 (Nat.le_of_eq hlen)).eq_of_length hlen

theorem Follows.of_isPrefix (hl : Follows term lead l) (h : m <+: l) : Follows term lead m := by
  intro i e he
  have hpre : m.take (i + 1) <+: l.take (i + 1) := h.take (i + 1)
  have hle : l[i]? = some e := by
    obtain ⟨rest, rfl⟩ := h
    rw [List.getElem?_append_left (List.getElem?_eq_some_iff.mp he).1]
    exact he
  exact hpre.trans (hl i e hle)

/-- Authors may append. -/
theorem Follows.mono (hl : Follows term lead l) (h : ∀ t, lead t <+: lead' t) :
    Follows term lead' l := by
  intro i e he
  exact (hl i e he).trans (h (term e))

/-- One author has written more. -/
theorem isPrefix_update {t : Nat} (h : lead t <+: l) (u : Nat) :
    lead u <+: Function.update lead t l u :=
  (Function.forall_update_iff lead fun u m => lead u <+: m).mpr
    ⟨h, fun _ _ => List.prefix_refl _⟩ u

/-- A new entry that its author has written after the same log. -/
theorem Follows.concat (hl : Follows term lead l) {e : E} (h : l ++ [e] <+: lead (term e)) :
    Follows term lead (l ++ [e]) := by
  intro i x hx
  by_cases hi : i < l.length
  · rw [List.getElem?_append_left hi] at hx
    rw [List.take_append_of_le_length (by omega)]
    exact hl i x hx
  · have hlen : i < (l ++ [e]).length := (List.getElem?_eq_some_iff.mp hx).1
    have hil : i = l.length := by
      rw [List.length_append, List.length_singleton] at hlen
      omega
    subst hil
    rw [List.getElem?_concat_length] at hx
    obtain rfl : e = x := Option.some.inj hx
    rw [List.take_of_length_le (by simp)]
    exact h

/-- Where two logs meet, the second is the first one cut there with the rest of the second
behind it. -/
theorem Follows.splice (hl : Follows term lead l) (hm : Follows term lead m) {k : Nat}
    {e e' : E} (he : l[k]? = some e) (he' : m[k]? = some e') (ht : term e = term e') :
    l.take (k + 1) ++ m.drop (k + 1) = m := by
  rw [hl.matching hm he he' ht, List.take_append_drop]

/-- A log is a prefix of the log of the author of its last entry. -/
theorem Follows.prefix_lead (hl : Follows term lead l) {e : E} (he : l.getLast? = some e) :
    l <+: lead (term e) := by
  rw [List.getLast?_eq_getElem?] at he
  have h := hl (l.length - 1) e he
  rwa [List.take_of_length_le (by omega)] at h

end RaftLab.TermLog
