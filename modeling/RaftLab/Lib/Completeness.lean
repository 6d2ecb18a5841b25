import RaftLab.Lib.Ledger
import RaftLab.Lib.Median

set_option autoImplicit false

/-! # Later leaders hold what half of the parties have acknowledged

The invariant `Sound` of a `Ledger`, its preservation by every `Move`, and its two
consequences `Sound.complete` and `Sound.agree`.

The delicate part is what a party still knows of a prefix it has acknowledged. It may lose
the prefix only to the log of a later leader that does not have it. `Holds` says just that,
without claiming that there is no such leader: "the prefix is in this log, or some leader
elected in between misses it". In this form the statement is kept by every move. That there
is no such leader follows afterwards, by induction on the term of the leader.
-/

namespace RaftLab.Ledger

variable {P E : Type} {term : E → Nat} {root : E} {a a' : Ledger P E}

theorem horizon_congr {q : P} (hc : a'.current q = a.current q) (hf : a'.free q = a.free q) :
    a'.horizon q = a.horizon q := by
  rw [horizon, horizon, hc, hf]

theorem horizon_of_free {p : P} (h : a.free p = true) : a.horizon p = a.current p := by
  rw [horizon, h]
  rfl

theorem horizon_of_not_free {p : P} (h : a.free p = false) :
    a.horizon p = a.current p + 1 := by
  rw [horizon, h]
  rfl

theorem horizon_le_settle [DecidableEq P] (a : Ledger P E) (p q : P) :
    a.horizon q ≤ horizon { a with free := Function.update a.free p false } q := by
  show a.horizon q ≤ if Function.update a.free p false q then a.current q else a.current q + 1
  by_cases hq : q = p
  · subst hq
    rw [Function.update_self]
    exact a.horizon_le q
  · rw [Function.update_of_ne hq]
    exact Nat.le_refl _

/-- Entry `k` of the leader's log of term `t` is of term `t`. -/
def Own (term : E → Nat) (a : Ledger P E) (t k : Nat) : Prop :=
  ∃ e, (a.lead t)[k]? = some e ∧ term e = t

/-- The leader of term `u` does not have the first `k + 1` entries of the one of term `t`. -/
def Missed (a : Ledger P E) (t k u : Nat) : Prop :=
  (∃ c, a.leader u = some c) ∧ ¬ (a.lead t).take (k + 1) <+: a.lead u

/-- The first `k + 1` entries of the leader of term `t` are in `l`, or a later leader, of a
term below `v`, misses them. -/
def Holds (a : Ledger P E) (t k : Nat) (l : List E) (v : Nat) : Prop :=
  (a.lead t).take (k + 1) <+: l ∨ ∃ u, t < u ∧ u < v ∧ a.Missed t k u

theorem Holds.mono {t k v w : Nat} {l : List E} (h : a.Holds t k l v) (hvw : v ≤ w) :
    a.Holds t k l w := by
  rcases h with hpre | ⟨u, htu, huv, hmiss⟩
  · exact Or.inl hpre
  · exact Or.inr ⟨u, htu, by omega, hmiss⟩

/-- What is held stays held when the logs of the leaders change in places that matter to
neither side. -/
theorem Holds.congr {t k v : Nat} {l : List E} (h : a.Holds t k l v)
    (htake : (a'.lead t).take (k + 1) = (a.lead t).take (k + 1))
    (hmiss : ∀ u, t < u → a.Missed t k u → a'.Missed t k u) : a'.Holds t k l v := by
  rcases h with hpre | ⟨u, htu, huv, hm⟩
  · left
    rw [htake]
    exact hpre
  · exact Or.inr ⟨u, htu, huv, hmiss u htu hm⟩

theorem Holds.of_isPrefix {t k v : Nat} {l m : List E} (h : a.Holds t k l v) (hlm : l <+: m) :
    a.Holds t k m v :=
  h.imp_left fun hpre => hpre.trans hlm

theorem take_eq_of_isPrefix {l m : List E} {k : Nat} (h : l <+: m) (hk : k ≤ l.length) :
    m.take k = l.take k := by
  obtain ⟨r, rfl⟩ := h
  exact List.take_append_of_le_length hk

/-- The last entry of a list is behind each proper prefix of it. -/
theorem getLast?_mem_drop {l m z : List E} {e : E} (hlm : l <+: m) (hne : l ≠ m)
    (hlast : m.getLast? = some e) (hmz : m <+: z) : e ∈ z.drop l.length := by
  obtain ⟨r, rfl⟩ := hlm
  obtain ⟨r', rfl⟩ := hmz
  have hr : r ≠ [] := by
    rintro rfl
    exact hne (List.append_nil l).symm
  rw [List.getLast?_append_of_ne_nil _ hr] at hlast
  rw [List.append_assoc, List.drop_left]
  exact List.mem_append_left _ (List.mem_of_getLast? hlast)

/-- Entries that were there before keep their term. -/
theorem Own.of_isPrefix {t k : Nat} (hpre : a.lead t <+: a'.lead t)
    (hk : k < (a.lead t).length) (h : a'.Own term t k) : a.Own term t k := by
  obtain ⟨e, he, het⟩ := h
  obtain ⟨r, hr⟩ := hpre
  rw [← hr, List.getElem?_append_left hk] at he
  exact ⟨e, he, het⟩

/-- The last entry of an acknowledged prefix is of the leader's own term. -/
theorem Own.getLast?_take {t k : Nat} (h : a.Own term t k) :
    ∃ e, ((a.lead t).take (k + 1)).getLast? = some e ∧ term e = t := by
  obtain ⟨e, he, het⟩ := h
  refine ⟨e, ?_, het⟩
  rw [List.getLast?_eq_getElem?, TermLog.length_take_succ he, Nat.add_sub_cancel,
    List.getElem?_take_of_lt (Nat.lt_succ_self k)]
  exact he

/-- A leader that missed a prefix of an earlier term does not get it by writing an entry. -/
theorem Missed.concat {v k u t : Nat} {e : E} (h : a.Missed v k u) (hk : k < (a.lead v).length)
    (hown : a.Own term v k) (hvu : v < u) (he : term e = t) :
    ¬ (Function.update a.lead t (a.lead t ++ [e]) v).take (k + 1) <+:
      Function.update a.lead t (a.lead t ++ [e]) u := by
  rw [take_eq_of_isPrefix (TermLog.isPrefix_update (List.prefix_append _ _) v) hk]
  by_cases hu : u = t
  · subst hu
    rw [Function.update_self, List.prefix_concat_iff]
    rintro (heq | hpre)
    · obtain ⟨x, hx, hxt⟩ := hown.getLast?_take
      rw [heq, List.getLast?_concat] at hx
      obtain rfl := Option.some.inj hx
      omega
    · exact h.2 hpre
  · rw [Function.update_of_ne hu]
    exact h.2

/-- The logs of the leaders grow, and a leader that misses a prefix goes on missing it. -/
structure Grows (term : E → Nat) (a a' : Ledger P E) : Prop where
  lead : ∀ t, a.lead t <+: a'.lead t
  missed : ∀ {t k u}, k < (a.lead t).length → a.Own term t k → t < u → a.Missed t k u →
    a'.Missed t k u

/-- What is held stays held. -/
theorem Grows.holds (hg : Grows term a a') {t k v : Nat} {l : List E} (hk : k < (a.lead t).length)
    (hown : a'.Own term t k) (h : a.Own term t k → a.Holds t k l v) : a'.Holds t k l v := by
  have hown' : a.Own term t k := hown.of_isPrefix (hg.lead t) hk
  exact (h hown').congr (take_eq_of_isPrefix (hg.lead t) hk) fun u htu hm =>
    hg.missed hk hown' htu hm

/-- The record only grows. -/
structure Extends (a a' : Ledger P E) : Prop where
  lead : ∀ t, a.lead t <+: a'.lead t
  leader : ∀ t c, a.leader t = some c → a'.leader t = some c
  ballot : ∀ p t x, a.ballot p t = some x → a'.ballot p t = some x
  acked : ∀ p t, a.acked p t ≤ a'.acked p t
  current : ∀ p, a.current p ≤ a'.current p

theorem Extends.refl (a : Ledger P E) : Extends a a :=
  ⟨fun _ => List.prefix_refl _, fun _ _ h => h, fun _ _ _ h => h, fun _ _ => Nat.le_refl _,
    fun _ => Nat.le_refl _⟩

theorem Extends.trans {b c : Ledger P E} (h : Extends a b) (h' : Extends b c) : Extends a c :=
  ⟨fun t => (h.lead t).trans (h'.lead t), fun t d hd => h'.leader t d (h.leader t d hd),
    fun p t x hx => h'.ballot p t x (h.ballot p t x hx),
    fun p t => Nat.le_trans (h.acked p t) (h'.acked p t),
    fun p => Nat.le_trans (h.current p) (h'.current p)⟩

/-- The record grows, and the other parties are where they were. -/
structure Acts (p : P) (a a' : Ledger P E) : Prop where
  ext : Extends a a'
  current : ∀ q, q ≠ p → a'.current q = a.current q
  free : ∀ q, q ≠ p → a'.free q = a.free q
  log : ∀ q, q ≠ p → a'.log q = a.log q
  leader : ∀ q, q ≠ p → ∀ t, a'.leader t = some q → a.leader t = some q

theorem Acts.refl (p : P) (a : Ledger P E) : Acts p a a :=
  ⟨.refl a, fun _ _ => rfl, fun _ _ => rfl, fun _ _ => rfl, fun _ _ _ h => h⟩

theorem Acts.trans {p : P} {b c : Ledger P E} (h : Acts p a b) (h' : Acts p b c) :
    Acts p a c :=
  ⟨h.ext.trans h'.ext, fun q hq => (h'.current q hq).trans (h.current q hq),
    fun q hq => (h'.free q hq).trans (h.free q hq),
    fun q hq => (h'.log q hq).trans (h.log q hq),
    fun q hq t ht => h.leader q hq t (h'.leader q hq t ht)⟩

/-- The invariant of every history. -/
structure Sound [Fintype P] (term : E → Nat) (root : E) (a : Ledger P E) : Prop where
  settled : ∀ p t x, a.ballot p t = some x → 0 < t ∧ t < a.horizon p
  candidate : ∀ p t c l, a.ballot p t = some (c, l) →
    ∃ m, a.ballot c t = some (c, m) ∧ UpToDate term m l
  /-- Until a term has a leader, the logs its ballots were cast with stay in place. -/
  unmoved : ∀ p c l, a.ballot p (a.current p) = some (c, l) →
    a.leader (a.current p) = none → l = a.log p
  older : ∀ c t l, a.ballot c t = some (c, l) → ∀ e ∈ l, term e < t
  elected : ∀ t c, a.leader t = some c →
    (∃ V : Finset P, Fintype.card P / 2 + 1 ≤ V.card ∧
      ∀ q ∈ V, ∃ l, a.ballot q t = some (c, l)) ∧
    ∃ l, a.ballot c t = some (c, l) ∧ l <+: a.lead t ∧
      ∀ e ∈ (a.lead t).drop l.length, term e = t
  leading : ∀ c, a.leader (a.current c) = some c → a.lead (a.current c) = a.log c
  unled : ∀ t, a.leader t = none → a.lead t = if t = 0 then [root] else []
  log_follows : ∀ p, TermLog.Follows term a.lead (a.log p)
  lead_follows : ∀ t, TermLog.Follows term a.lead (a.lead t)
  ballot_follows : ∀ p t c l, a.ballot p t = some (c, l) → TermLog.Follows term a.lead l
  log_ne : ∀ p, a.log p ≠ []
  log_lt : ∀ p, ∀ e ∈ a.log p, term e < max 1 (a.horizon p)
  lead_le : ∀ t, ∀ e ∈ a.lead t, term e ≤ t
  acked_lead : ∀ p t, a.acked p t ≤ (a.lead t).length
  acked_lt : ∀ p t, 0 < a.acked p t → t < a.horizon p
  held : ∀ p t k, k < a.acked p t → a.Own term t k → a.Holds t k (a.log p) (a.horizon p)
  voted : ∀ p t k v c l, k < a.acked p t → a.Own term t k → a.ballot p v = some (c, l) →
    t < v → a.Holds t k l v

/-- A term with a leader is not one without. -/
theorem ne_of_led {t u : Nat} {p : P} (hl : a.leader t = some p) (hn : a.leader u = none) :
    u ≠ t := by
  rintro rfl
  rw [hl] at hn
  cases hn

section sound

variable [Fintype P]

/-- The leader of a term has voted in it, so its vote in that term is settled. -/
theorem Sound.leader_lt (h : Sound term root a) {t : Nat} {c : P} (hl : a.leader t = some c) :
    0 < t ∧ t < a.horizon c := by
  obtain ⟨-, l, hl, -, -⟩ := h.elected t c hl
  exact h.settled c t _ hl

/-- A party whose vote is free has no ballot in its term. -/
theorem Sound.ballot_eq_none (h : Sound term root a) {p : P} (hfree : a.free p = true) :
    a.ballot p (a.current p) = none := by
  cases hb : a.ballot p (a.current p) with
  | none => rfl
  | some x =>
      have hlt := (h.settled p _ x hb).2
      rw [horizon_of_free hfree] at hlt
      omega

/-- A prefix that ends in an older term is in the log the leader was elected with. -/
theorem Sound.prefix_of_older (h : Sound term root a) {t v k : Nat} {c : P} {m : List E}
    (hl : a.leader t = some c) (hm : a.ballot c t = some (c, m)) (hown : a.Own term v k)
    (hvt : v < t) (hin : (a.lead v).take (k + 1) <+: a.lead t) :
    (a.lead v).take (k + 1) <+: m := by
  obtain ⟨-, m', hm', hpre, hnew⟩ := h.elected t c hl
  obtain rfl : m = m' := by
    rw [hm] at hm'
    exact (Prod.mk.inj (Option.some.inj hm')).2
  rcases List.prefix_or_prefix_of_prefix hin hpre with hle | hge
  · exact hle
  · by_cases heq : m = (a.lead v).take (k + 1)
    · rw [← heq]
    · -- otherwise its last entry is one that the leader has written
      obtain ⟨e, hlast, het⟩ := hown.getLast?_take
      have := hnew e (getLast?_mem_drop hge heq hlast hin)
      omega

/-- Ballots are cast in terms that have been reached. -/
theorem Sound.ballot_le (h : Sound term root a) {p : P} {t : Nat} {x : P × List E}
    (hb : a.ballot p t = some x) : t ≤ a.current p := by
  have hlt := (h.settled p t x hb).2
  have hle := a.horizon_le p
  omega

/-! ## Acknowledging entries of the current term -/

section ackTo

variable [DecidableEq P] {p : P} {m : Nat}

theorem Sound.ackTo_le (h : Sound term root a) (hg : Grows term a a')
    (hm : m ≤ (a'.lead (a.current p)).length) (q : P) (t : Nat) :
    a.ackTo p m q t ≤ (a'.lead t).length := by
  refine le_of_forall_lt fun k hk => ?_
  rcases lt_ackTo hk with hold | ⟨rfl, rfl, hlen⟩
  · exact Nat.lt_of_lt_of_le hold (Nat.le_trans (h.acked_lead q t) (hg.lead t).length_le)
  · exact Nat.lt_of_lt_of_le hlen hm

theorem Sound.ackTo_lt (h : Sound term root a) (hlt : a.current p < a.horizon p) (q : P) (t : Nat)
    (hpos : 0 < a.ackTo p m q t) : t < a.horizon q := by
  rcases lt_ackTo hpos with hold | ⟨rfl, rfl, -⟩
  · exact h.acked_lt q t hold
  · exact hlt

/-- The party that acknowledges holds what it acknowledges, and logs only grow. -/
theorem Sound.held_ackTo (h : Sound term root a) (hg : Grows term a a')
    (hlog : ∀ q, a.log q <+: a'.log q)
    (hnew : ∀ k < m, (a'.lead (a.current p)).take (k + 1) <+: a'.log p) (q : P) (t k : Nat)
    (hk : k < a.ackTo p m q t) (hown : a'.Own term t k) :
    a'.Holds t k (a'.log q) (a.horizon q) := by
  rcases lt_ackTo hk with hold | ⟨rfl, rfl, hlen⟩
  · have hlen := Nat.lt_of_lt_of_le hold (h.acked_lead q t)
    exact (hg.holds hlen hown (h.held q t k hold)).of_isPrefix (hlog q)
  · exact Or.inl (hnew k hlen)

/-- No ballot is later than the term that is acknowledged. -/
theorem Sound.voted_ackTo (h : Sound term root a) (hg : Grows term a a') (q : P) (t k v : Nat)
    (c : P) (l : List E) (hk : k < a.ackTo p m q t) (hown : a'.Own term t k)
    (hb : a.ballot q v = some (c, l)) (htv : t < v) : a'.Holds t k l v := by
  rcases lt_ackTo hk with hold | ⟨rfl, rfl, -⟩
  · have hlen := Nat.lt_of_lt_of_le hold (h.acked_lead q t)
    exact hg.holds hlen hown fun hown => h.voted q t k v c l hold hown hb htv
  · exact absurd (h.ballot_le hb) (Nat.not_le.mpr htv)

end ackTo

/-- A change of current terms and free votes that takes no ballot back. -/
theorem Sound.of_horizon (h : Sound term root a) (hlog : a'.log = a.log)
    (hballot : a'.ballot = a.ballot) (hleader : a'.leader = a.leader) (hlead : a'.lead = a.lead)
    (hacked : a'.acked = a.acked) (hmono : ∀ p, a.horizon p ≤ a'.horizon p)
    (hcur : ∀ p, a'.current p = a.current p ∨ a.horizon p ≤ a'.current p) :
    Sound term root a' := by
  obtain ⟨current, free, log, ballot, leader, lead, acked⟩ := a'
  dsimp only at hlog hballot hleader hlead hacked hcur
  subst hlog hballot hleader hlead hacked
  refine { h with
    settled := ?settled, unmoved := ?unmoved, leading := ?leading, log_lt := ?log_lt
    acked_lt := ?acked_lt, held := ?held } <;> dsimp only
  case settled =>
    intro p t x hx
    exact ⟨(h.settled p t x hx).1, Nat.lt_of_lt_of_le (h.settled p t x hx).2 (hmono p)⟩
  case unmoved =>
    intro p c l hb hn
    rcases hcur p with heq | hge
    · rw [heq] at hb hn
      exact h.unmoved p c l hb hn
    · have := (h.settled p _ _ hb).2
      omega
  case leading =>
    intro c hl
    rcases hcur c with heq | hge
    · rw [heq] at hl ⊢
      exact h.leading c hl
    · have := (h.leader_lt hl).2
      omega
  case log_lt =>
    intro p e he
    have hlt := h.log_lt p e he
    have hle := hmono p
    omega
  case acked_lt =>
    intro p t hpos
    exact Nat.lt_of_lt_of_le (h.acked_lt p t hpos) (hmono p)
  case held =>
    intro p t k hk hown
    exact (h.held p t k hk hown).mono (hmono p)

/-! ## The moves, one by one -/

variable [DecidableEq P]

theorem Sound.raise (h : Sound term root a) {p : P} {t : Nat} (ht : a.current p < t) :
    Sound term root { a with
      current := Function.update a.current p t
      free := Function.update a.free p true } := by
  have hp : horizon { a with
      current := Function.update a.current p t
      free := Function.update a.free p true } p = t := by
    rw [horizon_of_free (Function.update_self _ _ _)]
    exact Function.update_self _ _ _
  have hle := a.horizon_le p
  refine h.of_horizon rfl rfl rfl rfl rfl (fun q => ?_) (fun q => ?_)
  · by_cases hq : q = p
    · subst hq
      rw [hp]
      omega
    · exact Nat.le_of_eq
        (horizon_congr (Function.update_of_ne hq _ _) (Function.update_of_ne hq _ _)).symm
  · by_cases hq : q = p
    · subst hq
      right
      show a.horizon q ≤ Function.update a.current q t q
      rw [Function.update_self]
      omega
    · exact Or.inl (Function.update_of_ne hq _ _)

theorem Sound.settle (h : Sound term root a) (p : P) :
    Sound term root { a with free := Function.update a.free p false } :=
  h.of_horizon rfl rfl rfl rfl rfl (horizon_le_settle a p) (fun _ => Or.inl rfl)

theorem Sound.vote (h : Sound term root a) {p c : P} (hfree : a.free p = true)
    (hpos : 0 < a.current p)
    (hc : c = p ∨ ∃ l, a.ballot c (a.current p) = some (c, l) ∧ UpToDate term l (a.log p)) :
    Sound term root { a with
      free := Function.update a.free p false
      ballot := a.cast p c } := by
  have hfresh := h.ballot_eq_none hfree
  have hmono := horizon_le_settle a p
  have hself : horizon { a with free := Function.update a.free p false } p
      = a.current p + 1 := horizon_of_not_free (Function.update_self _ _ _)
  refine { h with
    settled := ?settled, candidate := ?candidate, unmoved := ?unmoved, older := ?older
    elected := ?elected, ballot_follows := ?ballot_follows
    log_lt := fun q e he =>
      Nat.lt_of_lt_of_le (h.log_lt q e he) (max_le_max (Nat.le_refl 1) (hmono q))
    acked_lt := fun q t hpos => Nat.lt_of_lt_of_le (h.acked_lt q t hpos) (hmono q)
    held := fun q t k hk hown => (h.held q t k hk hown).mono (hmono q)
    voted := ?voted }
  case settled =>
    intro q t x hx
    rcases cast_eq_some hx with ⟨rfl, rfl, -⟩ | hold
    · exact ⟨hpos, hself ▸ Nat.lt_succ_self _⟩
    · have hs := h.settled q t x hold
      exact ⟨hs.1, Nat.lt_of_lt_of_le hs.2 (hmono q)⟩
  case candidate =>
    intro q t d l hx
    rcases cast_eq_some hx with ⟨rfl, rfl, heq⟩ | hold
    · obtain ⟨rfl, rfl⟩ := Prod.mk.inj heq
      rcases hc with rfl | ⟨m, hm, hup⟩
      · exact ⟨_, cast_self a d d, UpToDate.refl (h.log_ne d)⟩
      · exact ⟨m, cast_of_ballot hfresh hm, hup⟩
    · obtain ⟨m, hm, hup⟩ := h.candidate q t d l hold
      exact ⟨m, cast_of_ballot hfresh hm, hup⟩
  case unmoved =>
    intro q d l hx hn
    rcases cast_eq_some hx with ⟨rfl, -, heq⟩ | hold
    · exact (Prod.mk.inj heq).2
    · exact h.unmoved q d l hold hn
  case older =>
    intro d t l hx e he
    rcases cast_eq_some hx with ⟨rfl, rfl, heq⟩ | hold
    · -- the voter is the candidate itself: its log is older than the term it votes in
      obtain ⟨-, rfl⟩ := Prod.mk.inj heq
      have hlt := h.log_lt d e he
      rw [horizon_of_free hfree] at hlt
      omega
    · exact h.older d t l hold e he
  case elected =>
    intro t d hl
    obtain ⟨⟨V, hV, hball⟩, l, hown, hpre⟩ := h.elected t d hl
    refine ⟨⟨V, hV, fun q hq => ?_⟩, l, cast_of_ballot hfresh hown, hpre⟩
    obtain ⟨m, hm⟩ := hball q hq
    exact ⟨m, cast_of_ballot hfresh hm⟩
  case ballot_follows =>
    intro q t d l hx
    rcases cast_eq_some hx with ⟨rfl, -, heq⟩ | hold
    · rw [(Prod.mk.inj heq).2]
      exact h.log_follows q
    · exact h.ballot_follows q t d l hold
  case voted =>
    intro q t k v d l hk hown hx htv
    rcases cast_eq_some hx with ⟨rfl, rfl, heq⟩ | hold
    · -- what it holds when it votes is what it held before, up to its own term
      have hheld := h.held q t k hk hown
      rw [horizon_of_free hfree] at hheld
      rw [(Prod.mk.inj heq).2]
      exact hheld
    · exact h.voted q t k v d l hk hown hold htv

/-- A term without a leader has no log yet, so an election only adds one. -/
theorem Sound.grows_elect (h : Sound term root a) {c : P}
    (hnone : a.leader (a.current c) = none) (hpos : 0 < a.current c) :
    Grows term a { a with
      leader := Function.update a.leader (a.current c) (some c)
      lead := Function.update a.lead (a.current c) (a.log c)
      acked := a.ackTo c (a.log c).length } := by
  have hempty : a.lead (a.current c) = [] := by
    rw [h.unled _ hnone, if_neg (by omega)]
  have hother : ∀ {u}, u ≠ a.current c →
      Function.update a.lead (a.current c) (a.log c) u = a.lead u :=
    fun hu => Function.update_of_ne hu _ _
  refine ⟨TermLog.isPrefix_update (hempty ▸ List.nil_prefix), fun {v k u} hk _ _ hm => ?_⟩
  · obtain ⟨⟨d, hd⟩, hnot⟩ := hm
    have hv : v ≠ a.current c := by
      rintro rfl
      rw [hempty] at hk
      cases hk
    have hu : u ≠ a.current c := by
      rintro rfl
      rw [hnone] at hd
      cases hd
    refine ⟨⟨d, (Function.update_of_ne hu _ _).trans hd⟩, ?_⟩
    show ¬ (Function.update a.lead (a.current c) (a.log c) v).take (k + 1) <+:
      Function.update a.lead (a.current c) (a.log c) u
    rw [hother hu, hother hv]
    exact hnot

theorem Sound.elect (h : Sound term root a) {c : P} {V : Finset P}
    (hnone : a.leader (a.current c) = none) (hV : Fintype.card P / 2 + 1 ≤ V.card)
    (hballot : ∀ q ∈ V, ∃ l, a.ballot q (a.current c) = some (c, l))
    (hself : ∃ l, a.ballot c (a.current c) = some (c, l)) :
    Sound term root { a with
      leader := Function.update a.leader (a.current c) (some c)
      lead := Function.update a.lead (a.current c) (a.log c)
      acked := a.ackTo c (a.log c).length } := by
  obtain ⟨l, hl⟩ := hself
  obtain rfl := h.unmoved c c l hl hnone
  obtain ⟨hpos, hlt⟩ := h.settled c _ _ hl
  have hg := h.grows_elect hnone hpos
  have hsame : Function.update a.lead (a.current c) (a.log c) (a.current c) = a.log c :=
    Function.update_self _ _ _
  -- a term without a leader now had none before
  have hunled : ∀ {u}, Function.update a.leader (a.current c) (some c) u = none →
      u ≠ a.current c ∧ a.leader u = none := by
    intro u hn
    by_cases hu : u = a.current c
    · rw [hu, Function.update_self] at hn
      cases hn
    · rw [Function.update_of_ne hu] at hn
      exact ⟨hu, hn⟩
  have hlen : (a.log c).length ≤
      (Function.update a.lead (a.current c) (a.log c) (a.current c)).length := by rw [hsame]
  refine { h with
    unmoved := fun q d l hb hn => h.unmoved q d l hb (hunled hn).2
    elected := ?elected, leading := ?leading, unled := ?unled
    log_follows := fun q => (h.log_follows q).mono hg.lead
    lead_follows := ?lead_follows
    ballot_follows := fun q u d l hb => (h.ballot_follows q u d l hb).mono hg.lead
    lead_le := ?lead_le
    acked_lead := h.ackTo_le hg hlen
    acked_lt := h.ackTo_lt hlt
    held := h.held_ackTo hg (fun _ => List.prefix_refl _) fun k _ => ?held
    voted := h.voted_ackTo hg } <;> dsimp only
  case elected =>
    intro u d hd
    by_cases hu : u = a.current c
    · subst hu
      obtain rfl : c = d := by simpa using hd
      refine ⟨⟨V, hV, hballot⟩, _, hl, ?_⟩
      rw [hsame, List.drop_length]
      exact ⟨List.prefix_refl _, fun e he => nomatch he⟩
    · rw [Function.update_of_ne hu] at hd ⊢
      exact h.elected u d hd
  case leading =>
    intro d hd
    by_cases hu : a.current d = a.current c
    · rw [hu] at hd ⊢
      obtain rfl : c = d := by simpa using hd
      exact hsame
    · rw [Function.update_of_ne hu] at hd ⊢
      exact h.leading d hd
  case unled =>
    intro u hn
    obtain ⟨hu, hn⟩ := hunled hn
    rw [Function.update_of_ne hu]
    exact h.unled u hn
  case lead_follows =>
    exact (Function.forall_update_iff a.lead fun _ l => TermLog.Follows term _ l).mpr
      ⟨(h.log_follows c).mono hg.lead, fun u _ => (h.lead_follows u).mono hg.lead⟩
  case lead_le =>
    exact (Function.forall_update_iff a.lead fun u l => ∀ e ∈ l, term e ≤ u).mpr
      ⟨fun e he => Nat.le_of_lt (h.older c _ _ hl e he), fun u _ => h.lead_le u⟩
  case held =>
    rw [hsame]
    exact List.take_prefix _ _

/-- A leader that writes an entry adds to its log, and gets nothing that it missed. -/
theorem Sound.grows_append (h : Sound term root a) {p : P} {e : E}
    (hl : a.leader (a.current p) = some p) (he : term e = a.current p) :
    Grows term a { a with
      log := Function.update a.log p (a.log p ++ [e])
      lead := Function.update a.lead (a.current p) (a.log p ++ [e])
      acked := a.ackTo p ((a.log p).length + 1) } := by
  have hlead := h.leading p hl
  refine ⟨fun u => ?_, fun hk hown hvu hm => ⟨hm.1, ?_⟩⟩
  · rw [← hlead]
    exact TermLog.isPrefix_update (List.prefix_append _ _) u
  · rw [← hlead]
    exact hm.concat hk hown hvu he

theorem Sound.append (h : Sound term root a) {p : P} {e : E}
    (hl : a.leader (a.current p) = some p) (he : term e = a.current p) :
    Sound term root { a with
      log := Function.update a.log p (a.log p ++ [e])
      lead := Function.update a.lead (a.current p) (a.log p ++ [e])
      acked := a.ackTo p ((a.log p).length + 1) } := by
  have hlead := h.leading p hl
  have hlt := (h.leader_lt hl).2
  have hg := h.grows_append hl he
  have hsame : Function.update a.lead (a.current p) (a.log p ++ [e]) (a.current p)
      = a.log p ++ [e] := Function.update_self _ _ _
  have hlogself : Function.update a.log p (a.log p ++ [e]) p = a.log p ++ [e] :=
    Function.update_self _ _ _
  -- the new entry is of the current term, whose log ends with it
  have hfollows : TermLog.Follows term
      (Function.update a.lead (a.current p) (a.log p ++ [e])) (a.log p ++ [e]) := by
    refine ((h.log_follows p).mono hg.lead).concat ?_
    rw [he]
    show a.log p ++ [e] <+: Function.update a.lead (a.current p) (a.log p ++ [e]) (a.current p)
    rw [hsame]
  have hlen : (a.log p).length + 1 ≤
      (Function.update a.lead (a.current p) (a.log p ++ [e]) (a.current p)).length := by
    rw [hsame, List.length_append, List.length_singleton]
  have hlog : ∀ q, a.log q <+: Function.update a.log p (a.log p ++ [e]) q :=
    (Function.forall_update_iff a.log fun q l => a.log q <+: l).mpr
      ⟨List.prefix_append _ _, fun q _ => List.prefix_refl _⟩
  refine { h with
    unmoved := ?unmoved, elected := ?elected, leading := ?leading, unled := ?unled
    log_follows := ?log_follows, lead_follows := ?lead_follows
    ballot_follows := fun q u d l hb => (h.ballot_follows q u d l hb).mono hg.lead
    log_ne := ?log_ne, log_lt := ?log_lt, lead_le := ?lead_le
    acked_lead := h.ackTo_le hg hlen
    acked_lt := h.ackTo_lt hlt
    held := h.held_ackTo hg hlog fun k _ => ?held
    voted := h.voted_ackTo hg } <;> dsimp only
  case unmoved =>
    intro q d l hb hn
    have hq : q ≠ p := ne_of_apply_ne a.current (ne_of_led hl hn)
    rw [Function.update_of_ne hq]
    exact h.unmoved q d l hb hn
  case elected =>
    intro u d hd
    obtain ⟨hq, m, hm, hpre, hnew⟩ := h.elected u d hd
    refine ⟨hq, m, hm, hpre.trans (hg.lead u), ?_⟩
    by_cases hu : u = a.current p
    · subst hu
      rw [hsame, ← hlead, List.drop_append_of_le_length hpre.length_le]
      exact List.forall_mem_append.mpr ⟨hnew, List.forall_mem_singleton.mpr he⟩
    · rw [Function.update_of_ne hu]
      exact hnew
  case leading =>
    intro d hd
    by_cases hd' : d = p
    · subst hd'
      rw [hsame, hlogself]
    · -- a term has one leader
      have hu : a.current d ≠ a.current p := by
        intro hu
        rw [hu, hl] at hd
        exact hd' (Option.some.inj hd).symm
      rw [Function.update_of_ne hu, Function.update_of_ne hd']
      exact h.leading d hd
  case unled =>
    intro u hn
    rw [Function.update_of_ne (ne_of_led hl hn)]
    exact h.unled u hn
  case log_follows =>
    exact (Function.forall_update_iff a.log fun _ l => TermLog.Follows term _ l).mpr
      ⟨hfollows, fun q _ => (h.log_follows q).mono hg.lead⟩
  case lead_follows =>
    exact (Function.forall_update_iff a.lead fun _ l => TermLog.Follows term _ l).mpr
      ⟨hfollows, fun u _ => (h.lead_follows u).mono hg.lead⟩
  case log_ne =>
    exact (Function.forall_update_iff a.log fun _ l => l ≠ []).mpr
      ⟨List.append_ne_nil_of_right_ne_nil _ (List.cons_ne_nil e []), fun q _ => h.log_ne q⟩
  case log_lt =>
    refine (Function.forall_update_iff a.log fun q l =>
      ∀ x ∈ l, term x < max 1 (a.horizon q)).mpr ⟨?_, fun q _ => h.log_lt q⟩
    refine List.forall_mem_append.mpr ⟨h.log_lt p, List.forall_mem_singleton.mpr ?_⟩
    rw [he]
    exact Nat.lt_of_lt_of_le hlt (Nat.le_max_right _ _)
  case lead_le =>
    refine (Function.forall_update_iff a.lead fun u l => ∀ x ∈ l, term x ≤ u).mpr
      ⟨?_, fun u _ => h.lead_le u⟩
    rw [← hlead]
    exact List.forall_mem_append.mpr
      ⟨h.lead_le _, List.forall_mem_singleton.mpr (Nat.le_of_eq he)⟩
  case held =>
    rw [hsame, hlogself]
    exact List.take_prefix _ _

omit [DecidableEq P] in
/-- A party that has heard from the leader of its term takes over a part of the leader's log: what
it has acknowledged is still there, or the leader does not have it. -/
theorem Sound.held_replace (h : Sound term root a) {p c : P} {m l : List E}
    (hfree : a.free p = false) (hl : a.leader (a.current p) = some c)
    (hm : a.ballot c (a.current p) = some (c, m)) (hml : m <+: l)
    (hpre : l <+: a.lead (a.current p))
    (hcut : l <+: a.log p → ∀ e ∈ (a.log p).drop l.length, term e ≠ a.current p) {u k : Nat}
    (hk : k < a.acked p u) (hown : a.Own term u k) : a.Holds u k l (a.horizon p) := by
  have hhor := horizon_of_not_free hfree
  have hult := h.acked_lt p u (Nat.lt_of_le_of_lt (Nat.zero_le k) hk)
  rcases h.held p u k hk hown with hold | hlater
  · by_cases hin : (a.lead u).take (k + 1) <+: a.lead (a.current p)
    · left
      rcases Nat.lt_or_ge u (a.current p) with hut | hut
      · exact (h.prefix_of_older hl hm hown hut hin).trans hml
      · obtain rfl : u = a.current p := by omega
        rcases List.prefix_or_prefix_of_prefix hin hpre with hle | hge
        · exact hle
        · -- the entry at `k` would be dropped
          obtain ⟨e, hlast, het⟩ := hown.getLast?_take
          by_cases heq : l = (a.lead (a.current p)).take (k + 1)
          · rw [heq]
          · exact absurd het (hcut (hge.trans hold) e (getLast?_mem_drop hge heq hlast hold))
    · right
      have hut : u ≠ a.current p := by
        rintro rfl
        exact hin (List.take_prefix _ _)
      exact ⟨a.current p, by omega, by omega, ⟨c, hl⟩, hin⟩
  · exact Or.inr hlater

theorem Sound.replace (h : Sound term root a) {p c : P} {m l : List E}
    (hfree : a.free p = false) (hl : a.leader (a.current p) = some c) (hne : c ≠ p)
    (hm : a.ballot c (a.current p) = some (c, m)) (hml : m <+: l)
    (hpre : l <+: a.lead (a.current p))
    (hcut : l <+: a.log p → ∀ e ∈ (a.log p).drop l.length, term e ≠ a.current p) :
    Sound term root { a with
      log := Function.update a.log p l
      acked := a.ackTo p l.length } := by
  have hhor := horizon_of_not_free hfree
  have hlt : a.current p < a.horizon p := by omega
  have hg : Grows term a { a with
      log := Function.update a.log p l
      acked := a.ackTo p l.length } := ⟨fun _ => List.prefix_refl _, fun _ _ _ hm => hm⟩
  have hself : Function.update a.log p l p = l := Function.update_self _ _ _
  have hlne : l ≠ [] := by
    rintro rfl
    obtain ⟨_, _, _, y, -, hy, -⟩ := h.candidate c _ c m hm
    rw [List.prefix_nil.mp hml] at hy
    cases hy
  refine { h with
    unmoved := ?unmoved, leading := ?leading, log_follows := ?log_follows, log_ne := ?log_ne
    log_lt := ?log_lt
    acked_lead := h.ackTo_le hg hpre.length_le
    acked_lt := h.ackTo_lt hlt
    held := ?held
    voted := h.voted_ackTo hg } <;> dsimp only
  case unmoved =>
    intro q d m hb hn
    have hq : q ≠ p := ne_of_apply_ne a.current (ne_of_led hl hn)
    rw [Function.update_of_ne hq]
    exact h.unmoved q d m hb hn
  case leading =>
    intro d hd
    have hdp : d ≠ p := by
      rintro rfl
      rw [hl] at hd
      exact hne (Option.some.inj hd)
    rw [Function.update_of_ne hdp]
    exact h.leading d hd
  case log_follows =>
    exact (Function.forall_update_iff a.log fun _ l => TermLog.Follows term _ l).mpr
      ⟨(h.lead_follows _).of_isPrefix hpre, fun q _ => h.log_follows q⟩
  case log_ne =>
    exact (Function.forall_update_iff a.log fun _ l => l ≠ []).mpr ⟨hlne, fun q _ => h.log_ne q⟩
  case log_lt =>
    refine (Function.forall_update_iff a.log fun q l =>
      ∀ x ∈ l, term x < max 1 (a.horizon q)).mpr ⟨fun x hx => ?_, fun q _ => h.log_lt q⟩
    have hxt := h.lead_le _ x (hpre.subset hx)
    have hxh : term x < a.horizon p := by omega
    exact Nat.lt_of_lt_of_le hxh (Nat.le_max_right _ _)
  case held =>
    intro q u k hk hown
    rcases lt_ackTo hk with hold | ⟨rfl, rfl, hlen⟩
    · by_cases hq : q = p
      · subst hq
        rw [hself]
        exact h.held_replace hfree hl hm hml hpre hcut hold hown
      · rw [Function.update_of_ne hq]
        exact h.held q u k hold hown
    · left
      rw [hself]
      show (a.lead (a.current q)).take (k + 1) <+: l
      rw [take_eq_of_isPrefix hpre hlen]
      exact List.take_prefix _ _

/-- **Every move keeps the invariant.** -/
theorem Sound.move (h : Sound term root a) {p : P} (hm : Move term a p a') :
    Sound term root a' := by
  cases hm with
  | raise t ht => exact h.raise ht
  | vote c hfree hpos hc => exact h.vote hfree hpos hc
  | settle c _ => exact h.settle p
  | elect V hnone hV hballot hself => exact h.elect hnone hV hballot hself
  | append e hl he => exact h.append hl he
  | replace c m l hfree hl hne hm hml hpre hcut =>
      exact h.replace hfree hl hne hm hml hpre hcut

/-- **Every move keeps the record**, and touches only the party that makes it. -/
theorem Sound.acts (h : Sound term root a) {p : P} (hm : Move term a p a') : Acts p a a' := by
  cases hm with
  | raise t ht =>
      refine ⟨⟨fun _ => List.prefix_refl _, fun _ _ hl => hl, fun _ _ _ hb => hb,
        fun _ _ => Nat.le_refl _, fun q => ?_⟩, fun q hq => Function.update_of_ne hq _ _,
        fun q hq => Function.update_of_ne hq _ _, fun _ _ => rfl, fun _ _ _ hl => hl⟩
      show a.current q ≤ Function.update a.current p t q
      by_cases hq : q = p
      · subst hq
        rw [Function.update_self]
        omega
      · rw [Function.update_of_ne hq]
  | vote c hfree _ _ =>
      exact ⟨⟨fun _ => List.prefix_refl _, fun _ _ hl => hl,
        fun _ _ _ hb => cast_of_ballot (h.ballot_eq_none hfree) hb,
        fun _ _ => Nat.le_refl _, fun _ => Nat.le_refl _⟩, fun _ _ => rfl,
        fun q hq => Function.update_of_ne hq _ _, fun _ _ => rfl, fun _ _ _ hl => hl⟩
  | settle c _ =>
      exact ⟨⟨fun _ => List.prefix_refl _, fun _ _ hl => hl, fun _ _ _ hb => hb,
        fun _ _ => Nat.le_refl _, fun _ => Nat.le_refl _⟩, fun _ _ => rfl,
        fun q hq => Function.update_of_ne hq _ _, fun _ _ => rfl, fun _ _ _ hl => hl⟩
  | elect V hnone _ _ hself =>
      obtain ⟨l, hl⟩ := hself
      have hpos := (h.settled p _ _ hl).1
      refine ⟨⟨(h.grows_elect hnone hpos).lead, fun u d hd => ?_, fun _ _ _ hb => hb,
        fun q t => acked_le_ackTo a p q _ t, fun _ => Nat.le_refl _⟩, fun _ _ => rfl,
        fun _ _ => rfl, fun _ _ => rfl, fun q hq u hd => ?_⟩
      · show Function.update a.leader (a.current p) (some p) u = some d
        have hu : u ≠ a.current p := by
          rintro rfl
          rw [hnone] at hd
          cases hd
        rw [Function.update_of_ne hu]
        exact hd
      · have hd : Function.update a.leader (a.current p) (some p) u = some q := hd
        by_cases hu : u = a.current p
        · subst hu
          rw [Function.update_self] at hd
          exact absurd (Option.some.inj hd).symm hq
        · rw [Function.update_of_ne hu] at hd
          exact hd
  | append e hl he =>
      exact ⟨⟨(h.grows_append hl he).lead, fun _ _ hd => hd, fun _ _ _ hb => hb,
        fun q t => acked_le_ackTo a p q _ t, fun _ => Nat.le_refl _⟩, fun _ _ => rfl,
        fun _ _ => rfl, fun q hq => Function.update_of_ne hq _ _, fun _ _ _ hl => hl⟩
  | replace c m l _ _ _ _ _ _ _ =>
      exact ⟨⟨fun _ => List.prefix_refl _, fun _ _ hl => hl, fun _ _ _ hb => hb,
        fun q t => acked_le_ackTo a p q _ t, fun _ => Nat.le_refl _⟩, fun _ _ => rfl,
        fun _ _ => rfl, fun q hq => Function.update_of_ne hq _ _, fun _ _ _ hl => hl⟩

/-- Some moves of one party. -/
def Moves (term : E → Nat) (p : P) : Ledger P E → Ledger P E → Prop :=
  Relation.ReflTransGen (fun a a' => Move term a p a')

theorem Sound.moves (h : Sound term root a) {p : P} (hm : Moves term p a a') :
    Sound term root a' ∧ Acts p a a' := by
  induction hm with
  | refl => exact ⟨h, Acts.refl p a⟩
  | tail _ hmove ih => exact ⟨ih.1.move hmove, ih.2.trans (ih.1.acts hmove)⟩

/-! ## Moves in a row -/

theorem exists_raise (term : E → Nat) {p : P} {t : Nat} (ht : a.current p < t) :
    ∃ a', Moves term p a a' ∧ a'.current p = t ∧ a'.free p = true ∧ a'.log = a.log ∧
      a'.ballot = a.ballot ∧ a'.leader = a.leader ∧ a'.lead = a.lead ∧ a'.acked = a.acked :=
  ⟨_, .single (.raise p t ht), Function.update_self _ _ _, Function.update_self _ _ _, rfl, rfl,
    rfl, rfl, rfl⟩

/-- A party moves to the next term and votes for itself. -/
theorem exists_campaign (term : E → Nat) (p : P) :
    ∃ a', Moves term p a a' ∧ a'.current p = a.current p + 1 ∧ a'.free p = false ∧
      a'.log = a.log ∧ a'.leader = a.leader ∧
      a'.ballot p (a.current p + 1) = some (p, a.log p) := by
  obtain ⟨b, hb, hcur, hfree, hlog, -, hleader, -, -⟩ :=
    exists_raise term (Nat.lt_succ_self (a.current p))
  have hvote : Move term b p { b with
      free := Function.update b.free p false
      ballot := b.cast p p } :=
    .vote p p hfree (by omega) (Or.inl rfl)
  refine ⟨_, hb.tail hvote, hcur, Function.update_self _ _ _, hlog, hleader, ?_⟩
  show b.cast p p p (a.current p + 1) = some (p, a.log p)
  rw [← hlog, ← Nat.succ_eq_add_one, ← hcur]
  exact cast_self b p p

/-- A party votes for a candidate of its own term or of a later one. -/
theorem exists_vote (term : E → Nat) {p c : P} {t : Nat} {l : List E} (hle : a.current p ≤ t)
    (hfree : a.current p = t → a.free p = true) (hpos : 0 < t)
    (hc : a.ballot c t = some (c, l)) (hup : UpToDate term l (a.log p)) :
    ∃ a', Moves term p a a' ∧ a'.current p = t ∧ a'.free p = false ∧ a'.log = a.log ∧
      a'.leader = a.leader ∧ a'.ballot p t = some (c, a.log p) := by
  have key : ∀ b : Ledger P E, Moves term p a b → b.current p = t → b.free p = true →
      b.log = a.log → b.ballot = a.ballot → b.leader = a.leader →
      ∃ a', Moves term p a a' ∧ a'.current p = t ∧ a'.free p = false ∧ a'.log = a.log ∧
        a'.leader = a.leader ∧ a'.ballot p t = some (c, a.log p) := by
    intro b hb hcur hfree hlog hballot hleader
    have hvote : Move term b p { b with
        free := Function.update b.free p false
        ballot := b.cast p c } := by
      refine .vote p c hfree (by omega) (Or.inr ⟨l, ?_, ?_⟩)
      · rw [hballot, hcur]
        exact hc
      · rw [hlog]
        exact hup
    refine ⟨_, hb.tail hvote, hcur, Function.update_self _ _ _, hlog, hleader, ?_⟩
    show b.cast p c p t = some (c, a.log p)
    rw [← hlog, ← hcur]
    exact cast_self b p c
  rcases Nat.lt_or_eq_of_le hle with hlt | heq
  · obtain ⟨b, hb, hcur, hf, hlog, hballot, hleader, -, -⟩ := exists_raise term hlt
    exact key b hb hcur hf hlog hballot hleader
  · exact key a .refl heq (hfree heq) rfl rfl rfl

/-- A party hears from the leader of its own term or of a later one. -/
theorem exists_hear (term : E → Nat) {p c : P} {t : Nat} (hle : a.current p ≤ t)
    (hl : a.leader t = some c) :
    ∃ a', Moves term p a a' ∧ a'.current p = t ∧ a'.free p = false ∧ a'.log = a.log ∧
      a'.ballot = a.ballot ∧ a'.leader = a.leader ∧ a'.lead = a.lead := by
  have key : ∀ b : Ledger P E, Moves term p a b → b.current p = t → b.log = a.log →
      b.ballot = a.ballot → b.leader = a.leader → b.lead = a.lead →
      ∃ a', Moves term p a a' ∧ a'.current p = t ∧ a'.free p = false ∧ a'.log = a.log ∧
        a'.ballot = a.ballot ∧ a'.leader = a.leader ∧ a'.lead = a.lead := by
    intro b hb hcur hlog hballot hleader hlead
    have hsettle : Move term b p { b with free := Function.update b.free p false } :=
      .settle p c (by rw [hleader, hcur]; exact hl)
    exact ⟨_, hb.tail hsettle, hcur, Function.update_self _ _ _, hlog, hballot, hleader, hlead⟩
  rcases Nat.lt_or_eq_of_le hle with hlt | heq
  · obtain ⟨b, hb, hcur, -, hlog, hballot, hleader, hlead, -⟩ := exists_raise term hlt
    exact key b hb hcur hlog hballot hleader hlead
  · exact key a .refl heq rfl rfl rfl rfl

/-- A party takes over a part of the log of the leader it hears from. -/
theorem exists_accept (term : E → Nat) {p c : P} {t : Nat} {m l : List E} (hle : a.current p ≤ t)
    (hl : a.leader t = some c) (hne : c ≠ p) (hm : a.ballot c t = some (c, m)) (hml : m <+: l)
    (hpre : l <+: a.lead t)
    (hcut : l <+: a.log p → ∀ e ∈ (a.log p).drop l.length, term e ≠ t) :
    ∃ a', Moves term p a a' ∧ a'.current p = t ∧ a'.free p = false ∧ a'.log p = l ∧
      a'.leader = a.leader ∧ a'.lead = a.lead ∧ l.length ≤ a'.acked p t := by
  obtain ⟨b, hb, hcur, hfree, hlog, hballot, hleader, hlead⟩ := exists_hear term hle hl
  have hreplace : Move term b p { b with
      log := Function.update b.log p l
      acked := b.ackTo p l.length } := by
    refine .replace p c m l hfree ?_ hne ?_ hml ?_ ?_
    · rw [hleader, hcur]
      exact hl
    · rw [hballot, hcur]
      exact hm
    · rw [hlead, hcur]
      exact hpre
    · rw [hlog, hcur]
      exact hcut
  refine ⟨_, hb.tail hreplace, hcur, hfree, Function.update_self _ _ _, hleader, hlead, ?_⟩
  show l.length ≤ b.ackTo p l.length p t
  rw [← hcur]
  exact le_ackTo_self b p l.length

end sound

/-- Parties in term zero, each with the log `[root]`. -/
def initial (root : E) : Ledger P E :=
  { current := fun _ => 0
    free := fun _ => true
    log := fun _ => [root]
    ballot := fun _ _ => none
    leader := fun _ => none
    lead := fun t => if t = 0 then [root] else []
    acked := fun _ _ => 0 }

theorem sound_initial [Fintype P] (hroot : term root = 0) :
    Sound term root (initial root : Ledger P E) := by
  have hfollows : TermLog.Follows term (fun t => if t = 0 then [root] else []) [root] := by
    intro i e he
    have hlt : i < 1 := (List.getElem?_eq_some_iff.mp he).1
    obtain rfl : i = 0 := by omega
    obtain rfl : root = e := Option.some.inj he
    rw [hroot]
    exact List.prefix_refl _
  refine ⟨?_, ?_, ?_, ?_, ?_, ?_, fun _ _ => rfl, fun _ => hfollows, ?_, ?_, ?_, ?_, ?_, ?_,
    ?_, ?_, ?_⟩
  · exact fun p t x hx => nomatch hx
  · exact fun p t c l hx => nomatch hx
  · exact fun p c l hx => nomatch hx
  · exact fun c t l hx => nomatch hx
  · exact fun t c hx => nomatch hx
  · exact fun c hx => nomatch hx
  · intro t
    show TermLog.Follows term _ (if t = 0 then [root] else [])
    by_cases ht : t = 0
    · rw [if_pos ht]
      exact hfollows
    · rw [if_neg ht]
      intro i e he
      cases he
  · exact fun p t c l hx => nomatch hx
  · exact fun p => List.cons_ne_nil _ _
  · intro p e he
    rw [List.mem_singleton.mp he, hroot]
    exact Nat.lt_of_lt_of_le Nat.zero_lt_one (Nat.le_max_left _ _)
  · intro t e he
    have he : e ∈ if t = 0 then [root] else [] := he
    split at he
    · rw [List.mem_singleton.mp he, hroot]
      exact Nat.zero_le t
    · cases he
  · exact fun p t => Nat.zero_le _
  · exact fun p t hk => absurd hk (Nat.lt_irrefl 0)
  · exact fun p t k hk => absurd hk (Nat.not_lt_zero k)
  · exact fun p t k v c l hk => absurd hk (Nat.not_lt_zero k)

/-- A party that takes over a part of the leader's log, as `Move.replace` allows it, keeps what
its own log has in common with the leader's. -/
theorem Sound.retained [Fintype P] (h : Sound term root a) {t : Nat} {c : P}
    {m l own r : List E} (hl : a.leader t = some c) (hm : a.ballot c t = some (c, m))
    (hml : m <+: l) (hpre : l <+: a.lead t)
    (hcut : l <+: own → ∀ e ∈ own.drop l.length, term e ≠ t) (hr : r <+: own)
    (hlead : r <+: a.lead t) : r <+: l := by
  rcases List.prefix_or_prefix_of_prefix hlead hpre with hle | ⟨rest, rfl⟩
  · exact hle
  · cases rest with
    | nil => rw [List.append_nil]
    | cons x rest =>
        -- the first entry beyond `l` would be of the leader's own term and is not
        have hin : x ∈ own.drop l.length := by
          obtain ⟨more, rfl⟩ := hr
          simp
        have hown : x ∈ (a.lead t).drop m.length := by
          obtain ⟨more, hmore⟩ := hlead
          rw [← hmore, List.append_assoc, List.drop_append_of_le_length hml.length_le]
          simp
        obtain ⟨-, m', hm', -, hnew⟩ := h.elected t c hl
        obtain rfl : m = m' := by
          rw [hm] at hm'
          exact (Prod.mk.inj (Option.some.inj hm')).2
        exact absurd (hnew x hown) (hcut ((List.prefix_append _ _).trans hr) x hin)

/-! ## Completeness and agreement -/

/-- The first `k + 1` entries of the leader of term `t` end in an entry of that term and
have been acknowledged by half of the parties or more. -/
def Committed [Fintype P] (term : E → Nat) (a : Ledger P E) (t k : Nat) : Prop :=
  a.Own term t k ∧ ∃ Q : Finset P, Fintype.card P - Fintype.card P / 2 ≤ Q.card ∧
    ∀ q ∈ Q, k < a.acked q t

theorem Committed.extend [Fintype P] {t k : Nat} (h : a.Committed term t k)
    (hext : Extends a a') : a'.Committed term t k := by
  obtain ⟨⟨e, he, het⟩, Q, hQ, hack⟩ := h
  refine ⟨⟨e, ?_, het⟩, Q, hQ, fun q hq => Nat.lt_of_lt_of_le (hack q hq) (hext.acked q t)⟩
  obtain ⟨r, hr⟩ := hext.lead t
  rw [← hr, List.getElem?_append_left (List.getElem?_eq_some_iff.mp he).1]
  exact he

/-- A log that is up to date with one that has the prefix has it too, when all leaders in
between have it. -/
theorem Sound.prefix_of_upToDate [Fintype P] (h : Sound term root a) {t k v : Nat}
    {l m : List E} (hown : a.Own term t k) (hm : TermLog.Follows term a.lead m)
    (hl : TermLog.Follows term a.lead l) (hlv : ∀ e ∈ l, term e < v)
    (hup : UpToDate term l m) (hin : (a.lead t).take (k + 1) <+: m)
    (hlater : ∀ u, t < u → u < v → a.lead u ≠ [] → (a.lead t).take (k + 1) <+: a.lead u) :
    (a.lead t).take (k + 1) <+: l := by
  obtain ⟨x, y, hx, hy, hxy⟩ := hup
  obtain ⟨e, hlast, het⟩ := hown.getLast?_take
  have hpl := hl.prefix_lead hx
  have hpm := hm.prefix_lead hy
  have hlne : l ≠ [] := by
    rintro rfl
    cases hx
  rcases hxy with hlt | ⟨heq, hlen⟩
  · -- the candidate's last entry is of a later term than the voter's
    have hte : term e ≤ term y := by
      have hmem : e ∈ a.lead (term y) := hpm.subset (hin.subset (List.mem_of_getLast? hlast))
      exact h.lead_le _ e hmem
    have hbig : (a.lead t).take (k + 1) <+: a.lead (term x) := by
      refine hlater (term x) (by omega) (hlv x (List.mem_of_getLast? hx)) ?_
      intro hnil
      rw [hnil] at hpl
      exact hlne (List.prefix_nil.mp hpl)
    rcases List.prefix_or_prefix_of_prefix hbig hpl with hle | hge
    · exact hle
    · -- too short to be of that later term
      have hmem : x ∈ a.lead t :=
        (List.take_prefix _ _).subset (hge.subset (List.mem_of_getLast? hx))
      have := h.lead_le t x hmem
      omega
  · -- both end in the same term, and the candidate's log is the longer one
    rw [heq] at hpm
    exact hin.trans (List.prefix_of_prefix_length_le hpm hpl hlen)

/-- **Completeness.** A later leader has every prefix acknowledged by half of the parties. -/
theorem Sound.complete [Fintype P] (h : Sound term root a) {t k : Nat}
    (hc : a.Committed term t k) :
    ∀ v d, t < v → a.leader v = some d → (a.lead t).take (k + 1) <+: a.lead v := by
  classical
  obtain ⟨hown, Q, hQ, hack⟩ := hc
  intro v
  -- by induction on the term: all leaders in between have the prefix
  induction v using Nat.strong_induction_on with
  | _ v ih =>
      intro d htv hd
      obtain ⟨⟨V, hV, hball⟩, l, hl, hlead, -⟩ := h.elected v d hd
      obtain ⟨p, hpV, hpQ⟩ := Median.exists_mem_both hV hQ
      obtain ⟨m, hm⟩ := hball p hpV
      have hin : (a.lead t).take (k + 1) <+: m := by
        rcases h.voted p t k v d m (hack p hpQ) hown hm htv with hin | ⟨u, htu, huv, ⟨c, hc⟩, hnot⟩
        · exact hin
        · exact absurd (ih u huv c htu hc) hnot
      obtain ⟨l', hl', hup⟩ := h.candidate p v d m hm
      obtain rfl : l = l' := by
        rw [hl] at hl'
        exact (Prod.mk.inj (Option.some.inj hl')).2
      have hpre : (a.lead t).take (k + 1) <+: l := by
        refine h.prefix_of_upToDate hown (h.ballot_follows p v d m hm)
          (h.ballot_follows d v d l hl) (h.older d v l hl) hup hin ?_
        intro u htu huv hne
        cases hu : a.leader u with
        | none =>
            rw [h.unled u hu, if_neg (by omega)] at hne
            exact absurd rfl hne
        | some c => exact ih u huv c htu hu
      exact hpre.trans hlead

/-- **Agreement.** Prefixes acknowledged by half of the parties agree. -/
theorem Sound.agree [Fintype P] (h : Sound term root a) {t k t' k' i : Nat}
    (hc : a.Committed term t k) (hc' : a.Committed term t' k') (hi : i ≤ k) (hi' : i ≤ k') :
    (a.lead t)[i]? = (a.lead t')[i]? := by
  -- it is enough that the log of the later leader has both prefixes
  have key : ∀ {t k t' k'}, t ≤ t' → a.Committed term t k → a.Committed term t' k' →
      i ≤ k → (a.lead t)[i]? = (a.lead t')[i]? := by
    intro t k t' k' hle hc hc' hi
    rcases Nat.lt_or_eq_of_le hle with hlt | rfl
    · have hd : ∃ d, a.leader t' = some d := by
        cases hd : a.leader t' with
        | some d => exact ⟨d, rfl⟩
        | none =>
            obtain ⟨e, he, -⟩ := hc'.1
            rw [h.unled t' hd, if_neg (by omega)] at he
            cases he
      obtain ⟨d, hd⟩ := hd
      obtain ⟨r, hr⟩ := h.complete hc t' d hlt hd
      obtain ⟨e, he, -⟩ := hc.1
      have hlen := TermLog.length_take_succ he
      calc (a.lead t)[i]?
          = ((a.lead t).take (k + 1))[i]? := (List.getElem?_take_of_lt (by omega)).symm
        _ = ((a.lead t).take (k + 1) ++ r)[i]? :=
            (List.getElem?_append_left (by omega)).symm
        _ = (a.lead t')[i]? := by rw [hr]
    · rfl
  rcases Nat.le_total t t' with hle | hle
  · exact key hle hc hc' hi
  · exact (key hle hc' hc hi').symm

end RaftLab.Ledger
