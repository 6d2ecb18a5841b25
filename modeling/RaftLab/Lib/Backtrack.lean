import Mathlib.Tactic

set_option autoImplicit false

/-! # Depth-first search that remembers where it has been

A search problem has configurations, a test for the final ones, a list of moves to try in each
configuration and a partial function that makes a move. The search keeps a stack of frames (a
configuration and the moves still to be tried in it) and a list of the configurations it has
entered; a move into a configuration that counts as `same` as an entered one is skipped. It
answers `true` when it enters a final configuration and `false` when the last frame is used up.

Two things are proved of it, from separate assumptions:

* `exists_run_eq_some` — it answers, when every move lowers a rank and the number of moves to
  try is bounded;
* `run_iff_solvable` — its answer is whether a final configuration can be reached, when moreover
  configurations that count as the same have the same rank and are solvable together;
* `run_start_decides` puts the two together.
-/

namespace RaftLab.Backtrack

/-- A search problem over configurations `C` with moves `M`. -/
structure Problem (C M : Type) where
  goal : C → Bool
  moves : C → List M
  move : C → M → Option C
  same : C → C → Bool

/-- A configuration and the moves that have not been tried in it. -/
structure Frame (C M : Type) where
  cfg : C
  rest : List M

/-- The frame in work, the frames under it (nearest first) and the entered configurations. -/
structure State (C M : Type) where
  top : Frame C M
  below : List (Frame C M)
  seen : List C

variable {C M : Type}

namespace Problem

variable (P : Problem C M)

/-- The search begins in the root, with all its moves to try. -/
def start (root : C) : State C M := ⟨⟨root, P.moves root⟩, [], []⟩

/-- Goes back to the frame below a used up one; without such a frame the answer is no. -/
def leave : List (Frame C M) → List C → State C M ⊕ Bool
  | [], _ => .inr false
  | f :: fs, seen => .inl ⟨f, fs, seen⟩

/-- Tries the move `m` in `c`, where the moves `rest` are tried next. -/
def tryMove (c : C) (m : M) (rest : List M) (below : List (Frame C M)) (seen : List C) :
    State C M ⊕ Bool :=
  match P.move c m with
  | none => .inl ⟨⟨c, rest⟩, below, seen⟩
  | some c' =>
      if seen.any (P.same c') then .inl ⟨⟨c, rest⟩, below, seen⟩
      else .inl ⟨⟨c', P.moves c'⟩, ⟨c, rest⟩ :: below, seen ++ [c']⟩

/-- One round of the search: the next state, or the answer. -/
def step (s : State C M) : State C M ⊕ Bool :=
  if P.goal s.top.cfg then .inr true
  else
    match s.top.rest with
    | [] => leave s.below s.seen
    | m :: rest => P.tryMove s.top.cfg m rest s.below s.seen

/-- The answer of the search within `fuel` rounds. -/
def run : Nat → State C M → Option Bool
  | 0, _ => none
  | fuel + 1, s =>
      match P.step s with
      | .inl s' => run fuel s'
      | .inr b => some b

/-- A final configuration can be reached by moves the search may try. -/
inductive Solvable : C → Prop
  | goal {c : C} : P.goal c = true → Solvable c
  | move {c c' : C} {m : M} :
      m ∈ P.moves c → P.move c m = some c' → Solvable c' → Solvable c

/-- All that a round can do. -/
theorem step_cases {s : State C M} {o : State C M ⊕ Bool} (h : P.step s = o) :
    (P.goal s.top.cfg = true ∧ o = .inr true) ∨
    P.goal s.top.cfg = false ∧
      ((s.top.rest = [] ∧ s.below = [] ∧ o = .inr false) ∨
       (∃ f fs, s.top.rest = [] ∧ s.below = f :: fs ∧ o = .inl ⟨f, fs, s.seen⟩) ∨
       (∃ m rest, s.top.rest = m :: rest ∧
          (∀ c, P.move s.top.cfg m = some c → ∃ v ∈ s.seen, P.same c v = true) ∧
          o = .inl ⟨⟨s.top.cfg, rest⟩, s.below, s.seen⟩) ∨
       (∃ m rest c, s.top.rest = m :: rest ∧ P.move s.top.cfg m = some c ∧
          o = .inl ⟨⟨c, P.moves c⟩, ⟨s.top.cfg, rest⟩ :: s.below, s.seen ++ [c]⟩)) := by
  subst h
  rw [step]
  split
  · rename_i hgoal
    exact .inl ⟨hgoal, rfl⟩
  · rename_i hgoal
    refine .inr ⟨by simpa using hgoal, ?_⟩
    cases hrest : s.top.rest with
    | nil =>
        cases hbelow : s.below with
        | nil => exact .inl ⟨rfl, rfl, rfl⟩
        | cons f fs => exact .inr (.inl ⟨f, fs, rfl, rfl, rfl⟩)
    | cons m rest =>
        cases hmove : P.move s.top.cfg m with
        | none =>
            refine .inr (.inr (.inl ⟨m, rest, rfl, fun c hc => ?_, by simp [tryMove, hmove]⟩))
            rw [hmove] at hc
            cases hc
        | some c =>
            by_cases hseen : s.seen.any (P.same c) = true
            · refine .inr (.inr (.inl ⟨m, rest, rfl, fun c' hc => ?_,
                by simp [tryMove, hmove, hseen]⟩))
              rw [hmove] at hc
              cases hc
              exact List.any_eq_true.mp hseen
            · exact .inr (.inr (.inr ⟨m, rest, c, rfl, hmove, by simp [tryMove, hmove, hseen]⟩))

/-- The moves left to try in a frame are moves of its configuration. -/
def Fitting (s : State C M) : Prop := ∀ f ∈ s.top :: s.below, ∀ m ∈ f.rest, m ∈ P.moves f.cfg

variable {P}

theorem fitting_start (root : C) : P.Fitting (P.start root) := by
  intro f hf m hm
  have hf' : f = ⟨root, P.moves root⟩ := by simpa [start] using hf
  rwa [hf'] at hm ⊢

theorem fitting_step {s s' : State C M} (hs : P.Fitting s) (h : P.step s = .inl s') :
    P.Fitting s' := by
  obtain ⟨-, ho⟩ | ⟨-, ⟨-, -, ho⟩ | ⟨f, fs, -, hbelow, ho⟩ | ⟨m, rest, hrest, -, ho⟩ |
    ⟨m, rest, c, hrest, -, ho⟩⟩ := P.step_cases h <;> cases ho
  · intro g hg
    exact hs g (by rw [hbelow]; exact List.mem_cons_of_mem _ hg)
  all_goals
    have hused : ∀ k ∈ rest, k ∈ P.moves s.top.cfg := fun k hk =>
      hs s.top List.mem_cons_self k (by rw [hrest]; exact List.mem_cons_of_mem _ hk)
    intro g hg
  · rcases List.mem_cons.mp hg with rfl | hg
    · exact hused
    · exact hs g (List.mem_cons_of_mem _ hg)
  · rcases List.mem_cons.mp hg with rfl | hg
    · exact fun k hk => hk
    · rcases List.mem_cons.mp hg with rfl | hg
      · exact hused
      · exact hs g (List.mem_cons_of_mem _ hg)

variable (P)

/-! ## The search answers -/

section Termination

variable (rank : C → Nat) (width : Nat)

/-- Every move lowers the rank, and no configuration has more than `width` moves. -/
structure Bounded : Prop where
  moves_le : ∀ c, (P.moves c).length ≤ width
  rank_lt : ∀ {c m c'}, m ∈ P.moves c → P.move c m = some c' → rank c' < rank c

/-- An upper bound for the rounds spent in a configuration entered from one of rank `r`. -/
def cost : Nat → Nat
  | 0 => 0
  | r + 1 => width * (1 + cost r) + 1

theorem cost_le_succ (r : Nat) : cost width r ≤ cost width (r + 1) := by
  induction r with
  | zero => exact Nat.zero_le _
  | succ r ih =>
      show width * (1 + cost width r) + 1 ≤ width * (1 + cost width (r + 1)) + 1
      gcongr

theorem cost_mono : Monotone (cost width) := monotone_nat_of_le_succ (cost_le_succ width)

/-- What is left to do in a frame: every move may lead to a search of its own. -/
def frameWork (f : Frame C M) : Nat := f.rest.length * (1 + cost width (rank f.cfg)) + 1

/-- What is left to do in a state. -/
def work (s : State C M) : Nat :=
  frameWork rank width s.top + (s.below.map (frameWork rank width)).sum

variable {P rank width}

/-- A configuration just entered is paid for by the move that led to it. -/
theorem frameWork_enter (hP : P.Bounded rank width) {c c' : C} {m : M} (hm : m ∈ P.moves c)
    (hmove : P.move c m = some c') :
    frameWork rank width ⟨c', P.moves c'⟩ ≤ cost width (rank c) :=
  calc (P.moves c').length * (1 + cost width (rank c')) + 1
      ≤ width * (1 + cost width (rank c')) + 1 := by
        have := hP.moves_le c'
        gcongr
    _ = cost width (rank c' + 1) := rfl
    _ ≤ cost width (rank c) := cost_mono width (hP.rank_lt hm hmove)

variable (rank width) in
theorem frameWork_cons (c : C) (m : M) (rest : List M) :
    frameWork rank width ⟨c, m :: rest⟩
      = frameWork rank width ⟨c, rest⟩ + (1 + cost width (rank c)) := by
  show (rest.length + 1) * _ + 1 = rest.length * _ + 1 + _
  ring

/-- Every round leaves less to do. -/
theorem work_step (hP : P.Bounded rank width) {s s' : State C M} (hs : P.Fitting s)
    (h : P.step s = .inl s') : work rank width s' < work rank width s := by
  obtain ⟨⟨c, moves⟩, below, seen⟩ := s
  obtain ⟨-, ho⟩ | ⟨-, ⟨-, -, ho⟩ | ⟨f, fs, -, hbelow, ho⟩ | ⟨m, rest, hrest, -, ho⟩ |
    ⟨m, rest, c', hrest, hmove, ho⟩⟩ := P.step_cases h <;> cases ho
  · -- back to the frame below
    cases hbelow
    show frameWork rank width f + (fs.map (frameWork rank width)).sum
      < (moves.length * _ + 1) + (frameWork rank width f + (fs.map (frameWork rank width)).sum)
    omega
  · -- a move without effect
    cases hrest
    have hcons := frameWork_cons rank width c m rest
    show frameWork rank width ⟨c, rest⟩ + (below.map (frameWork rank width)).sum
      < frameWork rank width ⟨c, m :: rest⟩ + (below.map (frameWork rank width)).sum
    omega
  · -- a move into a new configuration
    cases hrest
    have hm : m ∈ P.moves c := hs _ List.mem_cons_self m List.mem_cons_self
    have henter := frameWork_enter hP hm hmove
    have hcons := frameWork_cons rank width c m rest
    show frameWork rank width ⟨c', P.moves c'⟩
        + (frameWork rank width ⟨c, rest⟩ + (below.map (frameWork rank width)).sum)
      < frameWork rank width ⟨c, m :: rest⟩ + (below.map (frameWork rank width)).sum
    omega

/-- **The search answers** within as many rounds as there is work to do. -/
theorem exists_run_eq_some (hP : P.Bounded rank width) {s : State C M} (hs : P.Fitting s) :
    ∃ b, ∀ fuel, work rank width s < fuel → P.run fuel s = some b := by
  induction hw : work rank width s using Nat.strongRecOn generalizing s with
  | _ w ih =>
      subst hw
      cases hstep : P.step s with
      | inl s' =>
          have hless := work_step hP hs hstep
          obtain ⟨b, hb⟩ := ih _ hless (fitting_step hs hstep) rfl
          refine ⟨b, fun fuel hfuel => ?_⟩
          obtain ⟨k, rfl⟩ : ∃ k, fuel = k + 1 := ⟨fuel - 1, by omega⟩
          rw [run, hstep]
          exact hb k (by omega)
      | inr b =>
          refine ⟨b, fun fuel hfuel => ?_⟩
          obtain ⟨k, rfl⟩ : ∃ k, fuel = k + 1 := ⟨fuel - 1, by omega⟩
          rw [run, hstep]

end Termination

/-! ## The answer is right -/

section Correctness

variable {P} {rank : C → Nat} {width : Nat}

/-- Configurations that count as the same have the same rank, and the remembered one is
solvable if the new one is. -/
structure Sound (P : Problem C M) (rank : C → Nat) (width : Nat) : Prop
    extends P.Bounded rank width where
  rank_same : ∀ {c v}, P.same c v = true → rank c = rank v
  solvable_same : ∀ {c v}, P.same c v = true → P.Solvable c → P.Solvable v

/-- The frames `fs` lead down from configuration `c` to the root: each made the move into the
one above it, and the moves it has tried before led nowhere. -/
def Leads (P : Problem C M) (root : C) : C → List (Frame C M) → Prop
  | c, [] => c = root
  | c, f :: fs =>
      P.goal f.cfg = false ∧
      (∃ m ∈ P.moves f.cfg, P.move f.cfg m = some c) ∧
      (∀ m ∈ P.moves f.cfg, ∀ c', P.move f.cfg m = some c' →
        m ∈ f.rest ∨ ¬ P.Solvable c' ∨ c' = c) ∧
      Leads P root f.cfg fs

/-- The invariant of the search: the moves tried in the top frame led nowhere, and so did every
entered configuration that is no longer on the stack. -/
structure Searching (P : Problem C M) (root : C) (s : State C M) : Prop where
  tried : ∀ m ∈ P.moves s.top.cfg, ∀ c', P.move s.top.cfg m = some c' →
    m ∈ s.top.rest ∨ ¬ P.Solvable c'
  leads : Leads P root s.top.cfg s.below
  seen : ∀ v ∈ s.seen, ¬ P.Solvable v ∨ ∃ f ∈ s.top :: s.below, f.cfg = v

theorem searching_start (root : C) : Searching P root (P.start root) where
  tried := fun _ hm _ _ => .inl hm
  leads := rfl
  seen := fun _ hv => nomatch hv

theorem Leads.solvable {root : C} {fs : List (Frame C M)} :
    ∀ {c : C}, Leads P root c fs → P.Solvable c → P.Solvable root := by
  induction fs with
  | nil =>
      rintro c rfl hc
      exact hc
  | cons f fs ih =>
      rintro c ⟨-, ⟨m, hm, hmove⟩, -, hleads⟩ hc
      exact ih hleads (.move hm hmove hc)

/-- Ranks grow down the stack. -/
theorem Leads.rank_lt (hP : P.Sound rank width) {root : C} {fs : List (Frame C M)} :
    ∀ {c : C}, Leads P root c fs → ∀ f ∈ fs, rank c < rank f.cfg := by
  induction fs with
  | nil => exact fun _ _ hf => nomatch hf
  | cons g fs ih =>
      rintro c ⟨-, ⟨m, hm, hmove⟩, -, hleads⟩ f hf
      have hlt : rank c < rank g.cfg := hP.rank_lt hm hmove
      rcases List.mem_cons.mp hf with rfl | hf
      · exact hlt
      · exact Nat.lt_trans hlt (ih hleads f hf)

/-- A configuration that is not final and whose moves all lead nowhere is not solvable. -/
theorem not_solvable_of_tried {c : C} (hgoal : P.goal c = false)
    (htried : ∀ m ∈ P.moves c, ∀ c', P.move c m = some c' → ¬ P.Solvable c') :
    ¬ P.Solvable c := by
  intro hc
  cases hc with
  | goal hfinal => rw [hgoal] at hfinal; cases hfinal
  | move hm hmove hc' => exact htried _ hm _ hmove hc'

/-- A used up frame leads nowhere. -/
theorem Searching.exhausted {root : C} {s : State C M} (hs : Searching P root s)
    (hgoal : P.goal s.top.cfg = false) (hrest : s.top.rest = []) : ¬ P.Solvable s.top.cfg := by
  refine not_solvable_of_tried hgoal fun m hm c' hmove => ?_
  rcases hs.tried m hm c' hmove with hin | hdead
  · rw [hrest] at hin
    cases hin
  · exact hdead

/-- A remembered configuration that counts as the same as one just found is not on the stack,
since it has the rank of the new one; so it led nowhere, and the new one leads nowhere. -/
theorem Searching.not_solvable_of_same (hP : P.Sound rank width) {root : C} {s : State C M}
    (hs : Searching P root s) {m : M} {c v : C} (hm : m ∈ P.moves s.top.cfg)
    (hmove : P.move s.top.cfg m = some c) (hv : v ∈ s.seen) (hsame : P.same c v = true) :
    ¬ P.Solvable c := by
  have hlt : rank c < rank s.top.cfg := hP.rank_lt hm hmove
  rcases hs.seen v hv with hdead | ⟨f, hf, rfl⟩
  · exact fun hc => hdead (hP.solvable_same hsame hc)
  · have heq := hP.rank_same hsame
    rcases List.mem_cons.mp hf with rfl | hf
    · omega
    · have := hs.leads.rank_lt hP f hf
      omega

theorem searching_step (hP : P.Sound rank width) {root : C} {s s' : State C M}
    (hfit : P.Fitting s) (hs : Searching P root s) (h : P.step s = .inl s') :
    Searching P root s' := by
  obtain ⟨⟨c, moves⟩, below, seen⟩ := s
  obtain ⟨-, ho⟩ | ⟨hgoal, ⟨-, -, ho⟩ | ⟨f, fs, hrest, hbelow, ho⟩ | ⟨m, rest, hrest, hskip, ho⟩ |
    ⟨m, rest, c', hrest, hmove, ho⟩⟩ := P.step_cases h <;> cases ho
  · -- back to the frame below: the configuration it had entered led nowhere
    have hdead := hs.exhausted hgoal hrest
    cases hbelow
    obtain ⟨-, -, htried, hleads⟩ := hs.leads
    refine ⟨fun m hm c'' hmove => ?_, hleads, fun v hv => ?_⟩
    · rcases htried m hm c'' hmove with hin | hno | rfl
      · exact .inl hin
      · exact .inr hno
      · exact .inr hdead
    · rcases hs.seen v hv with hno | ⟨g, hg, rfl⟩
      · exact .inl hno
      · rcases List.mem_cons.mp hg with rfl | hg
        · exact .inl hdead
        · exact .inr ⟨g, hg, rfl⟩
  · -- a move without effect
    cases hrest
    have hm : m ∈ P.moves c := hfit _ List.mem_cons_self m List.mem_cons_self
    refine ⟨fun k hk c'' hmove => ?_, hs.leads, fun v hv => ?_⟩
    · rcases hs.tried k hk c'' hmove with hin | hno
      · rcases List.mem_cons.mp hin with rfl | hin
        · obtain ⟨v, hv, hsame⟩ := hskip c'' hmove
          exact .inr (hs.not_solvable_of_same hP hm hmove hv hsame)
        · exact .inl hin
      · exact .inr hno
    · rcases hs.seen v hv with hno | ⟨g, hg, rfl⟩
      · exact .inl hno
      · rcases List.mem_cons.mp hg with rfl | hg
        · exact .inr ⟨_, List.mem_cons_self, rfl⟩
        · exact .inr ⟨g, List.mem_cons_of_mem _ hg, rfl⟩
  · -- a move into a new configuration
    cases hrest
    have hm : m ∈ P.moves c := hfit _ List.mem_cons_self m List.mem_cons_self
    refine ⟨fun k hk _ _ => .inl hk, ⟨hgoal, ⟨m, hm, hmove⟩, fun k hk c'' hk' => ?_, hs.leads⟩,
      fun v hv => ?_⟩
    · rcases hs.tried k hk c'' hk' with hin | hno
      · rcases List.mem_cons.mp hin with rfl | hin
        · exact .inr (.inr (Option.some.inj (hk'.symm.trans hmove)))
        · exact .inl hin
      · exact .inr (.inl hno)
    · rcases List.mem_append.mp hv with hv | hv
      · rcases hs.seen v hv with hno | ⟨g, hg, rfl⟩
        · exact .inl hno
        · rcases List.mem_cons.mp hg with rfl | hg
          · exact .inr ⟨⟨c, rest⟩, List.mem_cons_of_mem _ List.mem_cons_self, rfl⟩
          · exact .inr ⟨g, List.mem_cons_of_mem _ (List.mem_cons_of_mem _ hg), rfl⟩
      · obtain rfl := List.mem_singleton.mp hv
        exact .inr ⟨_, List.mem_cons_self, rfl⟩

/-- The answer given in the last round is right. -/
theorem answer_iff_solvable {root : C} {s : State C M} {b : Bool} (hs : Searching P root s)
    (h : P.step s = .inr b) : b = true ↔ P.Solvable root := by
  obtain ⟨hgoal, ho⟩ | ⟨hgoal, ⟨hrest, hbelow, ho⟩ | ⟨f, fs, -, -, ho⟩ | ⟨m, rest, -, -, ho⟩ |
    ⟨m, rest, c', -, -, ho⟩⟩ := P.step_cases h <;> cases ho
  · exact ⟨fun _ => hs.leads.solvable (.goal hgoal), fun _ => rfl⟩
  · have hdead := hs.exhausted hgoal hrest
    have hroot := hs.leads
    rw [hbelow] at hroot
    rw [show s.top.cfg = root from hroot] at hdead
    exact ⟨fun hb => (by cases hb), fun hroot => absurd hroot hdead⟩

/-- **The answer is whether a final configuration can be reached.** -/
theorem run_iff_solvable (hP : P.Sound rank width) {root : C} {b : Bool} :
    ∀ {fuel : Nat} {s : State C M}, P.Fitting s → Searching P root s →
      P.run fuel s = some b → (b = true ↔ P.Solvable root) := by
  intro fuel
  induction fuel with
  | zero => exact fun _ _ h => nomatch h
  | succ fuel ih =>
      intro s hfit hs h
      cases hstep : P.step s with
      | inl s' =>
          rw [run, hstep] at h
          exact ih (fitting_step hfit hstep) (searching_step hP hfit hs hstep) h
      | inr b' =>
          rw [run, hstep] at h
          cases h
          exact answer_iff_solvable hs hstep

/-- **The search decides solvability of its root.** -/
theorem run_start_decides (hP : P.Sound rank width) (root : C) :
    ∃ b, (∃ N, ∀ fuel, N ≤ fuel → P.run fuel (P.start root) = some b) ∧
      (b = true ↔ P.Solvable root) := by
  obtain ⟨b, hb⟩ := exists_run_eq_some hP.toBounded (fitting_start root)
  exact ⟨b, ⟨_, hb⟩, run_iff_solvable hP (fitting_start root) (searching_start root)
    (hb _ (Nat.lt_succ_self _))⟩

end Correctness

end Problem

end RaftLab.Backtrack
