import RaftLab.Cluster.Simulation

set_option autoImplicit false

/-! # State machine safety

In a run on which the cluster keeps a ledger, what the peers send on `applyCh` is taken from
committed prefixes, and committed prefixes agree. So no two peers ever deliver different
commands under one index. On the other runs they can: a leader made by votes of another term
is enough.
-/

namespace RaftLab.Cluster

variable {n : Nat} {C D : Type} {s : Cluster n C D}

theorem shows_init : Shows (init : Cluster n C D) (Ledger.initial LogEntry.placeholder) where
  sound := Ledger.sound_initial rfl
  books := bookkeeping_init
  peers := by
    intro p
    refine ⟨rfl, rfl, rfl, rfl, rfl, Int.le_refl 0, ?_, ?_, ?_, Or.inl (Int.le_refl 0)⟩
    · exact fun h => Role.noConfusion h
    · exact fun h => Role.noConfusion h
    · exact fun h => Role.noConfusion h
  cast := by
    rintro q t c (⟨cv, hmem, -⟩ | ⟨call, hmem, -⟩)
    · cases hmem
    · cases hmem
  canvasses := by
    intro cv hmem
    cases hmem
  appends := by
    intro call hmem
    cases hmem
  snapshots := by
    intro call hmem
    cases hmem
  pending := by
    intro p msg hmem
    cases hmem
  applied := by
    intro p msg hmem
    cases hmem

/-- **The cluster refines the ledger**, over whole runs. -/
theorem refines_ledger {es : List (Event n C D)}
    (hok : Machine.Along step KeepsLedger init es) (hr : runFrom es = some s) :
    ∃ a, Relation.ReflTransGen (fun a a' => ∃ p, Ledger.Move LogEntry.term a p a')
      (Ledger.initial LogEntry.placeholder) a ∧ Shows s a := by
  refine Machine.run_simulation (fun s e s' a h hk hs => ?_) shows_init hok hr
  obtain ⟨p, a', hm, hshow⟩ := shows_step h hk hs
  exact ⟨a', Relation.ReflTransGen.mono (fun _ _ hmove => ⟨p, hmove⟩) _ _ hm, hshow⟩

/-- **State machine safety.** Messages sent on `applyCh` under one index carry one command. -/
theorem applied_agree {es : List (Event n C D)}
    (hok : Machine.Along step KeepsLedger init es) (hr : runFrom es = some s) (p q : Fin n)
    {msg msg' : ApplyMsg C D} (hmsg : msg ∈ s.applied p) (hmsg' : msg' ∈ s.applied q)
    (hidx : msg.commandIndex = msg'.commandIndex) : msg.command = msg'.command := by
  obtain ⟨a, -, h⟩ := refines_ledger hok hr
  obtain ⟨t, k, i, e, hc, hik, he, hi, hcmd⟩ := h.applied p msg hmsg
  obtain ⟨t', k', i', e', hc', hik', he', hi', hcmd'⟩ := h.applied q msg' hmsg'
  have hii : i = i' := by
    rw [hi, hi'] at hidx
    exact Int.ofNat_inj.mp hidx
  subst hii
  have hee : some e = some e' := by
    calc some e = (a.lead t)[i]? := he.symm
      _ = (a.lead t')[i]? := h.sound.agree hc hc' hik hik'
      _ = some e' := he'
  rw [hcmd, hcmd', Option.some.inj hee]

/-- Peer `0` commits a command with peer `1`, and both deliver it. -/
def oneCommand : List (Event 3 Nat Unit) :=
  [.canvassVotes 0, .requestVote 0, .voteReply 0, .start 0 (some 7), .consistencyCheck 0 1,
    .appendEntries 0, .appendReply 0, .applyTake 0 [], .applySend 0, .consistencyCheck 0 1,
    .appendEntries 1, .applyTake 1 [], .applySend 1]

theorem applied_agree_oneCommand : Machine.Along step KeepsLedger init oneCommand ∧
    ∃ s, runFrom oneCommand = some s ∧ ∃ msg ∈ s.applied 0, ∃ msg' ∈ s.applied 1,
      msg.commandIndex = 1 ∧ msg'.commandIndex = 1 ∧ msg.command = msg'.command := by
  have hok : Machine.Along step KeepsLedger init oneCommand := by decide
  have hrun : (runFrom oneCommand).any (fun s => ∃ msg ∈ s.applied 0, ∃ msg' ∈ s.applied 1,
      msg.commandIndex = 1 ∧ msg'.commandIndex = 1) = true := by decide
  obtain ⟨s, hs, hex⟩ := (Option.any_eq_true _ _).mp hrun
  obtain ⟨msg, hmsg, msg', hmsg', h1, h2⟩ := of_decide_eq_true hex
  exact ⟨hok, s, hs, msg, hmsg, msg', hmsg', h1, h2,
    applied_agree hok hs 0 1 hmsg hmsg' (h1.trans h2.symm)⟩

/-- After `twoLeaders`, peers `2` and `0` lead term 2 together. Each writes a command at
index 1, has peer `1` accept it, commits it and delivers it. -/
def twoCommands : List (Event 3 Nat Unit) :=
  twoLeaders ++
  [.start 2 (some 7), .consistencyCheck 2 1, .appendEntries 1, .appendReply 1, .applyTake 2 [],
    .applySend 2, .start 0 (some 8), .consistencyCheck 0 1, .appendEntries 2, .appendReply 2,
    .applyTake 0 [], .applySend 0]

/-- State machine safety fails without the excluded steps, with no crash and no snapshot. -/
theorem two_commands_at_one_index :
    ¬ ∀ (es : List (Event 3 Nat Unit)) (s : Cluster 3 Nat Unit),
      (∀ e ∈ es, e.isCrash = false ∧ e.isSnapshot = false) → runFrom es = some s →
      ∀ (p q : Fin 3), ∀ msg ∈ s.applied p, ∀ msg' ∈ s.applied q,
        msg.commandIndex = msg'.commandIndex → msg.command = msg'.command := by
  intro hall
  have hrun : (runFrom twoCommands).any (fun s => ∃ msg ∈ s.applied 2, ∃ msg' ∈ s.applied 0,
      msg.commandIndex = msg'.commandIndex ∧ msg.command ≠ msg'.command) = true := by decide
  obtain ⟨s, hs, hex⟩ := (Option.any_eq_true _ _).mp hrun
  obtain ⟨msg, hmsg, msg', hmsg', hidx, hne⟩ := of_decide_eq_true hex
  exact hne (hall twoCommands s (by decide) hs 2 0 msg hmsg msg' hmsg' hidx)

end RaftLab.Cluster
