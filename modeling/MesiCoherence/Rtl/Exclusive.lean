import MesiCoherence.Rtl.Cycle

/-!
# A line in M or E has no other holder

The invariant survives every clock edge, whatever the CPU ports do, with set conflicts
and aliasing: off the broadcast line no cache gains a copy, and on it the owner ends
in M or E only if every other cache has let go.
-/

namespace MesiCoherence.Rtl

variable {pw : ℕ}

namespace MesiTop

/-- A cache that looks up M or E excludes every other copy. -/
def Exclusive (s : MesiTop pw) : Prop :=
  ∀ a c d, c ≠ d → s.lineState c a = .M ∨ s.lineState c a = .E → s.lineState d a = .I

variable {s : MesiTop pw} {cpu : CpuPorts pw}

theorem onBus_iff_of_winner {w : Core pw} (hw : s.winner cpu = some w) (a : Word) :
    s.OnBus cpu a ↔ lineOf a = lineOf (cpu w).addr := by
  obtain ⟨txn, -, hbus⟩ := bus_of_winner hw
  simp [OnBus, hbus]

theorem not_onBus_of_no_winner (hw : s.winner cpu = none) (a : Word) : ¬ s.OnBus cpu a := by
  simp [OnBus, bus_of_no_winner hw]

/-- Off the broadcast line a lookup stays, is evicted, or goes from E or M to M. -/
theorem step_off_bus {a : Word} (hoff : ¬ s.OnBus cpu a) (c : Core pw) :
    (s.step cpu).1.lineState c a = s.lineState c a ∨ (s.step cpu).1.lineState c a = .I ∨
      (s.step cpu).1.lineState c a = .M ∧ (s.lineState c a = .M ∨ s.lineState c a = .E) := by
  by_cases hw : s.winner cpu = some c
  · rw [step_lineState_winner hw, if_neg fun h => hoff ((onBus_iff_of_winner hw a).mpr h)]
    split
    · exact Or.inr (Or.inl rfl)
    · exact Or.inl rfl
  · rw [step_lineState_peer hw, if_neg hoff]
    split
    · next h => exact Or.inr (Or.inr ⟨rfl, h.1.held h.2⟩)
    · exact Or.inl rfl

theorem held_of_step_off_bus {a : Word} (hoff : ¬ s.OnBus cpu a) {c : Core pw}
    (h : (s.step cpu).1.lineState c a ≠ .I) : s.lineState c a ≠ .I := by
  rcases step_off_bus hoff c with he | he | ⟨-, hst⟩
  · rwa [← he]
  · exact absurd he h
  · exact State.ne_I_of_owned hst

theorem exclusive_of_step_off_bus {a : Word} (hoff : ¬ s.OnBus cpu a) {c : Core pw}
    (h : (s.step cpu).1.lineState c a = .M ∨ (s.step cpu).1.lineState c a = .E) :
    s.lineState c a = .M ∨ s.lineState c a = .E := by
  rcases step_off_bus hoff c with he | he | ⟨-, hst⟩
  · rwa [← he]
  · exact absurd he (State.ne_I_of_owned h)
  · exact hst

/-- On the broadcast line the peers take the snooped state. -/
theorem step_on_bus_peer {w c : Core pw} (hw : s.winner cpu = some w) (hc : c ≠ w) {a : Word}
    (ha : lineOf a = lineOf (cpu w).addr) :
    (s.step cpu).1.lineState c a = snoopNextState (s.lineState c a) (s.bus cpu).txn := by
  rw [step_lineState_peer (winner_ne hw hc), if_pos ((onBus_iff_of_winner hw a).mpr ha)]

/-- On the broadcast line the owner takes its next state. -/
theorem step_on_bus_winner {w : Core pw} (hw : s.winner cpu = some w) {a : Word}
    (ha : lineOf a = lineOf (cpu w).addr) :
    (s.step cpu).1.lineState w a =
      if (cpu w).we then .M
      else if ∃ c, c ≠ w ∧ s.lineState c (cpu w).addr ≠ .I then .S else .E := by
  obtain ⟨txn, hreq, -⟩ := bus_of_winner hw
  have hshared : s.aggShared cpu = true ↔ ∃ c, c ≠ w ∧ s.lineState c (cpu w).addr ≠ .I := by
    rw [aggShared_iff]
    exact exists_congr fun c => snoopHadCopy_iff hw
  rw [step_lineState_winner hw, if_pos ha]
  cases hreq with
  | read hreq hwe hst =>
    simp only [prNextState, CpuIn.pr, hreq, hwe, hst, Bool.not_true, Bool.false_eq_true, if_false,
      if_true]
    exact if_congr hshared rfl rfl
  | fetch hreq hwe hst => simp [prNextState, CpuIn.pr, hreq, hwe]
  | upgrade hreq hwe hst => simp [prNextState, CpuIn.pr, hreq, hwe]

theorem Exclusive.step (h : s.Exclusive) (cpu : CpuPorts pw) : (s.step cpu).1.Exclusive := by
  intro a c d hcd hst
  by_cases hon : s.OnBus cpu a
  · cases hw : s.winner cpu with
    | none => exact absurd hon (not_onBus_of_no_winner hw a)
    | some w =>
      have ha := (onBus_iff_of_winner hw a).mp hon
      obtain ⟨txn, hreq, hbus⟩ := bus_of_winner hw
      by_cases hc : c = w
      · subst hc
        have hd := step_on_bus_peer hw (Ne.symm hcd) ha
        rw [step_on_bus_winner hw ha] at hst
        rw [hd, hbus]
        cases hreq with
        | read hreq hwe hst' =>
          -- the owner is in E, so nobody else had a copy
          by_contra hne
          have hcopy : ∃ e, e ≠ c ∧ s.lineState e (cpu c).addr ≠ .I := by
            refine ⟨d, Ne.symm hcd, fun hI => hne ?_⟩
            rw [lineState_congr ha, hI]
            rfl
          simp [hwe, hcopy] at hst
        | fetch =>
          by_cases hI : s.lineState d a = .I <;> simp [snoopNextState, hI]
        | upgrade =>
          by_cases hI : s.lineState d a = .I <;> simp [snoopNextState, hI]
      · -- no snooped transaction leaves a peer in M or E
        rw [step_on_bus_peer hw hc ha, hbus] at hst
        rcases hreq.txn_cases with rfl | rfl | rfl <;>
          cases hs : s.lineState c a <;> simp [snoopNextState, hs] at hst
  · have hd := h a c d hcd (exclusive_of_step_off_bus hon hst)
    by_contra hne
    exact held_of_step_off_bus hon hne hd

theorem reset_lineState (s : MesiTop pw) (c : Core pw) (a : Word) :
    s.reset.lineState c a = .I := by
  unfold lineState CacheArray.lkState reset CacheArray.reset
  split <;> rfl

theorem exclusive_reset (s : MesiTop pw) : s.reset.Exclusive :=
  fun a _ d _ _ => reset_lineState s d a

/-- Every state reached from reset is exclusive. -/
theorem exclusive_run (s : MesiTop pw) (cpus : List (CpuPorts pw)) :
    ((machine pw).run s.reset cpus).Exclusive :=
  (machine pw).run_invariant (fun _ cpu h => h.step cpu) (exclusive_reset s) cpus

/-- In an exclusive state at most one cache is dirty on the bus, and none during an
    upgrade. -/
theorem Exclusive.snoopDirty_unique (h : s.Exclusive) {c d : Core pw}
    (hc : s.snoopDirty cpu c = true) (hd : s.snoopDirty cpu d = true) : c = d := by
  cases hw : s.winner cpu with
  | none =>
    rw [snoopDirty_of_no_winner hw] at hc
    cases hc
  | some w =>
    rw [snoopDirty_iff hw] at hc hd
    by_contra hne
    have hI := h _ c d hne (Or.inl hc.2)
    rw [hd.2] at hI
    cases hI

theorem Exclusive.not_dirty_of_upgrade (h : s.Exclusive) (htxn : (s.bus cpu).txn = .busUpgr)
    (c : Core pw) : s.snoopDirty cpu c = false := by
  cases hw : s.winner cpu with
  | none => exact snoopDirty_of_no_winner hw
  | some w =>
    obtain ⟨txn, hreq, hbus⟩ := bus_of_winner hw
    rw [hbus] at htxn
    obtain rfl : txn = .busUpgr := htxn
    cases hreq with
    | upgrade hreq hwe hst =>
      by_contra hne
      have hd : s.snoopDirty cpu c = true := by simpa using hne
      rw [snoopDirty_iff hw] at hd
      have hI := h _ c w hd.1 (Or.inl hd.2)
      rw [hst] at hI
      cases hI

/-- **Exclusivity in hardware.** From reset of any power-up contents and for every
    input sequence, in every state reached: a cache that looks up M or E for an address
    excludes every other copy; so in the next cycle, whatever its inputs, at most one
    cache asserts `snoop_dirty`, and none does during a `BUS_UPGR`. -/
theorem top_exclusive (pw : ℕ) (powerUp : MesiTop pw) (cpus : List (CpuPorts pw)) :
    let s := (machine pw).run powerUp.reset cpus
    (∀ a c d, c ≠ d → s.lineState c a = .M ∨ s.lineState c a = .E → s.lineState d a = .I) ∧
    ∀ cpu, (∀ c d, s.snoopDirty cpu c = true → s.snoopDirty cpu d = true → c = d) ∧
      ((s.bus cpu).txn = .busUpgr → ∀ c, s.snoopDirty cpu c = false) := by
  intro s
  have h : s.Exclusive := exclusive_run powerUp cpus
  exact ⟨h, fun cpu => ⟨fun c d hc hd => h.snoopDirty_unique hc hd,
    fun htxn c => h.not_dirty_of_upgrade htxn c⟩⟩

end MesiTop

end MesiCoherence.Rtl
