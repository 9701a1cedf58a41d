import Mathlib.Order.Interval.Set.Defs
import Mathlib.Tactic.IntervalCases
import MesiCoherence.Rtl.LastWrite

/-!
# No core starves

A request is recomputed in every cycle from a cache that the other cores' transactions
change. They can take a shared copy away, and then the upgrade becomes a fetch, but they
never give the waiting core what it needs: a request that is held stays one until it is
granted. The arbiter's pointer then rotates past every other core at most once.
-/

namespace MesiCoherence.Rtl

variable {pw : ℕ}

/-- Two inputs of a core ask for the same operation on the same address. -/
def CpuIn.SameRequest (p q : CpuIn) : Prop := p.req = q.req ∧ p.we = q.we ∧ p.addr = q.addr

instance (p q : CpuIn) : Decidable (p.SameRequest q) := inferInstanceAs (Decidable (_ ∧ _))

/-- What a request may turn into while it waits. -/
def WaitsAs (txn txn' : BusTxn) : Prop := txn' = txn ∨ txn = .busUpgr ∧ txn' = .busRdX

theorem WaitsAs.trans {txn txn' txn'' : BusTxn} (h : WaitsAs txn txn')
    (h' : WaitsAs txn' txn'') : WaitsAs txn txn'' := by
  rcases h with rfl | ⟨rfl, rfl⟩
  · exact h'
  · rcases h' with rfl | ⟨hupgr, -⟩
    · exact Or.inr ⟨rfl, rfl⟩
    · cases hupgr

/-- A shared copy is kept or taken away by a snoop. -/
theorem snoopNextState_S (txn : BusTxn) :
    snoopNextState .S txn = .S ∨ snoopNextState .S txn = .I := by
  cases txn <;> decide

namespace MesiTop

variable {s : MesiTop pw} {cpu cpu' : CpuPorts pw} {c : Core pw}

theorem Requests.reqValid {txn : BusTxn} (h : s.Requests cpu c txn) :
    L1.reqValid (s.l1 c) (cpu c) = true := by
  show ((cpu c).req && needsBus (s.lineState c (cpu c).addr) (cpu c).pr) = true
  rw [h.req_eq_true, Bool.true_and, needsBus_eq_true]
  cases h with
  | read hreq hwe hst => exact Or.inl ⟨by simp [CpuIn.pr, hreq, hwe], hst⟩
  | fetch hreq hwe hst => exact Or.inr ⟨by simp [CpuIn.pr, hreq, hwe], Or.inl hst⟩
  | upgrade hreq hwe hst => exact Or.inr ⟨by simp [CpuIn.pr, hreq, hwe], Or.inr hst⟩

theorem Requests.procReqTxn_eq {txn : BusTxn} (h : s.Requests cpu c txn) :
    L1.procReqTxn (s.l1 c) (cpu c) = txn := by
  show reqTxn (s.lineState c (cpu c).addr) (cpu c).pr = txn
  cases h with
  | read hreq hwe hst => simp [CpuIn.pr, reqTxn, hreq, hwe, hst]
  | fetch hreq hwe hst => simp [CpuIn.pr, reqTxn, hreq, hwe, hst]
  | upgrade hreq hwe hst => simp [CpuIn.pr, reqTxn, hreq, hwe, hst]

/-- A core that needs the bus has no write hit. -/
theorem Requests.not_writesLocally {txn : BusTxn} (h : s.Requests cpu c txn) :
    ¬ s.WritesLocally cpu c := by
  intro hloc
  obtain ⟨⟨-, hwe', hst'⟩, -⟩ := (L1.localWriteDone_iff _ _ _ false).mp hloc
  change s.lineState c (cpu c).addr = .M ∨ s.lineState c (cpu c).addr = .E at hst'
  cases h with
  | read hreq hwe hst =>
    rw [hwe] at hwe'
    cases hwe'
  | fetch hreq hwe hst => simp [hst] at hst'
  | upgrade hreq hwe hst => simp [hst] at hst'

/-- The requested line of a core that waits only moves with the snoop. -/
theorem Requests.step_lineState {txn : BusTxn} (h : s.Requests cpu c txn)
    (hw : s.winner cpu ≠ some c) :
    (s.step cpu).1.lineState c (cpu c).addr =
      if s.OnBus cpu (cpu c).addr then
        snoopNextState (s.lineState c (cpu c).addr) (s.bus cpu).txn
      else s.lineState c (cpu c).addr := by
  rw [step_lineState_peer hw, if_neg (c := _ ∧ _) fun hl => h.not_writesLocally hl.1]

/-- **A held request stays.** In a cycle without the grant it is either unchanged, or an
    upgrade that lost its copy and becomes a fetch. -/
theorem Requests.step {txn : BusTxn} (h : s.Requests cpu c txn) (hw : s.winner cpu ≠ some c)
    (hsame : (cpu' c).SameRequest (cpu c)) :
    ∃ txn', (s.step cpu).1.Requests cpu' c txn' ∧ WaitsAs txn txn' := by
  obtain ⟨hreq', hwe', haddr⟩ := hsame
  have hst' := h.step_lineState hw
  rw [← haddr] at hst'
  -- an absent line stays absent, whatever is on the bus
  have habsent (hI : s.lineState c (cpu c).addr = .I) :
      (s.step cpu).1.lineState c (cpu' c).addr = .I := by
    rw [hst', haddr, hI, snoopNextState_I, ite_self]
  cases h with
  | read hreq hwe hI =>
    exact ⟨.busRd, .read (hreq'.trans hreq) (hwe'.trans hwe) (habsent hI), Or.inl rfl⟩
  | fetch hreq hwe hI =>
    exact ⟨.busRdX, .fetch (hreq'.trans hreq) (hwe'.trans hwe) (habsent hI), Or.inl rfl⟩
  | upgrade hreq hwe hS =>
    rw [haddr, hS, ← haddr] at hst'
    have hcases : (s.step cpu).1.lineState c (cpu' c).addr = .S ∨
        (s.step cpu).1.lineState c (cpu' c).addr = .I := by
      rw [hst']
      split
      · exact snoopNextState_S _
      · exact Or.inl rfl
    rcases hcases with hS' | hI'
    · exact ⟨.busUpgr, .upgrade (hreq'.trans hreq) (hwe'.trans hwe) hS', Or.inl rfl⟩
    · exact ⟨.busRdX, .fetch (hreq'.trans hreq) (hwe'.trans hwe) hI', Or.inr ⟨rfl, rfl⟩⟩

/-- In every run the arbiter rotates. -/
theorem winner_rotates (s : MesiTop pw) (cpu : ℕ → CpuPorts pw) :
    RoundRobin.Rotates (fun t => ((machine pw).stateAt s cpu t).ptr)
      (fun t c => L1.reqValid (((machine pw).stateAt s cpu t).l1 c) (cpu t c) = true)
      (fun t => ((machine pw).stateAt s cpu t).winner (cpu t)) where
  idle t hs c := by
    rw [arbitrate_none hs c]
    exact Bool.false_ne_true
  nearest t w hs := arbitrate_nearest hs
  moves t w hs := by
    rw [Machine.stateAt_succ]
    show (MesiTop.step _ _).1.ptr.val = _
    rw [step_ptr hs, Fin.val_add, Fin.val_one', Nat.add_mod_mod]

section Waiting

variable {s : MesiTop pw} {cpu : ℕ → CpuPorts pw} {i : Core pw} {a b : ℕ}
  (hsame : ∀ t ∈ Set.Ico a b, (cpu t i).SameRequest (cpu a i))
  (hnot : ∀ t ∈ Set.Ico a b, ((machine pw).stateAt s cpu t).winner (cpu t) ≠ some i)

include hsame hnot

/-- A held request is there in every later cycle of the interval. -/
theorem requests_while_waiting {t u : ℕ} {txn : BusTxn} (hat : a ≤ t) (htu : t ≤ u) (hub : u < b)
    (h : ((machine pw).stateAt s cpu t).Requests (cpu t) i txn) :
    ∃ txn', ((machine pw).stateAt s cpu u).Requests (cpu u) i txn' ∧ WaitsAs txn txn' := by
  induction u, htu using Nat.le_induction with
  | base => exact ⟨txn, h, Or.inl rfl⟩
  | succ u htu ih =>
    obtain ⟨txn', hu, hwait⟩ := ih (by omega)
    obtain ⟨hr, hwe, haddr⟩ := hsame u ⟨by omega, by omega⟩
    obtain ⟨hr', hwe', haddr'⟩ := hsame (u + 1) ⟨by omega, hub⟩
    obtain ⟨txn'', hnext, hwait'⟩ := hu.step (hnot u ⟨by omega, by omega⟩)
      ⟨hr'.trans hr.symm, hwe'.trans hwe.symm, haddr'.trans haddr.symm⟩
    refine ⟨txn'', ?_, hwait.trans hwait'⟩
    rw [Machine.stateAt_succ]
    exact hnext

end Waiting

/-- **Bounded waiting in hardware.** From reset of any power-up contents and for every
    endless input sequence, consider an interval of cycles in which core `i` holds its
    request, needs the bus in the first cycle and is never granted. Its `req_valid` stays
    asserted and its `req_txn` changes at most from `BUS_UPGR` to `BUS_RDX`; in every
    cycle exactly one other requesting core is granted, and none of them twice; so the
    interval has at most `N_CORES - 1` cycles. -/
theorem top_bounded_waiting (pw : ℕ) (powerUp : MesiTop pw) (cpu : ℕ → CpuPorts pw)
    (i : Core pw) (a b : ℕ) :
    let s := (machine pw).stateAt powerUp.reset cpu
    let reqValid t c := L1.reqValid ((s t).l1 c) (cpu t c)
    let reqTxn t := L1.procReqTxn ((s t).l1 i) (cpu t i)
    let grant t c := (s t).grant (cpu t) c
    (∀ t ∈ Set.Ico a b, (cpu t i).SameRequest (cpu a i)) →
    reqValid a i = true →
    (∀ t ∈ Set.Ico a b, grant t i = false) →
    (∀ t ∈ Set.Ico a b, reqValid t i = true) ∧
    (∀ t ∈ Set.Ico a b, ∀ u ∈ Set.Ico a b, t ≤ u →
      reqTxn u = reqTxn t ∨ reqTxn t = .busUpgr ∧ reqTxn u = .busRdX) ∧
    (∀ t ∈ Set.Ico a b, ∃ w, w ≠ i ∧ reqValid t w = true ∧ ∀ c, grant t c = true ↔ c = w) ∧
    (∀ c, ∀ t ∈ Set.Ico a b, ∀ u ∈ Set.Ico a b,
      grant t c = true → grant u c = true → t = u) ∧
    b - a ≤ 2 ^ pw - 1 := by
  intro s reqValid reqTxn grant hsame hfirst hgrant
  have hnot : ∀ t ∈ Set.Ico a b, (s t).winner (cpu t) ≠ some i := fun t ht =>
    grant_eq_false_iff.mp (hgrant t ht)
  have hrot := winner_rotates powerUp.reset cpu
  have hvalid : ∀ t ∈ Set.Ico a b, reqValid t i = true := by
    intro t ht
    obtain ⟨txn', ht', -⟩ := requests_while_waiting hsame hnot (le_refl a) ht.1 ht.2
      (requests_of_reqValid hfirst)
    exact ht'.reqValid
  have hreq : ∀ t, a ≤ t → t < b → reqValid t i = true := fun t ha hb => hvalid t ⟨ha, hb⟩
  have hnot' : ∀ t, a ≤ t → t < b → (s t).winner (cpu t) ≠ some i := fun t ha hb =>
    hnot t ⟨ha, hb⟩
  refine ⟨hvalid, ?_, ?_, ?_, ?_⟩
  · intro t ht u hu htu
    obtain ⟨txn', hu', hwait⟩ := requests_while_waiting hsame hnot ht.1 htu hu.2
      (requests_of_reqValid (hvalid t ht))
    rw [← hu'.procReqTxn_eq] at hwait
    exact hwait
  · intro t ht
    obtain ⟨w, hw⟩ := hrot.exists_served (hvalid t ht)
    refine ⟨w, ?_, (hrot.nearest t w hw).valid, fun c => ?_⟩
    · rintro rfl
      exact hnot t ht hw
    · have hwin : (s t).winner (cpu t) = some w := hw
      rw [grant_eq_true_iff, hwin, Option.some_inj, eq_comm]
  · intro c t ht u hu htc huc
    exact hrot.served_once hreq hnot' ht.1 ht.2 hu.1 hu.2 (grant_eq_true_iff.mp htc)
      (grant_eq_true_iff.mp huc)
  · have hlt := hrot.waiting_lt hreq hnot'
    omega

/-- All four cores read one line, and from cycle 4 on they all write it. -/
def contendedLine (t : ℕ) : CpuPorts 2 := fun c => ⟨true, decide (4 ≤ t), 0x1000#32, c.val⟩

/-- Core 3 is the last to write, after `N_CORES - 1` cycles, and its upgrade has become a
    fetch by then. -/
theorem contendedLine_bounded_waiting :
    let s := (machine 2).stateAt blank.reset contendedLine
    L1.procReqTxn ((s 4).l1 3) (contendedLine 4 3) = .busUpgr ∧
    L1.procReqTxn ((s 6).l1 3) (contendedLine 6 3) = .busRdX ∧
    L1.reqValid ((s 6).l1 3) (contendedLine 6 3) = true ∧
    (s 7).grant (contendedLine 7) 3 = true ∧ 7 - 4 ≤ 2 ^ 2 - 1 := by
  intro s
  have hsame : ∀ t ∈ Set.Ico 4 7, (contendedLine t 3).SameRequest (contendedLine 4 3) := by
    intro t ht
    refine ⟨rfl, ?_, rfl⟩
    simp [contendedLine, ht.1]
  have hnot : ∀ t ∈ Set.Ico 4 7, (s t).grant (contendedLine t) 3 = false := by
    rintro t ⟨hlow, hhigh⟩
    interval_cases t <;> decide +kernel
  obtain ⟨hvalid, -, -, -, hlen⟩ :=
    top_bounded_waiting 2 blank contendedLine 3 4 7 hsame (by decide +kernel) hnot
  exact ⟨by decide +kernel, by decide +kernel, hvalid 6 ⟨by decide, by decide⟩,
    by decide +kernel, hlen⟩

end MesiTop

end MesiCoherence.Rtl
