import Mathlib.Algebra.BigOperators.Group.Finset.Basic
import MesiCoherence.Rtl.SequentialOrder

/-!
# The performance counters balance

`rtl/perf_counters.sv` counts eight kinds of events, each from its own wires. Between them
there are equations that hold in every cycle, also when set conflicts evict lines and when
the 32-bit counters wrap.
-/

namespace MesiCoherence.Rtl

variable {pw : ℕ}

/-- What the counters owe each other, and the cores: `ops` operations completed and `reqs`
    cycles with a request. -/
structure PerfBalance (p : PerfRegs pw) (ops reqs : Core pw → ℕ) : Prop where
  busy : p.busBusyCycles = p.busRdCount + p.busRdxCount + p.busUpgrCount
  misses : ∑ c, p.l1Miss c = p.busRdCount + p.busRdxCount
  completed : ∀ c, p.l1Hit c + p.l1Miss c = BitVec.ofNat 32 (ops c)
  requested : ∀ c, p.l1Hit c + p.l1Miss c + p.stallCycles c = BitVec.ofNat 32 (reqs c)

namespace MesiTop

theorem count_eq (v : Word) (ev : Bool) : count v ev = v + if ev then 1 else 0 := by
  cases ev with
  | false => exact (BitVec.add_zero v).symm
  | true => rfl

variable {s : MesiTop pw} {cpu : CpuPorts pw}

/-- A busy cycle carries exactly one of the three transactions. -/
theorem count_busy (s : MesiTop pw) (cpu : CpuPorts pw) :
    (if (s.bus cpu).active then 1 else 0 : Word) =
      (if ((s.bus cpu).active && decide ((s.bus cpu).txn = .busRd)) then 1 else 0) +
      (if ((s.bus cpu).active && decide ((s.bus cpu).txn = .busRdX)) then 1 else 0) +
      (if ((s.bus cpu).active && decide ((s.bus cpu).txn = .busUpgr)) then 1 else 0) := by
  cases hact : (s.bus cpu).active with
  | false => rfl
  | true => rcases bus_txn_cases hact with h | h | h <;> rw [h] <;> rfl

/-- A miss is the fetch of the core that owns the bus. -/
theorem count_misses (s : MesiTop pw) (cpu : CpuPorts pw) :
    (∑ c, if L1.evMiss (s.l1 c) (cpu c) (s.grant cpu c) (s.bus cpu) then 1 else 0 : Word) =
      (if ((s.bus cpu).active && decide ((s.bus cpu).txn = .busRd)) then 1 else 0) +
      (if ((s.bus cpu).active && decide ((s.bus cpu).txn = .busRdX)) then 1 else 0) := by
  simp only [evMiss_iff]
  cases hw : s.winner cpu with
  | none =>
    rw [bus_of_no_winner hw]
    simp
  | some w =>
    obtain ⟨txn, hreq, hbus⟩ := bus_of_winner hw
    rw [Finset.sum_eq_single w (fun c _ hc => if_neg fun h => hc (Option.some.inj h.1).symm)
      (fun h => absurd (Finset.mem_univ w) h), hbus, if_congr (and_iff_right rfl) rfl rfl,
      if_congr hreq.fetch_iff.symm rfl rfl]
    rcases hreq.txn_cases with rfl | rfl | rfl <;> simp

/-- A core that completes has hit or missed. -/
theorem count_completed (s : MesiTop pw) (cpu : CpuPorts pw) (c : Core pw) :
    (if L1.evHit (s.l1 c) (cpu c) (s.grant cpu c) (s.bus cpu) then 1 else 0 : Word) +
      (if L1.evMiss (s.l1 c) (cpu c) (s.grant cpu c) (s.bus cpu) then 1 else 0) =
      if s.done cpu c then 1 else 0 := by
  show (if (s.done cpu c && decide (s.lineState c (cpu c).addr ≠ .I)) then 1 else 0 : Word) +
    (if (s.done cpu c && decide (s.lineState c (cpu c).addr = .I)) then 1 else 0) = _
  by_cases hI : s.lineState c (cpu c).addr = .I <;> cases s.done cpu c <;> simp [hI]

/-- A request completes or stalls. -/
theorem count_requested (s : MesiTop pw) (cpu : CpuPorts pw) (c : Core pw) :
    (if s.done cpu c then 1 else 0 : Word) + (if s.stall cpu c then 1 else 0) =
      if (cpu c).req then 1 else 0 := by
  have hstall : s.stall cpu c = ((cpu c).req && !(s.done cpu c)) := rfl
  rw [hstall]
  cases hd : s.done cpu c with
  | true =>
    rw [done_request hd]
    rfl
  | false => cases (cpu c).req <;> rfl

end MesiTop

/-- **One cycle**: the balance moves with the completed operations and the requests. -/
theorem PerfBalance.step {s : MesiTop pw} {ops reqs : Core pw → ℕ}
    (h : PerfBalance s.perf ops reqs) (cpu : CpuPorts pw) :
    PerfBalance (s.step cpu).1.perf (fun c => ops c + if s.done cpu c then 1 else 0)
      (fun c => reqs c + if (cpu c).req then 1 else 0) := by
  have hcompleted : ∀ c, (s.step cpu).1.perf.l1Hit c + (s.step cpu).1.perf.l1Miss c =
      s.perf.l1Hit c + s.perf.l1Miss c + if s.done cpu c then 1 else 0 := by
    intro c
    show MesiTop.count _ _ + MesiTop.count _ _ = _
    rw [MesiTop.count_eq, MesiTop.count_eq, ← MesiTop.count_completed]
    ac_rfl
  have hone (b : Bool) (k : ℕ) : BitVec.ofNat 32 (k + if b then 1 else 0) =
      BitVec.ofNat 32 k + if b then 1 else 0 := by
    cases b with
    | false => exact (BitVec.add_zero _).symm
    | true => exact BitVec.ofNat_add _ _
  constructor
  · show MesiTop.count _ _ = MesiTop.count _ _ + MesiTop.count _ _ + MesiTop.count _ _
    rw [MesiTop.count_eq, MesiTop.count_eq, MesiTop.count_eq, MesiTop.count_eq, h.busy,
      MesiTop.count_busy]
    ac_rfl
  · show ∑ c, MesiTop.count _ _ = MesiTop.count _ _ + MesiTop.count _ _
    simp only [MesiTop.count_eq]
    rw [Finset.sum_add_distrib, h.misses, MesiTop.count_misses]
    ac_rfl
  · intro c
    rw [hcompleted, h.completed, hone]
  · intro c
    show _ + MesiTop.count _ _ = _
    rw [hcompleted, MesiTop.count_eq, hone, ← h.requested, ← MesiTop.count_requested]
    ac_rfl

namespace MesiTop

/-- The completed operations of one more cycle. -/
theorem coreOps_append_length (s : MesiTop pw) (cpus : List (CpuPorts pw)) (cpu : CpuPorts pw)
    (c : Core pw) :
    (coreOps s (cpus ++ [cpu]) c).length = (coreOps s cpus c).length +
      if ((machine pw).run s cpus).done cpu c then 1 else 0 := by
  rw [coreOps_append, List.length_append]
  unfold completedOp
  show _ + (if ((machine pw).run s cpus).done cpu c then _ else _ : Option _).toList.length = _
  split <;> rfl

/-- **The counters balance in every run from reset**, whatever the cores request and
    also when counters wrap: every busy cycle is one read, read-exclusive or upgrade; the
    misses of all cores are the reads and the read-exclusives on the bus; the hits and the
    misses of a core are its completed operations; and with its stalls they are the cycles
    in which it requests. -/
theorem perfCounters_balance (pw : ℕ) (powerUp : MesiTop pw) (cpus : List (CpuPorts pw)) :
    let p := ((machine pw).run powerUp.reset cpus).perf
    p.busBusyCycles = p.busRdCount + p.busRdxCount + p.busUpgrCount ∧
    ∑ c, p.l1Miss c = p.busRdCount + p.busRdxCount ∧
    (∀ c, p.l1Hit c + p.l1Miss c =
      BitVec.ofNat 32 (coreOps powerUp.reset cpus c).length) ∧
    ∀ c, p.l1Hit c + p.l1Miss c + p.stallCycles c =
      BitVec.ofNat 32 (cpus.countP fun cpu => (cpu c).req) := by
  have h : PerfBalance ((machine pw).run powerUp.reset cpus).perf
      (fun c => (coreOps powerUp.reset cpus c).length)
      (fun c => cpus.countP fun cpu => (cpu c).req) := by
    induction cpus using List.reverseRecOn with
    | nil => exact ⟨rfl, Finset.sum_eq_zero fun _ _ => rfl, fun _ => rfl, fun _ => rfl⟩
    | append_singleton cpus cpu ih =>
      have hstep := ih.step cpu
      rw [Machine.run_append]
      simp only [coreOps_append_length, List.countP_append, List.countP_singleton]
      exact hstep
  exact ⟨h.busy, h.misses, h.completed, h.requested⟩

end MesiTop

end MesiCoherence.Rtl
