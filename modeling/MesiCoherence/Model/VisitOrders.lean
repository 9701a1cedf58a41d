import Mathlib.Data.List.Indexes
import MesiCoherence.Model.Conservation

/-!
# The visiting order does not matter

Race injection shuffles the peers that a broadcast visits. Snoops write shared memory and
shared counters, and two dirty holders would overwrite each other; but a coherent bus has
at most one, so any two orders leave the same bus behind, and whole runs agree.
-/

namespace MesiCoherence

variable {n : ℕ}

attribute [ext] SnoopingBus

namespace SnoopingBus

variable {b : SnoopingBus n} {base flat : Word → Word} {i : Fin n}

/-- Memory after a broadcast: the one dirty peer of a fetched line writes back. -/
theorem broadcast_mem_eq (h : Coherent base flat b) (txn : BusTxn) (addr : Word)
    (v w : VisitOrder i) :
    (b.broadcast txn addr v).1.mem = (b.broadcast txn addr w).1.mem := by
  unfold broadcast
  by_cases hd : ∃ k, k ≠ i ∧ b.WritesBack k txn (lineOf addr)
  · obtain ⟨k, hki, hk⟩ := hd
    have honly : ∀ j, j ≠ k → ¬ b.WritesBack j txn (lineOf addr) := by
      rintro j hjk ⟨hj, -⟩
      have hI := h.exclusive j k _ hjk (Or.inl hj)
      rw [hk.1] at hI
      cases hI
    rw [snoopAll_mem_of_dirty txn addr _ v.nodup_order b _ (v.mem_order.mpr hki) hk
        fun j _ => honly j,
      snoopAll_mem_of_dirty txn addr _ w.nodup_order b _ (w.mem_order.mpr hki) hk
        fun j _ => honly j]
  · have hclean : ∀ j, j ≠ i → ¬ b.WritesBack j txn (lineOf addr) := fun j hj hw =>
      hd ⟨j, hj, hw⟩
    rw [snoopAll_mem_of_clean txn addr _ v.nodup_order b _ fun j hj =>
        hclean j (v.mem_order.mp hj),
      snoopAll_mem_of_clean txn addr _ w.nodup_order b _ fun j hj =>
        hclean j (w.mem_order.mp hj)]

/-- **One broadcast.** Any two visiting orders leave the same bus. -/
theorem broadcast_visit (h : Coherent base flat b) (ha : b.Accounted) (txn : BusTxn)
    (addr : Word) (v w : VisitOrder i) :
    (b.broadcast txn addr v).1 = (b.broadcast txn addr w).1 := by
  have hperf : (b.broadcast txn addr v).1.perf = (b.broadcast txn addr w).1.perf := by
    rw [broadcast_perf v h, broadcast_perf w h]
  apply SnoopingBus.ext
  · funext j
    unfold broadcast
    rw [snoopAll_controllers txn addr _ v.nodup_order,
      snoopAll_controllers txn addr _ w.nodup_order]
    simp only [v.mem_order, w.mem_order]
  · exact broadcast_mem_eq h txn addr v w
  · exact hperf
  · rw [broadcast_lineWords, broadcast_lineWords]
  · -- arbitration has advanced once for every transaction counted
    rw [(ha.broadcast v txn addr).arb, (ha.broadcast w txn addr).arb, hperf]

theorem broadcast_visit_hadCopy (txn : BusTxn) (addr : Word) (v w : VisitOrder i) :
    (b.broadcast txn addr v).2.hadCopy = (b.broadcast txn addr w).2.hadCopy := by
  rw [Bool.eq_iff_iff, broadcast_hadCopy, broadcast_hadCopy]

theorem afterBroadcast_visit (h : Coherent base flat b) (ha : b.Accounted) (txn : BusTxn)
    (addr : Word) (v w : VisitOrder i) :
    b.afterBroadcast v txn addr = b.afterBroadcast w txn addr := by
  have hreg : Coherent base flat (((b.registerAddr addr).countMiss i).countStall i) :=
    (h.registerAddr addr).congr rfl rfl rfl
  unfold afterBroadcast
  rw [broadcast_visit hreg (ha.stalledMiss addr i) txn addr v w]

theorem processorRead_visit (h : Coherent base flat b) (ha : b.Accounted) (addr : Word)
    (v w : VisitOrder i) : b.processorRead v addr = b.processorRead w addr := by
  have hbus : (b.processorRead v addr).1 = (b.processorRead w addr).1 := by
    by_cases hI : b.lineState i (lineOf addr) = .I
    · rw [processorRead_miss b v hI, processorRead_miss b w hI,
        afterBroadcast_visit h ha .busRd addr v w, broadcast_visit_hadCopy .busRd addr v w]
    · rw [processorRead_hit b v hI, processorRead_hit b w hI]
  apply Prod.ext hbus
  rw [processorRead_snd, processorRead_snd, hbus]

theorem acquireExclusive_visit (h : Coherent base flat b) (ha : b.Accounted) (addr : Word)
    (v w : VisitOrder i) : b.acquireExclusive v addr = b.acquireExclusive w addr := by
  have hbus : (b.acquireExclusive v addr).1 = (b.acquireExclusive w addr).1 := by
    cases hs : b.lineState i (lineOf addr) with
    | M => rw [acquireExclusive_M b v hs, acquireExclusive_M b w hs]
    | E => rw [acquireExclusive_E b v hs, acquireExclusive_E b w hs]
    | S =>
      have hreg : Coherent base flat (((b.registerAddr addr).countHit i).countStall i) :=
        (h.registerAddr addr).congr rfl rfl rfl
      rw [acquireExclusive_S b v hs, acquireExclusive_S b w hs,
        broadcast_visit hreg (ha.stalledHit addr i) .busUpgr addr v w]
    | I =>
      rw [acquireExclusive_I b v hs, acquireExclusive_I b w hs,
        afterBroadcast_visit h ha .busRdX addr v w]
  apply Prod.ext hbus
  rw [acquireExclusive_snd, acquireExclusive_snd, hbus]

end SnoopingBus

/-- The same call with another visiting order. -/
def Call.revisit (c : Call n) (visits : (core : Fin n) → VisitOrder core) : Call n :=
  ⟨c.core, c.access, visits c.core⟩

/-- The same input, where a call broadcasts in another order. -/
def Input.revisit (visits : (core : Fin n) → VisitOrder core) : Input n → Input n
  | .call c => .call (c.revisit visits)
  | i => i

namespace MesiSystem

variable {s : MesiSystem n} {base flat : Word → Word}

/-- **One call.** The order in which its broadcast visits the peers shows nowhere. -/
theorem exec_revisit (h : Coherent base flat s.bus) (ha : s.bus.Accounted) (c : Call n)
    (visits : (core : Fin n) → VisitOrder core) : s.exec (c.revisit visits) = s.exec c := by
  have hread := fun a => SnoopingBus.processorRead_visit h ha a (visits c.core) c.visit
  have hacq := fun a => SnoopingBus.acquireExclusive_visit h ha a (visits c.core) c.visit
  unfold exec Call.revisit
  cases c.access with
  | read a => simp only [read, hread]
  | write a v => simp only [write, SnoopingBus.processorWrite, hacq]
  | cas a e v => simp only [cas, hacq]
  | fetchAndAdd a d => simp only [fetchAndAdd, hacq]

theorem step_revisit (h : Coherent base flat s.bus) (ha : s.bus.Accounted)
    (visits : (core : Fin n) → VisitOrder core) (i : Input n) :
    (machine n).step s (i.revisit visits) = (machine n).step s i := by
  cases i with
  | call c =>
    have hexec := exec_revisit h ha c visits
    simp only [machine, step, Input.revisit, hexec]
  | registerAddr a => rfl
  | enableTracing on => rfl
  | clearTrace => rfl

/-- The invariant that makes the order irrelevant. -/
def Settled (s : MesiSystem n) : Prop :=
  (∃ flat, Coherent (fun _ => 0) flat s.bus) ∧ s.bus.Accounted

theorem Settled.new (n : ℕ) : (new n).Settled := ⟨⟨_, Coherent.newOver n .new⟩, .newOver n⟩

theorem Settled.step (h : s.Settled) (i : Input n) : ((machine n).step s i).1.Settled := by
  obtain ⟨⟨flat, hco⟩, hacc⟩ := h
  refine ⟨⟨_, (step_refines hco i (keepsPreload_zero s i)).1⟩, ?_⟩
  cases i with
  | call c => exact hacc.exec c
  | registerAddr a => exact ⟨hacc.busy, hacc.arb, hacc.accesses⟩
  | enableTracing on => exact hacc
  | clearTrace => exact hacc

/-- **Race injection is unobservable.** Let every broadcast of a run of a fresh system
    visit the peers in another order, chosen anew for each: the run returns the same
    values and ends with the same caches, memory, counters, arbitration pointer and
    trace. -/
theorem visit_orders_irrelevant (n : ℕ) (inputs : List (Input n))
    (choice : ℕ → (core : Fin n) → VisitOrder core) :
    (machine n).outputs (new n) (inputs.mapIdx fun k i => i.revisit (choice k)) =
        (machine n).outputs (new n) inputs ∧
      (machine n).run (new n) (inputs.mapIdx fun k i => i.revisit (choice k)) =
        (machine n).run (new n) inputs := by
  have hruns : ∀ (inputs : List (Input n)) (s : MesiSystem n)
      (choice : ℕ → (core : Fin n) → VisitOrder core), s.Settled →
      (machine n).outputs s (inputs.mapIdx fun k i => i.revisit (choice k)) =
          (machine n).outputs s inputs ∧
        (machine n).run s (inputs.mapIdx fun k i => i.revisit (choice k)) =
          (machine n).run s inputs := by
    intro inputs
    induction inputs with
    | nil => exact fun _ _ _ => ⟨rfl, rfl⟩
    | cons i inputs ih =>
      intro s choice hs
      obtain ⟨⟨flat, hco⟩, hacc⟩ := hs
      have hstep := step_revisit hco hacc (choice 0) i
      obtain ⟨hout, hrun⟩ := ih _ (fun k => choice (k + 1)) (Settled.step ⟨⟨flat, hco⟩, hacc⟩ i)
      simp only [List.mapIdx_cons, Machine.outputs_cons, Machine.run_cons, hstep]
      exact ⟨by rw [hout], hrun⟩
  exact hruns inputs _ choice (.new n)

end MesiSystem

end MesiCoherence
