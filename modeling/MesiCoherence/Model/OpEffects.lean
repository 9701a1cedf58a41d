import MesiCoherence.Model.FlatRefinement

/-!
# Transactions, writebacks and counters of an operation

Which bus transaction an operation issues, what it does to backing memory, and by how
much it moves every counter, in terms of the line states before it.
-/

namespace MesiCoherence

variable {n : ℕ}

/-- The transaction that an operation needs in a given state of its line. -/
def opTxn (acquires : Bool) : State → BusTxn
  | .I => if acquires then .busRdX else .busRd
  | .S => if acquires then .busUpgr else .none
  | _ => .none

/-- An operation that needs no bus hits. -/
theorem opTxn_none_held {acquires : Bool} {st : State} (h : opTxn acquires st = .none) :
    st ≠ .I := by
  rintro rfl
  cases acquires <;> cases h

/-- A write that needs no bus finds its line owned. -/
theorem opTxn_none_owned {st : State} (h : opTxn true st = .none) : st = .M ∨ st = .E := by
  cases st with
  | I => cases h
  | S => cases h
  | E => exact Or.inr rfl
  | M => exact Or.inl rfl

theorem opTxn_eq_busRd {acquires : Bool} {st : State} :
    opTxn acquires st = .busRd ↔ acquires = false ∧ st = .I := by
  cases acquires <;> cases st <;> decide

theorem opTxn_eq_busRdX {acquires : Bool} {st : State} :
    opTxn acquires st = .busRdX ↔ acquires = true ∧ st = .I := by
  cases acquires <;> cases st <;> decide

theorem opTxn_eq_busUpgr {acquires : Bool} {st : State} :
    opTxn acquires st = .busUpgr ↔ acquires = true ∧ st = .S := by
  cases acquires <;> cases st <;> decide

/-- An operation fetches its line exactly when it misses. -/
theorem opTxn_fetches {acquires : Bool} {st : State} :
    (opTxn acquires st).Fetches ↔ st = .I := by
  rw [BusTxn.Fetches, opTxn_eq_busRd, opTxn_eq_busRdX]
  cases acquires <;> simp

/-- Every call but a read acquires its line. -/
def Call.acquires (c : Call n) : Bool :=
  match c.access with
  | .read _ => false
  | _ => true

namespace SnoopingBus

section Defs

variable (b : SnoopingBus n) (i : Fin n) (txn : BusTxn) (line : Word)

/-- Another core holds the line in M. -/
def DirtyPeer : Prop := ∃ k, k ≠ i ∧ b.lineState k line = .M

instance : Decidable (b.DirtyPeer i line) := inferInstanceAs (Decidable (∃ _, _))

/-- Does the transaction of core `i` cause a writeback? -/
def writebacks : ℕ := if txn.Fetches ∧ b.DirtyPeer i line then 1 else 0

/-- The counters after an operation of core `i` that issues `txn` on `line`. -/
def opPerf : PerfCounters n where
  busCyclesBusy := b.perf.busCyclesBusy + (if txn = .none then 0 else 1) + b.writebacks i txn line
  busRdCount := b.perf.busRdCount + if txn = .busRd then 1 else 0
  busRdxCount := b.perf.busRdxCount + if txn = .busRdX then 1 else 0
  busUpgrCount := b.perf.busUpgrCount + if txn = .busUpgr then 1 else 0
  busWbCount := b.perf.busWbCount + b.writebacks i txn line
  invCount j := b.perf.invCount j + if j ≠ i ∧ b.LosesCopy j txn line then 1 else 0
  l1Hit j := b.perf.l1Hit j + if j = i ∧ b.lineState i line ≠ .I then 1 else 0
  l1Miss j := b.perf.l1Miss j + if j = i ∧ b.lineState i line = .I then 1 else 0
  stallCycles j := b.perf.stallCycles j + if j = i ∧ txn ≠ .none then 1 else 0
  sbDrainCycles := b.perf.sbDrainCycles

end Defs

variable {b : SnoopingBus n} {i : Fin n} (visit : VisitOrder i) {base flat : Word → Word}

/-- At most one peer is dirty, so a fetch causes at most one writeback. -/
theorem countP_writesBack (h : Coherent base flat b) (txn : BusTxn) (line : Word) :
    visit.order.countP (b.WritesBack · txn line) = b.writebacks i txn line := by
  unfold writebacks
  by_cases hd : txn.Fetches ∧ b.DirtyPeer i line
  · obtain ⟨hf, k, hki, hk⟩ := hd
    have hone : ∀ j ∈ visit.order, (decide (b.WritesBack j txn line) = true ↔ j = k) := by
      intro j _
      rw [decide_eq_true_eq]
      constructor
      · rintro ⟨hj, -⟩
        by_contra hjk
        have hI := h.exclusive j k line hjk (Or.inl hj)
        rw [hk] at hI
        cases hI
      · rintro rfl
        exact ⟨hk, hf⟩
    rw [if_pos ⟨hf, k, hki, hk⟩]
    calc visit.order.countP (b.WritesBack · txn line)
        = visit.order.countP (· == k) := List.countP_congr fun j hj => by
          rw [hone j hj, beq_iff_eq]
      _ = visit.order.count k := rfl
      _ = 1 := List.count_eq_one_of_mem visit.nodup_order (visit.mem_order.mpr hki)
  · rw [if_neg hd, List.countP_eq_zero]
    intro j hj hw
    obtain ⟨hj', hf⟩ := of_decide_eq_true hw
    exact hd ⟨hf, j, visit.mem_order.mp hj, hj'⟩

theorem broadcast_perf (h : Coherent base flat b) (txn : BusTxn) (addr : Word) :
    (b.broadcast txn addr visit).1.perf = { b.perf with
      busCyclesBusy := b.perf.busCyclesBusy + b.writebacks i txn (lineOf addr)
      busWbCount := b.perf.busWbCount + b.writebacks i txn (lineOf addr)
      invCount := fun j => b.perf.invCount j +
        if j ≠ i ∧ b.LosesCopy j txn (lineOf addr) then 1 else 0 } := by
  unfold broadcast
  rw [snoopAll_perf txn addr _ visit.nodup_order, countP_writesBack visit h]
  simp only [visit.mem_order]

/-- A broadcast brings memory up to date on the line of a dirty peer it fetches from. -/
theorem broadcast_mem_read (h : Coherent base flat b) (txn : BusTxn) (addr x : Word) :
    (b.broadcast txn addr visit).1.mem.read x =
      if txn.Fetches ∧ b.DirtyPeer i (lineOf addr) ∧ lineOf x = lineOf addr then flat x
      else b.mem.read x := by
  unfold broadcast
  by_cases hd : txn.Fetches ∧ b.DirtyPeer i (lineOf addr)
  · obtain ⟨hf, k, hki, hk⟩ := hd
    have honly : ∀ j ∈ visit.order, j ≠ k → ¬ b.WritesBack j txn (lineOf addr) := by
      rintro j - hjk ⟨hj, -⟩
      have hI := h.exclusive j k _ hjk (Or.inl hj)
      rw [hk] at hI
      cases hI
    rw [snoopAll_mem_of_dirty txn addr _ visit.nodup_order b _ (visit.mem_order.mpr hki)
      ⟨hk, hf⟩ honly, Memory.read_writeback]
    by_cases hx : lineOf x = lineOf addr
    · rw [if_pos (c := _ ∧ _ ∧ _) ⟨hf, ⟨k, hki, hk⟩, hx⟩]
      cases hdata : (b.controllers k).data x with
      | some v =>
        have hw : x ∈ b.wordsInLine (lineOf addr) := hx ▸ h.data_words k x v hdata
        rw [if_pos ⟨hw, by simp [CacheController.hasWord, hdata]⟩]
        simp [CacheController.peek, hdata, h.present k x v hdata]
      | none =>
        -- an absent word has never been written, and memory agrees
        have hne : b.lineState k (lineOf x) ≠ .I := by
          rw [hx, hk]
          decide
        obtain ⟨hflat, hmem⟩ := h.absent k x hne hdata
        rw [if_neg (by simp [CacheController.hasWord, hdata]), hmem, hflat]
    · rw [if_neg fun hc => hx (h.words_line _ _ hc.1), if_neg fun hc => hx hc.2.2]
  · rw [snoopAll_mem_of_clean txn addr _ visit.nodup_order, if_neg fun hc => hd ⟨hc.1, hc.2.1⟩]
    rintro j hj ⟨hM, hf⟩
    exact hd ⟨hf, j, visit.mem_order.mp hj, hM⟩

/-- A broadcast after a miss was counted sees the same lines. -/
theorem afterBroadcast_mem_read (h : Coherent base flat b) (txn : BusTxn) (addr x : Word) :
    (b.afterBroadcast visit txn addr).mem.read x =
      if txn.Fetches ∧ b.DirtyPeer i (lineOf addr) ∧ lineOf x = lineOf addr then flat x
      else b.mem.read x := by
  have hreg : Coherent base flat (((b.registerAddr addr).countMiss i).countStall i) :=
    (h.registerAddr addr).congr rfl rfl rfl
  exact broadcast_mem_read visit hreg txn addr x

theorem processorRead_mem_read (h : Coherent base flat b) (addr x : Word) :
    (b.processorRead visit addr).1.mem.read x =
      if b.lineState i (lineOf addr) = .I ∧ b.DirtyPeer i (lineOf addr) ∧
        lineOf x = lineOf addr then flat x else b.mem.read x := by
  by_cases hI : b.lineState i (lineOf addr) = .I
  · rw [processorRead_miss b visit hI, fillLine_eq]
    have hmem := afterBroadcast_mem_read visit h .busRd addr x
    simp only [BusTxn.Fetches, true_or, true_and] at hmem
    simp only [hI, true_and]
    exact hmem
  · rw [processorRead_hit b visit hI, if_neg fun hc => hI hc.1]
    rfl

theorem acquireExclusive_mem_read (h : Coherent base flat b) (addr x : Word) :
    (b.acquireExclusive visit addr).1.mem.read x =
      if b.lineState i (lineOf addr) = .I ∧ b.DirtyPeer i (lineOf addr) ∧
        lineOf x = lineOf addr then flat x else b.mem.read x := by
  cases hs : b.lineState i (lineOf addr) with
  | M =>
    rw [acquireExclusive_M b visit hs]
    simp
  | E =>
    rw [acquireExclusive_E b visit hs]
    simp [setState]
  | S =>
    rw [acquireExclusive_S b visit hs]
    have hreg : Coherent base flat (((b.registerAddr addr).countHit i).countStall i) :=
      (h.registerAddr addr).congr rfl rfl rfl
    have hmem := broadcast_mem_read visit hreg .busUpgr addr x
    simp only [BusTxn.Fetches, reduceCtorEq, or_self, false_and, if_false] at hmem
    simpa [setState] using hmem
  | I =>
    rw [acquireExclusive_I b visit hs, fillLine_eq]
    have hmem := afterBroadcast_mem_read visit h .busRdX addr x
    simp only [BusTxn.Fetches, or_true, true_and] at hmem
    simp only [true_and]
    exact hmem

/-- The counters after an accounted broadcast of an operation that hit or missed. -/
theorem accounted_perf (h : Coherent base flat b) {txn : BusTxn} (addr : Word)
    (htxn : txn = .busRd ∨ txn = .busRdX ∨ txn = .busUpgr) {b' : SnoopingBus n}
    (hc : b'.controllers = b.controllers) (hm : b'.mem = b.mem)
    (hw : b'.lineWords = (b.registerAddr addr).lineWords)
    (hp : b'.perf = { b.perf with
      l1Hit := fun j => b.perf.l1Hit j +
        if j = i ∧ b.lineState i (lineOf addr) ≠ .I then 1 else 0
      l1Miss := fun j => b.perf.l1Miss j +
        if j = i ∧ b.lineState i (lineOf addr) = .I then 1 else 0
      stallCycles := fun j => b.perf.stallCycles j + if j = i then 1 else 0 }) :
    ((b'.broadcast txn addr visit).1.account txn).perf = b.opPerf i txn (lineOf addr) := by
  have hb' : Coherent base flat b' :=
    (h.registerAddr addr).congr hc (congrArg Memory.read hm) hw
  have hst : ∀ j l, b'.lineState j l = b.lineState j l := fun j l => by simp [lineState, hc]
  have hdirty : b'.DirtyPeer i (lineOf addr) ↔ b.DirtyPeer i (lineOf addr) := by
    simp only [DirtyPeer, hst]
  have hwb : b'.writebacks i txn (lineOf addr) = b.writebacks i txn (lineOf addr) :=
    if_congr (and_congr_right fun _ => hdirty) rfl rfl
  have hlost : ∀ j, b'.LosesCopy j txn (lineOf addr) ↔ b.LosesCopy j txn (lineOf addr) := by
    intro j
    simp only [LosesCopy, hst]
  have hbc := broadcast_perf visit hb' txn addr
  rw [hwb, hp] at hbc
  simp only [hlost] at hbc
  rcases htxn with rfl | rfl | rfl <;>
  · simp only [account, advanceArb, hbc, opPerf]
    ext <;> simp
    omega

theorem bump_apply (v : Fin n → ℕ) (i j : Fin n) :
    PerfCounters.bump v i j = v j + if j = i then 1 else 0 := by
  by_cases hj : j = i
  · subst hj
    simp [PerfCounters.bump]
  · simp [PerfCounters.bump, hj]

/-- The counters after a hit that needs no bus. -/
theorem countHit_perf {line : Word} (h : b.lineState i line ≠ .I) :
    (b.countHit i).perf = b.opPerf i .none line := by
  have hwb : b.writebacks i .none line = 0 := if_neg (by simp [BusTxn.Fetches])
  have hlost : ∀ j, ¬ b.LosesCopy j .none line := by simp [LosesCopy, BusTxn.Invalidates]
  simp only [countHit, opPerf, hwb, hlost]
  ext <;> simp [bump_apply, h]

theorem processorRead_perf (h : Coherent base flat b) (addr : Word) :
    (b.processorRead visit addr).1.perf =
      b.opPerf i (opTxn false (b.lineState i (lineOf addr))) (lineOf addr) := by
  by_cases hI : b.lineState i (lineOf addr) = .I
  · rw [processorRead_miss b visit hI, fillLine_eq, hI]
    refine accounted_perf visit h addr (Or.inl rfl) rfl rfl rfl ?_
    simp only [countStall, countMiss, registerAddr_perf]
    ext <;> simp [bump_apply, hI]
  · have htxn : opTxn false (b.lineState i (lineOf addr)) = .none := by
      cases hs : b.lineState i (lineOf addr) with
      | I => exact absurd hs hI
      | S => rfl
      | E => rfl
      | M => rfl
    rw [processorRead_hit b visit hI, htxn]
    exact countHit_perf hI

theorem acquireExclusive_perf (h : Coherent base flat b) (addr : Word) :
    (b.acquireExclusive visit addr).1.perf =
      b.opPerf i (opTxn true (b.lineState i (lineOf addr))) (lineOf addr) := by
  cases hs : b.lineState i (lineOf addr) with
  | M =>
    have hne : b.lineState i (lineOf addr) ≠ .I := by rw [hs]; decide
    rw [acquireExclusive_M b visit hs]
    exact countHit_perf hne
  | E =>
    have hne : b.lineState i (lineOf addr) ≠ .I := by rw [hs]; decide
    rw [acquireExclusive_E b visit hs]
    exact countHit_perf hne
  | S =>
    rw [acquireExclusive_S b visit hs]
    refine accounted_perf visit h addr (Or.inr (Or.inr rfl)) rfl rfl rfl ?_
    simp only [countStall, countHit, registerAddr_perf]
    ext <;> simp [bump_apply, hs]
  | I =>
    rw [acquireExclusive_I b visit hs, fillLine_eq]
    refine accounted_perf visit h addr (Or.inr (Or.inl rfl)) rfl rfl rfl ?_
    simp only [countStall, countMiss, registerAddr_perf]
    ext <;> simp [bump_apply, hs]

end SnoopingBus

namespace MesiSystem

variable {s : MesiSystem n} {base flat : Word → Word}

/-- The bus after a call, up to the word it stores. -/
theorem exec_bus_cases (s : MesiSystem n) (c : Call n) :
    c.acquires = false ∧
        (s.exec c).1.bus = (s.bus.processorRead c.visit c.access.addr).1 ∨
      c.acquires = true ∧
        ((s.exec c).1.bus = (s.bus.acquireExclusive c.visit c.access.addr).1 ∨
          ∃ v, (s.exec c).1.bus =
            (s.bus.acquireExclusive c.visit c.access.addr).1.putWord c.core c.access.addr v) := by
  rw [s.exec_bus, Call.acquires]
  cases c.access with
  | read a => exact Or.inl ⟨rfl, rfl⟩
  | write a v => exact Or.inr ⟨rfl, Or.inr ⟨v, rfl⟩⟩
  | cas a expected v =>
    refine Or.inr ⟨rfl, ?_⟩
    dsimp only [Access.addr]
    split
    · exact Or.inr ⟨v, rfl⟩
    · exact Or.inl rfl
  | fetchAndAdd a d => exact Or.inr ⟨rfl, Or.inr ⟨_, rfl⟩⟩

/-- The counters after a call. -/
theorem exec_perf (h : Coherent base flat s.bus) (c : Call n) :
    (s.exec c).1.bus.perf = s.bus.opPerf c.core
      (opTxn c.acquires (s.lineState c.core (lineOf c.access.addr)))
      (lineOf c.access.addr) := by
  rcases s.exec_bus_cases c with ⟨ha, hb⟩ | ⟨ha, hb | ⟨v, hb⟩⟩
  · rw [hb, ha]
    exact SnoopingBus.processorRead_perf c.visit h _
  · rw [hb, ha]
    exact SnoopingBus.acquireExclusive_perf c.visit h _
  · rw [hb, ha]
    exact SnoopingBus.acquireExclusive_perf c.visit h _

/-- Memory after a call: a miss brings the line of a dirty peer up to date. -/
theorem exec_mem_read (h : Coherent base flat s.bus) (c : Call n) (x : Word) :
    (s.exec c).1.bus.mem.read x =
      if s.lineState c.core (lineOf c.access.addr) = .I ∧
        s.bus.DirtyPeer c.core (lineOf c.access.addr) ∧ lineOf x = lineOf c.access.addr
      then flat x else s.bus.mem.read x := by
  rcases s.exec_bus_cases c with ⟨-, hb⟩ | ⟨-, hb | ⟨v, hb⟩⟩
  · rw [hb]
    exact SnoopingBus.processorRead_mem_read c.visit h _ x
  · rw [hb]
    exact SnoopingBus.acquireExclusive_mem_read c.visit h _ x
  · rw [hb]
    exact SnoopingBus.acquireExclusive_mem_read c.visit h _ x

/-- The line states after a call. -/
theorem exec_lineState (h : Coherent base flat s.bus) (c : Call n) (j : Fin n) (l : Word) :
    (s.exec c).1.lineState j l =
      if l = lineOf c.access.addr then
        if c.acquires then (if j = c.core then .M else .I)
        else if s.lineState c.core l = .I then
          (if j = c.core then (if ∃ k, k ≠ c.core ∧ s.lineState k l ≠ .I then .S else .E)
          else BusTxn.busRd.snoopNext (s.lineState j l))
        else s.lineState j l
      else s.lineState j l := by
  have hread := s.bus.processorRead_lineState c.visit c.access.addr j l
  have hacq := h.acquireExclusive_lineState c.visit c.access.addr j l
  unfold lineState at *
  by_cases hl : l = lineOf c.access.addr
  · subst hl
    rcases s.exec_bus_cases c with ⟨ha, hb⟩ | ⟨ha, hb | ⟨v, hb⟩⟩
    · rw [hb, ha, hread]
      simp
    · rw [hb, ha, hacq]
      simp
    · rw [hb, ha, SnoopingBus.lineState_putWord, hacq]
      simp
  · rcases s.exec_bus_cases c with ⟨-, hb⟩ | ⟨-, hb | ⟨v, hb⟩⟩
    · rw [hb, hread, if_neg fun hc => hl hc.1, if_neg hl]
    · rw [hb, hacq, if_neg hl, if_neg hl]
    · rw [hb, SnoopingBus.lineState_putWord, hacq, if_neg hl, if_neg hl]

/-- A call that needs no bus moves its own line to M if it writes, and nothing else. -/
theorem exec_lineState_of_hit (h : Coherent base flat s.bus) (c : Call n)
    (hit : opTxn c.acquires (s.lineState c.core (lineOf c.access.addr)) = .none) (j : Fin n)
    (l : Word) :
    (s.exec c).1.lineState j l =
      if c.acquires = true ∧ j = c.core ∧ l = lineOf c.access.addr then .M
      else s.lineState j l := by
  rw [exec_lineState h]
  by_cases hl : l = lineOf c.access.addr
  · subst hl
    cases ha : c.acquires with
    | false =>
      rw [ha] at hit
      have hheld := opTxn_none_held hit
      simp [hheld]
    | true =>
      rw [ha] at hit
      by_cases hj : j = c.core
      · simp [hj]
      · have hI : s.lineState j (lineOf c.access.addr) = .I :=
          h.exclusive c.core j _ (Ne.symm hj) (opTxn_none_owned hit)
        simp [hj, hI]
  · simp [hl]

end MesiSystem

end MesiCoherence
