import Mathlib.Algebra.BigOperators.Fin
import Mathlib.Data.FinEnum
import Mathlib.Data.Set.Card
import MesiCoherence.Model.AccessHistory

/-!
# Conservation laws of the performance counters

The counters are raised in many places, by the requester and by the snooping peers, yet
they balance: against each other, against the calls made, and against what the caches
hold now. Every fill is resident or was invalidated once; every line that became dirty
is dirty now or was written back once.
-/

namespace MesiCoherence

variable {n : ℕ}

-- ════════════════════════════════════════════════════════════════════════
-- The bus accounts for its transactions
-- ════════════════════════════════════════════════════════════════════════

/-- Busy cycles, the arbitration pointer and the memory accesses agree with the
    transaction counters. -/
structure SnoopingBus.Accounted (b : SnoopingBus n) : Prop where
  busy : b.perf.busCyclesBusy = b.perf.totalBusTxns
  arb : b.arbPtr = b.perf.totalBusTxns % n
  accesses : b.mem.accesses = b.perf.busWbCount

namespace SnoopingBus.Accounted

variable {b : SnoopingBus n}

theorem newOver (n : ℕ) : (SnoopingBus.newOver n .new).Accounted :=
  ⟨rfl, (Nat.zero_mod n).symm, rfl⟩

/-- A requester's transaction is counted once everywhere. -/
theorem account (h : b.Accounted) {txn : BusTxn}
    (htxn : txn = .busRd ∨ txn = .busRdX ∨ txn = .busUpgr) : (b.account txn).Accounted := by
  have hbusy := h.busy
  have htotal : (b.account txn).perf.totalBusTxns = b.perf.totalBusTxns + 1 := by
    rcases htxn with rfl | rfl | rfl <;>
    · simp only [SnoopingBus.account, advanceArb, PerfCounters.totalBusTxns]
      omega
  refine ⟨?_, ?_, ?_⟩
  · rw [htotal, ← hbusy]
    rcases htxn with rfl | rfl | rfl <;> rfl
  · rw [htotal, ← Nat.mod_add_mod, ← h.arb]
    rfl
  · rw [account_mem, h.accesses]
    rcases htxn with rfl | rfl | rfl <;> rfl

/-- A snooping peer that writes back counts a transaction and an access of memory. -/
theorem snooped (h : b.Accounted) (i : Fin n) (txn : BusTxn) (addr : Word) :
    (b.snooped i txn addr).Accounted := by
  have hbusy := h.busy
  have harb := h.arb
  have hacc := h.accesses
  unfold PerfCounters.totalBusTxns at hbusy harb
  by_cases hw : b.WritesBack i txn (lineOf addr)
  · have hmem : (b.snooped i txn addr).mem =
        b.mem.writeback (b.wordsInLine (lineOf addr)) (b.controllers i) := if_pos hw
    refine ⟨?_, ?_, ?_⟩
    · simp only [SnoopingBus.snooped, PerfCounters.totalBusTxns, if_pos hw]
      omega
    · simp only [SnoopingBus.snooped, PerfCounters.totalBusTxns, if_pos hw, harb,
        Nat.mod_add_mod]
      congr 1
    · rw [hmem]
      simp only [SnoopingBus.snooped, Memory.writeback, if_pos hw, hacc]
  · have hmem : (b.snooped i txn addr).mem = b.mem := if_neg hw
    refine ⟨?_, ?_, ?_⟩
    · simp only [SnoopingBus.snooped, PerfCounters.totalBusTxns, if_neg hw, Nat.add_zero]
      exact hbusy
    · simp only [SnoopingBus.snooped, PerfCounters.totalBusTxns, if_neg hw, Nat.add_zero]
      exact harb
    · rw [hmem]
      simp only [SnoopingBus.snooped, if_neg hw, Nat.add_zero, hacc]

theorem snoopAll (txn : BusTxn) (addr : Word) (is : List (Fin n)) (b : SnoopingBus n)
    (agg : SnoopResult) (h : b.Accounted) : (snoopAll txn addr is b agg).1.Accounted := by
  induction is generalizing b agg with
  | nil => exact h
  | cons i is ih =>
    rw [SnoopingBus.snoopAll, snoop_fst]
    exact ih _ _ (h.snooped i txn addr)

variable {i : Fin n} (visit : VisitOrder i)

theorem broadcast (h : b.Accounted) (txn : BusTxn) (addr : Word) :
    (b.broadcast txn addr visit).1.Accounted :=
  snoopAll txn addr visit.order b _ h

/-- Before the request is broadcast, only the core's own counters move. -/
theorem stalledMiss (h : b.Accounted) (addr : Word) (i : Fin n) :
    (((b.registerAddr addr).countMiss i).countStall i).Accounted :=
  ⟨h.busy, h.arb, h.accesses⟩

theorem stalledHit (h : b.Accounted) (addr : Word) (i : Fin n) :
    (((b.registerAddr addr).countHit i).countStall i).Accounted :=
  ⟨h.busy, h.arb, h.accesses⟩

theorem afterBroadcast (h : b.Accounted) {txn : BusTxn} (addr : Word)
    (htxn : txn = .busRd ∨ txn = .busRdX ∨ txn = .busUpgr) :
    (b.afterBroadcast visit txn addr).Accounted :=
  ((h.stalledMiss addr i).broadcast visit txn addr).account htxn

/-- Filling a line and entering a state count nothing. -/
theorem install (h : b.Accounted) (i : Fin n) (line : Word) (st : State) :
    ((b.fillLine i line).setState i line st).Accounted := by
  rw [fillLine_eq]
  exact ⟨h.busy, h.arb, h.accesses⟩

theorem processorRead (h : b.Accounted) (addr : Word) :
    (b.processorRead visit addr).1.Accounted := by
  by_cases hI : b.lineState i (lineOf addr) = .I
  · rw [processorRead_miss b visit hI]
    exact (h.afterBroadcast visit addr (Or.inl rfl)).install _ _ _
  · rw [processorRead_hit b visit hI]
    exact ⟨h.busy, h.arb, h.accesses⟩

theorem acquireExclusive (h : b.Accounted) (addr : Word) :
    (b.acquireExclusive visit addr).1.Accounted := by
  cases hs : b.lineState i (lineOf addr) with
  | M =>
    rw [acquireExclusive_M b visit hs]
    exact ⟨h.busy, h.arb, h.accesses⟩
  | E =>
    rw [acquireExclusive_E b visit hs]
    exact ⟨h.busy, h.arb, h.accesses⟩
  | S =>
    rw [acquireExclusive_S b visit hs]
    have hbus := ((h.stalledHit addr i).broadcast visit .busUpgr addr).account
      (Or.inr (Or.inr rfl))
    exact ⟨hbus.busy, hbus.arb, hbus.accesses⟩
  | I =>
    rw [acquireExclusive_I b visit hs]
    exact (h.afterBroadcast visit addr (Or.inr (Or.inl rfl))).install _ _ _

end SnoopingBus.Accounted

theorem SnoopingBus.Accounted.exec {s : MesiSystem n} (h : s.bus.Accounted) (c : Call n) :
    (s.exec c).1.bus.Accounted := by
  rcases s.exec_bus_cases c with ⟨-, hb⟩ | ⟨-, hb | ⟨v, hb⟩⟩
  · rw [hb]
    exact h.processorRead c.visit _
  · rw [hb]
    exact h.acquireExclusive c.visit _
  · rw [hb]
    have hacq := h.acquireExclusive c.visit c.access.addr
    exact ⟨hacq.busy, hacq.arb, hacq.accesses⟩

-- ════════════════════════════════════════════════════════════════════════
-- What the caches hold
-- ════════════════════════════════════════════════════════════════════════

namespace MesiSystem

/-- The lines that core `i` holds in M, E or S. -/
def heldLines (s : MesiSystem n) (i : Fin n) : Set Word := {l | s.lineState i l ≠ .I}

/-- The lines in M, each with its owner. -/
def dirtyLines (s : MesiSystem n) : Set (Fin n × Word) := {p | s.lineState p.1 p.2 = .M}

variable {s : MesiSystem n} {base flat : Word → Word}

/-- A peer loses its copy exactly when the call is of write kind: an issuer that needs no
    bus for that owned the line, and then the peer had no copy. -/
theorem losesCopy_iff (h : Coherent base flat s.bus) (c : Call n) {j : Fin n} (hj : j ≠ c.core) :
    s.bus.LosesCopy j (opTxn c.acquires (s.lineState c.core (lineOf c.access.addr)))
        (lineOf c.access.addr) ↔
      c.acquires = true ∧ s.lineState j (lineOf c.access.addr) ≠ .I := by
  have hdef : s.bus.LosesCopy j (opTxn c.acquires (s.lineState c.core (lineOf c.access.addr)))
      (lineOf c.access.addr) ↔ s.lineState j (lineOf c.access.addr) ≠ .I ∧ c.acquires = true ∧
        (s.lineState c.core (lineOf c.access.addr) = .I ∨
          s.lineState c.core (lineOf c.access.addr) = .S) := by
    rw [SnoopingBus.LosesCopy, BusTxn.Invalidates, opTxn_eq_busRdX, opTxn_eq_busUpgr,
      ← and_or_left]
    rfl
  have hexcl := h.exclusive c.core j (lineOf c.access.addr) (Ne.symm hj)
  rw [hdef]
  constructor
  · rintro ⟨hheld, ha, -⟩
    exact ⟨ha, hheld⟩
  · rintro ⟨ha, hheld⟩
    refine ⟨hheld, ha, ?_⟩
    cases hst : s.lineState c.core (lineOf c.access.addr) with
    | I => exact Or.inl rfl
    | S => exact Or.inr rfl
    | E => exact absurd (hexcl (Or.inr hst)) hheld
    | M => exact absurd (hexcl (Or.inl hst)) hheld

/-- A call leaves its core with the line and takes it from the peers it invalidates. -/
theorem exec_heldLines (h : Coherent base flat s.bus) (c : Call n) (j : Fin n) :
    (s.exec c).1.heldLines j =
      if j = c.core then insert (lineOf c.access.addr) (s.heldLines j)
      else if s.bus.LosesCopy j
          (opTxn c.acquires (s.lineState c.core (lineOf c.access.addr))) (lineOf c.access.addr)
        then s.heldLines j \ {lineOf c.access.addr}
      else s.heldLines j := by
  ext l
  rw [heldLines, Set.mem_ofPred_eq, exec_lineState h]
  by_cases hl : l = lineOf c.access.addr
  · subst hl
    by_cases hj : j = c.core
    · subst hj
      cases ha : c.acquires with
      | true => simp
      | false =>
        by_cases hI : s.lineState c.core (lineOf c.access.addr) = .I
        · simp only [hI, if_true, Bool.false_eq_true, if_false, Set.mem_insert_iff, true_or,
            iff_true]
          split <;> decide
        · simp [hI]
    · simp only [losesCopy_iff h c hj, if_true, hj, if_false]
      cases ha : c.acquires with
      | true =>
        simp only [if_true, ne_eq, not_true_eq_false, false_iff, true_and]
        split
        · simp
        · next hno => exact hno
      | false =>
        simp only [Bool.false_eq_true, if_false, false_and]
        split
        · cases hst : s.lineState j (lineOf c.access.addr) <;>
            simp [heldLines, hst, BusTxn.snoopNext]
        · rfl
  · simp only [if_neg hl]
    split
    · simp [hl, heldLines]
    · split
      · simp [hl, heldLines]
      · rfl

/-- A fill adds a resident line and an invalidation takes one away. -/
theorem exec_heldLines_ncard (h : Coherent base flat s.bus) (c : Call n) (j : Fin n) :
    ((s.exec c).1.heldLines j).ncard +
        (if j ≠ c.core ∧ s.bus.LosesCopy j
          (opTxn c.acquires (s.lineState c.core (lineOf c.access.addr)))
          (lineOf c.access.addr) then 1 else 0) =
      (s.heldLines j).ncard +
        if j = c.core ∧ s.lineState c.core (lineOf c.access.addr) = .I then 1 else 0 := by
  rw [exec_heldLines h]
  by_cases hj : j = c.core
  · subst hj
    by_cases hI : s.lineState c.core (lineOf c.access.addr) = .I
    · have hnew : lineOf c.access.addr ∉ s.heldLines c.core := fun hm => hm hI
      rw [if_pos rfl, Set.ncard_insert_of_notMem hnew (Set.toFinite _)]
      simp [hI]
    · have hold : lineOf c.access.addr ∈ s.heldLines c.core := hI
      rw [if_pos rfl, Set.insert_eq_of_mem hold]
      simp [hI]
  · by_cases hlost : s.bus.LosesCopy j
        (opTxn c.acquires (s.lineState c.core (lineOf c.access.addr))) (lineOf c.access.addr)
    · have hheld : lineOf c.access.addr ∈ s.heldLines j := hlost.1
      rw [if_neg hj, if_pos hlost, if_pos ⟨hj, hlost⟩, if_neg fun hc => hj hc.1]
      exact Set.ncard_sdiff_singleton_add_one hheld (Set.toFinite _)
    · rw [if_neg hj, if_neg hlost, if_neg fun hc => hlost hc.2, if_neg fun hc => hj hc.1]

/-- A line has at most one dirty owner. -/
theorem dirtyLines_off_ncard (h : Coherent base flat s.bus) (line : Word) :
    (s.dirtyLines \ {p | p.2 = line}).ncard +
      (if ∃ k, s.lineState k line = .M then 1 else 0) = s.dirtyLines.ncard := by
  by_cases hd : ∃ k, s.lineState k line = .M
  · obtain ⟨k, hk⟩ := hd
    have honly : s.dirtyLines \ {p | p.2 = line} = s.dirtyLines \ {(k, line)} := by
      ext ⟨j, l⟩
      simp only [Set.mem_sdiff, Set.mem_ofPred_eq, Set.mem_singleton_iff, Prod.mk.injEq]
      refine and_congr_right fun hj => not_congr ⟨fun hl => ⟨?_, hl⟩, fun hl => hl.2⟩
      by_contra hjk
      have hI := h.exclusive j k l hjk (Or.inl hj)
      subst hl
      rw [show s.bus.lineState k l = .M from hk] at hI
      cases hI
    rw [if_pos ⟨k, hk⟩, honly]
    exact Set.ncard_sdiff_singleton_add_one hk (Set.toFinite _)
  · have hnone : s.dirtyLines \ {p | p.2 = line} = s.dirtyLines := by
      ext ⟨j, l⟩
      simp only [Set.mem_sdiff, Set.mem_ofPred_eq, and_iff_left_iff_imp]
      rintro hj rfl
      exact hd ⟨j, hj⟩
    rw [if_neg hd, hnone]
    rfl

/-- Only the owner of an acquired line is dirty after a call, and a missing read leaves
    the line clean. -/
theorem exec_dirtyLines (h : Coherent base flat s.bus) (c : Call n) :
    (s.exec c).1.dirtyLines =
      if c.acquires = true then
        insert (c.core, lineOf c.access.addr) (s.dirtyLines \ {p | p.2 = lineOf c.access.addr})
      else if s.lineState c.core (lineOf c.access.addr) = .I then
        s.dirtyLines \ {p | p.2 = lineOf c.access.addr}
      else s.dirtyLines := by
  ext ⟨j, l⟩
  rw [dirtyLines, Set.mem_ofPred_eq, exec_lineState h]
  by_cases hl : l = lineOf c.access.addr
  · subst hl
    cases ha : c.acquires with
    | true =>
      by_cases hj : j = c.core
      · simp [hj]
      · simp [hj]
    | false =>
      by_cases hI : s.lineState c.core (lineOf c.access.addr) = .I
      · simp only [hI, if_true, Bool.false_eq_true, if_false]
        have hclean : ∀ st, BusTxn.busRd.snoopNext st ≠ .M := by
          intro st
          cases st <;> decide
        split
        · split <;> simp
        · simp [hclean]
      · simp [hI, dirtyLines]
  · simp only [if_neg hl]
    split
    · simp [hl, dirtyLines]
    · split
      · simp [hl, dirtyLines]
      · rfl

/-- A call of write kind that finds its line not yet in M. -/
def Dirties (s : MesiSystem n) (c : Call n) : Prop :=
  c.acquires = true ∧ s.lineState c.core (lineOf c.access.addr) ≠ .M

instance (s : MesiSystem n) (c : Call n) : Decidable (s.Dirties c) :=
  inferInstanceAs (Decidable (_ ∧ _))

/-- The dirty owner of a line is a given core or one of its peers. -/
theorem exists_dirty_iff (s : MesiSystem n) (i : Fin n) (line : Word) :
    (∃ k, s.lineState k line = .M) ↔ s.lineState i line = .M ∨ s.bus.DirtyPeer i line := by
  constructor
  · rintro ⟨k, hk⟩
    by_cases hki : k = i
    · exact Or.inl (hki ▸ hk)
    · exact Or.inr ⟨k, hki, hk⟩
  · rintro (hM | ⟨k, -, hk⟩)
    · exact ⟨_, hM⟩
    · exact ⟨k, hk⟩

/-- A call that dirties its line adds a dirty line and a writeback takes one away. -/
theorem exec_dirtyLines_ncard (h : Coherent base flat s.bus) (c : Call n) :
    (s.exec c).1.dirtyLines.ncard + s.bus.writebacks c.core
        (opTxn c.acquires (s.lineState c.core (lineOf c.access.addr))) (lineOf c.access.addr) =
      s.dirtyLines.ncard + if s.Dirties c then 1 else 0 := by
  have hoff := dirtyLines_off_ncard h (lineOf c.access.addr)
  have hnew : (c.core, lineOf c.access.addr) ∉
      s.dirtyLines \ {p | p.2 = lineOf c.access.addr} := fun hm => hm.2 rfl
  have hins := Set.ncard_insert_of_notMem hnew (Set.toFinite _)
  have howner := s.exists_dirty_iff c.core (lineOf c.access.addr)
  have hexcl : s.bus.DirtyPeer c.core (lineOf c.access.addr) →
      s.lineState c.core (lineOf c.access.addr) = .I := by
    rintro ⟨k, hkc, hk⟩
    exact h.exclusive k c.core _ hkc (Or.inl hk)
  rw [exec_dirtyLines h, SnoopingBus.writebacks]
  simp only [Dirties, opTxn_fetches]
  simp only [howner] at hoff
  by_cases ha : c.acquires = true
  · by_cases hpeer : s.bus.DirtyPeer c.core (lineOf c.access.addr)
    · have hI := hexcl hpeer
      simp only [ha, hI, hpeer, or_true, if_true, true_and, ne_eq, reduceCtorEq,
        not_false_eq_true] at hoff ⊢
      omega
    · by_cases hM : s.lineState c.core (lineOf c.access.addr) = .M
      · simp only [ha, hM, hpeer, true_or, if_true, and_false, if_false, ne_eq,
          not_true_eq_false] at hoff ⊢
        omega
      · simp only [ha, hM, hpeer, or_self, if_false, and_false, if_true, ne_eq,
          not_false_eq_true, and_self] at hoff ⊢
        omega
  · by_cases hpeer : s.bus.DirtyPeer c.core (lineOf c.access.addr)
    · have hI := hexcl hpeer
      simp only [ha, hI, hpeer, or_true, if_true, if_false, Bool.false_eq_true, false_and,
        and_self] at hoff ⊢
      omega
    · by_cases hI : s.lineState c.core (lineOf c.access.addr) = .I
      · simp only [ha, hI, hpeer, reduceCtorEq, or_self, if_false, and_false, if_true,
          Bool.false_eq_true, false_and] at hoff ⊢
        omega
      · simp [ha, hI]

-- ════════════════════════════════════════════════════════════════════════
-- The laws
-- ════════════════════════════════════════════════════════════════════════

/-- A call of write kind that finds its line in E moves it to M without the bus. -/
def SilentUpgrade (s : MesiSystem n) : Input n → Prop
  | .call c => c.acquires = true ∧ s.lineState c.core (lineOf c.access.addr) = .E
  | _ => False

instance (s : MesiSystem n) : (i : Input n) → Decidable (s.SilentUpgrade i)
  | .call _ => inferInstanceAs (Decidable (_ ∧ _))
  | .registerAddr _ => .isFalse id
  | .enableTracing _ => .isFalse id
  | .clearTrace => .isFalse id

/-- How many calls of a history upgraded their line silently. -/
def silentUpgrades (calls : List (Call n)) : ℕ :=
  (machine n).countSteps SilentUpgrade (.new n) (calls.map .call)

theorem silentUpgrades_append (calls : List (Call n)) (c : Call n) :
    silentUpgrades (calls ++ [c]) = silentUpgrades calls +
      if (after n calls).SilentUpgrade (.call c) then 1 else 0 := by
  rw [silentUpgrades, List.map_append, Machine.countSteps_append]
  rfl

/-- The counters of a system against the calls made on it and what its caches hold. -/
structure Balanced (s : MesiSystem n) (calls : List (Call n)) : Prop where
  issued : ∀ i, s.bus.perf.l1Hit i + s.bus.perf.l1Miss i = calls.countP (·.core = i)
  resident : ∀ i, s.bus.perf.l1Miss i = s.bus.perf.invCount i + (s.heldLines i).ncard
  missed : ∑ i, s.bus.perf.l1Miss i = s.bus.perf.busRdCount + s.bus.perf.busRdxCount
  stalled : ∑ i, s.bus.perf.stallCycles i =
    s.bus.perf.busRdCount + s.bus.perf.busRdxCount + s.bus.perf.busUpgrCount
  dirtied : s.bus.perf.busRdxCount + s.bus.perf.busUpgrCount + silentUpgrades calls =
    s.bus.perf.busWbCount + s.dirtyLines.ncard

theorem new_balanced (n : ℕ) : (new n).Balanced [] where
  issued _ := rfl
  resident i := by
    have hnone : (new n).heldLines i = ∅ := Set.eq_empty_of_forall_notMem fun l hl => hl rfl
    rw [hnone, Set.ncard_empty]
    rfl
  missed := by simp [MesiSystem.new, newOver, SnoopingBus.newOver, PerfCounters.new]
  stalled := by simp [MesiSystem.new, newOver, SnoopingBus.newOver, PerfCounters.new]
  dirtied := by
    have hnone : (new n).dirtyLines = ∅ := Set.eq_empty_of_forall_notMem fun p hp => by cases hp
    rw [hnone, Set.ncard_empty]
    rfl

/-- One of the cores issued the call. -/
theorem sum_issuer (i : Fin n) (P : Prop) [Decidable P] :
    ∑ j, (if j = i ∧ P then 1 else 0) = if P then 1 else 0 := by
  by_cases hP : P
  · simp [hP]
  · simp [hP]

/-- A miss is a fetch. -/
theorem miss_cases (acquires : Bool) (st : State) :
    (if st = .I then 1 else 0) = (if opTxn acquires st = .busRd then 1 else 0) +
      if opTxn acquires st = .busRdX then 1 else 0 := by
  cases acquires <;> cases st <;> rfl

/-- A request is a fetch or an upgrade. -/
theorem request_cases (acquires : Bool) (st : State) :
    (if opTxn acquires st ≠ .none then 1 else 0) =
      (if opTxn acquires st = .busRd then 1 else 0) +
        (if opTxn acquires st = .busRdX then 1 else 0) +
        if opTxn acquires st = .busUpgr then 1 else 0 := by
  cases acquires <;> cases st <;> rfl

/-- A call that dirties its line does so by one of three ways. -/
theorem dirties_cases (s : MesiSystem n) (c : Call n) :
    (if opTxn c.acquires (s.lineState c.core (lineOf c.access.addr)) = .busRdX then 1 else 0) +
      (if opTxn c.acquires (s.lineState c.core (lineOf c.access.addr)) = .busUpgr
        then 1 else 0) +
      (if s.SilentUpgrade (.call c) then 1 else 0) = if s.Dirties c then 1 else 0 := by
  have hways : ∀ (acquires : Bool) (st : State),
      (if opTxn acquires st = .busRdX then 1 else 0) +
        (if opTxn acquires st = .busUpgr then 1 else 0) +
        (if acquires = true ∧ st = .E then 1 else 0) =
      if acquires = true ∧ st ≠ .M then 1 else 0 := by
    intro acquires st
    cases acquires <;> cases st <;> rfl
  exact hways c.acquires (s.lineState c.core (lineOf c.access.addr))

theorem Balanced.exec {calls : List (Call n)} (h : (after n calls).Balanced calls)
    (c : Call n) : (after n (calls ++ [c])).Balanced (calls ++ [c]) := by
  obtain ⟨flat, hco⟩ := after_coherent calls
  have hperf := exec_perf hco c
  rw [after_append]
  constructor
  · intro i
    have hold := h.issued i
    rw [hperf, List.countP_append, ← hold, List.countP_singleton]
    simp only [SnoopingBus.opPerf, decide_eq_true_eq, eq_comm (a := c.core)]
    by_cases hi : i = c.core
    · by_cases hI : (after n calls).bus.lineState c.core (lineOf c.access.addr) = .I
      · simp [hi, hI]
        omega
      · simp [hi, hI]
        omega
    · simp [hi]
  · intro i
    have hold := h.resident i
    have hcard := exec_heldLines_ncard hco c i
    rw [hperf]
    simp only [SnoopingBus.opPerf]
    change _ + (if i = c.core ∧ (after n calls).lineState c.core _ = .I then 1 else 0) = _
    omega
  · have hold := h.missed
    rw [hperf]
    simp only [SnoopingBus.opPerf, Finset.sum_add_distrib, hold, sum_issuer]
    have hone := miss_cases c.acquires ((after n calls).lineState c.core (lineOf c.access.addr))
    change _ + (if (after n calls).lineState c.core _ = .I then 1 else 0) = _
    omega
  · have hold := h.stalled
    rw [hperf]
    simp only [SnoopingBus.opPerf, Finset.sum_add_distrib, hold, sum_issuer]
    have hone := request_cases c.acquires ((after n calls).lineState c.core (lineOf c.access.addr))
    omega
  · have hold := h.dirtied
    have hcard := exec_dirtyLines_ncard hco c
    have hways := dirties_cases (after n calls) c
    rw [hperf, silentUpgrades_append]
    simp only [SnoopingBus.opPerf]
    omega

/-- **Conservation laws.** After any calls on a fresh system: every transaction takes one
    busy cycle and advances arbitration, every writeback is one access of memory; a core's
    hits and misses are its calls, and its misses are the lines it lost and those it holds;
    misses are the fetches and stalls all requests; and every line that became dirty, over
    the bus or silently, was written back or is dirty now. -/
theorem counters_balance (n : ℕ) (calls : List (Call n)) :
    let s := after n calls
    let p := s.bus.perf
    p.busCyclesBusy = p.totalBusTxns ∧ s.bus.arbPtr = p.totalBusTxns % n ∧
      s.bus.mem.accesses = p.busWbCount ∧
      (∀ i, p.l1Hit i + p.l1Miss i = calls.countP (·.core = i)) ∧
      (∀ i, p.l1Miss i = p.invCount i + {l | s.lineState i l ≠ .I}.ncard) ∧
      ∑ i, p.l1Miss i = p.busRdCount + p.busRdxCount ∧
      ∑ i, p.stallCycles i = p.busRdCount + p.busRdxCount + p.busUpgrCount ∧
      p.busRdxCount + p.busUpgrCount + silentUpgrades calls =
        p.busWbCount + {q : Fin n × Word | s.lineState q.1 q.2 = .M}.ncard := by
  have hboth : (after n calls).bus.Accounted ∧ (after n calls).Balanced calls := by
    induction calls using List.reverseRecOn with
    | nil => exact ⟨.newOver n, new_balanced n⟩
    | append_singleton calls c ih =>
      refine ⟨?_, ih.2.exec c⟩
      rw [after_append]
      exact ih.1.exec c
  obtain ⟨hacc, hbal⟩ := hboth
  exact ⟨hacc.busy, hacc.arb, hacc.accesses, hbal.issued, hbal.resident, hbal.missed,
    hbal.stalled, hbal.dirtied⟩

end MesiSystem

end MesiCoherence
