import Mathlib.Algebra.Order.BigOperators.Group.Finset
import MesiCoherence.Model.Conservation
import MesiCoherence.Model.LineLocality

/-!
# The workloads

`sim/workloads.hpp`: access patterns whose coherence traffic the counters measure. The
comments of the source call ping-pong the worst case of the protocol and false sharing as
bad as sharing; both are statements about all patterns, and are proved as such.
-/

namespace MesiCoherence

variable {n : ℕ}

/-- Two cores write in turn, each to its own address. The source uses cores 0 and 1. -/
def hammer (c e : Fin n) (a₀ a₁ : Word) (v w : ℕ → Word) (iters : ℕ) : List (Call n) :=
  (List.range iters).flatMap fun i => [.plain c (.write a₀ (v i)), .plain e (.write a₁ (w i))]

/-- `ping_pong`: both write the same word. -/
def pingPong (c e : Fin n) (addr : Word) : ℕ → List (Call n) :=
  hammer c e addr addr (fun i => .ofNat 32 (2 * i)) fun i => .ofNat 32 (2 * i + 1)

/-- `false_sharing`: each writes a word of its own. -/
def falseSharing (c e : Fin n) (a₀ a₁ : Word) : ℕ → List (Call n) :=
  hammer c e a₀ a₁ (fun i => .ofNat 32 i) fun i => .ofNat 32 i

/-- The address and the value of a word of the buffer of `producer_consumer`. -/
def bufAddr (buf : Word) (i : ℕ) : Word := buf + 4 * BitVec.ofNat 32 i

def bufData (i : ℕ) : Word := 0xC0DE0000 + BitVec.ofNat 32 i

/-- The producer fills the buffer and sets the flag. -/
def produce (c : Fin n) (buf : Word) (words : ℕ) (flag : Word) : List (Call n) :=
  ((List.range words).map fun i => .plain c (.write (bufAddr buf i) (bufData i))) ++
    [.plain c (.write flag 1)]

/-- The consumer reads the buffer. -/
def consume (e : Fin n) (buf : Word) (words : ℕ) : List (Call n) :=
  (List.range words).map fun i => .plain e (.read (bufAddr buf i))

/-- `producer_consumer`: the system afterwards, and what the consumer has read. -/
def producerConsumer (s : MesiSystem n) (c e : Fin n) (buf : Word) (words : ℕ) (flag : Word) :
    MesiSystem n × List (Reply Word) :=
  let m := MesiSystem.callMachine n
  let s := m.run s (produce c buf words flag ++ [.plain e (.read flag)])
  (m.run s (consume e buf words), m.outputs s (consume e buf words))

/-- `reader_storm`: every core reads the address. -/
def readerStorm (n : ℕ) (addr : Word) : List (Call n) :=
  (List.finRange n).map fun c => .plain c (.read addr)

theorem hammer_succ (c e : Fin n) (a₀ a₁ : Word) (v w : ℕ → Word) (iters : ℕ) :
    hammer c e a₀ a₁ v w (iters + 1) = hammer c e a₀ a₁ v w iters ++
      [.plain c (.write a₀ (v iters))] ++ [.plain e (.write a₁ (w iters))] := by
  rw [hammer, List.range_succ, List.flatMap_append, ← hammer, List.append_assoc]
  rfl

namespace MesiSystem

-- ════════════════════════════════════════════════════════════════════════
-- What any history can cost
-- ════════════════════════════════════════════════════════════════════════

theorem balanced_after (calls : List (Call n)) : (after n calls).Balanced calls := by
  induction calls using List.reverseRecOn with
  | nil => exact new_balanced n
  | append_singleton calls c ih => exact ih.exec c

/-- A call requests the bus once at most. -/
theorem requests_le (calls : List (Call n)) :
    let p := (after n calls).bus.perf
    p.busRdCount + p.busRdxCount + p.busUpgrCount ≤ calls.length := by
  induction calls using List.reverseRecOn with
  | nil => exact le_rfl
  | append_singleton calls c ih =>
    obtain ⟨flat, hco⟩ := after_coherent calls
    have hone := request_cases c.acquires
      ((after n calls).lineState c.core (lineOf c.access.addr))
    simp only [after_append, exec_perf hco, SnoopingBus.opPerf, List.length_append,
      List.length_singleton]
    dsimp only at ih
    split at hone <;> omega

/-- The first call finds nobody dirty. -/
theorem writebacks_le (calls : List (Call n)) :
    (after n calls).bus.perf.busWbCount ≤ calls.length - 1 := by
  induction calls using List.reverseRecOn with
  | nil => exact le_rfl
  | append_singleton calls c ih =>
    obtain ⟨flat, hco⟩ := after_coherent calls
    simp only [after_append, exec_perf hco, SnoopingBus.opPerf, List.length_append,
      List.length_singleton, SnoopingBus.writebacks]
    split
    · next hwb =>
      obtain ⟨k, -, hk⟩ := hwb.2
      have hpos : 0 < calls.length := by
        cases calls with
        | nil => cases hk
        | cons _ _ => exact Nat.succ_pos _
      omega
    · omega

/-- Every invalidation was paid for by a miss, and the last line accessed is still held. -/
theorem invalidations_le (calls : List (Call n)) :
    ∑ i, (after n calls).bus.perf.invCount i ≤ calls.length - 1 := by
  have hbal := balanced_after calls
  have hreq := requests_le calls
  have hmiss := hbal.missed
  dsimp only at hreq
  simp only [hbal.resident, Finset.sum_add_distrib] at hmiss
  rcases List.eq_nil_or_concat calls with rfl | ⟨calls, c, rfl⟩
  · exact (Finset.sum_eq_zero fun _ _ => rfl).le
  · have hheld : 0 < ∑ i, ((after n (calls ++ [c])).heldLines i).ncard := by
      refine lt_of_lt_of_le ?_ (Finset.single_le_sum (fun _ _ => Nat.zero_le _)
        (Finset.mem_univ c.core))
      refine (Set.ncard_pos (Set.toFinite _)).mpr ⟨lineOf c.access.addr, ?_⟩
      obtain ⟨flat, hco⟩ := after_coherent calls
      rw [after_append, exec_heldLines hco, if_pos rfl]
      exact Set.mem_insert _ _
    rw [List.concat_eq_append] at hmiss hreq ⊢
    omega

-- ════════════════════════════════════════════════════════════════════════
-- Writes
-- ════════════════════════════════════════════════════════════════════════

/-- The lines in `H` are in M at their cores, and nobody holds anything else; `rdx` fetches
    for ownership and `wb` writebacks were all that went over the bus. -/
structure WriteTraffic (H : Finset (Fin n × Word)) (rdx wb : ℕ) (s : MesiSystem n) : Prop where
  state : ∀ j l, s.lineState j l = if (j, l) ∈ H then .M else .I
  busRd : s.bus.perf.busRdCount = 0
  busUpgr : s.bus.perf.busUpgrCount = 0
  busRdX : s.bus.perf.busRdxCount = rdx
  busWb : s.bus.perf.busWbCount = wb

variable {H : Finset (Fin n × Word)} {rdx wb : ℕ} {calls : List (Call n)}

theorem WriteTraffic.new (n : ℕ) : WriteTraffic ∅ 0 0 (after n []) :=
  ⟨fun _ _ => rfl, rfl, rfl, rfl, rfl⟩

/-- A write takes the line from whoever has it. -/
theorem WriteTraffic.write (h : WriteTraffic H rdx wb (after n calls)) (c : Fin n) (a v : Word) :
    WriteTraffic (insert (c, lineOf a) (H.filter fun p => p.2 ≠ lineOf a))
      (rdx + if (c, lineOf a) ∈ H then 0 else 1)
      (wb + if (c, lineOf a) ∉ H ∧ ∃ k, k ≠ c ∧ (k, lineOf a) ∈ H then 1 else 0)
      (after n (calls ++ [.plain c (.write a v)])) := by
  obtain ⟨flat, hco⟩ := after_coherent calls
  have hperf := exec_perf hco (.plain c (.write a v))
  have hacq : (Call.plain c (.write a v)).acquires = true := rfl
  have haddr : (Call.plain c (.write a v)).access.addr = a := rfl
  have hcore : (Call.plain c (.write a v)).core = c := rfl
  have hst : (after n calls).lineState c (lineOf a) = if (c, lineOf a) ∈ H then .M else .I :=
    h.state c (lineOf a)
  have hpeer : (after n calls).bus.DirtyPeer c (lineOf a) ↔ ∃ k, k ≠ c ∧ (k, lineOf a) ∈ H := by
    refine exists_congr fun k => and_congr_right fun _ => ?_
    have hk : (after n calls).bus.lineState k (lineOf a) = _ := h.state k (lineOf a)
    rw [hk]
    split <;> simp_all
  rw [hacq, haddr, hcore, hst] at hperf
  rw [after_append]
  refine ⟨fun j l => ?_, ?_, ?_, ?_, ?_⟩
  · rw [exec_lineState hco, hacq, haddr, hcore]
    by_cases hl : l = lineOf a
    · subst hl
      by_cases hj : j = c <;> simp [hj]
    · simp [hl, h.state j l]
  · rw [hperf]
    simp only [SnoopingBus.opPerf, h.busRd]
    split <;> rfl
  · rw [hperf]
    simp only [SnoopingBus.opPerf, h.busUpgr]
    split <;> rfl
  · rw [hperf]
    simp only [SnoopingBus.opPerf, h.busRdX]
    split <;> rfl
  · rw [hperf]
    simp only [SnoopingBus.opPerf, h.busWb, SnoopingBus.writebacks, hpeer]
    split <;> simp_all [opTxn, BusTxn.Fetches]

/-- The misses that were not lost again are what the caches hold. -/
theorem WriteTraffic.invalidations (h : WriteTraffic H rdx wb (after n calls)) :
    ∑ i, (after n calls).bus.perf.invCount i + H.card = rdx := by
  have hbal := balanced_after calls
  have hmiss := hbal.missed
  simp only [hbal.resident, Finset.sum_add_distrib, h.busRd, h.busRdX, Nat.zero_add] at hmiss
  have hheld : ∑ i, ((after n calls).heldLines i).ncard = H.card := by
    rw [Finset.card_eq_sum_card_fiberwise (f := Prod.fst) (t := Finset.univ) fun _ _ =>
      Finset.mem_univ _]
    refine Finset.sum_congr rfl fun i _ => ?_
    have hlines : (after n calls).heldLines i =
        ((H.filter fun p => p.1 = i).image Prod.snd : Finset Word) := by
      ext l
      have hst := h.state i l
      by_cases hl : (i, l) ∈ H <;> simp [heldLines, hst, hl]
    rw [hlines, Set.ncard_coe_finset, Finset.card_image_of_injOn]
    rintro ⟨j, l⟩ hj ⟨k, m⟩ hk rfl
    have hji : j = i := (Finset.mem_filter.mp hj).2
    have hki : k = i := (Finset.mem_filter.mp hk).2
    rw [hji, hki]
  rw [← hmiss, hheld]

/-- A write to a line that nobody holds. -/
theorem WriteTraffic.fetch (h : WriteTraffic H rdx wb (after n calls)) (c : Fin n) {a : Word}
    (hnone : ∀ k, (k, lineOf a) ∉ H) (v : Word) :
    WriteTraffic (insert (c, lineOf a) H) (rdx + 1) wb
      (after n (calls ++ [.plain c (.write a v)])) := by
  have hnew := h.write c a v
  have hkeep : (H.filter fun p => p.2 ≠ lineOf a) = H := by
    refine Finset.filter_true_of_mem ?_
    rintro ⟨k, l⟩ hk rfl
    exact hnone k hk
  rwa [hkeep, if_neg (hnone c), if_neg fun ⟨_, k, _, hk⟩ => hnone k hk] at hnew

/-- A write to the line of another core. -/
theorem WriteTraffic.steal {k c : Fin n} {a : Word} (hkc : k ≠ c)
    (h : WriteTraffic {(k, lineOf a)} rdx wb (after n calls)) (v : Word) :
    WriteTraffic {(c, lineOf a)} (rdx + 1) (wb + 1)
      (after n (calls ++ [.plain c (.write a v)])) := by
  have hnew := h.write c a v
  have hnot : (c, lineOf a) ∉ ({(k, lineOf a)} : Finset (Fin n × Word)) := by
    rw [Finset.mem_singleton]
    rintro ⟨rfl, -⟩
    exact hkc rfl
  have hgone : ({(k, lineOf a)} : Finset (Fin n × Word)).filter (fun p => p.2 ≠ lineOf a) = ∅ := by
    rw [Finset.filter_singleton, if_neg fun hne => hne rfl]
  rwa [hgone, if_neg hnot, if_pos ⟨hnot, k, hkc, Finset.mem_singleton_self _⟩] at hnew

/-- A write to a line that the core owns. -/
theorem WriteTraffic.hit (h : WriteTraffic H rdx wb (after n calls)) {c : Fin n} {a : Word}
    (hc : (c, lineOf a) ∈ H) (honly : ∀ k, (k, lineOf a) ∈ H → k = c) (v : Word) :
    WriteTraffic H rdx wb (after n (calls ++ [.plain c (.write a v)])) := by
  have hnew := h.write c a v
  have hkeep : insert (c, lineOf a) (H.filter fun p => p.2 ≠ lineOf a) = H := by
    ext ⟨k, l⟩
    by_cases hl : l = lineOf a
    · subst hl
      by_cases hk : k = c
      · simp [hk, hc]
      · have hno : (k, lineOf a) ∉ H := fun hm => hk (honly k hm)
        simp [hk, hno]
    · simp [hl]
  rwa [hkeep, if_pos hc, if_neg fun hn => hn.1 hc] at hnew

/-- Two cores that write one line in turn take it from each other every time. -/
theorem hammer_contended {c e : Fin n} (hce : c ≠ e) {a₀ a₁ : Word}
    (hline : lineOf a₀ = lineOf a₁) (v w : ℕ → Word) (iters : ℕ) :
    WriteTraffic {(e, lineOf a₁)} (2 * (iters + 1)) (2 * iters + 1)
      (after n (hammer c e a₀ a₁ v w (iters + 1))) := by
  induction iters with
  | zero =>
    have hfirst := (WriteTraffic.new n).fetch c (fun k => Finset.notMem_empty (k, lineOf a₀)) (v 0)
    rw [insert_empty_eq, hline] at hfirst
    exact hfirst.steal hce (w 0)
  | succ iters ih =>
    rw [hammer_succ]
    rw [← hline] at ih
    have hfirst := ih.steal hce.symm (v (iters + 1))
    rw [hline] at hfirst
    exact hfirst.steal hce (w (iters + 1))

/-- Two cores that write lines of their own fetch them once. -/
theorem hammer_padded {c e : Fin n} {a₀ a₁ : Word} (hline : lineOf a₀ ≠ lineOf a₁)
    (v w : ℕ → Word) (iters : ℕ) :
    WriteTraffic {(e, lineOf a₁), (c, lineOf a₀)} 2 0
      (after n (hammer c e a₀ a₁ v w (iters + 1))) := by
  induction iters with
  | zero =>
    have hfirst := (WriteTraffic.new n).fetch c (fun k => Finset.notMem_empty (k, lineOf a₀)) (v 0)
    rw [insert_empty_eq] at hfirst
    refine hfirst.fetch e (fun k hk => ?_) (w 0)
    exact hline (Prod.mk.inj (Finset.mem_singleton.mp hk)).2.symm
  | succ iters ih =>
    rw [hammer_succ]
    refine (ih.hit (by simp) (fun k hk => ?_) _).hit (by simp) (fun k hk => ?_) _
    · simpa [hline] using hk
    · simpa [hline.symm] using hk

/-- **Ping-pong is the worst case.** On a fresh system with any number of cores, let two cores
    write one word `iters` times each. No history of as many accesses, of any kind, by any
    cores, to any addresses, makes more misses, stalls, invalidations, writebacks or bus
    transactions in all. -/
theorem pingPong_worst_case {c e : Fin n} (hce : c ≠ e) (addr : Word) (iters : ℕ)
    (calls : List (Call n)) (hlen : calls.length ≤ 2 * iters) :
    let p := (after n calls).bus.perf
    let q := (after n (pingPong c e addr iters)).bus.perf
    ∑ i, p.l1Miss i ≤ ∑ i, q.l1Miss i ∧ ∑ i, p.stallCycles i ≤ ∑ i, q.stallCycles i ∧
      ∑ i, p.invCount i ≤ ∑ i, q.invCount i ∧ p.busWbCount ≤ q.busWbCount ∧
      p.totalBusTxns ≤ q.totalBusTxns := by
  intro p q
  have hmiss : ∑ i, p.l1Miss i = p.busRdCount + p.busRdxCount := (balanced_after calls).missed
  have hmiss' : ∑ i, q.l1Miss i = q.busRdCount + q.busRdxCount := (balanced_after _).missed
  have hstall : ∑ i, p.stallCycles i = p.busRdCount + p.busRdxCount + p.busUpgrCount :=
    (balanced_after calls).stalled
  have hstall' : ∑ i, q.stallCycles i = q.busRdCount + q.busRdxCount + q.busUpgrCount :=
    (balanced_after _).stalled
  have hreq : p.busRdCount + p.busRdxCount + p.busUpgrCount ≤ _ := requests_le calls
  have hwb : p.busWbCount ≤ _ := writebacks_le calls
  have hinv : ∑ i, p.invCount i ≤ _ := invalidations_le calls
  have hq : q.busRdCount = 0 ∧ q.busUpgrCount = 0 ∧ q.busRdxCount = 2 * iters ∧
      q.busWbCount = 2 * iters - 1 ∧ ∑ i, q.invCount i = 2 * iters - 1 := by
    cases iters with
    | zero => exact ⟨rfl, rfl, rfl, rfl, Finset.sum_eq_zero fun _ _ => rfl⟩
    | succ iters =>
      have hcost : WriteTraffic _ _ _ (after n (pingPong c e addr (iters + 1))) :=
        hammer_contended hce rfl _ _ iters
      have hlost := hcost.invalidations
      rw [Finset.card_singleton] at hlost
      refine ⟨hcost.busRd, hcost.busUpgr, hcost.busRdX, hcost.busWb, ?_⟩
      show ∑ i, (after n (pingPong c e addr (iters + 1))).bus.perf.invCount i = _
      omega
  obtain ⟨h1, h2, h3, h4, h5⟩ := hq
  simp only [PerfCounters.totalBusTxns]
  omega

theorem pingPong_worse_than_sharing :
    let calls : List (Call 3) := [.plain 0 (.read 0x1000), .plain 1 (.read 0x1000),
      .plain 2 (.fetchAndAdd 0x1000 1), .plain 0 (.read 0x1000)]
    (after 3 calls).bus.perf.totalBusTxns ≤
      (after 3 (pingPong 0 1 0x1000 2)).bus.perf.totalBusTxns ∧
    (after 3 calls).bus.perf.totalBusTxns = 5 := by
  intro calls
  refine ⟨(pingPong_worst_case (by decide) 0x1000 2 calls (by decide)).2.2.2.2, ?_⟩
  decide +kernel

/-- **The cliff of false sharing.** Two cores write two words in turn, at least once each. If
    the words are on one line, every write is a fetch for ownership, and every one but the
    first invalidates the other core and makes it write back. If they are not, each core
    fetches its line once, and nothing else goes over the bus, however long they go on. -/
theorem falseSharing_cliff {c e : Fin n} (hce : c ≠ e) (a₀ a₁ : Word) (iters : ℕ) :
    let p := (after n (falseSharing c e a₀ a₁ (iters + 1))).bus.perf
    (lineOf a₀ = lineOf a₁ → p.busRdxCount = 2 * (iters + 1) ∧ p.totalBusTxns = 4 * iters + 3 ∧
      ∑ i, p.invCount i = 2 * iters + 1) ∧
    (lineOf a₀ ≠ lineOf a₁ → p.busRdxCount = 2 ∧ p.totalBusTxns = 2 ∧
      ∑ i, p.invCount i = 0) := by
  intro p
  constructor
  · intro hline
    have hcost : WriteTraffic _ _ _ (after n (falseSharing c e a₀ a₁ (iters + 1))) :=
      hammer_contended hce hline _ _ iters
    have hlost : ∑ i, p.invCount i + _ = _ := hcost.invalidations
    have hrd : p.busRdCount = 0 := hcost.busRd
    have hupgr : p.busUpgrCount = 0 := hcost.busUpgr
    have hrdx : p.busRdxCount = _ := hcost.busRdX
    have hwb : p.busWbCount = _ := hcost.busWb
    rw [Finset.card_singleton] at hlost
    simp only [PerfCounters.totalBusTxns]
    omega
  · intro hline
    have hcost : WriteTraffic _ _ _ (after n (falseSharing c e a₀ a₁ (iters + 1))) :=
      hammer_padded hline _ _ iters
    have hlost : ∑ i, p.invCount i + _ = _ := hcost.invalidations
    have hrd : p.busRdCount = 0 := hcost.busRd
    have hupgr : p.busUpgrCount = 0 := hcost.busUpgr
    have hrdx : p.busRdxCount = _ := hcost.busRdX
    have hwb : p.busWbCount = _ := hcost.busWb
    rw [Finset.card_pair fun heq => hce (Prod.mk.inj heq).1.symm] at hlost
    simp only [PerfCounters.totalBusTxns]
    omega

theorem falseSharing_hundred :
    (after 2 (falseSharing 0 1 0x6000 0x6004 (99 + 1))).bus.perf.totalBusTxns = 399 ∧
    (after 2 (falseSharing 0 1 0x7000 0x7040 (99 + 1))).bus.perf.totalBusTxns = 2 :=
  ⟨((falseSharing_cliff (by decide) 0x6000 0x6004 99).1 (by decide)).2.1,
    ((falseSharing_cliff (by decide) 0x7000 0x7040 99).2 (by decide)).2.1⟩

-- ════════════════════════════════════════════════════════════════════════
-- Producer and consumer
-- ════════════════════════════════════════════════════════════════════════

/-- Calls on a flat memory. -/
def flatCalls (n : ℕ) : Machine (Word → Word) (Call n) (Reply Word) := ⟨fun f c => c.access.exec f⟩

theorem calls_refine {s : MesiSystem n} {flat : Word → Word}
    (h : Coherent (fun _ => 0) flat s.bus) (calls : List (Call n)) :
    Coherent (fun _ => 0) ((flatCalls n).run flat calls) ((callMachine n).run s calls).bus ∧
      (callMachine n).outputs s calls = (flatCalls n).outputs flat calls := by
  refine Machine.simulation (R := fun (s : MesiSystem n) flat => Coherent (fun _ => 0) flat s.bus)
    ?_ h calls
  intro s flat c hco
  exact exec_refines hco c fun hl => hl.2.2 rfl

theorem flatCalls_write (c : Fin n) (a v : Word) (f : Word → Word) :
    (flatCalls n).run f [.plain c (.write a v)] = Function.update f a v := rfl

theorem bufAddr_inj {buf : Word} {i j : ℕ} (hi : i < 2 ^ 30) (hj : j < 2 ^ 30)
    (h : bufAddr buf i = bufAddr buf j) : i = j := by
  unfold bufAddr at h
  bv_omega

/-- What the producer leaves in memory. -/
theorem flat_produce (c : Fin n) {buf flag : Word} {words : ℕ} (hwords : words ≤ 2 ^ 30)
    (hflag : ∀ i < words, bufAddr buf i ≠ flag) (f : Word → Word) {i : ℕ} (hi : i < words) :
    (flatCalls n).run f (produce c buf words flag) (bufAddr buf i) = bufData i := by
  have hbuf : ∀ k, k ≤ words → ∀ i < k, (flatCalls n).run f ((List.range k).map fun i =>
      .plain c (.write (bufAddr buf i) (bufData i))) (bufAddr buf i) = bufData i := by
    intro k
    induction k with
    | zero => exact fun _ i hi => absurd hi (Nat.not_lt_zero i)
    | succ k ih =>
      intro hk i hi
      rw [List.range_succ, List.map_append, Machine.run_append, List.map_singleton,
        flatCalls_write]
      by_cases hik : i = k
      · rw [hik, Function.update_self]
      · rw [Function.update_of_ne fun he => hik (bufAddr_inj (by omega) (by omega) he)]
        exact ih (by omega) i (by omega)
  rw [produce, Machine.run_append, flatCalls_write, Function.update_of_ne (hflag i hi)]
  exact hbuf words le_rfl i hi

/-- What the consumer finds. -/
theorem flat_consume (e : Fin n) (buf : Word) (f : Word → Word) (words : ℕ) :
    (flatCalls n).run f (consume e buf words) = f ∧
      (flatCalls n).outputs f (consume e buf words) =
        (List.range words).map fun i => .value (f (bufAddr buf i)) := by
  induction words with
  | zero => exact ⟨rfl, rfl⟩
  | succ words ih =>
    have hsplit : consume e buf (words + 1) =
        consume e buf words ++ [.plain e (.read (bufAddr buf words))] := by
      rw [consume, List.range_succ, List.map_append]
      rfl
    have hread : (flatCalls n).step f (.plain e (.read (bufAddr buf words))) =
        (f, .value (f (bufAddr buf words))) := Access.exec_read f _
    rw [hsplit, Machine.run_append, Machine.outputs_append, ih.1, ih.2, List.range_succ,
      List.map_append, Machine.run_cons, Machine.outputs_cons, hread]
    exact ⟨rfl, rfl⟩

/-- Whatever a core has written last is its own. -/
theorem holders_append_writes {c : Fin n} {line : Word} (calls ws : List (Call n))
    (hws : ∀ w ∈ ws, w.core = c ∧ w.acquires = true)
    (hline : ∃ w ∈ ws, lineOf w.access.addr = line) :
    holders line (calls ++ ws) = {c} := by
  induction ws using List.reverseRecOn with
  | nil =>
    obtain ⟨w, hw, -⟩ := hline
    cases hw
  | append_singleton ws w ih =>
    obtain ⟨hcore, hacq⟩ := hws w (List.mem_append_right _ List.mem_cons_self)
    rw [← List.append_assoc]
    by_cases hl : lineOf w.access.addr = line
    · rw [holders_append_acquire hl hacq, hcore]
    · rw [holders_append_of_ne hl]
      refine ih (fun x hx => hws x (List.mem_append_left _ hx)) ?_
      obtain ⟨x, hx, hxl⟩ := hline
      rcases List.mem_append.mp hx with hx | hx
      · exact ⟨x, hx, hxl⟩
      · rw [List.mem_singleton.mp hx] at hxl
        exact absurd hxl hl

/-- A core that reads lines joins their holders. -/
theorem holders_append_reads {e : Fin n} {line : Word} (calls rs : List (Call n))
    (hrs : ∀ r ∈ rs, r.core = e ∧ r.acquires = false) :
    holders line (calls ++ rs) =
      if ∃ r ∈ rs, lineOf r.access.addr = line then insert e (holders line calls)
      else holders line calls := by
  induction rs using List.reverseRecOn with
  | nil => simp
  | append_singleton rs r ih =>
    obtain ⟨hcore, hacq⟩ := hrs r (List.mem_append_right _ List.mem_cons_self)
    rw [← List.append_assoc]
    have hih := ih fun x hx => hrs x (List.mem_append_left _ hx)
    by_cases hl : lineOf r.access.addr = line
    · have hnow : ∃ x ∈ rs ++ [r], lineOf x.access.addr = line :=
        ⟨r, List.mem_append_right _ List.mem_cons_self, hl⟩
      rw [holders_append_read hl hacq, hcore, hih, if_pos hnow]
      split
      · rw [Finset.insert_idem]
      · rfl
    · rw [holders_append_of_ne hl, hih]
      simp only [List.mem_append, List.mem_singleton, or_and_right, exists_or, exists_eq_left, hl,
        or_false]

/-- **The consumer gets the data.** Whatever was called before on a system with zeroed memory,
    the consumer reads exactly what the producer has written, as long as the buffer does
    not wrap around onto itself and the flag is not in it; and afterwards producer and
    consumer share every line of the buffer and the line of the flag. -/
theorem producerConsumer_delivers {c e : Fin n} (hce : c ≠ e) (buf : Word) (words : ℕ) (flag : Word)
    (hwords : words ≤ 2 ^ 30) (hflag : ∀ i < words, bufAddr buf i ≠ flag)
    (calls : List (Call n)) :
    let r := producerConsumer (after n calls) c e buf words flag
    r.2 = (List.range words).map (fun i => .value (bufData i)) ∧
    ∀ line, line = lineOf flag ∨ (∃ i < words, line = lineOf (bufAddr buf i)) →
      r.1.lineState c line = .S ∧ r.1.lineState e line = .S := by
  intro r
  constructor
  · obtain ⟨flat, hco⟩ := after_coherent calls
    have hmid := (calls_refine hco (produce c buf words flag ++ [.plain e (.read flag)])).1
    have hout : r.2 = _ := (calls_refine hmid (consume e buf words)).2
    rw [hout, (flat_consume e buf _ words).2]
    refine List.map_congr_left fun i hi => ?_
    have hread : ∀ f : Word → Word, (flatCalls n).run f [.plain e (.read flag)] = f := fun f =>
      congrArg Prod.fst (Access.exec_read f flag)
    rw [Machine.run_append, hread, flat_produce c hwords hflag flat (List.mem_range.mp hi)]
  · intro line hline
    have hr : r.1 = after n ((calls ++ produce c buf words flag) ++
        ([.plain e (.read flag)] ++ consume e buf words)) := by
      rw [after_eq_run, Machine.run_append, Machine.run_append, Machine.run_append,
        ← after_eq_run]
      show (callMachine n).run ((callMachine n).run (after n calls) (_ ++ _)) _ = _
      rw [Machine.run_append]
    have hwrites : holders line (calls ++ produce c buf words flag) = {c} := by
      refine holders_append_writes calls _ (fun w hw => ?_) ?_
      · simp only [produce, List.mem_append, List.mem_map, List.mem_singleton] at hw
        rcases hw with ⟨i, -, rfl⟩ | rfl <;> exact ⟨rfl, rfl⟩
      · rcases hline with rfl | ⟨i, hi, rfl⟩
        · exact ⟨_, List.mem_append_right _ List.mem_cons_self, rfl⟩
        · exact ⟨_, List.mem_append_left _ (List.mem_map_of_mem (List.mem_range.mpr hi)), rfl⟩
    have hboth : holders line ((calls ++ produce c buf words flag) ++
        ([.plain e (.read flag)] ++ consume e buf words)) = insert e {c} := by
      rw [holders_append_reads (e := e) _ _ fun x hx => ?_, hwrites, if_pos ?_]
      · rcases hline with rfl | ⟨i, hi, rfl⟩
        · exact ⟨_, List.mem_append_left _ List.mem_cons_self, rfl⟩
        · exact ⟨_, List.mem_append_right _ (List.mem_map_of_mem (List.mem_range.mpr hi)), rfl⟩
      · simp only [consume, List.mem_append, List.mem_map, List.mem_singleton] at hx
        rcases hx with rfl | ⟨i, -, rfl⟩ <;> exact ⟨rfl, rfl⟩
    have htwo : 2 ≤ (insert e {c} : Finset (Fin n)).card := by
      rw [Finset.card_pair hce.symm]
    rw [hr, lineState_after_eq_S, lineState_after_eq_S, hboth]
    exact ⟨⟨by simp, htwo⟩, by simp, htwo⟩

theorem producerConsumer_eight :
    let r := producerConsumer (after 2 []) 0 1 0x10000 8 0x20000
    r.2 = (List.range 8).map (fun i => .value (bufData i)) ∧
    r.1.lineState 0 0x10000 = .S ∧ r.1.lineState 1 0x20000 = .S := by
  intro r
  obtain ⟨hout, hstate⟩ := producerConsumer_delivers (c := 0) (e := 1) (by decide) 0x10000 8
    0x20000 (by decide) (by decide) ([] : List (Call 2))
  exact ⟨hout, (hstate _ (Or.inr ⟨0, by decide, by decide⟩)).1,
    (hstate _ (Or.inl (by decide))).2⟩

-- ════════════════════════════════════════════════════════════════════════
-- Readers and a writer
-- ════════════════════════════════════════════════════════════════════════

/-- Cores that read a line for the first time, with nobody having written it. -/
theorem reads_after {addr : Word} {calls : List (Call n)} (hnew : callsOn (lineOf addr) calls = [])
    (cs : List (Fin n)) (hcs : cs.Nodup) :
    let p := (after n calls).bus.perf
    let calls' := calls ++ cs.map fun c => .plain c (.read addr)
    let q := (after n calls').bus.perf
    holders (lineOf addr) calls' = cs.toFinset ∧ lastAcquire (lineOf addr) calls' = none ∧
      q.busRdCount = p.busRdCount + cs.length ∧ q.busRdxCount = p.busRdxCount ∧
      q.busUpgrCount = p.busUpgrCount ∧ q.busWbCount = p.busWbCount ∧
      q.invCount = p.invCount := by
  induction cs using List.reverseRecOn with
  | nil =>
    have hnone : lastAcquire (lineOf addr) calls = none := by
      rw [lastAcquire, hnew]
      rfl
    have hempty : holders (lineOf addr) calls = ∅ := by
      rw [holders, hnone, readsSince, hnew]
      rfl
    simp [hempty, hnone]
  | append_singleton cs c ih =>
    obtain ⟨hnodup, -, hdisj⟩ := List.nodup_append.mp hcs
    obtain ⟨hhold, hlast, hrd, hrdx, hupgr, hwb, hinv⟩ := ih hnodup
    have hc : c ∉ cs := fun hc => hdisj c hc c List.mem_cons_self rfl
    set before := calls ++ cs.map fun c => Call.plain c (.read addr) with hbefore
    have hread : (Call.plain c (.read addr)).acquires = false := rfl
    have hline : lineOf (Call.plain c (.read addr)).access.addr = lineOf addr := rfl
    obtain ⟨flat, hco⟩ := after_coherent before
    have hI : (after n before).lineState c (lineOf addr) = .I := by
      rw [lineState_after_eq_I, hhold, List.mem_toFinset]
      exact hc
    have hpeer : ¬ (after n before).bus.DirtyPeer c (lineOf addr) := by
      rintro ⟨k, -, hk⟩
      have hM := (lineState_after_eq_M before k (lineOf addr)).mp hk
      rw [hlast] at hM
      cases hM.2
    have hsplit : (calls ++ (cs ++ [c]).map fun c => Call.plain c (.read addr)) =
        before ++ [.plain c (.read addr)] := by
      rw [List.map_append, ← List.append_assoc]
      rfl
    have hperf := exec_perf hco (.plain c (.read addr))
    have hcore : (Call.plain c (.read addr)).core = c := rfl
    rw [hread, hline, hcore, hI] at hperf
    simp only [hsplit]
    rw [after_append, hperf, holders_append_read hline hread, lastAcquire_append_read hline hread,
      hhold, hlast]
    refine ⟨?_, rfl, ?_, ?_, ?_, ?_, ?_⟩
    · ext k
      simp [hcore]
    · simp [SnoopingBus.opPerf, opTxn, hrd, Nat.add_assoc]
    · simp [SnoopingBus.opPerf, opTxn, hrdx]
    · simp [SnoopingBus.opPerf, opTxn, hupgr]
    · simp [SnoopingBus.opPerf, SnoopingBus.writebacks, hpeer, hwb]
    · funext k
      simp [SnoopingBus.opPerf, SnoopingBus.LosesCopy, BusTxn.Invalidates, opTxn, hinv]

/-- **A storm of readers, and a writer.** On a system of at least two cores where nobody has
    accessed the line yet, let every core read it: each issues one `BusRd`, nothing else
    goes over the bus, nothing is invalidated, and all end in S. A write of any core then
    issues one `BusUpgr`, takes the line from each of the others and leaves it in M. -/
theorem readerStorm_then_writer (hn : 2 ≤ n) (addr : Word) (calls : List (Call n))
    (hnew : callsOn (lineOf addr) calls = []) (w : Fin n) (v : Word) :
    let storm := calls ++ readerStorm n addr
    let p := (after n calls).bus.perf
    let q := (after n storm).bus.perf
    let s := after n (storm ++ [.plain w (.write addr v)])
    (∀ c, (after n storm).lineState c (lineOf addr) = .S) ∧
      q.busRdCount = p.busRdCount + n ∧ q.busRdxCount = p.busRdxCount ∧
      q.busUpgrCount = p.busUpgrCount ∧ q.busWbCount = p.busWbCount ∧ q.invCount = p.invCount ∧
    (∀ c, s.lineState c (lineOf addr) = if c = w then .M else .I) ∧
      s.bus.perf.busRdCount = q.busRdCount ∧ s.bus.perf.busRdxCount = q.busRdxCount ∧
      s.bus.perf.busUpgrCount = q.busUpgrCount + 1 ∧ s.bus.perf.busWbCount = q.busWbCount ∧
      ∀ c, s.bus.perf.invCount c = q.invCount c + if c = w then 0 else 1 := by
  intro storm p q s
  obtain ⟨hhold, -, hrd, hrdx, hupgr, hwb, hinv⟩ :=
    reads_after hnew (List.finRange n) (List.nodup_finRange n)
  rw [List.length_finRange] at hrd
  have hall : holders (lineOf addr) storm = Finset.univ := hhold.trans (List.toFinset_finRange n)
  have hS : ∀ c, (after n storm).lineState c (lineOf addr) = .S := by
    intro c
    rw [lineState_after_eq_S, hall, Finset.card_univ, Fintype.card_fin]
    exact ⟨Finset.mem_univ c, hn⟩
  obtain ⟨flat, hco⟩ := after_coherent storm
  have hperf := exec_perf hco (.plain w (.write addr v))
  have hacq : (Call.plain w (.write addr v)).acquires = true := rfl
  have hline : lineOf (Call.plain w (.write addr v)).access.addr = lineOf addr := rfl
  have hcore : (Call.plain w (.write addr v)).core = w := rfl
  rw [hacq, hline, hcore, hS w] at hperf
  have hs : s = ((after n storm).exec (.plain w (.write addr v))).1 := after_append _ _
  refine ⟨hS, hrd, hrdx, hupgr, hwb, hinv, fun c => ?_, ?_, ?_, ?_, ?_, fun c => ?_⟩
  · rw [hs, exec_lineState hco, hline, if_pos rfl, hacq, if_pos rfl, hcore]
  all_goals rw [hs, hperf]
  · simp [SnoopingBus.opPerf, opTxn, q]
  · simp [SnoopingBus.opPerf, opTxn, q]
  · simp [SnoopingBus.opPerf, opTxn, q]
  · simp [SnoopingBus.opPerf, SnoopingBus.writebacks, opTxn, BusTxn.Fetches, q]
  · have hlost : (after n storm).bus.LosesCopy c .busUpgr (lineOf addr) := by
      refine ⟨?_, Or.inr rfl⟩
      rw [show (after n storm).bus.lineState c (lineOf addr) = .S from hS c]
      simp
    by_cases hc : c = w <;> simp [SnoopingBus.opPerf, opTxn, hlost, hc, q]

theorem readerStorm_of_four :
    let s := after 4 (readerStorm 4 0x9000 ++ [.plain 0 (.write 0x9000 0x1234)])
    s.lineState 0 0x9000 = .M ∧ s.lineState 3 0x9000 = .I ∧ s.bus.perf.invCount 3 = 1 := by
  intro s
  obtain ⟨-, -, -, -, -, hq, hstate, -, -, -, -, hinv⟩ :=
    readerStorm_then_writer (n := 4) (by decide) 0x9000 [] rfl 0 0x1234
  refine ⟨(hstate 0).trans (by decide), (hstate 3).trans (by decide), (hinv 3).trans ?_⟩
  rw [hq]
  decide

end MesiSystem

end MesiCoherence
