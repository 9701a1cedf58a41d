import Mathlib.Algebra.Order.BigOperators.Group.Finset
import MesiCoherence.Rtl.Fairness

/-!
# Every held request completes

A request may wait for two reasons. It needs the bus and another core has it; the arbiter
bounds this. Or it is a write hit and the snoop of another core's transaction has the
single write port of the array. Nothing in the arbiter bounds the second kind, but such a
snoop takes something away from the cache, and the waiting cache gets nothing back.
-/

namespace MesiCoherence.Rtl

/-- What snoops can still take away from a line. -/
def stateWeight : State → ℕ
  | .I => 0
  | .S => 1
  | .E => 2
  | .M => 2

theorem stateWeight_le (st : State) : stateWeight st ≤ 2 := by
  cases st <;> decide

/-- A snoop that changes a state takes weight away. -/
theorem stateWeight_snoop {st : State} {txn : BusTxn} (h : snoopNextState st txn ≠ st) :
    stateWeight (snoopNextState st txn) < stateWeight st := by
  revert h
  cases st <;> cases txn <;> decide

/-- What snoops can still take away from a cache: the sum over its 64 sets. -/
def CacheArray.weight (arr : CacheArray) : ℕ :=
  ∑ k : Fin 64, stateWeight (arr.stateArr (BitVec.ofFin k))

theorem CacheArray.weight_le (arr : CacheArray) : arr.weight ≤ 2 * 64 := by
  have hsum : arr.weight ≤ ∑ _k : Fin 64, 2 :=
    Finset.sum_le_sum fun k _ => stateWeight_le _
  rw [Finset.sum_const, Finset.card_univ, Fintype.card_fin, Nat.nsmul_eq_mul] at hsum
  omega

namespace L1

variable {arr : CacheArray} {cpu : CpuIn} {bus : BusView}

/-- A snoop that uses the write port finds its line in the set and changes that set only. -/
theorem next_stateArr_of_snoopWrite (h : snoopWrite arr false bus = true) (cpu : CpuIn)
    (shared : Bool) (supply : Word) :
    (next arr cpu false bus shared supply).stateArr =
      Function.update arr.stateArr (addrIndex bus.addr)
        (snoopNextState (arr.stateArr (addrIndex bus.addr)) bus.txn) ∧
    snoopNextState (arr.stateArr (addrIndex bus.addr)) bus.txn ≠
      arr.stateArr (addrIndex bus.addr) := by
  obtain ⟨hact, hne⟩ := (snoopWrite_iff arr bus).mp h
  -- an absent line has nothing to lose, so the tag matches
  have htag : arr.tagArr (addrIndex bus.addr) = addrTag bus.addr := by
    by_contra ht
    apply hne
    unfold CacheArray.lkState
    rw [if_neg ht, snoopNextState_I]
  have hlk : arr.lkState bus.addr = arr.stateArr (addrIndex bus.addr) := if_pos htag
  rw [hlk] at hne
  refine ⟨?_, hne⟩
  unfold next
  rw [if_neg (by decide), if_pos h]
  show Function.update arr.stateArr (addrIndex bus.addr) (snoopNext arr false bus) = _
  congr 1
  show snoopNextState (arr.lkState bus.addr) (snoopTxnIn false bus) = _
  rw [hlk, snoopTxnIn, hact]
  rfl

/-- **A snoop that blocks the write port lightens the cache.** -/
theorem next_weight_lt (h : snoopWrite arr false bus = true) (shared : Bool) (supply : Word) :
    (next arr cpu false bus shared supply).weight < arr.weight := by
  obtain ⟨heq, hne⟩ := next_stateArr_of_snoopWrite h cpu shared supply
  unfold CacheArray.weight
  rw [heq]
  apply Finset.sum_lt_sum
  · intro k _
    rw [Function.update_apply]
    split
    · next hk =>
      rw [hk]
      exact (stateWeight_snoop hne).le
    · exact le_rfl
  · refine ⟨(addrIndex bus.addr).toFin, Finset.mem_univ _, ?_⟩
    rw [BitVec.ofFin_toFin, Function.update_self]
    exact stateWeight_snoop hne

end L1

namespace MesiTop

variable {pw : ℕ} {s : MesiTop pw} {cpu : CpuPorts pw} {c : Core pw}

/-- The two reasons to wait. -/
theorem waits_cases (hreq : (cpu c).req = true) (hd : s.done cpu c = false) :
    L1.reqValid (s.l1 c) (cpu c) = true ∧ s.winner cpu ≠ some c ∨
      L1.WriteHit (s.l1 c) (cpu c) ∧ s.winner cpu ≠ some c ∧
        L1.snoopWrite (s.l1 c) false (s.bus cpu) = true := by
  have hw : s.winner cpu ≠ some c := fun hw => Bool.false_ne_true (hd.symm.trans (done_winner hw))
  have hpeer := (done_peer_iff hw).not.mp (Bool.not_eq_true _ ▸ hd)
  rw [not_or] at hpeer
  obtain ⟨hread, hwrite⟩ := hpeer
  by_cases hvalid : L1.reqValid (s.l1 c) (cpu c) = true
  · exact Or.inl ⟨hvalid, hw⟩
  have hhit : L1.WriteHit (s.l1 c) (cpu c) := by
    rw [L1.localReadDone_iff] at hread
    unfold L1.reqValid L1.procNeedsBus L1.cpuState CpuIn.pr at hvalid
    rw [hreq, Bool.true_and, needsBus_eq_true] at hvalid
    cases hwe : (cpu c).we with
    | false => simp_all
    | true =>
      refine ⟨hreq, hwe, ?_⟩
      cases hst : (s.l1 c).lkState (cpu c).addr <;> simp_all
  refine Or.inr ⟨hhit, hw, ?_⟩
  by_contra hsnoop
  exact hwrite ((L1.localWriteDone_iff _ _ _ false).mpr ⟨hhit, Bool.not_eq_true _ ▸ hsnoop⟩)

/-- Who waits is behind the transaction of another core. -/
theorem exists_other_grant (hreq : (cpu c).req = true) (hd : s.done cpu c = false) :
    ∃ w, w ≠ c ∧ s.winner cpu = some w := by
  rcases waits_cases hreq hd with ⟨hvalid, hw⟩ | ⟨-, hw, hsnoop⟩
  · cases hwin : s.winner cpu with
    | none => exact absurd hvalid (Bool.eq_false_iff.mp (arbitrate_none hwin c))
    | some w => exact ⟨w, fun h => hw (h ▸ hwin), rfl⟩
  · cases hwin : s.winner cpu with
    | none =>
      rw [bus_of_no_winner hwin, L1.snoopWrite_iff] at hsnoop
      cases hsnoop.1
    | some w => exact ⟨w, fun h => hw (h ▸ hwin), rfl⟩

theorem step_weight_lt (hw : s.winner cpu ≠ some c)
    (hsnoop : L1.snoopWrite (s.l1 c) false (s.bus cpu) = true) :
    ((s.step cpu).1.l1 c).weight < (s.l1 c).weight := by
  show (L1.next (s.l1 c) (cpu c) (s.grant cpu c) (s.bus cpu) (s.aggShared cpu)
    (s.supplyData cpu)).weight < _
  rw [grant_eq_false_iff.mpr hw]
  exact L1.next_weight_lt hsnoop _ _

section Completion

variable {s : MesiTop pw} {cpu : ℕ → CpuPorts pw} {i : Core pw} {a b : ℕ}
  (hsame : ∀ t ∈ Set.Ico a b, (cpu t i).SameRequest (cpu a i))
  (hreq : (cpu a i).req = true)
  (hnot : ∀ t ∈ Set.Ico a b, ((machine pw).stateAt s cpu t).done (cpu t) i = false)

include hsame hreq hnot

/-- As long as the write port is what blocks the request, every cycle costs weight. -/
theorem blocked_le_weight {m : ℕ} (ham : a ≤ m) (hmb : m ≤ b)
    (hhit : ∀ t ∈ Set.Ico a m,
      L1.reqValid (((machine pw).stateAt s cpu t).l1 i) (cpu t i) = false) :
    (((machine pw).stateAt s cpu m).l1 i).weight + (m - a) ≤
      (((machine pw).stateAt s cpu a).l1 i).weight := by
  induction m, ham using Nat.le_induction with
  | base => rw [Nat.sub_self, Nat.add_zero]
  | succ t hat ih =>
    have ht := ih (by omega) fun u hu => hhit u ⟨hu.1, Nat.lt_succ_of_lt hu.2⟩
    have hin : t ∈ Set.Ico a b := ⟨hat, hmb⟩
    have hstep : (((machine pw).stateAt s cpu (t + 1)).l1 i).weight <
        (((machine pw).stateAt s cpu t).l1 i).weight := by
      rw [Machine.stateAt_succ]
      rcases waits_cases ((hsame t hin).1.trans hreq) (hnot t hin) with ⟨hvalid, -⟩ | ⟨-, hw, hsn⟩
      · exact absurd hvalid (Bool.eq_false_iff.mp (hhit t ⟨hat, Nat.lt_succ_self t⟩))
      · exact step_weight_lt hw hsn
    omega

omit hreq in
/-- Once the request needs the bus, the arbiter bounds the rest. -/
theorem bus_wait_lt {m : ℕ} (ham : a ≤ m)
    (hvalid : L1.reqValid (((machine pw).stateAt s cpu m).l1 i) (cpu m i) = true) :
    b - m < 2 ^ pw := by
  have hwin : ∀ t ∈ Set.Ico a b, ((machine pw).stateAt s cpu t).winner (cpu t) ≠ some i :=
    fun t ht hw => Bool.false_ne_true ((hnot t ht).symm.trans (done_winner hw))
  apply (winner_rotates s cpu).waiting_lt (i := i)
  · intro t hmt htb
    obtain ⟨txn, ht, -⟩ := requests_while_waiting hsame hwin ham hmt htb
      (requests_of_reqValid hvalid)
    exact ht.reqValid
  · exact fun t hmt htb => hwin t ⟨ham.trans hmt, htb⟩

/-- The wait in any run, from any state of the registers. -/
theorem wait_le : b - a ≤ 2 * 64 + (2 ^ pw - 1) := by
  have hpos : 0 < 2 ^ pw := Nat.two_pow_pos pw
  by_cases hbus : ∃ m, m ∈ Set.Ico a b ∧
      L1.reqValid (((machine pw).stateAt s cpu m).l1 i) (cpu m i) = true
  · -- the first cycle in which the request needs the bus splits the wait
    classical
    obtain ⟨⟨ham, hmb⟩, hvalid⟩ := Nat.find_spec hbus
    have hbefore := blocked_le_weight hsame hreq hnot ham hmb.le fun t ht =>
      Bool.not_eq_true _ ▸ fun htv => Nat.find_min hbus ht.2 ⟨⟨ht.1, ht.2.trans hmb⟩, htv⟩
    have hafter := bus_wait_lt hsame hnot ham hvalid
    have hle := (((machine pw).stateAt s cpu a).l1 i).weight_le
    omega
  · by_cases hab : a ≤ b
    · have hall := blocked_le_weight hsame hreq hnot hab le_rfl fun t ht =>
        Bool.not_eq_true _ ▸ fun htv => hbus ⟨t, ht, htv⟩
      have hle := (((machine pw).stateAt s cpu a).l1 i).weight_le
      omega
    · omega

end Completion

/-- The first cycle in which a held request is done. -/
theorem first_done (s₀ : MesiTop pw) (cpu : ℕ → CpuPorts pw) {i : Core pw} {a : ℕ}
    (hreq : (cpu a i).req = true)
    (hheld : ∀ t, a ≤ t →
      (∀ u ∈ Set.Ico a t, ((machine pw).stateAt s₀ cpu u).done (cpu u) i = false) →
      (cpu t i).SameRequest (cpu a i)) :
    ∃ t, a ≤ t ∧ t - a ≤ 2 * 64 + (2 ^ pw - 1) ∧
      ((machine pw).stateAt s₀ cpu t).done (cpu t) i = true ∧
      ∀ u ∈ Set.Ico a t, ((machine pw).stateAt s₀ cpu u).done (cpu u) i = false := by
  have hex : ∃ t, a ≤ t ∧ ((machine pw).stateAt s₀ cpu t).done (cpu t) i = true := by
    by_contra hnone
    have hnot : ∀ t, a ≤ t → ((machine pw).stateAt s₀ cpu t).done (cpu t) i = false :=
      fun t hat => Bool.not_eq_true _ ▸ fun hd => hnone ⟨t, hat, hd⟩
    have hlong := wait_le (s := s₀) (b := a + (2 * 64 + 2 ^ pw))
      (fun t ht => hheld t ht.1 fun u hu => hnot u hu.1) hreq fun t ht => hnot t ht.1
    have hpos : 0 < 2 ^ pw := Nat.two_pow_pos pw
    omega
  classical
  obtain ⟨hat, hdone⟩ := Nat.find_spec hex
  have hnot : ∀ u ∈ Set.Ico a (Nat.find hex),
      ((machine pw).stateAt s₀ cpu u).done (cpu u) i = false := fun u hu =>
    Bool.not_eq_true _ ▸ fun hd => Nat.find_min hex hu.2 ⟨hu.1, hd⟩
  have hsame : ∀ t ∈ Set.Ico a (Nat.find hex), (cpu t i).SameRequest (cpu a i) := fun t ht =>
    hheld t ht.1 fun u hu => hnot u ⟨hu.1, hu.2.trans ht.2⟩
  exact ⟨Nat.find hex, hat, wait_le hsame hreq hnot, hdone, hnot⟩

/-- **No request is held for ever.** In every endless run, from whatever the registers hold,
    a request that its core holds until it is done completes after at most
    `2 * 64 + (N_CORES - 1)` cycles of waiting, and in every one of these another core
    completes a bus transaction. -/
theorem held_request_completes (pw : ℕ) (s₀ : MesiTop pw) (cpu : ℕ → CpuPorts pw) (i : Core pw)
    (a : ℕ) :
    let s := (machine pw).stateAt s₀ cpu
    let done t := (s t).done (cpu t) i
    (cpu a i).req = true →
    (∀ t, a ≤ t → (∀ u ∈ Set.Ico a t, done u = false) → (cpu t i).SameRequest (cpu a i)) →
    ∃ t, a ≤ t ∧ t - a ≤ 2 * 64 + (2 ^ pw - 1) ∧ done t = true ∧
      ∀ u ∈ Set.Ico a t, done u = false ∧ ∃ w, w ≠ i ∧ (s u).grant (cpu u) w = true := by
  intro s done hreq hheld
  obtain ⟨t, hat, hlen, hdone, hnot⟩ := first_done s₀ cpu hreq hheld
  refine ⟨t, hat, hlen, hdone, fun u hu => ⟨hnot u hu, ?_⟩⟩
  have hsame := hheld u hu.1 fun v hv => hnot v ⟨hv.1, hv.2.trans hu.2⟩
  obtain ⟨w, hwi, hw⟩ := exists_other_grant (hsame.1.trans hreq) (hnot u hu)
  exact ⟨w, hwi, grant_eq_true_iff.mpr hw⟩

/-- A core fills two sets with dirty lines. Then it holds a write hit on the second while
    another core reads the first. -/
def blockedHit (c e : Core 2) : ℕ → CpuPorts 2
  | 0 => ports [(c, ⟨true, true, 0x1000#32, 7⟩)]
  | 1 => ports [(c, ⟨true, true, 0x2040#32, 8⟩)]
  | _ + 2 => ports [(c, ⟨true, true, 0x2040#32, 9⟩), (e, ⟨true, false, 0x1000#32, 0⟩)]

/-- The snoop of the read has the write port in cycle 2, and the write hit waits. -/
theorem blockedHit_completes :
    let s := (machine 2).stateAt blank.reset (blockedHit 0 1)
    (s 2).done (blockedHit 0 1 2) 0 = false ∧
    (s 2).lineState 0 0x2040#32 = .M ∧
    ∃ t, 2 < t ∧ t ≤ 2 + 131 ∧ (s t).done (blockedHit 0 1 t) 0 = true := by
  intro s
  have hwait : (s 2).done (blockedHit 0 1 2) 0 = false := by decide +kernel
  obtain ⟨t, hle, hlen, hdone, -⟩ := held_request_completes 2 blank.reset (blockedHit 0 1) 0 2
    (by decide +kernel) (by
      rintro (_ | _ | t) ht -
      · omega
      · omega
      · exact ⟨rfl, rfl, rfl⟩)
  refine ⟨hwait, by decide +kernel, t, ?_, by omega, hdone⟩
  rcases Nat.lt_or_eq_of_le hle with hlt | heq
  · exact hlt
  · rw [← heq] at hdone
    exact absurd (hwait.symm.trans hdone) Bool.false_ne_true

end MesiTop

end MesiCoherence.Rtl
