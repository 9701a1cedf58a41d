import MesiCoherence.Lib.RoundRobin
import MesiCoherence.Rtl.MesiTop

/-!
# What one clock cycle does

The lookups and payloads after a cycle in terms of those before it, core by core: the
owner of the bus commits its line, every other cache either reacts to the broadcast
line or performs its own write hit. All results about the hardware use these lemmas
and never unfold the array writes.
-/

namespace MesiCoherence.Rtl

theorem addrIndex_toNat (a : Word) : (addrIndex a).toNat = a.toNat / 64 % 64 := by
  simp [addrIndex, BitVec.extractLsb'_toNat, Nat.shiftRight_eq_div_pow]

theorem addrTag_toNat (a : Word) : (addrTag a).toNat = a.toNat / 4096 := by
  have ha := a.isLt
  simp only [addrTag, BitVec.extractLsb'_toNat, Nat.shiftRight_eq_div_pow]
  omega

theorem midx_toNat (a : Word) : (midx a).toNat = a.toNat / 64 % 1024 := by
  simp [midx, BitVec.extractLsb'_toNat, Nat.shiftRight_eq_div_pow]

/-- Index and tag together name the line. -/
theorem lineOf_eq_iff_fields (a b : Word) :
    lineOf a = lineOf b ↔ addrIndex a = addrIndex b ∧ addrTag a = addrTag b := by
  rw [lineOf_eq_iff, ← BitVec.toNat_inj, ← BitVec.toNat_inj, addrIndex_toNat, addrIndex_toNat,
    addrTag_toNat, addrTag_toNat]
  omega

theorem midx_congr {a b : Word} (h : lineOf a = lineOf b) : midx a = midx b := by
  rw [lineOf_eq_iff] at h
  rw [← BitVec.toNat_inj, midx_toNat, midx_toNat, h]

namespace CacheArray

variable (arr : CacheArray)

theorem lkState_congr {a b : Word} (h : lineOf a = lineOf b) : arr.lkState a = arr.lkState b := by
  obtain ⟨hi, ht⟩ := (lineOf_eq_iff_fields a b).mp h
  unfold lkState
  rw [hi, ht]

/-- A write installs its line and evicts what else was in the set. -/
theorem lkState_write (w : Word) (st : State) (en : Bool) (d a : Word) :
    (arr.write w st en d).lkState a =
      if lineOf a = lineOf w then st
      else if addrIndex a = addrIndex w then .I else arr.lkState a := by
  simp only [lineOf_eq_iff_fields]
  unfold lkState write
  by_cases hi : addrIndex a = addrIndex w
  · by_cases ht : addrTag a = addrTag w
    · simp [hi, ht]
    · simp [hi, ht, Ne.symm ht]
  · simp [hi]

/-- A write to a held line evicts nothing. -/
theorem lkState_write_of_held {w : Word} (h : arr.lkState w ≠ .I) (st : State) (en : Bool)
    (d a : Word) :
    (arr.write w st en d).lkState a = if lineOf a = lineOf w then st else arr.lkState a := by
  rw [lkState_write]
  by_cases hl : lineOf a = lineOf w
  · rw [if_pos hl, if_pos hl]
  · rw [if_neg hl, if_neg hl]
    by_cases hi : addrIndex a = addrIndex w
    · have htag : arr.tagArr (addrIndex w) = addrTag w := by
        by_contra hne
        exact h (if_neg hne)
      have hne : ¬ arr.tagArr (addrIndex a) = addrTag a := by
        rw [hi, htag]
        exact fun ht => hl ((lineOf_eq_iff_fields a w).mpr ⟨hi, ht.symm⟩)
      rw [if_pos hi]
      exact (if_neg hne).symm
    · rw [if_neg hi]

theorem rdData_write (w : Word) (st : State) (en : Bool) (d a : Word) :
    (arr.write w st en d).rdData a =
      if en = true ∧ addrIndex a = addrIndex w then d else arr.rdData a := by
  unfold rdData write
  by_cases hi : addrIndex a = addrIndex w
  · cases en <;> simp [hi]
  · cases en <;> simp [hi]

end CacheArray

@[simp] theorem snoopNextState_I (txn : BusTxn) : snoopNextState .I txn = .I := by
  cases txn <;> rfl

/-- The state machine needs the bus for a read of an absent line and for a write of a
    line that is absent or shared. -/
theorem needsBus_eq_true {st : State} {pr : PrReq} :
    needsBus st pr = true ↔ pr = .rd ∧ st = .I ∨ pr = .wr ∧ (st = .I ∨ st = .S) := by
  cases st <;> cases pr <;> decide

/-- A snooped transaction of another cache takes exclusivity away. -/
theorem snoopNextState_ne {st : State} {txn : BusTxn} (hst : st = .M ∨ st = .E)
    (htxn : txn = .busRd ∨ txn = .busRdX ∨ txn = .busUpgr) : snoopNextState st txn ≠ st := by
  rcases hst with rfl | rfl <;> rcases htxn with rfl | rfl | rfl <;> decide

namespace L1

variable (arr : CacheArray) (cpu : CpuIn) (bus : BusView)

/-- A write hit: the core may write its line without the bus. -/
def WriteHit : Prop := cpu.req = true ∧ cpu.we = true ∧
  (arr.lkState cpu.addr = .M ∨ arr.lkState cpu.addr = .E)

theorem localReadDone_iff :
    localReadDone arr cpu = true ↔
      cpu.req = true ∧ cpu.we = false ∧ arr.lkState cpu.addr ≠ .I := by
  unfold localReadDone procNeedsBus cpuState CpuIn.pr
  cases hr : cpu.req <;> cases hw : cpu.we <;> cases hs : arr.lkState cpu.addr <;>
    simp [needsBus, reqTxn]

theorem localWriteDone_iff (grant : Bool) :
    localWriteDone arr cpu grant bus = true ↔
      WriteHit arr cpu ∧ snoopWrite arr grant bus = false := by
  unfold localWriteDone procNeedsBus cpuState CpuIn.pr WriteHit
  cases hr : cpu.req <;> cases hw : cpu.we <;> cases hs : arr.lkState cpu.addr <;>
    simp [needsBus, reqTxn]

theorem snoopWrite_iff :
    snoopWrite arr false bus = true ↔ bus.active = true ∧
      snoopNextState (arr.lkState bus.addr) bus.txn ≠ arr.lkState bus.addr := by
  unfold snoopWrite snoopNext snoopTxnIn snpState
  cases bus.active <;> simp

variable {arr cpu bus}

/-- A write hit that completes is not on the broadcast line. -/
theorem localWriteDone_line_ne (hd : localWriteDone arr cpu false bus = true)
    (hact : bus.active = true)
    (htxn : bus.txn = .busRd ∨ bus.txn = .busRdX ∨ bus.txn = .busUpgr) :
    lineOf cpu.addr ≠ lineOf bus.addr := by
  obtain ⟨⟨-, -, hst⟩, hsw⟩ := (localWriteDone_iff arr cpu bus false).mp hd
  intro hl
  rw [arr.lkState_congr hl] at hst
  have hw := (snoopWrite_iff arr bus).mpr ⟨hact, snoopNextState_ne hst htxn⟩
  rw [hsw] at hw
  cases hw

/-- The lookups of a cache that does not own the bus. -/
theorem next_lkState_peer (shared : Bool) (supply : Word)
    (htxn : bus.active = true → bus.txn = .busRd ∨ bus.txn = .busRdX ∨ bus.txn = .busUpgr)
    (a : Word) :
    (next arr cpu false bus shared supply).lkState a =
      if bus.active = true ∧ lineOf a = lineOf bus.addr then
        snoopNextState (arr.lkState a) bus.txn
      else if localWriteDone arr cpu false bus = true ∧ lineOf a = lineOf cpu.addr then .M
      else arr.lkState a := by
  unfold next
  rw [if_neg (by decide)]
  by_cases hsw : snoopWrite arr false bus = true
  · obtain ⟨hact, hne⟩ := (snoopWrite_iff arr bus).mp hsw
    have hheld : arr.lkState bus.addr ≠ .I := by
      intro hI
      rw [hI, snoopNextState_I] at hne
      exact hne rfl
    have hnext : snoopNext arr false bus = snoopNextState (arr.lkState bus.addr) bus.txn := by
      simp [snoopNext, snoopTxnIn, snpState, hact]
    have hnot : ¬ localWriteDone arr cpu false bus = true := by
      rw [localWriteDone_iff, hsw]
      simp
    rw [if_pos hsw, arr.lkState_write_of_held hheld, hnext]
    by_cases hl : lineOf a = lineOf bus.addr
    · rw [if_pos hl, if_pos ⟨hact, hl⟩, arr.lkState_congr hl]
    · rw [if_neg hl, if_neg fun h => hl h.2, if_neg fun h => hnot h.1]
  · rw [if_neg hsw]
    have hsame : bus.active = true ∧ lineOf a = lineOf bus.addr →
        snoopNextState (arr.lkState a) bus.txn = arr.lkState a := by
      rintro ⟨hact, hl⟩
      by_contra hne
      rw [arr.lkState_congr hl] at hne
      exact hsw ((snoopWrite_iff arr bus).mpr ⟨hact, hne⟩)
    by_cases hd : localWriteDone arr cpu false bus = true
    · obtain ⟨⟨-, -, hst⟩, -⟩ := (localWriteDone_iff arr cpu bus false).mp hd
      rw [if_pos hd, arr.lkState_write_of_held (State.ne_I_of_owned hst)]
      by_cases hbus : bus.active = true ∧ lineOf a = lineOf bus.addr
      · have hne := localWriteDone_line_ne hd hbus.1 (htxn hbus.1)
        rw [if_pos hbus, hsame hbus, if_neg fun hl => hne (hl.symm.trans hbus.2)]
      · rw [if_neg hbus]
        by_cases hl : lineOf a = lineOf cpu.addr
        · rw [if_pos hl, if_pos ⟨hd, hl⟩]
        · rw [if_neg hl, if_neg fun h => hl h.2]
    · rw [if_neg hd]
      by_cases hbus : bus.active = true ∧ lineOf a = lineOf bus.addr
      · rw [if_pos hbus, hsame hbus]
      · rw [if_neg hbus, if_neg fun h => hd h.1]

/-- The lookups of the owner of the bus. -/
theorem next_lkState_owner (shared : Bool) (supply a : Word) :
    (next arr cpu true bus shared supply).lkState a =
      if lineOf a = lineOf cpu.addr then prNextState (arr.lkState cpu.addr) cpu.pr shared
      else if addrIndex a = addrIndex cpu.addr then .I else arr.lkState a := by
  unfold next
  rw [if_pos rfl, CacheArray.lkState_write]
  rfl

/-- The payload of a line that the owner still holds. -/
theorem next_rdData_owner (shared : Bool) (supply a : Word)
    (h : (next arr cpu true bus shared supply).lkState a ≠ .I) :
    (next arr cpu true bus shared supply).rdData a =
      if lineOf a = lineOf cpu.addr then (if cpu.we then cpu.wdata else supply)
      else arr.rdData a := by
  rw [next_lkState_owner] at h
  unfold next
  rw [if_pos rfl, CacheArray.rdData_write]
  by_cases hl : lineOf a = lineOf cpu.addr
  · rw [if_pos hl, if_pos ⟨rfl, ((lineOf_eq_iff_fields _ _).mp hl).1⟩]
  · rw [if_neg hl] at h ⊢
    by_cases hi : addrIndex a = addrIndex cpu.addr
    · rw [if_pos hi] at h
      exact absurd rfl h
    · rw [if_neg fun hc => hi hc.2]

/-- The payload of a line that another cache holds. -/
theorem next_rdData_peer (shared : Bool) (supply a : Word)
    (h : arr.lkState a ≠ .I) :
    (next arr cpu false bus shared supply).rdData a =
      if localWriteDone arr cpu false bus = true ∧ lineOf a = lineOf cpu.addr then cpu.wdata
      else arr.rdData a := by
  unfold next
  rw [if_neg (by decide)]
  by_cases hsw : snoopWrite arr false bus = true
  · have hnot : ¬ localWriteDone arr cpu false bus = true := by
      rw [localWriteDone_iff, hsw]
      simp
    rw [if_pos hsw, CacheArray.rdData_write, if_neg (by simp), if_neg fun hc => hnot hc.1]
  · rw [if_neg hsw]
    by_cases hd : localWriteDone arr cpu false bus = true
    · obtain ⟨⟨-, -, hst⟩, -⟩ := (localWriteDone_iff arr cpu bus false).mp hd
      rw [if_pos hd, CacheArray.rdData_write]
      refine if_congr ⟨fun hc => ⟨hd, ?_⟩, fun hc => ⟨rfl, ?_⟩⟩ rfl rfl
      · -- both lines are held in the same set, so they are one line
        have htag : ∀ x, arr.lkState x ≠ .I → arr.tagArr (addrIndex x) = addrTag x := by
          intro x hx
          by_contra hne
          exact hx (if_neg hne)
        have hcpu := htag cpu.addr (State.ne_I_of_owned hst)
        refine (lineOf_eq_iff_fields _ _).mpr ⟨hc.2, ?_⟩
        rw [← htag a h, hc.2, hcpu]
      · exact ((lineOf_eq_iff_fields _ _).mp hc.2).1
    · rw [if_neg hd, if_neg fun hc => hd hc.1]

end L1

variable {pw : ℕ}

/-- The arbiter's loop keeps the first requester it meets. -/
theorem arbitrate_eq_find? (ptr : Core pw) (rv : Core pw → Bool) :
    arbitrate ptr rv = ((List.finRange (2 ^ pw)).find? fun k => rv (ptr + k)).map (ptr + ·) := by
  have hsome : ∀ (ks : List (Core pw)) (w : Core pw),
      ks.foldl (fun winner k => if winner.isNone && rv (ptr + k) then some (ptr + k) else winner)
        (some w) = some w := by
    intro ks w
    induction ks with
    | nil => rfl
    | cons k ks ih => exact ih
  have hnone : ∀ ks : List (Core pw),
      ks.foldl (fun winner k => if winner.isNone && rv (ptr + k) then some (ptr + k) else winner)
        none = (ks.find? fun k => rv (ptr + k)).map (ptr + ·) := by
    intro ks
    induction ks with
    | nil => rfl
    | cons k ks ih =>
      rw [List.foldl_cons, List.find?_cons]
      cases rv (ptr + k) with
      | false => exact ih
      | true => exact hsome ks (ptr + k)
  exact hnone _

/-- The arbiter's index arithmetic reaches every core, at its distance from the pointer. -/
theorem ptr_add_dist (ptr c : Core pw) :
    ptr + ⟨RoundRobin.dist ptr c, RoundRobin.dist_lt ptr c⟩ = c :=
  Fin.ext (RoundRobin.add_dist_mod ptr c)

/-- The arbiter grants the first requester from the pointer on. -/
theorem arbitrate_nearest {ptr w : Core pw} {rv : Core pw → Bool}
    (h : arbitrate ptr rv = some w) : RoundRobin.Nearest ptr (fun c => rv c = true) w := by
  rw [arbitrate_eq_find?] at h
  obtain ⟨k, hk, rfl⟩ := Option.map_eq_some_iff.mp h
  obtain ⟨hvalid, j, hj, rfl, hfirst⟩ := List.find?_eq_some_iff_getElem.mp hk
  refine ⟨hvalid, fun i hi => ?_⟩
  rw [List.length_finRange] at hj
  have hdist : RoundRobin.dist ptr (ptr + (List.finRange (2 ^ pw))[j]) = j :=
    RoundRobin.dist_of_add_mod hj (by rw [Fin.val_add, List.getElem_finRange]; rfl)
  rw [hdist]
  by_contra hlt
  have hnot := hfirst (RoundRobin.dist ptr i) (by omega)
  rw [List.getElem_finRange, Fin.cast_mk, ptr_add_dist, hi] at hnot
  cases hnot

/-- It grants nobody only if nobody requests. -/
theorem arbitrate_none {ptr : Core pw} {rv : Core pw → Bool} (h : arbitrate ptr rv = none)
    (c : Core pw) : rv c = false := by
  rw [arbitrate_eq_find?, Option.map_eq_none_iff, List.find?_eq_none] at h
  have hc := h ⟨RoundRobin.dist ptr c, RoundRobin.dist_lt ptr c⟩ (List.mem_finRange _)
  rw [ptr_add_dist] at hc
  exact Bool.eq_false_iff.mpr hc

namespace MesiTop

section Defs

variable (s : MesiTop pw) (cpu : CpuPorts pw)

/-- The lookup of an address in one cache. -/
def lineState (c : Core pw) (a : Word) : State := (s.l1 c).lkState a

/-- The payload of an address in one cache. -/
def payload (c : Core pw) (a : Word) : Word := (s.l1 c).rdData a

/-- Core `c` completes a write hit this cycle. -/
def WritesLocally (c : Core pw) : Prop :=
  L1.localWriteDone (s.l1 c) (cpu c) false (s.bus cpu) = true

instance (c : Core pw) : Decidable (s.WritesLocally cpu c) :=
  inferInstanceAs (Decidable (_ = true))

/-- Core `c` completes without the bus. -/
def DoneLocally (c : Core pw) : Prop := s.done cpu c = true ∧ s.winner cpu ≠ some c

instance (c : Core pw) : Decidable (s.DoneLocally cpu c) := inferInstanceAs (Decidable (_ ∧ _))

/-- The broadcast touches address `a`. -/
def OnBus (a : Word) : Prop := (s.bus cpu).active = true ∧ lineOf a = lineOf (s.bus cpu).addr

instance (a : Word) : Decidable (s.OnBus cpu a) := inferInstanceAs (Decidable (_ ∧ _))

/-- Why a core needs the bus, with the transaction it issues. -/
inductive Requests (w : Core pw) : BusTxn → Prop where
  | read (hreq : (cpu w).req = true) (hwe : (cpu w).we = false)
      (hst : s.lineState w (cpu w).addr = .I) : Requests w .busRd
  | fetch (hreq : (cpu w).req = true) (hwe : (cpu w).we = true)
      (hst : s.lineState w (cpu w).addr = .I) : Requests w .busRdX
  | upgrade (hreq : (cpu w).req = true) (hwe : (cpu w).we = true)
      (hst : s.lineState w (cpu w).addr = .S) : Requests w .busUpgr

end Defs

variable {s : MesiTop pw} {cpu : CpuPorts pw} {w c : Core pw}

theorem lineState_congr {a b : Word} (h : lineOf a = lineOf b) :
    s.lineState c a = s.lineState c b := (s.l1 c).lkState_congr h

theorem Requests.txn_cases {txn : BusTxn} (h : s.Requests cpu w txn) :
    txn = .busRd ∨ txn = .busRdX ∨ txn = .busUpgr := by
  cases h with
  | read => exact Or.inl rfl
  | fetch => exact Or.inr (Or.inl rfl)
  | upgrade => exact Or.inr (Or.inr rfl)

theorem Requests.req_eq_true {txn : BusTxn} (h : s.Requests cpu w txn) : (cpu w).req = true := by
  cases h with
  | read hreq => exact hreq
  | fetch hreq => exact hreq
  | upgrade hreq => exact hreq

/-- A core that asks for the bus has one of these reasons. -/
theorem requests_of_reqValid (h : L1.reqValid (s.l1 w) (cpu w) = true) :
    s.Requests cpu w (L1.procReqTxn (s.l1 w) (cpu w)) := by
  simp only [L1.reqValid, L1.procNeedsBus, Bool.and_eq_true] at h
  obtain ⟨hreq, hneeds⟩ := h
  unfold L1.procReqTxn CpuIn.pr
  rw [CpuIn.pr, needsBus_eq_true] at hneeds
  cases hwe : (cpu w).we with
  | false =>
    have hst : L1.cpuState (s.l1 w) (cpu w) = .I := by simpa [hreq, hwe] using hneeds
    simpa [hreq, reqTxn, hst] using Requests.read hreq hwe hst
  | true =>
    have hst : L1.cpuState (s.l1 w) (cpu w) = .I ∨ L1.cpuState (s.l1 w) (cpu w) = .S := by
      simpa [hreq, hwe] using hneeds
    rcases hst with hst | hst
    · simpa [hreq, reqTxn, hst] using Requests.fetch hreq hwe hst
    · simpa [hreq, reqTxn, hst] using Requests.upgrade hreq hwe hst

/-- The owner of the bus broadcasts the transaction its request needs. -/
theorem bus_of_winner (h : s.winner cpu = some w) :
    ∃ txn, s.Requests cpu w txn ∧ s.bus cpu = ⟨true, txn, (cpu w).addr⟩ := by
  refine ⟨_, requests_of_reqValid (arbitrate_nearest h).valid, ?_⟩
  unfold bus
  rw [h]

theorem bus_of_no_winner (h : s.winner cpu = none) : s.bus cpu = ⟨false, .none, 0⟩ := by
  unfold bus
  rw [h]

theorem bus_txn_cases (h : (s.bus cpu).active = true) :
    (s.bus cpu).txn = .busRd ∨ (s.bus cpu).txn = .busRdX ∨ (s.bus cpu).txn = .busUpgr := by
  cases hw : s.winner cpu with
  | none =>
    rw [bus_of_no_winner hw] at h
    cases h
  | some w =>
    obtain ⟨txn, hreq, hbus⟩ := bus_of_winner hw
    rw [hbus]
    exact hreq.txn_cases

/-- The bus has one owner. -/
theorem winner_ne (hw : s.winner cpu = some w) (hc : c ≠ w) : s.winner cpu ≠ some c := by
  rw [hw]
  exact fun h => hc (Option.some.inj h).symm

theorem grant_eq_true_iff : s.grant cpu c = true ↔ s.winner cpu = some c := by
  simp [grant]

theorem grant_eq_false_iff : s.grant cpu c = false ↔ s.winner cpu ≠ some c := by
  simp [grant]

/-- The pointer moves past the owner of the bus. -/
theorem step_ptr (h : s.winner cpu = some w) : (s.step cpu).1.ptr = w + 1 := by
  unfold step
  dsimp only
  rw [h]

/-- The lookups of a cache that does not own the bus. -/
theorem step_lineState_peer (h : s.winner cpu ≠ some c) (a : Word) :
    (s.step cpu).1.lineState c a =
      if s.OnBus cpu a then snoopNextState (s.lineState c a) (s.bus cpu).txn
      else if s.WritesLocally cpu c ∧ lineOf a = lineOf (cpu c).addr then .M
      else s.lineState c a := by
  show (L1.next (s.l1 c) (cpu c) (s.grant cpu c) (s.bus cpu) (s.aggShared cpu)
    (s.supplyData cpu)).lkState a = _
  rw [grant_eq_false_iff.mpr h, L1.next_lkState_peer _ _ bus_txn_cases]
  rfl

/-- The lookups of the owner of the bus. -/
theorem step_lineState_winner (h : s.winner cpu = some w) (a : Word) :
    (s.step cpu).1.lineState w a =
      if lineOf a = lineOf (cpu w).addr then
        prNextState (s.lineState w (cpu w).addr) (cpu w).pr (s.aggShared cpu)
      else if addrIndex a = addrIndex (cpu w).addr then .I else s.lineState w a := by
  show (L1.next (s.l1 w) (cpu w) (s.grant cpu w) (s.bus cpu) (s.aggShared cpu)
    (s.supplyData cpu)).lkState a = _
  rw [grant_eq_true_iff.mpr h, L1.next_lkState_owner]
  rfl

/-- The payloads of a cache that does not own the bus. -/
theorem step_payload_peer (h : s.winner cpu ≠ some c) {a : Word} (hst : s.lineState c a ≠ .I) :
    (s.step cpu).1.payload c a =
      if s.WritesLocally cpu c ∧ lineOf a = lineOf (cpu c).addr then (cpu c).wdata
      else s.payload c a := by
  show (L1.next (s.l1 c) (cpu c) (s.grant cpu c) (s.bus cpu) (s.aggShared cpu)
    (s.supplyData cpu)).rdData a = _
  rw [grant_eq_false_iff.mpr h, L1.next_rdData_peer _ _ _ hst]
  rfl

/-- The payloads of the owner of the bus. -/
theorem step_payload_winner (h : s.winner cpu = some w) {a : Word}
    (hst : (s.step cpu).1.lineState w a ≠ .I) :
    (s.step cpu).1.payload w a =
      if lineOf a = lineOf (cpu w).addr then
        (if (cpu w).we then (cpu w).wdata else s.supplyData cpu)
      else s.payload w a := by
  have hg := grant_eq_true_iff.mpr h
  unfold lineState step at hst
  unfold payload step
  dsimp only at hst ⊢
  rw [hg] at hst ⊢
  exact L1.next_rdData_owner _ _ _ hst

theorem snoopHadCopy_iff (hw : s.winner cpu = some w) :
    s.snoopHadCopy cpu c = true ↔ c ≠ w ∧ s.lineState c (cpu w).addr ≠ .I := by
  obtain ⟨txn, -, hbus⟩ := bus_of_winner hw
  by_cases hc : c = w
  · subst hc
    simp [snoopHadCopy, L1.snoopHadCopy, grant_eq_true_iff.mpr hw]
  · have hg : s.grant cpu c = false := grant_eq_false_iff.mpr (winner_ne hw hc)
    simp [snoopHadCopy, L1.snoopHadCopy, L1.snpState, hg, hbus, hc, lineState]

theorem snoopDirty_iff (hw : s.winner cpu = some w) :
    s.snoopDirty cpu c = true ↔ c ≠ w ∧ s.lineState c (cpu w).addr = .M := by
  obtain ⟨txn, -, hbus⟩ := bus_of_winner hw
  have hcopy := snoopHadCopy_iff (c := c) hw
  have hunfold : s.snoopDirty cpu c =
      (s.snoopHadCopy cpu c && decide (s.lineState c (cpu w).addr = .M)) := by
    have haddr : (s.bus cpu).addr = (cpu w).addr := by rw [hbus]
    rw [← haddr]
    rfl
  rw [hunfold, Bool.and_eq_true, hcopy, decide_eq_true_eq, and_assoc]
  refine and_congr_right fun _ => ⟨fun h => h.2, fun h => ⟨?_, h⟩⟩
  rw [h]
  decide

/-- Nobody answers on an idle bus. -/
theorem snoopDirty_of_no_winner (hw : s.winner cpu = none) : s.snoopDirty cpu c = false := by
  simp [snoopDirty, L1.snoopDirty, L1.snoopHadCopy, bus_of_no_winner hw]

theorem aggShared_iff : s.aggShared cpu = true ↔ ∃ c, s.snoopHadCopy cpu c = true := by
  have hfold : ∀ (cs : List (Core pw)) (r : Bool),
      cs.foldl (fun r c => if s.snoopHadCopy cpu c then true else r) r = true ↔
        r = true ∨ ∃ c ∈ cs, s.snoopHadCopy cpu c = true := by
    intro cs
    induction cs with
    | nil => simp
    | cons d cs ih =>
      intro r
      rw [List.foldl_cons, ih]
      by_cases hd : s.snoopHadCopy cpu d = true
      · simp [hd]
      · simp [hd]
  unfold aggShared
  rw [hfold]
  simp

/-- The aggregated dirty data come from a dirty cache, and there are some if there is
    one. -/
theorem aggDirty_cases (s : MesiTop pw) (cpu : CpuPorts pw) :
    (s.aggDirty cpu = none ∧ ∀ c, s.snoopDirty cpu c = false) ∨
      ∃ c, s.snoopDirty cpu c = true ∧ s.aggDirty cpu = some (s.payload c (s.bus cpu).addr) := by
  have hfold : ∀ (cs : List (Core pw)) (r : Option Word),
      let out := cs.foldl (fun r c => if s.snoopDirty cpu c
        then some (L1.snoopData (s.l1 c) (s.bus cpu)) else r) r
      (out = r ∧ ∀ c ∈ cs, s.snoopDirty cpu c = false) ∨
        ∃ c, s.snoopDirty cpu c = true ∧ out = some (s.payload c (s.bus cpu).addr) := by
    intro cs
    induction cs with
    | nil => intro r; exact Or.inl ⟨rfl, by simp⟩
    | cons d cs ih =>
      intro r
      rw [List.foldl_cons]
      by_cases hd : s.snoopDirty cpu d = true
      · rw [if_pos hd]
        rcases ih (some (L1.snoopData (s.l1 d) (s.bus cpu))) with ⟨hout, -⟩ | hsome
        · exact Or.inr ⟨d, hd, hout⟩
        · exact Or.inr hsome
      · rw [if_neg hd]
        rcases ih r with ⟨hout, hnone⟩ | hsome
        · refine Or.inl ⟨hout, fun c hc => ?_⟩
          rcases List.mem_cons.mp hc with rfl | hc
          · simpa using hd
          · exact hnone c hc
        · exact Or.inr hsome
  rcases hfold (List.finRange (2 ^ pw)) none with ⟨hout, hnone⟩ | hsome
  · exact Or.inl ⟨hout, fun c => hnone c (List.mem_finRange c)⟩
  · exact Or.inr hsome

/-- The owner fetches exactly when it holds no copy. -/
theorem Requests.fetch_iff {txn : BusTxn} (h : s.Requests cpu w txn) :
    txn = .busRd ∨ txn = .busRdX ↔ s.lineState w (cpu w).addr = .I := by
  cases h with
  | read hreq hwe hst => simp [hst]
  | fetch hreq hwe hst => simp [hst]
  | upgrade hreq hwe hst => simp [hst]

-- ════════════════════════════════════════════════════════════════════════
-- Completion
-- ════════════════════════════════════════════════════════════════════════

theorem done_winner (hw : s.winner cpu = some w) : s.done cpu w = true := by
  simp [done, L1.cpuDone, grant_eq_true_iff.mpr hw]

theorem done_peer_iff (hc : s.winner cpu ≠ some c) :
    s.done cpu c = true ↔
      L1.localReadDone (s.l1 c) (cpu c) = true ∨ s.WritesLocally cpu c := by
  simp [done, L1.cpuDone, grant_eq_false_iff.mpr hc, WritesLocally]

theorem WritesLocally.request (h : s.WritesLocally cpu c) :
    (cpu c).req = true ∧ (cpu c).we = true := by
  obtain ⟨⟨hreq, hwe, -⟩, -⟩ := (L1.localWriteDone_iff _ _ _ false).mp h
  exact ⟨hreq, hwe⟩

/-- A core that completes a write hit held its line in M or E. -/
theorem WritesLocally.held (h : s.WritesLocally cpu c) {a : Word}
    (ha : lineOf a = lineOf (cpu c).addr) : s.lineState c a = .M ∨ s.lineState c a = .E := by
  obtain ⟨⟨-, -, hst⟩, -⟩ := (L1.localWriteDone_iff _ _ _ false).mp h
  rw [lineState_congr ha]
  exact hst

/-- Only a request completes. -/
theorem done_request (h : s.done cpu c = true) : (cpu c).req = true := by
  by_cases hw : s.winner cpu = some c
  · obtain ⟨txn, hr, -⟩ := bus_of_winner hw
    exact hr.req_eq_true
  · rcases (done_peer_iff hw).mp h with hread | hloc
    · exact ((L1.localReadDone_iff _ _).mp hread).1
    · exact hloc.request.1

/-- A core that completes without the bus holds its line; a read hit leaves the write
    port alone, a write hit is exclusive. -/
theorem DoneLocally.cases (h : s.DoneLocally cpu c) :
    (cpu c).we = false ∧ s.lineState c (cpu c).addr ≠ .I ∧ ¬ s.WritesLocally cpu c ∨
      (cpu c).we = true ∧ s.WritesLocally cpu c := by
  rcases (done_peer_iff h.2).mp h.1 with hread | hloc
  · obtain ⟨-, hwe, hst⟩ := (L1.localReadDone_iff _ _).mp hread
    refine Or.inl ⟨hwe, hst, fun hloc => ?_⟩
    rw [hloc.request.2] at hwe
    cases hwe
  · exact Or.inr ⟨hloc.request.2, hloc⟩

theorem DoneLocally.held (h : s.DoneLocally cpu c) : s.lineState c (cpu c).addr ≠ .I := by
  rcases h.cases with ⟨-, hst, -⟩ | ⟨-, hloc⟩
  · exact hst
  · exact State.ne_I_of_owned (hloc.held rfl)

/-- A core completes without the bus or owns it. -/
theorem done_iff : s.done cpu c = true ↔ s.DoneLocally cpu c ∨ s.winner cpu = some c := by
  by_cases hw : s.winner cpu = some c
  · simp [hw, done_winner hw]
  · simp [DoneLocally, hw]

/-- A hit is counted for a local operation, or for a grant of a held line. -/
theorem evHit_iff : L1.evHit (s.l1 c) (cpu c) (s.grant cpu c) (s.bus cpu) = true ↔
    s.DoneLocally cpu c ∨ s.winner cpu = some c ∧ s.lineState c (cpu c).addr ≠ .I := by
  rw [L1.evHit, Bool.and_eq_true, decide_eq_true_eq]
  change s.done cpu c = true ∧ s.lineState c (cpu c).addr ≠ .I ↔ _
  rw [done_iff, or_and_right]
  exact or_congr_left (and_iff_left_of_imp fun hc => hc.held)

/-- A miss is counted for a grant of an absent line only. -/
theorem evMiss_iff : L1.evMiss (s.l1 c) (cpu c) (s.grant cpu c) (s.bus cpu) = true ↔
    s.winner cpu = some c ∧ s.lineState c (cpu c).addr = .I := by
  rw [L1.evMiss, Bool.and_eq_true, decide_eq_true_eq]
  change s.done cpu c = true ∧ s.lineState c (cpu c).addr = .I ↔ _
  rw [done_iff, or_and_right]
  exact or_iff_right fun hc => hc.1.held hc.2

end MesiTop

end MesiCoherence.Rtl
