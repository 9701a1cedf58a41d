import MesiCoherence.Rtl.Lockstep

/-!
# The C++ model simulates the hardware

Without set conflicts among the requested lines nothing is ever evicted, and one clock
cycle is the local hits of the cycle followed by the granted operation, executed on the
C++ model. `Simulated` relates the two after every cycle.
-/

namespace MesiCoherence.Rtl

variable {pw : ℕ}

/-- Requested lines in the same set are the same line. -/
def ConflictFree (lines : Word → Prop) : Prop :=
  ∀ a b, lines (lineOf a) → lines (lineOf b) → addrIndex a = addrIndex b → lineOf a = lineOf b

/-- The set index is part of the memory index. -/
theorem addrIndex_of_midx {a b : Word} (h : midx a = midx b) : addrIndex a = addrIndex b := by
  rw [← BitVec.toNat_inj, midx_toNat, midx_toNat] at h
  rw [← BitVec.toNat_inj, addrIndex_toNat, addrIndex_toNat]
  omega

/-- Every set and tag belong to an address. -/
theorem exists_addr (idx : BitVec 6) (tag : BitVec 20) :
    ∃ a, addrIndex a = idx ∧ addrTag a = tag := by
  have hidx := idx.isLt
  have htag := tag.isLt
  have ha : (BitVec.ofNat 32 (tag.toNat * 4096 + idx.toNat * 64)).toNat =
      tag.toNat * 4096 + idx.toNat * 64 := by
    rw [BitVec.toNat_ofNat]
    omega
  refine ⟨BitVec.ofNat 32 (tag.toNat * 4096 + idx.toNat * 64), ?_, ?_⟩
  · rw [← BitVec.toNat_inj, addrIndex_toNat, ha]
    omega
  · rw [← BitVec.toNat_inj, addrTag_toNat, ha]
    omega

/-- The two snoop tables agree on what is broadcast. -/
theorem snoopNextState_eq {txn : BusTxn} (htxn : txn = .busRd ∨ txn = .busRdX ∨ txn = .busUpgr)
    (st : State) : snoopNextState st txn = txn.snoopNext st := by
  rcases htxn with rfl | rfl | rfl <;> cases st <;> rfl

namespace MesiTop

variable {s : MesiTop pw} {i : CycleIn pw} {cpu : CpuPorts pw} {w c : Core pw}
  {lines : Word → Prop}

/-- The transaction on the bus is the one the C++ operation issues. -/
theorem Requests.opTxn_eq {txn : BusTxn} (h : s.Requests cpu w txn) :
    opTxn (cpu w).we (s.lineState w (cpu w).addr) = txn := by
  cases h with
  | read hreq hwe hst => rw [hwe, hst]; rfl
  | fetch hreq hwe hst => rw [hwe, hst]; rfl
  | upgrade hreq hwe hst => rw [hwe, hst]; rfl

theorem Requests.fetches_iff {txn : BusTxn} (h : s.Requests cpu w txn) :
    txn.Fetches ↔ s.lineState w (cpu w).addr = .I := h.fetch_iff

/-- Memory is written when the owner fetches from a dirty cache. -/
theorem memWrEn_iff (hw : s.winner cpu = some w) :
    s.memWrEn cpu = true ↔ s.lineState w (cpu w).addr = .I ∧
      ∃ d, d ≠ w ∧ s.lineState d (cpu w).addr = .M := by
  obtain ⟨txn, hreq, hbus⟩ := bus_of_winner hw
  have hfetch : s.isFetch cpu = true ↔ s.lineState w (cpu w).addr = .I := by
    rw [← hreq.fetches_iff]
    simp [isFetch, hbus, BusTxn.Fetches]
  have hdirty : (s.aggDirty cpu).isSome = true ↔
      ∃ d, d ≠ w ∧ s.lineState d (cpu w).addr = .M := by
    rcases aggDirty_cases s cpu with ⟨hnone, hclean⟩ | ⟨d, hd, hsome⟩
    · rw [hnone]
      simp only [Option.isSome_none, Bool.false_eq_true, false_iff]
      rintro ⟨d, hd⟩
      rw [← snoopDirty_iff hw, hclean d] at hd
      cases hd
    · rw [hsome]
      exact ⟨fun _ => ⟨d, (snoopDirty_iff hw).mp hd⟩, fun _ => rfl⟩
  rw [memWrEn, Bool.and_eq_true, hfetch, hdirty]

/-- A peer counts an invalidation when it loses its copy. -/
theorem evInv_iff (hw : s.winner cpu = some w) :
    L1.evInv (s.l1 c) (s.grant cpu c) (s.bus cpu) = true ↔
      c ≠ w ∧ s.lineState c (cpu w).addr ≠ .I ∧ (s.bus cpu).txn.Invalidates := by
  obtain ⟨txn, hreq, hbus⟩ := bus_of_winner hw
  by_cases hc : c = w
  · subst hc
    simp [L1.evInv, L1.snoopWrite, grant_eq_true_iff.mpr hw]
  · have hg : s.grant cpu c = false := grant_eq_false_iff.mpr (winner_ne hw hc)
    have hnext : L1.snoopNext (s.l1 c) false ⟨true, txn, (cpu w).addr⟩ =
        txn.snoopNext (s.lineState c (cpu w).addr) := by
      rw [← snoopNextState_eq hreq.txn_cases]
      rfl
    rw [L1.evInv, hg, Bool.and_eq_true, L1.snoopWrite_iff, decide_eq_true_eq, hbus, hnext]
    change (true = true ∧ snoopNextState (s.lineState c (cpu w).addr) txn ≠
      s.lineState c (cpu w).addr) ∧ _ ↔ _
    rw [snoopNextState_eq hreq.txn_cases, BusTxn.snoopNext_eq_I_iff]
    rcases hreq.txn_cases with rfl | rfl | rfl <;> cases s.lineState c (cpu w).addr <;>
      simp [BusTxn.snoopNext, BusTxn.Invalidates, hc]

/-- On an idle bus nobody is invalidated. -/
theorem evInv_of_no_winner (hw : s.winner cpu = none) :
    L1.evInv (s.l1 c) (s.grant cpu c) (s.bus cpu) = false := by
  simp [L1.evInv, L1.snoopWrite, bus_of_no_winner hw]

theorem WritesLocally.doneLocally (h : s.WritesLocally i.cpu c) : s.DoneLocally i.cpu c := by
  have hc : s.winner i.cpu ≠ some c := fun hw =>
    h.off_bus ((onBus_iff_of_winner hw _).mpr rfl)
  exact ⟨(done_peer_iff hc).mpr (Or.inr h), hc⟩

/-- Without set conflicts a hit that completes is all that moves a line off the bus. -/
theorem step_state_off_bus (hfree : ConflictFree lines)
    (hreq : ∀ c, (cpu c).req = true → lines (lineOf (cpu c).addr)) {a : Word}
    (ha : lines (lineOf a)) (hoff : ¬ s.OnBus cpu a) (c : Core pw) :
    (s.step cpu).1.lineState c a =
      if s.WritesLocally cpu c ∧ lineOf a = lineOf (cpu c).addr then .M
      else s.lineState c a := by
  by_cases hw : s.winner cpu = some c
  · obtain ⟨txn, hr, -⟩ := bus_of_winner hw
    have hl : lineOf a ≠ lineOf (cpu c).addr := fun hl => hoff ((onBus_iff_of_winner hw a).mpr hl)
    have hi : addrIndex a ≠ addrIndex (cpu c).addr := fun hi =>
      hl (hfree a _ ha (hreq c hr.req_eq_true) hi)
    rw [step_lineState_winner hw, if_neg hl, if_neg hi, if_neg fun hc => hl hc.2]
  · rw [step_lineState_peer hw, if_neg hoff]

/-- Held lines stay among the requested ones. -/
theorem step_held (hheld : ∀ c a, s.lineState c a ≠ .I → lines (lineOf a))
    (hreq : ∀ c, (cpu c).req = true → lines (lineOf (cpu c).addr)) {a : Word}
    (hst : (s.step cpu).1.lineState c a ≠ .I) : lines (lineOf a) := by
  by_cases hon : s.OnBus cpu a
  · cases hw : s.winner cpu with
    | none => exact absurd hon (not_onBus_of_no_winner hw a)
    | some w =>
      obtain ⟨txn, hr, -⟩ := bus_of_winner hw
      rw [(onBus_iff_of_winner hw a).mp hon]
      exact hreq w hr.req_eq_true
  · exact hheld c a (held_of_step_off_bus hon hst)

/-- Without set conflicts no dirty line is replaced. -/
theorem noDirtyReplaced (hfree : ConflictFree lines)
    (hheld : ∀ c a, s.lineState c a ≠ .I → lines (lineOf a))
    (hreq : ∀ c, (cpu c).req = true → lines (lineOf (cpu c).addr)) : s.NoDirtyReplaced cpu := by
  intro w hw htag hM
  obtain ⟨txn, hr, -⟩ := bus_of_winner hw
  obtain ⟨a, hi, ht⟩ := exists_addr (addrIndex (cpu w).addr)
    ((s.l1 w).tagArr (addrIndex (cpu w).addr))
  have hst : s.lineState w a = .M := by
    unfold lineState CacheArray.lkState
    rw [hi, ht, if_pos rfl, hM]
  have ha : lines (lineOf a) := by
    refine hheld w a ?_
    rw [hst]
    decide
  have hl := hfree a _ ha (hreq w hr.req_eq_true) hi
  exact htag (ht.symm.trans ((lineOf_eq_iff_fields _ _).mp hl).2)

theorem mem_localCores : c ∈ s.localCores i ↔ s.DoneLocally i.cpu c := by
  rw [localCores, List.mem_filter, decide_eq_true_eq, i.perm.mem_iff]
  exact and_iff_right (List.mem_finRange c)

theorem nodup_localCores : (s.localCores i).Nodup :=
  (i.perm.nodup_iff.mpr (List.nodup_finRange _)).filter _

end MesiTop

/-- A 32-bit counter that counts an event keeps up with the C++ one. -/
theorem count_ofNat {v : Word} {x : ℕ} (hv : v = BitVec.ofNat 32 x) {ev : Bool} {P : Prop}
    [Decidable P] (hev : ev = true ↔ P) :
    MesiTop.count v ev = BitVec.ofNat 32 (x + if P then 1 else 0) := by
  rw [MesiTop.count, hv]
  by_cases hP : P
  · rw [if_pos (hev.mpr hP), if_pos hP, BitVec.ofNat_add]
    rfl
  · rw [if_neg fun he => hP (hev.mp he), if_neg hP, Nat.add_zero]

theorem count_ofNat_false {v : Word} {x : ℕ} (hv : v = BitVec.ofNat 32 x) {ev : Bool}
    (hev : ev = false) : MesiTop.count v ev = BitVec.ofNat 32 x := by
  rw [hev]
  exact hv

open MesiTop

variable {lines : Word → Prop} {s : MesiTop pw} {i : CycleIn pw} {flat₀ flat : Word → Word}
  {q₀ : PerfCounters (2 ^ pw)} {sys : MesiSystem (2 ^ pw)}

namespace Midway

variable (h : Midway lines s i flat₀ q₀ (s.localCores i) sys flat) {w : Core pw} {a : Word}

include h

/-- After all hits of the cycle, exactly the lines they write have moved. -/
theorem state_all (ha : lines (lineOf a)) (c : Core pw) :
    sys.lineState c (lineOf a) =
      if s.WritesLocally i.cpu c ∧ lineOf a = lineOf (i.cpu c).addr then .M
      else s.lineState c a := by
  rw [h.state c a ha]
  exact if_congr ⟨fun hc => hc.2, fun hc => ⟨mem_localCores.mpr hc.1.doneLocally, hc⟩⟩ rfl rfl

/-- The broadcast line is as the hardware's snoop finds it. -/
theorem state_on_bus (ha : lines (lineOf a)) (hon : s.OnBus i.cpu a) (c : Core pw) :
    sys.lineState c (lineOf a) = s.lineState c a := by
  rw [h.state_all ha, if_neg]
  rintro ⟨hloc, hl⟩
  exact hloc.off_bus ⟨hon.1, hl.symm.trans hon.2⟩

theorem flat_on_bus (hon : s.OnBus i.cpu a) : flat (lineOf a) = flat₀ (lineOf a) := by
  refine h.kept _ fun c _ hloc hl => ?_
  exact hloc.off_bus ⟨hon.1, hl.trans hon.2⟩

theorem state_off_bus (hfree : ConflictFree lines)
    (hreq : ∀ c, (i.cpu c).req = true → lines (lineOf (i.cpu c).addr)) (ha : lines (lineOf a))
    (hoff : ¬ s.OnBus i.cpu a) (c : Core pw) :
    sys.lineState c (lineOf a) = (s.step i.cpu).1.lineState c a := by
  rw [h.state_all ha, step_state_off_bus hfree hreq ha hoff]

/-- On an idle bus the flat memory moves by the write hits. -/
theorem flatStep_idle (hw : s.winner i.cpu = none) : FlatStep s i.cpu flat₀ flat := by
  constructor
  · intro c hc
    have hloc := hc.local_of_off_bus (not_onBus_of_no_winner hw _)
    exact h.written c (mem_localCores.mpr hloc.doneLocally) hloc
  · intro l hl
    refine h.kept l fun c hc hloc => hl c ?_
    exact writesDone_iff.mpr (Or.inr ⟨(mem_localCores.mp hc).2, hloc⟩)

/-- The granted operation moves it once more, on another line. -/
theorem flatStep_granted (hw : s.winner i.cpu = some w) :
    FlatStep s i.cpu flat₀ ((i.callOf w).access.exec flat).1 := by
  constructor
  · intro c hc
    rcases writesDone_iff.mp hc with ⟨hwc, hwe⟩ | ⟨-, hloc⟩
    · obtain rfl : w = c := Option.some.inj (hw.symm.trans hwc)
      simp [i.exec_callOf_write hwe]
    · have hl : lineOf (i.cpu c).addr ≠ lineOf (i.cpu w).addr := fun hl =>
        hloc.off_bus ((onBus_iff_of_winner hw _).mpr hl)
      rw [i.exec_callOf_of_ne hl]
      exact h.written c (mem_localCores.mpr hloc.doneLocally) hloc
  · intro l hl
    have hold : flat l = flat₀ l := by
      refine h.kept l fun c hc hloc => hl c ?_
      exact writesDone_iff.mpr (Or.inr ⟨(mem_localCores.mp hc).2, hloc⟩)
    cases hwe : (i.cpu w).we with
    | false => simp only [i.exec_callOf_read hwe, hold]
    | true =>
      rw [i.exec_callOf_of_ne (Ne.symm (hl w ⟨done_winner hw, hwe⟩)), hold]

/-- The line states after the granted operation. -/
theorem granted_state (hfree : ConflictFree lines)
    (hreq : ∀ c, (i.cpu c).req = true → lines (lineOf (i.cpu c).addr))
    (hw : s.winner i.cpu = some w) (ha : lines (lineOf a)) (c : Core pw) :
    (sys.exec (i.callOf w)).1.lineState c (lineOf a) = (s.step i.cpu).1.lineState c a := by
  rw [MesiSystem.exec_lineState h.coherent, i.callOf_addr, i.callOf_acquires, i.callOf_core,
    lineOf_lineOf]
  by_cases hl : lineOf a = lineOf (i.cpu w).addr
  · have hon := (onBus_iff_of_winner hw a).mpr hl
    obtain ⟨txn, hr, hbus⟩ := bus_of_winner hw
    have hst : ∀ d, sys.lineState d (lineOf a) = s.lineState d (i.cpu w).addr := fun d =>
      (h.state_on_bus ha hon d).trans (lineState_congr hl)
    simp only [if_pos hl, hst]
    by_cases hc : c = w
    · subst hc
      rw [step_on_bus_winner hw hl, if_pos rfl, if_pos rfl]
      cases hr with
      | read hr hwe hI => rw [if_pos hI]
      | fetch hr hwe hI => rw [hwe, if_pos rfl, if_pos rfl]
      | upgrade hr hwe hS => rw [hwe, if_pos rfl, if_pos rfl]
    · rw [step_on_bus_peer hw hc hl, if_neg hc, if_neg hc, hbus, lineState_congr hl,
        snoopNextState_eq hr.txn_cases]
      cases hr with
      | read hr hwe hI => rw [hwe, if_neg (by decide), if_pos hI]
      | fetch hr hwe hI => rw [hwe, if_pos rfl]; rfl
      | upgrade hr hwe hS => rw [hwe, if_pos rfl]; rfl
  · rw [if_neg hl]
    exact h.state_off_bus hfree hreq ha (fun hon => hl ((onBus_iff_of_winner hw a).mp hon)) c

/-- Another core holds the line of the owner dirty, in both. -/
theorem dirtyPeer_iff (hq : lines (lineOf (i.cpu w).addr)) (hw : s.winner i.cpu = some w) :
    sys.bus.DirtyPeer w (lineOf (i.cpu w).addr) ↔
      ∃ d, d ≠ w ∧ s.lineState d (i.cpu w).addr = .M := by
  have hon := (onBus_iff_of_winner hw (i.cpu w).addr).mpr rfl
  refine exists_congr fun d => and_congr_right fun _ => ?_
  rw [← h.state_on_bus hq hon d]
  rfl

/-- Memory after the granted operation. -/
theorem granted_memory (hfree : ConflictFree lines)
    (hreq : ∀ c, (i.cpu c).req = true → lines (lineOf (i.cpu c).addr))
    (hdata : s.DataInv lines flat₀) (hw : s.winner i.cpu = some w) (ha : lines (lineOf a)) :
    (sys.exec (i.callOf w)).1.bus.mem.read (lineOf a) = (s.step i.cpu).1.mem (midx a) := by
  obtain ⟨txn, hr, hbus⟩ := bus_of_winner hw
  have hq := hreq w hr.req_eq_true
  have hon := (onBus_iff_of_winner hw (i.cpu w).addr).mpr rfl
  have hline : midx a = midx (i.cpu w).addr ↔ lineOf a = lineOf (i.cpu w).addr :=
    ⟨fun hm => hfree a _ ha hq (addrIndex_of_midx hm), midx_congr⟩
  have hst : sys.lineState w (lineOf (i.cpu w).addr) = s.lineState w (i.cpu w).addr :=
    h.state_on_bus hq hon w
  have hcond : s.memWrEn i.cpu = true ∧ midx a = midx (s.bus i.cpu).addr ↔
      sys.lineState w (lineOf (i.cpu w).addr) = .I ∧
        sys.bus.DirtyPeer w (lineOf (i.cpu w).addr) ∧ lineOf a = lineOf (i.cpu w).addr := by
    rw [memWrEn_iff hw, hbus, hline, hst, h.dirtyPeer_iff hq hw, and_assoc]
  rw [MesiSystem.exec_mem_read h.coherent, i.callOf_addr, i.callOf_core, lineOf_lineOf,
    lineOf_lineOf, step_mem, h.memory a ha]
  by_cases hwb : s.memWrEn i.cpu = true ∧ midx a = midx (s.bus i.cpu).addr
  · rw [if_pos hwb, if_pos (hcond.mp hwb), (hcond.mp hwb).2.2, h.flat_on_bus hon]
    -- the dirty copy shows the represented value
    rcases aggDirty_cases s i.cpu with ⟨hnone, -⟩ | ⟨d, hd, hsome⟩
    · have hen := hwb.1
      simp [memWrEn, hnone] at hen
    · obtain ⟨-, hM⟩ := (snoopDirty_iff hw).mp hd
      rw [hsome, hbus, Option.getD_some]
      refine (hdata.copy d _ hq ?_).symm
      rw [hM]
      decide
  · rw [if_neg hwb, if_neg fun hc => hwb (hcond.mpr hc)]

/-- The granted operation issues the broadcast transaction. -/
theorem granted_opPerf (hq : lines (lineOf (i.cpu w).addr)) (hw : s.winner i.cpu = some w)
    {txn : BusTxn} (hr : s.Requests i.cpu w txn) :
    (sys.exec (i.callOf w)).1.bus.perf = sys.bus.opPerf w txn (lineOf (i.cpu w).addr) := by
  have hst := h.state_on_bus hq ((onBus_iff_of_winner hw (i.cpu w).addr).mpr rfl) w
  rw [MesiSystem.exec_perf h.coherent, i.callOf_addr, i.callOf_acquires, i.callOf_core,
    lineOf_lineOf, hst, hr.opTxn_eq]

/-- Hits and the granted operation are counted as in the hardware. -/
theorem granted_hit (hp : CountersAgree s.perf q₀) (hw : s.winner i.cpu = some w)
    (c : Core pw) :
    (s.perfNext i.cpu).l1Hit c = BitVec.ofNat 32 (sys.bus.perf.l1Hit c +
      if c = w ∧ s.lineState w (i.cpu w).addr ≠ .I then 1 else 0) := by
  show count _ _ = _
  rw [h.perf]
  dsimp only
  by_cases hc : c = w
  · subst hc
    have hwl : c ∉ s.localCores i := fun hc => (mem_localCores.mp hc).2 hw
    rw [if_neg hwl, Nat.add_zero]
    refine count_ofNat (hp.hit c) ?_
    rw [evHit_iff, ← mem_localCores]
    simp [hwl, hw]
  · rw [if_neg (c := c = w ∧ _) fun hcw => hc hcw.1, Nat.add_zero]
    refine count_ofNat (hp.hit c) ?_
    rw [evHit_iff, ← mem_localCores, hw]
    simp [Ne.symm hc]

/-- The counters after the granted operation. -/
theorem granted_perf (hreq : ∀ c, (i.cpu c).req = true → lines (lineOf (i.cpu c).addr))
    (hp : CountersAgree s.perf q₀) (hw : s.winner i.cpu = some w) :
    CountersAgree (s.perfNext i.cpu) (sys.exec (i.callOf w)).1.bus.perf := by
  obtain ⟨txn, hr, hbus⟩ := bus_of_winner hw
  have hq := hreq w hr.req_eq_true
  have hst : ∀ d, sys.lineState d (lineOf (i.cpu w).addr) = s.lineState d (i.cpu w).addr :=
    h.state_on_bus hq ((onBus_iff_of_winner hw (i.cpu w).addr).mpr rfl)
  have hbase := h.perf
  rw [h.granted_opPerf hq hw hr]
  constructor
  · show count _ _ = BitVec.ofNat 32 (sys.bus.perf.busRdCount + _)
    rw [hbase, hbus]
    exact count_ofNat hp.busRd (by simp)
  · show count _ _ = BitVec.ofNat 32 (sys.bus.perf.busRdxCount + _)
    rw [hbase, hbus]
    exact count_ofNat hp.busRdx (by simp)
  · show count _ _ = BitVec.ofNat 32 (sys.bus.perf.busUpgrCount + _)
    rw [hbase, hbus]
    exact count_ofNat hp.busUpgr (by simp)
  · show count _ _ = BitVec.ofNat 32 (sys.bus.perf.busWbCount + _)
    rw [hbase]
    refine count_ofNat hp.busWb ?_
    rw [memWrEn_iff hw, hr.fetches_iff, h.dirtyPeer_iff hq hw]
  · intro c
    show _ = BitVec.ofNat 32 (sys.bus.perf.l1Hit c + if c = w ∧ sys.lineState w _ ≠ .I
      then 1 else 0)
    rw [hst]
    exact h.granted_hit hp hw c
  · intro c
    show count _ _ = BitVec.ofNat 32 (sys.bus.perf.l1Miss c + if c = w ∧ sys.lineState w _ = .I
      then 1 else 0)
    rw [hbase, hst]
    refine count_ofNat (hp.miss c) ?_
    rw [evMiss_iff, hw, Option.some_inj]
    constructor
    · rintro ⟨rfl, hI⟩
      exact ⟨rfl, hI⟩
    · rintro ⟨rfl, hI⟩
      exact ⟨rfl, hI⟩
  · intro c
    show count _ _ = BitVec.ofNat 32 (sys.bus.perf.invCount c + _)
    rw [hbase]
    refine count_ofNat (hp.inv c) ?_
    rw [evInv_iff hw, hbus, ← hst]
    rfl

/-- The counters of a cycle without a grant. -/
theorem idle_perf (hp : CountersAgree s.perf q₀) (hw : s.winner i.cpu = none) :
    CountersAgree (s.perfNext i.cpu) sys.bus.perf := by
  have hbus := bus_of_no_winner hw
  rw [h.perf]
  constructor
  · exact count_ofNat_false hp.busRd (by rw [hbus]; rfl)
  · exact count_ofNat_false hp.busRdx (by rw [hbus]; rfl)
  · exact count_ofNat_false hp.busUpgr (by rw [hbus]; rfl)
  · exact count_ofNat_false hp.busWb (by simp [memWrEn, isFetch, hbus])
  · intro c
    refine count_ofNat (hp.hit c) ?_
    rw [evHit_iff, ← mem_localCores, hw]
    simp
  · intro c
    refine count_ofNat_false (hp.miss c) ?_
    rw [Bool.eq_false_iff, ne_eq, evMiss_iff, hw]
    simp
  · exact fun c => count_ofNat_false (hp.inv c) (evInv_of_no_winner hw)

/-- Memory in a cycle without a grant. -/
theorem idle_memory (hw : s.winner i.cpu = none) (ha : lines (lineOf a)) :
    sys.bus.mem.read (lineOf a) = (s.step i.cpu).1.mem (midx a) := by
  rw [step_mem, if_neg, h.memory a ha]
  rintro ⟨hen, -⟩
  simp [memWrEn, isFetch, bus_of_no_winner hw] at hen

end Midway

/-- The simulation relation: on the requested lines the C++ model and the hardware show
    the same states and the same memory, all copies and both memories represent one flat
    memory, and the counters agree. -/
structure Simulated (lines : Word → Prop) (s : MesiTop pw) (sys : MesiSystem (2 ^ pw))
    (flat : Word → Word) : Prop where
  coherent : Coherent (fun _ => 0) flat sys.bus
  exclusive : s.Exclusive
  data : s.DataInv lines flat
  held : ∀ c a, s.lineState c a ≠ .I → lines (lineOf a)
  state : ∀ c a, lines (lineOf a) → sys.lineState c (lineOf a) = s.lineState c a
  memory : ∀ a, lines (lineOf a) → sys.bus.mem.read (lineOf a) = s.mem (midx a)
  perf : CountersAgree s.perf sys.bus.perf

namespace Simulated

theorem reset (powerUp : MesiTop pw) (lines : Word → Prop) :
    Simulated lines powerUp.reset (MesiSystem.new (2 ^ pw)) fun _ => 0 where
  coherent := Coherent.newOver (2 ^ pw) .new
  exclusive := exclusive_reset powerUp
  data := dataInv_reset powerUp lines
  held c a hst := absurd (reset_lineState powerUp c a) hst
  state c a _ := (reset_lineState powerUp c a).symm
  memory _ _ := rfl
  perf := ⟨rfl, rfl, rfl, rfl, fun _ => rfl, fun _ => rfl, fun _ => rfl⟩

/-- Before the first operation of a cycle nothing has moved. -/
theorem midway (h : Simulated lines s sys flat) (i : CycleIn pw) :
    Midway lines s i flat sys.bus.perf [] sys flat where
  coherent := h.coherent
  state c a ha := by
    rw [h.state c a ha, if_neg]
    simp
  memory := h.memory
  written c hc := by cases hc
  kept l _ := rfl
  perf := by simp

/-- The hits of a cycle, executed before the granted operation. -/
theorem hits (h : Simulated lines s sys flat)
    (hreq : ∀ c, (i.cpu c).req = true → lines (lineOf (i.cpu c).addr)) :
    ∃ flat', Midway lines s i flat sys.bus.perf (s.localCores i)
        ((MesiSystem.machine (2 ^ pw)).run sys (i.calls (s.localCores i))) flat' ∧
      (MesiSystem.machine (2 ^ pw)).outputs sys (i.calls (s.localCores i)) =
        (s.localCores i).map fun c => some (s.reply i c) :=
  (h.midway i).run h.exclusive h.data nodup_localCores (fun _ hc => mem_localCores.mp hc)
    fun c hc => hreq c (done_request (mem_localCores.mp hc).1)

/-- What the hardware keeps by itself in a cycle. -/
theorem step_hardware (h : Simulated lines s sys flat) (hfree : ConflictFree lines)
    (hreq : ∀ c, (i.cpu c).req = true → lines (lineOf (i.cpu c).addr)) {flat' : Word → Word}
    (hf : FlatStep s i.cpu flat flat') : (s.step i.cpu).1.DataInv lines flat' :=
  h.data.step h.exclusive hreq
    (fun a b ha hb hm => hfree a b ha hb (addrIndex_of_midx hm))
    (noDirtyReplaced hfree h.held hreq) hf

/-- **One cycle**: executing the completed operations of the cycle on the C++ model keeps
    the relation, and every operation returns what the hardware returns. -/
theorem cycle (h : Simulated lines s sys flat) (hfree : ConflictFree lines)
    (hreq : ∀ c, (i.cpu c).req = true → lines (lineOf (i.cpu c).addr)) :
    ∃ flat', Simulated lines (s.step i.cpu).1
        ((MesiSystem.machine (2 ^ pw)).run sys (i.calls (s.servedCores i))) flat' ∧
      (MesiSystem.machine (2 ^ pw)).outputs sys (i.calls (s.servedCores i)) =
        (s.servedCores i).map fun c => some (s.reply i c) := by
  obtain ⟨flat₁, h₁, hout⟩ := h.hits hreq
  cases hw : s.winner i.cpu with
  | none =>
    have hserved : s.servedCores i = s.localCores i := by
      rw [servedCores, hw]
      exact List.append_nil _
    rw [hserved]
    refine ⟨flat₁, ⟨h₁.coherent, h.exclusive.step _, ?_, ?_, ?_, ?_, ?_⟩, hout⟩
    · exact h.step_hardware hfree hreq (h₁.flatStep_idle hw)
    · exact fun c a hst => step_held h.held hreq hst
    · exact fun c a ha => h₁.state_off_bus hfree hreq ha (not_onBus_of_no_winner hw a) c
    · exact fun a ha => h₁.idle_memory hw ha
    · exact h₁.idle_perf h.perf hw
  | some w =>
    have hserved : i.calls (s.servedCores i) =
        i.calls (s.localCores i) ++ [.call (i.callOf w)] := by
      rw [servedCores, hw, CycleIn.calls, List.map_append]
      rfl
    obtain ⟨txn, hr, -⟩ := bus_of_winner hw
    have hq := hreq w hr.req_eq_true
    have hon := (onBus_iff_of_winner hw (i.cpu w).addr).mpr rfl
    obtain ⟨hco, hreply⟩ := exec_refines h₁.coherent (i.callOf w) fun hl => hl.2.2 rfl
    rw [hserved, Machine.run_append, Machine.outputs_append, hout]
    refine ⟨_, ⟨hco, h.exclusive.step _, ?_, ?_, ?_, ?_, ?_⟩, ?_⟩
    · exact h.step_hardware hfree hreq (h₁.flatStep_granted hw)
    · exact fun c a hst => step_held h.held hreq hst
    · exact fun c a ha => h₁.granted_state hfree hreq hw ha c
    · exact fun a ha => h₁.granted_memory hfree hreq h.data hw ha
    · exact h₁.granted_perf hreq h.perf hw
    · rw [servedCores, hw, List.map_append]
      refine congrArg _ (congrArg (fun r => [some r]) (hreply.trans ?_))
      rw [reply]
      cases hwe : (i.cpu w).we with
      | true => rw [i.exec_callOf_write hwe, if_pos rfl]
      | false =>
        rw [i.exec_callOf_read hwe, if_neg (by decide), h.data.rdata_eq (done_winner hw) hwe hq,
          h₁.flat_on_bus hon]

/-- A held copy has the payload the C++ controller shows. -/
theorem payload_eq (h : Simulated lines s sys flat) {a : Word} (ha : lines (lineOf a))
    {c : Core pw} (hst : s.lineState c a ≠ .I) :
    s.payload c a = (sys.bus.controllers c).peek (lineOf a) := by
  have hst' : sys.bus.lineState c (lineOf (lineOf a)) ≠ .I := by
    rw [lineOf_lineOf]
    exact fun hI => hst ((h.state c a ha).symm.trans hI)
  rw [h.data.copy c a ha hst, h.coherent.peek_of_held hst']

end Simulated

/-- Hardware and C++ model side by side: a clock cycle, then its completed operations on
    the model. The outputs are what the hardware and what the model returned to them. -/
def lockstep (pw : ℕ) : Machine (MesiTop pw × MesiSystem (2 ^ pw)) (CycleIn pw)
    (List (Option (Reply Word)) × List (Option (Reply Word))) where
  step p i :=
    let served := p.1.servedCores i
    (((p.1.step i.cpu).1, (MesiSystem.machine (2 ^ pw)).run p.2 (i.calls served)),
      (served.map fun c => some (p.1.reply i c),
        (MesiSystem.machine (2 ^ pw)).outputs p.2 (i.calls served)))

/-- The hardware side of a lockstep run is a run of the hardware. -/
theorem lockstep_run_fst (p : MesiTop pw × MesiSystem (2 ^ pw)) (is : List (CycleIn pw)) :
    ((lockstep pw).run p is).1 = (MesiTop.machine pw).run p.1 (is.map CycleIn.cpu) := by
  induction is generalizing p with
  | nil => rfl
  | cons i is ih => exact ih _

/-- The relation holds along lockstep runs, and all replies agree. -/
theorem simulated_run (powerUp : MesiTop pw) (hfree : ConflictFree lines)
    (is : List (CycleIn pw))
    (hreq : ∀ i ∈ is, ∀ c, (i.cpu c).req = true → lines (lineOf (i.cpu c).addr)) :
    (∃ flat, Simulated lines ((lockstep pw).run (powerUp.reset, .new (2 ^ pw)) is).1
      ((lockstep pw).run (powerUp.reset, .new (2 ^ pw)) is).2 flat) ∧
    ∀ o ∈ (lockstep pw).outputs (powerUp.reset, .new (2 ^ pw)) is, o.1 = o.2 := by
  induction is using List.reverseRecOn with
  | nil => exact ⟨⟨_, Simulated.reset powerUp lines⟩, by simp⟩
  | append_singleton is i ih =>
    obtain ⟨⟨flat, h⟩, hout⟩ := ih fun j hj => hreq j (List.mem_append_left _ hj)
    obtain ⟨flat', h', hreply⟩ := h.cycle hfree (hreq i (by simp))
    rw [Machine.run_append, Machine.outputs_append]
    refine ⟨⟨flat', h'⟩, fun o ho => ?_⟩
    rcases List.mem_append.mp ho with ho | ho
    · exact hout o ho
    · rw [List.mem_singleton.mp ho]
      exact hreply.symm

/-- **The C++ model simulates the hardware.** Take any run of the hardware from reset,
    with any CPU ports in every cycle, in which requested lines of one set are one line.
    Execute the operations that complete in each cycle on a fresh C++ system, the local
    ones first and in any order, then the granted one. Then after every cycle, for every
    requested line: each cache has it in the same state on both sides, with the same
    payload if it is valid; memory agrees; so do the counters modulo `2 ^ 32`; and every
    operation has returned the same on both sides. -/
theorem cpp_simulates_hardware (pw : ℕ) (powerUp : MesiTop pw) (is : List (CycleIn pw))
    (hfree : ∀ i ∈ is, ∀ j ∈ is, ∀ c d, (i.cpu c).req = true → (j.cpu d).req = true →
      addrIndex (i.cpu c).addr = addrIndex (j.cpu d).addr →
      lineOf (i.cpu c).addr = lineOf (j.cpu d).addr) :
    (∀ pre, pre <+: is →
      let s := (MesiTop.machine pw).run powerUp.reset (pre.map CycleIn.cpu)
      let sys := ((lockstep pw).run (powerUp.reset, .new (2 ^ pw)) pre).2
      (∀ i ∈ is, ∀ c, (i.cpu c).req = true →
        let a := (i.cpu c).addr
        (∀ d, s.lineState d a = sys.lineState d (lineOf a) ∧
          (s.lineState d a ≠ .I → s.payload d a = (sys.bus.controllers d).peek (lineOf a))) ∧
        s.mem (midx a) = sys.bus.mem.read (lineOf a)) ∧
      CountersAgree s.perf sys.bus.perf) ∧
    ∀ o ∈ (lockstep pw).outputs (powerUp.reset, .new (2 ^ pw)) is, o.1 = o.2 := by
  let lines : Word → Prop := fun l =>
    ∃ i ∈ is, ∃ c, (i.cpu c).req = true ∧ lineOf (i.cpu c).addr = l
  have hlines : ∀ i ∈ is, ∀ c, (i.cpu c).req = true → lines (lineOf (i.cpu c).addr) :=
    fun i hi c hc => ⟨i, hi, c, hc, rfl⟩
  have hconf : ConflictFree lines := by
    rintro a b ⟨i, hi, c, hc, hca⟩ ⟨j, hj, d, hd, hdb⟩ hab
    rw [← hca, ← hdb]
    apply hfree i hi j hj c d hc hd
    rw [((lineOf_eq_iff_fields _ _).mp hca).1, ((lineOf_eq_iff_fields _ _).mp hdb).1, hab]
  refine ⟨?_, (simulated_run powerUp hconf is hlines).2⟩
  intro pre hpre s sys
  obtain ⟨⟨flat, h⟩, -⟩ := simulated_run powerUp hconf pre fun i hi => hlines i (hpre.subset hi)
  rw [lockstep_run_fst] at h
  refine ⟨fun i hi c hc => ?_, h.perf⟩
  have ha := hlines i hi c hc
  exact ⟨fun d => ⟨(h.state d _ ha).symm, fun hst => h.payload_eq ha hst⟩, (h.memory _ ha).symm⟩

/-- A cycle whose operations the C++ model executes by core index. -/
def byIndexCycle (cpu : CpuPorts pw) : CycleIn pw :=
  ⟨cpu, List.finRange (2 ^ pw), .refl _, fun c => .byIndex c⟩

/-- After the dirty intervention of `readCycle` the C++ model shares the line too. -/
theorem readCycle_simulated :
    let is := [byIndexCycle writeCycle, byIndexCycle readCycle]
    let s := (MesiTop.machine 2).run blank.reset [writeCycle, readCycle]
    let sys := ((lockstep 2).run (blank.reset, .new (2 ^ 2)) is).2
    s.lineState 1 0x1004#32 = .S ∧ sys.lineState 1 0x1000#32 = .S ∧
      s.payload 1 0x1004#32 = 7 ∧ (sys.bus.controllers 1).peek 0x1000#32 = 7 := by
  intro is s sys
  have hst : s.lineState 1 0x1004#32 = .S := by decide +kernel
  have hpay : s.payload 1 0x1004#32 = 7 := by decide +kernel
  have hheld : s.lineState 1 0x1004#32 ≠ .I := by
    rw [hst]
    decide
  obtain ⟨hrun, -⟩ := cpp_simulates_hardware 2 blank is (by decide +kernel)
  obtain ⟨hline, -⟩ := (hrun is (List.prefix_refl _)).1 (byIndexCycle readCycle) (by simp [is]) 1 rfl
  obtain ⟨hstate, hdata⟩ := hline 1
  exact ⟨hst, hstate.symm.trans hst, hpay, (hdata hheld).symm.trans hpay⟩

end MesiCoherence.Rtl
