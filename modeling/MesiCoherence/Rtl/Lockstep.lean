import MesiCoherence.Model.OpEffects
import MesiCoherence.Rtl.LastWrite

/-!
# The hardware in lockstep with the C++ model

One clock cycle completes several operations at once. The C++ model executes the same
operations one after the other: first the hits that complete without the bus, in any
order, then the one that was granted. `Midway` says where the C++ model stands after
some of the hits; the granted operation then finds the same line as the hardware's
broadcast did, because no hit that completes is on the broadcast line.
-/

namespace MesiCoherence.Rtl

variable {pw : ℕ}

/-- One cycle's CPU ports, with the order in which the C++ model executes the local
    operations and visits the peers in its broadcasts. -/
structure CycleIn (pw : ℕ) where
  cpu : CpuPorts pw
  order : List (Core pw)
  perm : order.Perm (List.finRange (2 ^ pw))
  visit : (c : Core pw) → VisitOrder c

/-- The operation of a core, at its line. -/
def CycleIn.callOf (i : CycleIn pw) (c : Core pw) : Call (2 ^ pw) where
  core := c
  access := if (i.cpu c).we then .write (lineOf (i.cpu c).addr) (i.cpu c).wdata
    else .read (lineOf (i.cpu c).addr)
  visit := i.visit c

namespace CycleIn

variable (i : CycleIn pw) {c : Core pw}

theorem callOf_core : (i.callOf c).core = c := rfl

theorem callOf_read (hwe : (i.cpu c).we = false) :
    (i.callOf c).access = .read (lineOf (i.cpu c).addr) := by
  simp [callOf, hwe]

theorem callOf_write (hwe : (i.cpu c).we = true) :
    (i.callOf c).access = .write (lineOf (i.cpu c).addr) (i.cpu c).wdata := by
  simp [callOf, hwe]

theorem callOf_addr : (i.callOf c).access.addr = lineOf (i.cpu c).addr := by
  cases hwe : (i.cpu c).we with
  | false => rw [i.callOf_read hwe]; rfl
  | true => rw [i.callOf_write hwe]; rfl

theorem callOf_acquires : (i.callOf c).acquires = (i.cpu c).we := by
  cases hwe : (i.cpu c).we with
  | false => rw [Call.acquires, i.callOf_read hwe]
  | true => rw [Call.acquires, i.callOf_write hwe]

/-- A read of the flat memory. -/
theorem exec_callOf_read (hwe : (i.cpu c).we = false) (flat : Word → Word) :
    (i.callOf c).access.exec flat = (flat, .value (flat (lineOf (i.cpu c).addr))) := by
  rw [i.callOf_read hwe, Access.exec_read]

/-- A write of the flat memory. -/
theorem exec_callOf_write (hwe : (i.cpu c).we = true) (flat : Word → Word) :
    (i.callOf c).access.exec flat =
      (Function.update flat (lineOf (i.cpu c).addr) (i.cpu c).wdata, .done) := by
  rw [i.callOf_write hwe, Access.exec_write]

theorem exec_callOf_of_ne {l : Word} (hl : l ≠ lineOf (i.cpu c).addr) (flat : Word → Word) :
    ((i.callOf c).access.exec flat).1 l = flat l := by
  rw [← i.callOf_addr] at hl
  exact Function.update_of_ne hl _ _

end CycleIn

namespace MesiTop

section Defs

variable (s : MesiTop pw) (i : CycleIn pw)

/-- The cores whose operations complete, in the order of the C++ execution. -/
def localCores : List (Core pw) := i.order.filter (s.DoneLocally i.cpu)

def servedCores : List (Core pw) := s.localCores i ++ (s.winner i.cpu).toList

/-- What the hardware returns to a core that completes. -/
def reply (c : Core pw) : Reply Word :=
  if (i.cpu c).we then .done else .value (s.rdata i.cpu c)

end Defs

end MesiTop

/-- The inputs of the C++ model for the operations of some cores. -/
def CycleIn.calls (i : CycleIn pw) (cs : List (Core pw)) : List (Input (2 ^ pw)) :=
  cs.map fun c => .call (i.callOf c)

/-- The 32-bit counters show the C++ ones modulo `2 ^ 32`. -/
structure CountersAgree (p : PerfRegs pw) (q : PerfCounters (2 ^ pw)) : Prop where
  busRd : p.busRdCount = BitVec.ofNat 32 q.busRdCount
  busRdx : p.busRdxCount = BitVec.ofNat 32 q.busRdxCount
  busUpgr : p.busUpgrCount = BitVec.ofNat 32 q.busUpgrCount
  busWb : p.busWbCount = BitVec.ofNat 32 q.busWbCount
  hit : ∀ c, p.l1Hit c = BitVec.ofNat 32 (q.l1Hit c)
  miss : ∀ c, p.l1Miss c = BitVec.ofNat 32 (q.l1Miss c)
  inv : ∀ c, p.invCount c = BitVec.ofNat 32 (q.invCount c)

/-- The C++ model after the local operations of the cores in `ds`: their write hits are
    in M and in `flat`, nothing else has moved but their hit counters. -/
structure Midway (lines : Word → Prop) (s : MesiTop pw) (i : CycleIn pw) (flat₀ : Word → Word)
    (q₀ : PerfCounters (2 ^ pw)) (ds : List (Core pw)) (sys : MesiSystem (2 ^ pw))
    (flat : Word → Word) : Prop where
  coherent : Coherent (fun _ => 0) flat sys.bus
  state : ∀ c a, lines (lineOf a) → sys.lineState c (lineOf a) =
    if c ∈ ds ∧ s.WritesLocally i.cpu c ∧ lineOf a = lineOf (i.cpu c).addr then .M
    else s.lineState c a
  memory : ∀ a, lines (lineOf a) → sys.bus.mem.read (lineOf a) = s.mem (midx a)
  written : ∀ c ∈ ds, s.WritesLocally i.cpu c →
    flat (lineOf (i.cpu c).addr) = (i.cpu c).wdata
  kept : ∀ l, (∀ c ∈ ds, s.WritesLocally i.cpu c → lineOf (i.cpu c).addr ≠ l) →
    flat l = flat₀ l
  perf : sys.bus.perf = { q₀ with
    l1Hit := fun c => q₀.l1Hit c + if c ∈ ds then 1 else 0 }

variable {lines : Word → Prop} {s : MesiTop pw} {i : CycleIn pw} {flat₀ flat : Word → Word}
  {q₀ : PerfCounters (2 ^ pw)} {ds : List (Core pw)} {sys : MesiSystem (2 ^ pw)}

open MesiTop

/-- A write hit of another core leaves no copy behind. -/
theorem writer_eq (hex : s.Exclusive) {c d : Core pw} (hd : s.WritesLocally i.cpu d)
    (hc : s.lineState c (i.cpu c).addr ≠ .I)
    (hl : lineOf (i.cpu d).addr = lineOf (i.cpu c).addr) : d = c := by
  by_contra hdc
  exact hc (hex _ d c hdc (hd.held hl.symm))

/-- An operation of core `c` on a held line that needs no bus. -/
theorem opPerf_none {c : Core pw} {line : Word} (hst : sys.lineState c line ≠ .I) :
    sys.bus.opPerf c .none line = { sys.bus.perf with
      l1Hit := fun j => sys.bus.perf.l1Hit j + if j = c then 1 else 0 } := by
  rw [← SnoopingBus.countHit_perf hst]
  simp only [SnoopingBus.countHit]
  ext <;> simp [SnoopingBus.bump_apply]

/-- A completed hit needs no transaction in the C++ model either. -/
theorem MesiTop.DoneLocally.opTxn_eq {c : Core pw} (h : s.DoneLocally i.cpu c) :
    opTxn (i.cpu c).we (s.lineState c (i.cpu c).addr) = .none := by
  rcases h.cases with ⟨hwe, hst, -⟩ | ⟨hwe, hloc⟩
  · rw [hwe]
    cases hs : s.lineState c (i.cpu c).addr with
    | I => exact absurd hs hst
    | S => rfl
    | E => rfl
    | M => rfl
  · rcases hloc.held rfl with hst | hst <;> rw [hst] <;> rfl

namespace Midway

variable (h : Midway lines s i flat₀ q₀ ds sys flat) {c : Core pw}

include h

/-- The line of a core that has not been served is as in the hardware. -/
theorem own_state (hds : c ∉ ds) (hq : lines (lineOf (i.cpu c).addr)) :
    sys.lineState c (lineOf (i.cpu c).addr) = s.lineState c (i.cpu c).addr := by
  rw [h.state c _ hq, if_neg fun hc => hds hc.1]

/-- Write hits have moved no line of which another core holds a copy. -/
theorem flat_eq (hex : s.Exclusive) (hds : c ∉ ds) (hst : s.lineState c (i.cpu c).addr ≠ .I) :
    flat (lineOf (i.cpu c).addr) = flat₀ (lineOf (i.cpu c).addr) := by
  refine h.kept _ fun d hd hloc hl => hds ?_
  rwa [← writer_eq hex hloc hst hl]

/-- The line states after one more hit. -/
theorem exec_state (hc : s.DoneLocally i.cpu c) (hds : c ∉ ds)
    (hq : lines (lineOf (i.cpu c).addr)) (d : Core pw) {a : Word} (ha : lines (lineOf a)) :
    (sys.exec (i.callOf c)).1.lineState d (lineOf a) =
      if d ∈ ds ++ [c] ∧ s.WritesLocally i.cpu d ∧ lineOf a = lineOf (i.cpu d).addr then .M
      else s.lineState d a := by
  have hit : opTxn (i.callOf c).acquires (sys.lineState c (lineOf (i.callOf c).access.addr)) =
      .none := by
    rw [i.callOf_acquires, i.callOf_addr, lineOf_lineOf, h.own_state hds hq, hc.opTxn_eq]
  rw [MesiSystem.exec_lineState_of_hit h.coherent _ hit, i.callOf_acquires, i.callOf_addr,
    i.callOf_core, lineOf_lineOf, h.state d a ha]
  by_cases hdc : d = c
  · subst hdc
    rw [if_neg (c := d ∈ ds ∧ _) fun hd => hds hd.1]
    refine if_congr ?_ rfl rfl
    rcases hc.cases with ⟨hwe, -, hnot⟩ | ⟨hwe, hloc⟩
    · simp [hwe, hnot]
    · simp [hwe, hloc]
  · rw [if_neg fun hd => hdc hd.2.1]
    simp [hdc]

/-- The counters after one more hit. -/
theorem exec_perf (hc : s.DoneLocally i.cpu c) (hds : c ∉ ds)
    (hq : lines (lineOf (i.cpu c).addr)) :
    (sys.exec (i.callOf c)).1.bus.perf = { q₀ with
      l1Hit := fun d => q₀.l1Hit d + if d ∈ ds ++ [c] then 1 else 0 } := by
  have hheld := hc.held
  rw [← h.own_state hds hq] at hheld
  rw [MesiSystem.exec_perf h.coherent, i.callOf_addr, i.callOf_acquires, i.callOf_core,
    lineOf_lineOf, h.own_state hds hq, hc.opTxn_eq, opPerf_none hheld, h.perf]
  dsimp only
  congr 1
  funext d
  by_cases hdc : d = c
  · subst hdc
    simp [hds]
  · simp [hdc]

/-- One local operation: the C++ model hits, and returns what the hardware returns. -/
theorem exec (hex : s.Exclusive) (hdata : s.DataInv lines flat₀) (hc : s.DoneLocally i.cpu c)
    (hds : c ∉ ds) (hq : lines (lineOf (i.cpu c).addr)) :
    ∃ flat', Midway lines s i flat₀ q₀ (ds ++ [c]) (sys.exec (i.callOf c)).1 flat' ∧
      (sys.exec (i.callOf c)).2 = s.reply i c := by
  have hheld := hc.held
  obtain ⟨hco, hreply⟩ := exec_refines h.coherent (i.callOf c) fun hl => hl.2.2 rfl
  refine ⟨((i.callOf c).access.exec flat).1, ⟨hco, ?_, ?_, ?_, ?_, ?_⟩, ?_⟩
  · exact fun d a ha => h.exec_state hc hds hq d ha
  · intro a ha
    rw [MesiSystem.exec_mem_read h.coherent, i.callOf_addr, lineOf_lineOf, if_neg, h.memory a ha]
    rintro ⟨hI, -⟩
    exact hheld ((h.own_state hds hq).symm.trans hI)
  · intro d hd hloc
    rcases hc.cases with ⟨hwe, -, hnot⟩ | ⟨hwe, hlocc⟩
    · simp only [i.exec_callOf_read hwe]
      rcases List.mem_append.mp hd with hd | hd
      · exact h.written d hd hloc
      · exact absurd (List.mem_singleton.mp hd ▸ hloc) hnot
    · simp only [i.exec_callOf_write hwe]
      by_cases hl : lineOf (i.cpu d).addr = lineOf (i.cpu c).addr
      · rw [writer_eq hex hloc hheld hl, Function.update_self]
      · rcases List.mem_append.mp hd with hd | hd
        · rw [Function.update_of_ne hl, h.written d hd hloc]
        · exact absurd (by rw [List.mem_singleton.mp hd]) hl
  · intro l hl
    have hold := h.kept l fun d hd => hl d (List.mem_append_left _ hd)
    rcases hc.cases with ⟨hwe, -, -⟩ | ⟨hwe, hloc⟩
    · simp only [i.exec_callOf_read hwe, hold]
    · simp only [i.exec_callOf_write hwe]
      rw [Function.update_of_ne (Ne.symm (hl c (by simp) hloc)), hold]
  · exact h.exec_perf hc hds hq
  · rw [hreply, reply]
    cases hwe : (i.cpu c).we with
    | true => rw [i.exec_callOf_write hwe, if_pos rfl]
    | false =>
      rw [i.exec_callOf_read hwe, if_neg (by decide), hdata.rdata_eq hc.1 hwe hq,
        h.flat_eq hex hds hheld]

/-- The local operations of a cycle, one after the other. -/
theorem run (hex : s.Exclusive) (hdata : s.DataInv lines flat₀) {es : List (Core pw)}
    (hnd : (ds ++ es).Nodup) (hes : ∀ c ∈ es, s.DoneLocally i.cpu c)
    (hq : ∀ c ∈ es, lines (lineOf (i.cpu c).addr)) :
    ∃ flat', Midway lines s i flat₀ q₀ (ds ++ es)
        ((MesiSystem.machine (2 ^ pw)).run sys (i.calls es)) flat' ∧
      (MesiSystem.machine (2 ^ pw)).outputs sys (i.calls es) =
        es.map fun c => some (s.reply i c) := by
  induction es generalizing ds sys flat with
  | nil => exact ⟨flat, by rwa [List.append_nil], rfl⟩
  | cons c es ih =>
    have hsplit : ds ++ c :: es = ds ++ [c] ++ es := by simp
    have hds : c ∉ ds := fun hc => (List.nodup_append.mp hnd).2.2 c hc c (by simp) rfl
    obtain ⟨flat₁, h₁, hreply⟩ := h.exec hex hdata (hes c (by simp)) hds (hq c (by simp))
    obtain ⟨flat₂, h₂, hout⟩ := ih h₁ (hsplit ▸ hnd)
      (fun d hd => hes d (List.mem_cons_of_mem _ hd)) fun d hd => hq d (List.mem_cons_of_mem _ hd)
    refine ⟨flat₂, hsplit ▸ h₂, ?_⟩
    exact List.cons_eq_cons.mpr ⟨congrArg some hreply, hout⟩

end Midway

end MesiCoherence.Rtl
