import MesiCoherence.Lib.SequentialConsistency
import MesiCoherence.Rtl.LastWrite

/-!
# The hardware is sequentially consistent

Several operations complete in one clock cycle, and a read that completes beside a write of
its line returns the old value. One total order explains a whole run all the same: cycle
after cycle, and within a cycle the reads before the writes.
-/

namespace MesiCoherence.Rtl

variable {pw : ℕ}

/-- The operation a core completes in a cycle, if any, with the value it returns. -/
def completedOp (cpu : CpuPorts pw) (o : CpuOuts pw) (c : Core pw) :
    Option (MemEvent Word Word) :=
  if o.done c then
    some (if (cpu c).we then .store (lineOf (cpu c).addr) (cpu c).wdata
      else .load (lineOf (cpu c).addr) (o.rdata c))
  else none

/-- The operations a core completes along a run, in the order in which it completes them. -/
def coreOps (s : MesiTop pw) (cpus : List (CpuPorts pw)) (c : Core pw) :
    List (MemEvent Word Word) :=
  (List.zipWith (fun cpu o => completedOp cpu o c) cpus
    ((MesiTop.machine pw).outputs s cpus)).filterMap id

/-- The operations of one cycle, by core index. -/
def cycleOps (cpu : CpuPorts pw) (o : CpuOuts pw) : List (Core pw × MemEvent Word Word) :=
  (List.finRange (2 ^ pw)).filterMap fun c => (completedOp cpu o c).map (Prod.mk c)

def isLoad (e : Core pw × MemEvent Word Word) : Bool :=
  match e.2 with
  | .load _ _ => true
  | .store _ _ => false

/-- The reads of a cycle come before its writes. -/
def cycleOrder (cpu : CpuPorts pw) (o : CpuOuts pw) : List (Core pw × MemEvent Word Word) :=
  (cycleOps cpu o).filter isLoad ++ (cycleOps cpu o).filter fun e => !isLoad e

def runOrder (s : MesiTop pw) (cpus : List (CpuPorts pw)) : List (Core pw × MemEvent Word Word) :=
  (List.zipWith cycleOrder cpus ((MesiTop.machine pw).outputs s cpus)).flatten

section Lists

variable {cpu : CpuPorts pw} {o : CpuOuts pw} {c : Core pw}

/-- A core completes at most one operation in a cycle. -/
theorem threadEvents_cycleOps : threadEvents c (cycleOps cpu o) = (completedOp cpu o c).toList := by
  have hlist : ∀ cs : List (Core pw), cs.Nodup →
      threadEvents c (cs.filterMap fun d => (completedOp cpu o d).map (Prod.mk d)) =
        if c ∈ cs then (completedOp cpu o c).toList else [] := by
    intro cs hnd
    induction cs with
    | nil => rfl
    | cons d cs ih =>
      have hrest := ih (List.nodup_cons.mp hnd).2
      have hd := (List.nodup_cons.mp hnd).1
      by_cases hdc : d = c
      · subst hdc
        rw [if_neg hd] at hrest
        rw [if_pos List.mem_cons_self]
        cases hop : completedOp cpu o d with
        | none => simp [hop, hrest]
        | some e => simp [hop, hrest, threadEvents_cons_self]
      · have hmem : c ∈ d :: cs ↔ c ∈ cs := by simp [Ne.symm hdc]
        rw [if_congr hmem rfl rfl, ← hrest]
        cases hop : completedOp cpu o d with
        | none => simp [hop]
        | some e => simp [hop, threadEvents_cons_of_ne (Ne.symm hdc)]
  have hall := hlist (List.finRange (2 ^ pw)) (List.nodup_finRange _)
  rwa [if_pos (List.mem_finRange c)] at hall

theorem threadEvents_cycleOrder :
    threadEvents c (cycleOrder cpu o) = (completedOp cpu o c).toList := by
  rw [cycleOrder, threadEvents_append, threadEvents_filter, threadEvents_filter,
    threadEvents_cycleOps]
  cases completedOp cpu o c with
  | none => rfl
  | some e => cases e <;> rfl

/-- The writes of the cycle's order are its completed writes. -/
theorem cycleOrder_stores (l : Word) :
    (cycleOrder cpu o).filterMap (fun e => e.2.storeTo? l) =
      ((completedWrites cpu o).filter fun w => w.1 = l).map Prod.snd := by
  have hloads : ((cycleOps cpu o).filter isLoad).filterMap (fun e => e.2.storeTo? l) = [] := by
    rw [List.filterMap_eq_nil_iff]
    rintro ⟨d, e⟩ he
    cases e with
    | load a v => rfl
    | store a v => cases (List.mem_filter.mp he).2
  have hstores : ((cycleOps cpu o).filter fun e => !isLoad e).filterMap
      (fun e => e.2.storeTo? l) = (cycleOps cpu o).filterMap (fun e => e.2.storeTo? l) := by
    rw [← List.filterMap_eq_filter, List.filterMap_filterMap]
    congr 1
    funext ⟨d, e⟩
    cases e <;> rfl
  rw [cycleOrder, List.filterMap_append, hloads, hstores, List.nil_append, cycleOps,
    completedWrites, ← List.filterMap_eq_map, ← List.filterMap_eq_filter, List.filterMap_filterMap,
    List.filterMap_filterMap, List.filterMap_filterMap]
  congr 1
  funext d
  unfold completedOp
  cases hd : o.done d <;> cases hwe : (cpu d).we <;>
    by_cases hl : lineOf (cpu d).addr = l <;> simp [hl, MemEvent.storeTo?, Option.guard]

end Lists

section Runs

variable (s : MesiTop pw) (cpus : List (CpuPorts pw)) (cpu : CpuPorts pw)

theorem runOrder_append :
    runOrder s (cpus ++ [cpu]) = runOrder s cpus ++
      cycleOrder cpu (((MesiTop.machine pw).run s cpus).outs cpu) := by
  unfold runOrder
  rw [Machine.outputs_append, List.zipWith_append (Machine.outputs_length _ _ _).symm,
    List.flatten_append]
  exact congrArg _ (List.append_nil _)

theorem coreOps_append (c : Core pw) :
    coreOps s (cpus ++ [cpu]) c = coreOps s cpus c ++
      (completedOp cpu (((MesiTop.machine pw).run s cpus).outs cpu) c).toList := by
  unfold coreOps
  rw [Machine.outputs_append, List.zipWith_append (Machine.outputs_length _ _ _).symm,
    List.filterMap_append]
  congr 1

/-- The order has every core's operations in the order of their completion. -/
theorem threadEvents_runOrder (c : Core pw) :
    threadEvents c (runOrder s cpus) = coreOps s cpus c := by
  induction cpus using List.reverseRecOn with
  | nil => rfl
  | append_singleton cpus cpu ih =>
    rw [runOrder_append, coreOps_append, threadEvents_append, ih, threadEvents_cycleOrder]

/-- The latest write of the order is the latest write of the run. -/
theorem lastStore_runOrder (l : Word) :
    lastStore 0 (runOrder s cpus) l = latestWrite (writesOf s cpus) l := by
  have hstores : (runOrder s cpus).filterMap (fun e => e.2.storeTo? l) =
      ((writesOf s cpus).filter fun w => w.1 = l).map Prod.snd := by
    induction cpus using List.reverseRecOn with
    | nil => rfl
    | append_singleton cpus cpu ih =>
      rw [runOrder_append, writesOf_append, List.filterMap_append, List.filter_append,
        List.map_append, ih, cycleOrder_stores]
  rw [lastStore, latestWrite, hstores, List.getLast?_map]

end Runs

namespace MesiTop

variable {s : MesiTop pw} {cpu : CpuPorts pw} {lines : Word → Prop}

/-- The reads of a cycle return what the lines hold before it. -/
theorem DataInv.cycle_loads {flat : Word → Word} (h : s.DataInv lines flat)
    (hreq : ∀ c, (cpu c).req = true → lines (lineOf (cpu c).addr))
    {e : Core pw × MemEvent Word Word}
    (he : e ∈ (cycleOps cpu (s.outs cpu)).filter isLoad) : ∃ a, e.2 = .load a (flat a) := by
  obtain ⟨hmem, hload⟩ := List.mem_filter.mp he
  obtain ⟨c, -, hc⟩ := List.mem_filterMap.mp hmem
  obtain ⟨op, hop, rfl⟩ := Option.map_eq_some_iff.mp hc
  unfold completedOp at hop
  split at hop
  · next hdone =>
    cases hwe : (cpu c).we with
    | true =>
      rw [hwe, if_pos rfl, Option.some_inj] at hop
      subst hop
      cases hload
    | false =>
      rw [hwe, if_neg (by decide), Option.some_inj] at hop
      refine ⟨lineOf (cpu c).addr, hop.symm.trans ?_⟩
      exact congrArg _ (h.rdata_eq hdone hwe (hreq c (done_request hdone)))
  · cases hop

/-- The order is legal along every run on lines with different memory indices. -/
theorem legalOrder_run (powerUp : MesiTop pw)
    (hinj : ∀ a b, lines (lineOf a) → lines (lineOf b) → midx a = midx b → lineOf a = lineOf b)
    (cpus : List (CpuPorts pw)) (h : (machine pw).AllSteps (Allowed lines) powerUp.reset cpus) :
    LegalOrder 0 (runOrder powerUp.reset cpus) := by
  induction cpus using List.reverseRecOn with
  | nil => exact LegalOrder.nil
  | append_singleton cpus cpu ih =>
    rw [Machine.allSteps_append] at h
    obtain ⟨hpre, ⟨hreq, -⟩, -⟩ := h
    have hdata := dataInv_run powerUp hinj cpus hpre
    rw [runOrder_append, cycleOrder, ← List.append_assoc]
    refine ((ih hpre).append_loads fun e he => ?_).append_stores fun e he => ?_
    · obtain ⟨a, ha⟩ := hdata.cycle_loads hreq he
      exact ⟨a, by rw [lastStore_runOrder, ha]⟩
    · obtain ⟨d, ev⟩ := e
      cases ev with
      | load a v => cases (List.mem_filter.mp he).2
      | store a v => exact ⟨a, v, rfl⟩

theorem midx_inj_of_low {a b : Word} (ha : (lineOf a).toNat < 2 ^ 16)
    (hb : (lineOf b).toNat < 2 ^ 16) (h : midx a = midx b) : lineOf a = lineOf b := by
  rw [lineOf_toNat] at ha hb
  rw [← BitVec.toNat_inj, midx_toNat, midx_toNat] at h
  rw [lineOf_eq_iff]
  omega

theorem LowAndClean.allowed (h : s.LowAndClean cpu) :
    s.Allowed (fun l => l.toNat < 2 ^ 16) cpu := by
  refine ⟨fun c hreq => ?_, h.2⟩
  have hlow := h.1 c hreq
  show (lineOf (cpu c).addr).toNat < 2 ^ 16
  rw [lineOf_toNat]
  omega

/-- **The hardware is sequentially consistent.** In every run from reset whose requests are
    below 64 KiB and whose grants replace no other dirty line, one total order of all
    completed operations keeps every core's own order, and in it every read returns the
    latest write to its line, or 0. -/
theorem run_sequentiallyConsistent (pw : ℕ) (powerUp : MesiTop pw) (cpus : List (CpuPorts pw))
    (h : (machine pw).AllSteps LowAndClean powerUp.reset cpus) :
    SequentiallyConsistent 0 (coreOps powerUp.reset cpus) :=
  ⟨runOrder powerUp.reset cpus, threadEvents_runOrder powerUp.reset cpus,
    legalOrder_run powerUp (fun _ _ => midx_inj_of_low) cpus (h.mono _ fun _ _ hc => hc.allowed)⟩

/-- Two cores share a line; then one upgrades it while the other reads it. -/
def upgradeBesideRead (c e : Core 2) : List (CpuPorts 2) :=
  [ports [(c, ⟨true, false, 0x1000#32, 0⟩)], ports [(e, ⟨true, false, 0x1000#32, 0⟩)],
    ports [(c, ⟨true, true, 0x1000#32, 7⟩), (e, ⟨true, false, 0x1000#32, 0⟩)],
    ports [(e, ⟨true, false, 0x1000#32, 0⟩)]]

/-- The read beside the upgrade returns the old value, the next one the new value. -/
theorem upgradeBesideRead_sequentiallyConsistent :
    let cpus := upgradeBesideRead 0 1
    coreOps blank.reset cpus 0 = [.load 0x1000#32 0, .store 0x1000#32 7] ∧
    coreOps blank.reset cpus 1 = [.load 0x1000#32 0, .load 0x1000#32 0, .load 0x1000#32 7] ∧
    SequentiallyConsistent 0 (coreOps blank.reset cpus) :=
  ⟨by decide +kernel, by decide +kernel,
    run_sequentiallyConsistent 2 blank (upgradeBesideRead 0 1) (by decide +kernel)⟩

end MesiTop

end MesiCoherence.Rtl
