import MesiCoherence.Rtl.Completion

/-!
# The stimulus generator

`rtl/cpu_stub.sv`: a core's request derived from a step counter, which advances when the
cache reports done. Here it drives one core of the system; the ports of the other cores are
inputs like its own `enable` and `base_addr`.
-/

namespace MesiCoherence.Rtl

/-- The parameters. `MODE` is 0 for sequential, 1 for shared and 2 for false sharing. -/
structure CpuStub where
  coreId : Word
  mode : BitVec 3

/-- The inputs beside `done`. -/
structure StubIn where
  enable : Bool
  baseAddr : Word

namespace CpuStub

variable (stub : CpuStub)

def fsOff : Word := if stub.coreId.getLsbD 0 then 4 else 0

/-- The request when the step counter is `step`. -/
def port (i : StubIn) (step : Word) : CpuIn where
  req := i.enable
  we :=
    if stub.mode = 0 then step.getLsbD 0
    else if stub.mode = 1 then true
    else if stub.mode = 2 then true
    else false
  addr :=
    if stub.mode = 0 then i.baseAddr + step <<< 6
    else if stub.mode = 1 then i.baseAddr
    else if stub.mode = 2 then i.baseAddr + stub.fsOff
    else i.baseAddr
  wdata := stub.coreId.extractLsb' 0 8 ++ step.extractLsb' 0 24

/-- The step counter after a cycle. -/
def stepNext (i : StubIn) (step : Word) (done : Bool) : Word :=
  if i.enable && done then step + 1 else step

end CpuStub

/-- The registers of a system with a stub on one core. -/
structure Driven (pw : ℕ) where
  top : MesiTop pw
  step : Word

structure DrivenIn (pw : ℕ) where
  stub : StubIn
  others : CpuPorts pw

namespace CpuStub

variable {pw : ℕ} (stub : CpuStub) (c : Core pw)

/-- The ports of all cores, that of core `c` driven by the stub. -/
def ports (s : Driven pw) (i : DrivenIn pw) : CpuPorts pw :=
  Function.update i.others c (stub.port i.stub s.step)

/-- One clock cycle. -/
def cycle (s : Driven pw) (i : DrivenIn pw) : Driven pw × CpuOuts pw :=
  let r := s.top.step (stub.ports c s i)
  (⟨r.1, stepNext i.stub s.step (r.2.done c)⟩, r.2)

def machine : Machine (Driven pw) (DrivenIn pw) (CpuOuts pw) := ⟨stub.cycle c⟩

variable (s₀ : Driven pw) (inp : ℕ → DrivenIn pw)

/-- The request of core `c` in a cycle is done. -/
def doneAt (t : ℕ) : Bool :=
  let s := (stub.machine c).stateAt s₀ inp t
  s.top.done (stub.ports c s (inp t)) c

/-- The operations of core `c` that are done in the first `t` cycles, in order. -/
def opsDone (t : ℕ) : List CpuIn :=
  (List.range t).filterMap fun u =>
    if stub.doneAt c s₀ inp u then
      some (stub.port (inp u).stub ((stub.machine c).stateAt s₀ inp u).step)
    else none

variable {stub c s₀ inp}

/-- The system sees the stub's requests as it would see any others. -/
theorem stateAt_top (t : ℕ) :
    ((stub.machine c).stateAt s₀ inp t).top = (MesiTop.machine pw).stateAt s₀.top
      (fun u => stub.ports c ((stub.machine c).stateAt s₀ inp u) (inp u)) t := by
  induction t with
  | zero => rfl
  | succ t ih =>
    rw [Machine.stateAt_succ, Machine.stateAt_succ, ← ih]
    rfl

theorem opsDone_succ (t : ℕ) :
    stub.opsDone c s₀ inp (t + 1) = stub.opsDone c s₀ inp t ++
      if stub.doneAt c s₀ inp t then
        [stub.port (inp t).stub ((stub.machine c).stateAt s₀ inp t).step]
      else [] := by
  rw [opsDone, List.range_succ, List.filterMap_append]
  congr 1
  by_cases hdone : stub.doneAt c s₀ inp t = true
  · simp [hdone]
  · simp [hdone]

theorem stateAt_step_succ {t : ℕ} (henable : (inp t).stub.enable = true) :
    ((stub.machine c).stateAt s₀ inp (t + 1)).step =
      if stub.doneAt c s₀ inp t then ((stub.machine c).stateAt s₀ inp t).step + 1
      else ((stub.machine c).stateAt s₀ inp t).step := by
  rw [Machine.stateAt_succ]
  show stepNext (inp t).stub _ (stub.doneAt c s₀ inp t) = _
  rw [stepNext, henable, Bool.true_and]

theorem length_opsDone_mono {a b : ℕ} (hab : a ≤ b) :
    (stub.opsDone c s₀ inp a).length ≤ (stub.opsDone c s₀ inp b).length := by
  induction b, hab using Nat.le_induction with
  | base => exact le_rfl
  | succ b _ ih =>
    rw [opsDone_succ, List.length_append]
    exact ih.trans (Nat.le_add_right _ _)

section Enabled

variable {base : Word} (henabled : ∀ t, (inp t).stub = ⟨true, base⟩)

include henabled

/-- The counter has counted the operations, and these follow the stub's pattern. -/
theorem opsDone_eq (t : ℕ) :
    ((stub.machine c).stateAt s₀ inp t).step =
        s₀.step + BitVec.ofNat 32 (stub.opsDone c s₀ inp t).length ∧
      stub.opsDone c s₀ inp t = (List.range (stub.opsDone c s₀ inp t).length).map fun j =>
        stub.port ⟨true, base⟩ (s₀.step + BitVec.ofNat 32 j) := by
  induction t with
  | zero => exact ⟨(BitVec.add_zero _).symm, rfl⟩
  | succ t ih =>
    obtain ⟨hstep, hops⟩ := ih
    have henable : (inp t).stub.enable = true := by rw [henabled]
    rw [stateAt_step_succ henable, opsDone_succ]
    by_cases hdone : stub.doneAt c s₀ inp t = true
    · rw [if_pos hdone, if_pos hdone, List.length_append, List.length_singleton]
      constructor
      · rw [hstep, BitVec.ofNat_add, BitVec.add_assoc]
        rfl
      · rw [List.range_succ, List.map_append, ← hops, henabled, hstep]
        rfl
    · rw [if_neg hdone, if_neg hdone, List.append_nil]
      exact ⟨hstep, hops⟩

/-- The counter stands still until the request is done. -/
theorem step_held {a t : ℕ} (hat : a ≤ t)
    (hnot : ∀ u ∈ Set.Ico a t, stub.doneAt c s₀ inp u = false) :
    ((stub.machine c).stateAt s₀ inp t).step = ((stub.machine c).stateAt s₀ inp a).step := by
  induction t, hat using Nat.le_induction with
  | base => rfl
  | succ t hat ih =>
    have henable : (inp t).stub.enable = true := by rw [henabled]
    rw [stateAt_step_succ henable, hnot t ⟨hat, Nat.lt_succ_self t⟩]
    exact ih fun u hu => hnot u ⟨hu.1, Nat.lt_succ_of_lt hu.2⟩

/-- In any stretch of `2 * 64 + N_CORES` cycles an operation is done. -/
theorem exists_done (a : ℕ) :
    ∃ t, a ≤ t ∧ t < a + (2 * 64 + 2 ^ pw) ∧ stub.doneAt c s₀ inp t = true := by
  have hpos : 0 < 2 ^ pw := Nat.two_pow_pos pw
  set cpu : ℕ → CpuPorts pw := fun u =>
    stub.ports c ((stub.machine c).stateAt s₀ inp u) (inp u) with hcpu
  have hport : ∀ t, cpu t c =
      stub.port ⟨true, base⟩ ((stub.machine c).stateAt s₀ inp t).step := by
    intro t
    rw [hcpu, ← henabled t]
    exact Function.update_self _ _ _
  have hdone : ∀ t, ((MesiTop.machine pw).stateAt s₀.top cpu t).done (cpu t) c =
      stub.doneAt c s₀ inp t := by
    intro t
    rw [doneAt, stateAt_top]
  obtain ⟨t, hat, hlen, ht, -⟩ := MesiTop.first_done s₀.top cpu (i := c) (a := a)
    (by rw [hport]; rfl) (by
      intro t hat hnot
      rw [hport, hport, step_held henabled hat fun u hu => (hdone u).symm.trans (hnot u hu)]
      exact ⟨rfl, rfl, rfl⟩)
  exact ⟨t, hat, by omega, (hdone t).symm.trans ht⟩

end Enabled

/-- **The stub runs for ever.** Let a stub with a fixed base address drive one core, from any
    contents of the registers and whatever the other cores request. The operations that are
    done on its core are those of its pattern, in order, each exactly once; the counter
    counts them modulo `2 ^ 32`; and at least one is done in every `2 * 64 + N_CORES` cycles. -/
theorem stub_completes_pattern (pw : ℕ) (stub : CpuStub) (c : Core pw) (s₀ : Driven pw)
    (inp : ℕ → DrivenIn pw) (base : Word) (henabled : ∀ t, (inp t).stub = ⟨true, base⟩) :
    let ops := stub.opsDone c s₀ inp
    (∀ t, ops t = (List.range (ops t).length).map fun j =>
      stub.port ⟨true, base⟩ (s₀.step + BitVec.ofNat 32 j)) ∧
    (∀ t, ((stub.machine c).stateAt s₀ inp t).step =
      s₀.step + BitVec.ofNat 32 (ops t).length) ∧
    ∀ k, k ≤ (ops (k * (2 * 64 + 2 ^ pw))).length := by
  intro ops
  refine ⟨fun t => (opsDone_eq henabled t).2, fun t => (opsDone_eq henabled t).1, fun k => ?_⟩
  induction k with
  | zero => exact Nat.zero_le _
  | succ k ih =>
    have hsoon : ∃ t, k * (2 * 64 + 2 ^ pw) ≤ t ∧
        t < k * (2 * 64 + 2 ^ pw) + (2 * 64 + 2 ^ pw) ∧ stub.doneAt c s₀ inp t = true :=
      exists_done henabled _
    obtain ⟨t, hat, htb, hdone⟩ := hsoon
    calc k + 1 ≤ (ops (k * (2 * 64 + 2 ^ pw))).length + 1 := Nat.succ_le_succ ih
      _ ≤ (ops t).length + 1 := Nat.succ_le_succ (length_opsDone_mono hat)
      _ = (ops (t + 1)).length := by
        simp only [ops, opsDone_succ, hdone, if_true, List.length_append, List.length_singleton]
      _ ≤ (ops ((k + 1) * (2 * 64 + 2 ^ pw))).length :=
        length_opsDone_mono (by rw [Nat.succ_mul]; exact htb)

/-- The stub of the testbench on core 1 of a system with nobody else. -/
theorem sequentialStub_runs :
    let stub : CpuStub := ⟨1, 0⟩
    let ops := stub.opsDone (1 : Core 2) ⟨MesiTop.blank.reset, 0⟩
      fun _ => ⟨⟨true, 0x1000#32⟩, fun _ => ⟨false, false, 0, 0⟩⟩
    ops 3 = [⟨true, false, 0x1000#32, 0x01000000#32⟩, ⟨true, true, 0x1040#32, 0x01000001#32⟩,
      ⟨true, false, 0x1080#32, 0x01000002#32⟩] ∧
    ∀ k, k ≤ (ops (k * 132)).length := by
  intro stub ops
  refine ⟨by decide +kernel, ?_⟩
  exact (stub_completes_pattern 2 stub 1 ⟨MesiTop.blank.reset, 0⟩ _ 0x1000#32 fun _ => rfl).2.2

end CpuStub

end MesiCoherence.Rtl
