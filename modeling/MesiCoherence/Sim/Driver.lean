import Mathlib.Logic.Function.Iterate
import MesiCoherence.Rtl.Completion
import MesiCoherence.Rtl.CppSimulation

/-!
# The testbench driver

`sim/cpu_driver.hpp`: the blocking read and write of the Verilated system with four cores.
`op` clocks until the cache says done and throws after 1000 cycles. It leaves the ports of
the other cores as they are, so their requests may still be asserted.

## Main results

- `Driver.op_returns` — `op` never throws, whatever the registers and the other ports hold
- `Driver.run_matches_model` — a program of driver calls sees what the C++ model shows
-/

namespace MesiCoherence.Sim

open Rtl

/-- The registers of the system and the input ports as last set. -/
structure Driver where
  top : MesiTop 2
  cpu : CpuPorts 2

namespace Driver

section Defs

variable (d : Driver)

/-- One full clock cycle, inputs already set. -/
def tick : Driver := { d with top := (d.top.step d.cpu).1 }

/-- Six cycles under reset without requests, then one with the reset released. -/
def reset : Driver :=
  tick ⟨MesiTop.reset^[6] d.top, fun c => { d.cpu c with req := false, we := false }⟩

/-- The loop of `op`: clock until the core is done, at most so many times. -/
def clockUntilDone (core : Core 2) : ℕ → Driver → Option (Word × Driver)
  | 0, _ => none
  | c + 1, d =>
    if d.top.done d.cpu core then some (d.top.rdata d.cpu core, d.tick)
    else clockUntilDone core c d.tick

/-- Assert a request. -/
def issue (core : Core 2) (we : Bool) (addr wdata : Word) : Driver :=
  { d with cpu := Function.update d.cpu core ⟨true, we, addr, wdata⟩ }

/-- Take the request back; the other inputs of the core stay. -/
def deassert (core : Core 2) : Driver :=
  { d with cpu := Function.update d.cpu core { d.cpu core with req := false } }

/-- Issue one operation and block until it completes. -/
def op (core : Core 2) (we : Bool) (addr wdata : Word) : Except String (Word × Driver) :=
  match clockUntilDone core 1000 (d.issue core we addr wdata) with
  | none => .error "CPU op did not complete (deadlock)"
  | some (rd, d) => .ok (rd, d.deassert core)

def read (core : Core 2) (addr : Word) : Except String (Word × Driver) := d.op core false addr 0

def write (core : Core 2) (addr v : Word) : Except String Driver :=
  (d.op core true addr v).map Prod.snd

/-- The state of an address in one cache, through the debug port. -/
def state (core : Core 2) (addr : Word) : State := d.top.lineState core addr

end Defs

/-- The ports of an operation that is being clocked. -/
def held (d : Driver) (core : Core 2) (we : Bool) (addr wdata : Word) : CpuPorts 2 :=
  (d.issue core we addr wdata).cpu

variable {d : Driver} {core : Core 2}

/-- The loop stops in the first cycle in which the core is done. -/
theorem clockUntilDone_eq {n fuel : ℕ} (hn : n < fuel)
    (hnot : ∀ t < n, ((MesiTop.machine 2).stateAt d.top (fun _ => d.cpu) t).done d.cpu core = false)
    (hdone : ((MesiTop.machine 2).stateAt d.top (fun _ => d.cpu) n).done d.cpu core = true) :
    clockUntilDone core fuel d =
      some (((MesiTop.machine 2).stateAt d.top (fun _ => d.cpu) n).rdata d.cpu core,
        ⟨(MesiTop.machine 2).stateAt d.top (fun _ => d.cpu) (n + 1), d.cpu⟩) := by
  induction n generalizing d fuel with
  | zero =>
    obtain ⟨fuel, rfl⟩ := Nat.exists_eq_succ_of_ne_zero (Nat.ne_of_gt hn)
    exact if_pos hdone
  | succ n ih =>
    obtain ⟨fuel, rfl⟩ := Nat.exists_eq_succ_of_ne_zero (Nat.ne_of_gt (Nat.zero_lt_of_lt hn))
    have hfirst : ¬ d.top.done d.cpu core = true := Bool.eq_false_iff.mp (hnot 0 (Nat.succ_pos n))
    -- the rest of the loop starts after one tick
    have hrest := @ih d.tick fuel (by omega)
      (fun t ht => by
        have hlater := hnot (t + 1) (by omega)
        rwa [Machine.stateAt_tail] at hlater)
      (by rwa [Machine.stateAt_tail] at hdone)
    rw [Machine.stateAt_tail, Machine.stateAt_tail _ _ _ (n + 1)]
    exact (if_neg hfirst).trans hrest

/-- **The driver never reports a deadlock.** Whatever the registers hold and whatever the
    other cores request, `op` returns: it clocks the held request for at most
    `2 * 64 + 3` cycles in vain, returns what the cache delivers in the first cycle in
    which it is done, and leaves the request deasserted. -/
theorem op_returns (d : Driver) (core : Core 2) (we : Bool) (addr wdata : Word) :
    let ports := d.held core we addr wdata
    let s := (MesiTop.machine 2).stateAt d.top fun _ => ports
    ∃ n, n ≤ 2 * 64 + 3 ∧ (∀ t < n, (s t).done ports core = false) ∧
      (s n).done ports core = true ∧
      d.op core we addr wdata =
        .ok ((s n).rdata ports core, deassert ⟨s (n + 1), ports⟩ core) := by
  intro ports s
  have hreq : (ports core).req = true := by
    show (Function.update d.cpu core _ core).req = true
    rw [Function.update_self]
  obtain ⟨n, -, hn, hdone, hnot⟩ := MesiTop.first_done d.top (fun _ => ports)
    (a := 0) hreq fun _ _ _ => ⟨rfl, rfl, rfl⟩
  have hfirst : ∀ t < n, (s t).done ports core = false := fun t ht => hnot t ⟨Nat.zero_le t, ht⟩
  refine ⟨n, by simpa using hn, hfirst, hdone, ?_⟩
  unfold op
  rw [clockUntilDone_eq (d := d.issue core we addr wdata) (n := n) (by omega) hfirst hdone]
  rfl

end Driver

/-- An operation of the driver on the C++ model, which keeps one word for a line of the
    hardware. -/
def opCall (core : Core 2) (we : Bool) (addr wdata : Word) : Call (2 ^ 2) :=
  .plain core (if we then .write (lineOf addr) wdata else .read (lineOf addr))

/-- A call of the driver's `read` or `write`. -/
inductive DriverCall where
  | read (core : Core 2) (addr : Word)
  | write (core : Core 2) (addr v : Word)

namespace DriverCall

def addr : DriverCall → Word
  | .read _ addr => addr
  | .write _ addr _ => addr

/-- The same call on the C++ model. -/
def call : DriverCall → Call (2 ^ 2)
  | .read core addr => opCall core false addr 0
  | .write core addr v => opCall core true addr v

end DriverCall

namespace Driver

/-- One call, with what it returns. -/
def exec (d : Driver) : DriverCall → Except String (Reply Word × Driver)
  | .read core addr => do
    let (rd, d) ← d.read core addr
    pure (.value rd, d)
  | .write core addr v => do
    let d ← d.write core addr v
    pure (.done, d)

/-- A program of driver calls, with what they return. -/
def run : Driver → List DriverCall → Except String (List (Reply Word) × Driver)
  | d, [] => .ok ([], d)
  | d, c :: cs => do
    let (r, d) ← d.exec c
    let (rs, d) ← run d cs
    pure (r :: rs, d)

/-- Between two calls of a program no request is asserted. -/
def Quiet (d : Driver) : Prop := ∀ c, (d.cpu c).req = false

variable {d : Driver} {core : Core 2} {we : Bool} {addr wdata : Word}

theorem held_self : d.held core we addr wdata core = ⟨true, we, addr, wdata⟩ :=
  Function.update_self _ _ _

theorem held_of_ne {c : Core 2} (hc : c ≠ core) : d.held core we addr wdata c = d.cpu c :=
  Function.update_of_ne hc _ _

theorem Quiet.held_req (h : d.Quiet) {c : Core 2} (hc : (d.held core we addr wdata c).req = true) :
    c = core := by
  by_contra hne
  rw [held_of_ne hne, h c] at hc
  cases hc

/-- The only request of a cycle completes in it. -/
theorem Quiet.done (h : d.Quiet) (s : MesiTop 2) :
    s.done (d.held core we addr wdata) core = true := by
  by_contra hd
  have hreq : (d.held core we addr wdata core).req = true := by rw [held_self]
  obtain ⟨w, hw, hwin⟩ := MesiTop.exists_other_grant hreq (Bool.not_eq_true _ ▸ hd)
  obtain ⟨txn, hr, -⟩ := MesiTop.bus_of_winner hwin
  exact hw (h.held_req hr.req_eq_true)

/-- A call of a quiet driver is one clock cycle. -/
theorem Quiet.op_eq (h : d.Quiet) :
    d.op core we addr wdata =
      .ok (d.top.rdata (d.held core we addr wdata) core,
        deassert ⟨(d.top.step (d.held core we addr wdata)).1, d.held core we addr wdata⟩ core) := by
  unfold op
  rw [clockUntilDone_eq (d := d.issue core we addr wdata) (n := 0) (by omega) (by simp)
    (h.done d.top)]
  rfl

theorem Quiet.deassert (h : d.Quiet) (s : MesiTop 2) :
    (Driver.deassert ⟨s, d.held core we addr wdata⟩ core).Quiet := by
  intro c
  unfold Driver.deassert
  by_cases hc : c = core
  · subst hc
    dsimp only
    rw [Function.update_self]
  · dsimp only
    rw [Function.update_of_ne hc, Bool.eq_false_iff]
    exact fun hreq => hc (h.held_req hreq)

end Driver

namespace Driver

variable {s : MesiTop 2} {i : CycleIn 2} {c : Core 2}

theorem mem_servedCores : c ∈ s.servedCores i ↔ s.done i.cpu c = true := by
  rw [MesiTop.servedCores, List.mem_append, Option.mem_toList, MesiTop.mem_localCores,
    MesiTop.done_iff]

/-- A cycle with at most one request serves that core, or none. -/
theorem servedCores_eq_single (hdone : s.done i.cpu c = true)
    (honly : ∀ e, (i.cpu e).req = true → e = c) : s.servedCores i = [c] := by
  have hmem : ∀ e, e ∈ s.servedCores i ↔ e = c := fun e =>
    ⟨fun he => honly e (MesiTop.done_request (mem_servedCores.mp he)),
      fun he => he ▸ mem_servedCores.mpr hdone⟩
  unfold MesiTop.servedCores at hmem ⊢
  cases hw : s.winner i.cpu with
  | none =>
    rw [hw, Option.toList_none, List.append_nil] at hmem
    rw [Option.toList_none, List.append_nil]
    exact List.perm_singleton.mp
      ((List.perm_ext_iff_of_nodup MesiTop.nodup_localCores (List.nodup_singleton c)).mpr
        fun e => (hmem e).trans List.mem_singleton.symm)
  | some w =>
    have hwc : w = c := (hmem w).mp (by simp [hw])
    have hlocal : s.localCores i = [] := by
      rw [List.eq_nil_iff_forall_not_mem]
      intro e he
      have hec := (hmem e).mp (List.mem_append_left _ he)
      exact (MesiTop.mem_localCores.mp he).2 (by rw [hw, hwc, hec])
    rw [hlocal, hwc]
    rfl

theorem servedCores_eq_nil (hidle : ∀ e, (i.cpu e).req = false) : s.servedCores i = [] := by
  rw [List.eq_nil_iff_forall_not_mem]
  intro e he
  have hreq := MesiTop.done_request (mem_servedCores.mp he)
  rw [hidle e] at hreq
  cases hreq

/-- Without a stall the stall counters stay. -/
theorem step_stallCycles {cpu : CpuPorts 2} (h : ∀ e, (cpu e).req = true → s.done cpu e = true)
    (e : Core 2) : (s.step cpu).1.perf.stallCycles e = s.perf.stallCycles e := by
  have hstall : s.stall cpu e = false := by
    show ((cpu e).req && !(s.done cpu e)) = false
    cases hreq : (cpu e).req with
    | false => rfl
    | true => rw [h e hreq]; rfl
  show MesiTop.count _ (s.stall cpu e) = _
  rw [hstall]
  rfl

variable {lines : Word → Prop} {d : Driver} {sys : MesiSystem (2 ^ 2)} {flat : Word → Word}

/-- **One operation**: the hardware after it is simulated by the C++ model after the same
    operation, with the same reply. -/
theorem op_simulated (hfree : ConflictFree lines) (hq : d.Quiet)
    (h : Simulated lines d.top sys flat) (core : Core 2) (we : Bool) (addr wdata : Word)
    (hc : lines (lineOf addr)) :
    ∃ rd d' flat', d.op core we addr wdata = .ok (rd, d') ∧ d'.Quiet ∧
      Simulated lines d'.top (sys.exec (opCall core we addr wdata)).1 flat' ∧
      (sys.exec (opCall core we addr wdata)).2 = (if we then .done else .value rd) ∧
      ∀ e, d'.top.perf.stallCycles e = d.top.perf.stallCycles e := by
  set cpu := d.held core we addr wdata
  have hself : (byIndexCycle cpu).cpu core = ⟨true, we, addr, wdata⟩ := held_self
  have honly : ∀ e, ((byIndexCycle cpu).cpu e).req = true → e = core := fun e => hq.held_req
  have hserved := servedCores_eq_single (i := byIndexCycle cpu) (hq.done d.top) honly
  have hcall : (byIndexCycle cpu).callOf core = opCall core we addr wdata := by
    unfold CycleIn.callOf
    rw [hself]
    rfl
  obtain ⟨flat', h', hout⟩ := h.cycle (i := byIndexCycle cpu) hfree fun e he => by
    rw [honly e he, hself]
    exact hc
  rw [hserved, CycleIn.calls, List.map_singleton, hcall] at h' hout
  refine ⟨_, _, flat', hq.op_eq, hq.deassert _, h', ?_, fun e => ?_⟩
  · have hreply : some (sys.exec (opCall core we addr wdata)).2 =
        some (d.top.reply (byIndexCycle cpu) core) := List.singleton_injective hout
    refine (Option.some.inj hreply).trans ?_
    unfold MesiTop.reply
    rw [hself]
    rfl
  · exact step_stallCycles (fun e he => honly e he ▸ hq.done d.top) e

theorem exec_simulated (hfree : ConflictFree lines) (hq : d.Quiet)
    (h : Simulated lines d.top sys flat) (c : DriverCall) (hc : lines (lineOf c.addr)) :
    ∃ r d' flat', d.exec c = .ok (r, d') ∧ d'.Quiet ∧
      Simulated lines d'.top (sys.exec c.call).1 flat' ∧ (sys.exec c.call).2 = r ∧
      ∀ e, d'.top.perf.stallCycles e = d.top.perf.stallCycles e := by
  cases c with
  | read core addr =>
    obtain ⟨rd, d', flat', hop, hrest⟩ := op_simulated hfree hq h core false addr 0 hc
    refine ⟨.value rd, d', flat', ?_, hrest⟩
    simp only [exec, read, hop, bind, Except.bind, pure, Except.pure]
  | write core addr v =>
    obtain ⟨rd, d', flat', hop, hrest⟩ := op_simulated hfree hq h core true addr v hc
    refine ⟨.done, d', flat', ?_, hrest⟩
    simp only [exec, write, hop, Except.map, bind, Except.bind, pure, Except.pure]

/-- A program of calls, one after the other. -/
theorem run_simulated (hfree : ConflictFree lines) (hq : d.Quiet)
    (h : Simulated lines d.top sys flat) (cs : List DriverCall)
    (hcs : ∀ c ∈ cs, lines (lineOf c.addr)) :
    ∃ rs d' flat', d.run cs = .ok (rs, d') ∧
      Simulated lines d'.top
        ((MesiSystem.machine (2 ^ 2)).run sys (cs.map fun c => .call c.call)) flat' ∧
      (MesiSystem.machine (2 ^ 2)).outputs sys (cs.map fun c => .call c.call) = rs.map some ∧
      ∀ e, d'.top.perf.stallCycles e = d.top.perf.stallCycles e := by
  induction cs generalizing d sys flat with
  | nil => exact ⟨[], d, flat, rfl, h, rfl, fun _ => rfl⟩
  | cons c cs ih =>
    obtain ⟨r, d₁, flat₁, hexec, hq₁, h₁, hreply, hst₁⟩ :=
      exec_simulated hfree hq h c (hcs c List.mem_cons_self)
    obtain ⟨rs, d₂, flat₂, hrun, h₂, hout, hst₂⟩ :=
      ih hq₁ h₁ fun e he => hcs e (List.mem_cons_of_mem _ he)
    refine ⟨r :: rs, d₂, flat₂, ?_, h₂, ?_, fun e => (hst₂ e).trans (hst₁ e)⟩
    · simp only [run, hexec, hrun, bind, Except.bind, pure, Except.pure]
    · exact List.cons_eq_cons.mpr ⟨congrArg some hreply, hout⟩

/-- After reset the hardware is simulated by a fresh C++ model. -/
theorem reset_simulated (powerUp : Driver) (hfree : ConflictFree lines) :
    powerUp.reset.Quiet ∧ (∃ flat, Simulated lines powerUp.reset.top (.new (2 ^ 2)) flat) ∧
      ∀ e, powerUp.reset.top.perf.stallCycles e = 0 := by
  have hiter : MesiTop.reset^[6] powerUp.top = (MesiTop.reset^[5] powerUp.top).reset :=
    Function.iterate_succ_apply' _ _ _
  set cpu : CpuPorts 2 := fun c => { powerUp.cpu c with req := false, we := false } with hcpu
  have htop : powerUp.reset.top = ((MesiTop.reset^[5] powerUp.top).reset.step cpu).1 := by
    rw [← hiter]
    rfl
  have hidle : ∀ e, ((byIndexCycle cpu).cpu e).req = false := fun _ => rfl
  refine ⟨fun _ => rfl, ?_, fun e => ?_⟩
  · obtain ⟨flat, h, -⟩ := (Simulated.reset (MesiTop.reset^[5] powerUp.top) lines).cycle
      (i := byIndexCycle cpu) hfree fun e he => (Bool.false_ne_true he).elim
    rw [servedCores_eq_nil hidle] at h
    exact ⟨flat, htop ▸ h⟩
  · rw [htop, step_stallCycles fun e he => (Bool.false_ne_true he).elim]
    rfl

/-- **The driver is a differential test of the two models.** Reset the hardware from any
    power-up contents and run any program of driver reads and writes in which addresses of
    one set are of one line. No call throws; every call returns what the C++ model returns
    when it executes the same operations, each at the first word of its line; after the
    program every cache shows every accessed line in the model's state, the counters are the
    model's modulo `2 ^ 32`, and no core has stalled. -/
theorem run_matches_model (powerUp : Driver) (cs : List DriverCall)
    (hfree : ∀ c ∈ cs, ∀ e ∈ cs, addrIndex c.addr = addrIndex e.addr →
      lineOf c.addr = lineOf e.addr) :
    let calls := cs.map fun c => Input.call c.call
    let sys := (MesiSystem.machine (2 ^ 2)).run (.new (2 ^ 2)) calls
    ∃ rs d, powerUp.reset.run cs = .ok (rs, d) ∧
      (MesiSystem.machine (2 ^ 2)).outputs (.new (2 ^ 2)) calls = rs.map some ∧
      (∀ c ∈ cs, ∀ e, d.state e c.addr = sys.lineState e (lineOf c.addr)) ∧
      CountersAgree d.top.perf sys.bus.perf ∧ ∀ e, d.top.perf.stallCycles e = 0 := by
  intro calls sys
  let lines : Word → Prop := fun l => ∃ c ∈ cs, lineOf c.addr = l
  have hlines : ∀ c ∈ cs, lines (lineOf c.addr) := fun c hc => ⟨c, hc, rfl⟩
  have hconf : ConflictFree lines := by
    rintro a b ⟨c, hc, hca⟩ ⟨e, he, heb⟩ hab
    rw [← hca, ← heb]
    apply hfree c hc e he
    rw [((lineOf_eq_iff_fields _ _).mp hca).1, ((lineOf_eq_iff_fields _ _).mp heb).1, hab]
  obtain ⟨hquiet, ⟨flat₀, h₀⟩, hstall₀⟩ := reset_simulated powerUp hconf
  obtain ⟨rs, d, flat, hrun, h, hout, hstall⟩ := run_simulated hconf hquiet h₀ cs hlines
  refine ⟨rs, d, hrun, hout, fun c hc e => ?_, h.perf, fun e => (hstall e).trans (hstall₀ e)⟩
  exact (h.state e c.addr (hlines c hc)).symm

/-- The dirty intervention of the testbench: one core writes a line and another reads it. -/
def intervention (c e : Core 2) : List DriverCall := [.write c 0x140#32 0xEE, .read e 0x140#32]

theorem intervention_matches_model :
    let powerUp : Driver := ⟨MesiTop.blank, fun _ => ⟨false, false, 0, 0⟩⟩
    ∃ rs d, powerUp.reset.run (intervention 0 1) = .ok (rs, d) ∧ rs = [.done, .value 0xEE] ∧
      d.state 0 0x140#32 = .S ∧ d.state 1 0x140#32 = .S ∧ d.top.perf.busWbCount = 1 := by
  intro powerUp
  obtain ⟨rs, d, hrun, hout, hstate, hperf, -⟩ :=
    run_matches_model powerUp (intervention 0 1) (by decide +kernel)
  refine ⟨rs, d, hrun, ?_, ?_, ?_, ?_⟩
  · have hreplies : (MesiSystem.machine (2 ^ 2)).outputs (.new (2 ^ 2))
        ((intervention 0 1).map fun c => Input.call c.call) =
          [Reply.done, .value 0xEE].map some := by
      decide +kernel
    exact List.map_injective_iff.mpr (Option.some_injective _) (hout.symm.trans hreplies)
  · exact (hstate _ List.mem_cons_self 0).trans (by decide +kernel)
  · exact (hstate _ List.mem_cons_self 1).trans (by decide +kernel)
  · rw [hperf.busWb]
    decide +kernel

end Driver

end MesiCoherence.Sim
