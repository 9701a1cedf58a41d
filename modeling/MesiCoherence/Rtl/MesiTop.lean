import Mathlib.Data.List.FinRange
import MesiCoherence.Lib.Machine
import MesiCoherence.Rtl.L1Cache

/-!
# The hardware system

`rtl/bus_interface.sv`, `rtl/snooping_bus.sv`, `rtl/memory_controller.sv`,
`rtl/perf_counters.sv` and `rtl/mesi_top.sv`. `N_CORES` is a power of two, so the
cores are `Fin (2 ^ pw)` and the arbiter's pointer arithmetic wraps as it does in
hardware; the package has `pw = 2`. One machine step is one clock cycle.
-/

namespace MesiCoherence.Rtl

/-- The cores of a system with `N_CORES = 2 ^ pw`. -/
abbrev Core (pw : ℕ) := Fin (2 ^ pw)

/-- The 32-bit counters. -/
structure PerfRegs (pw : ℕ) where
  busRdCount : Word
  busRdxCount : Word
  busUpgrCount : Word
  busWbCount : Word
  busBusyCycles : Word
  l1Hit : Core pw → Word
  l1Miss : Core pw → Word
  invCount : Core pw → Word
  stallCycles : Core pw → Word

def PerfRegs.zero (pw : ℕ) : PerfRegs pw :=
  ⟨0, 0, 0, 0, 0, fun _ => 0, fun _ => 0, fun _ => 0, fun _ => 0⟩

/-- The registers of the system. -/
structure MesiTop (pw : ℕ) where
  l1 : Core pw → CacheArray
  ptr : Core pw
  mem : BitVec 10 → Word
  perf : PerfRegs pw

/-- The CPU ports of all cores. -/
abbrev CpuPorts (pw : ℕ) := Core pw → CpuIn

/-- The CPU-side outputs of one cycle. -/
structure CpuOuts (pw : ℕ) where
  done : Core pw → Bool
  rdata : Core pw → Word
  stall : Core pw → Bool

variable {pw : ℕ}

/-- The round-robin arbiter: the first requester from the pointer on. -/
def arbitrate (ptr : Core pw) (reqValid : Core pw → Bool) : Option (Core pw) :=
  (List.finRange (2 ^ pw)).foldl
    (fun winner k => if winner.isNone && reqValid (ptr + k) then some (ptr + k) else winner) none

/-- The index of a line in main memory. -/
def midx (a : Word) : BitVec 10 := a.extractLsb' 6 10

namespace MesiTop

/-- Reset of any power-up contents: tags and payloads of the caches are kept. -/
def reset (s : MesiTop pw) : MesiTop pw :=
  ⟨fun c => (s.l1 c).reset, 0, fun _ => 0, .zero pw⟩

variable (s : MesiTop pw) (cpu : CpuPorts pw)

/-- The core that owns the bus this cycle. -/
def winner : Option (Core pw) := arbitrate s.ptr fun c => L1.reqValid (s.l1 c) (cpu c)

def grant (c : Core pw) : Bool := s.winner cpu = some c

/-- The broadcast transaction. -/
def bus : BusView :=
  match s.winner cpu with
  | some w => ⟨true, L1.procReqTxn (s.l1 w) (cpu w), (cpu w).addr⟩
  | none => ⟨false, .none, 0⟩

def snoopHadCopy (c : Core pw) : Bool := L1.snoopHadCopy (s.l1 c) (s.grant cpu c) (s.bus cpu)

def snoopDirty (c : Core pw) : Bool := L1.snoopDirty (s.l1 c) (s.grant cpu c) (s.bus cpu)

def aggShared : Bool :=
  (List.finRange (2 ^ pw)).foldl (fun r c => if s.snoopHadCopy cpu c then true else r) false

/-- The data of the dirty cache, if any; the last one in index order wins. -/
def aggDirty : Option Word :=
  (List.finRange (2 ^ pw)).foldl
    (fun r c => if s.snoopDirty cpu c then some (L1.snoopData (s.l1 c) (s.bus cpu)) else r) none

def supplyData : Word := (s.aggDirty cpu).getD (s.mem (midx (s.bus cpu).addr))

def isFetch : Bool :=
  (s.bus cpu).active && ((s.bus cpu).txn = .busRd || (s.bus cpu).txn = .busRdX)

def memWrEn : Bool := s.isFetch cpu && (s.aggDirty cpu).isSome

def memNext : BitVec 10 → Word :=
  if s.memWrEn cpu then Function.update s.mem (midx (s.bus cpu).addr) ((s.aggDirty cpu).getD 0)
  else s.mem

def done (c : Core pw) : Bool := L1.cpuDone (s.l1 c) (cpu c) (s.grant cpu c) (s.bus cpu)

def stall (c : Core pw) : Bool := L1.stall (s.l1 c) (cpu c) (s.grant cpu c) (s.bus cpu)

def rdata (c : Core pw) : Word :=
  L1.cpuRdata (s.l1 c) (cpu c) (s.grant cpu c) (s.supplyData cpu)

def outs : CpuOuts pw := ⟨s.done cpu, s.rdata cpu, s.stall cpu⟩

/-- A counter that adds one when its event is asserted. -/
def count (v : Word) (ev : Bool) : Word := if ev then v + 1 else v

def perfNext : PerfRegs pw where
  busRdCount := count s.perf.busRdCount ((s.bus cpu).active && (s.bus cpu).txn = .busRd)
  busRdxCount := count s.perf.busRdxCount ((s.bus cpu).active && (s.bus cpu).txn = .busRdX)
  busUpgrCount := count s.perf.busUpgrCount ((s.bus cpu).active && (s.bus cpu).txn = .busUpgr)
  busWbCount := count s.perf.busWbCount (s.memWrEn cpu)
  busBusyCycles := count s.perf.busBusyCycles (s.bus cpu).active
  l1Hit c := count (s.perf.l1Hit c) (L1.evHit (s.l1 c) (cpu c) (s.grant cpu c) (s.bus cpu))
  l1Miss c := count (s.perf.l1Miss c) (L1.evMiss (s.l1 c) (cpu c) (s.grant cpu c) (s.bus cpu))
  invCount c := count (s.perf.invCount c) (L1.evInv (s.l1 c) (s.grant cpu c) (s.bus cpu))
  stallCycles c := count (s.perf.stallCycles c) (s.stall cpu c)

/-- One clock cycle. -/
def step : MesiTop pw × CpuOuts pw :=
  (⟨fun c => L1.next (s.l1 c) (cpu c) (s.grant cpu c) (s.bus cpu) (s.aggShared cpu)
      (s.supplyData cpu),
    match s.winner cpu with
    | some w => w + 1
    | none => s.ptr,
    s.memNext cpu, s.perfNext cpu⟩, s.outs cpu)

/-- The system as a machine. -/
def machine (pw : ℕ) : Machine (MesiTop pw) (CpuPorts pw) (CpuOuts pw) := ⟨step⟩

end MesiTop

end MesiCoherence.Rtl
