import Mathlib.Logic.Function.Basic
import MesiCoherence.Model.Types

/-!
# One L1 cache in hardware

`rtl/mesi_pkg.sv`, `rtl/mesi_fsm.sv`, `rtl/cache_array.sv` and `rtl/l1_cache.sv`.
Combinational outputs are functions of the array and the input ports; the clock edge
is `L1.next`. The enums of the package have the members of the C++ ones, so the types
are shared, with `BUS_IDLE` as `BusTxn.none`.
-/

namespace MesiCoherence.Rtl

/-- The set index of an address. -/
def addrIndex (a : Word) : BitVec 6 := a.extractLsb' 6 6

/-- The tag of an address. -/
def addrTag (a : Word) : BitVec 20 := a.extractLsb' 12 20

/-- A processor request as the state machine sees it. -/
inductive PrReq where
  | none
  | rd
  | wr
  deriving DecidableEq, Repr

/-- Processor side: the bus transaction a request needs. -/
def reqTxn (curState : State) : PrReq → BusTxn
  | .rd => if curState = .I then .busRd else .none
  | .wr => match curState with
    | .I => .busRdX
    | .S => .busUpgr
    | _ => .none
  | .none => .none

def needsBus (curState : State) (prReq : PrReq) : Bool := reqTxn curState prReq ≠ .none

/-- Processor side: the state after the operation completes. -/
def prNextState (curState : State) (prReq : PrReq) (sharedIn : Bool) : State :=
  match prReq with
  | .rd => if curState = .I then (if sharedIn then .S else .E) else curState
  | .wr => .M
  | .none => curState

/-- Snoop side: the state after another cache's transaction. -/
def snoopNextState (curState : State) : BusTxn → State
  | .busRd => if curState = .M then .S else if curState = .E then .S else curState
  | .busRdX => if curState ≠ .I then .I else curState
  | .busUpgr => if curState ≠ .I then .I else curState
  | _ => curState

/-- The direct-mapped tag, state and data arrays. -/
structure CacheArray where
  tagArr : BitVec 6 → BitVec 20
  stateArr : BitVec 6 → State
  dataArr : BitVec 6 → Word

namespace CacheArray

/-- The combinational lookup. -/
def lkState (arr : CacheArray) (a : Word) : State :=
  if arr.tagArr (addrIndex a) = addrTag a then arr.stateArr (addrIndex a) else .I

/-- The payload read port. -/
def rdData (arr : CacheArray) (a : Word) : Word := arr.dataArr (addrIndex a)

/-- Reset clears the states only. -/
def reset (arr : CacheArray) : CacheArray := { arr with stateArr := fun _ => .I }

/-- The synchronous update of an enabled write port. -/
def write (arr : CacheArray) (wrAddr : Word) (wrState : State) (wrDataEn : Bool)
    (wrData : Word) : CacheArray where
  tagArr := Function.update arr.tagArr (addrIndex wrAddr) (addrTag wrAddr)
  stateArr := Function.update arr.stateArr (addrIndex wrAddr) wrState
  dataArr := if wrDataEn then Function.update arr.dataArr (addrIndex wrAddr) wrData
    else arr.dataArr

end CacheArray

/-- The CPU port of one core. -/
structure CpuIn where
  req : Bool
  we : Bool
  addr : Word
  wdata : Word
  deriving DecidableEq, Repr

/-- The bus as the caches see it in one cycle. -/
structure BusView where
  active : Bool
  txn : BusTxn
  addr : Word
  deriving DecidableEq, Repr

def CpuIn.pr (cpu : CpuIn) : PrReq :=
  if !cpu.req then .none else if cpu.we then .wr else .rd

namespace L1

variable (arr : CacheArray) (cpu : CpuIn) (grant : Bool) (bus : BusView)

def cpuState : State := arr.lkState cpu.addr

def procReqTxn : BusTxn := reqTxn (cpuState arr cpu) cpu.pr

def procNeedsBus : Bool := needsBus (cpuState arr cpu) cpu.pr

def reqValid : Bool := cpu.req && procNeedsBus arr cpu

def snpState : State := arr.lkState bus.addr

def snoopTxnIn : BusTxn := if bus.active && !grant then bus.txn else .none

def snoopNext : State := snoopNextState (snpState arr bus) (snoopTxnIn grant bus)

def snoopHadCopy : Bool := bus.active && !grant && (snpState arr bus ≠ .I)

def snoopDirty : Bool := snoopHadCopy arr grant bus && (snpState arr bus = .M)

def snoopData : Word := arr.rdData bus.addr

/-- Does the snoop need the write port? -/
def snoopWrite : Bool := (bus.active && !grant) && (snoopNext arr grant bus ≠ snpState arr bus)

def localReadDone : Bool := cpu.req && !procNeedsBus arr cpu && !cpu.we

def localWriteDone : Bool :=
  cpu.req && !procNeedsBus arr cpu && cpu.we && !snoopWrite arr grant bus

def cpuDone : Bool := grant || localReadDone arr cpu || localWriteDone arr cpu grant bus

def stall : Bool := cpu.req && !cpuDone arr cpu grant bus

def cpuRdata (supplyData : Word) : Word :=
  if grant && !cpu.we then supplyData
  else if localReadDone arr cpu then arr.rdData cpu.addr
  else 0

/-- The single array write of the cycle: owner commit, else snoop, else local write. -/
def next (sharedIn : Bool) (supplyData : Word) : CacheArray :=
  if grant then
    arr.write cpu.addr (prNextState (cpuState arr cpu) cpu.pr sharedIn) true
      (if cpu.we then cpu.wdata else supplyData)
  else if snoopWrite arr grant bus then arr.write bus.addr (snoopNext arr grant bus) false cpu.wdata
  else if localWriteDone arr cpu grant bus then arr.write cpu.addr .M true cpu.wdata
  else arr

def evHit : Bool := cpuDone arr cpu grant bus && (cpuState arr cpu ≠ .I)

def evMiss : Bool := cpuDone arr cpu grant bus && (cpuState arr cpu = .I)

def evInv : Bool := snoopWrite arr grant bus && (snoopNext arr grant bus = .I)

end L1

end MesiCoherence.Rtl
