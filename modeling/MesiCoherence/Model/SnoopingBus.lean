import Mathlib.Data.Fin.Basic
import Mathlib.Data.Fintype.List
import Mathlib.Logic.Function.Basic
import MesiCoherence.Model.Types

/-!
# Cache controllers on the snooping bus

`model/memory.hpp`, `model/perf.hpp`, `model/cache_controller.{hpp,cpp}` and
`model/snooping_bus.{hpp,cpp}`. A controller holds a pointer to the bus and the
bus holds all controllers, so every operation of either is a function on the
whole bus.

`std::unordered_map` is a partial function. `std::unordered_set` is the list of
its elements in the order in which a loop over it meets them. The 64-bit event
counters are natural numbers.

The only nondeterminism is the order in which `broadcast` visits the peers when
race injection is on: it is an argument, `VisitOrder`.
-/

namespace MesiCoherence

-- ════════════════════════════════════════════════════════════════════════
-- Memory and counters
-- ════════════════════════════════════════════════════════════════════════

/-- Backing main memory. -/
structure Memory where
  data : Word → Option Word
  accesses : ℕ

namespace Memory

/-- Memory with no word written yet. -/
def new : Memory := ⟨fun _ => none, 0⟩

def read (m : Memory) (addr : Word) : Word := (m.data addr).getD 0

def write (m : Memory) (addr value : Word) : Memory :=
  { m with data := Function.update m.data addr (some value) }

end Memory

/-- Performance counters of a system with `n` cores. -/
@[ext] structure PerfCounters (n : ℕ) where
  busCyclesBusy : ℕ
  busRdCount : ℕ
  busRdxCount : ℕ
  busUpgrCount : ℕ
  busWbCount : ℕ
  invCount : Fin n → ℕ
  l1Hit : Fin n → ℕ
  l1Miss : Fin n → ℕ
  stallCycles : Fin n → ℕ
  sbDrainCycles : Fin n → ℕ

namespace PerfCounters

variable {n : ℕ}

/-- `PerfCounters::resize` on default-initialised counters. -/
def new (n : ℕ) : PerfCounters n :=
  ⟨0, 0, 0, 0, 0, fun _ => 0, fun _ => 0, fun _ => 0, fun _ => 0, fun _ => 0⟩

/-- The sum of the four transaction counters. -/
def totalBusTxns (p : PerfCounters n) : ℕ :=
  p.busRdCount + p.busRdxCount + p.busUpgrCount + p.busWbCount

/-- Increment of one entry of a per-core counter. -/
def bump (v : Fin n → ℕ) (i : Fin n) : Fin n → ℕ := Function.update v i (v i + 1)

end PerfCounters

-- ════════════════════════════════════════════════════════════════════════
-- One controller
-- ════════════════════════════════════════════════════════════════════════

/-- One L1 controller: MESI state per line, data per word address. -/
structure CacheController where
  state : Word → Option State
  data : Word → Option Word

namespace CacheController

/-- A controller that holds nothing. -/
def new : CacheController := ⟨fun _ => none, fun _ => none⟩

def lineState (c : CacheController) (line : Word) : State := (c.state line).getD .I

def hasWord (c : CacheController) (addr : Word) : Bool := (c.data addr).isSome

def peek (c : CacheController) (addr : Word) : Word := (c.data addr).getD 0

def setState (c : CacheController) (line : Word) (s : State) : CacheController :=
  if s = .I then { c with state := Function.update c.state line none }
  else { c with state := Function.update c.state line (some s) }

def putWord (c : CacheController) (addr v : Word) : CacheController :=
  { c with data := Function.update c.data addr (some v) }

/-- `data_.erase(addr)`. -/
def eraseWord (c : CacheController) (addr : Word) : CacheController :=
  { c with data := Function.update c.data addr none }

end CacheController

-- ════════════════════════════════════════════════════════════════════════
-- The bus
-- ════════════════════════════════════════════════════════════════════════

/-- The snooping bus with its controllers, memory, counters and word registry. -/
structure SnoopingBus (n : ℕ) where
  controllers : Fin n → CacheController
  mem : Memory
  perf : PerfCounters n
  lineWords : Word → List Word
  arbPtr : ℕ

/-- The peers of an issuer, in the order in which `broadcast` collects them. -/
def peers {n : ℕ} (issuer : Fin n) : List (Fin n) :=
  (List.finRange n).filter (fun i => i ≠ issuer)

/-- An order in which a broadcast of `issuer` may visit its peers: what `std::shuffle`
    makes of the peer list under race injection. -/
structure VisitOrder {n : ℕ} (issuer : Fin n) where
  order : List (Fin n)
  perm : order.Perm (peers issuer)

/-- Without race injection the peers are visited by index. -/
def VisitOrder.byIndex {n : ℕ} (issuer : Fin n) : VisitOrder issuer := ⟨peers issuer, .refl _⟩

namespace SnoopingBus

variable {n : ℕ}

/-- A fresh bus over a given memory. -/
def newOver (n : ℕ) (mem : Memory) : SnoopingBus n :=
  ⟨fun _ => .new, mem, .new n, fun _ => [], 0⟩

/-- The state of a line in one controller. -/
def lineState (b : SnoopingBus n) (i : Fin n) (line : Word) : State :=
  (b.controllers i).lineState line

/-- Apply a change to one controller. -/
def modify (b : SnoopingBus n) (i : Fin n) (f : CacheController → CacheController) :
    SnoopingBus n :=
  { b with controllers := Function.update b.controllers i (f (b.controllers i)) }

def registerAddr (b : SnoopingBus n) (addr : Word) : SnoopingBus n :=
  { b with lineWords :=
      Function.update b.lineWords (lineOf addr) ((b.lineWords (lineOf addr)).insert addr) }

def wordsInLine (b : SnoopingBus n) (line : Word) : List Word := b.lineWords line

def advanceArb (b : SnoopingBus n) : SnoopingBus n := { b with arbPtr := (b.arbPtr + 1) % n }

/-- Count a transaction and advance arbitration. -/
def account (b : SnoopingBus n) (txn : BusTxn) : SnoopingBus n :=
  let p := { b.perf with busCyclesBusy := b.perf.busCyclesBusy + 1 }
  let p := match txn with
    | .busRd => { p with busRdCount := p.busRdCount + 1 }
    | .busRdX => { p with busRdxCount := p.busRdxCount + 1 }
    | .busUpgr => { p with busUpgrCount := p.busUpgrCount + 1 }
    | .busWB => { p with busWbCount := p.busWbCount + 1 }
    | .none => p
  { b with perf := p }.advanceArb

def setState (b : SnoopingBus n) (i : Fin n) (line : Word) (s : State) : SnoopingBus n :=
  b.modify i (·.setState line s)

def putWord (b : SnoopingBus n) (i : Fin n) (addr v : Word) : SnoopingBus n :=
  b.modify i (·.putWord addr v)

/-- Erase every known word of a line from one controller. -/
def dropLineWords (b : SnoopingBus n) (i : Fin n) (line : Word) : SnoopingBus n :=
  (b.wordsInLine line).foldl (fun b a => b.modify i (·.eraseWord a)) b

/-- Pull every known word of a line from memory into one controller. -/
def fillLine (b : SnoopingBus n) (i : Fin n) (line : Word) : SnoopingBus n :=
  (b.wordsInLine line).foldl (fun b a => b.putWord i a (b.mem.read a)) b

/-- Write every known word of a line that the controller holds back to memory. -/
def writebackLine (b : SnoopingBus n) (i : Fin n) (line : Word) : SnoopingBus n :=
  let b := (b.wordsInLine line).foldl
    (fun b a => if (b.controllers i).hasWord a
      then { b with mem := b.mem.write a ((b.controllers i).peek a) } else b) b
  { b with mem := { b.mem with accesses := b.mem.accesses + 1 } }

/-- `perf.l1_hit[id_]++`. -/
def countHit (b : SnoopingBus n) (i : Fin n) : SnoopingBus n :=
  { b with perf := { b.perf with l1Hit := PerfCounters.bump b.perf.l1Hit i } }

/-- `perf.l1_miss[id_]++`. -/
def countMiss (b : SnoopingBus n) (i : Fin n) : SnoopingBus n :=
  { b with perf := { b.perf with l1Miss := PerfCounters.bump b.perf.l1Miss i } }

/-- `perf.stall_cycles[id_]++`. -/
def countStall (b : SnoopingBus n) (i : Fin n) : SnoopingBus n :=
  { b with perf := { b.perf with stallCycles := PerfCounters.bump b.perf.stallCycles i } }

/-- `perf.inv_count[id_]++`. -/
def countInv (b : SnoopingBus n) (i : Fin n) : SnoopingBus n :=
  { b with perf := { b.perf with invCount := PerfCounters.bump b.perf.invCount i } }

/-- Controller `i` reacts to a transaction issued by another controller. -/
def snoop (b : SnoopingBus n) (i : Fin n) (txn : BusTxn) (addr : Word) :
    SnoopingBus n × SnoopResult :=
  let line := lineOf addr
  let st := b.lineState i line
  if st = .I then (b, {})
  else match txn with
    | .busRd =>
      if st = .M then
        (((b.writebackLine i line).account .busWB).setState i line .S, ⟨true, true⟩)
      else if st = .E then (b.setState i line .S, ⟨true, false⟩)
      else (b, ⟨true, false⟩)
    | .busRdX =>
      let b' := if st = .M then (b.writebackLine i line).account .busWB else b
      (((b'.setState i line .I).dropLineWords i line).countInv i, ⟨true, st = .M⟩)
    | .busUpgr =>
      (((b.setState i line .I).dropLineWords i line).countInv i, ⟨true, false⟩)
    | _ => (b, ⟨true, false⟩)

/-- Let the controllers of a list react one after the other, folding their answers. -/
def snoopAll (txn : BusTxn) (addr : Word) :
    List (Fin n) → SnoopingBus n → SnoopResult → SnoopingBus n × SnoopResult
  | [], b, agg => (b, agg)
  | i :: is, b, agg =>
    let r := b.snoop i txn addr
    snoopAll txn addr is r.1 (agg.or r.2)

/-- Broadcast a transaction to all caches except the issuer. -/
def broadcast (b : SnoopingBus n) (txn : BusTxn) (addr : Word) {issuer : Fin n}
    (visit : VisitOrder issuer) : SnoopingBus n × SnoopResult :=
  snoopAll txn addr visit.order b {}

-- ════════════════════════════════════════════════════════════════════════
-- Processor side
-- ════════════════════════════════════════════════════════════════════════

def processorRead (b : SnoopingBus n) {i : Fin n} (visit : VisitOrder i) (addr : Word) :
    SnoopingBus n × Word :=
  let b := b.registerAddr addr
  let line := lineOf addr
  if b.lineState i line ≠ .I then
    -- read hit: M/E/S all serve locally
    let b := b.countHit i
    (b, (b.controllers i).peek addr)
  else
    let b := (b.countMiss i).countStall i
    let sr := b.broadcast .busRd addr visit
    let b := sr.1.account .busRd
    let b := b.fillLine i line
    let b := b.setState i line (if sr.2.hadCopy then .S else .E)
    (b, (b.controllers i).peek addr)

/-- Bring the line of `addr` into M and return the current word. -/
def acquireExclusive (b : SnoopingBus n) {i : Fin n} (visit : VisitOrder i) (addr : Word) :
    SnoopingBus n × Word :=
  let b := b.registerAddr addr
  let line := lineOf addr
  let b := match b.lineState i line with
    | .M => b.countHit i
    | .E => (b.countHit i).setState i line .M
    | .S =>
      let b := (b.countHit i).countStall i
      let b := (b.broadcast .busUpgr addr visit).1.account .busUpgr
      b.setState i line .M
    | .I =>
      let b := (b.countMiss i).countStall i
      let b := (b.broadcast .busRdX addr visit).1.account .busRdX
      (b.fillLine i line).setState i line .M
  (b, (b.controllers i).peek addr)

def processorWrite (b : SnoopingBus n) {i : Fin n} (visit : VisitOrder i) (addr value : Word) :
    SnoopingBus n :=
  (b.acquireExclusive visit addr).1.putWord i addr value

end SnoopingBus

end MesiCoherence
