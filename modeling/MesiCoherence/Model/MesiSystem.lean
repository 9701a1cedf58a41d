import Mathlib.Data.Int.Basic
import MesiCoherence.Lib.AtomicMemory
import MesiCoherence.Model.SnoopingBus

/-!
# The system facade

`model/mesi_system.hpp` and `model/trace.hpp`: the bus-serialised operations
read, write, cas and fetch_and_add with their trace. The mutex makes every call
one atomic step, so a concurrent execution is a list of calls.
-/

namespace MesiCoherence

inductive OpType where
  | read
  | write
  deriving DecidableEq, Repr

structure TraceEvent where
  coreId : ℤ
  op : OpType
  addr : Word
  value : Word
  timestamp : ℕ
  programIdx : ℕ
  deriving DecidableEq, Repr

structure CasResult where
  oldVal : Word
  success : Bool
  deriving DecidableEq, Repr

/-- The system: the bus and the recording of operations, oldest event first. -/
structure MesiSystem (n : ℕ) where
  bus : SnoopingBus n
  timestamp : ℕ
  tracing : Bool
  trace : List TraceEvent
  progIdx : Fin n → ℕ

/-- `MesiSystem::checked_core_count`. -/
def checkedCoreCount (n : ℤ) : Except String ℕ :=
  if n ≤ 0 then .error "MesiSystem needs at least one core" else .ok n.toNat

/-- `MesiSystem::validate_core`: a valid id is the index of a core. -/
def validateCore (n : ℕ) (core : ℤ) : Except String (Fin n) :=
  if h : core < 0 ∨ core ≥ n then .error "core id is outside the MESI system"
  else .ok ⟨core.toNat, by omega⟩

namespace MesiSystem

variable {n : ℕ}

/-- A system of `n` cores that has executed nothing, over a given memory. -/
def newOver (n : ℕ) (mem : Memory) : MesiSystem n :=
  ⟨.newOver n mem, 0, false, [], fun _ => 0⟩

/-- A fresh system with zeroed memory. -/
def new (n : ℕ) : MesiSystem n := newOver n .new

/-- The constructor with its check of the core count. -/
def create (nCores : ℤ) : Except String (Σ n, MesiSystem n) := do
  let n ← checkedCoreCount nCores
  pure ⟨n, new n⟩

def enableTracing (s : MesiSystem n) (on : Bool) : MesiSystem n := { s with tracing := on }

def clearTrace (s : MesiSystem n) : MesiSystem n :=
  { s with trace := [], timestamp := 0, progIdx := fun _ => 0 }

def now (s : MesiSystem n) : ℕ := s.timestamp

def log (s : MesiSystem n) (core : Fin n) (op : OpType) (addr value : Word) : MesiSystem n :=
  if s.tracing = false then { s with timestamp := s.timestamp + 1 }
  else { s with
    trace := s.trace ++ [⟨core.val, op, addr, value, s.timestamp, s.progIdx core⟩]
    timestamp := s.timestamp + 1
    progIdx := Function.update s.progIdx core (s.progIdx core + 1) }

def read (s : MesiSystem n) {core : Fin n} (visit : VisitOrder core) (addr : Word) :
    MesiSystem n × Word :=
  let r := s.bus.processorRead visit addr
  ({ s with bus := r.1 }.log core .read addr r.2, r.2)

def write (s : MesiSystem n) {core : Fin n} (visit : VisitOrder core) (addr value : Word) :
    MesiSystem n :=
  { s with bus := s.bus.processorWrite visit addr value }.log core .write addr value

def cas (s : MesiSystem n) {core : Fin n} (visit : VisitOrder core)
    (addr expected newVal : Word) : MesiSystem n × CasResult :=
  let r := s.bus.acquireExclusive visit addr
  let s := { s with bus := r.1 }.log core .read addr r.2
  let ok := decide (r.2 = expected)
  let s := if ok then
      { s with bus := s.bus.putWord core addr newVal }.log core .write addr newVal
    else s
  (s, ⟨r.2, ok⟩)

def fetchAndAdd (s : MesiSystem n) {core : Fin n} (visit : VisitOrder core)
    (addr delta : Word) : MesiSystem n × Word :=
  let r := s.bus.acquireExclusive visit addr
  let s := { s with bus := r.1 }.log core .read addr r.2
  let s := { s with bus := s.bus.putWord core addr (r.2 + delta) }.log core .write addr (r.2 + delta)
  (s, r.2)

/-- A fence of the base model only checks the core id. -/
def fence (_ : MesiSystem n) (core : ℤ) : Except String Unit := do
  let _ ← validateCore n core
  pure ()

/-- The state of a line in the cache of one core. -/
def lineState (s : MesiSystem n) (i : Fin n) (line : Word) : State := s.bus.lineState i line

end MesiSystem

/-- One call of a memory operation by a valid core, with the order in which the
    broadcast it may cause visits the peers. -/
structure Call (n : ℕ) where
  core : Fin n
  access : Access Word Word
  visit : VisitOrder core

/-- A call without race injection. -/
def Call.plain {n : ℕ} (core : Fin n) (access : Access Word Word) : Call n :=
  ⟨core, access, .byIndex core⟩

/-- Everything a client can do to the system between two memory operations as well. -/
inductive Input (n : ℕ) where
  | call (c : Call n)
  | registerAddr (addr : Word)
  | enableTracing (on : Bool)
  | clearTrace

namespace MesiSystem

variable {n : ℕ}

/-- Execute one call. -/
def exec (s : MesiSystem n) (c : Call n) : MesiSystem n × Reply Word :=
  match c.access with
  | .read addr => let r := s.read c.visit addr; (r.1, .value r.2)
  | .write addr value => (s.write c.visit addr value, .done)
  | .cas addr expected newVal =>
    let r := s.cas c.visit addr expected newVal
    (r.1, .swap r.2.oldVal r.2.success)
  | .fetchAndAdd addr delta => let r := s.fetchAndAdd c.visit addr delta; (r.1, .value r.2)

/-- Process one client input; only calls return something. -/
def step (s : MesiSystem n) : Input n → MesiSystem n × Option (Reply Word)
  | .call c => ((s.exec c).1, some (s.exec c).2)
  | .registerAddr addr => ({ s with bus := s.bus.registerAddr addr }, none)
  | .enableTracing on => (s.enableTracing on, none)
  | .clearTrace => (s.clearTrace, none)

/-- The coherent memory system as a machine. -/
def machine (n : ℕ) : Machine (MesiSystem n) (Input n) (Option (Reply Word)) := ⟨step⟩

end MesiSystem

/-- The specification: the same inputs on one flat memory. -/
def flatMachine (n : ℕ) : Machine (Word → Word) (Input n) (Option (Reply Word)) where
  step m
    | .call c => ((c.access.exec m).1, some (c.access.exec m).2)
    | _ => (m, none)

end MesiCoherence
