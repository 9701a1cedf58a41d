import Mathlib.Data.PNat.Defs
import MesiCoherence.Model.MesiSystem

/-!
# Store buffers and the TSO machine

`model/tso.hpp`: a per-core buffer between the CPU and the coherent memory. The
methods of `StoreBuffer` are given by the pieces that touch coherent memory at
most once (`pushBack`, `load`, `drainOne`, one round of the `mfence` loop), and
`TsoSystem.step` interleaves these pieces over any number of cores: a `store`
that overflows, a `drain_all` and an `mfence` leave their core in a phase from
which `resume` continues.

The random generator is the sequence of its outputs.
-/

namespace MesiCoherence

inductive DrainMode where
  | fifo
  | relaxed
  deriving DecidableEq, Repr

structure SBEntry where
  addr : Word
  val : Word
  deriving DecidableEq, Repr

/-- One core's store buffer, oldest entry first. -/
structure StoreBuffer where
  depth : ℕ+
  mode : DrainMode
  rng : ℕ → ℕ
  buf : List SBEntry
  hits : ℕ
  drained : ℕ

namespace StoreBuffer

variable {n : ℕ}

/-- An empty buffer. -/
def new (depth : ℕ+) (mode : DrainMode) (rng : ℕ → ℕ) : StoreBuffer :=
  ⟨depth, mode, rng, [], 0, 0⟩

/-- The constructor with its checks of core and depth. -/
def create (n : ℕ) (core depth : ℤ) (mode : DrainMode) (rng : ℕ → ℕ) :
    Except String (Fin n × StoreBuffer) :=
  if hc : core < 0 ∨ core ≥ n then .error "store-buffer core id is invalid"
  else if hd : depth ≤ 0 then .error "store-buffer depth must be positive"
  else .ok (⟨core.toNat, by omega⟩, new ⟨depth.toNat, by omega⟩ mode rng)

/-- `buf_.push_back`, the first half of `store`. -/
def pushBack (sb : StoreBuffer) (e : SBEntry) : StoreBuffer := { sb with buf := sb.buf ++ [e] }

/-- The overflow test of `store`. The source casts the size to `int`, which is the size itself
    below 2^31 entries. -/
def overflows (sb : StoreBuffer) : Bool := sb.buf.length > sb.depth

/-- The newest-first search of `load`. -/
def search (sb : StoreBuffer) (addr : Word) : Option Word :=
  (sb.buf.reverse.find? (fun e => e.addr = addr)).map SBEntry.val

def load (sb : StoreBuffer) (sys : MesiSystem n) {core : Fin n} (visit : VisitOrder core)
    (addr : Word) : StoreBuffer × MesiSystem n × Word :=
  match sb.search addr with
  | some v => ({ sb with hits := sb.hits + 1 }, sys, v)
  | none => (sb, sys.read visit addr)

/-- Does `drain_one` draw a random index? -/
def draws (sb : StoreBuffer) : Bool := sb.mode = .relaxed ∧ sb.buf.length > 1

/-- The index that `drain_one` removes. -/
def drainIndex (sb : StoreBuffer) : ℕ :=
  if sb.draws then sb.rng 0 % sb.buf.length else 0

/-- The buffer after `drain_one` removed its entry. -/
def removeDrained (sb : StoreBuffer) : StoreBuffer :=
  { sb with
    rng := if sb.draws then fun k => sb.rng (k + 1) else sb.rng
    buf := sb.buf.eraseIdx sb.drainIndex
    drained := sb.drained + 1 }

/-- `drain_one`, with the entry it wrote. -/
def drainOne (sb : StoreBuffer) (sys : MesiSystem n) {core : Fin n} (visit : VisitOrder core) :
    StoreBuffer × MesiSystem n × Option SBEntry :=
  match sb.buf[sb.drainIndex]? with
  | none => (sb, sys, none)
  | some e => (sb.removeDrained, sys.write visit e.addr e.val, some e)

/-- `store` as one call, with the entry that an overflow wrote. -/
def store (sb : StoreBuffer) (sys : MesiSystem n) {core : Fin n} (visit : VisitOrder core)
    (addr val : Word) : StoreBuffer × MesiSystem n × Option SBEntry :=
  let sb := sb.pushBack ⟨addr, val⟩
  if sb.overflows then sb.drainOne sys visit else (sb, sys, none)

/-- One round of the `mfence` loop, with the entry it wrote. -/
def fenceOne (sb : StoreBuffer) (sys : MesiSystem n) {core : Fin n} (visit : VisitOrder core) :
    StoreBuffer × MesiSystem n × Option SBEntry :=
  match sb.buf with
  | [] => (sb, sys, none)
  | e :: rest =>
    let sys := sys.write visit e.addr e.val
    let perf := { sys.bus.perf with
      sbDrainCycles := PerfCounters.bump sys.bus.perf.sbDrainCycles core }
    ({ sb with buf := rest, drained := sb.drained + 1 },
      { sys with bus := { sys.bus with perf := perf } }, some e)

end StoreBuffer

/-- Where a core is between two coherent writes. -/
inductive Phase where
  | idle
  /-- inside `store`, after the push, about to drain the overflow -/
  | storing
  /-- inside the `drain_all` loop -/
  | draining
  /-- inside the `mfence` loop -/
  | fencing
  deriving DecidableEq, Repr

/-- Cores with their store buffers over one coherent memory system. -/
structure TsoSystem (n : ℕ) where
  sys : MesiSystem n
  sb : Fin n → StoreBuffer
  phase : Fin n → Phase

/-- One step of some core. Calls are accepted by an idle core only. -/
inductive TsoAction (n : ℕ) where
  | store (c : Fin n) (addr val : Word)
  | load (c : Fin n) (visit : VisitOrder c) (addr : Word)
  | drainOne (c : Fin n) (visit : VisitOrder c)
  | drainAll (c : Fin n)
  | mfence (c : Fin n)
  | resume (c : Fin n) (visit : VisitOrder c)
  /-- a call on the memory system that uses no buffer -/
  | direct (call : Call n)

/-- What a step shows. -/
inductive TsoEvent (n : ℕ) where
  /-- a store of the program entered the buffer -/
  | stored (c : Fin n) (e : SBEntry)
  | loaded (c : Fin n) (addr val : Word)
  /-- the buffer wrote an entry to coherent memory -/
  | written (c : Fin n) (e : SBEntry)
  /-- an `mfence` returned -/
  | fenced (c : Fin n)
  /-- an unbuffered call, with the coherent write it made -/
  | direct (c : Fin n) (w : Option SBEntry)
  deriving DecidableEq

/-- A load or a store as a program asks for it. -/
inductive ProgramOp where
  | store (e : SBEntry)
  | load (addr : Word)
  deriving DecidableEq, Repr

def ProgramOp.entry? : ProgramOp → Option SBEntry
  | .store e => some e
  | .load _ => none

/-- The coherent write that an access with a given reply has made. -/
def storedBy : Access Word Word → Reply Word → Option SBEntry
  | .write a v, _ => some ⟨a, v⟩
  | .cas a _ v, .swap _ true => some ⟨a, v⟩
  | .fetchAndAdd a d, .value old => some ⟨a, old + d⟩
  | _, _ => none

namespace TsoSystem

variable {n : ℕ}

/-- All cores idle over a fresh system. -/
def new (sb : Fin n → StoreBuffer) : TsoSystem n := ⟨.new n, sb, fun _ => .idle⟩

/-- Put the outcome of a drain of core `c` in place. -/
def drainWith (s : TsoSystem n) (c : Fin n) (next : Phase)
    (r : StoreBuffer × MesiSystem n × Option SBEntry) : TsoSystem n × Option (TsoEvent n) :=
  (⟨r.2.1, Function.update s.sb c r.1, Function.update s.phase c next⟩,
    r.2.2.map (TsoEvent.written c))

/-- One step; an action that its core cannot take leaves everything unchanged. -/
def step (s : TsoSystem n) : TsoAction n → TsoSystem n × Option (TsoEvent n)
  | .store c addr val =>
    if s.phase c = .idle then
      let sb := (s.sb c).pushBack ⟨addr, val⟩
      (⟨s.sys, Function.update s.sb c sb,
        Function.update s.phase c (if sb.overflows then .storing else .idle)⟩,
        some (.stored c ⟨addr, val⟩))
    else (s, none)
  | .load c visit addr =>
    if s.phase c = .idle then
      let r := (s.sb c).load s.sys visit addr
      ({ s with sys := r.2.1, sb := Function.update s.sb c r.1 }, some (.loaded c addr r.2.2))
    else (s, none)
  | .drainOne c visit =>
    if s.phase c = .idle then s.drainWith c .idle ((s.sb c).drainOne s.sys visit) else (s, none)
  | .drainAll c =>
    if s.phase c = .idle then
      ({ s with phase := Function.update s.phase c .draining }, none)
    else (s, none)
  | .mfence c =>
    if s.phase c = .idle then
      ({ s with phase := Function.update s.phase c .fencing }, none)
    else (s, none)
  | .resume c visit =>
    match s.phase c with
    | .idle => (s, none)
    | .storing => s.drainWith c .idle ((s.sb c).drainOne s.sys visit)
    | .draining =>
      if (s.sb c).buf = [] then ({ s with phase := Function.update s.phase c .idle }, none)
      else s.drainWith c .draining ((s.sb c).drainOne s.sys visit)
    | .fencing =>
      if (s.sb c).buf = [] then
        ({ s with phase := Function.update s.phase c .idle }, some (.fenced c))
      else s.drainWith c .fencing ((s.sb c).fenceOne s.sys visit)
  | .direct call =>
    let r := s.sys.exec call
    ({ s with sys := r.1 }, some (.direct call.core (storedBy call.access r.2)))

/-- The TSO machine. -/
def machine (n : ℕ) : Machine (TsoSystem n) (TsoAction n) (Option (TsoEvent n)) := ⟨step⟩

/-- The events of a run, oldest first. -/
def trace (s : TsoSystem n) (acts : List (TsoAction n)) : List (TsoEvent n) :=
  ((machine n).outputs s acts).reduceOption

/-- The load or store that an action makes core `c` issue: an idle core takes it. -/
def issues (s : TsoSystem n) (c : Fin n) : TsoAction n → List ProgramOp
  | .store d addr val => if d = c ∧ s.phase c = .idle then [.store ⟨addr, val⟩] else []
  | .load d _ addr => if d = c ∧ s.phase c = .idle then [.load addr] else []
  | _ => []

/-- The loads and stores that a list of actions makes core `c` issue, in program order. -/
def issued (s : TsoSystem n) (c : Fin n) (acts : List (TsoAction n)) : List ProgramOp :=
  (machine n).collect (fun s => s.issues c) s acts

/-- The stores among them. -/
def issuedStores (s : TsoSystem n) (c : Fin n) (acts : List (TsoAction n)) : List SBEntry :=
  (s.issued c acts).filterMap ProgramOp.entry?

end TsoSystem

/-- The load or store of core `c` that an event shows. -/
def TsoEvent.op? {n : ℕ} (c : Fin n) : TsoEvent n → Option ProgramOp
  | .stored d e => if d = c then some (.store e) else none
  | .loaded d a _ => if d = c then some (.load a) else none
  | _ => none

/-- A drain shows no load and no store. -/
theorem TsoSystem.drainWith_op? {n : ℕ} (s : TsoSystem n) (c d : Fin n) (p : Phase)
    (r : StoreBuffer × MesiSystem n × Option SBEntry) :
    (s.drainWith d p r).2.toList.filterMap (TsoEvent.op? c) = [] := by
  simp only [drainWith]
  cases r.2.2 <;> rfl

/-- A step shows the load or store that its action makes a core issue. -/
theorem TsoSystem.step_op? {n : ℕ} (s : TsoSystem n) (c : Fin n) (act : TsoAction n) :
    (s.step act).2.toList.filterMap (TsoEvent.op? c) = s.issues c act := by
  cases act with
  | store d a v =>
    by_cases hd : d = c
    · subst hd
      by_cases hidle : s.phase d = .idle <;> simp [step, issues, hidle, TsoEvent.op?]
    · by_cases hidle : s.phase d = .idle <;> simp [step, issues, hidle, TsoEvent.op?, hd]
  | load d visit a =>
    by_cases hd : d = c
    · subst hd
      by_cases hidle : s.phase d = .idle <;> simp [step, issues, hidle, TsoEvent.op?]
    · by_cases hidle : s.phase d = .idle <;> simp [step, issues, hidle, TsoEvent.op?, hd]
  | drainOne d visit =>
    simp only [step]
    split
    · exact s.drainWith_op? _ _ _ _
    · rfl
  | drainAll d =>
    simp only [step]
    split <;> rfl
  | mfence d =>
    simp only [step]
    split <;> rfl
  | resume d visit =>
    simp only [step]
    split
    · rfl
    · exact s.drainWith_op? _ _ _ _
    · split
      · rfl
      · exact s.drainWith_op? _ _ _ _
    · split
      · rfl
      · exact s.drainWith_op? _ _ _ _
  | direct call => rfl

/-- The events of a run show the loads and stores that its actions make a core issue. -/
theorem TsoSystem.trace_op? {n : ℕ} (s : TsoSystem n) (c : Fin n) (acts : List (TsoAction n)) :
    (s.trace acts).filterMap (TsoEvent.op? c) = s.issued c acts := by
  have hshown := (machine n).collect_eq_flatMap_outputs
    (g := fun o => o.toList.filterMap (TsoEvent.op? c)) (fun s act => (s.step_op? c act).symm) s
    acts
  rw [issued, hshown, trace, List.reduceOption, List.filterMap_filterMap,
    List.filterMap_eq_flatMap_toList]
  apply List.flatMap_congr
  intro o _
  cases o with
  | none => rfl
  | some ev => cases hop : ev.op? c <;> simp [hop]

/-- The stores a core's program has issued, in program order. -/
def storesOf {n : ℕ} (c : Fin n) (tr : List (TsoEvent n)) : List SBEntry :=
  tr.filterMap fun
    | .stored d e => if d = c then some e else none
    | _ => none

/-- They are the stores of the actions that found the core idle. -/
theorem storesOf_trace {n : ℕ} (c : Fin n) (s : TsoSystem n) (acts : List (TsoAction n)) :
    storesOf c (s.trace acts) = s.issuedStores c acts := by
  rw [TsoSystem.issuedStores, ← s.trace_op?, List.filterMap_filterMap]
  apply List.filterMap_congr
  intro ev _
  cases ev with
  | stored d e => by_cases hd : d = c <;> simp [TsoEvent.op?, ProgramOp.entry?, hd]
  | loaded d a v => by_cases hd : d = c <;> simp [TsoEvent.op?, ProgramOp.entry?, hd]
  | _ => rfl

/-- The coherent writes a core's buffer has made, in order. -/
def drainsOf {n : ℕ} (c : Fin n) (tr : List (TsoEvent n)) : List SBEntry :=
  tr.filterMap fun
    | .written d e => if d = c then some e else none
    | _ => none

/-- The coherent write an event makes. -/
def TsoEvent.coherentWrite? {n : ℕ} : TsoEvent n → Option SBEntry
  | .written _ e => some e
  | .direct _ w => w
  | _ => none

/-- The value of the newest entry for an address. -/
def newest? (es : List SBEntry) (addr : Word) : Option Word :=
  ((es.filter (fun e => e.addr = addr)).getLast?).map SBEntry.val

/-- The most recent coherent write to an address by any core, 0 if none. -/
def lastWrite {n : ℕ} (tr : List (TsoEvent n)) (addr : Word) : Word :=
  (newest? (tr.filterMap TsoEvent.coherentWrite?) addr).getD 0

end MesiCoherence
