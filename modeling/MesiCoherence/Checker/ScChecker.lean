import Mathlib.Data.List.FinRange
import Mathlib.Data.List.Sort
import MesiCoherence.Model.MesiSystem

/-!
# The sequential-consistency checkers

`model/sc_checker.{hpp,cpp}`: the replay of a trace in timestamp order, and the
exhaustive search over interleavings. The search works in place on one index vector
and one map, so both are passed along and returned. A failed branch has to undo what
it did to them.

`std::sort` leaves the order of equal keys open; here it is stable.
-/

namespace MesiCoherence

structure SCResult where
  ok : Bool
  detail : String
  deriving DecidableEq, Repr

/-- `mem.count(addr) ? mem[addr] : 0u`. -/
def lookup (mem : Word → Option Word) (addr : Word) : Word := (mem addr).getD 0

/-- A word as `std::hex` prints it. -/
def hexOf (w : Word) : String := String.ofList (Nat.toDigits 16 w.toNat)

/-- The report of a read that does not see the latest write. -/
def violation (e : TraceEvent) (expect : Word) : String :=
  "SC violation: core " ++ toString e.coreId ++ " read addr 0x" ++ hexOf e.addr ++ " got " ++
    toString e.value.toNat ++ " but most-recent-write value is " ++ toString expect.toNat ++
    " (ts=" ++ toString e.timestamp ++ ")"

/-- The loop of `check_serial_order` over a sorted trace of `size` events. -/
def replay (size : ℕ) : (Word → Option Word) → List TraceEvent → SCResult
  | _, [] => ⟨true, "trace is sequentially consistent (" ++ toString size ++ " ops)"⟩
  | mem, e :: t =>
    match e.op with
    | .write => replay size (Function.update mem e.addr (some e.value)) t
    | .read =>
      if e.value ≠ lookup mem e.addr then ⟨false, violation e (lookup mem e.addr)⟩
      else replay size mem t

def checkSerialOrder (trace : List TraceEvent) : SCResult :=
  let t := trace.insertionSort (fun a b => a.timestamp ≤ b.timestamp)
  replay t.length (fun _ => none) t

/-- Per-core event lists in program order, and the position in each. -/
structure Searcher (k : ℕ) where
  cores : Fin k → List TraceEvent
  idx : Fin k → ℕ

namespace Searcher

variable {k : ℕ}

/-- `idx[c]++`. -/
def advance (s : Searcher k) (c : Fin k) : Searcher k :=
  { s with idx := Function.update s.idx c (s.idx c + 1) }

/-- `idx[c]--`. -/
def retreat (s : Searcher k) (c : Fin k) : Searcher k :=
  { s with idx := Function.update s.idx c (s.idx c - 1) }

/-- What a call of `dfs` returns and leaves behind; `none` when the fuel ran out. -/
abbrev Outcome (k : ℕ) := Option (Bool × Searcher k × (Word → Option Word))

/-- What follows the recursive call that placed an event of core `c`: the index goes back,
    and unless the call succeeded the loop goes on. -/
def afterCall (c : Fin k) (goOn : Searcher k → (Word → Option Word) → Outcome k) :
    Outcome k → Outcome k
  | none => none
  | some (true, s, mem) => some (true, s.retreat c, mem)
  | some (false, s, mem) => goOn (s.retreat c) mem

/-- The loop of `dfs` over the cores still to try. -/
def tryCores (dfs : Searcher k → (Word → Option Word) → Outcome k) :
    List (Fin k) → Bool → Searcher k → (Word → Option Word) → Outcome k
  | [], allDone, s, mem => some (allDone, s, mem)
  | c :: cs, allDone, s, mem =>
    match (s.cores c)[s.idx c]? with
    | none => tryCores dfs cs allDone s mem
    | some e =>
      match e.op with
      | .read =>
        if lookup mem e.addr ≠ e.value then tryCores dfs cs false s mem
        else afterCall c (tryCores dfs cs false) (dfs (s.advance c) mem)
      | .write =>
        let saved := lookup mem e.addr
        let had := (mem e.addr).isSome
        -- a key that was absent is erased again
        let undo (m : Word → Option Word) :=
          Function.update m e.addr (if had then some saved else none)
        afterCall c (fun s' mem' => tryCores dfs cs false s' (undo mem'))
          (dfs (s.advance c) (Function.update mem e.addr (some e.value)))

/-- `Searcher::dfs`, for a recursion depth below the fuel. -/
def dfs : ℕ → Searcher k → (Word → Option Word) → Outcome k
  | 0, _, _ => none
  | fuel + 1, s, mem => tryCores (dfs fuel) (List.finRange k) true s mem

end Searcher

/-- The greatest core id of a trace, or -1. In the source it is an `int`. -/
def maxCore (trace : List TraceEvent) : ℤ := trace.foldl (fun m e => max m e.coreId) (-1)

/-- The buckets of `exists_sc_order`. A negative id next to valid ones is out of bounds
    in the source; here such an event is in no bucket. -/
def bucket (trace : List TraceEvent) (core : ℕ) : List TraceEvent :=
  (trace.filter (fun e => e.coreId = (core : ℤ))).insertionSort
    (fun a b => a.programIdx ≤ b.programIdx)

/-- `exists_sc_order`: the recursion is never deeper than the trace is long. The number of
    buckets is the `int` sum `max_core + 1`, which is defined for core ids below `INT_MAX`. -/
def existsScOrder (trace : List TraceEvent) : Option Bool :=
  if maxCore trace < 0 then some true
  else
    let s : Searcher (maxCore trace + 1).toNat := ⟨fun c => bucket trace c, fun _ => 0⟩
    (s.dfs (trace.length + 1) (fun _ => none)).map Prod.fst

end MesiCoherence
