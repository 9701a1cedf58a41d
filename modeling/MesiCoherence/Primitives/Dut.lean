import Mathlib.Logic.Function.Iterate
import MesiCoherence.Lib.Threads
import MesiCoherence.Model.FlatRefinement

/-!
# Threads on the cores of the system

`primitives/dut.hpp`: each thread accesses the coherent memory through the core it runs
on. The system is carried together with the flat memory it represents, so that it is a
coherent memory in the sense of the thread library. `Dut::fence` does nothing to memory
and is no step.
-/

namespace MesiCoherence

/-- A system, the number of accesses made through it, and the memory it represents. -/
structure DutState (n : ℕ) where
  sys : MesiSystem n
  accesses : ℕ
  flat : Word → Word
  coherent : Coherent (fun _ => 0) flat sys.bus

/-- A fresh system. -/
def DutState.new (n : ℕ) : DutState n :=
  ⟨.new n, 0, fun _ => 0, Coherent.newOver n .new⟩

/-- The accesses of threads on given cores; `visits` are the orders in which the
    broadcasts of successive accesses visit the peers. -/
def dut {T : Type*} {n : ℕ} (core : T → Fin n) (visits : ℕ → (c : Fin n) → VisitOrder c) :
    CoherentMemory T (DutState n) Word Word where
  exec m t acc :=
    let c : Call n := ⟨core t, acc, visits m.accesses (core t)⟩
    (⟨(m.sys.exec c).1, m.accesses + 1, (acc.exec m.flat).1,
      (exec_refines m.coherent c fun hl => hl.2.2 rfl).1⟩, (m.sys.exec c).2)
  view := DutState.flat
  view_exec _ _ _ := rfl
  reply_exec m t acc :=
    (exec_refines m.coherent ⟨core t, acc, visits m.accesses (core t)⟩ fun hl => hl.2.2 rfl).2

section Runs

variable {T C L : Type*} [DecidableEq T] {n : ℕ} (code : ThreadCode T Word Word C L)
  (core : T → Fin n) (visits : ℕ → (c : Fin n) → VisitOrder c) (m : DutState n) (l : L)
  (acts : List (ThreadAction T C Word Word))

/-- Threads on the system behave as threads on the memory it represents. -/
theorem dut_trace :
    code.trace (dut core visits) (.start m l) acts = code.trace .flat (.start m.flat l) acts :=
  code.trace_view (dut core visits) m l acts

theorem dut_locals :
    (code.run (dut core visits) (.start m l) acts).locals =
      (code.run .flat (.start m.flat l) acts).locals :=
  code.run_locals (dut core visits) m l acts

theorem dut_flat :
    (code.run (dut core visits) (.start m l) acts).mem.flat =
      (code.run .flat (.start m.flat l) acts).mem :=
  code.view_run_mem (dut core visits) m l acts

end Runs

/-- Incrementing a word again and again adds to it modulo 2^32. -/
theorem iterate_add_one (k : ℕ) (v : Word) : (· + 1)^[k] v = v + BitVec.ofNat 32 k := by
  induction k with
  | zero => simp
  | succ k ih =>
    rw [Function.iterate_succ_apply', ih, ← BitVec.ofNat_add_ofNat, BitVec.add_assoc]
    rfl

end MesiCoherence
