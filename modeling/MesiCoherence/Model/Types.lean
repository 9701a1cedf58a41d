import Mathlib.Data.BitVec

/-!
# Shared types of the model

The enums and small structs of `model/mesi_types.hpp`, and the line geometry.
Addresses and values are `uint32_t`, so they are 32-bit words whose arithmetic
wraps.
-/

namespace MesiCoherence

/-- `uint32_t`: an address or a data word. -/
abbrev Word := BitVec 32

/-- The MESI state of a cache line. -/
inductive State where
  | I
  | S
  | E
  | M
  deriving DecidableEq, Repr

/-- An owned line is held. -/
theorem State.ne_I_of_owned {st : State} (h : st = .M ∨ st = .E) : st ≠ .I := by
  rcases h with rfl | rfl <;> decide

/-- The bus transactions. -/
inductive BusTxn where
  | none
  | busRd
  | busRdX
  | busUpgr
  | busWB
  deriving DecidableEq, Repr

/-- Aggregated result of snooping one transaction against the other caches. -/
structure SnoopResult where
  hadCopy : Bool := false
  intervened : Bool := false
  deriving DecidableEq, Repr

/-- `SnoopResult::operator|=`. -/
def SnoopResult.or (r o : SnoopResult) : SnoopResult :=
  ⟨r.hadCopy || o.hadCopy, r.intervened || o.intervened⟩

/-- Bytes of a cache line. -/
def lineBytes : Word := 64

/-- The line an address belongs to: the address with its offset bits cleared. -/
def lineOf (addr : Word) : Word := addr &&& ~~~(lineBytes - 1)

/-- The mask clears exactly the six offset bits. -/
theorem lineMask_getElem : ∀ i : Fin 32, (~~~(lineBytes - 1))[i] = decide (6 ≤ i.val) := by
  decide

theorem lineOf_eq_shift (a : Word) : lineOf a = (a >>> 6) <<< 6 := by
  ext i hi
  have hmask := lineMask_getElem ⟨i, hi⟩
  simp only [Fin.getElem_fin] at hmask
  simp only [lineOf, BitVec.getElem_and, BitVec.getElem_shiftLeft, hmask]
  by_cases h : i < 6
  · simp [h]
  · have h6 : 6 + (i - 6) = i := by omega
    have hle : 6 ≤ i := by omega
    simp [h, h6, hle, BitVec.getLsbD_eq_getElem hi]

/-- A line address is the multiple of 64 below the address. -/
theorem lineOf_toNat (a : Word) : (lineOf a).toNat = a.toNat / 64 * 64 := by
  have ha := a.isLt
  rw [lineOf_eq_shift, BitVec.toNat_shiftLeft, BitVec.toNat_ushiftRight]
  rw [Nat.shiftLeft_eq, Nat.shiftRight_eq_div_pow]
  omega

/-- Two addresses lie on the same line when their line numbers agree. -/
theorem lineOf_eq_iff (a b : Word) : lineOf a = lineOf b ↔ a.toNat / 64 = b.toNat / 64 := by
  rw [← BitVec.toNat_inj, lineOf_toNat, lineOf_toNat]
  omega

@[simp] theorem lineOf_lineOf (a : Word) : lineOf (lineOf a) = lineOf a := by
  rw [lineOf_eq_iff, lineOf_toNat]
  omega

end MesiCoherence
