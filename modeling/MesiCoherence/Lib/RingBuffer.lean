import Mathlib.Data.BitVec
import Mathlib.Logic.Function.Basic

/-!
# Windows of a ring

A ring has `2 ^ w` slots and pointers that wrap. What a ring buffer holds is a window:
consecutive slots from a head pointer on. Slots outside the window are unrestricted.

## Main results

- `Ring.window_push` — writing the slot behind the window appends an element
- `Ring.window_succ` — advancing the head removes the oldest element
- `Ring.reverse_window` — the same slots, walked backwards from the tail
- `foldl_firstMatch` — a loop that keeps its first match is a search
-/

namespace Ring

variable {w : ℕ} {α : Type*}

/-- The `k` slots from `head` on, oldest first. -/
def window (slots : BitVec w → α) (head : BitVec w) (k : ℕ) : List α :=
  (List.range k).map fun j => slots (head + BitVec.ofNat w j)

@[simp] theorem length_window (slots : BitVec w → α) (head : BitVec w) (k : ℕ) :
    (window slots head k).length = k := by
  simp [window]

/-- Advancing the head drops the oldest slot. -/
theorem window_succ (slots : BitVec w → α) (head : BitVec w) (k : ℕ) :
    window slots head (k + 1) = slots head :: window slots (head + 1) k := by
  rw [window, List.range_succ_eq_map, List.map_cons, List.map_map, window]
  congr 1
  · simp
  · apply List.map_congr_left
    intro j _
    have hj : head + BitVec.ofNat w (j + 1) = head + 1 + BitVec.ofNat w j := by
      rw [Nat.add_comm, ← BitVec.ofNat_add_ofNat, ← BitVec.add_assoc]
      rfl
    simp only [Function.comp_apply, Nat.succ_eq_add_one, hj]

/-- Offsets below the number of slots name different slots. -/
theorem add_ofNat_inj (head : BitVec w) {j k : ℕ} (hj : j < 2 ^ w) (hk : k < 2 ^ w) :
    head + BitVec.ofNat w j = head + BitVec.ofNat w k ↔ j = k := by
  rw [BitVec.add_right_inj, ← BitVec.toNat_inj, BitVec.toNat_ofNat, BitVec.toNat_ofNat,
    Nat.mod_eq_of_lt hj, Nat.mod_eq_of_lt hk]

/-- The slot behind a window that leaves room takes a new newest element. -/
theorem window_push (slots : BitVec w → α) (head : BitVec w) {k : ℕ} (hk : k < 2 ^ w) (e : α) :
    window (Function.update slots (head + BitVec.ofNat w k) e) head (k + 1) =
      window slots head k ++ [e] := by
  rw [window, List.range_succ, List.map_append, List.map_singleton, Function.update_self, window]
  congr 1
  apply List.map_congr_left
  intro j hj
  have hjk := List.mem_range.mp hj
  apply Function.update_of_ne
  intro he
  have := (add_ofNat_inj head (hjk.trans hk) hk).mp he
  omega

/-- The window from the newest slot back, as distances from the tail. -/
theorem reverse_window (slots : BitVec w → α) (head : BitVec w) (k : ℕ) :
    (window slots head k).reverse =
      (List.range k).map fun j => slots (head + BitVec.ofNat w k - 1 - BitVec.ofNat w j) := by
  rw [window, ← List.map_reverse, List.range_eq_range', List.reverse_range', List.map_map,
    ← List.range_eq_range']
  apply List.map_congr_left
  intro j hj
  have hjk := List.mem_range.mp hj
  have hk : k = (k - 1 - j) + 1 + j := by omega
  have hsplit : BitVec.ofNat w k = BitVec.ofNat w (k - 1 - j) + 1 + BitVec.ofNat w j := by
    conv_lhs => rw [hk]
    rw [← BitVec.ofNat_add_ofNat, ← BitVec.ofNat_add_ofNat]
    rfl
  rw [Function.comp_apply, hsplit, Nat.zero_add]
  congr 1
  generalize BitVec.ofNat w (k - 1 - j) = x
  generalize BitVec.ofNat w j = y
  grind

end Ring

/-- A loop that overwrites its result at the first match only. -/
theorem foldl_firstMatch {ι α : Type*} (p : ι → Bool) (f : ι → α) (l : List ι) (d : α) :
    l.foldl (fun r k => if p k && !r.1 then (true, f k) else r) (false, d) =
      (((l.find? p).map f).isSome, ((l.find? p).map f).getD d) := by
  have hdone : ∀ (l : List ι) (v : α),
      l.foldl (fun r k => if p k && !r.1 then (true, f k) else r) (true, v) = (true, v) := by
    intro l v
    induction l with
    | nil => rfl
    | cons k l ih => simpa using ih
  induction l with
  | nil => rfl
  | cons k l ih =>
    rw [List.foldl_cons]
    cases hp : p k with
    | true =>
      simp only [hp, Bool.not_false, Bool.and_true, if_true, hdone, List.find?_cons_of_pos,
        Option.map_some, Option.isSome_some, Option.getD_some]
    | false => simpa [hp] using ih

/-- A search for an index below a bound need not look further. -/
theorem find?_range_lt (p : ℕ → Bool) {k n : ℕ} (h : k ≤ n) :
    (List.range n).find? (fun j => decide (j < k) && p j) = (List.range k).find? p := by
  ext i
  simp only [List.find?_range_eq_some, List.mem_range, Bool.and_eq_true, decide_eq_true_eq,
    Bool.not_eq_true', Bool.and_eq_false_iff, decide_eq_false_iff_not]
  constructor
  · rintro ⟨⟨hik, hp⟩, -, hmin⟩
    exact ⟨hp, hik, fun j hj => (hmin j hj).resolve_left (by omega)⟩
  · rintro ⟨hp, hik, hmin⟩
    exact ⟨⟨hik, hp⟩, by omega, fun j hj => Or.inr (hmin j hj)⟩
