import Mathlib.Algebra.BigOperators.Group.Finset.Basic
import MesiCoherence.Lib.Machine

/-!
# Machines whose inputs act locally

The state of a machine has parts, and every input names one of them by its key. If an
input changes only the part it names, and what it does there and emits depends on that
part only, then the parts behave like machines of their own: a run shows on each part
what the run of the inputs for that part alone shows.

## Main definitions

- `Machine.Local` — inputs act on the part that their key names

## Main results

- `Machine.Local.run_filter`, `Machine.Local.outputs_filter` — a part does not notice
  the inputs for other parts
- `Machine.Local.count_eq_sum` — a counter of the machine is the sum over the parts
- `Machine.Local.step_comm` — steps for different parts commute
-/

namespace Machine

variable {σ ι ο κ ν : Type*}

/-- In the states that satisfy `Inv`, an input changes no part but the one its key names,
    and its effect there and its output depend on that part only. -/
structure Local (m : Machine σ ι ο) (Inv : σ → Prop) (key : ι → κ) (view : κ → σ → ν) :
    Prop where
  inv : ∀ s i, Inv s → Inv (m.step s i).1
  frame : ∀ s i k, Inv s → k ≠ key i → view k (m.step s i).1 = view k s
  own : ∀ s t i, Inv s → Inv t → view (key i) s = view (key i) t →
    view (key i) (m.step s i).1 = view (key i) (m.step t i).1 ∧ (m.step s i).2 = (m.step t i).2

namespace Local

variable {m : Machine σ ι ο} {Inv : σ → Prop} {key : ι → κ} {view : κ → σ → ν}

section Filter

variable [DecidableEq κ]

/-- **A part sees only its own inputs.** -/
theorem run_filter (h : m.Local Inv key view) (k : κ) (is : List ι) {s t : σ} (hs : Inv s)
    (ht : Inv t) (hv : view k s = view k t) :
    view k (m.run s is) = view k (m.run t (is.filter fun i => key i = k)) := by
  induction is generalizing s t with
  | nil => exact hv
  | cons i is ih =>
    by_cases hk : key i = k
    · subst hk
      rw [List.filter_cons_of_pos (by simp), run_cons, run_cons]
      exact ih (h.inv s i hs) (h.inv t i ht) (h.own s t i hs ht hv).1
    · rw [List.filter_cons_of_neg (by simpa using hk), run_cons]
      exact ih (h.inv s i hs) ht ((h.frame s i k hs (Ne.symm hk)).trans hv)

/-- The outputs of the inputs for a part are those of a run of these inputs alone. -/
theorem outputs_filter (h : m.Local Inv key view) (k : κ) (is : List ι) {s t : σ} (hs : Inv s)
    (ht : Inv t) (hv : view k s = view k t) :
    ((is.zip (m.outputs s is)).filter fun p => key p.1 = k).map Prod.snd =
      m.outputs t (is.filter fun i => key i = k) := by
  induction is generalizing s t with
  | nil => rfl
  | cons i is ih =>
    rw [outputs_cons, List.zip_cons_cons]
    by_cases hk : key i = k
    · subst hk
      obtain ⟨hview, hout⟩ := h.own s t i hs ht hv
      rw [List.filter_cons_of_pos (by simp), List.filter_cons_of_pos (by simp), List.map_cons,
        outputs_cons, hout, ih (h.inv s i hs) (h.inv t i ht) hview]
    · rw [List.filter_cons_of_neg (by simpa using hk), List.filter_cons_of_neg (by simpa using hk)]
      exact ih (h.inv s i hs) ht ((h.frame s i k hs (Ne.symm hk)).trans hv)

end Filter

section Count

variable {M : Type*} [AddCommMonoid M] (count : σ → M) (cost : σ → ι → M)

/-- **Counters add up over the parts.** If every input raises a counter by an amount that
    depends on its own part only, then the counter of a run is the sum of the counters of
    the runs of each part's inputs. -/
theorem count_eq_sum [DecidableEq κ] (h : m.Local Inv key view)
    (hcount : ∀ s i, Inv s → count (m.step s i).1 = count s + cost s i)
    (hcost : ∀ s t i, Inv s → Inv t → view (key i) s = view (key i) t → cost s i = cost t i)
    {s : σ} (hs : Inv s) (h0 : count s = 0) (is : List ι) :
    count (m.run s is) =
      ∑ k ∈ (is.map key).toFinset, count (m.run s (is.filter fun i => key i = k)) := by
  -- a sum over more keys is the same: keys without inputs count nothing
  have hmore : ∀ (is : List ι) (K : Finset κ), (∀ i ∈ is, key i ∈ K) →
      count (m.run s is) = ∑ k ∈ K, count (m.run s (is.filter fun i => key i = k)) := by
    intro is K
    induction is using List.reverseRecOn with
    | nil => simp [h0]
    | append_singleton is i ih =>
      intro hK
      have hi : key i ∈ K := hK i (by simp)
      have hrun : ∀ js, Inv (m.run s js) := m.run_invariant h.inv hs
      have hother : ∀ k ∈ K.erase (key i),
          count (m.run s ((is ++ [i]).filter fun j => key j = k)) =
            count (m.run s (is.filter fun j => key j = k)) := by
        intro k hk
        have hne : key i ≠ k := (Finset.ne_of_mem_erase hk).symm
        simp [List.filter_append, hne]
      have hown : count (m.run s ((is ++ [i]).filter fun j => key j = key i)) =
          count (m.run s (is.filter fun j => key j = key i)) + cost (m.run s is) i := by
        rw [List.filter_append, List.filter_cons_of_pos (by simp), List.filter_nil, run_append,
          run_cons, run_nil, hcount _ i (hrun _)]
        congr 1
        exact (hcost _ _ i (hrun _) (hrun _) (h.run_filter (key i) is hs hs rfl)).symm
      rw [run_append, run_cons, run_nil, hcount _ i (hrun is),
        ih fun j hj => hK j (List.mem_append_left _ hj), ← Finset.add_sum_erase K _ hi,
        ← Finset.add_sum_erase K _ hi, hown, Finset.sum_congr rfl hother]
      exact add_right_comm _ _ _
  exact hmore is _ fun i hi => List.mem_toFinset.mpr (List.mem_map_of_mem hi)

/-- Steps for different parts commute, on the parts, in their outputs and in the counter. -/
theorem step_comm (h : m.Local Inv key view)
    (hcount : ∀ s i, Inv s → count (m.step s i).1 = count s + cost s i)
    (hcost : ∀ s t i, Inv s → Inv t → view (key i) s = view (key i) t → cost s i = cost t i)
    {s : σ} (hs : Inv s) {i j : ι} (hne : key i ≠ key j) :
    (∀ k, view k (m.step (m.step s i).1 j).1 = view k (m.step (m.step s j).1 i).1) ∧
      (m.step (m.step s i).1 j).2 = (m.step s j).2 ∧
      (m.step (m.step s j).1 i).2 = (m.step s i).2 ∧
      count (m.step (m.step s i).1 j).1 = count (m.step (m.step s j).1 i).1 := by
  have hi := h.inv s i hs
  have hj := h.inv s j hs
  have hvi : view (key i) (m.step s j).1 = view (key i) s := h.frame s j _ hs hne
  have hvj : view (key j) (m.step s i).1 = view (key j) s := h.frame s i _ hs hne.symm
  obtain ⟨howni, houti⟩ := h.own _ _ i hj hs hvi
  obtain ⟨hownj, houtj⟩ := h.own _ _ j hi hs hvj
  refine ⟨fun k => ?_, houtj, houti, ?_⟩
  · by_cases hki : k = key i
    · subst hki
      rw [h.frame _ j _ hi hne, howni]
    · by_cases hkj : k = key j
      · subst hkj
        rw [h.frame _ i _ hj hne.symm, hownj]
      · rw [h.frame _ j k hi hkj, h.frame s i k hs hki, h.frame _ i k hj hki,
          h.frame s j k hs hkj]
  · rw [hcount _ j hi, hcount s i hs, hcount _ i hj, hcount s j hs,
      hcost _ s j hi hs hvj, hcost _ s i hj hs hvi]
    exact add_right_comm _ _ _

end Count

end Local

end Machine
