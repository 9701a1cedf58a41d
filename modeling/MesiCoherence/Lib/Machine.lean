import Mathlib.Data.List.Induction
import Mathlib.Data.List.Infix
import Mathlib.Data.List.ReduceOption

/-!
# Deterministic machines with outputs

A machine consumes one input at a time, moves to a new state and emits an
output. Nondeterminism of a modelled program (schedules, random choices, the
order in which peers are visited) is part of the input, so that "for every run"
is "for every list of inputs".

## Main definitions

- `Machine.run` — the state after a list of inputs
- `Machine.outputs` — the outputs along a list of inputs
- `Machine.AllSteps` — a condition on (state, input) that every step of a run meets
- `Machine.countSteps` — how many steps of a run meet such a condition
- `Machine.collect` — what the steps of a run contribute, by their states and inputs
- `Machine.stateAt` — the state at a point of an endless run

## Main results

- `Machine.run_invariant` — an invariant of one step is an invariant of a run
- `Machine.history_invariant` — the same for properties that also mention the
  inputs and outputs so far, along runs whose steps meet a condition
- `Machine.allSteps_iff_history` — a property that good steps keep and bad steps
  break holds along a run exactly when all its steps are good
- `Machine.allSteps_iff_take` — the same for a property of the inputs so far
- `Machine.collect_eq_flatMap_outputs` — contributions that every step also shows
- `Machine.run_eq_foldl_collect` — a part of the state that every step moves by its contribution
- `Machine.simulation` — a relation preserved by equal inputs transfers outputs
- `Machine.outputs_eq_iff` — outputs agree exactly when every step is a good one
-/

/-- A deterministic machine: one input, one output, one new state. -/
structure Machine (σ ι ο : Type*) where
  step : σ → ι → σ × ο

namespace Machine

variable {σ τ ι ο : Type*}

/-- The state reached after consuming a list of inputs. -/
def run (m : Machine σ ι ο) : σ → List ι → σ
  | s, [] => s
  | s, i :: is => run m (m.step s i).1 is

/-- The outputs emitted along a list of inputs, oldest first. -/
def outputs (m : Machine σ ι ο) : σ → List ι → List ο
  | _, [] => []
  | s, i :: is => (m.step s i).2 :: outputs m (m.step s i).1 is

/-- Every step of the run starts in a state, and takes an input, related by `P`. -/
def AllSteps (m : Machine σ ι ο) (P : σ → ι → Prop) : σ → List ι → Prop
  | _, [] => True
  | s, i :: is => P s i ∧ AllSteps m P (m.step s i).1 is

/-- How many steps of the run start in a state, and take an input, related by `P`. -/
def countSteps (m : Machine σ ι ο) (P : σ → ι → Prop) [∀ s i, Decidable (P s i)] :
    σ → List ι → ℕ
  | _, [] => 0
  | s, i :: is => (if P s i then 1 else 0) + countSteps m P (m.step s i).1 is

/-- What the steps of the run contribute, in order. It is read off the inputs and the states in
    which they arrive, not off the outputs. -/
def collect {α : Type*} (m : Machine σ ι ο) (f : σ → ι → List α) : σ → List ι → List α
  | _, [] => []
  | s, i :: is => f s i ++ collect m f (m.step s i).1 is

/-- The state before input number `t` of an endless sequence of inputs. -/
def stateAt (m : Machine σ ι ο) (s : σ) (inputs : ℕ → ι) (t : ℕ) : σ :=
  m.run s ((List.range t).map inputs)

variable (m : Machine σ ι ο)

@[simp] theorem run_nil (s : σ) : m.run s [] = s := rfl

@[simp] theorem run_cons (s : σ) (i : ι) (is : List ι) :
    m.run s (i :: is) = m.run (m.step s i).1 is := rfl

@[simp] theorem outputs_nil (s : σ) : m.outputs s [] = [] := rfl

@[simp] theorem outputs_cons (s : σ) (i : ι) (is : List ι) :
    m.outputs s (i :: is) = (m.step s i).2 :: m.outputs (m.step s i).1 is := rfl

theorem run_append (s : σ) (is js : List ι) :
    m.run s (is ++ js) = m.run (m.run s is) js := by
  induction is generalizing s with
  | nil => rfl
  | cons i is ih => exact ih _

theorem stateAt_succ (s : σ) (inputs : ℕ → ι) (t : ℕ) :
    m.stateAt s inputs (t + 1) = (m.step (m.stateAt s inputs t) (inputs t)).1 := by
  rw [stateAt, List.range_succ, List.map_append, run_append]
  rfl

/-- The first step of an endless run taken off. -/
theorem stateAt_tail (s : σ) (inputs : ℕ → ι) (t : ℕ) :
    m.stateAt s inputs (t + 1) =
      m.stateAt (m.step s (inputs 0)).1 (fun u => inputs (u + 1)) t := by
  rw [stateAt, List.range_succ_eq_map, List.map_cons, List.map_map]
  rfl

theorem outputs_append (s : σ) (is js : List ι) :
    m.outputs s (is ++ js) = m.outputs s is ++ m.outputs (m.run s is) js := by
  induction is generalizing s with
  | nil => rfl
  | cons i is ih => simp only [List.cons_append, outputs_cons, run_cons, ih]

theorem outputs_length (s : σ) (is : List ι) : (m.outputs s is).length = is.length := by
  induction is generalizing s with
  | nil => rfl
  | cons i is ih => simp only [outputs_cons, List.length_cons, ih]

theorem allSteps_append (P : σ → ι → Prop) (s : σ) (is js : List ι) :
    m.AllSteps P s (is ++ js) ↔ m.AllSteps P s is ∧ m.AllSteps P (m.run s is) js := by
  induction is generalizing s with
  | nil => simp [AllSteps]
  | cons i is ih => simp only [List.cons_append, AllSteps, run_cons, ih, and_assoc]

theorem countSteps_append (P : σ → ι → Prop) [∀ s i, Decidable (P s i)] (s : σ)
    (is js : List ι) :
    m.countSteps P s (is ++ js) = m.countSteps P s is + m.countSteps P (m.run s is) js := by
  induction is generalizing s with
  | nil => simp [countSteps]
  | cons i is ih => simp only [List.cons_append, countSteps, run_cons, ih, Nat.add_assoc]

theorem collect_append {α : Type*} (f : σ → ι → List α) (s : σ) (is js : List ι) :
    m.collect f s (is ++ js) = m.collect f s is ++ m.collect f (m.run s is) js := by
  induction is generalizing s with
  | nil => rfl
  | cons i is ih => simp only [List.cons_append, collect, run_cons, ih, List.append_assoc]

/-- If every step shows what it contributes, the outputs show what the run contributes. -/
theorem collect_eq_flatMap_outputs {α : Type*} {f : σ → ι → List α} {g : ο → List α}
    (h : ∀ s i, f s i = g (m.step s i).2) (s : σ) (is : List ι) :
    m.collect f s is = (m.outputs s is).flatMap g := by
  induction is generalizing s with
  | nil => rfl
  | cons i is ih => rw [collect, outputs_cons, List.flatMap_cons, h, ih]

/-- If every step moves a part of the state by what it contributes, the run moves it by all
    that the run contributes. -/
theorem run_eq_foldl_collect {α β : Type*} {f : σ → ι → List α} {part : σ → β}
    {apply : β → α → β} (h : ∀ s i, part (m.step s i).1 = (f s i).foldl apply (part s))
    (s : σ) (is : List ι) : part (m.run s is) = (m.collect f s is).foldl apply (part s) := by
  induction is generalizing s with
  | nil => rfl
  | cons i is ih => rw [run_cons, ih, h, collect, List.foldl_append]

instance decidableAllSteps {P : σ → ι → Prop} [hP : ∀ s i, Decidable (P s i)] :
    ∀ s is, Decidable (m.AllSteps P s is)
  | _, [] => .isTrue trivial
  | s, i :: is => @instDecidableAnd _ _ (hP s i) (decidableAllSteps (m.step s i).1 is)

/-- **Invariant rule**: what one step preserves, a run preserves. -/
theorem run_invariant {P : σ → Prop} (hstep : ∀ s i, P s → P (m.step s i).1)
    {s : σ} (hs : P s) (is : List ι) : P (m.run s is) := by
  induction is generalizing s with
  | nil => exact hs
  | cons i is ih => exact ih (hstep s i hs)

/-- **History invariant rule**: the property may mention the inputs consumed and
    the outputs emitted so far, and every step may use a condition that the run meets. -/
theorem history_invariant {P : List ι → List ο → σ → Prop} {C : σ → ι → Prop} {s : σ}
    (h0 : P [] [] s)
    (hstep : ∀ is os s i, P is os s → C s i →
      P (is ++ [i]) (os ++ [(m.step s i).2]) (m.step s i).1)
    (is : List ι) (hC : m.AllSteps C s is) : P is (m.outputs s is) (m.run s is) := by
  induction is using List.reverseRecOn with
  | nil => exact h0
  | append_singleton is i ih =>
    rw [allSteps_append] at hC
    rw [outputs_append, run_append]
    exact hstep is (m.outputs s is) (m.run s is) i (ih hC.1) hC.2.1

theorem allSteps_of_forall {C : σ → ι → Prop} (h : ∀ s i, C s i) (s : σ) (is : List ι) :
    m.AllSteps C s is := by
  induction is generalizing s with
  | nil => trivial
  | cons i is ih => exact ⟨h s i, ih _⟩

/-- **Exact invariant rule**: if steps that meet `C` keep a property of the outputs so
    far and the state, and all other steps break it, then the property holds after
    every prefix of a run exactly when every step of the run meets `C`. -/
theorem allSteps_iff_history {P : List ο → σ → Prop} {C : σ → ι → Prop} {s : σ} (h0 : P [] s)
    (hgood : ∀ os s i, P os s → C s i → P (os ++ [(m.step s i).2]) (m.step s i).1)
    (hbad : ∀ os s i, P os s → ¬ C s i → ¬ P (os ++ [(m.step s i).2]) (m.step s i).1)
    (is : List ι) :
    m.AllSteps C s is ↔ ∀ is', is' <+: is → P (m.outputs s is') (m.run s is') := by
  constructor
  · rintro hC is' ⟨js, rfl⟩
    rw [allSteps_append] at hC
    exact m.history_invariant (P := fun _ os s => P os s) h0
      (fun _ os s i h hc => hgood os s i h hc) is' hC.1
  · intro h
    induction is using List.reverseRecOn with
    | nil => trivial
    | append_singleton is i ih =>
      rw [allSteps_append]
      refine ⟨ih fun is' hp => h is' (hp.trans (List.prefix_append _ _)), ?_, trivial⟩
      by_contra hc
      have hlast := h (is ++ [i]) (List.prefix_refl _)
      rw [outputs_append, run_append] at hlast
      exact hbad _ _ i (h is (List.prefix_append _ _)) hc hlast

/-- The same for a property of the inputs so far: if it extends exactly over the steps
    that meet `C`, then all prefixes of the inputs have it exactly when all steps do. -/
theorem allSteps_iff_take {P : List ι → Prop} {C : σ → ι → Prop} {s : σ} (h0 : P [])
    (hstep : ∀ is i, P is → (P (is ++ [i]) ↔ C (m.run s is) i)) (is : List ι) :
    m.AllSteps C s is ↔ ∀ k, P (is.take k) := by
  induction is using List.reverseRecOn with
  | nil => simp [AllSteps, h0]
  | append_singleton is i ih =>
    rw [allSteps_append, ih]
    constructor
    · rintro ⟨hpre, hlast, -⟩ k
      have his : P is := by simpa using hpre is.length
      by_cases hk : k ≤ is.length
      · rw [List.take_append_of_le_length hk]
        exact hpre k
      · rw [List.take_of_length_le (by simp; omega)]
        exact (hstep is i his).mpr hlast
    · intro hall
      have hpre : ∀ k, P (is.take k) := by
        intro k
        have hk := hall (min k is.length)
        rw [List.take_append_of_le_length (Nat.min_le_right _ _), ← List.take_eq_take_min] at hk
        exact hk
      have his : P is := by simpa using hpre is.length
      have hlast : P (is ++ [i]) := by
        have hk := hall (is.length + 1)
        rw [List.take_of_length_le (by simp)] at hk
        exact hk
      exact ⟨hpre, (hstep is i his).mp hlast, trivial⟩

theorem AllSteps.mono {C D : σ → ι → Prop} {s : σ} {is : List ι} (h : m.AllSteps C s is)
    (hCD : ∀ s i, C s i → D s i) : m.AllSteps D s is := by
  induction is generalizing s with
  | nil => trivial
  | cons i is ih => exact ⟨hCD s i h.1, ih h.2⟩

/-- A condition on states and inputs may be joined with one on the inputs alone. -/
theorem AllSteps.and_inputs {C : σ → ι → Prop} {D : ι → Prop} {s : σ} {is : List ι}
    (h : m.AllSteps C s is) (hD : ∀ i ∈ is, D i) :
    m.AllSteps (fun s i => C s i ∧ D i) s is := by
  induction is generalizing s with
  | nil => trivial
  | cons i is ih =>
    exact ⟨⟨h.1, hD i List.mem_cons_self⟩, ih h.2 fun j hj => hD j (List.mem_cons_of_mem _ hj)⟩

/-- **Simulation rule**: a relation that equal inputs preserve, and under which
    the outputs agree, relates whole runs. -/
theorem simulation {m : Machine σ ι ο} {m' : Machine τ ι ο} {R : σ → τ → Prop}
    (hstep : ∀ s t i, R s t →
      R (m.step s i).1 (m'.step t i).1 ∧ (m.step s i).2 = (m'.step t i).2)
    {s : σ} {t : τ} (h : R s t) (is : List ι) :
    R (m.run s is) (m'.run t is) ∧ m.outputs s is = m'.outputs t is := by
  induction is generalizing s t with
  | nil => exact ⟨h, rfl⟩
  | cons i is ih =>
    obtain ⟨hr, ho⟩ := hstep s t i h
    obtain ⟨hrun, hout⟩ := ih hr
    exact ⟨hrun, by simp only [outputs_cons, ho, hout]⟩

/-- Related runs have the same number of steps that meet conditions which the relation
    makes agree. -/
theorem countSteps_simulation {m : Machine σ ι ο} {m' : Machine τ ι ο} {R : σ → τ → Prop}
    (hstep : ∀ s t i, R s t → R (m.step s i).1 (m'.step t i).1)
    {P : σ → ι → Prop} {Q : τ → ι → Prop} [∀ s i, Decidable (P s i)] [∀ t i, Decidable (Q t i)]
    (hPQ : ∀ s t i, R s t → (P s i ↔ Q t i)) {s : σ} {t : τ} (h : R s t) (is : List ι) :
    m.countSteps P s is = m'.countSteps Q t is := by
  induction is generalizing s t with
  | nil => rfl
  | cons i is ih => simp only [countSteps, hPQ s t i h, ih (hstep s t i h)]

/-- **Exact simulation**: if good steps keep the relation and the output, and any
    other step shows a wrong output, then the outputs of a run agree exactly when
    all its steps are good. -/
theorem outputs_eq_iff {m : Machine σ ι ο} {m' : Machine τ ι ο} {R : σ → τ → Prop}
    {Good : σ → ι → Prop}
    (hgood : ∀ s t i, R s t → Good s i →
      R (m.step s i).1 (m'.step t i).1 ∧ (m.step s i).2 = (m'.step t i).2)
    (hbad : ∀ s t i, R s t → ¬ Good s i → (m.step s i).2 ≠ (m'.step t i).2)
    {s : σ} {t : τ} (h : R s t) (is : List ι) :
    m.outputs s is = m'.outputs t is ↔ m.AllSteps Good s is := by
  induction is generalizing s t with
  | nil => simp [AllSteps]
  | cons i is ih =>
    by_cases hg : Good s i
    · obtain ⟨hr, ho⟩ := hgood s t i h hg
      simp only [outputs_cons, ho, AllSteps, hg, true_and, List.cons.injEq, ih hr]
    · constructor
      · intro he
        exact absurd (List.cons.inj he).1 (hbad s t i h hg)
      · intro ha
        exact absurd ha.1 hg

end Machine

namespace List

variable {α β γ : Type*} (f : α → β → Option γ)

/-- What the inputs and outputs of a run show together, with one more step at the end. -/
theorem reduceOption_zipWith_append {as : List α} {bs : List β} (h : as.length = bs.length) (a : α)
    (b : β) :
    (zipWith f (as ++ [a]) (bs ++ [b])).reduceOption =
      (zipWith f as bs).reduceOption ++ (f a b).toList := by
  rw [zipWith_append h, reduceOption_append]
  cases hf : f a b <;> simp [hf, reduceOption]

/-- The same with one more step at the start. -/
theorem reduceOption_zipWith_cons (a : α) (b : β) (as : List α) (bs : List β) :
    (zipWith f (a :: as) (b :: bs)).reduceOption =
      (f a b).toList ++ (zipWith f as bs).reduceOption := by
  cases hf : f a b <;> simp [hf, reduceOption]

end List
