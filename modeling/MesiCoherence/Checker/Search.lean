import Mathlib.Algebra.BigOperators.Fin
import Mathlib.Algebra.Order.BigOperators.Group.Finset
import MesiCoherence.Checker.ScChecker
import MesiCoherence.Model.Trace

/-!
# Correctness of the exhaustive search

`dfs` leaves its index vector as it found it, and its map too when it fails, so each
branch starts from the state of the first. It returns true exactly when the remaining
events can be put in an order that the memory explains.
-/

namespace MesiCoherence

theorem lookup_update (mem : Word → Option Word) (a v : Word) :
    lookup (Function.update mem a (some v)) = Function.update (lookup mem) a v := by
  funext b
  by_cases hb : b = a
  · subst hb
    simp [lookup]
  · simp [lookup, hb]

namespace Searcher

variable {k : ℕ}

/-- The events a core still has to place. -/
def remaining (s : Searcher k) (c : Fin k) : List (MemEvent Word Word) :=
  ((s.cores c).drop (s.idx c)).map TraceEvent.toMem

/-- The number of events still to place. -/
def left (s : Searcher k) : ℕ := ∑ c, (s.remaining c).length

variable {s : Searcher k} {mem : Word → Option Word} {c : Fin k} {e : TraceEvent}

theorem retreat_advance (s : Searcher k) (c : Fin k) : (s.advance c).retreat c = s := by
  simp [advance, retreat]

theorem remaining_eq_nil (h : (s.cores c)[s.idx c]? = none) : s.remaining c = [] := by
  rw [remaining, List.drop_eq_nil_of_le (List.getElem?_eq_none_iff.mp h), List.map_nil]

/-- The next event of a core, and what is left after it. -/
theorem remaining_eq_cons (h : (s.cores c)[s.idx c]? = some e) :
    s.remaining c = e.toMem :: (s.advance c).remaining c := by
  obtain ⟨hlt, rfl⟩ := List.getElem?_eq_some_iff.mp h
  rw [remaining, List.drop_eq_getElem_cons hlt, List.map_cons]
  simp [remaining, advance]

theorem remaining_advance (s : Searcher k) (c : Fin k) :
    (s.advance c).remaining =
      Function.update s.remaining c ((s.advance c).remaining c) := by
  funext d
  by_cases hd : d = c
  · subst hd
    rw [Function.update_self]
  · rw [Function.update_of_ne hd]
    simp [remaining, advance, hd]

/-- Placing an event leaves fewer. -/
theorem left_advance_lt (h : (s.cores c)[s.idx c]? = some e) : (s.advance c).left < s.left := by
  refine Finset.sum_lt_sum ?_ ⟨c, Finset.mem_univ c, ?_⟩
  · intro d _
    by_cases hd : d = c
    · subst hd
      rw [remaining_eq_cons h, List.length_cons]
      omega
    · rw [remaining_advance, Function.update_of_ne hd]
  · rw [remaining_eq_cons h, List.length_cons]
    omega

/-- The outcome of a search from a state: the index vector is restored, the map too if
    the search fails, and it succeeds exactly when `P` holds. -/
def Finds (s : Searcher k) (mem : Word → Option Word) (P : Prop) (r : Outcome k) : Prop :=
  ∃ b mem', r = some (b, s, mem') ∧ (b = false → mem' = mem) ∧ (b = true ↔ P)

/-- Can the next event of core `c` go first? -/
def CanStart (s : Searcher k) (mem : Word → Option Word) (c : Fin k) : Prop :=
  ∃ e rest, s.remaining c = e :: rest ∧ e.Allowed (lookup mem) ∧
    Serializable (e.apply (lookup mem)) (Function.update s.remaining c rest)

theorem not_canStart_of_nil (h : s.remaining c = []) : ¬ s.CanStart mem c := by
  rintro ⟨e, rest, hcons, -⟩
  rw [h] at hcons
  cases hcons

theorem canStart_iff (h : (s.cores c)[s.idx c]? = some e) :
    s.CanStart mem c ↔ e.toMem.Allowed (lookup mem) ∧
      Serializable (e.toMem.apply (lookup mem)) (s.advance c).remaining := by
  rw [remaining_advance]
  constructor
  · rintro ⟨e', rest, hcons, hall, hser⟩
    rw [remaining_eq_cons h] at hcons
    obtain ⟨rfl, rfl⟩ := List.cons.inj hcons
    exact ⟨hall, hser⟩
  · rintro ⟨hall, hser⟩
    exact ⟨_, _, remaining_eq_cons h, hall, hser⟩

/-- What the loop over the cores decides. -/
def LoopGoal (s : Searcher k) (mem : Word → Option Word) (cs : List (Fin k)) (allDone : Bool) :
    Prop :=
  (allDone = true ∧ ∀ c ∈ cs, s.remaining c = []) ∨ ∃ c ∈ cs, s.CanStart mem c

theorem loopGoal_cons_done (h : s.remaining c = []) (cs : List (Fin k)) (allDone : Bool) :
    s.LoopGoal mem (c :: cs) allDone ↔ s.LoopGoal mem cs allDone := by
  have hc : ¬ s.CanStart mem c := not_canStart_of_nil h
  simp [LoopGoal, h, hc]

theorem loopGoal_cons_next (h : (s.cores c)[s.idx c]? = some e) (cs : List (Fin k))
    (allDone : Bool) :
    s.LoopGoal mem (c :: cs) allDone ↔ s.CanStart mem c ∨ s.LoopGoal mem cs false := by
  have hne : s.remaining c ≠ [] := by
    rw [remaining_eq_cons h]
    exact List.cons_ne_nil _ _
  simp [LoopGoal, hne]

/-- A branch that placed the next event of core `c` and searched on, and the rest of the
    loop if it failed. -/
theorem finds_afterCall {g : Searcher k → (Word → Option Word) → Outcome k}
    {mem₁ : Word → Option Word} {r : Outcome k} {P Q : Prop}
    (hr : (s.advance c).Finds mem₁ P r) (hrest : s.Finds mem Q (g s mem₁)) :
    s.Finds mem (P ∨ Q) (afterCall c g r) := by
  obtain ⟨b, mem', rfl, hmem, hb⟩ := hr
  cases b with
  | true =>
    refine ⟨true, mem', by rw [afterCall, retreat_advance], by simp, ?_⟩
    simp [hb.mp rfl]
  | false =>
    have hP : ¬ P := fun hp => Bool.false_ne_true (hb.mpr hp)
    obtain rfl := hmem rfl
    rw [afterCall, retreat_advance]
    simpa [hP] using hrest

/-- Undoing a write restores the map, absent keys included. -/
theorem update_restore (mem : Word → Option Word) (a v : Word) :
    Function.update (Function.update mem a (some v)) a
      (if (mem a).isSome then some (lookup mem a) else none) = mem := by
  have hsame : (if (mem a).isSome then some (lookup mem a) else none) = mem a := by
    cases hm : mem a <;> simp [lookup, hm]
  rw [hsame, Function.update_idem, Function.update_eq_self]

theorem tryCores_finds {fuel : ℕ} (s : Searcher k) (mem : Word → Option Word)
    (hleft : s.left ≤ fuel)
    (hrec : ∀ (s : Searcher k) mem, s.left < fuel →
      s.Finds mem (Serializable (lookup mem) s.remaining) (dfs fuel s mem))
    (cs : List (Fin k)) (allDone : Bool) :
    s.Finds mem (s.LoopGoal mem cs allDone) (tryCores (dfs fuel) cs allDone s mem) := by
  induction cs generalizing allDone with
  | nil => exact ⟨allDone, mem, rfl, fun _ => rfl, by simp [LoopGoal]⟩
  | cons c cs ih =>
    cases hnext : (s.cores c)[s.idx c]? with
    | none =>
      rw [loopGoal_cons_done (remaining_eq_nil hnext)]
      simpa only [tryCores, hnext] using ih allDone
    | some e =>
      have hlt : (s.advance c).left < fuel := by
        have := left_advance_lt hnext
        omega
      rw [loopGoal_cons_next hnext, canStart_iff hnext]
      cases hop : e.op with
      | read =>
        have hmem : e.toMem = .load e.addr e.value := by
          simp [TraceEvent.toMem, OpType.toMem, hop]
        rw [hmem]
        by_cases hv : lookup mem e.addr = e.value
        · have hbranch := finds_afterCall (hrec (s.advance c) mem hlt) (ih false)
          simpa [tryCores, hnext, hop, hv, MemEvent.Allowed, MemEvent.apply] using hbranch
        · have hv' : e.value ≠ lookup mem e.addr := Ne.symm hv
          simpa [tryCores, hnext, hop, hv, MemEvent.Allowed, hv'] using ih false
      | write =>
        have hmem : e.toMem = .store e.addr e.value := by
          simp [TraceEvent.toMem, OpType.toMem, hop]
        have hcall := hrec (s.advance c) (Function.update mem e.addr (some e.value)) hlt
        rw [lookup_update] at hcall
        have hbranch := finds_afterCall
          (g := fun s' mem' => tryCores (dfs fuel) cs false s' (Function.update mem' e.addr
            (if (mem e.addr).isSome then some (lookup mem e.addr) else none)))
          hcall (by simpa only [update_restore] using ih false)
        simpa [tryCores, hnext, hop, hmem, MemEvent.Allowed, MemEvent.apply] using hbranch

/-- **The search is exact.** With fuel for the events left, `dfs` returns, restores what
    it changed, and succeeds exactly when an explaining order exists. -/
theorem dfs_finds (fuel : ℕ) (s : Searcher k) (mem : Word → Option Word) (h : s.left < fuel) :
    s.Finds mem (Serializable (lookup mem) s.remaining) (dfs fuel s mem) := by
  induction fuel generalizing s mem with
  | zero => omega
  | succ fuel ih =>
    have hloop := tryCores_finds s mem (Nat.lt_succ_iff.mp h) ih (List.finRange k) true
    have hgoal : s.LoopGoal mem (List.finRange k) true ↔
        Serializable (lookup mem) s.remaining := by
      rw [serializable_iff]
      simp only [LoopGoal, List.mem_finRange, true_and, forall_const, CanStart]
    rw [hgoal] at hloop
    exact hloop

end Searcher

/-- The buckets together hold at most the events of the trace. -/
theorem sum_bucket_length_le (trace : List TraceEvent) (k : ℕ) :
    ∑ c : Fin k, (bucket trace c).length ≤ trace.length := by
  simp only [bucket, List.length_insertionSort]
  induction trace with
  | nil => simp
  | cons e trace ih =>
    have hone : ∑ c : Fin k, (if e.coreId = (c : ℤ) then 1 else 0) ≤ 1 := by
      by_cases he : ∃ c : Fin k, e.coreId = (c : ℤ)
      · obtain ⟨c, hc⟩ := he
        have hiff : ∀ d : Fin k, e.coreId = (d : ℤ) ↔ c = d := by
          intro d
          rw [hc, Fin.ext_iff]
          omega
        simp [hiff]
      · rw [Finset.sum_eq_zero]
        · omega
        · intro c _
          exact if_neg fun hc => he ⟨c, hc⟩
    have hsplit : ∀ c : Fin k, ((e :: trace).filter (fun e => e.coreId = (c : ℤ))).length =
        (if e.coreId = (c : ℤ) then 1 else 0) +
          (trace.filter (fun e => e.coreId = (c : ℤ))).length := by
      intro c
      by_cases hc : e.coreId = (c : ℤ)
      · simp [hc, Nat.add_comm]
      · simp [hc]
    rw [Finset.sum_congr rfl fun c _ => hsplit c, Finset.sum_add_distrib, List.length_cons]
    omega

/-- **The exhaustive checker is exact**: it returns, and accepts exactly when the buckets
    have an order in which every read sees the latest write. -/
theorem existsScOrder_eq (trace : List TraceEvent) (h : 0 ≤ maxCore trace) :
    ∃ b, existsScOrder trace = some b ∧
      (b = true ↔ Serializable (fun _ => 0)
        fun c : Fin (maxCore trace + 1).toNat => (bucket trace c).map TraceEvent.toMem) := by
  have hfuel : Searcher.left (⟨fun c : Fin (maxCore trace + 1).toNat => bucket trace c,
      fun _ => 0⟩) < trace.length + 1 := by
    have := sum_bucket_length_le trace (maxCore trace + 1).toNat
    simpa [Searcher.left, Searcher.remaining, Nat.lt_succ_iff] using this
  obtain ⟨b, mem', hr, -, hb⟩ := Searcher.dfs_finds _ _ (fun _ => none) hfuel
  refine ⟨b, ?_, hb⟩
  rw [existsScOrder, if_neg (by omega)]
  simp only [hr, Option.map_some]

end MesiCoherence
