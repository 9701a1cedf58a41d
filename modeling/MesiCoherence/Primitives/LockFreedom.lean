import MesiCoherence.Lib.Retry
import MesiCoherence.Primitives.AtomicCounter
import MesiCoherence.Primitives.HazardPtr

/-!
# The retry loops are lock-free

The `cas` loop of the atomicity tests and `HazardDomain::protect` start again when the word
they have read changes under them. A thread that goes on without finishing a call does so
because others make progress, and only as often as they do.
-/

namespace MesiCoherence

variable {T : Type*} [DecidableEq T] {n : ℕ}

namespace Increment

/-- A `cas` that fails. -/
def casFails : Point → Reply Word → Bool
  | .swapping _ _, .swap _ success => !success
  | _, _ => false

/-- The loop relies on the value it has read; a round is a read and a `cas`. -/
def retryCas (ctr : Word) : RetryLoop (code (T := T) ctr) where
  words a := a = ctr
  watch
    | .swapping _ old => some (ctr, old)
    | _ => none
  retry := casFails
  cost
    | .idle => 0
    | .adding _ => 1
    | .reading _ => 2
    | .swapping _ _ => 1
  bound := 2
  valid _ := True
  command := by
    intro locals t inc l hcmd
    simp only [code] at hcmd
    split at hcmd
    · cases inc with
      | fetchAndAdd delta =>
        cases hcmd
        exact ⟨trivial, rfl, Nat.le_succ 1⟩
      | retryLoop delta =>
        cases hcmd
        exact ⟨trivial, rfl, le_rfl⟩
    · cases hcmd
  resume := by
    intro l acc m _ hnext
    refine ⟨trivial, ?_⟩
    cases l with
    | idle => cases hnext
    | adding delta => exact le_rfl
    | reading delta =>
      obtain rfl := Option.some.inj hnext
      exact le_rfl
    | swapping delta old =>
      obtain rfl := Option.some.inj hnext
      by_cases hold : m ctr = old
      · rw [Access.exec_cas_of_eq hold]
        exact le_rfl
      · rw [Access.exec_cas_of_ne hold]
        exact le_rfl
  retried := by
    intro l acc m _ hnext hfails
    cases l with
    | swapping delta old =>
      obtain rfl := Option.some.inj hnext
      by_cases hold : m ctr = old
      · rw [Access.exec_cas_of_eq hold] at hfails
        cases hfails
      · rw [Access.exec_cas_of_ne hold]
        exact ⟨⟨ctr, old, rfl, hold⟩, rfl⟩
    | _ => cases hfails
  relied := by
    intro l acc m a v _ hnext hwatch
    cases l with
    | idle => cases hnext
    | adding delta => cases hwatch
    | reading delta =>
      obtain rfl := Option.some.inj hnext
      rw [Access.exec_read] at hwatch ⊢
      cases hwatch
      exact ⟨decide_eq_true rfl, Or.inl rfl⟩
    | swapping delta old =>
      obtain rfl := Option.some.inj hnext
      by_cases hold : m ctr = old
      · rw [Access.exec_cas_of_eq hold] at hwatch
        cases hwatch
      · rw [Access.exec_cas_of_ne hold] at hwatch
        cases hwatch

/-- The increments that others than `t` have completed. -/
def completedByOthers (t : T) (es : List (ThreadEvent T Increment Word Word Point)) : ℕ :=
  es.countP fun
    | .accessed u l acc r => u ≠ t && (completed? T (.accessed u l acc r)).isSome
    | _ => false

/-- Only completed increments write the counter. -/
theorem writesByOthers_le_completed (ctr : Word) (m : Word → Word) (t : T)
    (acts : List (ThreadAction T Increment Word Word)) :
    writesByOthers (fun a => a = ctr) t ((code ctr).trace .flat (.start m .idle) acts) ≤
      completedByOthers t ((code ctr).trace .flat (.start m .idle) acts) := by
  refine (code ctr).trace_invariant (P := fun es _ =>
    writesByOthers (fun a => a = ctr) t es ≤ completedByOthers t es) le_rfl ?_ ?_ ?_ acts
  · intro es s u inc l h _
    simpa [writesByOthers, completedByOthers, ThreadEvent.pays] using h
  · intro es s u acc h hnext
    simp only [writesByOthers, completedByOthers, List.countP_append] at h ⊢
    refine Nat.add_le_add h (List.countP_mono_left ?_)
    intro e he hpays
    obtain rfl := List.mem_singleton.mp he
    obtain ⟨hut, hwrote⟩ := Bool.and_eq_true_iff.mp hpays
    refine Bool.and_eq_true_iff.mpr ⟨hut, ?_⟩
    cases hl : s.locals u with
    | idle =>
      rw [hl] at hnext
      cases hnext
    | adding delta =>
      rw [hl] at hnext
      obtain rfl := Option.some.inj hnext
      rfl
    | reading delta =>
      rw [hl] at hnext
      obtain rfl := Option.some.inj hnext
      cases hwrote
    | swapping delta old =>
      rw [hl] at hnext
      obtain rfl := Option.some.inj hnext
      by_cases hold : s.mem ctr = old
      · rw [Access.exec_cas_of_eq hold]
        rfl
      · rw [Access.exec_cas_of_ne hold] at hwrote
        cases hwrote
  · intro es s u acc h hforeign
    have hkept := Access.wrote_of_keeps hforeign (acc.exec s.mem).2
    simpa [writesByOthers, completedByOthers, ThreadEvent.pays, hkept] using h

/-- **The `cas` loop is lock-free.** Whatever the threads and other code do, a `cas` of a
    thread fails at most once for each increment that others have completed; and a thread
    makes at most two accesses for each increment it begins or others complete. -/
theorem increments_lock_free (core : T → Fin n) (visits : ℕ → (c : Fin n) → VisitOrder c)
    (ctr : Word) (m : DutState n) (acts : List (ThreadAction T Increment Word Word)) (t : T) :
    let es := (code ctr).trace (dut core visits) (.start m .idle) acts
    retriesOf casFails t es ≤ completedByOthers t es ∧
      accessesOf t es ≤ 2 * (commandsOf t es + completedByOthers t es) := by
  intro es
  simp only [es, dut_trace]
  have hwrites := writesByOthers_le_completed ctr m.flat t acts
  have hretries := (retryCas (T := T) ctr).retries_le (m := m.flat) (l := .idle) trivial rfl rfl
    acts t
  have haccesses := (retryCas (T := T) ctr).accesses_le (m := m.flat) (l := .idle) trivial rfl rfl
    acts t
  refine ⟨hretries.trans hwrites, haccesses.trans ?_⟩
  exact Nat.mul_le_mul_left _ (Nat.add_le_add_left hwrites _)

end Increment

namespace HazardDomain

variable (d : HazardDomain) (source : Word → Bool) (tid : T → ℤ)

/-- A second read that finds another pointer than the one published. -/
def revalidationFails : HazardLocal → Reply Word → Bool
  | .revalidate _ _ p, .value v => v ≠ p
  | _, _ => false

/-- The pointer that a program point of `protect` has read, with its address. -/
def pointerRead : HazardLocal → Option (Word × Word)
  | .publish _ ptrAddr p => some (ptrAddr, p)
  | .revalidate _ ptrAddr p => some (ptrAddr, p)
  | _ => none

/-- The accesses until the call ends or starts again. -/
def accessesLeft : HazardLocal → ℕ
  | .load _ _ => 3
  | .publish _ _ _ => 2
  | .revalidate _ _ _ => 1
  | .releasing _ _ => 1
  | .scan _ i => d.nThreads - i
  | _ => 0

/-- `protect` reads a source pointer, and a scan reads a slot. -/
def Occurs : HazardLocal → Prop
  | .load _ ptrAddr => source ptrAddr = true
  | .publish _ ptrAddr _ => source ptrAddr = true
  | .revalidate _ ptrAddr _ => source ptrAddr = true
  | .scan _ i => i < d.nThreads
  | _ => True

/-- `protect` relies on the pointer it has read; a round is a read, the write of the slot and
    the second read. -/
def protectLoop : RetryLoop (d.code source tid) where
  words := source
  watch := pointerRead
  retry := revalidationFails
  cost := d.accessesLeft
  bound := max 3 d.nThreads
  valid := d.Occurs source
  command := by
    intro locals t op l hcmd
    cases op with
    | protect ptrAddr =>
      simp only [code] at hcmd
      split at hcmd
      · next hcall =>
        obtain ⟨k, -, rfl⟩ := Option.map_eq_some_iff.mp hcmd
        exact ⟨hcall.2, rfl, le_max_left _ _⟩
      · cases hcmd
    | release =>
      simp only [code] at hcmd
      split at hcmd
      · obtain ⟨k, -, rfl⟩ := Option.map_eq_some_iff.mp hcmd
        exact ⟨trivial, rfl, le_max_of_le_left (show 1 ≤ 3 by decide)⟩
      · cases hcmd
    | isHazarded ptr =>
      simp only [code] at hcmd
      split at hcmd
      · cases hcmd
        exact ⟨d.pos, rfl, le_max_right _ _⟩
      · cases hcmd
  resume := by
    intro l acc m hvalid hnext
    cases l with
    | idle => cases hnext
    | holding k p => cases hnext
    | load k ptrAddr =>
      obtain rfl := Option.some.inj hnext
      exact ⟨hvalid, le_rfl⟩
    | publish k ptrAddr p => exact ⟨hvalid, le_rfl⟩
    | revalidate k ptrAddr p =>
      obtain rfl := Option.some.inj hnext
      rw [Access.exec_read]
      by_cases hp : m ptrAddr = p
      · simp only [code, if_pos hp]
        exact ⟨trivial, Nat.le_add_right _ _⟩
      · simp only [code, if_neg hp, revalidationFails, decide_eq_true hp, if_true]
        refine ⟨hvalid, ?_⟩
        show 3 + 1 ≤ 1 + max 3 d.nThreads
        omega
    | releasing k p => exact ⟨trivial, le_rfl⟩
    | scan ptr i =>
      obtain rfl := Option.some.inj hnext
      rw [Access.exec_read]
      have hi : i < d.nThreads := hvalid
      by_cases hv : m (d.slotAddr i) = ptr
      · simp only [code, if_pos hv, accessesLeft]
        exact ⟨trivial, by omega⟩
      · by_cases hlast : i + 1 < d.nThreads
        · simp only [code, if_neg hv, if_pos hlast, accessesLeft]
          exact ⟨hlast, by omega⟩
        · simp only [code, if_neg hv, if_neg hlast, accessesLeft]
          exact ⟨trivial, by omega⟩
  retried := by
    intro l acc m _ hnext hfails
    cases l with
    | revalidate k ptrAddr p =>
      obtain rfl := Option.some.inj hnext
      rw [Access.exec_read] at hfails ⊢
      have hp : m ptrAddr ≠ p := of_decide_eq_true hfails
      simp only [code, if_neg hp]
      exact ⟨⟨ptrAddr, p, rfl, hp⟩, rfl⟩
    | _ => cases hfails
  relied := by
    intro l acc m a v hvalid hnext hwatch
    cases l with
    | idle => cases hnext
    | holding k p => cases hnext
    | load k ptrAddr =>
      obtain rfl := Option.some.inj hnext
      rw [Access.exec_read] at hwatch ⊢
      cases hwatch
      exact ⟨hvalid, Or.inl rfl⟩
    | publish k ptrAddr p =>
      obtain rfl := Option.some.inj hnext
      cases hwatch
      refine ⟨hvalid, ?_⟩
      rw [Access.exec_write]
      -- a slot that is itself the source pointer now holds what was read from it
      by_cases hslot : a = d.slotAddr k
      · subst hslot
        exact Or.inl (Function.update_self _ _ _)
      · exact Or.inr ⟨rfl, Function.update_of_ne hslot _ _⟩
    | revalidate k ptrAddr p =>
      obtain rfl := Option.some.inj hnext
      rw [Access.exec_read] at hwatch
      by_cases hp : m ptrAddr = p
      · simp only [code, if_pos hp, pointerRead, reduceCtorEq] at hwatch
      · simp only [code, if_neg hp, pointerRead, reduceCtorEq] at hwatch
    | releasing k p => cases hwatch
    | scan ptr i =>
      obtain rfl := Option.some.inj hnext
      rw [Access.exec_read] at hwatch
      by_cases hv : m (d.slotAddr i) = ptr
      · simp only [code, if_pos hv, pointerRead, reduceCtorEq] at hwatch
      · by_cases hlast : i + 1 < d.nThreads
        · simp only [code, if_neg hv, if_pos hlast, pointerRead, reduceCtorEq] at hwatch
        · simp only [code, if_neg hv, if_neg hlast, pointerRead, reduceCtorEq] at hwatch

/-- **`protect` is lock-free.** Readers protect through any source pointers, release and scan,
    and other code does anything to words that are no slots, the source pointers included.
    The second read of `protect` fails at most once for each write of a source pointer by
    others; and a thread makes at most `max 3 n_threads` accesses for each of its calls and
    for each such write. -/
theorem protect_lock_free (core : T → Fin n) (visits : ℕ → (c : Fin n) → VisitOrder c)
    (m : DutState n) (acts : List (ThreadAction T HazardOp Word Word)) (t : T) :
    let es := (d.code source tid).trace (dut core visits) (.start m .idle) acts
    retriesOf revalidationFails t es ≤ writesByOthers source t es ∧
      accessesOf t es ≤ max 3 d.nThreads * (commandsOf t es + writesByOthers source t es) := by
  intro es
  simp only [es, dut_trace]
  have hidle : (d.protectLoop source tid).valid .idle := trivial
  exact ⟨(d.protectLoop source tid).retries_le hidle rfl rfl acts t,
    (d.protectLoop source tid).accesses_le hidle rfl rfl acts t⟩

end HazardDomain

end MesiCoherence
