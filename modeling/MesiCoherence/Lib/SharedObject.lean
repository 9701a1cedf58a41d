import MesiCoherence.Lib.AtomicMemory
import MesiCoherence.Lib.Linearizability

/-!
# Objects implemented over a shared memory

Threads call the operations of an object. The code of an operation is a local state
that either performs one atomic access of the shared memory or returns; between two
accesses any other thread may run. A commit function marks the accesses at which
operations take effect.

## Main definitions

- `SharedMemory` — a memory accessed by threads, `SharedMemory.flat` the flat one
- `ObjectCode` — the code of the operations
- `ObjectCode.machine` — all interleavings of any number of threads
- `ObjectState.Effect` — the outcomes of one step

## Main results

- `ObjectCode.step_effect` — every step has one of the listed outcomes
- `ObjectCode.trace_invariant` — the invariant rule for states and events
-/

/-- A memory that threads access one atomic access at a time. -/
structure SharedMemory (T M A V : Type*) where
  exec : M → T → Access A V → M × Reply V

/-- The code of an object's operations, as local states between memory accesses. -/
structure ObjectCode (A V Op Res L : Type*) where
  start : Op → L
  next : L → Access A V ⊕ Res
  resume : L → Reply V → L

/-- The shared memory and the calls in progress. -/
structure ObjectState (T M Op L : Type*) where
  mem : M
  running : T → Option (Op × L)

/-- A thread calls an operation, or goes on with its call. -/
inductive ObjectAction (T Op : Type*) where
  | invoke (t : T) (op : Op)
  | step (t : T)
  deriving DecidableEq, Repr

variable {T M A V Op Res L : Type*}

/-- The flat memory, which treats all threads alike. -/
def SharedMemory.flat [DecidableEq A] [DecidableEq V] [Add V] : SharedMemory T (A → V) A V :=
  ⟨fun m _ acc => acc.exec m⟩

namespace ObjectState

variable [DecidableEq T]

/-- Thread `t` is now at local state `l` of its call. -/
def setLocal (s : ObjectState T M Op L) (t : T) (c : Option (Op × L)) : ObjectState T M Op L :=
  { s with running := Function.update s.running t c }

@[simp] theorem setLocal_mem (s : ObjectState T M Op L) (t : T) (c : Option (Op × L)) :
    (s.setLocal t c).mem = s.mem := rfl

@[simp] theorem setLocal_running_self (s : ObjectState T M Op L) (t : T) (c : Option (Op × L)) :
    (s.setLocal t c).running t = c := Function.update_self _ _ _

@[simp] theorem setLocal_running_of_ne (s : ObjectState T M Op L) {t u : T} (h : u ≠ t)
    (c : Option (Op × L)) : (s.setLocal t c).running u = s.running u :=
  Function.update_of_ne h _ _

/-- No call is in progress. -/
def idle (m : M) : ObjectState T M Op L := ⟨m, fun _ => none⟩

end ObjectState

namespace ObjectCode

variable [DecidableEq T] (code : ObjectCode A V Op Res L) (memory : SharedMemory T M A V)
  (commit : L → M → Option Res)

/-- One step; an action that its thread cannot take leaves everything unchanged. -/
def step (s : ObjectState T M Op L) :
    ObjectAction T Op → ObjectState T M Op L × List (CallEvent T Op Res)
  | .invoke t op =>
    match s.running t with
    | none => (s.setLocal t (some (op, code.start op)), [.invoked t op])
    | some _ => (s, [])
  | .step t =>
    match s.running t with
    | none => (s, [])
    | some (op, l) =>
      match code.next l with
      | .inr res => (s.setLocal t none, [.returned t res])
      | .inl acc =>
        let r := memory.exec s.mem t acc
        (⟨r.1, Function.update s.running t (some (op, code.resume l r.2))⟩,
          ((commit l s.mem).map (CallEvent.committed t op)).toList)

/-- All interleavings of the threads' steps. -/
def machine : Machine (ObjectState T M Op L) (ObjectAction T Op) (List (CallEvent T Op Res)) :=
  ⟨code.step memory commit⟩

/-- The events of a run, oldest first. -/
def trace (s : ObjectState T M Op L) (acts : List (ObjectAction T Op)) :
    List (CallEvent T Op Res) :=
  ((code.machine memory commit).outputs s acts).flatten

/-- The outcomes of one step. -/
inductive Effect (s : ObjectState T M Op L) :
    ObjectState T M Op L → List (CallEvent T Op Res) → Prop where
  | stutter : Effect s s []
  | invoked (t : T) (op : Op) (hidle : s.running t = none) :
      Effect s (s.setLocal t (some (op, code.start op))) [.invoked t op]
  | returned (t : T) (op : Op) (l : L) (res : Res) (hrun : s.running t = some (op, l))
      (hnext : code.next l = .inr res) : Effect s (s.setLocal t none) [.returned t res]
  | accessed (t : T) (op : Op) (l : L) (acc : Access A V) (hrun : s.running t = some (op, l))
      (hnext : code.next l = .inl acc) :
      Effect s ⟨(memory.exec s.mem t acc).1,
          Function.update s.running t (some (op, code.resume l (memory.exec s.mem t acc).2))⟩
        ((commit l s.mem).map (CallEvent.committed t op)).toList

theorem step_effect (s : ObjectState T M Op L) (act : ObjectAction T Op) :
    code.Effect memory commit s (code.step memory commit s act).1
      (code.step memory commit s act).2 := by
  cases act with
  | invoke t op =>
    cases hrun : s.running t with
    | none =>
      simp only [step, hrun]
      exact .invoked t op hrun
    | some c =>
      simp only [step, hrun]
      exact .stutter
  | step t =>
    cases hrun : s.running t with
    | none =>
      simp only [step, hrun]
      exact .stutter
    | some c =>
      obtain ⟨op, l⟩ := c
      cases hnext : code.next l with
      | inr res =>
        simp only [step, hrun, hnext]
        exact .returned t op l res hrun hnext
      | inl acc =>
        simp only [step, hrun, hnext]
        exact .accessed t op l acc hrun hnext

theorem trace_append (s : ObjectState T M Op L) (acts : List (ObjectAction T Op))
    (act : ObjectAction T Op) :
    code.trace memory commit s (acts ++ [act]) = code.trace memory commit s acts ++
      (code.step memory commit ((code.machine memory commit).run s acts) act).2 := by
  unfold trace
  rw [Machine.outputs_append, List.flatten_append]
  exact congrArg _ (List.append_nil _)

/-- **Trace invariant rule**: a property of the events so far and the state that every
    outcome of a step keeps, as long as the events satisfy `C`, holds along every run
    whose events satisfy `C`. -/
theorem trace_invariant {P : List (CallEvent T Op Res) → ObjectState T M Op L → Prop}
    {C : List (CallEvent T Op Res) → Prop} (hC : ∀ es fs, C (es ++ fs) → C es)
    {s₀ : ObjectState T M Op L} (h0 : P [] s₀)
    (hstep : ∀ es s s' fs, P es s → C (es ++ fs) → code.Effect memory commit s s' fs →
      P (es ++ fs) s')
    (acts : List (ObjectAction T Op)) (h : C (code.trace memory commit s₀ acts)) :
    P (code.trace memory commit s₀ acts) ((code.machine memory commit).run s₀ acts) := by
  induction acts using List.reverseRecOn with
  | nil => exact h0
  | append_singleton acts act ih =>
    rw [trace_append] at h ⊢
    rw [Machine.run_append]
    exact hstep _ _ _ _ (ih (hC _ _ h)) h (code.step_effect memory commit _ act)

end ObjectCode
