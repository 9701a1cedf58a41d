import Mathlib.Data.List.Induction

/-!
# Linearizability through commit points

A history of calls is linearizable when commit events can be placed in it, one
between the invocation and the return of each completed call, such that each call
returns what it committed and the commits, in their order, are a legal run of the
sequential object.

## Main definitions

- `CallEvent` — invocation, commit and return of a call
- `CallStatus`, `callStatus` — where a thread is in its calls
- `SeqObject`, `SeqObject.Legal` — a sequential object and its legal runs
- `Linearizable` — a history without commits that commits can be added to
-/

/-- What a thread shows of its calls. -/
inductive CallEvent (T Op Res : Type*) where
  | invoked (t : T) (op : Op)
  | committed (t : T) (op : Op) (res : Res)
  | returned (t : T) (res : Res)
  deriving DecidableEq, Repr

/-- Where a thread is in its current call. -/
inductive CallStatus (Op Res : Type*) where
  | idle
  | called (op : Op)
  | committed (op : Op) (res : Res)
  deriving DecidableEq, Repr

/-- A deterministic sequential object. -/
structure SeqObject (S Op Res : Type*) where
  apply : S → Op → S × Res

variable {T Op Res S : Type*}

namespace CallEvent

/-- The thread of an event. -/
def thread : CallEvent T Op Res → T
  | .invoked t _ => t
  | .committed t _ _ => t
  | .returned t _ => t

/-- The operation and result that an event commits. -/
def commit? : CallEvent T Op Res → Option (Op × Res)
  | .committed _ op res => some (op, res)
  | _ => none

/-- Is the event visible to the callers? -/
def visible (e : CallEvent T Op Res) : Bool := e.commit?.isNone

end CallEvent

/-- The commits of a history, in order. -/
def commits (es : List (CallEvent T Op Res)) : List (Op × Res) := es.filterMap CallEvent.commit?

/-- The history without its commits. -/
def visibleHistory (es : List (CallEvent T Op Res)) : List (CallEvent T Op Res) :=
  es.filter CallEvent.visible

section Status

variable [DecidableEq T] [DecidableEq Op] [DecidableEq Res]

/-- A call is invoked, commits once and returns the committed result. -/
def CallStatus.next : CallStatus Op Res → CallEvent T Op Res → Option (CallStatus Op Res)
  | .idle, .invoked _ op => some (.called op)
  | .called op, .committed _ op' res => if op' = op then some (.committed op res) else none
  | .committed _ res, .returned _ res' => if res' = res then some .idle else none
  | _, _ => none

/-- The status of thread `t` after a history, if its events are in order. -/
def callStatus (t : T) (es : List (CallEvent T Op Res)) : Option (CallStatus Op Res) :=
  es.foldl (fun st e => if e.thread = t then st.bind (·.next e) else st) (some .idle)

omit [DecidableEq T] [DecidableEq Op] [DecidableEq Res] in
@[simp] theorem commits_append (es fs : List (CallEvent T Op Res)) :
    commits (es ++ fs) = commits es ++ commits fs := List.filterMap_append

@[simp] theorem callStatus_nil (t : T) :
    callStatus t ([] : List (CallEvent T Op Res)) = some .idle := rfl

theorem callStatus_append_singleton (t : T) (es : List (CallEvent T Op Res))
    (e : CallEvent T Op Res) :
    callStatus t (es ++ [e]) =
      if e.thread = t then (callStatus t es).bind (·.next e) else callStatus t es := by
  unfold callStatus
  rw [List.foldl_append]
  rfl

theorem callStatus_append_of_ne {t : T} (es : List (CallEvent T Op Res))
    {fs : List (CallEvent T Op Res)} (h : ∀ e ∈ fs, e.thread ≠ t) :
    callStatus t (es ++ fs) = callStatus t es := by
  induction fs using List.reverseRecOn with
  | nil => rw [List.append_nil]
  | append_singleton fs e ih =>
    rw [← List.append_assoc, callStatus_append_singleton, if_neg (h e (by simp))]
    exact ih fun e' he' => h e' (List.mem_append_left _ he')

end Status

namespace SeqObject

variable (obj : SeqObject S Op Res)

/-- The state after a list of operations. -/
def final (s : S) (ops : List (Op × Res)) : S := ops.foldl (fun s o => (obj.apply s o.1).1) s

/-- Every operation returns the result listed for it. -/
def Legal : S → List (Op × Res) → Prop
  | _, [] => True
  | s, o :: ops => (obj.apply s o.1).2 = o.2 ∧ Legal (obj.apply s o.1).1 ops

theorem final_append (s : S) (ops : List (Op × Res)) (o : Op × Res) :
    obj.final s (ops ++ [o]) = (obj.apply (obj.final s ops) o.1).1 := by
  unfold final
  rw [List.foldl_append]
  rfl

theorem legal_append (s : S) (ops : List (Op × Res)) (o : Op × Res) :
    obj.Legal s (ops ++ [o]) ↔ obj.Legal s ops ∧ (obj.apply (obj.final s ops) o.1).2 = o.2 := by
  induction ops generalizing s with
  | nil => simp [Legal, final]
  | cons o' ops ih =>
    rw [List.cons_append, Legal, ih, Legal, and_assoc]
    rfl

end SeqObject

/-- Commits can be placed in the history so that every thread's calls are in order and
    the commits are a legal run of the sequential object. -/
def Linearizable [DecidableEq T] [DecidableEq Op] [DecidableEq Res] (obj : SeqObject S Op Res)
    (s : S) (history : List (CallEvent T Op Res)) : Prop :=
  ∃ es, visibleHistory es = history ∧ (∀ t, (callStatus t es).isSome) ∧ obj.Legal s (commits es)
