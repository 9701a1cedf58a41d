import Mathlib.Logic.Function.Basic
import MesiCoherence.Lib.Machine

/-!
# A flat memory with atomic accesses

The sequential object that a coherent memory system implements: one value per
address, read, written, compared-and-swapped or incremented in a single step.
-/

/-- One atomic access of a memory with addresses `A` and values `V`. -/
inductive Access (A V : Type*) where
  | read (addr : A)
  | write (addr : A) (value : V)
  | cas (addr : A) (expected newVal : V)
  | fetchAndAdd (addr : A) (delta : V)
  deriving DecidableEq, Repr

/-- What an access returns. -/
inductive Reply (V : Type*) where
  | done
  | value (v : V)
  | swap (oldVal : V) (success : Bool)
  deriving DecidableEq, Repr

namespace Access

variable {A V : Type*}

/-- The address accessed. -/
def addr : Access A V → A
  | .read a => a
  | .write a _ => a
  | .cas a _ _ => a
  | .fetchAndAdd a _ => a

/-- Does the caller see the old value of the word? -/
def Observes : Access A V → Prop
  | .write _ _ => False
  | _ => True

instance (acc : Access A V) : Decidable acc.Observes := by
  cases acc <;> unfold Observes <;> infer_instance

variable [DecidableEq V] [Add V]

/-- The reply of an access that finds `old` in the word. -/
def reply (old : V) : Access A V → Reply V
  | .read _ => .value old
  | .write _ _ => .done
  | .cas _ expected _ => .swap old (old = expected)
  | .fetchAndAdd _ _ => .value old

/-- The value an access leaves in a word in which it finds `old`. -/
def result (old : V) : Access A V → V
  | .read _ => old
  | .write _ v => v
  | .cas _ expected newVal => if old = expected then newVal else old
  | .fetchAndAdd _ delta => old + delta

/-- The value an access writes to a word in which it finds `old`, if it writes. -/
def stored (old : V) : Access A V → Option V
  | .read _ => none
  | .write _ v => some v
  | .cas _ expected newVal => if old = expected then some newVal else none
  | .fetchAndAdd _ delta => some (old + delta)

omit [Add V] in
/-- The old value can be read off the reply of an observing access. -/
theorem reply_injective {acc : Access A V} (ho : acc.Observes) {v w : V}
    (h : acc.reply v = acc.reply w) : v = w := by
  cases acc with
  | read a => exact Reply.value.inj h
  | write a x => exact absurd ho id
  | cas a e x => exact (Reply.swap.inj h).1
  | fetchAndAdd a d => exact Reply.value.inj h

variable [DecidableEq A]

/-- Execute an access on a flat memory. -/
def exec (m : A → V) (acc : Access A V) : (A → V) × Reply V :=
  (Function.update m acc.addr (acc.result (m acc.addr)), acc.reply (m acc.addr))

/-- The memory after an access, by what it wrote. -/
theorem exec_eq_stored (m : A → V) (acc : Access A V) :
    (acc.exec m).1 = (acc.stored (m acc.addr)).elim m (Function.update m acc.addr) := by
  cases acc with
  | read a => simp [exec, result, stored, addr]
  | write a v => rfl
  | cas a e v => by_cases h : m a = e <;> simp [exec, result, stored, addr, h]
  | fetchAndAdd a d => rfl

/-- Does the access leave the word at `a` alone, whatever it finds? -/
def keeps (a : A) : Access A V → Bool
  | .read _ => true
  | acc => acc.addr ≠ a

omit [DecidableEq V] [Add V] in
theorem keeps_of_ne {a : A} {acc : Access A V} (h : acc.addr ≠ a) : acc.keeps a = true := by
  cases acc with
  | read b => rfl
  | _ => exact decide_eq_true h

theorem exec_apply_of_keeps {a : A} {acc : Access A V} (h : acc.keeps a = true) (m : A → V) :
    (acc.exec m).1 a = m a := by
  cases acc with
  | read b => simp [exec, result, addr]
  | write b v => exact Function.update_of_ne (Ne.symm (of_decide_eq_true h)) _ _
  | cas b e v => exact Function.update_of_ne (Ne.symm (of_decide_eq_true h)) _ _
  | fetchAndAdd b d => exact Function.update_of_ne (Ne.symm (of_decide_eq_true h)) _ _

@[simp] theorem exec_read (m : A → V) (a : A) :
    (Access.read a : Access A V).exec m = (m, .value (m a)) := by
  simp [exec, addr, result, reply]

@[simp] theorem exec_write (m : A → V) (a : A) (v : V) :
    (Access.write a v).exec m = (Function.update m a v, .done) := rfl

/-- A compare-and-swap that finds the expected value. -/
theorem exec_cas_of_eq {m : A → V} {a : A} {e : V} (h : m a = e) (v : V) :
    (Access.cas a e v).exec m = (Function.update m a v, .swap (m a) true) := by
  simp [exec, addr, result, reply, h]

/-- A compare-and-swap that finds another value. -/
theorem exec_cas_of_ne {m : A → V} {a : A} {e : V} (h : m a ≠ e) (v : V) :
    (Access.cas a e v).exec m = (m, .swap (m a) false) := by
  simp [exec, addr, result, reply, h]

end Access
