import Mathlib.Data.Finset.Card
import MesiCoherence.Lib.SharedObject
import MesiCoherence.Model.Types

/-!
# The Treiber stack

`primitives/lockfree_stack.hpp`: `push` and `pop` as local states between the accesses
they make through `Dut`. A push takes effect at its successful CAS, a pop that returns
a value at its successful CAS, and a pop that returns false at the read of `top` that
found 0.
-/

namespace MesiCoherence

/-- The addresses of a stack. -/
structure LockFreeStack where
  topAddr : Word
  allocAddr : Word
  nodeBase : Word
  deriving DecidableEq, Repr

inductive StackOp where
  | push (value : Word)
  | pop
  deriving DecidableEq, Repr

/-- What a call returns: `push` nothing, `pop` a value or false. -/
inductive StackRes where
  | done
  | value (v : Word)
  | empty
  deriving DecidableEq, Repr

/-- The program points of `push` and `pop`, each with its local variables. -/
inductive StackLocal where
  | pushAlloc (value : Word)
  | pushVal (value naddr : Word)
  | pushReadTop (naddr : Word)
  | pushWriteNext (naddr oldTop : Word)
  | pushCas (naddr oldTop : Word)
  | popReadTop
  | popReadNext (oldTop : Word)
  | popCas (oldTop next : Word)
  | popReadVal (oldTop : Word)
  | returning (res : StackRes)
  deriving DecidableEq, Repr

namespace LockFreeStack

variable (st : LockFreeStack)

/-- `init`: an empty stack and no node allocated. -/
def init (mem : Word → Word) : Word → Word :=
  Function.update (Function.update mem st.topAddr 0) st.allocAddr 0

def start : StackOp → StackLocal
  | .push v => .pushAlloc v
  | .pop => .popReadTop

/-- The access at a program point. -/
def next : StackLocal → Access Word Word ⊕ StackRes
  | .pushAlloc _ => .inl (.fetchAndAdd st.allocAddr 1)
  | .pushVal v naddr => .inl (.write (naddr + 4) v)
  | .pushReadTop _ => .inl (.read st.topAddr)
  | .pushWriteNext naddr oldTop => .inl (.write naddr oldTop)
  | .pushCas naddr oldTop => .inl (.cas st.topAddr oldTop naddr)
  | .popReadTop => .inl (.read st.topAddr)
  | .popReadNext oldTop => .inl (.read oldTop)
  | .popCas oldTop next => .inl (.cas st.topAddr oldTop next)
  | .popReadVal oldTop => .inl (.read (oldTop + 4))
  | .returning res => .inr res

/-- Where the call goes on with the reply to its access. -/
def resume : StackLocal → Reply Word → StackLocal
  | .pushAlloc v, .value old => .pushVal v (st.nodeBase + (old + 1) * 8)
  | .pushVal _ naddr, _ => .pushReadTop naddr
  | .pushReadTop naddr, .value oldTop => .pushWriteNext naddr oldTop
  | .pushWriteNext naddr oldTop, _ => .pushCas naddr oldTop
  | .pushCas naddr _, .swap _ success => if success then .returning .done else .pushReadTop naddr
  | .popReadTop, .value oldTop => if oldTop = 0 then .returning .empty else .popReadNext oldTop
  | .popReadNext oldTop, .value next => .popCas oldTop next
  | .popCas oldTop _, .swap _ success => if success then .popReadVal oldTop else .popReadTop
  | .popReadVal _, .value v => .returning (.value v)
  | l, _ => l

/-- `push` and `pop`. -/
def code : ObjectCode Word Word StackOp StackRes StackLocal := ⟨start, st.next, st.resume⟩

/-- The result with which the next access takes effect, if it does: the successful CAS
    of a push, the successful CAS of a pop with the value of the node then on top, and
    the read of an empty `top`. -/
def commit : StackLocal → (Word → Word) → Option StackRes
  | .pushCas _ oldTop, m => if m st.topAddr = oldTop then some .done else none
  | .popReadTop, m => if m st.topAddr = 0 then some .empty else none
  | .popCas oldTop _, m =>
    if m st.topAddr = oldTop then some (.value (m (oldTop + 4))) else none
  | _, _ => none

/-- The sequential LIFO stack, top first. -/
def lifo : SeqObject (List Word) StackOp StackRes where
  apply
    | vs, .push v => (v :: vs, .done)
    | [], .pop => ([], .empty)
    | v :: vs, .pop => (vs, .value v)

/-- The number of pushes called in a history. -/
def pushCalls {T : Type*} (es : List (CallEvent T StackOp StackRes)) : ℕ :=
  es.countP fun
    | .invoked _ (.push _) => true
    | _ => false

/-- The nodes of `pushes` pushes, from `node_base + 8` on, do not wrap around, do not
    contain the null address, and keep clear of `top_addr` and `alloc_addr`. -/
structure Fits (pushes : ℕ) : Prop where
  distinct : st.topAddr ≠ st.allocAddr
  no_wrap : (st.nodeBase + 8).toNat + 8 * pushes ≤ 2 ^ 32
  not_null : 0 < pushes → 0 < (st.nodeBase + 8).toNat
  top_outside : st.topAddr.toNat < (st.nodeBase + 8).toNat ∨
    (st.nodeBase + 8).toNat + 8 * pushes ≤ st.topAddr.toNat
  alloc_outside : st.allocAddr.toNat < (st.nodeBase + 8).toNat ∨
    (st.nodeBase + 8).toNat + 8 * pushes ≤ st.allocAddr.toNat

/-- The address of node `i`. -/
def node (i : ℕ) : Word := st.nodeBase + BitVec.ofNat 32 i * 8

variable {st}

theorem Fits.mono {k pushes : ℕ} (h : st.Fits pushes) (hk : k ≤ pushes) : st.Fits k := by
  obtain ⟨hd, hw, hn, ht, ha⟩ := h
  exact ⟨hd, by omega, fun _ => hn (by omega), by omega, by omega⟩

/-- Nodes lie one after the other in the node region. -/
theorem Fits.node_toNat {pushes i : ℕ} (h : st.Fits pushes) (h1 : 1 ≤ i) (hi : i ≤ pushes) :
    (st.node i).toNat = (st.nodeBase + 8).toNat + 8 * (i - 1) := by
  have hw := h.no_wrap
  have h8 : (8 : Word).toNat = 8 := rfl
  unfold node
  rw [BitVec.toNat_add, h8] at hw
  rw [BitVec.toNat_add, BitVec.toNat_add, BitVec.toNat_mul, BitVec.toNat_ofNat, h8]
  omega

/-- The node that `push` computes from the counter value it fetched. -/
theorem node_succ_eq (idx : Word) :
    st.nodeBase + (idx + 1) * 8 = st.node (idx.toNat + 1) := by
  unfold node
  rw [BitVec.ofNat_add, BitVec.ofNat_toNat, BitVec.setWidth_eq]
  rfl

/-- The address is one of the first `k` nodes. -/
def IsNode (st : LockFreeStack) (k : ℕ) (a : Word) : Prop := ∃ i, 1 ≤ i ∧ i ≤ k ∧ a = st.node i

/-- The two words of a node. -/
def Field (a x : Word) : Prop := x = a ∨ x = a + 4

/-- Where the words of a node lie. -/
theorem Fits.field_toNat {pushes i : ℕ} (h : st.Fits pushes) (h1 : 1 ≤ i) (hi : i ≤ pushes)
    {x : Word} (hx : Field (st.node i) x) :
    x.toNat = (st.nodeBase + 8).toNat + 8 * (i - 1) ∨
      x.toNat = (st.nodeBase + 8).toNat + 8 * (i - 1) + 4 := by
  have hw := h.no_wrap
  have hn := h.node_toNat h1 hi
  have h4 : (4 : Word).toNat = 4 := rfl
  rcases hx with rfl | rfl
  · exact Or.inl hn
  · refine Or.inr ?_
    rw [BitVec.toNat_add, hn, h4]
    omega

theorem Fits.field_ne {pushes : ℕ} (h : st.Fits pushes) {a x : Word} (ha : st.IsNode pushes a)
    (hx : Field a x) : x ≠ st.topAddr ∧ x ≠ st.allocAddr := by
  obtain ⟨i, h1, hi, rfl⟩ := ha
  have hn := h.field_toNat h1 hi hx
  have ht := h.top_outside
  have hal := h.alloc_outside
  constructor
  · rintro rfl
    omega
  · rintro rfl
    omega

/-- Different nodes share no word. -/
theorem Fits.eq_of_field {pushes : ℕ} (h : st.Fits pushes) {a b x : Word}
    (ha : st.IsNode pushes a) (hb : st.IsNode pushes b) (hxa : Field a x) (hxb : Field b x) :
    a = b := by
  obtain ⟨i, h1, hi, rfl⟩ := ha
  obtain ⟨j, h1', hj, rfl⟩ := hb
  have hni := h.field_toNat h1 hi hxa
  have hnj := h.field_toNat h1' hj hxb
  have hij : i = j := by omega
  rw [hij]

theorem Fits.node_ne_zero {pushes : ℕ} (h : st.Fits pushes) {a : Word}
    (ha : st.IsNode pushes a) : a ≠ 0 := by
  obtain ⟨i, h1, hi, rfl⟩ := ha
  intro he
  have hn := h.node_toNat h1 hi
  have hpos := h.not_null (by omega)
  have h0 : (0 : Word).toNat = 0 := rfl
  rw [he, h0] at hn
  omega

end LockFreeStack

end MesiCoherence
