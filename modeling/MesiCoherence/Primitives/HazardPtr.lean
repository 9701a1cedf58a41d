import MesiCoherence.Primitives.Dut

/-!
# Hazard pointers

`primitives/hazard_ptr.hpp`: a reader publishes the pointer it is about to use in its own
slot and reads the source pointer again before it uses the object. A thread that retires
an object scans all slots, and frees the object only if none holds it. The fence of
`protect` does nothing to memory and is no step.

This file has the code, and that a slot in use holds what its thread published.
-/

namespace MesiCoherence

/-- The slots at `hazardBase`, one per thread; there is room for 2^30 of them. -/
structure HazardDomain where
  hazardBase : Word
  nThreads : ℕ
  pos : 0 < nThreads
  room : nThreads ≤ 2 ^ 30

inductive HazardOp where
  | protect (ptrAddr : Word)
  | release
  | isHazarded (ptr : Word)
  deriving DecidableEq, Repr

/-- The program points of `protect`, `release` and `is_hazarded`, each with its local
    variables; `holding` is after a `protect` that returned `p`, before the `release`. -/
inductive HazardLocal where
  | idle
  | load (tid : ℕ) (ptrAddr : Word)
  | publish (tid : ℕ) (ptrAddr p : Word)
  | revalidate (tid : ℕ) (ptrAddr p : Word)
  | holding (tid : ℕ) (p : Word)
  | releasing (tid : ℕ) (p : Word)
  | scan (ptr : Word) (i : ℕ)
  deriving DecidableEq, Repr

namespace HazardLocal

/-- Between a `protect` that returned `o` and the end of its `release`. -/
def guards (o : Word) : HazardLocal → Bool
  | .holding _ p => p = o
  | .releasing _ p => p = o
  | _ => false

end HazardLocal

namespace HazardDomain

variable (d : HazardDomain)

/-- The slot of thread id `tid`. -/
def slotAddr (tid : ℕ) : Word := d.hazardBase + BitVec.ofNat 32 (4 * tid)

/-- `validate_tid`; `none` throws. -/
def validateTid (tid : ℤ) : Option ℕ :=
  if tid < 0 ∨ tid ≥ d.nThreads then none else some tid.toNat

/-- `protect`, `release` and `is_hazarded`, when thread `t` calls them with the id `tid t`. A
    thread protects through one of the pointers `source`, then releases; a call with an
    invalid id throws before it accesses memory. Other code does not write the slots. -/
def code {T : Type*} (source : Word → Bool) (tid : T → ℤ) :
    ThreadCode T Word Word HazardOp HazardLocal where
  command locals t
    | .protect ptrAddr =>
      if locals t = .idle ∧ source ptrAddr = true then
        (d.validateTid (tid t)).map fun k => .load k ptrAddr
      else none
    | .release =>
      match locals t with
      | .holding _ p => (d.validateTid (tid t)).map fun k => .releasing k p
      | _ => none
    | .isHazarded ptr => if locals t = .idle then some (.scan ptr 0) else none
  next
    | .idle => none
    | .load _ ptrAddr => some (.read ptrAddr)
    | .publish k _ p => some (.write (d.slotAddr k) p)
    | .revalidate _ ptrAddr _ => some (.read ptrAddr)
    | .holding _ _ => none
    | .releasing k _ => some (.write (d.slotAddr k) 0)
    | .scan _ i => some (.read (d.slotAddr i))
  resume
    | .load k ptrAddr, .value p => .publish k ptrAddr p
    | .publish k ptrAddr p, _ => .revalidate k ptrAddr p
    | .revalidate k ptrAddr p, .value v => if v = p then .holding k p else .load k ptrAddr
    | .releasing _ _, _ => .idle
    | .scan ptr i, .value v =>
      if v = ptr then .idle else if i + 1 < d.nThreads then .scan ptr (i + 1) else .idle
    | l, _ => l
  foreign acc := (List.range d.nThreads).all fun i => acc.keeps (d.slotAddr i)

/-- What `is_hazarded` returns when the access at a program point gets `reply`, if it returns
    then. -/
def hazarded : HazardLocal → Reply Word → Option Bool
  | .scan ptr i, .value v =>
    if v = ptr then some true else if i + 1 < d.nThreads then none else some false
  | _, _ => none

variable {d}

theorem slotAddr_inj {i j : ℕ} (hi : i < d.nThreads) (hj : j < d.nThreads) :
    d.slotAddr i = d.slotAddr j ↔ i = j := by
  have hroom := d.room
  rw [slotAddr, slotAddr, BitVec.add_right_inj, ← BitVec.toNat_inj, BitVec.toNat_ofNat,
    BitVec.toNat_ofNat, Nat.mod_eq_of_lt (by omega), Nat.mod_eq_of_lt (by omega)]
  omega

/-- A valid id names a slot. -/
theorem validateTid_eq_some {tid : ℤ} {k : ℕ} :
    d.validateTid tid = some k ↔ tid = k ∧ k < d.nThreads := by
  rw [validateTid]
  split
  · next hinvalid =>
    constructor
    · intro h
      cases h
    · rintro ⟨rfl, hk⟩
      omega
  · next hvalid =>
    rw [Option.some.injEq]
    omega

-- ════════════════════════════════════════════════════════════════════════
-- Who writes a slot
-- ════════════════════════════════════════════════════════════════════════

variable {T : Type*}

/-- The state of threads of a hazard domain over a flat memory. -/
abbrev State (T : Type*) := ThreadState T (Word → Word) HazardLocal

/-- What a thread that calls with the id `tid` knows of its slot, or of its scan. -/
def SlotOk (d : HazardDomain) (source : Word → Bool) (tid : ℤ) (m : Word → Word) :
    HazardLocal → Prop
  | .idle => True
  | .load k ptrAddr => d.validateTid tid = some k ∧ source ptrAddr = true
  | .publish k ptrAddr _ => d.validateTid tid = some k ∧ source ptrAddr = true
  | .revalidate k ptrAddr p =>
    d.validateTid tid = some k ∧ source ptrAddr = true ∧ m (d.slotAddr k) = p
  | .holding k p => d.validateTid tid = some k ∧ m (d.slotAddr k) = p
  | .releasing k p => d.validateTid tid = some k ∧ m (d.slotAddr k) = p
  | .scan _ i => i < d.nThreads

/-- Every slot in use holds what its thread published. -/
def SlotsOk (d : HazardDomain) (source : Word → Bool) (tid : T → ℤ) (s : State T) : Prop :=
  ∀ t, d.SlotOk source (tid t) s.mem (s.locals t)

/-- Threads with valid ids have different ones. -/
def DistinctTids (d : HazardDomain) (tid : T → ℤ) : Prop :=
  ∀ t u, (d.validateTid (tid t)).isSome → tid t = tid u → t = u

variable {source : Word → Bool} {tid : T → ℤ} {s : State T} {t : T} {m : Word → Word}
  {l : HazardLocal} {o p v : Word} {k i : ℕ}

/-- A step that leaves the thread's own slot alone. -/
theorem SlotOk.of_eq {j : ℤ} (h : d.SlotOk source j m l) {m' : Word → Word}
    (hslot : ∀ k, d.validateTid j = some k → m' (d.slotAddr k) = m (d.slotAddr k)) :
    d.SlotOk source j m' l := by
  cases l with
  | revalidate k ptrAddr p => exact ⟨h.1, h.2.1, (hslot k h.1).trans h.2.2⟩
  | holding k p => exact ⟨h.1, (hslot k h.1).trans h.2⟩
  | releasing k p => exact ⟨h.1, (hslot k h.1).trans h.2⟩
  | _ => exact h

/-- A step that leaves all slots alone. -/
theorem SlotsOk.setMem (h : d.SlotsOk source tid s)
    (hm : ∀ k < d.nThreads, m (d.slotAddr k) = s.mem (d.slotAddr k)) :
    d.SlotsOk source tid (s.setMem m) := by
  intro u
  apply (h u).of_eq
  intro k hk
  exact hm k (validateTid_eq_some.mp hk).2

/-- The slot of an object that `t` guards. -/
theorem SlotsOk.slot_of_guards (h : d.SlotsOk source tid s) (ht : (s.locals t).guards o = true) :
    ∃ k : ℕ, tid t = k ∧ k < d.nThreads ∧ s.mem (d.slotAddr k) = o := by
  have hok := h t
  cases hl : s.locals t with
  | holding k p =>
    rw [hl] at hok ht
    obtain rfl : p = o := of_decide_eq_true ht
    have hk := validateTid_eq_some.mp hok.1
    exact ⟨k, hk.1, hk.2, hok.2⟩
  | releasing k p =>
    rw [hl] at hok ht
    obtain rfl : p = o := of_decide_eq_true ht
    have hk := validateTid_eq_some.mp hok.1
    exact ⟨k, hk.1, hk.2, hok.2⟩
  | _ =>
    rw [hl] at ht
    cases ht

/-- A call of one of the three functions. -/
theorem SlotOk.command {locals : T → HazardLocal} {op : HazardOp}
    (h : d.SlotOk source (tid t) m (locals t))
    (hcmd : (d.code source tid).command locals t op = some l) : d.SlotOk source (tid t) m l := by
  cases op with
  | protect ptrAddr =>
    simp only [code] at hcmd
    split at hcmd
    · next hcall =>
      obtain ⟨k, hk, rfl⟩ := Option.map_eq_some_iff.mp hcmd
      exact ⟨hk, hcall.2⟩
    · cases hcmd
  | release =>
    simp only [code] at hcmd
    split at hcmd
    · next j p hl =>
      obtain ⟨k, hk, rfl⟩ := Option.map_eq_some_iff.mp hcmd
      rw [hl] at h
      obtain rfl : j = k := Option.some.inj (h.1.symm.trans hk)
      exact h
    · cases hcmd
  | isHazarded ptr =>
    simp only [code] at hcmd
    split at hcmd
    · cases hcmd
      exact d.pos
    · cases hcmd

/-- An access of one of the three functions. -/
theorem SlotOk.access {j : ℤ} {acc : Access Word Word} (h : d.SlotOk source j m l)
    (hnext : (d.code source tid).next l = some acc) :
    d.SlotOk source j (acc.exec m).1 ((d.code source tid).resume l (acc.exec m).2) := by
  cases l with
  | idle => cases hnext
  | holding k p => cases hnext
  | load k ptrAddr =>
    cases hnext
    rw [Access.exec_read]
    exact h
  | publish k ptrAddr p =>
    cases hnext
    exact ⟨h.1, h.2, Function.update_self _ _ _⟩
  | revalidate k ptrAddr p =>
    cases hnext
    rw [Access.exec_read]
    simp only [code]
    split
    · exact ⟨h.1, h.2.2⟩
    · exact ⟨h.1, h.2.1⟩
  | releasing k p =>
    cases hnext
    trivial
  | scan ptr i =>
    cases hnext
    rw [Access.exec_read]
    simp only [code]
    split
    · trivial
    · split
      · next hi => exact hi
      · trivial

/-- The accesses only read, but for the writes of the thread's own slot. -/
theorem SlotOk.exec_fst {j : ℤ} {acc : Access Word Word} (h : d.SlotOk source j m l)
    (hnext : (d.code source tid).next l = some acc) :
    (acc.exec m).1 = m ∨
      ∃ k v, d.validateTid j = some k ∧ (acc.exec m).1 = Function.update m (d.slotAddr k) v := by
  cases l with
  | idle => cases hnext
  | holding k p => cases hnext
  | publish k ptrAddr p =>
    cases hnext
    exact Or.inr ⟨k, p, h.1, rfl⟩
  | releasing k p =>
    cases hnext
    exact Or.inr ⟨k, 0, h.1, rfl⟩
  | _ =>
    cases hnext
    rw [Access.exec_read]
    exact Or.inl rfl

/-- `protect` returns what the source pointer holds. -/
theorem SlotOk.source_of_holding {j : ℤ} {acc : Access Word Word} (h : d.SlotOk source j m l)
    (hnext : (d.code source tid).next l = some acc)
    (hl : (d.code source tid).resume l (acc.exec m).2 = .holding k p) :
    ∃ ptrAddr, source ptrAddr = true ∧ m ptrAddr = p ∧ (acc.exec m).1 = m := by
  cases l with
  | revalidate k' ptrAddr q =>
    cases hnext
    rw [Access.exec_read] at hl ⊢
    simp only [code] at hl
    split at hl
    · next hq =>
      cases hl
      exact ⟨ptrAddr, h.2.1, hq, rfl⟩
    · cases hl
  | idle => cases hnext
  | holding k' q => cases hnext
  | scan ptr i =>
    cases hnext
    rw [Access.exec_read] at hl
    simp only [code] at hl
    split at hl
    · cases hl
    · split at hl <;> cases hl
  | load k' ptrAddr =>
    cases hnext
    rw [Access.exec_read] at hl
    cases hl
  | _ =>
    cases hnext
    cases hl

variable [DecidableEq T]

/-- A step of one thread. -/
theorem SlotsOk.setLocal (h : d.SlotsOk source tid s) (hl : d.SlotOk source (tid t) s.mem l) :
    d.SlotsOk source tid (s.setLocal t l) :=
  ThreadState.forall_setLocal (P := fun u l => d.SlotOk source (tid u) s.mem l) hl fun u _ => h u

omit [DecidableEq T] in
/-- The write of the slot of thread `t` leaves the slot of another thread alone. -/
theorem DistinctTids.update_slotAddr (hd : d.DistinctTids tid) {u : T} (hut : u ≠ t)
    (hk : d.validateTid (tid t) = some k) {j : ℕ} (hj : d.validateTid (tid u) = some j) :
    Function.update m (d.slotAddr k) v (d.slotAddr j) = m (d.slotAddr j) := by
  have hjk : j ≠ k := by
    rintro rfl
    have htid := (validateTid_eq_some.mp hj).1.trans (validateTid_eq_some.mp hk).1.symm
    exact hut (hd u t (by rw [hj]; rfl) htid)
  have hne : d.slotAddr j ≠ d.slotAddr k := by
    rw [Ne, slotAddr_inj (validateTid_eq_some.mp hj).2 (validateTid_eq_some.mp hk).2]
    exact hjk
  exact Function.update_of_ne hne _ _

/-- A thread writes its own slot. -/
theorem SlotsOk.writeSlot (h : d.SlotsOk source tid s) (hd : d.DistinctTids tid)
    (hk : d.validateTid (tid t) = some k)
    (hl : d.SlotOk source (tid t) (Function.update s.mem (d.slotAddr k) v) l) :
    d.SlotsOk source tid ((s.setMem (Function.update s.mem (d.slotAddr k) v)).setLocal t l) := by
  refine ThreadState.forall_setLocal (P := fun u l => d.SlotOk source (tid u) _ l) hl ?_
  intro u hut
  apply (h u).of_eq
  intro j hj
  exact hd.update_slotAddr hut hk hj

/-- The callers' commands. -/
theorem SlotsOk.command (h : d.SlotsOk source tid s) {op : HazardOp}
    (hcmd : (d.code source tid).command s.locals t op = some l) :
    d.SlotsOk source tid (s.setLocal t l) :=
  h.setLocal ((h t).command hcmd)

/-- The accesses of the three functions. -/
theorem SlotsOk.access (h : d.SlotsOk source tid s) (hd : d.DistinctTids tid)
    {acc : Access Word Word} (hnext : (d.code source tid).next (s.locals t) = some acc) :
    d.SlotsOk source tid ((s.setMem (acc.exec s.mem).1).setLocal t
      ((d.code source tid).resume (s.locals t) (acc.exec s.mem).2)) := by
  have hl := (h t).access hnext
  rcases (h t).exec_fst hnext with hm | ⟨k, v, hk, hm⟩
  · rw [hm] at hl ⊢
    exact h.setLocal hl
  · rw [hm] at hl ⊢
    exact h.writeSlot hd hk hl

omit [DecidableEq T] in
/-- Other code. -/
theorem SlotsOk.other (h : d.SlotsOk source tid s) {acc : Access Word Word}
    (hf : (d.code source tid).foreign acc = true) :
    d.SlotsOk source tid (s.setMem (acc.exec s.mem).1) := by
  apply h.setMem
  intro k hk
  exact Access.exec_apply_of_keeps (List.all_eq_true.mp hf k (List.mem_range.mpr hk)) s.mem

end HazardDomain

end MesiCoherence
