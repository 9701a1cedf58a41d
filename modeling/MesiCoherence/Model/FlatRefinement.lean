import MesiCoherence.Lib.Machine
import MesiCoherence.Model.MesiSystem
import MesiCoherence.Model.Operations

/-!
# The system refines one flat memory

Every call on the system returns what it returns on a flat memory, as long as no
core observes a word that its valid line lacks and that memory was preloaded
with. From zeroed memory there is no such word, so the refinement is
unconditional there.
-/

namespace MesiCoherence

variable {n : ℕ}

namespace MesiSystem

@[simp] theorem log_bus (s : MesiSystem n) (core : Fin n) (op : OpType) (a v : Word) :
    (s.log core op a v).bus = s.bus := by
  unfold log
  split <;> rfl

/-- The bus after a call, operation by operation. -/
theorem exec_bus (s : MesiSystem n) (c : Call n) :
    (s.exec c).1.bus =
      match c.access with
      | .read a => (s.bus.processorRead c.visit a).1
      | .write a v => (s.bus.acquireExclusive c.visit a).1.putWord c.core a v
      | .cas a expected v =>
        if (s.bus.acquireExclusive c.visit a).2 = expected then
          (s.bus.acquireExclusive c.visit a).1.putWord c.core a v
        else (s.bus.acquireExclusive c.visit a).1
      | .fetchAndAdd a d =>
        (s.bus.acquireExclusive c.visit a).1.putWord c.core a
          ((s.bus.acquireExclusive c.visit a).2 + d) := by
  unfold exec
  cases c.access with
  | read a => simp [read]
  | write a v => simp [write, SnoopingBus.processorWrite]
  | cas a expected v =>
    by_cases h : (s.bus.acquireExclusive c.visit a).2 = expected
    · simp [cas, h]
    · simp [cas, h]
  | fetchAndAdd a d => simp [fetchAndAdd]

/-- The reply of a call is determined by the word the operation found. -/
theorem exec_reply (s : MesiSystem n) (c : Call n) :
    (s.exec c).2 = c.access.reply
      (match c.access with
      | .read a => (s.bus.processorRead c.visit a).2
      | a => (s.bus.acquireExclusive c.visit a.addr).2) := by
  unfold exec
  cases c.access with
  | read a => rfl
  | write a v => rfl
  | cas a expected v => rfl
  | fetchAndAdd a d => rfl

end MesiSystem

/-- The call shows its caller a word that memory was preloaded with, that the caller's
    valid line lacks. -/
def LostPreload (base : Word → Word) (s : MesiSystem n) (c : Call n) : Prop :=
  c.access.Observes ∧ s.bus.MissingWord c.core c.access.addr ∧ base c.access.addr ≠ 0

/-- The inputs that no preloaded word gets lost to. -/
def KeepsPreload (base : Word → Word) (s : MesiSystem n) : Input n → Prop
  | .call c => ¬ LostPreload base s c
  | _ => True

variable {base flat : Word → Word} {s : MesiSystem n}

/-- A call that loses no preload behaves as on the represented memory. -/
theorem exec_refines (h : Coherent base flat s.bus) (c : Call n) (hk : ¬ LostPreload base s c) :
    Coherent base (c.access.exec flat).1 (s.exec c).1.bus ∧
      (s.exec c).2 = (c.access.exec flat).2 := by
  -- the word found is the represented one for every operation that looks at it
  have hold : c.access.Observes →
      (if s.bus.MissingWord c.core c.access.addr then 0 else flat c.access.addr) =
        flat c.access.addr := by
    intro ho
    split
    · next hm =>
      have hb : base c.access.addr = 0 := by
        by_contra hb
        exact hk ⟨ho, hm, hb⟩
      rw [h.eq_base_of_missing hm, hb]
    · rfl
  rw [s.exec_bus, s.exec_reply, Access.exec]
  cases ha : c.access with
  | read a =>
    rw [ha] at hold
    have hv : (s.bus.processorRead c.visit a).2 = flat a :=
      (h.processorRead_value c.visit a).trans (hold trivial)
    refine ⟨?_, congrArg (Access.reply · _) hv⟩
    simpa [Access.result, Access.addr] using h.processorRead c.visit a
  | write a v =>
    exact ⟨h.acquire_putWord c.visit a v, rfl⟩
  | cas a expected v =>
    rw [ha] at hold
    have hv : (s.bus.acquireExclusive c.visit a).2 = flat a :=
      (h.acquireExclusive_value c.visit a).trans (hold trivial)
    refine ⟨?_, congrArg (Access.reply · _) hv⟩
    by_cases he : flat a = expected
    · simpa [Access.result, Access.addr, hv, he] using h.acquire_putWord c.visit a v
    · simpa [Access.result, Access.addr, hv, he] using h.acquireExclusive c.visit a
  | fetchAndAdd a d =>
    rw [ha] at hold
    have hv : (s.bus.acquireExclusive c.visit a).2 = flat a :=
      (h.acquireExclusive_value c.visit a).trans (hold trivial)
    refine ⟨?_, congrArg (Access.reply · _) hv⟩
    simpa [Access.result, Access.addr, hv] using h.acquire_putWord c.visit a (flat a + d)

/-- A call that loses a preload returns 0 in place of the preloaded value. -/
theorem exec_lost (h : Coherent base flat s.bus) (c : Call n) (hl : LostPreload base s c) :
    (s.exec c).2 ≠ (c.access.exec flat).2 := by
  obtain ⟨ho, hm, hb⟩ := hl
  intro he
  have hflat := h.eq_base_of_missing hm
  have hval : (s.exec c).2 = c.access.reply 0 := by
    rw [s.exec_reply]
    cases ha : c.access with
    | read a =>
      rw [ha] at hm
      exact congrArg (Access.reply · _) ((h.processorRead_value c.visit a).trans (if_pos hm))
    | write a v =>
      rw [ha] at ho
      exact absurd ho id
    | cas a e v =>
      rw [ha] at hm
      exact congrArg (Access.reply · _) ((h.acquireExclusive_value c.visit a).trans (if_pos hm))
    | fetchAndAdd a d =>
      rw [ha] at hm
      exact congrArg (Access.reply · _) ((h.acquireExclusive_value c.visit a).trans (if_pos hm))
  rw [hval] at he
  have h0 := Access.reply_injective ho he
  rw [hflat] at h0
  exact hb h0.symm

/-- One input that keeps the preload is simulated by the flat machine. -/
theorem step_refines (h : Coherent base flat s.bus) (i : Input n) (hk : KeepsPreload base s i) :
    Coherent base ((flatMachine n).step flat i).1 ((MesiSystem.machine n).step s i).1.bus ∧
      ((MesiSystem.machine n).step s i).2 = ((flatMachine n).step flat i).2 := by
  cases i with
  | call c =>
    obtain ⟨hc, hr⟩ := exec_refines h c hk
    exact ⟨hc, congrArg some hr⟩
  | registerAddr a => exact ⟨h.registerAddr a, rfl⟩
  | enableTracing on => exact ⟨h, rfl⟩
  | clearTrace => exact ⟨h, rfl⟩

/-- From zeroed memory no input can lose a preload. -/
theorem keepsPreload_zero (s : MesiSystem n) (i : Input n) :
    KeepsPreload (fun _ => 0) s i := by
  cases i with
  | call c => exact fun hl => hl.2.2 rfl
  | registerAddr a => trivial
  | enableTracing on => trivial
  | clearTrace => trivial

/-- **Refinement of a flat memory.** On a fresh system with zeroed memory, every input
    sequence (calls of any cores with any visiting order, interleaved with address
    registrations and trace controls) returns exactly what it returns on one flat
    memory that is 0 everywhere. -/
theorem outputs_eq_flat (n : ℕ) (inputs : List (Input n)) :
    (MesiSystem.machine n).outputs (MesiSystem.new n) inputs =
      (flatMachine n).outputs (fun _ => 0) inputs := by
  have h0 : Coherent (fun _ => 0) (fun _ => 0) (MesiSystem.new n).bus := Coherent.newOver n .new
  refine (Machine.simulation (R := fun s flat => Coherent (fun _ => 0) flat s.bus) ?_ h0
    inputs).2
  intro s flat i h
  exact step_refines h i (keepsPreload_zero s i)

/-- Memory after a sequence of `bus().memory().write` calls. -/
def Memory.preload (words : List (Word × Word)) : Memory :=
  words.foldl (fun m w => m.write w.1 w.2) .new

/-- **Refinement over preloaded memory.** A fill copies only the words known at that
    moment, so a core that later touches a preloaded word of the line for the first
    time hits on a word it never fetched. A run agrees with the flat memory that
    starts with the preload exactly when no call observes such a word. -/
theorem outputs_eq_flat_preload_iff (n : ℕ) (preload : List (Word × Word))
    (inputs : List (Input n)) :
    (MesiSystem.machine n).outputs (MesiSystem.newOver n (.preload preload)) inputs =
        (flatMachine n).outputs (Memory.preload preload).read inputs ↔
      (MesiSystem.machine n).AllSteps (KeepsPreload (Memory.preload preload).read)
        (MesiSystem.newOver n (.preload preload)) inputs := by
  refine Machine.outputs_eq_iff
    (R := fun s flat => Coherent (Memory.preload preload).read flat s.bus) ?_ ?_
    (Coherent.newOver n (.preload preload)) inputs
  · intro s flat i h hk
    exact step_refines h i hk
  · intro s flat i h hl
    cases i with
    | call c =>
      intro he
      exact exec_lost h c (not_not.mp hl) (Option.some.inj he)
    | registerAddr a => exact absurd trivial hl
    | enableTracing on => exact absurd trivial hl
    | clearTrace => exact absurd trivial hl

/-- Memory is preloaded with 42 at 0x1004. Core 0 reads the word at 0x1000, then core 1
    reads 0x1004: both now share the line, and they disagree on 0x1004. -/
theorem preload_lost_on_late_word :
    let s := MesiSystem.newOver 2 (.preload [(0x1004, 42)])
    let touch : List (Input 2) := [.call (.plain 0 (.read 0x1000)), .call (.plain 1 (.read 0x1004))]
    let s' := (MesiSystem.machine 2).run s touch
    s'.lineState 0 0x1000 = .S ∧ s'.lineState 1 0x1000 = .S ∧
      (s'.exec (.plain 0 (.read 0x1004))).2 = .value 0 ∧
      (s'.exec (.plain 1 (.read 0x1004))).2 = .value 42 ∧
      (MesiSystem.machine 2).outputs s (touch ++ [.call (.plain 0 (.read 0x1004))]) ≠
        (flatMachine 2).outputs (Memory.preload [(0x1004, 42)]).read
          (touch ++ [.call (.plain 0 (.read 0x1004))]) := by
  decide

end MesiCoherence
