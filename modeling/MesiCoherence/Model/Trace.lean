import MesiCoherence.Lib.SequentialConsistency
import MesiCoherence.Model.FlatRefinement

/-!
# Recorded traces

What `log` appends to the trace of a system, call by call: a read logs the value it
found, a write the value it wrote, and an atomic operation both. Timestamps increase
along the trace, and the events of each core are numbered from 0 on.
-/

namespace MesiCoherence

variable {n : ℕ}

/-- An operation of the trace as a load or a store. -/
def OpType.toMem (op : OpType) (addr value : Word) : MemEvent Word Word :=
  match op with
  | .read => .load addr value
  | .write => .store addr value

def TraceEvent.toMem (e : TraceEvent) : MemEvent Word Word := e.op.toMem e.addr e.value

/-- A trace as memory events of its cores. -/
def memEvents (trace : List TraceEvent) : List (ℤ × MemEvent Word Word) :=
  trace.map fun e => (e.coreId, e.toMem)

/-- What an access logs when it finds `old`: the operations and their values. -/
def logged (old : Word) : Access Word Word → List (OpType × Word)
  | .read _ => [(.read, old)]
  | .write _ v => [(.write, v)]
  | .cas _ expected newVal =>
    (.read, old) :: if old = expected then [(.write, newVal)] else []
  | .fetchAndAdd _ delta => [(.read, old), (.write, old + delta)]

/-- The same as memory events of a core. -/
def loggedMem (core : ℤ) (old : Word) (acc : Access Word Word) : List (ℤ × MemEvent Word Word) :=
  (logged old acc).map fun p => (core, p.1.toMem acc.addr p.2)

/-- A replay explains the events of an access exactly when it shows the value found. -/
theorem legalFrom_loggedMem (m : Word → Word) (core : ℤ) (old : Word) (acc : Access Word Word) :
    LegalFrom m (loggedMem core old acc) ↔ (acc.Observes → old = m acc.addr) := by
  cases acc with
  | read a => simp [loggedMem, logged, LegalFrom, OpType.toMem, MemEvent.Allowed, Access.Observes,
      Access.addr]
  | write a v => simp [loggedMem, logged, LegalFrom, OpType.toMem, MemEvent.Allowed,
      Access.Observes]
  | cas a e v =>
    by_cases h : old = e <;>
      simp [loggedMem, logged, LegalFrom, OpType.toMem, MemEvent.Allowed, Access.Observes,
        Access.addr, h]
  | fetchAndAdd a d => simp [loggedMem, logged, LegalFrom, OpType.toMem, MemEvent.Allowed,
      Access.Observes, Access.addr]

theorem replayed_loggedMem (m : Word → Word) (core : ℤ) (old : Word) (acc : Access Word Word) :
    replayed m (loggedMem core old acc) =
      (acc.stored old).elim m (Function.update m acc.addr) := by
  cases acc with
  | read a => rfl
  | write a v => rfl
  | cas a e v =>
    by_cases h : old = e <;>
      simp [loggedMem, logged, replayed, OpType.toMem, MemEvent.apply, Access.stored, Access.addr,
        h]
  | fetchAndAdd a d => rfl

namespace MesiSystem

/-- The word a call finds. -/
def found (s : MesiSystem n) (c : Call n) : Word :=
  match c.access with
  | .read a => (s.bus.processorRead c.visit a).2
  | a => (s.bus.acquireExclusive c.visit a.addr).2

/-- Log several operations on one address. -/
def logAll (s : MesiSystem n) (core : Fin n) (addr : Word) (ops : List (OpType × Word)) :
    MesiSystem n :=
  ops.foldl (fun s p => s.log core p.1 addr p.2) s

theorem log_withBus (s : MesiSystem n) (core : Fin n) (op : OpType) (a v : Word)
    (b : SnoopingBus n) :
    { s.log core op a v with bus := b } = { s with bus := b }.log core op a v := by
  unfold log
  split <;> rfl

/-- A call changes the bus and then logs what it found and wrote. -/
theorem exec_eq_logAll (s : MesiSystem n) (c : Call n) :
    (s.exec c).1 = { s with bus := (s.exec c).1.bus }.logAll c.core c.access.addr
      (logged (s.found c) c.access) := by
  rw [s.exec_bus, exec, found]
  cases c.access with
  | read a => rfl
  | write a v => rfl
  | cas a e v =>
    by_cases h : (s.bus.acquireExclusive c.visit a).2 = e
    · simp [cas, logAll, logged, h, Access.addr, log_withBus]
    · simp [cas, logAll, logged, h, Access.addr]
  | fetchAndAdd a d => simp [fetchAndAdd, logAll, logged, Access.addr, log_withBus]

/-- What is logged depends only on the represented memory. -/
theorem logged_found {flat : Word → Word} {s : MesiSystem n}
    (h : Coherent (fun _ => 0) flat s.bus) (c : Call n) :
    logged (s.found c) c.access = logged (flat c.access.addr) c.access := by
  by_cases ho : c.access.Observes
  · have hr := (exec_refines h c fun hl => hl.2.2 rfl).2
    rw [s.exec_reply] at hr
    have hold : s.found c = flat c.access.addr := Access.reply_injective ho hr
    rw [hold]
  · cases ha : c.access with
    | write a v => rfl
    | read a => simp [ha, Access.Observes] at ho
    | cas a e v => simp [ha, Access.Observes] at ho
    | fetchAndAdd a d => simp [ha, Access.Observes] at ho

@[simp] theorem log_tracing (s : MesiSystem n) (core : Fin n) (op : OpType) (a v : Word) :
    (s.log core op a v).tracing = s.tracing := by
  unfold log
  split <;> rfl

theorem logAll_tracing (s : MesiSystem n) (core : Fin n) (a : Word) (ops : List (OpType × Word)) :
    (s.logAll core a ops).tracing = s.tracing := by
  induction ops generalizing s with
  | nil => rfl
  | cons p ops ih => exact (ih _).trans (s.log_tracing core p.1 a p.2)

theorem log_memEvents (s : MesiSystem n) (core : Fin n) (op : OpType) (a v : Word) :
    memEvents (s.log core op a v).trace =
      memEvents s.trace ++ if s.tracing then [((core : ℤ), op.toMem a v)] else [] := by
  cases ht : s.tracing <;> simp [log, ht, memEvents, TraceEvent.toMem]

theorem logAll_memEvents (s : MesiSystem n) (core : Fin n) (a : Word)
    (ops : List (OpType × Word)) :
    memEvents (s.logAll core a ops).trace = memEvents s.trace ++
      if s.tracing then ops.map (fun p => ((core : ℤ), p.1.toMem a p.2)) else [] := by
  induction ops generalizing s with
  | nil => cases ht : s.tracing <;> simp [logAll]
  | cons p ops ih =>
    have hstep := ih (s.log core p.1 a p.2)
    rw [log_memEvents, log_tracing] at hstep
    refine hstep.trans ?_
    cases ht : s.tracing <;> simp

/-- A well-formed trace: timestamps increase and are in the past, and each core's events
    carry the numbers 0, 1, and so on. -/
structure TraceOk (s : MesiSystem n) : Prop where
  increasing : s.trace.Pairwise (·.timestamp < ·.timestamp)
  past : ∀ e ∈ s.trace, e.timestamp < s.timestamp
  core : ∀ e ∈ s.trace, ∃ c : Fin n, e.coreId = (c : ℤ)
  numbered : ∀ c : Fin n, (s.trace.filter (fun e => e.coreId = (c : ℤ))).map TraceEvent.programIdx =
    List.range (s.progIdx c)

theorem TraceOk.log {s : MesiSystem n} (h : s.TraceOk) (core : Fin n) (op : OpType)
    (a v : Word) : (s.log core op a v).TraceOk := by
  obtain ⟨hinc, hpast, hcore, hnum⟩ := h
  unfold MesiSystem.log
  split
  · exact ⟨hinc, fun e he => Nat.lt_succ_of_lt (hpast e he), hcore, hnum⟩
  · refine ⟨?_, ?_, ?_, ?_⟩
    · rw [List.pairwise_append]
      refine ⟨hinc, List.pairwise_singleton _ _, ?_⟩
      intro e he f hf
      rw [List.mem_singleton.mp hf]
      exact hpast e he
    · intro e he
      rcases List.mem_append.mp he with he | he
      · exact Nat.lt_succ_of_lt (hpast e he)
      · rw [List.mem_singleton.mp he]
        exact Nat.lt_succ_self _
    · intro e he
      rcases List.mem_append.mp he with he | he
      · exact hcore e he
      · rw [List.mem_singleton.mp he]
        exact ⟨core, rfl⟩
    · intro c
      by_cases hc : c = core
      · subst hc
        simp [hnum, List.range_succ]
      · have hne : ((core : ℕ) : ℤ) ≠ (c : ℕ) := by
          intro he
          exact hc (Fin.ext (by omega))
        simp [hnum, hc, hne]

theorem TraceOk.logAll {s : MesiSystem n} (h : s.TraceOk) (core : Fin n) (a : Word)
    (ops : List (OpType × Word)) : (s.logAll core a ops).TraceOk := by
  induction ops generalizing s with
  | nil => exact h
  | cons p ops ih => exact ih (h.log core p.1 a p.2)

theorem TraceOk.step {s : MesiSystem n} (h : s.TraceOk) (i : Input n) :
    ((machine n).step s i).1.TraceOk := by
  have hbus : ∀ b : SnoopingBus n, ({ s with bus := b } : MesiSystem n).TraceOk := fun b =>
    ⟨h.increasing, h.past, h.core, h.numbered⟩
  cases i with
  | call c =>
    show (s.exec c).1.TraceOk
    rw [exec_eq_logAll]
    exact (hbus _).logAll _ _ _
  | registerAddr a => exact hbus _
  | enableTracing on => exact ⟨h.increasing, h.past, h.core, h.numbered⟩
  | clearTrace => exact ⟨List.Pairwise.nil, by simp [machine, MesiSystem.step, clearTrace],
      by simp [machine, MesiSystem.step, clearTrace], fun _ => rfl⟩

end MesiSystem

-- ════════════════════════════════════════════════════════════════════════
-- The events of one call
-- ════════════════════════════════════════════════════════════════════════

/-- The call read its word and wrote it in one step: a fetch-and-add, or a
    compare-and-swap that succeeded. -/
def Call.Updates (c : Call n) (reply : Reply Word) : Prop :=
  match c.access, reply with
  | .fetchAndAdd _ _, _ => True
  | .cas _ _ _, .swap _ success => success = true
  | _, _ => False

/-- A call with its reply and the events it appended to the trace. -/
structure CallRecord (n : ℕ) where
  call : Call n
  reply : Reply Word
  events : List TraceEvent

/-- Nothing was recorded, or the read and then the write of the word by the caller, with
    consecutive timestamps and program indices. -/
def CallRecord.Paired (r : CallRecord n) : Prop :=
  r.events = [] ∨ ∃ e f, r.events = [e, f] ∧ e.op = .read ∧ f.op = .write ∧
    e.coreId = r.call.core ∧ f.coreId = r.call.core ∧ e.addr = r.call.access.addr ∧
    f.addr = r.call.access.addr ∧ f.timestamp = e.timestamp + 1 ∧
    f.programIdx = e.programIdx + 1

namespace MesiSystem

/-- The records of the calls since the last `clear_trace`, oldest first, appended to
    those of the calls before. -/
def records : MesiSystem n → List (CallRecord n) → List (Input n) → List (CallRecord n)
  | _, acc, [] => acc
  | s, acc, .call c :: is =>
    records (s.exec c).1
      (acc ++ [⟨c, (s.exec c).2, (s.exec c).1.trace.drop s.trace.length⟩]) is
  | s, _, .clearTrace :: is => records s.clearTrace [] is
  | s, acc, i :: is => records ((machine n).step s i).1 acc is

theorem log_trace_prefix (s : MesiSystem n) (core : Fin n) (op : OpType) (a v : Word) :
    s.trace <+: (s.log core op a v).trace := by
  unfold log
  split
  · exact List.prefix_refl _
  · exact List.prefix_append _ _

/-- A call only appends to the trace. -/
theorem exec_trace_prefix (s : MesiSystem n) (c : Call n) :
    s.trace <+: (s.exec c).1.trace := by
  have hall : ∀ (ops : List (OpType × Word)) (s : MesiSystem n),
      s.trace <+: (s.logAll c.core c.access.addr ops).trace := by
    intro ops
    induction ops with
    | nil => exact fun s => List.prefix_refl _
    | cons p ops ih =>
      intro s
      exact (s.log_trace_prefix c.core p.1 c.access.addr p.2).trans (ih _)
  rw [exec_eq_logAll]
  exact hall _ { s with bus := (s.exec c).1.bus }

/-- An atomic update logs its read and its write. -/
theorem logged_of_updates (s : MesiSystem n) (c : Call n) (h : c.Updates (s.exec c).2) :
    ∃ v, logged (s.found c) c.access = [(.read, s.found c), (.write, v)] := by
  rw [s.exec_reply] at h
  unfold found
  cases ha : c.access with
  | read a => simp [Call.Updates, ha] at h
  | write a v => simp [Call.Updates, ha] at h
  | cas a e v =>
    refine ⟨v, ?_⟩
    have hfound : (s.bus.acquireExclusive c.visit a).2 = e := by
      simpa [Call.Updates, ha, Access.reply, Access.addr] using h
    simp [logged, Access.addr, hfound]
  | fetchAndAdd a d => exact ⟨_, rfl⟩

/-- The record of an atomic update. -/
theorem paired_of_updates (s : MesiSystem n) (c : Call n) (h : c.Updates (s.exec c).2) :
    CallRecord.Paired ⟨c, (s.exec c).2, (s.exec c).1.trace.drop s.trace.length⟩ := by
  obtain ⟨v, hlog⟩ := s.logged_of_updates c h
  have htrace := congrArg MesiSystem.trace (s.exec_eq_logAll c)
  rw [hlog] at htrace
  unfold CallRecord.Paired
  cases ht : s.tracing with
  | false =>
    refine Or.inl ?_
    simp [htrace, logAll, log, ht]
  | true =>
    -- the second event is logged in the state the first one left
    refine Or.inr ⟨⟨c.core, .read, c.access.addr, s.found c, s.timestamp, s.progIdx c.core⟩,
      ⟨c.core, .write, c.access.addr, v, s.timestamp + 1, s.progIdx c.core + 1⟩, ?_, rfl, rfl,
      rfl, rfl, rfl, rfl, rfl, rfl⟩
    simp [htrace, logAll, log, ht]

/-- The trace is what the calls since the last clear recorded, call by call. -/
theorem trace_eq_records (inputs : List (Input n)) (s : MesiSystem n) (acc : List (CallRecord n))
    (hacc : s.trace = (acc.map CallRecord.events).flatten)
    (hpair : ∀ r ∈ acc, r.call.Updates r.reply → r.Paired) :
    ((machine n).run s inputs).trace =
        ((s.records acc inputs).map CallRecord.events).flatten ∧
      ∀ r ∈ s.records acc inputs, r.call.Updates r.reply → r.Paired := by
  induction inputs generalizing s acc with
  | nil => exact ⟨hacc, hpair⟩
  | cons i inputs ih =>
    cases i with
    | call c =>
      refine ih (s.exec c).1 _ ?_ ?_
      · obtain ⟨rest, hrest⟩ := s.exec_trace_prefix c
        simp [← hrest, hacc]
      · intro r hr
        rcases List.mem_append.mp hr with hr | hr
        · exact hpair r hr
        · rw [List.mem_singleton.mp hr]
          exact s.paired_of_updates c
    | registerAddr a => exact ih _ acc hacc hpair
    | enableTracing on => exact ih _ acc hacc hpair
    | clearTrace => exact ih s.clearTrace [] rfl (by simp)

/-- **Well-formed traces.** After any calls, toggles of tracing and clears: timestamps
    increase along the trace and lie before `now`; each core's events carry 0, 1, and so on
    up to its counter; and the trace is made of one block per call since the last clear,
    where an atomic update has either no event or its read and write side by side. -/
theorem trace_well_formed (n : ℕ) (inputs : List (Input n)) :
    let s := (machine n).run (new n) inputs
    s.trace.Pairwise (·.timestamp < ·.timestamp) ∧
    (∀ e ∈ s.trace, e.timestamp < s.now ∧ ∃ c : Fin n, e.coreId = (c : ℤ)) ∧
    (∀ c : Fin n, (s.trace.filter fun e => e.coreId = (c : ℤ)).map TraceEvent.programIdx =
      List.range (s.progIdx c)) ∧
    s.trace = (((new n).records [] inputs).map CallRecord.events).flatten ∧
    ∀ r ∈ (new n).records [] inputs, r.call.Updates r.reply → r.Paired := by
  have hnew : (new n).TraceOk :=
    ⟨.nil, by simp [new, newOver], by simp [new, newOver], fun _ => rfl⟩
  have hok : ((machine n).run (new n) inputs).TraceOk :=
    (machine n).run_invariant (P := TraceOk) (fun s i h => h.step i) hnew inputs
  obtain ⟨hblocks, hpairs⟩ := trace_eq_records inputs (new n) [] rfl (by simp)
  exact ⟨hok.increasing, fun e he => ⟨hok.past e he, hok.core e he⟩, hok.numbered, hblocks,
    hpairs⟩

/-- A traced fetch-and-add records two events. -/
theorem trace_well_formed_fetchAndAdd :
    ∃ r ∈ (new 2).records [] [.enableTracing true, .call (.plain 0 (.fetchAndAdd 0x40 5))],
      r.Paired ∧ r.events.length = 2 :=
  ⟨_, List.mem_singleton_self _, (trace_well_formed 2 [.enableTracing true,
    .call (.plain 0 (.fetchAndAdd 0x40 5))]).2.2.2.2 _ (List.mem_singleton_self _) trivial,
    by decide⟩

end MesiSystem

end MesiCoherence
