import MesiCoherence.Checker.Search
import MesiCoherence.Model.Trace

/-!
# Checking the traces of the model

A trace recorded from the start is accepted by both checkers. A recording that started
late, was suspended or was cleared misses stores, and the replay, which starts from
zeroed memory, then rejects a read of such a store although memory is coherent.
-/

namespace MesiCoherence

variable {n : ℕ}

-- ════════════════════════════════════════════════════════════════════════
-- The replay
-- ════════════════════════════════════════════════════════════════════════

theorem replay_ok (size : ℕ) (mem : Word → Option Word) (t : List TraceEvent) :
    (replay size mem t).ok = true ↔ LegalFrom (lookup mem) (memEvents t) := by
  induction t generalizing mem with
  | nil => simp [replay, memEvents, LegalFrom]
  | cons e t ih =>
    cases hop : e.op with
    | write =>
      have hrest := ih (Function.update mem e.addr (some e.value))
      rw [lookup_update] at hrest
      simpa [replay, hop, memEvents, LegalFrom, TraceEvent.toMem, OpType.toMem, MemEvent.Allowed,
        MemEvent.apply] using hrest
    | read =>
      have hrest := ih mem
      by_cases hv : e.value = lookup mem e.addr
      · simpa [replay, hop, hv, memEvents, LegalFrom, TraceEvent.toMem, OpType.toMem,
          MemEvent.Allowed, MemEvent.apply] using hrest
      · simp [replay, hop, hv, memEvents, LegalFrom, TraceEvent.toMem, OpType.toMem,
          MemEvent.Allowed]

/-- A recorded trace is already in timestamp order. -/
theorem checkSerialOrder_ok {s : MesiSystem n} (h : s.TraceOk) :
    (checkSerialOrder s.trace).ok = true ↔ LegalFrom (fun _ => 0) (memEvents s.trace) := by
  have hsort : s.trace.insertionSort (fun a b => a.timestamp ≤ b.timestamp) = s.trace :=
    (h.increasing.imp fun h => h.le).insertionSort_eq
  rw [checkSerialOrder, hsort, replay_ok]
  rfl

-- ════════════════════════════════════════════════════════════════════════
-- What a recording misses
-- ════════════════════════════════════════════════════════════════════════

/-- The memory that all stores make, the memory that the stores recorded since the last
    clear make, and whether the system is recording. -/
structure Recording where
  flat : Word → Word
  seen : Word → Word
  tracing : Bool

namespace Recording

/-- A fresh system records nothing yet. -/
def new : Recording := ⟨fun _ => 0, fun _ => 0, false⟩

def step (r : Recording) : Input n → Recording
  | .call c =>
    { r with
      flat := (c.access.exec r.flat).1
      seen := if r.tracing then
          (c.access.stored (r.flat c.access.addr)).elim r.seen
            (Function.update r.seen c.access.addr)
        else r.seen }
  | .registerAddr _ => r
  | .enableTracing on => { r with tracing := on }
  | .clearTrace => { r with seen := fun _ => 0 }

def machine (n : ℕ) : Machine Recording (Input n) Unit := ⟨fun r i => (r.step i, ())⟩

/-- A recorded call that observes a word finds there what the recorded stores left. -/
def Explains (r : Recording) : Input n → Prop
  | .call c => r.tracing = true → c.access.Observes →
    r.flat c.access.addr = r.seen c.access.addr
  | _ => True

end Recording

/-- The recording of a system. -/
structure Records (s : MesiSystem n) (r : Recording) : Prop where
  coherent : Coherent (fun _ => 0) r.flat s.bus
  tracing : s.tracing = r.tracing
  traceOk : s.TraceOk
  seen : replayed (fun _ => 0) (memEvents s.trace) = r.seen

namespace Records

variable {s : MesiSystem n} {r : Recording}

theorem new (n : ℕ) : Records (MesiSystem.new n) .new :=
  ⟨Coherent.newOver n .new, rfl,
    ⟨List.Pairwise.nil, by simp [MesiSystem.new, MesiSystem.newOver],
      by simp [MesiSystem.new, MesiSystem.newOver], fun _ => rfl⟩, rfl⟩

/-- What a call appends to the trace. -/
theorem exec_memEvents (h : Records s r) (c : Call n) :
    memEvents (s.exec c).1.trace = memEvents s.trace ++
      if r.tracing then loggedMem (c.core : ℤ) (r.flat c.access.addr) c.access else [] := by
  rw [MesiSystem.exec_eq_logAll, MesiSystem.logAll_memEvents, MesiSystem.logged_found h.coherent,
    ← h.tracing]
  rfl

theorem step (h : Records s r) (i : Input n) :
    Records ((MesiSystem.machine n).step s i).1 (r.step i) := by
  have hco := (step_refines h.coherent i (keepsPreload_zero s i)).1
  have hok := h.traceOk.step i
  cases i with
  | call c =>
    refine ⟨hco, ?_, hok, ?_⟩
    · show (s.exec c).1.tracing = r.tracing
      rw [MesiSystem.exec_eq_logAll, MesiSystem.logAll_tracing]
      exact h.tracing
    · show replayed _ (memEvents (s.exec c).1.trace) = (r.step (.call c)).seen
      rw [h.exec_memEvents, replayed_append, h.seen]
      cases ht : r.tracing with
      | false => simp [Recording.step, ht, replayed]
      | true => simp [Recording.step, ht, replayed_loggedMem]
  | registerAddr a => exact ⟨hco, h.tracing, hok, h.seen⟩
  | enableTracing on => exact ⟨hco, rfl, hok, h.seen⟩
  | clearTrace => exact ⟨hco, h.tracing, hok, rfl⟩

theorem run (h : Records s r) (inputs : List (Input n)) :
    Records ((MesiSystem.machine n).run s inputs) ((Recording.machine n).run r inputs) := by
  induction inputs generalizing s r with
  | nil => exact h
  | cons i is ih => exact ih (h.step i)

/-- A legal trace stays legal exactly over the inputs that its recording explains. -/
theorem legal_step (h : Records s r) (hlegal : LegalFrom (fun _ => 0) (memEvents s.trace))
    (i : Input n) :
    LegalFrom (fun _ => 0) (memEvents ((MesiSystem.machine n).step s i).1.trace) ↔
      r.Explains i := by
  cases i with
  | call c =>
    show LegalFrom _ (memEvents (s.exec c).1.trace) ↔ _
    rw [h.exec_memEvents, legalFrom_append, h.seen, and_iff_right hlegal]
    cases ht : r.tracing with
    | false => simp [LegalFrom, Recording.Explains, ht]
    | true => simp [legalFrom_loggedMem, Recording.Explains, ht]
  | registerAddr a => exact iff_of_true hlegal trivial
  | enableTracing on => exact iff_of_true hlegal trivial
  | clearTrace => exact iff_of_true trivial trivial

end Records

/-- **When a recorded trace is accepted.** Along any run of a fresh system, with any
    toggling and clearing of the trace, `check_serial_order` accepts the trace at every
    point exactly when every recorded read, compare-and-swap and fetch-and-add finds what
    the stores recorded since the last clear left in its word. -/
theorem checkSerialOrder_ok_iff (n : ℕ) (inputs : List (Input n)) :
    (∀ k, (checkSerialOrder
      ((MesiSystem.machine n).run (.new n) (inputs.take k)).trace).ok = true) ↔
      (Recording.machine n).AllSteps Recording.Explains .new inputs := by
  symm
  refine (Recording.machine n).allSteps_iff_take
    (P := fun is => (checkSerialOrder ((MesiSystem.machine n).run (.new n) is).trace).ok = true)
    rfl ?_ inputs
  intro is i hok
  have hrec := (Records.new n).run is
  rw [checkSerialOrder_ok hrec.traceOk] at hok
  rw [Machine.run_append]
  exact (checkSerialOrder_ok (hrec.traceOk.step i)).trans (hrec.legal_step hok i)

/-- A store made before tracing was switched on: the first recorded read is rejected. -/
theorem read_of_untraced_store_rejected :
    (checkSerialOrder ((MesiSystem.machine 1).run (.new 1)
      [.call (.plain 0 (.write 0x10 5)), .enableTracing true,
        .call (.plain 0 (.read 0x10))]).trace).ok = false := by
  decide

-- ════════════════════════════════════════════════════════════════════════
-- Runs traced from the start
-- ════════════════════════════════════════════════════════════════════════

theorem coreId_le_maxCore {trace : List TraceEvent} {e : TraceEvent} (he : e ∈ trace) :
    e.coreId ≤ maxCore trace := by
  have hfold : ∀ (t : List TraceEvent) (m : ℤ),
      m ≤ t.foldl (fun m e => max m e.coreId) m ∧
        ∀ e ∈ t, e.coreId ≤ t.foldl (fun m e => max m e.coreId) m := by
    intro t
    induction t with
    | nil => simp
    | cons f t ih =>
      intro m
      obtain ⟨hm, ht⟩ := ih (max m f.coreId)
      refine ⟨(le_max_left _ _).trans hm, fun e he => ?_⟩
      rcases List.mem_cons.mp he with rfl | he
      · exact (le_max_right _ _).trans hm
      · exact ht e he
  exact (hfold trace (-1)).2 e he

/-- The events of a core, as the search buckets them. -/
theorem threadEvents_memEvents (trace : List TraceEvent) (core : ℤ) :
    threadEvents core (memEvents trace) =
      (trace.filter (fun e => e.coreId = core)).map TraceEvent.toMem := by
  induction trace with
  | nil => rfl
  | cons e trace ih =>
    show threadEvents core ((e.coreId, e.toMem) :: memEvents trace) = _
    by_cases he : e.coreId = core
    · rw [he, threadEvents_cons_self, ih]
      simp [he]
    · rw [threadEvents_cons_of_ne (Ne.symm he), ih]
      simp [he]

/-- The buckets of a recorded trace are in program order already. -/
theorem MesiSystem.TraceOk.bucket_eq {s : MesiSystem n} (h : s.TraceOk) (c : ℕ) :
    bucket s.trace c = s.trace.filter (fun e => e.coreId = (c : ℤ)) := by
  refine List.Pairwise.insertionSort_eq ?_
  by_cases hc : c < n
  · have hnum := h.numbered ⟨c, hc⟩
    have hlt : ((s.trace.filter (fun e => e.coreId = (c : ℤ))).map
        TraceEvent.programIdx).Pairwise (· < ·) := by
      rw [hnum]
      exact List.pairwise_lt_range
    rw [List.pairwise_map] at hlt
    exact hlt.imp fun h => h.le
  · have hnil : s.trace.filter (fun e => e.coreId = (c : ℤ)) = [] := by
      rw [List.filter_eq_nil_iff]
      intro e he hid
      obtain ⟨d, hd⟩ := h.core e he
      have hid' := of_decide_eq_true hid
      have := d.isLt
      omega
    rw [hnil]
    exact List.Pairwise.nil

/-- The search finds the order of a legal recorded trace. -/
theorem existsScOrder_of_legal {s : MesiSystem n} (h : s.TraceOk)
    (hlegal : LegalFrom (fun _ => 0) (memEvents s.trace)) :
    existsScOrder s.trace = some true := by
  by_cases hmax : maxCore s.trace < 0
  · rw [existsScOrder, if_pos hmax]
  · obtain ⟨b, hb, hiff⟩ := existsScOrder_eq s.trace (not_lt.mp hmax)
    have hcores : ∀ x ∈ memEvents s.trace,
        ∃ c : Fin (maxCore s.trace + 1).toNat, ((c : ℕ) : ℤ) = x.1 := by
      intro x hx
      obtain ⟨e, he, rfl⟩ := List.mem_map.mp hx
      obtain ⟨d, hd⟩ := h.core e he
      have hle := coreId_le_maxCore he
      exact ⟨⟨d, by omega⟩, hd.symm⟩
    have hser := serializable_of_legalFrom
      (fun c d hcd => Fin.ext (Int.ofNat_inj.mp hcd)) hcores hlegal
    simp only [threadEvents_memEvents, ← h.bucket_eq] at hser
    rw [hb, hiff.mpr hser]

/-- A system whose recording has missed nothing, and is legal. -/
structure FullyTraced (s : MesiSystem n) (r : Recording) : Prop where
  records : Records s r
  tracing : r.tracing = true
  seen : r.seen = r.flat
  legal : LegalFrom (fun _ => 0) (memEvents s.trace)

namespace FullyTraced

theorem new (n : ℕ) :
    FullyTraced ((MesiSystem.new n).enableTracing true) ⟨fun _ => 0, fun _ => 0, true⟩ :=
  ⟨(Records.new n).step (.enableTracing true), rfl, rfl, trivial⟩

theorem call {s : MesiSystem n} {r : Recording} (h : FullyTraced s r) (c : Call n) :
    FullyTraced (s.exec c).1 (r.step (.call c)) := by
  refine ⟨h.records.step (.call c), h.tracing, ?_, ?_⟩
  · simp only [Recording.step, h.tracing, if_true, h.seen, Access.exec_eq_stored]
  · refine (h.records.legal_step h.legal (.call c)).mpr ?_
    intro _ _
    rw [h.seen]

theorem run {s : MesiSystem n} {r : Recording} (h : FullyTraced s r) (calls : List (Call n)) :
    ∃ r', FullyTraced ((MesiSystem.machine n).run s (calls.map .call)) r' := by
  induction calls generalizing s r with
  | nil => exact ⟨r, h⟩
  | cons c calls ih => exact ih (h.call c)

end FullyTraced

/-- **Traced runs are sequentially consistent.** If tracing is on before the first call
    and stays on, both checkers accept the trace of any sequence of calls. -/
theorem traced_run_accepted (n : ℕ) (calls : List (Call n)) :
    let s := (MesiSystem.machine n).run ((MesiSystem.new n).enableTracing true)
      (calls.map .call)
    (checkSerialOrder s.trace).ok = true ∧ existsScOrder s.trace = some true := by
  intro s
  obtain ⟨r, h⟩ := (FullyTraced.new n).run calls
  exact ⟨(checkSerialOrder_ok h.records.traceOk).mpr h.legal,
    existsScOrder_of_legal h.records.traceOk h.legal⟩

end MesiCoherence
