import Mathlib.Data.List.DropRight
import Mathlib.Data.List.Perm.Basic
import MesiCoherence.Tso.Effects

/-!
# A fence is a full store barrier

The methods of one `StoreBuffer` as whole calls, in both drain modes. Drains may reorder
the stores of a stretch between two fences, but what a stretch stored is written as one
block: an `mfence` empties the buffer, so no later store overtakes it. `MemoryStep` lists
what the calls do to the memory system, so that what is written is also what is visible.
-/

namespace MesiCoherence

variable {n : ℕ}

/-- One step of the memory system on behalf of a core with a store buffer. -/
inductive MemoryStep (core : Fin n) where
  /-- the buffer writes an entry -/
  | drain (visit : VisitOrder core) (e : SBEntry)
  /-- a load that the buffer does not answer -/
  | fetch (visit : VisitOrder core) (addr : Word)
  /-- `mfence` counts an entry that it has written -/
  | countDrain
  /-- a call that bypasses the buffer -/
  | direct (call : Call n)

namespace MemoryStep

variable {core : Fin n}

def apply (sys : MesiSystem n) : MemoryStep core → MesiSystem n
  | .drain visit e => sys.write visit e.addr e.val
  | .fetch visit addr => (sys.read visit addr).1
  | .countDrain =>
    let perf := { sys.bus.perf with
      sbDrainCycles := PerfCounters.bump sys.bus.perf.sbDrainCycles core }
    { sys with bus := { sys.bus with perf := perf } }
  | .direct call => (sys.exec call).1

/-- The step on a flat memory. -/
def applyFlat (flat : Word → Word) : MemoryStep core → Word → Word
  | .drain _ e => Function.update flat e.addr e.val
  | .direct call => (call.access.exec flat).1
  | _ => flat

/-- The entry that a step writes for the buffer. -/
def drained? : MemoryStep core → Option SBEntry
  | .drain _ e => some e
  | _ => none

/-- The writes of `drain_all`. -/
def drains (visits : ℕ → VisitOrder core) (es : List SBEntry) : List (MemoryStep core) :=
  es.mapIdx fun k e => .drain (visits k) e

/-- The writes of `mfence`, each followed by its count. -/
def fenceDrains (visits : ℕ → VisitOrder core) (es : List SBEntry) : List (MemoryStep core) :=
  (es.mapIdx fun k e => [.drain (visits k) e, .countDrain]).flatten

theorem apply_represents {sys : MesiSystem n} {flat : Word → Word} (h : sys.Represents flat)
    (step : MemoryStep core) : (apply sys step).Represents (step.applyFlat flat) := by
  cases step with
  | drain visit e => exact h.write visit e.addr e.val
  | fetch visit addr => exact (h.read visit addr).1
  | countDrain => exact h.congr rfl rfl rfl
  | direct call => exact (h.exec call).1

/-- What is visible after some steps is what they leave in a flat memory. -/
theorem foldl_represents {sys : MesiSystem n} {flat : Word → Word} (h : sys.Represents flat)
    (steps : List (MemoryStep core)) :
    (steps.foldl apply sys).Represents (steps.foldl applyFlat flat) := by
  induction steps generalizing sys flat with
  | nil => exact h
  | cons step steps ih => exact ih (apply_represents h step)

theorem drains_cons (visits : ℕ → VisitOrder core) (e : SBEntry) (es : List SBEntry) :
    drains visits (e :: es) = .drain (visits 0) e :: drains (fun k => visits (k + 1)) es :=
  List.mapIdx_cons

theorem fenceDrains_cons (visits : ℕ → VisitOrder core) (e : SBEntry) (es : List SBEntry) :
    fenceDrains visits (e :: es) =
      [.drain (visits 0) e, .countDrain] ++ fenceDrains (fun k => visits (k + 1)) es := by
  rw [fenceDrains, List.mapIdx_cons, List.flatten_cons]
  rfl

theorem drained?_drains (visits : ℕ → VisitOrder core) (es : List SBEntry) :
    (drains visits es).filterMap drained? = es := by
  induction es generalizing visits with
  | nil => rfl
  | cons e es ih =>
    have hdrained : drained? (.drain (visits 0) e) = some e := rfl
    rw [drains_cons, List.filterMap_cons_some hdrained, ih]

theorem drained?_fenceDrains (visits : ℕ → VisitOrder core) (es : List SBEntry) :
    (fenceDrains visits es).filterMap drained? = es := by
  induction es generalizing visits with
  | nil => rfl
  | cons e es ih =>
    rw [fenceDrains_cons, List.filterMap_append, ih]
    rfl

end MemoryStep

namespace StoreBuffer

variable {core : Fin n}

theorem fenceOne_buf (sb : StoreBuffer) (sys : MesiSystem n) (visit : VisitOrder core) :
    (sb.fenceOne sys visit).1.buf = sb.buf.tail ∧
      (sb.fenceOne sys visit).2.2 = sb.buf.head? := by
  cases hbuf : sb.buf with
  | nil => simp [fenceOne, hbuf]
  | cons e rest => simp [fenceOne, hbuf]

/-- `mfence` as one call, with the entries it wrote. -/
def mfence (sb : StoreBuffer) (sys : MesiSystem n) (visits : ℕ → VisitOrder core) :
    StoreBuffer × MesiSystem n × List SBEntry :=
  if sb.buf = [] then (sb, sys, [])
  else
    let r := sb.fenceOne sys (visits 0)
    let q := r.1.mfence r.2.1 fun k => visits (k + 1)
    (q.1, q.2.1, r.2.2.toList ++ q.2.2)
termination_by sb.buf.length
decreasing_by
  next hne =>
  rw [(sb.fenceOne_buf sys (visits 0)).1, List.length_tail]
  have := List.length_pos_iff.mpr hne
  omega

/-- A drain takes one entry out of the buffer and keeps the order of the others. -/
theorem drainOne_buf (sb : StoreBuffer) (sys : MesiSystem n) (visit : VisitOrder core) :
    ((sb.drainOne sys visit).2.2.toList ++ (sb.drainOne sys visit).1.buf).Perm sb.buf ∧
      (sb.drainOne sys visit).1.buf.Sublist sb.buf := by
  unfold drainOne
  cases he : sb.buf[sb.drainIndex]? with
  | none => simp
  | some e =>
    obtain ⟨hlt, rfl⟩ := List.getElem?_eq_some_iff.mp he
    exact ⟨List.getElem_cons_eraseIdx_perm hlt, List.eraseIdx_sublist _ _⟩

theorem drainOne_length (sb : StoreBuffer) (sys : MesiSystem n) (visit : VisitOrder core)
    (hne : sb.buf ≠ []) : (sb.drainOne sys visit).1.buf.length < sb.buf.length := by
  have hlt := sb.drainIndex_lt hne
  unfold drainOne
  rw [List.getElem?_eq_getElem hlt]
  simp only [removeDrained, List.length_eraseIdx_of_lt hlt]
  omega

/-- `drain_all` as one call, with the entries it wrote. -/
def drainAll (sb : StoreBuffer) (sys : MesiSystem n) (visits : ℕ → VisitOrder core) :
    StoreBuffer × MesiSystem n × List SBEntry :=
  if sb.buf = [] then (sb, sys, [])
  else
    let r := sb.drainOne sys (visits 0)
    let q := r.1.drainAll r.2.1 fun k => visits (k + 1)
    (q.1, q.2.1, r.2.2.toList ++ q.2.2)
termination_by sb.buf.length
decreasing_by
  next hne =>
  exact sb.drainOne_length sys (visits 0) hne

/-- A fence writes the whole buffer, oldest entry first. -/
theorem mfence_buf (sb : StoreBuffer) (sys : MesiSystem n) (visits : ℕ → VisitOrder core) :
    (sb.mfence sys visits).1.buf = [] ∧ (sb.mfence sys visits).2.2 = sb.buf := by
  induction hlen : sb.buf.length generalizing sb sys visits with
  | zero =>
    have hnil := List.length_eq_zero_iff.mp hlen
    rw [mfence, if_pos hnil]
    exact ⟨hnil, hnil.symm⟩
  | succ k ih =>
    obtain ⟨e, rest, hbuf⟩ := List.exists_cons_of_length_eq_add_one hlen
    obtain ⟨htail, hhead⟩ := sb.fenceOne_buf sys (visits 0)
    rw [hbuf] at htail hhead
    obtain ⟨hempty, hwrites⟩ := ih (sb.fenceOne sys (visits 0)).1 (sb.fenceOne sys (visits 0)).2.1
      (fun k => visits (k + 1)) (by rw [htail]; simpa [hbuf] using hlen)
    rw [mfence, if_neg (by simp [hbuf])]
    refine ⟨hempty, ?_⟩
    dsimp only
    rw [hwrites, htail, hhead, hbuf]
    rfl

/-- `drain_all` writes the whole buffer in some order. -/
theorem drainAll_buf (sb : StoreBuffer) (sys : MesiSystem n) (visits : ℕ → VisitOrder core) :
    (sb.drainAll sys visits).1.buf = [] ∧ (sb.drainAll sys visits).2.2.Perm sb.buf := by
  induction hlen : sb.buf.length using Nat.strong_induction_on generalizing sb sys visits with
  | _ k ih =>
    rw [drainAll]
    split
    · next hnil => exact ⟨hnil, by rw [hnil]⟩
    · next hne =>
      obtain ⟨hperm, -⟩ := sb.drainOne_buf sys (visits 0)
      obtain ⟨hempty, hwrites⟩ := ih _ (hlen ▸ sb.drainOne_length sys (visits 0) hne)
        (sb.drainOne sys (visits 0)).1 (sb.drainOne sys (visits 0)).2.1
        (fun k => visits (k + 1)) rfl
      exact ⟨hempty, (hwrites.append_left _).trans hperm⟩

/-- A drain does to memory what it reports. -/
theorem drainOne_memory (sb : StoreBuffer) (sys : MesiSystem n) (visit : VisitOrder core) :
    (sb.drainOne sys visit).2.1 =
      ((sb.drainOne sys visit).2.2.toList.map (.drain visit)).foldl MemoryStep.apply sys := by
  unfold drainOne
  split <;> rfl

theorem store_memory (sb : StoreBuffer) (sys : MesiSystem n) (visit : VisitOrder core)
    (addr val : Word) :
    (sb.store sys visit addr val).2.1 =
      ((sb.store sys visit addr val).2.2.toList.map (.drain visit)).foldl
        MemoryStep.apply sys := by
  unfold store
  dsimp only
  split
  · exact drainOne_memory _ sys visit
  · rfl

/-- A drain of a nonempty buffer reports an entry. -/
theorem drainOne_isSome (sb : StoreBuffer) (sys : MesiSystem n) (visit : VisitOrder core)
    (hne : sb.buf ≠ []) : ∃ e, (sb.drainOne sys visit).2.2 = some e := by
  unfold drainOne
  rw [List.getElem?_eq_getElem (sb.drainIndex_lt hne)]
  exact ⟨_, rfl⟩

theorem drainAll_memory (sb : StoreBuffer) (sys : MesiSystem n) (visits : ℕ → VisitOrder core) :
    (sb.drainAll sys visits).2.1 =
      (MemoryStep.drains visits (sb.drainAll sys visits).2.2).foldl MemoryStep.apply sys := by
  induction hlen : sb.buf.length using Nat.strong_induction_on generalizing sb sys visits with
  | _ k ih =>
    rw [drainAll]
    split
    · rfl
    · next hne =>
      obtain ⟨e, he⟩ := sb.drainOne_isSome sys (visits 0) hne
      have hfirst := sb.drainOne_memory sys (visits 0)
      have hrest := ih _ (hlen ▸ sb.drainOne_length sys (visits 0) hne)
        (sb.drainOne sys (visits 0)).1 (sb.drainOne sys (visits 0)).2.1
        (fun k => visits (k + 1)) rfl
      dsimp only
      rw [he] at hfirst ⊢
      rw [hrest, Option.toList_some, List.singleton_append, MemoryStep.drains_cons,
        List.foldl_cons]
      exact congrArg (List.foldl _ · _) hfirst

theorem mfence_memory (sb : StoreBuffer) (sys : MesiSystem n) (visits : ℕ → VisitOrder core) :
    (sb.mfence sys visits).2.1 =
      (MemoryStep.fenceDrains visits (sb.mfence sys visits).2.2).foldl MemoryStep.apply sys := by
  induction hlen : sb.buf.length generalizing sb sys visits with
  | zero =>
    rw [mfence, if_pos (List.length_eq_zero_iff.mp hlen)]
    rfl
  | succ k ih =>
    obtain ⟨e, rest, hbuf⟩ := List.exists_cons_of_length_eq_add_one hlen
    have hfirst : sb.fenceOne sys (visits 0) =
        ({ sb with buf := rest, drained := sb.drained + 1 },
          [MemoryStep.drain (visits 0) e, .countDrain].foldl MemoryStep.apply sys, some e) := by
      simp only [fenceOne, hbuf]
      rfl
    rw [mfence, if_neg (by simp [hbuf]), hfirst]
    dsimp only
    rw [ih _ _ _ (by simpa [hbuf] using hlen), Option.toList_some, List.singleton_append,
      MemoryStep.fenceDrains_cons, List.foldl_append]

/-- A store adds its entry at the end and may drain one entry to make room. -/
theorem store_buf (sb : StoreBuffer) (sys : MesiSystem n) (visit : VisitOrder core)
    (addr val : Word) :
    ((sb.store sys visit addr val).2.2.toList ++ (sb.store sys visit addr val).1.buf).Perm
        (sb.buf ++ [⟨addr, val⟩]) ∧
      (sb.store sys visit addr val).1.buf.Sublist (sb.buf ++ [⟨addr, val⟩]) := by
  unfold store
  dsimp only
  split
  · exact (sb.pushBack ⟨addr, val⟩).drainOne_buf sys visit
  · exact ⟨.refl _, .refl _⟩

end StoreBuffer

/-- A call on the store buffer of a core, with the visiting orders of the broadcasts it
    may cause; or a call on the memory system that bypasses the buffer. -/
inductive SbCall (core : Fin n) where
  | store (visit : VisitOrder core) (addr val : Word)
  | load (visit : VisitOrder core) (addr : Word)
  | drainOne (visit : VisitOrder core)
  | drainAll (visits : ℕ → VisitOrder core)
  | mfence (visits : ℕ → VisitOrder core)
  | direct (call : Call n)

namespace SbCall

variable {core : Fin n}

def isFence : SbCall core → Bool
  | .mfence _ => true
  | _ => false

/-- The store of the program that a call makes. -/
def entry? : SbCall core → Option SBEntry
  | .store _ addr val => some ⟨addr, val⟩
  | _ => none

/-- The stores of a stretch of calls, in program order. -/
def stores (calls : List (SbCall core)) : List SBEntry := calls.filterMap entry?

/-- Execute a call, with the coherent writes the buffer made and the value a load
    returned. -/
def exec (s : StoreBuffer × MesiSystem n) :
    SbCall core → (StoreBuffer × MesiSystem n) × List SBEntry × Option Word
  | .store visit addr val =>
    let r := s.1.store s.2 visit addr val
    ((r.1, r.2.1), r.2.2.toList, none)
  | .load visit addr =>
    let r := s.1.load s.2 visit addr
    ((r.1, r.2.1), [], some r.2.2)
  | .drainOne visit =>
    let r := s.1.drainOne s.2 visit
    ((r.1, r.2.1), r.2.2.toList, none)
  | .drainAll visits =>
    let r := s.1.drainAll s.2 visits
    ((r.1, r.2.1), r.2.2, none)
  | .mfence visits =>
    let r := s.1.mfence s.2 visits
    ((r.1, r.2.1), r.2.2, none)
  | .direct call => ((s.1, (s.2.exec call).1), [], none)

/-- One core's store buffer as a machine of calls. -/
def machine (core : Fin n) :
    Machine (StoreBuffer × MesiSystem n) (SbCall core) (List SBEntry × Option Word) :=
  ⟨exec⟩

/-- The coherent writes the buffer makes along a list of calls. -/
def writes (s : StoreBuffer × MesiSystem n) (calls : List (SbCall core)) : List SBEntry :=
  ((machine core).outputs s calls).flatMap Prod.fst

/-- The steps of the memory system that a call makes: a write for each entry that it reports,
    in that order, and a read if the buffer holds nothing for the address of a load. -/
def memorySteps (s : StoreBuffer × MesiSystem n) (c : SbCall core) : List (MemoryStep core) :=
  match c with
  | .store visit _ _ => (c.exec s).2.1.map (.drain visit)
  | .load visit addr => if newest? s.1.buf addr = none then [.fetch visit addr] else []
  | .drainOne visit => (c.exec s).2.1.map (.drain visit)
  | .drainAll visits => MemoryStep.drains visits (c.exec s).2.1
  | .mfence visits => MemoryStep.fenceDrains visits (c.exec s).2.1
  | .direct call => [.direct call]

/-- The steps of the memory system along a list of calls. -/
def memoryRun (s : StoreBuffer × MesiSystem n) (calls : List (SbCall core)) :
    List (MemoryStep core) :=
  (machine core).collect memorySteps s calls

/-- **What one call does to memory**: these steps. -/
theorem exec_memory (s : StoreBuffer × MesiSystem n) (c : SbCall core) :
    (c.exec s).1.2 = (c.memorySteps s).foldl MemoryStep.apply s.2 := by
  cases c with
  | store visit addr val => exact s.1.store_memory s.2 visit addr val
  | load visit addr =>
    simp only [exec, memorySteps, StoreBuffer.load, StoreBuffer.search_eq_newest?]
    cases newest? s.1.buf addr <;> rfl
  | drainOne visit => exact s.1.drainOne_memory s.2 visit
  | drainAll visits => exact s.1.drainAll_memory s.2 visits
  | mfence visits => exact s.1.mfence_memory s.2 visits
  | direct call => rfl

theorem memorySteps_drained? (s : StoreBuffer × MesiSystem n) (c : SbCall core) :
    (c.memorySteps s).filterMap MemoryStep.drained? = (c.exec s).2.1 := by
  have hdrain : ∀ (visit : VisitOrder core) (es : List SBEntry),
      (es.map (MemoryStep.drain visit)).filterMap MemoryStep.drained? = es := by
    intro visit es
    rw [List.filterMap_map]
    exact List.filterMap_some
  cases c with
  | store visit addr val => exact hdrain visit _
  | load visit addr =>
    simp only [memorySteps]
    split <;> rfl
  | drainOne visit => exact hdrain visit _
  | drainAll visits => exact MemoryStep.drained?_drains visits _
  | mfence visits => exact MemoryStep.drained?_fenceDrains visits _
  | direct call => rfl

/-- The entries written along a list of calls are the writes that the buffer reports. -/
theorem memoryRun_drained? (s : StoreBuffer × MesiSystem n) (calls : List (SbCall core)) :
    (memoryRun s calls).filterMap MemoryStep.drained? = writes s calls := by
  induction calls generalizing s with
  | nil => rfl
  | cons c calls ih =>
    rw [memoryRun, Machine.collect, List.filterMap_append, memorySteps_drained?]
    exact congrArg _ (ih (c.exec s).1)

/-- **What one call does to the buffer.** Entries leave it to memory or stay in their
    order, and the call's own store comes last. -/
theorem exec_buf (s : StoreBuffer × MesiSystem n) (c : SbCall core) :
    ((c.exec s).2.1 ++ (c.exec s).1.1.buf).Perm (s.1.buf ++ c.entry?.toList) ∧
      (c.exec s).1.1.buf.Sublist (s.1.buf ++ c.entry?.toList) := by
  cases c with
  | store visit addr val => exact s.1.store_buf s.2 visit addr val
  | load visit addr =>
    have hbuf : (s.1.load s.2 visit addr).1.buf = s.1.buf := by
      unfold StoreBuffer.load
      split <;> rfl
    simp [exec, entry?, hbuf]
  | drainOne visit => simpa [exec, entry?] using s.1.drainOne_buf s.2 visit
  | drainAll visits =>
    obtain ⟨hempty, hwrites⟩ := s.1.drainAll_buf s.2 visits
    simpa [exec, entry?, hempty] using hwrites
  | mfence visits =>
    obtain ⟨hempty, hwrites⟩ := s.1.mfence_buf s.2 visits
    simp [exec, entry?, hempty, hwrites]
  | direct call => simp [exec, entry?]

theorem exec_fence (s : StoreBuffer × MesiSystem n) {c : SbCall core} (hc : c.isFence = true) :
    (c.exec s).1.1.buf = [] ∧ (c.exec s).2.1 = s.1.buf ∧ c.entry? = none := by
  cases c with
  | mfence visits =>
    obtain ⟨hempty, hwrites⟩ := s.1.mfence_buf s.2 visits
    exact ⟨hempty, hwrites, rfl⟩
  | _ => cases hc

/-- The stretches of a list of calls between its fences, by the stores in each. -/
def stretches (calls : List (SbCall core)) : List (List SBEntry) :=
  (calls.splitOnP isFence).map stores

theorem stretches_cons_fence {c : SbCall core} (hc : c.isFence = true)
    (calls : List (SbCall core)) : stretches (c :: calls) = [] :: stretches calls := by
  simp [stretches, List.splitOnP_cons_eq_if_modifyHead, hc, stores]

theorem stretches_cons {c : SbCall core} (hc : c.isFence = false) (calls : List (SbCall core)) :
    stretches (c :: calls) = (stretches calls).modifyHead (c.entry?.toList ++ ·) := by
  unfold stretches
  rw [List.splitOnP_cons_eq_if_modifyHead, if_neg (by simp [hc])]
  cases hs : calls.splitOnP isFence with
  | nil => exact absurd hs (List.splitOnP_ne_nil _ _)
  | cons b bs =>
    simp only [List.modifyHead_cons, List.map_cons, stores, List.filterMap_cons]
    cases c.entry? <;> rfl

/-- The block structure from any point on: `written` left the buffer and `issued` stored since
    the last fence. -/
theorem exists_blocks (calls : List (SbCall core)) (s : StoreBuffer × MesiSystem n)
    (written issued : List SBEntry) (h : (written ++ s.1.buf).Perm issued) :
    ∃ blocks : List (List SBEntry),
      written ++ writes s calls ++ ((machine core).run s calls).1.buf = blocks.flatten ∧
        List.Forall₂ List.Perm blocks ((stretches calls).modifyHead (issued ++ ·)) := by
  induction calls generalizing s written issued with
  | nil =>
    refine ⟨[written ++ s.1.buf], by simp [writes], ?_⟩
    simpa [stretches, stores] using h
  | cons c calls ih =>
    have hwrites : writes s (c :: calls) = (c.exec s).2.1 ++ writes (c.exec s).1 calls := rfl
    cases hc : c.isFence with
    | true =>
      -- the fence closes a block and starts an empty one
      obtain ⟨hempty, hall, -⟩ := exec_fence s hc
      obtain ⟨blocks, hflat, hperm⟩ := ih (c.exec s).1 [] [] (by rw [hempty]; simp)
      refine ⟨(written ++ s.1.buf) :: blocks, ?_, ?_⟩
      · rw [List.flatten_cons, ← hflat, hwrites, hall]
        simp only [List.nil_append, List.append_assoc]
        rfl
      · rw [stretches_cons_fence hc, List.modifyHead_cons, List.append_nil]
        refine .cons h ?_
        cases hs : stretches calls <;> simpa [hs] using hperm
    | false =>
      have hstep := (exec_buf s c).1
      have hnext : (written ++ (c.exec s).2.1 ++ (c.exec s).1.1.buf).Perm
          (issued ++ c.entry?.toList) := by
        rw [List.append_assoc]
        refine (hstep.append_left written).trans ?_
        rw [← List.append_assoc]
        exact h.append_right _
      obtain ⟨blocks, hflat, hperm⟩ := ih (c.exec s).1 _ _ hnext
      refine ⟨blocks, ?_, ?_⟩
      · rw [← hflat, hwrites]
        simp only [List.append_assoc]
        rfl
      · rw [stretches_cons hc]
        cases hs : stretches calls with
        | nil => simpa [hs] using hperm
        | cons b bs => simpa [hs] using hperm

/-- The buffer holds stores since the last fence, in program order. -/
theorem buf_sublist (calls : List (SbCall core)) (s : StoreBuffer × MesiSystem n)
    (hs : s.1.buf = []) :
    ((machine core).run s calls).1.buf.Sublist
      (stores (calls.rtakeWhile fun c => !c.isFence)) := by
  induction calls using List.reverseRecOn with
  | nil => simp [hs]
  | append_singleton calls c ih =>
    rw [Machine.run_append]
    change (c.exec ((machine core).run s calls)).1.1.buf.Sublist _
    cases hc : c.isFence with
    | true =>
      rw [(exec_fence _ hc).1]
      exact List.nil_sublist _
    | false =>
      have hstores : stores ((calls ++ [c]).rtakeWhile fun c => !c.isFence) =
          stores (calls.rtakeWhile fun c => !c.isFence) ++ c.entry?.toList := by
        rw [List.rtakeWhile_concat_pos _ _ _ (by simp [hc]), stores, List.filterMap_append]
        cases he : c.entry? <;> simp [he, stores]
      rw [hstores]
      exact (exec_buf _ c).2.trans (ih.append (.refl _))

/-- **A fence is a full store barrier**, in both drain modes. Whatever calls are made on a
    fresh store buffer, with whatever random drains and whatever else happens to the memory
    system between them: the coherent writes of the buffer, followed by its contents, split
    into one block per stretch of calls between fences, and each block is a permutation of
    the stores of its stretch. The memory system has made exactly these writes, in this
    order, besides the reads of loads and what bypassed the buffer, and every core reads
    what they leave. A fence made now empties the buffer and writes stores of the stretch it
    ends in program order. -/
theorem mfence_is_full_barrier (n : ℕ) (core : Fin n) (depth : ℕ+) (mode : DrainMode)
    (rng : ℕ → ℕ) (sys : MesiSystem n) (calls : List (SbCall core))
    (visits : ℕ → VisitOrder core) :
    let s₀ := (StoreBuffer.new depth mode rng, sys)
    let s := (machine core).run s₀ calls
    let steps := memoryRun s₀ calls
    let f := (SbCall.mfence visits).exec s
    (∃ blocks : List (List SBEntry),
      writes s₀ calls ++ s.1.buf = blocks.flatten ∧
        List.Forall₂ List.Perm blocks ((calls.splitOnP isFence).map stores)) ∧
    (steps.filterMap MemoryStep.drained? = writes s₀ calls ∧
      s.2 = steps.foldl MemoryStep.apply sys ∧
      ∀ flat, sys.Represents flat → ∀ (d : Fin n) (visit : VisitOrder d) (a : Word),
        (s.2.read visit a).2 = steps.foldl MemoryStep.applyFlat flat a) ∧
    (f.1.1.buf = [] ∧ f.2.1.Sublist (stores (calls.rtakeWhile fun c => !c.isFence)) ∧
      f.1.2 = (MemoryStep.fenceDrains visits f.2.1).foldl MemoryStep.apply s.2) := by
  intro s₀ s steps f
  have hmemory : s.2 = steps.foldl MemoryStep.apply sys :=
    (machine core).run_eq_foldl_collect exec_memory s₀ calls
  refine ⟨?_, ⟨memoryRun_drained? s₀ calls, hmemory, ?_⟩,
    s.1.mfence_buf s.2 visits |>.1, ?_, exec_memory s (.mfence visits)⟩
  · obtain ⟨blocks, hflat, hperm⟩ := exists_blocks calls s₀ [] [] (.refl _)
    refine ⟨blocks, hflat, ?_⟩
    change List.Forall₂ List.Perm blocks (stretches calls)
    cases hs : stretches calls <;> simpa [hs] using hperm
  · intro flat hflat d visit a
    rw [hmemory]
    exact ((MemoryStep.foldl_represents hflat steps).read visit a).2
  · have hall : f.2.1 = s.1.buf := (s.1.mfence_buf s.2 visits).2
    rw [hall]
    exact buf_sublist calls _ rfl

/-- Three stores overflow a relaxed buffer for two, which picks the second; a fence writes the
    rest, and one more store stays in the buffer. -/
def relaxedThenFence (core : Fin n) : List (SbCall core) :=
  [.store (.byIndex core) 0x3000#32 1, .store (.byIndex core) 0x3040#32 2,
    .store (.byIndex core) 0x3000#32 3, .mfence fun _ => .byIndex core,
    .store (.byIndex core) 0x3000#32 4]

theorem relaxedThenFence_in_blocks :
    let s₀ := (StoreBuffer.new 2 .relaxed fun _ => 1, MesiSystem.new 2)
    let calls := relaxedThenFence 0
    let s := (machine 0).run s₀ calls
    writes s₀ calls = [⟨0x3040#32, 2⟩, ⟨0x3000#32, 1⟩, ⟨0x3000#32, 3⟩] ∧
      s.1.buf = [⟨0x3000#32, 4⟩] ∧
      (∃ blocks : List (List SBEntry),
        writes s₀ calls ++ s.1.buf = blocks.flatten ∧ List.Forall₂ List.Perm blocks
          [[⟨0x3000#32, 1⟩, ⟨0x3040#32, 2⟩, ⟨0x3000#32, 3⟩], [⟨0x3000#32, 4⟩]]) ∧
      (s.2.read (.byIndex 1) 0x3000#32).2 = 3 := by
  obtain ⟨hblocks, ⟨-, -, hread⟩, -⟩ := mfence_is_full_barrier 2 0 2 .relaxed (fun _ => 1)
    (.new 2) (relaxedThenFence 0) fun _ => .byIndex 0
  refine ⟨by decide +kernel, by decide +kernel, hblocks, ?_⟩
  refine (hread (fun _ => 0) (Coherent.newOver 2 .new) 1 (.byIndex 1) 0x3000#32).trans ?_
  decide +kernel

end SbCall

end MesiCoherence
