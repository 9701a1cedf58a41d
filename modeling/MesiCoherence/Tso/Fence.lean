import Mathlib.Data.List.FinRange
import MesiCoherence.Lib.SequentialConsistency
import MesiCoherence.Tso.Fifo

/-!
# Fences restore sequential consistency

If every load of a run finds the issuing core's FIFO buffer empty, the run is
sequentially consistent at program level. The witnessing order lists loads when
they execute and stores when they drain, and puts the stores still buffered at the
end: an empty buffer at a load means that all earlier stores of its core have
drained before it.
-/

namespace MesiCoherence

variable {n : ℕ}

/-- The loads and stores of a core's program, in program order. -/
def programOf (c : Fin n) (tr : List (TsoEvent n)) : List (MemEvent Word Word) :=
  tr.filterMap fun
    | .stored d e => if d = c then some (.store e.addr e.val) else none
    | .loaded d a v => if d = c then some (.load a v) else none
    | _ => none

/-- The load or store that an event stands for, without the value a load returned. -/
def programOp : MemEvent Word Word → ProgramOp
  | .store a v => .store ⟨a, v⟩
  | .load a _ => .load a

/-- A program consists of the loads and stores of the actions that found its core idle. -/
theorem programOf_trace (c : Fin n) (s : TsoSystem n) (acts : List (TsoAction n)) :
    (programOf c (s.trace acts)).map programOp = s.issued c acts := by
  rw [← s.trace_op?, programOf, List.map_filterMap]
  apply List.filterMap_congr
  intro ev _
  cases ev with
  | stored d e => by_cases hd : d = c <;> simp [TsoEvent.op?, programOp, hd]
  | loaded d a v => by_cases hd : d = c <;> simp [TsoEvent.op?, programOp, hd]
  | _ => rfl

/-- Loads at the point where they execute, stores where they become visible. -/
def visibleOrder (tr : List (TsoEvent n)) : List (Fin n × MemEvent Word Word) :=
  tr.filterMap fun
    | .written c e => some (c, .store e.addr e.val)
    | .loaded c a v => some (c, .load a v)
    | _ => none

/-- The store event of a buffer entry. -/
def SBEntry.toStore (e : SBEntry) : MemEvent Word Word := .store e.addr e.val

/-- A load that executes finds its core's buffer empty. -/
def LoadsDrained (s : TsoSystem n) : TsoAction n → Prop
  | .load c _ _ => s.phase c = .idle → (s.sb c).buf = []
  | _ => True

/-- The action goes through a store buffer. -/
def TsoAction.Buffered : TsoAction n → Prop
  | .direct _ => False
  | _ => True

/-- Between a store of a core and a later load of it an `mfence` returned. -/
def FenceSeparated (tr : List (TsoEvent n)) : Prop :=
  ∀ c pre e mid a v post, tr = pre ++ .stored c e :: (mid ++ .loaded c a v :: post) →
    .fenced c ∈ mid

theorem programOf_append (c : Fin n) (tr tr' : List (TsoEvent n)) :
    programOf c (tr ++ tr') = programOf c tr ++ programOf c tr' := List.filterMap_append

theorem visibleOrder_append (tr tr' : List (TsoEvent n)) :
    visibleOrder (tr ++ tr') = visibleOrder tr ++ visibleOrder tr' := List.filterMap_append

/-- The witnessing order: what is visible, then what is still buffered. -/
structure ScInv (tr : List (TsoEvent n)) (s : TsoSystem n) : Prop where
  program : ∀ c, threadEvents c (visibleOrder tr) ++ (s.sb c).buf.map SBEntry.toStore =
    programOf c tr
  legal : LegalOrder 0 (visibleOrder tr)
  memory : ∀ a, lastStore 0 (visibleOrder tr) a = lastWrite tr a

theorem lastStore_append_store (es : List (Fin n × MemEvent Word Word)) (c : Fin n)
    (a v x : Word) :
    lastStore 0 (es ++ [(c, .store a v)]) x = if a = x then v else lastStore 0 es x := by
  unfold lastStore
  by_cases h : a = x
  · simp [MemEvent.storeTo?, h]
  · simp [MemEvent.storeTo?, h]

theorem lastStore_append_load (es : List (Fin n × MemEvent Word Word)) (c : Fin n)
    (a v x : Word) :
    lastStore 0 (es ++ [(c, .load a v)]) x = lastStore 0 es x := by
  simp [lastStore, MemEvent.storeTo?]

theorem threadEvents_singleton (c d : Fin n) (e : MemEvent Word Word) :
    threadEvents d [(c, e)] = if c = d then [e] else [] := by
  unfold threadEvents
  by_cases h : c = d <;> simp [h]

/-- An event that is neither a load nor a coherent write changes the witnessing order
    of no core. -/
theorem ScInv.silent {tr : List (TsoEvent n)} {s s' : TsoSystem n} (h : ScInv tr s)
    {ev : TsoEvent n} (hv : visibleOrder [ev] = []) (hw : ev.coherentWrite? = none)
    (hp : ∀ c, (s.sb c).buf.map SBEntry.toStore ++ programOf c [ev] =
      (s'.sb c).buf.map SBEntry.toStore) : ScInv (tr ++ [ev]) s' := by
  refine ⟨fun c => ?_, ?_, fun a => ?_⟩
  · rw [visibleOrder_append, hv, List.append_nil, programOf_append, ← h.program c, ← hp c,
      List.append_assoc]
  · rw [visibleOrder_append, hv, List.append_nil]
    exact h.legal
  · rw [visibleOrder_append, hv, List.append_nil, lastWrite_append, hw]
    exact h.memory a

/-- A step whose load, if any, finds an empty buffer keeps the witnessing order. -/
theorem ScInv.step {sb₀ : Fin n → StoreBuffer} (hfifo : ∀ c, (sb₀ c).mode = .fifo)
    {tr : List (TsoEvent n)} {s : TsoSystem n} (hb : BufferInv sb₀ tr s) (h : ScInv tr s)
    (act : TsoAction n) (hload : LoadsDrained s act) (hbuf : act.Buffered) :
    ScInv (tr ++ (s.step act).2.toList) (s.step act).1 := by
  have heff := hb.effect act
  generalize (s.step act).1 = s' at heff ⊢
  generalize (s.step act).2 = o at heff ⊢
  cases heff with
  | stutter => simpa using h
  | entered => exact ⟨by simpa using h.program, by simpa using h.legal, by simpa using h.memory⟩
  | left => exact ⟨by simpa using h.program, by simpa using h.legal, by simpa using h.memory⟩
  | fenced _ c _ _ =>
    refine h.silent rfl rfl fun d => ?_
    simp [programOf]
  | stored c a v hidle =>
    refine h.silent rfl rfl fun d => ?_
    by_cases hd : d = c
    · subst hd
      simp [programOf, StoreBuffer.pushBack, SBEntry.toStore]
    · simp [programOf, hd, Ne.symm hd]
  | bypassed c visit a v hidle hv =>
    -- an empty buffer has nothing to bypass from
    have hnil : (s.sb c).buf = [] := hload hidle
    rw [hnil] at hv
    cases hv
  | fetched c visit a v sys' hidle hv hsys =>
    have hnil : (s.sb c).buf = [] := hload hidle
    have hval : v = lastStore 0 (visibleOrder tr) a := by
      rw [h.memory a]
      exact (hsys _ hb.represents).2
    have hvis : visibleOrder (tr ++ [TsoEvent.loaded c a v]) =
        visibleOrder tr ++ [(c, .load a v)] := visibleOrder_append _ _
    rw [Option.toList_some]
    refine ⟨fun d => ?_, ?_, fun x => ?_⟩
    · rw [hvis, threadEvents_append, programOf_append, ← h.program d, threadEvents_singleton]
      by_cases hd : d = c
      · subst hd
        simp [programOf, hnil]
      · simp [programOf, Ne.symm hd]
    · rw [hvis]
      exact h.legal.append_load c hval
    · rw [hvis, lastStore_append_load, lastWrite_append]
      exact h.memory x
  | written _ c e sb' sys' hact he hsb hsys =>
    have hidx : s.removalIndex c = 0 := by
      have hmode : (s.sb c).mode = .fifo := (hb.core c).mode.trans (hfifo c)
      rw [TsoSystem.removalIndex, (s.sb c).drainIndex_fifo hmode, ite_self]
    rw [hidx] at hsb he
    have hfront : (s.sb c).buf = e :: sb'.buf := hsb.front he
    have hvis : visibleOrder (tr ++ [TsoEvent.written c e]) =
        visibleOrder tr ++ [(c, .store e.addr e.val)] := visibleOrder_append _ _
    rw [Option.toList_some]
    refine ⟨fun d => ?_, ?_, fun x => ?_⟩
    · rw [hvis, threadEvents_append, programOf_append, ← h.program d, threadEvents_singleton]
      by_cases hd : d = c
      · subst hd
        simp [programOf, hfront, SBEntry.toStore]
      · simp [programOf, hd, Ne.symm hd]
    · rw [hvis]
      refine h.legal.append_stores ?_
      intro ev hev
      rw [List.mem_singleton.mp hev]
      exact ⟨_, _, rfl⟩
    · rw [hvis, lastStore_append_store, lastWrite_append, h.memory x]
      by_cases hx : e.addr = x
      · simp [applyWrite, TsoEvent.coherentWrite?, hx]
      · simp [applyWrite, TsoEvent.coherentWrite?, hx, Function.update_of_ne (Ne.symm hx)]
  | direct call w sys' hsys => exact absurd hbuf id

/-- The entries still buffered, core by core, as events. -/
def pendingStores (s : TsoSystem n) : List (Fin n × MemEvent Word Word) :=
  (List.finRange n).flatMap fun c => (s.sb c).buf.map fun e => (c, e.toStore)

theorem threadEvents_pendingStores (s : TsoSystem n) (c : Fin n) :
    threadEvents c (pendingStores s) = (s.sb c).buf.map SBEntry.toStore := by
  have hone : ∀ d, threadEvents c ((s.sb d).buf.map fun e => (d, e.toStore)) =
      if d = c then (s.sb d).buf.map SBEntry.toStore else [] := by
    intro d
    by_cases hd : d = c
    · simp [threadEvents, hd]
    · simp [threadEvents, hd]
  have hall : ∀ l : List (Fin n), l.Nodup →
      threadEvents c (l.flatMap fun d => (s.sb d).buf.map fun e => (d, e.toStore)) =
        if c ∈ l then (s.sb c).buf.map SBEntry.toStore else [] := by
    intro l
    induction l with
    | nil => intro _; rfl
    | cons d l ih =>
      intro hl
      obtain ⟨hd, hl⟩ := List.nodup_cons.mp hl
      rw [List.flatMap_cons, threadEvents_append, hone, ih hl]
      by_cases hdc : d = c
      · subst hdc
        simp [hd]
      · simp [hdc, Ne.symm hdc]
  rw [pendingStores, hall _ (List.nodup_finRange n)]
  simp

/-- The witnessing order of a state makes its programs sequentially consistent. -/
theorem ScInv.sequentiallyConsistent {tr : List (TsoEvent n)} {s : TsoSystem n}
    (h : ScInv tr s) : SequentiallyConsistent 0 (fun c => programOf c tr) := by
  refine ⟨visibleOrder tr ++ pendingStores s, fun c => ?_, h.legal.append_stores ?_⟩
  · rw [threadEvents_append, threadEvents_pendingStores]
    exact h.program c
  · intro ev hev
    obtain ⟨c, -, hc⟩ := List.mem_flatMap.mp hev
    obtain ⟨e, -, rfl⟩ := List.mem_map.mp hc
    exact ⟨_, _, rfl⟩

/-- A core with buffered stores has not returned from an `mfence` since some store. -/
def Unfenced (c : Fin n) (tr : List (TsoEvent n)) (s : TsoSystem n) : Prop :=
  (s.sb c).buf ≠ [] → ∃ pre e mid, tr = pre ++ .stored c e :: mid ∧ .fenced c ∉ mid

/-- The store that precedes the pending entries is still there after any event other
    than a fence. -/
theorem Unfenced.append {c : Fin n} {tr : List (TsoEvent n)} {s s' : TsoSystem n}
    (h : Unfenced c tr s) {evs : List (TsoEvent n)} (hf : .fenced c ∉ evs)
    (hbuf : (s'.sb c).buf ≠ [] → (s.sb c).buf ≠ []) : Unfenced c (tr ++ evs) s' := by
  intro hne
  obtain ⟨pre, e, mid, rfl, hmid⟩ := h (hbuf hne)
  refine ⟨pre, e, mid ++ evs, by simp, ?_⟩
  rw [List.mem_append, not_or]
  exact ⟨hmid, hf⟩

theorem Unfenced.step {c : Fin n} {tr : List (TsoEvent n)} {s s' : TsoSystem n}
    {act : TsoAction n} {o : Option (TsoEvent n)} (h : Unfenced c tr s)
    (heff : s.Effect act s' o) : Unfenced c (tr ++ o.toList) s' := by
  cases heff with
  | stutter => exact h.append (by simp) id
  | entered => exact h.append (by simp) id
  | left => exact h.append (by simp) id
  | fenced _ d hphase hempty =>
    by_cases hd : d = c
    · subst hd
      exact fun hne => absurd hempty hne
    · exact h.append (by simp [Ne.symm hd]) id
  | stored d a v hidle =>
    by_cases hd : d = c
    · subst hd
      exact fun _ => ⟨tr, ⟨a, v⟩, [], rfl, by simp⟩
    · exact h.append (by simp) (by simp [Ne.symm hd])
  | bypassed d visit a v hidle hv =>
    refine h.append (by simp) ?_
    by_cases hd : c = d
    · subst hd
      simp
    · simp [hd]
  | fetched => exact h.append (by simp) id
  | written _ d e sb' sys' hact he hsb hsys =>
    refine h.append (by simp) ?_
    by_cases hd : c = d
    · subst hd
      rintro - hnil
      simp [hnil] at he
    · simp [hd]
  | direct => exact h.append (by simp) id

theorem unfenced_trace (depth : Fin n → ℕ+) (rng : Fin n → ℕ → ℕ) (acts : List (TsoAction n))
    (c : Fin n) :
    Unfenced c ((TsoSystem.newFifo depth rng).trace acts)
      ((TsoSystem.machine n).run (.newFifo depth rng) acts) := by
  refine (TsoSystem.trace_invariant (.newFifo depth rng)
    (P := fun tr s => BufferInv (fun c => .new (depth c) .fifo (rng c)) tr s ∧
      Unfenced c tr s) ⟨?_, fun h => absurd rfl h⟩ ?_ acts).2
  · exact bufferInv_fifo depth rng []
  · rintro tr s act ⟨hb, h⟩
    exact ⟨hb.step act, h.step (hb.effect act)⟩

theorem FenceSeparated.of_append {tr tr' : List (TsoEvent n)} (h : FenceSeparated (tr ++ tr')) :
    FenceSeparated tr := by
  intro c pre e mid a v post htr
  refine h c pre e mid a v (post ++ tr') ?_
  rw [htr]
  simp

/-- An `mfence` between each store and the next load of its core empties the buffer
    for every load. -/
theorem FenceSeparated.loadsDrained {depth : Fin n → ℕ+} {rng : Fin n → ℕ → ℕ}
    {acts : List (TsoAction n)} (h : FenceSeparated ((TsoSystem.newFifo depth rng).trace acts)) :
    (TsoSystem.machine n).AllSteps LoadsDrained (.newFifo depth rng) acts := by
  induction acts using List.reverseRecOn with
  | nil => trivial
  | append_singleton acts act ih =>
    rw [TsoSystem.trace_append] at h
    rw [Machine.allSteps_append]
    refine ⟨ih h.of_append, ?_, trivial⟩
    · cases act with
      | load c visit a =>
        intro hidle
        by_contra hne
        obtain ⟨pre, e, mid, htr, hmid⟩ := unfenced_trace depth rng acts c hne
        have hload := (bufferInv_fifo depth rng acts).load hidle visit a
        rw [hload, htr, Option.toList_some, List.append_assoc, List.cons_append] at h
        exact hmid (h c pre e mid a _ [] rfl)
      | store => trivial
      | drainOne => trivial
      | drainAll => trivial
      | mfence => trivial
      | resume => trivial
      | direct => trivial

/-- **Fences restore sequential consistency.** In every interleaving of the steps of
    any number of cores with FIFO buffers, if every load executes with its core's
    buffer empty, or if an `mfence` returned between each store and the next load of
    its core, then the loads and stores that the actions make the cores issue are
    sequentially consistent at program level, and a store-buffering litmus inside the run
    does not end with both loads 0. -/
theorem fenced_loads_sequentially_consistent (n : ℕ) (depth : Fin n → ℕ+)
    (rng : Fin n → ℕ → ℕ) (acts : List (TsoAction n)) (hbuf : ∀ act ∈ acts, act.Buffered)
    (h : (TsoSystem.machine n).AllSteps LoadsDrained (.newFifo depth rng) acts ∨
      FenceSeparated ((TsoSystem.newFifo depth rng).trace acts)) :
    let prog := fun c => programOf c ((TsoSystem.newFifo depth rng).trace acts)
    (∀ c, (prog c).map programOp = (TsoSystem.newFifo depth rng).issued c acts) ∧
    SequentiallyConsistent 0 prog ∧
    ∀ c₀ c₁ x y v w r₀ r₁, prog c₀ = [.store x v, .load y r₀] →
      prog c₁ = [.store y w, .load x r₁] →
      (∀ c u, .store x u ∈ prog c ∨ .store y u ∈ prog c → u ≠ 0) → ¬ (r₀ = 0 ∧ r₁ = 0) := by
  intro prog
  have hdrained := h.elim id FenceSeparated.loadsDrained
  have hsc : SequentiallyConsistent 0 prog := by
    refine (TsoSystem.trace_invariant_of (.newFifo depth rng)
      (P := fun tr s => BufferInv (fun c => .new (depth c) .fifo (rng c)) tr s ∧ ScInv tr s)
      ⟨?_, fun _ => rfl, LegalOrder.nil, fun _ => rfl⟩ ?_ acts
      (hdrained.and_inputs _ hbuf)).2.sequentiallyConsistent
    · exact bufferInv_fifo depth rng []
    · rintro tr s act ⟨hb, hsc⟩ ⟨hload, hact⟩
      exact ⟨hb.step act, hsc.step (fun _ => rfl) hb act hload hact⟩
  refine ⟨fun c => programOf_trace c _ acts, hsc, fun c₀ c₁ x y v w r₀ r₁ h₀ h₁ hne => ?_⟩
  exact hsc.no_store_buffering h₀ h₁ (fun c u hu => hne c u (Or.inl hu))
    (fun c u hu => hne c u (Or.inr hu))

/-- The fenced store-buffering litmus on two cores, both fences interleaved. -/
def fencedDekker : List (TsoAction 2) :=
  [.store 0 0x2000#32 1, .store 1 0x2040#32 1, .mfence 0, .mfence 1,
    .resume 1 (.byIndex 1), .resume 0 (.byIndex 0), .resume 0 (.byIndex 0),
    .load 0 (.byIndex 0) 0x2040#32, .resume 1 (.byIndex 1), .load 1 (.byIndex 1) 0x2000#32]

theorem fencedDekker_sequentially_consistent :
    let tr := (TsoSystem.newFifo (fun _ : Fin 2 => 8) fun _ _ => 0).trace fencedDekker
    SequentiallyConsistent 0 (fun c => programOf c tr) ∧
    programOf 0 tr = [.store 0x2000#32 1, .load 0x2040#32 1] ∧
    programOf 1 tr = [.store 0x2040#32 1, .load 0x2000#32 1] := by
  refine ⟨(fenced_loads_sequentially_consistent 2 (fun _ => 8) (fun _ _ => 0) fencedDekker
    (by simp [fencedDekker, TsoAction.Buffered]) (Or.inl ?_)).2.1, by decide +kernel,
    by decide +kernel⟩
  simp only [fencedDekker, Machine.AllSteps, LoadsDrained, true_and, and_true]
  exact ⟨fun _ => rfl, fun _ => rfl⟩

end MesiCoherence
