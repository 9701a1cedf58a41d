import Mathlib.Data.List.ReduceOption
import MesiCoherence.Model.FlatRefinement
import MesiCoherence.Tso.StoreBuffer

/-!
# What one step of the TSO machine does

`TsoSystem.Effect` lists the outcomes of a step with their guards, and says what
happens to the memory the coherent system represents. The invariants of the TSO
machine are proved from this list; none of them unfolds `step`.
-/

namespace MesiCoherence

variable {n : ℕ}

/-- The coherent system represents `flat`, starting from zeroed memory. -/
abbrev MesiSystem.Represents (s : MesiSystem n) (flat : Word → Word) : Prop :=
  Coherent (fun _ => 0) flat s.bus

/-- A flat memory after an optional write. -/
def applyWrite (flat : Word → Word) : Option SBEntry → Word → Word
  | some e => Function.update flat e.addr e.val
  | none => flat

namespace MesiSystem.Represents

variable {s : MesiSystem n} {flat : Word → Word}

theorem exec (h : s.Represents flat) (c : Call n) :
    (s.exec c).1.Represents (c.access.exec flat).1 ∧ (s.exec c).2 = (c.access.exec flat).2 :=
  exec_refines h c (fun hl => hl.2.2 rfl)

theorem read (h : s.Represents flat) {core : Fin n} (visit : VisitOrder core) (a : Word) :
    (s.read visit a).1.Represents flat ∧ (s.read visit a).2 = flat a := by
  obtain ⟨hc, hr⟩ := h.exec ⟨core, .read a, visit⟩
  rw [Access.exec_read] at hc hr
  exact ⟨hc, Reply.value.inj hr⟩

theorem write (h : s.Represents flat) {core : Fin n} (visit : VisitOrder core) (a v : Word) :
    (s.write visit a v).Represents (Function.update flat a v) :=
  (h.exec ⟨core, .write a v, visit⟩).1

/-- An unbuffered call changes the represented memory by the write it reports. -/
theorem exec_storedBy (h : s.Represents flat) (c : Call n) :
    (s.exec c).1.Represents (applyWrite flat (storedBy c.access (s.exec c).2)) := by
  obtain ⟨hc, hr⟩ := h.exec c
  rw [hr]
  convert hc using 1
  cases c.access with
  | read a => simp [storedBy, applyWrite]
  | write a v => rfl
  | cas a e v =>
    by_cases he : flat a = e
    · simp [Access.exec, Access.addr, Access.reply, Access.result, he, storedBy, applyWrite]
    · simp [Access.exec, Access.addr, Access.reply, Access.result, he, storedBy, applyWrite]
  | fetchAndAdd a d => rfl

end MesiSystem.Represents

theorem getLast?_filter_eq_find?_reverse {α : Type*} (p : α → Bool) (l : List α) :
    (l.filter p).getLast? = l.reverse.find? p := by
  rw [List.getLast?_eq_head?_reverse, ← List.filter_reverse, List.head?_filter]

/-- The newest-first search finds the newest entry. -/
theorem StoreBuffer.search_eq_newest? (sb : StoreBuffer) (a : Word) :
    sb.search a = newest? sb.buf a := by
  rw [StoreBuffer.search, newest?, getLast?_filter_eq_find?_reverse]

/-- The index that `drain_one` removes exists in a nonempty buffer. -/
theorem StoreBuffer.drainIndex_lt (sb : StoreBuffer) (h : sb.buf ≠ []) :
    sb.drainIndex < sb.buf.length := by
  have hpos : 0 < sb.buf.length := List.length_pos_iff.mpr h
  unfold StoreBuffer.drainIndex
  split
  · exact Nat.mod_lt _ hpos
  · exact hpos

/-- A FIFO buffer drains its oldest entry. -/
theorem StoreBuffer.drainIndex_fifo (sb : StoreBuffer) (h : sb.mode = .fifo) :
    sb.drainIndex = 0 := by
  simp [StoreBuffer.drainIndex, StoreBuffer.draws, h]

namespace TsoSystem

/-- The buffer of core `c` lost its entry at index `k`. -/
structure Removed (sb sb' : StoreBuffer) (k : ℕ) : Prop where
  depth : sb'.depth = sb.depth
  mode : sb'.mode = sb.mode
  buf : sb'.buf = sb.buf.eraseIdx k
  drained : sb'.drained = sb.drained + 1

/-- Removing index 0 pops the oldest entry. -/
theorem Removed.front {sb sb' : StoreBuffer} {e : SBEntry} (h : Removed sb sb' 0)
    (he : sb.buf[0]? = some e) : sb.buf = e :: sb'.buf := by
  rw [h.buf]
  cases hbuf : sb.buf with
  | nil => simp [hbuf] at he
  | cons x rest =>
    rw [hbuf] at he
    obtain rfl := Option.some.inj he
    rfl

/-- The index a step of core `c` may remove: the fence pops the front, every other
    drain asks `drain_one`. -/
def removalIndex (s : TsoSystem n) (c : Fin n) : ℕ :=
  if s.phase c = .fencing then 0 else (s.sb c).drainIndex

/-- The action makes core `c` call `drain_one`: in the background, because a store
    overflowed, or inside `drain_all`. -/
def IsDrain (s : TsoSystem n) (c : Fin n) : TsoAction n → Prop
  | .drainOne d _ => d = c ∧ s.phase c = .idle
  | .resume d _ => d = c ∧ (s.phase c = .storing ∨ s.phase c = .draining)
  | _ => False

/-- The phase of a core after it drained an entry. -/
def afterDrain : Phase → Phase
  | .storing => .idle
  | p => p

/-- The outcomes of one step. -/
inductive Effect (s : TsoSystem n) : TsoAction n → TsoSystem n → Option (TsoEvent n) → Prop where
  | stutter (act : TsoAction n) : Effect s act s none
  | entered (act : TsoAction n) (c : Fin n) (p : Phase) (hidle : s.phase c = .idle)
      (hp : p = .draining ∨ p = .fencing) :
      Effect s act { s with phase := Function.update s.phase c p } none
  | left (act : TsoAction n) (c : Fin n) (hphase : s.phase c = .draining)
      (hempty : (s.sb c).buf = []) :
      Effect s act { s with phase := Function.update s.phase c .idle } none
  | fenced (act : TsoAction n) (c : Fin n) (hphase : s.phase c = .fencing)
      (hempty : (s.sb c).buf = []) :
      Effect s act { s with phase := Function.update s.phase c .idle } (some (.fenced c))
  | stored (c : Fin n) (a v : Word) (hidle : s.phase c = .idle) :
      Effect s (.store c a v)
        ⟨s.sys, Function.update s.sb c ((s.sb c).pushBack ⟨a, v⟩),
          Function.update s.phase c
            (if ((s.sb c).pushBack ⟨a, v⟩).overflows then .storing else .idle)⟩
        (some (.stored c ⟨a, v⟩))
  | bypassed (c : Fin n) (visit : VisitOrder c) (a v : Word) (hidle : s.phase c = .idle)
      (hv : newest? (s.sb c).buf a = some v) :
      Effect s (.load c visit a)
        { s with sb := Function.update s.sb c { s.sb c with hits := (s.sb c).hits + 1 } }
        (some (.loaded c a v))
  | fetched (c : Fin n) (visit : VisitOrder c) (a v : Word) (sys' : MesiSystem n)
      (hidle : s.phase c = .idle) (hv : newest? (s.sb c).buf a = none)
      (hsys : ∀ flat, s.sys.Represents flat → sys'.Represents flat ∧ v = flat a) :
      Effect s (.load c visit a) { s with sys := sys' } (some (.loaded c a v))
  | written (act : TsoAction n) (c : Fin n) (e : SBEntry) (sb' : StoreBuffer)
      (sys' : MesiSystem n) (hact : s.IsDrain c act ∨ s.phase c = .fencing)
      (he : (s.sb c).buf[s.removalIndex c]? = some e)
      (hsb : Removed (s.sb c) sb' (s.removalIndex c))
      (hsys : ∀ flat, s.sys.Represents flat →
        sys'.Represents (Function.update flat e.addr e.val)) :
      Effect s act
        ⟨sys', Function.update s.sb c sb', Function.update s.phase c (afterDrain (s.phase c))⟩
        (some (.written c e))
  | direct (call : Call n) (w : Option SBEntry) (sys' : MesiSystem n)
      (hsys : ∀ flat, s.sys.Represents flat → sys'.Represents (applyWrite flat w)) :
      Effect s (.direct call) { s with sys := sys' } (some (.direct call.core w))

variable (s : TsoSystem n)

/-- `drain_one` of a core with a nonempty buffer writes one entry. -/
theorem effect_drainOne (act : TsoAction n) (c : Fin n) (visit : VisitOrder c)
    (hact : s.IsDrain c act) (hphase : s.phase c ≠ .fencing) (hne : (s.sb c).buf ≠ [])
    (next : Phase) (hnext : next = afterDrain (s.phase c)) :
    Effect s act (s.drainWith c next ((s.sb c).drainOne s.sys visit)).1
      (s.drainWith c next ((s.sb c).drainOne s.sys visit)).2 := by
  have hlt := (s.sb c).drainIndex_lt hne
  have hidx : s.removalIndex c = (s.sb c).drainIndex := if_neg hphase
  have he : (s.sb c).buf[(s.sb c).drainIndex]? = some ((s.sb c).buf[(s.sb c).drainIndex]) :=
    List.getElem?_eq_getElem hlt
  unfold StoreBuffer.drainOne
  rw [he, hnext]
  refine Effect.written act c _ _ _ (Or.inl hact) (by rw [hidx, he]) ⟨rfl, rfl, ?_, rfl⟩ ?_
  · rw [hidx]
    rfl
  · intro flat h
    exact h.write visit _ _

/-- A drain of an empty buffer does nothing. -/
theorem drainWith_nil (c : Fin n) (visit : VisitOrder c) (hnil : (s.sb c).buf = []) :
    s.drainWith c (s.phase c) ((s.sb c).drainOne s.sys visit) = (s, none) := by
  unfold StoreBuffer.drainOne
  rw [hnil]
  simp [drainWith]

/-- The step of a core that is inside a call, by the call it is inside. -/
theorem resume_effect (c : Fin n) (visit : VisitOrder c)
    (hstoring : s.phase c = .storing → (s.sb c).buf ≠ []) :
    Effect s (.resume c visit) (s.step (.resume c visit)).1 (s.step (.resume c visit)).2 := by
  cases hphase : s.phase c with
  | idle =>
    simp only [step, hphase]
    exact Effect.stutter _
  | storing =>
    simp only [step, hphase]
    refine s.effect_drainOne (.resume c visit) c visit ⟨rfl, Or.inl hphase⟩ ?_
      (hstoring hphase) .idle ?_
    · rw [hphase]; decide
    · rw [hphase]; rfl
  | draining =>
    by_cases hnil : (s.sb c).buf = []
    · simp only [step, hphase, hnil, if_true]
      exact Effect.left _ c hphase hnil
    · simp only [step, hphase, hnil, if_false]
      refine s.effect_drainOne (.resume c visit) c visit ⟨rfl, Or.inr hphase⟩ ?_ hnil
        .draining ?_
      · rw [hphase]; decide
      · rw [hphase]; rfl
  | fencing =>
    cases hbuf : (s.sb c).buf with
    | nil =>
      simp only [step, hphase, hbuf, if_true]
      exact Effect.fenced _ c hphase hbuf
    | cons e rest =>
      have hidx : s.removalIndex c = 0 := if_pos hphase
      have hnext : Phase.fencing = afterDrain (s.phase c) := by rw [hphase]; rfl
      simp only [step, hphase, hbuf, StoreBuffer.fenceOne, drainWith, reduceCtorEq, if_false]
      rw [hnext]
      refine Effect.written _ c e _ _ (Or.inr hphase) ?_ ⟨rfl, rfl, ?_, rfl⟩ ?_
      · rw [hidx, hbuf]
        rfl
      · rw [hidx, hbuf]
        rfl
      · intro flat h
        exact (h.write visit e.addr e.val).congr rfl rfl rfl

/-- Every step has one of the listed outcomes, provided a core inside `store` has
    something to drain. -/
theorem step_effect (act : TsoAction n)
    (hstoring : ∀ c, s.phase c = .storing → (s.sb c).buf ≠ []) :
    Effect s act (s.step act).1 (s.step act).2 := by
  cases act with
  | store c a v =>
    by_cases hidle : s.phase c = .idle
    · simp only [step, hidle, if_true]
      exact Effect.stored c a v hidle
    · simp only [step, hidle, if_false]
      exact Effect.stutter _
  | load c visit a =>
    by_cases hidle : s.phase c = .idle
    · simp only [step, hidle, if_true]
      cases hs : newest? (s.sb c).buf a with
      | some v =>
        simp only [StoreBuffer.load, StoreBuffer.search_eq_newest?, hs]
        exact Effect.bypassed c visit a v hidle hs
      | none =>
        simp only [StoreBuffer.load, StoreBuffer.search_eq_newest?, hs, Function.update_eq_self]
        exact Effect.fetched c visit a _ _ hidle hs fun flat h => h.read visit a
    · simp only [step, hidle, if_false]
      exact Effect.stutter _
  | drainOne c visit =>
    by_cases hidle : s.phase c = .idle
    · simp only [step, hidle, if_true]
      by_cases hnil : (s.sb c).buf = []
      · have h := s.drainWith_nil c visit hnil
        rw [hidle] at h
        rw [h]
        exact Effect.stutter _
      · refine s.effect_drainOne (.drainOne c visit) c visit ⟨rfl, hidle⟩ ?_ hnil .idle ?_
        · rw [hidle]; decide
        · rw [hidle]; rfl
    · simp only [step, hidle, if_false]
      exact Effect.stutter _
  | drainAll c =>
    by_cases hidle : s.phase c = .idle
    · simp only [step, hidle, if_true]
      exact Effect.entered _ c _ hidle (Or.inl rfl)
    · simp only [step, hidle, if_false]
      exact Effect.stutter _
  | mfence c =>
    by_cases hidle : s.phase c = .idle
    · simp only [step, hidle, if_true]
      exact Effect.entered _ c _ hidle (Or.inr rfl)
    · simp only [step, hidle, if_false]
      exact Effect.stutter _
  | resume c visit => exact s.resume_effect c visit (hstoring c)
  | direct call =>
    exact Effect.direct call _ _ fun flat h => h.exec_storedBy call

/-- One core's part of a step: its buffer and phase before and after, the stores its
    program issued and the entries its buffer wrote. -/
inductive CoreEffect (sb : StoreBuffer) (p : Phase) :
    StoreBuffer → Phase → List SBEntry → List SBEntry → Prop where
  | keep (sb' : StoreBuffer) (p' : Phase) (hdepth : sb'.depth = sb.depth)
      (hmode : sb'.mode = sb.mode) (hbuf : sb'.buf = sb.buf) (hdrained : sb'.drained = sb.drained)
      (hp : p' = p ∨ (p ≠ .storing ∧ p' ≠ .storing)) : CoreEffect sb p sb' p' [] []
  | push (e : SBEntry) (hidle : p = .idle) :
      CoreEffect sb p (sb.pushBack e) (if (sb.pushBack e).overflows then .storing else .idle) [e] []
  | remove (e : SBEntry) (k : ℕ) (sb' : StoreBuffer)
      (hk : k = if p = .fencing then 0 else sb.drainIndex) (he : sb.buf[k]? = some e)
      (hsb : Removed sb sb' k) : CoreEffect sb p sb' (afterDrain p) [] [e]

variable {s}

/-- `drain_one` on a nonempty buffer writes the entry at the drawn index. -/
theorem step_of_isDrain {c : Fin n} {act : TsoAction n}
    (hact : s.IsDrain c act) {e : SBEntry}
    (he : (s.sb c).buf[(s.sb c).drainIndex]? = some e) :
    (s.step act).2 = some (.written c e) ∧
      ((s.step act).1.sb c).buf = (s.sb c).buf.eraseIdx (s.sb c).drainIndex := by
  have hne : (s.sb c).buf ≠ [] := by
    intro hnil
    simp [hnil] at he
  cases act with
  | drainOne d visit =>
    obtain ⟨rfl, hidle⟩ := hact
    simp [step, hidle, drainWith, StoreBuffer.drainOne, he, StoreBuffer.removeDrained]
  | resume d visit =>
    obtain ⟨rfl, hphase | hphase⟩ := hact
    · simp [step, hphase, drainWith, StoreBuffer.drainOne, he, StoreBuffer.removeDrained]
    · simp [step, hphase, hne, drainWith, StoreBuffer.drainOne, he, StoreBuffer.removeDrained]
  | store => exact absurd hact id
  | load => exact absurd hact id
  | drainAll => exact absurd hact id
  | mfence => exact absurd hact id
  | direct => exact absurd hact id

/-- Every step is, for every core, one of the three core effects. -/
theorem Effect.core {act : TsoAction n} {s' : TsoSystem n} {o : Option (TsoEvent n)}
    (h : Effect s act s' o) (d : Fin n) :
    CoreEffect (s.sb d) (s.phase d) (s'.sb d) (s'.phase d) (storesOf d o.toList)
      (drainsOf d o.toList) := by
  have hsame : CoreEffect (s.sb d) (s.phase d) (s.sb d) (s.phase d) [] [] :=
    .keep _ _ rfl rfl rfl rfl (Or.inl rfl)
  have hphase : ∀ {c : Fin n} {p : Phase}, s.phase c ≠ .storing → p ≠ .storing →
      CoreEffect (s.sb d) (s.phase d) (s.sb d) (Function.update s.phase c p d) [] [] := by
    intro c p hold hp
    refine .keep _ _ rfl rfl rfl rfl ?_
    by_cases hd : d = c
    · subst hd
      exact Or.inr ⟨hold, by simpa using hp⟩
    · exact Or.inl (by simp [hd])
  cases h with
  | stutter => exact hsame
  | entered _ c p hidle hp =>
    refine hphase (by rw [hidle]; decide) ?_
    rcases hp with rfl | rfl <;> decide
  | left _ c hp _ => exact hphase (by rw [hp]; decide) (by decide)
  | fenced _ c hp _ => exact hphase (by rw [hp]; decide) (by decide)
  | stored c a v hidle =>
    by_cases hd : d = c
    · subst hd
      have hpush : CoreEffect (s.sb d) (s.phase d) _ _ _ _ := .push ⟨a, v⟩ hidle
      simpa [storesOf, drainsOf] using hpush
    · simpa [storesOf, drainsOf, hd, Ne.symm hd] using hsame
  | bypassed c visit a v hidle hv =>
    by_cases hd : d = c
    · subst hd
      simp only [Function.update_self]
      exact .keep _ _ rfl rfl rfl rfl (Or.inl rfl)
    · simpa [storesOf, drainsOf, hd] using hsame
  | fetched c visit a v sys' hidle hv hsys => exact hsame
  | written _ c e sb' sys' hact he hsb hsys =>
    by_cases hd : d = c
    · subst hd
      have hremove : CoreEffect (s.sb d) (s.phase d) _ _ _ _ := .remove e _ sb' rfl he hsb
      simpa [storesOf, drainsOf] using hremove
    · simpa [storesOf, drainsOf, hd, Ne.symm hd] using hsame
  | direct call w sys' hsys => exact hsame

/-- **Trace invariant rule**: a property of the events so far and the state that
    holds initially and survives every step that meets `C` holds along every run whose
    steps meet `C`. -/
theorem trace_invariant_of {P : List (TsoEvent n) → TsoSystem n → Prop}
    {C : TsoSystem n → TsoAction n → Prop} (s₀ : TsoSystem n) (h0 : P [] s₀)
    (hstep : ∀ tr s act, P tr s → C s act → P (tr ++ (s.step act).2.toList) (s.step act).1)
    (acts : List (TsoAction n)) (hC : (machine n).AllSteps C s₀ acts) :
    P (s₀.trace acts) ((machine n).run s₀ acts) := by
  refine (machine n).history_invariant (P := fun _ os s => P os.reduceOption s) h0 ?_ acts hC
  intro is os s act h hc
  rw [List.reduceOption_append, List.reduceOption_singleton]
  exact hstep os.reduceOption s act h hc

/-- The same for a property that every step keeps. -/
theorem trace_invariant {P : List (TsoEvent n) → TsoSystem n → Prop} (s₀ : TsoSystem n)
    (h0 : P [] s₀)
    (hstep : ∀ tr s act, P tr s → P (tr ++ (s.step act).2.toList) (s.step act).1)
    (acts : List (TsoAction n)) : P (s₀.trace acts) ((machine n).run s₀ acts) :=
  trace_invariant_of (C := fun _ _ => True) s₀ h0 (fun tr s act h _ => hstep tr s act h) acts
    ((machine n).allSteps_of_forall (fun _ _ => trivial) s₀ acts)

theorem trace_append (s₀ : TsoSystem n) (acts : List (TsoAction n)) (act : TsoAction n) :
    s₀.trace (acts ++ [act]) =
      s₀.trace acts ++ (((machine n).run s₀ acts).step act).2.toList := by
  unfold trace
  rw [Machine.outputs_append, List.reduceOption_append]
  exact congrArg _ (List.reduceOption_singleton _)

end TsoSystem

theorem newest?_append_singleton (es : List SBEntry) (e : SBEntry) (a : Word) :
    newest? (es ++ [e]) a = if e.addr = a then some e.val else newest? es a := by
  unfold newest?
  by_cases h : e.addr = a
  · simp [List.filter_append, h]
  · simp [List.filter_append, h]

/-- The most recent coherent writes after one more event. -/
theorem lastWrite_append (tr : List (TsoEvent n)) (ev : TsoEvent n) :
    lastWrite (tr ++ [ev]) = applyWrite (lastWrite tr) ev.coherentWrite? := by
  funext a
  unfold lastWrite
  cases hw : ev.coherentWrite? with
  | none => simp [hw, applyWrite]
  | some e =>
    rw [List.filterMap_append]
    simp only [List.filterMap_cons, hw, List.filterMap_nil, newest?_append_singleton]
    by_cases h : e.addr = a
    · simp [h, applyWrite]
    · simp [h, applyWrite, Function.update_of_ne (Ne.symm h)]

/-- A step moves the represented memory by the coherent write it shows. -/
theorem TsoSystem.Effect.represents {s s' : TsoSystem n} {act : TsoAction n}
    {o : Option (TsoEvent n)} (h : s.Effect act s' o) {tr : List (TsoEvent n)}
    (hr : s.sys.Represents (lastWrite tr)) :
    s'.sys.Represents (lastWrite (tr ++ o.toList)) := by
  cases h with
  | stutter => simpa using hr
  | entered => simpa using hr
  | left => simpa using hr
  | fenced => rw [Option.toList_some, lastWrite_append]; exact hr
  | stored => rw [Option.toList_some, lastWrite_append]; exact hr
  | bypassed => rw [Option.toList_some, lastWrite_append]; exact hr
  | fetched c visit a v sys' hidle hv hsys =>
    rw [Option.toList_some, lastWrite_append]
    exact (hsys _ hr).1
  | written _ c e sb' sys' hact he hsb hsys =>
    rw [Option.toList_some, lastWrite_append]
    exact hsys _ hr
  | direct call w sys' hsys =>
    rw [Option.toList_some, lastWrite_append]
    exact hsys _ hr

end MesiCoherence
