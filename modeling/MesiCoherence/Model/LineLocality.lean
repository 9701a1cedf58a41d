import Mathlib.Algebra.BigOperators.Pi
import MesiCoherence.Lib.Locality
import MesiCoherence.Model.VisitOrders

/-!
# Different lines do not interfere

Caches, the word registry and memory are maps keyed by words or lines, and the counters
are shared by all lines. Still an operation reads and writes only what belongs to its own
line: the known words of a line lie on that line, so the loops over them leave all other
keys alone. With this the system is a machine whose inputs act locally, one part per
line.
-/

namespace MesiCoherence

variable {n : ℕ}

/-- What the system keeps of one line: its state and words in every cache, its words in
    memory, and the words the registry knows of it. -/
@[ext] structure LinePart (n : ℕ) where
  state : Fin n → Option State
  data : Fin n → Word → Option Word
  memory : Word → Option Word
  words : List Word

/-- The part of a bus that belongs to a line. -/
def SnoopingBus.linePart (b : SnoopingBus n) (line : Word) : LinePart n where
  state i := (b.controllers i).state line
  data i x := if lineOf x = line then (b.controllers i).data x else none
  memory x := if lineOf x = line then b.mem.data x else none
  words := b.lineWords line

namespace CacheController

variable (c : CacheController)

theorem state_setState (line l : Word) (s : State) :
    (c.setState line s).state l =
      if l = line then (if s = .I then none else some s) else c.state l := by
  unfold setState
  by_cases hs : s = .I <;> by_cases hl : l = line <;> simp [hs, hl]

/-- A snoop moves the state of its line by what that state was. -/
theorem state_snoopController_congr {c c' : CacheController} {line : Word}
    (h : c.state line = c'.state line) (ws ws' : List Word) (txn : BusTxn) :
    (c.snoopController ws txn line).state line = (c'.snoopController ws' txn line).state line := by
  have hst : c.lineState line = c'.lineState line := by simp only [lineState, h]
  unfold snoopController
  rw [hst]
  split
  · exact h
  · split
    · simp only [setWords, state_setState, if_true]
    · simp only [state_setState, if_true]

theorem state_snoopController_of_ne (ws : List Word) (txn : BusTxn) {line l : Word}
    (h : l ≠ line) : (c.snoopController ws txn line).state l = c.state l := by
  unfold snoopController
  split
  · rfl
  · split
    · simp only [setWords, state_setState, if_neg h]
    · simp only [state_setState, if_neg h]

end CacheController

namespace SnoopingBus

variable {b b' : SnoopingBus n} {line : Word}

/-- Two buses agree on a line. -/
structure SameLine (line : Word) (b b' : SnoopingBus n) : Prop where
  state : ∀ i, (b.controllers i).state line = (b'.controllers i).state line
  data : ∀ i x, lineOf x = line → (b.controllers i).data x = (b'.controllers i).data x
  memory : ∀ x, lineOf x = line → b.mem.data x = b'.mem.data x
  words : b.lineWords line = b'.lineWords line

theorem linePart_eq_iff : b.linePart line = b'.linePart line ↔ SameLine line b b' := by
  constructor
  · intro h
    refine ⟨fun i => congrFun (congrArg LinePart.state h) i, ?_, ?_, congrArg LinePart.words h⟩
    · intro i x hx
      have hdata := congrFun (congrFun (congrArg LinePart.data h) i) x
      simpa [linePart, hx] using hdata
    · intro x hx
      have hmem := congrFun (congrArg LinePart.memory h) x
      simpa [linePart, hx] using hmem
  · intro h
    apply LinePart.ext
    · funext i
      exact h.state i
    · funext i x
      simp only [linePart]
      split
      · next hx => exact h.data i x hx
      · rfl
    · funext x
      simp only [linePart]
      split
      · next hx => exact h.memory x hx
      · rfl
    · exact h.words

/-- What a bus holds besides its counters. -/
def contents (b : SnoopingBus n) :
    (Fin n → CacheController) × (Word → Option Word) × (Word → List Word) :=
  (b.controllers, b.mem.data, b.lineWords)

theorem contents_eq_iff : b.contents = b'.contents ↔ b.controllers = b'.controllers ∧
    b.mem.data = b'.mem.data ∧ b.lineWords = b'.lineWords := by
  simp only [contents, Prod.mk.injEq]

/-- Every known word of a line lies on it. -/
def WordsOnLine (b : SnoopingBus n) : Prop := ∀ l a, a ∈ b.wordsInLine l → lineOf a = l

namespace SameLine

theorem refl (line : Word) (b : SnoopingBus n) : SameLine line b b :=
  ⟨fun _ => rfl, fun _ _ _ => rfl, fun _ _ => rfl, rfl⟩

theorem trans {b'' : SnoopingBus n} (h : SameLine line b b') (h' : SameLine line b' b'') :
    SameLine line b b'' :=
  ⟨fun i => (h.state i).trans (h'.state i), fun i x hx => (h.data i x hx).trans (h'.data i x hx),
    fun x hx => (h.memory x hx).trans (h'.memory x hx), h.words.trans h'.words⟩

theorem lineState (h : SameLine line b b') (i : Fin n) :
    b.lineState i line = b'.lineState i line := by
  simp only [SnoopingBus.lineState, CacheController.lineState, h.state i]

theorem peek {a : Word} (h : SameLine (lineOf a) b b') (i : Fin n) :
    (b.controllers i).peek a = (b'.controllers i).peek a := by
  simp only [CacheController.peek, h.data i a rfl]

theorem hasWord {a : Word} (h : SameLine (lineOf a) b b') (i : Fin n) :
    (b.controllers i).hasWord a = (b'.controllers i).hasWord a := by
  simp only [CacheController.hasWord, h.data i a rfl]

/-- Counters do not belong to a line. -/
theorem congr {c c' : SnoopingBus n} (h : SameLine line b b') (hc : c.contents = b.contents)
    (hc' : c'.contents = b'.contents) : SameLine line c c' := by
  obtain ⟨hcaches, hmem, hwords⟩ := contents_eq_iff.mp hc
  obtain ⟨hcaches', hmem', hwords'⟩ := contents_eq_iff.mp hc'
  refine ⟨fun i => ?_, fun i x hx => ?_, fun x hx => ?_, ?_⟩
  · rw [hcaches, hcaches', h.state i]
  · rw [hcaches, hcaches', h.data i x hx]
  · rw [hmem, hmem', h.memory x hx]
  · rw [hwords, hwords', h.words]

theorem registerAddr (h : SameLine line b b') (a : Word) :
    SameLine line (b.registerAddr a) (b'.registerAddr a) := by
  refine ⟨h.state, h.data, h.memory, ?_⟩
  unfold SnoopingBus.registerAddr
  by_cases hl : line = lineOf a
  · subst hl
    simp [h.words]
  · simp [hl, h.words]

theorem setState (h : SameLine line b b') (i : Fin n) (l : Word) (st : State) :
    SameLine line (b.setState i l st) (b'.setState i l st) := by
  refine ⟨fun j => ?_, fun j x hx => ?_, h.memory, h.words⟩
  · by_cases hj : j = i
    · subst hj
      simp [SnoopingBus.setState, CacheController.state_setState, h.state j]
    · simp [SnoopingBus.setState, hj, h.state j]
  · rw [data_setState, data_setState, h.data j x hx]

theorem putWord (h : SameLine line b b') (i : Fin n) (a v : Word) :
    SameLine line (b.putWord i a v) (b'.putWord i a v) := by
  refine ⟨fun j => ?_, fun j x hx => ?_, h.memory, h.words⟩
  · by_cases hj : j = i
    · subst hj
      simp [SnoopingBus.putWord, CacheController.putWord, h.state j]
    · simp [SnoopingBus.putWord, hj, h.state j]
  · rw [data_putWord, data_putWord, h.data j x hx]

theorem fillLine (h : SameLine line b b') (i : Fin n) :
    SameLine line (b.fillLine i line) (b'.fillLine i line) := by
  have hwords : b.wordsInLine line = b'.wordsInLine line := h.words
  refine ⟨fun j => ?_, fun j x hx => ?_, ?_, ?_⟩
  · rw [fillLine_eq, fillLine_eq]
    by_cases hj : j = i
    · subst hj
      simp [CacheController.setWords, h.state j]
    · simp [hj, h.state j]
  · have hread : b.mem.read x = b'.mem.read x := by simp only [Memory.read, h.memory x hx]
    rw [data_fillLine, data_fillLine, hwords, hread, h.data j x hx]
  · rw [fillLine_eq, fillLine_eq]
    exact h.memory
  · rw [fillLine_eq, fillLine_eq]
    exact h.words

/-- A snoop on a line depends on that line only. -/
theorem snooped {addr : Word} (h : SameLine (lineOf addr) b b') (i : Fin n) (txn : BusTxn) :
    SameLine (lineOf addr) (b.snooped i txn addr) (b'.snooped i txn addr) := by
  have hwords : b.wordsInLine (lineOf addr) = b'.wordsInLine (lineOf addr) := h.words
  have hst : ∀ j, b.lineState j (lineOf addr) = b'.lineState j (lineOf addr) := h.lineState
  refine ⟨fun j => ?_, fun j x hx => ?_, fun x hx => ?_, h.words⟩
  · by_cases hj : j = i
    · subst hj
      simp only [SnoopingBus.snooped, Function.update_self]
      exact CacheController.state_snoopController_congr (h.state j) _ _ txn
    · simp only [SnoopingBus.snooped, Function.update_of_ne hj, h.state j]
  · have hlost : b.LosesCopy i txn (lineOf addr) ↔ b'.LosesCopy i txn (lineOf addr) := by
      rw [LosesCopy, LosesCopy, hst]
    simp only [snooped_data, hwords, hlost, h.data j x hx]
  · have hstate : (b.controllers i).lineState (lineOf addr) =
        (b'.controllers i).lineState (lineOf addr) := hst i
    have hx' : SameLine (lineOf x) b b' := hx ▸ h
    simp only [SnoopingBus.snooped, Memory.snoopMemory, hstate]
    split
    · simp only [Memory.writeback, hwords, hx'.hasWord i, hx'.peek i, h.memory x hx]
    · exact h.memory x hx

theorem snoopAll {addr : Word} (txn : BusTxn) (is : List (Fin n)) (b b' : SnoopingBus n)
    (agg agg' : SnoopResult) (h : SameLine (lineOf addr) b b') :
    SameLine (lineOf addr) (snoopAll txn addr is b agg).1 (snoopAll txn addr is b' agg').1 := by
  induction is generalizing b b' agg agg' with
  | nil => exact h
  | cons i is ih =>
    rw [SnoopingBus.snoopAll, SnoopingBus.snoopAll, snoop_fst, snoop_fst]
    exact ih _ _ _ _ (h.snooped i txn)

variable {i : Fin n} (visit : VisitOrder i)

theorem afterBroadcast {addr : Word} (h : SameLine (lineOf addr) b b') (txn : BusTxn) :
    SameLine (lineOf addr) (b.afterBroadcast visit txn addr)
      (b'.afterBroadcast visit txn addr) := by
  have hreg : SameLine (lineOf addr) (((b.registerAddr addr).countMiss i).countStall i)
      (((b'.registerAddr addr).countMiss i).countStall i) :=
    (h.registerAddr addr).congr rfl rfl
  exact (snoopAll txn visit.order _ _ {} {} hreg).congr rfl rfl

theorem processorRead {addr : Word} (h : SameLine (lineOf addr) b b') :
    SameLine (lineOf addr) (b.processorRead visit addr).1 (b'.processorRead visit addr).1 := by
  by_cases hI : b.lineState i (lineOf addr) = .I
  · have hI' : b'.lineState i (lineOf addr) = .I := by rw [← h.lineState i, hI]
    have hcopy : ((((b.registerAddr addr).countMiss i).countStall i).broadcast
        .busRd addr visit).2.hadCopy = ((((b'.registerAddr addr).countMiss i).countStall
        i).broadcast .busRd addr visit).2.hadCopy := by
      rw [Bool.eq_iff_iff, broadcast_hadCopy, broadcast_hadCopy]
      exact exists_congr fun j => and_congr_right fun _ => not_congr (by
        change b.lineState j (lineOf addr) = .I ↔ b'.lineState j (lineOf addr) = .I
        rw [h.lineState j])
    rw [processorRead_miss b visit hI, processorRead_miss b' visit hI', hcopy]
    exact ((h.afterBroadcast visit .busRd).fillLine i).setState i _ _
  · have hI' : b'.lineState i (lineOf addr) ≠ .I := by rw [← h.lineState i]; exact hI
    rw [processorRead_hit b visit hI, processorRead_hit b' visit hI']
    exact (h.registerAddr addr).congr rfl rfl

theorem acquireExclusive {addr : Word} (h : SameLine (lineOf addr) b b') :
    SameLine (lineOf addr) (b.acquireExclusive visit addr).1
      (b'.acquireExclusive visit addr).1 := by
  have hst := h.lineState i
  have hreg := h.registerAddr addr
  cases hs : b.lineState i (lineOf addr) with
  | M =>
    rw [acquireExclusive_M b visit hs, acquireExclusive_M b' visit (hst ▸ hs)]
    exact hreg.congr rfl rfl
  | E =>
    rw [acquireExclusive_E b visit hs, acquireExclusive_E b' visit (hst ▸ hs)]
    have hcount : SameLine (lineOf addr) ((b.registerAddr addr).countHit i)
        ((b'.registerAddr addr).countHit i) := hreg.congr rfl rfl
    exact hcount.setState i _ _
  | S =>
    rw [acquireExclusive_S b visit hs, acquireExclusive_S b' visit (hst ▸ hs)]
    have hcount : SameLine (lineOf addr) (((b.registerAddr addr).countHit i).countStall i)
        (((b'.registerAddr addr).countHit i).countStall i) :=
      hreg.congr rfl rfl
    have hbus : SameLine (lineOf addr)
        (((((b.registerAddr addr).countHit i).countStall i).broadcast .busUpgr addr
          visit).1.account .busUpgr)
        (((((b'.registerAddr addr).countHit i).countStall i).broadcast .busUpgr addr
          visit).1.account .busUpgr) :=
      (snoopAll .busUpgr visit.order _ _ {} {} hcount).congr rfl rfl
    exact hbus.setState i _ _
  | I =>
    rw [acquireExclusive_I b visit hs, acquireExclusive_I b' visit (hst ▸ hs)]
    exact ((h.afterBroadcast visit .busRdX).fillLine i).setState i _ _

end SameLine

-- ════════════════════════════════════════════════════════════════════════
-- An operation on another line
-- ════════════════════════════════════════════════════════════════════════

section Frame

variable {addr : Word} (hne : line ≠ lineOf addr)

include hne

theorem sameLine_registerAddr : SameLine line (b.registerAddr addr) b := by
  refine ⟨fun _ => rfl, fun _ _ _ => rfl, fun _ _ => rfl, ?_⟩
  simp [registerAddr, hne]

theorem sameLine_setState (i : Fin n) (st : State) :
    SameLine line (b.setState i (lineOf addr) st) b := by
  refine ⟨fun j => ?_, fun j x hx => ?_, fun _ _ => rfl, rfl⟩
  · by_cases hj : j = i
    · subst hj
      simp [setState, CacheController.state_setState, hne]
    · simp [setState, hj]
  · rw [data_setState]

theorem sameLine_putWord (i : Fin n) (v : Word) : SameLine line (b.putWord i addr v) b := by
  refine ⟨fun j => ?_, fun j x hx => ?_, fun _ _ => rfl, rfl⟩
  · by_cases hj : j = i
    · subst hj
      simp [putWord, CacheController.putWord]
    · simp [putWord, hj]
  · have hx' : x ≠ addr := by
      rintro rfl
      exact hne hx.symm
    rw [data_putWord, if_neg fun hc => hx' hc.2]

variable (hw : b.WordsOnLine)

include hw

theorem sameLine_fillLine (i : Fin n) : SameLine line (b.fillLine i (lineOf addr)) b := by
  refine ⟨fun j => ?_, fun j x hx => ?_, ?_, ?_⟩
  · rw [fillLine_eq]
    by_cases hj : j = i
    · subst hj
      simp [CacheController.setWords]
    · simp [hj]
  · have hx' : x ∉ b.wordsInLine (lineOf addr) := fun hmem => hne (hx.symm.trans (hw _ x hmem))
    rw [data_fillLine, if_neg fun hc => hx' hc.2]
  · rw [fillLine_eq]
    exact fun _ _ => rfl
  · rw [fillLine_eq]
    rfl

theorem sameLine_snooped (i : Fin n) (txn : BusTxn) : SameLine line (b.snooped i txn addr) b := by
  have hoff : ∀ x, lineOf x = line → x ∉ b.wordsInLine (lineOf addr) := fun x hx hmem =>
    hne (hx.symm.trans (hw _ x hmem))
  refine ⟨fun j => ?_, fun j x hx => ?_, fun x hx => ?_, rfl⟩
  · by_cases hj : j = i
    · subst hj
      simp only [snooped, Function.update_self]
      exact CacheController.state_snoopController_of_ne _ _ txn hne
    · simp only [snooped, Function.update_of_ne hj]
  · rw [snooped_data, if_neg fun hc => hoff x hx hc.2.2]
  · simp only [snooped, Memory.snoopMemory]
    split
    · simp only [Memory.writeback, if_neg fun hc : _ ∧ _ => hoff x hx hc.1]
    · rfl

end Frame

theorem sameLine_snoopAll {addr : Word} (hne : line ≠ lineOf addr) (txn : BusTxn)
    (is : List (Fin n)) (b : SnoopingBus n) (agg : SnoopResult) (hw : b.WordsOnLine) :
    SameLine line (snoopAll txn addr is b agg).1 b := by
  induction is generalizing b agg with
  | nil => exact .refl line b
  | cons i is ih =>
    rw [snoopAll, snoop_fst]
    exact (ih (b.snooped i txn addr) _ hw).trans (sameLine_snooped hne hw i txn)

theorem WordsOnLine.registerAddr (hw : b.WordsOnLine) (a : Word) :
    (b.registerAddr a).WordsOnLine := by
  intro l x hx
  rcases (mem_registerAddr_wordsInLine b a x l).mp hx with hold | ⟨rfl, rfl⟩
  · exact hw l x hold
  · rfl

section FrameOps

variable {addr : Word} (hne : line ≠ lineOf addr) (hw : b.WordsOnLine) {i : Fin n}
  (visit : VisitOrder i)

include hw

theorem wordsOnLine_afterBroadcast (txn : BusTxn) :
    (b.afterBroadcast visit txn addr).WordsOnLine := by
  unfold WordsOnLine wordsInLine
  rw [afterBroadcast_lineWords]
  exact hw.registerAddr addr

include hne

theorem sameLine_afterBroadcast (txn : BusTxn) :
    SameLine line (b.afterBroadcast visit txn addr) b := by
  have hreg : SameLine line (((b.registerAddr addr).countMiss i).countStall i) b :=
    (sameLine_registerAddr (b := b) hne).congr rfl rfl
  have hsnoop := sameLine_snoopAll hne txn visit.order
    (((b.registerAddr addr).countMiss i).countStall i) {} (hw.registerAddr addr)
  exact (hsnoop.trans hreg).congr rfl rfl

/-- Installing a fetched line touches no other line. -/
theorem sameLine_install (txn : BusTxn) (st : State) :
    SameLine line (((b.afterBroadcast visit txn addr).fillLine i (lineOf addr)).setState i
      (lineOf addr) st) b :=
  ((sameLine_setState hne i st).trans (sameLine_fillLine hne
    (wordsOnLine_afterBroadcast hw visit txn) i)).trans
    (sameLine_afterBroadcast hne hw visit txn)

theorem sameLine_processorRead : SameLine line (b.processorRead visit addr).1 b := by
  by_cases hI : b.lineState i (lineOf addr) = .I
  · rw [processorRead_miss b visit hI]
    exact sameLine_install hne hw visit .busRd _
  · rw [processorRead_hit b visit hI]
    exact (sameLine_registerAddr (b := b) hne).congr rfl rfl

theorem sameLine_acquireExclusive : SameLine line (b.acquireExclusive visit addr).1 b := by
  have hreg := sameLine_registerAddr (b := b) hne
  cases hs : b.lineState i (lineOf addr) with
  | M =>
    rw [acquireExclusive_M b visit hs]
    exact hreg.congr rfl rfl
  | E =>
    rw [acquireExclusive_E b visit hs]
    exact (sameLine_setState hne i .M).trans (hreg.congr rfl rfl)
  | S =>
    rw [acquireExclusive_S b visit hs]
    have hsnoop := sameLine_snoopAll hne .busUpgr visit.order
      (((b.registerAddr addr).countHit i).countStall i) {} (hw.registerAddr addr)
    have hcount : SameLine line (((b.registerAddr addr).countHit i).countStall i) b :=
      hreg.congr rfl rfl
    exact (sameLine_setState hne i .M).trans
      ((hsnoop.trans hcount).congr rfl rfl)
  | I =>
    rw [acquireExclusive_I b visit hs]
    exact sameLine_install hne hw visit .busRdX .M

end FrameOps

end SnoopingBus

namespace MesiSystem

/-- The system as a machine of calls alone. -/
def callMachine (n : ℕ) : Machine (MesiSystem n) (Call n) (Reply Word) := ⟨exec⟩

/-- The replies of a fresh system to a history of calls. -/
def replies (n : ℕ) (calls : List (Call n)) : List (Reply Word) :=
  (callMachine n).outputs (new n) calls

theorem after_eq_run (n : ℕ) (calls : List (Call n)) :
    after n calls = (callMachine n).run (new n) calls := by
  have hruns : ∀ (calls : List (Call n)) (s : MesiSystem n),
      (machine n).run s (calls.map .call) = (callMachine n).run s calls := by
    intro calls
    induction calls with
    | nil => exact fun _ => rfl
    | cons c calls ih => exact fun s => ih (s.exec c).1
  exact hruns calls (new n)

/-- A call touches its own line only. -/
theorem exec_frame {s : MesiSystem n} (hw : s.bus.WordsOnLine) (c : Call n) {line : Word}
    (hne : line ≠ lineOf c.access.addr) :
    SnoopingBus.SameLine line (s.exec c).1.bus s.bus := by
  rcases s.exec_bus_cases c with ⟨-, hb⟩ | ⟨-, hb | ⟨v, hb⟩⟩
  · rw [hb]
    exact SnoopingBus.sameLine_processorRead hne hw c.visit
  · rw [hb]
    exact SnoopingBus.sameLine_acquireExclusive hne hw c.visit
  · rw [hb]
    exact (SnoopingBus.sameLine_putWord hne c.core v).trans
      (SnoopingBus.sameLine_acquireExclusive hne hw c.visit)

/-- What a call does to its line, and what it returns, depends on that line only. -/
theorem exec_own {s t : MesiSystem n} (c : Call n)
    (h : SnoopingBus.SameLine (lineOf c.access.addr) s.bus t.bus) :
    SnoopingBus.SameLine (lineOf c.access.addr) (s.exec c).1.bus (t.exec c).1.bus ∧
      (s.exec c).2 = (t.exec c).2 := by
  rw [s.exec_bus, t.exec_bus, s.exec_reply, t.exec_reply]
  have hacq := h.acquireExclusive c.visit
  have hfound : (s.bus.acquireExclusive c.visit c.access.addr).2 =
      (t.bus.acquireExclusive c.visit c.access.addr).2 := by
    rw [SnoopingBus.acquireExclusive_snd, SnoopingBus.acquireExclusive_snd]
    exact hacq.peek c.core
  cases ha : c.access with
  | read a =>
    rw [ha] at h
    have hread := h.processorRead c.visit
    refine ⟨hread, congrArg (Access.reply · _) ?_⟩
    dsimp only
    rw [SnoopingBus.processorRead_snd, SnoopingBus.processorRead_snd]
    exact hread.peek c.core
  | write a v =>
    rw [ha] at hacq
    exact ⟨hacq.putWord c.core a v, rfl⟩
  | cas a e v =>
    rw [ha] at hacq hfound
    refine ⟨?_, congrArg (Access.reply · _) hfound⟩
    change SnoopingBus.SameLine (lineOf a) _ _
    dsimp only
    rw [show (s.bus.acquireExclusive c.visit a).2 = (t.bus.acquireExclusive c.visit a).2
      from hfound]
    split
    · exact hacq.putWord c.core a v
    · exact hacq
  | fetchAndAdd a d =>
    rw [ha] at hacq hfound
    refine ⟨?_, congrArg (Access.reply · _) hfound⟩
    change SnoopingBus.SameLine (lineOf a) _ _
    dsimp only
    rw [show (s.bus.acquireExclusive c.visit a).2 = (t.bus.acquireExclusive c.visit a).2
      from hfound]
    exact hacq.putWord c.core a _

/-- **Calls act locally**, each on the line it accesses. -/
theorem callMachine_local (n : ℕ) :
    (callMachine n).Local Settled (fun c => lineOf c.access.addr)
      (fun line s => s.bus.linePart line) where
  inv s c hs := hs.step (.call c)
  frame s c line hs hne := by
    obtain ⟨⟨flat, hco⟩, -⟩ := hs
    exact SnoopingBus.linePart_eq_iff.mpr (exec_frame hco.words_line c hne)
  own s t c _ _ hv := by
    obtain ⟨hline, hreply⟩ := exec_own c (SnoopingBus.linePart_eq_iff.mp hv)
    exact ⟨SnoopingBus.linePart_eq_iff.mpr hline, hreply⟩

end MesiSystem

-- ════════════════════════════════════════════════════════════════════════
-- Counters
-- ════════════════════════════════════════════════════════════════════════

/-- The names of the counters of a system with `n` cores. -/
inductive Counter (n : ℕ) where
  | busCyclesBusy
  | busRd
  | busRdx
  | busUpgr
  | busWb
  | inv (core : Fin n)
  | l1Hit (core : Fin n)
  | l1Miss (core : Fin n)
  | stall (core : Fin n)
  | sbDrain (core : Fin n)

namespace PerfCounters

/-- The value of a counter. -/
def get (p : PerfCounters n) : Counter n → ℕ
  | .busCyclesBusy => p.busCyclesBusy
  | .busRd => p.busRdCount
  | .busRdx => p.busRdxCount
  | .busUpgr => p.busUpgrCount
  | .busWb => p.busWbCount
  | .inv i => p.invCount i
  | .l1Hit i => p.l1Hit i
  | .l1Miss i => p.l1Miss i
  | .stall i => p.stallCycles i
  | .sbDrain i => p.sbDrainCycles i

theorem get_injective {p q : PerfCounters n} (h : p.get = q.get) : p = q := by
  have hk : ∀ k, p.get k = q.get k := fun k => congrFun h k
  apply PerfCounters.ext
  · exact hk .busCyclesBusy
  · exact hk .busRd
  · exact hk .busRdx
  · exact hk .busUpgr
  · exact hk .busWb
  · exact funext fun i => hk (.inv i)
  · exact funext fun i => hk (.l1Hit i)
  · exact funext fun i => hk (.l1Miss i)
  · exact funext fun i => hk (.stall i)
  · exact funext fun i => hk (.sbDrain i)

end PerfCounters

namespace SnoopingBus

/-- By how much an operation of core `i` that issues `txn` on `line` raises a counter. -/
def opCost (b : SnoopingBus n) (i : Fin n) (txn : BusTxn) (line : Word) : Counter n → ℕ
  | .busCyclesBusy => (if txn = .none then 0 else 1) + b.writebacks i txn line
  | .busRd => if txn = .busRd then 1 else 0
  | .busRdx => if txn = .busRdX then 1 else 0
  | .busUpgr => if txn = .busUpgr then 1 else 0
  | .busWb => b.writebacks i txn line
  | .inv j => if j ≠ i ∧ b.LosesCopy j txn line then 1 else 0
  | .l1Hit j => if j = i ∧ b.lineState i line ≠ .I then 1 else 0
  | .l1Miss j => if j = i ∧ b.lineState i line = .I then 1 else 0
  | .stall j => if j = i ∧ txn ≠ .none then 1 else 0
  | .sbDrain _ => 0

theorem opPerf_get (b : SnoopingBus n) (i : Fin n) (txn : BusTxn) (line : Word) :
    (b.opPerf i txn line).get = b.perf.get + b.opCost i txn line := by
  funext k
  cases k with
  | busCyclesBusy => exact Nat.add_assoc _ _ _
  | _ => rfl

theorem opCost_congr {b b' : SnoopingBus n} {line : Word} (h : SameLine line b b') (i : Fin n)
    (txn : BusTxn) : b.opCost i txn line = b'.opCost i txn line := by
  have hst := h.lineState
  have hwb : b.writebacks i txn line = b'.writebacks i txn line := by
    refine if_congr (and_congr_right fun _ => ?_) rfl rfl
    simp only [DirtyPeer, hst]
  have hlost : ∀ j, b.LosesCopy j txn line ↔ b'.LosesCopy j txn line := by
    intro j
    simp only [LosesCopy, hst]
  funext k
  cases k <;> simp only [opCost, hwb, hlost, hst]

end SnoopingBus

namespace MesiSystem

/-- By how much a call raises each counter. -/
def callCost (s : MesiSystem n) (c : Call n) : Counter n → ℕ :=
  s.bus.opCost c.core (opTxn c.acquires (s.lineState c.core (lineOf c.access.addr)))
    (lineOf c.access.addr)

theorem exec_counters {s : MesiSystem n} (hs : s.Settled) (c : Call n) :
    (s.exec c).1.bus.perf.get = s.bus.perf.get + s.callCost c := by
  obtain ⟨⟨flat, hco⟩, -⟩ := hs
  rw [exec_perf hco, SnoopingBus.opPerf_get]
  rfl

theorem callCost_congr {s t : MesiSystem n} (c : Call n)
    (h : s.bus.linePart (lineOf c.access.addr) = t.bus.linePart (lineOf c.access.addr)) :
    s.callCost c = t.callCost c := by
  have hline := SnoopingBus.linePart_eq_iff.mp h
  have hst : s.lineState c.core (lineOf c.access.addr) =
      t.lineState c.core (lineOf c.access.addr) := hline.lineState c.core
  unfold callCost
  rw [hst, SnoopingBus.opCost_congr hline]

/-- A bus whose transactions are accounted is determined by its lines and counters. -/
theorem bus_eq_of_lines {b b' : SnoopingBus n} (ha : b.Accounted) (ha' : b'.Accounted)
    (hlines : ∀ line, b.linePart line = b'.linePart line) (hperf : b.perf = b'.perf) :
    b = b' := by
  have hsame : ∀ line, SnoopingBus.SameLine line b b' := fun line =>
    SnoopingBus.linePart_eq_iff.mp (hlines line)
  apply SnoopingBus.ext
  · funext i
    have hstate : (b.controllers i).state = (b'.controllers i).state :=
      funext fun line => (hsame line).state i
    have hdata : (b.controllers i).data = (b'.controllers i).data :=
      funext fun x => (hsame (lineOf x)).data i x rfl
    cases hb : b.controllers i
    cases hb' : b'.controllers i
    rw [hb, hb'] at hstate hdata
    congr
  · have hdata : b.mem.data = b'.mem.data := funext fun x => (hsame (lineOf x)).memory x rfl
    have hacc : b.mem.accesses = b'.mem.accesses := by rw [ha.accesses, ha'.accesses, hperf]
    cases hb : b.mem
    cases hb' : b'.mem
    rw [hb, hb'] at hdata hacc
    congr
  · exact hperf
  · exact funext fun line => (hsame line).words
  · rw [ha.arb, ha'.arb, hperf]

/-- Two calls on different lines commute. -/
theorem exec_comm {s : MesiSystem n} (hs : s.Settled) {c d : Call n}
    (hne : lineOf c.access.addr ≠ lineOf d.access.addr) :
    ((s.exec c).1.exec d).1.bus = ((s.exec d).1.exec c).1.bus ∧
      ((s.exec c).1.exec d).2 = (s.exec d).2 ∧ ((s.exec d).1.exec c).2 = (s.exec c).2 := by
  obtain ⟨hlines, hd, hc, hcount⟩ := (callMachine_local n).step_comm
    (fun s => s.bus.perf.get) callCost
    (fun s c hs => exec_counters hs c) (fun s t c _ _ hv => callCost_congr c hv) hs hne
  refine ⟨?_, hd, hc⟩
  have hcd := (hs.step (.call c)).step (.call d)
  have hdc := (hs.step (.call d)).step (.call c)
  exact bus_eq_of_lines hcd.2 hdc.2 hlines (PerfCounters.get_injective hcount)

/-- Systems with the same bus behave the same. -/
theorem run_of_bus_eq {s t : MesiSystem n} (h : s.bus = t.bus) (calls : List (Call n)) :
    ((callMachine n).run s calls).bus = ((callMachine n).run t calls).bus ∧
      (callMachine n).outputs s calls = (callMachine n).outputs t calls := by
  refine Machine.simulation (R := fun s t : MesiSystem n => s.bus = t.bus) ?_ h calls
  intro s t c h
  change (s.exec c).1.bus = (t.exec c).1.bus ∧ (s.exec c).2 = (t.exec c).2
  rw [s.exec_bus, t.exec_bus, s.exec_reply, t.exec_reply, h]
  exact ⟨rfl, rfl⟩

/-- **Different lines do not interfere.** In any history of calls on a fresh system, each
    line is left as by the calls on it alone, and these calls return what they return
    alone; every counter is the sum over the lines; and two neighbouring calls on different
    lines may be swapped without a trace on the bus or in any reply. -/
theorem lines_independent (n : ℕ) (calls : List (Call n)) :
    (∀ line, (after n calls).bus.linePart line =
        (after n (callsOn line calls)).bus.linePart line ∧
      ((calls.zip (replies n calls)).filter fun p => lineOf p.1.access.addr = line).map Prod.snd =
        replies n (callsOn line calls)) ∧
    (∀ k, (after n calls).bus.perf.get k =
      ∑ line ∈ (calls.map fun c => lineOf c.access.addr).toFinset,
        (after n (callsOn line calls)).bus.perf.get k) ∧
    (∀ pre c d post, calls = pre ++ c :: d :: post →
      lineOf c.access.addr ≠ lineOf d.access.addr →
      (after n (pre ++ d :: c :: post)).bus = (after n calls).bus ∧
      ∃ rs r r' rs', rs.length = pre.length ∧ replies n calls = rs ++ r :: r' :: rs' ∧
        replies n (pre ++ d :: c :: post) = rs ++ r' :: r :: rs') := by
  have hlocal := callMachine_local n
  have hnew := Settled.new n
  simp only [after_eq_run]
  refine ⟨fun line => ⟨?_, ?_⟩, fun k => ?_, ?_⟩
  · exact hlocal.run_filter line calls hnew hnew rfl
  · exact hlocal.outputs_filter line calls hnew hnew rfl
  · have hsum := hlocal.count_eq_sum (fun s => s.bus.perf.get) callCost
      (fun s c hs => exec_counters hs c) (fun s t c _ _ hv => callCost_congr c hv) hnew
      (by funext k; cases k <;> rfl) calls
    have hk := congrFun hsum k
    rw [Finset.sum_apply] at hk
    exact hk
  · rintro pre c d post rfl hne
    have hset : ((callMachine n).run (new n) pre).Settled :=
      (callMachine n).run_invariant (fun s c hs => hs.step (.call c)) hnew pre
    obtain ⟨hbus, hd, hc⟩ := exec_comm hset hne
    obtain ⟨hrun, hout⟩ := run_of_bus_eq hbus post
    refine ⟨?_, replies n pre, (((callMachine n).run (new n) pre).exec c).2,
      (((callMachine n).run (new n) pre).exec d).2,
      (callMachine n).outputs ((((callMachine n).run (new n) pre).exec c).1.exec d).1 post,
      ?_, ?_, ?_⟩
    · rw [Machine.run_append, Machine.run_append]
      exact hrun.symm
    · exact (callMachine n).outputs_length _ _
    · rw [replies, Machine.outputs_append, ← hd]
      rfl
    · rw [hout, replies, Machine.outputs_append, ← hc]
      rfl

/-- Core 0 writes one line and core 1 reads another: either may go first. -/
theorem lines_independent_write_read :
    (after 2 [.plain 1 (.read 0x2000), .plain 0 (.write 0x1000 7)]).bus =
      (after 2 [.plain 0 (.write 0x1000 7), .plain 1 (.read 0x2000)]).bus :=
  ((lines_independent 2 [.plain 0 (.write 0x1000 7), .plain 1 (.read 0x2000)]).2.2 [] _ _ [] rfl
    (by decide)).1

end MesiSystem

end MesiCoherence
