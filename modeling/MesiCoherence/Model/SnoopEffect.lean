import Mathlib.Tactic.SplitIfs
import MesiCoherence.Lib.Update
import MesiCoherence.Model.SnoopingBus

/-!
# What the line loops and the snoop reactions do

Closed forms of the loops of `cache_controller.cpp` (fill, writeback, drop) and of
`snoop` and `broadcast`. A peer's reaction depends on its own controller only, so
after a broadcast every peer has moved by `snoopController`, whatever the visiting
order; memory and the shared counters are touched by dirty peers only.
-/

namespace MesiCoherence

/-- The state of a line after another cache's transaction was snooped. -/
def BusTxn.snoopNext : BusTxn → State → State
  | .busRd, .M => .S
  | .busRd, .E => .S
  | .busRdX, _ => .I
  | .busUpgr, _ => .I
  | _, s => s

/-- The transactions that take every other copy away. -/
def BusTxn.Invalidates (txn : BusTxn) : Prop := txn = .busRdX ∨ txn = .busUpgr

/-- The transactions that fetch the line, so that a dirty holder must write back. -/
def BusTxn.Fetches (txn : BusTxn) : Prop := txn = .busRd ∨ txn = .busRdX

instance (txn : BusTxn) : Decidable txn.Invalidates := by
  unfold BusTxn.Invalidates; infer_instance

instance (txn : BusTxn) : Decidable txn.Fetches := by
  unfold BusTxn.Fetches; infer_instance

@[simp] theorem BusTxn.snoopNext_I (txn : BusTxn) : txn.snoopNext .I = .I := by
  cases txn <;> rfl

namespace CacheController

variable (c : CacheController)

@[simp] theorem lineState_setState (line l : Word) (s : State) :
    (c.setState line s).lineState l = if l = line then s else c.lineState l := by
  by_cases hs : s = .I <;> by_cases hl : l = line <;>
    simp [setState, lineState, hs, hl]

@[simp] theorem data_setState (line : Word) (s : State) :
    (c.setState line s).data = c.data := by
  unfold setState
  split <;> rfl

/-- Writing the present state of a held line back changes nothing. -/
theorem setState_lineState (line : Word) (h : c.lineState line ≠ .I) :
    c.setState line (c.lineState line) = c := by
  unfold setState
  rw [if_neg h]
  have hs : some (c.lineState line) = c.state line := by
    unfold lineState at h ⊢
    cases hc : c.state line with
    | none => simp [hc] at h
    | some s => rfl
  rw [hs, Function.update_eq_self]

@[simp] theorem lineState_putWord (addr v l : Word) :
    (c.putWord addr v).lineState l = c.lineState l := rfl

@[simp] theorem data_putWord (addr v : Word) :
    (c.putWord addr v).data = Function.update c.data addr (some v) := rfl

/-- Overwrite the data of all words of a list. -/
def setWords (ws : List Word) (f : Word → Option Word) : CacheController :=
  { c with data := fun x => if x ∈ ws then f x else c.data x }

@[simp] theorem lineState_setWords (ws : List Word) (f : Word → Option Word) (l : Word) :
    (c.setWords ws f).lineState l = c.lineState l := rfl

@[simp] theorem data_setWords (ws : List Word) (f : Word → Option Word) (x : Word) :
    (c.setWords ws f).data x = if x ∈ ws then f x else c.data x := rfl

/-- A loop that overwrites word after word is one overwrite of the list. -/
theorem foldl_update_data (f : Word → Option Word) (ws : List Word) (c : CacheController) :
    ws.foldl (fun c a => { c with data := Function.update c.data a (f a) }) c =
      c.setWords ws f := by
  have h : ∀ (ws : List Word) (c : CacheController),
      ws.foldl (fun c a => { c with data := Function.update c.data a (f a) }) c =
        { c with data := ws.foldl (fun m a => if True then Function.update m a (f a) else m) c.data } := by
    intro ws
    induction ws with
    | nil => intro c; rfl
    | cons a ws ih => intro c; simp only [List.foldl_cons, ih, if_true]
  rw [h, setWords]
  congr 1
  funext x
  rw [Function.foldl_update_apply]
  simp

/-- How a controller moves when it snoops a transaction on `line` whose known words
    are `ws`. -/
def snoopController (ws : List Word) (txn : BusTxn) (line : Word) : CacheController :=
  if c.lineState line = .I then c
  else if txn.Invalidates then (c.setState line .I).setWords ws (fun _ => none)
  else c.setState line (txn.snoopNext (c.lineState line))

@[simp] theorem lineState_snoopController (ws : List Word) (txn : BusTxn) (line l : Word) :
    (c.snoopController ws txn line).lineState l =
      if l = line then txn.snoopNext (c.lineState line) else c.lineState l := by
  unfold snoopController
  split
  · next hI => by_cases hl : l = line <;> simp [hl, hI]
  · split
    · next h =>
      have hn : txn.snoopNext (c.lineState line) = .I := by
        rcases h with h | h <;> rw [h] <;> rfl
      rw [hn]
      simp
    · simp

theorem data_snoopController (ws : List Word) (txn : BusTxn) (line x : Word) :
    (c.snoopController ws txn line).data x =
      if c.lineState line ≠ .I ∧ txn.Invalidates ∧ x ∈ ws then none else c.data x := by
  unfold snoopController
  split
  · next hI => simp [hI]
  · next hI =>
    split
    · next h => simp [hI, h]
    · next h => simp [h]

end CacheController

/-- Memory after a controller wrote the words of `ws` that it holds back. -/
def Memory.writeback (m : Memory) (ws : List Word) (c : CacheController) : Memory :=
  ⟨fun x => if x ∈ ws ∧ c.hasWord x = true then some (c.peek x) else m.data x, m.accesses + 1⟩

theorem Memory.read_writeback (m : Memory) (ws : List Word) (c : CacheController) (x : Word) :
    (m.writeback ws c).read x = if x ∈ ws ∧ c.hasWord x = true then c.peek x else m.read x := by
  unfold Memory.read Memory.writeback
  by_cases h : x ∈ ws ∧ c.hasWord x = true
  · rw [if_pos h]
    simp only [if_pos h, Option.getD_some]
  · rw [if_neg h]
    simp only [if_neg h]

/-- Memory after a controller snooped a transaction: only a dirty holder of a fetched
    line writes back. -/
def Memory.snoopMemory (m : Memory) (ws : List Word) (txn : BusTxn) (line : Word)
    (c : CacheController) : Memory :=
  if c.lineState line = .M ∧ txn.Fetches then m.writeback ws c else m

namespace SnoopingBus

variable {n : ℕ} (b : SnoopingBus n)

@[simp] theorem modify_mem (i : Fin n) (f : CacheController → CacheController) :
    (b.modify i f).mem = b.mem := rfl

@[simp] theorem modify_arbPtr (i : Fin n) (f : CacheController → CacheController) :
    (b.modify i f).arbPtr = b.arbPtr := rfl

@[simp] theorem modify_controllers (i : Fin n) (f : CacheController → CacheController) :
    (b.modify i f).controllers = Function.update b.controllers i (f (b.controllers i)) := rfl

theorem modify_modify (i : Fin n) (f g : CacheController → CacheController) :
    (b.modify i f).modify i g = b.modify i (fun c => g (f c)) := by
  simp [modify]

theorem modify_id (i : Fin n) : b.modify i (fun c => c) = b := by
  simp [modify]

/-- Registering an address and counting leave controllers and memory alone. -/
@[simp] theorem registerAddr_controllers (a : Word) :
    (b.registerAddr a).controllers = b.controllers := rfl

@[simp] theorem registerAddr_mem (a : Word) : (b.registerAddr a).mem = b.mem := rfl

@[simp] theorem registerAddr_perf (a : Word) : (b.registerAddr a).perf = b.perf := rfl

@[simp] theorem registerAddr_arbPtr (a : Word) : (b.registerAddr a).arbPtr = b.arbPtr := rfl

theorem mem_registerAddr_wordsInLine (a x l : Word) :
    x ∈ (b.registerAddr a).wordsInLine l ↔ x ∈ b.wordsInLine l ∨ (x = a ∧ l = lineOf a) := by
  unfold registerAddr wordsInLine
  by_cases hl : l = lineOf a
  · subst hl
    simp [or_comm]
  · simp [hl]

@[simp] theorem countHit_controllers (i : Fin n) :
    (b.countHit i).controllers = b.controllers := rfl

@[simp] theorem countStall_controllers (i : Fin n) :
    (b.countStall i).controllers = b.controllers := rfl

@[simp] theorem account_controllers (txn : BusTxn) :
    (b.account txn).controllers = b.controllers := rfl

@[simp] theorem countHit_mem (i : Fin n) : (b.countHit i).mem = b.mem := rfl

@[simp] theorem countStall_mem (i : Fin n) : (b.countStall i).mem = b.mem := rfl

@[simp] theorem account_mem (txn : BusTxn) : (b.account txn).mem = b.mem := rfl

theorem foldl_modify (i : Fin n) (f : Memory → Word → CacheController → CacheController)
    (ws : List Word) :
    ws.foldl (fun b a => b.modify i (f b.mem a)) b =
      b.modify i (fun c => ws.foldl (fun c a => f b.mem a c) c) := by
  induction ws generalizing b with
  | nil => exact (b.modify_id i).symm
  | cons a ws ih =>
    rw [List.foldl_cons, ih, modify_modify]
    rfl

/-- Dropping a line erases exactly its known words. -/
theorem dropLineWords_eq (i : Fin n) (line : Word) :
    b.dropLineWords i line = b.modify i (·.setWords (b.wordsInLine line) (fun _ => none)) := by
  unfold dropLineWords
  rw [foldl_modify b i (fun _ a c => c.eraseWord a)]
  congr 1
  funext c
  exact CacheController.foldl_update_data (fun _ => none) _ c

/-- Filling a line copies exactly its known words from memory. -/
theorem fillLine_eq (i : Fin n) (line : Word) :
    b.fillLine i line =
      b.modify i (·.setWords (b.wordsInLine line) (fun x => some (b.mem.read x))) := by
  unfold fillLine
  rw [show (fun (b : SnoopingBus n) a => b.putWord i a (b.mem.read a)) =
    (fun b a => b.modify i (fun c => c.putWord a (b.mem.read a))) from rfl]
  rw [foldl_modify b i (fun m a c => c.putWord a (m.read a))]
  congr 1
  funext c
  exact CacheController.foldl_update_data (fun x => some (b.mem.read x)) _ c

/-- A writeback changes memory only, at the known words the controller holds. -/
theorem writebackLine_eq (i : Fin n) (line : Word) :
    b.writebackLine i line =
      { b with mem := b.mem.writeback (b.wordsInLine line) (b.controllers i) } := by
  have h : ∀ (ws : List Word) (b : SnoopingBus n),
      ws.foldl (fun b a => if (b.controllers i).hasWord a
        then { b with mem := b.mem.write a ((b.controllers i).peek a) } else b) b =
      { b with mem := ⟨(ws.foldl (fun m a => if (b.controllers i).hasWord a = true
          then Function.update m a (some ((b.controllers i).peek a)) else m) b.mem.data),
          b.mem.accesses⟩ } := by
    intro ws
    induction ws with
    | nil => intro b; rfl
    | cons a ws ih =>
      intro b
      rw [List.foldl_cons, List.foldl_cons, ih]
      by_cases hw : (b.controllers i).hasWord a = true
      · simp [hw, Memory.write]
      · simp [hw]
  unfold writebackLine
  rw [h]
  simp only [Memory.writeback]
  congr 2
  funext x
  exact Function.foldl_update_apply _ _ _ _ _

/-- A peer writes back when it is dirty and the transaction fetches the line. -/
def WritesBack (i : Fin n) (txn : BusTxn) (line : Word) : Prop :=
  b.lineState i line = .M ∧ txn.Fetches

/-- A peer loses its copy when it has one and the transaction invalidates. -/
def LosesCopy (i : Fin n) (txn : BusTxn) (line : Word) : Prop :=
  b.lineState i line ≠ .I ∧ txn.Invalidates

instance (i : Fin n) (txn : BusTxn) (line : Word) : Decidable (b.WritesBack i txn line) := by
  unfold WritesBack; infer_instance

instance (i : Fin n) (txn : BusTxn) (line : Word) : Decidable (b.LosesCopy i txn line) := by
  unfold LosesCopy; infer_instance

/-- The bus after one snoop, component by component. -/
def snooped (i : Fin n) (txn : BusTxn) (addr : Word) : SnoopingBus n where
  controllers := Function.update b.controllers i
    ((b.controllers i).snoopController (b.wordsInLine (lineOf addr)) txn (lineOf addr))
  mem := b.mem.snoopMemory (b.wordsInLine (lineOf addr)) txn (lineOf addr) (b.controllers i)
  perf := { b.perf with
    busCyclesBusy := b.perf.busCyclesBusy + if b.WritesBack i txn (lineOf addr) then 1 else 0
    busWbCount := b.perf.busWbCount + if b.WritesBack i txn (lineOf addr) then 1 else 0
    invCount := if b.LosesCopy i txn (lineOf addr) then PerfCounters.bump b.perf.invCount i
      else b.perf.invCount }
  lineWords := b.lineWords
  arbPtr := if b.WritesBack i txn (lineOf addr) then (b.arbPtr + 1) % n else b.arbPtr

theorem snoop_fst (i : Fin n) (txn : BusTxn) (addr : Word) :
    (b.snoop i txn addr).1 = b.snooped i txn addr := by
  have hst : b.lineState i (lineOf addr) = (b.controllers i).lineState (lineOf addr) := rfl
  by_cases hI : (b.controllers i).lineState (lineOf addr) = .I
  · simp [snoop, snooped, hst, hI, WritesBack, LosesCopy, Memory.snoopMemory,
      CacheController.snoopController]
  · cases hs : (b.controllers i).lineState (lineOf addr) with
    | I => exact absurd hs hI
    | S =>
      have hkeep := (b.controllers i).setState_lineState _ hI
      rw [hs] at hkeep
      cases txn <;> simp [snoop, snooped, hst, hs, hkeep, WritesBack, LosesCopy,
        Memory.snoopMemory, CacheController.snoopController, BusTxn.Invalidates, BusTxn.Fetches,
        BusTxn.snoopNext, setState, dropLineWords_eq, wordsInLine, countInv, modify]
    | E =>
      have hkeep := (b.controllers i).setState_lineState _ hI
      rw [hs] at hkeep
      cases txn <;> simp [snoop, snooped, hst, hs, hkeep, WritesBack, LosesCopy,
        Memory.snoopMemory, CacheController.snoopController, BusTxn.Invalidates, BusTxn.Fetches,
        BusTxn.snoopNext, setState, dropLineWords_eq, wordsInLine, countInv, modify]
    | M =>
      have hkeep := (b.controllers i).setState_lineState _ hI
      rw [hs] at hkeep
      cases txn <;> simp [snoop, snooped, hst, hs, hkeep, WritesBack, LosesCopy,
        Memory.snoopMemory, CacheController.snoopController, BusTxn.Invalidates, BusTxn.Fetches,
        BusTxn.snoopNext, setState, dropLineWords_eq, wordsInLine, countInv, modify,
        writebackLine_eq, account, advanceArb]

theorem snoop_hadCopy (i : Fin n) (txn : BusTxn) (addr : Word) :
    (b.snoop i txn addr).2.hadCopy = decide (b.lineState i (lineOf addr) ≠ .I) := by
  cases hs : b.lineState i (lineOf addr) <;> cases txn <;> simp [snoop, hs]

variable {b}

/-- A snoop of one controller leaves the state of every other one alone. -/
theorem snooped_lineState_of_ne {i j : Fin n} (h : j ≠ i) (txn : BusTxn) (addr l : Word) :
    (b.snooped i txn addr).lineState j l = b.lineState j l := by
  simp [lineState, snooped, h]

theorem writesBack_snooped {i j : Fin n} (h : j ≠ i) (txn : BusTxn) (addr l : Word) :
    (b.snooped i txn addr).WritesBack j txn l ↔ b.WritesBack j txn l := by
  rw [WritesBack, WritesBack, snooped_lineState_of_ne h]

theorem losesCopy_snooped {i j : Fin n} (h : j ≠ i) (txn : BusTxn) (addr l : Word) :
    (b.snooped i txn addr).LosesCopy j txn l ↔ b.LosesCopy j txn l := by
  rw [LosesCopy, LosesCopy, snooped_lineState_of_ne h]

theorem snooped_invCount (i : Fin n) (txn : BusTxn) (addr : Word) (j : Fin n) :
    (b.snooped i txn addr).perf.invCount j =
      b.perf.invCount j + if j = i ∧ b.LosesCopy i txn (lineOf addr) then 1 else 0 := by
  by_cases hl : b.LosesCopy i txn (lineOf addr)
  · by_cases hj : j = i
    · subst hj
      simp [snooped, hl, PerfCounters.bump]
    · simp [snooped, hl, PerfCounters.bump, hj]
  · simp [snooped, hl]

theorem snoopAll_lineWords (txn : BusTxn) (addr : Word) (is : List (Fin n)) (b : SnoopingBus n)
    (agg : SnoopResult) : (snoopAll txn addr is b agg).1.lineWords = b.lineWords := by
  induction is generalizing b agg with
  | nil => rfl
  | cons i is ih => rw [snoopAll, ih, snoop_fst]; rfl

/-- Every visited peer has moved by `snoopController`, all others are unchanged. -/
theorem snoopAll_controllers (txn : BusTxn) (addr : Word) (is : List (Fin n)) (hn : is.Nodup)
    (b : SnoopingBus n) (agg : SnoopResult) (j : Fin n) :
    (snoopAll txn addr is b agg).1.controllers j =
      if j ∈ is then
        (b.controllers j).snoopController (b.wordsInLine (lineOf addr)) txn (lineOf addr)
      else b.controllers j := by
  induction is generalizing b agg with
  | nil => simp [snoopAll]
  | cons i is ih =>
    obtain ⟨hi, hn⟩ := List.nodup_cons.mp hn
    rw [snoopAll, ih hn, snoop_fst]
    by_cases hj : j = i
    · subst hj
      simp [snooped, hi]
    · simp [snooped, wordsInLine, hj]

theorem snoopAll_hadCopy (txn : BusTxn) (addr : Word) (is : List (Fin n)) (hn : is.Nodup)
    (b : SnoopingBus n) (agg : SnoopResult) :
    (snoopAll txn addr is b agg).2.hadCopy = true ↔
      agg.hadCopy = true ∨ ∃ i ∈ is, b.lineState i (lineOf addr) ≠ .I := by
  induction is generalizing b agg with
  | nil => simp [snoopAll]
  | cons i is ih =>
    obtain ⟨hi, hn⟩ := List.nodup_cons.mp hn
    have hsame : ∀ j ∈ is, (b.snooped i txn addr).lineState j (lineOf addr) =
        b.lineState j (lineOf addr) := by
      intro j hj
      exact snooped_lineState_of_ne (ne_of_mem_of_not_mem hj hi) txn addr _
    rw [snoopAll, ih hn, snoop_fst]
    simp only [SnoopResult.or, snoop_hadCopy, Bool.or_eq_true, decide_eq_true_eq,
      List.exists_mem_cons_iff, or_assoc]
    refine or_congr_right (or_congr_right ?_)
    exact exists_congr fun j => and_congr_right fun hj => by rw [hsame j hj]

/-- Without a dirty peer, or when the transaction does not fetch, memory is untouched. -/
theorem snoopAll_mem_of_clean (txn : BusTxn) (addr : Word) (is : List (Fin n)) (hn : is.Nodup)
    (b : SnoopingBus n) (agg : SnoopResult) (h : ∀ i ∈ is, ¬ b.WritesBack i txn (lineOf addr)) :
    (snoopAll txn addr is b agg).1.mem = b.mem := by
  induction is generalizing b agg with
  | nil => rfl
  | cons i is ih =>
    obtain ⟨hi, hn⟩ := List.nodup_cons.mp hn
    have hhead : (b.snooped i txn addr).mem = b.mem := if_neg (h i (by simp))
    rw [snoopAll, snoop_fst, ih hn, hhead]
    intro j hj
    rw [writesBack_snooped (ne_of_mem_of_not_mem hj hi)]
    exact h j (by simp [hj])

/-- With one dirty peer, memory receives exactly the words that peer holds. -/
theorem snoopAll_mem_of_dirty (txn : BusTxn) (addr : Word) (is : List (Fin n)) (hn : is.Nodup)
    (b : SnoopingBus n) (agg : SnoopResult) {k : Fin n} (hk : k ∈ is)
    (hd : b.WritesBack k txn (lineOf addr))
    (honly : ∀ i ∈ is, i ≠ k → ¬ b.WritesBack i txn (lineOf addr)) :
    (snoopAll txn addr is b agg).1.mem =
      b.mem.writeback (b.wordsInLine (lineOf addr)) (b.controllers k) := by
  induction is generalizing b agg with
  | nil => simp at hk
  | cons i is ih =>
    obtain ⟨hi, hn⟩ := List.nodup_cons.mp hn
    rw [snoopAll, snoop_fst]
    by_cases hik : i = k
    · subst hik
      rw [snoopAll_mem_of_clean txn addr is hn]
      · exact if_pos hd
      · intro j hj
        have hji := ne_of_mem_of_not_mem hj hi
        rw [writesBack_snooped hji]
        exact honly j (by simp [hj]) hji
    · have hk' : k ∈ is := by
        rcases List.mem_cons.mp hk with h | h
        · exact absurd h.symm hik
        · exact h
      have hhead : (b.snooped i txn addr).mem = b.mem := if_neg (honly i (by simp) hik)
      have hctl : (b.snooped i txn addr).controllers k = b.controllers k :=
        Function.update_of_ne (Ne.symm hik) _ _
      rw [ih hn _ _ hk', hhead, hctl]
      · rfl
      · rw [writesBack_snooped (Ne.symm hik)]
        exact hd
      · intro j hj hjk
        rw [writesBack_snooped (ne_of_mem_of_not_mem hj hi)]
        exact honly j (by simp [hj]) hjk

/-- Snooping touches only the writeback and the invalidation counters. -/
theorem snoopAll_perf (txn : BusTxn) (addr : Word) (is : List (Fin n)) (hn : is.Nodup)
    (b : SnoopingBus n) (agg : SnoopResult) :
    (snoopAll txn addr is b agg).1.perf = { b.perf with
      busCyclesBusy := b.perf.busCyclesBusy + is.countP (b.WritesBack · txn (lineOf addr))
      busWbCount := b.perf.busWbCount + is.countP (b.WritesBack · txn (lineOf addr))
      invCount := fun j => b.perf.invCount j +
        if j ∈ is ∧ b.LosesCopy j txn (lineOf addr) then 1 else 0 } := by
  induction is generalizing b agg with
  | nil => simp [snoopAll]
  | cons i is ih =>
    obtain ⟨hi, hn⟩ := List.nodup_cons.mp hn
    have hcount : is.countP ((b.snooped i txn addr).WritesBack · txn (lineOf addr)) =
        is.countP (b.WritesBack · txn (lineOf addr)) := by
      refine List.countP_congr fun j hj => ?_
      simp only [writesBack_snooped (ne_of_mem_of_not_mem hj hi)]
    have hinv : ∀ j, ((b.snooped i txn addr).perf.invCount j +
        if j ∈ is ∧ (b.snooped i txn addr).LosesCopy j txn (lineOf addr) then 1 else 0) =
        b.perf.invCount j + if j ∈ i :: is ∧ b.LosesCopy j txn (lineOf addr) then 1 else 0 := by
      intro j
      rw [snooped_invCount]
      by_cases hj : j = i
      · subst hj
        simp [hi]
      · simp [hj, losesCopy_snooped hj]
    rw [snoopAll, snoop_fst, ih hn, hcount, List.countP_cons]
    simp only [hinv]
    simp only [snooped, decide_eq_true_eq]
    congr 1 <;> omega

end SnoopingBus

end MesiCoherence
