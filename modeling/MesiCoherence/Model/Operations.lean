import Mathlib.Data.List.Perm.Basic
import Mathlib.Data.List.FinRange
import MesiCoherence.Model.Coherence

/-!
# The processor operations

What `processor_read` and `acquire_exclusive` do to every line state, which value
they return, and that they keep the coherence invariant. All later results about
the C++ model use these lemmas and never unfold the operations.
-/

namespace MesiCoherence

variable {n : ℕ}

theorem mem_peers {i j : Fin n} : j ∈ peers i ↔ j ≠ i := by
  simp [peers]

namespace VisitOrder

variable {i : Fin n} (v : VisitOrder i)

theorem mem_order {j : Fin n} : j ∈ v.order ↔ j ≠ i :=
  v.perm.mem_iff.trans mem_peers

theorem nodup_order : v.order.Nodup :=
  v.perm.nodup_iff.mpr ((List.nodup_finRange n).filter _)

theorem issuer_notMem : i ∉ v.order := fun h => v.mem_order.mp h rfl

end VisitOrder

namespace SnoopingBus

variable (b : SnoopingBus n) {i : Fin n} (visit : VisitOrder i)

theorem broadcast_lineState (txn : BusTxn) (addr : Word) (j : Fin n) (l : Word) :
    (b.broadcast txn addr visit).1.lineState j l =
      if j ≠ i ∧ l = lineOf addr then txn.snoopNext (b.lineState j l) else b.lineState j l := by
  unfold broadcast
  rw [lineState, snoopAll_controllers txn addr _ visit.nodup_order]
  by_cases hj : j = i
  · simp [visit.mem_order, hj, lineState]
  · by_cases hl : l = lineOf addr
    · simp [visit.mem_order, hj, hl, lineState]
    · simp [visit.mem_order, hj, hl, lineState]

theorem broadcast_data (txn : BusTxn) (addr : Word) (j : Fin n) (x : Word) :
    ((b.broadcast txn addr visit).1.controllers j).data x =
      if j ≠ i ∧ b.LosesCopy j txn (lineOf addr) ∧ x ∈ b.wordsInLine (lineOf addr) then none
      else (b.controllers j).data x := by
  unfold broadcast
  rw [snoopAll_controllers txn addr _ visit.nodup_order]
  by_cases hj : j = i
  · simp [visit.mem_order, hj]
  · simp [visit.mem_order, hj, CacheController.data_snoopController, LosesCopy, lineState,
      and_assoc]

theorem broadcast_hadCopy (txn : BusTxn) (addr : Word) :
    (b.broadcast txn addr visit).2.hadCopy = true ↔
      ∃ j, j ≠ i ∧ b.lineState j (lineOf addr) ≠ .I := by
  unfold broadcast
  rw [snoopAll_hadCopy txn addr _ visit.nodup_order]
  simp [visit.mem_order]

theorem broadcast_lineWords (txn : BusTxn) (addr : Word) :
    (b.broadcast txn addr visit).1.lineWords = b.lineWords :=
  snoopAll_lineWords txn addr _ b _

theorem processorRead_hit {addr : Word} (h : b.lineState i (lineOf addr) ≠ .I) :
    b.processorRead visit addr =
      ((b.registerAddr addr).countHit i, (b.controllers i).peek addr) := by
  have h' : (b.registerAddr addr).lineState i (lineOf addr) ≠ .I := h
  simp [processorRead, h']

/-- The bus of a missing read after the broadcast has been accounted. -/
def afterBroadcast (txn : BusTxn) (addr : Word) : SnoopingBus n :=
  ((((b.registerAddr addr).countMiss i).countStall i).broadcast txn addr visit).1.account txn

theorem processorRead_miss {addr : Word} (h : b.lineState i (lineOf addr) = .I) :
    (b.processorRead visit addr).1 =
      ((b.afterBroadcast visit .busRd addr).fillLine i (lineOf addr)).setState i (lineOf addr)
        (if ((((b.registerAddr addr).countMiss i).countStall i).broadcast
          .busRd addr visit).2.hadCopy then .S else .E) := by
  have h' : (b.registerAddr addr).lineState i (lineOf addr) = .I := h
  simp [processorRead, afterBroadcast, h']

theorem processorRead_snd (addr : Word) :
    (b.processorRead visit addr).2 =
      ((b.processorRead visit addr).1.controllers i).peek addr := by
  unfold processorRead
  dsimp only
  split <;> rfl

theorem acquireExclusive_M {addr : Word} (h : b.lineState i (lineOf addr) = .M) :
    (b.acquireExclusive visit addr).1 = (b.registerAddr addr).countHit i := by
  have h' : (b.registerAddr addr).lineState i (lineOf addr) = .M := h
  simp [acquireExclusive, h']

theorem acquireExclusive_E {addr : Word} (h : b.lineState i (lineOf addr) = .E) :
    (b.acquireExclusive visit addr).1 =
      ((b.registerAddr addr).countHit i).setState i (lineOf addr) .M := by
  have h' : (b.registerAddr addr).lineState i (lineOf addr) = .E := h
  simp [acquireExclusive, h']

theorem acquireExclusive_S {addr : Word} (h : b.lineState i (lineOf addr) = .S) :
    (b.acquireExclusive visit addr).1 =
      (((((b.registerAddr addr).countHit i).countStall i).broadcast .busUpgr addr
        visit).1.account .busUpgr).setState i (lineOf addr) .M := by
  have h' : (b.registerAddr addr).lineState i (lineOf addr) = .S := h
  simp [acquireExclusive, h']

theorem acquireExclusive_I {addr : Word} (h : b.lineState i (lineOf addr) = .I) :
    (b.acquireExclusive visit addr).1 =
      ((b.afterBroadcast visit .busRdX addr).fillLine i (lineOf addr)).setState i
        (lineOf addr) .M := by
  have h' : (b.registerAddr addr).lineState i (lineOf addr) = .I := h
  simp [acquireExclusive, afterBroadcast, h']

theorem acquireExclusive_snd (addr : Word) :
    (b.acquireExclusive visit addr).2 =
      ((b.acquireExclusive visit addr).1.controllers i).peek addr := by
  unfold acquireExclusive
  rfl

theorem afterBroadcast_lineState (txn : BusTxn) (addr : Word) (j : Fin n) (l : Word) :
    (b.afterBroadcast visit txn addr).lineState j l =
      if j ≠ i ∧ l = lineOf addr then txn.snoopNext (b.lineState j l) else b.lineState j l :=
  broadcast_lineState _ visit txn addr j l

theorem afterBroadcast_lineWords (txn : BusTxn) (addr : Word) :
    (b.afterBroadcast visit txn addr).lineWords = (b.registerAddr addr).lineWords :=
  broadcast_lineWords _ visit txn addr

/-- A read moves states only on a miss: the reader enters S or E, the peers move as
    the snoop table says. -/
theorem processorRead_lineState (addr : Word) (j : Fin n) (l : Word) :
    (b.processorRead visit addr).1.lineState j l =
      if l = lineOf addr ∧ b.lineState i (lineOf addr) = .I then
        if j = i then
          if ∃ k, k ≠ i ∧ b.lineState k (lineOf addr) ≠ .I then .S else .E
        else BusTxn.busRd.snoopNext (b.lineState j l)
      else b.lineState j l := by
  by_cases hI : b.lineState i (lineOf addr) = .I
  · have hcopy := broadcast_hadCopy (((b.registerAddr addr).countMiss i).countStall i) visit
      .busRd addr
    rw [processorRead_miss b visit hI, lineState_install,
      afterBroadcast_lineState]
    by_cases hl : l = lineOf addr
    · by_cases hj : j = i
      · simp only [hj, hl, hI, and_self, if_true]
        exact if_congr hcopy rfl rfl
      · simp [hl, hj, hI]
    · simp [hl]
  · rw [processorRead_hit b visit hI]
    simp only [hI, and_false, if_false]
    rfl

/-- Acquiring a line makes the issuer its only holder, in M. -/
theorem acquireExclusive_lineState (addr : Word)
    (hex : ∀ j, j ≠ i → b.lineState i (lineOf addr) = .M ∨ b.lineState i (lineOf addr) = .E →
      b.lineState j (lineOf addr) = .I) (j : Fin n) (l : Word) :
    (b.acquireExclusive visit addr).1.lineState j l =
      if l = lineOf addr then if j = i then .M else .I else b.lineState j l := by
  cases hs : b.lineState i (lineOf addr) with
  | M =>
    rw [acquireExclusive_M b visit hs]
    change b.lineState j l = _
    by_cases hl : l = lineOf addr
    · by_cases hj : j = i
      · simp [hl, hj, hs]
      · simp [hl, hj, hex j hj (Or.inl hs)]
    · simp [hl]
  | E =>
    rw [acquireExclusive_E b visit hs, lineState_setState]
    change (if _ then _ else b.lineState j l) = _
    by_cases hl : l = lineOf addr
    · by_cases hj : j = i
      · simp [hl, hj]
      · simp [hl, hj, hex j hj (Or.inr hs)]
    · simp [hl]
  | S =>
    rw [acquireExclusive_S b visit hs, lineState_setState]
    change (if _ then _ else (broadcast _ _ _ visit).1.lineState j l) = _
    rw [broadcast_lineState]
    by_cases hl : l = lineOf addr
    · by_cases hj : j = i
      · simp [hl, hj]
      · simp [hl, hj, BusTxn.snoopNext]
    · simp only [hl, and_false, if_false]
      rfl
  | I =>
    rw [acquireExclusive_I b visit hs, lineState_install,
      afterBroadcast_lineState]
    by_cases hl : l = lineOf addr
    · by_cases hj : j = i
      · simp [hl, hj]
      · simp [hl, hj, BusTxn.snoopNext]
    · simp [hl]

theorem acquireExclusive_lineWords (addr : Word) :
    (b.acquireExclusive visit addr).1.lineWords = (b.registerAddr addr).lineWords := by
  cases hs : b.lineState i (lineOf addr) with
  | M => rw [acquireExclusive_M b visit hs]; rfl
  | E => rw [acquireExclusive_E b visit hs]; rfl
  | S =>
    rw [acquireExclusive_S b visit hs]
    exact broadcast_lineWords _ visit .busUpgr addr
  | I =>
    rw [acquireExclusive_I b visit hs, fillLine_eq]
    exact afterBroadcast_lineWords b visit .busRdX addr

theorem mem_wordsInLine_registerAddr_self (addr : Word) :
    addr ∈ (b.registerAddr addr).wordsInLine (lineOf addr) := by
  rw [mem_registerAddr_wordsInLine]
  exact Or.inr ⟨rfl, rfl⟩

/-- A fill after a broadcast brings the accessed word in. -/
theorem data_fill_afterBroadcast (txn : BusTxn) (addr : Word) (s : State) :
    ((((b.afterBroadcast visit txn addr).fillLine i (lineOf addr)).setState i (lineOf addr)
      s).controllers i).data addr = some ((b.afterBroadcast visit txn addr).mem.read addr) := by
  have hmem : addr ∈ (b.afterBroadcast visit txn addr).wordsInLine (lineOf addr) := by
    rw [wordsInLine, afterBroadcast_lineWords]
    exact b.mem_wordsInLine_registerAddr_self addr
  rw [data_install, if_pos ⟨rfl, hmem⟩]

/-- The issuer's own word is present after a read unless it was missing before. -/
theorem processorRead_hasWord (addr : Word) :
    ((b.processorRead visit addr).1.controllers i).hasWord addr =
      (decide (b.lineState i (lineOf addr) = .I) || (b.controllers i).hasWord addr) := by
  by_cases hI : b.lineState i (lineOf addr) = .I
  · rw [processorRead_miss b visit hI, CacheController.hasWord, data_fill_afterBroadcast]
    simp [hI]
  · rw [processorRead_hit b visit hI]
    simp [hI]

theorem acquireExclusive_hasWord (addr : Word) :
    ((b.acquireExclusive visit addr).1.controllers i).hasWord addr =
      (decide (b.lineState i (lineOf addr) = .I) || (b.controllers i).hasWord addr) := by
  cases hs : b.lineState i (lineOf addr) with
  | M => rw [acquireExclusive_M b visit hs]; simp
  | E => rw [acquireExclusive_E b visit hs]; simp [CacheController.hasWord]
  | S =>
    rw [acquireExclusive_S b visit hs, CacheController.hasWord, data_setState,
      account_controllers, broadcast_data]
    simp [CacheController.hasWord]
  | I =>
    rw [acquireExclusive_I b visit hs, CacheController.hasWord, data_fill_afterBroadcast]
    simp

end SnoopingBus

/-- Core `i` holds the line of `a` but not the word: it was unknown when the line was
    filled. -/
def SnoopingBus.MissingWord (b : SnoopingBus n) (i : Fin n) (a : Word) : Prop :=
  b.lineState i (lineOf a) ≠ .I ∧ (b.controllers i).hasWord a = false

instance (b : SnoopingBus n) (i : Fin n) (a : Word) : Decidable (b.MissingWord i a) := by
  unfold SnoopingBus.MissingWord; infer_instance

namespace Coherent

variable {base flat : Word → Word} {b : SnoopingBus n} {i : Fin n} (visit : VisitOrder i)

theorem broadcast (h : Coherent base flat b) (txn : BusTxn) (addr : Word)
    (hup : txn = .busUpgr → b.lineState i (lineOf addr) = .S) :
    Coherent base flat (b.broadcast txn addr visit).1 :=
  Coherent.snoopAll txn addr _ visit.issuer_notMem b _ h hup

theorem afterBroadcast (h : Coherent base flat b) (txn : BusTxn) (addr : Word)
    (hne : txn ≠ .busUpgr) : Coherent base flat (b.afterBroadcast visit txn addr) := by
  have hreg : Coherent base flat (((b.registerAddr addr).countMiss i).countStall i) :=
    (h.registerAddr addr).congr rfl rfl rfl
  exact (hreg.broadcast visit txn addr fun ht => absurd ht hne).congr rfl rfl rfl

theorem processorRead (h : Coherent base flat b) (addr : Word) :
    Coherent base flat (b.processorRead visit addr).1 := by
  by_cases hI : b.lineState i (lineOf addr) = .I
  · rw [b.processorRead_miss visit hI]
    have hst := b.afterBroadcast_lineState visit .busRd addr
    refine (h.afterBroadcast visit .busRd addr (by decide)).install ?_ ?_ ?_ ?_ ?_
    · rw [hst, if_neg fun hc => hc.1 rfl, hI]
    · intro j hM
      rw [hst] at hM
      split at hM
      · cases hj : b.lineState j (lineOf addr) <;> simp [hj, BusTxn.snoopNext] at hM
      · next hj =>
        have : j = i := by by_contra hji; exact hj ⟨hji, rfl⟩
        rw [this, hI] at hM
        cases hM
    · -- the reader enters E only when no peer answered
      intro hE j hj
      have hcopy := SnoopingBus.broadcast_hadCopy (((b.registerAddr addr).countMiss i).countStall i)
        visit .busRd addr
      rw [hst, if_pos ⟨hj, rfl⟩]
      by_contra hne
      have hne' : b.lineState j (lineOf addr) ≠ .I := by
        intro hI'
        rw [hI'] at hne
        exact hne rfl
      rw [if_pos (hcopy.mpr ⟨j, hj, hne'⟩)] at hE
      rcases hE with hE | hE <;> cases hE
    · intro _ j hE
      rw [hst] at hE
      split at hE
      · cases hj : b.lineState j (lineOf addr) <;> simp [hj, BusTxn.snoopNext] at hE
      · next hj =>
        have : j = i := by by_contra hji; exact hj ⟨hji, rfl⟩
        rw [this, hI] at hE
        cases hE
    · split <;> decide
  · rw [b.processorRead_hit visit hI]
    exact (h.registerAddr addr).congr rfl rfl rfl

theorem acquireExclusive (h : Coherent base flat b) (addr : Word) :
    Coherent base flat (b.acquireExclusive visit addr).1 := by
  cases hs : b.lineState i (lineOf addr) with
  | M =>
    rw [b.acquireExclusive_M visit hs]
    exact (h.registerAddr addr).congr rfl rfl rfl
  | E =>
    rw [b.acquireExclusive_E visit hs]
    have hreg : Coherent base flat ((b.registerAddr addr).countHit i) :=
      (h.registerAddr addr).congr rfl rfl rfl
    refine hreg.upgrade ?_ ?_
    · change b.lineState i (lineOf addr) ≠ .I
      rw [hs]; decide
    · intro j hj
      exact h.exclusive i j _ (Ne.symm hj) (Or.inr hs)
  | S =>
    rw [b.acquireExclusive_S visit hs]
    have hreg : Coherent base flat (((b.registerAddr addr).countHit i).countStall i) :=
      (h.registerAddr addr).congr rfl rfl rfl
    have hst := SnoopingBus.broadcast_lineState (((b.registerAddr addr).countHit i).countStall i)
      visit .busUpgr addr
    have hbc : Coherent base flat (((((b.registerAddr addr).countHit i).countStall i).broadcast
        .busUpgr addr visit).1.account .busUpgr) :=
      (hreg.broadcast visit .busUpgr addr fun _ => hs).congr rfl rfl rfl
    refine hbc.upgrade ?_ ?_
    · change (SnoopingBus.broadcast _ _ _ visit).1.lineState i (lineOf addr) ≠ .I
      rw [hst, if_neg fun hc => hc.1 rfl]
      change b.lineState i (lineOf addr) ≠ .I
      rw [hs]; decide
    · intro j hj
      change (SnoopingBus.broadcast _ _ _ visit).1.lineState j (lineOf addr) = .I
      rw [hst, if_pos ⟨hj, rfl⟩]
      rfl
  | I =>
    rw [b.acquireExclusive_I visit hs]
    have hst := b.afterBroadcast_lineState visit .busRdX addr
    have hpeer : ∀ j, (b.afterBroadcast visit .busRdX addr).lineState j (lineOf addr) = .I := by
      intro j
      rw [hst]
      split
      · rfl
      · next hj =>
        have : j = i := by by_contra hji; exact hj ⟨hji, rfl⟩
        rw [this, hs]
    refine (h.afterBroadcast visit .busRdX addr (by decide)).install (hpeer i) ?_ ?_ ?_ ?_
    · intro j
      rw [hpeer j]; decide
    · intro _ j _
      exact hpeer j
    · intro hc
      cases hc
    · decide

theorem acquireExclusive_lineState (h : Coherent base flat b) (addr : Word) (j : Fin n)
    (l : Word) :
    (b.acquireExclusive visit addr).1.lineState j l =
      if l = lineOf addr then if j = i then .M else .I else b.lineState j l :=
  b.acquireExclusive_lineState visit addr
    (fun j hj hs => h.exclusive i j _ (Ne.symm hj) hs) j l

/-- The old value an operation of core `i` finds in a word. -/
theorem observed {b' : SnoopingBus n} (h' : Coherent base flat b') (addr : Word)
    (hw : (b'.controllers i).hasWord addr =
      (decide (b.lineState i (lineOf addr) = .I) || (b.controllers i).hasWord addr)) :
    (b'.controllers i).peek addr = if b.MissingWord i addr then 0 else flat addr := by
  rw [h'.peek_eq, hw]
  by_cases hm : b.MissingWord i addr
  · rw [if_pos hm, if_neg]
    simp [hm.1, hm.2]
  · rw [if_neg hm, if_pos]
    by_cases hI : b.lineState i (lineOf addr) = .I
    · simp [hI]
    · have : (b.controllers i).hasWord addr = true := by
        by_contra hf
        exact hm ⟨hI, by simpa using hf⟩
      simp [this]

/-- A read returns the represented value, or 0 for a missing word. -/
theorem processorRead_value (h : Coherent base flat b) (addr : Word) :
    (b.processorRead visit addr).2 = if b.MissingWord i addr then 0 else flat addr := by
  rw [b.processorRead_snd visit]
  exact (h.processorRead visit addr).observed addr (b.processorRead_hasWord visit addr)

/-- So does an acquisition. -/
theorem acquireExclusive_value (h : Coherent base flat b) (addr : Word) :
    (b.acquireExclusive visit addr).2 = if b.MissingWord i addr then 0 else flat addr := by
  rw [b.acquireExclusive_snd visit]
  exact (h.acquireExclusive visit addr).observed addr (b.acquireExclusive_hasWord visit addr)

/-- An acquisition followed by a store of the word. -/
theorem acquire_putWord (h : Coherent base flat b) (addr v : Word) :
    Coherent base (Function.update flat addr v)
      ((b.acquireExclusive visit addr).1.putWord i addr v) := by
  refine (h.acquireExclusive visit addr).putWord v ?_ ?_
  · rw [h.acquireExclusive_lineState visit]
    simp
  · rw [SnoopingBus.wordsInLine, b.acquireExclusive_lineWords visit]
    exact b.mem_wordsInLine_registerAddr_self addr

/-- A missing word has never been written. -/
theorem eq_base_of_missing (h : Coherent base flat b) {addr : Word}
    (hm : b.MissingWord i addr) : flat addr = base addr := by
  refine (h.absent i addr hm.1 ?_).1
  simpa [CacheController.hasWord] using hm.2

/-- A fresh bus represents its memory. -/
theorem newOver (n : ℕ) (mem : Memory) :
    Coherent mem.read mem.read (SnoopingBus.newOver n mem) := by
  constructor
  · intro l a ha
    cases ha
  · intro i a v hv
    cases hv
  · intro i a v hv
    cases hv
  · intro i j l _ hs
    rcases hs with hs | hs <;> cases hs
  · intro i a v hv
    cases hv
  · intro i a hne
    exact absurd rfl hne
  · exact fun _ _ => ⟨rfl, rfl⟩
  · exact fun _ _ => rfl

end Coherent

namespace Paired

variable {b : SnoopingBus n} {i : Fin n} (visit : VisitOrder i)

theorem processorRead (h : Paired b) (addr : Word) :
    Paired (b.processorRead visit addr).1 := by
  intro j l hS
  simp only [b.processorRead_lineState visit] at hS ⊢
  by_cases hm : l = lineOf addr ∧ b.lineState i (lineOf addr) = .I
  · obtain ⟨rfl, hI⟩ := hm
    simp only [hI, and_self, if_true] at hS ⊢
    by_cases hj : j = i
    · -- the reader itself: a peer that held the line is a sharer now
      subst hj
      have hk : ∃ k, k ≠ j ∧ b.lineState k (lineOf addr) ≠ .I := by
        by_contra hnone
        simp [hnone] at hS
      obtain ⟨k, hkj, hk⟩ := hk
      refine ⟨k, hkj, ?_⟩
      rw [if_neg hkj]
      cases hs : b.lineState k (lineOf addr) with
      | I => exact absurd hs hk
      | S => rfl
      | E => rfl
      | M => rfl
    · refine ⟨i, Ne.symm hj, ?_⟩
      rw [if_pos rfl, if_pos]
      refine ⟨j, hj, fun hI' => ?_⟩
      rw [if_neg hj, hI'] at hS
      cases hS
  · simp only [if_neg hm] at hS ⊢
    exact h j l hS

theorem acquireExclusive {base flat : Word → Word} (h : Paired b) (hc : Coherent base flat b)
    (addr : Word) : Paired (b.acquireExclusive visit addr).1 := by
  intro j l hS
  simp only [hc.acquireExclusive_lineState visit] at hS ⊢
  by_cases hl : l = lineOf addr
  · simp only [if_pos hl] at hS
    split at hS <;> cases hS
  · simp only [if_neg hl] at hS ⊢
    exact h j l hS

theorem putWord (h : Paired b) (i : Fin n) (a v : Word) : Paired (b.putWord i a v) := by
  intro j l
  simp only [b.lineState_putWord]
  exact h j l

end Paired

end MesiCoherence
