import MesiCoherence.Model.SnoopEffect

/-!
# The coherence invariant

`Coherent base flat b` relates a bus to the flat memory `flat` that its caches and
its memory together represent, given that memory held `base` before any word was
touched. A line may be valid in a cache while some of its words are absent there:
those words were unknown to the bus when the line was filled, so nobody has
written them, and memory still holds `base`.

Each micro-step of an operation (registering a word, one snoop, installing a
line, upgrading it, storing a word) keeps the invariant; the operations are
assembled from these lemmas.
-/

namespace MesiCoherence

/-- The represented flat memory, line exclusivity and the registry discipline. -/
structure Coherent {n : ℕ} (base flat : Word → Word) (b : SnoopingBus n) : Prop where
  words_line : ∀ l a, a ∈ b.wordsInLine l → lineOf a = l
  data_words : ∀ i a v, (b.controllers i).data a = some v → a ∈ b.wordsInLine (lineOf a)
  data_valid : ∀ i a v, (b.controllers i).data a = some v → b.lineState i (lineOf a) ≠ .I
  exclusive : ∀ i j l, i ≠ j → b.lineState i l = .M ∨ b.lineState i l = .E →
    b.lineState j l = .I
  present : ∀ i a v, (b.controllers i).data a = some v → v = flat a
  absent : ∀ i a, b.lineState i (lineOf a) ≠ .I → (b.controllers i).data a = none →
    flat a = base a ∧ b.mem.read a = base a
  unregistered : ∀ a, a ∉ b.wordsInLine (lineOf a) → flat a = base a ∧ b.mem.read a = base a
  clean : ∀ a, (∀ i, b.lineState i (lineOf a) ≠ .M) → b.mem.read a = flat a

/-- A shared line has another sharer. -/
def Paired {n : ℕ} (b : SnoopingBus n) : Prop :=
  ∀ i l, b.lineState i l = .S → ∃ j, j ≠ i ∧ b.lineState j l = .S

namespace SnoopingBus

variable {n : ℕ} (b : SnoopingBus n)

theorem lineState_modify (i : Fin n) (f : CacheController → CacheController) (j : Fin n)
    (l : Word) :
    (b.modify i f).lineState j l =
      if j = i then (f (b.controllers i)).lineState l else b.lineState j l := by
  by_cases h : j = i
  · subst h
    simp [lineState]
  · simp [lineState, h]

theorem lineState_setState (i : Fin n) (line : Word) (s : State) (j : Fin n) (l : Word) :
    (b.setState i line s).lineState j l =
      if j = i ∧ l = line then s else b.lineState j l := by
  rw [setState, lineState_modify]
  by_cases h : j = i
  · subst h
    simp [lineState]
  · simp [h]

@[simp] theorem data_setState (i : Fin n) (line : Word) (s : State) (j : Fin n) :
    ((b.setState i line s).controllers j).data = (b.controllers j).data := by
  by_cases h : j = i
  · subst h
    simp [setState]
  · simp [setState, h]

theorem lineState_putWord (i : Fin n) (a v : Word) (j : Fin n) (l : Word) :
    (b.putWord i a v).lineState j l = b.lineState j l := by
  rw [putWord, lineState_modify]
  by_cases h : j = i
  · subst h
    simp [lineState]
  · simp [h]

theorem data_putWord (i : Fin n) (a v : Word) (j : Fin n) (x : Word) :
    ((b.putWord i a v).controllers j).data x =
      if j = i ∧ x = a then some v else (b.controllers j).data x := by
  by_cases h : j = i
  · subst h
    by_cases hx : x = a
    · simp [putWord, hx]
    · simp [putWord, hx]
  · simp [putWord, h]

theorem lineState_fillLine (i : Fin n) (line : Word) (j : Fin n) (l : Word) :
    (b.fillLine i line).lineState j l = b.lineState j l := by
  rw [fillLine_eq, lineState_modify]
  by_cases h : j = i
  · subst h
    simp [lineState]
  · simp [h]

theorem data_fillLine (i : Fin n) (line : Word) (j : Fin n) (x : Word) :
    ((b.fillLine i line).controllers j).data x =
      if j = i ∧ x ∈ b.wordsInLine line then some (b.mem.read x)
      else (b.controllers j).data x := by
  rw [fillLine_eq]
  by_cases h : j = i
  · subst h
    simp
  · simp [h]

/-- The line states after a fill that enters state `s`. -/
theorem lineState_install (i : Fin n) (line : Word) (s : State) (j : Fin n) (l : Word) :
    ((b.fillLine i line).setState i line s).lineState j l =
      if j = i ∧ l = line then s else b.lineState j l := by
  rw [lineState_setState, lineState_fillLine]

theorem data_install (i : Fin n) (line : Word) (s : State) (j : Fin n) (x : Word) :
    (((b.fillLine i line).setState i line s).controllers j).data x =
      if j = i ∧ x ∈ b.wordsInLine line then some (b.mem.read x)
      else (b.controllers j).data x := by
  rw [data_setState, data_fillLine]

theorem snooped_lineState (i : Fin n) (txn : BusTxn) (addr : Word) (j : Fin n) (l : Word) :
    (b.snooped i txn addr).lineState j l =
      if j = i ∧ l = lineOf addr then txn.snoopNext (b.lineState i (lineOf addr))
      else b.lineState j l := by
  by_cases h : j = i
  · subst h
    simp [lineState, snooped]
  · simp [snooped_lineState_of_ne h, h]

theorem snooped_data (i : Fin n) (txn : BusTxn) (addr : Word) (j : Fin n) (x : Word) :
    ((b.snooped i txn addr).controllers j).data x =
      if j = i ∧ b.LosesCopy i txn (lineOf addr) ∧ x ∈ b.wordsInLine (lineOf addr) then none
      else (b.controllers j).data x := by
  by_cases h : j = i
  · subst h
    simp [snooped, CacheController.data_snoopController, LosesCopy, lineState, and_assoc]
  · simp [snooped, h]

theorem snooped_mem_read (i : Fin n) (txn : BusTxn) (addr x : Word) :
    (b.snooped i txn addr).mem.read x =
      if b.WritesBack i txn (lineOf addr) ∧ x ∈ b.wordsInLine (lineOf addr) ∧
          (b.controllers i).hasWord x = true
      then (b.controllers i).peek x else b.mem.read x := by
  by_cases hw : b.WritesBack i txn (lineOf addr)
  · have hm : (b.snooped i txn addr).mem =
        b.mem.writeback (b.wordsInLine (lineOf addr)) (b.controllers i) := if_pos hw
    rw [hm, Memory.read_writeback]
    simp only [hw, true_and]
  · have hm : (b.snooped i txn addr).mem = b.mem := if_neg hw
    rw [hm]
    simp only [hw, false_and, if_false]

end SnoopingBus

theorem BusTxn.snoopNext_eq_M {txn : BusTxn} {s : State} (h : txn.snoopNext s = .M) : s = .M := by
  cases txn <;> cases s <;> simp_all [BusTxn.snoopNext]

theorem BusTxn.snoopNext_eq_E {txn : BusTxn} {s : State} (h : txn.snoopNext s = .E) : s = .E := by
  cases txn <;> cases s <;> simp_all [BusTxn.snoopNext]

theorem BusTxn.snoopNext_eq_I_iff (txn : BusTxn) (s : State) :
    txn.snoopNext s = .I ↔ s = .I ∨ txn.Invalidates := by
  cases txn <;> cases s <;> simp [BusTxn.snoopNext, BusTxn.Invalidates]

namespace Coherent

variable {n : ℕ} {base flat : Word → Word} {b : SnoopingBus n}

/-- The invariant does not mention counters. -/
theorem congr {b' : SnoopingBus n} (h : Coherent base flat b)
    (hc : b'.controllers = b.controllers) (hm : b'.mem.read = b.mem.read)
    (hw : b'.lineWords = b.lineWords) : Coherent base flat b' := by
  have hst : ∀ i l, b'.lineState i l = b.lineState i l := by
    intro i l
    rw [SnoopingBus.lineState, hc, SnoopingBus.lineState]
  have hwords : ∀ l, b'.wordsInLine l = b.wordsInLine l := by
    intro l
    rw [SnoopingBus.wordsInLine, hw, SnoopingBus.wordsInLine]
  constructor
  · simpa only [hwords] using h.words_line
  · simpa only [hwords, hc] using h.data_words
  · simpa only [hst, hc] using h.data_valid
  · simpa only [hst] using h.exclusive
  · simpa only [hc] using h.present
  · simpa only [hst, hc, hm] using h.absent
  · simpa only [hwords, hm] using h.unregistered
  · simpa only [hst, hm] using h.clean

/-- What a controller shows for a word of a held line: the represented value, or the
    zero of an absent word. -/
theorem peek_eq (h : Coherent base flat b) (i : Fin n) (a : Word) :
    (b.controllers i).peek a =
      if (b.controllers i).hasWord a = true then flat a else 0 := by
  unfold CacheController.peek CacheController.hasWord
  cases hd : (b.controllers i).data a with
  | none => simp
  | some v => simp [h.present i a v hd]

/-- Over zeroed memory a held line shows the represented value. -/
theorem peek_of_held (h : Coherent (fun _ => 0) flat b) {i : Fin n} {a : Word}
    (hs : b.lineState i (lineOf a) ≠ .I) : (b.controllers i).peek a = flat a := by
  rw [h.peek_eq]
  split
  · rfl
  · next hw => exact ((h.absent i a hs (by simpa [CacheController.hasWord] using hw)).1).symm

theorem registerAddr (h : Coherent base flat b) (a : Word) :
    Coherent base flat (b.registerAddr a) := by
  constructor
  · intro l x hx
    rw [b.mem_registerAddr_wordsInLine] at hx
    rcases hx with hx | ⟨rfl, rfl⟩
    · exact h.words_line l x hx
    · rfl
  · intro i x v hx
    rw [b.mem_registerAddr_wordsInLine]
    exact Or.inl (h.data_words i x v hx)
  · exact h.data_valid
  · exact h.exclusive
  · exact h.present
  · exact h.absent
  · intro x hx
    rw [b.mem_registerAddr_wordsInLine] at hx
    exact h.unregistered x fun hw => hx (Or.inl hw)
  · exact h.clean

section Snooped

variable {i : Fin n} {txn : BusTxn} {addr : Word}

/-- A line held after a snoop was held before it. -/
theorem held_of_snooped {j : Fin n} {l : Word}
    (hne : (b.snooped i txn addr).lineState j l ≠ .I) : b.lineState j l ≠ .I := by
  intro hI
  rw [b.snooped_lineState] at hne
  split at hne
  · next hjl =>
    obtain ⟨rfl, rfl⟩ := hjl
    exact hne (by rw [hI, BusTxn.snoopNext_I])
  · exact hne hI

/-- A word present after a snoop was present before it. -/
theorem data_of_snooped {j : Fin n} {x v : Word}
    (hx : ((b.snooped i txn addr).controllers j).data x = some v) :
    (b.controllers j).data x = some v := by
  rw [b.snooped_data] at hx
  split at hx
  · cases hx
  · exact hx

variable (h : Coherent base flat b)

include h

/-- An invalidated copy leaves no word behind. -/
theorem snooped_valid {j : Fin n} {x v : Word}
    (hx : ((b.snooped i txn addr).controllers j).data x = some v) :
    (b.snooped i txn addr).lineState j (lineOf x) ≠ .I := by
  intro hI
  have hx' := data_of_snooped hx
  rw [b.snooped_lineState] at hI
  split at hI
  · next hjl =>
    obtain ⟨rfl, hl⟩ := hjl
    rw [BusTxn.snoopNext_eq_I_iff, ← hl] at hI
    rcases hI with hI | hinv
    · exact h.data_valid j x v hx' hI
    · have hw := h.data_words j x v hx'
      have hne := h.data_valid j x v hx'
      rw [hl] at hw hne
      rw [b.snooped_data, if_pos ⟨rfl, ⟨hne, hinv⟩, hw⟩] at hx
      cases hx
  · exact h.data_valid j x v hx' hI

theorem snooped_exclusive {j k : Fin n} {l : Word} (hjk : j ≠ k)
    (hME : (b.snooped i txn addr).lineState j l = .M ∨
      (b.snooped i txn addr).lineState j l = .E) :
    (b.snooped i txn addr).lineState k l = .I := by
  have hj : b.lineState j l = .M ∨ b.lineState j l = .E := by
    rw [b.snooped_lineState] at hME
    split at hME
    · next hjl =>
      obtain ⟨rfl, rfl⟩ := hjl
      exact hME.imp BusTxn.snoopNext_eq_M BusTxn.snoopNext_eq_E
    · exact hME
  by_contra hk
  exact held_of_snooped hk (h.exclusive j k l hjk hj)

/-- A writeback leaves alone a word that memory shows already. -/
theorem snooped_mem_keeps {x : Word} (hm : b.mem.read x = flat x) :
    (b.snooped i txn addr).mem.read x = flat x := by
  rw [b.snooped_mem_read]
  split
  · next hw => rw [h.peek_eq, if_pos hw.2.2]
  · exact hm

theorem snooped_absent {j : Fin n} {x : Word}
    (hne : (b.snooped i txn addr).lineState j (lineOf x) ≠ .I)
    (hnone : ((b.snooped i txn addr).controllers j).data x = none) :
    flat x = base x ∧ (b.snooped i txn addr).mem.read x = base x := by
  rw [b.snooped_data] at hnone
  split at hnone
  · next hd =>
    -- the word was dropped, so the line is invalid now
    obtain ⟨rfl, hl, hw⟩ := hd
    rw [b.snooped_lineState, if_pos ⟨rfl, h.words_line _ _ hw⟩] at hne
    exact absurd ((BusTxn.snoopNext_eq_I_iff _ _).mpr (Or.inr hl.2)) hne
  · obtain ⟨hf, hm⟩ := h.absent j x (held_of_snooped hne) hnone
    exact ⟨hf, (h.snooped_mem_keeps (hm.trans hf.symm)).trans hf⟩

/-- The holder of a dirty line that loses it writes all its words back. -/
theorem snooped_mem_of_dirty {x : Word} (hl : lineOf x = lineOf addr)
    (hwb : b.WritesBack i txn (lineOf addr)) :
    (b.snooped i txn addr).mem.read x = flat x := by
  rw [b.snooped_mem_read]
  split
  · next hw => rw [h.peek_eq, if_pos hw.2.2]
  · next hw =>
    have hnone : (b.controllers i).data x = none := by
      by_contra hsome
      obtain ⟨v, hv⟩ := Option.ne_none_iff_exists'.mp hsome
      refine hw ⟨hwb, ?_, ?_⟩
      · rw [← hl]
        exact h.data_words i x v hv
      · simp [CacheController.hasWord, hv]
    obtain ⟨hf, hm⟩ := h.absent i x (by rw [hl, hwb.1]; decide) hnone
    rw [hf, hm]

theorem snooped_clean (hup : txn = .busUpgr → b.lineState i (lineOf addr) ≠ .M) {x : Word}
    (hM : ∀ j, (b.snooped i txn addr).lineState j (lineOf x) ≠ .M) :
    (b.snooped i txn addr).mem.read x = flat x := by
  by_cases hd : lineOf x = lineOf addr ∧ b.lineState i (lineOf addr) = .M
  · obtain ⟨hl, hMi⟩ := hd
    have hMi' := hM i
    rw [b.snooped_lineState, if_pos ⟨rfl, hl⟩, hMi] at hMi'
    refine h.snooped_mem_of_dirty hl ⟨hMi, ?_⟩
    cases txn with
    | busRd => exact Or.inl rfl
    | busRdX => exact Or.inr rfl
    | busUpgr => exact absurd hMi (hup rfl)
    | none => exact absurd rfl hMi'
    | busWB => exact absurd rfl hMi'
  · refine h.snooped_mem_keeps (h.clean x fun j hj => ?_)
    have hMj := hM j
    rw [b.snooped_lineState] at hMj
    split at hMj
    · next hc =>
      obtain ⟨rfl, hl⟩ := hc
      exact hd ⟨hl, hl ▸ hj⟩
    · exact hMj hj

/-- One snoop keeps the invariant. A dirty copy may only be taken by a transaction
    that makes its holder write back first. -/
theorem snooped (i : Fin n) (txn : BusTxn) (addr : Word)
    (hup : txn = .busUpgr → b.lineState i (lineOf addr) ≠ .M) :
    Coherent base flat (b.snooped i txn addr) where
  words_line := h.words_line
  data_words j x v hx := h.data_words j x v (data_of_snooped hx)
  data_valid _ _ _ hx := h.snooped_valid hx
  exclusive _ _ _ hjk hME := h.snooped_exclusive hjk hME
  present j x v hx := h.present j x v (data_of_snooped hx)
  absent _ _ hne hnone := h.snooped_absent hne hnone
  unregistered x hx := by
    obtain ⟨hf, hm⟩ := h.unregistered x hx
    exact ⟨hf, (h.snooped_mem_keeps (hm.trans hf.symm)).trans hf⟩
  clean _ hM := h.snooped_clean hup hM

end Snooped

/-- A whole broadcast keeps the invariant. An upgrade is issued from a shared copy, so
    no peer it invalidates is dirty. -/
theorem snoopAll (txn : BusTxn) (addr : Word) {issuer : Fin n} (is : List (Fin n))
    (hiss : issuer ∉ is) (b : SnoopingBus n) (agg : SnoopResult) (h : Coherent base flat b)
    (hup : txn = .busUpgr → b.lineState issuer (lineOf addr) = .S) :
    Coherent base flat (SnoopingBus.snoopAll txn addr is b agg).1 := by
  induction is generalizing b agg with
  | nil => exact h
  | cons i is ih =>
    obtain ⟨hi, his⟩ := not_or.mp (List.mem_cons.not.mp hiss)
    rw [SnoopingBus.snoopAll, SnoopingBus.snoop_fst]
    refine ih his _ _ (h.snooped i txn addr ?_) ?_
    · intro ht hM
      have hI := h.exclusive i issuer _ (Ne.symm hi) (Or.inl hM)
      rw [hup ht] at hI
      cases hI
    · intro ht
      rw [SnoopingBus.snooped_lineState_of_ne hi]
      exact hup ht

/-- A line entered in a state compatible with the peers stays exclusive. -/
theorem install_exclusive (h : Coherent base flat b) {i : Fin n} {line : Word} {s : State}
    (hclean : ∀ j, b.lineState j line ≠ .M)
    (hown : s = .M ∨ s = .E → ∀ j, j ≠ i → b.lineState j line = .I)
    (hshare : s = .S → ∀ j, b.lineState j line ≠ .E) (hs : s ≠ .I) {j k : Fin n} {l : Word}
    (hjk : j ≠ k) (hME : ((b.fillLine i line).setState i line s).lineState j l = .M ∨
      ((b.fillLine i line).setState i line s).lineState j l = .E) :
    ((b.fillLine i line).setState i line s).lineState k l = .I := by
  rw [b.lineState_install] at hME
  rw [b.lineState_install]
  by_cases hj : j = i ∧ l = line
  · obtain ⟨rfl, rfl⟩ := hj
    rw [if_pos ⟨rfl, rfl⟩] at hME
    rw [if_neg fun hc => hjk hc.1.symm]
    exact hown hME k (Ne.symm hjk)
  · rw [if_neg hj] at hME
    by_cases hk : k = i ∧ l = line
    · -- another owner of the line contradicts the state entered
      obtain ⟨rfl, rfl⟩ := hk
      rcases hME with hM | hE
      · exact absurd hM (hclean j)
      · cases s with
        | I => exact absurd rfl hs
        | S => exact absurd hE (hshare rfl j)
        | E => rw [hown (Or.inr rfl) j hjk] at hE; cases hE
        | M => rw [hown (Or.inl rfl) j hjk] at hE; cases hE
    · rw [if_neg hk]
      exact h.exclusive j k l hjk hME

/-- Filling a line from memory and entering a state compatible with the peers. -/
theorem install (h : Coherent base flat b) {i : Fin n} {line : Word} {s : State}
    (hI : b.lineState i line = .I) (hclean : ∀ j, b.lineState j line ≠ .M)
    (hown : s = .M ∨ s = .E → ∀ j, j ≠ i → b.lineState j line = .I)
    (hshare : s = .S → ∀ j, b.lineState j line ≠ .E) (hs : s ≠ .I) :
    Coherent base flat ((b.fillLine i line).setState i line s) := by
  have hmem : ((b.fillLine i line).setState i line s).mem = b.mem := by
    rw [SnoopingBus.fillLine_eq]; rfl
  have hwords : ∀ l, ((b.fillLine i line).setState i line s).wordsInLine l =
      b.wordsInLine l := by
    intro l
    rw [SnoopingBus.fillLine_eq]; rfl
  constructor
  · intro l a ha
    rw [hwords] at ha
    exact h.words_line l a ha
  · intro j x v hx
    rw [hwords]
    rw [b.data_install] at hx
    split at hx
    · next hw => rw [h.words_line _ _ hw.2]; exact hw.2
    · exact h.data_words j x v hx
  · intro j x v hx hI'
    rw [b.lineState_install] at hI'
    rw [b.data_install] at hx
    split at hI'
    · exact hs hI'
    · next hne =>
      split at hx
      · next hw => exact hne ⟨hw.1, h.words_line _ _ hw.2⟩
      · exact h.data_valid j x v hx hI'
  · exact fun j k l hjk hME => h.install_exclusive hclean hown hshare hs hjk hME
  · intro j x v hx
    rw [b.data_install] at hx
    split at hx
    · next hw =>
      have hxl := h.words_line _ _ hw.2
      have hc := h.clean x (by rw [hxl]; exact hclean)
      exact (Option.some.inj hx).symm.trans hc
    · exact h.present j x v hx
  · intro j x hne hnone
    rw [hmem]
    rw [b.data_install] at hnone
    split at hnone
    · cases hnone
    · next hw =>
      rw [b.lineState_install] at hne
      split at hne
      · next hj =>
        obtain ⟨rfl, hl⟩ := hj
        exact h.unregistered x fun hx => hw ⟨rfl, hl ▸ hx⟩
      · exact h.absent j x hne hnone
  · intro x hx
    rw [hwords] at hx
    rw [hmem]
    exact h.unregistered x hx
  · intro x hM
    rw [hmem]
    refine h.clean x fun j hj => ?_
    have hne := hM j
    rw [b.lineState_install] at hne
    split at hne
    · next hjl =>
      obtain ⟨rfl, hl⟩ := hjl
      rw [hl, hI] at hj
      cases hj
    · exact hne hj

/-- Entering M on a held line that nobody else holds. -/
theorem upgrade (h : Coherent base flat b) {i : Fin n} {line : Word}
    (hheld : b.lineState i line ≠ .I) (hown : ∀ j, j ≠ i → b.lineState j line = .I) :
    Coherent base flat (b.setState i line .M) := by
  have hne : ∀ j l, (b.setState i line .M).lineState j l ≠ .I → b.lineState j l ≠ .I := by
    intro j l hl
    rw [SnoopingBus.lineState_setState] at hl
    split at hl
    · next hjl => obtain ⟨rfl, rfl⟩ := hjl; exact hheld
    · exact hl
  constructor
  · exact h.words_line
  · intro j x v hx
    rw [SnoopingBus.data_setState] at hx
    exact h.data_words j x v hx
  · intro j x v hx hI
    rw [SnoopingBus.data_setState] at hx
    rw [SnoopingBus.lineState_setState] at hI
    split at hI
    · cases hI
    · exact h.data_valid j x v hx hI
  · intro j k l hjk hME
    by_contra hk
    have hk' := hne k l hk
    rw [SnoopingBus.lineState_setState] at hME
    split at hME
    · next hjl =>
      obtain ⟨rfl, rfl⟩ := hjl
      exact hk' (hown k (Ne.symm hjk))
    · exact hk' (h.exclusive j k l hjk hME)
  · intro j x v hx
    rw [SnoopingBus.data_setState] at hx
    exact h.present j x v hx
  · intro j x hl hnone
    rw [SnoopingBus.data_setState] at hnone
    exact h.absent j x (hne j _ hl) hnone
  · exact h.unregistered
  · intro x hM
    refine h.clean x fun j hj => ?_
    have := hM j
    rw [SnoopingBus.lineState_setState] at this
    split at this
    · exact this rfl
    · exact this hj

/-- The owner of a dirty line stores a word. -/
theorem putWord (h : Coherent base flat b) {i : Fin n} {a : Word} (v : Word)
    (hM : b.lineState i (lineOf a) = .M) (hreg : a ∈ b.wordsInLine (lineOf a)) :
    Coherent base (Function.update flat a v) (b.putWord i a v) := by
  have hother : ∀ j, j ≠ i → b.lineState j (lineOf a) = .I := fun j hj =>
    h.exclusive i j _ (Ne.symm hj) (Or.inl hM)
  constructor
  · exact h.words_line
  · intro j x w hx
    rw [SnoopingBus.data_putWord] at hx
    split at hx
    · next hj => obtain ⟨rfl, rfl⟩ := hj; exact hreg
    · exact h.data_words j x w hx
  · intro j x w hx
    rw [SnoopingBus.lineState_putWord]
    rw [SnoopingBus.data_putWord] at hx
    split at hx
    · next hj => obtain ⟨rfl, rfl⟩ := hj; rw [hM]; decide
    · exact h.data_valid j x w hx
  · intro j k l hjk
    rw [SnoopingBus.lineState_putWord, SnoopingBus.lineState_putWord]
    exact h.exclusive j k l hjk
  · intro j x w hx
    rw [SnoopingBus.data_putWord] at hx
    split at hx
    · next hj =>
      obtain ⟨rfl, rfl⟩ := hj
      rw [Function.update_self]
      exact (Option.some.inj hx).symm
    · next hj =>
      -- another cache that held the word would share a dirty line
      have hxa : x ≠ a := by
        rintro rfl
        have hji : j ≠ i := fun hji => hj ⟨hji, rfl⟩
        exact h.data_valid j x w hx (hother j hji)
      rw [Function.update_of_ne hxa]
      exact h.present j x w hx
  · intro j x hne hnone
    rw [SnoopingBus.lineState_putWord] at hne
    rw [SnoopingBus.data_putWord] at hnone
    split at hnone
    · cases hnone
    · next hj =>
      have hxa : x ≠ a := by
        rintro rfl
        have hji : j ≠ i := fun hji => hj ⟨hji, rfl⟩
        exact hne (hother j hji)
      rw [Function.update_of_ne hxa]
      exact h.absent j x hne hnone
  · intro x hx
    have hxa : x ≠ a := by
      rintro rfl
      exact hx hreg
    rw [Function.update_of_ne hxa]
    exact h.unregistered x hx
  · intro x hclean
    have hxa : x ≠ a := by
      rintro rfl
      refine hclean i ?_
      rw [SnoopingBus.lineState_putWord]
      exact hM
    rw [Function.update_of_ne hxa]
    refine h.clean x fun j => ?_
    have := hclean j
    rwa [SnoopingBus.lineState_putWord] at this

end Coherent

end MesiCoherence
