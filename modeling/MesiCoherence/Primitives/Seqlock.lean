import Mathlib.Data.Fintype.Basic
import MesiCoherence.Primitives.Dut

/-!
# The seqlock

`primitives/seqlock.hpp`: a writer makes the sequence word odd, writes the data words one
by one and makes it even again; a reader copies the data words between two reads of the
sequence word, and succeeds if both saw the same even value. Nobody locks; the callers
serialise the writers, and `read_retry` calls `try_read` until it succeeds. The fences do
nothing to memory and are no steps.

This file has the code and what a writer does to the words.
-/

namespace MesiCoherence

/-- A sequence word, and `nWords` data words apart from it. The index `4 * i` of the source
    is an `int`, so `nWords` is far below 2^30. -/
structure Seqlock where
  seqAddr : Word
  dataBase : Word
  nWords : ℕ
  fits : nWords ≤ 2 ^ 30
  outside : ∀ i < nWords, seqAddr ≠ dataBase + BitVec.ofNat 32 (4 * i)

inductive SeqlockOp where
  | write (vals : List Word)
  | tryRead
  deriving DecidableEq, Repr

/-- The program points of `write` and `try_read`, each with its local variables. -/
inductive SeqlockLocal where
  | idle
  | writeStart (vals : List Word)
  | writeOdd (vals : List Word) (s : Word)
  | writeWord (vals : List Word) (s : Word) (i : ℕ)
  | writeEven (vals : List Word) (s : Word)
  | readStart
  /-- the words before `out.length` are copied -/
  | readWord (s1 : Word) (out : List Word)
  | readEnd (s1 : Word) (out : List Word)
  deriving DecidableEq, Repr

namespace SeqlockLocal

/-- Inside `write`. -/
def writing : SeqlockLocal → Bool
  | .writeStart _ => true
  | .writeOdd _ _ => true
  | .writeWord _ _ _ => true
  | .writeEven _ _ => true
  | _ => false

/-- Inside `write`, with the sequence word odd. -/
def active : SeqlockLocal → Bool
  | .writeWord _ _ _ => true
  | .writeEven _ _ => true
  | _ => false

theorem writing_of_active {l : SeqlockLocal} (h : l.active = true) : l.writing = true := by
  cases l <;> first | rfl | cases h

theorem not_active {l : SeqlockLocal} (h : l.writing = false) : l.active = false := by
  refine eq_false_of_ne_true fun ha => ?_
  rw [writing_of_active ha] at h
  cases h

end SeqlockLocal

namespace Seqlock

variable (sl : Seqlock)

/-- The address of data word `i`. -/
def dataAddr (i : ℕ) : Word := sl.dataBase + BitVec.ofNat 32 (4 * i)

/-- The contents of the data words. -/
def words (m : Word → Word) : List Word := (List.range sl.nWords).map fun i => m (sl.dataAddr i)

/-- The head of the loop of `write`. -/
def writeLoop (vals : List Word) (s : Word) (i : ℕ) : SeqlockLocal :=
  if i < sl.nWords then .writeWord vals s i else .writeEven vals s

/-- The head of the loop of `try_read`. -/
def readLoop (s1 : Word) (out : List Word) : SeqlockLocal :=
  if out.length < sl.nWords then .readWord s1 out else .readEnd s1 out

/-- `write` and `try_read`, called by idle threads. A write is given enough values, and
    starts when no other is in progress. -/
def code {T : Type*} [Fintype T] : ThreadCode T Word Word SeqlockOp SeqlockLocal where
  command locals t
    | .write vals =>
      if locals t = .idle ∧ sl.nWords ≤ vals.length ∧ ∀ u, (locals u).writing = false then
        some (.writeStart vals)
      else none
    | .tryRead => if locals t = .idle then some .readStart else none
  next
    | .idle => none
    | .writeStart _ => some (.read sl.seqAddr)
    | .writeOdd _ s => some (.write sl.seqAddr (s + 1))
    | .writeWord vals _ i => some (.write (sl.dataAddr i) (vals.getD i 0))
    | .writeEven _ s => some (.write sl.seqAddr (s + 2))
    | .readStart => some (.read sl.seqAddr)
    | .readWord _ out => some (.read (sl.dataAddr out.length))
    | .readEnd _ _ => some (.read sl.seqAddr)
  resume
    | .writeStart vals, .value s => .writeOdd vals s
    | .writeOdd vals s, _ => sl.writeLoop vals s 0
    | .writeWord vals s i, _ => sl.writeLoop vals s (i + 1)
    | .writeEven _ _, _ => .idle
    | .readStart, .value s1 => if s1 &&& 1 = 1 then .idle else sl.readLoop s1 []
    | .readWord s1 out, .value v => sl.readLoop s1 (out ++ [v])
    | .readEnd _ _, _ => .idle
    | l, _ => l
  foreign acc :=
    acc.keeps sl.seqAddr && (List.range sl.nWords).all fun i => acc.keeps (sl.dataAddr i)

variable {sl}

theorem dataAddr_inj {i j : ℕ} (hi : i < sl.nWords) (hj : j < sl.nWords) :
    sl.dataAddr i = sl.dataAddr j ↔ i = j := by
  have hfits := sl.fits
  rw [dataAddr, dataAddr, BitVec.add_right_inj, ← BitVec.toNat_inj, BitVec.toNat_ofNat,
    BitVec.toNat_ofNat, Nat.mod_eq_of_lt (by omega), Nat.mod_eq_of_lt (by omega)]
  omega

theorem words_congr {m m' : Word → Word}
    (h : ∀ i < sl.nWords, m' (sl.dataAddr i) = m (sl.dataAddr i)) : sl.words m' = sl.words m := by
  apply List.map_congr_left
  intro i hi
  exact h i (List.mem_range.mp hi)

/-- Writing the sequence word changes no data word. -/
theorem words_update_seq (m : Word → Word) (v : Word) :
    sl.words (Function.update m sl.seqAddr v) = sl.words m :=
  words_congr fun i hi => Function.update_of_ne (Ne.symm (sl.outside i hi)) _ _

-- ════════════════════════════════════════════════════════════════════════
-- The writer
-- ════════════════════════════════════════════════════════════════════════

variable {T : Type*}

/-- The state of threads of a seqlock over a flat memory. -/
abbrev State (T : Type*) := ThreadState T (Word → Word) SeqlockLocal

/-- No thread has the sequence word odd. -/
def Quiet (s : State T) : Prop := ∀ t, (s.locals t).active = false

/-- What a program point of `write` says about memory, when the sequence word was `base`
    before the write. -/
def WriterOk (sl : Seqlock) (base : Word) (m : Word → Word) : SeqlockLocal → Prop
  | .writeStart vals => sl.nWords ≤ vals.length
  | .writeOdd vals s => sl.nWords ≤ vals.length ∧ s = base
  | .writeWord vals s i => sl.nWords ≤ vals.length ∧ s = base ∧ m sl.seqAddr = base + 1 ∧
    i < sl.nWords ∧ ∀ j < i, m (sl.dataAddr j) = vals.getD j 0
  | .writeEven vals s => sl.nWords ≤ vals.length ∧ s = base ∧ m sl.seqAddr = base + 1 ∧
    sl.words m = vals.take sl.nWords
  | _ => True

/-- The words after `k` completed writes to an even sequence word `seq₀`, when `version` is
    the vector of the last of them. -/
structure WriterInv (sl : Seqlock) (seq₀ : Word) (k : ℕ) (version : List Word) (s : State T) :
    Prop where
  serial : ∀ t u, (s.locals t).writing = true → (s.locals u).writing = true → t = u
  seq : Quiet s → s.mem sl.seqAddr = seq₀ + BitVec.ofNat 32 (2 * k)
  data : Quiet s → sl.words s.mem = version
  writer : ∀ t, sl.WriterOk (seq₀ + BitVec.ofNat 32 (2 * k)) s.mem (s.locals t)

variable [DecidableEq T] {seq₀ : Word} {k : ℕ} {version vals : List Word} {s : State T} {t : T}
  {m : Word → Word} {l : SeqlockLocal} {v : Word} {i : ℕ}

omit [DecidableEq T] in
/-- The program points of a reader say nothing about memory. -/
theorem writerOk_of_not_writing (hl : l.writing = false) : sl.WriterOk v m l := by
  cases l <;> first | exact trivial | cases hl

omit [DecidableEq T] in
/-- A step that leaves the words of the seqlock alone. -/
theorem WriterInv.setMem (h : sl.WriterInv seq₀ k version s)
    (hs : m sl.seqAddr = s.mem sl.seqAddr)
    (hw : ∀ i < sl.nWords, m (sl.dataAddr i) = s.mem (sl.dataAddr i)) :
    sl.WriterInv seq₀ k version (s.setMem m) := by
  refine ⟨h.serial, fun ha => hs.trans (h.seq ha), fun ha => (words_congr hw).trans (h.data ha), ?_⟩
  intro t
  have hok := h.writer t
  show sl.WriterOk _ m (s.locals t)
  cases hl : s.locals t with
  | writeWord vals x i =>
    rw [hl] at hok
    obtain ⟨hlen, hx, hseq, hi, hdone⟩ := hok
    exact ⟨hlen, hx, hs.trans hseq, hi, fun j hj => (hw j (by omega)).trans (hdone j hj)⟩
  | writeEven vals x =>
    rw [hl] at hok
    obtain ⟨hlen, hx, hseq, hdone⟩ := hok
    exact ⟨hlen, hx, hs.trans hseq, (words_congr hw).trans hdone⟩
  | _ =>
    rw [hl] at hok
    exact hok

/-- Only a thread that leaves a write can make the sequence word even. -/
theorem quiet_of_setLocal (hl : l.active = false → (s.locals t).active = false)
    (hq : Quiet (s.setLocal t l)) : Quiet s := by
  intro u
  exact ThreadState.forall_setLocal
    (P := fun u (l : SeqlockLocal) => l.active = false → (s.locals u).active = false)
    hl (fun _ _ h => h) u (hq u)

/-- A step between program points of a reader. -/
theorem WriterInv.setReader (h : sl.WriterInv seq₀ k version s)
    (ht : (s.locals t).writing = false) (hl : l.writing = false) :
    sl.WriterInv seq₀ k version (s.setLocal t l) := by
  have hquiet : Quiet (s.setLocal t l) → Quiet s :=
    quiet_of_setLocal fun _ => SeqlockLocal.not_active ht
  refine ⟨?_, fun ha => h.seq (hquiet ha), fun ha => h.data (hquiet ha), ?_⟩
  · refine ThreadState.unique_setLocal_of_imp h.serial fun hw => ?_
    rw [hl] at hw
    cases hw
  · exact ThreadState.forall_setLocal (P := fun _ l => sl.WriterOk _ s.mem l)
      (writerOk_of_not_writing hl) fun u _ => h.writer u

/-- A step of the only thread that may be writing. -/
theorem WriterInv.setWriter (hothers : ∀ u, u ≠ t → (s.locals u).writing = false)
    (hok : sl.WriterOk (seq₀ + BitVec.ofNat 32 (2 * k)) s.mem l)
    (hs : l.active = false → s.mem sl.seqAddr = seq₀ + BitVec.ofNat 32 (2 * k))
    (hw : l.active = false → sl.words s.mem = version) :
    sl.WriterInv seq₀ k version (s.setLocal t l) := by
  have hl : Quiet (s.setLocal t l) → l.active = false := by
    intro ha
    rw [← ThreadState.setLocal_self s t l]
    exact ha t
  refine ⟨ThreadState.unique_setLocal hothers, fun ha => hs (hl ha), fun ha => hw (hl ha), ?_⟩
  exact ThreadState.forall_setLocal (P := fun _ l => sl.WriterOk _ s.mem l) hok
    fun u hut => writerOk_of_not_writing (hothers u hut)

omit [DecidableEq T] in
/-- While `t` writes, no other thread does. -/
theorem WriterInv.others (h : sl.WriterInv seq₀ k version s) (ht : (s.locals t).writing = true) :
    ∀ u, u ≠ t → (s.locals u).writing = false :=
  ThreadState.others_of_unique h.serial ht

/-- While `t` writes with the sequence word even, nobody has it odd. -/
theorem WriterInv.quiet (h : sl.WriterInv seq₀ k version s) (ht : (s.locals t).writing = true)
    (ha : (s.locals t).active = false) : Quiet s := by
  intro u
  by_cases hut : u = t
  · exact hut ▸ ha
  · exact SeqlockLocal.not_active (h.others ht u hut)

/-- A write is called while no other is in progress. -/
theorem WriterInv.call (h : sl.WriterInv seq₀ k version s) (hlen : sl.nWords ≤ vals.length)
    (hnone : ∀ u, (s.locals u).writing = false) :
    sl.WriterInv seq₀ k version (s.setLocal t (.writeStart vals)) := by
  have hquiet : Quiet s := fun u => SeqlockLocal.not_active (hnone u)
  exact WriterInv.setWriter (fun u _ => hnone u) hlen (fun _ => h.seq hquiet) fun _ => h.data hquiet

/-- The writer reads the sequence word. -/
theorem WriterInv.writeStart (h : sl.WriterInv seq₀ k version s)
    (ht : s.locals t = .writeStart vals) :
    sl.WriterInv seq₀ k version (s.setLocal t (.writeOdd vals (s.mem sl.seqAddr))) := by
  have hok := h.writer t
  rw [ht] at hok
  have hquiet := h.quiet (t := t) (by rw [ht]; rfl) (by rw [ht]; rfl)
  exact WriterInv.setWriter (h.others (by rw [ht]; rfl)) ⟨hok, h.seq hquiet⟩
    (fun _ => h.seq hquiet) fun _ => h.data hquiet

omit [DecidableEq T] in
/-- The head of the loop of `write` when the words before `i` are written. -/
theorem writerOk_writeLoop (hlen : sl.nWords ≤ vals.length) (hseq : m sl.seqAddr = v + 1)
    (hi : i ≤ sl.nWords) (hdone : ∀ j < i, m (sl.dataAddr j) = vals.getD j 0) :
    sl.WriterOk v m (sl.writeLoop vals v i) := by
  rw [writeLoop]
  split
  · next hlt => exact ⟨hlen, rfl, hseq, hlt, hdone⟩
  · refine ⟨hlen, rfl, hseq, ?_⟩
    apply List.ext_getElem
    · simp [words, hlen]
    · intro j hj hj'
      have hjn : j < sl.nWords := by simpa [words] using hj
      have hjv : j < vals.length := by omega
      simp [words, hdone j (by omega), hjv]

theorem active_writeLoop (vals : List Word) (s : Word) (i : ℕ) :
    (sl.writeLoop vals s i).active = true := by
  rw [writeLoop]
  split <;> rfl

/-- The writer makes the sequence word odd. -/
theorem WriterInv.writeOdd (h : sl.WriterInv seq₀ k version s)
    (ht : s.locals t = .writeOdd vals v) :
    sl.WriterInv seq₀ k version
      ((s.setMem (Function.update s.mem sl.seqAddr (v + 1))).setLocal t
        (sl.writeLoop vals v 0)) := by
  have hok := h.writer t
  rw [ht] at hok
  obtain ⟨hlen, rfl⟩ := hok
  refine WriterInv.setWriter (h.others (by rw [ht]; rfl)) ?_ ?_ ?_
  · exact writerOk_writeLoop hlen (Function.update_self _ _ _) (Nat.zero_le _)
      fun j hj => absurd hj (Nat.not_lt_zero j)
  · simp [active_writeLoop]
  · simp [active_writeLoop]

/-- The writer writes data word `i`. -/
theorem WriterInv.writeWord (h : sl.WriterInv seq₀ k version s)
    (ht : s.locals t = .writeWord vals v i) :
    sl.WriterInv seq₀ k version
      ((s.setMem (Function.update s.mem (sl.dataAddr i) (vals.getD i 0))).setLocal t
        (sl.writeLoop vals v (i + 1))) := by
  have hok := h.writer t
  rw [ht] at hok
  obtain ⟨hlen, rfl, hseq, hi, hdone⟩ := hok
  refine WriterInv.setWriter (h.others (by rw [ht]; rfl)) ?_ ?_ ?_
  · refine writerOk_writeLoop hlen ?_ hi ?_
    · exact (Function.update_of_ne (sl.outside i hi) _ _).trans hseq
    · intro j hj
      simp only [ThreadState.setMem_mem]
      by_cases hji : j = i
      · subst hji
        exact Function.update_self _ _ _
      · have hne : sl.dataAddr j ≠ sl.dataAddr i := by
          rw [Ne, dataAddr_inj (by omega) hi]
          exact hji
        rw [Function.update_of_ne hne]
        exact hdone j (by omega)
  · simp [active_writeLoop]
  · simp [active_writeLoop]

/-- The writer makes the sequence word even again: its write is complete. -/
theorem WriterInv.writeEven (h : sl.WriterInv seq₀ k version s)
    (ht : s.locals t = .writeEven vals v) :
    sl.WriterInv seq₀ (k + 1) (vals.take sl.nWords)
      ((s.setMem (Function.update s.mem sl.seqAddr (v + 2))).setLocal t .idle) := by
  have hok := h.writer t
  rw [ht] at hok
  obtain ⟨-, rfl, -, hdone⟩ := hok
  refine WriterInv.setWriter (h.others (by rw [ht]; rfl)) trivial ?_ ?_
  · intro _
    have hadd : BitVec.ofNat 32 (2 * (k + 1)) = BitVec.ofNat 32 (2 * k) + 2 := by
      rw [Nat.mul_add, ← BitVec.ofNat_add_ofNat]
      rfl
    rw [hadd, ← BitVec.add_assoc]
    exact Function.update_self _ _ _
  · intro _
    exact (words_update_seq s.mem _).trans hdone

end Seqlock

end MesiCoherence
