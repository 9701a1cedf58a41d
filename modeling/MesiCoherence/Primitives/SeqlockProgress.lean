import MesiCoherence.Lib.Progress
import MesiCoherence.Primitives.SeqlockSnapshot

/-!
# Readers of a seqlock get their snapshot

`read_retry` of `primitives/seqlock.hpp` calls `try_read` until it succeeds. It may fail as
long as writes go on. Once no further write is called, only the one in progress stands in
the way: it spoils a try that has begun, and the tries that begin before its end find the
sequence word odd.

## Main results

- `runInv_retry` — what `read_retry` returns is one version, as for `try_read`
- `readRetry_returns` — without further writes every `read_retry` returns
-/

namespace MesiCoherence

namespace SeqlockLocal

/-- Inside `try_read`. -/
def reading : SeqlockLocal → Bool
  | .readStart => true
  | .readWord _ _ => true
  | .readEnd _ _ => true
  | _ => false

theorem not_writing {l : SeqlockLocal} (h : l.reading = true) : l.writing = false := by
  cases l <;> first | rfl | cases h

/-- Whether `try_read` returns false after the access at a program point. -/
def fails : SeqlockLocal → Reply Word → Bool
  | .readStart, .value s1 => s1 &&& 1 = 1
  | .readEnd s1 _, .value s2 => s1 ≠ s2
  | _, _ => false

end SeqlockLocal

namespace Seqlock

variable {T : Type*}

/-- `write` and `read_retry`, where the command `tryRead` calls `read_retry`: a failed try is
    followed by the next one. -/
def retryCode [Fintype T] (sl : Seqlock) : ThreadCode T Word Word SeqlockOp SeqlockLocal where
  command := sl.code.command
  next := (sl.code (T := T)).next
  resume l r := if l.fails r then .readStart else (sl.code (T := T)).resume l r
  foreign := (sl.code (T := T)).foreign

-- ════════════════════════════════════════════════════════════════════════
-- What is returned
-- ════════════════════════════════════════════════════════════════════════

section Safety

variable {sl : Seqlock} {seq₀ : Word} {initial : List Word} {es : List (Event T)}
  {s s' : State T} {t : T} {l : SeqlockLocal} {m : Word → Word}

theorem ReaderOk.congr (h : sl.ReaderOk seq₀ initial es s t l) (hq : Quiet s' → Quiet s) :
    sl.ReaderOk seq₀ initial es s' t l := by
  have hsnap : ∀ s1 out, sl.Snapshot seq₀ initial es s t s1 out →
      sl.Snapshot seq₀ initial es s' t s1 out := by
    rintro s1 out ⟨pre, b, mid, rfl, hb, hmid, hs1, hout⟩
    exact ⟨pre, b, mid, rfl, hb, hmid, hs1, fun hnone hquiet => hout hnone (hq hquiet)⟩
  cases l with
  | readWord s1 out => exact ⟨h.1, hsnap s1 out h.2⟩
  | readEnd s1 out => exact ⟨h.1, hsnap s1 out h.2⟩
  | _ => exact trivial

variable [DecidableEq T]

/-- The next try begins. -/
theorem RunInv.again (h : sl.RunInv seq₀ initial es s) (ht : s.locals t = .idle) :
    sl.RunInv seq₀ initial es (s.setLocal t .readStart) := by
  have hidle : (s.locals t).writing = false := by rw [ht]; rfl
  refine ⟨h.writer.setReader hidle rfl, ?_, h.ends⟩
  refine ThreadState.forall_setLocal (P := fun u l => sl.ReaderOk seq₀ initial es
    (s.setLocal t .readStart) u l) trivial fun u _ => ?_
  exact (h.reader u).congr (quiet_of_setLocal fun _ => SeqlockLocal.not_active hidle)

omit [DecidableEq T] in
/-- A try that fails is over. -/
theorem resume_of_fails [Fintype T] {r : Reply Word} (h : l.fails r = true) :
    (sl.code (T := T)).resume l r = .idle := by
  cases l with
  | readStart =>
    cases r with
    | value s1 => exact if_pos (of_decide_eq_true h)
    | _ => cases h
  | readEnd s1 out => rfl
  | _ => cases h

section Resume

variable [Fintype T] {v s1 : Word} {out : List Word}

omit [DecidableEq T]

theorem retry_of_not_fails {r : Reply Word} (h : l.fails r = false) :
    (sl.retryCode (T := T)).resume l r = (sl.code (T := T)).resume l r :=
  if_neg (Bool.eq_false_iff.mp h)

theorem retry_readStart_odd (h : v &&& 1 = 1) :
    (sl.retryCode (T := T)).resume .readStart (.value v) = .readStart :=
  if_pos (decide_eq_true h)

theorem retry_readStart_even (h : ¬ v &&& 1 = 1) :
    (sl.retryCode (T := T)).resume .readStart (.value v) = sl.readLoop v [] := by
  have hgoes : SeqlockLocal.readStart.fails (.value v) = false := decide_eq_false h
  rw [retry_of_not_fails hgoes]
  exact if_neg h

theorem retry_readEnd_same :
    (sl.retryCode (T := T)).resume (.readEnd v out) (.value v) = .idle :=
  retry_of_not_fails (decide_eq_false fun hne => hne rfl)

theorem retry_readEnd_ne (h : s1 ≠ v) :
    (sl.retryCode (T := T)).resume (.readEnd s1 out) (.value v) = .readStart :=
  if_pos (decide_eq_true h)

end Resume

theorem RunInv.retryAccess [Fintype T] (h : sl.RunInv seq₀ (sl.words m) es s)
    (heven : seq₀ &&& 1 = 0) {acc : Access Word Word}
    (hnext : (sl.retryCode (T := T)).next (s.locals t) = some acc) :
    sl.RunInv seq₀ (sl.words m) (es ++ [.accessed t (s.locals t) acc (acc.exec s.mem).2])
      ((s.setMem (acc.exec s.mem).1).setLocal t
        ((sl.retryCode (T := T)).resume (s.locals t) (acc.exec s.mem).2)) := by
  have htry := h.access heven hnext
  show sl.RunInv seq₀ (sl.words m) _ ((s.setMem (acc.exec s.mem).1).setLocal t
    (if (s.locals t).fails (acc.exec s.mem).2 then .readStart else
      (sl.code (T := T)).resume (s.locals t) (acc.exec s.mem).2))
  split
  · next hfail =>
    rw [resume_of_fails hfail] at htry
    have hagain := htry.again (ThreadState.setLocal_self _ t _)
    rwa [ThreadState.setLocal_setLocal] at hagain
  · exact htry

/-- The invariant of the seqlock along every run of `write` and `read_retry`. -/
theorem runInv_retry [Fintype T] (sl : Seqlock) {m : Word → Word}
    (heven : m sl.seqAddr &&& 1 = 0) (acts : List (ThreadAction T SeqlockOp Word Word)) :
    sl.RunInv (m sl.seqAddr) (sl.words m) (sl.retryCode.trace .flat (.start m .idle) acts)
      (sl.retryCode.run .flat (.start m .idle) acts) := by
  refine sl.retryCode.trace_invariant (P := sl.RunInv (m sl.seqAddr) (sl.words m)) ?_ ?_ ?_ ?_ acts
  · exact sl.runInv heven []
  · exact fun _ _ _ _ _ h => h.command
  · exact fun _ _ _ _ h => h.retryAccess heven
  · intro es s t acc h hf
    obtain ⟨hseq, hdata⟩ := Bool.and_eq_true_iff.mp hf
    refine h.other acc _ (Access.exec_apply_of_keeps hseq s.mem) fun i hi => ?_
    exact Access.exec_apply_of_keeps (List.all_eq_true.mp hdata i (List.mem_range.mpr hi)) s.mem

end Safety

-- ════════════════════════════════════════════════════════════════════════
-- Progress
-- ════════════════════════════════════════════════════════════════════════

/-- What is left of a write: its accesses, and a further try for each change of the sequence
    word that is still to come. -/
def writeLeft (sl : Seqlock) : SeqlockLocal → ℕ
  | .writeStart _ => sl.nWords + 3 + 2 * (sl.nWords + 2)
  | .writeOdd _ _ => sl.nWords + 2 + 2 * (sl.nWords + 2)
  | .writeWord _ _ i => sl.nWords - i + 1 + (sl.nWords + 2)
  | .writeEven _ _ => 1 + (sl.nWords + 2)
  | _ => 0

/-- What is left of a `read_retry` when the sequence word is `seq`: a try that saw another
    value is in vain. -/
def readLeft (sl : Seqlock) (seq : Word) : SeqlockLocal → ℕ
  | .readStart => sl.nWords + 2
  | .readWord s1 out => sl.nWords - out.length + 1 + if s1 = seq then 0 else sl.nWords + 2
  | .readEnd s1 _ => 1 + if s1 = seq then 0 else sl.nWords + 2
  | _ => 0

/-- What a `read_retry` of `t` waits for. -/
def delay [Fintype T] (sl : Seqlock) (t : T) (s : State T) : ℕ :=
  if (s.locals t).reading then s.work sl.writeLeft + sl.readLeft (s.mem sl.seqAddr) (s.locals t)
  else 0

/-- The access of `u` brings the `read_retry` of `t` nearer to its end. It does not if it is
    the first read of a try and a write is in progress. -/
def Helps (sl : Seqlock) (t : T) (s : State T) (u : T) : Prop :=
  (s.locals u).writing = true ∨
    u = t ∧ ¬ (s.locals t = .readStart ∧ s.mem sl.seqAddr &&& 1 = 1)

/-- A step after which a reader waits for the same, and nobody has ceased to help. -/
def Spares [Fintype T] (sl : Seqlock) (t : T) (s s' : State T) : Prop :=
  sl.delay t s' = sl.delay t s ∧ ∀ u, sl.Helps t s u → sl.Helps t s' u

section Progress

variable {sl : Seqlock} {seq₀ : Word} {initial : List Word} {es : List (Event T)}
  {s s' : State T} {t u : T} {l : SeqlockLocal} {m : Word → Word} {v w : Word}

theorem writeLeft_of_not_writing (h : l.writing = false) : sl.writeLeft l = 0 := by
  cases l <;> first | rfl | cases h

theorem writeLeft_le (l : SeqlockLocal) : sl.writeLeft l ≤ 3 * sl.nWords + 7 := by
  cases l <;> simp only [writeLeft] <;> omega

theorem readLeft_le (sl : Seqlock) (v : Word) (l : SeqlockLocal) :
    sl.readLeft v l ≤ 2 * sl.nWords + 3 := by
  cases l <;> simp only [readLeft] <;> (try split) <;> omega

/-- A change of the sequence word costs a try at most. -/
theorem readLeft_le_add (sl : Seqlock) (v w : Word) (l : SeqlockLocal) :
    sl.readLeft w l ≤ sl.readLeft v l + (sl.nWords + 2) := by
  cases l with
  | readWord s1 out =>
    simp only [readLeft]
    split <;> split <;> omega
  | readEnd s1 out =>
    simp only [readLeft]
    split <;> split <;> omega
  | _ => exact Nat.le_add_right _ _

theorem readLeft_pos (sl : Seqlock) (v : Word) (h : l.reading = true) : 0 < sl.readLeft v l := by
  cases l with
  | readStart => exact Nat.succ_pos _
  | readWord s1 out =>
    simp only [readLeft]
    omega
  | readEnd s1 out =>
    simp only [readLeft]
    omega
  | _ => cases h

theorem writeLeft_writeLoop (vals : List Word) (x : Word) {i : ℕ} (hi : i ≤ sl.nWords) :
    sl.writeLeft (sl.writeLoop vals x i) = sl.nWords - i + 1 + (sl.nWords + 2) := by
  rw [writeLoop]
  split
  · rfl
  · simp only [writeLeft]
    omega

theorem readLeft_readLoop (s1 : Word) {out : List Word} (hout : out.length ≤ sl.nWords) :
    sl.readLeft v (sl.readLoop s1 out) =
      sl.nWords - out.length + 1 + if s1 = v then 0 else sl.nWords + 2 := by
  rw [readLoop]
  split
  · rfl
  · simp only [readLeft]
    omega

variable [Fintype T] {acc : Access Word Word}

/-- An access of the writer leaves less, even for a reader whose try it spoils. -/
theorem writeAccess_lt (hok : sl.WriterOk v m l) (hl : l.writing = true)
    (hnext : (sl.retryCode (T := T)).next l = some acc) (k : SeqlockLocal) :
    sl.writeLeft ((sl.retryCode (T := T)).resume l (acc.exec m).2) +
        sl.readLeft ((acc.exec m).1 sl.seqAddr) k <
      sl.writeLeft l + sl.readLeft (m sl.seqAddr) k := by
  have hspoil := sl.readLeft_le_add (m sl.seqAddr) ((acc.exec m).1 sl.seqAddr) k
  cases l with
  | writeStart vals =>
    obtain rfl := Option.some.inj hnext
    rw [Access.exec_read]
    show sl.writeLeft (.writeOdd vals (m sl.seqAddr)) + _ < _
    simp only [writeLeft]
    omega
  | writeOdd vals x =>
    show sl.writeLeft (sl.writeLoop vals x 0) + _ < _
    rw [writeLeft_writeLoop vals x (Nat.zero_le _)]
    simp only [writeLeft]
    omega
  | writeWord vals x i =>
    obtain rfl := Option.some.inj hnext
    obtain ⟨-, -, -, hi, -⟩ := hok
    have hseq : (Access.exec m (.write (sl.dataAddr i) (vals.getD i 0))).1 sl.seqAddr =
        m sl.seqAddr := Function.update_of_ne (sl.outside i hi) _ _
    show sl.writeLeft (sl.writeLoop vals x (i + 1)) + _ < _
    rw [hseq, writeLeft_writeLoop vals x hi]
    simp only [writeLeft]
    omega
  | writeEven vals x =>
    show sl.writeLeft .idle + _ < _
    simp only [writeLeft]
    omega
  | _ => cases hl

/-- An access of the reader leaves less, unless it finds a write in progress. -/
theorem readAccess_lt (hok : sl.ReaderOk seq₀ initial es s t l) (hl : l.reading = true)
    (hnext : (sl.retryCode (T := T)).next l = some acc)
    (hvain : ¬ (l = .readStart ∧ m sl.seqAddr &&& 1 = 1)) :
    sl.readLeft (m sl.seqAddr) ((sl.retryCode (T := T)).resume l (acc.exec m).2) <
      sl.readLeft (m sl.seqAddr) l := by
  cases l with
  | readStart =>
    obtain rfl := Option.some.inj hnext
    have heven : ¬ m sl.seqAddr &&& 1 = 1 := fun hodd => hvain ⟨rfl, hodd⟩
    rw [Access.exec_read, retry_readStart_even heven, readLeft_readLoop _ (Nat.zero_le _),
      if_pos rfl]
    exact Nat.lt_succ_self _
  | readWord s1 out =>
    obtain rfl := Option.some.inj hnext
    obtain ⟨hlen, -⟩ := hok
    rw [Access.exec_read]
    show sl.readLeft _ (sl.readLoop s1 (out ++ [m (sl.dataAddr out.length)])) < _
    rw [readLeft_readLoop s1 (by rw [List.length_append]; exact hlen), List.length_append,
      List.length_singleton]
    simp only [readLeft]
    omega
  | readEnd s1 out =>
    obtain rfl := Option.some.inj hnext
    rw [Access.exec_read]
    by_cases hsame : s1 = m sl.seqAddr
    · rw [hsame, retry_readEnd_same]
      exact sl.readLeft_pos _ rfl
    · rw [retry_readEnd_ne hsame]
      simp only [readLeft, if_neg hsame]
      omega
  | _ => cases hl

/-- Who does not write keeps memory, and does not begin to write. -/
theorem access_of_not_writing (hl : l.writing = false)
    (hnext : (sl.retryCode (T := T)).next l = some acc) :
    (acc.exec m).1 = m ∧ ((sl.retryCode (T := T)).resume l (acc.exec m).2).writing = false := by
  have hresume : ∀ r, ((sl.code (T := T)).resume l r).writing = false →
      ((sl.retryCode (T := T)).resume l r).writing = false := by
    intro r hr
    show (if l.fails r then .readStart else (sl.code (T := T)).resume l r).writing = false
    split
    · rfl
    · exact hr
  cases l with
  | idle => cases hnext
  | readStart =>
    obtain rfl := Option.some.inj hnext
    rw [Access.exec_read]
    refine ⟨rfl, hresume _ ?_⟩
    show (if m sl.seqAddr &&& 1 = 1 then .idle else sl.readLoop (m sl.seqAddr) []).writing = false
    split
    · rfl
    · exact writing_readLoop _ _
  | readWord s1 out =>
    obtain rfl := Option.some.inj hnext
    rw [Access.exec_read]
    exact ⟨rfl, hresume _ (writing_readLoop _ _)⟩
  | readEnd s1 out =>
    obtain rfl := Option.some.inj hnext
    rw [Access.exec_read]
    exact ⟨rfl, hresume _ rfl⟩
  | _ => cases hl

theorem delay_of_reading (h : (s.locals t).reading = true) :
    sl.delay t s = s.work sl.writeLeft + sl.readLeft (s.mem sl.seqAddr) (s.locals t) := if_pos h

theorem delay_le (sl : Seqlock) (t : T) (s : State T) :
    sl.delay t s ≤ s.work sl.writeLeft + sl.readLeft (s.mem sl.seqAddr) (s.locals t) := by
  rw [delay]
  split
  · exact le_rfl
  · exact Nat.zero_le _

theorem delay_eq_zero_iff : sl.delay t s = 0 ↔ (s.locals t).reading = false := by
  constructor
  · intro hzero
    refine eq_false_of_ne_true fun hread => ?_
    have hpos := sl.readLeft_pos (s.mem sl.seqAddr) hread
    rw [delay_of_reading hread] at hzero
    omega
  · exact fun hread => if_neg (Bool.eq_false_iff.mp hread)

/-- There is one writer at most. -/
theorem RunInv.work_le (h : sl.RunInv seq₀ initial es s) :
    s.work sl.writeLeft ≤ 3 * sl.nWords + 7 := by
  by_cases hw : ∃ u, (s.locals u).writing = true
  · obtain ⟨u, hu⟩ := hw
    have hone : s.work sl.writeLeft = sl.writeLeft (s.locals u) :=
      Finset.sum_eq_single u
        (fun v _ hv => writeLeft_of_not_writing (h.writer.others hu v hv))
        fun hnot => absurd (Finset.mem_univ u) hnot
    rw [hone]
    exact writeLeft_le _
  · have hnone : s.work sl.writeLeft = 0 := ThreadState.work_eq_zero_iff.mpr fun u =>
      writeLeft_of_not_writing (eq_false_of_ne_true fun hu => hw ⟨u, hu⟩)
    omega

theorem RunInv.delay_le (h : sl.RunInv seq₀ initial es s) :
    sl.delay t s ≤ 5 * sl.nWords + 10 := by
  have hwork := h.work_le
  have hread := sl.readLeft_le (s.mem sl.seqAddr) (s.locals t)
  have hdelay := sl.delay_le t s
  omega

omit [Fintype T] in
/-- Somebody can always help: if the sequence word is odd, a writer. -/
theorem RunInv.exists_helps (h : sl.RunInv seq₀ initial es s) (heven : seq₀ &&& 1 = 0) :
    ∃ u, sl.Helps t s u := by
  by_cases hvain : s.locals t = .readStart ∧ s.mem sl.seqAddr &&& 1 = 1
  · by_cases hquiet : Quiet s
    · have hodd := (and_one_eq_one_iff _).mp hvain.2
      have hzero := (and_one_eq_zero_iff _).mp heven
      rw [h.writer.seq hquiet, toNat_seq] at hodd
      omega
    · obtain ⟨u, hu⟩ := not_forall.mp hquiet
      exact ⟨u, Or.inl (SeqlockLocal.writing_of_active (Bool.eq_true_of_not_eq_false hu))⟩
  · exact ⟨t, Or.inr ⟨rfl, hvain⟩⟩

variable [DecidableEq T]

omit [DecidableEq T] in
theorem Spares.refl (sl : Seqlock) (t : T) (s : State T) : sl.Spares t s s :=
  ⟨rfl, fun _ h => h⟩

/-- Whoever does not write is of no concern to another reader. -/
theorem spares_setLocal (hut : u ≠ t) (hu : (s.locals u).writing = false)
    (hl : l.writing = false) : sl.Spares t s (s.setLocal u l) := by
  have ht : (s.setLocal u l).locals t = s.locals t := ThreadState.setLocal_of_ne s (Ne.symm hut) l
  have hwork : (s.setLocal u l).work sl.writeLeft = s.work sl.writeLeft := by
    have hsum := ThreadState.work_setLocal sl.writeLeft s u l
    rw [writeLeft_of_not_writing hu, writeLeft_of_not_writing hl] at hsum
    exact hsum
  refine ⟨?_, fun v hv => ?_⟩
  · rw [delay, delay, ht, hwork, ThreadState.setLocal_mem]
  · refine hv.imp (fun hw => ?_) fun ⟨hvt, hvain⟩ => ⟨hvt, ?_⟩
    · have hvu : v ≠ u := by
        rintro rfl
        rw [hu] at hw
        cases hw
      rw [ThreadState.setLocal_of_ne s hvu]
      exact hw
    · rw [ht, ThreadState.setLocal_mem]
      exact hvain

omit [DecidableEq T] in
/-- So is other code. -/
theorem spares_setMem (hm : m sl.seqAddr = s.mem sl.seqAddr) : sl.Spares t s (s.setMem m) := by
  refine ⟨?_, fun v hv => ?_⟩
  · show (if (s.locals t).reading then
        s.work sl.writeLeft + sl.readLeft (m sl.seqAddr) (s.locals t) else 0) = sl.delay t s
    rw [hm]
    rfl
  · rw [Helps, ThreadState.setMem_mem, hm]
    exact hv

/-- A step of one thread that leaves less to the writer and the reader together. -/
theorem delay_setLocal_lt (ht : (s.locals t).reading = true)
    (hless : sl.writeLeft l + sl.readLeft (m sl.seqAddr) (((s.setMem m).setLocal u l).locals t) <
      sl.writeLeft (s.locals u) + sl.readLeft (s.mem sl.seqAddr) (s.locals t)) :
    sl.delay t ((s.setMem m).setLocal u l) < sl.delay t s := by
  have hsum := ThreadState.work_setLocal sl.writeLeft (s.setMem m) u l
  have hmem : (s.setMem m).work sl.writeLeft = s.work sl.writeLeft := rfl
  refine (sl.delay_le t _).trans_lt ?_
  rw [delay_of_reading ht, ThreadState.setLocal_mem, ThreadState.setMem_mem]
  rw [ThreadState.setMem_locals] at hsum
  omega

/-- An access of the writer shortens the delay of a reader. -/
theorem RunInv.write_delay_lt (h : sl.RunInv seq₀ initial es s) (ht : (s.locals t).reading = true)
    (hu : (s.locals u).writing = true)
    (hnext : (sl.retryCode (T := T)).next (s.locals u) = some acc) :
    sl.delay t ((s.setMem (acc.exec s.mem).1).setLocal u
      ((sl.retryCode (T := T)).resume (s.locals u) (acc.exec s.mem).2)) < sl.delay t s := by
  have htu : t ≠ u := by
    rintro rfl
    rw [SeqlockLocal.not_writing ht] at hu
    cases hu
  refine delay_setLocal_lt ht ?_
  rw [ThreadState.setLocal_of_ne _ htu, ThreadState.setMem_locals]
  exact writeAccess_lt (h.writer.writer u) hu hnext (s.locals t)

/-- An access of the reader shortens its delay, unless it finds a write in progress. -/
theorem RunInv.read_delay_lt (h : sl.RunInv seq₀ initial es s) (ht : (s.locals t).reading = true)
    (hvain : ¬ (s.locals t = .readStart ∧ s.mem sl.seqAddr &&& 1 = 1))
    (hnext : (sl.retryCode (T := T)).next (s.locals t) = some acc) :
    sl.delay t ((s.setMem (acc.exec s.mem).1).setLocal t
      ((sl.retryCode (T := T)).resume (s.locals t) (acc.exec s.mem).2)) < sl.delay t s := by
  have hw := SeqlockLocal.not_writing ht
  obtain ⟨hkeep, hw'⟩ := access_of_not_writing (m := s.mem) hw hnext
  refine delay_setLocal_lt ht ?_
  rw [ThreadState.setLocal_self, writeLeft_of_not_writing hw, writeLeft_of_not_writing hw', hkeep]
  exact Nat.add_lt_add_left (readAccess_lt (h.reader t) ht hnext hvain) 0

/-- The access of whoever helps shortens the delay. -/
theorem RunInv.helps_delay_lt (h : sl.RunInv seq₀ initial es s)
    (ht : (s.locals t).reading = true) (hu : sl.Helps t s u) :
    sl.delay t ((sl.retryCode.machine .flat).step s (.access u)).1 < sl.delay t s := by
  obtain ⟨acc, hnext⟩ : ∃ acc, (sl.retryCode (T := T)).next (s.locals u) = some acc := by
    have hbusy : s.locals u ≠ .idle := by
      intro hidle
      rcases hu with hw | ⟨rfl, -⟩
      · rw [hidle] at hw
        cases hw
      · rw [hidle] at ht
        cases ht
    cases hl : s.locals u with
    | idle => exact absurd hl hbusy
    | _ => exact ⟨_, rfl⟩
  rw [ThreadCode.step_access hnext]
  rcases hu with hw | ⟨rfl, hvain⟩
  · exact h.write_delay_lt ht hw hnext
  · exact h.read_delay_lt ht hvain hnext

/-- The access of whoever does not help changes nothing for the reader. -/
theorem spares_access (ht : (s.locals t).reading = true) (hu : ¬ sl.Helps t s u)
    (hnext : (sl.retryCode (T := T)).next (s.locals u) = some acc) :
    sl.Spares t s ((s.setMem (acc.exec s.mem).1).setLocal u
      ((sl.retryCode (T := T)).resume (s.locals u) (acc.exec s.mem).2)) := by
  obtain ⟨hread, hvain⟩ := not_or.mp hu
  have hw : (s.locals u).writing = false := eq_false_of_ne_true hread
  obtain ⟨hkeep, hw'⟩ := access_of_not_writing (m := s.mem) hw hnext
  rw [hkeep]
  by_cases hut : u = t
  · -- its first read finds a write in progress, and the next try begins
    subst hut
    obtain ⟨hstart, hodd⟩ := Classical.not_not.mp (not_and.mp hvain rfl)
    have hacc : acc = .read sl.seqAddr := by
      rw [hstart] at hnext
      exact (Option.some.inj hnext).symm
    have hresume : (sl.retryCode (T := T)).resume (s.locals u) (acc.exec s.mem).2 =
        s.locals u := by
      rw [hacc, Access.exec_read, hstart]
      exact retry_readStart_odd hodd
    rw [hresume]
    show sl.Spares u s (s.setLocal u (s.locals u))
    rw [ThreadState.setLocal_eq_self]
    exact .refl sl u s
  · exact spares_setLocal hut hw hw'

/-- One step without a call of `write` shortens the delay of a reader, or keeps it and
    everybody who helps. -/
theorem RunInv.step_delay (h : sl.RunInv seq₀ initial es s) (ht : (s.locals t).reading = true)
    {act : ThreadAction T SeqlockOp Word Word} (hact : ∀ u vals, act ≠ .command u (.write vals)) :
    let s' := ((sl.retryCode.machine .flat).step s act).1
    sl.delay t s' < sl.delay t s ∨
      sl.Spares t s s' ∧ ∀ u, sl.Helps t s u → act ≠ .access u := by
  intro s'
  cases act with
  | command u op =>
    refine Or.inr ⟨?_, fun _ _ he => by cases he⟩
    cases op with
    | write vals => exact absurd rfl (hact u vals)
    | tryRead =>
      by_cases hidle : s.locals u = .idle
      · have hs' : s' = s.setLocal u .readStart := by
          simp [s', ThreadCode.machine, ThreadCode.step, retryCode, code, hidle]
        have hut : u ≠ t := by
          rintro rfl
          rw [hidle] at ht
          cases ht
        rw [hs']
        exact spares_setLocal hut (by rw [hidle]; rfl) rfl
      · have hs' : s' = s := by
          simp [s', ThreadCode.machine, ThreadCode.step, retryCode, code, hidle]
        rw [hs']
        exact .refl sl t s
  | access u =>
    by_cases hu : sl.Helps t s u
    · exact Or.inl (h.helps_delay_lt ht hu)
    refine Or.inr ⟨?_, ?_⟩
    · cases hnext : (sl.retryCode (T := T)).next (s.locals u) with
      | none =>
        have hs' : s' = s := by simp [s', ThreadCode.machine, ThreadCode.step, hnext]
        rw [hs']
        exact .refl sl t s
      | some acc =>
        have hs' : s' = _ := ThreadCode.step_access hnext
        rw [hs']
        exact spares_access ht hu hnext
    · rintro v hv ⟨⟩
      exact hu hv
  | other u acc =>
    refine Or.inr ⟨?_, fun _ _ he => by cases he⟩
    have hsched : (.other u acc : ThreadAction T SeqlockOp Word Word).Schedule := trivial
    rcases ThreadCode.step_schedule sl.retryCode s hsched with
      ⟨v, acc', heq, -⟩ | ⟨v, acc', heq, hf, hother⟩ | hstay
    · cases heq
    · have hs' : s' = s.setMem (acc'.exec s.mem).1 := hother
      rw [hs']
      exact spares_setMem (Access.exec_apply_of_keeps (Bool.and_eq_true_iff.mp hf).1 s.mem)
    · have hs' : s' = s := hstay
      rw [hs']
      exact .refl sl t s

/-- What a `read_retry` waits for when no further write is called. -/
theorem progress {m : Word → Word} (heven : m sl.seqAddr &&& 1 = 0) (t : T) :
    ((sl.retryCode (T := T)).machine .flat).Progress
      ((sl.retryCode (T := T)).Reached (.start m .idle))
      (fun act => ∀ u vals, act ≠ .command u (.write vals)) ThreadAction.IsAccess (sl.delay t)
      (fun s act => ∃ u, act = .access u ∧ sl.Helps t s u) := by
  have hinv : ∀ s, (sl.retryCode (T := T)).Reached (.start m .idle) s →
      ∃ es, sl.RunInv (m sl.seqAddr) (sl.words m) es s := by
    rintro _ ⟨acts, rfl⟩
    exact ⟨_, sl.runInv_retry heven acts⟩
  refine .of_step (fun s act hs _ => hs.step act) (fun s hs _ => ?_) ?_ fun s act hs hpos hact => ?_
  · obtain ⟨es, h⟩ := hinv s hs
    obtain ⟨u, hu⟩ := h.exists_helps (t := t) heven
    exact ⟨.access u, ⟨u, rfl⟩, u, rfl, hu⟩
  · rintro s _ ⟨u, rfl, -⟩
    exact fun _ _ he => by cases he
  · obtain ⟨es, h⟩ := hinv s hs
    have ht : (s.locals t).reading = true := by
      by_contra hread
      exact hpos.ne' (delay_eq_zero_iff.mpr (eq_false_of_ne_true hread))
    rcases h.step_delay ht hact with hless | ⟨hspares, hnot⟩
    · exact Or.inl hless
    · refine Or.inr ⟨hspares.1.le, ?_⟩
      rintro _ ⟨u, rfl, hu⟩
      exact ⟨⟨u, rfl, hspares.2 u hu⟩, hnot u hu⟩

omit [DecidableEq T] in
theorem idle_of_command {locals : T → SeqlockLocal} {op : SeqlockOp}
    (h : sl.retryCode.command locals t op = some l) : locals t = .idle := by
  cases op with
  | write vals =>
    simp only [retryCode, code] at h
    split at h
    · next hcall => exact hcall.1
    · cases h
  | tryRead =>
    simp only [retryCode, code] at h
    split at h
    · next hidle => exact hidle
    · cases h

/-- Who is reading goes on by its own accesses only. -/
theorem locals_of_ne_access (sl : Seqlock) (ht : (s.locals t).reading = true)
    {act : ThreadAction T SeqlockOp Word Word} (hact : act ≠ .access t) :
    ((sl.retryCode.machine .flat).step s act).1.locals t = s.locals t := by
  cases act with
  | command u op =>
    show (sl.retryCode.step .flat s (.command u op)).1.locals t = _
    unfold ThreadCode.step
    dsimp only
    split
    · next l hl =>
      refine ThreadState.setLocal_of_ne s ?_ l
      rintro rfl
      have hidle := idle_of_command hl
      rw [hidle] at ht
      cases ht
    · rfl
  | access u =>
    have htu : t ≠ u := fun h => hact (h ▸ rfl)
    have hsched : (.access u : ThreadAction T SeqlockOp Word Word).Schedule := trivial
    rcases ThreadCode.step_schedule sl.retryCode s hsched with
      ⟨v, acc, heq, hnext⟩ | ⟨v, acc, heq, -⟩ | hstay
    · cases heq
      rw [ThreadCode.step_access hnext, ThreadState.setLocal_of_ne _ htu]
      rfl
    · cases heq
    · rw [hstay]
  | other u acc =>
    have hsched : (.other u acc : ThreadAction T SeqlockOp Word Word).Schedule := trivial
    rcases ThreadCode.step_schedule sl.retryCode s hsched with
      ⟨v, acc', heq, -⟩ | ⟨v, acc', -, -, hother⟩ | hstay
    · cases heq
    · rw [hother]
      rfl
    · rw [hstay]

theorem reading_readLoop (s1 : Word) (out : List Word) : (sl.readLoop s1 out).reading = true := by
  rw [readLoop]
  split <;> rfl

/-- A `read_retry` ends with a try that succeeds. -/
theorem returns_of_leaves (ht : (s.locals t).reading = true)
    (hleft : (((sl.retryCode.machine .flat).step s (.access t)).1.locals t).reading = false) :
    ∃ e out, (sl.retryCode.step .flat s (.access t)).2 = [e] ∧ succeeds e = some (t, out) ∧
      ((sl.retryCode.machine .flat).step s (.access t)).1.locals t = .idle := by
  have hstep : ∀ acc, (sl.retryCode (T := T)).next (s.locals t) = some acc →
      ((sl.retryCode.machine .flat).step s (.access t)).1.locals t =
        (sl.retryCode (T := T)).resume (s.locals t) (acc.exec s.mem).2 := by
    intro acc hnext
    rw [ThreadCode.step_access hnext, ThreadState.setLocal_self]
  cases hl : s.locals t with
  | readStart =>
    exfalso
    rw [hstep (.read sl.seqAddr) (by rw [hl]; rfl), hl, Access.exec_read] at hleft
    by_cases hodd : s.mem sl.seqAddr &&& 1 = 1
    · rw [retry_readStart_odd hodd] at hleft
      cases hleft
    · rw [retry_readStart_even hodd, reading_readLoop] at hleft
      cases hleft
  | readWord s1 out =>
    rw [hstep (.read (sl.dataAddr out.length)) (by rw [hl]; rfl), hl] at hleft
    exact absurd ((reading_readLoop s1 _).symm.trans hleft) Bool.noConfusion
  | readEnd s1 out =>
    have hnext : (sl.retryCode (T := T)).next (s.locals t) = some (.read sl.seqAddr) := by
      rw [hl]
      rfl
    rw [hstep _ hnext, hl, Access.exec_read] at hleft ⊢
    by_cases hsame : s1 = s.mem sl.seqAddr
    · refine ⟨_, out, by rw [ThreadCode.step_access_flat hnext, hl, Access.exec_read], ?_, ?_⟩
      · exact if_pos hsame
      · rw [hsame, retry_readEnd_same]
    · rw [retry_readEnd_ne hsame] at hleft
      cases hleft
  | _ =>
    rw [hl] at ht
    cases ht

/-- **Readers get their snapshot.** Threads on any cores of the system call `write` and
    `read_retry`, in any interleaving with each other and with other code that does not write
    the words of the seqlock; writes do not overlap, and the sequence word starts even. If
    a thread is in `read_retry` and no further `write` is called, then in whatever else
    happens, further reads included, it returns within `5 * nWords + 10` rounds each of
    which has an access of every thread, however many readers there are, and what it
    returns is one version. -/
theorem readRetry_returns {n : ℕ} (core : T → Fin n) (visits : ℕ → (c : Fin n) → VisitOrder c)
    (sl : Seqlock) (m : DutState n) (heven : m.flat sl.seqAddr &&& 1 = 0)
    (acts : List (ThreadAction T SeqlockOp Word Word))
    (rounds : List (List (ThreadAction T SeqlockOp Word Word))) (t : T) :
    let run := sl.retryCode.run (dut core visits) (.start m .idle)
    let trace := sl.retryCode.trace (dut core visits) (.start m .idle)
    ((run acts).locals t).reading = true →
    (∀ r ∈ rounds, ∀ u vals, .command u (.write vals) ∉ r) →
    (∀ r ∈ rounds, ∀ u, .access u ∈ r) →
    5 * sl.nWords + 10 ≤ rounds.length →
    ∃ pre e out, pre ++ [.access t] <+: rounds.flatten ∧
      trace (acts ++ pre ++ [.access t]) = trace (acts ++ pre) ++ [e] ∧
      succeeds e = some (t, out) ∧
      sl.OneVersion (sl.words m.flat) (trace (acts ++ pre)) t out ∧
      (run (acts ++ pre ++ [.access t])).locals t = .idle := by
  intro run trace hread hnowrite hfair hlen
  simp only [run, trace, dut_trace, dut_locals] at hread ⊢
  have hbound := (sl.runInv_retry heven acts).delay_le (t := t)
  obtain ⟨stop, hstop, hzero⟩ := (progress heven t).reaches_zero ⟨acts, rfl⟩ rounds
    (fun r hr act hact u vals he => hnowrite r hr u vals (he ▸ hact))
    (fun r hr act hact => by
      obtain ⟨u, rfl⟩ := hact
      exact hfair r hr u) (hbound.trans hlen)
  -- the first step after which the thread is not reading ends the call
  obtain ⟨pre, act, hpre, hbefore, hafter⟩ := Machine.exists_first
    ((sl.retryCode (T := T)).machine .flat) (P := fun s => (s.locals t).reading = false)
    (by rw [hread]; exact Bool.noConfusion) (delay_eq_zero_iff.mp hzero)
  rw [Machine.run_append] at hafter
  have hstill := Bool.eq_true_of_not_eq_false hbefore
  obtain rfl : act = .access t := by
    by_contra hne
    have hsame := congrArg SeqlockLocal.reading (sl.locals_of_ne_access hstill hne)
    exact hbefore (hsame.symm.trans hafter)
  obtain ⟨e, out, hev, hsucc, hidle⟩ := returns_of_leaves hstill hafter
  have hsplit : sl.retryCode.trace .flat (.start m.flat .idle) (acts ++ pre ++ [.access t]) =
      sl.retryCode.trace .flat (.start m.flat .idle) (acts ++ pre) ++ [e] := by
    rw [ThreadCode.trace_append _ _ _ (acts ++ pre), ThreadCode.run_append]
    exact congrArg _ ((List.append_nil _).trans hev)
  refine ⟨pre, e, out, hpre.trans hstop, hsplit, hsucc, ?_, ?_⟩
  · exact (sl.runInv_retry heven (acts ++ pre ++ [.access t])).ends _ e [] hsplit t out hsucc
  · rw [ThreadCode.run_append, ThreadCode.run_append]
    exact hidle

end Progress

/-- A reader calls `read_retry` while a write is in progress. -/
def readDuringWrite : List (ThreadAction Bool SeqlockOp Word Word) :=
  [.command true (.write [7]), .access true, .access true, .command false .tryRead, .access false]

theorem readDuringWrite_returns :
    let sl : Seqlock := ⟨0x400, 0x440, 1, by decide, by decide⟩
    let memory := dut (fun t : Bool => if t then (1 : Fin 2) else 0) fun _ i => .byIndex i
    ∃ pre e out, pre ++ [.access false] <+:
        (List.replicate 15 [.access true, .access false]).flatten ∧
      sl.retryCode.trace memory (.start (.new 2) .idle)
          (readDuringWrite ++ pre ++ [.access false]) =
        sl.retryCode.trace memory (.start (.new 2) .idle) (readDuringWrite ++ pre) ++ [e] ∧
      succeeds e = some (false, out) ∧
      sl.OneVersion (sl.words fun _ => 0)
        (sl.retryCode.trace memory (.start (.new 2) .idle) (readDuringWrite ++ pre)) false out ∧
      (sl.retryCode.run memory (.start (.new 2) .idle)
        (readDuringWrite ++ pre ++ [.access false])).locals false = .idle := by
  intro sl memory
  refine readRetry_returns (fun t : Bool => if t then (1 : Fin 2) else 0) (fun _ i => .byIndex i) sl
    (.new 2) (by decide) readDuringWrite (List.replicate 15 [.access true, .access false]) false
    (by decide +kernel) ?_ ?_ (by decide)
  · intro r hr u vals
    rw [List.eq_of_mem_replicate hr]
    simp
  · intro r hr u
    rw [List.eq_of_mem_replicate hr]
    cases u <;> simp

end Seqlock

end MesiCoherence
