import MesiCoherence.Primitives.Seqlock

/-!
# Snapshots of a seqlock

What a reader has copied since its first read of the sequence word. As long as no write
has completed since then and none is in progress, the copied words are those of the
version that was current at the first read. The second read tells this from the sequence
word alone: it is odd inside a write, and each completed write moves it by two.

## Main result

- `seqlock_reads_one_version` — a successful `try_read` returns one version
-/

namespace MesiCoherence

namespace Seqlock

variable {T : Type*}

/-- What threads of a seqlock do. -/
abbrev Event (T : Type*) := ThreadEvent T SeqlockOp Word Word SeqlockLocal

/-- The vector that a step makes the current version. -/
def completedBy (sl : Seqlock) : Event T → Option (List Word)
  | .accessed _ (.writeEven vals _) _ _ => some (vals.take sl.nWords)
  | _ => none

/-- The vectors of the completed writes. -/
def completedWrites (sl : Seqlock) (es : List (Event T)) : List (List Word) :=
  es.filterMap sl.completedBy

/-- A call that the callers may make: an idle thread reads, or writes enough values while no
    other thread does. -/
def callable [Fintype T] (sl : Seqlock) (locals : T → SeqlockLocal) (t : T) : SeqlockOp → Bool
  | .write vals => locals t = .idle ∧ sl.nWords ≤ vals.length ∧ ∀ u, (locals u).writing = false
  | .tryRead => locals t = .idle

/-- The vector that a call writes. -/
def vector? (sl : Seqlock) : SeqlockOp → Option (List Word)
  | .write vals => some (vals.take sl.nWords)
  | .tryRead => none

/-- The vector of a write in progress. -/
def pending (sl : Seqlock) : SeqlockLocal → Option (List Word)
  | .writeStart vals => some (vals.take sl.nWords)
  | .writeOdd vals _ => some (vals.take sl.nWords)
  | .writeWord vals _ _ => some (vals.take sl.nWords)
  | .writeEven vals _ => some (vals.take sl.nWords)
  | _ => none

theorem pending_writeLoop (sl : Seqlock) (vals : List Word) (s : Word) (i : ℕ) :
    sl.pending (sl.writeLoop vals s i) = some (vals.take sl.nWords) := by
  rw [writeLoop]
  split <;> rfl

theorem pending_readLoop (sl : Seqlock) (s1 : Word) (out : List Word) :
    sl.pending (sl.readLoop s1 out) = none := by
  rw [readLoop]
  split <;> rfl

/-- A `write` is in progress with its vector until its last access; a `try_read` writes
    nothing. -/
def agenda [Fintype T] (sl : Seqlock) : Agenda (sl.code (T := T)) (List Word) where
  ready := sl.callable
  work := sl.vector?
  done := sl.completedBy
  left := sl.pending
  command_ready := by
    intro locals t op
    cases op with
    | write vals =>
      simp only [code, callable]
      split <;> simp_all
    | tryRead =>
      simp only [code, callable]
      split <;> simp_all
  command_left := by
    intro locals t op l hcmd
    cases op with
    | write vals =>
      simp only [code] at hcmd
      split at hcmd
      · next hcall =>
        cases hcmd
        rw [hcall.1]
        exact ⟨rfl, rfl⟩
      · cases hcmd
    | tryRead =>
      simp only [code] at hcmd
      split at hcmd
      · next hidle =>
        cases hcmd
        rw [hidle]
        exact ⟨rfl, rfl⟩
      · cases hcmd
  access_left := by
    intro t l acc m hnext
    cases l with
    | idle => cases hnext
    | writeStart vals =>
      obtain rfl := Option.some.inj hnext
      rfl
    | writeOdd vals s => exact congrArg Option.toList (sl.pending_writeLoop vals s 0).symm
    | writeWord vals s i =>
      exact congrArg Option.toList (sl.pending_writeLoop vals s (i + 1)).symm
    | writeEven vals s => rfl
    | readStart =>
      obtain rfl := Option.some.inj hnext
      have hnone : sl.pending (if m sl.seqAddr &&& 1 = 1 then .idle
          else sl.readLoop (m sl.seqAddr) []) = none := by
        split
        · rfl
        · exact sl.pending_readLoop _ _
      exact congrArg Option.toList hnone.symm
    | readWord s1 out =>
      obtain rfl := Option.some.inj hnext
      exact congrArg Option.toList (sl.pending_readLoop s1 _).symm
    | readEnd s1 out => rfl

/-- The vectors that the callers give a thread to write, in order, are those of its completed
    writes, followed by that of the write in progress. -/
theorem given_eq_completedWrites [Fintype T] [DecidableEq T] (sl : Seqlock) {M : Type*}
    (memory : CoherentMemory T M Word Word) (m : M)
    (acts : List (ThreadAction T SeqlockOp Word Word)) (t : T) :
    (sl.code.given memory sl.callable t (.start m .idle) acts).filterMap sl.vector? =
      sl.completedWrites (accessedBy t (sl.code.trace memory (.start m .idle) acts)) ++
        (sl.pending ((sl.code.run memory (.start m .idle) acts).locals t)).toList :=
  sl.agenda.worked_off memory t (.start m .idle) rfl acts

/-- The vector of the last completed write, or the initial contents. -/
def version (sl : Seqlock) (initial : List Word) (es : List (Event T)) : List Word :=
  (sl.completedWrites es).getLast?.getD initial

/-- The first read of the sequence word in a `try_read`. -/
def beginsRead : Event T → Option T
  | .accessed t .readStart _ _ => some t
  | _ => none

/-- The second read of the sequence word in a `try_read` that returns true, and `out`. -/
def succeeds : Event T → Option (T × List Word)
  | .accessed t (.readEnd s1 out) _ (.value s2) => if s1 = s2 then some (t, out) else none
  | _ => none

section Version

variable {sl : Seqlock} {initial : List Word} {es mid : List (Event T)} {e : Event T}

theorem completedWrites_append :
    sl.completedWrites (es ++ mid) = sl.completedWrites es ++ sl.completedWrites mid :=
  List.filterMap_append

theorem completedWrites_concat_none (he : sl.completedBy e = none) :
    sl.completedWrites (es ++ [e]) = sl.completedWrites es := by
  simp [completedWrites, he]

theorem completedWrites_concat_some {vals : List Word} (he : sl.completedBy e = some vals) :
    sl.completedWrites (es ++ [e]) = sl.completedWrites es ++ [vals] := by
  simp [completedWrites, he]

theorem version_concat_none (he : sl.completedBy e = none) :
    sl.version initial (es ++ [e]) = sl.version initial es := by
  rw [version, completedWrites_concat_none he, version]

theorem version_concat_some {vals : List Word} (he : sl.completedBy e = some vals) :
    sl.version initial (es ++ [e]) = vals := by
  simp [version, completedWrites_concat_some he]

end Version

-- ════════════════════════════════════════════════════════════════════════
-- Parity of the sequence word
-- ════════════════════════════════════════════════════════════════════════

theorem and_one_eq_one_iff (w : Word) : w &&& 1 = 1 ↔ w.toNat % 2 = 1 := by
  have h1 : (1 : Word).toNat = 1 := rfl
  rw [← BitVec.toNat_inj, BitVec.toNat_and, h1, Nat.and_one_is_mod]

theorem and_one_eq_zero_iff (w : Word) : w &&& 1 = 0 ↔ w.toNat % 2 = 0 := by
  have h1 : (1 : Word).toNat = 1 := rfl
  have h0 : (0 : Word).toNat = 0 := rfl
  rw [← BitVec.toNat_inj, BitVec.toNat_and, h1, h0, Nat.and_one_is_mod]

/-- The sequence word after `k` writes, as a number. -/
theorem toNat_seq (w : Word) (k : ℕ) :
    (w + BitVec.ofNat 32 (2 * k)).toNat = (w.toNat + 2 * k) % 2 ^ 32 := by
  simp [BitVec.toNat_add]

theorem toNat_seq_add_one (w : Word) (k : ℕ) :
    (w + BitVec.ofNat 32 (2 * k) + 1).toNat = (w.toNat + 2 * k + 1) % 2 ^ 32 := by
  simp [BitVec.toNat_add]

/-- Inside a write the sequence word is odd. -/
theorem seq_add_one_odd {w : Word} (hw : w &&& 1 = 0) (k : ℕ) :
    (w + BitVec.ofNat 32 (2 * k) + 1) &&& 1 = 1 := by
  rw [and_one_eq_one_iff, toNat_seq_add_one]
  have := (and_one_eq_zero_iff w).mp hw
  omega

/-- Inside a write the sequence word differs from all values between writes. -/
theorem seq_add_one_ne (w : Word) (k j : ℕ) :
    w + BitVec.ofNat 32 (2 * k) + 1 ≠ w + BitVec.ofNat 32 (2 * j) := by
  rw [Ne, ← BitVec.toNat_inj, toNat_seq, toNat_seq_add_one]
  omega

/-- Fewer than 2^31 further writes are noticed. -/
theorem seq_inj {w : Word} {k d : ℕ} (hd : d < 2 ^ 31)
    (h : w + BitVec.ofNat 32 (2 * (k + d)) = w + BitVec.ofNat 32 (2 * k)) : d = 0 := by
  rw [← BitVec.toNat_inj, toNat_seq, toNat_seq] at h
  omega

-- ════════════════════════════════════════════════════════════════════════
-- Readers
-- ════════════════════════════════════════════════════════════════════════

section Readers

variable (sl : Seqlock) (seq₀ : Word) (initial : List Word)

/-- A `try_read` of `t` that first read `s1` has copied `out`; `mid` has happened since
    that read. Nothing is said about a copy that a write has overlapped. -/
def Snapshot (es : List (Event T)) (s : State T) (t : T) (s1 : Word) (out : List Word) : Prop :=
  ∃ pre e mid, es = pre ++ e :: mid ∧ beginsRead e = some t ∧ (∀ f ∈ mid, beginsRead f ≠ some t) ∧
    s1 = seq₀ + BitVec.ofNat 32 (2 * (sl.completedWrites pre).length) ∧
    (sl.completedWrites mid = [] → Quiet s → out = (sl.version initial pre).take out.length)

/-- What a program point of `try_read` says about the words copied so far. -/
def ReaderOk (es : List (Event T)) (s : State T) (t : T) : SeqlockLocal → Prop
  | .readWord s1 out => out.length < sl.nWords ∧ sl.Snapshot seq₀ initial es s t s1 out
  | .readEnd s1 out => out.length = sl.nWords ∧ sl.Snapshot seq₀ initial es s t s1 out
  | _ => True

/-- `out` is the version that was current at the last first read of `t`, if fewer than 2^31
    writes have completed since. -/
def OneVersion (es : List (Event T)) (t : T) (out : List Word) : Prop :=
  ∃ pre e mid, es = pre ++ e :: mid ∧ beginsRead e = some t ∧ (∀ f ∈ mid, beginsRead f ≠ some t) ∧
    ((sl.completedWrites mid).length < 2 ^ 31 → out = sl.version initial pre)

/-- The invariant of a run. -/
structure RunInv (es : List (Event T)) (s : State T) : Prop where
  writer : sl.WriterInv seq₀ (sl.completedWrites es).length (sl.version initial es) s
  reader : ∀ t, sl.ReaderOk seq₀ initial es s t (s.locals t)
  ends : EachAfter (fun pre e => ∀ t out, succeeds e = some (t, out) →
    sl.OneVersion initial pre t out) es

end Readers

variable {sl : Seqlock} {seq₀ : Word} {initial : List Word} {es : List (Event T)} {e : Event T}
  {s s' : State T} {t : T} {s1 v : Word} {out : List Word} {l : SeqlockLocal} {m : Word → Word}

theorem completedBy_of_beginsRead (he : beginsRead e = some t) : sl.completedBy e = none := by
  cases e with
  | accessed u l acc r => cases l <;> first | rfl | cases he
  | _ => rfl

/-- The version at a first read, if no write has completed since. -/
theorem version_of_quiet_mid {pre mid : List (Event T)} (he : beginsRead e = some t)
    (hmid : sl.completedWrites mid = []) :
    sl.version initial (pre ++ e :: mid) = sl.version initial pre := by
  have hcons : sl.completedWrites (e :: mid) = [] := by
    rw [← hmid]
    simp [completedWrites, completedBy_of_beginsRead he]
  rw [version, completedWrites_append, hcons, List.append_nil, version]

/-- The first read of the sequence word. -/
theorem Snapshot.begin (he : beginsRead e = some t)
    (hs1 : s1 = seq₀ + BitVec.ofNat 32 (2 * (sl.completedWrites es).length)) :
    sl.Snapshot seq₀ initial (es ++ [e]) s t s1 [] :=
  ⟨es, e, [], rfl, he, by simp, hs1, fun _ _ => rfl⟩

/-- Other steps keep what was copied, or complete a write. -/
theorem Snapshot.step (h : sl.Snapshot seq₀ initial es s t s1 out) (he : beginsRead e ≠ some t)
    (hq : sl.completedBy e = none → Quiet s' → Quiet s) :
    sl.Snapshot seq₀ initial (es ++ [e]) s' t s1 out := by
  obtain ⟨pre, b, mid, rfl, hb, hmid, hs1, hout⟩ := h
  refine ⟨pre, b, mid ++ [e], by simp, hb, ?_, hs1, ?_⟩
  · intro f hf
    rcases List.mem_append.mp hf with hf | hf
    · exact hmid f hf
    · rw [List.mem_singleton.mp hf]
      exact he
  · intro hnone hquiet
    cases hc : sl.completedBy e with
    | none =>
      rw [completedWrites_concat_none hc] at hnone
      exact hout hnone (hq hc hquiet)
    | some vals =>
      rw [completedWrites_concat_some hc] at hnone
      simp at hnone

/-- Copying the next word. -/
theorem Snapshot.copy (h : sl.Snapshot seq₀ initial es s t s1 out)
    (hv : Quiet s → (sl.version initial es)[out.length]? = some v) :
    sl.Snapshot seq₀ initial es s t s1 (out ++ [v]) := by
  obtain ⟨pre, b, mid, rfl, hb, hmid, hs1, hout⟩ := h
  refine ⟨pre, b, mid, rfl, hb, hmid, hs1, ?_⟩
  intro hnone hquiet
  have hnext := hv hquiet
  rw [version_of_quiet_mid hb hnone] at hnext
  rw [List.length_append, List.length_singleton, List.take_add_one, hnext, ← hout hnone hquiet]
  rfl

/-- A version has `nWords` words. -/
theorem version_take (m : Word → Word) (es : List (Event T)) :
    (sl.version (sl.words m) es).take sl.nWords = sl.version (sl.words m) es := by
  rw [version]
  cases hlast : (sl.completedWrites es).getLast? with
  | none =>
    apply List.take_of_length_le
    simp [words]
  | some vals =>
    obtain ⟨e, -, he⟩ := List.mem_filterMap.mp (List.mem_of_getLast? hlast)
    unfold completedBy at he
    split at he
    · cases he
      simp [List.take_take]
    · cases he

/-- The sequence word while a write is in progress. -/
theorem RunInv.seq_of_active (h : sl.RunInv seq₀ initial es s) {u : T}
    (hu : (s.locals u).active = true) :
    s.mem sl.seqAddr = seq₀ + BitVec.ofNat 32 (2 * (sl.completedWrites es).length) + 1 := by
  have hok := h.writer.writer u
  cases hl : s.locals u with
  | writeWord vals x i =>
    rw [hl] at hok
    exact hok.2.2.1
  | writeEven vals x =>
    rw [hl] at hok
    exact hok.2.2.1
  | _ =>
    rw [hl] at hu
    cases hu

/-- A second read that sees what the first read saw: the copy is one version. -/
theorem RunInv.finish (h : sl.RunInv seq₀ (sl.words m) es s)
    (hsnap : sl.Snapshot seq₀ (sl.words m) es s t (s.mem sl.seqAddr) out)
    (hlen : out.length = sl.nWords) : sl.OneVersion (sl.words m) es t out := by
  obtain ⟨pre, b, mid, rfl, hb, hmid, hs1, hout⟩ := hsnap
  have hquiet : Quiet s := by
    intro u
    refine Bool.eq_false_of_not_eq_true fun hu => ?_
    exact seq_add_one_ne _ _ _ ((h.seq_of_active hu).symm.trans hs1)
  refine ⟨pre, b, mid, rfl, hb, hmid, fun hbound => ?_⟩
  have hcount : (sl.completedWrites (pre ++ b :: mid)).length =
      (sl.completedWrites pre).length + (sl.completedWrites mid).length := by
    simp [completedWrites, completedBy_of_beginsRead hb]
  have hsame := (h.writer.seq hquiet).symm.trans hs1
  rw [hcount] at hsame
  have hnone := List.eq_nil_of_length_eq_zero (seq_inj hbound hsame)
  rw [hout hnone hquiet, hlen, version_take]

/-- What a reader has copied survives the steps of others. -/
theorem ReaderOk.step (h : sl.ReaderOk seq₀ initial es s t l) (he : beginsRead e ≠ some t)
    (hq : sl.completedBy e = none → Quiet s' → Quiet s) :
    sl.ReaderOk seq₀ initial (es ++ [e]) s' t l := by
  cases l with
  | readWord s1 out => exact ⟨h.1, h.2.step he hq⟩
  | readEnd s1 out => exact ⟨h.1, h.2.step he hq⟩
  | _ => exact trivial

/-- The head of the loop of `try_read`. -/
theorem readerOk_readLoop (hlen : out.length ≤ sl.nWords)
    (h : sl.Snapshot seq₀ initial es s t s1 out) :
    sl.ReaderOk seq₀ initial es s t (sl.readLoop s1 out) := by
  rw [readLoop]
  split
  · next hlt => exact ⟨hlt, h⟩
  · exact ⟨by omega, h⟩

theorem writing_readLoop (s1 : Word) (out : List Word) : (sl.readLoop s1 out).writing = false := by
  rw [readLoop]
  split <;> rfl

theorem readerOk_of_writing (hl : l.writing = true) : sl.ReaderOk seq₀ initial es s t l := by
  cases l <;> first | exact trivial | cases hl

variable [DecidableEq T]

/-- A step of thread `t` to program point `l`. -/
theorem RunInv.step (h : sl.RunInv seq₀ initial es s)
    (hby : ∀ u, beginsRead e = some u → u = t)
    (hq : sl.completedBy e = none → l.active = false → (s.locals t).active = false)
    (hw : sl.WriterInv seq₀ (sl.completedWrites (es ++ [e])).length (sl.version initial (es ++ [e]))
      ((s.setMem m).setLocal t l))
    (hr : sl.ReaderOk seq₀ initial (es ++ [e]) ((s.setMem m).setLocal t l) t l)
    (hend : ∀ u out, succeeds e = some (u, out) → sl.OneVersion initial es u out) :
    sl.RunInv seq₀ initial (es ++ [e]) ((s.setMem m).setLocal t l) := by
  refine ⟨hw, ?_, h.ends.concat hend⟩
  refine ThreadState.forall_setLocal (P := fun u l' => sl.ReaderOk seq₀ initial (es ++ [e])
    ((s.setMem m).setLocal t l) u l') hr fun u hut => ?_
  exact (h.reader u).step (fun hu => hut (hby u hu)) fun hc => quiet_of_setLocal (hq hc)

/-- A step that completes no write. -/
theorem RunInv.silent (h : sl.RunInv seq₀ initial es s)
    (hby : ∀ u, beginsRead e = some u → u = t) (hc : sl.completedBy e = none)
    (hq : l.active = false → (s.locals t).active = false)
    (hw : sl.WriterInv seq₀ (sl.completedWrites es).length (sl.version initial es)
      ((s.setMem m).setLocal t l))
    (hr : sl.ReaderOk seq₀ initial (es ++ [e]) ((s.setMem m).setLocal t l) t l)
    (hend : ∀ u out, succeeds e = some (u, out) → sl.OneVersion initial es u out) :
    sl.RunInv seq₀ initial (es ++ [e]) ((s.setMem m).setLocal t l) := by
  refine h.step hby (fun _ => hq) ?_ hr hend
  rw [completedWrites_concat_none hc, version_concat_none hc]
  exact hw

/-- A step inside a write that does not complete it. -/
theorem RunInv.write (h : sl.RunInv seq₀ initial es s) (hl : l.writing = true)
    (hby : beginsRead e = none) (hc : sl.completedBy e = none) (hsucc : succeeds e = none)
    (hq : l.active = false → (s.locals t).active = false)
    (hw : sl.WriterInv seq₀ (sl.completedWrites es).length (sl.version initial es)
      ((s.setMem m).setLocal t l)) :
    sl.RunInv seq₀ initial (es ++ [e]) ((s.setMem m).setLocal t l) := by
  refine h.silent ?_ hc hq hw (readerOk_of_writing hl) ?_
  · intro u hu
    simp [hby] at hu
  · intro u out hu
    simp [hsucc] at hu

/-- The last step of a write. -/
theorem RunInv.complete {vals : List Word} (h : sl.RunInv seq₀ initial es s)
    (ht : s.locals t = .writeEven vals v) (acc : Access Word Word) (r : Reply Word) :
    sl.RunInv seq₀ initial (es ++ [.accessed t (.writeEven vals v) acc r])
      ((s.setMem (Function.update s.mem sl.seqAddr (v + 2))).setLocal t .idle) := by
  refine h.step ?_ ?_ ?_ trivial ?_
  · intro u hu
    cases hu
  · intro hc
    cases hc
  · have hc : sl.completedBy (.accessed t (.writeEven vals v) acc r) = some (vals.take sl.nWords) :=
      rfl
    rw [completedWrites_concat_some hc, version_concat_some hc, List.length_append]
    exact h.writer.writeEven ht
  · intro u out hu
    cases hu

/-- A step of a thread that is not writing. -/
theorem RunInv.read (h : sl.RunInv seq₀ initial es s) (ht : (s.locals t).writing = false)
    (hl : l.writing = false) (hby : ∀ u, beginsRead e = some u → u = t)
    (hc : sl.completedBy e = none)
    (hr : sl.ReaderOk seq₀ initial (es ++ [e]) ((s.setMem s.mem).setLocal t l) t l)
    (hend : ∀ u out, succeeds e = some (u, out) → sl.OneVersion initial es u out) :
    sl.RunInv seq₀ initial (es ++ [e]) ((s.setMem s.mem).setLocal t l) := by
  exact h.silent hby hc (fun _ => SeqlockLocal.not_active ht) (h.writer.setReader ht hl) hr hend

/-- The first read of the sequence word: if it is even, no write is in progress. -/
theorem RunInv.readStart (h : sl.RunInv seq₀ initial es s) (heven : seq₀ &&& 1 = 0)
    (ht : s.locals t = .readStart) (acc : Access Word Word) :
    sl.RunInv seq₀ initial (es ++ [.accessed t .readStart acc (.value (s.mem sl.seqAddr))])
      ((s.setMem s.mem).setLocal t
        (if s.mem sl.seqAddr &&& 1 = 1 then .idle else sl.readLoop (s.mem sl.seqAddr) [])) := by
  have hby : ∀ u, beginsRead (.accessed t .readStart acc (.value (s.mem sl.seqAddr))) = some u →
      u = t := fun u hu => (Option.some.inj hu).symm
  split
  · exact h.read (by rw [ht]; rfl) rfl hby rfl trivial fun u out hu => by cases hu
  · next hodd =>
    have hquiet : Quiet s := by
      intro u
      refine Bool.eq_false_of_not_eq_true fun hu => hodd ?_
      rw [h.seq_of_active hu]
      exact seq_add_one_odd heven _
    refine h.read (by rw [ht]; rfl) (writing_readLoop _ _) hby rfl ?_ fun u out hu => by cases hu
    exact readerOk_readLoop (Nat.zero_le _) (Snapshot.begin rfl (h.writer.seq hquiet))

/-- Copying a data word. -/
theorem RunInv.readWord (h : sl.RunInv seq₀ initial es s) (ht : s.locals t = .readWord s1 out)
    (acc : Access Word Word) (r : Reply Word) :
    sl.RunInv seq₀ initial (es ++ [.accessed t (.readWord s1 out) acc r])
      ((s.setMem s.mem).setLocal t
        (sl.readLoop s1 (out ++ [s.mem (sl.dataAddr out.length)]))) := by
  have hok := h.reader t
  rw [ht] at hok
  obtain ⟨hlt, hsnap⟩ := hok
  refine h.read (by rw [ht]; rfl) (writing_readLoop _ _) ?_ rfl ?_ ?_
  · intro u hu
    cases hu
  · have hcopy := hsnap.copy (v := s.mem (sl.dataAddr out.length)) fun hquiet => by
      rw [← h.writer.data hquiet]
      simp [words, hlt]
    refine readerOk_readLoop ?_ (hcopy.step (by intro hb; cases hb) fun _ => quiet_of_setLocal ?_)
    · rw [List.length_append]
      exact hlt
    · intro _
      rw [ThreadState.setMem_locals, ht]
      rfl
  · intro u out hu
    cases hu

/-- The second read of the sequence word. -/
theorem RunInv.readEnd {m : Word → Word} (h : sl.RunInv seq₀ (sl.words m) es s)
    (ht : s.locals t = .readEnd s1 out) (acc : Access Word Word) :
    sl.RunInv seq₀ (sl.words m)
      (es ++ [.accessed t (.readEnd s1 out) acc (.value (s.mem sl.seqAddr))])
      ((s.setMem s.mem).setLocal t .idle) := by
  have hok := h.reader t
  rw [ht] at hok
  refine h.read (by rw [ht]; rfl) rfl ?_ rfl trivial ?_
  · intro u hu
    cases hu
  · intro u out' hu
    simp only [succeeds] at hu
    split at hu
    · next hs1 =>
      cases hu
      rw [hs1] at hok
      exact h.finish hok.2 hok.1
    · cases hu

omit [DecidableEq T] in
/-- Other code leaves the words of the seqlock alone. -/
theorem RunInv.other (h : sl.RunInv seq₀ initial es s) (acc : Access Word Word) (r : Reply Word)
    (hs : m sl.seqAddr = s.mem sl.seqAddr)
    (hd : ∀ i < sl.nWords, m (sl.dataAddr i) = s.mem (sl.dataAddr i)) :
    sl.RunInv seq₀ initial (es ++ [.other t acc r]) (s.setMem m) := by
  have hc : sl.completedBy (.other t acc r : Event T) = none := rfl
  refine ⟨?_, ?_, h.ends.concat ?_⟩
  · rw [completedWrites_concat_none hc, version_concat_none hc]
    exact h.writer.setMem hs hd
  · intro u
    exact (h.reader u).step (by intro hb; cases hb) fun _ hq => hq
  · intro u out hu
    cases hu

/-- The callers' commands. -/
theorem RunInv.command [Fintype T] (h : sl.RunInv seq₀ initial es s) {op : SeqlockOp}
    (hcmd : sl.code.command s.locals t op = some l) :
    sl.RunInv seq₀ initial (es ++ [.commanded t op]) (s.setLocal t l) := by
  cases op with
  | write vals =>
    simp only [code] at hcmd
    split at hcmd
    · next hcall =>
      obtain ⟨hidle, hlen, hnone⟩ := hcall
      cases hcmd
      refine h.write (m := s.mem) rfl rfl rfl rfl ?_ (h.writer.call hlen hnone)
      intro _
      rw [hidle]
      rfl
    · cases hcmd
  | tryRead =>
    simp only [code] at hcmd
    split at hcmd
    · next hidle =>
      cases hcmd
      exact h.read (by rw [hidle]; rfl) rfl (fun u hu => by cases hu) rfl trivial
        fun u out hu => by cases hu
    · cases hcmd

/-- The accesses of `write` and `try_read`. -/
theorem RunInv.access [Fintype T] (h : sl.RunInv seq₀ (sl.words m) es s) (heven : seq₀ &&& 1 = 0)
    {acc : Access Word Word} (hnext : (sl.code (T := T)).next (s.locals t) = some acc) :
    sl.RunInv seq₀ (sl.words m) (es ++ [.accessed t (s.locals t) acc (acc.exec s.mem).2])
      ((s.setMem (acc.exec s.mem).1).setLocal t
        ((sl.code (T := T)).resume (s.locals t) (acc.exec s.mem).2)) := by
  cases hl : s.locals t with
  | idle => simp [code, hl] at hnext
  | writeStart vals =>
    simp only [code, hl, Option.some.injEq] at hnext
    subst hnext
    rw [Access.exec_read]
    exact h.write rfl rfl rfl rfl (fun _ => by rw [hl]; rfl) (h.writer.writeStart hl)
  | writeOdd vals x =>
    simp only [code, hl, Option.some.injEq] at hnext
    subst hnext
    exact h.write (SeqlockLocal.writing_of_active (active_writeLoop _ _ _)) rfl rfl rfl
      (fun _ => by rw [hl]; rfl) (h.writer.writeOdd hl)
  | writeWord vals x i =>
    simp only [code, hl, Option.some.injEq] at hnext
    subst hnext
    refine h.write (SeqlockLocal.writing_of_active (active_writeLoop _ _ _)) rfl rfl rfl ?_
      (h.writer.writeWord hl)
    intro ha
    exact absurd ((active_writeLoop _ _ _).symm.trans ha) Bool.noConfusion
  | writeEven vals x =>
    simp only [code, hl, Option.some.injEq] at hnext
    subst hnext
    exact h.complete hl _ _
  | readStart =>
    simp only [code, hl, Option.some.injEq] at hnext
    subst hnext
    rw [Access.exec_read]
    exact h.readStart heven hl _
  | readWord s1 out =>
    simp only [code, hl, Option.some.injEq] at hnext
    subst hnext
    rw [Access.exec_read]
    exact h.readWord hl _ _
  | readEnd s1 out =>
    simp only [code, hl, Option.some.injEq] at hnext
    subst hnext
    rw [Access.exec_read]
    exact h.readEnd hl _

/-- The invariant along every run over a flat memory. -/
theorem runInv [Fintype T] (sl : Seqlock) {m : Word → Word} (heven : m sl.seqAddr &&& 1 = 0)
    (acts : List (ThreadAction T SeqlockOp Word Word)) :
    sl.RunInv (m sl.seqAddr) (sl.words m) (sl.code.trace .flat (.start m .idle) acts)
      (sl.code.run .flat (.start m .idle) acts) := by
  refine sl.code.trace_invariant (P := sl.RunInv (m sl.seqAddr) (sl.words m)) ?_ ?_ ?_ ?_ acts
  · refine ⟨⟨?_, ?_, fun _ => rfl, fun _ => trivial⟩, fun _ => trivial, EachAfter.nil⟩
    · intro t u ht
      cases ht
    · intro _
      exact (BitVec.add_zero _).symm
  · exact fun _ _ _ _ _ h => h.command
  · exact fun _ _ _ _ h => h.access heven
  · intro es s t acc h hf
    obtain ⟨hseq, hdata⟩ := Bool.and_eq_true_iff.mp hf
    refine h.other acc _ (Access.exec_apply_of_keeps hseq s.mem) fun i hi => ?_
    exact Access.exec_apply_of_keeps (List.all_eq_true.mp hdata i (List.mem_range.mpr hi)) s.mem

/-- **No torn snapshots.** Threads on any cores of the system call `write` and `try_read`, in
    any interleaving with each other and with other code that does not write the words of
    the seqlock; writes do not overlap, and the sequence word starts even. Before the end of
    a `try_read` that returned true stands its first read of the sequence word; if fewer
    than 2^31 writes completed between the two, `out` is the vector of the last write
    completed before the first read, or the initial contents. The completed writes of a
    thread are those it was given, in order and with their vectors, up to the one it is
    making. -/
theorem seqlock_reads_one_version [Fintype T] {c : ℕ} (core : T → Fin c)
    (visits : ℕ → (i : Fin c) → VisitOrder i) (sl : Seqlock) (m : DutState c)
    (heven : m.flat sl.seqAddr &&& 1 = 0) (acts : List (ThreadAction T SeqlockOp Word Word)) :
    let es := sl.code.trace (dut core visits) (.start m .idle) acts
    let s := sl.code.run (dut core visits) (.start m .idle) acts
    (∀ pre e post t out, es = pre ++ e :: post → succeeds e = some (t, out) →
      ∃ before b during, pre = before ++ b :: during ∧ beginsRead b = some t ∧
        (∀ f ∈ during, beginsRead f ≠ some t) ∧
        ((sl.completedWrites during).length < 2 ^ 31 →
          out = sl.version (sl.words m.flat) before)) ∧
    ∀ t, (sl.code.given (dut core visits) sl.callable t (.start m .idle) acts).filterMap
        sl.vector? =
      sl.completedWrites (accessedBy t es) ++ (sl.pending (s.locals t)).toList := by
  intro es s
  refine ⟨fun pre e post t out hes hsucc => ?_,
    fun t => sl.given_eq_completedWrites (dut core visits) m acts t⟩
  simp only [es, dut_trace] at hes
  exact (runInv sl heven acts).ends pre e post hes t out hsucc

/-- Thread `w` writes two words while `r` has begun to read; `r` fails and reads again. -/
def writeThenRead {T : Type*} (w r : T) : List (ThreadAction T SeqlockOp Word Word) :=
  [.command r .tryRead, .access r, .access r, .command w (.write [5, 7]),
    .access w, .access w, .access w, .access r, .access w, .access w, .access r,
    .command r .tryRead, .access r, .access r, .access r, .access r]

theorem writeThenRead_reads_version :
    let sl : Seqlock := ⟨0x400, 0x440, 2, by decide, by decide⟩
    let es := sl.code.trace (dut (fun t : Bool => if t then 1 else 0) fun _ i => .byIndex i)
      (.start (.new 2) .idle) (writeThenRead true false)
    (∃ pre e, es = pre ++ [e] ∧ succeeds e = some (false, [5, 7]) ∧
      ∃ before b during, pre = before ++ b :: during ∧ beginsRead b = some false ∧
        (∀ f ∈ during, beginsRead f ≠ some false) ∧
        ((sl.completedWrites during).length < 2 ^ 31 →
          [5, 7] = sl.version [0, 0] before)) ∧
      [[5, 7]] = sl.completedWrites (accessedBy true es) := by
  intro sl es
  obtain ⟨hreads, hgiven⟩ := seqlock_reads_one_version (fun t : Bool => if t then 1 else 0)
    (fun _ i => .byIndex i) sl (.new 2) (by decide) (writeThenRead true false)
  have hlast : ∃ e, es.getLast? = some e ∧ succeeds e = some (false, [5, 7]) := by
    refine ⟨.accessed false (.readEnd 2 [5, 7]) (.read 0x400) (.value 2), ?_, by decide⟩
    decide +kernel
  obtain ⟨e, he, hsucc⟩ := hlast
  obtain ⟨pre, hpre⟩ := List.getLast?_eq_some_iff.mp he
  refine ⟨⟨pre, e, hpre, hsucc, hreads pre e [] false [5, 7] hpre hsucc⟩, ?_⟩
  have hidle : (sl.code.run (dut (fun t : Bool => if t then 1 else 0) fun _ i => .byIndex i)
      (.start (.new 2) .idle) (writeThenRead true false)).locals true = .idle := by
    decide +kernel
  have hwrites := hgiven true
  rw [hidle] at hwrites
  exact Eq.trans (by decide +kernel) (hwrites.trans (List.append_nil _))

end Seqlock

end MesiCoherence
