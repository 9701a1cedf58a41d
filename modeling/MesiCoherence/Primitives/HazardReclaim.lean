import MesiCoherence.Primitives.HazardPtr

/-!
# Safe reclamation with hazard pointers

The argument orders three things: the second read of a reader that got the object, the
unlinking, and the read of the reader's slot by a scan that starts after the unlinking.
After the unlinking no second read sees the object, so no thread starts to guard it; and
a thread that guards it keeps it in its slot, so the scan cannot pass that slot.

## Main result

- `hazard_protects_unlinked` — nobody guards an unlinked object that passed a scan
-/

namespace MesiCoherence

namespace HazardDomain

variable {T : Type*}

/-- What threads of a hazard domain do. -/
abbrev Event (T : Type*) := ThreadEvent T HazardOp Word Word HazardLocal

/-- The last read of an `is_hazarded` that returns false, and its argument. -/
def passes (d : HazardDomain) : Event T → Option (T × Word)
  | .accessed w (.scan ptr i) _ reply =>
    if d.hazarded (.scan ptr i) reply = some false then some (w, ptr) else none
  | _ => none

/-- No source pointer holds `o`. -/
def Unlinked (source : Word → Bool) (o : Word) (m : Word → Word) : Prop :=
  ∀ a, source a = true → m a ≠ o

/-- A scan for `o` was called and returned false. -/
def Scanned (d : HazardDomain) (o : Word) (es : List (Event T)) : Prop :=
  ∃ pre e post w, es = pre ++ e :: post ∧ .commanded w (.isHazarded o) ∈ pre ∧
    d.passes e = some (w, o)

/-- The invariant after the unlinking of `o`, when `es` has happened since: a scan has passed
    no slot of a thread that guards `o`. -/
structure UnlinkedInv (d : HazardDomain) (source : Word → Bool) (tid : T → ℤ) (o : Word)
    (es : List (Event T)) (s : State T) : Prop where
  slots : d.SlotsOk source tid s
  scanning : ∀ w i, .commanded w (.isHazarded o) ∈ es → s.locals w = .scan o i →
    ∀ t, (s.locals t).guards o = true → (i : ℤ) ≤ tid t
  cleared : d.Scanned o es → ∀ t, (s.locals t).guards o = false

variable {d : HazardDomain} {source : Word → Bool} {tid : T → ℤ} {o : Word} {es : List (Event T)}
  {e : Event T} {s : State T} {t : T} {m : Word → Word} {l : HazardLocal} {i : ℕ}

theorem scanned_concat :
    d.Scanned o (es ++ [e]) ↔ d.Scanned o es ∨
      ∃ w, .commanded w (.isHazarded o) ∈ es ∧ d.passes e = some (w, o) := by
  constructor
  · rintro ⟨pre, f, post, w, hsplit, hcmd, hpass⟩
    rcases concat_eq_append_cons.mp hsplit with ⟨rfl, rfl, -⟩ | ⟨post', -, hes⟩
    · exact Or.inr ⟨w, hcmd, hpass⟩
    · exact Or.inl ⟨pre, f, post', w, hes, hcmd, hpass⟩
  · rintro (⟨pre, f, post, w, rfl, hcmd, hpass⟩ | ⟨w, hcmd, hpass⟩)
    · exact ⟨pre, f, post ++ [e], w, by simp, hcmd, hpass⟩
    · exact ⟨es, e, [], w, rfl, hcmd, hpass⟩

/-- The events at which a scan was called and returned, by their positions. -/
theorem scanned_of_getElem {k : ℕ} {w : T} (he : es[k]? = some e)
    (hcmd : .commanded w (.isHazarded o) ∈ es.take k) (hpass : d.passes e = some (w, o)) :
    d.Scanned o es := by
  obtain ⟨hk, rfl⟩ := List.getElem?_eq_some_iff.mp he
  refine ⟨es.take k, es[k], es.drop (k + 1), w, ?_, hcmd, hpass⟩
  rw [List.getElem_cons_drop, List.take_append_drop]

/-- A scan that finds another value in slot `i` passes it. -/
theorem UnlinkedInv.pass (h : d.UnlinkedInv source tid o es s)
    (hcmd : .commanded t (.isHazarded o) ∈ es) (ht : s.locals t = .scan o i)
    (hv : s.mem (d.slotAddr i) ≠ o) {u : T} (hu : (s.locals u).guards o = true) :
    ((i + 1 : ℕ) : ℤ) ≤ tid u := by
  have hle := h.scanning t i hcmd ht u hu
  obtain ⟨k, hk, -, hslot⟩ := h.slots.slot_of_guards hu
  have hne : k ≠ i := by
    rintro rfl
    exact hv hslot
  omega

variable [DecidableEq T]

/-- A step of thread `t` after which it guards `o` only if it did before. -/
theorem UnlinkedInv.step (h : d.UnlinkedInv source tid o es s)
    (hslots : d.SlotsOk source tid ((s.setMem m).setLocal t l))
    (hguards : l.guards o = true → (s.locals t).guards o = true)
    (hby : ∀ w, e = .commanded w (.isHazarded o) → w = t)
    (hscan : ∀ i, .commanded t (.isHazarded o) ∈ es ++ [e] → l = .scan o i →
      ∀ u, (s.locals u).guards o = true → (i : ℤ) ≤ tid u)
    (hpass : ∀ w, .commanded w (.isHazarded o) ∈ es → d.passes e = some (w, o) →
      ∀ u, (s.locals u).guards o = false) :
    d.UnlinkedInv source tid o (es ++ [e]) ((s.setMem m).setLocal t l) := by
  have hold : ∀ u, (((s.setMem m).setLocal t l).locals u).guards o = true →
      (s.locals u).guards o = true :=
    ThreadState.forall_setLocal
      (P := fun u (l : HazardLocal) => l.guards o = true → (s.locals u).guards o = true)
      hguards fun _ _ h => h
  refine ⟨hslots, ?_, ?_⟩
  · intro w i hcmd hw u hu
    by_cases hwt : w = t
    · subst hwt
      rw [ThreadState.setLocal_self] at hw
      exact hscan i hcmd hw u (hold u hu)
    · rw [ThreadState.setLocal_of_ne _ hwt] at hw
      rcases List.mem_append.mp hcmd with hcmd | hcmd
      · exact h.scanning w i hcmd hw u (hold u hu)
      · exact absurd (hby w (List.mem_singleton.mp hcmd).symm) hwt
  · intro hscanned u
    refine Bool.eq_false_of_not_eq_true fun hu => ?_
    have hclear : (s.locals u).guards o = false := by
      rcases scanned_concat.mp hscanned with hbefore | ⟨w, hcmd, he⟩
      · exact h.cleared hbefore u
      · exact hpass w hcmd he u
    rw [hold u hu] at hclear
    cases hclear

/-- A step outside the scans. -/
theorem UnlinkedInv.quiet (h : d.UnlinkedInv source tid o es s)
    (hslots : d.SlotsOk source tid ((s.setMem m).setLocal t l))
    (hguards : l.guards o = true → (s.locals t).guards o = true)
    (hby : ∀ w, e ≠ .commanded w (.isHazarded o)) (hl : ∀ i, l ≠ .scan o i)
    (hpass : d.passes e = none) :
    d.UnlinkedInv source tid o (es ++ [e]) ((s.setMem m).setLocal t l) := by
  refine h.step hslots hguards (fun w he => absurd he (hby w)) ?_ ?_
  · intro i _ hi
    exact absurd hi (hl i)
  · intro w _ he
    rw [hpass] at he
    cases he

/-- The callers' commands; a scan starts before all slots. -/
theorem UnlinkedInv.command (h : d.UnlinkedInv source tid o es s) {op : HazardOp}
    (hcmd : (d.code source tid).command s.locals t op = some l) :
    d.UnlinkedInv source tid o (es ++ [.commanded t op]) (s.setLocal t l) := by
  have hslots := h.slots.command hcmd
  cases op with
  | protect ptrAddr =>
    simp only [code] at hcmd
    split at hcmd
    · obtain ⟨k, -, rfl⟩ := Option.map_eq_some_iff.mp hcmd
      refine h.quiet (m := s.mem) hslots ?_ ?_ ?_ rfl
      · intro hg
        cases hg
      · intro w he
        cases he
      · intro i hi
        cases hi
    · cases hcmd
  | release =>
    simp only [code] at hcmd
    split at hcmd
    · next j p hl =>
      obtain ⟨k, -, rfl⟩ := Option.map_eq_some_iff.mp hcmd
      refine h.quiet (m := s.mem) hslots ?_ ?_ ?_ rfl
      · intro hg
        rw [hl]
        exact hg
      · intro w he
        cases he
      · intro i hi
        cases hi
    · cases hcmd
  | isHazarded ptr =>
    simp only [code] at hcmd
    split at hcmd
    · cases hcmd
      refine h.step (m := s.mem) hslots ?_ ?_ ?_ ?_
      · intro hg
        cases hg
      · intro w he
        cases he
        rfl
      · intro i _ hi u hu
        cases hi
        obtain ⟨k, hk, -, -⟩ := h.slots.slot_of_guards hu
        omega
      · intro w _ he
        cases he
    · cases hcmd

/-- A read of a slot by a scan. -/
theorem UnlinkedInv.scan (h : d.UnlinkedInv source tid o es s) {ptr : Word}
    (hl : s.locals t = .scan ptr i)
    (hslots : d.SlotsOk source tid ((s.setMem s.mem).setLocal t
      (if s.mem (d.slotAddr i) = ptr then .idle
        else if i + 1 < d.nThreads then .scan ptr (i + 1) else .idle))) (acc : Access Word Word) :
    d.UnlinkedInv source tid o
      (es ++ [.accessed t (.scan ptr i) acc (.value (s.mem (d.slotAddr i)))])
      ((s.setMem s.mem).setLocal t
        (if s.mem (d.slotAddr i) = ptr then .idle
          else if i + 1 < d.nThreads then .scan ptr (i + 1) else .idle)) := by
  by_cases hv : s.mem (d.slotAddr i) = ptr
  · rw [if_pos hv] at hslots ⊢
    exact h.quiet hslots (fun hg => by cases hg) (fun w he => by cases he)
      (fun j hj => by cases hj) (by simp [passes, hazarded, hv])
  rw [if_neg hv] at hslots ⊢
  by_cases hi : i + 1 < d.nThreads
  · rw [if_pos hi] at hslots ⊢
    refine h.step hslots (fun hg => by cases hg) (fun w he => by cases he) ?_ ?_
    · intro j hcmd hj u hu
      cases hj
      have hcmd' : .commanded t (.isHazarded o) ∈ es := by simpa using hcmd
      exact h.pass hcmd' hl hv hu
    · intro w _ he
      simp [passes, hazarded, hv, hi] at he
  · rw [if_neg hi] at hslots ⊢
    refine h.step hslots (fun hg => by cases hg) (fun w he => by cases he)
      (fun j _ hj => by cases hj) ?_
    intro w hcmd he u
    -- the scan is over: a slot of a guard would come after the last one
    have hpassed : d.passes (.accessed t (.scan ptr i) acc (.value (s.mem (d.slotAddr i)))) =
        some (t, ptr) := by simp [passes, hazarded, hv, hi]
    obtain ⟨rfl, rfl⟩ : t = w ∧ ptr = o := by
      simpa using hpassed.symm.trans he
    refine Bool.eq_false_of_not_eq_true fun hu => ?_
    have hle := h.pass hcmd hl hv hu
    obtain ⟨k, hk, hlt, -⟩ := h.slots.slot_of_guards hu
    omega

/-- The accesses of the three functions, while no source pointer holds `o`. -/
theorem UnlinkedInv.access (h : d.UnlinkedInv source tid o es s) (hd : d.DistinctTids tid)
    (hun : Unlinked source o s.mem) {acc : Access Word Word}
    (hnext : (d.code source tid).next (s.locals t) = some acc) :
    d.UnlinkedInv source tid o (es ++ [.accessed t (s.locals t) acc (acc.exec s.mem).2])
      ((s.setMem (acc.exec s.mem).1).setLocal t
        ((d.code source tid).resume (s.locals t) (acc.exec s.mem).2)) := by
  have hslots := h.slots.access hd hnext
  have hok := h.slots t
  cases hl : s.locals t with
  | idle => simp [code, hl] at hnext
  | holding k p => simp [code, hl] at hnext
  | load k ptrAddr =>
    simp only [code, hl, Option.some.injEq] at hnext
    subst hnext
    rw [hl] at hslots
    exact h.quiet hslots (fun hg => by cases hg) (fun w he => by cases he)
      (fun j hj => by cases hj) rfl
  | publish k ptrAddr p =>
    simp only [code, hl, Option.some.injEq] at hnext
    subst hnext
    rw [hl] at hslots
    exact h.quiet hslots (fun hg => by cases hg) (fun w he => by cases he)
      (fun j hj => by cases hj) rfl
  | revalidate k ptrAddr p =>
    simp only [code, hl, Option.some.injEq] at hnext
    subst hnext
    rw [hl] at hslots hok
    rw [Access.exec_read] at hslots ⊢
    have hother : s.mem ptrAddr ≠ o := hun ptrAddr hok.2.1
    refine h.quiet hslots ?_ (fun w he => by cases he) ?_ rfl
    · intro hg
      simp only [code] at hg
      split at hg
      · next hp => exact absurd (hp.trans (of_decide_eq_true hg)) hother
      · cases hg
    · intro j hj
      simp only [code] at hj
      split at hj <;> cases hj
  | releasing k p =>
    simp only [code, hl, Option.some.injEq] at hnext
    subst hnext
    rw [hl] at hslots
    exact h.quiet hslots (fun hg => by cases hg) (fun w he => by cases he)
      (fun j hj => by cases hj) rfl
  | scan ptr i =>
    simp only [code, hl, Option.some.injEq] at hnext
    subst hnext
    rw [hl] at hslots
    rw [Access.exec_read] at hslots ⊢
    exact h.scan hl hslots _

omit [DecidableEq T] in
/-- Other code. -/
theorem UnlinkedInv.other (h : d.UnlinkedInv source tid o es s) {acc : Access Word Word}
    (r : Reply Word) (hf : (d.code source tid).foreign acc = true) :
    d.UnlinkedInv source tid o (es ++ [.other t acc r]) (s.setMem (acc.exec s.mem).1) := by
  refine ⟨h.slots.other hf, ?_, ?_⟩
  · intro w i hcmd
    exact h.scanning w i (by simpa using hcmd)
  · intro hscanned
    rcases scanned_concat.mp hscanned with hbefore | ⟨w, -, he⟩
    · exact h.cleared hbefore
    · cases he

/-- The slots along every run over a flat memory. -/
theorem slotsOk_run (hd : d.DistinctTids tid) (m : Word → Word)
    (acts : List (ThreadAction T HazardOp Word Word)) :
    d.SlotsOk source tid ((d.code source tid).run .flat (.start m .idle) acts) := by
  refine (d.code source tid).trace_invariant (P := fun _ s => d.SlotsOk source tid s)
    ?_ ?_ ?_ ?_ acts
  · exact fun _ => trivial
  · exact fun _ _ _ _ _ h => h.command
  · exact fun _ _ _ _ h => h.access hd
  · exact fun _ _ _ _ h => h.other

/-- The invariant along every run over a flat memory on which `o` stays unlinked. -/
theorem unlinkedInv_run (hd : d.DistinctTids tid) (hs : d.SlotsOk source tid s)
    (acts : List (ThreadAction T HazardOp Word Word))
    (hun : ∀ pre, pre <+: acts → Unlinked source o ((d.code source tid).run .flat s pre).mem) :
    d.UnlinkedInv source tid o ((d.code source tid).trace .flat s acts)
      ((d.code source tid).run .flat s acts) := by
  refine (d.code source tid).trace_invariant_while (P := d.UnlinkedInv source tid o)
    (Q := fun s => Unlinked source o s.mem) ?_ ?_ ?_ ?_ acts hun
  · refine ⟨hs, ?_, ?_⟩
    · intro w i hcmd
      cases hcmd
    · rintro ⟨pre, e, post, w, hnil, -⟩
      simp at hnil
  · exact fun _ _ _ _ _ h => h.command
  · exact fun _ _ _ _ h hun hnext => h.access hd hun hnext
  · exact fun _ _ _ _ h => h.other _

/-- **Safe reclamation.** Threads on any cores of the system protect, release and scan, in
    any interleaving with each other and with other code that does not write the slots;
    readers have distinct ids. After the steps `before` the object `o` is unlinked and is never
    published again. Once a scan for `o` that started after `before` has returned false, no
    thread is between a `protect` that returned `o` and its `release`. -/
theorem hazard_protects_unlinked {c : ℕ} (core : T → Fin c)
    (visits : ℕ → (i : Fin c) → VisitOrder i) (d : HazardDomain) (source : Word → Bool)
    (tid : T → ℤ) (hd : d.DistinctTids tid) (m : DutState c) (o : Word)
    (before after : List (ThreadAction T HazardOp Word Word)) :
    let run := (d.code source tid).run (dut core visits) (.start m .idle)
    let trace := (d.code source tid).trace (dut core visits) (.start m .idle)
    (∀ pre, pre <+: after → Unlinked source o (run (before ++ pre)).mem.flat) →
    (∃ since, trace (before ++ after) = trace before ++ since ∧ d.Scanned o since) →
    ∀ t, ((run (before ++ after)).locals t).guards o = false := by
  intro run trace hun hscan
  simp only [run, trace, dut_trace, dut_locals, dut_flat] at hun hscan ⊢
  simp only [ThreadCode.run_append, ThreadCode.trace_append, List.append_cancel_left_eq]
    at hun hscan ⊢
  obtain ⟨since, rfl, hscanned⟩ := hscan
  exact (unlinkedInv_run hd (slotsOk_run hd m.flat before) after hun).cleared hscanned

/-- Thread `w` publishes an object, `r` protects it, and `w` replaces it. -/
def protectThenUnlink {T : Type*} (w r : T) : List (ThreadAction T HazardOp Word Word) :=
  [.other w (.write 0x600 0x20008), .command r (.protect 0x600), .access r, .access r, .access r,
    .other w (.write 0x600 0x20010)]

/-- A first scan of `w` sees the old object; `r` releases it, protects the new one, and a
    second scan passes. -/
def scanAgain {T : Type*} (w r : T) : List (ThreadAction T HazardOp Word Word) :=
  [.command w (.isHazarded 0x20008), .access w, .command r .release, .access r,
    .command w (.isHazarded 0x20008), .access w, .command r (.protect 0x600), .access r, .access r,
    .access w, .access r]

theorem scanAgain_protects :
    let d : HazardDomain := ⟨0x640, 2, by decide, by decide⟩
    let run := (d.code (fun a => a = 0x600) fun t : Bool => if t then 0 else -1).run
      (dut (fun t : Bool => if t then 1 else 0) fun _ i => .byIndex (n := 2) i)
      (.start (.new 2) .idle)
    ((run (protectThenUnlink false true)).locals true).guards 0x20008 = true ∧
      ∀ t, ((run (protectThenUnlink false true ++ scanAgain false true)).locals t).guards 0x20008 =
        false := by
  intro d run
  refine ⟨by decide +kernel, ?_⟩
  apply hazard_protects_unlinked
  · unfold DistinctTids
    decide
  · intro pre hpre
    have hall : ∀ pre ∈ (scanAgain false true).inits,
        (run (protectThenUnlink false true ++ pre)).mem.flat 0x600 ≠ 0x20008 := by
      decide +kernel
    intro a ha
    rw [of_decide_eq_true ha]
    exact hall pre ((List.mem_inits _ _).mpr hpre)
  · refine ⟨_, ThreadCode.trace_append _ _ _ _ _, ?_⟩
    apply scanned_of_getElem (k := 9) (w := false)
      (e := .accessed false (.scan 0x20008 1) (.read 0x644) (.value 0))
    · decide +kernel
    · decide +kernel
    · decide

end HazardDomain

end MesiCoherence
