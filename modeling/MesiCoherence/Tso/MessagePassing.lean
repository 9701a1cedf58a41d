import MesiCoherence.Lib.Threads
import MesiCoherence.Tso.SameAddress

/-!
# Message passing

A producer stores data and then raises a flag; whoever sees the flag afterwards sees the
data. With a FIFO buffer this needs no fence. A relaxed buffer may write the flag first,
unless an `mfence` stands between the two stores; and it may write an older store to the
data after a newer one, which the fence does not repair.
-/

namespace MesiCoherence

variable {n : ℕ}

/-- Only core `p` stores to `a`, and nobody writes it around the buffers. -/
def StoredOnlyBy (p : Fin n) (a : Word) (tr : List (TsoEvent n)) : Prop :=
  ∀ ev ∈ tr, (∀ c e, ev = .stored c e → e.addr = a → c = p) ∧
    ∀ c e, ev = .direct c (some e) → e.addr ≠ a

theorem StoredOnlyBy.of_append {p : Fin n} {a : Word} {tr tr' : List (TsoEvent n)}
    (h : StoredOnlyBy p a (tr ++ tr')) : StoredOnlyBy p a tr :=
  fun ev hev => h ev (List.mem_append_left _ hev)

theorem mem_storesOf {c : Fin n} {tr : List (TsoEvent n)} {e : SBEntry} :
    e ∈ storesOf c tr ↔ .stored c e ∈ tr := by
  rw [storesOf, List.mem_filterMap]
  constructor
  · rintro ⟨ev, hev, he⟩
    cases ev with
    | stored d e' =>
      by_cases hd : d = c
      · simp only [hd, if_true, Option.some.injEq] at he
        rwa [hd, he] at hev
      · simp [hd] at he
    | _ => cases he
  · intro h
    exact ⟨_, h, by simp⟩

theorem mem_drainsOf {c : Fin n} {tr : List (TsoEvent n)} {e : SBEntry} :
    e ∈ drainsOf c tr ↔ .written c e ∈ tr := by
  rw [drainsOf, List.mem_filterMap]
  constructor
  · rintro ⟨ev, hev, he⟩
    cases ev with
    | written d e' =>
      by_cases hd : d = c
      · simp only [hd, if_true, Option.some.injEq] at he
        rwa [hd, he] at hev
      · simp [hd] at he
    | _ => cases he
  · intro h
    exact ⟨_, h, by simp⟩

/-- A step keeps "written and buffered" equal to what was stored, up to order. -/
theorem CoreEffect.perm {sb sb' : StoreBuffer} {p p' : Phase} {st dr stores drains : List SBEntry}
    (heff : TsoSystem.CoreEffect sb p sb' p' st dr) (h : (drains ++ sb.buf).Perm stores) :
    (drains ++ dr ++ sb'.buf).Perm (stores ++ st) := by
  cases heff with
  | keep _ _ _ _ hb _ _ => simpa [hb] using h
  | push e hidle =>
    simp only [StoreBuffer.pushBack, List.append_nil]
    rw [← List.append_assoc]
    exact h.append_right [e]
  | remove e k _ hk he hsb =>
    obtain ⟨hlt, rfl⟩ := List.getElem?_eq_some_iff.mp he
    rw [hsb.buf, List.append_assoc, List.append_nil, List.singleton_append]
    exact ((List.getElem_cons_eraseIdx_perm hlt).append_left _).trans h

/-- Every core has written or still buffers what it has stored. -/
structure Accounted (sb₀ : Fin n → StoreBuffer) (tr : List (TsoEvent n)) (s : TsoSystem n) :
    Prop where
  buffers : BufferInv sb₀ tr s
  stored : ∀ c, (drainsOf c tr ++ (s.sb c).buf).Perm (storesOf c tr)

namespace Accounted

variable {sb₀ : Fin n → StoreBuffer} {tr : List (TsoEvent n)} {s : TsoSystem n}

theorem step (h : Accounted sb₀ tr s) (act : TsoAction n) :
    Accounted sb₀ (tr ++ (s.step act).2.toList) (s.step act).1 := by
  refine ⟨h.buffers.step act, fun c => ?_⟩
  rw [drainsOf_append, storesOf_append]
  exact CoreEffect.perm ((h.buffers.effect act).core c) (h.stored c)

theorem drain_mem (h : Accounted sb₀ tr s) {c : Fin n} {e : SBEntry} (he : e ∈ drainsOf c tr) :
    e ∈ storesOf c tr := (h.stored c).mem_iff.mp (List.mem_append_left _ he)

theorem buf_mem (h : Accounted sb₀ tr s) {c : Fin n} {e : SBEntry} (he : e ∈ (s.sb c).buf) :
    e ∈ storesOf c tr := (h.stored c).mem_iff.mp (List.mem_append_right _ he)

/-- What only `p` stores, only its buffer writes. -/
theorem ownedBy (h : Accounted sb₀ tr s) {p : Fin n} {a : Word} (ha : StoredOnlyBy p a tr) :
    OwnedBy p a tr := by
  intro ev hev e hw hea
  cases ev with
  | written d e' =>
    obtain rfl := Option.some.inj hw
    have hstored := mem_storesOf.mp (h.drain_mem (mem_drainsOf.mpr hev))
    rw [(ha _ hstored).1 d e' rfl hea]
  | direct d w =>
    obtain rfl : w = some e := hw
    exact absurd hea ((ha _ hev).2 d e rfl)
  | _ => cases hw

/-- Another core loads the newest entry that the buffer of `p` has written. -/
theorem load (h : Accounted sb₀ tr s) {p c : Fin n} {a : Word} (hc : c ≠ p)
    (ha : StoredOnlyBy p a tr) (hidle : s.phase c = .idle) (visit : VisitOrder c) :
    (s.step (.load c visit a)).2 =
      some (.loaded c a ((newest? (drainsOf p tr) a).getD 0)) := by
  have hnone : newest? (s.sb c).buf a = none := by
    have hempty : entriesAt a (s.sb c).buf = [] := by
      refine List.filter_eq_nil_iff.mpr fun e he hea => hc ?_
      exact (ha _ (mem_storesOf.mp (h.buf_mem he))).1 c e rfl (of_decide_eq_true hea)
    rw [newest?_eq_entriesAt, hempty]
    rfl
  rw [h.buffers.load hidle visit a, hnone, (h.ownedBy ha).lastWrite_eq]
  rfl

/-- The value of a load event of another core. -/
theorem loaded (h : Accounted sb₀ tr s) {p c : Fin n} {a v : Word} (hc : c ≠ p)
    (ha : StoredOnlyBy p a tr) {act : TsoAction n} (hev : (s.step act).2 = some (.loaded c a v)) :
    v = (newest? (drainsOf p tr) a).getD 0 := by
  have hload : ∃ visit, act = .load c visit a ∧ s.phase c = .idle := by
    have heff := h.buffers.effect act
    rw [hev] at heff
    generalize (s.step act).1 = s' at heff
    cases heff with
    | bypassed _ visit _ _ hidle _ => exact ⟨visit, rfl, hidle⟩
    | fetched _ visit _ _ _ hidle _ _ => exact ⟨visit, rfl, hidle⟩
  obtain ⟨visit, rfl, hidle⟩ := hload
  rw [h.load hc ha hidle visit] at hev
  exact (TsoEvent.loaded.inj (Option.some.inj hev)).2.2.symm

/-- When an `mfence` returns, all stores of its core are written. -/
theorem fenced (h : Accounted sb₀ tr s) {p : Fin n} {act : TsoAction n}
    (hev : (s.step act).2 = some (.fenced p)) : (drainsOf p tr).Perm (storesOf p tr) := by
  have hempty : (s.sb p).buf = [] := by
    have heff := h.buffers.effect act
    rw [hev] at heff
    generalize (s.step act).1 = s' at heff
    cases heff with
    | fenced _ _ _ hempty => exact hempty
  have hstored := h.stored p
  rwa [hempty, List.append_nil] at hstored

end Accounted

/-- An event of a run is that of a step after the events before it. -/
theorem TsoSystem.exists_step_of_trace {s₀ : TsoSystem n} {acts : List (TsoAction n)}
    {t₁ t₂ : List (TsoEvent n)} {ev : TsoEvent n} (h : s₀.trace acts = t₁ ++ ev :: t₂) :
    ∃ acts₁ act, s₀.trace acts₁ = t₁ ∧ (((machine n).run s₀ acts₁).step act).2 = some ev := by
  induction acts using List.reverseRecOn generalizing t₂ with
  | nil => simp [TsoSystem.trace] at h
  | append_singleton acts act ih =>
    rw [trace_append] at h
    cases ho : (((machine n).run s₀ acts).step act).2 with
    | none =>
      rw [ho, Option.toList_none, List.append_nil] at h
      exact ih h
    | some last =>
      rw [ho, Option.toList_some] at h
      rcases concat_eq_append_cons.mp h with ⟨rfl, rfl, -⟩ | ⟨t₂', -, hpre⟩
      · exact ⟨acts, act, rfl, ho⟩
      · exact ih hpre

section Runs

variable (depth : Fin n → ℕ+) (mode : Fin n → DrainMode) (rng : Fin n → ℕ → ℕ)

/-- Empty buffers over a fresh system. -/
def TsoSystem.newBuffers : TsoSystem n := .new fun c => .new (depth c) (mode c) (rng c)

theorem accounted_trace (acts : List (TsoAction n)) :
    Accounted (fun c => .new (depth c) (mode c) (rng c))
      ((TsoSystem.newBuffers depth mode rng).trace acts)
      ((TsoSystem.machine n).run (.newBuffers depth mode rng) acts) :=
  TsoSystem.trace_invariant _
    ⟨bufferInv_trace depth mode rng [], fun _ => .refl _⟩ (fun _ _ act h => h.step act) acts

variable {depth mode rng} {acts : List (TsoAction n)} {t₁ t₂ : List (TsoEvent n)}

/-- A load of another core in a run returns the newest entry that the buffer of `p` had
    written by then. -/
theorem loaded_of_trace {p c : Fin n} {a v : Word} (hc : c ≠ p)
    (h : (TsoSystem.newBuffers depth mode rng).trace acts = t₁ ++ .loaded c a v :: t₂)
    (ha : StoredOnlyBy p a t₁) : v = (newest? (drainsOf p t₁) a).getD 0 := by
  obtain ⟨acts₁, act, rfl, hev⟩ := TsoSystem.exists_step_of_trace h
  exact (accounted_trace depth mode rng acts₁).loaded hc ha hev

theorem drain_mem_of_trace {p : Fin n} {ev : TsoEvent n} {e : SBEntry}
    (h : (TsoSystem.newBuffers depth mode rng).trace acts = t₁ ++ ev :: t₂)
    (he : e ∈ drainsOf p t₁) : e ∈ storesOf p t₁ := by
  obtain ⟨acts₁, act, rfl, -⟩ := TsoSystem.exists_step_of_trace h
  exact (accounted_trace depth mode rng acts₁).drain_mem he

theorem fenced_of_trace {p : Fin n}
    (h : (TsoSystem.newBuffers depth mode rng).trace acts = t₁ ++ .fenced p :: t₂) :
    (drainsOf p t₁).Perm (storesOf p t₁) := by
  obtain ⟨acts₁, act, rfl, hev⟩ := TsoSystem.exists_step_of_trace h
  exact (accounted_trace depth mode rng acts₁).fenced hev

/-- A FIFO buffer has written the oldest stores. -/
theorem drains_prefix_of_fifo {p : Fin n} (hfifo : mode p = .fifo) (acts : List (TsoAction n)) :
    drainsOf p ((TsoSystem.newBuffers depth mode rng).trace acts) <+:
      storesOf p ((TsoSystem.newBuffers depth mode rng).trace acts) := by
  have horder : storesOf p ((TsoSystem.newBuffers depth mode rng).trace acts) =
      drainsOf p ((TsoSystem.newBuffers depth mode rng).trace acts) ++
        (((TsoSystem.machine n).run (.newBuffers depth mode rng) acts).sb p).buf := by
    refine (TsoSystem.trace_invariant (.newBuffers depth mode rng)
      (P := fun tr s => BufferInv (fun c => .new (depth c) (mode c) (rng c)) tr s ∧
        storesOf p tr = drainsOf p tr ++ (s.sb p).buf) ⟨?_, rfl⟩ ?_ acts).2
    · exact bufferInv_trace depth mode rng []
    · rintro tr s act ⟨h, horder⟩
      refine ⟨h.step act, ?_⟩
      rw [storesOf_append, drainsOf_append]
      exact (h.core p).fifo_step hfifo ((h.effect act).core p) horder
  rw [horder]
  exact List.prefix_append _ _

end Runs

-- ════════════════════════════════════════════════════════════════════════
-- The producer and its readers
-- ════════════════════════════════════════════════════════════════════════

/-- In the events `tr` core `p` stores `v` to `data`, for the last time, before it stores to
    `ready` for the first time; and either its buffer is FIFO, or it has stored to `data`
    only this once and an `mfence` returns before it stores to `ready`. -/
structure Publishes (p : Fin n) (m : DrainMode) (data ready v : Word) (tr : List (TsoEvent n)) :
    Prop where
  differ : data ≠ ready
  only : StoredOnlyBy p data tr ∧ StoredOnlyBy p ready tr
  published : ∃ u₁ u₂, tr = u₁ ++ .stored p ⟨data, v⟩ :: u₂ ∧
    (∀ e ∈ storesOf p u₁, e.addr ≠ ready) ∧ (∀ e ∈ storesOf p u₂, e.addr ≠ data) ∧
    (m = .fifo ∨ (∀ e ∈ storesOf p u₁, e.addr ≠ data) ∧
      ∃ w₁ w₂, u₂ = w₁ ++ .fenced p :: w₂ ∧ ∀ e ∈ storesOf p w₁, e.addr ≠ ready)

/-- A list whose entries at an address all hold `v` has `v` as the newest. -/
theorem newest?_eq_of_forall {es : List SBEntry} {a v : Word} (hmem : ∃ e ∈ es, e.addr = a)
    (hall : ∀ e ∈ es, e.addr = a → e.val = v) : newest? es a = some v := by
  obtain ⟨e, he, hea⟩ := hmem
  have hne : entriesAt a es ≠ [] :=
    List.ne_nil_of_mem (List.mem_filter.mpr ⟨he, decide_eq_true hea⟩)
  obtain ⟨hin, haddr⟩ := List.mem_filter.mp (List.getLast_mem hne)
  rw [newest?_eq_entriesAt, List.getLast?_eq_some_getLast hne, Option.map_some,
    hall _ hin (of_decide_eq_true haddr)]

theorem exists_mem_of_newest?_ne_zero {es : List SBEntry} {a : Word}
    (h : (newest? es a).getD 0 ≠ 0) : ∃ e ∈ es, e.addr = a := by
  by_contra hnone
  push Not at hnone
  have hempty : entriesAt a es = [] :=
    List.filter_eq_nil_iff.mpr fun e he hea => hnone e he (of_decide_eq_true hea)
  rw [newest?_eq_entriesAt, hempty] at h
  exact h rfl

/-- Once a flag that is raised after the last store to `x.addr` has been written in program
    order, the value written there is that of the last store. -/
theorem newest?_of_prefix {drains₁ drains₂ stores₁ stores₂ : List SBEntry} {x : SBEntry}
    {ready : Word} (h₁ : drains₁ <+: stores₁ ++ x :: stores₂)
    (h₂ : drains₂ <+: stores₁ ++ x :: stores₂) (hgrow : drains₁ <+: drains₂)
    (hflag : ∃ e ∈ drains₁, e.addr = ready) (hdiffer : x.addr ≠ ready)
    (hbefore : ∀ e ∈ stores₁, e.addr ≠ ready) (hlast : ∀ e ∈ stores₂, e.addr ≠ x.addr) :
    newest? drains₂ x.addr = some x.val := by
  have hx : stores₁ ++ [x] <+: stores₁ ++ x :: stores₂ := ⟨stores₂, by simp⟩
  have hpassed : stores₁ ++ [x] <+: drains₁ := by
    refine (List.prefix_or_prefix_of_prefix h₁ hx).resolve_left fun hshort => ?_
    obtain ⟨e, he, hready⟩ := hflag
    rcases List.mem_append.mp (hshort.subset he) with hin | hin
    · exact hbefore e hin hready
    · rw [List.mem_singleton.mp hin] at hready
      exact hdiffer hready
  obtain ⟨rest, rfl⟩ := hpassed.trans hgrow
  have hrest : rest <+: stores₂ := by
    rw [List.append_cons stores₁ x stores₂] at h₂
    exact (List.prefix_append_right_inj _).mp h₂
  have hnone : newest? rest x.addr = none := by
    have hempty : entriesAt x.addr rest = [] := List.filter_eq_nil_iff.mpr fun e he hea =>
      hlast e (hrest.subset he) (of_decide_eq_true hea)
    rw [newest?_eq_entriesAt, hempty]
    rfl
  rw [newest?_append, hnone, Option.none_or, newest?_append_singleton, if_pos rfl]

/-- The same for writes in any order, when a fence stands between the only store to `x.addr`
    and those to the flag: `before` are the events up to the fence. -/
theorem newest?_of_fence {depth : Fin n → ℕ+} {mode : Fin n → DrainMode} {rng : Fin n → ℕ → ℕ}
    {acts : List (TsoAction n)} {p : Fin n} {x : SBEntry} {ready : Word}
    {before after seen later rest : List (TsoEvent n)} {ev ev' : TsoEvent n}
    (hfenced : (TsoSystem.newBuffers depth mode rng).trace acts = before ++ .fenced p :: after)
    (hseen : (TsoSystem.newBuffers depth mode rng).trace acts =
      seen ++ ev :: (later ++ ev' :: rest))
    (hflag : ∃ e ∈ drainsOf p seen, e.addr = ready) (hx : x ∈ storesOf p before)
    (hbefore : ∀ e ∈ storesOf p before, e.addr ≠ ready)
    (honce : ∀ e ∈ storesOf p ((TsoSystem.newBuffers depth mode rng).trace acts),
      e.addr = x.addr → e.val = x.val) :
    newest? (drainsOf p (seen ++ ev :: later)) x.addr = some x.val := by
  have hlater : (TsoSystem.newBuffers depth mode rng).trace acts =
      (seen ++ ev :: later) ++ ev' :: rest := by
    rw [hseen]
    simp
  -- the flag has been stored by now, so the fence has returned
  have hpassed : before <+: seen := by
    refine (List.prefix_or_prefix_of_prefix (hfenced ▸ List.prefix_append _ _)
      (hseen ▸ List.prefix_append _ _)).resolve_right ?_
    rintro ⟨between, rfl⟩
    obtain ⟨e, he, hready⟩ := hflag
    refine hbefore e ?_ hready
    rw [storesOf_append]
    exact List.mem_append_left _ (drain_mem_of_trace hseen he)
  obtain ⟨between, rfl⟩ := hpassed
  refine newest?_eq_of_forall ⟨x, ?_, rfl⟩ fun e he => honce e ?_
  · rw [List.append_assoc, drainsOf_append]
    exact List.mem_append_left _ ((fenced_of_trace hfenced).mem_iff.mpr hx)
  · rw [hlater, storesOf_append]
    exact List.mem_append_left _ (drain_mem_of_trace hlater he)

/-- **Message passing.** In every interleaving of any number of cores with buffers of any depth
    and mode: if a core publishes data behind a flag, with a FIFO buffer, or by its only store to
    the data and an `mfence` in between, then after any other core has seen the flag raised,
    any other core that loads the data gets what was published. -/
theorem message_passing (n : ℕ) (depth : Fin n → ℕ+) (mode : Fin n → DrainMode)
    (rng : Fin n → ℕ → ℕ) (acts : List (TsoAction n)) {p : Fin n} {data ready v : Word}
    (hpub : Publishes p (mode p) data ready v ((TsoSystem.newBuffers depth mode rng).trace acts))
    {c d : Fin n} (hc : c ≠ p) (hd : d ≠ p) {t₁ t₂ t₃ : List (TsoEvent n)} {r x : Word}
    (hloads : (TsoSystem.newBuffers depth mode rng).trace acts =
      t₁ ++ .loaded c ready r :: (t₂ ++ .loaded d data x :: t₃))
    (hr : r ≠ 0) : x = v := by
  obtain ⟨hdiffer, ⟨hdata, hready⟩, u₁, u₂, hsplit, hbefore, hlast, horder⟩ := hpub
  have hsecond : (TsoSystem.newBuffers depth mode rng).trace acts =
      (t₁ ++ .loaded c ready r :: t₂) ++ .loaded d data x :: t₃ := by
    rw [hloads]
    simp
  have hflag : ∃ e ∈ drainsOf p t₁, e.addr = ready := by
    rw [loaded_of_trace hc hloads (hloads ▸ hready).of_append] at hr
    exact exists_mem_of_newest?_ne_zero hr
  have hx := loaded_of_trace hd hsecond (hsecond ▸ hdata).of_append
  have hstores : storesOf p ((TsoSystem.newBuffers depth mode rng).trace acts) =
      storesOf p u₁ ++ ⟨data, v⟩ :: storesOf p u₂ := by
    rw [hsplit, storesOf_append]
    simp [storesOf]
  suffices hnew : newest? (drainsOf p (t₁ ++ .loaded c ready r :: t₂)) data = some v by
    rw [hx, hnew]
    rfl
  rcases horder with hfifo | ⟨honce, w₁, w₂, rfl, hfence⟩
  · have hwritten : drainsOf p ((TsoSystem.newBuffers depth mode rng).trace acts) <+:
        storesOf p u₁ ++ ⟨data, v⟩ :: storesOf p u₂ :=
      hstores ▸ drains_prefix_of_fifo hfifo acts
    have hpart : ∀ t t', (TsoSystem.newBuffers depth mode rng).trace acts = t ++ t' →
        drainsOf p t <+: storesOf p u₁ ++ ⟨data, v⟩ :: storesOf p u₂ := by
      intro t t' htr
      refine List.IsPrefix.trans ?_ hwritten
      rw [htr, drainsOf_append]
      exact List.prefix_append _ _
    have hgrow : drainsOf p t₁ <+: drainsOf p (t₁ ++ .loaded c ready r :: t₂) := by
      rw [drainsOf_append]
      exact List.prefix_append _ _
    exact newest?_of_prefix (x := ⟨data, v⟩) (hpart _ _ hloads) (hpart _ _ hsecond) hgrow hflag
      hdiffer hbefore hlast
  · have hfenced : (TsoSystem.newBuffers depth mode rng).trace acts =
        (u₁ ++ .stored p ⟨data, v⟩ :: w₁) ++ .fenced p :: w₂ := by
      rw [hsplit]
      simp
    have hstored : storesOf p (u₁ ++ .stored p ⟨data, v⟩ :: w₁) =
        storesOf p u₁ ++ ⟨data, v⟩ :: storesOf p w₁ := by
      rw [storesOf_append]
      simp [storesOf]
    refine newest?_of_fence (x := ⟨data, v⟩) hfenced hloads hflag ?_ ?_ ?_
    · rw [hstored]
      simp
    · rw [hstored, List.forall_mem_append, List.forall_mem_cons]
      exact ⟨hbefore, hdiffer, hfence⟩
    · rw [hstores, List.forall_mem_append, List.forall_mem_cons]
      exact ⟨fun e he hedata => absurd hedata (honce e he), fun _ => rfl,
        fun e he hedata => absurd hedata (hlast e he)⟩

/-- A producer behind a relaxed buffer with a fence, and a reader that looks twice. -/
def fencedPublication (p c : Fin n) : List (TsoAction n) :=
  [.store p 0x3000#32 42, .load c (.byIndex c) 0x3040#32, .mfence p, .resume p (.byIndex p),
    .resume p (.byIndex p), .store p 0x3040#32 1, .drainOne p (.byIndex p),
    .load c (.byIndex c) 0x3040#32, .load c (.byIndex c) 0x3000#32]

/-- The reader sees the flag down, then raised, and then the data. -/
theorem fencedPublication_passes :
    let tr := (TsoSystem.newBuffers (fun _ : Fin 2 => 8) (fun _ => .relaxed)
      fun _ _ => 1).trace (fencedPublication 0 1)
    tr.filter (fun ev => ev matches .loaded _ _ _) = [.loaded 1 0x3040#32 0,
      .loaded 1 0x3040#32 1, .loaded 1 0x3000#32 42] ∧
    ∀ t₁ t₂ t₃ r x, tr = t₁ ++ .loaded 1 0x3040#32 r :: (t₂ ++ .loaded 1 0x3000#32 x :: t₃) →
      r ≠ 0 → x = 42 := by
  intro tr
  have htr : tr = [.stored 0 ⟨0x3000#32, 42⟩, .loaded 1 0x3040#32 0, .written 0 ⟨0x3000#32, 42⟩,
      .fenced 0, .stored 0 ⟨0x3040#32, 1⟩, .written 0 ⟨0x3040#32, 1⟩, .loaded 1 0x3040#32 1,
      .loaded 1 0x3000#32 42] := by
    decide +kernel
  have hpub : Publishes 0 .relaxed 0x3000#32 0x3040#32 42 tr := by
    rw [htr]
    refine ⟨by decide, ⟨?_, ?_⟩, [], _, rfl, by simp [storesOf], by simp [storesOf], Or.inr
      ⟨by simp [storesOf], [.loaded 1 0x3040#32 0, .written 0 ⟨0x3000#32, 42⟩], _, rfl,
        by simp [storesOf]⟩⟩
    · simp [StoredOnlyBy]
    · simp [StoredOnlyBy]
  refine ⟨by rw [htr]; rfl, fun t₁ t₂ t₃ r x hloads hr => ?_⟩
  exact message_passing 2 _ _ _ (fencedPublication 0 1) hpub (by decide) (by decide) hloads hr

end MesiCoherence
