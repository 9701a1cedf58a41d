import MesiCoherence.Tso.Fifo

/-!
# Same-address order of a core's own stores

`store` promises that older duplicates drain in order. In FIFO mode and in a fence
this holds; a `RELAXED` drain may pick an entry with an older duplicate in front of
it. The owner's view of an address that nobody else writes is right along a run
exactly when no `drain_one` of the run does so.
-/

namespace MesiCoherence

variable {n : ℕ}

/-- The entries for one address, in order. -/
def entriesAt (a : Word) (es : List SBEntry) : List SBEntry := es.filter (fun e => e.addr = a)

/-- If core `c` calls `drain_one`, the entry it picks has no older entry to the same
    address in front of it, other than copies of itself. -/
def DrainsInOrder (c : Fin n) (s : TsoSystem n) (act : TsoAction n) : Prop :=
  s.IsDrain c act → ∀ e, (s.sb c).buf[(s.sb c).drainIndex]? = some e →
    ∀ e' ∈ (s.sb c).buf.take (s.sb c).drainIndex, e'.addr = e.addr → e' = e

/-- Every coherent write to `a` so far came from the buffer of core `c`. -/
def OwnedBy (c : Fin n) (a : Word) (tr : List (TsoEvent n)) : Prop :=
  ∀ ev ∈ tr, ∀ e, ev.coherentWrite? = some e → e.addr = a → ev = .written c e

/-- The value of the most recent store of core `c` to `a`, 0 if there is none. -/
def ownValue (c : Fin n) (a : Word) (tr : List (TsoEvent n)) : Word :=
  (newest? (storesOf c tr) a).getD 0

/-- Core `c` sees its own stores in program order: its stores to each address are its
    coherent writes followed by its buffer, and for an address that no other core
    writes a load returns its most recent store, which is the coherent value once the
    buffer is empty. -/
structure OwnerOrdered (c : Fin n) (tr : List (TsoEvent n)) (s : TsoSystem n) : Prop where
  order : ∀ a, entriesAt a (drainsOf c tr ++ (s.sb c).buf) = entriesAt a (storesOf c tr)
  load : ∀ a, OwnedBy c a tr → s.phase c = .idle → ∀ visit,
    (s.step (.load c visit a)).2 = some (.loaded c a (ownValue c a tr))
  settled : ∀ a, OwnedBy c a tr → (s.sb c).buf = [] →
    ∀ d, ∀ visit : VisitOrder d, (s.sys.read visit a).2 = ownValue c a tr

theorem entriesAt_append (a : Word) (es fs : List SBEntry) :
    entriesAt a (es ++ fs) = entriesAt a es ++ entriesAt a fs := List.filter_append _ _

theorem cons_eq_append_singleton_iff {α : Type*} (x : α) (l : List α) :
    x :: l = l ++ [x] ↔ ∀ y ∈ l, y = x := by
  induction l with
  | nil => simp
  | cons z l ih =>
    rw [List.cons_append, List.cons.injEq, List.forall_mem_cons]
    constructor
    · rintro ⟨rfl, h⟩
      exact ⟨rfl, ih.mp h⟩
    · rintro ⟨rfl, h⟩
      exact ⟨rfl, ih.mpr h⟩

/-- Taking an entry out of a buffer first keeps the order at every address exactly
    when all older entries to its address are copies of it. -/
theorem entriesAt_cons_eraseIdx_iff {es : List SBEntry} {k : ℕ} {e : SBEntry}
    (he : es[k]? = some e) :
    (∀ a, entriesAt a (e :: es.eraseIdx k) = entriesAt a es) ↔
      ∀ e' ∈ es.take k, e'.addr = e.addr → e' = e := by
  obtain ⟨hk, rfl⟩ := List.getElem?_eq_some_iff.mp he
  have hsplit : es = es.take k ++ es[k] :: es.drop (k + 1) := by
    rw [← List.drop_eq_getElem_cons hk, List.take_append_drop]
  have hone : ∀ a, entriesAt a (es[k] :: es.eraseIdx k) = entriesAt a es ↔
      (es[k].addr = a → ∀ e' ∈ entriesAt a (es.take k), e' = es[k]) := by
    intro a
    rw [← cons_eq_append_singleton_iff]
    conv_lhs => rhs; rw [hsplit]
    rw [List.eraseIdx_eq_take_drop_succ]
    by_cases ha : es[k].addr = a
    · simp only [entriesAt, List.filter_cons, List.filter_append, ha, decide_true, if_true,
        true_implies]
      rw [← List.cons_append, List.append_cons _ es[k]]
      exact List.append_left_inj _
    · simp only [entriesAt, List.filter_cons, List.filter_append, ha, decide_false,
        Bool.false_eq_true, if_false, false_implies]
  constructor
  · intro h e' he' haddr
    exact (hone es[k].addr).mp (h _) rfl e' (List.mem_filter.mpr ⟨he', by simpa using haddr⟩)
  · intro h a
    refine (hone a).mpr fun ha e' he' => ?_
    obtain ⟨hmem, haddr⟩ := List.mem_filter.mp he'
    exact h e' hmem ((of_decide_eq_true haddr).trans ha.symm)

/-- A removal keeps the order at every address exactly when it skips no older
    duplicate. -/
theorem entriesAt_remove_iff {stores drains buf : List SBEntry} {k : ℕ} {e : SBEntry}
    (he : buf[k]? = some e)
    (horder : ∀ a, entriesAt a (drains ++ buf) = entriesAt a stores) :
    (∀ a, entriesAt a (drains ++ [e] ++ buf.eraseIdx k) = entriesAt a stores) ↔
      ∀ e' ∈ buf.take k, e'.addr = e.addr → e' = e := by
  rw [← entriesAt_cons_eraseIdx_iff he]
  refine forall_congr' fun a => ?_
  rw [← horder a, List.append_assoc, List.singleton_append, entriesAt_append, entriesAt_append,
    List.append_right_inj]

theorem newest?_eq_entriesAt (es : List SBEntry) (a : Word) :
    newest? es a = (entriesAt a es).getLast?.map SBEntry.val := rfl

theorem newest?_append (es fs : List SBEntry) (a : Word) :
    newest? (es ++ fs) a = (newest? fs a).or (newest? es a) := by
  rw [newest?_eq_entriesAt, newest?_eq_entriesAt, newest?_eq_entriesAt, entriesAt_append,
    List.getLast?_append, Option.map_or]

/-- At an address that only the buffer of `c` writes, the coherent value is the last
    entry that buffer wrote. -/
theorem OwnedBy.lastWrite_eq {c : Fin n} {a : Word} {tr : List (TsoEvent n)}
    (h : OwnedBy c a tr) : lastWrite tr a = (newest? (drainsOf c tr) a).getD 0 := by
  have hentries : entriesAt a (tr.filterMap TsoEvent.coherentWrite?) =
      entriesAt a (drainsOf c tr) := by
    unfold entriesAt drainsOf
    rw [List.filter_filterMap, List.filter_filterMap]
    refine List.filterMap_congr fun ev hev => ?_
    have hown := h ev hev
    cases ev with
    | written d e =>
      by_cases ha : e.addr = a
      · obtain ⟨rfl, -⟩ := TsoEvent.written.inj (hown e rfl ha)
        simp [TsoEvent.coherentWrite?]
      · by_cases hd : d = c
        · simp [TsoEvent.coherentWrite?, hd]
        · simp [TsoEvent.coherentWrite?, hd, ha]
    | direct d w =>
      cases w with
      | none => rfl
      | some e =>
        by_cases ha : e.addr = a
        · exact absurd (hown e rfl ha) (by simp)
        · simp [TsoEvent.coherentWrite?, ha]
    | stored => rfl
    | loaded => rfl
    | fenced => rfl
  rw [lastWrite, newest?_eq_entriesAt, hentries, newest?_eq_entriesAt]

/-- Program order at every address is all that the owner's view needs. -/
theorem BufferInv.ownerOrdered {sb₀ : Fin n → StoreBuffer} {tr : List (TsoEvent n)}
    {s : TsoSystem n} (h : BufferInv sb₀ tr s) {c : Fin n}
    (horder : ∀ a, entriesAt a (drainsOf c tr ++ (s.sb c).buf) = entriesAt a (storesOf c tr)) :
    OwnerOrdered c tr s := by
  have hown : ∀ a, OwnedBy c a tr →
      (newest? (s.sb c).buf a).getD (lastWrite tr a) = ownValue c a tr := by
    intro a ha
    rw [ha.lastWrite_eq, ownValue, newest?_eq_entriesAt (storesOf c tr), ← horder a,
      ← newest?_eq_entriesAt, newest?_append]
    cases newest? (s.sb c).buf a <;> rfl
  refine ⟨horder, fun a ha hidle visit => ?_, fun a ha hnil d visit => ?_⟩
  · rw [h.load hidle visit a, hown a ha]
  · rw [(h.represents.read visit a).2, ← hown a ha, hnil]
    rfl

/-- A core's buffer writes an entry only in its fence or through `drain_one`. -/
theorem TsoSystem.Effect.isDrain {s s' : TsoSystem n} {act : TsoAction n}
    {o : Option (TsoEvent n)} (h : s.Effect act s' o) {c : Fin n} {e : SBEntry}
    (he : drainsOf c o.toList = [e]) : s.IsDrain c act ∨ s.phase c = .fencing := by
  cases h with
  | written _ d e' sb' sys' hact =>
    by_cases hd : d = c
    · exact hd ▸ hact
    · simp [drainsOf, hd] at he
  | stutter => cases he
  | entered => cases he
  | left => cases he
  | fenced => cases he
  | stored => cases he
  | bypassed => cases he
  | fetched => cases he
  | direct => cases he

theorem TsoSystem.IsDrain.not_fencing {s : TsoSystem n} {c : Fin n} {act : TsoAction n}
    (h : s.IsDrain c act) : s.phase c ≠ .fencing := by
  cases act with
  | drainOne d visit => rw [h.2]; decide
  | resume d visit => rcases h.2 with hp | hp <;> rw [hp] <;> decide
  | store => exact absurd h id
  | load => exact absurd h id
  | drainAll => exact absurd h id
  | mfence => exact absurd h id
  | direct => exact absurd h id

/-- A step that drains in order keeps the program order at every address. -/
theorem BufferInv.order_step {sb₀ : Fin n → StoreBuffer} {tr : List (TsoEvent n)}
    {s : TsoSystem n} (h : BufferInv sb₀ tr s) {c : Fin n} {act : TsoAction n}
    (horder : ∀ a, entriesAt a (drainsOf c tr ++ (s.sb c).buf) = entriesAt a (storesOf c tr))
    (hin : DrainsInOrder c s act) (a : Word) :
    entriesAt a (drainsOf c (tr ++ (s.step act).2.toList) ++ ((s.step act).1.sb c).buf) =
      entriesAt a (storesOf c (tr ++ (s.step act).2.toList)) := by
  have heff := h.effect act
  have hdrain := fun e => heff.isDrain (c := c) (e := e)
  have hcore := heff.core c
  rw [drainsOf_append, storesOf_append]
  generalize (s.step act).1.sb c = sb' at hcore ⊢
  generalize (s.step act).1.phase c = p' at hcore
  generalize storesOf c (s.step act).2.toList = st at hcore ⊢
  generalize drainsOf c (s.step act).2.toList = dr at hcore hdrain ⊢
  cases hcore with
  | keep _ _ _ _ hb _ _ => simp only [List.append_nil, hb, horder a]
  | push e hidle =>
    simp only [StoreBuffer.pushBack, List.append_nil]
    rw [← List.append_assoc, entriesAt_append, horder a, entriesAt_append]
  | remove e k _ hk he hsb =>
    rw [hsb.buf, List.append_nil]
    refine (entriesAt_remove_iff he horder).mpr ?_ a
    rcases hdrain e rfl with hd | hf
    · rw [if_neg hd.not_fencing] at hk
      subst hk
      exact hin hd e he
    · rw [if_pos hf] at hk
      simp [hk]

/-- A `drain_one` that skips an older duplicate breaks the program order. -/
theorem order_broken_of_skip {tr : List (TsoEvent n)}
    {s : TsoSystem n} {c : Fin n} {act : TsoAction n}
    (horder : ∀ a, entriesAt a (drainsOf c tr ++ (s.sb c).buf) = entriesAt a (storesOf c tr))
    (hskip : ¬ DrainsInOrder c s act) :
    ¬ ∀ a, entriesAt a (drainsOf c (tr ++ (s.step act).2.toList) ++ ((s.step act).1.sb c).buf) =
      entriesAt a (storesOf c (tr ++ (s.step act).2.toList)) := by
  intro hafter
  refine hskip fun hact e he => (entriesAt_remove_iff he horder).mp fun a => ?_
  obtain ⟨hev, hbuf⟩ := TsoSystem.step_of_isDrain hact he
  have := hafter a
  rw [hev, hbuf, drainsOf_append, storesOf_append] at this
  simpa [drainsOf, storesOf] using this

/-- **Same-address order.** For every interleaving of any number of cores with buffers
    of any depth, mode and random choices: core `c` sees its own stores, which are those
    that the actions make it issue, in program order in every state of the run exactly when
    no `drain_one` of its buffer picks an entry with a different older entry to the same
    address in front of it. -/
theorem owner_ordered_iff (n : ℕ) (depth : Fin n → ℕ+) (mode : Fin n → DrainMode)
    (rng : Fin n → ℕ → ℕ) (c : Fin n) (acts : List (TsoAction n)) :
    let s₀ : TsoSystem n := .new fun c => .new (depth c) (mode c) (rng c)
    (∀ acts', acts' <+: acts → storesOf c (s₀.trace acts') = s₀.issuedStores c acts' ∧
      OwnerOrdered c (s₀.trace acts') ((TsoSystem.machine n).run s₀ acts')) ↔
    (TsoSystem.machine n).AllSteps (DrainsInOrder c) s₀ acts := by
  intro s₀
  have hrule := (TsoSystem.machine n).allSteps_iff_history (s := s₀) (C := DrainsInOrder c)
    (P := fun os s => BufferInv (fun c => .new (depth c) (mode c) (rng c)) os.reduceOption s ∧
      OwnerOrdered c os.reduceOption s) ?_ ?_ ?_ acts
  · rw [hrule]
    refine forall_congr' fun acts' => forall_congr' fun _ => ?_
    rw [and_iff_right (storesOf_trace c s₀ acts')]
    exact (and_iff_right (bufferInv_trace depth mode rng acts')).symm
  · have hb := bufferInv_trace depth mode rng []
    exact ⟨hb, hb.ownerOrdered fun _ => rfl⟩
  · rintro os s act ⟨hb, ho⟩ hin
    rw [List.reduceOption_append, List.reduceOption_singleton]
    exact ⟨hb.step act, (hb.step act).ownerOrdered (hb.order_step ho.order hin)⟩
  · rintro os s act ⟨hb, ho⟩ hskip ⟨-, hafter⟩
    rw [List.reduceOption_append, List.reduceOption_singleton] at hafter
    exact order_broken_of_skip ho.order hskip hafter.order

/-- Core `c` stores twice to one address, drains once, loads, and fences. -/
def overtakingRun {n : ℕ} (c : Fin n) : List (TsoAction n) :=
  [.store c 0x1000#32 1, .store c 0x1000#32 2, .drainOne c (.byIndex c),
    .load c (.byIndex c) 0x1000#32, .mfence c, .resume c (.byIndex c), .resume c (.byIndex c)]

/-- With the first output of the generator seeded with 3, which is odd, a `RELAXED`
    drain writes the newer of two stores first: the owner then loads the older value,
    and after the fence the older value is the coherent one. -/
theorem relaxed_drain_overtakes :
    let s₀ : TsoSystem 2 := .new fun _ => .new 8 .relaxed fun _ => 10307413207671831467
    let s := (TsoSystem.machine 2).run s₀ (overtakingRun 0)
    s₀.trace (overtakingRun 0) =
      [.stored 0 ⟨0x1000#32, 1⟩, .stored 0 ⟨0x1000#32, 2⟩, .written 0 ⟨0x1000#32, 2⟩,
        .loaded 0 0x1000#32 1, .written 0 ⟨0x1000#32, 1⟩, .fenced 0] ∧
    (s.sb 0).buf = [] ∧ (s.sys.read (.byIndex 1) 0x1000#32).2 = 1 ∧
    ¬ OwnerOrdered 0 (s₀.trace (overtakingRun 0)) s := by
  refine ⟨by decide +kernel, by decide +kernel, by decide +kernel, fun h => ?_⟩
  exact absurd (h.order 0x1000#32) (by decide +kernel)

end MesiCoherence
