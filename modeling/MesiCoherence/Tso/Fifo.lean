import MesiCoherence.Tso.Effects

/-!
# FIFO store buffers

For any interleaving of the cores' steps: a core's stores reach coherent memory in
program order, none is lost or duplicated, the buffer respects its depth between
operations, and a load returns the owner's newest buffered store or else the most
recent coherent write.
-/

namespace MesiCoherence

variable {n : ℕ}

theorem storesOf_append (c : Fin n) (tr tr' : List (TsoEvent n)) :
    storesOf c (tr ++ tr') = storesOf c tr ++ storesOf c tr' := List.filterMap_append

theorem drainsOf_append (c : Fin n) (tr tr' : List (TsoEvent n)) :
    drainsOf c (tr ++ tr') = drainsOf c tr ++ drainsOf c tr' := List.filterMap_append

/-- Removing the entry at an index shortens a buffer by one. -/
theorem length_eraseIdx_of_getElem? {α : Type*} {l : List α} {k : ℕ} {e : α}
    (h : l[k]? = some e) : (l.eraseIdx k).length + 1 = l.length := by
  obtain ⟨hlt, -⟩ := List.getElem?_eq_some_iff.mp h
  rw [List.length_eraseIdx_of_lt hlt]
  omega

/-- One core's buffer in any drain mode: `stores` were issued and `drains` written. -/
structure CoreInv (sb₀ : StoreBuffer) (stores drains : List SBEntry) (sb : StoreBuffer)
    (p : Phase) : Prop where
  depth : sb.depth = sb₀.depth
  mode : sb.mode = sb₀.mode
  storing : p = .storing → sb.buf.length = sb.depth + 1
  bounded : p ≠ .storing → sb.buf.length ≤ sb.depth
  drained : sb.drained = drains.length
  conserved : drains.length + sb.buf.length = stores.length

theorem CoreInv.step {sb₀ sb sb' : StoreBuffer} {stores drains st dr : List SBEntry}
    {p p' : Phase} (h : CoreInv sb₀ stores drains sb p)
    (heff : TsoSystem.CoreEffect sb p sb' p' st dr) :
    CoreInv sb₀ (stores ++ st) (drains ++ dr) sb' p' := by
  obtain ⟨hdepth, hmode, hstoring, hbounded, hdrained, hconserved⟩ := h
  cases heff with
  | keep _ _ hd hm hb hdr hp =>
    refine ⟨hd.trans hdepth, hm.trans hmode, ?_, ?_, by simp [hdr, hdrained],
      by simp [hb, hconserved]⟩
    · intro hs
      rw [hb, hd]
      rcases hp with rfl | ⟨_, hne⟩
      · exact hstoring hs
      · exact absurd hs hne
    · intro hs
      rw [hb, hd]
      rcases hp with rfl | ⟨hne, _⟩
      · exact hbounded hs
      · exact hbounded hne
  | push e hidle =>
    have hb := hbounded (by rw [hidle]; decide)
    refine ⟨hdepth, hmode, ?_, ?_, by simpa [StoreBuffer.pushBack] using hdrained, ?_⟩
    · intro hs
      split at hs
      · next ho =>
        simp only [StoreBuffer.overflows, StoreBuffer.pushBack, List.length_append,
          List.length_singleton, decide_eq_true_eq] at ho ⊢
        omega
      · cases hs
    · intro hs
      split at hs
      · exact absurd rfl hs
      · next ho =>
        simp only [StoreBuffer.overflows, decide_eq_true_eq] at ho
        exact Nat.le_of_not_lt ho
    · simp only [StoreBuffer.pushBack, List.length_append, List.length_singleton, List.append_nil]
      omega
  | remove e k _ hk he hsb =>
    have hlen := length_eraseIdx_of_getElem? he
    refine ⟨hsb.depth.trans hdepth, hsb.mode.trans hmode, ?_, ?_, ?_, ?_⟩
    · intro hs
      cases p <;> simp [TsoSystem.afterDrain] at hs
    · intro _
      rw [hsb.buf, hsb.depth]
      by_cases hs : p = .storing
      · have := hstoring hs
        omega
      · have := hbounded hs
        omega
    · rw [hsb.drained, hdrained]
      simp
    · rw [hsb.buf]
      simp only [List.length_append, List.length_singleton, List.append_nil]
      omega

/-- What holds along every run in every drain mode. -/
structure BufferInv (sb₀ : Fin n → StoreBuffer) (tr : List (TsoEvent n)) (s : TsoSystem n) :
    Prop where
  represents : s.sys.Represents (lastWrite tr)
  core : ∀ c, CoreInv (sb₀ c) (storesOf c tr) (drainsOf c tr) (s.sb c) (s.phase c)

namespace BufferInv

variable {sb₀ : Fin n → StoreBuffer} {tr : List (TsoEvent n)} {s : TsoSystem n}

theorem effect (h : BufferInv sb₀ tr s) (act : TsoAction n) :
    s.Effect act (s.step act).1 (s.step act).2 := by
  refine s.step_effect act fun c hc hnil => ?_
  have hl := (h.core c).storing hc
  rw [hnil] at hl
  simp at hl

theorem step (h : BufferInv sb₀ tr s) (act : TsoAction n) :
    BufferInv sb₀ (tr ++ (s.step act).2.toList) (s.step act).1 := by
  refine ⟨(h.effect act).represents h.represents, fun c => ?_⟩
  rw [storesOf_append, drainsOf_append]
  exact (h.core c).step ((h.effect act).core c)

/-- A load by an idle core returns its newest buffered store, or the most recent
    coherent write. -/
theorem load (h : BufferInv sb₀ tr s) {c : Fin n} (hidle : s.phase c = .idle)
    (visit : VisitOrder c) (a : Word) :
    (s.step (.load c visit a)).2 =
      some (.loaded c a ((newest? (s.sb c).buf a).getD (lastWrite tr a))) := by
  simp only [TsoSystem.step, hidle, if_true, StoreBuffer.load, StoreBuffer.search_eq_newest?]
  cases hv : newest? (s.sb c).buf a with
  | some v => rfl
  | none => rw [Option.getD_none, (h.represents.read visit a).2]

end BufferInv

/-- The invariant holds along every run from empty buffers. -/
theorem bufferInv_trace (depth : Fin n → ℕ+) (mode : Fin n → DrainMode) (rng : Fin n → ℕ → ℕ)
    (acts : List (TsoAction n)) :
    BufferInv (fun c => .new (depth c) (mode c) (rng c))
      ((TsoSystem.new fun c => .new (depth c) (mode c) (rng c)).trace acts)
      ((TsoSystem.machine n).run (.new fun c => .new (depth c) (mode c) (rng c)) acts) := by
  refine TsoSystem.trace_invariant _ ⟨Coherent.newOver n .new, fun c => ?_⟩
    (fun tr s act h => h.step act) acts
  exact ⟨rfl, rfl, (fun h => by cases h), (fun _ => Nat.zero_le _), rfl, rfl⟩

/-- In FIFO mode a step keeps "written, then buffered" equal to the program order. -/
theorem CoreInv.fifo_step {sb₀ sb sb' : StoreBuffer} {stores drains st dr : List SBEntry}
    {p p' : Phase} (h : CoreInv sb₀ stores drains sb p) (hfifo : sb₀.mode = .fifo)
    (heff : TsoSystem.CoreEffect sb p sb' p' st dr) (horder : stores = drains ++ sb.buf) :
    stores ++ st = drains ++ dr ++ sb'.buf := by
  cases heff with
  | keep _ _ _ _ hb _ _ => simp [hb, horder]
  | push e hidle => simp [StoreBuffer.pushBack, horder]
  | remove e k _ hk he hsb =>
    have hk0 : k = 0 := by
      rw [hk, sb.drainIndex_fifo (h.mode.trans hfifo), ite_self]
    subst hk0
    rw [horder, hsb.front he]
    simp

/-- FIFO buffers of the given depths and seeds over a fresh system. -/
def TsoSystem.newFifo (depth : Fin n → ℕ+) (rng : Fin n → ℕ → ℕ) : TsoSystem n :=
  .new fun c => .new (depth c) .fifo (rng c)

theorem bufferInv_fifo (depth : Fin n → ℕ+) (rng : Fin n → ℕ → ℕ) (acts : List (TsoAction n)) :
    BufferInv (fun c => .new (depth c) .fifo (rng c)) ((TsoSystem.newFifo depth rng).trace acts)
      ((TsoSystem.machine n).run (.newFifo depth rng) acts) :=
  bufferInv_trace depth (fun _ => .fifo) rng acts

/-- In FIFO mode the stores of a core are its coherent writes followed by its buffer. -/
theorem fifo_order (depth : Fin n → ℕ+) (rng : Fin n → ℕ → ℕ) (acts : List (TsoAction n))
    (c : Fin n) :
    storesOf c ((TsoSystem.newFifo depth rng).trace acts) =
      drainsOf c ((TsoSystem.newFifo depth rng).trace acts) ++
        (((TsoSystem.machine n).run (.newFifo depth rng) acts).sb c).buf := by
  refine (TsoSystem.trace_invariant (.newFifo depth rng)
    (P := fun tr s => BufferInv (fun c => .new (depth c) .fifo (rng c)) tr s ∧
      storesOf c tr = drainsOf c tr ++ (s.sb c).buf) ⟨?_, rfl⟩ ?_ acts).2
  · exact bufferInv_fifo depth rng []
  · rintro tr s act ⟨h, horder⟩
    refine ⟨h.step act, ?_⟩
    rw [storesOf_append, drainsOf_append]
    exact (h.core c).fifo_step rfl ((h.effect act).core c) horder

/-- The next drain of a core in FIFO mode, in the background or inside a call, writes its oldest
    entry. -/
theorem CoreInv.drains_oldest {sb₀ : StoreBuffer} {stores drains : List SBEntry} {s : TsoSystem n}
    {c : Fin n} (h : CoreInv sb₀ stores drains (s.sb c) (s.phase c)) (hfifo : sb₀.mode = .fifo)
    (visit : VisitOrder c) {e : SBEntry} {rest : List SBEntry} (hbuf : (s.sb c).buf = e :: rest) :
    (s.step (if s.phase c = .idle then .drainOne c visit else .resume c visit)).2 =
      some (.written c e) := by
  have hfront : (s.sb c).buf[(s.sb c).drainIndex]? = some e := by
    rw [(s.sb c).drainIndex_fifo (h.mode.trans hfifo), hbuf]
    rfl
  cases hphase : s.phase c with
  | idle =>
    have hact : s.IsDrain c (.drainOne c visit) := ⟨rfl, hphase⟩
    exact (TsoSystem.step_of_isDrain hact hfront).1
  | storing =>
    have hact : s.IsDrain c (.resume c visit) := ⟨rfl, Or.inl hphase⟩
    exact (TsoSystem.step_of_isDrain hact hfront).1
  | draining =>
    have hact : s.IsDrain c (.resume c visit) := ⟨rfl, Or.inr hphase⟩
    exact (TsoSystem.step_of_isDrain hact hfront).1
  | fencing => simp [TsoSystem.step, hphase, hbuf, StoreBuffer.fenceOne, TsoSystem.drainWith]

/-- **FIFO TSO.** Along every interleaving of any number of cores with FIFO buffers of
    any depth: the stores that the actions make a core issue, in program order, are its
    coherent writes followed by its buffer, oldest first; outside the overflow drain of a
    `store` the buffer keeps to its depth; drained and buffered entries are all stores; a
    load returns the owner's newest buffered store to the address, or else the most recent
    coherent write to it by any core; the next drain of a core writes its oldest entry; and
    a call around the buffers acts on the most recent coherent writes. -/
theorem fifo_tso (n : ℕ) (depth : Fin n → ℕ+) (rng : Fin n → ℕ → ℕ) (acts : List (TsoAction n)) :
    let s₀ := TsoSystem.newFifo depth rng
    let s := (TsoSystem.machine n).run s₀ acts
    let tr := s₀.trace acts
    (∀ c, s₀.issuedStores c acts = drainsOf c tr ++ (s.sb c).buf) ∧
    (∀ c, s.phase c ≠ .storing → (s.sb c).buf.length ≤ depth c) ∧
    (∀ c, (s.sb c).drained + (s.sb c).buf.length = (s₀.issuedStores c acts).length) ∧
    (∀ c visit a, s.phase c = .idle → (s.step (.load c visit a)).2 =
      some (.loaded c a ((newest? (s.sb c).buf a).getD (lastWrite tr a)))) ∧
    (∀ c visit e rest, (s.sb c).buf = e :: rest →
      (s.step (if s.phase c = .idle then .drainOne c visit else .resume c visit)).2 =
        some (.written c e)) ∧
    (∀ call, (s.step (.direct call)).2 =
      some (.direct call.core (storedBy call.access (call.access.exec (lastWrite tr)).2))) := by
  intro s₀ s tr
  have h := bufferInv_fifo depth rng acts
  have hstores : ∀ c, storesOf c tr = s₀.issuedStores c acts := fun c => storesOf_trace c s₀ acts
  refine ⟨fun c => ?_, fun c hp => ?_, fun c => ?_, fun c visit a hidle => h.load hidle visit a,
    fun c visit e rest hbuf => (h.core c).drains_oldest rfl visit hbuf, fun call => ?_⟩
  · rw [← hstores c]
    exact fifo_order depth rng acts c
  · have hb := (h.core c).bounded hp
    rwa [(h.core c).depth] at hb
  · have hd := (h.core c).drained
    have hc := (h.core c).conserved
    rw [← hd] at hc
    rw [← hstores c]
    exact hc
  · rw [← (h.represents.exec call).2]
    rfl

/-- Two cores with room for one entry. Core `c` overflows its buffer with a second store to the
    same word and bypasses from it; core `d` reads what has drained, stores, and fences. -/
def overflowAndFence (c d : Fin n) : List (TsoAction n) :=
  [.store c 0x2000#32 1, .store c 0x2000#32 2, .load c (.byIndex c) 0x2000#32,
    .resume c (.byIndex c), .load c (.byIndex c) 0x2000#32, .load d (.byIndex d) 0x2000#32,
    .store d 0x2040#32 7, .mfence d, .store d 0x2040#32 8, .resume d (.byIndex d),
    .drainOne c (.byIndex c), .resume d (.byIndex d)]

theorem overflowAndFence_ordered :
    let s₀ := TsoSystem.newFifo (fun _ : Fin 2 => 1) fun _ _ => 0
    let acts := overflowAndFence 0 1
    let s := (TsoSystem.machine 2).run s₀ acts
    let tr := s₀.trace acts
    s₀.issuedStores 0 acts = [⟨0x2000#32, 1⟩, ⟨0x2000#32, 2⟩] ∧
      s₀.issuedStores 1 acts = [⟨0x2040#32, 7⟩] ∧
      (∀ c, s₀.issuedStores c acts = drainsOf c tr ++ (s.sb c).buf) ∧
      tr = [.stored 0 ⟨0x2000#32, 1⟩, .stored 0 ⟨0x2000#32, 2⟩, .written 0 ⟨0x2000#32, 1⟩,
        .loaded 0 0x2000#32 2, .loaded 1 0x2000#32 1, .stored 1 ⟨0x2040#32, 7⟩,
        .written 1 ⟨0x2040#32, 7⟩, .written 0 ⟨0x2000#32, 2⟩, .fenced 1] ∧
      (s.step (.load 1 (.byIndex 1) 0x2000#32)).2 = some (.loaded 1 0x2000#32 2) := by
  obtain ⟨horder, -, -, hload, -⟩ := fifo_tso 2 (fun _ => 1) (fun _ _ => 0)
    (overflowAndFence 0 1)
  refine ⟨by decide +kernel, by decide +kernel, horder, by decide +kernel, ?_⟩
  refine (hload 1 (.byIndex 1) 0x2000#32 (by decide +kernel)).trans ?_
  decide +kernel

end MesiCoherence
