import MesiCoherence.Checker.RecordedTraces
import MesiCoherence.Lib.Interleaving
import MesiCoherence.Lib.Threads

/-!
# What the checkers decide

Both checkers against declarative rules. The exhaustive search accepts a trace exactly
when its events have a total order that keeps each core's program order and in which
every read sees the latest write before it. The replay accepts exactly when every read
sees the write of greatest smaller timestamp; the timestamp order is then one of the
orders the search looks for.
-/

namespace MesiCoherence

/-- The value of the latest write to an address in a sequence of events, 0 if none. -/
def lastWriteTo (es : List TraceEvent) (addr : Word) : Word :=
  (es.filter fun e => e.op = .write ∧ e.addr = addr).getLast?.elim 0 TraceEvent.value

/-- Every read has the value of the latest preceding write to its address, or 0. -/
def ReadsLatest (order : List TraceEvent) : Prop :=
  ∀ pre e post, order = pre ++ e :: post → e.op = .read → e.value = lastWriteTo pre e.addr

/-- A total order of the events of a trace that respects program order and explains
    every read. -/
structure ScOrder (trace order : List TraceEvent) : Prop where
  perm : order.Perm trace
  program : order.Pairwise fun e f => e.coreId = f.coreId → e.programIdx < f.programIdx
  reads : ReadsLatest order

-- ════════════════════════════════════════════════════════════════════════
-- Replays and latest writes
-- ════════════════════════════════════════════════════════════════════════

theorem lastWriteTo_append_singleton (es : List TraceEvent) (e : TraceEvent) :
    lastWriteTo (es ++ [e]) = e.toMem.apply (lastWriteTo es) := by
  funext a
  cases hop : e.op with
  | read => simp [lastWriteTo, TraceEvent.toMem, OpType.toMem, hop, MemEvent.apply]
  | write =>
    by_cases ha : a = e.addr
    · subst ha
      simp [lastWriteTo, TraceEvent.toMem, OpType.toMem, hop, MemEvent.apply]
    · simp [lastWriteTo, TraceEvent.toMem, OpType.toMem, hop, MemEvent.apply, ha, Ne.symm ha]

/-- Replaying events leaves the latest write in every word. -/
theorem replayed_memEvents (es : List TraceEvent) :
    replayed (fun _ => 0) (memEvents es) = lastWriteTo es := by
  induction es using List.reverseRecOn with
  | nil => rfl
  | append_singleton es e ih =>
    rw [lastWriteTo_append_singleton, ← ih, memEvents, List.map_append, replayed_append]
    rfl

/-- A replay finds every value read exactly when every read is of the latest write. -/
theorem legalFrom_memEvents_iff (order : List TraceEvent) :
    LegalFrom (fun _ => 0) (memEvents order) ↔ ReadsLatest order := by
  induction order using List.reverseRecOn with
  | nil => simp [LegalFrom, memEvents, ReadsLatest]
  | append_singleton order e ih =>
    have hsplit : memEvents (order ++ [e]) = memEvents order ++ [(e.coreId, e.toMem)] := by
      simp [memEvents]
    rw [hsplit, legalFrom_append, ih, replayed_memEvents]
    simp only [LegalFrom, and_true]
    have hread : e.toMem.Allowed (lastWriteTo order) ↔
        (e.op = .read → e.value = lastWriteTo order e.addr) := by
      cases hop : e.op <;> simp [TraceEvent.toMem, OpType.toMem, hop, MemEvent.Allowed]
    rw [hread]
    constructor
    · rintro ⟨hreads, hlast⟩ pre f post hs hop
      rcases concat_eq_append_cons.mp hs with ⟨rfl, rfl, -⟩ | ⟨post', -, horder⟩
      · exact hlast hop
      · exact hreads pre f post' horder hop
    · intro h
      refine ⟨fun pre f post hs hop => ?_, fun hop => h order e [] rfl hop⟩
      exact h pre f (post ++ [e]) (by simp [hs]) hop

-- ════════════════════════════════════════════════════════════════════════
-- The exhaustive search
-- ════════════════════════════════════════════════════════════════════════

/-- The events of a core have distinct program indices. -/
def DistinctIdx (trace : List TraceEvent) : Prop :=
  trace.Pairwise fun e f => e.coreId = f.coreId → e.programIdx ≠ f.programIdx

variable {trace order : List TraceEvent}

/-- A relation between the events of every core, on the events of one. -/
theorem pairwise_filter_core {es : List TraceEvent} {R : TraceEvent → TraceEvent → Prop}
    (h : es.Pairwise fun e f => e.coreId = f.coreId → R e f) (c : ℕ) :
    (es.filter fun e => e.coreId = (c : ℤ)).Pairwise R := by
  refine (h.filter _).imp_of_mem ?_
  intro e f he hf hef
  apply hef
  rw [of_decide_eq_true (List.mem_filter.mp he).2, of_decide_eq_true (List.mem_filter.mp hf).2]

theorem bucket_perm (trace : List TraceEvent) (c : ℕ) :
    (bucket trace c).Perm (trace.filter fun e => e.coreId = (c : ℤ)) :=
  List.perm_insertionSort _ _

/-- A bucket is in program order. -/
theorem bucket_sorted (h : DistinctIdx trace) (c : ℕ) :
    (bucket trace c).Pairwise fun e f => e.programIdx < f.programIdx := by
  have hle : (bucket trace c).Pairwise fun e f => e.programIdx ≤ f.programIdx :=
    List.pairwise_insertionSort _ _
  have hne : (bucket trace c).Pairwise fun e f => e.programIdx ≠ f.programIdx :=
    (bucket_perm trace c).symm.pairwise (pairwise_filter_core h c) fun hne => Ne.symm hne
  exact hle.imp₂ (fun _ _ hle hne => lt_of_le_of_ne hle hne) hne

/-- Program order fixes what a core contributes to an order. -/
theorem ScOrder.filter_eq_bucket (h : ScOrder trace order) (hidx : DistinctIdx trace) (c : ℕ) :
    (order.filter fun e => e.coreId = (c : ℤ)) = bucket trace c := by
  have hsorted : (order.filter fun e => e.coreId = (c : ℤ)).Pairwise
      fun e f => e.programIdx < f.programIdx := pairwise_filter_core h.program c
  have hperm : (order.filter fun e => e.coreId = (c : ℤ)).Perm (bucket trace c) :=
    (h.perm.filter _).trans (bucket_perm trace c).symm
  refine List.Perm.eq_of_pairwise ?_ hsorted (bucket_sorted hidx c) hperm
  intro e f _ _ hef hfe
  omega

/-- The core ids of a trace index its buckets. -/
theorem exists_bucket (hcore : ∀ e ∈ trace, 0 ≤ e.coreId) {e : TraceEvent} (he : e ∈ trace) :
    ∃ c : Fin (maxCore trace + 1).toNat, ((c : ℕ) : ℤ) = e.coreId := by
  have hle := coreId_le_maxCore he
  have h0 := hcore e he
  exact ⟨⟨e.coreId.toNat, by omega⟩, by simp only; omega⟩

/-- An order in hand is found. -/
theorem ScOrder.serializable (h : ScOrder trace order) (hcore : ∀ e ∈ trace, 0 ≤ e.coreId)
    (hidx : DistinctIdx trace) :
    Serializable (fun _ => 0)
      fun c : Fin (maxCore trace + 1).toNat => (bucket trace c).map TraceEvent.toMem := by
  have hlegal := (legalFrom_memEvents_iff order).mpr h.reads
  have hrange : ∀ x ∈ memEvents order,
      ∃ c : Fin (maxCore trace + 1).toNat, ((c : ℕ) : ℤ) = x.1 := by
    intro x hx
    obtain ⟨e, he, rfl⟩ := List.mem_map.mp hx
    exact exists_bucket hcore (h.perm.mem_iff.mp he)
  have hser := serializable_of_legalFrom
    (fun c d hcd => Fin.ext (Int.ofNat_inj.mp hcd)) hrange hlegal
  simpa only [threadEvents_memEvents, h.filter_eq_bucket hidx] using hser

/-- Legality reads the events and not the names of the threads. -/
theorem legalFrom_memEvents_snd {ι : Type*} (m : Word → Word) (ps : List (ι × TraceEvent)) :
    LegalFrom m (memEvents (ps.map Prod.snd)) ↔
      LegalFrom m (ps.map fun p => (p.1, p.2.toMem)) := by
  induction ps generalizing m with
  | nil => rfl
  | cons p ps ih => exact and_congr_right fun _ => ih _

/-- Events whose ids index buckets have no other ids. -/
theorem filter_core_eq_nil {k : ℕ} {es : List TraceEvent} {id : ℤ}
    (hes : ∀ e ∈ es, ∃ c : Fin k, ((c : ℕ) : ℤ) = e.coreId)
    (hid : ¬ ∃ c : Fin k, ((c : ℕ) : ℤ) = id) :
    (es.filter fun e => e.coreId = id) = [] := by
  rw [List.filter_eq_nil_iff]
  intro e he heq
  obtain ⟨c, hc⟩ := hes e he
  exact hid ⟨c, hc.trans (of_decide_eq_true heq)⟩

/-- What the search finds is an order of the trace. -/
theorem exists_scOrder (hcore : ∀ e ∈ trace, 0 ≤ e.coreId) (hidx : DistinctIdx trace)
    (h : Serializable (fun _ => 0)
      fun c : Fin (maxCore trace + 1).toNat => (bucket trace c).map TraceEvent.toMem) :
    ∃ order, ScOrder trace order := by
  obtain ⟨found, hproj, hlegal⟩ := h
  obtain ⟨tagged, hmap, hlists⟩ :=
    exists_interleaving TraceEvent.toMem found (fun c => bucket trace c) hproj
  -- an event carries the id of the bucket it was taken from
  have htag : ∀ p ∈ tagged, p.2.coreId = ((p.1 : ℕ) : ℤ) := by
    intro p hp
    have hmem : p.2 ∈ bucket trace p.1 := by
      rw [← hlists p.1]
      exact List.mem_map.mpr ⟨p, List.mem_filter.mpr ⟨hp, by simp⟩, rfl⟩
    exact of_decide_eq_true (List.mem_filter.mp ((bucket_perm trace p.1).mem_iff.mp hmem)).2
  have hfilter : ∀ c : Fin (maxCore trace + 1).toNat,
      ((tagged.map Prod.snd).filter fun e => e.coreId = ((c : ℕ) : ℤ)) = bucket trace c := by
    intro c
    rw [← hlists c, List.filter_map]
    refine congrArg (List.map Prod.snd) (List.filter_congr fun p hp => ?_)
    simp only [Function.comp, htag p hp, Fin.ext_iff, Int.ofNat_inj]
  have hcores : ∀ e ∈ tagged.map Prod.snd, ∃ c : Fin (maxCore trace + 1).toNat,
      ((c : ℕ) : ℤ) = e.coreId := by
    intro e he
    obtain ⟨p, hp, rfl⟩ := List.mem_map.mp he
    exact ⟨p.1, (htag p hp).symm⟩
  refine ⟨tagged.map Prod.snd, ?_, ?_, ?_⟩
  · refine List.perm_of_filter_perm TraceEvent.coreId fun k => ?_
    by_cases hk : ∃ c : Fin (maxCore trace + 1).toNat, ((c : ℕ) : ℤ) = k
    · obtain ⟨c, rfl⟩ := hk
      rw [hfilter c]
      exact bucket_perm trace c
    · have htrace : ∀ e ∈ trace, ∃ c : Fin (maxCore trace + 1).toNat,
          ((c : ℕ) : ℤ) = e.coreId := fun e he => exists_bucket hcore he
      rw [filter_core_eq_nil hcores hk, filter_core_eq_nil htrace hk]
  · refine List.pairwise_of_filter TraceEvent.coreId fun k => ?_
    cases hcase : (tagged.map Prod.snd).filter fun e => e.coreId = k with
    | nil => exact .nil
    | cons e es =>
      have he : e ∈ (tagged.map Prod.snd).filter fun e => e.coreId = k := by simp [hcase]
      obtain ⟨hmem, hid⟩ := List.mem_filter.mp he
      obtain ⟨c, hc⟩ := hcores e hmem
      rw [← hcase, ← of_decide_eq_true hid, ← hc, hfilter c]
      exact bucket_sorted hidx c
  · rw [← legalFrom_memEvents_iff, legalFrom_memEvents_snd, hmap]
    exact hlegal

/-- **The exhaustive checker is exact.** On a trace with non-negative core ids and, per
    core, distinct program indices, `exists_sc_order` returns, and returns true exactly
    when some total order of the events keeps every core's program order and gives every
    read the value of the latest preceding write to its address, or 0. -/
theorem existsScOrder_exact (trace : List TraceEvent) (hcore : ∀ e ∈ trace, 0 ≤ e.coreId)
    (hidx : trace.Pairwise fun e f => e.coreId = f.coreId → e.programIdx ≠ f.programIdx) :
    ∃ b, existsScOrder trace = some b ∧ (b = true ↔ ∃ order, ScOrder trace order) := by
  by_cases hmax : maxCore trace < 0
  · have hnil : trace = [] := by
      apply List.eq_nil_iff_forall_not_mem.mpr
      intro e he
      have hle := coreId_le_maxCore he
      have h0 := hcore e he
      omega
    subst hnil
    refine ⟨true, rfl, iff_of_true rfl ⟨[], .refl _, .nil, ?_⟩⟩
    intro pre e post hs
    simp at hs
  · obtain ⟨b, hb, hiff⟩ := existsScOrder_eq trace (not_lt.mp hmax)
    refine ⟨b, hb, hiff.trans ?_⟩
    exact ⟨exists_scOrder hcore hidx, fun ⟨_, h⟩ => h.serializable hcore hidx⟩

/-- Two cores each write one word and read 0 from the other's: no order explains that. -/
theorem existsScOrder_exact_storeBuffering :
    ¬ ∃ order, ScOrder [⟨0, .write, 0x10, 1, 0, 0⟩, ⟨1, .write, 0x20, 1, 1, 0⟩,
      ⟨0, .read, 0x20, 0, 2, 1⟩, ⟨1, .read, 0x10, 0, 3, 1⟩] order := by
  obtain ⟨b, hb, hiff⟩ := existsScOrder_exact [⟨0, .write, 0x10, 1, 0, 0⟩,
    ⟨1, .write, 0x20, 1, 1, 0⟩, ⟨0, .read, 0x20, 0, 2, 1⟩, ⟨1, .read, 0x10, 0, 3, 1⟩]
    (by decide) (by decide)
  have hfalse : b = false := Option.some.inj (hb.symm.trans (by decide))
  rw [← hiff, hfalse]
  decide

-- ════════════════════════════════════════════════════════════════════════
-- The replay in timestamp order
-- ════════════════════════════════════════════════════════════════════════

/-- A write to the address of `e` with a smaller timestamp. -/
def WriteBefore (trace : List TraceEvent) (e w : TraceEvent) : Prop :=
  w ∈ trace ∧ w.op = .write ∧ w.addr = e.addr ∧ w.timestamp < e.timestamp

/-- The value of `e` is that of the write to its address with the greatest smaller
    timestamp, or 0 if there is none. -/
def SeesLatest (trace : List TraceEvent) (e : TraceEvent) : Prop :=
  (∃ w, WriteBefore trace e w ∧ (∀ w', WriteBefore trace e w' → w'.timestamp ≤ w.timestamp) ∧
    e.value = w.value) ∨
  ((∀ w, ¬ WriteBefore trace e w) ∧ e.value = 0)

/-- Events with different timestamps. -/
def DistinctStamps (trace : List TraceEvent) : Prop :=
  trace.Pairwise fun e f => e.timestamp ≠ f.timestamp

/-- The trace as the replay sorts it. -/
def byTimestamp (trace : List TraceEvent) : List TraceEvent :=
  trace.insertionSort fun a b => a.timestamp ≤ b.timestamp

theorem byTimestamp_perm (trace : List TraceEvent) : (byTimestamp trace).Perm trace :=
  List.perm_insertionSort _ _

theorem byTimestamp_sorted (h : DistinctStamps trace) :
    (byTimestamp trace).Pairwise fun e f => e.timestamp < f.timestamp := by
  have hle : (byTimestamp trace).Pairwise fun e f => e.timestamp ≤ f.timestamp :=
    List.pairwise_insertionSort _ _
  have hne : (byTimestamp trace).Pairwise fun e f => e.timestamp ≠ f.timestamp :=
    (byTimestamp_perm trace).symm.pairwise h fun hne => Ne.symm hne
  exact hle.imp₂ (fun _ _ hle hne => lt_of_le_of_ne hle hne) hne

theorem checkSerialOrder_ok_iff_reads (trace : List TraceEvent) :
    (checkSerialOrder trace).ok = true ↔ ReadsLatest (byTimestamp trace) := by
  rw [← legalFrom_memEvents_iff]
  exact replay_ok _ _ _

/-- In a sorted trace the events before `e` are those with smaller timestamps. -/
theorem mem_before_iff {pre post : List TraceEvent} {e w : TraceEvent}
    (h : (pre ++ e :: post).Pairwise fun e f => e.timestamp < f.timestamp) :
    w ∈ pre ↔ w ∈ pre ++ e :: post ∧ w.timestamp < e.timestamp := by
  obtain ⟨-, htail, hcross⟩ := List.pairwise_append.mp h
  constructor
  · intro hw
    exact ⟨List.mem_append_left _ hw, hcross w hw e List.mem_cons_self⟩
  · rintro ⟨hw, hlt⟩
    rcases List.mem_append.mp hw with hw | hw
    · exact hw
    · rcases List.mem_cons.mp hw with rfl | hw
      · omega
      · have hafter := (List.pairwise_cons.mp htail).1 w hw
        omega

/-- In a sorted list of writes the one with the greatest timestamp is the last. -/
theorem greatest_iff_getLast {ws : List TraceEvent}
    (h : ws.Pairwise fun e f => e.timestamp < f.timestamp) (v : Word) :
    ((∃ w ∈ ws, (∀ w' ∈ ws, w'.timestamp ≤ w.timestamp) ∧ v = w.value) ∨
      ((∀ w, w ∉ ws) ∧ v = 0)) ↔ v = ws.getLast?.elim 0 TraceEvent.value := by
  cases ws using List.reverseRecOn with
  | nil => simp
  | append_singleton ws w =>
    have hlt : ∀ w' ∈ ws, w'.timestamp < w.timestamp := fun w' hw' =>
      (List.pairwise_append.mp h).2.2 w' hw' w List.mem_cons_self
    have hlast : (ws ++ [w]).getLast?.elim 0 TraceEvent.value = w.value := by simp
    rw [hlast]
    constructor
    · rintro (⟨w', hw', hgreatest, hv⟩ | ⟨hnone, -⟩)
      · have hle := hgreatest w (by simp)
        rcases List.mem_append.mp hw' with hw' | hw'
        · have := hlt w' hw'
          omega
        · rw [hv, List.mem_singleton.mp hw']
      · exact absurd (by simp) (hnone w)
    · intro hv
      refine Or.inl ⟨w, by simp, fun w' hw' => ?_, hv⟩
      rcases List.mem_append.mp hw' with hw' | hw'
      · exact (hlt w' hw').le
      · rw [List.mem_singleton.mp hw']

/-- A read of a sorted trace sees the latest write before it. -/
theorem seesLatest_iff {pre post : List TraceEvent} {e : TraceEvent}
    (h : (pre ++ e :: post).Pairwise fun e f => e.timestamp < f.timestamp) :
    SeesLatest (pre ++ e :: post) e ↔ e.value = lastWriteTo pre e.addr := by
  have hbefore : ∀ w, WriteBefore (pre ++ e :: post) e w ↔
      w ∈ pre.filter fun f => f.op = .write ∧ f.addr = e.addr := by
    intro w
    rw [List.mem_filter, mem_before_iff h, WriteBefore]
    simp only [decide_eq_true_eq]
    tauto
  have hpre := (List.pairwise_append.mp h).1.filter fun f => f.op = .write ∧ f.addr = e.addr
  unfold SeesLatest
  simp only [hbefore]
  exact greatest_iff_getLast hpre e.value

/-- The replay rule does not depend on the order of the events. -/
theorem SeesLatest.congr {trace' : List TraceEvent} (h : ∀ w, w ∈ trace ↔ w ∈ trace')
    (e : TraceEvent) : SeesLatest trace e ↔ SeesLatest trace' e := by
  simp only [SeesLatest, WriteBefore, h]

theorem readsLatest_byTimestamp_iff (h : DistinctStamps trace) :
    ReadsLatest (byTimestamp trace) ↔ ∀ e ∈ trace, e.op = .read → SeesLatest trace e := by
  have hmem : ∀ w, w ∈ trace ↔ w ∈ byTimestamp trace := fun w =>
    (byTimestamp_perm trace).mem_iff.symm
  have hsorted := byTimestamp_sorted h
  constructor
  · intro hreads e he hop
    obtain ⟨pre, post, hs⟩ := List.append_of_mem ((hmem e).mp he)
    rw [SeesLatest.congr hmem, hs, seesLatest_iff (hs ▸ hsorted)]
    exact hreads pre e post hs hop
  · intro hall pre e post hs hop
    have he : e ∈ trace := (hmem e).mpr (by simp [hs])
    have hsees := hall e he hop
    rw [SeesLatest.congr hmem, hs] at hsees
    exact (seesLatest_iff (hs ▸ hsorted)).mp hsees

/-- The timestamp order is an order the search looks for. -/
theorem scOrder_byTimestamp (h : DistinctStamps trace)
    (hprog : ∀ e ∈ trace, ∀ f ∈ trace, e.coreId = f.coreId → e.timestamp < f.timestamp →
      e.programIdx < f.programIdx)
    (hreads : ReadsLatest (byTimestamp trace)) : ScOrder trace (byTimestamp trace) := by
  refine ⟨byTimestamp_perm trace, ?_, hreads⟩
  refine (byTimestamp_sorted h).imp_of_mem ?_
  intro e f he hf hlt hcore
  exact hprog e ((byTimestamp_perm trace).mem_iff.mp he) f
    ((byTimestamp_perm trace).mem_iff.mp hf) hcore hlt

/-- **What the replay decides.** On a trace with distinct timestamps, in whatever order its
    events are given, `check_serial_order` accepts exactly when every read has the value of
    the write to its address with the greatest smaller timestamp, or 0 if there is none. If
    moreover core ids are not negative and program indices increase with timestamps on
    each core, then a trace that it accepts is accepted by `exists_sc_order`. -/
theorem checkSerialOrder_exact (trace : List TraceEvent)
    (hstamps : trace.Pairwise fun e f => e.timestamp ≠ f.timestamp) :
    ((checkSerialOrder trace).ok = true ↔ ∀ e ∈ trace, e.op = .read → SeesLatest trace e) ∧
    (∀ trace', trace'.Perm trace → (checkSerialOrder trace').ok = (checkSerialOrder trace).ok) ∧
    ((∀ e ∈ trace, 0 ≤ e.coreId) →
      (∀ e ∈ trace, ∀ f ∈ trace, e.coreId = f.coreId → e.timestamp < f.timestamp →
        e.programIdx < f.programIdx) →
      (checkSerialOrder trace).ok = true → existsScOrder trace = some true) := by
  have hok : ∀ trace', trace'.Perm trace → ((checkSerialOrder trace').ok = true ↔
      ∀ e ∈ trace, e.op = .read → SeesLatest trace e) := by
    intro trace' hperm
    have hdistinct : DistinctStamps trace' := hperm.symm.pairwise hstamps fun hne => Ne.symm hne
    have hmem : ∀ w, w ∈ trace' ↔ w ∈ trace := fun w => hperm.mem_iff
    rw [checkSerialOrder_ok_iff_reads, readsLatest_byTimestamp_iff hdistinct]
    simp only [hmem, SeesLatest.congr hmem]
  refine ⟨hok trace (.refl _), fun trace' hperm => ?_, ?_⟩
  · rw [Bool.eq_iff_iff, hok trace' hperm, hok trace (.refl _)]
  · intro hcore hprog haccept
    have hidx : DistinctIdx trace := by
      refine hstamps.imp_of_mem ?_
      intro e f he hf hne hcores
      rcases lt_or_gt_of_ne hne with hlt | hlt
      · exact (hprog e he f hf hcores hlt).ne
      · exact (hprog f hf e he hcores.symm hlt).ne'
    have horder := scOrder_byTimestamp hstamps hprog
      ((checkSerialOrder_ok_iff_reads trace).mp haccept)
    by_cases hmax : maxCore trace < 0
    · rw [existsScOrder, if_pos hmax]
    · obtain ⟨b, hb, hiff⟩ := existsScOrder_eq trace (not_lt.mp hmax)
      rw [hb, hiff.mpr (horder.serializable hcore hidx)]

/-- A read given before the write it sees. -/
theorem checkSerialOrder_exact_unsorted :
    existsScOrder [⟨1, .read, 0x10, 7, 5, 0⟩, ⟨0, .write, 0x10, 7, 2, 0⟩] = some true :=
  (checkSerialOrder_exact [⟨1, .read, 0x10, 7, 5, 0⟩, ⟨0, .write, 0x10, 7, 2, 0⟩]
    (by decide)).2.2 (by decide) (by decide) (by decide)

end MesiCoherence
