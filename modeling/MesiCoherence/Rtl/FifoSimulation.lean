import MesiCoherence.Rtl.StoreBuffer
import MesiCoherence.Tso.StoreBuffer

/-!
# The hardware store buffer simulates the model's

The C++ `StoreBuffer` in FIFO mode, driven by what the hardware buffer accepts and
drains, holds the live entries of the ring. So it never overflows, writes what the
hardware drains, and answers every load as the bypass port does.
-/

namespace MesiCoherence.Rtl

variable {pw n : ℕ}

/-- A hardware entry as an entry of the model. -/
def toEntry (e : Word × Word) : SBEntry := ⟨e.1, e.2⟩

/-- The hardware buffer next to the model's, which writes to a coherent system. -/
structure BufferPair (pw n : ℕ) where
  rtl : StoreBuffer pw 32 32
  cpp : MesiCoherence.StoreBuffer
  sys : MesiSystem n

/-- One cycle as both sides show it. -/
structure BufferReport (pw : ℕ) where
  out : SbOut pw 32 32
  /-- the model's `store` found its buffer over-full -/
  overflowed : Bool
  /-- the coherent writes of the model -/
  writes : List SBEntry

/-- The inputs of a cycle, with the visiting orders of the writes it may cause. -/
structure BufferCycle (core : Fin n) where
  ports : SbIn 32 32
  drainVisit : VisitOrder core
  storeVisit : VisitOrder core

/-- The coherent write of an entry that is drained in a cycle, as an input of the system. -/
def BufferCycle.write {core : Fin n} (c : BufferCycle core) (e : Word × Word) : Input n :=
  .call ⟨core, .write e.1 e.2, c.drainVisit⟩

/-- The coherent writes of what the hardware drains along a run. -/
def drainWrites {core : Fin n} (cs : List (BufferCycle core)) (os : List (SbOut pw 32 32)) :
    List (Input n) :=
  (List.zipWith (fun c o => (StoreBuffer.drainedIn c.ports o).map c.write) cs os).reduceOption

namespace BufferPair

variable {core : Fin n}

/-- One cycle: `drain_one` for a pop, then `store` for an accepted push. -/
def step (p : BufferPair pw n) (c : BufferCycle core) : BufferPair pw n × BufferReport pw :=
  let i := c.ports
  let d := if p.rtl.doPop i then p.cpp.drainOne p.sys c.drainVisit else (p.cpp, p.sys, none)
  let t := if p.rtl.doPush i then d.1.store d.2.1 c.storeVisit i.stAddr i.stData
    else (d.1, d.2.1, none)
  (⟨p.rtl.next i, t.1, t.2.1⟩,
    ⟨p.rtl.outs i, p.rtl.doPush i && (d.1.pushBack ⟨i.stAddr, i.stData⟩).overflows,
      d.2.2.toList ++ t.2.2.toList⟩)

def machine (pw n : ℕ) (core : Fin n) :
    Machine (BufferPair pw n) (BufferCycle core) (BufferReport pw) := ⟨step⟩

end BufferPair

-- ════════════════════════════════════════════════════════════════════════
-- The bypass scan
-- ════════════════════════════════════════════════════════════════════════

namespace StoreBuffer

variable {aw dw : ℕ} {s : StoreBuffer pw aw dw}

/-- The scan walks backwards from the tail. -/
theorem phys_eq (s : StoreBuffer pw aw dw) {k : ℕ} (hk : k < 2 ^ pw) :
    s.phys k = s.tail - 1 - BitVec.ofNat pw k := by
  have hsum : s.phys k + BitVec.ofNat pw (1 + k) = s.tail := by
    apply BitVec.eq_of_toNat_eq
    have htail := s.tail.isLt
    simp only [phys, BitVec.toNat_add, BitVec.toNat_ofNat, Nat.mod_mod, Nat.add_mod_mod,
      Nat.mod_add_mod]
    have hnum : s.tail.toNat + 2 ^ pw - 1 - k + (1 + k) = s.tail.toNat + 2 ^ pw := by omega
    rw [hnum, Nat.add_mod_right, Nat.mod_eq_of_lt htail]
  rw [← BitVec.ofNat_add_ofNat] at hsum
  have hone : (BitVec.ofNat pw 1) = 1 := rfl
  rw [hone] at hsum
  rw [← hsum]
  grind

/-- The bypass port finds the newest live entry for an address. -/
theorem Aligned.bypass_eq (h : s.Aligned) (a : BitVec aw) :
    s.bypass a =
      (((s.live.reverse.find? (fun e => e.1 = a)).map Prod.snd).isSome,
        ((s.live.reverse.find? (fun e => e.1 = a)).map Prod.snd).getD 0) := by
  have hscan : s.bypass a = (List.range (2 ^ pw)).foldl
      (fun r k => if (decide (k < s.cnt.toNat) && decide ((s.slots (s.phys k)).1 = a)) && !r.1 then
        (true, (s.slots (s.phys k)).2) else r) (false, 0) := by
    apply List.foldl_ext
    intro r k hk
    have hk' : k < 2 ^ (pw + 1) := by
      have := List.mem_range.mp hk
      have hpow : 2 ^ (pw + 1) = 2 * 2 ^ pw := Nat.pow_succ'
      omega
    have hlt : BitVec.ofNat (pw + 1) k < s.cnt ↔ k < s.cnt.toNat := by
      rw [BitVec.lt_def, BitVec.toNat_ofNat, Nat.mod_eq_of_lt hk']
    simp only [hlt, slots, Bool.and_assoc, Bool.and_comm (!r.1)]
    rfl
  have hlive : s.live.reverse = (List.range s.cnt.toNat).map fun k => s.slots (s.phys k) := by
    rw [live, Ring.reverse_window, ← h.tail_eq]
    apply List.map_congr_left
    intro k hk
    have hk' := List.mem_range.mp hk
    have hle := h.cnt_le
    rw [s.phys_eq (by omega)]
  rw [hscan, foldl_firstMatch, find?_range_lt _ h.cnt_le, hlive, List.find?_map, Option.map_map]
  rfl

end StoreBuffer

-- ════════════════════════════════════════════════════════════════════════
-- The simulation
-- ════════════════════════════════════════════════════════════════════════

section Cpp

variable {core : Fin n} (visit : VisitOrder core) {sb : MesiCoherence.StoreBuffer}

/-- In FIFO mode the oldest entry is written. -/
theorem drainOne_fifo (hmode : sb.mode = .fifo) {e : SBEntry} {rest : List SBEntry}
    (hbuf : sb.buf = e :: rest) (sys : MesiSystem n) :
    sb.drainOne sys visit =
      ({ sb with buf := rest, drained := sb.drained + 1 }, sys.write visit e.addr e.val,
        some e) := by
  have hdraws : sb.draws = false := by simp [MesiCoherence.StoreBuffer.draws, hmode]
  simp [MesiCoherence.StoreBuffer.drainOne, MesiCoherence.StoreBuffer.drainIndex,
    MesiCoherence.StoreBuffer.removeDrained, hdraws, hbuf]

/-- With room for one more entry nothing overflows. -/
theorem not_overflows_pushBack (hroom : sb.buf.length < sb.depth) (e : SBEntry) :
    (sb.pushBack e).overflows = false := by
  simp only [MesiCoherence.StoreBuffer.overflows, MesiCoherence.StoreBuffer.pushBack,
    List.length_append, List.length_singleton, decide_eq_false_iff_not]
  omega

theorem store_room (hroom : sb.buf.length < sb.depth) (sys : MesiSystem n) (addr val : Word) :
    sb.store sys visit addr val = (sb.pushBack ⟨addr, val⟩, sys, none) := by
  rw [MesiCoherence.StoreBuffer.store, if_neg]
  rw [not_overflows_pushBack hroom]
  exact Bool.false_ne_true

end Cpp

namespace BufferPair

variable {core : Fin n}

/-- The model's buffer holds the live entries of a well-formed ring. -/
structure Related (p : BufferPair pw n) : Prop where
  aligned : p.rtl.Aligned
  mode : p.cpp.mode = .fifo
  depth : (p.cpp.depth : ℕ) = 2 ^ pw
  buf : p.cpp.buf = p.rtl.live.map toEntry

variable {p : BufferPair pw n}

theorem Related.length_buf (h : p.Related) : p.cpp.buf.length = p.rtl.cnt.toNat := by
  rw [h.buf, List.length_map, StoreBuffer.live, Ring.length_window]

/-- `drain_one` for the pop of a cycle, if it pops. -/
theorem Related.drain (h : p.Related) (c : BufferCycle core) :
    let d := if p.rtl.doPop c.ports then p.cpp.drainOne p.sys c.drainVisit
      else (p.cpp, p.sys, none)
    d.1.mode = .fifo ∧ (d.1.depth : ℕ) = 2 ^ pw ∧
      d.2.1 = (MesiSystem.machine n).run p.sys ((p.rtl.popped c.ports).map c.write) ∧
      d.2.2.toList = (p.rtl.popped c.ports).map toEntry ∧
      (p.rtl.popped c.ports).map toEntry ++ d.1.buf = p.cpp.buf := by
  intro d
  cases hpop : p.rtl.doPop c.ports with
  | false =>
    have hd : d = (p.cpp, p.sys, none) := if_neg (by simp [hpop])
    rw [hd, StoreBuffer.popped_eq, hpop]
    exact ⟨h.mode, h.depth, rfl, rfl, rfl⟩
  | true =>
    obtain ⟨k, hk⟩ := Nat.exists_eq_succ_of_ne_zero (StoreBuffer.cnt_pos hpop).ne'
    have hbuf := h.buf
    rw [StoreBuffer.live, hk, Nat.succ_eq_add_one, Ring.window_succ, List.map_cons] at hbuf
    have hd : d = _ := (if_pos hpop).trans (drainOne_fifo c.drainVisit h.mode hbuf p.sys)
    rw [hd, StoreBuffer.popped_eq, hpop, hbuf]
    exact ⟨h.mode, h.depth, rfl, rfl, rfl⟩

/-- **Simulation step.** A cycle overflows nothing, writes what the ring drains to the
    coherent system, and keeps the buffers related. -/
theorem Related.step (h : p.Related) (c : BufferCycle core) :
    (p.step c).1.Related ∧ (p.step c).2.overflowed = false ∧
      (p.step c).2.writes = (p.rtl.popped c.ports).map toEntry ∧
      (p.step c).1.sys =
        (MesiSystem.machine n).run p.sys ((p.rtl.popped c.ports).map c.write) := by
  obtain ⟨hmode, hdepth, hsys, hwrites, hbuf⟩ := h.drain c
  have hcons := h.aligned.popped_append_live c.ports
  have hlen := h.length_buf
  have hnext := h.aligned.next c.ports
  simp only [BufferPair.step]
  generalize hd : (if p.rtl.doPop c.ports then p.cpp.drainOne p.sys c.drainVisit
    else (p.cpp, p.sys, none)) = d at *
  -- both buffers are what the pop left, with the push behind it
  have hlive : (p.rtl.next c.ports).live.map toEntry =
      d.1.buf ++ (p.rtl.pushed c.ports).map toEntry := by
    have hmap := congrArg (List.map toEntry) hcons
    rw [List.map_append, List.map_append, ← h.buf, ← hbuf, List.append_assoc] at hmap
    exact List.append_cancel_left hmap
  rw [StoreBuffer.pushed_eq] at hlive
  cases hpush : p.rtl.doPush c.ports with
  | false =>
    rw [hpush] at hlive
    refine ⟨⟨hnext, hmode, hdepth, ?_⟩, rfl, by simpa using hwrites, hsys⟩
    simpa using hlive.symm
  | true =>
    rw [hpush] at hlive
    have hlt := h.aligned.cnt_lt hpush
    have hroom : d.1.buf.length < d.1.depth := by
      have hle := congrArg List.length hbuf
      rw [List.length_append] at hle
      omega
    rw [if_pos rfl, store_room c.storeVisit hroom, not_overflows_pushBack hroom]
    refine ⟨⟨hnext, hmode, hdepth, ?_⟩, rfl, by simpa using hwrites, hsys⟩
    simpa [MesiCoherence.StoreBuffer.pushBack, toEntry] using hlive.symm

/-- Both searches go newest first. -/
theorem Related.bypass (h : p.Related) (a : Word) :
    p.rtl.bypass a = ((p.cpp.search a).isSome, (p.cpp.search a).getD 0) := by
  have hsearch : p.cpp.search a =
      (p.rtl.live.reverse.find? (fun e => e.1 = a)).map Prod.snd := by
    rw [MesiCoherence.StoreBuffer.search, h.buf, ← List.map_reverse, List.find?_map,
      Option.map_map]
    rfl
  rw [h.aligned.bypass_eq, hsearch]

/-- An empty model buffer next to a hardware buffer coming out of reset. -/
def new (s₀ : StoreBuffer pw 32 32) (rng : ℕ → ℕ) (sys : MesiSystem n) : BufferPair pw n :=
  ⟨s₀.reset, .new ⟨2 ^ pw, Nat.two_pow_pos pw⟩ .fifo rng, sys⟩

theorem new_related (s₀ : StoreBuffer pw 32 32) (rng : ℕ → ℕ) (sys : MesiSystem n) :
    (new s₀ rng sys).Related :=
  ⟨s₀.reset_aligned, rfl, rfl, rfl⟩

/-- The hardware side runs on its own. -/
theorem run_rtl (p : BufferPair pw n) (cs : List (BufferCycle core)) :
    ((machine pw n core).run p cs).rtl =
        (StoreBuffer.machine pw 32 32).run p.rtl (cs.map BufferCycle.ports) ∧
      ((machine pw n core).outputs p cs).map BufferReport.out =
        (StoreBuffer.machine pw 32 32).outputs p.rtl (cs.map BufferCycle.ports) := by
  induction cs generalizing p with
  | nil => exact ⟨rfl, rfl⟩
  | cons c cs ih =>
    obtain ⟨hrun, hout⟩ := ih (p.step c).1
    exact ⟨hrun, congrArg _ hout⟩

/-- What holds along every run of the pair over a system that was `sys` before it. -/
structure PairInv (sys : MesiSystem n) (cs : List (BufferCycle core)) (rs : List (BufferReport pw))
    (p : BufferPair pw n) : Prop where
  related : p.Related
  length_eq : cs.length = rs.length
  no_overflow : rs.any BufferReport.overflowed = false
  writes : rs.flatMap BufferReport.writes =
    (StoreBuffer.drained (cs.map BufferCycle.ports) (rs.map BufferReport.out)).map toEntry
  memory : p.sys = (MesiSystem.machine n).run sys (drainWrites cs (rs.map BufferReport.out))

theorem PairInv.step {sys : MesiSystem n} {cs : List (BufferCycle core)}
    {rs : List (BufferReport pw)} (h : PairInv sys cs rs p) (c : BufferCycle core) :
    PairInv sys (cs ++ [c]) (rs ++ [(p.step c).2]) (p.step c).1 := by
  obtain ⟨hrel, hlen, hover, hwrites, hmemory⟩ := h
  obtain ⟨hrel', hover', hwrites', hmemory'⟩ := hrel.step c
  refine ⟨hrel', by simp [hlen], by simp [hover, hover'], ?_, ?_⟩
  · have hlen' : (cs.map BufferCycle.ports).length = (rs.map BufferReport.out).length := by
      simpa using hlen
    rw [List.flatMap_append, List.flatMap_singleton, hwrites, hwrites', List.map_append,
      List.map_append, List.map_singleton, List.map_singleton, StoreBuffer.drained,
      StoreBuffer.drained, List.reduceOption_zipWith_append _ hlen', List.map_append]
    rfl
  · have hlen' : cs.length = (rs.map BufferReport.out).length := by simpa using hlen
    have hnow : ((StoreBuffer.drainedIn c.ports (p.step c).2.out).map c.write).toList =
        (p.rtl.popped c.ports).map c.write := Option.toList_map
    rw [hmemory', hmemory, List.map_append, List.map_singleton, drainWrites, drainWrites,
      List.reduceOption_zipWith_append _ hlen', hnow, Machine.run_append]

theorem pairInv (s₀ : StoreBuffer pw 32 32) (rng : ℕ → ℕ) (sys : MesiSystem n)
    (cs : List (BufferCycle core)) :
    PairInv sys cs ((machine pw n core).outputs (new s₀ rng sys) cs)
      ((machine pw n core).run (new s₀ rng sys) cs) := by
  refine (machine pw n core).history_invariant (P := PairInv sys) (C := fun _ _ => True)
    ⟨new_related s₀ rng sys, rfl, rfl, rfl, rfl⟩ ?_ cs
    ((machine pw n core).allSteps_of_forall (by simp) _ _)
  intro cs rs p c h _
  exact h.step c

/-- The model's `load` answers from the buffer what the bypass port shows, and reads the
    system otherwise. -/
theorem Related.load (h : p.Related) (visit : VisitOrder core) (i : SbIn 32 32) :
    (p.cpp.load p.sys visit i.bypassAddr).2 =
      if (p.rtl.outs i).bypassHit then (p.sys, (p.rtl.outs i).bypassData)
      else p.sys.read visit i.bypassAddr := by
  have hhit : (p.rtl.outs i).bypassHit = (p.cpp.search i.bypassAddr).isSome :=
    congrArg Prod.fst (h.bypass i.bypassAddr)
  have hdata : (p.rtl.outs i).bypassData = (p.cpp.search i.bypassAddr).getD 0 :=
    congrArg Prod.snd (h.bypass i.bypassAddr)
  rw [hhit, hdata, MesiCoherence.StoreBuffer.load]
  cases p.cpp.search i.bypassAddr <;> rfl

/-- **The two store buffers agree.** For any inputs to the hardware buffer after reset,
    the C++ buffer of the same depth that follows its pops and accepted pushes never
    drains on overflow, makes the coherent writes that the hardware drains, in the same
    order, so that the coherent system is the one after exactly these writes, and finds in
    every cycle for every address what the bypass port shows. -/
theorem rtl_cpp_buffers_agree (s₀ : StoreBuffer pw 32 32) (rng : ℕ → ℕ) (sys : MesiSystem n)
    (cs : List (BufferCycle core)) :
    let p := (machine pw n core).run (new s₀ rng sys) cs
    let rs := (machine pw n core).outputs (new s₀ rng sys) cs
    let ins := cs.map BufferCycle.ports
    let os := (StoreBuffer.machine pw 32 32).outputs s₀.reset ins
    p.rtl = (StoreBuffer.machine pw 32 32).run s₀.reset ins ∧
      rs.any BufferReport.overflowed = false ∧
      rs.flatMap BufferReport.writes = (StoreBuffer.drained ins os).map toEntry ∧
      p.sys = (MesiSystem.machine n).run sys (drainWrites cs os) ∧
      ∀ i, (p.rtl.outs i).bypassHit = (p.cpp.search i.bypassAddr).isSome ∧
        (p.rtl.outs i).bypassData = (p.cpp.search i.bypassAddr).getD 0 ∧
        ∀ visit : VisitOrder core, (p.cpp.load p.sys visit i.bypassAddr).2 =
          if (p.rtl.outs i).bypassHit then (p.sys, (p.rtl.outs i).bypassData)
          else p.sys.read visit i.bypassAddr := by
  intro p rs ins os
  obtain ⟨hrun, hout⟩ := run_rtl (new s₀ rng sys) cs
  obtain ⟨hrel, -, hover, hwrites, hmemory⟩ := pairInv s₀ rng sys cs
  rw [hout] at hwrites hmemory
  refine ⟨hrun, hover, hwrites, hmemory, fun i => ?_⟩
  have hbypass := hrel.bypass i.bypassAddr
  exact ⟨congrArg Prod.fst hbypass, congrArg Prod.snd hbypass, fun visit => hrel.load visit i⟩

/-- Two stores to one word fill a buffer of two; a third store waits while the first drains
    and enters while the second drains. -/
def fillAndDrain (core : Fin n) : List (BufferCycle core) :=
  [⟨⟨true, 0x100#32, 5, false, 0, false⟩, .byIndex core, .byIndex core⟩,
    ⟨⟨true, 0x100#32, 6, false, 0, false⟩, .byIndex core, .byIndex core⟩,
    ⟨⟨true, 0x140#32, 7, true, 0, false⟩, .byIndex core, .byIndex core⟩,
    ⟨⟨true, 0x140#32, 7, true, 0, false⟩, .byIndex core, .byIndex core⟩]

theorem fillAndDrain_agree :
    let s₀ : StoreBuffer 1 32 32 := ⟨fun _ => 9, fun _ => 9, 1, 0, 1⟩
    let p := (machine 1 2 0).run (new s₀ (fun _ => 0) (.new 2)) (fillAndDrain 0)
    let rs := (machine 1 2 0).outputs (new s₀ (fun _ => 0) (.new 2)) (fillAndDrain 0)
    rs.any BufferReport.overflowed = false ∧
      rs.flatMap BufferReport.writes = [⟨0x100#32, 5⟩, ⟨0x100#32, 6⟩] ∧
      (p.sys.read (.byIndex 1) 0x100#32).2 = 6 ∧ (p.sys.read (.byIndex 1) 0x140#32).2 = 0 ∧
      p.cpp.search 0x140#32 = some 7 ∧ p.cpp.search 0x100#32 = none := by
  obtain ⟨-, hover, hwrites, hmemory, -⟩ := rtl_cpp_buffers_agree
    (⟨fun _ => 9, fun _ => 9, 1, 0, 1⟩ : StoreBuffer 1 32 32) (fun _ => 0) (.new 2)
    (fillAndDrain (0 : Fin 2))
  refine ⟨hover, hwrites.trans (by decide +kernel), ?_, ?_, by decide +kernel, by decide +kernel⟩
  · rw [hmemory]
    decide +kernel
  · rw [hmemory]
    decide +kernel

end BufferPair

end MesiCoherence.Rtl
