import MesiCoherence.Rtl.StoreBuffer

/-!
# How long a hardware fence takes

While `fence_req` is held the store buffer accepts nothing and gives up its oldest entry in
each cycle in which the cache is ready. So the fence is acknowledged after exactly as many
such cycles as there were entries, with these written in program order.
-/

namespace MesiCoherence.Rtl

namespace StoreBuffer

variable {pw aw dw : ℕ} {s : StoreBuffer pw aw dw} {i : SbIn aw dw}

/-- A fence cycle accepts nothing, and drains the oldest entry if the cache is ready. -/
theorem Aligned.fence_cycle (h : s.Aligned) (hfence : i.fenceReq = true) :
    s.pushed i = [] ∧ s.popped i = s.live.take (if i.drainReady then 1 else 0) ∧
      (s.next i).live = s.live.drop (if i.drainReady then 1 else 0) := by
  have hpushed : s.pushed i = [] := by
    rw [pushed_eq, if_neg]
    simp [doPush, sbFull, hfence]
  have hsplit : s.popped i ++ (s.next i).live = s.live := by
    rw [h.popped_append_live, hpushed, List.append_nil]
  refine ⟨hpushed, ?_⟩
  rw [popped_eq] at hsplit ⊢
  cases hready : i.drainReady with
  | false =>
    have hpop : s.doPop i = false := by simp [doPop, hready]
    rw [hpop] at hsplit ⊢
    exact ⟨rfl, hsplit⟩
  | true =>
    by_cases hempty : s.live = []
    · have hpop : s.doPop i = false := by
        rw [live_eq_nil] at hempty
        simp [doPop, drainValid, hempty]
      rw [hpop] at hsplit ⊢
      rw [hempty] at hsplit ⊢
      exact ⟨rfl, hsplit⟩
    · have hvalid : s.drainValid = true := decide_eq_true fun hcnt =>
        hempty (s.live_eq_nil.mpr hcnt)
      have hpop : s.doPop i = true := by rw [doPop, hvalid, hready, Bool.and_self]
      rw [hpop, if_pos rfl] at hsplit
      rw [← hsplit, hpop]
      exact ⟨rfl, rfl⟩

/-- A stretch of fence cycles. -/
theorem Aligned.fence_cycles {fence : List (SbIn aw dw)} (h : s.Aligned)
    (hfence : ∀ i ∈ fence, i.fenceReq = true) :
    let os := (machine pw aw dw).outputs s fence
    accepted fence os = [] ∧ drained fence os = s.live.take (fence.countP SbIn.drainReady) ∧
      ((machine pw aw dw).run s fence).live = s.live.drop (fence.countP SbIn.drainReady) := by
  induction fence generalizing s with
  | nil => exact ⟨rfl, rfl, rfl⟩
  | cons i fence ih =>
    obtain ⟨hpushed, hpopped, hlive⟩ := h.fence_cycle (hfence i List.mem_cons_self)
    obtain ⟨hacc, hdr, hrest⟩ := ih (h.next i) fun j hj => hfence j (List.mem_cons_of_mem _ hj)
    have hcount : (i :: fence).countP SbIn.drainReady =
        (if i.drainReady then 1 else 0) + fence.countP SbIn.drainReady := by
      rw [List.countP_cons, Nat.add_comm]
    rw [hlive] at hdr hrest
    refine ⟨?_, ?_, ?_⟩
    · rw [accepted, Machine.outputs_cons, List.reduceOption_zipWith_cons]
      exact List.append_eq_nil_iff.mpr ⟨hpushed, hacc⟩
    · rw [drained, Machine.outputs_cons, List.reduceOption_zipWith_cons, hcount, List.take_add]
      exact congrArg₂ _ hpopped hdr
    · rw [Machine.run_cons, hcount, ← List.drop_drop]
      exact hrest

/-- **A fence takes one ready cycle per entry.** From any state that the buffer reaches, hold
    the fence request for any number of cycles, whatever else is on the ports. No store is
    accepted; the entries written are the oldest ones in program order, one for each cycle
    in which the cache is ready; and the fence is acknowledged next exactly if there have
    been at least as many such cycles as there were entries. -/
theorem fence_takes_ready_cycles (s₀ : StoreBuffer pw aw dw) (ins fence : List (SbIn aw dw))
    (hfence : ∀ i ∈ fence, i.fenceReq = true) :
    let s := (machine pw aw dw).run s₀.reset ins
    let os := (machine pw aw dw).outputs s fence
    let ready := fence.countP SbIn.drainReady
    accepted fence os = [] ∧ drained fence os = s.live.take ready ∧
      ∀ i, i.fenceReq = true →
        ((((machine pw aw dw).run s fence).outs i).fenceAck = true ↔ s.cnt.toNat ≤ ready) := by
  intro s os ready
  obtain ⟨hacc, hdr, hrest⟩ := (runInv s₀ ins).aligned.fence_cycles hfence
  refine ⟨hacc, hdr, fun i hi => ?_⟩
  have hlength : s.live.length = s.cnt.toNat := Ring.length_window _ _ _
  have hack : (((machine pw aw dw).run s fence).outs i).fenceAck = true ↔
      ((machine pw aw dw).run s fence).live = [] := by
    rw [live_eq_nil]
    simp [outs, fenceAck, hi]
  rw [hack, hrest, List.drop_eq_nil_iff, hlength]

/-- Two stores, then a fence with a third store waiting; the cache is not ready at first. -/
theorem fence_takes_ready_cycles_two :
    let store (a : BitVec 32) (ready fence : Bool) : SbIn 32 32 := ⟨true, a, 7, ready, 0, fence⟩
    let s₀ : StoreBuffer 3 32 32 := ⟨fun _ => 0, fun _ => 0, 0, 0, 0⟩
    let ins := [store 0x100#32 false false, store 0x140#32 false false]
    let fence := [store 0x180#32 false true, store 0x180#32 true true, store 0x180#32 true true]
    let s := (machine 3 32 32).run s₀.reset ins
    drained fence ((machine 3 32 32).outputs s fence) = [(0x100#32, 7), (0x140#32, 7)] ∧
      (((machine 3 32 32).run s fence).outs (store 0x180#32 false true)).fenceAck = true := by
  intro store s₀ ins fence s
  obtain ⟨-, hdrained, hack⟩ := fence_takes_ready_cycles s₀ ins fence (by decide)
  exact ⟨hdrained.trans (by decide +kernel), (hack _ rfl).mpr (by decide +kernel)⟩

end StoreBuffer

end MesiCoherence.Rtl
