import Mathlib.Data.List.ReduceOption
import MesiCoherence.Lib.Machine
import MesiCoherence.Lib.RingBuffer

/-!
# The hardware store buffer

`rtl/store_buffer.sv`: a ring of `DEPTH = 2 ^ pw` entries with separate head, tail and
count registers. The entries drained, followed by the live ones, are the stores
accepted, whatever the inputs.
-/

namespace MesiCoherence.Rtl

variable {pw aw dw : ℕ}

/-- The registers. `$clog2(DEPTH + 1)` is `pw + 1`. -/
structure StoreBuffer (pw aw dw : ℕ) where
  addrQ : BitVec pw → BitVec aw
  dataQ : BitVec pw → BitVec dw
  head : BitVec pw
  tail : BitVec pw
  cnt : BitVec (pw + 1)

/-- The input ports in one cycle. -/
structure SbIn (aw dw : ℕ) where
  stValid : Bool
  stAddr : BitVec aw
  stData : BitVec dw
  drainReady : Bool
  bypassAddr : BitVec aw
  fenceReq : Bool
  deriving DecidableEq

/-- The output ports in one cycle. -/
structure SbOut (pw aw dw : ℕ) where
  sbFull : Bool
  drainValid : Bool
  drainAddr : BitVec aw
  drainData : BitVec dw
  bypassHit : Bool
  bypassData : BitVec dw
  fenceAck : Bool
  count : BitVec (pw + 1)
  deriving DecidableEq

namespace StoreBuffer

section Defs

variable (s : StoreBuffer pw aw dw) (i : SbIn aw dw)

/-- A fence blocks younger stores. -/
def sbFull : Bool := (s.cnt = BitVec.ofNat (pw + 1) (2 ^ pw)) || i.fenceReq

def drainValid : Bool := s.cnt ≠ 0

def drainAddr : BitVec aw := s.addrQ s.head

def drainData : BitVec dw := s.dataQ s.head

def fenceAck : Bool := i.fenceReq && (s.cnt = 0)

/-- The slot at distance `k` from the newest entry. The sum is never negative, so the
    integer arithmetic is that of ℕ. -/
def phys (k : ℕ) : BitVec pw := BitVec.ofNat pw ((s.tail.toNat + 2 ^ pw - 1 - k) % 2 ^ pw)

/-- `bypass_hit` and `bypass_data`: the scan over all slots, newest first. -/
def bypass (bypassAddr : BitVec aw) : Bool × BitVec dw :=
  (List.range (2 ^ pw)).foldl
    (fun r k =>
      if BitVec.ofNat (pw + 1) k < s.cnt && !r.1 && (s.addrQ (s.phys k) = bypassAddr) then
        (true, s.dataQ (s.phys k))
      else r)
    (false, 0)

def doPush : Bool := i.stValid && !s.sbFull i

def doPop : Bool := s.drainValid && i.drainReady

/-- Reset leaves the entries as they are. -/
def reset : StoreBuffer pw aw dw := { s with head := 0, tail := 0, cnt := 0 }

/-- The clock edge. -/
def next : StoreBuffer pw aw dw where
  addrQ := if s.doPush i then Function.update s.addrQ s.tail i.stAddr else s.addrQ
  dataQ := if s.doPush i then Function.update s.dataQ s.tail i.stData else s.dataQ
  tail := if s.doPush i then s.tail + 1 else s.tail
  head := if s.doPop i then s.head + 1 else s.head
  cnt := match s.doPush i, s.doPop i with
    | true, false => s.cnt + 1
    | false, true => s.cnt - 1
    | _, _ => s.cnt

def outs : SbOut pw aw dw where
  sbFull := s.sbFull i
  drainValid := s.drainValid
  drainAddr := s.drainAddr
  drainData := s.drainData
  bypassHit := (s.bypass i.bypassAddr).1
  bypassData := (s.bypass i.bypassAddr).2
  fenceAck := s.fenceAck i
  count := s.cnt

end Defs

/-- The store buffer as a machine. -/
def machine (pw aw dw : ℕ) : Machine (StoreBuffer pw aw dw) (SbIn aw dw) (SbOut pw aw dw) :=
  ⟨fun s i => (s.next i, s.outs i)⟩

/-- The entry in a slot. -/
def slots (s : StoreBuffer pw aw dw) (j : BitVec pw) : BitVec aw × BitVec dw :=
  (s.addrQ j, s.dataQ j)

/-- The live entries, read from the head on. -/
def live (s : StoreBuffer pw aw dw) : List (BitVec aw × BitVec dw) :=
  Ring.window s.slots s.head s.cnt.toNat

/-- The store accepted in a cycle with the given inputs and outputs. -/
def acceptedIn (i : SbIn aw dw) (o : SbOut pw aw dw) : Option (BitVec aw × BitVec dw) :=
  if i.stValid && !o.sbFull then some (i.stAddr, i.stData) else none

/-- The entry drained in a cycle with the given inputs and outputs. -/
def drainedIn (i : SbIn aw dw) (o : SbOut pw aw dw) : Option (BitVec aw × BitVec dw) :=
  if o.drainValid && i.drainReady then some (o.drainAddr, o.drainData) else none

/-- The stores accepted over a run. -/
def accepted (ins : List (SbIn aw dw)) (os : List (SbOut pw aw dw)) :
    List (BitVec aw × BitVec dw) :=
  (List.zipWith acceptedIn ins os).reduceOption

/-- The entries drained over a run. -/
def drained (ins : List (SbIn aw dw)) (os : List (SbOut pw aw dw)) :
    List (BitVec aw × BitVec dw) :=
  (List.zipWith drainedIn ins os).reduceOption

-- ════════════════════════════════════════════════════════════════════════
-- The ring invariant
-- ════════════════════════════════════════════════════════════════════════

/-- The count fits and the tail is where the head and the count say. -/
structure Aligned (s : StoreBuffer pw aw dw) : Prop where
  cnt_le : s.cnt.toNat ≤ 2 ^ pw
  tail_eq : s.tail = s.head + BitVec.ofNat pw s.cnt.toNat

variable {s : StoreBuffer pw aw dw} {i : SbIn aw dw}

theorem reset_aligned (s : StoreBuffer pw aw dw) : s.reset.Aligned :=
  ⟨Nat.zero_le _, by simp [reset]⟩

/-- A push finds room. -/
theorem Aligned.cnt_lt (h : s.Aligned) (hp : s.doPush i = true) : s.cnt.toNat < 2 ^ pw := by
  have hle := h.cnt_le
  have hfull : s.cnt ≠ BitVec.ofNat (pw + 1) (2 ^ pw) := by
    intro he
    simp [doPush, sbFull, he] at hp
  have hne : s.cnt.toNat ≠ 2 ^ pw := by
    intro he
    apply hfull
    rw [← he, BitVec.ofNat_toNat, BitVec.setWidth_eq]
  omega

/-- A pop finds an entry. -/
theorem cnt_pos (hp : s.doPop i = true) : 0 < s.cnt.toNat := by
  rw [Nat.pos_iff_ne_zero]
  intro h0
  have hz : s.cnt = 0 := BitVec.eq_of_toNat_eq h0
  simp [doPop, drainValid, hz] at hp

theorem toNat_cnt_add_one (h : s.cnt.toNat < 2 ^ pw) : (s.cnt + 1).toNat = s.cnt.toNat + 1 := by
  have hpow : 2 ^ (pw + 1) = 2 * 2 ^ pw := Nat.pow_succ'
  have hone : (1 : BitVec (pw + 1)).toNat = 1 := BitVec.toNat_one (Nat.succ_pos _)
  rw [BitVec.toNat_add_of_lt (by omega), hone]

theorem toNat_cnt_sub_one (h : 0 < s.cnt.toNat) : (s.cnt - 1).toNat + 1 = s.cnt.toNat := by
  have hone : (1 : BitVec (pw + 1)).toNat = 1 := BitVec.toNat_one (Nat.succ_pos _)
  rw [BitVec.toNat_sub_of_le (by rw [BitVec.le_def]; omega), hone]
  omega

/-- A push writes the slot at the tail. -/
theorem next_slots (s : StoreBuffer pw aw dw) (i : SbIn aw dw) :
    (s.next i).slots =
      if s.doPush i then Function.update s.slots s.tail (i.stAddr, i.stData) else s.slots := by
  funext j
  by_cases hp : s.doPush i = true
  · by_cases hj : j = s.tail
    · simp [slots, next, hp, hj]
    · simp [slots, next, hp, hj]
  · simp [slots, next, hp]

/-- The stores entering the ring at a clock edge. -/
def pushed (s : StoreBuffer pw aw dw) (i : SbIn aw dw) : List (BitVec aw × BitVec dw) :=
  (acceptedIn i (s.outs i)).toList

/-- The entries leaving the ring at a clock edge. -/
def popped (s : StoreBuffer pw aw dw) (i : SbIn aw dw) : List (BitVec aw × BitVec dw) :=
  (drainedIn i (s.outs i)).toList

theorem pushed_eq (s : StoreBuffer pw aw dw) (i : SbIn aw dw) :
    s.pushed i = if s.doPush i then [(i.stAddr, i.stData)] else [] := by
  unfold pushed acceptedIn doPush outs
  split <;> rfl

theorem popped_eq (s : StoreBuffer pw aw dw) (i : SbIn aw dw) :
    s.popped i = if s.doPop i then [(s.drainAddr, s.drainData)] else [] := by
  unfold popped drainedIn doPop outs
  split <;> rfl

/-- The count moves by one for a lone push or pop, and never wraps. -/
theorem Aligned.next_cnt (h : s.Aligned) (i : SbIn aw dw) :
    (s.next i).cnt.toNat + (if s.doPop i then 1 else 0) =
      s.cnt.toNat + if s.doPush i then 1 else 0 := by
  unfold next
  cases hpush : s.doPush i with
  | false =>
    cases hpop : s.doPop i with
    | false => rfl
    | true => exact toNat_cnt_sub_one (cnt_pos hpop)
  | true =>
    cases hpop : s.doPop i with
    | false => exact toNat_cnt_add_one (h.cnt_lt hpush)
    | true => rfl

/-- The live entries with the accepted store behind them, before any pop. -/
theorem Aligned.window_push (h : s.Aligned) (i : SbIn aw dw) :
    Ring.window (s.next i).slots s.head (s.cnt.toNat + if s.doPush i then 1 else 0) =
      s.live ++ s.pushed i := by
  rw [pushed_eq, next_slots, live]
  cases hpush : s.doPush i with
  | false => simp
  | true =>
    rw [if_pos rfl, if_pos rfl, if_pos rfl, h.tail_eq, Ring.window_push _ _ (h.cnt_lt hpush)]

/-- A push does not touch the entry that leaves. -/
theorem Aligned.next_slots_head (h : s.Aligned) (hpop : s.doPop i = true) :
    (s.next i).slots s.head = (s.drainAddr, s.drainData) := by
  rw [next_slots]
  split
  · next hpush =>
    have hlt := h.cnt_lt hpush
    have hpos := cnt_pos hpop
    have hne : s.head ≠ s.tail := by
      intro he
      have h0 : s.head + BitVec.ofNat pw 0 = s.head + BitVec.ofNat pw s.cnt.toNat := by
        rw [← h.tail_eq, ← he]
        simp
      have := (Ring.add_ofNat_inj s.head (by omega) hlt).mp h0
      omega
    rw [Function.update_of_ne hne]
    rfl
  · rfl

/-- What leaves and what stays, from the old head on. -/
theorem Aligned.popped_append (h : s.Aligned) (i : SbIn aw dw) :
    s.popped i ++ (s.next i).live =
      Ring.window (s.next i).slots s.head
        ((s.next i).cnt.toNat + if s.doPop i then 1 else 0) := by
  rw [popped_eq, live]
  cases hpop : s.doPop i with
  | false =>
    have hhead : (s.next i).head = s.head := if_neg (by simp [hpop])
    simp [hhead]
  | true =>
    have hhead : (s.next i).head = s.head + 1 := if_pos hpop
    rw [if_pos rfl, if_pos rfl, Ring.window_succ, h.next_slots_head hpop, hhead]
    rfl

/-- **Conservation at a clock edge.** -/
theorem Aligned.popped_append_live (h : s.Aligned) (i : SbIn aw dw) :
    s.popped i ++ (s.next i).live = s.live ++ s.pushed i := by
  rw [h.popped_append, h.next_cnt, h.window_push]

theorem Aligned.next (h : s.Aligned) (i : SbIn aw dw) : (s.next i).Aligned := by
  have hcnt := h.next_cnt i
  have hle := h.cnt_le
  constructor
  · split at hcnt
    · split at hcnt <;> omega
    · split at hcnt
      · next hpush =>
        have := h.cnt_lt hpush
        omega
      · omega
  · -- both sides have moved by the push, and by the pop
    have hsum := congrArg (fun k => s.head + BitVec.ofNat pw k) hcnt
    simp only [← BitVec.ofNat_add_ofNat, ← BitVec.add_assoc, ← h.tail_eq] at hsum
    have htail : (s.next i).tail = s.tail + BitVec.ofNat pw (if s.doPush i then 1 else 0) := by
      unfold StoreBuffer.next
      split <;> simp
    have hhead : (s.next i).head = s.head + BitVec.ofNat pw (if s.doPop i then 1 else 0) := by
      unfold StoreBuffer.next
      dsimp only
      split <;> simp
    rw [htail, hhead, ← hsum]
    grind

-- ════════════════════════════════════════════════════════════════════════
-- Runs
-- ════════════════════════════════════════════════════════════════════════

/-- What holds along every run: nothing accepted is lost, duplicated or reordered. -/
structure RunInv (ins : List (SbIn aw dw)) (os : List (SbOut pw aw dw))
    (s : StoreBuffer pw aw dw) : Prop where
  length_eq : ins.length = os.length
  aligned : s.Aligned
  conserved : drained ins os ++ s.live = accepted ins os

theorem RunInv.step {ins : List (SbIn aw dw)} {os : List (SbOut pw aw dw)}
    (h : RunInv ins os s) (i : SbIn aw dw) :
    RunInv (ins ++ [i]) (os ++ [s.outs i]) (s.next i) := by
  refine ⟨by simp [h.length_eq], h.aligned.next i, ?_⟩
  calc drained (ins ++ [i]) (os ++ [s.outs i]) ++ (s.next i).live
      = drained ins os ++ (s.popped i ++ (s.next i).live) := by
        rw [drained, List.reduceOption_zipWith_append _ h.length_eq, List.append_assoc]
        rfl
    _ = drained ins os ++ s.live ++ s.pushed i := by
        rw [h.aligned.popped_append_live, List.append_assoc]
    _ = accepted ins os ++ s.pushed i := by rw [h.conserved]
    _ = accepted (ins ++ [i]) (os ++ [s.outs i]) :=
        (List.reduceOption_zipWith_append _ h.length_eq i _).symm

theorem runInv (s₀ : StoreBuffer pw aw dw) (ins : List (SbIn aw dw)) :
    RunInv ins ((machine pw aw dw).outputs s₀.reset ins)
      ((machine pw aw dw).run s₀.reset ins) := by
  refine (machine pw aw dw).history_invariant (P := RunInv) (C := fun _ _ => True)
    ⟨rfl, s₀.reset_aligned, rfl⟩ ?_ ins ((machine pw aw dw).allSteps_of_forall (by simp) _ _)
  intro is os s i h _
  exact h.step i

theorem live_eq_nil (s : StoreBuffer pw aw dw) : s.live = [] ↔ s.cnt = 0 := by
  rw [← List.length_eq_zero_iff, live, Ring.length_window, ← BitVec.toNat_inj]
  rfl

/-- **The hardware buffer is a FIFO.** After any inputs from reset, in any power-up
    contents: the entries drained followed by the live ones are the stores accepted;
    the count fits; a cycle with a fence accepts nothing; and the fence is acknowledged
    exactly when everything accepted has been drained. -/
theorem drained_append_live_eq_accepted (s₀ : StoreBuffer pw aw dw) (ins : List (SbIn aw dw)) :
    let s := (machine pw aw dw).run s₀.reset ins
    let os := (machine pw aw dw).outputs s₀.reset ins
    drained ins os ++ s.live = accepted ins os ∧ s.cnt.toNat ≤ 2 ^ pw ∧
      ∀ i, (i.fenceReq && (acceptedIn i (s.outs i)).isSome) = false ∧
        ((s.outs i).fenceAck = true ↔ i.fenceReq = true ∧ drained ins os = accepted ins os) := by
  intro s os
  obtain ⟨-, haligned, hcons⟩ := runInv s₀ ins
  refine ⟨hcons, haligned.cnt_le, fun i => ⟨?_, ?_⟩⟩
  · cases hf : i.fenceReq with
    | false => rfl
    | true => simp [acceptedIn, outs, sbFull, hf]
  · have hack : (s.outs i).fenceAck = true ↔ i.fenceReq = true ∧ s.live = [] := by
      rw [live_eq_nil]
      simp [outs, fenceAck]
    rw [hack]
    refine and_congr_right fun _ => ?_
    rw [← hcons]
    exact List.self_eq_append_right.symm

end StoreBuffer

end MesiCoherence.Rtl
