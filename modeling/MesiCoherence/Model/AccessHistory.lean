import Mathlib.Data.Finset.Card
import Mathlib.Data.List.DropRight
import MesiCoherence.Model.OpEffects
import MesiCoherence.Model.ReachableStates

/-!
# States and traffic from the access history

The MESI state of a line is a function of the accesses made to it: the last access of
write kind and the reads after it decide who holds the line and how. So the history
also decides what the next access counts and broadcasts.
-/

namespace MesiCoherence

variable {n : ℕ}

section Defs

variable (line : Word) (calls : List (Call n))

/-- The calls of a history that access a line, oldest first. -/
def callsOn : List (Call n) := calls.filter fun c => lineOf c.access.addr = line

/-- The last access of write kind: a write, a fetch-and-add, or a compare-and-swap
    whether or not it succeeded. -/
def lastAcquire : Option (Call n) := ((callsOn line calls).filter Call.acquires).getLast?

/-- The reads of a line after its last access of write kind. -/
def readsSince : List (Call n) := (callsOn line calls).rtakeWhile fun c => !c.acquires

/-- The core of the last access of write kind, with the cores that have read since. -/
def holders : Finset (Fin n) :=
  (((lastAcquire line calls).toList ++ readsSince line calls).map Call.core).toFinset

/-- The state in the cache of core `d` of a line with the given holders. -/
def heldState (holders : Finset (Fin n)) (written : Bool) (d : Fin n) : State :=
  if d ∉ holders then .I
  else if 2 ≤ holders.card then .S
  else if written then .M
  else .E

/-- The state that a history gives to a line. -/
def historyState (d : Fin n) : State :=
  heldState (holders line calls) (lastAcquire line calls).isSome d

end Defs

section History

variable {line : Word} {calls : List (Call n)} {c : Call n}

theorem callsOn_append_of_ne (h : lineOf c.access.addr ≠ line) :
    callsOn line (calls ++ [c]) = callsOn line calls := by
  simp [callsOn, h]

theorem callsOn_append_of_eq (h : lineOf c.access.addr = line) :
    callsOn line (calls ++ [c]) = callsOn line calls ++ [c] := by
  simp [callsOn, h]

/-- An access to another line changes nothing. -/
theorem lastAcquire_append_of_ne (h : lineOf c.access.addr ≠ line) :
    lastAcquire line (calls ++ [c]) = lastAcquire line calls := by
  rw [lastAcquire, callsOn_append_of_ne h, lastAcquire]

theorem holders_append_of_ne (h : lineOf c.access.addr ≠ line) :
    holders line (calls ++ [c]) = holders line calls := by
  rw [holders, lastAcquire_append_of_ne h, readsSince, callsOn_append_of_ne h, holders, readsSince]

/-- An access of write kind leaves its core as the only holder. -/
theorem lastAcquire_append_acquire (h : lineOf c.access.addr = line) (ha : c.acquires = true) :
    lastAcquire line (calls ++ [c]) = some c := by
  rw [lastAcquire, callsOn_append_of_eq h]
  simp [ha]

theorem holders_append_acquire (h : lineOf c.access.addr = line) (ha : c.acquires = true) :
    holders line (calls ++ [c]) = {c.core} := by
  rw [holders, lastAcquire_append_acquire h ha, readsSince, callsOn_append_of_eq h,
    List.rtakeWhile_concat_neg _ _ _ (by simp [ha])]
  simp

/-- A read adds its core to the holders. -/
theorem lastAcquire_append_read (h : lineOf c.access.addr = line) (ha : c.acquires = false) :
    lastAcquire line (calls ++ [c]) = lastAcquire line calls := by
  rw [lastAcquire, callsOn_append_of_eq h, lastAcquire]
  simp [ha]

theorem holders_append_read (h : lineOf c.access.addr = line) (ha : c.acquires = false) :
    holders line (calls ++ [c]) = insert c.core (holders line calls) := by
  rw [holders, lastAcquire_append_read h ha, readsSince, callsOn_append_of_eq h,
    List.rtakeWhile_concat_pos _ _ _ (by simp [ha])]
  ext d
  simp only [holders, readsSince, List.map_append, List.map_cons, List.map_nil,
    Finset.mem_insert, List.mem_toFinset, List.mem_append, List.mem_singleton]
  tauto

/-- The last access of write kind is by a holder. -/
theorem holders_nonempty (h : (lastAcquire line calls).isSome) :
    (holders line calls).Nonempty := by
  obtain ⟨w, hw⟩ := Option.isSome_iff_exists.mp h
  refine ⟨w.core, ?_⟩
  simp [holders, hw]

end History

section HeldState

variable {A : Finset (Fin n)} {written : Bool} {c d : Fin n}

theorem heldState_eq_I : heldState A written d = .I ↔ d ∉ A := by
  unfold heldState
  split_ifs <;> simp_all

theorem heldState_eq_S : heldState A written d = .S ↔ d ∈ A ∧ 2 ≤ A.card := by
  unfold heldState
  split_ifs <;> simp_all

/-- A lone holder is a holder among fewer than two. -/
theorem eq_singleton_iff_card (A : Finset (Fin n)) (d : Fin n) :
    A = {d} ↔ d ∈ A ∧ ¬ 2 ≤ A.card := by
  constructor
  · rintro rfl
    simp
  · rintro ⟨hd, hcard⟩
    have hpos := Finset.card_pos.mpr ⟨d, hd⟩
    obtain ⟨e, rfl⟩ := Finset.card_eq_one.mp (show A.card = 1 by omega)
    rw [Finset.mem_singleton.mp hd]

theorem heldState_eq_M : heldState A written d = .M ↔ A = {d} ∧ written = true := by
  rw [eq_singleton_iff_card]
  unfold heldState
  split_ifs <;> simp_all

theorem heldState_eq_E : heldState A written d = .E ↔ A = {d} ∧ written = false := by
  rw [eq_singleton_iff_card]
  unfold heldState
  split_ifs <;> simp_all

/-- A read miss downgrades the holders and joins them, or finds nobody. -/
theorem heldState_insert (hc : c ∉ A) (hwritten : written = true → A.Nonempty) :
    heldState (insert c A) written d =
      if d = c then (if ∃ k, k ≠ c ∧ heldState A written k ≠ .I then .S else .E)
      else BusTxn.busRd.snoopNext (heldState A written d) := by
  have hcard : (insert c A).card = A.card + 1 := Finset.card_insert_of_notMem hc
  have hother : (∃ k, k ≠ c ∧ heldState A written k ≠ .I) ↔ A.Nonempty := by
    simp only [ne_eq, heldState_eq_I, not_not]
    constructor
    · rintro ⟨k, -, hk⟩
      exact ⟨k, hk⟩
    · rintro ⟨k, hk⟩
      exact ⟨k, fun he => hc (he ▸ hk), hk⟩
  by_cases hd : d = c
  · subst hd
    rw [if_pos rfl]
    by_cases hA : A.Nonempty
    · have hpos := Finset.card_pos.mpr hA
      rw [if_pos (hother.mpr hA), heldState_eq_S]
      exact ⟨Finset.mem_insert_self _ _, by omega⟩
    · have hfalse : written = false := by
        rw [← Bool.not_eq_true]
        exact fun h => hA (hwritten h)
      rw [if_neg fun h => hA (hother.mp h), Finset.not_nonempty_iff_eq_empty.mp hA, hfalse]
      simp [heldState]
  · rw [if_neg hd]
    by_cases hdA : d ∈ A
    · have hpos := Finset.card_pos.mpr ⟨d, hdA⟩
      have hnew : heldState (insert c A) written d = .S :=
        heldState_eq_S.mpr ⟨Finset.mem_insert_of_mem hdA, by omega⟩
      rw [hnew]
      unfold heldState
      split_ifs <;> rfl
    · rw [heldState_eq_I.mpr hdA, BusTxn.snoopNext_I, heldState_eq_I]
      simp [hd, hdA]

end HeldState

namespace MesiSystem

/-- The system after a history of calls. -/
def after (n : ℕ) (calls : List (Call n)) : MesiSystem n :=
  (machine n).run (.new n) (calls.map .call)

variable {calls : List (Call n)}

theorem after_append (calls : List (Call n)) (c : Call n) :
    after n (calls ++ [c]) = ((after n calls).exec c).1 := by
  rw [after, List.map_append, Machine.run_append]
  rfl

theorem after_coherent (calls : List (Call n)) :
    ∃ flat, Coherent (fun _ => 0) flat (after n calls).bus :=
  (reachable_coherent n _).1

/-- The history decides every state. -/
theorem lineState_after (calls : List (Call n)) (d : Fin n) (line : Word) :
    (after n calls).lineState d line = historyState line calls d := by
  induction calls using List.reverseRecOn generalizing d line with
  | nil => rfl
  | append_singleton calls c ih =>
    obtain ⟨flat, hco⟩ := after_coherent calls
    rw [after_append, exec_lineState hco]
    by_cases hl : line = lineOf c.access.addr
    · have hl' := hl.symm
      rw [if_pos hl]
      cases ha : c.acquires with
      | true =>
        rw [if_pos rfl, historyState, holders_append_acquire hl' ha,
          lastAcquire_append_acquire hl' ha]
        by_cases hd : d = c.core <;> simp [hd, heldState]
      | false =>
        simp only [ih, Bool.false_eq_true, if_false, historyState, holders_append_read hl' ha,
          lastAcquire_append_read hl' ha]
        by_cases hc : c.core ∈ holders line calls
        · rw [if_neg fun hI => heldState_eq_I.mp hI hc, Finset.insert_eq_of_mem hc]
        · rw [if_pos (heldState_eq_I.mpr hc), heldState_insert hc holders_nonempty]
    · simp only [if_neg hl, ih, historyState, holders_append_of_ne (Ne.symm hl),
        lastAcquire_append_of_ne (Ne.symm hl)]

theorem lineState_after_eq_I (calls : List (Call n)) (d : Fin n) (line : Word) :
    (after n calls).lineState d line = .I ↔ d ∉ holders line calls := by
  rw [lineState_after]
  exact heldState_eq_I

theorem lineState_after_eq_S (calls : List (Call n)) (d : Fin n) (line : Word) :
    (after n calls).lineState d line = .S ↔
      d ∈ holders line calls ∧ 2 ≤ (holders line calls).card := by
  rw [lineState_after]
  exact heldState_eq_S

theorem lineState_after_eq_M (calls : List (Call n)) (d : Fin n) (line : Word) :
    (after n calls).lineState d line = .M ↔
      holders line calls = {d} ∧ (lastAcquire line calls).isSome := by
  rw [lineState_after]
  exact heldState_eq_M

theorem lineState_after_eq_E (calls : List (Call n)) (d : Fin n) (line : Word) :
    (after n calls).lineState d line = .E ↔
      holders line calls = {d} ∧ lastAcquire line calls = none := by
  rw [lineState_after, ← Option.not_isSome_iff_eq_none, Bool.not_eq_true]
  exact heldState_eq_E

/-- For a core that is no holder, a peer is dirty when the written line has one holder. -/
theorem dirtyPeer_after (calls : List (Call n)) (c : Fin n) (line : Word)
    (hc : c ∉ holders line calls) :
    (after n calls).bus.DirtyPeer c line ↔
      (holders line calls).card = 1 ∧ (lastAcquire line calls).isSome := by
  constructor
  · rintro ⟨k, -, hM⟩
    obtain ⟨hA, hw⟩ := (lineState_after_eq_M calls k line).mp hM
    exact ⟨by rw [hA, Finset.card_singleton], hw⟩
  · rintro ⟨hone, hw⟩
    obtain ⟨k, hA⟩ := Finset.card_eq_one.mp hone
    refine ⟨k, ?_, (lineState_after_eq_M calls k line).mpr ⟨hA, hw⟩⟩
    rintro rfl
    exact hc (by simp [hA])

-- ════════════════════════════════════════════════════════════════════════
-- The transaction of the next access
-- ════════════════════════════════════════════════════════════════════════

variable (acquires : Bool) (core : Fin n) (line : Word)

theorem busRd_after :
    opTxn acquires ((after n calls).lineState core line) = .busRd ↔
      acquires = false ∧ core ∉ holders line calls := by
  rw [opTxn_eq_busRd, lineState_after_eq_I]

theorem busRdX_after :
    opTxn acquires ((after n calls).lineState core line) = .busRdX ↔
      acquires = true ∧ core ∉ holders line calls := by
  rw [opTxn_eq_busRdX, lineState_after_eq_I]

theorem busUpgr_after :
    opTxn acquires ((after n calls).lineState core line) = .busUpgr ↔
      acquires = true ∧ core ∈ holders line calls ∧ 2 ≤ (holders line calls).card := by
  rw [opTxn_eq_busUpgr, lineState_after_eq_S]

/-- A peer writes back when a core that is no holder accesses a written line of one holder. -/
theorem writeback_after :
    (BusTxn.Fetches (opTxn acquires ((after n calls).lineState core line)) ∧
        (after n calls).bus.DirtyPeer core line) ↔
      core ∉ holders line calls ∧ (holders line calls).card = 1 ∧
        (lastAcquire line calls).isSome := by
  rw [opTxn_fetches, lineState_after_eq_I]
  exact and_congr_right (dirtyPeer_after calls core line)

/-- **Traffic of an access pattern.** The history of a fresh system decides the state of
    every line in every cache, and with it what the next access counts: a hit or a miss,
    the transaction it issues, and whether a peer writes back. -/
theorem states_and_traffic_of_history (n : ℕ) (calls : List (Call n)) :
    (∀ (line : Word) (d : Fin n),
      let A := holders line calls
      let st := (after n calls).lineState d line
      (st = .I ↔ d ∉ A) ∧ (st = .S ↔ d ∈ A ∧ 2 ≤ A.card) ∧
        (st = .M ↔ A = {d} ∧ (lastAcquire line calls).isSome) ∧
        (st = .E ↔ A = {d} ∧ lastAcquire line calls = none)) ∧
    (∀ c : Call n,
      let A := holders (lineOf c.access.addr) calls
      let p := (after n calls).bus.perf
      let q := ((after n calls).exec c).1.bus.perf
      q.l1Hit c.core = p.l1Hit c.core + (if c.core ∈ A then 1 else 0) ∧
        q.l1Miss c.core = p.l1Miss c.core + (if c.core ∉ A then 1 else 0) ∧
        q.busRdCount = p.busRdCount + (if c.acquires = false ∧ c.core ∉ A then 1 else 0) ∧
        q.busRdxCount = p.busRdxCount + (if c.acquires = true ∧ c.core ∉ A then 1 else 0) ∧
        q.busUpgrCount = p.busUpgrCount +
          (if c.acquires = true ∧ c.core ∈ A ∧ 2 ≤ A.card then 1 else 0) ∧
        q.busWbCount = p.busWbCount +
          (if c.core ∉ A ∧ A.card = 1 ∧
            (lastAcquire (lineOf c.access.addr) calls).isSome then 1 else 0)) := by
  refine ⟨fun line d => ⟨lineState_after_eq_I calls d line, lineState_after_eq_S calls d line,
    lineState_after_eq_M calls d line, lineState_after_eq_E calls d line⟩, ?_⟩
  intro c
  obtain ⟨flat, hco⟩ := after_coherent calls
  have hI : (after n calls).bus.lineState c.core (lineOf c.access.addr) = .I ↔ _ :=
    lineState_after_eq_I calls c.core (lineOf c.access.addr)
  simp only [exec_perf hco, SnoopingBus.opPerf, SnoopingBus.writebacks, busRd_after, busRdX_after,
    busUpgr_after, writeback_after, hI, true_and, ne_eq, not_not, and_self]

end MesiSystem

end MesiCoherence
