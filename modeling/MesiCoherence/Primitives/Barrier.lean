import Mathlib.Data.Fintype.Card
import MesiCoherence.Primitives.Dut

/-!
# The sense-reversing barrier

`primitives/barrier.hpp`: `wait` flips the thread's private sense and decrements the
count; the last arriver resets the count and then publishes its sense, the others spin
until they see theirs. Episodes overlap, since a fast thread may arrive for the next one
while slow threads still spin.

This file has the code and its invariant, which is about the number of published senses
(`E`, the episodes released) and the number of decrements and returns of each thread:
every thread has made `E` or `E + 1` decrements.
-/

namespace MesiCoherence

/-- A barrier for `n` threads, where `n` is a positive `int`. -/
structure Barrier (n : ℕ) where
  countAddr : Word
  senseAddr : Word
  pos : 0 < n
  bound : n < 2 ^ 31

/-- The program points of `wait`, each with the private sense of its thread. -/
inductive BarrierLocal where
  | idle (sense : Word)
  /-- about to decrement the count -/
  | arrive (sense : Word)
  /-- the last arriver, about to reset the count -/
  | reset (sense : Word)
  /-- the last arriver, about to publish its sense -/
  | release (sense : Word)
  | spin (sense : Word)
  deriving DecidableEq, Repr

namespace Barrier

variable {n : ℕ} (bar : Barrier n)

/-- `wait`, called by threads that are not waiting. -/
def code : ThreadCode (Fin n) Word Word Unit BarrierLocal where
  command locals t _ :=
    match locals t with
    | .idle sense => some (.arrive (sense ^^^ 1))
    | _ => none
  next
    | .idle _ => none
    | .arrive _ => some (.fetchAndAdd bar.countAddr (-1))
    | .reset _ => some (.write bar.countAddr (BitVec.ofNat 32 n))
    | .release sense => some (.write bar.senseAddr sense)
    | .spin _ => some (.read bar.senseAddr)
  resume
    | .arrive sense, .value prev => if prev = 1 then .reset sense else .spin sense
    | .reset sense, _ => .release sense
    | .release sense, _ => .idle sense
    | .spin sense, .value v => if v = sense then .idle sense else .spin sense
    | l, _ => l
  foreign acc := [bar.countAddr, bar.senseAddr].all acc.keeps

/-- `init`: the memory after a thread has initialised the barrier. -/
def init {T M : Type*} (memory : CoherentMemory T M Word Word) (t : T) (m : M) : M :=
  let m := (memory.exec m t (.write bar.countAddr (BitVec.ofNat 32 n))).1
  (memory.exec m t (.write bar.senseAddr 0)).1

/-- The sense after `k` episodes. -/
def parity (k : ℕ) : Word := BitVec.ofNat 32 (k % 2)

theorem parity_flip (k : ℕ) : parity k ^^^ 1 = parity (k + 1) := by
  rcases Nat.mod_two_eq_zero_or_one k with h | h
  · have h' : (k + 1) % 2 = 1 := by omega
    rw [parity, parity, h, h']
    rfl
  · have h' : (k + 1) % 2 = 0 := by omega
    rw [parity, parity, h, h']
    rfl

theorem parity_ne_succ (k : ℕ) : parity k ≠ parity (k + 1) := by
  rcases Nat.mod_two_eq_zero_or_one k with h | h
  · have h' : (k + 1) % 2 = 1 := by omega
    rw [parity, parity, h, h']
    decide
  · have h' : (k + 1) % 2 = 0 := by omega
    rw [parity, parity, h, h']
    decide

/-- The number of threads that have arrived in the current episode. -/
def arrived (E : ℕ) (dec : Fin n → ℕ) : ℕ := (Finset.univ.filter fun t => dec t = E + 1).card

theorem arrived_lt {E : ℕ} {dec : Fin n → ℕ} {t : Fin n} (h : dec t = E) : arrived E dec < n := by
  have hlt : (Finset.univ.filter fun u => dec u = E + 1).card <
      (Finset.univ : Finset (Fin n)).card := by
    refine Finset.card_lt_card (Finset.filter_ssubset.mpr ⟨t, Finset.mem_univ t, ?_⟩)
    omega
  simpa [arrived] using hlt

theorem arrived_update {E : ℕ} {dec : Fin n → ℕ} {t : Fin n} (h : dec t = E) :
    arrived E (Function.update dec t (E + 1)) = arrived E dec + 1 := by
  have hins : (Finset.univ.filter fun u => Function.update dec t (E + 1) u = E + 1) =
      insert t (Finset.univ.filter fun u => dec u = E + 1) := by
    ext u
    by_cases hu : u = t
    · simp [hu]
    · simp [hu]
  rw [arrived, hins, Finset.card_insert_of_notMem (by simp [h]), arrived]

theorem arrived_eq_iff (E : ℕ) (dec : Fin n → ℕ) : arrived E dec = n ↔ ∀ t, dec t = E + 1 := by
  have hcard : arrived E dec = n ↔
      (Finset.univ.filter fun t => dec t = E + 1).card = (Finset.univ : Finset (Fin n)).card := by
    simp [arrived]
  rw [hcard, Finset.card_filter_eq_iff]
  simp

/-- Between the last arrival of an episode and its release. -/
def leading : BarrierLocal → Bool
  | .reset _ => true
  | .release _ => true
  | _ => false

/-- What a thread's program point says about its decrements, its returns and the count. -/
def LocalOk (n E : ℕ) (dec : Fin n → ℕ) (count : Word) (d r : ℕ) : BarrierLocal → Prop
  | .idle sense => d = E ∧ r = E ∧ sense = parity E
  | .arrive sense => d = E ∧ r = E ∧ sense = parity (E + 1)
  | .reset sense => (∀ u, dec u = E + 1) ∧ r = E ∧ sense = parity (E + 1)
  | .release sense => (∀ u, dec u = E + 1) ∧ r = E ∧ sense = parity (E + 1) ∧
    count = BitVec.ofNat 32 n
  | .spin sense => r + 1 = d ∧ sense = parity d

/-- The state of a barrier after `E` releases, with the decrements and returns made. -/
structure Inv (E : ℕ) (dec ret : Fin n → ℕ) (s : ThreadState (Fin n) (Word → Word) BarrierLocal) :
    Prop where
  sense : s.mem bar.senseAddr = parity E
  range : ∀ t, dec t = E ∨ dec t = E + 1
  thread : ∀ t, LocalOk n E dec (s.mem bar.countAddr) (dec t) (ret t) (s.locals t)
  count : (∀ t sense, s.locals t ≠ .release sense) →
    s.mem bar.countAddr = BitVec.ofNat 32 (n - arrived E dec)
  leader : ∀ t u, leading (s.locals t) = true → leading (s.locals u) = true → t = u

variable {bar} {E : ℕ} {dec ret : Fin n → ℕ} {t : Fin n} {x : Word}
  {s : ThreadState (Fin n) (Word → Word) BarrierLocal} {m : Word → Word} {l : BarrierLocal}

/-- Only the leader's facts mention the other threads and the count. -/
theorem LocalOk.of_not_leading {dec' : Fin n → ℕ} {c c' : Word} {d r : ℕ}
    (h : LocalOk n E dec c d r l) (hl : leading l = false) : LocalOk n E dec' c' d r l := by
  cases l with
  | reset x => cases hl
  | release x => cases hl
  | _ => exact h

/-- Before a thread has arrived there is no leader. -/
theorem Inv.not_leading (h : bar.Inv E dec ret s) (ht : dec t = E) (u : Fin n) :
    leading (s.locals u) = false := by
  have hu := h.thread u
  cases hloc : s.locals u with
  | reset x =>
    rw [hloc] at hu
    have := hu.1 t
    omega
  | release x =>
    rw [hloc] at hu
    have := hu.1 t
    omega
  | _ => rfl

/-- A step that touches neither word, by a thread that is not leading before or after. -/
theorem Inv.move (h : bar.Inv E dec ret s) (hc : m bar.countAddr = s.mem bar.countAddr)
    (hs : m bar.senseAddr = s.mem bar.senseAddr) {r : ℕ} (ht : leading (s.locals t) = false)
    (hl : leading l = false) (hok : LocalOk n E dec (m bar.countAddr) (dec t) r l) :
    bar.Inv E dec (Function.update ret t r) ((s.setMem m).setLocal t l) := by
  refine ⟨hs.trans h.sense, h.range, ?_, ?_, ?_⟩
  · refine ThreadState.forall_setLocal (P := fun u l => LocalOk n E dec (m bar.countAddr) (dec u)
      (Function.update ret t r u) l) ?_ ?_
    · rw [Function.update_self]
      exact hok
    · intro u hu
      rw [Function.update_of_ne hu, hc]
      exact h.thread u
  · intro hno
    refine hc.trans (h.count fun u y hu => ?_)
    by_cases hut : u = t
    · subst hut
      rw [hu] at ht
      cases ht
    · have := hno u y
      rw [ThreadState.setLocal_of_ne _ hut] at this
      exact this hu
  · refine ThreadState.unique_setLocal_of_imp h.leader fun hlead => ?_
    rw [hl] at hlead
    cases hlead

/-- `wait` is called. -/
theorem Inv.call (h : bar.Inv E dec ret s) (ht : s.locals t = .idle x) :
    bar.Inv E dec ret (s.setLocal t (.arrive (x ^^^ 1))) := by
  have hok := h.thread t
  rw [ht] at hok
  obtain ⟨hd, hr, hx⟩ := hok
  have hmove := h.move (t := t) (l := .arrive (x ^^^ 1)) (m := s.mem) (r := ret t) rfl rfl
    (by rw [ht]; rfl) rfl ⟨hd, hr, by rw [hx, parity_flip]⟩
  rwa [Function.update_eq_self] at hmove

/-- The count that an arriving thread sees. -/
theorem Inv.count_of_arrive (h : bar.Inv E dec ret s) (ht : dec t = E) :
    s.mem bar.countAddr = BitVec.ofNat 32 (n - arrived E dec) := by
  refine h.count fun u y hu => ?_
  have hlead := h.not_leading ht u
  rw [hu] at hlead
  cases hlead

theorem Inv.count_toNat (h : bar.Inv E dec ret s) (ht : dec t = E) :
    (s.mem bar.countAddr).toNat = n - arrived E dec := by
  have hbound := bar.bound
  rw [h.count_of_arrive ht, BitVec.toNat_ofNat, Nat.mod_eq_of_lt (by omega)]

/-- A thread sees 1 exactly when all threads have arrived with it. -/
theorem Inv.last_iff (h : bar.Inv E dec ret s) (ht : dec t = E) :
    s.mem bar.countAddr = 1 ↔ ∀ u, Function.update dec t (E + 1) u = E + 1 := by
  have hnat := h.count_toNat ht
  have hlt := arrived_lt ht
  have h1 : (1 : Word).toNat = 1 := rfl
  rw [← arrived_eq_iff, arrived_update ht, ← BitVec.toNat_inj, hnat, h1]
  omega

/-- A thread arrives. It is the last one exactly when it sees 1. -/
theorem Inv.arrive (h : bar.Inv E dec ret s) (hne : bar.countAddr ≠ bar.senseAddr)
    (ht : s.locals t = .arrive x) :
    bar.Inv E (Function.update dec t (E + 1)) ret
      ((s.setMem (Function.update s.mem bar.countAddr (s.mem bar.countAddr + -1))).setLocal t
        (if s.mem bar.countAddr = 1 then .reset x else .spin x)) := by
  have hok := h.thread t
  rw [ht] at hok
  obtain ⟨hd, hr, hx⟩ := hok
  have hlead := h.not_leading hd
  have hcount := h.count_of_arrive hd
  have hnat := h.count_toNat hd
  have hlt := arrived_lt hd
  have hbound := bar.bound
  have hnew : s.mem bar.countAddr + -1 =
      BitVec.ofNat 32 (n - arrived E (Function.update dec t (E + 1))) := by
    rw [arrived_update hd]
    apply BitVec.eq_of_toNat_eq
    have hneg : (-1 : Word).toNat = 2 ^ 32 - 1 := rfl
    rw [BitVec.toNat_add, hnat, hneg, BitVec.toNat_ofNat]
    omega
  refine ⟨?_, ?_, ?_, ?_, ?_⟩
  · exact (Function.update_of_ne hne.symm _ _).trans h.sense
  · intro u
    by_cases hu : u = t
    · subst hu
      exact Or.inr (Function.update_self _ _ _)
    · rw [Function.update_of_ne hu]
      exact h.range u
  · refine ThreadState.forall_setLocal (P := fun u l => LocalOk n E (Function.update dec t (E + 1))
      _ (Function.update dec t (E + 1) u) (ret u) l) ?_ ?_
    · rw [Function.update_self]
      by_cases hone : s.mem bar.countAddr = 1
      · rw [if_pos hone]
        exact ⟨(h.last_iff hd).mp hone, hr, hx⟩
      · rw [if_neg hone]
        exact ⟨by rw [hr], hx⟩
    · intro u hu
      rw [Function.update_of_ne hu]
      exact (h.thread u).of_not_leading (hlead u)
  · intro _
    exact (Function.update_self _ _ _).trans hnew
  · exact ThreadState.unique_setLocal fun u _ => hlead u

/-- The last arriver resets the count. -/
theorem Inv.reset (h : bar.Inv E dec ret s) (hne : bar.countAddr ≠ bar.senseAddr)
    (ht : s.locals t = .reset x) :
    bar.Inv E dec ret
      ((s.setMem (Function.update s.mem bar.countAddr (BitVec.ofNat 32 n))).setLocal t
        (.release x)) := by
  have hok := h.thread t
  rw [ht] at hok
  obtain ⟨hall, hr, hx⟩ := hok
  have hlead : ∀ u, u ≠ t → leading (s.locals u) = false :=
    ThreadState.others_of_unique h.leader (by rw [ht]; rfl)
  refine ⟨?_, h.range, ?_, ?_, ?_⟩
  · exact (Function.update_of_ne hne.symm _ _).trans h.sense
  · refine ThreadState.forall_setLocal (P := fun u l => LocalOk n E dec _ (dec u) (ret u) l) ?_ ?_
    · exact ⟨hall, hr, hx, Function.update_self _ _ _⟩
    · intro u hu
      exact (h.thread u).of_not_leading (hlead u hu)
  · intro hno
    exact absurd (ThreadState.setLocal_self _ _ _) (hno t x)
  · exact ThreadState.unique_setLocal hlead

/-- The last arriver publishes its sense and returns: the next episode begins. -/
theorem Inv.release (h : bar.Inv E dec ret s) (hne : bar.countAddr ≠ bar.senseAddr)
    (ht : s.locals t = .release x) :
    bar.Inv (E + 1) dec (Function.update ret t (E + 1))
      ((s.setMem (Function.update s.mem bar.senseAddr x)).setLocal t (.idle x)) := by
  have hok := h.thread t
  rw [ht] at hok
  obtain ⟨hall, hr, hx, hcount⟩ := hok
  have hlead : ∀ u, u ≠ t → leading (s.locals u) = false :=
    ThreadState.others_of_unique h.leader (by rw [ht]; rfl)
  have hnone : arrived (E + 1) dec = 0 := by
    rw [arrived, Finset.card_eq_zero, Finset.filter_eq_empty_iff]
    intro u _
    rw [hall u]
    omega
  refine ⟨?_, fun u => Or.inl (hall u), ?_, ?_, ?_⟩
  · rw [← hx]
    exact Function.update_self _ _ _
  · refine ThreadState.forall_setLocal (P := fun u l => LocalOk n (E + 1) dec _ (dec u)
      (Function.update ret t (E + 1) u) l) ?_ ?_
    · rw [Function.update_self]
      exact ⟨hall t, rfl, hx⟩
    · -- everyone else has arrived and spins
      intro u hu
      have hok := h.thread u
      have hl := hlead u hu
      have hdu := hall u
      rw [Function.update_of_ne hu, ThreadState.setMem_locals]
      cases hloc : s.locals u with
      | idle y =>
        rw [hloc] at hok
        have := hok.1
        omega
      | arrive y =>
        rw [hloc] at hok
        have := hok.1
        omega
      | spin y =>
        rw [hloc] at hok
        exact hok
      | _ =>
        rw [hloc] at hl
        cases hl
  · intro _
    rw [hnone]
    exact (Function.update_of_ne hne _ _).trans hcount
  · exact ThreadState.unique_setLocal hlead

/-- Other code leaves both words alone. -/
theorem Inv.other (h : bar.Inv E dec ret s) (hc : m bar.countAddr = s.mem bar.countAddr)
    (hs : m bar.senseAddr = s.mem bar.senseAddr) : bar.Inv E dec ret (s.setMem m) := by
  refine ⟨hs.trans h.sense, h.range, ?_, fun hno => hc.trans (h.count hno), h.leader⟩
  intro t
  rw [ThreadState.setMem_mem, hc]
  exact h.thread t

/-- A spinning thread sees its sense exactly when its episode has been released. -/
theorem Inv.spin_iff (h : bar.Inv E dec ret s) (ht : s.locals t = .spin x) :
    s.mem bar.senseAddr = x ↔ dec t = E := by
  have hok := h.thread t
  rw [ht] at hok
  rw [h.sense, hok.2]
  rcases h.range t with hd | hd
  · simp [hd]
  · have hpar := parity_ne_succ E
    constructor
    · intro he
      rw [hd] at he
      exact absurd he hpar
    · omega

/-- A spinning thread looks again, or returns. -/
theorem Inv.spin (h : bar.Inv E dec ret s) (ht : s.locals t = .spin x) :
    bar.Inv E dec
      (Function.update ret t (if s.mem bar.senseAddr = x then ret t + 1 else ret t))
      ((s.setMem s.mem).setLocal t (if s.mem bar.senseAddr = x then .idle x else .spin x)) := by
  have hok := h.thread t
  rw [ht] at hok
  have hiff := h.spin_iff ht
  by_cases hx : s.mem bar.senseAddr = x
  · rw [if_pos hx, if_pos hx]
    have hd := hiff.mp hx
    refine h.move rfl rfl (by rw [ht]; rfl) rfl ⟨hd, ?_, ?_⟩
    · rw [hok.1, hd]
    · rw [hok.2, hd]
  · rw [if_neg hx, if_neg hx]
    exact h.move rfl rfl (by rw [ht]; rfl) rfl hok

end Barrier

end MesiCoherence
