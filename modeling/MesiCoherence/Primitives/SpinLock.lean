import MesiCoherence.Lib.LockClient
import MesiCoherence.Primitives.Dut

/-!
# The test-and-set spinlock

`primitives/spinlock.hpp`: `lock` tries a compare-and-swap and, while the lock looks
held, spins on plain reads; `unlock` is a plain store.
-/

namespace MesiCoherence

structure TASLock where
  flagAddr : Word
  deriving DecidableEq, Repr

namespace TASLock

/-- The program points of `lock`. -/
inductive Point where
  | cas
  | spin
  deriving DecidableEq, Repr

variable (lk : TASLock)

/-- `lock` and `unlock`. -/
def code : LockCode Word Word Point where
  start := .cas
  next
    | .cas => .cas lk.flagAddr 0 1
    | .spin => .read lk.flagAddr
  resume
    | .cas, .swap _ success => if success then none else some .spin
    | .spin, .value v => if v = 1 then some .spin else some .cas
    | k, _ => some k
  unlock := .write lk.flagAddr 0
  words := [lk.flagAddr]
  next_mem k := by cases k <;> exact List.mem_singleton_self _
  unlock_mem := List.mem_singleton_self _

variable {T : Type*} [DecidableEq T]

/-- The flag is 1 while a thread is inside, and 0 otherwise. -/
structure FlagInv (s : ClientState T Word Word Point) : Prop where
  exclusive : Exclusive s
  held : ∀ t, (s.locals t).inside = true → s.mem lk.flagAddr = 1
  free : (∀ t, (s.locals t).inside = false) → s.mem lk.flagAddr = 0

variable {lk} {s : ClientState T Word Word Point} {t : T} {m : Word → Word}
  {l : ClientLocal Point Word}

/-- A step that keeps the flag and stays inside or outside. -/
theorem FlagInv.move (h : lk.FlagInv s) (hm : m lk.flagAddr = s.mem lk.flagAddr)
    (hl : l.inside = (s.locals t).inside) : lk.FlagInv ((s.setMem m).setLocal t l) := by
  have hin : ∀ u, (((s.setMem m).setLocal t l).locals u).inside = (s.locals u).inside :=
    ThreadState.setLocal_congr hl
  refine ⟨?_, ?_, ?_⟩
  · intro u v hu hv
    rw [hin] at hu hv
    exact h.exclusive u v hu hv
  · intro u hu
    rw [hin] at hu
    exact hm.trans (h.held u hu)
  · intro hfree
    simp only [hin] at hfree
    exact hm.trans (h.free hfree)

/-- A compare-and-swap that finds 0 finds nobody inside. -/
theorem FlagInv.acquire (h : lk.FlagInv s) (h0 : s.mem lk.flagAddr = 0) :
    lk.FlagInv ((s.setMem (Function.update s.mem lk.flagAddr 1)).setLocal t .entered) := by
  have hnone : ∀ u, (s.locals u).inside = false := by
    intro u
    rw [← Bool.not_eq_true]
    intro hu
    have h1 := h.held u hu
    rw [h0] at h1
    cases h1
  refine ⟨?_, fun _ _ => Function.update_self _ _ _, ?_⟩
  · exact ThreadState.unique_setLocal fun u _ => hnone u
  · intro hfree
    have := hfree t
    rw [ThreadState.setLocal_self] at this
    cases this

/-- The thread inside stores 0 and leaves nobody inside. -/
theorem FlagInv.release (h : lk.FlagInv s) (ht : (s.locals t).inside = true) :
    lk.FlagInv ((s.setMem (Function.update s.mem lk.flagAddr 0)).setLocal t .idle) := by
  have hnone : ∀ u, (((s.setMem (Function.update s.mem lk.flagAddr 0)).setLocal t
      .idle).locals u).inside = false :=
    ThreadState.forall_setLocal (P := fun _ (l : ClientLocal Point Word) => l.inside = false) rfl
      (ThreadState.others_of_unique h.exclusive ht)
  refine ⟨?_, ?_, fun _ => Function.update_self _ _ _⟩
  · intro u v hu _
    rw [hnone u] at hu
    cases hu
  · intro u hu
    rw [hnone u] at hu
    cases hu

/-- One access of `lock`. -/
theorem FlagInv.lock (h : lk.FlagInv s) {k : Point} (hk : s.locals t = .locking k) :
    lk.FlagInv ((s.setMem ((lk.code.next k).exec s.mem).1).setLocal t
      (LockCode.afterLock (lk.code.resume k ((lk.code.next k).exec s.mem).2))) := by
  cases k with
  | cas =>
    by_cases h0 : s.mem lk.flagAddr = 0
    · have hexec : (lk.code.next .cas).exec s.mem = _ := Access.exec_cas_of_eq h0 1
      rw [hexec]
      exact h.acquire h0
    · have hexec : (lk.code.next .cas).exec s.mem = _ := Access.exec_cas_of_ne h0 1
      rw [hexec]
      exact h.move rfl (by rw [hk]; rfl)
  | spin =>
    have hexec : (lk.code.next .spin).exec s.mem = _ := Access.exec_read s.mem lk.flagAddr
    rw [hexec]
    refine h.move rfl ?_
    rw [hk]
    show (LockCode.afterLock (if s.mem lk.flagAddr = 1 then some .spin else some .cas) :
      ClientLocal Point Word).inside = false
    split <;> rfl

/-- The flag invariant and the counter, along every run over a flat memory. -/
theorem flagInv_run {ctr : Word} (hctr : ctr ≠ lk.flagAddr) {m : Word → Word}
    (h0 : m lk.flagAddr = 0) (acts : List (ThreadAction T Unit Word Word)) :
    let es := (lk.code.client ctr).trace .flat (.start (T := T) m .idle) acts
    let s := (lk.code.client ctr).run .flat (.start (T := T) m .idle) acts
    lk.FlagInv s ∧ LockCode.CounterInv ctr (m ctr) es s := by
  refine lk.code.client_invariant (I := fun _ s => lk.FlagInv s)
    (by simpa [code] using hctr) (fun _ _ h => h.exclusive) ?_ (fun _ => rfl) ?_ ?_ ?_ ?_ ?_ acts
  · refine ⟨?_, ?_, fun _ => h0⟩
    · intro t u ht
      cases ht
    · intro t ht
      cases ht
  · intro es s t h hidle
    exact h.move (m := s.mem) rfl (by rw [hidle]; rfl)
  · intro es s t k h hk
    exact h.lock hk
  · intro es s t acc r m l h hin _ hl hm
    exact h.move (hm _ (List.mem_singleton_self _)) (by rw [hin, hl])
  · intro es s t h ht
    exact h.release (by rw [ht]; rfl)
  · intro es s t acc r m h hm
    have hflag := hm _ (List.mem_singleton_self _)
    exact ⟨h.exclusive, fun u hu => hflag.trans (h.held u hu),
      fun hfree => hflag.trans (h.free hfree)⟩

omit [DecidableEq T] in
/-- What the invariants say about the threads, the flag and the counter. -/
theorem FlagInv.facts {es : List (ClientEvent T Word Word Point)} {ctr init : Word}
    (hinv : lk.FlagInv s) (hcount : LockCode.CounterInv ctr init es s) :
    Exclusive s ∧ (s.mem lk.flagAddr = 1 ↔ ∃ t, (s.locals t).inside = true) ∧
      ((∀ t, (s.locals t).inside = false) →
        s.mem ctr = init + BitVec.ofNat 32 (completed es)) := by
  refine ⟨hinv.exclusive, ⟨?_, ?_⟩, ?_⟩
  · intro h1
    by_contra hnone
    have hfree := hinv.free fun t => by
      rw [← Bool.not_eq_true]
      exact fun ht => hnone ⟨t, ht⟩
    rw [hfree] at h1
    cases h1
  · rintro ⟨t, ht⟩
    exact hinv.held t ht
  · intro hnone
    have hwrites := hcount.writes fun t ht => by
      have hout := hnone t
      rw [ht] at hout
      cases hout
    rw [← iterate_add_one, ← hwrites]
    exact hcount.value

/-- **The spinlock excludes.** Any threads on any cores of the system, any interleaving of
    their accesses and of other code that does not write the flag or the counter, from a
    flag that is 0: at most one thread is between a returned `lock` and the store of its
    `unlock`; the flag is 1 exactly when there is one; and when there is none, the counter
    has been incremented once for each completed critical section. -/
theorem tasLock_excludes_and_counts {n : ℕ} (core : T → Fin n)
    (visits : ℕ → (c : Fin n) → VisitOrder c) (lk : TASLock) (ctr : Word)
    (hctr : ctr ≠ lk.flagAddr) (m : DutState n) (h0 : m.flat lk.flagAddr = 0)
    (acts : List (ThreadAction T Unit Word Word)) :
    let es := (lk.code.client ctr).trace (dut core visits) (.start m .idle) acts
    let s := (lk.code.client ctr).run (dut core visits) (.start m .idle) acts
    Exclusive s ∧
      (s.mem.flat lk.flagAddr = 1 ↔ ∃ t, (s.locals t).inside = true) ∧
      ((∀ t, (s.locals t).inside = false) →
        s.mem.flat ctr = m.flat ctr + BitVec.ofNat 32 (completed es)) := by
  intro es s
  obtain ⟨hinv, hcount⟩ := flagInv_run (T := T) hctr h0 acts
  simp only [es, s, Exclusive, dut_trace, dut_locals, dut_flat]
  exact hinv.facts hcount

/-- Two threads compete. The second fails its `cas` and spins while the first is inside, then
    takes the lock in its turn. -/
def contended : List (ThreadAction Bool Unit Word Word) :=
  [.command true (), .command false (), .access true, .access false, .access false,
    .access true, .access true, .access true, .access false, .access false, .access false,
    .access false, .access false]

theorem contended_excludes :
    let client := (TASLock.mk 0x100).code.client 0x200
    let memory := dut (fun t : Bool => if t then (0 : Fin 2) else 1) fun _ c => .byIndex c
    let half := client.run memory (.start (.new 2) .idle) (contended.take 6)
    let s := client.run memory (.start (.new 2) .idle) contended
    Exclusive half ∧ (half.locals true).inside = true ∧ (half.locals false).inside = false ∧
      half.mem.flat 0x100 = 1 ∧ s.mem.flat 0x200 = 2 := by
  obtain ⟨hex, hflag, -⟩ := tasLock_excludes_and_counts
    (fun t : Bool => if t then (0 : Fin 2) else 1) (fun _ c => .byIndex c) ⟨0x100⟩ 0x200
    (by decide) (.new 2) rfl (contended.take 6)
  obtain ⟨-, -, hcount⟩ := tasLock_excludes_and_counts
    (fun t : Bool => if t then (0 : Fin 2) else 1) (fun _ c => .byIndex c) ⟨0x100⟩ 0x200
    (by decide) (.new 2) rfl contended
  refine ⟨hex, by decide +kernel, by decide +kernel, hflag.mpr ⟨true, by decide +kernel⟩, ?_⟩
  exact (hcount (by decide +kernel)).trans (by decide +kernel)

end TASLock

end MesiCoherence
