import MesiCoherence.Lib.Progress
import MesiCoherence.Primitives.Barrier

/-!
# The barrier lets everyone through

Safety of the barrier does not say that a `wait` ever returns, and it need not return while
some thread has not called it. When all threads have called `wait` equally often, some
thread can always get on: if all spin in vain, all have arrived, and then there is a last
arriver that has not published its sense yet.
-/

namespace MesiCoherence

namespace Barrier

variable {n : ℕ}

/-- What is left of a `wait`: the accesses that are not in vain. -/
def rank : BarrierLocal → ℕ
  | .idle _ => 0
  | .spin _ => 1
  | .release _ => 2
  | .reset _ => 3
  | .arrive _ => 4

theorem rank_le (l : BarrierLocal) : rank l ≤ 4 := by
  cases l <;> simp [rank]

/-- Is the thread in a `wait`? -/
def pending : BarrierLocal → ℕ
  | .idle _ => 0
  | _ => 1

/-- How often a thread has called `wait`. -/
def calls (es : List (ThreadEvent (Fin n) Unit Word Word BarrierLocal)) (t : Fin n) : ℕ :=
  es.countP fun e => e = .commanded t ()

/-- The barrier invariant with the calls made so far. When all threads have arrived, one of
    them is about to release the others. -/
def Ready (bar : Barrier n) (called : Fin n → ℕ)
    (s : ThreadState (Fin n) (Word → Word) BarrierLocal) : Prop :=
  ∃ E dec ret, bar.Inv E dec ret s ∧ ((∀ u, dec u = E + 1) → ∃ t, leading (s.locals t) = true) ∧
    ∀ t, ret t + pending (s.locals t) = called t

variable {bar : Barrier n} {called : Fin n → ℕ} {t : Fin n} {x : Word}
  {s : ThreadState (Fin n) (Word → Word) BarrierLocal} {m : Word → Word} {l : BarrierLocal}

/-- The calls of all threads after a step of one. -/
theorem called_setLocal {ret : Fin n → ℕ} (h : ∀ u, ret u + pending (s.locals u) = called u)
    {r : ℕ} (hr : r + pending l = called t) (u : Fin n) :
    Function.update ret t r u + pending (((s.setMem m).setLocal t l).locals u) = called u := by
  by_cases hu : u = t
  · subst hu
    rw [Function.update_self, ThreadState.setLocal_self, hr]
  · rw [Function.update_of_ne hu, ThreadState.setLocal_of_ne _ hu]
    exact h u

/-- A leader other than the moving thread still leads. -/
theorem leader_setLocal (ht : leading (s.locals t) = false)
    (h : ∃ u, leading (s.locals u) = true) :
    ∃ u, leading (((s.setMem m).setLocal t l).locals u) = true := by
  obtain ⟨u, hu⟩ := h
  have hut : u ≠ t := by
    rintro rfl
    rw [ht] at hu
    cases hu
  exact ⟨u, by rw [ThreadState.setLocal_of_ne _ hut]; exact hu⟩

theorem Ready.call (h : bar.Ready called s) (ht : s.locals t = .idle x) :
    bar.Ready (Function.update called t (called t + 1)) (s.setLocal t (.arrive (x ^^^ 1))) := by
  obtain ⟨E, dec, ret, hinv, hlead, hcalls⟩ := h
  refine ⟨E, dec, ret, hinv.call ht, fun hall => ?_, fun u => ?_⟩
  · exact leader_setLocal (m := s.mem) (by rw [ht]; rfl) (hlead hall)
  · by_cases hu : u = t
    · subst hu
      have hold := hcalls u
      rw [ht] at hold
      rw [ThreadState.setLocal_self, Function.update_self, ← hold]
      rfl
    · rw [ThreadState.setLocal_of_ne _ hu, Function.update_of_ne hu]
      exact hcalls u

/-- The accesses of `wait`. -/
theorem Ready.access (h : bar.Ready called s) (hne : bar.countAddr ≠ bar.senseAddr)
    {acc : Access Word Word} (hnext : bar.code.next (s.locals t) = some acc) :
    bar.Ready called ((s.setMem (acc.exec s.mem).1).setLocal t
      (bar.code.resume (s.locals t) (acc.exec s.mem).2)) := by
  obtain ⟨E, dec, ret, hinv, hlead, hcalls⟩ := h
  have hok := hinv.thread t
  have hold := hcalls t
  cases hl : s.locals t with
  | idle x => simp [code, hl] at hnext
  | arrive x =>
    simp only [code, hl, Option.some.injEq] at hnext
    subst hnext
    rw [hl] at hok hold
    have hafter : pending (if s.mem bar.countAddr = 1 then .reset x else .spin x) = 1 := by
      split <;> rfl
    show bar.Ready called
      ((s.setMem (Function.update s.mem bar.countAddr (s.mem bar.countAddr + -1))).setLocal t
        (if s.mem bar.countAddr = 1 then .reset x else .spin x))
    refine ⟨E, _, ret, hinv.arrive hne hl, fun hall => ⟨t, ?_⟩, fun u => ?_⟩
    · rw [ThreadState.setLocal_self, if_pos ((hinv.last_iff hok.1).mpr hall)]
      rfl
    · have hcalled := called_setLocal hcalls (t := t) (r := ret t)
        (m := Function.update s.mem bar.countAddr (s.mem bar.countAddr + -1))
        (l := if s.mem bar.countAddr = 1 then .reset x else .spin x) (by rw [hafter]; exact hold) u
      rwa [Function.update_eq_self] at hcalled
  | reset x =>
    simp only [code, hl, Option.some.injEq] at hnext
    subst hnext
    rw [hl] at hold
    refine ⟨E, dec, ret, hinv.reset hne hl, fun _ => ⟨t, ?_⟩, fun u => ?_⟩
    · rw [ThreadState.setLocal_self]
      rfl
    · have hcalled := called_setLocal hcalls (t := t) (r := ret t)
        (m := Function.update s.mem bar.countAddr (BitVec.ofNat 32 n)) (l := .release x) hold u
      rwa [Function.update_eq_self] at hcalled
  | release x =>
    simp only [code, hl, Option.some.injEq] at hnext
    subst hnext
    rw [hl] at hok hold
    obtain ⟨hall, hr, -, -⟩ := hok
    refine ⟨E + 1, dec, _, hinv.release hne hl, fun hnew => ?_, called_setLocal hcalls ?_⟩
    · have hdec := hnew t
      rw [hall t] at hdec
      omega
    · rw [hr] at hold
      exact hold
  | spin x =>
    simp only [code, hl, Option.some.injEq] at hnext
    subst hnext
    rw [hl] at hold
    rw [Access.exec_read]
    show bar.Ready called ((s.setMem s.mem).setLocal t
      (if s.mem bar.senseAddr = x then .idle x else .spin x))
    refine ⟨E, dec, _, hinv.spin hl, fun hall => ?_, called_setLocal hcalls ?_⟩
    · exact leader_setLocal (by rw [hl]; rfl) (hlead hall)
    · by_cases hx : s.mem bar.senseAddr = x
      · rw [if_pos hx, if_pos hx]
        exact hold
      · rw [if_neg hx, if_neg hx]
        exact hold

theorem Ready.other (h : bar.Ready called s) {acc : Access Word Word}
    (hf : bar.code.foreign acc = true) : bar.Ready called (s.setMem (acc.exec s.mem).1) := by
  obtain ⟨E, dec, ret, hinv, hlead, hcalls⟩ := h
  have hkeep : ∀ a ∈ [bar.countAddr, bar.senseAddr], (acc.exec s.mem).1 a = s.mem a := fun a ha =>
    Access.exec_apply_of_keeps (List.all_eq_true.mp hf a ha) s.mem
  exact ⟨E, dec, ret, hinv.other (hkeep _ (by simp)) (hkeep _ (by simp)), hlead, hcalls⟩

/-- The invariant along every run over a flat memory. -/
theorem ready_run (hne : bar.countAddr ≠ bar.senseAddr) {m : Word → Word}
    (hcount : m bar.countAddr = BitVec.ofNat 32 n) (hsense : m bar.senseAddr = 0)
    (acts : List (ThreadAction (Fin n) Unit Word Word)) :
    bar.Ready (calls (bar.code.trace .flat (.start m (.idle 0)) acts))
      (bar.code.run .flat (.start m (.idle 0)) acts) := by
  have hquiet : ∀ (es : List (ThreadEvent (Fin n) Unit Word Word BarrierLocal)) e,
      (∀ t, e ≠ .commanded t ()) → calls (es ++ [e]) = calls es := by
    intro es e he
    funext u
    simp [calls, List.countP_append, he u]
  refine bar.code.trace_invariant (P := fun es s => bar.Ready (calls es) s) ?_ ?_ ?_ ?_ acts
  · have hnone : arrived (n := n) 0 (fun _ => 0) = 0 := by simp [arrived]
    refine ⟨0, fun _ => 0, fun _ => 0,
      ⟨hsense, fun _ => Or.inl rfl, fun _ => ⟨rfl, rfl, rfl⟩, fun _ => ?_, ?_⟩, ?_, fun _ => rfl⟩
    · rw [hnone]
      exact hcount
    · intro t u ht
      cases ht
    · intro hall
      exact absurd (hall ⟨0, bar.pos⟩) Nat.zero_ne_one
  · rintro es s t ⟨⟩ l h hcmd
    cases hl : s.locals t with
    | idle x =>
      simp only [code, hl, Option.some.injEq] at hcmd
      subst hcmd
      have hcalls : calls (es ++ [.commanded t ()]) =
          Function.update (calls es) t (calls es t + 1) := by
        funext u
        by_cases hu : u = t
        · subst hu
          simp [calls, List.countP_append]
        · simp [calls, List.countP_append, hu, Ne.symm hu]
      rw [hcalls]
      exact h.call hl
    | _ => simp [code, hl] at hcmd
  · intro es s t acc h hnext
    rw [hquiet es _ fun u he => by cases he]
    exact h.access hne hnext
  · intro es s t acc h hf
    rw [hquiet es _ fun u he => by cases he]
    exact h.other hf

-- ════════════════════════════════════════════════════════════════════════
-- Progress
-- ════════════════════════════════════════════════════════════════════════

/-- The next access of the thread is not in vain. -/
def CanMove (bar : Barrier n) (m : Word → Word) : BarrierLocal → Prop
  | .idle _ => False
  | .spin sense => m bar.senseAddr = sense
  | _ => True

/-- An access of a thread that can move leaves less to do. -/
theorem CanMove.rank_lt (h : bar.CanMove s.mem l) {acc : Access Word Word}
    (hnext : bar.code.next l = some acc) :
    rank (bar.code.resume l (acc.exec s.mem).2) < rank l := by
  cases l with
  | idle x => exact h.elim
  | arrive x =>
    obtain rfl := Option.some.inj hnext
    show rank (if s.mem bar.countAddr = 1 then .reset x else .spin x) < 4
    split <;> simp [rank]
  | reset x => simp [code, rank]
  | release x => simp [code, rank]
  | spin x =>
    obtain rfl := Option.some.inj hnext
    rw [Access.exec_read]
    have hx : s.mem bar.senseAddr = x := h
    show rank (if s.mem bar.senseAddr = x then .idle x else .spin x) < 1
    rw [if_pos hx]
    exact Nat.one_pos

/-- An access in vain changes nothing. -/
theorem step_of_not_canMove (h : ¬ bar.CanMove s.mem (s.locals t)) {acc : Access Word Word}
    (hnext : bar.code.next (s.locals t) = some acc) :
    (s.setMem (acc.exec s.mem).1).setLocal t
      (bar.code.resume (s.locals t) (acc.exec s.mem).2) = s := by
  cases hl : s.locals t with
  | idle x => simp [code, hl] at hnext
  | spin x =>
    rw [hl] at h
    simp only [code, hl, Option.some.injEq] at hnext
    subst hnext
    have hx : ¬ s.mem bar.senseAddr = x := h
    rw [Access.exec_read]
    show s.setLocal t (if s.mem bar.senseAddr = x then .idle x else .spin x) = s
    rw [if_neg hx, ← hl, ThreadState.setLocal_eq_self]
  | _ =>
    rw [hl] at h
    exact absurd trivial h

/-- **Somebody can move.** When all threads have called `wait` equally often and one of them
    has not returned, the access of some thread is not in vain. -/
theorem Ready.exists_canMove {k : ℕ} (h : bar.Ready (fun _ => k) s)
    (hpos : 0 < s.work rank) : ∃ t, bar.CanMove s.mem (s.locals t) := by
  obtain ⟨E, dec, ret, hinv, hlead, hcalls⟩ := h
  change ∀ t, ret t + pending (s.locals t) = k at hcalls
  by_contra hnone
  have hstuck : ∀ u, ¬ bar.CanMove s.mem (s.locals u) := fun u hu => hnone ⟨u, hu⟩
  -- whoever spins in vain has arrived in the current episode
  have hspin : ∀ u y, s.locals u = .spin y → dec u = E + 1 ∧ ret u = E := by
    intro u y hu
    have hvain := hstuck u
    rw [hu] at hvain
    have hdec := (hinv.range u).resolve_left fun hd => hvain ((hinv.spin_iff hu).mpr hd)
    have hok := hinv.thread u
    rw [hu] at hok
    exact ⟨hdec, by have := hok.1; omega⟩
  obtain ⟨t, ht⟩ := ThreadState.exists_of_work_pos hpos
  have hwait : ret t = E ∧ k = E + 1 := by
    cases hl : s.locals t with
    | idle y =>
      rw [hl] at ht
      cases ht
    | spin y =>
      have hret := (hspin t y hl).2
      have hcall := hcalls t
      rw [hl] at hcall
      exact ⟨hret, by rw [← hcall, hret]; rfl⟩
    | _ =>
      have hmove := hstuck t
      rw [hl] at hmove
      exact absurd trivial hmove
  -- then nobody is idle, for that thread would have returned one time more
  have hall : ∀ u, ∃ y, s.locals u = .spin y := by
    intro u
    cases hl : s.locals u with
    | idle y =>
      have hok := hinv.thread u
      have hcall := hcalls u
      rw [hl] at hok hcall
      have hret := hok.2.1
      have hpend : pending (.idle y) = 0 := rfl
      omega
    | spin y => exact ⟨y, rfl⟩
    | _ =>
      have hmove := hstuck u
      rw [hl] at hmove
      exact absurd trivial hmove
  obtain ⟨u, hu⟩ := hlead fun u => (hspin u _ (hall u).choose_spec).1
  rw [(hall u).choose_spec] at hu
  cases hu

theorem CanMove.exists_next (h : bar.CanMove m l) : ∃ acc, bar.code.next l = some acc := by
  cases l with
  | idle x => exact h.elim
  | _ => exact ⟨_, rfl⟩

theorem work_lt_of_canMove (h : bar.CanMove s.mem (s.locals t)) :
    ThreadState.work rank ((bar.code.machine .flat).step s (.access t)).1 < s.work rank := by
  obtain ⟨acc, hnext⟩ := h.exists_next
  rw [ThreadCode.step_access hnext]
  have hsum := ThreadState.work_setLocal rank (s.setMem (acc.exec s.mem).1) t
    (bar.code.resume (s.locals t) (acc.exec s.mem).2)
  have hless := h.rank_lt hnext
  have hmem : (s.setMem (acc.exec s.mem).1).work rank = s.work rank := rfl
  rw [ThreadState.setMem_locals] at hsum
  omega

/-- A step of the schedule leaves less work, or leaves the work and whoever can move. -/
theorem step_schedule_work (bar : Barrier n)
    (s : ThreadState (Fin n) (Word → Word) BarrierLocal)
    {act : ThreadAction (Fin n) Unit Word Word} (hact : act.Schedule) :
    let s' := ((bar.code.machine .flat).step s act).1
    s'.work rank < s.work rank ∨ s'.work rank = s.work rank ∧
      ∀ t, bar.CanMove s.mem (s.locals t) → bar.CanMove s'.mem (s'.locals t) := by
  intro s'
  rcases ThreadCode.step_schedule bar.code s hact with
    ⟨t, acc, rfl, hacc⟩ | ⟨t, acc, rfl, hf, heq⟩ | heq
  · by_cases hcan : bar.CanMove s.mem (s.locals t)
    · exact Or.inl (work_lt_of_canMove hcan)
    · have hs' : s' = s := (ThreadCode.step_access hacc).trans (step_of_not_canMove hcan hacc)
      rw [hs']
      exact Or.inr ⟨rfl, fun _ h => h⟩
  · have hs' : s' = s.setMem (acc.exec s.mem).1 := heq
    rw [hs']
    refine Or.inr ⟨rfl, fun u hu => ?_⟩
    have hsense : (acc.exec s.mem).1 bar.senseAddr = s.mem bar.senseAddr :=
      Access.exec_apply_of_keeps (List.all_eq_true.mp hf _ (by simp)) s.mem
    rw [ThreadState.setMem_locals, ThreadState.setMem_mem]
    cases hl : s.locals u with
    | spin x =>
      rw [hl] at hu
      exact hsense.trans hu
    | _ =>
      rw [hl] at hu
      exact hu
  · have hs' : s' = s := heq
    rw [hs']
    exact Or.inr ⟨rfl, fun _ h => h⟩

/-- The work of a barrier without further calls. -/
theorem progress (hne : bar.countAddr ≠ bar.senseAddr) (k : ℕ) :
    (bar.code.machine .flat).Progress (bar.Ready fun _ => k) ThreadAction.Schedule
      ThreadAction.IsAccess (ThreadState.work rank)
      (fun s act => ∃ t, act = .access t ∧ bar.CanMove s.mem (s.locals t)) where
  keeps s act h hact := by
    rcases ThreadCode.step_schedule bar.code s hact with
      ⟨t, acc, rfl, hacc⟩ | ⟨t, acc, rfl, hf, heq⟩ | heq
    · rw [ThreadCode.step_access hacc]
      exact h.access hne hacc
    · rw [heq]
      exact h.other hf
    · rwa [heq]
  mono s act _ _ hact := by
    rcases step_schedule_work bar s hact with hless | ⟨heq, -⟩
    · exact hless.le
    · exact heq.le
  exists_helps s h hpos := by
    obtain ⟨t, ht⟩ := h.exists_canMove hpos
    exact ⟨.access t, ⟨t, rfl⟩, t, rfl, ht⟩
  falls := by
    rintro s _ _ _ ⟨t, rfl, hcan⟩
    exact work_lt_of_canMove hcan
  stays := by
    rintro s _ act _ _ ⟨t, rfl, hcan⟩ hact
    rcases step_schedule_work bar s hact with hless | ⟨-, hstill⟩
    · exact Or.inl hless
    · exact Or.inr ⟨t, rfl, hstill t hcan⟩

/-- **The barrier lets everyone through.** `n` threads on any cores of the system call `wait`
    on an initialised barrier, in any interleaving with each other and with other code that
    does not write its words, until all have called it equally often. Then let the
    threads run on without further calls, in any order, but in `4 * n` rounds each of
    which has an access of every thread: every `wait` has returned. -/
theorem barrier_lets_all_through {c : ℕ} (core : Fin n → Fin c)
    (visits : ℕ → (i : Fin c) → VisitOrder i) (bar : Barrier n) (m : DutState c)
    (hcount : m.flat bar.countAddr = BitVec.ofNat 32 n) (hsense : m.flat bar.senseAddr = 0)
    (acts : List (ThreadAction (Fin n) Unit Word Word))
    (rounds : List (List (ThreadAction (Fin n) Unit Word Word))) :
    let run := bar.code.run (dut core visits) (.start m (.idle 0))
    let trace := bar.code.trace (dut core visits) (.start m (.idle 0))
    (∀ t u, calls (trace acts) t = calls (trace acts) u) →
    (∀ r ∈ rounds, ∀ act ∈ r, act.Schedule) →
    (∀ r ∈ rounds, ∀ t, .access t ∈ r) →
    4 * n ≤ rounds.length →
    ∀ t, ∃ sense, (run (acts ++ rounds.flatten)).locals t = .idle sense := by
  intro run trace hequal hsched hfair hlen t
  have hne : bar.countAddr ≠ bar.senseAddr := by
    intro he
    rw [he, hsense] at hcount
    have hnat := congrArg BitVec.toNat hcount
    have hpos := bar.pos
    have hbound := bar.bound
    have h0 : (0 : Word).toNat = 0 := rfl
    rw [h0, BitVec.toNat_ofNat] at hnat
    omega
  simp only [run, trace, dut_trace, dut_locals] at hequal ⊢
  rw [ThreadCode.run_append]
  have hready := bar.ready_run hne hcount hsense acts
  have hcalls : calls (bar.code.trace .flat (.start m.flat (.idle 0)) acts) = fun _ =>
      calls (bar.code.trace .flat (.start m.flat (.idle 0)) acts) t := funext fun u => hequal u t
  rw [hcalls] at hready
  have hbound := ThreadState.work_le rank_le (bar.code.run .flat (.start m.flat (.idle 0)) acts)
  rw [Fintype.card_fin] at hbound
  have hdone := (progress hne _).finishes
    (fun s act _ hact h0 => by
      rcases step_schedule_work bar s hact with hless | ⟨heq, -⟩
      · omega
      · exact heq.trans h0) hready rounds hsched
    (fun r hr act hact => by
      obtain ⟨u, rfl⟩ := hact
      exact hfair r hr u) (by omega)
  have hrank := ThreadState.work_eq_zero_iff.mp hdone t
  change rank ((bar.code.run .flat _ rounds.flatten).locals t) = 0 at hrank
  cases hl : (bar.code.run .flat (bar.code.run .flat (.start m.flat (.idle 0)) acts)
      rounds.flatten).locals t with
  | idle x => exact ⟨x, rfl⟩
  | _ =>
    rw [hl] at hrank
    cases hrank

/-- Two threads call `wait` and spin in turn. -/
def bothCalled : List (ThreadAction (Fin 2) Unit Word Word) :=
  (List.finRange 2).map fun t => .command t ()

theorem bothCalled_let_through :
    let bar : Barrier 2 := ⟨0x700, 0x704, by decide, by decide⟩
    let memory := dut (fun t : Fin 2 => t) fun _ c => .byIndex c
    let s := bar.code.run memory (.start (bar.init memory 0 (.new 2)) (.idle 0))
      (bothCalled ++ (List.replicate 8 [.access 0, .access 1]).flatten)
    ∀ t, ∃ sense, s.locals t = .idle sense := by
  intro bar memory s
  refine barrier_lets_all_through (fun t : Fin 2 => t) (fun _ c => .byIndex c) bar
    (bar.init memory 0 (.new 2)) rfl rfl bothCalled (List.replicate 8 [.access 0, .access 1])
    (by decide +kernel) ?_ ?_ (by decide)
  · intro r hr act hact
    rw [List.eq_of_mem_replicate hr] at hact
    rcases List.mem_pair.mp hact with rfl | rfl <;> trivial
  · intro r hr t
    rw [List.eq_of_mem_replicate hr]
    revert t
    exact Fin.forall_fin_two.mpr ⟨List.mem_cons_self, List.mem_cons_of_mem _ List.mem_cons_self⟩

end Barrier

end MesiCoherence
