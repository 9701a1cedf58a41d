import MesiCoherence.Primitives.Dut
import MesiCoherence.Primitives.StackLinearizable

/-!
# The Treiber stack is lock-free

A CAS of `push` or `pop` fails only if `top` has changed since it was read, and only a
successful CAS of another call changes `top`: the nodes that the calls write lie elsewhere.
So a thread that retries does so because others push and pop, once for each of their
operations at most. This holds of the stack over the caches, whose calls take the steps of
the calls over a flat memory.
-/

namespace MesiCoherence

namespace StackLocal

/-- The value of `top` that a call has read and is going to compare. -/
def topRead : StackLocal → Option Word
  | .pushWriteNext _ oldTop => some oldTop
  | .pushCas _ oldTop => some oldTop
  | .popReadNext oldTop => some oldTop
  | .popCas oldTop _ => some oldTop
  | _ => none

/-- The accesses until the call returns, if no CAS fails. -/
def accessesLeft : StackLocal → ℕ
  | .pushAlloc _ => 5
  | .pushVal _ _ => 4
  | .pushReadTop _ => 3
  | .pushWriteNext _ _ => 2
  | .pushCas _ _ => 1
  | .popReadTop => 4
  | .popReadNext _ => 3
  | .popCas _ _ => 2
  | .popReadVal _ => 1
  | .returning _ => 0

end StackLocal

namespace LockFreeStack

variable {T : Type*} [DecidableEq T] (st : LockFreeStack)

/-- Does the access at a program point fail as a CAS? -/
def casFails (m : Word → Word) : StackLocal → Bool
  | .pushCas _ oldTop => m st.topAddr ≠ oldTop
  | .popCas oldTop _ => m st.topAddr ≠ oldTop
  | _ => false

/-- The program point from which an action takes thread `t` on. -/
def movesFrom {M : Type*} (t : T) (s : ObjectState T M StackOp StackLocal) :
    ObjectAction T StackOp → Option StackLocal
  | .step u => if u = t then (s.running t).map Prod.snd else none
  | .invoke _ _ => none

/-- The action is a CAS of thread `t` that fails, when `view` is what memory holds. -/
def FailsCas {M : Type*} (view : M → Word → Word) (t : T)
    (s : ObjectState T M StackOp StackLocal) (act : ObjectAction T StackOp) : Prop :=
  (movesFrom t s act).any (st.casFails (view s.mem)) = true

/-- The action is an access of thread `t`. -/
def Accesses {M : Type*} (t : T) (s : ObjectState T M StackOp StackLocal)
    (act : ObjectAction T StackOp) : Prop :=
  (movesFrom t s act).any (fun l => (st.next l).isLeft) = true

instance {M : Type*} (view : M → Word → Word) (t : T) (s : ObjectState T M StackOp StackLocal)
    (act : ObjectAction T StackOp) : Decidable (st.FailsCas view t s act) :=
  inferInstanceAs (Decidable (_ = _))

instance {M : Type*} (t : T) (s : ObjectState T M StackOp StackLocal)
    (act : ObjectAction T StackOp) : Decidable (st.Accesses t s act) :=
  inferInstanceAs (Decidable (_ = _))

/-- The calls of thread `t`. -/
def callsOf (t : T) (es : List (CallEvent T StackOp StackRes)) : ℕ :=
  es.countP fun
    | .invoked u _ => u = t
    | _ => false

/-- The pushes of others than thread `t`, and their pops that found a value, that have taken
    effect. -/
def effectsByOthers (t : T) (es : List (CallEvent T StackOp StackRes)) : ℕ :=
  es.countP fun
    | .committed u _ res => u ≠ t && res ≠ .empty
    | _ => false

variable {st} {s : FlatState T} {es : List (CallEvent T StackOp StackRes)} {t : T}
  {op : StackOp} {l : StackLocal} {acc : Access Word Word}

/-- Only an operation that takes effect, and finds a stack that is not empty, changes `top`. -/
theorem StackInv.commit_of_top_ne (h : st.StackInv s es) (hfit : st.Fits (pushCalls es))
    (hrun : s.running t = some (op, l)) (hnext : st.next l = .inl acc)
    (htop : (acc.exec s.mem).1 st.topAddr ≠ s.mem st.topAddr) :
    ∃ res, st.commit l s.mem = some res ∧ res ≠ .empty := by
  cases l with
  | pushAlloc v =>
    obtain rfl := Sum.inl.inj hnext
    exact absurd (Function.update_of_ne hfit.distinct _ _) htop
  | pushVal v a =>
    obtain rfl := Sum.inl.inj hnext
    have hne := (h.own_fields hfit hrun rfl (Or.inr rfl)).1
    exact absurd (Function.update_of_ne (Ne.symm hne) _ _) htop
  | pushWriteNext a oldTop =>
    obtain rfl := Sum.inl.inj hnext
    have hne := (h.own_fields hfit hrun rfl (Or.inl rfl)).1
    exact absurd (Function.update_of_ne (Ne.symm hne) _ _) htop
  | pushCas a oldTop =>
    obtain rfl := Sum.inl.inj hnext
    by_cases hold : s.mem st.topAddr = oldTop
    · exact ⟨.done, if_pos hold, by decide⟩
    · rw [Access.exec_cas_of_ne hold] at htop
      exact absurd rfl htop
  | popCas oldTop next =>
    obtain rfl := Sum.inl.inj hnext
    by_cases hold : s.mem st.topAddr = oldTop
    · exact ⟨.value (s.mem (oldTop + 4)), if_pos hold, by simp⟩
    · rw [Access.exec_cas_of_ne hold] at htop
      exact absurd rfl htop
  | returning res => cases hnext
  | _ =>
    obtain rfl := Sum.inl.inj hnext
    rw [Access.exec_read] at htop
    exact absurd rfl htop

/-- An access that does not fail brings the call one access nearer to its end. -/
theorem accessesLeft_resume (hnext : st.next l = .inl acc) (m : Word → Word) :
    (st.resume l (acc.exec m).2).accessesLeft + 1 ≤
      l.accessesLeft + if st.casFails m l = true then 3 else 0 := by
  cases l with
  | pushCas a oldTop =>
    obtain rfl := Sum.inl.inj hnext
    by_cases hold : m st.topAddr = oldTop
    · rw [Access.exec_cas_of_eq hold]
      exact Nat.le_add_right _ _
    · have hfails : st.casFails m (.pushCas a oldTop) = true := decide_eq_true hold
      rw [Access.exec_cas_of_ne hold, if_pos hfails]
      exact le_rfl
  | popCas oldTop next =>
    obtain rfl := Sum.inl.inj hnext
    by_cases hold : m st.topAddr = oldTop
    · rw [Access.exec_cas_of_eq hold]
      exact Nat.le_add_right _ _
    · have hfails : st.casFails m (.popCas oldTop next) = true := decide_eq_true hold
      rw [Access.exec_cas_of_ne hold, if_pos hfails]
      exact le_rfl
  | popReadTop =>
    obtain rfl : Access.read st.topAddr = acc := Sum.inl.inj hnext
    rw [Access.exec_read]
    by_cases hempty : m st.topAddr = 0
    · have hresume : st.resume .popReadTop (.value (m st.topAddr)) = .returning .empty :=
        if_pos hempty
      rw [hresume]
      exact Nat.le_trans (show 0 + 1 ≤ 4 by decide) (Nat.le_add_right _ _)
    · have hresume : st.resume .popReadTop (.value (m st.topAddr)) =
          .popReadNext (m st.topAddr) := if_neg hempty
      rw [hresume]
      exact Nat.le_add_right _ _
  | returning res => cases hnext
  | _ =>
    obtain rfl := Sum.inl.inj hnext
    exact le_rfl

/-- What a call compares with `top` later, it has just read there or knew before. -/
theorem StackInv.topRead_resume (h : st.StackInv s es) (hfit : st.Fits (pushCalls es))
    (hrun : s.running t = some (op, l)) (hnext : st.next l = .inl acc) {v : Word}
    (hread : (st.resume l (acc.exec s.mem).2).topRead = some v) :
    st.casFails s.mem l = false ∧ ((acc.exec s.mem).1 st.topAddr = v ∨
      l.topRead = some v ∧ (acc.exec s.mem).1 st.topAddr = s.mem st.topAddr) := by
  cases l with
  | pushReadTop a =>
    obtain rfl := Sum.inl.inj hnext
    rw [Access.exec_read] at hread ⊢
    cases hread
    exact ⟨rfl, Or.inl rfl⟩
  | pushWriteNext a oldTop =>
    obtain rfl := Sum.inl.inj hnext
    have hne := (h.own_fields hfit hrun rfl (Or.inl rfl)).1
    exact ⟨rfl, Or.inr ⟨hread, Function.update_of_ne (Ne.symm hne) _ _⟩⟩
  | popReadTop =>
    obtain rfl := Sum.inl.inj hnext
    rw [Access.exec_read] at hread ⊢
    refine ⟨rfl, Or.inl ?_⟩
    by_cases hempty : s.mem st.topAddr = 0
    · have hresume : st.resume .popReadTop (.value (s.mem st.topAddr)) = .returning .empty :=
        if_pos hempty
      rw [hresume] at hread
      cases hread
    · have hresume : st.resume .popReadTop (.value (s.mem st.topAddr)) =
          .popReadNext (s.mem st.topAddr) := if_neg hempty
      rw [hresume] at hread
      exact Option.some.inj hread
  | popReadNext oldTop =>
    obtain rfl := Sum.inl.inj hnext
    rw [Access.exec_read] at hread ⊢
    exact ⟨rfl, Or.inr ⟨hread, rfl⟩⟩
  | pushCas a oldTop =>
    obtain rfl := Sum.inl.inj hnext
    by_cases hold : s.mem st.topAddr = oldTop
    · rw [Access.exec_cas_of_eq hold] at hread
      cases hread
    · rw [Access.exec_cas_of_ne hold] at hread
      cases hread
  | popCas oldTop next =>
    obtain rfl := Sum.inl.inj hnext
    by_cases hold : s.mem st.topAddr = oldTop
    · rw [Access.exec_cas_of_eq hold] at hread
      cases hread
    · rw [Access.exec_cas_of_ne hold] at hread
      cases hread
  | returning res => cases hnext
  | _ =>
    obtain rfl := Sum.inl.inj hnext
    cases hread

/-- The thread has read a `top` that is no longer there. -/
def Stale (st : LockFreeStack) (s : FlatState T) (t : T) : Prop :=
  ∃ op l v, s.running t = some (op, l) ∧ l.topRead = some v ∧ s.mem st.topAddr ≠ v

omit [DecidableEq T] in
/-- A CAS that fails is that of a stale thread. -/
theorem stale_of_casFails (hrun : s.running t = some (op, l))
    (hfails : st.casFails s.mem l = true) : st.Stale s t := by
  cases l with
  | pushCas a oldTop => exact ⟨op, _, oldTop, hrun, rfl, of_decide_eq_true hfails⟩
  | popCas oldTop next => exact ⟨op, _, oldTop, hrun, rfl, of_decide_eq_true hfails⟩
  | _ => cases hfails

/-- The accesses left of the thread's call. -/
def accessesLeft (s : FlatState T) (t : T) : ℕ :=
  ((s.running t).map fun c => c.2.accessesLeft).getD 0

/-- Every failed CAS of a thread is paid for by an effect of others, and so is the next one
    of a stale thread; every access belongs to a call or to a failed CAS. -/
structure Paid (st : LockFreeStack) (t : T) (fails accesses : ℕ)
    (es : List (CallEvent T StackOp StackRes)) (s : FlatState T) : Prop where
  now : fails ≤ effectsByOthers t es
  next : st.Stale s t → fails < effectsByOthers t es
  within : accesses + accessesLeft s t ≤ 5 * callsOf t es + 3 * fails

variable {s' : FlatState T} {fs : List (CallEvent T StackOp StackRes)} {fails accesses : ℕ}

/-- A step without an access of the thread. -/
theorem Paid.elsewhere (h : st.Paid t fails accesses es s)
    (hstale : st.Stale s' t → st.Stale s t ∨ 0 < effectsByOthers t fs)
    (hleft : accessesLeft s' t ≤ accessesLeft s t + 5 * callsOf t fs) :
    st.Paid t fails accesses (es ++ fs) s' := by
  have hnow := h.now
  have hwithin := h.within
  have heffects : effectsByOthers t (es ++ fs) = effectsByOthers t es + effectsByOthers t fs :=
    List.countP_append
  have hcalls : callsOf t (es ++ fs) = callsOf t es + callsOf t fs := List.countP_append
  refine ⟨by omega, fun hs => ?_, by omega⟩
  rcases hstale hs with hwas | hpaid
  · have hnext := h.next hwas
    omega
  · omega

/-- A call. -/
theorem Paid.invoked (h : st.Paid t fails accesses es s) {u : T} (hidle : s.running u = none)
    (op : StackOp) : st.Paid t fails accesses (es ++ [.invoked u op])
      (s.setLocal u (some (op, LockFreeStack.start op))) := by
  have hfresh : (LockFreeStack.start op).topRead = none ∧
      (LockFreeStack.start op).accessesLeft ≤ 5 := by
    cases op with
    | push v => exact ⟨rfl, le_rfl⟩
    | pop => exact ⟨rfl, Nat.le_succ 4⟩
  apply h.elsewhere
  · rintro ⟨op', l', v, hrun, hread, hne⟩
    by_cases htu : t = u
    · subst htu
      rw [ObjectState.setLocal_running_self, Option.some.injEq, Prod.mk.injEq] at hrun
      rw [← hrun.2, hfresh.1] at hread
      cases hread
    · rw [ObjectState.setLocal_running_of_ne _ htu] at hrun
      exact Or.inl ⟨op', l', v, hrun, hread, hne⟩
  · by_cases htu : t = u
    · subst htu
      simpa [accessesLeft, callsOf, hidle] using hfresh.2
    · simp [accessesLeft, htu]

/-- A return. -/
theorem Paid.returned (h : st.Paid t fails accesses es s) {u : T} {res : StackRes} :
    st.Paid t fails accesses (es ++ [.returned u res]) (s.setLocal u none) := by
  apply h.elsewhere
  · rintro ⟨op', l', v, hrun, hread, hne⟩
    by_cases htu : t = u
    · subst htu
      rw [ObjectState.setLocal_running_self] at hrun
      cases hrun
    · rw [ObjectState.setLocal_running_of_ne _ htu] at hrun
      exact Or.inl ⟨op', l', v, hrun, hread, hne⟩
  · by_cases htu : t = u
    · subst htu
      simp [accessesLeft]
    · simp [accessesLeft, htu]

/-- An access of the thread. -/
theorem Paid.own (h : st.Paid t fails accesses es s) (hinv : st.StackInv s es)
    (hfit : st.Fits (pushCalls es)) (hrun : s.running t = some (op, l))
    (hnext : st.next l = .inl acc) (fs : List (CallEvent T StackOp StackRes)) :
    st.Paid t (fails + if st.casFails s.mem l = true then 1 else 0) (accesses + 1) (es ++ fs)
      (moved s t op (st.resume l (acc.exec s.mem).2) (acc.exec s.mem).1) := by
  have hnow := h.now
  have hwithin := h.within
  have hleft := accessesLeft_resume hnext s.mem
  have heffects : effectsByOthers t (es ++ fs) = effectsByOthers t es + effectsByOthers t fs :=
    List.countP_append
  have hcalls : callsOf t (es ++ fs) = callsOf t es + callsOf t fs := List.countP_append
  have hwas : accessesLeft s t = l.accessesLeft := by simp [accessesLeft, hrun]
  have his : accessesLeft (moved s t op (st.resume l (acc.exec s.mem).2) (acc.exec s.mem).1) t =
      (st.resume l (acc.exec s.mem).2).accessesLeft := by simp [accessesLeft, moved]
  have hstale : st.Stale (moved s t op (st.resume l (acc.exec s.mem).2) (acc.exec s.mem).1) t →
      st.casFails s.mem l = false ∧ st.Stale s t := by
    rintro ⟨op', l', v, hrun', hread, hne⟩
    simp only [moved, Function.update_self, Option.some.injEq, Prod.mk.injEq] at hrun'
    obtain ⟨rfl, rfl⟩ := hrun'
    obtain ⟨hok, hfresh | ⟨hsame, hmem⟩⟩ := hinv.topRead_resume hfit hrun hnext hread
    · exact absurd hfresh hne
    · exact ⟨hok, op, l, v, hrun, hsame, fun hs => hne (hmem.trans hs)⟩
  by_cases hfails : st.casFails s.mem l = true
  · have hpaid := h.next (stale_of_casFails hrun hfails)
    rw [if_pos hfails] at hleft ⊢
    refine ⟨by omega, fun hs => ?_, by omega⟩
    rw [(hstale hs).1] at hfails
    cases hfails
  · rw [if_neg hfails] at hleft ⊢
    refine ⟨by omega, fun hs => ?_, by omega⟩
    have hpaid := h.next (hstale hs).2
    omega

/-- An access of another thread. -/
theorem Paid.other (h : st.Paid t fails accesses es s) (hinv : st.StackInv s es)
    (hfit : st.Fits (pushCalls es)) {u : T} (hut : u ≠ t) (hrun : s.running u = some (op, l))
    (hnext : st.next l = .inl acc) :
    st.Paid t fails accesses
      (es ++ ((st.commit l s.mem).map (CallEvent.committed u op)).toList)
      (moved s u op (st.resume l (acc.exec s.mem).2) (acc.exec s.mem).1) := by
  apply h.elsewhere
  · rintro ⟨op', l', v, hrun', hread, hne⟩
    simp only [moved, Function.update_of_ne (Ne.symm hut)] at hrun'
    by_cases htop : (acc.exec s.mem).1 st.topAddr = s.mem st.topAddr
    · exact Or.inl ⟨op', l', v, hrun', hread, fun hs => hne (htop.trans hs)⟩
    · obtain ⟨res, hcommit, hres⟩ := hinv.commit_of_top_ne hfit hrun hnext htop
      refine Or.inr ?_
      rw [hcommit]
      simp [effectsByOthers, hut, hres]
  · simp [accessesLeft, moved, Ne.symm hut]

theorem casFails_of_returns {res : StackRes} (h : st.next l = .inr res) (m : Word → Word) :
    st.casFails m l = false := by
  cases l with
  | returning res' => rfl
  | _ => cases h

/-- One step of the machine, when the nodes fit. -/
theorem Paid.step (h : st.Paid t fails accesses es s) (hinv : st.StackInv s es)
    (hfit : st.Fits (pushCalls es)) (act : ObjectAction T StackOp) :
    st.Paid t (fails + if st.FailsCas id t s act then 1 else 0)
      (accesses + if st.Accesses t s act then 1 else 0)
      (es ++ (st.code.step .flat st.commit s act).2) (st.code.step .flat st.commit s act).1 := by
  cases act with
  | invoke u op =>
    simp only [FailsCas, Accesses, movesFrom, Option.any_none, Bool.false_eq_true, if_false,
      Nat.add_zero, ObjectCode.step]
    cases hrun : s.running u with
    | some c => exact h.elsewhere Or.inl (Nat.le_add_right _ _)
    | none => exact h.invoked hrun op
  | step u =>
    cases hrun : s.running u with
    | none =>
      have hidle : movesFrom t s (.step u) = none := by
        simp only [movesFrom]
        split
        · next hut => rw [← hut, hrun, Option.map_none]
        · rfl
      simp only [FailsCas, Accesses, hidle, Option.any_none, Bool.false_eq_true, if_false,
        Nat.add_zero, ObjectCode.step, hrun]
      exact h.elsewhere Or.inl (Nat.le_add_right _ _)
    | some c =>
      obtain ⟨op, l⟩ := c
      by_cases hut : u = t
      · subst hut
        have hfrom : movesFrom u s (.step u) = some l := by simp [movesFrom, hrun]
        cases hnext : st.next l with
        | inr res =>
          simp only [FailsCas, Accesses, hfrom, Option.any_some, hnext, Sum.isLeft_inr,
            Bool.false_eq_true, if_false, Nat.add_zero, ObjectCode.step, hrun, code]
          rw [casFails_of_returns hnext]
          exact h.returned
        | inl acc =>
          have hown := h.own hinv hfit hrun hnext
            ((st.commit l s.mem).map (CallEvent.committed u op)).toList
          simp only [FailsCas, Accesses, hfrom, Option.any_some, hnext, Sum.isLeft_inl, if_true,
            ObjectCode.step, hrun, code]
          exact hown
      · have hfrom : movesFrom t s (.step u) = none := if_neg hut
        simp only [FailsCas, Accesses, hfrom, Option.any_none, Bool.false_eq_true, if_false,
          Nat.add_zero, ObjectCode.step, hrun, code]
        cases hnext : st.next l with
        | inr res => exact h.returned
        | inl acc => exact h.other hinv hfit hut hrun hnext

/-- The account along every run whose nodes fit. -/
theorem paid_after (mem : Word → Word) (acts : List (ObjectAction T StackOp))
    (hfit : st.Fits (pushCalls (st.history mem acts))) (t : T) :
    st.Paid t
      ((st.code.machine .flat st.commit).countSteps (st.FailsCas id t) (st.initial mem) acts)
      ((st.code.machine .flat st.commit).countSteps (st.Accesses t) (st.initial mem) acts)
      (st.history mem acts) (st.after mem acts) := by
  induction acts using List.reverseRecOn with
  | nil =>
    refine ⟨le_rfl, ?_, le_rfl⟩
    rintro ⟨op, l, v, hrun, -⟩
    cases hrun
  | append_singleton acts act ih =>
    have hsplit : st.history mem (acts ++ [act]) = st.history mem acts ++
        (st.code.step .flat st.commit (st.after mem acts) act).2 :=
      ObjectCode.trace_append _ _ _ _ _ _
    rw [hsplit] at hfit ⊢
    have hbefore := hfit.mono (pushCalls_append_le _ _)
    have hstep := (ih hbefore).step (stackInv_after mem acts hbefore) hbefore act
    rw [Machine.countSteps_append, Machine.countSteps_append]
    have hrun : st.after mem (acts ++ [act]) =
        (st.code.step .flat st.commit (st.after mem acts) act).1 := Machine.run_append _ _ _ _
    rw [hrun]
    exact hstep

/-- The history of a state that satisfies the invariant is linearizable. -/
theorem StackInv.linearizable (h : st.StackInv s es) :
    Linearizable lifo [] (visibleHistory es) := by
  refine ⟨es, rfl, fun t => ?_, h.legal⟩
  cases hrun : s.running t with
  | none => exact Option.isSome_of_eq_some (h.idle t hrun)
  | some c =>
    obtain ⟨status, hsome⟩ := (h.busy t c.1 c.2 hrun).status_eq_some
    exact Option.isSome_of_eq_some hsome

-- ════════════════════════════════════════════════════════════════════════
-- The stack over the caches
-- ════════════════════════════════════════════════════════════════════════

section Caches

variable {n : ℕ} (core : T → Fin n) (visits : ℕ → (c : Fin n) → VisitOrder c) (u : T)
  (m : DutState n) (acts : List (ObjectAction T StackOp))

variable (st) in
/-- Pushes and pops of threads on the cores of a system. -/
def machineOn : Machine (ObjectState T (DutState n) StackOp StackLocal) (ObjectAction T StackOp)
    (List (CallEvent T StackOp StackRes)) :=
  st.code.machine (dut core visits).toSharedMemory fun l m => st.commit l m.flat

variable (st) in
/-- The stack after `init`, called by thread `u`. -/
def initialOn : ObjectState T (DutState n) StackOp StackLocal :=
  let r := (dut core visits).exec m u (.write st.topAddr 0)
  .idle ((dut core visits).exec r.1 u (.write st.allocAddr 0)).1

variable (st) in
/-- The events of a run. -/
def historyOn : List (CallEvent T StackOp StackRes) :=
  ((st.machineOn core visits).outputs (st.initialOn core visits u m) acts).flatten

/-- The calls over the caches take the steps of the calls over the memory they represent. -/
theorem machineOn_step (s : ObjectState T (DutState n) StackOp StackLocal)
    (act : ObjectAction T StackOp) :
    let r := (st.machineOn core visits).step s act
    (st.code.machine .flat st.commit).step ⟨s.mem.flat, s.running⟩ act =
      (⟨r.1.mem.flat, r.1.running⟩, r.2) :=
  st.code.step_view (dut core visits) st.commit s act

theorem historyOn_eq : st.historyOn core visits u m acts = st.history m.flat acts := by
  refine congrArg List.flatten (Machine.simulation
    (R := fun (s : ObjectState T (DutState n) StackOp StackLocal) s' =>
      s' = ⟨s.mem.flat, s.running⟩) ?_ rfl acts).2
  rintro s _ act rfl
  rw [machineOn_step]
  exact ⟨rfl, rfl⟩

/-- Conditions that look at the represented memory only are met equally often. -/
theorem countSteps_machineOn
    {P : ObjectState T (DutState n) StackOp StackLocal → ObjectAction T StackOp → Prop}
    {Q : FlatState T → ObjectAction T StackOp → Prop} [∀ s act, Decidable (P s act)]
    [∀ s act, Decidable (Q s act)] (hPQ : ∀ s act, P s act ↔ Q ⟨s.mem.flat, s.running⟩ act) :
    (st.machineOn core visits).countSteps P (st.initialOn core visits u m) acts =
      (st.code.machine .flat st.commit).countSteps Q (st.initial m.flat) acts := by
  refine Machine.countSteps_simulation
    (R := fun (s : ObjectState T (DutState n) StackOp StackLocal) s' =>
      s' = ⟨s.mem.flat, s.running⟩) ?_ ?_ rfl acts
  · rintro s _ act rfl
    rw [machineOn_step]
  · rintro s _ act rfl
    exact hPQ s act

theorem countSteps_failsCas (t : T) :
    (st.machineOn core visits).countSteps (st.FailsCas DutState.flat t)
        (st.initialOn core visits u m) acts =
      (st.code.machine .flat st.commit).countSteps (st.FailsCas id t) (st.initial m.flat) acts :=
  countSteps_machineOn core visits u m acts fun _ _ => Iff.rfl

theorem countSteps_accesses (t : T) :
    (st.machineOn core visits).countSteps (st.Accesses t) (st.initialOn core visits u m) acts =
      (st.code.machine .flat st.commit).countSteps (st.Accesses t) (st.initial m.flat) acts :=
  countSteps_machineOn core visits u m acts fun _ _ => Iff.rfl

/-- **The Treiber stack over the caches is linearizable and lock-free.** Any threads on any
    cores push and pop in any interleaving of their accesses after `init`, if the nodes of
    the pushes fit. The history is linearizable to a LIFO stack; a CAS of a thread fails at
    most once for each push, and each pop of a value, of others that has taken effect; and a
    thread makes at most five accesses for each of its calls and three for each such effect. -/
theorem lockFreeStack_lock_free (hfit : st.Fits (pushCalls (st.historyOn core visits u m acts)))
    (t : T) :
    let es := st.historyOn core visits u m acts
    let s₀ := st.initialOn core visits u m
    Linearizable lifo [] (visibleHistory es) ∧
    (st.machineOn core visits).countSteps (st.FailsCas DutState.flat t) s₀ acts ≤
      effectsByOthers t es ∧
    (st.machineOn core visits).countSteps (st.Accesses t) s₀ acts ≤
      5 * callsOf t es + 3 * effectsByOthers t es := by
  intro es s₀
  simp only [es, s₀, historyOn_eq, countSteps_failsCas, countSteps_accesses] at hfit ⊢
  have hpaid := paid_after m.flat acts hfit t
  have hnow := hpaid.now
  have hwithin := hpaid.within
  exact ⟨(stackInv_after m.flat acts hfit).linearizable, hnow, by omega⟩

/-- Two pushes race on two cores; the one whose CAS fails pays for it once. -/
theorem racingPushes_lock_free :
    let st : LockFreeStack := ⟨0x100#32, 0x140#32, 0x200#32⟩
    let core : ℕ → Fin 2 := fun t => Fin.ofNat 2 t
    let visits : ℕ → (c : Fin 2) → VisitOrder c := fun _ c => .byIndex c
    let es := st.historyOn core visits 0 (.new 2) racingPushes
    let s₀ := st.initialOn core visits 0 (.new 2)
    Linearizable lifo [] (visibleHistory es) ∧
    (st.machineOn core visits).countSteps (st.FailsCas DutState.flat 0) s₀ racingPushes = 1 ∧
    (st.machineOn core visits).countSteps (st.Accesses 0) s₀ racingPushes = 8 ∧
    (st.machineOn core visits).countSteps (st.Accesses 0) s₀ racingPushes ≤
      5 * callsOf 0 es + 3 * effectsByOthers 0 es ∧
    callsOf 0 es = 1 ∧ effectsByOthers 0 es = 2 := by
  intro st core visits es s₀
  have hes : es = st.history (fun _ => 0) racingPushes := historyOn_eq _ _ _ _ _
  have hcalls : pushCalls es = 2 := by
    rw [hes]
    decide +kernel
  have hfit : st.Fits (pushCalls es) := by
    rw [hcalls]
    exact ⟨by decide, by decide, fun _ => by decide, by decide, by decide⟩
  have hfree := lockFreeStack_lock_free core visits 0 (.new 2) racingPushes hfit 0
  refine ⟨hfree.1, ?_, ?_, hfree.2.2, ?_, ?_⟩
  · rw [countSteps_failsCas]
    decide +kernel
  · rw [countSteps_accesses]
    decide +kernel
  · rw [hes]
    decide +kernel
  · rw [hes]
    decide +kernel

end Caches

end LockFreeStack

end MesiCoherence
