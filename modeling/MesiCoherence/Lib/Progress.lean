import Mathlib.Algebra.Order.BigOperators.Group.Finset
import MesiCoherence.Lib.LockClient

/-!
# Progress under fair schedules

A machine is driven by blocks of inputs, and every block contains all inputs of a fair
family, in any order and with anything else in between. If some input of the family always
helps, and stays helpful until the remaining work gets less, then every block costs work.

## Main definitions

- `Machine.Progress` — the work that remains, and which inputs help
- `ThreadState.work` — the work of all threads
- `ThreadAction.Schedule` — what a scheduler does without calling anything

## Main results

- `Machine.Progress.reaches_zero` — as many blocks as there is work finish it
- `Machine.Progress.finishes` — and it stays finished, if work does not come back
- `LockCode.section_progress` — a critical section is left, whatever the lock
-/

namespace Machine

variable {σ ι ο : Type*}

/-- What begins to hold in a run begins to hold with some input. -/
theorem exists_first (m : Machine σ ι ο) {P : σ → Prop} {s : σ} (h0 : ¬ P s) {is : List ι}
    (h : P (m.run s is)) :
    ∃ pre i, pre ++ [i] <+: is ∧ ¬ P (m.run s pre) ∧ P (m.run s (pre ++ [i])) := by
  induction is using List.reverseRecOn with
  | nil => exact absurd h h0
  | append_singleton is i ih =>
    by_cases hbefore : P (m.run s is)
    · obtain ⟨pre, j, hpre, hnot, hj⟩ := ih hbefore
      exact ⟨pre, j, hpre.trans (List.prefix_append _ _), hnot, hj⟩
    · exact ⟨is, i, List.prefix_rfl, hbefore, h⟩

/-- What holds along two runs one after the other holds along both together. -/
theorem forall_prefix_append (m : Machine σ ι ο) {P : σ → Prop} {s : σ} {is js : List ι}
    (his : ∀ pre, pre <+: is → P (m.run s pre))
    (hjs : ∀ pre, pre <+: js → P (m.run (m.run s is) pre)) (pre : List ι)
    (hpre : pre <+: is ++ js) : P (m.run s pre) := by
  rcases List.prefix_or_prefix_of_prefix hpre (List.prefix_append is js) with hshort | ⟨rest, rfl⟩
  · exact his pre hshort
  · rw [run_append]
    exact hjs rest ((List.prefix_append_right_inj is).mp hpre)

/-- What drives a machine to the end of its work. As long as there is work, no input adds to
    it and one of the fair inputs `helps`; it helps until the work gets less. -/
structure Progress (m : Machine σ ι ο) (I : σ → Prop) (ok fair : ι → Prop) (work : σ → ℕ)
    (helps : σ → ι → Prop) : Prop where
  keeps : ∀ s i, I s → ok i → I (m.step s i).1
  mono : ∀ s i, I s → 0 < work s → ok i → work (m.step s i).1 ≤ work s
  exists_helps : ∀ s, I s → 0 < work s → ∃ i, fair i ∧ helps s i
  falls : ∀ s i, I s → 0 < work s → helps s i → work (m.step s i).1 < work s
  stays : ∀ s i j, I s → 0 < work s → helps s i → ok j →
    work (m.step s j).1 < work s ∨ helps (m.step s j).1 i

namespace Progress

variable {m : Machine σ ι ο} {I : σ → Prop} {ok fair : ι → Prop} {work : σ → ℕ}
  {helps : σ → ι → Prop} {s : σ}

/-- Progress from one fact about a step: it makes the work less, or it leaves everything to the
    inputs that help, and is none of them. -/
theorem of_step (hkeeps : ∀ s i, I s → ok i → I (m.step s i).1)
    (hexists : ∀ s, I s → 0 < work s → ∃ i, fair i ∧ helps s i)
    (hok : ∀ s i, helps s i → ok i)
    (hstep : ∀ s i, I s → 0 < work s → ok i → work (m.step s i).1 < work s ∨
      work (m.step s i).1 ≤ work s ∧ ∀ j, helps s j → helps (m.step s i).1 j ∧ i ≠ j) :
    m.Progress I ok fair work helps where
  keeps := hkeeps
  mono s i hI hpos hi := by
    rcases hstep s i hI hpos hi with hless | ⟨hle, -⟩
    · exact hless.le
    · exact hle
  exists_helps := hexists
  falls s i hI hpos hhelps := by
    rcases hstep s i hI hpos (hok s i hhelps) with hless | ⟨-, hothers⟩
    · exact hless
    · exact absurd rfl (hothers i hhelps).2
  stays s i j hI hpos hhelps hj := by
    rcases hstep s j hI hpos hj with hless | ⟨-, hothers⟩
    · exact Or.inl hless
    · exact Or.inr (hothers i hhelps).1

theorem run_keeps (h : m.Progress I ok fair work helps) (hI : I s) {is : List ι}
    (hok : ∀ i ∈ is, ok i) : I (m.run s is) := by
  induction is generalizing s with
  | nil => exact hI
  | cons i is ih =>
    exact ih (h.keeps s i hI (hok i List.mem_cons_self)) fun j hj =>
      hok j (List.mem_cons_of_mem _ hj)

/-- While there is work, a run does not add to it. -/
theorem run_mono (h : m.Progress I ok fair work helps) (hI : I s) {is : List ι}
    (hok : ∀ i ∈ is, ok i) (hpos : ∀ pre, pre <+: is → 0 < work (m.run s pre)) :
    work (m.run s is) ≤ work s := by
  induction is generalizing s with
  | nil => exact le_rfl
  | cons i is ih =>
    have hi := hok i List.mem_cons_self
    have hstep := h.mono s i hI (hpos [] List.nil_prefix) hi
    have hrest := ih (h.keeps s i hI hi) (fun j hj => hok j (List.mem_cons_of_mem _ hj))
      fun pre hpre => hpos (i :: pre) ((List.prefix_cons_inj i).mpr hpre)
    exact hrest.trans hstep

/-- An input that helps makes the work less by the time it comes. -/
theorem run_lt_of_helps (h : m.Progress I ok fair work helps) (hI : I s) {is : List ι}
    (hok : ∀ i ∈ is, ok i) (hpos : ∀ pre, pre <+: is → 0 < work (m.run s pre)) {i : ι}
    (hi : i ∈ is) (hhelps : helps s i) : work (m.run s is) < work s := by
  induction is generalizing s with
  | nil => cases hi
  | cons j is ih =>
    have hj := hok j List.mem_cons_self
    have hs := hpos [] List.nil_prefix
    have hI' := h.keeps s j hI hj
    have hok' : ∀ i ∈ is, ok i := fun i hi => hok i (List.mem_cons_of_mem _ hi)
    have hpos' : ∀ pre, pre <+: is → 0 < work (m.run (m.step s j).1 pre) := fun pre hpre =>
      hpos (j :: pre) ((List.prefix_cons_inj j).mpr hpre)
    have hrest := h.run_mono hI' hok' hpos'
    rcases List.mem_cons.mp hi with rfl | hmem
    · exact Nat.lt_of_le_of_lt hrest (h.falls s i hI hs hhelps)
    · rcases h.stays s i j hI hs hhelps hj with hless | hstill
      · exact Nat.lt_of_le_of_lt hrest hless
      · exact Nat.lt_of_lt_of_le (ih hI' hok' hpos' hmem hstill) (h.mono s j hI hs hj)

/-- **Fair progress**: as many fair blocks as there is work reach a state without work. -/
theorem reaches_zero (h : m.Progress I ok fair work helps) (hI : I s) (blocks : List (List ι))
    (hok : ∀ b ∈ blocks, ∀ i ∈ b, ok i) (hfair : ∀ b ∈ blocks, ∀ i, fair i → i ∈ b)
    (hlen : work s ≤ blocks.length) :
    ∃ pre, pre <+: blocks.flatten ∧ work (m.run s pre) = 0 := by
  induction blocks generalizing s with
  | nil => exact ⟨[], List.nil_prefix, Nat.le_zero.mp hlen⟩
  | cons b blocks ih =>
    by_cases hzero : ∃ pre, pre <+: b ∧ work (m.run s pre) = 0
    · obtain ⟨pre, hpre, hdone⟩ := hzero
      exact ⟨pre, hpre.trans (List.prefix_append _ _), hdone⟩
    have hpos : ∀ pre, pre <+: b → 0 < work (m.run s pre) := fun pre hpre =>
      Nat.pos_of_ne_zero fun h0 => hzero ⟨pre, hpre, h0⟩
    have hokb := hok b List.mem_cons_self
    obtain ⟨i, hi, hhelps⟩ := h.exists_helps s hI (hpos [] List.nil_prefix)
    have hless := h.run_lt_of_helps hI hokb hpos (hfair b List.mem_cons_self i hi) hhelps
    rw [List.length_cons] at hlen
    obtain ⟨pre, hpre, hdone⟩ := ih (h.run_keeps hI hokb)
      (fun b' hb' => hok b' (List.mem_cons_of_mem _ hb'))
      (fun b' hb' => hfair b' (List.mem_cons_of_mem _ hb')) (by omega)
    refine ⟨b ++ pre, ?_, ?_⟩
    · exact (List.prefix_append_right_inj b).mpr hpre
    · rw [run_append, hdone]

/-- Work that does not come back is finished at the end of the blocks. -/
theorem finishes (h : m.Progress I ok fair work helps)
    (hzero : ∀ s i, I s → ok i → work s = 0 → work (m.step s i).1 = 0) (hI : I s)
    (blocks : List (List ι)) (hok : ∀ b ∈ blocks, ∀ i ∈ b, ok i)
    (hfair : ∀ b ∈ blocks, ∀ i, fair i → i ∈ b) (hlen : work s ≤ blocks.length) :
    work (m.run s blocks.flatten) = 0 := by
  have hflat : ∀ i ∈ blocks.flatten, ok i := by
    intro i hi
    obtain ⟨b, hb, hib⟩ := List.mem_flatten.mp hi
    exact hok b hb i hib
  obtain ⟨pre, ⟨post, hsplit⟩, hdone⟩ := h.reaches_zero hI blocks hok hfair hlen
  rw [← hsplit] at hflat ⊢
  rw [run_append]
  have hstay : ∀ (is : List ι) (s : σ), (∀ i ∈ is, ok i) → I s → work s = 0 →
      work (m.run s is) = 0 := by
    intro is
    induction is with
    | nil => exact fun s _ _ h0 => h0
    | cons i is ih =>
      intro s hok hI h0
      have hi := hok i List.mem_cons_self
      exact ih _ (fun j hj => hok j (List.mem_cons_of_mem _ hj)) (h.keeps s i hI hi)
        (hzero s i hI hi h0)
  exact hstay post _ (fun i hi => hflat i (List.mem_append_right _ hi))
    (h.run_keeps hI fun i hi => hflat i (List.mem_append_left _ hi)) hdone

end Progress

end Machine

/-- The actions of a scheduler: everything but the callers' commands. -/
def ThreadAction.Schedule {T C A V : Type*} : ThreadAction T C A V → Prop
  | .command _ _ => False
  | _ => True

/-- The action of some thread. -/
def ThreadAction.IsAccess {T C A V : Type*} (act : ThreadAction T C A V) : Prop :=
  ∃ t, act = .access t

namespace ThreadState

variable {T M L : Type*} [Fintype T]

/-- The sum of what the threads have left to do. -/
def work (rank : L → ℕ) (s : ThreadState T M L) : ℕ := ∑ t, rank (s.locals t)

theorem work_eq_zero_iff {rank : L → ℕ} {s : ThreadState T M L} :
    s.work rank = 0 ↔ ∀ t, rank (s.locals t) = 0 := by
  rw [work, Finset.sum_eq_zero_iff]
  exact ⟨fun h t => h t (Finset.mem_univ t), fun h t _ => h t⟩

theorem exists_of_work_pos {rank : L → ℕ} {s : ThreadState T M L} (h : 0 < s.work rank) :
    ∃ t, 0 < rank (s.locals t) := by
  by_contra hnone
  have hzero := work_eq_zero_iff.mpr fun t => Nat.eq_zero_of_not_pos fun ht => hnone ⟨t, ht⟩
  omega

theorem work_le {rank : L → ℕ} {b : ℕ} (h : ∀ l, rank l ≤ b) (s : ThreadState T M L) :
    s.work rank ≤ Fintype.card T * b := by
  have hsum := Finset.sum_le_card_nsmul Finset.univ (fun t => rank (s.locals t)) b fun t _ => h _
  rwa [Finset.card_univ, Nat.nsmul_eq_mul] at hsum

omit [Fintype T] in
/-- Two moves of a thread are as its last one. -/
theorem setLocal_setLocal [DecidableEq T] (s : ThreadState T M L) (t : T) (l l' : L) :
    (s.setLocal t l).setLocal t l' = s.setLocal t l' := by
  simp [setLocal]

omit [Fintype T] in
theorem setLocal_setMem_setLocal [DecidableEq T] {N : Type*} (s : ThreadState T M L) (t : T)
    (l l' : L) (m : N) : ((s.setLocal t l).setMem m).setLocal t l' = (s.setMem m).setLocal t l' :=
  setLocal_setLocal (s.setMem m) t l l'

/-- A step of one thread changes its own summand. -/
theorem work_setLocal [DecidableEq T] (rank : L → ℕ) (s : ThreadState T M L) (t : T) (l : L) :
    (s.setLocal t l).work rank + rank (s.locals t) = s.work rank + rank l := by
  have hnew := Finset.add_sum_erase Finset.univ (fun u => rank ((s.setLocal t l).locals u))
    (Finset.mem_univ t)
  have hold := Finset.add_sum_erase Finset.univ (fun u => rank (s.locals u)) (Finset.mem_univ t)
  have hrest : ∑ u ∈ Finset.univ.erase t, rank ((s.setLocal t l).locals u) =
      ∑ u ∈ Finset.univ.erase t, rank (s.locals u) :=
    Finset.sum_congr rfl fun u hu => by rw [setLocal_of_ne s (Finset.ne_of_mem_erase hu)]
  rw [hrest, setLocal_self] at hnew
  unfold work
  omega

end ThreadState

section Clients

variable {T M K V : Type*} [Fintype T] {s : ThreadState T M (ClientLocal K V)}

/-- Only the thread inside has done anything. -/
theorem Exclusive.work_done (h : Exclusive s) {t : T} (ht : (s.locals t).inside = true) :
    s.work ClientLocal.done = (s.locals t).done := by
  refine Finset.sum_eq_single t (fun u _ hu => ?_) fun hnot => absurd (Finset.mem_univ t) hnot
  exact ClientLocal.done_of_outside (ThreadState.others_of_unique h ht u hu)

theorem work_done_of_none (h : ∀ t, (s.locals t).inside = false) :
    s.work ClientLocal.done = 0 :=
  ThreadState.work_eq_zero_iff.mpr fun t => ClientLocal.done_of_outside (h t)

theorem Exclusive.work_done_le (h : Exclusive s) : s.work ClientLocal.done ≤ 3 := by
  by_cases hin : ∃ t, (s.locals t).inside = true
  · obtain ⟨t, ht⟩ := hin
    rw [h.work_done ht]
    exact ClientLocal.done_le _
  · rw [work_done_of_none fun t => eq_false_of_ne_true fun ht => hin ⟨t, ht⟩]
    exact Nat.zero_le 3

end Clients

namespace ThreadCode

variable {T A V C L : Type*} [DecidableEq T] [DecidableEq A] [DecidableEq V] [Add V]
  {code : ThreadCode T A V C L} {s : ThreadState T (A → V) L}

/-- The states of the runs from `s₀`. -/
def Reached (code : ThreadCode T A V C L) (s₀ s : ThreadState T (A → V) L) : Prop :=
  ∃ acts, s = code.run .flat s₀ acts

theorem Reached.step {s₀ : ThreadState T (A → V) L} (h : code.Reached s₀ s)
    (act : ThreadAction T C A V) : code.Reached s₀ ((code.machine .flat).step s act).1 := by
  obtain ⟨acts, rfl⟩ := h
  exact ⟨acts ++ [act], (code.run_append .flat s₀ acts [act]).symm⟩

/-- A thread with an access performs it. -/
theorem step_access_flat {t : T} {acc : Access A V} (h : code.next (s.locals t) = some acc) :
    code.step .flat s (.access t) =
      ((s.setMem (acc.exec s.mem).1).setLocal t (code.resume (s.locals t) (acc.exec s.mem).2),
        [.accessed t (s.locals t) acc (acc.exec s.mem).2]) := by
  unfold step
  dsimp only
  rw [h]
  rfl

theorem step_access {t : T} {acc : Access A V} (h : code.next (s.locals t) = some acc) :
    ((code.machine .flat).step s (.access t)).1 =
      (s.setMem (acc.exec s.mem).1).setLocal t (code.resume (s.locals t) (acc.exec s.mem).2) :=
  congrArg Prod.fst (step_access_flat h)

/-- What one step of a scheduler can do. -/
theorem step_schedule (code : ThreadCode T A V C L) (s : ThreadState T (A → V) L)
    {act : ThreadAction T C A V} (hact : act.Schedule) :
    (∃ t acc, act = .access t ∧ code.next (s.locals t) = some acc) ∨
      (∃ t acc, act = .other t acc ∧ code.foreign acc = true ∧
        ((code.machine .flat).step s act).1 = s.setMem (acc.exec s.mem).1) ∨
      ((code.machine .flat).step s act).1 = s := by
  cases act with
  | command t c => exact hact.elim
  | access t =>
    cases hnext : code.next (s.locals t) with
    | some acc => exact Or.inl ⟨t, acc, rfl, hnext⟩
    | none =>
      refine Or.inr (Or.inr ?_)
      show (code.step .flat s (.access t)).1 = s
      unfold step
      dsimp only
      rw [hnext]
  | other t acc =>
    cases hf : code.foreign acc with
    | true =>
      refine Or.inr (Or.inl ⟨t, acc, rfl, hf, ?_⟩)
      show (code.step .flat s (.other t acc)).1 = _
      unfold step
      dsimp only
      rw [if_pos hf]
      rfl
    | false =>
      refine Or.inr (Or.inr ?_)
      show (code.step .flat s (.other t acc)).1 = s
      unfold step
      dsimp only
      rw [if_neg (by rw [hf]; exact Bool.false_ne_true)]

end ThreadCode

namespace LockCode

variable {T A V K : Type*}

/-- What is left of a critical section. -/
def remaining : ClientLocal K V → ℕ
  | .entered => 3
  | .counting _ => 2
  | .leaving => 1
  | _ => 0

theorem remaining_eq_zero_iff {l : ClientLocal K V} : remaining l = 0 ↔ l.inside = false := by
  cases l <;> simp [remaining, ClientLocal.inside]

theorem remaining_le (l : ClientLocal K V) : remaining l ≤ 3 := by
  cases l <;> simp [remaining]

theorem remaining_of_done {l l' : ClientLocal K V} (hl : l.inside = true) (hl' : l'.inside = true)
    (hdone : l'.done = l.done + 1) : remaining l' + 1 = remaining l := by
  cases l <;> cases l' <;> simp_all [remaining, ClientLocal.inside, ClientLocal.done]

variable [DecidableEq T] [DecidableEq A] [DecidableEq V] [Add V] [One V] {lock : LockCode A V K}
  {ctr : A}

/-- A thread that is not idle waits for its own accesses. -/
theorem run_locals_eq (hctr : ctr ∉ lock.words) {t : T} {acts : List (ThreadAction T Unit A V)}
    (hacts : ∀ act ∈ acts, act ≠ .access t) {s : ClientState T A V K} (ht : s.locals t ≠ .idle) :
    ((lock.client ctr).run .flat s acts).locals t = s.locals t := by
  induction acts generalizing s with
  | nil => rfl
  | cons act acts ih =>
    have hstep := (moves_step (s := s) hctr act).locals_eq (hacts act List.mem_cons_self) ht
    have hrest := ih (fun a ha => hacts a (List.mem_cons_of_mem _ ha))
      (s := (((lock.client ctr).machine .flat).step s act).1) (by rwa [hstep])
    exact hrest.trans hstep

/-- Whoever got out of `lock` has entered on the way. -/
theorem exists_entered (hctr : ctr ∉ lock.words) {t : T} {s : ClientState T A V K} {k : K}
    (hk : s.locals t = .locking k) {acts : List (ThreadAction T Unit A V)}
    (hout : ∀ k, ((lock.client ctr).run .flat s acts).locals t ≠ .locking k) :
    ∃ pre, pre <+: acts ∧ ((lock.client ctr).run .flat s pre).locals t = .entered := by
  obtain ⟨pre, act, hpre, hin, hdone⟩ := Machine.exists_first
    ((lock.client (T := T) ctr).machine .flat) (P := fun s => ∀ k, s.locals t ≠ .locking k)
    (fun hno => hno k hk) hout
  obtain ⟨k', hk'⟩ := not_forall_not.mp hin
  refine ⟨pre ++ [act], hpre, ?_⟩
  rw [Machine.run_append] at hdone
  rw [ThreadCode.run_append]
  exact (moves_step hctr act).entered hk' hdone

/-- A critical section goes on with its own thread only. -/
theorem section_progress (hctr : ctr ∉ lock.words) (t : T) :
    ((lock.client ctr).machine .flat).Progress (fun _ => True) (fun _ => True)
      ThreadAction.IsAccess (fun s : ClientState T A V K => remaining (s.locals t))
      (fun _ act => act = .access t) := by
  have hstay : ∀ (s : ClientState T A V K) act, 0 < remaining (s.locals t) → act ≠ .access t →
      (((lock.client ctr).machine .flat).step s act).1.locals t = s.locals t := by
    intro s act hpos hact
    refine (moves_step hctr act).locals_eq hact fun hidle => ?_
    rw [hidle] at hpos
    cases hpos
  have hfall : ∀ s : ClientState T A V K, 0 < remaining (s.locals t) →
      remaining ((((lock.client ctr).machine .flat).step s (.access t)).1.locals t) <
        remaining (s.locals t) := by
    intro s hpos
    generalize hs : (((lock.client ctr).machine .flat).step s (.access t)).1 = s'
    have hmove : Moves lock s (.access t) s' := hs ▸ moves_step hctr (.access t)
    cases hmove with
    | stay hidle =>
      rw [hidle t rfl] at hpos
      cases hpos
    | lock hk =>
      rw [hk] at hpos
      cases hpos
    | count hin hl hdone _ =>
      rw [ThreadState.setLocal_self]
      have hless := remaining_of_done hin hl hdone
      omega
    | unlock hu =>
      rw [ThreadState.setLocal_self]
      exact hpos
  refine .of_step (fun _ _ _ _ => trivial) (fun _ _ _ => ⟨.access t, ⟨t, rfl⟩, rfl⟩)
    (fun _ _ _ => trivial) fun s act _ hpos _ => ?_
  by_cases hact : act = .access t
  · subst hact
    exact Or.inl (hfall s hpos)
  · refine Or.inr ⟨(congrArg remaining (hstay s act hpos hact)).le, ?_⟩
    rintro _ rfl
    exact ⟨rfl, hact⟩

end LockCode
