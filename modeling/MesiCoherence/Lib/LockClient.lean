import Mathlib.Logic.Function.Iterate
import MesiCoherence.Lib.Threads

/-!
# Clients of a lock

Threads that repeatedly take a lock, increment a counter by a separate read and write,
and release the lock. If the lock excludes, no increment is lost.

## Main definitions

- `LockCode` — the code of `lock` and `unlock`
- `LockCode.client` — the threads that use it
- `ClientLocal.inside` — between the return of `lock` and the access of `unlock`
- `LockCode.Moves` — what a step of clients can do

## Main results

- `LockCode.client_invariant` — an invariant that excludes makes the counter exact
- `LockCode.moves_step` — every step is one of these
-/

/-- A lock: `lock` is a loop over accesses that ends when `resume` gives `none`, and
    `unlock` is one access. Both stay on the words of the lock. -/
structure LockCode (A V K : Type*) where
  start : K
  next : K → Access A V
  resume : K → Reply V → Option K
  unlock : Access A V
  words : List A
  next_mem : ∀ k, (next k).addr ∈ words
  unlock_mem : unlock.addr ∈ words

/-- The program points of a client. -/
inductive ClientLocal (K V : Type*) where
  | idle
  /-- inside `lock` -/
  | locking (k : K)
  /-- `lock` has returned -/
  | entered
  /-- the counter was read -/
  | counting (v : V)
  /-- the counter was written; about to unlock -/
  | leaving
  deriving DecidableEq

/-- Between the return of `lock` and the access of `unlock`. -/
def ClientLocal.inside {K V : Type*} : ClientLocal K V → Bool
  | .idle => false
  | .locking _ => false
  | _ => true

/-- The accesses made since `lock` returned, counting its last one. -/
def ClientLocal.done {K V : Type*} : ClientLocal K V → ℕ
  | .idle => 0
  | .locking _ => 0
  | .entered => 1
  | .counting _ => 2
  | .leaving => 3

theorem ClientLocal.done_of_outside {K V : Type*} {l : ClientLocal K V} (h : l.inside = false) :
    l.done = 0 := by
  cases l with
  | idle => rfl
  | locking k => rfl
  | _ => cases h

theorem ClientLocal.done_le {K V : Type*} (l : ClientLocal K V) : l.done ≤ 3 := by
  cases l <;> simp [done]

variable {T A V K : Type*}

/-- The events of clients. -/
abbrev ClientEvent (T A V K : Type*) := ThreadEvent T Unit A V (ClientLocal K V)

/-- The state of clients over a flat memory. -/
abbrev ClientState (T A V K : Type*) := ThreadState T (A → V) (ClientLocal K V)

/-- The number of counter writes. -/
def counterWrites (es : List (ClientEvent T A V K)) : ℕ :=
  es.countP fun
    | .accessed _ (.counting _) _ _ => true
    | _ => false

/-- The number of completed critical sections. -/
def completed (es : List (ClientEvent T A V K)) : ℕ :=
  es.countP fun
    | .accessed _ .leaving _ _ => true
    | _ => false

/-- At most one thread is inside. -/
def Exclusive {M : Type*} (s : ThreadState T M (ClientLocal K V)) : Prop :=
  ∀ t u, (s.locals t).inside = true → (s.locals u).inside = true → t = u

namespace LockCode

variable [DecidableEq A] [Add V] [One V]

/-- Where `lock` goes on. -/
def afterLock (r : Option K) : ClientLocal K V :=
  match r with
  | some k => .locking k
  | none => .entered

/-- The code of a client that counts at `ctr`. Other code keeps off the words of the
    lock and the counter, except for reading them. -/
def client (lock : LockCode A V K) (ctr : A) : ThreadCode T A V Unit (ClientLocal K V) where
  command locals t _ :=
    match locals t with
    | .idle => some (.locking lock.start)
    | _ => none
  next
    | .idle => none
    | .locking k => some (lock.next k)
    | .entered => some (.read ctr)
    | .counting v => some (.write ctr (v + 1))
    | .leaving => some lock.unlock
  resume
    | .locking k, r => afterLock (lock.resume k r)
    | .entered, .value v => .counting v
    | .counting _, _ => .leaving
    | .leaving, _ => .idle
    | l, _ => l
  foreign acc := (ctr :: lock.words).all acc.keeps

/-- The counter has one increment for each write, a thread that has read it holds its
    current value, and only a leaving thread has written without having completed. -/
structure CounterInv (ctr : A) (init : V) (es : List (ClientEvent T A V K))
    (s : ClientState T A V K) : Prop where
  value : s.mem ctr = (· + 1)^[counterWrites es] init
  current : ∀ t v, s.locals t = .counting v → v = s.mem ctr
  writes_of_leaving : ∀ t, s.locals t = .leaving → counterWrites es = completed es + 1
  writes : (∀ t, s.locals t ≠ .leaving) → counterWrites es = completed es

namespace CounterInv

variable [DecidableEq T] {ctr : A} {init : V} {es : List (ClientEvent T A V K)}
  {s : ClientState T A V K} {e : ClientEvent T A V K}

omit [DecidableEq A] in
/-- A step that neither writes the counter nor leaves. -/
theorem quiet (h : CounterInv ctr init es s) {m : A → V} {t : T} {l : ClientLocal K V}
    (hm : m ctr = s.mem ctr) (ht : s.locals t ≠ .leaving) (hl : l ≠ .leaving)
    (hv : ∀ v, l = .counting v → v = s.mem ctr) (hw : counterWrites [e] = 0)
    (hc : completed [e] = 0) :
    CounterInv ctr init (es ++ [e]) ((s.setMem m).setLocal t l) := by
  have hw' : counterWrites (es ++ [e]) = counterWrites es := by
    simpa [counterWrites, List.countP_append] using hw
  have hc' : completed (es ++ [e]) = completed es := by
    simpa [completed, List.countP_append] using hc
  refine ⟨?_, ?_, ?_, ?_⟩
  · rw [hw']
    exact hm.trans h.value
  · show ∀ u v, ((s.setMem m).setLocal t l).locals u = .counting v → v = m ctr
    rw [hm]
    exact ThreadState.forall_setLocal
      (P := fun _ (l : ClientLocal K V) => ∀ v, l = .counting v → v = s.mem ctr) hv
      fun u _ => h.current u
  · rw [hw', hc']
    exact ThreadState.forall_setLocal
      (P := fun _ (l : ClientLocal K V) => l = .leaving → counterWrites es = completed es + 1)
      (fun hleft => absurd hleft hl) fun u _ => h.writes_of_leaving u
  · intro hnone
    rw [hw', hc']
    refine h.writes fun u hu => ?_
    have hut : u ≠ t := by
      rintro rfl
      exact ht hu
    have := hnone u
    rw [ThreadState.setLocal_of_ne _ hut] at this
    exact this hu

omit [DecidableEq A] [DecidableEq T] in
/-- Other code leaves the counter alone. -/
theorem other (h : CounterInv ctr init es s) {m : A → V} (hm : m ctr = s.mem ctr) (t : T)
    (acc : Access A V) (r : Reply V) :
    CounterInv ctr init (es ++ [.other t acc r]) (s.setMem m) := by
  have hw : counterWrites (es ++ [.other t acc r]) = counterWrites es := by
    simp [counterWrites, List.countP_append]
  have hc : completed (es ++ [.other t acc r]) = completed es := by
    simp [completed, List.countP_append]
  refine ⟨?_, ?_, ?_, ?_⟩
  · rw [hw]
    exact hm.trans h.value
  · intro u v hu
    exact (h.current u v hu).trans hm.symm
  · intro u hu
    rw [hw, hc]
    exact h.writes_of_leaving u hu
  · intro hnone
    rw [hw, hc]
    exact h.writes hnone

/-- The thread inside writes back what it read, plus one. -/
theorem write (h : CounterInv ctr init es s) (hex : Exclusive s) {t : T} {v : V}
    (ht : s.locals t = .counting v) (acc : Access A V) (r : Reply V) :
    CounterInv ctr init (es ++ [.accessed t (.counting v) acc r])
      ((s.setMem (Function.update s.mem ctr (v + 1))).setLocal t .leaving) := by
  have halone : ∀ u, u ≠ t → (s.locals u).inside = false :=
    ThreadState.others_of_unique hex (by rw [ht]; rfl)
  have hno : ∀ u, s.locals u ≠ .leaving := by
    intro u hu
    by_cases hut : u = t
    · subst hut
      rw [ht] at hu
      cases hu
    · have := halone u hut
      rw [hu] at this
      cases this
  have hw : counterWrites (es ++ [.accessed t (.counting v) acc r]) = counterWrites es + 1 := by
    simp [counterWrites, List.countP_append]
  have hc : completed (es ++ [.accessed t (.counting v) acc r]) = completed es := by
    simp [completed, List.countP_append]
  refine ⟨?_, ?_, ?_, ?_⟩
  · rw [hw, Function.iterate_succ_apply', ← h.value, ← h.current t v ht]
    exact Function.update_self _ _ _
  · intro u w
    refine ThreadState.forall_setLocal
      (P := fun _ (l : ClientLocal K V) => l = .counting w → w = _) ?_ ?_ u
    · intro hw
      cases hw
    · intro u hut hw
      have hin := halone u hut
      rw [show s.locals u = .counting w from hw] at hin
      cases hin
  · intro u _
    rw [hw, hc, h.writes hno]
  · intro hnone
    exact absurd (ThreadState.setLocal_self _ _ _) (hnone t)

omit [DecidableEq A] in
/-- The thread inside unlocks. -/
theorem unlock (h : CounterInv ctr init es s) (hex : Exclusive s) {m : A → V}
    (hm : m ctr = s.mem ctr) {t : T} (ht : s.locals t = .leaving) (acc : Access A V)
    (r : Reply V) :
    CounterInv ctr init (es ++ [.accessed t .leaving acc r]) ((s.setMem m).setLocal t .idle) := by
  have halone : ∀ u, u ≠ t → (s.locals u).inside = false :=
    ThreadState.others_of_unique hex (by rw [ht]; rfl)
  have hw : counterWrites (es ++ [.accessed t .leaving acc r]) = counterWrites es := by
    simp [counterWrites, List.countP_append]
  have hc : completed (es ++ [.accessed t .leaving acc r]) = completed es + 1 := by
    simp [completed, List.countP_append]
  have hlocal : ∀ u, (((s.setMem m).setLocal t .idle).locals u).inside = false :=
    ThreadState.forall_setLocal (P := fun _ (l : ClientLocal K V) => l.inside = false) rfl halone
  refine ⟨?_, ?_, ?_, ?_⟩
  · rw [hw]
    exact hm.trans h.value
  · intro u v hu
    have := hlocal u
    rw [hu] at this
    cases this
  · intro u hu
    have := hlocal u
    rw [hu] at this
    cases this
  · intro _
    rw [hw, hc, h.writes_of_leaving t ht]

omit [Add V] [One V] in
/-- `lock` ends before the critical section. -/
theorem afterLock_outside (r : Option K) : (afterLock r : ClientLocal K V) ≠ .leaving ∧
    ∀ v, (afterLock r : ClientLocal K V) ≠ .counting v := by
  unfold afterLock
  split <;> simp

/-- The accesses of a client, when the lock excludes. -/
theorem access [DecidableEq V] {lock : LockCode A V K} (h : CounterInv ctr init es s)
    (hctr : ctr ∉ lock.words) (hex : Exclusive s) {t : T} {acc : Access A V}
    (hnext : (lock.client (T := T) ctr).next (s.locals t) = some acc) :
    CounterInv ctr init (es ++ [.accessed t (s.locals t) acc (acc.exec s.mem).2])
      ((s.setMem (acc.exec s.mem).1).setLocal t
        ((lock.client (T := T) ctr).resume (s.locals t) (acc.exec s.mem).2)) := by
  have hkeep : ∀ {acc : Access A V}, acc.addr ∈ lock.words →
      (acc.exec s.mem).1 ctr = s.mem ctr := by
    intro acc hacc
    refine Access.exec_apply_of_keeps (Access.keeps_of_ne ?_) s.mem
    rintro rfl
    exact hctr hacc
  cases hl : s.locals t with
  | idle => simp [client, hl] at hnext
  | locking k =>
    simp only [client, hl, Option.some.injEq] at hnext
    subst hnext
    have hout := afterLock_outside (V := V) (lock.resume k ((lock.next k).exec s.mem).2)
    exact h.quiet (hkeep (lock.next_mem k)) (by simp [hl]) hout.1
      (fun v hv => absurd hv (hout.2 v)) rfl rfl
  | entered =>
    simp only [client, hl, Option.some.injEq] at hnext
    subst hnext
    rw [Access.exec_read]
    refine h.quiet rfl (by simp [hl]) (by simp [client]) ?_ rfl rfl
    intro v hv
    exact (ClientLocal.counting.inj hv).symm
  | counting v =>
    simp only [client, hl, Option.some.injEq] at hnext
    subst hnext
    exact h.write hex hl _ _
  | leaving =>
    simp only [client, hl, Option.some.injEq] at hnext
    subst hnext
    exact h.unlock hex (hkeep lock.unlock_mem) hl _ _

end CounterInv

section Invariant

variable [DecidableEq T] [DecidableEq V] (lock : LockCode A V K) {ctr : A}
  {I : List (ClientEvent T A V K) → ClientState T A V K → Prop} {s₀ : ClientState T A V K}

/-- **Counting under a lock.** Let `I` exclude, and be kept by calls of `lock`, by the
    accesses of `lock` and `unlock`, and by anything that happens off the words of the
    lock. Then `I` holds along every run, and no increment of the counter is lost. -/
theorem client_invariant (hctr : ctr ∉ lock.words)
    (hexcl : ∀ es s, I es s → Exclusive s) (h0 : I [] s₀) (hidle : ∀ t, s₀.locals t = .idle)
    (hcall : ∀ es s t, I es s → s.locals t = .idle →
      I (es ++ [.commanded t ()]) (s.setLocal t (.locking lock.start)))
    (hlock : ∀ es s t k, I es s → s.locals t = .locking k →
      I (es ++ [.accessed t (.locking k) (lock.next k) ((lock.next k).exec s.mem).2])
        ((s.setMem ((lock.next k).exec s.mem).1).setLocal t
          (afterLock (lock.resume k ((lock.next k).exec s.mem).2))))
    (hsection : ∀ es s t acc r m l, I es s → (s.locals t).inside = true →
      s.locals t ≠ .leaving → l.inside = true → (∀ a ∈ lock.words, m a = s.mem a) →
      I (es ++ [.accessed t (s.locals t) acc r]) ((s.setMem m).setLocal t l))
    (hunlock : ∀ es s t, I es s → s.locals t = .leaving →
      I (es ++ [.accessed t .leaving lock.unlock (lock.unlock.exec s.mem).2])
        ((s.setMem (lock.unlock.exec s.mem).1).setLocal t .idle))
    (hother : ∀ es s t acc r m, I es s → (∀ a ∈ lock.words, m a = s.mem a) →
      I (es ++ [.other t acc r]) (s.setMem m))
    (acts : List (ThreadAction T Unit A V)) :
    let es := (lock.client ctr).trace .flat s₀ acts
    let s := (lock.client ctr).run .flat s₀ acts
    I es s ∧ CounterInv ctr (s₀.mem ctr) es s := by
  refine (lock.client ctr).trace_invariant
    (P := fun es s => I es s ∧ CounterInv ctr (s₀.mem ctr) es s) ⟨h0, ?_⟩ ?_ ?_ ?_ acts
  · refine ⟨rfl, ?_, ?_, fun _ => rfl⟩
    · intro t v ht
      rw [hidle t] at ht
      cases ht
    · intro t ht
      rw [hidle t] at ht
      cases ht
  · rintro es s t ⟨⟩ l ⟨hI, hC⟩ hcmd
    cases hl : s.locals t with
    | idle =>
      simp only [client, hl, Option.some.injEq] at hcmd
      subst hcmd
      refine ⟨hcall es s t hI hl, ?_⟩
      exact hC.quiet (m := s.mem) rfl (by simp [hl]) (by simp) (by simp) rfl rfl
    | _ => simp [client, hl] at hcmd
  · rintro es s t acc ⟨hI, hC⟩ hnext
    refine ⟨?_, hC.access hctr (hexcl es s hI) hnext⟩
    cases hl : s.locals t with
    | idle => simp [client, hl] at hnext
    | locking k =>
      simp only [client, hl, Option.some.injEq] at hnext
      subst hnext
      exact hlock es s t k hI hl
    | entered =>
      simp only [client, hl, Option.some.injEq] at hnext
      subst hnext
      rw [Access.exec_read, ← hl]
      exact hsection es s t _ _ s.mem _ hI (by rw [hl]; rfl) (by simp [hl]) (by rw [hl]; rfl)
        fun _ _ => rfl
    | counting v =>
      simp only [client, hl, Option.some.injEq] at hnext
      subst hnext
      rw [← hl]
      refine hsection es s t _ _ _ _ hI (by rw [hl]; rfl) (by simp [hl]) (by rw [hl]; rfl) ?_
      intro a ha
      refine Function.update_of_ne ?_ _ _
      rintro rfl
      exact hctr ha
    | leaving =>
      simp only [client, hl, Option.some.injEq] at hnext
      subst hnext
      exact hunlock es s t hI hl
  · rintro es s t acc ⟨hI, hC⟩ hf
    have hall : ∀ a ∈ ctr :: lock.words, (acc.exec s.mem).1 a = s.mem a := by
      intro a ha
      exact Access.exec_apply_of_keeps (List.all_eq_true.mp hf a ha) s.mem
    exact ⟨hother es s t acc _ _ hI fun a ha => hall a (List.mem_cons_of_mem _ ha),
      hC.other (hall ctr List.mem_cons_self) t acc _⟩

end Invariant

section Steps

variable [DecidableEq T] [DecidableEq V] {lock : LockCode A V K} {ctr : A}
  {s : ClientState T A V K}

/-- What a step of clients can do to the threads and to the words of the lock. -/
inductive Moves (lock : LockCode A V K) (s : ClientState T A V K) :
    ThreadAction T Unit A V → ClientState T A V K → Prop
  | stay {act : ThreadAction T Unit A V} (h : ∀ t, act = .access t → s.locals t = .idle) :
    Moves lock s act s
  | call {t : T} (h : s.locals t = .idle) :
    Moves lock s (.command t ()) (s.setLocal t (.locking lock.start))
  | lock {t : T} {k : K} (h : s.locals t = .locking k) :
    Moves lock s (.access t) ((s.setMem ((lock.next k).exec s.mem).1).setLocal t
      (afterLock (lock.resume k ((lock.next k).exec s.mem).2)))
  | count {t : T} {m : A → V} {l : ClientLocal K V} (h : (s.locals t).inside = true)
    (hl : l.inside = true) (hdone : l.done = (s.locals t).done + 1)
    (hm : ∀ a ∈ lock.words, m a = s.mem a) : Moves lock s (.access t) ((s.setMem m).setLocal t l)
  | unlock {t : T} (h : s.locals t = .leaving) :
    Moves lock s (.access t) ((s.setMem (lock.unlock.exec s.mem).1).setLocal t .idle)
  | other {t : T} {acc : Access A V} {m : A → V} (hm : ∀ a ∈ lock.words, m a = s.mem a) :
    Moves lock s (.other t acc) (s.setMem m)

omit [One V] in
/-- Only its own accesses move a thread that is not idle. -/
theorem Moves.locals_eq {act : ThreadAction T Unit A V} {s' : ClientState T A V K} {t : T}
    (h : Moves lock s act s') (hact : act ≠ .access t) (ht : s.locals t ≠ .idle) :
    s'.locals t = s.locals t := by
  have hne : ∀ u, .access u = act → t ≠ u := by
    rintro u rfl rfl
    exact hact rfl
  cases h with
  | stay _ => rfl
  | call hu =>
    refine ThreadState.setLocal_of_ne _ ?_ _
    rintro rfl
    exact ht hu
  | other _ => rfl
  | lock _ => exact ThreadState.setLocal_of_ne _ (hne _ rfl) _
  | count _ _ _ _ => exact ThreadState.setLocal_of_ne _ (hne _ rfl) _
  | unlock _ => exact ThreadState.setLocal_of_ne _ (hne _ rfl) _

omit [One V] in
/-- The only way out of `lock` is its return. -/
theorem Moves.entered {act : ThreadAction T Unit A V} {s' : ClientState T A V K} {t : T} {k : K}
    (h : Moves lock s act s') (ht : s.locals t = .locking k)
    (hout : ∀ k', s'.locals t ≠ .locking k') : s'.locals t = .entered := by
  have hact : act = .access t := by
    by_contra hact
    exact hout k ((h.locals_eq hact (by simp [ht])).trans ht)
  subst hact
  cases h with
  | stay hidle =>
    rw [hidle t rfl] at ht
    cases ht
  | @lock _ k' hk =>
    rw [ThreadState.setLocal_self] at hout ⊢
    cases hr : lock.resume k' ((lock.next k').exec s.mem).2 with
    | none => rfl
    | some j =>
      rw [hr] at hout
      exact absurd rfl (hout j)
  | count hin _ _ _ =>
    rw [ht] at hin
    cases hin
  | unlock hu =>
    rw [ht] at hu
    cases hu

theorem moves_step (hctr : ctr ∉ lock.words) (act : ThreadAction T Unit A V) :
    Moves lock s act (((lock.client ctr).machine .flat).step s act).1 := by
  show Moves lock s act ((lock.client ctr).step .flat s act).1
  unfold ThreadCode.step
  cases act with
  | command t c =>
    cases hl : s.locals t with
    | idle =>
      simp only [client, hl]
      exact .call hl
    | _ =>
      simp only [client, hl]
      exact .stay fun u hu => by cases hu
  | access t =>
    cases hl : s.locals t with
    | idle =>
      simp only [client, hl]
      exact .stay fun u hu => by cases hu; exact hl
    | locking k =>
      simp only [client, hl]
      exact .lock hl
    | entered =>
      simp only [client, hl]
      refine .count (by rw [hl]; rfl) rfl (by rw [hl]; rfl) fun a _ => ?_
      exact congrFun (congrArg Prod.fst (Access.exec_read s.mem ctr)) a
    | counting v =>
      simp only [client, hl]
      refine .count (by rw [hl]; rfl) rfl (by rw [hl]; rfl) fun a ha => ?_
      refine Function.update_of_ne ?_ _ _
      rintro rfl
      exact hctr ha
    | leaving =>
      simp only [client, hl]
      exact .unlock hl
  | other t acc =>
    dsimp only
    split
    · next hf =>
      refine .other fun a ha => ?_
      exact Access.exec_apply_of_keeps
        (List.all_eq_true.mp hf a (List.mem_cons_of_mem _ ha)) s.mem
    · exact .stay fun u hu => by cases hu

end Steps

end LockCode
