import MesiCoherence.Primitives.Barrier

/-!
# The episodes of a barrier

The decrements, returns and releases of the invariant are counted from the events of a
run, and an episode is a wait of the same number in every thread.

## Main result

- `barrier_separates_episodes` — nobody leaves an episode before all have arrived in it
-/

namespace MesiCoherence

namespace Barrier

variable {n : ℕ}

/-- The events of the threads of a barrier. -/
abbrev Event (n : ℕ) := ThreadEvent (Fin n) Unit Word Word BarrierLocal

/-- The thread that an event decrements for, with the count it saw. -/
def decrementOf : Event n → Option (Fin n × Word)
  | .accessed t (.arrive _) _ (.value prev) => some (t, prev)
  | _ => none

/-- The thread whose `wait` returns with an event. -/
def returnOf : Event n → Option (Fin n)
  | .accessed t (.release _) _ _ => some t
  | .accessed t (.spin sense) _ (.value v) => if v = sense then some t else none
  | _ => none

/-- The number of decrements a thread has made. -/
def decrements (es : List (Event n)) (t : Fin n) : ℕ :=
  es.countP fun e => (decrementOf e).map Prod.fst = some t

/-- The number of times a thread's `wait` has returned. -/
def returns (es : List (Event n)) (t : Fin n) : ℕ := es.countP fun e => returnOf e = some t

/-- The number of senses published. -/
def releases (es : List (Event n)) : ℕ :=
  es.countP fun
    | .accessed _ (.release _) _ _ => true
    | _ => false

/-- The thread that takes the last-arriver branch with an event: its decrement leaves it about
    to reset the count. -/
def branchOf (bar : Barrier n) : Event n → Option (Fin n)
  | .accessed t (.arrive sense) _ r =>
    match bar.code.resume (.arrive sense) r with
    | .reset _ => some t
    | _ => none
  | _ => none

/-- Thread `t` took the last-arriver branch in its wait number `k`, counted from 0. -/
def LastArriver (bar : Barrier n) (es : List (Event n)) (k : ℕ) (t : Fin n) : Prop :=
  ∃ pre e post, es = pre ++ e :: post ∧ bar.branchOf e = some t ∧ decrements pre t = k

variable {bar : Barrier n} {t : Fin n} {x : Word}
  {s : ThreadState (Fin n) (Word → Word) BarrierLocal} {m : Word → Word}

section Counts

variable {es : List (Event n)} {e : Event n}

theorem decrements_concat_none (h : decrementOf e = none) :
    decrements (es ++ [e]) = decrements es := by
  funext u
  simp [decrements, List.countP_append, h]

theorem decrements_concat_some {prev : Word} (h : decrementOf e = some (t, prev)) :
    decrements (es ++ [e]) = Function.update (decrements es) t (decrements es t + 1) := by
  funext u
  by_cases hu : u = t
  · subst hu
    simp [decrements, List.countP_append, h]
  · simp [decrements, List.countP_append, h, hu, Ne.symm hu]

theorem returns_concat_none (h : returnOf e = none) : returns (es ++ [e]) = returns es := by
  funext u
  simp [returns, List.countP_append, h]

theorem returns_concat_some (h : returnOf e = some t) :
    returns (es ++ [e]) = Function.update (returns es) t (returns es t + 1) := by
  funext u
  by_cases hu : u = t
  · subst hu
    simp [returns, List.countP_append, h]
  · simp [returns, List.countP_append, h, hu, Ne.symm hu]

theorem releases_concat (es : List (Event n)) (e : Event n) :
    releases (es ++ [e]) = releases es + releases [e] := List.countP_append

/-- Only a decrement takes the branch. -/
theorem branchOf_eq_none (h : decrementOf e = none) : bar.branchOf e = none := by
  cases e with
  | accessed u l acc r =>
    cases l with
    | arrive sense =>
      cases r with
      | value prev => cases h
      | _ => rfl
    | _ => rfl
  | _ => rfl

/-- It does so if it saw a count of 1. -/
theorem branchOf_arrive {u : Fin n} (sense prev : Word) (acc : Access Word Word) :
    bar.branchOf (.accessed t (.arrive sense) acc (.value prev)) = some u ↔ u = t ∧ prev = 1 := by
  by_cases hone : prev = 1
  · simp only [branchOf, code, if_pos hone, Option.some.injEq]
    exact ⟨fun htu => ⟨htu.symm, hone⟩, fun h => h.1.symm⟩
  · simp only [branchOf, code, if_neg hone, reduceCtorEq, false_iff]
    exact fun h => hone h.2

theorem lastArriver_concat {k : ℕ} {u : Fin n} :
    bar.LastArriver (es ++ [e]) k u ↔
      bar.LastArriver es k u ∨ bar.branchOf e = some u ∧ decrements es u = k := by
  constructor
  · rintro ⟨pre, f, post, hsplit, hf, hk⟩
    rcases concat_eq_append_cons.mp hsplit with ⟨rfl, rfl, -⟩ | ⟨post', -, hes⟩
    · exact Or.inr ⟨hf, hk⟩
    · exact Or.inl ⟨pre, f, post', hes, hf, hk⟩
  · rintro (⟨pre, f, post, rfl, hf, hk⟩ | ⟨hf, hk⟩)
    · exact ⟨pre, f, post ++ [e], by simp, hf, hk⟩
    · exact ⟨es, e, [], rfl, hf, hk⟩

end Counts

/-- What an event says about those before it: all threads have made the decrement of the
    wait that returns, and a decrement sees a count between 1 and `n`. -/
def EventOk (pre : List (Event n)) (e : Event n) : Prop :=
  (∀ t, returnOf e = some t → ∀ u, returns pre t < decrements pre u) ∧
    ∀ t prev, decrementOf e = some (t, prev) → 1 ≤ prev.toNat ∧ prev.toNat ≤ n

/-- What holds along every run of the threads of a barrier. -/
structure RunInv (bar : Barrier n) (es : List (Event n))
    (s : ThreadState (Fin n) (Word → Word) BarrierLocal) : Prop where
  inv : bar.Inv (releases es) (decrements es) (returns es) s
  events : EachAfter EventOk es
  sound : ∀ k t, bar.LastArriver es k t → ∀ u, k < decrements es u
  unique : ∀ k t u, bar.LastArriver es k t → bar.LastArriver es k u → t = u
  complete : ∀ k, (∀ u, k < decrements es u) → ∃ t, bar.LastArriver es k t

variable {es : List (Event n)} {e : Event n}

/-- Events that decrement nothing name no last arriver. -/
theorem RunInv.quiet {s' : ThreadState (Fin n) (Word → Word) BarrierLocal}
    (h : bar.RunInv es s) (hdec : decrementOf e = none)
    (hret : ∀ t, returnOf e = some t → ∀ u, returns es t < decrements es u)
    (hinv : bar.Inv (releases (es ++ [e])) (decrements es) (returns (es ++ [e])) s') :
    bar.RunInv (es ++ [e]) s' := by
  have hd : decrements (es ++ [e]) = decrements es := decrements_concat_none hdec
  have hlast : ∀ k u, bar.LastArriver (es ++ [e]) k u ↔ bar.LastArriver es k u := by
    intro k u
    simp [lastArriver_concat, branchOf_eq_none hdec]
  refine ⟨by rwa [hd], h.events.concat ⟨hret, by simp [hdec]⟩, ?_, ?_, ?_⟩
  · simpa only [hlast, hd] using h.sound
  · simpa only [hlast] using h.unique
  · simpa only [hlast, hd] using h.complete

/-- Events that are neither decrements nor returns nor releases. -/
theorem RunInv.silent {s' : ThreadState (Fin n) (Word → Word) BarrierLocal}
    (h : bar.RunInv es s) (hdec : decrementOf e = none) (hret : returnOf e = none)
    (hrel : releases [e] = 0) (hinv : bar.Inv (releases es) (decrements es) (returns es) s') :
    bar.RunInv (es ++ [e]) s' := by
  refine h.quiet hdec (by simp [hret]) ?_
  rw [releases_concat, hrel, returns_concat_none hret]
  exact hinv

/-- An arriving thread is the last arriver of the current episode when all have arrived. -/
theorem RunInv.lastArriver_arrive (h : bar.RunInv es s) (hd : decrements es t = releases es)
    {k : ℕ} {u : Fin n} (acc : Access Word Word) :
    bar.LastArriver (es ++ [.accessed t (.arrive x) acc (.value (s.mem bar.countAddr))]) k u ↔
      bar.LastArriver es k u ∨ u = t ∧ k = releases es ∧
        ∀ v, Function.update (decrements es) t (releases es + 1) v = releases es + 1 := by
  rw [lastArriver_concat, branchOf_arrive, ← h.inv.last_iff hd, ← hd]
  constructor
  · rintro (hold | ⟨⟨rfl, hone⟩, rfl⟩)
    · exact Or.inl hold
    · exact Or.inr ⟨rfl, rfl, hone⟩
  · rintro (hold | ⟨rfl, rfl, hone⟩)
    · exact Or.inl hold
    · exact Or.inr ⟨⟨rfl, hone⟩, rfl⟩

/-- A last arriver is one of an earlier episode. -/
theorem RunInv.lastArriver_lt (h : bar.RunInv es s) (hd : decrements es t = releases es) {k : ℕ}
    {u : Fin n} (hu : bar.LastArriver es k u) : k < releases es := by
  have hlt := h.sound k u hu t
  omega

/-- When the episode of an arrival is complete with it, it is the last one. -/
theorem RunInv.complete_arrive (h : bar.RunInv es s) (hd : decrements es t = releases es) {k : ℕ}
    (hall : ∀ u, k < Function.update (decrements es) t (releases es + 1) u)
    (acc : Access Word Word) : ∃ u, bar.LastArriver
      (es ++ [.accessed t (.arrive x) acc (.value (s.mem bar.countAddr))]) k u := by
  by_cases hk : k < releases es
  · obtain ⟨u, hu⟩ := h.complete k fun v => by
      rcases h.inv.range v with hv | hv <;> omega
    exact ⟨u, (h.lastArriver_arrive hd acc).mpr (Or.inl hu)⟩
  · have hkt := hall t
    rw [Function.update_self] at hkt
    refine ⟨t, (h.lastArriver_arrive hd acc).mpr (Or.inr ⟨rfl, by omega, fun v => ?_⟩)⟩
    have hv := hall v
    by_cases hvt : v = t
    · subst hvt
      rw [Function.update_self]
    · rw [Function.update_of_ne hvt] at hv ⊢
      rcases h.inv.range v with hr | hr <;> omega

/-- An arrival: the thread that sees 1 is the last arriver of its episode. -/
theorem RunInv.arrive (h : bar.RunInv es s) (hne : bar.countAddr ≠ bar.senseAddr)
    (ht : s.locals t = .arrive x) (acc : Access Word Word) :
    bar.RunInv (es ++ [.accessed t (.arrive x) acc (.value (s.mem bar.countAddr))])
      ((s.setMem (Function.update s.mem bar.countAddr (s.mem bar.countAddr + -1))).setLocal t
        (if s.mem bar.countAddr = 1 then .reset x else .spin x)) := by
  have hd : decrements es t = releases es := by
    have hok := h.inv.thread t
    rw [ht] at hok
    exact hok.1
  have hdecs : decrements (es ++ [.accessed t (.arrive x) acc (.value (s.mem bar.countAddr))]) =
      Function.update (decrements es) t (releases es + 1) := by
    rw [← hd]
    exact decrements_concat_some rfl
  have hrets : returns (es ++ [.accessed t (.arrive x) acc (.value (s.mem bar.countAddr))]) =
      returns es := returns_concat_none rfl
  have hlast := fun k u => h.lastArriver_arrive hd (x := x) (k := k) (u := u) acc
  refine ⟨?_, h.events.concat ⟨by simp [returnOf], ?_⟩, ?_, ?_, ?_⟩
  · rw [hdecs, hrets, releases_concat]
    exact h.inv.arrive hne ht
  · intro u prev hprev
    obtain ⟨rfl, rfl⟩ := Prod.mk.inj (Option.some.inj hprev)
    have hlt := arrived_lt hd
    rw [h.inv.count_toNat hd]
    omega
  · intro k u hu v
    rw [hdecs]
    rcases (hlast k u).mp hu with hu | ⟨-, rfl, hall⟩
    · have hk := h.lastArriver_lt hd hu
      by_cases hv : v = t
      · subst hv
        rw [Function.update_self]
        omega
      · rw [Function.update_of_ne hv]
        exact h.sound k u hu v
    · rw [hall v]
      omega
  · intro k u v hu hv
    rcases (hlast k u).mp hu with hu | ⟨rfl, rfl, -⟩
    · rcases (hlast k v).mp hv with hv | ⟨-, rfl, -⟩
      · exact h.unique k u v hu hv
      · exact absurd (h.lastArriver_lt hd hu) (lt_irrefl _)
    · rcases (hlast _ v).mp hv with hv | ⟨rfl, -, -⟩
      · exact absurd (h.lastArriver_lt hd hv) (lt_irrefl _)
      · rfl
  · intro k hall
    rw [hdecs] at hall
    exact h.complete_arrive hd hall acc

/-- The last arriver returns when all have arrived. -/
theorem RunInv.release (h : bar.RunInv es s) (hne : bar.countAddr ≠ bar.senseAddr)
    (ht : s.locals t = .release x) (acc : Access Word Word) :
    bar.RunInv (es ++ [.accessed t (.release x) acc .done])
      ((s.setMem (Function.update s.mem bar.senseAddr x)).setLocal t (.idle x)) := by
  have hok := h.inv.thread t
  rw [ht] at hok
  obtain ⟨hall, hr, -, -⟩ := hok
  refine h.quiet rfl ?_ ?_
  · intro u hu v
    obtain rfl : t = u := Option.some.inj hu
    rw [hr, hall v]
    omega
  · rw [releases_concat, returns_concat_some (t := t) rfl, hr]
    exact h.inv.release hne ht

/-- A spinning thread returns when its episode has been released. -/
theorem RunInv.spin (h : bar.RunInv es s) (ht : s.locals t = .spin x) (acc : Access Word Word) :
    bar.RunInv (es ++ [.accessed t (.spin x) acc (.value (s.mem bar.senseAddr))])
      ((s.setMem s.mem).setLocal t (if s.mem bar.senseAddr = x then .idle x else .spin x)) := by
  have hspin := h.inv.spin ht
  have hok := h.inv.thread t
  rw [ht] at hok
  by_cases hx : s.mem bar.senseAddr = x
  · have hd := (h.inv.spin_iff ht).mp hx
    have hret : returnOf (.accessed t (.spin x) acc (.value (s.mem bar.senseAddr))) = some t :=
      if_pos hx
    rw [if_pos hx] at hspin
    refine h.quiet rfl ?_ ?_
    · intro u hu v
      obtain rfl : t = u := Option.some.inj (hret.symm.trans hu)
      have hr := hok.1
      rcases h.inv.range v with hv | hv <;> omega
    · rw [releases_concat, returns_concat_some hret]
      exact hspin
  · have hret : returnOf (.accessed t (.spin x) acc (.value (s.mem bar.senseAddr))) = none :=
      if_neg hx
    rw [if_neg hx, Function.update_eq_self] at hspin
    exact h.silent rfl hret rfl hspin

/-- The invariant along every run over a flat memory. -/
theorem runInv (hne : bar.countAddr ≠ bar.senseAddr) {m : Word → Word}
    (hcount : m bar.countAddr = BitVec.ofNat 32 n) (hsense : m bar.senseAddr = 0)
    (acts : List (ThreadAction (Fin n) Unit Word Word)) :
    bar.RunInv (bar.code.trace .flat (.start m (.idle 0)) acts)
      (bar.code.run .flat (.start m (.idle 0)) acts) := by
  refine bar.code.trace_invariant (P := bar.RunInv) ?_ ?_ ?_ ?_ acts
  · refine ⟨⟨hsense, fun _ => Or.inl rfl, fun _ => ⟨rfl, rfl, rfl⟩, ?_, ?_⟩, EachAfter.nil,
      ?_, ?_, ?_⟩
    · intro _
      have hnone : arrived (n := n) 0 (fun _ => 0) = 0 := by simp [arrived]
      show m bar.countAddr = BitVec.ofNat 32 (n - arrived 0 fun _ => 0)
      rw [hnone, hcount]
      rfl
    · intro t u ht
      cases ht
    · rintro k t ⟨pre, e, post, hnil, -⟩
      simp at hnil
    · rintro k t u ⟨pre, e, post, hnil, -⟩
      simp at hnil
    · intro k hall
      exact absurd (hall ⟨0, bar.pos⟩) (Nat.not_lt_zero k)
  · rintro es s t ⟨⟩ l h hcmd
    cases hl : s.locals t with
    | idle x =>
      simp only [code, hl, Option.some.injEq] at hcmd
      subst hcmd
      exact h.silent rfl rfl rfl (h.inv.call hl)
    | _ => simp [code, hl] at hcmd
  · intro es s t acc h hnext
    cases hl : s.locals t with
    | idle x => simp [code, hl] at hnext
    | arrive x =>
      simp only [code, hl, Option.some.injEq] at hnext
      subst hnext
      exact h.arrive hne hl _
    | reset x =>
      simp only [code, hl, Option.some.injEq] at hnext
      subst hnext
      exact h.silent rfl rfl rfl (h.inv.reset hne hl)
    | release x =>
      simp only [code, hl, Option.some.injEq] at hnext
      subst hnext
      exact h.release hne hl _
    | spin x =>
      simp only [code, hl, Option.some.injEq] at hnext
      subst hnext
      rw [Access.exec_read]
      exact h.spin hl _
  · intro es s t acc h hf
    have hkeep : ∀ a ∈ [bar.countAddr, bar.senseAddr], (acc.exec s.mem).1 a = s.mem a := fun a ha =>
      Access.exec_apply_of_keeps (List.all_eq_true.mp hf a ha) s.mem
    exact h.silent rfl rfl rfl (h.inv.other (hkeep _ (by simp)) (hkeep _ (by simp)))

/-- **The barrier separates episodes.** `n` threads on any cores of the system call `wait`
    any number of times on an initialised barrier, in any interleaving with each other
    and with other code that does not write its words. When a `wait` returns, every thread
    has made the decrement of its wait of the same number; every decrement sees a count
    between 1 and `n`; and an episode in which all have arrived has exactly one last
    arriver. -/
theorem barrier_separates_episodes {c : ℕ} (core : Fin n → Fin c)
    (visits : ℕ → (i : Fin c) → VisitOrder i) (bar : Barrier n) (m : DutState c)
    (hcount : m.flat bar.countAddr = BitVec.ofNat 32 n) (hsense : m.flat bar.senseAddr = 0)
    (acts : List (ThreadAction (Fin n) Unit Word Word)) :
    let es := bar.code.trace (dut core visits) (.start m (.idle 0)) acts
    (∀ pre e post t, es = pre ++ e :: post → returnOf e = some t →
        ∀ u, returns pre t < decrements pre u) ∧
      (∀ pre e post t prev, es = pre ++ e :: post → decrementOf e = some (t, prev) →
        1 ≤ prev.toNat ∧ prev.toNat ≤ n) ∧
      ∀ k, (∀ t, k < decrements es t) ↔ ∃! t, bar.LastArriver es k t := by
  intro es
  have hne : bar.countAddr ≠ bar.senseAddr := by
    intro he
    rw [he, hsense] at hcount
    have hnat := congrArg BitVec.toNat hcount
    have hpos := bar.pos
    have hbound := bar.bound
    have h0 : (0 : Word).toNat = 0 := rfl
    rw [h0, BitVec.toNat_ofNat] at hnat
    omega
  have h := bar.runInv hne hcount hsense acts
  simp only [es, dut_trace]
  refine ⟨fun pre e post t he => (h.events pre e post he).1 t,
    fun pre e post t prev he => (h.events pre e post he).2 t prev, fun k => ⟨?_, ?_⟩⟩
  · intro hall
    obtain ⟨t, ht⟩ := h.complete k hall
    exact ⟨t, ht, fun u hu => h.unique k u t hu ht⟩
  · rintro ⟨t, ht, -⟩
    exact h.sound k t ht

/-- Thread `t` arrives first and spins, `u` arrives last and releases it. -/
def meeting {T : Type*} (t u : T) : List (ThreadAction T Unit Word Word) :=
  [.command t (), .command u (), .access t, .access t, .access u, .access u, .access u, .access t]

theorem meeting_separates :
    let bar : Barrier 2 := ⟨0x700, 0x704, by decide, by decide⟩
    let memory := dut (fun t : Fin 2 => t) fun _ c => .byIndex c
    let es := bar.code.trace memory (.start (bar.init memory 0 (.new 2)) (.idle 0)) (meeting 0 1)
    (∃! t, bar.LastArriver es 0 t) ∧ returns es = fun _ => 1 := by
  intro bar memory es
  obtain ⟨-, -, hlast⟩ := barrier_separates_episodes (fun t : Fin 2 => t)
    (fun _ c => .byIndex c) bar (bar.init memory 0 (.new 2)) rfl rfl (meeting 0 1)
  refine ⟨(hlast 0).mp ?_, ?_⟩
  · decide +kernel
  · decide +kernel

end Barrier

end MesiCoherence
