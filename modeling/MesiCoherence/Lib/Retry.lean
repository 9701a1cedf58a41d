import MesiCoherence.Lib.Threads

/-!
# Retry loops

A thread reads a word, works on, and starts again if the word has changed in the meantime.
Such a loop is lock-free: every round in vain is paid for by a write of somebody else, and
no two rounds of one thread by the same write. A thread that makes many accesses therefore
finishes many calls, or others write many times.

## Main definitions

- `RetryLoop` — the program points that rely on a word, and what starts again
- `retriesOf`, `writesByOthers` — the rounds in vain, and the writes that pay for them

## Main results

- `RetryLoop.retries_le` — a thread starts again at most once per write of others
- `RetryLoop.accesses_le` — its accesses are bounded by its calls and the writes of others
-/

variable {T A V C L : Type*}

/-- Did the access write one of the words, by its reply? -/
def Access.wrote (words : A → Bool) : Access A V → Reply V → Bool
  | .write b _, _ => words b
  | .fetchAndAdd b _, _ => words b
  | .cas b _ _, .swap _ true => words b
  | _, _ => false

section Events

variable [DecidableEq T]

/-- Thread `t` starts again. -/
def ThreadEvent.isRetry (retry : L → Reply V → Bool) (t : T) : ThreadEvent T C A V L → Bool
  | .accessed u l _ r => u = t && retry l r
  | _ => false

/-- Somebody else than thread `t` writes one of the words. -/
def ThreadEvent.pays (words : A → Bool) (t : T) : ThreadEvent T C A V L → Bool
  | .accessed u _ acc r => u ≠ t && acc.wrote words r
  | .other _ acc r => acc.wrote words r
  | _ => false

/-- How often thread `t` started again. -/
def retriesOf (retry : L → Reply V → Bool) (t : T) (es : List (ThreadEvent T C A V L)) : ℕ :=
  es.countP (ThreadEvent.isRetry retry t)

/-- How often others wrote one of the words. -/
def writesByOthers (words : A → Bool) (t : T) (es : List (ThreadEvent T C A V L)) : ℕ :=
  es.countP (ThreadEvent.pays words t)

/-- How often thread `t` was commanded. -/
def commandsOf (t : T) (es : List (ThreadEvent T C A V L)) : ℕ :=
  es.countP fun
    | .commanded u _ => u = t
    | _ => false

/-- The accesses that thread `t` made. -/
def accessesOf (t : T) (es : List (ThreadEvent T C A V L)) : ℕ :=
  es.countP fun
    | .accessed u _ _ _ => u = t
    | _ => false

end Events

variable [DecidableEq A] [DecidableEq V] [Add V]

/-- An access that writes none of the words leaves them. -/
theorem Access.exec_apply_of_not_wrote {words : A → Bool} {acc : Access A V} {m : A → V}
    (h : acc.wrote words (acc.exec m).2 = false) {a : A} (ha : words a = true) :
    (acc.exec m).1 a = m a := by
  have hne : ∀ b, words b = false → a ≠ b := by
    rintro b hb rfl
    rw [ha] at hb
    cases hb
  cases acc with
  | read b => rw [exec_read]
  | write b v => exact Function.update_of_ne (hne b h) _ _
  | cas b e v =>
    by_cases he : m b = e
    · rw [exec_cas_of_eq he] at h ⊢
      exact Function.update_of_ne (hne b h) _ _
    · rw [exec_cas_of_ne he]
  | fetchAndAdd b d => exact Function.update_of_ne (hne b h) _ _

omit [DecidableEq V] [Add V] in
theorem Access.wrote_of_keeps {a : A} {acc : Access A V} (h : acc.keeps a = true) (r : Reply V) :
    acc.wrote (fun b => b = a) r = false := by
  cases acc with
  | read b => rfl
  | write b v => exact decide_eq_false (of_decide_eq_true h)
  | cas b e v =>
    cases r with
    | value old => rfl
    | swap old success =>
      cases success
      · rfl
      · exact decide_eq_false (of_decide_eq_true h)
    | _ => rfl
  | fetchAndAdd b d => exact decide_eq_false (of_decide_eq_true h)

/-- A loop that starts again when a word it relies on has changed. -/
structure RetryLoop (code : ThreadCode T A V C L) where
  /-- the words that the loop may rely on -/
  words : A → Bool
  /-- the word that a program point relies on, and the value it takes it to have -/
  watch : L → Option (A × V)
  /-- the accesses, by their replies, that start again -/
  retry : L → Reply V → Bool
  /-- the accesses to come until the call ends or starts again, at most `bound` -/
  cost : L → ℕ
  bound : ℕ
  /-- the program points that occur -/
  valid : L → Prop
  command : ∀ locals t c l, code.command locals t c = some l →
    valid l ∧ watch l = none ∧ cost l ≤ bound
  resume : ∀ l acc m, valid l → code.next l = some acc →
    valid (code.resume l (acc.exec m).2) ∧
      cost (code.resume l (acc.exec m).2) + 1 ≤
        cost l + if retry l (acc.exec m).2 = true then bound else 0
  /-- only if the word has changed, and what was read before is forgotten -/
  retried : ∀ l acc m, valid l → code.next l = some acc → retry l (acc.exec m).2 = true →
    (∃ a v, watch l = some (a, v) ∧ m a ≠ v) ∧ watch (code.resume l (acc.exec m).2) = none
  /-- the word had the value when the thread began to rely on it -/
  relied : ∀ l acc m a v, valid l → code.next l = some acc →
    watch (code.resume l (acc.exec m).2) = some (a, v) → words a = true ∧
      ((acc.exec m).1 a = v ∨ watch l = some (a, v) ∧ (acc.exec m).1 a = m a)

namespace RetryLoop

variable {code : ThreadCode T A V C L} (loop : RetryLoop code)

/-- All threads are at program points that occur, and rely on words of the loop. -/
structure Sound (s : ThreadState T (A → V) L) : Prop where
  valid : ∀ t, loop.valid (s.locals t)
  watched : ∀ t a v, loop.watch (s.locals t) = some (a, v) → loop.words a = true

/-- The thread relies on a value that the word no longer has. -/
def Stale (s : ThreadState T (A → V) L) (t : T) : Prop :=
  ∃ a v, loop.watch (s.locals t) = some (a, v) ∧ s.mem a ≠ v

variable {loop} {s : ThreadState T (A → V) L} {t u : T} {l : L}

theorem not_stale_of_none (h : loop.watch (s.locals t) = none) : ¬ loop.Stale s t := by
  rintro ⟨a, v, hv, -⟩
  rw [h] at hv
  cases hv

variable [DecidableEq T]

theorem Sound.setLocal (h : loop.Sound s) (hl : loop.valid l)
    (hw : ∀ a v, loop.watch l = some (a, v) → loop.words a = true) :
    loop.Sound (s.setLocal u l) :=
  ⟨ThreadState.forall_setLocal (P := fun _ l => loop.valid l) hl fun t _ => h.valid t,
    ThreadState.forall_setLocal
      (P := fun _ l => ∀ a v, loop.watch l = some (a, v) → loop.words a = true) hw
      fun t _ => h.watched t⟩

/-- A thread that does not move becomes stale only by a write of one of the words. -/
theorem Sound.stale_of_write (h : loop.Sound s) (acc : Access A V) (htu : t ≠ u)
    (hnow : loop.Stale ((s.setMem (acc.exec s.mem).1).setLocal u l) t) :
    loop.Stale s t ∨ acc.wrote loop.words (acc.exec s.mem).2 = true := by
  obtain ⟨a, v, hv, hm⟩ := hnow
  rw [ThreadState.setLocal_of_ne _ htu] at hv
  by_cases hwrote : acc.wrote loop.words (acc.exec s.mem).2 = true
  · exact Or.inr hwrote
  · have hmem := Access.exec_apply_of_not_wrote (eq_false_of_ne_true hwrote) (h.watched t a v hv)
    exact Or.inl ⟨a, v, hv, fun hs => hm (hmem.trans hs)⟩

variable (loop) in
/-- Every round in vain has been paid for, and so has the next one of a stale thread; every
    access belongs to a call or to a round in vain. -/
structure Paid (t : T) (es : List (ThreadEvent T C A V L)) (s : ThreadState T (A → V) L) :
    Prop where
  sound : loop.Sound s
  rounds : retriesOf loop.retry t es ≤ writesByOthers loop.words t es
  next : loop.Stale s t → retriesOf loop.retry t es < writesByOthers loop.words t es
  accesses : accessesOf t es + loop.cost (s.locals t) ≤
    loop.bound * (commandsOf t es + retriesOf loop.retry t es)

variable {es : List (ThreadEvent T C A V L)}

/-- A step keeps the account if only a stale thread starts again, afresh, a thread becomes
    stale only by a write of others, and the accesses stay within their bound. -/
theorem Paid.step {e : ThreadEvent T C A V L} {s' : ThreadState T (A → V) L}
    (h : loop.Paid t es s) (hsound : loop.Sound s')
    (hretry : e.isRetry loop.retry t = true → loop.Stale s t ∧ ¬ loop.Stale s' t)
    (hstale : loop.Stale s' t → loop.Stale s t ∨ e.pays loop.words t = true)
    (hcost : accessesOf t [e] + loop.cost (s'.locals t) ≤ loop.cost (s.locals t) +
      loop.bound * (commandsOf t [e] + retriesOf loop.retry t [e])) :
    loop.Paid t (es ++ [e]) s' := by
  have hrounds := h.rounds
  have haccesses := h.accesses
  have hretries : retriesOf loop.retry t (es ++ [e]) =
      retriesOf loop.retry t es + if e.isRetry loop.retry t = true then 1 else 0 := by
    rw [retriesOf, List.countP_append, List.countP_singleton]
    rfl
  have hwrites : writesByOthers loop.words t (es ++ [e]) =
      writesByOthers loop.words t es + if e.pays loop.words t = true then 1 else 0 := by
    rw [writesByOthers, List.countP_append, List.countP_singleton]
    rfl
  have hwithin : accessesOf t (es ++ [e]) + loop.cost (s'.locals t) ≤
      loop.bound * (commandsOf t (es ++ [e]) + retriesOf loop.retry t (es ++ [e])) := by
    simp only [accessesOf, commandsOf, retriesOf, List.countP_append, Nat.mul_add] at *
    omega
  by_cases hr : e.isRetry loop.retry t = true
  · obtain ⟨hwas, hfresh⟩ := hretry hr
    have hpaid := h.next hwas
    rw [if_pos hr] at hretries
    exact ⟨hsound, by omega, fun hnow => absurd hnow hfresh, hwithin⟩
  · rw [if_neg hr] at hretries
    refine ⟨hsound, by omega, fun hnow => ?_, hwithin⟩
    rcases hstale hnow with hwas | hpays
    · have hpaid := h.next hwas
      omega
    · rw [if_pos hpays] at hwrites
      omega

/-- A command starts afresh. -/
theorem Paid.command (h : loop.Paid t es s) {c : C} (hcmd : code.command s.locals u c = some l) :
    loop.Paid t (es ++ [.commanded u c]) (s.setLocal u l) := by
  obtain ⟨hvalid, hnone, hbound⟩ := loop.command _ _ _ _ hcmd
  have hsound : loop.Sound (s.setLocal u l) := by
    apply h.sound.setLocal hvalid
    intro a v hv
    rw [hnone] at hv
    cases hv
  refine h.step hsound (fun hr => by cases hr) ?_ ?_
  · intro hnow
    by_cases htu : t = u
    · subst htu
      exact absurd hnow (not_stale_of_none (by rw [ThreadState.setLocal_self, hnone]))
    · obtain ⟨a, v, hv, hm⟩ := hnow
      rw [ThreadState.setLocal_of_ne _ htu] at hv
      exact Or.inl ⟨a, v, hv, hm⟩
  · by_cases htu : t = u
    · subst htu
      simp [accessesOf, commandsOf, retriesOf, ThreadEvent.isRetry]
      omega
    · simp [accessesOf, commandsOf, retriesOf, ThreadEvent.isRetry, htu, Ne.symm htu]

/-- An access of a thread. -/
theorem Paid.access (h : loop.Paid t es s) {acc : Access A V}
    (hnext : code.next (s.locals u) = some acc) :
    loop.Paid t (es ++ [.accessed u (s.locals u) acc (acc.exec s.mem).2])
      ((s.setMem (acc.exec s.mem).1).setLocal u
        (code.resume (s.locals u) (acc.exec s.mem).2)) := by
  obtain ⟨hvalid, hcost⟩ := loop.resume _ _ s.mem (h.sound.valid u) hnext
  have hrelied := fun a v => loop.relied _ _ s.mem a v (h.sound.valid u) hnext
  have hsound : loop.Sound ((s.setMem (acc.exec s.mem).1).setLocal u
      (code.resume (s.locals u) (acc.exec s.mem).2)) :=
    Sound.setLocal ⟨h.sound.valid, h.sound.watched⟩ hvalid fun a v hv => (hrelied a v hv).1
  refine h.step hsound ?_ ?_ ?_
  · intro hr
    obtain ⟨hut, hagain⟩ := Bool.and_eq_true_iff.mp hr
    obtain rfl := of_decide_eq_true hut
    obtain ⟨hwas, hforgot⟩ := loop.retried _ _ _ (h.sound.valid u) hnext hagain
    exact ⟨hwas, not_stale_of_none (by rw [ThreadState.setLocal_self, hforgot])⟩
  · intro hnow
    by_cases htu : t = u
    · -- what it relies on it has just seen in the word, or relied on before
      subst htu
      obtain ⟨a, v, hv, hm⟩ := hnow
      rw [ThreadState.setLocal_self] at hv
      rcases (hrelied a v hv).2 with hfresh | ⟨hsame, hmem⟩
      · exact absurd hfresh hm
      · exact Or.inl ⟨a, v, hsame, fun hs => hm (hmem.trans hs)⟩
    · refine (h.sound.stale_of_write acc htu hnow).imp_right fun hwrote => ?_
      exact Bool.and_eq_true_iff.mpr ⟨decide_eq_true (Ne.symm htu), hwrote⟩
  · by_cases htu : t = u
    · subst htu
      rw [ThreadState.setLocal_self]
      by_cases hr : loop.retry (s.locals t) (acc.exec s.mem).2 = true
      · rw [if_pos hr] at hcost
        simp only [accessesOf, commandsOf, retriesOf, ThreadEvent.isRetry, hr,
          List.countP_singleton, decide_true, Bool.true_and, if_true, Nat.mul_one,
          Bool.false_eq_true, if_false, Nat.zero_add]
        omega
      · rw [if_neg hr] at hcost
        simp only [accessesOf, List.countP_singleton, decide_true, if_true]
        omega
    · simp [accessesOf, commandsOf, retriesOf, ThreadEvent.isRetry, htu, Ne.symm htu]

/-- An access of other code. -/
theorem Paid.other (h : loop.Paid t es s) (acc : Access A V) :
    loop.Paid t (es ++ [.other u acc (acc.exec s.mem).2]) (s.setMem (acc.exec s.mem).1) := by
  refine h.step ⟨h.sound.valid, h.sound.watched⟩ (fun hr => by cases hr) ?_ ?_
  · rintro ⟨a, v, hv, hm⟩
    by_cases hwrote : acc.wrote loop.words (acc.exec s.mem).2 = true
    · exact Or.inr hwrote
    · have hmem := Access.exec_apply_of_not_wrote (eq_false_of_ne_true hwrote)
        (h.sound.watched t a v hv)
      exact Or.inl ⟨a, v, hv, fun hs => hm (hmem.trans hs)⟩
  · simp [accessesOf, commandsOf, retriesOf, ThreadEvent.isRetry]

/-- The account along every run that starts outside the loop. -/
theorem paid_run (loop : RetryLoop code) {m : A → V} (hvalid : loop.valid l)
    (hwatch : loop.watch l = none) (hcost : loop.cost l = 0)
    (acts : List (ThreadAction T C A V)) (t : T) :
    loop.Paid t (code.trace .flat (.start m l) acts) (code.run .flat (.start m l) acts) := by
  have hsound : loop.Sound (ThreadState.start (T := T) m l) := by
    refine ⟨fun _ => hvalid, fun u a v hv => ?_⟩
    rw [show loop.watch ((ThreadState.start m l).locals u) = none from hwatch] at hv
    cases hv
  refine code.trace_invariant (P := loop.Paid t) ?_ ?_ ?_ ?_ acts
  · refine ⟨hsound, le_rfl, fun hstale => absurd hstale (not_stale_of_none hwatch), ?_⟩
    rw [show loop.cost ((ThreadState.start m l).locals t) = 0 from hcost]
    exact Nat.zero_le _
  · intro es s u c l h hcmd
    exact h.command hcmd
  · intro es s u acc h hnext
    exact h.access hnext
  · intro es s u acc h _
    exact h.other acc

section Runs

variable (loop : RetryLoop code) {m : A → V} (hvalid : loop.valid l)
  (hwatch : loop.watch l = none) (hcost : loop.cost l = 0)
  (acts : List (ThreadAction T C A V)) (t : T)

include hvalid hwatch hcost

/-- **Lock-freedom of retry loops**: a thread starts again at most once for each write of the
    words by others. -/
theorem retries_le :
    retriesOf loop.retry t (code.trace .flat (.start m l) acts) ≤
      writesByOthers loop.words t (code.trace .flat (.start m l) acts) :=
  (loop.paid_run hvalid hwatch hcost acts t).rounds

/-- A thread makes at most `bound` accesses for each of its calls, and for each write of the
    words by others. -/
theorem accesses_le :
    accessesOf t (code.trace .flat (.start m l) acts) ≤ loop.bound *
      (commandsOf t (code.trace .flat (.start m l) acts) +
        writesByOthers loop.words t (code.trace .flat (.start m l) acts)) := by
  have hpaid := loop.paid_run (m := m) hvalid hwatch hcost acts t
  refine le_trans (le_trans (Nat.le_add_right _ _) hpaid.accesses) ?_
  exact Nat.mul_le_mul_left _ (Nat.add_le_add_left hpaid.rounds _)

end Runs

end RetryLoop
