import MesiCoherence.Lib.Progress
import MesiCoherence.Primitives.SpinLock
import MesiCoherence.Primitives.TicketLock

/-!
# Waiting for a lock

The comment of `primitives/ticket_lock.hpp` promises FIFO order, "preventing the starvation
a TAS lock can suffer under contention". Both halves are made precise here: in a fair
schedule a ticket is served after a bounded number of rounds, whatever the other threads
go on calling; a test-and-set lock is always handed to somebody, but for every number of
fair rounds there is a schedule in which one thread never gets it.
-/

namespace MesiCoherence

namespace TicketLock

variable {T : Type*} [Fintype T]

/-- What `t` still waits for in `lock`: four accesses of each thread that is ahead of it, less
    those that the holder has made since it was admitted. -/
def delay (lk : TicketLock) (t : T) (s : ClientState T Word Word Point) : ℕ :=
  match s.locals t with
  | .locking .take => 4 * Fintype.card T
  | .locking (.wait my) =>
    4 * (my - s.mem lk.nowServingAddr).toNat + 1 - s.work ClientLocal.done
  | _ => 0

/-- The access of `u` brings `t` nearer to the lock. -/
def Helps (lk : TicketLock) (t : T) (s : ClientState T Word Word Point) (u : T) : Prop :=
  match s.locals t with
  | .locking .take => u = t
  | .locking (.wait _) => (s.locals u).inside = true ∨ (∀ v, (s.locals v).inside = false) ∧
      s.locals u = .locking (.wait (s.mem lk.nowServingAddr))
  | _ => False

/-- A step that does not bring the queue on. -/
structure Quiet (lk : TicketLock) (s s' : ClientState T Word Word Point) : Prop where
  served : s'.mem lk.nowServingAddr = s.mem lk.nowServingAddr
  queued : ∀ u, queued (s.locals u) = true → s'.locals u = s.locals u
  inside : ∀ u, (s'.locals u).inside = true → (s.locals u).inside = true

variable {lk : TicketLock} {q : List T} {es : List (ClientEvent T Word Word Point)}
  {s s' : ClientState T Word Word Point} {t u : T} {m : Word → Word} {my : Word}
  {l : ClientLocal Point Word} {act : ThreadAction T Unit Word Word}

theorem delay_take (ht : s.locals t = .locking .take) : lk.delay t s = 4 * Fintype.card T := by
  rw [delay, ht]

theorem delay_wait (ht : s.locals t = .locking (.wait my)) :
    lk.delay t s = 4 * (my - s.mem lk.nowServingAddr).toNat + 1 - s.work ClientLocal.done := by
  rw [delay, ht]

/-- Whoever has to wait is in `lock`. -/
theorem locking_of_delay (h : 0 < lk.delay t s) :
    s.locals t = .locking .take ∨ ∃ my, s.locals t = .locking (.wait my) := by
  cases hl : s.locals t with
  | locking k =>
    cases k with
    | take => exact Or.inl rfl
    | wait my => exact Or.inr ⟨my, rfl⟩
  | _ =>
    rw [delay, hl] at h
    cases h

theorem not_inside_of_waits (h : l = .locking (.wait my)) : l.inside = false := by
  rw [h]
  rfl

-- ════════════════════════════════════════════════════════════════════════
-- The place in the queue
-- ════════════════════════════════════════════════════════════════════════

/-- The ticket of a waiting thread is its place in the queue. -/
theorem QueueInv.position (h : lk.QueueInv q es s) (hcard : Fintype.card T < 2 ^ 32)
    (ht : s.locals t = .locking (.wait my)) :
    q[(my - s.mem lk.nowServingAddr).toNat]? = some t := by
  have htq : t ∈ q := (h.mem t).mpr (by rw [ht]; rfl)
  obtain ⟨i, hi, hget⟩ := List.getElem_of_mem htq
  have hsome : q[i]? = some t := List.getElem?_eq_some_iff.mpr ⟨hi, hget⟩
  have hlen := h.nodup.length_le_card
  rw [h.ticket i t my hsome ht, BitVec.add_comm, BitVec.add_sub_cancel, BitVec.toNat_ofNat,
    Nat.mod_eq_of_lt (by omega)]
  exact hsome

/-- A thread that waits while another is inside is not the head of the queue. -/
theorem QueueInv.behind (h : lk.QueueInv q es s) (hcard : Fintype.card T < 2 ^ 32)
    (ht : s.locals t = .locking (.wait my)) (hu : (s.locals u).inside = true) :
    0 < (my - s.mem lk.nowServingAddr).toNat := by
  refine Nat.pos_of_ne_zero fun hzero => ?_
  have hpos := h.position hcard ht
  have hhead := h.head u hu
  rw [hzero, ← List.head?_eq_getElem?, hhead] at hpos
  obtain rfl := Option.some.inj hpos
  rw [not_inside_of_waits ht] at hu
  cases hu

theorem QueueInv.delay_pos (h : lk.QueueInv q es s) (hcard : Fintype.card T < 2 ^ 32)
    (ht : s.locals t = .locking (.wait my)) : 0 < lk.delay t s := by
  rw [delay_wait ht]
  by_cases hin : ∃ u, (s.locals u).inside = true
  · obtain ⟨u, hu⟩ := hin
    have hbehind := h.behind hcard ht hu
    have hdone := h.exclusive.work_done_le
    omega
  · rw [work_done_of_none fun u => eq_false_of_ne_true fun hu => hin ⟨u, hu⟩]
    omega

/-- Whoever has nothing to wait for is not in `lock`. -/
theorem QueueInv.not_locking (h : lk.QueueInv q es s) (hcard : Fintype.card T < 2 ^ 32)
    (hzero : lk.delay t s = 0) (k : Point) : s.locals t ≠ .locking k := by
  intro hk
  cases k with
  | take =>
    rw [delay_take hk] at hzero
    have hpos : 0 < Fintype.card T := Fintype.card_pos_iff.mpr ⟨t⟩
    omega
  | wait my => exact absurd hzero (h.delay_pos hcard hk).ne'

theorem QueueInv.delay_le (h : lk.QueueInv q es s) (hcard : Fintype.card T < 2 ^ 32) :
    lk.delay t s ≤ 4 * Fintype.card T := by
  unfold delay
  split
  · exact le_rfl
  · next my ht =>
    have hpos := (List.getElem?_eq_some_iff.mp (h.position hcard ht)).1
    have hlen := h.nodup.length_le_card
    omega
  · exact Nat.zero_le _

/-- Somebody can bring `t` nearer: the thread inside, or the head of the queue. -/
theorem QueueInv.exists_helps (h : lk.QueueInv q es s) (hpos : 0 < lk.delay t s) :
    ∃ u, lk.Helps t s u := by
  rcases locking_of_delay hpos with ht | ⟨my, ht⟩
  · exact ⟨t, by rw [Helps, ht]⟩
  by_cases hin : ∃ u, (s.locals u).inside = true
  · obtain ⟨u, hu⟩ := hin
    refine ⟨u, ?_⟩
    rw [Helps, ht]
    exact Or.inl hu
  have hnone : ∀ u, (s.locals u).inside = false := fun u =>
    eq_false_of_ne_true fun hu => hin ⟨u, hu⟩
  have htq : t ∈ q := (h.mem t).mpr (by rw [ht]; rfl)
  cases q with
  | nil => cases htq
  | cons u rest =>
    have hqueued := (h.mem u).mp List.mem_cons_self
    refine ⟨u, ?_⟩
    rw [Helps, ht]
    refine Or.inr ⟨hnone, ?_⟩
    cases hl : s.locals u with
    | locking k =>
      cases k with
      | take =>
        rw [hl] at hqueued
        cases hqueued
      | wait your =>
        rw [h.ticket 0 u your rfl hl, BitVec.add_zero]
    | idle =>
      rw [hl] at hqueued
      cases hqueued
    | _ =>
      have hout := hnone u
      rw [hl] at hout
      cases hout

-- ════════════════════════════════════════════════════════════════════════
-- One step
-- ════════════════════════════════════════════════════════════════════════

omit [Fintype T] in
theorem Quiet.refl (lk : TicketLock) (s : ClientState T Word Word Point) : lk.Quiet s s :=
  ⟨rfl, fun _ _ => rfl, fun _ h => h⟩

theorem Quiet.delay_eq (h : lk.Quiet s s') (ht : s.locals t = .locking (.wait my)) :
    lk.delay t s' = lk.delay t s := by
  have ht' : s'.locals t = .locking (.wait my) := (h.queued t (by rw [ht]; rfl)).trans ht
  have hdone : s'.work ClientLocal.done = s.work ClientLocal.done := by
    refine Finset.sum_congr rfl fun u _ => ?_
    cases hu : (s.locals u).inside with
    | true => rw [h.queued u (queued_of_inside hu)]
    | false =>
      have hu' := eq_false_of_ne_true fun hu' => by
        have hold := h.inside u hu'
        rw [hu] at hold
        cases hold
      rw [ClientLocal.done_of_outside hu, ClientLocal.done_of_outside hu']
  rw [delay_wait ht, delay_wait ht', h.served, hdone]

omit [Fintype T] in
theorem Quiet.helps (h : lk.Quiet s s') (ht : s.locals t = .locking (.wait my))
    (hu : lk.Helps t s u) : lk.Helps t s' u := by
  have ht' : s'.locals t = .locking (.wait my) := (h.queued t (by rw [ht]; rfl)).trans ht
  rw [Helps, ht] at hu
  rw [Helps, ht']
  rcases hu with hin | ⟨hnone, hhead⟩
  · refine Or.inl ?_
    rw [h.queued u (queued_of_inside hin)]
    exact hin
  · refine Or.inr ⟨fun v => eq_false_of_ne_true fun hv => ?_, ?_⟩
    · have hold := h.inside v hv
      rw [hnone v] at hold
      cases hold
    · rw [h.queued u (by rw [hhead]; rfl), h.served]
      exact hhead

variable [DecidableEq T]

omit [Fintype T] in
theorem Quiet.setLocal (hq : TicketLock.queued (s.locals u) = false) (hl : l.inside = false)
    (hm : m lk.nowServingAddr = s.mem lk.nowServingAddr) :
    lk.Quiet s ((s.setMem m).setLocal u l) := by
  refine ⟨hm, fun v hv => ?_, fun v hv => ?_⟩
  · refine ThreadState.setLocal_of_ne _ ?_ l
    rintro rfl
    rw [hq] at hv
    cases hv
  · by_cases hvu : v = u
    · subst hvu
      rw [ThreadState.setLocal_self, hl] at hv
      cases hv
    · rwa [ThreadState.setLocal_of_ne _ hvu] at hv

/-- An access of the thread inside, or the admission of another one. -/
theorem QueueInv.delay_lt_of_done (h : lk.QueueInv q es s) (hcard : Fintype.card T < 2 ^ 32)
    (ht : s.locals t = .locking (.wait my)) (hut : t ≠ u)
    (hm : m lk.nowServingAddr = s.mem lk.nowServingAddr) (hl : l.done = (s.locals u).done + 1) :
    lk.delay t ((s.setMem m).setLocal u l) < lk.delay t s := by
  have hpos := h.delay_pos hcard ht
  have ht' : ((s.setMem m).setLocal u l).locals t = .locking (.wait my) := by
    rw [ThreadState.setLocal_of_ne _ hut]
    exact ht
  have hdone := ThreadState.work_setLocal ClientLocal.done (s.setMem m) u l
  have hmem : (s.setMem m).work ClientLocal.done = s.work ClientLocal.done := rfl
  rw [ThreadState.setMem_locals, hl, hmem] at hdone
  rw [delay_wait ht] at hpos
  rw [delay_wait ht, delay_wait ht', ThreadState.setLocal_mem, ThreadState.setMem_mem, hm]
  omega

/-- The holder unlocks, and everybody moves up. -/
theorem QueueInv.delay_lt_of_unlock (h : lk.QueueInv q es s) (hcard : Fintype.card T < 2 ^ 32)
    (ht : s.locals t = .locking (.wait my)) (hu : s.locals u = .leaving) :
    lk.delay t ((s.setMem (Function.update s.mem lk.nowServingAddr
      (s.mem lk.nowServingAddr + 1))).setLocal u .idle) < lk.delay t s := by
  have hin : (s.locals u).inside = true := by
    rw [hu]
    rfl
  have hut : t ≠ u := by
    rintro rfl
    rw [not_inside_of_waits ht] at hin
    cases hin
  have hbehind := h.behind hcard ht hin
  have hold := h.exclusive.work_done hin
  have hdone := ThreadState.work_setLocal ClientLocal.done
    (s.setMem (Function.update s.mem lk.nowServingAddr (s.mem lk.nowServingAddr + 1))) u .idle
  have hmem : (s.setMem (Function.update s.mem lk.nowServingAddr
    (s.mem lk.nowServingAddr + 1))).work ClientLocal.done = s.work ClientLocal.done := rfl
  rw [ThreadState.setMem_locals, hu, hmem] at hdone
  rw [hu] at hold
  have ht' : ((s.setMem (Function.update s.mem lk.nowServingAddr
      (s.mem lk.nowServingAddr + 1))).setLocal u .idle).locals t = .locking (.wait my) := by
    rw [ThreadState.setLocal_of_ne _ hut]
    exact ht
  have hnext : (my - (s.mem lk.nowServingAddr + 1)).toNat + 1 =
      (my - s.mem lk.nowServingAddr).toNat := by bv_omega
  have hleaving : (ClientLocal.leaving : ClientLocal Point Word).done = 3 := rfl
  have hidle : (ClientLocal.idle : ClientLocal Point Word).done = 0 := rfl
  rw [delay_wait ht, delay_wait ht', ThreadState.setLocal_mem, ThreadState.setMem_mem,
    Function.update_self]
  omega

/-- While `t` waits, every step brings it nearer or is quiet. -/
theorem QueueInv.moves (h : lk.QueueInv q es s) (hcard : Fintype.card T < 2 ^ 32)
    (ht : s.locals t = .locking (.wait my)) (hmove : lk.code.Moves s act s') :
    lk.delay t s' < lk.delay t s ∨ lk.Quiet s s' := by
  cases hmove with
  | stay _ => exact Or.inr (.refl lk s)
  | call hu => exact Or.inr (.setLocal (m := s.mem) (by rw [hu]; rfl) rfl rfl)
  | @lock u k hu =>
    cases k with
    | take =>
      refine Or.inr (.setLocal (by rw [hu]; rfl) rfl ?_)
      exact Function.update_of_ne lk.distinct.symm _ _
    | wait your =>
      have hexec : (lk.code.next (.wait your)).exec s.mem = _ :=
        Access.exec_read s.mem lk.nowServingAddr
      rw [hexec]
      by_cases hv : s.mem lk.nowServingAddr = your
      · have hresume : lk.code.resume (.wait your) (.value (s.mem lk.nowServingAddr)) = none :=
          if_pos hv
        rw [hresume]
        left
        by_cases hut : t = u
        · subst hut
          have hzero : lk.delay t ((s.setMem s.mem).setLocal t (LockCode.afterLock none)) = 0 := by
            rw [delay, ThreadState.setLocal_self]
            rfl
          rw [hzero]
          exact h.delay_pos hcard ht
        · exact h.delay_lt_of_done hcard ht hut rfl (by rw [hu]; rfl)
      · have hresume : lk.code.resume (.wait your) (.value (s.mem lk.nowServingAddr)) =
            some (.wait your) := if_neg hv
        have hsame : (s.setMem s.mem).setLocal u (LockCode.afterLock (some (.wait your))) = s := by
          have hlocal : (LockCode.afterLock (some (.wait your)) : ClientLocal Point Word) =
              s.locals u := hu.symm
          rw [hlocal]
          exact ThreadState.setLocal_eq_self s u
        rw [hresume, hsame]
        exact Or.inr (.refl lk s)
  | @count u m l hin _ hdone hm =>
    refine Or.inl (h.delay_lt_of_done hcard ht ?_ (hm _ (by simp [code])) hdone)
    rintro rfl
    rw [not_inside_of_waits ht] at hin
    cases hin
  | unlock hu => exact Or.inl (h.delay_lt_of_unlock hcard ht hu)
  | other hm => exact Or.inr ⟨hm _ (by simp [code]), fun _ _ => rfl, fun _ hv => hv⟩

omit [Fintype T] [DecidableEq T] in
theorem Helps.queued (h : lk.Helps t s u) (ht : s.locals t = .locking (.wait my)) :
    TicketLock.queued (s.locals u) = true := by
  rw [Helps, ht] at h
  rcases h with hin | ⟨-, hhead⟩
  · exact queued_of_inside hin
  · rw [hhead]
    rfl

omit [Fintype T] in
/-- The access of a thread that helps is not in vain. -/
theorem Helps.changes (h : lk.Helps t s u) (ht : s.locals t = .locking (.wait my))
    (hmove : lk.code.Moves s (.access u) s') : s'.locals u ≠ s.locals u := by
  rw [Helps, ht] at h
  cases hmove with
  | stay hidle =>
    rw [hidle u rfl] at h
    rcases h with h | ⟨-, h⟩ <;> cases h
  | lock hk =>
    rw [hk] at h ⊢
    rcases h with h | ⟨-, h⟩
    · cases h
    · obtain rfl := ClientLocal.locking.inj h
      have hexec : (lk.code.next (.wait (s.mem lk.nowServingAddr))).exec s.mem = _ :=
        Access.exec_read s.mem lk.nowServingAddr
      have hresume : lk.code.resume (.wait (s.mem lk.nowServingAddr))
          (.value (s.mem lk.nowServingAddr)) = none := if_pos rfl
      rw [ThreadState.setLocal_self, hexec, hresume]
      exact fun hbad => by cases hbad
  | count _ _ hdone _ =>
    rw [ThreadState.setLocal_self]
    rintro rfl
    omega
  | unlock hu =>
    rw [ThreadState.setLocal_self, hu]
    exact fun hbad => by cases hbad

/-- Taking a ticket puts a thread behind at most all others. -/
theorem QueueInv.delay_lt_of_take (h : lk.QueueInv q es s') (hcard : Fintype.card T < 2 ^ 32)
    (ht : s.locals t = .locking .take) (hmove : lk.code.Moves s (.access t) s') :
    lk.delay t s' < lk.delay t s := by
  have hwait : ∃ my, s'.locals t = .locking (.wait my) := by
    cases hmove with
    | stay hidle =>
      rw [hidle t rfl] at ht
      cases ht
    | lock hk =>
      rw [ht] at hk
      obtain rfl := ClientLocal.locking.inj hk
      exact ⟨s.mem lk.nextTicketAddr, ThreadState.setLocal_self _ _ _⟩
    | count hin _ _ _ =>
      rw [ht] at hin
      cases hin
    | unlock hu =>
      rw [ht] at hu
      cases hu
  obtain ⟨my, hmy⟩ := hwait
  have hplace := (List.getElem?_eq_some_iff.mp (h.position hcard hmy)).1
  have hlen := h.nodup.length_le_card
  rw [delay_take ht, delay_wait hmy]
  omega

/-- What a thread waits for in `lock`, whatever the others do. -/
theorem progress (hcard : Fintype.card T < 2 ^ 32) {ctr : Word} (hctr : ctr ∉ lk.code.words)
    {m : Word → Word} (h0 : m lk.nextTicketAddr = m lk.nowServingAddr) (t : T) :
    ((lk.code.client ctr).machine .flat).Progress
      ((lk.code.client (T := T) ctr).Reached (.start m .idle)) (fun _ => True)
      ThreadAction.IsAccess (lk.delay t)
      (fun s act => ∃ u, act = .access u ∧ lk.Helps t s u) := by
  have hqueue : ∀ s, (lk.code.client (T := T) ctr).Reached (.start m .idle) s →
      ∃ q es, lk.QueueInv q es s := by
    rintro _ ⟨acts, rfl⟩
    obtain ⟨q, hq⟩ := (queueInv_run hcard hctr h0 acts).1
    exact ⟨q, _, hq⟩
  refine .of_step (fun s act hs _ => hs.step act) (fun s hs hpos => ?_)
    (fun _ _ _ => trivial) fun s act hs hpos _ => ?_
  · obtain ⟨q, es, hq⟩ := hqueue s hs
    obtain ⟨u, hu⟩ := hq.exists_helps hpos
    exact ⟨.access u, ⟨u, rfl⟩, u, rfl, hu⟩
  have hmove := LockCode.moves_step (s := s) hctr act
  obtain ⟨q, es, hq⟩ := hqueue s hs
  rcases locking_of_delay hpos with ht | ⟨my, ht⟩
  · by_cases hact : act = .access t
    · subst hact
      obtain ⟨q', es', hq'⟩ := hqueue _ (hs.step (.access t))
      exact Or.inl (hq'.delay_lt_of_take hcard ht hmove)
    · have ht' := (hmove.locals_eq hact (by rw [ht]; simp)).trans ht
      refine Or.inr ⟨?_, ?_⟩
      · rw [delay_take ht, delay_take ht']
      · rintro _ ⟨u, rfl, hu⟩
        rw [Helps, ht] at hu
        subst hu
        exact ⟨⟨u, rfl, by rw [Helps, ht']⟩, hact⟩
  · rcases hq.moves hcard ht hmove with hless | hquiet
    · exact Or.inl hless
    · refine Or.inr ⟨(hquiet.delay_eq ht).le, ?_⟩
      rintro _ ⟨u, rfl, hu⟩
      refine ⟨⟨u, rfl, hquiet.helps ht hu⟩, ?_⟩
      rintro rfl
      exact hu.changes ht hmove (hquiet.queued u (hu.queued ht))

/-- **The ticket lock does not starve.** Fewer than 2^32 threads on any cores of the system use
    the lock for sections that read and write a counter once, in any interleaving with each
    other and with other code that does not write the lock's words or the counter. If a thread
    is in `lock`, then in whatever happens next, further calls included, it is admitted within
    `4 * card T` rounds each of which has an access of every thread. -/
theorem ticketLock_admits_everyone (hcard : Fintype.card T < 2 ^ 32) {n : ℕ} (core : T → Fin n)
    (visits : ℕ → (c : Fin n) → VisitOrder c) (lk : TicketLock) (ctr : Word)
    (hctr : ctr ∉ lk.code.words) (m : DutState n)
    (h0 : m.flat lk.nextTicketAddr = m.flat lk.nowServingAddr)
    (acts : List (ThreadAction T Unit Word Word))
    (rounds : List (List (ThreadAction T Unit Word Word))) (t : T) :
    let run := (lk.code.client ctr).run (dut core visits) (.start m .idle)
    (∃ k, (run acts).locals t = .locking k) →
    (∀ r ∈ rounds, ∀ u, .access u ∈ r) →
    4 * Fintype.card T ≤ rounds.length →
    ∃ pre, pre <+: rounds.flatten ∧ (run (acts ++ pre)).locals t = .entered := by
  intro run hlock hfair hlen
  obtain ⟨k, hk⟩ := hlock
  simp only [run, dut_locals] at hk ⊢
  have hprog := progress hcard hctr h0 t
  have hs : (lk.code.client (T := T) ctr).Reached (.start m.flat .idle)
    ((lk.code.client (T := T) ctr).run .flat (.start m.flat .idle) acts) := ⟨acts, rfl⟩
  obtain ⟨⟨q, hq⟩, -⟩ := queueInv_run (T := T) hcard hctr h0 acts
  obtain ⟨pre, hpre, hzero⟩ := hprog.reaches_zero hs rounds (fun _ _ _ _ => trivial)
    (fun r hr act hact => by
      obtain ⟨u, rfl⟩ := hact
      exact hfair r hr u) ((hq.delay_le hcard).trans hlen)
  have hout : ∀ k, ((lk.code.client (T := T) ctr).run .flat
      ((lk.code.client (T := T) ctr).run .flat (.start m.flat .idle) acts) pre).locals t ≠
        .locking k := by
    obtain ⟨⟨q', hq'⟩, -⟩ := queueInv_run (T := T) hcard hctr h0 (acts ++ pre)
    rw [ThreadCode.run_append] at hq'
    exact hq'.not_locking hcard hzero
  obtain ⟨pre', hpre', henter⟩ := LockCode.exists_entered hctr hk hout
  refine ⟨pre', hpre'.trans hpre, ?_⟩
  rw [ThreadCode.run_append]
  exact henter

/-- Two threads, one inside and one in `lock`. -/
def oneInside : List (ThreadAction Bool Unit Word Word) :=
  [.command true (), .access true, .access true, .command false ()]

theorem oneInside_admits :
    let lk : TicketLock := ⟨0x300, 0x304, by decide⟩
    let memory := dut (fun t : Bool => if t then (0 : Fin 2) else 1) fun _ c => .byIndex c
    let run := (lk.code.client 0x308).run memory (.start (.new 2) .idle)
    ∃ pre, pre <+: (List.replicate 8 [.access true, .access false, .command true ()]).flatten ∧
      (run (oneInside ++ pre)).locals false = .entered := by
  intro lk memory run
  refine ticketLock_admits_everyone (T := Bool) (by decide)
    (fun t : Bool => if t then (0 : Fin 2) else 1) (fun _ c => .byIndex c) lk 0x308 (by decide)
    (.new 2) rfl oneInside _ false ⟨.take, by decide +kernel⟩ ?_ (by decide)
  intro r hr u
  rw [List.eq_of_mem_replicate hr]
  cases u with
  | true => exact List.mem_cons_self
  | false => exact List.mem_cons_of_mem _ List.mem_cons_self

end TicketLock

namespace TASLock

-- ════════════════════════════════════════════════════════════════════════
-- Somebody gets the lock
-- ════════════════════════════════════════════════════════════════════════

section HandOver

variable {T : Type*} [Fintype T] {lk : TASLock} {s s' : ClientState T Word Word Point} {t u : T}
  {act : ThreadAction T Unit Word Word}

/-- Is the thread in `lock`? -/
def locking : ClientLocal Point Word → Bool
  | .locking _ => true
  | _ => false

theorem locking_eq_false_iff {l : ClientLocal Point Word} :
    locking l = false ↔ ∀ k, l ≠ .locking k := by
  cases l <;> simp [locking]

/-- What is left until somebody is inside or `t` is out of `lock`: with the lock free, a
    compare-and-swap is enough, and the threads that spin are one access away from theirs. -/
def delay (t : T) (s : ClientState T Word Word Point) : ℕ :=
  if (∃ u, (s.locals u).inside = true) ∨ locking (s.locals t) = false then 0
  else if ∃ u, s.locals u = .locking .cas then 1 else 2

theorem delay_le (t : T) (s : ClientState T Word Word Point) : delay t s ≤ 2 := by
  unfold delay
  split
  · omega
  · split <;> omega

theorem delay_eq_zero_iff :
    delay t s = 0 ↔ (∃ u, (s.locals u).inside = true) ∨ locking (s.locals t) = false := by
  unfold delay
  split
  · next h => exact iff_of_true rfl h
  · next h =>
    refine iff_of_false ?_ h
    split <;> omega

theorem delay_of_cas (h : s.locals u = .locking .cas) : delay t s ≤ 1 := by
  unfold delay
  split
  · omega
  · rw [if_pos ⟨u, h⟩]

/-- The access of `u` brings somebody nearer to the lock. -/
def Helps (s : ClientState T Word Word Point) (u : T) : Prop :=
  s.locals u = .locking .cas ∨
    (∀ v, s.locals v ≠ .locking .cas) ∧ s.locals u = .locking .spin

variable [DecidableEq T]

omit [Fintype T] in
/-- With nobody inside, a step lets somebody in, or nobody leaves the compare-and-swap and
    somebody is there unless nothing has happened. -/
theorem FlagInv.moves (h : lk.FlagInv s) (hnone : ∀ u, (s.locals u).inside = false)
    (hmove : lk.code.Moves s act s') :
    (∃ u, (s'.locals u).inside = true) ∨
      (∀ u, s.locals u = .locking .cas → s'.locals u = .locking .cas ∧ act ≠ .access u) ∧
      ((∃ v, s'.locals v = .locking .cas) ∨
        s'.locals = s.locals ∧ ∀ u, s.locals u = .locking .spin → act ≠ .access u) := by
  have h0 : s.mem lk.flagAddr = 0 := h.free hnone
  cases hmove with
  | stay hidle =>
    have hact : ∀ u k, s.locals u = .locking k → act ≠ .access u := by
      intro u k hu hact
      rw [hidle u hact] at hu
      cases hu
    exact Or.inr ⟨fun u hu => ⟨hu, hact u _ hu⟩, Or.inr ⟨rfl, fun u hu => hact u _ hu⟩⟩
  | @call v hv =>
    refine Or.inr ⟨fun u hu => ⟨?_, fun hact => by cases hact⟩,
      Or.inl ⟨v, ThreadState.setLocal_self _ _ _⟩⟩
    have huv : u ≠ v := by
      rintro rfl
      rw [hv] at hu
      cases hu
    rw [ThreadState.setLocal_of_ne _ huv]
    exact hu
  | @lock v k hv =>
    cases k with
    | cas =>
      have hexec : (lk.code.next .cas).exec s.mem = _ := Access.exec_cas_of_eq h0 1
      refine Or.inl ⟨v, ?_⟩
      rw [hexec, ThreadState.setLocal_self]
      rfl
    | spin =>
      have hexec : (lk.code.next .spin).exec s.mem = _ := Access.exec_read s.mem lk.flagAddr
      have hresume : lk.code.resume .spin (.value (s.mem lk.flagAddr)) = some .cas :=
        if_neg (by rw [h0]; decide)
      rw [hexec, hresume]
      refine Or.inr ⟨fun u hu => ?_, Or.inl ⟨v, ThreadState.setLocal_self _ _ _⟩⟩
      have huv : u ≠ v := by
        rintro rfl
        rw [hv] at hu
        cases hu
      refine ⟨?_, fun hact => huv (ThreadAction.access.inj hact).symm⟩
      rw [ThreadState.setLocal_of_ne _ huv]
      exact hu
  | @count v _ _ hin _ _ _ =>
    rw [hnone v] at hin
    cases hin
  | @unlock v hv =>
    have hout := hnone v
    rw [hv] at hout
    cases hout
  | other _ =>
    exact Or.inr ⟨fun u hu => ⟨hu, fun hact => by cases hact⟩,
      Or.inr ⟨rfl, fun u _ hact => by cases hact⟩⟩

/-- While there is something left, a step brings the lock nearer to somebody, or leaves
    everything to those who help. -/
theorem FlagInv.step_delay (h : lk.FlagInv s) (hpos : 0 < delay t s)
    (hmove : lk.code.Moves s act s') :
    delay t s' < delay t s ∨
      delay t s' ≤ delay t s ∧ ∀ u, Helps s u → Helps s' u ∧ act ≠ .access u := by
  have hleft := mt delay_eq_zero_iff.mpr hpos.ne'
  have hnone : ∀ u, (s.locals u).inside = false := fun u =>
    eq_false_of_ne_true fun hu => hleft (Or.inl ⟨u, hu⟩)
  rcases h.moves hnone hmove with hin | ⟨hcas, hrest⟩
  · left
    rw [delay_eq_zero_iff.mpr (Or.inl hin)]
    exact hpos
  by_cases hsome : ∃ w, s.locals w = .locking .cas
  · obtain ⟨w, hw⟩ := hsome
    refine Or.inr ⟨(delay_of_cas (hcas w hw).1).trans hpos, fun u hu => ?_⟩
    rcases hu with hu | ⟨hno, -⟩
    · exact ⟨Or.inl (hcas u hu).1, (hcas u hu).2⟩
    · exact absurd hw (hno w)
  have htwo : delay t s = 2 := by
    unfold delay
    rw [if_neg hleft, if_neg hsome]
  rcases hrest with ⟨v, hv⟩ | ⟨hsame, hact⟩
  · left
    rw [htwo]
    exact Nat.lt_succ_of_le (delay_of_cas hv)
  · right
    refine ⟨?_, fun u hu => ?_⟩
    · rw [htwo]
      exact delay_le t s'
    · unfold Helps
      rw [hsame]
      rcases hu with hu | ⟨hno, hu⟩
      · exact absurd ⟨u, hu⟩ hsome
      · exact ⟨Or.inr ⟨hno, hu⟩, hact u hu⟩

omit [DecidableEq T] in
theorem exists_helps_of_delay (hpos : 0 < delay t s) : ∃ u, Helps s u := by
  have hleft := mt delay_eq_zero_iff.mpr hpos.ne'
  by_cases hsome : ∃ w, s.locals w = .locking .cas
  · obtain ⟨w, hw⟩ := hsome
    exact ⟨w, Or.inl hw⟩
  cases hl : s.locals t with
  | locking k =>
    cases k with
    | cas => exact absurd ⟨t, hl⟩ hsome
    | spin => exact ⟨t, Or.inr ⟨not_exists.mp hsome, hl⟩⟩
  | _ =>
    refine absurd (Or.inr ?_) hleft
    rw [hl]
    rfl

/-- What is left until the lock is handed to somebody. -/
theorem progress {ctr : Word} (hctr : ctr ≠ lk.flagAddr) {m : Word → Word}
    (h0 : m lk.flagAddr = 0) (t : T) :
    ((lk.code.client ctr).machine .flat).Progress
      ((lk.code.client (T := T) ctr).Reached (.start m .idle)) (fun _ => True)
      ThreadAction.IsAccess (delay t) (fun s act => ∃ u, act = .access u ∧ Helps s u) := by
  have hwords : ctr ∉ lk.code.words := by simpa [code] using hctr
  have hflag : ∀ s, (lk.code.client (T := T) ctr).Reached (.start m .idle) s → lk.FlagInv s := by
    rintro _ ⟨acts, rfl⟩
    exact (flagInv_run hctr h0 acts).1
  refine .of_step (fun s act hs _ => hs.step act) (fun s hs hpos => ?_)
    (fun _ _ _ => trivial) fun s act hs hpos _ => ?_
  · obtain ⟨u, hu⟩ := exists_helps_of_delay hpos
    exact ⟨.access u, ⟨u, rfl⟩, u, rfl, hu⟩
  · rcases (hflag s hs).step_delay (t := t) hpos (LockCode.moves_step hwords act) with
      hless | ⟨hle, hkeep⟩
    · exact Or.inl hless
    · refine Or.inr ⟨hle, ?_⟩
      rintro _ ⟨u, rfl, hu⟩
      exact ⟨⟨u, rfl, (hkeep u hu).1⟩, (hkeep u hu).2⟩

/-- **The spinlock is always handed on.** Threads on any cores of the system use the lock for
    sections that read and write a counter once, in any interleaving with each other and with
    other code that does not write the flag or the counter, and go on with whatever they like,
    further calls included, in rounds each of which has an access of every thread. If a thread
    is in `lock`, somebody is inside within two rounds, and whoever is inside leaves within
    three. -/
theorem tasLock_handed_on {n : ℕ} (core : T → Fin n) (visits : ℕ → (c : Fin n) → VisitOrder c)
    (lk : TASLock) (ctr : Word) (hctr : ctr ≠ lk.flagAddr) (m : DutState n)
    (h0 : m.flat lk.flagAddr = 0) (acts : List (ThreadAction T Unit Word Word))
    (rounds : List (List (ThreadAction T Unit Word Word)))
    (hfair : ∀ r ∈ rounds, ∀ u, .access u ∈ r) :
    let run := (lk.code.client ctr).run (dut core visits) (.start m .idle)
    ((∃ t k, (run acts).locals t = .locking k) → 2 ≤ rounds.length →
      ∃ pre u, pre <+: rounds.flatten ∧ ((run (acts ++ pre)).locals u).inside = true) ∧
    ∀ u, ((run acts).locals u).inside = true → 3 ≤ rounds.length →
      ∃ pre, pre <+: rounds.flatten ∧ ((run (acts ++ pre)).locals u).inside = false := by
  intro run
  simp only [run, dut_locals]
  simp only [ThreadCode.run_append]
  have hwords : ctr ∉ lk.code.words := by simpa [code] using hctr
  have hrounds : ∀ r ∈ rounds, ∀ act : ThreadAction T Unit Word Word, act.IsAccess → act ∈ r := by
    rintro r hr _ ⟨u, rfl⟩
    exact hfair r hr u
  have hs : (lk.code.client (T := T) ctr).Reached (.start m.flat .idle)
    ((lk.code.client (T := T) ctr).run .flat (.start m.flat .idle) acts) := ⟨acts, rfl⟩
  constructor
  · rintro ⟨t, k, hk⟩ hlen
    obtain ⟨pre, hpre, hzero⟩ := (progress hctr h0 t).reaches_zero hs rounds
      (fun _ _ _ _ => trivial) hrounds ((delay_le t _).trans hlen)
    rcases delay_eq_zero_iff.mp hzero with ⟨u, hu⟩ | hout
    · exact ⟨pre, u, hpre, hu⟩
    obtain ⟨pre', hpre', henter⟩ := LockCode.exists_entered hwords hk (locking_eq_false_iff.mp hout)
    refine ⟨pre', t, hpre'.trans hpre, ?_⟩
    rw [henter]
    rfl
  · intro u hu hlen
    obtain ⟨pre, hpre, hzero⟩ := (LockCode.section_progress hwords u).reaches_zero
      (s := (lk.code.client (T := T) ctr).run .flat (.start m.flat .idle) acts) trivial rounds
      (fun _ _ _ _ => trivial) hrounds ((LockCode.remaining_le _).trans hlen)
    exact ⟨pre, hpre, LockCode.remaining_eq_zero_iff.mp hzero⟩

/-- One thread spins while another is inside. -/
def oneSpins : List (ThreadAction Bool Unit Word Word) :=
  [.command true (), .access true, .command false (), .access false]

theorem oneSpins_handed_on :
    let memory := dut (fun t : Bool => if t then (0 : Fin 2) else 1) fun _ c => .byIndex c
    let run := ((TASLock.mk 0x100).code.client 0x200).run memory (.start (.new 2) .idle)
    ∃ pre, pre <+: (List.replicate 3 [.access false, .access true]).flatten ∧
      ((run (oneSpins ++ pre)).locals true).inside = false := by
  intro memory run
  refine (tasLock_handed_on (fun t : Bool => if t then (0 : Fin 2) else 1) (fun _ c => .byIndex c)
    ⟨0x100⟩ 0x200 (by decide) (.new 2) rfl oneSpins _ ?_).2 true (by decide +kernel) (by decide)
  intro r hr u
  rw [List.eq_of_mem_replicate hr]
  cases u with
  | true => exact List.mem_cons_of_mem _ List.mem_cons_self
  | false => exact List.mem_cons_self

end HandOver

-- ════════════════════════════════════════════════════════════════════════
-- But not everybody
-- ════════════════════════════════════════════════════════════════════════

section Starvation

variable {T : Type*} {lk : TASLock} {s : ClientState T Word Word Point} {t u v : T} {ctr : Word}

/-- `u` is inside and `t` in `lock`; nobody else uses the lock. -/
structure Starving (lk : TASLock) (t u : T) (s : ClientState T Word Word Point) : Prop where
  inside : s.locals u = .entered
  flag : s.mem lk.flagAddr = 1
  waits : ∃ k, s.locals t = .locking k
  others : ∀ v, v ≠ t → v ≠ u → s.locals v = .idle

/-- A thread inside goes on to its next critical section. -/
def again (u : T) : List (ThreadAction T Unit Word Word) :=
  [.access u, .access u, .access u, .command u (), .access u]

variable [DecidableEq T]

/-- The others' accesses are in vain. -/
theorem Starving.access (h : lk.Starving t u s) (ctr : Word) (hv : v ≠ u) :
    lk.Starving t u ((lk.code.client ctr).step .flat s (.access v)).1 ∧
      completed ((lk.code.client ctr).step .flat s (.access v)).2 = 0 := by
  by_cases hvt : v = t
  · subst hvt
    obtain ⟨k, hk⟩ := h.waits
    have hnext : (lk.code.client (T := T) ctr).next (s.locals v) = some (lk.code.next k) := by
      rw [hk]
      rfl
    have hvain : ((lk.code.next k).exec s.mem).1 lk.flagAddr = 1 ∧
        ∃ k', lk.code.resume k ((lk.code.next k).exec s.mem).2 = some k' := by
      cases k with
      | cas =>
        have hne : s.mem lk.flagAddr ≠ 0 := by
          rw [h.flag]
          decide
        have hexec : (lk.code.next .cas).exec s.mem = _ := Access.exec_cas_of_ne hne 1
        rw [hexec]
        exact ⟨h.flag, .spin, rfl⟩
      | spin =>
        have hexec : (lk.code.next .spin).exec s.mem = _ := Access.exec_read s.mem lk.flagAddr
        rw [hexec]
        exact ⟨h.flag, .spin, if_pos h.flag⟩
    obtain ⟨hflag, k', hk'⟩ := hvain
    rw [ThreadCode.step_access_flat hnext, hk]
    refine ⟨⟨?_, hflag, ⟨k', ?_⟩, fun w hwv hwu => ?_⟩, rfl⟩
    · rw [ThreadState.setLocal_of_ne _ hv.symm]
      exact h.inside
    · rw [ThreadState.setLocal_self]
      show LockCode.afterLock (lk.code.resume k ((lk.code.next k).exec s.mem).2) = _
      rw [hk']
      rfl
    · rw [ThreadState.setLocal_of_ne _ hwv]
      exact h.others w hwv hwu
  · have hstay : (lk.code.client ctr).step .flat s (.access v) = (s, []) := by
      unfold ThreadCode.step
      simp only [LockCode.client, h.others v hvt hv]
    rw [hstay]
    exact ⟨h, rfl⟩

/-- A compare-and-swap that finds the lock free. -/
theorem step_cas (h0 : s.mem lk.flagAddr = 0) :
    (lk.code.client ctr).step .flat (s.setLocal u (.locking .cas)) (.access u) =
      ((s.setMem (Function.update s.mem lk.flagAddr 1)).setLocal u .entered,
        [.accessed u (.locking .cas) (.cas lk.flagAddr 0 1) (.swap (s.mem lk.flagAddr) true)]) := by
  have hnext : (lk.code.client (T := T) ctr).next ((s.setLocal u (.locking .cas)).locals u) =
      some (.cas lk.flagAddr 0 1) := by
    rw [ThreadState.setLocal_self]
    rfl
  rw [ThreadCode.step_access_flat hnext, ThreadState.setLocal_mem, Access.exec_cas_of_eq h0,
    ThreadState.setLocal_setMem_setLocal, ThreadState.setLocal_self]
  rfl

omit [DecidableEq T] in
theorem completed_append (es es' : List (ClientEvent T Word Word Point)) :
    completed (es ++ es') = completed es + completed es' :=
  List.countP_append

theorem Starving.accesses (h : lk.Starving t u s) (ctr : Word) {vs : List T}
    (hvs : ∀ v ∈ vs, v ≠ u) :
    lk.Starving t u ((lk.code.client ctr).run .flat s (vs.map .access)) ∧
      completed ((lk.code.client ctr).trace .flat s (vs.map .access)) = 0 := by
  induction vs generalizing s with
  | nil => exact ⟨h, rfl⟩
  | cons v vs ih =>
    obtain ⟨hstep, hcount⟩ := h.access ctr (hvs v List.mem_cons_self)
    obtain ⟨hrest, hcount'⟩ := ih hstep fun w hw => hvs w (List.mem_cons_of_mem _ hw)
    refine ⟨hrest, ?_⟩
    have hboth := completed_append ((lk.code.client ctr).step .flat s (.access v)).2
      ((lk.code.client ctr).trace .flat ((lk.code.client ctr).step .flat s (.access v)).1
        (vs.map .access))
    rw [hcount, hcount'] at hboth
    exact hboth

/-- One critical section after another. -/
theorem run_again (lk : TASLock) (ctr : Word) (hu : s.locals u = .entered) :
    completed ((lk.code.client ctr).trace .flat s (again u)) = 1 ∧
      ∃ m, m lk.flagAddr = 1 ∧
        (lk.code.client ctr).run .flat s (again u) = (s.setMem m).setLocal u .entered := by
  have hread : (lk.code.client ctr).step .flat s (.access u) =
      (s.setLocal u (.counting (s.mem ctr)),
        [.accessed u .entered (.read ctr) (.value (s.mem ctr))]) := by
    have hnext : (lk.code.client (T := T) ctr).next (s.locals u) = some (.read ctr) := by
      rw [hu]
      rfl
    rw [ThreadCode.step_access_flat hnext, hu, Access.exec_read]
    rfl
  have hwrite : ∀ (s : ClientState T Word Word Point) v,
      (lk.code.client ctr).step .flat (s.setLocal u (.counting v)) (.access u) =
        ((s.setMem (Function.update s.mem ctr (v + 1))).setLocal u .leaving,
          [.accessed u (.counting v) (.write ctr (v + 1)) .done]) := by
    intro s v
    have hnext : (lk.code.client (T := T) ctr).next ((s.setLocal u (.counting v)).locals u) =
        some (.write ctr (v + 1)) := by
      rw [ThreadState.setLocal_self]
      rfl
    rw [ThreadCode.step_access_flat hnext, Access.exec_write,
      ThreadState.setLocal_setMem_setLocal, ThreadState.setLocal_self]
    rfl
  have hunlock : ∀ s : ClientState T Word Word Point,
      (lk.code.client ctr).step .flat (s.setLocal u .leaving) (.access u) =
        ((s.setMem (Function.update s.mem lk.flagAddr 0)).setLocal u .idle,
          [.accessed u .leaving (.write lk.flagAddr 0) .done]) := by
    intro s
    have hnext : (lk.code.client (T := T) ctr).next ((s.setLocal u .leaving).locals u) =
        some (.write lk.flagAddr 0) := by
      rw [ThreadState.setLocal_self]
      rfl
    rw [ThreadCode.step_access_flat hnext, Access.exec_write,
      ThreadState.setLocal_setMem_setLocal, ThreadState.setLocal_self]
    rfl
  have hcall : ∀ s : ClientState T Word Word Point,
      (lk.code.client ctr).step .flat (s.setLocal u .idle) (.command u ()) =
        (s.setLocal u (.locking .cas), [.commanded u ()]) := by
    intro s
    simp [ThreadCode.step, LockCode.client, ThreadState.setLocal, code]
  simp only [again, ThreadCode.trace, ThreadCode.run, ThreadCode.machine, Machine.run,
    Machine.outputs, hread, hwrite, hunlock, hcall]
  rw [step_cas (Function.update_self _ _ _)]
  exact ⟨rfl, _, Function.update_self _ _ _, rfl⟩

/-- A round in which `u` overtakes `t`: everyone has an access while `u` is inside. -/
noncomputable def overtaken [Fintype T] (u : T) : List (ThreadAction T Unit Word Word) :=
  (Finset.univ.erase u).toList.map .access ++ again u

theorem mem_overtaken [Fintype T] (u v : T) :
    (.access v : ThreadAction T Unit Word Word) ∈ overtaken u := by
  by_cases hv : v = u
  · subst hv
    exact List.mem_append_right _ List.mem_cons_self
  · refine List.mem_append_left _ (List.mem_map_of_mem ?_)
    exact Finset.mem_toList.mpr (Finset.mem_erase.mpr ⟨hv, Finset.mem_univ v⟩)

/-- Such a round can be repeated. -/
theorem Starving.overtaken [Fintype T] (h : lk.Starving t u s) (htu : t ≠ u)
    (hctr : ctr ∉ lk.code.words) :
    (∀ pre, pre <+: TASLock.overtaken u →
      ∃ k, ((lk.code.client ctr).run .flat s pre).locals t = .locking k) ∧
    lk.Starving t u ((lk.code.client ctr).run .flat s (TASLock.overtaken u)) ∧
      completed ((lk.code.client ctr).trace .flat s (TASLock.overtaken u)) = 1 := by
  have hne : ∀ v ∈ (Finset.univ.erase u).toList, v ≠ u := fun v hv =>
    Finset.ne_of_mem_erase (Finset.mem_toList.mp hv)
  obtain ⟨hwait, hzero⟩ := h.accesses ctr hne
  obtain ⟨hone, m, hm, hagain⟩ := run_again lk ctr hwait.inside
  refine ⟨?_, ?_, ?_⟩
  · refine Machine.forall_prefix_append ((lk.code.client ctr).machine .flat)
      (P := fun s => ∃ k, s.locals t = .locking k) (fun pre hpre => ?_) fun pre hpre => ?_
    · rw [List.prefix_iff_eq_take.mp hpre, ← List.map_take]
      exact (h.accesses ctr fun v hv => hne v (List.mem_of_mem_take hv)).1.waits
    · obtain ⟨k, hk⟩ := hwait.waits
      have hothers : ∀ act ∈ pre, act ≠ .access t := by
        intro act hact
        have hmem := hpre.subset hact
        rintro rfl
        simp [again, htu] at hmem
      exact ⟨k, (LockCode.run_locals_eq hctr hothers fun hidle => by
        cases hk.symm.trans hidle).trans hk⟩
  · rw [TASLock.overtaken, ThreadCode.run_append, hagain]
    obtain ⟨k, hk⟩ := hwait.waits
    refine ⟨ThreadState.setLocal_self _ _ _, hm, ⟨k, ?_⟩, fun v hvt hvu => ?_⟩
    · rw [ThreadState.setLocal_of_ne _ htu]
      exact hk
    · rw [ThreadState.setLocal_of_ne _ hvu]
      exact hwait.others v hvt hvu
  · rw [TASLock.overtaken, ThreadCode.trace_append, completed_append, hzero, hone]

/-- And repeated as often as one likes. -/
theorem Starving.rounds [Fintype T] (h : lk.Starving t u s) (htu : t ≠ u)
    (hctr : ctr ∉ lk.code.words) (N : ℕ) :
    let rounds := (List.replicate N (TASLock.overtaken u)).flatten
    (∀ pre, pre <+: rounds →
      ∃ k, ((lk.code.client ctr).run .flat s pre).locals t = .locking k) ∧
      completed ((lk.code.client ctr).trace .flat s rounds) = N := by
  induction N generalizing s with
  | zero =>
    refine ⟨fun pre hpre => ?_, rfl⟩
    rw [List.prefix_nil.mp hpre]
    exact h.waits
  | succ N ih =>
    obtain ⟨hpre, hstate, hone⟩ := h.overtaken htu hctr
    obtain ⟨hrest, hcount⟩ := ih hstate
    rw [List.replicate_succ, List.flatten_cons]
    refine ⟨?_, ?_⟩
    · exact Machine.forall_prefix_append ((lk.code.client ctr).machine .flat)
        (P := fun s => ∃ k, s.locals t = .locking k) hpre hrest
    · rw [ThreadCode.trace_append, completed_append, hone, hcount, Nat.add_comm]

/-- `t` and `u` call `lock`, and `u` comes first. -/
theorem starving_start (ctr : Word) {m : Word → Word} (h0 : m lk.flagAddr = 0) (htu : t ≠ u) :
    let acts := [.command t (), .command u (), .access u]
    lk.Starving t u ((lk.code.client ctr).run .flat (.start m .idle) acts) ∧
      completed ((lk.code.client ctr).trace .flat (.start m .idle) acts) = 0 := by
  have hcall : ∀ (s : ClientState T Word Word Point) v, s.locals v = .idle →
      (lk.code.client ctr).step .flat s (.command v ()) =
        (s.setLocal v (.locking .cas), [.commanded v ()]) := by
    intro s v hv
    unfold ThreadCode.step
    simp only [LockCode.client, hv]
    rfl
  have hu : ((ThreadState.start m .idle : ClientState T Word Word Point).setLocal t
      (.locking .cas)).locals u = .idle := ThreadState.setLocal_of_ne _ htu.symm _
  simp only [ThreadCode.run, ThreadCode.trace, ThreadCode.machine, Machine.run, Machine.outputs,
    hcall (.start m .idle) t rfl, hcall _ u hu]
  rw [step_cas (by exact h0)]
  refine ⟨⟨ThreadState.setLocal_self _ _ _, Function.update_self _ _ _, ⟨.cas, ?_⟩,
    fun v hvt hvu => ?_⟩, rfl⟩
  · rw [ThreadState.setLocal_of_ne _ htu]
    exact ThreadState.setLocal_self _ _ _
  · rw [ThreadState.setLocal_of_ne _ hvu]
    exact ThreadState.setLocal_of_ne _ hvt _

/-- **The spinlock can starve a thread.** Whatever lock, counter, cores and threads `t ≠ u`,
    there is a round, with an access of every thread, that can be repeated forever: after
    any number of rounds as many critical sections have been completed, and at no moment of
    them has `t` got out of its `lock`. -/
theorem tasLock_can_starve [Fintype T] {n : ℕ} (core : T → Fin n)
    (visits : ℕ → (c : Fin n) → VisitOrder c) (lk : TASLock) (ctr : Word)
    (hctr : ctr ≠ lk.flagAddr) (m : DutState n) (h0 : m.flat lk.flagAddr = 0) (t u : T)
    (htu : t ≠ u) :
    ∃ acts round, (∀ v, .access v ∈ round) ∧ ∀ N,
      let rounds := (List.replicate N round).flatten
      let client := lk.code.client ctr
      (∀ pre, pre <+: rounds → ∃ k,
        (client.run (dut core visits) (.start m .idle) (acts ++ pre)).locals t = .locking k) ∧
      completed (client.trace (dut core visits) (.start m .idle) (acts ++ rounds)) = N := by
  have hwords : ctr ∉ lk.code.words := by simpa [code] using hctr
  obtain ⟨hstart, hzero⟩ := starving_start ctr h0 htu
  refine ⟨[.command t (), .command u (), .access u], overtaken u, mem_overtaken u, fun N => ?_⟩
  obtain ⟨hpre, hcount⟩ := hstart.rounds htu hwords N
  simp only [dut_locals, dut_trace]
  refine ⟨fun pre hp => ?_, ?_⟩
  · rw [ThreadCode.run_append]
    exact hpre pre hp
  · rw [ThreadCode.trace_append, completed_append, hzero, hcount, Nat.zero_add]

theorem falseStarves :
    let memory := dut (fun t : Bool => if t then (0 : Fin 2) else 1) fun _ c => .byIndex c
    let client := (TASLock.mk 0x100).code.client 0x200
    ∃ acts round, (∀ v, .access v ∈ round) ∧ ∀ N,
      let rounds := (List.replicate N round).flatten
      (∀ pre, pre <+: rounds → ∃ k,
        (client.run memory (.start (.new 2) .idle) (acts ++ pre)).locals false = .locking k) ∧
      completed (client.trace memory (.start (.new 2) .idle) (acts ++ rounds)) = N :=
  tasLock_can_starve (fun t : Bool => if t then (0 : Fin 2) else 1) (fun _ c => .byIndex c)
    ⟨0x100⟩ 0x200 (by decide) (.new 2) rfl false true (by decide)

end Starvation

end TASLock

end MesiCoherence
