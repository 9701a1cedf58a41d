import Mathlib.Data.Fintype.Card
import Mathlib.Data.Fintype.List
import MesiCoherence.Lib.LockClient
import MesiCoherence.Primitives.Dut

/-!
# The ticket lock

`primitives/ticket_lock.hpp`: `lock` takes a ticket with a fetch-and-add and spins until
it is served, `unlock` serves the next one. Tickets wrap modulo 2^32; the threads
between ticket and unlock form a queue whose tickets are consecutive, so with fewer
than 2^32 threads no two of them coincide.
-/

namespace MesiCoherence

/-- The two words of a ticket lock. -/
structure TicketLock where
  nextTicketAddr : Word
  nowServingAddr : Word
  distinct : nextTicketAddr ≠ nowServingAddr

namespace TicketLock

/-- The program points of `lock`. -/
inductive Point where
  | take
  | wait (my : Word)
  deriving DecidableEq, Repr

variable (lk : TicketLock)

/-- `lock` and `unlock`. -/
def code : LockCode Word Word Point where
  start := .take
  next
    | .take => .fetchAndAdd lk.nextTicketAddr 1
    | .wait _ => .read lk.nowServingAddr
  resume
    | .take, .value my => some (.wait my)
    | .wait my, .value v => if v = my then none else some (.wait my)
    | k, _ => some k
  unlock := .fetchAndAdd lk.nowServingAddr 1
  words := [lk.nextTicketAddr, lk.nowServingAddr]
  next_mem k := by cases k <;> simp [Access.addr]
  unlock_mem := by simp [Access.addr]

/-- Holding the lock, or waiting with a ticket. -/
def queued : ClientLocal Point Word → Bool
  | .locking (.wait _) => true
  | l => l.inside

variable {T : Type*}

/-- The threads in the order of their fetch-and-add on `next_ticket`. -/
def takes (es : List (ClientEvent T Word Word Point)) : List T :=
  es.filterMap fun
    | .accessed t (.locking .take) _ _ => some t
    | _ => none

/-- The threads in the order in which their `lock` returned. -/
def admitted (es : List (ClientEvent T Word Word Point)) : List T :=
  es.filterMap fun
    | .accessed t (.locking (.wait my)) _ (.value v) => if v = my then some t else none
    | _ => none

/-- The threads of the queue `q` hold consecutive tickets from `now_serving` on, only its
    head may be inside, and the tickets were taken and served in order. -/
structure QueueInv (q : List T) (es : List (ClientEvent T Word Word Point))
    (s : ClientState T Word Word Point) : Prop where
  nodup : q.Nodup
  mem : ∀ t, t ∈ q ↔ queued (s.locals t) = true
  next : s.mem lk.nextTicketAddr = s.mem lk.nowServingAddr + BitVec.ofNat 32 q.length
  ticket : ∀ (i : ℕ) (t : T) (my : Word), q[i]? = some t → s.locals t = .locking (.wait my) →
    my = s.mem lk.nowServingAddr + BitVec.ofNat 32 i
  head : ∀ t, (s.locals t).inside = true → q.head? = some t
  order : ∃ done, takes es = done ++ q ∧
    admitted es = done ++ q.filter fun t => (s.locals t).inside

variable {lk} [DecidableEq T] {q : List T} {es : List (ClientEvent T Word Word Point)}
  {s : ClientState T Word Word Point} {t : T} {m : Word → Word} {l : ClientLocal Point Word}
  {e : ClientEvent T Word Word Point}

theorem queued_of_inside (h : l.inside = true) : queued l = true := by
  unfold queued
  split
  · rfl
  · exact h

omit [DecidableEq T] in
theorem QueueInv.exclusive (h : lk.QueueInv q es s) : Exclusive s := by
  intro t u ht hu
  have htu := (h.head t ht).symm.trans (h.head u hu)
  exact Option.some.inj htu

/-- A step off the lock's words by a thread that keeps its place. -/
theorem QueueInv.move (h : lk.QueueInv q es s)
    (hm : ∀ a ∈ lk.code.words, m a = s.mem a) (hq : queued l = queued (s.locals t))
    (hin : l.inside = (s.locals t).inside)
    (hwait : ∀ my, l = .locking (.wait my) → s.locals t = .locking (.wait my))
    (htake : takes [e] = []) (hadm : admitted [e] = []) :
    lk.QueueInv q (es ++ [e]) ((s.setMem m).setLocal t l) := by
  have hnext : m lk.nextTicketAddr = s.mem lk.nextTicketAddr := hm _ (by simp [code])
  have hserv : m lk.nowServingAddr = s.mem lk.nowServingAddr := hm _ (by simp [code])
  have hqueued : ∀ u, queued (((s.setMem m).setLocal t l).locals u) = queued (s.locals u) :=
    ThreadState.setLocal_congr hq
  have hinside : ∀ u, (((s.setMem m).setLocal t l).locals u).inside = (s.locals u).inside :=
    ThreadState.setLocal_congr hin
  obtain ⟨done, hdone, hadm'⟩ := h.order
  refine ⟨h.nodup, ?_, ?_, ?_, ?_, done, ?_, ?_⟩
  · intro u
    rw [hqueued]
    exact h.mem u
  · rw [ThreadState.setLocal_mem, ThreadState.setMem_mem, hnext, hserv]
    exact h.next
  · intro i u my hi hu
    rw [ThreadState.setLocal_mem, ThreadState.setMem_mem, hserv]
    refine h.ticket i u my hi ?_
    by_cases hut : u = t
    · subst hut
      rw [ThreadState.setLocal_self] at hu
      exact hwait my hu
    · rw [ThreadState.setLocal_of_ne _ hut] at hu
      exact hu
  · intro u hu
    rw [hinside] at hu
    exact h.head u hu
  · rw [takes, List.filterMap_append, ← takes, ← takes, htake, List.append_nil, hdone]
  · rw [admitted, List.filterMap_append, ← admitted, ← admitted, hadm, List.append_nil, hadm']
    simp only [hinside]

omit [DecidableEq T] in
theorem getElem?_concat {i : ℕ} {u : T} (h : (q ++ [t])[i]? = some u) :
    q[i]? = some u ∨ i = q.length ∧ u = t := by
  rcases Nat.lt_or_ge i q.length with hlt | hge
  · rw [List.getElem?_append_left hlt] at h
    exact Or.inl h
  · rw [List.getElem?_append_right hge] at h
    obtain ⟨hi, hu⟩ := List.getElem?_eq_some_iff.mp h
    have hi' : i - q.length = 0 := by simpa using hi
    refine Or.inr ⟨by omega, ?_⟩
    simpa [hi'] using hu.symm

omit [DecidableEq T] in
theorem takes_concat (es : List (ClientEvent T Word Word Point))
    (e : ClientEvent T Word Word Point) : takes (es ++ [e]) = takes es ++ takes [e] :=
  List.filterMap_append

omit [DecidableEq T] in
theorem admitted_concat (es : List (ClientEvent T Word Word Point))
    (e : ClientEvent T Word Word Point) : admitted (es ++ [e]) = admitted es ++ admitted [e] :=
  List.filterMap_append

/-- A step of `t` does not move the others in or out. -/
theorem filter_inside_setLocal {M : Type*} {s : ThreadState T M (ClientLocal Point Word)}
    (hne : ∀ u ∈ q, u ≠ t) :
    q.filter (fun u => ((s.setLocal t l).locals u).inside) =
      q.filter fun u => (s.locals u).inside := by
  apply List.filter_congr
  intro u hu
  rw [ThreadState.setLocal_of_ne _ (hne u hu)]

/-- A ticket is taken: the thread joins the queue at its end. -/
theorem QueueInv.take (h : lk.QueueInv q es s) (ht : s.locals t = .locking .take)
    (acc : Access Word Word) (r : Reply Word) :
    lk.QueueInv (q ++ [t]) (es ++ [.accessed t (.locking .take) acc r])
      ((s.setMem (Function.update s.mem lk.nextTicketAddr (s.mem lk.nextTicketAddr + 1))).setLocal
        t (.locking (.wait (s.mem lk.nextTicketAddr)))) := by
  have hserv : Function.update s.mem lk.nextTicketAddr (s.mem lk.nextTicketAddr + 1)
      lk.nowServingAddr = s.mem lk.nowServingAddr := Function.update_of_ne lk.distinct.symm _ _
  have htq : t ∉ q := by
    rw [h.mem t, ht]
    exact Bool.false_ne_true
  have hne : ∀ u ∈ q, u ≠ t := by
    rintro u hu rfl
    exact htq hu
  obtain ⟨done, hdone, hadm⟩ := h.order
  refine ⟨?_, ?_, ?_, ?_, ?_, done, ?_, ?_⟩
  · exact h.nodup.append (List.nodup_singleton t) (List.disjoint_singleton.mpr htq)
  · intro u
    by_cases hu : u = t
    · subst hu
      simp [queued]
    · rw [ThreadState.setLocal_of_ne _ hu, ThreadState.setMem_locals, ← h.mem u]
      simp [hu]
  · rw [ThreadState.setLocal_mem, ThreadState.setMem_mem, Function.update_self, hserv, h.next,
      List.length_append, List.length_singleton, ← BitVec.ofNat_add_ofNat, BitVec.add_assoc]
    rfl
  · intro i u my hi hu
    rw [ThreadState.setLocal_mem, ThreadState.setMem_mem, hserv]
    rcases getElem?_concat hi with hi | ⟨rfl, rfl⟩
    · rw [ThreadState.setLocal_of_ne _ (hne u (List.mem_of_getElem? hi))] at hu
      exact h.ticket i u my hi hu
    · rw [ThreadState.setLocal_self] at hu
      have hmy : s.mem lk.nextTicketAddr = my := by simpa using hu
      rw [← hmy, h.next]
  · intro u hu
    have hut : u ≠ t := by
      rintro rfl
      rw [ThreadState.setLocal_self] at hu
      cases hu
    rw [ThreadState.setLocal_of_ne _ hut] at hu
    rw [List.head?_append, h.head u hu]
    rfl
  · rw [takes_concat, hdone, List.append_assoc]
    rfl
  · rw [admitted_concat, hadm, List.filter_append, filter_inside_setLocal hne]
    simp [admitted, ClientLocal.inside]

omit [DecidableEq T] in
/-- Only the head of the queue can find its ticket served. -/
theorem QueueInv.head_of_served [Fintype T] (hcard : Fintype.card T < 2 ^ 32)
    (h : lk.QueueInv q es s) (ht : s.locals t = .locking (.wait (s.mem lk.nowServingAddr))) :
    ∃ rest, q = t :: rest := by
  have htq : t ∈ q := (h.mem t).mpr (by rw [ht]; rfl)
  obtain ⟨i, hi, hget⟩ := List.getElem_of_mem htq
  have hmy := h.ticket i t _ (List.getElem?_eq_some_iff.mpr ⟨hi, hget⟩) ht
  have hlen := h.nodup.length_le_card
  have hzero : BitVec.ofNat 32 i = 0 := by
    have hcancel := congrArg (fun x => x - s.mem lk.nowServingAddr) hmy
    simp only [BitVec.sub_self] at hcancel
    rw [BitVec.add_comm, BitVec.add_sub_cancel] at hcancel
    exact hcancel.symm
  have hi0 : i = 0 := by
    have hnat := congrArg BitVec.toNat hzero
    rw [BitVec.toNat_ofNat, Nat.mod_eq_of_lt (by omega)] at hnat
    exact hnat
  subst hi0
  cases q with
  | nil => cases htq
  | cons u rest => exact ⟨rest, by rw [show u = t from hget]⟩

omit [DecidableEq T] in
/-- With the head waiting, nobody is inside. -/
theorem QueueInv.none_inside {rest : List T} (h : lk.QueueInv (t :: rest) es s)
    (ht : (s.locals t).inside = false) (u : T) : (s.locals u).inside = false := by
  rw [← Bool.not_eq_true]
  intro hu
  obtain rfl := Option.some.inj (h.head u hu)
  rw [ht] at hu
  cases hu

/-- The head of the queue enters. -/
theorem QueueInv.admit {rest : List T} (h : lk.QueueInv (t :: rest) es s)
    (ht : s.locals t = .locking (.wait (s.mem lk.nowServingAddr))) (acc : Access Word Word) :
    lk.QueueInv (t :: rest)
      (es ++ [.accessed t (.locking (.wait (s.mem lk.nowServingAddr))) acc
        (.value (s.mem lk.nowServingAddr))]) (s.setLocal t .entered) := by
  have hnone := h.none_inside (by rw [ht]; rfl)
  have hne : ∀ u ∈ rest, u ≠ t := by
    rintro u hu rfl
    exact (List.nodup_cons.mp h.nodup).1 hu
  obtain ⟨done, hdone, hadm⟩ := h.order
  refine ⟨h.nodup, ?_, h.next, ?_, ?_, done, ?_, ?_⟩
  · intro u
    by_cases hu : u = t
    · subst hu
      simp [queued, ClientLocal.inside]
    · rw [ThreadState.setLocal_of_ne _ hu]
      exact h.mem u
  · intro i u my hi hu
    have hut : u ≠ t := by
      rintro rfl
      rw [ThreadState.setLocal_self] at hu
      cases hu
    rw [ThreadState.setLocal_of_ne _ hut] at hu
    exact h.ticket i u my hi hu
  · intro u hu
    have hut : u = t := by
      by_contra hut
      rw [ThreadState.setLocal_of_ne _ hut, hnone u] at hu
      cases hu
    rw [hut]
    rfl
  · rw [takes_concat, hdone]
    exact List.append_nil _
  · have hold : (t :: rest).filter (fun u => (s.locals u).inside) = [] := by
      simp [hnone]
    have hrest : rest.filter (fun u => (s.locals u).inside) = [] := by
      simp [hnone]
    rw [admitted_concat, hadm, hold, List.filter_cons, filter_inside_setLocal hne, hrest]
    simp [admitted, ClientLocal.inside]

/-- The head of the queue unlocks and the next ticket is served. -/
theorem QueueInv.serve {rest : List T} (h : lk.QueueInv (t :: rest) es s)
    (ht : s.locals t = .leaving) (acc : Access Word Word) (r : Reply Word) :
    lk.QueueInv rest (es ++ [.accessed t .leaving acc r])
      ((s.setMem (Function.update s.mem lk.nowServingAddr
        (s.mem lk.nowServingAddr + 1))).setLocal t .idle) := by
  obtain ⟨htr, hnodup⟩ := List.nodup_cons.mp h.nodup
  have hne : ∀ u ∈ rest, u ≠ t := by
    rintro u hu rfl
    exact htr hu
  have hin : (s.locals t).inside = true := by
    rw [ht]
    rfl
  have hothers : ∀ u, u ≠ t → (s.locals u).inside = false :=
    ThreadState.others_of_unique h.exclusive hin
  have hnext : Function.update s.mem lk.nowServingAddr (s.mem lk.nowServingAddr + 1)
      lk.nextTicketAddr = s.mem lk.nextTicketAddr := Function.update_of_ne lk.distinct _ _
  have hsucc : ∀ k, s.mem lk.nowServingAddr + BitVec.ofNat 32 (k + 1) =
      s.mem lk.nowServingAddr + 1 + BitVec.ofNat 32 k := by
    intro k
    rw [Nat.add_comm, ← BitVec.ofNat_add_ofNat, ← BitVec.add_assoc]
    rfl
  obtain ⟨done, hdone, hadm⟩ := h.order
  refine ⟨hnodup, ?_, ?_, ?_, ?_, done ++ [t], ?_, ?_⟩
  · intro u
    by_cases hu : u = t
    · subst hu
      simp [queued, ClientLocal.inside, htr]
    · have hmem := h.mem u
      rw [List.mem_cons, or_iff_right hu] at hmem
      rw [ThreadState.setLocal_of_ne _ hu]
      exact hmem
  · rw [ThreadState.setLocal_mem, ThreadState.setMem_mem, hnext, Function.update_self, h.next,
      List.length_cons, hsucc]
  · intro i u my hi hu
    rw [ThreadState.setLocal_of_ne _ (hne u (List.mem_of_getElem? hi))] at hu
    rw [ThreadState.setLocal_mem, ThreadState.setMem_mem, Function.update_self, ← hsucc]
    exact h.ticket (i + 1) u my hi hu
  · intro u hu
    by_cases hut : u = t
    · subst hut
      rw [ThreadState.setLocal_self] at hu
      cases hu
    · rw [ThreadState.setLocal_of_ne _ hut] at hu
      have hu' := hothers u hut
      rw [ThreadState.setMem_locals, hu'] at hu
      cases hu
  · rw [takes_concat, hdone]
    simp [takes]
  · have hold : rest.filter (fun u => (s.locals u).inside) = [] := by
      rw [List.filter_eq_nil_iff]
      intro u hu
      rw [hothers u (hne u hu)]
      exact Bool.false_ne_true
    rw [admitted_concat, hadm, List.filter_cons, filter_inside_setLocal hne,
      ThreadState.setMem_locals, hold, hin]
    simp [admitted]

/-- One access of `lock`. -/
theorem QueueInv.lock [Fintype T] (hcard : Fintype.card T < 2 ^ 32) (h : lk.QueueInv q es s)
    {k : Point} (hk : s.locals t = .locking k) :
    ∃ q', lk.QueueInv q' (es ++ [.accessed t (.locking k) (lk.code.next k)
        ((lk.code.next k).exec s.mem).2])
      ((s.setMem ((lk.code.next k).exec s.mem).1).setLocal t
        (LockCode.afterLock (lk.code.resume k ((lk.code.next k).exec s.mem).2))) := by
  cases k with
  | take => exact ⟨q ++ [t], h.take hk _ _⟩
  | wait my =>
    have hexec : (lk.code.next (.wait my)).exec s.mem = _ :=
      Access.exec_read s.mem lk.nowServingAddr
    rw [hexec]
    by_cases hv : s.mem lk.nowServingAddr = my
    · subst hv
      obtain ⟨rest, rfl⟩ := h.head_of_served hcard hk
      have hresume : lk.code.resume (.wait (s.mem lk.nowServingAddr))
          (.value (s.mem lk.nowServingAddr)) = none := if_pos rfl
      rw [hresume]
      exact ⟨t :: rest, h.admit hk _⟩
    · have hresume : lk.code.resume (.wait my) (.value (s.mem lk.nowServingAddr)) =
          some (.wait my) := if_neg hv
      rw [hresume]
      refine ⟨q, h.move (fun _ _ => rfl) (by rw [hk]; rfl) (by rw [hk]; rfl) ?_ rfl ?_⟩
      · intro my' hmy'
        rw [hk, ← hmy']
        rfl
      · simp [admitted, hv]

/-- The queue and the counter, along every run over a flat memory. -/
theorem queueInv_run [Fintype T] (hcard : Fintype.card T < 2 ^ 32) {ctr : Word}
    (hctr : ctr ∉ lk.code.words) {m : Word → Word}
    (h0 : m lk.nextTicketAddr = m lk.nowServingAddr)
    (acts : List (ThreadAction T Unit Word Word)) :
    let es := (lk.code.client ctr).trace .flat (.start (T := T) m .idle) acts
    let s := (lk.code.client ctr).run .flat (.start (T := T) m .idle) acts
    (∃ q, lk.QueueInv q es s) ∧ LockCode.CounterInv ctr (m ctr) es s := by
  refine lk.code.client_invariant (I := fun es s => ∃ q, lk.QueueInv q es s) hctr
    (fun _ _ ⟨_, h⟩ => h.exclusive) ⟨[], ?_⟩ (fun _ => rfl) ?_ ?_ ?_ ?_ ?_ acts
  · refine ⟨List.nodup_nil, ?_, by simpa [ThreadState.start] using h0, by simp, ?_, [], rfl, rfl⟩
    · intro t
      simp [ThreadState.start, queued, ClientLocal.inside]
    · intro t ht
      cases ht
  · rintro es s t ⟨q, h⟩ hidle
    refine ⟨q, h.move (m := s.mem) (fun _ _ => rfl) (by rw [hidle]; rfl) (by rw [hidle]; rfl) ?_
      rfl rfl⟩
    intro my hmy
    cases hmy
  · rintro es s t k ⟨q, h⟩ hk
    exact h.lock hcard hk
  · rintro es s t acc r m l ⟨q, h⟩ hin _ hl hm
    refine ⟨q, h.move hm ?_ (by rw [hin, hl]) ?_ ?_ ?_⟩
    · rw [queued_of_inside hl, queued_of_inside hin]
    · rintro my rfl
      cases hl
    · cases hloc : s.locals t with
      | locking k =>
        rw [hloc] at hin
        cases hin
      | _ => rfl
    · cases hloc : s.locals t with
      | locking k =>
        rw [hloc] at hin
        cases hin
      | _ => rfl
  · rintro es s t ⟨q, h⟩ ht
    have hhead := h.head t (by rw [ht]; rfl)
    cases q with
    | nil => cases hhead
    | cons u rest =>
      obtain rfl := Option.some.inj hhead
      exact ⟨rest, h.serve ht _ _⟩
  · rintro es s t acc r m ⟨q, h⟩ hm
    have hmove := h.move (t := t) (l := s.locals t) (e := .other t acc r) hm rfl rfl
      (fun _ h => h) rfl rfl
    rw [show (s.setMem m).setLocal t (s.locals t) = s.setMem m from
      ThreadState.setLocal_eq_self (s.setMem m) t] at hmove
    exact ⟨q, hmove⟩

omit [DecidableEq T] in
/-- What the queue says about the threads and the two words. -/
theorem QueueInv.facts [Fintype T] (h : lk.QueueInv q es s) :
    admitted es <+: takes es ∧
      s.mem lk.nextTicketAddr - s.mem lk.nowServingAddr =
        BitVec.ofNat 32 (Fintype.card { t // queued (s.locals t) = true }) := by
  classical
  constructor
  · obtain ⟨done, hdone, hadm⟩ := h.order
    rw [hdone, hadm, List.prefix_append_right_inj]
    cases q with
    | nil => exact List.nil_prefix
    | cons u rest =>
      have hrest : rest.filter (fun t => (s.locals t).inside) = [] := by
        rw [List.filter_eq_nil_iff]
        intro v hv hin
        obtain rfl := Option.some.inj (h.head v hin)
        exact (List.nodup_cons.mp h.nodup).1 hv
      rw [List.filter_cons, hrest]
      split
      · exact ⟨rest, rfl⟩
      · exact List.nil_prefix
  · have hlen : Fintype.card { t // queued (s.locals t) = true } = q.length := by
      rw [Fintype.card_of_subtype q.toFinset (by simpa using h.mem),
        List.toFinset_card_of_nodup h.nodup]
    rw [h.next, hlen, BitVec.add_comm, BitVec.add_sub_cancel]

end TicketLock

end MesiCoherence
