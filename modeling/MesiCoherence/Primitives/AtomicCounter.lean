import Mathlib.Algebra.BigOperators.Group.List.Basic
import MesiCoherence.Primitives.Dut

/-!
# Atomic increments of one word

The two ways in which the workers of the atomicity tests increment a counter: one
`fetch_and_add`, or a loop that reads the word and tries a `cas` until it succeeds. Any
number of threads mix them, and other code may do anything to other words, those on the
counter's line included.
-/

namespace MesiCoherence

/-- An increment of the counter by `delta`. -/
inductive Increment where
  | fetchAndAdd (delta : Word)
  | retryLoop (delta : Word)
  deriving DecidableEq, Repr

namespace Increment

def delta : Increment → Word
  | .fetchAndAdd delta => delta
  | .retryLoop delta => delta

/-- The program points of the increments. -/
inductive Point where
  | idle
  | adding (delta : Word)
  | reading (delta : Word)
  | swapping (delta old : Word)
  deriving DecidableEq, Repr

/-- The delta of the increment in progress. -/
def Point.pending : Point → Option Word
  | .idle => none
  | .adding delta => some delta
  | .reading delta => some delta
  | .swapping delta _ => some delta

variable {T : Type*} [DecidableEq T] (ctr : Word)

/-- The increments as code of a thread. A failed `cas` goes back to the read. -/
def code : ThreadCode T Word Word Increment Point where
  command locals t inc :=
    if locals t = .idle then
      match inc with
      | .fetchAndAdd delta => some (.adding delta)
      | .retryLoop delta => some (.reading delta)
    else none
  next
    | .idle => none
    | .adding delta => some (.fetchAndAdd ctr delta)
    | .reading _ => some (.read ctr)
    | .swapping delta old => some (.cas ctr old (old + delta))
  resume
    | .adding _, _ => .idle
    | .reading delta, .value old => .swapping delta old
    | .swapping delta _, .swap _ success => if success then .idle else .reading delta
    | l, _ => l
  foreign acc := acc.keeps ctr

/-- A completed increment, with the value it found. -/
structure Completed where
  delta : Word
  old : Word
  deriving DecidableEq, Repr

omit [DecidableEq T] in
variable (T) in
/-- The increment that an event completes: a `fetch_and_add`, or a `cas` that succeeds. -/
def completed? : ThreadEvent T Increment Word Word Point → Option Completed
  | .accessed _ (.adding delta) _ (.value old) => some ⟨delta, old⟩
  | .accessed _ (.swapping delta old) _ (.swap _ true) => some ⟨delta, old⟩
  | _ => none

/-- The increments that a run has completed, in order. -/
def completedOf (es : List (ThreadEvent T Increment Word Word Point)) : List Completed :=
  es.filterMap (completed? T)

omit [DecidableEq T] in
theorem completedOf_append_none (es : List (ThreadEvent T Increment Word Word Point))
    {e : ThreadEvent T Increment Word Word Point} (he : completed? T e = none) :
    completedOf (es ++ [e]) = completedOf es := by
  simp [completedOf, he]

omit [DecidableEq T] in
theorem completedOf_append_some (es : List (ThreadEvent T Increment Word Word Point))
    {e : ThreadEvent T Increment Word Word Point} (inc : Completed)
    (he : completed? T e = some inc) : completedOf (es ++ [e]) = completedOf es ++ [inc] := by
  simp [completedOf, he]

/-- The sum of the deltas of some increments. -/
def total (incs : List Completed) : Word := (incs.map Completed.delta).sum

/-- The counter holds the sum of the completed increments, and each found the sum of
    those before it. -/
structure CounterInv (init : Word) (incs : List Completed) (m : Word → Word) : Prop where
  value : m ctr = init + total incs
  olds : EachAfter (fun pre inc => inc.old = init + total pre) incs

variable {ctr} {init : Word} {incs : List Completed} {m m' : Word → Word}

theorem CounterInv.keep (h : CounterInv ctr init incs m) (hm : m' ctr = m ctr) :
    CounterInv ctr init incs m' :=
  ⟨hm.trans h.value, h.olds⟩

/-- An access that completes an increment of the value it finds. -/
theorem CounterInv.increment (h : CounterInv ctr init incs m) (delta : Word)
    (hm : m' ctr = m ctr + delta) : CounterInv ctr init (incs ++ [⟨delta, m ctr⟩]) m' := by
  refine ⟨?_, h.olds.concat h.value⟩
  rw [hm, h.value, total, total, List.map_append, List.sum_append, ← add_assoc]
  simp

/-- The counter along every run over a flat memory. -/
theorem counterInv_run (ctr : Word) (m : Word → Word)
    (acts : List (ThreadAction T Increment Word Word)) :
    CounterInv ctr (m ctr) (completedOf ((code ctr).trace .flat (.start (T := T) m .idle) acts))
      ((code ctr).run .flat (.start (T := T) m .idle) acts).mem := by
  refine (code ctr).trace_invariant
    (P := fun es s => CounterInv ctr (m ctr) (completedOf es) s.mem) ⟨?_, EachAfter.nil⟩
    ?_ ?_ ?_ acts
  · simp [total, completedOf, ThreadState.start]
  · intro es s t inc l h _
    rw [completedOf_append_none es rfl]
    exact h
  · intro es s t acc h hnext
    cases hl : s.locals t with
    | idle =>
      rw [hl] at hnext
      cases hnext
    | adding delta =>
      rw [hl] at hnext
      obtain rfl := Option.some.inj hnext
      rw [completedOf_append_some es ⟨delta, s.mem ctr⟩ rfl]
      exact h.increment delta (Function.update_self _ _ _)
    | reading delta =>
      rw [hl] at hnext
      obtain rfl := Option.some.inj hnext
      rw [Access.exec_read, completedOf_append_none es rfl]
      exact h
    | swapping delta old =>
      rw [hl] at hnext
      obtain rfl := Option.some.inj hnext
      by_cases hold : s.mem ctr = old
      · -- the word still holds what the loop read
        subst hold
        rw [Access.exec_cas_of_eq rfl, completedOf_append_some es ⟨delta, s.mem ctr⟩ rfl]
        exact h.increment delta (Function.update_self _ _ _)
      · rw [Access.exec_cas_of_ne hold, completedOf_append_none es rfl]
        exact h
  · intro es s t acc h hforeign
    rw [completedOf_append_none es rfl]
    exact h.keep (Access.exec_apply_of_keeps hforeign s.mem)

/-- An idle thread may begin an increment. -/
def idle (locals : T → Point) (t : T) (_ : Increment) : Bool := locals t = .idle

/-- An increment asks for its delta, and is in progress until it is completed; a `cas` that
    fails leaves it in progress. -/
def agenda (ctr : Word) : Agenda (code (T := T) ctr) Word where
  ready := idle
  work inc := some inc.delta
  done e := (completed? T e).map Completed.delta
  left := Point.pending
  command_ready := by
    intro locals t inc
    simp only [code, idle]
    by_cases hidle : locals t = .idle
    · rw [if_pos hidle, decide_eq_true hidle]
      cases inc <;> rfl
    · rw [if_neg hidle, decide_eq_false hidle]
      rfl
  command_left := by
    intro locals t inc l hcmd
    simp only [code] at hcmd
    split at hcmd
    · next hidle =>
      rw [hidle]
      cases inc <;> cases hcmd <;> exact ⟨rfl, rfl⟩
    · cases hcmd
  access_left := by
    intro t l acc m hnext
    cases l with
    | idle => cases hnext
    | adding delta =>
      obtain rfl := Option.some.inj hnext
      rfl
    | reading delta =>
      obtain rfl := Option.some.inj hnext
      rfl
    | swapping delta old =>
      obtain rfl := Option.some.inj hnext
      by_cases hold : m ctr = old
      · rw [Access.exec_cas_of_eq hold]
        rfl
      · rw [Access.exec_cas_of_ne hold]
        rfl

/-- The deltas that a thread was given, in order, are those of its completed increments,
    followed by that of the increment in progress. -/
theorem given_eq_completed {M : Type*} (memory : CoherentMemory T M Word Word) (ctr : Word)
    (m : M) (acts : List (ThreadAction T Increment Word Word)) (t : T) :
    ((code ctr).given memory idle t (.start m .idle) acts).map delta =
      (completedOf (accessedBy t ((code ctr).trace memory (.start m .idle) acts))).map
          Completed.delta ++
        (((code ctr).run memory (.start m .idle) acts).locals t).pending.toList := by
  have hworked := (agenda ctr).worked_off memory t (.start m .idle) rfl acts
  rw [← List.filterMap_eq_map, completedOf, List.map_filterMap]
  exact hworked

/-- **No atomic increment is lost.** Any threads on any cores, each making any increments
    of one word by `fetch_and_add` or by a `cas` retry loop, in any interleaving with each
    other and with any accesses of other words: at every point every core reads the initial
    value plus the deltas of the completed increments modulo 2^32, and each completed
    increment found the initial value plus the deltas of those completed before it. The
    completed increments of a thread are those it was given, in order and with their deltas,
    up to the one it is making. -/
theorem no_increment_lost {n : ℕ} (core : T → Fin n) (visits : ℕ → (c : Fin n) → VisitOrder c)
    (ctr : Word) (m : DutState n) (acts : List (ThreadAction T Increment Word Word)) :
    let es := (code ctr).trace (dut core visits) (.start m .idle) acts
    let s := (code ctr).run (dut core visits) (.start m .idle) acts
    s.mem.flat ctr = m.flat ctr + ((completedOf es).map Completed.delta).sum ∧
      (∀ (c : Fin n) (visit : VisitOrder c), (s.mem.sys.read visit ctr).2 = s.mem.flat ctr) ∧
      EachAfter (fun pre inc => inc.old = m.flat ctr + (pre.map Completed.delta).sum)
        (completedOf es) ∧
      ∀ t, ((code ctr).given (dut core visits) idle t (.start m .idle) acts).map delta =
        (completedOf (accessedBy t es)).map Completed.delta ++ (s.locals t).pending.toList := by
  intro es s
  have hinv := counterInv_run (T := T) ctr m.flat acts
  have hread : ∀ (c : Fin n) (visit : VisitOrder c),
      (s.mem.sys.read visit ctr).2 = s.mem.flat ctr := by
    intro c visit
    have hreply := (exec_refines s.mem.coherent ⟨c, .read ctr, visit⟩ fun hl => hl.2.2 rfl).2
    rw [Access.exec_read] at hreply
    exact Reply.value.inj hreply
  refine ⟨?_, hread, ?_, fun t => given_eq_completed (dut core visits) ctr m acts t⟩
  · simp only [es, s, dut_trace, dut_flat]
    exact hinv.value
  · simp only [es, dut_trace]
    exact hinv.olds

/-- Thread `a` adds 3 between the read and the `cas` of the loop of thread `b`, which fails and
    adds 5 in its second round. Other code writes the next word, and `b` begins once more. -/
def addBetween {T : Type*} (a b : T) : List (ThreadAction T Increment Word Word) :=
  [.command b (.retryLoop 5), .access b, .command a (.fetchAndAdd 3), .access a, .access b,
    .other a (.write 0x404 9), .access b, .access b, .command b (.retryLoop 7), .access b]

theorem addBetween_not_lost :
    let core : Bool → Fin 2 := fun t => if t then 1 else 0
    let es := (code 0x400).trace (dut core fun _ i => .byIndex i) (.start (.new 2) .idle)
      (addBetween false true)
    let s := (code 0x400).run (dut core fun _ i => .byIndex i) (.start (.new 2) .idle)
      (addBetween false true)
    completedOf es = [⟨3, 0⟩, ⟨5, 3⟩] ∧ s.mem.flat 0x400 = 0 + ([3, 5] : List Word).sum ∧
      (s.mem.sys.read (.byIndex 0) 0x400).2 = s.mem.flat 0x400 ∧
      ([5, 7] : List Word) =
        (completedOf (accessedBy true es)).map Completed.delta ++ (s.locals true).pending.toList ∧
      s.locals true = .swapping 7 8 := by
  obtain ⟨hvalue, hread, -, hgiven⟩ := no_increment_lost (fun t : Bool => if t then 1 else 0)
    (fun _ i => .byIndex i) 0x400 (.new 2) (addBetween false true)
  refine ⟨by decide +kernel, hvalue.trans (by decide +kernel), hread 0 (.byIndex 0),
    Eq.trans (by decide +kernel) (hgiven true), by decide +kernel⟩

end Increment

end MesiCoherence
