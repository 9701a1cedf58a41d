import MesiCoherence.Lib.SharedObject

/-!
# Threads over a coherent memory

Any number of threads run the same code over one shared memory. A thread waits for a
command, or performs the next atomic access of its code; between two accesses anything
else may run, also code outside the modelled one, whose accesses are restricted to
those that the modelled code allows it. What happens is recorded as a list of events.

## Main definitions

- `CoherentMemory` — a memory with the behaviour of a flat one
- `ThreadCode` — the code of the threads
- `ThreadCode.machine`, `ThreadCode.trace` — all interleavings, and their events
- `ThreadCode.given` — the commands that the actions of a run give to a thread
- `Agenda` — what commands ask for, what accesses carry out, and what is left to do

## Main results

- `ThreadCode.trace_invariant`, `ThreadCode.trace_invariant_while` — the invariant rules, over
  a flat memory
- `ThreadCode.trace_view`, `ThreadCode.run_locals`, `ThreadCode.view_run_mem` — a run over a
  coherent memory has the events and local states of the run over its view
- `ObjectCode.step_view` — the same for one step of an object's code
- `Agenda.worked_off` — a thread carries out what it is given, in order
-/

/-- A memory with a flat view that every access respects. -/
structure CoherentMemory (T M A V : Type*) [DecidableEq A] [DecidableEq V] [Add V] extends
    SharedMemory T M A V where
  view : M → A → V
  view_exec : ∀ m t acc, view (exec m t acc).1 = (acc.exec (view m)).1
  reply_exec : ∀ m t acc, (exec m t acc).2 = (acc.exec (view m)).2

/-- The code of a thread between its accesses. -/
structure ThreadCode (T A V C L : Type*) where
  /-- the local state in which a command starts, if the callers may give it now -/
  command : (T → L) → T → C → Option L
  /-- the access at a program point; `none` waits for a command -/
  next : L → Option (Access A V)
  resume : L → Reply V → L
  /-- the accesses that other code may make -/
  foreign : Access A V → Bool

/-- The shared memory and the local states. -/
structure ThreadState (T M L : Type*) where
  mem : M
  locals : T → L

inductive ThreadAction (T C A V : Type*) where
  | command (t : T) (c : C)
  | access (t : T)
  | other (t : T) (acc : Access A V)

/-- What a step shows; an access shows the program point it was made from. -/
inductive ThreadEvent (T C A V L : Type*) where
  | commanded (t : T) (c : C)
  | accessed (t : T) (l : L) (acc : Access A V) (reply : Reply V)
  | other (t : T) (acc : Access A V) (reply : Reply V)
  deriving DecidableEq

variable {T M A V C L : Type*}

/-- Every element of a list is related to the elements before it. -/
def EachAfter {α : Type*} (Q : List α → α → Prop) (es : List α) : Prop :=
  ∀ pre e post, es = pre ++ e :: post → Q pre e

theorem EachAfter.nil {α : Type*} {Q : List α → α → Prop} : EachAfter Q [] := by
  intro pre e post h
  simp at h

/-- An element of a longer list is the new last one, or was there before. -/
theorem concat_eq_append_cons {α : Type*} {es pre post : List α} {e f : α} :
    es ++ [e] = pre ++ f :: post ↔
      pre = es ∧ f = e ∧ post = [] ∨ ∃ post', post = post' ++ [e] ∧ es = pre ++ f :: post' := by
  constructor
  · intro h
    rcases List.eq_nil_or_concat post with rfl | ⟨post', x, rfl⟩
    · obtain ⟨rfl, hf⟩ := List.append_inj' h rfl
      exact Or.inl ⟨rfl, (List.cons.inj hf).1.symm, rfl⟩
    · have h' : es ++ [e] = (pre ++ f :: post') ++ [x] := by simpa using h
      obtain ⟨hes, hx⟩ := List.append_inj' h' rfl
      obtain rfl := (List.cons.inj hx).1
      exact Or.inr ⟨post', by simp, hes⟩
  · rintro (⟨rfl, rfl, rfl⟩ | ⟨post', rfl, rfl⟩)
    · rfl
    · simp

theorem EachAfter.concat {α : Type*} {Q : List α → α → Prop} {es : List α} {e : α}
    (h : EachAfter Q es) (he : Q es e) : EachAfter Q (es ++ [e]) := by
  intro pre f post hsplit
  rcases concat_eq_append_cons.mp hsplit with ⟨rfl, rfl, -⟩ | ⟨post', -, hes⟩
  · exact he
  · exact h pre f post' hes

/-- The flat memory itself. -/
def CoherentMemory.flat [DecidableEq A] [DecidableEq V] [Add V] :
    CoherentMemory T (A → V) A V where
  exec := SharedMemory.flat.exec
  view m := m
  view_exec _ _ _ := rfl
  reply_exec _ _ _ := rfl

namespace ThreadState

variable [DecidableEq T]

/-- Thread `t` is now at local state `l`. -/
def setLocal (s : ThreadState T M L) (t : T) (l : L) : ThreadState T M L :=
  { s with locals := Function.update s.locals t l }

@[simp] theorem setLocal_mem (s : ThreadState T M L) (t : T) (l : L) :
    (s.setLocal t l).mem = s.mem := rfl

@[simp] theorem setLocal_self (s : ThreadState T M L) (t : T) (l : L) :
    (s.setLocal t l).locals t = l := Function.update_self _ _ _

@[simp] theorem setLocal_of_ne (s : ThreadState T M L) {t u : T} (h : u ≠ t) (l : L) :
    (s.setLocal t l).locals u = s.locals u := Function.update_of_ne h _ _

@[simp] theorem setLocal_eq_self (s : ThreadState T M L) (t : T) :
    s.setLocal t (s.locals t) = s := by
  simp [setLocal]

/-- The memory is now `m`. -/
def setMem {N : Type*} (s : ThreadState T M L) (m : N) : ThreadState T N L := ⟨m, s.locals⟩

omit [DecidableEq T] in
@[simp] theorem setMem_mem {N : Type*} (s : ThreadState T M L) (m : N) : (s.setMem m).mem = m :=
  rfl

omit [DecidableEq T] in
@[simp] theorem setMem_locals {N : Type*} (s : ThreadState T M L) (m : N) :
    (s.setMem m).locals = s.locals := rfl

/-- What holds of the moving thread and of the others holds of all. -/
theorem forall_setLocal {s : ThreadState T M L} {t : T} {l : L} {P : T → L → Prop} (ht : P t l)
    (hothers : ∀ u, u ≠ t → P u (s.locals u)) (u : T) : P u ((s.setLocal t l).locals u) :=
  (Function.forall_update_iff s.locals P).mpr ⟨ht, hothers⟩ u

/-- What the moving thread keeps is kept. -/
theorem setLocal_congr {α : Type*} {s : ThreadState T M L} {t : T} {l : L} {f : L → α}
    (h : f l = f (s.locals t)) (u : T) : f ((s.setLocal t l).locals u) = f (s.locals u) :=
  forall_setLocal (P := fun u l => f l = f (s.locals u)) h (fun _ _ => rfl) u

omit [DecidableEq T] in
/-- When `p` holds of one thread at most, it fails for the others. -/
theorem others_of_unique {s : ThreadState T M L} {t : T} {p : L → Bool}
    (h : ∀ t u, p (s.locals t) = true → p (s.locals u) = true → t = u)
    (ht : p (s.locals t) = true) (u : T) (hu : u ≠ t) : p (s.locals u) = false :=
  eq_false_of_ne_true fun hpu => hu (h u t hpu ht)

/-- When `p` fails for the others, it holds of one thread at most after a step of `t`. -/
theorem unique_setLocal {s : ThreadState T M L} {t : T} {l : L} {p : L → Bool}
    (h : ∀ u, u ≠ t → p (s.locals u) = false) (u v : T)
    (hu : p ((s.setLocal t l).locals u) = true) (hv : p ((s.setLocal t l).locals v) = true) :
    u = v := by
  have honly : ∀ u, p ((s.setLocal t l).locals u) = true → u = t := by
    intro u hu
    by_contra hut
    rw [setLocal_of_ne s hut, h u hut] at hu
    cases hu
  rw [honly u hu, honly v hv]

/-- When `p` holds of one thread at most, it does so after a step of a thread for which it
    did not begin to hold. -/
theorem unique_setLocal_of_imp {s : ThreadState T M L} {t : T} {l : L} {p : L → Bool}
    (h : ∀ t u, p (s.locals t) = true → p (s.locals u) = true → t = u)
    (hl : p l = true → p (s.locals t) = true) (u v : T)
    (hu : p ((s.setLocal t l).locals u) = true) (hv : p ((s.setLocal t l).locals v) = true) :
    u = v := by
  have hold : ∀ u, p ((s.setLocal t l).locals u) = true → p (s.locals u) = true :=
    forall_setLocal (P := fun u l => p l = true → p (s.locals u) = true) hl fun _ _ h => h
  exact h u v (hold u hu) (hold v hv)

/-- All threads at one local state. -/
def start (m : M) (l : L) : ThreadState T M L := ⟨m, fun _ => l⟩

end ThreadState

namespace ThreadCode

variable [DecidableEq T] [DecidableEq A] [DecidableEq V] [Add V] (code : ThreadCode T A V C L)
  (memory : CoherentMemory T M A V)

/-- One step; an action that cannot be taken leaves everything unchanged. -/
def step (s : ThreadState T M L) :
    ThreadAction T C A V → ThreadState T M L × List (ThreadEvent T C A V L)
  | .command t c =>
    match code.command s.locals t c with
    | some l => (s.setLocal t l, [.commanded t c])
    | none => (s, [])
  | .access t =>
    match code.next (s.locals t) with
    | some acc =>
      let r := memory.exec s.mem t acc
      ((s.setMem r.1).setLocal t (code.resume (s.locals t) r.2),
        [.accessed t (s.locals t) acc r.2])
    | none => (s, [])
  | .other t acc =>
    if code.foreign acc then
      let r := memory.exec s.mem t acc
      (s.setMem r.1, [.other t acc r.2])
    else (s, [])

/-- All interleavings of the threads' steps. -/
def machine : Machine (ThreadState T M L) (ThreadAction T C A V)
    (List (ThreadEvent T C A V L)) :=
  ⟨code.step memory⟩

/-- The state after a run. -/
def run (s : ThreadState T M L) (acts : List (ThreadAction T C A V)) : ThreadState T M L :=
  (code.machine memory).run s acts

/-- The events of a run, oldest first. -/
def trace (s : ThreadState T M L) (acts : List (ThreadAction T C A V)) :
    List (ThreadEvent T C A V L) :=
  ((code.machine memory).outputs s acts).flatten

/-- A run in two parts. -/
theorem run_append (s : ThreadState T M L) (acts acts' : List (ThreadAction T C A V)) :
    code.run memory s (acts ++ acts') = code.run memory (code.run memory s acts) acts' :=
  Machine.run_append _ _ _ _

theorem trace_append (s : ThreadState T M L) (acts acts' : List (ThreadAction T C A V)) :
    code.trace memory s (acts ++ acts') =
      code.trace memory s acts ++ code.trace memory (code.run memory s acts) acts' := by
  rw [trace, Machine.outputs_append, List.flatten_append]
  rfl

/-- **Invariant rule**, for runs on which `Q` holds of every state. A property of the events
    so far and the state that commands, accesses and foreign accesses keep holds at the
    end of the run. -/
theorem trace_invariant_while {P : List (ThreadEvent T C A V L) → ThreadState T (A → V) L → Prop}
    {Q : ThreadState T (A → V) L → Prop} {s₀ : ThreadState T (A → V) L} (h0 : P [] s₀)
    (hcommand : ∀ es s t c l, P es s → code.command s.locals t c = some l →
      P (es ++ [.commanded t c]) (s.setLocal t l))
    (haccess : ∀ es s t acc, P es s → Q s → code.next (s.locals t) = some acc →
      P (es ++ [.accessed t (s.locals t) acc (acc.exec s.mem).2])
        ((s.setMem (acc.exec s.mem).1).setLocal t (code.resume (s.locals t) (acc.exec s.mem).2)))
    (hother : ∀ es s t acc, P es s → code.foreign acc = true →
      P (es ++ [.other t acc (acc.exec s.mem).2]) (s.setMem (acc.exec s.mem).1))
    (acts : List (ThreadAction T C A V))
    (hok : ∀ pre, pre <+: acts → Q (code.run .flat s₀ pre)) :
    P (code.trace .flat s₀ acts) (code.run .flat s₀ acts) := by
  induction acts using List.reverseRecOn with
  | nil => exact h0
  | append_singleton acts act ih =>
    have hP := ih fun pre hpre => hok pre (hpre.trans (List.prefix_append _ _))
    have hnow : Q (code.run .flat s₀ acts) := hok acts (List.prefix_append _ _)
    have hlast : code.trace .flat (code.run .flat s₀ acts) [act] =
        (code.step .flat (code.run .flat s₀ acts) act).2 := List.append_nil _
    have hrun : code.run .flat (code.run .flat s₀ acts) [act] =
        (code.step .flat (code.run .flat s₀ acts) act).1 := rfl
    rw [trace_append, run_append, hlast, hrun]
    cases act with
    | command t c =>
      unfold step
      dsimp only
      split
      · next l hl => exact hcommand _ _ _ _ _ hP hl
      · simpa using hP
    | access t =>
      unfold step
      dsimp only
      split
      · next acc hacc => exact haccess _ _ _ _ hP hnow hacc
      · simpa using hP
    | other t acc =>
      unfold step
      dsimp only
      split
      · next hf => exact hother _ _ _ _ hP hf
      · simpa using hP

/-- The invariant rule for all runs. -/
theorem trace_invariant {P : List (ThreadEvent T C A V L) → ThreadState T (A → V) L → Prop}
    {s₀ : ThreadState T (A → V) L} (h0 : P [] s₀)
    (hcommand : ∀ es s t c l, P es s → code.command s.locals t c = some l →
      P (es ++ [.commanded t c]) (s.setLocal t l))
    (haccess : ∀ es s t acc, P es s → code.next (s.locals t) = some acc →
      P (es ++ [.accessed t (s.locals t) acc (acc.exec s.mem).2])
        ((s.setMem (acc.exec s.mem).1).setLocal t (code.resume (s.locals t) (acc.exec s.mem).2)))
    (hother : ∀ es s t acc, P es s → code.foreign acc = true →
      P (es ++ [.other t acc (acc.exec s.mem).2]) (s.setMem (acc.exec s.mem).1))
    (acts : List (ThreadAction T C A V)) :
    P (code.trace .flat s₀ acts) (code.run .flat s₀ acts) :=
  code.trace_invariant_while (Q := fun _ => True) h0 hcommand
    (fun es s t acc h _ => haccess es s t acc h) hother acts fun _ _ => trivial

/-- Equal actions keep a coherent memory and its view in step. -/
theorem simulates_view (s : ThreadState T M L) (acts : List (ThreadAction T C A V)) :
    (code.run memory s acts).setMem (memory.view (code.run memory s acts).mem) =
        code.run .flat (s.setMem (memory.view s.mem)) acts ∧
      (code.machine memory).outputs s acts =
        (code.machine .flat).outputs (s.setMem (memory.view s.mem)) acts := by
  refine Machine.simulation
    (R := fun (s : ThreadState T M L) s' => s.setMem (memory.view s.mem) = s') ?_ rfl acts
  rintro s _ act rfl
  cases act with
  | command t c =>
    simp only [machine, step, ThreadState.setMem_locals]
    cases code.command s.locals t c <;> exact ⟨rfl, rfl⟩
  | access t =>
    simp only [machine, step, ThreadState.setMem_locals]
    cases code.next (s.locals t) with
    | none => exact ⟨rfl, rfl⟩
    | some acc =>
      have hview := memory.view_exec s.mem t acc
      have hreply := memory.reply_exec s.mem t acc
      constructor
      · simp only [ThreadState.setLocal, ThreadState.setMem, hview, hreply]
        rfl
      · simp only [hreply]
        rfl
  | other t acc =>
    simp only [machine, step]
    cases code.foreign acc with
    | false => exact ⟨rfl, rfl⟩
    | true =>
      have hview := memory.view_exec s.mem t acc
      have hreply := memory.reply_exec s.mem t acc
      constructor
      · simp only [ThreadState.setMem, hview, if_true]
        rfl
      · simp only [hreply, if_true]
        rfl

/-- A run over a coherent memory shows the events of the run over its view. -/
theorem trace_view (m : M) (l : L) (acts : List (ThreadAction T C A V)) :
    code.trace memory (.start m l) acts = code.trace .flat (.start (memory.view m) l) acts :=
  congrArg List.flatten (code.simulates_view memory (.start m l) acts).2

/-- It reaches the same local states. -/
theorem run_locals (m : M) (l : L) (acts : List (ThreadAction T C A V)) :
    (code.run memory (.start m l) acts).locals =
      (code.run .flat (.start (memory.view m) l) acts).locals :=
  congrArg ThreadState.locals (code.simulates_view memory (.start m l) acts).1

/-- It reaches a memory with the same view. -/
theorem view_run_mem (m : M) (l : L) (acts : List (ThreadAction T C A V)) :
    memory.view (code.run memory (.start m l) acts).mem =
      (code.run .flat (.start (memory.view m) l) acts).mem :=
  congrArg ThreadState.mem (code.simulates_view memory (.start m l) acts).1

/-- The commands given to thread `t` along a run at moments at which it is `ready` for them. -/
def given (ready : (T → L) → T → C → Bool) (t : T) (s : ThreadState T M L)
    (acts : List (ThreadAction T C A V)) : List C :=
  (code.machine memory).collect (fun s => fun
    | .command u c => if u = t ∧ ready s.locals u c = true then [c] else []
    | _ => []) s acts

end ThreadCode

/-- The accesses of thread `t`. -/
def accessedBy [DecidableEq T] (t : T) (es : List (ThreadEvent T C A V L)) :
    List (ThreadEvent T C A V L) :=
  es.filter fun
    | .accessed u _ _ _ => u = t
    | _ => false

/-- What a command asks for, what an access carries out of it, and what is left to do at a
    program point. -/
structure Agenda [DecidableEq A] [DecidableEq V] [Add V] (code : ThreadCode T A V C L)
    (α : Type*) where
  /-- when a command is taken -/
  ready : (T → L) → T → C → Bool
  work : C → Option α
  done : ThreadEvent T C A V L → Option α
  left : L → Option α
  command_ready : ∀ locals t c, (code.command locals t c).isSome = ready locals t c
  command_left : ∀ locals t c l, code.command locals t c = some l →
    left (locals t) = none ∧ left l = work c
  access_left : ∀ t l acc m, code.next l = some acc →
    (left l).toList = (done (.accessed t l acc (acc.exec m).2)).toList ++
      (left (code.resume l (acc.exec m).2)).toList

namespace Agenda

variable [DecidableEq T] [DecidableEq A] [DecidableEq V] [Add V] {code : ThreadCode T A V C L}
  {α : Type*} (agenda : Agenda code α) (memory : CoherentMemory T M A V)

/-- One action: what was left and what is given is carried out or left. -/
theorem worked_off_step (t : T) (s : ThreadState T M L) (act : ThreadAction T C A V) :
    (agenda.left (s.locals t)).toList ++
        (code.given memory agenda.ready t s [act]).filterMap agenda.work =
      (accessedBy t (code.step memory s act).2).filterMap agenda.done ++
        (agenda.left ((code.step memory s act).1.locals t)).toList := by
  cases act with
  | command u c =>
    have hready := agenda.command_ready s.locals u c
    cases hcmd : code.command s.locals u c with
    | none =>
      rw [hcmd] at hready
      simp [ThreadCode.given, Machine.collect, ThreadCode.step, hcmd, ← hready, accessedBy]
    | some l =>
      obtain ⟨hfree, hwork⟩ := agenda.command_left _ _ _ _ hcmd
      rw [hcmd] at hready
      by_cases hu : u = t
      · subst hu
        cases hw : agenda.work c <;>
          simp [ThreadCode.given, Machine.collect, ThreadCode.step, hcmd, ← hready, accessedBy,
            hfree, hwork, hw]
      · simp [ThreadCode.given, Machine.collect, ThreadCode.step, hcmd, accessedBy, hu,
          ThreadState.setLocal_of_ne _ (Ne.symm hu)]
  | access u =>
    have hgiven : code.given memory agenda.ready t s [.access u] = [] := rfl
    rw [hgiven, List.filterMap_nil, List.append_nil]
    cases hnext : code.next (s.locals u) with
    | none => simp [ThreadCode.step, hnext, accessedBy]
    | some acc =>
      by_cases hu : u = t
      · subst hu
        have hleft := agenda.access_left u _ acc (memory.view s.mem) hnext
        rw [← memory.reply_exec] at hleft
        simp only [ThreadCode.step, hnext, accessedBy, ThreadState.setLocal_self]
        rw [hleft, List.filter_cons_of_pos (by simp), List.filter_nil, List.filterMap_cons,
          List.filterMap_nil]
        cases agenda.done _ <;> rfl
      · simp [ThreadCode.step, hnext, accessedBy, hu, ThreadState.setLocal_of_ne _ (Ne.symm hu)]
  | other u acc =>
    have hgiven : code.given memory agenda.ready t s [.other u acc] = [] := rfl
    rw [hgiven, List.filterMap_nil, List.append_nil]
    simp only [ThreadCode.step]
    split <;> simp [accessedBy]

/-- **Commands are carried out in order**: what the actions give to a thread is what its
    accesses have carried out, followed by what is left at its program point. -/
theorem worked_off (t : T) (s : ThreadState T M L) (hs : agenda.left (s.locals t) = none)
    (acts : List (ThreadAction T C A V)) :
    (code.given memory agenda.ready t s acts).filterMap agenda.work =
      (accessedBy t (code.trace memory s acts)).filterMap agenda.done ++
        (agenda.left ((code.run memory s acts).locals t)).toList := by
  induction acts using List.reverseRecOn with
  | nil =>
    simp [ThreadCode.given, Machine.collect, ThreadCode.trace, ThreadCode.run, accessedBy, hs]
  | append_singleton acts act ih =>
    have hstep := agenda.worked_off_step memory t (code.run memory s acts) act
    have hlast : code.trace memory (code.run memory s acts) [act] =
        (code.step memory (code.run memory s acts) act).2 := List.append_nil _
    have hrun : code.run memory (code.run memory s acts) [act] =
        (code.step memory (code.run memory s acts) act).1 := rfl
    have hgiven : code.given memory agenda.ready t s (acts ++ [act]) =
        code.given memory agenda.ready t s acts ++
          code.given memory agenda.ready t (code.run memory s acts) [act] :=
      Machine.collect_append _ _ _ _ _
    rw [ThreadCode.trace_append, ThreadCode.run_append, hlast, hrun, hgiven, accessedBy,
      List.filter_append, List.filterMap_append, List.filterMap_append, List.append_assoc]
    exact (congrArg (· ++ _) ih).trans ((List.append_assoc _ _ _).trans (congrArg _ hstep))

end Agenda

namespace ObjectCode

variable [DecidableEq T] [DecidableEq A] [DecidableEq V] [Add V] {Op Res : Type*}
  (code : ObjectCode A V Op Res L) (memory : CoherentMemory T M A V)
  (commit : L → (A → V) → Option Res)

/-- An object over a coherent memory takes the steps of the object over its view. -/
theorem step_view (s : ObjectState T M Op L) (act : ObjectAction T Op) :
    let r := code.step memory.toSharedMemory (fun l m => commit l (memory.view m)) s act
    code.step .flat commit ⟨memory.view s.mem, s.running⟩ act =
      (⟨memory.view r.1.mem, r.1.running⟩, r.2) := by
  cases act with
  | invoke t op =>
    simp only [step]
    cases s.running t <;> rfl
  | step t =>
    simp only [step]
    cases s.running t with
    | none => rfl
    | some c =>
      obtain ⟨op, l⟩ := c
      dsimp only
      cases code.next l with
      | inr res => rfl
      | inl acc =>
        dsimp only
        rw [memory.view_exec, memory.reply_exec]
        rfl

end ObjectCode
