import Mathlib.Data.List.Basic
import Mathlib.Data.List.Infix
import Mathlib.Logic.Function.Basic

/-!
# Sequential consistency of programs of loads and stores

A family of programs, one per thread, is sequentially consistent when its events
can be put in one total order that restricts to each program and in which every
load returns the latest preceding store to its address.

## Main definitions

- `lastStore` — the value of the latest store to an address, or a default
- `LegalOrder` — every load of an order returns the latest preceding store
- `SequentiallyConsistent` — some legal order restricts to every program
- `LegalFrom` — the same legality as a replay on a memory
- `Serializable` — some order of the programs' events replays on a memory

## Main results

- `serializable_iff` — one step of a search for such an order

- `LegalOrder.append_load`, `LegalOrder.append_stores` — how a legal order grows
- `SequentiallyConsistent.no_store_buffering` — the store-buffering litmus
-/

/-- A program-level memory event: a load with the value it returned, or a store. -/
inductive MemEvent (A V : Type*) where
  | load (addr : A) (value : V)
  | store (addr : A) (value : V)
  deriving DecidableEq, Repr

variable {T A V : Type*} [DecidableEq T] [DecidableEq A]

/-- The value a store event gives to an address. -/
def MemEvent.storeTo? (a : A) : MemEvent A V → Option V
  | .load _ _ => none
  | .store b v => if b = a then some v else none

theorem MemEvent.storeTo?_eq_some {a : A} {e : MemEvent A V} {v : V} :
    e.storeTo? a = some v ↔ e = .store a v := by
  cases e with
  | load b w => simp [MemEvent.storeTo?]
  | store b w => by_cases hb : b = a <;> simp [MemEvent.storeTo?, hb]

/-- The value of the latest store to `a` in a sequence of events, `init` if none. -/
def lastStore (init : V) (es : List (T × MemEvent A V)) (a : A) : V :=
  (es.filterMap (fun e => e.2.storeTo? a)).getLast?.getD init

/-- The events of one thread, in order. -/
def threadEvents (t : T) (es : List (T × MemEvent A V)) : List (MemEvent A V) :=
  es.filterMap (fun e => if e.1 = t then some e.2 else none)

/-- Every load returns the latest preceding store to its address, or `init`. -/
def LegalOrder (init : V) (es : List (T × MemEvent A V)) : Prop :=
  ∀ pre t a v post, es = pre ++ (t, .load a v) :: post → v = lastStore init pre a

/-- Some legal total order of all events restricts to every thread's program. -/
def SequentiallyConsistent (init : V) (prog : T → List (MemEvent A V)) : Prop :=
  ∃ order : List (T × MemEvent A V),
    (∀ t, threadEvents t order = prog t) ∧ LegalOrder init order

omit [DecidableEq A] in
theorem threadEvents_append (t : T) (es fs : List (T × MemEvent A V)) :
    threadEvents t (es ++ fs) = threadEvents t es ++ threadEvents t fs :=
  List.filterMap_append

omit [DecidableEq A] in
theorem threadEvents_cons_self (t : T) (e : MemEvent A V) (es : List (T × MemEvent A V)) :
    threadEvents t ((t, e) :: es) = e :: threadEvents t es := by
  simp [threadEvents]

omit [DecidableEq A] in
theorem threadEvents_cons_of_ne {t u : T} (h : u ≠ t) (e : MemEvent A V)
    (es : List (T × MemEvent A V)) : threadEvents u ((t, e) :: es) = threadEvents u es := by
  simp [threadEvents, Ne.symm h]

omit [DecidableEq A] in
theorem threadEvents_filter (t : T) (p : T × MemEvent A V → Bool)
    (es : List (T × MemEvent A V)) :
    threadEvents t (es.filter p) = (threadEvents t es).filter fun e => p (t, e) := by
  induction es with
  | nil => rfl
  | cons x es ih =>
    obtain ⟨u, e⟩ := x
    by_cases hut : u = t
    · subst hut
      rw [threadEvents_cons_self]
      by_cases hp : p (u, e) = true
      · rw [List.filter_cons_of_pos hp, List.filter_cons_of_pos (p := fun e => p (u, e)) hp,
          threadEvents_cons_self, ih]
      · rw [List.filter_cons_of_neg hp, List.filter_cons_of_neg (p := fun e => p (u, e)) hp, ih]
    · rw [threadEvents_cons_of_ne (Ne.symm hut)]
      by_cases hp : p (u, e) = true
      · rw [List.filter_cons_of_pos hp, threadEvents_cons_of_ne (Ne.symm hut), ih]
      · rw [List.filter_cons_of_neg hp, ih]

-- ════════════════════════════════════════════════════════════════════════
-- Replay
-- ════════════════════════════════════════════════════════════════════════

/-- The memory after an event. -/
def MemEvent.apply (m : A → V) : MemEvent A V → (A → V)
  | .load _ _ => m
  | .store a v => Function.update m a v

/-- May the event happen in a memory? A load must find its value. -/
def MemEvent.Allowed (m : A → V) : MemEvent A V → Prop
  | .load a v => v = m a
  | .store _ _ => True

/-- Every load finds its value when the events are replayed on a memory. -/
def LegalFrom : (A → V) → List (T × MemEvent A V) → Prop
  | _, [] => True
  | m, e :: es => e.2.Allowed m ∧ LegalFrom (e.2.apply m) es

/-- The memory after a replay. -/
def replayed (m : A → V) (es : List (T × MemEvent A V)) : A → V :=
  es.foldl (fun m e => e.2.apply m) m

omit [DecidableEq T] in
theorem replayed_append (m : A → V) (es fs : List (T × MemEvent A V)) :
    replayed m (es ++ fs) = replayed (replayed m es) fs := List.foldl_append

omit [DecidableEq T] in
theorem legalFrom_append (m : A → V) (es fs : List (T × MemEvent A V)) :
    LegalFrom m (es ++ fs) ↔ LegalFrom m es ∧ LegalFrom (replayed m es) fs := by
  induction es generalizing m with
  | nil => simp [LegalFrom, replayed]
  | cons e es ih =>
    rw [List.cons_append, LegalFrom, ih, LegalFrom, and_assoc]
    rfl

/-- Some order of the programs' events replays on the memory. -/
def Serializable (m : A → V) (progs : T → List (MemEvent A V)) : Prop :=
  ∃ order : List (T × MemEvent A V),
    (∀ t, threadEvents t order = progs t) ∧ LegalFrom m order

/-- **One step of the search.** Either no event is left, or some thread's next event can
    happen now and the rest can be put in order after it. -/
theorem serializable_iff (m : A → V) (progs : T → List (MemEvent A V)) :
    Serializable m progs ↔ (∀ t, progs t = []) ∨
      ∃ t e rest, progs t = e :: rest ∧ e.Allowed m ∧
        Serializable (e.apply m) (Function.update progs t rest) := by
  constructor
  · rintro ⟨order, hproj, hlegal⟩
    cases order with
    | nil => exact Or.inl fun t => (hproj t).symm
    | cons x order =>
      obtain ⟨t, e⟩ := x
      refine Or.inr ⟨t, e, threadEvents t order, ?_, hlegal.1, order, fun u => ?_, hlegal.2⟩
      · rw [← hproj t, threadEvents_cons_self]
      · by_cases hu : u = t
        · subst hu
          rw [Function.update_self]
        · rw [Function.update_of_ne hu, ← hproj u, threadEvents_cons_of_ne hu]
  · rintro (hnil | ⟨t, e, rest, hprog, hallowed, order, hproj, hlegal⟩)
    · exact ⟨[], fun t => (hnil t).symm, trivial⟩
    · refine ⟨(t, e) :: order, fun u => ?_, hallowed, hlegal⟩
      by_cases hu : u = t
      · subst hu
        rw [threadEvents_cons_self, hproj, Function.update_self, hprog]
      · rw [threadEvents_cons_of_ne hu, hproj, Function.update_of_ne hu]

/-- An order in hand is an answer to the search, under any naming of its threads. -/
theorem serializable_of_legalFrom {U : Type*} [DecidableEq U] {f : U → T}
    (hf : Function.Injective f) {m : A → V} {order : List (T × MemEvent A V)}
    (hrange : ∀ e ∈ order, ∃ u, f u = e.1) (hlegal : LegalFrom m order) :
    Serializable m fun u => threadEvents (f u) order := by
  induction order generalizing m with
  | nil => exact (serializable_iff m _).mpr (Or.inl fun _ => rfl)
  | cons x order ih =>
    obtain ⟨t, e⟩ := x
    obtain ⟨u, rfl⟩ := hrange _ List.mem_cons_self
    have hrest := ih (fun e he => hrange e (List.mem_cons_of_mem _ he)) hlegal.2
    refine (serializable_iff m _).mpr (Or.inr ⟨u, e, threadEvents (f u) order,
      threadEvents_cons_self _ _ _, hlegal.1, ?_⟩)
    have hupd : Function.update (fun v => threadEvents (f v) ((f u, e) :: order)) u
        (threadEvents (f u) order) = fun v => threadEvents (f v) order := by
      funext v
      by_cases hv : v = u
      · subst hv
        rw [Function.update_self]
      · rw [Function.update_of_ne hv, threadEvents_cons_of_ne (hf.ne hv)]
    rw [hupd]
    exact hrest

namespace LegalOrder

variable {init : V} {es : List (T × MemEvent A V)}

omit [DecidableEq T] in
theorem nil : LegalOrder init ([] : List (T × MemEvent A V)) := by
  intro pre t a v post h
  simp at h

omit [DecidableEq T] in
/-- A load of the current value may be appended. -/
theorem append_load (h : LegalOrder init es) (t : T) {a : A} {v : V}
    (hv : v = lastStore init es a) : LegalOrder init (es ++ [(t, .load a v)]) := by
  intro pre t' a' v' post he
  rcases List.eq_nil_or_concat post with rfl | ⟨post', x, rfl⟩
  · obtain ⟨rfl, hl⟩ := List.append_inj' he rfl
    cases hl
    exact hv
  · have he' : es ++ [(t, .load a v)] = (pre ++ (t', .load a' v') :: post') ++ [x] := by
      simpa using he
    exact h pre t' a' v' post' (List.append_inj' he' rfl).1

omit [DecidableEq T] in
/-- Stores may be appended freely. -/
theorem append_stores (h : LegalOrder init es) {fs : List (T × MemEvent A V)}
    (hfs : ∀ e ∈ fs, ∃ a v, e.2 = .store a v) : LegalOrder init (es ++ fs) := by
  intro pre t a v post he
  rcases List.append_eq_append_iff.mp he with ⟨mid, rfl, hf⟩ | ⟨mid, rfl, hm⟩
  · -- the load would lie among the appended stores
    obtain ⟨b, w, hb⟩ := hfs (t, .load a v) (by rw [hf]; simp)
    cases hb
  · cases mid with
    | nil =>
      obtain ⟨b, w, hb⟩ := hfs (t, .load a v) (by rw [List.nil_append] at hm; rw [← hm]; simp)
      cases hb
    | cons x mid =>
      obtain ⟨rfl, -⟩ := List.cons.inj hm
      exact h pre t a v mid rfl

omit [DecidableEq T] in
/-- Loads leave the latest stores alone. -/
theorem lastStore_append_loads {fs : List (T × MemEvent A V)}
    (hfs : ∀ e ∈ fs, ∃ a v, e.2 = .load a v) (a : A) :
    lastStore init (es ++ fs) a = lastStore init es a := by
  have hnil : fs.filterMap (fun e => e.2.storeTo? a) = [] := by
    rw [List.filterMap_eq_nil_iff]
    intro e he
    obtain ⟨b, v, hload⟩ := hfs e he
    rw [hload]
    rfl
  unfold lastStore
  rw [List.filterMap_append, hnil, List.append_nil]

omit [DecidableEq T] in
/-- Several loads of current values may be appended. -/
theorem append_loads (h : LegalOrder init es) {fs : List (T × MemEvent A V)}
    (hfs : ∀ e ∈ fs, ∃ a, e.2 = .load a (lastStore init es a)) : LegalOrder init (es ++ fs) := by
  induction fs using List.reverseRecOn with
  | nil => rwa [List.append_nil]
  | append_singleton fs e ih =>
    have hpre : ∀ e ∈ fs, ∃ a, e.2 = .load a (lastStore init es a) := fun e he =>
      hfs e (List.mem_append_left _ he)
    obtain ⟨t, ev⟩ := e
    obtain ⟨a, hload⟩ := hfs (t, ev) (by simp)
    obtain rfl : ev = .load a (lastStore init es a) := hload
    rw [← List.append_assoc]
    refine (ih hpre).append_load t (lastStore_append_loads (fun e he => ?_) a).symm
    obtain ⟨b, hb⟩ := hpre e he
    exact ⟨b, _, hb⟩

end LegalOrder

omit [DecidableEq T] in
/-- If all stores to `a` write something else than `init`, a sequence that contains one
    does not show `init`. -/
theorem lastStore_ne_init {init : V} {es : List (T × MemEvent A V)} {a : A}
    (hne : ∀ t v, (t, MemEvent.store a v) ∈ es → v ≠ init) {t : T} {w : V}
    (hmem : (t, MemEvent.store a w) ∈ es) : lastStore init es a ≠ init := by
  have hw : w ∈ es.filterMap (fun e => e.2.storeTo? a) :=
    List.mem_filterMap.mpr ⟨_, hmem, by simp [MemEvent.storeTo?]⟩
  have hnil : es.filterMap (fun e => e.2.storeTo? a) ≠ [] := List.ne_nil_of_mem hw
  unfold lastStore
  rw [List.getLast?_eq_getLast_of_ne_nil hnil, Option.getD_some]
  obtain ⟨⟨t', ev⟩, hev, hval⟩ := List.mem_filterMap.mp (List.getLast_mem hnil)
  rw [MemEvent.storeTo?_eq_some] at hval
  exact hne t' _ (hval ▸ hev)

omit [DecidableEq A] in
/-- A thread that stores and then loads has stored before every occurrence of its load. -/
theorem store_before_load {t : T} {x y : A} {v r : V} {pre post : List (T × MemEvent A V)}
    (h : threadEvents t (pre ++ (t, .load y r) :: post) = [.store x v, .load y r]) :
    (t, MemEvent.store x v) ∈ pre := by
  rw [threadEvents_append] at h
  cases hp : threadEvents t pre with
  | nil =>
    rw [hp] at h
    simp [threadEvents] at h
  | cons e es =>
    rw [hp] at h
    obtain ⟨rfl, -⟩ := List.cons.inj h
    have he : MemEvent.store x v ∈ threadEvents t pre := by rw [hp]; simp
    obtain ⟨⟨t', ev⟩, hev, hif⟩ := List.mem_filterMap.mp he
    split at hif
    · next ht =>
      obtain rfl := Option.some.inj hif
      cases ht
      exact hev
    · cases hif

/-- **Store buffering is forbidden.** Two threads that each store a fresh value and
    then load the other's address cannot both load the initial value. -/
theorem SequentiallyConsistent.no_store_buffering {init : V} {prog : T → List (MemEvent A V)}
    (h : SequentiallyConsistent init prog) {t₀ t₁ : T} {x y : A} {v w r₀ r₁ : V}
    (h₀ : prog t₀ = [.store x v, .load y r₀]) (h₁ : prog t₁ = [.store y w, .load x r₁])
    (hx : ∀ t u, MemEvent.store x u ∈ prog t → u ≠ init)
    (hy : ∀ t u, MemEvent.store y u ∈ prog t → u ≠ init) :
    ¬ (r₀ = init ∧ r₁ = init) := by
  rintro ⟨rfl, rfl⟩
  obtain ⟨order, hproj, hlegal⟩ := h
  have hin : ∀ t e, (t, e) ∈ order → e ∈ prog t := by
    intro t e he
    rw [← hproj t]
    exact List.mem_filterMap.mpr ⟨_, he, by simp⟩
  have hload : ∀ t e, e ∈ prog t → (t, e) ∈ order := by
    intro t e he
    rw [← hproj t] at he
    obtain ⟨⟨t', e'⟩, hmem, hif⟩ := List.mem_filterMap.mp he
    split at hif
    · next ht =>
      obtain rfl := Option.some.inj hif
      cases ht
      exact hmem
    · cases hif
  obtain ⟨pre₀, post₀, hs₀⟩ := List.append_of_mem (hload t₀ (.load y r₁) (by rw [h₀]; simp))
  obtain ⟨pre₁, post₁, hs₁⟩ := List.append_of_mem (hload t₁ (.load x r₁) (by rw [h₁]; simp))
  have hst₀ : (t₀, MemEvent.store x v) ∈ pre₀ :=
    store_before_load (r := r₁) (by rw [← hs₀, hproj, h₀])
  have hst₁ : (t₁, MemEvent.store y w) ∈ pre₁ :=
    store_before_load (r := r₁) (by rw [← hs₁, hproj, h₁])
  -- whichever load comes second has the other thread's store before it
  have hpre₀ : pre₀ <+: order := ⟨_, hs₀.symm⟩
  have hpre₁ : pre₁ <+: order := ⟨_, hs₁.symm⟩
  rcases List.prefix_or_prefix_of_prefix hpre₀ hpre₁ with hp | hp
  · refine lastStore_ne_init (fun t u hu => hx t u (hin t _ (hpre₁.subset hu))) (hp.subset hst₀) ?_
    exact (hlegal pre₁ t₁ x r₁ post₁ hs₁).symm
  · refine lastStore_ne_init (fun t u hu => hy t u (hin t _ (hpre₀.subset hu))) (hp.subset hst₁) ?_
    exact (hlegal pre₀ t₀ y r₁ post₀ hs₀).symm
