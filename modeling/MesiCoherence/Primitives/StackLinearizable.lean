import MesiCoherence.Primitives.LockFreeStack

/-!
# The Treiber stack is linearizable

Published nodes never change: a node is written only by the push that allocated it,
before the CAS that publishes it. So what a pop read of a node stays true, whether or
not the node has been popped meanwhile, and a CAS that finds the expected `top` acts
on the stack that `top` then represents.
-/

namespace MesiCoherence

/-- The node a push has allocated and not yet published. -/
def StackLocal.owned : StackLocal → Option Word
  | .pushVal _ naddr => some naddr
  | .pushReadTop naddr => some naddr
  | .pushWriteNext naddr _ => some naddr
  | .pushCas naddr _ => some naddr
  | _ => none

/-- Is the call about to allocate its node? -/
def StackLocal.allocating : StackLocal → Bool
  | .pushAlloc _ => true
  | _ => false

namespace LockFreeStack

variable {T : Type*}

/-- A state of the stack over a flat memory. -/
abbrev FlatState (T : Type*) := ObjectState T (Word → Word) StackOp StackLocal

section Defs

variable (st : LockFreeStack) (s : FlatState T)

/-- The number of nodes allocated. -/
def allocated : ℕ := (s.mem st.allocAddr).toNat

/-- Thread `t` has allocated node `a` and not yet published it. -/
def Owns (t : T) (a : Word) : Prop := ∃ op l, s.running t = some (op, l) ∧ l.owned = some a

/-- An allocated node that no push works on any more. -/
def Published (a : Word) : Prop := st.IsNode (st.allocated s) a ∧ ∀ t, ¬ Owns s t a

/-- The nodes linked from `h`, in order. -/
def Chain (m : Word → Word) : Word → List Word → Prop
  | h, [] => h = 0
  | h, a :: ns => h = a ∧ Chain m (m a) ns

/-- Published nodes linked from `top` hold the given values. -/
def Represents (vs : List Word) : Prop :=
  ∃ ns, Chain s.mem (s.mem st.topAddr) ns ∧ (∀ a ∈ ns, st.Published s a) ∧
    ns.map (fun a => s.mem (a + 4)) = vs

/-- What a call knows at each of its program points. -/
def LocalInv (op : StackOp) (status : Option (CallStatus StackOp StackRes)) :
    StackLocal → Prop
  | .pushAlloc v => op = .push v ∧ status = some (.called op)
  | .pushVal v _ => op = .push v ∧ status = some (.called op)
  | .pushReadTop a => op = .push (s.mem (a + 4)) ∧ status = some (.called op)
  | .pushWriteNext a _ => op = .push (s.mem (a + 4)) ∧ status = some (.called op)
  | .pushCas a oldTop =>
    s.mem a = oldTop ∧ op = .push (s.mem (a + 4)) ∧ status = some (.called op)
  | .popReadTop => op = .pop ∧ status = some (.called op)
  | .popReadNext oldTop => st.Published s oldTop ∧ op = .pop ∧ status = some (.called op)
  | .popCas oldTop next =>
    st.Published s oldTop ∧ s.mem oldTop = next ∧ op = .pop ∧ status = some (.called op)
  | .popReadVal oldTop =>
    st.Published s oldTop ∧ status = some (.committed op (.value (s.mem (oldTop + 4))))
  | .returning res => status = some (.committed op res)

/-- The invariant of all interleavings, with the events so far. -/
structure StackInv [DecidableEq T] (es : List (CallEvent T StackOp StackRes)) : Prop where
  counted : ∃ ts : Finset T,
    (∀ t, t ∈ ts ↔ ∃ op l, s.running t = some (op, l) ∧ l.allocating) ∧
      st.allocated s + ts.card = pushCalls es
  owned_node : ∀ t a, Owns s t a → st.IsNode (st.allocated s) a
  owned_once : ∀ t u a, Owns s t a → Owns s u a → t = u
  stack : st.Represents s (lifo.final [] (commits es))
  legal : lifo.Legal [] (commits es)
  idle : ∀ t, s.running t = none → callStatus t es = some .idle
  busy : ∀ t op l, s.running t = some (op, l) → st.LocalInv s op (callStatus t es) l

end Defs

variable {st : LockFreeStack}

theorem IsNode.mono {j k : ℕ} {a : Word} (h : st.IsNode j a) (hjk : j ≤ k) : st.IsNode k a := by
  obtain ⟨i, h1, hi, rfl⟩ := h
  exact ⟨i, h1, hi.trans hjk, rfl⟩

theorem Chain.congr {m m' : Word → Word} {ns : List Word} {h : Word} (hc : Chain m h ns)
    (hm : ∀ a ∈ ns, m' a = m a) : Chain m' h ns := by
  induction ns generalizing h with
  | nil => exact hc
  | cons a ns ih =>
    obtain ⟨rfl, hc⟩ := hc
    refine ⟨rfl, ?_⟩
    rw [hm h List.mem_cons_self]
    exact ih hc fun b hb => hm b (List.mem_cons_of_mem _ hb)

variable [DecidableEq T]

/-- Thread `t` goes on at `l` with memory `m`. -/
def moved (s : FlatState T) (t : T) (op : StackOp) (l : StackLocal) (m : Word → Word) :
    FlatState T := ⟨m, Function.update s.running t (some (op, l))⟩

section Moved

variable {s : FlatState T} {t : T} {op : StackOp} {l l' : StackLocal} {m : Word → Word}

theorem owns_moved_self {a : Word} : Owns (moved s t op l m) t a ↔ l.owned = some a := by
  simp [Owns, moved]

theorem owns_moved_of_ne {u : T} (hu : u ≠ t) {a : Word} :
    Owns (moved s t op l m) u a ↔ Owns s u a := by
  simp [Owns, moved, hu]

/-- A move changes only `top`, `alloc` and the thread's own node; it allocates at most
    the next node, and takes no other. -/
structure OwnMove (st : LockFreeStack) (s : FlatState T) (l l' : StackLocal)
    (m : Word → Word) : Prop where
  writes : ∀ x, m x ≠ s.mem x →
    x = st.topAddr ∨ x = st.allocAddr ∨ ∃ b, l.owned = some b ∧ Field b x
  alloc : st.allocated s ≤ (m st.allocAddr).toNat
  takes : ∀ a, l'.owned = some a → l.owned = some a ∨ ¬ st.IsNode (st.allocated s) a ∧
    st.IsNode (m st.allocAddr).toNat a

variable {es : List (CallEvent T StackOp StackRes)}

/-- Published nodes, and nodes of other pushes, keep their contents. -/
theorem StackInv.mem_eq (h : st.StackInv s es) (hfit : st.Fits (pushCalls es))
    (hrun : s.running t = some (op, l)) (hm : OwnMove st s l l' m) {a x : Word}
    (ha : st.Published s a ∨ ∃ u, u ≠ t ∧ Owns s u a) (hx : Field a x) : m x = s.mem x := by
  obtain ⟨ts, -, hts⟩ := h.counted
  have hnode : ∀ b, st.IsNode (st.allocated s) b → st.IsNode (pushCalls es) b :=
    fun b hb => hb.mono (by omega)
  have hanode : st.IsNode (st.allocated s) a := by
    rcases ha with ha | ⟨u, -, hu⟩
    · exact ha.1
    · exact h.owned_node u a hu
  obtain ⟨htop, halloc⟩ := hfit.field_ne (hnode a hanode) hx
  by_contra hne
  rcases hm.writes x hne with he | he | ⟨b, hb, hbx⟩
  · exact htop he
  · exact halloc he
  · have hown : Owns s t b := ⟨op, l, hrun, hb⟩
    obtain rfl := hfit.eq_of_field (hnode a hanode) (hnode b (h.owned_node t b hown)) hx hbx
    rcases ha with ha | ⟨u, hut, hu⟩
    · exact ha.2 t hown
    · exact hut (h.owned_once u t a hu hown)

/-- Published nodes stay published. -/
theorem published_moved (hrun : s.running t = some (op, l)) (hm : OwnMove st s l l' m)
    {a : Word} (ha : st.Published s a) : st.Published (moved s t op l' m) a := by
  refine ⟨ha.1.mono hm.alloc, fun u hu => ?_⟩
  by_cases hut : u = t
  · subst hut
    rcases hm.takes a (owns_moved_self.mp hu) with hl | ⟨hnew, -⟩
    · exact ha.2 u ⟨op, l, hrun, hl⟩
    · exact hnew ha.1
  · exact ha.2 u ((owns_moved_of_ne hut).mp hu)

/-- What another thread knows stays true. -/
theorem StackInv.other (h : st.StackInv s es) (hfit : st.Fits (pushCalls es))
    (hrun : s.running t = some (op, l)) (hm : OwnMove st s l l' m) {u : T} (hut : u ≠ t)
    {op₁ : StackOp} {l₁ : StackLocal} (hu : s.running u = some (op₁, l₁)) :
    st.LocalInv (moved s t op l' m) op₁ (callStatus u es) l₁ := by
  have hinv := h.busy u op₁ l₁ hu
  have hown : ∀ a, l₁.owned = some a → ∀ x, Field a x → m x = s.mem x := fun a ha x hx =>
    h.mem_eq hfit hrun hm (Or.inr ⟨u, hut, op₁, l₁, hu, ha⟩) hx
  have hpub : ∀ a, st.Published s a → ∀ x, Field a x → m x = s.mem x := fun a ha x hx =>
    h.mem_eq hfit hrun hm (Or.inl ha) hx
  have hkeep : ∀ a, st.Published s a → st.Published (moved s t op l' m) a := fun a ha =>
    published_moved hrun hm ha
  cases l₁ with
  | pushAlloc v => exact hinv
  | pushVal v a => exact hinv
  | pushReadTop a =>
    simp only [LocalInv, moved, hown a rfl (a + 4) (Or.inr rfl)]
    exact hinv
  | pushWriteNext a oldTop =>
    simp only [LocalInv, moved, hown a rfl (a + 4) (Or.inr rfl)]
    exact hinv
  | pushCas a oldTop =>
    simp only [LocalInv, moved, hown a rfl (a + 4) (Or.inr rfl), hown a rfl a (Or.inl rfl)]
    exact hinv
  | popReadTop => exact hinv
  | popReadNext oldTop => exact ⟨hkeep _ hinv.1, hinv.2⟩
  | popCas oldTop next =>
    refine ⟨hkeep _ hinv.1, ?_, hinv.2.2⟩
    exact (hpub oldTop hinv.1 oldTop (Or.inl rfl)).trans hinv.2.1
  | popReadVal oldTop =>
    refine ⟨hkeep _ hinv.1, ?_⟩
    simp only [moved, hpub oldTop hinv.1 (oldTop + 4) (Or.inr rfl)]
    exact hinv.2
  | returning res => exact hinv

/-- A chain of published nodes is still there, with the same values. -/
theorem StackInv.chain_moved (h : st.StackInv s es) (hfit : st.Fits (pushCalls es))
    (hrun : s.running t = some (op, l)) (hm : OwnMove st s l l' m) {hd : Word} {ns : List Word}
    (hc : Chain s.mem hd ns) (hpub : ∀ a ∈ ns, st.Published s a) :
    Chain m hd ns ∧ (∀ a ∈ ns, st.Published (moved s t op l' m) a) ∧
      ns.map (fun a => m (a + 4)) = ns.map (fun a => s.mem (a + 4)) := by
  refine ⟨hc.congr fun a ha => ?_, fun a ha => published_moved hrun hm (hpub a ha),
    List.map_congr_left fun a ha => ?_⟩
  · exact h.mem_eq hfit hrun hm (Or.inl (hpub a ha)) (Or.inl rfl)
  · exact h.mem_eq hfit hrun hm (Or.inl (hpub a ha)) (Or.inr rfl)

/-- The calls that are about to allocate, after one of them has or none was. -/
theorem StackInv.counted_moved (h : st.StackInv s es) (hrun : s.running t = some (op, l))
    (hl' : l'.allocating = false)
    (hcount : (m st.allocAddr).toNat = st.allocated s + if l.allocating then 1 else 0) :
    ∃ ts : Finset T, (∀ u, u ∈ ts ↔ ∃ op₁ l₁, (moved s t op l' m).running u = some (op₁, l₁) ∧
      l₁.allocating) ∧ st.allocated (moved s t op l' m) + ts.card = pushCalls es := by
  obtain ⟨ts, hmem, hcard⟩ := h.counted
  refine ⟨ts.erase t, fun u => ?_, ?_⟩
  · rw [Finset.mem_erase, hmem]
    by_cases hut : u = t
    · subst hut
      simp [moved, hl']
    · simp [moved, hut]
  · have ht : t ∈ ts ↔ l.allocating := by
      rw [hmem]
      simp [hrun]
    have halloc : st.allocated (moved s t op l' m) = (m st.allocAddr).toNat := rfl
    rw [halloc, hcount, Finset.card_erase_eq_ite]
    by_cases hal : l.allocating
    · have hpos : 0 < ts.card := Finset.card_pos.mpr ⟨t, ht.mpr hal⟩
      rw [if_pos hal, if_pos (ht.mpr hal)]
      omega
    · rw [if_neg hal, if_neg (fun hin => hal (ht.mp hin))]
      omega

/-- What an own move keeps whether or not it commits; `fs` are the events it adds. -/
theorem StackInv.moved_of (h : st.StackInv s es) (hfit : st.Fits (pushCalls es))
    (hrun : s.running t = some (op, l)) (hm : OwnMove st s l l' m)
    (hl' : l'.allocating = false)
    (hcount : (m st.allocAddr).toNat = st.allocated s + if l.allocating then 1 else 0)
    {fs : List (CallEvent T StackOp StackRes)} (hfs : ∀ e ∈ fs, e.thread = t)
    (hcalls : pushCalls (es ++ fs) = pushCalls es)
    (hstack : st.Represents (moved s t op l' m) (lifo.final [] (commits (es ++ fs))))
    (hlegal : lifo.Legal [] (commits (es ++ fs)))
    (hlocal : st.LocalInv (moved s t op l' m) op (callStatus t (es ++ fs)) l') :
    st.StackInv (moved s t op l' m) (es ++ fs) := by
  have hstatus : ∀ u, u ≠ t → callStatus u (es ++ fs) = callStatus u es := fun u hu =>
    callStatus_append_of_ne es fun e he het => hu (het.symm.trans (hfs e he))
  refine ⟨?_, ?_, ?_, hstack, hlegal, ?_, ?_⟩
  · rw [hcalls]
    exact h.counted_moved hrun hl' hcount
  · intro u a hu
    by_cases hut : u = t
    · subst hut
      rcases hm.takes a (owns_moved_self.mp hu) with hl | ⟨-, hnew⟩
      · exact (h.owned_node u a ⟨op, l, hrun, hl⟩).mono hm.alloc
      · exact hnew
    · exact (h.owned_node u a ((owns_moved_of_ne hut).mp hu)).mono hm.alloc
  · -- a node taken by `t` was its own or is new, so no other thread owns it
    have hother : ∀ u a, u ≠ t → Owns (moved s t op l' m) u a →
        ¬ Owns (moved s t op l' m) t a := by
      intro u a hut hu ht
      have hu' := (owns_moved_of_ne hut).mp hu
      rcases hm.takes a (owns_moved_self.mp ht) with hl | ⟨hnew, -⟩
      · exact hut (h.owned_once u t a hu' ⟨op, l, hrun, hl⟩)
      · exact hnew (h.owned_node u a hu')
    intro u v a hu hv
    by_cases hut : u = t
    · by_cases hvt : v = t
      · rw [hut, hvt]
      · exact absurd (hut ▸ hu) (hother v a hvt hv)
    · by_cases hvt : v = t
      · exact absurd (hvt ▸ hv) (hother u a hut hu)
      · exact h.owned_once u v a ((owns_moved_of_ne hut).mp hu) ((owns_moved_of_ne hvt).mp hv)
  · intro u hu
    by_cases hut : u = t
    · subst hut
      simp [moved] at hu
    · rw [hstatus u hut]
      exact h.idle u (by simpa [moved, hut] using hu)
  · intro u op₁ l₁ hu
    by_cases hut : u = t
    · subst hut
      simp only [moved, Function.update_self, Option.some.injEq, Prod.mk.injEq] at hu
      obtain ⟨rfl, rfl⟩ := hu
      exact hlocal
    · rw [hstatus u hut]
      exact h.other hfit hrun hm hut (by simpa [moved, hut] using hu)

/-- An own move that leaves `top` alone. -/
theorem StackInv.quiet (h : st.StackInv s es) (hfit : st.Fits (pushCalls es))
    (hrun : s.running t = some (op, l)) (hm : OwnMove st s l l' m)
    (hl' : l'.allocating = false)
    (hcount : (m st.allocAddr).toNat = st.allocated s + if l.allocating then 1 else 0)
    (htop : m st.topAddr = s.mem st.topAddr)
    (hlocal : st.LocalInv (moved s t op l' m) op (callStatus t es) l') :
    st.StackInv (moved s t op l' m) (es ++ []) := by
  obtain ⟨ns, hc, hpub, hvals⟩ := h.stack
  obtain ⟨hc', hpub', hvals'⟩ := h.chain_moved hfit hrun hm hc hpub
  refine h.moved_of hfit hrun hm hl' hcount (by simp) (by rw [List.append_nil]) ⟨ns, ?_, hpub', ?_⟩
    (by rw [List.append_nil]; exact h.legal) (by rw [List.append_nil]; exact hlocal)
  · show Chain m (m st.topAddr) ns
    rw [htop]
    exact hc'
  · rw [List.append_nil, ← hvals]
    exact hvals'

/-- An own move that takes effect as the sequential object does. -/
theorem StackInv.takesEffect (h : st.StackInv s es) (hfit : st.Fits (pushCalls es))
    (hrun : s.running t = some (op, l)) (hm : OwnMove st s l l' m)
    (hl : l.allocating = false) (hl' : l'.allocating = false)
    (halloc : m st.allocAddr = s.mem st.allocAddr) (hstatus : callStatus t es = some (.called op))
    {res : StackRes}
    (hspec : ∀ vs, st.Represents s vs →
      st.Represents (moved s t op l' m) (lifo.apply vs op).1 ∧ (lifo.apply vs op).2 = res)
    (hlocal : st.LocalInv (moved s t op l' m) op (some (.committed op res)) l') :
    st.StackInv (moved s t op l' m) (es ++ [.committed t op res]) := by
  obtain ⟨hrep, hres⟩ := hspec _ h.stack
  refine h.moved_of hfit hrun hm hl' ?_ ?_ ?_ ?_ ?_ ?_
  · rw [halloc, hl]
    rfl
  · intro e he
    rw [List.mem_singleton.mp he]
    rfl
  · simp [pushCalls]
  · rw [commits_append]
    exact (lifo.final_append _ _ _).symm ▸ hrep
  · rw [commits_append]
    exact (lifo.legal_append _ _ _).mpr ⟨h.legal, hres⟩
  · rw [callStatus_append_singleton, hstatus]
    simpa [CallEvent.thread, CallStatus.next] using hlocal

end Moved

section Access

variable {s : FlatState T} {t : T} {op : StackOp} {es : List (CallEvent T StackOp StackRes)}

omit [DecidableEq T] in
/-- A move that writes nothing and takes no node. -/
theorem OwnMove.refl {l l' : StackLocal} (h : ∀ a, l'.owned = some a → l.owned = some a) :
    OwnMove st s l l' s.mem :=
  ⟨fun _ hx => absurd rfl hx, le_rfl, fun a ha => Or.inl (h a ha)⟩

omit [DecidableEq T] in
/-- A move that writes one word of the thread's own node. -/
theorem OwnMove.write {l l' : StackLocal} {b y : Word} (v : Word) (hb : l.owned = some b)
    (hy : Field b y) (halloc : y ≠ st.allocAddr) (h : ∀ a, l'.owned = some a → l.owned = some a) :
    OwnMove st s l l' (Function.update s.mem y v) := by
  refine ⟨fun x hx => ?_, ?_, fun a ha => Or.inl (h a ha)⟩
  · by_cases hxy : x = y
    · subst hxy
      exact Or.inr (Or.inr ⟨b, hb, hy⟩)
    · exact absurd (Function.update_of_ne hxy _ _) hx
  · rw [Function.update_of_ne (Ne.symm halloc)]
    exact le_rfl

omit [DecidableEq T] in
/-- A move that writes `top`. -/
theorem OwnMove.setTop {l l' : StackLocal} (v : Word) (hne : st.topAddr ≠ st.allocAddr)
    (h : ∀ a, l'.owned = some a → l.owned = some a) :
    OwnMove st s l l' (Function.update s.mem st.topAddr v) := by
  refine ⟨fun x hx => ?_, ?_, fun a ha => Or.inl (h a ha)⟩
  · by_cases hxy : x = st.topAddr
    · exact Or.inl hxy
    · exact absurd (Function.update_of_ne hxy _ _) hx
  · rw [Function.update_of_ne (Ne.symm hne)]
    exact le_rfl

theorem StackInv.pushAlloc (h : st.StackInv s es) (hfit : st.Fits (pushCalls es)) {v : Word}
    (hrun : s.running t = some (op, .pushAlloc v)) :
    st.StackInv (moved s t op (.pushVal v (st.nodeBase + (s.mem st.allocAddr + 1) * 8))
      (Function.update s.mem st.allocAddr (s.mem st.allocAddr + 1))) (es ++ []) := by
  -- this call has yet to be counted, so the counter does not wrap
  have hlt : st.allocated s + 1 ≤ pushCalls es := by
    obtain ⟨ts, hmem, hcard⟩ := h.counted
    have hpos : 0 < ts.card := Finset.card_pos.mpr ⟨t, (hmem t).mpr ⟨_, _, hrun, rfl⟩⟩
    omega
  have hfits := hfit.no_wrap
  have hsucc : (s.mem st.allocAddr + 1).toNat = st.allocated s + 1 := by
    have h1 : (1 : Word).toNat = 1 := rfl
    have hk : (s.mem st.allocAddr).toNat = st.allocated s := rfl
    rw [BitVec.toNat_add, h1, hk]
    omega
  rw [node_succ_eq]
  refine h.quiet hfit hrun ⟨fun x hx => ?_, ?_, ?_⟩ rfl ?_ ?_ (h.busy t op _ hrun)
  · by_cases hxa : x = st.allocAddr
    · exact Or.inr (Or.inl hxa)
    · exact absurd (Function.update_of_ne hxa _ _) hx
  · rw [Function.update_self, hsucc]
    exact Nat.le_succ _
  · rintro a ⟨⟩
    refine Or.inr ⟨?_, st.allocated s + 1, by omega, ?_, rfl⟩
    · rintro ⟨i, h1, hi, he⟩
      have hnew := hfit.node_toNat (i := st.allocated s + 1) (by omega) hlt
      have hold := hfit.node_toNat h1 (by omega)
      have hk : (s.mem st.allocAddr).toNat = st.allocated s := rfl
      rw [hk] at he
      rw [he] at hnew
      omega
    · rw [Function.update_self, hsucc]
  · rw [Function.update_self, hsucc]
    rfl
  · exact Function.update_of_ne hfit.distinct _ _

theorem StackInv.own_fields (h : st.StackInv s es) (hfit : st.Fits (pushCalls es))
    {l : StackLocal} (hrun : s.running t = some (op, l)) {a : Word} (ha : l.owned = some a)
    {x : Word} (hx : Field a x) : x ≠ st.topAddr ∧ x ≠ st.allocAddr := by
  obtain ⟨ts, -, hcard⟩ := h.counted
  exact hfit.field_ne ((h.owned_node t a ⟨op, l, hrun, ha⟩).mono (by omega)) hx

theorem StackInv.pushVal (h : st.StackInv s es) (hfit : st.Fits (pushCalls es)) {v a : Word}
    (hrun : s.running t = some (op, .pushVal v a)) :
    st.StackInv (moved s t op (.pushReadTop a) (Function.update s.mem (a + 4) v)) (es ++ []) := by
  obtain ⟨htop, halloc⟩ := h.own_fields hfit hrun rfl (Or.inr rfl)
  refine h.quiet hfit hrun (OwnMove.write v rfl (Or.inr rfl) halloc fun _ => id) rfl ?_ ?_ ?_
  · rw [Function.update_of_ne (Ne.symm halloc)]
    rfl
  · exact Function.update_of_ne (Ne.symm htop) _ _
  · simpa [LocalInv, moved] using h.busy t op _ hrun

theorem StackInv.pushWriteNext (h : st.StackInv s es) (hfit : st.Fits (pushCalls es))
    {a oldTop : Word} (hrun : s.running t = some (op, .pushWriteNext a oldTop)) :
    st.StackInv (moved s t op (.pushCas a oldTop) (Function.update s.mem a oldTop))
      (es ++ []) := by
  obtain ⟨htop, halloc⟩ := h.own_fields hfit hrun rfl (Or.inl rfl)
  refine h.quiet hfit hrun (OwnMove.write oldTop rfl (Or.inl rfl) halloc fun _ => id) rfl ?_ ?_ ?_
  · rw [Function.update_of_ne (Ne.symm halloc)]
    rfl
  · exact Function.update_of_ne (Ne.symm htop) _ _
  · have hne : a + 4 ≠ a := by
      intro he
      simp at he
    have hlocal := h.busy t op _ hrun
    refine ⟨Function.update_self _ _ _, ?_⟩
    simp only [moved, Function.update_of_ne hne]
    exact hlocal

/-- A move that writes nothing and shows nothing. -/
theorem StackInv.look (h : st.StackInv s es) (hfit : st.Fits (pushCalls es))
    {l : StackLocal} (hrun : s.running t = some (op, l)) (l' : StackLocal)
    (hl : l.allocating = false) (hl' : l'.allocating = false)
    (hown : ∀ a, l'.owned = some a → l.owned = some a)
    (hlocal : st.LocalInv (moved s t op l' s.mem) op (callStatus t es) l') :
    st.StackInv (moved s t op l' s.mem) (es ++ []) := by
  refine h.quiet hfit hrun (OwnMove.refl hown) hl' ?_ rfl hlocal
  rw [hl]
  rfl

/-- The successful CAS of a push. -/
theorem StackInv.pushCas (h : st.StackInv s es) (hfit : st.Fits (pushCalls es))
    {a oldTop : Word} (hrun : s.running t = some (op, .pushCas a oldTop))
    (htop : s.mem st.topAddr = oldTop) :
    st.StackInv (moved s t op (.returning .done) (Function.update s.mem st.topAddr a))
      (es ++ [.committed t op .done]) := by
  obtain ⟨hnext, hop, hstatus⟩ := h.busy t op _ hrun
  have hmove : OwnMove st s (.pushCas a oldTop) (.returning .done)
      (Function.update s.mem st.topAddr a) := OwnMove.setTop a hfit.distinct fun _ hx => by cases hx
  have hown : Owns s t a := ⟨op, _, hrun, rfl⟩
  obtain ⟨hne, -⟩ := h.own_fields hfit hrun rfl (Or.inl rfl)
  obtain ⟨hne4, -⟩ := h.own_fields hfit hrun rfl (Or.inr rfl)
  refine h.takesEffect hfit hrun hmove rfl rfl (Function.update_of_ne hfit.distinct.symm _ _) hstatus
    ?_ rfl
  rintro vs ⟨ns, hc, hpub, rfl⟩
  obtain ⟨hc', hpub', hvals'⟩ := h.chain_moved hfit hrun hmove hc hpub
  rw [hop]
  refine ⟨⟨a :: ns, ⟨Function.update_self _ _ _, ?_⟩, ?_, ?_⟩, rfl⟩
  · show Chain (Function.update s.mem st.topAddr a) (Function.update s.mem st.topAddr a a) ns
    rw [Function.update_of_ne hne, hnext, ← htop]
    exact hc'
  · -- the node was owned by `t` alone, which has let go of it
    intro b hb
    rcases List.mem_cons.mp hb with rfl | hb
    · refine ⟨(h.owned_node t b hown).mono hmove.alloc, fun u hu => ?_⟩
      by_cases hut : u = t
      · subst hut
        cases owns_moved_self.mp hu
      · exact hut (h.owned_once u t b ((owns_moved_of_ne hut).mp hu) hown)
    · exact hop ▸ hpub' b hb
  · rw [List.map_cons]
    congr 1
    exact Function.update_of_ne hne4 _ _

omit [DecidableEq T] in
/-- A nonempty `top` is a published node. -/
theorem Represents.published {vs : List Word} (h : st.Represents s vs)
    (htop : s.mem st.topAddr ≠ 0) : st.Published s (s.mem st.topAddr) := by
  obtain ⟨ns, hc, hpub, -⟩ := h
  cases ns with
  | nil => exact absurd hc htop
  | cons a ns => exact hc.1 ▸ hpub a List.mem_cons_self

/-- The read of an empty `top`. -/
theorem StackInv.popEmpty (h : st.StackInv s es) (hfit : st.Fits (pushCalls es))
    (hrun : s.running t = some (op, .popReadTop)) (htop : s.mem st.topAddr = 0) :
    st.StackInv (moved s t op (.returning .empty) s.mem) (es ++ [.committed t op .empty]) := by
  obtain ⟨hop, hstatus⟩ := h.busy t op _ hrun
  have hmove : OwnMove st s .popReadTop (.returning .empty) s.mem := OwnMove.refl fun _ => id
  refine h.takesEffect hfit hrun hmove rfl rfl rfl hstatus ?_ rfl
  rintro vs ⟨ns, hc, hpub, rfl⟩
  obtain ⟨ts, -, hcard⟩ := h.counted
  cases ns with
  | cons a ns =>
    -- a node on top is not at the null address
    refine absurd ?_ (hfit.node_ne_zero ((hpub a List.mem_cons_self).1.mono (by omega)))
    rw [← hc.1, htop]
  | nil =>
    rw [hop]
    exact ⟨⟨[], hc, by simp, rfl⟩, rfl⟩

/-- The successful CAS of a pop. -/
theorem StackInv.popCas (h : st.StackInv s es) (hfit : st.Fits (pushCalls es))
    {oldTop next : Word} (hrun : s.running t = some (op, .popCas oldTop next))
    (htop : s.mem st.topAddr = oldTop) :
    st.StackInv (moved s t op (.popReadVal oldTop) (Function.update s.mem st.topAddr next))
      (es ++ [.committed t op (.value (s.mem (oldTop + 4)))]) := by
  obtain ⟨hold, hnext, hop, hstatus⟩ := h.busy t op _ hrun
  have hmove : OwnMove st s (.popCas oldTop next) (.popReadVal oldTop)
      (Function.update s.mem st.topAddr next) := OwnMove.setTop next hfit.distinct fun _ => id
  obtain ⟨ts, -, hcard⟩ := h.counted
  refine h.takesEffect hfit hrun hmove rfl rfl (Function.update_of_ne hfit.distinct.symm _ _) hstatus
    ?_ ⟨published_moved hrun hmove hold, ?_⟩
  · rintro vs ⟨ns, hc, hpub, rfl⟩
    cases ns with
    | nil =>
      exact absurd (htop.symm.trans hc) (hfit.node_ne_zero (hold.1.mono (by omega)))
    | cons a ns =>
      obtain ⟨ha, hc⟩ := hc
      obtain rfl : oldTop = a := htop.symm.trans ha
      obtain ⟨hc', hpub', hvals'⟩ := h.chain_moved hfit hrun hmove hc
        fun b hb => hpub b (List.mem_cons_of_mem _ hb)
      rw [hop]
      refine ⟨⟨ns, ?_, hop ▸ hpub', hvals'⟩, rfl⟩
      show Chain (Function.update s.mem st.topAddr next)
        (Function.update s.mem st.topAddr next st.topAddr) ns
      rw [Function.update_self, ← hnext]
      exact hnext ▸ hc'
  · rw [← h.mem_eq hfit hrun hmove (Or.inl hold) (Or.inr rfl)]
    rfl

/-- Every access of a call keeps the invariant, with the commit it is marked with. -/
theorem StackInv.access (h : st.StackInv s es) (hfit : st.Fits (pushCalls es))
    {l : StackLocal} {acc : Access Word Word} (hrun : s.running t = some (op, l))
    (hnext : st.next l = .inl acc) :
    st.StackInv (moved s t op (st.resume l (acc.exec s.mem).2) (acc.exec s.mem).1)
      (es ++ ((st.commit l s.mem).map (CallEvent.committed t op)).toList) := by
  have hlocal := h.busy t op l hrun
  cases l with
  | pushAlloc v =>
    obtain rfl := Sum.inl.inj hnext
    exact h.pushAlloc hfit hrun
  | pushVal v a =>
    obtain rfl := Sum.inl.inj hnext
    exact h.pushVal hfit hrun
  | pushReadTop a =>
    obtain rfl := Sum.inl.inj hnext
    rw [Access.exec_read]
    exact h.look hfit hrun _ rfl rfl (fun _ => id) hlocal
  | pushWriteNext a oldTop =>
    obtain rfl := Sum.inl.inj hnext
    exact h.pushWriteNext hfit hrun
  | pushCas a oldTop =>
    obtain rfl := Sum.inl.inj hnext
    by_cases htop : s.mem st.topAddr = oldTop
    · have hcommit : st.commit (.pushCas a oldTop) s.mem = some .done := if_pos htop
      rw [Access.exec_cas_of_eq htop, hcommit]
      exact h.pushCas hfit hrun htop
    · have hcommit : st.commit (.pushCas a oldTop) s.mem = none := if_neg htop
      rw [Access.exec_cas_of_ne htop, hcommit]
      exact h.look hfit hrun (.pushReadTop a) rfl rfl (fun _ => id) hlocal.2
  | popReadTop =>
    obtain rfl := Sum.inl.inj hnext
    rw [Access.exec_read]
    by_cases htop : s.mem st.topAddr = 0
    · have hcommit : st.commit .popReadTop s.mem = some .empty := if_pos htop
      have hresume : st.resume .popReadTop (.value (s.mem st.topAddr)) = .returning .empty :=
        if_pos htop
      rw [hcommit, hresume]
      exact h.popEmpty hfit hrun htop
    · have hcommit : st.commit .popReadTop s.mem = none := if_neg htop
      have hresume : st.resume .popReadTop (.value (s.mem st.topAddr)) =
          .popReadNext (s.mem st.topAddr) := if_neg htop
      rw [hcommit, hresume]
      have hmove : OwnMove st s .popReadTop (.popReadNext (s.mem st.topAddr)) s.mem :=
        OwnMove.refl fun _ => id
      exact h.look hfit hrun _ rfl rfl (fun _ => id)
        ⟨published_moved hrun hmove (h.stack.published htop), hlocal⟩
  | popReadNext oldTop =>
    obtain rfl := Sum.inl.inj hnext
    rw [Access.exec_read]
    have hmove : OwnMove st s (.popReadNext oldTop) (.popCas oldTop (s.mem oldTop)) s.mem :=
      OwnMove.refl fun _ => id
    exact h.look hfit hrun (.popCas oldTop (s.mem oldTop)) rfl rfl (fun _ => id)
      ⟨published_moved hrun hmove hlocal.1, rfl, hlocal.2⟩
  | popCas oldTop next =>
    obtain rfl := Sum.inl.inj hnext
    by_cases htop : s.mem st.topAddr = oldTop
    · have hcommit : st.commit (.popCas oldTop next) s.mem =
          some (.value (s.mem (oldTop + 4))) := if_pos htop
      rw [Access.exec_cas_of_eq htop, hcommit]
      exact h.popCas hfit hrun htop
    · have hcommit : st.commit (.popCas oldTop next) s.mem = none := if_neg htop
      rw [Access.exec_cas_of_ne htop, hcommit]
      exact h.look hfit hrun .popReadTop rfl rfl (fun _ => id) hlocal.2.2
  | popReadVal oldTop =>
    obtain rfl := Sum.inl.inj hnext
    rw [Access.exec_read]
    exact h.look hfit hrun (.returning (.value (s.mem (oldTop + 4)))) rfl rfl
      (fun _ => id) hlocal.2
  | returning res => cases hnext

omit [DecidableEq T] in
theorem LocalInv.start (op : StackOp) :
    st.LocalInv s op (some (.called op)) (LockFreeStack.start op) := by
  cases op with
  | push v => exact ⟨rfl, rfl⟩
  | pop => exact ⟨rfl, rfl⟩

omit [DecidableEq T] in
/-- A call knows the same about any state with the same memory and nodes. -/
theorem LocalInv.congr {s' : FlatState T} (hmem : s'.mem = s.mem)
    (hpub : ∀ a, st.Published s a → st.Published s' a)
    {status : Option (CallStatus StackOp StackRes)} {l : StackLocal}
    (h : st.LocalInv s op status l) : st.LocalInv s' op status l := by
  cases l with
  | pushAlloc v => exact h
  | pushVal v a => exact h
  | pushReadTop a => simpa only [LocalInv, hmem] using h
  | pushWriteNext a oldTop => simpa only [LocalInv, hmem] using h
  | pushCas a oldTop => simpa only [LocalInv, hmem] using h
  | popReadTop => exact h
  | popReadNext oldTop => exact ⟨hpub _ h.1, h.2⟩
  | popCas oldTop next => exact ⟨hpub _ h.1, by rw [hmem]; exact h.2.1, h.2.2⟩
  | popReadVal oldTop => exact ⟨hpub _ h.1, by rw [hmem]; exact h.2⟩
  | returning res => exact h

omit [DecidableEq T] in
/-- A call in progress has followed the order of its events. -/
theorem LocalInv.status_eq_some {status : Option (CallStatus StackOp StackRes)}
    {l : StackLocal} (h : st.LocalInv s op status l) : ∃ c, status = some c := by
  cases l with
  | pushAlloc v => exact ⟨_, h.2⟩
  | pushVal v a => exact ⟨_, h.2⟩
  | pushReadTop a => exact ⟨_, h.2⟩
  | pushWriteNext a oldTop => exact ⟨_, h.2⟩
  | pushCas a oldTop => exact ⟨_, h.2.2⟩
  | popReadTop => exact ⟨_, h.2⟩
  | popReadNext oldTop => exact ⟨_, h.2.2⟩
  | popCas oldTop next => exact ⟨_, h.2.2.2⟩
  | popReadVal oldTop => exact ⟨_, h.2⟩
  | returning res => exact ⟨_, h⟩

/-- A call begins or ends: the thread owns no node before or after, and shows `fs`. -/
theorem StackInv.relabel (h : st.StackInv s es) {c : Option (StackOp × StackLocal)}
    (hbefore : ∀ a, ¬ Owns s t a) (hafter : ∀ op l, c = some (op, l) → l.owned = none)
    {fs : List (CallEvent T StackOp StackRes)} (hfs : ∀ e ∈ fs, e.thread = t)
    (hcommits : commits (es ++ fs) = commits es)
    (hcounted : ∃ ts : Finset T, (∀ u, u ∈ ts ↔ ∃ op l,
      (s.setLocal t c).running u = some (op, l) ∧ l.allocating) ∧
      st.allocated s + ts.card = pushCalls (es ++ fs))
    (hidle : c = none → callStatus t (es ++ fs) = some .idle)
    (hbusy : ∀ op l, c = some (op, l) → st.LocalInv s op (callStatus t (es ++ fs)) l) :
    st.StackInv (s.setLocal t c) (es ++ fs) := by
  have howns : ∀ u a, Owns (s.setLocal t c) u a ↔ Owns s u a := by
    intro u a
    by_cases hut : u = t
    · subst hut
      refine ⟨?_, fun hu => absurd hu (hbefore a)⟩
      rintro ⟨op, l, hrun, hl⟩
      rw [ObjectState.setLocal_running_self] at hrun
      rw [hafter op l hrun] at hl
      cases hl
    · simp [Owns, hut]
  have hpub : ∀ a, st.Published s a → st.Published (s.setLocal t c) a := fun a ha =>
    ⟨ha.1, fun u hu => ha.2 u ((howns u a).mp hu)⟩
  have hstatus : ∀ u, u ≠ t → callStatus u (es ++ fs) = callStatus u es := fun u hu =>
    callStatus_append_of_ne es fun e he het => hu (het.symm.trans (hfs e he))
  refine ⟨hcounted, ?_, ?_, ?_, ?_, ?_, ?_⟩
  · exact fun u a hu => h.owned_node u a ((howns u a).mp hu)
  · exact fun u v a hu hv => h.owned_once u v a ((howns u a).mp hu) ((howns v a).mp hv)
  · obtain ⟨ns, hc, hns, hvals⟩ := h.stack
    rw [hcommits]
    exact ⟨ns, hc, fun a ha => hpub a (hns a ha), hvals⟩
  · rw [hcommits]
    exact h.legal
  · intro u hu
    by_cases hut : u = t
    · subst hut
      exact hidle (by simpa using hu)
    · rw [hstatus u hut]
      exact h.idle u (by simpa [hut] using hu)
  · intro u op l hu
    by_cases hut : u = t
    · subst hut
      exact LocalInv.congr (s.setLocal_mem u c) hpub (hbusy op l (by simpa using hu))
    · rw [hstatus u hut]
      exact LocalInv.congr (s.setLocal_mem t c) hpub (h.busy u op l (by simpa [hut] using hu))

/-- A call is invoked. -/
theorem StackInv.invoked (h : st.StackInv s es) (hidle : s.running t = none) (op : StackOp) :
    st.StackInv (s.setLocal t (some (op, start op))) (es ++ [.invoked t op]) := by
  have hstatus : callStatus t (es ++ [.invoked t op]) = some (.called op) := by
    rw [callStatus_append_singleton, h.idle t hidle]
    simp [CallEvent.thread, CallStatus.next]
  have hbefore : ∀ a, ¬ Owns s t a := by
    rintro a ⟨op', l, hrun, -⟩
    rw [hidle] at hrun
    cases hrun
  refine h.relabel hbefore ?_ (by simp [CallEvent.thread]) (by simp [commits, CallEvent.commit?])
    ?_ (fun hc => by cases hc) ?_
  · rintro op' l ⟨⟩
    cases op <;> rfl
  · obtain ⟨ts, hmem, hcard⟩ := h.counted
    have ht : t ∉ ts := by
      rw [hmem]
      simp [hidle]
    have hothers : ∀ u, u ≠ t → (u ∈ ts ↔ ∃ op' l,
        (s.setLocal t (some (op, start op))).running u = some (op', l) ∧ l.allocating) := by
      intro u hut
      rw [hmem]
      simp [hut]
    cases op with
    | push v =>
      refine ⟨insert t ts, fun u => ?_, ?_⟩
      · by_cases hut : u = t
        · subst hut
          simp [start, StackLocal.allocating]
        · rw [Finset.mem_insert, or_iff_right hut, hothers u hut]
      · rw [Finset.card_insert_of_notMem ht]
        simp only [pushCalls, List.countP_append, List.countP_singleton] at hcard ⊢
        simp only [if_true]
        omega
    | pop =>
      refine ⟨ts, fun u => ?_, ?_⟩
      · by_cases hut : u = t
        · subst hut
          simp [ht, start, StackLocal.allocating]
        · exact hothers u hut
      · simpa [pushCalls] using hcard
  · rintro op' l ⟨⟩
    rw [hstatus]
    exact LocalInv.start op

/-- A call returns. -/
theorem StackInv.returned (h : st.StackInv s es) {res : StackRes}
    (hrun : s.running t = some (op, .returning res)) :
    st.StackInv (s.setLocal t none) (es ++ [.returned t res]) := by
  have hbefore : ∀ a, ¬ Owns s t a := by
    rintro a ⟨op', l, hrun', hl⟩
    rw [hrun] at hrun'
    cases hrun'
    cases hl
  have hlocal : callStatus t es = some (.committed op res) := h.busy t op _ hrun
  refine h.relabel hbefore (fun _ _ hc => by cases hc) (by simp [CallEvent.thread])
    (by simp [commits, CallEvent.commit?]) ?_ ?_ (fun _ _ hc => by cases hc)
  · obtain ⟨ts, hmem, hcard⟩ := h.counted
    refine ⟨ts, fun u => ?_, ?_⟩
    · rw [hmem]
      by_cases hut : u = t
      · subst hut
        simp [hrun, StackLocal.allocating]
      · simp [hut]
    · simpa [pushCalls] using hcard
  · intro _
    rw [callStatus_append_singleton, hlocal]
    simp [CallEvent.thread, CallStatus.next]

end Access

/-- The stack after `init` on any memory, with no call in progress. -/
def initial (st : LockFreeStack) (mem : Word → Word) : FlatState T := .idle (st.init mem)

/-- The events of a run of pushes and pops over a flat memory. -/
def history (st : LockFreeStack) (mem : Word → Word) (acts : List (ObjectAction T StackOp)) :
    List (CallEvent T StackOp StackRes) :=
  st.code.trace .flat st.commit (st.initial mem) acts

/-- The state after such a run. -/
def after (st : LockFreeStack) (mem : Word → Word) (acts : List (ObjectAction T StackOp)) :
    FlatState T :=
  (st.code.machine .flat st.commit).run (st.initial mem) acts

omit [DecidableEq T] in
theorem pushCalls_append_le (es fs : List (CallEvent T StackOp StackRes)) :
    pushCalls es ≤ pushCalls (es ++ fs) := by
  unfold pushCalls
  rw [List.countP_append]
  exact Nat.le_add_right _ _

theorem StackInv.initial (hne : st.topAddr ≠ st.allocAddr) (mem : Word → Word) :
    st.StackInv (st.initial (T := T) mem) [] := by
  have halloc : st.allocated (st.initial (T := T) mem) = 0 := by
    simp [allocated, LockFreeStack.initial, ObjectState.idle, init]
  refine ⟨⟨∅, fun t => ?_, ?_⟩, ?_, ?_, ⟨[], ?_, by simp, rfl⟩, trivial, fun t _ => rfl, ?_⟩
  · simp [LockFreeStack.initial, ObjectState.idle]
  · rw [halloc]
    rfl
  · rintro t a ⟨op, l, hrun, -⟩
    cases hrun
  · rintro t u a ⟨op, l, hrun, -⟩
    cases hrun
  · show st.init mem st.topAddr = 0
    simp [init, hne]
  · intro t op l hrun
    cases hrun

/-- The invariant holds along every run whose nodes fit. -/
theorem stackInv_after (mem : Word → Word) (acts : List (ObjectAction T StackOp))
    (hfit : st.Fits (pushCalls (st.history mem acts))) :
    st.StackInv (st.after mem acts) (st.history mem acts) := by
  refine st.code.trace_invariant .flat st.commit (P := fun es s => st.StackInv s es)
    (C := fun es => st.Fits (pushCalls es)) (fun es fs h => h.mono (pushCalls_append_le es fs))
    (StackInv.initial hfit.distinct mem) ?_ acts hfit
  intro es s s' fs h hfit heff
  have hfit' := hfit.mono (pushCalls_append_le es fs)
  cases heff with
  | stutter => rwa [List.append_nil]
  | invoked t op hidle => exact h.invoked hidle op
  | returned t op l res hrun hnext =>
    cases l with
    | returning res' =>
      obtain rfl := Sum.inr.inj hnext
      exact h.returned hrun
    | _ => cases hnext
  | accessed t op l acc hrun hnext => exact h.access hfit' hrun hnext

/-- The values pushed by a run of the sequential stack, in order. -/
def pushedValues (ops : List (StackOp × StackRes)) : List Word :=
  ops.filterMap fun
    | (.push v, _) => some v
    | _ => none

/-- The values popped. -/
def poppedValues (ops : List (StackOp × StackRes)) : List Word :=
  ops.filterMap fun
    | (.pop, .value v) => some v
    | _ => none

/-- A legal run of the sequential stack loses and duplicates nothing. -/
theorem lifo_conserves (ops : List (StackOp × StackRes)) (vs : List Word)
    (h : lifo.Legal vs ops) :
    (pushedValues ops ++ vs).Perm (poppedValues ops ++ lifo.final vs ops) := by
  induction ops generalizing vs with
  | nil => exact List.Perm.refl _
  | cons o ops ih =>
    obtain ⟨op, res⟩ := o
    obtain ⟨hres, hrest⟩ := h
    have hih := ih _ hrest
    cases op with
    | push v =>
      refine List.Perm.trans ?_ hih
      exact List.perm_middle.symm
    | pop =>
      cases vs with
      | nil =>
        obtain rfl : StackRes.empty = res := hres
        exact hih
      | cons v vs =>
        obtain rfl : StackRes.value v = res := hres
        refine List.Perm.trans List.perm_middle ?_
        exact List.Perm.cons v hih

/-- **The Treiber stack is linearizable.** For any threads, any push and pop calls and
    any interleaving of their memory accesses after `init`, if the nodes of the pushes
    fit: the commits (a push at its successful CAS, a pop at its successful CAS with
    the value then on top, a pop of an empty stack at its read of `top`) lie within
    their calls, each call returns what it committed, and the commits are a legal run
    of the LIFO stack that ends in the stack linked from `top`. So the pushed values
    are exactly the popped ones and those still there. -/
theorem lockFreeStack_linearizable (st : LockFreeStack) (T : Type*) [DecidableEq T]
    (mem : Word → Word) (acts : List (ObjectAction T StackOp))
    (hfit : st.Fits (pushCalls (st.history mem acts))) :
    let es := st.history mem acts
    let s := st.after mem acts
    Linearizable lifo [] (visibleHistory es) ∧
    (∀ t, (callStatus t es).isSome) ∧ lifo.Legal [] (commits es) ∧
    ∃ ns, Chain s.mem (s.mem st.topAddr) ns ∧
      ns.map (fun a => s.mem (a + 4)) = lifo.final [] (commits es) ∧
      (pushedValues (commits es)).Perm
        (poppedValues (commits es) ++ ns.map fun a => s.mem (a + 4)) := by
  intro es s
  have h := stackInv_after mem acts hfit
  have hstatus : ∀ t, (callStatus t es).isSome := by
    intro t
    cases hrun : s.running t with
    | none =>
      have hidle := h.idle t hrun
      exact Option.isSome_of_eq_some hidle
    | some c =>
      obtain ⟨status, hsome⟩ := (h.busy t c.1 c.2 hrun).status_eq_some
      exact Option.isSome_of_eq_some hsome
  obtain ⟨ns, hc, -, hvals⟩ := h.stack
  refine ⟨⟨es, rfl, hstatus, h.legal⟩, hstatus, h.legal, ns, hc, hvals, ?_⟩
  rw [hvals]
  simpa using lifo_conserves (commits es) [] h.legal

/-- Two pushes race, one of them retries its CAS, and a pop follows. -/
def racingPushes : List (ObjectAction ℕ StackOp) :=
  [.invoke 0 (.push 5), .step 0, .step 0, .step 0, .step 0,
    .invoke 1 (.push 7), .step 1, .step 1, .step 1, .step 1, .step 1, .step 1,
    .step 0, .step 0, .step 0, .step 0, .step 0,
    .invoke 1 .pop, .step 1, .step 1, .step 1, .step 1, .step 1]

theorem racingPushes_linearizable :
    let st : LockFreeStack := ⟨0x100#32, 0x140#32, 0x200#32⟩
    let es := st.history (fun _ => 0) racingPushes
    Linearizable lifo [] (visibleHistory es) ∧
    commits es = [(.push 7, .done), (.push 5, .done), (.pop, .value 5)] := by
  intro st es
  have hcalls : pushCalls es = 2 := by decide +kernel
  have hcommits : commits es = [(.push 7, .done), (.push 5, .done), (.pop, .value 5)] := by
    decide +kernel
  have hfit : st.Fits (pushCalls es) := by
    rw [hcalls]
    exact ⟨by decide, by decide, fun _ => by decide, by decide, by decide⟩
  exact ⟨(lockFreeStack_linearizable st ℕ (fun _ => 0) racingPushes hfit).1, hcommits⟩

end LockFreeStack

end MesiCoherence
