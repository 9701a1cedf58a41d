import MesiCoherence.Primitives.HazardPtr

/-!
# No reader uses a freed object

The hazard-pointer test of `sim/tests/test_sync_primitives.cpp` as a whole. One writer
allocates object after object, publishes each through one pointer, retires the one before
and frees what no hazard slot holds, by writing a poison word over it. Readers protect
the published object, read it and release it.

## Main result

- `readers_see_live_objects` — every read of a reader finds what its object was made with
-/

namespace MesiCoherence

/-- The word that marks a freed object. -/
def poison : Word := 0xDEAD

/-- The object with index `idx`. -/
def objAddr (objBase idx : Word) : Word := objBase + idx * 8

/-- The test: its words in memory and the number of objects. The words are apart from each
    other, and no object is made with the poison word. -/
structure ReclaimTest where
  hp : HazardDomain
  ptr : Word
  alloc : Word
  objBase : Word
  last : ℕ
  ptr_ne_alloc : ptr ≠ alloc
  slot_ne_ptr : ∀ k < hp.nThreads, hp.slotAddr k ≠ ptr
  slot_ne_alloc : ∀ k < hp.nThreads, hp.slotAddr k ≠ alloc
  obj_ne_ptr : ∀ i, 1 ≤ i → i ≤ last → objAddr objBase (BitVec.ofNat 32 i) ≠ ptr
  obj_ne_alloc : ∀ i, 1 ≤ i → i ≤ last → objAddr objBase (BitVec.ofNat 32 i) ≠ alloc
  obj_ne_slot : ∀ i, 1 ≤ i → i ≤ last → ∀ k < hp.nThreads,
    objAddr objBase (BitVec.ofNat 32 i) ≠ hp.slotAddr k
  obj_inj : ∀ i j, 1 ≤ i → i ≤ last → 1 ≤ j → j ≤ last →
    objAddr objBase (BitVec.ofNat 32 i) = objAddr objBase (BitVec.ofNat 32 j) → i = j
  one_le_last : 1 ≤ last
  last_lt : last < 0xDEAD

/-- The program points of a reader with slot `k`, and of the writer in round `v` with its
    local variables. Inside `protect` and `release` (`reading`), and inside `is_hazarded`
    (`scanning`), they are those of the hazard domain. -/
inductive ReclaimLocal where
  | rest
  | reading (h : HazardLocal)
  | deref (k : ℕ) (p : Word)
  | fetch (v : ℕ) (retired : List Word)
  | allocate (v : ℕ) (old : Option Word) (retired : List Word)
  | fill (v : ℕ) (neu : Word) (old : Option Word) (retired : List Word)
  | swing (v : ℕ) (neu : Word) (old : Option Word) (retired : List Word)
  | scanning (v : ℕ) (r : Word) (h : HazardLocal) (todo still : List Word)
  | free (v : ℕ) (r : Word) (todo still : List Word)
  | finished (retired : List Word)
  deriving DecidableEq, Repr

/-- The object that the writer scans for or frees. -/
def ReclaimLocal.target : ReclaimLocal → Option Word
  | .scanning _ r _ _ _ => some r
  | .free _ r _ _ => some r
  | _ => none

/-- One iteration of a reader, or the start of the writer. -/
inductive ReclaimOp where
  | iterate
  | write
  deriving DecidableEq, Repr

namespace ReclaimTest

variable (c : ReclaimTest)

/-- The object of round `i`. -/
def obj (i : ℕ) : Word := objAddr c.objBase (BitVec.ofNat 32 i)

/-- The only pointer that is protected. -/
def source (a : Word) : Bool := a = c.ptr

/-- The functions of the hazard domain, called with the id `tid`. -/
def hazard (tid : ℤ) : ThreadCode Unit Word Word HazardOp HazardLocal :=
  c.hp.code c.source fun _ => tid

/-- A call of one of them at the program point `h`; `none` throws. -/
def call (tid : ℤ) (h : HazardLocal) (op : HazardOp) : Option HazardLocal :=
  (c.hazard tid).command (fun _ => h) () op

/-- A reader calls `release`. If that threw, the reader would stop there. -/
def beginRelease (k : ℕ) (p : Word) : ReclaimLocal :=
  .reading ((c.call k (.holding k p) .release).getD .idle)

/-- A reader inside `protect` or `release`, or after it: what was protected is read unless
    it is null. -/
def readerAt : HazardLocal → ReclaimLocal
  | .holding k p => if p ≠ 0 then .deref k p else c.beginRelease k p
  | .idle => .rest
  | h => .reading h

/-- The head of the writer's loop after round `v`. -/
def nextRound (v : ℕ) (retired : List Word) : ReclaimLocal :=
  if v + 1 ≤ c.last then .fetch (v + 1) retired else .finished retired

/-- The loop over the retired objects; `still` are those that have to wait. -/
def reclaim (v : ℕ) : List Word → List Word → ReclaimLocal
  | [], still => c.nextRound v still
  | r :: todo, still => .scanning v r ((c.call 0 .idle (.isHazarded r)).getD .idle) todo still

/-- The writer and the readers. The first object is published without an old one. Inside the
    functions of the hazard domain the id plays no part: it was checked when they began. -/
def code {T : Type*} [DecidableEq T] (writer : T) (tid : T → ℤ) :
    ThreadCode T Word Word ReclaimOp ReclaimLocal where
  command locals t
    | .iterate =>
      if locals t = .rest ∧ t ≠ writer then
        (c.call (tid t) .idle (.protect c.ptr)).map .reading
      else none
    | .write => if locals t = .rest ∧ t = writer then some (.allocate 1 none []) else none
  next
    | .rest => none
    | .reading h => (c.hazard 0).next h
    | .deref _ p => some (.read p)
    | .fetch _ _ => some (.read c.ptr)
    | .allocate _ _ _ => some (.fetchAndAdd c.alloc 1)
    | .fill v neu _ _ => some (.write neu (BitVec.ofNat 32 v))
    | .swing _ neu _ _ => some (.write c.ptr neu)
    | .scanning _ _ h _ _ => (c.hazard 0).next h
    | .free _ r _ _ => some (.write r poison)
    | .finished _ => none
  resume
    | .reading h, reply => c.readerAt ((c.hazard 0).resume h reply)
    | .deref k p, _ => c.beginRelease k p
    | .fetch v retired, .value old => .allocate v (some old) retired
    | .allocate v old retired, .value a => .fill v (objAddr c.objBase (a + 1)) old retired
    | .fill v neu old retired, _ => .swing v neu old retired
    | .swing v _ none retired, _ => c.nextRound v retired
    | .swing v _ (some old) retired, _ => c.reclaim v (retired ++ [old]) []
    | .scanning v r h todo still, reply =>
      match c.hp.hazarded h reply with
      | some true => c.reclaim v todo (still ++ [r])
      | some false => .free v r todo still
      | none => .scanning v r ((c.hazard 0).resume h reply) todo still
    | .free v _ todo still, _ => c.reclaim v todo still
    | l, _ => l
  foreign _ := false

-- ════════════════════════════════════════════════════════════════════════
-- The invariant
-- ════════════════════════════════════════════════════════════════════════

/-- The writer's part of memory: `n` objects are made, number `linked` is published unless it
    is 0, and what is retired and not freed is older. -/
structure HeapOk (m : Word → Word) (n linked : ℕ) (pending : List Word) : Prop where
  alloc_eq : m c.alloc = BitVec.ofNat 32 n
  ptr_eq : m c.ptr = if linked = 0 then 0 else c.obj linked
  linked_le : linked ≤ n
  le_last : n ≤ c.last
  live : linked ≠ 0 → m (c.obj linked) = BitVec.ofNat 32 linked
  older : ∀ r ∈ pending, ∃ j, 1 ≤ j ∧ j < linked ∧ r = c.obj j

/-- The object that round `v` retires. -/
def oldOf (v : ℕ) : Option Word := if v = 1 then none else some (c.obj (v - 1))

/-- What the writer knows. -/
def WriterOk (m : Word → Word) : ReclaimLocal → Prop
  | .rest => c.HeapOk m 0 0 []
  | .fetch v retired => 2 ≤ v ∧ v ≤ c.last ∧ c.HeapOk m (v - 1) (v - 1) retired
  | .allocate v old retired =>
    1 ≤ v ∧ v ≤ c.last ∧ old = c.oldOf v ∧ c.HeapOk m (v - 1) (v - 1) retired
  | .fill v neu old retired =>
    1 ≤ v ∧ old = c.oldOf v ∧ neu = c.obj v ∧ c.HeapOk m v (v - 1) retired
  | .swing v neu old retired =>
    1 ≤ v ∧ old = c.oldOf v ∧ neu = c.obj v ∧ c.HeapOk m v (v - 1) retired ∧
      m (c.obj v) = BitVec.ofNat 32 v
  | .scanning v r h todo still =>
    1 ≤ v ∧ (∃ i < c.hp.nThreads, h = .scan r i) ∧ c.HeapOk m v v (r :: (todo ++ still))
  | .free v r todo still => 1 ≤ v ∧ c.HeapOk m v v (r :: (todo ++ still))
  | .finished retired => ∃ v, c.HeapOk m v v retired
  | _ => False

/-- What a reader with the id `tid` knows: its slot, and that its object is as it was made. -/
def ReaderOk (tid : ℤ) (m : Word → Word) : ReclaimLocal → Prop
  | .rest => True
  | .reading h => c.hp.SlotOk c.source tid m h
  | .deref k p => c.hp.SlotOk c.source tid m (.holding k p) ∧
    ∃ i, 1 ≤ i ∧ i ≤ c.last ∧ p = c.obj i ∧ m p = BitVec.ofNat 32 i
  | _ => False

variable {T : Type*}

abbrev State (T : Type*) := ThreadState T (Word → Word) ReclaimLocal

/-- The invariant: a scan has passed no slot of a reader that uses the scanned object, and
    nobody uses the object that is being freed. -/
structure Inv (writer : T) (tid : T → ℤ) (s : State T) : Prop where
  heap : c.WriterOk s.mem (s.locals writer)
  readers : ∀ t, t ≠ writer → c.ReaderOk (tid t) s.mem (s.locals t)
  scanning : ∀ v r i todo still, s.locals writer = .scanning v r (.scan r i) todo still →
    ∀ t k, s.locals t = .deref k r → i ≤ k
  freeing : ∀ v r todo still, s.locals writer = .free v r todo still →
    ∀ t k, s.locals t ≠ .deref k r

variable {c} {m m' : Word → Word} {l : ReclaimLocal} {n v : ℕ} {pending : List Word}

/-- The writer's part of memory is its own words and the objects. -/
theorem HeapOk.of_eq (h : c.HeapOk m n v pending) (halloc : m' c.alloc = m c.alloc)
    (hptr : m' c.ptr = m c.ptr) (hobj : v ≠ 0 → m' (c.obj v) = m (c.obj v)) :
    c.HeapOk m' n v pending :=
  ⟨halloc.trans h.alloc_eq, hptr.trans h.ptr_eq, h.linked_le, h.le_last,
    fun hv => (hobj hv).trans (h.live hv), h.older⟩

theorem HeapOk.mono {pending' : List Word} (h : c.HeapOk m n v pending)
    (hsub : ∀ r ∈ pending', r ∈ pending) : c.HeapOk m n v pending' :=
  ⟨h.alloc_eq, h.ptr_eq, h.linked_le, h.le_last, h.live, fun r hr => h.older r (hsub r hr)⟩

/-- The write of a slot leaves the writer's part alone. -/
theorem HeapOk.slot (h : c.HeapOk m n v pending) {k : ℕ} (hk : k < c.hp.nThreads) (x : Word) :
    c.HeapOk (Function.update m (c.hp.slotAddr k) x) n v pending := by
  refine h.of_eq ?_ ?_ fun hv => ?_
  · exact Function.update_of_ne (c.slot_ne_alloc k hk).symm _ _
  · exact Function.update_of_ne (c.slot_ne_ptr k hk).symm _ _
  · have hle := h.linked_le.trans h.le_last
    exact Function.update_of_ne (c.obj_ne_slot v (Nat.pos_of_ne_zero hv) hle k hk) _ _

theorem WriterOk.slot (h : c.WriterOk m l) {k : ℕ} (hk : k < c.hp.nThreads) (x : Word) :
    c.WriterOk (Function.update m (c.hp.slotAddr k) x) l := by
  cases l with
  | rest => exact HeapOk.slot h hk x
  | fetch v retired => exact ⟨h.1, h.2.1, h.2.2.slot hk x⟩
  | allocate v old retired => exact ⟨h.1, h.2.1, h.2.2.1, h.2.2.2.slot hk x⟩
  | fill v neu old retired => exact ⟨h.1, h.2.1, h.2.2.1, h.2.2.2.slot hk x⟩
  | swing v neu old retired =>
    obtain ⟨hv, hold, hneu, hheap, hmade⟩ := h
    refine ⟨hv, hold, hneu, hheap.slot hk x, ?_⟩
    exact (Function.update_of_ne (c.obj_ne_slot v hv hheap.le_last k hk) _ _).trans hmade
  | scanning v r h' todo still => exact ⟨h.1, h.2.1, h.2.2.slot hk x⟩
  | free v r todo still => exact ⟨h.1, h.2.slot hk x⟩
  | finished retired =>
    obtain ⟨v, hheap⟩ := h
    exact ⟨v, hheap.slot hk x⟩
  | _ => exact h.elim

/-- A step that leaves the reader's slot alone, and its object as it was made. -/
theorem ReaderOk.of_eq {j : ℤ} (h : c.ReaderOk j m l)
    (hslot : ∀ k, c.hp.validateTid j = some k → m' (c.hp.slotAddr k) = m (c.hp.slotAddr k))
    (hobj : ∀ k i, l = .deref k (c.obj i) → 1 ≤ i → i ≤ c.last →
      m (c.obj i) = BitVec.ofNat 32 i → m' (c.obj i) = BitVec.ofNat 32 i) :
    c.ReaderOk j m' l := by
  cases l with
  | reading h' => exact HazardDomain.SlotOk.of_eq h hslot
  | deref k p =>
    obtain ⟨hheld, i, hi, hlast, rfl, hlive⟩ := h
    exact ⟨hheld.of_eq hslot, i, hi, hlast, rfl, hobj k i rfl hi hlast hlive⟩
  | _ => exact h

/-- A write that is no slot, and leaves an object in use as it was made. -/
theorem ReaderOk.update {j : ℤ} (h : c.ReaderOk j m l) {a x : Word}
    (hslot : ∀ k < c.hp.nThreads, c.hp.slotAddr k ≠ a)
    (hobj : ∀ k i, l = .deref k a → 1 ≤ i → i ≤ c.last → a = c.obj i → x = BitVec.ofNat 32 i) :
    c.ReaderOk j (Function.update m a x) l := by
  refine h.of_eq (fun k hk => ?_) fun k i hl hi hlast hlive => ?_
  · exact Function.update_of_ne (hslot k (HazardDomain.validateTid_eq_some.mp hk).2) _ _
  · by_cases ha : c.obj i = a
    · rw [ha, Function.update_self]
      exact hobj k i (ha ▸ hl) hi hlast ha.symm
    · rw [Function.update_of_ne ha, hlive]

-- ════════════════════════════════════════════════════════════════════════
-- Steps
-- ════════════════════════════════════════════════════════════════════════

variable {writer t : T} {tid : T → ℤ} {s : State T}

/-- The published object is none of those that are scanned or freed. -/
theorem HeapOk.ne_ptr {r : Word} (h : c.HeapOk m v v pending) (hv : 1 ≤ v) (hr : r ∈ pending) :
    m c.ptr ≠ r := by
  obtain ⟨j, hj, hlt, rfl⟩ := h.older r hr
  rw [h.ptr_eq, if_neg (by omega)]
  intro heq
  have hvj := c.obj_inj v j hv h.le_last hj (by have := h.le_last; omega) heq
  omega

/-- A published object is as it was made. -/
theorem WriterOk.published (h : c.WriterOk m l) (hp : m c.ptr ≠ 0) :
    ∃ i, 1 ≤ i ∧ i ≤ c.last ∧ m c.ptr = c.obj i ∧ m (m c.ptr) = BitVec.ofNat 32 i := by
  have hheap : ∃ n linked pending, c.HeapOk m n linked pending := by
    cases l with
    | rest => exact ⟨_, _, _, h⟩
    | fetch v retired => exact ⟨_, _, _, h.2.2⟩
    | allocate v old retired => exact ⟨_, _, _, h.2.2.2⟩
    | fill v neu old retired => exact ⟨_, _, _, h.2.2.2⟩
    | swing v neu old retired => exact ⟨_, _, _, h.2.2.2.1⟩
    | scanning v r h' todo still => exact ⟨_, _, _, h.2.2⟩
    | free v r todo still => exact ⟨_, _, _, h.2⟩
    | finished retired => exact ⟨_, _, _, h.choose_spec⟩
    | _ => exact h.elim
  obtain ⟨n, linked, pending, hheap⟩ := hheap
  have hptr := hheap.ptr_eq
  have hlinked : linked ≠ 0 := by
    intro h0
    rw [if_pos h0] at hptr
    exact hp hptr
  rw [if_neg hlinked] at hptr
  exact ⟨linked, Nat.pos_of_ne_zero hlinked, hheap.linked_le.trans hheap.le_last, hptr,
    hptr ▸ hheap.live hlinked⟩

/-- A call keeps what the caller knows of its slot. -/
theorem slotOk_call {j : ℤ} {h h' : HazardLocal} {op : HazardOp}
    (hok : c.hp.SlotOk c.source j m h) (hcall : c.call j h op = some h') :
    c.hp.SlotOk c.source j m h' := by
  have hcmd : (c.hp.code c.source fun _ : Unit => j).command (fun _ => h) () op = some h' := hcall
  exact HazardDomain.SlotOk.command hok hcmd

/-- A reader that holds its object goes on to release it. -/
theorem ReaderOk.beginRelease {j : ℤ} {k : ℕ} {p : Word}
    (h : c.hp.SlotOk c.source j m (.holding k p)) : c.ReaderOk j m (c.beginRelease k p) := by
  obtain rfl := (HazardDomain.validateTid_eq_some.mp h.1).1
  cases hcall : c.call k (.holding k p) .release with
  | none =>
    rw [ReclaimTest.beginRelease, hcall]
    trivial
  | some h' =>
    rw [ReclaimTest.beginRelease, hcall]
    exact slotOk_call h hcall

/-- What is protected is live, and so the reader may read it. -/
theorem ReaderOk.readerAt {j : ℤ} {h : HazardLocal} (hok : c.hp.SlotOk c.source j m h)
    (hlive : ∀ k p, h = .holding k p → p ≠ 0 →
      ∃ i, 1 ≤ i ∧ i ≤ c.last ∧ p = c.obj i ∧ m p = BitVec.ofNat 32 i) :
    c.ReaderOk j m (c.readerAt h) := by
  cases h with
  | idle => trivial
  | holding k p =>
    simp only [ReclaimTest.readerAt]
    split
    · next hp => exact ⟨hok, hlive k p rfl hp⟩
    · exact ReaderOk.beginRelease hok
  | _ => exact hok

theorem holding_of_readerAt {h : HazardLocal} {k : ℕ} {p : Word}
    (heq : c.readerAt h = .deref k p) : h = .holding k p := by
  cases h with
  | holding k' p' =>
    simp only [ReclaimTest.readerAt] at heq
    split at heq
    · cases heq
      rfl
    · cases heq
  | _ => cases heq

variable [DecidableEq T]

/-- A step of a reader that leaves the writer's part alone, and by which it begins to use at
    most the published object. -/
theorem Inv.reader_step (h : c.Inv writer tid s) (ht : t ≠ writer)
    (hheap : c.WriterOk m (s.locals writer))
    (hothers : ∀ u, u ≠ t → u ≠ writer → c.ReaderOk (tid u) m (s.locals u))
    (hl : c.ReaderOk (tid t) m l)
    (hderef : ∀ k p, l = .deref k p → p = s.mem c.ptr) :
    c.Inv writer tid ((s.setMem m).setLocal t l) := by
  have hwriter : ((s.setMem m).setLocal t l).locals writer = s.locals writer :=
    ThreadState.setLocal_of_ne _ ht.symm _
  -- a reader that begins to use an object uses none that is retired
  have hnew : ∀ v r pending k, c.HeapOk s.mem v v pending → 1 ≤ v → r ∈ pending →
      l ≠ .deref k r := fun v r pending k hp hv hr hlk =>
    hp.ne_ptr hv hr (hderef k r hlk).symm
  refine ⟨hwriter ▸ hheap, fun u hu => ?_, ?_, ?_⟩
  · exact ThreadState.forall_setLocal (s := s.setMem m)
      (P := fun u l => u ≠ writer → c.ReaderOk (tid u) m l) (fun _ => hl) hothers u hu
  · intro v r i todo still hw u k hu
    rw [hwriter] at hw
    by_cases hut : u = t
    · subst hut
      rw [ThreadState.setLocal_self] at hu
      have hok := h.heap
      rw [hw] at hok
      exact absurd hu (hnew v r _ k hok.2.2 hok.1 List.mem_cons_self)
    · rw [ThreadState.setLocal_of_ne _ hut] at hu
      exact h.scanning v r i todo still hw u k hu
  · intro v r todo still hw u k hu
    rw [hwriter] at hw
    by_cases hut : u = t
    · subst hut
      rw [ThreadState.setLocal_self] at hu
      have hok := h.heap
      rw [hw] at hok
      exact hnew v r _ k hok.2 hok.1 List.mem_cons_self hu
    · rw [ThreadState.setLocal_of_ne _ hut] at hu
      exact h.freeing v r todo still hw u k hu

/-- A reader moves on without a write. -/
theorem Inv.reader_local (h : c.Inv writer tid s) (ht : t ≠ writer)
    (hl : c.ReaderOk (tid t) s.mem l) (hderef : ∀ k p, l = .deref k p → p = s.mem c.ptr) :
    c.Inv writer tid (s.setLocal t l) :=
  h.reader_step (m := s.mem) ht h.heap (fun u _ hu => h.readers u hu) hl hderef

/-- A reader writes its slot. -/
theorem Inv.reader_slot (h : c.Inv writer tid s) (hd : c.hp.DistinctTids tid) (ht : t ≠ writer)
    {k : ℕ} (hk : c.hp.validateTid (tid t) = some k) {x : Word}
    (hl : c.ReaderOk (tid t) (Function.update s.mem (c.hp.slotAddr k) x) l)
    (hderef : ∀ k p, l = .deref k p → p = s.mem c.ptr) :
    c.Inv writer tid ((s.setMem (Function.update s.mem (c.hp.slotAddr k) x)).setLocal t l) := by
  have hlt := (HazardDomain.validateTid_eq_some.mp hk).2
  refine h.reader_step ht (h.heap.slot hlt x) (fun u hut hu => ?_) hl hderef
  refine (h.readers u hu).of_eq (fun j hj => hd.update_slotAddr hut hk hj) ?_
  intro _ i _ hi hlast hlive
  exact (Function.update_of_ne (c.obj_ne_slot i hi hlast k hlt) _ _).trans hlive

/-- A step of the writer that leaves the slots and the objects in use alone. -/
theorem inv_writer_step (hl : c.WriterOk m l)
    (hreaders : ∀ t, t ≠ writer → c.ReaderOk (tid t) m (s.locals t))
    (hscan : ∀ v r i todo still, l = .scanning v r (.scan r i) todo still →
      ∀ t k, t ≠ writer → s.locals t = .deref k r → i ≤ k)
    (hfree : ∀ v r todo still, l = .free v r todo still →
      ∀ t k, t ≠ writer → s.locals t ≠ .deref k r) :
    c.Inv writer tid ((s.setMem m).setLocal writer l) := by
  have hnot : ∀ k p, l ≠ .deref k p := by
    rintro k p rfl
    exact hl
  refine ⟨?_, fun t ht => ?_, ?_, ?_⟩
  · rw [ThreadState.setLocal_self]
    exact hl
  · rw [ThreadState.setLocal_of_ne _ ht]
    exact hreaders t ht
  · intro v r i todo still hw t k ht
    rw [ThreadState.setLocal_self] at hw
    by_cases htw : t = writer
    · subst htw
      rw [ThreadState.setLocal_self] at ht
      exact absurd ht (hnot k r)
    · rw [ThreadState.setLocal_of_ne _ htw] at ht
      exact hscan v r i todo still hw t k htw ht
  · intro v r todo still hw t k ht
    rw [ThreadState.setLocal_self] at hw
    by_cases htw : t = writer
    · subst htw
      rw [ThreadState.setLocal_self] at ht
      exact hnot k r ht
    · rw [ThreadState.setLocal_of_ne _ htw] at ht
      exact hfree v r todo still hw t k htw ht

/-- A step of the writer to a point at which it neither scans nor frees. -/
theorem inv_writer_move (hl : c.WriterOk m l)
    (hreaders : ∀ t, t ≠ writer → c.ReaderOk (tid t) m (s.locals t)) (htarget : l.target = none) :
    c.Inv writer tid ((s.setMem m).setLocal writer l) := by
  refine inv_writer_step hl hreaders ?_ ?_
  · rintro v r i todo still rfl
    cases htarget
  · rintro v r todo still rfl
    cases htarget

/-- The head of the writer's loop. -/
theorem HeapOk.nextRound (h : c.HeapOk m v v pending) (hv : 1 ≤ v) :
    c.WriterOk m (c.nextRound v pending) := by
  unfold ReclaimTest.nextRound
  split
  · next hlast =>
    refine ⟨by omega, hlast, ?_⟩
    rwa [Nat.add_sub_cancel]
  · exact ⟨v, h⟩

/-- The writer goes on with the retired objects; a scan starts before all slots. -/
theorem Inv.reclaim (todo still : List Word) (hv : 1 ≤ v)
    (hheap : c.HeapOk m v v (todo ++ still))
    (hreaders : ∀ t, t ≠ writer → c.ReaderOk (tid t) m (s.locals t)) :
    c.Inv writer tid ((s.setMem m).setLocal writer (c.reclaim v todo still)) := by
  cases todo with
  | nil =>
    refine inv_writer_move (hheap.nextRound hv) hreaders ?_
    simp only [ReclaimTest.reclaim, ReclaimTest.nextRound]
    split <;> rfl
  | cons r todo =>
    refine inv_writer_step ⟨hv, ⟨0, c.hp.pos, rfl⟩, hheap⟩ hreaders ?_ ?_
    · intro v' r' i todo' still' hl t k _ _
      cases hl
      exact Nat.zero_le k
    · intro v' r' todo' still' hl
      cases hl

/-- The allocation counter goes up. -/
theorem HeapOk.allocate (h : c.HeapOk m (v - 1) (v - 1) pending) (hv : 1 ≤ v)
    (hlast : v ≤ c.last) :
    c.HeapOk (Function.update m c.alloc (m c.alloc + 1)) v (v - 1) pending := by
  refine ⟨?_, ?_, by omega, hlast, fun hne => ?_, h.older⟩
  · rw [Function.update_self, h.alloc_eq]
    have hv' : v = v - 1 + 1 := by omega
    rw [hv', BitVec.ofNat_add]
    rfl
  · rw [Function.update_of_ne c.ptr_ne_alloc]
    exact h.ptr_eq
  · have hobj := c.obj_ne_alloc (v - 1) (by omega) h.le_last
    exact (Function.update_of_ne hobj _ _).trans (h.live hne)

/-- The new object is made. -/
theorem HeapOk.fill (h : c.HeapOk m v (v - 1) pending) (hv : 1 ≤ v) :
    c.HeapOk (Function.update m (c.obj v) (BitVec.ofNat 32 v)) v (v - 1) pending := by
  have hle := h.le_last
  refine h.of_eq ?_ ?_ fun hne => ?_
  · exact Function.update_of_ne (c.obj_ne_alloc v hv h.le_last).symm _ _
  · exact Function.update_of_ne (c.obj_ne_ptr v hv h.le_last).symm _ _
  · refine Function.update_of_ne (fun heq => ?_) _ _
    have hsame := c.obj_inj (v - 1) v (by omega) (by omega) hv h.le_last heq
    omega

/-- The new object is published, and the old one is retired. -/
theorem HeapOk.swing (h : c.HeapOk m v (v - 1) pending) (hv : 1 ≤ v)
    (hmade : m (c.obj v) = BitVec.ofNat 32 v) :
    c.HeapOk (Function.update m c.ptr (c.obj v)) v v (pending ++ (c.oldOf v).toList) := by
  refine ⟨?_, ?_, le_rfl, h.le_last, fun _ => ?_, fun r hr => ?_⟩
  · exact (Function.update_of_ne c.ptr_ne_alloc.symm _ _).trans h.alloc_eq
  · rw [Function.update_self, if_neg (by omega)]
  · exact (Function.update_of_ne (c.obj_ne_ptr v hv h.le_last) _ _).trans hmade
  · rcases List.mem_append.mp hr with hr | hr
    · obtain ⟨j, hj, hlt, rfl⟩ := h.older r hr
      exact ⟨j, hj, by omega, rfl⟩
    · unfold oldOf at hr
      split at hr
      · cases hr
      · obtain rfl := List.mem_singleton.mp hr
        exact ⟨v - 1, by omega, by omega, rfl⟩

/-- A retired object is freed. -/
theorem HeapOk.free {r : Word} (h : c.HeapOk m v v (r :: pending)) (x : Word) :
    c.HeapOk (Function.update m r x) v v pending := by
  obtain ⟨j, hj, hlt, rfl⟩ := h.older r List.mem_cons_self
  have hle := h.le_last
  refine (h.of_eq ?_ ?_ fun hne => ?_).mono fun r hr => List.mem_cons_of_mem _ hr
  · exact Function.update_of_ne (c.obj_ne_alloc j hj (by omega)).symm _ _
  · exact Function.update_of_ne (c.obj_ne_ptr j hj (by omega)).symm _ _
  · refine Function.update_of_ne (fun heq => ?_) _ _
    have hsame := c.obj_inj v j (by omega) h.le_last hj (by omega) heq
    omega

/-- The writer reads the pointer to the object that it will retire. -/
theorem Inv.fetch (h : c.Inv writer tid s) {retired : List Word}
    (hl : s.locals writer = .fetch v retired) :
    c.Inv writer tid (s.setLocal writer (.allocate v (some (s.mem c.ptr)) retired)) := by
  have hok := h.heap
  rw [hl] at hok
  obtain ⟨hv, hlast, hheap⟩ := hok
  refine inv_writer_move ⟨by omega, hlast, ?_, hheap⟩ h.readers rfl
  rw [oldOf, if_neg (by omega), hheap.ptr_eq, if_neg (by omega)]

/-- The writer takes the next index. -/
theorem Inv.allocate (h : c.Inv writer tid s) {old : Option Word} {retired : List Word}
    (hl : s.locals writer = .allocate v old retired) :
    c.Inv writer tid
      ((s.setMem (Function.update s.mem c.alloc (s.mem c.alloc + 1))).setLocal writer
        (.fill v (objAddr c.objBase (s.mem c.alloc + 1)) old retired)) := by
  have hok := h.heap
  rw [hl] at hok
  obtain ⟨hv, hlast, hold, hheap⟩ := hok
  refine inv_writer_move ⟨hv, hold, ?_, hheap.allocate hv hlast⟩ (fun t ht => ?_) rfl
  · have hv' : v = v - 1 + 1 := by omega
    rw [hheap.alloc_eq, obj, hv', BitVec.ofNat_add]
    rfl
  · refine (h.readers t ht).update c.slot_ne_alloc fun k i _ hi hlast ha => ?_
    exact absurd ha.symm (c.obj_ne_alloc i hi hlast)

/-- The writer makes the new object. -/
theorem Inv.fill (h : c.Inv writer tid s) {neu : Word} {old : Option Word} {retired : List Word}
    (hl : s.locals writer = .fill v neu old retired) :
    c.Inv writer tid ((s.setMem (Function.update s.mem neu (BitVec.ofNat 32 v))).setLocal writer
      (.swing v neu old retired)) := by
  have hok := h.heap
  rw [hl] at hok
  obtain ⟨hv, hold, rfl, hheap⟩ := hok
  refine inv_writer_move ⟨hv, hold, rfl, hheap.fill hv, Function.update_self _ _ _⟩
    (fun t ht => ?_) rfl
  refine (h.readers t ht).update (fun k hk => ?_) fun k i _ hi hlast ha => ?_
  · exact (c.obj_ne_slot v hv hheap.le_last k hk).symm
  · rw [c.obj_inj v i hv hheap.le_last hi hlast ha]

/-- The writer publishes the new object and retires the old one. -/
theorem Inv.swing (h : c.Inv writer tid s) {neu : Word} {old : Option Word} {retired : List Word}
    (hl : s.locals writer = .swing v neu old retired) (reply : Reply Word) :
    c.Inv writer tid ((s.setMem (Function.update s.mem c.ptr neu)).setLocal writer
      ((c.code writer tid).resume (.swing v neu old retired) reply)) := by
  have hok := h.heap
  rw [hl] at hok
  obtain ⟨hv, rfl, rfl, hheap, hmade⟩ := hok
  have hheap' := hheap.swing hv hmade
  have hreaders : ∀ t, t ≠ writer →
      c.ReaderOk (tid t) (Function.update s.mem c.ptr (c.obj v)) (s.locals t) := fun t ht =>
    (h.readers t ht).update c.slot_ne_ptr fun k i _ hi hlast ha =>
      absurd ha.symm (c.obj_ne_ptr i hi hlast)
  cases hold : c.oldOf v with
  | none =>
    rw [hold, Option.toList_none, List.append_nil] at hheap'
    exact Inv.reclaim [] _ hv hheap' hreaders
  | some o =>
    rw [hold] at hheap'
    exact Inv.reclaim _ _ hv (by rwa [List.append_nil]) hreaders

omit [DecidableEq T] in
/-- The slot of a reader that uses `r` holds `r`, so a scan that finds another value in slot `i`
    has yet to come to it. -/
theorem Inv.slot_of_deref (h : c.Inv writer tid s) {r : Word} {i k : ℕ} {todo still : List Word}
    (hl : s.locals writer = .scanning v r (.scan r i) todo still)
    (hx : s.mem (c.hp.slotAddr i) ≠ r) (ht : t ≠ writer) (htk : s.locals t = .deref k r) :
    i + 1 ≤ k ∧ k < c.hp.nThreads := by
  have hle := h.scanning v r i todo still hl t k htk
  have hread := h.readers t ht
  rw [htk] at hread
  obtain ⟨⟨hk, hslot⟩, -⟩ := hread
  have hne : k ≠ i := by
    rintro rfl
    exact hx hslot
  exact ⟨by omega, (HazardDomain.validateTid_eq_some.mp hk).2⟩

/-- The writer reads slot `i`. -/
theorem Inv.scan (h : c.Inv writer tid s) {r : Word} {i : ℕ} {todo still : List Word}
    (hl : s.locals writer = .scanning v r (.scan r i) todo still) :
    c.Inv writer tid (s.setLocal writer
      ((c.code writer tid).resume (s.locals writer) (.value (s.mem (c.hp.slotAddr i))))) := by
  have hok := h.heap
  rw [hl] at hok ⊢
  obtain ⟨hv, ⟨i', hi, hscan⟩, hheap⟩ := hok
  cases hscan
  simp only [code, HazardDomain.hazarded]
  by_cases hx : s.mem (c.hp.slotAddr i) = r
  · rw [if_pos hx]
    refine Inv.reclaim _ _ hv (hheap.mono fun q hq => ?_) h.readers
    simp only [List.mem_append, List.mem_cons, List.not_mem_nil, or_false] at hq ⊢
    tauto
  rw [if_neg hx]
  by_cases hn : i + 1 < c.hp.nThreads
  · rw [if_pos hn]
    have hresume : (c.hazard 0).resume (.scan r i) (.value (s.mem (c.hp.slotAddr i))) =
        .scan r (i + 1) := by
      simp [hazard, HazardDomain.code, hx, hn]
    rw [hresume]
    refine inv_writer_step ⟨hv, ⟨i + 1, hn, rfl⟩, hheap⟩ h.readers ?_ ?_
    · intro v' r' i' todo' still' heq t k ht htk
      cases heq
      exact (h.slot_of_deref hl hx ht htk).1
    · intro v' r' todo' still' heq
      cases heq
  · rw [if_neg hn]
    refine inv_writer_step ⟨hv, hheap⟩ h.readers ?_ ?_
    · intro v' r' i' todo' still' heq
      cases heq
    · intro v' r' todo' still' heq t k ht htk
      cases heq
      -- the scan is over: the slot would come after the last one
      have hlater := h.slot_of_deref hl hx ht htk
      omega

/-- The writer frees an object that nobody uses. -/
theorem Inv.free (h : c.Inv writer tid s) {r : Word} {todo still : List Word}
    (hl : s.locals writer = .free v r todo still) :
    c.Inv writer tid
      ((s.setMem (Function.update s.mem r poison)).setLocal writer (c.reclaim v todo still)) := by
  have hok := h.heap
  rw [hl] at hok
  obtain ⟨hv, hheap⟩ := hok
  have hlt := hheap.le_last
  obtain ⟨j, hj, hjv, hrj⟩ := hheap.older r List.mem_cons_self
  refine Inv.reclaim _ _ hv (hheap.free poison) fun t ht => ?_
  refine (h.readers t ht).update (fun k hk => ?_) fun k i hderef _ _ _ => ?_
  · rw [hrj]
    exact (c.obj_ne_slot j hj (by omega) k hk).symm
  · exact absurd hderef (h.freeing v r todo still hl t k)

/-- The accesses of the writer. -/
theorem Inv.access_writer (h : c.Inv writer tid s) {acc : Access Word Word}
    (hnext : (c.code writer tid).next (s.locals writer) = some acc) :
    c.Inv writer tid ((s.setMem (acc.exec s.mem).1).setLocal writer
      ((c.code writer tid).resume (s.locals writer) (acc.exec s.mem).2)) := by
  have hok := h.heap
  cases hl : s.locals writer with
  | fetch v retired =>
    rw [hl] at hnext
    cases hnext
    rw [Access.exec_read]
    exact h.fetch hl
  | allocate v old retired =>
    rw [hl] at hnext
    cases hnext
    exact h.allocate hl
  | fill v neu old retired =>
    rw [hl] at hnext
    cases hnext
    exact h.fill hl
  | swing v neu old retired =>
    rw [hl] at hnext
    cases hnext
    exact h.swing hl _
  | scanning v r h' todo still =>
    rw [hl] at hok hnext
    obtain ⟨-, ⟨i, -, rfl⟩, -⟩ := hok
    cases hnext
    rw [Access.exec_read, ← hl]
    exact h.scan hl
  | free v r todo still =>
    rw [hl] at hnext
    cases hnext
    exact h.free hl
  | rest =>
    rw [hl] at hnext
    cases hnext
  | finished retired =>
    rw [hl] at hnext
    cases hnext
  | _ =>
    rw [hl] at hok
    exact hok.elim

/-- A reader inside `protect` or `release`. -/
theorem Inv.reading (h : c.Inv writer tid s) (hd : c.hp.DistinctTids tid) (ht : t ≠ writer)
    {h' : HazardLocal} (hl : s.locals t = .reading h') {acc : Access Word Word}
    (hnext : (c.hazard 0).next h' = some acc) :
    c.Inv writer tid ((s.setMem (acc.exec s.mem).1).setLocal t
      (c.readerAt ((c.hazard 0).resume h' (acc.exec s.mem).2))) := by
  have hslot := h.readers t ht
  rw [hl] at hslot
  change c.hp.SlotOk c.source (tid t) s.mem h' at hslot
  -- what `protect` returns is published at this moment
  have hptr : ∀ k p, (c.hazard 0).resume h' (acc.exec s.mem).2 = .holding k p →
      s.mem c.ptr = p ∧ (acc.exec s.mem).1 = s.mem := by
    intro k p hheld
    obtain ⟨a, ha, hp, hm⟩ := hslot.source_of_holding hnext hheld
    obtain rfl : a = c.ptr := of_decide_eq_true ha
    exact ⟨hp, hm⟩
  have hl' : c.ReaderOk (tid t) (acc.exec s.mem).1
      (c.readerAt ((c.hazard 0).resume h' (acc.exec s.mem).2)) := by
    refine ReaderOk.readerAt (hslot.access hnext) fun k p hheld hp => ?_
    obtain ⟨hq, hm⟩ := hptr k p hheld
    rw [hm]
    obtain ⟨i, hi, hlast, hpi, hlive⟩ := h.heap.published (hq ▸ hp)
    rw [hq] at hpi hlive
    exact ⟨i, hi, hlast, hpi, hlive⟩
  have hderef : ∀ k p, c.readerAt ((c.hazard 0).resume h' (acc.exec s.mem).2) = .deref k p →
      p = s.mem c.ptr := fun k p heq => (hptr k p (holding_of_readerAt heq)).1.symm
  rcases hslot.exec_fst hnext with hm | ⟨k, x, hk, hm⟩
  · rw [hm] at hl' ⊢
    exact h.reader_local ht hl' hderef
  · rw [hm] at hl' ⊢
    exact h.reader_slot hd ht hk hl' hderef

/-- The accesses of a reader. -/
theorem Inv.access_reader (h : c.Inv writer tid s) (hd : c.hp.DistinctTids tid) (ht : t ≠ writer)
    {acc : Access Word Word} (hnext : (c.code writer tid).next (s.locals t) = some acc) :
    c.Inv writer tid ((s.setMem (acc.exec s.mem).1).setLocal t
      ((c.code writer tid).resume (s.locals t) (acc.exec s.mem).2)) := by
  have hok := h.readers t ht
  cases hl : s.locals t with
  | reading h' =>
    rw [hl] at hnext
    exact h.reading hd ht hl hnext
  | deref k p =>
    rw [hl] at hok hnext
    cases hnext
    rw [Access.exec_read]
    exact h.reader_local ht (ReaderOk.beginRelease hok.1) fun k p heq => by cases heq
  | rest =>
    rw [hl] at hnext
    cases hnext
  | _ =>
    rw [hl] at hok
    exact hok.elim

/-- The start of the writer and of a reader's iteration. -/
theorem Inv.command (h : c.Inv writer tid s) {op : ReclaimOp}
    (hcmd : (c.code writer tid).command s.locals t op = some l) :
    c.Inv writer tid (s.setLocal t l) := by
  cases op with
  | iterate =>
    simp only [code] at hcmd
    split at hcmd
    · next hcall =>
      obtain ⟨h', hprotect, rfl⟩ := Option.map_eq_some_iff.mp hcmd
      have hidle : c.hp.SlotOk c.source (tid t) s.mem .idle := trivial
      exact h.reader_local hcall.2 (slotOk_call hidle hprotect) fun k p heq => by cases heq
    · cases hcmd
  | write =>
    simp only [code] at hcmd
    split at hcmd
    · next hcall =>
      obtain ⟨hrest, rfl⟩ := hcall
      cases hcmd
      have hok := h.heap
      rw [hrest] at hok
      exact inv_writer_move (m := s.mem) ⟨le_rfl, c.one_le_last, rfl, hok⟩ h.readers rfl
    · cases hcmd

/-- What threads of the test do. -/
abbrev Event (T : Type*) := ThreadEvent T ReclaimOp Word Word ReclaimLocal

/-- The reads of the readers so far found their objects as they were made. -/
def ReadsLive (c : ReclaimTest) (es : List (Event T)) : Prop :=
  ∀ t k p acc x, .accessed t (.deref k p) acc (.value x) ∈ es →
    ∃ i, 1 ≤ i ∧ i ≤ c.last ∧ p = c.obj i ∧ x = BitVec.ofNat 32 i

omit [DecidableEq T] in
theorem ReadsLive.concat {es : List (Event T)} (h : c.ReadsLive es) {e : Event T}
    (he : ∀ t k p acc x, e = .accessed t (.deref k p) acc (.value x) →
      ∃ i, 1 ≤ i ∧ i ≤ c.last ∧ p = c.obj i ∧ x = BitVec.ofNat 32 i) :
    c.ReadsLive (es ++ [e]) := by
  intro t k p acc x hmem
  rcases List.mem_append.mp hmem with hmem | hmem
  · exact h t k p acc x hmem
  · exact he t k p acc x (List.mem_singleton.mp hmem).symm

/-- The invariant and the reads, along every run over a flat memory. -/
theorem inv_run (hd : c.hp.DistinctTids tid)
    (acts : List (ThreadAction T ReclaimOp Word Word)) :
    c.Inv writer tid ((c.code writer tid).run .flat (.start (fun _ => 0) .rest) acts) ∧
      c.ReadsLive ((c.code writer tid).trace .flat (.start (fun _ => 0) .rest) acts) := by
  refine (c.code writer tid).trace_invariant
    (P := fun es s => c.Inv writer tid s ∧ c.ReadsLive es) ⟨⟨?_, ?_, ?_, ?_⟩, ?_⟩ ?_ ?_ ?_ acts
  · exact ⟨rfl, rfl, le_rfl, Nat.zero_le _, fun h => absurd rfl h, fun r hr => by cases hr⟩
  · exact fun _ _ => trivial
  · intro v r i todo still heq
    cases heq
  · intro v r todo still heq
    cases heq
  · intro t k p acc x hmem
    cases hmem
  · exact fun es s t op l h hcmd =>
      ⟨h.1.command hcmd, h.2.concat fun t k p acc x heq => by cases heq⟩
  · intro es s t acc h hnext
    constructor
    · by_cases ht : t = writer
      · subst ht
        exact h.1.access_writer hnext
      · exact h.1.access_reader hd ht hnext
    · refine h.2.concat fun t' k p acc' x heq => ?_
      injection heq with htt hlocal hacc hreply
      -- the writer never uses an object
      have ht : t ≠ writer := by
        rintro rfl
        have hok := h.1.heap
        rw [hlocal] at hok
        exact hok
      have hok := h.1.readers t ht
      rw [hlocal] at hok hnext
      obtain ⟨-, i, hi, hlast, hpi, hlive⟩ := hok
      obtain rfl : Access.read p = acc := Option.some.inj hnext
      rw [Access.exec_read] at hreply
      exact ⟨i, hi, hlast, hpi, (Reply.value.inj hreply).symm.trans hlive⟩
  · intro es s t acc _ hf
    cases hf

/-- **No use after free.** One writer and any number of readers with distinct ids run the
    test on any cores of a fresh system, in any interleaving and with any visit orders.
    Whenever a reader reads the object that it protects, it finds the value with which that
    object was made, and not the poison word. -/
theorem readers_see_live_objects {n : ℕ} (core : T → Fin n)
    (visits : ℕ → (i : Fin n) → VisitOrder i) (c : ReclaimTest) (writer : T) (tid : T → ℤ)
    (hd : c.hp.DistinctTids tid) (acts : List (ThreadAction T ReclaimOp Word Word)) :
    ∀ t k p acc x, .accessed t (.deref k p) acc (.value x) ∈
        (c.code writer tid).trace (dut core visits) (.start (.new n) .rest) acts →
      x ≠ poison ∧ ∃ i, 1 ≤ i ∧ i ≤ c.last ∧ p = c.obj i ∧ x = BitVec.ofNat 32 i := by
  intro t k p acc x hmem
  rw [dut_trace] at hmem
  obtain ⟨i, hi, hlast, hpi, rfl⟩ := (inv_run hd acts).2 t k p acc x hmem
  refine ⟨fun heq => ?_, i, hi, hlast, hpi, rfl⟩
  have hlt := c.last_lt
  have hnat := congrArg BitVec.toNat heq
  rw [BitVec.toNat_ofNat, Nat.mod_eq_of_lt (by omega)] at hnat
  have hpoison : poison.toNat = 0xDEAD := rfl
  omega

/-- The slots and the objects of the test, as numbers. -/
theorem testSlot_toNat {k : ℕ} (hk : k < 4) :
    (HazardDomain.slotAddr ⟨0x640, 4, by decide, by decide⟩ k).toNat = 0x640 + 4 * k := by
  rw [HazardDomain.slotAddr, BitVec.toNat_add, BitVec.toNat_ofNat]
  show (0x640 + 4 * k % 2 ^ 32) % 2 ^ 32 = _
  omega

theorem testObj_toNat {i : ℕ} (hi : i ≤ 3000) :
    (objAddr 0x20000 (BitVec.ofNat 32 i)).toNat = 0x20000 + 8 * i := by
  rw [objAddr, BitVec.toNat_add, BitVec.toNat_mul, BitVec.toNat_ofNat]
  show (0x20000 + i % 2 ^ 32 * 8 % 2 ^ 32) % 2 ^ 32 = _
  omega

/-- The words of the test with 3000 objects and four threads. -/
def testWords : ReclaimTest where
  hp := ⟨0x640, 4, by decide, by decide⟩
  ptr := 0x600
  alloc := 0x604
  objBase := 0x20000
  last := 3000
  ptr_ne_alloc := by decide
  slot_ne_ptr k hk heq := by
    have hnat := testSlot_toNat hk
    rw [heq] at hnat
    change 0x600 = _ at hnat
    omega
  slot_ne_alloc k hk heq := by
    have hnat := testSlot_toNat hk
    rw [heq] at hnat
    change 0x604 = _ at hnat
    omega
  obj_ne_ptr i _ hi heq := by
    have hnat := testObj_toNat hi
    rw [heq] at hnat
    change 0x600 = _ at hnat
    omega
  obj_ne_alloc i _ hi heq := by
    have hnat := testObj_toNat hi
    rw [heq] at hnat
    change 0x604 = _ at hnat
    omega
  obj_ne_slot i _ hi k hk heq := by
    have hnat := testObj_toNat hi
    have hslot := testSlot_toNat hk
    rw [heq] at hnat
    change k < 4 at hk
    omega
  obj_inj i j _ hi _ hj heq := by
    have hnat := testObj_toNat hi
    rw [heq, testObj_toNat hj] at hnat
    omega
  one_le_last := by decide
  last_lt := by decide

/-- The first object is published and protected; the second is published, and a scan finds
    the first one in a slot; then it is read. -/
def readRetired : List (ThreadAction Bool ReclaimOp Word Word) :=
  [.command false .write, .access false, .access false, .access false,
    .command true .iterate, .access true, .access true, .access true,
    .access false, .access false, .access false, .access false, .access false, .access false,
    .access true]

theorem readRetired_live :
    let trace := (testWords.code false fun t : Bool => if t then 1 else -1).trace
      (dut (fun t : Bool => if t then 1 else 0) fun _ i => .byIndex (n := 2) i)
      (.start (.new 2) .rest) readRetired
    .accessed true (.deref 1 0x20008) (.read 0x20008) (.value 1) ∈ trace ∧
      (1 : Word) ≠ poison := by
  intro trace
  have hmem : .accessed true (.deref 1 0x20008) (.read 0x20008) (.value 1) ∈ trace := by
    decide +kernel
  have hd : testWords.hp.DistinctTids fun t : Bool => if t then 1 else -1 := by
    unfold HazardDomain.DistinctTids
    decide
  exact ⟨hmem, (readers_see_live_objects _ _ testWords false _ hd readRetired _ _ _ _ _ hmem).1⟩

end ReclaimTest

end MesiCoherence
