import MesiCoherence.Model.FlatRefinement

/-!
# Reachable states of the system

In every state a fresh system can reach, each line is unheld, owned by one cache in
E or M, or shared by at least two caches in S; clean copies agree with memory; and
a cache holds only registered words of lines it holds.
-/

namespace MesiCoherence

variable {n : ℕ}

/-- A line is unheld, exclusively owned, or shared by at least two caches. -/
def SnoopingBus.LineShape (b : SnoopingBus n) (line : Word) : Prop :=
  (∀ i, b.lineState i line = .I) ∨
  (∃ i, (b.lineState i line = .E ∨ b.lineState i line = .M) ∧
    ∀ j, j ≠ i → b.lineState j line = .I) ∨
  ((∃ i j, i ≠ j ∧ b.lineState i line ≠ .I ∧ b.lineState j line ≠ .I) ∧
    ∀ i, b.lineState i line ≠ .I → b.lineState i line = .S)

namespace Coherent

variable {base flat : Word → Word} {b : SnoopingBus n}

theorem lineShape (h : Coherent base flat b) (hp : Paired b) (line : Word) :
    b.LineShape line := by
  by_cases hown : ∃ i, b.lineState i line = .E ∨ b.lineState i line = .M
  · obtain ⟨i, hi⟩ := hown
    exact Or.inr (Or.inl ⟨i, hi, fun j hj => h.exclusive i j line (Ne.symm hj) hi.symm⟩)
  · have hS : ∀ i, b.lineState i line ≠ .I → b.lineState i line = .S := by
      intro i hi
      cases hs : b.lineState i line with
      | I => exact absurd hs hi
      | S => rfl
      | E => exact absurd ⟨i, Or.inl hs⟩ hown
      | M => exact absurd ⟨i, Or.inr hs⟩ hown
    by_cases hheld : ∃ i, b.lineState i line ≠ .I
    · obtain ⟨i, hi⟩ := hheld
      obtain ⟨j, hji, hj⟩ := hp i line (hS i hi)
      exact Or.inr (Or.inr ⟨⟨i, j, Ne.symm hji, hi, by rw [hj]; decide⟩, hS⟩)
    · exact Or.inl fun i => by
        by_contra hi
        exact hheld ⟨i, hi⟩

/-- A clean copy shows what memory holds, where a missing word reads as 0. -/
theorem peek_eq_mem (h : Coherent (fun _ => 0) flat b) {i : Fin n} {a : Word}
    (hs : b.lineState i (lineOf a) = .E ∨ b.lineState i (lineOf a) = .S) :
    (b.controllers i).peek a = b.mem.read a := by
  have hclean : b.mem.read a = flat a := by
    refine h.clean a fun j hj => ?_
    by_cases hji : j = i
    · subst hji
      rw [hj] at hs
      rcases hs with hs | hs <;> cases hs
    · have hI := h.exclusive j i _ hji (Or.inl hj)
      rw [hI] at hs
      rcases hs with hs | hs <;> cases hs
  rw [hclean]
  apply h.peek_of_held
  rcases hs with hs | hs <;> rw [hs] <;> decide

end Coherent

theorem Paired.step {s : MesiSystem n} {base flat : Word → Word} (hp : Paired s.bus)
    (hc : Coherent base flat s.bus) (i : Input n) :
    Paired ((MesiSystem.machine n).step s i).1.bus := by
  cases i with
  | call c =>
    change Paired (s.exec c).1.bus
    have hacq : ∀ a, Paired (s.bus.acquireExclusive c.visit a).1 := fun a =>
      hp.acquireExclusive c.visit hc a
    rw [s.exec_bus]
    cases c.access with
    | read a => exact hp.processorRead c.visit a
    | write a v => exact (hacq a).putWord c.core a v
    | cas a e v =>
      dsimp only
      split
      · exact (hacq a).putWord c.core a v
      · exact hacq a
    | fetchAndAdd a d => exact (hacq a).putWord c.core a _
  | registerAddr a => exact hp
  | enableTracing on => exact hp
  | clearTrace => exact hp

/-- Every reachable state is coherent for some represented memory, and pairs its
    sharers. -/
theorem reachable_coherent (n : ℕ) (inputs : List (Input n)) :
    (∃ flat, Coherent (fun _ => 0) flat
      ((MesiSystem.machine n).run (MesiSystem.new n) inputs).bus) ∧
    Paired ((MesiSystem.machine n).run (MesiSystem.new n) inputs).bus := by
  refine (MesiSystem.machine n).run_invariant
    (P := fun s => (∃ flat, Coherent (fun _ => 0) flat s.bus) ∧ Paired s.bus) ?_ ?_ inputs
  · rintro s i ⟨⟨flat, hc⟩, hp⟩
    exact ⟨⟨_, (step_refines hc i (keepsPreload_zero s i)).1⟩, hp.step hc i⟩
  · refine ⟨⟨_, Coherent.newOver n .new⟩, ?_⟩
    intro i l hS
    cases hS

/-- **Coherence of reachable states.** After any inputs to a fresh system: the shape of
    every line; agreement of clean copies with memory; no stale or unregistered word
    in any cache. -/
theorem reachable_line_invariants (n : ℕ) (inputs : List (Input n)) :
    let b := ((MesiSystem.machine n).run (MesiSystem.new n) inputs).bus
    (∀ line, b.LineShape line) ∧
    (∀ i a, b.lineState i (lineOf a) = .E ∨ b.lineState i (lineOf a) = .S →
      (b.controllers i).peek a = b.mem.read a) ∧
    (∀ i a, (b.controllers i).hasWord a = true →
      a ∈ b.wordsInLine (lineOf a) ∧ b.lineState i (lineOf a) ≠ .I) := by
  obtain ⟨⟨flat, hc⟩, hp⟩ := reachable_coherent n inputs
  refine ⟨fun line => hc.lineShape hp line, fun i a hs => hc.peek_eq_mem hs, ?_⟩
  intro i a hw
  obtain ⟨v, hv⟩ := Option.isSome_iff_exists.mp hw
  exact ⟨hc.data_words i a v hv, hc.data_valid i a v hv⟩

end MesiCoherence
