import Mathlib.Data.List.Perm.Basic
import MesiCoherence.Lib.SequentialConsistency

/-!
# Interleavings

A list whose elements carry a key (a thread, a core) is an interleaving of its sublists
of one key each. What is known of every sublist is known of the list.
-/

namespace List

variable {α κ : Type*} [DecidableEq κ] (key : α → κ)

/-- Lists with the same elements for every key have the same elements. -/
theorem perm_of_filter_perm [DecidableEq α] {l l' : List α}
    (h : ∀ k, (l.filter fun a => key a = k).Perm (l'.filter fun a => key a = k)) : l.Perm l' := by
  rw [perm_iff_count]
  intro a
  have hcount := (h (key a)).count_eq a
  rwa [count_filter (by simp), count_filter (by simp)] at hcount

/-- A relation that holds along the elements of every key holds between any two elements
    of the same key. -/
theorem pairwise_of_filter {R : α → α → Prop} {l : List α}
    (h : ∀ k, (l.filter fun a => key a = k).Pairwise R) :
    l.Pairwise fun a b => key a = key b → R a b := by
  induction l with
  | nil => exact .nil
  | cons a l ih =>
    refine pairwise_cons.mpr ⟨fun b hb hkey => ?_, ih fun k => ?_⟩
    · have hown := h (key a)
      rw [filter_cons_of_pos (by simp)] at hown
      refine (pairwise_cons.mp hown).1 b (mem_filter.mpr ⟨hb, ?_⟩)
      simp [hkey]
    · refine (h k).sublist ?_
      exact (sublist_cons_self a l).filter _

end List

section Lift

variable {T A V α : Type*} [DecidableEq T]

/-- An interleaving of the images of some lists is the image of an interleaving of the
    lists. -/
theorem exists_interleaving (f : α → MemEvent A V) (order : List (T × MemEvent A V))
    (lists : T → List α) (h : ∀ t, threadEvents t order = (lists t).map f) :
    ∃ order' : List (T × α), order'.map (fun p => (p.1, f p.2)) = order ∧
      ∀ t, (order'.filter fun p => p.1 = t).map Prod.snd = lists t := by
  induction order generalizing lists with
  | nil =>
    refine ⟨[], rfl, fun t => ?_⟩
    have hnil := (h t).symm
    exact (List.map_eq_nil_iff.mp hnil).symm
  | cons x order ih =>
    obtain ⟨t, e⟩ := x
    have hhead := h t
    rw [threadEvents_cons_self] at hhead
    obtain ⟨a, rest, hlist, rfl, hrest⟩ := List.map_eq_cons_iff.mp hhead.symm
    obtain ⟨order', hmap, hproj⟩ := ih (Function.update lists t rest) (by
      intro u
      by_cases hu : u = t
      · subst hu
        rw [Function.update_self, hrest]
      · rw [Function.update_of_ne hu, ← h u, threadEvents_cons_of_ne hu])
    refine ⟨(t, a) :: order', by rw [List.map_cons, hmap], fun u => ?_⟩
    have hu := hproj u
    by_cases htu : t = u
    · subst htu
      rw [Function.update_self] at hu
      rw [List.filter_cons_of_pos (by simp), List.map_cons, hu, hlist]
    · rw [Function.update_of_ne (Ne.symm htu)] at hu
      rw [List.filter_cons_of_neg (by simpa using htu), hu]

end Lift
