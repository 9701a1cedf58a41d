import Mathlib.Data.Nat.Notation

/-!
# Round-robin arbitration

Clients on a ring, and a pointer from which the next requester is sought. The pointer
then moves past the client that was served. What a waiting client counts down is its
distance from the pointer: whoever is served instead of it lies in between, and the
pointer does not return to a place it has passed.

## Main definitions

- `RoundRobin.dist` — how far a client is ahead of a place on the ring
- `RoundRobin.Nearest` — the first requester from the pointer on
- `RoundRobin.Rotates` — turns that serve the nearest requester and move past it

## Main results

- `Rotates.dist_add_le` — every turn of waiting brings the pointer closer
- `Rotates.served_once` — nobody is served twice while a client waits
- `Rotates.waiting_lt` — a client waits for fewer turns than there are clients
-/

namespace RoundRobin

variable {n : ℕ}

/-- How far client `i` is ahead of a place on the ring. -/
def dist (ptr i : Fin n) : ℕ :=
  if ptr.val ≤ i.val then i.val - ptr.val else n + i.val - ptr.val

/-- Client `w` is the first requester from the pointer on. -/
structure Nearest (ptr : Fin n) (req : Fin n → Prop) (w : Fin n) : Prop where
  valid : req w
  least : ∀ i, req i → dist ptr w ≤ dist ptr i

/-- Turns that serve the nearest requester, if any, and then move the pointer past it. -/
structure Rotates (ptr : ℕ → Fin n) (req : ℕ → Fin n → Prop) (served : ℕ → Option (Fin n)) :
    Prop where
  idle : ∀ t, served t = none → ∀ i, ¬ req t i
  nearest : ∀ t w, served t = some w → Nearest (ptr t) (req t) w
  moves : ∀ t w, served t = some w → (ptr (t + 1)).val = (w.val + 1) % n

variable {p q w i : Fin n}

/-- From a place to a client, perhaps around the end of the ring. -/
theorem add_dist (p i : Fin n) :
    p.val ≤ i.val ∧ p.val + dist p i = i.val ∨ i.val < p.val ∧ p.val + dist p i = i.val + n := by
  have hp := p.isLt
  unfold dist
  split <;> omega

theorem dist_lt (p i : Fin n) : dist p i < n := by
  have hi := i.isLt
  have hway := add_dist p i
  omega

theorem add_dist_mod (p i : Fin n) : (p.val + dist p i) % n = i.val := by
  rcases add_dist p i with ⟨-, hway⟩ | ⟨-, hway⟩
  · rw [hway, Nat.mod_eq_of_lt i.isLt]
  · rw [hway, Nat.add_mod_right, Nat.mod_eq_of_lt i.isLt]

/-- A client `k` steps ahead, less than once around the ring, is at distance `k`. -/
theorem dist_of_add_mod {k : ℕ} (hk : k < n) (h : i.val = (p.val + k) % n) : dist p i = k := by
  have hp := p.isLt
  have hway := add_dist p i
  by_cases hlt : p.val + k < n
  · rw [Nat.mod_eq_of_lt hlt] at h
    omega
  · rw [Nat.mod_eq_sub_mod (by omega), Nat.mod_eq_of_lt (by omega)] at h
    omega

/-- The way to a client leads past every client that is not further ahead. -/
theorem dist_add_dist (h : dist p w ≤ dist p i) : dist p w + dist w i = dist p i := by
  have hi := i.isLt
  have hpw := add_dist p w
  have hpi := add_dist p i
  have hwi := add_dist w i
  omega

/-- Past another client the way to a client is one shorter. -/
theorem dist_succ (hq : q.val = (w.val + 1) % n) (h : w ≠ i) : dist q i + 1 = dist w i := by
  have hw := w.isLt
  have hi := i.isLt
  have hne := Fin.val_ne_of_ne h
  have hone : dist w q = 1 := dist_of_add_mod (by omega) hq
  have hway := add_dist w i
  have hadd := dist_add_dist (p := w) (w := q) (i := i) (by omega)
  omega

namespace Rotates

variable {ptr : ℕ → Fin n} {req : ℕ → Fin n → Prop} {served : ℕ → Option (Fin n)} {i w : Fin n}

/-- While a client requests, somebody is served. -/
theorem exists_served (h : Rotates ptr req served) {t : ℕ} (hi : req t i) :
    ∃ w, served t = some w := by
  cases hs : served t with
  | none => exact absurd hi (h.idle t hs i)
  | some w => exact ⟨w, rfl⟩

/-- Whoever is served while another client requests lies on the way to it. -/
theorem dist_served_le (h : Rotates ptr req served) {t : ℕ} (hi : req t i)
    (hs : served t = some w) : dist w i ≤ dist (ptr t) i := by
  have hadd := dist_add_dist ((h.nearest t w hs).least i hi)
  omega

/-- Then the pointer moves past it. -/
theorem dist_next (h : Rotates ptr req served) {t : ℕ} (hs : served t = some w) (hne : w ≠ i) :
    dist (ptr (t + 1)) i + 1 = dist w i :=
  dist_succ (h.moves t w hs) hne

/-- A turn of waiting brings the pointer closer. -/
theorem dist_step (h : Rotates ptr req served) {t : ℕ} (hi : req t i)
    (hne : served t ≠ some i) : dist (ptr (t + 1)) i + 1 ≤ dist (ptr t) i := by
  obtain ⟨w, hs⟩ := h.exists_served hi
  have hwi : w ≠ i := by
    rintro rfl
    exact hne hs
  rw [h.dist_next hs hwi]
  exact h.dist_served_le hi hs

section Waiting

variable {a b : ℕ} (h : Rotates ptr req served)
  (hreq : ∀ t, a ≤ t → t < b → req t i) (hnot : ∀ t, a ≤ t → t < b → served t ≠ some i)

include h hreq hnot

/-- So do `k` turns of waiting, by at least `k`. -/
theorem dist_add_le {t k : ℕ} (hat : a ≤ t) (htb : t + k ≤ b) :
    dist (ptr (t + k)) i + k ≤ dist (ptr t) i := by
  induction k with
  | zero => exact Nat.le_refl _
  | succ k ih =>
    have hstep := h.dist_step (hreq (t + k) (by omega) (by omega))
      (hnot (t + k) (by omega) (by omega))
    have hle := ih (by omega)
    show dist (ptr (t + k + 1)) i + (k + 1) ≤ _
    omega

/-- While a client waits, nobody is served a second time: the pointer is past it. -/
theorem not_served_later {t u : ℕ} (hat : a ≤ t) (htu : t < u) (hub : u < b)
    (hs : served t = some w) : served u ≠ some w := by
  intro hu
  have hwi : w ≠ i := by
    rintro rfl
    exact hnot t hat (by omega) hs
  obtain ⟨k, rfl⟩ := Nat.exists_eq_add_of_lt htu
  have hnext := h.dist_next hs hwi
  have hcloser := h.dist_add_le hreq hnot (t := t + 1) (k := k) (by omega) (by omega)
  rw [show t + 1 + k = t + k + 1 by omega] at hcloser
  have hway := h.dist_served_le (hreq (t + k + 1) (by omega) hub) hu
  omega

theorem served_once {t u : ℕ} (hat : a ≤ t) (htb : t < b) (hau : a ≤ u) (hub : u < b)
    (hs : served t = some w) (hu : served u = some w) : t = u := by
  rcases Nat.lt_trichotomy t u with htu | htu | htu
  · exact absurd hu (h.not_served_later hreq hnot hat htu hub hs)
  · exact htu
  · exact absurd hs (h.not_served_later hreq hnot hau htu htb hu)

/-- Bounded waiting. -/
theorem waiting_lt : b - a < n := by
  by_cases hab : a ≤ b
  · have hcloser := h.dist_add_le hreq hnot (t := a) (k := b - a) (Nat.le_refl a) (by omega)
    have hlt := dist_lt (ptr a) i
    omega
  · have hn := i.pos
    omega

end Waiting

end Rotates

end RoundRobin
