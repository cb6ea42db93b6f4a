import Mathlib.Logic.Nontrivial.Basic
import Mathlib.Algebra.Order.Ring.Nat
import Mathlib.Tactic.Common

/-!
# Flat byte memory

A memory is a function from addresses to cells. `blit` overwrites one range
with given contents; `fill` and `move` are the `memset` and `memmove` of such
a memory. `moves` copies a range in consecutive pieces, each piece read from
the memory the pieces before it left, and `moves_eq_move_iff` says when that
is one `move`.
-/

namespace TrackFM.Lib

abbrev Mem (α : Type u) := Nat → α

variable {α : Type u}

/-- Overwrite `[d, d + n)`: cell `d + j` becomes `f j`. -/
def blit (m : Mem α) (d n : Nat) (f : Nat → α) : Mem α := fun a =>
  if d ≤ a ∧ a < d + n then f (a - d) else m a

def fill (m : Mem α) (d n : Nat) (v : α) : Mem α := blit m d n fun _ => v

/-- The source is read before anything is written, so the ranges may overlap. -/
def move (m : Mem α) (d s n : Nat) : Mem α := blit m d n fun j => m (s + j)

@[simp] theorem blit_at (h : j < n) : blit m d n f (d + j) = f j := by
  simp [blit, h]

theorem blit_in (h₁ : d ≤ a) (h₂ : a < d + n) : blit m d n f a = f (a - d) := by
  simp [blit, h₁, h₂]

theorem blit_out (h : a < d ∨ d + n ≤ a) : blit m d n f a = m a := by
  have : ¬(d ≤ a ∧ a < d + n) := by omega
  simp [blit, this]

@[simp] theorem blit_zero : blit m d 0 f = m := by
  funext a
  exact blit_out (by omega)

theorem blit_blit : blit (blit m d n f) (d + n) k g =
    blit m d (n + k) fun j => if j < n then f j else g (j - n) := by
  funext a
  simp only [blit]
  by_cases h₁ : d + n ≤ a ∧ a < d + n + k
  · have h₂ : d ≤ a ∧ a < d + (n + k) := by omega
    have h₃ : ¬a - d < n := by omega
    simp [h₁, h₂, h₃, show a - (d + n) = a - d - n by omega]
  · by_cases h₂ : d ≤ a ∧ a < d + n
    · have h₃ : d ≤ a ∧ a < d + (n + k) := by omega
      have h₄ : a - d < n := by omega
      simp [h₁, h₂, h₃, h₄]
    · have h₃ : ¬(d ≤ a ∧ a < d + (n + k)) := by omega
      simp [h₁, h₂, h₃]

theorem blit_congr (h : ∀ j < n, f j = g j) : blit m d n f = blit m d n g := by
  funext a
  by_cases ha : d ≤ a ∧ a < d + n
  · rw [blit_in ha.1 ha.2, blit_in ha.1 ha.2, h _ (by omega)]
  · rw [blit_out (by omega), blit_out (by omega)]

theorem blit_over : blit (blit m d n f) d n g = blit m d n g := by
  funext a
  by_cases ha : d ≤ a ∧ a < d + n
  · rw [blit_in ha.1 ha.2, blit_in ha.1 ha.2]
  · rw [blit_out (by omega), blit_out (by omega), blit_out (by omega)]

theorem fill_fill : fill (fill m d n v) (d + n) k v = fill m d (n + k) v := by
  simp [fill, blit_blit]

theorem move_in (h₁ : d ≤ a) (h₂ : a < d + n) : move m d s n a = m (s + (a - d)) := blit_in h₁ h₂

theorem move_out (h : a < d ∨ d + n ≤ a) : move m d s n a = m a := blit_out h

@[simp] theorem move_zero : move m d s 0 = m := blit_zero

-- ---------------------------------------------------------------------------
-- Copying in pieces
-- ---------------------------------------------------------------------------

/-- Copy the pieces of the given lengths one after another, lowest first. -/
def moves (m : Mem α) (d s : Nat) : List Nat → Mem α
  | [] => m
  | n :: ns => moves (move m d s n) (d + n) (s + n) ns

theorem moves_out (h : a < d ∨ d + ns.sum ≤ a) : moves m d s ns a = m a := by
  induction ns generalizing m d s with
  | nil => rfl
  | cons n ns ih =>
    simp only [List.sum_cons] at h
    rw [moves, ih (by omega), move_out (by omega)]

/-- The copy reads its source and leaves the rest: memories that agree on a set
that holds the source agree on it afterwards. -/
theorem moves_congr {U : Nat → Prop} (hs : ∀ j < ns.sum, U (s + j)) (h : ∀ a, U a → m a = m' a) :
    ∀ a, U a → moves m d s ns a = moves m' d s ns a := by
  induction ns generalizing m m' d s with
  | nil => exact h
  | cons n ns ih =>
    simp only [List.sum_cons] at hs
    refine ih (fun j hj => ?_) fun a ha => ?_
    · rw [Nat.add_assoc]
      exact hs (n + j) (by omega)
    · by_cases hin : d ≤ a ∧ a < d + n
      · rw [move_in hin.1 hin.2, move_in hin.1 hin.2]
        exact h _ (hs _ (by omega))
      · rw [move_out (by omega), move_out (by omega)]
        exact h a ha

/-- The pieces do not clobber what later pieces read: the destination does
not start inside the source. -/
theorem moves_eq_move (h : d ≤ s ∨ s + ns.sum ≤ d) : moves m d s ns = move m d s ns.sum := by
  induction ns generalizing m d s with
  | nil => simp [moves]
  | cons n ns ih =>
    simp only [List.sum_cons] at h ⊢
    rw [moves, ih (by omega)]
    calc move (move m d s n) (d + n) (s + n) ns.sum
        = blit (blit m d n fun j => m (s + j)) (d + n) ns.sum fun j => m (s + n + j) := by
          refine blit_congr fun j hj => ?_
          exact move_out (by omega)
      _ = move m d s (n + ns.sum) := by
          rw [blit_blit, move]
          refine blit_congr fun j _ => ?_
          by_cases hj : j < n
          · simp [hj]
          · simp [hj, show s + n + (j - n) = s + j by omega]

/-- Copying upwards, a destination cell holds a source cell that is not above
its own. -/
theorem moves_reads (hs : s ≤ d) (hj : j < ns.sum) :
    ∃ k ≤ j, ∀ m : Mem α, moves m d s ns (d + j) = m (s + k) := by
  induction ns generalizing d s j with
  | nil => simp at hj
  | cons n ns ih =>
    simp only [List.sum_cons] at hj
    by_cases hn : j < n
    · refine ⟨j, Nat.le_refl j, fun m => ?_⟩
      rw [moves, moves_out (by omega), move_in (by omega) (by omega), Nat.add_sub_cancel_left]
    · obtain ⟨k, hk, h⟩ := ih (d := d + n) (s := s + n) (j := j - n) (by omega) (by omega)
      rw [show d + n + (j - n) = d + j by omega] at h
      by_cases hin : d ≤ s + n + k ∧ s + n + k < d + n
      · refine ⟨s + n + k - d, by omega, fun m => ?_⟩
        rw [moves, h, move_in hin.1 hin.2]
      · refine ⟨n + k, by omega, fun m => ?_⟩
        rw [moves, h, move_out (by omega), Nat.add_assoc]

/-- With the destination inside the source and a cut between, the first cell
past both the cut and the overlap reads a cell the first piece overwrote. -/
theorem moves_clobber (hs : s < d) (hd : d < s + (n + ns.sum)) (hn : 0 < n) (hns : 0 < ns.sum) :
    ∃ j < n + ns.sum, ∃ k < j, ∀ m : Mem α, moves m d s (n :: ns) (d + j) = m (s + k) := by
  refine ⟨max n (d - s), by omega, ?_⟩
  have hj : n ≤ max n (d - s) := by omega
  generalize hmax : max n (d - s) = j at hj
  obtain ⟨k, hk, h⟩ := moves_reads (α := α) (show s + n ≤ d + n by omega)
    (show j - n < ns.sum by omega)
  rw [show d + n + (j - n) = d + j by omega] at h
  by_cases hin : d ≤ s + n + k ∧ s + n + k < d + n
  · refine ⟨s + n + k - d, by omega, fun m => ?_⟩
    rw [moves, h, move_in hin.1 hin.2]
  · refine ⟨n + k, by omega, fun m => ?_⟩
    rw [moves, h, move_out (by omega), Nat.add_assoc]

/-- Copying in pieces is `memmove` for every content exactly when the
destination does not start inside the source, or there is one piece only. -/
theorem moves_eq_move_iff [Nontrivial α] (hn : 0 < n) (hns : ∀ k ∈ ns, 0 < k) :
    (∀ m : Mem α, moves m d s (n :: ns) = move m d s (n + ns.sum)) ↔
      d ≤ s ∨ s + (n + ns.sum) ≤ d ∨ ns = [] := by
  constructor
  · intro h
    by_contra hc
    obtain ⟨hs, hd, hne⟩ : s < d ∧ d < s + (n + ns.sum) ∧ ns ≠ [] :=
      ⟨by omega, by omega, fun hnil => hc (.inr (.inr hnil))⟩
    have hpos : 0 < ns.sum := by
      obtain ⟨k, ks, rfl⟩ := List.exists_cons_of_ne_nil hne
      have := hns k (by simp)
      simp only [List.sum_cons]
      omega
    obtain ⟨j, hj, k, hk, hm⟩ := moves_clobber (α := α) hs hd hn hpos
    obtain ⟨x, y, hxy⟩ := exists_pair_ne α
    have := hm (fun a => if a = s + j then x else y)
    rw [h, move_in (by omega) (by omega)] at this
    simp [show k ≠ j by omega] at this
    exact hxy this
  · rintro (h | h | rfl) m
    · exact moves_eq_move (.inl h)
    · exact moves_eq_move (.inr h)
    · simp [moves]

end TrackFM.Lib
