import TrackFM.Lib.Bytes
import Mathlib.Algebra.Order.Ring.Nat
import Mathlib.Data.List.Nodup
import Mathlib.Order.Interval.Finset.Nat

/-!
# Cutting a range at block boundaries

Memory cut into blocks of `S` cells; the range of `n` cells that starts at
offset `off` of block `i` is cut into at most one piece a block, lowest first.
-/

namespace TrackFM.Lib

structure Piece where
  slot : Nat
  off : Nat
  len : Nat
  deriving DecidableEq, Repr

def pieces (S i off n : Nat) : List Piece :=
  if off < S ∧ S - off < n then
    ⟨i, off, S - off⟩ :: pieces S (i + 1) 0 (n - (S - off))
  else if n = 0 then [] else [⟨i, off, n⟩]
termination_by n

def Piece.pos (S : Nat) (p : Piece) : Nat := p.slot * S + p.off

variable {S i off n : Nat}

@[simp] theorem pieces_zero : pieces S i off 0 = [] := by
  rw [pieces]
  simp

theorem pieces_last (hn : 0 < n) (h : n ≤ S - off) : pieces S i off n = [⟨i, off, n⟩] := by
  rw [pieces, if_neg (by omega), if_neg (by omega)]

theorem pieces_next (ho : off < S) (h : S - off < n) :
    pieces S i off n = ⟨i, off, S - off⟩ :: pieces S (i + 1) 0 (n - (S - off)) := by
  rw [pieces, if_pos ⟨ho, h⟩]

/-- Induction along the cut: the last piece, or one that ends its block and the
rest. -/
theorem pieces_induct {P : Nat → Nat → Nat → Prop} (hzero : ∀ i off, P i off 0)
    (hlast : ∀ i off n, off < S → 0 < n → n ≤ S - off → P i off n)
    (hnext : ∀ i off n, off < S → S - off < n → P (i + 1) 0 (n - (S - off)) → P i off n)
    (ho : off < S) : P i off n := by
  induction n using Nat.strongRecOn generalizing i off with
  | ind n ih =>
    by_cases hn : n = 0
    · exact hn ▸ hzero i off
    · by_cases h : n ≤ S - off
      · exact hlast i off n ho (by omega) h
      · exact hnext i off n ho (by omega) (ih _ (by omega) (by omega))

theorem pieces_mem (ho : off < S) : ∀ p ∈ pieces S i off n,
    i ≤ p.slot ∧ 0 < p.len ∧ p.off + p.len ≤ S ∧
      i * S + off ≤ p.pos S ∧ p.pos S + p.len ≤ i * S + off + n := by
  refine pieces_induct (P := fun i off n => ∀ p ∈ pieces S i off n,
    i ≤ p.slot ∧ 0 < p.len ∧ p.off + p.len ≤ S ∧
      i * S + off ≤ p.pos S ∧ p.pos S + p.len ≤ i * S + off + n) ?_ ?_ ?_ ho
  · simp
  · intro i off n _ hn h p hp
    rw [pieces_last hn h, List.mem_singleton] at hp
    subst hp
    simp only [Piece.pos]
    omega
  · intro i off n ho h ih p hp
    rw [pieces_next ho h, List.mem_cons] at hp
    rcases hp with rfl | hp
    · simp only [Piece.pos]
      omega
    · have := ih p hp
      rw [Nat.succ_mul] at this
      omega

theorem pieces_increasing (ho : off < S) :
    (pieces S i off n).Pairwise fun p q => p.slot < q.slot := by
  refine pieces_induct (P := fun i off n => (pieces S i off n).Pairwise fun p q => p.slot < q.slot)
    ?_ ?_ ?_ ho
  · simp
  · intro i off n _ hn h
    simp [pieces_last hn h]
  · intro i off n ho h ih
    rw [pieces_next ho h, List.pairwise_cons]
    exact ⟨fun q hq => (pieces_mem (by omega) q hq).1, ih⟩

theorem pieces_nodup (ho : off < S) : ((pieces S i off n).map Piece.slot).Nodup :=
  (List.pairwise_map.mpr (pieces_increasing ho)).imp Nat.ne_of_lt

theorem pieces_cover (ho : off < S) (h₁ : i * S + off ≤ a) (h₂ : a < i * S + off + n) :
    ∃ p ∈ pieces S i off n, p.pos S ≤ a ∧ a < p.pos S + p.len := by
  revert h₁ h₂
  refine pieces_induct (P := fun i off n => i * S + off ≤ a → a < i * S + off + n →
    ∃ p ∈ pieces S i off n, p.pos S ≤ a ∧ a < p.pos S + p.len) ?_ ?_ ?_ ho
  · intro i off h₁ h₂
    omega
  · intro i off n _ hn h h₁ h₂
    exact ⟨⟨i, off, n⟩, by simp [pieces_last hn h], h₁, h₂⟩
  · intro i off n ho h ih h₁ h₂
    rw [pieces_next ho h]
    by_cases ha : a < i * S + off + (S - off)
    · exact ⟨⟨i, off, S - off⟩, List.mem_cons_self .., h₁, ha⟩
    · obtain ⟨p, hp, hpa⟩ := ih (by rw [Nat.succ_mul]; omega) (by rw [Nat.succ_mul]; omega)
      exact ⟨p, List.mem_cons_of_mem _ hp, hpa⟩

theorem Piece.slot_eq {p : Piece} (hlen : p.off + p.len ≤ S) (hj : j < S)
    (h₁ : p.pos S ≤ k * S + j) (h₂ : k * S + j < p.pos S + p.len) : p.slot = k := by
  simp only [Piece.pos] at h₁ h₂
  rcases Nat.lt_trichotomy p.slot k with hlt | heq | hgt
  · have := Nat.mul_le_mul_right S (show p.slot + 1 ≤ k from hlt)
    rw [Nat.succ_mul] at this
    omega
  · exact heq
  · have := Nat.mul_le_mul_right S (show k + 1 ≤ p.slot from hgt)
    rw [Nat.succ_mul] at this
    omega

/-- Within a piece's block, the range is that piece. -/
theorem pieces_block (ho : off < S) (hp : p ∈ pieces S i off n) (hj : j < S) :
    (i * S + off ≤ p.slot * S + j ∧ p.slot * S + j < i * S + off + n) ↔
      p.off ≤ j ∧ j < p.off + p.len := by
  obtain ⟨-, -, hlen, h₁, h₂⟩ := pieces_mem ho p hp
  simp only [Piece.pos] at h₁ h₂
  constructor
  · rintro ⟨h₃, h₄⟩
    obtain ⟨q, hq, h₅, h₆⟩ := pieces_cover ho h₃ h₄
    obtain ⟨-, -, hqlen, -, -⟩ := pieces_mem ho q hq
    have hqp : q = p :=
      List.inj_on_of_nodup_map (pieces_nodup ho) hq hp (Piece.slot_eq hqlen hj h₅ h₆)
    subst hqp
    simp only [Piece.pos] at h₅ h₆
    omega
  · intro h
    omega

-- ---------------------------------------------------------------------------
-- Cells a block
-- ---------------------------------------------------------------------------

def share (S i off n k : Nat) : Nat :=
  ((Finset.range S).filter fun j => i * S + off ≤ k * S + j ∧ k * S + j < i * S + off + n).card

theorem share_piece (ho : off < S) (hp : p ∈ pieces S i off n) : share S i off n p.slot = p.len := by
  have hlen := (pieces_mem ho p hp).2.2.1
  have heq : ((Finset.range S).filter fun j =>
      i * S + off ≤ p.slot * S + j ∧ p.slot * S + j < i * S + off + n) =
      Finset.Ico p.off (p.off + p.len) := by
    ext j
    simp only [Finset.mem_filter, Finset.mem_range, Finset.mem_Ico]
    constructor
    · rintro ⟨hj, hin⟩
      exact (pieces_block ho hp hj).mp hin
    · intro hin
      exact ⟨by omega, (pieces_block ho hp (by omega)).mpr hin⟩
  rw [share, heq, Nat.card_Ico, Nat.add_sub_cancel_left]

theorem share_none (ho : off < S) (hk : ∀ p ∈ pieces S i off n, p.slot ≠ k) :
    share S i off n k = 0 := by
  rw [share, Finset.card_eq_zero, Finset.filter_eq_empty_iff]
  intro j hj hin
  obtain ⟨p, hp, h₁, h₂⟩ := pieces_cover ho hin.1 hin.2
  exact hk p hp (Piece.slot_eq (pieces_mem ho p hp).2.2.1 (Finset.mem_range.mp hj) h₁ h₂)

-- ---------------------------------------------------------------------------
-- Cutting two ranges together
-- ---------------------------------------------------------------------------

def reach (S x y : Nat) : Nat := min (S - x % S) (S - y % S)

/-- The lengths of the pieces of two ranges of `n` cells, cut wherever either
range crosses a block boundary. -/
def chunks (S x y n : Nat) : List Nat :=
  if 0 < reach S x y ∧ reach S x y < n then
    reach S x y :: chunks S (x + reach S x y) (y + reach S x y) (n - reach S x y)
  else if n = 0 then [] else [n]
termination_by n

theorem reach_pos (hS : 0 < S) : 0 < reach S x y := by
  have := Nat.mod_lt x hS
  have := Nat.mod_lt y hS
  simp only [reach]
  omega

@[simp] theorem chunks_zero : chunks S x y 0 = [] := by
  rw [chunks]
  simp

theorem chunks_last (hn : 0 < n) (h : n ≤ reach S x y) : chunks S x y n = [n] := by
  rw [chunks, if_neg (by omega), if_neg (by omega)]

theorem chunks_next (hS : 0 < S) (h : reach S x y < n) : chunks S x y n =
    reach S x y :: chunks S (x + reach S x y) (y + reach S x y) (n - reach S x y) := by
  rw [chunks, if_pos ⟨reach_pos hS, h⟩]

theorem chunks_sum (hS : 0 < S) : (chunks S x y n).sum = n := by
  induction n using Nat.strongRecOn generalizing x y with
  | ind n ih =>
    have hpos := reach_pos (x := x) (y := y) hS
    by_cases hn : n = 0
    · simp [hn]
    · by_cases h : n ≤ reach S x y
      · simp [chunks_last (Nat.pos_of_ne_zero hn) h]
      · rw [chunks_next hS (by omega), List.sum_cons, ih _ (by omega)]
        omega

theorem chunks_pos (hS : 0 < S) : ∀ k ∈ chunks S x y n, 0 < k := by
  induction n using Nat.strongRecOn generalizing x y with
  | ind n ih =>
    have hpos := reach_pos (x := x) (y := y) hS
    by_cases hn : n = 0
    · simp [hn]
    · by_cases h : n ≤ reach S x y
      · rw [chunks_last (Nat.pos_of_ne_zero hn) h]
        simpa using Nat.pos_of_ne_zero hn
      · rw [chunks_next hS (by omega)]
        intro k hk
        rcases List.mem_cons.mp hk with rfl | hk
        · exact hpos
        · exact ih _ (by omega) k hk

/-- Copying two ranges cut together is one copy for every content exactly when
the destination does not start inside the source or there is one piece. -/
theorem moves_chunks_iff [Nontrivial α] (hS : 0 < S) (hn : 0 < n) :
    (∀ m : Mem α, moves m d s (chunks S x y n) = move m d s n) ↔
      d ≤ s ∨ s + n ≤ d ∨ n ≤ reach S x y := by
  by_cases h : n ≤ reach S x y
  · rw [chunks_last hn h]
    exact ⟨fun _ => .inr (.inr h), fun _ _ => rfl⟩
  · have hsum := chunks_sum (S := S) (x := x) (y := y) (n := n) hS
    rw [chunks_next hS (by omega)] at hsum ⊢
    have hne : chunks S (x + reach S x y) (y + reach S x y) (n - reach S x y) ≠ [] := by
      intro hnil
      rw [hnil, List.sum_singleton] at hsum
      omega
    rw [List.sum_cons] at hsum
    have hiff := moves_eq_move_iff (α := α) (d := d) (s := s) (reach_pos (x := x) (y := y) hS)
      (chunks_pos (x := x + reach S x y) (y := y + reach S x y) (n := n - reach S x y) hS)
    rw [hsum] at hiff
    rw [hiff]
    simp only [hne, h]

end TrackFM.Lib
