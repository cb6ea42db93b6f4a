import Mathlib.Algebra.Order.Ring.Nat
import Mathlib.Tactic.Common

/-!
# Searching and comparing sequences

A sequence is a function from indices. `first` finds the first index below a
bound with a property, `order` compares two sequences where they first differ.
A bound may be split anywhere, which is how loops over chunks compute both.
-/

namespace TrackFM.Lib

def first (p : Nat → Bool) : Nat → Option Nat
  | 0 => none
  | n + 1 => if p 0 then some 0 else (first (fun i => p (i + 1)) n).map (· + 1)

variable {p q : Nat → Bool}

theorem first_eq_none : first p n = none ↔ ∀ j < n, p j = false := by
  induction n generalizing p with
  | zero => simp [first]
  | succ n ih =>
    cases hp : p 0 with
    | true =>
      simp only [first, hp, if_true, reduceCtorEq, false_iff]
      intro h
      cases hp.symm.trans (h 0 (Nat.succ_pos n))
    | false =>
      simp only [first, hp, Bool.false_eq_true, if_false, Option.map_eq_none_iff, ih]
      constructor
      · intro h j hj
        cases j with
        | zero => exact hp
        | succ j => exact h j (Nat.lt_of_succ_lt_succ hj)
      · exact fun h j hj => h (j + 1) (Nat.succ_lt_succ hj)

theorem first_eq_some : first p n = some k ↔ k < n ∧ p k = true ∧ ∀ j < k, p j = false := by
  induction n generalizing p k with
  | zero => simp [first]
  | succ n ih =>
    cases hp : p 0 with
    | true =>
      simp only [first, hp, if_true, Option.some.injEq]
      constructor
      · rintro rfl
        exact ⟨Nat.succ_pos n, hp, nofun⟩
      · rintro ⟨-, -, h⟩
        cases k with
        | zero => rfl
        | succ k => cases hp.symm.trans (h 0 (Nat.succ_pos k))
    | false =>
      simp only [first, hp, Bool.false_eq_true, if_false, Option.map_eq_some_iff]
      constructor
      · rintro ⟨k, hk, rfl⟩
        obtain ⟨hlt, hpk, h⟩ := ih.mp hk
        refine ⟨Nat.succ_lt_succ hlt, hpk, fun j hj => ?_⟩
        cases j with
        | zero => exact hp
        | succ j => exact h j (Nat.lt_of_succ_lt_succ hj)
      · rintro ⟨hlt, hpk, h⟩
        cases k with
        | zero => cases hp.symm.trans hpk
        | succ k =>
          exact ⟨k, ih.mpr ⟨Nat.lt_of_succ_lt_succ hlt, hpk, fun j hj =>
            h (j + 1) (Nat.succ_lt_succ hj)⟩, rfl⟩

theorem first_congr (h : ∀ j < n, p j = q j) : first p n = first q n := by
  cases hq : first q n with
  | none =>
    rw [first_eq_none] at hq ⊢
    exact fun j hj => (h j hj).trans (hq j hj)
  | some k =>
    rw [first_eq_some] at hq ⊢
    obtain ⟨hk, hqk, hbefore⟩ := hq
    exact ⟨hk, (h k hk).trans hqk, fun j hj => (h j (hj.trans hk)).trans (hbefore j hj)⟩

theorem first_mono (h : first p n = some k) (hn : n ≤ l) : first p l = some k := by
  rw [first_eq_some] at h ⊢
  exact ⟨h.1.trans_le hn, h.2⟩

theorem first_add : first p (a + b) =
    (first p a).or ((first (fun i => p (a + i)) b).map (a + ·)) := by
  cases ha : first p a with
  | some k => exact first_mono ha (Nat.le_add_right a b)
  | none =>
    have hnot := first_eq_none.mp ha
    rw [Option.none_or]
    cases hb : first (fun i => p (a + i)) b with
    | none =>
      rw [Option.map_none, first_eq_none]
      intro j hj
      rcases Nat.lt_or_ge j a with hlt | hge
      · exact hnot j hlt
      · obtain ⟨i, rfl⟩ := Nat.exists_eq_add_of_le hge
        exact first_eq_none.mp hb i (Nat.lt_of_add_lt_add_left hj)
    | some k =>
      obtain ⟨hk, hpk, hbefore⟩ := first_eq_some.mp hb
      rw [Option.map_some, first_eq_some]
      refine ⟨Nat.add_lt_add_left hk a, hpk, fun j hj => ?_⟩
      rcases Nat.lt_or_ge j a with hlt | hge
      · exact hnot j hlt
      · obtain ⟨i, rfl⟩ := Nat.exists_eq_add_of_le hge
        exact hbefore i (Nat.lt_of_add_lt_add_left hj)

-- ---------------------------------------------------------------------------
-- Comparing
-- ---------------------------------------------------------------------------

section
variable {α : Type u} [Ord α] [DecidableEq α] {f g : Nat → α}

/-- How the first `n` entries compare: as the first that differ do. -/
def order (f g : Nat → α) (n : Nat) : Ordering :=
  match first (fun i => f i != g i) n with
  | some k => compare (f k) (g k)
  | none => .eq

theorem order_first (h : first (fun i => f i != g i) n = some k) :
    order f g n = compare (f k) (g k) := by
  rw [order, h]

theorem order_same (h : ∀ j < n, f j = g j) : order f g n = .eq := by
  have hnone : first (fun i => f i != g i) n = none :=
    first_eq_none.mpr fun j hj => by simp [h j hj]
  rw [order, hnone]

theorem order_congr {f' g' : Nat → α} (hf : ∀ j < n, f j = f' j) (hg : ∀ j < n, g j = g' j) :
    order f g n = order f' g' n := by
  have hfirst : first (fun i => f i != g i) n = first (fun i => f' i != g' i) n :=
    first_congr fun j hj => by rw [hf j hj, hg j hj]
  cases h : first (fun i => f' i != g' i) n with
  | none => rw [order, order, hfirst, h]
  | some k =>
    have hk := (first_eq_some.mp h).1
    rw [order_first h, order_first (hfirst.trans h), hf k hk, hg k hk]

/-- What follows the first difference does not matter. -/
theorem order_of_difference (hk : k < n) (hne : f k ≠ g k) (hn : n ≤ l) :
    order f g l = order f g n := by
  cases h : first (fun i => f i != g i) n with
  | none => simpa [hne] using first_eq_none.mp h k hk
  | some j => rw [order_first h, order_first (first_mono h hn)]

variable [Std.LawfulEqOrd α]

theorem order_eq_iff : order f g n = .eq ↔ ∀ j < n, f j = g j := by
  refine ⟨fun h => ?_, order_same⟩
  cases hfirst : first (fun i => f i != g i) n with
  | none => simpa using first_eq_none.mp hfirst
  | some k =>
    rw [order_first hfirst, Std.compare_eq_iff_eq] at h
    simpa [h] using (first_eq_some.mp hfirst).2.1

theorem order_add : order f g (a + b) =
    (order f g a).then (order (fun i => f (a + i)) (fun i => g (a + i)) b) := by
  cases ha : first (fun i => f i != g i) a with
  | some k =>
    have hne : compare (f k) (g k) ≠ .eq := fun h => by
      simpa [Std.compare_eq_iff_eq.mp h] using (first_eq_some.mp ha).2.1
    rw [order_first ha, order_first (first_mono ha (Nat.le_add_right a b))]
    cases hcmp : compare (f k) (g k) with
    | eq => exact absurd hcmp hne
    | lt => rfl
    | gt => rfl
  | none =>
    have hsame : order f g a = .eq := by rw [order, ha]
    rw [hsame, order, first_add, ha, order]
    cases first (fun i => f (a + i) != g (a + i)) b <;> rfl

end

end TrackFM.Lib
