import Mathlib.Algebra.BigOperators.Intervals
import Mathlib.Data.Nat.ModEq

/-!
# Feeds that fail

A feed gives cells one at a time, each read a cell or a failure, until it
ends. A request reads until it has what it asks for or a read fails. Requests
of `B` cells, one after another, get what one long request gets as far as no
read fails; `pieces_items` counts the whole items in them.
-/

namespace TrackFM.Lib

variable {α : Type}

/-- What the reads of a feed give: `none` where one fails. Past its end all fail. -/
abbrev Feed (α : Type) := List (Option α)

namespace Feed

/-- The cells a request for `n` of them gets, and what it leaves. -/
def request : Nat → Feed α → List α × Feed α
  | 0, s => ([], s)
  | _ + 1, [] => ([], [])
  | _ + 1, none :: s => ([], s)
  | n + 1, some c :: s => (c :: (request n s).1, (request n s).2)

def got (n : Nat) (s : Feed α) : List α := (s.request n).1

variable {s : Feed α} {B n k p size : Nat}

theorem got_length_le : (s.got n).length ≤ n := by
  rw [got]
  induction n generalizing s with
  | zero => exact Nat.le_refl 0
  | succ n ih =>
    rcases s with - | ⟨- | c, s⟩
    · exact Nat.zero_le _
    · exact Nat.zero_le _
    · exact Nat.succ_le_succ ih

theorem request_map_some {as : List α} :
    request n (as.map some) = (as.take n, (as.drop n).map some) := by
  induction n generalizing as with
  | zero => rfl
  | succ n ih =>
    cases as with
    | nil => rfl
    | cons a as => simp only [List.map_cons, request, ih, List.take_succ_cons, List.drop_succ_cons]

theorem got_map_some {as : List α} : got n (as.map some) = as.take n :=
  congrArg Prod.fst request_map_some

theorem got_take (h : k ≤ n) : s.got k = (s.got n).take k := by
  rw [got, got]
  induction k generalizing n s with
  | zero => rfl
  | succ k ih =>
    obtain ⟨n, rfl⟩ : ∃ n', n = n' + 1 := ⟨n - 1, by omega⟩
    rcases s with - | ⟨- | c, s⟩
    · rfl
    · rfl
    · exact congrArg (c :: ·) (ih (Nat.le_of_succ_le_succ h))

/-- Two requests get what one gets, if the first gets all it asks for. -/
theorem request_add (h : (s.got k).length = k) :
    s.request (k + n) = (s.got k ++ (s.request k).2.got n, ((s.request k).2.request n).2) := by
  simp only [got] at *
  induction k generalizing s with
  | zero => rw [Nat.zero_add]; rfl
  | succ k ih =>
    rcases s with - | ⟨- | c, s⟩
    · cases h
    · cases h
    · rw [Nat.add_right_comm]
      simp only [request, ih (Nat.succ.inj h), List.cons_append]

-- ---------------------------------------------------------------------------
-- In pieces
-- ---------------------------------------------------------------------------

def after (B : Nat) (s : Feed α) : Nat → Feed α
  | 0 => s
  | p + 1 => ((s.after B p).request B).2

theorem after_map_some {as : List α} : after B (as.map some) p = (as.drop (p * B)).map some := by
  induction p with
  | zero => rw [Nat.zero_mul]; rfl
  | succ p ih => rw [after, ih, request_map_some, List.drop_drop, Nat.add_one_mul]

def piece (B n p : Nat) (s : Feed α) : List α := (s.after B p).got (min B (n - p * B))

/-- The cell that ends up at place `j`, if a piece gets that far. -/
def arrives (B : Nat) (s : Feed α) (j : Nat) : Option α := ((s.after B (j / B)).got B)[j % B]?

theorem piece_map_some {as : List α} :
    piece B n p (as.map some) = (as.drop (p * B)).take (min B (n - p * B)) := by
  rw [piece, after_map_some, got_map_some]

def items (B size n : Nat) (s : Feed α) : Nat :=
  ∑ p ∈ Finset.range (n / B + 1), (s.piece B n p).length / size

theorem after_full (h : (s.got (p * B)).length = p * B) : (s.request (p * B)).2 = s.after B p := by
  induction p with
  | zero => rw [Nat.zero_mul]; rfl
  | succ p ih =>
    rw [Nat.add_one_mul] at h ⊢
    have hp : (s.got (p * B)).length = p * B := by
      rw [got_take (Nat.le_add_right (p * B) B), List.length_take, h]
      omega
    rw [request_add hp, ih hp, after]

/-- As long as no read has failed, the next pieces get what is still to come. -/
theorem got_drop (h : p * B ≤ (s.got n).length) :
    (s.got n).drop (p * B) = (s.after B p).got (n - p * B) := by
  have hn : p * B ≤ n := h.trans got_length_le
  have hp : (s.got (p * B)).length = p * B := by
    rw [got_take hn, List.length_take]
    exact Nat.min_eq_left h
  obtain ⟨k, rfl⟩ := Nat.exists_eq_add_of_le hn
  rw [got, request_add hp, after_full hp, Nat.add_sub_cancel_left]
  exact List.drop_left' hp

theorem arrives_of_lt (hB : 0 < B) (hj : j < (s.got n).length) :
    s.arrives B j = (s.got n)[j]? := by
  have hn : j < n := hj.trans_le got_length_le
  have hle : j / B * B ≤ (s.got n).length := (Nat.div_mul_le_self j B).trans hj.le
  have hmod : j / B * B + j % B = j := Nat.div_add_mod' j B
  have hlt : j % B < B := Nat.mod_lt j hB
  have hshort : ∀ k, j % B < k →
      ((s.after B (j / B)).got k)[j % B]? = ((s.after B (j / B)).got (max k B))[j % B]? :=
    fun k hk => by rw [got_take (Nat.le_max_left k B), List.getElem?_take, if_pos hk]
  rw [arrives, got_take (Nat.le_max_right (n - j / B * B) B), List.getElem?_take, if_pos hlt,
    ← hshort _ (by omega), ← got_drop hle, List.getElem?_drop, hmod]

theorem piece_getElem? (hj : j < n) : (s.piece B n (j / B))[j % B]? = s.arrives B j := by
  have hmod : j / B * B + j % B = j := Nat.div_add_mod' j B
  rcases Nat.eq_zero_or_pos B with rfl | hB
  · rw [piece, arrives, Nat.zero_min]
  · rw [piece, arrives, got_take (Nat.min_le_left B _), List.getElem?_take, if_pos]
    have := Nat.mod_lt j hB
    omega

theorem arrives_add (hk : j < k) (hB : k ≤ B) :
    s.arrives B (i * B + j) = ((s.after B i).got k)[j]? := by
  have hj : j < B := hk.trans_le hB
  have hdiv : (i * B + j) / B = i := by
    rw [Nat.mul_comm, Nat.mul_add_div (Nat.zero_lt_of_lt hj), Nat.div_eq_of_lt hj, Nat.add_zero]
  rw [arrives, hdiv, Nat.mul_add_mod_of_lt hj, got_take hB, List.getElem?_take, if_pos hk]

theorem items_add (hB : 0 < B) (hk : k ≤ B) :
    s.items B size (i * B + k) = s.items B size (i * B) + ((s.after B i).got k).length / size := by
  have hwhole : ∀ k ≤ B, s.items B size (i * B + k) =
      ∑ p ∈ Finset.range i, ((s.after B p).got B).length / size +
        ((s.after B i).got k).length / size := fun k hk => by
    have hpieces : ∀ p ∈ Finset.range i, (s.piece B (i * B + k) p).length / size =
        ((s.after B p).got B).length / size := fun p hp => by
      have hp := Nat.mul_le_mul_right B (Finset.mem_range.mp hp)
      rw [Nat.succ_mul] at hp
      rw [piece, Nat.min_eq_left (by omega)]
    have hlast : s.piece B (i * B + k) i = (s.after B i).got k := by
      rw [piece, Nat.add_sub_cancel_left, Nat.min_eq_right hk]
    rw [← hlast, ← Finset.sum_congr rfl hpieces, ← Finset.sum_range_succ, items, Nat.mul_comm,
      Nat.mul_add_div hB]
    rcases Nat.lt_or_eq_of_le hk with hlt | rfl
    · rw [Nat.div_eq_of_lt hlt, Nat.add_zero]
    · -- the request for the next piece is for nothing
      have hnone : s.piece k (k * i + k) (i + 1) = [] := by
        rw [piece, Nat.mul_comm, Nat.add_one_mul, Nat.sub_self, Nat.min_zero]
        rfl
      rw [Nat.div_self hB, Finset.sum_range_succ, hnone, List.length_nil, Nat.zero_div,
        Nat.add_zero]
  have hnone : (s.after B i).got 0 = [] := rfl
  have hbefore := hwhole 0 (Nat.zero_le B)
  rw [Nat.add_zero, hnone, List.length_nil, Nat.zero_div, Nat.add_zero] at hbefore
  rw [hwhole k hk, hbefore]

/-- The pieces up to the one a read fails in. -/
theorem piece_length (h : p * B ≤ (s.got n).length) :
    (s.piece B n p).length = min B ((s.got n).length - p * B) := by
  rw [piece, got_take (Nat.min_le_right B _), ← got_drop h, List.length_take, List.length_drop]
  have := got_length_le (s := s) (n := n)
  omega

theorem items_eq (hB : 0 < B) (hsize : size ∣ B) : s.items B size n = (s.got n).length / size +
    ∑ p ∈ Finset.Ioc ((s.got n).length / B) (n / B), (s.piece B n p).length / size := by
  have hle : (s.got n).length / B ≤ n / B := Nat.div_le_div_right got_length_le
  have hlast := Nat.div_mul_le_self (s.got n).length B
  have hlt := Nat.lt_mul_div_succ (s.got n).length hB
  have hfull : ∀ p ∈ Finset.range ((s.got n).length / B),
      (s.piece B n p).length / size = B / size := fun p hp => by
    have hp : (p + 1) * B ≤ (s.got n).length :=
      (Nat.mul_le_mul_right B (Finset.mem_range.mp hp)).trans hlast
    rw [Nat.add_one_mul] at hp
    rw [piece_length (by omega), Nat.min_eq_left (by omega)]
  rw [items, ← Finset.sum_range_add_sum_Ico _ (Nat.add_le_add_right hle 1),
    Finset.Ico_add_one_add_one_eq_Ioc,
    Finset.sum_range_succ, Finset.sum_congr rfl hfull, Finset.sum_const, Finset.card_range,
    Nat.nsmul_eq_mul, piece_length hlast, ← Nat.mul_div_assoc _ hsize,
    ← Nat.add_div_of_dvd_right (hsize.mul_left _)]
  congr 2
  rw [Nat.mul_add_one, Nat.mul_comm B] at hlt
  omega

theorem items_eq_iff (hB : 0 < B) (hsize : size ∣ B) : s.items B size n = (s.got n).length / size ↔
    ∀ p, (s.got n).length / B < p → p ≤ n / B → (s.piece B n p).length < size := by
  have hpos : 0 < size := Nat.pos_of_dvd_of_pos hsize hB
  rw [items_eq hB hsize, Nat.add_eq_left, Finset.sum_eq_zero_iff]
  simp only [Finset.mem_Ioc, and_imp, Nat.div_eq_zero_iff, hpos.ne', false_or]

end Feed

end TrackFM.Lib
