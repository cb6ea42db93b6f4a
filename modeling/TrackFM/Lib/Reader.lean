import TrackFM.Lib.Search
import Mathlib.Data.List.Induction

/-!
# Reading a sequence until an automaton stops

A `Reader` takes the entries of a sequence one by one until it is done. It
looks at no entry after that, so its result depends on those before only.
-/

namespace TrackFM.Lib

structure Reader (σ α : Type) where
  start : σ
  step : σ → α → σ
  done : σ → Bool
  done_step : ∀ s a, done s = true → step s a = s

namespace Reader

variable {σ α : Type} {R : Reader σ α} {f g : Nat → α}

def after (R : Reader σ α) (f : Nat → α) : Nat → σ
  | 0 => R.start
  | k + 1 => R.step (R.after f k) (f k)

/-- The state in which it stops; `none` if it goes on. -/
def read (R : Reader σ α) (fuel : Nat) (f : Nat → α) : Option σ :=
  (first (fun k => R.done (R.after f k)) fuel).map (R.after f)

theorem after_congr (h : ∀ j < k, f j = g j) : R.after f k = R.after g k := by
  induction k with
  | zero => rfl
  | succ k ih =>
    rw [after, after, ih fun j hj => h j (Nat.lt_succ_of_lt hj), h k (Nat.lt_succ_self k)]

theorem after_list {as : List α} (h : ∀ j (hj : j < as.length), f j = as[j]) :
    R.after f as.length = as.foldl R.step R.start := by
  induction as using List.reverseRecOn with
  | nil => rfl
  | append_singleton as a ih =>
    have hlast : f as.length = a := by
      rw [h as.length (by simp)]
      simp
    have hinit : ∀ j (hj : j < as.length), f j = as[j] := fun j hj => by
      rw [h j (by simp; omega), List.getElem_append_left hj]
    rw [List.length_append, List.length_singleton, after, ih hinit, hlast, List.foldl_append]
    rfl

theorem after_done (hd : R.done (R.after f k) = true) (hk : k ≤ l) :
    R.after f l = R.after f k := by
  induction l, hk using Nat.le_induction with
  | base => rfl
  | succ l _ ih => rw [after, ih, R.done_step _ _ hd]

theorem read_of_done (hd : R.done (R.after f k) = true) (hk : k < fuel) :
    R.read fuel f = some (R.after f k) := by
  obtain ⟨l, hl⟩ : ∃ l, first (fun k => R.done (R.after f k)) fuel = some l := by
    cases hfirst : first (fun k => R.done (R.after f k)) fuel with
    | some l => exact ⟨l, rfl⟩
    | none => cases hd.symm.trans (first_eq_none.mp hfirst k hk)
  obtain ⟨-, hdl, hbefore⟩ := first_eq_some.mp hl
  have hle : l ≤ k := Nat.le_of_not_lt fun hlt => by cases hd.symm.trans (hbefore k hlt)
  rw [read, hl, Option.map_some, after_done hdl hle]

theorem read_none (h : ∀ k < fuel, R.done (R.after f k) = false) : R.read fuel f = none := by
  rw [read, first_eq_none.mpr h, Option.map_none]

/-- What follows the entry it stops at does not matter. -/
theorem read_congr (hd : R.done (R.after f k) = true) (hk : k < fuel) (h : ∀ j < k, f j = g j) :
    R.read fuel g = R.read fuel f := by
  have hsame := after_congr (R := R) h
  rw [read_of_done hd hk, read_of_done (hsame ▸ hd) hk, hsame]

theorem goes_on (hlt : R.done (R.after f k) = false)
    (h : ∀ s, R.done s = false → ∀ j, k ≤ j → R.done (R.step s (f j)) = false) :
    ∀ l, R.done (R.after f l) = false := by
  have hbefore : ∀ l ≤ k, R.done (R.after f l) = false := fun l hl => by
    cases hd : R.done (R.after f l) with
    | false => rfl
    | true =>
      rw [after_done hd hl, hd] at hlt
      exact hlt
  intro l
  induction l with
  | zero => exact hbefore 0 (Nat.zero_le k)
  | succ l ih =>
    rcases Nat.lt_or_ge l k with hlk | hlk
    · exact hbefore (l + 1) hlk
    · exact h _ ih l hlk

end Reader

end TrackFM.Lib
