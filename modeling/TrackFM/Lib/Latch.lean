import Mathlib.Data.List.Basic

/-!
# A flag that one kind of step sets and another clears
-/

namespace TrackFM.Lib

variable {α : Type} {sets clears : α → Prop} {l l' : List α} {x : α} {k : Nat}

/-- The flag before step `k`: a step set it, and none cleared it since. -/
def Latched (sets clears : α → Prop) (l : List α) (k : Nat) : Prop :=
  ∃ i < k, (∃ x ∈ l[i]?, sets x) ∧ ∀ j, i < j → j < k → ∀ x ∈ l[j]?, ¬ clears x

theorem not_latched_zero : ¬ Latched sets clears l 0 := by
  rintro ⟨i, hi, -⟩
  exact absurd hi (Nat.not_lt_zero i)

theorem Latched.congr (hl : Latched sets clears l k) (h : ∀ i < k, l'[i]? = l[i]?) :
    Latched sets clears l' k := by
  obtain ⟨i, hi, hs, hc⟩ := hl
  refine ⟨i, hi, h i hi ▸ hs, fun j hij hj => ?_⟩
  rw [h j hj]
  exact hc j hij hj

theorem latched_append (hk : k ≤ l.length) :
    Latched sets clears (l ++ l') k ↔ Latched sets clears l k := by
  have hat : ∀ i < k, (l ++ l')[i]? = l[i]? := fun i hi =>
    List.getElem?_append_left (Nat.lt_of_lt_of_le hi hk)
  exact ⟨fun hl => hl.congr fun i hi => (hat i hi).symm, fun hl => hl.congr hat⟩

theorem latched_succ : Latched sets clears l (k + 1) ↔
    (∃ x ∈ l[k]?, sets x) ∨ (Latched sets clears l k ∧ ∀ x ∈ l[k]?, ¬ clears x) := by
  constructor
  · rintro ⟨i, hi, hs, hc⟩
    rcases Nat.lt_succ_iff_lt_or_eq.mp hi with hlt | rfl
    · exact .inr ⟨⟨i, hlt, hs, fun j hij hj => hc j hij (Nat.lt_succ_of_lt hj)⟩,
        hc k hlt (Nat.lt_succ_self k)⟩
    · exact .inl hs
  · rintro (hs | ⟨⟨i, hi, hs, hc⟩, hk⟩)
    · exact ⟨k, Nat.lt_succ_self k, hs, fun j hkj hj =>
        absurd hkj (Nat.not_lt.mpr (Nat.le_of_lt_succ hj))⟩
    · refine ⟨i, Nat.lt_succ_of_lt hi, hs, fun j hij hj => ?_⟩
      rcases Nat.lt_succ_iff_lt_or_eq.mp hj with hlt | rfl
      · exact hc j hij hlt
      · exact hk

/-- A step that sets the flag and clears it leaves it set. -/
theorem latched_concat :
    Latched sets clears (l ++ [x]) (l.length + 1) ↔
      sets x ∨ (Latched sets clears l l.length ∧ ¬ clears x) := by
  rw [latched_succ, latched_append (Nat.le_refl _)]
  simp

end TrackFM.Lib
