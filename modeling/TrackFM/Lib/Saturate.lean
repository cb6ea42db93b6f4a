import Mathlib.Algebra.Order.Ring.Nat
import Mathlib.Tactic.Common

/-!
# Repeating a pass until nothing grows

A `do` .. `while` loop that runs a pass until a size it only increases stays the
same. It ends when the size is bounded, and then its state is one the pass left
as large as it was.
-/

namespace TrackFM.Lib

variable {σ : Type u}

/-- Run `pass` until the size stays the same; `none` when the fuel runs out. -/
def saturate (pass : σ → σ) (size : σ → Nat) : Nat → σ → Option σ
  | 0, _ => none
  | fuel + 1, s =>
    if size (pass s) = size s then some (pass s) else saturate pass size fuel (pass s)

variable {pass : σ → σ} {size : σ → Nat} {I : σ → Prop}

/-- The last round starts in a state the invariant holds of. -/
theorem saturate_last (hpass : ∀ s, I s → I (pass s)) (hs : I s)
    (h : saturate pass size fuel s = some r) :
    ∃ s', I s' ∧ r = pass s' ∧ size (pass s') = size s' := by
  induction fuel generalizing s with
  | zero => cases h
  | succ fuel ih =>
    rw [saturate] at h
    split at h
    · rename_i hsize
      exact ⟨s, hs, (Option.some.inj h).symm, hsize⟩
    · exact ih (hpass s hs) h

theorem saturate_returns {N : Nat} (hpass : ∀ s, I s → I (pass s))
    (hgrow : ∀ s, I s → size s ≤ size (pass s)) (hbound : ∀ s, I s → size s ≤ N) (hs : I s)
    (hfuel : N - size s < fuel) : ∃ r, saturate pass size fuel s = some r := by
  induction fuel generalizing s with
  | zero => omega
  | succ fuel ih =>
    rw [saturate]
    split
    · exact ⟨_, rfl⟩
    · have h₁ := hgrow s hs
      have h₂ := hbound _ (hpass s hs)
      exact ih (hpass s hs) (by omega)

end TrackFM.Lib
