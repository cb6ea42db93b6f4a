import Mathlib.Data.List.Chain

/-!
# Logs without repetitions

A log that is told of values one by one and leaves out those equal to the last one
told; `d` is what counts as told before the first.
-/

namespace TrackFM.Lib

variable {α : Type} [DecidableEq α] {d prev a : α} {log as : List α}

def unlessSame (prev a : α) : List α := if prev ≠ a then [a] else []

theorem unlessSame_self : unlessSame a a = [] := if_neg (not_not_intro rfl)

theorem unlessSame_of_ne (h : prev ≠ a) : unlessSame prev a = [a] := if_pos h

theorem getLastD_unlessSame : (log ++ unlessSame (log.getLastD d) a).getLastD d = a := by
  by_cases h : log.getLastD d = a
  · rw [h, unlessSame_self, List.append_nil, h]
  · rw [unlessSame_of_ne h]
    simp

theorem chain_unlessSame (h : (d :: log).IsChain (· ≠ ·)) :
    (d :: (log ++ unlessSame (log.getLastD d) a)).IsChain (· ≠ ·) := by
  by_cases ha : log.getLastD d = a
  · rw [ha, unlessSame_self, List.append_nil]
    exact h
  · rw [unlessSame_of_ne ha, ← List.cons_append]
    refine List.isChain_append.mpr ⟨h, List.isChain_singleton a, fun b hb c hc => ?_⟩
    obtain rfl : a = c := by simpa using hc
    obtain rfl : log.getLastD d = b := by simpa [List.getLast?_cons, List.getLastD_eq_getLast?] using hb
    exact ha

/-- Values of which no two neighbours are equal end the log. -/
theorem suffix_unlessSame (h : as <:+ d :: log) (ha : ∀ b ∈ as.getLast?, b ≠ a) :
    as ++ [a] <:+ d :: (log ++ unlessSame (log.getLastD d) a) := by
  by_cases hlast : log.getLastD d = a
  · have hend : (d :: log).getLast? = some a := by
      rw [List.getLast?_cons, ← List.getLastD_eq_getLast?, hlast]
    rw [hlast, unlessSame_self, List.append_nil]
    obtain rfl | ⟨bs, b, rfl⟩ := List.eq_nil_or_concat as
    · obtain ⟨l, hl⟩ := List.getLast?_eq_some_iff.mp hend
      exact ⟨l, hl.symm⟩
    · obtain ⟨l, hl⟩ := h
      rw [List.concat_eq_append] at hl ha
      rw [← hl, ← List.append_assoc, List.getLast?_concat] at hend
      exact absurd (Option.some.inj hend) (ha b List.getLast?_concat)
  · rw [unlessSame_of_ne hlast]
    obtain ⟨l, hl⟩ := h
    exact ⟨l, by rw [← List.append_assoc, hl, List.cons_append]⟩

end TrackFM.Lib
