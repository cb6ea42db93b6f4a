import Mathlib.Algebra.Order.Ring.Nat
import Mathlib.Tactic.Common

/-!
# Loops over chunks with a wrapping counter

A loop handles `size` cells chunk by chunk. A cursor says how long the next
chunk may be; the cells done so far are counted modulo `M`. As long as the
counter does not wrap the chunks are consecutive and cover the cells once; a
counter that stays below `size` whatever it does is a loop that never ends.
-/

namespace TrackFM.Lib

structure ChunkLoop (γ σ : Type) where
  len : γ → Nat
  advance : γ → Nat → γ
  use : γ → σ → Nat → Nat → σ
  stop : σ → Bool

/-- Chunks of the given lengths, each where the one before it ended. -/
def sweep (stop : σ → Bool) (use : σ → Nat → Nat → σ) : σ → Nat → List Nat → σ
  | s, _, [] => s
  | s, b, n :: ns =>
    if stop (use s b n) then use s b n else sweep stop use (use s b n) (b + n) ns

theorem sweep_congr {stop : σ → Bool} {u v : σ → Nat → Nat → σ} {ns : List Nat}
    (h : ∀ s c n, n ∈ ns → b ≤ c → c + n ≤ b + ns.sum → u s c n = v s c n) :
    sweep stop u s b ns = sweep stop v s b ns := by
  induction ns generalizing s b with
  | nil => rfl
  | cons n ns ih =>
    have hhead : u s b n = v s b n :=
      h s b n (List.mem_cons_self ..) (Nat.le_refl b) (by simp)
    rw [sweep, sweep, hhead, ih fun s c k hk h₁ h₂ =>
      h s c k (List.mem_cons_of_mem _ hk) (by omega) (by rw [List.sum_cons]; omega)]

def Cuts (P : Nat → Nat → Prop) : Nat → List Nat → Prop
  | _, [] => True
  | b, n :: ns => P b n ∧ Cuts P (b + n) ns

theorem Cuts.mono (hc : Cuts P b ns)
    (h : ∀ c n, n ∈ ns → b ≤ c → c + n ≤ b + ns.sum → P c n → Q c n) : Cuts Q b ns := by
  induction ns generalizing b with
  | nil => trivial
  | cons n ns ih =>
    refine ⟨h b n (List.mem_cons_self ..) (Nat.le_refl b) (by simp) hc.1, ih hc.2 ?_⟩
    intro c k hk h₁ h₂
    exact h c k (List.mem_cons_of_mem _ hk) (by omega) (by rw [List.sum_cons]; omega)

namespace ChunkLoop

def run (l : ChunkLoop γ σ) (M size : Nat) : Nat → γ → Nat → σ → Option σ
  | 0, _, _, _ => none
  | fuel + 1, c, b, s =>
    if b < size then
      let next := (b + l.len c) % M
      if next < size then
        let s := l.use c s b (l.len c)
        if l.stop s then some s else run l M size fuel (l.advance c next) next s
      else some (l.use c s b (size - b))
    else some s

variable {l : ChunkLoop γ σ} {M size fuel b : Nat} {s : σ} {pos : Nat → γ}

theorem run_done (h : ¬b < size) : l.run M size (fuel + 1) c b s = some s := by
  rw [run, if_neg h]

theorem run_last (hb : b < size) (h : ¬(b + l.len c) % M < size) :
    l.run M size (fuel + 1) c b s = some (l.use c s b (size - b)) := by
  rw [run, if_pos hb, if_neg h]

theorem run_next (hb : b < size) (h : (b + l.len c) % M < size)
    (hgo : l.stop (l.use c s b (l.len c)) = false) : l.run M size (fuel + 1) c b s =
      l.run M size fuel (l.advance c ((b + l.len c) % M)) ((b + l.len c) % M)
        (l.use c s b (l.len c)) := by
  simp only [run, if_pos hb, if_pos h, hgo, Bool.false_eq_true, if_false]

theorem run_stop (hb : b < size) (h : (b + l.len c) % M < size)
    (hstop : l.stop (l.use c s b (l.len c)) = true) :
    l.run M size (fuel + 1) c b s = some (l.use c s b (l.len c)) := by
  simp only [run, if_pos hb, if_pos h, hstop, if_true]

/-- The cursor follows the positions and the counter does not wrap. -/
structure Follows (l : ChunkLoop γ σ) (M size : Nat) (pos : Nat → γ) : Prop where
  len_pos : ∀ b < size, 0 < l.len (pos b)
  room : ∀ b < size, b + l.len (pos b) < M
  advance : ∀ b, b + l.len (pos b) < size →
    l.advance (pos b) (b + l.len (pos b)) = pos (b + l.len (pos b))

theorem Follows.run_sweep (hl : l.Follows M size pos) (hb : b ≤ size) (hpos : 0 < fuel)
    (hfuel : size - b ≤ fuel) :
    ∃ ns : List Nat, (∀ n ∈ ns, 0 < n) ∧ ns.sum = size - b ∧
      Cuts (fun b n => n ≤ l.len (pos b)) b ns ∧ l.run M size fuel (pos b) b s =
        some (sweep l.stop (fun s b n => l.use (pos b) s b n) s b ns) := by
  induction fuel generalizing b s with
  | zero => omega
  | succ fuel ih =>
    by_cases hlt : b < size
    case neg =>
      exact ⟨[], nofun, by simp; omega, trivial, by rw [run, if_neg hlt]; rfl⟩
    have hlen := hl.len_pos b hlt
    have hnext : (b + l.len (pos b)) % M = b + l.len (pos b) := Nat.mod_eq_of_lt (hl.room b hlt)
    simp only [run, if_pos hlt, hnext]
    by_cases hmore : b + l.len (pos b) < size
    · obtain ⟨ns, hns, hsum, hcuts, hrun⟩ := ih (s := l.use (pos b) s b (l.len (pos b)))
        (Nat.le_of_lt hmore) (by omega) (by omega)
      refine ⟨l.len (pos b) :: ns, by simp [hlen]; exact hns, by rw [List.sum_cons, hsum]; omega,
        ⟨Nat.le_refl _, hcuts⟩, ?_⟩
      rw [if_pos hmore, hl.advance b hmore, hrun, sweep]
      split <;> rfl
    · refine ⟨[size - b], by simp; omega, by simp, ⟨by omega, trivial⟩, ?_⟩
      rw [if_neg hmore, sweep]
      split <;> rfl

/-- A set of cursors and counters the loop stays in, below `size`. -/
structure Traps (l : ChunkLoop γ σ) (M size : Nat) (Q : γ → Nat → Prop) (Z : σ → Prop) : Prop where
  below : ∀ c b, Q c b → b < size
  next : ∀ c b, Q c b → Q (l.advance c ((b + l.len c) % M)) ((b + l.len c) % M)
  goesOn : ∀ c s b n, Z s → l.stop (l.use c s b n) = false ∧ Z (l.use c s b n)

theorem Traps.run_none (ht : l.Traps M size Q Z) (hc : Q c b) (hz : Z s) :
    l.run M size fuel c b s = none := by
  induction fuel generalizing c b s with
  | zero => rfl
  | succ fuel ih =>
    have hnext := ht.next c b hc
    obtain ⟨hstop, hz'⟩ := ht.goesOn c s b (l.len c) hz
    rw [run_next (ht.below c b hc) (ht.below _ _ hnext) hstop]
    exact ih hnext hz'

end ChunkLoop

end TrackFM.Lib
