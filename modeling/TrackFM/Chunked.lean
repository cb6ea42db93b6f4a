import TrackFM.Nesting
import TrackFM.Parked
import TrackFM.Lib.Stride

/-!
# The transformed loop

What `_createCARMLoop` emits for one pointer: the calls in the outer header,
and on each back edge the check block, which keeps the incremented pointer or
asks for the next object. A loop over local memory never leaves its artificial
object.
-/

namespace TrackFM

open Loops (carmDerefLoop carmDerefLoopRead carmDerefLoopWrite carmLoopInit opened initialBound
  carmDerefLoop_local carmDerefLoop_remote set_self set_other)

structure Chunk where
  /-- `vaddr`: the base and the start value. -/
  start : Nat
  /-- `carm_check_step_value`, a 64-bit word. -/
  step : Nat
  /-- `step_value_constant` -/
  constant : Bool
  /-- `mut` -/
  mutable : Bool

/-- The values of the emitted PHIs, and how often a `carm_deref_loop` call ran. -/
structure Phis where
  loopId : Nat
  /-- `.carm.pointer.operand` -/
  pointer : Nat
  /-- `.carm.bounds_check` -/
  bound : Nat
  derefs : Nat

namespace Chunk

def derefCall (m : Manager) (g : Chunk) (s : Loops) (loopId : Nat) : Loops × Nat :=
  if g.mutable then carmDerefLoopWrite m s loopId else carmDerefLoopRead m s loopId

/-- `.carm.outerloop.header` -/
def outerHeader (m : Manager) (g : Chunk) (s : Loops) : Outcome (Loops × Phis) := do
  let (s, loopidAndObjsize) ← carmLoopInit s g.start (if g.constant then 0 else g.step)
  let loopId := loopidAndObjsize >>> loopIdPos
  let initBoundsCheck := loopidAndObjsize &&& loopObjMask
  let (s, pointer) := g.derefCall m s loopId
  return (s, ⟨loopId, pointer, u64 (pointer + initBoundsCheck), 1⟩)

/-- `inc_operand_checkBB` -/
def increment (g : Chunk) (φ : Phis) : Nat :=
  if g.constant then φ.pointer else u64 (φ.pointer + g.step)

/-- `.carm.check`, `.carm.outerloop.body` and `.carm.originalloop.entry`. -/
def backEdge (m : Manager) (g : Chunk) (s : Loops) (φ : Phis) : Loops × Phis :=
  if φ.bound ≤ g.increment φ then
    let (s, pointer) := g.derefCall m s φ.loopId
    (s, { φ with pointer, bound := u64 (pointer + objSize), derefs := φ.derefs + 1 })
  else (s, { φ with pointer := g.increment φ })

/-- The loop in iteration `k`; in between, the body and whatever else runs. -/
inductive Iteration (m : Manager) (g : Chunk) (body : Nat → Loops → Loops → Prop) (s₀ : Loops) :
    Nat → Loops → Phis → Prop
  | enter : g.outerHeader m s₀ = .ok (s, φ) → Iteration m g body s₀ 0 s φ
  | body : Iteration m g body s₀ k s φ → body φ.loopId s s' → Iteration m g body s₀ k s' φ
  | next : Iteration m g body s₀ k s φ →
    Iteration m g body s₀ (k + 1) (g.backEdge m s φ).1 (g.backEdge m s φ).2

end Chunk

def word64 (d : Int) : Nat := (d % 2 ^ 64).toNat

variable {m : Manager} {g : Chunk} {s s' s₀ : Loops} {φ : Phis} {d : Int} {w : Bool}

theorem Chunk.derefCall_eq : g.derefCall m s loopId = carmDerefLoop m g.mutable s loopId := by
  unfold derefCall
  cases g.mutable <;> rfl

theorem Chunk.backEdge_loopId : (g.backEdge m s φ).2.loopId = φ.loopId := by
  rw [backEdge]
  split <;> rfl

theorem u64_add_word {x : Nat} (h₀ : 0 ≤ x + d) (h₁ : x + d < 2 ^ 64) :
    (u64 (x + word64 d) : Int) = x + d := by
  have hword : (word64 d : Int) = d % 2 ^ 64 := Int.toNat_of_nonneg (Int.emod_nonneg _ (by decide))
  unfold u64
  omega

theorem Chunk.outerHeader_ok (hid : s₀.loopIdCnt < maxLoops) (h : g.outerHeader m s₀ = .ok (s, φ)) :
    φ.derefs = 1 ∧ ∃ s₁ : Loops, s = (carmDerefLoop m g.mutable s₁ φ.loopId).1 ∧
      φ.pointer = (carmDerefLoop m g.mutable s₁ φ.loopId).2 ∧
      φ.bound = u64 (φ.pointer + initialBound g.start) ∧ s₁.heap = s₀.heap ∧
      s₁.loopstate φ.loopId =
        opened (s₀.loopstate φ.loopId) g.start (if g.constant then 0 else g.step) := by
  have hmax : maxLoops = 1024 := rfl
  obtain ⟨⟨s₁, r⟩, hinit, hrest⟩ := bind_ok.mp h
  unfold carmLoopInit at hinit
  simp only at hinit
  split at hinit
  · cases hinit
  cases hinit
  simp only [Loops.packed_id Loops.initialBound_lt (show s₀.loopIdCnt < 2 ^ 14 by omega),
    Loops.packed_bound Loops.initialBound_lt, derefCall_eq] at hrest
  cases hrest
  exact ⟨rfl, _, rfl, rfl, rfl, rfl, Function.update_self ..⟩

-- ---------------------------------------------------------------------------
-- Loops over local memory
-- ---------------------------------------------------------------------------

def LocalWalk (a d : Int) (n : Nat) : Prop := ∀ k < n, 0 ≤ a + k * d ∧ a + k * d < 2 ^ 47

theorem initialBound_local {a : Nat} (ha : a < 2 ^ 60) : initialBound a = objSize + (512 <<< 40) := by
  simp [initialBound, getCarmPtr_untagged ha]

theorem opened_local {l : CarmLoop} {a : Nat} (ha : a < 2 ^ 60) : opened l a n =
    { l with stepValueConstant := n == 0, active := true, regionAddr := 0, stackAddr := a,
             carmPtr := false, objIndex := 0 } := by
  simp [opened, getCarmPtr_untagged ha]

/-- In iteration `k` the pointer is the original address, and no object was asked for
after the first. -/
structure OnOriginal (a d : Int) (k : Nat) (φ : Phis) : Prop where
  pointer : (φ.pointer : Int) = a + k * d
  derefs : φ.derefs = 1

theorem local_iteration {a : Nat} {body : Nat → Loops → Loops → Prop}
    (hid : s₀.loopIdCnt < maxLoops) (hwalk : LocalWalk a d n) (hk : k < n)
    (hconst : constant = true → d = 0)
    (hit : Chunk.Iteration m ⟨a, word64 d, constant, w⟩ body s₀ k s φ) :
    OnOriginal a d k φ ∧ φ.bound = a + (objSize + (512 <<< 40)) := by
  have ha : a < 2 ^ 47 := by
    have := (hwalk 0 (by omega)).2
    simp only [Nat.cast_zero, Int.zero_mul, Int.add_zero] at this
    omega
  have ha60 : a < 2 ^ 60 := by omega
  induction hit with
  | @enter s φ h =>
    obtain ⟨hderefs, s₁, -, hp, hb, -, hslot⟩ := Chunk.outerHeader_ok hid h
    rw [opened_local ha60] at hslot
    have hpa : φ.pointer = a := by
      rw [hp, carmDerefLoop_local (by rw [hslot])]
      simp only [hslot, Nat.zero_mul, Nat.add_zero]
      exact Nat.mod_eq_of_lt (by omega)
    refine ⟨⟨by simp [hpa], hderefs⟩, ?_⟩
    rw [hb, hpa, initialBound_local ha60]
    exact Nat.mod_eq_of_lt (by simp only [objSize]; omega)
  | body _ _ ih => exact ih hk
  | @next k s φ _ ih =>
    obtain ⟨⟨hp, hderefs⟩, hb⟩ := ih (by omega)
    obtain ⟨h₀, h₁⟩ := hwalk (k + 1) hk
    rw [Lib.next_position] at h₀ h₁
    have hinc : ((Chunk.increment ⟨a, word64 d, constant, w⟩ φ : Nat) : Int) = a + k * d + d := by
      unfold Chunk.increment
      cases hc : constant with
      | true => simp [hp, hconst hc]
      | false =>
        rw [← hp]
        exact u64_add_word (by omega) (by omega)
    have hlow : ¬φ.bound ≤ Chunk.increment ⟨a, word64 d, constant, w⟩ φ := by
      rw [hb]
      omega
    rw [Chunk.backEdge, if_neg hlow]
    exact ⟨⟨by rw [Lib.next_position]; exact hinc, hderefs⟩, hb⟩

theorem Chunk.outerHeader_returns (hfree : (s₀.loopstate s₀.loopIdCnt).active = false) :
    ∃ s φ, g.outerHeader m s₀ = .ok (s, φ) := by
  obtain ⟨prefetchers, hinit, -⟩ := Loops.carmLoopInit_ok (a := g.start)
    (d := if g.constant then 0 else g.step) hfree
  exact ⟨_, _, by rw [outerHeader, hinit]; rfl⟩

/-- A chunked loop over local memory runs on the original addresses, and the
artificial bound survives the mask. -/
theorem local_loop_on_original {a : Nat} {body : Nat → Loops → Loops → Prop}
    (hid : s₀.loopIdCnt < maxLoops) (hfree : (s₀.loopstate s₀.loopIdCnt).active = false)
    (hwalk : LocalWalk a d n) (hconst : constant = true → d = 0) :
    (∃ s φ, Chunk.outerHeader m ⟨a, word64 d, constant, w⟩ s₀ = .ok (s, φ)) ∧
    (∀ k < n, ∀ s φ, Chunk.Iteration m ⟨a, word64 d, constant, w⟩ body s₀ k s φ →
      OnOriginal a d k φ) ∧
    (0 < n → ∀ loopId < maxLoops,
      (initialBound a ||| u64 (loopId <<< loopIdPos)) &&& loopObjMask = objSize + (512 <<< 40)) := by
  refine ⟨Chunk.outerHeader_returns hfree, fun k hk s φ hit =>
    (local_iteration hid hwalk hk hconst hit).1, fun hn loopId _ => ?_⟩
  rw [Loops.packed_bound Loops.initialBound_lt, initialBound_local]
  have := (hwalk 0 hn).2
  simp only [Nat.cast_zero, Int.zero_mul, Int.add_zero] at this
  omega

theorem local_loop_on_original_down :
    (∃ s φ, Chunk.outerHeader cacheManager ⟨0x7ffff000, word64 (-8), false, true⟩
      (initLoops (initObjects (fun _ => none) (fun _ => 0) (fun _ => 0) kWorkingSetSize)
        fun _ => .cleared) = .ok (s, φ)) ∧
    ∀ k < 100, ∀ s φ,
      Chunk.Iteration cacheManager ⟨0x7ffff000, word64 (-8), false, true⟩ (fun _ _ _ => True)
        (initLoops (initObjects (fun _ => none) (fun _ => 0) (fun _ => 0) kWorkingSetSize)
          fun _ => .cleared) k s φ → OnOriginal (0x7ffff000 : Nat) (-8) k φ := by
  have hwalk : LocalWalk (0x7ffff000 : Nat) (-8) 100 := fun k hk => by omega
  have hconst : false = true → (-8 : Int) = 0 := nofun
  have hid : 0 < maxLoops := by decide
  have hloop := @local_loop_on_original cacheManager
    (initLoops (initObjects (fun _ => none) (fun _ => 0) (fun _ => 0) kWorkingSetSize)
      fun _ => .cleared) (-8) true 100 false 0x7ffff000 (fun _ _ _ => True) hid rfl hwalk hconst
  exact ⟨hloop.1, hloop.2.1⟩

end TrackFM
