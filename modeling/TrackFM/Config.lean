import Mathlib.Algebra.Order.Ring.Nat

/-!
# Constants and tagged pointers

The constants of `carm_object_config.hpp`, `carm.hpp`, `carm_loops.hpp` and
`carm_runtime.hpp`, and `get_carm_ptr`, which splits a tagged address into an
object index and an offset. Machine words are natural numbers; an operation
that can wrap says so with `u64` or `u32`.
-/

namespace TrackFM

abbrev objSize : Nat := 4096
abbrev totalObjects : Nat := 41943040
abbrev objSizeMask : Nat := objSize - 1
abbrev carmPtr : Nat := 1 <<< 60
abbrev startAddr : Nat := 0x1000000000000000
abbrev carmAllocSizeMultiple : Nat := 8
abbrev flushCache : Nat := 0xfffffffffffff
abbrev loopIdPos : Nat := 50
abbrev loopObjMask : Nat := (1 <<< 50) - 1
abbrev maxLoops : Nat := 1024

abbrev kDirtyClear : Nat := 0x400
abbrev kPresentClear : Nat := 0x100
abbrev kHotClear : Nat := 0x80
abbrev kEvacuationSet : Nat := 0x10000
abbrev kObjectDataAddrBitPos : Nat := 17

abbrev kFarMemSize : Nat := 17179869184
abbrev kWorkingSetSize : Nat := kFarMemSize - (1 <<< 30)

abbrev u64 (x : Nat) : Nat := x % 2 ^ 64

abbrev u32 (x : Nat) : Nat := x % 2 ^ 32

theorem objSize_eq : objSize = 4096 := rfl

theorem slot_add_off (x : Nat) : x = 4096 * (x / objSize) + x % objSize ∧ x % objSize < 4096 :=
  ⟨(Nat.div_add_mod x objSize).symm, Nat.mod_lt x (by decide)⟩

-- ---------------------------------------------------------------------------
-- Tagged pointers
-- ---------------------------------------------------------------------------

def checkCarmObject (addr : Nat) : Bool := addr &&& carmPtr != 0

structure CarmPtr where
  addr : Nat
  offset : Nat
  objIndex : Nat
  /-- `mut` in the source. -/
  mutable : Bool
  isCarmptr : Bool
  deriving DecidableEq, Repr

def getCarmPtr (addr : Nat) (mutable : Bool) : CarmPtr :=
  if checkCarmObject addr then
    let a := addr ^^^ carmPtr
    { isCarmptr := true, addr := a, objIndex := a / objSize, offset := a % objSize, mutable }
  else
    { isCarmptr := false, addr := 0, objIndex := 0, offset := 0, mutable := false }

theorem getCarmPtr_offset : (getCarmPtr a w).offset < objSize := by
  unfold getCarmPtr
  split
  · exact Nat.mod_lt _ (by decide)
  · decide

/-- The bits of a state word that send an access down the slow path. -/
def exceptions (mutable : Bool) : Nat :=
  let e := kHotClear ||| kPresentClear ||| kEvacuationSet
  if mutable then e ||| kDirtyClear else e

section
variable {x : Nat}

theorem carmPtr_eq : carmPtr = 2 ^ 60 := rfl

theorem startAddr_eq : startAddr = 2 ^ 60 := rfl

theorem start_add_eq_or (h : x < 2 ^ 60) : startAddr + x = carmPtr ||| x := by
  rw [startAddr_eq, carmPtr_eq]
  simpa only [Nat.mul_one] using Nat.two_pow_add_eq_or_of_lt h 1

theorem testBit_carmPtr (k : Nat) : carmPtr.testBit k = decide (60 = k) := by
  rw [carmPtr_eq, Nat.testBit_two_pow]

theorem start_and (h : x < 2 ^ 60) : (startAddr + x) &&& carmPtr = carmPtr := by
  rw [start_add_eq_or h]
  apply Nat.eq_of_testBit_eq
  intro k
  rw [Nat.testBit_and, Nat.testBit_or]
  cases carmPtr.testBit k <;> simp

theorem start_xor (h : x < 2 ^ 60) : (startAddr + x) ^^^ carmPtr = x := by
  rw [start_add_eq_or h]
  apply Nat.eq_of_testBit_eq
  intro k
  rw [Nat.testBit_xor, Nat.testBit_or, testBit_carmPtr]
  by_cases h60 : 60 = k
  · subst h60
    simp [Nat.testBit_lt_two_pow h]
  · simp [h60]

theorem untagged_and (h : x < 2 ^ 60) : x &&& carmPtr = 0 := by
  apply Nat.eq_of_testBit_eq
  intro k
  rw [Nat.testBit_and, testBit_carmPtr, Nat.zero_testBit]
  by_cases h60 : 60 = k
  · subst h60
    simp [Nat.testBit_lt_two_pow h]
  · simp [h60]

theorem checkCarmObject_start (h : x < 2 ^ 60) : checkCarmObject (startAddr + x) = true := by
  rw [checkCarmObject, start_and h]
  rfl

theorem checkCarmObject_untagged (h : x < 2 ^ 60) : checkCarmObject x = false := by
  simp [checkCarmObject, untagged_and h]

theorem getCarmPtr_start (h : x < 2 ^ 60) : getCarmPtr (startAddr + x) w =
    { isCarmptr := true, addr := x, objIndex := x / objSize, offset := x % objSize,
      mutable := w } := by
  rw [getCarmPtr, if_pos (checkCarmObject_start h), start_xor h]

theorem getCarmPtr_untagged (h : x < 2 ^ 60) : getCarmPtr x w =
    { isCarmptr := false, addr := 0, objIndex := 0, offset := 0, mutable := false } := by
  simp [getCarmPtr, checkCarmObject_untagged h]

end

end TrackFM
