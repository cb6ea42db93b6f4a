import TrackFM.Fill
import Mathlib.Logic.Relation

/-!
# Runs of the heap

The program's side: requests to the allocator, guarded accesses to far memory
and evacuations, in any order. A state keeps, beside the heap, the blocks handed
out so far, newest first, and the last value written to each byte.
-/

namespace TrackFM

open Lib (Mem blit)

structure Block where
  start : Nat
  /-- What `allocation_map` records. -/
  size : Nat
  /-- The bytes asked for; for `carm_calloc` the product, not its low word. -/
  asked : Nat
  freed : Bool
  deriving DecidableEq, Repr

abbrev Block.stop (b : Block) : Nat := b.start + b.size

abbrev Block.Covers (b : Block) (a : Nat) : Prop := b.start ≤ a ∧ a < b.stop

structure State where
  heap : Heap
  blocks : List Block
  written : Mem (Option UInt8)

inductive Op where
  | malloc (size : Nat)
  | calloc (elem elemSize : Nat)
  | realloc (ptr size : Nat)
  | free (ptr : Nat)
  | read (addr n : Nat)
  | write (addr n : Nat) (bytes : Nat → UInt8)
  | evacuate (o : Nat)

-- ---------------------------------------------------------------------------
-- Guarded accesses
-- ---------------------------------------------------------------------------

/-- A guarded load of `n` bytes: the local address is the second component. -/
def guardedRead (m : Manager) (h : Heap) (addr : Nat) : Heap × Nat :=
  h.ptrDeref m (getCarmPtr addr false)

def guardedWrite (m : Manager) (h : Heap) (addr n : Nat) (bytes : Nat → UInt8) : Heap :=
  let (h, d) := h.ptrDeref m (getCarmPtr addr true)
  h.store d n bytes

-- ---------------------------------------------------------------------------
-- Steps
-- ---------------------------------------------------------------------------

def Block.mark (ptr : Nat) (b : Block) : Block :=
  if b.start = ptr then { b with freed := true } else b

@[simp] theorem Block.mark_start {b : Block} : (b.mark ptr).start = b.start := by
  unfold mark
  split <;> rfl

@[simp] theorem Block.mark_size {b : Block} : (b.mark ptr).size = b.size := by
  unfold mark
  split <;> rfl

@[simp] theorem Block.mark_asked {b : Block} : (b.mark ptr).asked = b.asked := by
  unfold mark
  split <;> rfl

theorem Block.mark_freed {b : Block} :
    (b.mark ptr).freed = true ↔ b.freed = true ∨ b.start = ptr := by
  unfold mark
  split <;> simp_all

def markFreed (ptr : Nat) (bs : List Block) : List Block := bs.map (Block.mark ptr)

namespace State

def Live (s : State) (a : Nat) : Prop := ∃ b ∈ s.blocks, b.freed = false ∧ b.Covers a

def handOut (s : State) (h : Heap) (start asked : Nat) (init : Nat → Option UInt8) : State :=
  { heap := h
    blocks := ⟨start, h.allocationMap start, asked, false⟩ :: s.blocks
    written := blit s.written start (h.allocationMap start) init }

def free (s : State) (h : Heap) (ptr : Nat) : State :=
  { s with heap := h, blocks := markFreed ptr s.blocks }

def copied (s : State) (ptr : Nat) : Nat → Option UInt8 := fun j =>
  if j < s.heap.allocationMap ptr then s.written (ptr + j) else none

end State

def step (m : Manager) (s : State) : Op → Outcome State
  | .malloc size => do
    let (h, ret) := s.heap.carmRemoteMalloc size
    return s.handOut h ret size fun _ => none
  | .calloc elem elemSize => do
    let (h, ret) ← s.heap.carmCalloc m elem elemSize
    return s.handOut h ret (elem * elemSize) fun _ => some 0
  | .realloc ptr size => do
    let (h, ret) ← s.heap.carmRealloc m ptr size
    if !checkCarmObject ptr then return { s with heap := h }
    if size = 0 then return s.free h ptr
    return (s.handOut h ret size (s.copied ptr)).free h ptr
  | .free ptr => do
    let h ← s.heap.carmFree ptr
    return s.free h ptr
  | .read addr _ => return { s with heap := (guardedRead m s.heap addr).1 }
  | .write addr n bytes =>
    return { s with
      heap := guardedWrite m s.heap addr n bytes
      written := blit s.written addr n fun j => some (bytes j) }
  | .evacuate o => return { s with heap := s.heap.evacuate m o }

/-- `free_list_map` starts as zeros; `ptrs_` past `num_objects` holds anything. -/
def init (ptrs : Nat → Option Nat) (mem : Mem UInt8) : State where
  heap := initObjects ptrs (fun _ => 0) mem kWorkingSetSize
  blocks := []
  written := fun _ => none

def Next (m : Manager) (ok : State → Op → Prop) (s s' : State) : Prop :=
  ∃ op, ok s op ∧ step m s op = .ok s'

inductive Reach (m : Manager) (ok : State → Op → Prop) : State → Prop
  | init (ptrs mem) : Reach m ok (init ptrs mem)
  | next {s s' : State} : Reach m ok s → Next m ok s s' → Reach m ok s'

theorem Reach.invariant {I : State → Prop} {ok : State → Op → Prop}
    (hinit : ∀ ptrs mem, I (TrackFM.init ptrs mem))
    (hstep : ∀ s s' op, I s → ok s op → step m s op = .ok s' → I s')
    (hr : Reach m ok s) : I s := by
  induction hr with
  | init ptrs mem => exact hinit ptrs mem
  | next _ hn ih =>
    obtain ⟨op, hok, hs⟩ := hn
    exact hstep _ _ op ih hok hs

-- ---------------------------------------------------------------------------
-- Requests
-- ---------------------------------------------------------------------------

/-- `enforce_size_constraints` without the wrap. -/
def rounded (n : Nat) : Nat := max 8 ((n + 7) / 8 * 8)

theorem enforceSizeConstraints_eq (h : rounded n < 2 ^ 64) : enforceSizeConstraints n = rounded n := by
  simp only [enforceSizeConstraints, rounded, carmAllocSizeMultiple, u64] at h ⊢
  split
  · omega
  · split <;> omega

theorem le_rounded : n ≤ rounded n := by
  simp only [rounded]
  omega

theorem rounded_pos : 0 < rounded n := by
  simp only [rounded]
  omega

/-- The bytes a request asks for; `realloc` of a local pointer asks `libc`. -/
def Op.request : Op → Option Nat
  | .malloc size => some size
  | .calloc elem elemSize => some (elem * elemSize)
  | .realloc ptr size => if checkCarmObject ptr ∧ size ≠ 0 then some size else none
  | _ => none

/-- An allocation request, its arguments 64-bit words. -/
def Op.IsRequest : Op → Prop
  | .malloc size => size < 2 ^ 64
  | .calloc elem elemSize => elem < 2 ^ 64 ∧ elemSize < 2 ^ 64
  | .realloc ptr size => ptr < 2 ^ 64 ∧ size < 2 ^ 64
  | _ => False

def Op.accesses : Op → Option (Nat × Nat)
  | .read addr n => some (addr, n)
  | .write addr n _ => some (addr, n)
  | _ => none

def Op.frees : Op → Option Nat
  | .realloc ptr _ => if checkCarmObject ptr then some ptr else none
  | .free ptr => some ptr
  | _ => none

end TrackFM
