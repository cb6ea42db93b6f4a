import TrackFM.Manager
import Mathlib.Logic.Function.Basic

/-!
# The runtime state and the guarded dereference

`CARMRT`, `CARM_AIFM_DS`, the `carm_obj_state` table, the objects and the local
memory in one state, with the dereference functions of `carm.cpp` and
`_ptrDeref` of `libc_support.cpp`. Tables are total functions: a slot outside
its allocation is a cell of its own here, so that a bound on the slots is
something to state rather than assume. `carm_rt` is set: the runtime runs after
`init_carm_runtime`.
-/

namespace TrackFM

open Lib (Mem blit)

structure Heap where
  aspaceStart : Nat
  aspaceEnd : Nat
  numObjects : Nat
  totalObjCnt : Nat
  ptrs : Nat → Option Nat
  allocationMap : Nat → Nat
  freeListMap : Nat → Nat
  carmObjState : Nat → Nat
  prevObjIndex : Nat → Nat
  inScope : Bool
  /-- How often `DerefScope::exit` ran. -/
  scopeExits : Nat
  objs : Nat → Obj
  objCount : Nat
  mem : Mem UInt8
  /-- The regions marked not evacuable, one entry a mark. -/
  marks : List Nat
  /-- The slots `update_object_list` was called on, latest first. -/
  recycled : List Nat

/-- `init_objects` after `flush_carn_meta_obj`. `ptrs_` and `free_list_map` come
from `malloc`; only the first `num_objects` pointers are cleared. -/
def initObjects (ptrs : Nat → Option Nat) (freeListMap : Nat → Nat) (mem : Mem UInt8)
    (size : Nat) : Heap where
  aspaceStart := startAddr
  aspaceEnd := startAddr + size
  numObjects := size / objSize
  totalObjCnt := size / objSize
  ptrs i := if i < size / objSize then none else ptrs i
  allocationMap _ := 0
  freeListMap := freeListMap
  carmObjState _ := flushCache
  prevObjIndex _ := 0
  inScope := false
  scopeExits := 0
  objs _ := { metadata := 0, carmObjIndex := 0, remote := fun _ => 0 }
  objCount := 0
  mem := mem
  marks := []
  recycled := []

namespace Heap

-- ---------------------------------------------------------------------------
-- The manager's operations on one object
-- ---------------------------------------------------------------------------

/-- `__deref<false>` and `__deref_mut<false>`: fetch the object if it is away. -/
def deref (m : Manager) (h : Heap) (o : Nat) (mutable : Bool) : Heap :=
  let word := m.derefWord h.objs h.objCount o mutable
  { h with
    objs := Function.update h.objs o { h.objs o with metadata := word }
    mem := if (h.objs o).Present then h.mem
      else blit h.mem (dataAddr word) objSize (h.objs o).remote }

def updateCacheObject (h : Heap) (o : Nat) : Heap :=
  let oldIndex := (h.objs o).carmObjIndex
  if oldIndex < totalObjects then
    { h with carmObjState := Function.update h.carmObjState oldIndex (h.objs o).metadata }
  else h

/-- The evacuator drops the local copy, after writing it back if it is dirty. -/
def evacuate (m : Manager) (h : Heap) (o : Nat) : Heap :=
  let obj := h.objs o
  if obj.Present then
    let away := { obj with
      metadata := m.awayWord h.objs o
      remote := if obj.Dirty then fun j => h.mem (obj.addr + j) else obj.remote }
    updateCacheObject { h with objs := Function.update h.objs o away } o
  else h

-- ---------------------------------------------------------------------------
-- carm.cpp
-- ---------------------------------------------------------------------------

def carmAddPrefetchTrace (h : Heap) (objIndex pfId : Nat) : Heap :=
  if h.prevObjIndex pfId ≠ objIndex then
    { h with prevObjIndex := Function.update h.prevObjIndex pfId objIndex }
  else h

def allocateObject (m : Manager) (h : Heap) (objIndex : Nat) : Heap × Nat :=
  let o := h.objCount
  let obj := { metadata := m.awayWord h.objs o, carmObjIndex := objIndex, remote := m.fresh objIndex }
  ({ h with
      objs := Function.update h.objs o obj
      objCount := o + 1
      ptrs := Function.update h.ptrs objIndex (some o) }, o)

def objectFor (m : Manager) (h : Heap) (objIndex : Nat) : Heap × Nat :=
  match h.ptrs objIndex with
  | some o => (h, o)
  | none => allocateObject m h objIndex

def publish (h : Heap) (objIndex o : Nat) : Heap :=
  { h with carmObjState := Function.update h.carmObjState objIndex (h.objs o).metadata }

/-- `carmDeref_read`, `carmDeref_write` and their `_sp` forms. -/
def carmDerefObj (m : Manager) (h : Heap) (mutable : Bool) (objIndex pfId : Nat) : Heap × Nat :=
  let (h, o) := objectFor m h objIndex
  let h := (h.deref m o mutable).publish objIndex o
  (h.carmAddPrefetchTrace objIndex pfId, dataAddr (h.objs o).metadata)

/-- Close the open scope, open a new one. -/
def carmDeref (h : Heap) : Heap :=
  { h with
    scopeExits := if h.inScope then h.scopeExits + 1 else h.scopeExits
    inScope := true }

/-- `DEFAULT_PREFETCHER` is 0. -/
def carmDerefRead (m : Manager) (h : Heap) (objIndex : Nat) : Heap × Nat :=
  carmDerefObj m h.carmDeref false objIndex 0

def carmDerefWrite (m : Manager) (h : Heap) (objIndex : Nat) : Heap × Nat :=
  carmDerefObj m h.carmDeref true objIndex 0

def carmDerefReadSp (m : Manager) (h : Heap) (objIndex loopId : Nat) : Heap × Nat :=
  carmDerefObj m h.carmDeref false objIndex loopId

def carmDerefWriteSp (m : Manager) (h : Heap) (objIndex loopId : Nat) : Heap × Nat :=
  carmDerefObj m h.carmDeref true objIndex loopId

-- ---------------------------------------------------------------------------
-- libc_support.cpp
-- ---------------------------------------------------------------------------

def ptrDeref (m : Manager) (h : Heap) (p : CarmPtr) : Heap × Nat :=
  let metadata := h.carmObjState p.objIndex
  let (h, addr) :=
    if metadata &&& exceptions p.mutable ≠ 0 then
      if p.mutable then carmDerefWrite m h p.objIndex else carmDerefRead m h p.objIndex
    else (h, dataAddr metadata)
  (h, addr + p.offset)

-- ---------------------------------------------------------------------------
-- The logical contents
-- ---------------------------------------------------------------------------

/-- Byte `j` of an object: in the local copy when there is one. -/
def objByte (h : Heap) (o j : Nat) : UInt8 :=
  if (h.objs o).Present then h.mem ((h.objs o).addr + j) else (h.objs o).remote j

def byteAt (m : Manager) (h : Heap) (i j : Nat) : UInt8 :=
  match h.ptrs i with
  | none => m.fresh i j
  | some o => h.objByte o j

/-- The flat address space: tagged addresses through the slots, the others raw. -/
def view (m : Manager) (h : Heap) : Mem UInt8 := fun a =>
  if checkCarmObject a then h.byteAt m ((a ^^^ carmPtr) / objSize) ((a ^^^ carmPtr) % objSize)
  else h.mem a

variable {m : Manager} {h : Heap}

theorem view_start (hx : x < 2 ^ 60) :
    h.view m (startAddr + x) = h.byteAt m (x / objSize) (x % objSize) := by
  simp only [view, checkCarmObject_start hx, if_true, start_xor hx]

theorem view_untagged (hx : a < 2 ^ 60) : h.view m a = h.mem a := by
  simp [view, checkCarmObject_untagged hx]

end Heap

end TrackFM
