import TrackFM.Stores

/-!
# The memory functions of the libc layer

`carm_memset`, `carm_memcpy`, the allocator and `carm_free` of
`libc_support.cpp`. A loop takes fuel and reports `diverge` when it runs out;
every caller gives one unit more than the loop has bytes to cover. Chunk
counters are `unsigned int`, sizes are `uint64_t`.
-/

namespace TrackFM

inductive Stop where
  /-- The loop does not end. -/
  | diverge
  /-- `exit(0)` -/
  | exit
  /-- `abort()` -/
  | abort
  /-- A division by zero, or an `int` product out of range. -/
  | undefined
  deriving DecidableEq, Repr

abbrev Outcome (α : Type) := Except Stop α

theorem map_ok {x : Outcome α} {f : α → β} : x.map f = .ok b ↔ ∃ a, x = .ok a ∧ f a = b := by
  cases x <;> simp [Except.map]

theorem bind_ok {x : Outcome α} {f : α → Outcome β} :
    (x >>= f) = .ok b ↔ ∃ a, x = .ok a ∧ f a = .ok b := by
  rcases x with stop | a
  · simp [Bind.bind, Except.bind]
  · simp [Bind.bind, Except.bind]

theorem bind_error {x : Outcome α} {f : α → Outcome β} :
    (x >>= f) = .error e ↔ x = .error e ∨ ∃ a, x = .ok a ∧ f a = .error e := by
  rcases x with stop | a
  · simp [Bind.bind, Except.bind]
  · simp [Bind.bind, Except.bind]

theorem map_error {x : Outcome α} {f : α → β} : x.map f = .error e ↔ x = .error e := by
  cases x <;> simp [Except.map]

/-- Sizes are rounded up to `CARM_ALLOC_SIZE_MULTIPLE`. -/
def enforceSizeConstraints (size : Nat) : Nat :=
  if size < carmAllocSizeMultiple then carmAllocSizeMultiple
  else
    let rem := size % carmAllocSizeMultiple
    if rem ≠ 0 then u64 (size - rem + carmAllocSizeMultiple) else size

/-- `memset` converts the fill value to `unsigned char`. -/
def lowByte (src : Int) : UInt8 := UInt8.ofNat (src % 256).toNat

namespace Heap

def memset (h : Heap) (d : Nat) (src : Int) (n : Nat) : Heap := h.store d n fun _ => lowByte src

def memmove (h : Heap) (d s n : Nat) : Heap := h.store d n fun j => h.mem (s + j)

-- ---------------------------------------------------------------------------
-- carm_memcpy
-- ---------------------------------------------------------------------------

/-- `_carm_memcpy_dst_carm_ptr` -/
def carmMemcpyDstLoop (m : Manager) (src size : Nat) :
    Nat → Heap → CarmPtr → Nat → Outcome Heap
  | 0, _, _, _ => .error .diverge
  | fuel + 1, h, carmDst, bytesTransfered =>
    if bytesTransfered < size then
      let (h, d) := ptrDeref m h carmDst
      let s := src + bytesTransfered
      let chunkSize := objSize - carmDst.offset
      if u32 (bytesTransfered + chunkSize) < size then
        carmMemcpyDstLoop m src size fuel (h.memmove d s chunkSize)
          { carmDst with objIndex := carmDst.objIndex + 1, offset := 0 }
          (u32 (bytesTransfered + chunkSize))
      else .ok (h.memmove d s (size - bytesTransfered))
    else .ok h

/-- `_carm_memcpy_src_carm_ptr` -/
def carmMemcpySrcLoop (m : Manager) (dst size : Nat) :
    Nat → Heap → CarmPtr → Nat → Outcome Heap
  | 0, _, _, _ => .error .diverge
  | fuel + 1, h, carmSrc, bytesTransfered =>
    if bytesTransfered < size then
      let (h, s) := ptrDeref m h carmSrc
      let d := dst + bytesTransfered
      let chunkSize := objSize - carmSrc.offset
      if u32 (bytesTransfered + chunkSize) < size then
        carmMemcpySrcLoop m dst size fuel (h.memmove d s chunkSize)
          { carmSrc with objIndex := carmSrc.objIndex + 1, offset := 0 }
          (u32 (bytesTransfered + chunkSize))
      else .ok (h.memmove d s (size - bytesTransfered))
    else .ok h

def carmMemcpyLoop (m : Manager) (dst src size : Nat) :
    Nat → Heap → CarmPtr → CarmPtr → Nat → Outcome Heap
  | 0, _, _, _, _ => .error .diverge
  | fuel + 1, h, carmDst, carmSrc, bytesTransfered =>
    if bytesTransfered < size then
      let (h, d) := ptrDeref m h carmDst
      let (h, s) := ptrDeref m h carmSrc
      let sizeDst := objSize - carmDst.offset
      let sizeSrc := objSize - carmSrc.offset
      let chunkSize := min sizeDst sizeSrc
      if chunkSize = 0 then .error .exit
      else if u32 (bytesTransfered + chunkSize) < size then
        let bytesTransfered := u32 (bytesTransfered + chunkSize)
        carmMemcpyLoop m dst src size fuel (h.memmove d s chunkSize)
          (getCarmPtr (dst + bytesTransfered) true) (getCarmPtr (src + bytesTransfered) false)
          bytesTransfered
      else .ok (h.memmove d s (size - bytesTransfered))
    else .ok h

def carmMemcpy (m : Manager) (h : Heap) (dst src size : Nat) : Outcome (Heap × Nat) :=
  let carmDst := getCarmPtr dst true
  let carmSrc := getCarmPtr src false
  if !carmDst.isCarmptr && !carmSrc.isCarmptr then .ok (h.memmove dst src size, dst)
  else if carmDst.isCarmptr && !carmSrc.isCarmptr then
    (carmMemcpyDstLoop m src size (size + 1) h carmDst 0).map (·, dst)
  else if !carmDst.isCarmptr && carmSrc.isCarmptr then
    (carmMemcpySrcLoop m dst size (size + 1) h carmSrc 0).map (·, dst)
  else (carmMemcpyLoop m dst src size (size + 1) h carmDst carmSrc 0).map (·, dst)

-- ---------------------------------------------------------------------------
-- carm_memset
-- ---------------------------------------------------------------------------

def carmMemsetLoop (m : Manager) (src : Int) (size : Nat) :
    Nat → Heap → CarmPtr → Nat → Outcome Heap
  | 0, _, _, _ => .error .diverge
  | fuel + 1, h, carmDst, bytesSet =>
    if bytesSet < size then
      let (h, d) := ptrDeref m h carmDst
      let chunkSize := objSize - carmDst.offset
      if chunkSize = 0 then .error .exit
      else
        let h :=
          if u32 (bytesSet + chunkSize) < size then h.memset d src chunkSize
          else h.memset d src (size - bytesSet)
        carmMemsetLoop m src size fuel h
          { carmDst with objIndex := carmDst.objIndex + 1, offset := 0 } (u32 (bytesSet + chunkSize))
    else .ok h

def carmMemset (m : Manager) (h : Heap) (dst : Nat) (src : Int) (size : Nat) :
    Outcome (Heap × Nat) :=
  let carmDst := getCarmPtr dst true
  if !carmDst.isCarmptr then .ok (h.memset dst src size, dst)
  else (carmMemsetLoop m src size (size + 1) h carmDst 0).map (·, dst)

-- ---------------------------------------------------------------------------
-- The allocator
-- ---------------------------------------------------------------------------

def bump (h : Heap) (asize : Nat) : Heap :=
  { h with
    allocationMap := Function.update h.allocationMap h.aspaceStart asize
    aspaceStart := u64 (h.aspaceStart + asize) }

def carmRemoteMalloc (h : Heap) (size : Nat) : Heap × Nat :=
  let asize := enforceSizeConstraints size
  (h.bump asize, h.aspaceStart)

def carmCalloc (m : Manager) (h : Heap) (elem elemSize : Nat) : Outcome (Heap × Nat) := do
  let size := u64 (elem * elemSize)
  let asize := enforceSizeConstraints size
  let ret := h.aspaceStart
  let (h, _) ← carmMemset m (h.bump asize) ret 0 asize
  return (h, ret)

def updateObjectList (h : Heap) (oldIndex : Nat) : Heap :=
  let newIndex := h.totalObjCnt
  { h with
    ptrs := Function.update h.ptrs newIndex (h.ptrs oldIndex)
    objs := match h.ptrs oldIndex with
      | some o => Function.update h.objs o { h.objs o with carmObjIndex := newIndex }
      | none => h.objs
    totalObjCnt := newIndex + 1
    recycled := oldIndex :: h.recycled }

def credit (h : Heap) (objIndex n : Nat) : Heap :=
  { h with freeListMap := Function.update h.freeListMap objIndex (u64 (h.freeListMap objIndex + n)) }

def carmFreeLoop (size : Nat) : Nat → Heap → Nat → Nat → Nat → Outcome Heap
  | 0, _, _, _, _ => .error .diverge
  | fuel + 1, h, objIndex, freedSize, chunkSize =>
    if freedSize < size then
      if chunkSize = 0 then .error .exit
      else
        let h := h.credit objIndex
          (if u64 (freedSize + chunkSize) < size then chunkSize else size - freedSize)
        -- contiguous data: nothing past an untouched slot is looked at
        if h.freeListMap objIndex = objSize ∧ h.ptrs objIndex = none then .ok h
        else
          let h := if h.freeListMap objIndex = objSize then h.updateObjectList objIndex else h
          if h.freeListMap objIndex > objSize then .error .abort
          else carmFreeLoop size fuel h (objIndex + 1) (u64 (freedSize + chunkSize)) objSize
    else .ok h

/-- An untagged pointer goes to `free`, which no table here describes. -/
def carmFree (h : Heap) (ptr : Nat) : Outcome Heap :=
  if checkCarmObject ptr then
    let size := h.allocationMap ptr
    let p := getCarmPtr ptr false
    carmFreeLoop size (size + 1) h p.objIndex 0 (objSize - p.offset)
  else .ok h

/-- An untagged pointer goes to `realloc`, which no table here describes. -/
def carmRealloc (m : Manager) (h : Heap) (ptr size : Nat) : Outcome (Heap × Nat) := do
  if !checkCarmObject ptr then return (h, ptr)
  if size = 0 then
    let h ← h.carmFree ptr
    return (h, 0)
  let (h, rptr) := h.carmRemoteMalloc size
  let (h, _) ← carmMemcpy m h rptr ptr (h.allocationMap ptr)
  let h ← h.carmFree ptr
  return (h, rptr)

end Heap

end TrackFM
