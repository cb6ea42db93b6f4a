import TrackFM.Runtime
import TrackFM.Libc

/-!
# Loop slots

`carm_loops.cpp`: the table `loopstate`, its counter, and the calls the
transformed loops make. A table access outside `MAX_LOOPS` is a cell of its own,
as in `Heap`; the indices used are kept, so that a bound on them can be stated.
`carm_static_prefetch` only hints to AIFM and leaves no trace but its index.
-/

namespace TrackFM

open Heap (carmDerefReadSp carmDerefWriteSp)

structure CarmLoop where
  objIndex : Nat
  staticPrefetch : Nat
  active : Bool
  carmPtr : Bool
  stepValueConstant : Bool
  carmStartAddr : Nat
  stackAddr : Nat
  startObjIndex : Nat
  startObjOffset : Nat
  regionAddr : Nat
  stride : Nat
  deriving DecidableEq, Repr

def CarmLoop.cleared : CarmLoop where
  objIndex := 0
  staticPrefetch := 0
  active := false
  carmPtr := false
  stepValueConstant := false
  carmStartAddr := 0
  stackAddr := 0
  startObjIndex := 0
  startObjOffset := 0
  regionAddr := 0
  stride := 0

structure Loops where
  heap : Heap
  loopstate : Nat → CarmLoop
  loopIdCnt : Nat
  /-- The indices `loopstate` was accessed at, latest first. -/
  slots : List Nat
  /-- The indices `prefetcher_` and `prev_obj_index` were accessed at. -/
  prefetchers : List Nat

/-- `init_loops`; what lies behind the table is anything. -/
def initLoops (heap : Heap) (behind : Nat → CarmLoop) : Loops where
  heap := heap
  loopstate i := if i < maxLoops then .cleared else behind i
  loopIdCnt := 0
  slots := []
  prefetchers := []

namespace Heap

def markRegionNotEvacutable (m : Manager) (h : Heap) (objectAddr : Nat) : Heap × Nat :=
  ({ h with marks := m.regionOf objectAddr :: h.marks }, m.regionOf objectAddr)

def invalidateMarkedRegion (h : Heap) (regionAddr : Nat) : Heap :=
  if regionAddr = 0 then h else { h with marks := h.marks.erase regionAddr }

def localAddr (h : Heap) (i : Nat) : Nat :=
  match h.ptrs i with
  | none => 0
  | some o => (h.objs o).addr

end Heap

namespace Loops

def set (s : Loops) (loopId : Nat) (l : CarmLoop) : Loops :=
  { s with
    loopstate := Function.update s.loopstate loopId l
    slots := loopId :: s.slots }

/-- `_carm_deref_loop_write` and `_carm_deref_loop_read`. The pointer of the
first object is moved to the start offset; the test is on the index. -/
def carmDerefLoop (m : Manager) (mutable : Bool) (s : Loops) (loopId : Nat) : Loops × Nat :=
  let l := s.loopstate loopId
  if l.carmPtr then
    let h := s.heap.invalidateMarkedRegion l.regionAddr
    let (h, loopPtr) :=
      if mutable then carmDerefWriteSp m h l.objIndex (loopId + 1)
      else carmDerefReadSp m h l.objIndex (loopId + 1)
    let (h, regionAddr) := h.markRegionNotEvacutable m loopPtr
    let next := { l with regionAddr, objIndex := u64 (l.objIndex + l.stride) }
    ({ s.set loopId next with heap := h, prefetchers := (loopId + 1) :: s.prefetchers },
      if l.startObjIndex = l.objIndex then u64 (loopPtr + l.startObjOffset) else loopPtr)
  else
    -- a second call for a stack address prints a warning and goes on
    (s.set loopId { l with objIndex := u64 (l.objIndex + 1) },
      u64 (l.stackAddr + l.objIndex * objSize))

def carmDerefLoopWrite (m : Manager) (s : Loops) (loopId : Nat) : Loops × Nat :=
  carmDerefLoop m true s loopId

def carmDerefLoopRead (m : Manager) (s : Loops) (loopId : Nat) : Loops × Nat :=
  carmDerefLoop m false s loopId

/-- `stride`: whole objects a step. -/
def strideOf (stepValueConst : Nat) : Nat :=
  if stepValueConst = 0 then 0
  else if stepValueConst < objSize then 1
  else stepValueConst / objSize

/-- `obj_s`: the rest of the first object, or enough for any local range. -/
def initialBound (srcAddr : Nat) : Nat :=
  let p := getCarmPtr srcAddr true
  if p.isCarmptr then objSize - p.offset else objSize + (512 <<< 40)

/-- The slot `carm_loop_init` fills; the fields it leaves alone come from `l`. -/
def opened (l : CarmLoop) (srcAddr stepValueConst : Nat) : CarmLoop :=
  let p := getCarmPtr srcAddr true
  let l := { l with stepValueConstant := stepValueConst == 0, active := true, regionAddr := 0 }
  if p.isCarmptr then
    { l with
      carmStartAddr := srcAddr
      carmPtr := true
      objIndex := p.objIndex
      startObjIndex := p.objIndex
      startObjOffset := p.offset
      stride := strideOf stepValueConst }
  else { l with stackAddr := srcAddr, carmPtr := false, objIndex := 0 }

def carmLoopInit (s : Loops) (srcAddr stepValueConst : Nat) : Outcome (Loops × Nat) :=
  let id := s.loopIdCnt
  let l := s.loopstate id
  if l.active then .error .abort
  else
    let prefetchers :=
      if (getCarmPtr srcAddr true).isCarmptr ∧ stepValueConst = 0 then (id + 1) :: s.prefetchers
      else s.prefetchers
    .ok ({ s.set id (opened l srcAddr stepValueConst) with prefetchers, loopIdCnt := u64 (id + 1) },
      initialBound srcAddr ||| u64 (id <<< loopIdPos))

/-- Every field but the stride. -/
def closed (l : CarmLoop) : CarmLoop := { CarmLoop.cleared with stride := l.stride }

def invalidateLoopIndex (s : Loops) (loopId : Nat) : Loops :=
  let l := s.loopstate loopId
  if l.active then
    let h := if l.carmPtr then s.heap.invalidateMarkedRegion l.regionAddr else s.heap
    { s.set loopId (closed l) with
      heap := h
      loopIdCnt := if s.loopIdCnt > 0 then s.loopIdCnt - 1 else s.loopIdCnt }
  else { s with slots := loopId :: s.slots }

-- ---------------------------------------------------------------------------
-- The packed result of carm_loop_init
-- ---------------------------------------------------------------------------

section
variable {bound loopId : Nat}

theorem initialBound_lt : initialBound srcAddr < 2 ^ 50 := by
  unfold initialBound
  simp only
  split
  · exact (Nat.sub_le ..).trans_lt (by decide)
  · decide

/-- `lshr` by `LOOP_ID_POS` finds the loop id. -/
theorem packed_id (hb : bound < 2 ^ 50) (hid : loopId < 2 ^ 14) :
    (bound ||| u64 (loopId <<< loopIdPos)) >>> loopIdPos = loopId := by
  have hlt : loopId <<< 50 < 2 ^ 64 := by
    rw [Nat.shiftLeft_eq]
    omega
  show (bound ||| loopId <<< 50 % 2 ^ 64) >>> 50 = loopId
  rw [Nat.mod_eq_of_lt hlt, Nat.or_comm, ← Nat.shiftLeft_add_eq_or_of_lt hb,
    Nat.shiftRight_eq_div_pow, Nat.shiftLeft_eq]
  omega

/-- `and` with `LOOP_OBJ_MASK` finds the bound. -/
theorem packed_bound (hb : bound < 2 ^ 50) :
    (bound ||| u64 (loopId <<< loopIdPos)) &&& loopObjMask = bound := by
  have hid : u64 (loopId <<< 50) % 2 ^ 50 = 0 := by
    rw [u64, Nat.shiftLeft_eq]
    omega
  show _ &&& (2 ^ 50 - 1) = bound
  rw [Nat.and_two_pow_sub_one_eq_mod, Nat.or_mod_two_pow, Nat.mod_eq_of_lt hb, hid, Nat.or_zero]

end

-- ---------------------------------------------------------------------------
-- What a call leaves
-- ---------------------------------------------------------------------------

variable {m : Manager} {s : Loops} {l : CarmLoop} {w : Bool}

theorem set_self : (s.set i l).loopstate i = l := Function.update_self ..

theorem set_other (h : j ≠ i) : (s.set i l).loopstate j = s.loopstate j := Function.update_of_ne h ..

theorem opened_active : (opened l srcAddr d).active = true := by
  unfold opened
  simp only
  split <;> rfl

theorem opened_regionAddr : (opened l srcAddr d).regionAddr = 0 := by
  unfold opened
  simp only
  split <;> rfl

theorem carmLoopInit_ok (h : (s.loopstate s.loopIdCnt).active = false) :
    ∃ prefetchers, s.carmLoopInit a d = .ok
        ({ s.set s.loopIdCnt (opened (s.loopstate s.loopIdCnt) a d) with
            prefetchers, loopIdCnt := u64 (s.loopIdCnt + 1) },
          initialBound a ||| u64 (s.loopIdCnt <<< loopIdPos)) ∧
      ∀ i ∈ prefetchers, i = s.loopIdCnt + 1 ∨ i ∈ s.prefetchers := by
  refine ⟨if (getCarmPtr a true).isCarmptr ∧ d = 0 then (s.loopIdCnt + 1) :: s.prefetchers
    else s.prefetchers, by simp [carmLoopInit, h], ?_⟩
  split
  · simp
  · exact fun i hi => .inr hi

end Loops

namespace Heap

variable {m : Manager} {h : Heap} {w : Bool}

theorem localAddr_eq (hp : h.ptrs i = some o) : h.localAddr i = (h.objs o).addr := by
  simp [localAddr, hp]

theorem objectFor_ptrs : (objectFor m h i).1.ptrs i = some (objectFor m h i).2 := by
  unfold objectFor
  split
  · assumption
  · simp [allocateObject]

theorem carmAddPrefetchTrace_localAddr (hp : h.ptrs i = some o) :
    (h.carmAddPrefetchTrace i pf).localAddr i = (h.objs o).addr := by
  rw [localAddr_eq (by rw [carmAddPrefetchTrace_ptrs]; exact hp), carmAddPrefetchTrace_objs]

theorem carmDerefObj_localAddr :
    (carmDerefObj m h w i pf).2 = (carmDerefObj m h w i pf).1.localAddr i := by
  have hp := objectFor_ptrs (m := m) (h := h) (i := i)
  unfold carmDerefObj
  generalize objectFor m h i = r at hp
  exact (carmAddPrefetchTrace_localAddr (h := (r.1.deref m r.2 w).publish i r.2) hp).symm

theorem carmDerefObj_marks : (carmDerefObj m h w i pf).1.marks = h.marks := by
  unfold carmDerefObj objectFor carmAddPrefetchTrace
  simp only
  split <;> split <;> rfl

theorem invalidateMarkedRegion_marks (h0 : regionAddr = 0 → regionAddr ∉ h.marks) :
    (h.invalidateMarkedRegion regionAddr).marks = h.marks.erase regionAddr := by
  unfold invalidateMarkedRegion
  split
  · exact (List.erase_of_not_mem (h0 ‹_›)).symm
  · rfl

end Heap

namespace Loops

variable {m : Manager} {s : Loops} {w : Bool} {loopId : Nat}

def fetched (m : Manager) (w : Bool) (s : Loops) (loopId : Nat) : Heap × Nat :=
  Heap.carmDerefObj m (s.heap.invalidateMarkedRegion (s.loopstate loopId).regionAddr).carmDeref w
    (s.loopstate loopId).objIndex (loopId + 1)

theorem carmDerefLoop_remote (h : (s.loopstate loopId).carmPtr = true) :
    carmDerefLoop m w s loopId =
      ({ s.set loopId { s.loopstate loopId with
            regionAddr := m.regionOf (fetched m w s loopId).2
            objIndex := u64 ((s.loopstate loopId).objIndex + (s.loopstate loopId).stride) } with
          heap := ((fetched m w s loopId).1.markRegionNotEvacutable m (fetched m w s loopId).2).1
          prefetchers := (loopId + 1) :: s.prefetchers },
        if (s.loopstate loopId).startObjIndex = (s.loopstate loopId).objIndex then
          u64 ((fetched m w s loopId).2 + (s.loopstate loopId).startObjOffset)
        else (fetched m w s loopId).2) := by
  cases w <;> simp only [carmDerefLoop, h, if_true, Bool.false_eq_true, if_false] <;> rfl

theorem carmDerefLoop_local (h : (s.loopstate loopId).carmPtr = false) :
    carmDerefLoop m w s loopId =
      (s.set loopId { s.loopstate loopId with objIndex := u64 ((s.loopstate loopId).objIndex + 1) },
        u64 ((s.loopstate loopId).stackAddr + (s.loopstate loopId).objIndex * objSize)) := by
  simp [carmDerefLoop, h]

theorem fetched_localAddr :
    (fetched m w s loopId).2 = (fetched m w s loopId).1.localAddr (s.loopstate loopId).objIndex :=
  Heap.carmDerefObj_localAddr

theorem fetched_marks : (fetched m w s loopId).1.marks =
    (s.heap.invalidateMarkedRegion (s.loopstate loopId).regionAddr).marks :=
  Heap.carmDerefObj_marks

/-- What a dereference leaves of the table: only the own slot changes, and its
old mark is exchanged for one of the region of the object found. -/
structure Fetches (m : Manager) (s s' : Loops) (loopId : Nat) : Prop where
  other : ∀ i, i ≠ loopId → s'.loopstate i = s.loopstate i
  loopIdCnt : s'.loopIdCnt = s.loopIdCnt
  slots : s'.slots = loopId :: s.slots
  prefetchers : ∀ i ∈ s'.prefetchers, i = loopId + 1 ∨ i ∈ s.prefetchers
  active : (s'.loopstate loopId).active = (s.loopstate loopId).active
  carmPtr : (s'.loopstate loopId).carmPtr = (s.loopstate loopId).carmPtr
  remote : (s.loopstate loopId).carmPtr = true → (s'.loopstate loopId).regionAddr =
      m.regionOf (s'.heap.localAddr (s.loopstate loopId).objIndex) ∧
    s'.heap.marks = m.regionOf (s'.heap.localAddr (s.loopstate loopId).objIndex) ::
      (s.heap.invalidateMarkedRegion (s.loopstate loopId).regionAddr).marks
  app : (s.loopstate loopId).carmPtr = false →
    (s'.loopstate loopId).regionAddr = (s.loopstate loopId).regionAddr ∧ s'.heap = s.heap

theorem carmDerefLoop_fetches : Fetches m s (carmDerefLoop m w s loopId).1 loopId := by
  cases h : (s.loopstate loopId).carmPtr with
  | true =>
    rw [carmDerefLoop_remote h]
    exact {
      other := fun i hi => set_other hi
      loopIdCnt := rfl
      slots := rfl
      prefetchers := fun i hi => List.mem_cons.mp hi
      active := (congrArg CarmLoop.active set_self).trans rfl
      carmPtr := (congrArg CarmLoop.carmPtr set_self).trans rfl
      remote := fun _ => by
        have haddr : ((fetched m w s loopId).1.markRegionNotEvacutable m
            (fetched m w s loopId).2).1.localAddr (s.loopstate loopId).objIndex =
            (fetched m w s loopId).2 := fetched_localAddr.symm
        rw [haddr]
        refine ⟨(congrArg CarmLoop.regionAddr set_self).trans rfl, ?_⟩
        rw [← fetched_marks (w := w)]
        rfl
      app := fun hf => by cases h.symm.trans hf }
  | false =>
    rw [carmDerefLoop_local h]
    exact {
      other := fun i hi => set_other hi
      loopIdCnt := rfl
      slots := rfl
      prefetchers := fun i hi => .inr hi
      active := (congrArg CarmLoop.active set_self).trans rfl
      carmPtr := (congrArg CarmLoop.carmPtr set_self).trans rfl
      remote := fun ht => by cases h.symm.trans ht
      app := fun _ => ⟨(congrArg CarmLoop.regionAddr set_self).trans rfl, rfl⟩ }

end Loops

end TrackFM
