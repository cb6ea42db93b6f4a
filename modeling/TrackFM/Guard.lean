import TrackFM.Machine
import TrackFM.Cache
import TrackFM.Lib.Emit

/-!
# The two guards

The guard the carm_transform pass emits before a load or a store, and
`_ptrDeref` of the runtime. Both are read over any machine that offers the
`carm_obj_state` table and the two dereference functions, so that agreeing means
calling the same function on the same object.
-/

namespace TrackFM

open Lib (Code CallMachine)

inductive DerefFn where
  /-- `CARM_DEREF_READ` -/
  | read
  /-- `CARM_DEREF_WRITE` -/
  | write
  deriving DecidableEq, Repr

-- ---------------------------------------------------------------------------
-- The emitted guard
-- ---------------------------------------------------------------------------

section
variable {V : Type}

def checkObjState (objState : V) (mutable : Bool) (next : V → Code DerefFn V) : Code DerefFn V :=
  let exceptions := kHotClear ||| kPresentClear ||| kEvacuationSet
  let exceptions := if mutable then exceptions ||| kDirtyClear else exceptions
  .const exceptions fun exceptions => .bin .and objState exceptions next

def getDataAddrFromCarmObjState (objState : V) (next : V → Code DerefFn V) : Code DerefFn V :=
  .const kObjectDataAddrBitPos fun pos => .bin .lshr objState pos next

/-- The PHI merges the result of the call and the address in the state word. -/
def transformNestedIf (mutable : Bool) (carmPointer : V) : Code DerefFn V :=
  .const objSizeMask fun objectSizeMask =>
  .const (Nat.log2 objSize) fun logObjSize =>
  .const carmPtr fun carmPointerBase =>
  .bin .xor carmPointer carmPointerBase fun xorv =>
  .bin .lshr xorv logObjSize fun index =>
  .load index fun carmObjState =>
  checkObjState carmObjState mutable fun objState =>
  .const 0 fun zero =>
  .branch .ne objState zero
    (.call (if mutable then .write else .read) index .ret)
    (getDataAddrFromCarmObjState carmObjState .ret) fun addr =>
  .bin .and carmPointer objectSizeMask fun offset =>
  .bin .add addr offset .ret

/-- The guard of one access; the PHI merges the translated pointer and the
pointer itself. -/
def transformFunction (mutable : Bool) (pointer : V) : Code DerefFn V :=
  .const carmPtr fun carmPointerBase =>
  .branch .uge pointer carmPointerBase (transformNestedIf mutable pointer) (.ret pointer) .ret

end

-- ---------------------------------------------------------------------------
-- The guard of the runtime
-- ---------------------------------------------------------------------------

variable {σ : Type} {m : CallMachine DerefFn σ} {s : σ}

def ptrDerefOn (m : CallMachine DerefFn σ) (s : σ) (p : CarmPtr) : σ × Nat :=
  let metadata := m.table s p.objIndex
  let (s, addr) :=
    if metadata &&& exceptions p.mutable ≠ 0 then
      if p.mutable then m.call .write s p.objIndex else m.call .read s p.objIndex
    else (s, dataAddr metadata)
  (s, u64 (addr + p.offset))

/-- `get_carm_ptr` and `_ptrDeref`, where an untagged pointer is used as it is. -/
def runtimeGuard (m : CallMachine DerefFn σ) (s : σ) (pointer : Nat) (mutable : Bool) : σ × Nat :=
  let p := getCarmPtr pointer mutable
  if p.isCarmptr then ptrDerefOn m s p else (s, pointer)

def Translatable (p : Nat) : Prop := p < 2 ^ 47 ∨ 2 ^ 60 ≤ p ∧ p < 2 ^ 61

theorem transformFunction_untagged (hp : p < carmPtr) :
    (transformFunction mutable p).eval m s = (s, p) := by
  have hlt : Lib.Predicate.eval .uge p carmPtr = false := decide_eq_false (Nat.not_le.mpr hp)
  exact Code.eval_no hlt

theorem transformFunction_tagged (hp : carmPtr ≤ p) :
    (transformFunction mutable p).eval m s = (transformNestedIf mutable p).eval m s := by
  have hge : Lib.Predicate.eval .uge p carmPtr = true := decide_eq_true hp
  exact Code.eval_yes hge

/-- The shift by `log2(OBJ_SIZE)` is the division, the mask the remainder. -/
theorem transformNestedIf_eval (hx : x < 2 ^ 60) :
    (transformNestedIf mutable (startAddr + x)).eval m s =
      ptrDerefOn m s (getCarmPtr (startAddr + x) mutable) := by
  have hindex : x >>> Nat.log2 objSize = x / objSize := Nat.shiftRight_eq_div_pow x 12
  have hoffset : (startAddr + x) &&& objSizeMask = x % objSize := by
    rw [show objSizeMask = 2 ^ 12 - 1 from rfl, Nat.and_two_pow_sub_one_eq_mod]
    simp only [startAddr, objSize]
    omega
  have hstate : (transformNestedIf mutable (startAddr + x)).eval m s =
      (Code.branch .ne (m.table s (x / objSize) &&& exceptions mutable) 0
        (.call (if mutable then .write else .read) (x / objSize) .ret)
        (.ret (dataAddr (m.table s (x / objSize)))) fun addr =>
        .bin .add addr (x % objSize) .ret).eval m s := by
    cases mutable <;>
      simp only [transformNestedIf, checkObjState, getDataAddrFromCarmObjState, Code.eval,
        Lib.BinOp.eval, start_xor hx, hindex, hoffset] <;> rfl
  rw [hstate, getCarmPtr_start hx]
  by_cases hfast : m.table s (x / objSize) &&& exceptions mutable = 0
  · have hne : Lib.Predicate.eval .ne (m.table s (x / objSize) &&& exceptions mutable) 0 = false :=
      decide_eq_false (not_not_intro hfast)
    rw [Code.eval_no hne, ptrDerefOn, if_neg (not_not_intro hfast)]
    rfl
  · have hne : Lib.Predicate.eval .ne (m.table s (x / objSize) &&& exceptions mutable) 0 = true :=
      decide_eq_true hfast
    rw [Code.eval_yes hne, ptrDerefOn, if_pos hfast]
    cases mutable <;> rfl

/-- The guard of the pass and the guard of the runtime call one function on one
object and yield one address. -/
theorem guards_agree (hp : Translatable p) :
    (transformFunction mutable p).eval m s = runtimeGuard m s p mutable := by
  rcases hp with hlow | ⟨hge, hlt⟩
  · have h60 : p < 2 ^ 60 := hlow.trans (by decide)
    rw [transformFunction_untagged h60, runtimeGuard, getCarmPtr_untagged h60]
    rfl
  · obtain ⟨x, rfl⟩ := Nat.exists_eq_add_of_le hge
    have hx : x < 2 ^ 60 := by omega
    rw [transformFunction_tagged hge, runtimeGuard]
    have htagged : (getCarmPtr (startAddr + x) mutable).isCarmptr = true := by
      rw [getCarmPtr_start hx]
    exact (transformNestedIf_eval hx).trans (if_pos htagged).symm

theorem guards_agree_store :
    (transformFunction true (startAddr + 5000)).eval
      (⟨fun s i => s i, fun _ s i => (s, i)⟩ : CallMachine DerefFn (Nat → Nat)) (fun _ => flushCache) =
    runtimeGuard ⟨fun s i => s i, fun _ s i => (s, i)⟩ (fun _ => flushCache)
      (startAddr + 5000) true :=
  guards_agree (.inr ⟨by decide, by decide⟩)

-- ---------------------------------------------------------------------------
-- On the heap
-- ---------------------------------------------------------------------------

open Heap (Coherent)

section
variable {m : Manager} {h : Heap}

def heapMachine (m : Manager) : CallMachine DerefFn Heap where
  table h := h.carmObjState
  call
    | .read, h, objIndex => h.carmDerefRead m objIndex
    | .write, h, objIndex => h.carmDerefWrite m objIndex

theorem ptrDerefOn_heap : ptrDerefOn (heapMachine m) h p =
    ((h.ptrDeref m p).1, u64 (h.ptrDeref m p).2) := by
  by_cases hfast : h.carmObjState p.objIndex &&& exceptions p.mutable = 0
  · simp [ptrDerefOn, Heap.ptrDeref, heapMachine, hfast]
  · cases hw : p.mutable <;> rw [hw] at hfast <;>
      simp [ptrDerefOn, Heap.ptrDeref, heapMachine, hfast, hw]

/-- A translated address is below `2^47`, so the sum does not wrap. -/
theorem ptrDerefOn_current (hc : Coherent m h) (hi : h.Current p.objIndex)
    (hoff : p.offset < objSize) : ptrDerefOn (heapMachine m) h p = h.ptrDeref m p := by
  obtain ⟨base, hbase, hd⟩ := Heap.ptrDeref_spec hc hi
  have hin := hd.located.within hd.keeps.coherent (hd.keeps.current _ hi)
  have hhi := m.hi_le
  have hlt : base + p.offset < 2 ^ 64 := by omega
  rw [ptrDerefOn_heap, hbase, u64, Nat.mod_eq_of_lt hlt, ← hbase]

theorem transformFunction_current (hc : Coherent m h) (hi : h.Current (x / objSize)) :
    (transformFunction mutable (startAddr + x)).eval (heapMachine m) h =
      h.ptrDeref m (getCarmPtr (startAddr + x) mutable) := by
  have hx := hi.lt_start hc
  have hge : carmPtr ≤ startAddr + x := Nat.le_add_right _ _
  rw [transformFunction_tagged hge, transformNestedIf_eval hx, getCarmPtr_start hx]
  exact ptrDerefOn_current hc hi (Nat.mod_lt _ (by decide))

theorem transformFunction_read (hc : Coherent m h) (hi : h.Current (x / objSize)) :
    (transformFunction false (startAddr + x)).eval (heapMachine m) h =
      guardedRead m h (startAddr + x) := by
  rw [transformFunction_current hc hi, guardedRead]

theorem transformFunction_write (hc : Coherent m h) (hi : h.Current (x / objSize)) :
    ((transformFunction true (startAddr + x)).eval (heapMachine m) h).1.store
      ((transformFunction true (startAddr + x)).eval (heapMachine m) h).2 n bytes =
      guardedWrite m h (startAddr + x) n bytes := by
  rw [transformFunction_current hc hi, guardedWrite]

end

end TrackFM
