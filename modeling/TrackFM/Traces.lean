import TrackFM.Walk
import TrackFM.Prefetch
import TrackFM.Lib.Unrepeated

/-!
# What the prefetchers are told

Slot `i` of the loop table has prefetcher `i + 1`, which is told the objects the
slot's pointer asks for, whatever other slots and the guards do in between. From
two of them the prefetcher infers the object that is asked for next.
-/

namespace TrackFM

open Loops (opened closed fetched carmDerefLoop_remote carmDerefLoop_local set_self set_other)
open Lib (unlessSame)
open Heap (Coherent)

namespace Heap

variable {m : Manager} {h : Heap} {w : Bool}

/-- The calls of `add_trace` that `carm_add_prefetch_trace` makes. -/
def addTrace (h : Heap) (objIndex pfId : Nat) : List Nat :=
  if h.prevObjIndex pfId ≠ objIndex then [objIndex] else []

theorem carmAddPrefetchTrace_prev :
    (h.carmAddPrefetchTrace i pf).prevObjIndex = Function.update h.prevObjIndex pf i := by
  rw [carmAddPrefetchTrace]
  split
  case isTrue => rfl
  case isFalse heq => rw [← not_not.mp heq, Function.update_eq_self]

theorem carmDerefObj_prev :
    (carmDerefObj m h w i pf).1.prevObjIndex = Function.update h.prevObjIndex pf i := by
  have hobj : (objectFor m h i).1.prevObjIndex = h.prevObjIndex := by
    rw [objectFor]
    split <;> rfl
  rw [carmDerefObj]
  exact hobj ▸ carmAddPrefetchTrace_prev

/-- A guard tells the default prefetcher only. -/
theorem ptrDeref_prev {p : CarmPtr} (hpf : pf ≠ 0) :
    (ptrDeref m h p).1.prevObjIndex pf = h.prevObjIndex pf := by
  rw [ptrDeref]
  dsimp only
  split
  · split
    · exact (congrFun carmDerefObj_prev pf).trans (Function.update_of_ne hpf ..)
    · exact (congrFun carmDerefObj_prev pf).trans (Function.update_of_ne hpf ..)
  · rfl

theorem carmDerefObj_local (hp : h.ptrs i = some o) (hpres : (h.objs o).Present) :
    (carmDerefObj m h w i pf).1.mem = h.mem := by
  have hobj : objectFor m h i = (h, o) := by rw [objectFor, hp]
  rw [carmDerefObj, hobj]
  dsimp only
  rw [carmAddPrefetchTrace]
  have hmem : ((h.deref m o w).publish i o).mem = h.mem := if_pos hpres
  split
  · exact hmem
  · exact hmem

theorem updateCacheObject_prev : (h.updateCacheObject o).prevObjIndex = h.prevObjIndex := by
  dsimp only [updateCacheObject]
  split <;> rfl

theorem evacuate_prev : (h.evacuate m o).prevObjIndex = h.prevObjIndex := by
  rw [evacuate]
  split
  · exact updateCacheObject_prev
  · rfl

theorem addTrace_eq : h.addTrace i pf = unlessSame (h.prevObjIndex pf) i := rfl

theorem invalidateMarkedRegion_prev :
    (h.invalidateMarkedRegion r).prevObjIndex = h.prevObjIndex := by
  obtain ⟨ms, hinv⟩ := invalidateMarkedRegion_eq (h := h) (r := r)
  rw [hinv]

end Heap

theorem fetched_prev {m : Manager} {w : Bool} (s : Loops) (loopId : Nat) :
    (fetched m w s loopId).1.prevObjIndex = Function.update s.heap.prevObjIndex (loopId + 1)
      (s.loopstate loopId).objIndex := by
  rw [fetched, Heap.carmDerefObj_prev]
  exact congrArg (fun f => Function.update f _ _) Heap.invalidateMarkedRegion_prev

/-- The loop table, with what each prefetcher has been told and what each slot has
asked for since it was opened. -/
structure Traced where
  loops : Loops
  told : Nat → List Nat
  asked : Nat → List Nat

inductive LoopCall where
  | init (srcAddr stepValueConst : Nat)
  | deref (mutable : Bool) (loopId : Nat)
  | invalidate (loopId : Nat)
  /-- Anything else the program or the manager does to the heap. -/
  | other (heap : Heap)

namespace Traced

def step (m : Manager) (s : Traced) : LoopCall → Outcome Traced
  | .init srcAddr stepValueConst => do
    let (loops, _) ← s.loops.carmLoopInit srcAddr stepValueConst
    return { s with loops, asked := Function.update s.asked s.loops.loopIdCnt [] }
  | .deref w i =>
    let (loops, _) := s.loops.carmDerefLoop m w i
    let l := s.loops.loopstate i
    if l.carmPtr then
      .ok {
        loops
        told := Function.update s.told (i + 1)
          (s.told (i + 1) ++ s.loops.heap.addTrace l.objIndex (i + 1))
        asked := Function.update s.asked i (s.asked i ++ [l.objIndex]) }
    else .ok { s with loops }
  | .invalidate i => .ok { s with loops := s.loops.invalidateLoopIndex i }
  | .other heap => .ok { s with loops := { s.loops with heap } }

/-- Arguments are words, and only `carm_deref_loop` tells the prefetchers of slots. -/
def Plausible (s : Traced) : LoopCall → Prop
  | .init srcAddr stepValueConst => srcAddr < 2 ^ 64 ∧ stepValueConst < 2 ^ 64
  | .other heap => ∀ i, heap.prevObjIndex (i + 1) = s.loops.heap.prevObjIndex (i + 1)
  | _ => True

end Traced

/-- The states runs get to from an empty table, in any order of the calls. -/
inductive TraceReach (m : Manager) : Traced → Prop
  | init {heap : Heap} (behind) : heap.prevObjIndex = (fun _ => 0) →
      TraceReach m ⟨initLoops heap behind, fun _ => [], fun _ => []⟩
  | next {s s' : Traced} (c : LoopCall) :
      TraceReach m s → s.Plausible c → s.step m c = .ok s' → TraceReach m s'

-- ---------------------------------------------------------------------------
-- Slots
-- ---------------------------------------------------------------------------

structure Asks (l : CarmLoop) (asked : List Nat) : Prop where
  stride : l.stride < 2 ^ 64
  objIndex : l.objIndex = u64 (l.startObjIndex + asked.length * l.stride)
  asked : asked = (List.range asked.length).map fun j => u64 (l.startObjIndex + j * l.stride)

variable {m : Manager} {s s' : Traced} {l : CarmLoop} {asked : List Nat}

theorem getCarmPtr_objIndex_lt (h : a < 2 ^ 64) : (getCarmPtr a true).objIndex < 2 ^ 64 := by
  rw [getCarmPtr]
  split
  · exact (Nat.div_le_self ..).trans_lt (Nat.xor_lt_two_pow h (by decide))
  · decide

theorem Asks.opened (ha : a < 2 ^ 64) (hn : n < 2 ^ 64) (hcarm : (opened l a n).carmPtr = true) :
    Asks (opened l a n) [] := by
  rw [Loops.opened] at hcarm ⊢
  dsimp only at hcarm ⊢
  split at hcarm
  case isTrue h =>
    rw [if_pos h]
    refine ⟨(strideOf_le hn).trans_lt (by decide), ?_, rfl⟩
    rw [List.length_nil, Nat.zero_mul]
    exact (Nat.mod_eq_of_lt (getCarmPtr_objIndex_lt ha)).symm
  case isFalse => cases hcarm

theorem Asks.next (h : Asks l asked) :
    Asks { l with regionAddr := r, objIndex := u64 (l.objIndex + l.stride) }
      (asked ++ [l.objIndex]) where
  stride := h.stride
  objIndex := by
    rw [h.objIndex, List.length_append, List.length_singleton, Nat.add_one_mul, ← Nat.add_assoc]
    exact Nat.mod_add_mod ..
  asked := by
    rw [List.length_append, List.length_singleton, List.range_succ, List.map_append, ← h.asked,
      h.objIndex]
    rfl

theorem u64_add_ne {x d : Nat} (h₀ : d ≠ 0) (hd : d < 2 ^ 64) : u64 x ≠ u64 (x + d) := by
  unfold u64
  omega

theorem Asks.last_ne (h : Asks l asked) (h₀ : l.stride ≠ 0) :
    ∀ b ∈ asked.getLast?, b ≠ l.objIndex := by
  intro b hb
  obtain ⟨bs, rfl⟩ := List.getLast?_eq_some_iff.mp hb
  have hlast : b = u64 (l.startObjIndex + bs.length * l.stride) := by
    have hmap := h.asked
    rw [List.length_append, List.length_singleton, List.range_succ, List.map_append] at hmap
    exact List.singleton_inj.mp (List.append_inj' hmap rfl).2
  rw [hlast, h.objIndex, List.length_append, List.length_singleton, Nat.add_one_mul,
    ← Nat.add_assoc]
  exact u64_add_ne h₀ h.stride

/-- The last two objects asked for tell the next one. -/
theorem Asks.predicts (h : Asks l (as ++ [a, b])) : inferFn b (induceFn a b) = l.objIndex := by
  have hlen : (as ++ [a, b]).length = as.length + 1 + 1 := by simp
  have hmap := h.asked
  rw [hlen, List.range_succ, List.range_succ, List.map_append, List.map_append,
    List.append_assoc] at hmap
  have hpair : [a, b] = [u64 (l.startObjIndex + as.length * l.stride),
      u64 (l.startObjIndex + (as.length + 1) * l.stride)] := (List.append_inj' hmap rfl).2
  obtain ⟨rfl, hb⟩ := List.cons_eq_cons.mp hpair
  obtain rfl := List.singleton_inj.mp hb
  have hnext : ∀ k,
      l.startObjIndex + (k + 1) * l.stride = l.startObjIndex + k * l.stride + l.stride :=
    fun k => by rw [Nat.add_one_mul, Nat.add_assoc]
  rw [h.objIndex, hlen, hnext (as.length + 1), hnext as.length]
  exact inferFn_induceFn

-- ---------------------------------------------------------------------------
-- Runs
-- ---------------------------------------------------------------------------

/-- What holds of the table and the traces in every run. -/
structure InTrace (s : Traced) : Prop where
  chain : ∀ pf, (0 :: s.told pf).IsChain (· ≠ ·)
  last : ∀ i, s.loops.heap.prevObjIndex (i + 1) = (s.told (i + 1)).getLastD 0
  asks : ∀ i < maxLoops, (s.loops.loopstate i).carmPtr = true →
    Asks (s.loops.loopstate i) (s.asked i)
  told : ∀ i < maxLoops, (s.loops.loopstate i).carmPtr = true → (s.loops.loopstate i).stride ≠ 0 →
    s.asked i <:+ 0 :: s.told (i + 1)

theorem InTrace.init {heap : Heap} (h : heap.prevObjIndex = fun _ => 0) :
    InTrace ⟨initLoops heap behind, fun _ => [], fun _ => []⟩ := by
  have hslot : ∀ i < maxLoops,
      ((initLoops heap behind).loopstate i).carmPtr = false := fun i hi => by
    simp [initLoops, hi, CarmLoop.cleared]
  refine ⟨fun _ => List.isChain_singleton 0, fun i => congrFun h (i + 1), fun i hi hcarm => ?_,
    fun i hi hcarm => ?_⟩
  · cases (hslot i hi).symm.trans hcarm
  · cases (hslot i hi).symm.trans hcarm

theorem InTrace.slot (h : InTrace s) (i : Nat)
    (hslot : ∀ j, j ≠ i → s'.loops.loopstate j = s.loops.loopstate j)
    (hprev : ∀ j, j ≠ i → s'.loops.heap.prevObjIndex (j + 1) = s.loops.heap.prevObjIndex (j + 1))
    (htold : ∀ pf, pf ≠ i + 1 → s'.told pf = s.told pf)
    (hasked : ∀ j, j ≠ i → s'.asked j = s.asked j)
    (hchain : (0 :: s'.told (i + 1)).IsChain (· ≠ ·))
    (hlast : s'.loops.heap.prevObjIndex (i + 1) = (s'.told (i + 1)).getLastD 0)
    (hnew : i < maxLoops → (s'.loops.loopstate i).carmPtr = true →
      Asks (s'.loops.loopstate i) (s'.asked i) ∧
        ((s'.loops.loopstate i).stride ≠ 0 → s'.asked i <:+ 0 :: s'.told (i + 1))) :
    InTrace s' where
  chain pf := by
    by_cases hpf : pf = i + 1
    · exact hpf ▸ hchain
    · exact htold pf hpf ▸ h.chain pf
  last j := by
    by_cases hj : j = i
    · exact hj ▸ hlast
    · rw [hprev j hj, htold _ (by omega)]
      exact h.last j
  asks j hlt hcarm := by
    by_cases hj : j = i
    · subst hj
      exact (hnew hlt hcarm).1
    · rw [hslot j hj] at hcarm ⊢
      exact hasked j hj ▸ h.asks j hlt hcarm
  told j hlt hcarm hstride := by
    by_cases hj : j = i
    · subst hj
      exact (hnew hlt hcarm).2 hstride
    · rw [hslot j hj] at hcarm hstride
      rw [hasked j hj, htold _ (by omega)]
      exact h.told j hlt hcarm hstride

theorem InTrace.loopInit (h : InTrace s) (ha : a < 2 ^ 64) (hn : n < 2 ^ 64)
    (hs : s.step m (.init a n) = .ok s') : InTrace s' := by
  obtain ⟨⟨loops, r⟩, hinit, hrest⟩ := bind_ok.mp hs
  cases hrest
  rw [Loops.carmLoopInit] at hinit
  dsimp only at hinit
  split at hinit
  · cases hinit
  cases hinit
  refine h.slot s.loops.loopIdCnt (fun j hj => set_other hj) (fun _ _ => rfl) (fun _ _ => rfl)
    (fun j hj => Function.update_of_ne hj ..) (h.chain _) (h.last _) fun hlt hcarm => ?_
  have hslot : (s.loops.set s.loops.loopIdCnt
      (opened (s.loops.loopstate s.loops.loopIdCnt) a n)).loopstate s.loops.loopIdCnt =
        opened (s.loops.loopstate s.loops.loopIdCnt) a n := set_self
  dsimp only at hcarm ⊢
  rw [hslot] at hcarm ⊢
  rw [Function.update_self]
  exact ⟨.opened ha hn hcarm, fun _ => List.nil_suffix⟩

theorem InTrace.derefRemote (h : InTrace s) (hcarm : (s.loops.loopstate i).carmPtr = true) :
    InTrace {
      loops := (s.loops.carmDerefLoop m w i).1
      told := Function.update s.told (i + 1) (s.told (i + 1) ++
        s.loops.heap.addTrace (s.loops.loopstate i).objIndex (i + 1))
      asked := Function.update s.asked i (s.asked i ++ [(s.loops.loopstate i).objIndex]) } := by
  have hprev := fetched_prev (m := m) (w := w) s.loops i
  rw [carmDerefLoop_remote hcarm]
  have hslot : ∀ l, (s.loops.set i l).loopstate i = l := fun _ => set_self
  refine h.slot i (fun j hj => set_other hj) (fun j hj => ?_)
    (fun pf hpf => Function.update_of_ne hpf ..) (fun j hj => Function.update_of_ne hj ..) ?_ ?_
    fun hlt _ => ?_
  · exact (congrFun hprev (j + 1)).trans (Function.update_of_ne (by omega) ..)
  · dsimp only
    rw [Function.update_self, Heap.addTrace_eq, h.last i]
    exact Lib.chain_unlessSame (h.chain _)
  · dsimp only
    rw [Function.update_self, Heap.addTrace_eq, h.last i, Lib.getLastD_unlessSame]
    exact (congrFun hprev (i + 1)).trans (Function.update_self ..)
  · have hasks := h.asks i hlt hcarm
    dsimp only
    rw [hslot, Function.update_self, Function.update_self, Heap.addTrace_eq, h.last i]
    refine ⟨hasks.next, fun hstride => ?_⟩
    exact Lib.suffix_unlessSame (h.told i hlt hcarm hstride) (hasks.last_ne hstride)

theorem InTrace.localSlot {loops : Loops} (h : InTrace s)
    (hslot : ∀ j, j ≠ i → loops.loopstate j = s.loops.loopstate j)
    (hprev : loops.heap.prevObjIndex = s.loops.heap.prevObjIndex)
    (hlocal : (loops.loopstate i).carmPtr = false) : InTrace { s with loops } := by
  refine h.slot i hslot (fun j _ => congrFun hprev (j + 1)) (fun _ _ => rfl) (fun _ _ => rfl)
    (h.chain _) ((congrFun hprev (i + 1)).trans (h.last i)) fun _ hcarm => ?_
  cases hlocal.symm.trans hcarm

theorem InTrace.loopInvalidate (h : InTrace s) :
    InTrace { s with loops := s.loops.invalidateLoopIndex i } := by
  rw [Loops.invalidateLoopIndex]
  dsimp only
  split
  · refine h.localSlot (i := i) (fun j hj => set_other hj) ?_ (congrArg CarmLoop.carmPtr set_self)
    dsimp only
    split
    · exact Heap.invalidateMarkedRegion_prev
    · rfl
  · exact ⟨h.chain, h.last, h.asks, h.told⟩

theorem InTrace.step (h : InTrace s) (hp : s.Plausible c) (hs : s.step m c = .ok s') :
    InTrace s' := by
  cases c with
  | init a n => exact h.loopInit hp.1 hp.2 hs
  | deref w i =>
    rw [Traced.step] at hs
    dsimp only at hs
    split at hs
    case isTrue hcarm =>
      cases hs
      exact h.derefRemote hcarm
    case isFalse hcarm =>
      cases hs
      have hlocal : (s.loops.loopstate i).carmPtr = false := Bool.eq_false_iff.mpr hcarm
      rw [carmDerefLoop_local hlocal]
      exact h.localSlot (i := i) (fun j hj => set_other hj) rfl
        ((congrArg CarmLoop.carmPtr set_self).trans hlocal)
  | invalidate i =>
    cases hs
    exact h.loopInvalidate
  | other heap =>
    cases hs
    exact ⟨h.chain, fun i => (hp i).trans (h.last i), h.asks, h.told⟩

theorem TraceReach.inTrace (hr : TraceReach m s) : InTrace s := by
  induction hr with
  | init behind h => exact .init h
  | next c _ hp hs ih => exact ih.step hp hs

theorem mappingFn_ptrs {h : Heap} (ho : h.mappingFn idx = some o) : h.ptrs idx = some o := by
  rw [Heap.mappingFn] at ho
  split at ho
  · exact ho
  · cases ho

theorem carmDerefLoop_mem {l : Loops} (hcarm : (l.loopstate i).carmPtr = true)
    (hp : l.heap.ptrs (l.loopstate i).objIndex = some o) (hpres : (l.heap.objs o).Present) :
    (l.carmDerefLoop m w i).1.heap.mem = l.heap.mem := by
  obtain ⟨ms, hinv⟩ := Heap.invalidateMarkedRegion_eq (h := l.heap)
    (r := (l.loopstate i).regionAddr)
  have hlocal : (fetched m w l i).1.mem = l.heap.mem := by
    rw [fetched, hinv]
    exact Heap.carmDerefObj_local (h := { l.heap with marks := ms : Heap }.carmDeref) hp hpres
  rw [carmDerefLoop_remote hcarm]
  exact hlocal

/-- From the last two objects a slot has asked for, which end what its prefetcher has
been told, the prefetcher infers the object asked for next; once it has been
prefetched, the next call fetches nothing. The table of the last objects told
starts with 0, so 0 goes untold as the first. -/
theorem prefetcher_predicts (hr : TraceReach m s) (hi : i < maxLoops)
    (hcarm : (s.loops.loopstate i).carmPtr = true) (hstride : (s.loops.loopstate i).stride ≠ 0)
    (hasked : s.asked i = as ++ [a, b]) :
    s.asked i <:+ 0 :: s.told (i + 1) ∧ (0 :: s.told (i + 1)).IsChain (· ≠ ·) ∧
      inferFn b (induceFn a b) = (s.loops.loopstate i).objIndex ∧
      ∀ w o, Coherent m s.loops.heap →
        s.loops.heap.mappingFn (inferFn b (induceFn a b)) = some o →
        let heap := s.loops.heap.prefetch m (inferFn b (induceFn a b))
        (({ s.loops with heap } : Loops).carmDerefLoop m w i).1.heap.mem = heap.mem := by
  have h := hr.inTrace
  have hinfer : inferFn b (induceFn a b) = (s.loops.loopstate i).objIndex :=
    (hasked ▸ h.asks i hi hcarm).predicts
  refine ⟨h.told i hi hcarm hstride, h.chain _, hinfer, fun w o hc ho => ?_⟩
  refine carmDerefLoop_mem hcarm (o := o) ?_ (Heap.prefetch_present hc ho)
  exact (congrFun Heap.prefetch_ptrs _).trans (mappingFn_ptrs (hinfer ▸ ho))

theorem prefetcher_predicts_two : ∃ s, TraceReach cacheManager s ∧ [1, 2] <:+ 0 :: s.told 1 ∧
    inferFn 2 (induceFn 1 2) = (s.loops.loopstate 0).objIndex := by
  have hr : TraceReach cacheManager _ :=
    .next (.deref false 0) (.next (.deref false 0) (.next (.init (startAddr + objSize) 8)
      (@TraceReach.init _ (initObjects (fun _ => none) (fun _ => 0) (fun _ => 0) kWorkingSetSize)
        (fun _ => .cleared) rfl) ⟨by decide, by decide⟩ rfl) trivial rfl) trivial rfl
  obtain ⟨htold, -, hinfer, -⟩ := prefetcher_predicts hr (i := 0) (by decide) rfl
    (show Loops.strideOf 8 ≠ 0 by decide) (show [1, 2] = [] ++ [1, 2] from rfl)
  exact ⟨_, hr, htold, hinfer⟩

end TrackFM
