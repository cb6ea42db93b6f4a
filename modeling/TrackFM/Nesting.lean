import TrackFM.Loops
import TrackFM.Cache

/-!
# Nested loops

Transformed loops as they nest at run time, through loops inside loops, calls
and recursion: a loop on entry opens a slot for each of its pointers, its body
dereferences them and runs other loops, an exit block invalidates them in any
order. `Table` says what the slots, the counter and the marks then have in
common with the pointers in use, innermost first.
-/

namespace TrackFM

open Loops (carmDerefLoop carmLoopInit invalidateLoopIndex opened closed fetched initialBound
  set_self set_other)

structure Pointer where
  /-- What the emitted shift finds in the result of `carm_loop_init`. -/
  id : Nat
  /-- The slot as the pointer's own calls left it. -/
  left : CarmLoop
  /-- Where the object its last dereference returned is. -/
  held : Option Nat
  released : Bool

inductive Phase where
  /-- Calling `carm_loop_init` for its pointers. -/
  | entering
  | running
  /-- Calling `invalidate_loop_index` for its pointers. -/
  | exiting
  deriving DecidableEq, Repr

structure Frame where
  phase : Phase
  /-- Latest first. -/
  pointers : List Pointer

structure Nest where
  loops : Loops
  /-- Innermost first. -/
  frames : List Frame

inductive LoopOp where
  | enter
  | init (srcAddr stepValueConst : Nat)
  | start
  | deref (mutable : Bool) (loopId : Nat)
  | exit
  | invalidate (loopId : Nat)
  | leave
  /-- Anything else the program or the evacuator does to the heap. -/
  | other (heap : Heap)

def Frame.modify (f : Frame) (loopId : Nat) (g : Pointer → Pointer) : Frame :=
  { f with pointers := f.pointers.map fun p => if p.id = loopId then g p else p }

namespace Nest

def top (s : Nest) (loops : Loops) (g : Frame → Frame) : Nest := ⟨loops, s.frames.modifyHead g⟩

def pointers (s : Nest) : List Pointer := s.frames.flatMap Frame.pointers

end Nest

def Pointer.derefd (before after : Loops) (p : Pointer) : Pointer :=
  { p with
    left := after.loopstate p.id
    held := if (before.loopstate p.id).carmPtr then
      some (after.heap.localAddr (before.loopstate p.id).objIndex) else none }

def Nest.step (m : Manager) (s : Nest) : LoopOp → Outcome Nest
  | .enter => .ok { s with frames := ⟨.entering, []⟩ :: s.frames }
  | .init srcAddr stepValueConst => do
    let (loops, retval) ← s.loops.carmLoopInit srcAddr stepValueConst
    let loopId := retval >>> loopIdPos
    return s.top loops fun f =>
      { f with pointers := ⟨loopId, loops.loopstate loopId, none, false⟩ :: f.pointers }
  | .start => .ok (s.top s.loops fun f => { f with phase := .running })
  | .deref w loopId =>
    let (loops, _) := s.loops.carmDerefLoop m w loopId
    .ok (s.top loops fun f => f.modify loopId (·.derefd s.loops loops))
  | .exit => .ok (s.top s.loops fun f => { f with phase := .exiting })
  | .invalidate loopId =>
    .ok (s.top (s.loops.invalidateLoopIndex loopId) fun f =>
      f.modify loopId fun p => { p with released := true })
  | .leave => .ok { s with frames := s.frames.tail }
  | .other heap => .ok { s with loops := { s.loops with heap } }

/-- The calls of properly nested loops, in order: a loop is entered from a
running one, opens its pointers first, uses its own ids, and is left when every
one of them has been invalidated. -/
def Nest.Nested (s : Nest) : LoopOp → Prop
  | .enter => ∀ f ∈ s.frames.head?, f.phase = .running
  | .init .. | .start => ∃ f ∈ s.frames.head?, f.phase = .entering
  | .deref _ loopId =>
    ∃ f ∈ s.frames.head?, f.phase ≠ .exiting ∧ loopId ∈ f.pointers.map Pointer.id
  | .exit => ∃ f ∈ s.frames.head?, f.phase = .running
  | .invalidate loopId =>
    ∃ f ∈ s.frames.head?, f.phase = .exiting ∧ loopId ∈ f.pointers.map Pointer.id
  | .leave => ∃ f ∈ s.frames.head?, f.phase = .exiting ∧ ∀ p ∈ f.pointers, p.released = true
  | .other heap => heap.marks = s.loops.heap.marks

def active (ps : List Pointer) : List Pointer := ps.filter fun p => !p.released

/-- Fewer than `MAX_LOOPS` pointers are in use when one more is opened. -/
def Nest.Fits (s : Nest) : LoopOp → Prop
  | .init .. => (active s.pointers).length < maxLoops
  | _ => True

inductive NestReach (m : Manager) (ok : Nest → LoopOp → Prop) : Nest → Prop
  | init {heap : Heap} (behind) : heap.marks = [] → NestReach m ok ⟨initLoops heap behind, []⟩
  | next {s s' : Nest} (op : LoopOp) :
    NestReach m ok s → ok s op → s.step m op = .ok s' → NestReach m ok s'

-- ---------------------------------------------------------------------------
-- Ids by position
-- ---------------------------------------------------------------------------

/-- Latest first, the ids count down to zero. -/
def Numbered : List Nat → Prop
  | [] => True
  | i :: ids => i = ids.length ∧ Numbered ids

theorem Numbered.lt {ids : List Nat} (h : Numbered ids) : ∀ i ∈ ids, i < ids.length := by
  induction ids with
  | nil => simp
  | cons j ids ih =>
    obtain ⟨rfl, h⟩ := h
    simp only [List.mem_cons, List.length_cons]
    rintro i (rfl | hi)
    · exact Nat.lt_succ_self _
    · exact (ih h i hi).trans (Nat.lt_succ_self _)

theorem Numbered.nodup {ids : List Nat} (h : Numbered ids) : ids.Nodup := by
  induction ids with
  | nil => exact List.nodup_nil
  | cons j ids ih =>
    obtain ⟨rfl, h⟩ := h
    exact List.nodup_cons.mpr ⟨fun hm => Nat.lt_irrefl _ (h.lt _ hm), ih h⟩

theorem Numbered.of_append {a b : List Nat} (h : Numbered (a ++ b)) : Numbered b := by
  induction a with
  | nil => exact h
  | cons i a ih => exact ih h.2

-- ---------------------------------------------------------------------------
-- The table and the pointers in use
-- ---------------------------------------------------------------------------

@[simp] theorem active_append : active (a ++ b) = active a ++ active b := List.filter_append ..

theorem active_cons_of {p : Pointer} (h : p.released = false) : active (p :: ps) = p :: active ps := by
  simp [active, h]

theorem active_cons_released {p : Pointer} (h : p.released = true) : active (p :: ps) = active ps := by
  simp [active, h]

theorem active_all {ps : List Pointer} (h : ∀ p ∈ ps, p.released = false) : active ps = ps :=
  List.filter_eq_self.mpr fun p hp => by simp [h p hp]

theorem active_none {ps : List Pointer} (h : ∀ p ∈ ps, p.released = true) : active ps = [] :=
  List.filter_eq_nil_iff.mpr fun p hp => by simp [h p hp]

theorem mem_active {ps : List Pointer} : p ∈ active ps ↔ p ∈ ps ∧ p.released = false := by
  simp [active]

def Pointer.region (m : Manager) (p : Pointer) : Option Nat := p.held.map m.regionOf

def regions (m : Manager) (ps : List Pointer) : List Nat := (active ps).filterMap (·.region m)

/-- The slot of a pointer in use is as its own calls left it, and records its mark. -/
structure Owned (m : Manager) (l : Loops) (p : Pointer) : Prop where
  left : l.loopstate p.id = p.left
  live : p.left.active = true
  regionAddr : p.left.regionAddr = (p.region m).getD 0
  held : p.left.carmPtr = false → p.held = none

structure Table (m : Manager) (l : Loops) (ps : List Pointer) : Prop where
  numbered : Numbered (ps.map Pointer.id)
  few : ps.length ≤ maxLoops
  count : l.loopIdCnt = (active ps).length
  own : ∀ p ∈ active ps, Owned m l p
  idle : ∀ i < maxLoops, (∀ p ∈ active ps, p.id ≠ i) → (l.loopstate i).active = false
  marks : l.heap.marks.Perm (regions m ps)
  slots : ∀ i ∈ l.slots, i < maxLoops
  prefetchers : ∀ i ∈ l.prefetchers, i ≤ maxLoops

variable {m : Manager} {l l' : Loops} {p : Pointer} {a b ps : List Pointer}

theorem Table.init {heap : Heap} (hm : heap.marks = []) : Table m (initLoops heap behind) [] where
  numbered := trivial
  few := Nat.zero_le _
  count := rfl
  own := nofun
  idle i hi _ := by simp [initLoops, hi, CarmLoop.cleared]
  marks := by simp [initLoops, hm, regions, active]
  slots := nofun
  prefetchers := nofun

theorem Table.id_lt (ht : Table m l ps) (hp : p ∈ ps) : p.id < ps.length := by
  simpa using ht.numbered.lt p.id (List.mem_map_of_mem hp)

theorem Table.id_max (ht : Table m l ps) (hp : p ∈ ps) : p.id < maxLoops :=
  (ht.id_lt hp).trans_le ht.few

theorem Table.apart (ht : Table m l (a ++ p :: b)) : ∀ q ∈ a ++ b, q.id ≠ p.id := by
  have hnd := ht.numbered.nodup
  rw [List.map_append, List.map_cons, List.nodup_middle, List.nodup_cons, ← List.map_append] at hnd
  exact fun q hq he => hnd.1 (he ▸ List.mem_map_of_mem hq)

theorem mem_active_middle (hp : p.released = false) :
    q ∈ active (a ++ p :: b) ↔ q = p ∨ q ∈ active (a ++ b) := by
  simp only [active_append, active_cons_of hp, List.mem_append, List.mem_cons]
  exact or_left_comm

theorem mem_active_released (hp : p.released = true) :
    q ∈ active (a ++ p :: b) ↔ q ∈ active (a ++ b) := by
  simp only [active_append, active_cons_released hp]

theorem Table.own_middle (ht : Table m l (a ++ p :: b)) (hp : p.released = false) : Owned m l p :=
  ht.own p ((mem_active_middle hp).mpr (.inl rfl))

theorem regions_middle (hp : p.released = false) :
    (regions m (a ++ p :: b)).Perm ((p.region m).toList ++ regions m (a ++ b)) := by
  simp only [regions, active_append, active_cons_of hp, List.filterMap_append, List.filterMap_cons]
  cases p.region m with
  | none => simp
  | some r => exact List.perm_middle

theorem regions_released (hp : p.released = true) : regions m (a ++ p :: b) = regions m (a ++ b) := by
  simp only [regions, active_append, active_cons_released hp]

theorem Table.marks_ne_zero (ht : Table m l ps) : 0 ∉ l.heap.marks := by
  rw [ht.marks.mem_iff]
  intro h
  obtain ⟨q, -, hq⟩ := List.mem_filterMap.mp h
  obtain ⟨x, -, hx⟩ := Option.map_eq_some_iff.mp hq
  exact m.regionOf_ne_zero x hx

theorem Table.unmark (ht : Table m l (a ++ p :: b)) (hp : p.released = false) :
    (l.heap.invalidateMarkedRegion (l.loopstate p.id).regionAddr).marks.Perm
      (regions m (a ++ b)) := by
  have hown := ht.own_middle hp
  have hmarks := ht.marks.trans (regions_middle hp)
  rw [hown.left, Heap.invalidateMarkedRegion_marks fun h0 => h0 ▸ ht.marks_ne_zero, hown.regionAddr]
  cases hr : p.region m with
  | none =>
    rw [hr] at hmarks
    exact (List.erase_of_not_mem ht.marks_ne_zero).symm ▸ hmarks
  | some r =>
    rw [hr] at hmarks
    simpa using hmarks.erase r

-- ---------------------------------------------------------------------------
-- What the calls do to the table
-- ---------------------------------------------------------------------------

theorem Table.opens (ht : Table m l ps) (hall : ∀ p ∈ ps, p.released = false)
    (hlen : ps.length < maxLoops) : ∃ loops retval,
      l.carmLoopInit srcAddr d = .ok (loops, retval) ∧ retval >>> loopIdPos = l.loopIdCnt ∧
      retval &&& loopObjMask = initialBound srcAddr ∧
      Table m loops (⟨l.loopIdCnt, loops.loopstate l.loopIdCnt, none, false⟩ :: ps) := by
  have hcnt : l.loopIdCnt = ps.length := by rw [ht.count, active_all hall]
  have hmax : maxLoops = 1024 := rfl
  have hfresh : ∀ q ∈ ps, q.id ≠ l.loopIdCnt := fun q hq => hcnt ▸ Nat.ne_of_lt (ht.id_lt hq)
  have hidle := ht.idle l.loopIdCnt (by omega) fun q hq => hfresh q (mem_active.mp hq).1
  obtain ⟨prefetchers, hinit, hpre⟩ := Loops.carmLoopInit_ok (a := srcAddr) (d := d) hidle
  refine ⟨_, _, hinit, Loops.packed_id Loops.initialBound_lt (by omega),
    Loops.packed_bound Loops.initialBound_lt, ?_⟩
  have hact : active (⟨l.loopIdCnt, (l.set l.loopIdCnt
      (opened (l.loopstate l.loopIdCnt) srcAddr d)).loopstate l.loopIdCnt, none, false⟩ :: ps) =
      ⟨l.loopIdCnt, opened (l.loopstate l.loopIdCnt) srcAddr d, none, false⟩ :: active ps := by
    rw [active_cons_of rfl, set_self]
  exact {
    numbered := ⟨by simpa using hcnt, ht.numbered⟩
    few := hlen
    count := by
      show u64 (l.loopIdCnt + 1) = _
      rw [hact, List.length_cons, ← ht.count]
      exact Nat.mod_eq_of_lt (by omega)
    own := by
      intro q hq
      rw [hact, List.mem_cons] at hq
      rcases hq with rfl | hq
      · exact ⟨set_self, Loops.opened_active, Loops.opened_regionAddr, fun _ => rfl⟩
      · have hown := ht.own q hq
        exact { hown with left := (set_other (hfresh q (mem_active.mp hq).1)).trans hown.left }
    idle := by
      intro i hi hq
      rw [hact] at hq
      have hne : i ≠ l.loopIdCnt := fun he => hq _ (List.mem_cons_self ..) he.symm
      exact (congrArg CarmLoop.active (set_other hne)).trans
        (ht.idle i hi fun q hm => hq q (List.mem_cons_of_mem _ hm))
    marks := by
      rw [regions, hact, List.filterMap_cons]
      exact ht.marks
    slots := by
      intro i hi
      rcases List.mem_cons.mp hi with rfl | hi
      · omega
      · exact ht.slots i hi
    prefetchers := by
      intro i hi
      rcases hpre i hi with rfl | hi
      · omega
      · exact ht.prefetchers i hi }

theorem Owned.unmarked (ho : Owned m l p) (h : (l.loopstate p.id).carmPtr = false) :
    (l.loopstate p.id).regionAddr = 0 := by
  rw [ho.left] at h
  rw [ho.left, ho.regionAddr, Pointer.region, ho.held h]
  rfl

theorem Pointer.derefd_region (hf : Loops.Fetches m l l' p.id) : (p.derefd l l').region m =
    if (l.loopstate p.id).carmPtr then some (l'.loopstate p.id).regionAddr else none := by
  unfold derefd region
  cases h : (l.loopstate p.id).carmPtr with
  | true => simp [(hf.remote h).1]
  | false => simp

theorem Table.deref (ht : Table m l (a ++ p :: b)) (hp : p.released = false)
    (hf : Loops.Fetches m l l' p.id) : Table m l' (a ++ p.derefd l l' :: b) := by
  have hown := ht.own_middle hp
  have hid : p.id < maxLoops := ht.id_max (List.mem_append_right _ (List.mem_cons_self ..))
  have hp' : (p.derefd l l').released = false := hp
  have hregion := Pointer.derefd_region (p := p) hf
  exact {
    numbered := by simpa [Pointer.derefd] using ht.numbered
    few := by simpa using ht.few
    count := by
      rw [hf.loopIdCnt, ht.count]
      simp [active_cons_of hp, active_cons_of hp']
    own := by
      intro q hq
      rcases (mem_active_middle hp').mp hq with rfl | hq
      · refine ⟨rfl, ?_, ?_, ?_⟩
        · exact hf.active.trans ((congrArg _ hown.left).trans hown.live)
        · rw [hregion]
          cases h : (l.loopstate p.id).carmPtr with
          | true => rfl
          | false => exact (hf.app h).1.trans (hown.unmarked h)
        · intro hcarm
          have h : (l.loopstate p.id).carmPtr = false := hf.carmPtr.symm.trans hcarm
          simp [Pointer.derefd, h]
      · have hq' := ht.own q ((mem_active_middle hp).mpr (.inr hq))
        exact { hq' with left := (hf.other _ (ht.apart q (mem_active.mp hq).1)).trans hq'.left }
    idle := by
      intro i hi hq
      have hne : i ≠ p.id := fun he => hq _ ((mem_active_middle hp').mpr (.inl rfl)) he.symm
      rw [hf.other i hne]
      refine ht.idle i hi fun q hm => ?_
      rcases (mem_active_middle hp).mp hm with rfl | hm
      · exact hne.symm
      · exact hq q ((mem_active_middle hp').mpr (.inr hm))
    marks := by
      refine List.Perm.trans ?_ (regions_middle hp').symm
      rw [hregion]
      have hun := ht.unmark hp
      cases h : (l.loopstate p.id).carmPtr with
      | true =>
        rw [(hf.remote h).2, ← (hf.remote h).1]
        exact hun.cons _
      | false =>
        rw [hown.unmarked h] at hun
        rw [(hf.app h).2]
        exact hun
    slots := by
      rw [hf.slots]
      intro i hi
      rcases List.mem_cons.mp hi with rfl | hi
      · exact hid
      · exact ht.slots i hi
    prefetchers := by
      intro i hi
      rcases hf.prefetchers i hi with rfl | hi
      · exact hid
      · exact ht.prefetchers i hi }

theorem Table.release (ht : Table m l (a ++ p :: b)) (hp : p.released = false) :
    Table m (invalidateLoopIndex l p.id) (a ++ { p with released := true } :: b) := by
  have hown := ht.own_middle hp
  have hid : p.id < maxLoops := ht.id_max (List.mem_append_right _ (List.mem_cons_self ..))
  have hlive : (l.loopstate p.id).active = true := hown.left ▸ hown.live
  have hcnt : l.loopIdCnt = (active (a ++ b)).length + 1 := by
    rw [ht.count]
    simp only [active_append, active_cons_of hp, List.length_append, List.length_cons]
    omega
  unfold invalidateLoopIndex
  simp only [hlive, if_true]
  exact {
    numbered := by simpa using ht.numbered
    few := by simpa using ht.few
    count := by
      show (if l.loopIdCnt > 0 then l.loopIdCnt - 1 else l.loopIdCnt) = _
      rw [if_pos (by omega), hcnt, Nat.add_sub_cancel]
      simp only [active_append, active_cons_released]
    own := by
      intro q hq
      rw [mem_active_released rfl] at hq
      have hq' := ht.own q ((mem_active_middle hp).mpr (.inr hq))
      exact { hq' with left := (set_other (ht.apart q (mem_active.mp hq).1)).trans hq'.left }
    idle := by
      intro i hi hq
      by_cases hne : i = p.id
      · exact hne ▸ congrArg CarmLoop.active set_self
      · refine (congrArg CarmLoop.active (set_other hne)).trans (ht.idle i hi fun q hm => ?_)
        rcases (mem_active_middle hp).mp hm with rfl | hm
        · exact Ne.symm hne
        · exact hq q ((mem_active_released rfl).mpr hm)
    marks := by
      rw [regions_released rfl]
      have hun := ht.unmark hp
      cases h : (l.loopstate p.id).carmPtr with
      | true => exact hun
      | false =>
        rw [hown.unmarked h] at hun
        exact hun
    slots := by
      intro i hi
      rcases List.mem_cons.mp hi with rfl | hi
      · exact hid
      · exact ht.slots i hi
    prefetchers := ht.prefetchers }

theorem Table.again (ht : Table m l (a ++ p :: b)) (hp : p.released = true) :
    Table m (invalidateLoopIndex l p.id) (a ++ { p with released := true } :: b) := by
  have hid : p.id < maxLoops := ht.id_max (List.mem_append_right _ (List.mem_cons_self ..))
  have hidle : (l.loopstate p.id).active = false := by
    refine ht.idle _ hid fun q hq => ?_
    exact ht.apart q (mem_active.mp ((mem_active_released hp).mp hq)).1
  have hsame : { p with released := true } = p := by
    cases p
    cases hp
    rfl
  rw [hsame]
  unfold invalidateLoopIndex
  simp only [hidle, Bool.false_eq_true, if_false]
  exact { ht with
    own := fun q hq => { ht.own q hq with left := (ht.own q hq).left }
    slots := fun i hi => by
      rcases List.mem_cons.mp hi with rfl | hi
      · exact hid
      · exact ht.slots i hi }

theorem Table.leave (ht : Table m l (a ++ b)) (ha : ∀ p ∈ a, p.released = true) : Table m l b := by
  have hact : active (a ++ b) = active b := by rw [active_append, active_none ha, List.nil_append]
  exact {
    numbered := .of_append (List.map_append ▸ ht.numbered)
    few := le_trans (by simp) ht.few
    count := hact ▸ ht.count
    own := hact ▸ ht.own
    idle := hact ▸ ht.idle
    marks := by
      have := ht.marks
      rwa [regions, hact] at this
    slots := ht.slots
    prefetchers := ht.prefetchers }

theorem Table.other {heap : Heap} (ht : Table m l ps) (hm : heap.marks = l.heap.marks) :
    Table m { l with heap } ps :=
  { ht with
    own := fun q hq => { ht.own q hq with left := (ht.own q hq).left }
    marks := hm ▸ ht.marks }

-- ---------------------------------------------------------------------------
-- Runs
-- ---------------------------------------------------------------------------

/-- Batches are at the top only, and releases in a loop that is being left. -/
structure Stacked (s : Nest) : Prop where
  below : ∀ f ∈ s.frames.tail, f.phase = .running
  kept : ∀ f ∈ s.frames, f.phase ≠ .exiting → ∀ p ∈ f.pointers, p.released = false

structure Ordered (m : Manager) (s : Nest) : Prop where
  stacked : Stacked s
  table : Table m s.loops s.pointers

theorem Stacked.released (hs : Stacked s) (h : ∀ f ∈ s.frames.head?, f.phase ≠ .exiting) :
    ∀ p ∈ s.pointers, p.released = false := by
  intro p hp
  obtain ⟨f, hf, hpf⟩ := List.mem_flatMap.mp hp
  refine hs.kept f hf ?_ p hpf
  obtain ⟨l, frames⟩ := s
  cases frames with
  | nil => cases hf
  | cons t r =>
    rcases List.mem_cons.mp hf with rfl | hf
    · exact h _ rfl
    · rw [hs.below f hf]
      nofun

theorem Stacked.top {f : Frame} (hs : Stacked ⟨l, f :: r⟩)
    (hg : (g f).phase ≠ .exiting → ∀ p ∈ (g f).pointers, p.released = false) :
    Stacked (Nest.top ⟨l, f :: r⟩ l' g) where
  below := hs.below
  kept f' hf' := by
    rcases List.mem_cons.mp hf' with rfl | hf'
    · exact hg
    · exact hs.kept f' (List.mem_cons_of_mem _ hf')

theorem Frame.modify_split {f : Frame} (hnd : (f.pointers.map Pointer.id).Nodup)
    (hid : i ∈ f.pointers.map Pointer.id) : ∃ a p b, f.pointers = a ++ p :: b ∧ p.id = i ∧
      ∀ g, (f.modify i g).pointers = a ++ g p :: b := by
  obtain ⟨p, hp, rfl⟩ := List.mem_map.mp hid
  obtain ⟨a, b, hab⟩ := List.append_of_mem hp
  refine ⟨a, p, b, hab, rfl, fun g => ?_⟩
  rw [hab, List.map_append, List.map_cons, List.nodup_middle, List.nodup_cons,
    ← List.map_append] at hnd
  have hsame : ∀ l : List Pointer, (∀ q ∈ l, q ∈ a ++ b) →
      l.map (fun q => if q.id = p.id then g q else q) = l := by
    intro l hl
    refine (List.map_congr_left fun q hq => if_neg fun he => ?_).trans (List.map_id l)
    exact hnd.1 (he ▸ List.mem_map_of_mem (hl q hq))
  simp only [modify, hab, List.map_append, List.map_cons, if_true]
  rw [hsame a fun q => List.mem_append_left b, hsame b fun q => List.mem_append_right a]

theorem Ordered.modify {f : Frame} {r : List Frame} {g : Pointer → Pointer}
    (hs : Ordered m ⟨l, f :: r⟩) (hid : i ∈ f.pointers.map Pointer.id)
    (htable : ∀ a p b, p.id = i → p ∈ f.pointers → Table m l (a ++ p :: b) →
      Table m l' (a ++ g p :: b))
    (hg : f.phase ≠ .exiting → ∀ p, p.released = false → (g p).released = false) :
    Ordered m (Nest.top ⟨l, f :: r⟩ l' (Frame.modify · i g)) := by
  have ht : Table m l (f.pointers ++ r.flatMap Frame.pointers) := hs.table
  have hnd : (f.pointers.map Pointer.id).Nodup := by
    have := ht.numbered.nodup
    rw [List.map_append] at this
    exact this.of_append_left
  obtain ⟨a, p, b, hab, rfl, hmod⟩ := Frame.modify_split hnd hid
  refine ⟨hs.stacked.top fun hphase q hq => ?_, ?_⟩
  · rw [hmod, List.mem_append, List.mem_cons, or_left_comm, ← List.mem_append] at hq
    have hkept : ∀ q ∈ f.pointers, q.released = false :=
      hs.stacked.kept f (List.mem_cons_self ..) hphase
    rw [hab] at hkept
    rcases hq with rfl | hq
    · exact hg hphase p (hkept p (List.mem_append_right _ (List.mem_cons_self ..)))
    · refine hkept q ?_
      rw [List.mem_append, List.mem_cons, or_left_comm, ← List.mem_append]
      exact .inr hq
  · show Table m l' ((f.modify p.id g).pointers ++ r.flatMap Frame.pointers)
    rw [hab, List.append_assoc, List.cons_append] at ht
    rw [hmod, List.append_assoc, List.cons_append]
    exact htable a p _ rfl (hab ▸ List.mem_append_right _ (List.mem_cons_self ..)) ht

theorem Ordered.step {op : LoopOp} (hs : Ordered m s) (hn : s.Nested op) (hfit : s.Fits op) :
    ∃ s', s.step m op = .ok s' ∧ Ordered m s' := by
  obtain ⟨l, frames⟩ := s
  have hst := hs.stacked
  cases op with
  | enter =>
    refine ⟨_, rfl, ⟨?_, ?_⟩, hs.table⟩
    · intro f hf
      cases frames with
      | nil => cases hf
      | cons t r =>
        rcases List.mem_cons.mp hf with rfl | hf
        · exact hn _ rfl
        · exact hst.below f hf
    · intro f hf
      rcases List.mem_cons.mp hf with rfl | hf
      · exact fun _ => nofun
      · exact hst.kept f hf
  | init srcAddr d =>
    obtain ⟨f, hf, hphase⟩ := hn
    obtain ⟨r, rfl⟩ := List.head?_eq_some_iff.mp hf
    have hall := hst.released fun g hg => by
      cases hg
      rw [hphase]
      nofun
    have hlen : (Nest.pointers ⟨l, f :: r⟩).length < maxLoops := active_all hall ▸ hfit
    obtain ⟨l', retval, hinit, hpack, -, ht⟩ := hs.table.opens hall hlen
    refine ⟨_, by rw [Nest.step, hinit]; rfl, hst.top ?_, ?_⟩
    · intro _ p hp
      rcases List.mem_cons.mp hp with rfl | hp
      · rfl
      · exact hall p (List.mem_flatMap.mpr ⟨f, List.mem_cons_self .., hp⟩)
    · rw [hpack]
      exact ht
  | start =>
    obtain ⟨f, hf, hphase⟩ := hn
    obtain ⟨r, rfl⟩ := List.head?_eq_some_iff.mp hf
    refine ⟨_, rfl, hst.top fun _ => ?_, hs.table⟩
    exact hst.kept f (List.mem_cons_self ..) (by rw [hphase]; nofun)
  | deref w i =>
    obtain ⟨f, hf, hphase, hid⟩ := hn
    obtain ⟨r, rfl⟩ := List.head?_eq_some_iff.mp hf
    refine ⟨_, rfl, hs.modify hid ?_ fun _ p hp => hp⟩
    rintro a p b rfl hp ht
    exact ht.deref (hst.kept f (List.mem_cons_self ..) hphase p hp) Loops.carmDerefLoop_fetches
  | exit =>
    obtain ⟨f, hf, hphase⟩ := hn
    obtain ⟨r, rfl⟩ := List.head?_eq_some_iff.mp hf
    exact ⟨_, rfl, hst.top fun h => absurd rfl h, hs.table⟩
  | invalidate i =>
    obtain ⟨f, hf, hphase, hid⟩ := hn
    obtain ⟨r, rfl⟩ := List.head?_eq_some_iff.mp hf
    refine ⟨_, rfl, hs.modify hid ?_ fun h => absurd hphase h⟩
    rintro a p b rfl hp ht
    cases hrel : p.released with
    | false => exact ht.release hrel
    | true => exact ht.again hrel
  | leave =>
    obtain ⟨f, hf, hphase, hrel⟩ := hn
    obtain ⟨r, rfl⟩ := List.head?_eq_some_iff.mp hf
    refine ⟨_, rfl, ⟨fun f hf => hst.below f (List.mem_of_mem_tail hf), fun f hf =>
      hst.kept f (List.mem_cons_of_mem _ hf)⟩, ?_⟩
    exact Table.leave (a := f.pointers) hs.table hrel
  | other heap => exact ⟨_, rfl, ⟨hst.below, hst.kept⟩, hs.table.other hn⟩

/-- What a run keeps, at most `MAX_LOOPS` pointers in use at once. -/
theorem NestReach.ordered (hr : NestReach m (fun s op => s.Nested op ∧ s.Fits op) s) : Ordered m s := by
  induction hr with
  | init behind hm => exact ⟨⟨nofun, nofun⟩, .init hm⟩
  | next op _ hok hstep ih =>
    obtain ⟨s', hs', ht⟩ := ih.step hok.1 hok.2
    rw [hs'] at hstep
    cases hstep
    exact ht

-- ---------------------------------------------------------------------------
-- The slots are a stack
-- ---------------------------------------------------------------------------

/-- `carm_loop_init` finds its slot free, the ids in use are distinct and as many
as the counter says, and a dereference sees the slot its own calls left. -/
structure SlotStack (s : Nest) : Prop where
  opens : ∀ srcAddr d, s.Nested (.init srcAddr d) → s.Fits (.init srcAddr d) →
    ∃ r, s.loops.carmLoopInit srcAddr d = .ok r
  distinct : ((active s.pointers).map Pointer.id).Nodup
  counted : s.loops.loopIdCnt = (active s.pointers).length
  flagged : ∀ i < maxLoops,
    (s.loops.loopstate i).active = true ↔ ∃ p ∈ active s.pointers, p.id = i
  own : ∀ p ∈ active s.pointers, s.loops.loopstate p.id = p.left
  derefs : ∀ w i, s.Nested (.deref w i) → ∃ p ∈ active s.pointers, p.id = i

theorem Ordered.slotStack (hs : Ordered m s) : SlotStack s where
  opens srcAddr d hn hfit := by
    obtain ⟨s', hstep, -⟩ := hs.step hn hfit
    obtain ⟨r, hr, -⟩ := bind_ok.mp hstep
    exact ⟨r, hr⟩
  distinct := hs.table.numbered.nodup.sublist (List.filter_sublist.map _)
  counted := hs.table.count
  flagged i hi := by
    constructor
    · intro h
      by_contra hno
      have hidle := hs.table.idle i hi fun p hp he => hno ⟨p, hp, he⟩
      cases h.symm.trans hidle
    · rintro ⟨p, hp, rfl⟩
      have hown := hs.table.own p hp
      exact hown.left ▸ hown.live
  own p hp := (hs.table.own p hp).left
  derefs w i hn := by
    obtain ⟨f, hf, hphase, hid⟩ := hn
    obtain ⟨p, hp, rfl⟩ := List.mem_map.mp hid
    have hmem : f ∈ s.frames := List.mem_of_mem_head? hf
    exact ⟨p, mem_active.mpr ⟨List.mem_flatMap.mpr ⟨f, hmem, hp⟩,
      hs.stacked.kept f hmem hphase p hp⟩, rfl⟩

theorem loop_slots_stack (hr : NestReach m (fun s op => s.Nested op ∧ s.Fits op) s) :
    SlotStack s := hr.ordered.slotStack

/-- A loop with a remote and a local pointer, in which a loop over remote objects is left
and entered again; in the end both are left. -/
theorem nested_run : ∃ s s', NestReach cacheManager (fun s op => s.Nested op ∧ s.Fits op) s ∧
    NestReach cacheManager (fun s op => s.Nested op ∧ s.Fits op) s' ∧
      (active s.pointers).map Pointer.id = [2, 1, 0] ∧ s.loops.slots = [2, 0, 2, 2, 2, 0, 1, 0] ∧
      s'.frames = [] ∧ s'.loops.prefetchers = [3, 1, 3, 1] := by
  have h₀ := @NestReach.init cacheManager (fun s op => s.Nested op ∧ s.Fits op)
    (initObjects (fun _ => none) (fun _ => 0) (fun _ => 0) kWorkingSetSize) (fun _ => .cleared) rfl
  have h₁ := (h₀.next .enter ⟨nofun, trivial⟩ rfl).next (.init startAddr 8)
    ⟨⟨_, rfl, rfl⟩, show 0 < maxLoops by decide⟩ rfl
  have h₂ := (h₁.next (.init 100 8) ⟨⟨_, rfl, rfl⟩, show 1 < maxLoops by decide⟩ rfl).next .start
    ⟨⟨_, rfl, rfl⟩, trivial⟩ rfl
  have h₃ := (h₂.next (.deref true 0) ⟨⟨_, rfl, nofun, by decide⟩, trivial⟩ rfl).next .enter
    ⟨fun _ h => by cases h; rfl, trivial⟩ rfl
  have h₄ := (h₃.next (.init (startAddr + 8192) 16)
    ⟨⟨_, rfl, rfl⟩, show 2 < maxLoops by decide⟩ rfl).next .start ⟨⟨_, rfl, rfl⟩, trivial⟩ rfl
  have h₅ := (h₄.next (.deref false 2) ⟨⟨_, rfl, nofun, by decide⟩, trivial⟩ rfl).next .exit
    ⟨⟨_, rfl, rfl⟩, trivial⟩ rfl
  have h₆ := (h₅.next (.invalidate 2) ⟨⟨_, rfl, rfl, by decide⟩, trivial⟩ rfl).next .leave
    ⟨⟨_, rfl, rfl, by decide⟩, trivial⟩ rfl
  have h₇ := (h₆.next (.deref true 0) ⟨⟨_, rfl, nofun, by decide⟩, trivial⟩ rfl).next .enter
    ⟨fun _ h => by cases h; rfl, trivial⟩ rfl
  have h₈ := (h₇.next (.init (startAddr + 4096) 16)
    ⟨⟨_, rfl, rfl⟩, show 2 < maxLoops by decide⟩ rfl).next .start ⟨⟨_, rfl, rfl⟩, trivial⟩ rfl
  have h₉ := (h₈.next (.deref true 2) ⟨⟨_, rfl, nofun, by decide⟩, trivial⟩ rfl).next .exit
    ⟨⟨_, rfl, rfl⟩, trivial⟩ rfl
  have h₁₀ := (h₉.next (.invalidate 2) ⟨⟨_, rfl, rfl, by decide⟩, trivial⟩ rfl).next .leave
    ⟨⟨_, rfl, rfl, by decide⟩, trivial⟩ rfl
  have h₁₁ := (h₁₀.next .exit ⟨⟨_, rfl, rfl⟩, trivial⟩ rfl).next (.invalidate 0)
    ⟨⟨_, rfl, rfl, by decide⟩, trivial⟩ rfl
  have h₁₂ := (h₁₁.next (.invalidate 1) ⟨⟨_, rfl, rfl, by decide⟩, trivial⟩ rfl).next .leave
    ⟨⟨_, rfl, rfl, by decide⟩, trivial⟩ rfl
  exact ⟨_, _, h₈, h₁₂, rfl, rfl, rfl, rfl⟩

theorem loop_slots_stack_nested : ∃ s,
    NestReach cacheManager (fun s op => s.Nested op ∧ s.Fits op) s ∧
      (active s.pointers).map Pointer.id = [2, 1, 0] ∧ SlotStack s := by
  obtain ⟨s, -, hr, -, hids, -⟩ := nested_run
  exact ⟨s, hr, hids, loop_slots_stack hr⟩

-- ---------------------------------------------------------------------------
-- The marks
-- ---------------------------------------------------------------------------

/-- The object a pointer last got stays pinned, and no mark outlives the loops. -/
structure PinsBalanced (m : Manager) (s : Nest) : Prop where
  pinned : ∀ p ∈ active s.pointers, ∀ a, p.held = some a → m.regionOf a ∈ s.loops.heap.marks
  ended : s.frames = [] → s.loops.heap.marks = []

theorem Ordered.pinsBalanced (hs : Ordered m s) : PinsBalanced m s where
  pinned p hp a ha := by
    rw [hs.table.marks.mem_iff]
    exact List.mem_filterMap.mpr ⟨p, hp, by rw [Pointer.region, ha]; rfl⟩
  ended h := by
    have hm := hs.table.marks
    rw [Nest.pointers, h] at hm
    exact hm.eq_nil

theorem loop_pins_balanced (hr : NestReach m (fun s op => s.Nested op ∧ s.Fits op) s) :
    PinsBalanced m s := hr.ordered.pinsBalanced

theorem loop_pins_balanced_nested : ∃ s,
    NestReach cacheManager (fun s op => s.Nested op ∧ s.Fits op) s ∧
      s.frames = [] ∧ s.loops.prefetchers = [3, 1, 3, 1] ∧ PinsBalanced cacheManager s := by
  obtain ⟨-, s, -, hr, -, -, hframes, hpre⟩ := nested_run
  exact ⟨s, hr, hframes, hpre, loop_pins_balanced hr⟩

-- ---------------------------------------------------------------------------
-- Bounds
-- ---------------------------------------------------------------------------

/-- The tables were accessed within their bounds, and the emitted code takes the
next result of `carm_loop_init` apart as it was put together. -/
structure InBounds (s : Nest) : Prop where
  slots : ∀ i ∈ s.loops.slots, i < maxLoops
  prefetchers : ∀ i ∈ s.loops.prefetchers, i ≤ maxLoops
  packed : ∀ srcAddr d loops retval, s.loops.carmLoopInit srcAddr d = .ok (loops, retval) →
    retval >>> loopIdPos = s.loops.loopIdCnt ∧ retval &&& loopObjMask = initialBound srcAddr

theorem Ordered.inBounds (hs : Ordered m s) : InBounds s where
  slots := hs.table.slots
  prefetchers := hs.table.prefetchers
  packed srcAddr d loops retval h := by
    have hcnt : s.loops.loopIdCnt ≤ maxLoops := by
      rw [hs.table.count]
      exact (List.length_filter_le ..).trans hs.table.few
    have hmax : maxLoops = 1024 := rfl
    unfold carmLoopInit at h
    simp only at h
    split at h
    · cases h
    · cases h
      exact ⟨Loops.packed_id Loops.initialBound_lt (by omega),
        Loops.packed_bound Loops.initialBound_lt⟩

/-- Loop ids stay in bounds while fewer than `MAX_LOOPS` pointers are in use at
every `carm_loop_init`. -/
theorem loop_ids_in_bounds (hr : NestReach m (fun s op => s.Nested op ∧ s.Fits op) s) :
    InBounds s := hr.ordered.inBounds

theorem loop_ids_in_bounds_nested : ∃ s,
    NestReach cacheManager (fun s op => s.Nested op ∧ s.Fits op) s ∧
      s.loops.slots = [2, 0, 2, 2, 2, 0, 1, 0] ∧ InBounds s := by
  obtain ⟨s, -, hr, -, -, hslots, -⟩ := nested_run
  exact ⟨s, hr, hslots, loop_ids_in_bounds hr⟩

/-- A recursion in a loop with one local pointer, `n` calls deep. -/
theorem nested_deep (hn : n < 2 ^ 14) : ∃ s, NestReach m (fun s op => s.Nested op) s ∧
    (∀ f ∈ s.frames.head?, f.phase = .running) ∧ s.loops.loopIdCnt = n ∧
    (∀ i, n ≤ i → (s.loops.loopstate i).active = false) ∧ ∀ i < n, i ∈ s.loops.slots := by
  induction n with
  | zero =>
    refine ⟨_, @NestReach.init m _ (initObjects (fun _ => none) (fun _ => 0) (fun _ => 0) 0)
      (fun _ => .cleared) rfl, nofun, rfl, fun i _ => ?_, nofun⟩
    simp [initLoops, CarmLoop.cleared]
  | succ n ih =>
    obtain ⟨s, hr, hrun, hcnt, hidle, hslots⟩ := ih (by omega)
    obtain ⟨prefetchers, hinit, -⟩ := Loops.carmLoopInit_ok (a := 0) (d := 8)
      (hidle s.loops.loopIdCnt (by omega))
    have hr' : NestReach m (fun s op => s.Nested op) _ :=
      .next .start (.next (.init 0 8) (.next .enter hr hrun rfl) ⟨_, rfl, rfl⟩
        (by rw [Nest.step, hinit]; rfl)) ⟨_, rfl, rfl⟩ rfl
    refine ⟨_, hr', ?_, ?_, ?_, ?_⟩
    · rintro f ⟨⟩
      rfl
    · show u64 (s.loops.loopIdCnt + 1) = n + 1
      rw [hcnt]
      exact Nat.mod_eq_of_lt (by omega)
    · intro i hi
      exact (congrArg CarmLoop.active (set_other (by omega))).trans (hidle i (by omega))
    · intro i hi
      by_cases hin : i = s.loops.loopIdCnt
      · exact hin ▸ List.mem_cons_self ..
      · exact List.mem_cons_of_mem _ (hslots i (by omega))

/-- Nothing stops the counter at the end of the table. -/
theorem loop_ids_run_out : ¬∀ m s, NestReach m (fun s op => s.Nested op) s → InBounds s := by
  intro h
  obtain ⟨s, hr, -, -, -, hslots⟩ := nested_deep (m := cacheManager) (n := maxLoops + 1) (by decide)
  exact Nat.lt_irrefl _ ((h cacheManager s hr).slots maxLoops (hslots _ (Nat.lt_succ_self _)))

end TrackFM
