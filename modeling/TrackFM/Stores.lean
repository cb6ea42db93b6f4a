import TrackFM.Coherence

/-!
# Stores and evacuations

What a store to local memory does to the flat address space: a store into a
dereferenced dirty copy writes the bytes of its slot, a store outside the
object cache writes those addresses, and nothing else changes. An evacuation
changes no byte at all.
-/

namespace TrackFM

open Lib (Mem blit blit_in blit_out)

namespace Heap

variable {m : Manager} {h h' : Heap}

/-- An address the program may use: in a current slot, or untagged and outside
the object cache. -/
inductive Usable (m : Manager) (h : Heap) : Nat → Prop
  | remote {x : Nat} : h.Current (x / objSize) → Usable m h (startAddr + x)
  | app {a : Nat} : a < startAddr → a < m.lo ∨ m.hi ≤ a → Usable m h a

/-- The flat address space after writing `f` to `[d, d + n)`. -/
structure Writes (m : Manager) (h h' : Heap) (d n : Nat) (f : Nat → UInt8) : Prop where
  alloc : SameAlloc h h'
  coherent : Coherent m h'
  current : ∀ i, h.Current i → h'.Current i
  view : ∀ a, Usable m h a → h'.view m a = blit (h.view m) d n f a

theorem Current.lt_start (hc : Coherent m h) (hi : h.Current (x / objSize)) : x < 2 ^ 60 := by
  have h₁ := hi.lt
  have h₂ := hc.slots
  simp only [objSize, totalObjects] at h₁ h₂
  omega

theorem Usable.mono (hcur : ∀ i, h.Current i → h'.Current i) (hu : Usable m h a) :
    Usable m h' a := by
  cases hu with
  | remote hi => exact .remote (hcur _ hi)
  | app h₁ h₂ => exact .app h₁ h₂

theorem Keeps.view (hc : Coherent m h) (hk : Keeps m h h') (hu : Usable m h a) :
    h'.view m a = h.view m a := by
  cases hu with
  | @remote x hi =>
    have hx := hi.lt_start hc
    rw [view_start hx, view_start hx]
    exact hk.byteAt _ _ hi (Nat.mod_lt _ (by decide))
  | app h₁ h₂ =>
    rw [view_untagged h₁, view_untagged h₁]
    exact hk.app a h₂

theorem Keeps.writes (hc : Coherent m h) (hk : Keeps m h h') : Writes m h h' d 0 f where
  alloc := hk.alloc
  coherent := hk.coherent
  current := hk.current
  view a hu := by rw [Lib.blit_zero]; exact hk.view hc hu

theorem Keeps.trans_writes (hc : Coherent m h) (hk : Keeps m h h') (hw : Writes m h' h'' d n f) :
    Writes m h h'' d n f where
  alloc := hk.alloc.trans hw.alloc
  coherent := hw.coherent
  current i hi := hw.current i (hk.current i hi)
  view a hu := by
    rw [hw.view a (hu.mono hk.current)]
    simp only [blit, hk.view hc hu]

-- ---------------------------------------------------------------------------
-- Stores to local memory
-- ---------------------------------------------------------------------------

def store (h : Heap) (a n : Nat) (f : Nat → UInt8) : Heap := { h with mem := blit h.mem a n f }

theorem store_same : SameAlloc h (h.store a n f) := ⟨rfl, rfl, rfl, rfl, rfl, rfl, rfl⟩

theorem store_current : (h.store a n f).Current i ↔ h.Current i :=
  ⟨fun hi => ⟨hi.lt, hi.names⟩, fun hi => ⟨hi.lt, hi.names⟩⟩

/-- A store that misses every clean copy keeps the state coherent. -/
theorem store_coherent (hc : Coherent m h)
    (hmiss : ∀ o < h.objCount, (h.objs o).Present → ¬(h.objs o).Dirty →
      ∀ j < objSize, (h.objs o).addr + j < a ∨ a + n ≤ (h.objs o).addr + j) :
    Coherent m (h.store a n f) :=
  { hc with
    synced := fun o ho hp hd j hj => by
      show blit h.mem a n f ((h.objs o).addr + j) = _
      rw [blit_out (hmiss o ho hp hd j hj)]
      exact hc.synced o ho hp hd j hj
    published := fun i hi => hc.published i (store_current.mp hi) }

theorem objByte_store (hmiss : (h.objs o).Present →
    (h.objs o).addr + j < a ∨ a + n ≤ (h.objs o).addr + j) :
    (h.store a n f).objByte o j = h.objByte o j := by
  by_cases hp : (h.objs o).Present
  · rw [objByte, objByte, if_pos hp]
    exact (if_pos hp).trans (blit_out (hmiss hp))
  · rw [objByte, objByte, if_neg hp]
    exact if_neg hp

theorem store_slot (hc : Coherent m h) (hi : h.Current (x / objSize))
    (hw : h.Writable (x / objSize) base) (hn : x % objSize + n ≤ objSize) :
    Writes m h (h.store (base + x % objSize) n f) (startAddr + x) n f := by
  obtain ⟨o, ho, hpres, rfl, hdirty⟩ := hw
  have hoc := hc.backed _ o hi.lt ho
  have hin := hc.placed.within o hoc hpres
  refine ⟨store_same, store_coherent hc ?_, fun i => store_current.mpr, ?_⟩
  · intro p hp hpp hclean j hj
    have hne : p ≠ o := by
      rintro rfl
      exact hclean hdirty
    have := hc.placed.apart p hp o hoc hne hpp hpres
    omega
  · intro a hu
    cases hu with
    | @remote y hk =>
      have hx := hi.lt_start hc
      have hy := hk.lt_start hc
      have hsize := objSize_eq
      have hxs := slot_add_off x
      have hys := slot_add_off y
      rw [view_start hy]
      by_cases hslot : y / objSize = x / objSize
      · -- the same slot: both offsets are in the one copy
        have hb : h.byteAt m (y / objSize) (y % objSize) = h.mem ((h.objs o).addr + y % objSize) :=
          Located.byteAt ⟨o, hslot ▸ ho, hpres, rfl⟩
        have hb' : (h.store ((h.objs o).addr + x % objSize) n f).byteAt m (y / objSize) (y % objSize) =
            blit h.mem ((h.objs o).addr + x % objSize) n f ((h.objs o).addr + y % objSize) :=
          Located.byteAt (h := h.store _ n f) ⟨o, hslot ▸ ho, hpres, rfl⟩
        rw [hb']
        by_cases hrange : x ≤ y ∧ y < x + n
        · rw [blit_in (by omega) (by omega), blit_in (by omega) (by omega)]
          congr 1
          omega
        · rw [blit_out (by omega), blit_out (by omega), view_start hy, hb]
      · rw [blit_out (by omega), view_start hy]
        refine byteAt_eq rfl fun p hp => objByte_store fun hpp => ?_
        have hne : p ≠ o := by
          rintro rfl
          exact hslot (hk.inj hi hp ho)
        have := hc.placed.apart p (hc.backed _ p hk.lt hp) o hoc hne hpp hpres
        omega
    | app h₁ h₂ =>
      rw [view_untagged h₁, blit_out (by omega), view_untagged h₁]
      exact blit_out (by omega)

theorem store_app (hc : Coherent m h) (hout : ∀ j < n, d + j < m.lo ∨ m.hi ≤ d + j)
    (hlt : d + n ≤ startAddr) : Writes m h (h.store d n f) d n f := by
  have hmiss : ∀ o < h.objCount, (h.objs o).Present → ∀ j < objSize,
      (h.objs o).addr + j < d ∨ d + n ≤ (h.objs o).addr + j := by
    intro o ho hpres j hj
    have hin := hc.placed.within o ho hpres
    by_contra hcon
    have := hout ((h.objs o).addr + j - d) (by omega)
    omega
  refine ⟨store_same, store_coherent hc fun o ho hp _ => hmiss o ho hp,
    fun i => store_current.mpr, ?_⟩
  intro a hu
  cases hu with
  | @remote y hk =>
    have hy := hk.lt_start hc
    rw [view_start hy, blit_out (by omega), view_start hy]
    exact byteAt_eq rfl fun p hp => objByte_store fun hpp =>
      hmiss p (hc.backed _ p hk.lt hp) hpp _ (Nat.mod_lt _ (by decide))
  | app h₁ h₂ =>
    rw [view_untagged h₁]
    show blit h.mem d n f a = _
    simp only [blit, view_untagged h₁]

-- ---------------------------------------------------------------------------
-- Evacuation
-- ---------------------------------------------------------------------------

section
variable {o : Nat}

/-- The state of the evacuator before it publishes the new word. -/
def dropped (m : Manager) (h : Heap) (o : Nat) : Heap :=
  { h with objs := Function.update h.objs o { h.objs o with
      metadata := m.awayWord h.objs o
      remote := if (h.objs o).Dirty then fun j => h.mem ((h.objs o).addr + j)
        else (h.objs o).remote } }

theorem evacuate_eq (hp : (h.objs o).Present) :
    h.evacuate m o = (dropped m h o).updateCacheObject o := by
  rw [evacuate]
  exact if_pos hp

theorem evacuate_away (hp : ¬(h.objs o).Present) : h.evacuate m o = h := by
  rw [evacuate]
  exact if_neg hp

theorem dropped_absent : ¬((dropped m h o).objs o).Present := by
  simpa [dropped] using m.awayWord_absent h.objs o

theorem dropped_objs (hp : p ≠ o) : (dropped m h o).objs p = h.objs p := by
  simp [dropped, hp]

theorem dropped_index : ((dropped m h o).objs p).carmObjIndex = (h.objs p).carmObjIndex := by
  by_cases hp : p = o
  · subst hp
    simp [dropped]
  · rw [dropped_objs hp]

theorem dropped_objByte (hc : Coherent m h) (ho : o < h.objCount) (hpres : (h.objs o).Present)
    (hj : j < objSize) : (dropped m h o).objByte p j = h.objByte p j := by
  by_cases hp : p = o
  · subst hp
    rw [objByte, if_neg dropped_absent, objByte, if_pos hpres]
    by_cases hd : (h.objs p).Dirty
    · simp only [dropped, Function.update_self, if_pos hd]
    · simp only [dropped, Function.update_self, if_neg hd]
      exact (hc.synced p ho hpres hd j hj).symm
  · simp only [objByte, dropped_objs hp]
    rfl

theorem dropped_current : (dropped m h o).Current k ↔ h.Current k := by
  constructor
  · intro hk
    refine ⟨hk.lt, fun p hp => ?_⟩
    rw [← dropped_index (m := m) (o := o)]
    exact hk.names p hp
  · intro hk
    refine ⟨hk.lt, fun p hp => ?_⟩
    rw [dropped_index]
    exact hk.names p hp

theorem evacuate_state (hc : Coherent m h) (ho : o < h.objCount) (hp : (h.objs o).Present) :
    h.evacuate m o = (dropped m h o).publish (h.objs o).carmObjIndex o := by
  rw [evacuate_eq hp, updateCacheObject, dropped_index]
  have h₁ := hc.home_lt o ho
  have h₂ := hc.slots
  rw [if_pos (by omega)]
  rfl

theorem dropped_publish_current :
    ((dropped m h o).publish i o).Current k ↔ h.Current k := by
  rw [← dropped_current (m := m) (h := h) (o := o)]
  exact ⟨fun hk => ⟨hk.lt, hk.names⟩, fun hk => ⟨hk.lt, hk.names⟩⟩

theorem dropped_present (hp : ((dropped m h o).objs p).Present) :
    (dropped m h o).objs p = h.objs p :=
  dropped_objs fun he => dropped_absent (he ▸ hp)

theorem dropped_published (hc : Coherent m h) (hk : h.Current k)
    (hpub : Present (((dropped m h o).publish (h.objs o).carmObjIndex o).carmObjState k)) :
    ∃ p, h.ptrs k = some p ∧ ((dropped m h o).publish (h.objs o).carmObjIndex o).carmObjState k =
      ((dropped m h o).objs p).metadata := by
  by_cases hki : k = (h.objs o).carmObjIndex
  · subst hki
    simp only [publish, Function.update_self] at hpub
    exact absurd hpub dropped_absent
  · simp only [publish, Function.update_of_ne hki] at hpub ⊢
    obtain ⟨p, hp, he⟩ := hc.published k hk hpub
    have hpo : p ≠ o := by
      rintro rfl
      exact hki (hk.names p hp).symm
    exact ⟨p, hp, by rw [dropped_objs hpo]; exact he⟩

theorem dropped_coherent (hc : Coherent m h) (ho : o < h.objCount) :
    Coherent m ((dropped m h o).publish (h.objs o).carmObjIndex o) where
  placed := hc.placed.of_old fun p hp hpp => ⟨hp, congrArg Obj.metadata (dropped_present hpp)⟩
  synced p hp hpp hclean := by
    have he : ((dropped m h o).publish (h.objs o).carmObjIndex o).objs p = h.objs p :=
      dropped_present hpp
    rw [he] at hpp hclean ⊢
    exact hc.synced p hp hpp hclean
  home_lt p hp := by
    show ((dropped m h o).objs p).carmObjIndex < h.totalObjCnt
    rw [dropped_index]
    exact hc.home_lt p hp
  home p hp := by
    show h.ptrs ((dropped m h o).objs p).carmObjIndex = some p
    rw [dropped_index]
    exact hc.home p hp
  backed := hc.backed
  published k hk hpub := dropped_published hc (dropped_publish_current.mp hk) hpub
  unpublished k hk := by
    have hki : k ≠ (h.objs o).carmObjIndex := Nat.ne_of_gt ((hc.home_lt o ho).trans_le hk)
    simp only [publish, Function.update_of_ne hki]
    exact hc.unpublished k hk
  slots := hc.slots
  initial := hc.initial
  few := hc.few
  extended := hc.extended
  counted := hc.counted

theorem evacuate_keeps (hc : Coherent m h) (ho : o < h.objCount) :
    Keeps m h (h.evacuate m o) := by
  by_cases hpres : (h.objs o).Present
  case neg =>
    rw [evacuate_away hpres]
    exact .refl hc
  rw [evacuate_state hc ho hpres]
  refine ⟨⟨rfl, rfl, rfl, rfl, rfl, rfl, rfl⟩, dropped_coherent hc ho,
    fun k hk => dropped_publish_current.mpr hk, fun k j hk hj => ?_, fun _ _ => rfl⟩
  exact byteAt_eq rfl fun p _ => dropped_objByte hc ho hpres hj

theorem evacuate_other (hp : p ≠ o) : (h.evacuate m o).objs p = h.objs p := by
  by_cases hpres : (h.objs o).Present
  · rw [evacuate_eq hpres, updateCacheObject]
    split <;> exact dropped_objs hp
  · rw [evacuate_away hpres]

end

end Heap

end TrackFM
