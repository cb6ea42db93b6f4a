import TrackFM.Libc

/-!
# What the memory functions leave alone

No coherence is assumed here: whatever the tables hold, a dereference, an
evacuation, a fill or a copy leaves the allocator's own state as it is, and
backs slots but never changes the object of a backed one.
-/

namespace TrackFM

namespace Heap

variable {m : Manager} {h h' : Heap}

/-- The allocator's state is the same, and only slots in `T` were backed. -/
structure Touches (T : Nat → Prop) (h h' : Heap) : Prop where
  alloc : SameAlloc h h'
  ptrs : ∀ i, h'.ptrs i = h.ptrs i ∨ T i ∧ h.ptrs i = none

theorem Touches.of_eq (ha : SameAlloc h h') (hp : h'.ptrs = h.ptrs) : Touches T h h' :=
  ⟨ha, fun _ => .inl (by rw [hp])⟩

theorem Touches.refl : Touches T h h := .of_eq .refl rfl

theorem Touches.trans (h₁ : Touches T h h') (h₂ : Touches T h' h'') : Touches T h h'' := by
  refine ⟨h₁.alloc.trans h₂.alloc, fun i => ?_⟩
  rcases h₁.ptrs i with he | ⟨hT, hn⟩
  · rw [← he]
    exact h₂.ptrs i
  · exact .inr ⟨hT, hn⟩

theorem Touches.mono (ht : Touches T h h') (hTU : ∀ i, T i → U i) : Touches U h h' :=
  ⟨ht.alloc, fun i => (ht.ptrs i).imp_right fun hi => ⟨hTU i hi.1, hi.2⟩⟩

theorem Touches.backed (ht : Touches T h h') (hi : h.ptrs i = some o) : h'.ptrs i = some o := by
  rcases ht.ptrs i with he | ⟨-, hn⟩
  · rw [he, hi]
  · rw [hi] at hn
    cases hn

theorem Touches.other (ht : Touches T h h') (hi : ¬T i) : h'.ptrs i = h.ptrs i :=
  (ht.ptrs i).resolve_right fun hT => hi hT.1

-- ---------------------------------------------------------------------------
-- Dereferences, stores and evacuations
-- ---------------------------------------------------------------------------

theorem objectFor_touches : Touches (· = i) h (objectFor m h i).1 := by
  unfold objectFor
  split
  · exact .refl
  · rename_i hn
    refine ⟨⟨rfl, rfl, rfl, rfl, rfl, rfl, rfl⟩, fun k => ?_⟩
    by_cases hk : k = i
    · exact .inr ⟨hk, hk ▸ hn⟩
    · exact .inl (allocateObject_ptrs hk)

theorem carmAddPrefetchTrace_touches : Touches T h (h.carmAddPrefetchTrace i pf) := by
  refine .of_eq ?_ carmAddPrefetchTrace_ptrs
  unfold carmAddPrefetchTrace
  split
  · exact ⟨rfl, rfl, rfl, rfl, rfl, rfl, rfl⟩
  · exact .refl

theorem carmDerefObj_touches : Touches (· = i) h (carmDerefObj m h w i pf).1 := by
  simp only [carmDerefObj]
  refine .trans (objectFor_touches (m := m)) (.trans ?_ carmAddPrefetchTrace_touches)
  exact .of_eq ⟨rfl, rfl, rfl, rfl, rfl, rfl, rfl⟩ rfl

theorem objectFor_ne (hc : Coherent m h) (hi : h.Current i) (hk : h.Current k) (hne : i ≠ k)
    (ho : h.ptrs i = some o) : o ≠ (objectFor m h k).2 := by
  rintro rfl
  unfold objectFor at ho
  split at ho
  · rename_i p hp
    exact hne (hi.inj hk ho hp)
  · exact Nat.lt_irrefl _ (hc.backed i _ hi.lt ho)

theorem carmDerefObj_other (hc : Coherent m h) (hi : h.Current i) (hk : h.Current k)
    (hne : i ≠ k) (ho : h.ptrs i = some o) : (carmDerefObj m h w k pf).1.objs o = h.objs o := by
  unfold carmDerefObj
  simp only
  rw [carmAddPrefetchTrace_objs]
  show (((objectFor m h k).1.deref m (objectFor m h k).2 w).objs o) = _
  rw [deref_objs_ne (objectFor_ne hc hi hk hne ho), objectFor_objs (hc.backed i o hi.lt ho)]

theorem carmDeref_touches : Touches T h h.carmDeref := .of_eq ⟨rfl, rfl, rfl, rfl, rfl, rfl, rfl⟩ rfl

theorem ptrDeref_touches : Touches (· = p.objIndex) h (ptrDeref m h p).1 := by
  simp only [ptrDeref]
  split
  · split
    · exact carmDeref_touches.trans carmDerefObj_touches
    · exact carmDeref_touches.trans carmDerefObj_touches
  · exact .refl

theorem store_touches : Touches T h (h.store a n f) := .of_eq store_same rfl

theorem evacuate_touches : Touches T h (h.evacuate m o) := by
  by_cases hp : (h.objs o).Present
  · rw [evacuate_eq hp, updateCacheObject]
    split
    · exact .of_eq ⟨rfl, rfl, rfl, rfl, rfl, rfl, rfl⟩ rfl
    · exact .of_eq ⟨rfl, rfl, rfl, rfl, rfl, rfl, rfl⟩ rfl
  · rw [evacuate_away hp]
    exact .refl

-- ---------------------------------------------------------------------------
-- The loops
-- ---------------------------------------------------------------------------

theorem carmMemcpyDstLoop_touches (hr : carmMemcpyDstLoop m src size fuel h p k = .ok h') :
    Touches (fun _ => True) h h' := by
  induction fuel generalizing h p k with
  | zero => cases hr
  | succ fuel ih =>
    have hd : Touches (fun _ => True) h (ptrDeref m h p).1 := ptrDeref_touches.mono fun _ _ => trivial
    simp only [carmMemcpyDstLoop] at hr
    split at hr
    · split at hr
      · exact hd.trans (store_touches.trans (ih hr))
      · cases hr
        exact hd.trans store_touches
    · cases hr
      exact .refl

theorem carmMemcpySrcLoop_touches (hr : carmMemcpySrcLoop m dst size fuel h p k = .ok h') :
    Touches (fun _ => True) h h' := by
  induction fuel generalizing h p k with
  | zero => cases hr
  | succ fuel ih =>
    have hd : Touches (fun _ => True) h (ptrDeref m h p).1 := ptrDeref_touches.mono fun _ _ => trivial
    simp only [carmMemcpySrcLoop] at hr
    split at hr
    · split at hr
      · exact hd.trans (store_touches.trans (ih hr))
      · cases hr
        exact hd.trans store_touches
    · cases hr
      exact .refl

theorem carmMemcpyLoop_touches (hr : carmMemcpyLoop m dst src size fuel h p q k = .ok h') :
    Touches (fun _ => True) h h' := by
  induction fuel generalizing h p q k with
  | zero => cases hr
  | succ fuel ih =>
    have hd : Touches (fun _ => True) h (ptrDeref m (ptrDeref m h p).1 q).1 :=
      (ptrDeref_touches.mono fun _ _ => trivial).trans
        (ptrDeref_touches.mono fun _ _ => trivial)
    simp only [carmMemcpyLoop] at hr
    split at hr
    · split at hr
      · cases hr
      · split at hr
        · exact hd.trans (store_touches.trans (ih hr))
        · cases hr
          exact hd.trans store_touches
    · cases hr
      exact .refl

theorem carmMemsetLoop_touches (hr : carmMemsetLoop m src size fuel h p k = .ok h') :
    Touches (fun _ => True) h h' := by
  induction fuel generalizing h p k with
  | zero => cases hr
  | succ fuel ih =>
    have hd : Touches (fun _ => True) h (ptrDeref m h p).1 := ptrDeref_touches.mono fun _ _ => trivial
    simp only [carmMemsetLoop] at hr
    split at hr
    · split at hr
      · cases hr
      · refine hd.trans (.trans ?_ (ih hr))
        split <;> exact store_touches
    · cases hr
      exact .refl

theorem carmMemset_touches (hr : carmMemset m h dst src size = .ok (h', r)) :
    Touches (fun _ => True) h h' := by
  simp only [carmMemset] at hr
  split at hr
  · cases hr
    exact store_touches
  · obtain ⟨h₁, hloop, he⟩ := map_ok.mp hr
    cases he
    exact carmMemsetLoop_touches hloop

theorem carmMemcpy_touches (hr : carmMemcpy m h dst src size = .ok (h', r)) :
    Touches (fun _ => True) h h' := by
  simp only [carmMemcpy] at hr
  split at hr
  · cases hr
    exact store_touches
  · split at hr
    · obtain ⟨h₁, hloop, he⟩ := map_ok.mp hr
      cases he
      exact carmMemcpyDstLoop_touches hloop
    · split at hr
      · obtain ⟨h₁, hloop, he⟩ := map_ok.mp hr
        cases he
        exact carmMemcpySrcLoop_touches hloop
      · obtain ⟨h₁, hloop, he⟩ := map_ok.mp hr
        cases he
        exact carmMemcpyLoop_touches hloop

-- ---------------------------------------------------------------------------
-- Only carm_free aborts
-- ---------------------------------------------------------------------------

theorem carmMemsetLoop_no_abort : carmMemsetLoop m src size fuel h p k ≠ .error .abort := by
  induction fuel generalizing h p k with
  | zero => exact nofun
  | succ fuel ih =>
    simp only [carmMemsetLoop]
    split
    · split
      · exact nofun
      · exact ih
    · exact nofun

theorem carmMemcpyDstLoop_no_abort :
    carmMemcpyDstLoop m src size fuel h p k ≠ .error .abort := by
  induction fuel generalizing h p k with
  | zero => exact nofun
  | succ fuel ih =>
    simp only [carmMemcpyDstLoop]
    split
    · split
      · exact ih
      · exact nofun
    · exact nofun

theorem carmMemcpySrcLoop_no_abort :
    carmMemcpySrcLoop m dst size fuel h p k ≠ .error .abort := by
  induction fuel generalizing h p k with
  | zero => exact nofun
  | succ fuel ih =>
    simp only [carmMemcpySrcLoop]
    split
    · split
      · exact ih
      · exact nofun
    · exact nofun

theorem carmMemcpyLoop_no_abort :
    carmMemcpyLoop m dst src size fuel h p q k ≠ .error .abort := by
  induction fuel generalizing h p q k with
  | zero => exact nofun
  | succ fuel ih =>
    simp only [carmMemcpyLoop]
    split
    · split
      · exact nofun
      · split
        · exact ih
        · exact nofun
    · exact nofun

theorem carmMemset_no_abort : carmMemset m h dst src size ≠ .error .abort := by
  simp only [carmMemset]
  split
  · exact nofun
  · rw [Ne, map_error]
    exact carmMemsetLoop_no_abort

theorem carmMemcpy_no_abort : carmMemcpy m h dst src size ≠ .error .abort := by
  simp only [carmMemcpy]
  split
  · exact nofun
  · split
    · rw [Ne, map_error]
      exact carmMemcpyDstLoop_no_abort
    · split
      · rw [Ne, map_error]
        exact carmMemcpySrcLoop_no_abort
      · rw [Ne, map_error]
        exact carmMemcpyLoop_no_abort

-- ---------------------------------------------------------------------------
-- carm_free
-- ---------------------------------------------------------------------------

structure Frees (h h' : Heap) : Prop where
  aspaceStart : h'.aspaceStart = h.aspaceStart
  numObjects : h'.numObjects = h.numObjects
  allocationMap : h'.allocationMap = h.allocationMap
  totalObjCnt : h.totalObjCnt ≤ h'.totalObjCnt

theorem Frees.refl : Frees h h := ⟨rfl, rfl, rfl, Nat.le_refl _⟩

theorem Frees.trans (h₁ : Frees h h') (h₂ : Frees h' h'') : Frees h h'' :=
  ⟨h₂.1.trans h₁.1, h₂.2.trans h₁.2, h₂.3.trans h₁.3, h₁.4.trans h₂.4⟩

theorem credit_frees : Frees h (h.credit i n) := ⟨rfl, rfl, rfl, Nat.le_refl _⟩

theorem updateObjectList_frees : Frees h (h.updateObjectList i) := ⟨rfl, rfl, rfl, Nat.le_succ _⟩

theorem carmFreeLoop_frees (hr : carmFreeLoop size fuel h i freed chunk = .ok h') : Frees h h' := by
  induction fuel generalizing h i freed chunk with
  | zero => cases hr
  | succ fuel ih =>
    simp only [carmFreeLoop] at hr
    generalize (if u64 (freed + chunk) < size then chunk else size - freed) = n at hr
    split at hr
    · split at hr
      · cases hr
      · split at hr
        · cases hr
          exact credit_frees
        · have hf : Frees (h.credit i n) (if (h.credit i n).freeListMap i = objSize then
              (h.credit i n).updateObjectList i else h.credit i n) := by
            split
            · exact updateObjectList_frees
            · exact .refl
          generalize (if (h.credit i n).freeListMap i = objSize then
            (h.credit i n).updateObjectList i else h.credit i n) = h₁ at hr hf
          split at hr
          · cases hr
          · exact credit_frees.trans (hf.trans (ih hr))
    · cases hr
      exact .refl

theorem carmFree_frees (hr : carmFree h ptr = .ok h') : Frees h h' := by
  simp only [carmFree] at hr
  split at hr
  · exact carmFreeLoop_frees hr
  · cases hr
    exact .refl

end Heap

end TrackFM
