import TrackFM.Runtime
import Mathlib.Data.Finset.Card

/-!
# Coherence of the slots, the objects and the published words

`Coherent` ties together `ptrs_`, the index stored in each object, the
published state words and the metadata. Dereferences, stores to a dereferenced
copy, evacuations and recycling keep it, and change the logical contents only
where they should. A slot is `Current` while its object still names it; the
slot a recycled object came from is not.
-/

namespace TrackFM

open Lib (Mem blit blit_in blit_out)

namespace Heap

variable {m : Manager} {h h' : Heap}

/-- A slot in use: within the slots handed out so far, and its object, if it
has one, names it. -/
structure Current (h : Heap) (i : Nat) : Prop where
  lt : i < h.totalObjCnt
  names : ∀ o, h.ptrs i = some o → (h.objs o).carmObjIndex = i

structure Coherent (m : Manager) (h : Heap) : Prop where
  placed : Placed m.lo m.hi h.objs h.objCount
  synced : ∀ o < h.objCount, (h.objs o).Present → ¬(h.objs o).Dirty →
    ∀ j < objSize, h.mem ((h.objs o).addr + j) = (h.objs o).remote j
  home_lt : ∀ o < h.objCount, (h.objs o).carmObjIndex < h.totalObjCnt
  home : ∀ o < h.objCount, h.ptrs (h.objs o).carmObjIndex = some o
  backed : ∀ i o, i < h.totalObjCnt → h.ptrs i = some o → o < h.objCount
  published : ∀ i, h.Current i → Present (h.carmObjState i) →
    ∃ o, h.ptrs i = some o ∧ h.carmObjState i = (h.objs o).metadata
  unpublished : ∀ i, h.totalObjCnt ≤ i → ¬Present (h.carmObjState i)
  slots : h.totalObjCnt ≤ totalObjects
  initial : h.numObjects ≤ h.totalObjCnt
  few : h.numObjects ≤ farObjects
  extended : ∀ i, h.numObjects ≤ i → i < h.totalObjCnt → h.ptrs i ≠ none
  counted : h.objCount ≤ ((Finset.range h.numObjects).filter fun i => h.ptrs i ≠ none).card

theorem Coherent.objCount_le (hc : Coherent m h) : h.objCount ≤ farObjects := by
  have := Finset.card_filter_le (Finset.range h.numObjects) fun i => h.ptrs i ≠ none
  have h₁ := hc.counted
  have h₂ := hc.few
  rw [Finset.card_range] at this
  omega

theorem Current.inj (hi : h.Current i) (hk : h.Current k) (h₁ : h.ptrs i = some o)
    (h₂ : h.ptrs k = some o) : i = k := by
  rw [← hi.names o h₁, hk.names o h₂]

/-- Nothing the allocator reads or writes differs. -/
structure SameAlloc (h h' : Heap) : Prop where
  aspaceStart : h'.aspaceStart = h.aspaceStart
  numObjects : h'.numObjects = h.numObjects
  totalObjCnt : h'.totalObjCnt = h.totalObjCnt
  allocationMap : h'.allocationMap = h.allocationMap
  freeListMap : h'.freeListMap = h.freeListMap
  recycled : h'.recycled = h.recycled
  marks : h'.marks = h.marks

theorem SameAlloc.refl : SameAlloc h h := ⟨rfl, rfl, rfl, rfl, rfl, rfl, rfl⟩

theorem SameAlloc.trans (h₁ : SameAlloc h h') (h₂ : SameAlloc h' h'') : SameAlloc h h'' :=
  ⟨h₂.1.trans h₁.1, h₂.2.trans h₁.2, h₂.3.trans h₁.3, h₂.4.trans h₁.4, h₂.5.trans h₁.5,
    h₂.6.trans h₁.6, h₂.7.trans h₁.7⟩

/-- What an operation that changes no logical byte keeps. -/
structure Keeps (m : Manager) (h h' : Heap) : Prop where
  alloc : SameAlloc h h'
  coherent : Coherent m h'
  current : ∀ i, h.Current i → h'.Current i
  byteAt : ∀ i j, h.Current i → j < objSize → h'.byteAt m i j = h.byteAt m i j
  app : ∀ a, a < m.lo ∨ m.hi ≤ a → h'.mem a = h.mem a

theorem Keeps.refl (hc : Coherent m h) : Keeps m h h :=
  ⟨.refl, hc, fun _ => id, fun _ _ _ _ => rfl, fun _ _ => rfl⟩

theorem Keeps.trans (h₁ : Keeps m h h') (h₂ : Keeps m h' h'') : Keeps m h h'' where
  alloc := h₁.alloc.trans h₂.alloc
  coherent := h₂.coherent
  current i hi := h₂.current i (h₁.current i hi)
  byteAt i j hi hj := (h₂.byteAt i j (h₁.current i hi) hj).trans (h₁.byteAt i j hi hj)
  app a ha := (h₂.app a ha).trans (h₁.app a ha)

/-- Local copies stay where they are, and dirty ones stay dirty. -/
def Steady (h h' : Heap) : Prop :=
  ∀ k o, h.Current k → h.ptrs k = some o → (h.objs o).Present →
    h'.ptrs k = some o ∧ (h'.objs o).Present ∧ (h'.objs o).addr = (h.objs o).addr ∧
      ((h.objs o).Dirty → (h'.objs o).Dirty)

theorem Steady.of_eq (hp : h'.ptrs = h.ptrs) (ho : h'.objs = h.objs) : Steady h h' := by
  intro k o _ hk hpres
  rw [hp, ho]
  exact ⟨hk, hpres, rfl, id⟩

theorem Steady.trans (hk : Keeps m h h') (h₁ : Steady h h') (h₂ : Steady h' h'') :
    Steady h h'' := by
  intro k o hcur ho hpres
  obtain ⟨a₁, a₂, a₃, a₄⟩ := h₁ k o hcur ho hpres
  obtain ⟨b₁, b₂, b₃, b₄⟩ := h₂ k o (hk.current k hcur) a₁ a₂
  exact ⟨b₁, b₂, b₃.trans a₃, fun hd => b₄ (a₄ hd)⟩

/-- The local copy of the slot starts at `base`. -/
def Located (h : Heap) (i base : Nat) : Prop :=
  ∃ o, h.ptrs i = some o ∧ (h.objs o).Present ∧ (h.objs o).addr = base

/-- ... and will be written back. -/
def Writable (h : Heap) (i base : Nat) : Prop :=
  ∃ o, h.ptrs i = some o ∧ (h.objs o).Present ∧ (h.objs o).addr = base ∧ (h.objs o).Dirty

theorem Writable.located (hw : h.Writable i base) : h.Located i base := by
  obtain ⟨o, h₁, h₂, h₃, -⟩ := hw
  exact ⟨o, h₁, h₂, h₃⟩

theorem Steady.located (hs : Steady h h') (hk : h.Current k) (hl : h.Located k b) :
    h'.Located k b := by
  obtain ⟨o, ho, hpres, rfl⟩ := hl
  obtain ⟨a₁, a₂, a₃, -⟩ := hs k o hk ho hpres
  exact ⟨o, a₁, a₂, a₃⟩

theorem Steady.writable (hs : Steady h h') (hk : h.Current k) (hw : h.Writable k b) :
    h'.Writable k b := by
  obtain ⟨o, ho, hpres, rfl, hd⟩ := hw
  obtain ⟨a₁, a₂, a₃, a₄⟩ := hs k o hk ho hpres
  exact ⟨o, a₁, a₂, a₃, a₄ hd⟩

theorem Located.byteAt (hl : h.Located i base) : h.byteAt m i j = h.mem (base + j) := by
  obtain ⟨o, h₁, h₂, rfl⟩ := hl
  simp [Heap.byteAt, objByte, h₁, h₂]

theorem Located.eq (h₁ : h.Located i a) (h₂ : h.Located i b) : a = b := by
  obtain ⟨o, ho, -, rfl⟩ := h₁
  obtain ⟨p, hp, -, rfl⟩ := h₂
  rw [ho] at hp
  cases hp
  rfl

theorem Located.within (hc : Coherent m h) (hi : h.Current i) (hl : h.Located i base) :
    m.lo ≤ base ∧ base + objSize ≤ m.hi := by
  obtain ⟨o, h₁, h₂, rfl⟩ := hl
  exact hc.placed.within o (hc.backed i o hi.lt h₁) h₂

theorem Located.apart (hc : Coherent m h) (hi : h.Current i) (hk : h.Current k) (hne : i ≠ k)
    (h₁ : h.Located i a) (h₂ : h.Located k b) : Apart a b := by
  obtain ⟨o, ho, hop, rfl⟩ := h₁
  obtain ⟨p, hp, hpp, rfl⟩ := h₂
  refine hc.placed.apart o (hc.backed i o hi.lt ho) p (hc.backed k p hk.lt hp) ?_ hop hpp
  rintro rfl
  exact hne (hi.inj hk ho hp)

-- ---------------------------------------------------------------------------
-- Updates that touch no table of this module
-- ---------------------------------------------------------------------------

theorem carmDeref_keeps (hc : Coherent m h) : Keeps m h h.carmDeref where
  alloc := ⟨rfl, rfl, rfl, rfl, rfl, rfl, rfl⟩
  coherent := { hc with
    published := fun _ hi => hc.published _ ⟨hi.lt, hi.names⟩ }
  current _ hi := ⟨hi.lt, hi.names⟩
  byteAt _ _ _ _ := rfl
  app _ _ := rfl

theorem carmAddPrefetchTrace_keeps (hc : Coherent m h) :
    Keeps m h (h.carmAddPrefetchTrace i pf) := by
  unfold carmAddPrefetchTrace
  split
  · exact {
      alloc := ⟨rfl, rfl, rfl, rfl, rfl, rfl, rfl⟩
      coherent := { hc with published := fun _ hi => hc.published _ ⟨hi.lt, hi.names⟩ }
      current := fun _ hi => ⟨hi.lt, hi.names⟩
      byteAt := fun _ _ _ _ => rfl
      app := fun _ _ => rfl }
  · exact .refl hc

-- ---------------------------------------------------------------------------
-- Allocation on the first touch
-- ---------------------------------------------------------------------------

theorem byteAt_eq (hk : h'.ptrs k = h.ptrs k)
    (ho : ∀ o, h.ptrs k = some o → h'.objByte o j = h.objByte o j) :
    h'.byteAt m k j = h.byteAt m k j := by
  unfold Heap.byteAt
  rw [hk]
  cases hp : h.ptrs k with
  | none => rfl
  | some o => exact ho o hp

theorem Current.ptrs_none_lt (hc : Coherent m h) (hi : h.Current i) (hn : h.ptrs i = none) :
    i < h.numObjects := by
  by_contra hge
  exact hc.extended i (by omega) hi.lt hn

section
variable {i : Nat}

theorem allocateObject_objs (hp : p < h.objCount) :
    (allocateObject m h i).1.objs p = h.objs p := by
  simp [allocateObject, show p ≠ h.objCount by omega]

theorem allocateObject_ptrs (hk : k ≠ i) : (allocateObject m h i).1.ptrs k = h.ptrs k := by
  simp [allocateObject, hk]

theorem allocateObject_current (hc : Coherent m h) (hi : h.Current i) :
    h.Current k → (allocateObject m h i).1.Current k := by
  intro hk
  refine ⟨hk.lt, fun o ho => ?_⟩
  by_cases hki : k = i
  · subst hki
    simp [allocateObject] at ho ⊢
    simp [← ho]
  · rw [allocateObject_ptrs hki] at ho
    rw [allocateObject_objs (hc.backed k o hk.lt ho)]
    exact hk.names o ho

theorem allocateObject_absent : ¬((allocateObject m h i).1.objs h.objCount).Present := by
  simpa [allocateObject] using m.awayWord_absent h.objs h.objCount

theorem allocateObject_present (hp : p < h.objCount + 1)
    (hpres : ((allocateObject m h i).1.objs p).Present) :
    p < h.objCount ∧ (allocateObject m h i).1.objs p = h.objs p := by
  rcases Nat.lt_succ_iff_lt_or_eq.mp hp with hlt | rfl
  · exact ⟨hlt, allocateObject_objs hlt⟩
  · exact absurd hpres allocateObject_absent

theorem allocateObject_home (hc : Coherent m h) (hn : h.ptrs i = none) (hp : p < h.objCount + 1) :
    (allocateObject m h i).1.ptrs ((allocateObject m h i).1.objs p).carmObjIndex = some p := by
  rcases Nat.lt_succ_iff_lt_or_eq.mp hp with hlt | rfl
  · have hhome := hc.home p hlt
    have hne : (h.objs p).carmObjIndex ≠ i := by
      intro he
      rw [he, hn] at hhome
      cases hhome
    rw [allocateObject_objs hlt, allocateObject_ptrs hne]
    exact hhome
  · simp [allocateObject]

theorem allocateObject_published (hc : Coherent m h) (hi : h.Current i) (hn : h.ptrs i = none)
    (hk : (allocateObject m h i).1.Current k) (hpub : Present (h.carmObjState k)) :
    ∃ o, (allocateObject m h i).1.ptrs k = some o ∧
      h.carmObjState k = ((allocateObject m h i).1.objs o).metadata := by
  by_cases hki : k = i
  · subst hki
    obtain ⟨o, ho, -⟩ := hc.published k hi hpub
    rw [hn] at ho
    cases ho
  · have hcur : h.Current k := by
      refine ⟨hk.lt, fun o ho => ?_⟩
      have hnames := hk.names o (by rw [allocateObject_ptrs hki]; exact ho)
      rwa [allocateObject_objs (hc.backed k o hk.lt ho)] at hnames
    obtain ⟨o, ho, he⟩ := hc.published k hcur hpub
    refine ⟨o, by rw [allocateObject_ptrs hki]; exact ho, ?_⟩
    rw [allocateObject_objs (hc.backed k o hk.lt ho)]
    exact he

theorem allocateObject_counted (hc : Coherent m h) (hlt : i < h.numObjects)
    (hn : h.ptrs i = none) : h.objCount + 1 ≤
      ((Finset.range h.numObjects).filter fun k => (allocateObject m h i).1.ptrs k ≠ none).card := by
  have hsub : insert i ((Finset.range h.numObjects).filter fun k => h.ptrs k ≠ none) ⊆
      (Finset.range h.numObjects).filter fun k => (allocateObject m h i).1.ptrs k ≠ none := by
    intro k hk
    simp only [Finset.mem_insert, Finset.mem_filter, Finset.mem_range] at hk ⊢
    by_cases hki : k = i
    · subst hki
      simp [allocateObject, hlt]
    · rw [allocateObject_ptrs hki]
      exact hk.resolve_left hki
  have hcard := Finset.card_le_card hsub
  rw [Finset.card_insert_of_notMem (by simp [hn])] at hcard
  exact (Nat.add_le_add_right hc.counted 1).trans hcard

theorem allocateObject_coherent (hc : Coherent m h) (hi : h.Current i) (hn : h.ptrs i = none) :
    Coherent m (allocateObject m h i).1 where
  placed := hc.placed.of_old fun p hp hpres =>
    (allocateObject_present hp hpres).imp_right (congrArg Obj.metadata)
  synced p hp hpres hclean := by
    obtain ⟨hp', he⟩ := allocateObject_present hp hpres
    rw [he] at hpres hclean ⊢
    exact hc.synced p hp' hpres hclean
  home_lt p hp := by
    rcases Nat.lt_succ_iff_lt_or_eq.mp hp with hlt | rfl
    · rw [allocateObject_objs hlt]
      exact hc.home_lt p hlt
    · simpa [allocateObject] using hi.lt
  home p hp := allocateObject_home hc hn hp
  backed k o hk ho := by
    show o < h.objCount + 1
    by_cases hki : k = i
    · subst hki
      simp [allocateObject] at ho
      omega
    · rw [allocateObject_ptrs hki] at ho
      exact Nat.lt_succ_of_lt (hc.backed k o hk ho)
  published k hk hpub := allocateObject_published hc hi hn hk hpub
  unpublished := hc.unpublished
  slots := hc.slots
  initial := hc.initial
  few := hc.few
  extended k hk hkt := by
    have hki : k ≠ i := Nat.ne_of_gt ((hi.ptrs_none_lt hc hn).trans_le hk)
    rw [allocateObject_ptrs hki]
    exact hc.extended k hk hkt
  counted := allocateObject_counted hc (hi.ptrs_none_lt hc hn) hn

theorem allocateObject_keeps (hc : Coherent m h) (hi : h.Current i) (hn : h.ptrs i = none) :
    Keeps m h (allocateObject m h i).1 := by
  refine ⟨⟨rfl, rfl, rfl, rfl, rfl, rfl, rfl⟩, allocateObject_coherent hc hi hn,
    fun k => allocateObject_current hc hi, fun k j hk _ => ?_, fun _ _ => rfl⟩
  by_cases hki : k = i
  · subst hki
    simp [Heap.byteAt, hn, allocateObject, objByte, m.awayWord_absent]
  · refine byteAt_eq (allocateObject_ptrs hki) fun o ho => ?_
    have hobj := allocateObject_objs (m := m) (i := i) (hc.backed k o hk.lt ho)
    simp only [objByte, hobj]
    rfl

theorem allocateObject_steady (hc : Coherent m h) (hn : h.ptrs i = none) :
    Steady h (allocateObject m h i).1 := by
  intro k o hk ho hpres
  have hki : k ≠ i := by
    rintro rfl
    rw [hn] at ho
    cases ho
  rw [allocateObject_ptrs hki, allocateObject_objs (hc.backed k o hk.lt ho)]
  exact ⟨ho, hpres, rfl, id⟩

theorem objectFor_objs (hp : p < h.objCount) : (objectFor m h i).1.objs p = h.objs p := by
  unfold objectFor
  split
  · rfl
  · exact allocateObject_objs hp

theorem objectFor_spec (hc : Coherent m h) (hi : h.Current i) :
    Keeps m h (objectFor m h i).1 ∧ Steady h (objectFor m h i).1 ∧
      (objectFor m h i).1.ptrs i = some (objectFor m h i).2 := by
  unfold objectFor
  split
  · rename_i o ho
    exact ⟨.refl hc, .of_eq rfl rfl, ho⟩
  · rename_i hn
    exact ⟨allocateObject_keeps hc hi hn, allocateObject_steady hc hn, by simp [allocateObject]⟩

end

-- ---------------------------------------------------------------------------
-- The dereference of an object
-- ---------------------------------------------------------------------------

section
variable {o : Nat} {w : Bool}

theorem deref_word (hc : Coherent m h) (ho : o < h.objCount) :
    DerefOk m.lo m.hi h.objs h.objCount o w (m.derefWord h.objs h.objCount o w) :=
  m.derefWord_ok _ _ _ _ hc.placed hc.objCount_le ho

theorem deref_objs_self : (h.deref m o w).objs o =
    { h.objs o with metadata := m.derefWord h.objs h.objCount o w } := by
  simp [deref]

theorem deref_objs_ne (hp : p ≠ o) : (h.deref m o w).objs p = h.objs p := by
  simp [deref, hp]

theorem deref_index : ((h.deref m o w).objs p).carmObjIndex = (h.objs p).carmObjIndex := by
  by_cases hp : p = o
  · subst hp
    rw [deref_objs_self]
  · rw [deref_objs_ne hp]

theorem deref_mem (hne : ¬(dataAddr (m.derefWord h.objs h.objCount o w) ≤ a ∧
    a < dataAddr (m.derefWord h.objs h.objCount o w) + objSize)) :
    (h.deref m o w).mem a = h.mem a := by
  simp only [deref]
  split
  · rfl
  · exact blit_out (by omega)

theorem deref_mem_other (hc : Coherent m h) (ho : o < h.objCount) (hp : p < h.objCount)
    (hpo : p ≠ o) (hpres : (h.objs p).Present) (hj : j < objSize) :
    (h.deref m o w).mem ((h.objs p).addr + j) = h.mem ((h.objs p).addr + j) := by
  have hap := ((deref_word (w := w) hc ho).here hc.placed ho).2.2 p hp hpo hpres
  exact deref_mem (by omega)

theorem deref_mem_self (hc : Coherent m h) (ho : o < h.objCount) (hj : j < objSize) :
    (h.deref m o w).mem (dataAddr (m.derefWord h.objs h.objCount o w) + j) = h.objByte o j := by
  simp only [deref, objByte]
  split
  · rename_i hpres
    rw [((deref_word hc ho).stays hpres).1]
  · exact Lib.blit_at hj

theorem deref_objByte (hc : Coherent m h) (ho : o < h.objCount) (hp : p < h.objCount)
    (hj : j < objSize) : (h.deref m o w).objByte p j = h.objByte p j := by
  by_cases hpo : p = o
  · subst hpo
    rw [objByte, deref_objs_self, if_pos (deref_word hc ho).present]
    exact deref_mem_self hc ho hj
  · simp only [objByte, deref_objs_ne hpo]
    split
    · rename_i hpres
      exact deref_mem_other hc ho hp hpo hpres hj
    · rfl

theorem deref_placed (hc : Coherent m h) (ho : o < h.objCount) :
    Placed m.lo m.hi (h.deref m o w).objs h.objCount := by
  obtain ⟨hlo, hhi, hap⟩ := (deref_word (w := w) hc ho).here hc.placed ho
  constructor
  · intro p hp hpres
    by_cases hpo : p = o
    · subst hpo
      rw [deref_objs_self]
      exact ⟨hlo, hhi⟩
    · rw [deref_objs_ne hpo] at hpres ⊢
      exact hc.placed.within p hp hpres
  · intro p hp q hq hne hpp hqp
    by_cases hpo : p = o
    · subst hpo
      rw [deref_objs_ne (Ne.symm hne)] at hqp ⊢
      rw [deref_objs_self]
      exact hap q hq (Ne.symm hne) hqp
    · rw [deref_objs_ne hpo] at hpp ⊢
      by_cases hqo : q = o
      · subst hqo
        rw [deref_objs_self]
        exact (hap p hp hne hpp).symm
      · rw [deref_objs_ne hqo] at hqp ⊢
        exact hc.placed.apart p hp q hq hne hpp hqp

theorem deref_synced (hc : Coherent m h) (ho : o < h.objCount) :
    ∀ p < h.objCount, ((h.deref m o w).objs p).Present → ¬((h.deref m o w).objs p).Dirty →
      ∀ j < objSize, (h.deref m o w).mem (((h.deref m o w).objs p).addr + j) =
        ((h.deref m o w).objs p).remote j := by
  intro p hp hpres hclean j hj
  by_cases hpo : p = o
  · subst hpo
    rw [deref_objs_self] at hclean ⊢
    show (h.deref m p w).mem (dataAddr (m.derefWord h.objs h.objCount p w) + j) = (h.objs p).remote j
    rw [deref_mem_self hc ho hj, objByte]
    split
    · rename_i hold
      exact hc.synced p hp hold
        (fun hd => hclean (((deref_word hc ho).stays hold).2 hd)) j hj
    · rfl
  · rw [deref_objs_ne hpo] at hpres hclean ⊢
    show (h.deref m o w).mem ((h.objs p).addr + j) = _
    rw [deref_mem_other hc ho hp hpo hpres hj]
    exact hc.synced p hp hpres hclean j hj

theorem deref_current : ((h.deref m o w).publish i o).Current k ↔ h.Current k := by
  constructor
  · rintro ⟨hlt, hnames⟩
    refine ⟨hlt, fun p hp => ?_⟩
    rw [← deref_index (m := m) (o := o) (w := w)]
    exact hnames p hp
  · rintro ⟨hlt, hnames⟩
    refine ⟨hlt, fun p hp => ?_⟩
    show ((h.deref m o w).objs p).carmObjIndex = k
    rw [deref_index]
    exact hnames p hp

theorem deref_publish_keeps (hc : Coherent m h) (hi : h.Current i) (hio : h.ptrs i = some o) :
    Keeps m h ((h.deref m o w).publish i o) := by
  have ho : o < h.objCount := hc.backed i o hi.lt hio
  refine ⟨⟨rfl, rfl, rfl, rfl, rfl, rfl, rfl⟩, ?_, fun k hk => deref_current.mpr hk, ?_, ?_⟩
  · exact {
      placed := deref_placed hc ho
      synced := deref_synced hc ho
      home_lt := fun p hp => by
        show ((h.deref m o w).objs p).carmObjIndex < h.totalObjCnt
        rw [deref_index]
        exact hc.home_lt p hp
      home := fun p hp => by
        show h.ptrs ((h.deref m o w).objs p).carmObjIndex = some p
        rw [deref_index]
        exact hc.home p hp
      backed := hc.backed
      published := by
        intro k hk hpub
        rw [deref_current] at hk
        by_cases hki : k = i
        · subst hki
          exact ⟨o, hio, by simp [publish]⟩
        · simp only [publish, Function.update_of_ne hki] at hpub ⊢
          obtain ⟨p, hp, he⟩ := hc.published k hk hpub
          have hpo : p ≠ o := by
            rintro rfl
            exact hki (hk.inj hi hp hio)
          exact ⟨p, hp, by rw [deref_objs_ne hpo]; exact he⟩
      unpublished := by
        intro k hk
        have hki : k ≠ i := by
          have : h.totalObjCnt ≤ k := hk
          have := hi.lt
          omega
        simp only [publish, Function.update_of_ne hki]
        exact hc.unpublished k hk
      slots := hc.slots
      initial := hc.initial
      few := hc.few
      extended := hc.extended
      counted := hc.counted }
  · intro k j hk hj
    exact byteAt_eq rfl fun p hp => deref_objByte hc ho (hc.backed k p hk.lt hp) hj
  · intro a ha
    have hhere := (deref_word (w := w) hc ho).here hc.placed ho
    exact deref_mem (by omega)

theorem deref_publish_steady (hc : Coherent m h) (ho : o < h.objCount) :
    Steady h ((h.deref m o w).publish i o) := by
  intro k p _ hp hpres
  show h.ptrs k = some p ∧ Present ((h.deref m o w).objs p).metadata ∧
    dataAddr ((h.deref m o w).objs p).metadata = (h.objs p).addr ∧
    ((h.objs p).Dirty → Dirty ((h.deref m o w).objs p).metadata)
  by_cases hpo : p = o
  · subst hpo
    rw [deref_objs_self]
    have hword := deref_word (w := w) hc ho
    exact ⟨hp, hword.present, (hword.stays hpres).1, (hword.stays hpres).2⟩
  · rw [deref_objs_ne hpo]
    exact ⟨hp, hpres, rfl, id⟩

end

-- ---------------------------------------------------------------------------
-- The guarded dereference
-- ---------------------------------------------------------------------------

/-- What a caller gets from a dereference of slot `i`: the local copy at
`base`, to be written back if the caller is going to write. -/
structure Derefs (m : Manager) (h h' : Heap) (i : Nat) (mutable : Bool) (base : Nat) : Prop where
  keeps : Keeps m h h'
  steady : Steady h h'
  located : h'.Located i base
  writable : mutable = true → h'.Writable i base

theorem Derefs.of_eq (hk : Keeps m h h') (hp : h'.ptrs = h.ptrs) (ho : h'.objs = h.objs)
    (hd : Derefs m h₀ h i w base) : Derefs m h₀ h' i w base where
  keeps := hd.keeps.trans hk
  steady := .trans hd.keeps hd.steady (.of_eq hp ho)
  located := by simpa only [Located, hp, ho] using hd.located
  writable hw := by simpa only [Writable, hp, ho] using hd.writable hw

theorem carmAddPrefetchTrace_ptrs : (h.carmAddPrefetchTrace i pf).ptrs = h.ptrs := by
  unfold carmAddPrefetchTrace
  split <;> rfl

theorem carmAddPrefetchTrace_objs : (h.carmAddPrefetchTrace i pf).objs = h.objs := by
  unfold carmAddPrefetchTrace
  split <;> rfl

theorem carmDerefObj_spec (hc : Coherent m h) (hi : h.Current i) :
    Derefs m h (carmDerefObj m h w i f).1 i w (carmDerefObj m h w i f).2 := by
  obtain ⟨hk, hs, hp⟩ := objectFor_spec hc hi
  simp only [carmDerefObj]
  generalize objectFor m h i = r at hk hs hp
  obtain ⟨h₁, o⟩ := r
  have hi₁ : h₁.Current i := hk.current i hi
  have ho : o < h₁.objCount := hk.coherent.backed i o hi₁.lt hp
  have hword := deref_word (w := w) hk.coherent ho
  have hd : Derefs m h ((h₁.deref m o w).publish i o) i w
      (dataAddr (((h₁.deref m o w).publish i o).objs o).metadata) :=
    { keeps := hk.trans (deref_publish_keeps hk.coherent hi₁ hp)
      steady := .trans hk hs (deref_publish_steady hk.coherent ho)
      located := ⟨o, hp, by
        show Present ((h₁.deref m o w).objs o).metadata
        rw [deref_objs_self]
        exact hword.present, rfl⟩
      writable := fun hw => ⟨o, hp, by
        show Present ((h₁.deref m o w).objs o).metadata
        rw [deref_objs_self]
        exact hword.present, rfl, by
        show Dirty ((h₁.deref m o w).objs o).metadata
        rw [deref_objs_self]
        exact hword.dirty hw⟩ }
  exact Derefs.of_eq (carmAddPrefetchTrace_keeps hd.keeps.coherent) carmAddPrefetchTrace_ptrs
    carmAddPrefetchTrace_objs hd

theorem carmDeref_obj_spec (hc : Coherent m h) (hi : h.Current i) :
    Derefs m h (carmDerefObj m h.carmDeref w i f).1 i w (carmDerefObj m h.carmDeref w i f).2 := by
  have hk := carmDeref_keeps hc
  have hd := carmDerefObj_spec (w := w) (f := f) hk.coherent (hk.current i hi)
  exact { hd with
    keeps := hk.trans hd.keeps
    steady := .trans hk (.of_eq rfl rfl) hd.steady }

theorem ptrDeref_spec (hc : Coherent m h) (hi : h.Current p.objIndex) :
    ∃ base, (ptrDeref m h p).2 = base + p.offset ∧
      Derefs m h (ptrDeref m h p).1 p.objIndex p.mutable base := by
  by_cases hx : h.carmObjState p.objIndex &&& exceptions p.mutable ≠ 0
  · have hd := carmDeref_obj_spec (w := p.mutable) (f := 0) hc hi
    have heq : ptrDeref m h p = ((carmDerefObj m h.carmDeref p.mutable p.objIndex 0).1,
        (carmDerefObj m h.carmDeref p.mutable p.objIndex 0).2 + p.offset) := by
      cases hw : p.mutable <;> simp_all [ptrDeref, carmDerefRead, carmDerefWrite]
    rw [heq]
    exact ⟨_, rfl, hd⟩
  · -- fast path: the published word is the object's own
    have hzero : h.carmObjState p.objIndex &&& exceptions p.mutable = 0 := by
      simpa using hx
    obtain ⟨hpres, hdirty⟩ := word_fast hzero
    obtain ⟨o, ho, he⟩ := hc.published p.objIndex hi hpres
    refine ⟨dataAddr (h.carmObjState p.objIndex), by simp [ptrDeref, hzero], ?_⟩
    rw [he] at hpres hdirty ⊢
    have hsame : (ptrDeref m h p).1 = h := by simp [ptrDeref, hzero]
    rw [hsame]
    exact ⟨.refl hc, .of_eq rfl rfl, ⟨o, ho, hpres, rfl⟩,
      fun hw => ⟨o, ho, hpres, rfl, hdirty hw⟩⟩

end Heap

end TrackFM
