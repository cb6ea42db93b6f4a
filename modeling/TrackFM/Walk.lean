import TrackFM.Chunked
import TrackFM.Frames

/-!
# The transformed loop over remote memory

The pointer of a chunked loop is a cursor over objects (`Lib.Cursor`): right as
long as the step enters each further object at its start. `chunked_walk_iff`
says that this is exactly when every run of the loop uses the right pointers.
-/

namespace TrackFM

open Loops (carmDerefLoop opened initialBound carmDerefLoop_remote set_self set_other strideOf fetched)
open Heap (Coherent Located Derefs)
open Lib (Aligned EntersAtStart blockStride)

variable {m : Manager} {g : Chunk} {s s' s₀ : Loops} {φ : Phis} {d : Int} {w : Bool} {h : Heap}

-- ---------------------------------------------------------------------------
-- Dereferencing the next object
-- ---------------------------------------------------------------------------

namespace Heap

theorem marks_coherent (hc : Coherent m h) : Coherent m { h with marks := r } :=
  { hc with published := fun _ hi => hc.published _ ⟨hi.lt, hi.names⟩ }

theorem marks_current : ({ h with marks := ms } : Heap).Current i ↔ h.Current i :=
  ⟨fun hi => ⟨hi.lt, hi.names⟩, fun hi => ⟨hi.lt, hi.names⟩⟩

theorem invalidateMarkedRegion_eq :
    ∃ ms, h.invalidateMarkedRegion r = { h with marks := ms } := by
  unfold invalidateMarkedRegion
  split
  · exact ⟨h.marks, rfl⟩
  · exact ⟨_, rfl⟩

end Heap

structure NextObject (m : Manager) (s s' : Loops) (loopId i base : Nat) : Prop where
  coherent : Coherent m s'.heap
  current : ∀ k, s.heap.Current k → s'.heap.Current k
  located : s'.heap.Located i base
  slot : s'.loopstate loopId = { s.loopstate loopId with
    regionAddr := m.regionOf base
    objIndex := u64 (i + (s.loopstate loopId).stride) }
  marked : m.regionOf base ∈ s'.heap.marks

theorem fetched_derefs (hc : Coherent m s.heap) (hidx : (s.loopstate loopId).objIndex = i)
    (hi : s.heap.Current i) : ∃ ms, Derefs m { s.heap with marks := ms } (fetched m w s loopId).1 i w
      (fetched m w s loopId).2 := by
  obtain ⟨ms, hinv⟩ := Heap.invalidateMarkedRegion_eq (h := s.heap)
    (r := (s.loopstate loopId).regionAddr)
  refine ⟨ms, ?_⟩
  rw [fetched, hinv, hidx]
  exact Heap.carmDeref_obj_spec (Heap.marks_coherent hc) (Heap.marks_current.mpr hi)

theorem carmDerefLoop_next (hc : Coherent m s.heap) (hcarm : (s.loopstate loopId).carmPtr = true)
    (hidx : (s.loopstate loopId).objIndex = i) (hi : s.heap.Current i) : ∃ base,
      NextObject m s (carmDerefLoop m w s loopId).1 loopId i base ∧
      (carmDerefLoop m w s loopId).2 = if (s.loopstate loopId).startObjIndex = i then
        u64 (base + (s.loopstate loopId).startObjOffset) else base := by
  obtain ⟨ms, hd⟩ := fetched_derefs (w := w) hc hidx hi
  rw [carmDerefLoop_remote hcarm, hidx]
  exact ⟨_, {
    coherent := Heap.marks_coherent hd.keeps.coherent
    current := fun k hk => Heap.marks_current.mpr (hd.keeps.current k (Heap.marks_current.mpr hk))
    located := hd.located
    slot := set_self
    marked := List.mem_cons_self .. }, rfl⟩

-- ---------------------------------------------------------------------------
-- Positions
-- ---------------------------------------------------------------------------

/-- The object of a position, counted from `START_ADDR`. -/
def objectOf (p : Int) : Nat := (p / objSize).toNat

abbrev InSpace (p : Int) : Prop := 0 ≤ p ∧ p < (totalObjects * objSize : Nat)

theorem objectOf_eq (h : 0 ≤ p) : (objectOf p : Int) = p / objSize :=
  Int.toNat_of_nonneg (Int.ediv_nonneg h (by decide))

theorem objectOf_lt (h : InSpace p) : objectOf p < totalObjects := by
  have hp := objectOf_eq h.1
  have hs : (objSize : Int) = 4096 := rfl
  have hend : ((totalObjects * objSize : Nat) : Int) = 41943040 * 4096 := rfl
  have htotal : totalObjects = 41943040 := rfl
  obtain ⟨h₀, h₁⟩ := h
  rw [hs] at hp
  omega

namespace Chunk

def stepArg (g : Chunk) : Nat := if g.constant then 0 else g.step

def stride (g : Chunk) : Nat := strideOf g.stepArg

end Chunk

theorem strideOf_le {n : Nat} (h : n < 2 ^ 64) : strideOf n ≤ 2 ^ 52 := by
  unfold strideOf
  split
  · omega
  split
  · omega
  · show n / 4096 ≤ 2 ^ 52
    omega

theorem word64_lt : word64 d < 2 ^ 64 := by
  unfold word64
  omega

theorem word64_pos (h₀ : 0 < d) (h₁ : d < 2 ^ 63) : (word64 d : Int) = d := by
  unfold word64
  omega

/-- For a step up, the runtime's stride is the number of whole objects. -/
theorem strideOf_blockStride (h₀ : 0 < d) (h₁ : d < 2 ^ 63) :
    (strideOf (word64 d) : Int) = blockStride objSize d := by
  have hword := word64_pos h₀ h₁
  have hs : (objSize : Int) = 4096 := rfl
  unfold strideOf blockStride
  rw [if_neg (by omega), if_neg h₀.ne']
  by_cases hlt : d < objSize
  · rw [if_pos (by omega), if_pos hlt]
    rfl
  · rw [if_neg (by omega), if_neg hlt, Int.natCast_ediv, hword]

-- ---------------------------------------------------------------------------
-- The invariant
-- ---------------------------------------------------------------------------

def Right (s : Loops) (φ : Phis) (p : Int) : Prop :=
  ∃ base, s.heap.Located (objectOf p) base ∧ (φ.pointer : Int) = base + p % objSize

/-- The pointer, its bound and the slot, in an iteration at position `p` of a
walk from `x`. -/
structure Tracks (m : Manager) (g : Chunk) (x : Nat) (s : Loops) (φ : Phis) (p : Int) : Prop where
  coherent : Coherent m s.heap
  current : s.heap.Current (objectOf p)
  held : ∃ base, s.heap.Located (objectOf p) base ∧ (φ.pointer : Int) = base + p % objSize ∧
    φ.bound = base + objSize ∧ (s.loopstate φ.loopId).regionAddr = m.regionOf base ∧
    m.regionOf base ∈ s.heap.marks
  carmPtr : (s.loopstate φ.loopId).carmPtr = true
  objIndex : (s.loopstate φ.loopId).objIndex = objectOf p + g.stride
  startObjIndex : (s.loopstate φ.loopId).startObjIndex = x / objSize
  stride : (s.loopstate φ.loopId).stride = g.stride

theorem Tracks.right (ht : Tracks m g x s φ p) : Right s φ p := by
  obtain ⟨base, hl, hp, -⟩ := ht.held
  exact ⟨base, hl, hp⟩

/-- What the body and everything else that runs in between keeps of this loop: its
slot and its mark (`SlotStack`, `PinsBalanced`), and objects pinned by a mark. -/
structure Between (m : Manager) (loopId : Nat) (s s' : Loops) : Prop where
  coherent : Coherent m s'.heap
  current : ∀ i, s.heap.Current i → s'.heap.Current i
  pinned : ∀ i base, s.heap.Current i → s.heap.Located i base →
    m.regionOf base ∈ s.heap.marks → s'.heap.Located i base
  slot : s'.loopstate loopId = s.loopstate loopId
  marked : (s.loopstate loopId).regionAddr ∈ s.heap.marks →
    (s.loopstate loopId).regionAddr ∈ s'.heap.marks

theorem Tracks.between (ht : Tracks m g x s φ p) (hb : Between m φ.loopId s s') :
    Tracks m g x s' φ p := by
  obtain ⟨base, hl, hp, hbound, hregion, hmark⟩ := ht.held
  refine ⟨hb.coherent, hb.current _ ht.current, ⟨base, ?_, hp, hbound, ?_, ?_⟩, ?_, ?_, ?_, ?_⟩
  · exact hb.pinned _ base ht.current hl hmark
  · rw [hb.slot, hregion]
  · exact hregion ▸ hb.marked (hregion ▸ hmark)
  all_goals rw [hb.slot]
  · exact ht.carmPtr
  · exact ht.objIndex
  · exact ht.startObjIndex
  · exact ht.stride

theorem opened_remote {l : CarmLoop} {x : Nat} (hx : x < 2 ^ 60) : opened l (startAddr + x) n =
    { l with stepValueConstant := n == 0, active := true, regionAddr := 0,
             carmStartAddr := startAddr + x, carmPtr := true, objIndex := x / objSize,
             startObjIndex := x / objSize, startObjOffset := x % objSize, stride := strideOf n } := by
  simp [opened, getCarmPtr_start hx]

theorem initialBound_remote {x : Nat} (hx : x < 2 ^ 60) :
    initialBound (startAddr + x) = objSize - x % objSize := by
  simp [initialBound, getCarmPtr_start hx]

theorem objectOf_cast {x : Nat} : objectOf (x : Int) = x / objSize := rfl

theorem objectOf_add (hp : InSpace p) (h : g.step < 2 ^ 64) :
    u64 (objectOf p + g.stride) = objectOf p + g.stride := by
  have hlt := objectOf_lt hp
  have htotal : totalObjects = 41943040 := rfl
  have harg : g.stepArg < 2 ^ 64 := by
    unfold Chunk.stepArg
    split
    · exact Nat.two_pow_pos 64
    · exact h
  have hstride : g.stride ≤ 2 ^ 52 := strideOf_le harg
  exact Nat.mod_eq_of_lt (by omega)

theorem Tracks.enter {x : Nat} (hid : s₀.loopIdCnt < maxLoops) (hc : Coherent m s₀.heap)
    (hx : InSpace (x : Int)) (hcur : s₀.heap.Current (objectOf (x : Int)))
    (hg : g.start = startAddr + x) (hstep : g.step < 2 ^ 64)
    (h : g.outerHeader m s₀ = .ok (s, φ)) :
    Tracks m g x s φ (x : Int) ∧ ∀ i, s₀.heap.Current i → s.heap.Current i := by
  obtain ⟨-, s₁, rfl, hp, hb, hheap, hslot⟩ := Chunk.outerHeader_ok hid h
  have hend : ((totalObjects * objSize : Nat) : Int) = 41943040 * 4096 := rfl
  have hx60 : x < 2 ^ 60 := by
    have := hx.2
    omega
  rw [hg, opened_remote hx60] at hslot
  rw [← hheap] at hc hcur ⊢
  obtain ⟨base, hn, hres⟩ := carmDerefLoop_next (w := g.mutable) hc
    (show (s₁.loopstate φ.loopId).carmPtr = true by rw [hslot])
    (show (s₁.loopstate φ.loopId).objIndex = objectOf (x : Int) by rw [hslot]; rfl) hcur
  have hwithin := hn.located.within hn.coherent (hn.current _ hcur)
  have hhi := m.hi_le
  have hoff := (slot_add_off x).2
  have hs := objSize_eq
  have hpointer : φ.pointer = base + x % objSize := by
    rw [hp, hres, hslot, if_pos objectOf_cast.symm]
    show u64 (base + x % objSize) = _
    exact Nat.mod_eq_of_lt (by omega)
  have hslot' := hn.slot
  rw [hslot] at hslot'
  refine ⟨⟨hn.coherent, hn.current _ hcur, ⟨base, hn.located, ?_, ?_, ?_, hn.marked⟩,
    ?_, ?_, ?_, ?_⟩, hn.current⟩
  · rw [hpointer]
    push_cast
    rfl
  · rw [hb, hpointer, hg, initialBound_remote hx60]
    exact (Nat.mod_eq_of_lt (by omega)).trans (by omega)
  all_goals rw [hslot']
  · exact objectOf_add hx hstep
  · rfl

abbrev Signed64 (d : Int) : Prop := -2 ^ 63 ≤ d ∧ d < 2 ^ 63

theorem Chunk.increment_eq (hstep : g.step = word64 d) (hconst : g.constant = true → d = 0)
    (h₀ : 0 ≤ φ.pointer + d) (h₁ : φ.pointer + d < 2 ^ 64) :
    (g.increment φ : Int) = φ.pointer + d := by
  unfold Chunk.increment
  cases hc : g.constant with
  | true => simp [hconst hc]
  | false => simpa [hstep] using u64_add_word h₀ h₁

theorem Chunk.stride_eq (hstep : g.step = word64 d) (hconst : g.constant = true → d = 0)
    (hd : d < 2 ^ 63) (h : 0 < d) : (g.stride : Int) = blockStride objSize d := by
  have hvar : g.constant = false := by
    cases hc : g.constant with
    | true => exact absurd (hconst hc) h.ne'
    | false => rfl
  rw [Chunk.stride, Chunk.stepArg, hvar, if_neg (by simp), hstep]
  exact strideOf_blockStride h hd

theorem Tracks.bound_le_iff {x : Nat} (hstep : g.step = word64 d)
    (hconst : g.constant = true → d = 0) (hd : d < 2 ^ 63) (ht : Tracks m g x s φ p)
    (h₀ : 0 ≤ φ.pointer + d) : φ.bound ≤ g.increment φ ↔ (objSize : Int) ≤ p % objSize + d := by
  obtain ⟨base, hl, hptr, hbound, -⟩ := ht.held
  have hwithin := hl.within ht.coherent ht.current
  have hhi := m.hi_le
  have hs : (objSize : Int) = 4096 := rfl
  rw [hs] at hptr ⊢
  have hinc := g.increment_eq hstep hconst h₀ (by omega)
  omega

theorem Tracks.below (ht : Tracks m g x s φ p) (h : 0 ≤ p % objSize + d) :
    0 ≤ φ.pointer + d := by
  obtain ⟨base, -, hptr, -⟩ := ht.held
  omega

/-- The object the runtime has ready is that of the next position. -/
theorem Tracks.objIndex_next {x : Nat} (hstep : g.step = word64 d)
    (hconst : g.constant = true → d = 0) (hd : d < 2 ^ 63) (ht : Tracks m g x s φ p)
    (hp : InSpace p) (hq : InSpace (p + d)) (he : EntersAtStart objSize d p)
    (hne : (p + d) / objSize ≠ p / objSize) :
    (s.loopstate φ.loopId).objIndex = objectOf (p + d) := by
  have hentered := Lib.entered_block (by decide) (g.stride_eq hstep hconst hd) he hne
  have hpdiv := objectOf_eq hp.1
  have hqdiv := objectOf_eq hq.1
  rw [ht.objIndex]
  omega

theorem Tracks.next_within {x : Nat} (hstep : g.step = word64 d)
    (hconst : g.constant = true → d = 0) (hd : d < 2 ^ 63) (ht : Tracks m g x s φ p)
    (hcur : s.heap.Current (objectOf (p + d))) (hsame : (p + d) / objSize = p / objSize) :
    g.backEdge m s φ = (s, { φ with pointer := g.increment φ }) ∧
      Tracks m g x s { φ with pointer := g.increment φ } (p + d) := by
  have hs : (objSize : Int) = 4096 := rfl
  have hin : 0 ≤ p % objSize + d ∧ p % objSize + d < objSize ∧
      (p + d) % objSize = p % objSize + d := by
    rw [hs] at hsame ⊢
    omega
  have hbelow := ht.below hin.1
  have hlow := (ht.bound_le_iff hstep hconst hd hbelow).not.mpr (by omega)
  obtain ⟨base, hl, hptr, hbound, hregion, hmark⟩ := ht.held
  have hwithin := hl.within ht.coherent ht.current
  have hhi := m.hi_le
  have hinc := g.increment_eq hstep hconst hbelow (by omega)
  have hobj : objectOf (p + d) = objectOf p := by rw [objectOf, hsame, objectOf]
  refine ⟨by rw [Chunk.backEdge, if_neg hlow], ⟨ht.coherent, hcur,
    ⟨base, ?_, ?_, hbound, hregion, hmark⟩, ht.carmPtr, ?_, ht.startObjIndex, ht.stride⟩⟩
  · rwa [hobj]
  · show (g.increment φ : Int) = base + (p + d) % objSize
    omega
  · rw [hobj]
    exact ht.objIndex

theorem Tracks.next {x : Nat} (hstep : g.step = word64 d) (hconst : g.constant = true → d = 0)
    (hd : Signed64 d) (hx : 0 < d → (x : Int) ≤ p) (ht : Tracks m g x s φ p) (hp : InSpace p)
    (hq : InSpace (p + d)) (hcur : s.heap.Current (objectOf (p + d)))
    (he : EntersAtStart objSize d p) :
    Tracks m g x (g.backEdge m s φ).1 (g.backEdge m s φ).2 (p + d) ∧
      ∀ i, s.heap.Current i → (g.backEdge m s φ).1.heap.Current i := by
  by_cases hsame : (p + d) / objSize = p / objSize
  · obtain ⟨hback, ht'⟩ := ht.next_within hstep hconst hd.2 hcur hsame
    rw [hback]
    exact ⟨ht', fun _ => id⟩
  have hs : (objSize : Int) = 4096 := rfl
  obtain ⟨hpos, hzero, -⟩ := he hsame
  have hover := (ht.bound_le_iff hstep hconst hd.2 (by omega)).mpr (by
    rw [hs] at hsame ⊢
    omega)
  have hindex := ht.objIndex_next hstep hconst hd.2 hp hq he hsame
  obtain ⟨base, hn, hres⟩ := carmDerefLoop_next (w := g.mutable) ht.coherent ht.carmPtr hindex hcur
  have hwithin := hn.located.within hn.coherent (hn.current _ hcur)
  have hhi := m.hi_le
  have hsize := objSize_eq
  have hlater : ¬(s.loopstate φ.loopId).startObjIndex = objectOf (p + d) := by
    have hqdiv := objectOf_eq hq.1
    have := hx hpos
    rw [hs] at hsame hqdiv
    rw [ht.startObjIndex]
    show ¬x / 4096 = _
    omega
  rw [if_neg hlater] at hres
  rw [Chunk.backEdge, if_pos hover, Chunk.derefCall_eq]
  refine ⟨⟨hn.coherent, hn.current _ hcur, ⟨base, hn.located, ?_, ?_, ?_, hn.marked⟩,
    ?_, ?_, ?_, ?_⟩, hn.current⟩
  · show ((carmDerefLoop m g.mutable s φ.loopId).2 : Int) = base + (p + d) % objSize
    rw [hres, hzero, Int.add_zero]
  · show u64 ((carmDerefLoop m g.mutable s φ.loopId).2 + objSize) = base + objSize
    rw [hres]
    exact Nat.mod_eq_of_lt (by omega)
  all_goals simp only [hn.slot]
  · exact ht.carmPtr
  · rw [ht.stride]
    exact objectOf_add hq (hstep ▸ word64_lt)
  · exact ht.startObjIndex
  · exact ht.stride

-- ---------------------------------------------------------------------------
-- Whole walks
-- ---------------------------------------------------------------------------

variable {x : Nat} {body : Nat → Loops → Loops → Prop}

/-- Every position of the walk is a remote address. -/
abbrev RemoteWalk (x : Nat) (d : Int) (n : Nat) : Prop := ∀ k < n, InSpace (x + k * d)

theorem RemoteWalk.start (h : RemoteWalk x d n) (hn : 0 < n) : InSpace (x : Int) := by
  simpa using h 0 hn

theorem chunked_walk (hd : Signed64 d) (hid : s₀.loopIdCnt < maxLoops) (hc : Coherent m s₀.heap)
    (hconst : constant = true → d = 0) (hwalk : RemoteWalk x d n)
    (hcur : ∀ k < n, s₀.heap.Current (objectOf (x + k * d))) (hk : k < n)
    (hsteps : ∀ i < k, EntersAtStart objSize d (x + i * d))
    (hit : Chunk.Iteration m ⟨startAddr + x, word64 d, constant, w⟩ (Between m) s₀ k s φ) :
    Tracks m ⟨startAddr + x, word64 d, constant, w⟩ x s φ (x + k * d) ∧
      ∀ i, s₀.heap.Current i → s.heap.Current i := by
  induction hit with
  | enter h =>
    have hcur₀ := hcur 0 hk
    simp only [Nat.cast_zero, Int.zero_mul, Int.add_zero] at hcur₀ ⊢
    exact Tracks.enter hid hc (hwalk.start hk) hcur₀ rfl word64_lt h
  | body _ hb ih =>
    obtain ⟨ht, hkeep⟩ := ih hk hsteps
    exact ⟨ht.between hb, fun i hi => hb.current i (hkeep i hi)⟩
  | @next k s φ _ ih =>
    obtain ⟨ht, hkeep⟩ := ih (by omega) fun i hi => hsteps i (by omega)
    have hlater : 0 < d → (x : Int) ≤ x + k * d := fun hpos => by
      have := Int.mul_nonneg (Int.natCast_nonneg k) hpos.le
      omega
    have hpos := hwalk (k + 1) hk
    have hnext := hkeep _ (hcur (k + 1) hk)
    rw [Lib.next_position] at hpos hnext ⊢
    obtain ⟨ht', hkeep'⟩ := Tracks.next rfl hconst hd hlater ht (hwalk k (by omega)) hpos hnext
      (hsteps k (Nat.lt_succ_self k))
    exact ⟨ht', fun i hi => hkeep' i (hkeep i hi)⟩

-- ---------------------------------------------------------------------------
-- What may run in between
-- ---------------------------------------------------------------------------

theorem between_derefs (hd : Derefs m s.heap h i w base) :
    Between m loopId s { s with heap := h } where
  coherent := hd.keeps.coherent
  current := hd.keeps.current
  pinned _ _ hk hl _ := hd.steady.located hk hl
  slot := rfl
  marked hr := by
    show _ ∈ h.marks
    rwa [hd.keeps.alloc.marks]

theorem between_evacuate (hc : Coherent m s.heap) (ho : o < s.heap.objCount)
    (hfree : m.regionOf (s.heap.objs o).addr ∉ s.heap.marks) :
    Between m loopId s { s with heap := s.heap.evacuate m o } where
  coherent := (Heap.evacuate_keeps hc ho).coherent
  current := (Heap.evacuate_keeps hc ho).current
  pinned k base hk hl hr := by
    obtain ⟨p, hp, hpres, rfl⟩ := hl
    have hpo : p ≠ o := by
      rintro rfl
      exact hfree hr
    have hobj := Heap.evacuate_other (m := m) (h := s.heap) hpo
    exact ⟨p, Heap.evacuate_touches.backed (T := fun _ => False) hp, by rw [hobj]; exact hpres,
      by rw [hobj]⟩
  slot := rfl
  marked hr := by
    show _ ∈ (s.heap.evacuate m o).marks
    rwa [(Heap.evacuate_keeps hc ho).alloc.marks]

end TrackFM
