import TrackFM.Blocks
import TrackFM.Cache

/-!
# Scalar accesses and object boundaries

A guard translates the first byte of an access, so the bytes of the access have
to lie in one object. Blocks start at multiples of `CARM_ALLOC_SIZE_MULTIPLE`,
which is 8: enough for scalars of up to 8 bytes, not for those of 16.
-/

namespace TrackFM

variable {m : Manager} {s s' : State} {b : Block}

/-- Objects lie at the multiples of `objSize`, with the tag as without it. -/
def OneObject (a w : Nat) : Prop := ∀ i < w, (a + i) / objSize = a / objSize

/-- Every aligned scalar access to the block, up to 16 bytes wide, lies in one
object. -/
def Block.Unstraddled (b : Block) : Prop :=
  ∀ k ≤ 4, ∀ off, off % 2 ^ k = 0 → off + 2 ^ k ≤ b.size → OneObject (b.start + off) (2 ^ k)

theorem oneObject_iff (hw : 0 < w) : OneObject a w ↔ a % objSize + w ≤ objSize := by
  have ha := slot_add_off a
  have hs := objSize_eq
  constructor
  · intro h
    have hlast := h (w - 1) (by omega)
    have hend := slot_add_off (a + (w - 1))
    omega
  · intro h i hi
    have hai := slot_add_off (a + i)
    omega

theorem OneObject.guard (h : OneObject (startAddr + x) w) (hx : x + w ≤ 2 ^ 60) (hi : i < w) :
    (getCarmPtr (startAddr + x + i) mutable).objIndex =
        (getCarmPtr (startAddr + x) mutable).objIndex ∧
      (getCarmPtr (startAddr + x + i) mutable).offset =
        (getCarmPtr (startAddr + x) mutable).offset + i := by
  have hend := (oneObject_iff (show 0 < w by omega)).mp h
  have hs := objSize_eq
  rw [Nat.add_assoc, getCarmPtr_start (show x + i < 2 ^ 60 by omega),
    getCarmPtr_start (show x < 2 ^ 60 by omega)]
  simp only [startAddr, objSize] at *
  omega

-- ---------------------------------------------------------------------------
-- The alignment of the blocks
-- ---------------------------------------------------------------------------

structure AlignedHeap (s : State) : Prop where
  next : s.heap.aspaceStart % carmAllocSizeMultiple = 0
  start : ∀ b ∈ s.blocks, b.start % carmAllocSizeMultiple = 0
  size : ∀ b ∈ s.blocks, b.size % carmAllocSizeMultiple = 0

theorem AlignedHeap.init {ptrs : Nat → Option Nat} {mem : Lib.Mem UInt8} :
    AlignedHeap (init ptrs mem) where
  next := show startAddr % 8 = 0 by decide
  start := nofun
  size := nofun

theorem enforceSizeConstraints_mod (n : Nat) :
    enforceSizeConstraints n % carmAllocSizeMultiple = 0 := by
  simp only [enforceSizeConstraints, carmAllocSizeMultiple, u64]
  split
  · rfl
  · split <;> omega

theorem AlignedHeap.bump (hs : AlignedHeap s)
    (hb : s'.blocks = ⟨s.heap.aspaceStart, enforceSizeConstraints k, n, false⟩ :: s.blocks)
    (ha : s'.heap.aspaceStart = (s.heap.bump (enforceSizeConstraints k)).aspaceStart) :
    AlignedHeap s' := by
  have hk := enforceSizeConstraints_mod k
  have hnext := hs.next
  constructor
  · rw [ha]
    simp only [Heap.bump, u64, carmAllocSizeMultiple] at *
    omega
  · rw [hb, List.forall_mem_cons]
    exact ⟨hnext, hs.start⟩
  · rw [hb, List.forall_mem_cons]
    exact ⟨hk, hs.size⟩

theorem AlignedHeap.handed (hs : AlignedHeap s) (hwords : ∀ n, op.request = some n → n < 2 ^ 64)
    (hh : Handed s op s') : AlignedHeap s' := by
  cases hreq : op.request with
  | none =>
    obtain ⟨hb, htouch⟩ := hh.none hreq
    exact ⟨htouch.alloc.aspaceStart ▸ hs.next, hb ▸ hs.start, hb ▸ hs.size⟩
  | some n =>
    obtain ⟨size, hsize, hb, htouch⟩ := hh.some n hreq
    obtain rfl := hsize (hwords n hreq)
    exact hs.bump hb htouch.alloc.aspaceStart

theorem AlignedHeap.released (hs : AlignedHeap s) (hr : Released s op s') : AlignedHeap s' := by
  cases hf : op.frees with
  | none => exact hr.none hf ▸ hs
  | some ptr =>
    obtain ⟨hfree, hb⟩ := hr.some ptr hf
    refine ⟨(Heap.carmFree_frees hfree).aspaceStart ▸ hs.next, ?_, ?_⟩
    · simpa [hb, markFreed] using hs.start
    · simpa [hb, markFreed] using hs.size

abbrev Words (_ : State) (op : Op) : Prop := op.request = none ∨ op.IsRequest

theorem AlignedHeap.step (hs : AlignedHeap s) (hok : Words s op)
    (hr : TrackFM.step m s op = .ok s') :
    AlignedHeap s' := by
  -- only the product of `carm_calloc` can be longer than a word
  have hstep : (∀ n, op.request = some n → n < 2 ^ 64) → AlignedHeap s' := fun hwords => by
    obtain ⟨s₁, hh, hrel⟩ := step_parts hr
    exact (hs.handed hwords hh).released hrel
  cases op with
  | calloc elem elemSize =>
    obtain ⟨⟨h, ret⟩, hc, he⟩ := bind_ok.mp hr
    obtain rfl := Except.ok.inj he
    obtain ⟨rfl, ht⟩ := carmCalloc_ok hc
    refine hs.bump (n := elem * elemSize) ?_ ht.alloc.aspaceStart
    simp only [State.handOut, ht.alloc.allocationMap, bump_allocationMap]
  | malloc size =>
    refine hstep fun n hreq => ?_
    obtain rfl := Option.some.inj hreq
    exact hok.resolve_left (Option.some_ne_none size)
  | realloc ptr size =>
    refine hstep fun n hreq => ?_
    simp only [Op.request] at hreq
    split at hreq
    · obtain rfl := Option.some.inj hreq
      exact (hok.resolve_left (by simp_all [Op.request])).2
    · cases hreq
  | free ptr => exact hstep (by simp [Op.request])
  | read addr n => exact hstep (by simp [Op.request])
  | write addr n bytes => exact hstep (by simp [Op.request])
  | evacuate o => exact hstep (by simp [Op.request])

theorem Reach.aligned (hr : Reach m Words s) : AlignedHeap s :=
  hr.invariant (I := AlignedHeap) (fun _ _ => .init) fun _ _ _ hs hok => hs.step hok

-- ---------------------------------------------------------------------------
-- What the alignment is enough for
-- ---------------------------------------------------------------------------

theorem oneObject_of_aligned (ha : a % 8 = 0) (hk : k ≤ 3) (hoff : off % 2 ^ k = 0) :
    OneObject (a + off) (2 ^ k) := by
  have hs := objSize_eq
  have hmod := slot_add_off (a + off)
  rw [oneObject_iff (Nat.two_pow_pos k)]
  obtain rfl | rfl | rfl | rfl : k = 0 ∨ k = 1 ∨ k = 2 ∨ k = 3 := by omega
  all_goals omega

/-- The access of 16 bytes that straddles the first boundary in the block. -/
theorem straddles (ha : a % 16 = 8) :
    ((objSize - 8 - a % objSize) % 16 = 0) ∧ ¬OneObject (a + (objSize - 8 - a % objSize)) 16 := by
  have hs := objSize_eq
  have hmod := slot_add_off a
  rw [oneObject_iff (by decide)]
  have hend := slot_add_off (a + (objSize - 8 - a % objSize))
  omega

/-- No aligned scalar access straddles two objects exactly when the block starts
at a multiple of 16 or lies in one object. -/
theorem Block.unstraddled_iff (hstart : b.start % 8 = 0) (hsize : b.size % 8 = 0) :
    b.Unstraddled ↔ b.start % 16 = 0 ∨ b.start % objSize + b.size ≤ objSize := by
  have hs := objSize_eq
  have hmod := slot_add_off b.start
  constructor
  · intro h
    by_contra hno
    obtain ⟨hlow, hbeyond⟩ := not_or.mp hno
    have h8 : b.start % 16 = 8 := by omega
    obtain ⟨hoff, hstraddles⟩ := straddles h8
    exact hstraddles (h 4 (Nat.le_refl 4) _ hoff (by omega))
  · intro h k hk off hoff hin
    by_cases h3 : k ≤ 3
    · exact oneObject_of_aligned hstart h3 hoff
    · obtain rfl : k = 4 := by omega
      rw [oneObject_iff (by decide)]
      have hend := slot_add_off (b.start + off)
      rcases h with h16 | hone
      · omega
      · omega

/-- In every run, a block is safe for every aligned scalar access exactly when it
starts at a multiple of 16 or lies in one object. -/
theorem aligned_access_iff (hr : Reach m Words s) : ∀ b ∈ s.blocks,
    (b.Unstraddled ↔ b.start % 16 = 0 ∨ b.start % objSize + b.size ≤ objSize) := fun b hb =>
  Block.unstraddled_iff (hr.aligned.start b hb) (hr.aligned.size b hb)

theorem second_block : ∃ s, Reach cacheManager Words s ∧
    ⟨startAddr + 8, 8192, 8192, false⟩ ∈ s.blocks := by
  have hr : Reach cacheManager Words _ :=
    .next (.next (.init (fun _ => none) fun _ => 0)
      ⟨.malloc 8, .inr (show 8 < 2 ^ 64 by decide), rfl⟩)
      ⟨.malloc 8192, .inr (show 8192 < 2 ^ 64 by decide), rfl⟩
  exact ⟨_, hr, List.mem_cons_self ..⟩

theorem second_block_access : ∃ s, Reach cacheManager Words s ∧
    ∃ b ∈ s.blocks, b.start = startAddr + 8 ∧ b.size = 8192 ∧
      (b.Unstraddled ↔ b.start % 16 = 0 ∨ b.start % objSize + b.size ≤ objSize) := by
  obtain ⟨s, hr, hb⟩ := second_block
  exact ⟨s, hr, _, hb, rfl, rfl, aligned_access_iff hr _ hb⟩

/-- Its 16 bytes at offset 4080 lie half in the first object and half in the
second. -/
theorem wide_access_straddles : ¬∀ m s, Reach m Words s → ∀ b ∈ s.blocks, b.Unstraddled := by
  intro h
  obtain ⟨s, hr, hb⟩ := second_block
  have haccess := h _ s hr _ hb 4 (by decide) 4080 (by decide) (by decide)
  exact (straddles (a := startAddr + 8) (by decide)).2 haccess

end TrackFM
