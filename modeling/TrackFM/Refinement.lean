import TrackFM.Intact

/-!
# The far-memory heap is a flat memory

In a run whose blocks stay within the slots in use, a guarded access reaches
the current local copy of its bytes on the fast path as on the slow path, two
live bytes are never in one place, and what was written is what is read, across
frees, recycling and evacuations.
-/

namespace TrackFM

open Lib (blit blit_in blit_out)
open Heap (Coherent Keeps Writes Usable Located Writable ptrDeref)

variable {m : Manager} {s s' : State} {h h' : Heap}

-- ---------------------------------------------------------------------------
-- Accesses
-- ---------------------------------------------------------------------------

/-- The bytes of an access are live and lie in one object. -/
structure InObject (s : State) (a n : Nat) : Prop where
  pos : 0 < n
  live : ∀ j < n, s.Live (a + j)
  within : (a - startAddr) % objSize + n ≤ objSize

theorem InObject.byte (h : s.Live a) : InObject s a 1 where
  pos := Nat.one_pos
  live j hj := by
    obtain rfl := Nat.lt_one_iff.mp hj
    exact h
  within := Nat.mod_lt _ (by decide)

theorem guardedWrite_writes (hc : Coherent m h) (hi : h.Current (x / objSize))
    (hn : x % objSize + n ≤ objSize) :
    Writes m h (guardedWrite m h (startAddr + x) n f) (startAddr + x) n f := by
  have hx := hi.lt_start hc
  obtain ⟨base, he, hd⟩ := Heap.ptrDeref_spec (p := getCarmPtr (startAddr + x) true) hc
    (by rw [getCarmPtr_start hx]; exact hi)
  rw [getCarmPtr_start hx] at he hd
  have hw := Heap.store_slot (f := f) hd.keeps.coherent (hd.keeps.current _ hi) (hd.writable rfl) hn
  simp only [guardedWrite, getCarmPtr_start hx, he]
  exact hd.keeps.trans_writes hc hw

theorem guardedRead_view (hc : Coherent m h) (hi : h.Current (x / objSize))
    (hj : x % objSize + j < objSize) :
    (guardedRead m h (startAddr + x)).1.mem ((guardedRead m h (startAddr + x)).2 + j) =
      h.view m (startAddr + x + j) := by
  have hx := hi.lt_start hc
  have hsize := objSize_eq
  have hslot : (x + j) / objSize = x / objSize := by
    simp only [objSize] at *
    omega
  have hoff : (x + j) % objSize = x % objSize + j := by
    simp only [objSize] at *
    omega
  obtain ⟨base, he, hd⟩ := Heap.ptrDeref_spec (p := getCarmPtr (startAddr + x) false) hc
    (by rw [getCarmPtr_start hx]; exact hi)
  simp only [getCarmPtr_start hx] at he hd
  have hxj : x + j < 2 ^ 60 := Heap.Current.lt_start hc (hslot.symm ▸ hi)
  simp only [guardedRead, getCarmPtr_start hx, he]
  rw [Nat.add_assoc base, ← hd.located.byteAt, hd.keeps.byteAt _ _ hi hj, Nat.add_assoc startAddr,
    Heap.view_start hxj, hslot, hoff]

theorem Intact.guardedRead (hs : Intact m s) (ha : s.Live a) :
    Keeps m s.heap (guardedRead m s.heap a).1 := by
  obtain ⟨x, hx, rfl, -, hcur⟩ := hs.live ha
  obtain ⟨base, -, hd⟩ := Heap.ptrDeref_spec (p := getCarmPtr (startAddr + x) false) hs.coherent
    (by rw [getCarmPtr_start hx]; exact hcur)
  exact hd.keeps

theorem Intact.guardedWrite (hs : Intact m s) (hin : InObject s a n) :
    Writes m s.heap (guardedWrite m s.heap a n f) a n f := by
  obtain ⟨x, -, rfl, -, hcur⟩ := hs.live (hin.live 0 hin.pos)
  have hwithin := hin.within
  rw [Nat.add_sub_cancel_left] at hwithin
  exact guardedWrite_writes hs.coherent hcur hwithin

-- ---------------------------------------------------------------------------
-- The invariant
-- ---------------------------------------------------------------------------

structure Refines (m : Manager) (s : State) : Prop where
  intact : Intact m s
  stored : ∀ a v, s.Live a → s.written a = some v → s.heap.view m a = v

theorem Refines.init {ptrs : Nat → Option Nat} {mem : Lib.Mem UInt8} : Refines m (init ptrs mem) :=
  ⟨.init, nofun⟩

theorem Refines.keeps (hs : Refines m s) (hk : Keeps m s.heap h') :
    Refines m { s with heap := h' } :=
  ⟨hs.intact.keeps hk, fun a v ha hw =>
    (hk.view hs.intact.coherent (hs.intact.usable ha)).trans (hs.stored a v ha hw)⟩

theorem Refines.writes (hs : Refines m s) (hw : Writes m s.heap h' d n f) :
    Refines m ⟨h', s.blocks, blit s.written d n fun j => some (f j)⟩ := by
  refine ⟨hs.intact.writes hw, fun a v ha hwr => ?_⟩
  have hwr : blit s.written d n (fun j => some (f j)) a = some v := hwr
  refine (hw.view a (hs.intact.usable ha)).trans ?_
  by_cases hr : d ≤ a ∧ a < d + n
  · rw [blit_in hr.1 hr.2] at hwr ⊢
    exact Option.some.inj hwr
  · rw [blit_out (by omega)] at hwr ⊢
    exact hs.stored a v ha hwr

theorem Refines.handOut (hs : Refines m s)
    (hn : s.heap.aspaceStart + rounded n ≤ startAddr + s.heap.totalObjCnt * objSize) :
    Refines m (s.handOut (s.heap.bump (rounded n)) s.heap.aspaceStart n fun _ => none) := by
  refine ⟨hs.intact.handOut hn, fun a v ha hwr => ?_⟩
  obtain ⟨b, hb, hlive, hcov⟩ := ha
  simp only [State.handOut, bump_allocationMap, List.mem_cons] at hb hwr
  by_cases hr : s.heap.aspaceStart ≤ a ∧ a < s.heap.aspaceStart + rounded n
  · rw [blit_in hr.1 hr.2] at hwr
    cases hwr
  · rw [blit_out (by omega)] at hwr
    rcases hb with rfl | hb
    · exact absurd hcov hr
    · exact hs.stored a v ⟨b, hb, hlive, hcov⟩ hwr

theorem Refines.calloc (hs : Refines m s)
    (hn : s.heap.aspaceStart + rounded (elem * elemSize) ≤
      startAddr + s.heap.totalObjCnt * objSize)
    (hr : s.heap.carmCalloc m elem elemSize = .ok (h', r)) :
    Refines m (s.handOut h' r (elem * elemSize) fun _ => some 0) := by
  obtain ⟨rfl, hw⟩ := hs.intact.calloc hn hr
  have hs₁ := (hs.handOut hn).writes hw
  have hsame : s.handOut h' s.heap.aspaceStart (elem * elemSize) (fun _ => some 0) =
      ⟨h', (s.handOut (s.heap.bump (rounded (elem * elemSize))) s.heap.aspaceStart (elem * elemSize)
        fun _ => none).blocks, blit (s.handOut (s.heap.bump (rounded (elem * elemSize)))
          s.heap.aspaceStart (elem * elemSize) fun _ => none).written s.heap.aspaceStart
          (rounded (elem * elemSize)) fun _ => some 0⟩ := by
    simp only [State.handOut, hw.alloc.allocationMap, bump_allocationMap, Lib.blit_over]
  rw [hsame]
  exact hs₁

theorem live_of_free (ha : (s.free h' ptr).Live a) : s.Live a := by
  obtain ⟨b, hb, hlive, hcov⟩ := ha
  obtain ⟨c, hc, rfl⟩ := List.mem_map.mp hb
  rw [Block.Covers, Block.stop, Block.mark_start, Block.mark_size] at hcov
  refine ⟨c, hc, ?_, hcov⟩
  cases hf : c.freed with
  | false => rfl
  | true =>
    rw [Block.mark_freed.mpr (.inl hf)] at hlive
    cases hlive

theorem Refines.free (hs : Refines m s) (hb : b ∈ s.blocks) (hlive : b.freed = false)
    (hr : s.heap.carmFree b.start = .ok h') (hroom : h'.totalObjCnt ≤ totalObjects) :
    Refines m (s.free h' b.start) := by
  have hi := hs.intact.free hb hlive hr hroom
  have hsp := hs.intact.spares hb hlive hr hroom
  refine ⟨hi, fun a v ha hwr => ?_⟩
  have ha₀ := live_of_free ha
  obtain ⟨x, hx, rfl, -, hcur⟩ := hs.intact.live ha₀
  obtain ⟨y, -, he, hfreed, -⟩ := hi.live ha
  obtain rfl : x = y := Nat.add_left_cancel he
  rw [← hs.stored _ v ha₀ hwr, Heap.view_start hx, Heap.view_start hx]
  exact hsp.byteAt _ _ ⟨hcur.lt, hfreed⟩

-- ---------------------------------------------------------------------------
-- Runs
-- ---------------------------------------------------------------------------

structure InRange (s : State) : Prop where
  within : s.heap.aspaceStart ≤ startAddr + s.heap.totalObjCnt * objSize
  slots : s.heap.totalObjCnt ≤ totalObjects

theorem InRange.of_step (h : step m s op = .ok s₁) (hin : InRange s₁) :
    ∀ s', step m s op = .ok s' → InRange s' := by
  intro s' h'
  rw [h] at h'
  cases h'
  exact hin

structure Program (s : State) (op : Op) : Prop where
  small : ∀ n, op.request = some n → n < 2 ^ 31
  once : FreesOnce s op
  access : ∀ a n, op.accesses = some (a, n) → InObject s a n
  object : ∀ o, op = .evacuate o → o < s.heap.objCount
  plain : ∀ ptr size, op ≠ .realloc ptr size

structure Proper (m : Manager) (s : State) (op : Op) : Prop where
  program : Program s op
  inRange : ∀ s', step m s op = .ok s' → InRange s'

theorem Refines.step (hs : Refines m s) (hok : Proper m s op) (hr : step m s op = .ok s') :
    Refines m s' := by
  have hin := hok.inRange s' hr
  have hsmall : ∀ {n}, n < 2 ^ 31 → enforceSizeConstraints n = rounded n := fun hn =>
    enforceSizeConstraints_eq (by simp only [rounded]; omega)
  -- the block of a step that stays in range fits
  have hfits : ∀ n, op.request = some n → op.frees = none →
      s.heap.aspaceStart + rounded n ≤ startAddr + s.heap.totalObjCnt * objSize := by
    intro n hreq hf
    obtain ⟨h₁, h₂⟩ := hs.intact.accounted.request hr hreq (hok.program.small n hreq)
    rw [← h₁, ← h₂ hf]
    exact hin.within
  cases op with
  | malloc size =>
    obtain rfl := Except.ok.inj hr
    rw [hsmall (hok.program.small size rfl)]
    exact hs.handOut (hfits size rfl rfl)
  | calloc elem elemSize =>
    obtain ⟨⟨h, ret⟩, hc, he⟩ := bind_ok.mp hr
    obtain rfl := Except.ok.inj he
    exact hs.calloc (hfits _ rfl rfl) hc
  | realloc ptr size => exact absurd rfl (hok.program.plain ptr size)
  | free ptr =>
    obtain ⟨h, hf, he⟩ := bind_ok.mp hr
    obtain rfl := Except.ok.inj he
    have ht := hs.intact.accounted.tiled
    by_cases hrec : s.heap.allocationMap ptr = 0
    · rw [Heap.carmFree_unrecorded hrec] at hf
      cases hf
      rw [State.free, markFreed_unrecorded (ht.not_start hrec)]
      exact hs
    · obtain ⟨b, hb, rfl⟩ := ht.unrecorded ptr hrec
      exact hs.free hb (hok.program.once _ rfl b hb rfl) hf hin.slots
  | read addr n =>
    obtain rfl := Except.ok.inj hr
    have hin := hok.program.access addr n rfl
    exact hs.keeps (hs.intact.guardedRead (hin.live 0 hin.pos))
  | write addr n bytes =>
    obtain rfl := Except.ok.inj hr
    exact hs.writes (hs.intact.guardedWrite (hok.program.access addr n rfl))
  | evacuate o =>
    obtain rfl := Except.ok.inj hr
    exact hs.keeps (Heap.evacuate_keeps hs.intact.coherent (hok.program.object o rfl))

theorem Refines.returns (hs : Refines m s) (hok : Program s op) :
    ∃ s', TrackFM.step m s op = .ok s' := by
  cases op with
  | malloc size => exact ⟨_, rfl⟩
  | calloc elem elemSize =>
    obtain ⟨h', hcalloc⟩ := hs.intact.calloc_returns (m := m) (hok.small _ rfl)
    exact ⟨_, bind_ok.mpr ⟨_, hcalloc, rfl⟩⟩
  | realloc ptr size => exact absurd rfl (hok.plain ptr size)
  | free ptr =>
    obtain ⟨h', hfree, -⟩ := carmFree_accounts hs.intact.accounted (hok.once ptr rfl)
    exact ⟨_, bind_ok.mpr ⟨h', hfree, rfl⟩⟩
  | read addr n => exact ⟨_, rfl⟩
  | write addr n bytes => exact ⟨_, rfl⟩
  | evacuate o => exact ⟨_, rfl⟩

structure FlatMemory (m : Manager) (s : State) : Prop where
  /-- A read returns what was last written. -/
  read : ∀ a n, InObject s a n → ∀ j < n, ∀ v, s.written (a + j) = some v →
    (guardedRead m s.heap a).1.mem ((guardedRead m s.heap a).2 + j) = v
  /-- The translated address is that of the byte in the current local copy, and
  an access that writes has it written back. -/
  translated : ∀ a, s.Live a → ∀ w, ∃ base,
    (ptrDeref m s.heap (getCarmPtr a w)).2 = base + (a - startAddr) % objSize ∧
    (ptrDeref m s.heap (getCarmPtr a w)).1.Located ((a - startAddr) / objSize) base ∧
    (w = true → (ptrDeref m s.heap (getCarmPtr a w)).1.Writable ((a - startAddr) / objSize) base)
  /-- No two live bytes are translated to one place. -/
  injective : ∀ a b, s.Live a → s.Live b → a ≠ b → ∀ v w,
    (ptrDeref m (ptrDeref m s.heap (getCarmPtr a v)).1 (getCarmPtr b w)).2 ≠
      (ptrDeref m s.heap (getCarmPtr a v)).2
  /-- An evacuation changes no live byte. -/
  evacuated : ∀ o < s.heap.objCount, ∀ a, s.Live a →
    (s.heap.evacuate m o).view m a = s.heap.view m a
  /-- Every step the program may take returns. -/
  returns : ∀ op, Program s op → ∃ s', step m s op = .ok s'

theorem Intact.deref (hs : Intact m s) (ha : s.Live a) (hk : Keeps m s.heap h) : ∃ x < 2 ^ 60,
    a = startAddr + x ∧ s.heap.Current (x / objSize) ∧ ∃ base,
      (ptrDeref m h (getCarmPtr a w)).2 = base + x % objSize ∧
      Heap.Derefs m h (ptrDeref m h (getCarmPtr a w)).1 (x / objSize) w base := by
  obtain ⟨x, hx, rfl, -, hcur⟩ := hs.live ha
  obtain ⟨base, he, hd⟩ := Heap.ptrDeref_spec (p := getCarmPtr (startAddr + x) w) hk.coherent
    (by rw [getCarmPtr_start hx]; exact hk.current _ hcur)
  simp only [getCarmPtr_start hx] at he hd ⊢
  exact ⟨x, hx, rfl, hcur, base, he, hd⟩

theorem Refines.flat (hs : Refines m s) : FlatMemory m s where
  read a n hin j hj v hv := by
    have hi := hs.intact
    obtain ⟨x, -, rfl, -, hcur⟩ := hi.live (hin.live 0 hin.pos)
    have hwithin := hin.within
    rw [Nat.add_sub_cancel_left] at hwithin
    rw [guardedRead_view hi.coherent hcur (by omega)]
    exact hs.stored _ v (hin.live j hj) hv
  translated a ha w := by
    obtain ⟨x, -, rfl, -, base, he, hd⟩ := hs.intact.deref (w := w) ha (.refl hs.intact.coherent)
    rw [Nat.add_sub_cancel_left]
    exact ⟨base, he, hd.located, hd.writable⟩
  injective a b ha hb hne v w := by
    have hi := hs.intact
    obtain ⟨x, -, rfl, hxc, base, he, hd⟩ := hi.deref (w := v) ha (.refl hi.coherent)
    obtain ⟨y, -, rfl, hyc, base', he', hd'⟩ := hi.deref (w := w) hb hd.keeps
    rw [he, he']
    have hk := hd.keeps.trans hd'.keeps
    -- both copies are there after the second access
    have hl := hd'.steady.located (hd.keeps.current _ hxc) hd.located
    have hsize := objSize_eq
    have hx := slot_add_off x
    have hy := slot_add_off y
    by_cases hslot : x / objSize = y / objSize
    · have hbase : base = base' := Heap.Located.eq (hslot ▸ hl) hd'.located
      omega
    · have hap := Heap.Located.apart hk.coherent (hk.current _ hxc) (hk.current _ hyc) hslot hl
        hd'.located
      omega
  evacuated o ho a ha := (Heap.evacuate_keeps hs.intact.coherent ho).view hs.intact.coherent
    (hs.intact.usable ha)
  returns _ hok := hs.returns hok

theorem Reach.refines (hr : Reach m (Proper m) s) : Refines m s :=
  hr.invariant (I := Refines m) (fun _ _ => .init) fun _ _ _ hs hok => hs.step hok

/-- Every run in range leaves a flat memory. -/
theorem heap_refines_flat_memory (hr : Reach m (Proper m) s) : FlatMemory m s := hr.refines.flat

theorem heap_refines_flat_memory_calloc : ∃ s, Reach cacheManager (Proper cacheManager) s ∧
    s.Live (startAddr + 8) ∧ s.written (startAddr + 8) = some 7 ∧ FlatMemory cacheManager s := by
  have hlive : ∀ h w, State.Live ⟨h, [⟨startAddr, 16, 16, false⟩], w⟩ (startAddr + 8) := fun _ _ =>
    ⟨_, List.mem_singleton_self _, rfl, by decide⟩
  have hr : Reach cacheManager (Proper cacheManager) _ :=
    .next (.next (.next (.init (fun _ => none) fun _ => 0)
      ⟨.calloc 1 16, ⟨⟨by rintro n ⟨⟩; decide, nofun, nofun, nofun, nofun⟩,
        .of_step rfl ⟨by decide, by decide⟩⟩, rfl⟩)
      ⟨.write (startAddr + 8) 1 fun _ => 7, ⟨⟨nofun, nofun, by
          rintro a n ⟨⟩
          exact .byte (hlive _ _), nofun, nofun⟩,
        .of_step rfl ⟨by decide, by decide⟩⟩, rfl⟩)
      ⟨.evacuate 0, ⟨⟨nofun, nofun, nofun, by rintro o ⟨⟩; decide, nofun⟩,
        .of_step rfl ⟨by decide, by decide⟩⟩, rfl⟩
  exact ⟨_, hr, hlive _ _, rfl, heap_refines_flat_memory hr⟩
-- ---------------------------------------------------------------------------
-- Runs within the initial slots
-- ---------------------------------------------------------------------------

structure Contained (m : Manager) (s : State) (op : Op) : Prop where
  program : Program s op
  initial : ∀ s', step m s op = .ok s' →
    s'.heap.aspaceStart ≤ startAddr + s'.heap.numObjects * objSize

/-- Each of these slots is recycled at most once, so the slots stay in range. -/
theorem Contained.inRange (hs : Accounted s) (hnum : s.heap.numObjects = kWorkingSetSize / objSize)
    (hok : Contained m s op) (hr : step m s op = .ok s') : Accounted s' ∧ InRange s' := by
  have hnum' : s'.heap.numObjects = kWorkingSetSize / objSize := (step_numObjects hr).trans hnum
  have hend := hok.initial s' hr
  have hs' : Accounted s' := by
    refine hs.step ⟨fun n hreq => ?_, hok.program.once⟩ hr
    rw [← (hs.request hr hreq (hok.program.small n hreq)).1]
    rw [hnum'] at hend
    exact hend.trans (by decide)
  have hext := hs'.extent hend
  rw [hnum'] at hext
  refine ⟨hs', hend.trans ?_, hext.trans (by decide)⟩
  exact Nat.add_le_add_left
    (Nat.mul_le_mul_right _ (hs'.counts.extent ▸ Nat.le_add_right ..)) _

theorem Reach.of_contained (hr : Reach m (Contained m) s) : Reach m (Proper m) s := by
  have hall : Reach m (Proper m) s ∧ Accounted s ∧
      s.heap.numObjects = kWorkingSetSize / objSize := by
    induction hr with
    | init ptrs mem => exact ⟨.init ptrs mem, .init, rfl⟩
    | next _ hn ih =>
      obtain ⟨op, hok, hstep⟩ := hn
      obtain ⟨hreach, hacc, hnum⟩ := ih
      refine ⟨.next hreach ⟨op, ⟨hok.program, fun s' hs' => (hok.inRange hacc hnum hs').2⟩, hstep⟩,
        (hok.inRange hacc hnum hstep).1, (step_numObjects hstep).trans hnum⟩
  exact hall.1

end TrackFM
