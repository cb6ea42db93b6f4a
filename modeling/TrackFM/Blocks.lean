import TrackFM.Machine

/-!
# The blocks handed out

Seen from the allocator a step is at most one request followed by at most one
free. As long as the requests fit, the blocks stay disjoint, in order, below
the bump pointer, and recorded with their sizes.
-/

namespace TrackFM

open Heap

variable {m : Manager} {h h' : Heap} {s s' : State}

/-- The part of a step before its free: a block is handed out if one is asked
for, and slots may be backed. -/
structure Handed (s : State) (op : Op) (s' : State) : Prop where
  none : op.request = none → s'.blocks = s.blocks ∧ Touches (fun _ => True) s.heap s'.heap
  some : ∀ n, op.request = some n → ∃ size, (n < 2 ^ 64 → size = enforceSizeConstraints n) ∧
    s'.blocks = ⟨s.heap.aspaceStart, size, n, false⟩ :: s.blocks ∧
    Touches (fun _ => True) (s.heap.bump size) s'.heap

structure Released (s : State) (op : Op) (s' : State) : Prop where
  none : op.frees = none → s' = s
  some : ∀ ptr, op.frees = some ptr →
    s.heap.carmFree ptr = .ok s'.heap ∧ s'.blocks = markFreed ptr s.blocks

theorem carmCalloc_ok (hr : carmCalloc m h elem elemSize = .ok (h', ret)) :
    ret = h.aspaceStart ∧ Touches (fun _ => True)
      (h.bump (enforceSizeConstraints (u64 (elem * elemSize)))) h' := by
  obtain ⟨⟨h₁, r⟩, hset, he⟩ := bind_ok.mp hr
  cases he
  exact ⟨rfl, carmMemset_touches hset⟩

theorem bump_allocationMap : (h.bump size).allocationMap h.aspaceStart = size := by
  simp [bump]

theorem carmRealloc_untagged (htag : ¬checkCarmObject ptr) :
    h.carmRealloc m ptr n = .ok (h, ptr) := by
  unfold carmRealloc
  simp only [htag, Bool.not_false, if_true]
  rfl

theorem carmRealloc_zero (htag : checkCarmObject ptr) :
    h.carmRealloc m ptr 0 = (do let h ← h.carmFree ptr; return (h, 0)) := by
  unfold carmRealloc
  simp only [htag, Bool.not_true, Bool.false_eq_true, if_false, if_true]

theorem carmRealloc_pos (htag : checkCarmObject ptr) (hn : n ≠ 0) :
    h.carmRealloc m ptr n = (do
      let (h₁, _) ← carmMemcpy m (h.bump (enforceSizeConstraints n)) h.aspaceStart ptr
        ((h.bump (enforceSizeConstraints n)).allocationMap ptr)
      let h₂ ← h₁.carmFree ptr
      return (h₂, h.aspaceStart)) := by
  unfold carmRealloc
  simp only [htag, Bool.not_true, Bool.false_eq_true, if_false, if_neg hn, carmRemoteMalloc]

theorem Handed.of_none (hreq : op.request = .none) : Handed s op s :=
  ⟨fun _ => ⟨rfl, .refl⟩, fun _ hn => nomatch hreq.symm.trans hn⟩

theorem Handed.realloc (htag : checkCarmObject ptr) (hn : n ≠ 0)
    (ht : Touches (fun _ => True) (s.heap.bump (enforceSizeConstraints n)) h₁) :
    Handed s (.realloc ptr n)
      ⟨h₁, ⟨s.heap.aspaceStart, enforceSizeConstraints n, n, false⟩ :: s.blocks, s.written⟩ := by
  have hreq : (Op.realloc ptr n).request = .some n := by simp [Op.request, htag, hn]
  refine ⟨fun h => (nomatch hreq.symm.trans h), fun k hk => ?_⟩
  obtain rfl := Option.some.inj (hreq.symm.trans hk)
  exact ⟨_, fun _ => rfl, rfl, ht⟩

/-- A step hands out at most one block, then frees at most one. -/
theorem step_parts (hr : step m s op = .ok s') : ∃ s₁, Handed s op s₁ ∧ Released s₁ op s' := by
  cases op with
  | malloc size =>
    obtain rfl := Except.ok.inj hr
    refine ⟨_, ⟨nofun, ?_⟩, ⟨fun _ => rfl, nofun⟩⟩
    rintro n ⟨⟩
    refine ⟨_, fun _ => rfl, ?_, .refl⟩
    simp only [State.handOut, bump_allocationMap]
  | calloc elem elemSize =>
    obtain ⟨⟨h, ret⟩, hc, he⟩ := bind_ok.mp hr
    obtain rfl := Except.ok.inj he
    obtain ⟨rfl, ht⟩ := carmCalloc_ok hc
    refine ⟨_, ⟨nofun, ?_⟩, ⟨fun _ => rfl, nofun⟩⟩
    rintro n ⟨⟩
    refine ⟨_, fun hn => by rw [u64, Nat.mod_eq_of_lt hn], ?_, ht⟩
    simp only [State.handOut, ht.alloc.allocationMap, bump_allocationMap]
  | realloc ptr size =>
    obtain ⟨⟨h, ret⟩, hc, he⟩ := bind_ok.mp hr
    by_cases htag : checkCarmObject ptr
    case neg =>
      rw [carmRealloc_untagged htag] at hc
      cases hc
      simp only [htag, Bool.not_false, if_true] at he
      obtain rfl := Except.ok.inj he
      exact ⟨_, .of_none (by simp [Op.request, htag]), ⟨fun _ => rfl, by simp [Op.frees, htag]⟩⟩
    simp only [htag, Bool.not_true, Bool.false_eq_true, if_false] at he
    by_cases hsize : size = 0
    · subst hsize
      rw [carmRealloc_zero htag] at hc
      obtain ⟨h₁, hf, hc⟩ := bind_ok.mp hc
      cases hc
      obtain rfl := Except.ok.inj he
      refine ⟨s, .of_none (by simp [Op.request]), ⟨by simp [Op.frees, htag], ?_⟩⟩
      simp only [Op.frees, htag, if_true, Option.some.injEq]
      rintro _ rfl
      exact ⟨hf, rfl⟩
    · rw [carmRealloc_pos htag hsize] at hc
      rw [if_neg hsize] at he
      obtain ⟨⟨h₁, r⟩, hcopy, hc⟩ := bind_ok.mp hc
      obtain ⟨h₂, hf, hc⟩ := bind_ok.mp hc
      cases hc
      obtain rfl := Except.ok.inj he
      have ht := carmMemcpy_touches hcopy
      have hmap : h.allocationMap s.heap.aspaceStart = enforceSizeConstraints size := by
        rw [(carmFree_frees hf).allocationMap, ht.alloc.allocationMap]
        exact bump_allocationMap
      refine ⟨_, .realloc htag hsize ht, ⟨by simp [Op.frees, htag], ?_⟩⟩
      simp only [Op.frees, htag, if_true, Option.some.injEq]
      rintro _ rfl
      exact ⟨hf, by simp only [State.free, State.handOut, hmap]⟩
  | free ptr =>
    obtain ⟨h, hf, he⟩ := bind_ok.mp hr
    obtain rfl := Except.ok.inj he
    refine ⟨s, .of_none rfl, ⟨nofun, ?_⟩⟩
    rintro _ ⟨⟩
    exact ⟨hf, rfl⟩
  | read addr n =>
    obtain rfl := Except.ok.inj hr
    refine ⟨_, ?_, ⟨fun _ => rfl, nofun⟩⟩
    exact ⟨fun _ => ⟨rfl, ptrDeref_touches.mono fun _ _ => trivial⟩, nofun⟩
  | write addr n bytes =>
    obtain rfl := Except.ok.inj hr
    refine ⟨_, ?_, ⟨fun _ => rfl, nofun⟩⟩
    exact ⟨fun _ => ⟨rfl, (ptrDeref_touches.mono fun _ _ => trivial).trans store_touches⟩, nofun⟩
  | evacuate o =>
    obtain rfl := Except.ok.inj hr
    refine ⟨_, ?_, ⟨fun _ => rfl, nofun⟩⟩
    exact ⟨fun _ => ⟨rfl, evacuate_touches⟩, nofun⟩

theorem step_abort (hr : step m s op = .error .abort) :
    ∃ s₁ ptr, Handed s op s₁ ∧ op.frees = some ptr ∧ s₁.heap.carmFree ptr = .error .abort := by
  cases op with
  | malloc size => cases hr
  | calloc elem elemSize =>
    exfalso
    rcases bind_error.mp hr with h | ⟨_, -, h⟩
    · rcases bind_error.mp h with h | ⟨_, -, h⟩
      · exact carmMemset_no_abort h
      · cases h
    · cases h
  | realloc ptr size =>
    have hc : carmRealloc m s.heap ptr size = .error .abort := by
      rcases bind_error.mp hr with h | ⟨⟨h, ret⟩, -, he⟩
      · exact h
      · by_cases htag : checkCarmObject ptr <;> by_cases hsize : size = 0 <;>
          simp [htag, hsize, pure, Except.pure] at he
    by_cases htag : checkCarmObject ptr
    case neg =>
      rw [carmRealloc_untagged htag] at hc
      cases hc
    by_cases hsize : size = 0
    · subst hsize
      rw [carmRealloc_zero htag] at hc
      rcases bind_error.mp hc with h | ⟨_, -, h⟩
      · exact ⟨s, ptr, .of_none (by simp [Op.request]), by simp [Op.frees, htag], h⟩
      · cases h
    · rw [carmRealloc_pos htag hsize] at hc
      rcases bind_error.mp hc with h | ⟨⟨h₁, r⟩, hcopy, h⟩
      · exact absurd h carmMemcpy_no_abort
      · rcases bind_error.mp h with h | ⟨_, -, h⟩
        · exact ⟨_, ptr, .realloc htag hsize (carmMemcpy_touches hcopy), by simp [Op.frees, htag], h⟩
        · cases h
  | free ptr =>
    rcases bind_error.mp hr with h | ⟨_, -, h⟩
    · exact ⟨s, ptr, .of_none rfl, rfl, h⟩
    · cases h
  | read addr n => cases hr
  | write addr n bytes => cases hr
  | evacuate o => cases hr

-- ---------------------------------------------------------------------------
-- The tiling
-- ---------------------------------------------------------------------------

/-- The blocks lie one above the other, newest first, below the bump pointer. -/
structure Tiled (s : State) : Prop where
  ordered : s.blocks.Pairwise fun b c => c.stop ≤ b.start
  above : ∀ b ∈ s.blocks, startAddr ≤ b.start
  nonempty : ∀ b ∈ s.blocks, 0 < b.size
  below : ∀ b ∈ s.blocks, b.stop ≤ s.heap.aspaceStart
  recorded : ∀ b ∈ s.blocks, s.heap.allocationMap b.start = b.size
  asked : ∀ b ∈ s.blocks, b.asked ≤ b.size
  unrecorded : ∀ a, s.heap.allocationMap a ≠ 0 → ∃ b ∈ s.blocks, b.start = a
  start_le : startAddr ≤ s.heap.aspaceStart

theorem Tiled.init {ptrs : Nat → Option Nat} {mem : Lib.Mem UInt8} : Tiled (init ptrs mem) where
  ordered := .nil
  above := nofun
  nonempty := nofun
  below := nofun
  recorded := nofun
  asked := nofun
  unrecorded _ h := absurd rfl h
  start_le := Nat.le_refl _

theorem Tiled.unique (ht : Tiled s) (hb : b ∈ s.blocks) (hc : c ∈ s.blocks)
    (hba : b.Covers a) (hca : c.Covers a) : b = c := by
  have hsep : b = c ∨ b.stop ≤ c.start ∨ c.stop ≤ b.start :=
    List.Pairwise.forall_of_forall_of_flip
      (R := fun b c : Block => b = c ∨ b.stop ≤ c.start ∨ c.stop ≤ b.start) (fun _ _ => .inl rfl)
      (ht.ordered.imp fun h => .inr (.inr h)) (ht.ordered.imp fun h => .inr (.inl h)) hb hc
  refine hsep.resolve_right fun h => ?_
  obtain ⟨h₁, h₂⟩ := hba
  obtain ⟨h₃, h₄⟩ := hca
  omega

theorem Tiled.not_start (ht : Tiled s) (hz : s.heap.allocationMap ptr = 0) :
    ∀ b ∈ s.blocks, b.start ≠ ptr := by
  rintro b hb rfl
  have := ht.nonempty b hb
  rw [ht.recorded b hb] at hz
  omega

theorem Tiled.start_inj (ht : Tiled s) (hb : b ∈ s.blocks) (hc : c ∈ s.blocks)
    (he : b.start = c.start) : b = c := by
  have h₁ := ht.nonempty b hb
  have h₂ := ht.nonempty c hc
  exact ht.unique (a := b.start) hb hc ⟨Nat.le_refl _, by simp only [Block.stop]; omega⟩
    ⟨he.ge, by simp only [Block.stop]; omega⟩

theorem Tiled.heap (ht : Tiled s) (hb : s'.blocks = s.blocks)
    (ha : s'.heap.aspaceStart = s.heap.aspaceStart)
    (hm : s'.heap.allocationMap = s.heap.allocationMap) : Tiled s' := by
  obtain ⟨h₁, h₂, h₃, h₄, h₅, h₆, h₇, h₈⟩ := ht
  constructor <;> simp only [hb, ha, hm] <;> assumption

theorem Tiled.bump (ht : Tiled s) (hpos : 0 < size) (hn : n ≤ size)
    (hfit : s.heap.aspaceStart + size < 2 ^ 64)
    (hb : s'.blocks = ⟨s.heap.aspaceStart, size, n, false⟩ :: s.blocks)
    (ha : s'.heap.aspaceStart = (s.heap.bump size).aspaceStart)
    (hm : s'.heap.allocationMap = (s.heap.bump size).allocationMap) : Tiled s' := by
  have hne : ∀ b ∈ s.blocks, b.start ≠ s.heap.aspaceStart := by
    intro b hb he
    have := ht.below b hb
    have := ht.nonempty b hb
    simp only [Block.stop] at *
    omega
  have hnext : s'.heap.aspaceStart = s.heap.aspaceStart + size := by
    rw [ha]
    exact Nat.mod_eq_of_lt hfit
  constructor
  · rw [hb, List.pairwise_cons]
    exact ⟨ht.below, ht.ordered⟩
  · rw [hb, List.forall_mem_cons]
    exact ⟨ht.start_le, ht.above⟩
  · rw [hb, List.forall_mem_cons]
    exact ⟨hpos, ht.nonempty⟩
  · rw [hb, List.forall_mem_cons, hnext]
    exact ⟨Nat.le_refl _, fun b hb => (ht.below b hb).trans (Nat.le_add_right ..)⟩
  · rw [hb, List.forall_mem_cons, hm]
    refine ⟨bump_allocationMap, fun b hb => ?_⟩
    simp only [Heap.bump, Function.update_of_ne (hne b hb)]
    exact ht.recorded b hb
  · rw [hb, List.forall_mem_cons]
    exact ⟨hn, ht.asked⟩
  · intro a hrec
    rw [hb]
    by_cases he : a = s.heap.aspaceStart
    · exact ⟨_, List.mem_cons_self .., he.symm⟩
    · simp only [hm, Heap.bump, Function.update_of_ne he] at hrec
      obtain ⟨b, hb, rfl⟩ := ht.unrecorded a hrec
      exact ⟨b, List.mem_cons_of_mem _ hb, rfl⟩
  · rw [hnext]
    exact ht.start_le.trans (Nat.le_add_right ..)

theorem Tiled.mark (ht : Tiled s) (hb : s'.blocks = markFreed ptr s.blocks)
    (ha : s'.heap.aspaceStart = s.heap.aspaceStart)
    (hm : s'.heap.allocationMap = s.heap.allocationMap) : Tiled s' := by
  constructor
  · rw [hb, markFreed, List.pairwise_map]
    simpa [Block.stop] using ht.ordered
  · simpa [hb, markFreed] using ht.above
  · simpa [hb, markFreed] using ht.nonempty
  · simpa [hb, markFreed, ha, Block.stop] using ht.below
  · simpa [hb, markFreed, hm] using ht.recorded
  · simpa [hb, markFreed] using ht.asked
  · simpa [hb, markFreed, hm] using ht.unrecorded
  · rw [ha]
    exact ht.start_le

def Fits (s : State) (limit : Nat) (op : Op) : Prop :=
  ∀ n, op.request = some n → s.heap.aspaceStart + rounded n ≤ limit

theorem Tiled.handed (ht : Tiled s) (hfit : Fits s limit op) (hlimit : limit < 2 ^ 64)
    (hh : Handed s op s₁) : Tiled s₁ := by
  cases hreq : op.request with
  | none =>
    obtain ⟨hb, htouch⟩ := hh.none hreq
    exact ht.heap hb htouch.alloc.aspaceStart htouch.alloc.allocationMap
  | some n =>
    obtain ⟨size, hsize, hb, htouch⟩ := hh.some n hreq
    have hn := hfit n hreq
    have hle := le_rounded (n := n)
    have hr : size = rounded n := by
      rw [hsize (by omega), enforceSizeConstraints_eq (by omega)]
    subst hr
    exact ht.bump rounded_pos hle (by omega) hb htouch.alloc.aspaceStart htouch.alloc.allocationMap

theorem Tiled.released (ht : Tiled s) (hr : Released s op s') : Tiled s' := by
  cases hf : op.frees with
  | none => exact hr.none hf ▸ ht
  | some ptr =>
    obtain ⟨hfree, hb⟩ := hr.some ptr hf
    have := carmFree_frees hfree
    exact ht.mark hb this.aspaceStart this.allocationMap

end TrackFM
