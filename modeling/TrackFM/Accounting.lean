import TrackFM.Free
import TrackFM.Cache

/-!
# Free accounting

`free_list_map` counts, slot by slot, the bytes of freed blocks. It never runs
ahead of them, because the blocks ever handed out are disjoint; so no slot has
more bytes free than it has, and a slot is recycled only when all its bytes
are.
-/

namespace TrackFM

open Lib (Piece share share_piece share_none)
open Heap (credited freePieces)

variable {m : Manager} {s s' : State}

def Block.bytesIn (b : Block) (i : Nat) : Nat :=
  ((Finset.range objSize).filter fun j => b.Covers (startAddr + (i * objSize + j))).card

def freedBytes (bs : List Block) (i : Nat) : Nat :=
  ((Finset.range objSize).filter fun j =>
    ∃ b ∈ bs, b.freed = true ∧ b.Covers (startAddr + (i * objSize + j))).card

/-- The pieces `carm_free` walks for the block. -/
def Block.pieces (b : Block) : List Piece :=
  Lib.pieces objSize ((b.start - startAddr) / objSize) ((b.start - startAddr) % objSize) b.size

theorem Block.pieces_nodup {b : Block} : (b.pieces.map Piece.slot).Nodup :=
  Lib.pieces_nodup (Nat.mod_lt _ (by decide))

theorem Block.bytesIn_eq {b : Block} (hb : startAddr ≤ b.start) : b.bytesIn i =
    share objSize ((b.start - startAddr) / objSize) ((b.start - startAddr) % objSize) b.size i := by
  have hx : (b.start - startAddr) / objSize * objSize + (b.start - startAddr) % objSize =
      b.start - startAddr := Nat.div_add_mod' ..
  simp only [bytesIn, share, hx, Block.Covers, Block.stop]
  refine congrArg Finset.card (Finset.filter_congr fun j _ => ?_)
  omega

theorem Block.bytesIn_piece {b : Block} (hb : startAddr ≤ b.start) (hp : p ∈ b.pieces) :
    b.bytesIn p.slot = p.len :=
  (bytesIn_eq hb).trans (share_piece (Nat.mod_lt _ (by decide)) hp)

theorem Block.bytesIn_none {b : Block} (hb : startAddr ≤ b.start)
    (hi : ∀ p ∈ b.pieces, p.slot ≠ i) : b.bytesIn i = 0 :=
  (bytesIn_eq hb).trans (share_none (Nat.mod_lt _ (by decide)) hi)

theorem Block.bytesIn_pos {b : Block} (hb : b.Covers (startAddr + x)) :
    0 < b.bytesIn (x / objSize) := by
  refine Finset.card_pos.mpr ⟨x % objSize, Finset.mem_filter.mpr ⟨?_, ?_⟩⟩
  · exact Finset.mem_range.mpr (Nat.mod_lt _ (by decide))
  · rwa [Nat.div_add_mod']

theorem freedBytes_le : freedBytes bs i ≤ objSize := by
  have := Finset.card_filter_le (Finset.range objSize) fun j =>
    ∃ b ∈ bs, b.freed = true ∧ b.Covers (startAddr + (i * objSize + j))
  rwa [Finset.card_range] at this

theorem freedBytes_whole (hb : b ∈ bs) (hf : b.freed = true) (h₁ : b.start ≤ startAddr + i * objSize)
    (h₂ : startAddr + (i + 1) * objSize ≤ b.stop) : freedBytes bs i = objSize := by
  rw [Nat.succ_mul] at h₂
  have hall : ∀ j ∈ Finset.range objSize,
      ∃ b ∈ bs, b.freed = true ∧ b.Covers (startAddr + (i * objSize + j)) := by
    intro j hj
    have hlt : i * objSize + j < i * objSize + objSize :=
      Nat.add_lt_add_left (Finset.mem_range.mp hj) _
    exact ⟨b, hb, hf, h₁.trans (Nat.add_le_add_left (Nat.le_add_right ..) _),
      (Nat.add_lt_add_left hlt _).trans_le h₂⟩
  rw [freedBytes, Finset.filter_true_of_mem hall, Finset.card_range]

theorem freedBytes_nil : freedBytes [] i = 0 := by
  simp [freedBytes]

theorem freedBytes_cons (hb : b.freed = false) : freedBytes (b :: bs) i = freedBytes bs i := by
  simp [freedBytes, hb]

theorem markFreed_unrecorded (hb : ∀ b ∈ bs, b.start ≠ ptr) : markFreed ptr bs = bs := by
  rw [markFreed]
  conv_rhs => rw [← List.map_id bs]
  exact List.map_congr_left fun b hb' => if_neg (hb b hb')

theorem freedBytes_mark (ht : Tiled s) (hb : b ∈ s.blocks) (hlive : b.freed = false) :
    freedBytes (markFreed b.start s.blocks) i = freedBytes s.blocks i + b.bytesIn i := by
  rw [freedBytes, freedBytes, Block.bytesIn, ← Finset.card_union_of_disjoint, ← Finset.filter_or]
  · refine congrArg Finset.card (Finset.filter_congr fun j _ => ?_)
    constructor
    · rintro ⟨c, hc, hf, hcov⟩
      obtain ⟨c, hc', rfl⟩ := List.mem_map.mp hc
      rw [Block.Covers, Block.stop, Block.mark_start, Block.mark_size] at hcov
      rcases Block.mark_freed.mp hf with hf | he
      · exact .inl ⟨c, hc', hf, hcov⟩
      · exact .inr (ht.start_inj hc' hb he ▸ hcov)
    · rintro (⟨c, hc, hf, hcov⟩ | hcov)
      · refine ⟨c.mark b.start, List.mem_map_of_mem hc, Block.mark_freed.mpr (.inl hf), ?_⟩
        rwa [Block.Covers, Block.stop, Block.mark_start, Block.mark_size]
      · refine ⟨b.mark b.start, List.mem_map_of_mem hb, Block.mark_freed.mpr (.inr rfl), ?_⟩
        rwa [Block.Covers, Block.stop, Block.mark_start, Block.mark_size]
  · rw [Finset.disjoint_filter]
    rintro j _ ⟨c, hc, hf, hcov⟩ hb'
    rw [ht.unique hc hb hcov hb', hlive] at hf
    cases hf

/-- A slot with a live byte is not entirely free. -/
theorem freedBytes_lt (ht : Tiled s) (hb : b ∈ s.blocks) (hlive : b.freed = false)
    (hi : 0 < b.bytesIn i) : freedBytes s.blocks i < objSize := by
  have h₁ := freedBytes_mark (i := i) ht hb hlive
  have h₂ : freedBytes (markFreed b.start s.blocks) i ≤ objSize := freedBytes_le
  omega

theorem freedBytes_beyond (hb : ∀ b ∈ bs, b.stop ≤ startAddr + n * objSize) (hi : n ≤ i) :
    freedBytes bs i = 0 := by
  rw [freedBytes, Finset.card_eq_zero, Finset.filter_eq_empty_iff]
  rintro j - ⟨b, hbs, -, -, hstop⟩
  have h₁ := hb b hbs
  have h₂ := Nat.mul_le_mul_right objSize hi
  omega

/-- No block reaches the byte, so its slot is not entirely free. -/
theorem freedBytes_open (hb : ∀ b ∈ bs, b.stop ≤ startAddr + x) :
    freedBytes bs (x / objSize) < objSize := by
  have hsub : ((Finset.range objSize).filter fun j => ∃ b ∈ bs, b.freed = true ∧
      b.Covers (startAddr + (x / objSize * objSize + j))) ⊂ Finset.range objSize := by
    refine Finset.filter_ssubset.mpr ⟨x % objSize, ?_, ?_⟩
    · exact Finset.mem_range.mpr (Nat.mod_lt _ (by decide))
    · rintro ⟨b, hbs, -, -, hstop⟩
      rw [Nat.div_add_mod'] at hstop
      exact absurd (hb b hbs) (Nat.not_le.mpr hstop)
  have hcard := Finset.card_lt_card hsub
  rwa [Finset.card_range] at hcard

-- ---------------------------------------------------------------------------
-- The loop
-- ---------------------------------------------------------------------------

/-- The counts stay within `F`; a recycled slot has been counted full, was
recycled once, and added a slot. -/
structure Counts (F : Nat → Nat) (h : Heap) : Prop where
  within : ∀ k, h.freeListMap k ≤ F k
  full : ∀ k ∈ h.recycled, h.freeListMap k = objSize
  once : h.recycled.Nodup
  extent : h.totalObjCnt = h.numObjects + h.recycled.length

/-- ... and leave room for the pieces that are left. -/
structure Room (F : Nat → Nat) (h : Heap) (ps : List Piece) : Prop where
  counts : Counts F h
  nodup : (ps.map Piece.slot).Nodup
  pos : ∀ p ∈ ps, 0 < p.len
  room : ∀ p ∈ ps, h.freeListMap p.slot + p.len ≤ F p.slot

section
variable {F : Nat → Nat} {h : Heap} {p : Piece} {ps : List Piece}

theorem Counts.of_eq {h' : Heap} (hc : Counts F h) (hm : h'.freeListMap = h.freeListMap)
    (hr : h'.recycled = h.recycled) (ht : h'.totalObjCnt = h.totalObjCnt)
    (hn : h'.numObjects = h.numObjects) : Counts F h' :=
  ⟨hm ▸ hc.within, by rw [hm, hr]; exact hc.full, hr ▸ hc.once, by rw [ht, hn, hr]; exact hc.extent⟩

theorem Room.credited (hF : ∀ k, F k ≤ objSize) (hr : Room F h ps) (hp : p ∈ ps) :
    h.credited p = h.freeListMap p.slot + p.len ∧ h.credited p ≤ F p.slot := by
  have hs := objSize_eq
  have h₁ := hr.room p hp
  have h₂ := hF p.slot
  have hc : h.credited p = h.freeListMap p.slot + p.len := Nat.mod_eq_of_lt (by omega)
  exact ⟨hc, hc ▸ h₁⟩

theorem Room.credit (hF : ∀ k, F k ≤ objSize) (hr : Room F h (p :: ps)) :
    Room F (h.credit p.slot p.len) ps ∧ p.slot ∉ h.recycled := by
  obtain ⟨hc, hle⟩ := hr.credited hF (List.mem_cons_self ..)
  have hnd := hr.nodup
  rw [List.map_cons, List.nodup_cons] at hnd
  have hne : ∀ q ∈ ps, q.slot ≠ p.slot := fun q hq he => hnd.1 (he ▸ List.mem_map_of_mem hq)
  have hnew : p.slot ∉ h.recycled := by
    intro hmem
    have := hr.counts.full p.slot hmem
    have := hr.pos p (List.mem_cons_self ..)
    have := hF p.slot
    omega
  refine ⟨⟨⟨fun k => ?_, fun k hk => ?_, hr.counts.once, hr.counts.extent⟩, hnd.2,
    fun q hq => hr.pos q (List.mem_cons_of_mem _ hq), fun q hq => ?_⟩, hnew⟩
  · by_cases hk : k = p.slot
    · subst hk
      rw [Heap.credit_self]
      exact hle
    · rw [Heap.credit_other hk]
      exact hr.counts.within k
  · have hkp : k ≠ p.slot := by
      rintro rfl
      exact hnew hk
    rw [Heap.credit_other hkp]
    exact hr.counts.full k hk
  · rw [Heap.credit_other (hne q hq)]
    exact hr.room q (List.mem_cons_of_mem _ hq)

theorem Room.recycle (hF : ∀ k, F k ≤ objSize) (hr : Room F h (p :: ps))
    (hfull : h.credited p = objSize) :
    Room F ((h.credit p.slot p.len).updateObjectList p.slot) ps := by
  obtain ⟨hr', hnew⟩ := hr.credit hF
  refine ⟨⟨hr'.counts.within, ?_, List.nodup_cons.mpr ⟨hnew, hr'.counts.once⟩, ?_⟩, hr'.nodup, hr'.pos,
    hr'.room⟩
  · show ∀ k ∈ p.slot :: h.recycled, (h.credit p.slot p.len).freeListMap k = objSize
    rw [List.forall_mem_cons]
    exact ⟨Heap.credit_self.trans hfull, hr'.counts.full⟩
  · show h.totalObjCnt + 1 = h.numObjects + (h.recycled.length + 1)
    rw [hr.counts.extent, Nat.add_assoc]

/-- With room in `F` for what is left, the loop runs to its end within `F`. -/
theorem freePieces_accounts (hF : ∀ k, F k ≤ objSize) (hr : Room F h ps) :
    ∃ h', freePieces h ps = .ok h' ∧ Counts F h' := by
  refine (Heap.freePieces_rule (E := False) (I := Room F) (Q := Counts F)
    ?stop ?recycle ?count ?exceeds (fun h hr => hr.counts) hr).resolve_right fun h => h.2
  case stop => exact fun h p ps hr _ _ => (hr.credit hF).1.counts
  case recycle => exact fun h p ps o hr hfull _ => hr.recycle hF hfull
  case count => exact fun h p ps hr _ => (hr.credit hF).1
  case exceeds =>
    intro h p ps hr hgt
    have h₁ := (hr.credited hF (List.mem_cons_self ..)).2
    have h₂ := hF p.slot
    omega

end

-- ---------------------------------------------------------------------------
-- Runs
-- ---------------------------------------------------------------------------

def FreesOnce (s : State) (op : Op) : Prop :=
  ∀ ptr, op.frees = some ptr → ∀ b ∈ s.blocks, b.start = ptr → b.freed = false

abbrev slotsEnd : Nat := startAddr + totalObjects * objSize

structure Accounted (s : State) : Prop where
  tiled : Tiled s
  below : s.heap.aspaceStart ≤ slotsEnd
  counts : Counts (freedBytes s.blocks) s.heap

theorem Accounted.counted (hs : Accounted s) (i : Nat) :
    s.heap.freeListMap i ≤ freedBytes s.blocks i := hs.counts.within i

theorem Accounted.recycled (hs : Accounted s) (i : Nat) (hi : i ∈ s.heap.recycled) :
    freedBytes s.blocks i = objSize :=
  Nat.le_antisymm freedBytes_le (hs.counts.full i hi ▸ hs.counted i)

theorem Accounted.init {ptrs : Nat → Option Nat} {mem : Lib.Mem UInt8} : Accounted (init ptrs mem) where
  tiled := .init
  below := Nat.le_add_right ..
  counts := ⟨fun _ => Nat.zero_le _, nofun, .nil, (Nat.add_zero _).symm⟩

theorem Accounted.handed (hs : Accounted s) (hfit : Fits s slotsEnd op) (hh : Handed s op s₁) :
    Accounted s₁ := by
  have ht := hs.tiled.handed hfit (by decide) hh
  cases hreq : op.request with
  | none =>
    obtain ⟨hb, htouch⟩ := hh.none hreq
    have ha := htouch.alloc
    refine ⟨ht, ?_, ?_⟩
    · rw [ha.aspaceStart]
      exact hs.below
    · rw [hb]
      exact hs.counts.of_eq ha.freeListMap ha.recycled ha.totalObjCnt ha.numObjects
  | some n =>
    obtain ⟨size, hsize, hb, htouch⟩ := hh.some n hreq
    have hn := hfit n hreq
    have hle := le_rounded (n := n)
    have hend : slotsEnd < 2 ^ 64 := by decide
    rw [hsize (by omega), enforceSizeConstraints_eq (by omega)] at hb htouch
    have ha := htouch.alloc
    have hfreed : freedBytes s₁.blocks = freedBytes s.blocks := funext fun i => by
      rw [hb, freedBytes_cons rfl]
    refine ⟨ht, ?_, ?_⟩
    · rw [ha.aspaceStart]
      exact (Nat.mod_le _ _).trans hn
    · rw [hfreed]
      exact hs.counts.of_eq ha.freeListMap ha.recycled ha.totalObjCnt ha.numObjects

theorem Tiled.carmFree_eq (ht : Tiled s) (hb : b ∈ s.blocks)
    (hend : s.heap.aspaceStart ≤ startAddr + 2 ^ 60) :
    s.heap.carmFree b.start = freePieces s.heap b.pieces := by
  have habove := ht.above b hb
  have hpos := ht.nonempty b hb
  have hbelow : b.start + b.size ≤ s.heap.aspaceStart := ht.below b hb
  have hsize := ht.recorded b hb
  obtain ⟨x, hx⟩ : ∃ x, b.start = startAddr + x := ⟨b.start - startAddr, by omega⟩
  rw [hx] at hsize ⊢
  rw [Heap.carmFree_eq (by omega) (by omega), hsize, Block.pieces, hx, Nat.add_sub_cancel_left]

theorem carmFree_accounts (hs : Accounted s)
    (honce : ∀ b ∈ s.blocks, b.start = ptr → b.freed = false) :
    ∃ h', s.heap.carmFree ptr = .ok h' ∧ Counts (freedBytes (markFreed ptr s.blocks)) h' := by
  by_cases hrec : s.heap.allocationMap ptr = 0
  · rw [markFreed_unrecorded (hs.tiled.not_start hrec)]
    exact ⟨s.heap, Heap.carmFree_unrecorded hrec, hs.counts⟩
  · obtain ⟨b, hb, rfl⟩ := hs.tiled.unrecorded ptr hrec
    have hlive := honce b hb rfl
    have habove := hs.tiled.above b hb
    rw [hs.tiled.carmFree_eq hb (hs.below.trans (by decide))]
    refine freePieces_accounts (fun k => freedBytes_le)
      ⟨⟨fun k => ?_, hs.counts.full, hs.counts.once, hs.counts.extent⟩, Block.pieces_nodup,
        fun p hp => (Lib.pieces_mem (Nat.mod_lt _ (by decide)) p hp).2.1, fun p hp => ?_⟩
    · rw [freedBytes_mark hs.tiled hb hlive]
      exact (hs.counted k).trans (Nat.le_add_right ..)
    · rw [freedBytes_mark hs.tiled hb hlive, Block.bytesIn_piece habove hp]
      exact Nat.add_le_add_right (hs.counted _) _

theorem FreesOnce.handed (honce : FreesOnce s op) (hh : Handed s op s₁) : FreesOnce s₁ op := by
  intro ptr hptr
  cases hreq : op.request with
  | none =>
    rw [(hh.none hreq).1]
    exact honce ptr hptr
  | some n =>
    obtain ⟨size, -, hb, -⟩ := hh.some n hreq
    rw [hb, List.forall_mem_cons]
    exact ⟨fun _ => rfl, honce ptr hptr⟩

theorem Accounted.released (hs : Accounted s) (honce : FreesOnce s op) (hr : Released s op s') :
    Accounted s' := by
  have ht := hs.tiled.released hr
  cases hf : op.frees with
  | none => exact hr.none hf ▸ hs
  | some ptr =>
    obtain ⟨hfree, hb⟩ := hr.some ptr hf
    obtain ⟨h', hfree', hcounts⟩ := carmFree_accounts hs (honce ptr hf)
    rw [hfree] at hfree'
    cases hfree'
    refine ⟨ht, ?_, hb ▸ hcounts⟩
    rw [(Heap.carmFree_frees hfree).aspaceStart]
    exact hs.below

def Disciplined (s : State) (op : Op) : Prop := Fits s slotsEnd op ∧ FreesOnce s op

theorem Accounted.step (hs : Accounted s) (hok : Disciplined s op) (hr : step m s op = .ok s') :
    Accounted s' := by
  obtain ⟨s₁, hh, hrel⟩ := step_parts hr
  exact (hs.handed hok.1 hh).released (hok.2.handed hh) hrel

theorem Accounted.no_abort (hs : Accounted s) (hok : Disciplined s op) :
    TrackFM.step m s op ≠ .error .abort := by
  intro hr
  obtain ⟨s₁, ptr, hh, hf, habort⟩ := step_abort hr
  obtain ⟨h', hfree, -⟩ := carmFree_accounts (hs.handed hok.1 hh) (hok.2.handed hh ptr hf)
  rw [hfree] at habort
  cases habort

theorem Accounted.request (hs : Accounted s) (hr : TrackFM.step m s op = .ok s')
    (hreq : op.request = some n) (hn : n < 2 ^ 31) :
    s'.heap.aspaceStart = s.heap.aspaceStart + rounded n ∧
      (op.frees = none → s'.heap.totalObjCnt = s.heap.totalObjCnt) := by
  obtain ⟨s₁, hh, hrel⟩ := step_parts hr
  obtain ⟨size, hsize, -, htouch⟩ := hh.some n hreq
  have hround : rounded n < 2 ^ 32 := by
    simp only [rounded]
    omega
  have hbelow := hs.below.trans_lt (show slotsEnd < 2 ^ 63 by decide)
  have hnext : s₁.heap.aspaceStart = s.heap.aspaceStart + rounded n := by
    rw [htouch.alloc.aspaceStart, hsize (by omega), enforceSizeConstraints_eq (by omega)]
    exact Nat.mod_eq_of_lt (by omega)
  cases hf : op.frees with
  | none =>
    rw [hrel.none hf]
    exact ⟨hnext, fun _ => htouch.alloc.totalObjCnt⟩
  | some ptr =>
    rw [(Heap.carmFree_frees (hrel.some ptr hf).1).aspaceStart]
    exact ⟨hnext, fun h => absurd h (Option.some_ne_none ptr)⟩

theorem step_numObjects (hr : step m s op = .ok s') : s'.heap.numObjects = s.heap.numObjects := by
  obtain ⟨s₁, hh, hrel⟩ := step_parts hr
  have h₁ : s₁.heap.numObjects = s.heap.numObjects := by
    cases hreq : op.request with
    | none => exact (hh.none hreq).2.alloc.numObjects
    | some n =>
      obtain ⟨size, -, -, htouch⟩ := hh.some n hreq
      exact htouch.alloc.numObjects
  cases hf : op.frees with
  | none => exact hrel.none hf ▸ h₁
  | some ptr => exact (Heap.carmFree_frees (hrel.some ptr hf).1).numObjects.trans h₁

theorem Accounted.extent (hs : Accounted s) (hend : s.heap.aspaceStart ≤ startAddr + n * objSize) :
    s.heap.totalObjCnt ≤ s.heap.numObjects + n := by
  have hsub : s.heap.recycled.toFinset ⊆ Finset.range n := by
    intro i hi
    have hi := hs.recycled i (List.mem_toFinset.mp hi)
    rw [Finset.mem_range]
    by_contra hge
    rw [freedBytes_beyond (fun b hb => (hs.tiled.below b hb).trans hend) (Nat.not_lt.mp hge)] at hi
    exact absurd hi (by decide)
  have hcard := Finset.card_le_card hsub
  rw [List.toFinset_card_of_nodup hs.counts.once, Finset.card_range] at hcard
  rw [hs.counts.extent]
  exact Nat.add_le_add_left hcard _

theorem Accounted.reach (hr : Reach m Disciplined s) : Accounted s :=
  hr.invariant (fun _ _ => .init) fun _ _ _ hs hok => hs.step hok

/-- In every run whose requests fit and whose blocks are freed at most once, the
count of a slot stays within its freed bytes, a recycled slot has all its bytes
freed, and no step aborts. -/
theorem free_accounting (hr : Reach m Disciplined s) :
    (∀ i, s.heap.freeListMap i ≤ freedBytes s.blocks i ∧ freedBytes s.blocks i ≤ objSize) ∧
      (∀ i ∈ s.heap.recycled, freedBytes s.blocks i = objSize) ∧
      ∀ op, Disciplined s op → step m s op ≠ .error .abort :=
  have hs := Accounted.reach hr
  ⟨fun i => ⟨hs.counted i, freedBytes_le⟩, hs.recycled, fun _ hok => hs.no_abort hok⟩

theorem free_accounting_five_thousand : ∃ s, Reach cacheManager Disciplined s ∧
    s.blocks = [⟨startAddr, 5000, 5000, true⟩] ∧ s.heap.freeListMap 0 = 4096 ∧
    (∀ i, s.heap.freeListMap i ≤ freedBytes s.blocks i ∧ freedBytes s.blocks i ≤ objSize) ∧
      (∀ i ∈ s.heap.recycled, freedBytes s.blocks i = objSize) ∧
      ∀ op, Disciplined s op → step cacheManager s op ≠ .error .abort := by
  have hmalloc : Disciplined (init (fun _ => none) fun _ => 0) (.malloc 5000) :=
    ⟨by rintro n ⟨⟩; decide, nofun⟩
  have hr : Reach cacheManager Disciplined _ :=
    .next (.next (.init (fun _ => none) fun _ => 0) ⟨.malloc 5000, hmalloc, rfl⟩)
      ⟨.free startAddr, ⟨nofun, fun _ _ b hb _ => List.mem_singleton.mp hb ▸ rfl⟩, rfl⟩
  exact ⟨_, hr, rfl, rfl, free_accounting hr⟩

end TrackFM
