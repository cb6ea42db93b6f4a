import TrackFM.Accounting
import TrackFM.Recycle

/-!
# The intact heap

As long as the blocks lie below the slots in use, the tables are coherent and
every slot that is not entirely free is current: its object names it, and no
other current slot has that object. Requests that fit, accesses, evacuations
and frees keep this.
-/

namespace TrackFM

open Lib (Piece)
open Heap (Coherent Keeps Writes Spares Usable freePieces fillPieces)

variable {m : Manager} {s s' : State} {h' : Heap}

structure Intact (m : Manager) (s : State) : Prop where
  coherent : Coherent m s.heap
  accounted : Accounted s
  within : s.heap.aspaceStart ≤ startAddr + s.heap.totalObjCnt * objSize
  current : ∀ i < s.heap.totalObjCnt, freedBytes s.blocks i < objSize → s.heap.Current i

theorem init_coherent {ptrs : Nat → Option Nat} {mem : Lib.Mem UInt8} :
    Coherent m (init ptrs mem).heap := by
  have hnone : ∀ i, i < kWorkingSetSize / objSize → (init ptrs mem).heap.ptrs i = none := fun i hi =>
    if_pos hi
  exact {
    placed := ⟨nofun, nofun⟩
    synced := nofun
    home_lt := nofun
    home := nofun
    backed := fun i o hi ho => by
      rw [hnone i hi] at ho
      cases ho
    published := fun i _ hp => absurd hp flushed
    unpublished := fun i _ => flushed
    slots := show kWorkingSetSize / objSize ≤ totalObjects by decide
    initial := Nat.le_refl _
    few := show kWorkingSetSize / objSize ≤ farObjects by decide
    extended := fun i h₁ h₂ => absurd h₂ (Nat.not_lt.mpr h₁)
    counted := Nat.zero_le _ }

theorem Intact.init {ptrs : Nat → Option Nat} {mem : Lib.Mem UInt8} : Intact m (init ptrs mem) where
  coherent := init_coherent
  accounted := .init
  within := Nat.le_add_right ..
  current i hi _ := ⟨hi, fun o ho => by
    rw [show (TrackFM.init ptrs mem).heap.ptrs i = none from if_pos hi] at ho
    cases ho⟩

theorem Intact.below (hs : Intact m s) : startAddr + s.heap.totalObjCnt * objSize ≤ slotsEnd :=
  Nat.add_le_add_left (Nat.mul_le_mul_right _ hs.coherent.slots) _

theorem Intact.live (hs : Intact m s) (ha : s.Live a) :
    ∃ x < 2 ^ 60, a = startAddr + x ∧ freedBytes s.blocks (x / objSize) < objSize ∧
      s.heap.Current (x / objSize) := by
  obtain ⟨b, hb, hlive, hcov⟩ := ha
  have h₁ := hs.accounted.tiled.above b hb
  have h₂ : b.stop ≤ startAddr + s.heap.totalObjCnt * objSize :=
    (hs.accounted.tiled.below b hb).trans hs.within
  obtain ⟨x, rfl⟩ : ∃ x, a = startAddr + x := ⟨a - startAddr, by omega⟩
  have hfreed := freedBytes_lt hs.accounted.tiled hb hlive (Block.bytesIn_pos hcov)
  have hx : x < s.heap.totalObjCnt * objSize := by
    have := hcov.2
    omega
  have hslot : x / objSize < s.heap.totalObjCnt := (Nat.div_lt_iff_lt_mul (by decide)).mpr hx
  have hcur := hs.current _ hslot hfreed
  exact ⟨x, hcur.lt_start hs.coherent, rfl, hfreed, hcur⟩

theorem Intact.usable (hs : Intact m s) (ha : s.Live a) : Usable m s.heap a := by
  obtain ⟨x, -, rfl, -, hcur⟩ := hs.live ha
  exact .remote hcur

theorem Intact.live_below (hs : Intact m s) (ha : s.Live a) : a < s.heap.aspaceStart := by
  obtain ⟨b, hb, -, hcov⟩ := ha
  exact hcov.2.trans_le (hs.accounted.tiled.below b hb)

theorem Intact.piece (hs : Intact m s) (hb : b ∈ s.blocks) (hlive : b.freed = false)
    (hp : p ∈ b.pieces) : freedBytes s.blocks p.slot < objSize ∧ s.heap.Current p.slot := by
  obtain ⟨-, hlen, hoff, h₁, h₂⟩ := Lib.pieces_mem (Nat.mod_lt _ (by decide)) p hp
  have habove := hs.accounted.tiled.above b hb
  have hx : (b.start - startAddr) / objSize * objSize + (b.start - startAddr) % objSize =
    b.start - startAddr := Nat.div_add_mod' ..
  rw [hx] at h₁ h₂
  have hcov : s.Live (startAddr + p.pos objSize) :=
    ⟨b, hb, hlive, by omega, by simp only [Block.stop]; omega⟩
  obtain ⟨x, -, he, hfreed, hcur⟩ := hs.live hcov
  have hslot : x / objSize = p.slot := by
    rw [← Nat.add_left_cancel he, Piece.pos, Nat.mul_comm, Nat.mul_add_div (by decide),
      Nat.div_eq_of_lt (by omega), Nat.add_zero]
  exact hslot ▸ ⟨hfreed, hcur⟩

theorem Intact.beyond (hs : Intact m s) (hx : s.heap.aspaceStart ≤ startAddr + x)
    (hlt : x < s.heap.totalObjCnt * objSize) : s.heap.Current (x / objSize) :=
  hs.current _ ((Nat.div_lt_iff_lt_mul (by decide)).mpr hlt)
    (freedBytes_open fun b hb => (hs.accounted.tiled.below b hb).trans hx)

-- ---------------------------------------------------------------------------
-- Requests and accesses
-- ---------------------------------------------------------------------------

theorem Intact.handOut (hs : Intact m s)
    (hn : s.heap.aspaceStart + rounded n ≤ startAddr + s.heap.totalObjCnt * objSize) :
    Intact m (s.handOut (s.heap.bump (rounded n)) s.heap.aspaceStart n f) := by
  have hb : (s.handOut (s.heap.bump (rounded n)) s.heap.aspaceStart n f).blocks =
      ⟨s.heap.aspaceStart, rounded n, n, false⟩ :: s.blocks := by
    simp only [State.handOut, bump_allocationMap]
  have hlt : rounded n < 2 ^ 64 :=
    ((Nat.le_add_left ..).trans (hn.trans hs.below)).trans_lt (by decide)
  have hhanded : Handed s (.malloc n)
      (s.handOut (s.heap.bump (rounded n)) s.heap.aspaceStart n f) := by
    refine ⟨fun h => absurd h (Option.some_ne_none n), ?_⟩
    rintro _ ⟨⟩
    exact ⟨_, fun _ => (enforceSizeConstraints_eq hlt).symm, hb, .refl⟩
  refine ⟨Heap.bump_coherent hs.coherent, hs.accounted.handed ?_ hhanded, ?_, fun i hi hf => ?_⟩
  · rintro _ ⟨⟩
    exact hn.trans hs.below
  · exact (Nat.mod_le _ _).trans hn
  · rw [hb, freedBytes_cons rfl] at hf
    exact Heap.bump_current.mpr (hs.current i hi hf)

theorem Intact.step_alloc (hs : Intact m s) (ha : Heap.SameAlloc s.heap h') (hc : Coherent m h')
    (hcur : ∀ i, s.heap.Current i → h'.Current i) : Intact m ⟨h', s.blocks, w⟩ := by
  refine ⟨hc, ⟨hs.accounted.tiled.heap rfl ha.aspaceStart ha.allocationMap, ?_, ?_⟩, ?_, ?_⟩
  · show h'.aspaceStart ≤ slotsEnd
    rw [ha.aspaceStart]
    exact hs.accounted.below
  · exact hs.accounted.counts.of_eq ha.freeListMap ha.recycled ha.totalObjCnt ha.numObjects
  · show h'.aspaceStart ≤ startAddr + h'.totalObjCnt * objSize
    rw [ha.aspaceStart, ha.totalObjCnt]
    exact hs.within
  · intro i hi hf
    exact hcur i (hs.current i (ha.totalObjCnt.symm ▸ hi) hf)

theorem Intact.keeps (hs : Intact m s) (hk : Keeps m s.heap h') : Intact m ⟨h', s.blocks, w⟩ :=
  hs.step_alloc hk.alloc hk.coherent hk.current

theorem Intact.writes (hs : Intact m s) (hw : Writes m s.heap h' d n f) :
    Intact m ⟨h', s.blocks, w⟩ :=
  hs.step_alloc hw.alloc hw.coherent hw.current

theorem Intact.calloc (hs : Intact m s)
    (hn : s.heap.aspaceStart + rounded (elem * elemSize) ≤
      startAddr + s.heap.totalObjCnt * objSize)
    (hr : s.heap.carmCalloc m elem elemSize = .ok (h', r)) : r = s.heap.aspaceStart ∧
      Writes m (s.heap.bump (rounded (elem * elemSize))) h' s.heap.aspaceStart
        (rounded (elem * elemSize)) fun _ => 0 := by
  have hlt : rounded (elem * elemSize) < 2 ^ 64 :=
    ((Nat.le_add_left ..).trans (hn.trans hs.below)).trans_lt (by decide)
  have hle := le_rounded (n := elem * elemSize)
  have hstart := hs.accounted.tiled.start_le
  have hend := hs.accounted.below.trans_lt (show slotsEnd < startAddr + 2 ^ 60 by decide)
  obtain ⟨x, hx⟩ : ∃ x, s.heap.aspaceStart = startAddr + x := ⟨s.heap.aspaceStart - startAddr, by omega⟩
  obtain ⟨rfl, hfill⟩ := Heap.carmCalloc_pieces hx (by omega) hr
  rw [u64, Nat.mod_eq_of_lt (by omega), enforceSizeConstraints_eq hlt] at hfill
  refine ⟨rfl, ?_⟩
  have hs₁ := hs.handOut (f := fun _ => none) hn
  have hnew : (⟨s.heap.aspaceStart, rounded (elem * elemSize), elem * elemSize, false⟩ : Block) ∈
      (s.handOut (s.heap.bump (rounded (elem * elemSize))) s.heap.aspaceStart (elem * elemSize)
        fun _ => none).blocks := by
    simp only [State.handOut, bump_allocationMap]
    exact List.mem_cons_self ..
  have hcur : ∀ p ∈ Lib.pieces objSize (x / objSize) (x % objSize) (rounded (elem * elemSize)),
      (s.heap.bump (rounded (elem * elemSize))).Current p.slot := fun p hp =>
    (hs₁.piece hnew rfl (by rwa [Block.pieces, hx, Nat.add_sub_cancel_left])).2
  have hw : Writes m (s.heap.bump (rounded (elem * elemSize))) (fillPieces m x 0
      (s.heap.bump (rounded (elem * elemSize))) (Lib.pieces objSize (x / objSize) (x % objSize)
        (rounded (elem * elemSize))))
      (startAddr + (x / objSize * objSize + x % objSize)) (rounded (elem * elemSize))
      fun _ => lowByte 0 :=
    Heap.fillPieces_writes hs₁.coherent (Nat.mod_lt x (by decide)) hcur
  rw [Nat.div_add_mod', ← hx, ← hfill] at hw
  exact hw

theorem Intact.calloc_handOut (hs : Intact m s)
    (hn : s.heap.aspaceStart + rounded (elem * elemSize) ≤
      startAddr + s.heap.totalObjCnt * objSize)
    (hr : s.heap.carmCalloc m elem elemSize = .ok (h', r)) :
    Intact m (s.handOut h' r (elem * elemSize) f) := by
  obtain ⟨rfl, hw⟩ := hs.calloc hn hr
  have hi := (hs.handOut (f := f) hn).writes
    (w := (s.handOut h' s.heap.aspaceStart (elem * elemSize) f).written) hw
  simp only [State.handOut, bump_allocationMap] at hi
  simp only [State.handOut, hw.alloc.allocationMap, bump_allocationMap] at hi ⊢
  exact hi

theorem Intact.calloc_returns (hs : Intact m s) (hsize : elem * elemSize < 2 ^ 31) :
    ∃ h', s.heap.carmCalloc m elem elemSize = .ok (h', s.heap.aspaceStart) := by
  have hround : rounded (elem * elemSize) + objSize ≤ 2 ^ 32 := by
    simp only [rounded, objSize]
    omega
  have hend := hs.accounted.below.trans_lt (show slotsEnd < startAddr + 2 ^ 60 by decide)
  obtain ⟨x, hx⟩ := Nat.exists_eq_add_of_le hs.accounted.tiled.start_le
  have hn : enforceSizeConstraints (u64 (elem * elemSize)) = rounded (elem * elemSize) := by
    rw [u64, Nat.mod_eq_of_lt (by omega), enforceSizeConstraints_eq (by omega)]
  obtain ⟨h', hset⟩ := Heap.carmMemset_returns (m := m)
    (h := s.heap.bump (rounded (elem * elemSize))) 0 (show x < 2 ^ 60 by omega) hround
  refine ⟨h', bind_ok.mpr ⟨(h', startAddr + x), ?_, rfl⟩⟩
  rw [hn, hx]
  exact hset

-- ---------------------------------------------------------------------------
-- Frees
-- ---------------------------------------------------------------------------

/-- The slots in use that are not entirely free once `b` is freed. -/
def Kept (s : State) (b : Block) (k : Nat) : Prop :=
  k < s.heap.totalObjCnt ∧ freedBytes (markFreed b.start s.blocks) k < objSize

theorem Intact.spares (hs : Intact m s) (hb : b ∈ s.blocks) (hlive : b.freed = false)
    (hr : s.heap.carmFree b.start = .ok h') (hroom : h'.totalObjCnt ≤ totalObjects) :
    Spares m (Kept s b) s.heap h' := by
  have ht := hs.accounted.tiled
  have habove := ht.above b hb
  have hmark : ∀ i, freedBytes (markFreed b.start s.blocks) i =
      freedBytes s.blocks i + b.bytesIn i := fun i => freedBytes_mark ht hb hlive
  rw [ht.carmFree_eq hb (hs.accounted.below.trans (by decide))] at hr
  refine Heap.freePieces_spares hs.coherent Block.pieces_nodup (fun p hp => (hs.piece hb hlive hp).2)
    (fun k hk => hs.current k hk.1 ?_) (fun p hp hk => ?_) hroom hr
  · have := hk.2
    rw [hmark] at this
    exact (Nat.le_add_right ..).trans_lt this
  · have h₁ := hk.2
    have h₂ := hs.accounted.counted p.slot
    rw [hmark, Block.bytesIn_piece habove hp] at h₁
    have hc : s.heap.credited p ≤ s.heap.freeListMap p.slot + p.len := Nat.mod_le _ _
    omega

theorem Intact.free (hs : Intact m s) (hb : b ∈ s.blocks) (hlive : b.freed = false)
    (hr : s.heap.carmFree b.start = .ok h') (hroom : h'.totalObjCnt ≤ totalObjects) :
    Intact m (s.free h' b.start) := by
  have hsp := hs.spares hb hlive hr hroom
  have hf := Heap.carmFree_frees hr
  have hrel : Released s (.free b.start) (s.free h' b.start) := ⟨nofun, by
    rintro _ ⟨⟩
    exact ⟨hr, rfl⟩⟩
  have honce : FreesOnce s (.free b.start) := by
    rintro _ ⟨⟩ c hc he
    exact hs.accounted.tiled.start_inj hc hb he ▸ hlive
  refine ⟨hsp.coherent, hs.accounted.released honce hrel, ?_, fun i hi hfreed => ?_⟩
  · show h'.aspaceStart ≤ startAddr + h'.totalObjCnt * objSize
    rw [hf.aspaceStart]
    exact hs.within.trans (Nat.add_le_add_left (Nat.mul_le_mul_right _ hf.totalObjCnt) _)
  · by_cases hlt : i < s.heap.totalObjCnt
    · exact hsp.current i ⟨hlt, hfreed⟩
    · exact hsp.added i (by omega) hi

end TrackFM
