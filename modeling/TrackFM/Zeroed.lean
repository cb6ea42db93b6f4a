import TrackFM.Realloc

/-!
# carm_memset and carm_calloc

`carm_memset` fills its range and nothing else, so a block from `carm_calloc`
reads as zeros, also where its slots hold recycled objects with old contents.
-/

namespace TrackFM

open Heap (Coherent Keeps Writes Usable Buffer carmMemset carmCalloc)
open Lib (blit_at blit_out)

variable {m : Manager} {s : State} {h h' : Heap}

def guardedByte (m : Manager) (h : Heap) (a : Nat) : UInt8 :=
  (guardedRead m h a).1.mem (guardedRead m h a).2

theorem guardedByte_view (hc : Coherent m h) (hi : h.Current (x / objSize)) :
    guardedByte m h (startAddr + x) = h.view m (startAddr + x) :=
  guardedRead_view (j := 0) hc hi (Nat.mod_lt x (by decide))

namespace Heap

def Memsets (m : Manager) (h : Heap) (dst : Nat) (v : Int) (size : Nat) : Prop :=
  ∃ h', carmMemset m h dst v size = .ok (h', dst) ∧ Writes m h h' dst size fun _ => lowByte v

theorem carmMemset_nothing (hc : Coherent m h) : Memsets m h dst v 0 := by
  refine ⟨h, ?_, (Keeps.refl hc).writes hc⟩
  have hnone : h.memset dst v 0 = h := by simp [memset, store]
  cases hd : (getCarmPtr dst true).isCarmptr <;>
    simp [carmMemset, hd, hnone, carmMemsetLoop, Except.map]

theorem Buffer.memsets (hdst : Buffer m h size dst) (hc : Coherent m h) (hsize : size < 2 ^ 31) :
    Memsets m h dst v size := by
  rcases Nat.eq_zero_or_pos size with rfl | hpos
  · exact carmMemset_nothing hc
  cases hdst with
  | @remote x hcur =>
    have hx : x < 2 ^ 60 := (hcur 0 hpos).lt_start hc
    have hoff : x % objSize < objSize := Nat.mod_lt x (by decide)
    have hlong : size + objSize ≤ 2 ^ 32 := by
      simp only [objSize]
      omega
    obtain ⟨h', hr⟩ := carmMemset_returns (m := m) (h := h) v hx hlong
    refine ⟨h', hr, ?_⟩
    rw [carmMemset_ok hx hr]
    have hcur : ∀ p ∈ Lib.pieces objSize (x / objSize) (x % objSize) size, h.Current p.slot := by
      intro p hp
      obtain ⟨-, hlen, hin, h₁, h₂⟩ := Lib.pieces_mem hoff p hp
      rw [Nat.div_add_mod'] at h₁ h₂
      obtain ⟨j, hj⟩ := Nat.exists_eq_add_of_le h₁
      have hslot : (x + j) / objSize = p.slot := by
        rw [← hj, Lib.Piece.pos, Nat.mul_comm, Nat.mul_add_div (by decide),
          Nat.div_eq_of_lt (by omega), Nat.add_zero]
      exact hslot ▸ hcur j (by omega)
    have hw : Writes m h (fillPieces m x v h (Lib.pieces objSize (x / objSize) (x % objSize) size))
        (startAddr + (x / objSize * objSize + x % objSize)) size fun _ => lowByte v :=
      fillPieces_writes hc hoff hcur
    rwa [Nat.div_add_mod'] at hw
  | app hout hlt =>
    have hd := getCarmPtr_app (w := true) hpos hlt
    refine ⟨h.memset dst v size, ?_, store_app hc hout hlt⟩
    simp only [carmMemset, hd, Bool.not_false, if_true]

end Heap

-- ---------------------------------------------------------------------------
-- carm_calloc
-- ---------------------------------------------------------------------------

/-- What `carm_calloc` leaves: zeros in the new block, the live blocks as they
were. -/
structure Zeroes (m : Manager) (s : State) (n : Nat) (h' : Heap) (r : Nat) : Prop where
  fresh : ∀ b ∈ s.blocks, b.stop ≤ r
  recorded : h'.allocationMap r = rounded n
  zero : ∀ j < rounded n, h'.view m (r + j) = 0 ∧ guardedByte m h' (r + j) = 0
  frame : ∀ a, s.Live a → h'.view m a = s.heap.view m a ∧ guardedByte m h' a = guardedByte m s.heap a

theorem Intact.zeroes (hs : Intact m s) (hroom : HasRoom s (rounded (elem * elemSize)))
    (hr : carmCalloc m s.heap elem elemSize = .ok (h', r)) :
    Zeroes m s (elem * elemSize) h' r := by
  obtain ⟨rfl, hw⟩ := hs.calloc hroom hr
  obtain ⟨x, hx⟩ := Nat.exists_eq_add_of_le hs.accounted.tiled.start_le
  have hcur : ∀ i, s.heap.Current i → (s.heap.bump (rounded (elem * elemSize))).Current i :=
    fun _ => Heap.bump_current.mpr
  have hnew : ∀ j < rounded (elem * elemSize), s.heap.Current ((x + j) / objSize) := by
    intro j hj
    have hlt : s.heap.aspaceStart + rounded (elem * elemSize) ≤
      startAddr + s.heap.totalObjCnt * objSize := hroom
    exact hs.beyond (by omega) (by omega)
  refine ⟨hs.accounted.tiled.below, ?_, fun j hj => ?_, fun a ha => ?_⟩
  · rw [hw.alloc.allocationMap, bump_allocationMap]
  · have hi := hcur _ (hnew j hj)
    have hzero : h'.view m (s.heap.aspaceStart + j) = 0 := by
      rw [hw.view _ (by rw [hx, Nat.add_assoc]; exact .remote hi), blit_at hj]
    refine ⟨hzero, ?_⟩
    rw [← hzero, hx, Nat.add_assoc]
    exact guardedByte_view hw.coherent (hw.current _ hi)
  · have hbelow := hs.live_below ha
    obtain ⟨y, -, rfl, -, hy⟩ := hs.live ha
    have hview : h'.view m (startAddr + y) = s.heap.view m (startAddr + y) := by
      rw [hw.view _ (.remote (hcur _ hy)), blit_out (.inl hbelow)]
      rfl
    refine ⟨hview, ?_⟩
    rw [guardedByte_view hw.coherent (hw.current _ (hcur _ hy)), hview,
      guardedByte_view hs.coherent hy]

/-- `carm_memset` fills exactly its range; a block from `carm_calloc` reads as
zeros in every state a run gets to, and the call changes no live block. -/
theorem fills_exactly : (∀ m h dst v size, size < 2 ^ 31 → Coherent m h → Buffer m h size dst →
      Heap.Memsets m h dst v size) ∧
    ∀ m s elem elemSize, Reach m (Legal m) s → HasRoom s (rounded (elem * elemSize)) →
      (∀ h' r, carmCalloc m s.heap elem elemSize = .ok (h', r) →
        Zeroes m s (elem * elemSize) h' r) ∧
      (elem * elemSize < 2 ^ 31 → ∃ h' r, carmCalloc m s.heap elem elemSize = .ok (h', r)) :=
  ⟨fun _ _ _ _ _ hsize hc hdst => hdst.memsets hc hsize, fun _ _ _ _ hr hroom =>
    ⟨fun _ _ hcalloc => hr.intact.zeroes hroom hcalloc, fun hsize =>
      let ⟨h', hcalloc⟩ := hr.intact.calloc_returns hsize
      ⟨h', _, hcalloc⟩⟩⟩

/-- One more block fits, in the slot that a freed page was recycled to. -/
theorem reach_recycled : ∃ s, Reach cacheManager (Legal cacheManager) s ∧
    s.blocks = [⟨startAddr + 4096, kWorkingSetSize - 4096, kWorkingSetSize - 4096, false⟩,
      ⟨startAddr, 4096, 4096, true⟩] ∧ HasRoom s (rounded (8 * 512)) ∧
    s.heap.view cacheManager (startAddr + kWorkingSetSize) = 7 := by
  have hreq : ∀ {s : State} {op : Op} {k}, op.request = some k →
      HasRoom s (max (rounded k) (op.copied s)) →
      ∀ n, op.request = some n → HasRoom s (max (rounded n) (op.copied s)) := by
    rintro s op k hop hroom n hn
    cases hop.symm.trans hn
    exact hroom
  have hcnt : ∀ {s s' : State} {op}, step cacheManager s op = .ok s' →
      s'.heap.totalObjCnt ≤ totalObjects →
      ∀ t, step cacheManager s op = .ok t → t.heap.totalObjCnt ≤ totalObjects := by
    rintro s s' op hs hle t ht
    obtain rfl := Except.ok.inj (hs.symm.trans ht)
    exact hle
  have h₁ := (@Reach.init cacheManager (Legal cacheManager) (fun _ => none) fun _ => 0).next
    ⟨.malloc 4096, ⟨hreq rfl (show startAddr + 4096 ≤ _ by decide), nofun, nofun, nofun,
      hcnt rfl (by decide)⟩, rfl⟩
  have h₂ := h₁.next ⟨.write startAddr 1 fun _ => 7, ⟨nofun, nofun, by
      rintro a n ⟨⟩
      exact .byte ⟨_, List.mem_singleton_self _, rfl, by decide⟩, nofun, hcnt rfl (by decide)⟩, rfl⟩
  have h₃ := h₂.next ⟨.free startAddr, ⟨nofun, by
      rintro p ⟨⟩
      exact ⟨_, List.mem_singleton_self _, rfl, rfl⟩, nofun, nofun, hcnt rfl (by decide)⟩, rfl⟩
  have h₄ := h₃.next ⟨.malloc (kWorkingSetSize - 4096),
    ⟨hreq rfl (show startAddr + 4096 + _ ≤ _ by decide), nofun, nofun, nofun,
      hcnt rfl (by decide)⟩, rfl⟩
  exact ⟨_, h₄, rfl, show startAddr + 4096 + (kWorkingSetSize - 4096) + 4096 ≤ _ by decide, rfl⟩

theorem fills_exactly_recycled : ∃ s, Reach cacheManager (Legal cacheManager) s ∧
    s.blocks = [⟨startAddr + 4096, kWorkingSetSize - 4096, kWorkingSetSize - 4096, false⟩,
      ⟨startAddr, 4096, 4096, true⟩] ∧
    s.heap.view cacheManager (startAddr + kWorkingSetSize) = 7 ∧
    Heap.Memsets cacheManager s.heap (startAddr + 8000) 511 5000 ∧
    ∃ h' r, carmCalloc cacheManager s.heap 8 512 = .ok (h', r) ∧
      Zeroes cacheManager s (8 * 512) h' r := by
  obtain ⟨s, hr, hb, hroom, h₇⟩ := reach_recycled
  have hbuf : Buffer cacheManager s.heap 5000 (startAddr + 8000) := .remote fun j hj => by
    have hlive : s.Live (startAddr + (8000 + j)) := by
      have hlt : 13000 < kWorkingSetSize := by decide
      refine ⟨_, hb ▸ List.mem_cons_self, rfl, Nat.add_le_add_left (by omega) _, ?_⟩
      show startAddr + (8000 + j) < startAddr + 4096 + (kWorkingSetSize - 4096)
      omega
    obtain ⟨y, -, he, -, hcur⟩ := hr.intact.live hlive
    rw [Nat.add_left_cancel_iff] at he
    exact he ▸ hcur
  obtain ⟨hzero, hreturns⟩ := fills_exactly.2 cacheManager s 8 512 hr hroom
  obtain ⟨h', r, hcalloc⟩ := hreturns (by decide)
  exact ⟨s, hr, hb, h₇, fills_exactly.1 cacheManager s.heap _ 511 5000 (by decide)
    hr.intact.coherent hbuf, h', r, hcalloc, hzero h' r hcalloc⟩

end TrackFM
