import TrackFM.Frames
import TrackFM.Lib.Pieces

/-!
# carm_memset, piece by piece

The loop of `carm_memset` dereferences and fills the destination one object at
a time. A call that returns has filled the pieces of the range; the byte
counter is `unsigned int`, and a range too long for it makes the loop run for
ever.
-/

namespace TrackFM

open Lib (Piece pieces pieces_zero pieces_last pieces_next pieces_mem blit)

namespace Heap

variable {m : Manager} {h h' : Heap}

def pieceAt (p : Piece) (mutable : Bool) (addr : Nat) : CarmPtr :=
  { addr, offset := p.off, objIndex := p.slot, mutable, isCarmptr := true }

/-- One turn of the loop: dereference the slot and fill the piece. -/
def fillPiece (m : Manager) (addr : Nat) (src : Int) (h : Heap) (p : Piece) : Heap :=
  let (h, d) := ptrDeref m h (pieceAt p true addr)
  h.memset d src p.len

def fillPieces (m : Manager) (addr : Nat) (src : Int) (h : Heap) (ps : List Piece) : Heap :=
  ps.foldl (fillPiece m addr src) h

-- ---------------------------------------------------------------------------
-- The loop
-- ---------------------------------------------------------------------------

/-- Once the counter has passed 2^32 it never reaches a value it passed. -/
theorem carmMemsetLoop_stuck {b : Nat} (hb : b < size) (hwrap : 2 ^ 32 ≤ b + objSize)
    (hk : k < 2 ^ 32) (hmod : k % objSize = b % objSize) :
    carmMemsetLoop m src size fuel h ⟨addr, 0, i, true, true⟩ k ≠ .ok h' := by
  have hs := objSize_eq
  have hkb : k ≤ b := by
    have := slot_add_off k
    have := slot_add_off b
    omega
  induction fuel generalizing h i k with
  | zero => simp [carmMemsetLoop]
  | succ fuel ih =>
    have hnext : u32 (k + objSize) % objSize = b % objSize := by
      simp only [u32, objSize] at *
      omega
    have hlt : u32 (k + objSize) < 2 ^ 32 := Nat.mod_lt _ (by decide)
    simp only [carmMemsetLoop, if_pos (show k < size by omega), Nat.sub_zero,
      if_neg (show ¬objSize = 0 by decide)]
    refine ih hlt hnext ?_
    have := slot_add_off (u32 (k + objSize))
    have := slot_add_off b
    omega

theorem carmMemsetLoop_ok (hoff : off < objSize) (hk : k < 2 ^ 32)
    (hr : carmMemsetLoop m src size fuel h ⟨addr, off, i, true, true⟩ k = .ok h') :
    h' = fillPieces m addr src h (pieces objSize i off (size - k)) := by
  have hs := objSize_eq
  induction fuel generalizing h i k off with
  | zero => cases hr
  | succ fuel ih =>
    simp only [carmMemsetLoop] at hr
    by_cases hlt : k < size
    case neg =>
      rw [if_neg hlt] at hr
      cases hr
      rw [show size - k = 0 by omega, pieces_zero]
      rfl
    rw [if_pos hlt, if_neg (by omega)] at hr
    by_cases hwrap : 2 ^ 32 ≤ k + (objSize - off)
    · -- the counter wraps: the loop does not return
      refine absurd hr (carmMemsetLoop_stuck (b := k - off) (by omega) (by omega)
        (Nat.mod_lt _ (by decide)) ?_)
      simp only [u32, objSize] at *
      omega
    · have hu : u32 (k + (objSize - off)) = k + (objSize - off) := Nat.mod_eq_of_lt (by omega)
      rw [hu] at hr
      have hrest := ih (by omega) (by omega) hr
      by_cases hmore : k + (objSize - off) < size
      · rw [if_pos hmore] at hrest
        rw [pieces_next hoff (by omega), show size - k - (objSize - off) =
          size - (k + (objSize - off)) by omega]
        exact hrest
      · rw [if_neg hmore, show size - (k + (objSize - off)) = 0 by omega, pieces_zero] at hrest
        rw [pieces_last (by omega) (by omega)]
        exact hrest

theorem carmMemsetLoop_returns (hoff : off < objSize) (hsize : size + objSize ≤ 2 ^ 32)
    (hfuel : size - k < fuel) :
    ∃ h', carmMemsetLoop m src size fuel h ⟨addr, off, i, true, true⟩ k = .ok h' := by
  have hs := objSize_eq
  induction fuel generalizing h i k off with
  | zero => omega
  | succ fuel ih =>
    simp only [carmMemsetLoop]
    by_cases hlt : k < size
    case neg => exact ⟨h, if_neg hlt⟩
    rw [if_pos hlt, if_neg (by omega)]
    have hu : u32 (k + (objSize - off)) = k + (objSize - off) := Nat.mod_eq_of_lt (by omega)
    rw [hu]
    exact ih (by omega) (by omega)

theorem carmMemset_ok (hx : x < 2 ^ 60) (hr : carmMemset m h (startAddr + x) src size = .ok (h', r)) :
    h' = fillPieces m x src h (pieces objSize (x / objSize) (x % objSize) size) := by
  simp only [carmMemset, getCarmPtr_start hx, Bool.not_true, Bool.false_eq_true, if_false] at hr
  obtain ⟨h₁, hloop, he⟩ := map_ok.mp hr
  cases he
  exact carmMemsetLoop_ok (Nat.mod_lt _ (by decide)) (by decide) hloop

theorem carmMemset_returns (src : Int) (hx : x < 2 ^ 60) (hsize : size + objSize ≤ 2 ^ 32) :
    ∃ h', carmMemset m h (startAddr + x) src size = .ok (h', startAddr + x) := by
  simp only [carmMemset, getCarmPtr_start hx, Bool.not_true, Bool.false_eq_true, if_false]
  obtain ⟨h', hloop⟩ : ∃ h', carmMemsetLoop m src size (size + 1) h
      ⟨x, x % objSize, x / objSize, true, true⟩ 0 = .ok h' :=
    carmMemsetLoop_returns (Nat.mod_lt _ (by decide)) hsize (by omega)
  exact ⟨h', by rw [hloop]; rfl⟩

theorem carmCalloc_pieces (ha : h.aspaceStart = startAddr + x) (hx : x < 2 ^ 60)
    (hr : carmCalloc m h elem elemSize = .ok (h', r)) : r = h.aspaceStart ∧
      h' = fillPieces m x 0 (h.bump (enforceSizeConstraints (u64 (elem * elemSize))))
        (pieces objSize (x / objSize) (x % objSize) (enforceSizeConstraints (u64 (elem * elemSize)))) := by
  obtain ⟨⟨h₁, r₁⟩, hset, he⟩ := bind_ok.mp hr
  cases he
  rw [ha] at hset
  exact ⟨rfl, carmMemset_ok hx hset⟩

-- ---------------------------------------------------------------------------
-- What the pieces change
-- ---------------------------------------------------------------------------

theorem fillPieces_touches (hps : ∀ p ∈ ps, T p.slot) :
    Touches T h (fillPieces m addr src h ps) := by
  induction ps generalizing h with
  | nil => exact .refl
  | cons p ps ih =>
    have hp : Touches T h (fillPiece m addr src h p) :=
      (ptrDeref_touches.mono fun i hi => hi ▸ hps p (by simp)).trans store_touches
    exact hp.trans (ih fun q hq => hps q (by simp [hq]))

theorem fillPiece_writes (hc : Coherent m h) (hi : h.Current p.slot) (hp : p.off + p.len ≤ objSize)
    (hoff : p.off < objSize) : Writes m h (fillPiece m addr src h p) (startAddr + p.pos objSize) p.len
      fun _ => lowByte src := by
  have hs := objSize_eq
  have hdiv : p.pos objSize / objSize = p.slot := by
    rw [Piece.pos, Nat.mul_comm, Nat.mul_add_div (by decide), Nat.div_eq_of_lt hoff, Nat.add_zero]
  have hmod : p.pos objSize % objSize = p.off := by
    rw [Piece.pos, Nat.mul_add_mod', Nat.mod_eq_of_lt hoff]
  obtain ⟨base, he, hd⟩ := ptrDeref_spec (p := pieceAt p true addr) hc hi
  have hwr : (ptrDeref m h (pieceAt p true addr)).1.Writable (p.pos objSize / objSize) base :=
    hdiv.symm ▸ hd.writable rfl
  have hw := store_slot (n := p.len) (f := fun _ => lowByte src) hd.keeps.coherent
    (hdiv.symm ▸ hd.keeps.current _ hi) hwr (by omega)
  rw [hmod] at hw
  simp only [fillPiece, memset, he]
  exact hd.keeps.trans_writes hc hw

theorem Writes.trans (h₁ : Writes m h h' d n fun _ => v) (h₂ : Writes m h' h'' (d + n) k fun _ => v) :
    Writes m h h'' d (n + k) fun _ => v where
  alloc := h₁.alloc.trans h₂.alloc
  coherent := h₂.coherent
  current i hi := h₂.current i (h₁.current i hi)
  view a hu := by
    have he : blit (h'.view m) (d + n) k (fun _ => v) a =
        blit (blit (h.view m) d n fun _ => v) (d + n) k (fun _ => v) a := by
      simp only [blit, h₁.view a hu]
    rw [h₂.view a (hu.mono h₁.current), he]
    exact congrFun Lib.fill_fill a

theorem fillPieces_writes (hc : Coherent m h) (hoff : off < objSize)
    (hcur : ∀ p ∈ pieces objSize i off n, h.Current p.slot) :
    Writes m h (fillPieces m addr src h (pieces objSize i off n))
      (startAddr + (i * objSize + off)) n fun _ => lowByte src := by
  revert hcur hc h
  refine Lib.pieces_induct (P := fun i off n => ∀ {h : Heap}, Coherent m h →
    (∀ p ∈ pieces objSize i off n, h.Current p.slot) →
    Writes m h (fillPieces m addr src h (pieces objSize i off n))
      (startAddr + (i * objSize + off)) n fun _ => lowByte src) ?_ ?_ ?_ hoff
  · intro i off h hc _
    rw [pieces_zero]
    exact (Keeps.refl hc).writes hc
  · intro i off n hoff hn hle h hc hcur
    rw [pieces_last hn hle] at hcur ⊢
    exact fillPiece_writes hc (hcur _ (by simp)) (by show off + n ≤ objSize; omega) hoff
  · intro i off n hoff hle ih h hc hcur
    rw [pieces_next hoff hle] at hcur ⊢
    have h₁ : Writes m h (fillPiece m addr src h ⟨i, off, objSize - off⟩)
        (startAddr + (i * objSize + off)) (objSize - off) fun _ => lowByte src :=
      fillPiece_writes hc (hcur _ (by simp)) (by show off + (objSize - off) ≤ objSize; omega) hoff
    have h₂ := ih h₁.coherent fun p hp => h₁.current _ (hcur p (by simp [hp]))
    have ha : startAddr + ((i + 1) * objSize + 0) =
        startAddr + (i * objSize + off) + (objSize - off) := by
      rw [Nat.succ_mul]
      omega
    rw [ha] at h₂
    have h₃ := h₁.trans h₂
    rwa [show objSize - off + (n - (objSize - off)) = n by omega] at h₃

end Heap

end TrackFM
