import TrackFM.Blocks

/-!
# carm_free, slot by slot

The loop of `carm_free` credits the pieces of the block one after another,
recycles a slot whose bytes are all free, and stops at the first such slot
that was never touched.
-/

namespace TrackFM

open Lib (Piece pieces pieces_zero pieces_last pieces_next)

namespace Heap

variable {m : Manager} {h h' : Heap}

/-- One turn of the loop. The loop goes on if the second component is `true`. -/
def freePiece (h : Heap) (p : Piece) : Outcome (Heap × Bool) :=
  let h := h.credit p.slot p.len
  if h.freeListMap p.slot = objSize ∧ h.ptrs p.slot = none then .ok (h, false)
  else
    let h := if h.freeListMap p.slot = objSize then h.updateObjectList p.slot else h
    if h.freeListMap p.slot > objSize then .error .abort else .ok (h, true)

def freePieces : Heap → List Piece → Outcome Heap
  | h, [] => .ok h
  | h, p :: ps =>
    match freePiece h p with
    | .ok (h, true) => freePieces h ps
    | .ok (h, false) => .ok h
    | .error e => .error e

def credited (h : Heap) (p : Piece) : Nat := u64 (h.freeListMap p.slot + p.len)

theorem credit_self : (h.credit p.slot p.len).freeListMap p.slot = h.credited p := by
  simp [credit, credited]

theorem credit_other (hk : k ≠ i) : (h.credit i n).freeListMap k = h.freeListMap k := by
  simp [credit, hk]

-- ---------------------------------------------------------------------------
-- One turn
-- ---------------------------------------------------------------------------

theorem freePiece_stop (hfull : h.credited p = objSize) (hn : h.ptrs p.slot = none) :
    freePiece h p = .ok (h.credit p.slot p.len, false) := by
  simp only [freePiece, credit_self]
  exact if_pos ⟨hfull, hn⟩

theorem freePiece_recycle (hfull : h.credited p = objSize) (ho : h.ptrs p.slot = some o) :
    freePiece h p = .ok ((h.credit p.slot p.len).updateObjectList p.slot, true) := by
  have hn : ¬((h.credit p.slot p.len).ptrs p.slot = none) := by
    show ¬h.ptrs p.slot = none
    simp [ho]
  have hself : ((h.credit p.slot p.len).updateObjectList p.slot).freeListMap p.slot = h.credited p :=
    credit_self
  simp only [freePiece, credit_self, hn, and_false, if_false, if_pos hfull, hself]
  rw [if_neg (by omega)]

theorem freePiece_count (hlt : h.credited p < objSize) :
    freePiece h p = .ok (h.credit p.slot p.len, true) := by
  have hne : h.credited p ≠ objSize := by omega
  simp only [freePiece, credit_self, hne, false_and, if_false]
  exact if_neg (by omega)

theorem freePiece_over (hgt : objSize < h.credited p) : freePiece h p = .error .abort := by
  have hne : h.credited p ≠ objSize := by omega
  simp only [freePiece, credit_self, hne, false_and, if_false]
  exact if_pos hgt

/-- The rule for the loop: `I` holds before each turn of what is left, `Q` at
the end, and `E` if a slot is found with more bytes free than it has. -/
theorem freePieces_rule {I : Heap → List Piece → Prop} {Q : Heap → Prop} {E : Prop}
    (stop : ∀ h p ps, I h (p :: ps) → h.credited p = objSize → h.ptrs p.slot = none →
      Q (h.credit p.slot p.len))
    (recycle : ∀ h p ps o, I h (p :: ps) → h.credited p = objSize → h.ptrs p.slot = some o →
      I ((h.credit p.slot p.len).updateObjectList p.slot) ps)
    (count : ∀ h p ps, I h (p :: ps) → h.credited p < objSize → I (h.credit p.slot p.len) ps)
    (exceeds : ∀ h p ps, I h (p :: ps) → objSize < h.credited p → E)
    (done : ∀ h, I h [] → Q h) (hI : I h ps) :
    (∃ h', freePieces h ps = .ok h' ∧ Q h') ∨ freePieces h ps = .error .abort ∧ E := by
  induction ps generalizing h with
  | nil => exact .inl ⟨h, rfl, done h hI⟩
  | cons p ps ih =>
    rcases Nat.lt_trichotomy (h.credited p) objSize with hlt | hfull | hgt
    · rw [freePieces, freePiece_count hlt]
      exact ih (count h p ps hI hlt)
    · cases ho : h.ptrs p.slot with
      | none =>
        rw [freePieces, freePiece_stop hfull ho]
        exact .inl ⟨_, rfl, stop h p ps hI hfull ho⟩
      | some o =>
        rw [freePieces, freePiece_recycle hfull ho]
        exact ih (recycle h p ps o hI hfull ho)
    · rw [freePieces, freePiece_over hgt]
      exact .inr ⟨rfl, exceeds h p ps hI hgt⟩

-- ---------------------------------------------------------------------------
-- The loop of the source
-- ---------------------------------------------------------------------------

theorem carmFreeLoop_turn (hk : k < size) (hc : chunk ≠ 0) (hn : n =
    if u64 (k + chunk) < size then chunk else size - k) :
    carmFreeLoop size (fuel + 1) h i k chunk =
      match freePiece h ⟨i, o, n⟩ with
      | .ok (h, true) => carmFreeLoop size fuel h (i + 1) (u64 (k + chunk)) objSize
      | .ok (h, false) => .ok h
      | .error e => .error e := by
  rw [carmFreeLoop, if_pos hk, if_neg hc, ← hn]
  simp only [freePiece]
  split
  · rfl
  · generalize (if (h.credit i n).freeListMap i = objSize then
      (h.credit i n).updateObjectList i else h.credit i n) = h₁
    split <;> rfl

theorem carmFreeLoop_done (hk : size ≤ k) :
    carmFreeLoop size (fuel + 1) h i k chunk = .ok h := by
  rw [carmFreeLoop, if_neg (by omega)]

theorem carmFreeLoop_eq (hoff : off < objSize) (hsize : size < 2 ^ 63)
    (hfuel : size - k < fuel) :
    carmFreeLoop size fuel h i k (objSize - off) = freePieces h (pieces objSize i off (size - k)) := by
  have hs := objSize_eq
  induction fuel generalizing h i k off with
  | zero => omega
  | succ fuel ih =>
    by_cases hlt : k < size
    case neg =>
      rw [carmFreeLoop_done (by omega), show size - k = 0 by omega, pieces_zero]
      rfl
    have hu : u64 (k + (objSize - off)) = k + (objSize - off) := Nat.mod_eq_of_lt (by omega)
    have hrest : ∀ h, carmFreeLoop size fuel h (i + 1) (k + (objSize - off)) objSize =
        freePieces h (pieces objSize (i + 1) 0 (size - (k + (objSize - off)))) :=
      fun h => ih (show 0 < objSize by omega) (by omega)
    by_cases hmore : k + (objSize - off) < size
    · rw [carmFreeLoop_turn (n := objSize - off) (o := off) hlt (by omega)
        (by rw [hu, if_pos hmore]), hu, pieces_next hoff (by omega), freePieces]
      simp only [hrest, Nat.sub_add_eq]
    · rw [carmFreeLoop_turn (n := size - k) (o := off) hlt (by omega)
        (by rw [hu, if_neg hmore]), hu, pieces_last (by omega) (by omega), freePieces]
      simp only [hrest, show size - (k + (objSize - off)) = 0 by omega, pieces_zero]

theorem carmFree_eq (hx : x < 2 ^ 60) (hsize : h.allocationMap (startAddr + x) < 2 ^ 63) :
    carmFree h (startAddr + x) = freePieces h
      (pieces objSize (x / objSize) (x % objSize) (h.allocationMap (startAddr + x))) := by
  simp only [carmFree, checkCarmObject_start hx, if_true, getCarmPtr_start hx]
  exact carmFreeLoop_eq (k := 0) (Nat.mod_lt _ (by decide)) hsize (by omega)

theorem carmFree_unrecorded (hz : h.allocationMap ptr = 0) : carmFree h ptr = .ok h := by
  simp only [carmFree, hz]
  split
  · exact carmFreeLoop_done (Nat.le_refl 0)
  · rfl

end Heap

end TrackFM
