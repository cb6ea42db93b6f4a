import TrackFM.Scopes
import TrackFM.Memcpy
import TrackFM.Lib.Counter

/-!
# Sizes the bulk operations can handle

The loops of `carm_memset`, `carm_memcpy` and `carm_memcmp` as chunk loops that
count modulo 2^32. They cover a range once as long as the last object boundary
below 2^32 is not before its end, and otherwise never return.
-/

namespace TrackFM

open Lib (ChunkLoop Cuts sweep)
open Heap (ptrDeref carmMemsetLoop carmMemset carmMemcpyDstLoop carmMemcpySrcLoop carmMemcpyLoop
  carmMemcpy carmMemcmpDstLoop carmMemcmpSrcLoop carmMemcmpLoop carmMemcmp)

variable {m : Manager} {h h' : Heap} {p q : CarmPtr} {σ : Type}

-- ---------------------------------------------------------------------------
-- Loops with one remote operand and with two
-- ---------------------------------------------------------------------------

def cursor (x : Nat) (w : Bool) (b : Nat) : CarmPtr :=
  { addr := x, offset := (x + b) % objSize, objIndex := (x + b) / objSize, mutable := w,
    isCarmptr := true }

def oneRemote (use : CarmPtr → σ → Nat → Nat → σ) (stop : σ → Bool) : ChunkLoop CarmPtr σ where
  len p := objSize - p.offset
  advance p _ := { p with objIndex := p.objIndex + 1, offset := 0 }
  use := use
  stop := stop

def bothAt (dst src : Nat) (w : Bool) (b : Nat) : CarmPtr × CarmPtr :=
  (getCarmPtr (dst + b) w, getCarmPtr (src + b) false)

def twoRemote (dst src : Nat) (w : Bool) (use : CarmPtr × CarmPtr → σ → Nat → Nat → σ)
    (stop : σ → Bool) : ChunkLoop (CarmPtr × CarmPtr) σ where
  len c := min (objSize - c.1.offset) (objSize - c.2.offset)
  advance _ b := bothAt dst src w b
  use := use
  stop := stop

/-- The last object boundary of a range from `x` that the counter can hold. -/
def room (x : Nat) : Nat := 2 ^ 32 - if x % objSize = 0 then objSize else x % objSize

section
variable {u : CarmPtr → σ → Nat → Nat → σ} {t : σ → Bool} {x y size : Nat}

theorem room_lt : room x < 2 ^ 32 := by
  unfold room
  split
  · decide
  · omega

theorem next_le_room (h : b < room x) : b + (objSize - (x + b) % objSize) ≤ room x := by
  have hs := objSize_eq
  unfold room at *
  by_cases hx : x % objSize = 0
  · rw [if_pos hx] at h ⊢
    simp only [objSize] at *
    omega
  · rw [if_neg hx] at h ⊢
    simp only [objSize] at *
    omega

theorem boundary_le_room (hb : b < 2 ^ 32) (h : b = 0 ∨ (x + b) % objSize = 0) : b ≤ room x := by
  unfold room
  simp only [objSize] at *
  split <;> omega

theorem boundary_next : (x + (b + (objSize - (x + b) % objSize)) % 2 ^ 32) % objSize = 0 := by
  simp only [objSize]
  omega

theorem oneRemote_follows (hsize : size ≤ room x) :
    (oneRemote u t).Follows (2 ^ 32) size (cursor x w) where
  len_pos b _ := by
    have := (slot_add_off (x + b)).2
    have hs := objSize_eq
    show 0 < objSize - (x + b) % objSize
    omega
  room b hb := Nat.lt_of_le_of_lt (next_le_room (by omega)) room_lt
  advance b _ := by
    have hmod : (x + (b + (objSize - (x + b) % objSize))) % objSize = 0 := by
      simp only [objSize]
      omega
    have hdiv : (x + (b + (objSize - (x + b) % objSize))) / objSize = (x + b) / objSize + 1 := by
      simp only [objSize]
      omega
    show { cursor x w b with objIndex := (x + b) / objSize + 1, offset := 0 } =
      cursor x w (b + (objSize - (x + b) % objSize))
    simp only [cursor, hmod, hdiv]

theorem oneRemote_traps (hsize : room x < size)
    (hz : ∀ c s b n, Z s → t (u c s b n) = false ∧ Z (u c s b n)) :
    (oneRemote u t).Traps (2 ^ 32) size (fun p b => p.offset = (x + b) % objSize ∧
      b < 2 ^ 32 ∧ (b = 0 ∨ (x + b) % objSize = 0)) Z where
  below p b h := Nat.lt_of_le_of_lt (boundary_le_room h.2.1 h.2.2) hsize
  next p b h := by
    show 0 = (x + (b + (objSize - p.offset)) % 2 ^ 32) % objSize ∧
      (b + (objSize - p.offset)) % 2 ^ 32 < 2 ^ 32 ∧
      (_ ∨ (x + (b + (objSize - p.offset)) % 2 ^ 32) % objSize = 0)
    rw [h.1]
    exact ⟨boundary_next.symm, Nat.mod_lt _ (by decide), .inr boundary_next⟩
  goesOn := hz

end

section
variable {u : CarmPtr × CarmPtr → σ → Nat → Nat → σ} {t : σ → Bool} {x y size : Nat}

theorem bothAt_offset (hx : x + b < 2 ^ 60) (hy : y + b < 2 ^ 60) :
    (bothAt (startAddr + x) (startAddr + y) w b).1.offset = (x + b) % objSize ∧
    (bothAt (startAddr + x) (startAddr + y) w b).2.offset = (y + b) % objSize := by
  rw [bothAt, Nat.add_assoc, Nat.add_assoc, getCarmPtr_start hx, getCarmPtr_start hy]
  exact ⟨rfl, rfl⟩

theorem twoRemote_len (hx : x + b < 2 ^ 60) (hy : y + b < 2 ^ 60) :
    (twoRemote (startAddr + x) (startAddr + y) w u t).len
        (bothAt (startAddr + x) (startAddr + y) w b) =
      min (objSize - (x + b) % objSize) (objSize - (y + b) % objSize) := by
  obtain ⟨h₁, h₂⟩ := bothAt_offset (w := w) hx hy
  show min (objSize - _) (objSize - _) = _
  rw [h₁, h₂]

theorem twoRemote_follows (hx : x + size ≤ 2 ^ 60) (hy : y + size ≤ 2 ^ 60)
    (hsize : size ≤ max (room x) (room y)) :
    (twoRemote (startAddr + x) (startAddr + y) w u t).Follows (2 ^ 32) size
      (bothAt (startAddr + x) (startAddr + y) w) where
  len_pos b hb := by
    have h₁ := (slot_add_off (x + b)).2
    have h₂ := (slot_add_off (y + b)).2
    have hs := objSize_eq
    rw [twoRemote_len (by omega) (by omega)]
    omega
  room b hb := by
    rw [twoRemote_len (by omega) (by omega)]
    rcases Nat.lt_or_ge b (room x) with hbx | hbx
    · have h₁ := next_le_room hbx
      have h₂ := room_lt (x := x)
      omega
    · have h₁ := next_le_room (x := y) (b := b) (by omega)
      have h₂ := room_lt (x := y)
      omega
  advance _ _ := rfl

theorem twoRemote_traps (hx : x + size ≤ 2 ^ 60) (hy : y + size ≤ 2 ^ 60)
    (hsize : max (room x) (room y) < size)
    (hz : ∀ c s b n, Z s → t (u c s b n) = false ∧ Z (u c s b n)) :
    (twoRemote (startAddr + x) (startAddr + y) w u t).Traps (2 ^ 32) size (fun c b =>
      c = bothAt (startAddr + x) (startAddr + y) w b ∧ b < 2 ^ 32 ∧
        ((b = 0 ∨ (x + b) % objSize = 0) ∨ (b = 0 ∨ (y + b) % objSize = 0))) Z := by
  have hbelow : ∀ b, b < 2 ^ 32 →
      ((b = 0 ∨ (x + b) % objSize = 0) ∨ (b = 0 ∨ (y + b) % objSize = 0)) → b < size := by
    rintro b hb (hbx | hby)
    · have := boundary_le_room hb hbx
      omega
    · have := boundary_le_room hb hby
      omega
  refine ⟨fun c b h => hbelow b h.2.1 h.2.2, ?_, hz⟩
  rintro c b ⟨rfl, hb, hboundary⟩
  have hlt := hbelow b hb hboundary
  rw [twoRemote_len (by omega) (by omega)]
  refine ⟨rfl, Nat.mod_lt _ (by decide), ?_⟩
  rcases Nat.le_total (objSize - (x + b) % objSize) (objSize - (y + b) % objSize) with hle | hle
  · rw [Nat.min_eq_left hle]
    exact .inl (.inr boundary_next)
  · rw [Nat.min_eq_right hle]
    exact .inr (.inr boundary_next)

end

-- ---------------------------------------------------------------------------
-- The loops of the source
-- ---------------------------------------------------------------------------

def toOutcome : Option σ → Outcome σ
  | none => .error .diverge
  | some s => .ok s

def never (_ : σ) : Bool := false

def differ (s : Heap × Ordering) : Bool := s.2 != .eq

def fillChunk (m : Manager) (v : Int) (p : CarmPtr) (h : Heap) (_ n : Nat) : Heap :=
  let (h, d) := ptrDeref m h p
  h.memset d v n

def copyWithin (m : Manager) (c : CarmPtr × CarmPtr) (h : Heap) (_ n : Nat) : Heap :=
  let (h, d) := ptrDeref m h c.1
  let (h, s) := ptrDeref m h c.2
  h.memmove d s n

def compareDst (m : Manager) (src : Nat) (p : CarmPtr) (s : Heap × Ordering) (b n : Nat) :
    Heap × Ordering :=
  let (h, d) := ptrDeref m s.1 p
  (h, h.memcmp d (src + b) n)

def compareSrc (m : Manager) (dst : Nat) (p : CarmPtr) (s : Heap × Ordering) (b n : Nat) :
    Heap × Ordering :=
  let (h, q) := ptrDeref m s.1 p
  (h, h.memcmp (dst + b) q n)

def compareBoth (m : Manager) (c : CarmPtr × CarmPtr) (s : Heap × Ordering) (_ n : Nat) :
    Heap × Ordering :=
  let (h, d) := ptrDeref m s.1 c.1
  let (h, q) := ptrDeref m h c.2
  (h, h.memcmp d q n)

theorem Heap.Turns.run {use : CarmPtr → Heap → Nat → Nat → Heap}
    {loop : Nat → Heap → CarmPtr → Nat → Outcome Heap} (ht : Heap.Turns size use loop)
    (hzero : ∀ h p b, loop 0 h p b = .error .diverge) : loop fuel h p b =
      toOutcome ((oneRemote use never).run (2 ^ 32) size fuel p b h) := by
  induction fuel generalizing h p b with
  | zero => exact hzero h p b
  | succ fuel ih =>
    rw [ht]
    split
    · rename_i hb
      split
      · rename_i hlt
        rw [ChunkLoop.run_next (l := oneRemote use never) hb hlt rfl]
        exact ih
      · rename_i hlt
        rw [ChunkLoop.run_last (l := oneRemote use never) hb hlt]
        rfl
    · rename_i hb
      rw [ChunkLoop.run_done hb]
      rfl

theorem carmMemcpyDstLoop_run : carmMemcpyDstLoop m src size fuel h p b =
    toOutcome ((oneRemote (copyIn m src) never).run (2 ^ 32) size fuel p b h) :=
  Heap.Turns.run Heap.carmMemcpyDstLoop_turns fun _ _ _ => rfl

theorem carmMemcpySrcLoop_run : carmMemcpySrcLoop m dst size fuel h p b =
    toOutcome ((oneRemote (copyOut m dst) never).run (2 ^ 32) size fuel p b h) :=
  Heap.Turns.run Heap.carmMemcpySrcLoop_turns fun _ _ _ => rfl

theorem carmMemcpyLoop_run (hp : p.offset < objSize) (hq : q.offset < objSize) :
    carmMemcpyLoop m dst src size fuel h p q b =
      toOutcome ((twoRemote dst src true (copyWithin m) never).run (2 ^ 32) size fuel (p, q) b h) := by
  induction fuel generalizing h p q b with
  | zero => rfl
  | succ fuel ih =>
    rw [carmMemcpyLoop]
    split
    · rename_i hb
      simp only
      rw [if_neg (by omega)]
      split
      · rename_i hlt
        rw [ChunkLoop.run_next (l := twoRemote dst src true (copyWithin m) never) hb hlt rfl]
        exact ih getCarmPtr_offset getCarmPtr_offset
      · rename_i hlt
        rw [ChunkLoop.run_last (l := twoRemote dst src true (copyWithin m) never) hb hlt]
        rfl
    · rename_i hb
      rw [ChunkLoop.run_done hb]
      rfl

theorem differ_eq (hs : s.2 = .eq) : differ s = false := by
  rw [differ, hs]
  rfl

theorem differ_ne (hs : s.2 ≠ .eq) : differ s = true := by
  simp [differ, hs]

/-- A comparison of one remote range goes on as long as there is no difference. -/
def CompareTurns (size : Nat) (use : CarmPtr → Heap × Ordering → Nat → Nat → Heap × Ordering)
    (loop : Nat → Heap → CarmPtr → Nat → Outcome (Heap × Ordering)) : Prop :=
  ∀ fuel h p b, loop (fuel + 1) h p b =
    if b < size then
      if u32 (b + (objSize - p.offset)) < size then
        match (use p (h, .eq) b (objSize - p.offset)).2 with
        | .eq => loop fuel (use p (h, .eq) b (objSize - p.offset)).1
            { p with objIndex := p.objIndex + 1, offset := 0 } (u32 (b + (objSize - p.offset)))
        | ret => .ok ((use p (h, .eq) b (objSize - p.offset)).1, ret)
      else .ok (use p (h, .eq) b (size - b))
    else .ok (h, .eq)

theorem CompareTurns.run {use : CarmPtr → Heap × Ordering → Nat → Nat → Heap × Ordering}
    {loop : Nat → Heap → CarmPtr → Nat → Outcome (Heap × Ordering)}
    (ht : CompareTurns size use loop) (hzero : ∀ h p b, loop 0 h p b = .error .diverge) :
    loop fuel h p b =
      toOutcome ((oneRemote use differ).run (2 ^ 32) size fuel p b (h, .eq)) := by
  induction fuel generalizing h p b with
  | zero => exact hzero h p b
  | succ fuel ih =>
    rw [ht]
    split
    · rename_i hb
      split
      · rename_i hlt
        split
        · rename_i heq
          have huse : use p (h, .eq) b (objSize - p.offset) =
              ((use p (h, .eq) b (objSize - p.offset)).1, .eq) := Prod.ext rfl heq
          rw [ChunkLoop.run_next (l := oneRemote use differ) (s := (h, .eq)) hb hlt
            (differ_eq heq)]
          exact ih.trans (huse ▸ rfl)
        · rename_i hne
          rw [ChunkLoop.run_stop (l := oneRemote use differ) (s := (h, .eq)) hb hlt
            (differ_ne hne)]
          rfl
      · rename_i hlt
        rw [ChunkLoop.run_last (l := oneRemote use differ) hb hlt]
        rfl
    · rename_i hb
      rw [ChunkLoop.run_done hb]
      rfl

theorem carmMemcmpDstLoop_run : carmMemcmpDstLoop m src size fuel h p b =
    toOutcome ((oneRemote (compareDst m src) differ).run (2 ^ 32) size fuel p b (h, .eq)) :=
  CompareTurns.run (fun _ _ _ _ => rfl) fun _ _ _ => rfl

theorem carmMemcmpSrcLoop_run : carmMemcmpSrcLoop m dst size fuel h p b =
    toOutcome ((oneRemote (compareSrc m dst) differ).run (2 ^ 32) size fuel p b (h, .eq)) :=
  CompareTurns.run (fun _ _ _ _ => rfl) fun _ _ _ => rfl

theorem carmMemsetLoop_of_run (hp : p.offset < objSize)
    (hr : (oneRemote (fillChunk m v) never).run (2 ^ 32) size fuel p b h = some h') :
    carmMemsetLoop m v size (fuel + 1) h p b = .ok h' := by
  induction fuel generalizing h p b with
  | zero => cases hr
  | succ fuel ih =>
    rw [carmMemsetLoop]
    by_cases hb : b < size
    case neg =>
      rw [ChunkLoop.run_done hb] at hr
      cases hr
      exact if_neg hb
    simp only [if_pos hb]
    rw [if_neg (by omega)]
    by_cases hlt : u32 (b + (objSize - p.offset)) < size
    · rw [if_pos hlt]
      rw [ChunkLoop.run_next (l := oneRemote (fillChunk m v) never) hb hlt rfl] at hr
      exact ih (show 0 < objSize by decide) hr
    · rw [if_neg hlt]
      rw [ChunkLoop.run_last (l := oneRemote (fillChunk m v) never) hb hlt] at hr
      cases hr
      exact if_neg hlt

theorem run_of_carmMemsetLoop (hp : p.offset < objSize)
    (hr : carmMemsetLoop m v size fuel h p b = .ok h') :
    (oneRemote (fillChunk m v) never).run (2 ^ 32) size fuel p b h = some h' := by
  induction fuel generalizing h p b with
  | zero => cases hr
  | succ fuel ih =>
    rw [carmMemsetLoop] at hr
    by_cases hb : b < size
    case neg =>
      rw [if_neg hb] at hr
      cases hr
      exact ChunkLoop.run_done hb
    simp only [if_pos hb] at hr
    rw [if_neg (by omega)] at hr
    by_cases hlt : u32 (b + (objSize - p.offset)) < size
    · rw [if_pos hlt] at hr
      rw [ChunkLoop.run_next (l := oneRemote (fillChunk m v) never) hb hlt rfl]
      exact ih (show 0 < objSize by decide) hr
    · rw [if_neg hlt] at hr
      rw [ChunkLoop.run_last (l := oneRemote (fillChunk m v) never) hb hlt]
      cases fuel with
      | zero => cases hr
      | succ fuel =>
        rw [carmMemsetLoop, if_neg hlt] at hr
        cases hr
        rfl

theorem carmMemcmpLoop_turn (hb : b < size) :
    carmMemcmpLoop m dst src size (fuel + 1) h b =
      let n := min (objSize - (getCarmPtr (dst + b) false).offset)
        (objSize - (getCarmPtr (src + b) false).offset)
      let s := compareBoth m (bothAt dst src false b) (h, .eq) b
        (if u32 (b + n) < size then n else size - b)
      if differ s then .ok s else carmMemcmpLoop m dst src size fuel s.1 (u32 (b + n)) := by
  have h₁ := getCarmPtr_offset (a := dst + b) (w := false)
  have h₂ := getCarmPtr_offset (a := src + b) (w := false)
  have hchunk : ¬min (objSize - (getCarmPtr (dst + b) false).offset)
      (objSize - (getCarmPtr (src + b) false).offset) = 0 := by omega
  rw [carmMemcmpLoop, if_pos hb]
  simp only [if_neg hchunk, compareBoth, bothAt, ← apply_ite]
  split
  · rename_i heq
    exact (if_neg (by rw [differ_eq heq]; decide)).symm
  · rename_i hne
    exact (if_pos (differ_ne hne)).symm

theorem compareBoth_eq (hs : differ s = false) : s = (s.1, .eq) := by
  have heq : s.2 = .eq := by simpa [differ] using hs
  exact Prod.ext rfl heq

theorem carmMemcmpLoop_of_run {r : Heap × Ordering}
    (hr : (twoRemote dst src false (compareBoth m) differ).run (2 ^ 32) size fuel
      (bothAt dst src false b) b (h, .eq) = some r) :
    carmMemcmpLoop m dst src size (fuel + 1) h b = .ok r := by
  induction fuel generalizing h b with
  | zero => cases hr
  | succ fuel ih =>
    by_cases hb : b < size
    case neg =>
      rw [ChunkLoop.run_done hb] at hr
      cases hr
      rw [carmMemcmpLoop, if_neg hb]
    rw [carmMemcmpLoop_turn hb]
    simp only
    by_cases hlt : u32 (b + min (objSize - (getCarmPtr (dst + b) false).offset)
        (objSize - (getCarmPtr (src + b) false).offset)) < size
    · rw [if_pos hlt]
      cases hd : differ (compareBoth m (bothAt dst src false b) (h, .eq) b
          (min (objSize - (getCarmPtr (dst + b) false).offset)
            (objSize - (getCarmPtr (src + b) false).offset))) with
      | true =>
        rw [ChunkLoop.run_stop (l := twoRemote dst src false (compareBoth m) differ)
          (c := bothAt dst src false b) hb hlt hd] at hr
        cases hr
        exact if_pos rfl
      | false =>
        rw [ChunkLoop.run_next (l := twoRemote dst src false (compareBoth m) differ)
          (c := bothAt dst src false b) hb hlt hd] at hr
        refine (if_neg Bool.false_ne_true).trans (ih ?_)
        rw [← compareBoth_eq hd]
        exact hr
    · rw [if_neg hlt]
      rw [ChunkLoop.run_last (l := twoRemote dst src false (compareBoth m) differ)
        (c := bothAt dst src false b) hb hlt] at hr
      cases hr
      cases hd : differ (compareBoth m (bothAt dst src false b) (h, .eq) b (size - b)) with
      | true => exact if_pos rfl
      | false =>
        refine (if_neg Bool.false_ne_true).trans ?_
        rw [carmMemcmpLoop, if_neg hlt, ← compareBoth_eq hd]
        rfl

theorem run_of_carmMemcmpLoop {r : Heap × Ordering}
    (hr : carmMemcmpLoop m dst src size fuel h b = .ok r) :
    (twoRemote dst src false (compareBoth m) differ).run (2 ^ 32) size fuel
      (bothAt dst src false b) b (h, .eq) = some r := by
  induction fuel generalizing h b with
  | zero => cases hr
  | succ fuel ih =>
    by_cases hb : b < size
    case neg =>
      rw [carmMemcmpLoop, if_neg hb] at hr
      cases hr
      exact ChunkLoop.run_done hb
    rw [carmMemcmpLoop_turn hb] at hr
    simp only at hr
    by_cases hlt : u32 (b + min (objSize - (getCarmPtr (dst + b) false).offset)
        (objSize - (getCarmPtr (src + b) false).offset)) < size
    · rw [if_pos hlt] at hr
      cases hd : differ (compareBoth m (bothAt dst src false b) (h, .eq) b
          (min (objSize - (getCarmPtr (dst + b) false).offset)
            (objSize - (getCarmPtr (src + b) false).offset))) with
      | true =>
        rw [hd, if_pos rfl] at hr
        cases hr
        exact ChunkLoop.run_stop (l := twoRemote dst src false (compareBoth m) differ)
          (c := bothAt dst src false b) hb hlt hd
      | false =>
        rw [hd, if_neg Bool.false_ne_true] at hr
        have hrun := ih hr
        rw [← compareBoth_eq hd] at hrun
        rw [ChunkLoop.run_next (l := twoRemote dst src false (compareBoth m) differ)
          (c := bothAt dst src false b) hb hlt hd]
        exact hrun
    · rw [if_neg hlt] at hr
      rw [ChunkLoop.run_last (l := twoRemote dst src false (compareBoth m) differ)
        (c := bothAt dst src false b) hb hlt]
      cases hd : differ (compareBoth m (bothAt dst src false b) (h, .eq) b (size - b)) with
      | true =>
        rw [hd, if_pos rfl] at hr
        cases hr
        rfl
      | false =>
        rw [hd, if_neg Bool.false_ne_true] at hr
        cases fuel with
        | zero => cases hr
        | succ fuel =>
          rw [carmMemcmpLoop, if_neg hlt, ← compareBoth_eq hd] at hr
          cases hr
          rfl

-- ---------------------------------------------------------------------------
-- The calls
-- ---------------------------------------------------------------------------

/-- A remote range from `START_ADDR + x`, or one of the application's own memory. -/
inductive Operand where
  | remote (x : Nat)
  | app (a : Nat)

namespace Operand

def addr : Operand → Nat
  | .remote x => startAddr + x
  | .app a => a

/-- No byte of the range is on the other side of the tag. -/
def Within (size : Nat) : Operand → Prop
  | .remote x => x < 2 ^ 60 ∧ x + size ≤ 2 ^ 60
  | .app a => a < 2 ^ 60 ∧ a + size ≤ 2 ^ 60

def room : Operand → Nat
  | .remote x => TrackFM.room x
  | .app _ => 0

def Starts (size : Nat) : Operand → Prop
  | .remote x => x < 2 ^ 60 ∧ x + size ≤ 2 ^ 60
  | .app a => a < 2 ^ 60

theorem Within.starts {o : Operand} (ho : o.Within size) : o.Starts size := by
  cases o with
  | remote x => exact ho
  | app a => exact ho.1

/-- No object of a remote range ends among the `n` bytes from byte `b` on. -/
def Spans (b n : Nat) : Operand → Prop
  | .remote x => (x + b) % objSize + n ≤ objSize
  | .app _ => True

def deref (m : Manager) (w : Bool) (h : Heap) (b : Nat) : Operand → Heap × Nat
  | .remote x => ptrDeref m h (cursor x w b)
  | .app a => (h, a + b)

end Operand

def copyChunk (m : Manager) (d s : Operand) (h : Heap) (b n : Nat) : Heap :=
  let (h, dst) := d.deref m true h b
  let (h, src) := s.deref m false h b
  h.memmove dst src n

def compareChunk (m : Manager) (d s : Operand) (r : Heap × Ordering) (b n : Nat) :
    Heap × Ordering :=
  let (h, dst) := d.deref m false r.1 b
  let (h, src) := s.deref m false h b
  (h, h.memcmp dst src n)

structure Covers (size : Nat) (ns : List Nat) : Prop where
  pos : ∀ n ∈ ns, 0 < n
  sum : ns.sum = size

/-- `carm_memset` returns, and fills consecutive chunks that make up the range. -/
def FillsOnce (m : Manager) (h : Heap) (x : Nat) (v : Int) (size : Nat) : Prop :=
  ∃ ns, Covers size ns ∧ carmMemset m h (startAddr + x) v size =
    .ok (sweep never (fun h b n => fillChunk m v (cursor x true b) h b n) h 0 ns, startAddr + x)

def CopiesOnce (m : Manager) (h : Heap) (d s : Operand) (size : Nat) : Prop :=
  ∃ ns, Covers size ns ∧ carmMemcpy m h d.addr s.addr size =
    .ok (sweep never (copyChunk m d s) h 0 ns, d.addr)

/-- `carm_memcmp` returns, and compares consecutive chunks of the range, until one
differs. -/
def ComparesOnce (m : Manager) (h : Heap) (d s : Operand) (size : Nat) : Prop :=
  ∃ ns, Covers size ns ∧ carmMemcmp m h d.addr s.addr size =
    .ok (sweep differ (compareChunk m d s) (h, .eq) 0 ns)

theorem ptrDeref_congr (h₁ : p.objIndex = q.objIndex) (h₂ : p.offset = q.offset)
    (h₃ : p.mutable = q.mutable) : ptrDeref m h p = ptrDeref m h q := by
  unfold ptrDeref
  rw [h₁, h₂, h₃]

theorem bothAt_deref (hx : x + b < 2 ^ 60) :
    ptrDeref m h (getCarmPtr (startAddr + x + b) w) = ptrDeref m h (cursor x w b) := by
  rw [Nat.add_assoc, getCarmPtr_start hx]
  exact ptrDeref_congr rfl rfl rfl

theorem fillsOnce_of_room (hx : x < 2 ^ 60) (hsize : size ≤ room x) : FillsOnce m h x v size := by
  have hcursor : getCarmPtr (startAddr + x) true = cursor x true 0 := getCarmPtr_start hx
  unfold FillsOnce carmMemset
  rw [hcursor]
  rcases Nat.eq_zero_or_pos size with rfl | hpos
  · exact ⟨[], ⟨nofun, rfl⟩, rfl⟩
  obtain ⟨ns, hns, hsum, -, hrun⟩ := (oneRemote_follows (u := fillChunk m v) (t := never)
    (w := true) hsize).run_sweep (s := h) (Nat.zero_le size) hpos (Nat.le_refl _)
  refine ⟨ns, ⟨hns, hsum⟩, ?_⟩
  have hloop := carmMemsetLoop_of_run (p := cursor x true 0) (Nat.mod_lt _ (by decide)) hrun
  show (carmMemsetLoop m v size (size + 1) h (cursor x true 0) 0).map (·, startAddr + x) = _
  rw [hloop]
  rfl

theorem room_of_fillsOnce (hx : x < 2 ^ 60) (h₁ : FillsOnce m h x v size) : size ≤ room x := by
  by_contra hno
  obtain ⟨ns, -, hr⟩ := h₁
  have hcursor : getCarmPtr (startAddr + x) true = cursor x true 0 := getCarmPtr_start hx
  unfold carmMemset at hr
  rw [hcursor] at hr
  obtain ⟨h', hloop, -⟩ : ∃ h', carmMemsetLoop m v size (size + 1) h (cursor x true 0) 0 = .ok h' ∧
      (h', startAddr + x) = _ := map_ok.mp hr
  have hrun := run_of_carmMemsetLoop (p := cursor x true 0) (Nat.mod_lt _ (by decide)) hloop
  rw [(oneRemote_traps (u := fillChunk m v) (t := never) (Z := fun _ => True)
    (show room x < size by omega) fun _ _ _ _ _ => ⟨rfl, trivial⟩).run_none (c := cursor x true 0)
    (s := h) ⟨rfl, by decide, .inl rfl⟩ trivial] at hrun
  cases hrun

-- One remote operand: the run of the loop from its start.

section
variable {u : CarmPtr → σ → Nat → Nat → σ} {t : σ → Bool} {x y size : Nat} {w : Bool} {s : σ}
  {Z : σ → Prop}

theorem oneRemote_run (hsize : size ≤ room x) : ∃ ns, Covers size ns ∧
    Cuts (fun b n => (x + b) % objSize + n ≤ objSize) 0 ns ∧
    (oneRemote u t).run (2 ^ 32) size (size + 1) (cursor x w 0) 0 s =
      some (sweep t (fun s b n => u (cursor x w b) s b n) s 0 ns) := by
  obtain ⟨ns, hns, hsum, hcuts, hrun⟩ := (oneRemote_follows (u := u) (t := t) (w := w)
    hsize).run_sweep (s := s) (Nat.zero_le size)
    (show 0 < size + 1 from Nat.succ_pos _) (by omega)
  refine ⟨ns, ⟨hns, hsum⟩, hcuts.mono fun b n _ _ _ hn => ?_, hrun⟩
  have hoff := (slot_add_off (x + b)).2
  have hn : n ≤ objSize - (x + b) % objSize := hn
  have hs := objSize_eq
  omega

theorem oneRemote_stuck (hsize : room x < size)
    (hz : ∀ c s b n, Z s → t (u c s b n) = false ∧ Z (u c s b n)) (hs : Z s) :
    (oneRemote u t).run (2 ^ 32) size fuel (cursor x w 0) 0 s = none :=
  (oneRemote_traps hsize hz).run_none (c := cursor x w 0) ⟨rfl, by decide, .inl rfl⟩ hs

end

section
variable {u : CarmPtr × CarmPtr → σ → Nat → Nat → σ} {t : σ → Bool} {x y size : Nat}
  {w : Bool} {s : σ} {Z : σ → Prop}

theorem twoRemote_run (hx : x + size ≤ 2 ^ 60) (hy : y + size ≤ 2 ^ 60) (hpos : 0 < fuel)
    (hfuel : size ≤ fuel) (hsize : size ≤ max (room x) (room y)) : ∃ ns, Covers size ns ∧
    Cuts (fun b n => (x + b) % objSize + n ≤ objSize ∧ (y + b) % objSize + n ≤ objSize) 0 ns ∧
    (twoRemote (startAddr + x) (startAddr + y) w u t).run (2 ^ 32) size fuel
        (bothAt (startAddr + x) (startAddr + y) w 0) 0 s =
      some (sweep t (fun s b n => u (bothAt (startAddr + x) (startAddr + y) w b) s b n)
        s 0 ns) := by
  obtain ⟨ns, hns, hsum, hcuts, hrun⟩ := (twoRemote_follows (u := u) (t := t) (w := w) hx hy
    hsize).run_sweep (s := s) (Nat.zero_le size) hpos (by omega)
  refine ⟨ns, ⟨hns, hsum⟩, hcuts.mono fun b n hmem _ hb hn => ?_, hrun⟩
  have hpos := hns n hmem
  rw [twoRemote_len (by omega) (by omega)] at hn
  have h₁ := (slot_add_off (x + b)).2
  have h₂ := (slot_add_off (y + b)).2
  have hs := objSize_eq
  omega

theorem twoRemote_stuck (hx : x + size ≤ 2 ^ 60) (hy : y + size ≤ 2 ^ 60)
    (hsize : max (room x) (room y) < size)
    (hz : ∀ c s b n, Z s → t (u c s b n) = false ∧ Z (u c s b n)) (hs : Z s) :
    (twoRemote (startAddr + x) (startAddr + y) w u t).run (2 ^ 32) size fuel
      (bothAt (startAddr + x) (startAddr + y) w 0) 0 s = none :=
  (twoRemote_traps hx hy hsize hz).run_none (c := bothAt (startAddr + x) (startAddr + y) w 0)
    ⟨rfl, by decide, .inl (.inl rfl)⟩ hs

end

-- ---------------------------------------------------------------------------
-- carm_memcpy
-- ---------------------------------------------------------------------------

theorem carmMemcpy_in (hx : x < 2 ^ 60) (ha : a < 2 ^ 60) :
    carmMemcpy m h (startAddr + x) a size =
      (toOutcome ((oneRemote (copyIn m a) never).run (2 ^ 32) size (size + 1) (cursor x true 0) 0
        h)).map (·, startAddr + x) := by
  rw [← carmMemcpyDstLoop_run]
  unfold carmMemcpy
  rw [getCarmPtr_start hx, getCarmPtr_untagged ha]
  rfl

theorem carmMemcpy_out (ha : a < 2 ^ 60) (hy : y < 2 ^ 60) :
    carmMemcpy m h a (startAddr + y) size =
      (toOutcome ((oneRemote (copyOut m a) never).run (2 ^ 32) size (size + 1) (cursor y false 0) 0
        h)).map (·, a) := by
  rw [← carmMemcpySrcLoop_run]
  unfold carmMemcpy
  rw [getCarmPtr_start hy, getCarmPtr_untagged ha]
  rfl

theorem carmMemcpy_within (hx : x < 2 ^ 60) (hy : y < 2 ^ 60) :
    carmMemcpy m h (startAddr + x) (startAddr + y) size =
      (toOutcome ((twoRemote (startAddr + x) (startAddr + y) true (copyWithin m) never).run (2 ^ 32)
        size (size + 1) (bothAt (startAddr + x) (startAddr + y) true 0) 0 h)).map
        (·, startAddr + x) := by
  show _ = (toOutcome (ChunkLoop.run _ _ _ _ (getCarmPtr (startAddr + x) true,
    getCarmPtr (startAddr + y) false) 0 h)).map _
  rw [← carmMemcpyLoop_run getCarmPtr_offset getCarmPtr_offset]
  unfold carmMemcpy
  rw [getCarmPtr_start hx, getCarmPtr_start hy]
  rfl

def SomeRemote : Operand → Operand → Prop
  | .app _, .app _ => False
  | _, _ => True

theorem copiesOnce_of_room {d s : Operand} (hd : d.Within size) (hs : s.Within size)
    (hremote : SomeRemote d s) (hsize : size ≤ max d.room s.room) : CopiesOnce m h d s size := by
  cases d with
  | remote x =>
    cases s with
    | remote y =>
      obtain ⟨ns, hns, -, hrun⟩ := twoRemote_run (u := copyWithin m) (t := never) (w := true)
        (s := h) hd.2 hs.2 (Nat.succ_pos size) (Nat.le_succ size) hsize
      refine ⟨ns, hns, ?_⟩
      have hsweep : sweep never (copyChunk m (.remote x) (.remote y)) h 0 ns = _ :=
        Lib.sweep_congr (v := fun s b n =>
          copyWithin m (bothAt (startAddr + x) (startAddr + y) true b) s b n) fun h b n hn _ hb => by
        have hpos := hns.pos n hn
        have hsum := hns.sum
        have hx := hd.2
        have hy := hs.2
        unfold copyWithin bothAt
        simp only
        rw [bothAt_deref (by omega), bothAt_deref (by omega)]
        rfl
      rw [hsweep]
      show carmMemcpy m h (startAddr + x) (startAddr + y) size = _
      rw [carmMemcpy_within hd.1 hs.1, hrun]
      rfl
    | app a =>
      obtain ⟨ns, hns, -, hrun⟩ := oneRemote_run (u := copyIn m a) (t := never) (w := true)
        (s := h) (show size ≤ room x by simpa [Operand.room] using hsize)
      refine ⟨ns, hns, ?_⟩
      show carmMemcpy m h (startAddr + x) a size = _
      rw [carmMemcpy_in hd.1 hs.1, hrun]
      rfl
  | app a =>
    cases s with
    | remote y =>
      obtain ⟨ns, hns, -, hrun⟩ := oneRemote_run (u := copyOut m a) (t := never) (w := false)
        (s := h) (show size ≤ room y by simpa [Operand.room] using hsize)
      refine ⟨ns, hns, ?_⟩
      show carmMemcpy m h a (startAddr + y) size = _
      rw [carmMemcpy_out hd.1 hs.1, hrun]
      rfl
    | app b => exact hremote.elim

theorem map_toOutcome_none {o : Option σ} {f : σ → τ} (ho : o = none) :
    (toOutcome o).map f ≠ .ok r := by
  rw [ho]
  exact nofun

theorem room_of_carmMemcpy {d s : Operand} {r : Heap × Nat} (hd : d.Within size)
    (hs : s.Within size) (hremote : SomeRemote d s)
    (hr : carmMemcpy m h d.addr s.addr size = .ok r) : size ≤ max d.room s.room := by
  by_contra hno
  cases d with
  | remote x =>
    cases s with
    | remote y =>
      have hr : carmMemcpy m h (startAddr + x) (startAddr + y) size = .ok r := hr
      rw [carmMemcpy_within hd.1 hs.1] at hr
      exact map_toOutcome_none (twoRemote_stuck (Z := fun _ => True) hd.2 hs.2
        (show max (room x) (room y) < size from Nat.lt_of_not_le hno)
        (fun _ _ _ _ _ => ⟨rfl, trivial⟩) trivial) hr
    | app a =>
      have hroom : room x < size := by
        simp only [Operand.room] at hno
        omega
      have hr : carmMemcpy m h (startAddr + x) a size = .ok r := hr
      rw [carmMemcpy_in hd.1 hs.1] at hr
      exact map_toOutcome_none (oneRemote_stuck (Z := fun _ => True) hroom
        (fun _ _ _ _ _ => ⟨rfl, trivial⟩) trivial) hr
  | app a =>
    cases s with
    | remote y =>
      have hroom : room y < size := by
        simp only [Operand.room] at hno
        omega
      have hr : carmMemcpy m h a (startAddr + y) size = .ok r := hr
      rw [carmMemcpy_out hd.1 hs.1] at hr
      exact map_toOutcome_none (oneRemote_stuck (Z := fun _ => True) hroom
        (fun _ _ _ _ _ => ⟨rfl, trivial⟩) trivial) hr
    | app b => exact hremote

theorem room_of_copiesOnce {d s : Operand} (hd : d.Within size) (hs : s.Within size)
    (hremote : SomeRemote d s) (h₁ : CopiesOnce m h d s size) : size ≤ max d.room s.room := by
  obtain ⟨ns, -, hr⟩ := h₁
  exact room_of_carmMemcpy hd hs hremote hr

-- ---------------------------------------------------------------------------
-- carm_memcmp
-- ---------------------------------------------------------------------------

theorem carmMemcmp_dst (hx : x < 2 ^ 60) (ha : a < 2 ^ 60) :
    carmMemcmp m h (startAddr + x) a size =
      toOutcome ((oneRemote (compareDst m a) differ).run (2 ^ 32) size (size + 1)
        (cursor x false 0) 0 (h, .eq)) := by
  rw [← carmMemcmpDstLoop_run]
  unfold carmMemcmp
  rw [checkCarmObject_start hx, checkCarmObject_untagged ha, getCarmPtr_start hx]
  rfl

theorem carmMemcmp_src (ha : a < 2 ^ 60) (hy : y < 2 ^ 60) :
    carmMemcmp m h a (startAddr + y) size =
      toOutcome ((oneRemote (compareSrc m a) differ).run (2 ^ 32) size (size + 1)
        (cursor y false 0) 0 (h, .eq)) := by
  rw [← carmMemcmpSrcLoop_run]
  unfold carmMemcmp
  rw [checkCarmObject_start hy, checkCarmObject_untagged ha, getCarmPtr_start hy]
  rfl

theorem carmMemcmp_both (hx : x < 2 ^ 60) (hy : y < 2 ^ 60) :
    carmMemcmp m h (startAddr + x) (startAddr + y) size =
      carmMemcmpLoop m (startAddr + x) (startAddr + y) size (size + 1) h 0 := by
  unfold carmMemcmp
  rw [checkCarmObject_start hx, checkCarmObject_start hy]
  rfl

theorem carmMemcmp_chunks {d s : Operand} (hd : d.Starts size) (hs : s.Starts size)
    (hremote : SomeRemote d s) (hsize : size ≤ max d.room s.room) : ∃ ns, Covers size ns ∧
      Cuts (fun b n => d.Spans b n ∧ s.Spans b n) 0 ns ∧ carmMemcmp m h d.addr s.addr size =
        .ok (sweep differ (compareChunk m d s) (h, .eq) 0 ns) := by
  cases d with
  | remote x =>
    cases s with
    | remote y =>
      rcases Nat.eq_zero_or_pos size with rfl | hpos
      · refine ⟨[], ⟨nofun, rfl⟩, trivial, ?_⟩
        show carmMemcmp m h (startAddr + x) (startAddr + y) 0 = _
        rw [carmMemcmp_both hd.1 hs.1]
        rfl
      obtain ⟨ns, hns, hcuts, hrun⟩ := twoRemote_run (u := compareBoth m) (t := differ) (w := false)
        (s := (h, .eq)) hd.2 hs.2 hpos (Nat.le_refl size) hsize
      refine ⟨ns, hns, hcuts, ?_⟩
      have hsweep : sweep differ (compareChunk m (.remote x) (.remote y)) (h, .eq) 0 ns = _ :=
        Lib.sweep_congr (v := fun s b n =>
          compareBoth m (bothAt (startAddr + x) (startAddr + y) false b) s b n) fun r b n hn _ hb => by
        have hpos := hns.pos n hn
        have hsum := hns.sum
        have hx := hd.2
        have hy := hs.2
        unfold compareBoth bothAt
        simp only
        rw [bothAt_deref (by omega), bothAt_deref (by omega)]
        rfl
      rw [hsweep]
      show carmMemcmp m h (startAddr + x) (startAddr + y) size = _
      rw [carmMemcmp_both hd.1 hs.1, carmMemcmpLoop_of_run hrun]
    | app a =>
      obtain ⟨ns, hns, hcuts, hrun⟩ := oneRemote_run (u := compareDst m a) (t := differ) (w := false)
        (s := (h, .eq)) (show size ≤ room x by simpa [Operand.room] using hsize)
      refine ⟨ns, hns, hcuts.mono fun _ _ _ _ _ hn => ⟨hn, trivial⟩, ?_⟩
      show carmMemcmp m h (startAddr + x) a size = _
      rw [carmMemcmp_dst hd.1 hs, hrun]
      rfl
  | app a =>
    cases s with
    | remote y =>
      obtain ⟨ns, hns, hcuts, hrun⟩ := oneRemote_run (u := compareSrc m a) (t := differ) (w := false)
        (s := (h, .eq)) (show size ≤ room y by simpa [Operand.room] using hsize)
      refine ⟨ns, hns, hcuts.mono fun _ _ _ _ _ hn => ⟨trivial, hn⟩, ?_⟩
      show carmMemcmp m h a (startAddr + y) size = _
      rw [carmMemcmp_src hd hs.1, hrun]
      rfl
    | app b => exact hremote.elim

theorem comparesOnce_of_room {d s : Operand} (hd : d.Within size) (hs : s.Within size)
    (hremote : SomeRemote d s) (hsize : size ≤ max d.room s.room) : ComparesOnce m h d s size := by
  obtain ⟨ns, hns, -, hr⟩ := carmMemcmp_chunks (m := m) (h := h) hd.starts hs.starts hremote hsize
  exact ⟨ns, hns, hr⟩

abbrev AllZero (s : Heap × Ordering) : Prop := Zeros s.1

theorem Zeros.memcmp (hz : Zeros h) : h.memcmp d s n = .eq :=
  Heap.memcmp_eq_of_eq fun i _ => by rw [hz.mem, hz.mem]

theorem compareDst_goesOn (p : CarmPtr) (s : Heap × Ordering) (b n : Nat) (hz : AllZero s) :
    differ (compareDst cacheManager src p s b n) = false ∧
      AllZero (compareDst cacheManager src p s b n) :=
  ⟨differ_eq hz.ptrDeref.memcmp, hz.ptrDeref⟩

theorem compareSrc_goesOn (p : CarmPtr) (s : Heap × Ordering) (b n : Nat) (hz : AllZero s) :
    differ (compareSrc cacheManager dst p s b n) = false ∧
      AllZero (compareSrc cacheManager dst p s b n) :=
  ⟨differ_eq hz.ptrDeref.memcmp, hz.ptrDeref⟩

theorem compareBoth_goesOn (c : CarmPtr × CarmPtr) (s : Heap × Ordering) (b n : Nat)
    (hz : AllZero s) : differ (compareBoth cacheManager c s b n) = false ∧
      AllZero (compareBoth cacheManager c s b n) :=
  ⟨differ_eq hz.ptrDeref.ptrDeref.memcmp, hz.ptrDeref.ptrDeref⟩

theorem toOutcome_none {o : Option σ} (ho : o = none) : toOutcome o ≠ .ok r := by
  rw [ho]
  exact nofun

theorem room_of_comparesOnce {d s : Operand} (hd : d.Within size) (hs : s.Within size)
    (hremote : SomeRemote d s) (h₁ : ∀ m h, ComparesOnce m h d s size) :
    size ≤ max d.room s.room := by
  by_contra hno
  have hz : Zeros (Operands.zeroHeap fun _ => 0) := ⟨fun _ => rfl, fun _ _ => rfl⟩
  obtain ⟨ns, -, hr⟩ := h₁ cacheManager (Operands.zeroHeap fun _ => 0)
  cases d with
  | remote x =>
    cases s with
    | remote y =>
      have hr : carmMemcmp cacheManager _ (startAddr + x) (startAddr + y) size = _ := hr
      rw [carmMemcmp_both hd.1 hs.1] at hr
      have hrun := run_of_carmMemcmpLoop hr
      rw [twoRemote_stuck (Z := AllZero) hd.2 hs.2
        (show max (room x) (room y) < size from Nat.lt_of_not_le hno) compareBoth_goesOn hz] at hrun
      cases hrun
    | app a =>
      have hroom : room x < size := by
        simp only [Operand.room] at hno
        omega
      have hr : carmMemcmp cacheManager _ (startAddr + x) a size = _ := hr
      rw [carmMemcmp_dst hd.1 hs.1] at hr
      exact toOutcome_none (oneRemote_stuck (Z := AllZero) hroom compareDst_goesOn hz) hr
  | app a =>
    cases s with
    | remote y =>
      have hroom : room y < size := by
        simp only [Operand.room] at hno
        omega
      have hr : carmMemcmp cacheManager _ a (startAddr + y) size = _ := hr
      rw [carmMemcmp_src hd.1 hs.1] at hr
      exact toOutcome_none (oneRemote_stuck (Z := AllZero) hroom compareSrc_goesOn hz) hr
    | app b => exact hremote

/-- Each operation visits every byte once exactly up to the last object boundary
that the counter can hold. -/
theorem bulk_once_iff {d s : Operand} (hx : x < 2 ^ 60) (hd : d.Within size) (hs : s.Within size)
    (hremote : SomeRemote d s) :
    (∀ m h v, FillsOnce m h x v size ↔ size ≤ room x) ∧
    (∀ m h, CopiesOnce m h d s size ↔ size ≤ max d.room s.room) ∧
    ((∀ m h, ComparesOnce m h d s size) ↔ size ≤ max d.room s.room) :=
  ⟨fun _ _ _ => ⟨room_of_fillsOnce hx, fillsOnce_of_room hx⟩,
    fun _ _ => ⟨room_of_copiesOnce hd hs hremote, copiesOnce_of_room hd hs hremote⟩,
    ⟨room_of_comparesOnce hd hs hremote, fun hsize _ _ => comparesOnce_of_room hd hs hremote hsize⟩⟩

/-- Four gigabytes less a page, anywhere in remote memory. -/
theorem bulk_once_page :
    FillsOnce cacheManager (Operands.zeroHeap fun _ => 0) 12 0 (2 ^ 32 - 4096) :=
  ((bulk_once_iff (d := .remote 12) (s := .app 8) (by decide) ⟨by decide, by decide⟩
    ⟨by decide, by decide⟩ trivial).1 cacheManager _ 0).mpr (by decide)

/-- `carm_calloc` of four gigabytes never returns from its `carm_memset`. -/
theorem memset_never_returns :
    ¬∀ m h x v size, size ≤ kWorkingSetSize → FillsOnce m h x v size := by
  intro h
  have hfill := h cacheManager (Operands.zeroHeap fun _ => 0) 0 0 (2 ^ 32) (by decide)
  exact absurd (room_of_fillsOnce (by decide) hfill) (by decide)

end TrackFM
