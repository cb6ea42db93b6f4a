import TrackFM.Bulk
import TrackFM.Memcpy

/-!
# carm_realloc

The copy into the new block is as long as the old block. The contents are
preserved, but when the block shrinks the copy runs past the end of the new one.
-/

namespace TrackFM

open Heap (Coherent Writes Usable carmMemcpy carmRealloc)
open Lib (blit blit_at blit_out reach)

variable {m : Manager} {s s' : State} {h h' h₁ : Heap} {b : Block} {n size : Nat}

-- ---------------------------------------------------------------------------
-- The copy of the old block
-- ---------------------------------------------------------------------------

/-- The old block is short enough for the counter of the copy. -/
def Copyable (s : State) (b : Block) : Prop :=
  b.size ≤ max (room (s.heap.aspaceStart - startAddr)) (room (b.start - startAddr))

theorem twoRemote_no_wrap (hx : x + size ≤ 2 ^ 60) (hy : y + size ≤ 2 ^ 60)
    (hsize : size ≤ max (room x) (room y)) :
    ∀ k < size, k + reach objSize (x + k) (y + k) < 2 ^ 32 := by
  intro k hk
  have hroom := (twoRemote_follows (u := copyWithin cacheManager) (t := never) (w := true) hx hy
    hsize).room k hk
  rw [twoRemote_len (by omega) (by omega)] at hroom
  exact hroom

theorem Intact.ranges (hs : Intact m s) (hb : b ∈ s.blocks)
    (hfit : s.heap.aspaceStart + b.size ≤ startAddr + s.heap.totalObjCnt * objSize) :
    ∃ x y, s.heap.aspaceStart = startAddr + x ∧ b.start = startAddr + y ∧
      y + b.size ≤ x ∧ x + b.size ≤ 2 ^ 60 ∧ x + b.size ≤ s.heap.totalObjCnt * objSize := by
  have hstart := hs.accounted.tiled.start_le
  have habove := hs.accounted.tiled.above b hb
  have hbelow := hs.accounted.tiled.below b hb
  have hend := hs.below.trans (show slotsEnd ≤ startAddr + 2 ^ 60 by decide)
  obtain ⟨x, hx⟩ := Nat.exists_eq_add_of_le hstart
  obtain ⟨y, hy⟩ := Nat.exists_eq_add_of_le habove
  rw [Block.stop] at hbelow
  exact ⟨x, y, hx, hy, by omega, by omega, by omega⟩

theorem Intact.copy_returns (hs : Intact m s) (hb : b ∈ s.blocks) (hlive : b.freed = false)
    (hfit : s.heap.aspaceStart + b.size ≤ startAddr + s.heap.totalObjCnt * objSize)
    (hcopy : Copyable s b) : ∃ h₁,
      carmMemcpy m (s.heap.bump k) s.heap.aspaceStart b.start b.size =
        .ok (h₁, s.heap.aspaceStart) ∧
      Writes m (s.heap.bump k) h₁ s.heap.aspaceStart b.size
        fun j => s.heap.view m (b.start + j) := by
  obtain ⟨x, y, hx, hy, hyx, hx60, hxt⟩ := hs.ranges hb hfit
  have hpos := hs.accounted.tiled.nonempty b hb
  rw [Copyable, hx, hy, Nat.add_sub_cancel_left, Nat.add_sub_cancel_left] at hcopy
  have hdst : ∀ j < b.size, (s.heap.bump k).Current ((x + j) / objSize) := fun j hj =>
    Heap.bump_current.mpr (hs.beyond (by omega) (by omega))
  have hsrc : ∀ j < b.size, (s.heap.bump k).Current ((y + j) / objSize) := by
    intro j hj
    have hlv : s.Live (startAddr + (y + j)) := ⟨b, hb, hlive, by omega, by rw [Block.stop]; omega⟩
    obtain ⟨z, -, he, -, hcur⟩ := hs.live hlv
    rw [Nat.add_left_cancel he]
    exact Heap.bump_current.mpr hcur
  obtain ⟨h₁, hr, hcs⟩ := Heap.carmMemcpy_remote (Heap.bump_coherent hs.coherent)
    (twoRemote_no_wrap hx60 (by omega) hcopy) hpos hdst hsrc
  rw [hx, hy]
  exact ⟨h₁, hr, hcs.writes_ordered (Lib.chunks_sum (by decide)) (.inr (by omega))⟩

theorem Intact.copyable (hs : Intact m s) (hb : b ∈ s.blocks)
    (hfit : s.heap.aspaceStart + b.size ≤ startAddr + s.heap.totalObjCnt * objSize)
    (hr : carmMemcpy m h s.heap.aspaceStart b.start b.size = .ok r) : Copyable s b := by
  obtain ⟨x, y, hx, hy, hyx, hx60, -⟩ := hs.ranges hb hfit
  have hpos := hs.accounted.tiled.nonempty b hb
  rw [hx, hy] at hr
  rw [Copyable, hx, hy, Nat.add_sub_cancel_left, Nat.add_sub_cancel_left]
  exact room_of_carmMemcpy (d := .remote x) (s := .remote y) ⟨by omega, hx60⟩
    ⟨by omega, by omega⟩ trivial hr

theorem Intact.copy (hs : Intact m s) (hb : b ∈ s.blocks) (hlive : b.freed = false)
    (hfit : s.heap.aspaceStart + b.size ≤ startAddr + s.heap.totalObjCnt * objSize)
    (hr : carmMemcpy m (s.heap.bump size) s.heap.aspaceStart b.start b.size = .ok (h₁, r)) :
    Writes m (s.heap.bump size) h₁ s.heap.aspaceStart b.size
      fun j => s.heap.view m (b.start + j) := by
  obtain ⟨h₂, hr₂, hw⟩ := hs.copy_returns hb hlive hfit (hs.copyable hb hfit hr)
  rw [hr] at hr₂
  cases hr₂
  exact hw

-- ---------------------------------------------------------------------------
-- The free of the old block
-- ---------------------------------------------------------------------------

theorem Intact.free_view (hs : Intact m s) (hb : b ∈ s.blocks)
    (hr : s.heap.carmFree b.start = .ok h') (hu : Usable m s.heap a) :
    h'.view m a = s.heap.view m a := by
  rw [hs.accounted.tiled.carmFree_eq hb (hs.accounted.below.trans (by decide))] at hr
  cases hu with
  | remote hcur =>
    have hx := hcur.lt_start hs.coherent
    rw [Heap.view_start hx, Heap.view_start hx]
    exact (Heap.freePieces_shows hr).2 _ hcur.lt _
  | app hlt _ =>
    have ha : a < 2 ^ 60 := hlt
    rw [Heap.view_untagged ha, Heap.view_untagged ha]
    exact congrFun (Heap.freePieces_shows (m := m) hr).1 a

-- ---------------------------------------------------------------------------
-- The call
-- ---------------------------------------------------------------------------

def HasRoom (s : State) (n : Nat) : Prop :=
  s.heap.aspaceStart + n ≤ startAddr + s.heap.totalObjCnt * objSize

theorem HasRoom.mono (h : HasRoom s n) (hle : k ≤ n) : HasRoom s k :=
  (Nat.add_le_add_left hle _).trans h

/-- The request and the copy lie below the slots in use and leave tables for
every slot recycled later. -/
def Fitting (s : State) (n : Nat) : Prop :=
  s.heap.aspaceStart + n ≤ startAddr +
    min s.heap.totalObjCnt (totalObjects - kWorkingSetSize / objSize) * objSize

instance : Decidable (Fitting s n) := inferInstanceAs (Decidable (_ ≤ _))

/-- What a call leaves that hands out a fresh block with the old contents and
changes nothing else the program may look at. -/
structure Reallocated (m : Manager) (s : State) (b : Block) (n : Nat) (h' : Heap) (r : Nat) : Prop where
  fresh : ∀ c ∈ s.blocks, c.stop ≤ r
  recorded : h'.allocationMap r = rounded n
  contents : ∀ j < min b.size n, h'.view m (r + j) = s.heap.view m (b.start + j)
  frame : ∀ a, Usable m s.heap a → a < r ∨ r + rounded n ≤ a → h'.view m a = s.heap.view m a

def Reallocates (m : Manager) (s : State) (b : Block) (n : Nat) : Prop :=
  ∃ h' r, s.heap.carmRealloc m b.start n = .ok (h', r) ∧ Reallocated m s b n h' r

/-- The copy ends, and what it writes past the new block is there already. -/
structure Harmless (m : Manager) (s : State) (b : Block) (n : Nat) : Prop where
  copyable : Copyable s b
  excess : ∀ j, rounded n ≤ j → j < b.size →
    s.heap.view m (s.heap.aspaceStart + j) = s.heap.view m (b.start + j)

theorem carmRealloc_ok (htag : checkCarmObject ptr) (hn : 0 < n) :
    h.carmRealloc m ptr n = .ok (h', r) ↔ r = h.aspaceStart ∧ ∃ h₁ p,
      carmMemcpy m (h.bump (enforceSizeConstraints n)) h.aspaceStart ptr
        ((h.bump (enforceSizeConstraints n)).allocationMap ptr) = .ok (h₁, p) ∧
      h₁.carmFree ptr = .ok h' := by
  rw [carmRealloc_pos htag (Nat.ne_of_gt hn)]
  constructor
  · intro hr
    obtain ⟨⟨h₁, p⟩, hcopy, hr⟩ := bind_ok.mp hr
    obtain ⟨h₂, hfree, hr⟩ := bind_ok.mp hr
    cases hr
    exact ⟨rfl, h₁, p, hcopy, hfree⟩
  · rintro ⟨rfl, h₁, p, hcopy, hfree⟩
    exact bind_ok.mpr ⟨(h₁, p), hcopy, bind_ok.mpr ⟨h', hfree, rfl⟩⟩

theorem Fitting.mono (hf : Fitting s n) (hle : k ≤ n) : Fitting s k :=
  (Nat.add_le_add_left hle _).trans hf

theorem Fitting.hasRoom (hf : Fitting s n) : HasRoom s n :=
  hf.trans (Nat.add_le_add_left (Nat.mul_le_mul_right _ (Nat.min_le_left ..)) _)

theorem Intact.carmRealloc_ok (hs : Intact m s) (hb : b ∈ s.blocks) (hn : 0 < n)
    (hroom : HasRoom s (max (rounded n) b.size)) :
    s.heap.carmRealloc m b.start n = .ok (h', r) ↔ r = s.heap.aspaceStart ∧ ∃ h₁ p,
      carmMemcpy m (s.heap.bump (rounded n)) s.heap.aspaceStart b.start b.size = .ok (h₁, p) ∧
      h₁.carmFree b.start = .ok h' := by
  have habove := hs.accounted.tiled.above b hb
  have hbelow := hs.accounted.tiled.below b hb
  have hpos := hs.accounted.tiled.nonempty b hb
  have hend := (hroom.mono (Nat.le_max_left ..)).trans
    (hs.below.trans (show slotsEnd ≤ startAddr + 2 ^ 60 by decide))
  have hstart := hs.accounted.tiled.start_le
  have hround : enforceSizeConstraints n = rounded n := enforceSizeConstraints_eq (by omega)
  have htag : checkCarmObject b.start := by
    obtain ⟨y, hy⟩ := Nat.exists_eq_add_of_le habove
    rw [hy]
    exact checkCarmObject_start (by rw [Block.stop] at hbelow; omega)
  have hne : b.start ≠ s.heap.aspaceStart := by
    rw [Block.stop] at hbelow
    omega
  have hmap : (s.heap.bump (rounded n)).allocationMap b.start = b.size :=
    (Function.update_of_ne hne ..).trans (hs.accounted.tiled.recorded b hb)
  rw [TrackFM.carmRealloc_ok htag hn, hround, hmap]

theorem Intact.moved (hs : Intact m s) (hroom : HasRoom s (rounded n))
    (hw : Writes m (s.heap.bump (rounded n)) h₁ s.heap.aspaceStart k f) :
    Intact m ⟨h₁, ⟨s.heap.aspaceStart, rounded n, n, false⟩ :: s.blocks, w⟩ := by
  have hs₁ := (hs.handOut (f := fun _ => none) hroom).writes (w := w) hw
  simp only [State.handOut, bump_allocationMap] at hs₁
  exact hs₁

theorem Intact.realloc_returns (hs : Intact m s) (hb : b ∈ s.blocks) (hlive : b.freed = false)
    (hn : 0 < n) (hroom : HasRoom s (max (rounded n) b.size)) (hcopy : Copyable s b) :
    ∃ h', s.heap.carmRealloc m b.start n = .ok (h', s.heap.aspaceStart) := by
  obtain ⟨h₁, hr, hw⟩ := hs.copy_returns (k := rounded n) hb hlive
    (hroom.mono (Nat.le_max_right ..)) hcopy
  have hs₁ := hs.moved (w := s.written) (hroom.mono (Nat.le_max_left ..)) hw
  obtain ⟨h', hfree, -⟩ := carmFree_accounts hs₁.accounted fun c hc (he : c.start = b.start) => by
    rw [hs₁.accounted.tiled.start_inj hc (List.mem_cons_of_mem _ hb) he]
    exact hlive
  exact ⟨h', (hs.carmRealloc_ok hb hn hroom).mpr ⟨rfl, h₁, _, hr, hfree⟩⟩

theorem Intact.realloc_view (hs : Intact m s) (hb : b ∈ s.blocks) (hlive : b.freed = false)
    (hn : 0 < n) (hroom : HasRoom s (max (rounded n) b.size))
    (hr : s.heap.carmRealloc m b.start n = .ok (h', r)) :
    r = s.heap.aspaceStart ∧ Copyable s b ∧ h'.allocationMap r = rounded n ∧
      ∀ a, Usable m s.heap a → h'.view m a =
        blit (s.heap.view m) r b.size (fun j => s.heap.view m (b.start + j)) a := by
  obtain ⟨rfl, h₁, p, hcopy, hfree⟩ := (hs.carmRealloc_ok hb hn hroom).mp hr
  have hcopied := hroom.mono (Nat.le_max_right ..)
  have hw := hs.copy hb hlive hcopied hcopy
  have hs₁ := hs.moved (w := s.written) (hroom.mono (Nat.le_max_left ..)) hw
  refine ⟨rfl, hs.copyable hb hcopied hcopy, ?_, fun a hu => ?_⟩
  · rw [(Heap.carmFree_frees hfree).allocationMap, hw.alloc.allocationMap, bump_allocationMap]
  · have hub : Usable m (s.heap.bump (rounded n)) a := hu.mono fun _ => Heap.bump_current.mpr
    rw [hs₁.free_view (List.mem_cons_of_mem _ hb) hfree (hub.mono hw.current), hw.view a hub]
    rfl

theorem Intact.reallocates_iff (hs : Intact m s) (hb : b ∈ s.blocks) (hlive : b.freed = false)
    (hn : 0 < n) (hroom : HasRoom s (max (rounded n) b.size)) :
    Reallocates m s b n ↔ Harmless m s b n := by
  have hbelow := hs.accounted.tiled.below
  have hround := le_rounded (n := n)
  have hcopied : s.heap.aspaceStart + b.size ≤ startAddr + s.heap.totalObjCnt * objSize :=
    hroom.mono (Nat.le_max_right ..)
  have hstart := hs.accounted.tiled.start_le
  have hnew : ∀ j < b.size, Usable m s.heap (s.heap.aspaceStart + j) := by
    intro j hj
    obtain ⟨x, hx⟩ := Nat.exists_eq_add_of_le hstart
    rw [hx, Nat.add_assoc]
    exact .remote (hs.beyond (by omega) (by omega))
  constructor
  · rintro ⟨h', r, hr, hre⟩
    obtain ⟨rfl, hcopy, -, hview⟩ := hs.realloc_view hb hlive hn hroom hr
    refine ⟨hcopy, fun j hj hjm => ?_⟩
    rw [← hre.frame _ (hnew j hjm) (.inr (Nat.add_le_add_left hj _)), hview _ (hnew j hjm),
      blit_at hjm]
  · intro hok
    obtain ⟨h', hr⟩ := hs.realloc_returns hb hlive hn hroom hok.copyable
    obtain ⟨-, -, hmap, hview⟩ := hs.realloc_view hb hlive hn hroom hr
    refine ⟨h', _, hr, hbelow, hmap, fun j hj => ?_, fun a hu hout => ?_⟩
    · have hjm : j < b.size := hj.trans_le (Nat.min_le_left ..)
      rw [hview _ (hnew j hjm), blit_at hjm]
    · rw [hview a hu]
      by_cases hin : s.heap.aspaceStart ≤ a ∧ a < s.heap.aspaceStart + b.size
      · obtain ⟨j, rfl⟩ := Nat.exists_eq_add_of_le hin.1
        have hjm : j < b.size := Nat.lt_of_add_lt_add_left hin.2
        rw [blit_at hjm]
        exact (hok.excess j (by omega) hjm).symm
      · rw [blit_out (by omega)]

theorem Intact.realloc (hs : Intact m s) (hb : b ∈ s.blocks) (hlive : b.freed = false) (hn : 0 < n)
    (hroom : HasRoom s (max (rounded n) b.size)) (hr : s.heap.carmRealloc m b.start n = .ok (h', r))
    (hslots : h'.totalObjCnt ≤ totalObjects) : Intact m ((s.handOut h' r n f).free h' b.start) := by
  obtain ⟨rfl, -, hmap, -⟩ := hs.realloc_view hb hlive hn hroom hr
  obtain ⟨-, h₁, p, hcopy, hfree⟩ := (hs.carmRealloc_ok hb hn hroom).mp hr
  have hw := hs.copy hb hlive (hroom.mono (Nat.le_max_right ..)) hcopy
  have hs₁ := hs.moved (w := (s.handOut h' s.heap.aspaceStart n f).written)
    (hroom.mono (Nat.le_max_left ..)) hw
  have hfreed := hs₁.free (List.mem_cons_of_mem _ hb) hlive hfree hslots
  simp only [State.handOut, State.free, hmap] at hfreed ⊢
  exact hfreed

-- ---------------------------------------------------------------------------
-- Runs
-- ---------------------------------------------------------------------------

def Op.copied (s : State) : Op → Nat
  | .realloc ptr _ => s.heap.allocationMap ptr
  | _ => 0

/-- The steps of a program that frees and reallocates live blocks only and stays
within the slots in use and the tables. -/
structure Legal (m : Manager) (s : State) (op : Op) : Prop where
  room : ∀ n, op.request = some n → HasRoom s (max (rounded n) (op.copied s))
  frees : ∀ ptr, op.frees = some ptr → ∃ b ∈ s.blocks, b.start = ptr ∧ b.freed = false
  access : ∀ a n, op.accesses = some (a, n) → InObject s a n
  object : ∀ o, op = .evacuate o → o < s.heap.objCount
  slots : ∀ s', step m s op = .ok s' → s'.heap.totalObjCnt ≤ totalObjects

theorem Intact.step (hs : Intact m s) (hok : Legal m s op) (hr : TrackFM.step m s op = .ok s') :
    Intact m s' := by
  have hslots := hok.slots s' hr
  have hround : ∀ n, op.request = some n → enforceSizeConstraints n = rounded n := by
    intro n hreq
    have hlt := (((hok.room n hreq).mono (Nat.le_max_left ..)).trans hs.below).trans_lt
      (show slotsEnd < 2 ^ 64 by decide)
    exact enforceSizeConstraints_eq ((Nat.le_add_left ..).trans_lt hlt)
  have hfits : ∀ n, op.request = some n → HasRoom s (rounded n) := fun n hreq =>
    (hok.room n hreq).mono (Nat.le_max_left ..)
  cases op with
  | malloc size =>
    obtain rfl := Except.ok.inj hr
    rw [hround size rfl]
    exact hs.handOut (hfits size rfl)
  | calloc elem elemSize =>
    obtain ⟨⟨h, ret⟩, hc, he⟩ := bind_ok.mp hr
    obtain rfl := Except.ok.inj he
    exact hs.calloc_handOut (hfits _ rfl) hc
  | realloc ptr size =>
    obtain ⟨⟨h, ret⟩, hc, he⟩ := bind_ok.mp hr
    by_cases htag : checkCarmObject ptr
    case neg =>
      rw [carmRealloc_untagged htag] at hc
      cases hc
      simp only [htag, Bool.not_false, if_true] at he
      obtain rfl := Except.ok.inj he
      exact hs
    obtain ⟨b, hb, rfl, hlive⟩ := hok.frees ptr (by simp only [Op.frees, htag, if_true])
    simp only [htag, Bool.not_true, Bool.false_eq_true, if_false] at he
    by_cases hsize : size = 0
    · subst hsize
      rw [carmRealloc_zero htag] at hc
      obtain ⟨h₁, hf, hc⟩ := bind_ok.mp hc
      cases hc
      obtain rfl := Except.ok.inj he
      exact hs.free hb hlive hf hslots
    · rw [if_neg hsize] at he
      obtain rfl := Except.ok.inj he
      have hroom := hok.room size (by simp [Op.request, htag, hsize])
      rw [Op.copied, hs.accounted.tiled.recorded b hb] at hroom
      exact hs.realloc hb hlive (Nat.pos_of_ne_zero hsize) hroom hc hslots
  | free ptr =>
    obtain ⟨h, hf, he⟩ := bind_ok.mp hr
    obtain rfl := Except.ok.inj he
    obtain ⟨b, hb, rfl, hlive⟩ := hok.frees ptr rfl
    exact hs.free hb hlive hf hslots
  | read addr n =>
    obtain rfl := Except.ok.inj hr
    have hin := hok.access addr n rfl
    exact hs.keeps (hs.guardedRead (hin.live 0 hin.pos))
  | write addr n bytes =>
    obtain rfl := Except.ok.inj hr
    exact hs.writes (hs.guardedWrite (hok.access addr n rfl))
  | evacuate o =>
    obtain rfl := Except.ok.inj hr
    exact hs.keeps (Heap.evacuate_keeps hs.coherent (hok.object o rfl))

theorem Reach.intact (hr : Reach m (Legal m) s) : Intact m s :=
  hr.invariant (I := Intact m) (fun _ _ => .init) fun _ _ _ hs hok => hs.step hok

structure Sensible (s : State) (op : Op) : Prop where
  fits : ∀ n, op.request = some n → Fitting s (max (rounded n) (op.copied s))
  frees : ∀ ptr, op.frees = some ptr → ∃ b ∈ s.blocks, b.start = ptr ∧ b.freed = false
  access : ∀ a n, op.accesses = some (a, n) → InObject s a n
  object : ∀ o, op = .evacuate o → o < s.heap.objCount

structure Stocked (m : Manager) (s : State) : Prop where
  intact : Intact m s
  initial : s.heap.numObjects = kWorkingSetSize / objSize
  spare : s.heap.aspaceStart ≤ startAddr + (totalObjects - kWorkingSetSize / objSize) * objSize

theorem Fitting.spare (hf : Fitting s n) : s.heap.aspaceStart + n ≤
    startAddr + (totalObjects - kWorkingSetSize / objSize) * objSize :=
  hf.trans (Nat.add_le_add_left (Nat.mul_le_mul_right _ (Nat.min_le_right ..)) _)

/-- Each slot below the bump pointer is recycled at most once. -/
theorem Stocked.slots (ha : Accounted s) (hn : s.heap.numObjects = kWorkingSetSize / objSize)
    (hs : s.heap.aspaceStart ≤ startAddr + (totalObjects - kWorkingSetSize / objSize) * objSize) :
    s.heap.totalObjCnt ≤ totalObjects := by
  have hext := ha.extent hs
  rw [hn, Nat.add_sub_cancel' (by decide)] at hext
  exact hext

theorem Sensible.disciplined (ht : Tiled s) (hok : Sensible s op) : Disciplined s op := by
  refine ⟨fun n hreq => ?_, fun ptr hf c hc he => ?_⟩
  · exact ((hok.fits n hreq).mono (Nat.le_max_left ..)).spare.trans (by decide)
  · obtain ⟨b, hb, rfl, hlive⟩ := hok.frees ptr hf
    exact ht.start_inj hc hb he ▸ hlive

theorem Stocked.spare_step (hs : Stocked m s) (hok : Sensible s op) (hr : step m s op = .ok s') :
    s'.heap.aspaceStart ≤ startAddr + (totalObjects - kWorkingSetSize / objSize) * objSize := by
  obtain ⟨s₁, hh, hrel⟩ := step_parts hr
  have h₁ : s₁.heap.aspaceStart ≤
      startAddr + (totalObjects - kWorkingSetSize / objSize) * objSize := by
    cases hreq : op.request with
    | none =>
      rw [(hh.none hreq).2.alloc.aspaceStart]
      exact hs.spare
    | some n =>
      have hfit := ((hok.fits n hreq).mono (Nat.le_max_left ..)).spare
      have hend : startAddr + (totalObjects - kWorkingSetSize / objSize) * objSize < 2 ^ 64 := by
        decide
      have hle := le_rounded (n := n)
      obtain ⟨size, hsize, -, htouch⟩ := hh.some n hreq
      rw [htouch.alloc.aspaceStart, hsize (by omega), enforceSizeConstraints_eq (by omega)]
      exact (Nat.mod_le _ _).trans hfit
  cases hf : op.frees with
  | none =>
    rw [hrel.none hf]
    exact h₁
  | some ptr =>
    rw [(Heap.carmFree_frees (hrel.some ptr hf).1).aspaceStart]
    exact h₁

theorem Sensible.legal (hs : Stocked m s) (hok : Sensible s op) : Legal m s op where
  room n hreq := (hok.fits n hreq).hasRoom
  frees := hok.frees
  access := hok.access
  object := hok.object
  slots s' hr := by
    have hacc := hs.intact.accounted.step (hok.disciplined hs.intact.accounted.tiled) hr
    exact Stocked.slots hacc ((step_numObjects hr).trans hs.initial) (hs.spare_step hok hr)

theorem Stocked.step (hs : Stocked m s) (hok : Sensible s op) (hr : step m s op = .ok s') :
    Stocked m s' :=
  ⟨hs.intact.step (hok.legal hs) hr, (step_numObjects hr).trans hs.initial, hs.spare_step hok hr⟩

theorem Stocked.init {ptrs : Nat → Option Nat} {mem : Lib.Mem UInt8} : Stocked m (init ptrs mem) :=
  ⟨.init, rfl, Nat.le_add_right ..⟩

theorem Reach.stocked (hr : Reach m Sensible s) : Stocked m s :=
  hr.invariant (fun _ _ => .init) fun _ _ _ hs hok => hs.step hok

/-- In every run whose requests and copies fit, the call on a live block keeps
what it should exactly when it is harmless. -/
theorem realloc_preserves_iff (hr : Reach m Sensible s) (hb : b ∈ s.blocks)
    (hlive : b.freed = false) (hn : 0 < n) (hfit : Fitting s (max (rounded n) b.size)) :
    Reallocates m s b n ↔ Harmless m s b n :=
  hr.stocked.intact.reallocates_iff hb hlive hn hfit.hasRoom

/-- A block of 16 bytes whose byte 8 is 7. -/
theorem reach_written : ∃ s, Reach cacheManager Sensible s ∧ s.blocks = [⟨startAddr, 16, 16, false⟩] ∧
    s.heap.aspaceStart = startAddr + 16 ∧ s.heap.totalObjCnt = kWorkingSetSize / objSize ∧
    s.heap.view cacheManager (startAddr + 8) = 7 ∧ s.heap.view cacheManager (startAddr + 24) = 0 := by
  refine ⟨_, .next (.next (.init (fun _ => none) fun _ => 0)
    ⟨.malloc 16, ⟨?_, nofun, nofun, nofun⟩, rfl⟩)
    ⟨.write (startAddr + 8) 1 fun _ => 7, ⟨nofun, nofun, ?_, nofun⟩, rfl⟩, rfl, rfl, rfl, rfl, rfl⟩
  · rintro n ⟨⟩
    decide
  · rintro a n ⟨⟩
    exact .byte ⟨_, List.mem_singleton_self _, rfl, by decide⟩

theorem fitting_written (ha : s.heap.aspaceStart = startAddr + 16)
    (ht : s.heap.totalObjCnt = kWorkingSetSize / objSize) (hn : n ≤ 24) : Fitting s n := by
  rw [Fitting, ha, ht]
  exact (Nat.add_le_add_left hn _).trans (by decide)

theorem realloc_preserves_grown : ∃ s, Reach cacheManager Sensible s ∧
    Reallocates cacheManager s ⟨startAddr, 16, 16, false⟩ 24 := by
  obtain ⟨s, hr, hb, ha, ht, -, -⟩ := reach_written
  refine ⟨s, hr, (realloc_preserves_iff hr (hb ▸ List.mem_singleton_self _) rfl (by decide)
    (fitting_written ha ht (by decide))).mpr ⟨?_, fun j hj hjm => ?_⟩⟩
  · rw [Copyable, ha]
    decide
  · exact absurd (hj.trans_lt hjm) (by decide)

/-- A block halved in size: its second half goes past the end of the new block. -/
theorem realloc_overruns : ¬∀ m s b n, Reach m Sensible s → b ∈ s.blocks → b.freed = false → 0 < n →
    Fitting s (max (rounded n) b.size) → Reallocates m s b n := by
  intro h
  obtain ⟨s, hr, hb, ha, ht, h₇, h₀⟩ := reach_written
  obtain ⟨-, hexcess⟩ := (hr.stocked.intact.reallocates_iff (hb ▸ List.mem_singleton_self _) rfl
    (by decide) (fitting_written ha ht (by decide)).hasRoom).mp
    (h cacheManager s ⟨startAddr, 16, 16, false⟩ 8 hr (hb ▸ List.mem_singleton_self _) rfl
      (by decide) (fitting_written ha ht (by decide)))
  have heq := hexcess 8 (by decide) (by decide)
  rw [ha] at heq
  have h₇₀ : (0 : UInt8) = 7 := h₀.symm.trans (heq.trans h₇)
  cases h₇₀

end TrackFM
