import TrackFM.Intact
import TrackFM.Cache
import TrackFM.Refinement

/-!
# The two frontiers

Recycled objects go to slot `total_obj_cnt`, blocks to `aspace_start`, and
nothing keeps the second below the first: once a block lies past the slots in
use, a free may give its slot the object of a freed one. A free while all blocks
lie below the slots in use disturbs no live block.
-/

namespace TrackFM

open Lib (Piece)
open Heap (Coherent freePieces)

variable {m : Manager} {s s' : State}

def liveBytes (s : State) : Nat := ((s.blocks.filter fun b => !b.freed).map Block.size).sum

structure Tenant (s : State) (op : Op) : Prop where
  fits : ∀ n, op.request = some n → liveBytes s + rounded n ≤ kWorkingSetSize
  frees : ∀ ptr, op.frees = some ptr → ∃ b ∈ s.blocks, b.start = ptr ∧ b.freed = false
  access : ∀ a n, op.accesses = some (a, n) → InObject s a n
  object : ∀ o, op = .evacuate o → o < s.heap.objCount
  plain : ∀ ptr size, op ≠ .realloc ptr size

abbrev Heap.Recycles (h : Heap) (p : Piece) : Prop := h.credited p = objSize ∧ h.ptrs p.slot ≠ none

/-- All blocks lie below the slots in use, and there are tables for the slots
the free adds. -/
structure Roomy (s : State) (ptr : Nat) : Prop where
  below : ∀ b ∈ s.blocks, b.stop ≤ startAddr + s.heap.totalObjCnt * objSize
  slots : ∀ b ∈ s.blocks, b.start = ptr →
    s.heap.totalObjCnt + b.pieces.countP (fun p => s.heap.Recycles p) ≤ totalObjects

/-- A step that leaves the slots of live blocks alone and adds slots there are
tables for. -/
structure Undisturbed (s s' : State) : Prop where
  slot : ∀ i, (∃ b ∈ s'.blocks, b.freed = false ∧ 0 < b.bytesIn i) →
    s'.heap.ptrs i = s.heap.ptrs i ∧ ∀ o, s.heap.ptrs i = some o →
      (s'.heap.objs o).carmObjIndex = (s.heap.objs o).carmObjIndex
  added : ∀ i, s.heap.totalObjCnt ≤ i → i < s'.heap.totalObjCnt → i < totalObjects

theorem freePieces_extent {h h' : Heap} {ps : List Piece} (hnd : (ps.map Piece.slot).Nodup)
    (hps : ∀ p ∈ ps, p.slot < h.totalObjCnt) (hr : freePieces h ps = .ok h') :
    h'.totalObjCnt ≤ h.totalObjCnt + ps.countP (fun p => h.Recycles p) := by
  induction ps generalizing h with
  | nil =>
    cases hr
    exact Nat.le_refl _
  | cons p ps ih =>
    rw [List.map_cons, List.nodup_cons] at hnd
    have hne : ∀ q ∈ ps, q.slot ≠ p.slot := fun q hq he => hnd.1 (he ▸ List.mem_map_of_mem hq)
    have hlt : ∀ q ∈ ps, q.slot < h.totalObjCnt := fun q hq => hps q (List.mem_cons_of_mem _ hq)
    have hcredited : ∀ q ∈ ps, (h.credit p.slot p.len).credited q = h.credited q := fun q hq => by
      rw [Heap.credited, Heap.credit_other (hne q hq)]
      rfl
    rcases Nat.lt_trichotomy (h.credited p) objSize with hless | hfull | hgt
    · rw [freePieces, Heap.freePiece_count hless] at hr
      have hsame : ps.countP (fun q => (h.credit p.slot p.len).Recycles q) =
          ps.countP fun q => h.Recycles q :=
        List.countP_congr fun q hq => by
          simp only [Heap.Recycles, hcredited q hq]
          exact Iff.rfl
      rw [List.countP_cons_of_neg (by simp; omega), ← hsame]
      exact ih (h := h.credit p.slot p.len) hnd.2 hlt hr
    · cases ho : h.ptrs p.slot with
      | none =>
        rw [freePieces, Heap.freePiece_stop hfull ho] at hr
        cases hr
        exact Nat.le_add_right ..
      | some o =>
        rw [freePieces, Heap.freePiece_recycle hfull ho] at hr
        have hsame : ps.countP (fun q =>
            ((h.credit p.slot p.len).updateObjectList p.slot).Recycles q) =
            ps.countP fun q => h.Recycles q :=
          List.countP_congr fun q hq => by
            have hptr : ((h.credit p.slot p.len).updateObjectList p.slot).ptrs q.slot = h.ptrs q.slot :=
              Function.update_of_ne (Nat.ne_of_lt (hlt q hq)) ..
            have hcred : ((h.credit p.slot p.len).updateObjectList p.slot).credited q = h.credited q :=
              hcredited q hq
            simp only [Heap.Recycles, hptr, hcred]
        rw [List.countP_cons_of_pos (by simp [hfull, ho]), ← hsame]
        have := ih hnd.2 (fun q hq => Nat.lt_succ_of_lt (hlt q hq)) hr
        have hnext : ((h.credit p.slot p.len).updateObjectList p.slot).totalObjCnt =
          h.totalObjCnt + 1 := rfl
        omega
    · rw [freePieces, Heap.freePiece_over hgt] at hr
      cases hr

-- ---------------------------------------------------------------------------
-- One free
-- ---------------------------------------------------------------------------

theorem Intact.free_undisturbed (hs : Intact m s) (hb : b ∈ s.blocks) (hlive : b.freed = false)
    (hroom : Roomy s b.start) (hr : s.heap.carmFree b.start = .ok h') :
    Intact m (s.free h' b.start) ∧ Undisturbed s (s.free h' b.start) := by
  have ht := hs.accounted.tiled
  have hslots : h'.totalObjCnt ≤ totalObjects := by
    rw [ht.carmFree_eq hb (hs.accounted.below.trans (by decide))] at hr
    refine (freePieces_extent Block.pieces_nodup (fun p hp => ?_) hr).trans (hroom.slots b hb rfl)
    exact (hs.piece hb hlive hp).2.lt
  have hi := hs.free hb hlive hr hslots
  have hsp := hs.spares hb hlive hr hslots
  refine ⟨hi, ⟨?_, fun i _ hlt => Nat.lt_of_lt_of_le hlt hslots⟩⟩
  rintro i ⟨c, hc, hclive, hpos⟩
  have hfreed := freedBytes_lt hi.accounted.tiled hc hclive hpos
  -- the slot of a live block lies below the slots in use
  have hlt : i < s.heap.totalObjCnt := by
    obtain ⟨j, hj⟩ := Finset.card_pos.mp hpos
    obtain ⟨-, hcov⟩ := Finset.mem_filter.mp hj
    obtain ⟨d, hd, rfl⟩ := List.mem_map.mp hc
    have hdb := hroom.below d hd
    rw [Block.Covers, Block.stop, Block.mark_start, Block.mark_size] at hcov
    rw [Block.stop] at hdb
    by_contra hge
    have := Nat.mul_le_mul_right objSize (Nat.not_lt.mp hge)
    omega
  have hkept : Kept s b i := ⟨hlt, hfreed⟩
  refine ⟨hsp.ptrs i hkept, fun o ho => ?_⟩
  have hcur := hs.current i hlt ((Nat.le_add_right ..).trans_lt
    (freedBytes_mark ht hb hlive ▸ hfreed))
  rw [hcur.names o ho]
  exact (hsp.current i hkept).names o ((hsp.ptrs i hkept).trans ho)

-- ---------------------------------------------------------------------------
-- Runs
-- ---------------------------------------------------------------------------

def Crossed (s : State) : Prop :=
  ∃ b ∈ s.blocks, startAddr + s.heap.totalObjCnt * objSize < b.stop

theorem Crossed.handed (hs : Crossed s) (hh : Handed s op s') : Crossed s' := by
  obtain ⟨b, hb, hstop⟩ := hs
  cases hreq : op.request with
  | none =>
    obtain ⟨hblocks, htouch⟩ := hh.none hreq
    exact ⟨b, hblocks ▸ hb, by rw [htouch.alloc.totalObjCnt]; exact hstop⟩
  | some n =>
    obtain ⟨size, -, hblocks, htouch⟩ := hh.some n hreq
    refine ⟨b, hblocks ▸ List.mem_cons_of_mem _ hb, ?_⟩
    rw [htouch.alloc.totalObjCnt]
    exact hstop

theorem Crossed.of_request (hh : Handed s op s') (hreq : op.request = some n)
    (hn : rounded n ≤ kWorkingSetSize)
    (hover : startAddr + s.heap.totalObjCnt * objSize < s.heap.aspaceStart + rounded n) :
    Crossed s' := by
  obtain ⟨size, hsize, hblocks, htouch⟩ := hh.some n hreq
  have hws : kWorkingSetSize < 2 ^ 64 := by decide
  have hle := le_rounded (n := n)
  refine ⟨_, hblocks ▸ List.mem_cons_self .., ?_⟩
  rw [htouch.alloc.totalObjCnt]
  show startAddr + s.heap.totalObjCnt * objSize < s.heap.aspaceStart + size
  rwa [hsize (by omega), enforceSizeConstraints_eq (by omega)]

theorem tenant_step (hs : Intact m s ∨ Crossed s) (hok : Tenant s op)
    (hroom : ∀ ptr, op.frees = some ptr → Roomy s ptr) (hr : step m s op = .ok s') :
    Intact m s' ∨ Crossed s' := by
  obtain ⟨s₁, hh, hrel⟩ := step_parts hr
  cases hf : op.frees with
  | some ptr =>
    -- a free is allowed only below the slots in use
    rcases hs with hs | ⟨b, hb, hstop⟩
    · obtain ⟨b, hb, rfl, hlive⟩ := hok.frees ptr hf
      cases op with
      | free ptr =>
        cases hf
        obtain ⟨h, hfree, he⟩ := bind_ok.mp hr
        obtain rfl := Except.ok.inj he
        exact .inl (hs.free_undisturbed hb hlive (hroom _ rfl) hfree).1
      | realloc ptr size => exact absurd rfl (hok.plain ptr size)
      | _ => cases hf
    · exact absurd ((hroom ptr hf).below b hb) (Nat.not_le.mpr hstop)
  | none =>
    obtain rfl := hrel.none hf
    rcases hs with hs | hs
    case inr => exact .inr (hs.handed hh)
    have hfits : ∀ n, op.request = some n → rounded n ≤ kWorkingSetSize := fun n hreq =>
      (Nat.le_add_left ..).trans (hok.fits n hreq)
    by_cases hfit : ∀ n, op.request = some n →
        s.heap.aspaceStart + rounded n ≤ startAddr + s.heap.totalObjCnt * objSize
    case neg =>
      simp only [not_forall, Nat.not_le] at hfit
      obtain ⟨n, hreq, hover⟩ := hfit
      exact .inr (.of_request hh hreq (hfits n hreq) hover)
    refine .inl ?_
    cases op with
    | malloc size =>
      obtain rfl := Except.ok.inj hr
      have hlt := (hfits size rfl).trans_lt (show kWorkingSetSize < 2 ^ 64 by decide)
      simp only [enforceSizeConstraints_eq hlt]
      exact hs.handOut (hfit size rfl)
    | calloc elem elemSize =>
      obtain ⟨⟨h, ret⟩, hc, he⟩ := bind_ok.mp hr
      obtain rfl := Except.ok.inj he
      exact hs.calloc_handOut (hfit _ rfl) hc
    | realloc ptr size => exact absurd rfl (hok.plain ptr size)
    | free ptr => cases hf
    | read addr n =>
      obtain rfl := Except.ok.inj hr
      have hin := hok.access addr n rfl
      exact hs.keeps (hs.guardedRead (hin.live 0 hin.pos))
    | write addr n bytes =>
      obtain rfl := Except.ok.inj hr
      exact hs.writes (hs.guardedWrite (hok.access addr n rfl))
    | evacuate o =>
      obtain rfl := Except.ok.inj hr
      exact hs.keeps (Heap.evacuate_keeps hs.coherent (hok.object o rfl))

def Spacious (s : State) (op : Op) : Prop :=
  Tenant s op ∧ ∀ ptr, op.frees = some ptr → Roomy s ptr

/-- In every run whose frees all have room, no free disturbs a live block. -/
theorem frees_undisturbed (hr : Reach m Spacious s) (hok : Spacious s (.free ptr))
    (hstep : step m s (.free ptr) = .ok s') : Undisturbed s s' := by
  have hs := hr.invariant (I := fun s => Intact m s ∨ Crossed s) (fun _ _ => .inl .init)
    fun _ _ _ hs hok => tenant_step hs hok.1 hok.2
  obtain ⟨b, hb, rfl, hlive⟩ := hok.1.frees ptr rfl
  have hroom := hok.2 b.start rfl
  rcases hs with hs | ⟨c, hc, hstop⟩
  · obtain ⟨h, hfree, he⟩ := bind_ok.mp hstep
    obtain rfl := Except.ok.inj he
    exact (hs.free_undisturbed hb hlive hroom hfree).2
  · exact absurd (hroom.below c hc) (Nat.not_le.mpr hstop)

theorem frees_undisturbed_pages : ∃ s s', Reach cacheManager Spacious s ∧
    Spacious s (.free startAddr) ∧ step cacheManager s (.free startAddr) = .ok s' ∧
    s'.heap.recycled = [0] ∧ Undisturbed s s' := by
  have hr : Reach cacheManager Spacious _ :=
    .next (.next (.init (fun _ => none) fun _ => 0)
      ⟨.calloc 1 4096, ⟨⟨by rintro n ⟨⟩; decide, nofun, nofun, nofun, nofun⟩, nofun⟩, rfl⟩)
      ⟨.malloc 4096, ⟨⟨by rintro n ⟨⟩; decide, nofun, nofun, nofun, nofun⟩, nofun⟩, rfl⟩
  have hok : ∀ s : State,
      s.blocks = [⟨startAddr + 4096, 4096, 4096, false⟩, ⟨startAddr, 4096, 4096, false⟩] →
      s.heap.totalObjCnt = kWorkingSetSize / objSize → Spacious s (.free startAddr) := by
    intro s hb ht
    refine ⟨⟨nofun, ?_, nofun, nofun, nofun⟩, ?_⟩
    · rintro _ ⟨⟩
      exact ⟨⟨startAddr, 4096, 4096, false⟩, by simp [hb], rfl, rfl⟩
    · rintro _ ⟨⟩
      refine ⟨?_, ?_⟩
      · rw [hb, ht]
        decide
      · intro b hmem he
        obtain rfl : b = ⟨startAddr, 4096, 4096, false⟩ := by
          simp only [hb, List.mem_cons, List.not_mem_nil, or_false] at hmem
          rcases hmem with rfl | rfl
          · exact absurd he (by decide)
          · rfl
        have hpage : Block.pieces ⟨startAddr, 4096, 4096, false⟩ = [⟨0, 0, 4096⟩] :=
          Lib.pieces_last (by decide) (by decide)
        rw [hpage, ht]
        exact (Nat.add_le_add_left List.countP_le_length _).trans (by decide)
  exact ⟨_, _, hr, hok _ rfl rfl, rfl, rfl, frees_undisturbed hr (hok _ rfl rfl) rfl⟩

/-- A block past the slots in use gets the object of a block freed before it. -/
theorem free_disturbs : ¬∀ m s s' ptr, Reach m Tenant s → Tenant s (.free ptr) →
    step m s (.free ptr) = .ok s' → Undisturbed s s' := by
  intro h
  have hfree : ∀ (s : State) (b : Block), b ∈ s.blocks → b.freed = false →
      Tenant s (.free b.start) := by
    intro s b hmem hf
    refine ⟨nofun, ?_, nofun, nofun, nofun⟩
    rintro _ ⟨⟩
    exact ⟨b, hmem, rfl, hf⟩
  have hr : Reach cacheManager Tenant _ :=
    .next (.next (.next (.next (.init (fun _ => none) fun _ => 0)
      ⟨.calloc 1 4096, ⟨by rintro n ⟨⟩; decide, nofun, nofun, nofun, nofun⟩, rfl⟩)
      ⟨.malloc (kWorkingSetSize - 4096), ⟨by rintro n ⟨⟩; decide, nofun, nofun, nofun, nofun⟩, rfl⟩)
      ⟨.free (startAddr + 4096), hfree _ ⟨startAddr + 4096, kWorkingSetSize - 4096,
        kWorkingSetSize - 4096, false⟩ (List.mem_cons_self ..) rfl, rfl⟩)
      ⟨.malloc 4096, ⟨by rintro n ⟨⟩; decide, nofun, nofun, nofun, nofun⟩, rfl⟩
  have hund := h _ _ _ startAddr hr (hfree _ ⟨startAddr, 4096, 4096, false⟩
    (.tail _ (.tail _ (.head _))) rfl) rfl
  have hpos : 0 < Block.bytesIn ⟨startAddr + kWorkingSetSize, 4096, 4096, false⟩
      (kWorkingSetSize / objSize) := Block.bytesIn_pos (x := kWorkingSetSize) (by decide)
  have hlast := (hund.slot (kWorkingSetSize / objSize) ⟨_, List.mem_cons_self .., rfl, hpos⟩).1
  cases hlast

end TrackFM
