import TrackFM.Accounting

/-!
# What is recycled

The loop of `carm_free` stops at the first fully freed slot without an object:
the rest of the block is taken to be untouched as well. A slot of the rest that
was touched, or that another block shares, is then never counted. Where the
rest is untouched and holds no part of another block, every freed object is
recycled once.
-/

namespace TrackFM

open Lib (Piece)
open Heap (freePieces Touches)

variable {m : Manager} {s s' : State} {h h' : Heap}

/-- The books of one slot: all its freed bytes are counted, unless it is
entirely free and was never touched; it was recycled once if it is entirely
free and backed, and never otherwise. -/
structure Exact (h : Heap) (F : Nat → Nat) (i : Nat) : Prop where
  counted : h.freeListMap i = F i ∨ h.ptrs i = none ∧ F i = objSize
  recycled : h.recycled.count i = if F i = objSize ∧ h.ptrs i ≠ none then 1 else 0

theorem Exact.partly {F : Nat → Nat} (he : Exact h F i) (hi : F i < objSize) :
    h.freeListMap i = F i ∧ h.recycled.count i = 0 := by
  refine ⟨he.counted.resolve_right fun hn => by omega, ?_⟩
  rw [he.recycled, if_neg fun hn => by omega]

theorem Exact.of_partly {F : Nat → Nat} (hi : F i < objSize) (hc : h.freeListMap i = F i)
    (hr : h.recycled.count i = 0) : Exact h F i :=
  ⟨.inl hc, by rw [hr, if_neg fun hn => by omega]⟩

theorem Exact.touch {F : Nat → Nat} (he : Exact h F i) (ht : Touches T h h')
    (hT : T i → F i < objSize) : Exact h' F i := by
  rcases ht.ptrs i with hp | ⟨hTi, -⟩
  · exact ⟨by rw [ht.alloc.freeListMap, hp]; exact he.counted,
      by rw [ht.alloc.recycled, hp]; exact he.recycled⟩
  · have hi := hT hTi
    obtain ⟨hc, hr⟩ := he.partly hi
    exact .of_partly hi (by rw [ht.alloc.freeListMap, hc]) (by rw [ht.alloc.recycled, hr])

-- ---------------------------------------------------------------------------
-- The loop
-- ---------------------------------------------------------------------------

/-- After an entirely free slot that was never touched come only such slots. -/
def TidyPieces (h : Heap) (ps : List Piece) : Prop :=
  ps.Pairwise fun p q => h.credited p = objSize → h.ptrs p.slot = none →
    h.ptrs q.slot = none ∧ q.len = objSize

/-- What the loop needs of the pieces that are left: their slots differ and are
in use, and the books are right up to the pieces' own bytes. -/
structure Due (F : Nat → Nat) (h : Heap) (ps : List Piece) : Prop where
  nodup : (ps.map Piece.slot).Nodup
  inUse : ∀ p ∈ ps, p.slot < h.totalObjCnt
  owed : ∀ p ∈ ps, h.freeListMap p.slot + p.len = F p.slot ∧ h.recycled.count p.slot = 0
  exact : ∀ k, (∀ p ∈ ps, p.slot ≠ k) → Exact h F k
  unused : ∀ k, h.totalObjCnt ≤ k → F k < objSize
  tidy : TidyPieces h ps

section
variable {F : Nat → Nat} {p : Piece} {ps : List Piece}

theorem Due.credited (hF : ∀ k, F k ≤ objSize) (hd : Due F h ps) (hp : p ∈ ps) :
    h.credited p = F p.slot := by
  have hs := objSize_eq
  have := hF p.slot
  rw [← (hd.owed p hp).1]
  exact Nat.mod_eq_of_lt (by rw [(hd.owed p hp).1]; omega)

theorem Due.ne (hd : Due F h (p :: ps)) (hq : q ∈ ps) : q.slot ≠ p.slot := by
  have := hd.nodup
  rw [List.map_cons, List.nodup_cons] at this
  exact fun he => this.1 (he ▸ List.mem_map_of_mem hq)

theorem Due.tail (hd : Due F h (p :: ps))
    (hmap : h'.freeListMap = (h.credit p.slot p.len).freeListMap)
    (htotal : h.totalObjCnt ≤ h'.totalObjCnt)
    (hptrs : ∀ k < h.totalObjCnt, h'.ptrs k = h.ptrs k)
    (hrec : ∀ k, k ≠ p.slot → h'.recycled.count k = h.recycled.count k)
    (hself : Exact h' F p.slot) : Due F h' ps := by
  have hnd := hd.nodup
  rw [List.map_cons, List.nodup_cons] at hnd
  have hother : ∀ k, k ≠ p.slot → h'.freeListMap k = h.freeListMap k := fun k hk => by
    rw [hmap, Heap.credit_other hk]
  refine ⟨hnd.2, fun q hq => ?_, fun q hq => ?_, fun k hk => ?_,
    fun k hk => hd.unused k (htotal.trans hk), ?_⟩
  · exact (hd.inUse q (List.mem_cons_of_mem _ hq)).trans_le htotal
  · rw [hother _ (hd.ne hq), hrec _ (hd.ne hq)]
    exact hd.owed q (List.mem_cons_of_mem _ hq)
  · by_cases hkp : k = p.slot
    · exact hkp ▸ hself
    have he : Exact h F k := by
      refine hd.exact k fun q hq => ?_
      rcases List.mem_cons.mp hq with rfl | hq
      · exact Ne.symm hkp
      · exact hk q hq
    by_cases hlt : k < h.totalObjCnt
    · exact ⟨by rw [hother k hkp, hptrs k hlt]; exact he.counted,
        by rw [hrec k hkp, hptrs k hlt]; exact he.recycled⟩
    · have hF := hd.unused k (by omega)
      obtain ⟨hc, hr⟩ := he.partly hF
      exact .of_partly hF (by rw [hother k hkp, hc]) (by rw [hrec k hkp, hr])
  · refine (List.pairwise_cons.mp hd.tidy).2.imp_of_mem fun {q r} hq hr htidy => ?_
    rw [Heap.credited, hother _ (hd.ne hq), hptrs _ (hd.inUse q (List.mem_cons_of_mem _ hq)),
      hptrs _ (hd.inUse r (List.mem_cons_of_mem _ hr))]
    exact htidy

theorem freePieces_exact (hF : ∀ k, F k ≤ objSize) (hd : Due F h ps)
    (hr : freePieces h ps = .ok h') : ∀ k, Exact h' F k := by
  have hrule := Heap.freePieces_rule (h := h) (E := True) (I := Due F) (Q := fun h => ∀ k, Exact h F k)
    ?stop ?recycle ?count (fun _ _ _ _ _ => trivial) (fun h hd k => hd.exact k nofun) hd
  · rcases hrule with ⟨h₁, hok, hQ⟩ | ⟨habort, -⟩
    · rw [hr] at hok
      cases hok
      exact hQ
    · rw [hr] at habort
      cases habort
  case stop =>
    intro h p ps hd hfull hn k
    have hcred := hd.credited hF (List.mem_cons_self ..)
    by_cases hk : ∃ q ∈ p :: ps, q.slot = k
    · obtain ⟨q, hq, rfl⟩ := hk
      have hcount := (hd.owed q hq).2
      rcases List.mem_cons.mp hq with rfl | hq'
      · exact ⟨.inl (Heap.credit_self.trans hcred), hcount.trans (if_neg fun h => h.2 hn).symm⟩
      · -- a later piece is a whole slot that was never touched
        obtain ⟨hqn, hlen⟩ := (List.pairwise_cons.mp hd.tidy).1 q hq' hfull hn
        have howed := (hd.owed q hq).1
        have := hF q.slot
        exact ⟨.inr ⟨hqn, by omega⟩, hcount.trans (if_neg fun h => h.2 hqn).symm⟩
    · have he := hd.exact k fun q hq hqk => hk ⟨q, hq, hqk⟩
      have hkp : k ≠ p.slot := fun hkp => hk ⟨p, List.mem_cons_self .., hkp.symm⟩
      exact ⟨by rw [Heap.credit_other hkp]; exact he.counted, he.recycled⟩
  case recycle =>
    intro h p ps o hd hfull ho
    have hp := hd.inUse p (List.mem_cons_self ..)
    have hptrs : ∀ k < h.totalObjCnt,
        ((h.credit p.slot p.len).updateObjectList p.slot).ptrs k = h.ptrs k := fun k hk =>
      Function.update_of_ne (Nat.ne_of_lt hk) ..
    refine hd.tail rfl (Nat.le_succ _) hptrs (fun k hk => List.count_cons_of_ne (Ne.symm hk)) ?_
    have hcred := hd.credited hF (List.mem_cons_self ..)
    refine ⟨.inl (Heap.credit_self.trans hcred), ?_⟩
    rw [hptrs _ hp, ho, if_pos ⟨hcred ▸ hfull, nofun⟩]
    show (p.slot :: h.recycled).count p.slot = 1
    rw [List.count_cons_self, (hd.owed p (List.mem_cons_self ..)).2]
  case count =>
    intro h p ps hd hlt
    have hcred := hd.credited hF (List.mem_cons_self ..)
    exact hd.tail rfl (Nat.le_refl _) (fun _ _ => rfl) (fun _ _ => rfl)
      (.of_partly (hcred ▸ hlt) (Heap.credit_self.trans hcred)
        (hd.owed p (List.mem_cons_self ..)).2)

end

-- ---------------------------------------------------------------------------
-- Runs
-- ---------------------------------------------------------------------------

/-- Requests within the initial slots, blocks freed at most once, accesses to
live bytes. -/
structure Orderly (s : State) (op : Op) : Prop where
  fits : Fits s (startAddr + s.heap.numObjects * objSize) op
  once : FreesOnce s op
  live : ∀ a n, op.accesses = some (a, n) → s.Live a
  plain : ∀ ptr size, op ≠ .realloc ptr size

/-- Where the loop stops, the rest of the block is untouched whole slots. -/
def Tidy (s : State) (op : Op) : Prop :=
  ∀ ptr, op.frees = some ptr → ∀ b ∈ s.blocks, b.start = ptr → TidyPieces s.heap b.pieces

structure Balanced (s : State) : Prop where
  tiled : Tiled s
  slots : s.heap.numObjects = kWorkingSetSize / objSize
  below : s.heap.aspaceStart ≤ startAddr + s.heap.numObjects * objSize
  initial : s.heap.numObjects ≤ s.heap.totalObjCnt
  books : ∀ i, Exact s.heap (freedBytes s.blocks) i

theorem Balanced.init {ptrs : Nat → Option Nat} {mem : Lib.Mem UInt8} : Balanced (init ptrs mem) where
  tiled := .init
  slots := rfl
  below := Nat.le_add_right ..
  initial := Nat.le_refl _
  books i := .of_partly (freedBytes_nil.trans_lt (by decide)) freedBytes_nil.symm rfl

theorem Balanced.start (hs : Balanced s) :
    ∃ x < 2 ^ 60, s.heap.aspaceStart = startAddr + x := by
  have h₁ := hs.below
  have h₂ := hs.tiled.start_le
  rw [hs.slots] at h₁
  have h₃ : kWorkingSetSize / objSize * objSize < 2 ^ 60 := by decide
  exact ⟨s.heap.aspaceStart - startAddr, by omega, by omega⟩

theorem Balanced.touch (hs : Balanced s) (ht : Touches T s.heap h')
    (hT : ∀ i, T i → freedBytes s.blocks i < objSize) : Balanced ⟨h', s.blocks, w⟩ where
  tiled := hs.tiled.heap rfl ht.alloc.aspaceStart ht.alloc.allocationMap
  slots := ht.alloc.numObjects.trans hs.slots
  below := by
    show h'.aspaceStart ≤ startAddr + h'.numObjects * objSize
    rw [ht.alloc.aspaceStart, ht.alloc.numObjects]
    exact hs.below
  initial := by
    show h'.numObjects ≤ h'.totalObjCnt
    rw [ht.alloc.numObjects, ht.alloc.totalObjCnt]
    exact hs.initial
  books i := (hs.books i).touch ht (hT i)

theorem Balanced.handOut (hs : Balanced s)
    (hn : s.heap.aspaceStart + rounded n ≤ startAddr + s.heap.numObjects * objSize) :
    Balanced (s.handOut (s.heap.bump (rounded n)) s.heap.aspaceStart n f) := by
  have hlt : s.heap.aspaceStart + rounded n < 2 ^ 64 := by
    rw [hs.slots] at hn
    exact hn.trans_lt (by decide)
  have hb : (s.handOut (s.heap.bump (rounded n)) s.heap.aspaceStart n f).blocks =
      ⟨s.heap.aspaceStart, rounded n, n, false⟩ :: s.blocks := by
    simp only [State.handOut, bump_allocationMap]
  refine ⟨hs.tiled.bump rounded_pos le_rounded hlt hb rfl rfl, hs.slots, ?_, hs.initial, fun i => ?_⟩
  · exact (Nat.mod_le _ _).trans hn
  · have hfreed : freedBytes (s.handOut (s.heap.bump (rounded n)) s.heap.aspaceStart n f).blocks =
        freedBytes s.blocks := by
      funext i
      rw [hb, freedBytes_cons rfl]
    rw [hfreed]
    exact ⟨(hs.books i).counted, (hs.books i).recycled⟩

theorem Balanced.access (hs : Balanced s) (ha : s.Live a)
    (ht : Touches (· = (getCarmPtr a w).objIndex) s.heap h') : Balanced ⟨h', s.blocks, v⟩ := by
  refine hs.touch ht fun i hi => ?_
  obtain ⟨b, hb, hlive, hcov⟩ := ha
  obtain ⟨x, hx, hstart⟩ := hs.start
  have h₁ := hs.tiled.above b hb
  have h₂ := hs.tiled.below b hb
  obtain ⟨y, rfl⟩ : ∃ y, a = startAddr + y := ⟨a - startAddr, by omega⟩
  rw [getCarmPtr_start (by omega)] at hi
  exact hi ▸ freedBytes_lt hs.tiled hb hlive (Block.bytesIn_pos hcov)

theorem Balanced.free (hs : Balanced s) (hb : b ∈ s.blocks) (hlive : b.freed = false)
    (htidy : TidyPieces s.heap b.pieces) (hr : s.heap.carmFree b.start = .ok h') :
    Balanced (s.free h' b.start) := by
  have hf := Heap.carmFree_frees hr
  have ht : Tiled (s.free h' b.start) := hs.tiled.mark rfl hf.aspaceStart hf.allocationMap
  have habove := hs.tiled.above b hb
  have hinitial : ∀ c ∈ s.blocks, c.stop ≤ startAddr + s.heap.totalObjCnt * objSize := fun c hc =>
    (hs.tiled.below c hc).trans (hs.below.trans
      (Nat.add_le_add_left (Nat.mul_le_mul_right _ hs.initial) _))
  obtain ⟨x, hx, hstart⟩ := hs.start
  have hmark : ∀ i, freedBytes (markFreed b.start s.blocks) i =
      freedBytes s.blocks i + b.bytesIn i := fun i => freedBytes_mark hs.tiled hb hlive
  -- the loop runs over the pieces of the block
  have hloop : freePieces s.heap b.pieces = .ok h' := by
    rwa [← hs.tiled.carmFree_eq hb (by omega)]
  refine ⟨ht, hf.numObjects.trans hs.slots, ?_, ?_, ?_⟩
  · show h'.aspaceStart ≤ startAddr + h'.numObjects * objSize
    rw [hf.aspaceStart, hf.numObjects]
    exact hs.below
  · show h'.numObjects ≤ h'.totalObjCnt
    rw [hf.numObjects]
    exact hs.initial.trans hf.totalObjCnt
  · show ∀ k, Exact h' (freedBytes (markFreed b.start s.blocks)) k
    have hmarked : ∀ c ∈ markFreed b.start s.blocks,
        c.stop ≤ startAddr + s.heap.totalObjCnt * objSize := by
      simpa [markFreed, Block.stop] using hinitial
    refine freePieces_exact (fun k => freedBytes_le) ⟨Block.pieces_nodup, fun p hp => ?_,
      fun p hp => ?_, fun k hk => ?_, fun k hk => ?_, htidy⟩ hloop
    · have hlen := (Lib.pieces_mem (Nat.mod_lt _ (by decide)) p hp).2.1
      by_contra hge
      have hzero := freedBytes_lt hs.tiled hb hlive
        (i := p.slot) (by rw [Block.bytesIn_piece habove hp]; exact hlen)
      have := hmark p.slot
      rw [freedBytes_beyond hmarked (by omega), Block.bytesIn_piece habove hp] at this
      omega
    · have hlen := (Lib.pieces_mem (Nat.mod_lt _ (by decide)) p hp).2.1
      have hpart := freedBytes_lt hs.tiled hb hlive
        (i := p.slot) (by rw [Block.bytesIn_piece habove hp]; exact hlen)
      obtain ⟨hc, hrec⟩ := (hs.books p.slot).partly hpart
      rw [hc, hmark, Block.bytesIn_piece habove hp]
      exact ⟨rfl, hrec⟩
    · have hsame : freedBytes (markFreed b.start s.blocks) k = freedBytes s.blocks k := by
        rw [hmark, Block.bytesIn_none habove hk, Nat.add_zero]
      obtain ⟨hc, hrec⟩ := hs.books k
      exact ⟨by rw [hsame]; exact hc, by rw [hsame]; exact hrec⟩
    · rw [freedBytes_beyond hmarked hk]
      decide

theorem Balanced.calloc (hs : Balanced s)
    (hn : s.heap.aspaceStart + rounded (elem * elemSize) ≤
      startAddr + s.heap.numObjects * objSize)
    (hr : s.heap.carmCalloc m elem elemSize = .ok (h', r)) :
    Balanced (s.handOut h' r (elem * elemSize) f) := by
  have hlt : rounded (elem * elemSize) < 2 ^ 64 := by
    rw [hs.slots] at hn
    exact (Nat.le_add_left ..).trans_lt (hn.trans_lt (by decide))
  have hle := le_rounded (n := elem * elemSize)
  obtain ⟨x, hx, hstart⟩ := hs.start
  obtain ⟨rfl, hfill⟩ := Heap.carmCalloc_pieces hstart hx hr
  rw [u64, Nat.mod_eq_of_lt (by omega), enforceSizeConstraints_eq hlt] at hfill
  have hs₁ := hs.handOut (f := f) hn
  have hnew : (⟨s.heap.aspaceStart, rounded (elem * elemSize), elem * elemSize, false⟩ : Block) ∈
      (s.handOut (s.heap.bump (rounded (elem * elemSize))) s.heap.aspaceStart (elem * elemSize) f).blocks := by
    simp only [State.handOut, bump_allocationMap]
    exact List.mem_cons_self ..
  have htouch : Touches (fun i => ∃ p ∈ Block.pieces
      ⟨s.heap.aspaceStart, rounded (elem * elemSize), elem * elemSize, false⟩, p.slot = i)
      (s.heap.bump (rounded (elem * elemSize))) h' := by
    rw [hfill]
    refine Heap.fillPieces_touches fun p hp => ⟨p, ?_, rfl⟩
    rwa [Block.pieces, hstart, Nat.add_sub_cancel_left]
  have hb := hs₁.touch (w := (s.handOut h' s.heap.aspaceStart (elem * elemSize) f).written) htouch ?_
  · have hsame : s.handOut h' s.heap.aspaceStart (elem * elemSize) f = ⟨h',
        (s.handOut (s.heap.bump (rounded (elem * elemSize))) s.heap.aspaceStart (elem * elemSize) f).blocks,
        (s.handOut h' s.heap.aspaceStart (elem * elemSize) f).written⟩ := by
      simp only [State.handOut, htouch.alloc.allocationMap]
    rw [hsame]
    exact hb
  · rintro i ⟨p, hp, rfl⟩
    have hlen := (Lib.pieces_mem (Nat.mod_lt _ (by decide)) p hp).2.1
    refine freedBytes_lt hs₁.tiled hnew rfl ?_
    rw [Block.bytesIn_piece hs.tiled.start_le hp]
    exact hlen

theorem Balanced.step (hs : Balanced s) (hok : Orderly s op) (htidy : Tidy s op)
    (hr : step m s op = .ok s') : Balanced s' := by
  cases op with
  | malloc size =>
    obtain rfl := Except.ok.inj hr
    have hn := hok.fits size rfl
    have hlt : rounded size < 2 ^ 64 := by
      rw [hs.slots] at hn
      exact (Nat.le_add_left ..).trans_lt (hn.trans_lt (by decide))
    simp only [enforceSizeConstraints_eq hlt]
    exact hs.handOut hn
  | calloc elem elemSize =>
    obtain ⟨⟨h, ret⟩, hc, he⟩ := bind_ok.mp hr
    obtain rfl := Except.ok.inj he
    exact hs.calloc (hok.fits _ rfl) hc
  | realloc ptr size => exact absurd rfl (hok.plain ptr size)
  | free ptr =>
    obtain ⟨h, hf, he⟩ := bind_ok.mp hr
    obtain rfl := Except.ok.inj he
    by_cases hrec : s.heap.allocationMap ptr = 0
    · rw [Heap.carmFree_unrecorded hrec] at hf
      cases hf
      rw [State.free, markFreed_unrecorded (hs.tiled.not_start hrec)]
      exact hs
    · obtain ⟨b, hb, rfl⟩ := hs.tiled.unrecorded ptr hrec
      exact hs.free hb (hok.once _ rfl b hb rfl) (htidy _ rfl b hb rfl) hf
  | read addr n =>
    obtain rfl := Except.ok.inj hr
    exact hs.access (hok.live addr n rfl) Heap.ptrDeref_touches
  | write addr n bytes =>
    obtain rfl := Except.ok.inj hr
    exact hs.access (hok.live addr n rfl) (Heap.ptrDeref_touches.trans Heap.store_touches)
  | evacuate o =>
    obtain rfl := Except.ok.inj hr
    exact hs.touch (T := fun _ => False) Heap.evacuate_touches fun _ => False.elim

/-- In every run whose frees stop only where the rest of the block is untouched
whole slots, a backed slot all of whose bytes are freed was recycled once. -/
theorem freed_recycled_once (hr : Reach m (fun s op => Orderly s op ∧ Tidy s op) s)
    (hi : s.heap.ptrs i ≠ none) (hf : freedBytes s.blocks i = objSize) :
    s.heap.recycled.count i = 1 := by
  have hs := hr.invariant (I := Balanced) (fun _ _ => .init) fun _ _ _ hs hok => hs.step hok.1 hok.2
  rw [(hs.books i).recycled, if_pos ⟨hf, hi⟩]

theorem freed_recycled_once_page : ∃ s, Reach cacheManager (fun s op => Orderly s op ∧ Tidy s op) s ∧
    s.heap.ptrs 0 ≠ none ∧ freedBytes s.blocks 0 = objSize ∧ s.heap.recycled.count 0 = 1 := by
  have hpage : Block.pieces ⟨startAddr, 4096, 4096, false⟩ = [⟨0, 0, 4096⟩] :=
    Lib.pieces_last (by decide) (by decide)
  have hr : Reach cacheManager (fun s op => Orderly s op ∧ Tidy s op) _ :=
    .next (.next (.next (.init (fun _ => none) fun _ => 0)
      ⟨.malloc 4096, ⟨⟨by rintro n ⟨⟩; decide, nofun, nofun, nofun⟩, nofun⟩, rfl⟩)
      ⟨.write startAddr 1 fun _ => 0, ⟨⟨nofun, nofun, by
        rintro a n ⟨⟩
        exact ⟨_, List.mem_singleton_self _, rfl, by decide⟩, nofun⟩, nofun⟩, rfl⟩)
      ⟨.free startAddr, ⟨⟨nofun, fun _ _ b hb _ => List.mem_singleton.mp hb ▸ rfl, nofun, nofun⟩, by
        rintro _ ⟨⟩ b hb -
        obtain rfl := List.mem_singleton.mp hb
        exact hpage ▸ List.pairwise_singleton _ _⟩, rfl⟩
  have hbacked : ∀ h : Heap, h.ptrs 0 = some 0 → h.ptrs 0 ≠ none := fun h he => he ▸ nofun
  have hfreed : freedBytes [⟨startAddr, 4096, 4096, true⟩] 0 = objSize :=
    freedBytes_whole (List.mem_singleton_self _) rfl (by decide) (by decide)
  exact ⟨_, hr, hbacked _ rfl, hfreed, freed_recycled_once hr (hbacked _ rfl) hfreed⟩

/-- Two slots of a block, only the second one touched: the free stops at the first. -/
theorem free_leaks : ¬∀ m s, Reach m Orderly s → ∀ i, s.heap.ptrs i ≠ none →
    freedBytes s.blocks i = objSize → s.heap.recycled.count i = 1 := by
  intro h
  have hr : Reach cacheManager Orderly _ :=
    .next (.next (.next (.init (fun _ => none) fun _ => 0)
      ⟨.malloc 8192, ⟨by rintro n ⟨⟩; decide, nofun, nofun, nofun⟩, rfl⟩)
      ⟨.write (startAddr + 4096) 1 fun _ => 0, ⟨nofun, nofun, by
        rintro a n ⟨⟩
        exact ⟨_, List.mem_singleton_self _, rfl, by decide⟩, nofun⟩, rfl⟩)
      ⟨.free startAddr, ⟨nofun, fun _ _ b hb _ => List.mem_singleton.mp hb ▸ rfl, nofun, nofun⟩, rfl⟩
  have hbacked : ∀ h : Heap, h.ptrs 1 = some 0 → h.ptrs 1 ≠ none := fun h he => he ▸ nofun
  have hfreed : freedBytes [⟨startAddr, 8192, 8192, true⟩] 1 = objSize :=
    freedBytes_whole (List.mem_singleton_self _) rfl (by decide) (by decide)
  have hnever : ([] : List Nat).count 1 = 1 := h _ _ hr 1 (hbacked _ rfl) hfreed
  cases hnever

end TrackFM
