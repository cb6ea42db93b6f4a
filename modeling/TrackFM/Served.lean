import TrackFM.Settled
import TrackFM.Guard
import TrackFM.Rewritten
import TrackFM.Zeroed
import TrackFM.Strcmp
import TrackFM.Bounded
import TrackFM.Prefetch

/-!
# The runtime serves a flat memory

The runtime as a service: loads and stores behind the guards the compiler emits,
the allocator and the memory functions, and evacuations and prefetches at any time
in between. Its heap shadows the reference memory, so a program that keeps to the
contract cannot tell the runtime from a flat memory.
-/

namespace TrackFM

open Lib (Mem Service Client Runs Safe Implements order first blit blit_in blit_out readBytes writeBytes)
open Heap (Coherent Keeps Writes Usable Buffer)

variable {m : Manager} {loc : Nat → Prop} {s : State} {h h' : Heap} {y : Flat}

def contract (loc : Nat → Prop) : Contract where
  loc := loc
  page := objSize
  unit := carmAllocSizeMultiple
  footprint := rounded
  capacity := kWorkingSetSize
  longest := 2 ^ 31

/-- A program has no memory of its own in the object cache. -/
def OffCache (m : Manager) (loc : Nat → Prop) : Prop :=
  ∀ a, loc a → a < startAddr ∧ (a < m.lo ∨ m.hi ≤ a)

theorem rounded_unit : carmAllocSizeMultiple ∣ rounded n := by
  simp only [rounded, carmAllocSizeMultiple]
  omega

theorem OffCache.below (hloc : OffCache m loc) (hl : Flat.Local (contract loc) a n) :
    a + n ≤ startAddr := by
  have hpos := hl.pos
  have hlast := (hloc _ (hl.loc (n - 1) (by omega))).1
  omega

-- ---------------------------------------------------------------------------
-- The service
-- ---------------------------------------------------------------------------

def emittedRead (m : Manager) (h : Heap) (a n : Nat) : Heap × List UInt8 :=
  let (h, d) := (transformFunction false a).eval (heapMachine m) h
  (h, readBytes h.mem d n)

def emittedWrite (m : Manager) (h : Heap) (a : Nat) (bs : List UInt8) : Heap :=
  let (h, d) := (transformFunction true a).eval (heapMachine m) h
  h.store d bs.length fun j => bs.getD j 0

def serve (m : Manager) (h : Heap) : Request → Outcome (Heap × Answer)
  | .load true a n =>
    let (h, bs) := emittedRead m h a n
    return (h, .bytes bs)
  | .load false a n => return (h, .bytes (readBytes h.mem a n))
  | .store true a bs => return (emittedWrite m h a bs, .done)
  | .store false a bs => return (h.store a bs.length fun j => bs.getD j 0, .done)
  | .malloc size =>
    let (h, p) := h.carmRemoteMalloc size
    return (h, .word p)
  | .calloc elem elemSize => do
    let (h, p) ← h.carmCalloc m elem elemSize
    return (h, .word p)
  | .realloc ptr size => do
    let (h, p) ← h.carmRealloc m ptr size
    return (h, .word p)
  | .free ptr => do
    let h ← h.carmFree ptr
    return (h, .done)
  | .memcpy dst src size => do
    let (h, p) ← h.carmMemcpy m dst src size
    return (h, .word p)
  | .memset dst v size => do
    let (h, p) ← h.carmMemset m dst v size
    return (h, .word p)
  | .memcmp a b size => do
    let (h, o) ← h.carmMemcmp m a b size
    return (h, .order o)
  | .strlen s => do
    let (h, n) ← h.carmStrlen m s
    return (h, .word n)
  | .strcpy dst src => do
    let (h, p) ← h.carmStrcpy m dst src
    return (h, .word p)
  | .strncpy dst src size => do
    let (h, p) ← h.carmStrncpy m dst src size
    return (h, .word p)
  | .strcmp d s => do
    let (h, o) ← h.carmStrcmp m d s
    return (h, .order o)
  | .strdup s => do
    -- no contract allows a local string, which would go to `strdup`
    let (h, p) ← h.carmStrdup m (fun _ _ => .error .undefined) s
    return (h, .word p)
  | .memchr s c size => do
    let (h, p) ← h.carmMemchr m s c size
    return (h, .word p)

/-- Between two requests the evacuator may drop any local copy, and a prefetcher
may fetch any object. -/
def runtime (m : Manager) : Service Request Answer Heap where
  call h o a h' := serve m h o = .ok (h', a)
  between h h' := (∃ o < h.objCount, h' = h.evacuate m o) ∨ ∃ idx, h' = h.prefetch m idx

theorem emittedRead_eq (hc : Coherent m h) (ha : Access m h a n) :
    emittedRead m h a n = guardRead m h a n := by
  cases ha with
  | remote hi _ =>
    have hx := hi.lt_start hc
    rw [emittedRead, transformFunction_read hc hi, guardRead_start hx]
  | app hlt _ _ =>
    rw [emittedRead, transformFunction_untagged hlt, guardRead_untagged hlt]

theorem emittedWrite_eq (hc : Coherent m h) (ha : Access m h a bs.length) :
    emittedWrite m h a bs = guardWrite m h a bs := by
  cases ha with
  | remote hi _ =>
    have hx := hi.lt_start hc
    rw [emittedWrite, guardWrite_start hx, ← transformFunction_write hc hi]
  | app hlt _ _ =>
    rw [emittedWrite, transformFunction_untagged hlt, guardWrite_untagged hlt]

-- ---------------------------------------------------------------------------
-- Shadows
-- ---------------------------------------------------------------------------

def extentsOf (bs : List Block) : List Extent :=
  (bs.filter fun b => !b.freed).map fun b => ⟨b.start, b.asked⟩

structure Depicts (m : Manager) (loc : Nat → Prop) (h : Heap) (bs : List Block) (y : Flat) :
    Prop where
  extents : y.extents = extentsOf bs
  sized : ∀ b ∈ bs, b.size = rounded b.asked
  used : h.aspaceStart = startAddr + y.used
  within : y.used ≤ kWorkingSetSize
  agrees : ∀ a, Flat.Reserved (contract loc) startAddr y a → h.view m a = y.mem a

structure Shadows (m : Manager) (loc : Nat → Prop) (s : State) (y : Flat) : Prop extends
    Depicts m loc s.heap s.blocks y where
  stocked : Stocked m s

theorem mem_extentsOf {bs : List Block} {e : Extent} :
    e ∈ extentsOf bs ↔ ∃ b ∈ bs, b.freed = false ∧ e = ⟨b.start, b.asked⟩ := by
  simp only [extentsOf, List.mem_map, List.mem_filter, Bool.not_eq_true']
  constructor
  · rintro ⟨b, ⟨hb, hf⟩, rfl⟩
    exact ⟨b, hb, hf, rfl⟩
  · rintro ⟨b, hb, hf, rfl⟩
    exact ⟨b, ⟨hb, hf⟩, rfl⟩

theorem extentsOf_markFreed {bs : List Block} :
    extentsOf (markFreed p bs) = (extentsOf bs).filter fun e => e.start ≠ p := by
  have hlive : ∀ b : Block, (!(b.mark p).freed) = (decide (b.start ≠ p) && !b.freed) := by
    intro b
    have hf : (b.mark p).freed = true ↔ b.freed = true ∨ b.start = p := Block.mark_freed
    by_cases hp : b.start = p <;> cases hb : b.freed <;> simp_all
  simp only [extentsOf, markFreed, List.filter_map, List.map_map, List.filter_filter,
    Function.comp_def, Block.mark_start, Block.mark_asked, hlive]

theorem Shadows.owns (hs : Shadows m loc s y) (he : e ∈ y.extents) : ∃ b ∈ s.blocks,
    b.freed = false ∧ b.start = e.start ∧ b.asked = e.size ∧ b.asked ≤ b.size := by
  rw [hs.extents, mem_extentsOf] at he
  obtain ⟨b, hb, hf, rfl⟩ := he
  exact ⟨b, hb, hf, rfl, rfl, hs.stocked.intact.accounted.tiled.asked b hb⟩

theorem Shadows.live (hs : Shadows m loc s y) (hh : y.Holds a n) : ∀ j < n, s.Live (a + j) := by
  intro j hj
  obtain ⟨e, he, h₁, h₂⟩ := hh
  obtain ⟨b, hb, hf, hstart, hasked, hle⟩ := hs.owns he
  exact ⟨b, hb, hf, by omega, by simp only [Block.stop]; omega⟩

theorem Shadows.held (hs : Shadows m loc s y) (hh : y.Holds a n) (hn : 0 < n) :
    ∃ x, a = startAddr + x ∧ ∀ j < n, s.heap.Current ((x + j) / objSize) := by
  have hlive := hs.live hh
  obtain ⟨x, -, hx, -⟩ := hs.stocked.intact.live (hlive 0 hn)
  rw [Nat.add_zero] at hx
  refine ⟨x, hx, fun j hj => ?_⟩
  obtain ⟨z, -, hz, -, hcur⟩ := hs.stocked.intact.live (hlive j hj)
  rwa [show x + j = z by omega]

theorem Shadows.buffer (hs : Shadows m loc s y) (hloc : OffCache m loc)
    (hr : Flat.Range (contract loc) y a n) : Buffer m s.heap n a := by
  rcases Nat.eq_zero_or_pos n with rfl | hpos
  · rcases Nat.le_total a startAddr with ha | ha
    · exact .app nofun ha
    · obtain ⟨x, rfl⟩ := Nat.exists_eq_add_of_le ha
      exact .remote nofun
  cases hr with
  | loc hl =>
    have hlast := (hloc _ (hl (n - 1) (by omega))).1
    exact .app (fun j hj => (hloc _ (hl j hj)).2) (by omega)
  | held hh =>
    obtain ⟨x, rfl, hcur⟩ := hs.held hh hpos
    exact .remote hcur

theorem Shadows.usable (hs : Shadows m loc s y) (hloc : OffCache m loc)
    (hk : Flat.Reserved (contract loc) startAddr y a) : Usable m s.heap a := by
  have hi := hs.stocked.intact
  rcases hk with hl | ⟨e, he, h₁, h₂⟩ | ⟨h₁, h₂⟩
  · exact .app (hloc a hl).1 (hloc a hl).2
  · obtain ⟨b, hb, hlive, hstart, hasked, -⟩ := hs.owns he
    have hsize : b.size = rounded e.size := hasked ▸ hs.sized b hb
    have h₂ : a < e.start + rounded e.size := h₂
    exact hi.usable ⟨b, hb, hlive, hstart ▸ h₁, by rw [Block.stop, hstart, hsize]; exact h₂⟩
  · -- the slots of the initial objects are not used up
    obtain ⟨x, rfl⟩ := Nat.exists_eq_add_of_le ((Nat.le_add_right ..).trans h₁)
    have hslots := hi.coherent.initial
    have hws : kWorkingSetSize = kWorkingSetSize / objSize * objSize := by decide
    have h₂ : startAddr + x < startAddr + kWorkingSetSize := h₂
    rw [hs.stocked.initial] at hslots
    have hmul := Nat.mul_le_mul_right objSize hslots
    exact .remote (hi.beyond (hs.used.le.trans h₁) (by omega))

theorem Shadows.access (hs : Shadows m loc s y) (hloc : OffCache m loc)
    (ha : Flat.Accessible (contract loc) y a n) : Access m s.heap a n := by
  cases ha with
  | loc hl => exact .app (hloc _ (hl.loc 0 hl.pos)).1 (hloc.below hl) fun j hj => (hloc _ (hl.loc j hj)).2
  | held hpos hh hpage =>
    obtain ⟨x, rfl, hcur⟩ := hs.held hh hpos
    have hpage : (startAddr + x) % objSize + n ≤ objSize := hpage
    rw [Heap.start_mod] at hpage
    exact .remote (hcur 0 hpos) hpage

theorem contract_lawful (hloc : OffCache m loc) : (contract loc).Lawful startAddr where
  clear a ha := (hloc a ha).1
  aligned := show carmAllocSizeMultiple ∣ startAddr by decide
  unit n := rounded_unit
  room _ := le_rounded

theorem Shadows.bytes (hs : Shadows m loc s y) (hloc : OffCache m loc)
    (hr : Flat.Range (contract loc) y a n) : ∀ j < n, s.heap.view m (a + j) = y.mem (a + j) :=
  fun j hj => hs.agrees _ (Flat.Known.reserved (contract_lawful hloc) (hr.known j hj))

theorem Shadows.text (hs : Shadows m loc s y) (hloc : OffCache m loc)
    (ht : Flat.Text (contract loc) y a n) : Heap.IsString m s.heap a n where
  buffer := hs.buffer hloc ht.range
  chars j hj := by
    rw [hs.bytes hloc ht.range j (Nat.lt_succ_of_lt hj)]
    exact ht.chars j hj
  nul := by
    rw [hs.bytes hloc ht.range n (Nat.lt_succ_self n)]
    exact ht.nul

-- ---------------------------------------------------------------------------
-- Accesses and memory functions
-- ---------------------------------------------------------------------------

theorem Stocked.same (hs : Stocked m s) (hi : Intact m ⟨h', s.blocks, s.written⟩)
    (ha : Heap.SameAlloc s.heap h') : Stocked m ⟨h', s.blocks, s.written⟩ :=
  ⟨hi, ha.numObjects.trans hs.initial, by
    show h'.aspaceStart ≤ _
    rw [ha.aspaceStart]
    exact hs.spare⟩

theorem Depicts.change (hd : Depicts m loc h bs y) (ha : h'.aspaceStart = h.aspaceStart)
    (hview : ∀ a, Flat.Reserved (contract loc) startAddr y a → h'.view m a = μ a) :
    Depicts m loc h' bs { y with mem := μ } where
  extents := hd.extents
  sized := hd.sized
  used := ha.trans hd.used
  within := hd.within
  agrees := hview

theorem Shadows.writes (hs : Shadows m loc s y) (hloc : OffCache m loc)
    (hw : Writes m s.heap h' d n f) :
    Shadows m loc ⟨h', s.blocks, s.written⟩ { y with mem := blit y.mem d n f } where
  toDepicts := hs.change hw.alloc.aspaceStart fun a ha => by
    rw [hw.view a (hs.usable hloc ha), blit, blit, hs.agrees a ha]
  stocked := hs.stocked.same (hs.stocked.intact.writes hw) hw.alloc

theorem Shadows.keeps (hs : Shadows m loc s y) (hloc : OffCache m loc) (hk : Keeps m s.heap h') :
    Shadows m loc ⟨h', s.blocks, s.written⟩ y where
  toDepicts := hs.change hk.alloc.aspaceStart fun a ha =>
    (hk.view hs.stocked.intact.coherent (hs.usable hloc ha)).trans (hs.agrees a ha)
  stocked := hs.stocked.same (hs.stocked.intact.keeps hk) hk.alloc

-- ---------------------------------------------------------------------------
-- The allocator
-- ---------------------------------------------------------------------------

theorem Shadows.fitting (hs : Shadows m loc s y) (hf : Flat.Fitted (contract loc) y n) :
    Fitting s (rounded n) := by
  have hslots := hs.stocked.intact.coherent.initial
  have hws : kWorkingSetSize = kWorkingSetSize / objSize * objSize := by decide
  have hspare : kWorkingSetSize / objSize ≤ totalObjects - kWorkingSetSize / objSize := by decide
  rw [hs.stocked.initial] at hslots
  have hmin := Nat.mul_le_mul_right objSize (Nat.le_min.mpr ⟨hslots, hspare⟩)
  have hfit : y.used + rounded n ≤ kWorkingSetSize := hf
  rw [Fitting, hs.used, Nat.add_assoc]
  exact Nat.add_le_add_left (hfit.trans (hws.le.trans hmin)) _

theorem Depicts.take (hd : Depicts m loc h bs y) (hfit : Flat.Fitted (contract loc) y n)
    (hmap : h'.allocationMap h.aspaceStart = rounded n)
    (hstart : h'.aspaceStart = h.aspaceStart + rounded n)
    (hview : ∀ a, Flat.Reserved (contract loc) startAddr y a → h'.view m a = μ a) :
    Depicts m loc h' (⟨h.aspaceStart, h'.allocationMap h.aspaceStart, n, false⟩ :: bs)
      (y.take (contract loc) startAddr n μ) where
  extents := by
    show ⟨startAddr + y.used, n⟩ :: y.extents = ⟨h.aspaceStart, n⟩ :: extentsOf bs
    rw [hd.used, hd.extents]
  sized := by
    rw [List.forall_mem_cons, hmap]
    exact ⟨rfl, hd.sized⟩
  used := by
    show h'.aspaceStart = startAddr + (y.used + rounded n)
    rw [hstart, hd.used, Nat.add_assoc]
  within := hfit
  agrees a ha := hview a (Flat.reserved_of_take hfit ha)

theorem Depicts.drop (hd : Depicts m loc h bs y) : Depicts m loc h (markFreed p bs) (y.drop p) where
  extents := by
    rw [extentsOf_markFreed, ← hd.extents]
    rfl
  sized b hb := by
    obtain ⟨c, hc, rfl⟩ := List.mem_map.mp hb
    rw [Block.mark_size, Block.mark_asked]
    exact hd.sized c hc
  used := hd.used
  within := hd.within
  agrees a ha := hd.agrees a (Flat.reserved_of_drop ha)

theorem Shadows.malloc (hs : Shadows m loc s y) (hfit : Flat.Fitted (contract loc) y n) :
    ∃ s', s.heap.carmRemoteMalloc n = (s'.heap, startAddr + y.used) ∧
      Shadows m loc s' (y.take (contract loc) startAddr n y.mem) := by
  have hfitting := hs.fitting hfit
  have hlt : s.heap.aspaceStart + rounded n < 2 ^ 64 :=
    hfitting.spare.trans_lt (by decide)
  have hround : enforceSizeConstraints n = rounded n := enforceSizeConstraints_eq (by omega)
  have hok : Sensible s (.malloc n) := by
    refine ⟨?_, nofun, nofun, nofun⟩
    rintro k ⟨⟩
    rwa [show Op.copied s _ = 0 from rfl, Nat.max_eq_left (Nat.zero_le _)]
  have hst := hs.stocked.step hok rfl
  refine ⟨s.handOut (s.heap.bump (enforceSizeConstraints n)) s.heap.aspaceStart n fun _ => none,
    hs.used ▸ rfl, hs.toDepicts.take hfit ?_ ?_ hs.agrees, hst⟩
  · exact bump_allocationMap.trans hround
  · show u64 (s.heap.aspaceStart + enforceSizeConstraints n) = _
    rw [hround]
    exact Nat.mod_eq_of_lt hlt

theorem Shadows.calloc (hs : Shadows m loc s y) (hloc : OffCache m loc)
    (hfit : Flat.Fitted (contract loc) y (elem * elemSize)) (hlen : elem * elemSize < 2 ^ 31) :
    ∃ s', s.heap.carmCalloc m elem elemSize = .ok (s'.heap, startAddr + y.used) ∧
      Shadows m loc s' (y.take (contract loc) startAddr (elem * elemSize)
        (Lib.fill y.mem (startAddr + y.used) (rounded (elem * elemSize)) 0)) := by
  have hfitting := hs.fitting hfit
  have hlt : s.heap.aspaceStart + rounded (elem * elemSize) < 2 ^ 64 :=
    hfitting.spare.trans_lt (by decide)
  obtain ⟨h', hr⟩ := hs.stocked.intact.calloc_returns hlen
  obtain ⟨-, hw⟩ := hs.stocked.intact.calloc hfitting.hasRoom hr
  have hok : Sensible s (.calloc elem elemSize) := by
    refine ⟨?_, nofun, nofun, nofun⟩
    rintro k ⟨⟩
    rwa [show Op.copied s _ = 0 from rfl, Nat.max_eq_left (Nat.zero_le _)]
  have hst : Stocked m (s.handOut h' s.heap.aspaceStart (elem * elemSize) fun _ => some 0) :=
    hs.stocked.step hok (bind_ok.mpr ⟨_, hr, rfl⟩)
  have hbump : ∀ a, Usable m s.heap a → Usable m (s.heap.bump (rounded (elem * elemSize))) a :=
    fun a ha => ha.mono fun _ => Heap.bump_current.mpr
  refine ⟨_, hs.used ▸ hr, hs.toDepicts.take hfit ?_ ?_ fun a ha => ?_, hst⟩
  · exact (congrFun hw.alloc.allocationMap _).trans bump_allocationMap
  · exact hw.alloc.aspaceStart.trans (Nat.mod_eq_of_lt hlt)
  · refine (hw.view a (hbump a (hs.usable hloc ha))).trans ?_
    rw [hs.used, Lib.fill, blit, blit]
    split
    · rfl
    · exact hs.agrees a ha

theorem Shadows.free (hs : Shadows m loc s y) (hloc : OffCache m loc)
    (he : ∃ e ∈ y.extents, e.start = p) :
    ∃ s', s.heap.carmFree p = .ok s'.heap ∧ Shadows m loc s' (y.drop p) := by
  obtain ⟨e, he, rfl⟩ := he
  obtain ⟨b, hb, hlive, hstart, -⟩ := hs.owns he
  have hi := hs.stocked.intact
  obtain ⟨h', hr, -⟩ := carmFree_accounts hi.accounted fun c hc (hce : c.start = e.start) =>
    hi.accounted.tiled.start_inj hc hb (hce.trans hstart.symm) ▸ hlive
  have hok : Sensible s (.free e.start) := by
    refine ⟨nofun, ?_, nofun, nofun⟩
    rintro _ ⟨⟩
    exact ⟨b, hb, hstart, hlive⟩
  refine ⟨s.free h' e.start, hr, ?_, hs.stocked.step hok (bind_ok.mpr ⟨h', hr, rfl⟩)⟩
  have hd : Depicts m loc h' s.blocks { y with mem := y.mem } :=
    hs.change (Heap.carmFree_frees hr).aspaceStart fun a ha =>
      (hi.free_view hb (hstart ▸ hr) (hs.usable hloc ha)).trans (hs.agrees a ha)
  exact hd.drop

theorem le_room {x : Nat} : 2 ^ 32 - objSize ≤ room x := by
  have hoff : x % objSize < objSize := Nat.mod_lt _ (by decide)
  unfold room
  split
  · exact Nat.le_refl _
  · exact Nat.sub_le_sub_left (Nat.le_of_lt hoff) _

theorem Shadows.tagged (hs : Shadows m loc s y) (he : e ∈ y.extents) : checkCarmObject e.start := by
  obtain ⟨b, hb, -, hstart, -⟩ := hs.owns he
  have ht := hs.stocked.intact.accounted.tiled
  have hbelow := ht.below b hb
  have hspare := hs.stocked.spare.trans (show _ ≤ startAddr + 2 ^ 59 by decide)
  obtain ⟨x, hx⟩ := Nat.exists_eq_add_of_le (ht.above b hb)
  rw [Block.stop] at hbelow
  rw [← hstart, hx]
  exact checkCarmObject_start (by omega)

theorem Shadows.drop_null (hs : Shadows m loc s y) : Shadows m loc s (y.drop 0) := by
  have hsame : y.drop 0 = y := by
    have hall : y.extents.filter (fun e => e.start ≠ 0) = y.extents := by
      refine List.filter_eq_self.mpr fun e he => decide_eq_true fun h0 => ?_
      have htag := hs.tagged he
      rw [h0] at htag
      cases htag
    rw [Flat.drop, hall]
  rw [hsame]
  exact hs

theorem Shadows.extent_inj (hs : Shadows m loc s y) (he : e ∈ y.extents) (he' : e' ∈ y.extents)
    (hstart : e.start = e'.start) : e = e' := by
  obtain ⟨b, hb, -, h₁, h₂, -⟩ := hs.owns he
  obtain ⟨b', hb', -, h₁', h₂', -⟩ := hs.owns he'
  obtain rfl := hs.stocked.intact.accounted.tiled.start_inj hb hb' (by rw [h₁, h₁', hstart])
  cases e
  cases e'
  simp_all

theorem Shadows.realloc (hs : Shadows m loc s y) (hloc : OffCache m loc) (he : e ∈ y.extents)
    (hn : 0 < n) (hgrow : rounded e.size ≤ rounded n) (hlen : e.size < 2 ^ 31)
    (hfit : Flat.Fitted (contract loc) y n) : ∃ s',
      s.heap.carmRealloc m e.start n = .ok (s'.heap, startAddr + y.used) ∧
      Shadows m loc s' ((y.take (contract loc) startAddr n
        (Lib.move y.mem (startAddr + y.used) e.start (rounded e.size))).drop e.start) := by
  obtain ⟨b, hb, hlive, hstart, hasked, hle⟩ := hs.owns he
  have hi := hs.stocked.intact
  have ht := hi.accounted.tiled
  have hsize : b.size = rounded e.size := hasked ▸ hs.sized b hb
  have hfitting := hs.fitting hfit
  have hmax : max (rounded n) b.size = rounded n := Nat.max_eq_left (hsize ▸ hgrow)
  have hroom : HasRoom s (max (rounded n) b.size) := hmax.symm ▸ hfitting.hasRoom
  have hcopy : Copyable s b := by
    have hshort : rounded e.size ≤ 2 ^ 32 - objSize := by
      simp only [rounded, objSize]
      omega
    rw [Copyable, hsize]
    exact hshort.trans (le_room.trans (Nat.le_max_left ..))
  obtain ⟨h', hr⟩ := hi.realloc_returns hb hlive hn hroom hcopy
  obtain ⟨-, -, hmap, hview⟩ := hi.realloc_view hb hlive hn hroom hr
  -- where the bump pointer is afterwards
  have hnext : h'.aspaceStart = s.heap.aspaceStart + rounded n := by
    obtain ⟨-, h₁, p, hmemcpy, hfree⟩ := (hi.carmRealloc_ok hb hn hroom).mp hr
    have hw := hi.copy hb hlive (hroom.mono (Nat.le_max_right ..)) hmemcpy
    rw [(Heap.carmFree_frees hfree).aspaceStart, hw.alloc.aspaceStart]
    exact Nat.mod_eq_of_lt (hfitting.spare.trans_lt (by decide))
  have htag := hs.tagged he
  rw [hstart] at hr
  have hstep : step m s (.realloc e.start n) =
      .ok ((s.handOut h' s.heap.aspaceStart n (s.copied e.start)).free h' e.start) := by
    refine bind_ok.mpr ⟨_, hr, ?_⟩
    simp only [htag, Bool.not_true, Bool.false_eq_true, if_false, if_neg (Nat.ne_of_gt hn)]
    rfl
  have hok : Sensible s (.realloc e.start n) := by
    refine ⟨fun k hk => ?_, fun ptr hp => ?_, fun a w ha => ?_, fun o ho => ?_⟩
    · simp only [Op.request, htag, ne_eq, Nat.ne_of_gt hn, not_false_eq_true, and_self, if_true,
        Option.some.injEq] at hk
      rw [← hk, show Op.copied s _ = s.heap.allocationMap e.start from rfl, ← hstart,
        ht.recorded b hb, hmax]
      exact hfitting
    · simp only [Op.frees, htag, if_true, Option.some.injEq] at hp
      exact ⟨b, hb, hstart.trans hp, hlive⟩
    · cases ha
    · cases ho
  have hold : ∀ j < rounded e.size, s.heap.view m (b.start + j) = y.mem (e.start + j) := by
    intro j hj
    rw [hstart]
    exact hs.agrees _ (.inr (.inl ⟨e, he, Nat.le_add_right .., Nat.add_lt_add_left hj _⟩))
  refine ⟨_, hs.used ▸ hr, (hs.toDepicts.take hfit hmap hnext fun a ha => ?_).drop,
    hs.stocked.step hok hstep⟩
  rw [hview a (hs.usable hloc ha), hsize, hs.used, Lib.blit_congr hold, Lib.move, blit, blit,
    hs.agrees a ha]

-- ---------------------------------------------------------------------------
-- Every request
-- ---------------------------------------------------------------------------

theorem guardRead_keeps (hc : Coherent m h) (ha : Access m h a n) :
    Keeps m h (guardRead m h a n).1 := by
  cases ha with
  | remote hi _ =>
    obtain ⟨base, -, hd⟩ := guardedRead_derefs hc hi
    rw [guardRead_start (hi.lt_start hc)]
    exact hd.keeps
  | app hlt _ _ =>
    rw [guardRead_untagged hlt]
    exact .refl hc

theorem guardWrite_writes (hc : Coherent m h) (ha : Access m h a bs.length) :
    Writes m h (guardWrite m h a bs) a bs.length fun j => bs.getD j 0 := by
  cases ha with
  | remote hi hn =>
    rw [guardWrite_start (hi.lt_start hc)]
    exact guardedWrite_writes hc hi hn
  | app hlt hle hout =>
    rw [guardWrite_untagged hlt]
    exact Heap.store_app hc hout hle

/-- The runtime answers the request as the reference memory does, and goes on
showing it. -/
def Serves (m : Manager) (loc : Nat → Prop) (s : State) (y : Flat) (o : Request) : Prop :=
  ∃ s' a y', serve m s.heap o = .ok (s'.heap, a) ∧
    y.settle (contract loc) startAddr o = some (a, y') ∧ Shadows m loc s' y'

theorem Shadows.serves_load {g : Bool} (hs : Shadows m loc s y) (hloc : OffCache m loc)
    (ha : y.Allowed (contract loc) (.load g a n)) : Serves m loc s y (.load g a n) := by
  have hc := hs.stocked.intact.coherent
  cases g with
  | true =>
    have hacc := hs.access hloc ha
    have hread : (emittedRead m s.heap a n).2 = readBytes y.mem a n := by
      rw [emittedRead_eq hc hacc, ((Mirror.refl hc).guardRead hacc).1]
      exact Lib.readBytes_congr (hs.bytes hloc (Flat.Accessible.range ha))
    have hkeeps : Keeps m s.heap (emittedRead m s.heap a n).1 := by
      rw [emittedRead_eq hc hacc]
      exact guardRead_keeps hc hacc
    refine ⟨_, .bytes (emittedRead m s.heap a n).2, y, rfl, ?_, hs.keeps hloc hkeeps⟩
    rw [hread]
    rfl
  | false =>
    have hraw : readBytes s.heap.mem a n = readBytes y.mem a n := by
      refine Lib.readBytes_congr fun j hj => ?_
      have hlt : a + j < 2 ^ 60 := (hloc _ (ha.loc j hj)).1
      rw [← hs.bytes hloc (.loc ha.loc) j hj, Heap.view_untagged hlt]
    refine ⟨s, _, y, rfl, ?_, hs⟩
    rw [hraw]
    rfl

theorem Shadows.serves_store {g : Bool} (hs : Shadows m loc s y) (hloc : OffCache m loc)
    (ha : y.Allowed (contract loc) (.store g a bs)) : Serves m loc s y (.store g a bs) := by
  have hc := hs.stocked.intact.coherent
  cases g with
  | true =>
    have hacc := hs.access hloc ha
    have hw : Writes m s.heap (emittedWrite m s.heap a bs) a bs.length fun j => bs.getD j 0 := by
      rw [emittedWrite_eq hc hacc]
      exact guardWrite_writes hc hacc
    exact ⟨_, _, _, rfl, rfl, hs.writes hloc hw⟩
  | false =>
    have hw := Heap.store_app (f := fun j => bs.getD j 0) hc (fun j hj => (hloc _ (ha.loc j hj)).2)
      (hloc.below ha)
    exact ⟨_, _, _, rfl, rfl, hs.writes hloc hw⟩

theorem Shadows.serves_realloc (hs : Shadows m loc s y) (hloc : OffCache m loc)
    (ha : y.Allowed (contract loc) (.realloc ptr size)) : Serves m loc s y (.realloc ptr size) := by
  obtain ⟨e, he, rfl, hsize⟩ := ha
  rcases Nat.eq_zero_or_pos size with rfl | hpos
  · obtain ⟨s', hr, hs'⟩ := hs.free hloc ⟨e, he, rfl⟩
    refine ⟨s', _, _, ?_, rfl, hs'⟩
    rw [serve, carmRealloc_zero (hs.tagged he), hr]
    rfl
  · obtain ⟨hgrow, hlen, hfit⟩ := hsize.resolve_left (Nat.ne_of_gt hpos)
    obtain ⟨s', hr, hs'⟩ := hs.realloc hloc he hpos hgrow hlen hfit
    obtain ⟨e', he'⟩ : ∃ e', y.extents.find? (fun e' => e'.start = e.start) = some e' :=
      Option.isSome_iff_exists.mp (List.find?_isSome.mpr ⟨e, he, by simp⟩)
    obtain rfl := hs.extent_inj (List.mem_of_find?_eq_some he') he
      (by simpa using List.find?_some he')
    refine ⟨s', .word (startAddr + y.used), _, ?_, ?_, hs'⟩
    · rw [serve, hr]
      rfl
    · rw [Flat.settle, if_neg (Nat.ne_of_gt hpos), he']
      rfl

theorem memcmps_buffers (hn : n < 2 ^ 31) (hc : Coherent m h) (hdst : Buffer m h n dst)
    (hsrc : Buffer m h n src) : Heap.Memcmps m h dst src n := by
  rcases Nat.eq_zero_or_pos n with rfl | hpos
  · exact Heap.carmMemcmp_nothing hc
  obtain ⟨d, rfl, hd⟩ := hdst.operand
  obtain ⟨o, rfl, ho⟩ := hsrc.operand
  obtain ⟨h', hr, hcmp, -⟩ := carmMemcmp_compares hc hd ho hpos (Nat.le_refl n) hn (.inl rfl)
  exact ⟨h', hr, hcmp.keeps⟩

/-- A comparison of strings is one of as many bytes as the shorter one has. -/
theorem DecidedAt.order_min {f g : Nat → UInt8} (hk : DecidedAt f g k) (hkn : k ≤ n) (hkl : k ≤ l)
    (hchars : ∀ j < n, f j ≠ 0) : Lib.order f g (min n l + 1) = compare (f k) (g k) := by
  rw [← hk.order]
  rcases hk.here with hne | hnul
  · exact Lib.order_of_difference (Nat.lt_succ_self k) hne (by omega)
  · obtain rfl : k = n := Nat.le_antisymm hkn (Nat.le_of_not_lt fun hlt => hchars k hlt hnul)
    rw [Nat.min_eq_left hkl]

theorem Shadows.spells (hs : Shadows m loc s y) (hloc : OffCache m loc)
    (ht : Flat.Text (contract loc) y a n) : ∃ o : Operand, o.addr = a ∧
      o.Spells m s.heap n fun j => y.mem (a + j) := by
  obtain ⟨o, rfl, ho⟩ := (hs.buffer hloc ht.range).operand
  exact ⟨o, rfl, ⟨ho.reads, hs.bytes hloc ht.range⟩, ht.chars, ht.nul⟩

theorem Shadows.serves_strcmp (hs : Shadows m loc s y) (hloc : OffCache m loc)
    (ha : y.Allowed (contract loc) (.strcmp d t)) : Serves m loc s y (.strcmp d t) := by
  obtain ⟨⟨n, hn, hd⟩, l, hl, ht⟩ := ha
  obtain ⟨p, rfl, hp⟩ := hs.spells hloc hd
  obtain ⟨q, rfl, hq⟩ := hs.spells hloc ht
  obtain ⟨k, hk, hkn, hkl⟩ := exists_decidedAt hp hq
  obtain ⟨-, h', -, hr, hkeeps, -⟩ :=
    carmStrcmp_strcmps hs.stocked.intact.coherent hp hq hl hk hkn hkl
  refine ⟨_, .order (compare (y.mem (p.addr + k)) (y.mem (q.addr + k))), y, ?_, ?_,
    hs.keeps hloc hkeeps⟩
  · rw [serve, hr]
    rfl
  · rw [Flat.settle, hd.length (Nat.lt_of_succ_lt hn), ht.length (Nat.lt_of_succ_lt hl),
      Option.bind_some, Option.map_some,
      hk.order_min hkn hkl hd.chars]

theorem Shadows.serves_strdup (hs : Shadows m loc s y) (hloc : OffCache m loc)
    (ha : y.Allowed (contract loc) (.strdup t)) : Serves m loc s y (.strdup t) := by
  obtain ⟨n, hn, ht, ⟨e, he, h₁, h₂⟩, hfit⟩ := ha
  have hn : n + 1 < 2 ^ 31 := hn
  have hc := hs.stocked.intact.coherent
  have htag : checkCarmObject t = true := by
    obtain ⟨x, rfl, hcur⟩ := hs.held ⟨e, he, h₁, h₂⟩ (Nat.succ_pos n)
    exact checkCarmObject_start ((hcur 0 (Nat.succ_pos n)).lt_start hc)
  obtain ⟨h₁', hlen, hkeeps⟩ := (hs.text hloc ht).carmStrlen hc (by omega)
  obtain ⟨s₂, hmalloc, hs₂⟩ := (hs.keeps hloc hkeeps).malloc hfit
  have hdst : Buffer m s₂.heap (n + 1) (startAddr + y.used) := hs₂.buffer hloc
    (.held ⟨_, List.mem_cons_self .., Nat.le_refl _, Nat.le_refl _⟩)
  have hsrc : Flat.Range (contract loc) (y.take (contract loc) startAddr (n + 1) y.mem) t (n + 1) :=
    .held ⟨e, List.mem_cons_of_mem _ he, h₁, h₂⟩
  have hbelow : t + (n + 1) ≤ startAddr + y.used := by
    rw [← hs.used]
    exact hs.stocked.intact.live_below (hs.live ⟨e, he, h₁, h₂⟩ n (Nat.lt_succ_self n))
  obtain ⟨h', hr, hw⟩ := hdst.memmoves (hs₂.buffer hloc hsrc) hs₂.stocked.intact.coherent hn
    (Heap.Separate.inOrder (.inr hbelow))
  refine ⟨_, .word (startAddr + y.used), _, ?_, ?_,
    hs₂.writes hloc (hw.congr (hs₂.bytes hloc hsrc))⟩
  · rw [serve, Heap.carmStrdup, htag, hlen]
    simp only [Bool.not_true, Bool.false_eq_true, if_false, Bind.bind, Except.bind]
    rw [Heap.intSize_eq hn, hmalloc]
    simp only [hr]
    rfl
  · rw [Flat.settle, ht.length (Nat.lt_of_succ_lt hn)]
    rfl

theorem Shadows.serves_strncpy (hs : Shadows m loc s y) (hloc : OffCache m loc)
    (ha : y.Allowed (contract loc) (.strncpy dst src n)) : Serves m loc s y (.strncpy dst src n) := by
  obtain ⟨hdst, hsrc, ⟨hpos, hlen⟩, hsep, hpad⟩ := ha
  have hc := hs.stocked.intact.coherent
  have hbytes := hs.bytes hloc hsrc
  have hpadded : ∀ j < n, padded (fun j => s.heap.view m (src + j)) j = s.heap.view m (src + j) := by
    intro j hj
    refine padded_eq (f := fun j => s.heap.view m (src + j)) fun i hi hzero => ?_
    rw [hbytes j hj]
    exact hpad j hj i hi ((hbytes i (hi.trans hj)).symm.trans hzero)
  obtain ⟨h', hr, hw⟩ : Heap.Strncpies m s.heap dst src n := by
    by_cases hremote : checkCarmObject dst = true ∨ checkCarmObject src = true
    · obtain ⟨h', hr, hw⟩ := (hs.buffer hloc hdst).memmoves (hs.buffer hloc hsrc) hc hlen
        (Heap.Separate.inOrder hsep)
      exact ⟨h', (Heap.strncpy_remote hremote).trans hr, hw.congr fun j hj => (hpadded j hj).symm⟩
    · have hlocal := not_or.mp hremote
      exact Heap.strncpy_app hc hpos (hs.buffer hloc hdst) (hs.buffer hloc hsrc)
        (Bool.eq_false_iff.mpr hlocal.1) (Bool.eq_false_iff.mpr hlocal.2)
  have hw : Writes m s.heap h' dst n fun j => y.mem (src + j) :=
    hw.congr fun j hj => (hpadded j hj).trans (hbytes j hj)
  refine ⟨_, .word dst, _, ?_, rfl, hs.writes hloc hw⟩
  rw [serve, hr]
  rfl

/-- `carm_memchr` finds the first hit of a local range, and of a remote one that
has a hit. -/
theorem Shadows.memchr (hs : Shadows m loc s y) (hloc : OffCache m loc)
    (ha : y.Allowed (contract loc) (.memchr t c n)) : ∃ h', s.heap.carmMemchr m t c n =
      .ok (h', Heap.hitAddr t (first (fun j => s.heap.view m (t + j) == lowByte c) n)) ∧
    Keeps m s.heap h' := by
  have hc := hs.stocked.intact.coherent
  have hlocal : 0 < n → (∀ j < n, loc (t + j)) → ∃ h', s.heap.carmMemchr m t c n =
      .ok (h', Heap.hitAddr t (first (fun j => s.heap.view m (t + j) == lowByte c) n)) ∧
      Keeps m s.heap h' := by
    intro hpos hl
    have htag : checkCarmObject t = false := checkCarmObject_untagged (hloc _ (hl 0 hpos)).1
    have hraw : first (fun j => s.heap.mem (t + j) == lowByte c) n =
        first (fun j => s.heap.view m (t + j) == lowByte c) n :=
      Lib.first_congr fun j hj => by rw [Heap.view_untagged (hloc _ (hl j hj)).1]
    refine ⟨s.heap, ?_, .refl hc⟩
    rw [Heap.carmMemchr, htag, Heap.memchr, hraw]
    rfl
  rcases ha with hl | ⟨hr, hbyte, j, hj, he⟩
  · exact hlocal hl.pos hl.loc
  · have hpos : 0 < n := (Nat.zero_le j).trans_lt hj
    rcases hr with hl | hh
    · exact hlocal hpos hl
    · have hview := hs.bytes hloc (.held hh) j hj
      obtain ⟨x, rfl, hcur⟩ := hs.held hh hpos
      have hx : x < 2 ^ 60 := (hcur 0 hpos).lt_start hc
      obtain ⟨h', hr, hk⟩ := Heap.carmMemchr_scan (c := c) hc hx hcur
      refine ⟨h', ?_, hk⟩
      rw [hr, Heap.first_bounded.mpr]
      rw [Heap.Bounded, if_pos hbyte]
      exact .inl ⟨j, hj, hview.trans he⟩

theorem Shadows.serves_memchr (hs : Shadows m loc s y) (hloc : OffCache m loc)
    (ha : y.Allowed (contract loc) (.memchr t c n)) : Serves m loc s y (.memchr t c n) := by
  have hfound : ∀ hit, Heap.hitAddr t hit = Flat.found t hit := fun hit => by cases hit <;> rfl
  have hrange : Flat.Range (contract loc) y t n := by
    rcases ha with hl | hr
    · exact .loc hl.loc
    · exact hr.1
  have hfirst : first (fun j => s.heap.view m (t + j) == lowByte c) n =
      first (fun j => y.mem (t + j) == lowByte c) n :=
    Lib.first_congr fun j hj => by rw [hs.bytes hloc hrange j hj]
  obtain ⟨h', hr, hk⟩ := hs.memchr hloc ha
  rw [hfirst, hfound] at hr
  refine ⟨_, _, y, ?_, rfl, hs.keeps hloc hk⟩
  rw [serve, hr]
  rfl

theorem Shadows.serves (hs : Shadows m loc s y) (hloc : OffCache m loc)
    (ha : y.Allowed (contract loc) o) : Serves m loc s y o := by
  have hc := hs.stocked.intact.coherent
  cases o with
  | load g a n => exact hs.serves_load hloc ha
  | store g a bs => exact hs.serves_store hloc ha
  | malloc size =>
    obtain ⟨s', hr, hs'⟩ := hs.malloc ha
    refine ⟨s', _, _, ?_, rfl, hs'⟩
    rw [serve, hr]
    rfl
  | calloc elem elemSize =>
    obtain ⟨s', hr, hs'⟩ := hs.calloc hloc ha.1 ha.2
    refine ⟨s', _, _, ?_, rfl, hs'⟩
    rw [serve, hr]
    rfl
  | realloc ptr size => exact hs.serves_realloc hloc ha
  | free ptr =>
    obtain ⟨s', hr, hs'⟩ : ∃ s', s.heap.carmFree ptr = .ok s'.heap ∧ Shadows m loc s' (y.drop ptr) := by
      rcases ha with rfl | he
      · exact ⟨s, rfl, hs.drop_null⟩
      · exact hs.free hloc he
    refine ⟨s', _, _, ?_, rfl, hs'⟩
    rw [serve, hr]
    rfl
  | memcpy dst src size =>
    obtain ⟨hdst, hsrc, hlen, hord⟩ := ha
    obtain ⟨h', hr, hw⟩ := (hs.buffer hloc hdst).memmoves (hs.buffer hloc hsrc) hc hlen
      (.inr (.inr (hord.imp_right .inl)))
    refine ⟨_, _, _, ?_, rfl, hs.writes hloc (hw.congr (hs.bytes hloc hsrc))⟩
    rw [serve, hr]
    rfl
  | memset dst v size =>
    obtain ⟨h', hr, hw⟩ := (hs.buffer hloc ha.1).memsets (v := v) hc ha.2
    refine ⟨_, _, _, ?_, rfl, hs.writes hloc hw⟩
    rw [serve, hr]
    rfl
  | memcmp a b size =>
    obtain ⟨h', hr, hk⟩ := memcmps_buffers ha.2.2 hc (hs.buffer hloc ha.1) (hs.buffer hloc ha.2.1)
    rw [Lib.order_congr (hs.bytes hloc ha.1) (hs.bytes hloc ha.2.1)] at hr
    refine ⟨_, _, _, ?_, rfl, hs.keeps hloc hk⟩
    rw [serve, hr]
    rfl
  | strlen a =>
    obtain ⟨n, hn, ht⟩ := ha
    obtain ⟨h', hr, hk⟩ := (hs.text hloc ht).carmStrlen hc hn
    refine ⟨_, .word n, y, ?_, ?_, hs.keeps hloc hk⟩
    · rw [serve, hr]
      rfl
    · rw [Flat.settle, ht.length hn]
      rfl
  | strcpy dst src =>
    obtain ⟨n, hn, ht, hdst, hsep⟩ := ha
    obtain ⟨h', hr, hw⟩ := (hs.text hloc ht).carmStrcpy hc hn (hs.buffer hloc hdst) hsep
    refine ⟨_, .word dst, _, ?_, ?_, hs.writes hloc (hw.congr (hs.bytes hloc ht.range))⟩
    · rw [serve, hr]
      rfl
    · rw [Flat.settle, ht.length (Nat.lt_of_succ_lt hn)]
      rfl
  | strncpy dst src size => exact hs.serves_strncpy hloc ha
  | strcmp d t => exact hs.serves_strcmp hloc ha
  | strdup t => exact hs.serves_strdup hloc ha
  | memchr t c size => exact hs.serves_memchr hloc ha

end TrackFM
