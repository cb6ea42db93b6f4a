import TrackFM.Walk
import TrackFM.Cache

/-!
# Which steps the transformed loop gets right

The first step that enters an object elsewhere than at its start leaves the
loop on a wrong pointer: in a heap with everything evacuated the object it
should be in has no local copy, or the pointer is at another offset.
`chunked_walk_iff` is the exact condition on the start, the step and the count.
-/

namespace TrackFM

open Loops (carmDerefLoop strideOf)
open Heap (Coherent Located parked parked_coherent parked_current)
open Lib (Aligned EntersAtStart)

variable {m : Manager} {g : Chunk} {s s' s₀ : Loops} {φ : Phis} {d : Int} {w : Bool} {h : Heap}
  {x : Nat}

-- ---------------------------------------------------------------------------
-- Objects without a local copy
-- ---------------------------------------------------------------------------

namespace Heap

def Away (h : Heap) (i : Nat) : Prop := ∃ o, h.ptrs i = some o ∧ ¬(h.objs o).Present

theorem Away.not_located (ha : h.Away i) : ¬h.Located i base := by
  rintro ⟨o, ho, hpres, -⟩
  obtain ⟨o', ho', habs⟩ := ha
  cases ho.symm.trans ho'
  exact habs hpres

theorem carmDerefObj_away (hc : Coherent m h) (hi : h.Current i) (hk : h.Current k) (hne : k ≠ i)
    (ha : h.Away k) : (carmDerefObj m h w i f).1.Away k := by
  obtain ⟨o, ho, habs⟩ := ha
  refine ⟨o, carmDerefObj_touches.backed ho, ?_⟩
  rwa [carmDerefObj_other hc hk hi hne ho]

end Heap

theorem carmDerefLoop_away (hc : Coherent m s.heap) (hcarm : (s.loopstate loopId).carmPtr = true)
    (hidx : (s.loopstate loopId).objIndex = i) (hi : s.heap.Current i) (hk : s.heap.Current k)
    (hne : k ≠ i) (ha : s.heap.Away k) : (carmDerefLoop m w s loopId).1.heap.Away k := by
  obtain ⟨ms, hinv⟩ := Heap.invalidateMarkedRegion_eq (h := s.heap)
    (r := (s.loopstate loopId).regionAddr)
  have hc' := Heap.marks_coherent (r := ms) hc
  have hkeep := (Heap.carmDeref_keeps hc').current
  rw [Loops.carmDerefLoop_remote hcarm]
  show (Loops.fetched m w s loopId).1.Away k
  rw [Loops.fetched, hinv, hidx]
  exact Heap.carmDerefObj_away (Heap.carmDeref_keeps hc').coherent
    (hkeep i (Heap.marks_current.mpr hi)) (hkeep k (Heap.marks_current.mpr hk)) hne ha

-- ---------------------------------------------------------------------------
-- The loop alone
-- ---------------------------------------------------------------------------

abbrev Alone : Nat → Loops → Loops → Prop := fun _ _ _ => False

theorem Chunk.Iteration.of_alone {body : Nat → Loops → Loops → Prop}
    (h : Chunk.Iteration m g Alone s₀ k s φ) :
    Chunk.Iteration m g body s₀ k s φ := by
  induction h with
  | enter h => exact .enter h
  | body _ hb => exact hb.elim
  | next _ ih => exact .next ih

theorem Chunk.alone_returns (h : g.outerHeader m s₀ = .ok (s, φ)) (k : Nat) :
    ∃ s φ, Chunk.Iteration m g Alone s₀ k s φ := by
  induction k with
  | zero => exact ⟨s, φ, .enter h⟩
  | succ k ih =>
    obtain ⟨s, φ, hit⟩ := ih
    exact ⟨_, _, .next hit⟩

theorem header_away (hid : s₀.loopIdCnt < maxLoops) (hc : Coherent m s₀.heap)
    (hx : InSpace (x : Int)) (hcur : s₀.heap.Current (objectOf (x : Int)))
    (hg : g.start = startAddr + x) (hj : s₀.heap.Current j) (hne : j ≠ objectOf (x : Int))
    (h : g.outerHeader m s₀ = .ok (s, φ)) (ha : s₀.heap.Away j) : s.heap.Away j := by
  obtain ⟨-, s₁, rfl, -, -, hheap, hslot⟩ := Chunk.outerHeader_ok hid h
  have hend : ((totalObjects * objSize : Nat) : Int) = 41943040 * 4096 := rfl
  have hx60 : x < 2 ^ 60 := by
    have := hx.2
    omega
  rw [hg, opened_remote hx60] at hslot
  rw [← hheap] at hc hcur hj ha
  exact carmDerefLoop_away hc (by rw [hslot]) (by rw [hslot]; rfl) hcur hj hne ha

theorem walk_away (hd : Signed64 d) (hid : s₀.loopIdCnt < maxLoops) (hc : Coherent m s₀.heap)
    (hconst : constant = true → d = 0) (hwalk : RemoteWalk x d (k + 1))
    (hcur : ∀ i < k + 1, s₀.heap.Current (objectOf (x + i * d)))
    (hsteps : ∀ i < k, EntersAtStart objSize d (x + i * d)) (hj : s₀.heap.Current j)
    (hne : ∀ i < k + 1, j ≠ objectOf (x + i * d))
    (hit : Chunk.Iteration m ⟨startAddr + x, word64 d, constant, w⟩ Alone s₀ k s φ)
    (ha : s₀.heap.Away j) : s.heap.Away j := by
  induction hit with
  | enter h =>
    have hcur₀ := hcur 0 (by omega)
    have hne₀ := hne 0 (by omega)
    simp only [Nat.cast_zero, Int.zero_mul, Int.add_zero] at hcur₀ hne₀
    exact header_away hid hc (hwalk.start (by omega)) hcur₀ rfl hj hne₀ h ha
  | body _ hb => exact hb.elim
  | @next k s φ hit ih =>
    have ha' := ih (fun i hi => hwalk i (by omega)) (fun i hi => hcur i (by omega))
      (fun i hi => hsteps i (by omega)) fun i hi => hne i (by omega)
    obtain ⟨ht, hkeep⟩ := chunked_walk hd hid hc hconst hwalk hcur (by omega)
      (fun i hi => hsteps i (by omega)) hit.of_alone
    have hp := hwalk k (by omega)
    have hq := hwalk (k + 1) (by omega)
    have hnext := hkeep _ (hcur (k + 1) (by omega))
    have hother := hne (k + 1) (by omega)
    have he := hsteps k (Nat.lt_succ_self k)
    rw [Lib.next_position] at hq hnext hother
    generalize (x : Int) + k * d = p at *
    by_cases hsame : (p + d) / objSize = p / objSize
    · rw [(ht.next_within rfl hconst hd.2 hnext hsame).1]
      exact ha'
    · obtain ⟨hpos, -⟩ := he hsame
      have hs : (objSize : Int) = 4096 := rfl
      have hover := (ht.bound_le_iff rfl hconst hd.2 (by omega)).mpr (by
        rw [hs] at hsame ⊢
        omega)
      rw [Chunk.backEdge, if_pos hover, Chunk.derefCall_eq]
      exact carmDerefLoop_away ht.coherent ht.carmPtr
        (ht.objIndex_next rfl hconst hd.2 hp hq he hsame) hnext (hkeep j hj) hother ha'

-- ---------------------------------------------------------------------------
-- The first wrong step
-- ---------------------------------------------------------------------------

/-- Below the object the pointer runs on, in whatever lies there. -/
theorem Tracks.down_wrong (hstep : g.step = word64 d) (hconst : g.constant = true → d = 0)
    (ht : Tracks m g x s φ p) (hdown : d < 0) (h₀ : 0 ≤ φ.pointer + d)
    (ha : s.heap.Away (objectOf (p + d))) :
    ¬Right (g.backEdge m s φ).1 (g.backEdge m s φ).2 (p + d) := by
  have hlow := (ht.bound_le_iff hstep hconst (by omega) h₀).not.mpr (by
    have := Int.emod_lt_of_pos p (show (0 : Int) < objSize by decide)
    omega)
  rw [Chunk.backEdge, if_neg hlow]
  rintro ⟨base, hl, -⟩
  exact ha.not_located hl

/-- Past the object the pointer is at the start of the object `stride` further. -/
theorem Tracks.up_wrong (hstep : g.step = word64 d) (hconst : g.constant = true → d = 0)
    (hd : Signed64 d) (ht : Tracks m g x s φ p) (hpos : 0 < d) (hx : (x : Int) ≤ p)
    (hp : InSpace p) (hq : InSpace (p + d)) (hcur : s.heap.Current (objectOf p + g.stride))
    (hnext : s.heap.Current (objectOf (p + d))) (ha : s.heap.Away (objectOf (p + d)))
    (hbad : ¬EntersAtStart objSize d p) :
    ¬Right (g.backEdge m s φ).1 (g.backEdge m s φ).2 (p + d) := by
  have hs : (objSize : Int) = 4096 := rfl
  have hne : (p + d) / objSize ≠ p / objSize := fun he => hbad (Lib.entersAtStart_within he)
  have hover := (ht.bound_le_iff hstep hconst hd.2 (by omega)).mpr (by
    rw [hs] at hne ⊢
    omega)
  have hstride := g.stride_eq hstep hconst hd.2 hpos
  have hstride₁ := Lib.blockStride_pos (show (0 : Int) < objSize by decide) hpos
  have hpdiv := objectOf_eq hp.1
  have hqdiv := objectOf_eq hq.1
  obtain ⟨base, hn, hres⟩ := carmDerefLoop_next (w := g.mutable) ht.coherent ht.carmPtr
    ht.objIndex hcur
  have hlater : ¬(s.loopstate φ.loopId).startObjIndex = objectOf p + g.stride := by
    rw [ht.startObjIndex]
    show ¬x / 4096 = _
    rw [hs] at hpdiv
    omega
  rw [if_neg hlater] at hres
  rw [Chunk.backEdge, if_pos hover, Chunk.derefCall_eq]
  rintro ⟨base', hl, hptr⟩
  by_cases hsame : objectOf p + g.stride = objectOf (p + d)
  · -- the right object, at another offset
    obtain rfl := (hsame ▸ hn.located).eq hl
    have hzero : (p + d) % objSize = 0 := by
      have hptr' : ((carmDerefLoop m g.mutable s φ.loopId).2 : Int) = base + (p + d) % objSize := hptr
      rw [hres] at hptr'
      omega
    refine hbad ((Lib.advance_locate (by decide) fun _ => hstride).mp ?_)
    have hcursor : (⟨p / objSize + g.stride, 0⟩ : Lib.Cursor) = Lib.locate objSize (p + d) := by
      rw [Lib.locate, hzero, ← hqdiv, ← hsame, Nat.cast_add, hpdiv]
    rw [← hcursor, Lib.advance]
    exact if_pos ((ht.bound_le_iff hstep hconst hd.2 (by omega)).mp hover)
  · exact (carmDerefLoop_away ht.coherent ht.carmPtr ht.objIndex hcur hnext (Ne.symm hsame)
      ha).not_located hl

-- ---------------------------------------------------------------------------
-- Slots for a walk
-- ---------------------------------------------------------------------------

def slotsOf (objects : List Nat) : List Nat := (objects.filter (· < totalObjects)).dedup

theorem mem_slotsOf : i ∈ slotsOf objects ↔ i ∈ objects ∧ i < totalObjects := by
  simp [slotsOf]

theorem slotsOf_parkable (hmem : i ∈ slotsOf objects) (hfew : objects.length ≤ farObjects) :
    Heap.Parkable (slotsOf objects) where
  nonempty := List.ne_nil_of_mem hmem
  nodup := List.nodup_dedup _
  few := ((List.dedup_sublist _).trans List.filter_sublist).length_le.trans hfew
  lt _ hi := (mem_slotsOf.mp hi).2

theorem parked_away (hi : i ∈ slots) : (parked slots μ).Away i :=
  ⟨_, Heap.parked_ptrs hi, flushed⟩

-- ---------------------------------------------------------------------------
-- The exact condition
-- ---------------------------------------------------------------------------

/-- In every run of a chunked loop along the walk, entered with a free slot and a
live object at each position so far, every iteration uses the right pointer. -/
def WalksRight (x : Nat) (d : Int) (n : Nat) : Prop :=
  ∀ (m : Manager) (constant w : Bool) (s₀ : Loops), (constant = true → d = 0) →
    Coherent m s₀.heap → s₀.loopIdCnt < maxLoops →
    (s₀.loopstate s₀.loopIdCnt).active = false →
    (∃ s φ, Chunk.outerHeader m ⟨startAddr + x, word64 d, constant, w⟩ s₀ = .ok (s, φ)) ∧
    ∀ k < n, (∀ i < k + 1, s₀.heap.Current (objectOf (x + i * d))) → ∀ s φ,
      Chunk.Iteration m ⟨startAddr + x, word64 d, constant, w⟩ (Between m) s₀ k s φ →
      Right s φ (x + k * d)

theorem walksRight_of_aligned (hd : Signed64 d) (hwalk : RemoteWalk x d n)
    (h : Aligned objSize x d n) : WalksRight x d n := by
  intro m constant w s₀ hconst hc hid hfree
  refine ⟨Chunk.outerHeader_returns hfree, fun k hk hcur s φ hit => ?_⟩
  exact (chunked_walk hd hid hc hconst (fun i hi => hwalk i (by omega)) hcur (Nat.lt_succ_self k)
    (fun i hi => h i (by omega)) hit).1.right

/-- A walk about to go wrong, with everything the loop asks for evacuated. -/
def parkedLoops (slots : List Nat) : Loops := initLoops (parked slots fun _ => 0) fun _ => .cleared

theorem objectOf_ne (hp : InSpace p) (hq : InSpace q) (h : p / objSize ≠ q / objSize) :
    objectOf p ≠ objectOf q := by
  have h₁ := objectOf_eq hp.1
  have h₂ := objectOf_eq hq.1
  omega

theorem aligned_of_walksRight (hd : Signed64 d) (hwalk : RemoteWalk x d n)
    (h : WalksRight x d n) : Aligned objSize x d n := by
  by_contra hno
  obtain ⟨k, hk, hsteps, hbad⟩ := Lib.first_wrong hno
  obtain ⟨b, hblocks⟩ := Lib.few_blocks (show (0 : Int) < objSize by decide) hsteps hbad
  have hp := hwalk k (by omega)
  have hq := hwalk (k + 1) (by omega)
  rw [Lib.next_position] at hq
  have hne : (x + k * d + d) / (objSize : Int) ≠ (x + k * d) / objSize := fun he =>
    hbad (Lib.entersAtStart_within he)
  have hd₀ : d ≠ 0 := by
    rintro rfl
    exact hne (by simp)
  -- the slots of the positions so far, of the next one and of the one the runtime takes
  obtain ⟨objects, hobjects⟩ : ∃ l : List Nat, l = [objectOf x, b.toNat,
    objectOf (x + k * d) + strideOf (word64 d), objectOf (x + k * d + d)] := ⟨_, rfl⟩
  have hfew : objects.length ≤ farObjects := by
    rw [hobjects]
    show 4 ≤ farObjects
    decide
  have hvisited : ∀ i < k + 1, objectOf (x + i * d) ∈ slotsOf objects := fun i hi => by
    refine mem_slotsOf.mpr ⟨?_, objectOf_lt (hwalk i (by omega))⟩
    have hblock := hblocks i (by omega)
    simp only [hobjects, List.mem_cons, objectOf]
    exact hblock.imp (congrArg Int.toNat) fun hb => .inl (congrArg Int.toNat hb)
  have hnext : objectOf (x + k * d + d) ∈ slotsOf objects :=
    mem_slotsOf.mpr ⟨by simp [hobjects], objectOf_lt hq⟩
  have hs := slotsOf_parkable hnext hfew
  have hc : Coherent cacheManager (parkedLoops (slotsOf objects)).heap :=
    parked_coherent (μ := fun _ => 0) hs
  have hslot : ∀ i ∈ slotsOf objects, (parkedLoops (slotsOf objects)).heap.Current i :=
    fun _ hi => parked_current (μ := fun _ => 0) hs hi
  have hid : (parkedLoops (slotsOf objects)).loopIdCnt < maxLoops := by
    show 0 < maxLoops
    decide
  have hconst : false = true → d = 0 := fun h => absurd h Bool.false_ne_true
  obtain ⟨⟨s, φ, hheader⟩, hright⟩ := h cacheManager false false _ hconst hc hid rfl
  obtain ⟨s, φ, hit⟩ := Chunk.alone_returns hheader k
  have hwalk' : RemoteWalk x d (k + 1) := fun i hi => hwalk i (by omega)
  have hcur : ∀ i < k + 1, (parkedLoops (slotsOf objects)).heap.Current (objectOf (x + i * d)) :=
    fun i hi => hslot _ (hvisited i hi)
  obtain ⟨ht, hkeep⟩ := chunked_walk hd hid hc hconst hwalk' hcur (Nat.lt_succ_self k) hsteps
    hit.of_alone
  have hoff : ∀ i < k + 1, objectOf (x + k * d + d) ≠ objectOf (x + i * d) := fun i hi =>
    Ne.symm (objectOf_ne (hwalk i (by omega)) hq (Lib.left_behind (by decide) hne hi))
  have haway := walk_away hd hid hc hconst hwalk' hcur hsteps (hslot _ hnext) hoff hit
    (parked_away (μ := fun _ => 0) hnext)
  have hlast := hright (k + 1) hk (fun i hi => by
    by_cases hik : i = k + 1
    · rw [hik, Lib.next_position]
      exact hslot _ hnext
    · exact hcur i (by omega)) _ _ (.next hit.of_alone)
  rw [Lib.next_position] at hlast
  rcases Int.lt_or_gt_of_ne hd₀ with hdown | hup
  · obtain ⟨base, hl, hptr, -⟩ := ht.held
    have hlo : 2 ^ 46 ≤ base := (hl.within ht.coherent ht.current).1
    have hoffset := Int.emod_nonneg (x + k * d) (show (objSize : Int) ≠ 0 by decide)
    have hend : ((totalObjects * objSize : Nat) : Int) = 41943040 * 4096 := rfl
    exact ht.down_wrong rfl hconst hdown (by omega) haway hlast
  · have hstride := Chunk.stride_eq (g := ⟨startAddr + x, word64 d, false, false⟩) rfl hconst hd.2 hup
    have hbefore := Lib.blockStride_le (show (0 : Int) < objSize by decide) hup hne
    have htaken : objectOf (x + k * d) + strideOf (word64 d) ∈ slotsOf objects := by
      refine mem_slotsOf.mpr ⟨by simp [hobjects], ?_⟩
      have hlt := objectOf_lt hq
      have h₁ := objectOf_eq hp.1
      have h₂ := objectOf_eq hq.1
      rw [← hstride] at hbefore
      have hle : (strideOf (word64 d) : Int) ≤ objectOf (x + k * d + d) - objectOf (x + k * d) := by
        rw [h₁, h₂]
        exact Int.le_sub_left_of_add_le hbefore
      omega
    have hx : (x : Int) ≤ x + k * d := by
      have := Int.mul_nonneg (Int.natCast_nonneg k) hup.le
      omega
    exact ht.up_wrong rfl hconst hd hup hx hp hq (hkeep _ (hslot _ htaken))
      (hkeep _ (hslot _ hnext)) haway hbad hlast

theorem chunked_walk_iff (hd : Signed64 d) (hwalk : RemoteWalk x d n) :
    WalksRight x d n ↔ Aligned objSize x d n :=
  ⟨aligned_of_walksRight hd hwalk, walksRight_of_aligned hd hwalk⟩

theorem chunked_walk_words : WalksRight 0 8 10000 := by
  have hwalk : RemoteWalk 0 8 10000 := fun k hk => by
    have hend : ((totalObjects * objSize : Nat) : Int) = 41943040 * 4096 := rfl
    omega
  refine (chunked_walk_iff (by decide) hwalk).mpr fun k hk hne =>
    ⟨by decide, ?_, fun h => absurd h (by decide)⟩
  have hs : (objSize : Int) = 4096 := rfl
  rw [hs] at hne ⊢
  omega

/-- An array of 24-byte structures: the 171st starts 8 bytes before the second page. -/
theorem chunked_walk_astray :
    ¬∀ x d n, Signed64 d → RemoteWalk x d n → WalksRight x d n := by
  intro h
  have hwalk : RemoteWalk 0 24 172 := fun k hk => by
    have hend : ((totalObjects * objSize : Nat) : Int) = 41943040 * 4096 := rfl
    omega
  have haligned := aligned_of_walksRight (by decide) hwalk (h 0 24 172 (by decide) hwalk)
  exact absurd (haligned 170 (by decide)) (by decide)

end TrackFM
