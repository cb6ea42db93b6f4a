import TrackFM.Flat

/-!
# The reference memory

A flat memory that leaves nothing open: blocks lie one after the other, and a new
block holds what is there. Each request has one answer, which is one a flat memory
may give.
-/

namespace TrackFM

open Lib (Mem Service Implements blit blit_in blit_out move move_out fill readBytes writeBytes first
  order)

namespace Flat

def take (T : Contract) (base : Nat) (y : Flat) (n : Nat) (μ : Mem UInt8) : Flat where
  mem := μ
  extents := ⟨base + y.used, n⟩ :: y.extents
  used := y.used + T.footprint n

def textLength (T : Contract) (y : Flat) (s : Nat) : Option Nat :=
  first (fun j => y.mem (s + j) == 0) T.longest

/-- The answer to a request and what it leaves. A block that is moved takes along
all it takes up. -/
def settle (T : Contract) (base : Nat) (y : Flat) : Request → Option (Answer × Flat)
  | .load _ a n => some (.bytes (readBytes y.mem a n), y)
  | .store _ a bs => some (.done, { y with mem := writeBytes y.mem a bs })
  | .malloc size => some (.word (base + y.used), y.take T base size y.mem)
  | .calloc elem elemSize => some (.word (base + y.used), y.take T base (elem * elemSize)
      (fill y.mem (base + y.used) (T.footprint (elem * elemSize)) 0))
  | .realloc ptr size =>
    if size = 0 then some (.word 0, y.drop ptr)
    else (y.extents.find? fun b => b.start = ptr).map fun b => (.word (base + y.used),
      (y.take T base size (move y.mem (base + y.used) ptr (T.footprint b.size))).drop ptr)
  | .free ptr => some (.done, y.drop ptr)
  | .memcpy dst src size => some (.word dst, { y with mem := move y.mem dst src size })
  | .memset dst v size => some (.word dst, { y with mem := fill y.mem dst size (lowByte v) })
  | .memcmp a b size =>
    some (.order (order (fun j => y.mem (a + j)) (fun j => y.mem (b + j)) size), y)
  | .strlen s => (y.textLength T s).map fun n => (.word n, y)
  | .strcpy dst src => (y.textLength T src).map fun n =>
      (.word dst, { y with mem := move y.mem dst src (n + 1) })
  | .strncpy dst src size => some (.word dst, { y with mem := move y.mem dst src size })
  | .strcmp d s => (y.textLength T d).bind fun n => (y.textLength T s).map fun l =>
      (.order (order (fun j => y.mem (d + j)) (fun j => y.mem (s + j)) (min n l + 1)), y)
  | .strdup s => (y.textLength T s).map fun n =>
      (.word (base + y.used), y.take T base (n + 1) (move y.mem (base + y.used) s (n + 1)))
  | .memchr s c size =>
    some (.word (found s (first (fun j => y.mem (s + j) == lowByte c) size)), y)

end Flat

/-- An address the reference memory keeps the contents of: all that a block takes
up, and what is not taken yet. -/
def Flat.Reserved (T : Contract) (base : Nat) (y : Flat) (a : Nat) : Prop :=
  T.loc a ∨ (∃ b ∈ y.extents, b.start ≤ a ∧ a < b.start + T.footprint b.size) ∨
    base + y.used ≤ a ∧ a < base + T.capacity

def settled (T : Contract) (base : Nat) : Service Request Answer Flat where
  call y o a y' := y.settle T base o = some (a, y')
  between := Eq

/-- What the reference memory relies on: blocks have room, start where they may
and lie above the memory a program has beside them. -/
structure Contract.Lawful (T : Contract) (base : Nat) : Prop where
  clear : ∀ a, T.loc a → a < base
  aligned : T.unit ∣ base
  unit : ∀ n, T.unit ∣ T.footprint n
  room : ∀ n, n ≤ T.footprint n

namespace Flat

variable {T : Contract} {base : Nat} {y z : Flat} {a n p s : Nat} {μ ν : Mem UInt8}

theorem Text.length (ht : Text T y s n) (hn : n < T.longest) : y.textLength T s = some n :=
  Lib.first_eq_some.mpr ⟨hn, by simp [ht.nul], fun j hj => by simpa using ht.chars j hj⟩

/-- The flat memory `z` may hold what the reference memory `y` holds, as far as a
program may rely on it. -/
structure Covers (T : Contract) (base : Nat) (y z : Flat) : Prop where
  extents : z.extents = y.extents
  used : z.used = y.used
  unit : T.unit ∣ y.used
  below : ∀ b ∈ y.extents, b.start + T.footprint b.size ≤ base + y.used
  agrees : ∀ a, Known T y a → y.mem a = z.mem a

theorem Known.reserved (hT : T.Lawful base) (hk : Known T y a) : Reserved T base y a := by
  refine (known_iff.mp hk).imp_right fun ⟨b, hb, h₁, h₂⟩ => .inl ⟨b, hb, h₁, ?_⟩
  exact h₂.trans_le (Nat.add_le_add_left (hT.room _) _)

theorem reserved_of_take (hfit : Fitted T y n) (h : Reserved T base (y.take T base n μ) a) :
    Reserved T base y a := by
  have hfit : y.used + T.footprint n ≤ T.capacity := hfit
  rcases h with hl | ⟨b, hb, h₁, h₂⟩ | ⟨h₁, h₂⟩
  · exact .inl hl
  · rcases List.mem_cons.mp hb with rfl | hb
    · exact .inr (.inr ⟨h₁, h₂.trans_le (by simp only; omega)⟩)
    · exact .inr (.inl ⟨b, hb, h₁, h₂⟩)
  · have h₁ : base + (y.used + T.footprint n) ≤ a := h₁
    exact .inr (.inr ⟨by omega, h₂⟩)

theorem reserved_of_drop (h : Reserved T base (y.drop p) a) : Reserved T base y a :=
  h.imp_right fun h => h.imp_left fun ⟨b, hb, hcov⟩ => ⟨b, (List.mem_filter.mp hb).1, hcov⟩

-- ---------------------------------------------------------------------------
-- What does not depend on the contents
-- ---------------------------------------------------------------------------

theorem Covers.same (hc : Covers T base y z) : y = { z with mem := y.mem } := by
  cases y
  cases z
  obtain ⟨rfl, rfl, -, -, -⟩ := hc
  rfl

theorem range_mem : Range T { y with mem := μ } a n ↔ Range T y a n := by
  constructor
  · rintro (h | h)
    · exact .loc h
    · exact .held h
  · rintro (h | h)
    · exact .loc h
    · exact .held h

theorem accessible_mem (h : Accessible T y a n) : Accessible T { y with mem := μ } a n := by
  cases h with
  | loc hl => exact .loc hl
  | held hpos hh hpage => exact .held hpos hh hpage

theorem Covers.range (hc : Covers T base y z) : Range T y a n ↔ Range T z a n := by
  rw [hc.same]
  exact range_mem

theorem Covers.bytes (hc : Covers T base y z) (hr : Range T z a n) :
    ∀ j < n, y.mem (a + j) = z.mem (a + j) := fun j hj =>
  hc.agrees _ ((hc.range.mpr hr).known j hj)

theorem Covers.text (hc : Covers T base y z) (ht : Text T z s n) : Text T y s n where
  range := hc.range.mpr ht.range
  chars j hj := by
    rw [hc.bytes ht.range j (Nat.lt_succ_of_lt hj)]
    exact ht.chars j hj
  nul := by
    rw [hc.bytes ht.range n (Nat.lt_succ_self n)]
    exact ht.nul

theorem Covers.allowed (hc : Covers T base y z) (ha : z.Allowed T o) : y.Allowed T o := by
  have hheld : ∀ {a n}, z.Holds a n → y.Holds a n := fun h => by rwa [Holds, ← hc.extents]
  have hfit : ∀ {n}, Fitted T z n → Fitted T y n := fun h => by rwa [Fitted, ← hc.used]
  cases o with
  | load g a n =>
    cases g with
    | true =>
      rw [hc.same]
      exact accessible_mem ha
    | false => exact ha
  | store g a bs =>
    cases g with
    | true =>
      rw [hc.same]
      exact accessible_mem ha
    | false => exact ha
  | malloc size => exact hfit ha
  | calloc elem elemSize => exact ⟨hfit ha.1, ha.2⟩
  | realloc ptr size =>
    obtain ⟨b, hb, hstart, hsize⟩ := ha
    exact ⟨b, hc.extents ▸ hb, hstart, hsize.imp_right fun h => ⟨h.1, h.2.1, hfit h.2.2⟩⟩
  | free ptr => exact ha.imp_right fun ⟨b, hb, he⟩ => ⟨b, hc.extents ▸ hb, he⟩
  | memcpy dst src size => exact ⟨hc.range.mpr ha.1, hc.range.mpr ha.2.1, ha.2.2⟩
  | memset dst v size => exact ⟨hc.range.mpr ha.1, ha.2⟩
  | memcmp a b size => exact ⟨hc.range.mpr ha.1, hc.range.mpr ha.2.1, ha.2.2⟩
  | strlen s =>
    obtain ⟨n, hn, ht⟩ := ha
    exact ⟨n, hn, hc.text ht⟩
  | strcpy dst src =>
    obtain ⟨n, hn, ht, hdst, hsep⟩ := ha
    exact ⟨n, hn, hc.text ht, hc.range.mpr hdst, hsep⟩
  | strncpy dst src size =>
    obtain ⟨hdst, hsrc, hlen, hsep, hpad⟩ := ha
    refine ⟨hc.range.mpr hdst, hc.range.mpr hsrc, hlen, hsep, fun j hj i hij hi => ?_⟩
    rw [hc.bytes hsrc i (hij.trans hj)] at hi
    rw [hc.bytes hsrc j hj]
    exact hpad j hj i hij hi
  | strcmp d s =>
    obtain ⟨⟨n, hn, hd⟩, l, hl, hs⟩ := ha
    exact ⟨⟨n, hn, hc.text hd⟩, l, hl, hc.text hs⟩
  | strdup s =>
    obtain ⟨n, hn, ht, hh, hf⟩ := ha
    exact ⟨n, hn, hc.text ht, hheld hh, hfit hf⟩
  | memchr s c size =>
    refine ha.imp_right ?_
    rintro ⟨hr, hbyte, j, hj, he⟩
    exact ⟨hc.range.mpr hr, hbyte, j, hj, (hc.bytes hr j hj).trans he⟩

-- ---------------------------------------------------------------------------
-- What requests leave
-- ---------------------------------------------------------------------------

theorem Covers.blit (hc : Covers T base y z) (hf : ∀ j < n, f j = g j) :
    Covers T base { y with mem := blit y.mem a n f } { z with mem := blit z.mem a n g } where
  extents := hc.extents
  used := hc.used
  unit := hc.unit
  below := hc.below
  agrees b hb := by
    show Lib.blit y.mem a n f b = Lib.blit z.mem a n g b
    rw [Lib.blit_congr hf]
    simp only [Lib.blit, hc.agrees b (known_mem.mp hb)]

theorem Covers.move (hc : Covers T base y z) (hr : Range T z s n) :
    Covers T base { y with mem := move y.mem a s n } { z with mem := move z.mem a s n } :=
  hc.blit (hc.bytes hr)

theorem Covers.drop (hc : Covers T base y z) : Covers T base (y.drop p) (z.drop p) where
  extents := by
    show z.extents.filter _ = y.extents.filter _
    rw [hc.extents]
  used := hc.used
  unit := hc.unit
  below b hb := hc.below b (List.mem_filter.mp hb).1
  agrees a ha := hc.agrees a (known_of_drop ha)

theorem Covers.known_lt (hT : T.Lawful base) (hc : Covers T base y z) (hk : Known T y a) :
    a < base + y.used := by
  rcases known_iff.mp hk with hl | ⟨b, hb, -, hlt⟩
  · exact (hT.clear a hl).trans_le (Nat.le_add_right ..)
  · have hbelow := hc.below b hb
    have hroom := hT.room b.size
    omega

theorem Covers.fresh (hT : T.Lawful base) (hc : Covers T base y z) :
    Fresh T z (base + y.used) n where
  aligned := Nat.dvd_add hT.aligned hc.unit
  apart b hb := .inr (hc.below b (hc.extents ▸ hb))
  clear j _ hl := by
    have hlt := hT.clear _ hl
    omega

theorem handOut_congr (hf : ∀ j < n, f j = g j) : y.handOut T p n f = y.handOut T p n g := by
  rw [handOut, handOut, Lib.blit_congr hf]

theorem Covers.take (hT : T.Lawful base) (hc : Covers T base y z)
    (hμ : ∀ a < base + y.used, μ a = y.mem a) :
    Covers T base (y.take T base n μ) (z.handOut T (base + y.used) n fun j => μ (base + y.used + j))
    where
  extents := congrArg (_ :: ·) hc.extents
  used := congrArg (· + T.footprint n) hc.used
  unit := Nat.dvd_add hc.unit (hT.unit n)
  below b hb := by
    show b.start + T.footprint b.size ≤ base + (y.used + T.footprint n)
    rcases List.mem_cons.mp hb with rfl | hb
    · exact Nat.le_of_eq (Nat.add_assoc ..)
    · have hbelow := hc.below b hb
      omega
  agrees a ha := by
    show μ a = Lib.blit z.mem (base + y.used) n (fun j => μ (base + y.used + j)) a
    have hknown : Known T (y.handOut T (base + y.used) n fun _ => 0) a :=
      known_iff.mpr (show _ ∨ ∃ b ∈ ⟨base + y.used, n⟩ :: y.extents, _ from known_iff.mp ha)
    rcases known_handOut.mp hknown with ⟨h₁, h₂⟩ | hk
    · rw [blit_in h₁ h₂, Nat.add_sub_cancel' h₁]
    · have hlt := hc.known_lt hT hk
      rw [blit_out (.inl hlt), hμ a hlt, hc.agrees a hk]

theorem Covers.settles (hT : T.Lawful base) (hc : Covers T base y z) (ha : z.Allowed T o) :
    ∃ a y' z', y.settle T base o = some (a, y') ∧ Call T z o a z' ∧ Covers T base y' z' := by
  have hmoved : ∀ s n, ∀ a < base + y.used, Lib.move y.mem (base + y.used) s n a = y.mem a :=
    fun _ _ _ ha => move_out (.inl ha)
  cases o with
  | load g a n =>
    have hr : Range T z a n := by
      cases g with
      | true => exact ha.range
      | false => exact .loc ha.loc
    refine ⟨_, _, _, rfl, ?_, hc⟩
    rw [Lib.readBytes_congr (hc.bytes hr)]
    exact .load
  | store g a bs => exact ⟨_, _, _, rfl, .store, hc.blit fun _ _ => rfl⟩
  | malloc size => exact ⟨_, _, _, rfl, .malloc (hc.fresh hT), hc.take hT fun _ _ => rfl⟩
  | calloc elem elemSize =>
    refine ⟨_, _, _, rfl, .calloc (hc.fresh hT), ?_⟩
    have hzero : ∀ j < elem * elemSize, fill y.mem (base + y.used) (T.footprint (elem * elemSize)) 0
        (base + y.used + j) = 0 := fun j hj => Lib.blit_at (hj.trans_le (hT.room _))
    rw [← handOut_congr hzero]
    exact hc.take hT fun a ha => blit_out (.inl ha)
  | realloc ptr size =>
    obtain ⟨b, hb, rfl, -⟩ := ha
    rcases Nat.eq_zero_or_pos size with rfl | hpos
    · exact ⟨_, _, _, rfl, .reallocZero, hc.drop⟩
    · obtain ⟨e, he⟩ : ∃ e, y.extents.find? (fun e => e.start = b.start) = some e :=
        Option.isSome_iff_exists.mp (List.find?_isSome.mpr ⟨b, hc.extents ▸ hb, by simp⟩)
      have hstart : e.start = b.start := by simpa using List.find?_some he
      have hmem : e ∈ z.extents := hc.extents ▸ List.mem_of_find?_eq_some he
      refine ⟨_, _, _, ?_, .realloc hmem hstart hpos (hc.fresh hT) fun j hj _ => ?_,
        (hc.take hT (hmoved b.start (T.footprint e.size))).drop⟩
      · rw [settle, if_neg (Nat.ne_of_gt hpos), he]
        rfl
      · have hcopy : Lib.move y.mem (base + y.used) b.start (T.footprint e.size)
            (base + y.used + j) = y.mem (b.start + j) := Lib.blit_at (hj.trans_le (hT.room _))
        rw [hcopy]
        exact hc.bytes (.held ⟨e, hmem, Nat.le_of_eq hstart, by rw [hstart]⟩) j hj
  | free ptr => exact ⟨_, _, _, rfl, .free, hc.drop⟩
  | memcpy dst src size => exact ⟨_, _, _, rfl, .memcpy, hc.move ha.2.1⟩
  | memset dst v size => exact ⟨_, _, _, rfl, .memset, hc.blit fun _ _ => rfl⟩
  | memcmp a b size =>
    refine ⟨_, _, _, rfl, ?_, hc⟩
    rw [Lib.order_congr (hc.bytes ha.1) (hc.bytes ha.2.1)]
    exact .memcmp
  | strlen s =>
    obtain ⟨n, hn, ht⟩ := ha
    refine ⟨_, _, _, ?_, .strlen ht, hc⟩
    rw [settle, (hc.text ht).length hn]
    rfl
  | strcpy dst src =>
    obtain ⟨n, hn, ht, -⟩ := ha
    refine ⟨_, _, _, ?_, .strcpy ht, hc.move ht.range⟩
    rw [settle, (hc.text ht).length (by omega)]
    rfl
  | strncpy dst src size => exact ⟨_, _, _, rfl, .strncpy, hc.move ha.2.1⟩
  | strcmp d s =>
    obtain ⟨⟨n, hn, hd⟩, l, hl, hs⟩ := ha
    refine ⟨_, _, _, ?_, .strcmp hd hs, hc⟩
    rw [settle, (hc.text hd).length (by omega), (hc.text hs).length (by omega)]
    have horder := Lib.order_congr (n := min n l + 1)
      (fun j hj => hc.bytes hd.range j (by omega)) fun j hj => hc.bytes hs.range j (by omega)
    simp only [Option.bind_some, Option.map_some, horder]
  | strdup s =>
    obtain ⟨n, hn, ht, -⟩ := ha
    refine ⟨_, y.take T base (n + 1) (Lib.move y.mem (base + y.used) s (n + 1)), _, ?_,
      .strdup ht (hc.fresh hT), ?_⟩
    · rw [settle, (hc.text ht).length (by omega)]
      rfl
    · have hcopy : ∀ j < n + 1, Lib.move y.mem (base + y.used) s (n + 1) (base + y.used + j) =
          z.mem (s + j) := fun j hj => (Lib.blit_at hj).trans (hc.bytes ht.range j hj)
      rw [← handOut_congr hcopy]
      exact hc.take hT (hmoved s (n + 1))
  | memchr s c size =>
    have hr : Range T z s size := by
      rcases ha with hl | hr
      · exact .loc hl.loc
      · exact hr.1
    have hfirst : first (fun j => y.mem (s + j) == lowByte c) size =
        first (fun j => z.mem (s + j) == lowByte c) size :=
      Lib.first_congr fun j hj => by rw [hc.bytes hr j hj]
    refine ⟨_, _, _, rfl, ?_, hc⟩
    rw [hfirst]
    exact .memchr

end Flat

theorem settled_functional : (settled T base).Functional := by
  intro y o a y' a' y'' h h'
  exact Prod.mk.inj (Option.some.inj (h.symm.trans h'))

theorem settled_implements (hT : T.Lawful base) :
    Implements (settled T base) (flat T) (Flat.Allowed T) (Flat.Covers T base) where
  between hc hb := hb ▸ hc
  call := by
    intro y z o a y' hc ha hcall
    obtain ⟨a₁, y₁, z', hsettle, hflat, hc'⟩ := hc.settles hT ha
    obtain ⟨rfl, rfl⟩ := settled_functional _ _ _ _ _ _ hsettle hcall
    exact ⟨z', hflat, hc'⟩
  answers hc ha := by
    obtain ⟨a, y', -, hsettle, -⟩ := hc.settles hT ha
    exact ⟨a, y', hsettle⟩

end TrackFM
