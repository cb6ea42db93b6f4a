import TrackFM.Refinement
import TrackFM.Parked
import TrackFM.Cache

/-!
# carm_memcpy, chunk by chunk

The three loops of `carm_memcpy` copy ascending chunks, each cut at the object
boundary that comes first. In the flat address space that is `moves`, so the
call is `memmove` unless a later chunk reads what an earlier one wrote.
-/

namespace TrackFM

open Lib (Mem pieces moves move chunks chunks_zero chunks_last chunks_next chunks_sum reach reach_pos)

open Heap (ptrDeref)

def copyIn (m : Manager) (src : Nat) (p : CarmPtr) (h : Heap) (b n : Nat) : Heap :=
  let (h, d) := ptrDeref m h p
  h.memmove d (src + b) n

def copyOut (m : Manager) (dst : Nat) (p : CarmPtr) (h : Heap) (b n : Nat) : Heap :=
  let (h, s) := ptrDeref m h p
  h.memmove (dst + b) s n

namespace Heap

variable {m : Manager} {h h' : Heap}

/-- A range the program may pass: in slots in use, or local memory outside the
object cache. -/
inductive Buffer (m : Manager) (h : Heap) (n : Nat) : Nat → Prop
  | remote {x : Nat} : (∀ j < n, h.Current ((x + j) / objSize)) → Buffer m h n (startAddr + x)
  | app {a : Nat} : (∀ j < n, a + j < m.lo ∨ m.hi ≤ a + j) → a + n ≤ startAddr → Buffer m h n a

theorem Buffer.usable (hb : Buffer m h n a) : ∀ j < n, Usable m h (a + j) := by
  intro j hj
  cases hb with
  | remote hcur =>
    rw [Nat.add_assoc]
    exact .remote (hcur j hj)
  | app hout hlt => exact .app (by omega) (hout j hj)

-- ---------------------------------------------------------------------------
-- One chunk
-- ---------------------------------------------------------------------------

/-- Bytes stored at the local address `d` become bytes of the range at `a`. -/
def Dest (m : Manager) (h : Heap) (a n d : Nat) : Prop := ∀ f, Writes m h (h.store d n f) a n f

def Source (m : Manager) (h : Heap) (a n s : Nat) : Prop := ∀ j < n, h.mem (s + j) = h.view m (a + j)

theorem Writes.congr (hw : Writes m h h' d n f) (hf : ∀ j < n, f j = g j) : Writes m h h' d n g :=
  { hw with view := fun a hu => by rw [hw.view a hu, Lib.blit_congr hf] }

theorem memmove_writes (hc : Coherent m h) (hk : Keeps m h h') (hd : Dest m h' a n d)
    (hs : Source m h' b n s) (hu : ∀ j < n, Usable m h (b + j)) :
    Writes m h (h'.memmove d s n) a n fun j => h.view m (b + j) :=
  hk.trans_writes hc ((hd _).congr fun j hj => (hs j hj).trans (hk.view hc (hu j hj)))

theorem Writable.dest (hc : Coherent m h) (hi : h.Current (x / objSize))
    (hw : h.Writable (x / objSize) base) (hn : x % objSize + n ≤ objSize) :
    Dest m h (startAddr + x) n (base + x % objSize) := fun _ => store_slot hc hi hw hn

theorem Located.source (hc : Coherent m h) (hi : h.Current (x / objSize))
    (hl : h.Located (x / objSize) base) (hn : x % objSize + n ≤ objSize) :
    Source m h (startAddr + x) n (base + x % objSize) := by
  intro j hj
  have hx := slot_add_off x
  have hxj := slot_add_off (x + j)
  have hs := objSize_eq
  have hslot : (x + j) / objSize = x / objSize := by omega
  have hoff : (x + j) % objSize = x % objSize + j := by omega
  have hlt : x + j < 2 ^ 60 := (hslot.symm ▸ hi : h.Current ((x + j) / objSize)).lt_start hc
  rw [Nat.add_assoc, Nat.add_assoc, view_start hlt, hslot, hoff, hl.byteAt]

theorem app_dest (hc : Coherent m h) (hout : ∀ j < n, a + j < m.lo ∨ m.hi ≤ a + j)
    (hlt : a + n ≤ startAddr) : Dest m h a n a := fun _ => store_app hc hout hlt

theorem app_source (hlt : a + n ≤ startAddr) : Source m h a n a := fun j hj =>
  (view_untagged (show a + j < 2 ^ 60 from (Nat.add_lt_add_left hj a).trans_le hlt)).symm

theorem ptrDeref_dest (hc : Coherent m h) (hi : h.Current ((x + b) / objSize))
    (hn : (x + b) % objSize + n ≤ objSize)
    (he : ptrDeref m h ⟨addr, (x + b) % objSize, (x + b) / objSize, true, true⟩ = (h', d)) :
    Keeps m h h' ∧ Dest m h' (startAddr + x + b) n d ∧
      ∃ base, d = base + (x + b) % objSize ∧ h'.Writable ((x + b) / objSize) base := by
  obtain ⟨base, hbase, hd⟩ := ptrDeref_spec
    (p := ⟨addr, (x + b) % objSize, (x + b) / objSize, true, true⟩) hc hi
  rw [he] at hbase hd
  cases hbase
  rw [Nat.add_assoc]
  exact ⟨hd.keeps, (hd.writable rfl).dest hd.keeps.coherent (hd.keeps.current _ hi) hn,
    base, rfl, hd.writable rfl⟩

theorem ptrDeref_source (hc : Coherent m h) (hi : h.Current ((x + b) / objSize))
    (hn : (x + b) % objSize + n ≤ objSize)
    (he : ptrDeref m h ⟨addr, (x + b) % objSize, (x + b) / objSize, false, true⟩ = (h', s)) :
    Keeps m h h' ∧ Steady h h' ∧ Source m h' (startAddr + x + b) n s := by
  obtain ⟨base, hbase, hd⟩ := ptrDeref_spec
    (p := ⟨addr, (x + b) % objSize, (x + b) / objSize, false, true⟩) hc hi
  rw [he] at hbase hd
  cases hbase
  rw [Nat.add_assoc]
  exact ⟨hd.keeps, hd.steady, hd.located.source hd.keeps.coherent (hd.keeps.current _ hi) hn⟩

-- ---------------------------------------------------------------------------
-- The chunks of a loop
-- ---------------------------------------------------------------------------

structure Copies (m : Manager) (h h' : Heap) (d s : Nat) (ns : List Nat) : Prop where
  alloc : SameAlloc h h'
  coherent : Coherent m h'
  current : ∀ i, h.Current i → h'.Current i
  view : ∀ a, Usable m h a → h'.view m a = moves (h.view m) d s ns a

theorem Copies.nil (hc : Coherent m h) : Copies m h h d s [] :=
  ⟨.refl, hc, fun _ => id, fun _ _ => rfl⟩

theorem Copies.cons (hw : Writes m h h' (d + b) n fun j => h.view m (s + b + j))
    (hcs : Copies m h' h'' (d + (b + n)) (s + (b + n)) ns) (hsum : ns.sum = size - (b + n))
    (hu : ∀ j < size, Usable m h (s + j)) : Copies m h h'' (d + b) (s + b) (n :: ns) where
  alloc := hw.alloc.trans hcs.alloc
  coherent := hcs.coherent
  current i hi := hcs.current i (hw.current i hi)
  view a ha := by
    rw [hcs.view a (ha.mono hw.current), moves, ← Nat.add_assoc, ← Nat.add_assoc]
    refine Lib.moves_congr (fun j hj => ?_) hw.view a ha
    rw [Nat.add_assoc, Nat.add_assoc]
    exact hu _ (by omega)

theorem Copies.single (hw : Writes m h h' d n fun j => h.view m (s + j)) :
    Copies m h h' d s [n] := ⟨hw.alloc, hw.coherent, hw.current, hw.view⟩

theorem Copies.writes (hcs : Copies m h h' d s ns)
    (hmove : ∀ μ : Mem UInt8, moves μ d s ns = move μ d s n) :
    Writes m h h' d n fun j => h.view m (s + j) where
  alloc := hcs.alloc
  coherent := hcs.coherent
  current := hcs.current
  view a ha := by
    rw [hcs.view a ha, hmove]
    rfl

theorem Copies.writes_ordered (hcs : Copies m h h' d s ns) (hsum : ns.sum = n)
    (hord : d ≤ s ∨ s + n ≤ d) : Writes m h h' d n fun j => h.view m (s + j) :=
  hcs.writes fun _ => hsum ▸ Lib.moves_eq_move (hsum.symm ▸ hord)

theorem chunk_next : (x + (objSize - x % objSize)) % objSize = 0 ∧
    (x + (objSize - x % objSize)) / objSize = x / objSize + 1 := by
  have hx := slot_add_off x
  have hx' := slot_add_off (x + (objSize - x % objSize))
  have hs := objSize_eq
  omega

/-- A loop over one remote range, chunk by chunk: `use` handles the `n` bytes from
byte `b` on. -/
def Turns (size : Nat) (use : CarmPtr → Heap → Nat → Nat → Heap)
    (loop : Nat → Heap → CarmPtr → Nat → Outcome Heap) : Prop :=
  ∀ fuel h p b, loop (fuel + 1) h p b =
    if b < size then
      if u32 (b + (objSize - p.offset)) < size then
        loop fuel (use p h b (objSize - p.offset))
          { p with objIndex := p.objIndex + 1, offset := 0 } (u32 (b + (objSize - p.offset)))
      else .ok (use p h b (size - b))
    else .ok h

theorem carmMemcpyDstLoop_turns : Turns size (copyIn m src) (carmMemcpyDstLoop m src size) :=
  fun _ _ _ _ => rfl

theorem carmMemcpySrcLoop_turns : Turns size (copyOut m dst) (carmMemcpySrcLoop m dst size) :=
  fun _ _ _ _ => rfl

theorem Turns.copies {use : CarmPtr → Heap → Nat → Nat → Heap}
    {loop : Nat → Heap → CarmPtr → Nat → Outcome Heap} (ht : Turns size use loop) (addr : Nat)
    (w : Bool) (hc : Coherent m h) (hsize : size < 2 ^ 31)
    (hcur : ∀ j < size, h.Current ((x + j) / objSize))
    (husable : ∀ h', (∀ i, h.Current i → h'.Current i) → ∀ j < size, Usable m h' (src + j))
    (hchunk : ∀ h', Coherent m h' → (∀ i, h.Current i → h'.Current i) → ∀ b n, b < size →
      b + n ≤ size → (x + b) % objSize + n ≤ objSize →
      Writes m h' (use ⟨addr, (x + b) % objSize, (x + b) / objSize, w, true⟩ h' b n) (dst + b) n
        fun j => h'.view m (src + b + j))
    (hb : b ≤ size) (hfuel : size - b < fuel) :
    ∃ h' ns, loop fuel h ⟨addr, (x + b) % objSize, (x + b) / objSize, w, true⟩ b = .ok h' ∧
      Copies m h h' (dst + b) (src + b) ns ∧ ns.sum = size - b := by
  have hs := objSize_eq
  induction fuel generalizing h b with
  | zero => omega
  | succ fuel ih =>
    rw [ht]
    by_cases hbs : b < size
    case neg =>
      refine ⟨h, [], if_neg hbs, .nil hc, ?_⟩
      rw [List.sum_nil]
      omega
    have hoff := (slot_add_off (x + b)).2
    have hu32 : u32 (b + (objSize - (x + b) % objSize)) = b + (objSize - (x + b) % objSize) :=
      Nat.mod_eq_of_lt (by omega)
    simp only [if_pos hbs, hu32]
    by_cases hmore : b + (objSize - (x + b) % objSize) < size
    · rw [if_pos hmore]
      have hw := hchunk h hc (fun _ => id) b (objSize - (x + b) % objSize) hbs
        (Nat.le_of_lt hmore) (by omega)
      obtain ⟨hmod, hdiv⟩ := chunk_next (x := x + b)
      rw [Nat.add_assoc x b] at hmod hdiv
      rw [← hmod, ← hdiv]
      obtain ⟨h', ns, hr, hcs, hsum⟩ := ih hw.coherent (fun j hj => hw.current _ (hcur j hj))
        (fun h' hcur' => husable h' fun i hi => hcur' i (hw.current i hi))
        (fun h' hc' hcur' => hchunk h' hc' fun i hi => hcur' i (hw.current i hi))
        (Nat.le_of_lt hmore) (by omega)
      exact ⟨h', _ :: ns, hr, .cons hw hcs hsum (husable h fun _ => id),
        by rw [List.sum_cons, hsum]; omega⟩
    · rw [if_neg hmore]
      exact ⟨_, _, rfl, .single (hchunk h hc (fun _ => id) b _ hbs (by omega) (by omega)),
        List.sum_singleton⟩

theorem carmMemcpyDstLoop_copies (addr : Nat) (hc : Coherent m h) (hsize : size < 2 ^ 31)
    (hdst : ∀ j < size, h.Current ((x + j) / objSize))
    (hout : ∀ j < size, src + j < m.lo ∨ m.hi ≤ src + j) (hlt : src + size ≤ startAddr)
    (hb : b ≤ size) (hfuel : size - b < fuel) :
    ∃ h' ns, carmMemcpyDstLoop m src size fuel h
        ⟨addr, (x + b) % objSize, (x + b) / objSize, true, true⟩ b = .ok h' ∧
      Copies m h h' (startAddr + x + b) (src + b) ns ∧ ns.sum = size - b := by
  have hu : ∀ h', ∀ j < size, Usable m h' (src + j) := fun h' j hj => .app (by omega) (hout j hj)
  refine carmMemcpyDstLoop_turns.copies addr true hc hsize hdst (fun h' _ => hu h') ?_ hb hfuel
  intro h' hc' hcur b n hbs hn hend
  rcases he : ptrDeref m h' ⟨addr, (x + b) % objSize, (x + b) / objSize, true, true⟩ with ⟨h₁, d⟩
  obtain ⟨hk, hd, -⟩ := ptrDeref_dest hc' (hcur _ (hdst b hbs)) hend he
  simp only [copyIn, he]
  refine memmove_writes hc' hk hd (app_source (by omega)) fun j hj => ?_
  rw [Nat.add_assoc]
  exact hu h' _ (by omega)

theorem carmMemcpySrcLoop_copies (addr : Nat) (hc : Coherent m h) (hsize : size < 2 ^ 31)
    (hsrc : ∀ j < size, h.Current ((y + j) / objSize))
    (hout : ∀ j < size, dst + j < m.lo ∨ m.hi ≤ dst + j) (hlt : dst + size ≤ startAddr)
    (hb : b ≤ size) (hfuel : size - b < fuel) :
    ∃ h' ns, carmMemcpySrcLoop m dst size fuel h
        ⟨addr, (y + b) % objSize, (y + b) / objSize, false, true⟩ b = .ok h' ∧
      Copies m h h' (dst + b) (startAddr + y + b) ns ∧ ns.sum = size - b := by
  have hu : ∀ h', (∀ i, h.Current i → h'.Current i) → ∀ j < size,
      Usable m h' (startAddr + y + j) := fun h' hcur =>
    (Buffer.remote fun j hj => hcur _ (hsrc j hj)).usable
  refine carmMemcpySrcLoop_turns.copies addr false hc hsize hsrc hu ?_ hb hfuel
  intro h' hc' hcur b n hbs hn hend
  rcases he : ptrDeref m h' ⟨addr, (y + b) % objSize, (y + b) / objSize, false, true⟩ with ⟨h₁, s⟩
  obtain ⟨hk, -, hsource⟩ := ptrDeref_source hc' (hcur _ (hsrc b hbs)) hend he
  simp only [copyOut, he]
  refine memmove_writes hc' hk (app_dest hk.coherent (fun j hj => ?_) (by omega)) hsource
    fun j hj => ?_
  · rw [Nat.add_assoc]
    exact hout _ (by omega)
  · rw [Nat.add_assoc]
    exact hu h' hcur _ (by omega)

theorem getCarmPtr_at (hx : x + b < 2 ^ 60) : getCarmPtr (startAddr + x + b) w =
    ⟨x + b, (x + b) % objSize, (x + b) / objSize, w, true⟩ := by
  rw [Nat.add_assoc, getCarmPtr_start hx]

theorem carmMemcpyLoop_copies (hc : Coherent m h)
    (hwrap : ∀ b < size, b + reach objSize (x + b) (y + b) < 2 ^ 32)
    (hdst : ∀ j < size, h.Current ((x + j) / objSize))
    (hsrc : ∀ j < size, h.Current ((y + j) / objSize)) (hb : b < size) (hfuel : size - b < fuel) :
    ∃ h', carmMemcpyLoop m (startAddr + x) (startAddr + y) size fuel h
        (getCarmPtr (startAddr + x + b) true) (getCarmPtr (startAddr + y + b) false) b = .ok h' ∧
      Copies m h h' (startAddr + x + b) (startAddr + y + b)
        (chunks objSize (x + b) (y + b) (size - b)) := by
  have hs := objSize_eq
  induction fuel generalizing h b with
  | zero => omega
  | succ fuel ih =>
    have hu : ∀ j < size, Usable m h (startAddr + y + j) := (Buffer.remote hsrc).usable
    rw [getCarmPtr_at ((hdst b hb).lt_start hc), getCarmPtr_at ((hsrc b hb).lt_start hc)]
    rcases he : ptrDeref m h ⟨x + b, (x + b) % objSize, (x + b) / objSize, true, true⟩ with ⟨h₁, d⟩
    rcases he' : ptrDeref m h₁ ⟨y + b, (y + b) % objSize, (y + b) / objSize, false, true⟩ with ⟨h₂, s⟩
    have hpos : 0 < reach objSize (x + b) (y + b) := reach_pos (by decide)
    have hx : reach objSize (x + b) (y + b) ≤ objSize - (x + b) % objSize := Nat.min_le_left ..
    have hy : reach objSize (x + b) (y + b) ≤ objSize - (y + b) % objSize := Nat.min_le_right ..
    have hu32 : u32 (b + reach objSize (x + b) (y + b)) = b + reach objSize (x + b) (y + b) :=
      Nat.mod_eq_of_lt (hwrap b hb)
    have hoff := (slot_add_off (x + b)).2
    have hoff' := (slot_add_off (y + b)).2
    have hchunk : ∀ n, b + n ≤ size → n ≤ reach objSize (x + b) (y + b) →
        Writes m h (h₂.memmove d s n) (startAddr + x + b) n fun j =>
          h.view m (startAddr + y + b + j) := by
      intro n hn hend
      obtain ⟨hk, -, base, rfl, hw⟩ := ptrDeref_dest (n := n) hc (hdst b hb) (by omega) he
      obtain ⟨hk', hst, hsource⟩ := ptrDeref_source (n := n) hk.coherent
        (hk.current _ (hsrc b hb)) (by omega) he'
      have hcur := hk.current _ (hdst b hb)
      refine memmove_writes hc (hk.trans hk') ?_ hsource fun j hj => ?_
      · rw [Nat.add_assoc]
        exact (hst.writable hcur hw).dest hk'.coherent (hk'.current _ hcur) (by omega)
      · rw [Nat.add_assoc]
        exact hu _ (by omega)
    have hmin : min (objSize - (x + b) % objSize) (objSize - (y + b) % objSize) =
        reach objSize (x + b) (y + b) := rfl
    simp only [carmMemcpyLoop, if_pos hb, he, he', hmin, if_neg (Nat.ne_of_gt hpos), hu32]
    by_cases hmore : b + reach objSize (x + b) (y + b) < size
    · rw [if_pos hmore, chunks_next (by decide) (by omega)]
      have hw := hchunk _ (Nat.le_of_lt hmore) (Nat.le_refl _)
      obtain ⟨h', hr, hcs⟩ := ih hw.coherent (fun j hj => hw.current _ (hdst j hj))
        (fun j hj => hw.current _ (hsrc j hj)) hmore (by omega)
      refine ⟨h', hr, .cons hw ?_ ?_ hu⟩
      · rw [Nat.add_assoc x, Nat.add_assoc y, Nat.sub_sub]
        exact hcs
      · rw [chunks_sum (by decide), Nat.sub_sub]
    · rw [if_neg hmore, chunks_last (by omega) (by omega)]
      exact ⟨_, rfl, .single (hchunk _ (by omega) (by omega))⟩

-- ---------------------------------------------------------------------------
-- The call
-- ---------------------------------------------------------------------------

/-- The call copies as `memmove(dst, src, size)` does and returns `dst`. -/
def Memmoves (m : Manager) (h : Heap) (dst src size : Nat) : Prop :=
  ∃ h', carmMemcpy m h dst src size = .ok (h', dst) ∧
    Writes m h h' dst size fun j => h.view m (src + j)

/-- No chunk is read after an earlier one was written into it: a range is local,
the destination does not start inside the source, or one chunk is all. -/
def InOrder (dst src size : Nat) : Prop :=
  dst < startAddr ∨ src < startAddr ∨ dst ≤ src ∨ src + size ≤ dst ∨
    (dst % objSize + size ≤ objSize ∧ src % objSize + size ≤ objSize)

theorem carmMemcpy_nothing (hc : Coherent m h) : Memmoves m h dst src 0 := by
  refine ⟨h, ?_, (Keeps.refl hc).writes hc⟩
  have hnone : h.memmove dst src 0 = h := by simp [memmove, store]
  cases hd : (getCarmPtr dst true).isCarmptr <;> cases hs : (getCarmPtr src false).isCarmptr <;>
    simp [carmMemcpy, hd, hs, hnone, carmMemcpyDstLoop, carmMemcpySrcLoop, carmMemcpyLoop,
      Except.map]

theorem reach_le : reach objSize x y ≤ objSize :=
  (Nat.min_le_left ..).trans (Nat.sub_le ..)

theorem no_wrap (hsize : size < 2 ^ 31) : ∀ b < size, b + reach objSize (x + b) (y + b) < 2 ^ 32 := by
  intro b hb
  have hs := objSize_eq
  have := reach_le (x := x + b) (y := y + b)
  omega

theorem carmMemcpy_remote (hc : Coherent m h)
    (hwrap : ∀ b < size, b + reach objSize (x + b) (y + b) < 2 ^ 32) (hpos : 0 < size)
    (hdst : ∀ j < size, h.Current ((x + j) / objSize))
    (hsrc : ∀ j < size, h.Current ((y + j) / objSize)) :
    ∃ h', carmMemcpy m h (startAddr + x) (startAddr + y) size = .ok (h', startAddr + x) ∧
      Copies m h h' (startAddr + x) (startAddr + y) (chunks objSize x y size) := by
  obtain ⟨h', hr, hcs⟩ := carmMemcpyLoop_copies (b := 0) hc hwrap hdst hsrc hpos
    (show size - 0 < size + 1 by omega)
  simp only [Nat.add_zero, Nat.sub_zero] at hr hcs
  refine ⟨h', ?_, hcs⟩
  have hx := getCarmPtr_start (w := true) ((hdst 0 hpos).lt_start hc)
  have hy := getCarmPtr_start (w := false) ((hsrc 0 hpos).lt_start hc)
  simp only [Nat.add_zero] at hx hy
  simp only [carmMemcpy, hx, hy, Bool.not_true, Bool.and_self, Bool.and_false,
    Bool.false_eq_true, if_false]
  rw [← hx, ← hy, hr]
  rfl

instance : Nontrivial UInt8 := ⟨0, 1, by decide⟩

theorem getCarmPtr_app (hpos : 0 < n) (hlt : a + n ≤ startAddr) : getCarmPtr a w =
    { isCarmptr := false, addr := 0, objIndex := 0, offset := 0, mutable := false } :=
  getCarmPtr_untagged (show a < startAddr from (Nat.lt_add_of_pos_right hpos).trans_le hlt)

theorem start_mod : (startAddr + x) % objSize = x % objSize := by
  simp only [startAddr, objSize]
  omega

theorem inOrder_remote : InOrder (startAddr + x) (startAddr + y) size ↔
    startAddr + x ≤ startAddr + y ∨ startAddr + y + size ≤ startAddr + x ∨
      size ≤ reach objSize x y := by
  have hx := slot_add_off x
  have hy := slot_add_off y
  have hs := objSize_eq
  rw [InOrder, start_mod, start_mod, reach]
  omega

theorem Buffer.memmoves (hdst : Buffer m h size dst) (hsrc : Buffer m h size src)
    (hc : Coherent m h) (hsize : size < 2 ^ 31) (hord : InOrder dst src size) :
    Memmoves m h dst src size := by
  rcases Nat.eq_zero_or_pos size with rfl | hpos
  · exact carmMemcpy_nothing hc
  cases hdst with
  | @remote x hx =>
    have hxp := getCarmPtr_start (w := true) ((hx 0 hpos).lt_start hc)
    cases hsrc with
    | @remote y hy =>
      obtain ⟨h', hr, hcs⟩ := carmMemcpy_remote hc (no_wrap hsize) hpos hx hy
      refine ⟨h', hr, hcs.writes ?_⟩
      exact (Lib.moves_chunks_iff (by decide) hpos).mpr (inOrder_remote.mp hord)
    | app hout hlt =>
      obtain ⟨h', ns, hr, hcs, hsum⟩ := carmMemcpyDstLoop_copies (b := 0) x hc hsize hx hout hlt
        (Nat.zero_le _) (show size - 0 < size + 1 by omega)
      have hsp := getCarmPtr_app (w := false) hpos hlt
      refine ⟨h', ?_, hcs.writes_ordered hsum (.inr (hlt.trans (Nat.le_add_right ..)))⟩
      simp only [Nat.add_zero] at hr hxp
      simp only [carmMemcpy, hxp, hsp, hr, Bool.not_true, Bool.not_false, Bool.and_true,
        Bool.false_eq_true, if_false, if_true]
      rfl
  | app hdout hdlt =>
    have hdp := getCarmPtr_app (w := true) hpos hdlt
    cases hsrc with
    | @remote y hy =>
      have hyp := getCarmPtr_start (w := false) ((hy 0 hpos).lt_start hc)
      obtain ⟨h', ns, hr, hcs, hsum⟩ := carmMemcpySrcLoop_copies (b := 0) y hc hsize hy hdout hdlt
        (Nat.zero_le _) (show size - 0 < size + 1 by omega)
      have hle : dst ≤ startAddr + y :=
        (Nat.le_add_right ..).trans (hdlt.trans (Nat.le_add_right ..))
      refine ⟨h', ?_, hcs.writes_ordered hsum (.inl hle)⟩
      simp only [Nat.add_zero] at hr hyp
      simp only [carmMemcpy, hdp, hyp, hr, Bool.not_true, Bool.not_false, Bool.and_true,
        Bool.and_false, Bool.false_eq_true, if_false, if_true]
      rfl
    | app hsout hslt =>
      have hsp := getCarmPtr_app (w := false) hpos hslt
      refine ⟨h.memmove dst src size, ?_, ?_⟩
      · simp only [carmMemcpy, hdp, hsp, Bool.not_false, Bool.and_true, if_true]
      · refine memmove_writes hc (.refl hc) (app_dest hc hdout hdlt) (app_source hslt) ?_
        exact (Buffer.app hsout hslt).usable

-- ---------------------------------------------------------------------------
-- Every content of every range
-- ---------------------------------------------------------------------------

theorem Memmoves.moves_eq (hm : Memmoves m h (startAddr + x) (startAddr + y) size)
    (hc : Coherent m h) (hsize : size < 2 ^ 31) (hpos : 0 < size)
    (hdst : ∀ j < size, h.Current ((x + j) / objSize))
    (hsrc : ∀ j < size, h.Current ((y + j) / objSize))
    (hdμ : ∀ j < size, h.view m (startAddr + x + j) = μ (startAddr + x + j))
    (hsμ : ∀ j < size, h.view m (startAddr + y + j) = μ (startAddr + y + j)) :
    moves μ (startAddr + x) (startAddr + y) (chunks objSize x y size) =
      move μ (startAddr + x) (startAddr + y) size := by
  obtain ⟨h', hr, hw⟩ := hm
  obtain ⟨h'', hr', hcs⟩ := carmMemcpy_remote hc (no_wrap hsize) hpos hdst hsrc
  obtain rfl : h' = h'' := congrArg Prod.fst (Except.ok.inj (hr.symm.trans hr'))
  have hsum := chunks_sum (S := objSize) (x := x) (y := y) (n := size) (by decide)
  funext a
  by_cases ha : startAddr + x ≤ a ∧ a < startAddr + x + size
  · obtain ⟨j, rfl⟩ := Nat.exists_eq_add_of_le ha.1
    have hj : j < size := by omega
    have hu := (Buffer.remote hdst : Buffer m h size _).usable j hj
    calc moves μ (startAddr + x) (startAddr + y) (chunks objSize x y size) (startAddr + x + j)
        = moves (h.view m) (startAddr + x) (startAddr + y) (chunks objSize x y size)
            (startAddr + x + j) :=
          Lib.moves_congr (U := fun a => h.view m a = μ a) (fun k hk => hsμ k (hsum ▸ hk))
            (fun _ ha => ha.symm) _ (hdμ j hj)
      _ = h'.view m (startAddr + x + j) := (hcs.view _ hu).symm
      _ = h.view m (startAddr + y + j) := by rw [hw.view _ hu, Lib.blit_at hj]
      _ = μ (startAddr + y + j) := hsμ j hj
      _ = move μ (startAddr + x) (startAddr + y) size (startAddr + x + j) :=
          (Lib.blit_at (f := fun j => μ (startAddr + y + j)) hj).symm
  · rw [Lib.moves_out (by omega), Lib.move_out (by omega)]

theorem inOrder_of_memmoves (hsize : size < 2 ^ 31)
    (hspace : dst + size ≤ startAddr + totalObjects * objSize)
    (h : ∀ m h, Coherent m h → Buffer m h size dst → Buffer m h size src →
      Memmoves m h dst src size) : InOrder dst src size := by
  by_contra hord
  have hraw := hord
  simp only [InOrder, not_or, Nat.not_lt, Nat.not_le] at hraw
  obtain ⟨h₁, h₂, h₃, h₄, -⟩ := hraw
  obtain ⟨x, rfl⟩ := Nat.exists_eq_add_of_le h₁
  obtain ⟨y, rfl⟩ := Nat.exists_eq_add_of_le h₂
  have hpos : 0 < size := by omega
  rw [inOrder_remote, ← Lib.moves_chunks_iff (α := UInt8) (by decide) hpos, not_forall] at hord
  obtain ⟨μ, hμ⟩ := hord
  have hs := objSize_eq
  have hend : totalObjects * objSize = 41943040 * 4096 := rfl
  have htotal : totalObjects = 41943040 := rfl
  have hfar : farObjects = 4194304 := by decide
  have hy := slot_add_off y
  have hlast := slot_add_off (x + size - 1)
  -- both ranges lie in the slots from the first to the last
  have hrange : FarRange y (x + size - 1 - y) := by
    constructor
    · rw [Nat.add_sub_cancel' (by omega)]
      omega
    · rw [Nat.add_sub_cancel' (by omega)]
      omega
  have hpark := hrange.parkable
  have hin : ∀ z, y ≤ z → z < x + size → z / objSize ∈ slotsOf y (x + size - 1 - y) := by
    intro z hyz hzx
    obtain ⟨j, rfl⟩ := Nat.exists_eq_add_of_le hyz
    exact mem_slotsOf (by omega)
  have hc : Coherent cacheManager (parked (slotsOf y (x + size - 1 - y)) μ) :=
    parked_coherent hpark
  have hdst : ∀ j < size, (parked (slotsOf y (x + size - 1 - y)) μ).Current ((x + j) / objSize) :=
    fun j hj => parked_current hpark (hin _ (by omega) (by omega))
  have hsrc : ∀ j < size, (parked (slotsOf y (x + size - 1 - y)) μ).Current ((y + j) / objSize) :=
    fun j hj => parked_current hpark (hin _ (by omega) (by omega))
  refine hμ ((h cacheManager _ hc (.remote hdst) (.remote hsrc)).moves_eq hc hsize hpos hdst hsrc
    (fun j hj => ?_) fun j hj => ?_)
  · rw [Nat.add_assoc]
    exact parked_view hpark (hin _ (by omega) (by omega))
  · rw [Nat.add_assoc]
    exact parked_view hpark (hin _ (by omega) (by omega))

/-- `carm_memcpy` is `memmove` for all contents exactly when no chunk reads what
an earlier one wrote. -/
theorem carmMemcpy_memmove_iff (hsize : size < 2 ^ 31)
    (hspace : dst + size ≤ startAddr + totalObjects * objSize) :
    (∀ m h, Coherent m h → Buffer m h size dst → Buffer m h size src →
      Memmoves m h dst src size) ↔ InOrder dst src size :=
  ⟨inOrder_of_memmoves hsize hspace, fun hord _ _ hc hdst hsrc =>
    hdst.memmoves hsrc hc hsize hord⟩

theorem init_current {ptrs : Nat → Option Nat} {mem : Mem UInt8} (hx : x < kWorkingSetSize) :
    (init ptrs mem).heap.Current (x / objSize) := by
  have hlt : x / objSize < kWorkingSetSize / objSize :=
    Nat.div_lt_div_of_lt_of_dvd (by decide) hx
  refine ⟨hlt, fun o ho => ?_⟩
  cases (if_pos hlt).symm.trans ho

theorem init_buffer {ptrs : Nat → Option Nat} {mem : Mem UInt8} (hx : x + n ≤ kWorkingSetSize) :
    Buffer m (init ptrs mem).heap n (startAddr + x) :=
  .remote fun j hj => init_current (by omega)

theorem carmMemcpy_memmove_down :
    Memmoves cacheManager (init (fun _ => none) fun _ => 0).heap startAddr (startAddr + 1) 8192 :=
  (carmMemcpy_memmove_iff (by decide) (by decide)).mpr (.inr (.inr (.inl (by decide)))) _ _
    init_coherent (init_buffer (x := 0) (by decide)) (init_buffer (by decide))

/-- A copy one byte up across an object boundary repeats the byte at the boundary. -/
theorem carmMemcpy_smears : ¬∀ m s dst src size, Reach m (Proper m) s → size < 2 ^ 31 →
    Buffer m s.heap size dst → Buffer m s.heap size src → Memmoves m s.heap dst src size := by
  intro h
  have hlive : ∀ h w x, x < 8192 →
      State.Live ⟨h, [⟨startAddr, 8192, 8192, false⟩], w⟩ (startAddr + x) := fun _ _ x hx =>
    ⟨_, List.mem_singleton_self _, rfl, Nat.le_add_right .., Nat.add_lt_add_left hx _⟩
  obtain ⟨s, hr, hs, h₁, h₂⟩ : ∃ s, Reach cacheManager (Proper cacheManager) s ∧
      (∀ x < 8192, s.Live (startAddr + x)) ∧ s.heap.view cacheManager (startAddr + 4094) = 0 ∧
      s.heap.view cacheManager (startAddr + 4095) = 7 := by
    refine ⟨_, .next (.next (.init (fun _ => none) fun _ => 0)
      ⟨.malloc 8192, ⟨⟨by rintro n ⟨⟩; decide, nofun, nofun, nofun, nofun⟩,
        .of_step rfl ⟨by decide, by decide⟩⟩, rfl⟩)
      ⟨.write (startAddr + 4095) 1 fun _ => 7, ⟨⟨nofun, nofun, by
          rintro a n ⟨⟩
          exact .byte (hlive _ _ 4095 (by decide)), nofun, nofun⟩,
        .of_step rfl ⟨by decide, by decide⟩⟩, rfl⟩, hlive _ _, rfl, rfl⟩
  have hi := hr.refines.intact
  have hcur : ∀ x < 8192, s.heap.Current (x / objSize) := by
    intro x hx
    obtain ⟨y, -, he, -, hcur⟩ := hi.live (hs x hx)
    rw [Nat.add_left_cancel_iff] at he
    exact he ▸ hcur
  have hdst : ∀ j < 4096, s.heap.Current ((1 + j) / objSize) := fun j hj => hcur _ (by omega)
  have hsrc : ∀ j < 4096, s.heap.Current ((0 + j) / objSize) := fun j hj => hcur _ (by omega)
  have hm := h cacheManager s _ _ 4096 hr (by decide) (.remote hdst) (.remote hsrc)
  have heq := congrFun (hm.moves_eq hi.coherent (by decide) (by decide) hdst hsrc
    (fun _ _ => rfl) fun _ _ => rfl) (startAddr + 1 + 4095)
  have hreach : reach objSize 1 0 = 4095 := by decide
  rw [chunks_next (by decide) (by decide), hreach, chunks_last (by decide) (by decide),
    Lib.move_in (by omega) (by omega)] at heq
  -- the second chunk reads a byte the first one wrote
  rw [moves, moves, moves, Lib.move_in (by omega) (by omega), Lib.move_in (by omega) (by omega),
    show startAddr + 0 + (startAddr + 0 + 4095 + (startAddr + 1 + 4095 - (startAddr + 1 + 4095)) -
      (startAddr + 1)) = startAddr + 4094 by omega, h₁,
    show startAddr + 0 + (startAddr + 1 + 4095 - (startAddr + 1)) = startAddr + 4095 by omega,
    h₂] at heq
  cases heq

end Heap

end TrackFM
