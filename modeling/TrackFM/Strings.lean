import TrackFM.Compare
import TrackFM.Realloc

/-!
# The string functions of the libc layer

`carm_strlen`, `carm_strcpy` and `carm_strdup` of `libc_support.cpp`, with the
conventions of `TrackFM.Libc`. A string has no known length, so its scans get
more fuel than the address space has bytes. `carm_strlen` and `carm_memchr` share
their loop: it looks through whole objects for the first hit.
-/

namespace TrackFM

open Lib (first)
open Heap (Coherent Keeps Steady Writes Buffer ptrDeref carmMemcpy)

variable {m : Manager} {h h' : Heap} {f : Nat → UInt8}

namespace Heap

-- ---------------------------------------------------------------------------
-- libc
-- ---------------------------------------------------------------------------

abbrev scanFuel : Nat := 2 ^ 64

def strlen (h : Heap) (s : Nat) : Outcome Nat :=
  match first (fun j => h.mem (s + j) == 0) scanFuel with
  | some n => .ok n
  | none => .error .diverge

def strcpy (h : Heap) (dst src : Nat) : Outcome (Heap × Nat) := do
  let n ← h.strlen src
  return (h.memmove dst src (n + 1), dst)

-- ---------------------------------------------------------------------------
-- libc_support.cpp
-- ---------------------------------------------------------------------------

def carmStrlenLoop (m : Manager) : Nat → Heap → CarmPtr → Nat → Outcome (Heap × Nat)
  | 0, _, _, _ => .error .diverge
  | fuel + 1, h, carmPtr, len =>
    let (h, dest) := ptrDeref m h carmPtr
    let chunkSize := objSize - carmPtr.offset
    match first (fun j => h.mem (dest + j) == 0) chunkSize with
    | some j => .ok (h, u64 (len + j))
    | none =>
      if chunkSize = 0 then .error .exit
      else carmStrlenLoop m fuel h
        { carmPtr with objIndex := carmPtr.objIndex + 1, offset := 0 } (u64 (len + chunkSize))

def carmStrlen (m : Manager) (h : Heap) (s : Nat) : Outcome (Heap × Nat) :=
  if !checkCarmObject s then (h.strlen s).map (h, ·)
  else carmStrlenLoop m scanFuel h (getCarmPtr s false) 0

/-- `int n = len + 1`, passed on as a `uint64_t`. -/
def intSize (len : Nat) : Nat :=
  let n := u32 (len + 1)
  if n < 2 ^ 31 then n else 2 ^ 64 - 2 ^ 32 + n

/-- The two helpers differ from the last branch in how they find the length. -/
def carmStrcpy (m : Manager) (h : Heap) (d s : Nat) : Outcome (Heap × Nat) := do
  if !checkCarmObject d && !checkCarmObject s then h.strcpy d s
  else if checkCarmObject d && !checkCarmObject s then
    let len ← h.strlen s
    carmMemcpy m h d s (intSize len)
  else
    let (h, len) ← carmStrlen m h s
    carmMemcpy m h d s (intSize len)

/-- An untagged string goes to `strdup`, which no table here describes. -/
def carmStrdup (m : Manager) (strdup : Heap → Nat → Outcome (Heap × Nat)) (h : Heap) (v : Nat) :
    Outcome (Heap × Nat) := do
  if !checkCarmObject v then strdup h v
  else
    let (h, len) ← carmStrlen m h v
    let size := intSize len
    let (h, rptr) := h.carmRemoteMalloc size
    let (h, _) ← carmMemcpy m h rptr v size
    return (h, rptr)

-- ---------------------------------------------------------------------------
-- Scans
-- ---------------------------------------------------------------------------

def scanLoop (m : Manager) (hit : UInt8 → Bool) (more : Nat → Bool) :
    Nat → Heap → CarmPtr → Nat → Outcome (Heap × Option Nat)
  | 0, _, _, _ => .error .diverge
  | fuel + 1, h, p, len =>
    if more len then
      let (h, dest) := ptrDeref m h p
      let chunkSize := objSize - p.offset
      match first (fun j => hit (h.mem (dest + j))) chunkSize with
      | some j => .ok (h, some (u64 (len + j)))
      | none => scanLoop m hit more fuel h { p with objIndex := p.objIndex + 1, offset := 0 }
          (u64 (len + chunkSize))
    else .ok (h, none)

theorem carmStrlenLoop_scan (hp : p.offset < objSize)
    (hr : scanLoop m (· == 0) (fun _ => true) fuel h p len = .ok (h', some n)) :
    carmStrlenLoop m fuel h p len = .ok (h', n) := by
  induction fuel generalizing h p len with
  | zero => cases hr
  | succ fuel ih =>
    rw [scanLoop, if_pos rfl] at hr
    rw [carmStrlenLoop]
    simp only at hr ⊢
    cases hfirst : first (fun j => (ptrDeref m h p).1.mem ((ptrDeref m h p).2 + j) == 0)
        (objSize - p.offset) with
    | some j =>
      rw [hfirst] at hr
      cases hr
      rfl
    | none =>
      rw [hfirst] at hr
      simp only at hr ⊢
      rw [if_neg (by omega)]
      exact ih (show 0 < objSize by decide) hr

abbrev Boundary (x b : Nat) : Prop := b = 0 ∨ (x + b) % objSize = 0

theorem scanLoop_first (hit : UInt8 → Bool) (more : Nat → Bool) (hc : Coherent m h)
    (ho : (Operand.remote x).Shows m h e f) (he : (x + e) % objSize = 0) (hlt : e < 2 ^ 64)
    (hmore : ∀ c < e, Boundary x c → more c = true)
    (hend : more e = false ∨ ∃ k < e, hit (f k) = true)
    (hnot : ∀ j < b, hit (f j) = false) (hb : b ≤ e) (hbound : Boundary x b)
    (hfuel : e - b < fuel) : ∃ h', scanLoop m hit more fuel h (cursor x false b) b =
        .ok (h', first (fun j => hit (f j)) e) ∧ Keeps m h h' ∧
      ∀ k, first (fun j => hit (f j)) e = some k → (Operand.remote x).Here h' k := by
  induction fuel generalizing h b with
  | zero => omega
  | succ fuel ih =>
    have hs := objSize_eq
    rw [scanLoop]
    rcases Nat.eq_or_lt_of_le hb with rfl | hbe
    · -- the end of the range
      have hnone : first (fun j => hit (f j)) b = none := Lib.first_eq_none.mpr hnot
      rcases hend with hend | ⟨k, hk, hhit⟩
      · exact ⟨h, by rw [if_neg (by simp [hend]), hnone], .refl hc, by rw [hnone]; exact nofun⟩
      · cases (hnot k hk).symm.trans hhit
    · rw [if_pos (hmore b hbe hbound)]
      have hoff := slot_add_off (x + b)
      have hbe' := slot_add_off (x + e)
      have hspan : (Operand.remote x).Spans b (objSize - (x + b) % objSize) := by
        show (x + b) % objSize + (objSize - (x + b) % objSize) ≤ objSize
        omega
      have hin : b + (objSize - (x + b) % objSize) ≤ e := by omega
      have hd := Operand.deref_finds (w := false) hc ho hbe
      simp only [Operand.deref] at hd
      simp only
      generalize hr : ptrDeref m h (cursor x false b) = r at hd ⊢
      have hchunk : first (fun j => hit (r.1.mem (r.2 + j))) (objSize - (x + b) % objSize) =
          first (fun j => hit (f (b + j))) (objSize - (x + b) % objSize) :=
        Lib.first_congr fun j hj => by
          rw [hd.bytes r.1 (.refl hd.keeps.coherent) (.of_eq rfl rfl) j (hspan.mono hj) (by omega)]
      have hsplit : first (fun j => hit (f j)) (b + (objSize - (x + b) % objSize)) =
          (first (fun j => hit (f (b + j))) (objSize - (x + b) % objSize)).map (b + ·) := by
        rw [Lib.first_add, Lib.first_eq_none.mpr hnot, Option.none_or]
      rw [show (cursor x false b).offset = (x + b) % objSize from rfl, hchunk]
      cases hfirst : first (fun j => hit (f (b + j))) (objSize - (x + b) % objSize) with
      | some j =>
        rw [hfirst] at hsplit
        have hj := (Lib.first_eq_some.mp hfirst).1
        refine ⟨r.1, ?_, hd.keeps, ?_⟩
        · rw [Lib.first_mono hsplit hin]
          simp only
          rw [u64, Nat.mod_eq_of_lt (by omega)]
        · rw [Lib.first_mono hsplit hin]
          rintro k ⟨⟩
          have hslot : (x + (b + j)) / objSize = (x + b) / objSize := by
            have hbj := slot_add_off (x + (b + j))
            omega
          obtain ⟨base, hl⟩ := hd.here
          exact ⟨base, hslot.symm ▸ hl⟩
      | none =>
        rw [hfirst] at hsplit
        have hnext : (x + (b + (objSize - (x + b) % objSize))) % objSize = 0 ∧
            (x + (b + (objSize - (x + b) % objSize))) / objSize = (x + b) / objSize + 1 := by
          rw [← Nat.add_assoc]
          exact chunk_next
        obtain ⟨h', hscan, hk, hhere⟩ := ih (b := b + (objSize - (x + b) % objSize)) hd.keeps.coherent
          (ho.keeps hc hd.keeps) (Lib.first_eq_none.mp hsplit) hin (.inr hnext.1) (by omega)
        refine ⟨h', ?_, hd.keeps.trans hk, hhere⟩
        simp only
        rw [← hscan, u64, Nat.mod_eq_of_lt (by omega)]
        simp only [cursor, hnext]

-- ---------------------------------------------------------------------------
-- Whole objects
-- ---------------------------------------------------------------------------

/-- From `x` to the end of the object with the last of `n` bytes. -/
def whole (x n : Nat) : Nat := (x + n + (objSize - 1)) / objSize * objSize - x

theorem le_whole : n ≤ whole x n := by
  simp only [whole, objSize]
  omega

theorem whole_lt : whole x n < n + objSize := by
  simp only [whole, objSize]
  omega

theorem whole_end : (x + whole x n) % objSize = 0 := by
  simp only [whole, objSize]
  omega

theorem whole_slot (hn : 0 < n) (h₁ : n ≤ j) (h₂ : j < whole x n) :
    (x + j) / objSize = (x + (n - 1)) / objSize := by
  simp only [whole, objSize] at *
  omega

theorem shows_whole (hn : 0 < n) (hcur : ∀ j < n, h.Current ((x + j) / objSize)) :
    (Operand.remote x).Shows m h (whole x n) fun j => h.view m (startAddr + x + j) where
  reads j hj := by
    rcases Nat.lt_or_ge j n with hlt | hge
    · exact hcur j hlt
    · rw [whole_slot hn hge hj]
      exact hcur (n - 1) (by omega)
  view _ _ := rfl

-- ---------------------------------------------------------------------------
-- carm_strlen
-- ---------------------------------------------------------------------------

theorem Buffer.mono (hb : Buffer m h n a) (hcur : ∀ i, h.Current i → h'.Current i) :
    Buffer m h' n a := by
  cases hb with
  | remote hi => exact .remote fun j hj => hcur _ (hi j hj)
  | app hout hlt => exact .app hout hlt

/-- `n` characters and a NUL. -/
structure IsString (m : Manager) (h : Heap) (a n : Nat) : Prop where
  buffer : Buffer m h (n + 1) a
  chars : ∀ j < n, h.view m (a + j) ≠ 0
  nul : h.view m (a + n) = 0

theorem IsString.first (hs : IsString m h a n) (hn : n < k) :
    first (fun j => h.view m (a + j) == 0) k = some n :=
  Lib.first_eq_some.mpr ⟨hn, by simp [hs.nul], fun j hj => by simpa using hs.chars j hj⟩

theorem strlen_string (hs : IsString m h a n) (hlt : a + (n + 1) ≤ startAddr) :
    h.strlen a = .ok n := by
  have hraw : ∀ j ≤ n, (h.mem (a + j) == 0) = (h.view m (a + j) == 0) := fun j hj => by
    have hj : a + j < 2 ^ 60 := by
      have hlt : a + (n + 1) ≤ 2 ^ 60 := hlt
      omega
    rw [view_untagged hj]
  have hfirst : Lib.first (fun j => h.mem (a + j) == 0) (n + 1) = some n := by
    rw [Lib.first_congr fun j hj => hraw j (Nat.le_of_lt_succ hj)]
    exact hs.first (Nat.lt_succ_self n)
  have hfuel : n + 1 ≤ scanFuel := by
    have hlt : a + (n + 1) ≤ 2 ^ 60 := hlt
    simp only [scanFuel]
    omega
  rw [strlen, Lib.first_mono hfirst hfuel]

theorem carmStrlen_app (hs : IsString m h a n) (hlt : a + (n + 1) ≤ startAddr) :
    carmStrlen m h a = .ok (h, n) := by
  have htag : checkCarmObject a = false := checkCarmObject_untagged (show a < startAddr by omega)
  rw [carmStrlen, htag, strlen_string hs hlt]
  rfl

theorem carmStrlen_remote (hc : Coherent m h) (hn : n < 2 ^ 31)
    (hs : IsString m h (startAddr + x) n) (hcur : ∀ j < n + 1, h.Current ((x + j) / objSize)) :
    ∃ h', carmStrlen m h (startAddr + x) = .ok (h', n) ∧ Keeps m h h' ∧
      (Operand.remote x).Here h' n := by
  have hx : x < 2 ^ 60 := (hcur 0 (Nat.succ_pos n)).lt_start hc
  have hlt : whole x (n + 1) < n + 1 + 4096 := whole_lt
  have hle : n + 1 ≤ whole x (n + 1) := le_whole
  have hfirst := hs.first hle
  have hfuel : whole x (n + 1) - 0 < scanFuel := by
    simp only [scanFuel]
    omega
  obtain ⟨h', hr, hk, hhere⟩ := scanLoop_first (· == 0) (fun _ => true) (b := 0)
    (e := whole x (n + 1)) hc (shows_whole (Nat.succ_pos n) hcur) whole_end (by omega)
    (fun _ _ _ => rfl) (.inr ⟨n, hle, by simp [hs.nul]⟩) nofun (Nat.zero_le _) (.inl rfl) hfuel
  rw [hfirst] at hr hhere
  refine ⟨h', ?_, hk, hhere n rfl⟩
  have hp : getCarmPtr (startAddr + x) false = cursor x false 0 := getCarmPtr_start hx
  rw [carmStrlen, checkCarmObject_start hx, hp]
  exact carmStrlenLoop_scan (Nat.mod_lt _ (by decide)) hr

theorem IsString.carmStrlen (hc : Coherent m h) (hn : n < 2 ^ 31) (hs : IsString m h a n) :
    ∃ h', carmStrlen m h a = .ok (h', n) ∧ Keeps m h h' := by
  cases hbuf : hs.buffer with
  | remote hcur =>
    obtain ⟨h', hr, hk, -⟩ := carmStrlen_remote hc hn hs hcur
    exact ⟨h', hr, hk⟩
  | app hout hlt => exact ⟨h, carmStrlen_app hs hlt, .refl hc⟩

theorem intSize_eq (hn : n + 1 < 2 ^ 31) : intSize n = n + 1 := by
  have hu : u32 (n + 1) = n + 1 := Nat.mod_eq_of_lt (by omega)
  rw [intSize, hu]
  exact if_pos hn

-- ---------------------------------------------------------------------------
-- carm_strcpy
-- ---------------------------------------------------------------------------

def Separate (d s n : Nat) : Prop := d + n ≤ s ∨ s + n ≤ d

theorem Separate.inOrder (hds : Separate d s n) : InOrder d s n := by
  rcases hds with h | h
  · exact .inr (.inr (.inl (by omega)))
  · exact .inr (.inr (.inr (.inl h)))

/-- The call leaves the string and its NUL at `d`, writes nothing else and
returns `d`. -/
def Strcpies (m : Manager) (h : Heap) (d s n : Nat) : Prop :=
  ∃ h', carmStrcpy m h d s = .ok (h', d) ∧ Writes m h h' d (n + 1) fun j => h.view m (s + j)

theorem memcpy_string (hc : Coherent m h) (hk : Keeps m h h') (hn : n + 1 < 2 ^ 31)
    (hs : IsString m h s n) (hd : Buffer m h (n + 1) d) (hds : Separate d s (n + 1)) :
    ∃ h'', carmMemcpy m h' d s (intSize n) = .ok (h'', d) ∧
      Writes m h h'' d (n + 1) fun j => h.view m (s + j) := by
  obtain ⟨h'', hr, hw⟩ := (hd.mono hk.current).memmoves (hs.buffer.mono hk.current) hk.coherent hn
    hds.inOrder
  refine ⟨h'', by rwa [intSize_eq hn], hk.trans_writes hc (hw.congr fun j hj => ?_)⟩
  exact hk.view hc (hs.buffer.usable j hj)

theorem Buffer.tag (hb : Buffer m h n a) (hc : Coherent m h) (hn : 0 < n) :
    checkCarmObject a = true ∨ checkCarmObject a = false ∧
      (∀ j < n, a + j < m.lo ∨ m.hi ≤ a + j) ∧ a + n ≤ startAddr := by
  cases hb with
  | remote hcur => exact .inl (checkCarmObject_start ((hcur 0 hn).lt_start hc))
  | app hout hlt => exact .inr ⟨checkCarmObject_untagged (show a < startAddr by omega), hout, hlt⟩

theorem IsString.carmStrcpy (hc : Coherent m h) (hn : n + 1 < 2 ^ 31) (hs : IsString m h s n)
    (hd : Buffer m h (n + 1) d) (hds : Separate d s (n + 1)) : Strcpies m h d s n := by
  unfold Strcpies Heap.carmStrcpy
  rcases hs.buffer.tag hc (Nat.succ_pos n) with htag | ⟨htag, hout, hlt⟩
  · obtain ⟨h₁, hlen, hk⟩ := hs.carmStrlen hc (by omega)
    obtain ⟨h', hr, hw⟩ := memcpy_string hc hk hn hs hd hds
    refine ⟨h', ?_, hw⟩
    rw [htag, hlen, Bool.not_true, Bool.and_false, Bool.and_false]
    exact hr
  · rcases hd.tag hc (Nat.succ_pos n) with hdtag | ⟨hdtag, hdout, hdlt⟩
    · obtain ⟨h', hr, hw⟩ := memcpy_string hc (.refl hc) hn hs hd hds
      refine ⟨h', ?_, hw⟩
      rw [htag, hdtag, strlen_string hs hlt]
      exact hr
    · refine ⟨h.memmove d s (n + 1), ?_, ?_⟩
      · rw [htag, hdtag, strcpy, strlen_string hs hlt]
        rfl
      · exact memmove_writes hc (.refl hc) (app_dest hc hdout hdlt) (app_source hlt)
          hs.buffer.usable

end Heap

open Heap (IsString Separate intSize carmStrlen carmStrcpy carmStrdup)

/-- The operand is a string of `n` characters, those of `f`. -/
structure Operand.Spells (m : Manager) (h : Heap) (n : Nat) (f : Nat → UInt8) (o : Operand) :
    Prop where
  shows : o.Shows m h (n + 1) f
  chars : ∀ j < n, f j ≠ 0
  nul : f n = 0

theorem Operand.Spells.isString {o : Operand} (ho : o.Spells m h n f) : IsString m h o.addr n where
  buffer := ho.shows.reads.buffer
  chars j hj := by
    rw [ho.shows.view j (Nat.lt_succ_of_lt hj)]
    exact ho.chars j hj
  nul := by rw [ho.shows.view n (Nat.lt_succ_self n), ho.nul]

-- ---------------------------------------------------------------------------
-- carm_strdup
-- ---------------------------------------------------------------------------

variable {s : State}

/-- What `carm_strdup` leaves: the string in a new block, and the live blocks as
they were. -/
structure Duplicates (m : Manager) (s : State) (v n : Nat) (h' : Heap) (r : Nat) : Prop where
  fresh : ∀ b ∈ s.blocks, b.stop ≤ r
  recorded : h'.allocationMap r = rounded (n + 1)
  buffer : Heap.Buffer m h' (n + 1) r
  string : ∀ j ≤ n, h'.view m (r + j) = s.heap.view m (v + j)
  frame : ∀ a, s.Live a → h'.view m a = s.heap.view m a

structure LiveString (m : Manager) (s : State) (v n : Nat) : Prop where
  live : ∀ j ≤ n, s.Live (v + j)
  chars : ∀ j < n, s.heap.view m (v + j) ≠ 0
  nul : s.heap.view m (v + n) = 0

theorem Intact.isString (hs : Intact m s) (hv : LiveString m s v n) : IsString m s.heap v n := by
  refine ⟨?_, hv.chars, hv.nul⟩
  obtain ⟨x, -, he, -⟩ := hs.live (hv.live 0 (Nat.zero_le n))
  obtain rfl : v = startAddr + x := by omega
  refine .remote fun j hj => ?_
  obtain ⟨y, -, hy, -, hcur⟩ := hs.live (hv.live j (Nat.le_of_lt_succ hj))
  obtain rfl : x + j = y := by omega
  exact hcur

theorem Intact.carmStrdup (hs : Intact m s) (hroom : HasRoom s (rounded (n + 1)))
    (hn : n + 1 < 2 ^ 31) (hv : LiveString m s v n) : ∃ h' r,
      carmStrdup m strdup s.heap v = .ok (h', r) ∧ Duplicates m s v n h' r := by
  have hstr := hs.isString hv
  obtain ⟨h₁, hlen, hk⟩ := hstr.carmStrlen hs.coherent (by omega)
  have hroom : s.heap.aspaceStart + rounded (n + 1) ≤ startAddr + s.heap.totalObjCnt * objSize :=
    hroom
  have hle := le_rounded (n := n + 1)
  obtain ⟨x, hx⟩ := Nat.exists_eq_add_of_le hs.accounted.tiled.start_le
  have hend := hs.below.trans (show slotsEnd ≤ startAddr + 2 ^ 60 by decide)
  have hsize : enforceSizeConstraints (intSize n) = rounded (n + 1) := by
    rw [Heap.intSize_eq hn]
    exact enforceSizeConstraints_eq (by simp only [startAddr] at *; omega)
  have hbelow : v + (n + 1) ≤ s.heap.aspaceStart := hs.live_below (hv.live n (Nat.le_refl n))
  have htag : checkCarmObject v = true := by
    obtain ⟨y, hy, rfl, -⟩ := hs.live (hv.live 0 (Nat.zero_le n))
    exact checkCarmObject_start hy
  -- the scan left the allocator alone, so the copy goes to the bump pointer
  have hhead : h₁.aspaceStart = s.heap.aspaceStart := hk.alloc.aspaceStart
  have hdst : Buffer m (h₁.bump (rounded (n + 1))) (n + 1) s.heap.aspaceStart := by
    rw [hx]
    exact .remote fun j hj => Heap.bump_current.mpr
      (hk.current _ (hs.beyond (by omega) (by omega)))
  have hsrc : Buffer m (h₁.bump (rounded (n + 1))) (n + 1) v :=
    hstr.buffer.mono fun i hi => Heap.bump_current.mpr (hk.current i hi)
  obtain ⟨h', hr, hw⟩ := hdst.memmoves hsrc (Heap.bump_coherent hk.coherent) hn
    (Separate.inOrder (.inr hbelow))
  have hview : ∀ a, Heap.Usable m s.heap a →
      (h₁.bump (rounded (n + 1))).view m a = s.heap.view m a := fun a hu =>
    show h₁.view m a = _ from hk.view hs.coherent hu
  have husable : ∀ a, Heap.Usable m s.heap a → Heap.Usable m (h₁.bump (rounded (n + 1))) a :=
    fun a hu => hu.mono fun i hi => Heap.bump_current.mpr (hk.current i hi)
  refine ⟨h', s.heap.aspaceStart, ?_, hs.accounted.tiled.below, ?_, hdst.mono hw.current,
    fun j hj => ?_, fun a ha => ?_⟩
  · rw [Heap.carmStrdup, htag, hlen]
    simp only [Bool.not_true, Bool.false_eq_true, if_false, Bind.bind, Except.bind,
      Heap.carmRemoteMalloc, hsize, hhead]
    rw [Heap.intSize_eq hn, hr]
    rfl
  · rw [hw.alloc.allocationMap, ← hhead, bump_allocationMap]
  · rw [hw.view, Lib.blit_at (by omega), hview]
    · exact hstr.buffer.usable j (by omega)
    · exact hdst.usable j (by omega)
  · rw [hw.view a (husable a (hs.usable ha)), Lib.blit_out (.inl (hs.live_below ha)),
      hview a (hs.usable ha)]

/-- The three functions on strings that span any number of objects. -/
theorem strings_span_objects :
    (∀ m h a n, n + 1 < 2 ^ 31 → Coherent m h → IsString m h a n →
      ∃ h', carmStrlen m h a = .ok (h', n) ∧ Keeps m h h') ∧
    (∀ m h d s n, n + 1 < 2 ^ 31 → Coherent m h → IsString m h s n → Buffer m h (n + 1) d →
      Separate d s (n + 1) → Heap.Strcpies m h d s n) ∧
    ∀ m strdup s v n, n + 1 < 2 ^ 31 → Reach m (Legal m) s → LiveString m s v n →
      HasRoom s (rounded (n + 1)) →
      ∃ h' r, carmStrdup m strdup s.heap v = .ok (h', r) ∧ Duplicates m s v n h' r :=
  ⟨fun _ _ _ _ hn hc hs => hs.carmStrlen hc (by omega),
    fun _ _ _ _ _ hn hc hs hd hds => hs.carmStrcpy hc hn hd hds,
    fun _ _ _ _ _ hn hr hv hroom => hr.intact.carmStrdup hroom hn hv⟩

theorem strings_span_objects_copy : Heap.Strcpies cacheManager
    (init (fun _ => none) fun a => if a = 100 then 65 else 0).heap (startAddr + 4095) 100 1 :=
  strings_span_objects.2.1 _ _ _ _ _ (by decide) init_coherent
    ⟨.app (fun j hj => .inl (by simp only [cacheManager, Cache.lo]; omega)) (by decide),
      fun j hj => by obtain rfl := Nat.lt_one_iff.mp hj; decide, by decide⟩
    (Heap.init_buffer (by decide)) (.inr (by decide))

end TrackFM
