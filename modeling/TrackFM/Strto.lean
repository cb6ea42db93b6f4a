import TrackFM.Strings
import TrackFM.Parked
import TrackFM.Lib.Reader

/-!
# carm_strtol and carm_strtoul

Both dereference the first object of the string and hand the local address to
libc, which reads on past the end of the local copy if the number does. `strtol`
and `strtoul` are a reader of bytes and a range to clamp to.
-/

namespace TrackFM

open Lib (Reader)
open Heap (Coherent Keeps Derefs ptrDeref carmDerefObj objectFor parked scanFuel)

variable {m : Manager} {h h' : Heap} {f g : Nat → UInt8}

-- ---------------------------------------------------------------------------
-- libc
-- ---------------------------------------------------------------------------

abbrev Radix := { b : Nat // 2 ≤ b ∧ b ≤ 36 }

/-- The radix of a number, and that of one that starts with a zero. -/
structure Radices where
  hexPrefix : Bool
  plain : Radix
  zero : Radix

/-- Any other base is invalid. -/
def radices (base : Int) : Option Radices :=
  if base = 0 then some ⟨true, ⟨10, by decide⟩, ⟨8, by decide⟩⟩
  else if h : 2 ≤ base ∧ base ≤ 36 then
    some ⟨base = 16, ⟨base.toNat, by omega⟩, ⟨base.toNat, by omega⟩⟩
  else none

inductive Conversion where
  | blanks
  | sign (neg : Bool)
  /-- After a zero that `0x` may begin with. -/
  | zero (neg : Bool)
  | digits (neg : Bool) (radix : Radix) (acc : Nat)
  | stop (neg : Bool) (acc : Nat)

namespace Conversion

def isSpace (c : UInt8) : Bool := c == 32 || (9 ≤ c && c ≤ 13)

def digitVal (c : UInt8) : Nat :=
  if 48 ≤ c ∧ c ≤ 57 then c.toNat - 48
  else if 97 ≤ c ∧ c ≤ 122 then c.toNat - 87
  else if 65 ≤ c ∧ c ≤ 90 then c.toNat - 55
  else 36

def digit (neg : Bool) (radix : Radix) (acc : Nat) (c : UInt8) : Conversion :=
  if digitVal c < radix.val then .digits neg radix (acc * radix.val + digitVal c)
  else .stop neg acc

def begin (r : Radices) (neg : Bool) (c : UInt8) : Conversion :=
  if r.hexPrefix && c == 48 then .zero neg else digit neg r.plain 0 c

def step (r : Radices) : Conversion → UInt8 → Conversion
  | .blanks, c =>
    if isSpace c then .blanks
    else if c == 45 then .sign true
    else if c == 43 then .sign false
    else begin r false c
  | .sign neg, c => begin r neg c
  | .zero neg, c =>
    if c == 120 || c == 88 then .digits neg ⟨16, by decide⟩ 0 else digit neg r.zero 0 c
  | .digits neg radix acc, c => digit neg radix acc c
  | .stop neg acc, _ => .stop neg acc

def done : Conversion → Bool
  | .stop _ _ => true
  | _ => false

def result : Conversion → Bool × Nat
  | .stop neg acc => (neg, acc)
  | _ => (false, 0)

def reader (r : Radices) : Reader Conversion UInt8 where
  start := .blanks
  step := step r
  done := done
  done_step s _ hs := by cases s <;> first | rfl | cases hs

end Conversion

def longValue (neg : Bool) (acc : Nat) : Int :=
  if neg then max (-(acc : Int)) (-2 ^ 63) else min acc (2 ^ 63 - 1)

/-- Up to `ULONG_MAX`; a minus sign negates in `unsigned long`. -/
def ulongValue (neg : Bool) (acc : Nat) : Int :=
  if 2 ^ 64 ≤ acc then 2 ^ 64 - 1 else if neg then -(acc : Int) % 2 ^ 64 else acc

/-- `strtol` and `strtoul` on the bytes from an address on. -/
def strto (value : Bool → Nat → Int) (base : Int) (f : Nat → UInt8) : Outcome Int :=
  match radices base with
  | none => .ok 0
  | some r =>
    match (Conversion.reader r).read scanFuel f with
    | some s => .ok (value s.result.1 s.result.2)
    | none => .error .diverge

def strtol : Int → (Nat → UInt8) → Outcome Int := strto longValue

def strtoul : Int → (Nat → UInt8) → Outcome Int := strto ulongValue

-- ---------------------------------------------------------------------------
-- libc_support.cpp
-- ---------------------------------------------------------------------------

namespace Heap

/-- `endptr` says whether there is one; where libc stores the end is not
modelled. -/
def carmStrto (strto : Int → (Nat → UInt8) → Outcome Int) (m : Manager) (h : Heap) (nptr : Nat)
    (endptr : Bool) (base : Int) : Outcome (Heap × Int) :=
  if !checkCarmObject nptr then (strto base fun j => h.mem (nptr + j)).map (h, ·)
  else if endptr then .error .exit
  else
    let (h, dest) := ptrDeref m h (getCarmPtr nptr false)
    (strto base fun j => h.mem (dest + j)).map (h, ·)

def carmStrtol (m : Manager) (h : Heap) (nptr : Nat) (endptr : Bool) (base : Int) :
    Outcome (Heap × Int) := carmStrto strtol m h nptr endptr base

def carmStrtoul (m : Manager) (h : Heap) (nptr : Nat) (endptr : Bool) (base : Int) :
    Outcome (Heap × Int) := carmStrto strtoul m h nptr endptr base

end Heap

open Heap (carmStrto carmStrtol carmStrtoul)

-- ---------------------------------------------------------------------------
-- Where a conversion stops
-- ---------------------------------------------------------------------------

namespace Conversion

variable {r : Radices} {s : Conversion}

theorem digit_nul {neg : Bool} {radix : Radix} : digit neg radix acc 0 = .stop neg acc :=
  if_neg (Nat.not_lt.mpr radix.property.2)

theorem step_nul : (step r s 0).done = true := by
  cases s with
  | blanks => simp [step, isSpace, begin, digit_nul, done]
  | sign neg => simp [step, begin, digit_nul, done]
  | zero neg => simp [step, digit_nul, done]
  | digits neg radix acc => simp [step, digit_nul, done]
  | stop neg acc => rfl

theorem digit_zero {neg : Bool} {radix : Radix} : (digit neg radix acc 48).done = false := by
  have hlt : digitVal 48 < radix.val := Nat.lt_of_lt_of_le Nat.two_pos radix.property.1
  rw [digit, if_pos hlt]
  rfl

theorem step_zero (hs : s.done = false) : (step r s 48).done = false := by
  have hbegin : ∀ neg, (begin r neg 48).done = false := fun neg => by
    cases hp : r.hexPrefix with
    | true => simp [begin, hp, done]
    | false => simpa [begin, hp] using digit_zero
  cases s with
  | blanks => simpa [step, isSpace] using hbegin false
  | sign neg => exact hbegin neg
  | zero neg => exact digit_zero
  | digits neg radix acc => exact digit_zero
  | stop neg acc => cases hs

end Conversion

/-- Reading stops among the first `k` bytes, if the base is valid at all. -/
def StopsWithin (base : Int) (f : Nat → UInt8) (k : Nat) : Prop :=
  ∀ r, radices base = some r →
    (Conversion.reader r).done ((Conversion.reader r).after f k) = true

section
variable {value : Bool → Nat → Int} {base : Int} {n k : Nat}

theorem stopsWithin_nul (hf : f n = 0) : StopsWithin base f (n + 1) := by
  intro r _
  show (Conversion.step r ((Conversion.reader r).after f n) (f n)).done = true
  rw [hf]
  exact Conversion.step_nul

theorem StopsWithin.mono (hs : StopsWithin base f k) (hk : k ≤ n) : StopsWithin base f n := by
  intro r hr
  rw [Reader.after_done (hs r hr) hk]
  exact hs r hr

theorem strto_congr (hs : StopsWithin base f k) (hk : k < scanFuel) (hfg : ∀ j < k, f j = g j) :
    strto value base g = strto value base f := by
  unfold strto
  cases hr : radices base with
  | none => rfl
  | some r => simp only [Reader.read_congr (hs r hr) hk hfg]

theorem strto_returns (value : Bool → Nat → Int) (hs : StopsWithin base f k) (hk : k < scanFuel) :
    ∃ v, strto value base f = .ok v := by
  unfold strto
  cases hr : radices base with
  | none => exact ⟨0, rfl⟩
  | some r =>
    simp only [Reader.read_of_done (hs r hr) hk]
    exact ⟨_, rfl⟩

/-- A number that zeros follow for ever does not end. -/
theorem strto_diverges (hs : ¬StopsWithin base f k) (hfg : ∀ j < k, g j = f j)
    (hzero : ∀ j, k ≤ j → g j = 48) : strto value base g = .error .diverge := by
  unfold StopsWithin at hs
  push Not at hs
  obtain ⟨r, hr, hlt⟩ := hs
  have hgo : ∀ l, ((Conversion.reader r).done ((Conversion.reader r).after g l)) = false := by
    refine Reader.goes_on (k := k) ?_ fun s hs' j hj => ?_
    · rw [Reader.after_congr hfg]
      simpa using hlt
    · rw [hzero j hj]
      exact Conversion.step_zero hs'
  unfold strto
  rw [hr]
  simp only [Reader.read_none fun l _ => hgo l]

end

-- ---------------------------------------------------------------------------
-- What follows the local copy
-- ---------------------------------------------------------------------------

namespace Heap

theorem objectFor_mem : (objectFor m h i).1.mem = h.mem := by
  unfold objectFor
  split <;> rfl

theorem carmAddPrefetchTrace_mem : (h.carmAddPrefetchTrace i pf).mem = h.mem := by
  unfold carmAddPrefetchTrace
  split <;> rfl

theorem carmDerefObj_mem (ha : (carmDerefObj m h w i pf).2 + objSize ≤ a) :
    (carmDerefObj m h w i pf).1.mem a = h.mem a := by
  have hword : dataAddr (m.derefWord (objectFor m h i).1.objs (objectFor m h i).1.objCount
      (objectFor m h i).2 w) + objSize ≤ a := by
    simp only [carmDerefObj] at ha
    have ha : dataAddr (((objectFor m h i).1.deref m (objectFor m h i).2 w).objs
        (objectFor m h i).2).metadata + objSize ≤ a := ha
    rwa [deref_objs_self] at ha
  simp only [carmDerefObj, carmAddPrefetchTrace_mem]
  rw [← objectFor_mem (m := m) (h := h) (i := i)]
  exact deref_mem fun hin => absurd hin.2 (Nat.not_lt.mpr hword)

theorem ptrDeref_mem (ha : (ptrDeref m h p).2 + objSize ≤ a + p.offset) :
    (ptrDeref m h p).1.mem a = h.mem a := by
  by_cases hf : Fast h.carmObjState p
  · rw [ptrDeref_fast hf]
  · have haddr : (ptrDeref m h p).2 =
        (carmDerefObj m h.carmDeref p.mutable p.objIndex 0).2 + p.offset := by
      simp only [ptrDeref]
      rw [if_pos hf]
      cases p.mutable <;> rfl
    rw [ptrDeref_slow hf]
    exact carmDerefObj_mem (h := h.carmDeref) (by omega)

end Heap

-- ---------------------------------------------------------------------------
-- The call
-- ---------------------------------------------------------------------------

def Converts (carm : Heap → Nat → Bool → Int → Outcome (Heap × Int))
    (libc : Int → (Nat → UInt8) → Outcome Int) (h : Heap) (a : Nat) (base : Int)
    (f : Nat → UInt8) : Prop :=
  ∃ h' v, carm h a false base = .ok (h', v) ∧ libc base f = .ok v

section
variable {value : Bool → Nat → Int} {base : Int} {x n : Nat}

theorem carmStrto_first (value : Bool → Nat → Int) (base : Int) (hc : Coherent m h)
    (hs : (Operand.remote x).Spells m h n f) :
    ∃ h' p, ptrDeref m h (getCarmPtr (startAddr + x) false) = (h', p) ∧
      carmStrto (strto value) m h (startAddr + x) false base =
        (strto value base fun j => h'.mem (p + j)).map (h', ·) ∧
      ∀ j, x % objSize + j < objSize → j ≤ n → h'.mem (p + j) = f j := by
  have hx : x < 2 ^ 60 := (hs.shows.reads 0 (Nat.succ_pos n)).lt_start hc
  have hp : getCarmPtr (startAddr + x) false = cursor x false 0 := getCarmPtr_start hx
  have hd := Operand.deref_finds (w := false) hc hs.shows (Nat.succ_pos n)
  simp only [Operand.deref, ← hp] at hd
  rcases he : ptrDeref m h (getCarmPtr (startAddr + x) false) with ⟨h', p⟩
  rw [he] at hd
  refine ⟨h', p, rfl, ?_, fun j hj hjn => ?_⟩
  · rw [carmStrto, checkCarmObject_start hx]
    simp only [he, Bool.not_true, Bool.false_eq_true, if_false]
  · rw [hd.bytes _ (.refl hd.keeps.coherent) (.of_eq rfl rfl) j hj (by omega), Nat.zero_add]

theorem converts_of_stopsWithin (hc : Coherent m h) (hs : (Operand.remote x).Spells m h n f)
    (hstop : StopsWithin base f (objSize - x % objSize)) :
    Converts (carmStrto (strto value) m) (strto value) h (startAddr + x) base f := by
  have hlast := (hs.shows.reads n (Nat.lt_succ_self n)).lt_start hc
  obtain ⟨h', p, -, hr, hraw⟩ := carmStrto_first value base hc hs
  have hoff : x % objSize < objSize := Nat.mod_lt x (by decide)
  obtain ⟨k, hk, hin, hkn⟩ : ∃ k, StopsWithin base f k ∧ k ≤ objSize - x % objSize ∧ k ≤ n + 1 := by
    rcases Nat.le_total (n + 1) (objSize - x % objSize) with hle | hle
    · exact ⟨n + 1, stopsWithin_nul hs.nul, hle, Nat.le_refl _⟩
    · exact ⟨_, hstop, Nat.le_refl _, hle⟩
  have hfuel : k < scanFuel := by
    simp only [scanFuel]
    omega
  obtain ⟨v, hv⟩ := strto_returns value hk hfuel
  refine ⟨h', v, ?_, hv⟩
  rw [hr, strto_congr hk hfuel fun j hj => (hraw j (by omega) (by omega)).symm, hv]
  rfl

/-- A heap with the string in it, everything evacuated, and local memory full of
one character. -/
def spelledOver (x n : Nat) (f : Nat → UInt8) (c : UInt8) : Heap :=
  Heap.parkedOver (Heap.slotsOf x n) (fun a => f (a - (startAddr + x))) fun _ => c

theorem spelledOver_coherent (hr : Heap.FarRange x n) : Coherent m (spelledOver x n f c) :=
  Heap.parkedOver_coherent hr.parkable

theorem spelledOver_spells (hr : Heap.FarRange x n) (hchars : ∀ j < n, f j ≠ 0) (hnul : f n = 0) :
    (Operand.remote x).Spells m (spelledOver x n f c) n f where
  shows := by
    refine ⟨fun j hj => Heap.parkedOver_current hr.parkable
      (Heap.mem_slotsOf (Nat.le_of_lt_succ hj)), fun j hj => ?_⟩
    rw [Operand.addr, Nat.add_assoc, spelledOver,
      Heap.parkedOver_view hr.parkable (Heap.mem_slotsOf (Nat.le_of_lt_succ hj)), ← Nat.add_assoc,
      Nat.add_sub_cancel_left]
  chars := hchars
  nul := hnul

/-- There libc gets the first object's part of the string, and then `c` for ever. -/
theorem carmStrto_spelledOver (value : Bool → Nat → Int) (base : Int) (hr : Heap.FarRange x n)
    (hchars : ∀ j < n, f j ≠ 0) (hnul : f n = 0) : ∃ h' g,
      carmStrto (strto value) m (spelledOver x n f c) (startAddr + x) false base =
        (strto value base g).map (h', ·) ∧
      (∀ j, x % objSize + j < objSize → j ≤ n → g j = f j) ∧
      ∀ j, objSize ≤ x % objSize + j → g j = c := by
  have hc : Coherent m (spelledOver x n f c) := spelledOver_coherent hr
  have hs := spelledOver_spells (m := m) (c := c) hr hchars hnul
  have hx : x < 2 ^ 60 := (hs.shows.reads 0 (Nat.succ_pos n)).lt_start hc
  obtain ⟨h', p, he, hcall, hraw⟩ := carmStrto_first value base hc hs
  refine ⟨h', fun j => h'.mem (p + j), hcall, hraw, fun j hj => ?_⟩
  have hmem := Heap.ptrDeref_mem (m := m) (h := spelledOver x n f c) (a := p + j)
    (p := getCarmPtr (startAddr + x) false)
  rw [he, getCarmPtr_start hx] at hmem
  exact hmem (by simp only; omega)

/-- If reading does not stop in the first object, digits after the local copy
are read instead of the rest of the string. -/
theorem stopsWithin_of_converts (hr : Heap.FarRange x n) (hchars : ∀ j < n, f j ≠ 0)
    (hnul : f n = 0) (hall : ∀ m h, Coherent m h → (Operand.remote x).Spells m h n f →
      Converts (carmStrto (strto value) m) (strto value) h (startAddr + x) base f) :
    StopsWithin base f (objSize - x % objSize) := by
  by_contra hnot
  have hoff : x % objSize < objSize := Nat.mod_lt x (by decide)
  have hlong : objSize - x % objSize ≤ n := by
    by_contra hshort
    exact hnot ((stopsWithin_nul hnul).mono (by omega))
  obtain ⟨h', g, hcall, hraw, hrest⟩ := carmStrto_spelledOver (m := cacheManager) (c := 48) value base
    hr hchars hnul
  obtain ⟨h'', v, hok, -⟩ := hall cacheManager (spelledOver x n f 48) (spelledOver_coherent hr)
    (spelledOver_spells hr hchars hnul)
  rw [hcall, strto_diverges hnot (fun j hj => hraw j (by omega) (by omega))
    fun j hj => hrest j (by omega)] at hok
  cases hok

end

/-- Both functions read the string in every heap it is in, exactly if reading stops
in its first object. -/
theorem strto_iff (hr : Heap.FarRange x n) (hchars : ∀ j < n, f j ≠ 0) (hnul : f n = 0) :
    ((∀ m h, Coherent m h → (Operand.remote x).Spells m h n f →
        Converts (carmStrtol m) strtol h (startAddr + x) base f) ↔
      StopsWithin base f (objSize - x % objSize)) ∧
    ((∀ m h, Coherent m h → (Operand.remote x).Spells m h n f →
        Converts (carmStrtoul m) strtoul h (startAddr + x) base f) ↔
      StopsWithin base f (objSize - x % objSize)) :=
  ⟨⟨stopsWithin_of_converts hr hchars hnul,
      fun hstop _ _ hc hs => converts_of_stopsWithin hc hs hstop⟩,
    ⟨stopsWithin_of_converts hr hchars hnul,
      fun hstop _ _ hc hs => converts_of_stopsWithin hc hs hstop⟩⟩

def twelve (j : Nat) : UInt8 := if j = 0 then 49 else if j = 1 then 50 else 0

theorem twelve_chars : ∀ j < 2, twelve j ≠ 0 := by decide

theorem strto_iff_twelve :
    Converts (carmStrtol cacheManager) strtol (spelledOver 4000 2 twelve 48) (startAddr + 4000) 10
      twelve :=
  (strto_iff ⟨by decide, by decide⟩ twelve_chars rfl).1.mpr
    ((stopsWithin_nul (n := 2) rfl).mono (by decide)) _ _ (spelledOver_coherent ⟨by decide, by decide⟩)
    (spelledOver_spells ⟨by decide, by decide⟩ twelve_chars rfl)

/-- With an object boundary between its digits, `12` is read as 1. -/
theorem strto_reads_one : ¬∀ m h x n f base, Coherent m h → (Operand.remote x).Spells m h n f →
    Converts (carmStrtol m) strtol h (startAddr + x) base f ∧
      Converts (carmStrtoul m) strtoul h (startAddr + x) base f := by
  intro hall
  have hr : Heap.FarRange 4095 2 := ⟨by decide, by decide⟩
  obtain ⟨h', g, hcall, hraw, hrest⟩ := carmStrto_spelledOver (m := cacheManager) (c := 0)
    longValue 10 hr twelve_chars rfl
  obtain ⟨⟨h'', v, hok, hv⟩, -⟩ := hall cacheManager (spelledOver 4095 2 twelve 0) 4095 2 twelve 10
    (spelledOver_coherent hr) (spelledOver_spells hr twelve_chars rfl)
  -- libc reads one digit and then what follows the local copy
  have hg : ∀ j < 2, (fun j => if j = 0 then 49 else 0 : Nat → UInt8) j = g j := by
    intro j hj
    cases j with
    | zero => exact (hraw 0 (by decide) (by decide)).symm
    | succ j =>
      obtain rfl : j = 0 := by omega
      exact (hrest 1 (by decide)).symm
  have hone : strto longValue 10 g = .ok 1 := by
    rw [strto_congr (stopsWithin_nul (n := 1) rfl) (by decide) hg]
    rfl
  have htwelve : strtol 10 twelve = .ok 12 := rfl
  have hcall : carmStrtol cacheManager (spelledOver 4095 2 twelve 0) (startAddr + 4095) false 10 =
      .ok (h', 1) := by
    rw [carmStrtol, strtol, hcall, hone]
    rfl
  rw [htwelve] at hv
  have he := congrArg Prod.snd (Except.ok.inj (hcall.symm.trans hok))
  cases he.trans (Except.ok.inj hv).symm

end TrackFM
