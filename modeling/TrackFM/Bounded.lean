import TrackFM.Strings
import TrackFM.Parked

/-!
# The string functions with a bound

`carm_strncpy`, `carm_memchr` and `carm_wmemchr` of `libc_support.cpp`. The
remote path of `carm_strncpy` copies `n` bytes whatever they are; `carm_memchr`
looks at all of the last object and compares with `c` as an `int`;
`carm_wmemchr` searches bytes.
-/

namespace TrackFM

open Lib (first)
open Heap (Coherent Keeps Writes Buffer Separate ptrDeref carmMemcpy scanLoop whole parked)

variable {m : Manager} {h h' : Heap} {f : Nat → UInt8}

-- ---------------------------------------------------------------------------
-- carm_strncpy
-- ---------------------------------------------------------------------------

/-- Byte `j` of a padded copy: zero after the first NUL. -/
def padded (f : Nat → UInt8) (j : Nat) : UInt8 :=
  match first (fun i => f i == 0) j with
  | some _ => 0
  | none => f j

theorem padded_zero (hij : i < j) (hi : f i = 0) : padded f j = 0 := by
  cases hfirst : first (fun i => f i == 0) j with
  | none => simpa [hi] using Lib.first_eq_none.mp hfirst i hij
  | some k => rw [padded, hfirst]

theorem padded_eq (hz : ∀ i < j, f i = 0 → f j = 0) : padded f j = f j := by
  cases hfirst : first (fun i => f i == 0) j with
  | none => rw [padded, hfirst]
  | some k =>
    obtain ⟨hk, hfk, -⟩ := Lib.first_eq_some.mp hfirst
    rw [padded, hfirst, hz k hk (by simpa using hfk)]

namespace Heap

def strncpy (h : Heap) (d s n : Nat) : Heap × Nat := (h.store d n (padded fun j => h.mem (s + j)), d)

def carmStrncpy (m : Manager) (h : Heap) (s1 s2 n : Nat) : Outcome (Heap × Nat) :=
  if !checkCarmObject s1 && !checkCarmObject s2 then .ok (h.strncpy s1 s2 n)
  else carmMemcpy m h s1 s2 n

/-- The call leaves the padded string at `d`, writes nothing else and returns `d`. -/
def Strncpies (m : Manager) (h : Heap) (d s n : Nat) : Prop :=
  ∃ h', carmStrncpy m h d s n = .ok (h', d) ∧ Writes m h h' d n (padded fun j => h.view m (s + j))

theorem strncpy_app (hc : Coherent m h) (hn : 0 < n) (hd : Buffer m h n d) (hs : Buffer m h n s)
    (hdt : checkCarmObject d = false) (hst : checkCarmObject s = false) : Strncpies m h d s n := by
  obtain ⟨-, hdout, hdlt⟩ := (hd.tag hc hn).resolve_left (by simp [hdt])
  obtain ⟨-, -, hslt⟩ := (hs.tag hc hn).resolve_left (by simp [hst])
  refine ⟨_, by rw [carmStrncpy, hdt, hst]; rfl, ?_⟩
  refine (app_dest hc hdout hdlt _).congr fun j hj => ?_
  have hraw : ∀ i ≤ j, h.mem (s + i) = h.view m (s + i) := fun i hi =>
    app_source hslt i (hi.trans_lt hj)
  have hfirst : first (fun i => h.mem (s + i) == 0) j = first (fun i => h.view m (s + i) == 0) j :=
    Lib.first_congr fun i hi => by rw [hraw i (Nat.le_of_lt hi)]
  rw [padded, padded, hfirst, hraw j (Nat.le_refl j)]

theorem strncpy_remote (hremote : checkCarmObject d = true ∨ checkCarmObject s = true) :
    carmStrncpy m h d s n = carmMemcpy m h d s n := by
  rcases hremote with ht | ht <;> simp [carmStrncpy, ht]

theorem padded_of_strncpies (hc : Coherent m h) (hn : n < 2 ^ 31) (hd : Buffer m h n d)
    (hs : Buffer m h n s) (hds : Separate d s n)
    (hremote : checkCarmObject d = true ∨ checkCarmObject s = true) (hcall : Strncpies m h d s n) :
    ∀ j < n, ∀ i < j, h.view m (s + i) = 0 → h.view m (s + j) = 0 := by
  obtain ⟨h', hr, hw⟩ := hd.memmoves hs hc hn hds.inOrder
  rw [← strncpy_remote hremote] at hr
  obtain ⟨h'', hr', hw'⟩ := hcall
  intro j hj i hij hi
  obtain rfl : h' = h'' := congrArg Prod.fst (Except.ok.inj (hr.symm.trans hr'))
  have hu := hd.usable j hj
  have hcopy := hw.view _ hu
  rw [hw'.view _ hu, Lib.blit_at hj, Lib.blit_at hj] at hcopy
  rw [← hcopy]
  exact padded_zero hij hi

/-- With a remote operand the call is right for the sources that are padded
already. -/
theorem strncpy_iff (hc : Coherent m h) (hn : n < 2 ^ 31) (hd : Buffer m h n d)
    (hs : Buffer m h n s) (hds : Separate d s n)
    (hremote : checkCarmObject d = true ∨ checkCarmObject s = true) :
    Strncpies m h d s n ↔
      ∀ j < n, ∀ i < j, h.view m (s + i) = 0 → h.view m (s + j) = 0 := by
  refine ⟨padded_of_strncpies hc hn hd hs hds hremote, fun hz => ?_⟩
  obtain ⟨h', hr, hw⟩ := hd.memmoves hs hc hn hds.inOrder
  rw [← strncpy_remote hremote] at hr
  exact ⟨h', hr, hw.congr fun j hj => (padded_eq (hz j hj)).symm⟩

/-- A local "AB" with two NULs, copied across an object boundary. -/
theorem strncpy_iff_padded : Strncpies cacheManager
    (init (fun _ => none) fun a => if a = 100 then 65 else if a = 101 then 66 else 0).heap
    (startAddr + 4093) 100 4 := by
  have hsrc : Buffer cacheManager
      (init (fun _ => none) fun a => if a = 100 then 65 else if a = 101 then 66 else 0).heap 4 100 :=
    .app (fun j hj => .inl (by simp only [cacheManager, Cache.lo]; omega)) (by decide)
  refine (strncpy_iff init_coherent (by decide) (init_buffer (by decide)) hsrc (.inr (by decide))
    (.inl (by decide))).mpr fun j hj i hij hi => ?_
  obtain rfl | rfl | rfl : j = 1 ∨ j = 2 ∨ j = 3 := by omega
  · obtain rfl := Nat.lt_one_iff.mp hij
    exact absurd hi (by decide)
  · rfl
  · rfl

/-- A byte after the NUL is copied. -/
theorem strncpy_copies_on : ¬∀ m h d s n, n < 2 ^ 31 → Coherent m h → Buffer m h n d →
    Buffer m h n s → Separate d s n → checkCarmObject d = true ∨ checkCarmObject s = true →
    Strncpies m h d s n := by
  intro hall
  have hsrc : Buffer cacheManager (init (fun _ => none) fun a => if a = 101 then 65 else 0).heap 2
      100 := .app (fun j hj => .inl (by simp only [cacheManager, Cache.lo]; omega)) (by decide)
  have hdst : Buffer cacheManager (init (fun _ => none) fun a => if a = 101 then 65 else 0).heap 2
      (startAddr + 0) := init_buffer (by decide)
  have hsep : Separate (startAddr + 0) 100 2 := .inr (by decide)
  have hz := padded_of_strncpies init_coherent (by decide) hdst hsrc hsep (.inl (by decide))
    (hall _ _ _ _ 2 (by decide) init_coherent hdst hsrc hsep (.inl (by decide)))
    1 (by decide) 0 (by decide) (by decide)
  exact absurd hz (by decide)

-- ---------------------------------------------------------------------------
-- carm_memchr
-- ---------------------------------------------------------------------------

def hitAddr (a : Nat) : Option Nat → Nat
  | some k => a + k
  | none => 0

theorem hitAddr_inj (ha : 0 < a) (he : hitAddr a r = hitAddr a t) : r = t := by
  cases r <;> cases t <;> simp only [hitAddr] at he <;> first | rfl | omega | (congr 1; omega)

/-- `memchr` converts `c` to `unsigned char`. -/
def memchr (h : Heap) (s : Nat) (c : Int) (n : Nat) : Nat :=
  hitAddr s (first (fun j => h.mem (s + j) == lowByte c) n)

/-- The loop looks at `n` bytes and the rest of an object. -/
def carmMemchr (m : Manager) (h : Heap) (str : Nat) (c : Int) (n : Nat) : Outcome (Heap × Nat) :=
  if !checkCarmObject str then .ok (h, h.memchr str c n)
  else (scanLoop m (fun b => (b.toNat : Int) == c) (fun len => len < n) (n + objSize) h
    (getCarmPtr str false) 0).map fun (h, r) => (h, hitAddr str r)

def carmWmemchr (h : Heap) (s1 : Nat) (c : Int) (size : Nat) : Outcome Nat :=
  if !checkCarmObject s1 then .ok (h.memchr s1 c size) else .error .exit

/-- The call returns the first of the first `n` bytes that equals `c` converted
to `unsigned char`. -/
def Memchrs (m : Manager) (h : Heap) (a : Nat) (c : Int) (n : Nat) : Prop :=
  ∃ h', carmMemchr m h a c n =
    .ok (h', hitAddr a (first (fun j => h.view m (a + j) == lowByte c) n))

def looked (x n : Nat) : Nat := if n = 0 then 0 else whole x n

theorem le_looked : n ≤ looked x n := by
  unfold looked
  split
  · omega
  · exact le_whole

theorem carmMemchr_scan (hc : Coherent m h) (hx : x < 2 ^ 60)
    (hcur : ∀ j < n, h.Current ((x + j) / objSize)) : ∃ h', carmMemchr m h (startAddr + x) c n =
      .ok (h', hitAddr (startAddr + x)
        (first (fun j => ((h.view m (startAddr + x + j)).toNat : Int) == c) (looked x n))) ∧
    Keeps m h h' := by
  have hp : getCarmPtr (startAddr + x) false = cursor x false 0 := getCarmPtr_start hx
  rw [carmMemchr, checkCarmObject_start hx, hp]
  rcases Nat.eq_zero_or_pos n with rfl | hn
  · exact ⟨h, rfl, .refl hc⟩
  have hlt : whole x n < n + 4096 := whole_lt
  have hlast := (hcur (n - 1) (by omega)).lt_start hc
  -- an object that starts before the end of the last one starts before byte `n`
  have hmore : ∀ b < whole x n, Boundary x b → decide (b < n) = true := by
    intro b hb hbound
    rw [decide_eq_true_eq]
    rcases hbound with rfl | hbound
    · exact hn
    · simp only [whole, objSize] at *
      omega
  obtain ⟨h', hr, hk, -⟩ := scanLoop_first (fun b => (b.toNat : Int) == c)
    (fun len => decide (len < n)) (b := 0) (e := whole x n) hc (shows_whole hn hcur) whole_end
    (by omega) hmore (.inl (by simpa using le_whole)) (fun j hj => absurd hj (Nat.not_lt_zero j))
    (Nat.zero_le _) (.inl rfl)
    (show whole x n - 0 < n + objSize by simpa using hlt)
  refine ⟨h', ?_, hk⟩
  rw [looked, if_neg (Nat.ne_of_gt hn)]
  exact map_ok.mpr ⟨_, hr, rfl⟩

theorem lowByte_toNat : ((lowByte c).toNat : Int) = c % 256 := by
  have hlt : (c % 256).toNat < 256 := by omega
  rw [lowByte, UInt8.toNat_ofNat_of_lt' hlt]
  omega

theorem eq_lowByte (hc : 0 ≤ c ∧ c < 256) : ((b : UInt8).toNat : Int) = c ↔ b = lowByte c := by
  rw [← UInt8.toNat_inj, ← Int.natCast_inj, lowByte_toNat]
  omega

/-- No byte past the bound is taken for a match, and no match is missed for
the value of `c`. -/
def Bounded (x : Nat) (f : Nat → UInt8) (c : Int) (n : Nat) : Prop :=
  if 0 ≤ c ∧ c < 256 then
    (∃ j < n, f j = lowByte c) ∨ ∀ j, n ≤ j → j < looked x n → f j ≠ lowByte c
  else ∀ j < n, f j ≠ lowByte c

theorem first_bounded : first (fun j => ((f j).toNat : Int) == c) (looked x n) =
    first (fun j => f j == lowByte c) n ↔ Bounded x f c n := by
  unfold Bounded
  split
  · rename_i hbyte
    have hsame : (fun j => ((f j).toNat : Int) == c) = fun j => f j == lowByte c := by
      funext j
      rw [Bool.eq_iff_iff, beq_iff_eq, beq_iff_eq]
      exact eq_lowByte hbyte
    rw [hsame]
    cases hfirst : first (fun j => f j == lowByte c) n with
    | some k =>
      obtain ⟨hk, hfk, -⟩ := Lib.first_eq_some.mp hfirst
      exact ⟨fun _ => .inl ⟨k, hk, by simpa using hfk⟩, fun _ => Lib.first_mono hfirst le_looked⟩
    | none =>
      have hnot := Lib.first_eq_none.mp hfirst
      rw [Lib.first_eq_none]
      constructor
      · exact fun h => .inr fun j _ hj => by simpa using h j hj
      · rintro (⟨j, hj, he⟩ | h) i hi
        · simpa [he] using hnot j hj
        · rcases Nat.lt_or_ge i n with hlt | hge
          · exact hnot i hlt
          · simpa using h i hge hi
  · rename_i hwide
    have hnone : first (fun j => ((f j).toNat : Int) == c) (looked x n) = none :=
      Lib.first_eq_none.mpr fun j _ => by
        have hlt := (f j).toNat_lt
        simp only [beq_eq_false_iff_ne, ne_eq]
        omega
    rw [hnone, eq_comm, Lib.first_eq_none]
    simp only [beq_eq_false_iff_ne, ne_eq]

theorem memchr_bounded (hc : Coherent m h) (hx : x < 2 ^ 60)
    (hcur : ∀ j < n, h.Current ((x + j) / objSize)) : Memchrs m h (startAddr + x) c n ↔
      Bounded x (fun j => h.view m (startAddr + x + j)) c n := by
  obtain ⟨h', hr, -⟩ := carmMemchr_scan (c := c) hc hx hcur
  rw [← first_bounded]
  constructor
  · rintro ⟨h'', hr'⟩
    have he := congrArg Prod.snd (Except.ok.inj (hr.symm.trans hr'))
    exact hitAddr_inj (Nat.add_pos_left (by decide) x) he
  · intro he
    exact ⟨h', by rw [hr, he]⟩

-- ---------------------------------------------------------------------------
-- carm_wmemchr
-- ---------------------------------------------------------------------------

def wide (f : Nat → UInt8) (i : Nat) : Nat :=
  (f (4 * i)).toNat + 2 ^ 8 * (f (4 * i + 1)).toNat + 2 ^ 16 * (f (4 * i + 2)).toNat +
    2 ^ 24 * (f (4 * i + 3)).toNat

/-- The call returns the first of the first `n` elements that equals `c`. -/
def Wmemchrs (h : Heap) (s : Nat) (c : Int) (n : Nat) : Prop :=
  carmWmemchr h s c n = .ok (hitAddr s ((first (fun i =>
    (wide (fun j => h.mem (s + j)) i : Int) == c % 2 ^ 32) n).map (4 * ·)))

/-- A search for the low byte of `c` in `n` bytes gets to the element. -/
def Leads (f : Nat → UInt8) (c : Int) (n : Nat) : Prop :=
  (∀ j < n, f j ≠ lowByte c) ∧ (∀ i < n, (wide f i : Int) ≠ c % 2 ^ 32) ∨
    ∃ i, 4 * i < n ∧ (wide f i : Int) = c % 2 ^ 32 ∧ ∀ j < 4 * i, f j ≠ lowByte c

theorem wide_lowByte (hw : (wide f i : Int) = c % 2 ^ 32) : f (4 * i) = lowByte c := by
  have hlt := (f (4 * i)).toNat_lt
  rw [← UInt8.toNat_inj, ← Int.natCast_inj, lowByte_toNat]
  unfold wide at hw
  omega

theorem first_leads : first (fun j => f j == lowByte c) n =
    (first (fun i => (wide f i : Int) == c % 2 ^ 32) n).map (4 * ·) ↔ Leads f c n := by
  cases hfirst : first (fun i => (wide f i : Int) == c % 2 ^ 32) n with
  | none =>
    have hnot := Lib.first_eq_none.mp hfirst
    simp only [beq_eq_false_iff_ne, ne_eq] at hnot
    simp only [Option.map_none, Lib.first_eq_none, beq_eq_false_iff_ne, ne_eq]
    constructor
    · exact fun h => .inl ⟨h, hnot⟩
    · rintro (⟨h, -⟩ | ⟨i, hi, hw, -⟩)
      · exact h
      · exact absurd hw (hnot i (by omega))
  | some k =>
    obtain ⟨hk, hwk, hbefore⟩ := Lib.first_eq_some.mp hfirst
    simp only [beq_iff_eq, beq_eq_false_iff_ne, ne_eq] at hwk hbefore
    simp only [Option.map_some, Lib.first_eq_some, beq_iff_eq, beq_eq_false_iff_ne, ne_eq]
    constructor
    · rintro ⟨hlt, -, h⟩
      exact .inr ⟨k, hlt, hwk, h⟩
    · rintro (⟨-, h⟩ | ⟨i, hi, hw, h⟩)
      · exact absurd hwk (h k hk)
      · obtain rfl : k = i := by
          rcases Nat.lt_trichotomy k i with hlt | he | hgt
          · exact absurd (wide_lowByte hwk) (h (4 * k) (by omega))
          · exact he
          · exact absurd hw (hbefore i hgt)
        exact ⟨hi, wide_lowByte hw, h⟩

theorem wmemchr_leads (hs : 0 < s) (htag : checkCarmObject s = false) :
    Wmemchrs h s c n ↔ Leads (fun j => h.mem (s + j)) c n := by
  have hcall : carmWmemchr h s c n = .ok (h.memchr s c n) := by
    rw [carmWmemchr, htag]
    rfl
  rw [← first_leads, Wmemchrs, hcall, memchr]
  constructor
  · exact fun he => hitAddr_inj hs (Except.ok.inj he)
  · exact fun he => by rw [he]

theorem memchr_iff (m : Manager) (h : Heap) (c : Int) (n : Nat) :
    (∀ x, Coherent m h → x < 2 ^ 60 → (∀ j < n, h.Current ((x + j) / objSize)) →
      (Memchrs m h (startAddr + x) c n ↔
        Bounded x (fun j => h.view m (startAddr + x + j)) c n)) ∧
    ∀ s, 0 < s → checkCarmObject s = false →
      (Wmemchrs h s c n ↔ Leads (fun j => h.mem (s + j)) c n) :=
  ⟨fun _ hc hx hcur => memchr_bounded hc hx hcur, fun _ hs htag => wmemchr_leads hs htag⟩

/-- The byte is in the object after the one the search starts in; the second
element of a local wide string. -/
theorem memchr_iff_found :
    Memchrs cacheManager (parkedOver [0, 1] (fun a => if a = startAddr + 4098 then 66 else 65)
      fun a => if a = 100 then 65 else if a = 104 then 66 else 0) (startAddr + 4090) 66 100 ∧
    Wmemchrs (parkedOver [0, 1] (fun a => if a = startAddr + 4098 then 66 else 65)
      fun a => if a = 100 then 65 else if a = 104 then 66 else 0) 100 66 100 := by
  have hpark : Parkable [0, 1] := ⟨by decide, by decide, by decide, by decide⟩
  have hslot : ∀ j < 100, (4090 + j) / objSize ∈ [0, 1] := fun j hj => by
    obtain he | he : (4090 + j) / objSize = 0 ∨ (4090 + j) / objSize = 1 := by
      simp only [objSize]
      omega
    · simp [he]
    · simp [he]
  have hiff := memchr_iff cacheManager (parkedOver [0, 1]
    (fun a => if a = startAddr + 4098 then 66 else 65)
    fun a => if a = 100 then 65 else if a = 104 then 66 else 0) 66 100
  constructor
  · refine (hiff.1 4090 (parkedOver_coherent hpark) (by decide) fun j hj =>
      parkedOver_current hpark (hslot j hj)).mpr (.inl ⟨8, by decide, ?_⟩)
    exact (parkedOver_view hpark (hslot 8 (by decide))).trans (by decide)
  · exact (hiff.2 100 (by decide) (by decide)).mpr (.inr ⟨1, by decide, by decide, by decide⟩)

/-- A match after the bound is found. -/
theorem memchr_overruns : ¬((∀ m h x c n, Coherent m h → x < 2 ^ 60 →
      (∀ j < n, h.Current ((x + j) / objSize)) → Memchrs m h (startAddr + x) c n) ∧
    ∀ h s c n, 0 < s → checkCarmObject s = false → Wmemchrs h s c n) := by
  rintro ⟨hall, -⟩
  have hpark : Parkable [0] := ⟨by decide, by decide, by decide, by decide⟩
  have hc : Coherent cacheManager (parked [0] fun a => if a = startAddr + 1 then 7 else 0) :=
    parked_coherent hpark
  have hcur : ∀ j < 1, (parked [0] fun a => if a = startAddr + 1 then 7 else 0).Current
      ((0 + j) / objSize) := fun j hj => by
    obtain rfl := Nat.lt_one_iff.mp hj
    exact parked_current hpark (by decide)
  have hb := (memchr_bounded hc (by decide) hcur).mp (hall _ _ 0 7 1 hc (by decide) hcur)
  rcases hb with ⟨j, hj, he⟩ | hrest
  · obtain rfl := Nat.lt_one_iff.mp hj
    exact absurd he (by decide)
  · exact hrest 1 (Nat.le_refl 1) (by decide) (by decide)

end Heap

end TrackFM
