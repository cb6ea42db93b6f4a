import TrackFM.Format

/-!
# The formatted output of the libc layer

`carm_vsnprintf` of `libc_support.cpp`, and `carm_sprintf` and `carm_fprintf`,
which get the size they format with from `get_size_of_valist`. That size has one
byte for each character and one for each `%s`, and none for the terminator.
-/

namespace TrackFM

open Heap (scanFuel carmStrlen carmMemcpy intSize)

variable {h h' : Heap}

-- ---------------------------------------------------------------------------
-- carm_vsnprintf
-- ---------------------------------------------------------------------------

abbrev maxVaStrSize : Nat := 4096

/-- An `int` passed on as a `uint64_t`. -/
def sizeOfInt (n : Nat) : Nat :=
  if u32 n < 2 ^ 31 then u32 n else 2 ^ 64 - 2 ^ 32 + u32 n

/-- The buffers of a call: `temp` of `__vsn_printf` and `tmp` of
`carm_vsnprintf`. -/
structure Scratch where
  temp : Nat
  tmp : Nat

structure FwriteCall where
  heap : Heap
  ptr : Nat
  size : Nat
  nmemb : Nat

def FwriteCall.bytes (call : FwriteCall) : List UInt8 :=
  (List.range (call.size * call.nmemb)).map fun j => call.heap.mem (call.ptr + j)

namespace Heap

/-- Format one argument at `temp`. `numchar` is local, so its copy is a plain
one. -/
def vsnDirective (libc : Libc) (m : Manager) (h : Heap) (temp : Nat) (ns : Numeric) :
    UInt8 → Outcome (Heap × Nat)
  | 115 => do
    let (h, len) ← carmStrlen m h ns.p
    let sizeVarg := intSize len
    let (h, _) ← carmMemcpy m h temp ns.p sizeVarg
    return (h, sizeVarg)
  | 100 => .ok (h.putText temp (signed ns.i), (signed ns.i).length)
  | 117 => .ok (h.putText temp (decimal ns.ui), (decimal ns.ui).length)
  | 103 | 102 => .ok (h.putText temp (libc.fixed ns.f), (libc.fixed ns.f).length)
  | _ => .error .exit

def vsnPrintfLoop (libc : Libc) (m : Manager) (vargsValues : Nat → Numeric) :
    List UInt8 → Nat → Heap → Nat → Nat → Outcome (Heap × Nat)
  | [], _, h, _, size => .ok (h, size)
  | c :: format, i, h, temp, size =>
    if c = percent then
      match format with
      | [] => .error .exit
      | d :: format => do
        let (h, n) ← vsnDirective libc m h temp (vargsValues i) d
        vsnPrintfLoop libc m vargsValues format (i + 1) h (u64 (temp + n)) (u32 (size + 1 + n))
    else
      vsnPrintfLoop libc m vargsValues format i (h.putText temp [c]) (temp + 1) (u32 (size + 1))

def vsnPrintf (libc : Libc) (m : Manager) (h : Heap) (temp str : Nat) (format : List UInt8)
    (vargsValues : Nat → Numeric) : Outcome (Heap × Int) := do
  let h := h.memset temp 0 (maxVaArgs * maxVaStrSize)
  let (h, size) ← vsnPrintfLoop libc m vargsValues format 0 h temp 0
  let (h, _) ← carmMemcpy m h str temp (sizeOfInt size)
  return (h, intOf size)

def carmVsnprintf (libc : Libc) (m : Manager) (buf : Scratch) (nsArray : Nat → Numeric) (h : Heap)
    (str size : Nat) (format : List UInt8) (va : VaList) : Outcome (Heap × Int) := do
  let (vargsValues, vargsIsCptr) := parseVaList (parseVaArgTypes 0 format) 0 nsArray va false
  if !vargsIsCptr then
    if !checkCarmObject str then libc.vsnprintf h str size format va
    else
      let (h, ret) ← libc.vsnprintf h buf.tmp size format va
      let (h, _) ← carmMemcpy m h str buf.tmp size
      return (h, ret)
  else vsnPrintf libc m h buf.temp str format vargsValues

-- ---------------------------------------------------------------------------
-- The size of a text
-- ---------------------------------------------------------------------------

def sizeDirective (libc : Libc) (m : Manager) (h : Heap) (ns : Numeric) :
    UInt8 → Outcome (Heap × Nat)
  | 115 => (carmStrlen m h ns.p).map fun (h, len) => (h, intSize len)
  | 100 => .ok (h, (signed ns.i).length)
  | 117 => .ok (h, (decimal ns.ui).length)
  | 103 | 102 => .ok (h, (libc.fixed ns.f).length)
  | _ => .error .exit

def getSizeLoop (libc : Libc) (m : Manager) (vargsValues : Nat → Numeric) :
    List UInt8 → Nat → Heap → Nat → Outcome (Heap × Nat)
  | [], _, h, size => .ok (h, size)
  | c :: format, i, h, size =>
    if c = percent then
      match format with
      | [] => .error .exit
      | d :: format => do
        let (h, n) ← sizeDirective libc m h (vargsValues i) d
        getSizeLoop libc m vargsValues format (i + 1) h (u32 (size + n))
    else getSizeLoop libc m vargsValues format i h (u32 (size + 1))

/-- The contents of `ns_array` stay behind. -/
def getSizeOfValist (libc : Libc) (m : Manager) (nsArray : Nat → Numeric) (h : Heap)
    (format : List UInt8) (va : VaList) : Outcome (Heap × (Nat → Numeric) × Nat) := do
  let (vargsValues, _) := parseVaList (parseVaArgTypes 0 format) 0 nsArray va false
  let (h, size) ← getSizeLoop libc m vargsValues format 0 h 0
  return (h, vargsValues, size)

def carmSprintf (libc : Libc) (m : Manager) (buf : Scratch) (nsArray : Nat → Numeric) (h : Heap)
    (str : Nat) (format : List UInt8) (va : VaList) : Outcome (Heap × Int) := do
  let (h, nsArray, size) ← getSizeOfValist libc m nsArray h format va
  carmVsnprintf libc m buf nsArray h str (sizeOfInt size) format va

/-- `tmp` is the block `malloc` returns; the call of `carm_fwrite` is the one
made at the end. -/
def carmFprintf (libc : Libc) (m : Manager) (buf : Scratch) (nsArray : Nat → Numeric) (h : Heap)
    (tmp : Nat) (format : List UInt8) (va : VaList) : Outcome (FwriteCall × Int) := do
  let (h, nsArray, size) ← getSizeOfValist libc m nsArray h format va
  let (h, ret) ← carmVsnprintf libc m buf nsArray h tmp (sizeOfInt size) format va
  return (⟨h, tmp, 1, sizeOfInt size⟩, ret)

end Heap

-- ---------------------------------------------------------------------------
-- The size and the text
-- ---------------------------------------------------------------------------

theorem u32_sizeOfInt : u32 (sizeOfInt n) = u32 n := by
  simp only [sizeOfInt, u32]
  split <;> omega

theorem sizeOfInt_eq (hn : n < 2 ^ 31) : sizeOfInt n = n := by
  have hu : u32 n = n := Nat.mod_eq_of_lt (by omega)
  rw [sizeOfInt, hu]
  exact if_pos hn

/-- An overflow makes a size larger. -/
theorem lt_sizeOfInt (hn : n < 2 ^ 31) (hk : 0 < k) (hlt : k ≤ maxVaArgs) :
    n < sizeOfInt (n + k) := by
  have hu : u32 (n + k) = n + k := Nat.mod_eq_of_lt (by simp only [maxVaArgs] at hlt; omega)
  rw [sizeOfInt, hu]
  split <;> omega

theorem intOf_eq (hn : n < 2 ^ 31) : intOf n = n :=
  Int.bmod_eq_of_le (by omega) (by omega)

section
variable {libc : Libc} {m : Manager} {buf : Scratch} {vals nsArray : Nat → Numeric}
  {ws : Nat → Nat} {va : VaList} {items : List Item} {t : List UInt8} {d : Directive} {ns : Numeric}

def Directive.extra : Directive → Nat
  | .str => 1
  | _ => 0

theorem Directive.Prints.size (libc : Libc) (m : Manager) (hd : d.Prints (LocalString h) w s)
    (ht : d.Takes w ns) (hlt : s.length < scanFuel) : ∃ n, Heap.sizeDirective libc m h ns d.char = .ok (h, n) ∧
      u32 n = u32 (s.length + d.extra) := by
  cases d with
  | str =>
    have hs : LocalString h w s := hd
    have hw : ns.p = w := ht
    refine ⟨intSize s.length, ?_, u32_sizeOfInt (n := s.length + 1)⟩
    rw [Directive.char, Heap.sizeDirective, carmStrlen, hw, hs.untagged, hs.strlen hlt]
    rfl
  | dec =>
    refine ⟨s.length, ?_, rfl⟩
    rw [show s = _ from hd, ← show ns.i = _ from ht]
    rfl
  | uns =>
    refine ⟨s.length, ?_, rfl⟩
    rw [show s = _ from hd, ← show ns.ui = _ from ht]
    rfl

def strings (items : List Item) : Nat := (directives items).count .str

theorem strings_arg : strings (.arg d :: items) = d.extra + strings items := by
  rw [strings, directives, List.count_cons, Nat.add_comm]
  cases d <;> rfl

theorem Heap.getSizeLoop_lit (hc : c ≠ percent) :
    Heap.getSizeLoop libc m vals (c :: format) i h size =
      Heap.getSizeLoop libc m vals format i h (u32 (size + 1)) := by
  rw [Heap.getSizeLoop.eq_def]
  exact if_neg hc

theorem Heap.getSizeLoop_directive (hd : Heap.sizeDirective libc m h (vals i) c = .ok (h', n)) :
    Heap.getSizeLoop libc m vals (percent :: c :: format) i h size =
      Heap.getSizeLoop libc m vals format (i + 1) h' (u32 (size + n)) := by
  rw [Heap.getSizeLoop.eq_def]
  simp only [if_true, hd]
  rfl

theorem Expands.counts (libc : Libc) (m : Manager) (hx : Expands (LocalString h) ws i items t)
    (hs : Supplied vals ws i (directives items)) (hlt : t.length < scanFuel) (hk : k < 2 ^ 32) :
    Heap.getSizeLoop libc m vals (spelling items) i h k =
      .ok (h, u32 (k + (t.length + strings items))) := by
  induction hx generalizing k with
  | nil => exact congrArg (fun n => Except.ok (h, n)) (Nat.mod_eq_of_lt hk).symm
  | @lit i items t c hx ih =>
    rw [List.length_cons] at hlt ⊢
    have hsum : u32 (u32 (k + 1) + (t.length + strings items)) =
        u32 (k + (t.length + 1 + strings items)) := by
      simp only [u32]
      omega
    rw [spelling, Heap.getSizeLoop_lit c.property.2, ih hs (Nat.lt_of_succ_lt hlt)
      (Nat.mod_lt _ (by decide)), hsum]
    rfl
  | @arg i items t d s hd hx ih =>
    rw [List.length_append] at hlt ⊢
    obtain ⟨n, hn, hu⟩ := hd.size libc m hs.head
      (Nat.lt_of_le_of_lt (Nat.le_add_right _ _) hlt)
    have hsum : u32 (u32 (k + n) + (t.length + strings items)) =
        u32 (k + (s.length + t.length + strings (.arg d :: items))) := by
      simp only [u32, strings_arg] at hu ⊢
      omega
    rw [spelling, Heap.getSizeLoop_directive hn, ih hs.tail
      (Nat.lt_of_le_of_lt (Nat.le_add_left _ _) hlt) (Nat.mod_lt _ (by decide)), hsum]

theorem VaList.from_zero : va.From va.words 0 := fun k => by rw [Nat.zero_add]

theorem Expands.untagged (hx : Expands (LocalString h) ws i items t)
    (hk : (directives items)[k]? = some .str) : checkCarmObject (ws (i + k)) = false := by
  induction hx generalizing k with
  | nil => cases hk
  | lit hx ih => exact ih hk
  | @arg i items t d s hd hx ih =>
    cases k with
    | zero =>
      obtain rfl : d = .str := Option.some.inj hk
      have hs : LocalString h (ws i) s := hd
      exact hs.untagged
    | succ k =>
      rw [← Nat.add_assoc, Nat.add_right_comm]
      exact ih hk

theorem Expands.carmVsnprintf (hx : Expands (LocalString h) va.words 0 items t)
    (hlt : t.length < 2 ^ 31) (hstr : checkCarmObject str = false) :
    Heap.carmVsnprintf libc m buf nsArray h str size (spelling items) va =
      .ok (h.putBounded str size t, t.length) := by
  have hcptr : (parseVaList (parseVaArgTypes 0 (spelling items)) 0 nsArray va false).2 = false := by
    rw [parse_spelling (by decide), ← Bool.not_eq_true, parseVaList_cptr VaList.from_zero]
    rintro (h | ⟨k, hk, ht⟩)
    · cases h
    · cases ht.symm.trans (hx.untagged hk)
  have hfuel : t.length < scanFuel := by
    simp only [scanFuel]
    omega
  simp only [Heap.carmVsnprintf, hcptr, hstr, Libc.vsnprintf, hx.expand VaList.from_zero hfuel]
  rw [← intOf_eq hlt]
  rfl

theorem Expands.getSizeOfValist (libc : Libc) (m : Manager) (nsArray : Nat → Numeric)
    (hx : Expands (LocalString h) va.words 0 items t) (hlt : t.length < 2 ^ 31) : ∃ nsArray',
      Heap.getSizeOfValist libc m nsArray h (spelling items) va =
        .ok (h, nsArray', u32 (t.length + strings items)) := by
  have hfuel : t.length < scanFuel := by
    simp only [scanFuel]
    omega
  refine ⟨(parseVaList (parseVaArgTypes 0 (spelling items)) 0 nsArray va false).1, ?_⟩
  have hs : Supplied (parseVaList (parseVaArgTypes 0 (spelling items)) 0 nsArray va false).1
      va.words 0 (directives items) := by
    rw [parse_spelling (by decide)]
    exact parseVaList_supplied VaList.from_zero
  have hcount := hx.counts libc m hs hfuel (k := 0) (by decide)
  rw [Nat.zero_add] at hcount
  simp only [Heap.getSizeOfValist, hcount]
  rfl

end

-- ---------------------------------------------------------------------------
-- carm_sprintf
-- ---------------------------------------------------------------------------

section
variable {libc : Libc} {m : Manager} {buf : Scratch} {nsArray : Nat → Numeric} {va : VaList}
  {fmt : Format} {t : List UInt8}

/-- The call leaves the text and its NUL at `str`, changes nothing else and returns
the length. -/
def Sprintfs (libc : Libc) (m : Manager) (buf : Scratch) (nsArray : Nat → Numeric) (h : Heap)
    (str : Nat) (fmt : Format) (va : VaList) (t : List UInt8) : Prop :=
  Heap.carmSprintf libc m buf nsArray h str (spelling fmt.items) va =
    .ok (h.putText str (t ++ [0]), t.length)

/-- The bytes handed to `carm_fwrite` are the text, and the call returns its
length. -/
def Fprintfs (libc : Libc) (m : Manager) (buf : Scratch) (nsArray : Nat → Numeric) (h : Heap)
    (tmp : Nat) (fmt : Format) (va : VaList) (t : List UInt8) : Prop :=
  ∃ call, Heap.carmFprintf libc m buf nsArray h tmp (spelling fmt.items) va = .ok (call, t.length) ∧
    call.bytes = t

def Format.size (fmt : Format) (t : List UInt8) : Nat :=
  sizeOfInt (u32 (t.length + strings fmt.items))

theorem sprintf_eq (hx : Expands (LocalString h) va.words 0 fmt.items t) (hlt : t.length < 2 ^ 31)
    (hstr : checkCarmObject str = false) :
    Heap.carmSprintf libc m buf nsArray h str (spelling fmt.items) va =
      .ok (h.putBounded str (fmt.size t) t, t.length) := by
  obtain ⟨nsArray', hsize⟩ := hx.getSizeOfValist libc m nsArray hlt
  rw [Heap.carmSprintf, hsize]
  exact hx.carmVsnprintf hlt hstr

theorem fprintf_eq (hx : Expands (LocalString h) va.words 0 fmt.items t) (hlt : t.length < 2 ^ 31)
    (htmp : checkCarmObject tmp = false) :
    Heap.carmFprintf libc m buf nsArray h tmp (spelling fmt.items) va =
      .ok (⟨h.putBounded tmp (fmt.size t) t, tmp, 1, fmt.size t⟩, t.length) := by
  obtain ⟨nsArray', hsize⟩ := hx.getSizeOfValist libc m nsArray hlt
  rw [Heap.carmFprintf, hsize]
  show (Heap.carmVsnprintf libc m buf nsArray' h tmp _ (spelling fmt.items) va >>= _) = _
  rw [hx.carmVsnprintf hlt htmp]
  rfl

theorem Format.strings_le : strings fmt.items ≤ maxVaArgs :=
  List.count_le_length.trans fmt.few

/-- A string leaves room for the NUL. -/
theorem Format.lt_size (hlt : t.length < 2 ^ 31) (hstr : .str ∈ directives fmt.items) :
    t.length < fmt.size t := by
  have hpos : 0 < strings fmt.items := List.count_pos_iff.mpr hstr
  have hle := fmt.strings_le
  have hu : u32 (t.length + strings fmt.items) = t.length + strings fmt.items :=
    Nat.mod_eq_of_lt (by simp only [maxVaArgs] at hle; omega)
  rw [Format.size, hu]
  exact lt_sizeOfInt hlt hpos hle

theorem Format.size_eq (hlt : t.length < 2 ^ 31) (hstr : .str ∉ directives fmt.items) :
    fmt.size t = t.length := by
  have hu : u32 t.length = t.length := Nat.mod_eq_of_lt (by omega)
  rw [Format.size, strings, List.count_eq_zero.mpr hstr, Nat.add_zero, hu, sizeOfInt_eq hlt]

theorem Expands.nil_text (hx : Expands S ws i [] t) : t = [] := by
  cases hx
  rfl

/-- Without a string the NUL takes the last character's place. -/
theorem bounded_last (hx : Expands (LocalString h) va.words 0 fmt.items t)
    (hlt : t.length < 2 ^ 31) (hstr : .str ∉ directives fmt.items) (hne : fmt.items ≠ []) :
    ∃ hj : t.length - 1 < t.length,
      (h.putBounded a (fmt.size t) t).mem (a + (t.length - 1)) ≠ t[t.length - 1] := by
  have ht := hx.ne_nil hne hstr
  refine ⟨Nat.sub_one_lt (by simpa using ht), ?_⟩
  rw [Format.size_eq hlt hstr, Heap.putBounded_short ht]
  exact (hx.nonzero (fun _ _ hs => hs.nonzero) _ (List.getElem_mem _)).symm

theorem sprintf_iff (hx : Expands (LocalString h) va.words 0 fmt.items t) (hlt : t.length < 2 ^ 31)
    (htag : checkCarmObject str = false) : Sprintfs libc m buf nsArray h str fmt va t ↔
      .str ∈ directives fmt.items ∨ fmt.items = [] ∧ h.mem str = 0 := by
  rw [Sprintfs, sprintf_eq hx hlt htag]
  simp only [Except.ok.injEq, Prod.mk.injEq, and_true]
  by_cases hstr : .str ∈ directives fmt.items
  · simp [hstr, Heap.putBounded_room (Format.lt_size hlt hstr)]
  rw [or_iff_right hstr]
  by_cases hne : fmt.items = []
  · -- nothing is written
    rw [hne] at hx
    obtain rfl := hx.nil_text
    have hsize : fmt.size [] = 0 := Format.size_eq hlt hstr
    rw [hsize, Heap.putBounded, if_pos rfl]
    constructor
    · intro he
      refine ⟨hne, ?_⟩
      rw [he]
      exact Heap.putText_at (a := str) (j := 0) (t := [0]) (by decide)
    · rintro ⟨-, hz⟩
      refine (Heap.putText_same fun j hj => ?_).symm
      obtain rfl : j = 0 := Nat.lt_one_iff.mp hj
      exact hz
  · obtain ⟨hj, hlast⟩ := bounded_last (a := str) hx hlt hstr hne
    refine iff_of_false (fun he => hlast ?_) fun h => hne h.1
    have hroom : t.length - 1 < (t ++ [0]).length := by
      rw [List.length_append]
      exact Nat.lt_add_right _ hj
    rw [he, Heap.putText_at hroom, List.getElem_append_left hj]

theorem FwriteCall.bytes_length {call : FwriteCall} :
    call.bytes.length = call.size * call.nmemb := by
  simp [FwriteCall.bytes]

theorem FwriteCall.bytes_at {call : FwriteCall} {hj : j < call.bytes.length} :
    call.bytes[j] = call.heap.mem (call.ptr + j) := by
  simp [FwriteCall.bytes]

theorem fprintf_iff (hx : Expands (LocalString h) va.words 0 fmt.items t) (hlt : t.length < 2 ^ 31)
    (htag : checkCarmObject tmp = false) : Fprintfs libc m buf nsArray h tmp fmt va t ↔
      fmt.items = [] := by
  rw [Fprintfs, fprintf_eq hx hlt htag]
  constructor
  · rintro ⟨call, hcall, hbytes⟩
    cases hcall
    by_contra hne
    have hlen := congrArg List.length hbytes
    rw [FwriteCall.bytes_length, Nat.one_mul] at hlen
    by_cases hstr : .str ∈ directives fmt.items
    · exact Nat.ne_of_gt (Format.lt_size hlt hstr) hlen
    · obtain ⟨hj, hlast⟩ := bounded_last (a := tmp) hx hlt hstr hne
      exact hlast ((List.getElem_of_eq hbytes.symm hj).trans FwriteCall.bytes_at).symm
  · intro hne
    have hstr : .str ∉ directives fmt.items := by simp [hne, directives]
    rw [hne] at hx
    obtain rfl := hx.nil_text
    have hsize : fmt.size [] = 0 := Format.size_eq hlt hstr
    refine ⟨_, rfl, ?_⟩
    rw [FwriteCall.bytes, hsize]
    rfl

/-- `carm_sprintf` is right if the format has a string, and if there is nothing to
write; `carm_fprintf` for the empty format only. -/
theorem printf_iff (hx : Expands (LocalString h) va.words 0 fmt.items t) (hlt : t.length < 2 ^ 31)
    (hstr : checkCarmObject str = false) (htmp : checkCarmObject tmp = false) :
    (Sprintfs libc m buf nsArray h str fmt va t ↔
      .str ∈ directives fmt.items ∨ fmt.items = [] ∧ h.mem str = 0) ∧
    (Fprintfs libc m buf nsArray h tmp fmt va t ↔ fmt.items = []) :=
  ⟨sprintf_iff hx hlt hstr, fprintf_iff hx hlt htmp⟩

end

def noFloats : Libc := ⟨fun _ => [], fun _ _ _ => .error .exit⟩

def heapWithB : Heap := (init (fun _ => none) fun a => if a = 100 then 98 else 0).heap

theorem heapWithB_string : LocalString heapWithB 100 [98] where
  untagged := by decide
  chars j hj := by
    obtain rfl := Nat.lt_one_iff.mp hj
    rfl
  nonzero c hc := by
    rw [List.mem_singleton.mp hc]
    decide
  nul := rfl

def letterString : Format := ⟨[.lit ⟨97, by decide⟩, .arg .str], by decide⟩

def addressOfB : VaList := ⟨fun _ => 100, fun _ => 0⟩

theorem letterString_expands :
    Expands (LocalString heapWithB) addressOfB.words 0 letterString.items [97, 98] :=
  .lit (.arg (d := .str) (s := [98]) heapWithB_string .nil)

theorem printf_iff_string : Sprintfs noFloats cacheManager ⟨5000, 9000⟩ (fun _ => ⟨.Cd, 0, 0, 0, 0, 0⟩)
    heapWithB 200 letterString addressOfB [97, 98] :=
  (printf_iff letterString_expands (by decide) (by decide)
    (show checkCarmObject 300 = false by decide)).1.mpr (.inl (by decide))

def letter : Format := ⟨[.lit ⟨97, by decide⟩], by decide⟩

theorem printf_drops_last : ¬∀ libc m buf nsArray h str tmp va t (fmt : Format),
    Expands (LocalString h) va.words 0 fmt.items t → t.length < 2 ^ 31 →
    checkCarmObject str = false → checkCarmObject tmp = false →
    Sprintfs libc m buf nsArray h str fmt va t ∧ Fprintfs libc m buf nsArray h tmp fmt va t := by
  intro hall
  have hx : Expands (LocalString heapWithB) (fun _ => 0) 0 letter.items [97] := .lit .nil
  obtain ⟨hs, hf⟩ := hall noFloats cacheManager ⟨5000, 9000⟩ (fun _ => ⟨.Cd, 0, 0, 0, 0, 0⟩) heapWithB
    200 300 ⟨fun _ => 0, fun _ => 0⟩ [97] letter hx (by decide) (by decide) (by decide)
  rcases (sprintf_iff hx (by decide) (by decide)).mp hs with h | ⟨h, -⟩
  · exact absurd h (by decide)
  · cases h

end TrackFM
