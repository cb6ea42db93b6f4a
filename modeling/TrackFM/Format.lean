import TrackFM.Strings

/-!
# Formats and their arguments

The format scanner of `libc_support.cpp` and its walk over the arguments, and
libc's `vsnprintf`. A format is the list of its characters up to the NUL. An
argument list has its words and its doubles apart, as the registers have them; a
copy of it is the same value. A double is its bits.
-/

namespace TrackFM

open Heap (scanFuel strlen)

variable {h : Heap}

abbrev percent : UInt8 := 37

def intOf (w : Nat) : Int := (w : Int).bmod (2 ^ 32)

-- ---------------------------------------------------------------------------
-- The scanner
-- ---------------------------------------------------------------------------

/-- `fcodes` -/
inductive FCode where
  | Cd | Cu | Co | Cx | CX | Cf | CF | Ce | CE | Cg | CG | Ca | CA | Cc | Cs | Cp | Cn | Cps | Cl
  deriving DecidableEq, Repr

def fp : List Char :=
  ['d', 'u', 'o', 'x', 'X', 'f', 'F', 'e', 'E', 'g', 'G', 'a', 'A', 'c', 's', 'p', 'n', '%', 'l']

def fcodes : List FCode :=
  [.Cd, .Cu, .Co, .Cx, .CX, .Cf, .CF, .Ce, .CE, .Cg, .CG, .Ca, .CA, .Cc, .Cs, .Cp, .Cn, .Cps, .Cl]

/-- `none` is the -1 of `find`. -/
def getType (a : UInt8) : Option FCode := ((fp.map Char.toUInt8).zip fcodes).lookup a

/-- `prev` is the character before, and 0 at the start. -/
def parseVaArgTypes (prev : UInt8) : List UInt8 → List FCode
  | [] => []
  | c :: fmt =>
    if prev = percent then
      match getType c with
      | none | some .Cps | some .Cn => parseVaArgTypes c fmt
      | some type => type :: parseVaArgTypes c fmt
    else parseVaArgTypes c fmt

-- ---------------------------------------------------------------------------
-- The arguments
-- ---------------------------------------------------------------------------

abbrev maxVaArgs : Nat := 32

/-- What follows the last argument is read like one. -/
structure VaList where
  words : Nat → Nat
  doubles : Nat → UInt64

namespace VaList

def word (va : VaList) : Nat := va.words 0

def double (va : VaList) : UInt64 := va.doubles 0

def nextWord (va : VaList) : VaList := { va with words := fun k => va.words (k + 1) }

def nextDouble (va : VaList) : VaList := { va with doubles := fun k => va.doubles (k + 1) }

end VaList

structure Numeric where
  type : FCode
  i : Int
  f : UInt64
  ui : Nat
  p : Nat
  l : Int

/-- The value, the arguments after it, and whether it is a remote address. -/
def getVaArgsValue (ns : Numeric) (va : VaList) : FCode → Numeric × VaList × Bool
  | .Cd | .CF | .Ce | .CE | .Cg | .CG | .Cc =>
    ({ ns with i := intOf va.word, type := .Cd }, va.nextWord, false)
  | .Cu | .Co | .Cx | .CX => ({ ns with ui := u32 va.word, type := .Cu }, va.nextWord, false)
  | .Cf | .Ca | .CA => ({ ns with f := va.double, type := .Cf }, va.nextDouble, false)
  | .Cs | .Cp => ({ ns with p := va.word, type := .Cp }, va.nextWord, checkCarmObject va.word)
  | .Cl => ({ ns with l := (va.word : Int).bmod (2 ^ 64), type := .Cl }, va.nextWord, false)
  | .Cn | .Cps => (ns, va, false)

/-- The loop of `PARSE_VA_LIST` over `ns_array`. -/
def parseVaList : List FCode → Nat → (Nat → Numeric) → VaList → Bool → (Nat → Numeric) × Bool
  | [], _, nsArray, _, vargsIsCptr => (nsArray, vargsIsCptr)
  | type :: types, i, nsArray, va, vargsIsCptr =>
    let (ns, va, isCptr) := getVaArgsValue (nsArray i) va type
    parseVaList types (i + 1) (Function.update nsArray i ns) va (vargsIsCptr || isCptr)

-- ---------------------------------------------------------------------------
-- libc
-- ---------------------------------------------------------------------------

/-- `%u` -/
def decimal (n : Nat) : List UInt8 := (Nat.toDigits 10 n).map Char.toUInt8

/-- `%d` -/
def signed (i : Int) : List UInt8 :=
  if i < 0 then 45 :: decimal i.natAbs else decimal i.natAbs

namespace Heap

def text (h : Heap) (p : Nat) : Outcome (List UInt8) :=
  (h.strlen p).map fun n => (List.range n).map fun j => h.mem (p + j)

def putText (h : Heap) (a : Nat) (t : List UInt8) : Heap := h.store a t.length fun j => t.getD j 0

/-- As much of a text as there is room for, and a NUL. -/
def putBounded (h : Heap) (a size : Nat) (t : List UInt8) : Heap :=
  if size = 0 then h else h.putText a (t.take (size - 1) ++ [0])

end Heap

/-- What of libc's formatter is left open. -/
structure Libc where
  /-- `%f` -/
  fixed : UInt64 → List UInt8
  /-- A format from a directive on that is none of `%s`, `%d` and `%u`. -/
  rest : Heap → List UInt8 → VaList → Outcome (List UInt8)

namespace Libc

def expand (libc : Libc) (h : Heap) : List UInt8 → VaList → Outcome (List UInt8)
  | [], _ => .ok []
  | c :: fmt, va =>
    if c = percent then
      match fmt with
      | 115 :: fmt => do
        let s ← h.text va.word
        let t ← libc.expand h fmt va.nextWord
        return s ++ t
      | 100 :: fmt => (libc.expand h fmt va.nextWord).map (signed (intOf va.word) ++ ·)
      | 117 :: fmt => (libc.expand h fmt va.nextWord).map (decimal (u32 va.word) ++ ·)
      | fmt => libc.rest h (percent :: fmt) va
    else (libc.expand h fmt va).map (c :: ·)

def vsnprintf (libc : Libc) (h : Heap) (str size : Nat) (fmt : List UInt8) (va : VaList) :
    Outcome (Heap × Int) := do
  let t ← libc.expand h fmt va
  return (h.putBounded str size t, intOf t.length)

end Libc

-- ---------------------------------------------------------------------------
-- Formats of %s, %d and %u
-- ---------------------------------------------------------------------------

inductive Directive where
  | str
  | dec
  | uns
  deriving DecidableEq, Repr

namespace Directive

def char : Directive → UInt8
  | .str => 115
  | .dec => 100
  | .uns => 117

def code : Directive → FCode
  | .str => .Cs
  | .dec => .Cd
  | .uns => .Cu

/-- The text for the argument `w`, if `S` says which string is at an address. -/
def Prints (S : Nat → List UInt8 → Prop) (w : Nat) (t : List UInt8) : Directive → Prop
  | .str => S w t
  | .dec => t = signed (intOf w)
  | .uns => t = decimal (u32 w)

def Takes (w : Nat) (ns : Numeric) : Directive → Prop
  | .str => ns.p = w
  | .dec => ns.i = intOf w
  | .uns => ns.ui = u32 w

end Directive

inductive Item where
  | lit (c : { c : UInt8 // c ≠ 0 ∧ c ≠ percent })
  | arg (d : Directive)

def spelling : List Item → List UInt8
  | [] => []
  | .lit c :: items => c.val :: spelling items
  | .arg d :: items => percent :: d.char :: spelling items

def directives : List Item → List Directive
  | [] => []
  | .lit _ :: items => directives items
  | .arg d :: items => d :: directives items

/-- No more directives than the tables have room for. -/
structure Format where
  items : List Item
  few : (directives items).length ≤ maxVaArgs

/-- The reference expansion, from the directive with argument `i` on. -/
inductive Expands (S : Nat → List UInt8 → Prop) (ws : Nat → Nat) :
    Nat → List Item → List UInt8 → Prop
  | nil : Expands S ws i [] []
  | lit : Expands S ws i items t → Expands S ws i (.lit c :: items) (c.val :: t)
  | arg : d.Prints S (ws i) s → Expands S ws (i + 1) items t →
      Expands S ws i (.arg d :: items) (s ++ t)

structure LocalString (h : Heap) (p : Nat) (s : List UInt8) : Prop where
  untagged : checkCarmObject p = false
  chars : ∀ j (hj : j < s.length), h.mem (p + j) = s[j]
  nonzero : ∀ c ∈ s, c ≠ 0
  nul : h.mem (p + s.length) = 0

-- ---------------------------------------------------------------------------
-- The scanner on them
-- ---------------------------------------------------------------------------

theorem parse_spelling {items : List Item} (hp : prev ≠ percent) :
    parseVaArgTypes prev (spelling items) = (directives items).map Directive.code := by
  induction items generalizing prev with
  | nil => rfl
  | cons item items ih =>
    cases item with
    | lit c =>
      rw [spelling, parseVaArgTypes, if_neg hp]
      exact ih c.property.2
    | arg d =>
      rw [spelling, parseVaArgTypes, if_neg hp, parseVaArgTypes, if_pos rfl]
      cases d with
      | str => exact congrArg (FCode.Cs :: ·) (ih (by decide))
      | dec => exact congrArg (FCode.Cd :: ·) (ih (by decide))
      | uns => exact congrArg (FCode.Cu :: ·) (ih (by decide))

/-- From `i` on, each entry is read from its own argument. -/
def Supplied (nsArray : Nat → Numeric) (ws : Nat → Nat) (i : Nat) (ds : List Directive) : Prop :=
  ∀ k (d : Directive), ds[k]? = some d → d.Takes (ws (i + k)) (nsArray (i + k))

section
variable {nsArray : Nat → Numeric} {ns : Numeric} {va : VaList} {ws : Nat → Nat}

theorem Supplied.head (hs : Supplied nsArray ws i (d :: ds)) : d.Takes (ws i) (nsArray i) :=
  hs 0 d rfl

theorem Supplied.tail (hs : Supplied nsArray ws i (d :: ds)) : Supplied nsArray ws (i + 1) ds := by
  intro k d hk
  rw [Nat.add_assoc, Nat.add_comm 1 k]
  exact hs (k + 1) d hk

theorem parseVaList_before (hj : j < i) :
    (parseVaList types i nsArray va cptr).1 j = nsArray j := by
  induction types generalizing i nsArray va cptr with
  | nil => rfl
  | cons type types ih =>
    rw [parseVaList]
    simp only
    rw [ih (Nat.lt_succ_of_lt hj), Function.update_of_ne (Nat.ne_of_lt hj)]

theorem Directive.takes {d : Directive} :
    d.Takes va.word (getVaArgsValue ns va d.code).1 := by
  cases d <;> simp [Directive.Takes, Directive.code, getVaArgsValue]

theorem Directive.nextWord {d : Directive} : (getVaArgsValue ns va d.code).2.1 = va.nextWord := by
  cases d <;> rfl

def VaList.From (va : VaList) (ws : Nat → Nat) (i : Nat) : Prop := ∀ k, va.words k = ws (i + k)

theorem VaList.From.word (hva : va.From ws i) : va.word = ws i := hva 0

theorem VaList.From.nextWord (hva : va.From ws i) : va.nextWord.From ws (i + 1) := by
  intro k
  rw [Nat.add_assoc, Nat.add_comm 1 k]
  exact hva (k + 1)

theorem parseVaList_supplied {ds : List Directive} (hva : va.From ws i) :
    Supplied (parseVaList (ds.map Directive.code) i nsArray va cptr).1 ws i ds := by
  induction ds generalizing i nsArray va cptr with
  | nil => exact nofun
  | cons d ds ih =>
    rw [List.map_cons, parseVaList]
    simp only [Directive.nextWord]
    intro k e hk
    cases k with
    | zero =>
      obtain rfl : d = e := Option.some.inj hk
      rw [Nat.add_zero, parseVaList_before (Nat.lt_succ_self i), Function.update_self, ← hva.word]
      exact d.takes
    | succ k =>
      rw [← Nat.add_assoc, Nat.add_right_comm]
      exact ih hva.nextWord k e hk

theorem parseVaList_cptr {ds : List Directive} (hva : va.From ws i) :
    (parseVaList (ds.map Directive.code) i nsArray va cptr).2 = true ↔
      cptr = true ∨ ∃ k, ds[k]? = some .str ∧ checkCarmObject (ws (i + k)) = true := by
  induction ds generalizing i nsArray va cptr with
  | nil => simp [parseVaList]
  | cons d ds ih =>
    have hflag : (getVaArgsValue (nsArray i) va d.code).2.2 = true ↔
        d = .str ∧ checkCarmObject (ws i) = true := by
      rw [← hva.word]
      cases d <;> simp [getVaArgsValue, Directive.code]
    rw [List.map_cons, parseVaList]
    simp only [Directive.nextWord, ih hva.nextWord, Bool.or_eq_true, hflag, or_assoc]
    refine or_congr_right ?_
    constructor
    · rintro (⟨rfl, ht⟩ | ⟨k, hk, ht⟩)
      · exact ⟨0, rfl, ht⟩
      · exact ⟨k + 1, hk, by rwa [← Nat.add_assoc, Nat.add_right_comm]⟩
    · rintro ⟨k, hk, ht⟩
      cases k with
      | zero => exact .inl ⟨Option.some.inj hk, ht⟩
      | succ k => exact .inr ⟨k, hk, by rwa [Nat.add_right_comm]⟩

end

-- ---------------------------------------------------------------------------
-- The text of a format
-- ---------------------------------------------------------------------------

theorem decimal_ne_nil : decimal n ≠ [] := by
  simp [decimal, Nat.toDigits_ne_nil]

theorem decimal_nonzero (hc : c ∈ decimal n) : c ≠ 0 := by
  obtain ⟨d, hd, rfl⟩ := List.mem_map.mp hc
  have hdigit := Nat.isDigit_of_mem_toDigits (by decide) (by decide) hd
  rw [Char.isDigit_iff_toNat] at hdigit
  have hlo : '0'.toNat = 48 := rfl
  have hhi : '9'.toNat = 57 := rfl
  intro h
  have hz : d.toNat % 256 = 0 := congrArg UInt8.toNat h
  omega

theorem signed_ne_nil : signed i ≠ [] := by
  unfold signed
  split
  · exact List.cons_ne_nil _ _
  · exact decimal_ne_nil

theorem signed_nonzero (hc : c ∈ signed i) : c ≠ 0 := by
  unfold signed at hc
  split at hc
  · rcases List.mem_cons.mp hc with rfl | hc
    · decide
    · exact decimal_nonzero hc
  · exact decimal_nonzero hc

namespace Directive

theorem Prints.nonzero {S : Nat → List UInt8 → Prop} {d : Directive}
    (hS : ∀ p s, S p s → ∀ c ∈ s, c ≠ 0) (hd : d.Prints S w t) : ∀ c ∈ t, c ≠ 0 := by
  cases d with
  | str => exact hS w t hd
  | dec =>
    rw [show t = _ from hd]
    exact fun c => signed_nonzero
  | uns =>
    rw [show t = _ from hd]
    exact fun c => decimal_nonzero

theorem Prints.ne_nil {S : Nat → List UInt8 → Prop} {d : Directive} (hstr : d ≠ .str)
    (hd : d.Prints S w t) : t ≠ [] := by
  cases d with
  | str => exact absurd rfl hstr
  | dec =>
    rw [show t = _ from hd]
    exact signed_ne_nil
  | uns =>
    rw [show t = _ from hd]
    exact decimal_ne_nil

end Directive

section
variable {S : Nat → List UInt8 → Prop} {ws : Nat → Nat} {items : List Item} {t : List UInt8}

theorem Expands.nonzero (hS : ∀ p s, S p s → ∀ c ∈ s, c ≠ 0) (hx : Expands S ws i items t) :
    ∀ c ∈ t, c ≠ 0 := by
  induction hx with
  | nil => exact nofun
  | @lit _ _ _ c hx ih => exact List.forall_mem_cons.mpr ⟨c.property.1, ih⟩
  | arg hd hx ih => exact List.forall_mem_append.mpr ⟨hd.nonzero hS, ih⟩

/-- Only strings print nothing. -/
theorem Expands.ne_nil (hx : Expands S ws i items t) (hitems : items ≠ [])
    (hstr : .str ∉ directives items) : t ≠ [] := by
  cases hx with
  | nil => exact absurd rfl hitems
  | lit hx => exact List.cons_ne_nil _ _
  | arg hd hx =>
    have hne := hd.ne_nil fun h => hstr (h ▸ List.mem_cons_self)
    simp [hne]

end

theorem LocalString.strlen (hs : LocalString h p s) (hlt : s.length < scanFuel) :
    h.strlen p = .ok s.length := by
  have hfirst : Lib.first (fun j => h.mem (p + j) == 0) scanFuel = some s.length :=
    Lib.first_eq_some.mpr ⟨hlt, by simp [hs.nul], fun j hj => by
      simpa [hs.chars j hj] using hs.nonzero _ (List.getElem_mem hj)⟩
  rw [Heap.strlen, hfirst]

theorem LocalString.text (hs : LocalString h p s) (hlt : s.length < scanFuel) :
    h.text p = .ok s := by
  rw [Heap.text, hs.strlen hlt]
  refine congrArg Except.ok (List.ext_getElem (by simp) fun j _ hj => ?_)
  simpa using hs.chars j hj

theorem Libc.expand_lit {libc : Libc} (hc : c ≠ percent) :
    libc.expand h (c :: fmt) va = (libc.expand h fmt va).map (c :: ·) := by
  rw [Libc.expand.eq_def]
  exact if_neg hc

theorem Directive.Prints.expand {libc : Libc} {d : Directive} (hd : d.Prints (LocalString h) va.word s)
    (hlt : s.length < scanFuel) : libc.expand h (percent :: d.char :: fmt) va =
      (libc.expand h fmt va.nextWord).map (s ++ ·) := by
  rw [Libc.expand.eq_def]
  simp only [if_true]
  cases d with
  | str =>
    have hs : LocalString h va.word s := hd
    simp only [Directive.char, hs.text hlt]
    rfl
  | dec =>
    rw [show s = _ from hd]
    rfl
  | uns =>
    rw [show s = _ from hd]
    rfl

theorem Expands.expand {items : List Item} {t : List UInt8} {va : VaList} {ws : Nat → Nat}
    {libc : Libc} (hx : Expands (LocalString h) ws i items t) (hva : va.From ws i)
    (hlt : t.length < scanFuel) : libc.expand h (spelling items) va = .ok t := by
  induction hx generalizing va with
  | nil => rfl
  | @lit _ _ _ c hx ih =>
    rw [List.length_cons] at hlt
    rw [spelling, Libc.expand_lit c.property.2, ih hva (Nat.lt_of_succ_lt hlt)]
    rfl
  | arg hd hx ih =>
    rw [List.length_append] at hlt
    rw [← hva.word] at hd
    rw [spelling, hd.expand (Nat.lt_of_le_of_lt (Nat.le_add_right _ _) hlt),
      ih hva.nextWord (Nat.lt_of_le_of_lt (Nat.le_add_left _ _) hlt)]
    rfl

namespace Heap

theorem putText_mem : (h.putText a t).mem = Lib.blit h.mem a t.length fun j => t.getD j 0 := rfl

theorem putText_at {t : List UInt8} (hj : j < t.length) : (h.putText a t).mem (a + j) = t[j] := by
  rw [putText_mem, Lib.blit_at hj, List.getD_eq_getElem _ _ hj]

theorem putText_same {t : List UInt8} (ht : ∀ j (hj : j < t.length), h.mem (a + j) = t[j]) :
    h.putText a t = h := by
  have hmem : (h.putText a t).mem = h.mem := by
    funext x
    rw [putText_mem]
    by_cases hx : a ≤ x ∧ x < a + t.length
    · rw [Lib.blit_in hx.1 hx.2, List.getD_eq_getElem _ _ (by omega), ← ht (x - a) (by omega),
        Nat.add_sub_cancel' hx.1]
    · exact Lib.blit_out (by omega)
  show { h with mem := (h.putText a t).mem } = h
  rw [hmem]

theorem putBounded_room {t : List UInt8} (hlt : t.length < size) :
    h.putBounded a size t = h.putText a (t ++ [0]) := by
  rw [putBounded, if_neg (Nat.ne_of_gt (Nat.zero_lt_of_lt hlt)),
    List.take_of_length_le (Nat.le_sub_one_of_lt hlt)]

/-- The NUL takes the place of the last character. -/
theorem putBounded_short {t : List UInt8} (hne : t ≠ []) :
    (h.putBounded a t.length t).mem (a + (t.length - 1)) = 0 := by
  have hpos : 0 < t.length := List.length_pos_of_ne_nil hne
  rw [putBounded, if_neg (Nat.ne_of_gt hpos), putText_at (by simp)]
  simp

end Heap

end TrackFM
