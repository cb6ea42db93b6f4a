import TrackFM.Format

/-!
# Formats of the printf grammar

The scanner looks at the character after each percent sign and nowhere else. It
misses a conversion that flags, a width or a precision come before, and takes
the character after an escaped percent sign for one. The walk over what it finds
is the walk over the arguments as long as no double is read as an `int` before
an address.
-/

namespace TrackFM

-- ---------------------------------------------------------------------------
-- The grammar
-- ---------------------------------------------------------------------------

inductive Flag where
  | minus | plus | space | hash | zero
  deriving DecidableEq, Repr

def Flag.char : Flag → UInt8
  | .minus => 45
  | .plus => 43
  | .space => 32
  | .hash => 35
  | .zero => 48

/-- A width or a precision; `*` takes an `int` argument. -/
inductive Amount where
  | digits (ds : List (Fin 10))
  | star
  deriving DecidableEq, Repr

namespace Amount

def chars : Amount → List UInt8
  | .digits ds => ds.map fun d : Fin 10 => 48 + UInt8.ofNat d.val
  | .star => [42]

def arguments : Amount → List FCode
  | .digits _ => []
  | .star => [.Cd]

end Amount

namespace FCode

def letter : FCode → UInt8
  | .Cd => 100
  | .Cu => 117
  | .Co => 111
  | .Cx => 120
  | .CX => 88
  | .Cf => 102
  | .CF => 70
  | .Ce => 101
  | .CE => 69
  | .Cg => 103
  | .CG => 71
  | .Ca => 97
  | .CA => 65
  | .Cc => 99
  | .Cs => 115
  | .Cp => 112
  | .Cn => 110
  | .Cps => 37
  | .Cl => 108

def IsInteger (t : FCode) : Prop := t = .Cd ∨ t = .Cu ∨ t = .Co ∨ t = .Cx ∨ t = .CX

instance : DecidablePred IsInteger := fun t =>
  inferInstanceAs (Decidable (t = .Cd ∨ t = .Cu ∨ t = .Co ∨ t = .Cx ∨ t = .CX))

def isAddress : FCode → Bool
  | .Cs | .Cp => true
  | _ => false

def isDouble : FCode → Bool
  | .Cf | .CF | .Ce | .CE | .Cg | .CG | .Ca | .CA => true
  | _ => false

/-- A double that `get_va_args_value` reads as an `int`. -/
def isMisread : FCode → Bool
  | .CF | .Ce | .CE | .Cg | .CG => true
  | _ => false

end FCode

/-- No digits are no width. -/
structure ConversionSpec where
  flags : List Flag
  width : Amount
  precision : Option Amount
  long : Bool
  code : { t : FCode // t ≠ .Cps ∧ t ≠ .Cl }
  deriving DecidableEq

namespace ConversionSpec

def type (s : ConversionSpec) : FCode :=
  if s.long ∧ s.code.val.IsInteger then .Cl else s.code.val

def chars (s : ConversionSpec) : List UInt8 :=
  s.flags.map Flag.char ++ s.width.chars ++ (s.precision.elim [] fun p => 46 :: p.chars) ++
    (if s.long then [108] else []) ++ [s.code.val.letter]

def arguments (s : ConversionSpec) : List FCode :=
  s.width.arguments ++ s.precision.elim [] Amount.arguments ++ [s.type]

end ConversionSpec

inductive Element where
  | char (c : { c : UInt8 // c ≠ 0 ∧ c ≠ percent })
  | escape
  | conversion (s : ConversionSpec)

namespace Element

def chars : Element → List UInt8
  | .char c => [c.val]
  | .escape => [percent, percent]
  | .conversion s => percent :: s.chars

def arguments : Element → List FCode
  | .conversion s => s.arguments
  | _ => []

end Element

def remoteArgument : List FCode → VaList → Bool
  | [], _ => false
  | t :: ts, va =>
    if t.isDouble then remoteArgument ts va.nextDouble
    else (t.isAddress && checkCarmObject va.word) || remoteArgument ts va.nextWord

/-- The table holds the types of the arguments, as far as it has room, and the
walk over it finds the remote ones. -/
structure Scans (es : List Element) : Prop where
  types : parseVaArgTypes 0 (es.flatMap Element.chars) =
    (es.flatMap Element.arguments).take maxVaArgs
  room : (parseVaArgTypes 0 (es.flatMap Element.chars)).length ≤ maxVaArgs
  cptr : ∀ nsArray va,
    (parseVaList (parseVaArgTypes 0 (es.flatMap Element.chars)) 0 nsArray va false).2 =
      remoteArgument (es.flatMap Element.arguments) va

-- ---------------------------------------------------------------------------
-- What the scanner finds
-- ---------------------------------------------------------------------------

def entry (c : UInt8) : List FCode :=
  match getType c with
  | none | some .Cps | some .Cn => []
  | some type => [type]

/-- The entries for the characters directly after a percent sign. -/
def adjacent : Bool → List Element → List FCode
  | _, [] => []
  | escaped, .char c :: es => (if escaped then entry c else []) ++ adjacent false es
  | _, .escape :: es => adjacent true es
  | _, .conversion s :: es => entry (s.chars.headD 0) ++ adjacent false es

section

variable {c prev : UInt8} {s : ConversionSpec}

theorem entry_percent : entry percent = [] := rfl

theorem parseVaArgTypes_percent (fmt : List UInt8) :
    parseVaArgTypes percent (c :: fmt) = entry c ++ parseVaArgTypes c fmt := by
  rw [parseVaArgTypes, if_pos rfl, entry]
  cases getType c with
  | none => rfl
  | some t => cases t <;> rfl

theorem parseVaArgTypes_other (hp : prev ≠ percent) (fmt : List UInt8) :
    parseVaArgTypes prev fmt = parseVaArgTypes 0 fmt := by
  cases fmt with
  | nil => rfl
  | cons c fmt => rw [parseVaArgTypes, parseVaArgTypes, if_neg hp, if_neg (by decide)]

theorem parseVaArgTypes_sign (fmt : List UInt8) :
    parseVaArgTypes prev (percent :: fmt) = parseVaArgTypes percent fmt := by
  by_cases hp : prev = percent
  · rw [hp, parseVaArgTypes_percent, entry_percent, List.nil_append]
  · rw [parseVaArgTypes, if_neg hp]

theorem parseVaArgTypes_skip {l : List UInt8} (hl : ∀ c ∈ l, c ≠ percent) (fmt : List UInt8) :
    parseVaArgTypes 0 (l ++ fmt) = parseVaArgTypes 0 fmt := by
  induction l with
  | nil => rfl
  | cons c l ih =>
    rw [List.cons_append, parseVaArgTypes, if_neg (by decide),
      parseVaArgTypes_other (hl c List.mem_cons_self)]
    exact ih fun d hd => hl d (List.mem_cons_of_mem c hd)

theorem Flag.char_ne (f : Flag) : f.char ≠ percent := by
  cases f <;> decide

theorem digit_ne : ∀ d : Fin 10, 48 + UInt8.ofNat d.val ≠ percent := by
  decide

theorem Amount.chars_ne (a : Amount) : ∀ c ∈ a.chars, c ≠ percent := by
  cases a with
  | digits ds =>
    intro c hc
    obtain ⟨d, -, rfl⟩ := List.mem_map.mp hc
    exact digit_ne d
  | star =>
    intro c hc
    obtain rfl := List.mem_singleton.mp hc
    decide

theorem FCode.letter_ne {t : FCode} (ht : t ≠ .Cps) : t.letter ≠ percent := by
  revert ht
  cases t <;> decide

theorem ConversionSpec.chars_ne (s : ConversionSpec) : ∀ c ∈ s.chars, c ≠ percent := by
  intro c hc
  simp only [ConversionSpec.chars, List.mem_append, List.mem_singleton] at hc
  obtain (((hc | hc) | hc) | hc) | rfl := hc
  · obtain ⟨f, -, rfl⟩ := List.mem_map.mp hc
    exact f.char_ne
  · exact s.width.chars_ne c hc
  · cases hp : s.precision with
    | none => simp [hp] at hc
    | some p =>
      rw [hp, Option.elim_some, List.mem_cons] at hc
      obtain rfl | hc := hc
      · decide
      · exact p.chars_ne c hc
  · split at hc
    · obtain rfl := List.mem_singleton.mp hc
      decide
    · exact nomatch hc
  · exact FCode.letter_ne s.code.property.1

theorem ConversionSpec.chars_ne_nil (s : ConversionSpec) : s.chars ≠ [] := by
  simp [ConversionSpec.chars]

theorem parse_conversion (s : ConversionSpec) (fmt : List UInt8) :
    parseVaArgTypes percent (s.chars ++ fmt) =
      entry (s.chars.headD 0) ++ parseVaArgTypes 0 fmt := by
  obtain ⟨c, l, hcl⟩ := List.exists_cons_of_ne_nil s.chars_ne_nil
  have hne : ∀ d ∈ c :: l, d ≠ percent := hcl ▸ s.chars_ne
  rw [hcl, List.cons_append, parseVaArgTypes_percent, List.headD_cons,
    parseVaArgTypes_other (hne c List.mem_cons_self),
    parseVaArgTypes_skip fun d hd => hne d (List.mem_cons_of_mem c hd)]

theorem parse_elements (es : List Element) :
    parseVaArgTypes prev (es.flatMap Element.chars) = adjacent (decide (prev = percent)) es := by
  induction es generalizing prev with
  | nil => rfl
  | cons e es ih =>
    rw [List.flatMap_cons]
    cases e with
    | char c =>
      rw [Element.chars, List.singleton_append, adjacent]
      by_cases hp : prev = percent
      · rw [hp, parseVaArgTypes_percent, ih, decide_eq_false c.property.2]
        rfl
      · rw [parseVaArgTypes, if_neg hp, ih, decide_eq_false c.property.2, decide_eq_false hp]
        rfl
    | escape =>
      rw [Element.chars, List.cons_append, parseVaArgTypes_sign, List.singleton_append,
        parseVaArgTypes_sign, ih, adjacent, decide_eq_true rfl]
    | conversion s =>
      rw [Element.chars, List.cons_append, parseVaArgTypes_sign, parse_conversion, ih, adjacent,
        decide_eq_false (by decide)]

end

-- ---------------------------------------------------------------------------
-- The walk
-- ---------------------------------------------------------------------------

def anyCptr : List FCode → VaList → Bool
  | [], _ => false
  | t :: ts, va =>
    let (_, va, isCptr) := getVaArgsValue ⟨.Cd, 0, 0, 0, 0, 0⟩ va t
    isCptr || anyCptr ts va

/-- The addresses are among the first `n` arguments, and no double that is read
as an `int` comes before one. -/
def Unshifted (n : Nat) (ts : List FCode) : Prop :=
  ∀ k, ∀ t ∈ ts[k]?, t.isAddress → k < n ∧ ∀ j < k, ∀ u ∈ ts[j]?, u.isMisread = false

def Fetched (ts : List FCode) : Prop := ∀ t ∈ ts, t ≠ .Cn ∧ t ≠ .Cps

section

variable {ts : List FCode} {t : FCode} {va : VaList} {n : Nat}

theorem parseVaList_snd {i : Nat} {nsArray : Nat → Numeric} {vargsIsCptr : Bool} :
    (parseVaList ts i nsArray va vargsIsCptr).2 = (vargsIsCptr || anyCptr ts va) := by
  induction ts generalizing i nsArray va vargsIsCptr with
  | nil => simp [parseVaList, anyCptr]
  | cons t ts ih =>
    rw [parseVaList, anyCptr]
    simp only [ih, Bool.or_assoc]
    cases t <;> rfl

theorem fetched_step (ht : t ≠ .Cn ∧ t ≠ .Cps) {ns : Numeric} :
    (getVaArgsValue ns va t).2 =
      (if t.isDouble && !t.isMisread then va.nextDouble else va.nextWord,
        t.isAddress && checkCarmObject va.word) := by
  cases t <;> first | rfl | exact absurd rfl ht.1 | exact absurd rfl ht.2

theorem anyCptr_cons (ht : t ≠ .Cn ∧ t ≠ .Cps) :
    anyCptr (t :: ts) va = ((t.isAddress && checkCarmObject va.word) ||
      anyCptr ts (if t.isDouble && !t.isMisread then va.nextDouble else va.nextWord)) := by
  rw [anyCptr]
  simp only [fetched_step ht]

theorem FCode.isDouble_of_isMisread (ht : t.isMisread = true) : t.isDouble = true := by
  revert ht
  cases t <;> decide

theorem FCode.not_isAddress_of_isDouble (ht : t.isDouble = true) : t.isAddress = false := by
  revert ht
  cases t <;> decide

theorem Fetched.tail (hf : Fetched (t :: ts)) : Fetched ts := fun u hu =>
  hf u (List.mem_cons_of_mem t hu)

theorem anyCptr_none (hf : Fetched ts) (hts : ∀ t ∈ ts, t.isAddress = false) :
    anyCptr ts va = false := by
  induction ts generalizing va with
  | nil => rfl
  | cons t ts ih =>
    rw [anyCptr_cons (hf t List.mem_cons_self), hts t List.mem_cons_self,
      ih hf.tail fun u hu => hts u (List.mem_cons_of_mem t hu)]
    rfl

theorem remoteArgument_none (hts : ∀ t ∈ ts, t.isAddress = false) :
    remoteArgument ts va = false := by
  induction ts generalizing va with
  | nil => rfl
  | cons t ts ih =>
    have hrest : ∀ va, remoteArgument ts va = false := fun va =>
      ih fun u hu => hts u (List.mem_cons_of_mem t hu)
    simp [remoteArgument, hts t List.mem_cons_self, hrest]

theorem exists_remote (hf : Fetched ts) (ha : anyCptr ts va = true) :
    ∃ j, checkCarmObject (va.words j) = true := by
  induction ts generalizing va with
  | nil => exact nomatch ha
  | cons t ts ih =>
    rw [anyCptr_cons (hf t List.mem_cons_self), Bool.or_eq_true, Bool.and_eq_true] at ha
    obtain ⟨-, hw⟩ | ha := ha
    · exact ⟨0, hw⟩
    · obtain ⟨j, hj⟩ := ih hf.tail ha
      split at hj
      · exact ⟨j, hj⟩
      · exact ⟨j + 1, hj⟩

/-- The walk reads no earlier word than the first address is in. -/
theorem first_address (hts : ∃ t ∈ ts, t.isAddress = true) :
    ∃ r, (∀ va : VaList, checkCarmObject (va.words r) = true → remoteArgument ts va = true) ∧
      ∀ n (va : VaList), Fetched (ts.take n) → anyCptr (ts.take n) va = true →
        ∃ j, r ≤ j ∧ checkCarmObject (va.words j) = true := by
  induction ts with
  | nil => exact nomatch hts
  | cons t ts ih =>
    by_cases ht : t.isAddress = true
    · have hd : t.isDouble = false := by
        by_contra hd
        rw [FCode.not_isAddress_of_isDouble (Bool.of_not_eq_false hd)] at ht
        exact nomatch ht
      refine ⟨0, fun va hw => ?_, fun n va hf ha => ?_⟩
      · have hw : checkCarmObject va.word = true := hw
        simp [remoteArgument, hd, ht, hw]
      · obtain ⟨j, hj⟩ := exists_remote hf ha
        exact ⟨j, Nat.zero_le j, hj⟩
    · have ht : t.isAddress = false := Bool.of_not_eq_true ht
      have hrest : ∃ u ∈ ts, u.isAddress = true := by
        obtain ⟨u, hu, hua⟩ := hts
        obtain rfl | hu := List.mem_cons.mp hu
        · rw [ht] at hua
          exact nomatch hua
        · exact ⟨u, hu, hua⟩
      obtain ⟨r, href, hwalk⟩ := ih hrest
      -- A double takes no word from the reference, and a misread one takes one from the walk.
      refine ⟨if t.isDouble then r else r + 1, fun va hw => ?_, fun n va hf ha => ?_⟩
      · rw [remoteArgument, ht]
        split at hw
        case isTrue hd => simpa [hd] using href va.nextDouble hw
        case isFalse hd => simpa [hd] using href va.nextWord hw
      · cases n with
        | zero => exact nomatch ha
        | succ n =>
          rw [List.take_succ_cons] at hf ha
          rw [anyCptr_cons (hf t List.mem_cons_self), ht, Bool.false_and, Bool.false_or] at ha
          obtain ⟨j, hrj, hj⟩ := hwalk n _ hf.tail ha
          split at hj
          case isTrue hd =>
            rw [if_pos (Bool.and_eq_true_iff.mp hd).1]
            exact ⟨j, hrj, hj⟩
          case isFalse hd =>
            refine ⟨j + 1, ?_, hj⟩
            split <;> omega

theorem unshifted_cons :
    Unshifted (n + 1) (t :: ts) ↔
      (t.isMisread = true → ∀ u ∈ ts, u.isAddress = false) ∧ Unshifted n ts := by
  constructor
  · intro h
    refine ⟨fun ht u hu => ?_, fun k u hk hu => ?_⟩
    · by_contra hua
      obtain ⟨k, hk⟩ := List.mem_iff_getElem?.mp hu
      have := (h (k + 1) u hk (Bool.of_not_eq_false hua)).2 0 (Nat.succ_pos k) t rfl
      rw [ht] at this
      exact nomatch this
    · obtain ⟨hlt, hj⟩ := h (k + 1) u hk hu
      exact ⟨Nat.lt_of_succ_lt_succ hlt, fun j hjk => hj (j + 1) (Nat.succ_lt_succ hjk)⟩
  · rintro ⟨ht, h⟩ k u hk hu
    cases k with
    | zero => exact ⟨Nat.succ_pos n, fun j hj => absurd hj (Nat.not_lt_zero j)⟩
    | succ k =>
      obtain ⟨hlt, hj⟩ := h k u hk hu
      refine ⟨Nat.succ_lt_succ hlt, fun j hjk v hv => ?_⟩
      cases j with
      | zero =>
        obtain rfl := Option.some.inj hv
        by_contra hm
        have := ht (Bool.of_not_eq_false hm) u (List.mem_of_getElem? hk)
        rw [hu] at this
        exact nomatch this
      | succ j => exact hj j (Nat.lt_of_succ_lt_succ hjk) v hv

theorem unshifted_of_none (hts : ∀ t ∈ ts, t.isAddress = false) : Unshifted n ts := by
  intro k t hk ht
  rw [hts t (List.mem_of_getElem? hk)] at ht
  exact nomatch ht

def VaList.only (r : Nat) : VaList :=
  ⟨fun k => if k = r then startAddr else 0, fun _ => 0⟩

theorem VaList.only_words {r k : Nat} :
    checkCarmObject ((VaList.only r).words k) = true ↔ k = r := by
  by_cases h : k = r
  · simp only [VaList.only, h, iff_true]
    decide
  · simp only [VaList.only, h, iff_false]
    decide

theorem remoteArgument_never :
    (∀ va, remoteArgument ts va = false) ↔ ∀ u ∈ ts, u.isAddress = false := by
  refine ⟨fun h u hu => ?_, fun h _ => remoteArgument_none h⟩
  by_contra hua
  obtain ⟨r, href, -⟩ := first_address ⟨u, hu, Bool.of_not_eq_false hua⟩
  exact nomatch (h (.only r)).symm.trans (href _ (VaList.only_words.mpr rfl))

theorem unshifted_zero : Unshifted 0 ts ↔ ∀ u ∈ ts, u.isAddress = false := by
  refine ⟨fun h u hu => ?_, unshifted_of_none⟩
  by_contra hua
  obtain ⟨k, hk⟩ := List.mem_iff_getElem?.mp hu
  exact absurd (h k u hk (Bool.of_not_eq_false hua)).1 (Nat.not_lt_zero k)

/-- A double read as an `int`: the walk is a word ahead from here on. -/
theorem anyCptr_ahead (hf : Fetched (ts.take n)) :
    (∀ va : VaList, anyCptr (ts.take n) va.nextWord = remoteArgument ts va.nextDouble) ↔
      ∀ u ∈ ts, u.isAddress = false := by
  constructor
  · intro h u hu
    by_contra hua
    obtain ⟨r, href, hwalk⟩ := first_address ⟨u, hu, Bool.of_not_eq_false hua⟩
    have hr : remoteArgument ts (VaList.only r).nextDouble = true :=
      href _ (VaList.only_words.mpr rfl)
    obtain ⟨j, hrj, hj⟩ := hwalk n _ hf ((h (.only r)).trans hr)
    have := VaList.only_words.mp hj
    omega
  · intro hnone va
    rw [remoteArgument_none hnone,
      anyCptr_none hf fun u hu => hnone u (List.mem_of_mem_take hu)]

theorem anyCptr_take (hf : Fetched (ts.take n)) :
    (∀ va, anyCptr (ts.take n) va = remoteArgument ts va) ↔ Unshifted n ts := by
  induction ts generalizing n with
  | nil =>
    refine iff_of_true (fun va => ?_) fun k t hk => ?_
    · rw [List.take_nil]
      rfl
    · exact nomatch hk
  | cons t ts ih =>
    cases n with
    | zero =>
      rw [List.take_zero, unshifted_zero, ← remoteArgument_never]
      exact forall_congr' fun va => eq_comm
    | succ n =>
      rw [List.take_succ_cons] at hf ⊢
      simp only [anyCptr_cons (hf t List.mem_cons_self), remoteArgument, unshifted_cons]
      cases hm : t.isMisread with
      | true =>
        have hd := FCode.isDouble_of_isMisread hm
        simp only [hd, FCode.not_isAddress_of_isDouble hd, Bool.false_and, Bool.false_or,
          Bool.true_and, Bool.not_true, Bool.false_eq_true, ↓reduceIte, forall_const]
        rw [anyCptr_ahead hf.tail]
        exact ⟨fun hnone => ⟨hnone, unshifted_of_none hnone⟩, And.left⟩
      | false =>
        rw [← ih hf.tail]
        cases hd : t.isDouble with
        | true =>
          simp only [FCode.not_isAddress_of_isDouble hd, Bool.false_and, Bool.false_or,
            Bool.and_self, Bool.not_false, ↓reduceIte, Bool.false_eq_true, false_implies, true_and]
          exact ⟨fun h va => h ⟨va.words, fun k => va.doubles (k - 1)⟩, fun h va => h va.nextDouble⟩
        | false =>
          simp only [Bool.false_and, Bool.false_eq_true, ↓reduceIte, false_implies, true_and]
          refine ⟨fun h va => ?_, fun h va => congrArg _ (h va.nextWord)⟩
          have := h ⟨fun k => if k = 0 then 0 else va.words (k - 1), va.doubles⟩
          have hlocal : checkCarmObject 0 = false := by decide
          simpa [VaList.word, VaList.nextWord, hlocal] using this

end

-- ---------------------------------------------------------------------------
-- The formats it gets right
-- ---------------------------------------------------------------------------

/-- A conversion that the scanner reads for what it is: the letter alone, or an
integer letter after `l`. -/
def ConversionSpec.Seen (s : ConversionSpec) : Prop :=
  s.flags = [] ∧ s.width = .digits [] ∧ s.precision = none ∧
    (s.long = true → s.code.val.IsInteger) ∧ s.code.val ≠ .Cn

/-- No letter of a conversion comes right after an escaped percent sign. -/
def NoStray (es : List Element) : Prop :=
  ∀ c, [.escape, .char c] <:+: es → entry c.val = []

def Element.found : Element → List FCode
  | .conversion s => entry (s.chars.headD 0)
  | _ => []

section

variable {es : List Element} {s : ConversionSpec} {c : UInt8}

theorem fetched_entry : Fetched (entry c) := by
  rw [entry]
  cases getType c with
  | none => exact nofun
  | some t => cases t <;> simp [Fetched]

theorem fetched_adjacent {escaped : Bool} : Fetched (adjacent escaped es) := by
  induction es generalizing escaped with
  | nil => exact nofun
  | cons e es ih =>
    cases e with
    | char c =>
      intro t ht
      obtain ht | ht := List.mem_append.mp ht
      · split at ht
        · exact fetched_entry t ht
        · exact nomatch ht
      · exact ih t ht
    | escape => exact ih
    | conversion s =>
      intro t ht
      obtain ht | ht := List.mem_append.mp ht
      · exact fetched_entry t ht
      · exact ih t ht

theorem entry_flag (f : Flag) : entry f.char = [] := by
  cases f <;> rfl

theorem entry_digit : ∀ d : Fin 10, entry (48 + UInt8.ofNat d.val) = [] := by
  decide

theorem entry_letter {t : FCode} (hl : t ≠ .Cps) :
    entry t.letter = if t = .Cn then [] else [t] := by
  revert hl
  cases t <;> decide

theorem ConversionSpec.arguments_ne_nil (s : ConversionSpec) : s.arguments ≠ [] := by
  simp [ConversionSpec.arguments]

theorem entry_length : (entry c).length ≤ 1 := by
  rw [entry]
  split <;> simp

theorem ConversionSpec.length_entry_le (s : ConversionSpec) :
    (entry (s.chars.headD 0)).length ≤ s.arguments.length :=
  entry_length.trans (List.length_pos_of_ne_nil s.arguments_ne_nil)

theorem ConversionSpec.entry_bare {code : { t : FCode // t ≠ .Cps ∧ t ≠ .Cl }} {long : Bool} :
    entry ((ConversionSpec.mk [] (.digits []) none long code).chars.headD 0) =
        (ConversionSpec.mk [] (.digits []) none long code).arguments ↔
      (long = true → code.val.IsInteger) ∧ code.val ≠ .Cn := by
  have hn : code.val.IsInteger → code.val ≠ .Cn := fun hi hn => by
    rw [hn] at hi
    exact absurd hi (by decide)
  cases long with
  | true =>
    have hentry : entry 108 = [.Cl] := by decide
    by_cases hi : code.val.IsInteger
    · simp [ConversionSpec.chars, ConversionSpec.arguments, ConversionSpec.type, Amount.chars,
        Amount.arguments, hentry, hi, hn hi]
    · simp [ConversionSpec.chars, ConversionSpec.arguments, ConversionSpec.type, Amount.chars,
        Amount.arguments, hentry, hi, code.property.2.symm]
  | false =>
    by_cases hcn : code.val = .Cn
    · have hentry : entry FCode.Cn.letter = [] := by decide
      simp [ConversionSpec.chars, ConversionSpec.arguments, ConversionSpec.type, Amount.chars,
        Amount.arguments, hentry, hcn]
    · simp [ConversionSpec.chars, ConversionSpec.arguments, ConversionSpec.type, Amount.chars,
        Amount.arguments, entry_letter code.property.1, hcn]

theorem ConversionSpec.entry_iff (s : ConversionSpec) :
    entry (s.chars.headD 0) = s.arguments ↔ s.Seen := by
  -- Anything before the letter or `l` hides it.
  have hidden : entry (s.chars.headD 0) = [] → entry (s.chars.headD 0) ≠ s.arguments :=
    fun h he => s.arguments_ne_nil (he.symm.trans h)
  obtain ⟨flags, width, precision, long, code⟩ := s
  cases flags with
  | cons f fs => exact iff_of_false (hidden (entry_flag f)) fun h => nomatch h.1
  | nil =>
    cases width with
    | star => exact iff_of_false (hidden (show entry 42 = [] by decide)) fun h => nomatch h.2.1
    | digits ds =>
      cases ds with
      | cons d ds => exact iff_of_false (hidden (entry_digit d)) fun h => nomatch h.2.1
      | nil =>
        cases precision with
        | some p =>
          exact iff_of_false (hidden (show entry 46 = [] by decide)) fun h => nomatch h.2.2.1
        | none =>
          rw [entry_bare, Seen]
          simp

theorem flatMap_inj {f g : Element → List FCode} (hle : ∀ e ∈ es, (f e).length ≤ (g e).length) :
    es.flatMap f = es.flatMap g ↔ ∀ e ∈ es, f e = g e := by
  induction es with
  | nil => simp
  | cons e es ih =>
    have hlen : (es.flatMap f).length ≤ (es.flatMap g).length := by
      rw [List.length_flatMap, List.length_flatMap]
      exact List.sum_le_sum fun d hd => hle d (List.mem_cons_of_mem e hd)
    rw [List.flatMap_cons, List.flatMap_cons, List.forall_mem_cons,
      ← ih fun d hd => hle d (List.mem_cons_of_mem e hd)]
    constructor
    · intro h
      have hsum := congrArg List.length h
      rw [List.length_append, List.length_append] at hsum
      have := hle e List.mem_cons_self
      exact List.append_inj h (by omega)
    · rintro ⟨he, hes⟩
      rw [he, hes]

theorem Element.length_found_le (e : Element) : e.found.length ≤ e.arguments.length := by
  cases e with
  | char c => exact Nat.le_refl 0
  | escape => exact Nat.le_refl 0
  | conversion s => exact s.length_entry_le

theorem adjacent_noStray {escaped : Bool}
    (hs : NoStray (if escaped then .escape :: es else es)) :
    adjacent escaped es = es.flatMap Element.found := by
  induction es generalizing escaped with
  | nil => rfl
  | cons e es ih =>
    have hes : NoStray es := fun c hc => hs c (hc.trans (by
      split
      · exact ⟨[.escape, e], [], by simp⟩
      · exact ⟨[e], [], by simp⟩))
    cases e with
    | char c =>
      rw [adjacent, @ih false hes, List.flatMap_cons]
      cases escaped with
      | true =>
        have hc : entry c.val = [] := hs c ⟨[], es, rfl⟩
        simp [hc, Element.found]
      | false => rfl
    | escape =>
      rw [adjacent, List.flatMap_cons]
      refine ih fun c hc => hs c ?_
      cases escaped with
      | true => exact hc.trans ⟨[.escape], [], by simp⟩
      | false => exact hc
    | conversion s =>
      rw [adjacent, @ih false hes, List.flatMap_cons]
      rfl

theorem found_iff :
    es.flatMap Element.found = es.flatMap Element.arguments ↔
      ∀ s, .conversion s ∈ es → s.Seen := by
  rw [flatMap_inj fun e _ => e.length_found_le]
  constructor
  · intro h s hs
    exact s.entry_iff.mp (h _ hs)
  · intro h e he
    cases e with
    | char c => rfl
    | escape => rfl
    | conversion s => exact s.entry_iff.mpr (h s he)

theorem scans_iff_adjacent :
    Scans es ↔ adjacent false es = (es.flatMap Element.arguments).take maxVaArgs ∧
      Unshifted maxVaArgs (es.flatMap Element.arguments) := by
  have hparse : parseVaArgTypes 0 (es.flatMap Element.chars) = adjacent false es :=
    parse_elements es
  have hcptr (ht : adjacent false es = (es.flatMap Element.arguments).take maxVaArgs) :
      (∀ va, anyCptr (adjacent false es) va = remoteArgument (es.flatMap Element.arguments) va) ↔
        Unshifted maxVaArgs (es.flatMap Element.arguments) := by
    have hf : Fetched ((es.flatMap Element.arguments).take maxVaArgs) := ht ▸ fetched_adjacent
    rw [ht]
    exact anyCptr_take hf
  constructor
  · rintro ⟨ht, -, hc⟩
    rw [hparse] at ht hc
    refine ⟨ht, (hcptr ht).mp fun va => ?_⟩
    have := hc (fun _ => ⟨.Cd, 0, 0, 0, 0, 0⟩) va
    rwa [parseVaList_snd, Bool.false_or] at this
  · rintro ⟨ht, hu⟩
    refine ⟨hparse.trans ht, ?_, fun nsArray va => ?_⟩
    · rw [hparse, ht, List.length_take]
      exact Nat.min_le_left _ _
    · rw [hparse, parseVaList_snd, Bool.false_or]
      exact (hcptr ht).mpr hu va

end

theorem scans_iff (es : List Element) :
    (Scans es ↔ adjacent false es = (es.flatMap Element.arguments).take maxVaArgs ∧
      Unshifted maxVaArgs (es.flatMap Element.arguments)) ∧
    (NoStray es → (es.flatMap Element.arguments).length ≤ maxVaArgs →
      (Scans es ↔ (∀ s, .conversion s ∈ es → s.Seen) ∧
        Unshifted maxVaArgs (es.flatMap Element.arguments))) := by
  refine ⟨scans_iff_adjacent, fun hs hfew => ?_⟩
  rw [scans_iff_adjacent, List.take_of_length_le hfew, @adjacent_noStray es false hs,
    found_iff]

def longFormat : List Element :=
  [.conversion ⟨[], .digits [], none, true, ⟨.Cd, by decide⟩⟩,
    .conversion ⟨[], .digits [], none, false, ⟨.Cs, by decide⟩⟩]

theorem scans_long : Scans longFormat := by
  refine (scans_iff longFormat).1.mpr ⟨by decide, fun k t hk _ => ?_⟩
  have htypes : longFormat.flatMap Element.arguments = [.Cl, .Cs] := by decide
  rw [htypes] at hk ⊢
  have hlt : k < 2 := (List.getElem?_eq_some_iff.mp hk).1
  refine ⟨hlt.trans (by decide), fun j hj u hu => ?_⟩
  obtain rfl : j = 0 := by omega
  obtain rfl := Option.some.inj hu
  rfl

def widthFormat : List Element :=
  [.conversion ⟨[], .digits [5], none, false, ⟨.Cd, by decide⟩⟩,
    .conversion ⟨[], .digits [], none, false, ⟨.Cs, by decide⟩⟩]

theorem not_scans_width : ¬ ∀ es, Scans es := by
  intro h
  have htypes := (h widthFormat).types
  revert htypes
  decide

end TrackFM
