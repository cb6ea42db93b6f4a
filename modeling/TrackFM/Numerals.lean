import TrackFM.Vsnprintf
import TrackFM.Strto

/-!
# Numbers printed and read back

`carm_snprintf` of `libc_support.cpp` puts a number in a buffer, local or remote,
and `carm_strtol` and `carm_strtoul` read it there. A number in a remote buffer
must lie in one object with the character after it.
-/

namespace TrackFM

open Lib (Reader)
open Heap (Coherent Buffer Writes carmStrto carmStrtol carmStrtoul carmVsnprintf view_untagged)

/-- `va` is the list `va_start` makes. -/
def Heap.carmSnprintf (libc : Libc) (m : Manager) (buf : Scratch) (nsArray : Nat → Numeric)
    (h : Heap) (str size : Nat) (format : List UInt8) (va : VaList) : Outcome (Heap × Int) :=
  carmVsnprintf libc m buf nsArray h str size format va

-- ---------------------------------------------------------------------------
-- Decimal numbers
-- ---------------------------------------------------------------------------

namespace Conversion

theorem ten_radix : 2 ≤ 10 ∧ 10 ≤ 36 := by decide

abbrev ten : Radix := ⟨10, ten_radix⟩

abbrev decimals : Radices := ⟨false, ten, ten⟩

variable {c : Char} {cs : List Char} {neg : Bool}

theorem isDigit_range (hc : c.isDigit = true) : 48 ≤ c.toNat ∧ c.toNat ≤ 57 :=
  Char.isDigit_iff_toNat.mp hc

theorem digitVal_digit (hc : c.isDigit = true) : digitVal c.toUInt8 = c.toNat - 48 := by
  obtain ⟨hlo, hhi⟩ := isDigit_range hc
  have hn : c.toUInt8.toNat = c.toNat := by
    show c.toNat % 256 = c.toNat
    omega
  rw [digitVal, if_pos]
  · rw [hn]
  · simp only [UInt8.le_iff_toNat_le, hn]
    exact ⟨hlo, hhi⟩

theorem step_digit (hc : c.isDigit = true) :
    step decimals (.digits neg ten acc) c.toUInt8 =
      .digits neg ten (10 * acc + (c.toNat - '0'.toNat)) := by
  obtain ⟨hlo, hhi⟩ := isDigit_range hc
  have hval := digitVal_digit hc
  rw [step, digit, if_pos (by rw [hval]; show c.toNat - 48 < 10; omega), hval, Nat.mul_comm]
  rfl

theorem digits_fold (hcs : ∀ c ∈ cs, c.isDigit = true) :
    (cs.map Char.toUInt8).foldl (step decimals) (.digits neg ten acc) =
      .digits neg ten (Nat.ofDigitChars 10 cs acc) := by
  induction cs generalizing acc with
  | nil => rfl
  | cons c cs ih =>
    obtain ⟨hc, hcs⟩ := List.forall_mem_cons.mp hcs
    rw [List.map_cons, List.foldl_cons, step_digit hc, ih hcs, Nat.ofDigitChars_cons]

theorem decimal_fold (neg : Bool) :
    (decimal n).foldl (step decimals) (.digits neg ten 0) = .digits neg ten n := by
  have hdigits : ∀ c ∈ Nat.toDigits 10 n, c.isDigit = true := fun c =>
    Nat.isDigit_of_mem_toDigits (by decide) (by decide)
  rw [decimal, digits_fold hdigits, Nat.ofDigitChars_ten_toDigits]

theorem digit_bytes : ∀ k < 10, isSpace (.ofNat (48 + k)) = false ∧ UInt8.ofNat (48 + k) ≠ 45 ∧
    UInt8.ofNat (48 + k) ≠ 43 := by decide

theorem blanks_digit (hc : c.isDigit = true) :
    step decimals .blanks c.toUInt8 = step decimals (.digits false ten 0) c.toUInt8 := by
  obtain ⟨hlo, hhi⟩ := isDigit_range hc
  have hu : c.toUInt8 = .ofNat (48 + (c.toNat - 48)) := by
    rw [Nat.add_sub_cancel' hlo]
    rfl
  obtain ⟨hspace, hminus, hplus⟩ := digit_bytes (c.toNat - 48) (by omega)
  rw [← hu] at hspace hminus hplus
  simp [step, hspace, hminus, hplus, begin]

theorem decimal_blanks : (decimal n).foldl (step decimals) .blanks = .digits false ten n := by
  cases hn : Nat.toDigits 10 n with
  | nil => exact absurd hn Nat.toDigits_ne_nil
  | cons c cs =>
    have hc : c.isDigit = true := Nat.isDigit_of_mem_toDigits (by decide) (by decide)
      (hn ▸ List.mem_cons_self)
    have hfold := decimal_fold (n := n) false
    rw [decimal, hn, List.map_cons, List.foldl_cons] at hfold ⊢
    rw [blanks_digit hc, hfold]

theorem signed_fold :
    (signed v).foldl (step decimals) .blanks = .digits (decide (v < 0)) ten v.natAbs := by
  rw [signed]
  split
  case isTrue hneg =>
    have hminus : step decimals .blanks 45 = .sign true := rfl
    rw [List.foldl_cons, hminus, decide_eq_true hneg]
    cases hn : Nat.toDigits 10 v.natAbs with
    | nil => exact absurd hn Nat.toDigits_ne_nil
    | cons c cs =>
      -- after the sign, too, the first digit is one like the others
      have hfold := decimal_fold (n := v.natAbs) true
      rw [decimal, hn] at hfold ⊢
      exact hfold
  case isFalse hpos => rw [decimal_blanks, decide_eq_false hpos]

theorem digits_end (hd : 10 ≤ digitVal u) :
    step decimals (.digits neg ten acc) u = .stop neg acc := by
  rw [step, digit, if_neg (Nat.not_lt.mpr hd)]

end Conversion

section
variable {f : Nat → UInt8} {v : Int}

theorem after_number (hf : ∀ j (hj : j < (signed v).length), f j = (signed v)[j])
    (hend : 10 ≤ Conversion.digitVal (f (signed v).length)) :
    (Conversion.reader Conversion.decimals).after f ((signed v).length + 1) =
      .stop (decide (v < 0)) v.natAbs := by
  have hfold := Conversion.signed_fold (v := v)
  rw [Reader.after, Reader.after_list hf]
  show Conversion.step _ ((signed v).foldl (Conversion.step _) .blanks) _ = _
  rw [hfold, Conversion.digits_end hend]

theorem stopsWithin_number (hf : ∀ j (hj : j < (signed v).length), f j = (signed v)[j])
    (hend : 10 ≤ Conversion.digitVal (f (signed v).length)) :
    StopsWithin 10 f ((signed v).length + 1) := by
  intro r hr
  obtain rfl : Conversion.decimals = r := Option.some.inj hr
  rw [after_number hf hend]
  rfl

/-- What libc reads is the number that is printed there. -/
theorem strto_number (value : Bool → Nat → Int)
    (hf : ∀ j (hj : j < (signed v).length), f j = (signed v)[j])
    (hend : 10 ≤ Conversion.digitVal (f (signed v).length))
    (hfuel : (signed v).length + 1 < Heap.scanFuel) :
    strto value 10 f = .ok (value (decide (v < 0)) v.natAbs) := by
  have hdone := stopsWithin_number hf hend Conversion.decimals rfl
  have hr : radices 10 = some Conversion.decimals := rfl
  rw [strto, hr]
  simp only [Reader.read_of_done hdone hfuel, after_number hf hend]
  rfl

theorem longValue_int (hlo : -2 ^ 63 ≤ v) (hhi : v < 2 ^ 63) :
    longValue (decide (v < 0)) v.natAbs = v := by
  rw [longValue]
  split <;> simp only [decide_eq_true_eq] at * <;> omega

theorem ulongValue_int (hlo : -2 ^ 63 ≤ v) (hhi : v < 2 ^ 63) :
    ulongValue (decide (v < 0)) v.natAbs = v % 2 ^ 64 := by
  rw [ulongValue, if_neg (by omega)]
  split
  case isTrue hneg =>
    have : (v.natAbs : Int) = -v := by simp only [decide_eq_true_eq] at hneg; omega
    rw [this, neg_neg]
  case isFalse hpos =>
    simp only [decide_eq_true_eq] at hpos
    omega

end

-- ---------------------------------------------------------------------------
-- The numbers of a format
-- ---------------------------------------------------------------------------

def Directive.number (w : Nat) : Directive → Option Int
  | .str => none
  | .dec => some (intOf w)
  | .uns => some (u32 w)

section
variable {d : Directive} {S T : Nat → List UInt8 → Prop} {ws : Nat → Nat} {v : Int}
  {pre post items : List Item} {s t : List UInt8}

theorem signed_nat (n : Nat) : signed n = decimal n := by
  rw [signed, if_neg (by omega)]
  rfl

theorem Directive.number_prints (hv : d.number w = some v) : d.Prints S w (signed v) := by
  cases d with
  | str => cases hv
  | dec =>
    obtain rfl := Option.some.inj hv
    rfl
  | uns =>
    obtain rfl := Option.some.inj hv
    exact signed_nat _

theorem Directive.number_range (hv : d.number w = some v) : -2 ^ 31 ≤ v ∧ v < 2 ^ 32 := by
  cases d with
  | str => cases hv
  | dec =>
    have hint : intOf w = v := Option.some.inj hv
    have hlo : -2 ^ 31 ≤ intOf w := Int.le_bmod (by decide)
    have hhi : intOf w < 2 ^ 31 := Int.bmod_lt (by decide)
    omega
  | uns =>
    have hnat : ((u32 w : Nat) : Int) = v := Option.some.inj hv
    have hlt : u32 w < 2 ^ 32 := Nat.mod_lt w (by decide)
    omega

theorem Expands.imp (hST : ∀ p s, S p s → T p s) (hx : Expands S ws i items t) :
    Expands T ws i items t := by
  induction hx with
  | nil => exact .nil
  | lit hx ih => exact .lit ih
  | @arg i items t d s hd hx ih =>
    refine .arg ?_ ih
    cases d with
    | str => exact hST _ _ hd
    | dec => exact hd
    | uns => exact hd

theorem Expands.append (hx : Expands S ws i pre s)
    (hy : Expands S ws (i + (directives pre).length) post t) :
    Expands S ws i (pre ++ post) (s ++ t) := by
  induction hx with
  | nil => exact hy
  | lit hx ih => exact .lit (ih hy)
  | @arg i items t d s hd hx ih =>
    rw [List.append_assoc]
    refine .arg hd (ih ?_)
    rwa [directives, List.length_cons, Nat.add_comm _ 1, ← Nat.add_assoc] at hy

end

-- ---------------------------------------------------------------------------
-- The text in the buffer
-- ---------------------------------------------------------------------------

/-- A local string the caller passes; the call writes over none of it. -/
structure PassedString (h : Heap) (buf : Scratch) (str size p : Nat) (s : List UInt8) : Prop where
  string : LocalString h p s
  off : p + s.length < str ∨ str + size ≤ p
  apart : p + s.length < buf.tmp ∨ buf.tmp + maxVaStrSize ≤ p

section
variable {libc : Libc} {m : Manager} {buf : Scratch} {nsArray : Nat → Numeric} {h h' : Heap}
  {va : VaList} {items : List Item} {s t : List UInt8} {v : Int} {str size : Nat}

/-- The call leaves the text in the buffer, cut to its size. -/
structure Puts (m : Manager) (h' : Heap) (str size : Nat) (t : List UInt8) : Prop where
  coherent : Coherent m h'
  buffer : Buffer m h' size str
  view : ∀ j < (truncated t size).length, h'.view m (str + j) = (truncated t size).getD j 0

theorem Writes.puts (hw : Writes m h h' str (truncated t size).length fun j =>
      (truncated t size).getD j 0) (hbuf : Buffer m h size str) (hsize : 0 < size) :
    Puts m h' str size t where
  coherent := hw.coherent
  buffer := hbuf.mono hw.current
  view j hj := by
    rw [hw.view _ (hbuf.usable j (hj.trans_le (truncated_length hsize))), Lib.blit_at hj]

theorem carmVsnprintf_puts (libc : Libc) (nsArray : Nat → Numeric) (hc : Coherent m h)
    (htmp : Own m buf.tmp maxVaStrSize) (hbuf : Buffer m h size str)
    (hx : Expands (LocalString h) va.words 0 items t) (hlt : t.length < 2 ^ 31) (hsize : 0 < size)
    (hfit : checkCarmObject str = true → size ≤ maxVaStrSize) : ∃ h',
      carmVsnprintf libc m buf nsArray h str size (spelling items) va = .ok (h', t.length) ∧
        Puts m h' str size t := by
  rcases hbuf.tag hc hsize with htag | ⟨-, hout, hend⟩
  · have hrem : ¬ RemoteString items va.words := fun ⟨k, hk, ht⟩ => by
      have huntagged := hx.untagged hk
      rw [Nat.zero_add, ht] at huntagged
      cases huntagged
    have hcptr := parse_local nsArray hrem
    have hfuel : t.length < Heap.scanFuel := by
      simp only [Heap.scanFuel]
      omega
    -- by way of the buffer of the call
    have hw : Writes m h (h.putBounded buf.tmp size t) buf.tmp _ _ :=
      htmp.putBounded (t := t) hc hsize (hfit htag)
    have hown := htmp.front (hfit htag)
    obtain ⟨h₂, hcopy, hw₂⟩ := (hbuf.mono hw.current).memmoves hown.buffer hw.coherent
      ((hfit htag).trans_lt (by decide)) (.inr (.inl (htmp.lt_start (by decide))))
    refine ⟨h₂, ?_, ⟨hw₂.coherent, (hbuf.mono hw.current).mono hw₂.current, fun j hj => ?_⟩⟩
    · simp only [carmVsnprintf, hcptr, htag, Libc.vsnprintf, hx.expand VaList.from_zero hfuel,
        Bool.not_false, Bool.not_true, Bool.false_eq_true, if_true, if_false, bind, Except.bind,
        pure, Except.pure, hcopy, intOf_eq hlt]
    · have hjs := hj.trans_le (truncated_length (t := t) hsize)
      rw [hw₂.view _ ((hbuf.usable j hjs).mono hw.current), Lib.blit_at hjs,
        hw.view _ ((hown.buffer (h := h)).usable j hjs), Lib.blit_at hj]
  · have hown : Own m str size := ⟨hout, hend⟩
    have htag : checkCarmObject str = false :=
      checkCarmObject_untagged ((Nat.lt_add_of_pos_right hsize).trans_le hend)
    exact ⟨_, hx.carmVsnprintf hlt htag,
      Writes.puts (hown.putBounded (t := t) hc hsize (Nat.le_refl size)) hbuf hsize⟩

theorem truncated_getD :
    (truncated t size).getD j 0 = if j < size - 1 then t.getD j 0 else 0 := by
  simp only [List.getD, List.getElem?_append, List.length_take, List.getElem?_take]
  grind

def EndsNumber (t : List UInt8) : Prop := 10 ≤ Conversion.digitVal (t.getD 0 0)

theorem truncated_number (hroom : s.length + (signed v).length < size)
    (hj : j < (signed v).length) :
    (truncated (s ++ signed v ++ t) size).getD (s.length + j) 0 = (signed v)[j] := by
  rw [truncated_getD, if_pos (by omega), List.append_assoc,
    List.getD_append_right _ _ _ _ (Nat.le_add_right _ _), Nat.add_sub_cancel_left,
    List.getD_append _ _ _ _ hj, List.getD_eq_getElem _ _ hj]

theorem truncated_after (ht : EndsNumber t) : 10 ≤ Conversion.digitVal
    ((truncated (s ++ signed v ++ t) size).getD (s.length + (signed v).length) 0) := by
  rw [truncated_getD]
  split
  case isTrue =>
    have hlen : s.length + (signed v).length = (s ++ signed v).length := by simp
    rw [hlen, List.getD_append_right _ _ _ _ (Nat.le_refl _), Nat.sub_self]
    exact ht
  case isFalse => decide

theorem Puts.spells (hp : Puts m h (startAddr + x) size t) (hnz : ∀ c ∈ t, c ≠ 0)
    (hx : ∀ j < size, h.Current ((x + j) / objSize)) (hk : k < t.length) (hroom : k < size - 1) :
    (Operand.remote (x + k)).Spells m h (min (size - 1) t.length - k)
      fun j => h.view m (startAddr + x + k + j) where
  shows := ⟨fun j hj => by
    rw [Nat.add_assoc]
    exact hx _ (by omega), fun j _ => by rw [Operand.addr, ← Nat.add_assoc]⟩
  chars j hj := by
    have hin : k + j < t.length := by omega
    rw [Nat.add_assoc, hp.view _ (by simp; omega), truncated_getD, if_pos (by omega),
      List.getD_eq_getElem _ _ hin]
    exact hnz _ (List.getElem_mem hin)
  nul := by
    rw [Nat.add_assoc, hp.view _ (by simp; omega), truncated_getD]
    split
    case isTrue => rw [List.getD_eq_default _ _ (by omega)]
    case isFalse => rfl

theorem Puts.reads (value : Bool → Nat → Int)
    (hp : Puts m h str size (s ++ signed v ++ t)) (hnz : ∀ c ∈ s ++ signed v ++ t, c ≠ 0)
    (hlt : (s ++ signed v ++ t).length < 2 ^ 31) (hroom : s.length + (signed v).length < size)
    (ht : EndsNumber t) (hplace : checkCarmObject str = true →
      (str + s.length) % objSize + (signed v).length < objSize) : ∃ h',
    carmStrto (strto value) m h (str + s.length) false 10 =
      .ok (h', value (decide (v < 0)) v.natAbs) := by
  have hlen : (s ++ signed v ++ t).length = s.length + (signed v).length + t.length := by
    rw [List.length_append, List.length_append]
  have hpos : 0 < (signed v).length := List.length_pos_of_ne_nil signed_ne_nil
  have hnumber : ∀ j (hj : j < (signed v).length),
      h.view m (str + s.length + j) = (signed v)[j] := fun j hj => by
    rw [Nat.add_assoc, hp.view _ (by simp; omega), truncated_number hroom hj]
  have hend : 10 ≤ Conversion.digitVal (h.view m (str + s.length + (signed v).length)) := by
    rw [Nat.add_assoc, hp.view _ (by simp; omega)]
    exact truncated_after ht
  have hfuel : (signed v).length + 1 < Heap.scanFuel := by
    simp only [Heap.scanFuel]
    omega
  have hvalue := strto_number (f := fun j => h.view m (str + s.length + j)) value hnumber hend hfuel
  cases hp.buffer with
  | @remote x hx =>
    have htag : checkCarmObject (startAddr + x) = true :=
      checkCarmObject_start ((hx 0 (by omega)).lt_start hp.coherent)
    have hplace := hplace htag
    have hbase : (startAddr + x + s.length) % objSize = (x + s.length) % objSize := by
      simp only [startAddr, objSize]
      omega
    rw [hbase] at hplace
    have hspells := hp.spells hnz hx (k := s.length) (by omega) (by omega)
    have hconverts : Converts (carmStrto (strto value) m) (strto value) h
        (startAddr + (x + s.length)) 10 _ :=
      converts_of_stopsWithin hp.coherent hspells
        ((stopsWithin_number hnumber hend).mono (by omega))
    obtain ⟨h', v', hr, hv'⟩ := hconverts
    rw [hvalue] at hv'
    obtain rfl := Except.ok.inj hv'
    exact ⟨h', by rw [Nat.add_assoc, hr]⟩
  | app hout hend' =>
    have htag : checkCarmObject (str + s.length) = false := checkCarmObject_untagged (by
      show _ < startAddr
      omega)
    -- only the bytes of the number and the one after it count
    have hmem : ∀ j < (signed v).length + 1,
        h.view m (str + s.length + j) = h.mem (str + s.length + j) := fun j hj =>
      view_untagged (by
        show _ < startAddr
        omega)
    refine ⟨h, ?_⟩
    rw [carmStrto, htag, strto_congr (stopsWithin_number hnumber hend) hfuel hmem, hvalue]
    rfl

-- ---------------------------------------------------------------------------
-- There and back
-- ---------------------------------------------------------------------------

/-- The call prints `n` characters, and from character `k` of the buffer on
`carm_strtol` reads `v`, and `carm_strtoul` the same as an `unsigned long`. -/
def ReadsBack (libc : Libc) (m : Manager) (buf : Scratch) (nsArray : Nat → Numeric) (h : Heap)
    (str size : Nat) (format : List UInt8) (va : VaList) (n k : Nat) (v : Int) : Prop :=
  ∃ h₁, Heap.carmSnprintf libc m buf nsArray h str size format va = .ok (h₁, n) ∧
    (∃ h₂, carmStrtol m h₁ (str + k) false 10 = .ok (h₂, v)) ∧
    ∃ h₂, carmStrtoul m h₁ (str + k) false 10 = .ok (h₂, v % 2 ^ 64)

/-- A number that `%d` or `%u` prints anywhere in a text is read back. -/
theorem carmSnprintf_reads_back {fmt : Format} {pre post : List Item} {d : Directive}
    (hc : Coherent m h) (htmp : Own m buf.tmp maxVaStrSize) (hbuf : Buffer m h size str)
    (hfmt : fmt.items = pre ++ .arg d :: post)
    (hpre : Expands (PassedString h buf str size) va.words 0 pre s)
    (hpost : Expands (PassedString h buf str size) va.words ((directives pre).length + 1) post t)
    (hv : d.number (va.words (directives pre).length) = some v)
    (hlt : (s ++ signed v ++ t).length < 2 ^ 31) (hroom : s.length + (signed v).length < size)
    (ht : EndsNumber t) (hplace : checkCarmObject str = true → size ≤ maxVaStrSize ∧
      (str + s.length) % objSize + (signed v).length < objSize) :
    ReadsBack libc m buf nsArray h str size (spelling fmt.items) va (s ++ signed v ++ t).length
      s.length v := by
  have hx : Expands (LocalString h) va.words 0 fmt.items (s ++ signed v ++ t) := by
    have hlocal : ∀ p s, PassedString h buf str size p s → LocalString h p s :=
      fun _ _ hs => hs.string
    rw [hfmt, List.append_assoc]
    refine (hpre.imp hlocal).append ?_
    rw [Nat.zero_add]
    exact .arg (Directive.number_prints hv) (hpost.imp hlocal)
  obtain ⟨h₁, hr, hp⟩ := carmVsnprintf_puts libc nsArray hc htmp hbuf hx hlt
    (Nat.zero_lt_of_lt hroom) fun htag => (hplace htag).1
  have hnz := hx.nonzero fun _ _ hs => hs.nonzero
  obtain ⟨hlo, hhi⟩ := Directive.number_range hv
  have hreads : ∀ value, ∃ h₂, carmStrto (strto value) m h₁ (str + s.length) false 10 =
      .ok (h₂, value (decide (v < 0)) v.natAbs) := fun value =>
    hp.reads value hnz hlt hroom ht fun htag => (hplace htag).2
  refine ⟨h₁, hr, ?_, ?_⟩
  · rw [← longValue_int (v := v) (by omega) (by omega)]
    exact hreads longValue
  · rw [← ulongValue_int (v := v) (by omega) (by omega)]
    exact hreads ulongValue

end

def pairFormat : Format :=
  ⟨[.arg .str, .lit ⟨61, by decide⟩, .arg .dec, .lit ⟨10, by decide⟩], by decide⟩

def pairArgs : VaList := ⟨fun k => if k = 0 then 100 else 2 ^ 32 - 12, fun _ => 0⟩

/-- `b=-12`, in a remote buffer. -/
theorem carmSnprintf_reads_back_pair :
    ReadsBack noFloats cacheManager lowScratch (fun _ => ⟨.Cd, 0, 0, 0, 0, 0⟩) heapWithB
      (startAddr + 0) 16 (spelling pairFormat.items) pairArgs 6 2 (-12) := by
  have hb : PassedString heapWithB lowScratch (startAddr + 0) 16 100 [98] :=
    ⟨heapWithB_string, .inl (by decide), .inl (by decide)⟩
  have hpre : Expands (PassedString heapWithB lowScratch (startAddr + 0) 16) pairArgs.words 0
      [.arg .str, .lit ⟨61, by decide⟩] [98, 61] := .arg (d := .str) (s := [98]) hb (.lit .nil)
  have hpost : Expands (PassedString heapWithB lowScratch (startAddr + 0) 16) pairArgs.words 2
      [.lit ⟨10, by decide⟩] [10] := .lit .nil
  have hback : ReadsBack noFloats cacheManager lowScratch (fun _ => ⟨.Cd, 0, 0, 0, 0, 0⟩) heapWithB
      (startAddr + 0) 16 (spelling pairFormat.items) pairArgs
      ([98, 61] ++ signed (-12) ++ [10]).length [98, 61].length (-12) :=
    carmSnprintf_reads_back (d := .dec) init_coherent (own_low (by decide))
      (Heap.init_buffer (by decide)) rfl hpre hpost (by decide) (by decide) (by decide)
      (show 10 ≤ Conversion.digitVal 10 by decide) fun _ => ⟨by decide, by decide⟩
  exact hback

end TrackFM
