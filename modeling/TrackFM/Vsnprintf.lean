import TrackFM.Printf
import TrackFM.Files

/-!
# carm_vsnprintf

The three ways `carm_vsnprintf` formats. With no remote string it calls
`vsnprintf`, for a remote destination by way of a buffer of 4096 bytes from which
it copies `size` bytes whatever the text is. With a remote string it formats by
hand, and its count has one more for each directive and each string.
-/

namespace TrackFM

open Lib (blit_out)
open Heap (Coherent Keeps Usable Writes Buffer IsString carmStrlen carmMemcpy intSize store_app
  view_untagged)

abbrev tempSize : Nat := maxVaArgs * maxVaStrSize

-- ---------------------------------------------------------------------------
-- Staying in its own buffers
-- ---------------------------------------------------------------------------

namespace Heap

/-- The loop of `__vsn_printf`, which may not write past `limit`. -/
def vsnPrintfLoopTo (libc : Libc) (m : Manager) (vargsValues : Nat → Numeric) (limit : Nat) :
    List UInt8 → Nat → Heap → Nat → Nat → Outcome (Heap × Nat)
  | [], _, h, _, size => .ok (h, size)
  | c :: format, i, h, temp, size =>
    if c = percent then
      match format with
      | [] => .error .exit
      | d :: format => do
        let (h, n) ← vsnDirective libc m h temp (vargsValues i) d
        if limit < temp + n then throw .undefined
        vsnPrintfLoopTo libc m vargsValues limit format (i + 1) h (u64 (temp + n))
          (u32 (size + 1 + n))
    else if limit < temp + 1 then .error .undefined
    else
      vsnPrintfLoopTo libc m vargsValues limit format i (h.putText temp [c]) (temp + 1)
        (u32 (size + 1))

end Heap

/-- The call writes and reads no byte past the end of its own buffers. -/
def InOwnBuffers (libc : Libc) (m : Manager) (buf : Scratch) (nsArray : Nat → Numeric) (h : Heap)
    (str size : Nat) (format : List UInt8) (va : VaList) : Prop :=
  let (vargsValues, vargsIsCptr) := parseVaList (parseVaArgTypes 0 format) 0 nsArray va false
  if vargsIsCptr then
    ∃ h' k, Heap.vsnPrintfLoopTo libc m vargsValues (buf.temp + tempSize) format 0
        (h.memset buf.temp 0 tempSize) buf.temp 0 = .ok (h', k) ∧ sizeOfInt k ≤ tempSize
  else checkCarmObject str = true → size ≤ maxVaStrSize

section

variable {libc : Libc} {m : Manager} {buf : Scratch} {vals nsArray : Nat → Numeric} {h h' : Heap}

theorem Heap.vsnPrintfLoopTo_lit (hc : c ≠ percent)
    (hr : Heap.vsnPrintfLoopTo libc m vals limit (c :: format) i h temp size = .ok r) :
    temp + 1 ≤ limit ∧ Heap.vsnPrintfLoopTo libc m vals limit format i (h.putText temp [c])
      (temp + 1) (u32 (size + 1)) = .ok r := by
  rw [Heap.vsnPrintfLoopTo.eq_def] at hr
  simp only [if_neg hc] at hr
  split at hr
  case isTrue => exact nomatch hr
  case isFalse hle => exact ⟨Nat.le_of_not_lt hle, hr⟩

theorem Heap.vsnPrintfLoopTo_directive
    (hr : Heap.vsnPrintfLoopTo libc m vals limit (percent :: c :: format) i h temp size = .ok r) :
    ∃ h' n, Heap.vsnDirective libc m h temp (vals i) c = .ok (h', n) ∧ temp + n ≤ limit ∧
      Heap.vsnPrintfLoopTo libc m vals limit format (i + 1) h' (u64 (temp + n))
        (u32 (size + 1 + n)) = .ok r := by
  rw [Heap.vsnPrintfLoopTo.eq_def] at hr
  simp only [if_true, bind_ok] at hr
  obtain ⟨⟨h', n⟩, hd, hr⟩ := hr
  refine ⟨h', n, hd, ?_⟩
  by_cases hle : limit < temp + n
  · simp only [if_pos hle] at hr
    exact nomatch hr
  · simp only [if_neg hle] at hr
    exact ⟨Nat.le_of_not_lt hle, hr⟩

/-- The limit changes nothing else. -/
theorem Heap.vsnPrintfLoop_of_to (format : List UInt8) :
    ∀ {i h temp size}, Heap.vsnPrintfLoopTo libc m vals limit format i h temp size = .ok r →
      Heap.vsnPrintfLoop libc m vals format i h temp size = .ok r := by
  induction hn : format.length using Nat.strongRecOn generalizing format with
  | ind n ih =>
    intro i h temp size hr
    cases format with
    | nil => exact hr
    | cons c format =>
      rw [Heap.vsnPrintfLoop.eq_def]
      by_cases hc : c = percent
      · subst hc
        simp only [if_true]
        cases format with
        | nil => exact nomatch hr
        | cons d format =>
          obtain ⟨h', k, hd, -, hrest⟩ := Heap.vsnPrintfLoopTo_directive hr
          simp only [hd]
          exact ih format.length (by simp at hn; omega) format rfl hrest
      · simp only [if_neg hc]
        exact ih format.length (by simp at hn; omega) format rfl (Heap.vsnPrintfLoopTo_lit hc hr).2

end

-- ---------------------------------------------------------------------------
-- What the call is to do
-- ---------------------------------------------------------------------------

/-- A string the caller passes, local or remote: it is not in the call's buffers. -/
structure ArgString (m : Manager) (h : Heap) (buf : Scratch) (p : Nat) (s : List UInt8) : Prop where
  string : IsString m h p s.length
  chars : ∀ j (hj : j < s.length), h.view m (p + j) = s[j]
  apart : p + (s.length + 1) ≤ buf.temp ∨ buf.temp + tempSize ≤ p

/-- `t`, cut to `size - 1` characters, and a NUL are at `str`; nothing past `size`
bytes and outside the buffers changes; the result is the length of `t`. -/
def Agrees (libc : Libc) (m : Manager) (buf : Scratch) (nsArray : Nat → Numeric) (h : Heap)
    (str size : Nat) (format : List UInt8) (va : VaList) (t : List UInt8) : Prop :=
  InOwnBuffers libc m buf nsArray h str size format va ∧
    ∃ h', Heap.carmVsnprintf libc m buf nsArray h str size format va = .ok (h', t.length) ∧
      (∀ j (hj : j < (t.take (size - 1) ++ [0]).length),
        h'.view m (str + j) = (t.take (size - 1) ++ [0])[j]) ∧
      ∀ a, Usable m h a → a < str ∨ str + size ≤ a → a < buf.temp ∨ buf.temp + tempSize ≤ a →
        a < buf.tmp ∨ buf.tmp + maxVaStrSize ≤ a → h'.view m a = h.view m a

section

variable {libc : Libc} {m : Manager} {buf : Scratch} {vals nsArray : Nat → Numeric}
  {h h' h₁ h₂ : Heap} {a n d k : Nat} {f : Nat → UInt8} {t s : List UInt8}

theorem ArgString.confined (hs : ArgString m h buf p s)
    (hf : Confined m h h' buf.temp tempSize) : IsString m h' p s.length := by
  have hview : ∀ j < s.length + 1, h'.view m (p + j) = h.view m (p + j) := fun j hj => by
    have := hs.apart
    exact Confined.view hf (hs.string.buffer.usable j hj) (by omega)
  exact ⟨hs.string.buffer.mono hf.current,
    fun j hj => (hview j (Nat.lt_succ_of_lt hj)) ▸ hs.string.chars j hj,
    (hview _ (Nat.lt_succ_self _)).trans hs.string.nul⟩

-- ---------------------------------------------------------------------------
-- The count of the hand-written formatter
-- ---------------------------------------------------------------------------

theorem Own.scratch (ho : Own m a n) (hf : Confined m h h₁ a n) (hd : a ≤ d)
    (hk : d + k ≤ a + n) (f : Nat → UInt8) : Confined m h (h₁.store d k f) a n :=
  Stored.scratch hf ((ho.sub hd hk).store hf.coherent) hd hk

theorem intSize_small (hn : n < 2 ^ 31) (hle : intSize n ≤ tempSize) : n + 1 < 2 ^ 31 := by
  by_contra hge
  obtain rfl : n = 2 ^ 31 - 1 := by omega
  exact absurd hle (by decide)

theorem Directive.Prints.directive {d : Directive} {ns : Numeric} (ho : Own m buf.temp tempSize)
    (hf : Confined m h h₁ buf.temp tempSize) (hp : d.Prints (ArgString m h buf) w s)
    (ht : d.Takes w ns) (hlt : s.length < 2 ^ 31) (hc : buf.temp ≤ c)
    (hr : Heap.vsnDirective libc m h₁ c ns d.char = .ok (h₂, n))
    (hend : c + n ≤ buf.temp + tempSize) :
    n = s.length + d.extra ∧ Confined m h h₂ buf.temp tempSize := by
  cases d with
  | str =>
    have hs : ArgString m h buf w s := hp
    obtain rfl : ns.p = w := ht
    have hstr := hs.confined hf
    obtain ⟨h₃, hlen, hk⟩ := hstr.carmStrlen hf.coherent hlt
    simp only [Directive.char, Heap.vsnDirective, bind_ok, hlen] at hr
    obtain ⟨_, hr₁, ⟨h₄, d⟩, hcopy, hr⟩ := hr
    obtain rfl := Except.ok.inj hr₁
    obtain ⟨rfl, rfl⟩ := Prod.mk.inj (Except.ok.inj hr)
    simp only at hcopy hend ⊢
    have hsmall := intSize_small hlt (by omega)
    rw [Heap.intSize_eq hsmall] at hcopy hend ⊢
    have hown := ho.sub hc hend
    obtain ⟨h₅, hcopy', hw⟩ := hown.buffer.memmoves (hstr.buffer.mono hk.current) hk.coherent
      hsmall (.inl (show c < startAddr by have := hown.untagged; omega))
    obtain rfl : h₄ = h₅ := congrArg Prod.fst (Except.ok.inj (hcopy.symm.trans hcopy'))
    exact ⟨rfl, (Stored.keeps hf hk).scratch hw hc hend⟩
  | dec =>
    obtain ⟨rfl, rfl⟩ := Prod.mk.inj (Except.ok.inj hr)
    have hs : s = signed (intOf w) := hp
    rw [← show ns.i = intOf w from ht] at hs
    exact ⟨hs ▸ rfl, ho.scratch hf hc hend _⟩
  | uns =>
    obtain ⟨rfl, rfl⟩ := Prod.mk.inj (Except.ok.inj hr)
    have hs : s = decimal (u32 w) := hp
    rw [← show ns.ui = u32 w from ht] at hs
    exact ⟨hs ▸ rfl, ho.scratch hf hc hend _⟩

theorem Expands.loop_size {ws : Nat → Nat} {items : List Item} (ho : Own m buf.temp tempSize)
    (hx : Expands (ArgString m h buf) ws i items t) (hs : Supplied vals ws i (directives items))
    (hlt : t.length < 2 ^ 31) (hf : Confined m h h₁ buf.temp tempSize) (hc : buf.temp ≤ c)
    (hk : k < 2 ^ 32)
    (hr : Heap.vsnPrintfLoopTo libc m vals (buf.temp + tempSize) (spelling items) i h₁ c k =
      .ok (h', n)) :
    n = u32 (k + (t.length + (directives items).length + strings items)) := by
  induction hx generalizing h₁ c k with
  | nil =>
    obtain ⟨-, rfl⟩ := Prod.mk.inj (Except.ok.inj hr)
    exact (Nat.mod_eq_of_lt hk).symm
  | @lit i items t ch hx ih =>
    rw [List.length_cons] at hlt ⊢
    obtain ⟨hend, hrest⟩ := Heap.vsnPrintfLoopTo_lit ch.property.2 hr
    have hf' := ho.scratch hf hc (k := 1) hend fun j => [ch.val].getD j 0
    rw [ih hs (Nat.lt_of_succ_lt hlt) hf' (by omega) (Nat.mod_lt _ (by decide)) hrest]
    simp only [u32, directives, strings]
    omega
  | @arg i items t d s hd hx ih =>
    rw [List.length_append] at hlt ⊢
    obtain ⟨h₂, j, hdir, hend, hrest⟩ := Heap.vsnPrintfLoopTo_directive hr
    obtain ⟨rfl, hf'⟩ := hd.directive ho hf hs.head (by omega) hc hdir hend
    have hu : u64 (c + (s.length + d.extra)) = c + (s.length + d.extra) :=
      Nat.mod_eq_of_lt (by
        have : c + (s.length + d.extra) ≤ 2 ^ 60 := hend.trans ho.untagged
        omega)
    rw [hu] at hrest
    rw [ih hs.tail (by omega) hf' (by omega) (Nat.mod_lt _ (by decide)) hrest, strings_arg,
      directives, List.length_cons]
    simp only [u32]
    omega

-- ---------------------------------------------------------------------------
-- Remote strings
-- ---------------------------------------------------------------------------

variable {ws : Nat → Nat} {va : VaList} {items : List Item} {str size : Nat}

def RemoteString (items : List Item) (ws : Nat → Nat) : Prop :=
  ∃ k, (directives items)[k]? = some .str ∧ checkCarmObject (ws k) = true

theorem parse_cptr :
    (parseVaList (parseVaArgTypes 0 (spelling items)) 0 nsArray va false).2 = true ↔
      RemoteString items va.words := by
  rw [parse_spelling (by decide), parseVaList_cptr VaList.from_zero, RemoteString]
  simp

theorem parse_local (nsArray : Nat → Numeric) (hrem : ¬ RemoteString items va.words) :
    (parseVaList (parseVaArgTypes 0 (spelling items)) 0 nsArray va false).2 = false :=
  Bool.of_not_eq_true (mt parse_cptr.mp hrem)

theorem parse_supplied : Supplied
    (parseVaList (parseVaArgTypes 0 (spelling items)) 0 nsArray va false).1 va.words 0
    (directives items) := by
  rw [parse_spelling (by decide)]
  exact parseVaList_supplied VaList.from_zero

/-- The count is not the length of the text. -/
theorem intOf_count (hlt : n < 2 ^ 31) (hk : 0 < k) (hsmall : k < 2 ^ 31) :
    intOf (u32 (n + k)) ≠ n := by
  intro he
  have hu : u32 (n + k) = n + k := Nat.mod_eq_of_lt (by omega)
  rw [hu] at he
  have hmod := Int.bmod_emod (x := ((n + k : Nat) : Int)) (m := 2 ^ 32)
  rw [show ((n + k : Nat) : Int).bmod (2 ^ 32) = n from he] at hmod
  omega

theorem Agrees.no_remote (ha : Agrees libc m buf nsArray h str size (spelling items) va t)
    (hc : Coherent m h) (ho : Own m buf.temp tempSize)
    (hx : Expands (ArgString m h buf) va.words 0 items t) (hlt : t.length < 2 ^ 31)
    (hfew : (directives items).length ≤ maxVaArgs) : ¬ RemoteString items va.words := by
  intro hrem
  obtain ⟨hin, h', hr, -⟩ := ha
  have hcptr : (parseVaList (parseVaArgTypes 0 (spelling items)) 0 nsArray va false).2 = true :=
    parse_cptr.mpr hrem
  simp only [InOwnBuffers, hcptr, if_true] at hin
  obtain ⟨h₁, k, hloop, -⟩ := hin
  have hset : Writes m h (h.memset buf.temp 0 tempSize) buf.temp tempSize _ := ho.store hc
  have hf : Confined m h _ buf.temp tempSize := (Stored.refl hc).bounce hset (Nat.le_refl _)
  have hk := hx.loop_size ho parse_supplied hlt hf (Nat.le_refl _) (by decide) hloop
  have hpos : 0 < (directives items).length := by
    obtain ⟨j, hj, -⟩ := hrem
    exact List.length_pos_of_mem (List.mem_of_getElem? hj)
  have hstrings : strings items ≤ (directives items).length := List.count_le_length
  simp only [maxVaArgs] at hfew
  simp only [Heap.carmVsnprintf, hcptr, Bool.not_true, Bool.false_eq_true, if_false,
    Heap.vsnPrintf, bind_ok, Heap.vsnPrintfLoop_of_to _ hloop] at hr
  obtain ⟨_, hr₁, ⟨h₂, d⟩, -, hr⟩ := hr
  obtain rfl := Except.ok.inj hr₁
  have hret := (Prod.mk.inj (Except.ok.inj hr)).2
  rw [hk, Nat.zero_add, Nat.add_assoc] at hret
  exact intOf_count hlt (by omega) (by omega) hret

-- ---------------------------------------------------------------------------
-- Local strings
-- ---------------------------------------------------------------------------

theorem ArgString.localString (hs : ArgString m h buf p s) (hc : Coherent m h)
    (hp : checkCarmObject p = false) : LocalString h p s := by
  rcases hs.string.buffer.tag hc (Nat.succ_pos _) with htag | ⟨-, -, hend⟩
  · exact nomatch hp.symm.trans htag
  have hview : ∀ j < s.length + 1, h.mem (p + j) = h.view m (p + j) := fun j hj =>
    (view_untagged ((Nat.add_lt_add_left hj p).trans_le hend)).symm
  refine ⟨hp, fun j hj => ?_, fun c hcm => ?_, ?_⟩
  · rw [hview j (Nat.lt_succ_of_lt hj)]
    exact hs.chars j hj
  · obtain ⟨j, hj, rfl⟩ := List.getElem_of_mem hcm
    rw [← hs.chars j hj]
    exact hs.string.chars j hj
  · rw [hview _ (Nat.lt_succ_self _)]
    exact hs.string.nul

theorem Expands.localStrings (hx : Expands (ArgString m h buf) ws i items t) (hc : Coherent m h)
    (hp : ∀ k, (directives items)[k]? = some .str → checkCarmObject (ws (i + k)) = false) :
    Expands (LocalString h) ws i items t := by
  induction hx with
  | nil => exact .nil
  | lit hx ih => exact .lit (ih hp)
  | @arg i items t d s hd hx ih =>
    refine .arg ?_ (ih fun k hk => ?_)
    · cases d with
      | str => exact ArgString.localString hd hc (hp 0 rfl)
      | dec => exact hd
      | uns => exact hd
    · rw [Nat.add_assoc, Nat.add_comm 1 k]
      exact hp (k + 1) hk

abbrev truncated (t : List UInt8) (size : Nat) : List UInt8 := t.take (size - 1) ++ [0]

theorem truncated_length (hsize : 0 < size) : (truncated t size).length ≤ size := by
  rw [List.length_append, List.length_take, List.length_singleton]
  omega

theorem putBounded_pos (hsize : 0 < size) :
    h.putBounded d size t = h.putText d (truncated t size) :=
  if_neg (Nat.ne_of_gt hsize)

theorem Own.putBounded (ho : Own m d n) (hc : Coherent m h) (hsize : 0 < size) (hn : size ≤ n) :
    Writes m h (h.putBounded d size t) d (truncated t size).length fun j =>
      (truncated t size).getD j 0 := by
  rw [putBounded_pos hsize]
  exact (ho.front ((truncated_length hsize).trans hn)).store hc

theorem getD_truncated (hj : d < (truncated t size).length) :
    (truncated t size).getD d 0 = (truncated t size)[d] := by
  simp [List.getD, List.getElem?_eq_getElem hj]

theorem agrees_local (hx : Expands (LocalString h) va.words 0 items t) (hc : Coherent m h)
    (hlt : t.length < 2 ^ 31) (hrem : ¬ RemoteString items va.words) (hsize : 0 < size)
    (hstr : Own m str size) : Agrees libc m buf nsArray h str size (spelling items) va t := by
  have hcptr := parse_local nsArray hrem
  have htag : checkCarmObject str = false :=
    checkCarmObject_untagged ((Nat.lt_add_of_pos_right hsize).trans_le hstr.untagged)
  have hw : Writes m h (h.putBounded str size t) str _ _ :=
    hstr.putBounded (t := t) hc hsize (Nat.le_refl size)
  have hle := truncated_length (t := t) hsize
  refine ⟨?_, _, hx.carmVsnprintf hlt htag, fun j hj => ?_, fun a hu ha _ _ => ?_⟩
  · simp only [InOwnBuffers, hcptr, Bool.false_eq_true, if_false, htag]
    exact nofun
  · rw [hw.view _ (hstr.buffer.usable j (hj.trans_le hle)), Lib.blit_at hj, getD_truncated hj]
  · rw [hw.view a hu, blit_out (by omega)]

theorem agrees_bounced (hx : Expands (LocalString h) va.words 0 items t) (hc : Coherent m h)
    (hlt : t.length < 2 ^ 31) (hrem : ¬ RemoteString items va.words) (hsize : 0 < size)
    (hfit : size ≤ maxVaStrSize) (htmp : Own m buf.tmp maxVaStrSize) (hstr : Buffer m h size str)
    (htag : checkCarmObject str = true) :
    Agrees libc m buf nsArray h str size (spelling items) va t := by
  have hcptr := parse_local nsArray hrem
  have hfuel : t.length < Heap.scanFuel := by
    simp only [Heap.scanFuel]
    omega
  have hw : Writes m h (h.putBounded buf.tmp size t) buf.tmp _ _ :=
    htmp.putBounded (t := t) hc hsize hfit
  have hown := htmp.front hfit
  obtain ⟨h₂, hcopy, hw₂⟩ := (hstr.mono hw.current).memmoves (hown.buffer) hw.coherent
    (hfit.trans_lt (by decide)) (.inr (.inl (htmp.lt_start (by decide))))
  have hle := truncated_length (t := t) hsize
  refine ⟨?_, h₂, ?_, fun j hj => ?_, fun a hu ha _ hout => ?_⟩
  · simp only [InOwnBuffers, hcptr, Bool.false_eq_true, if_false]
    exact fun _ => hfit
  · simp only [Heap.carmVsnprintf, hcptr, htag, Libc.vsnprintf, hx.expand VaList.from_zero hfuel,
      Bool.not_false, Bool.not_true, Bool.false_eq_true, if_true, if_false, bind, Except.bind,
      pure, Except.pure, hcopy, intOf_eq hlt]
  · have hjs := hj.trans_le hle
    rw [hw₂.view _ ((hstr.usable j hjs).mono hw.current), Lib.blit_at hjs,
      hw.view _ ((hown.buffer (h := h)).usable j hjs), Lib.blit_at hj, getD_truncated hj]
  · rw [hw₂.view a (hu.mono hw.current), blit_out (by omega), hw.view a hu, blit_out (by omega)]

end

theorem carmVsnprintf_agrees_iff {libc : Libc} {m : Manager} {buf : Scratch}
    {nsArray : Nat → Numeric} {h : Heap} {str size : Nat} {fmt : Format} {va : VaList}
    {t : List UInt8} (hc : Coherent m h) (htemp : Own m buf.temp tempSize)
    (htmp : Own m buf.tmp maxVaStrSize) (hx : Expands (ArgString m h buf) va.words 0 fmt.items t)
    (hlt : t.length < 2 ^ 31) (hsize : 0 < size) (hstr : Buffer m h size str) :
    Agrees libc m buf nsArray h str size (spelling fmt.items) va t ↔
      ¬ RemoteString fmt.items va.words ∧ (checkCarmObject str = false ∨ size ≤ maxVaStrSize) := by
  constructor
  · intro ha
    have hrem := ha.no_remote hc htemp hx hlt fmt.few
    have hcptr := parse_local nsArray hrem
    have hin := ha.1
    simp only [InOwnBuffers, hcptr, Bool.false_eq_true, if_false] at hin
    refine ⟨hrem, ?_⟩
    cases htag : checkCarmObject str with
    | false => exact .inl rfl
    | true => exact .inr (hin htag)
  · rintro ⟨hrem, hfit⟩
    have hlocal := hx.localStrings hc fun k hk => by
      rw [Nat.zero_add]
      exact Bool.of_not_eq_true fun ht => hrem ⟨k, hk, ht⟩
    rcases hstr.tag hc hsize with htag | ⟨-, hout, hend⟩
    · exact agrees_bounced hlocal hc hlt hrem hsize
        (hfit.resolve_left fun h => nomatch htag.symm.trans h) htmp hstr htag
    · exact agrees_local hlocal hc hlt hrem hsize ⟨hout, hend⟩

-- ---------------------------------------------------------------------------
-- A local and a remote string
-- ---------------------------------------------------------------------------

def lowScratch : Scratch := ⟨20000, 5000⟩

theorem heapWithB_arg : ArgString cacheManager heapWithB lowScratch 100 [98] where
  string := ⟨(own_low (by decide)).buffer, fun j hj => by
    obtain rfl := Nat.lt_one_iff.mp hj
    decide, by decide⟩
  chars j hj := by
    obtain rfl := Nat.lt_one_iff.mp hj
    rfl
  apart := .inl (by decide)

theorem carmVsnprintf_agrees_cut :
    Agrees noFloats cacheManager lowScratch (fun _ => ⟨.Cd, 0, 0, 0, 0, 0⟩) heapWithB
      (startAddr + 0) 2 (spelling letterString.items) addressOfB [97, 98] := by
  have hx : Expands (ArgString cacheManager heapWithB lowScratch) addressOfB.words 0
      letterString.items [97, 98] := .lit (.arg (d := .str) (s := [98]) heapWithB_arg .nil)
  have hlocal : checkCarmObject 100 = false := by decide
  exact (carmVsnprintf_agrees_iff init_coherent (own_low (by decide)) (own_low (by decide)) hx
    (by decide) (by decide) (Heap.init_buffer (by decide))).mpr
    ⟨fun ⟨_, _, ht⟩ => absurd (hlocal.symm.trans ht) (by decide), .inr (by decide)⟩

def oneString : Format := ⟨[.arg .str], by decide⟩

theorem writtenHeap_string : ArgString cacheManager writtenHeap lowScratch (startAddr + 7) [7] := by
  have hnul : writtenHeap.view cacheManager (startAddr + 8) = 0 := by
    rw [writtenHeap_view (by decide), if_neg (by decide)]
  have hchar : writtenHeap.view cacheManager (startAddr + 7) = 7 := by
    rw [writtenHeap_view (by decide), if_pos rfl]
  refine ⟨⟨.remote fun j hj => writtenHeap_current (n := 2) (by decide) j (by simpa using hj),
    fun j hj => ?_, hnul⟩, fun j hj => ?_, .inr (by decide)⟩
  · obtain rfl := Nat.lt_one_iff.mp hj
    rw [Nat.add_zero, hchar]
    decide
  · obtain rfl := Nat.lt_one_iff.mp hj
    exact hchar

/-- One remote string of one character: the call returns 3. -/
theorem carmVsnprintf_miscounts : ¬∀ libc m buf nsArray h str size va t (fmt : Format),
    Coherent m h → Own m buf.temp tempSize → Own m buf.tmp maxVaStrSize →
    Expands (ArgString m h buf) va.words 0 fmt.items t → t.length < 2 ^ 31 → 0 < size →
    Buffer m h size str → Agrees libc m buf nsArray h str size (spelling fmt.items) va t := by
  intro hall
  have hx : Expands (ArgString cacheManager writtenHeap lowScratch) (fun _ => startAddr + 7) 0
      oneString.items [7] := .arg (d := .str) (s := [7]) writtenHeap_string .nil
  have ha := hall noFloats cacheManager lowScratch (fun _ => ⟨.Cd, 0, 0, 0, 0, 0⟩) writtenHeap
    200 10 ⟨fun _ => startAddr + 7, fun _ => 0⟩ [7] oneString writtenHeap_writes.coherent
    (own_low (by decide)) (own_low (by decide)) hx (by decide) (by decide)
    (own_low (by decide)).buffer
  exact ha.no_remote writtenHeap_writes.coherent (own_low (by decide)) hx (by decide) (by decide)
    ⟨0, rfl, by decide⟩

end TrackFM
