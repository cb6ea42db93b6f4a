import TrackFM.Strings
import TrackFM.Parked

/-!
# carm_strcmp

`carm_strcmp` takes the number of bytes to compare from its second operand, with
`carm_strlen` if that is remote, and compares them with `carm_memcmp`. The result
is that of `strcmp`, and the comparison stops in time; the scan for the length
goes through the second string to its end all the same.
-/

namespace TrackFM

open Lib (Cuts first order sweep)
open Heap (Coherent Keeps Buffer IsString Untouched carmStrlen carmMemcmp intSize parked)

variable {m : Manager} {h h' h₁ : Heap} {d s o : Operand} {f g : Nat → UInt8}

namespace Heap

def strcmp (h : Heap) (d s : Nat) : Outcome Ordering :=
  match first (fun j => h.mem (d + j) != h.mem (s + j) || h.mem (d + j) == 0) scanFuel with
  | some k => .ok (compare (h.mem (d + k)) (h.mem (s + k)))
  | none => .error .diverge

/-- The two helpers differ from the last branch in how they find the length. -/
def carmStrcmp (m : Manager) (h : Heap) (d s : Nat) : Outcome (Heap × Ordering) := do
  if !checkCarmObject d && !checkCarmObject s then (h.strcmp d s).map (h, ·)
  else if checkCarmObject d && !checkCarmObject s then
    let len ← h.strlen s
    carmMemcmp m h d s (intSize len)
  else
    let (h, len) ← carmStrlen m h s
    carmMemcmp m h d s (intSize len)

end Heap

open Heap (carmStrcmp)

-- ---------------------------------------------------------------------------
-- Where a comparison is decided
-- ---------------------------------------------------------------------------

structure DecidedAt (f g : Nat → UInt8) (k : Nat) : Prop where
  same : ∀ j < k, f j = g j
  chars : ∀ j < k, f j ≠ 0
  here : f k ≠ g k ∨ f k = 0

theorem exists_decidedAt (hd : d.Spells m h n f) (hs : s.Spells m h l g) :
    ∃ k, DecidedAt f g k ∧ k ≤ n ∧ k ≤ l := by
  cases hfirst : first (fun j => f j != g j || f j == 0) (n + 1) with
  | none =>
    have hn := Lib.first_eq_none.mp hfirst n (Nat.lt_succ_self n)
    simp [hd.nul] at hn
  | some k =>
    obtain ⟨hk, hhere, hbefore⟩ := Lib.first_eq_some.mp hfirst
    simp only [Bool.or_eq_true, bne_iff_ne, beq_iff_eq, Bool.or_eq_false_iff,
      bne_eq_false_iff_eq, beq_eq_false_iff_ne] at hhere hbefore
    refine ⟨k, ⟨fun j hj => (hbefore j hj).1, fun j hj => (hbefore j hj).2, hhere⟩,
      Nat.le_of_lt_succ hk, Nat.le_of_not_lt fun hlt => ?_⟩
    obtain ⟨hsame, hchar⟩ := hbefore l hlt
    exact hchar (hsame.trans hs.nul)

theorem DecidedAt.order (hk : DecidedAt f g k) : order f g (k + 1) = compare (f k) (g k) := by
  by_cases hne : f k = g k
  · rw [hne, Std.compare_self]
    refine Lib.order_same fun j hj => ?_
    rcases Nat.eq_or_lt_of_le (Nat.le_of_lt_succ hj) with rfl | hlt
    · exact hne
    · exact hk.same j hlt
  · exact Lib.order_first (Lib.first_eq_some.mpr ⟨Nat.lt_succ_self k, by simpa using hne,
      fun j hj => by simpa using hk.same j hj⟩)

-- ---------------------------------------------------------------------------
-- The call
-- ---------------------------------------------------------------------------

/-- From `h` on, no chunk is dereferenced that starts after byte `k`, and no slot
without a byte up to there. -/
structure StopsAt (m : Manager) (h h' : Heap) (d s : Operand) (k : Nat) : Prop where
  chunks : SomeRemote d s → ∃ ns, Cuts (fun b _ => b ≤ k) 0 ns ∧
    (sweep differ (compareChunk m d s) (h, .eq) 0 ns).1 = h'
  slots : ∀ i, h.Current i → ¬d.Holds (k + 1) i → ¬s.Holds (k + 1) i → h.Untouched h' i

/-- The result is `r`, and once the length `n` of `s` is known no chunk after
the one with byte `k` is dereferenced. -/
def Strcmps (m : Manager) (h : Heap) (d s : Operand) (n k : Nat) (r : Ordering) : Prop :=
  ∃ h₁ h', carmStrlen m h s.addr = .ok (h₁, n) ∧
    carmStrcmp m h d.addr s.addr = .ok (h', r) ∧ Keeps m h h' ∧ StopsAt m h₁ h' d s k

theorem memcmp_strings (hc : Coherent m h) (hk : Keeps m h h₁) (hd : d.Spells m h n f)
    (hs : s.Spells m h l g) (hl : l + 1 < 2 ^ 31) (hdec : DecidedAt f g k) (hkn : k ≤ n)
    (hkl : k ≤ l) : ∃ h', carmMemcmp m h₁ d.addr s.addr (intSize l) =
      .ok (h', compare (f k) (g k)) ∧ Keeps m h h' ∧ StopsAt m h₁ h' d s k := by
  have hd₁ := (hd.shows.mono (show k + 1 ≤ n + 1 by omega)).keeps hc hk
  have hs₁ := (hs.shows.mono (show k + 1 ≤ l + 1 by omega)).keeps hc hk
  have hstop : k + 1 = l + 1 ∨ ∃ j < k + 1, f j ≠ g j := by
    rcases hdec.here with hne | hnul
    · exact .inr ⟨k, Nat.lt_succ_self k, hne⟩
    · by_cases he : f k = g k
      · refine .inl (congrArg (· + 1) (Nat.le_antisymm hkl (Nat.le_of_not_lt fun hlt => ?_)))
        exact hs.chars k hlt (he ▸ hnul)
      · exact .inr ⟨k, Nat.lt_succ_self k, he⟩
  obtain ⟨h', hr, hcmp, hchunks⟩ := carmMemcmp_compares hk.coherent hd₁ hs₁ (Nat.succ_pos k)
    (show k + 1 ≤ l + 1 by omega) hl hstop
  rw [hdec.order] at hr
  refine ⟨h', by rwa [Heap.intSize_eq hl], hk.trans hcmp.keeps, fun hremote => ?_, hcmp.untouched⟩
  obtain ⟨ks, hks, hsweep⟩ := hchunks hremote
  rw [hr] at hsweep
  exact ⟨ks, hks.mono fun _ _ _ _ _ hb => Nat.le_of_lt_succ hb,
    congrArg Prod.fst (Except.ok.inj hsweep).symm⟩

theorem strcmp_strings (hd : d.Spells m h n f) (hs : s.Spells m h l g) (hdec : DecidedAt f g k)
    (hkn : k ≤ n) (hkl : k ≤ l) (hda : d.addr + (n + 1) ≤ startAddr)
    (hsa : s.addr + (l + 1) ≤ startAddr) :
    h.strcmp d.addr s.addr = .ok (compare (f k) (g k)) := by
  have hlim : startAddr = 2 ^ 60 := rfl
  have hraw : ∀ j ≤ k, h.mem (d.addr + j) = f j ∧ h.mem (s.addr + j) = g j := fun j hj => by
    rw [← hd.shows.view j (by omega), ← hs.shows.view j (by omega),
      Heap.view_untagged (by omega), Heap.view_untagged (by omega)]
    exact ⟨rfl, rfl⟩
  have hfirst : first (fun j => h.mem (d.addr + j) != h.mem (s.addr + j) ||
      h.mem (d.addr + j) == 0) Heap.scanFuel = some k := by
    refine Lib.first_eq_some.mpr ⟨by simp only [Heap.scanFuel]; omega, ?_, fun j hj => ?_⟩
    · simpa [hraw k (Nat.le_refl k)] using hdec.here
    · simpa [hraw j (Nat.le_of_lt hj)] using ⟨hdec.same j hj, hdec.chars j hj⟩
  rw [Heap.strcmp, hfirst]
  simp only [hraw k (Nat.le_refl k)]

theorem carmStrcmp_strcmps (hc : Coherent m h) (hd : d.Spells m h n f) (hs : s.Spells m h l g)
    (hl : l + 1 < 2 ^ 31) (hdec : DecidedAt f g k) (hkn : k ≤ n) (hkl : k ≤ l) :
    Strcmps m h d s l k (compare (f k) (g k)) := by
  cases s with
  | remote y =>
    have hcur : ∀ j < l + 1, h.Current ((y + j) / objSize) := hs.shows.reads
    have htag : checkCarmObject (startAddr + y) = true :=
      checkCarmObject_start ((hcur 0 (Nat.succ_pos l)).lt_start hc)
    obtain ⟨h₁, hlen, hk, -⟩ := Heap.carmStrlen_remote hc (by omega) hs.isString hcur
    obtain ⟨h', hr, hk', hstop⟩ := memcmp_strings hc hk hd hs hl hdec hkn hkl
    refine ⟨h₁, h', hlen, ?_, hk', hstop⟩
    show carmStrcmp m h d.addr (startAddr + y) = _
    rw [carmStrcmp, htag, hlen, Bool.not_true, Bool.and_false, Bool.and_false]
    exact hr
  | app b =>
    have hlt : b + (l + 1) ≤ startAddr := hs.shows.reads.2
    have hstr : IsString m h b l := hs.isString
    have hlen : carmStrlen m h b = .ok (h, l) := Heap.carmStrlen_app hstr hlt
    have htag : checkCarmObject b = false :=
      checkCarmObject_untagged (show b < startAddr by omega)
    cases d with
    | remote x =>
      have hcur : ∀ j < n + 1, h.Current ((x + j) / objSize) := hd.shows.reads
      have hdtag : checkCarmObject (startAddr + x) = true :=
        checkCarmObject_start ((hcur 0 (Nat.succ_pos n)).lt_start hc)
      obtain ⟨h', hr, hk', hstop⟩ := memcmp_strings hc (.refl hc) hd hs hl hdec hkn hkl
      refine ⟨h, h', hlen, ?_, hk', hstop⟩
      show carmStrcmp m h (startAddr + x) b = _
      rw [carmStrcmp, htag, hdtag, Heap.strlen_string hstr hlt]
      exact hr
    | app a =>
      have hdlt : a + (n + 1) ≤ startAddr := hd.shows.reads.2
      have hdtag : checkCarmObject a = false :=
        checkCarmObject_untagged (show a < startAddr by omega)
      refine ⟨h, h, hlen, ?_, .refl hc, False.elim, fun _ _ _ _ => .refl⟩
      have hcmp := strcmp_strings hd hs hdec hkn hkl hdlt hlt
      show carmStrcmp m h a b = _
      simp only [Operand.addr] at hcmp
      rw [carmStrcmp, htag, hdtag, hcmp]
      rfl

/-- `carm_strcmp` agrees with `strcmp`, and the comparison stops in time. -/
theorem strcmp_agrees (hc : Coherent m h) (hd : d.Spells m h n f) (hs : s.Spells m h l g)
    (hl : l + 1 < 2 ^ 31) : ∃ k, DecidedAt f g k ∧ Strcmps m h d s l k (compare (f k) (g k)) := by
  obtain ⟨k, hdec, hkn, hkl⟩ := exists_decidedAt hd hs
  exact ⟨k, hdec, carmStrcmp_strcmps hc hd hs hl hdec hkn hkl⟩

-- ---------------------------------------------------------------------------
-- The scan for the length
-- ---------------------------------------------------------------------------

def longString (a : Nat) : UInt8 := if a < startAddr + objSize then 66 else 0

theorem longString_spells : Operand.Spells cacheManager (parked [0, 1] longString) objSize
    (fun j => longString (startAddr + j)) (.remote 0) := by
  have hpark : Heap.Parkable [0, 1] := ⟨by decide, by decide, by decide, by decide⟩
  have hin : ∀ j < objSize + 1, (0 + j) / objSize ∈ [0, 1] := fun j hj => by
    simp only [objSize, List.mem_cons, List.not_mem_nil, or_false] at *
    omega
  refine ⟨⟨fun j hj => Heap.parked_current hpark (hin j hj), fun j hj => ?_⟩, fun j hj => ?_, ?_⟩
  · show (parked [0, 1] longString).view cacheManager (startAddr + 0 + j) = _
    rw [Nat.add_assoc, Heap.parked_view hpark (hin j hj), Nat.zero_add]
  · rw [longString, if_pos (Nat.add_lt_add_left hj _)]
    decide
  · exact if_neg (Nat.lt_irrefl _)

theorem empty_spells : Operand.Spells cacheManager (parked [0, 1] longString) 0
    (fun _ => 0) (.app 100) := by
  refine ⟨⟨⟨fun j hj => .inl ?_, by decide⟩, fun j hj => ?_⟩, nofun, rfl⟩
  · simp only [cacheManager, Cache.lo]
    omega
  · rw [Operand.addr, Heap.view_untagged (by omega)]
    rfl

theorem strcmp_agrees_empty : ∃ k, DecidedAt (fun _ => 0) (fun j => longString (startAddr + j)) k ∧
    Strcmps cacheManager (parked [0, 1] longString) (.app 100) (.remote 0) objSize k
      (compare 0 (longString (startAddr + k))) :=
  strcmp_agrees (Heap.parked_coherent ⟨by decide, by decide, by decide, by decide⟩) empty_spells
    longString_spells (by decide)

/-- The length of `s` is found by dereferencing all of it. -/
theorem strcmp_scans_on : ¬∀ m h d s f g n l, Coherent m h → Operand.Spells m h n f d →
    Operand.Spells m h l g s → n + 1 < 2 ^ 31 → l + 1 < 2 ^ 31 → ∃ k h', DecidedAt f g k ∧
      carmStrcmp m h d.addr s.addr = .ok (h', compare (f k) (g k)) ∧ Keeps m h h' ∧
      (SomeRemote d s → ∀ i, h.Current i → ¬d.Holds (k + 1) i → ¬s.Holds (k + 1) i →
        h.Untouched h' i) := by
  intro hall
  have hpark : Heap.Parkable [0, 1] := ⟨by decide, by decide, by decide, by decide⟩
  have hc : Coherent cacheManager (parked [0, 1] longString) := Heap.parked_coherent hpark
  obtain ⟨k, h', hdec, hr, -, hfar⟩ := hall cacheManager _ (.app 100) (.remote 0) _ _ 0 objSize hc
    empty_spells longString_spells (by decide) (by decide)
  obtain rfl : k = 0 := by
    by_contra hk
    exact hdec.chars 0 (Nat.pos_of_ne_zero hk) rfl
  have hcur : (parked [0, 1] longString).Current 1 := Heap.parked_current hpark (by decide)
  have hnot : ¬(Operand.remote 0).Holds (0 + 1) 1 := by
    rintro ⟨j, hj, he⟩
    obtain rfl : j = 0 := by omega
    cases he
  have hu := hfar trivial 1 hcur id hnot
  obtain ⟨h₁, h₂, hlen, hr₂, -, hstop⟩ := carmStrcmp_strcmps hc empty_spells longString_spells
    (by decide) hdec (Nat.le_refl 0) (Nat.zero_le _)
  obtain ⟨h₃, hlen₃, hk, base, o, ho, hpres, -⟩ := Heap.carmStrlen_remote hc (by decide)
    longString_spells.isString longString_spells.shows.reads
  obtain rfl : h₁ = h₃ := congrArg Prod.fst (Except.ok.inj (hlen.symm.trans hlen₃))
  obtain rfl : h' = h₂ := congrArg Prod.fst (Except.ok.inj (hr.symm.trans hr₂))
  -- the comparison left slot 1 as the scan did, which had fetched its object
  have hu₁ := hstop.slots 1 (hk.current 1 hcur) id hnot
  have ho : h₁.ptrs 1 = some o := ho
  have hsame : h₁.objs o = (parked [0, 1] longString).objs o := by
    rw [← hu₁.objs o ho, hu.objs o (by rw [← hu.ptrs, hu₁.ptrs, ho])]
  rw [hsame] at hpres
  exact flushed hpres

end TrackFM
