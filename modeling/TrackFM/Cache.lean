import TrackFM.Manager
import Mathlib.Data.Finset.Card
import Mathlib.Algebra.Order.BigOperators.Group.Finset

/-!
# A manager to run with

An object cache with two object-sized lines for every object far memory holds.
A dereferenced object that is away goes to the first line no local copy
touches; there is one, since a copy touches at most two lines.
-/

namespace TrackFM

namespace Cache

abbrev lo : Nat := 1 <<< 46

abbrev lines : Nat := 2 * farObjects

abbrev hi : Nat := lo + lines * objSize

abbrev line (k : Nat) : Nat := lo + k * objSize

abbrev Clear (objs : Nat → Obj) (n k : Nat) : Prop :=
  ∀ p < n, (objs p).Present → Apart (line k) (objs p).addr

def firstClear (objs : Nat → Obj) (n : Nat) : Nat → Nat → Nat
  | 0, k => k
  | fuel + 1, k => if Clear objs n k then k else firstClear objs n fuel (k + 1)

/-- A word that is present, hot and not evacuated. -/
def word (addr : Nat) (dirty : Bool) : Nat := addr * 2 ^ 17 + if dirty then 0 else 0x400

def derefWord (objs : Nat → Obj) (n o : Nat) (mutable : Bool) : Nat :=
  if (objs o).Present then word (objs o).addr (mutable || decide (objs o).Dirty)
  else word (line (firstClear objs n lines 0)) mutable

def awayWord : Nat := 0x500

theorem word_addr : dataAddr (word addr dirty) = addr := by
  simp only [dataAddr, kObjectDataAddrBitPos, word, Nat.shiftRight_eq_div_pow]
  split <;> omega

theorem word_and (hb : b < 2 ^ 17) :
    word addr dirty &&& b = (if dirty then 0 else 0x400) &&& b := by
  have hmod : word addr dirty % 2 ^ 17 = if dirty then 0 else 0x400 := by
    simp only [word]
    split <;> omega
  have hlt : word addr dirty &&& b < 2 ^ 17 := Nat.lt_of_le_of_lt Nat.and_le_right hb
  rw [← Nat.mod_eq_of_lt hlt, Nat.and_mod_two_pow, hmod, Nat.mod_eq_of_lt hb]

theorem word_present : Present (word addr dirty) := by
  rw [Present, word_and (by decide)]
  cases dirty <;> decide

theorem word_dirty : Dirty (word addr dirty) ↔ dirty = true := by
  rw [Dirty, word_and (by decide)]
  cases dirty <;> decide

-- ---------------------------------------------------------------------------
-- There is a clear line
-- ---------------------------------------------------------------------------

def touched (a : Nat) : Finset Nat := {(a - lo) / objSize, (a - lo) / objSize + 1}

theorem apart_line (ha : lo ≤ a) (hk : k ∉ touched a) : Apart (line k) a := by
  simp only [touched, Finset.mem_insert, Finset.mem_singleton, not_or] at hk
  simp only [Apart, line, objSize] at *
  omega

theorem exists_clear (hp : Placed lo hi objs n) (hn : n ≤ farObjects) (ho : o < n)
    (habs : ¬(objs o).Present) : ∃ k < lines, Clear objs n k := by
  let used := (Finset.range n).filter fun p => (objs p).Present
  have hused : used.card < n := by
    have hsub : used ⊆ (Finset.range n).erase o := by
      intro p hp
      simp only [used, Finset.mem_filter, Finset.mem_range] at hp
      simp only [Finset.mem_erase, Finset.mem_range]
      exact ⟨fun he => habs (he ▸ hp.2), hp.1⟩
    have hcard := Finset.card_le_card hsub
    rw [Finset.card_erase_of_mem (Finset.mem_range.mpr ho), Finset.card_range] at hcard
    omega
  have hblocked : (used.biUnion fun p => touched (objs p).addr).card < (Finset.range lines).card := by
    have hle : (used.biUnion fun p => touched (objs p).addr).card ≤ used.card * 2 :=
      Finset.card_biUnion_le_card_mul _ _ _ fun p _ => Finset.card_le_two
    rw [Finset.card_range]
    simp only [lines]
    omega
  obtain ⟨k, hk, hfree⟩ := Finset.exists_mem_notMem_of_card_lt_card hblocked
  refine ⟨k, Finset.mem_range.mp hk, fun p hpn hpp => apart_line (hp.within p hpn hpp).1 ?_⟩
  intro hin
  refine hfree (Finset.mem_biUnion.mpr ⟨p, ?_, hin⟩)
  simp only [used, Finset.mem_filter, Finset.mem_range]
  exact ⟨hpn, hpp⟩

theorem firstClear_spec (hk : k ≤ c) (hc : c < k + fuel) (hclear : Clear objs n c) :
    Clear objs n (firstClear objs n fuel k) ∧ firstClear objs n fuel k ≤ c := by
  induction fuel generalizing k with
  | zero => omega
  | succ fuel ih =>
    rw [firstClear]
    split
    · exact ⟨‹_›, hk⟩
    · rename_i hnot
      have hne : k ≠ c := by
        rintro rfl
        exact hnot hclear
      exact ih (by omega) (by omega)

theorem derefWord_ok (hp : Placed lo hi objs n) (hn : n ≤ farObjects) (ho : o < n) :
    DerefOk lo hi objs n o mutable (derefWord objs n o mutable) := by
  by_cases hpres : (objs o).Present
  · rw [derefWord, if_pos hpres]
    refine ⟨word_present, fun hw => ?_, fun _ => ⟨word_addr, fun hd => ?_⟩,
      fun habs => absurd hpres habs⟩
    · exact word_dirty.mpr (by simp [hw])
    · exact word_dirty.mpr (by rw [decide_eq_true hd, Bool.or_true])
  · rw [derefWord, if_neg hpres]
    refine ⟨word_present, fun hw => word_dirty.mpr hw, fun h => absurd h hpres, fun _ => ?_⟩
    obtain ⟨c, hc, hclear⟩ := exists_clear hp hn ho hpres
    obtain ⟨hfirst, hle⟩ := firstClear_spec (Nat.zero_le c) (show c < 0 + lines by omega) hclear
    rw [word_addr]
    refine ⟨Nat.le_add_right .., ?_, hfirst⟩
    simp only [line, hi, objSize]
    omega

end Cache

/-- Untouched objects contain zeros; a region is a megabyte. -/
def cacheManager : Manager where
  lo := Cache.lo
  hi := Cache.hi
  hi_le := by decide
  fresh _ _ := 0
  derefWord := Cache.derefWord
  derefWord_ok _ _ _ _ := Cache.derefWord_ok
  awayWord _ _ := Cache.awayWord
  awayWord_absent _ _ := by decide
  regionOf a := a / 2 ^ 20 + 1
  regionOf_ne_zero _ := Nat.succ_ne_zero _

end TrackFM
