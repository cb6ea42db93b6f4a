import TrackFM.Config
import TrackFM.Lib.Bytes

/-!
# The far-memory manager

AIFM is outside the repository. What the runtime relies on is stated here as
the fields of `Manager`: where a dereferenced object is placed and what its
metadata word says, not how the manager decides it. The object cache `[lo, hi)`
always has room for one more object. In a smaller cache objects are evacuated to
make that room, and these evacuations are steps of a run.
-/

namespace TrackFM

open Lib (Mem)

/-- `GenericUniquePtr`: the metadata word, the index `set_carm_obj_index`
stored, and the bytes the memory server holds. -/
structure Obj where
  metadata : Nat
  carmObjIndex : Nat
  remote : Mem UInt8

abbrev Present (word : Nat) : Prop := word &&& kPresentClear = 0

/-- The local copy has to be written back before it is dropped. -/
abbrev Dirty (word : Nat) : Prop := word &&& kDirtyClear = 0

abbrev dataAddr (word : Nat) : Nat := word >>> kObjectDataAddrBitPos

abbrev Obj.Present (o : Obj) : Prop := TrackFM.Present o.metadata

abbrev Obj.Dirty (o : Obj) : Prop := TrackFM.Dirty o.metadata

abbrev Obj.addr (o : Obj) : Nat := dataAddr o.metadata

abbrev Apart (a b : Nat) : Prop := a + objSize ≤ b ∨ b + objSize ≤ a

abbrev farObjects : Nat := kFarMemSize / objSize

/-- Local copies lie in the object cache `[lo, hi)` and do not overlap. -/
structure Placed (lo hi : Nat) (objs : Nat → Obj) (n : Nat) : Prop where
  within : ∀ o < n, (objs o).Present → lo ≤ (objs o).addr ∧ (objs o).addr + objSize ≤ hi
  apart : ∀ o < n, ∀ p < n, o ≠ p → (objs o).Present → (objs p).Present →
    Apart (objs o).addr (objs p).addr

theorem Placed.of_old {objs objs' : Nat → Obj} (hp : Placed lo hi objs n)
    (hold : ∀ o < k, (objs' o).Present → o < n ∧ (objs' o).metadata = (objs o).metadata) :
    Placed lo hi objs' k := by
  constructor
  · intro o ho hpres
    obtain ⟨hlt, he⟩ := hold o ho hpres
    simp only [Obj.Present, Obj.addr, he] at hpres ⊢
    exact hp.within o hlt hpres
  · intro o ho p hp' hne hpo hpp
    obtain ⟨hlt, he⟩ := hold o ho hpo
    obtain ⟨hlt', he'⟩ := hold p hp' hpp
    simp only [Obj.Present, Obj.addr, he, he'] at hpo hpp ⊢
    exact hp.apart o hlt p hlt' hne hpo hpp

structure Free (lo hi : Nat) (objs : Nat → Obj) (n a : Nat) : Prop where
  lower : lo ≤ a
  upper : a + objSize ≤ hi
  apart : ∀ o < n, (objs o).Present → Apart a (objs o).addr

/-- What a dereference of object `o` may leave as its metadata word. -/
structure DerefOk (lo hi : Nat) (objs : Nat → Obj) (n o : Nat) (mutable : Bool) (word : Nat) :
    Prop where
  present : Present word
  dirty : mutable = true → Dirty word
  stays : (objs o).Present → dataAddr word = (objs o).addr ∧ ((objs o).Dirty → Dirty word)
  placed : ¬(objs o).Present → Free lo hi objs n (dataAddr word)

/-- `FarMemManager` with the evacuator and the memory server. -/
structure Manager where
  /-- The local object cache. -/
  lo : Nat
  hi : Nat
  hi_le : hi ≤ 2 ^ 47
  /-- What an object allocated for slot `i` contains before the first write. -/
  fresh : Nat → Mem UInt8
  /-- The metadata word `__deref` and `__deref_mut` leave and return. -/
  derefWord : (Nat → Obj) → Nat → Nat → Bool → Nat
  derefWord_ok : ∀ objs n o mutable, Placed lo hi objs n → n ≤ farObjects → o < n →
    DerefOk lo hi objs n o mutable (derefWord objs n o mutable)
  /-- The metadata word of an object that has no local copy. -/
  awayWord : (Nat → Obj) → Nat → Nat
  awayWord_absent : ∀ objs o, ¬Present (awayWord objs o)
  /-- The region `mark_region_not_evacutable` finds a local address in. -/
  regionOf : Nat → Nat
  regionOf_ne_zero : ∀ a, regionOf a ≠ 0

theorem flushed : ¬Present flushCache := by decide

theorem or_and (hb : a &&& b = 0) : (v ||| a) &&& b = v &&& b := by
  rw [Nat.and_or_distrib_right, hb, Nat.or_zero]

theorem or_addr (ha : a >>> kObjectDataAddrBitPos = 0) : dataAddr (word ||| a) = dataAddr word := by
  rw [dataAddr, Nat.shiftRight_or_distrib, ha, Nat.or_zero]

theorem Apart.symm (h : Apart a b) : Apart b a := Or.symm h

theorem DerefOk.here (hd : DerefOk lo hi objs n o w word) (hp : Placed lo hi objs n) (ho : o < n) :
    lo ≤ dataAddr word ∧ dataAddr word + objSize ≤ hi ∧
      ∀ p < n, p ≠ o → (objs p).Present → Apart (dataAddr word) (objs p).addr := by
  by_cases hpres : (objs o).Present
  · obtain ⟨ha, -⟩ := hd.stays hpres
    obtain ⟨h₁, h₂⟩ := hp.within o ho hpres
    rw [ha]
    exact ⟨h₁, h₂, fun p hpn hne hpp => hp.apart o ho p hpn (Ne.symm hne) hpres hpp⟩
  · have hf := hd.placed hpres
    exact ⟨hf.lower, hf.upper, fun p hpn _ hpp => hf.apart p hpn hpp⟩

theorem word_fast (h : w &&& exceptions mutable = 0) :
    Present w ∧ (mutable = true → Dirty w) := by
  cases mutable
  · simp only [exceptions, Bool.false_eq_true, if_false, Nat.and_or_distrib_left,
      Nat.or_eq_zero_iff] at h
    exact ⟨h.1.2, nofun⟩
  · simp only [exceptions, if_true, Nat.and_or_distrib_left, Nat.or_eq_zero_iff] at h
    exact ⟨h.1.1.2, fun _ => h.2⟩

end TrackFM
