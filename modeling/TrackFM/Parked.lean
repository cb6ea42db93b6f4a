import TrackFM.Stores
import Mathlib.Data.List.GetD

/-!
# A heap with everything evacuated

For any few slots and any contents there is a coherent heap in which those slots
are in use, hold those contents and have no local copy: the start of runs that
show what an operation does in the worst case.
-/

namespace TrackFM

open Lib (Mem)

namespace Heap

variable {m : Manager} {slots : List Nat} {μ : Mem UInt8}

def parked (slots : List Nat) (μ : Mem UInt8) : Heap :=
  { initObjects (fun _ => none) (fun _ => 0) (fun _ => 0) kFarMemSize with
    totalObjCnt := totalObjects
    ptrs := fun i => some (if i ∈ slots then slots.idxOf i else 0)
    objs := fun o =>
      { metadata := flushCache
        carmObjIndex := slots.getD o 0
        remote := fun j => μ (startAddr + (slots.getD o 0 * objSize + j)) }
    objCount := slots.length }

structure Parkable (slots : List Nat) : Prop where
  nonempty : slots ≠ []
  nodup : slots.Nodup
  few : slots.length ≤ farObjects
  lt : ∀ i ∈ slots, i < totalObjects

theorem parked_ptrs (hi : i ∈ slots) : (parked slots μ).ptrs i = some (slots.idxOf i) :=
  congrArg some (if_pos hi)

theorem getD_idxOf (hi : i ∈ slots) : slots.getD (slots.idxOf i) 0 = i := by
  rw [List.getD_eq_getElem _ _ (List.idxOf_lt_length_of_mem hi), List.getElem_idxOf]

theorem parked_coherent (hs : Parkable slots) : Coherent m (parked slots μ) where
  placed := ⟨fun _ _ hp => absurd hp flushed, fun _ _ _ _ _ hp => absurd hp flushed⟩
  synced _ _ hp := absurd hp flushed
  home_lt o ho := by
    show slots.getD o 0 < totalObjects
    rw [List.getD_eq_getElem _ _ ho]
    exact hs.lt _ (List.getElem_mem ho)
  home o ho := by
    show (parked slots μ).ptrs (slots.getD o 0) = some o
    rw [List.getD_eq_getElem _ _ ho, parked_ptrs (List.getElem_mem ho),
      hs.nodup.idxOf_getElem o ho]
  backed i o _ ho := by
    obtain rfl := Option.some.inj ho
    show _ < slots.length
    split
    · exact List.idxOf_lt_length_of_mem ‹_›
    · exact List.length_pos_of_ne_nil hs.nonempty
  published _ _ hp := absurd hp flushed
  unpublished _ _ := flushed
  slots := Nat.le_refl _
  initial := by show kFarMemSize / objSize ≤ totalObjects; decide
  few := Nat.le_refl _
  extended _ _ _ := nofun
  counted := by
    show slots.length ≤ ((Finset.range farObjects).filter fun _ => some _ ≠ none).card
    simpa using hs.few

theorem parked_current (hs : Parkable slots) (hi : i ∈ slots) : (parked slots μ).Current i := by
  refine ⟨hs.lt i hi, fun o ho => ?_⟩
  rw [parked_ptrs hi] at ho
  obtain rfl := Option.some.inj ho
  exact getD_idxOf hi

theorem parked_view (hs : Parkable slots) (hx : x / objSize ∈ slots) :
    (parked slots μ).view m (startAddr + x) = μ (startAddr + x) := by
  have hb : (parked slots μ).byteAt m (x / objSize) (x % objSize) =
      (parked slots μ).objByte (slots.idxOf (x / objSize)) (x % objSize) := by
    rw [Heap.byteAt, parked_ptrs hx]
  have hc : Coherent m (parked slots μ) := parked_coherent hs
  rw [view_start ((parked_current hs hx).lt_start hc), hb, objByte,
    if_neg (show ¬((parked slots μ).objs (slots.idxOf (x / objSize))).Present from flushed)]
  show μ (startAddr + (slots.getD (slots.idxOf (x / objSize)) 0 * objSize + x % objSize)) = _
  rw [getD_idxOf hx, Nat.div_add_mod']

-- ---------------------------------------------------------------------------
-- What is in local memory does not matter
-- ---------------------------------------------------------------------------

def parkedOver (slots : List Nat) (μ mem : Mem UInt8) : Heap := { parked slots μ with mem := mem }

variable {mem : Mem UInt8}

theorem parkedOver_current (hs : Parkable slots) (hi : i ∈ slots) :
    (parkedOver slots μ mem).Current i :=
  have hcur := parked_current (μ := μ) hs hi
  ⟨hcur.lt, hcur.names⟩

theorem parkedOver_coherent (hs : Parkable slots) : Coherent m (parkedOver slots μ mem) :=
  { parked_coherent (m := m) (μ := μ) hs with
    synced := fun _ _ hp => absurd hp flushed
    published := fun _ _ hp => absurd hp flushed }

theorem parkedOver_view (hs : Parkable slots) (hx : x / objSize ∈ slots) :
    (parkedOver slots μ mem).view m (startAddr + x) = μ (startAddr + x) := by
  have hlt : x < 2 ^ 60 := (parked_current (μ := μ) hs hx).lt_start (m := m) (parked_coherent hs)
  rw [← parked_view (μ := μ) (m := m) hs hx, view_start hlt, view_start hlt]
  refine byteAt_eq rfl fun o _ => ?_
  rw [objByte, objByte, if_neg (show ¬((parkedOver slots μ mem).objs o).Present from flushed),
    if_neg (show ¬((parked slots μ).objs o).Present from flushed)]
  rfl

def slotsOf (x n : Nat) : List Nat :=
  List.range' (x / objSize) ((x + n) / objSize + 1 - x / objSize)

structure FarRange (x n : Nat) : Prop where
  few : (x + n) / objSize + 1 - x / objSize ≤ farObjects
  lt : (x + n) / objSize < totalObjects

theorem mem_slotsOf (hj : j ≤ n) : (x + j) / objSize ∈ slotsOf x n := by
  have h₁ : x / objSize ≤ (x + j) / objSize := Nat.div_le_div_right (Nat.le_add_right x j)
  have h₂ : (x + j) / objSize ≤ (x + n) / objSize := Nat.div_le_div_right (by omega)
  rw [slotsOf, List.mem_range'_1]
  omega

theorem FarRange.parkable (hr : FarRange x n) : Parkable (slotsOf x n) where
  nonempty := List.ne_nil_of_mem (mem_slotsOf (j := 0) (Nat.zero_le n))
  nodup := List.nodup_range'
  few := by
    rw [slotsOf, List.length_range']
    exact hr.few
  lt i hi := by
    rw [slotsOf, List.mem_range'_1] at hi
    have hlt := hr.lt
    omega

end Heap

end TrackFM
