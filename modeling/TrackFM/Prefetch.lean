import TrackFM.Coherence

/-!
# Prefetching

`prefetcher.cpp`. A prefetcher infers the index of an object from the last two it
was told, and may fetch objects by their index at any time. What it fetches
changes no logical byte.
-/

namespace TrackFM

/-- `induce_fn`, a signed word. -/
def induceFn (idx₀ idx₁ : Nat) : Int := Int.bmod (idx₁ - idx₀) (2 ^ 64)

def inferFn (idx : Nat) (stride : Int) : Nat := ((idx + stride) % 2 ^ 64).toNat

/-- Two words `d` apart are enough to tell the one after them. -/
theorem inferFn_induceFn : inferFn (u64 (c + d)) (induceFn (u64 c) (u64 (c + d))) = u64 (c + d + d) := by
  have hinduce : induceFn (u64 c) (u64 (c + d)) % 2 ^ 64 = (u64 (c + d) - u64 c : Int) % 2 ^ 64 :=
    Int.bmod_emod
  rw [inferFn, ← Int.add_emod_emod, hinduce]
  unfold u64
  omega

namespace Heap

variable {m : Manager} {h : Heap}

/-- `mapping_fn`: no index outside the objects in use is followed. -/
def mappingFn (h : Heap) (idx : Nat) : Option Nat :=
  if idx < h.totalObjCnt then h.ptrs idx else none

/-- A prefetcher swaps in the object of an index, if it is away. -/
def prefetch (m : Manager) (h : Heap) (idx : Nat) : Heap :=
  match h.mappingFn idx with
  | some o => if (h.objs o).Present then h else h.deref m o false
  | none => h

theorem mappingFn_backed (hc : Coherent m h) (ho : h.mappingFn idx = some o) : o < h.objCount := by
  rw [mappingFn] at ho
  split at ho
  case isTrue hlt => exact hc.backed idx o hlt ho
  case isFalse => cases ho

/-- A fetch nobody is told of. The state word of the object, which was away, says
that it is away, so it need not be published. -/
theorem deref_keeps (hc : Coherent m h) (ho : o < h.objCount) (haway : ¬(h.objs o).Present) :
    Keeps m h (h.deref m o w) := by
  have hcur : ∀ k, (h.deref m o w).Current k ↔ h.Current k := by
    intro k
    constructor
    · rintro ⟨hlt, hnames⟩
      exact ⟨hlt, fun p hp => deref_index (m := m) ▸ hnames p hp⟩
    · rintro ⟨hlt, hnames⟩
      exact ⟨hlt, fun p hp => deref_index.trans (hnames p hp)⟩
  refine ⟨⟨rfl, rfl, rfl, rfl, rfl, rfl, rfl⟩, ?_, fun k => (hcur k).mpr, ?_, ?_⟩
  · exact {
      placed := deref_placed hc ho
      synced := deref_synced hc ho
      home_lt := fun p hp => deref_index.trans_lt (hc.home_lt p hp)
      home := fun p hp => by
        show h.ptrs ((h.deref m o w).objs p).carmObjIndex = some p
        rw [deref_index]
        exact hc.home p hp
      backed := hc.backed
      published := by
        intro k hk hpub
        obtain ⟨p, hp, he⟩ := hc.published k ((hcur k).mp hk) hpub
        have hpo : p ≠ o := by
          rintro rfl
          exact haway (show Present (h.objs p).metadata from he ▸ hpub)
        exact ⟨p, hp, by rw [deref_objs_ne hpo]; exact he⟩
      unpublished := hc.unpublished
      slots := hc.slots
      initial := hc.initial
      few := hc.few
      extended := hc.extended
      counted := hc.counted }
  · intro k j hk hj
    exact byteAt_eq rfl fun p hp => deref_objByte hc ho (hc.backed k p hk.lt hp) hj
  · intro a ha
    have hhere := (deref_word (w := w) hc ho).here hc.placed ho
    exact deref_mem (by omega)

theorem prefetch_keeps (hc : Coherent m h) : Keeps m h (h.prefetch m idx) := by
  unfold prefetch
  split
  case h_1 o ho =>
    split
    · exact .refl hc
    · rename_i haway
      exact deref_keeps hc (mappingFn_backed hc ho) haway
  case h_2 => exact .refl hc

theorem prefetch_present (hc : Coherent m h) (ho : h.mappingFn idx = some o) :
    ((h.prefetch m idx).objs o).Present := by
  rw [prefetch, ho]
  dsimp only
  split
  · assumption
  · rw [deref_objs_self]
    exact (deref_word hc (mappingFn_backed hc ho)).present

theorem prefetch_ptrs : (h.prefetch m idx).ptrs = h.ptrs := by
  rw [prefetch]
  split
  · split <;> rfl
  · rfl

end Heap

end TrackFM
