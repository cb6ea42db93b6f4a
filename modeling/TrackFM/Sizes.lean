import TrackFM.Blocks
import TrackFM.Cache

/-!
# What a request gets

`aspace_end` is set but never consulted: a request that does not fit is
granted all the same. As long as every request fits below the slots in use, each
result is as big as asked, disjoint from all others, tagged and backed.
-/

namespace TrackFM

variable {m : Manager} {s s' : State}

/-- Every result so far is big enough, disjoint from the others, tagged in all
its bytes, and covers only slots in use. -/
structure Granted (s : State) : Prop where
  recorded : ∀ b ∈ s.blocks, s.heap.allocationMap b.start = b.size ∧ b.asked ≤ b.size
  disjoint : s.blocks.Pairwise fun b c => ∀ a, ¬(b.Covers a ∧ c.Covers a)
  tagged : ∀ b ∈ s.blocks, ∀ a, b.Covers a → checkCarmObject a = true
  backed : ∀ b ∈ s.blocks, ∀ a, b.Covers a →
    (getCarmPtr a false).objIndex < s.heap.totalObjCnt

/-- Where the next block has to end: at the last slot in use, and before the
addresses that lose the tag bit. -/
def Heap.room (h : Heap) : Nat := min (startAddr + h.totalObjCnt * objSize) (2 ^ 61)

structure Backed (s : State) : Prop where
  tiled : Tiled s
  fits : ∀ b ∈ s.blocks, b.stop ≤ s.heap.room

theorem Backed.init {ptrs : Nat → Option Nat} {mem : Lib.Mem UInt8} : Backed (init ptrs mem) :=
  ⟨.init, nofun⟩

theorem room_mono {h h' : Heap} (hle : h.totalObjCnt ≤ h'.totalObjCnt) : h.room ≤ h'.room := by
  have := Nat.mul_le_mul_right objSize hle
  simp only [Heap.room]
  omega

theorem Backed.step (hs : Backed s) (hfit : Fits s (s.heap.room) op)
    (hr : step m s op = .ok s') : Backed s' := by
  obtain ⟨ht, hroom⟩ := hs
  have hlimit : s.heap.room < 2 ^ 64 := by
    simp only [Heap.room]
    omega
  obtain ⟨s₁, hh, hrel⟩ := step_parts hr
  have ht₁ := ht.handed hfit hlimit hh
  have hs₁ : ∀ b ∈ s₁.blocks, b.stop ≤ s₁.heap.room := by
    cases hreq : op.request with
    | none =>
      obtain ⟨hb, htouch⟩ := hh.none hreq
      rw [hb]
      exact fun b hb => (hroom b hb).trans (room_mono htouch.alloc.totalObjCnt.ge)
    | some n =>
      obtain ⟨size, hsize, hb, htouch⟩ := hh.some n hreq
      have hn := hfit n hreq
      have hle := le_rounded (n := n)
      rw [hsize (by omega), enforceSizeConstraints_eq (by omega)] at hb
      have hmono : s.heap.room ≤ s₁.heap.room :=
        room_mono htouch.alloc.totalObjCnt.ge
      rw [hb, List.forall_mem_cons]
      exact ⟨hn.trans hmono, fun b hb => (hroom b hb).trans hmono⟩
  refine ⟨ht₁.released hrel, ?_⟩
  cases hf : op.frees with
  | none => exact hrel.none hf ▸ hs₁
  | some ptr =>
    obtain ⟨hfree, hb⟩ := hrel.some ptr hf
    have hmono := room_mono (Heap.carmFree_frees hfree).totalObjCnt
    simp only [hb, markFreed, List.forall_mem_map]
    exact fun b hb => (by simpa [Block.stop] using (hs₁ b hb).trans hmono)

theorem Backed.granted (hs : Backed s) : Granted s where
  recorded b hb := ⟨hs.tiled.recorded b hb, hs.tiled.asked b hb⟩
  disjoint := hs.tiled.ordered.imp fun hsep a h => by
    obtain ⟨⟨h₁, h₂⟩, h₃, h₄⟩ := h
    omega
  tagged b hb a ha := by
    have h₁ := hs.tiled.above b hb
    have h₂ := hs.fits b hb
    obtain ⟨h₃, h₄⟩ := ha
    rw [Heap.room, startAddr_eq] at h₂
    rw [startAddr_eq] at h₁
    rw [show a = startAddr + (a - startAddr) by rw [startAddr_eq]; omega]
    exact checkCarmObject_start (by rw [startAddr_eq]; omega)
  backed b hb a ha := by
    have h₁ := hs.tiled.above b hb
    have h₂ := hs.fits b hb
    obtain ⟨h₃, h₄⟩ := ha
    have ha : a = startAddr + (a - startAddr) := by omega
    have hx : a - startAddr < 2 ^ 60 := by
      rw [Heap.room, startAddr_eq] at h₂
      rw [startAddr_eq]
      omega
    rw [ha, getCarmPtr_start hx]
    show (a - startAddr) / objSize < s.heap.totalObjCnt
    rw [Nat.div_lt_iff_lt_mul (by decide)]
    rw [Heap.room] at h₂
    omega

/-- In every run whose requests fit below the slots in use at the time, every
result is granted soundly. -/
theorem allocations_granted (hr : Reach m (fun s op => Fits s s.heap.room op) s) : Granted s :=
  (hr.invariant (I := Backed) (fun _ _ => .init) fun _ _ _ hs hfit => hs.step hfit).granted

/-- Three blocks, of which the first is freed before the last is asked for. -/
theorem malloc_three_granted : ∃ s, Reach cacheManager (fun s op => Fits s s.heap.room op) s ∧
    s.blocks = [⟨startAddr + 5104, 24, 24, false⟩, ⟨startAddr + 104, 5000, 5000, false⟩,
      ⟨startAddr, 104, 100, true⟩] ∧ Granted s := by
  have hfits : ∀ {s : State} {op n}, op.request = some n →
      s.heap.aspaceStart + rounded n ≤ s.heap.room → Fits s s.heap.room op := by
    rintro s op n hop hle k hk
    cases hop.symm.trans hk
    exact hle
  have h₁ := (@Reach.init cacheManager (fun s op => Fits s s.heap.room op) (fun _ => none)
    fun _ => 0).next ⟨.malloc 100, hfits rfl (by decide), rfl⟩
  have h₂ := h₁.next ⟨.malloc 5000, hfits rfl (by decide), rfl⟩
  have h₃ := (h₂.next ⟨.free startAddr, nofun, rfl⟩).next ⟨.malloc 24, hfits rfl (by decide), rfl⟩
  exact ⟨_, h₃, rfl, allocations_granted h₃⟩

/-- A size within 8 of 2^64 is rounded up to 0. -/
theorem malloc_wraps : ¬∀ m s, Reach m (fun _ op => op.IsRequest) s → Granted s := by
  intro h
  have hr : Reach cacheManager (fun _ op => op.IsRequest)
      ((init (fun _ => none) fun _ => 0).handOut
        ((init (fun _ => none) fun _ => 0).heap.bump 0) startAddr (2 ^ 64 - 1) fun _ => none) :=
    .next (.init (fun _ => none) fun _ => 0)
      ⟨.malloc (2 ^ 64 - 1), show 2 ^ 64 - 1 < 2 ^ 64 by decide, rfl⟩
  obtain ⟨-, hasked⟩ := (h _ _ hr).recorded _ (List.mem_cons_self ..)
  exact absurd hasked (by decide)

end TrackFM
