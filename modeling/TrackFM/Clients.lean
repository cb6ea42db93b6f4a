import TrackFM.Served

/-!
# Clients of the runtime

The runtime implements the reference memory and with it a flat memory. A program
cannot tell the runtime from either, nor can it tell when objects are evacuated
and fetched, and where their copies are.
-/

namespace TrackFM

open Lib (Mem Client Runs Safe Implements)

variable {m m' : Manager} {loc : Nat → Prop} {h : Heap} {z : Flat}

/-- The heap shows the reference memory, whatever blocks it takes. -/
def Settles (m : Manager) (loc : Nat → Prop) (h : Heap) (y : Flat) : Prop :=
  ∃ s, s.heap = h ∧ Shadows m loc s y

theorem runtime_settles (hloc : OffCache m loc) : Implements (runtime m)
    (settled (contract loc) startAddr) (Flat.Allowed (contract loc)) (Settles m loc) where
  between := by
    rintro _ y _ ⟨s, rfl, hs⟩ (⟨o, ho, rfl⟩ | ⟨idx, rfl⟩)
    · exact ⟨_, rfl, hs.keeps hloc (Heap.evacuate_keeps hs.stocked.intact.coherent ho)⟩
    · exact ⟨_, rfl, hs.keeps hloc (Heap.prefetch_keeps hs.stocked.intact.coherent)⟩
  call := by
    rintro _ y o a h' ⟨s, rfl, hs⟩ ha hcall
    obtain ⟨s', a', y', hserve, hsettle, hs'⟩ := hs.serves hloc ha
    obtain ⟨rfl, rfl⟩ := Prod.mk.inj (Except.ok.inj (hserve.symm.trans hcall))
    exact ⟨y', hsettle, s', rfl, hs'⟩
  answers := by
    rintro _ y o ⟨s, rfl, hs⟩ ha
    obtain ⟨s', a, -, hserve, -⟩ := hs.serves hloc ha
    exact ⟨a, s'.heap, hserve⟩

/-- The heap shows the flat memory `z`, as far as a program may rely on it. -/
def Shows (m : Manager) (loc : Nat → Prop) (h : Heap) (z : Flat) : Prop :=
  ∃ y, Settles m loc h y ∧ Flat.Covers (contract loc) startAddr y z

theorem runtime_implements (hloc : OffCache m loc) :
    Implements (runtime m) (flat (contract loc)) (Flat.Allowed (contract loc)) (Shows m loc) :=
  (runtime_settles hloc).trans (settled_implements (contract_lawful hloc)) fun _ _ _ hc ha =>
    hc.allowed ha

theorem Shows.agrees (hloc : OffCache m loc) (hs : Shows m loc h z)
    (hk : Flat.Known (contract loc) z a) : h.view m a = z.mem a := by
  obtain ⟨y, ⟨s, rfl, hs⟩, hc⟩ := hs
  have hk : Flat.Known (contract loc) y a := hc.range.mpr hk
  rw [hs.agrees a (Flat.Known.reserved (contract_lawful hloc) hk), hc.agrees a hk]

-- ---------------------------------------------------------------------------
-- The start
-- ---------------------------------------------------------------------------

section
variable {ptrs : Nat → Option Nat} {mem : Mem UInt8}

/-- What a program sees at first: its own memory, and the contents objects come
with. -/
def initialMem (fresh : Nat → Mem UInt8) (mem : Mem UInt8) : Mem UInt8 := fun a =>
  if startAddr ≤ a then fresh ((a - startAddr) / objSize) ((a - startAddr) % objSize) else mem a

theorem init_view (hloc : OffCache m loc)
    (ha : Flat.Reserved (contract loc) startAddr (Flat.start μ) a) :
    (init ptrs mem).heap.view m a = initialMem m.fresh mem a := by
  rcases ha with hl | ⟨e, he, -⟩ | ⟨h₁, h₂⟩
  · have hlt := (hloc a hl).1
    rw [Heap.view_untagged hlt, initialMem, if_neg (Nat.not_le_of_gt hlt)]
    rfl
  · cases he
  · obtain ⟨x, rfl⟩ := Nat.exists_eq_add_of_le ((Nat.le_add_right ..).trans h₁)
    have hx : x < kWorkingSetSize := Nat.lt_of_add_lt_add_left h₂
    have hslot : x / objSize < kWorkingSetSize / objSize :=
      Nat.div_lt_div_of_lt_of_dvd (by decide) hx
    have hnone : (init ptrs mem).heap.ptrs (x / objSize) = none := if_pos hslot
    rw [Heap.view_start (hx.trans (by decide)), Heap.byteAt, hnone, initialMem,
      if_pos (Nat.le_add_right ..), Nat.add_sub_cancel_left]

theorem settles_init (hloc : OffCache m loc) :
    Settles m loc (init ptrs mem).heap (Flat.start (initialMem m.fresh mem)) := by
  refine ⟨_, rfl, ⟨rfl, nofun, rfl, Nat.zero_le _, fun a ha => init_view hloc ha⟩, .init⟩

theorem covers_init (hloc : OffCache m loc) : Flat.Covers (contract loc) startAddr
    (Flat.start (initialMem m.fresh mem)) (Flat.start mem) where
  extents := rfl
  used := rfl
  unit := Nat.dvd_zero _
  below := nofun
  agrees a ha := by
    rcases Flat.known_iff.mp ha with hl | ⟨e, he, -⟩
    · exact if_neg (Nat.not_le_of_gt (hloc a hl).1)
    · cases he

theorem shows_init (hloc : OffCache m loc) : Shows m loc (init ptrs mem).heap (Flat.start mem) :=
  ⟨_, settles_init hloc, covers_init hloc⟩

end

-- ---------------------------------------------------------------------------
-- Runs
-- ---------------------------------------------------------------------------

section
variable {S : Type} {c : Client Request Answer S} {u₀ u : S}

/-- What a client does on the runtime, with objects evacuated at any time in
between, it does on a flat memory; every request it makes is answered, and the
heap shows what the flat memory holds. -/
theorem runtime_is_flat_memory (hloc : OffCache m loc)
    (hsafe : Safe c (flat (contract loc)) (Flat.Allowed (contract loc)) u₀ (Flat.start mem))
    (hr : Runs c (runtime m) u₀ (init ptrs mem).heap u h out) :
    (∃ y, Runs c (flat (contract loc)) u₀ (Flat.start mem) u y out ∧
      ∀ a, Flat.Known (contract loc) y a → h.view m a = y.mem a) ∧
    ∀ o k, c u = .call o k → ∃ h' a, serve m h o = .ok (h', a) := by
  constructor
  · obtain ⟨y, hrun, hs⟩ := (runtime_implements hloc).runs hsafe (shows_init hloc) hr
    exact ⟨y, hrun, fun _ => hs.agrees hloc⟩
  · intro o k hs
    obtain ⟨a, h', hserve⟩ := (runtime_implements hloc).answered hsafe (shows_init hloc) hr hs
    exact ⟨h', a, hserve⟩

/-- What a client does on one manager, with objects evacuated and fetched at any
time, it does on any other that objects come with the same contents from, with
none evacuated and none fetched; and both heaps show the same in the end. -/
theorem runtime_transparent (hloc : OffCache m loc) (hloc' : OffCache m' loc)
    (hfresh : m'.fresh = m.fresh)
    (hsafe : Safe c (flat (contract loc)) (Flat.Allowed (contract loc)) u₀ (Flat.start mem))
    (hr : Runs c (runtime m) u₀ (init ptrs mem).heap u h out) :
    ∃ h', Runs c (runtime m').quiet u₀ (init ptrs' mem).heap u h' out ∧
      ∃ z, Runs c (flat (contract loc)) u₀ (Flat.start mem) u z out ∧
        ∀ a, Flat.Known (contract loc) z a → h'.view m' a = h.view m a := by
  have hT := contract_lawful hloc
  have hsafe' : Safe c (settled (contract loc) startAddr) (Flat.Allowed (contract loc)) u₀
      (Flat.start (initialMem m.fresh mem)) :=
    (settled_implements hT).safe hsafe (covers_init hloc) fun _ _ _ hc ha => hc.allowed ha
  obtain ⟨y, hrun, hs⟩ := (runtime_settles hloc).runs hsafe' (settles_init hloc) hr
  obtain ⟨z, hflat, hc⟩ := (settled_implements hT).runs hsafe (covers_init hloc) hrun
  have hstart : Settles m' loc (init ptrs' mem).heap (Flat.start (initialMem m.fresh mem)) :=
    hfresh ▸ settles_init hloc'
  obtain ⟨h', hrun', hs'⟩ := (runtime_settles hloc').follows settled_functional
    (fun _ _ hb => hb.symm) hsafe' hstart hrun
  refine ⟨h', hrun', z, hflat, fun a ha => ?_⟩
  exact (Shows.agrees hloc' ⟨y, hs', hc⟩ ha).trans (Shows.agrees hloc ⟨y, hs, hc⟩ ha).symm

end

/-- Allocate, store to byte 8 of the block, load it and free the block; the
state counts the requests made and keeps the pointer. -/
def storeLoad : Client Request Answer (Nat × Nat)
  | (0, _) => .call (.malloc 16) fun
    | .word p => (1, p)
    | _ => (4, 0)
  | (1, p) => .call (.store true (p + 8) [7]) fun _ => (2, p)
  | (2, p) => .call (.load true (p + 8) 1) fun _ => (3, p)
  | (3, p) => .call (.free p) fun _ => (4, p)
  | _ => .halt

theorem storeLoad_safe : Safe storeLoad (flat (contract fun _ => False))
    (Flat.Allowed (contract fun _ => False)) (0, 0) (Flat.start mem) := by
  refine .of_invariant (J := fun u y => (u.1 = 0 → y.used = 0) ∧
    (0 < u.1 → u.1 < 4 → ⟨u.2, 16⟩ ∈ y.extents)) ⟨fun _ => rfl, fun h => absurd h (Nat.lt_irrefl 0)⟩ ?_ ?_ ?_
  · rintro u y _ hJ rfl
    exact hJ
  · rintro ⟨_ | _ | _ | _ | k, p⟩ u' y _ hs <;> cases hs
  · rintro ⟨_ | _ | _ | _ | k, p⟩ y o k ⟨h₀, hlive⟩ hs
    case zero =>
      cases hs
      refine ⟨?_, fun a y' hcall => ?_⟩
      · rw [Flat.Allowed, Flat.Fitted, h₀ rfl]
        exact show 0 + rounded 16 ≤ kWorkingSetSize by decide
      · cases hcall with
        | malloc _ => exact ⟨fun h => absurd h (Nat.succ_ne_zero _), fun _ _ => List.mem_cons_self ..⟩
    case succ.zero =>
      cases hs
      have hb := hlive (Nat.succ_pos _) (by simp)
      refine ⟨.held Nat.one_pos ⟨_, hb, by simp, by simp⟩ (Nat.mod_lt _ (by decide)), ?_⟩
      rintro a y' ⟨⟩
      exact ⟨fun h => absurd h (Nat.succ_ne_zero _), fun _ _ => hb⟩
    case succ.succ.zero =>
      cases hs
      have hb := hlive (Nat.succ_pos _) (by simp)
      refine ⟨.held Nat.one_pos ⟨_, hb, by simp, by simp⟩ (Nat.mod_lt _ (by decide)), ?_⟩
      rintro a y' ⟨⟩
      exact ⟨fun h => absurd h (Nat.succ_ne_zero _), fun _ _ => hb⟩
    case succ.succ.succ.zero =>
      cases hs
      refine ⟨.inr ⟨_, hlive (Nat.succ_pos _) (by simp), rfl⟩, ?_⟩
      rintro a y' ⟨⟩
      exact ⟨fun h => absurd h (Nat.succ_ne_zero _), fun _ h => absurd h (Nat.lt_irrefl 4)⟩
    case succ.succ.succ.succ => cases hs

theorem storeLoad_runs : ∃ h,
    Runs storeLoad (runtime cacheManager) (0, 0) (init (fun _ => none) fun _ => 0).heap
      (3, startAddr) h [(.malloc 16, .word startAddr), (.store true (startAddr + 8) [7], .done),
        (.load true (startAddr + 8) 1, .bytes [7])] := by
  have hr₀ : Runs storeLoad (runtime cacheManager) (0, 0) (init (fun _ => none) fun _ => 0).heap
      _ _ _ := .start
  have hr₁ := hr₀.call (a := Answer.word startAddr) rfl
    (show serve cacheManager _ _ = .ok (_, _) from rfl)
  have hr₂ := hr₁.call (a := Answer.done) rfl (show serve cacheManager _ _ = .ok (_, _) from rfl)
  have hr₃ := (hr₂.between (.inl ⟨0, by decide, rfl⟩)).call (a := Answer.bytes [7]) rfl
    (show serve cacheManager _ _ = .ok (_, _) from rfl)
  exact ⟨_, hr₃⟩

theorem runtime_is_flat_memory_evacuated : ∃ h,
    Runs storeLoad (runtime cacheManager) (0, 0) (init (fun _ => none) fun _ => 0).heap
      (3, startAddr) h [(.malloc 16, .word startAddr), (.store true (startAddr + 8) [7], .done),
        (.load true (startAddr + 8) 1, .bytes [7])] ∧
    (∃ y, Runs storeLoad (flat (contract fun _ => False)) (0, 0) (Flat.start fun _ => 0)
        (3, startAddr) y [(.malloc 16, .word startAddr), (.store true (startAddr + 8) [7], .done),
          (.load true (startAddr + 8) 1, .bytes [7])] ∧
      ∀ a, Flat.Known (contract fun _ => False) y a → h.view cacheManager a = y.mem a) ∧
    ∀ o k, storeLoad (3, startAddr) = .call o k → ∃ h' a, serve cacheManager h o = .ok (h', a) := by
  obtain ⟨h, hr⟩ := storeLoad_runs
  exact ⟨h, hr, runtime_is_flat_memory (show OffCache cacheManager fun _ => False from nofun)
    storeLoad_safe hr⟩

theorem runtime_transparent_evacuated : ∃ h h',
    Runs storeLoad (runtime cacheManager) (0, 0) (init (fun _ => none) fun _ => 0).heap
      (3, startAddr) h [(.malloc 16, .word startAddr), (.store true (startAddr + 8) [7], .done),
        (.load true (startAddr + 8) 1, .bytes [7])] ∧
    Runs storeLoad (runtime cacheManager).quiet (0, 0) (init (fun _ => none) fun _ => 0).heap
      (3, startAddr) h' [(.malloc 16, .word startAddr), (.store true (startAddr + 8) [7], .done),
        (.load true (startAddr + 8) 1, .bytes [7])] := by
  obtain ⟨h, hr⟩ := storeLoad_runs
  obtain ⟨h', hr', -⟩ := runtime_transparent (show OffCache cacheManager fun _ => False from nofun)
    (show OffCache cacheManager fun _ => False from nofun) rfl storeLoad_safe hr
  exact ⟨h, h', hr, hr'⟩

end TrackFM
