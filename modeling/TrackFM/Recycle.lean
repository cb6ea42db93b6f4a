import TrackFM.Free
import TrackFM.Stores

/-!
# Recycling and coherence

`update_object_list` gives the object of a freed slot to the next slot at the
end of the list. The freed slot is no longer current; every other slot keeps
its object and its bytes.
-/

namespace TrackFM

open Lib (Piece)

namespace Heap

variable {m : Manager} {h h' : Heap}

-- ---------------------------------------------------------------------------
-- Tables coherence does not read
-- ---------------------------------------------------------------------------

theorem credit_current : (h.credit i n).Current k ↔ h.Current k :=
  ⟨fun hk => ⟨hk.lt, hk.names⟩, fun hk => ⟨hk.lt, hk.names⟩⟩

theorem credit_coherent (hc : Coherent m h) : Coherent m (h.credit i n) :=
  { hc with published := fun _ hk => hc.published _ (credit_current.mp hk) }

theorem bump_current : (h.bump size).Current k ↔ h.Current k :=
  ⟨fun hk => ⟨hk.lt, hk.names⟩, fun hk => ⟨hk.lt, hk.names⟩⟩

theorem bump_coherent (hc : Coherent m h) : Coherent m (h.bump size) :=
  { hc with published := fun _ hk => hc.published _ (bump_current.mp hk) }

-- ---------------------------------------------------------------------------
-- update_object_list
-- ---------------------------------------------------------------------------

section
variable {i o : Nat}

theorem updateObjectList_objs (ho : h.ptrs i = some o) : (h.updateObjectList i).objs =
    Function.update h.objs o { h.objs o with carmObjIndex := h.totalObjCnt } := by
  simp only [updateObjectList, ho]

theorem updateObjectList_metadata :
    ((h.updateObjectList i).objs p).metadata = (h.objs p).metadata := by
  cases ho : h.ptrs i with
  | none => simp only [updateObjectList, ho]
  | some o =>
    rw [updateObjectList_objs ho]
    by_cases hp : p = o
    · subst hp
      simp
    · simp [hp]

theorem updateObjectList_remote : ((h.updateObjectList i).objs p).remote = (h.objs p).remote := by
  cases ho : h.ptrs i with
  | none => simp only [updateObjectList, ho]
  | some o =>
    rw [updateObjectList_objs ho]
    by_cases hp : p = o
    · subst hp
      simp
    · simp [hp]

theorem updateObjectList_ptrs (hk : k < h.totalObjCnt) :
    (h.updateObjectList i).ptrs k = h.ptrs k :=
  Function.update_of_ne (Nat.ne_of_lt hk) ..

theorem updateObjectList_end (ho : h.ptrs i = some o) :
    (h.updateObjectList i).ptrs h.totalObjCnt = some o := by
  simp [updateObjectList, ho]

theorem updateObjectList_byteAt (hk : k < h.totalObjCnt) :
    (h.updateObjectList i).byteAt m k j = h.byteAt m k j := by
  refine byteAt_eq (updateObjectList_ptrs hk) fun p _ => ?_
  simp only [objByte, Obj.Present, Obj.addr, updateObjectList_metadata, updateObjectList_remote]
  rfl

/-- Every other slot keeps its object, and the new slot is current. -/
theorem updateObjectList_current (hi : h.Current i) (ho : h.ptrs i = some o) :
    (h.updateObjectList i).Current k ↔ k ≠ i ∧ h.Current k ∨ k = h.totalObjCnt := by
  have hhome : (h.updateObjectList i).totalObjCnt = h.totalObjCnt + 1 := rfl
  constructor
  · intro hk
    by_cases hke : k = h.totalObjCnt
    · exact .inr hke
    have hlt : k < h.totalObjCnt := by
      have := hk.lt
      omega
    have hnames := hk.names
    rw [updateObjectList_ptrs hlt, updateObjectList_objs ho] at hnames
    refine .inl ⟨?_, hlt, fun p hp => ?_⟩
    · rintro rfl
      have := hnames o ho
      rw [Function.update_self] at this
      exact hke this.symm
    · have hne : p ≠ o := by
        rintro rfl
        have := hnames p hp
        rw [Function.update_self] at this
        exact hke this.symm
      have := hnames p hp
      rwa [Function.update_of_ne hne] at this
  · rintro (⟨hne, hk⟩ | rfl)
    · refine ⟨by have := hk.lt; omega, fun p hp => ?_⟩
      rw [updateObjectList_ptrs hk.lt] at hp
      have hpo : p ≠ o := by
        rintro rfl
        exact hne (hk.inj hi hp ho)
      rw [updateObjectList_objs ho, Function.update_of_ne hpo]
      exact hk.names p hp
    · refine ⟨by omega, fun p hp => ?_⟩
      rw [updateObjectList_end ho] at hp
      cases hp
      rw [updateObjectList_objs ho, Function.update_self]

theorem updateObjectList_home (hc : Coherent m h) (ho : h.ptrs i = some o) (hp : p < h.objCount) :
    ((h.updateObjectList i).objs p).carmObjIndex ≤ h.totalObjCnt ∧
      (h.updateObjectList i).ptrs ((h.updateObjectList i).objs p).carmObjIndex = some p := by
  rw [updateObjectList_objs ho]
  by_cases hpo : p = o
  · subst hpo
    rw [Function.update_self]
    exact ⟨Nat.le_refl _, updateObjectList_end ho⟩
  · rw [Function.update_of_ne hpo, updateObjectList_ptrs (hc.home_lt p hp)]
    exact ⟨Nat.le_of_lt (hc.home_lt p hp), hc.home p hp⟩

theorem updateObjectList_backed (hc : Coherent m h) (hi : h.Current i) (ho : h.ptrs i = some o)
    (hk : k < h.totalObjCnt + 1) (hp : (h.updateObjectList i).ptrs k = some p) :
    p < h.objCount := by
  rcases Nat.lt_succ_iff_lt_or_eq.mp hk with hlt | rfl
  · rw [updateObjectList_ptrs hlt] at hp
    exact hc.backed k p hlt hp
  · rw [updateObjectList_end ho] at hp
    cases hp
    exact hc.backed i o hi.lt ho

theorem updateObjectList_counted (hc : Coherent m h) : h.objCount ≤
    ((Finset.range h.numObjects).filter fun k => (h.updateObjectList i).ptrs k ≠ none).card := by
  have hsame : ((Finset.range h.numObjects).filter fun k =>
      (h.updateObjectList i).ptrs k ≠ none) =
      (Finset.range h.numObjects).filter fun k => h.ptrs k ≠ none := by
    refine Finset.filter_congr fun k hk => ?_
    rw [updateObjectList_ptrs ((Finset.mem_range.mp hk).trans_le hc.initial)]
  rw [hsame]
  exact hc.counted

theorem updateObjectList_coherent (hc : Coherent m h) (hi : h.Current i) (ho : h.ptrs i = some o)
    (hroom : h.totalObjCnt < totalObjects) : Coherent m (h.updateObjectList i) where
  placed := hc.placed.of_old fun p hp _ => ⟨hp, updateObjectList_metadata⟩
  synced p hp hpp hclean j hj := by
    rw [Obj.Present, updateObjectList_metadata] at hpp
    rw [Obj.Dirty, updateObjectList_metadata] at hclean
    rw [Obj.addr, updateObjectList_metadata, updateObjectList_remote]
    exact hc.synced p hp hpp hclean j hj
  home_lt p hp := Nat.lt_succ_of_le (updateObjectList_home hc ho hp).1
  home p hp := (updateObjectList_home hc ho hp).2
  backed k p hk hp := updateObjectList_backed (h := h) hc hi ho hk hp
  published k hk hpub := by
    rcases (updateObjectList_current hi ho).mp hk with ⟨-, hcur⟩ | rfl
    · obtain ⟨p, hp, he⟩ := hc.published k hcur hpub
      exact ⟨p, by rw [updateObjectList_ptrs hcur.lt]; exact hp,
        by rw [updateObjectList_metadata]; exact he⟩
    · exact absurd hpub (hc.unpublished _ (Nat.le_refl _))
  unpublished k hk := hc.unpublished k (Nat.le_of_succ_le hk)
  slots := hroom
  initial := Nat.le_succ_of_le hc.initial
  few := hc.few
  extended k hk hlt := by
    rcases Nat.lt_succ_iff_lt_or_eq.mp hlt with hlt | rfl
    · rw [updateObjectList_ptrs hlt]
      exact hc.extended k hk hlt
    · rw [updateObjectList_end ho]
      exact Option.some_ne_none o
  counted := updateObjectList_counted hc

end

-- ---------------------------------------------------------------------------
-- The loop of carm_free
-- ---------------------------------------------------------------------------

/-- What a free does to the slots in `K`, which it does not recycle. -/
structure Spares (m : Manager) (K : Nat → Prop) (h h' : Heap) : Prop where
  coherent : Coherent m h'
  mem : h'.mem = h.mem
  current : ∀ k, K k → h'.Current k
  ptrs : ∀ k, K k → h'.ptrs k = h.ptrs k
  byteAt : ∀ k j, K k → h'.byteAt m k j = h.byteAt m k j
  /-- The slots the free adds. -/
  added : ∀ k, h.totalObjCnt ≤ k → k < h'.totalObjCnt → h'.Current k

theorem freePieces_frees (hr : freePieces h ps = .ok h') : Frees h h' := by
  induction ps generalizing h with
  | nil =>
    cases hr
    exact .refl
  | cons p ps ih =>
    rcases Nat.lt_trichotomy (h.credited p) objSize with hlt | hfull | hgt
    · rw [freePieces, freePiece_count hlt] at hr
      exact credit_frees.trans (ih hr)
    · cases ho : h.ptrs p.slot with
      | none =>
        rw [freePieces, freePiece_stop hfull ho] at hr
        cases hr
        exact credit_frees
      | some o =>
        rw [freePieces, freePiece_recycle hfull ho] at hr
        exact credit_frees.trans (updateObjectList_frees.trans (ih hr))
    · rw [freePieces, freePiece_over hgt] at hr
      cases hr

/-- A free moves no bytes: a slot in use keeps what it shows. -/
theorem freePieces_shows (hr : freePieces h ps = .ok h') : h'.mem = h.mem ∧
    ∀ k < h.totalObjCnt, ∀ j, h'.byteAt m k j = h.byteAt m k j := by
  have hrule : (∃ h₁, freePieces h ps = .ok h₁ ∧ _) ∨ _ := freePieces_rule
    (I := fun h₁ (_ : List Piece) => h.totalObjCnt ≤ h₁.totalObjCnt ∧ h₁.mem = h.mem ∧
      ∀ k < h.totalObjCnt, ∀ j, h₁.byteAt m k j = h.byteAt m k j)
    (Q := fun h₁ => h₁.mem = h.mem ∧ ∀ k < h.totalObjCnt, ∀ j, h₁.byteAt m k j = h.byteAt m k j)
    (E := True) (fun _ _ _ hI _ _ => hI.2)
    (fun _ _ _ _ hI _ _ => ⟨Nat.le_succ_of_le hI.1, hI.2.1, fun k hk j =>
      (updateObjectList_byteAt (hk.trans_le hI.1)).trans (hI.2.2 k hk j)⟩)
    (fun _ _ _ hI _ => hI) (fun _ _ _ _ _ => trivial) (fun _ hI => hI.2)
    ⟨Nat.le_refl _, rfl, fun _ _ _ => rfl⟩
  rcases hrule with ⟨h₁, hr₁, hQ⟩ | ⟨habort, -⟩
  · obtain rfl := Except.ok.inj (hr.symm.trans hr₁)
    exact hQ
  · rw [hr] at habort
    cases habort

theorem freePieces_spares {K : Nat → Prop} {ps : List Piece} (hc : Coherent m h)
    (hnd : (ps.map Piece.slot).Nodup) (hps : ∀ p ∈ ps, h.Current p.slot)
    (hK : ∀ k, K k → h.Current k) (hnot : ∀ p ∈ ps, K p.slot → h.credited p ≠ objSize)
    (hroom : h'.totalObjCnt ≤ totalObjects) (hr : freePieces h ps = .ok h') : Spares m K h h' := by
  induction ps generalizing h K with
  | nil =>
    cases hr
    exact ⟨hc, rfl, hK, fun _ _ => rfl, fun _ _ _ => rfl, fun k h₁ h₂ => by omega⟩
  | cons p ps ih =>
    rw [List.map_cons, List.nodup_cons] at hnd
    have hne : ∀ q ∈ ps, q.slot ≠ p.slot := fun q hq he => hnd.1 (he ▸ List.mem_map_of_mem hq)
    have hcredited : ∀ q ∈ ps, (h.credit p.slot p.len).credited q = h.credited q := fun q hq => by
      rw [credited, credit_other (hne q hq)]
      rfl
    have hcredit := credit_coherent (i := p.slot) (n := p.len) hc
    rcases Nat.lt_trichotomy (h.credited p) objSize with hlt | hfull | hgt
    · rw [freePieces, freePiece_count hlt] at hr
      have hs := ih hcredit hnd.2 (fun q hq => credit_current.mpr (hps q (List.mem_cons_of_mem _ hq)))
        (fun k hk => credit_current.mpr (hK k hk))
        (fun q hq hKq => by rw [hcredited q hq]; exact hnot q (List.mem_cons_of_mem _ hq) hKq) hr
      exact ⟨hs.coherent, hs.mem, hs.current, hs.ptrs, hs.byteAt, hs.added⟩
    · cases ho : h.ptrs p.slot with
      | none =>
        rw [freePieces, freePiece_stop hfull ho] at hr
        cases hr
        exact ⟨hcredit, rfl, fun k hk => credit_current.mpr (hK k hk), fun _ _ => rfl,
          fun _ _ _ => rfl, fun k h₁ h₂ => absurd h₂ (Nat.not_lt.mpr h₁)⟩
      | some o =>
        rw [freePieces, freePiece_recycle hfull ho] at hr
        have hp : (h.credit p.slot p.len).Current p.slot :=
          credit_current.mpr (hps p (List.mem_cons_self ..))
        have hend : h.totalObjCnt < totalObjects :=
          Nat.lt_of_lt_of_le (Nat.lt_succ_self _) ((freePieces_frees hr).totalObjCnt.trans hroom)
        have hcur : ∀ {k}, k ≠ p.slot → h.Current k →
            ((h.credit p.slot p.len).updateObjectList p.slot).Current k := fun hk hcur =>
          (updateObjectList_current hp ho).mpr (.inl ⟨hk, credit_current.mpr hcur⟩)
        have hKp : ∀ k, K k → k ≠ p.slot := by
          rintro k hk rfl
          exact hnot p (List.mem_cons_self ..) hk hfull
        -- the slot the object moves to is spared by the rest of the loop
        have hs := ih (K := fun k => K k ∨ k = h.totalObjCnt)
          (updateObjectList_coherent hcredit hp ho hend) hnd.2
          (fun q hq => hcur (hne q hq) (hps q (List.mem_cons_of_mem _ hq)))
          (fun k hk => by
            rcases hk with hk | rfl
            · exact hcur (hKp k hk) (hK k hk)
            · exact (updateObjectList_current hp ho).mpr (.inr rfl))
          (fun q hq hKq => by
            have hq' := hps q (List.mem_cons_of_mem _ hq)
            have hq := hcredited q hq ▸ hnot q (List.mem_cons_of_mem _ hq)
              (hKq.resolve_right (Nat.ne_of_lt hq'.lt))
            exact hq) hr
        have hlt : ∀ k, K k → k < h.totalObjCnt := fun k hk => (hK k hk).lt
        refine ⟨hs.coherent, hs.mem, fun k hk => hs.current k (.inl hk),
          fun k hk => (hs.ptrs k (.inl hk)).trans (updateObjectList_ptrs (hlt k hk)),
          fun k j hk => (hs.byteAt k j (.inl hk)).trans (updateObjectList_byteAt (hlt k hk)),
          fun k h₁ h₂ => ?_⟩
        by_cases hk : k = h.totalObjCnt
        · exact hs.current k (.inr hk)
        · exact hs.added k (show h.totalObjCnt + 1 ≤ k by omega) h₂
    · rw [freePieces, freePiece_over hgt] at hr
      cases hr

end Heap

end TrackFM
