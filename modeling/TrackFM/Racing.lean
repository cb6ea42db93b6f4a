import TrackFM.Intact

/-!
# The published state under evacuation

The slow path of a dereference reads the metadata of an object and publishes it
in a step of its own, and so does the evacuator after it has changed the
metadata. What `carm_obj_state` says of an object when the two interleave.
-/

namespace TrackFM

/-- Every bit the evacuator sets in `u` to send accesses down the slow path is in `w`. -/
def Warns (w u : Nat) : Prop := ∀ e ∈ [kEvacuationSet, kPresentClear], u &&& e ≠ 0 → w &&& e ≠ 0

theorem Warns.refl : Warns w w := fun _ _ h => h

theorem Warns.trans (h₁ : Warns w u) (h₂ : Warns u v) : Warns w v := fun e he h =>
  h₁ e he (h₂ e he h)

namespace Heap

variable {m : Manager} {h : Heap}

def storeState (h : Heap) (objIndex word : Nat) : Heap :=
  { h with carmObjState := Function.update h.carmObjState objIndex word }

/-- The store of `update_cache_object`, with the metadata word it has read. -/
def storeCacheObject (h : Heap) (o word : Nat) : Heap :=
  let oldIndex := (h.objs o).carmObjIndex
  if oldIndex < totalObjects then h.storeState oldIndex word else h

theorem updateCacheObject_eq : h.updateCacheObject o = h.storeCacheObject o (h.objs o).metadata := rfl

def setEvacuation (h : Heap) (o : Nat) : Heap :=
  let marked := { h.objs o with metadata := (h.objs o).metadata ||| kEvacuationSet }
  { h with objs := Function.update h.objs o marked }

def blank (h : Heap) : Heap := { h with carmObjState := fun _ => flushCache }

/-- What coherence says apart from the published words. -/
def Sound (m : Manager) (h : Heap) : Prop := Coherent m h.blank

theorem Coherent.sound (hc : Coherent m h) : Sound m h :=
  { hc with
    published := fun _ _ hp => absurd hp flushed
    unpublished := fun _ _ => flushed }

-- ---------------------------------------------------------------------------
-- Soundness of the steps
-- ---------------------------------------------------------------------------

theorem carmDeref_sound (hs : Sound m h) : Sound m h.carmDeref := (carmDeref_keeps hs).coherent

theorem carmAddPrefetchTrace_eq :
    ∃ f', h.carmAddPrefetchTrace i f = { h with prevObjIndex := f' } := by
  unfold carmAddPrefetchTrace
  split
  · exact ⟨_, rfl⟩
  · exact ⟨_, rfl⟩

theorem traced_sound (hs : Sound m h) : Sound m { h with prevObjIndex := f } :=
  { hs with
    published := fun _ _ hp => absurd hp flushed
    unpublished := fun _ _ => flushed }

theorem storeCacheObject_eq : ∃ W, h.storeCacheObject o w = { h with carmObjState := W } := by
  simp only [storeCacheObject]
  split
  · exact ⟨_, rfl⟩
  · exact ⟨_, rfl⟩

theorem objectFor_blank : objectFor m h.blank i = ((objectFor m h i).1.blank, (objectFor m h i).2) := by
  have hptrs : h.blank.ptrs i = h.ptrs i := rfl
  unfold objectFor
  rw [hptrs]
  cases h.ptrs i <;> rfl

theorem objectFor_sound (hs : Sound m h) (hi : h.Current i) : Sound m (objectFor m h i).1 := by
  have hk := (objectFor_spec (m := m) (i := i) hs ⟨hi.lt, hi.names⟩).1.coherent
  rwa [objectFor_blank] at hk

theorem deref_sound (hs : Sound m h) (hi : h.Current i) (ho : h.ptrs i = some o) :
    Sound m (h.deref m o w) :=
  (deref_publish_keeps (w := w) hs ⟨hi.lt, hi.names⟩ ho).coherent.sound

theorem dropped_sound (hs : Sound m h) (ho : o < h.objCount) (hp : (h.objs o).Present) :
    Sound m (dropped m h o) := by
  have hk := (evacuate_keeps hs ho).coherent
  rw [evacuate_state hs ho hp] at hk
  exact hk.sound

/-- The mark changes neither where the object is nor whether it is dirty. -/
theorem setEvacuation_objs (p : Nat) :
    (((h.setEvacuation o).objs p).Present ↔ (h.objs p).Present) ∧
      (((h.setEvacuation o).objs p).Dirty ↔ (h.objs p).Dirty) ∧
      ((h.setEvacuation o).objs p).addr = (h.objs p).addr ∧
      ((h.setEvacuation o).objs p).carmObjIndex = (h.objs p).carmObjIndex ∧
      ((h.setEvacuation o).objs p).remote = (h.objs p).remote := by
  by_cases hp : p = o
  · subst hp
    simp only [setEvacuation, Function.update_self, Obj.Present, Obj.Dirty, Obj.addr, Present, Dirty]
    rw [or_and (by decide), or_and (by decide), or_addr (by decide)]
    exact ⟨.rfl, .rfl, rfl, trivial, trivial⟩
  · simp [setEvacuation, hp]

theorem setEvacuation_marked : ((h.setEvacuation o).objs o).metadata &&& kEvacuationSet ≠ 0 := by
  simp only [setEvacuation, Function.update_self, Nat.and_or_distrib_right, Nat.and_self]
  exact fun h => absurd (Nat.or_eq_zero_iff.mp h).2 (by decide)

theorem setEvacuation_current : (h.setEvacuation o).Current k ↔ h.Current k := by
  constructor
  · intro hk
    refine ⟨hk.lt, fun p hp => ?_⟩
    rw [← (setEvacuation_objs (o := o) p).2.2.2.1]
    exact hk.names p hp
  · intro hk
    refine ⟨hk.lt, fun p hp => ?_⟩
    rw [(setEvacuation_objs p).2.2.2.1]
    exact hk.names p hp

theorem setEvacuation_sound (hs : Sound m h) : Sound m (h.setEvacuation o) where
  placed := by
    refine ⟨fun p hp hpres => ?_, fun p hp q hq hne hpp hqp => ?_⟩
    · obtain ⟨h₁, -, h₂, -⟩ := setEvacuation_objs (h := h) (o := o) p
      show m.lo ≤ ((h.setEvacuation o).objs p).addr ∧ ((h.setEvacuation o).objs p).addr + objSize ≤ m.hi
      rw [h₂]
      exact hs.placed.within p hp (h₁.mp hpres)
    · obtain ⟨hp₁, -, hp₂, -⟩ := setEvacuation_objs (h := h) (o := o) p
      obtain ⟨hq₁, -, hq₂, -⟩ := setEvacuation_objs (h := h) (o := o) q
      show Apart ((h.setEvacuation o).objs p).addr ((h.setEvacuation o).objs q).addr
      rw [hp₂, hq₂]
      exact hs.placed.apart p hp q hq hne (hp₁.mp hpp) (hq₁.mp hqp)
  synced := by
    intro p hp hpres hclean j hj
    obtain ⟨h₁, h₂, h₃, -, h₄⟩ := setEvacuation_objs (h := h) (o := o) p
    show h.mem (((h.setEvacuation o).objs p).addr + j) = ((h.setEvacuation o).objs p).remote j
    rw [h₃, h₄]
    exact hs.synced p hp (h₁.mp hpres) (fun hd => hclean (h₂.mpr hd)) j hj
  home_lt := by
    intro p hp
    show ((h.setEvacuation o).objs p).carmObjIndex < h.totalObjCnt
    rw [(setEvacuation_objs p).2.2.2.1]
    exact hs.home_lt p hp
  home := by
    intro p hp
    show h.ptrs ((h.setEvacuation o).objs p).carmObjIndex = some p
    rw [(setEvacuation_objs p).2.2.2.1]
    exact hs.home p hp
  backed := hs.backed
  published _ _ hp := absurd hp flushed
  unpublished _ _ := flushed
  slots := hs.slots
  initial := hs.initial
  few := hs.few
  extended := hs.extended
  counted := hs.counted

theorem objectFor_others (hi : h.Current i) :
    (objectFor m h i).1.Current i ∧ (objectFor m h i).1.ptrs i = some (objectFor m h i).2 ∧
      (objectFor m h i).1.carmObjState = h.carmObjState ∧
      (objectFor m h i).1.totalObjCnt = h.totalObjCnt ∧
      h.objCount ≤ (objectFor m h i).1.objCount ∧
      (∀ p < h.objCount, (objectFor m h i).1.objs p = h.objs p) ∧
      ∀ k ≠ i, (objectFor m h i).1.ptrs k = h.ptrs k := by
  unfold objectFor
  split
  case h_1 o ho => exact ⟨hi, ho, rfl, rfl, Nat.le_refl _, fun _ _ => rfl, fun _ _ => rfl⟩
  case h_2 hn =>
    refine ⟨⟨hi.lt, ?_⟩, by simp [allocateObject], rfl, rfl, Nat.le_succ _,
      fun p hp => allocateObject_objs hp, fun k hk => allocateObject_ptrs hk⟩
    intro o ho
    simp only [allocateObject, Function.update_self, Option.some.injEq] at ho
    simp [allocateObject, ← ho]

end Heap

-- ---------------------------------------------------------------------------
-- The two parties
-- ---------------------------------------------------------------------------

open Heap

inductive Mutator where
  | idle
  | opened (objIndex : Nat) (mutable : Bool) (pfId : Nat)
  /-- The word it has read is still to be stored. -/
  | loaded (objIndex pfId word : Nat)

inductive Evacuator where
  | idle
  | changed (o : Nat)
  | loaded (o word : Nat)

def Mutator.Uses : Mutator → Nat → Prop
  | idle, _ => False
  | opened j _ _, i | loaded j _ _, i => j = i

def Mutator.Pending : Mutator → Nat → Prop
  | loaded j _ _, i => j = i
  | _, _ => False

def Evacuator.Pending : Evacuator → Nat → Prop
  | idle, _ => False
  | changed p, o | loaded p _, o => p = o

structure Racing where
  heap : Heap
  mutator : Mutator
  evacuator : Evacuator
  /-- How many scopes have to be closed before the object may move, once it is marked. -/
  marked : Nat → Option Nat

inductive Action where
  | openScope (objIndex : Nat) (mutable : Bool) (pfId : Nat)
  | deref
  | storeWord
  | setEvacuation (o : Nat)
  | clearPresent (o : Nat)
  | readWord
  | storeCached

namespace Racing

def start (h : Heap) : Racing := ⟨h, .idle, .idle, fun _ => none⟩

/-- The scope that is open now, if there is one, has to be closed. -/
def afterScope (h : Heap) : Nat := if h.inScope then h.scopeExits + 1 else h.scopeExits

inductive Step (m : Manager) : Racing → Action → Racing → Prop
  | openScope {i pf : Nat} {w : Bool} : s.mutator = .idle → s.heap.Current i →
      Step m s (.openScope i w pf) { s with heap := s.heap.carmDeref, mutator := .opened i w pf }
  | deref {i o pf : Nat} {w : Bool} {h : Heap} : s.mutator = .opened i w pf →
      objectFor m s.heap i = (h, o) →
      Step m s .deref { s with
        heap := h.deref m o w
        mutator := .loaded i pf ((h.deref m o w).objs o).metadata }
  | storeWord {i pf word : Nat} : s.mutator = .loaded i pf word →
      Step m s .storeWord { s with
        heap := (s.heap.storeState i word).carmAddPrefetchTrace i pf
        mutator := .idle }
  | setEvacuation {o : Nat} : s.evacuator = .idle → o < s.heap.objCount →
      Step m s (.setEvacuation o) { s with
        heap := s.heap.setEvacuation o
        evacuator := .changed o
        marked := Function.update s.marked o (some (afterScope s.heap)) }
  -- relocation waits for the scope that was open when the object was marked
  | clearPresent {o n : Nat} : s.evacuator = .idle → o < s.heap.objCount → (s.heap.objs o).Present →
      s.marked o = some n → n ≤ s.heap.scopeExits →
      Step m s (.clearPresent o) { s with heap := dropped m s.heap o, evacuator := .changed o }
  | readWord {o : Nat} : s.evacuator = .changed o →
      Step m s .readWord { s with evacuator := .loaded o (s.heap.objs o).metadata }
  | storeCached {o word : Nat} : s.evacuator = .loaded o word →
      Step m s .storeCached { s with heap := s.heap.storeCacheObject o word, evacuator := .idle }

inductive Run (m : Manager) (s₀ : Racing) : List (Racing × Action) → Racing → Prop
  | start : Run m s₀ [] s₀
  | step : Run m s₀ tr s → Step m s a s' → Run m s₀ ((s, a) :: tr) s'

/-- The state of a slot with no store pending is not more permissive than its object. -/
def Published (s : Racing) : Prop :=
  ∀ i o, s.heap.Current i → s.heap.ptrs i = some o → ¬s.mutator.Pending i → ¬s.evacuator.Pending o →
    Warns (s.heap.carmObjState i) (s.heap.objs o).metadata

/-- The word the program is about to store has the exception bits the object
has by now, unless the evacuator is still going to store its own. -/
def Timely (s : Racing) (a : Action) : Prop :=
  a = .storeWord → ∀ i pf word o, s.mutator = .loaded i pf word → s.heap.ptrs i = some o →
    s.evacuator.Pending o ∨ Warns word (s.heap.objs o).metadata

-- ---------------------------------------------------------------------------
-- What every run keeps
-- ---------------------------------------------------------------------------

/-- Only the evacuator sets the evacuation bit. -/
def DerefKeepsMark (m : Manager) : Prop := ∀ objs n o w,
  m.derefWord objs n o w &&& kEvacuationSet ≠ 0 → (objs o).metadata &&& kEvacuationSet ≠ 0

structure Inv (m : Manager) (s : Racing) : Prop where
  sound : Sound m s.heap
  current : ∀ i, s.mutator.Uses i → s.heap.Current i
  held : ∀ o, s.evacuator.Pending o → o < s.heap.objCount
  /-- The word the evacuator is about to store has the bits the object has by now. -/
  read : ∀ o word, s.evacuator = .loaded o word → Warns word (s.heap.objs o).metadata

variable {m : Manager} {s s' : Racing} {h : Heap}

theorem start_inv (hc : Coherent m h) : Inv m (start h) :=
  ⟨hc.sound, fun _ => False.elim, fun _ => False.elim, nofun⟩

/-- A dereference only takes exception bits away. -/
theorem deref_warns (hm : DerefKeepsMark m) (hs : Sound m h) (hi : h.Current i)
    (ho : h.ptrs i = some o) (p : Nat) :
    Warns (h.objs p).metadata ((h.deref m o w).objs p).metadata := by
  by_cases hp : p = o
  · subst hp
    rw [deref_objs_self]
    have hword := deref_word (w := w) hs (hs.backed i p hi.lt ho)
    intro e he hne
    rcases List.mem_cons.mp he with rfl | he
    · exact hm _ _ _ _ hne
    · cases List.mem_singleton.mp he
      exact absurd hword.present hne
  · rw [deref_objs_ne hp]
    exact .refl

theorem Step.inv (hm : DerefKeepsMark m) (hs : Inv m s) (hstep : Step m s a s') : Inv m s' := by
  cases hstep with
  | openScope hidle hi =>
    refine ⟨carmDeref_sound hs.sound, ?_, hs.held, hs.read⟩
    rintro _ rfl
    exact ⟨hi.lt, hi.names⟩
  | @deref i o pf w h hopen ho =>
    have hi : s.heap.Current i := hs.current i (by rw [hopen]; rfl)
    have hsound := objectFor_sound hs.sound hi
    obtain ⟨hi', hio, -, -, hcount, hobjs, -⟩ := objectFor_others (m := m) hi
    rw [ho] at hsound hi' hio hcount hobjs
    refine ⟨deref_sound hsound hi' hio, ?_, ?_, ?_⟩
    · rintro _ rfl
      have hcur := (deref_current (m := m) (i := 0) (o := o) (w := w)).mpr hi'
      exact ⟨hcur.lt, hcur.names⟩
    · exact fun p hp => Nat.lt_of_lt_of_le (hs.held p hp) hcount
    · intro p word hp
      have hlt := hs.held p (by rw [hp]; rfl)
      have hword := hs.read p word hp
      rw [← hobjs p hlt] at hword
      exact hword.trans (deref_warns hm hsound hi' hio p)
  | @storeWord i pf word hload =>
    obtain ⟨f, hf⟩ := carmAddPrefetchTrace_eq (h := s.heap.storeState i word) (i := i) (f := pf)
    rw [hf]
    exact ⟨traced_sound hs.sound, fun _ => False.elim, hs.held, hs.read⟩
  | @setEvacuation o hidle ho =>
    refine ⟨setEvacuation_sound hs.sound, ?_, ?_, nofun⟩
    · exact fun i hi => setEvacuation_current.mpr (hs.current i hi)
    · rintro _ rfl
      exact ho
  | @clearPresent o n hidle ho hpres hmark hn =>
    refine ⟨dropped_sound hs.sound ho hpres, ?_, ?_, nofun⟩
    · exact fun i hi => dropped_current.mpr (hs.current i hi)
    · rintro _ rfl
      exact ho
  | @readWord o hch =>
    refine ⟨hs.sound, hs.current, ?_, ?_⟩
    · rintro _ rfl
      exact hs.held o (by rw [hch]; rfl)
    · rintro _ _ ⟨⟩
      exact .refl
  | @storeCached o word hload =>
    obtain ⟨W, hW⟩ := storeCacheObject_eq (h := s.heap) (o := o) (w := word)
    rw [hW]
    refine ⟨hs.sound, fun i hi => ?_, fun _ => False.elim, nofun⟩
    have hcur := hs.current i hi
    exact ⟨hcur.lt, hcur.names⟩

/-- The evacuator publishes what it has read, at the slot of its object and only there. -/
theorem storeCached_published (hs : Inv m s) (hp : Published s) (hload : s.evacuator = .loaded o word) :
    Published { s with heap := s.heap.storeCacheObject o word, evacuator := .idle } := by
  intro k p hcur hk hmu _
  have ho := hs.held o (by rw [hload]; rfl)
  have hidx : (s.heap.objs o).carmObjIndex < totalObjects :=
    Nat.lt_of_lt_of_le (hs.sound.home_lt o ho) hs.sound.slots
  simp only [storeCacheObject, if_pos hidx, storeState] at hcur hk ⊢
  have hcur' : s.heap.Current k := ⟨hcur.lt, hcur.names⟩
  by_cases hpo : p = o
  · subst hpo
    rw [hcur'.names p hk, Function.update_self]
    exact hs.read p word hload
  · have hne : k ≠ (s.heap.objs o).carmObjIndex := by
      rintro rfl
      have hhome : s.heap.ptrs (s.heap.objs o).carmObjIndex = some o := hs.sound.home o ho
      rw [hhome] at hk
      exact hpo (Option.some.inj hk).symm
    rw [Function.update_of_ne hne]
    refine hp k p hcur' hk hmu ?_
    rw [hload]
    exact Ne.symm hpo

theorem Step.published (hs : Inv m s) (hp : Published s) (ht : Timely s a) (hstep : Step m s a s') :
    Published s' := by
  cases hstep with
  | openScope hidle _ =>
    intro k p hcur hk _ hev
    exact hp k p ⟨hcur.lt, hcur.names⟩ hk (by rw [hidle]; exact id) hev
  | @deref i o pf w h hopen ho =>
    have hi : s.heap.Current i := hs.current i (by rw [hopen]; rfl)
    have hsound := objectFor_sound hs.sound hi
    obtain ⟨hi', hio, hstate, htotal, -, hobjs, hptrs⟩ := objectFor_others (m := m) hi
    rw [ho] at hsound hi' hio hstate htotal hobjs hptrs
    intro k p hcur hk hmu hev
    have hki : k ≠ i := fun he => hmu he.symm
    have hlt : k < s.heap.totalObjCnt := htotal ▸ hcur.lt
    have hk' : s.heap.ptrs k = some p := (hptrs k hki).symm.trans hk
    have hpo := hs.sound.backed k p hlt hk'
    have hname : (s.heap.objs p).carmObjIndex = k := by
      rw [← hobjs p hpo, ← deref_index (m := m) (o := o) (w := w)]
      exact hcur.names p hk
    have hcur' : s.heap.Current k := ⟨hlt, fun q hq => by
      cases hk'.symm.trans hq
      exact hname⟩
    have hne : p ≠ o := by
      rintro rfl
      have hnamei := hi'.names p hio
      rw [hobjs p hpo, hname] at hnamei
      exact hki hnamei
    show Warns (h.carmObjState k) ((h.deref m o w).objs p).metadata
    rw [hstate, deref_objs_ne hne, hobjs p hpo]
    exact hp k p hcur' hk' (by rw [hopen]; exact id) hev
  | @storeWord i pf word hload =>
    obtain ⟨f, hf⟩ := carmAddPrefetchTrace_eq (h := s.heap.storeState i word) (i := i) (f := pf)
    rw [hf]
    intro k p hcur hk _ hev
    show Warns (Function.update s.heap.carmObjState i word k) (s.heap.objs p).metadata
    by_cases hki : k = i
    · subst hki
      rw [Function.update_self]
      exact (ht rfl k pf word p hload hk).resolve_left hev
    · rw [Function.update_of_ne hki]
      refine hp k p ⟨hcur.lt, hcur.names⟩ hk ?_ hev
      rw [hload]
      exact fun he => hki he.symm
  | @setEvacuation o hidle ho =>
    intro k p hcur hk hmu hev
    have hpo : p ≠ o := fun he => hev he.symm
    have hobjs : (s.heap.setEvacuation o).objs p = s.heap.objs p := by
      simp [Heap.setEvacuation, hpo]
    show Warns (s.heap.carmObjState k) ((s.heap.setEvacuation o).objs p).metadata
    rw [hobjs]
    exact hp k p (setEvacuation_current.mp hcur) hk hmu (by rw [hidle]; exact id)
  | @clearPresent o n hidle ho _ _ _ =>
    intro k p hcur hk hmu hev
    have hpo : p ≠ o := fun he => hev he.symm
    show Warns (s.heap.carmObjState k) ((dropped m s.heap o).objs p).metadata
    rw [dropped_objs hpo]
    exact hp k p (dropped_current.mp hcur) hk hmu (by rw [hidle]; exact id)
  | @readWord o hch =>
    intro k p hcur hk hmu hev
    refine hp k p hcur hk hmu ?_
    rw [hch]
    exact hev
  | storeCached hload => exact storeCached_published hs hp hload

theorem Step.untimely (hs : Inv m s) (ht : ¬Timely s a) (hstep : Step m s a s') : ¬Published s' := by
  intro hp
  refine ht fun ha i pf word o hload ho => ?_
  subst ha
  by_contra hneg
  rw [not_or] at hneg
  have hi := hs.current i (by rw [hload]; rfl)
  cases hstep with
  | @storeWord j pf' word' hload' =>
    rw [hload] at hload'
    cases hload'
    obtain ⟨f, hf⟩ := carmAddPrefetchTrace_eq (h := s.heap.storeState i word) (i := i) (f := pf)
    rw [hf] at hp
    have hcov := hp i o ⟨hi.lt, hi.names⟩ ho id hneg.1
    simp only [storeState, Function.update_self] at hcov
    exact hneg.2 hcov

theorem Run.inv (hm : DerefKeepsMark m) (hs : Inv m s₀) (hr : Run m s₀ tr s) : Inv m s := by
  induction hr with
  | start => exact hs
  | step _ hstep ih => exact hstep.inv hm ih

/-- In a run from a quiet heap the states say no more than the objects just if
no store of the program comes too late. -/
theorem published_iff_timely (hm : DerefKeepsMark m) (hc : Coherent m h) (h₀ : Published (start h))
    (hr : Run m (start h) tr s) :
    (∀ t ∈ s :: tr.map Prod.fst, Published t) ↔ ∀ p ∈ tr, Timely p.1 p.2 := by
  induction hr with
  | start => simpa using h₀
  | @step tr s a s' hr hstep ih =>
    have hinv := hr.inv hm (start_inv hc)
    rw [List.forall_mem_cons, List.map_cons, ih, List.forall_mem_cons]
    constructor
    · rintro ⟨hlast, hbefore⟩
      refine ⟨by_contra fun ht => hstep.untimely hinv ht hlast, hbefore⟩
    · rintro ⟨ht, hbefore⟩
      have hp := ih.mpr hbefore s List.mem_cons_self
      exact ⟨hstep.published hinv hp ht, hbefore⟩

-- ---------------------------------------------------------------------------
-- Undisturbed, the steps are the functions
-- ---------------------------------------------------------------------------

theorem slowPath_run (hidle : s.mutator = .idle) (hi : s.heap.Current i) : ∃ tr, Run m s tr
    { s with heap := (carmDerefObj m s.heap.carmDeref w i pf).1, mutator := .idle } := by
  rw [carmDerefObj]
  cases hobj : objectFor m s.heap.carmDeref i with
  | mk h o =>
    have hstep : Step m s (.openScope i w pf) _ := .openScope hidle hi
    have hopen : Run m s _ _ := .step .start hstep
    have hderef : Run m s _ _ := .step hopen (.deref rfl hobj)
    exact ⟨_, .step hderef (.storeWord rfl)⟩

theorem evacuate_run (hidle : s.evacuator = .idle) (ho : o < s.heap.objCount)
    (hp : (s.heap.objs o).Present) (hmark : s.marked o = some n) (hn : n ≤ s.heap.scopeExits) :
    ∃ tr, Run m s tr { s with heap := s.heap.evacuate m o, evacuator := .idle } := by
  rw [evacuate_eq hp, updateCacheObject_eq]
  have hclear : Run m s _ _ := .step .start (.clearPresent hidle ho hp hmark hn)
  have hread : Run m s _ _ := .step hclear (.readWord rfl)
  exact ⟨_, .step hread (.storeCached rfl)⟩

-- ---------------------------------------------------------------------------
-- One object, marked between the read and the store, and after it
-- ---------------------------------------------------------------------------

theorem cacheManager_unmarked (objs : Nat → Obj) (n o : Nat) (w : Bool) :
    cacheManager.derefWord objs n o w &&& kEvacuationSet = 0 := by
  show Cache.derefWord objs n o w &&& kEvacuationSet = 0
  unfold Cache.derefWord
  split <;> rw [Cache.word_and (by decide)] <;> split <;> decide

theorem cacheManager_keepsMark : DerefKeepsMark cacheManager := fun objs n o w h =>
  absurd (cacheManager_unmarked objs n o w) h

abbrev firstHeap : Heap := (init (fun _ => none) fun _ => 0).heap

theorem firstHeap_ptrs (hi : i < firstHeap.totalObjCnt) : firstHeap.ptrs i = none := if_pos hi

theorem firstHeap_published : Published (start firstHeap) := fun _ _ hi ho =>
  absurd ((firstHeap_ptrs hi.lt).symm.trans ho) nofun

theorem firstHeap_current : firstHeap.Current 0 := by
  have hlt : 0 < firstHeap.totalObjCnt := show 0 < kWorkingSetSize / objSize by decide
  exact ⟨hlt, fun o ho => absurd ((firstHeap_ptrs hlt).symm.trans ho) nofun⟩

theorem firstRead : ∃ h o tr, Run cacheManager (start firstHeap) tr
      ⟨h, .loaded 0 0 (h.objs o).metadata, .idle, fun _ => none⟩ ∧ (∀ p ∈ tr, Timely p.1 p.2) ∧
    Sound cacheManager h ∧ h.Current 0 ∧ h.ptrs 0 = some o ∧
    (h.objs o).metadata &&& kEvacuationSet = 0 := by
  have hi : firstHeap.carmDeref.Current 0 := ⟨firstHeap_current.lt, firstHeap_current.names⟩
  have hsound := objectFor_sound (m := cacheManager) (carmDeref_sound init_coherent.sound) hi
  obtain ⟨hi', hio, -⟩ := objectFor_others (m := cacheManager) hi
  cases hobj : objectFor cacheManager firstHeap.carmDeref 0 with
  | mk h o =>
    rw [hobj] at hsound hi' hio
    have hstep : Step cacheManager (start firstHeap) (.openScope 0 false 0) _ :=
      .openScope rfl firstHeap_current
    have hopen : Run cacheManager (start firstHeap) _ _ := .step .start hstep
    have hcur := (deref_current (m := cacheManager) (i := 0) (o := o) (w := false)).mpr hi'
    refine ⟨_, o, _, .step hopen (.deref rfl hobj), ?_, deref_sound hsound hi' hio,
      ⟨hcur.lt, hcur.names⟩, hio, ?_⟩
    · simp [Timely]
    · rw [deref_objs_self]
      exact cacheManager_unmarked _ _ _ _

theorem published_marked : ∃ tr s, Run cacheManager (start firstHeap) tr s ∧
    s.heap.carmObjState 0 &&& kEvacuationSet ≠ 0 := by
  obtain ⟨h, o, tr, hread, htimely, hsound, hi, ho, -⟩ := firstRead
  have hlt : o < h.objCount := hsound.backed 0 o hi.lt ho
  obtain ⟨f, hf⟩ := carmAddPrefetchTrace_eq (h := h.storeState 0 (h.objs o).metadata) (i := 0) (f := 0)
  have hstore := Run.step hread (.storeWord rfl)
  rw [hf] at hstore
  have hmark := Run.step hstore (.setEvacuation rfl hlt)
  have hcached := Run.step (.step hmark (.readWord rfl)) (.storeCached rfl)
  obtain ⟨W, hW⟩ := storeCacheObject_eq (o := o)
    (h := ({ h.storeState 0 (h.objs o).metadata with prevObjIndex := f }).setEvacuation o)
    (w := ((({ h.storeState 0 (h.objs o).metadata with
      prevObjIndex := f }).setEvacuation o).objs o).metadata)
  rw [hW] at hcached
  have hpub := (published_iff_timely cacheManager_keepsMark init_coherent firstHeap_published
    hcached).mpr ?timely _ List.mem_cons_self
  case timely =>
    simp only [List.forall_mem_cons]
    refine ⟨nofun, nofun, nofun, ?_, htimely⟩
    rintro - i pf word p ⟨⟩ hp
    cases ho.symm.trans hp
    exact .inr .refl
  have hcur := (setEvacuation_current (o := o)).mpr hi
  exact ⟨_, _, hcached, hpub 0 o ⟨hcur.lt, hcur.names⟩ ho id id kEvacuationSet List.mem_cons_self
    setEvacuation_marked⟩

theorem mark_lost : ∃ tr s o, Run cacheManager (start firstHeap) tr s ∧ s.mutator = .idle ∧
    s.evacuator = .idle ∧ s.heap.Current 0 ∧ s.heap.ptrs 0 = some o ∧
    ¬Warns (s.heap.carmObjState 0) (s.heap.objs o).metadata := by
  obtain ⟨h, o, tr, hread, -, hsound, hi, ho, hunmarked⟩ := firstRead
  have hlt : o < h.objCount := hsound.backed 0 o hi.lt ho
  have hmark := Run.step hread (.setEvacuation rfl hlt)
  have hcached := Run.step (.step hmark (.readWord rfl)) (.storeCached rfl)
  obtain ⟨W, hW⟩ := storeCacheObject_eq (h := h.setEvacuation o) (o := o)
    (w := ((h.setEvacuation o).objs o).metadata)
  rw [hW] at hcached
  obtain ⟨f, hf⟩ := carmAddPrefetchTrace_eq (i := 0) (f := 0)
    (h := ({ h.setEvacuation o with carmObjState := W }).storeState 0 (h.objs o).metadata)
  have hlast := Run.step hcached (.storeWord rfl)
  rw [hf] at hlast
  have hcur := (setEvacuation_current (o := o)).mpr hi
  refine ⟨_, _, o, hlast, rfl, rfl, ⟨hcur.lt, hcur.names⟩, ho, fun hcov => ?_⟩
  have hbit := hcov kEvacuationSet List.mem_cons_self setEvacuation_marked
  simp only [storeState, Function.update_self] at hbit
  exact hbit hunmarked

end Racing

end TrackFM
