import TrackFM.Config
import TrackFM.Lib.Affine
import Mathlib.Data.BitVec
import Mathlib.Data.List.Infix

/-!
# Offsets of hoisted GEPs

`collectOffset` and `check_gep_offsets` of the loop check pass: the offset of a
GEP from its base is a constant and a scale for each index variable, and over
the iterations of the innermost loop it starts at one built value and steps by
another. Index arithmetic is that of a 64-bit address space.
-/

namespace TrackFM

open Lib (addScale form)

-- ---------------------------------------------------------------------------
-- GEPs
-- ---------------------------------------------------------------------------

inductive LlvmType where
  | scalar (bytes : Nat)
  | array (n : Nat) (elem : LlvmType)
  | vector (n : Nat) (elem : LlvmType)
  | struct (fields : List LlvmType)

def LlvmType.IsVector : LlvmType → Prop
  | .vector .. => True
  | _ => False

instance (t : LlvmType) : Decidable t.IsVector := by
  cases t <;> unfold LlvmType.IsVector <;> infer_instance

structure DataLayout where
  typeAllocSize : LlvmType → BitVec 64
  elementOffset : List LlvmType → Nat → BitVec 64

inductive GepIndex (V : Type) where
  | const (w : Nat) (c : BitVec w)
  | value (v : V)

/-- `gep_type_iterator`: what the next index selects from. -/
inductive TypeIterator where
  | sequential (elem : LlvmType)
  | struct (fields : List LlvmType)

/-- The type of an element, or of a pointee, is stepped into by the next index;
there is nothing to index in a scalar. -/
def LlvmType.iterate : LlvmType → Option TypeIterator
  | .array _ elem => some (.sequential elem)
  | .vector _ elem => some (.sequential elem)
  | .struct fields => some (.struct fields)
  | .scalar _ => none

structure Gep (V : Type) where
  sourceElementType : LlvmType
  indices : List (GepIndex V)

variable {V : Type} {w : V → Nat}

abbrev Values (w : V → Nat) : Type := ∀ v, BitVec (w v)

/-- Indices are sign-extended or truncated to the width of an address. -/
def GepIndex.offset (x : Values w) : GepIndex V → BitVec 64
  | .const _ c => c.signExtend 64
  | .value v => (x v).signExtend 64

/-- The byte offset a list of indices adds; `none` if they do not fit the type. -/
def offsetFrom (dl : DataLayout) (x : Values w) :
    Option TypeIterator → List (GepIndex V) → Option (BitVec 64)
  | _, [] => some 0
  | none, _ :: _ => none
  | some (.struct fields), .const _ c :: rest => do
    let field ← fields[c.toNat]?
    let r ← offsetFrom dl x field.iterate rest
    return dl.elementOffset fields c.toNat + r
  | some (.struct _), .value _ :: _ => none
  | some (.sequential elem), i :: rest => do
    let r ← offsetFrom dl x elem.iterate rest
    return i.offset x * dl.typeAllocSize elem + r

def Gep.offset (dl : DataLayout) (x : Values w) (gep : Gep V) : Option (BitVec 64) :=
  offsetFrom dl x (some (.sequential gep.sourceElementType)) gep.indices

-- ---------------------------------------------------------------------------
-- collectOffset
-- ---------------------------------------------------------------------------

structure Offsets (V : Type) where
  constantOffset : BitVec 64
  variableOffsets : List (V × BitVec 64)

def collectOffset [DecidableEq V] (dl : DataLayout) :
    Option TypeIterator → List (GepIndex V) → Offsets V → Option (Offsets V)
  | _, [], o => some o
  | none, _ :: _, _ => none
  | some (.struct fields), .const _ c :: rest, o =>
    match fields[c.toNat]? with
    | none => none
    | some field =>
      if field.IsVector then none
      else collectOffset dl field.iterate rest
        { o with constantOffset := o.constantOffset + dl.elementOffset fields c.toNat * 1 }
  | some (.struct _), .value _ :: _, _ => none
  | some (.sequential elem), .const _ c :: rest, o =>
    if elem.IsVector then none
    else collectOffset dl elem.iterate rest
      { o with
        constantOffset := o.constantOffset + c.signExtend 64 * dl.typeAllocSize elem }
  | some (.sequential elem), .value v :: rest, o =>
    if elem.IsVector then none
    else if dl.typeAllocSize elem = 0 then collectOffset dl elem.iterate rest o
    else collectOffset dl elem.iterate rest
      { o with variableOffsets := addScale v (dl.typeAllocSize elem) o.variableOffsets }

-- ---------------------------------------------------------------------------
-- check_gep_offsets
-- ---------------------------------------------------------------------------

/-- A loop, by the path to it in the nesting forest. -/
abbrev LoopPath := List Nat

abbrev LoopPath.nestingLevel (l : LoopPath) : Nat := l.length

structure InductionVariable (V : Type) where
  startValue : V
  singleComputedStepValue : V

/-- What the pass knows of the values of a function. A value and the start and
step of its induction have one type. -/
structure LoopInfo (V : Type) (w : V → Nat) where
  innermostLoop : V → Option LoopPath
  inductionVariables : V → Option (InductionVariable V)
  start_width : ∀ v iv, inductionVariables v = some iv → w iv.startValue = w v
  step_width : ∀ v iv, inductionVariables v = some iv → w iv.singleComputedStepValue = w v

/-- The order in which a run of the pass goes over an `unordered_map`. -/
structure MapOrder (V : Type) where
  list : List (V × BitVec 64) → List (V × BitVec 64)
  perm : ∀ m, (list m).Perm m

inductive Built (V : Type) where
  | const (c : BitVec 64)
  | value (v : V)
  | mul (a b : Built V)
  | add (a b : Built V)

def Built.eval (x : Values w) : Built V → BitVec 64
  | .const c => c
  | .value v => (x v).setWidth 64
  | .mul a b => a.eval x * b.eval x
  | .add a b => a.eval x + b.eval x

/-- `CreateMul` of a 64-bit constant: both operands have the same type. -/
def createMul (w : V → Nat) (c : BitVec 64) (v : V) : Option (Built V) :=
  if w v = 64 then some (.mul (.const c) (.value v)) else none

def createSum : List (Built V) → Option (Built V)
  | [] => none
  | b :: bs => some (bs.foldl (fun prev e => .add e prev) b)

structure CarmGep (V : Type) where
  ptrOffsetStartValue : Built V
  ptrOffsetStepValue : Built V
  isStepValueConstant : Bool

namespace LoopInfo

def calculateOffsetGep [DecidableEq V] (I : LoopInfo V w) (dl : DataLayout) (gep : Gep V) :
    Option (Offsets V) := do
  let o ← collectOffset dl (some (.sequential gep.sourceElementType)) gep.indices ⟨0, []⟩
  if ∀ t ∈ o.variableOffsets, (I.inductionVariables t.1).isSome then some o else none

def checkIfLoopNestingLevelIsEqual (I : LoopInfo V w) (ptr₁ ptr₂ : V) : Bool :=
  match I.innermostLoop ptr₁, I.innermostLoop ptr₂ with
  | some l₁, some l₂ => l₁.nestingLevel = l₂.nestingLevel
  | _, _ => false

def interim (I : LoopInfo V w) (g : V) (t : V × BitVec 64) : Option (Built V × Built V) :=
  if I.checkIfLoopNestingLevelIsEqual t.1 g then do
    let iv ← I.inductionVariables t.1
    let step ← createMul w t.2 iv.singleComputedStepValue
    let start ← createMul w t.2 iv.startValue
    return (start, step)
  else do
    let step ← createMul w 0 t.1
    let start ← createMul w t.2 t.1
    return (start, step)

/-- The start and the step of the offset; none for a constant offset. -/
def hoist (I : LoopInfo V w) (ord : MapOrder V) (g : V) (o : Offsets V) :
    Option (Built V × Built V) := do
  let terms ← (ord.list o.variableOffsets).mapM (I.interim g)
  let start ← createSum (terms.map Prod.fst)
  let step ← createSum (terms.map Prod.snd)
  return (.add start (.const o.constantOffset), step)

/-- Nothing is hoisted when the constant part alone leaves the object. -/
def checkGepOffsets [DecidableEq V] (I : LoopInfo V w) (dl : DataLayout) (ord : MapOrder V) (g : V)
    (gep : Gep V) : Option (CarmGep V) := do
  let o ← I.calculateOffsetGep dl gep
  let (start, step) ← I.hoist ord g o
  if o.constantOffset.toInt > objSize then none
  else
    let constSize := (ord.list o.variableOffsets).countP fun t =>
      !I.checkIfLoopNestingLevelIsEqual t.1 g
    some ⟨start, step, o.variableOffsets.length = constSize⟩

/-- The values `x` in iteration `k` of the loop, entered with the values `pre`:
its own induction variables have moved on, those of enclosing loops have not. -/
structure AtIteration (I : LoopInfo V w) (loop : LoopPath) (pre x : Values w) (k : Nat) : Prop where
  own : ∀ v iv, I.inductionVariables v = some iv → I.innermostLoop v = some loop →
    x v = (pre iv.startValue).setWidth (w v) +
      BitVec.ofNat (w v) k * (pre iv.singleComputedStepValue).setWidth (w v)
  outer : ∀ v l, I.innermostLoop v = some l → l <+: loop → l ≠ loop → x v = pre v

end LoopInfo

-- ---------------------------------------------------------------------------
-- The constant and the scales are the offset
-- ---------------------------------------------------------------------------

def Offsets.eval (x : Values w) (o : Offsets V) : BitVec 64 :=
  o.constantOffset + form (fun v => (x v).signExtend 64) o.variableOffsets

theorem collectOffset_eval [DecidableEq V] {x : Values w} {it : Option TypeIterator} {is : List (GepIndex V)}
    {o o' : Offsets V} (h : collectOffset dl it is o = some o') :
    ∃ r, offsetFrom dl x it is = some r ∧ o'.eval x = o.eval x + r := by
  fun_induction collectOffset dl it is o with
  | case1 it o =>
    cases h
    exact ⟨0, rfl, by simp⟩
  | case2 => cases h
  | case3 => cases h
  | case4 => cases h
  | case5 fields n c rest o field hfield hv ih =>
    obtain ⟨r, hr, he⟩ := ih h
    refine ⟨dl.elementOffset fields c.toNat + r, by simp [offsetFrom, hfield, hr], ?_⟩
    rw [he]
    simp only [Offsets.eval]
    ring
  | case6 => cases h
  | case7 => cases h
  | case8 elem n c rest o hv ih =>
    obtain ⟨r, hr, he⟩ := ih h
    refine ⟨c.signExtend 64 * dl.typeAllocSize elem + r,
      by simp [offsetFrom, hr, GepIndex.offset], ?_⟩
    rw [he]
    simp only [Offsets.eval]
    ring
  | case9 => cases h
  | case10 elem v rest o hv hz ih =>
    obtain ⟨r, hr, he⟩ := ih h
    exact ⟨r, by simp [offsetFrom, hr, hz], he⟩
  | case11 elem v rest o hv hz ih =>
    obtain ⟨r, hr, he⟩ := ih h
    refine ⟨(x v).signExtend 64 * dl.typeAllocSize elem + r,
      by simp [offsetFrom, hr, GepIndex.offset], ?_⟩
    rw [he]
    simp only [Offsets.eval, Lib.form_addScale]
    ring

def scaledFrom (dl : DataLayout) : Option TypeIterator → List (GepIndex V) → List V
  | _, [] => []
  | none, _ :: _ => []
  | some (.struct fields), .const _ c :: rest => scaledFrom dl (fields[c.toNat]?.bind (·.iterate)) rest
  | some (.struct _), .value _ :: _ => []
  | some (.sequential elem), .const _ _ :: rest => scaledFrom dl elem.iterate rest
  | some (.sequential elem), .value v :: rest =>
    if dl.typeAllocSize elem = 0 then scaledFrom dl elem.iterate rest
    else v :: scaledFrom dl elem.iterate rest

def Gep.scaled (dl : DataLayout) (gep : Gep V) : List V :=
  scaledFrom dl (some (.sequential gep.sourceElementType)) gep.indices

def Gep.variables (gep : Gep V) : List V := gep.indices.filterMap fun
  | .const .. => none
  | .value v => some v

theorem collectOffset_scaled [DecidableEq V] {it : Option TypeIterator} {is : List (GepIndex V)}
    {o o' : Offsets V} (h : collectOffset dl it is o = some o') :
    v ∈ o'.variableOffsets.map Prod.fst ↔
      v ∈ o.variableOffsets.map Prod.fst ∨ v ∈ scaledFrom dl it is := by
  fun_induction collectOffset dl it is o with
  | case1 it o =>
    cases h
    simp [scaledFrom]
  | case2 => cases h
  | case3 => cases h
  | case4 => cases h
  | case5 fields n c rest o field hfield hv ih => simp [ih h, scaledFrom, hfield]
  | case6 => cases h
  | case7 => cases h
  | case8 elem n c rest o hv ih => simp [ih h, scaledFrom]
  | case9 => cases h
  | case10 elem u rest o hv hz ih => simp [ih h, scaledFrom, hz]
  | case11 elem u rest o hv hz ih =>
    rw [ih h, Lib.mem_addScale]
    simp only [scaledFrom, if_neg hz, List.mem_cons]
    rw [or_assoc, or_left_comm]

theorem scaledFrom_sub (dl : DataLayout) {it : Option TypeIterator} {is : List (GepIndex V)}
    (hv : v ∈ scaledFrom dl it is) : GepIndex.value v ∈ is := by
  fun_induction scaledFrom dl it is with
  | case1 => cases hv
  | case2 => cases hv
  | case3 fields n c rest ih => exact .tail _ (ih hv)
  | case4 => cases hv
  | case5 elem n c rest ih => exact .tail _ (ih hv)
  | case6 elem u rest hz ih => exact .tail _ (ih hv)
  | case7 elem u rest hz ih =>
    rcases List.mem_cons.mp hv with rfl | hv
    · exact .head _
    · exact .tail _ (ih hv)

theorem Gep.scaled_sub {gep : Gep V} (hv : v ∈ gep.scaled dl) : v ∈ gep.variables :=
  List.mem_filterMap.mpr ⟨_, scaledFrom_sub dl hv, rfl⟩

-- ---------------------------------------------------------------------------
-- Start and step
-- ---------------------------------------------------------------------------

theorem mapM_forall₂ {P : α → β → Prop} {f : α → Option β} {as : List α} {bs : List β}
    (hP : ∀ a ∈ as, ∀ b, f a = some b → P a b) (h : as.mapM f = some bs) :
    List.Forall₂ P as bs := by
  induction as generalizing bs with
  | nil =>
    cases h
    exact .nil
  | cons a as ih =>
    simp only [List.mapM_cons, Option.bind_eq_bind, Option.bind_eq_some_iff] at h
    obtain ⟨b, hb, cs, hcs, he⟩ := h
    cases he
    rw [List.forall_mem_cons] at hP
    exact .cons (hP.1 b hb) (ih hP.2 hcs)

theorem mapM_some {f : α → Option β} {as : List α} (h : ∀ a ∈ as, ∃ b, f a = some b) :
    ∃ bs, as.mapM f = some bs := by
  induction as with
  | nil => exact ⟨[], rfl⟩
  | cons a as ih =>
    rw [List.forall_mem_cons] at h
    obtain ⟨⟨b, hb⟩, has⟩ := h
    obtain ⟨bs, hbs⟩ := ih has
    exact ⟨b :: bs, by simp [hb, hbs]⟩

theorem createSum_eval {x : Values w} {bs : List (Built V)} (h : createSum bs = some b) :
    b.eval x = (bs.map (Built.eval x)).sum := by
  cases bs with
  | nil => cases h
  | cons c bs =>
    cases h
    induction bs generalizing c with
    | nil => simp
    | cons d bs ih =>
      rw [List.foldl_cons, ih]
      simp only [List.map_cons, List.sum_cons, Built.eval]
      ring

namespace LoopInfo

variable {I : LoopInfo V w} {ord : MapOrder V} {L : LoopPath} {pre x : Values w}

theorem createMul_eval {e : Values w} (h : createMul w c v = some b) :
    w v = 64 ∧ b.eval e = c * (e v).setWidth 64 := by
  unfold createMul at h
  split at h
  · rename_i hw
    cases h
    exact ⟨hw, rfl⟩
  · cases h

/-- Of the loop and those around it, only the loop itself is on its level. -/
theorem level_eq_iff (hL : I.innermostLoop g = some L) (hl : I.innermostLoop v = some l)
    (hle : l <+: L) : I.checkIfLoopNestingLevelIsEqual v g = true ↔ l = L := by
  simp only [checkIfLoopNestingLevelIsEqual, hl, hL, decide_eq_true_eq]
  exact ⟨hle.eq_of_length, fun h => h ▸ rfl⟩

theorem interim_eval (hL : I.innermostLoop g = some L) (hv : I.innermostLoop t.1 = some l)
    (hle : l <+: L) (hx : I.AtIteration L pre x k) (h : I.interim g t = some u) :
    t.2 * (x t.1).signExtend 64 =
      u.1.eval pre + BitVec.ofNat 64 k * u.2.eval pre := by
  unfold interim at h
  by_cases hlevel : I.checkIfLoopNestingLevelIsEqual t.1 g = true
  · obtain rfl := (level_eq_iff hL hv hle).mp hlevel
    simp only [hlevel, if_true, Option.bind_eq_bind, Option.bind_eq_some_iff] at h
    obtain ⟨iv, hiv, step, hstep, start, hstart, he⟩ := h
    cases he
    obtain ⟨hws, hsteps⟩ := createMul_eval (e := pre) hstep
    obtain ⟨-, hstarts⟩ := createMul_eval (e := pre) hstart
    have hw : w t.1 = 64 := (I.step_width _ _ hiv).symm.trans hws
    rw [hx.own _ iv hiv hv, hsteps, hstarts, hw, BitVec.signExtend_eq]
    ring
  · simp only [hlevel, Bool.false_eq_true, if_false, Option.bind_eq_bind,
      Option.bind_eq_some_iff] at h
    obtain ⟨step, hstep, start, hstart, he⟩ := h
    cases he
    obtain ⟨hw, hsteps⟩ := createMul_eval (e := pre) hstep
    obtain ⟨-, hstarts⟩ := createMul_eval (e := pre) hstart
    have hne : l ≠ L := fun he => hlevel ((level_eq_iff hL hv hle).mpr he)
    rw [hx.outer _ l hv hle hne, hsteps, hstarts, BitVec.signExtend_eq_setWidth_of_le _ (by omega)]
    ring

/-- The loop of each of these variables is the loop itself or one around it. -/
def Enclosed (I : LoopInfo V w) (loop : LoopPath) (vs : List V) : Prop :=
  ∀ v ∈ vs, ∃ l, I.innermostLoop v = some l ∧ l <+: loop

theorem hoist_eval {o : Offsets V} (hL : I.innermostLoop g = some L)
    (hencl : I.Enclosed L (o.variableOffsets.map Prod.fst)) (hx : I.AtIteration L pre x k)
    (h : I.hoist ord g o = some (start, step)) :
    o.eval x = start.eval pre + BitVec.ofNat 64 k * step.eval pre := by
  simp only [hoist, Option.bind_eq_bind, Option.bind_eq_some_iff] at h
  obtain ⟨us, hus, a, ha, d, hd, he⟩ := h
  cases he
  have hterms : List.Forall₂ (fun t u => t.2 * (x t.1).signExtend 64 =
      u.1 + BitVec.ofNat 64 k * u.2) (ord.list o.variableOffsets)
      (us.map fun u => (u.1.eval pre, u.2.eval pre)) := by
    rw [List.forall₂_map_right_iff]
    refine mapM_forall₂ (fun t ht u hu => ?_) hus
    obtain ⟨l, hl, hle⟩ := hencl t.1 (List.mem_map_of_mem ((ord.perm _).mem_iff.mp ht))
    exact interim_eval hL hl hle hx hu
  have hform := Lib.form_progression (x := fun v => (x v).signExtend 64) hterms
  rw [Lib.form_perm (ord.perm _)] at hform
  rw [Offsets.eval, hform]
  simp only [Built.eval, createSum_eval ha, createSum_eval hd, List.map_map, Function.comp_def]
  ring

theorem interim_some (hw : w t.1 = 64) (hiv : (I.inductionVariables t.1).isSome) :
    ∃ u, I.interim g t = some u := by
  obtain ⟨iv, hiv⟩ := Option.isSome_iff_exists.mp hiv
  have hstart := (I.start_width _ _ hiv).trans hw
  have hstep := (I.step_width _ _ hiv).trans hw
  unfold interim
  split
  · exact ⟨_, by simp [hiv, createMul, hstart, hstep]; rfl⟩
  · exact ⟨_, by simp [createMul, hw]; rfl⟩

theorem createSum_some {bs : List (Built V)} (h : bs ≠ []) : ∃ b, createSum bs = some b := by
  cases bs with
  | nil => exact absurd rfl h
  | cons b bs => exact ⟨_, rfl⟩

theorem hoist_some {o : Offsets V} (hne : o.variableOffsets ≠ [])
    (hw : ∀ t ∈ o.variableOffsets, w t.1 = 64)
    (hiv : ∀ t ∈ o.variableOffsets, (I.inductionVariables t.1).isSome) :
    ∃ start step, I.hoist ord g o = some (start, step) := by
  have hperm := ord.perm o.variableOffsets
  obtain ⟨us, hus⟩ := mapM_some (f := I.interim g) fun t ht =>
    interim_some (hw t (hperm.mem_iff.mp ht)) (hiv t (hperm.mem_iff.mp ht))
  have hus' : us ≠ [] := by
    rintro rfl
    have hlen := (mapM_forall₂ (P := fun _ _ => True) (fun _ _ _ _ => trivial) hus).length_eq
    rw [hperm.length_eq] at hlen
    exact hne (List.length_eq_zero_iff.mp hlen)
  obtain ⟨a, ha⟩ := createSum_some (show us.map Prod.fst ≠ [] by simpa using hus')
  obtain ⟨d, hd⟩ := createSum_some (show us.map Prod.snd ≠ [] by simpa using hus')
  exact ⟨.add a (.const o.constantOffset), d, by simp [hoist, hus, ha, hd]⟩

theorem calculateOffsetGep_eq [DecidableEq V] {gep : Gep V}
    (h : I.calculateOffsetGep dl gep = some o) :
    collectOffset dl (some (.sequential gep.sourceElementType)) gep.indices ⟨0, []⟩ = some o ∧
      ∀ t ∈ o.variableOffsets, (I.inductionVariables t.1).isSome := by
  unfold calculateOffsetGep at h
  obtain ⟨o', ho, h⟩ := Option.bind_eq_some_iff.mp h
  split at h
  · rename_i hiv
    cases h
    exact ⟨ho, hiv⟩
  · cases h

/-- The step is counted as constant when no scaled variable is the loop's own. -/
theorem constant_iff {o : Offsets V} (hL : I.innermostLoop g = some L)
    (hencl : I.Enclosed L (o.variableOffsets.map Prod.fst)) :
    o.variableOffsets.length = (ord.list o.variableOffsets).countP
        (fun t => !I.checkIfLoopNestingLevelIsEqual t.1 g) ↔
      ∀ v ∈ o.variableOffsets.map Prod.fst, I.innermostLoop v ≠ some L := by
  rw [(ord.perm _).countP_eq, eq_comm, List.countP_eq_length, List.forall_mem_map]
  refine forall₂_congr fun t ht => ?_
  obtain ⟨l, hl, hle⟩ := hencl t.1 (List.mem_map_of_mem ht)
  have hlevel := level_eq_iff hL hl hle
  rw [Bool.not_eq_true', ← Bool.not_eq_true, hlevel, hl, Ne, Option.some.injEq]

end LoopInfo

/-- What the pass builds for a GEP describes its offset in every iteration. An
index over elements without a size adds nothing and is not looked at. -/
theorem hoisted_offset {V : Type} {w : V → Nat} [DecidableEq V] {I : LoopInfo V w} {dl : DataLayout}
    {ord : MapOrder V} {g : V} {gep : Gep V} {L : LoopPath} {o : Offsets V}
    (hL : I.innermostLoop g = some L) (hencl : I.Enclosed L gep.variables)
    (hacc : I.calculateOffsetGep dl gep = some o) :
    (∀ start step, I.hoist ord g o = some (start, step) → ∀ pre x k, I.AtIteration L pre x k →
      gep.offset dl x = some (start.eval pre + BitVec.ofNat 64 k * step.eval pre)) ∧
    (∀ cg, I.checkGepOffsets dl ord g gep = some cg →
      I.hoist ord g o = some (cg.ptrOffsetStartValue, cg.ptrOffsetStepValue) ∧
      (cg.isStepValueConstant = true ↔ ∀ v ∈ gep.scaled dl, I.innermostLoop v ≠ some L)) ∧
    (gep.scaled dl ≠ [] → (∀ v ∈ gep.scaled dl, w v = 64) →
      ∃ start step, I.hoist ord g o = some (start, step)) := by
  obtain ⟨hcollect, hiv⟩ := LoopInfo.calculateOffsetGep_eq hacc
  have hkeys : ∀ v, v ∈ o.variableOffsets.map Prod.fst ↔ v ∈ gep.scaled dl := by
    intro v
    rw [collectOffset_scaled hcollect]
    simp [Gep.scaled]
  have henclosed : I.Enclosed L (o.variableOffsets.map Prod.fst) := fun v hv =>
    hencl v (Gep.scaled_sub ((hkeys v).mp hv))
  refine ⟨fun start step hh pre x k hx => ?_, fun cg hcg => ?_, fun hne hw => ?_⟩
  · obtain ⟨r, hr, he⟩ := collectOffset_eval (x := x) hcollect
    have hzero : Offsets.eval x ⟨0, []⟩ = 0 := by simp [Offsets.eval]
    rw [hzero, zero_add, LoopInfo.hoist_eval hL henclosed hx hh] at he
    rw [Gep.offset, hr, he]
  · simp only [LoopInfo.checkGepOffsets, hacc, Option.bind_eq_bind, Option.bind_some,
      Option.bind_eq_some_iff] at hcg
    obtain ⟨⟨start, step⟩, hh, hcg⟩ := hcg
    split at hcg
    · cases hcg
    · cases hcg
      refine ⟨hh, ?_⟩
      rw [decide_eq_true_eq, LoopInfo.constant_iff hL henclosed]
      exact forall_congr' fun v => imp_congr_left (hkeys v)
  · refine LoopInfo.hoist_some ?_ (fun t ht => ?_) hiv
    · intro hnil
      obtain ⟨v, hv⟩ := List.exists_mem_of_ne_nil _ hne
      have := (hkeys v).mpr hv
      rw [hnil] at this
      cases this
    · exact hw t.1 ((hkeys _).mp (List.mem_map_of_mem ht))

-- A loop nest over rows: value 0 is the induction variable of the outer loop, 1
-- that of the inner one, 2 a GEP in the inner loop; both count up from 3 by 4.

def rowInfo : LoopInfo Nat fun _ => 64 where
  innermostLoop
    | 0 => some [0]
    | 1 => some [0, 0]
    | 2 => some [0, 0]
    | _ => none
  inductionVariables v := if v < 2 then some ⟨3, 4⟩ else none
  start_width _ _ _ := rfl
  step_width _ _ _ := rfl

def rowLayout : DataLayout where
  typeAllocSize
    | .scalar bytes => BitVec.ofNat 64 bytes
    | .array n (.scalar bytes) => BitVec.ofNat 64 (n * bytes)
    | _ => 0
  elementOffset _ _ := 0

def rowOrder : MapOrder Nat := ⟨fun m => m, fun _ => .refl _⟩

def rowGep (n i j : Nat) : Gep Nat := ⟨.array n (.scalar 8), [.value i, .value j]⟩

theorem rowGep_enclosed : rowInfo.Enclosed [0, 0] (rowGep n 0 1).variables ∧
    rowInfo.Enclosed [0, 0] (rowGep n 1 0).variables := by
  have h₀ : ∃ l, rowInfo.innermostLoop 0 = some l ∧ l <+: [0, 0] := ⟨[0], rfl, [0], rfl⟩
  have h₁ : ∃ l, rowInfo.innermostLoop 1 = some l ∧ l <+: [0, 0] := ⟨[0, 0], rfl, [], rfl⟩
  constructor <;> simp [LoopInfo.Enclosed, Gep.variables, rowGep, h₀, h₁]

theorem hoisted_offset_rows : ∃ start step,
    rowInfo.hoist rowOrder 2 ⟨0, [(0, 80), (1, 8)]⟩ = some (start, step) ∧
    ∀ pre x k, rowInfo.AtIteration [0, 0] pre x k → (rowGep 10 0 1).offset rowLayout x =
      some (start.eval pre + BitVec.ofNat 64 k * step.eval pre) := by
  obtain ⟨hoffset, -, hbuilt⟩ := @hoisted_offset Nat (fun _ => 64) _ rowInfo rowLayout rowOrder 2
    (rowGep 10 0 1) [0, 0] ⟨0, [(0, 80), (1, 8)]⟩ rfl rowGep_enclosed.1 rfl
  obtain ⟨start, step, hh⟩ := hbuilt (by decide) fun _ _ => rfl
  exact ⟨start, step, hh, hoffset start step hh⟩

/-- The inner loop's variable selects an array of length 0: the step counts as
constant. -/
theorem sizeless_index_ignored : ¬∀ (I : LoopInfo Nat fun _ => 64) dl ord g gep L cg,
    I.innermostLoop g = some L → I.Enclosed L gep.variables →
    I.checkGepOffsets dl ord g gep = some cg →
    (cg.isStepValueConstant = true ↔ ∀ v ∈ gep.variables, I.innermostLoop v ≠ some L) := by
  intro h
  have hcg := h rowInfo rowLayout rowOrder 2 (rowGep 0 1 0) [0, 0] _ rfl rowGep_enclosed.2 rfl
  exact hcg.mp rfl 1 (List.mem_cons_self ..) rfl

end TrackFM
