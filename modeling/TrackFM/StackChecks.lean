import TrackFM.Ir
import TrackFM.Lib.Saturate
import Mathlib.Data.Fintype.Card
import Mathlib.Data.Finset.Card

/-!
# Checks on stack variables

`delete_carm_check_on_stack_variables` of the carm_checks pass removes the check
in front of an access whose pointer it finds to be a stack pointer: one that
must alias an alloca or a pointer found before, itself or its base. The loop
computes the pointers linked to an alloca in this way. A base walk takes the
first input of a PHI only, so the removal is sound exactly when the PHIs it
meets merge stack pointers.
-/

namespace TrackFM

open Lib (saturate)

namespace Func

variable {f : Func}

-- ---------------------------------------------------------------------------
-- Executions
-- ---------------------------------------------------------------------------

/-- What a pointer points into: an alloca of this function, or one of the
objects it did not allocate, remote ones among them. -/
inductive Target (V : Type) where
  | stack (alloca : V)
  | elsewhere (object : Nat)
  deriving DecidableEq, Repr

def Target.IsStack (t : Target V) : Prop := ∃ a, t = .stack a

/-- The targets of the values evaluated so far, each at its latest evaluation. -/
abbrev Env (f : Func) := Fin f.size → Option (Target (Fin f.size))

/-- Evaluating `v` may give a pointer into `t`. A GEP stays in the object of its
base; arguments, loaded values, results and integers made into pointers may point
anywhere. -/
def Eval (f : Func) (env : Env f) (v : Fin f.size) (t : Target (Fin f.size)) : Prop :=
  match f.inst v with
  | .alloca => t = .stack v
  | .gep base _ => env base = some t
  | .bitcast op => env op = some t
  | .phi incoming => ∃ p ∈ incoming, env p = some t
  | .select a b => env a = some t ∨ env b = some t
  | .store _ _ | .ret _ => False
  | .argument | .constant | .load _ | .call _ _ | .invoke _ _ | .cast _ | .other _ => True

/-- The executions: values are evaluated in any order their operands allow, and
again in later iterations. -/
inductive Run (f : Func) : Env f → Prop
  | start : Run f fun _ => none
  | eval : Run f env → Eval f env v t → Run f (Function.update env v (some t))

def MayPoint (f : Func) (v : Fin f.size) (t : Target (Fin f.size)) : Prop :=
  ∃ env, Run f env ∧ env v = some t

theorem mayPoint_iff : MayPoint f v t ↔ ∃ env, Run f env ∧ Eval f env v t := by
  constructor
  · rintro ⟨env, hr, hv⟩
    induction hr with
    | start => cases hv
    | @eval env u t' hr he ih =>
      by_cases hu : v = u
      · subst hu
        rw [Function.update_self] at hv
        cases hv
        exact ⟨env, hr, he⟩
      · rw [Function.update_of_ne hu] at hv
        exact ih hv
  · rintro ⟨env, hr, he⟩
    exact ⟨_, .eval hr he, Function.update_self ..⟩

theorem mayPoint_alloca (h : f.inst v = .alloca) : MayPoint f v t ↔ t = .stack v := by
  simp only [mayPoint_iff, Eval, h]
  exact ⟨fun ⟨_, _, ht⟩ => ht, fun ht => ⟨_, .start, ht⟩⟩

theorem mayPoint_gep (h : f.inst v = .gep base indices) : MayPoint f v t ↔ MayPoint f base t := by
  simp only [mayPoint_iff (v := v), Eval, h]
  rfl

theorem mayPoint_bitcast (h : f.inst v = .bitcast op) : MayPoint f v t ↔ MayPoint f op t := by
  simp only [mayPoint_iff (v := v), Eval, h]
  rfl

theorem mayPoint_phi (h : f.inst v = .phi incoming) :
    MayPoint f v t ↔ ∃ p ∈ incoming, MayPoint f p t := by
  simp only [mayPoint_iff (v := v), Eval, h]
  constructor
  · rintro ⟨env, hr, p, hp, hpt⟩
    exact ⟨p, hp, env, hr, hpt⟩
  · rintro ⟨p, hp, env, hr, hpt⟩
    exact ⟨env, hr, p, hp, hpt⟩

-- ---------------------------------------------------------------------------
-- The base of a pointer
-- ---------------------------------------------------------------------------

/-- The base walk: through GEPs, bitcasts and the first input of PHIs. The second
result is the set it collects the bases in. -/
def uncastUngep (f : Func) (phiset valueset : Finset (Fin f.size)) (ptr : Fin f.size) :
    Fin f.size × Finset (Fin f.size) :=
  match _h : f.inst ptr with
  | .gep base _ => uncastUngep f phiset valueset base
  | .bitcast op => uncastUngep f phiset valueset op
  | .phi (value :: _) =>
    if ptr ∉ phiset then
      -- the loop over the inputs returns in its first turn
      let (p, valueset) := uncastUngep f (insert ptr phiset) valueset value
      (p, insert p valueset)
    else (ptr, valueset)
  | _ => (ptr, valueset)
termination_by (phisetᶜ.card, ptr.val)
decreasing_by
  · exact Prod.Lex.right _ (gep_lt _h)
  · exact Prod.Lex.right _ (castOp_lt (by rw [_h]; rfl))
  · refine Prod.Lex.left _ _ (Finset.card_lt_card ?_)
    rw [Finset.compl_insert]
    exact Finset.erase_ssubset (Finset.mem_compl.mpr ‹_›)

def strip (f : Func) (ptr : Fin f.size) : Fin f.size :=
  match _h : f.inst ptr with
  | .gep base _ => strip f base
  | .bitcast op => strip f op
  | _ => ptr
termination_by ptr
decreasing_by
  · exact gep_lt _h
  · exact castOp_lt (by rw [_h]; rfl)

theorem strip_gep (h : f.inst v = .gep base indices) : strip f v = strip f base := by
  rw [strip]
  split <;> simp_all

theorem strip_alloca (h : f.inst v = .alloca) : strip f v = v := by
  rw [strip]
  split <;> simp_all

theorem mayPoint_strip : MayPoint f v t ↔ MayPoint f (strip f v) t := by
  fun_induction strip f v with
  | case1 v base _ h ih => exact (mayPoint_gep h).trans ih
  | case2 v op h ih => exact (mayPoint_bitcast h).trans ih
  | case3 v => exact Iff.rfl

theorem uncastUngep_values : insert (uncastUngep f phiset valueset v).1
    (uncastUngep f phiset valueset v).2 = insert (uncastUngep f phiset valueset v).1 valueset := by
  fun_induction uncastUngep f phiset valueset v with
  | case1 _ _ _ _ _ ih => exact ih
  | case2 _ _ _ _ ih => exact ih
  | case3 _ _ _ _ _ _ p vs he ih =>
    rw [he] at ih
    rw [Finset.insert_eq_of_mem (Finset.mem_insert_self ..)]
    exact ih
  | case4 => rfl
  | case5 => rfl

theorem uncastUngep_strip (h : ∀ incoming, f.inst (strip f v) ≠ .phi incoming) :
    (uncastUngep f phiset valueset v).1 = strip f v := by
  fun_induction strip f v with
  | case1 v base _ hi ih =>
    rw [uncastUngep]
    split <;> simp_all
  | case2 v op hi ih =>
    rw [uncastUngep]
    split <;> simp_all
  | case3 v =>
    rw [uncastUngep]
    split <;> simp_all

theorem uncastUngep_phi (h : f.inst v = .phi (p :: ps)) (hv : v ∉ phiset) :
    (uncastUngep f phiset valueset v).1 = (uncastUngep f (insert v phiset) valueset p).1 := by
  rw [uncastUngep]
  split <;> simp_all

def baseOf (f : Func) (ptr : Fin f.size) : Fin f.size := (uncastUngep f ∅ ∅ ptr).1

-- ---------------------------------------------------------------------------
-- The pass
-- ---------------------------------------------------------------------------

structure Check (f : Func) where
  access : Fin f.size
  ptr : Fin f.size
  guards : (f.inst access).pointerOperand = some ptr
  deriving DecidableEq

def checkOf (f : Func) (v : Fin f.size) : Option (Check f) :=
  match h : (f.inst v).pointerOperand with
  | some ptr => some ⟨v, ptr, h⟩
  | none => none

def checks (f : Func) : List (Check f) := (List.finRange f.size).filterMap f.checkOf

/-- `alloca_list` and `delete_stack`. -/
structure Deleting (f : Func) where
  allocaList : Finset (Fin f.size)
  deleteStack : Finset (Fin f.size)

def allocas (f : Func) : Finset (Fin f.size) := Finset.univ.filter fun v => f.inst v = .alloca

section
variable (isMustAlias : Fin f.size → Fin f.size → Bool)

def mustAlias (v : Fin f.size) (allocaList : Finset (Fin f.size)) : Bool :=
  decide (∃ s ∈ allocaList, isMustAlias v s = true)

def mustAliasAll (valueList allocaList : Finset (Fin f.size)) : Bool :=
  decide (∀ s ∈ valueList, mustAlias isMustAlias s allocaList = true)

def deleteCheck (st : Deleting f) (c : Check f) : Deleting f :=
  if c.ptr ∈ st.allocaList then { st with deleteStack := insert c.access st.deleteStack }
  else if mustAlias isMustAlias c.ptr st.allocaList then
    ⟨insert c.ptr st.allocaList, insert c.access st.deleteStack⟩
  else
    let (bp, valueset) := uncastUngep f ∅ ∅ c.ptr
    if mustAliasAll isMustAlias (insert bp valueset) st.allocaList then
      ⟨insert c.ptr st.allocaList, insert c.access st.deleteStack⟩
    else st

def deletePass (checks : List (Check f)) (st : Deleting f) : Deleting f :=
  checks.foldl (deleteCheck isMustAlias) st

/-- `delete_carm_check_on_stack_variables`: the checks that stay. The set
`carm_checks` is a list here, in the order it is iterated. -/
def deleteCarmCheckOnStackVariables (checks : List (Check f)) : Option (List (Check f)) :=
  (saturate (deletePass isMustAlias checks) (·.deleteStack.card) (f.size + 1) ⟨allocas f, ∅⟩).map
    fun st => checks.filter fun c => c.access ∉ st.deleteStack

/-- Tied to an alloca by must-alias answers about checked pointers and their bases. -/
inductive Linked (checks : List (Check f)) : Fin f.size → Prop
  | alloca : f.inst v = .alloca → Linked checks v
  | pointer : c ∈ checks → isMustAlias c.ptr s = true → Linked checks s → Linked checks c.ptr
  | base : c ∈ checks → isMustAlias (baseOf f c.ptr) s = true → Linked checks s →
      Linked checks c.ptr

end

variable {isMustAlias : Fin f.size → Fin f.size → Bool} {checks : List (Check f)}
  {st st' : Deleting f} {c : Check f}

theorem mustAlias_iff : mustAlias isMustAlias v l = true ↔ ∃ s ∈ l, isMustAlias v s = true := by
  simp [mustAlias]

theorem deleteCheck_eq : deleteCheck isMustAlias st c =
    if c.ptr ∈ st.allocaList ∨ mustAlias isMustAlias c.ptr st.allocaList = true ∨
        mustAlias isMustAlias (baseOf f c.ptr) st.allocaList = true then
      ⟨insert c.ptr st.allocaList, insert c.access st.deleteStack⟩
    else st := by
  have hbase : mustAliasAll isMustAlias
      (insert (uncastUngep f ∅ ∅ c.ptr).1 (uncastUngep f ∅ ∅ c.ptr).2) st.allocaList =
      mustAlias isMustAlias (baseOf f c.ptr) st.allocaList := by
    rw [uncastUngep_values, mustAliasAll, baseOf]
    simp
  simp only [deleteCheck, hbase]
  by_cases h₁ : c.ptr ∈ st.allocaList
  · rw [if_pos h₁, if_pos (.inl h₁), Finset.insert_eq_of_mem h₁]
  · by_cases h₂ : mustAlias isMustAlias c.ptr st.allocaList = true
    · rw [if_neg h₁, if_pos h₂, if_pos (.inr (.inl h₂))]
    · simp only [h₁, h₂, if_false, false_or, Bool.false_eq_true]

structure Sound (isMustAlias : Fin f.size → Fin f.size → Bool) (checks : List (Check f))
    (st : Deleting f) : Prop where
  start : ∀ v, f.inst v = .alloca → v ∈ st.allocaList
  linked : ∀ v ∈ st.allocaList, Linked isMustAlias checks v
  deleted : ∀ c : Check f, c.access ∈ st.deleteStack → c.ptr ∈ st.allocaList

theorem Sound.init : Sound isMustAlias checks ⟨allocas f, ∅⟩ where
  start v hv := by simp [allocas, hv]
  linked v hv := .alloca (Finset.mem_filter.mp hv).2
  deleted c hc := by cases hc

theorem Check.ptr_eq {c d : Check f} (h : c.access = d.access) : c.ptr = d.ptr :=
  Option.some.inj (c.guards.symm.trans (h ▸ d.guards))

theorem Sound.check (hs : Sound isMustAlias checks st) (hc : c ∈ checks) :
    Sound isMustAlias checks (deleteCheck isMustAlias st c) := by
  rw [deleteCheck_eq]
  split
  case isFalse => exact hs
  rename_i hlink
  refine ⟨fun v hv => Finset.mem_insert_of_mem (hs.start v hv), fun v hv => ?_, fun d hd => ?_⟩
  · rcases Finset.mem_insert.mp hv with rfl | hv
    · rcases hlink with h | h | h
      · exact hs.linked _ h
      · obtain ⟨s, hsl, ha⟩ := mustAlias_iff.mp h
        exact .pointer hc ha (hs.linked s hsl)
      · obtain ⟨s, hsl, ha⟩ := mustAlias_iff.mp h
        exact .base hc ha (hs.linked s hsl)
    · exact hs.linked v hv
  · rcases Finset.mem_insert.mp hd with he | hd
    · exact Finset.mem_insert.mpr (.inl (Check.ptr_eq he))
    · exact Finset.mem_insert_of_mem (hs.deleted d hd)

theorem deleteCheck_grows : st.deleteStack ⊆ (deleteCheck isMustAlias st c).deleteStack := by
  rw [deleteCheck_eq]
  split
  · exact Finset.subset_insert ..
  · exact Finset.Subset.refl _

theorem deletePass_grows {cs : List (Check f)} :
    st.deleteStack ⊆ (deletePass isMustAlias cs st).deleteStack := by
  induction cs generalizing st with
  | nil => exact Finset.Subset.refl _
  | cons c cs ih => exact deleteCheck_grows.trans ih

theorem Sound.pass (hs : Sound isMustAlias checks st) {cs : List (Check f)} (hcs : cs ⊆ checks) :
    Sound isMustAlias checks (deletePass isMustAlias cs st) := by
  induction cs generalizing st with
  | nil => exact hs
  | cons c cs ih =>
    rw [List.cons_subset] at hcs
    exact ih (hs.check hcs.1) hcs.2

/-- A check that adds nothing to the deleted ones changes nothing. -/
theorem Sound.check_eq (hs : Sound isMustAlias checks st)
    (h : (deleteCheck isMustAlias st c).deleteStack ⊆ st.deleteStack) :
    deleteCheck isMustAlias st c = st := by
  rw [deleteCheck_eq] at h ⊢
  split
  case isFalse => rfl
  rename_i hlink
  rw [if_pos hlink] at h
  have hmem : c.access ∈ st.deleteStack := h (Finset.mem_insert_self ..)
  rw [Finset.insert_eq_of_mem hmem, Finset.insert_eq_of_mem (hs.deleted c hmem)]

/-- ... nor does any check of such a pass. -/
theorem Sound.pass_eq (hs : Sound isMustAlias checks st) {cs : List (Check f)} (hcs : cs ⊆ checks)
    (h : (deletePass isMustAlias cs st).deleteStack ⊆ st.deleteStack) :
    ∀ c ∈ cs, deleteCheck isMustAlias st c = st := by
  induction cs with
  | nil => simp
  | cons c cs ih =>
    rw [List.cons_subset] at hcs
    have hc : deleteCheck isMustAlias st c = st := hs.check_eq (deletePass_grows.trans h)
    rw [deletePass, List.foldl_cons, hc] at h
    intro d hd
    rcases List.mem_cons.mp hd with rfl | hd
    · exact hc
    · exact ih hcs.2 h d hd

/-- A state no check changes has found all linked pointers. -/
theorem Linked.found (hs : Sound isMustAlias checks st)
    (hstop : ∀ c ∈ checks, deleteCheck isMustAlias st c = st)
    (hv : Linked isMustAlias checks v) : v ∈ st.allocaList := by
  have hmem : ∀ c ∈ checks, mustAlias isMustAlias c.ptr st.allocaList = true ∨
      mustAlias isMustAlias (baseOf f c.ptr) st.allocaList = true → c.ptr ∈ st.allocaList := by
    intro c hc hlink
    rw [← hstop c hc, deleteCheck_eq, if_pos (.inr hlink)]
    exact Finset.mem_insert_self ..
  induction hv with
  | alloca hv => exact hs.start _ hv
  | pointer hc ha _ ih => exact hmem _ hc (.inl (mustAlias_iff.mpr ⟨_, ih, ha⟩))
  | base hc ha _ ih => exact hmem _ hc (.inr (mustAlias_iff.mpr ⟨_, ih, ha⟩))

/-- The loop ends, and removes the checks of the linked pointers. -/
theorem deleteCarmCheck_linked : ∃ kept,
    deleteCarmCheckOnStackVariables isMustAlias checks = some kept ∧
      ∀ c ∈ checks, c ∉ kept ↔ Linked isMustAlias checks c.ptr := by
  have hpass : ∀ st, Sound isMustAlias checks st →
      Sound isMustAlias checks (deletePass isMustAlias checks st) := fun st hs =>
    hs.pass (List.Subset.refl _)
  obtain ⟨st, hst⟩ : ∃ st, saturate (deletePass isMustAlias checks) (·.deleteStack.card)
      (f.size + 1) ⟨allocas f, ∅⟩ = some st :=
    Lib.saturate_returns (N := f.size) hpass (fun _ _ => Finset.card_le_card deletePass_grows)
      (fun st _ => (Finset.card_le_univ _).trans_eq (Fintype.card_fin _)) Sound.init (by simp)
  obtain ⟨st', hs', rfl, hsize⟩ := Lib.saturate_last hpass Sound.init hst
  have hsame : (deletePass isMustAlias checks st').deleteStack ⊆ st'.deleteStack :=
    (Finset.eq_of_subset_of_card_le deletePass_grows hsize.le).symm.subset
  have hstop := hs'.pass_eq (List.Subset.refl _) hsame
  refine ⟨_, by rw [deleteCarmCheckOnStackVariables, hst]; rfl, fun c hc => ?_⟩
  simp only [List.mem_filter, hc, true_and, decide_eq_true_eq, not_not]
  constructor
  · exact fun hdel => hs'.linked _ (hs'.deleted c (hsame hdel))
  · intro hl
    have hfound := hl.found hs' hstop
    refine deletePass_grows ?_
    rw [← hstop c hc, deleteCheck_eq, if_pos (.inl hfound)]
    exact Finset.mem_insert_self ..

-- ---------------------------------------------------------------------------
-- Soundness
-- ---------------------------------------------------------------------------

/-- The pass returns, and whenever the pointer of an access whose check it removed
is evaluated, it points into an alloca. -/
def RemovesSafely (isMustAlias : Fin f.size → Fin f.size → Bool) (checks : List (Check f)) : Prop :=
  ∃ kept, deleteCarmCheckOnStackVariables isMustAlias checks = some kept ∧
    ∀ c ∈ checks, c ∉ kept → ∀ env, Run f env → ∀ t, env c.ptr = some t → t.IsStack

/-- The PHI under the GEPs and bitcasts, if there is one, merges stack pointers. -/
def MergesStack (f : Func) (ptr : Fin f.size) : Prop :=
  ∀ incoming, f.inst (strip f ptr) = .phi incoming →
    ∀ p ∈ incoming, ∀ t, MayPoint f p t → t.IsStack

/-- Values that must alias start in the same objects. -/
def AliasCorrect (isMustAlias : Fin f.size → Fin f.size → Bool) : Prop :=
  ∀ v s, isMustAlias v s = true → ∀ t, MayPoint f v t → MayPoint f s t

theorem Linked.isStack (hali : AliasCorrect isMustAlias)
    (hphi : ∀ c ∈ checks, Linked isMustAlias checks c.ptr → MergesStack f c.ptr)
    (hv : Linked isMustAlias checks v) (ht : MayPoint f v t) : t.IsStack := by
  induction hv with
  | alloca hv => exact ⟨_, (mayPoint_alloca hv).mp ht⟩
  | pointer _ ha _ ih => exact ih (hali _ _ ha t ht)
  | @base c s hc ha hs ih =>
    rw [mayPoint_strip] at ht
    by_cases hp : ∃ incoming, f.inst (strip f c.ptr) = .phi incoming
    · obtain ⟨incoming, hp⟩ := hp
      obtain ⟨p, hpi, hpt⟩ := (mayPoint_phi hp).mp ht
      exact hphi c hc (.base hc ha hs) incoming hp p hpi t hpt
    · have hbase : baseOf f c.ptr = strip f c.ptr :=
        uncastUngep_strip fun incoming hi => hp ⟨incoming, hi⟩
      rw [hbase] at ha
      exact ih (hali _ _ ha t ht)

theorem RemovesSafely.of_merges (hali : AliasCorrect isMustAlias)
    (hphi : ∀ c ∈ checks, Linked isMustAlias checks c.ptr → MergesStack f c.ptr) :
    RemovesSafely isMustAlias checks := by
  obtain ⟨kept, hkept, hiff⟩ : ∃ kept,
      deleteCarmCheckOnStackVariables isMustAlias checks = some kept ∧
        ∀ c ∈ checks, c ∉ kept ↔ Linked isMustAlias checks c.ptr := deleteCarmCheck_linked
  exact ⟨kept, hkept, fun c hc hgone env hr t he =>
    ((hiff c hc).mp hgone).isStack hali hphi ⟨env, hr, he⟩⟩

/-- Guard elimination is sound exactly when the PHIs under the linked pointers
merge stack pointers. -/
theorem removesSafely_iff (hali : AliasCorrect isMustAlias) : RemovesSafely isMustAlias checks ↔
    ∀ c ∈ checks, Linked isMustAlias checks c.ptr → MergesStack f c.ptr := by
  refine ⟨?_, .of_merges hali⟩
  obtain ⟨kept, hkept, hiff⟩ : ∃ kept,
      deleteCarmCheckOnStackVariables isMustAlias checks = some kept ∧
        ∀ c ∈ checks, c ∉ kept ↔ Linked isMustAlias checks c.ptr := deleteCarmCheck_linked
  rintro ⟨kept', hk, hsafe⟩ c hc hl incoming hi p hp t ht
  obtain rfl := Option.some.inj (hk.symm.trans hkept)
  obtain ⟨env, hr, he⟩ := mayPoint_strip.mpr ((mayPoint_phi hi).mpr ⟨p, hp, ht⟩)
  exact hsafe c hc ((hiff c hc).mpr hl) env hr t he

theorem aliasCorrect_eq : AliasCorrect fun v s : Fin f.size => decide (v = s) := by
  intro v s h t ht
  rwa [← of_decide_eq_true h]

local instance : NeZero 3 := ⟨Nat.succ_ne_zero 2⟩

abbrev loadField : Func :=
  .ofInsts 3 ![.alloca, .gep 0 [], .load 1] (by decide)

theorem removesSafely_loadField : RemovesSafely (f := loadField) (fun v s => decide (v = s))
    [⟨2, 1, rfl⟩] := by
  refine (removesSafely_iff aliasCorrect_eq).mpr fun c hc _ incoming hi => ?_
  obtain rfl := List.mem_singleton.mp hc
  rw [strip_gep rfl, strip_alloca rfl] at hi
  cases hi

/-- `a = alloca; p = phi [a, argument]; load p` -/
abbrev loadMerged : Func :=
  .ofInsts 4 ![.alloca, .argument, .phi [0, 1], .load 2] (by decide)

abbrev mergedCheck : Check loadMerged := ⟨3, 2, rfl⟩

/-- The check of an access through a PHI of an alloca and an argument is removed. -/
theorem merged_pointer_unchecked : ¬∀ (f : Func) isMustAlias (checks : List (Check f)),
    AliasCorrect isMustAlias → RemovesSafely isMustAlias checks := by
  intro h
  obtain ⟨kept, hkept, hsafe⟩ := h loadMerged (fun v s => decide (v = s)) [mergedCheck]
    aliasCorrect_eq
  obtain ⟨kept', hkept', hiff⟩ : ∃ kept,
      deleteCarmCheckOnStackVariables (fun v s => decide (v = s)) [mergedCheck] = some kept ∧
        ∀ c ∈ [mergedCheck], c ∉ kept ↔
          Linked (fun v s => decide (v = s)) [mergedCheck] c.ptr := deleteCarmCheck_linked
  obtain rfl := Option.some.inj (hkept.symm.trans hkept')
  have hbase : baseOf loadMerged mergedCheck.ptr = 0 := by
    have hstrip : strip loadMerged 0 = 0 := strip_alloca rfl
    rw [baseOf, uncastUngep_phi rfl (by simp), uncastUngep_strip, hstrip]
    rw [hstrip]
    nofun
  have hlinked : Linked (fun v s => decide (v = s)) [mergedCheck] mergedCheck.ptr :=
    .base (List.mem_singleton_self _) (decide_eq_true hbase) (.alloca rfl)
  have hpoint : MayPoint loadMerged mergedCheck.ptr (.elsewhere 0) :=
    (mayPoint_phi rfl).mpr
      ⟨1, List.mem_cons_of_mem _ (List.mem_cons_self ..), mayPoint_iff.mpr ⟨_, .start, trivial⟩⟩
  obtain ⟨env, hr, he⟩ := hpoint
  have hgone := (hiff _ (List.mem_singleton_self _)).mpr hlinked
  obtain ⟨a, ha⟩ := hsafe _ (List.mem_singleton_self _) hgone env hr _ he
  cases ha

end Func

end TrackFM
