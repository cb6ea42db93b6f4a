import TrackFM.Modules
import TrackFM.StackChecks

/-!
# The stack pointers of a function

The values of a function in SSA form, numbered in the order they are listed, are
one of the use graphs the check passes walk. The pointers whose checks carm_checks
deletes are those `delete_carm_check_on_stack_variables` finds in that graph.
-/

namespace TrackFM

namespace Ssa

/-- What an operation is to the passes. -/
inductive OpKind where
  | constant | gep | bitcast | cast | select | other
  deriving DecidableEq, Repr

def OpKind.inst {V : Type} : OpKind → List V → Inst V
  | .constant, _ => .constant
  | .gep, base :: indices => .gep base indices
  | .bitcast, [op] => .bitcast op
  | .cast, [op] => .cast op
  | .select, [_, a, b] => .select a b
  | _, args => .other args

/-- What carm_checks has LLVM tell it. The alias analysis answers for the pointers of
a function. -/
structure Analysis (R F : Type) where
  kind : F → OpKind
  isMustAlias : String → R → R → Bool

-- ---------------------------------------------------------------------------
-- Values in their order
-- ---------------------------------------------------------------------------

abbrev Value (R : Type) := Option R × Inst R

/-- No value but a PHI uses one that is listed with it or behind it. -/
def InOrder {R : Type} : List (Value R) → Prop
  | [] => True
  | a :: vs => (∀ b ∈ a :: vs, ∀ r ∈ a.2.needed, b.1 ≠ some r) ∧ InOrder vs

theorem InOrder.apart {R : Type} {vs : List (Value R)} {a b : Value R} {i j : Nat} {r : R}
    (h : InOrder vs) (ha : vs[i]? = some a)
    (hb : vs[j]? = some b) (hij : i ≤ j) (hr : r ∈ a.2.needed) : b.1 ≠ some r := by
  induction vs generalizing i j with
  | nil => cases ha
  | cons c vs ih =>
    cases i with
    | zero =>
      cases ha
      exact h.1 b (List.mem_of_getElem? hb) r hr
    | succ i =>
      cases j with
      | zero => cases hij
      | succ j => exact ih h.2 ha hb (Nat.le_of_succ_le_succ hij)

section
variable {R : Type} [DecidableEq R]

def decidableInOrder : (vs : List (Value R)) → Decidable (InOrder vs)
  | [] => .isTrue trivial
  | _ :: vs => @instDecidableAnd _ _ _ (decidableInOrder vs)

instance {vs : List (Value R)} : Decidable (InOrder vs) := decidableInOrder vs

/-- Where a register is given its value. One that is given none has the value at the
front. -/
def number (vs : List (Value R)) (r : R) : Nat :=
  if vs.findIdx (fun v => v.1 = some r) < vs.length then vs.findIdx (fun v => v.1 = some r) else 0

theorem number_lt {vs : List (Value R)} (h : 0 < vs.length) : number vs r < vs.length := by
  rw [number]
  split
  · assumption
  · exact h

theorem InOrder.number_lt {vs : List (Value R)} {a : Value R}
    (h : InOrder ((none, .constant) :: vs)) (ha : ((none, .constant) :: vs)[i]? = some a)
    (hr : r ∈ a.2.needed) :
    number ((none, .constant) :: vs) r < i := by
  have hpos : 0 < i := by
    cases i with
    | zero =>
      cases ha
      cases hr
    | succ i => exact Nat.succ_pos i
  rw [number]
  split
  case isTrue hlt =>
    refine Nat.lt_of_not_le fun hle => ?_
    have hfound := List.findIdx_getElem (w := hlt)
    exact h.apart ha (List.getElem?_eq_getElem hlt) hle hr (of_decide_eq_true hfound)
  case isFalse => exact hpos

end

-- ---------------------------------------------------------------------------
-- The use graph
-- ---------------------------------------------------------------------------

section
variable {R F : Type} (A : Analysis R F)

def Instr.value : Instr R F → Value R
  | .op dst f args => (some dst, (A.kind f).inst args)
  | .alloca dst _ => (some dst, .alloca)
  | .load dst ptr _ => (some dst, .load ptr)
  | .store value ptr _ => (none, .store value ptr)
  | .call dst callee args => (dst, .call (some callee) args)
  | .check ptr => (none, .call (some "_Z10carm_derefPv") [ptr])
  | .guardedLoad dst ptr _ => (some dst, .other [ptr])
  | .guardedStore value ptr _ => (none, .other [value, ptr])

def Terminator.value : Terminator R → Value R
  | .br _ => (none, .other [])
  | .condBr cond _ _ => (none, .other [cond])
  | .ret (some value) => (none, .ret value)
  | .ret none => (none, .other [])

def BasicBlock.values (b : BasicBlock R F) : List (Value R) :=
  b.phis.map (fun phi => (some phi.1, .phi (phi.2.map Prod.snd))) ++ b.body.map (·.value A) ++
    [b.term.value]

/-- The first value is the undefined one. -/
def Function.values (f : Function R F) : List (Value R) :=
  (none, .constant) ::
    (f.params.map (fun r => (some r, .argument)) ++ f.blocks.flatMap (·.values A))

def Function.Ordered (f : Function R F) : Prop := InOrder (f.values A)

variable [DecidableEq R]

instance {f : Function R F} : Decidable (f.Ordered A) :=
  inferInstanceAs (Decidable (InOrder (f.values A)))

def Function.number (f : Function R F) (r : R) : Fin (f.values A).length :=
  ⟨Ssa.number (f.values A) r, number_lt (Nat.succ_pos _)⟩

def Function.useGraph (f : Function R F) (h : f.Ordered A) : Func :=
  .ofInsts (f.values A).length (fun v => ((f.values A).get v).2.map (f.number A))
    (by
      intro v hphi o ho
      rw [Inst.isPhi_map] at hphi
      rw [Inst.operands_map] at ho
      obtain ⟨r, hr, rfl⟩ := List.mem_map.mp ho
      have hneeded : ((f.values A).get v).2.needed = ((f.values A).get v).2.operands :=
        if_neg (Bool.eq_false_iff.mp hphi)
      exact InOrder.number_lt h (List.getElem?_eq_getElem v.isLt) (hneeded ▸ hr))

def Function.node (f : Function R F) (h : f.Ordered A) (r : R) : Fin (f.useGraph A h).size :=
  f.number A r

/-- Of values without a register nothing is known. -/
def Function.alias (name : String) (f : Function R F) (h : f.Ordered A)
    (v s : Fin (f.useGraph A h).size) : Bool :=
  match ((f.values A).get v).1, ((f.values A).get s).1 with
  | some r, some r' => A.isMustAlias name r r'
  | _, _ => false

/-- The pointers whose checks `delete_carm_check_on_stack_variables` deletes. -/
def Function.stackPointers (name : String) (f : Function R F) : Option (R → Bool) :=
  if h : f.Ordered A then
    (Func.deleteCarmCheckOnStackVariables (f.alias A name h) (f.useGraph A h).checks).map
      fun kept r => decide (∃ c ∈ (f.useGraph A h).checks, c.ptr = f.node A h r ∧ c ∉ kept)
  else none

/-- In no execution the pointer points elsewhere than into an alloca of the function. -/
def Function.OnStack (f : Function R F) (ptr : R) : Prop :=
  ∃ h : f.Ordered A, ∀ t, (f.useGraph A h).MayPoint (f.node A h ptr) t → t.IsStack

/-- The checks of the function are deleted where its pointers are on the stack. -/
def Function.RemovesSafely (name : String) (f : Function R F) : Prop :=
  ∃ h : f.Ordered A, Func.RemovesSafely (f.alias A name h) (f.useGraph A h).checks

variable {A} {f : Function R F} {name : String}

theorem Function.deleteCarmCheck_linked (name : String) (h : f.Ordered A) : ∃ kept,
    Func.deleteCarmCheckOnStackVariables (f.alias A name h) (f.useGraph A h).checks = some kept ∧
      ∀ c ∈ (f.useGraph A h).checks, c ∉ kept ↔
        Func.Linked (f.alias A name h) (f.useGraph A h).checks c.ptr :=
  Func.deleteCarmCheck_linked

theorem Function.stackPointers_returns (name : String) (h : f.Ordered A) :
    ∃ s, f.stackPointers A name = some s := by
  obtain ⟨kept, hkept, -⟩ := deleteCarmCheck_linked name h
  rw [stackPointers, dif_pos h, hkept]
  exact ⟨_, rfl⟩

/-- All checks of a pointer are deleted or none. -/
theorem Function.deleted_together (h : f.Ordered A) {kept : List (f.useGraph A h).Check}
    (hkept : Func.deleteCarmCheckOnStackVariables (f.alias A name h) (f.useGraph A h).checks =
      some kept)
    (hs : f.stackPointers A name = some s) {c : (f.useGraph A h).Check}
    (hc : c ∈ (f.useGraph A h).checks) (hr : c.ptr = f.node A h r) : c ∉ kept ↔ s r = true := by
  obtain ⟨kept', hkept', hiff⟩ := deleteCarmCheck_linked name h
  obtain rfl := Option.some.inj (hkept.symm.trans hkept')
  rw [stackPointers, dif_pos h, hkept] at hs
  obtain rfl := Option.some.inj hs
  rw [decide_eq_true_eq]
  constructor
  · exact fun hgone => ⟨c, hc, hr, hgone⟩
  · rintro ⟨d, hd, hptr, hgone⟩
    rw [hiff c hc, hr, ← hptr]
    exact (hiff d hd).mp hgone

theorem Function.RemovesSafely.onStack (h : f.RemovesSafely A name)
    (hs : f.stackPointers A name = some s) (hr : s r = true) : f.OnStack A r := by
  obtain ⟨h, kept, hkept, hsafe⟩ := h
  refine ⟨h, fun t ⟨env, hrun, ht⟩ => ?_⟩
  rw [stackPointers, dif_pos h, hkept] at hs
  obtain rfl := Option.some.inj hs
  obtain ⟨c, hc, hptr, hgone⟩ := of_decide_eq_true hr
  exact hsafe c hc hgone env hrun t (hptr ▸ ht)

/-- Where there is no PHI, the checks of stack pointers are deleted only. -/
theorem Function.removesSafely_of_noPhi (h : f.Ordered A)
    (hali : Func.AliasCorrect (f.alias A name h))
    (hphi : ∀ v, ((f.useGraph A h).inst v).isPhi = false) : f.RemovesSafely A name := by
  refine ⟨h, .of_merges hali fun c _ _ incoming hi => ?_⟩
  have hno := hphi ((f.useGraph A h).strip c.ptr)
  rw [hi] at hno
  cases hno

theorem Function.not_onStack_call (h : f.Ordered A) {r : R} {callee : Option String}
    {args : List (Fin (f.useGraph A h).size)}
    (hr : (f.useGraph A h).inst (f.node A h r) = .call callee args) : ¬f.OnStack A r := by
  rintro ⟨_, hstack⟩
  have hpoint : (f.useGraph A h).MayPoint (f.node A h r) (.elsewhere 0) := by
    refine Func.mayPoint_iff.mpr ⟨_, .start, ?_⟩
    rw [Func.Eval, hr]
    trivial
  obtain ⟨a, ha⟩ := hstack _ hpoint
  cases ha

end

end Ssa

end TrackFM
