import Mathlib.Data.Fintype.Basic
import Mathlib.Order.Fin.Basic
import Mathlib.Data.Fin.VecNotation

/-!
# Functions as use graphs

What the check passes inspect of an LLVM function: its values with their
operands, and the users of each. Types, control flow and the order of the
instructions in their blocks are left out.
-/

namespace TrackFM

/-- A value with its operands. Arguments and constants are values too. -/
inductive Inst (V : Type) where
  | argument
  | constant
  | alloca
  | load (ptr : V)
  | store (value ptr : V)
  | gep (base : V) (indices : List V)
  | bitcast (op : V)
  /-- A cast other than a bitcast. -/
  | cast (op : V)
  | phi (incoming : List V)
  | select (a b : V)
  /-- `getCalledFunction` is null in an indirect call. -/
  | call (callee : Option String) (args : List V)
  | invoke (callee : Option String) (args : List V)
  | ret (value : V)
  /-- An instruction the passes do not look at. -/
  | other (operands : List V)
  deriving DecidableEq, Repr

namespace Inst

variable {V : Type}

def operands : Inst V → List V
  | argument | constant | alloca => []
  | load ptr => [ptr]
  | store value ptr => [value, ptr]
  | gep base indices => base :: indices
  | bitcast op | cast op => [op]
  | phi incoming => incoming
  | select a b => [a, b]
  | call _ args | invoke _ args => args
  | ret value => [value]
  | other operands => operands

def castOp : Inst V → Option V
  | bitcast op | cast op => some op
  | _ => none

theorem castOp_eq {i : Inst V} : i.castOp = some op ↔ i = .bitcast op ∨ i = .cast op := by
  cases i <;> simp [castOp]

def pointerOperand : Inst V → Option V
  | load ptr | store _ ptr => some ptr
  | _ => none

def isPhi : Inst V → Bool
  | phi _ => true
  | _ => false

def needed (i : Inst V) : List V := if i.isPhi then [] else i.operands

def map {W : Type} (g : V → W) : Inst V → Inst W
  | argument => argument
  | constant => constant
  | alloca => alloca
  | load ptr => load (g ptr)
  | store value ptr => store (g value) (g ptr)
  | gep base indices => gep (g base) (indices.map g)
  | bitcast op => bitcast (g op)
  | cast op => cast (g op)
  | phi incoming => phi (incoming.map g)
  | select a b => select (g a) (g b)
  | call callee args => call callee (args.map g)
  | invoke callee args => invoke callee (args.map g)
  | ret value => ret (g value)
  | other operands => other (operands.map g)

theorem operands_map {W : Type} {g : V → W} (i : Inst V) :
    (i.map g).operands = i.operands.map g := by
  cases i <;> rfl

theorem isPhi_map {W : Type} {g : V → W} (i : Inst V) : (i.map g).isPhi = i.isPhi := by
  cases i <;> rfl

end Inst

/-- A function in SSA form. The values are numbered so that a definition comes
before its uses, except at PHIs. -/
structure Func where
  size : Nat
  inst : Fin size → Inst (Fin size)
  ordered : ∀ v, (inst v).isPhi = false → ∀ o ∈ (inst v).operands, o < v
  /-- `users()`, in the order of the use list. -/
  users : Fin size → List (Fin size)
  mem_users : ∀ v i, i ∈ users v ↔ v ∈ (inst i).operands

namespace Func

abbrev ofInsts (size : Nat) (inst : Fin size → Inst (Fin size))
    (ordered : ∀ v, (inst v).isPhi = false → ∀ o ∈ (inst v).operands, o < v) : Func where
  size
  inst
  ordered
  users v := (List.finRange size).filter fun i => v ∈ (inst i).operands
  mem_users v i := by simp

variable {f : Func} {v base op : Fin f.size}

theorem gep_lt (h : f.inst v = .gep base indices) : base < v :=
  f.ordered v (by rw [h]; rfl) base (by simp [h, Inst.operands])

theorem castOp_lt (h : (f.inst v).castOp = some op) : op < v := by
  cases hi : f.inst v <;> rw [hi] at h <;> cases h <;>
    exact f.ordered v (by rw [hi]; rfl) _ (by simp [hi, Inst.operands])

end Func

end TrackFM
