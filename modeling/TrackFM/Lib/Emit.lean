import Mathlib.Algebra.Order.Ring.Nat

/-!
# Code emitted by a builder

Straight-line 64-bit code with loads from one table, calls and two-way branches
that meet again in a PHI. The emitted code is data over a type of values; a
machine that says what the table holds and what a call does gives it a meaning.
-/

namespace TrackFM.Lib

inductive BinOp where
  | and | xor | lshr | add
  deriving DecidableEq, Repr

def BinOp.eval : BinOp → Nat → Nat → Nat
  | .and, a, b => a &&& b
  | .xor, a, b => a ^^^ b
  | .lshr, a, b => a >>> b
  | .add, a, b => (a + b) % 2 ^ 64

inductive Predicate where
  | uge | ne
  deriving DecidableEq, Repr

def Predicate.eval : Predicate → Nat → Nat → Bool
  | .uge, a, b => decide (b ≤ a)
  | .ne, a, b => decide (a ≠ b)

/-- `F` names the functions that may be called, `V` the values computed so far. -/
inductive Code (F V : Type) where
  | ret (value : V)
  | const (n : Nat) (next : V → Code F V)
  | bin (op : BinOp) (a b : V) (next : V → Code F V)
  | load (index : V) (next : V → Code F V)
  | call (f : F) (argument : V) (next : V → Code F V)
  /-- Both branches end in the value the PHI after them merges. -/
  | branch (p : Predicate) (a b : V) (yes no : Code F V) (next : V → Code F V)

structure CallMachine (F σ : Type) where
  table : σ → Nat → Nat
  call : F → σ → Nat → σ × Nat

variable {F σ : Type}

def Code.eval (m : CallMachine F σ) : Code F Nat → σ → σ × Nat
  | .ret value, s => (s, value)
  | .const n next, s => (next n).eval m s
  | .bin op a b next, s => (next (op.eval a b)).eval m s
  | .load index next, s => (next (m.table s index)).eval m s
  | .call f argument next, s =>
    let (s, value) := m.call f s argument
    (next value).eval m s
  | .branch p a b yes no next, s =>
    let (s, value) := if p.eval a b then yes.eval m s else no.eval m s
    (next value).eval m s

theorem Code.eval_yes {m : CallMachine F σ} {yes no : Code F Nat} (h : p.eval a b = true) :
    (Code.branch p a b yes no next).eval m s =
      (next (yes.eval m s).2).eval m (yes.eval m s).1 := by
  rw [Code.eval, if_pos h]

theorem Code.eval_no {m : CallMachine F σ} {yes no : Code F Nat} (h : p.eval a b = false) :
    (Code.branch p a b yes no next).eval m s = (next (no.eval m s).2).eval m (no.eval m s).1 := by
  rw [Code.eval, if_neg (by simp [h])]

end TrackFM.Lib
