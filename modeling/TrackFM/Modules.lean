import TrackFM.Flat
import Mathlib.Data.Option.Basic
import Mathlib.Logic.Function.Basic

/-!
# Modules and what they do

Functions in SSA form with their blocks, terminators and PHIs, as clients of a
memory. A pass that changes the instructions of a module one by one, each into
one that makes the same request or none, changes nothing in what the module does.
-/

namespace TrackFM

open Lib (Move Client Mimics)

namespace Ssa

/-- What registers hold, and what the instructions that only compute make of it. -/
structure Words (F V : Type) where
  /-- What a register holds before it is set. -/
  undef : V
  eval : F → List V → V
  truth : V → Bool
  address : V → Nat
  int : V → Int
  ofAddress : Nat → V
  ofOrder : Ordering → V
  ofBytes : List UInt8 → V
  bytes : Nat → V → List UInt8
  bytes_length : ∀ n v, (bytes n v).length = n

inductive Instr (R F : Type) where
  | op (dst : R) (f : F) (args : List R)
  | alloca (dst : R) (size : Nat)
  | load (dst ptr : R) (n : Nat)
  | store (value ptr : R) (n : Nat)
  | call (dst : Option R) (callee : String) (args : List R)
  /-- A call of `_Z10carm_derefPv`, which does nothing. -/
  | check (ptr : R)
  /-- An access to the address its guard translates `ptr` to. -/
  | guardedLoad (dst ptr : R) (n : Nat)
  | guardedStore (value ptr : R) (n : Nat)
  deriving DecidableEq, Repr

inductive Terminator (R : Type) where
  | br (target : Nat)
  | condBr (cond : R) (yes no : Nat)
  | ret (value : Option R)
  deriving DecidableEq, Repr

/-- A PHI gives its register the value of another one, chosen by the block
control comes from. -/
structure BasicBlock (R F : Type) where
  /-- The incoming values with their blocks. -/
  phis : List (R × List (Nat × R))
  body : List (Instr R F)
  term : Terminator R

structure Function (R F : Type) where
  params : List R
  blocks : List (BasicBlock R F)

abbrev Module (R F : Type) := List (String × Function R F)

/-- What a call of a function comes to that is only declared. -/
inductive Linked (V : Type) where
  | request (o : Request)
  | value (v : V)

abbrev Link (V : Type) := String → List V → Option (Linked V)

structure Activation (R F V : Type) where
  name : String
  code : Function R F
  block : Nat
  rest : List (Instr R F)
  term : Terminator R
  regs : R → V
  /-- The stack grows down from here. -/
  sp : Nat
  /-- Where the caller wants the result. -/
  dst : Option R

structure Config (R F V : Type) where
  stack : List (Activation R F V)
  result : Option V

-- ---------------------------------------------------------------------------
-- The meaning of a module
-- ---------------------------------------------------------------------------

section
variable {R F V : Type} [DecidableEq R]

def setTo (regs : R → V) : Option R → V → R → V
  | some r, v => Function.update regs r v
  | none, _ => regs

/-- The PHIs of a block read their operands before any of them is set. -/
def enter (b : BasicBlock R F) (source : Nat) (regs : R → V) : R → V :=
  b.phis.foldl (fun acc phi =>
    Function.update acc phi.1 (regs ((phi.2.lookup source).getD phi.1))) regs

def Activation.goTo (a : Activation R F V) (target : Nat) : Option (Activation R F V) :=
  (a.code.blocks[target]?).map fun b =>
    { a with block := target, rest := b.body, term := b.term, regs := enter b a.block a.regs }

def Function.activate (f : Function R F) (name : String) (regs : R → V) (args : List V) (sp : Nat)
    (dst : Option R) : Option (Activation R F V) :=
  (f.blocks[0]?).map fun b =>
    { name := name, code := f, block := 0, rest := b.body, term := b.term, sp := sp, dst := dst
      regs := (f.params.zip args).foldl (fun acc p => Function.update acc p.1 p.2) regs }

def Words.ofAnswer (W : Words F V) : Answer → V
  | .done => W.ofBytes []
  | .bytes bs => W.ofBytes bs
  | .word w => W.ofAddress w
  | .order o => W.ofOrder o

def onTop (below : List (Activation R F V)) (result : Option V) :
    Option (Activation R F V) → Move Request Answer (Config R F V)
  | some a => .silent ⟨a :: below, result⟩
  | none => .halt

def popTo (dst : Option R) (v : Option V) :
    List (Activation R F V) → Config R F V
  | [] => ⟨[], v⟩
  | a :: below =>
    ⟨{ a with regs := match v with
        | some v => setTo a.regs dst v
        | none => a.regs } :: below, none⟩

/-- What an instruction does; `a` and `rest` are the activation after it. An
access is a request for a guarded one unless `raw` says that in this function the
pointer is not to be guarded. -/
def exec (W : Words F V) (raw : String → R → Bool) (link : String → Link V) (M : Module R F)
    (a : Activation R F V) (below : List (Activation R F V)) (result : Option V) :
    Instr R F → Move Request Answer (Config R F V)
  | .op dst f args =>
    .silent ⟨{ a with regs := setTo a.regs (some dst) (W.eval f (args.map a.regs)) } :: below, result⟩
  | .alloca dst size =>
    .silent ⟨{ a with
      sp := a.sp - size
      regs := setTo a.regs (some dst) (W.ofAddress (a.sp - size)) } :: below, result⟩
  | .load dst ptr n =>
    .call (.load (!raw a.name ptr) (W.address (a.regs ptr)) n) fun ans =>
      ⟨{ a with regs := setTo a.regs (some dst) (W.ofAnswer ans) } :: below, result⟩
  | .store value ptr n =>
    .call (.store (!raw a.name ptr) (W.address (a.regs ptr)) (W.bytes n (a.regs value))) fun _ =>
      ⟨a :: below, result⟩
  | .check _ => .silent ⟨a :: below, result⟩
  | .guardedLoad dst ptr n =>
    .call (.load true (W.address (a.regs ptr)) n) fun ans =>
      ⟨{ a with regs := setTo a.regs (some dst) (W.ofAnswer ans) } :: below, result⟩
  | .guardedStore value ptr n =>
    .call (.store true (W.address (a.regs ptr)) (W.bytes n (a.regs value))) fun _ =>
      ⟨a :: below, result⟩
  | .call dst callee args =>
    match M.lookup callee with
    | some f =>
      onTop (a :: below) result
        (f.activate callee (fun _ => W.undef) (args.map a.regs) a.sp dst)
    | none =>
      match link a.name callee (args.map a.regs) with
      | some (.request o) => .call o fun ans =>
        ⟨{ a with regs := setTo a.regs dst (W.ofAnswer ans) } :: below, result⟩
      | some (.value v) => .silent ⟨{ a with regs := setTo a.regs dst v } :: below, result⟩
      | none => .halt

def leave (W : Words F V) (a : Activation R F V) (below : List (Activation R F V))
    (result : Option V) : Move Request Answer (Config R F V) :=
  match a.term with
  | .br target => onTop below result (a.goTo target)
  | .condBr cond yes no => onTop below result (a.goTo (if W.truth (a.regs cond) then yes else no))
  | .ret value => .silent (popTo a.dst (value.map a.regs) below)

def run (W : Words F V) (raw : String → R → Bool) (link : String → Link V) (M : Module R F) :
    Client Request Answer (Config R F V) := fun s =>
  match s.stack with
  | [] => .halt
  | a :: below =>
    match a.rest with
    | i :: rest => exec W raw link M { a with rest := rest } below s.result i
    | [] => leave W a below s.result

def begin (W : Words F V) (M : Module R F) (main : String) (args : List V) (sp : Nat) :
    Config R F V :=
  ⟨((M.lookup main).bind fun f => f.activate main (fun _ => W.undef) args sp none).toList, none⟩

end

-- ---------------------------------------------------------------------------
-- Instructions one by one
-- ---------------------------------------------------------------------------

section
variable {R F V : Type}

def Function.mapBody (g : Instr R F → Instr R F) (f : Function R F) : Function R F :=
  { f with blocks := f.blocks.map fun b => { b with body := b.body.map g } }

/-- `g` may depend on the function an instruction is in. -/
def mapBodies (g : String → Instr R F → Instr R F) (M : Module R F) : Module R F :=
  M.map fun e => (e.1, e.2.mapBody (g e.1))

def Activation.mapBody (g : String → Instr R F → Instr R F) (a : Activation R F V) :
    Activation R F V :=
  { a with code := a.code.mapBody (g a.name), rest := a.rest.map (g a.name) }

def Config.mapBodies (g : String → Instr R F → Instr R F) (s : Config R F V) : Config R F V :=
  { s with stack := s.stack.map (·.mapBody g) }

def Function.Each (P : Instr R F → Prop) (f : Function R F) : Prop :=
  ∀ b ∈ f.blocks, ∀ i ∈ b.body, P i

def Module.Each (P : String → Instr R F → Prop) (M : Module R F) : Prop :=
  ∀ e ∈ M, e.2.Each (P e.1)

structure Activation.Each (P : String → Instr R F → Prop) (a : Activation R F V) : Prop where
  code : a.code.Each (P a.name)
  rest : ∀ i ∈ a.rest, P a.name i

def Config.Each (P : String → Instr R F → Prop) (s : Config R F V) : Prop :=
  ∀ a ∈ s.stack, a.Each P

/-- In function `n` the second instruction does what the first does. -/
inductive Alike (raw raw' : String → R → Bool) (link link' : String → Link V) (M : Module R F)
    (n : String) : Instr R F → Instr R F → Prop
  | op : Alike raw raw' link link' M n (.op dst f args) (.op dst f args)
  | alloca : Alike raw raw' link link' M n (.alloca dst size) (.alloca dst size)
  | load : raw n ptr = raw' n ptr →
      Alike raw raw' link link' M n (.load dst ptr len) (.load dst ptr len)
  | store : raw n ptr = raw' n ptr →
      Alike raw raw' link link' M n (.store value ptr len) (.store value ptr len)
  | guardLoad : raw n ptr = false →
      Alike raw raw' link link' M n (.load dst ptr len) (.guardedLoad dst ptr len)
  | guardStore : raw n ptr = false →
      Alike raw raw' link link' M n (.store value ptr len) (.guardedStore value ptr len)
  | call : M.lookup callee = some f →
      Alike raw raw' link link' M n (.call dst callee args) (.call dst callee args)
  | libCall : M.lookup callee = none → M.lookup callee' = none →
      (∀ regs : R → V, link n callee (args.map regs) = link' n callee' (args'.map regs)) →
      Alike raw raw' link link' M n (.call dst callee args) (.call dst callee' args')

variable {g : String → Instr R F → Instr R F} {P : String → Instr R F → Prop} {M : Module R F}
  {a : Activation R F V} {s : Config R F V}

theorem lookup_mapBodies {n : String} :
    (mapBodies g M).lookup n = (M.lookup n).map fun f => f.mapBody (g n) := by
  induction M with
  | nil => rfl
  | cons e M ih =>
    rw [mapBodies, List.map_cons, ← mapBodies, List.lookup_cons, List.lookup_cons]
    cases he : n == e.1 with
    | true => rw [eq_of_beq he]; rfl
    | false => exact ih

theorem Module.Each.lookup (hM : Module.Each P M) (h : M.lookup n = some f) : f.Each (P n) := by
  obtain ⟨l₁, l₂, rfl, -⟩ := List.lookup_eq_some_iff.mp h
  exact hM (n, f) (List.mem_append_right l₁ (List.mem_cons_self ..))

theorem onTop_mapBodies {o : Option (Activation R F V)} {below : List (Activation R F V)} :
    onTop (below.map (·.mapBody g)) result (o.map (·.mapBody g)) =
      (onTop below result o).map (·.mapBodies g) := by
  cases o <;> rfl

theorem onTop_each {o : Option (Activation R F V)} {below : List (Activation R F V)}
    (hbelow : ∀ a ∈ below, a.Each P)
    (ho : ∀ a, o = some a → a.Each P) : (onTop below result o).Leads (Config.Each P) := by
  cases o with
  | none => trivial
  | some a => exact List.forall_mem_cons.mpr ⟨ho a rfl, hbelow⟩

variable [DecidableEq R]

theorem Activation.goTo_mapBody {target : Nat} :
    (a.mapBody g).goTo target = (a.goTo target).map (·.mapBody g) := by
  simp only [Activation.goTo, Activation.mapBody, Function.mapBody, List.getElem?_map, Option.map_map]
  rfl

theorem Activation.Each.goTo {target : Nat} (ha : a.Each P) (h : a.goTo target = some a') :
    a'.Each P := by
  obtain ⟨b, hb, rfl⟩ := Option.map_eq_some_iff.mp h
  exact ⟨ha.code, ha.code b (List.mem_of_getElem? hb)⟩

theorem Function.activate_mapBody {f : Function R F} {regs : R → V} :
    (f.mapBody (g n)).activate n regs args sp dst =
      (f.activate n regs args sp dst).map (·.mapBody g) := by
  simp only [Function.activate, Function.mapBody, List.getElem?_map, Option.map_map]
  rfl

theorem Function.Each.activate {f : Function R F} {regs : R → V} (hf : f.Each (P n))
    (h : f.activate n regs args sp dst = some a) : a.Each P := by
  obtain ⟨b, hb, rfl⟩ := Option.map_eq_some_iff.mp h
  exact ⟨hf, hf b (List.mem_of_getElem? hb)⟩

theorem popTo_mapBodies {below : List (Activation R F V)} {dst : Option R} :
    popTo dst v (below.map (·.mapBody g)) = (popTo dst v below).mapBodies g := by
  cases below <;> rfl

section
variable {W : Words F V} {raw raw' : String → R → Bool} {link link' : String → Link V}
  {below : List (Activation R F V)} {result : Option V} {i i' : Instr R F}

theorem exec_mapBodies (hi : Alike raw raw' link link' M a.name i i') :
    exec W raw' link' (mapBodies g M) (a.mapBody g) (below.map (·.mapBody g)) result i' =
      (exec W raw link M a below result i).map (·.mapBodies g) := by
  have hname : (a.mapBody g).name = a.name := rfl
  cases hi with
  | op => rfl
  | alloca => rfl
  | load h => simp only [exec, hname, h]; rfl
  | store h => simp only [exec, hname, h]; rfl
  | guardLoad h => simp only [exec, h]; rfl
  | guardStore h => simp only [exec, h]; rfl
  | call h =>
    simp only [exec, lookup_mapBodies, h, Option.map_some, Function.activate_mapBody]
    rw [← List.map_cons, onTop_mapBodies]
    rfl
  | libCall h h' hlink =>
    have hregs : (a.mapBody g).regs = a.regs := rfl
    simp only [exec, lookup_mapBodies, h, h', Option.map_none, hname, hregs, ← hlink a.regs]
    split <;> rfl

theorem run_exec (h : a.rest = i :: rest) : run W raw link M ⟨a :: below, result⟩ =
    exec W raw link M { a with rest := rest } below result i := by
  simp only [run, h]

theorem run_leave (h : a.rest = []) : run W raw link M ⟨a :: below, result⟩ = leave W a below result := by
  simp only [run, h]

theorem leave_mapBodies : leave W (a.mapBody g) (below.map (·.mapBody g)) result =
    (leave W a below result).map (·.mapBodies g) := by
  have hterm : (a.mapBody g).term = a.term := rfl
  simp only [leave, hterm, Activation.goTo_mapBody, onTop_mapBodies]
  cases a.term with
  | br target => rfl
  | condBr cond yes no => rfl
  | ret value => exact congrArg Move.silent popTo_mapBodies

theorem exec_each (hM : Module.Each P M) (ha : a.Each P) (hbelow : ∀ a ∈ below, a.Each P) :
    (exec W raw link M a below result i).Leads (Config.Each P) := by
  have hset : ∀ (regs : R → V) sp, Activation.Each P { a with regs := regs, sp := sp } :=
    fun _ _ => ⟨ha.code, ha.rest⟩
  have hgo : ∀ {a' : Activation R F V}, a'.Each P → Config.Each P ⟨a' :: below, result⟩ := fun ha' =>
    List.forall_mem_cons.mpr ⟨ha', hbelow⟩
  cases i with
  | op => exact hgo (hset _ _)
  | alloca => exact hgo (hset _ _)
  | load => exact fun _ => hgo (hset _ _)
  | store => exact fun _ => hgo ha
  | check => exact hgo ha
  | guardedLoad => exact fun _ => hgo (hset _ _)
  | guardedStore => exact fun _ => hgo ha
  | call dst callee args =>
    rw [exec]
    split
    case h_1 f hf =>
      exact onTop_each (List.forall_mem_cons.mpr ⟨ha, hbelow⟩) fun a' ha' => (hM.lookup hf).activate ha'
    case h_2 =>
      split
      · exact fun _ => hgo (hset _ _)
      · exact hgo (hset _ _)
      · trivial

theorem leave_each (ha : a.Each P) (hbelow : ∀ a ∈ below, a.Each P) :
    (leave W a below result).Leads (Config.Each P) := by
  rw [leave]
  cases a.term with
  | br target => exact onTop_each hbelow fun a' ha' => ha.goTo ha'
  | condBr cond yes no => exact onTop_each hbelow fun a' ha' => ha.goTo ha'
  | ret value =>
    cases below with
    | nil => exact List.forall_mem_nil _
    | cons b below =>
      obtain ⟨hb, hbelow⟩ := List.forall_mem_cons.mp hbelow
      exact List.forall_mem_cons.mpr ⟨⟨hb.code, hb.rest⟩, hbelow⟩

/-- Instructions that are changed one by one, each into one that does the same. -/
theorem mapBodies_mimics (hM : Module.Each P M)
    (hg : ∀ n i, P n i → Alike raw raw' link link' M n i (g n i)) :
    Mimics (run W raw' link' (mapBodies g M)) (run W raw link M) (·.mapBodies g)
      (Config.Each P) where
  move := by
    rintro ⟨_ | ⟨a, below⟩, result⟩ hs
    · rfl
    have ha : a.Each P := hs a (List.mem_cons_self ..)
    cases hrest : a.rest with
    | nil =>
      rw [run_leave hrest, ← leave_mapBodies]
      exact run_leave (congrArg (List.map (g a.name)) hrest)
    | cons i rest =>
      have hi : P a.name i := ha.rest i (hrest ▸ List.mem_cons_self ..)
      rw [run_exec hrest]
      exact (run_exec (congrArg (List.map (g a.name)) hrest)).trans
        (exec_mapBodies (a := { a with rest := rest }) (hg a.name i hi))
  leads := by
    rintro ⟨_ | ⟨a, below⟩, result⟩ hs
    · trivial
    obtain ⟨ha, hbelow⟩ := List.forall_mem_cons.mp hs
    cases hrest : a.rest with
    | nil =>
      rw [run_leave hrest]
      exact leave_each ha hbelow
    | cons i rest =>
      rw [run_exec hrest]
      refine exec_each hM (a := { a with rest := rest }) ⟨ha.code, fun i hi => ?_⟩ hbelow
      exact ha.rest i (hrest ▸ List.mem_cons_of_mem _ hi)

end

end

end Ssa

end TrackFM
