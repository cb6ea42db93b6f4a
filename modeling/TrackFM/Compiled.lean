import TrackFM.UseGraphs
import TrackFM.Clients
import TrackFM.LibcTransform

/-!
# What the compiler does to a module

The passes in their order: carm_checks puts a check before every load and store
and deletes those of stack pointers, carm_transform turns a check and the access
after it into a guarded access, and the libc pass renames library calls. A
compiled module on the runtime does what its source does on a flat memory.
-/

namespace TrackFM

open Lib (Client Move Mimics Runs Safe)

namespace Ssa

section
variable {R F : Type}

/-- None of the passes looks into the initialisers of globals. -/
def skipped (name : String) : Bool := decide ("cxx_global_var_init".toList <:+: name.toList)

-- ---------------------------------------------------------------------------
-- carm_checks
-- ---------------------------------------------------------------------------

def checkLoad : Instr R F → List (Instr R F)
  | .load dst ptr n => [.check ptr, .load dst ptr n]
  | i => [i]

def checkStore : Instr R F → List (Instr R F)
  | .store value ptr n => [.check ptr, .store value ptr n]
  | i => [i]

/-- `transform_loads`, `transform_stores` and the deletion of the checks of some
pointers. -/
def checkBody (stack : R → Bool) (body : List (Instr R F)) : List (Instr R F) :=
  ((body.flatMap checkLoad).flatMap checkStore).filter fun
    | .check ptr => !stack ptr
    | _ => true

def Function.checkBodies (stack : R → Bool) (f : Function R F) : Function R F :=
  { f with blocks := f.blocks.map fun b => { b with body := checkBody stack b.body } }

def carmChecks [DecidableEq R] (A : Analysis R F) (M : Module R F) : Option (Module R F) :=
  M.mapM fun e =>
    if skipped e.1 then some e
    else (e.2.stackPointers A e.1).map fun stack => (e.1, e.2.checkBodies stack)

-- ---------------------------------------------------------------------------
-- carm_transform
-- ---------------------------------------------------------------------------

/-- `transform_function` and `delete_dummy_functions`. What follows a check and is
no load is taken for a store, whatever it is. -/
def transformBody : List (Instr R F) → Option (List (Instr R F))
  | [] => some []
  | .check ptr :: .load dst _ n :: rest => (transformBody rest).map (.guardedLoad dst ptr n :: ·)
  | .check ptr :: .store value _ n :: rest =>
    (transformBody rest).map (.guardedStore value ptr n :: ·)
  | .check _ :: _ => none
  | i :: rest => (transformBody rest).map (i :: ·)

def Function.transformBodies (f : Function R F) : Option (Function R F) :=
  (f.blocks.mapM fun b => (transformBody b.body).map fun body => { b with body := body }).map
    fun blocks => { f with blocks := blocks }

def carmTransform (M : Module R F) : Option (Module R F) :=
  M.mapM fun e =>
    if skipped e.1 then some e else e.2.transformBodies.map fun f => (e.1, f)

-- ---------------------------------------------------------------------------
-- The libc pass
-- ---------------------------------------------------------------------------

/-- What the pass makes of a library function where no local allocation is asked
for. -/
def carmCallee (callee : String) : Option Replacement :=
  if fmap callee = 1 ∨ fmap callee = 2 then some ⟨carmMallocName, some 1, true⟩
  else replacementOf callee

def replaceLibCall (M : Module R F) : Instr R F → Instr R F
  | .call dst callee args =>
    match M.lookup callee, carmCallee callee with
    | none, some r =>
      .call dst r.name (match r.operands with
        | some n => args.take n
        | none => args)
    | _, _ => .call dst callee args
  | i => i

def carmLibcTransform (M : Module R F) : Module R F :=
  mapBodies (fun n i => if skipped n then i else replaceLibCall M i) M

def compile [DecidableEq R] (A : Analysis R F) (M : Module R F) : Option (Module R F) :=
  ((carmChecks A M).bind carmTransform).map carmLibcTransform

-- ---------------------------------------------------------------------------
-- The library
-- ---------------------------------------------------------------------------

inductive LibFn where
  | malloc | calloc | realloc | free | memcpy | memset | memcmp | memchr
  | strlen | strcpy | strncpy | strcmp | strdup
  deriving DecidableEq, Repr

def LibFn.arity : LibFn → Nat
  | malloc | free | strlen | strdup => 1
  | calloc | realloc | strcpy | strcmp => 2
  | memcpy | memset | memcmp | memchr | strncpy => 3

/-- A flat memory copies overlapping ranges as `memmove` does. -/
def cFunctions : List (String × LibFn) :=
  [("malloc", .malloc), ("calloc", .calloc), ("realloc", .realloc), ("free", .free),
    ("memcpy", .memcpy), ("memmove", .memcpy), ("llvm.memcpy.p0i8.p0i8.i64", .memcpy),
    ("llvm.memmove.p0i8.p0i8.i64", .memcpy), ("memset", .memset),
    ("llvm.memset.p0i8.i64", .memset), ("memcmp", .memcmp), ("memchr", .memchr),
    ("strlen", .strlen), ("strcpy", .strcpy), ("strncpy", .strncpy), ("strcmp", .strcmp),
    ("strdup", .strdup)]

def carmFunctions : List (String × LibFn) :=
  [("_Z18carm_remote_mallocm", .malloc), ("_Z11carm_callocmm", .calloc),
    ("_Z12carm_reallocPvm", .realloc), ("_Z9carm_freePv", .free),
    ("_Z11carm_memcpyPaS_m", .memcpy), ("_Z11carm_memsetPvim", .memset),
    ("_Z11carm_memcmpPvS_m", .memcmp), ("_Z11carm_memchrPvim", .memchr),
    ("_Z11carm_strlenPv", .strlen), ("_Z11carm_strcpyPvS_", .strcpy),
    ("_Z12carm_strncpyPvS_m", .strncpy), ("_Z11carm_strcmpPvS_", .strcmp),
    ("_Z11carm_strdupPc", .strdup)]

inductive StartFn where
  | initCarmRuntime | getArgCount | getArgs
  deriving DecidableEq, Repr

def startFunctions : List (String × StartFn) :=
  [("_Z17init_carm_runtimev", .initCarmRuntime), ("_Z13get_arg_countv", .getArgCount),
    ("_Z8get_argsv", .getArgs)]

structure CmdList (V : Type) where
  argCount : V
  args : V

section
variable {V : Type} (W : Words F V) (cmdlist : CmdList V)

/-- The runtime a client finds has been initialised. -/
def StartFn.value : StartFn → V
  | .initCarmRuntime => W.undef
  | .getArgCount => cmdlist.argCount
  | .getArgs => cmdlist.args

def LibFn.request : LibFn → List V → Option Request
  | .malloc, size :: _ => some (.malloc (W.address size))
  | .calloc, elem :: elemSize :: _ => some (.calloc (W.address elem) (W.address elemSize))
  | .realloc, ptr :: size :: _ => some (.realloc (W.address ptr) (W.address size))
  | .free, ptr :: _ => some (.free (W.address ptr))
  | .memcpy, dst :: src :: size :: _ =>
    some (.memcpy (W.address dst) (W.address src) (W.address size))
  | .memset, dst :: v :: size :: _ => some (.memset (W.address dst) (W.int v) (W.address size))
  | .memcmp, a :: b :: size :: _ => some (.memcmp (W.address a) (W.address b) (W.address size))
  | .strlen, s :: _ => some (.strlen (W.address s))
  | .strcpy, dst :: src :: _ => some (.strcpy (W.address dst) (W.address src))
  | .strncpy, dst :: src :: size :: _ =>
    some (.strncpy (W.address dst) (W.address src) (W.address size))
  | .strcmp, d :: s :: _ => some (.strcmp (W.address d) (W.address s))
  | .strdup, s :: _ => some (.strdup (W.address s))
  | .memchr, s :: c :: size :: _ => some (.memchr (W.address s) (W.int c) (W.address size))
  | _, _ => none

def linkWith (fns : List (String × LibFn)) : Link V := fun callee args =>
  match startFunctions.lookup callee with
  | some start => some (.value (start.value W cmdlist))
  | none => (fns.lookup callee).bind fun fn => (fn.request W args).map .request

variable [DecidableEq R]

/-- A module before compilation: an access is to be guarded unless its pointer is
taken for a stack pointer. In the initialisers of globals nothing is guarded and
the library is not that of the runtime. -/
def sourceRun (stack : String → R → Bool) (M : Module R F) : Client Request Answer (Config R F V) :=
  run W (fun n ptr => skipped n || stack n ptr)
    (fun n => linkWith W cmdlist (if skipped n then [] else cFunctions)) M

def compiledRun (M : Module R F) : Client Request Answer (Config R F V) :=
  run W (fun _ _ => true) (fun _ => linkWith W cmdlist carmFunctions) M

def plainRun (M : Module R F) : Client Request Answer (Config R F V) :=
  run W (fun _ _ => false)
    (fun n => linkWith W cmdlist (if skipped n then [] else cFunctions)) M

end

-- ---------------------------------------------------------------------------
-- Programs that keep to the contract
-- ---------------------------------------------------------------------------

/-- An instruction of a source: no checks yet, and no calls of the runtime, of
`mmap`, which the pass takes for `malloc`, or of annotations. -/
def PlainInstr (M : Module R F) : Instr R F → Prop
  | .check _ | .guardedLoad _ _ _ | .guardedStore _ _ _ => False
  | .call _ callee _ => M.lookup callee = none →
      carmFunctions.lookup callee = none ∧ callee ≠ "mmap" ∧ callee ≠ "llvm.var.annotation"
  | _ => True

structure Plain (M : Module R F) : Prop where
  names : (M.map Prod.fst).Nodup
  instr : Module.Each (fun _ => PlainInstr M) M
  undefined : ∀ e ∈ replacements, M.lookup e.2.name = none

def Instr.access : Instr R F → Option (R × Nat)
  | .load _ ptr n | .store _ ptr n => some (ptr, n)
  | _ => none

section
variable {V : Type} [DecidableEq R] (A : Analysis R F) (M : Module R F)

def stackOf (name : String) (ptr : R) : Bool :=
  match (M.lookup name).bind (·.stackPointers A name) with
  | some stack => stack ptr
  | none => false

def Module.RemovesSafely : Prop := ∀ e ∈ M, skipped e.1 = false → e.2.RemovesSafely A e.1

/-- A pointer the program keeps to its own memory: one to its stack, or any in an
initialiser of globals. -/
def Own (name : String) (ptr : R) : Prop :=
  skipped name = true ∨ ∃ f, M.lookup name = some f ∧ f.OnStack A ptr

/-- What the runtime asks of a program: its requests are allowed, and accesses
through pointers to its own memory are local. -/
structure Behaves (W : Words F V) (cmdlist : CmdList V) (loc : Nat → Prop)
    (own : String → R → Prop) (M : Module R F) (s₀ : Config R F V) (mem : Lib.Mem UInt8) :
    Prop where
  allowed : Safe (plainRun W cmdlist M) (flat (contract loc)) (Flat.Allowed (contract loc)) s₀
    (Flat.start mem)
  own : ∀ s y out, Runs (plainRun W cmdlist M) (flat (contract loc)) s₀ (Flat.start mem) s y out →
    ∀ a below i rest ptr n, s.stack = a :: below → a.rest = i :: rest →
      i.access = some (ptr, n) → own a.name ptr →
        Flat.Local (contract loc) (W.address (a.regs ptr)) n

end

-- ---------------------------------------------------------------------------
-- What the passes come to
-- ---------------------------------------------------------------------------

def guardInstr (stack : R → Bool) : Instr R F → Instr R F
  | .load dst ptr n => if stack ptr then .load dst ptr n else .guardedLoad dst ptr n
  | .store value ptr n => if stack ptr then .store value ptr n else .guardedStore value ptr n
  | i => i

def guardIn (stack : String → R → Bool) (name : String) (i : Instr R F) : Instr R F :=
  if skipped name then i else guardInstr (stack name) i

def compileIn (stack : String → R → Bool) (M : Module R F) (name : String) (i : Instr R F) :
    Instr R F :=
  if skipped name then i else replaceLibCall M (guardInstr (stack name) i)

variable {M M' : Module R F} {i : Instr R F} {body : List (Instr R F)}
  {stack : String → R → Bool} {s : R → Bool} {A : Analysis R F}

theorem checkBody_cons : checkBody s (i :: body) = checkBody s [i] ++ checkBody s body := by
  simp [checkBody]

/-- The check of an access is the one carm_transform finds before it. -/
theorem transformBody_checkBody_cons (hi : PlainInstr M i) :
    transformBody (checkBody s [i] ++ body) = (transformBody body).map (guardInstr s i :: ·) := by
  cases i with
  | load dst ptr n =>
    cases hs : s ptr <;> simp [checkBody, checkLoad, checkStore, transformBody, guardInstr, hs]
  | store value ptr n =>
    cases hs : s ptr <;> simp [checkBody, checkLoad, checkStore, transformBody, guardInstr, hs]
  | check ptr => cases hi
  | guardedLoad dst ptr n => cases hi
  | guardedStore value ptr n => cases hi
  | op dst f args => rfl
  | alloca dst size => rfl
  | call dst callee args => rfl

theorem transformBody_checkBody (hp : ∀ i ∈ body, PlainInstr M i) :
    transformBody (checkBody s body) = some (body.map (guardInstr s)) := by
  induction body with
  | nil => rfl
  | cons i body ih =>
    obtain ⟨hi, hbody⟩ := List.forall_mem_cons.mp hp
    rw [checkBody_cons, transformBody_checkBody_cons hi, ih hbody]
    rfl

theorem mapM_eq_map {α β : Type} {f : α → Option β} {g : α → β} {as : List α}
    (h : ∀ a ∈ as, f a = some (g a)) : as.mapM f = some (as.map g) := by
  induction as with
  | nil => rfl
  | cons a as ih =>
    obtain ⟨ha, has⟩ := List.forall_mem_cons.mp h
    rw [List.mapM_cons, ha, ih has]
    rfl

theorem Function.mapBody_self {f : Function R F} : f.mapBody (fun i => i) = f := by
  simp [Function.mapBody]

theorem guardIn_skipped {n : String} (h : skipped n = true) :
    guardIn stack n = fun i : Instr R F => i := by
  funext i
  exact if_pos h

theorem guardIn_unskipped {n : String} (h : skipped n = false) :
    guardIn (F := F) stack n = guardInstr (stack n) := by
  funext i
  exact if_neg (by simp [h])

theorem lookup_of_mem {e : String × Function R F} (hnames : (M.map Prod.fst).Nodup) (he : e ∈ M) :
    M.lookup e.1 = some e.2 := by
  induction M with
  | nil => cases he
  | cons d M ih =>
    obtain ⟨hd, hM⟩ := List.nodup_cons.mp hnames
    rw [List.lookup_cons]
    rcases List.mem_cons.mp he with rfl | he
    · rw [beq_self_eq_true]
    · have hne : e.1 ≠ d.1 := fun h => hd (h ▸ List.mem_map_of_mem he)
      rw [beq_false_of_ne hne]
      exact ih hM he

theorem transformBodies_checkBodies {f : Function R F} (hp : f.Each (PlainInstr M)) :
    (f.checkBodies s).transformBodies = some (f.mapBody (guardInstr s)) := by
  rw [Function.transformBodies, Function.checkBodies, List.mapM_map]
  refine congrArg (Option.map _) (mapM_eq_map fun b hb => ?_)
  rw [Function.comp_apply, transformBody_checkBody (hp b hb)]
  rfl

section
variable [DecidableEq R]

theorem carmChecks_eq (hp : Plain M) (hm : M.RemovesSafely A) :
    carmChecks A M = some (M.map fun e =>
      if skipped e.1 then e else (e.1, e.2.checkBodies (stackOf A M e.1))) := by
  refine mapM_eq_map fun e he => ?_
  cases hskip : skipped e.1 with
  | true => rfl
  | false =>
    obtain ⟨hordered, -⟩ := hm e he hskip
    obtain ⟨stack, hs⟩ := Function.stackPointers_returns e.1 hordered
    have hstack : stackOf A M e.1 = stack := by
      funext ptr
      rw [stackOf, lookup_of_mem hp.names he, Option.bind_some, hs]
    rw [hs, hstack]
    rfl

theorem carmTransform_carmChecks (hp : Plain M) (hm : M.RemovesSafely A) :
    (carmChecks A M).bind carmTransform = some (mapBodies (guardIn (stackOf A M)) M) := by
  rw [carmChecks_eq hp hm, Option.bind_some, carmTransform, List.mapM_map]
  refine mapM_eq_map fun e he => ?_
  cases hskip : skipped e.1 with
  | true =>
    rw [guardIn_skipped hskip, Function.mapBody_self]
    simp [hskip]
  | false =>
    rw [guardIn_unskipped hskip]
    simp [hskip, transformBodies_checkBodies (hp.instr e he)]

end

theorem mapBodies_mapBodies {g h : String → Instr R F → Instr R F} :
    mapBodies g (mapBodies h M) = mapBodies (fun n i => g n (h n i)) M := by
  simp [mapBodies, Function.mapBody, Function.comp_def]

theorem compile_eq [DecidableEq R] (hp : Plain M) (hm : M.RemovesSafely A) :
    compile A M = some (mapBodies (compileIn (stackOf A M) M) M) := by
  have hreplace : replaceLibCall (mapBodies (guardIn (stackOf A M)) M) = replaceLibCall M := by
    funext i
    cases i with
    | call dst callee args =>
      simp only [replaceLibCall, lookup_mapBodies]
      cases M.lookup callee <;> rfl
    | _ => rfl
  rw [compile, carmTransform_carmChecks hp hm, Option.map_some, carmLibcTransform, hreplace,
    mapBodies_mapBodies]
  refine congrArg (fun g => some (mapBodies g M)) (funext fun n => funext fun i => ?_)
  cases hskip : skipped n <;> simp [compileIn, guardIn, hskip]

-- ---------------------------------------------------------------------------
-- The library under its two names
-- ---------------------------------------------------------------------------

theorem carmCallee_eq_none {callee : String} (h : callee ∉ libFunctions) :
    carmCallee callee = none := by
  have hzero : fmap callee = 0 := if_neg h
  simp [carmCallee, replacementOf, hzero, tableOf]

theorem carmCallee_libFunctions : ∀ callee ∈ libFunctions, callee ≠ "mmap" →
    ∀ r ∈ carmCallee callee, carmFunctions.lookup r.name = cFunctions.lookup callee ∧
      ∀ fn ∈ cFunctions.lookup callee, r.operands = some fn.arity := by
  decide +kernel

theorem startFunctions_libFunctions : ∀ callee ∈ libFunctions, startFunctions.lookup callee = none ∧
    ∀ r ∈ carmCallee callee, startFunctions.lookup r.name = none := by
  decide +kernel

theorem carmCallee_cFunctions : ∀ e ∈ cFunctions, carmCallee e.1 ≠ none := by
  decide +kernel

theorem cFunctions_lookup {callee : String} (h : carmCallee callee = none) :
    cFunctions.lookup callee = none := by
  cases hl : cFunctions.lookup callee with
  | none => rfl
  | some fn =>
    obtain ⟨l₁, l₂, he, -⟩ := List.lookup_eq_some_iff.mp hl
    have hmem : (callee, fn) ∈ cFunctions :=
      he ▸ List.mem_append_right l₁ (List.mem_cons_self ..)
    exact absurd h (carmCallee_cFunctions _ hmem)

theorem carmCallee_undefined (hp : Plain M) {callee : String} (h : carmCallee callee = some r) :
    M.lookup r.name = none := by
  rw [carmCallee] at h
  split at h
  case isTrue =>
    cases h
    exact hp.undefined (.mallocs, ⟨carmMallocName, some 1, true⟩) (by decide +kernel)
  case isFalse =>
    obtain ⟨t, -, hl⟩ := Option.bind_eq_some_iff.mp h
    obtain ⟨l₁, l₂, he, -⟩ := List.lookup_eq_some_iff.mp hl
    exact hp.undefined (t, r) (he ▸ List.mem_append_right l₁ (List.mem_cons_self ..))

section
variable {V : Type} {W : Words F V} {cmdlist : CmdList V}

theorem LibFn.request_take {fn : LibFn} {vs : List V} :
    fn.request W (vs.take fn.arity) = fn.request W vs := by
  cases fn <;> rcases vs with _ | ⟨a, _ | ⟨b, _ | ⟨c, vs⟩⟩⟩ <;> rfl

theorem linkWith_congr {fns fns' : List (String × LibFn)} {callee : String} {vs : List V}
    (h : fns.lookup callee = fns'.lookup callee) :
    linkWith W cmdlist fns callee vs = linkWith W cmdlist fns' callee vs := by
  rw [linkWith, linkWith, h]

theorem replaceLibCall_link {callee : String} {vs : List V} (h : carmCallee callee = some r)
    (hm : callee ≠ "mmap") :
    linkWith W cmdlist cFunctions callee vs =
      linkWith W cmdlist carmFunctions r.name (match r.operands with
        | some n => vs.take n
        | none => vs) := by
  have hlib : callee ∈ libFunctions := by
    by_contra hlib
    rw [carmCallee_eq_none hlib] at h
    cases h
  obtain ⟨hstart, hstart'⟩ := startFunctions_libFunctions callee hlib
  obtain ⟨hsame, harity⟩ := carmCallee_libFunctions callee hlib hm r h
  simp only [linkWith, hstart, hstart' r h, hsame]
  cases hl : cFunctions.lookup callee with
  | none => rfl
  | some fn =>
    rw [harity fn hl]
    exact congrArg (Option.map Linked.request) LibFn.request_take.symm

theorem compileIn_alike (hp : Plain M) {n : String} (hi : PlainInstr M i) :
    Alike (fun n ptr => skipped n || stack n ptr) (fun _ _ => true)
      (fun n => linkWith W cmdlist (if skipped n then [] else cFunctions))
      (fun _ => linkWith W cmdlist carmFunctions) M n i (compileIn stack M n i) := by
  cases hskip : skipped n with
  | true =>
    have hsame : compileIn stack M n i = i := if_pos hskip
    rw [hsame]
    cases i with
    | op dst f args => exact .op
    | alloca dst size => exact .alloca
    | load dst ptr len => exact .load (by simp [hskip])
    | store value ptr len => exact .store (by simp [hskip])
    | check ptr => cases hi
    | guardedLoad dst ptr len => cases hi
    | guardedStore value ptr len => cases hi
    | call dst callee args =>
      cases hl : M.lookup callee with
      | some f => exact .call hl
      | none =>
        refine .libCall hl hl fun regs => ?_
        rw [if_pos hskip]
        exact linkWith_congr (hi hl).1.symm
  | false =>
    have hcomp : compileIn stack M n i = replaceLibCall M (guardInstr (stack n) i) :=
      if_neg (by simp [hskip])
    rw [hcomp]
    cases i with
    | op dst f args => exact .op
    | alloca dst size => exact .alloca
    | load dst ptr len =>
      cases hs : stack n ptr with
      | true =>
        rw [guardInstr, if_pos hs]
        exact .load (by simp [hs])
      | false =>
        rw [guardInstr, if_neg (by simp [hs])]
        exact .guardLoad (by simp [hskip, hs])
    | store value ptr len =>
      cases hs : stack n ptr with
      | true =>
        rw [guardInstr, if_pos hs]
        exact .store (by simp [hs])
      | false =>
        rw [guardInstr, if_neg (by simp [hs])]
        exact .guardStore (by simp [hskip, hs])
    | check ptr => cases hi
    | guardedLoad dst ptr len => cases hi
    | guardedStore value ptr len => cases hi
    | call dst callee args =>
      cases hl : M.lookup callee with
      | some f =>
        simp only [guardInstr, replaceLibCall, hl]
        exact .call hl
      | none =>
        obtain ⟨hcarm, hm, -⟩ := hi hl
        cases hr : carmCallee callee with
        | none =>
          simp only [guardInstr, replaceLibCall, hl, hr]
          refine .libCall hl hl fun regs => ?_
          rw [if_neg (by simp [hskip])]
          exact linkWith_congr ((cFunctions_lookup hr).trans hcarm.symm)
        | some r =>
          simp only [guardInstr, replaceLibCall, hl, hr]
          refine .libCall hl (carmCallee_undefined hp hr) fun regs => ?_
          rw [if_neg (by simp [hskip]), replaceLibCall_link hr hm]
          cases r.operands <;> simp [List.map_take]

theorem compile_mimics [DecidableEq R] (hp : Plain M) (hm : M.RemovesSafely A)
    (hc : compile A M = some M') :
    Mimics (compiledRun W cmdlist M') (sourceRun W cmdlist (stackOf A M) M)
      (·.mapBodies (compileIn (stackOf A M) M)) (Config.Each fun _ => PlainInstr M) := by
  obtain rfl := Option.some.inj ((compile_eq hp hm).symm.trans hc)
  exact mapBodies_mimics hp.instr fun n i hi => compileIn_alike hp hi

end

-- ---------------------------------------------------------------------------
-- Guarded or not
-- ---------------------------------------------------------------------------

section
variable {V : Type} {W : Words F V} {cmdlist : CmdList V}

theorem onTop_ne_call {below : List (Activation R F V)} {result : Option V}
    {act : Option (Activation R F V)} : onTop below result act ≠ .call o k := by
  cases act <;> nofun

variable [DecidableEq R]

inductive Bare : Request → Nat → Nat → Prop
  | load : Bare (.load false a n) a n
  | store : Bare (.store false a bs) a bs.length

theorem bare_load {g : Bool} : Bare (.load g a len) x n ↔ g = false ∧ x = a ∧ n = len := by
  constructor
  · rintro ⟨⟩
    exact ⟨rfl, rfl, rfl⟩
  · rintro ⟨rfl, rfl, rfl⟩
    exact .load

theorem bare_store {g : Bool} {bs : List UInt8} :
    Bare (.store g a bs) x n ↔ g = false ∧ x = a ∧ n = bs.length := by
  constructor
  · rintro ⟨⟩
    exact ⟨rfl, rfl, rfl⟩
  · rintro ⟨rfl, rfl, rfl⟩
    exact .store

inductive Guards : Request → Request → Prop
  | same : Guards o o
  | load {g : Bool} : Guards (.load g a n) (.load true a n)
  | store {g : Bool} : Guards (.store g a bs) (.store true a bs)

theorem Guards.call {T : Contract} {y y' : Flat} (h : Guards o o') (hc : Flat.Call T y o a y') :
    Flat.Call T y o' a y' := by
  cases h with
  | same => exact hc
  | load =>
    cases hc
    exact .load
  | store =>
    cases hc
    exact .store

theorem exec_guards {raw : String → R → Bool} {link : String → Link V} {a : Activation R F V}
    {below : List (Activation R F V)} {result : Option V} :
    (exec W raw link M a below result i).Like Guards
      (exec W (fun _ _ => false) link M a below result i) := by
  cases i with
  | load dst ptr n => exact .call .load
  | store value ptr n => exact .call .store
  | op => exact .silent
  | alloca => exact .silent
  | check => exact .silent
  | guardedLoad => exact .call .same
  | guardedStore => exact .call .same
  | call dst callee args =>
    rw [exec, exec]
    split
    case h_1 f hf =>
      cases f.activate callee (fun _ => W.undef) (args.map a.regs) a.sp dst with
      | none => exact .halt
      | some a' => exact .silent
    case h_2 =>
      split
      · exact .call .same
      · exact .silent
      · exact .halt

theorem sourceRun_guards (s : Config R F V) :
    (sourceRun W cmdlist stack M s).Like Guards (plainRun W cmdlist M s) := by
  obtain ⟨_ | ⟨a, below⟩, result⟩ := s
  · exact .halt
  cases hrest : a.rest with
  | nil =>
    rw [sourceRun, plainRun, run_leave hrest, run_leave hrest]
    cases leave W a below result with
    | halt => exact .halt
    | silent s => exact .silent
    | call o k => exact .call .same
  | cons i rest =>
    rw [sourceRun, plainRun, run_exec hrest, run_exec hrest]
    exact exec_guards

theorem LibFn.request_not_bare {fn : LibFn} {vs : List V} (h : fn.request W vs = some o) :
    ¬Bare o x n := by
  rcases vs with _ | ⟨a, _ | ⟨b, _ | ⟨c, vs⟩⟩⟩ <;> cases fn <;> cases h <;> nofun

theorem linkWith_not_bare {fns : List (String × LibFn)} {callee : String} {vs : List V}
    (h : linkWith W cmdlist fns callee vs = some (.request o)) : ¬Bare o x n := by
  rw [linkWith] at h
  split at h
  case h_1 => cases h
  case h_2 =>
    obtain ⟨fn, -, hreq⟩ := Option.bind_eq_some_iff.mp h
    obtain ⟨o', ho, hsame⟩ := Option.map_eq_some_iff.mp hreq
    cases hsame
    exact LibFn.request_not_bare ho

theorem leave_ne_call {a : Activation R F V} {below : List (Activation R F V)}
    {result : Option V} : leave W a below result ≠ .call o k := by
  rw [leave]
  cases a.term with
  | br target => exact onTop_ne_call
  | condBr cond yes no => exact onTop_ne_call
  | ret value =>
    intro h
    cases h

/-- An access that is not guarded is one through a pointer that is not to be. -/
theorem sourceRun_bare {s : Config R F V} (hs : sourceRun W cmdlist stack M s = .call o k)
    (hbare : Bare o x n) : ∃ a below i rest ptr, s.stack = a :: below ∧ a.rest = i :: rest ∧
      i.access = some (ptr, n) ∧ (skipped a.name || stack a.name ptr) = true ∧
      x = W.address (a.regs ptr) := by
  obtain ⟨_ | ⟨a, below⟩, result⟩ := s
  · cases hs
  cases hrest : a.rest with
  | nil =>
    rw [sourceRun, run_leave hrest] at hs
    exact absurd hs leave_ne_call
  | cons i rest =>
    rw [sourceRun, run_exec hrest] at hs
    refine ⟨a, below, i, rest, ?_⟩
    cases i with
    | load dst ptr len =>
      obtain ⟨rfl, -⟩ := Move.call.inj hs
      obtain ⟨hraw, rfl, rfl⟩ := bare_load.mp hbare
      exact ⟨ptr, rfl, hrest, rfl, (Bool.not_eq_false' _).mp hraw, rfl⟩
    | store value ptr len =>
      obtain ⟨rfl, -⟩ := Move.call.inj hs
      obtain ⟨hraw, rfl, rfl⟩ := bare_store.mp hbare
      exact ⟨ptr, rfl, hrest, by rw [W.bytes_length]; rfl, (Bool.not_eq_false' _).mp hraw, rfl⟩
    | op => cases hs
    | alloca => cases hs
    | check => cases hs
    | guardedLoad =>
      obtain ⟨rfl, -⟩ := Move.call.inj hs
      cases hbare
    | guardedStore =>
      obtain ⟨rfl, -⟩ := Move.call.inj hs
      cases hbare
    | call dst callee args =>
      rw [exec] at hs
      split at hs
      case h_1 => exact absurd hs onTop_ne_call
      case h_2 =>
        split at hs
        case h_1 o' ho =>
          obtain ⟨rfl, -⟩ := Move.call.inj hs
          exact absurd hbare (linkWith_not_bare ho)
        case h_2 => cases hs
        case h_3 => cases hs

theorem Bare.allowed {T : Contract} {y : Flat} (h : Bare o x n) (hl : Flat.Local T x n) :
    Flat.Allowed T y o := by
  cases h <;> exact hl

/-- A program that keeps to the contract keeps to it where checks of stack pointers are
left out. -/
theorem Behaves.safe {loc : Nat → Prop} {own : String → R → Prop} {s₀ : Config R F V}
    {mem : Lib.Mem UInt8} (hb : Behaves W cmdlist loc own M s₀ mem)
    (hown : ∀ n ptr, (skipped n || stack n ptr) = true → own n ptr) :
    Safe (sourceRun W cmdlist stack M) (flat (contract loc)) (Flat.Allowed (contract loc)) s₀
      (Flat.start mem) := by
  intro s y out hr o k hs
  obtain ⟨out', hplain⟩ := hr.like sourceRun_guards fun _ _ _ _ _ => Guards.call
  have hbare : ∀ x n, Bare o x n → Flat.Allowed (contract loc) y o := fun x n h => by
    obtain ⟨a, below, i, rest, ptr, hstack, hrest, hi, hraw, rfl⟩ := sourceRun_bare hs h
    exact h.allowed (hb.own s y out' hplain a below i rest ptr n hstack hrest hi (hown _ _ hraw))
  have hlike : (sourceRun W cmdlist stack M s).Like Guards (plainRun W cmdlist M s) :=
    sourceRun_guards s
  rw [hs] at hlike
  cases hp : plainRun W cmdlist M s <;> rw [hp] at hlike <;> cases hlike
  case call hguards =>
    have hallowed := hb.allowed s y out' hplain _ _ hp
    cases hguards with
    | same => exact hallowed
    | @load x n g =>
      cases g with
      | false => exact hbare _ _ .load
      | true => exact hallowed
    | @store x bs g =>
      cases g with
      | false => exact hbare _ _ .store
      | true => exact hallowed

theorem own_of_stackOf (hm : M.RemovesSafely A) {n : String} {ptr : R}
    (h : (skipped n || stackOf A M n ptr) = true) : Own A M n ptr := by
  rcases Bool.or_eq_true_iff.mp h with hskip | hs
  · exact .inl hskip
  · by_cases hskip : skipped n = true
    · exact .inl hskip
    · rw [stackOf] at hs
      split at hs
      case h_1 stack hstack =>
        obtain ⟨f, hf, hfs⟩ := Option.bind_eq_some_iff.mp hstack
        obtain ⟨l₁, l₂, hM, -⟩ := List.lookup_eq_some_iff.mp hf
        have hsafe := hm (n, f) (hM ▸ List.mem_append_right l₁ (List.mem_cons_self ..))
          (Bool.eq_false_iff.mpr hskip)
        exact .inr ⟨f, hf, hsafe.onStack hfs hs⟩
      case h_2 => cases hs

end

-- ---------------------------------------------------------------------------
-- Compiled modules on the runtime
-- ---------------------------------------------------------------------------

section
variable {V : Type} {W : Words F V} {cmdlist : CmdList V} [DecidableEq R] {main : String}
  {args : List V} {sp : Nat}

theorem begin_mapBodies {g : String → Instr R F → Instr R F} :
    begin W (mapBodies g M) main args sp = (begin W M main args sp).mapBodies g := by
  simp only [begin, lookup_mapBodies]
  cases hl : M.lookup main with
  | none => rfl
  | some f =>
    simp only [Option.map_some, Option.bind_some, Function.activate_mapBody]
    cases f.activate main (fun _ => W.undef) args sp none <;> rfl

theorem begin_each {P : String → Instr R F → Prop} (hM : Module.Each P M) :
    Config.Each P (begin W M main args sp) := by
  intro a ha
  obtain ⟨f, hl, hact⟩ := Option.bind_eq_some_iff.mp (Option.mem_toList.mp ha)
  exact (hM.lookup hl).activate hact

variable {m : Manager} {loc : Nat → Prop} {mem : Lib.Mem UInt8} {ptrs : Nat → Option Nat}

theorem compiled_runs (hloc : OffCache m loc) (hp : Plain M) (hm : M.RemovesSafely A)
    (hc : compile A M = some M')
    (hsafe : Safe (sourceRun W cmdlist (stackOf A M) M) (flat (contract loc))
      (Flat.Allowed (contract loc)) (begin W M main args sp) (Flat.start mem))
    (hr : Runs (compiledRun W cmdlist M') (runtime m) (begin W M' main args sp)
      (init ptrs mem).heap t h out) :
    (∃ s y, Runs (sourceRun W cmdlist (stackOf A M) M) (flat (contract loc))
        (begin W M main args sp) (Flat.start mem) s y out ∧ s.result = t.result ∧
      (compiledRun W cmdlist M' t = .halt → sourceRun W cmdlist (stackOf A M) M s = .halt) ∧
      ∀ a, Flat.Known (contract loc) y a → h.view m a = y.mem a) ∧
    ∀ o k, compiledRun W cmdlist M' t = .call o k → ∃ h' a, serve m h o = .ok (h', a) := by
  have hmim : Mimics (compiledRun W cmdlist M') (sourceRun W cmdlist (stackOf A M) M) _ _ :=
    compile_mimics hp hm hc
  obtain rfl := Option.some.inj ((compile_eq hp hm).symm.trans hc)
  rw [begin_mapBodies] at hr
  obtain ⟨s, rfl, hs, hsrc⟩ := hmim.runs (begin_each hp.instr) hr
  obtain ⟨y, hflat, hshows⟩ := (runtime_implements hloc).runs hsafe (shows_init hloc) hsrc
  refine ⟨⟨s, y, hflat, rfl, hmim.halts hs, fun _ => hshows.agrees hloc⟩, fun o k ho => ?_⟩
  obtain ⟨k', hreq⟩ := hmim.request hs ho
  obtain ⟨a, h', hserve⟩ := (runtime_implements hloc).answered hsafe (shows_init hloc) hsrc hreq
  exact ⟨h', a, hserve⟩

/-- A plain module that keeps to the contract, of which carm_checks deletes checks of
stack pointers only, is compiled; and whatever the compiled module does on the
runtime, with objects evacuated at any time, the module does on a flat memory, with
the same result. -/
theorem compile_preserves (hloc : OffCache m loc) (hp : Plain M) (hm : M.RemovesSafely A)
    (hb : Behaves W cmdlist loc (Own A M) M (begin W M main args sp) mem) :
    ∃ M', compile A M = some M' ∧ ∀ t h out,
      Runs (compiledRun W cmdlist M') (runtime m) (begin W M' main args sp) (init ptrs mem).heap
        t h out →
      (∃ s y, Runs (sourceRun W cmdlist (stackOf A M) M) (flat (contract loc))
          (begin W M main args sp) (Flat.start mem) s y out ∧ s.result = t.result ∧
        (compiledRun W cmdlist M' t = .halt → sourceRun W cmdlist (stackOf A M) M s = .halt) ∧
        ∀ a, Flat.Known (contract loc) y a → h.view m a = y.mem a) ∧
      ∀ o k, compiledRun W cmdlist M' t = .call o k → ∃ h' a, serve m h o = .ok (h', a) :=
  have hsafe := hb.safe fun _ _ => own_of_stackOf hm
  ⟨_, compile_eq hp hm, fun _ _ _ hr => compiled_runs hloc hp hm (compile_eq hp hm) hsafe hr⟩

end

end

def natWords : Words Unit Nat where
  undef := 0
  eval _ _ := 0
  truth v := v ≠ 0
  address v := v
  int v := v
  ofAddress a := a
  ofOrder _ := 0
  ofBytes bs := (bs.headD 0).toNat
  bytes n v := List.replicate n (UInt8.ofNat v)
  bytes_length _ _ := List.length_replicate

def natAnalysis : Analysis Nat Unit where
  kind _ := .constant
  isMustAlias _ r r' := r = r'

/-- `s = alloca; *s = argc; p = malloc(argc); *p = argc; return *p` -/
def mallocBody : List (Instr Nat Unit) :=
  [.alloca 4 8, .store 0 4 1, .call (some 1) "malloc" [0], .store 0 1 1, .load 2 1 1]

def mallocFn : Function Nat Unit := ⟨[0, 3], [⟨[], mallocBody, .ret (some 2)⟩]⟩

def mallocMain : Module Nat Unit := [("main", mallocFn)]

theorem mallocMain_plain : Plain mallocMain where
  names := List.nodup_singleton _
  instr := by
    have hmalloc : PlainInstr mallocMain (.call (some 1) "malloc" [0]) := fun _ => by
      decide +kernel
    rintro e he b hb i hi
    obtain rfl := List.mem_singleton.mp he
    obtain rfl := List.mem_singleton.mp hb
    simp only [mallocBody, List.mem_cons, List.not_mem_nil, or_false] at hi
    rcases hi with rfl | rfl | rfl | rfl | rfl
    · trivial
    · trivial
    · exact hmalloc
    · trivial
    · trivial
  undefined := by decide +kernel

theorem aliasCorrect_nat {f : Function Nat Unit} {name : String} (h : f.Ordered natAnalysis)
    (hdefs : ∀ v s, f.alias natAnalysis name h v s = true → v = s) :
    Func.AliasCorrect (f.alias natAnalysis name h) := by
  intro v s hvs t ht
  rwa [← hdefs v s hvs]

theorem mallocFn_ordered : mallocFn.Ordered natAnalysis := by
  decide

theorem mallocMain_removesSafely : mallocMain.RemovesSafely natAnalysis := by
  intro e he _
  obtain rfl := List.mem_singleton.mp he
  exact Function.removesSafely_of_noPhi mallocFn_ordered
    (aliasCorrect_nat mallocFn_ordered (by decide)) (by decide)

def mainStack (a : Nat) : Prop := 56 ≤ a ∧ a < 64

theorem mainStack_offCache : OffCache cacheManager mainStack := by
  intro a ha
  have hstart : startAddr = 2 ^ 60 := rfl
  have hlo : cacheManager.lo = 1 <<< 46 := rfl
  rw [mainStack] at ha
  omega

def mallocMainAt (rest : List (Instr Nat Unit)) (regs : Nat → Nat) (sp : Nat) :
    Config Nat Unit Nat :=
  ⟨[⟨"main", mallocFn, 0, rest, .ret (some 2), regs, sp, none⟩], none⟩

inductive MallocMain (y : Flat) : Config Nat Unit Nat → Prop
  | start : y.used = 0 → regs 0 = 16 → MallocMain y (mallocMainAt mallocBody regs 64)
  | pushed : y.used = 0 → regs 0 = 16 → regs 4 = 56 →
      MallocMain y (mallocMainAt (mallocBody.drop 1) regs 56)
  | spilled : y.used = 0 → regs 0 = 16 → MallocMain y (mallocMainAt (mallocBody.drop 2) regs 56)
  | allocated : ⟨regs 1, 16⟩ ∈ y.extents → MallocMain y (mallocMainAt (mallocBody.drop 3) regs 56)
  | stored : ⟨regs 1, 16⟩ ∈ y.extents → MallocMain y (mallocMainAt (mallocBody.drop 4) regs 56)
  | loaded : MallocMain y (mallocMainAt [] regs 56)
  | returned : MallocMain y ⟨[], v⟩

theorem mallocMain_call : plainRun natWords ⟨16, 0⟩ mallocMain
      (mallocMainAt (mallocBody.drop 2) regs 56) = .call (.malloc (regs 0)) fun ans =>
    mallocMainAt (mallocBody.drop 3) (Function.update regs 1 (natWords.ofAnswer ans)) 56 := by
  have hskip : skipped "main" = false := by decide +kernel
  have hlookup : mallocMain.lookup "malloc" = none := rfl
  have hlink : linkWith natWords ⟨16, 0⟩ cFunctions "malloc" [regs 0] =
      some (.request (.malloc (regs 0))) := rfl
  rw [plainRun, mallocMainAt, run_exec rfl]
  simp only [exec, hlookup, hskip, List.map_cons, List.map_nil, Bool.false_eq_true, if_false, hlink]
  rfl

section
variable {y : Flat} {s : Config Nat Unit Nat}

theorem MallocMain.silent (hJ : MallocMain y s)
    (hs : plainRun natWords ⟨16, 0⟩ mallocMain s = .silent s') : MallocMain y s' := by
  cases hJ with
  | start h₀ h₁ =>
    cases hs
    exact .pushed h₀ h₁ rfl
  | pushed => cases hs
  | spilled => cases mallocMain_call.symm.trans hs
  | allocated => cases hs
  | stored => cases hs
  | loaded =>
    cases hs
    exact .returned
  | returned => cases hs

theorem mainStack_local (h : x = 56) : Flat.Local (contract mainStack) x 1 where
  pos := Nat.one_pos
  loc j hj := show 56 ≤ x + j ∧ x + j < 64 by omega

theorem MallocMain.called (hJ : MallocMain y s)
    (hs : plainRun natWords ⟨16, 0⟩ mallocMain s = .call o k) :
    Flat.Allowed (contract mainStack) y o ∧
      ∀ a y', Flat.Call (contract mainStack) y o a y' → MallocMain y' (k a) := by
  cases hJ with
  | start => cases hs
  | pushed h₀ h₁ h₂ =>
    cases hs
    refine ⟨.loc (mainStack_local h₂), ?_⟩
    rintro a y' ⟨⟩
    exact .spilled h₀ h₁
  | spilled h₀ h₁ =>
    cases mallocMain_call.symm.trans hs
    refine ⟨?_, fun a y' hcall => ?_⟩
    · rw [Flat.Allowed, Flat.Fitted, h₀, h₁]
      exact show 0 + rounded 16 ≤ kWorkingSetSize by decide
    · cases hcall with
      | malloc _ => exact .allocated (h₁ ▸ List.mem_cons_self ..)
  | allocated h₀ =>
    cases hs
    refine ⟨.held Nat.one_pos ⟨_, h₀, Nat.le_refl _, Nat.le_add_right _ 15⟩
      (Nat.mod_lt _ (by decide)), ?_⟩
    rintro a y' ⟨⟩
    exact .stored h₀
  | stored h₀ =>
    cases hs
    refine ⟨.held Nat.one_pos ⟨_, h₀, Nat.le_refl _, Nat.le_add_right _ 15⟩
      (Nat.mod_lt _ (by decide)), ?_⟩
    rintro a y' ⟨⟩
    exact .loaded
  | loaded => cases hs
  | returned => cases hs

theorem mallocMain_behaves {own : String → Nat → Prop} (hown : ¬own "main" 1) :
    Behaves natWords ⟨16, 0⟩ mainStack own mallocMain
      (begin natWords mallocMain "main" [16, 0] 64) mem where
  allowed := .of_invariant (J := fun s y => MallocMain y s) (.start rfl rfl)
    (by
      rintro s y _ hJ rfl
      exact hJ)
    (fun s s' y hJ => hJ.silent) fun s y o k hJ => hJ.called
  own s y out hr a below i rest ptr n hstack hrest hi hptr := by
    have hJ : MallocMain y s := hr.invariant (J := fun s y => MallocMain y s) (.start rfl rfl)
      (by
        rintro s y _ hJ rfl
        exact hJ)
      (fun s s' y hJ => hJ.silent) fun s y o k hJ hs => (hJ.called hs).2
    cases hJ <;> cases hstack <;> cases hrest <;> cases hi
    case pushed h₂ => exact mainStack_local h₂
    all_goals exact absurd hptr hown

end

theorem mallocMain_heap : ¬Own natAnalysis mallocMain "main" 1 := by
  have hskip : skipped "main" = false := by decide +kernel
  rintro (h | ⟨f, hf, hstack⟩)
  · cases h.symm.trans hskip
  · obtain rfl := Option.some.inj hf
    exact Function.not_onStack_call mallocFn_ordered rfl hstack

theorem compile_preserves_malloc : ∃ M', compile natAnalysis mallocMain = some M' ∧ ∀ t h out,
    Runs (compiledRun natWords ⟨16, 0⟩ M') (runtime cacheManager)
        (begin natWords M' "main" [16, 0] 64) (init (fun _ => none) fun _ => 0).heap t h out →
      (∃ s y, Runs (sourceRun natWords ⟨16, 0⟩ (stackOf natAnalysis mallocMain) mallocMain)
          (flat (contract mainStack)) (begin natWords mallocMain "main" [16, 0] 64)
          (Flat.start fun _ => 0) s y out ∧ s.result = t.result ∧
        (compiledRun natWords ⟨16, 0⟩ M' t = .halt →
          sourceRun natWords ⟨16, 0⟩ (stackOf natAnalysis mallocMain) mallocMain s = .halt) ∧
        ∀ a, Flat.Known (contract mainStack) y a → h.view cacheManager a = y.mem a) ∧
      ∀ o k, compiledRun natWords ⟨16, 0⟩ M' t = .call o k →
        ∃ h' a, serve cacheManager h o = .ok (h', a) :=
  compile_preserves mainStack_offCache mallocMain_plain mallocMain_removesSafely
    (mallocMain_behaves mallocMain_heap)

end Ssa

end TrackFM
