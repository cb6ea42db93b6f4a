import TrackFM.Compiled

/-!
# How a program is started

The launcher of the runtime calls `do_work`. carm_init moves `main` there, behind
calls that initialise the runtime and ask for the arguments; a `do_work` that is
there already only gets the call that initialises. What the compiled `do_work` does
on the runtime the program does on a flat memory.
-/

namespace TrackFM

open Lib (Client Move Mimics Runs Safe Silently)

namespace Ssa

section
variable {R F : Type}

-- ---------------------------------------------------------------------------
-- carm_init
-- ---------------------------------------------------------------------------

def workName : String := "_Z7do_workPv"

def callInit : Instr R F := .call none "_Z17init_carm_runtimev" []

def Terminator.retVoid : Terminator R → Terminator R
  | .ret _ => .ret none
  | t => t

def BasicBlock.retVoid (b : BasicBlock R F) : BasicBlock R F := { b with term := b.term.retVoid }

/-- `clone_function`; the parameter of the clone has no name. -/
def Function.cloneWork (f : Function R F) : Function R F := ⟨[], f.blocks.map (·.retVoid)⟩

/-- Insert before the first instruction that is no PHI. -/
def Function.insertEntry (new : List (Instr R F)) (f : Function R F) : Option (Function R F) :=
  match f.blocks with
  | [] => none
  | b :: bs => some { f with blocks := { b with body := new ++ b.body } :: bs }

/-- `transform_main_function`; what the calls give takes the names of the
parameters it replaces. -/
def transformMain (f : Function R F) : Option (Function R F) :=
  match f.params with
  | argc :: argv :: _ =>
    ((f.insertEntry [.call (some argc) "_Z13get_arg_countv" [],
      .call (some argv) "_Z8get_argsv" []]).map (·.cloneWork)).bind (·.insertEntry [callInit])
  | _ => none

structure Constant (R F : Type) where
  name : R
  value : F

structure MainConstants (R F : Type) where
  null : Constant R F
  zero : Constant R F

def Constant.set (c : Constant R F) : Instr R F := .op c.name c.value []

def fakeMain (k : MainConstants R F) : Function R F :=
  ⟨[], [⟨[], [k.null.set, .call none workName [k.null.name], k.zero.set],
    .ret (some k.zero.name)⟩]⟩

def carmInit (k : MainConstants R F) (M : Module R F) : Option (Module R F) :=
  match M.lookup workName with
  | some f => (f.insertEntry [callInit]).map fun work =>
    M.map fun e => (e.1, if e.1 = workName then work else e.2)
  | none => ((M.lookup "main").bind transformMain).map fun work =>
    M.filter (·.1 ≠ "main") ++ [(workName, work), ("main", fakeMain k)]

-- ---------------------------------------------------------------------------
-- Programs
-- ---------------------------------------------------------------------------

def entry (M : Module R F) : String := if (M.lookup workName).isSome then workName else "main"

def launchName (M : Module R F) (name : String) : String := if name = entry M then workName else name

def entryArgs {V : Type} (cmdlist : CmdList V) (arg : V) (M : Module R F) : List V :=
  if (M.lookup workName).isSome then [arg] else [cmdlist.argCount, cmdlist.args]

def Terminator.Targets : Terminator R → Nat → Prop
  | .br target, n => n = target
  | .condBr _ yes no, n => n = yes ∨ n = no
  | .ret _, _ => False

def Uncalled : Instr R F → Prop
  | .call _ callee _ => callee ≠ "main" ∧ callee ≠ workName
  | _ => True

structure Launchable (M : Module R F) : Prop where
  plain : Plain M
  uncalled : Module.Each (fun _ => Uncalled) M
  undefined : ∀ e ∈ startFunctions, M.lookup e.1 = none
  /-- No branch leads to the entry block. -/
  entered : ∀ f, M.lookup (entry M) = some f → ∀ b ∈ f.blocks, ¬ b.term.Targets 0
  void : ∀ f, M.lookup workName = some f → ∀ b ∈ f.blocks, b.term.retVoid = b.term

-- ---------------------------------------------------------------------------
-- What carm_init comes to
-- ---------------------------------------------------------------------------

/-- `work` is `f` behind some instructions, and returns nothing. -/
def Behind (new : List (Instr R F)) (f work : Function R F) : Prop :=
  ∃ b bs, f.blocks = b :: bs ∧
    work.blocks = { b.retVoid with body := new ++ b.body } :: bs.map (·.retVoid)

variable {M M₁ : Module R F} {f work : Function R F} {new : List (Instr R F)}
  {k : MainConstants R F}

theorem insertEntry_behind (hvoid : ∀ b ∈ f.blocks, b.term.retVoid = b.term)
    (h : f.insertEntry new = some work) : Behind new f work ∧ work.params = f.params := by
  rw [Function.insertEntry] at h
  split at h
  case h_1 => cases h
  case h_2 b bs hblocks =>
    obtain rfl := Option.some.inj h
    rw [hblocks] at hvoid
    obtain ⟨hb, hbs⟩ := List.forall_mem_cons.mp hvoid
    have hsame : bs.map (·.retVoid) = bs := by
      refine (List.map_congr_left fun c hc => ?_).trans (List.map_id bs)
      rw [BasicBlock.retVoid, hbs c hc]
      rfl
    refine ⟨⟨b, bs, hblocks, ?_⟩, rfl⟩
    rw [hsame, BasicBlock.retVoid, hb]

theorem transformMain_behind (h : transformMain f = some work) :
    ∃ argc argv ps, f.params = argc :: argv :: ps ∧ work.params = [] ∧
      Behind [callInit, .call (some argc) "_Z13get_arg_countv" [],
        .call (some argv) "_Z8get_argsv" []] f work := by
  rw [transformMain] at h
  split at h
  case h_1 argc argv ps hparams =>
    refine ⟨argc, argv, ps, hparams, ?_⟩
    rw [Function.insertEntry] at h
    split at h
    case h_1 => cases h
    case h_2 b bs hblocks =>
      obtain rfl := Option.some.inj h
      exact ⟨rfl, b, bs, hblocks, rfl⟩
  case h_2 => cases h

/-- The program and what carm_init makes of it: other functions stay. -/
structure Launches (k : MainConstants R F) (M M₁ : Module R F) (f work : Function R F) : Prop where
  program : M.lookup (entry M) = some f
  started : M₁.lookup workName = some work
  others : ∀ n, n ≠ "main" → n ≠ workName → M₁.lookup n = M.lookup n
  mem : ∀ e ∈ M₁, e ∈ M ∨ e = (workName, work) ∨ e = ("main", fakeMain k)
  names : (M.map Prod.fst).Nodup → (M₁.map Prod.fst).Nodup

theorem lookup_replace {n : String} :
    List.lookup n (M.map fun e => (e.1, if e.1 = workName then work else e.2)) =
      (M.lookup n).map fun f => if n = workName then work else f := by
  induction M with
  | nil => rfl
  | cons e M ih =>
    rw [List.map_cons, List.lookup_cons, List.lookup_cons]
    cases he : n == e.1 with
    | true =>
      rw [eq_of_beq he]
      rfl
    | false => exact ih

theorem lookup_filter {n : String} (hn : n ≠ "main") :
    List.lookup n (M.filter (·.1 ≠ "main")) = M.lookup n := by
  induction M with
  | nil => rfl
  | cons e M ih =>
    rw [List.filter_cons, List.lookup_cons]
    cases he : n == e.1 with
    | true =>
      have hmain : e.1 ≠ "main" := eq_of_beq he ▸ hn
      rw [if_pos (decide_eq_true hmain), List.lookup_cons, he]
    | false =>
      split
      · rw [List.lookup_cons, he]
        exact ih
      · exact ih

theorem nodup_names (e e' : String × Function R F) (hne : e.1 ≠ e'.1) (he : M.lookup e.1 = none)
    (hM : (M.map Prod.fst).Nodup) :
    ((M.filter (·.1 ≠ e'.1) ++ [e, e']).map Prod.fst).Nodup := by
  rw [List.map_append, List.nodup_append]
  refine ⟨((List.filter_sublist).map Prod.fst).nodup hM, by simpa using hne, ?_⟩
  intro n hn n' hn'
  obtain ⟨d, hd, rfl⟩ := List.mem_map.mp hn
  obtain ⟨hdM, hdne⟩ := List.mem_filter.mp hd
  have hde : d.1 ≠ e.1 := fun h => by
    have hlookup := lookup_of_mem hM hdM
    rw [h, he] at hlookup
    cases hlookup
  rcases List.mem_cons.mp hn' with rfl | hn'
  · exact hde
  · obtain rfl := List.mem_singleton.mp hn'
    exact of_decide_eq_true hdne

theorem carmInit_launches (h : carmInit k M = some M₁) : ∃ f work, Launches k M M₁ f work ∧
    ((M.lookup workName = some f ∧ f.insertEntry [callInit] = some work) ∨
      (M.lookup workName = none ∧ transformMain f = some work)) := by
  rw [carmInit] at h
  split at h
  case h_1 f hf =>
    obtain ⟨work, hwork, rfl⟩ := Option.map_eq_some_iff.mp h
    refine ⟨f, work, ⟨?_, ?_, ?_, ?_, fun hM => ?_⟩, .inl ⟨hf, hwork⟩⟩
    · rw [entry, hf]
      exact hf
    · rw [lookup_replace, hf]
      exact congrArg some (if_pos rfl)
    · intro n _ hn
      simp [lookup_replace, hn]
    · intro e he
      obtain ⟨e', he', rfl⟩ := List.mem_map.mp he
      by_cases hname : e'.1 = workName
      · exact .inr (.inl (by rw [if_pos hname, hname]))
      · exact .inl (by rwa [if_neg hname])
    · rwa [List.map_map]
  case h_2 hnone =>
    obtain ⟨work, hwork, rfl⟩ := Option.map_eq_some_iff.mp h
    obtain ⟨f, hf, hmain⟩ := Option.bind_eq_some_iff.mp hwork
    refine ⟨f, work, ⟨?_, ?_, ?_, ?_, ?_⟩, .inr ⟨hnone, hmain⟩⟩
    · rw [entry, hnone]
      exact hf
    · rw [List.lookup_append, lookup_filter (by decide), hnone]
      rfl
    · intro n hmain hn
      rw [List.lookup_append, lookup_filter hmain, List.lookup_cons, beq_false_of_ne hn,
        List.lookup_cons, beq_false_of_ne hmain]
      exact Option.or_none
    · intro e he
      rcases List.mem_append.mp he with he | he
      · exact .inl (List.mem_filter.mp he).1
      · exact .inr (by simpa using he)
    · have hne : workName ≠ "main" := by decide
      exact nodup_names (workName, work) ("main", fakeMain k) hne hnone

-- ---------------------------------------------------------------------------
-- The program that is started is plain
-- ---------------------------------------------------------------------------

def Starts (i : Instr R F) : Prop := ∃ dst, ∃ e ∈ startFunctions, i = .call dst e.1 []

theorem startFunctions_names : ∀ e ∈ startFunctions, e.1 ≠ "main" ∧ e.1 ≠ workName ∧
    carmFunctions.lookup e.1 = none ∧ e.1 ≠ "mmap" ∧ e.1 ≠ "llvm.var.annotation" := by
  decide +kernel

theorem replacements_names : ∀ e ∈ replacements, e.2.name ≠ "main" ∧ e.2.name ≠ workName := by
  decide +kernel

theorem carmInit_behind (hl : Launchable M) (h : carmInit k M = some M₁) :
    ∃ f work new, Launches k M M₁ f work ∧ Behind new f work ∧ ∀ i ∈ new, Starts i := by
  have hinit : Starts (callInit : Instr R F) :=
    ⟨none, ("_Z17init_carm_runtimev", .initCarmRuntime), by simp [startFunctions], rfl⟩
  obtain ⟨f, work, hi, hcase⟩ := carmInit_launches h
  rcases hcase with ⟨hlookup, hins⟩ | ⟨-, htrans⟩
  · refine ⟨f, work, _, hi, (insertEntry_behind (hl.void f hlookup) hins).1, fun i hi' => ?_⟩
    obtain rfl := List.mem_singleton.mp hi'
    exact hinit
  · obtain ⟨argc, argv, ps, -, -, hb⟩ := transformMain_behind htrans
    refine ⟨f, work, _, hi, hb, List.forall_mem_cons.mpr ⟨hinit, ?_⟩⟩
    refine List.forall_mem_cons.mpr ⟨?_, List.forall_mem_singleton.mpr ?_⟩
    · exact ⟨some argc, ("_Z13get_arg_countv", .getArgCount), by simp [startFunctions], rfl⟩
    · exact ⟨some argv, ("_Z8get_argsv", .getArgs), by simp [startFunctions], rfl⟩

theorem Behind.each {P : Instr R F → Prop} (hb : Behind new f work) (hnew : ∀ i ∈ new, P i)
    (hf : f.Each P) : work.Each P := by
  obtain ⟨b, bs, hf', hwork⟩ := hb
  rw [Function.Each, hf'] at hf
  obtain ⟨hbody, hbs⟩ := List.forall_mem_cons.mp hf
  rw [Function.Each, hwork]
  refine List.forall_mem_cons.mpr ⟨?_, fun c hc => ?_⟩
  · exact List.forall_mem_append.mpr ⟨hnew, hbody⟩
  · obtain ⟨c', hc', rfl⟩ := List.mem_map.mp hc
    exact hbs c' hc'

theorem Launches.plainInstr (hi : Launches k M M₁ f work) {i : Instr R F} (hp : PlainInstr M i)
    (hu : Uncalled i) : PlainInstr M₁ i := by
  cases i with
  | call dst callee args =>
    intro hnone
    rw [hi.others callee hu.1 hu.2] at hnone
    exact hp hnone
  | check ptr => exact hp
  | guardedLoad dst ptr n => exact hp
  | guardedStore value ptr n => exact hp
  | op dst g args => trivial
  | alloca dst size => trivial
  | load dst ptr n => trivial
  | store value ptr n => trivial

theorem Launches.plain (hi : Launches k M M₁ f work) (hl : Launchable M) (hb : Behind new f work)
    (hnew : ∀ i ∈ new, Starts i) : Plain M₁ where
  names := hi.names hl.plain.names
  instr := by
    have hsame : ∀ e ∈ M, e.2.Each (PlainInstr M₁) := fun e he b hb i hb' =>
      hi.plainInstr (hl.plain.instr e he b hb i hb') (hl.uncalled e he b hb i hb')
    intro e he
    rcases hi.mem e he with he | rfl | rfl
    · exact hsame e he
    · refine hb.each (fun i hi' => ?_) ?_
      · obtain ⟨dst, e, he, rfl⟩ := hnew i hi'
        exact fun _ => (startFunctions_names e he).2.2
      · obtain ⟨l₁, l₂, hM, -⟩ := List.lookup_eq_some_iff.mp hi.program
        exact hsame (_, f) (hM ▸ List.mem_append_right l₁ (List.mem_cons_self ..))
    · intro b hb i hi'
      obtain rfl := List.mem_singleton.mp hb
      simp only [List.mem_cons, List.not_mem_nil, or_false] at hi'
      rcases hi' with rfl | rfl | rfl
      · trivial
      · exact fun hnone => absurd (hi.started.symm.trans hnone) (Option.some_ne_none work)
      · trivial
  undefined e he := by
    obtain ⟨hmain, hwork⟩ := replacements_names e he
    rw [hi.others _ hmain hwork]
    exact hl.plain.undefined e he

-- ---------------------------------------------------------------------------
-- Behind the calls
-- ---------------------------------------------------------------------------

section
variable {V : Type}

def Activation.launch (M : Module R F) (work : Function R F) (a : Activation R F V) :
    Activation R F V :=
  { a with
    name := launchName M a.name
    code := if a.name = entry M then work else a.code
    term := if a.name = entry M then a.term.retVoid else a.term }

def Config.launch (M : Module R F) (work : Function R F) (s : Config R F V) : Config R F V :=
  ⟨s.stack.map (·.launch M work), none⟩

/-- The program is the outermost call, and the only one of it. -/
inductive Launched (M : Module R F) (f : Function R F) : List (Activation R F V) → Prop
  | done : Launched M f []
  | work : a.name = entry M → a.code = f → ¬ a.term.Targets 0 → a.Each (fun _ => Uncalled) →
      Launched M f [a]
  | call : a.name ≠ entry M → a.Each (fun _ => Uncalled) → Launched M f (b :: below) →
      Launched M f (a :: b :: below)

variable {a a' : Activation R F V} {below : List (Activation R F V)} {i : Instr R F}

theorem entry_eq : entry M = "main" ∨ entry M = workName := by
  rw [entry]
  split
  · exact .inr rfl
  · exact .inl rfl

theorem Uncalled.ne_entry (hu : Uncalled (.call dst callee args : Instr R F)) :
    callee ≠ entry M := by
  rcases entry_eq (M := M) with h | h
  · exact h ▸ hu.1
  · exact h ▸ hu.2

theorem skipped_launchName {n : String} : skipped (launchName M n) = skipped n := by
  have hmain : skipped "main" = false := by decide +kernel
  have hwork : skipped workName = false := by decide +kernel
  rw [launchName]
  split
  case isTrue hn =>
    subst hn
    rcases entry_eq (M := M) with h | h
    · rw [h, hmain, hwork]
    · rw [h]
  case isFalse => rfl

theorem Launched.set (h : Launched M f (a :: below)) (hname : a'.name = a.name)
    (hcode : a'.code = a.code) (hterm : a'.term = a.term) (hrest : ∀ i ∈ a'.rest, i ∈ a.rest) :
    Launched M f (a' :: below) := by
  have heach : a.Each (fun _ => Uncalled) → a'.Each (fun _ => Uncalled) := fun ha =>
    ⟨fun b hb i hi => ha.code b (hcode ▸ hb) i hi, fun i hi => ha.rest i (hrest i hi)⟩
  cases h with
  | work h₁ h₂ h₃ h₄ => exact .work (hname.trans h₁) (hcode.trans h₂) (hterm ▸ h₃) (heach h₄)
  | call h₁ h₂ h₃ => exact .call (hname ▸ h₁) (heach h₂) h₃

theorem Launched.head (h : Launched M f (a :: below)) : a.Each (fun _ => Uncalled) := by
  cases h with
  | work _ _ _ h => exact h
  | call _ h _ => exact h

variable {result : Option V}

theorem onTop_launch {o : Option (Activation R F V)} :
    onTop (below.map (·.launch M work)) none (o.map (·.launch M work)) =
      (onTop below result o).map (·.launch M work) := by
  cases o <;> rfl

theorem onTop_launched {o : Option (Activation R F V)}
    (ho : ∀ a, o = some a → Launched M f (a :: below)) :
    (onTop below result o).Leads fun s => Launched M f s.stack := by
  cases o with
  | none => trivial
  | some a => exact ho a rfl

variable [DecidableEq R] {W : Words F V} {raw : String → R → Bool} {link : String → Link V}

theorem activate_launch {g : Function R F} {regs : R → V} (hn : n ≠ entry M) :
    (g.activate n regs args sp dst).map (·.launch M work) = g.activate n regs args sp dst := by
  simp only [Function.activate, Option.map_map]
  refine congrFun (congrArg Option.map (funext fun b => ?_)) _
  simp only [Function.comp_apply, Activation.launch, launchName, if_neg hn]

theorem exec_launch (hi : Launches k M M₁ f work) (hu : Uncalled i) :
    exec W raw link M₁ (a.launch M work) (below.map (·.launch M work)) none i =
      (exec W (fun n => raw (launchName M n)) (fun n => link (launchName M n)) M a below result
        i).map (·.launch M work) := by
  cases i with
  | op => rfl
  | alloca => rfl
  | load => rfl
  | store => rfl
  | check => rfl
  | guardedLoad => rfl
  | guardedStore => rfl
  | call dst callee args =>
    simp only [exec, hi.others callee hu.1 hu.2]
    cases M.lookup callee with
    | some g =>
      dsimp only
      rw [← onTop_launch, activate_launch hu.ne_entry]
      rfl
    | none =>
      have hsame : link (a.launch M work).name callee (args.map (a.launch M work).regs) =
        link (launchName M a.name) callee (args.map a.regs) := rfl
      dsimp only
      rw [hsame]
      split <;> rfl

theorem goTo_launch (hb : Behind new f work)
    (ha : a.name = entry M → a.code = f ∧ target ≠ 0) :
    (a.launch M work).goTo target = (a.goTo target).map (·.launch M work) := by
  by_cases hn : a.name = entry M
  · obtain ⟨hcode, htarget⟩ := ha hn
    obtain ⟨b, bs, hf, hwork⟩ := hb
    obtain ⟨k, rfl⟩ := Nat.exists_eq_succ_of_ne_zero htarget
    simp only [Activation.goTo, Activation.launch, hn, if_true, hcode, hwork, hf,
      List.getElem?_cons_succ, List.getElem?_map, Option.map_map, Function.comp_def]
    rfl
  · simp only [Activation.goTo, Activation.launch, hn, if_false, Option.map_map,
      Function.comp_def]

theorem leave_launch (hb : Behind new f work) (ha : Launched M f (a :: below)) :
    leave W (a.launch M work) (below.map (·.launch M work)) none =
      (leave W a below result).map (·.launch M work) := by
  cases ha with
  | work hname hcode hterm _ =>
    have hgo : ∀ target, a.term.Targets target →
        (a.launch M work).goTo target = (a.goTo target).map (·.launch M work) := fun target h =>
      goTo_launch hb fun _ => ⟨hcode, fun h₀ => hterm (h₀ ▸ h)⟩
    have hterm' : (a.launch M work).term = a.term.retVoid := if_pos hname
    have hregs : (a.launch M work).regs = a.regs := rfl
    simp only [leave, hterm', hregs]
    cases ht : a.term with
    | br target =>
      have htarget : a.term.Targets target := ht ▸ rfl
      exact (congrArg (onTop _ none) (hgo target htarget)).trans onTop_launch
    | condBr cond yes no =>
      have htarget : a.term.Targets (if W.truth (a.regs cond) then yes else no) := by
        rw [ht, Terminator.Targets]
        split <;> simp
      exact (congrArg (onTop _ none) (hgo _ htarget)).trans onTop_launch
    | ret value => rfl
  | @call _ b below hname _ _ =>
    have hgo : ∀ target,
        (a.launch M work).goTo target = (a.goTo target).map (·.launch M work) := fun target =>
      goTo_launch hb fun h => absurd h hname
    have hterm' : (a.launch M work).term = a.term := if_neg hname
    have hregs : (a.launch M work).regs = a.regs := rfl
    simp only [leave, hterm', hregs, hgo]
    cases a.term with
    | br target => exact onTop_launch
    | condBr cond yes no => exact onTop_launch
    | ret value => rfl

theorem Launchable.goTo (hl : Launchable M) (hf : M.lookup (entry M) = some f)
    (h : Launched M f (a :: below)) (hgo : a.goTo target = some a') :
    Launched M f (a' :: below) := by
  obtain ⟨b, hb, rfl⟩ := Option.map_eq_some_iff.mp hgo
  cases h with
  | work hname hcode hterm heach =>
    have hmem := List.mem_of_getElem? hb
    exact .work hname hcode (hl.entered f hf b (hcode ▸ hmem)) ⟨heach.code, heach.code b hmem⟩
  | call hname heach h => exact .call hname ⟨heach.code, heach.code b (List.mem_of_getElem? hb)⟩ h

theorem exec_launched (hl : Launchable M) (hu : Uncalled i) (h : Launched M f (a :: below)) :
    (exec W raw link M a below result i).Leads fun s => Launched M f s.stack := by
  have hset : ∀ regs sp, Launched M f ({ a with regs := regs, sp := sp } :: below) := fun _ _ =>
    h.set rfl rfl rfl fun _ => id
  cases i with
  | op => exact hset _ _
  | alloca => exact hset _ _
  | load => exact fun _ => hset _ _
  | store => exact fun _ => h
  | check => exact h
  | guardedLoad => exact fun _ => hset _ _
  | guardedStore => exact fun _ => h
  | call dst callee args =>
    rw [exec]
    split
    case h_1 g hg =>
      refine onTop_launched fun a' ha' => .call ?_ ((hl.uncalled.lookup hg).activate ha') h
      obtain ⟨b, -, rfl⟩ := Option.map_eq_some_iff.mp ha'
      exact hu.ne_entry
    case h_2 =>
      split
      · exact fun _ => hset _ _
      · exact hset _ _
      · trivial

theorem leave_launched (hl : Launchable M) (hf : M.lookup (entry M) = some f)
    (h : Launched M f (a :: below)) :
    (leave W a below result).Leads fun s => Launched M f s.stack := by
  rw [leave]
  cases a.term with
  | br target => exact onTop_launched fun a' ha' => hl.goTo hf h ha'
  | condBr cond yes no => exact onTop_launched fun a' ha' => hl.goTo hf h ha'
  | ret value =>
    cases h with
    | work => exact .done
    | call _ _ h => exact h.set rfl rfl rfl fun _ => id

/-- The program behind the calls of the launcher does what it did. -/
theorem launch_mimics (hl : Launchable M) (hi : Launches k M M₁ f work) (hb : Behind new f work) :
    Mimics (run W raw link M₁)
      (run W (fun n => raw (launchName M n)) (fun n => link (launchName M n)) M)
      (·.launch M work) fun s => Launched M f s.stack where
  move := by
    rintro ⟨_ | ⟨a, below⟩, result⟩ hs
    · rfl
    cases hrest : a.rest with
    | nil =>
      rw [run_leave hrest, ← leave_launch hb hs]
      exact run_leave hrest
    | cons i rest =>
      have hu : Uncalled i := hs.head.rest i (hrest ▸ List.mem_cons_self ..)
      rw [run_exec hrest, ← exec_launch hi hu]
      exact run_exec (a := a.launch M work) hrest
  leads := by
    rintro ⟨_ | ⟨a, below⟩, result⟩ hs
    · trivial
    cases hrest : a.rest with
    | nil =>
      rw [run_leave hrest]
      exact leave_launched hl hi.program hs
    | cons i rest =>
      have hu : Uncalled i := hs.head.rest i (hrest ▸ List.mem_cons_self ..)
      rw [run_exec hrest]
      exact exec_launched hl hu (hs.set rfl rfl rfl fun _ h => hrest ▸ List.mem_cons_of_mem _ h)

end

-- ---------------------------------------------------------------------------
-- The calls of the launcher
-- ---------------------------------------------------------------------------

section
variable {V : Type}

def workAt (work : Function R F) (term : Terminator R) (sp : Nat) (rest : List (Instr R F))
    (regs : R → V) : Config R F V :=
  ⟨[{ name := workName, code := work, block := 0, rest := rest, term := term, regs := regs, sp := sp
      dst := none }], none⟩

variable [DecidableEq R] {W : Words F V} {cmdlist : CmdList V} {raw : String → R → Bool}
  {fns : String → List (String × LibFn)} {term : Terminator R} {rest : List (Instr R F)}
  {regs : R → V} {stack : String → R → Bool}

theorem workAt_start (hM : M.lookup callee = none) (hs : startFunctions.lookup callee = some start) :
    run W raw (fun n => linkWith W cmdlist (fns n)) M
        (workAt work term sp (.call dst callee [] :: rest) regs) =
      .silent (workAt work term sp rest (setTo regs dst (start.value W cmdlist))) := by
  rw [workAt, run_exec rfl]
  simp only [exec, hM, linkWith, hs]
  rfl

theorem begin_work {b : BasicBlock R F} (hi : M₁.lookup workName = some work)
    (hb : work.blocks = { b.retVoid with body := new ++ b.body } :: bs) :
    begin W M₁ workName args sp = workAt work b.term.retVoid sp (new ++ b.body)
      ((work.params.zip args).foldl (fun acc p => Function.update acc p.1 p.2) fun _ => W.undef) := by
  simp only [begin, hi, Option.bind_some, Function.activate, hb]
  rfl

theorem begin_program (hf : M.lookup (entry M) = some f) (hb : f.blocks = b :: bs) :
    (begin W M (entry M) args sp).launch M work = workAt work b.term.retVoid sp b.body
      ((f.params.zip args).foldl (fun acc p => Function.update acc p.1 p.2) fun _ => W.undef) := by
  simp only [begin, hf, Option.bind_some, Function.activate, hb, Config.launch, workAt]
  simp [Activation.launch, launchName]

theorem begin_launched (hl : Launchable M) (hf : M.lookup (entry M) = some f) :
    Launched M f (begin W M (entry M) args sp).stack := by
  simp only [begin, hf, Option.bind_some, Function.activate]
  cases hb : f.blocks[0]? with
  | none => exact .done
  | some b =>
    have hmem : b ∈ f.blocks := List.mem_of_getElem? hb
    exact .work rfl rfl (hl.entered f hf b hmem)
      ⟨hl.uncalled.lookup hf, hl.uncalled.lookup hf b hmem⟩

theorem begin_silently (hl : Launchable M) (h : carmInit k M = some M₁)
    (hwork : M₁.lookup workName = some work) :
    Silently (sourceRun W cmdlist stack M₁) (begin W M₁ workName [arg] sp)
      ((begin W M (entry M) (entryArgs cmdlist arg M) sp).launch M work) := by
  obtain ⟨f, work', hi, hcase⟩ := carmInit_launches h
  obtain rfl := Option.some.inj (hi.started.symm.trans hwork)
  have hnone : ∀ e ∈ startFunctions, M₁.lookup e.1 = none := fun e he =>
    (hi.others _ (startFunctions_names e he).1 (startFunctions_names e he).2.1).trans
      (hl.undefined e he)
  have hinit : M₁.lookup "_Z17init_carm_runtimev" = none :=
    hnone (_, .initCarmRuntime) (by simp [startFunctions])
  rw [sourceRun]
  rcases hcase with ⟨hlookup, hins⟩ | ⟨hlookup, htrans⟩
  · obtain ⟨⟨b, bs, hf, hb⟩, hparams⟩ := insertEntry_behind (hl.void f hlookup) hins
    have hargs : entryArgs cmdlist arg M = [arg] := if_pos (by rw [hlookup]; rfl)
    rw [begin_work hi.started hb, begin_program hi.program hf, hargs, hparams]
    exact .single (workAt_start hinit rfl)
  · obtain ⟨argc, argv, ps, hf', hparams, b, bs, hf, hb⟩ := transformMain_behind htrans
    have hargs : entryArgs cmdlist arg M = [cmdlist.argCount, cmdlist.args] :=
      if_neg (by rw [hlookup]; exact Bool.false_ne_true)
    have hcount : M₁.lookup "_Z13get_arg_countv" = none :=
      hnone (_, .getArgCount) (by simp [startFunctions])
    have hget : M₁.lookup "_Z8get_argsv" = none := hnone (_, .getArgs) (by simp [startFunctions])
    rw [begin_work hi.started hb, begin_program hi.program hf, hargs, hparams, hf',
      List.zip_cons_cons, List.zip_cons_cons, List.zip_nil_right]
    exact .head (workAt_start hinit rfl)
      (.head (workAt_start hcount rfl) (.single (workAt_start hget rfl)))

theorem launch_sourceRun (hl : Launchable M) (hi : Launches k M M₁ f work) (hb : Behind new f work) :
    Mimics (sourceRun W cmdlist stack M₁) (sourceRun W cmdlist (fun n => stack (launchName M n)) M)
      (·.launch M work) fun s => Launched M f s.stack := by
  have hsource : sourceRun W cmdlist (fun n => stack (launchName M n)) M =
      run W (fun n ptr => skipped (launchName M n) || stack (launchName M n) ptr)
        (fun n => linkWith W cmdlist (if skipped (launchName M n) then [] else cFunctions)) M := by
    simp only [skipped_launchName]
    rfl
  rw [hsource]
  exact launch_mimics hl hi hb

end

-- ---------------------------------------------------------------------------
-- From `main` to a compiled `do_work` on the runtime
-- ---------------------------------------------------------------------------

section
variable {V : Type} [DecidableEq R] {W : Words F V} {cmdlist : CmdList V} {A : Analysis R F}
  {stack : String → R → Bool} {arg : V} {sp : Nat} {m : Manager} {loc : Nat → Prop}
  {mem : Lib.Mem UInt8} {ptrs : Nat → Option Nat}

theorem launch_runs {N : Lib.Service Request Answer σ} (hl : Launchable M)
    (h : carmInit k M = some M₁)
    (hr : Runs (sourceRun W cmdlist stack M₁) N (begin W M₁ workName [arg] sp) x₀ t x out) :
    ∃ s, Runs (sourceRun W cmdlist (fun n => stack (launchName M n)) M) N
        (begin W M (entry M) (entryArgs cmdlist arg M) sp) x₀ s x out ∧
      (sourceRun W cmdlist stack M₁ t = .halt →
        sourceRun W cmdlist (fun n => stack (launchName M n)) M s = .halt) ∧
      ∀ o k, sourceRun W cmdlist stack M₁ t = .call o k →
        ∃ k', sourceRun W cmdlist (fun n => stack (launchName M n)) M s = .call o k' := by
  obtain ⟨f, work, new, hi, hb, -⟩ := carmInit_behind hl h
  obtain ⟨t', ht, hrun⟩ := hr.past (begin_silently hl h hi.started)
  have hmim : Mimics (sourceRun W cmdlist stack M₁) _ _ _ := launch_sourceRun hl hi hb
  obtain ⟨s, rfl, hs, hrun⟩ := hmim.runs (begin_launched hl hi.program) hrun
  refine ⟨s, hrun, fun hhalt => hmim.halts hs ?_, fun o k hcall => hmim.request (k := k) hs ?_⟩
  · exact ht.eq_of_halt hhalt ▸ hhalt
  · exact ht.eq_of_call hcall ▸ hcall

/-- carm_init gives a module that is compiled, where carm_checks deletes checks of stack
pointers only; and what the compiled `do_work` does on the runtime the program does on
a flat memory, called with the arguments the launcher keeps, if it keeps to the
contract. -/
theorem launch_preserves (hloc : OffCache m loc) (hl : Launchable M)
    (hi : carmInit k M = some M₁) (hm : M₁.RemovesSafely A)
    (hb : Behaves W cmdlist loc (fun n => Own A M₁ (launchName M n)) M
      (begin W M (entry M) (entryArgs cmdlist arg M) sp) mem) :
    ∃ M', compile A M₁ = some M' ∧ ∀ t h out,
      Runs (compiledRun W cmdlist M') (runtime m) (begin W M' workName [arg] sp)
        (init ptrs mem).heap t h out →
      (∃ s y, Runs (sourceRun W cmdlist (fun n => stackOf A M₁ (launchName M n)) M)
          (flat (contract loc)) (begin W M (entry M) (entryArgs cmdlist arg M) sp)
          (Flat.start mem) s y out ∧
        (compiledRun W cmdlist M' t = .halt →
          sourceRun W cmdlist (fun n => stackOf A M₁ (launchName M n)) M s = .halt) ∧
        ∀ a, Flat.Known (contract loc) y a → h.view m a = y.mem a) ∧
      ∀ o k, compiledRun W cmdlist M' t = .call o k → ∃ h' a, serve m h o = .ok (h', a) := by
  obtain ⟨f, work, new, hlaunch, hbehind, hnew⟩ := carmInit_behind hl hi
  have hp : Plain M₁ := hlaunch.plain hl hbehind hnew
  have hsafe : Safe (sourceRun W cmdlist (fun n => stackOf A M₁ (launchName M n)) M)
      (flat (contract loc)) (Flat.Allowed (contract loc))
      (begin W M (entry M) (entryArgs cmdlist arg M) sp) (Flat.start mem) :=
    hb.safe fun n ptr h => own_of_stackOf hm (by rwa [skipped_launchName])
  have hsafe₁ : Safe (sourceRun W cmdlist (stackOf A M₁) M₁) (flat (contract loc))
      (Flat.Allowed (contract loc)) (begin W M₁ workName [arg] sp) (Flat.start mem) := by
    intro t y out hr o k hcall
    obtain ⟨s, hrun, -, hreq⟩ := launch_runs hl hi hr
    obtain ⟨k', hs⟩ := hreq o k hcall
    exact hsafe s y out hrun o k' hs
  refine ⟨_, compile_eq hp hm, fun t h out hr => ?_⟩
  obtain ⟨⟨s₁, y, hrun₁, -, hhalt₁, hagree⟩, hanswer⟩ :=
    compiled_runs hloc hp hm (compile_eq hp hm) hsafe₁ hr
  obtain ⟨s, hrun, hhalt, -⟩ := launch_runs hl hi hrun₁
  exact ⟨⟨s, y, hrun, fun h => hhalt (hhalt₁ h), hagree⟩, hanswer⟩

end

end

theorem mallocMain_launchable : Launchable mallocMain where
  plain := mallocMain_plain
  uncalled := by
    rintro e he b hb i hi
    obtain rfl := List.mem_singleton.mp he
    obtain rfl := List.mem_singleton.mp hb
    simp only [mallocBody, List.mem_cons, List.not_mem_nil, or_false] at hi
    rcases hi with rfl | rfl | rfl | rfl | rfl
    · trivial
    · trivial
    · exact show _ ∧ _ by decide
    · trivial
    · trivial
  undefined := by decide +kernel
  entered f hf b hb := by
    obtain rfl := Option.some.inj hf
    obtain rfl := List.mem_singleton.mp hb
    exact id
  void f hf := by cases hf

def natConstants : MainConstants Nat Unit := ⟨⟨0, ()⟩, ⟨1, ()⟩⟩

def mallocWorkFn : Function Nat Unit :=
  ⟨[], [⟨[], callInit :: .call (some 0) "_Z13get_arg_countv" [] ::
    .call (some 3) "_Z8get_argsv" [] :: mallocBody, .ret none⟩]⟩

def mallocWork : Module Nat Unit := [(workName, mallocWorkFn), ("main", fakeMain natConstants)]

theorem mallocWorkFn_ordered : mallocWorkFn.Ordered natAnalysis := by
  decide

theorem fakeMain_ordered : (fakeMain natConstants).Ordered natAnalysis := by
  decide

theorem mallocWork_removesSafely : mallocWork.RemovesSafely natAnalysis := by
  intro e he _
  rcases List.mem_cons.mp he with rfl | he
  · exact Function.removesSafely_of_noPhi mallocWorkFn_ordered
      (aliasCorrect_nat mallocWorkFn_ordered (by decide)) (by decide)
  · obtain rfl := List.mem_singleton.mp he
    exact Function.removesSafely_of_noPhi fakeMain_ordered
      (aliasCorrect_nat fakeMain_ordered (by decide)) (by decide)

theorem mallocWork_heap : ¬Own natAnalysis mallocWork (launchName mallocMain "main") 1 := by
  have hskip : skipped workName = false := by decide +kernel
  have hname : launchName mallocMain "main" = workName := rfl
  rw [hname]
  rintro (h | ⟨f, hf, hstack⟩)
  · cases h.symm.trans hskip
  · obtain rfl := Option.some.inj hf
    exact Function.not_onStack_call mallocWorkFn_ordered rfl hstack

theorem launch_preserves_malloc : ∃ M', compile natAnalysis mallocWork = some M' ∧ ∀ t h out,
    Runs (compiledRun natWords ⟨16, 0⟩ M') (runtime cacheManager)
        (begin natWords M' workName [5] 64) (init (fun _ => none) fun _ => 0).heap t h out →
      (∃ s y, Runs (sourceRun natWords ⟨16, 0⟩
            (fun n => stackOf natAnalysis mallocWork (launchName mallocMain n)) mallocMain)
          (flat (contract mainStack)) (begin natWords mallocMain "main" [16, 0] 64)
          (Flat.start fun _ => 0) s y out ∧
        (compiledRun natWords ⟨16, 0⟩ M' t = .halt → sourceRun natWords ⟨16, 0⟩
            (fun n => stackOf natAnalysis mallocWork (launchName mallocMain n)) mallocMain s =
              .halt) ∧
        ∀ a, Flat.Known (contract mainStack) y a → h.view cacheManager a = y.mem a) ∧
      ∀ o k, compiledRun natWords ⟨16, 0⟩ M' t = .call o k →
        ∃ h' a, serve cacheManager h o = .ok (h', a) :=
  launch_preserves mainStack_offCache mallocMain_launchable
    (show carmInit natConstants mallocMain = some mallocWork from rfl) mallocWork_removesSafely
    (mallocMain_behaves mallocWork_heap)

end Ssa

end TrackFM
