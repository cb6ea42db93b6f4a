import Mathlib.Data.List.Infix
import Mathlib.Data.List.Nodup
import TrackFM.Lib.Latch

/-!
# The local_malloc annotation

`parse_lib_functions` of the libc transform pass sorts the instructions of a
function by the libc function they call. A `malloc` becomes local when one flag
is set, which a `local_malloc` annotation sets and the next `malloc` clears: the
annotation reaches its own allocation exactly if no other call of the allocator
comes in between.
-/

namespace TrackFM

open Lib (Latched not_latched_zero latched_append latched_concat)

-- ---------------------------------------------------------------------------
-- What the pass sees of a function
-- ---------------------------------------------------------------------------

/-- An operand of a call. A string is named by the GEP of its first character,
as an instruction or folded to a constant; `none` is a GEP of something else. -/
inductive CallOperand where
  | var (v : Nat)
  | gep (text : Option (List Char))
  | constantGep (text : Option (List Char))
  | other
  deriving DecidableEq, Repr

/-- `empty` holds of a declaration. -/
structure Callee where
  name : String
  empty : Bool
  deriving DecidableEq, Repr

/-- `result` is the variable the result goes to, `callee` is null in an indirect
call. -/
structure LibCall where
  invoke : Bool
  callee : Option Callee
  operands : List CallOperand
  result : Option Nat
  deriving DecidableEq, Repr

inductive Instruction where
  | alloca
  | getElementPtr
  | load
  | store
  | call (c : LibCall)
  | other
  deriving DecidableEq, Repr

/-- The tables of the pass for one function, but for `instructions`. -/
inductive CallTable where
  | allocas | geps | loads | stores
  | mallocs | localMallocs | frees | callocs | reallocs
  | carmFunctions | carmLoopFunctions
  | memcpy | memcmp | memset | llvmiMemcpy | llvmiMemove | llvmiMemset | wmemcpy | wmemcmp
  | strcmp | strlen | memchr | wmemchr | strcpys | strncpys | strdups | strtols | strtouls
  | fwrites | freads | fopen | fclose | reads
  | snprintf | sprintf | vsnprintf | vsprintf | sscanf | vfprintf | fprintfs
  deriving DecidableEq, Repr

def libFunctions : List String :=
  ["Not supported", "malloc", "mmap", "_Znwm", "_Znam", "_Znaj", "_Znwj", "free", "_ZdlPv",
    "_Z10carm_derefPv", "memcpy", "memmove", "memcmp", "llvm.memcpy.p0i8.p0i8.i64", "memset",
    "llvm.memmove.p0i8.p0i8.i64", "llvm.memset.p0i8.i64", "calloc", "realloc", "wmemcpy",
    "wmemcmp", "wmemmove", "strcmp", "strlen", "memchr", "wmemchr", "fwrite", "fread", "strcpy",
    "strncpy", "snprintf", "sprintf", "vsnprintf", "vsprintf", "_ZdaPv", "sscanf", "fopen",
    "vfprintf", "fclose", "carm_deref_loop", "strdup", "llvm.var.annotation", "read", "strtol",
    "strtoul", "fprintf"]

/-- `fmap` as `init_fmap` leaves it; a name that is not there is entered with 0. -/
def fmap (name : String) : Nat :=
  if name ∈ libFunctions then libFunctions.idxOf name else 0

def localMalloc : List Char := "local_malloc".toList

-- ---------------------------------------------------------------------------
-- The walk
-- ---------------------------------------------------------------------------

/-- `count` instructions are walked; the tables hold their positions. -/
structure ParsedCalls where
  count : Nat
  tables : CallTable → List Nat
  localMalloc : Bool

namespace ParsedCalls

variable {p : ParsedCalls} {c : LibCall}

def push (p : ParsedCalls) (t : CallTable) : ParsedCalls :=
  { p with tables := Function.update p.tables t (p.tables t ++ [p.count]) }

end ParsedCalls

def tableOf : Nat → Option CallTable
  | 7 => some .frees
  | 9 => some .carmFunctions
  | 10 | 11 => some .memcpy
  | 12 => some .memcmp
  | 13 => some .llvmiMemcpy
  | 14 => some .memset
  | 15 => some .llvmiMemove
  | 16 => some .llvmiMemset
  | 17 => some .callocs
  | 18 => some .reallocs
  | 19 => some .wmemcpy
  | 20 => some .wmemcmp
  | 21 => some .wmemcpy
  | 22 => some .strcmp
  | 23 => some .strlen
  | 24 => some .memchr
  | 25 => some .wmemchr
  | 26 => some .fwrites
  | 27 => some .freads
  | 28 => some .strcpys
  | 29 => some .strncpys
  | 30 => some .snprintf
  | 31 => some .sprintf
  | 32 => some .vsnprintf
  | 33 => some .vsprintf
  | 35 => some .sscanf
  | 36 => some .fopen
  | 37 => some .vfprintf
  | 38 => some .fclose
  | 39 => some .carmLoopFunctions
  | 40 => some .strdups
  | 42 => some .reads
  | 43 => some .strtols
  | 44 => some .strtouls
  | 45 => some .fprintfs
  | _ => none

def LibCall.annotation (c : LibCall) : Option (List Char) :=
  match c.invoke, (c.operands[1]? : Option CallOperand) with
  | false, some (.gep text) => text
  | _, _ => none

def parseLibCall (p : ParsedCalls) (c : LibCall) (val : Nat) : ParsedCalls :=
  if val = 1 ∨ val = 2 then
    if p.localMalloc then { p.push .localMallocs with localMalloc := false } else p.push .mallocs
  else if val = 41 then
    match c.annotation with
    | some text => if localMalloc <:+: text then { p with localMalloc := true } else p
    | none => p
  else match tableOf val with
    | some t => p.push t
    | none => p

def parseInstruction (p : ParsedCalls) (ins : Instruction) : ParsedCalls :=
  let parsed := match ins with
    | .alloca => p.push .allocas
    | .getElementPtr => p.push .geps
    | .load => p.push .loads
    | .store => p.push .stores
    | .call c =>
      match c.callee with
      | some fp => if fp.empty then parseLibCall p c (fmap fp.name) else p
      | none => p
    | .other => p
  { parsed with count := p.count + 1 }

/-- A function is the list of its blocks. -/
def parseLibFunctions (f : List (List Instruction)) : ParsedCalls :=
  f.foldl (fun p block => block.foldl parseInstruction p) ⟨0, fun _ => [], false⟩

-- ---------------------------------------------------------------------------
-- The mallocs
-- ---------------------------------------------------------------------------

def carmMallocName : String := "_Z18carm_remote_mallocm"

def carmLocalMallocName : String := "_Z17carm_local_mallocm"

/-- The call of `name` before an invoke's branch to its normal destination. -/
def replaceCall (name : String) : Instruction → List Instruction
  | .call c =>
    .call ⟨false, some ⟨name, true⟩, c.operands.take 1, c.result⟩ ::
      if c.invoke then [.other] else []
  | ins => [ins]

/-- Entry `k` of `f` is what instruction `k` has become. -/
def replaceCalls (name : String) (table : List Nat) (f : List (List Instruction)) :
    List (List Instruction) :=
  f.mapIdx fun k is => if k ∈ table then is.flatMap (replaceCall name) else is

def transformMallocFunctions (p : ParsedCalls) (f : List (List Instruction)) :
    List (List Instruction) :=
  replaceCalls carmMallocName (p.tables .mallocs) f

def transformLocalMallocFunctions (p : ParsedCalls) (f : List (List Instruction)) :
    List (List Instruction) :=
  replaceCalls carmLocalMallocName (p.tables .localMallocs) f

def transformMallocs (f : List (List Instruction)) : List (List Instruction) :=
  transformLocalMallocFunctions (parseLibFunctions f)
    (transformMallocFunctions (parseLibFunctions f) (f.flatten.map fun ins => [ins]))

-- ---------------------------------------------------------------------------
-- What the walk finds
-- ---------------------------------------------------------------------------

namespace Instruction

def Calls (ins : Instruction) (name : String) : Prop :=
  ∃ c, ins = .call c ∧ c.callee = some ⟨name, true⟩

def Allocates (ins : Instruction) : Prop :=
  ins.Calls "malloc" ∨ ins.Calls "mmap"

def Readable (ins : Instruction) : Prop :=
  ∃ c text, ins = .call c ∧ c.callee = some ⟨"llvm.var.annotation", true⟩ ∧
    c.annotation = some text ∧ localMalloc <:+: text

end Instruction

def Pending (f : List Instruction) (k : Nat) : Prop :=
  Latched Instruction.Readable Instruction.Allocates f k

section Walk

variable {p : ParsedCalls} {c : LibCall} {ins : Instruction} {l : List Instruction}
  {f : List (List Instruction)} {name : String} {n k : Nat}

theorem fmap_eq_iff (hn : n ≠ 0) : fmap name = n ↔ libFunctions[n]? = some name := by
  have hnodup : libFunctions.Nodup := by decide +kernel
  constructor
  · intro h
    by_cases hm : name ∈ libFunctions
    · rw [fmap, if_pos hm] at h
      have hlt : libFunctions.idxOf name < libFunctions.length := List.idxOf_lt_length_of_mem hm
      rw [← h, List.getElem?_eq_getElem hlt, List.getElem_idxOf]
    · rw [fmap, if_neg hm] at h
      exact absurd h.symm hn
  · intro h
    obtain ⟨hlt, rfl⟩ := List.getElem?_eq_some_iff.mp h
    rw [fmap, if_pos (List.getElem_mem hlt)]
    exact hnodup.idxOf_getElem n hlt

theorem fmap_one : fmap name = 1 ↔ name = "malloc" := by
  rw [fmap_eq_iff (by decide)]
  exact ⟨fun h => (Option.some.inj h).symm, fun h => congrArg some h.symm⟩

theorem fmap_two : fmap name = 2 ↔ name = "mmap" := by
  rw [fmap_eq_iff (by decide)]
  exact ⟨fun h => (Option.some.inj h).symm, fun h => congrArg some h.symm⟩

theorem fmap_annotation : fmap name = 41 ↔ name = "llvm.var.annotation" := by
  rw [fmap_eq_iff (by decide)]
  exact ⟨fun h => (Option.some.inj h).symm, fun h => congrArg some h.symm⟩

theorem push_tables_self (t : CallTable) : (p.push t).tables t = p.tables t ++ [p.count] :=
  Function.update_self t _ _

theorem push_tables_of_ne {t u : CallTable} (h : u ≠ t) : (p.push t).tables u = p.tables u :=
  Function.update_of_ne h _ _

/-- What a step keeps that neither sets nor takes the flag. -/
structure Passed (p p' : ParsedCalls) : Prop where
  count : p'.count = p.count
  flag : p'.localMalloc = p.localMalloc
  locals : p'.tables .localMallocs = p.tables .localMallocs
  mallocs : p'.tables .mallocs = p.tables .mallocs

theorem Passed.refl : Passed p p := ⟨rfl, rfl, rfl, rfl⟩

theorem Passed.push {t : CallTable} (h₁ : .localMallocs ≠ t) (h₂ : .mallocs ≠ t) :
    Passed p (p.push t) :=
  ⟨rfl, rfl, push_tables_of_ne h₁, push_tables_of_ne h₂⟩

theorem tableOf_ne {t : CallTable} (h : tableOf n = some t) :
    .localMallocs ≠ t ∧ .mallocs ≠ t := by
  unfold tableOf at h
  split at h <;> first | (obtain rfl := Option.some.inj h; decide) | exact nomatch h

theorem parseLibCall_allocator (hn : n = 1 ∨ n = 2) :
    parseLibCall p c n =
      { p.push (if p.localMalloc then .localMallocs else .mallocs) with localMalloc := false } := by
  rw [parseLibCall, if_pos hn]
  cases h : p.localMalloc with
  | true => rfl
  | false => simp [ParsedCalls.push, h]

theorem parseLibCall_other (hn : ¬ (n = 1 ∨ n = 2)) (h₄₁ : n ≠ 41) :
    Passed p (parseLibCall p c n) := by
  rw [parseLibCall, if_neg hn, if_neg h₄₁]
  split
  case h_1 t ht => exact .push (tableOf_ne ht).1 (tableOf_ne ht).2
  case h_2 => exact .refl

theorem parseInstruction_call {c : LibCall} {fp : Callee} (hc : c.callee = some fp)
    (he : fp.empty = true) :
    parseInstruction p (.call c) =
      { parseLibCall p c (fmap fp.name) with count := p.count + 1 } := by
  simp [parseInstruction, hc, he]

theorem parseInstruction_allocates (ha : ins.Allocates) :
    parseInstruction p ins =
      { p.push (if p.localMalloc then .localMallocs else .mallocs) with
        localMalloc := false, count := p.count + 1 } := by
  obtain ⟨c, rfl, hc⟩ | ⟨c, rfl, hc⟩ := ha
  · rw [parseInstruction_call hc rfl, parseLibCall_allocator (.inl (fmap_one.mpr rfl))]
  · rw [parseInstruction_call hc rfl, parseLibCall_allocator (.inr (fmap_two.mpr rfl))]

theorem parseInstruction_readable (hr : ins.Readable) :
    parseInstruction p ins = { p with localMalloc := true, count := p.count + 1 } := by
  obtain ⟨c, text, rfl, hc, ht, hs⟩ := hr
  rw [parseInstruction_call hc rfl, fmap_annotation.mpr rfl]
  simp [parseLibCall, ht, hs]

theorem parseInstruction_other (ha : ¬ ins.Allocates) (hr : ¬ ins.Readable) :
    Passed { p with count := p.count + 1 } (parseInstruction p ins) := by
  suffices h : ∃ p', Passed p p' ∧ parseInstruction p ins = { p' with count := p.count + 1 } by
    obtain ⟨p', h, he⟩ := h
    exact he ▸ ⟨rfl, h.flag, h.locals, h.mallocs⟩
  cases ins with
  | alloca => exact ⟨p.push .allocas, .push (by decide) (by decide), rfl⟩
  | getElementPtr => exact ⟨p.push .geps, .push (by decide) (by decide), rfl⟩
  | load => exact ⟨p.push .loads, .push (by decide) (by decide), rfl⟩
  | store => exact ⟨p.push .stores, .push (by decide) (by decide), rfl⟩
  | other => exact ⟨p, .refl, rfl⟩
  | call c =>
    cases hc : c.callee with
    | none => exact ⟨p, .refl, by simp [parseInstruction, hc]⟩
    | some fp =>
      obtain ⟨name, empty⟩ := fp
      cases empty with
      | false => exact ⟨p, .refl, by simp [parseInstruction, hc]⟩
      | true =>
        refine ⟨_, ?_, parseInstruction_call hc rfl⟩
        have hn : ¬ (fmap name = 1 ∨ fmap name = 2) := by
          rintro (h | h)
          · exact ha (.inl ⟨c, rfl, fmap_one.mp h ▸ hc⟩)
          · exact ha (.inr ⟨c, rfl, fmap_two.mp h ▸ hc⟩)
        by_cases h₄₁ : fmap name = 41
        · have hq : parseLibCall p c (fmap name) = p := by
            rw [parseLibCall, if_neg hn, if_pos h₄₁]
            split
            case h_1 text ht =>
              have hs : ¬ localMalloc <:+: text := fun hs =>
                hr ⟨c, text, rfl, fmap_annotation.mp h₄₁ ▸ hc, ht, hs⟩
              rw [if_neg hs]
            case h_2 => rfl
          exact hq.symm ▸ .refl
        · exact parseLibCall_other hn h₄₁

theorem not_allocates_of_readable (hr : ins.Readable) : ¬ ins.Allocates := by
  obtain ⟨c, -, rfl, hc, -⟩ := hr
  rintro (⟨_, he, h⟩ | ⟨_, he, h⟩) <;>
    · obtain rfl := Instruction.call.inj he
      rw [hc] at h
      simp at h

def AllocatorAt (f : List Instruction) (k : Nat) : Prop :=
  ∃ ins ∈ f[k]?, ins.Allocates

/-- `P` is `id` or `Not`: the entry goes to one table or the other. -/
theorem allocatorAt_concat (P : Prop → Prop) :
    AllocatorAt (l ++ [ins]) k ∧ P (Pending (l ++ [ins]) k) ↔
      (AllocatorAt l k ∧ P (Pending l k)) ∨
        (k = l.length ∧ ins.Allocates ∧ P (Pending l l.length)) := by
  rcases Nat.lt_trichotomy k l.length with hk | rfl | hk
  · have hp : Pending (l ++ [ins]) k ↔ Pending l k := latched_append (Nat.le_of_lt hk)
    rw [hp]
    simp [AllocatorAt, List.getElem?_append_left hk, Nat.ne_of_lt hk]
  · have hp : Pending (l ++ [ins]) l.length ↔ Pending l l.length := latched_append (Nat.le_refl _)
    rw [hp]
    simp [AllocatorAt]
  · have hl : l[k]? = none := List.getElem?_eq_none (Nat.le_of_lt hk)
    have hl' : (l ++ [ins])[k]? = none := List.getElem?_eq_none (by simp; omega)
    simp [AllocatorAt, hl, hl', Nat.ne_of_gt hk]

/-- The flag and the two tables after the instructions of `l`. -/
structure Parsed (l : List Instruction) (p : ParsedCalls) : Prop where
  count : p.count = l.length
  flag : p.localMalloc = true ↔ Pending l l.length
  locals : ∀ k, k ∈ p.tables .localMallocs ↔ AllocatorAt l k ∧ id (Pending l k)
  mallocs : ∀ k, k ∈ p.tables .mallocs ↔ AllocatorAt l k ∧ ¬ Pending l k

theorem Parsed.step (h : Parsed l p) : Parsed (l ++ [ins]) (parseInstruction p ins) := by
  have hcount : p.count + 1 = (l ++ [ins]).length := by simp [h.count]
  have hflag : Pending (l ++ [ins]) (l ++ [ins]).length ↔
      ins.Readable ∨ (Pending l l.length ∧ ¬ ins.Allocates) := by
    rw [List.length_append]
    exact latched_concat
  by_cases ha : ins.Allocates
  · have hr : ¬ ins.Readable := fun hr => not_allocates_of_readable hr ha
    rw [parseInstruction_allocates ha]
    refine ⟨hcount, by rw [hflag]; simp [ha, hr], fun k => ?_, fun k => ?_⟩
    · rw [allocatorAt_concat id, ← h.locals]
      cases hl : p.localMalloc with
      | true => simp [push_tables_self, ha, h.count, h.flag.mp hl]
      | false =>
        have hp : ¬ Pending l l.length := fun hp => by simp [h.flag.mpr hp] at hl
        simp [push_tables_of_ne (show CallTable.localMallocs ≠ .mallocs by decide), hp]
    · rw [allocatorAt_concat Not, ← h.mallocs]
      cases hl : p.localMalloc with
      | true =>
        simp [push_tables_of_ne (show CallTable.mallocs ≠ .localMallocs by decide),
          h.flag.mp hl]
      | false =>
        have hp : ¬ Pending l l.length := fun hp => by simp [h.flag.mpr hp] at hl
        simp [push_tables_self, ha, h.count, hp]
  · have hold : ∀ (P : Prop → Prop) (k : Nat),
        AllocatorAt (l ++ [ins]) k ∧ P (Pending (l ++ [ins]) k) ↔
          AllocatorAt l k ∧ P (Pending l k) := fun P k => by
      rw [allocatorAt_concat P]
      simp [ha]
    by_cases hr : ins.Readable
    · rw [parseInstruction_readable hr]
      refine ⟨hcount, by rw [hflag]; simp [hr], fun k => ?_, fun k => ?_⟩
      · rw [hold id, ← h.locals]
      · rw [hold Not, ← h.mallocs]
    · have hp := parseInstruction_other (p := p) ha hr
      refine ⟨hp.count.trans hcount, ?_, fun k => ?_, fun k => ?_⟩
      · rw [hp.flag, hflag]
        simpa [ha, hr] using h.flag
      · rw [hp.locals, hold id, ← h.locals]
      · rw [hp.mallocs, hold Not, ← h.mallocs]

theorem parsed_parseLibFunctions (f : List (List Instruction)) :
    Parsed f.flatten (parseLibFunctions f) := by
  rw [parseLibFunctions, ← List.foldl_flatten]
  induction f.flatten using List.reverseRecOn with
  | nil =>
    have hp : ∀ k, ¬ AllocatorAt [] k := fun k h => by simp [AllocatorAt] at h
    exact ⟨rfl, by simp [Pending, not_latched_zero], fun k => by simp [hp], fun k => by simp [hp]⟩
  | append_singleton l ins ih =>
    rw [List.foldl_append]
    exact ih.step

end Walk

-- ---------------------------------------------------------------------------
-- Annotated variables
-- ---------------------------------------------------------------------------

section Annotated

variable {f : List (List Instruction)} {l : List Instruction} {i j k v : Nat} {r : Option Nat}

def AnnotatedAt (f : List Instruction) (i v : Nat) : Prop :=
  ∃ c text, f[i]? = some (.call c) ∧ c.invoke = false ∧
    c.callee = some ⟨"llvm.var.annotation", true⟩ ∧ c.operands[0]? = some (.var v) ∧
    (c.operands[1]? = some (.gep (some text)) ∨ c.operands[1]? = some (.constantGep (some text))) ∧
    localMalloc <:+: text

def ReadableAt (f : List Instruction) (i : Nat) : Prop :=
  ∃ ins ∈ f[i]?, ins.Readable

def MallocAt (f : List Instruction) (k : Nat) (r : Option Nat) : Prop :=
  ∃ c, f[k]? = some (.call c) ∧ c.callee = some ⟨"malloc", true⟩ ∧ c.result = r

def Annotated (f : List Instruction) (r : Option Nat) : Prop :=
  ∃ i, ∃ v ∈ r, AnnotatedAt f i v

/-- Annotations are on variables, and an annotated variable is assigned by one
malloc after its annotation. -/
structure Assigned (f : List Instruction) : Prop where
  onVariable : ∀ i, ReadableAt f i → ∃ v, AnnotatedAt f i v
  once : ∀ i j v, AnnotatedAt f i v → AnnotatedAt f j v → i = j
  assigned : ∀ i v, AnnotatedAt f i v →
    ∃ k, i < k ∧ MallocAt f k (some v) ∧ ∀ k', MallocAt f k' (some v) → k' = k

/-- The pass finds the string of each annotation, and no call of the allocator
lies between an annotation and the malloc of its variable. -/
def Direct (f : List Instruction) : Prop :=
  ∀ i k v, AnnotatedAt f i v → MallocAt f k (some v) →
    ReadableAt f i ∧ ∀ j, i < j → j < k → ¬ AllocatorAt f j

def BecomesCall (f : List (List Instruction)) (k : Nat) (name : String) (r : Option Nat) : Prop :=
  ∃ c rest, (transformMallocs f)[k]? = some (.call c :: rest) ∧
    c.callee = some ⟨name, true⟩ ∧ c.result = r

/-- An annotated malloc, and no other, is replaced by the local one. -/
def ReachesOwn (f : List (List Instruction)) : Prop :=
  ∀ k r, MallocAt f.flatten k r →
    (Annotated f.flatten r →
      k ∈ (parseLibFunctions f).tables .localMallocs ∧
        k ∉ (parseLibFunctions f).tables .mallocs ∧ BecomesCall f k carmLocalMallocName r) ∧
    (¬ Annotated f.flatten r →
      k ∉ (parseLibFunctions f).tables .localMallocs ∧
        k ∈ (parseLibFunctions f).tables .mallocs ∧ BecomesCall f k carmMallocName r)

theorem MallocAt.allocatorAt (h : MallocAt l k r) : AllocatorAt l k := by
  obtain ⟨c, hc, hm, -⟩ := h
  exact ⟨.call c, hc, .inl ⟨c, rfl, hm⟩⟩

theorem MallocAt.unique {r' : Option Nat} (h : MallocAt l k r) (h' : MallocAt l k r') : r = r' := by
  obtain ⟨c, hc, -, rfl⟩ := h
  obtain ⟨c', hc', -, rfl⟩ := h'
  rw [hc] at hc'
  obtain rfl := Instruction.call.inj (Option.some.inj hc')
  rfl

theorem MallocAt.lt_length (h : MallocAt l k r) : k < l.length := by
  obtain ⟨c, hc, -⟩ := h
  exact (List.getElem?_eq_some_iff.mp hc).1

theorem pending_iff :
    Pending l k ↔ ∃ i < k, ReadableAt l i ∧ ∀ j, i < j → j < k → ¬ AllocatorAt l j := by
  simp only [Pending, Latched, ReadableAt, AllocatorAt, not_exists, not_and]

theorem becomesCall_of_mem {c : LibCall} (hc : f.flatten[k]? = some (.call c)) (name : String)
    (ht : (k ∈ (parseLibFunctions f).tables .localMallocs ∧
          k ∉ (parseLibFunctions f).tables .mallocs ∧ name = carmLocalMallocName) ∨
        (k ∉ (parseLibFunctions f).tables .localMallocs ∧
          k ∈ (parseLibFunctions f).tables .mallocs ∧ name = carmMallocName)) :
    BecomesCall f k name c.result := by
  refine ⟨⟨false, some ⟨name, true⟩, c.operands.take 1, c.result⟩,
    if c.invoke then [.other] else [], ?_, rfl, rfl⟩
  simp only [transformMallocs, transformLocalMallocFunctions, transformMallocFunctions,
    replaceCalls, List.getElem?_mapIdx, List.getElem?_map, hc]
  rcases ht with ⟨hl, hm, rfl⟩ | ⟨hl, hm, rfl⟩ <;> simp [hl, hm, replaceCall]

theorem reachesOwn_iff_pending :
    ReachesOwn f ↔ ∀ k r, MallocAt f.flatten k r →
      (Pending f.flatten k ↔ Annotated f.flatten r) := by
  have hp := parsed_parseLibFunctions f
  refine forall₃_congr fun k r hm => ?_
  have ha := hm.allocatorAt
  obtain ⟨c, hc, -, rfl⟩ := hm
  constructor
  · rintro ⟨hyes, hno⟩
    refine ⟨fun hf => ?_, fun hr => ((hp.locals k).mp (hyes hr).1).2⟩
    by_contra hr
    exact (hno hr).1 ((hp.locals k).mpr ⟨ha, hf⟩)
  · intro h
    refine ⟨fun hr => ?_, fun hr => ?_⟩
    · have hl := (hp.locals k).mpr ⟨ha, h.mpr hr⟩
      have hm := mt (hp.mallocs k).mp fun hm => hm.2 (h.mpr hr)
      exact ⟨hl, hm, becomesCall_of_mem hc _ (.inl ⟨hl, hm, rfl⟩)⟩
    · have hf : ¬ Pending f.flatten k := fun hf => hr (h.mp hf)
      have hl := mt (hp.locals k).mp fun hl => hf hl.2
      have hm := (hp.mallocs k).mpr ⟨ha, hf⟩
      exact ⟨hl, hm, becomesCall_of_mem hc _ (.inr ⟨hl, hm, rfl⟩)⟩

/-- From the last malloc backwards: the annotation that is pending at a malloc is
its own, for the malloc of another would find its own annotation taken. -/
theorem own_pending (has : Assigned l)
    (h : ∀ k r, MallocAt l k r → (Pending l k ↔ Annotated l r)) :
    ∀ n k i v, l.length - k = n → MallocAt l k (some v) → AnnotatedAt l i v →
      ReadableAt l i ∧ ∀ j, i < j → j < k → ¬ AllocatorAt l j := by
  intro n
  induction n using Nat.strongRecOn with
  | ind n ih =>
    intro k i v hn hm hi
    obtain ⟨i', hik, hr, hclear⟩ := pending_iff.mp ((h k _ hm).mpr ⟨i, v, rfl, hi⟩)
    obtain ⟨w, hw⟩ := has.onVariable i' hr
    obtain ⟨k', hik', hm', -⟩ := has.assigned i' w hw
    have hle : k ≤ k' := by
      by_contra hlt
      exact hclear k' hik' (by omega) hm'.allocatorAt
    rcases Nat.eq_or_lt_of_le hle with rfl | hlt
    · obtain rfl := Option.some.inj (hm.unique hm')
      obtain rfl := has.once i i' v hi hw
      exact ⟨hr, hclear⟩
    · have hlen := hm.lt_length
      have := (ih (l.length - k') (by omega) k' i' w rfl hm' hw).2 k hik hlt
      exact absurd hm.allocatorAt this

theorem MallocAt.annotatedAt_of_pending (has : Assigned l) (hd : Direct l) (hm : MallocAt l k r)
    (hp : Pending l k) : Annotated l r := by
  obtain ⟨i, hik, hr, hclear⟩ := pending_iff.mp hp
  obtain ⟨v, hv⟩ := has.onVariable i hr
  obtain ⟨k', hik', hm', -⟩ := has.assigned i v hv
  rcases Nat.lt_trichotomy k k' with hlt | rfl | hlt
  · exact absurd hm.allocatorAt ((hd i k' v hv hm').2 k hik hlt)
  · exact hm.unique hm' ▸ ⟨i, v, rfl, hv⟩
  · exact absurd hm'.allocatorAt (hclear k' hik' hlt)

theorem reachesOwn_iff_direct (has : Assigned f.flatten) :
    ReachesOwn f ↔ Direct f.flatten := by
  rw [reachesOwn_iff_pending]
  constructor
  · intro h i k v hi hm
    exact own_pending has h _ k i v rfl hm hi
  · intro hd k r hm
    refine ⟨hm.annotatedAt_of_pending has hd, ?_⟩
    rintro ⟨i, v, rfl, hi⟩
    obtain ⟨k', hik, hm', huniq⟩ := has.assigned i v hi
    obtain rfl := huniq k hm
    obtain ⟨hr, hclear⟩ := hd i k v hi hm
    exact pending_iff.mpr ⟨i, hik, hr, hclear⟩

end Annotated

def annotate (v : Nat) : Instruction :=
  .call ⟨false, some ⟨"llvm.var.annotation", true⟩, [.var v, .gep (some localMalloc)], none⟩

def mallocTo (v : Nat) : Instruction :=
  .call ⟨false, some ⟨"malloc", true⟩, [.other], some v⟩

/-- The annotation of variable 0 reaches the malloc of variable 1 in between. -/
def takenAnnotation : List (List Instruction) :=
  [[annotate 0, mallocTo 1], [mallocTo 0]]

def ownAnnotation : List (List Instruction) :=
  [[annotate 0], [mallocTo 0]]

section

variable {l : List Instruction} {i v w : Nat} {r : Option Nat}

theorem annotatedAt_of_annotate (h : l[i]? = some (annotate w)) : AnnotatedAt l i v ↔ w = v := by
  simp [AnnotatedAt, annotate, h]

theorem not_annotatedAt_of_mallocTo (h : l[i]? = some (mallocTo w)) : ¬ AnnotatedAt l i v := by
  simp [AnnotatedAt, mallocTo, h]

theorem mallocAt_of_mallocTo (h : l[i]? = some (mallocTo w)) : MallocAt l i r ↔ some w = r := by
  simp [MallocAt, mallocTo, h]

theorem not_mallocAt_of_annotate (h : l[i]? = some (annotate w)) : ¬ MallocAt l i r := by
  simp [MallocAt, annotate, h]

theorem annotatedAt_taken : AnnotatedAt takenAnnotation.flatten i v ↔ i = 0 ∧ v = 0 := by
  match i with
  | 0 => simp [annotatedAt_of_annotate (show takenAnnotation.flatten[0]? = _ from rfl), eq_comm]
  | 1 => simp [not_annotatedAt_of_mallocTo (show takenAnnotation.flatten[1]? = _ from rfl)]
  | 2 => simp [not_annotatedAt_of_mallocTo (show takenAnnotation.flatten[2]? = _ from rfl)]
  | i + 3 => simp [AnnotatedAt, takenAnnotation]

theorem mallocAt_taken :
    MallocAt takenAnnotation.flatten i r ↔ (i = 1 ∧ some 1 = r) ∨ (i = 2 ∧ some 0 = r) := by
  match i with
  | 0 => simp [not_mallocAt_of_annotate (show takenAnnotation.flatten[0]? = _ from rfl)]
  | 1 => simp [mallocAt_of_mallocTo (show takenAnnotation.flatten[1]? = _ from rfl)]
  | 2 => simp [mallocAt_of_mallocTo (show takenAnnotation.flatten[2]? = _ from rfl)]
  | i + 3 => simp [MallocAt, takenAnnotation]

theorem readableAt_annotate (h : l[i]? = some (annotate w)) : ReadableAt l i :=
  ⟨annotate w, h, _, localMalloc, rfl, rfl, rfl, List.infix_refl _⟩

theorem not_readableAt_mallocTo (h : l[i]? = some (mallocTo w)) : ¬ ReadableAt l i := by
  simp [ReadableAt, Instruction.Readable, mallocTo, h]

theorem assigned_taken : Assigned takenAnnotation.flatten where
  onVariable i hr := by
    match i with
    | 0 => exact ⟨0, annotatedAt_taken.mpr ⟨rfl, rfl⟩⟩
    | 1 => exact absurd hr (not_readableAt_mallocTo rfl)
    | 2 => exact absurd hr (not_readableAt_mallocTo rfl)
    | i + 3 => simp [ReadableAt, takenAnnotation] at hr
  once i j v hi hj := (annotatedAt_taken.mp hi).1.trans (annotatedAt_taken.mp hj).1.symm
  assigned i v hi := by
    obtain ⟨rfl, rfl⟩ := annotatedAt_taken.mp hi
    refine ⟨2, by decide, mallocAt_taken.mpr (.inr ⟨rfl, rfl⟩), fun k' hk' => ?_⟩
    simpa using mallocAt_taken.mp hk'

theorem not_assigned_reachesOwn : ¬ ∀ f, Assigned f.flatten → ReachesOwn f := by
  intro h
  have hm : MallocAt takenAnnotation.flatten 1 (some 1) := mallocAt_taken.mpr (.inl ⟨rfl, rfl⟩)
  have hp : Pending takenAnnotation.flatten 1 :=
    pending_iff.mpr ⟨0, by decide, readableAt_annotate rfl, fun j hj hj' => by omega⟩
  obtain ⟨i, v, hv, hi⟩ :=
    (reachesOwn_iff_pending.mp (h takenAnnotation assigned_taken) 1 _ hm).mp hp
  rw [(annotatedAt_taken.mp hi).2] at hv
  exact absurd hv (by decide)

theorem reachesOwn_own : ReachesOwn ownAnnotation := by
  have hann : ∀ i v, AnnotatedAt ownAnnotation.flatten i v ↔ i = 0 ∧ v = 0 := fun i v => by
    match i with
    | 0 => simp [annotatedAt_of_annotate (show ownAnnotation.flatten[0]? = _ from rfl), eq_comm]
    | 1 => simp [not_annotatedAt_of_mallocTo (show ownAnnotation.flatten[1]? = _ from rfl)]
    | i + 2 => simp [AnnotatedAt, ownAnnotation]
  have hmal : ∀ i r, MallocAt ownAnnotation.flatten i r ↔ i = 1 ∧ some 0 = r := fun i r => by
    match i with
    | 0 => simp [not_mallocAt_of_annotate (show ownAnnotation.flatten[0]? = _ from rfl)]
    | 1 => simp [mallocAt_of_mallocTo (show ownAnnotation.flatten[1]? = _ from rfl)]
    | i + 2 => simp [MallocAt, ownAnnotation]
  refine (reachesOwn_iff_direct ⟨fun i hr => ?_, fun i j v hi hj => ?_, fun i v hi => ?_⟩).mpr
    fun i k v hi hk => ?_
  · match i with
    | 0 => exact ⟨0, (hann 0 0).mpr ⟨rfl, rfl⟩⟩
    | 1 => exact absurd hr (not_readableAt_mallocTo rfl)
    | i + 2 => simp [ReadableAt, ownAnnotation] at hr
  · exact ((hann i v).mp hi).1.trans ((hann j v).mp hj).1.symm
  · obtain ⟨rfl, rfl⟩ := (hann i v).mp hi
    exact ⟨1, by decide, (hmal 1 _).mpr ⟨rfl, rfl⟩, fun k' hk' => ((hmal k' _).mp hk').1⟩
  · obtain ⟨rfl, rfl⟩ := (hann i v).mp hi
    obtain ⟨rfl, -⟩ := (hmal k _).mp hk
    exact ⟨readableAt_annotate rfl, fun j hj hj' => by omega⟩

end

end TrackFM
