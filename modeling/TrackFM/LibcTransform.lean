import TrackFM.Annotations

/-!
# The libc transform pass

`runOnFunction` of the pass runs one transform for each table that
`parse_lib_functions` filled. A transform replaces the calls in its table by calls
of the runtime's function. No instruction is in two of these tables, so together
the transforms replace in place.
-/

namespace TrackFM

-- ---------------------------------------------------------------------------
-- The transforms
-- ---------------------------------------------------------------------------

/-- What a call becomes: a call of `name` with the first operands, or with all
but the callee. With `branch` an invoke becomes a call and a branch to its normal
destination; without, its block is left without a terminator. -/
structure Replacement where
  name : String
  operands : Option Nat
  branch : Bool
  deriving DecidableEq, Repr

/-- The operands of an invoke are followed by its two destinations. -/
def LibCall.operandsFor (c : LibCall) : Option Nat → List CallOperand
  | some n => c.operands.take n
  | none => if c.invoke then c.operands ++ [.other, .other] else c.operands

def Replacement.replace (r : Replacement) : Instruction → List Instruction
  | .call c =>
    .call ⟨false, some ⟨r.name, true⟩, c.operandsFor r.operands, c.result⟩ ::
      if c.invoke && r.branch then [.other] else []
  | ins => [ins]

def Replacement.transform (r : Replacement) (table : List Nat) (code : List (List Instruction)) :
    List (List Instruction) :=
  code.mapIdx fun k is => if k ∈ table then is.flatMap r.replace else is

section
variable (p : ParsedCalls)

abbrev CodeTransform := List (List Instruction) → List (List Instruction)

def transformMemsetFunctions : CodeTransform :=
  Replacement.transform ⟨"_Z11carm_memsetPvim", some 3, false⟩ (p.tables .memset)

def transformFwriteFunctions : CodeTransform :=
  Replacement.transform ⟨"_Z11carm_fwritePvmmS_", some 4, false⟩ (p.tables .fwrites)

def transformFreadFunctions : CodeTransform :=
  Replacement.transform ⟨"_Z10carm_freadPvmmS_", some 4, false⟩ (p.tables .freads)

def transformReadFunctions : CodeTransform :=
  Replacement.transform ⟨"_Z9carm_readiPvl", some 3, false⟩ (p.tables .reads)

def transformStrtolFunctions : CodeTransform :=
  Replacement.transform ⟨"_Z11carm_strtolPcPS_i", some 3, false⟩ (p.tables .strtols)

def transformStrtoulFunctions : CodeTransform :=
  Replacement.transform ⟨"_Z12carm_strtoulPcPS_i", some 3, false⟩ (p.tables .strtouls)

def transformFcloseFunctions : CodeTransform :=
  Replacement.transform ⟨"_Z11carm_fclosePv", some 1, true⟩ (p.tables .fclose)

def transformFopenFunctions : CodeTransform :=
  Replacement.transform ⟨"_Z10carm_fopenPvS_", some 2, false⟩ (p.tables .fopen)

def transformLlvmiMemsetFunctions : CodeTransform :=
  Replacement.transform ⟨"_Z11carm_memsetPvim", some 3, false⟩ (p.tables .llvmiMemset)

def transformMemchrFunctions : CodeTransform :=
  Replacement.transform ⟨"_Z11carm_memchrPvim", some 3, false⟩ (p.tables .memchr)

def transformWmemchrFunctions : CodeTransform :=
  Replacement.transform ⟨"_Z12carm_wmemchrPiim", some 3, false⟩ (p.tables .wmemchr)

def transformFreeFunctions : CodeTransform :=
  Replacement.transform ⟨"_Z9carm_freePv", some 1, true⟩ (p.tables .frees)

def transformStrdupFunctions : CodeTransform :=
  Replacement.transform ⟨"_Z11carm_strdupPc", some 1, true⟩ (p.tables .strdups)

def transformMemcpyFunctions : CodeTransform :=
  Replacement.transform ⟨"_Z11carm_memcpyPaS_m", some 3, false⟩ (p.tables .memcpy)

def transformWmemcpyFunctions : CodeTransform :=
  Replacement.transform ⟨"_Z12carm_wmemcpyPiS_m", some 3, false⟩ (p.tables .wmemcpy)

def transformStrcpyFunctions : CodeTransform :=
  Replacement.transform ⟨"_Z11carm_strcpyPvS_", some 2, false⟩ (p.tables .strcpys)

def transformStrncpyFunctions : CodeTransform :=
  Replacement.transform ⟨"_Z12carm_strncpyPvS_m", some 3, false⟩ (p.tables .strncpys)

def transformSnprintfFunctions : CodeTransform :=
  Replacement.transform ⟨"_Z13carm_snprintfPvmS_z", none, false⟩ (p.tables .snprintf)

def transformSprintfFunctions : CodeTransform :=
  Replacement.transform ⟨"_Z12carm_sprintfPvS_z", none, false⟩ (p.tables .sprintf)

def transformVsnprintfFunctions : CodeTransform :=
  Replacement.transform ⟨"_Z14carm_vsnprintfPvmS_P13__va_list_tag", some 4, false⟩
    (p.tables .vsnprintf)

def transformVsprintfFunctions : CodeTransform :=
  Replacement.transform ⟨"_Z13carm_vsprintfPvS_P13__va_list_tag", some 3, false⟩
    (p.tables .vsprintf)

def transformVfprintfFunctions : CodeTransform :=
  Replacement.transform ⟨"_Z13carm_vfprintfPvS_P13__va_list_tag", some 3, false⟩
    (p.tables .vfprintf)

def transformSscanfFunctions : CodeTransform :=
  Replacement.transform ⟨"_Z11carm_sscanfPvS_z", none, false⟩ (p.tables .sscanf)

def transformCallocFunctions : CodeTransform :=
  Replacement.transform ⟨"_Z11carm_callocmm", some 2, false⟩ (p.tables .callocs)

def transformReallocFunctions : CodeTransform :=
  Replacement.transform ⟨"_Z12carm_reallocPvm", some 2, false⟩ (p.tables .reallocs)

def transformLlvmMemcpyFunctions : CodeTransform :=
  Replacement.transform ⟨"_Z11carm_memcpyPaS_m", some 3, false⟩ (p.tables .llvmiMemcpy)

def transformLlvmMemoveFunctions : CodeTransform :=
  Replacement.transform ⟨"_Z11carm_memcpyPaS_m", some 3, false⟩ (p.tables .llvmiMemove)

def transformStrcmpFunctions : CodeTransform :=
  Replacement.transform ⟨"_Z11carm_strcmpPvS_", some 2, false⟩ (p.tables .strcmp)

def transformStrlenFunctions : CodeTransform :=
  Replacement.transform ⟨"_Z11carm_strlenPv", some 1, false⟩ (p.tables .strlen)

def transformFprintfFunctions : CodeTransform :=
  Replacement.transform ⟨"_Z12carm_fprintfPvS_z", none, true⟩ (p.tables .fprintfs)

def transformWmemcmpFunctions : CodeTransform :=
  Replacement.transform ⟨"_Z12carm_wmemcmpPiS_m", some 3, false⟩ (p.tables .wmemcmp)

def transformMemcmpFunctions : CodeTransform :=
  Replacement.transform ⟨"_Z11carm_memcmpPvS_m", some 3, false⟩ (p.tables .memcmp)

/-- The transforms in the order `runOnFunction` calls them. -/
def libcTransforms : List CodeTransform :=
  [transformMallocFunctions p,
    transformLocalMallocFunctions p,
    transformFreeFunctions p,
    transformMemcpyFunctions p,
    transformMemchrFunctions p,
    transformWmemchrFunctions p,
    transformWmemcpyFunctions p,
    transformMemcmpFunctions p,
    transformWmemcmpFunctions p,
    transformStrcmpFunctions p,
    transformStrlenFunctions p,
    transformLlvmMemcpyFunctions p,
    transformLlvmMemoveFunctions p,
    transformMemsetFunctions p,
    transformFwriteFunctions p,
    transformFreadFunctions p,
    transformReadFunctions p,
    transformFopenFunctions p,
    transformFprintfFunctions p,
    transformFcloseFunctions p,
    transformLlvmiMemsetFunctions p,
    transformCallocFunctions p,
    transformReallocFunctions p,
    transformStrcpyFunctions p,
    transformStrncpyFunctions p,
    transformSnprintfFunctions p,
    transformSprintfFunctions p,
    transformVsnprintfFunctions p,
    transformVsprintfFunctions p,
    transformVfprintfFunctions p,
    transformSscanfFunctions p,
    transformStrdupFunctions p,
    transformStrtolFunctions p,
    transformStrtoulFunctions p]

end

/-- `runOnFunction`. Entry `k` of the result is what instruction `k` has become. -/
def libcTransform (f : List (List Instruction)) : List (List Instruction) :=
  (libcTransforms (parseLibFunctions f)).foldl (fun code transform => transform code)
    (f.flatten.map fun ins => [ins])

-- ---------------------------------------------------------------------------
-- The tables
-- ---------------------------------------------------------------------------

def replacements : List (CallTable × Replacement) :=
  [(.mallocs, ⟨carmMallocName, some 1, true⟩),
    (.localMallocs, ⟨carmLocalMallocName, some 1, true⟩),
    (.frees, ⟨"_Z9carm_freePv", some 1, true⟩),
    (.memcpy, ⟨"_Z11carm_memcpyPaS_m", some 3, false⟩),
    (.memchr, ⟨"_Z11carm_memchrPvim", some 3, false⟩),
    (.wmemchr, ⟨"_Z12carm_wmemchrPiim", some 3, false⟩),
    (.wmemcpy, ⟨"_Z12carm_wmemcpyPiS_m", some 3, false⟩),
    (.memcmp, ⟨"_Z11carm_memcmpPvS_m", some 3, false⟩),
    (.wmemcmp, ⟨"_Z12carm_wmemcmpPiS_m", some 3, false⟩),
    (.strcmp, ⟨"_Z11carm_strcmpPvS_", some 2, false⟩),
    (.strlen, ⟨"_Z11carm_strlenPv", some 1, false⟩),
    (.llvmiMemcpy, ⟨"_Z11carm_memcpyPaS_m", some 3, false⟩),
    (.llvmiMemove, ⟨"_Z11carm_memcpyPaS_m", some 3, false⟩),
    (.memset, ⟨"_Z11carm_memsetPvim", some 3, false⟩),
    (.fwrites, ⟨"_Z11carm_fwritePvmmS_", some 4, false⟩),
    (.freads, ⟨"_Z10carm_freadPvmmS_", some 4, false⟩),
    (.reads, ⟨"_Z9carm_readiPvl", some 3, false⟩),
    (.fopen, ⟨"_Z10carm_fopenPvS_", some 2, false⟩),
    (.fprintfs, ⟨"_Z12carm_fprintfPvS_z", none, true⟩),
    (.fclose, ⟨"_Z11carm_fclosePv", some 1, true⟩),
    (.llvmiMemset, ⟨"_Z11carm_memsetPvim", some 3, false⟩),
    (.callocs, ⟨"_Z11carm_callocmm", some 2, false⟩),
    (.reallocs, ⟨"_Z12carm_reallocPvm", some 2, false⟩),
    (.strcpys, ⟨"_Z11carm_strcpyPvS_", some 2, false⟩),
    (.strncpys, ⟨"_Z12carm_strncpyPvS_m", some 3, false⟩),
    (.snprintf, ⟨"_Z13carm_snprintfPvmS_z", none, false⟩),
    (.sprintf, ⟨"_Z12carm_sprintfPvS_z", none, false⟩),
    (.vsnprintf, ⟨"_Z14carm_vsnprintfPvmS_P13__va_list_tag", some 4, false⟩),
    (.vsprintf, ⟨"_Z13carm_vsprintfPvS_P13__va_list_tag", some 3, false⟩),
    (.vfprintf, ⟨"_Z13carm_vfprintfPvS_P13__va_list_tag", some 3, false⟩),
    (.sscanf, ⟨"_Z11carm_sscanfPvS_z", none, false⟩),
    (.strdups, ⟨"_Z11carm_strdupPc", some 1, true⟩),
    (.strtols, ⟨"_Z11carm_strtolPcPS_i", some 3, false⟩),
    (.strtouls, ⟨"_Z12carm_strtoulPcPS_i", some 3, false⟩)]

def replacementOf (name : String) : Option Replacement :=
  (tableOf (fmap name)).bind fun t => replacements.lookup t

/-- What an instruction becomes; `pending` says whether the next allocation is
to be local. -/
inductive Becomes (pending : Prop) (ins : Instruction) : List Instruction → Prop
  | localMalloc : ins.Allocates → pending →
      Becomes pending ins (Replacement.replace ⟨carmLocalMallocName, some 1, true⟩ ins)
  | malloc : ins.Allocates → ¬pending →
      Becomes pending ins (Replacement.replace ⟨carmMallocName, some 1, true⟩ ins)
  | replaced : ins.Calls name → replacementOf name = some r → Becomes pending ins (r.replace ins)
  | kept : ¬ins.Allocates → (∀ name, ins.Calls name → replacementOf name = none) →
      Becomes pending ins [ins]

def Instruction.FiledIn (ins : Instruction) (t : CallTable) : Prop :=
  ∃ name, ins.Calls name ∧ tableOf (fmap name) = some t

variable {p : ParsedCalls} {ins : Instruction} {f : List (List Instruction)} {t : CallTable}
  {name : String} {n j k : Nat}

theorem Instruction.Calls.name_eq {name' : String} (h : ins.Calls name) (h' : ins.Calls name') :
    name = name' := by
  obtain ⟨c, rfl, hc⟩ := h
  obtain ⟨_, he, hc'⟩ := h'
  obtain rfl := Instruction.call.inj he
  exact (Callee.mk.inj (Option.some.inj (hc.symm.trans hc'))).1

theorem tableOf_allocator (ha : ins.Allocates) (hc : ins.Calls name) :
    tableOf (fmap name) = none := by
  obtain h | h := ha
  · rw [← h.name_eq hc, fmap_one.mpr rfl]
    rfl
  · rw [← h.name_eq hc, fmap_two.mpr rfl]
    rfl

theorem tableOf_parsed (ht : tableOf n = some t) :
    t ≠ .allocas ∧ t ≠ .geps ∧ t ≠ .loads ∧ t ≠ .stores ∧ t ≠ .mallocs ∧ t ≠ .localMallocs := by
  unfold tableOf at ht
  split at ht <;> first | (obtain rfl := Option.some.inj ht; decide) | exact nomatch ht

theorem push_mem {u : CallTable} :
    j ∈ (p.push u).tables t ↔ j ∈ p.tables t ∨ j = p.count ∧ u = t := by
  by_cases h : u = t
  · subst h
    simp [push_tables_self]
  · simp [push_tables_of_ne (Ne.symm h), h]

theorem not_filedIn (h : ∀ name, ¬ins.Calls name) : ¬ins.FiledIn t := fun ⟨name, hc, _⟩ => h name hc

theorem parseLibCall_mem (ht : tableOf n = some t) {c : LibCall} : ∀ val,
    j ∈ (parseLibCall p c val).tables t ↔
      j ∈ p.tables t ∨ j = p.count ∧ tableOf val = some t := by
  obtain ⟨-, -, -, -, hm, hl⟩ := tableOf_parsed ht
  intro val
  by_cases hval : val = 1 ∨ val = 2
  · have hnone : tableOf val = none := by rcases hval with rfl | rfl <;> rfl
    rw [parseLibCall_allocator hval, hnone]
    cases p.localMalloc <;> simp [push_mem, hm.symm, hl.symm]
  by_cases h₄₁ : val = 41
  · subst h₄₁
    rw [parseLibCall, if_neg hval, if_pos rfl, show tableOf 41 = none from rfl]
    split
    case h_1 text _ => split <;> simp
    case h_2 => simp
  · rw [parseLibCall, if_neg hval, if_neg h₄₁]
    split
    case h_1 u hu => simp [push_mem, hu]
    case h_2 hu => simp [hu]

theorem parseInstruction_mem (ht : tableOf n = some t) :
    j ∈ (parseInstruction p ins).tables t ↔ j ∈ p.tables t ∨ j = p.count ∧ ins.FiledIn t := by
  obtain ⟨ha, hg, hl, hs, -, -⟩ := tableOf_parsed ht
  cases ins with
  | call c =>
    cases hc : c.callee with
    | none =>
      have hno : ¬(Instruction.call c).FiledIn t := not_filedIn fun name ⟨_, he, hc'⟩ => by
        obtain rfl := Instruction.call.inj he
        simp [hc] at hc'
      simp [parseInstruction, hc, hno]
    | some fp =>
      obtain ⟨name, empty⟩ := fp
      cases empty with
      | false =>
        have hno : ¬(Instruction.call c).FiledIn t := not_filedIn fun name ⟨_, he, hc'⟩ => by
          obtain rfl := Instruction.call.inj he
          simp [hc] at hc'
        simp [parseInstruction, hc, hno]
      | true =>
        have hcalls : (Instruction.call c).Calls name := ⟨c, rfl, hc⟩
        have hfiled : (Instruction.call c).FiledIn t ↔ tableOf (fmap name) = some t := by
          refine ⟨?_, fun h => ⟨name, hcalls, h⟩⟩
          rintro ⟨name', hc', h⟩
          exact hcalls.name_eq hc' ▸ h
        rw [parseInstruction_call hc rfl, hfiled]
        exact parseLibCall_mem ht _
  | alloca => simp [parseInstruction, push_mem, ha.symm, Instruction.FiledIn, Instruction.Calls]
  | getElementPtr => simp [parseInstruction, push_mem, hg.symm, Instruction.FiledIn, Instruction.Calls]
  | load => simp [parseInstruction, push_mem, hl.symm, Instruction.FiledIn, Instruction.Calls]
  | store => simp [parseInstruction, push_mem, hs.symm, Instruction.FiledIn, Instruction.Calls]
  | other => simp [parseInstruction, Instruction.FiledIn, Instruction.Calls]

theorem parseLibFunctions_mem (ht : tableOf n = some t) :
    k ∈ (parseLibFunctions f).tables t ↔ ∃ ins ∈ f.flatten[k]?, ins.FiledIn t := by
  have hcount : ∀ l : List Instruction,
      (l.foldl parseInstruction ⟨0, fun _ => [], false⟩).count = l.length := fun l => by
    simpa [parseLibFunctions] using (parsed_parseLibFunctions [l]).count
  rw [parseLibFunctions, ← List.foldl_flatten]
  induction f.flatten using List.reverseRecOn with
  | nil => simp
  | append_singleton l ins ih =>
    rw [List.foldl_append, List.foldl_cons, List.foldl_nil, parseInstruction_mem ht, hcount]
    refine (or_congr_left ih).trans ?_
    rcases Nat.lt_trichotomy k l.length with hk | rfl | hk
    · simp [List.getElem?_append_left hk, Nat.ne_of_lt hk]
    · simp
    · have hl : l[k]? = none := List.getElem?_eq_none (Nat.le_of_lt hk)
      have hl' : (l ++ [ins])[k]? = none := List.getElem?_eq_none (by simp; omega)
      simp [hl, hl', Nat.ne_of_gt hk]


-- ---------------------------------------------------------------------------
-- The pass
-- ---------------------------------------------------------------------------

theorem replaceCalls_eq {table : List Nat} :
    replaceCalls name table = Replacement.transform ⟨name, some 1, true⟩ table := by
  have h : replaceCall name = Replacement.replace ⟨name, some 1, true⟩ := by
    funext ins
    cases ins with
    | call c => simp [replaceCall, Replacement.replace, LibCall.operandsFor]
    | _ => rfl
  funext code
  rw [replaceCalls, Replacement.transform, h]

theorem libcTransforms_eq :
    libcTransforms p = replacements.map fun e => e.2.transform (p.tables e.1) := by
  have hm : transformMallocFunctions p =
      Replacement.transform ⟨carmMallocName, some 1, true⟩ (p.tables .mallocs) := by
    rw [← replaceCalls_eq]
    rfl
  have hl : transformLocalMallocFunctions p =
      Replacement.transform ⟨carmLocalMallocName, some 1, true⟩ (p.tables .localMallocs) := by
    rw [← replaceCalls_eq]
    rfl
  rw [libcTransforms, hm, hl]
  rfl

theorem transforms_getElem? {es : List (CallTable × Replacement)} {code : List (List Instruction)} :
    (es.foldl (fun code e => e.2.transform (p.tables e.1) code) code)[k]? = code[k]?.map fun is =>
      (es.filter fun e => k ∈ p.tables e.1).foldl (fun is e => is.flatMap e.2.replace) is := by
  induction es generalizing code with
  | nil => simp
  | cons e es ih =>
    rw [List.foldl_cons, ih, Replacement.transform, List.getElem?_mapIdx, Option.map_map]
    refine congrFun (congrArg Option.map (funext fun is => ?_)) _
    by_cases hk : k ∈ p.tables e.1 <;> simp [hk]

theorem filter_replacements : (replacements.filter fun e => decide (e.1 = t)) =
    ((replacements.lookup t).map fun r => (t, r)).toList := by
  cases t <;> rfl

/-- An instruction in one table at most becomes what that transform makes of it. -/
theorem libcTransform_filed (hk : f.flatten[k]? = some ins) {o : Option CallTable}
    (ho : ∀ e ∈ replacements, k ∈ (parseLibFunctions f).tables e.1 ↔ o = some e.1) :
    (libcTransform f)[k]? = some (match o.bind fun t => replacements.lookup t with
      | some r => r.replace ins
      | none => [ins]) := by
  rw [libcTransform, libcTransforms_eq, List.foldl_map, transforms_getElem?, List.getElem?_map, hk]
  cases o with
  | none =>
    have hnil : (replacements.filter fun e => decide (k ∈ (parseLibFunctions f).tables e.1)) = [] :=
      List.filter_eq_nil_iff.mpr fun e he => by simp [ho e he]
    rw [hnil]
    rfl
  | some t =>
    have hone : (replacements.filter fun e => decide (k ∈ (parseLibFunctions f).tables e.1)) =
        ((replacements.lookup t).map fun r => (t, r)).toList := by
      rw [← filter_replacements]
      refine List.filter_congr fun e he => ?_
      simp only [ho e he, Option.some.injEq, eq_comm]
    rw [hone]
    cases hl : replacements.lookup t <;> simp [hl]

theorem replacements_table : ∀ e ∈ replacements,
    e.1 = .mallocs ∨ e.1 = .localMallocs ∨ ∃ n < 46, tableOf n = some e.1 := by
  decide +kernel

theorem allocatorAt_iff (hk : f.flatten[k]? = some ins) : AllocatorAt f.flatten k ↔ ins.Allocates := by
  simp [AllocatorAt, hk]

theorem mem_tables_iff (hk : f.flatten[k]? = some ins) (he : e ∈ replacements) :
    k ∈ (parseLibFunctions f).tables e.1 ↔
      ins.Allocates ∧ (Pending f.flatten k ∧ .localMallocs = e.1 ∨
        ¬Pending f.flatten k ∧ .mallocs = e.1) ∨ ins.FiledIn e.1 := by
  have hp := parsed_parseLibFunctions f
  have hfiled : ∀ n, tableOf n = some e.1 →
      (k ∈ (parseLibFunctions f).tables e.1 ↔ ins.FiledIn e.1) := fun n hn => by
    rw [parseLibFunctions_mem hn]
    simp [hk]
  have halloc : ins.FiledIn e.1 → ¬ins.Allocates := fun ⟨name, hc, ht⟩ ha => by
    rw [tableOf_allocator ha hc] at ht
    cases ht
  have hparsed : ins.FiledIn e.1 → e.1 ≠ .mallocs ∧ e.1 ≠ .localMallocs := fun ⟨_, _, ht⟩ =>
    ⟨(tableOf_parsed ht).2.2.2.2.1, (tableOf_parsed ht).2.2.2.2.2⟩
  rcases replacements_table e he with ht | ht | ⟨n, -, hn⟩
  · have hnot : ¬ins.FiledIn .mallocs := fun h => (hparsed (ht ▸ h)).1 ht
    rw [ht, hp.mallocs, allocatorAt_iff hk]
    simp [hnot]
  · have hnot : ¬ins.FiledIn .localMallocs := fun h => (hparsed (ht ▸ h)).2 ht
    rw [ht, hp.locals, allocatorAt_iff hk]
    simp [hnot]
  · obtain ⟨-, -, -, -, hm, hl⟩ := tableOf_parsed hn
    rw [hfiled n hn]
    simp [hm.symm, hl.symm]

theorem libcTransform_becomes (hk : f.flatten[k]? = some ins) :
    ∃ is, (libcTransform f)[k]? = some is ∧ Becomes (Pending f.flatten k) ins is := by
  have hfiled : ins.Allocates → ∀ t, ¬ins.FiledIn t := fun ha t ⟨name, hc, ht⟩ => by
    rw [tableOf_allocator ha hc] at ht
    cases ht
  by_cases ha : ins.Allocates
  · by_cases hpend : Pending f.flatten k
    · refine ⟨_, libcTransform_filed hk (o := some .localMallocs) fun e he => ?_, .localMalloc ha hpend⟩
      rw [mem_tables_iff hk he]
      simp [ha, hpend, hfiled ha]
    · refine ⟨_, libcTransform_filed hk (o := some .mallocs) fun e he => ?_, .malloc ha hpend⟩
      rw [mem_tables_iff hk he]
      simp [ha, hpend, hfiled ha]
  · by_cases hc : ∃ name, ins.Calls name
    · obtain ⟨name, hc⟩ := hc
      refine ⟨_, libcTransform_filed hk (o := tableOf (fmap name)) fun e he => ?_, ?_⟩
      · rw [mem_tables_iff hk he]
        simp only [ha, false_and, false_or]
        exact ⟨fun ⟨name', hc', ht⟩ => hc.name_eq hc' ▸ ht, fun ht => ⟨name, hc, ht⟩⟩
      · cases hr : (tableOf (fmap name)).bind fun t => replacements.lookup t with
        | some r => exact .replaced hc hr
        | none => exact .kept ha fun name' hc' => hc.name_eq hc' ▸ hr
    · refine ⟨_, libcTransform_filed hk (o := none) fun e he => ?_,
        .kept ha fun name h => absurd ⟨name, h⟩ hc⟩
      rw [mem_tables_iff hk he]
      simp only [ha, false_and, false_or, reduceCtorEq, iff_false]
      exact fun ⟨name, h, _⟩ => hc ⟨name, h⟩

theorem length_libcTransform : (libcTransform f).length = f.flatten.length := by
  have h : ∀ (es : List (CallTable × Replacement)) (code : List (List Instruction)) (p : ParsedCalls),
      (es.foldl (fun code e => e.2.transform (p.tables e.1) code) code).length = code.length := by
    intro es code p
    induction es generalizing code with
    | nil => rfl
    | cons e es ih => rw [List.foldl_cons, ih, Replacement.transform, List.length_mapIdx]
  rw [libcTransform, libcTransforms_eq, List.foldl_map, h, List.length_map]

/-- The pass goes through the instructions one by one: a library call becomes a
call of the runtime's function, everything else stays as it is. -/
theorem libcTransform_in_place : (libcTransform f).length = f.flatten.length ∧
    ∀ k ins, f.flatten[k]? = some ins →
      ∃ is, (libcTransform f)[k]? = some is ∧ Becomes (Pending f.flatten k) ins is :=
  ⟨length_libcTransform, fun _ _ hk => libcTransform_becomes hk⟩

-- ---------------------------------------------------------------------------
-- A second run
-- ---------------------------------------------------------------------------

def Settled (ins : Instruction) : Prop :=
  ¬ins.Allocates ∧ ∀ name, ins.Calls name → replacementOf name = none

theorem Settled.becomes {pending : Prop} (hs : Settled ins) (h : Becomes pending ins is) : is = [ins] := by
  cases h with
  | localMalloc ha _ => exact absurd ha hs.1
  | malloc ha _ => exact absurd ha hs.1
  | replaced hc hr =>
    rw [hs.2 _ hc] at hr
    cases hr
  | kept => rfl

theorem settled_call {c : LibCall} (hc : c.callee = some ⟨name, true⟩) (h : fmap name = 0) :
    Settled (.call c) := by
  have hcalls : (Instruction.call c).Calls name := ⟨c, rfl, hc⟩
  refine ⟨?_, fun name' hc' => ?_⟩
  · rintro (ha | ha)
    · rw [hcalls.name_eq ha, fmap_one.mpr rfl] at h
      cases h
    · rw [hcalls.name_eq ha, fmap_two.mpr rfl] at h
      cases h
  · rw [← hcalls.name_eq hc', replacementOf, h]
    rfl

theorem settled_other : Settled .other :=
  ⟨by rintro (⟨_, ⟨⟩, _⟩ | ⟨_, ⟨⟩, _⟩), by rintro _ ⟨_, ⟨⟩, _⟩⟩

theorem fmap_replacement : ∀ e ∈ replacements, fmap e.2.name = 0 := by
  decide +kernel

theorem settled_replace {r : Replacement} (hr : fmap r.name = 0) (hc : ins.Calls name) :
    ∀ i ∈ r.replace ins, Settled i := by
  obtain ⟨c, rfl, -⟩ := hc
  intro i hi
  rcases List.mem_cons.mp hi with rfl | hi
  · exact settled_call rfl hr
  · obtain rfl : i = .other := by
      split at hi
      · exact List.mem_singleton.mp hi
      · cases hi
    exact settled_other

theorem fmap_replacementOf (h : replacementOf name = some r) : fmap r.name = 0 := by
  obtain ⟨t, -, hl⟩ := Option.bind_eq_some_iff.mp h
  obtain ⟨l₁, l₂, he, -⟩ := List.lookup_eq_some_iff.mp hl
  exact fmap_replacement (t, r) (he ▸ List.mem_append_right l₁ (List.mem_cons_self ..))

theorem Becomes.settled {pending : Prop} (h : Becomes pending ins is) : ∀ i ∈ is, Settled i := by
  cases h with
  | localMalloc ha _ =>
    obtain hc | hc := ha <;>
      exact settled_replace (fmap_replacement (.localMallocs, _) (by decide +kernel)) hc
  | malloc ha _ =>
    obtain hc | hc := ha <;>
      exact settled_replace (fmap_replacement (.mallocs, _) (by decide +kernel)) hc
  | replaced hc hr => exact settled_replace (fmap_replacementOf hr) hc
  | kept ha hn =>
    intro i hi
    obtain rfl := List.mem_singleton.mp hi
    exact ⟨ha, hn⟩

theorem libcTransform_settled : ∀ i ∈ (libcTransform f).flatten, Settled i := by
  intro i hi
  obtain ⟨is, his, hi⟩ := List.mem_flatten.mp hi
  obtain ⟨k, hlt, rfl⟩ := List.mem_iff_getElem.mp his
  obtain ⟨ins, hk⟩ : ∃ ins, f.flatten[k]? = some ins :=
    ⟨_, List.getElem?_eq_getElem (length_libcTransform ▸ hlt)⟩
  obtain ⟨is, hget, hb⟩ := libcTransform_becomes hk
  obtain rfl := Option.some.inj ((List.getElem?_eq_getElem hlt).symm.trans hget)
  exact hb.settled i hi

theorem libcTransform_of_settled {l : List Instruction} (hl : ∀ i ∈ l, Settled i) :
    libcTransform [l] = l.map fun ins => [ins] := by
  have hflat : [l].flatten = l := List.append_nil l
  refine List.ext_getElem? fun k => ?_
  rw [List.getElem?_map]
  cases hk : l[k]? with
  | none =>
    have hlen : [l].flatten.length ≤ k := hflat.symm ▸ List.getElem?_eq_none_iff.mp hk
    exact List.getElem?_eq_none (length_libcTransform.trans_le hlen)
  | some ins =>
    obtain ⟨is, hget, hb⟩ := libcTransform_becomes (f := [l]) (hflat.symm ▸ hk)
    obtain rfl := (hl ins (List.mem_of_getElem? hk)).becomes hb
    exact hget

theorem libcTransform_idempotent :
    libcTransform [(libcTransform f).flatten] = (libcTransform f).flatten.map fun ins => [ins] :=
  libcTransform_of_settled libcTransform_settled

end TrackFM
