import TrackFM.Lib.Cfg
import Mathlib.Logic.Function.Basic

/-!
# Splicing chunk checks into a loop

`_createCARMLoop` of the loop transform pass: a check, a body and an entry block
go into the back edge for each GEP, and the first GEP of a loop gets it an outer
header. Side tables keep the latch and the preheader of the round before. Of
the blocks, terminators, PHI nodes and the inserted calls are kept.
-/

namespace TrackFM

open Lib (Terminator Phi Cfg)

/-- The values of the function and those the pass inserts, by the GEP they are for. -/
inductive CarmValue (V : Type) where
  | original (v : V)
  | headerDerefCall (id : Nat)
  | boundPointerHeader (id : Nat)
  | bodyDerefCall (id : Nat)
  | boundPointer (id : Nat)
  | carmBoundsCheck (id : Nat)
  | carmPointerOperand (id : Nat)
  | incOperand (id : Nat)
  | tmpCarmPointerOperand (id : Nat)
  | tmpCarmBoundCheck (id : Nat)
  | newGep (id : Nat)
  deriving DecidableEq

inductive CarmCode where
  | loopInit (id : Nat)
  | derefLoop (id : Nat)
  | counterCmp (id : Nat)
  deriving DecidableEq

structure LoopStructure where
  header : Nat
  preHeader : Nat
  latches : List Nat
  basicBlocks : List Nat

/-- A function under transformation, with the entries of the side tables for
one loop. -/
structure Transform (V : Type) where
  cfg : Cfg (CarmValue V)
  code : Nat → List CarmCode
  /-- The number of the next block. -/
  next : Nat
  loopPreHeaderUpdates : Option Nat
  loopLatchUpdates : Option (List Nat)
  loopBasicBlocksUpdate : List Nat
  id : Nat

abbrev GepRequest (V : Type) := V × Bool

namespace Transform

variable {V : Type}

def start (f : Cfg V) (next : Nat) (ls : LoopStructure) : Transform V where
  cfg := { term := f.term, phis := fun b => (f.phis b).map (Phi.mapValues .original .original) }
  code _ := []
  next := next
  loopPreHeaderUpdates := none
  loopLatchUpdates := none
  loopBasicBlocksUpdate := ls.basicBlocks
  id := 0

/-- `BasicBlock::Create` with a branch, entered into the table of the loop. -/
def create (s : Transform V) (succs : List Nat) : Transform V × Nat :=
  ({ s with
      cfg.term := Function.update s.cfg.term s.next (.branch succs)
      cfg.phis := Function.update s.cfg.phis s.next []
      code := Function.update s.code s.next []
      next := s.next + 1
      loopBasicBlocksUpdate := s.next :: s.loopBasicBlocksUpdate }, s.next)

def redirectTerm (s : Transform V) (b : Nat) (f : Nat → Nat) : Transform V :=
  { s with cfg.term := Function.update s.cfg.term b ((s.cfg.term b).redirect f) }

/-- Rename the sources `olds` to `new` in the PHI nodes of the blocks in the table. -/
def redirectPHIs (s : Transform V) (olds : List Nat) (new : Nat) : Transform V :=
  { s with cfg.phis := fun b =>
      if b ∈ s.loopBasicBlocksUpdate then
        (s.cfg.phis b).map (Phi.mapBlocks fun a => if a ∈ olds then new else a)
      else s.cfg.phis b }

def insertPHIs (s : Transform V) (b : Nat) (φs : List (Phi (CarmValue V))) : Transform V :=
  { s with cfg.phis := Function.update s.cfg.phis b (s.cfg.phis b ++ φs) }

def insertCode (s : Transform V) (b : Nat) (cs : List CarmCode) : Transform V :=
  { s with code := Function.update s.code b (cs ++ s.code b) }

def replaceAllUsesWith [DecidableEq V] (s : Transform V) (old new : CarmValue V) : Transform V :=
  { s with cfg.phis := fun b =>
      (s.cfg.phis b).map (Phi.mapUses fun v => if v = old then new else v) }

def redirectOrigpreheaderToOuterloopheader (s : Transform V) (ls : LoopStructure)
    (carmHeader : Nat) : Transform V :=
  s.redirectTerm (s.loopPreHeaderUpdates.getD ls.preHeader) fun _ => carmHeader

def addBranchFromOuterloopheaderToOriginheader (s : Transform V) (outerLoopHeaderBB originheaderBB : Nat) :
    Transform V :=
  s.redirectTerm outerLoopHeaderBB fun _ => originheaderBB

def redirectOrigpreheaderPHIsToOuterloopheader (s : Transform V) (outerLoopHeaderBB preheader : Nat) :
    Transform V :=
  s.redirectPHIs [preheader] outerLoopHeaderBB

def addBranchOriglatchToOuterlooplatch (s : Transform V) (ls : LoopStructure)
    (carmObjectCheckBB originHeader : Nat) : Transform V :=
  (s.loopLatchUpdates.getD ls.latches).foldl (fun s bb =>
    s.redirectTerm bb fun b => if b = originHeader then carmObjectCheckBB else b) s

def redirectOriglatchPHIsToOuterlooplatch (s : Transform V) (ls : LoopStructure)
    (outerLoopLatchBB : Nat) : Transform V :=
  s.redirectPHIs (s.loopLatchUpdates.getD ls.latches) outerLoopLatchBB

/-- An entry of a PHI node for each edge from `a` to `b`. -/
def addIncoming (s : Transform V) (v : CarmValue V) (a b : Nat) : List (CarmValue V × Nat) :=
  List.replicate ((s.cfg.succs a).count b) (v, a)

/-- `none`: `gep_state` is null, because the outer header does not lead to the header. -/
def createCARMLoopIter [DecidableEq V] (s : Transform V) (ls : LoopStructure)
    (outerLoopHeader carmObjectCheckBB outerLoopBody innerLoopEntry : Nat) (g : GepRequest V) :
    Option (Transform V) :=
  if (s.cfg.succs outerLoopHeader).count ls.header = 0 then none
  else
    let k := s.id
    let incOperand := if g.2 then .carmPointerOperand k else .incOperand k
    let boundsCheck : Phi (CarmValue V) := ⟨.carmBoundsCheck k,
      [(.boundPointerHeader k, outerLoopHeader), (.tmpCarmBoundCheck k, innerLoopEntry)]⟩
    let pointerOperand : Phi (CarmValue V) := ⟨.carmPointerOperand k,
      s.addIncoming (.headerDerefCall k) outerLoopHeader ls.header ++
        [(.tmpCarmPointerOperand k, innerLoopEntry)]⟩
    let tmpPointerOperand : Phi (CarmValue V) := ⟨.tmpCarmPointerOperand k,
      s.addIncoming (.bodyDerefCall k) outerLoopBody innerLoopEntry ++
        s.addIncoming incOperand carmObjectCheckBB innerLoopEntry⟩
    let tmpBoundCheck : Phi (CarmValue V) := ⟨.tmpCarmBoundCheck k,
      s.addIncoming (.boundPointer k) outerLoopBody innerLoopEntry ++
        s.addIncoming (.carmBoundsCheck k) carmObjectCheckBB innerLoopEntry⟩
    let s := s.insertPHIs ls.header [boundsCheck, pointerOperand]
    let s := s.insertPHIs innerLoopEntry [tmpPointerOperand, tmpBoundCheck]
    let s := s.insertCode outerLoopHeader [.loopInit k, .derefLoop k]
    let s := s.insertCode outerLoopBody [.derefLoop k]
    let s := s.insertCode carmObjectCheckBB [.counterCmp k]
    let s := s.replaceAllUsesWith (.original g.1) (.newGep k)
    some { s with id := k + 1 }

/-- The outer header of the loop, created for its first GEP. -/
def outerLoopHeader (s : Transform V) (ls : LoopStructure) : Transform V × Nat :=
  match s.loopPreHeaderUpdates with
  | some bb => (s, bb)
  | none =>
    let (s, bb) := s.create [ls.header]
    let s := s.redirectOrigpreheaderToOuterloopheader ls bb
    let s := s.addBranchFromOuterloopheaderToOriginheader bb ls.header
    (s.redirectOrigpreheaderPHIsToOuterloopheader bb ls.preHeader, bb)

def createCARMLoop [DecidableEq V] (s : Transform V) (ls : LoopStructure) (g : GepRequest V) :
    Option (Transform V) := do
  let (s, outerLoopHeaderBB) := s.outerLoopHeader ls
  let (s, innerLoopEntryBB) := s.create [ls.header]
  let (s, outerLoopBodyBB) := s.create [innerLoopEntryBB]
  let (s, carmObjectCheckBB) := s.create [outerLoopBodyBB, innerLoopEntryBB]
  let s := s.addBranchOriglatchToOuterlooplatch ls carmObjectCheckBB ls.header
  let s := s.redirectOriglatchPHIsToOuterlooplatch ls innerLoopEntryBB
  let s ← s.createCARMLoopIter ls outerLoopHeaderBB carmObjectCheckBB outerLoopBodyBB
    innerLoopEntryBB g
  return { s with
    loopPreHeaderUpdates := some outerLoopHeaderBB
    loopLatchUpdates := some [innerLoopEntryBB] }

def transformAll [DecidableEq V] (s : Transform V) (ls : LoopStructure) :
    List (GepRequest V) → Option (Transform V)
  | [] => some s
  | g :: gs => do
    let s ← s.transformAll ls gs
    s.createCARMLoop ls g

-- ---------------------------------------------------------------------------
-- One round
-- ---------------------------------------------------------------------------

/-- What a round for `g` does to a PHI node: the back edge comes from its entry
block, and the GEP is the local pointer. -/
def revise [DecidableEq V] (s : Transform V) (back : Nat) (g : GepRequest V)
    (φ : Phi (CarmValue V)) : Phi (CarmValue V) :=
  (φ.mapBlocks fun a => if a = back then s.next else a).mapUses fun v =>
    if v = .original g.1 then .newGep s.id else v

/-- What a round for `g` does once there is an outer header `o`; the edge to the
header it splices into comes from `back`. -/
structure Round [DecidableEq V] (ls : LoopStructure) (o back : Nat) (g : GepRequest V)
    (s s' : Transform V) : Prop where
  next : s'.next = s.next + 3
  id : s'.id = s.id + 1
  preHeader : s'.loopPreHeaderUpdates = some o
  latches : s'.loopLatchUpdates = some [s.next]
  table : ∀ b, b ∈ s'.loopBasicBlocksUpdate ↔
    b ∈ s.loopBasicBlocksUpdate ∨ s.next ≤ b ∧ b < s.next + 3
  spliced : s'.cfg.term back = (s.cfg.term back).redirect fun b =>
    if b = ls.header then s.next + 2 else b
  term : ∀ a < s.next, a ≠ back → s'.cfg.term a = s.cfg.term a
  entry : s'.cfg.term s.next = .branch [ls.header]
  body : s'.cfg.term (s.next + 1) = .branch [s.next]
  check : s'.cfg.term (s.next + 2) = .branch [s.next + 1, s.next]
  blank : ∀ a, s.next + 3 ≤ a → s'.cfg.term a = s.cfg.term a
  phis : ∀ a < s.next, a ∈ s.loopBasicBlocksUpdate → ∃ φs, s'.cfg.phis a =
    (s.cfg.phis a).map (s.revise back g) ++ φs ∧
    (a ≠ ls.header → φs = []) ∧ (a = ls.header → φs ≠ []) ∧ ∀ φ ∈ φs, φ.sources = [o, s.next]
  phis_entry : ∀ φ ∈ s'.cfg.phis s.next, φ.sources = [s.next + 1, s.next + 2]
  phis_body : s'.cfg.phis (s.next + 1) = []
  phis_check : s'.cfg.phis (s.next + 2) = []
  code : ∀ a < s.next, a ≠ o → s'.code a = s.code a
  code_outer : s'.code o = [.loopInit s.id, .derefLoop s.id] ++ s.code o
  code_entry : s'.code s.next = []
  code_body : s'.code (s.next + 1) = [.derefLoop s.id]
  code_check : s'.code (s.next + 2) = [.counterCmp s.id]

def spliceBlocks (s : Transform V) (ls : LoopStructure) : Transform V :=
  let (s, innerLoopEntryBB) := s.create [ls.header]
  let (s, outerLoopBodyBB) := s.create [innerLoopEntryBB]
  let (s, carmObjectCheckBB) := s.create [outerLoopBodyBB, innerLoopEntryBB]
  (s.addBranchOriglatchToOuterlooplatch ls carmObjectCheckBB ls.header)
    |>.redirectOriglatchPHIsToOuterlooplatch ls innerLoopEntryBB

theorem createCARMLoop_eq [DecidableEq V] {s s₁ : Transform V} {ls : LoopStructure}
    {g : GepRequest V} (hs : s.outerLoopHeader ls = (s₁, o)) : s.createCARMLoop ls g =
      ((s₁.spliceBlocks ls).createCARMLoopIter ls o (s₁.next + 2) (s₁.next + 1) s₁.next g).map
        fun s => { s with loopPreHeaderUpdates := some o, loopLatchUpdates := some [s₁.next] } := by
  unfold createCARMLoop
  rw [hs, Option.map_eq_bind]
  rfl

section
variable {s : Transform V} {ls : LoopStructure} {back : Nat}

theorem spliceBlocks_term (hback : s.loopLatchUpdates.getD ls.latches = [back])
    (hlt : back < s.next) :
    (s.spliceBlocks ls).cfg.term = Function.update (Function.update (Function.update
      (Function.update s.cfg.term s.next (.branch [ls.header])) (s.next + 1) (.branch [s.next]))
      (s.next + 2) (.branch [s.next + 1, s.next])) back
      ((s.cfg.term back).redirect fun b => if b = ls.header then s.next + 2 else b) := by
  have h₀ : back ≠ s.next := by omega
  have h₁ : back ≠ s.next + 1 := by omega
  have h₂ : back ≠ s.next + 1 + 1 := by omega
  simp [spliceBlocks, create, addBranchOriglatchToOuterlooplatch,
    redirectOriglatchPHIsToOuterlooplatch, redirectPHIs, redirectTerm, hback, h₀, h₁, h₂]

theorem spliceBlocks_phis (hback : s.loopLatchUpdates.getD ls.latches = [back]) :
    (s.spliceBlocks ls).cfg.phis = fun a => if s.next ≤ a ∧ a < s.next + 3 then []
      else if a ∈ s.loopBasicBlocksUpdate then
        (s.cfg.phis a).map (Phi.mapBlocks fun a => if a = back then s.next else a)
      else s.cfg.phis a := by
  funext a
  by_cases ha : s.next ≤ a ∧ a < s.next + 3
  · have hc : a = s.next ∨ a = s.next + 1 ∨ a = s.next + 1 + 1 := by omega
    rw [if_pos ha]
    rcases hc with rfl | rfl | rfl <;>
      simp [spliceBlocks, create, addBranchOriglatchToOuterlooplatch, Function.update_apply,
        redirectOriglatchPHIsToOuterlooplatch, redirectPHIs, redirectTerm, hback]
  · have h₀ : a ≠ s.next := by omega
    have h₁ : a ≠ s.next + 1 := by omega
    have h₂ : a ≠ s.next + 1 + 1 := by omega
    rw [if_neg ha]
    simp [spliceBlocks, create, addBranchOriglatchToOuterlooplatch,
      redirectOriglatchPHIsToOuterlooplatch, redirectPHIs, redirectTerm, hback, h₀, h₁, h₂]

theorem spliceBlocks_code (hback : s.loopLatchUpdates.getD ls.latches = [back]) :
    (s.spliceBlocks ls).code = Function.update (Function.update (Function.update s.code
      s.next []) (s.next + 1) []) (s.next + 2) [] := by
  simp [spliceBlocks, create, addBranchOriglatchToOuterlooplatch,
    redirectOriglatchPHIsToOuterlooplatch, redirectPHIs, redirectTerm, hback]

theorem spliceBlocks_counts (hback : s.loopLatchUpdates.getD ls.latches = [back]) :
    (s.spliceBlocks ls).id = s.id ∧ (s.spliceBlocks ls).next = s.next + 3 ∧
      (s.spliceBlocks ls).loopBasicBlocksUpdate =
        (s.next + 2) :: (s.next + 1) :: s.next :: s.loopBasicBlocksUpdate := by
  simp [spliceBlocks, create, addBranchOriglatchToOuterlooplatch,
    redirectOriglatchPHIsToOuterlooplatch, redirectPHIs, redirectTerm, hback]

theorem spliceBlocks_succs (hback : s.loopLatchUpdates.getD ls.latches = [back])
    (hlt : back < s.next) (ho : s.cfg.term o = .branch [ls.header]) (hol : o < s.next)
    (hbo : o ≠ back) : (s.spliceBlocks ls).cfg.succs o = [ls.header] ∧
      (s.spliceBlocks ls).cfg.succs (s.next + 1) = [s.next] ∧
      (s.spliceBlocks ls).cfg.succs (s.next + 2) = [s.next + 1, s.next] := by
  simp only [Cfg.succs, spliceBlocks_term hback hlt]
  refine ⟨?_, ?_, ?_⟩
  · simp [hbo, Nat.ne_of_lt hol, show o ≠ s.next + 1 by omega,
      show o ≠ s.next + 2 by omega, ho, Terminator.succs]
  · simp [show s.next + 1 ≠ back by omega, Terminator.succs]
  · simp [show s.next + 2 ≠ back by omega, Terminator.succs]

end

theorem createCARMLoop_round [DecidableEq V] {s s₁ : Transform V} {ls : LoopStructure} {o back : Nat}
    {g : GepRequest V} (hs : s.outerLoopHeader ls = (s₁, o)) (ho : s₁.cfg.term o = .branch [ls.header])
    (hback : s₁.loopLatchUpdates.getD ls.latches = [back]) (hlt : back < s₁.next)
    (hh : ls.header < s₁.next) (hol : o < s₁.next) (hbo : o ≠ back) :
    ∃ s', s.createCARMLoop ls g = some s' ∧ Round ls o back g s₁ s' := by
  have hterm := spliceBlocks_term hback hlt
  have hphis := spliceBlocks_phis hback
  have hcode := spliceBlocks_code hback
  obtain ⟨hid, hnext, htable⟩ := spliceBlocks_counts hback
  obtain ⟨houter, hbody, hcheck⟩ := spliceBlocks_succs hback hlt ho hol hbo
  rw [createCARMLoop_eq hs, createCARMLoopIter]
  have hcounts : [s₁.next + 1, s₁.next].count s₁.next = 1 := by simp
  simp only [addIncoming, houter, hbody, hcheck, hcounts, List.count_singleton_self, hid]
  rw [if_neg (by decide)]
  refine ⟨_, rfl, ?_⟩
  simp only [insertPHIs, insertCode, replaceAllUsesWith, hterm, hphis, hcode, htable, hnext]
  constructor
  case next => rfl
  case id => rfl
  case preHeader => rfl
  case latches => rfl
  case table =>
    intro b
    by_cases hb : b ∈ s₁.loopBasicBlocksUpdate
    · simp [hb]
    · simp only [List.mem_cons, hb, or_false, false_or]
      omega
  case spliced => simp
  case term =>
    intro a ha hab
    simp [hab, Nat.ne_of_lt ha, show a ≠ s₁.next + 1 by omega, show a ≠ s₁.next + 2 by omega]
  case entry => simp [(Nat.ne_of_lt hlt).symm]
  case body => simp [show s₁.next + 1 ≠ back by omega]
  case check => simp [show s₁.next + 2 ≠ back by omega]
  case blank =>
    intro a ha
    simp [show a ≠ back by omega, show a ≠ s₁.next by omega, show a ≠ s₁.next + 1 by omega,
      show a ≠ s₁.next + 2 by omega]
  case phis =>
    intro a ha htab
    have hnew : ¬(s₁.next ≤ a ∧ a < s₁.next + 3) := by omega
    by_cases hah : a = ls.header
    · subst hah
      refine ⟨[⟨.carmBoundsCheck s₁.id, [(.boundPointerHeader s₁.id, o),
          (.tmpCarmBoundCheck s₁.id, s₁.next)]⟩, ⟨.carmPointerOperand s₁.id,
            [(.headerDerefCall s₁.id, o), (.tmpCarmPointerOperand s₁.id, s₁.next)]⟩],
        ?_, fun h => absurd rfl h, fun _ => by simp, ?_⟩
      · simp only [Function.update_self, Function.update_of_ne (Nat.ne_of_lt hh), if_neg hnew,
          if_pos htab, List.map_append, List.map_map]
        rfl
      · simp [Phi.sources]
    · refine ⟨[], ?_, fun _ => rfl, fun h => absurd h hah,
        fun _ h => absurd h List.not_mem_nil⟩
      simp [Nat.ne_of_lt ha, hah, hnew, htab, revise]
  case phis_entry =>
    have hnew : s₁.next ≤ s₁.next ∧ s₁.next < s₁.next + 3 := by omega
    simp only [Function.update_of_ne (Nat.ne_of_lt hh).symm, Function.update_self, if_pos hnew,
      List.nil_append]
    intro φ hφ
    obtain ⟨ψ, hψ, rfl⟩ := List.mem_map.mp hφ
    rw [Phi.sources_mapUses]
    rcases List.mem_pair.mp hψ with rfl | rfl <;> rfl
  case phis_body => simp [show s₁.next + 1 ≠ ls.header by omega]
  case phis_check => simp [show s₁.next + 2 ≠ ls.header by omega]
  case code =>
    intro a ha hao
    simp [hao, Nat.ne_of_lt ha, show a ≠ s₁.next + 1 by omega, show a ≠ s₁.next + 2 by omega]
  case code_outer =>
    simp [Nat.ne_of_lt hol, show o ≠ s₁.next + 1 by omega, show o ≠ s₁.next + 2 by omega]
  case code_entry => simp [(Nat.ne_of_lt hol).symm]
  case code_body => simp [show s₁.next + 1 ≠ o by omega]
  case code_check => simp [show s₁.next + 2 ≠ o by omega]

end Transform

-- ---------------------------------------------------------------------------
-- After some rounds
-- ---------------------------------------------------------------------------

open Transform

variable {V : Type}

/-- A loop in simplified form of a function with `next` blocks: one preheader,
which leads only to the header, one latch with one back edge, no other way to
the header, and PHI nodes that match the edges. -/
structure Simplified (f : Cfg V) (next : Nat) (ls : LoopStructure) (latch : Nat) : Prop where
  latches : ls.latches = [latch]
  header_mem : ls.header ∈ ls.basicBlocks
  latch_mem : latch ∈ ls.basicBlocks
  preHeader_not_mem : ls.preHeader ∉ ls.basicBlocks
  preHeader_succs : f.succs ls.preHeader = [ls.header]
  backEdge : (f.succs latch).count ls.header = 1
  entries : ∀ a, ls.header ∈ f.succs a → a = ls.preHeader ∨ a = latch
  created : ∀ b ∈ ls.basicBlocks, b < next
  preHeader_created : ls.preHeader < next
  closed : ∀ a b, b ∈ f.succs a → a < next ∧ b < next
  phis : ∀ b ∈ ls.basicBlocks, ∀ φ ∈ f.phis b, f.Matches b φ

def entryBB (o k : Nat) : Nat := o + 1 + 3 * k

def bodyBB (o k : Nat) : Nat := o + 1 + 3 * k + 1

def checkBB (o k : Nat) : Nat := o + 1 + 3 * k + 2

/-- The block the edge to the header comes from after `n` rounds. -/
def backBB (o latch : Nat) : Nat → Nat
  | 0 => latch
  | n + 1 => entryBB o n

/-- The block the back edge reaches after `k` of `n` rounds. -/
def nextBB (ls : LoopStructure) (o n k : Nat) : Nat := if k = n then ls.header else checkBB o k

def rewritten [DecidableEq V] (v : V) : List (GepRequest V) → CarmValue V
  | [] => .original v
  | g :: gs => if rewritten v gs = .original g.1 then .newGep gs.length else rewritten v gs

def sourceBB (ls : LoopStructure) (o latch n a : Nat) : Nat :=
  if a = ls.preHeader then o else if a = latch then backBB o latch n else a

def transformed [DecidableEq V] (ls : LoopStructure) (o latch : Nat) (gs : List (GepRequest V))
    (φ : Phi V) : Phi (CarmValue V) :=
  (φ.mapValues .original (rewritten · gs)).mapBlocks (sourceBB ls o latch gs.length)

/-- The function and the tables with the outer header `o` and the rounds for `gs`. -/
structure Spliced [DecidableEq V] (f : Cfg V) (o : Nat) (ls : LoopStructure) (latch : Nat)
    (gs : List (GepRequest V)) (s : Transform V) : Prop where
  next : s.next = o + 1 + 3 * gs.length
  id : s.id = gs.length
  latches : s.loopLatchUpdates.getD ls.latches = [backBB o latch gs.length]
  table : ∀ b, b ∈ s.loopBasicBlocksUpdate ↔
    b ∈ ls.basicBlocks ∨ o ≤ b ∧ b < o + 1 + 3 * gs.length
  preHeader_term : s.cfg.term ls.preHeader = (f.term ls.preHeader).redirect fun _ => o
  latch_term : s.cfg.term latch = if gs = [] then f.term latch else
    (f.term latch).redirect fun b => if b = ls.header then checkBB o 0 else b
  others : ∀ a, a ≠ ls.preHeader → a ≠ latch → a < o ∨ s.next ≤ a → s.cfg.term a = f.term a
  outer : s.cfg.term o = .branch [ls.header]
  entry : ∀ k < gs.length, s.cfg.term (entryBB o k) = .branch [nextBB ls o gs.length (k + 1)]
  body : ∀ k < gs.length, s.cfg.term (bodyBB o k) = .branch [entryBB o k]
  check : ∀ k < gs.length, s.cfg.term (checkBB o k) = .branch [bodyBB o k, entryBB o k]
  phis : ∀ b ∈ ls.basicBlocks, ∃ φs,
    s.cfg.phis b = (f.phis b).map (transformed ls o latch gs) ++ φs ∧
    (b ≠ ls.header → φs = []) ∧ (b = ls.header → gs ≠ [] → φs ≠ []) ∧
    ∀ φ ∈ φs, φ.sources = [o, backBB o latch gs.length]
  phis_outer : s.cfg.phis o = []
  phis_entry : ∀ k < gs.length, ∀ φ ∈ s.cfg.phis (entryBB o k),
    φ.sources = [bodyBB o k, checkBB o k]
  phis_body : ∀ k < gs.length, s.cfg.phis (bodyBB o k) = []
  phis_check : ∀ k < gs.length, s.cfg.phis (checkBB o k) = []
  code : ∀ a < o, s.code a = []
  code_outer : ∀ k, (s.code o).count (.loopInit k) = if k < gs.length then 1 else 0
  code_entry : ∀ k < gs.length, s.code (entryBB o k) = []
  code_body : ∀ k < gs.length, s.code (bodyBB o k) = [.derefLoop k]
  code_check : ∀ k < gs.length, s.code (checkBB o k) = [.counterCmp k]

section
variable {f : Cfg V} {o latch : Nat} {ls : LoopStructure} {gs : List (GepRequest V)}
  {s s' : Transform V}

theorem Simplified.header_lt (h : Simplified f o ls latch) : ls.header < o := h.created _ h.header_mem

theorem Simplified.latch_lt (h : Simplified f o ls latch) : latch < o := h.created _ h.latch_mem

theorem Simplified.latch_ne (h : Simplified f o ls latch) : latch ≠ ls.preHeader := fun he =>
  h.preHeader_not_mem (he ▸ h.latch_mem)

theorem Simplified.source_lt (h : Simplified f o ls latch) (hb : b ∈ ls.basicBlocks)
    (hφ : φ ∈ f.phis b) (ha : a ∈ φ.sources) : a < o := by
  have hcount := h.phis b hb φ hφ a
  have hpos := List.count_pos_iff.mpr ha
  rw [hcount] at hpos
  exact (h.closed a b (List.count_pos_iff.mp hpos)).1

theorem backBB_cases (h : Simplified f o ls latch) (n : Nat) : backBB o latch n < o + 1 + 3 * n ∧
    o ≠ backBB o latch n ∧ ls.preHeader ≠ backBB o latch n ∧
    ∀ a < o, a ≠ latch → a ≠ backBB o latch n := by
  have hl := h.latch_lt
  have hp := h.preHeader_created
  have hne := h.latch_ne
  cases n with
  | zero =>
    simp only [backBB]
    exact ⟨by omega, by omega, hne.symm, fun _ _ h => h⟩
  | succ n =>
    simp only [backBB, entryBB]
    exact ⟨by omega, by omega, by omega, fun a ha _ => by omega⟩

theorem inner_ne_backBB (h : Simplified f o ls latch) (h₁ : entryBB o k < a)
    (h₂ : a ≤ checkBB o k) : a ≠ backBB o latch n := by
  have hl := h.latch_lt
  simp only [entryBB, checkBB] at h₁ h₂
  cases n with
  | zero =>
    simp only [backBB]
    omega
  | succ n =>
    simp only [backBB, entryBB]
    omega

variable [DecidableEq V]

theorem outerLoopHeader_spliced (h : Simplified f o ls latch) : ∃ s,
    (start f o ls).outerLoopHeader ls = (s, o) ∧ Spliced f o ls latch [] s := by
  have hne := h.latch_ne
  have hpre := Nat.ne_of_lt h.preHeader_created
  have hlatch := Nat.ne_of_lt h.latch_lt
  refine ⟨_, rfl, ?_⟩
  simp only [redirectOrigpreheaderPHIsToOuterloopheader, addBranchFromOuterloopheaderToOriginheader,
    redirectOrigpreheaderToOuterloopheader, redirectPHIs, redirectTerm, start]
  constructor
  case next => rfl
  case id => rfl
  case latches => exact h.latches
  case table =>
    intro b
    by_cases hb : b ∈ ls.basicBlocks
    · simp [hb]
    · simp only [List.mem_cons, hb, or_false, false_or, List.length_nil]
      omega
  case preHeader_term => simp [hpre]
  case latch_term => simp [hlatch, hne]
  case others =>
    intro a hap hal ha
    have hao : a ≠ o := by
      simp only at ha
      omega
    simp [hap, hao]
  case outer => simp [hpre.symm, Terminator.redirect]
  case phis =>
    intro b hb
    have hbo := Nat.ne_of_lt (h.created b hb)
    refine ⟨[], ?_, fun _ => rfl, fun _ hnil => absurd rfl hnil, nofun⟩
    simp only [List.mem_cons, hb, or_true, if_true, Function.update_of_ne hbo, List.map_map,
      List.append_nil]
    refine List.map_congr_left fun φ _ => Phi.mapBlocks_congr fun a _ => ?_
    have hlat : (if a = latch then latch else a) = a := by
      split
      case isTrue ha => exact ha.symm
      case isFalse => rfl
    simp only [sourceBB, List.length_nil, backBB, hlat, List.not_mem_nil, or_false]
  case phis_outer => simp
  case code =>
    intro a ha
    simp [Nat.ne_of_lt ha]
  case code_outer => simp
  all_goals exact fun k hk => absurd hk (Nat.not_lt_zero k)

/-- Rewriting the uses of one more GEP and redirecting the back edge once more. -/
theorem revise_transformed (h : Simplified f o ls latch) (hs : Spliced f o ls latch gs s)
    (hb : b ∈ ls.basicBlocks) (hφ : φ ∈ f.phis b) :
    s.revise (backBB o latch gs.length) g (transformed ls o latch gs φ) =
      transformed ls o latch (g :: gs) φ := by
  obtain ⟨-, hob, -, hother⟩ := backBB_cases h gs.length
  rw [revise, hs.id, hs.next, transformed, Phi.mapBlocks_comp, Phi.mapUses_mapBlocks,
    Phi.mapUses_mapValues]
  refine Phi.mapBlocks_congr fun a ha => ?_
  rw [Phi.sources_mapValues] at ha
  have hao := h.source_lt hb hφ ha
  simp only [sourceBB]
  by_cases hap : a = ls.preHeader
  · simp only [if_pos hap, if_neg hob]
  · by_cases hal : a = latch
    · simp only [if_neg hap, if_pos hal, if_true]
      rfl
    · simp only [if_neg hap, if_neg hal, if_neg (hother a hao hal)]

/-- The blocks a round creates, as those of round `n`. -/
structure CreatedBlocks (o n : Nat) (s : Transform V) : Prop where
  body : s.cfg.term (bodyBB o n) = .branch [entryBB o n]
  check : s.cfg.term (checkBB o n) = .branch [bodyBB o n, entryBB o n]
  phis_entry : ∀ φ ∈ s.cfg.phis (entryBB o n), φ.sources = [bodyBB o n, checkBB o n]
  phis_body : s.cfg.phis (bodyBB o n) = []
  phis_check : s.cfg.phis (checkBB o n) = []
  code_entry : s.code (entryBB o n) = []
  code_body : s.code (bodyBB o n) = [.derefLoop n]
  code_check : s.code (checkBB o n) = [.counterCmp n]

theorem Transform.Round.created (hr : Round ls o back g s s') (hnext : s.next = entryBB o n)
    (hid : s.id = n) : CreatedBlocks o n s' := by
  cases s
  simp only at hnext hid
  subst hnext hid
  exact ⟨hr.body, hr.check, hr.phis_entry, hr.phis_body, hr.phis_check, hr.code_entry,
    hr.code_body, hr.code_check⟩

/-- A round rewrites the PHI nodes of the blocks created before and adds none. -/
theorem Spliced.created_phis (h : Simplified f o ls latch) (hs : Spliced f o ls latch gs s)
    (hr : Round ls o back g s s') (hoa : o ≤ a) (ha : a < s.next) :
    s'.cfg.phis a = (s.cfg.phis a).map (s.revise back g) := by
  have hho := h.header_lt
  have hnext := hs.next
  obtain ⟨φs, he, hnil, -, -⟩ := hr.phis a ha ((hs.table a).mpr (.inr ⟨hoa, by omega⟩))
  rw [he, hnil (by omega), List.append_nil]

theorem Spliced.round_latch (h : Simplified f o ls latch) (hs : Spliced f o ls latch gs s)
    (hr : Round ls o (backBB o latch gs.length) g s s') :
    s'.cfg.term latch = (f.term latch).redirect fun b => if b = ls.header then checkBB o 0 else b := by
  have hl := h.latch_lt
  have hnext := hs.next
  cases gs with
  | nil =>
    have hspliced := hr.spliced
    simp only [List.length_nil, backBB, hs.latch_term, if_true, hnext] at hspliced
    exact hspliced
  | cons g' gs =>
    rw [hr.term latch (by omega) (by simp only [List.length_cons, backBB, entryBB]; omega),
      hs.latch_term, if_neg (List.cons_ne_nil _ _)]

/-- The entry of the last round hands over to the new check. -/
theorem Spliced.round_entry (hs : Spliced f o ls latch gs s)
    (hr : Round ls o (backBB o latch gs.length) g s s') (hk : k < gs.length) :
    s'.cfg.term (entryBB o k) = .branch [nextBB ls o (gs.length + 1) (k + 1)] := by
  have hterm := hs.entry k hk
  have hnext := hs.next
  by_cases hlast : k + 1 = gs.length
  · have hspliced := hr.spliced
    rw [← hlast] at hspliced hterm ⊢
    simp only [backBB] at hspliced
    rw [hspliced, hterm, nextBB, nextBB, if_pos rfl, if_neg (by omega), hnext, ← hlast]
    simp [Terminator.redirect, checkBB]
  · rw [hr.term _ (by simp only [entryBB]; omega), hterm, nextBB, nextBB, if_neg hlast,
      if_neg (by omega)]
    obtain ⟨n, hn⟩ : ∃ n, gs.length = n + 1 := ⟨gs.length - 1, by omega⟩
    simp only [hn, backBB, entryBB]
    omega

theorem Spliced.round_phis (h : Simplified f o ls latch) (hs : Spliced f o ls latch gs s)
    (hr : Round ls o (backBB o latch gs.length) g s s') (hb : b ∈ ls.basicBlocks) :
    ∃ φs, s'.cfg.phis b = (f.phis b).map (transformed ls o latch (g :: gs)) ++ φs ∧
      (b ≠ ls.header → φs = []) ∧ (b = ls.header → φs ≠ []) ∧
      ∀ φ ∈ φs, φ.sources = [o, s.next] := by
  obtain ⟨-, hob, -, -⟩ := backBB_cases h gs.length
  have hbo := h.created b hb
  have hnext := hs.next
  obtain ⟨φs, he, hnil, -, hsrc⟩ := hs.phis b hb
  obtain ⟨φs', he', hnil', hne', hsrc'⟩ := hr.phis b (by omega) ((hs.table b).mpr (.inl hb))
  refine ⟨φs.map (s.revise (backBB o latch gs.length) g) ++ φs', ?_, ?_, ?_, ?_⟩
  · rw [he', he, List.map_append, List.map_map, List.append_assoc]
    exact congrArg₂ _ (List.map_congr_left fun φ hφ => revise_transformed h hs hb hφ) rfl
  · intro hbh
    simp [hnil hbh, hnil' hbh]
  · intro hbh
    simp [hne' hbh]
  · intro φ hφ
    rcases List.mem_append.mp hφ with hφ | hφ
    · obtain ⟨ψ, hψ, rfl⟩ := List.mem_map.mp hφ
      rw [revise, Phi.sources_mapUses, Phi.sources_mapBlocks, hsrc ψ hψ]
      simp only [List.map_cons, List.map_nil, if_neg hob, if_true]
    · exact hsrc' φ hφ

theorem Spliced.round_phis_entry (h : Simplified f o ls latch) (hs : Spliced f o ls latch gs s)
    (hr : Round ls o (backBB o latch gs.length) g s s') (hk : k < gs.length)
    (hφ : φ ∈ s'.cfg.phis (entryBB o k)) : φ.sources = [bodyBB o k, checkBB o k] := by
  have hnext := hs.next
  have hbody : bodyBB o k ≠ backBB o latch gs.length :=
    inner_ne_backBB h (Nat.lt_succ_self _) (Nat.le_succ _)
  have hcheck : checkBB o k ≠ backBB o latch gs.length :=
    inner_ne_backBB h (by simp only [entryBB, checkBB]; omega) (Nat.le_refl _)
  rw [hs.created_phis h hr (by simp only [entryBB]; omega) (by simp only [entryBB]; omega)] at hφ
  obtain ⟨ψ, hψ, rfl⟩ := List.mem_map.mp hφ
  rw [revise, Phi.sources_mapUses, Phi.sources_mapBlocks, hs.phis_entry k hk ψ hψ]
  simp [hbody, hcheck]

theorem Spliced.round (h : Simplified f o ls latch) (hs : Spliced f o ls latch gs s)
    (hr : Round ls o (backBB o latch gs.length) g s s') : Spliced f o ls latch (g :: gs) s' := by
  obtain ⟨hback, hob, hpb, hother⟩ := backBB_cases h gs.length
  have hnext := hs.next
  have hpo := h.preHeader_created
  have hlen : (g :: gs).length = gs.length + 1 := rfl
  have hnew := hr.created hs.next hs.id
  -- a block of the rounds before is in the table, and not where the round is spliced in
  have hbody : ∀ k < gs.length, bodyBB o k < s.next ∧ bodyBB o k ≠ backBB o latch gs.length := by
    intro k hk
    refine ⟨?_, inner_ne_backBB h (Nat.lt_succ_self _) (Nat.le_succ _)⟩
    simp only [bodyBB]
    omega
  have hcheck : ∀ k < gs.length, checkBB o k < s.next ∧ checkBB o k ≠ backBB o latch gs.length := by
    intro k hk
    refine ⟨?_, inner_ne_backBB h ?_ (Nat.le_refl _)⟩
    · simp only [checkBB]
      omega
    · simp only [entryBB, checkBB]
      omega
  constructor
  case next =>
    rw [hr.next, hnext, hlen]
    omega
  case id => rw [hr.id, hs.id, hlen]
  case latches =>
    rw [hr.latches, hnext]
    rfl
  case table =>
    intro b
    rw [hr.table, hs.table, hnext, hlen, or_assoc]
    refine or_congr_right ?_
    omega
  case preHeader_term => exact (hr.term _ (by omega) hpb).trans hs.preHeader_term
  case latch_term => exact (hs.round_latch h hr).trans (if_neg (List.cons_ne_nil _ _)).symm
  case others =>
    intro a hap hal ha
    rcases ha with ha | ha
    · exact (hr.term a (by omega) (hother a ha hal)).trans (hs.others a hap hal (.inl ha))
    · rw [hr.next] at ha
      exact (hr.blank a ha).trans (hs.others a hap hal (.inr (by omega)))
  case outer => exact (hr.term o (by omega) hob).trans hs.outer
  case entry =>
    refine Nat.forall_lt_succ_right.mpr ⟨fun k hk => hs.round_entry hr hk, ?_⟩
    rw [nextBB, hlen, if_pos rfl, ← hr.entry, hnext]
    rfl
  case body =>
    refine Nat.forall_lt_succ_right.mpr ⟨fun k hk => ?_, hnew.body⟩
    exact (hr.term _ (hbody k hk).1 (hbody k hk).2).trans (hs.body k hk)
  case check =>
    refine Nat.forall_lt_succ_right.mpr ⟨fun k hk => ?_, hnew.check⟩
    exact (hr.term _ (hcheck k hk).1 (hcheck k hk).2).trans (hs.check k hk)
  case phis =>
    intro b hb
    obtain ⟨φs, he, hnil, hne, hsrc⟩ := hs.round_phis h hr hb
    rw [hnext] at hsrc
    exact ⟨φs, he, hnil, fun hbh _ => hne hbh, hsrc⟩
  case phis_outer =>
    rw [hs.created_phis h hr (Nat.le_refl o) (by omega), hs.phis_outer, List.map_nil]
  case phis_entry =>
    exact Nat.forall_lt_succ_right.mpr
      ⟨fun k hk φ hφ => hs.round_phis_entry h hr hk hφ, hnew.phis_entry⟩
  case phis_body =>
    refine Nat.forall_lt_succ_right.mpr ⟨fun k hk => ?_, hnew.phis_body⟩
    rw [hs.created_phis h hr (by simp only [bodyBB]; omega) (hbody k hk).1, hs.phis_body k hk,
      List.map_nil]
  case phis_check =>
    refine Nat.forall_lt_succ_right.mpr ⟨fun k hk => ?_, hnew.phis_check⟩
    rw [hs.created_phis h hr (by simp only [checkBB]; omega) (hcheck k hk).1, hs.phis_check k hk,
      List.map_nil]
  case code => exact fun a ha => (hr.code a (by omega) (Nat.ne_of_lt ha)).trans (hs.code a ha)
  case code_outer =>
    intro k
    rw [hr.code_outer, List.count_append, hs.code_outer, hs.id, hlen]
    by_cases hk : k = gs.length
    · subst hk
      simp
    · have hlt : k < gs.length + 1 ↔ k < gs.length := by omega
      simp only [hlt]
      simp [Ne.symm hk]
  case code_entry =>
    refine Nat.forall_lt_succ_right.mpr ⟨fun k hk => ?_, hnew.code_entry⟩
    rw [hr.code _ (by simp only [entryBB]; omega) (by simp only [entryBB]; omega)]
    exact hs.code_entry k hk
  case code_body =>
    refine Nat.forall_lt_succ_right.mpr ⟨fun k hk => ?_, hnew.code_body⟩
    rw [hr.code _ (hbody k hk).1 (by simp only [bodyBB]; omega)]
    exact hs.code_body k hk
  case code_check =>
    refine Nat.forall_lt_succ_right.mpr ⟨fun k hk => ?_, hnew.code_check⟩
    rw [hr.code _ (hcheck k hk).1 (by simp only [checkBB]; omega)]
    exact hs.code_check k hk

theorem createCARMLoop_spliced (h : Simplified f o ls latch) (houter : s.outerLoopHeader ls = (s₁, o))
    (hs : Spliced f o ls latch gs s₁) (g : GepRequest V) :
    ∃ s', s.createCARMLoop ls g = some s' ∧ Spliced f o ls latch (g :: gs) s' ∧
      s'.loopPreHeaderUpdates = some o := by
  obtain ⟨hback, hob, -, -⟩ := backBB_cases h gs.length
  have hho := h.header_lt
  have hnext := hs.next
  obtain ⟨s', hs', hr⟩ := createCARMLoop_round (g := g) houter hs.outer hs.latches
    (by omega) (by omega) (by omega) hob
  exact ⟨s', hs', hs.round h hr, hr.preHeader⟩

theorem transformAll_spliced (h : Simplified f o ls latch) (g : GepRequest V)
    (gs : List (GepRequest V)) : ∃ s, (start f o ls).transformAll ls (g :: gs) = some s ∧
      Spliced f o ls latch (g :: gs) s ∧ s.loopPreHeaderUpdates = some o := by
  induction gs generalizing g with
  | nil =>
    obtain ⟨s, hs, hspliced⟩ := outerLoopHeader_spliced h
    exact createCARMLoop_spliced h hs hspliced g
  | cons g' gs ih =>
    obtain ⟨s, hs, hspliced, hpre⟩ := ih g'
    have houter : s.outerLoopHeader ls = (s, o) := by
      rw [outerLoopHeader, hpre]
    obtain ⟨s', hs', hspliced', hpre'⟩ := createCARMLoop_spliced h houter hspliced g
    refine ⟨s', ?_, hspliced', hpre'⟩
    rw [transformAll, hs]
    exact hs'

end

end TrackFM
