import TrackFM.Strides
import TrackFM.Refinement
import TrackFM.Lib.Program

/-!
# The uses of rewritten GEPs

`replaceAllUsesWith` puts the local pointers of chunked loops in the place of
their GEPs at every use. A program that runs such loops inside one another
depends on the values of their GEPs. What it does is the same before and after
as long as these values are the addresses of accesses within their objects and
nothing else.
-/

namespace TrackFM

open Loops (carmDerefLoop carmDerefLoop_remote carmDerefLoop_local invalidateLoopIndex)
open Lib (Mem Machine Exec Gets readBytes writeBytes blit blit_in blit_out)
open Heap (Coherent Keeps Writes Usable Located Writable Derefs)

variable {m : Manager} {h h' h₀ : Heap} {μ : Mem UInt8}

-- ---------------------------------------------------------------------------
-- Accesses
-- ---------------------------------------------------------------------------

/-- A load of the program: the guard asks whether the address is tagged. -/
def guardRead (m : Manager) (h : Heap) (a n : Nat) : Heap × List UInt8 :=
  if checkCarmObject a then
    let (h, d) := guardedRead m h a
    (h, readBytes h.mem d n)
  else (h, readBytes h.mem a n)

def guardWrite (m : Manager) (h : Heap) (a : Nat) (bs : List UInt8) : Heap :=
  if checkCarmObject a then guardedWrite m h a bs.length fun j => bs.getD j 0
  else h.store a bs.length fun j => bs.getD j 0

/-- An access the program may make: in one object, or to untagged memory outside
the object cache. -/
inductive Access (m : Manager) (h : Heap) : Nat → Nat → Prop
  | remote {x n : Nat} : h.Current (x / objSize) → x % objSize + n ≤ objSize →
      Access m h (startAddr + x) n
  | app {a n : Nat} : a < startAddr → a + n ≤ startAddr → (∀ j < n, a + j < m.lo ∨ m.hi ≤ a + j) →
      Access m h a n

/-- The heap holds the flat memory `μ`, as far as the slots in use in `h₀` go. -/
structure Mirror (m : Manager) (h₀ h : Heap) (μ : Mem UInt8) : Prop where
  coherent : Coherent m h
  current : ∀ i, h₀.Current i → h.Current i
  agrees : ∀ a, Usable m h₀ a → h.view m a = μ a

/-- A step of another party that the program cannot see. -/
structure Unseen (m : Manager) (h h' : Heap) : Prop where
  coherent : Coherent m h'
  current : ∀ i, h.Current i → h'.Current i
  byteAt : ∀ i j, h.Current i → j < objSize → h'.byteAt m i j = h.byteAt m i j
  app : ∀ a, a < m.lo ∨ m.hi ≤ a → h'.mem a = h.mem a

theorem Heap.Keeps.unseen (hk : Keeps m h h') : Unseen m h h' :=
  ⟨hk.coherent, hk.current, hk.byteAt, hk.app⟩

theorem Unseen.view (hc : Coherent m h) (hs : Unseen m h h') (hu : Usable m h a) :
    h'.view m a = h.view m a := by
  cases hu with
  | @remote x hi =>
    have hx := hi.lt_start hc
    rw [Heap.view_start hx, Heap.view_start hx]
    exact hs.byteAt _ _ hi (Nat.mod_lt _ (by decide))
  | app h₁ h₂ =>
    rw [Heap.view_untagged h₁, Heap.view_untagged h₁]
    exact hs.app a h₂

theorem Mirror.refl (hc : Coherent m h) : Mirror m h h (h.view m) :=
  ⟨hc, fun _ => id, fun _ _ => rfl⟩

theorem Mirror.unseen (hm : Mirror m h₀ h μ) (hs : Unseen m h h') : Mirror m h₀ h' μ where
  coherent := hs.coherent
  current i hi := hs.current i (hm.current i hi)
  agrees a ha := (hs.view hm.coherent (ha.mono hm.current)).trans (hm.agrees a ha)

theorem Mirror.writes (hm : Mirror m h₀ h μ) (hw : Writes m h h' d n f) :
    Mirror m h₀ h' (blit μ d n f) where
  coherent := hw.coherent
  current i hi := hw.current i (hm.current i hi)
  agrees a ha := by
    rw [hw.view a (ha.mono hm.current)]
    by_cases hin : d ≤ a ∧ a < d + n
    · rw [blit_in hin.1 hin.2, blit_in hin.1 hin.2]
    · rw [blit_out (by omega), blit_out (by omega)]
      exact hm.agrees a ha

theorem Mirror.located (hm : Mirror m h₀ h μ) (hi : h₀.Current (x / objSize))
    (hl : h.Located (x / objSize) base) (hn : x % objSize + n ≤ objSize) :
    readBytes h.mem (base + x % objSize) n = readBytes μ (startAddr + x) n := by
  refine Lib.readBytes_congr fun j hj => ?_
  have hsize := objSize_eq
  have hslot : (x + j) / objSize = x / objSize := by
    simp only [objSize] at *
    omega
  have hoff : (x + j) % objSize = x % objSize + j := by
    simp only [objSize] at *
    omega
  have hcur : h₀.Current ((x + j) / objSize) := hslot.symm ▸ hi
  have hlt := (hm.current _ hcur).lt_start hm.coherent
  have hview := hm.agrees _ (.remote hcur)
  rw [Heap.view_start hlt, hslot, hoff, hl.byteAt] at hview
  rw [Nat.add_assoc base, Nat.add_assoc startAddr]
  exact hview

theorem guardRead_start (hx : x < 2 ^ 60) : guardRead m h (startAddr + x) n =
    ((guardedRead m h (startAddr + x)).1,
      readBytes (guardedRead m h (startAddr + x)).1.mem (guardedRead m h (startAddr + x)).2 n) := by
  rw [guardRead, if_pos (checkCarmObject_start hx)]

theorem guardRead_untagged (ha : a < 2 ^ 60) : guardRead m h a n = (h, readBytes h.mem a n) := by
  rw [guardRead, checkCarmObject_untagged ha]
  rfl

theorem guardWrite_start (hx : x < 2 ^ 60) : guardWrite m h (startAddr + x) bs =
    guardedWrite m h (startAddr + x) bs.length fun j => bs.getD j 0 := by
  rw [guardWrite, if_pos (checkCarmObject_start hx)]

theorem guardWrite_untagged (ha : a < 2 ^ 60) :
    guardWrite m h a bs = h.store a bs.length fun j => bs.getD j 0 := by
  rw [guardWrite, checkCarmObject_untagged ha]
  rfl

theorem guardedRead_derefs (hc : Coherent m h) (hi : h.Current (x / objSize)) : ∃ base,
    (guardedRead m h (startAddr + x)).2 = base + x % objSize ∧
      Derefs m h (guardedRead m h (startAddr + x)).1 (x / objSize) false base := by
  have hx := hi.lt_start hc
  obtain ⟨base, he, hd⟩ := Heap.ptrDeref_spec (p := getCarmPtr (startAddr + x) false) hc
    (by rw [getCarmPtr_start hx]; exact hi)
  rw [getCarmPtr_start hx] at he hd
  rw [guardedRead, getCarmPtr_start hx]
  exact ⟨base, he, hd⟩

theorem Mirror.guardRead (hm : Mirror m h₀ h μ) (ha : Access m h₀ a n) :
    (guardRead m h a n).2 = readBytes μ a n ∧ Mirror m h₀ (guardRead m h a n).1 μ := by
  cases ha with
  | @remote x _ hi hn =>
    have hi' := hm.current _ hi
    obtain ⟨base, he, hd⟩ := guardedRead_derefs hm.coherent hi'
    have hm' := hm.unseen hd.keeps.unseen
    rw [guardRead_start (hi'.lt_start hm.coherent)]
    exact ⟨by rw [he]; exact hm'.located hi hd.located hn, hm'⟩
  | app hlt hle hout =>
    rw [guardRead_untagged hlt]
    refine ⟨Lib.readBytes_congr fun j hj => ?_, hm⟩
    have hview := hm.agrees _ (.app (show a + j < startAddr by omega) (hout j hj))
    rwa [Heap.view_untagged (show a + j < 2 ^ 60 by
      have := startAddr_eq
      omega)] at hview

theorem Mirror.guardWrite (hm : Mirror m h₀ h μ) (ha : Access m h₀ a bs.length) :
    Mirror m h₀ (guardWrite m h a bs) (writeBytes μ a bs) := by
  cases ha with
  | @remote x _ hi hn =>
    have hi' := hm.current _ hi
    rw [guardWrite_start (hi'.lt_start hm.coherent)]
    exact hm.writes (guardedWrite_writes hm.coherent hi' hn)
  | app hlt hle hout =>
    rw [guardWrite_untagged hlt]
    exact hm.writes (Heap.store_app hm.coherent hout hle)

-- ---------------------------------------------------------------------------
-- The loops before the rewrite
-- ---------------------------------------------------------------------------

/-- A GEP the pass rewrites, with what its calls are given. -/
structure LoopGep where
  start : Nat
  step : Int
  constant : Bool
  mutable : Bool
  signed : Signed64 step
  still : constant = true → step = 0

namespace LoopGep

def chunk (g : LoopGep) : Chunk := ⟨g.start, word64 g.step, g.constant, g.mutable⟩

def value (g : LoopGep) (k : Nat) : Nat := (g.start + k * g.step).toNat

end LoopGep

structure Original where
  heap : Heap
  /-- The rewritten GEPs of the loops it is in, innermost first, and the iterations
  these are in. -/
  loops : List (List LoopGep × Nat)

/-- The guarded program; in between, what it cannot see. -/
def guarded (m : Manager) : Machine LoopGep Original where
  values b := b.loops.map fun l => l.1.map (·.value l.2)
  read b a n := ({ b with heap := (guardRead m b.heap a n).1 }, (guardRead m b.heap a n).2)
  write b a bs := { b with heap := guardWrite m b.heap a bs }
  enter b gs b' := b' = { b with loops := (gs, 0) :: b.loops }
  back b b' := b' = { b with loops := b.loops.modifyHead fun l => (l.1, l.2 + 1) }
  exit b b' := b' = { b with loops := b.loops.tail }
  between b b' := b'.loops = b.loops ∧ Unseen m b.heap b'.heap

-- ---------------------------------------------------------------------------
-- The loops after it
-- ---------------------------------------------------------------------------

structure Transformed where
  runtime : Loops
  /-- The loops it is in, innermost first: for each GEP what its emitted PHIs hold. -/
  loops : List (List (LoopGep × Phis))

/-- Live objects stay live, and those a mark pins stay where they are, and dirty. -/
structure Pinning (m : Manager) (h h' : Heap) : Prop where
  coherent : Coherent m h'
  current : ∀ i, h.Current i → h'.Current i
  pinned : ∀ i base, h.Current i → h.Located i base → m.regionOf base ∈ h.marks →
    h'.Located i base
  dirty : ∀ i base, h.Current i → h.Writable i base → m.regionOf base ∈ h.marks →
    h'.Writable i base

/-- What runs beside the program keeps the slots in use and their marks: guards, the
evacuator, and loops that have been left again. -/
structure Beside (m : Manager) (s s' : Loops) : Prop extends
    Pinning m s.heap s'.heap, Unseen m s.heap s'.heap where
  marks : s'.heap.marks.Perm s.heap.marks
  active : ∀ i, (s.loopstate i).active = true → s'.loopstate i = s.loopstate i
  idle : ∀ i, (s.loopstate i).active = false → (s'.loopstate i).active = false
  loopIdCnt : s'.loopIdCnt = s.loopIdCnt
  slots : ∀ i ∈ s'.slots, i ∈ s.slots ∨ i < maxLoops
  prefetchers : ∀ i ∈ s'.prefetchers, i ∈ s.prefetchers ∨ i ≤ maxLoops

/-- The outer headers of the GEPs of a loop. The calls of one that is rewritten later
stand in front. -/
inductive Headers (m : Manager) : Loops → List LoopGep → Loops → List (LoopGep × Phis) → Prop
  | nil : Headers m s [] s []
  | cons {gs s₁ vs s' φ} {g : LoopGep} : Headers m s gs s₁ vs →
      g.chunk.outerHeader m s₁ = .ok (s', φ) → Headers m s (g :: gs) s' ((g, φ) :: vs)
  | beside : Headers m s gs s₁ vs → Beside m s₁ s' → Headers m s gs s' vs

/-- Their check blocks on a back edge, in the order they were made. -/
inductive BackEdges (m : Manager) :
    Loops → List (LoopGep × Phis) → Loops → List (LoopGep × Phis) → Prop
  | nil : BackEdges m s [] s []
  | cons {s vs s' vs' φ} {g : LoopGep} : BackEdges m (g.chunk.backEdge m s φ).1 vs s' vs' →
      BackEdges m s ((g, φ) :: vs) s' ((g, (g.chunk.backEdge m s φ).2) :: vs')
  | beside : Beside m s s₁ → BackEdges m s₁ vs s' vs' → BackEdges m s vs s' vs'

/-- The calls of `invalidate_loop_cache_at_exit`, latest made first. -/
inductive Invalidations (m : Manager) : Loops → List (LoopGep × Phis) → Loops → Prop
  | nil : Invalidations m s [] s
  | cons {vs s₁ φ} {g : LoopGep} : Invalidations m s vs s₁ →
      Invalidations m s ((g, φ) :: vs) (invalidateLoopIndex s₁ φ.loopId)
  | beside : Invalidations m s vs s₁ → Beside m s₁ s' → Invalidations m s vs s'

def chunked (m : Manager) : Machine LoopGep Transformed where
  values s := s.loops.map fun vs => vs.map (·.2.pointer)
  read s a n :=
    ({ s with runtime := { s.runtime with heap := (guardRead m s.runtime.heap a n).1 } },
      (guardRead m s.runtime.heap a n).2)
  write s a bs := { s with runtime := { s.runtime with heap := guardWrite m s.runtime.heap a bs } }
  enter s gs s' := ∃ vs, Headers m s.runtime gs s'.runtime vs ∧ s'.loops = vs :: s.loops
  back s s' := ∃ vs vs' rest, s.loops = vs :: rest ∧ BackEdges m s.runtime vs s'.runtime vs' ∧
    s'.loops = vs' :: rest
  exit s s' := ∃ vs rest, s.loops = vs :: rest ∧ Invalidations m s.runtime vs s'.runtime ∧
    s'.loops = rest
  between s s' := s'.loops = s.loops ∧ Beside m s.runtime s'.runtime

-- ---------------------------------------------------------------------------
-- Uses as addresses
-- ---------------------------------------------------------------------------

/-- The address of an access: a constant from a GEP of one of the loops, or none of
the GEPs'. -/
inductive GepOperand where
  | gep (loop index : Nat) (off : Int)
  | other (a : Nat)

def valueAt (p : List (List Nat)) (loop index : Nat) : Nat :=
  ((p[loop]?.getD [])[index]?).getD 0

def GepOperand.address (p : List (List Nat)) : GepOperand → Nat
  | gep loop index off => u64 (valueAt p loop index + word64 off)
  | other a => a

/-- A step that has no other use for the values of the GEPs. -/
inductive Uses (S : Type)
  | halt
  | load (a : GepOperand) (n : Nat) (k : List UInt8 → S)
  | store (a : GepOperand) (bs : List UInt8) (v : S)
  | emit (x : Nat) (v : S)
  | enter (gs : List LoopGep) (v : S)
  | back (v : S)
  | exit (v : S)

def Uses.action {S : Type} (p : List (List Nat)) : Uses S → Lib.Action LoopGep S
  | halt => .halt
  | load a n k => .load (a.address p) n k
  | store a bs v => .store (a.address p) bs v
  | emit x v => .emit x v
  | enter gs v => .enter gs v
  | back v => .back v
  | exit v => .exit v

def Inside (p off : Int) (n : Nat) : Prop :=
  0 ≤ p % objSize + off ∧ p % objSize + off < objSize ∧ p % objSize + off + n ≤ objSize

/-- An access through a remote GEP stays in its object; stores are for a loop that was
found to be mutable. -/
inductive GepOperand.Fits (loops : List (List LoopGep × Nat)) (write : Bool) (n : Nat) :
    GepOperand → Prop
  | other : Fits loops write n (.other a)
  | gep {j i : Nat} {off : Int} {g : LoopGep} : loops[j]? = some (gs, k) → gs[i]? = some g →
      (∀ x : Nat, g.start = startAddr + x →
        Inside (x + k * g.step) off n ∧ (write = true → g.mutable = true)) →
      Fits loops write n (.gep j i off)

/-- A step that only uses the values of remote GEPs as the addresses of such accesses,
and enters each further object of theirs at its start. -/
inductive Uses.Fits {S : Type} (loops : List (List LoopGep × Nat)) : Uses S → Prop
  | halt : Fits loops .halt
  | load : a.Fits loops false n → Fits loops (.load a n k)
  | store : a.Fits loops true bs.length → Fits loops (.store a bs v)
  | emit : Fits loops (.emit x v)
  | enter : Fits loops (.enter gs v)
  | back : (∀ gs k rest, loops = (gs, k) :: rest → ∀ g ∈ gs, ∀ x : Nat, g.start = startAddr + x →
      Lib.EntersAtStart objSize g.step (x + k * g.step)) → Fits loops (.back v)
  | exit : Fits loops (.exit v)

/-- Values for the GEPs of the loops, those over local memory with their own. -/
def Hides (loops : List (List LoopGep × Nat)) (p : List (List Nat)) : Prop :=
  List.Forall₂ (fun l xs => List.Forall₂ (fun g x => g.start < startAddr → x = g.value l.2) l.1 xs)
    loops p

/-- At its next step the program uses the values of remote GEPs as addresses only. -/
def AddressOnly {S : Type} (prog : Lib.Program LoopGep S) (b : Original) (v : S) : Prop :=
  ∃ u : Uses S, (∀ p, Hides b.loops p → prog p v = u.action p) ∧ u.Fits b.loops

-- ---------------------------------------------------------------------------
-- Before and after the rewrite
-- ---------------------------------------------------------------------------

/-- In iteration `k` the GEP is in a slot in use, or untagged and stays so. -/
inductive LoopGep.At (h₀ : Heap) (g : LoopGep) (k : Nat) : Prop
  | remote {x : Nat} : g.start = startAddr + x → InSpace (x + k * g.step) →
      h₀.Current (objectOf (x + k * g.step)) → At h₀ g k
  | app : g.start < startAddr → (0 : Int) ≤ g.start + k * g.step →
      (g.start : Int) + k * g.step < 2 ^ 47 → At h₀ g k

def inUse (loops : List (List LoopGep × Nat)) : Nat := (loops.map (·.1.length)).sum

/-- A step the program may take with room for so many GEPs: its accesses are allowed, it
leaves loops it has entered, and their GEPs are where they should in each iteration. -/
inductive Valid {S : Type} (m : Manager) (h₀ : Heap) (room : Nat)
    (loops : List (List LoopGep × Nat)) : Lib.Action LoopGep S → Prop
  | halt : Valid m h₀ room loops .halt
  | load : Access m h₀ a n → Valid m h₀ room loops (.load a n k)
  | store : Access m h₀ a bs.length → Valid m h₀ room loops (.store a bs v)
  | emit : Valid m h₀ room loops (.emit x v)
  | enter : (∀ g ∈ gs, g.At h₀ 0) → inUse loops + gs.length ≤ room →
      Valid m h₀ room loops (.enter gs v)
  | back : loops = (gs, k) :: rest → (∀ g ∈ gs, g.At h₀ (k + 1)) → Valid m h₀ room loops (.back v)
  | exit : loops ≠ [] → Valid m h₀ room loops (.exit v)

section
variable {S : Type}

def ValidRuns (m : Manager) (prog : Lib.Program LoopGep S) (s₀ : Loops) (v₀ : S) : Prop :=
  ∀ b v out, Gets (guarded m) prog ⟨s₀.heap, []⟩ v₀ b v out →
    Valid m s₀.heap (maxLoops - s₀.loopIdCnt) b.loops (prog ((guarded m).values b) v)

/-- The transformed program is never stuck, and what it does the original does: it
gets to the same step, has handed out the same, and leaves the same memory. -/
def SameMeaning (m : Manager) (prog : Lib.Program LoopGep S) (s₀ : Loops) (v₀ : S) : Prop :=
  ∀ s v out, Gets (chunked m) prog ⟨s₀, []⟩ v₀ s v out →
    (prog ((chunked m).values s) v ≠ .halt →
      ∃ s' new v', Exec (chunked m) s (prog ((chunked m).values s) v) s' new v') ∧
    ∃ b, Gets (guarded m) prog ⟨s₀.heap, []⟩ v₀ b v out ∧
      (prog ((chunked m).values s) v = .halt → prog ((guarded m).values b) v = .halt) ∧
      ∀ a, Usable m s₀.heap a → s.runtime.heap.view m a = b.heap.view m a

end

-- ---------------------------------------------------------------------------
-- A pointer in its loop
-- ---------------------------------------------------------------------------

structure InStep (m : Manager) (g : Chunk) (x : Nat) (h₀ : Heap) (s : Loops) (φ : Phis) (p : Int) :
    Prop where
  tracks : Tracks m g x s φ p
  dirty : g.mutable = true → ∃ base, s.heap.Writable (objectOf p) base
  current : h₀.Current (objectOf p)

inductive Linked (m : Manager) (h₀ : Heap) (s : Loops) (k : Nat) : LoopGep × Phis → Prop
  | remote {x : Nat} : g.start = startAddr + x → InSpace (x + k * g.step) →
      InStep m g.chunk x h₀ s φ (x + k * g.step) → Linked m h₀ s k (g, φ)
  | app : g.start < startAddr → (0 : Int) ≤ g.start + k * g.step →
      (g.start : Int) + k * g.step < 2 ^ 47 → (φ.pointer : Int) = g.start + k * g.step →
      φ.bound = g.start + (objSize + (512 <<< 40)) → Linked m h₀ s k (g, φ)

/-- What one pointer needs of everything that happens while its loop runs. -/
structure Steadies (m : Manager) (loopId : Nat) (s s' : Loops) : Prop
    extends Between m loopId s s' where
  dirty : ∀ i base, s.heap.Current i → s.heap.Writable i base →
    m.regionOf base ∈ s.heap.marks → s'.heap.Writable i base

variable {s s' s₁ s₀ : Loops} {g : LoopGep} {φ : Phis} {x k loopId : Nat} {p d : Int}
  {ps qs : List Pointer}

-- ---------------------------------------------------------------------------
-- What the other pointers are left with
-- ---------------------------------------------------------------------------

theorem Pinning.refl (hc : Coherent m h) : Pinning m h h :=
  ⟨hc, fun _ => id, fun _ _ _ hl _ => hl, fun _ _ _ hw _ => hw⟩

theorem Unseen.refl (hc : Coherent m h) : Unseen m h h :=
  ⟨hc, fun _ => id, fun _ _ _ _ => rfl, fun _ _ => rfl⟩

theorem pinning_derefs {i base : Nat} {w : Bool} (hd : Derefs m h h' i w base) : Pinning m h h' :=
  ⟨hd.keeps.coherent, hd.keeps.current, fun _ _ hk hl _ => hd.steady.located hk hl,
    fun _ _ hk hw _ => hd.steady.writable hk hw⟩

theorem pinning_marks (hc : Coherent m h) (ms : List Nat) : Pinning m h { h with marks := ms } :=
  ⟨Heap.marks_coherent hc, fun _ => Heap.marks_current.mpr, fun _ _ _ hl _ => hl,
    fun _ _ _ hw _ => hw⟩

theorem unseen_marks (hc : Coherent m h) (ms : List Nat) : Unseen m h { h with marks := ms } :=
  ⟨Heap.marks_coherent hc, fun _ => Heap.marks_current.mpr, fun _ _ _ _ => rfl, fun _ _ => rfl⟩

theorem Table.steadies {q : Pointer} (ht : Table m s ps) (ht' : Table m s' qs) (hq : q ∈ active ps)
    (hq' : q ∈ active qs) (hs : Pinning m s.heap s'.heap) : Steadies m q.id s s' := by
  have hown := ht.own q hq
  refine { hs with slot := ?_, marked := ?_ }
  · rw [hown.left, (ht'.own q hq').left]
  · rw [hown.left, hown.regionAddr]
    intro hmark
    cases hr : q.region m with
    | none =>
      rw [hr] at hmark
      exact absurd hmark ht.marks_ne_zero
    | some r => exact ht'.marks.mem_iff.mpr (List.mem_filterMap.mpr ⟨q, hq', hr⟩)

theorem Table.beside (ht : Table m s ps) (hb : Beside m s s') : Table m s' ps where
  numbered := ht.numbered
  few := ht.few
  count := hb.loopIdCnt.trans ht.count
  own q hq := by
    have hown := ht.own q hq
    exact { hown with left := (hb.active _ (hown.left ▸ hown.live)).trans hown.left }
  idle i hi hq := hb.idle i (ht.idle i hi hq)
  marks := hb.marks.trans ht.marks
  slots i hi := (hb.slots i hi).elim (ht.slots i) id
  prefetchers i hi := (hb.prefetchers i hi).elim (ht.prefetchers i) id

theorem InStep.steadies {g : Chunk} (hh : InStep m g x h₀ s φ p) (hs : Steadies m φ.loopId s s') :
    InStep m g x h₀ s' φ p where
  tracks := hh.tracks.between hs.toBetween
  dirty hw := by
    obtain ⟨base, hb⟩ := hh.dirty hw
    obtain ⟨base', hl, -, -, -, hmark⟩ := hh.tracks.held
    obtain rfl := hb.located.eq hl
    exact ⟨base, hs.dirty _ base hh.tracks.current hb hmark⟩
  current := hh.current

theorem Linked.steadies {v : LoopGep × Phis} (hv : Linked m h₀ s k v)
    (hs : Steadies m v.2.loopId s s') : Linked m h₀ s' k v := by
  cases hv with
  | remote hx hp hh => exact .remote hx hp (hh.steadies hs)
  | app h₁ h₂ h₃ h₄ h₅ => exact .app h₁ h₂ h₃ h₄ h₅

theorem Linked.value {v : LoopGep × Phis} (hv : Linked m h₀ s k v) (hl : v.1.start < startAddr) :
    v.2.pointer = v.1.value k := by
  cases hv with
  | remote hx =>
    dsimp only at hl
    omega
  | app h₁ h₂ h₃ h₄ =>
    rw [LoopGep.value, ← h₄]
    rfl

theorem LoopGep.value_start (hx : g.start = startAddr + x) (h : InSpace ((x : Int) + k * g.step)) :
    g.value k = startAddr + ((x : Int) + k * g.step).toNat := by
  have h₀ := h.1
  rw [LoopGep.value, hx]
  omega

def Carries (m : Manager) (ps : List Pointer) (s s' : Loops) : Prop :=
  ∀ q ∈ ps, ∀ h₀ k v, v.2.loopId = q.id → Linked m h₀ s k v → Linked m h₀ s' k v

theorem Carries.refl : Carries m ps s s := fun _ _ _ _ _ _ => id

theorem Carries.trans (h₁ : Carries m ps s s₁) (h₂ : Carries m ps s₁ s') : Carries m ps s s' :=
  fun q hq h₀ k v hid hv => h₂ q hq h₀ k v hid (h₁ q hq h₀ k v hid hv)

theorem Carries.mono (h : Carries m qs s s') (hsub : ∀ q ∈ ps, q ∈ qs) : Carries m ps s s' :=
  fun q hq => h q (hsub q hq)

theorem Table.carries {rs : List Pointer} (ht : Table m s ps) (ht' : Table m s' qs)
    (hs : Pinning m s.heap s'.heap) (hps : ∀ q ∈ rs, q ∈ active ps)
    (hqs : ∀ q ∈ rs, q ∈ active qs) : Carries m rs s s' :=
  fun q hq _ _ _ hid hv => hv.steadies (hid ▸ ht.steadies ht' (hps q hq) (hqs q hq) hs)

-- ---------------------------------------------------------------------------
-- The calls for one GEP
-- ---------------------------------------------------------------------------

theorem carmDerefLoop_harmless {w : Bool} (hc : Coherent m s.heap)
    (hi : (s.loopstate loopId).carmPtr = true → s.heap.Current (s.loopstate loopId).objIndex) :
    Pinning m s.heap (carmDerefLoop m w s loopId).1.heap ∧
      Unseen m s.heap (carmDerefLoop m w s loopId).1.heap := by
  cases hcarm : (s.loopstate loopId).carmPtr with
  | true =>
    obtain ⟨ms, hd⟩ := fetched_derefs (w := w) hc rfl (hi hcarm)
    rw [carmDerefLoop_remote hcarm]
    refine ⟨⟨Heap.marks_coherent hd.keeps.coherent, fun k hk => ?_, fun k _ hk hl _ => ?_,
      fun k _ hk hw _ => ?_⟩, Heap.marks_coherent hd.keeps.coherent, fun k hk => ?_,
      fun k j hk hj => ?_, hd.keeps.app⟩
    · exact Heap.marks_current.mpr (hd.keeps.current k (Heap.marks_current.mpr hk))
    · exact hd.steady.located (Heap.marks_current.mpr hk) hl
    · exact hd.steady.writable (Heap.marks_current.mpr hk) hw
    · exact Heap.marks_current.mpr (hd.keeps.current k (Heap.marks_current.mpr hk))
    · exact hd.keeps.byteAt k j (Heap.marks_current.mpr hk) hj
  | false =>
    rw [carmDerefLoop_local hcarm]
    exact ⟨.refl hc, .refl hc⟩

theorem carmDerefLoop_dirty {i : Nat} (hc : Coherent m s.heap)
    (hcarm : (s.loopstate loopId).carmPtr = true) (hidx : (s.loopstate loopId).objIndex = i)
    (hi : s.heap.Current i) :
    ∃ base, (carmDerefLoop m true s loopId).1.heap.Writable i base := by
  obtain ⟨ms, hd⟩ := fetched_derefs (w := true) hc hidx hi
  rw [carmDerefLoop_remote hcarm]
  exact ⟨_, hd.writable rfl⟩

theorem Table.header (ht : Table m s ps) (hall : ∀ q ∈ ps, q.released = false)
    (hlen : ps.length < maxLoops) {c : Chunk} : ∃ s' φ, c.outerHeader m s = .ok (s', φ) ∧
      ∃ q, q.id = φ.loopId ∧ q.released = false ∧ Table m s' (q :: ps) := by
  obtain ⟨s₁, r, hinit, hid, -, ht₁⟩ : ∃ s₁ r, s.carmLoopInit c.start c.stepArg = .ok (s₁, r) ∧ _ :=
    ht.opens hall hlen
  rw [← hid] at ht₁
  have hfetch : Loops.Fetches m s₁ (carmDerefLoop m c.mutable s₁ (r >>> loopIdPos)).1
      (r >>> loopIdPos) := Loops.carmDerefLoop_fetches
  have ht₂ := ht₁.deref (a := []) rfl hfetch
  refine ⟨(carmDerefLoop m c.mutable s₁ (r >>> loopIdPos)).1, ⟨r >>> loopIdPos,
    (carmDerefLoop m c.mutable s₁ (r >>> loopIdPos)).2,
    u64 ((carmDerefLoop m c.mutable s₁ (r >>> loopIdPos)).2 + (r &&& loopObjMask)), 1⟩,
    ?_, _, rfl, rfl, ht₂⟩
  have hcall : c.derefCall m s₁ (r >>> loopIdPos) =
      carmDerefLoop m c.mutable s₁ (r >>> loopIdPos) := Chunk.derefCall_eq
  rw [Chunk.outerHeader]
  refine bind_ok.mpr ⟨(s₁, r), hinit, ?_⟩
  dsimp only
  rw [hcall]
  rfl

theorem local_header (hid : s₀.loopIdCnt < maxLoops) {c : Chunk} (ha : c.start < 2 ^ 60)
    (h : c.outerHeader m s₀ = .ok (s, φ)) : s.heap = s₀.heap := by
  obtain ⟨-, s₁, rfl, -, -, hheap, hslot⟩ := Chunk.outerHeader_ok hid h
  rw [opened_local ha] at hslot
  rw [carmDerefLoop_local (by rw [hslot])]
  exact hheap

theorem InStep.enter {c : Chunk} (hid : s₀.loopIdCnt < maxLoops) (hc : Coherent m s₀.heap)
    (hx : InSpace (x : Int)) (hcur : s₀.heap.Current (objectOf (x : Int)))
    (hcur₀ : h₀.Current (objectOf (x : Int))) (hg : c.start = startAddr + x)
    (hstep : c.step < 2 ^ 64) (h : c.outerHeader m s₀ = .ok (s, φ)) :
    InStep m c x h₀ s φ x ∧ Pinning m s₀.heap s.heap ∧ Unseen m s₀.heap s.heap := by
  have htracks := (Tracks.enter hid hc hx hcur hg hstep h).1
  obtain ⟨-, s₁, rfl, -, -, hheap, hslot⟩ := Chunk.outerHeader_ok hid h
  have hend : ((totalObjects * objSize : Nat) : Int) = 41943040 * 4096 := rfl
  have hx60 : x < 2 ^ 60 := by
    have := hx.2
    omega
  rw [hg, opened_remote hx60] at hslot
  rw [← hheap] at hc hcur ⊢
  have hcarm : (s₁.loopstate φ.loopId).carmPtr = true := by rw [hslot]
  have hidx : (s₁.loopstate φ.loopId).objIndex = objectOf (x : Int) := by
    rw [hslot]
    rfl
  refine ⟨⟨htracks, fun hw => ?_, hcur₀⟩, carmDerefLoop_harmless hc fun _ => hidx ▸ hcur⟩
  rw [hw]
  exact carmDerefLoop_dirty hc hcarm hidx hcur

/-- The pointer after the header is one for iteration 0. -/
theorem Linked.enter (hid : s₀.loopIdCnt < maxLoops) (hm : Mirror m h₀ s₀.heap μ) (hat : g.At h₀ 0)
    (h : g.chunk.outerHeader m s₀ = .ok (s, φ)) :
    Linked m h₀ s 0 (g, φ) ∧ Pinning m s₀.heap s.heap ∧ Unseen m s₀.heap s.heap := by
  cases hat with
  | @remote x hx hp hcur =>
    have hzero : (x : Int) + (0 : Nat) * g.step = x := by simp
    rw [hzero] at hp hcur
    obtain ⟨hstep, hheap⟩ :=
      InStep.enter (c := g.chunk) hid hm.coherent hp (hm.current _ hcur) hcur hx word64_lt h
    refine ⟨.remote hx ?_ ?_, hheap⟩
    · rwa [hzero]
    · rwa [hzero]
  | app hlt h₁ h₂ =>
    have hwalk : LocalWalk g.start g.step 1 := fun i hi => by
      obtain rfl : i = 0 := by omega
      exact ⟨h₁, h₂⟩
    have hfirst : Chunk.Iteration m g.chunk (fun _ _ _ => True) s₀ 0 s φ := .enter h
    obtain ⟨hon, hbound⟩ := local_iteration hid hwalk Nat.one_pos g.still hfirst
    rw [local_header hid (show g.start < 2 ^ 60 from hlt) h]
    exact ⟨.app hlt h₁ h₂ hon.pointer hbound, .refl hm.coherent, .refl hm.coherent⟩

theorem InStep.next {c : Chunk} (hstep : c.step = word64 d) (hconst : c.constant = true → d = 0)
    (hd : Signed64 d) (hx : 0 < d → (x : Int) ≤ p) (hh : InStep m c x h₀ s φ p)
    (hm : Mirror m h₀ s.heap μ) (hp : InSpace p) (hq : InSpace (p + d))
    (hcur : h₀.Current (objectOf (p + d))) (he : Lib.EntersAtStart objSize d p) :
    InStep m c x h₀ (c.backEdge m s φ).1 (c.backEdge m s φ).2 (p + d) ∧
      Pinning m s.heap (c.backEdge m s φ).1.heap ∧ Unseen m s.heap (c.backEdge m s φ).1.heap := by
  have hc := hh.tracks.coherent
  have hcur' := hm.current _ hcur
  have htracks := (hh.tracks.next hstep hconst hd hx hp hq hcur' he).1
  by_cases hsame : (p + d) / objSize = p / objSize
  · rw [(hh.tracks.next_within hstep hconst hd.2 hcur' hsame).1] at htracks ⊢
    have hobj : objectOf (p + d) = objectOf p := by rw [objectOf, hsame, objectOf]
    exact ⟨⟨htracks, hobj ▸ hh.dirty, hcur⟩, .refl hc, .refl hc⟩
  · have hs : (objSize : Int) = 4096 := rfl
    obtain ⟨hpos, -⟩ := he hsame
    have hover := (hh.tracks.bound_le_iff hstep hconst hd.2 (by omega)).mpr (by
      rw [hs] at hsame ⊢
      omega)
    have hindex := hh.tracks.objIndex_next hstep hconst hd.2 hp hq he hsame
    rw [Chunk.backEdge, if_pos hover, Chunk.derefCall_eq] at htracks ⊢
    refine ⟨⟨htracks, fun hw => ?_, hcur⟩, carmDerefLoop_harmless hc fun _ => hindex ▸ hcur'⟩
    rw [hw]
    exact carmDerefLoop_dirty hc hh.tracks.carmPtr hindex hcur'

/-- ... and after a back edge one for the next iteration. -/
theorem Linked.back (hv : Linked m h₀ s k (g, φ)) (hm : Mirror m h₀ s.heap μ)
    (hat : g.At h₀ (k + 1)) (henter : ∀ x : Nat, g.start = startAddr + x →
      Lib.EntersAtStart objSize g.step (x + k * g.step)) :
    Linked m h₀ (g.chunk.backEdge m s φ).1 (k + 1) (g, (g.chunk.backEdge m s φ).2) ∧
      Pinning m s.heap (g.chunk.backEdge m s φ).1.heap ∧
      Unseen m s.heap (g.chunk.backEdge m s φ).1.heap := by
  have hstart : startAddr = 2 ^ 60 := rfl
  cases hv with
  | @remote _ _ x hx hp hh =>
    cases hat with
    | @remote y hy hq hcur =>
      obtain rfl : y = x := by omega
      rw [Lib.next_position] at hq hcur
      have hlater : 0 < g.step → (y : Int) ≤ y + k * g.step := fun hpos => by
        have := Int.mul_nonneg (Int.natCast_nonneg k) hpos.le
        omega
      obtain ⟨hstep, hheap⟩ := hh.next (d := g.step) rfl g.still g.signed hlater hm hp hq hcur
        (henter y hx)
      refine ⟨.remote hx ?_ ?_, hheap⟩
      · rw [Lib.next_position]
        exact hq
      · rw [Lib.next_position]
        exact hstep
    | app hlt => omega
  | app hlt h₁ h₂ hptr hbound =>
    cases hat with
    | remote hx => omega
    | app _ hlo hhi =>
      rw [Lib.next_position, ← hptr] at hlo hhi
      have hinc := Chunk.increment_eq (g := g.chunk) rfl g.still hlo (by omega)
      have hs : objSize + (512 <<< 40) = 4096 + 2 ^ 49 := rfl
      have hlow : ¬φ.bound ≤ g.chunk.increment φ := by omega
      rw [Chunk.backEdge, if_neg hlow]
      refine ⟨.app hlt ?_ ?_ ?_ hbound, .refl hm.coherent, .refl hm.coherent⟩
      · rwa [Lib.next_position, ← hptr]
      · rwa [Lib.next_position, ← hptr]
      · rw [Lib.next_position, ← hptr]
        exact hinc

theorem Table.back {a b : List Pointer} {q : Pointer} (ht : Table m s (a ++ q :: b))
    (hq : q.released = false) (hid : q.id = φ.loopId) {c : Chunk} :
    ∃ q', q'.id = q.id ∧ q'.released = false ∧ Table m (c.backEdge m s φ).1 (a ++ q' :: b) := by
  rw [Chunk.backEdge]
  split
  · rw [Chunk.derefCall_eq, ← hid]
    exact ⟨q.derefd s (carmDerefLoop m c.mutable s q.id).1, rfl, hq,
      ht.deref hq Loops.carmDerefLoop_fetches⟩
  · exact ⟨q, rfl, hq, ht⟩

theorem invalidateLoopIndex_harmless (loopId : Nat) (hc : Coherent m s.heap) :
    Pinning m s.heap (invalidateLoopIndex s loopId).heap ∧
      Unseen m s.heap (invalidateLoopIndex s loopId).heap := by
  rw [invalidateLoopIndex]
  split
  · dsimp only
    split
    · obtain ⟨ms, hinv⟩ := Heap.invalidateMarkedRegion_eq (h := s.heap)
        (r := (s.loopstate loopId).regionAddr)
      rw [hinv]
      exact ⟨pinning_marks hc ms, unseen_marks hc ms⟩
    · exact ⟨.refl hc, .refl hc⟩
  · exact ⟨.refl hc, .refl hc⟩

-- ---------------------------------------------------------------------------
-- The calls for a loop
-- ---------------------------------------------------------------------------

/-- The pointers in use are `a`, `qs` and `b`, and `qs` are those of a loop that is in
iteration `k`. -/
structure InLoop (m : Manager) (h₀ : Heap) (μ : Mem UInt8) (s : Loops) (k : Nat)
    (vs : List (LoopGep × Phis)) (a qs b : List Pointer) : Prop where
  table : Table m s (a ++ qs ++ b)
  kept : ∀ q ∈ a ++ qs ++ b, q.released = false
  ids : qs.map Pointer.id = vs.map (·.2.loopId)
  linked : ∀ v ∈ vs, Linked m h₀ s k v
  mirror : Mirror m h₀ s.heap μ

variable {a b : List Pointer} {vs vs' : List (LoopGep × Phis)} {gs : List LoopGep}

theorem InLoop.mem_ids (hl : InLoop m h₀ μ s k vs a qs b) {v : LoopGep × Phis} (hv : v ∈ vs) :
    ∃ q ∈ qs, v.2.loopId = q.id := by
  have hid : v.2.loopId ∈ qs.map Pointer.id := hl.ids ▸ List.mem_map_of_mem hv
  obtain ⟨q, hq, he⟩ := List.mem_map.mp hid
  exact ⟨q, hq, he.symm⟩

theorem InLoop.carried (hl : InLoop m h₀ μ s k vs a qs b) (hc : Carries m qs s s') :
    ∀ v ∈ vs, Linked m h₀ s' k v := by
  intro v hv
  obtain ⟨q, hq, hid⟩ := hl.mem_ids hv
  exact hc q hq h₀ k v hid (hl.linked v hv)

theorem InLoop.beside (hl : InLoop m h₀ μ s k vs a qs b) (hb : Beside m s s') :
    InLoop m h₀ μ s' k vs a qs b ∧ Carries m (a ++ qs ++ b) s s' := by
  have ht := hl.table.beside hb
  have hact : ∀ q ∈ a ++ qs ++ b, q ∈ active (a ++ qs ++ b) := fun q hq =>
    mem_active.mpr ⟨hq, hl.kept q hq⟩
  have hcarry : Carries m (a ++ qs ++ b) s s' := hl.table.carries ht hb.toPinning hact hact
  refine ⟨⟨ht, hl.kept, hl.ids, hl.carried (hcarry.mono fun q hq => ?_),
    hl.mirror.unseen hb.toUnseen⟩, hcarry⟩
  exact List.mem_append_left _ (List.mem_append_right _ hq)

theorem Headers.linked (h : Headers m s gs s' vs) (ht : Table m s ps)
    (hall : ∀ q ∈ ps, q.released = false) (hlen : ps.length + gs.length ≤ maxLoops)
    (hm : Mirror m h₀ s.heap μ) (hat : ∀ g ∈ gs, g.At h₀ 0) :
    vs.map Prod.fst = gs ∧ ∃ qs, InLoop m h₀ μ s' 0 vs [] qs ps ∧ qs.length = gs.length ∧
      Carries m ps s s' := by
  induction h with
  | nil => exact ⟨rfl, [], ⟨ht, hall, rfl, List.forall_mem_nil _, hm⟩, rfl, .refl⟩
  | @cons gs s₁ vs s' φ g _ hheader ih =>
    obtain ⟨hg, hgs⟩ := List.forall_mem_cons.mp hat
    rw [List.length_cons] at hlen
    obtain ⟨hfst, qs, hl, hqs, hcarry⟩ := ih (by omega) hgs
    have hroom : (qs ++ ps).length < maxLoops := by
      rw [List.length_append]
      omega
    obtain ⟨s₂, φ₂, h₂, q, hid, hrel, ht'⟩ := hl.table.header hl.kept hroom (c := g.chunk)
    cases h₂.symm.trans hheader
    have hact : ∀ r ∈ qs ++ ps, r ∈ active (qs ++ ps) := fun r hr =>
      mem_active.mpr ⟨hr, hl.kept r hr⟩
    have hcnt : s₁.loopIdCnt < maxLoops := by
      rw [hl.table.count]
      exact (List.length_filter_le ..).trans_lt hroom
    obtain ⟨hlinked, hpin, hseen⟩ := Linked.enter hcnt hl.mirror hg hheader
    have hkeep : Carries m (qs ++ ps) s₁ s' := hl.table.carries ht' hpin hact fun r hr => by
      rw [active_cons_of hrel]
      exact List.mem_cons_of_mem _ (hact r hr)
    refine ⟨by rw [List.map_cons, hfst], q :: qs, ⟨ht', ?_, ?_, ?_, hl.mirror.unseen hseen⟩,
      congrArg Nat.succ hqs,
      hcarry.trans (hkeep.mono fun r => List.mem_append_right _)⟩
    · exact List.forall_mem_cons.mpr ⟨hrel, hl.kept⟩
    · rw [List.map_cons, List.map_cons, hid, hl.ids]
    · exact List.forall_mem_cons.mpr
        ⟨hlinked, hl.carried (hkeep.mono fun r => List.mem_append_left _)⟩
  | beside _ hb ih =>
    obtain ⟨hfst, qs, hl, hqs, hcarry⟩ := ih hlen hat
    obtain ⟨hl', hkeep⟩ := hl.beside hb
    exact ⟨hfst, qs, hl', hqs, hcarry.trans (hkeep.mono fun r => List.mem_append_right _)⟩

theorem BackEdges.linked (h : BackEdges m s vs s' vs') (hl : InLoop m h₀ μ s k vs a qs b)
    (hat : ∀ v ∈ vs, v.1.At h₀ (k + 1)) (henter : ∀ v ∈ vs, ∀ x : Nat, v.1.start = startAddr + x →
      Lib.EntersAtStart objSize v.1.step (x + k * v.1.step)) :
    vs'.map Prod.fst = vs.map Prod.fst ∧ ∃ qs', InLoop m h₀ μ s' (k + 1) vs' a qs' b ∧
      Carries m (a ++ b) s s' := by
  induction h generalizing a qs with
  | nil => exact ⟨rfl, qs, ⟨hl.table, hl.kept, hl.ids, List.forall_mem_nil _, hl.mirror⟩, .refl⟩
  | @cons s vs s' vs' φ g _ ih =>
    obtain ⟨hg, hgs⟩ := List.forall_mem_cons.mp hat
    obtain ⟨heg, hegs⟩ := List.forall_mem_cons.mp henter
    obtain ⟨q, qs, rfl⟩ : ∃ q qs', qs = q :: qs' := List.exists_cons_of_length_pos (by
      rw [← List.length_map Pointer.id, hl.ids]
      exact Nat.succ_pos _)
    obtain ⟨hid, hids⟩ := List.cons.inj hl.ids
    have hrel : q.released = false := hl.kept q (by simp)
    have ht : Table m s (a ++ q :: (qs ++ b)) := by simpa using hl.table
    obtain ⟨hlinked, hpin, hseen⟩ :=
      Linked.back (hl.linked _ (List.mem_cons_self ..)) hl.mirror hg heg
    obtain ⟨q', hid', hrel', ht'⟩ := ht.back hrel hid (c := g.chunk)
    have hothers : ∀ r ∈ a ++ qs ++ b, r.released = false := fun r hr => hl.kept r (by
      simp only [List.mem_append, List.mem_cons] at hr ⊢
      tauto)
    have hkeep : Carries m (a ++ qs ++ b) s (g.chunk.backEdge m s φ).1 :=
      ht.carries ht' hpin
        (fun r hr => (mem_active_middle hrel).mpr (.inr (mem_active.mpr
          ⟨by simpa using hr, hothers r hr⟩)))
        (fun r hr => (mem_active_middle hrel').mpr (.inr (mem_active.mpr
          ⟨by simpa using hr, hothers r hr⟩)))
    have hl' : InLoop m h₀ μ (g.chunk.backEdge m s φ).1 k vs (a ++ [q']) qs b := by
      refine ⟨by simpa using ht', fun r hr => ?_, hids, fun v hv => ?_, hl.mirror.unseen hseen⟩
      · simp only [List.mem_append, List.mem_singleton] at hr
        rcases hr with ((hr | rfl) | hr) | hr
        · exact hothers r (by simp [hr])
        · exact hrel'
        · exact hothers r (by simp [hr])
        · exact hothers r (by simp [hr])
      · have hv' : v.2.loopId ∈ qs.map Pointer.id := hids ▸ List.mem_map_of_mem hv
        obtain ⟨r, hr, he⟩ := List.mem_map.mp hv'
        exact hkeep r (by simp [hr]) h₀ k v he.symm (hl.linked v (List.mem_cons_of_mem _ hv))
    obtain ⟨hfst, qs', hl'', hcarry⟩ := ih hl' hgs hegs
    refine ⟨by rw [List.map_cons, List.map_cons, hfst], q' :: qs',
      ⟨?_, ?_, ?_, ?_, hl''.mirror⟩, ?_⟩
    · simpa using hl''.table
    · simpa using hl''.kept
    · rw [List.map_cons, List.map_cons, hl''.ids, hid', hid, Chunk.backEdge_loopId]
    · refine List.forall_mem_cons.mpr ⟨hcarry q' (by simp) h₀ (k + 1) _ ?_ hlinked, hl''.linked⟩
      rw [Chunk.backEdge_loopId, hid', hid]
    · refine Carries.trans (hkeep.mono fun r hr => ?_) (hcarry.mono fun r hr => ?_)
      · simp only [List.mem_append] at hr ⊢
        tauto
      · simp only [List.mem_append] at hr ⊢
        tauto
  | beside hb _ ih =>
    obtain ⟨hl', hkeep⟩ := hl.beside hb
    obtain ⟨hfst, qs', hl'', hcarry⟩ := ih hl' hat henter
    refine ⟨hfst, qs', hl'', Carries.trans (hkeep.mono fun r hr => ?_) hcarry⟩
    simp only [List.mem_append] at hr ⊢
    tauto

/-- What the calls at the exit leave: the pointers of the loop are released. -/
theorem Invalidations.released (h : Invalidations m s vs s') (ht : Table m s (a ++ qs ++ b))
    (hall : ∀ q ∈ a ++ qs ++ b, q.released = false) (hids : qs.map Pointer.id = vs.map (·.2.loopId))
    (hm : Mirror m h₀ s.heap μ) : ∃ qs', Table m s' (a ++ qs' ++ b) ∧
      (∀ q ∈ qs', q.released = true) ∧ Carries m (a ++ b) s s' ∧ Mirror m h₀ s'.heap μ := by
  induction h generalizing a qs with
  | nil =>
    obtain rfl : qs = [] := List.map_eq_nil_iff.mp hids
    exact ⟨[], ht, List.forall_mem_nil _, .refl, hm⟩
  | @cons vs s₁ φ g _ ih =>
    obtain ⟨q, qs, rfl⟩ : ∃ q qs', qs = q :: qs' := List.exists_cons_of_length_pos (by
      rw [← List.length_map Pointer.id, hids]
      exact Nat.succ_pos _)
    obtain ⟨hid, hids⟩ := List.cons.inj hids
    have hrel : q.released = false := hall q (by simp)
    obtain ⟨qs', ht', hrels, hcarry, hm'⟩ := ih (a := a ++ [q]) (by simpa using ht)
      (by simpa using hall) hids
    have hmid : Table m s₁ (a ++ q :: (qs' ++ b)) := by simpa using ht'
    obtain ⟨hpin, hseen⟩ := invalidateLoopIndex_harmless φ.loopId hm'.coherent
    have hlast := hmid.release hrel
    rw [hid] at hlast
    have hothers : ∀ r ∈ a ++ b, r ∈ active (a ++ (qs' ++ b)) := fun r hr => by
      refine mem_active.mpr ⟨?_, hall r ?_⟩
      · simp only [List.mem_append] at hr ⊢
        tauto
      · simp only [List.mem_append] at hr ⊢
        tauto
    have hkeep : Carries m (a ++ b) s₁ (invalidateLoopIndex s₁ φ.loopId) :=
      hmid.carries hlast hpin (fun r hr => (mem_active_middle hrel).mpr (.inr (hothers r hr)))
        (fun r hr => (mem_active_released rfl).mpr (hothers r hr))
    refine ⟨{ q with released := true } :: qs',
      by simpa [show q.id = φ.loopId from hid] using hlast, List.forall_mem_cons.mpr ⟨rfl, hrels⟩,
      Carries.trans (hcarry.mono fun r hr => ?_) hkeep, hm'.unseen hseen⟩
    simp only [List.mem_append] at hr ⊢
    tauto
  | beside _ hb ih =>
    obtain ⟨qs', ht', hrels, hcarry, hm'⟩ := ih ht hall hids
    have hact : ∀ r ∈ a ++ b, r ∈ active (a ++ qs' ++ b) := fun r hr => by
      refine mem_active.mpr ⟨?_, hall r ?_⟩
      · simp only [List.mem_append] at hr ⊢
        tauto
      · simp only [List.mem_append] at hr ⊢
        tauto
    exact ⟨qs', ht'.beside hb, hrels,
      hcarry.trans (ht'.carries (ht'.beside hb) hb.toPinning hact hact), hm'.unseen hb.toUnseen⟩

-- ---------------------------------------------------------------------------
-- The two programs at the same step
-- ---------------------------------------------------------------------------

def LinkedTo (m : Manager) (h₀ : Heap) (s : Loops) (vs : List (LoopGep × Phis))
    (l : List LoopGep × Nat) : Prop :=
  vs.map Prod.fst = l.1 ∧ ∀ v ∈ vs, Linked m h₀ s l.2 v

/-- The transformed program `s` and the original `b`, both over the memory `μ`. `ps` are
the pointers of the program, `below` those of loops it runs in. -/
structure Matching (m : Manager) (h₀ : Heap) (below : List Pointer) (μ : Mem UInt8)
    (ps : List Pointer) (s : Transformed) (b : Original) : Prop where
  table : Table m s.runtime (ps ++ below)
  kept : ∀ q ∈ ps ++ below, q.released = false
  ids : ps.map Pointer.id = s.loops.flatten.map (·.2.loopId)
  linked : List.Forall₂ (LinkedTo m h₀ s.runtime) s.loops b.loops
  mirror : Mirror m h₀ s.runtime.heap μ
  original : Mirror m h₀ b.heap μ

variable {loops : List (List (LoopGep × Phis))} {bl : List (List LoopGep × Nat)}
  {below : List Pointer} {t t' : Transformed} {o : Original}

theorem LinkedTo.carried (h : List.Forall₂ (LinkedTo m h₀ s) loops bl)
    (hc : ∀ v ∈ loops.flatten, ∀ k, Linked m h₀ s k v → Linked m h₀ s' k v) :
    List.Forall₂ (LinkedTo m h₀ s') loops bl := by
  induction h with
  | nil => exact .nil
  | @cons vs l loops bl hl _ ih =>
    rw [List.flatten_cons] at hc
    exact .cons ⟨hl.1, fun v hv => hc v (List.mem_append_left _ hv) l.2 (hl.2 v hv)⟩
      (ih fun v hv => hc v (List.mem_append_right _ hv))

theorem LinkedTo.hides (h : List.Forall₂ (LinkedTo m h₀ s) loops bl) :
    Hides bl (loops.map fun vs => vs.map (·.2.pointer)) := by
  induction h with
  | nil => exact .nil
  | @cons vs l loops bl hl _ ih =>
    refine .cons ?_ ih
    obtain ⟨gs, k⟩ := l
    obtain ⟨rfl, hl⟩ := hl
    dsimp only at hl ⊢
    rw [List.forall₂_map_left_iff, List.forall₂_map_right_iff, List.forall₂_same]
    exact fun v hv hlt => (hl v hv).value hlt

theorem Original.hides {m : Manager} (o : Original) : Hides o.loops ((guarded m).values o) := by
  rw [Hides, guarded, List.forall₂_map_right_iff, List.forall₂_same]
  intro l _
  rw [List.forall₂_map_right_iff, List.forall₂_same]
  exact fun _ _ _ => rfl

theorem LinkedTo.valueAt {i j : Nat} (h : List.Forall₂ (LinkedTo m h₀ s) loops bl)
    (hj : bl[j]? = some (gs, k)) (hi : gs[i]? = some g) :
    ∃ φ, valueAt (loops.map fun vs => vs.map (·.2.pointer)) j i = φ.pointer ∧
      Linked m h₀ s k (g, φ) := by
  induction h generalizing j with
  | nil => cases hj
  | @cons vs l loops bl hl _ ih =>
    cases j with
    | zero =>
      obtain rfl := Option.some.inj hj
      obtain ⟨rfl, hl⟩ := hl
      rw [List.getElem?_map] at hi
      obtain ⟨v, hv, rfl⟩ := Option.map_eq_some_iff.mp hi
      exact ⟨v.2, by simp [TrackFM.valueAt, hv], hl v (List.mem_of_getElem? hv)⟩
    | succ j => exact ih hj

theorem valueAt_original {i j : Nat} (hj : bl[j]? = some (gs, k)) (hi : gs[i]? = some g) :
    valueAt (bl.map fun l => l.1.map (·.value l.2)) j i = g.value k := by
  simp [valueAt, hj, hi]

namespace Matching

theorem mem_ids (h : Matching m h₀ below μ ps t o) {v : LoopGep × Phis} (hv : v ∈ t.loops.flatten) :
    ∃ q ∈ ps, v.2.loopId = q.id := by
  have hid : v.2.loopId ∈ ps.map Pointer.id := h.ids ▸ List.mem_map_of_mem hv
  obtain ⟨q, hq, he⟩ := List.mem_map.mp hid
  exact ⟨q, hq, he.symm⟩

theorem hides (h : Matching m h₀ below μ ps t o) : Hides o.loops ((chunked m).values t) :=
  LinkedTo.hides h.linked

/-- Something that happens in the runtime and leaves the pointers in use. -/
theorem pass (h : Matching m h₀ below μ ps t o) (hloops : t'.loops = t.loops)
    (ht : Table m t'.runtime (ps ++ below)) (hs : Pinning m t.runtime.heap t'.runtime.heap)
    {ν : Mem UInt8} {o' : Original} (hm : Mirror m h₀ t'.runtime.heap ν)
    (ho : Mirror m h₀ o'.heap ν) (hsame : o'.loops = o.loops) :
    Matching m h₀ below ν ps t' o' where
  table := ht
  kept := h.kept
  ids := hloops ▸ h.ids
  linked := by
    rw [hloops, hsame]
    refine LinkedTo.carried h.linked fun v hv k hl => ?_
    obtain ⟨q, hq, hid⟩ := h.mem_ids hv
    have hact : ∀ r ∈ ps, r ∈ active (ps ++ below) := fun r hr =>
      mem_active.mpr ⟨List.mem_append_left _ hr, h.kept r (List.mem_append_left _ hr)⟩
    exact h.table.carries ht hs hact hact q hq h₀ k v hid hl
  mirror := hm
  original := ho

theorem beside (h : Matching m h₀ below μ ps t o) (hb : (chunked m).between t t') :
    Matching m h₀ below μ ps t' o :=
  h.pass hb.1 (h.table.beside hb.2) hb.2.toPinning (h.mirror.unseen hb.2.toUnseen) h.original rfl

end Matching

-- ---------------------------------------------------------------------------
-- Accesses
-- ---------------------------------------------------------------------------

variable {bs : List UInt8} {n addr : Nat}

structure Accessed (m : Manager) (h₀ : Heap) (ν : Mem UInt8) (h h' : Heap) : Prop where
  mirror : Mirror m h₀ h' ν
  pinning : Pinning m h h'
  marks : h'.marks = h.marks

theorem Accessed.refl (hm : Mirror m h₀ h μ) : Accessed m h₀ μ h h := ⟨hm, .refl hm.coherent, rfl⟩

theorem guardRead_accessed (hm : Mirror m h₀ h μ) (ha : Access m h₀ addr n) :
    (guardRead m h addr n).2 = readBytes μ addr n ∧
      Accessed m h₀ μ h (guardRead m h addr n).1 := by
  obtain ⟨hread, hm'⟩ := hm.guardRead ha
  refine ⟨hread, ?_⟩
  cases ha with
  | @remote x _ hi hn =>
    have hi' := hm.current _ hi
    obtain ⟨base, -, hd⟩ := guardedRead_derefs hm.coherent hi'
    rw [guardRead_start (hi'.lt_start hm.coherent)] at hm' ⊢
    exact ⟨hm', pinning_derefs hd, hd.keeps.alloc.marks⟩
  | app hlt _ _ =>
    rw [guardRead_untagged hlt]
    exact .refl hm

theorem Pinning.store {f : Nat → UInt8} (hs : Pinning m h h')
    (hc : Coherent m (h'.store addr n f)) : Pinning m h (h'.store addr n f) where
  coherent := hc
  current i hi := Heap.store_current.mpr (hs.current i hi)
  pinned := hs.pinned
  dirty := hs.dirty

theorem guardWrite_accessed (hm : Mirror m h₀ h μ) (ha : Access m h₀ addr bs.length) :
    Accessed m h₀ (writeBytes μ addr bs) h (guardWrite m h addr bs) := by
  have hm' := hm.guardWrite ha
  cases ha with
  | @remote x _ hi hn =>
    have hi' := hm.current _ hi
    have hx := hi'.lt_start hm.coherent
    obtain ⟨base, -, hd⟩ := Heap.ptrDeref_spec (p := getCarmPtr (startAddr + x) true) hm.coherent
      (by rw [getCarmPtr_start hx]; exact hi')
    rw [guardWrite_start hx] at hm' ⊢
    exact ⟨hm', (pinning_derefs hd).store hm'.coherent, hd.keeps.alloc.marks⟩
  | app hlt _ _ =>
    rw [guardWrite_untagged hlt] at hm' ⊢
    exact ⟨hm', (Pinning.refl hm.coherent).store hm'.coherent, rfl⟩

theorem gep_address {off : Int} {pointer base : Nat} (hp : InSpace p)
    (hbase : base + objSize ≤ 2 ^ 47) (hptr : (pointer : Int) = base + p % objSize)
    (hin : Inside p off n) :
    ∃ y, u64 (pointer + word64 off) = base + y % objSize ∧
      u64 (startAddr + p.toNat + word64 off) = startAddr + y ∧
      y / objSize = objectOf p ∧ y % objSize + n ≤ objSize := by
  obtain ⟨h₀, h₁, h₂⟩ := hin
  obtain ⟨hp₀, hp₁⟩ := hp
  have hs : (objSize : Int) = 4096 := rfl
  have hsn := objSize_eq
  have hend : ((totalObjects * objSize : Nat) : Int) = 41943040 * 4096 := rfl
  have hstart : startAddr = 2 ^ 60 := rfl
  rw [hs] at h₀ h₁ h₂ hptr
  have hlocal := u64_add_word (d := off) (x := pointer) (by omega) (by omega)
  have hremote := u64_add_word (d := off) (x := startAddr + p.toNat) (by omega) (by omega)
  have hmod : (p + off).toNat % objSize = (p % 4096 + off).toNat := by
    show (p + off).toNat % 4096 = _
    omega
  have hdiv : (p + off).toNat / objSize = objectOf p := by
    show (p + off).toNat / 4096 = (p / 4096).toNat
    omega
  refine ⟨(p + off).toNat, ?_, ?_, hdiv, ?_⟩
  · omega
  · omega
  · omega

theorem InStep.reaches {c : Chunk} {off : Int} (hp : InSpace p) (hh : InStep m c x h₀ s φ p)
    (hin : Inside p off n) : ∃ base y, s.heap.Located (y / objSize) base ∧
      (c.mutable = true → s.heap.Writable (y / objSize) base) ∧ h₀.Current (y / objSize) ∧
      s.heap.Current (y / objSize) ∧ y % objSize + n ≤ objSize ∧
      u64 (φ.pointer + word64 off) = base + y % objSize ∧ base + y % objSize < 2 ^ 60 ∧
      u64 (startAddr + p.toNat + word64 off) = startAddr + y := by
  obtain ⟨base, hl, hptr, -⟩ := hh.tracks.held
  have hwithin := hl.within hh.tracks.coherent hh.tracks.current
  have hhi := m.hi_le
  have hsize := objSize_eq
  obtain ⟨y, hlocal, hremote, hslot, hn⟩ := gep_address hp (by omega) hptr hin
  have hoff := Nat.mod_lt y (show 0 < objSize by decide)
  refine ⟨base, y, hslot ▸ hl, fun hw => ?_, hslot ▸ hh.current, hslot ▸ hh.tracks.current, hn,
    hlocal, by omega, hremote⟩
  obtain ⟨base', hb⟩ := hh.dirty hw
  obtain rfl := hb.located.eq hl
  exact hslot ▸ hb

theorem GepOperand.address_gep {i j : Nat} {off : Int} {q : List (List Nat)} {x : Nat}
    (h : valueAt q j i = x) : (GepOperand.gep j i off).address q = u64 (x + word64 off) := by
  rw [GepOperand.address, h]

/-- A load of either program reads the flat memory. -/
theorem Matching.load {a : GepOperand} (h : Matching m h₀ below μ ps t o)
    (ha : a.Fits o.loops false n)
    (hacc : Access m h₀ (a.address ((guarded m).values o)) n) :
    (guardRead m t.runtime.heap (a.address ((chunked m).values t)) n).2 =
        readBytes μ (a.address ((guarded m).values o)) n ∧
      Accessed m h₀ μ t.runtime.heap
        (guardRead m t.runtime.heap (a.address ((chunked m).values t)) n).1 := by
  cases ha with
  | other => exact guardRead_accessed h.mirror hacc
  | @gep gs k j i off g hj hi hin =>
    obtain ⟨φ, hval, hl⟩ := LinkedTo.valueAt h.linked hj hi
    have hown : g.start < startAddr → φ.pointer = g.value k := hl.value
    rw [GepOperand.address_gep (q := (guarded m).values o) (valueAt_original hj hi)] at hacc ⊢
    rw [GepOperand.address_gep (q := (chunked m).values t) hval]
    cases hl with
    | @remote _ _ x hx hp hh =>
      obtain ⟨base, y, hloc, -, hcur₀, -, hn, hlocal, hlt, hremote⟩ := hh.reaches hp (hin x hx).1
      rw [LoopGep.value_start hx hp, hlocal, hremote, guardRead_untagged hlt]
      exact ⟨h.mirror.located hcur₀ hloc hn, .refl h.mirror⟩
    | app hlt =>
      rw [hown hlt]
      exact guardRead_accessed h.mirror hacc

/-- A store of either program writes it. -/
theorem Matching.store {a : GepOperand} (h : Matching m h₀ below μ ps t o)
    (ha : a.Fits o.loops true bs.length)
    (hacc : Access m h₀ (a.address ((guarded m).values o)) bs.length) :
    Accessed m h₀ (writeBytes μ (a.address ((guarded m).values o)) bs) t.runtime.heap
        (guardWrite m t.runtime.heap (a.address ((chunked m).values t)) bs) := by
  cases ha with
  | other => exact guardWrite_accessed h.mirror hacc
  | @gep gs k j i off g hj hi hin =>
    obtain ⟨φ, hval, hl⟩ := LinkedTo.valueAt h.linked hj hi
    have hown : g.start < startAddr → φ.pointer = g.value k := hl.value
    rw [GepOperand.address_gep (q := (guarded m).values o) (valueAt_original hj hi)] at hacc ⊢
    rw [GepOperand.address_gep (q := (chunked m).values t) hval]
    cases hl with
    | @remote _ _ x hx hp hh =>
      obtain ⟨hinside, hmut⟩ := hin x hx
      obtain ⟨base, y, -, hwrite, -, hcur, hn, hlocal, hlt, hremote⟩ := hh.reaches hp hinside
      have hwrites := Heap.store_slot (f := fun j => bs.getD j 0) h.mirror.coherent hcur
        (hwrite (hmut rfl)) hn
      rw [LoopGep.value_start hx hp, hlocal, hremote, guardWrite_untagged hlt]
      exact ⟨h.mirror.writes hwrites, (Pinning.refl h.mirror.coherent).store hwrites.coherent, rfl⟩
    | app hlt =>
      rw [hown hlt]
      exact guardWrite_accessed h.mirror hacc

-- ---------------------------------------------------------------------------
-- Entering, going on and leaving
-- ---------------------------------------------------------------------------

theorem Headers.exists (ht : Table m s ps) (hall : ∀ q ∈ ps, q.released = false)
    (hlen : ps.length + gs.length ≤ maxLoops) (hm : Mirror m h₀ s.heap μ)
    (hat : ∀ g ∈ gs, g.At h₀ 0) : ∃ s' vs, Headers m s gs s' vs := by
  induction gs with
  | nil => exact ⟨s, [], .nil⟩
  | cons g gs ih =>
    obtain ⟨-, hgs⟩ := List.forall_mem_cons.mp hat
    rw [List.length_cons] at hlen
    obtain ⟨s₁, vs, hrest⟩ := ih (by omega) hgs
    obtain ⟨-, qs, hl, hqs, -⟩ := hrest.linked ht hall (by omega) hm hgs
    have hroom : (qs ++ ps).length < maxLoops := by
      rw [List.length_append]
      omega
    obtain ⟨s', φ, hheader, -⟩ := hl.table.header hl.kept hroom (c := g.chunk)
    exact ⟨s', (g, φ) :: vs, .cons hrest hheader⟩

theorem BackEdges.exists : ∃ s' vs', BackEdges m s vs s' vs' := by
  induction vs generalizing s with
  | nil => exact ⟨s, [], .nil⟩
  | cons v vs ih =>
    obtain ⟨s', vs', h⟩ := ih (s := (v.1.chunk.backEdge m s v.2).1)
    exact ⟨s', _, .cons (g := v.1) (φ := v.2) h⟩

theorem Invalidations.exists : ∃ s', Invalidations m s vs s' := by
  induction vs with
  | nil => exact ⟨s, .nil⟩
  | cons v vs ih =>
    obtain ⟨s', h⟩ := ih
    exact ⟨_, .cons (g := v.1) (φ := v.2) h⟩

namespace Matching

theorem flatten_length (h : Matching m h₀ below μ ps t o) : ps.length = inUse o.loops := by
  have hlen : ∀ {loops : List (List (LoopGep × Phis))} {bl : List (List LoopGep × Nat)},
      List.Forall₂ (LinkedTo m h₀ t.runtime) loops bl → loops.flatten.length = inUse bl := by
    intro loops bl h
    induction h with
    | nil => rfl
    | @cons vs l loops bl hl _ ih =>
      rw [List.flatten_cons, List.length_append, ih, inUse, inUse, List.map_cons, List.sum_cons,
        ← hl.1, List.length_map]
  rw [← hlen h.linked, ← List.length_map Pointer.id, h.ids, List.length_map]

theorem enter (h : Matching m h₀ below μ ps t o)
    (hroom : inUse o.loops + gs.length + below.length ≤ maxLoops) (hat : ∀ g ∈ gs, g.At h₀ 0)
    (he : (chunked m).enter t gs t') :
    ∃ qs, Matching m h₀ below μ qs t' { o with loops := (gs, 0) :: o.loops } := by
  obtain ⟨vs, hheaders, hloops⟩ := he
  have hlen : (ps ++ below).length + gs.length ≤ maxLoops := by
    rw [List.length_append, h.flatten_length]
    omega
  obtain ⟨hfst, qs, hl, -, hcarry⟩ := hheaders.linked h.table h.kept hlen h.mirror hat
  refine ⟨qs ++ ps, ?_, ?_, ?_, ?_, hl.mirror, h.original⟩
  · simpa using hl.table
  · simpa using hl.kept
  · rw [hloops, List.flatten_cons, List.map_append, List.map_append, hl.ids, h.ids]
  · rw [hloops]
    refine .cons ⟨hfst, hl.linked⟩ (LinkedTo.carried h.linked fun v hv k hlinked => ?_)
    obtain ⟨q, hq, hid⟩ := h.mem_ids hv
    exact hcarry q (List.mem_append_left _ hq) h₀ k v hid hlinked

theorem top {l : List LoopGep × Nat} {rest : List (List LoopGep × Nat)}
    (h : Matching m h₀ below μ ps t o) (ho : o.loops = l :: rest) (ht : t.loops = vs :: loops) :
    ∃ qs ps', ps = qs ++ ps' ∧
      ps'.map Pointer.id = loops.flatten.map (·.2.loopId) ∧ vs.map Prod.fst = l.1 ∧
      List.Forall₂ (LinkedTo m h₀ t.runtime) loops rest ∧
      InLoop m h₀ μ t.runtime l.2 vs [] qs (ps' ++ below) := by
  have hids := h.ids
  have hlinked := h.linked
  rw [ht, List.flatten_cons, List.map_append] at hids
  rw [ht, ho] at hlinked
  obtain ⟨qs, ps', rfl, hqs, hps⟩ := List.map_eq_append_iff.mp hids
  obtain ⟨⟨hfst, hall⟩, hrest⟩ := List.forall₂_cons.mp hlinked
  refine ⟨qs, ps', rfl, hps, hfst, hrest, ?_, ?_, hqs, hall, h.mirror⟩
  · simpa using h.table
  · simpa using h.kept

theorem back {rest : List (List LoopGep × Nat)} (h : Matching m h₀ below μ ps t o)
    (ho : o.loops = (gs, k) :: rest) (hat : ∀ g ∈ gs, g.At h₀ (k + 1))
    (henter : ∀ g ∈ gs, ∀ x : Nat, g.start = startAddr + x →
      Lib.EntersAtStart objSize g.step (x + k * g.step)) (hb : (chunked m).back t t') :
    ∃ qs, Matching m h₀ below μ qs t' { o with loops := (gs, k + 1) :: rest } := by
  obtain ⟨vs, vs', loops, ht, hedges, ht'⟩ := hb
  obtain ⟨qs, ps', rfl, hids, hfst, hrest, hl⟩ := h.top ho ht
  have hgs : ∀ v ∈ vs, v.1 ∈ gs := fun v hv =>
    (show vs.map Prod.fst = gs from hfst) ▸ List.mem_map_of_mem hv
  obtain ⟨hsame, qs', hl', hcarry⟩ := hedges.linked hl (fun v hv => hat _ (hgs v hv))
    fun v hv => henter _ (hgs v hv)
  refine ⟨qs' ++ ps', ?_, ?_, ?_, ?_, hl'.mirror, h.original⟩
  · simpa using hl'.table
  · simpa using hl'.kept
  · rw [ht', List.flatten_cons, List.map_append, List.map_append, hl'.ids, hids]
  · rw [ht']
    refine .cons ⟨hsame.trans hfst, hl'.linked⟩ (LinkedTo.carried hrest fun v hv k hlinked => ?_)
    have hid : v.2.loopId ∈ ps'.map Pointer.id := hids ▸ List.mem_map_of_mem hv
    obtain ⟨q, hq, he⟩ := List.mem_map.mp hid
    exact hcarry q (by simp [hq]) h₀ k v he.symm hlinked

theorem exit {l : List LoopGep × Nat} {rest : List (List LoopGep × Nat)}
    (h : Matching m h₀ below μ ps t o) (ho : o.loops = l :: rest) (he : (chunked m).exit t t') :
    ∃ qs, Matching m h₀ below μ qs t' { o with loops := rest } := by
  obtain ⟨vs, loops, ht, hcalls, ht'⟩ := he
  obtain ⟨qs, ps', rfl, hids, -, hrest, hl⟩ := h.top ho ht
  obtain ⟨qs', htable, hrel, hcarry, hm⟩ := hcalls.released hl.table hl.kept hl.ids h.mirror
  refine ⟨ps', Table.leave (by simpa using htable) hrel, fun q hq => ?_, ?_, ?_, hm, h.original⟩
  · exact hl.kept q (by simpa using Or.inr (List.mem_append.mp hq))
  · rw [ht', hids]
  · rw [ht']
    refine LinkedTo.carried hrest fun v hv k hlinked => ?_
    have hid : v.2.loopId ∈ ps'.map Pointer.id := hids ▸ List.mem_map_of_mem hv
    obtain ⟨q, hq, he⟩ := List.mem_map.mp hid
    exact hcarry q (by simp [hq]) h₀ k v he.symm hlinked

-- ---------------------------------------------------------------------------
-- Steps and runs
-- ---------------------------------------------------------------------------

variable {S : Type} {u : Uses S} {v' : S} {new : List Nat} {room : Nat}

/-- What the transformed program does the original does. -/
theorem step (h : Matching m h₀ below μ ps t o) (hu : u.Fits o.loops)
    (hv : Valid m h₀ room o.loops (u.action ((guarded m).values o)))
    (hroom : room + below.length ≤ maxLoops)
    (he : Exec (chunked m) t (u.action ((chunked m).values t)) t' new v') :
    ∃ o' ν qs, Exec (guarded m) o (u.action ((guarded m).values o)) o' new v' ∧
      Matching m h₀ below ν qs t' o' := by
  cases hu with
  | halt => cases he
  | @load a n k ha =>
    cases he
    cases hv with | load hacc =>
    obtain ⟨hread, hleft⟩ := h.load ha hacc
    obtain ⟨hread', hm'⟩ := h.original.guardRead hacc
    have hstep : Exec (guarded m) o (.load (a.address ((guarded m).values o)) n k) _ []
        (k ((guarded m).read o (a.address ((guarded m).values o)) n).2) := .load
    rw [show ((guarded m).read o (a.address ((guarded m).values o)) n).2 = _ from
      hread'.trans hread.symm] at hstep
    have htable := h.table.other hleft.marks
    refine ⟨_, μ, ps, hstep, ?_⟩
    exact h.pass (by rfl) htable hleft.pinning hleft.mirror hm' rfl
  | @store a bs v ha =>
    cases he
    cases hv with | store hacc =>
    have hleft := h.store ha hacc
    have htable := h.table.other hleft.marks
    refine ⟨_, writeBytes μ (a.address ((guarded m).values o)) bs, ps, .store, ?_⟩
    exact h.pass (by rfl) htable hleft.pinning hleft.mirror (h.original.guardWrite hacc) rfl
  | emit =>
    cases he
    exact ⟨o, μ, ps, .emit, h⟩
  | enter =>
    cases he with | enter he =>
    cases hv with | enter hat hfit =>
    obtain ⟨qs, h'⟩ := h.enter (by omega) hat he
    exact ⟨_, μ, qs, .enter rfl, h'⟩
  | back henter =>
    cases he with | back he =>
    cases hv with | back ho hat =>
    obtain ⟨qs, h'⟩ := h.back ho hat (henter _ _ _ ho) he
    refine ⟨_, μ, qs, .back ?_, h'⟩
    show _ = _
    rw [ho]
    rfl
  | exit =>
    cases he with | exit he =>
    cases hv with | exit ho =>
    obtain ⟨l, rest, ho⟩ := List.exists_cons_of_ne_nil ho
    obtain ⟨qs, h'⟩ := h.exit ho he
    refine ⟨_, μ, qs, .exit ?_, h'⟩
    show _ = _
    rw [ho]
    rfl

/-- ... and it does something. -/
theorem goes_on (h : Matching m h₀ below μ ps t o)
    (hv : Valid m h₀ room o.loops (u.action ((guarded m).values o)))
    (hroom : room + below.length ≤ maxLoops) (hne : u ≠ .halt) :
    ∃ t' new v', Exec (chunked m) t (u.action ((chunked m).values t)) t' new v' := by
  cases u with
  | halt => exact absurd rfl hne
  | load a n k => exact ⟨_, _, _, .load⟩
  | store a bs v => exact ⟨_, _, _, .store⟩
  | emit x v => exact ⟨_, _, _, .emit⟩
  | enter gs v =>
    cases hv with | enter hat hfit =>
    have hlen : (ps ++ below).length + gs.length ≤ maxLoops := by
      rw [List.length_append, h.flatten_length]
      omega
    obtain ⟨s', vs, hheaders⟩ := Headers.exists h.table h.kept hlen h.mirror hat
    exact ⟨⟨s', vs :: t.loops⟩, [], v, .enter ⟨vs, hheaders, rfl⟩⟩
  | back v =>
    cases hv with | back ho hat =>
    have hlinked := h.linked
    rw [ho] at hlinked
    obtain ⟨vs, loops, -, -, ht⟩ := List.forall₂_cons_right_iff.mp hlinked
    obtain ⟨s', vs', hedges⟩ := (BackEdges.exists : ∃ s' vs', BackEdges m t.runtime vs s' vs')
    exact ⟨⟨s', vs' :: loops⟩, [], v, .back ⟨vs, vs', loops, ht, hedges, rfl⟩⟩
  | exit v =>
    cases hv with | exit ho =>
    obtain ⟨l, rest, ho⟩ := List.exists_cons_of_ne_nil ho
    have hlinked := h.linked
    rw [ho] at hlinked
    obtain ⟨vs, loops, -, -, ht⟩ := List.forall₂_cons_right_iff.mp hlinked
    obtain ⟨s', hcalls⟩ := (Invalidations.exists : ∃ s', Invalidations m t.runtime vs s')
    exact ⟨⟨s', loops⟩, [], v, .exit ⟨vs, loops, ht, hcalls, rfl⟩⟩

end Matching

section
variable {S : Type} {prog : Lib.Program LoopGep S} {v₀ : S} {frames : List Frame}

/-- Replacing GEPs by local pointers keeps the meaning of a program of nested loops
whose remote GEPs are only used as the addresses of accesses within their objects. -/
theorem rewritten_loop
    (hr : NestReach m (fun s op => s.Nested op ∧ s.Fits op) ⟨s₀, frames⟩)
    (hrun : ∀ f ∈ frames.head?, f.phase = .running) (hc : Coherent m s₀.heap)
    (hvalid : ValidRuns m prog s₀ v₀)
    (huses : ∀ b v out, Gets (guarded m) prog ⟨s₀.heap, []⟩ v₀ b v out → AddressOnly prog b v) :
    SameMeaning m prog s₀ v₀ := by
  obtain ⟨hstacked, htable⟩ := hr.ordered
  have hall : ∀ q ∈ Nest.pointers ⟨s₀, frames⟩, q.released = false :=
    hstacked.released fun f hf => by
      rw [hrun f hf]
      nofun
  obtain ⟨below, hbelow⟩ : ∃ l, l = Nest.pointers ⟨s₀, frames⟩ := ⟨_, rfl⟩
  rw [← hbelow] at htable hall
  have hroom : maxLoops - s₀.loopIdCnt + below.length ≤ maxLoops := by
    have hcount := htable.count
    have hfew := htable.few
    rw [active_all hall] at hcount
    dsimp only at hcount
    omega
  have hstart : Matching m s₀.heap below (s₀.heap.view m) [] ⟨s₀, []⟩ ⟨s₀.heap, []⟩ :=
    ⟨htable, hall, rfl, .nil, .refl hc, .refl hc⟩
  intro s v out hgets
  obtain ⟨b, hb, μ, ps, hmatch⟩ := hgets.simulated (N := guarded m)
    (I := fun s b => ∃ μ ps, Matching m s₀.heap below μ ps s b) ⟨_, [], hstart⟩
    (fun s s' b ⟨μ, ps, h⟩ hbetween => ⟨μ, ps, h.beside hbetween⟩)
    (fun b v out hb s s' new v' ⟨μ, ps, h⟩ he => by
      obtain ⟨u, hu, hfits⟩ := huses b v out hb
      have hv := hvalid b v out hb
      rw [hu _ b.hides] at hv
      rw [hu _ h.hides] at he
      obtain ⟨b', ν, qs, he', h'⟩ := h.step hfits hv hroom he
      refine ⟨b', ?_, ν, qs, h'⟩
      rw [hu _ b.hides]
      exact he')
  obtain ⟨u, hu, -⟩ := huses b v out hb
  have hv := hvalid b v out hb
  rw [hu _ b.hides] at hv
  have hnow : prog ((chunked m).values s) v = u.action ((chunked m).values s) :=
    hu _ hmatch.hides
  refine ⟨fun hne => ?_, b, hb, fun hhalt => ?_, fun a ha => ?_⟩
  · rw [hnow] at hne ⊢
    exact hmatch.goes_on hv hroom fun hu => hne (by rw [hu]; rfl)
  · rw [hnow] at hhalt
    rw [hu _ b.hides]
    cases u <;> first | rfl | cases hhalt
  · exact (hmatch.mirror.agrees a ha).trans (hmatch.original.agrees a ha).symm

end

section
variable {S : Type} {prog : Lib.Program LoopGep S} {v₀ v₁ v₂ : S}

theorem Gets.emitted {b : Original} {v : S} {out : List Nat}
    (henter : ∀ p, prog p v₀ = .enter [g] v₁)
    (hemit : ∀ p, prog p v₁ = .emit (valueAt p 0 0) v₂)
    (h : Gets (guarded m) prog ⟨h₀, []⟩ v₀ b v out) :
    (out = [] ∧ (v = v₀ ∧ b.loops = [] ∨ v = v₁ ∧ b.loops = [([g], 0)])) ∨
      ∃ rest, out = g.value 0 :: rest := by
  refine h.invariant (J := fun b v out => (out = [] ∧ (v = v₀ ∧ b.loops = [] ∨
    v = v₁ ∧ b.loops = [([g], 0)])) ∨ ∃ rest, out = g.value 0 :: rest) (.inl ⟨rfl, .inl ⟨rfl, rfl⟩⟩)
    ?_ ?_
  · rintro b b' v out hJ ⟨hloops, -⟩
    rwa [hloops]
  · rintro b b' v v' out new (⟨rfl, ⟨rfl, hb⟩ | ⟨rfl, hb⟩⟩ | ⟨rest, rfl⟩) he
    · rw [henter] at he
      cases he with | enter he =>
      obtain rfl : b' = _ := he
      exact .inl ⟨rfl, .inr ⟨rfl, by rw [hb]⟩⟩
    · rw [hemit] at he
      cases he
      refine .inr ⟨[], ?_⟩
      show [valueAt (b.loops.map _) 0 0] = _
      rw [hb]
      rfl
    · exact .inr ⟨rest ++ new, rfl⟩

/-- A program that hands on the address of a remote GEP hands on another value. -/
theorem not_sameMeaning_emit (hid : s₀.loopIdCnt < maxLoops)
    (hfree : (s₀.loopstate s₀.loopIdCnt).active = false) (hc : Coherent m s₀.heap)
    (hg : g.start = startAddr + x) (hx : InSpace (x : Int))
    (hcur : s₀.heap.Current (objectOf (x : Int)))
    (henter : ∀ p, prog p v₀ = .enter [g] v₁)
    (hemit : ∀ p, prog p v₁ = .emit (valueAt p 0 0) v₂) : ¬SameMeaning m prog s₀ v₀ := by
  intro hsame
  obtain ⟨s, φ, hheader⟩ := Chunk.outerHeader_returns (m := m) (g := g.chunk) hfree
  have hentered : Gets (chunked m) prog ⟨s₀, []⟩ v₀ ⟨s, [[(g, φ)]]⟩ v₁ [] :=
    .step .start ((henter _).symm ▸ .enter ⟨_, .cons .nil hheader, rfl⟩)
  have hout : Gets (chunked m) prog ⟨s₀, []⟩ v₀ ⟨s, [[(g, φ)]]⟩ v₂ [φ.pointer] :=
    .step hentered ((hemit _).symm ▸ .emit)
  obtain ⟨-, b, hb, -⟩ := hsame _ _ _ hout
  obtain ⟨hnil, -⟩ | ⟨rest, hrest⟩ := Gets.emitted henter hemit hb
  · cases hnil
  have hvalue : φ.pointer = g.value 0 := (List.cons.inj hrest).1
  have hstep : InStep m g.chunk x s₀.heap s φ x :=
    (InStep.enter hid hc hx hcur hcur hg word64_lt hheader).1
  obtain ⟨base, hl, hptr, -⟩ := hstep.tracks.held
  have hwithin := hl.within hstep.tracks.coherent hstep.tracks.current
  have hhi := m.hi_le
  have hstart : startAddr = 2 ^ 60 := rfl
  have hs : (objSize : Int) = 4096 := rfl
  have hsn := objSize_eq
  rw [LoopGep.value, hg] at hvalue
  rw [hs] at hptr
  omega

end

-- ---------------------------------------------------------------------------
-- Two loops over ten words
-- ---------------------------------------------------------------------------

def wordGep (a : Nat) (written : Bool) : LoopGep := ⟨a, 8, false, written, by decide, nofun⟩

inductive Copying where
  | begin
  | load (i : Nat)
  | store (i : Nat) (bs : List UInt8)
  | next (i : Nat)
  | done

def Copying.uses (gs : List LoopGep) : Copying → Uses Copying
  | begin => .enter gs (.load 0)
  | load i => .load (.gep 0 0 0) 8 (.store i)
  | store i bs => .store (.gep 0 1 0) bs (.next i)
  | next i => if i + 1 < 10 then .back (.load (i + 1)) else .exit .done
  | done => .halt

/-- The arrays start two words before an object ends. -/
def copiedGeps : List LoopGep :=
  [wordGep (startAddr + 4080) false, wordGep (startAddr + 12272) true]

def copyWords : Lib.Program LoopGep Copying := fun p v => (v.uses copiedGeps).action p

def callWords : Lib.Program LoopGep Copying
  | p, .load i => .emit (valueAt p 0 0) (.next i)
  | _, .store _ _ => .halt
  | p, v => (v.uses [wordGep (startAddr + 4080) false]).action p

inductive Copying.In (gs : List LoopGep) : List (List LoopGep × Nat) → Copying → Prop
  | begin : In gs [] .begin
  | load {i : Nat} : i < 10 → In gs [(gs, i)] (.load i)
  | store {i : Nat} {bs : List UInt8} : i < 10 → bs.length = 8 → In gs [(gs, i)] (.store i bs)
  | next {i : Nat} : i < 10 → In gs [(gs, i)] (.next i)
  | done : In gs [] .done

theorem guardRead_length : (guardRead m h addr n).2.length = n := by
  rw [guardRead]
  split <;> simp [readBytes]

theorem Copying.reached {prog : Lib.Program LoopGep Copying} {b : Original} {v : Copying}
    {out : List Nat} (hprog : ∀ p v, prog p v = (v.uses gs).action p ∨ prog p v = .halt ∨
      ∃ i x, v = .load i ∧ prog p v = .emit x (.next i))
    (h : Gets (guarded m) prog ⟨h₀, []⟩ .begin b v out) : Copying.In gs b.loops v := by
  refine h.invariant (J := fun b v _ => Copying.In gs b.loops v) .begin ?_ ?_
  · rintro b b' v _ hJ ⟨hloops, -⟩
    rwa [hloops]
  · rintro ⟨heap, loops⟩ b' v v' _ new hJ he
    obtain hstep | hstep | ⟨i, x, rfl, hstep⟩ := hprog ((guarded m).values ⟨heap, loops⟩) v
    · rw [hstep] at he
      cases hJ with
      | begin =>
        cases he with | enter he =>
        obtain rfl : b' = _ := he
        exact .load (by decide)
      | load hi =>
        cases he
        exact .store hi guardRead_length
      | store hi _ =>
        cases he
        exact .next hi
      | @next i hi =>
        by_cases hmore : i + 1 < 10
        · rw [Copying.uses, if_pos hmore] at he
          cases he with | back he =>
          obtain rfl : b' = _ := he
          exact .load hmore
        · rw [Copying.uses, if_neg hmore] at he
          cases he with | exit he =>
          obtain rfl : b' = _ := he
          exact .done
      | done => cases he
    · rw [hstep] at he
      cases he
    · rw [hstep] at he
      cases he
      cases hJ with | load hi =>
      exact .next hi

def fourObjects : List Nat := [0, 1, 2, 3]

theorem fourObjects_parkable : Heap.Parkable fourObjects where
  nonempty := List.cons_ne_nil _ _
  nodup := by decide
  few := by decide
  lt := by decide

theorem fourObjects_current {i : Nat} (hi : i < 4) : (parkedLoops fourObjects).heap.Current i :=
  Heap.parked_current (μ := fun _ => 0) fourObjects_parkable (by
    rw [fourObjects]
    simp only [List.mem_cons, List.not_mem_nil]
    omega)

theorem wordGep_at {w : Bool} (hx : x + 80 ≤ 16384) (hk : k < 10) :
    (wordGep (startAddr + x) w).At (parkedLoops fourObjects).heap k := by
  have hend : ((totalObjects * objSize : Nat) : Int) = 41943040 * 4096 := rfl
  refine .remote rfl ?_ (fourObjects_current ?_)
  · show 0 ≤ (x : Int) + k * 8 ∧ (x : Int) + k * 8 < _
    omega
  · show (((x : Int) + k * 8) / 4096).toNat < 4
    omega

theorem wordGep_access {w : Bool} (hx : x + 80 ≤ 16384) (h8 : x % 8 = 0) (hk : k < 10) :
    Access m (parkedLoops fourObjects).heap
      (u64 ((wordGep (startAddr + x) w).value k + word64 0)) 8 := by
  have hstart : startAddr = 2 ^ 60 := rfl
  have hvalue : (wordGep (startAddr + x) w).value k = startAddr + (x + 8 * k) := by
    show (((startAddr + x : Nat) : Int) + k * 8).toNat = _
    omega
  have hsame : u64 (startAddr + (x + 8 * k) + word64 0) = startAddr + (x + 8 * k) := by
    show (startAddr + (x + 8 * k) + 0) % 2 ^ 64 = _
    omega
  rw [hvalue, hsame]
  refine .remote (fourObjects_current ?_) ?_
  · show (x + 8 * k) / 4096 < 4
    omega
  · show (x + 8 * k) % 4096 + 8 ≤ 4096
    omega

theorem copiedGeps_at (hk : k < 10) : ∀ g ∈ copiedGeps, g.At (parkedLoops fourObjects).heap k :=
  List.forall_mem_cons.mpr ⟨wordGep_at (by decide) hk,
    List.forall_mem_singleton.mpr (wordGep_at (by decide) hk)⟩

theorem Copying.next_valid {room : Nat}
    (hat : ∀ k < 10, ∀ g ∈ gs, g.At (parkedLoops fourObjects).heap k) (q : List (List Nat)) :
    Valid m (parkedLoops fourObjects).heap room [(gs, k)]
      ((Copying.uses gs (.next k)).action q) := by
  rw [Copying.uses]
  split
  · exact .back rfl (hat _ ‹_›)
  · exact .exit (List.cons_ne_nil _ _)

theorem copyWords_valid : ValidRuns m copyWords (parkedLoops fourObjects) .begin := by
  rintro ⟨heap, loops⟩ v out h
  have hin := Copying.reached (fun _ _ => .inl rfl) h
  dsimp only at hin
  cases hin with
  | begin => exact .enter (copiedGeps_at (by decide)) (show 0 + 2 ≤ maxLoops - 0 by decide)
  | load hi => exact .load (wordGep_access (x := 4080) (by decide) (by decide) hi)
  | store hi hbs => exact .store (hbs ▸ wordGep_access (x := 12272) (by decide) (by decide) hi)
  | next => exact Copying.next_valid (fun _ => copiedGeps_at) _
  | done => exact .halt

theorem wordGep_inside (h8 : x % 8 = 0) : Inside ((x : Int) + k * 8) 0 8 := by
  show 0 ≤ ((x : Int) + k * 8) % 4096 + 0 ∧ ((x : Int) + k * 8) % 4096 + 0 < 4096 ∧
    ((x : Int) + k * 8) % 4096 + 0 + (8 : Nat) ≤ 4096
  omega

theorem copyWords_uses {b : Original} {v : Copying} (h : Copying.In copiedGeps b.loops v) :
    AddressOnly copyWords b v := by
  refine ⟨v.uses copiedGeps, fun _ _ => rfl, ?_⟩
  obtain ⟨heap, loops⟩ := b
  dsimp only at h ⊢
  cases h with
  | begin => exact .enter
  | load hi =>
    refine .load (.gep rfl rfl fun x hx => ?_)
    obtain rfl : x = 4080 := Nat.add_left_cancel hx.symm
    exact ⟨wordGep_inside (by decide), nofun⟩
  | store hi hbs =>
    refine .store (.gep rfl rfl fun x hx => ?_)
    obtain rfl : x = 12272 := Nat.add_left_cancel hx.symm
    exact ⟨hbs ▸ wordGep_inside (by decide), fun _ => rfl⟩
  | @next i hi =>
    rw [Copying.uses]
    split
    · refine .back ?_
      rintro gs k rest ⟨⟩ g hg x hx hne
      have h8 : x % 8 = 0 ∧ g.step = 8 := by
        rcases List.mem_cons.mp hg with rfl | hg
        · obtain rfl : x = 4080 := Nat.add_left_cancel hx.symm
          exact ⟨by decide, rfl⟩
        · obtain rfl := List.mem_singleton.mp hg
          obtain rfl : x = 12272 := Nat.add_left_cancel hx.symm
          exact ⟨by decide, rfl⟩
      have hs : (objSize : Int) = 4096 := rfl
      rw [h8.2, hs] at hne ⊢
      omega
    · exact .exit
  | done => exact .halt

/-- Two arrays over two objects each. -/
theorem rewritten_copy :
    SameMeaning cacheManager copyWords (parkedLoops fourObjects) .begin :=
  rewritten_loop (.init (fun _ => .cleared) rfl) (fun _ h => nomatch h)
    (Heap.parked_coherent (μ := fun _ => 0) fourObjects_parkable) copyWords_valid
    fun _ _ _ h => copyWords_uses (Copying.reached (fun _ _ => .inl rfl) h)

theorem callWords_valid : ValidRuns m callWords (parkedLoops fourObjects) .begin := by
  rintro ⟨heap, loops⟩ v out h
  have hprog : ∀ p v, callWords p v = (v.uses [wordGep (startAddr + 4080) false]).action p ∨
      callWords p v = .halt ∨ ∃ i x, v = .load i ∧ callWords p v = .emit x (.next i) := by
    intro p v
    cases v with
    | load i => exact .inr (.inr ⟨i, _, rfl, rfl⟩)
    | store => exact .inr (.inl rfl)
    | _ => exact .inl rfl
  have hat : ∀ k < 10, ∀ g ∈ [wordGep (startAddr + 4080) false],
      g.At (parkedLoops fourObjects).heap k := fun k hk =>
    List.forall_mem_singleton.mpr (wordGep_at (by decide) hk)
  have hin := Copying.reached hprog h
  dsimp only at hin
  cases hin with
  | begin => exact .enter (hat 0 (by decide)) (show 0 + 1 ≤ maxLoops - 0 by decide)
  | load => exact .emit
  | store => exact .halt
  | next => exact Copying.next_valid hat _
  | done => exact .halt

/-- The function is called on local addresses. -/
theorem rewritten_call : ¬∀ prog : Lib.Program LoopGep Copying,
    ValidRuns cacheManager prog (parkedLoops fourObjects) .begin →
      SameMeaning cacheManager prog (parkedLoops fourObjects) .begin := by
  intro h
  have hend : ((totalObjects * objSize : Nat) : Int) = 41943040 * 4096 := rfl
  refine absurd (h callWords callWords_valid) ?_
  exact not_sameMeaning_emit (x := 4080) (show 0 < maxLoops by decide) rfl
    (Heap.parked_coherent (μ := fun _ => 0) fourObjects_parkable) rfl (by omega)
    (fourObjects_current (by decide)) (fun _ => rfl) (fun _ => rfl)

end TrackFM
