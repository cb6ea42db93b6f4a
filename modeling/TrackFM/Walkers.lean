import TrackFM.Walk
import TrackFM.Memcpy

/-!
# Chunked loops inside one another

A program runs any number of chunked loops, nested as `Nesting` has them, each
pointer over remote objects or local memory. The calls of one pointer fetch
objects, move marks and share the loop table with all others. Each pointer still
goes on as if nothing else ran: it reads the logical bytes at its address.
-/

namespace TrackFM

open Loops (carmDerefLoop carmLoopInit invalidateLoopIndex opened initialBound carmDerefLoop_remote
  carmDerefLoop_local set_self)
open Heap (Coherent Located)
open Lib (EntersAtStart)

-- ---------------------------------------------------------------------------
-- Walks
-- ---------------------------------------------------------------------------

/-- The addresses of a GEP: `count` of them, `step` apart. -/
structure GepWalk where
  start : Nat
  step : Int
  constant : Bool
  mutable : Bool
  count : Nat

namespace GepWalk

def chunk (w : GepWalk) : Chunk := ⟨w.start, word64 w.step, w.constant, w.mutable⟩

def addr (w : GepWalk) (k : Nat) : Int := w.start + k * w.step

/-- Over live objects from `x` on, each entered at its start. -/
structure Remote (h : Heap) (w : GepWalk) (x : Nat) : Prop where
  start : w.start = startAddr + x
  walk : RemoteWalk x w.step w.count
  live : ∀ k < w.count, h.Current (objectOf (x + k * w.step))
  enters : ∀ k, k + 1 < w.count → EntersAtStart objSize w.step (x + k * w.step)

structure Fine (h : Heap) (w : GepWalk) : Prop where
  signed : Signed64 w.step
  constant : w.constant = true → w.step = 0
  some : 0 < w.count
  place : (∃ x, w.Remote h x) ∨ LocalWalk w.start w.step w.count

end GepWalk

structure Walker where
  walk : GepWalk
  iteration : Nat
  phis : Phis
  before : Loops

structure Walks where
  nest : Nest
  /-- By loop id. -/
  walkers : Nat → Walker

inductive WalkOp where
  /-- The outer header for one pointer. -/
  | header (walk : GepWalk)
  /-- A back edge, for one pointer. -/
  | back (loopId : Nat)
  | plain (op : LoopOp)

def Walks.step (m : Manager) (s : Walks) : WalkOp → Outcome Walks
  | .header walk => do
    let (_, phis) ← walk.chunk.outerHeader m s.nest.loops
    let nest ← s.nest.step m (.init walk.start walk.chunk.stepArg)
    let nest ← nest.step m (.deref walk.mutable phis.loopId)
    return ⟨nest, Function.update s.walkers phis.loopId ⟨walk, 0, phis, s.nest.loops⟩⟩
  | .back loopId =>
    let a := s.walkers loopId
    let phis := (a.walk.chunk.backEdge m s.nest.loops a.phis).2
    (if a.phis.bound ≤ a.walk.chunk.increment a.phis then
        s.nest.step m (.deref a.walk.mutable loopId)
      else .ok s.nest).map fun nest =>
      ⟨nest, Function.update s.walkers loopId { a with iteration := a.iteration + 1, phis }⟩
  | .plain op => (s.nest.step m op).map fun nest => { s with nest }

/-- What else runs keeps the heap coherent, live objects live, and marked ones where
they are: guards and the evacuator do. -/
structure Stays (m : Manager) (h h' : Heap) : Prop where
  coherent : Coherent m h'
  current : ∀ i, h.Current i → h'.Current i
  pinned : ∀ i base, h.Current i → h.Located i base → m.regionOf base ∈ h.marks →
    h'.Located i base

/-- The calls of pointers come from headers and back edges only. -/
def Plain (m : Manager) (s : Nest) : LoopOp → Prop
  | .init .. | .deref .. => False
  | .other heap => Stays m s.loops.heap heap
  | _ => True

/-- Loops nest properly, with room in the table, and no walk is longer than its
count. -/
def Walks.Allowed (m : Manager) (s : Walks) : WalkOp → Prop
  | .header walk =>
    s.nest.Nested (.init walk.start walk.chunk.stepArg) ∧
      s.nest.Fits (.init walk.start walk.chunk.stepArg) ∧ walk.Fine s.nest.loops.heap
  | .back loopId =>
    s.nest.Nested (.deref (s.walkers loopId).walk.mutable loopId) ∧
      (s.walkers loopId).iteration + 1 < (s.walkers loopId).walk.count
  | .plain op => s.nest.Nested op ∧ Plain m s.nest op

/-- The states a run gets to from an empty table and no marks. -/
inductive WalksReach (m : Manager) : Walks → Prop
  | init {heap : Heap} (behind walkers) : Coherent m heap → heap.marks = [] →
    WalksReach m ⟨⟨initLoops heap behind, []⟩, walkers⟩
  | next {s s' : Walks} (op : WalkOp) :
    WalksReach m s → s.Allowed m op → s.step m op = .ok s' → WalksReach m s'

-- ---------------------------------------------------------------------------
-- What the calls do to the heap
-- ---------------------------------------------------------------------------

variable {m : Manager} {s s' : Loops} {h h' : Heap} {w : GepWalk} {b : Bool} {a : Walker} {φ : Phis}
  {x i : Nat}

theorem Stays.refl (hc : Coherent m h) : Stays m h h := ⟨hc, fun _ => id, fun _ _ _ hl _ => hl⟩

theorem stays_marks (hc : Coherent m h) (ms : List Nat) : Stays m h { h with marks := ms } where
  coherent := Heap.marks_coherent hc
  current _ := Heap.marks_current.mpr
  pinned _ _ _ hl _ := hl

theorem stays_deref (hc : Coherent m s.heap)
    (hi : (s.loopstate i).carmPtr = true → s.heap.Current (s.loopstate i).objIndex) :
    Stays m s.heap (carmDerefLoop m b s i).1.heap := by
  cases hcarm : (s.loopstate i).carmPtr with
  | true =>
    obtain ⟨ms, hd⟩ := fetched_derefs (w := b) hc rfl (hi hcarm)
    rw [carmDerefLoop_remote hcarm]
    exact {
      coherent := Heap.marks_coherent hd.keeps.coherent
      current := fun k hk =>
        Heap.marks_current.mpr (hd.keeps.current k (Heap.marks_current.mpr hk))
      pinned := fun k _ hk hl _ => hd.steady.located (Heap.marks_current.mpr hk) hl }
  | false =>
    rw [carmDerefLoop_local hcarm]
    exact .refl hc

theorem stays_guard (hd : Heap.Derefs m h h' i b base) : Stays m h h' :=
  ⟨hd.keeps.coherent, hd.keeps.current, fun _ _ hk hl _ => hd.steady.located hk hl⟩

theorem stays_evacuate (hc : Coherent m h) (ho : o < h.objCount)
    (hfree : m.regionOf (h.objs o).addr ∉ h.marks) : Stays m h (h.evacuate m o) := by
  have hb : Between m 0 (initLoops h fun _ => .cleared) _ := between_evacuate hc ho hfree
  exact ⟨hb.coherent, hb.current, hb.pinned⟩

theorem stays_invalidate (hc : Coherent m s.heap) :
    Stays m s.heap (invalidateLoopIndex s i).heap := by
  rw [invalidateLoopIndex]
  split
  · dsimp only
    split
    · obtain ⟨ms, hinv⟩ := Heap.invalidateMarkedRegion_eq (h := s.heap)
        (r := (s.loopstate i).regionAddr)
      rw [hinv]
      exact stays_marks hc ms
    · exact .refl hc
  · exact .refl hc

theorem Tracks.asks {g : Chunk} {φ : Phis} {d : Int} {x : Nat} (hstep : g.step = word64 d)
    (hconst : g.constant = true → d = 0) (hd : d < 2 ^ 63) (ht : Tracks m g x s φ p)
    (hp : InSpace p) (hq : InSpace (p + d)) (he : EntersAtStart objSize d p)
    (hover : φ.bound ≤ g.increment φ) : (s.loopstate φ.loopId).objIndex = objectOf (p + d) := by
  by_cases hsame : (p + d) / objSize = p / objSize
  · have hs : (objSize : Int) = 4096 := rfl
    rw [hs] at hsame
    have hbelow := ht.below (d := d) (by rw [hs]; omega)
    have hpast := (ht.bound_le_iff hstep hconst hd hbelow).mp hover
    rw [hs] at hpast
    omega
  · exact ht.objIndex_next hstep hconst hd hp hq he hsame

theorem stays_header (hc : Coherent m s.heap) (hid : s.loopIdCnt < maxLoops) (hf : w.Fine s.heap)
    (h : w.chunk.outerHeader m s = .ok (s', φ)) : Stays m s.heap s'.heap := by
  obtain ⟨-, s₁, rfl, -, -, hheap, hslot⟩ := Chunk.outerHeader_ok hid h
  rw [← hheap] at hc ⊢
  refine stays_deref hc fun hcarm => ?_
  rcases hf.place with ⟨x, hr⟩ | hl
  · have hlive := hr.live 0 hf.some
    have hx : x < 2 ^ 60 := by
      have hend : ((totalObjects * objSize : Nat) : Int) = 41943040 * 4096 := rfl
      have := (hr.walk.start hf.some).2
      omega
    rw [Nat.cast_zero, Int.zero_mul, Int.add_zero] at hlive
    have hstart : w.chunk.start = startAddr + x := hr.start
    rw [hslot, hstart, opened_remote hx, hheap]
    exact hlive
  · have hstart : w.chunk.start < 2 ^ 60 := by
      have := (hl 0 hf.some).2
      rw [Nat.cast_zero, Int.zero_mul, Int.add_zero] at this
      show w.start < 2 ^ 60
      omega
    rw [hslot, opened_local hstart] at hcarm
    cases hcarm

-- ---------------------------------------------------------------------------
-- One pointer
-- ---------------------------------------------------------------------------

/-- So far the pointer has gone as in a run of its loop alone. -/
structure Underway (m : Manager) (s : Loops) (i : Nat) (a : Walker) : Prop where
  loopId : a.phis.loopId = i
  room : a.before.loopIdCnt < maxLoops
  coherent : Coherent m a.before.heap
  fine : a.walk.Fine a.before.heap
  within : a.iteration < a.walk.count
  runs : Chunk.Iteration m a.walk.chunk (Between m) a.before a.iteration s a.phis

namespace Underway

theorem tracks (hu : Underway m s i a) (hr : a.walk.Remote a.before.heap x) :
    Tracks m a.walk.chunk x s a.phis (x + a.iteration * a.walk.step) ∧
      ∀ k, a.before.heap.Current k → s.heap.Current k := by
  have hchunk : a.walk.chunk =
      ⟨startAddr + x, word64 a.walk.step, a.walk.constant, a.walk.mutable⟩ := by
    rw [GepWalk.chunk, hr.start]
  have hruns := hu.runs
  have hin := hu.within
  rw [hchunk] at hruns ⊢
  exact chunked_walk hu.fine.signed hu.room hu.coherent hu.fine.constant hr.walk hr.live hin
    (fun k hk => hr.enters k (by omega)) hruns

theorem on_original (hu : Underway m s i a)
    (hl : LocalWalk a.walk.start a.walk.step a.walk.count) :
    OnOriginal a.walk.start a.walk.step a.iteration a.phis ∧
      a.phis.bound = a.walk.start + (objSize + (512 <<< 40)) :=
  local_iteration hu.room hl hu.within hu.fine.constant hu.runs

theorem stays_back (hu : Underway m s i a) (hc : Coherent m s.heap)
    (hmore : a.iteration + 1 < a.walk.count)
    (hover : a.phis.bound ≤ a.walk.chunk.increment a.phis) :
    Stays m s.heap (carmDerefLoop m a.walk.mutable s i).1.heap := by
  have hfine := hu.fine
  rcases hfine.place with ⟨x, hr⟩ | hl
  · obtain ⟨ht, hkeep⟩ := hu.tracks hr
    have hnext := hr.walk _ hmore
    have hlive := hkeep _ (hr.live _ hmore)
    rw [Lib.next_position] at hnext hlive
    refine stays_deref hc fun _ => ?_
    rw [← hu.loopId, ht.asks rfl hfine.constant hfine.signed.2 (hr.walk _ hu.within) hnext
      (hr.enters _ hmore) hover]
    exact hlive
  · -- a local pointer does not reach its bound
    exfalso
    obtain ⟨hon, hbound⟩ := hu.on_original hl
    obtain ⟨hlo, hhi⟩ := hl _ hmore
    rw [Lib.next_position, ← hon.pointer] at hlo hhi
    have hinc := Chunk.increment_eq (g := a.walk.chunk) rfl hfine.constant hlo (by omega)
    have hs : objSize + (512 <<< 40) = 4096 + 2 ^ 49 := rfl
    omega

/-- What another call leaves of this pointer's slot and mark is in the tables before
and after it. -/
theorem goes_on (hu : Underway m s i a) (ht : Table m s ps) (ht' : Table m s' ps')
    (hp : p ∈ active ps) (hp' : p ∈ active ps') (hi : p.id = i) (hs : Stays m s.heap s'.heap) :
    Underway m s' i a := by
  have hown := ht.own p hp
  have hid : a.phis.loopId = p.id := hu.loopId.trans hi.symm
  refine { hu with runs := .body hu.runs ⟨hs.coherent, hs.current, hs.pinned, ?_, ?_⟩ }
  · rw [hid, hown.left, (ht'.own p hp').left]
  · rw [hid, hown.left, hown.regionAddr]
    intro hmark
    cases hr : p.region m with
    | none =>
      rw [hr] at hmark
      exact absurd hmark ht.marks_ne_zero
    | some r => exact ht'.marks.mem_iff.mpr (List.mem_filterMap.mpr ⟨p, hp', hr⟩)

end Underway

-- ---------------------------------------------------------------------------
-- Steps of the nest
-- ---------------------------------------------------------------------------

theorem Nest.mem_modify {s : Nest} {g : Pointer → Pointer} {q : Pointer}
    (hq : q ∈ (s.top l (Frame.modify · i g)).pointers) :
    (∃ p, p.id = i ∧ q = g p) ∨ q ∈ s.pointers := by
  obtain ⟨loops, frames⟩ := s
  cases frames with
  | nil => exact .inr hq
  | cons f r =>
    rcases List.mem_append.mp hq with hq | hq
    · obtain ⟨p, hp, rfl⟩ := List.mem_map.mp hq
      by_cases hid : p.id = i
      · exact .inl ⟨p, hid, if_pos hid⟩
      · rw [if_neg hid]
        exact .inr (List.mem_append_left _ hp)
    · exact .inr (List.mem_append_right _ hq)

/-- A dereference brings no other pointer into use. -/
theorem Nest.active_derefd {s : Nest} {l l' : Loops} {q : Pointer}
    (hq : q ∈ active (s.top l (Frame.modify · i (·.derefd l' l))).pointers) :
    q.id = i ∨ q ∈ active s.pointers := by
  obtain ⟨hq, hrel⟩ := mem_active.mp hq
  rcases Nest.mem_modify hq with ⟨p, hid, rfl⟩ | hq
  · exact .inl hid
  · exact .inr (mem_active.mpr ⟨hq, hrel⟩)

theorem Plain.step {s s' : Nest} {op : LoopOp} (hc : Coherent m s.loops.heap) (hp : Plain m s op)
    (h : s.step m op = .ok s') :
    Stays m s.loops.heap s'.loops.heap ∧ ∀ q ∈ active s'.pointers, q ∈ active s.pointers := by
  have hphase : ∀ phase, (s.top s.loops fun f => { f with phase }).pointers = s.pointers := by
    intro phase
    obtain ⟨loops, frames⟩ := s
    cases frames <;> rfl
  cases op with
  | enter =>
    cases h
    exact ⟨.refl hc, fun _ => id⟩
  | init srcAddr d => exact hp.elim
  | start =>
    cases h
    rw [hphase]
    exact ⟨.refl hc, fun _ => id⟩
  | deref b i => exact hp.elim
  | exit =>
    cases h
    rw [hphase]
    exact ⟨.refl hc, fun _ => id⟩
  | invalidate i =>
    cases h
    refine ⟨stays_invalidate hc, fun q hq => ?_⟩
    obtain ⟨hq, hrel⟩ := mem_active.mp hq
    rcases Nest.mem_modify hq with ⟨p, -, rfl⟩ | hq
    · cases hrel
    · exact mem_active.mpr ⟨hq, hrel⟩
  | leave =>
    cases h
    refine ⟨.refl hc, fun q hq => ?_⟩
    obtain ⟨hq, hrel⟩ := mem_active.mp hq
    obtain ⟨loops, frames⟩ := s
    cases frames with
    | nil => cases hq
    | cons f r => exact mem_active.mpr ⟨List.mem_append_right _ hq, hrel⟩
  | other heap =>
    cases h
    exact ⟨hp, fun _ => id⟩

theorem header_nest {s n : Nest} (hinit : s.step m (.init w.start w.chunk.stepArg) = .ok n) :
    ∃ l φ, w.chunk.outerHeader m s.loops = .ok (l, φ) ∧
      n.step m (.deref w.mutable φ.loopId) =
        .ok (n.top l (Frame.modify · φ.loopId (·.derefd n.loops l))) ∧
      (∀ f ∈ s.frames.head?, f.phase = .entering → n.Nested (.deref w.mutable φ.loopId)) ∧
      ∀ q ∈ n.pointers, q.id = φ.loopId ∨ q ∈ s.pointers := by
  obtain ⟨⟨l₁, r⟩, hopen, hn⟩ := bind_ok.mp hinit
  cases hn
  have hcall : w.chunk.derefCall m l₁ (r >>> loopIdPos) =
      carmDerefLoop m w.mutable l₁ (r >>> loopIdPos) := Chunk.derefCall_eq
  refine ⟨_, ⟨r >>> loopIdPos, (carmDerefLoop m w.mutable l₁ (r >>> loopIdPos)).2,
    u64 ((carmDerefLoop m w.mutable l₁ (r >>> loopIdPos)).2 + (r &&& loopObjMask)), 1⟩,
    ?_, rfl, ?_, ?_⟩
  · rw [Chunk.outerHeader]
    refine bind_ok.mpr ⟨(l₁, r), hopen, ?_⟩
    dsimp only
    rw [hcall]
    rfl
  · intro f hf hphase
    obtain ⟨frames, hframes⟩ := List.head?_eq_some_iff.mp hf
    refine ⟨{ f with pointers := ⟨r >>> loopIdPos, l₁.loopstate (r >>> loopIdPos), none, false⟩ ::
      f.pointers }, ?_, ?_, List.mem_cons_self ..⟩
    · rw [Nest.top, hframes]
      rfl
    · dsimp only
      rw [hphase]
      decide
  · intro q hq
    obtain ⟨loops, frames⟩ := s
    cases frames with
    | nil => cases hq
    | cons f fs =>
      rcases List.mem_cons.mp hq with rfl | hq
      · exact .inl rfl
      · exact .inr hq

-- ---------------------------------------------------------------------------
-- Runs
-- ---------------------------------------------------------------------------

structure Walking (m : Manager) (s : Walks) : Prop where
  ordered : Ordered m s.nest
  coherent : Coherent m s.nest.loops.heap
  underway : ∀ p ∈ active s.nest.pointers, Underway m s.nest.loops p.id (s.walkers p.id)

theorem Walking.rest {s : Walks} {n : Nest} (hs : Walking m s) (ho : Ordered m n)
    (hstays : Stays m s.nest.loops.heap n.loops.heap) (hu : Underway m n.loops i a)
    (hq : ∀ q ∈ active n.pointers, q.id = i ∨ q ∈ active s.nest.pointers) :
    Walking m ⟨n, Function.update s.walkers i a⟩ where
  ordered := ho
  coherent := hstays.coherent
  underway q hm := by
    dsimp only
    by_cases hid : q.id = i
    · rw [hid, Function.update_self]
      exact hu
    · have hold := (hq q hm).resolve_left hid
      rw [Function.update_of_ne hid]
      exact (hs.underway q hold).goes_on hs.ordered.table ho.table hold hm rfl hstays

theorem Walking.plain {s : Walks} {op : LoopOp} (hs : Walking m s) (hn : s.nest.Nested op)
    (hp : Plain m s.nest op) :
    ∃ n, s.nest.step m op = .ok n ∧ Walking m { s with nest := n } := by
  have hfit : s.nest.Fits op := by
    cases op <;> first | exact trivial | exact hp.elim
  obtain ⟨n, hstep, ho⟩ := hs.ordered.step hn hfit
  obtain ⟨hstays, hactive⟩ := hp.step hs.coherent hstep
  exact ⟨n, hstep, ho, hstays.coherent, fun q hq =>
    (hs.underway q (hactive q hq)).goes_on hs.ordered.table ho.table (hactive q hq) hq rfl hstays⟩

theorem backEdge_loops {g : Chunk} : (g.backEdge m s φ).1 =
    if φ.bound ≤ g.increment φ then (carmDerefLoop m g.mutable s φ.loopId).1 else s := by
  rw [Chunk.backEdge]
  split
  · rw [Chunk.derefCall_eq]
  · rfl

theorem Underway.back (hu : Underway m s i a) (hmore : a.iteration + 1 < a.walk.count) :
    Underway m (a.walk.chunk.backEdge m s a.phis).1 i
      { a with iteration := a.iteration + 1, phis := (a.walk.chunk.backEdge m s a.phis).2 } :=
  { hu with
    loopId := Chunk.backEdge_loopId.trans hu.loopId
    within := hmore
    runs := .next hu.runs }

theorem Walking.header {s : Walks} (hs : Walking m s) (hok : s.Allowed m (.header w)) :
    ∃ s', s.step m (.header w) = .ok s' ∧ Walking m s' := by
  obtain ⟨hn, hfit, hfine⟩ := hok
  have hroom : s.nest.loops.loopIdCnt < maxLoops := hs.ordered.table.count ▸ hfit
  obtain ⟨n, hinit, ho⟩ := hs.ordered.step (m := m) hn hfit
  obtain ⟨l, φ, hheader, hderef, hnested, hptr⟩ := header_nest hinit
  obtain ⟨f, hf, hphase⟩ := hn
  obtain ⟨n₂, hstep, ho₂⟩ := ho.step (hnested f hf hphase) trivial
  obtain rfl := Except.ok.inj (hderef.symm.trans hstep)
  have hu : Underway m l φ.loopId ⟨w, 0, φ, s.nest.loops⟩ :=
    ⟨rfl, hroom, hs.coherent, hfine, hfine.some, .enter hheader⟩
  refine ⟨_, ?_, hs.rest ho₂ (stays_header hs.coherent hroom hfine hheader) hu fun q hq => ?_⟩
  · rw [Walks.step]
    refine bind_ok.mpr ⟨_, hheader, bind_ok.mpr ⟨_, hinit, bind_ok.mpr ⟨_, hderef, rfl⟩⟩⟩
  · rcases Nest.active_derefd hq with hid | hq
    · exact .inl hid
    · obtain ⟨hq, hrel⟩ := mem_active.mp hq
      exact (hptr q hq).imp id fun hq => mem_active.mpr ⟨hq, hrel⟩

theorem Walking.own {s : Walks} (hs : Walking m s) (hn : s.nest.Nested (.deref b i)) :
    Underway m s.nest.loops i (s.walkers i) := by
  obtain ⟨f, hf, hphase, hid⟩ := hn
  obtain ⟨frames, hframes⟩ := List.head?_eq_some_iff.mp hf
  obtain ⟨p, hp, rfl⟩ := List.mem_map.mp hid
  have hin : f ∈ s.nest.frames := hframes ▸ List.mem_cons_self
  refine hs.underway p (mem_active.mpr ⟨List.mem_flatMap.mpr ⟨f, hin, hp⟩, ?_⟩)
  exact hs.ordered.stacked.kept f hin hphase p hp

theorem Walking.back {s : Walks} (hs : Walking m s) (hok : s.Allowed m (.back i)) :
    ∃ s', s.step m (.back i) = .ok s' ∧ Walking m s' := by
  obtain ⟨hn, hmore⟩ := hok
  have hu := hs.own hn
  have hback := hu.back hmore
  have hloops := backEdge_loops (m := m) (s := s.nest.loops) (φ := (s.walkers i).phis)
    (g := (s.walkers i).walk.chunk)
  by_cases hover : (s.walkers i).phis.bound ≤ (s.walkers i).walk.chunk.increment (s.walkers i).phis
  · rw [if_pos hover, hu.loopId] at hloops
    obtain ⟨n, hstep, ho⟩ := hs.ordered.step hn trivial
    have hn : n = s.nest.top (carmDerefLoop m (s.walkers i).walk.mutable s.nest.loops i).1
        (Frame.modify · i (·.derefd s.nest.loops
          (carmDerefLoop m (s.walkers i).walk.mutable s.nest.loops i).1)) :=
      (Except.ok.inj hstep).symm
    have hsame : n.loops = (carmDerefLoop m (s.walkers i).walk.mutable s.nest.loops i).1 :=
      congrArg Nest.loops hn
    refine ⟨_, by rw [Walks.step, if_pos hover, hstep]; rfl, hs.rest ho
      (hsame ▸ hu.stays_back hs.coherent hmore hover) (hsame.trans hloops.symm ▸ hback)
      fun q hq => ?_⟩
    rw [hn] at hq
    exact Nest.active_derefd hq
  · rw [if_neg hover] at hloops
    refine ⟨_, ?_, hs.rest hs.ordered (.refl hs.coherent) (hloops ▸ hback) fun q => .inr⟩
    rw [Walks.step, if_neg hover]
    rfl

theorem Walking.step {s : Walks} {op : WalkOp} (hs : Walking m s) (hok : s.Allowed m op) :
    ∃ s', s.step m op = .ok s' ∧ Walking m s' := by
  cases op with
  | header walk => exact hs.header hok
  | back i => exact hs.back hok
  | plain op =>
    obtain ⟨n, hstep, hn⟩ := hs.plain hok.1 hok.2
    exact ⟨_, by rw [Walks.step, hstep]; rfl, hn⟩

theorem WalksReach.walking {s : Walks} (hr : WalksReach m s) : Walking m s := by
  induction hr with
  | init behind walkers hc hm => exact ⟨⟨⟨nofun, nofun⟩, .init hm⟩, hc, nofun⟩
  | next op _ hok hstep ih =>
    obtain ⟨s', hs', hw⟩ := ih.step hok
    rw [hs'] at hstep
    cases hstep
    exact hw

-- ---------------------------------------------------------------------------
-- What the pointers read
-- ---------------------------------------------------------------------------

theorem Right.reads {p : Int} {j : Nat} (hr : Right s φ p) (hp : InSpace p)
    (hj : p % objSize + j < objSize) :
    s.heap.mem (φ.pointer + j) = s.heap.view m (startAddr + (p.toNat + j)) := by
  obtain ⟨base, hl, hptr⟩ := hr
  obtain ⟨hlo, hhi⟩ := hp
  have hs : (objSize : Int) = 4096 := rfl
  have hend : ((totalObjects * objSize : Nat) : Int) = 41943040 * 4096 := rfl
  rw [hs] at hj hptr
  have hslot : (p.toNat + j) / objSize = objectOf p := by
    show (p.toNat + j) / 4096 = (p / 4096).toNat
    omega
  have hoff : (p.toNat + j) % objSize = p.toNat % objSize + j := by
    show (p.toNat + j) % 4096 = p.toNat % 4096 + j
    omega
  have haddr : φ.pointer + j = base + (p.toNat % objSize + j) := by
    show φ.pointer + j = base + (p.toNat % 4096 + j)
    omega
  rw [Heap.view_start (by omega), hslot, hoff, Heap.Located.byteAt hl, haddr]

/-- The bytes at the pointer, to the end of its object, are those at the address of
the iteration. -/
def ReadsOn (m : Manager) (s : Loops) (a : Walker) : Prop :=
  ∀ j : Nat, a.walk.addr a.iteration % objSize + j < objSize →
    s.heap.mem (a.phis.pointer + j) = s.heap.view m ((a.walk.addr a.iteration).toNat + j)

theorem Underway.reads (hu : Underway m s i a) : ReadsOn m s a := by
  intro j hj
  have hs : (objSize : Int) = 4096 := rfl
  rw [hs] at hj
  rcases hu.fine.place with ⟨x, hr⟩ | hl
  · have hin := hr.walk _ hu.within
    have haddr : a.walk.addr a.iteration = (startAddr : Nat) + (x + a.iteration * a.walk.step) := by
      rw [GepWalk.addr, hr.start]
      push_cast
      rw [Int.add_assoc]
    have hstart : ((startAddr : Nat) : Int) = 2 ^ 60 := rfl
    have hnat : (a.walk.addr a.iteration).toNat + j =
        startAddr + ((x + a.iteration * a.walk.step).toNat + j) := by
      have := hin.1
      omega
    rw [hnat]
    refine (hu.tracks hr).1.right.reads hin ?_
    rw [hs]
    omega
  · obtain ⟨hon, -⟩ := hu.on_original hl
    obtain ⟨hlo, hhi⟩ := hl _ hu.within
    have haddr : a.walk.addr a.iteration = a.phis.pointer := hon.pointer.symm
    rw [← hon.pointer] at hhi
    rw [haddr, Int.toNat_natCast, Heap.view_untagged (by omega)]

/-- However loops nest, no call fails, and every pointer in use reads on. -/
theorem nested_walks {s : Walks} (hr : WalksReach m s) :
    (∀ op, s.Allowed m op → ∃ s', s.step m op = .ok s') ∧
      ∀ p ∈ active s.nest.pointers, ReadsOn m s.nest.loops (s.walkers p.id) := by
  have hs := hr.walking
  refine ⟨fun op hok => ?_, fun p hp => (hs.underway p hp).reads⟩
  obtain ⟨s', hstep, -⟩ := hs.step hok
  exact ⟨s', hstep⟩

def farWalk : GepWalk := ⟨startAddr + 0, 8, false, false, 3⟩

def nearWalk : GepWalk := ⟨100, 8, false, true, 2⟩

theorem farWalk_fine : farWalk.Fine (init (fun _ => none) fun _ => 0).heap where
  signed := ⟨by decide, by decide⟩
  constant := nofun
  some := by decide
  place := by
    have hstep : farWalk.step = 8 := rfl
    have hcount : farWalk.count = 3 := rfl
    have hend : ((totalObjects * objSize : Nat) : Int) = 41943040 * 4096 := rfl
    have hs : (objSize : Int) = 4096 := rfl
    refine .inl ⟨0, rfl, fun k hk => ?_, fun k hk => ?_, fun k hk => ?_⟩
    · rw [InSpace, hstep]
      omega
    · have hobj : objectOf ((0 : Nat) + k * farWalk.step) = 0 / objSize := by
        show ((0 + (k : Int) * 8) / 4096).toNat = 0
        omega
      rw [hobj]
      exact Heap.init_current (by decide)
    · rw [hstep]
      intro hne
      rw [hs] at hne
      omega

def farHeap : Heap := (init (fun _ => none) fun _ => 0).heap

def noWalks : Walks where
  nest := ⟨initLoops farHeap fun _ => .cleared, []⟩
  walkers _ := ⟨farWalk, 0, ⟨0, 0, 0, 0⟩, initLoops farHeap fun _ => .cleared⟩

theorem nearWalk_fine : nearWalk.Fine h where
  signed := ⟨by decide, by decide⟩
  constant := nofun
  some := by decide
  place := by
    refine .inr fun k hk => ?_
    have hcount : nearWalk.count = 2 := rfl
    show 0 ≤ ((100 : Nat) : Int) + k * 8 ∧ ((100 : Nat) : Int) + k * 8 < 2 ^ 47
    omega

theorem nested_walks_two : ∃ s, WalksReach cacheManager s ∧
    (active s.nest.pointers).map Pointer.id = [1, 0] ∧
    ∀ p ∈ active s.nest.pointers, ReadsOn cacheManager s.nest.loops (s.walkers p.id) := by
  have hr : WalksReach cacheManager _ :=
    .next (.header farWalk) (.next (.plain .enter) (.next (.back 0) (.next (.plain .start)
      (.next (.header nearWalk) (.next (.plain .enter)
        (@WalksReach.init _ farHeap (fun _ => .cleared) noWalks.walkers init_coherent rfl)
        ⟨nofun, trivial⟩ rfl) ⟨⟨_, rfl, rfl⟩, (by decide : 0 < maxLoops), nearWalk_fine⟩ rfl)
      ⟨⟨_, rfl, rfl⟩, trivial⟩ rfl) ⟨⟨_, rfl, nofun, List.mem_cons_self ..⟩, by decide⟩ rfl)
      ⟨fun _ h => by cases h; rfl, trivial⟩ rfl)
      ⟨⟨_, rfl, rfl⟩, (by decide : 1 < maxLoops), farWalk_fine⟩ rfl
  exact ⟨_, hr, rfl, (nested_walks hr).2⟩

end TrackFM
