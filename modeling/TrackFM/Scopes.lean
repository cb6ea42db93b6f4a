import TrackFM.Memcmp
import TrackFM.Cache

/-!
# Raw pointers and the scope that protects them

The remote to remote loops of `carm_memcpy` and `carm_memcmp` hold two raw
pointers at a time. A slow dereference closes the open scope, so the second one
can end the protection of the first. `scopes_held_iff` says for which contents
of `carm_obj_state` it never does.
-/

namespace TrackFM

open Heap (ptrDeref carmDerefObj objectFor carmMemcpyLoop carmMemcmpLoop memcmp)

variable {m : Manager} {h h' h₀ : Heap} {p q : CarmPtr} {W : Nat → Nat}

-- ---------------------------------------------------------------------------
-- One dereference
-- ---------------------------------------------------------------------------

abbrev Fast (W : Nat → Nat) (p : CarmPtr) : Prop := W p.objIndex &&& exceptions p.mutable = 0

namespace Heap

theorem ptrDeref_fast (hf : Fast h.carmObjState p) : (ptrDeref m h p).1 = h := by
  simp [ptrDeref, hf]

theorem ptrDeref_slow (hs : ¬Fast h.carmObjState p) :
    (ptrDeref m h p).1 = (carmDerefObj m h.carmDeref p.mutable p.objIndex 0).1 := by
  simp only [ptrDeref]
  rw [if_pos hs]
  cases p.mutable <;> rfl

theorem objectFor_scope : (objectFor m h i).1.carmObjState = h.carmObjState ∧
    (objectFor m h i).1.inScope = h.inScope ∧ (objectFor m h i).1.scopeExits = h.scopeExits := by
  unfold objectFor
  split <;> exact ⟨rfl, rfl, rfl⟩

theorem carmAddPrefetchTrace_scope : (h.carmAddPrefetchTrace i f).carmObjState = h.carmObjState ∧
    (h.carmAddPrefetchTrace i f).inScope = h.inScope ∧
    (h.carmAddPrefetchTrace i f).scopeExits = h.scopeExits := by
  unfold carmAddPrefetchTrace
  split <;> exact ⟨rfl, rfl, rfl⟩

def publishedWord (m : Manager) (h : Heap) (w : Bool) (i : Nat) : Nat :=
  m.derefWord (objectFor m h i).1.objs (objectFor m h i).1.objCount (objectFor m h i).2 w

theorem carmDerefObj_scope :
    (carmDerefObj m h w i pf).1.carmObjState =
      Function.update h.carmObjState i (publishedWord m h w i) ∧
    (carmDerefObj m h w i pf).1.inScope = h.inScope ∧
    (carmDerefObj m h w i pf).1.scopeExits = h.scopeExits := by
  obtain ⟨h₁, h₂, h₃⟩ := objectFor_scope (m := m) (h := h) (i := i)
  rw [publishedWord, ← h₁, ← h₂, ← h₃]
  unfold carmDerefObj
  generalize objectFor m h i = r
  obtain ⟨g₁, g₂, g₃⟩ := carmAddPrefetchTrace_scope
    (h := (r.1.deref m r.2 w).publish i r.2) (i := i) (f := pf)
  simp only
  rw [g₁, g₂, g₃]
  simp [publish, deref]

theorem ptrDeref_slow_scope (hs : ¬Fast h.carmObjState p) :
    (ptrDeref m h p).1.carmObjState =
      Function.update h.carmObjState p.objIndex (publishedWord m h.carmDeref p.mutable p.objIndex) ∧
    (ptrDeref m h p).1.inScope = true ∧
    (ptrDeref m h p).1.scopeExits = if h.inScope then h.scopeExits + 1 else h.scopeExits := by
  rw [ptrDeref_slow hs]
  exact carmDerefObj_scope

theorem ptrDeref_other (hi : i ≠ p.objIndex) :
    (ptrDeref m h p).1.carmObjState i = h.carmObjState i := by
  by_cases hf : Fast h.carmObjState p
  · rw [ptrDeref_fast hf]
  · rw [(ptrDeref_slow_scope hf).1, Function.update_of_ne hi]

end Heap

/-- No scope is closed between the dereference of `p` and the use of both pointers. -/
def Held (m : Manager) (h : Heap) (p q : CarmPtr) : Prop :=
  (ptrDeref m (ptrDeref m h p).1 q).1.scopeExits = (ptrDeref m h p).1.scopeExits

-- ---------------------------------------------------------------------------
-- The remote to remote loops
-- ---------------------------------------------------------------------------

/-- The two operands of a loop, by the bytes already done. -/
structure Operands where
  dst : Nat → CarmPtr
  src : Nat → CarmPtr
  src_read : ∀ b, (src b).mutable = false

theorem getCarmPtr_read : (getCarmPtr a false).mutable = false := by
  rw [getCarmPtr]
  split <;> rfl

def memcpyOperands (dst src : Nat) : Operands where
  dst b := getCarmPtr (dst + b) true
  src b := getCarmPtr (src + b) false
  src_read _ := getCarmPtr_read

def memcmpOperands (dst src : Nat) : Operands where
  dst b := getCarmPtr (dst + b) false
  src b := getCarmPtr (src + b) false
  src_read _ := getCarmPtr_read

@[simp] theorem memcmpOperands_dst : (memcmpOperands d s).dst b = getCarmPtr (d + b) false := rfl

@[simp] theorem memcmpOperands_src : (memcmpOperands d s).src b = getCarmPtr (s + b) false := rfl

namespace Operands

variable {o : Operands} {use : Heap → Nat → Nat → Nat → Heap → Prop}

def chunk (o : Operands) (b : Nat) : Nat := min (objSize - (o.dst b).offset) (objSize - (o.src b).offset)

def start (o : Operands) : Nat → Nat
  | 0 => 0
  | k + 1 => u32 (o.start k + o.chunk (o.start k))

abbrev Reaches (o : Operands) (size k : Nat) : Prop := ∀ i ≤ k, o.start i < size

/-- The heap at the start of iteration `k`; `use` is what is done with the two
pointers before the loop goes on. -/
inductive Iteration (m : Manager) (o : Operands) (size : Nat)
    (use : Heap → Nat → Nat → Nat → Heap → Prop) (h₀ : Heap) : Nat → Heap → Prop
  | enter : 0 < size → Iteration m o size use h₀ 0 h₀
  | next : Iteration m o size use h₀ k g → o.start (k + 1) < size →
    use (ptrDeref m (ptrDeref m g (o.dst (o.start k))).1 (o.src (o.start k))).1
      (ptrDeref m g (o.dst (o.start k))).2
      (ptrDeref m (ptrDeref m g (o.dst (o.start k))).1 (o.src (o.start k))).2
      (o.chunk (o.start k)) g' → Iteration m o size use h₀ (k + 1) g'

theorem Iteration.reaches (hit : Iteration m o size use h₀ k h) : o.Reaches size k := by
  induction hit with
  | enter hpos =>
    intro i hi
    cases Nat.le_zero.mp hi
    exact hpos
  | next _ hlt _ ih =>
    intro i hi
    rcases Nat.le_succ_iff.mp hi with hi | rfl
    · exact ih i hi
    · exact hlt

end Operands

def movesOn (h : Heap) (d s n : Nat) (h' : Heap) : Prop := h' = h.memmove d s n

/-- `memcmp`: the loop goes on while the chunks are equal. -/
def comparesOn (h : Heap) (d s n : Nat) (h' : Heap) : Prop := h.memcmp d s n = .eq ∧ h' = h

/-- The loop of `carm_memcpy` gets to the iterations of its operands. -/
theorem carmMemcpyLoop_iteration
    (hit : (memcpyOperands dst src).Iteration m size movesOn h₀ k h) :
    carmMemcpyLoop m dst src size (fuel + k) h₀ (getCarmPtr dst true) (getCarmPtr src false) 0 =
      carmMemcpyLoop m dst src size fuel h (getCarmPtr (dst + (memcpyOperands dst src).start k) true)
        (getCarmPtr (src + (memcpyOperands dst src).start k) false)
        ((memcpyOperands dst src).start k) := by
  induction hit generalizing fuel with
  | enter _ => rfl
  | @next k h h' hit hlt huse ih =>
    rw [show fuel + (k + 1) = fuel + 1 + k by omega, ih]
    have hpos := hit.reaches k (Nat.le_refl k)
    have hchunk : ¬min (objSize - (getCarmPtr (dst + (memcpyOperands dst src).start k) true).offset)
        (objSize - (getCarmPtr (src + (memcpyOperands dst src).start k) false).offset) = 0 := by
      have h₁ := getCarmPtr_offset (a := dst + (memcpyOperands dst src).start k) (w := true)
      have h₂ := getCarmPtr_offset (a := src + (memcpyOperands dst src).start k) (w := false)
      omega
    rw [carmMemcpyLoop, if_pos hpos]
    simp only
    rw [if_neg hchunk]
    refine (if_pos hlt).trans ?_
    rw [huse]
    rfl

/-- ... and that of `carm_memcmp`. -/
theorem carmMemcmpLoop_iteration
    (hit : (memcmpOperands dst src).Iteration m size comparesOn h₀ k h) :
    carmMemcmpLoop m dst src size (fuel + k) h₀ 0 =
      carmMemcmpLoop m dst src size fuel h ((memcmpOperands dst src).start k) := by
  induction hit generalizing fuel with
  | enter _ => rfl
  | @next k h h' hit hlt huse ih =>
    rw [show fuel + (k + 1) = fuel + 1 + k by omega, ih]
    have hpos := hit.reaches k (Nat.le_refl k)
    obtain ⟨heq, rfl⟩ := huse
    simp only [Operands.start, Operands.chunk, memcmpOperands_dst, memcmpOperands_src]
      at heq hlt ⊢
    generalize (memcmpOperands dst src).start k = b at *
    have h₁ := getCarmPtr_offset (a := dst + b) (w := false)
    have h₂ := getCarmPtr_offset (a := src + b) (w := false)
    have hchunk : ¬min (objSize - (getCarmPtr (dst + b) false).offset)
        (objSize - (getCarmPtr (src + b) false).offset) = 0 := by omega
    rw [carmMemcmpLoop, if_pos hpos]
    simp only [if_neg hchunk]
    rw [if_pos hlt, heq]

-- ---------------------------------------------------------------------------
-- Tables for which no scope is closed
-- ---------------------------------------------------------------------------

abbrev Readable (word : Nat) : Prop := word &&& exceptions false = 0

/-- The words a dereference leaves let the access through: `__deref` tries again until they do. -/
def Admits (m : Manager) : Prop := ∀ objs n o w, m.derefWord objs n o w &&& exceptions w = 0

theorem readable_of_fast {w : Bool} (h : word &&& exceptions w = 0) : Readable word := by
  have hbits : exceptions w &&& exceptions false = exceptions false := by
    cases w <;> decide
  rw [Readable, ← hbits, ← Nat.and_assoc, h, Nat.zero_and]

theorem ptrDeref_readable (hm : Admits m) : Readable ((ptrDeref m h p).1.carmObjState p.objIndex) := by
  by_cases hf : Fast h.carmObjState p
  · rw [Heap.ptrDeref_fast hf]
    exact readable_of_fast hf
  · rw [(Heap.ptrDeref_slow_scope hf).1, Function.update_self]
    exact readable_of_fast (hm ..)

theorem ptrDeref_inScope (hs : h.inScope = true) : (ptrDeref m h p).1.inScope = true := by
  by_cases hf : Fast h.carmObjState p
  · rwa [Heap.ptrDeref_fast hf]
  · exact (Heap.ptrDeref_slow_scope hf).2.1

namespace Operands

variable {o : Operands} {use : Heap → Nat → Nat → Nat → Heap → Prop}

/-- In iteration `k` the source is in a slot of a destination so far, or its word
lets a read through. -/
def QuietAt (o : Operands) (W : Nat → Nat) (k : Nat) : Prop :=
  (∃ i ≤ k, (o.dst (o.start i)).objIndex = (o.src (o.start k)).objIndex) ∨
    Fast W (o.src (o.start k))

def Quiet (o : Operands) (size : Nat) (W : Nat → Nat) : Prop :=
  ∀ k, o.Reaches size k → o.QuietAt W k

/-- With this table no run, of any manager, closes a scope too early. -/
def Holds (o : Operands) (size : Nat) (use : Heap → Nat → Nat → Nat → Heap → Prop)
    (W : Nat → Nat) : Prop :=
  ∀ m h₀, Admits m → h₀.carmObjState = W → ∀ k h, o.Iteration m size use h₀ k h →
    Held m h (o.dst (o.start k)) (o.src (o.start k))

/-- What is done with the pointers changes no state word. -/
def Neutral (use : Heap → Nat → Nat → Nat → Heap → Prop) : Prop :=
  ∀ h d s n h', use h d s n h' → h'.carmObjState = h.carmObjState ∧ h'.inScope = h.inScope

/-- The slots of the first `k` destinations can be read, the others are as at the start. -/
structure Settled (o : Operands) (W : Nat → Nat) (k : Nat) (h : Heap) : Prop where
  visited : ∀ i < k, Readable (h.carmObjState (o.dst (o.start i)).objIndex)
  others : ∀ j, (∀ i < k, (o.dst (o.start i)).objIndex ≠ j) → h.carmObjState j = W j

theorem Settled.dst (hs : o.Settled W k h) (hm : Admits m) :
    o.Settled W (k + 1) (ptrDeref m h (o.dst (o.start k))).1 where
  visited i hi := by
    by_cases hk : (o.dst (o.start i)).objIndex = (o.dst (o.start k)).objIndex
    · rw [hk]
      exact ptrDeref_readable hm
    · rw [Heap.ptrDeref_other hk]
      refine hs.visited i (Nat.lt_of_le_of_ne (Nat.le_of_lt_succ hi) ?_)
      rintro rfl
      exact hk rfl
  others j hj := by
    rw [Heap.ptrDeref_other fun h => hj k (Nat.lt_succ_self k) h.symm]
    exact hs.others j fun i hi => hj i (Nat.lt_succ_of_lt hi)

/-- Whether the source is fast in iteration `k` can be told from the first words. -/
theorem Settled.src_fast_iff (hs : o.Settled W (k + 1) h) :
    Fast h.carmObjState (o.src (o.start k)) ↔ o.QuietAt W k := by
  have hread : ∀ V : Nat → Nat, Fast V (o.src (o.start k)) ↔ Readable (V (o.src (o.start k)).objIndex) :=
    fun V => by rw [Fast, o.src_read]
  by_cases hsame : ∃ i ≤ k, (o.dst (o.start i)).objIndex = (o.src (o.start k)).objIndex
  · obtain ⟨i, hi, he⟩ := hsame
    have hword := hs.visited i (Nat.lt_succ_of_le hi)
    rw [he] at hword
    exact ⟨fun _ => .inl ⟨i, hi, he⟩, fun _ => (hread _).mpr hword⟩
  · have hword := hs.others (o.src (o.start k)).objIndex fun i hi he =>
      hsame ⟨i, Nat.le_of_lt_succ hi, he⟩
    rw [QuietAt, or_iff_right hsame, Fast, Fast, hword]

theorem Settled.enter (h : h₀.carmObjState = W) : o.Settled W 0 h₀ :=
  ⟨nofun, fun j _ => congrFun h j⟩

theorem Settled.next (hs : o.Settled W k h) (hm : Admits m) (hn : Neutral use) (hq : o.QuietAt W k)
    (huse : use (ptrDeref m (ptrDeref m h (o.dst (o.start k))).1 (o.src (o.start k))).1 d s n h') :
    o.Settled W (k + 1) h' := by
  have hs' := hs.dst hm
  rw [Heap.ptrDeref_fast (hs'.src_fast_iff.mpr hq)] at huse
  have hstate := (hn _ _ _ _ _ huse).1
  exact ⟨fun i hi => hstate ▸ hs'.visited i hi, fun j hj => hstate ▸ hs'.others j hj⟩

theorem Quiet.settled (hq : o.Quiet size W) (hm : Admits m) (hn : Neutral use)
    (hW : h₀.carmObjState = W) (hit : o.Iteration m size use h₀ k h) : o.Settled W k h := by
  induction hit with
  | enter _ => exact .enter hW
  | next hit _ huse ih => exact ih.next hm hn (hq _ hit.reaches) huse

theorem Quiet.holds (hq : o.Quiet size W) (hn : Neutral use) : o.Holds size use W := by
  intro m h₀ hm hW k h hit
  have hs := (hq.settled hm hn hW hit).dst hm
  rw [Held, Heap.ptrDeref_fast (hs.src_fast_iff.mpr (hq k hit.reaches))]

end Operands

-- ---------------------------------------------------------------------------
-- The exact condition
-- ---------------------------------------------------------------------------

structure Zeros (h : Heap) : Prop where
  mem : ∀ a, h.mem a = 0
  remote : ∀ o j, (h.objs o).remote j = 0

theorem Zeros.objectFor (hz : Zeros h) : Zeros (objectFor cacheManager h i).1 := by
  unfold Heap.objectFor
  split
  · exact hz
  · refine ⟨hz.mem, fun o j => ?_⟩
    by_cases ho : o = h.objCount
    · simp [Heap.allocateObject, ho, cacheManager]
    · simpa [Heap.allocateObject, ho] using hz.remote o j

theorem Zeros.deref (hz : Zeros h) : Zeros (h.deref m o w) := by
  refine ⟨fun a => ?_, fun p j => ?_⟩
  · simp only [Heap.deref]
    split
    · exact hz.mem a
    · unfold Lib.blit
      split
      · exact hz.remote _ _
      · exact hz.mem a
  · by_cases hp : p = o
    · subst hp
      rw [Heap.deref_objs_self]
      exact hz.remote p j
    · rw [Heap.deref_objs_ne hp]
      exact hz.remote p j

theorem Zeros.ptrDeref (hz : Zeros h) : Zeros (ptrDeref cacheManager h p).1 := by
  by_cases hf : Fast h.carmObjState p
  · rwa [Heap.ptrDeref_fast hf]
  rw [Heap.ptrDeref_slow hf]
  have hz' : Zeros h.carmDeref := ⟨hz.mem, hz.remote⟩
  have hz'' := (hz'.objectFor (i := p.objIndex)).deref (m := cacheManager)
    (o := (Heap.objectFor cacheManager h.carmDeref p.objIndex).2) (w := p.mutable)
  unfold carmDerefObj Heap.carmAddPrefetchTrace
  simp only
  split <;> exact ⟨hz''.mem, hz''.remote⟩

theorem cacheManager_admits : Admits cacheManager := by
  intro objs n o w
  show Cache.derefWord objs n o w &&& exceptions w = 0
  rw [Cache.derefWord]
  split <;> rw [Cache.word_and (by cases w <;> decide)]
  · cases w
    · split <;> decide
    · rw [if_pos (Bool.true_or _)]
      decide
  · cases w <;> decide

namespace Operands

variable {o : Operands} {use : Heap → Nat → Nat → Nat → Heap → Prop}

/-- With nothing but zeros in memory the loop always goes on. -/
def GoesOn (use : Heap → Nat → Nat → Nat → Heap → Prop) : Prop :=
  ∀ h d s n, Zeros h → ∃ h', use h d s n h' ∧ Zeros h'

/-- Everything zero, with the given state words and a scope open. -/
def zeroHeap (W : Nat → Nat) : Heap :=
  { initObjects (fun _ => none) (fun _ => 0) (fun _ => 0) kWorkingSetSize with
    carmObjState := W
    inScope := true }

theorem zeroHeap_iteration (hn : Neutral use) (hgo : GoesOn use) (hr : o.Reaches size k)
    (hq : ∀ i < k, o.QuietAt W i) : ∃ h, o.Iteration cacheManager size use (zeroHeap W) k h ∧
      o.Settled W k h ∧ h.inScope = true ∧ Zeros h := by
  induction k with
  | zero =>
    exact ⟨_, .enter (hr 0 (Nat.le_refl 0)), .enter rfl, rfl, ⟨fun _ => rfl, fun _ _ => rfl⟩⟩
  | succ k ih =>
    obtain ⟨h, hit, hs, hscope, hz⟩ := ih (fun i hi => hr i (Nat.le_succ_of_le hi)) fun i hi =>
      hq i (Nat.lt_succ_of_lt hi)
    obtain ⟨h', huse, hz'⟩ := hgo _ _ _ _ (hz.ptrDeref.ptrDeref (p := o.src (o.start k)))
    refine ⟨h', .next hit (hr (k + 1) (Nat.le_refl _)) huse,
      hs.next cacheManager_admits hn (hq k (Nat.lt_succ_self k)) huse, ?_, hz'⟩
    rw [(hn _ _ _ _ _ huse).2]
    exact ptrDeref_inScope (ptrDeref_inScope hscope)

/-- The first source that is not quiet closes the scope of its destination. -/
theorem Holds.quiet (hh : o.Holds size use W) (hn : Neutral use) (hgo : GoesOn use) :
    o.Quiet size W := by
  intro k
  induction k using Nat.strong_induction_on with
  | h k ih =>
    intro hr
    obtain ⟨h, hit, hs, hscope, -⟩ := zeroHeap_iteration hn hgo hr fun i hi =>
      ih i hi fun j hj => hr j (hj.trans hi.le)
    have hheld := hh cacheManager (zeroHeap W) cacheManager_admits rfl k h hit
    by_contra hno
    have hslow := mt (hs.dst cacheManager_admits).src_fast_iff.mp hno
    rw [Held, (Heap.ptrDeref_slow_scope hslow).2.2, if_pos (ptrDeref_inScope hscope)] at hheld
    exact Nat.succ_ne_self _ hheld

theorem holds_iff (hn : Neutral use) (hgo : GoesOn use) : o.Holds size use W ↔ o.Quiet size W :=
  ⟨fun hh => hh.quiet hn hgo, fun hq => hq.holds hn⟩

end Operands

theorem movesOn_neutral : Operands.Neutral movesOn := by
  rintro h d s n _ rfl
  exact ⟨rfl, rfl⟩

theorem movesOn_goesOn : Operands.GoesOn movesOn := by
  refine fun h d s n hz => ⟨_, rfl, fun a => ?_, hz.remote⟩
  unfold Heap.memmove Heap.store Lib.blit
  simp only
  split
  · exact hz.mem _
  · exact hz.mem a

theorem comparesOn_neutral : Operands.Neutral comparesOn := by
  rintro h d s n _ ⟨-, rfl⟩
  exact ⟨rfl, rfl⟩

theorem comparesOn_goesOn : Operands.GoesOn comparesOn := fun h d s n hz =>
  ⟨h, ⟨Heap.memcmp_eq_of_eq fun i _ => by rw [hz.mem, hz.mem], rfl⟩, hz⟩

/-- The contents of `carm_obj_state` for which both raw pointers of every iteration
stay protected until they are used. -/
theorem scopes_held_iff :
    ((memcpyOperands dst src).Holds size movesOn W ↔ (memcpyOperands dst src).Quiet size W) ∧
    ((memcmpOperands dst src).Holds size comparesOn W ↔ (memcmpOperands dst src).Quiet size W) :=
  ⟨Operands.holds_iff movesOn_neutral movesOn_goesOn,
    Operands.holds_iff comparesOn_neutral comparesOn_goesOn⟩

/-- Eight bytes from one page to another of a heap just set up. -/
theorem scope_closed_early : ¬∀ m h₀ dst src size k h,
    (memcpyOperands dst src).Iteration m size movesOn h₀ k h →
    Held m h ((memcpyOperands dst src).dst ((memcpyOperands dst src).start k))
      ((memcpyOperands dst src).src ((memcpyOperands dst src).start k)) := by
  intro hall
  let h₀ := initObjects (fun _ => none) (fun _ => 0) (fun _ => 0) kWorkingSetSize
  have hheld : Held cacheManager h₀ (getCarmPtr startAddr true)
      (getCarmPtr (startAddr + objSize) false) :=
    hall cacheManager h₀ startAddr (startAddr + objSize) 8 0 _ (.enter (by decide))
  have hdst : ¬Fast h₀.carmObjState (getCarmPtr startAddr true) := by decide
  have hsrc : ¬Fast (ptrDeref cacheManager h₀ (getCarmPtr startAddr true)).1.carmObjState
      (getCarmPtr (startAddr + objSize) false) := by
    rw [Fast, Heap.ptrDeref_other (by decide)]
    decide
  rw [Held, (Heap.ptrDeref_slow_scope hsrc).2.2, (Heap.ptrDeref_slow_scope hdst).2.1] at hheld
  exact Nat.succ_ne_self _ hheld

end TrackFM
