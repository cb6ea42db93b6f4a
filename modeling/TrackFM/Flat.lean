import TrackFM.Lib.Program
import TrackFM.Lib.Search
import TrackFM.Lib.Service
import TrackFM.Libc

/-!
# Flat memory

What a program takes the runtime for: one memory with blocks in it. Loads,
stores and the memory functions act on it as `libc` does; the allocator puts a
block anywhere it is clear of the others, with anything in it. A contract says
which requests are allowed.
-/

namespace TrackFM

open Lib (Mem Service blit blit_in blit_out move fill readBytes writeBytes first order)

/-- What a program asks of memory. An access that is not `guarded` goes to its
address as it is. -/
inductive Request where
  | load (guarded : Bool) (a n : Nat)
  | store (guarded : Bool) (a : Nat) (bs : List UInt8)
  | malloc (size : Nat)
  | calloc (elem elemSize : Nat)
  | realloc (ptr size : Nat)
  | free (ptr : Nat)
  | memcpy (dst src size : Nat)
  | memset (dst : Nat) (v : Int) (size : Nat)
  | memcmp (a b size : Nat)
  | strlen (s : Nat)
  | strcpy (dst src : Nat)
  | strncpy (dst src size : Nat)
  | strcmp (d s : Nat)
  | strdup (s : Nat)
  | memchr (s : Nat) (c : Int) (size : Nat)
  deriving DecidableEq, Repr

inductive Answer where
  | done
  | bytes (bs : List UInt8)
  | word (w : Nat)
  | order (o : Ordering)
  deriving DecidableEq, Repr

structure Extent where
  start : Nat
  size : Nat
  deriving DecidableEq, Repr

structure Flat where
  mem : Mem UInt8
  /-- The blocks that are not freed. -/
  extents : List Extent
  /-- What all blocks so far took up, the freed ones included. -/
  used : Nat

structure Contract where
  /-- The memory a program has beside its blocks. -/
  loc : Nat → Prop
  /-- A guarded access to a block stays within a page. -/
  page : Nat
  /-- Blocks start at multiples of this. -/
  unit : Nat
  /-- What a block of so many bytes takes up. -/
  footprint : Nat → Nat
  capacity : Nat
  /-- The memory functions take ranges shorter than this. -/
  longest : Nat

namespace Flat

def Holds (y : Flat) (a n : Nat) : Prop :=
  ∃ b ∈ y.extents, b.start ≤ a ∧ a + n ≤ b.start + b.size

/-- A range a program may pass. -/
inductive Range (T : Contract) (y : Flat) (a n : Nat) : Prop
  | loc : (∀ j < n, T.loc (a + j)) → Range T y a n
  | held : y.Holds a n → Range T y a n

/-- What a program may load or store without a guard. -/
structure Local (T : Contract) (a n : Nat) : Prop where
  pos : 0 < n
  loc : ∀ j < n, T.loc (a + j)

inductive Accessible (T : Contract) (y : Flat) (a n : Nat) : Prop
  | loc : Local T a n → Accessible T y a n
  | held : 0 < n → y.Holds a n → a % T.page + n ≤ T.page → Accessible T y a n

structure Text (T : Contract) (y : Flat) (a n : Nat) : Prop where
  range : Range T y a (n + 1)
  chars : ∀ j < n, y.mem (a + j) ≠ 0
  nul : y.mem (a + n) = 0

structure Fresh (T : Contract) (y : Flat) (p n : Nat) : Prop where
  aligned : T.unit ∣ p
  apart : ∀ b ∈ y.extents,
    p + T.footprint n ≤ b.start ∨ b.start + T.footprint b.size ≤ p
  clear : ∀ j < T.footprint n, ¬T.loc (p + j)

def handOut (T : Contract) (y : Flat) (p n : Nat) (f : Nat → UInt8) : Flat where
  mem := blit y.mem p n f
  extents := ⟨p, n⟩ :: y.extents
  used := y.used + T.footprint n

def drop (y : Flat) (p : Nat) : Flat := { y with extents := y.extents.filter fun b => b.start ≠ p }

def Fitted (T : Contract) (y : Flat) (n : Nat) : Prop := y.used + T.footprint n ≤ T.capacity

def Allowed (T : Contract) (y : Flat) : Request → Prop
  | .load true a n => Accessible T y a n
  | .load false a n => Local T a n
  | .store true a bs => Accessible T y a bs.length
  | .store false a bs => Local T a bs.length
  | .malloc size => Fitted T y size
  | .calloc elem elemSize => Fitted T y (elem * elemSize) ∧ elem * elemSize < T.longest
  | .realloc ptr size => ∃ b ∈ y.extents, b.start = ptr ∧
      (size = 0 ∨ T.footprint b.size ≤ T.footprint size ∧ b.size < T.longest ∧ Fitted T y size)
  | .free ptr => ptr = 0 ∨ ∃ b ∈ y.extents, b.start = ptr
  | .memcpy dst src size => Range T y dst size ∧ Range T y src size ∧ size < T.longest ∧
      (dst ≤ src ∨ src + size ≤ dst)
  | .memset dst _ size => Range T y dst size ∧ size < T.longest
  | .memcmp a b size => Range T y a size ∧ Range T y b size ∧ size < T.longest
  | .strlen s => ∃ n < T.longest, Text T y s n
  | .strcpy dst src => ∃ n, n + 1 < T.longest ∧ Text T y src n ∧ Range T y dst (n + 1) ∧
      (dst + (n + 1) ≤ src ∨ src + (n + 1) ≤ dst)
  | .strncpy dst src size => Range T y dst size ∧ Range T y src size ∧
      (0 < size ∧ size < T.longest) ∧
      (dst + size ≤ src ∨ src + size ≤ dst) ∧
      ∀ j < size, ∀ i < j, y.mem (src + i) = 0 → y.mem (src + j) = 0
  | .strcmp d s => (∃ n, n + 1 < T.longest ∧ Text T y d n) ∧ ∃ n, n + 1 < T.longest ∧ Text T y s n
  | .strdup s => ∃ n, n + 1 < T.longest ∧ Text T y s n ∧ y.Holds s (n + 1) ∧ Fitted T y (n + 1)
  | .memchr s c size => Local T s size ∨
      Range T y s size ∧ (0 ≤ c ∧ c < 256) ∧ ∃ j < size, y.mem (s + j) = lowByte c

def found (s : Nat) (hit : Option Nat) : Nat := hit.elim 0 (s + ·)

/-- A request, its answer and what it leaves. -/
inductive Call (T : Contract) (y : Flat) : Request → Answer → Flat → Prop
  | load {guarded : Bool} : Call T y (.load guarded a n) (.bytes (readBytes y.mem a n)) y
  | store {guarded : Bool} {bs : List UInt8} :
      Call T y (.store guarded a bs) .done { y with mem := writeBytes y.mem a bs }
  | malloc {size : Nat} {f : Nat → UInt8} : Fresh T y p size →
      Call T y (.malloc size) (.word p) (y.handOut T p size f)
  | calloc {elem elemSize : Nat} : Fresh T y p (elem * elemSize) →
      Call T y (.calloc elem elemSize) (.word p) (y.handOut T p (elem * elemSize) fun _ => 0)
  | realloc {ptr size : Nat} {b : Extent} {f : Nat → UInt8} : b ∈ y.extents → b.start = ptr →
      0 < size → Fresh T y p size → (∀ j < b.size, j < size → f j = y.mem (ptr + j)) →
      Call T y (.realloc ptr size) (.word p) ((y.handOut T p size f).drop ptr)
  | reallocZero {ptr : Nat} : Call T y (.realloc ptr 0) (.word 0) (y.drop ptr)
  | free {ptr : Nat} : Call T y (.free ptr) .done (y.drop ptr)
  | memcpy {dst src size : Nat} :
      Call T y (.memcpy dst src size) (.word dst) { y with mem := move y.mem dst src size }
  | memset {dst size : Nat} {v : Int} :
      Call T y (.memset dst v size) (.word dst) { y with mem := fill y.mem dst size (lowByte v) }
  | memcmp {b size : Nat} : Call T y (.memcmp a b size)
      (.order (order (fun j => y.mem (a + j)) (fun j => y.mem (b + j)) size)) y
  | strlen {s : Nat} : Text T y s n → Call T y (.strlen s) (.word n) y
  | strcpy {dst src : Nat} : Text T y src n →
      Call T y (.strcpy dst src) (.word dst) { y with mem := move y.mem dst src (n + 1) }
  | strncpy {dst src size : Nat} :
      Call T y (.strncpy dst src size) (.word dst) { y with mem := move y.mem dst src size }
  | strcmp {d s : Nat} : Text T y d n → Text T y s l → Call T y (.strcmp d s)
      (.order (order (fun j => y.mem (d + j)) (fun j => y.mem (s + j)) (min n l + 1))) y
  | strdup {s : Nat} : Text T y s n → Fresh T y p (n + 1) →
      Call T y (.strdup s) (.word p) (y.handOut T p (n + 1) fun j => y.mem (s + j))
  | memchr {s size : Nat} {c : Int} : Call T y (.memchr s c size)
      (.word (found s (first (fun j => y.mem (s + j) == lowByte c) size))) y

def start (mem : Mem UInt8) : Flat where
  mem := mem
  extents := []
  used := 0

end Flat

/-- Nothing happens to a flat memory beside the requests. -/
def flat (T : Contract) : Service Request Answer Flat where
  call := Flat.Call T
  between := Eq

namespace Flat

variable {T : Contract} {y y' : Flat} {a n p : Nat}

abbrev Known (T : Contract) (y : Flat) (a : Nat) : Prop := Range T y a 1

theorem known_iff : Known T y a ↔ T.loc a ∨ ∃ b ∈ y.extents, b.start ≤ a ∧ a < b.start + b.size := by
  constructor
  · rintro (h | h)
    · exact .inl (h 0 Nat.one_pos)
    · exact .inr h
  · rintro (h | h)
    · refine .loc fun j hj => ?_
      obtain rfl : j = 0 := by omega
      exact h
    · exact .held h

theorem Range.known (h : Range T y a n) : ∀ j < n, Known T y (a + j) := by
  intro j hj
  rw [known_iff]
  cases h with
  | loc hl => exact .inl (hl j hj)
  | held hh =>
    obtain ⟨b, hb, h₁, h₂⟩ := hh
    exact .inr ⟨b, hb, by omega, by omega⟩

theorem Accessible.range (h : Accessible T y a n) : Range T y a n := by
  cases h with
  | loc hl => exact .loc hl.loc
  | held _ hh _ => exact .held hh

theorem known_handOut {f : Nat → UInt8} :
    Known T (y.handOut T p n f) a ↔ p ≤ a ∧ a < p + n ∨ Known T y a := by
  simp only [known_iff, handOut, List.mem_cons, exists_eq_or_imp]
  tauto

theorem known_of_drop (h : Known T (y.drop p) a) : Known T y a := by
  rw [known_iff] at h ⊢
  refine h.imp_right ?_
  rintro ⟨b, hb, hcov⟩
  exact ⟨b, (List.mem_filter.mp hb).1, hcov⟩

theorem known_mem {μ : Mem UInt8} : Known T { y with mem := μ } a ↔ Known T y a := by
  simp only [known_iff]

end Flat

end TrackFM
