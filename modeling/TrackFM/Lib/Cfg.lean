import Mathlib.Data.List.Count
import Mathlib.Data.List.Perm.Basic
import Mathlib.Tactic.Common

/-!
# Control-flow graphs with PHI nodes

Blocks are numbers. A block has a terminator, with an edge for each of its
successors, and PHI nodes, whose entries name the block an edge comes from.
-/

namespace TrackFM.Lib

inductive Terminator where
  | branch (succs : List Nat)
  /-- A switch, an invoke and so on. -/
  | other (succs : List Nat)
  deriving DecidableEq, Repr

namespace Terminator

def succs : Terminator → List Nat
  | branch ss | other ss => ss

def IsBranch : Terminator → Prop
  | branch _ => True
  | other _ => False

def redirect (f : Nat → Nat) : Terminator → Terminator
  | branch ss => branch (ss.map f)
  | other ss => other ss

variable {t : Terminator} {f : Nat → Nat}

theorem redirect_succs (ht : t.IsBranch) : (t.redirect f).succs = t.succs.map f := by
  cases t with
  | branch ss => rfl
  | other ss => exact ht.elim

theorem redirect_other (ht : ¬t.IsBranch) : t.redirect f = t := by
  cases t with
  | branch ss => exact absurd trivial ht
  | other ss => rfl

end Terminator

theorem count_map_ite {l : List Nat} {b x y : Nat} (hx : b ≠ x) (hy : b ≠ y) :
    (l.map fun c => if c = x then y else c).count b = l.count b := by
  rw [List.count, List.countP_map]
  refine List.countP_congr fun c _ => ?_
  by_cases hc : c = x
  · simp [hc, hx.symm, hy.symm]
  · simp [hc]

structure Phi (X : Type) where
  name : X
  incoming : List (X × Nat)

namespace Phi

variable {X Y Z : Type} {φ : Phi X} {r q : Nat → Nat} {n g : X → Y}

def sources (φ : Phi X) : List Nat := φ.incoming.map Prod.snd

def values (φ : Phi X) (a : Nat) : List X := (φ.incoming.filter fun e => e.2 = a).map Prod.fst

def mapBlocks (r : Nat → Nat) (φ : Phi X) : Phi X :=
  { φ with incoming := φ.incoming.map fun e => (e.1, r e.2) }

def mapValues (n g : X → Y) (φ : Phi X) : Phi Y :=
  { name := n φ.name, incoming := φ.incoming.map fun e => (g e.1, e.2) }

def mapUses (g : X → X) (φ : Phi X) : Phi X := φ.mapValues (fun v => v) g

@[simp] theorem sources_mapBlocks : (φ.mapBlocks r).sources = φ.sources.map r := by
  simp [sources, mapBlocks]

@[simp] theorem sources_mapValues : (φ.mapValues n g).sources = φ.sources := by
  simp [sources, mapValues]

@[simp] theorem sources_mapUses {k : X → X} : (φ.mapUses k).sources = φ.sources := sources_mapValues

theorem mapBlocks_comp : (φ.mapBlocks r).mapBlocks q = φ.mapBlocks fun a => q (r a) := by
  simp [mapBlocks]

theorem mapBlocks_congr (h : ∀ a ∈ φ.sources, r a = q a) : φ.mapBlocks r = φ.mapBlocks q := by
  simp only [mapBlocks, mk.injEq, true_and]
  refine List.map_congr_left fun e he => ?_
  rw [h _ (List.mem_map_of_mem he)]

theorem mapUses_mapBlocks {k : X → X} : (φ.mapBlocks r).mapUses k = (φ.mapUses k).mapBlocks r := by
  simp [mapUses, mapValues, mapBlocks]

theorem mapUses_mapValues {k : Y → Y} :
    (φ.mapValues n g).mapUses k = φ.mapValues n fun v => k (g v) := by
  simp [mapUses, mapValues]

theorem values_mapValues : (φ.mapValues n g).values a = (φ.values a).map g := by
  simp [values, mapValues, List.filter_map, Function.comp_def]

theorem values_mapBlocks (h : ∀ c ∈ φ.sources, r c = b ↔ c = a) :
    (φ.mapBlocks r).values b = φ.values a := by
  simp only [values, mapBlocks, List.filter_map, List.map_map, Function.comp_def]
  congr 1
  refine List.filter_congr fun e he => ?_
  simp only [decide_eq_decide]
  exact h _ (List.mem_map_of_mem he)

end Phi

structure Cfg (X : Type) where
  term : Nat → Terminator
  phis : Nat → List (Phi X)

namespace Cfg

variable {X : Type} {c : Cfg X}

abbrev succs (c : Cfg X) (a : Nat) : List Nat := (c.term a).succs

/-- The node has one entry for each edge into its block and no other. -/
def Matches (c : Cfg X) (b : Nat) (φ : Phi X) : Prop :=
  ∀ a, φ.sources.count a = (c.succs a).count b

theorem matches_iff_perm (h : ∀ a, (c.succs a).count b = ps.count a) :
    c.Matches b φ ↔ φ.sources.Perm ps := by
  simp [Matches, h, List.perm_iff_count]

/-- The blocks a run from a block goes through until it first gets to `stop`. -/
inductive Crossing (c : Cfg X) (stop : Nat) : Nat → List Nat → Prop
  | done : Crossing c stop stop []
  | step {b d : Nat} {bs : List Nat} : b ≠ stop → d ∈ c.succs b → Crossing c stop d bs →
      Crossing c stop b (b :: bs)

/-- Every run from a block gets to `stop`. -/
inductive Inevitable (c : Cfg X) (stop : Nat) : Nat → Prop
  | here : Inevitable c stop stop
  | step {b : Nat} : c.succs b ≠ [] → (∀ d ∈ c.succs b, Inevitable c stop d) → Inevitable c stop b

theorem Crossing.next {b : Nat} (h : Crossing c stop b bs) (hb : b ≠ stop) :
    ∃ d cs, d ∈ c.succs b ∧ bs = b :: cs ∧ Crossing c stop d cs := by
  cases h with
  | done => exact absurd rfl hb
  | step _ hd hc => exact ⟨_, _, hd, rfl, hc⟩

theorem Crossing.forced {b d : Nat} (h : Crossing c stop b bs) (hb : b ≠ stop)
    (hs : c.succs b = [d]) : ∃ cs, bs = b :: cs ∧ Crossing c stop d cs := by
  obtain ⟨e, cs, he, rfl, hc⟩ := h.next hb
  rw [hs, List.mem_singleton] at he
  exact ⟨cs, rfl, he ▸ hc⟩

theorem Crossing.stopped (h : Crossing c stop stop bs) : bs = [] := by
  cases h with
  | done => rfl
  | step hne _ _ => exact absurd rfl hne

theorem Inevitable.forced {b d : Nat} (hs : c.succs b = [d]) (h : Inevitable c stop d) :
    Inevitable c stop b := by
  refine .step (by simp [hs]) fun e he => ?_
  rw [hs, List.mem_singleton] at he
  exact he ▸ h

end Cfg

end TrackFM.Lib
