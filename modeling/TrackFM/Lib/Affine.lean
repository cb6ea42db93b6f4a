import Mathlib.Algebra.BigOperators.Group.List.Basic
import Mathlib.Algebra.Ring.Basic
import Mathlib.Tactic.Ring

/-!
# Linear forms over progressions

A form is a list of variables with their scales; adding to the scale of a
variable that is there already merges the two. Over variables that run through
arithmetic progressions a form does so itself.
-/

namespace TrackFM.Lib

def addScale {V R : Type} [DecidableEq V] [Add R] (v : V) (c : R) : List (V × R) → List (V × R)
  | [] => [(v, c)]
  | (w, d) :: ts => if w = v then (w, d + c) :: ts else (w, d) :: addScale v c ts

def form {V R : Type} [Add R] [Mul R] [Zero R] (x : V → R) (ts : List (V × R)) : R :=
  (ts.map fun t => t.2 * x t.1).sum

section
variable {V R : Type} [CommRing R] {x : V → R} {ts us : List (V × R)}

@[simp] theorem form_nil : form x [] = 0 := rfl

@[simp] theorem form_cons : form x (t :: ts) = t.2 * x t.1 + form x ts := rfl

theorem form_perm (h : ts.Perm us) : form x ts = form x us := (h.map _).sum_eq

theorem form_addScale [DecidableEq V] : form x (addScale v c ts) = form x ts + c * x v := by
  induction ts with
  | nil => simp [addScale]
  | cons t ts ih =>
    obtain ⟨w, e⟩ := t
    unfold addScale
    split
    case isTrue h =>
      subst h
      simp only [form_cons]
      ring
    case isFalse =>
      simp only [form_cons, ih]
      ring

theorem mem_addScale [DecidableEq V] :
    u ∈ (addScale v c ts).map Prod.fst ↔ u = v ∨ u ∈ ts.map Prod.fst := by
  induction ts with
  | nil => simp [addScale]
  | cons t ts ih =>
    obtain ⟨w, e⟩ := t
    unfold addScale
    split
    case isTrue h =>
      subst h
      simp
    case isFalse =>
      simp only [List.map_cons, List.mem_cons, ih]
      exact or_left_comm

/-- Terms that each are `a + k*d` add up to the sum of the `a` and `k` times that
of the `d`. -/
theorem form_progression {us : List (R × R)}
    (h : List.Forall₂ (fun t u => t.2 * x t.1 = u.1 + k * u.2) ts us) :
    form x ts = (us.map Prod.fst).sum + k * (us.map Prod.snd).sum := by
  induction h with
  | nil => simp
  | cons htu _ ih =>
    simp only [form_cons, htu, ih, List.map_cons, List.sum_cons]
    ring

end

end TrackFM.Lib
