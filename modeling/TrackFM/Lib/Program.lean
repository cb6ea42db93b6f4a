import TrackFM.Lib.Bytes

/-!
# Programs with loops

A program reads and writes bytes, hands out values and runs loops inside one
another. At every step it may look at the values of the variables of its loops,
which are the machine's. A machine that keeps step with another one, whatever
the program does next, goes through the runs of that one.
-/

namespace TrackFM.Lib

def readBytes (μ : Mem UInt8) (a n : Nat) : List UInt8 := (List.range n).map fun j => μ (a + j)

def writeBytes (μ : Mem UInt8) (a : Nat) (bs : List UInt8) : Mem UInt8 :=
  blit μ a bs.length fun j => bs.getD j 0

theorem readBytes_congr (h : ∀ j < n, μ (a + j) = ν (b + j)) : readBytes μ a n = readBytes ν b n :=
  List.map_congr_left fun j hj => h j (List.mem_range.mp hj)

/-- A step of a program, with what the program goes on as. -/
inductive Action (G S : Type)
  | halt
  | load (a n : Nat) (k : List UInt8 → S)
  | store (a : Nat) (bs : List UInt8) (v : S)
  | emit (x : Nat) (v : S)
  /-- Into a loop with these variables. -/
  | enter (gs : List G) (v : S)
  /-- To the next iteration of the innermost loop. -/
  | back (v : S)
  | exit (v : S)

/-- The values it looks at are those of the innermost loop first. -/
abbrev Program (G S : Type) := List (List Nat) → S → Action G S

structure Machine (G σ : Type) where
  values : σ → List (List Nat)
  read : σ → Nat → Nat → σ × List UInt8
  write : σ → Nat → List UInt8 → σ
  enter : σ → List G → σ → Prop
  back : σ → σ → Prop
  exit : σ → σ → Prop
  /-- What else may happen. -/
  between : σ → σ → Prop

variable {G S σ τ : Type}

inductive Exec (M : Machine G σ) (s : σ) : Action G S → σ → List Nat → S → Prop
  | load : Exec M s (.load a n k) (M.read s a n).1 [] (k (M.read s a n).2)
  | store : Exec M s (.store a bs v) (M.write s a bs) [] v
  | emit : Exec M s (.emit x v) s [x] v
  | enter : M.enter s gs s' → Exec M s (.enter gs v) s' [] v
  | back : M.back s s' → Exec M s (.back v) s' [] v
  | exit : M.exit s s' → Exec M s (.exit v) s' [] v

inductive Gets (M : Machine G σ) (prog : Program G S) (s₀ : σ) (v₀ : S) : σ → S → List Nat → Prop
  | start : Gets M prog s₀ v₀ s₀ v₀ []
  | between : Gets M prog s₀ v₀ s v out → M.between s s' → Gets M prog s₀ v₀ s' v out
  | step : Gets M prog s₀ v₀ s v out → Exec M s (prog (M.values s) v) s' new v' →
      Gets M prog s₀ v₀ s' v' (out ++ new)

variable {M : Machine G σ} {N : Machine G τ} {prog : Program G S} {s₀ s : σ} {t₀ : τ} {v₀ v : S}
  {out : List Nat}

theorem Gets.invariant {J : σ → S → List Nat → Prop} (h₀ : J s₀ v₀ [])
    (hbetween : ∀ s s' v out, J s v out → M.between s s' → J s' v out)
    (hstep : ∀ s s' v v' out new, J s v out → Exec M s (prog (M.values s) v) s' new v' →
      J s' v' (out ++ new))
    (h : Gets M prog s₀ v₀ s v out) : J s v out := by
  induction h with
  | start => exact h₀
  | between _ hb ih => exact hbetween _ _ _ _ ih hb
  | step _ he ih => exact hstep _ _ _ _ _ _ ih he

/-- A machine that keeps step with another one goes through its runs. -/
theorem Gets.simulated {I : σ → τ → Prop} (h₀ : I s₀ t₀)
    (hbetween : ∀ s s' t, I s t → M.between s s' → I s' t)
    (hstep : ∀ t v out, Gets N prog t₀ v₀ t v out → ∀ s s' new v', I s t →
      Exec M s (prog (M.values s) v) s' new v' →
        ∃ t', Exec N t (prog (N.values t) v) t' new v' ∧ I s' t')
    (h : Gets M prog s₀ v₀ s v out) : ∃ t, Gets N prog t₀ v₀ t v out ∧ I s t := by
  induction h with
  | start => exact ⟨t₀, .start, h₀⟩
  | between _ hb ih =>
    obtain ⟨t, ht, hI⟩ := ih
    exact ⟨t, ht, hbetween _ _ t hI hb⟩
  | step _ he ih =>
    obtain ⟨t, ht, hI⟩ := ih
    obtain ⟨t', he', hI'⟩ := hstep t _ _ ht _ _ _ _ hI he
    exact ⟨t', .step ht he', hI'⟩

end TrackFM.Lib
