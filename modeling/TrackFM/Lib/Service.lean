import Mathlib.Logic.Basic
import Mathlib.Logic.Relation

/-!
# Clients of a service

A client moves by itself or makes a request and goes on with the answer. A
service that implements a specification gives only answers the specification
gives, and always gives one, as long as the requests are allowed; what clients
do on it is then what they do on the specification. A client may be the image of
another one, as a compiled program is of its source.
-/

namespace TrackFM.Lib

inductive Move (O A S : Type) where
  | halt
  | silent (s : S)
  | call (o : O) (k : A → S)

abbrev Client (O A S : Type) := S → Move O A S

/-- The answers a service may give, and what else may happen to its state. -/
structure Service (O A σ : Type) where
  call : σ → O → A → σ → Prop
  between : σ → σ → Prop

variable {O A S S' σ τ : Type}

/-- From `s₀` and `x₀` to a state of the client and one of the service, with the
requests made and their answers. -/
inductive Runs (c : Client O A S) (M : Service O A σ) (s₀ : S) (x₀ : σ) :
    S → σ → List (O × A) → Prop
  | start : Runs c M s₀ x₀ s₀ x₀ []
  | between : Runs c M s₀ x₀ s x out → M.between x x' → Runs c M s₀ x₀ s x' out
  | silent : Runs c M s₀ x₀ s x out → c s = .silent s' → Runs c M s₀ x₀ s' x out
  | call : Runs c M s₀ x₀ s x out → c s = .call o k → M.call x o a x' →
      Runs c M s₀ x₀ (k a) x' (out ++ [(o, a)])

def Safe (c : Client O A S) (N : Service O A τ) (allowed : τ → O → Prop) (s₀ : S) (y₀ : τ) : Prop :=
  ∀ s y out, Runs c N s₀ y₀ s y out → ∀ o k, c s = .call o k → allowed y o

theorem Runs.invariant {c : Client O A S} {N : Service O A τ} {J : S → τ → Prop} (h₀ : J s₀ y₀)
    (hbetween : ∀ s y y', J s y → N.between y y' → J s y')
    (hsilent : ∀ s s' y, J s y → c s = .silent s' → J s' y)
    (hcall : ∀ s y o k, J s y → c s = .call o k → ∀ a y', N.call y o a y' → J (k a) y')
    (hr : Runs c N s₀ y₀ s y out) : J s y := by
  induction hr with
  | start => exact h₀
  | between _ hb ih => exact hbetween _ _ _ ih hb
  | silent _ hs ih => exact hsilent _ _ _ ih hs
  | call _ hs hc ih => exact hcall _ _ _ _ ih hs _ _ hc

theorem Safe.of_invariant {c : Client O A S} {N : Service O A τ} {allowed : τ → O → Prop}
    {J : S → τ → Prop} (h₀ : J s₀ y₀) (hbetween : ∀ s y y', J s y → N.between y y' → J s y')
    (hsilent : ∀ s s' y, J s y → c s = .silent s' → J s' y)
    (hcall : ∀ s y o k, J s y → c s = .call o k →
      allowed y o ∧ ∀ a y', N.call y o a y' → J (k a) y') : Safe c N allowed s₀ y₀ := by
  intro s y out hr o k hs
  exact (hcall s y o k
    (hr.invariant h₀ hbetween hsilent fun s y o k hJ hs => (hcall s y o k hJ hs).2) hs).1

/-- The same move, with a request that stands for the other one. -/
inductive Move.Like (like : O → O → Prop) : Move O A S → Move O A S → Prop
  | halt : Like like .halt .halt
  | silent : Like like (.silent s) (.silent s)
  | call : like o o' → Like like (.call o k) (.call o' k)

/-- Clients whose requests have the same answers do the same. -/
theorem Runs.like {c c' : Client O A S} {N : Service O A τ} {like : O → O → Prop}
    (hc : ∀ s, (c s).Like like (c' s))
    (hN : ∀ y o o' a y', like o o' → N.call y o a y' → N.call y o' a y')
    (hr : Runs c N s₀ y₀ s y out) : ∃ out', Runs c' N s₀ y₀ s y out' := by
  induction hr with
  | start => exact ⟨[], .start⟩
  | between _ hb ih =>
    obtain ⟨out', h⟩ := ih
    exact ⟨out', .between h hb⟩
  | @silent s _ _ _ _ hs ih =>
    obtain ⟨out', h⟩ := ih
    have hlike := hc s
    rw [hs] at hlike
    cases hs' : c' s <;> rw [hs'] at hlike <;> cases hlike
    exact ⟨out', .silent h hs'⟩
  | @call s _ _ _ _ _ _ _ hs hcall ih =>
    obtain ⟨out', h⟩ := ih
    have hlike := hc s
    rw [hs] at hlike
    cases hs' : c' s <;> rw [hs'] at hlike <;> cases hlike
    case call ho => exact ⟨_, .call h hs' (hN _ _ _ _ _ ho hcall)⟩

def Silently (c : Client O A S) : S → S → Prop :=
  Relation.ReflTransGen fun s s' => c s = .silent s'

theorem Silently.eq_of_call {c : Client O A S} (h : Silently c s s') (hs : c s = .call o k) :
    s = s' := by
  cases Relation.ReflTransGen.cases_head h with
  | inl h => exact h
  | inr h =>
    obtain ⟨s'', h, -⟩ := h
    cases hs.symm.trans h

theorem Silently.eq_of_halt {c : Client O A S} (h : Silently c s s') (hs : c s = .halt) :
    s = s' := by
  cases Relation.ReflTransGen.cases_head h with
  | inl h => exact h
  | inr h =>
    obtain ⟨s'', h, -⟩ := h
    cases hs.symm.trans h

/-- A run has passed the moves a client first makes by itself, or is about to. -/
theorem Runs.past {c : Client O A S} {M : Service O A σ} (h₀ : Silently c s₀ s₁)
    (hr : Runs c M s₀ x₀ s x out) : ∃ s', Silently c s s' ∧ Runs c M s₁ x₀ s' x out := by
  induction hr with
  | start => exact ⟨s₁, h₀, .start⟩
  | between _ hb ih =>
    obtain ⟨s', h, hrun⟩ := ih
    exact ⟨s', h, .between hrun hb⟩
  | silent _ hs ih =>
    obtain ⟨s', h, hrun⟩ := ih
    rcases Relation.ReflTransGen.cases_head h with rfl | ⟨s'', hs', h⟩
    · exact ⟨_, .refl, .silent hrun hs⟩
    · cases hs.symm.trans hs'
      exact ⟨s', h, hrun⟩
  | call _ hs hcall ih =>
    obtain ⟨s', h, hrun⟩ := ih
    obtain rfl := h.eq_of_call hs
    exact ⟨_, .refl, .call hrun hs hcall⟩

-- ---------------------------------------------------------------------------
-- Implementations
-- ---------------------------------------------------------------------------

/-- `M` implements `N` for allowed requests; `I` relates their states. -/
structure Implements (M : Service O A σ) (N : Service O A τ) (allowed : τ → O → Prop)
    (I : σ → τ → Prop) : Prop where
  between : I x y → M.between x x' → I x' y
  call : I x y → allowed y o → M.call x o a x' → ∃ y', N.call y o a y' ∧ I x' y'
  answers : I x y → allowed y o → ∃ a x', M.call x o a x'

def Service.Functional (N : Service O A τ) : Prop :=
  ∀ y o a y' a' y'', N.call y o a y' → N.call y o a' y'' → a = a' ∧ y' = y''

def Service.quiet (M : Service O A σ) : Service O A σ := { M with between := fun _ _ => False }

section
variable {υ : Type} {c : Client O A S} {M : Service O A σ} {N : Service O A τ} {K : Service O A υ}
  {allowed : τ → O → Prop} {allowed' : υ → O → Prop} {I : σ → τ → Prop} {J : τ → υ → Prop}

theorem Implements.runs (hM : Implements M N allowed I) (hsafe : Safe c N allowed s₀ y₀)
    (h₀ : I x₀ y₀) (hr : Runs c M s₀ x₀ s x out) : ∃ y, Runs c N s₀ y₀ s y out ∧ I x y := by
  induction hr with
  | start => exact ⟨y₀, .start, h₀⟩
  | between _ hb ih =>
    obtain ⟨y, hrun, hI⟩ := ih
    exact ⟨y, hrun, hM.between hI hb⟩
  | silent _ hs ih =>
    obtain ⟨y, hrun, hI⟩ := ih
    exact ⟨y, .silent hrun hs, hI⟩
  | call _ hs hcall ih =>
    obtain ⟨y, hrun, hI⟩ := ih
    obtain ⟨y', hcall', hI'⟩ := hM.call hI (hsafe _ _ _ hrun _ _ hs) hcall
    exact ⟨y', .call hrun hs hcall', hI'⟩

theorem Implements.answered (hM : Implements M N allowed I) (hsafe : Safe c N allowed s₀ y₀)
    (h₀ : I x₀ y₀) (hr : Runs c M s₀ x₀ s x out) (hs : c s = .call o k) :
    ∃ a x', M.call x o a x' := by
  obtain ⟨y, hrun, hI⟩ := hM.runs hsafe h₀ hr
  exact hM.answers hI (hsafe _ _ _ hrun _ _ hs)

theorem Implements.safe (hN : Implements N K allowed' J) (hsafe : Safe c K allowed' s₀ z₀)
    (h₀ : J y₀ z₀) (hback : ∀ y z o, J y z → allowed' z o → allowed y o) :
    Safe c N allowed s₀ y₀ := by
  intro s y out hr o k hs
  obtain ⟨z, hrun, hJ⟩ := hN.runs hsafe h₀ hr
  exact hback _ _ _ hJ (hsafe _ _ _ hrun _ _ hs)

theorem Implements.trans (hM : Implements M N allowed I) (hN : Implements N K allowed' J)
    (hback : ∀ y z o, J y z → allowed' z o → allowed y o) :
    Implements M K allowed' fun x z => ∃ y, I x y ∧ J y z where
  between := by
    rintro x z x' ⟨y, hI, hJ⟩ hb
    exact ⟨y, hM.between hI hb, hJ⟩
  call := by
    rintro x z o a x' ⟨y, hI, hJ⟩ ha hcall
    obtain ⟨y', hcall', hI'⟩ := hM.call hI (hback _ _ _ hJ ha) hcall
    obtain ⟨z', hcall'', hJ'⟩ := hN.call hJ ha hcall'
    exact ⟨z', hcall'', y', hI', hJ'⟩
  answers := by
    rintro x z o ⟨y, hI, hJ⟩ ha
    exact hM.answers hI (hback _ _ _ hJ ha)

/-- What a safe client does on a specification that leaves no choice it does on
the implementation, with nothing happening in between. -/
theorem Implements.follows (hM : Implements M N allowed I) (hN : N.Functional)
    (hbetween : ∀ y y', N.between y y' → y' = y) (hsafe : Safe c N allowed s₀ y₀) (h₀ : I x₀ y₀)
    (hr : Runs c N s₀ y₀ s y out) : ∃ x, Runs c M.quiet s₀ x₀ s x out ∧ I x y := by
  induction hr with
  | start => exact ⟨x₀, .start, h₀⟩
  | between _ hb ih =>
    obtain ⟨x, hrun, hI⟩ := ih
    obtain rfl := hbetween _ _ hb
    exact ⟨x, hrun, hI⟩
  | silent _ hs ih =>
    obtain ⟨x, hrun, hI⟩ := ih
    exact ⟨x, .silent hrun hs, hI⟩
  | call hr hs hcall ih =>
    obtain ⟨x, hrun, hI⟩ := ih
    have ha := hsafe _ _ _ hr _ _ hs
    obtain ⟨a, x', hcallM⟩ := hM.answers hI ha
    obtain ⟨y', hcallN, hI'⟩ := hM.call hI ha hcallM
    obtain ⟨rfl, rfl⟩ := hN _ _ _ _ _ _ hcall hcallN
    exact ⟨x', .call hrun hs hcallM, hI'⟩

end

-- ---------------------------------------------------------------------------
-- Images of clients
-- ---------------------------------------------------------------------------

def Move.map (f : S → S') : Move O A S → Move O A S'
  | .halt => .halt
  | .silent s => .silent (f s)
  | .call o k => .call o fun a => f (k a)

def Move.Leads (J : S → Prop) : Move O A S → Prop
  | .halt => True
  | .silent s => J s
  | .call _ k => ∀ a, J (k a)

/-- In the image of a state `c'` does what `c` does in the state, as long as `J`
holds, which it does from then on. -/
structure Mimics (c' : Client O A S') (c : Client O A S) (f : S → S') (J : S → Prop) : Prop where
  move : J s → c' (f s) = (c s).map f
  leads : J s → (c s).Leads J

section
variable {c' : Client O A S'} {c : Client O A S} {f : S → S'} {J : S → Prop} {M : Service O A σ}

theorem Mimics.runs (hc : Mimics c' c f J) (h₀ : J s₀) (hr : Runs c' M (f s₀) x₀ t x out) :
    ∃ s, t = f s ∧ J s ∧ Runs c M s₀ x₀ s x out := by
  induction hr with
  | start => exact ⟨s₀, rfl, h₀, .start⟩
  | between _ hb ih =>
    obtain ⟨s, rfl, hJ, hrun⟩ := ih
    exact ⟨s, rfl, hJ, .between hrun hb⟩
  | silent _ hs ih =>
    obtain ⟨s, rfl, hJ, hrun⟩ := ih
    have hleads := hc.leads hJ
    rw [hc.move hJ] at hs
    cases hm : c s <;> rw [hm] at hs hleads <;> cases hs
    exact ⟨_, rfl, hleads, .silent hrun hm⟩
  | call _ hs hcall ih =>
    obtain ⟨s, rfl, hJ, hrun⟩ := ih
    have hleads := hc.leads hJ
    rw [hc.move hJ] at hs
    cases hm : c s <;> rw [hm] at hs hleads <;> cases hs
    exact ⟨_, rfl, hleads _, .call hrun hm hcall⟩

theorem Mimics.request (hc : Mimics c' c f J) (hJ : J s) (hs : c' (f s) = .call o k) :
    ∃ k', c s = .call o k' := by
  rw [hc.move hJ] at hs
  cases hm : c s <;> rw [hm] at hs <;> cases hs
  exact ⟨_, rfl⟩

theorem Mimics.halts (hc : Mimics c' c f J) (hJ : J s) (hs : c' (f s) = .halt) : c s = .halt := by
  rw [hc.move hJ] at hs
  cases hm : c s <;> rw [hm] at hs <;> cases hs

end

end TrackFM.Lib
