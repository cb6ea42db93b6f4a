import Mathlib.Algebra.Order.Group.Int
import Mathlib.Tactic.Ring
import Mathlib.Tactic.Linarith
import Mathlib.Tactic.Common

/-!
# Walking blocks with a fixed stride

The positions `a + k * d` over blocks of `S` cells, followed by a cursor that
knows a block and a position relative to its start. When the relative position
runs past the block the cursor enters the block `stride` further at its start.
`advance_locate` says when that is where the walk goes.
-/

namespace TrackFM.Lib

structure Cursor where
  block : Int
  rel : Int
  deriving DecidableEq, Repr

def locate (S p : Int) : Cursor := ⟨p / S, p % S⟩

def advance (S stride d : Int) (c : Cursor) : Cursor :=
  if S ≤ c.rel + d then ⟨c.block + stride, 0⟩ else ⟨c.block, c.rel + d⟩

/-- One block a step, or as many whole blocks as the step has. -/
def blockStride (S d : Int) : Int := if d = 0 then 0 else if d < S then 1 else d / S

/-- A step from `p` that enters another block enters it at its start, going up. -/
def EntersAtStart (S d p : Int) : Prop :=
  (p + d) / S ≠ p / S → 0 < d ∧ (p + d) % S = 0 ∧ (S ≤ d → S ∣ d)

instance : Decidable (EntersAtStart S d p) :=
  inferInstanceAs (Decidable ((p + d) / S ≠ p / S → 0 < d ∧ (p + d) % S = 0 ∧ (S ≤ d → S ∣ d)))

variable {S stride a d p : Int} {k n : Nat}

theorem div_mod_unique (h₀ : 0 ≤ r) (h₁ : r < S) (hp : p = S * q + r) : p / S = q ∧ p % S = r := by
  subst hp
  have hS : S ≠ 0 := by omega
  rw [Int.add_comm, Int.add_mul_ediv_left _ _ hS, Int.add_mul_emod_self_left,
    Int.ediv_eq_zero_of_lt h₀ h₁, Int.emod_eq_of_lt h₀ h₁]
  exact ⟨Int.zero_add q, rfl⟩

theorem locate_eq (h₀ : 0 ≤ r) (h₁ : r < S) (hp : p = S * q + r) : locate S p = ⟨q, r⟩ := by
  obtain ⟨hq, hr⟩ := div_mod_unique h₀ h₁ hp
  rw [locate, hq, hr]

theorem entersAtStart_within (h : (p + d) / S = p / S) : EntersAtStart S d p := fun hne =>
  absurd h hne

theorem entersAtStart_entering (h : (p + d) / S ≠ p / S) :
    EntersAtStart S d p ↔ 0 < d ∧ (p + d) % S = 0 ∧ (S ≤ d → S ∣ d) :=
  ⟨fun he => he h, fun he _ => he⟩

/-- The cursor stays right over a step exactly when the step enters at the start. -/
theorem advance_locate (hS : 0 < S) (hstride : 0 < d → stride = blockStride S d) :
    advance S stride d (locate S p) = locate S (p + d) ↔ EntersAtStart S d p := by
  obtain ⟨q, hq⟩ : ∃ q, q = p / S := ⟨_, rfl⟩
  obtain ⟨r, hr⟩ : ∃ r, r = p % S := ⟨_, rfl⟩
  have hr₀ : 0 ≤ r := hr ▸ Int.emod_nonneg _ hS.ne'
  have hr₁ : r < S := hr ▸ Int.emod_lt_of_pos _ hS
  have hp : p = S * q + r := by rw [hq, hr, Int.mul_ediv_add_emod]
  rw [locate_eq hr₀ hr₁ hp]
  show (if S ≤ r + d then (⟨q + stride, 0⟩ : Cursor) else ⟨q, r + d⟩) = _ ↔ _
  by_cases hlow : r + d < 0
  · -- the step leaves the block downwards
    have hne : (p + d) / S ≠ p / S := by
      rw [← hq]
      have : (p + d) / S < q := Int.ediv_lt_of_lt_mul hS (by rw [hp, mul_comm]; omega)
      omega
    rw [if_neg (by omega), entersAtStart_entering hne, locate, Cursor.mk.injEq]
    exact ⟨fun h => absurd (h.1.symm.trans hq) hne, fun h => by omega⟩
  by_cases hhigh : S ≤ r + d
  case neg =>
    have hpd : p + d = S * q + (r + d) := by rw [hp]; ring
    have hin : (p + d) / S = p / S := by
      rw [← hq]
      exact (div_mod_unique (by omega) (by omega) hpd).1
    rw [if_neg hhigh, locate_eq (by omega) (by omega) hpd]
    exact ⟨fun _ => entersAtStart_within hin, fun _ => rfl⟩
  have hd : 0 < d := by omega
  rw [if_pos hhigh, hstride hd, blockStride, if_neg hd.ne']
  by_cases hone : d < S
  · have hpd : p + d = S * (q + 1) + (r + d - S) := by rw [hp]; ring
    obtain ⟨hdiv, hmod⟩ := div_mod_unique (by omega) (by omega) hpd
    have hne : (p + d) / S ≠ p / S := by omega
    rw [if_pos hone, locate, hdiv, entersAtStart_entering hne, hmod, Cursor.mk.injEq]
    constructor
    · rintro ⟨-, h⟩
      exact ⟨hd, h.symm, fun h => by omega⟩
    · rintro ⟨-, h, -⟩
      exact ⟨rfl, h.symm⟩
  rw [if_neg hone]
  obtain ⟨e, he⟩ : ∃ e, e = d / S := ⟨_, rfl⟩
  obtain ⟨f, hf⟩ : ∃ f, f = d % S := ⟨_, rfl⟩
  have hf₀ : 0 ≤ f := hf ▸ Int.emod_nonneg _ hS.ne'
  have hf₁ : f < S := hf ▸ Int.emod_lt_of_pos _ hS
  have hde : d = S * e + f := by rw [he, hf, Int.mul_ediv_add_emod]
  have hdvd : S ∣ d ↔ f = 0 := hf ▸ Int.dvd_iff_emod_eq_zero
  have he₁ : 1 ≤ e := by
    rw [he]
    exact (Int.le_ediv_iff_mul_le hS).mpr (by omega)
  rw [← he]
  by_cases hcarry : r + f < S
  · have hpd : p + d = S * (q + e) + (r + f) := by rw [hp, hde]; ring
    obtain ⟨hdiv, hmod⟩ := div_mod_unique (by omega) hcarry hpd
    have hne : (p + d) / S ≠ p / S := by omega
    rw [locate, hdiv, entersAtStart_entering hne, hmod, Cursor.mk.injEq, hdvd]
    constructor
    · rintro ⟨-, h⟩
      exact ⟨hd, h.symm, fun _ => by omega⟩
    · rintro ⟨-, h, -⟩
      exact ⟨rfl, h.symm⟩
  · have hpd : p + d = S * (q + e + 1) + (r + f - S) := by rw [hp, hde]; ring
    obtain ⟨hdiv, hmod⟩ := div_mod_unique (by omega) (by omega) hpd
    have hne : (p + d) / S ≠ p / S := by omega
    rw [locate, hdiv, entersAtStart_entering hne, hmod, Cursor.mk.injEq, hdvd]
    constructor
    · rintro ⟨h, -⟩
      omega
    · rintro ⟨-, h, h'⟩
      have := h' (by omega)
      omega

/-- An entry at the start is as many blocks further as the cursor moves. -/
theorem entered_block (hS : 0 < S) (hstride : 0 < d → stride = blockStride S d)
    (h : EntersAtStart S d p) (hne : (p + d) / S ≠ p / S) : (p + d) / S = p / S + stride := by
  have hadvance := (advance_locate hS hstride).mpr h
  unfold advance at hadvance
  split at hadvance
  · exact (congrArg Cursor.block hadvance).symm
  · exact absurd (congrArg Cursor.block hadvance).symm hne

theorem blockStride_pos (hS : 0 < S) (hd : 0 < d) : 0 < blockStride S d := by
  unfold blockStride
  rw [if_neg hd.ne']
  split
  · exact Int.one_pos
  · exact (Int.le_ediv_iff_mul_le hS).mpr (by omega)

theorem blockStride_le (hS : 0 < S) (hd : 0 < d) (hne : (p + d) / S ≠ p / S) :
    p / S + blockStride S d ≤ (p + d) / S := by
  unfold blockStride
  rw [if_neg hd.ne']
  split
  · have := Int.ediv_le_ediv hS (show p ≤ p + d by omega)
    omega
  · refine (Int.le_ediv_iff_mul_le hS).mpr ?_
    have h₁ := Int.ediv_mul_le p hS.ne'
    have h₂ := Int.ediv_mul_le d hS.ne'
    rw [Int.add_mul]
    omega

-- ---------------------------------------------------------------------------
-- The walk
-- ---------------------------------------------------------------------------

/-- Each of the first `n` positions enters its block at the start, if it enters one. -/
def Aligned (S a d : Int) (n : Nat) : Prop := ∀ k, k + 1 < n → EntersAtStart S d (a + k * d)

theorem next_position : a + (k + 1 : Nat) * d = a + k * d + d := by
  push_cast
  ring

theorem left_behind (hS : 0 < S) (hne : (a + k * d + d) / S ≠ (a + k * d) / S) (hi : i < k + 1) :
    (a + i * d) / S ≠ (a + k * d + d) / S := by
  have hik : (i : Int) ≤ k := by omega
  rcases le_total 0 d with hd | hd
  · have h₁ := Int.mul_le_mul_of_nonneg_right hik hd
    have h₂ := Int.ediv_le_ediv hS (show a + i * d ≤ a + k * d by omega)
    have h₃ := Int.ediv_le_ediv hS (show a + k * d ≤ a + k * d + d by omega)
    omega
  · have h₁ := Int.mul_le_mul_of_nonpos_right hik hd
    have h₂ := Int.ediv_le_ediv hS (show a + k * d ≤ a + i * d by omega)
    have h₃ := Int.ediv_le_ediv hS (show a + k * d + d ≤ a + k * d by omega)
    omega

theorem first_wrong (h : ¬Aligned S a d n) :
    ∃ k, k + 1 < n ∧ (∀ i < k, EntersAtStart S d (a + i * d)) ∧ ¬EntersAtStart S d (a + k * d) := by
  classical
  have hex : ∃ k, k + 1 < n ∧ ¬EntersAtStart S d (a + k * d) := by
    simpa [Aligned, not_forall] using h
  refine ⟨Nat.find hex, (Nat.find_spec hex).1, fun i hi => ?_, (Nat.find_spec hex).2⟩
  have hlt := (Nat.find_spec hex).1
  by_contra hno
  exact Nat.find_min hex hi ⟨by omega, hno⟩

theorem entering_mod (hS : 0 < S) (hd₀ : 0 < d) (hd₁ : d < S) (hne : (p + d) / S ≠ p / S) :
    (p + d) / S = p / S + 1 ∧ (p + d) % S = p % S + d - S := by
  have hr₀ := Int.emod_nonneg p hS.ne'
  have hr₁ := Int.emod_lt_of_pos p hS
  have hp : p + d = S * (p / S) + (p % S + d) := by
    rw [← Int.add_assoc, Int.mul_ediv_add_emod]
  by_cases hin : p % S + d < S
  · exact absurd (div_mod_unique (by omega) hin hp).1 hne
  · exact div_mod_unique (by omega) (by omega) (by rw [hp]; ring)

theorem stays (h : ∀ j < k, (a + j * d) / S = a / S → (a + j * d + d) / S = (a + j * d) / S)
    (hi : i ≤ k) : (a + i * d) / S = a / S := by
  induction i with
  | zero => simp
  | succ i ih =>
    have hi' := ih (by omega)
    rw [next_position, h i hi hi', hi']

theorem dvd_of_starts (hS : 0 < S) (hd₀ : 0 < d) (hd₁ : d < S) (ha : S ∣ a)
    (hj : (a + j * d) / S = a / S) (hne : (a + j * d + d) / S ≠ (a + j * d) / S)
    (hzero : (a + j * d + d) % S = 0) : d ∣ S := by
  obtain ⟨hdiv, -⟩ := entering_mod hS hd₀ hd₁ hne
  have h₁ := Int.mul_ediv_add_emod (a + j * d + d) S
  have h₂ := Int.mul_ediv_cancel' ha
  rw [hdiv, hzero, hj] at h₁
  exact ⟨j + 1, by linarith⟩

theorem entersAtStart_of_dvd (hS : 0 < S) (hd₀ : 0 < d) (hd₁ : d < S) (hdS : d ∣ S) (hp : d ∣ p) :
    EntersAtStart S d p := by
  intro hne
  obtain ⟨-, hrem⟩ := entering_mod hS hd₀ hd₁ hne
  have hr₁ := Int.emod_lt_of_pos p hS
  have hr₀ := Int.emod_nonneg (p + d) hS.ne'
  have hdvd : d ∣ (p + d) % S := by
    rw [Int.emod_def]
    exact Int.dvd_sub (Int.dvd_add hp (dvd_refl d)) (hdS.mul_right _)
  exact ⟨hd₀, Int.eq_zero_of_dvd_of_nonneg_of_lt hr₀ (by omega) hdvd, fun hge => by omega⟩

/-- Where it goes wrong the walk has been in two blocks at most: after a second
entry at a start every entry is at one. -/
theorem few_blocks (hS : 0 < S) (h : ∀ i < k, EntersAtStart S d (a + i * d))
    (hk : ¬EntersAtStart S d (a + k * d)) :
    ∃ b, ∀ i ≤ k, (a + i * d) / S = a / S ∨ (a + i * d) / S = b := by
  classical
  by_cases hex : ∃ i : Nat, i < k ∧ (a + i * d + d) / S ≠ (a + i * d) / S
  case neg =>
    exact ⟨0, fun i hi => .inl (stays (fun j hj _ => by_contra fun hne => hex ⟨j, hj, hne⟩) hi)⟩
  -- the first entry, at the start `c`
  obtain ⟨hik, hentry⟩ := Nat.find_spec hex
  have hbefore : ∀ j ≤ Nat.find hex, (a + j * d) / S = a / S := fun j hj =>
    stays (fun j hj _ => by_contra fun hne => Nat.find_min hex hj ⟨by omega, hne⟩) hj
  generalize Nat.find hex = i at hik hentry hbefore
  obtain ⟨hd, hmod, hdvd⟩ := h i hik hentry
  have hstart := Int.dvd_of_emod_eq_zero hmod
  generalize hc : a + i * d + d = c at hstart
  have hat : ∀ n : Nat, a + (i + 1 + n : Nat) * d = c + n * d := by
    intro n
    rw [← hc]
    push_cast
    ring
  obtain ⟨l, rfl⟩ : ∃ l, k = i + 1 + l := ⟨k - (i + 1), by omega⟩
  have hlt : d < S := by
    by_contra hge
    refine hk fun _ => ⟨hd, Int.emod_eq_zero_of_dvd ?_, hdvd⟩
    have hstep := hdvd (by omega)
    rw [hat]
    exact Int.dvd_add (Int.dvd_add hstart (hstep.mul_left _)) hstep
  have hnot : ¬d ∣ S := by
    intro hdS
    refine hk (entersAtStart_of_dvd hS hd hlt hdS ?_)
    rw [hat]
    exact Int.dvd_add (hdS.trans hstart) (dvd_mul_left ..)
  refine ⟨c / S, fun j hj => ?_⟩
  by_cases hji : j ≤ i
  · exact .inl (hbefore j hji)
  obtain ⟨n, rfl⟩ : ∃ n, j = i + 1 + n := ⟨j - (i + 1), by omega⟩
  refine .inr ?_
  rw [hat]
  refine stays (k := l) (fun n hn hin => ?_) (by omega)
  by_contra hne
  -- a second entry at a start: the step divides the block
  have hn' := h (i + 1 + n) (by omega)
  rw [hat] at hn'
  exact hnot (dvd_of_starts hS hd hlt hstart hin hne (hn' hne).2.1)

end TrackFM.Lib
