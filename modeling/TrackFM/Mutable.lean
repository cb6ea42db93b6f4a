import TrackFM.Ir
import Mathlib.Logic.Relation

/-!
# Loops opened read-only

`is_mutable` of the carm_loop_checks pass walks the users of a GEP through
casts, three deep. A loop whose GEP it calls immutable reads its objects without
marking them dirty. The walk skips PHIs, selects, returns, indirect calls and
the GEPs on the candidate itself; the answer is right exactly when the walk
meets something else it calls a mutation, or the users it skips are harmless.
-/

namespace TrackFM

namespace Func

variable {f : Func} {v i origGep : Fin f.size} {seen : Finset (Fin f.size)}

def carmDerefDummy : String := "_Z10carm_derefPv"

-- ---------------------------------------------------------------------------
-- is_mutable
-- ---------------------------------------------------------------------------

def scanUsers (f : Func) (origGep v : Fin f.size)
    (visit : Fin f.size → Finset (Fin f.size) → Bool × Finset (Fin f.size)) :
    List (Fin f.size) → Finset (Fin f.size) → Bool × Finset (Fin f.size)
  | [], seen => (false, seen)
  | i :: us, seen =>
    if i ∈ seen then scanUsers f origGep v visit us seen
    else match f.inst i with
      | .store _ _ => (true, seen)
      | .gep _ _ =>
        if origGep ≠ v then (true, seen) else scanUsers f origGep v visit us seen
      | .bitcast _ | .cast _ =>
        let (isMut, seen) := visit i seen
        if isMut then (true, seen) else scanUsers f origGep v visit us seen
      | .call (some fp) _ | .invoke (some fp) _ =>
        if fp ≠ carmDerefDummy then (true, seen) else scanUsers f origGep v visit us seen
      | _ => scanUsers f origGep v visit us seen

/-- `is_mutable`, with the set of seen instructions as it leaves it. -/
def isMutable (f : Func) (origGep : Fin f.size) :
    Nat → Fin f.size → Finset (Fin f.size) → Bool × Finset (Fin f.size)
  | 0, ins, seen => if ins ∈ seen then (false, seen) else (true, insert ins seen)
  | depth + 1, ins, seen =>
    if ins ∈ seen then (false, seen)
    else scanUsers f origGep ins (isMutable f origGep depth) (f.users ins) (insert ins seen)

-- ---------------------------------------------------------------------------
-- What it looks for
-- ---------------------------------------------------------------------------

def Alarming (f : Func) (origGep v i : Fin f.size) : Prop :=
  match f.inst i with
  | .store _ _ => True
  | .gep _ _ => origGep ≠ v
  | .call (some fp) _ | .invoke (some fp) _ => fp ≠ carmDerefDummy
  | _ => False

abbrev CastOf (f : Func) (v i : Fin f.size) : Prop := (f.inst i).castOp = some v

theorem castOf_mem (h : CastOf f v i) : v ∈ (f.inst i).operands := by
  rcases Inst.castOp_eq.mp h with hk | hk <;> simp [hk, Inst.operands]

/-- A mutation shows within `depth` casts of `v`, or the casts go on to that depth. -/
def Visible (f : Func) (origGep : Fin f.size) : Nat → Fin f.size → Prop
  | 0, _ => True
  | depth + 1, v => ∃ i ∈ f.users v,
    Alarming f origGep v i ∨ (CastOf f v i ∧ Visible f origGep depth i)

abbrev CastsTo (f : Func) : Fin f.size → Fin f.size → Prop := Relation.ReflTransGen (CastOf f)

theorem CastsTo.le (h : CastsTo f v x) : v ≤ x := by
  induction h with
  | refl => exact le_refl v
  | tail _ hc ih => exact ih.trans (castOp_lt hc).le

theorem CastsTo.sibling {j x : Fin f.size} (hi : CastOf f v i) (hj : CastOf f v j)
    (h₁ : CastsTo f i x) (h₂ : CastsTo f j x) : i = j := by
  have hv : ∀ {k}, CastOf f v k → ¬CastsTo f k v := fun hk h =>
    absurd (castOp_lt hk) (not_lt.mpr h.le)
  induction h₁ with
  | refl =>
    cases h₂ with
    | refl => rfl
    | tail hp hc =>
      cases hi.symm.trans hc
      exact absurd hp (hv hj)
  | @tail y x hp hc ih =>
    cases h₂ with
    | refl =>
      cases hj.symm.trans hc
      exact absurd hp (hv hi)
    | tail hp' hc' =>
      cases hc.symm.trans hc'
      exact ih hp'

theorem CastsTo.cast (h : CastsTo f v x) : x = v ∨ ∃ op, CastOf f op x := by
  cases h with
  | refl => exact .inl rfl
  | tail _ hc => exact .inr ⟨_, hc⟩

section
variable {visit : Fin f.size → Finset (Fin f.size) → Bool × Finset (Fin f.size)}
  {us : List (Fin f.size)}

theorem scanUsers_seen (hi : i ∈ seen) :
    scanUsers f origGep v visit (i :: us) seen = scanUsers f origGep v visit us seen := by
  rw [scanUsers, if_pos hi]

theorem scanUsers_alarm (hi : i ∉ seen) (h : Alarming f origGep v i) :
    scanUsers f origGep v visit (i :: us) seen = (true, seen) := by
  rw [scanUsers, if_neg hi]
  rw [Alarming] at h
  split at h <;> simp_all

theorem scanUsers_cast (hi : i ∉ seen) (h : CastOf f op i) :
    scanUsers f origGep v visit (i :: us) seen =
      if (visit i seen).1 then (true, (visit i seen).2)
      else scanUsers f origGep v visit us (visit i seen).2 := by
  rw [scanUsers, if_neg hi]
  rcases Inst.castOp_eq.mp h with hk | hk <;> rw [hk]

theorem scanUsers_skip (h : ¬Alarming f origGep v i) (hc : ∀ op, ¬CastOf f op i) :
    scanUsers f origGep v visit (i :: us) seen = scanUsers f origGep v visit us seen := by
  rw [scanUsers]
  split
  · rfl
  · rw [Alarming] at h
    split <;> simp_all [Inst.castOp_eq]

theorem Alarming.not_cast (h : Alarming f origGep v i) : ∀ op, ¬CastOf f op i := by
  intro op hc
  rcases Inst.castOp_eq.mp hc with hk | hk <;> simp [Alarming, hk] at h

structure Walked (f : Func) (origGep : Fin f.size) (depth : Nat) (v : Fin f.size)
    (seen : Finset (Fin f.size)) (r : Bool × Finset (Fin f.size)) : Prop where
  answer : r.1 = true ↔ Visible f origGep depth v
  grows : seen ⊆ r.2
  self : v ∈ r.2
  tree : ∀ x ∈ r.2, x ∈ seen ∨ CastsTo f v x

/-- The users of `v` the loop has before it: none of the casts below an unseen one
is seen. -/
structure Pending (f : Func) (origGep : Fin f.size) (depth : Nat) (v : Fin f.size)
    (us : List (Fin f.size)) (seen : Finset (Fin f.size)) : Prop where
  casts : ∀ x ∈ seen, x = origGep ∨ ∃ op, CastOf f op x
  user : ∀ i ∈ us, ∀ op, CastOf f op i → op = v
  others : ∀ i ∈ us, (∀ op, ¬CastOf f op i) → i ∉ seen
  below : ∀ i ∈ us, CastOf f v i →
    (∀ x, CastsTo f i x → x ∉ seen) ∨ (i ∈ seen ∧ ¬Visible f origGep depth i)

theorem Pending.tail (hp : Pending f origGep depth v (i :: us) seen) :
    Pending f origGep depth v us seen where
  casts := hp.casts
  user j hj := hp.user j (List.mem_cons_of_mem _ hj)
  others j hj := hp.others j (List.mem_cons_of_mem _ hj)
  below j hj := hp.below j (List.mem_cons_of_mem _ hj)

theorem Pending.visited (hp : Pending f origGep depth v (i :: us) seen) (hi : CastOf f v i)
    (hw : Walked f origGep depth i seen (isMut, seen')) (hmut : ¬Visible f origGep depth i) :
    Pending f origGep depth v us seen' where
  casts x hx := by
    rcases hw.tree x hx with hx | hx
    · exact hp.casts x hx
    · rcases hx.cast with rfl | hx
      · exact .inr ⟨v, hi⟩
      · exact .inr hx
  user j hj := hp.user j (List.mem_cons_of_mem _ hj)
  others j hj hno hx := by
    rcases hw.tree j hx with hx | hx
    · exact hp.others j (List.mem_cons_of_mem _ hj) hno hx
    · rcases hx.cast with rfl | ⟨op, hop⟩
      · exact hno v hi
      · exact hno op hop
  below j hj hc := by
    by_cases hji : j = i
    · subst hji
      exact .inr ⟨hw.self, hmut⟩
    · rcases hp.below j (List.mem_cons_of_mem _ hj) hc with hclear | ⟨hs, hn⟩
      · refine .inl fun x hx hxs => ?_
        rcases hw.tree x hxs with hxs | hxs
        · exact hclear x hx hxs
        · exact hji (hx.sibling hc hi hxs)
      · exact .inr ⟨hw.grows hs, hn⟩

theorem scanUsers_spec (hp : Pending f origGep depth v us seen)
    (hvisit : ∀ i seen, CastOf f v i → (∀ x, CastsTo f i x → x ∉ seen) →
      (∀ x ∈ seen, x = origGep ∨ ∃ op, CastOf f op x) →
      Walked f origGep depth i seen (visit i seen)) :
    ((scanUsers f origGep v visit us seen).1 = true ↔
      ∃ i ∈ us, Alarming f origGep v i ∨ (CastOf f v i ∧ Visible f origGep depth i)) ∧
    seen ⊆ (scanUsers f origGep v visit us seen).2 ∧
    ∀ x ∈ (scanUsers f origGep v visit us seen).2, x ∈ seen ∨ ∃ i, CastOf f v i ∧ CastsTo f i x := by
  induction us generalizing seen with
  | nil => exact ⟨by simp [scanUsers], Finset.Subset.refl _, fun _ => .inl⟩
  | cons i us ih =>
    simp only [List.exists_mem_cons_iff]
    by_cases hal : Alarming f origGep v i
    · rw [scanUsers_alarm (hp.others i (List.mem_cons_self ..) hal.not_cast) hal]
      exact ⟨⟨fun _ => .inl (.inl hal), fun _ => rfl⟩, Finset.Subset.refl _, fun _ => .inl⟩
    by_cases hcast : CastOf f v i
    case neg =>
      have hno : ∀ op, ¬CastOf f op i := fun op hop =>
        hcast (hp.user i (List.mem_cons_self ..) op hop ▸ hop)
      rw [scanUsers_skip hal hno]
      simpa only [hal, hcast, false_and, or_false, false_or] using ih hp.tail
    rcases hp.below i (List.mem_cons_self ..) hcast with hclear | ⟨hs, hn⟩
    case inr =>
      rw [scanUsers_seen hs]
      simpa only [hal, hn, and_false, or_false, false_or] using ih hp.tail
    have hw := hvisit i seen hcast hclear hp.casts
    rw [scanUsers_cast (hclear i .refl) hcast]
    by_cases hmut : Visible f origGep depth i
    · rw [if_pos (hw.answer.mpr hmut)]
      exact ⟨⟨fun _ => .inl (.inr ⟨hcast, hmut⟩), fun _ => rfl⟩, hw.grows, fun x hx =>
        (hw.tree x hx).imp_right fun hx => ⟨i, hcast, hx⟩⟩
    · rw [if_neg (mt hw.answer.mp hmut)]
      obtain ⟨h₁, h₂, h₃⟩ := ih (hp.visited hcast hw hmut)
      refine ⟨?_, hw.grows.trans h₂, fun x hx => ?_⟩
      · simpa only [hal, hmut, and_false, or_false, false_or] using h₁
      · rcases h₃ x hx with hx | hx
        · exact (hw.tree x hx).imp_right fun hx => ⟨i, hcast, hx⟩
        · exact .inr hx

end

theorem Pending.users (hgep : f.inst origGep = .gep base indices) (hv : CastsTo f origGep v)
    (hclear : ∀ x, CastsTo f v x → x ∉ seen)
    (hcasts : ∀ x ∈ seen, x = origGep ∨ ∃ op, CastOf f op x) :
    Pending f origGep depth v (f.users v) (insert v seen) where
  casts x hx := by
    rcases Finset.mem_insert.mp hx with rfl | hx
    · exact hv.cast
    · exact hcasts x hx
  user i hi op hop := by
    have hmem := (f.mem_users v i).mp hi
    rcases Inst.castOp_eq.mp hop with hk | hk <;> rw [hk] at hmem <;>
      exact (List.mem_singleton.mp hmem).symm
  others i hi hno hx := by
    -- the candidate and the casts are not users of what comes after them
    have hi : i = origGep := by
      rcases Finset.mem_insert.mp hx with rfl | hx
      · exact hv.cast.resolve_right fun ⟨op, hop⟩ => hno op hop
      · exact (hcasts i hx).resolve_right fun ⟨op, hop⟩ => hno op hop
    subst hi
    have hlt := f.ordered i (by rw [hgep]; rfl) v ((f.mem_users v i).mp ‹_›)
    exact absurd hv.le (not_le.mpr hlt)
  below i _ hc := by
    refine .inl fun x hx hmem => ?_
    rcases Finset.mem_insert.mp hmem with rfl | hmem
    · exact absurd hx.le (not_le.mpr (castOp_lt hc))
    · exact hclear x (.head hc hx) hmem

/-- The set of seen instructions does not change the answer. -/
theorem isMutable_walked (hgep : f.inst origGep = .gep base indices) (hv : CastsTo f origGep v)
    (hclear : ∀ x, CastsTo f v x → x ∉ seen)
    (hcasts : ∀ x ∈ seen, x = origGep ∨ ∃ op, CastOf f op x) :
    Walked f origGep depth v seen (isMutable f origGep depth v seen) := by
  induction depth generalizing v seen with
  | zero =>
    rw [isMutable, if_neg (hclear v .refl)]
    refine ⟨⟨fun _ => trivial, fun _ => rfl⟩, Finset.subset_insert .., Finset.mem_insert_self ..,
      fun x hx => ?_⟩
    rcases Finset.mem_insert.mp hx with rfl | hx
    · exact .inr .refl
    · exact .inl hx
  | succ depth ih =>
    rw [isMutable, if_neg (hclear v .refl)]
    obtain ⟨h₁, h₂, h₃⟩ := scanUsers_spec (.users hgep hv hclear hcasts)
      fun i seen hi hc hcs => ih (hv.tail hi) hc hcs
    refine ⟨h₁, (Finset.subset_insert ..).trans h₂, h₂ (Finset.mem_insert_self ..), fun x hx => ?_⟩
    rcases h₃ x hx with hx | ⟨i, hi, hx⟩
    · rcases Finset.mem_insert.mp hx with rfl | hx
      · exact .inr .refl
      · exact .inl hx
    · exact .inr (.head hi hx)

theorem isMutable_iff (hgep : f.inst origGep = .gep base indices) :
    (isMutable f origGep depth origGep ∅).1 = true ↔ Visible f origGep depth origGep :=
  (isMutable_walked hgep .refl (fun _ _ => Finset.notMem_empty _)
    fun _ hx => absurd hx (Finset.notMem_empty _)).answer

-- ---------------------------------------------------------------------------
-- What a read-only loop must not do
-- ---------------------------------------------------------------------------

def DerivedFrom (f : Func) (v i : Fin f.size) : Prop :=
  match f.inst i with
  | .bitcast op | .cast op => op = v
  | .gep base _ => base = v
  | .phi incoming => v ∈ incoming
  | .select a b => a = v ∨ b = v
  | _ => False

abbrev Derived (f : Func) : Fin f.size → Fin f.size → Prop := Relation.ReflTransGen (DerivedFrom f)

def Harms (f : Func) (inLoop : Fin f.size → Bool) (v i : Fin f.size) : Prop :=
  match f.inst i with
  | .store value ptr => (ptr = v ∧ inLoop i = true) ∨ value = v
  | .call callee args | .invoke callee args => v ∈ args ∧ callee ≠ some carmDerefDummy
  | .ret value => value = v
  | _ => False

def Untouched (f : Func) (inLoop : Fin f.size → Bool) (v : Fin f.size) : Prop :=
  ∀ d, Derived f v d → ∀ i, ¬Harms f inLoop d i

/-- The users the walk skips are harmless: no return, no indirect call, and the
pointers made by PHIs, selects and GEPs are untouched. -/
def Quiet (f : Func) (inLoop : Fin f.size → Bool) : Nat → Fin f.size → Prop
  | 0, _ => True
  | depth + 1, v => ∀ i ∈ f.users v, match f.inst i with
    | .ret _ | .call none _ | .invoke none _ => False
    | .phi _ | .select _ _ => Untouched f inLoop i
    | .gep base _ => base = v → Untouched f inLoop i
    | .bitcast _ | .cast _ => Quiet f inLoop depth i
    | _ => True

variable {inLoop : Fin f.size → Bool}

theorem Untouched.derived (hu : Untouched f inLoop v) (h : DerivedFrom f v i) :
    Untouched f inLoop i := fun d hd => hu d (.head h hd)

theorem Untouched.quiet (hu : Untouched f inLoop v) : Quiet f inLoop depth v := by
  induction depth generalizing v with
  | zero => trivial
  | succ depth ih =>
    intro i hi
    have hmem := (f.mem_users v i).mp hi
    split
    next hk =>
      rw [hk] at hmem
      exact hu v .refl i (by rw [Harms, hk]; exact (List.mem_singleton.mp hmem).symm)
    next hk =>
      rw [hk] at hmem
      exact hu v .refl i (by rw [Harms, hk]; exact ⟨hmem, nofun⟩)
    next hk =>
      rw [hk] at hmem
      exact hu v .refl i (by rw [Harms, hk]; exact ⟨hmem, nofun⟩)
    next hk =>
      rw [hk] at hmem
      exact hu.derived (by rw [DerivedFrom, hk]; exact hmem)
    next hk =>
      rw [hk] at hmem
      exact hu.derived (by rw [DerivedFrom, hk]; simpa [Inst.operands, eq_comm] using hmem)
    next hk => exact fun hb => hu.derived (by rw [DerivedFrom, hk]; exact hb)
    next hk =>
      rw [hk] at hmem
      exact ih (hu.derived (by rw [DerivedFrom, hk]; exact (List.mem_singleton.mp hmem).symm))
    next hk =>
      rw [hk] at hmem
      exact ih (hu.derived (by rw [DerivedFrom, hk]; exact (List.mem_singleton.mp hmem).symm))
    next => trivial

theorem Harms.met (h : Harms f inLoop v i) (hn : ¬Visible f origGep (depth + 1) v)
    (hq : Quiet f inLoop (depth + 1) v) : False := by
  have hal : i ∈ f.users v → ¬Alarming f origGep v i := fun hi ha => hn ⟨i, hi, .inl ha⟩
  have hqi := hq i
  rw [f.mem_users] at hal hqi
  rw [Harms] at h
  split at h
  next value ptr hk =>
    simp only [Alarming, hk, Inst.operands] at hal
    exact hal (by rcases h with ⟨rfl, -⟩ | rfl <;> simp) trivial
  next callee args hk =>
    simp only [Alarming, hk, Inst.operands] at hal hqi
    cases callee with
    | none => exact hqi h.1
    | some fp => exact hal h.1 fun he => h.2 (congrArg some he)
  next callee args hk =>
    simp only [Alarming, hk, Inst.operands] at hal hqi
    cases callee with
    | none => exact hqi h.1
    | some fp => exact hal h.1 fun he => h.2 (congrArg some he)
  next value hk =>
    simp only [hk, Inst.operands] at hqi
    exact hqi (List.mem_singleton.mpr h.symm)
  next => exact h

theorem Quiet.untouched (hq : Quiet f inLoop depth v) (hn : ¬Visible f origGep depth v) :
    Untouched f inLoop v := by
  induction depth generalizing v with
  | zero => exact absurd trivial hn
  | succ depth ih =>
    intro d hd i hi
    rcases hd.cases_head with rfl | ⟨u, hu, hd⟩
    · exact hi.met hn hq
    · have hqu := hq u
      have hcast : CastOf f v u → ¬Visible f origGep depth u := fun hc hv =>
        hn ⟨u, (f.mem_users v u).mpr (castOf_mem hc), .inr ⟨hc, hv⟩⟩
      rw [f.mem_users] at hqu
      rw [DerivedFrom] at hu
      split at hu
      next op hk =>
        simp only [CastOf, hk, Inst.operands, Inst.castOp] at hcast hqu
        exact ih (hqu (by simp [hu])) (hcast (congrArg some hu)) d hd i hi
      next op hk =>
        simp only [CastOf, hk, Inst.operands, Inst.castOp] at hcast hqu
        exact ih (hqu (by simp [hu])) (hcast (congrArg some hu)) d hd i hi
      next base indices hk =>
        simp only [hk, Inst.operands] at hqu
        exact hqu (by simp [hu]) hu d hd i hi
      next incoming hk =>
        simp only [hk, Inst.operands] at hqu
        exact hqu hu d hd i hi
      next a b hk =>
        simp only [hk, Inst.operands] at hqu
        exact hqu (by rcases hu with rfl | rfl <;> simp) d hd i hi
      next => exact hu

/-- A GEP called immutable is left alone exactly when the walk finds a mutation or
the users it skips are harmless. -/
theorem readOnly_iff (hgep : f.inst origGep = .gep base indices) :
    ((isMutable f origGep 3 origGep ∅).1 = false → Untouched f inLoop origGep) ↔
      Visible f origGep 3 origGep ∨ Quiet f inLoop 3 origGep := by
  rw [← isMutable_iff hgep]
  cases hm : (isMutable f origGep 3 origGep ∅).1 with
  | true => simp
  | false =>
    have hn : ¬Visible f origGep 3 origGep := by
      rw [← isMutable_iff hgep, hm]
      nofun
    simp only [forall_const, Bool.false_eq_true, false_or]
    exact ⟨fun hu => hu.quiet, fun hq => hq.untouched hn⟩

/-- `p = gep argument; load p` -/
abbrev readField : Func := .ofInsts 3 ![.argument, .gep 0 [], .load 1] (by decide)

theorem readOnly_readField : (isMutable readField 1 3 1 ∅).1 = false ∧
    Untouched readField (fun _ => true) 1 := by
  have hm : (isMutable readField 1 3 1 ∅).1 = false := by decide
  refine ⟨hm, (readOnly_iff rfl).mpr (.inr fun i hi => ?_) hm⟩
  have hi : i = 2 := by
    revert i
    decide
  subst hi
  trivial

/-- `p = gep argument; q = gep p; store constant, q` -/
abbrev writeField : Func :=
  .ofInsts 5 ![.argument, .constant, .gep 0 [], .gep 2 [], .store 1 3] (by decide)

/-- A store through a GEP on the candidate goes unseen. -/
theorem nested_store_unseen : ¬∀ (f : Func) inLoop (gep : Fin f.size),
    (∃ base indices, f.inst gep = .gep base indices) →
    (isMutable f gep 3 gep ∅).1 = false → Untouched f inLoop gep := by
  intro h
  have hu := h writeField (fun _ => true) 2 ⟨0, [], rfl⟩ (by decide)
  exact hu 3 (.single rfl) 4 (.inl ⟨rfl, rfl⟩)

end Func

end TrackFM
