import TrackFM.Splice

/-!
# PHI nodes and runs of a chunked loop

What chunking the GEPs of a loop leaves of its PHI nodes, of the way into it
and of its back edge, and for which loops that is what it should be.
-/

namespace TrackFM

open Lib (Terminator Phi Cfg)
open Transform

variable {V : Type}

/-- The loop after `n` rounds with the outer header `o`. -/
structure WellSpliced (f : Cfg V) (o : Nat) (ls : LoopStructure) (latch n : Nat) (s : Transform V) :
    Prop where
  phis : ∀ b, b ∈ ls.basicBlocks ∨ o ≤ b ∧ b < s.next → ∀ φ ∈ s.cfg.phis b, s.cfg.Matches b φ
  outer : ∀ a, o ∈ s.cfg.succs a → a = ls.preHeader
  entering : s.cfg.Inevitable ls.header ls.preHeader
  /-- Entering the loop runs the outer header and all of its inits once. -/
  inits : ∀ bs, s.cfg.Crossing ls.header ls.preHeader bs →
    bs.count o = 1 ∧ ∀ k < n, (bs.flatMap s.code).count (.loopInit k) = 1
  /-- What was a back edge goes through every check once. -/
  checks : ∀ i : Nat, (f.succs latch)[i]? = some ls.header → ∃ c, (s.cfg.succs latch)[i]? = some c ∧
    s.cfg.Inevitable ls.header c ∧ ∀ bs, s.cfg.Crossing ls.header c bs →
      ∀ k < n, (bs.flatMap s.code).count (.counterCmp k) = 1
  /-- The PHI nodes of the header receive what they did. -/
  values : ∀ (j : Nat) (φ : Phi V), (f.phis ls.header)[j]? = some φ → ∃ ψ, (s.cfg.phis ls.header)[j]? = some ψ ∧
    ψ.name = .original φ.name ∧ ψ.values o = (φ.values ls.preHeader).map .original ∧
    ∀ e ≠ o, ls.header ∈ s.cfg.succs e → ψ.values e = (φ.values latch).map .original

/-- The loops that stay well formed: both edges to the header are edges of
branches, no other block of the loop takes values from the latch, and the header
takes none of the GEPs. -/
structure Spliceable (f : Cfg V) (ls : LoopStructure) (latch : Nat) (gs : List (GepRequest V)) :
    Prop where
  preHeader_branch : (f.term ls.preHeader).IsBranch
  latch_branch : (f.term latch).IsBranch
  phis : ∀ b ∈ ls.basicBlocks, b ≠ ls.header → b ∈ f.succs latch → f.phis b = []
  uses : ∀ φ ∈ f.phis ls.header, ∀ v ∈ φ.values ls.preHeader ++ φ.values latch, ∀ g ∈ gs, g.1 ≠ v

section
variable {f : Cfg V} {o latch : Nat} {ls : LoopStructure}

theorem Simplified.edges (h : Simplified f o ls latch) (a : Nat) :
    (f.succs a).count ls.header = [ls.preHeader, latch].count a := by
  by_cases hp : a = ls.preHeader
  · subst hp
    simp [h.preHeader_succs, h.latch_ne]
  · by_cases hl : a = latch
    · subst hl
      simp [h.backEdge, h.latch_ne.symm]
    · rw [List.count_eq_zero.mpr fun hm => (h.entries a hm).elim hp hl]
      simp [Ne.symm hp, Ne.symm hl]

theorem Simplified.header_phis (h : Simplified f o ls latch) (hφ : φ ∈ f.phis ls.header) :
    φ.sources.Perm [ls.preHeader, latch] :=
  (Cfg.matches_iff_perm h.edges).mp (h.phis _ h.header_mem φ hφ)

theorem Simplified.preHeader_ne (h : Simplified f o ls latch) : ls.preHeader ≠ ls.header := fun he =>
  h.preHeader_not_mem (he ▸ h.header_mem)

theorem sourceBB_ne_latch (h : Simplified f o ls latch) {n : Nat} (hn : 0 < n) (a : Nat) :
    sourceBB ls o latch n a ≠ latch := by
  have hlo := h.latch_lt
  obtain ⟨m, rfl⟩ := Nat.exists_eq_add_one.mpr hn
  rw [sourceBB, backBB]
  split
  · omega
  · split
    · simp only [entryBB]
      omega
    · assumption

variable [DecidableEq V] {gs : List (GepRequest V)} {s : Transform V}

namespace Spliced

theorem blocks (hs : Spliced f o ls latch gs s) {P : Nat → Prop} (hpre : P ls.preHeader)
    (hlatch : P latch) (outer : P o) (entry : ∀ k < gs.length, P (entryBB o k))
    (body : ∀ k < gs.length, P (bodyBB o k)) (check : ∀ k < gs.length, P (checkBB o k))
    (others : ∀ a, s.cfg.term a = f.term a → a ≠ ls.preHeader → a ≠ latch →
      a < o ∨ s.next ≤ a → P a) (a : Nat) : P a := by
  by_cases hp : a = ls.preHeader
  · exact hp ▸ hpre
  by_cases hl : a = latch
  · exact hl ▸ hlatch
  by_cases hold : a < o ∨ s.next ≤ a
  · exact others a (hs.others a hp hl hold) hp hl hold
  rw [hs.next] at hold
  by_cases ho : a = o
  · exact ho ▸ outer
  -- the block of a round
  have hk : (a - (o + 1)) / 3 < gs.length := by omega
  have hr : a = entryBB o ((a - (o + 1)) / 3) ∨ a = bodyBB o ((a - (o + 1)) / 3) ∨
      a = checkBB o ((a - (o + 1)) / 3) := by
    simp only [entryBB, bodyBB, checkBB]
    omega
  rcases hr with hr | hr | hr
  · exact hr ▸ entry _ hk
  · exact hr ▸ body _ hk
  · exact hr ▸ check _ hk

theorem succs_preHeader (h : Simplified f o ls latch) (hs : Spliced f o ls latch gs s)
    (hp : (f.term ls.preHeader).IsBranch) : s.cfg.succs ls.preHeader = [o] := by
  have hsuccs := h.preHeader_succs
  rw [Cfg.succs] at hsuccs
  rw [Cfg.succs, hs.preHeader_term, Terminator.redirect_succs hp, hsuccs]
  rfl

theorem succs_latch (hs : Spliced f o ls latch gs s) (hl : (f.term latch).IsBranch) (hgs : gs ≠ []) :
    s.cfg.succs latch = (f.succs latch).map fun b => if b = ls.header then checkBB o 0 else b := by
  rw [Cfg.succs, hs.latch_term, if_neg hgs, Terminator.redirect_succs hl]

theorem succs_outer (hs : Spliced f o ls latch gs s) : s.cfg.succs o = [ls.header] := by
  rw [Cfg.succs, hs.outer]
  rfl

theorem succs_entry (hs : Spliced f o ls latch gs s) (hk : k < gs.length) :
    s.cfg.succs (entryBB o k) = [nextBB ls o gs.length (k + 1)] := by
  rw [Cfg.succs, hs.entry k hk]
  rfl

theorem succs_body (hs : Spliced f o ls latch gs s) (hk : k < gs.length) :
    s.cfg.succs (bodyBB o k) = [entryBB o k] := by
  rw [Cfg.succs, hs.body k hk]
  rfl

theorem succs_check (hs : Spliced f o ls latch gs s) (hk : k < gs.length) :
    s.cfg.succs (checkBB o k) = [bodyBB o k, entryBB o k] := by
  rw [Cfg.succs, hs.check k hk]
  rfl

theorem header_edges (h : Simplified f o ls latch) (hs : Spliced f o ls latch gs s)
    (hp : (f.term ls.preHeader).IsBranch) (hl : (f.term latch).IsBranch) (hgs : gs ≠ []) (a : Nat) :
    (s.cfg.succs a).count ls.header = [o, backBB o latch gs.length].count a := by
  have hho := h.header_lt
  have hpo := h.preHeader_created
  have hlo := h.latch_lt
  obtain ⟨n, hn⟩ := Nat.exists_eq_succ_of_ne_zero (mt List.length_eq_zero_iff.mp hgs)
  rw [hn, backBB]
  refine hs.blocks (P := fun a => (s.cfg.succs a).count ls.header = [o, entryBB o n].count a)
    ?preHeader ?latchBB ?outer ?entry ?body ?check ?others a
  case preHeader =>
    rw [succs_preHeader h hs hp, List.count_eq_zero.mpr (by simp; omega),
      List.count_eq_zero.mpr (by simp [entryBB]; omega)]
  case latchBB =>
    have hout : ls.header ∉ s.cfg.succs latch := by
      rw [hs.succs_latch hl hgs]
      intro hm
      obtain ⟨b, -, hb⟩ := List.mem_map.mp hm
      split at hb
      · simp only [checkBB] at hb
        omega
      · contradiction
    rw [List.count_eq_zero.mpr hout, List.count_eq_zero.mpr (by simp [entryBB]; omega)]
  case outer =>
    rw [hs.succs_outer, List.count_singleton_self, List.count_cons_self,
      List.count_eq_zero.mpr (by simp [entryBB]; omega)]
  case entry =>
    intro k hk
    rw [hs.succs_entry hk, nextBB]
    by_cases hlast : k = n
    · subst hlast
      rw [hn, if_pos rfl, List.count_singleton_self, List.count_cons_of_ne (by simp [entryBB]; omega),
        List.count_singleton_self]
    · rw [if_neg (by omega), List.count_eq_zero.mpr (by simp [checkBB]; omega),
        List.count_eq_zero.mpr (by simp [entryBB]; omega)]
  case body =>
    intro k hk
    rw [hs.succs_body hk, List.count_eq_zero.mpr (by simp [entryBB]; omega),
      List.count_eq_zero.mpr (by simp [entryBB, bodyBB]; omega)]
  case check =>
    intro k hk
    rw [hs.succs_check hk, List.count_eq_zero.mpr (by simp [entryBB, bodyBB]; omega),
      List.count_eq_zero.mpr (by simp [entryBB, checkBB]; omega)]
  case others =>
    intro a ha hap hal hold
    have hnext := hs.next
    rw [Cfg.succs, ha, List.count_eq_zero.mpr fun hm => (h.entries a hm).elim hap hal,
      List.count_eq_zero.mpr (by simp [entryBB]; omega)]

theorem entry_edges (h : Simplified f o ls latch) (hs : Spliced f o ls latch gs s)
    (hp : (f.term ls.preHeader).IsBranch) (hl : (f.term latch).IsBranch) (hgs : gs ≠ []) (hj : j < gs.length) (a : Nat) :
    (s.cfg.succs a).count (entryBB o j) = [bodyBB o j, checkBB o j].count a := by
  have hho := h.header_lt
  have hpo := h.preHeader_created
  have hlo := h.latch_lt
  refine hs.blocks (P := fun a => (s.cfg.succs a).count (entryBB o j) =
    [bodyBB o j, checkBB o j].count a) ?preHeader ?latchBB ?outer ?entry ?body ?check ?others a
  case preHeader =>
    rw [succs_preHeader h hs hp, List.count_eq_zero.mpr (by simp [entryBB]; omega),
      List.count_eq_zero.mpr (by simp [bodyBB, checkBB]; omega)]
  case latchBB =>
    have hout : entryBB o j ∉ s.cfg.succs latch := by
      rw [hs.succs_latch hl hgs]
      intro hm
      obtain ⟨b, hm, hb⟩ := List.mem_map.mp hm
      have hbo := (h.closed latch b hm).2
      simp only [entryBB, checkBB] at hb
      split at hb <;> omega
    rw [List.count_eq_zero.mpr hout, List.count_eq_zero.mpr (by simp [bodyBB, checkBB]; omega)]
  case outer =>
    rw [hs.succs_outer, List.count_eq_zero.mpr (by simp [entryBB]; omega),
      List.count_eq_zero.mpr (by simp [bodyBB, checkBB]; omega)]
  case entry =>
    intro k hk
    rw [hs.succs_entry hk, List.count_eq_zero.mpr, List.count_eq_zero.mpr]
    · simp only [List.mem_cons, List.not_mem_nil, or_false, entryBB, bodyBB, checkBB]
      omega
    · simp only [List.mem_singleton, nextBB]
      split <;> simp only [entryBB, checkBB] <;> omega
  case body =>
    intro k hk
    rw [hs.succs_body hk]
    by_cases hkj : k = j
    · subst hkj
      simp [bodyBB, checkBB]
    · rw [List.count_eq_zero.mpr (by simp [entryBB]; omega),
        List.count_eq_zero.mpr (by simp [bodyBB, checkBB]; omega)]
  case check =>
    intro k hk
    rw [hs.succs_check hk]
    by_cases hkj : k = j
    · subst hkj
      simp [entryBB, bodyBB, checkBB]
    · rw [List.count_eq_zero.mpr (by simp [entryBB, bodyBB]; omega),
        List.count_eq_zero.mpr (by simp [bodyBB, checkBB]; omega)]
  case others =>
    intro a ha hap hal hold
    have hnext := hs.next
    have hout : entryBB o j ∉ f.succs a := fun hm => by
      have hlt := (h.closed a _ hm).2
      simp only [entryBB] at hlt
      omega
    rw [Cfg.succs, ha, List.count_eq_zero.mpr hout,
      List.count_eq_zero.mpr (by simp [bodyBB, checkBB]; omega)]

theorem inner_edges (h : Simplified f o ls latch) (hs : Spliced f o ls latch gs s)
    (hp : (f.term ls.preHeader).IsBranch) (hb : b ∈ ls.basicBlocks) (hbh : b ≠ ls.header) (a : Nat) :
    (s.cfg.succs a).count b = (f.succs a).count b := by
  have hbo := h.created b hb
  have hnew : ∀ a, o ≤ a → (f.succs a).count b = 0 := fun a ha => List.count_eq_zero.mpr fun hm => by
    have hlt := (h.closed a b hm).1
    omega
  refine hs.blocks (P := fun a => (s.cfg.succs a).count b = (f.succs a).count b)
    ?preHeader ?latchBB ?outer ?entry ?body ?check ?others a
  case preHeader =>
    rw [succs_preHeader h hs hp, h.preHeader_succs, List.count_eq_zero.mpr (by simp; omega),
      List.count_eq_zero.mpr (by simpa using hbh)]
  case latchBB =>
    rw [Cfg.succs, hs.latch_term]
    split
    case isTrue => rfl
    case isFalse hgs =>
      by_cases hl : (f.term latch).IsBranch
      · rw [Terminator.redirect_succs hl, Cfg.succs]
        exact Lib.count_map_ite hbh (by simp only [checkBB]; omega)
      · rw [Terminator.redirect_other hl]
  case outer =>
    rw [hs.succs_outer, hnew o (Nat.le_refl o), List.count_eq_zero.mpr (by simpa using hbh)]
  case entry =>
    intro k hk
    rw [hs.succs_entry hk, hnew _ (by simp only [entryBB]; omega), List.count_eq_zero.mpr]
    simp only [List.mem_singleton, nextBB]
    split
    · exact hbh
    · simp only [checkBB]
      omega
  case body =>
    intro k hk
    rw [hs.succs_body hk, hnew _ (by simp only [bodyBB]; omega),
      List.count_eq_zero.mpr (by simp [entryBB]; omega)]
  case check =>
    intro k hk
    rw [hs.succs_check hk, hnew _ (by simp only [checkBB]; omega),
      List.count_eq_zero.mpr (by simp [entryBB, bodyBB]; omega)]
  case others =>
    intro a ha _ _ _
    rw [Cfg.succs, ha]

theorem matches_header (h : Simplified f o ls latch) (hs : Spliced f o ls latch gs s)
    (hc : Spliceable f ls latch gs) (hgs : gs ≠ []) (hφ : φ ∈ s.cfg.phis ls.header) :
    s.cfg.Matches ls.header φ := by
  rw [Cfg.matches_iff_perm (header_edges h hs hc.preHeader_branch hc.latch_branch hgs)]
  obtain ⟨φs, he, -, -, hsrc⟩ := hs.phis _ h.header_mem
  rw [he] at hφ
  rcases List.mem_append.mp hφ with hφ | hφ
  · obtain ⟨ψ, hψ, rfl⟩ := List.mem_map.mp hφ
    have hperm := (h.header_phis hψ).map (sourceBB ls o latch gs.length)
    rw [transformed, Phi.sources_mapBlocks, Phi.sources_mapValues]
    simpa only [List.map_cons, List.map_nil, sourceBB, if_true, if_neg h.latch_ne] using hperm
  · rw [hsrc φ hφ]

theorem matches_inner (h : Simplified f o ls latch) (hs : Spliced f o ls latch gs s)
    (hc : Spliceable f ls latch gs) (hb : b ∈ ls.basicBlocks) (hbh : b ≠ ls.header)
    (hφ : φ ∈ s.cfg.phis b) : s.cfg.Matches b φ := by
  obtain ⟨φs, he, hnil, -, -⟩ := hs.phis b hb
  rw [he, hnil hbh, List.append_nil] at hφ
  obtain ⟨ψ, hψ, rfl⟩ := List.mem_map.mp hφ
  have hmatch := h.phis b hb ψ hψ
  have hsame : ψ.sources.map (sourceBB ls o latch gs.length) = ψ.sources := by
    refine (List.map_congr_left fun a ha => ?_).trans (List.map_id _)
    have hedge := List.count_pos_iff.mpr ha
    rw [hmatch] at hedge
    have hedge := List.count_pos_iff.mp hedge
    rw [sourceBB, if_neg, if_neg]
    · rfl
    · rintro rfl
      rw [hc.phis b hb hbh hedge] at hψ
      exact List.not_mem_nil hψ
    · rintro rfl
      rw [h.preHeader_succs] at hedge
      exact hbh (List.mem_singleton.mp hedge)
  intro a
  rw [transformed, Phi.sources_mapBlocks, Phi.sources_mapValues, hsame, hmatch,
    inner_edges h hs hc.preHeader_branch hb hbh]

theorem matches_created (h : Simplified f o ls latch) (hs : Spliced f o ls latch gs s)
    (hc : Spliceable f ls latch gs) (hgs : gs ≠ []) (hob : o ≤ b) (hb : b < s.next)
    (hφ : φ ∈ s.cfg.phis b) : s.cfg.Matches b φ := by
  have hpo := h.preHeader_created
  have hlo := h.latch_lt
  revert hφ
  refine hs.blocks (P := fun b => o ≤ b → b < s.next → φ ∈ s.cfg.phis b → s.cfg.Matches b φ)
    ?_ ?_ ?_ ?_ ?_ ?_ ?_ b hob hb
  · exact fun hge _ => absurd hpo (Nat.not_lt.mpr hge)
  · exact fun hge _ => absurd hlo (Nat.not_lt.mpr hge)
  · intro _ _ hφ
    rw [hs.phis_outer] at hφ
    exact absurd hφ List.not_mem_nil
  · intro k hk _ _ hφ
    rw [Cfg.matches_iff_perm (entry_edges h hs hc.preHeader_branch hc.latch_branch hgs hk),
      hs.phis_entry k hk φ hφ]
  · intro k hk _ _ hφ
    rw [hs.phis_body k hk] at hφ
    exact absurd hφ List.not_mem_nil
  · intro k hk _ _ hφ
    rw [hs.phis_check k hk] at hφ
    exact absurd hφ List.not_mem_nil
  · intro a _ _ _ hold hoa ha
    omega

/-- A PHI node that takes a value from the latch loses the entry for its edge. -/
theorem phis_of_matches (h : Simplified f o ls latch) (hs : Spliced f o ls latch gs s) (hgs : gs ≠ [])
    (hp : (f.term ls.preHeader).IsBranch) (hb : b ∈ ls.basicBlocks) (hbh : b ≠ ls.header)
    (hm : ∀ φ ∈ s.cfg.phis b, s.cfg.Matches b φ) (hedge : b ∈ f.succs latch) : f.phis b = [] := by
  obtain ⟨φs, he, hnil, -, -⟩ := hs.phis b hb
  refine List.eq_nil_iff_forall_not_mem.mpr fun φ hφ => ?_
  have hmatch := hm (transformed ls o latch gs φ) (by
    rw [he]
    exact List.mem_append_left _ (List.mem_map_of_mem hφ)) latch
  rw [inner_edges h hs hp hb hbh, transformed, Phi.sources_mapBlocks, Phi.sources_mapValues,
    List.count_eq_zero.mpr] at hmatch
  · exact List.count_eq_zero.mp hmatch.symm hedge
  · intro hmem
    obtain ⟨a, -, ha⟩ := List.mem_map.mp hmem
    exact sourceBB_ne_latch h (List.length_pos_iff.mpr hgs) a ha

theorem outer_preds (h : Simplified f o ls latch) (hs : Spliced f o ls latch gs s) (a : Nat) :
    o ∈ s.cfg.succs a → a = ls.preHeader := by
  have hho := h.header_lt
  have hold : ∀ a, o ∉ f.succs a := fun a hm => Nat.lt_irrefl o (h.closed a o hm).2
  refine hs.blocks (P := fun a => o ∈ s.cfg.succs a → a = ls.preHeader)
    ?preHeader ?latchBB ?outer ?entry ?body ?check ?others a
  case preHeader => exact fun _ => rfl
  case latchBB =>
    intro hm
    rw [Cfg.succs, hs.latch_term] at hm
    split at hm
    case isTrue => exact absurd hm (hold latch)
    case isFalse hgs =>
      by_cases hl : (f.term latch).IsBranch
      · rw [Terminator.redirect_succs hl] at hm
        obtain ⟨b, hm, hb⟩ := List.mem_map.mp hm
        split at hb
        · simp only [checkBB] at hb
          omega
        · exact absurd (hb ▸ hm) (hold latch)
      · rw [Terminator.redirect_other hl] at hm
        exact absurd hm (hold latch)
  case outer =>
    intro hm
    rw [hs.succs_outer, List.mem_singleton] at hm
    omega
  case entry =>
    intro k hk hm
    rw [hs.succs_entry hk, List.mem_singleton, nextBB] at hm
    split at hm
    · omega
    · simp only [checkBB] at hm
      omega
  case body =>
    intro k hk hm
    rw [hs.succs_body hk, List.mem_singleton, entryBB] at hm
    omega
  case check =>
    intro k hk hm
    rw [hs.succs_check hk] at hm
    simp only [List.mem_cons, List.not_mem_nil, or_false, bodyBB, entryBB] at hm
    omega
  case others =>
    intro a ha _ _ _ hm
    rw [Cfg.succs, ha] at hm
    exact absurd hm (hold a)

theorem enters (h : Simplified f o ls latch) (hs : Spliced f o ls latch gs s)
    (hp : (f.term ls.preHeader).IsBranch) : s.cfg.Inevitable ls.header ls.preHeader :=
  .forced (succs_preHeader h hs hp) (.forced hs.succs_outer .here)

theorem entering (h : Simplified f o ls latch) (hs : Spliced f o ls latch gs s)
    (hp : (f.term ls.preHeader).IsBranch) (hc : s.cfg.Crossing ls.header ls.preHeader bs) :
    bs = [ls.preHeader, o] := by
  have hho := h.header_lt
  obtain ⟨cs, rfl, hcs⟩ := hc.forced h.preHeader_ne (succs_preHeader h hs hp)
  obtain ⟨ds, rfl, hds⟩ := hcs.forced (by omega) hs.succs_outer
  rw [hds.stopped]

/-- From the check of round `k` the header is reached, through the checks from there on. -/
theorem checked (h : Simplified f o ls latch) (hs : Spliced f o ls latch gs s) (m : Nat) :
    ∀ k, k + m = gs.length → s.cfg.Inevitable ls.header (nextBB ls o gs.length k) ∧
      ∀ bs, s.cfg.Crossing ls.header (nextBB ls o gs.length k) bs → ∀ j < gs.length,
        (bs.flatMap s.code).count (.counterCmp j) = if k ≤ j then 1 else 0 := by
  have hho := h.header_lt
  induction m with
  | zero =>
    rintro k rfl
    rw [nextBB, if_pos rfl]
    refine ⟨.here, fun bs hc j hj => ?_⟩
    rw [hc.stopped, if_neg (by omega)]
    rfl
  | succ m ih =>
    intro k hkm
    have hk : k < gs.length := by omega
    obtain ⟨hreach, hcount⟩ := ih (k + 1) (by omega)
    have hentry : s.cfg.Inevitable ls.header (entryBB o k) := .forced (hs.succs_entry hk) hreach
    have hbody : s.cfg.Inevitable ls.header (bodyBB o k) := .forced (hs.succs_body hk) hentry
    have hafter : ∀ bs, s.cfg.Crossing ls.header (entryBB o k) bs → ∀ j < gs.length,
        (bs.flatMap s.code).count (.counterCmp j) = if k + 1 ≤ j then 1 else 0 := by
      intro bs hc j hj
      obtain ⟨cs, rfl, hcs⟩ := hc.forced (by simp only [entryBB]; omega) (hs.succs_entry hk)
      rw [List.flatMap_cons, hs.code_entry k hk, List.nil_append]
      exact hcount cs hcs j hj
    rw [nextBB, if_neg (by omega)]
    refine ⟨.step (by simp [hs.succs_check hk]) fun d hd => ?_, fun bs hc j hj => ?_⟩
    · rw [hs.succs_check hk] at hd
      rcases List.mem_cons.mp hd with rfl | hd
      · exact hbody
      · exact List.mem_singleton.mp hd ▸ hentry
    · obtain ⟨d, cs, hd, rfl, hcs⟩ := hc.next (by simp only [checkBB]; omega)
      have hrest : (cs.flatMap s.code).count (.counterCmp j) = if k + 1 ≤ j then 1 else 0 := by
        rw [hs.succs_check hk] at hd
        rcases List.mem_cons.mp hd with rfl | hd
        · obtain ⟨ds, rfl, hds⟩ := hcs.forced (by simp only [bodyBB]; omega) (hs.succs_body hk)
          rw [List.flatMap_cons, hs.code_body k hk, List.count_append, hafter ds hds j hj]
          simp
        · exact hafter cs (List.mem_singleton.mp hd ▸ hcs) j hj
      rw [List.flatMap_cons, hs.code_check k hk, List.count_append, hrest]
      by_cases hjk : j = k
      · subst hjk
        simp
      · rw [List.count_eq_zero.mpr (by simpa using hjk), Nat.zero_add]
        exact if_congr (by omega) rfl rfl

theorem header_phi (h : Simplified f o ls latch) (hs : Spliced f o ls latch gs s) {j : Nat}
    (hj : (f.phis ls.header)[j]? = some φ) :
    (s.cfg.phis ls.header)[j]? = some (transformed ls o latch gs φ) := by
  obtain ⟨φs, he, -, -, -⟩ := hs.phis _ h.header_mem
  rw [he, List.getElem?_append_left, List.getElem?_map, hj]
  · rfl
  · rw [List.length_map]
    exact (List.getElem?_eq_some_iff.mp hj).1

end Spliced

theorem rewritten_cases (v : V) (gs : List (GepRequest V)) :
    rewritten v gs = .original v ∨ ∃ k, rewritten v gs = .newGep k := by
  induction gs with
  | nil => exact .inl rfl
  | cons g gs ih =>
    rw [rewritten]
    split
    · exact .inr ⟨_, rfl⟩
    · exact ih

theorem rewritten_eq_original {v : V} : rewritten v gs = .original v ↔ ∀ g ∈ gs, g.1 ≠ v := by
  induction gs with
  | nil => simp [rewritten]
  | cons g gs ih =>
    rw [rewritten, List.forall_mem_cons, ← ih]
    rcases rewritten_cases v gs with he | ⟨k, he⟩ <;> rw [he]
    · by_cases hv : g.1 = v
      · simp [hv]
      · simp [hv, Ne.symm hv]
    · simp

theorem transformed_entry (h : Simplified f o ls latch) (hφ : φ ∈ f.phis ls.header) :
    (transformed ls o latch gs φ).values o = (φ.values ls.preHeader).map (rewritten · gs) := by
  obtain ⟨-, hob, -, -⟩ := backBB_cases h gs.length
  rw [transformed, Phi.values_mapBlocks, Phi.values_mapValues]
  intro c hc
  rw [Phi.sources_mapValues] at hc
  have hco := h.source_lt h.header_mem hφ hc
  simp only [sourceBB]
  by_cases hp : c = ls.preHeader
  · simp [hp]
  · by_cases hl : c = latch
    · simp [hl, h.latch_ne, Ne.symm hob]
    · simp [hp, hl, Nat.ne_of_lt hco]

theorem transformed_back (h : Simplified f o ls latch) (hφ : φ ∈ f.phis ls.header) :
    (transformed ls o latch gs φ).values (backBB o latch gs.length) =
      (φ.values latch).map (rewritten · gs) := by
  obtain ⟨-, hob, hpb, hother⟩ := backBB_cases h gs.length
  rw [transformed, Phi.values_mapBlocks, Phi.values_mapValues]
  intro c hc
  rw [Phi.sources_mapValues] at hc
  have hco := h.source_lt h.header_mem hφ hc
  simp only [sourceBB]
  by_cases hp : c = ls.preHeader
  · simp [hp, hob, h.latch_ne.symm]
  · by_cases hl : c = latch
    · simp [hl, h.latch_ne]
    · simp [hp, hl, hother c hco hl]

theorem map_rewritten {vs : List V} : vs.map (rewritten · gs) = vs.map .original ↔
    ∀ v ∈ vs, ∀ g ∈ gs, g.1 ≠ v := by
  simp only [List.map_inj_left, rewritten_eq_original]

theorem Spliced.wellSpliced (h : Simplified f o ls latch) (hs : Spliced f o ls latch gs s)
    (hgs : gs ≠ []) (hc : Spliceable f ls latch gs) : WellSpliced f o ls latch gs.length s := by
  have hlen := List.length_pos_iff.mpr hgs
  constructor
  case phis =>
    rintro b (hb | ⟨hob, hb⟩) φ hφ
    · by_cases hbh : b = ls.header
      · subst hbh
        exact matches_header h hs hc hgs hφ
      · exact matches_inner h hs hc hb hbh hφ
    · exact matches_created h hs hc hgs hob hb hφ
  case outer => exact outer_preds h hs
  case entering => exact enters h hs hc.preHeader_branch
  case inits =>
    intro bs hbs
    have hpo := h.preHeader_created
    rw [entering h hs hc.preHeader_branch hbs]
    refine ⟨by simp [Nat.ne_of_lt hpo], fun k hk => ?_⟩
    simp [hs.code _ hpo, hs.code_outer, hk]
  case checks =>
    intro i hi
    obtain ⟨hreach, hcount⟩ := checked h hs gs.length 0 (Nat.zero_add _)
    rw [nextBB, if_neg (by omega)] at hreach hcount
    refine ⟨checkBB o 0, ?_, hreach, fun bs hbs k hk => ?_⟩
    · rw [hs.succs_latch hc.latch_branch hgs, List.getElem?_map, hi, Option.map_some, if_pos rfl]
    · rw [hcount bs hbs k hk, if_pos (Nat.zero_le k)]
  case values =>
    intro j φ hj
    have hφ := List.mem_of_getElem? hj
    have huses := hc.uses φ hφ
    refine ⟨_, header_phi h hs hj, rfl, ?_, fun e heo he => ?_⟩
    · rw [transformed_entry h hφ, map_rewritten]
      exact fun v hv => huses v (List.mem_append_left _ hv)
    · have hcount := List.count_pos_iff.mpr he
      rw [header_edges h hs hc.preHeader_branch hc.latch_branch hgs] at hcount
      have hmem := List.count_pos_iff.mp hcount
      simp only [List.mem_cons, heo, List.not_mem_nil, or_false, false_or] at hmem
      rw [hmem, transformed_back h hφ, map_rewritten]
      exact fun v hv => huses v (List.mem_append_right _ hv)

/-- A preheader that does not end in a branch still enters the header itself. -/
theorem WellSpliced.preHeader_branch (h : Simplified f o ls latch) (hs : Spliced f o ls latch gs s)
    (hw : WellSpliced f o ls latch gs.length s) : (f.term ls.preHeader).IsBranch := by
  by_contra hp
  have hpo := h.preHeader_created
  have hsuccs : s.cfg.succs ls.preHeader = [ls.header] := by
    rw [Cfg.succs, hs.preHeader_term, Terminator.redirect_other hp]
    exact h.preHeader_succs
  have hcross : s.cfg.Crossing ls.header ls.preHeader [ls.preHeader] :=
    .step h.preHeader_ne (by simp [hsuccs]) .done
  have hcount := (hw.inits _ hcross).1
  simp [Nat.ne_of_lt hpo] at hcount

/-- A latch that does not end in a branch still leads to the header itself. -/
theorem WellSpliced.latch_branch (h : Simplified f o ls latch) (hs : Spliced f o ls latch gs s)
    (hgs : gs ≠ []) (hw : WellSpliced f o ls latch gs.length s) : (f.term latch).IsBranch := by
  by_contra hl
  have hsuccs : s.cfg.succs latch = f.succs latch := by
    rw [Cfg.succs, hs.latch_term, if_neg hgs, Terminator.redirect_other hl]
  have hedge : ls.header ∈ f.succs latch := by
    rw [← List.count_pos_iff, h.backEdge]
    exact Nat.one_pos
  obtain ⟨i, hi⟩ := List.getElem?_of_mem hedge
  obtain ⟨c, hc, -, hcount⟩ := hw.checks i hi
  rw [hsuccs, hi] at hc
  cases hc
  have hnone := hcount [] .done 0 (List.length_pos_iff.mpr hgs)
  simp at hnone

theorem WellSpliced.spliceable (h : Simplified f o ls latch) (hs : Spliced f o ls latch gs s)
    (hgs : gs ≠ []) (hw : WellSpliced f o ls latch gs.length s) : Spliceable f ls latch gs := by
  have hp := hw.preHeader_branch h hs
  have hl := hw.latch_branch h hs hgs
  obtain ⟨-, hob, -, -⟩ := backBB_cases h gs.length
  refine ⟨hp, hl, ?_, ?_⟩
  · intro b hb hbh hedge
    exact Spliced.phis_of_matches h hs hgs hp hb hbh (hw.phis b (.inl hb)) hedge
  · intro φ hφ v hv
    obtain ⟨j, hj⟩ := List.getElem?_of_mem hφ
    obtain ⟨ψ, hψ, -, hentry, hback⟩ := hw.values j φ hj
    rw [hs.header_phi h hj] at hψ
    cases hψ
    rcases List.mem_append.mp hv with hv | hv
    · rw [transformed_entry h hφ, map_rewritten] at hentry
      exact hentry v hv
    · have hedge : ls.header ∈ s.cfg.succs (backBB o latch gs.length) := by
        rw [← List.count_pos_iff, hs.header_edges h hp hl hgs]
        simp
      have hsame := hback _ hob.symm hedge
      rw [transformed_back h hφ, map_rewritten] at hsame
      exact hsame v hv

/-- Chunking the GEPs of a loop succeeds, and it leaves the loop well formed just
if both edges to the header are edges of branches, the other successors of the
latch in the loop have no PHI nodes and the header takes none of the GEPs. -/
theorem chunked_wellSpliced (h : Simplified f o ls latch) (hgs : gs ≠ []) :
    ∃ s, (start f o ls).transformAll ls gs = some s ∧
      (WellSpliced f o ls latch gs.length s ↔ Spliceable f ls latch gs) := by
  obtain ⟨g, gs, rfl⟩ := List.exists_cons_of_ne_nil hgs
  obtain ⟨s, hs, hspliced, -⟩ := transformAll_spliced h g gs
  exact ⟨s, hs, fun hw => hw.spliceable h hspliced hgs, hspliced.wellSpliced h hgs⟩

end

def countedLoop (t : Terminator) : Cfg Nat where
  term
    | 0 => .branch [1]
    | 1 => .branch [2]
    | 2 => t
    | _ => .branch []
  phis
    | 1 => [⟨0, [(10, 0), (1, 2)]⟩]
    | _ => []

def countedLoopStructure : LoopStructure where
  header := 1
  preHeader := 0
  latches := [2]
  basicBlocks := [1, 2]

theorem countedLoop_simplified {t : Terminator} (ht : t.succs = [1, 3]) :
    Simplified (countedLoop t) 4 countedLoopStructure 2 := by
  have hsuccs : ∀ a, (countedLoop t).succs a =
      if a = 0 then [1] else if a = 1 then [2] else if a = 2 then [1, 3] else [] := by
    intro a
    match a with
    | 0 | 1 => rfl
    | 2 => exact ht
    | _ + 3 => rfl
  constructor
  case preHeader_succs => rfl
  case backEdge => simp [hsuccs, countedLoopStructure]
  case entries =>
    intro a ha
    rw [hsuccs] at ha
    by_cases h₀ : a = 0
    · exact .inl h₀
    · by_cases h₁ : a = 1
      · simp [h₁, countedLoopStructure] at ha
      · by_cases h₂ : a = 2
        · exact .inr h₂
        · simp [h₀, h₁, h₂] at ha
  case closed =>
    intro a b hb
    rw [hsuccs] at hb
    split at hb
    · simp_all
    · split at hb
      · simp_all
      · split at hb
        · simp only [List.mem_cons, List.not_mem_nil, or_false] at hb
          omega
        · simp at hb
  case phis =>
    intro b hb φ hφ a
    rw [hsuccs]
    simp only [countedLoopStructure, List.mem_cons, List.not_mem_nil, or_false] at hb
    rcases hb with rfl | rfl
    · simp only [countedLoop, List.mem_singleton] at hφ
      subst hφ
      match a with
      | 0 | 1 | 2 => rfl
      | _ + 3 => simp [Phi.sources]
    · simp [countedLoop] at hφ
  all_goals simp [countedLoopStructure]

theorem chunked_wellSpliced_branch :
    ∃ s, (start (countedLoop (.branch [1, 3])) 4 countedLoopStructure).transformAll
        countedLoopStructure [(21, false), (20, true)] = some s ∧
      WellSpliced (countedLoop (.branch [1, 3])) 4 countedLoopStructure 2 2 s := by
  have hgs : [((21, false) : GepRequest Nat), (20, true)] ≠ [] := List.cons_ne_nil _ _
  obtain ⟨s, hs, hiff⟩ := chunked_wellSpliced (countedLoop_simplified (t := .branch [1, 3]) rfl) hgs
  refine ⟨s, hs, hiff.mpr ⟨trivial, trivial, ?_, ?_⟩⟩
  · simp [countedLoopStructure, countedLoop]
  · simp only [countedLoopStructure, countedLoop, Phi.values, List.mem_singleton, forall_eq]
    decide

/-- A switch in the latch keeps its edge to the header, which the checks miss. -/
theorem switchLatch_unchecked : Simplified (countedLoop (.other [1, 3])) 4 countedLoopStructure 2 ∧
    ∃ s, (start (countedLoop (.other [1, 3])) 4 countedLoopStructure).transformAll
        countedLoopStructure [(20, true)] = some s ∧
      ¬WellSpliced (countedLoop (.other [1, 3])) 4 countedLoopStructure 2 1 s := by
  have h := countedLoop_simplified (t := .other [1, 3]) rfl
  obtain ⟨s, hs, hspliced, -⟩ := transformAll_spliced h (20, true) []
  exact ⟨h, s, hs, fun hw => hw.latch_branch h hspliced (List.cons_ne_nil _ _)⟩

end TrackFM
