import TrackFM.Bulk
import TrackFM.Memcpy
import TrackFM.Lib.Search

/-!
# carm_memcmp and memcmp

`carm_memcmp` compares the logical bytes of its operands, whichever of them are
remote, and dereferences no slot past the first difference.
-/

namespace TrackFM

open Lib (Cuts order sweep)
open Heap (Coherent Keeps Steady Located Usable Buffer ptrDeref objectFor allocateObject
  carmDerefObj carmMemcmp)

variable {m : Manager} {h h' h'' : Heap} {d s : Operand} {f g : Nat → UInt8}

-- ---------------------------------------------------------------------------
-- The slots a dereference leaves alone
-- ---------------------------------------------------------------------------

namespace Heap

structure Untouched (h h' : Heap) (i : Nat) : Prop where
  ptrs : h'.ptrs i = h.ptrs i
  state : h'.carmObjState i = h.carmObjState i
  objs : ∀ o, h.ptrs i = some o → h'.objs o = h.objs o

theorem Untouched.refl : Untouched h h i := ⟨rfl, rfl, fun _ _ => rfl⟩

theorem Untouched.trans (h₁ : Untouched h h' i) (h₂ : Untouched h' h'' i) : Untouched h h'' i where
  ptrs := h₂.ptrs.trans h₁.ptrs
  state := h₂.state.trans h₁.state
  objs o ho := (h₂.objs o (h₁.ptrs.trans ho)).trans (h₁.objs o ho)

theorem ptrDeref_untouched (hc : Coherent m h) (hi : h.Current i) (hp : h.Current p.objIndex)
    (hne : i ≠ p.objIndex) : Untouched h (ptrDeref m h p).1 i where
  ptrs := ptrDeref_touches.other hne
  state := ptrDeref_other hne
  objs o ho := by
    by_cases hf : Fast h.carmObjState p
    · rw [ptrDeref_fast hf]
    · have hk := carmDeref_keeps hc
      rw [ptrDeref_slow hf]
      exact carmDerefObj_other (h := h.carmDeref) hk.coherent (hk.current i hi) (hk.current _ hp)
        hne ho

theorem memcmp_order : h.memcmp a b n =
    order (fun j => h.mem (a + j)) (fun j => h.mem (b + j)) n := by
  induction n generalizing a b with
  | zero => rfl
  | succ n ih =>
    have hone : order (fun j => h.mem (a + j)) (fun j => h.mem (b + j)) 1 =
        compare (h.mem a) (h.mem b) := by
      by_cases he : h.mem a = h.mem b
      · rw [he, Std.compare_self]
        exact Lib.order_same fun j hj => by
          obtain rfl := Nat.lt_one_iff.mp hj
          exact he
      · exact Lib.order_first (Lib.first_eq_some.mpr ⟨Nat.one_pos, by simpa using he, nofun⟩)
    rw [memcmp, ih, Nat.add_comm n 1, Lib.order_add, hone]
    simp only [Nat.add_assoc]

end Heap

-- ---------------------------------------------------------------------------
-- What an operand shows
-- ---------------------------------------------------------------------------

namespace Operand

variable {o : Operand}

def Reads (m : Manager) (h : Heap) (n : Nat) : Operand → Prop
  | .remote x => ∀ j < n, h.Current ((x + j) / objSize)
  | .app a => (∀ j < n, a + j < m.lo ∨ m.hi ≤ a + j) ∧ a + n ≤ startAddr

def Holds (n i : Nat) : Operand → Prop
  | .remote x => ∃ j < n, (x + j) / objSize = i
  | .app _ => False

/-- The first `n` bytes may be read, and are those of `f`. -/
structure Shows (m : Manager) (h : Heap) (n : Nat) (f : Nat → UInt8) (o : Operand) : Prop where
  reads : o.Reads m h n
  view : ∀ j < n, h.view m (o.addr + j) = f j

theorem Reads.buffer (ho : o.Reads m h n) : Buffer m h n o.addr := by
  cases o with
  | remote x => exact .remote ho
  | app a => exact .app ho.1 ho.2

theorem Reads.keeps (hk : Keeps m h h') (ho : o.Reads m h n) : o.Reads m h' n := by
  cases o with
  | remote x => exact fun j hj => hk.current _ (ho j hj)
  | app a => exact ho

theorem Shows.keeps (hc : Coherent m h) (hk : Keeps m h h') (ho : o.Shows m h n f) :
    o.Shows m h' n f where
  reads := ho.reads.keeps hk
  view j hj := (hk.view hc (ho.reads.buffer.usable j hj)).trans (ho.view j hj)

theorem Shows.mono (ho : o.Shows m h n f) (hn : k ≤ n) : o.Shows m h k f where
  reads := by
    cases o with
    | remote x => exact fun j hj => ho.reads j (hj.trans_le hn)
    | app a => exact ⟨fun j hj => ho.reads.1 j (hj.trans_le hn),
        (Nat.add_le_add_left hn a).trans ho.reads.2⟩
  view j hj := ho.view j (hj.trans_le hn)

theorem Reads.starts (hc : Coherent m h) (ho : o.Reads m h n) (hpos : 0 < n)
    (hsize : size < 2 ^ 31) : o.Starts size := by
  cases o with
  | remote x =>
    have h₁ := (ho 0 hpos).lt
    have h₂ := hc.slots
    have hx := slot_add_off (x + 0)
    simp only [totalObjects, objSize] at *
    exact ⟨by omega, by omega⟩
  | app a =>
    have hlt : a + n ≤ 2 ^ 60 := ho.2
    exact show a < 2 ^ 60 by omega

def Here (h : Heap) (b : Nat) : Operand → Prop
  | .remote x => ∃ base, h.Located ((x + b) / objSize) base
  | .app _ => True

/-- Byte `b` dereferenced: the local bytes are the logical ones, also after
more dereferences. -/
structure Finds (m : Manager) (h h' : Heap) (o : Operand) (e : Nat) (f : Nat → UInt8) (b p : Nat) :
    Prop where
  keeps : Keeps m h h'
  steady : Steady h h'
  here : o.Here h' b
  untouched : ∀ i, h.Current i → ¬o.Holds e i → h.Untouched h' i
  bytes : ∀ h'', Keeps m h' h'' → Steady h' h'' → ∀ j, o.Spans b (j + 1) → b + j < e →
    h''.mem (p + j) = f (b + j)

theorem deref_finds (hc : Coherent m h) (ho : o.Shows m h e f) (hb : b < e) :
    o.Finds m h (o.deref m w h b).1 e f b (o.deref m w h b).2 := by
  cases o with
  | remote x =>
    have hcur : h.Current ((x + b) / objSize) := ho.reads b hb
    obtain ⟨base, hbase, hd⟩ := Heap.ptrDeref_spec (p := cursor x w b) hc hcur
    refine ⟨hd.keeps, hd.steady, ⟨base, hd.located⟩, fun i hi hnot => ?_,
      fun h'' hk hst j hspan hj => ?_⟩
    · refine Heap.ptrDeref_untouched hc hi hcur fun he => hnot ⟨b, hb, ?_⟩
      exact he.symm
    · have hcur' := hd.keeps.current _ hcur
      have hsource := (hst.located hcur' hd.located).source hk.coherent (hk.current _ hcur') hspan
      have hview := (ho.keeps hc (hd.keeps.trans hk)).view (b + j) hj
      have hmem := hsource j (Nat.lt_succ_self j)
      rw [Nat.add_assoc startAddr, Nat.add_assoc x] at hmem
      show h''.mem ((ptrDeref m h (cursor x w b)).2 + j) = _
      rw [hbase, ← hview, addr, Nat.add_assoc startAddr]
      exact hmem
  | app a =>
    refine ⟨.refl hc, .of_eq rfl rfl, trivial, fun _ _ _ => .refl, fun h'' hk _ j _ hj => ?_⟩
    have hview := (ho.keeps hc hk).view (b + j) hj
    have hlt : a + e ≤ 2 ^ 60 := ho.reads.2
    rw [addr, Heap.view_untagged (show a + (b + j) < 2 ^ 60 by omega)] at hview
    show h''.mem (a + b + j) = _
    rw [Nat.add_assoc]
    exact hview

end Operand

-- ---------------------------------------------------------------------------
-- The sweep of a comparison
-- ---------------------------------------------------------------------------

theorem Operand.Spans.mono {o : Operand} (ho : o.Spans b n) (hk : k ≤ n) : o.Spans b k := by
  cases o with
  | remote x => exact (Nat.add_le_add_left hk _).trans ho
  | app a => trivial

structure Compared (m : Manager) (h h' : Heap) (d s : Operand) (e : Nat) : Prop where
  keeps : Keeps m h h'
  untouched : ∀ i, h.Current i → ¬d.Holds e i → ¬s.Holds e i → h.Untouched h' i

theorem Compared.trans (h₁ : Compared m h h' d s e) (h₂ : Compared m h' h'' d s e) :
    Compared m h h'' d s e where
  keeps := h₁.keeps.trans h₂.keeps
  untouched i hi hd hs :=
    (h₁.untouched i hi hd hs).trans (h₂.untouched i (h₁.keeps.current i hi) hd hs)

theorem compareChunk_finds (hc : Coherent m h) (hd : d.Shows m h e f) (hs : s.Shows m h e g)
    (hb : b < e) (hspan : d.Spans b n ∧ s.Spans b n)
    (hn : b + n ≤ e ∨ ∃ k < e, b ≤ k ∧ f k ≠ g k) :
    Compared m h (compareChunk m d s (h, c) b n).1 d s e ∧ (compareChunk m d s (h, c) b n).2 =
      order (fun j => f (b + j)) (fun j => g (b + j)) (min n (e - b)) := by
  have h₁ := Operand.deref_finds (w := false) hc hd hb
  simp only [compareChunk]
  generalize d.deref m false h b = r₁ at h₁ ⊢
  have h₂ := Operand.deref_finds (w := false) h₁.keeps.coherent (hs.keeps hc h₁.keeps) hb
  generalize s.deref m false r₁.1 b = r₂ at h₂ ⊢
  refine ⟨⟨h₁.keeps.trans h₂.keeps, fun i hi hdi hsi =>
    (h₁.untouched i hi hdi).trans (h₂.untouched i (h₁.keeps.current i hi) hsi)⟩, ?_⟩
  have hf : ∀ j < min n (e - b), r₂.1.mem (r₁.2 + j) = f (b + j) := fun j hj =>
    h₁.bytes _ h₂.keeps h₂.steady j (hspan.1.mono (by omega)) (by omega)
  have hg : ∀ j < min n (e - b), r₂.1.mem (r₂.2 + j) = g (b + j) := fun j hj =>
    h₂.bytes _ (.refl h₂.keeps.coherent) (.of_eq rfl rfl) j (hspan.2.mono (by omega)) (by omega)
  rw [Heap.memcmp_order, ← Lib.order_congr hf hg]
  rcases hn with hle | ⟨k, hk, hbk, hne⟩
  · rw [Nat.min_eq_left (by omega)]
  · by_cases hle : b + n ≤ e
    · rw [Nat.min_eq_left (by omega)]
    · refine Lib.order_of_difference (k := k - b) (by omega) ?_ (Nat.min_le_left ..)
      rw [hf _ (by omega), hg _ (by omega), Nat.add_sub_cancel' hbk]
      exact hne

/-- The operands need only be readable as far as their first difference, and no
chunk past it is compared. -/
theorem sweep_compares (hc : Coherent m h) (hd : d.Shows m h e f) (hs : s.Shows m h e g)
    (hstop : e = size ∨ ∃ k < e, f k ≠ g k) (hsame : ∀ j < b, f j = g j) (hb : b ≤ e)
    (he : e ≤ size) (hcuts : Cuts (fun b n => d.Spans b n ∧ s.Spans b n) b ns)
    (hpos : ∀ n ∈ ns, 0 < n) (hsum : b + ns.sum = size) :
    ∃ h', sweep differ (compareChunk m d s) (h, .eq) b ns =
        (h', order (fun j => f (b + j)) (fun j => g (b + j)) (e - b)) ∧
      Compared m h h' d s e ∧ ∃ ks, Cuts (fun b _ => b < e) b ks ∧
        sweep differ (compareChunk m d s) (h, .eq) b ns =
          sweep differ (compareChunk m d s) (h, .eq) b ks := by
  induction ns generalizing h b with
  | nil =>
    rw [List.sum_nil] at hsum
    obtain rfl : e = b := by omega
    exact ⟨h, by rw [Nat.sub_self]; rfl, ⟨.refl hc, fun _ _ _ _ => .refl⟩, [], trivial, rfl⟩
  | cons n ns ih =>
    have hn := hpos n (List.mem_cons_self ..)
    rw [List.sum_cons] at hsum
    -- a difference is still to come, unless the operands are read to the end
    have hdiff : e = size ∨ ∃ k < e, b ≤ k ∧ f k ≠ g k := hstop.imp_right fun ⟨k, hk, hne⟩ =>
      ⟨k, hk, Nat.le_of_not_lt fun hlt => hne (hsame k hlt), hne⟩
    have hlt : b < e := by
      rcases hdiff with rfl | ⟨k, hk, hbk, -⟩
      · omega
      · exact hbk.trans_lt hk
    obtain ⟨hcmp, hord⟩ := compareChunk_finds (c := .eq) hc hd hs hlt hcuts.1
      (hdiff.imp_left fun h => by omega)
    generalize hr : compareChunk m d s (h, .eq) b n = r at hcmp hord
    rw [sweep, hr]
    by_cases heq : r.2 = .eq
    · rw [hord, Lib.order_eq_iff] at heq
      have hin : b + n ≤ e := by
        by_contra hout
        rcases hdiff with rfl | ⟨k, hk, hbk, hne⟩
        · omega
        · have hk' := heq (k - b) (by omega)
          rw [Nat.add_sub_cancel' hbk] at hk'
          exact hne hk'
      have hsame' : ∀ j < b + n, f j = g j := by
        intro j hj
        rcases Nat.lt_or_ge j b with hjb | hjb
        · exact hsame j hjb
        · have hj' := heq (j - b) (by omega)
          rwa [Nat.add_sub_cancel' hjb] at hj'
      obtain ⟨h', hsweep, hcmp', ks, hks, hsweep'⟩ := ih hcmp.keeps.coherent (hd.keeps hc hcmp.keeps)
        (hs.keeps hc hcmp.keeps) hsame' hin hcuts.2
        (fun k hk => hpos k (List.mem_cons_of_mem _ hk)) (by omega)
      have hreq : r = (r.1, .eq) := Prod.ext rfl (hord.trans (Lib.order_eq_iff.mpr heq))
      rw [if_neg (by rw [differ_eq (by rw [hreq])]; decide), hreq]
      refine ⟨h', ?_, hcmp.trans hcmp', n :: ks, ⟨hlt, hks⟩, ?_⟩
      · rw [hsweep, show e - b = n + (e - (b + n)) by omega, Lib.order_add,
          Lib.order_same fun j hj => heq j (by omega)]
        simp only [Nat.add_assoc, Ordering.eq_then]
      · rw [sweep, hr, if_neg (by rw [differ_eq (by rw [hreq])]; decide), hreq]
        exact hsweep'
    · rw [if_pos (differ_ne heq)]
      refine ⟨r.1, Prod.ext rfl (hord.trans ?_), hcmp, [n], ⟨hlt, trivial⟩, ?_⟩
      case refine_2 => rw [sweep, hr, if_pos (differ_ne heq)]
      obtain ⟨k, hk, hne⟩ : ∃ k < min n (e - b), f (b + k) ≠ g (b + k) := by
        by_contra hnone
        simp only [not_exists, not_and, ne_eq, not_not] at hnone
        exact heq (hord.trans (Lib.order_same hnone))
      exact (Lib.order_of_difference hk hne (Nat.min_le_right ..)).symm

-- ---------------------------------------------------------------------------
-- The call
-- ---------------------------------------------------------------------------

theorem carmMemcmp_app (ha : a < 2 ^ 60) (hb : b < 2 ^ 60) :
    carmMemcmp m h a b size = .ok (h, h.memcmp a b size) := by
  unfold carmMemcmp
  rw [checkCarmObject_untagged ha, checkCarmObject_untagged hb]
  rfl

theorem carmMemcmp_compares (hc : Coherent m h) (hd : d.Shows m h e f) (hs : s.Shows m h e g)
    (hpos : 0 < e) (he : e ≤ size) (hsize : size < 2 ^ 31)
    (hstop : e = size ∨ ∃ k < e, f k ≠ g k) :
    ∃ h', carmMemcmp m h d.addr s.addr size = .ok (h', order f g e) ∧ Compared m h h' d s e ∧
      (SomeRemote d s → ∃ ks, Cuts (fun b _ => b < e) 0 ks ∧
        carmMemcmp m h d.addr s.addr size =
          .ok (sweep differ (compareChunk m d s) (h, .eq) 0 ks)) := by
  have hds := hd.reads.starts hc hpos hsize
  have hss := hs.reads.starts hc hpos hsize
  by_cases hremote : SomeRemote d s
  · have hroom : size ≤ max d.room s.room := by
      have hr : ∀ x, 2 ^ 31 ≤ room x := fun x => by
        simp only [room, objSize]
        split <;> omega
      cases d with
      | remote x => exact (Nat.le_of_lt hsize).trans ((hr x).trans (Nat.le_max_left ..))
      | app a =>
        cases s with
        | remote y => exact (Nat.le_of_lt hsize).trans ((hr y).trans (Nat.le_max_right ..))
        | app b => exact hremote.elim
    obtain ⟨ns, hns, hcuts, hr⟩ := carmMemcmp_chunks (m := m) (h := h) hds hss hremote hroom
    obtain ⟨h', hsweep, hcmp, ks, hks, hsweep'⟩ := sweep_compares (b := 0) hc hd hs hstop
      (fun _ hj => absurd hj (Nat.not_lt_zero _)) (Nat.zero_le e) he hcuts hns.pos
      (by rw [hns.sum, Nat.zero_add])
    refine ⟨h', ?_, hcmp, fun _ => ⟨ks, hks, by rw [hr, hsweep']⟩⟩
    rw [hr, hsweep]
    simp only [Nat.zero_add, Nat.sub_zero]
  · cases d with
    | remote x => cases s <;> exact absurd trivial hremote
    | app a =>
      cases s with
      | remote y => exact absurd trivial hremote
      | app b =>
        refine ⟨h, ?_, ⟨.refl hc, fun _ _ _ _ => .refl⟩, False.elim⟩
        have hf : ∀ j < e, h.mem (a + j) = f j := fun j hj => by
          have hlt : a + e ≤ 2 ^ 60 := hd.reads.2
          rw [← hd.view j hj, Operand.addr, Heap.view_untagged (by omega)]
        have hg : ∀ j < e, h.mem (b + j) = g j := fun j hj => by
          have hlt : b + e ≤ 2 ^ 60 := hs.reads.2
          rw [← hs.view j hj, Operand.addr, Heap.view_untagged (by omega)]
        show carmMemcmp m h a b size = _
        rw [carmMemcmp_app hds hss, Heap.memcmp_order, ← Lib.order_congr hf hg]
        rcases hstop with rfl | ⟨k, hk, hne⟩
        · rfl
        · rw [Lib.order_of_difference hk (by rwa [hf k hk, hg k hk]) he]

namespace Heap

/-- The call compares as `memcmp` does on the logical bytes, and changes none. -/
def Memcmps (m : Manager) (h : Heap) (dst src n : Nat) : Prop :=
  ∃ h', carmMemcmp m h dst src n =
      .ok (h', order (fun j => h.view m (dst + j)) (fun j => h.view m (src + j)) n) ∧
    Keeps m h h'

theorem carmMemcmp_nothing (hc : Coherent m h) : Memcmps m h dst src 0 := by
  refine ⟨h, ?_, .refl hc⟩
  cases hd : checkCarmObject dst <;> cases hs : checkCarmObject src <;>
    simp [carmMemcmp, hd, hs, carmMemcmpDstLoop, carmMemcmpSrcLoop, carmMemcmpLoop, memcmp] <;> rfl

theorem Buffer.operand (hb : Buffer m h n a) : ∃ o : Operand, o.addr = a ∧
    o.Shows m h n fun j => h.view m (a + j) := by
  cases hb with
  | @remote x hcur => exact ⟨.remote x, rfl, hcur, fun _ _ => rfl⟩
  | app hout hlt => exact ⟨.app a, rfl, ⟨hout, hlt⟩, fun _ _ => rfl⟩

theorem carmMemcmp_agrees (hn : n < 2 ^ 31) (hc : Coherent m h) (hdst : Buffer m h n dst)
    (hsrc : Buffer m h n src) : Memcmps m h dst src n := by
  rcases Nat.eq_zero_or_pos n with rfl | hpos
  · exact carmMemcmp_nothing hc
  obtain ⟨d, rfl, hd⟩ := hdst.operand
  obtain ⟨s, rfl, hs⟩ := hsrc.operand
  obtain ⟨h', hr, hcmp, -⟩ := carmMemcmp_compares hc hd hs hpos (Nat.le_refl n) hn (.inl rfl)
  exact ⟨h', hr, hcmp.keeps⟩

theorem carmMemcmp_agrees_up :
    Memcmps cacheManager (init (fun _ => none) fun _ => 0).heap (startAddr + 1) startAddr 8192 :=
  carmMemcmp_agrees (by decide) init_coherent (init_buffer (by decide))
    (init_buffer (x := 0) (by decide))

end Heap

end TrackFM
