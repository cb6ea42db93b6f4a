import TrackFM.Memcpy
import TrackFM.Lib.Feed
import Mathlib.Tactic.Ring
import Mathlib.Data.Nat.ModEq

/-!
# carm_fread and carm_fwrite

The transfer is cut into whole pieces of `OBJ_SIZE` bytes and a remainder, each
through a bounce buffer on the stack. A piece is `index_offset * OBJ_SIZE` bytes
into the range, an `int` product. `carm_fread` copies the buffer out whole, the
zeros after a short read included, and reads on after a piece that fell short.
-/

namespace TrackFM

open Lib (Mem Feed blit blit_in blit_out)

-- ---------------------------------------------------------------------------
-- libc
-- ---------------------------------------------------------------------------

namespace Heap

/-- The calls of `fgetc` end with the first that fails, which later ones need not.
The result has what is left of the stream and the number of complete items. -/
def fread (h : Heap) (ptr size nmemb : Nat) (stream : Feed UInt8) : Heap × Feed UInt8 × Nat :=
  let (delivered, rest) := stream.request (nmemb * size)
  (h.store ptr delivered.length fun j => delivered.getD j 0, rest, delivered.length / size)

/-- A stream to write is the bytes written so far. -/
def fwrite (h : Heap) (ptr size nmemb : Nat) (stream : List UInt8) : List UInt8 × Nat :=
  (stream ++ (List.range (nmemb * size)).map fun j => h.mem (ptr + j),
    if size = 0 then 0 else nmemb)

end Heap

-- ---------------------------------------------------------------------------
-- The pieces
-- ---------------------------------------------------------------------------

/-- `ptr + index_offset * OBJ_SIZE` -/
def pieceAddr (ptr indexOffset : Nat) : Outcome Nat :=
  if indexOffset * objSize < 2 ^ 31 then .ok (ptr + indexOffset * objSize) else .error .undefined

/-- A piece has `n` items and `bytes` bytes. -/
abbrev PieceStep (S : Type) := (n bytes indexOffset : Nat) → S → Outcome S

def wholePieces (piece : PieceStep S) (emObj : Nat) : Nat → Nat → S → Outcome S
  | 0, _, s => .ok s
  | k + 1, indexOffset, s => do
    let s ← piece emObj objSize indexOffset s
    wholePieces piece emObj k (indexOffset + 1) s

/-- What `carm_fread` and `carm_fwrite` have in common. -/
def inPieces (piece : PieceStep S) (size nmemb : Nat) (s : S) : Outcome S := do
  if size = 0 then throw .undefined
  let emObj := objSize / size
  if objSize % size ≠ 0 then throw .exit
  if size > objSize then throw .exit
  let nmemObj := nmemb / emObj
  let nmemObjRem := nmemb % emObj
  let s ← wholePieces piece emObj nmemObj 0 s
  if nmemObjRem > 0 then piece nmemObjRem (nmemObjRem * size) nmemObj s else return s

structure Transfer (Stream : Type) where
  heap : Heap
  stream : Stream
  val : Nat

def fwritePiece (m : Manager) (tmpbuf ptr size : Nat) : PieceStep (Transfer (List UInt8)) :=
  fun n bytes indexOffset s => do
    let h := s.heap.memset tmpbuf 0 objSize
    let src ← pieceAddr ptr indexOffset
    let (h, _) ← Heap.carmMemcpy m h tmpbuf src bytes
    let (stream, written) := h.fwrite tmpbuf size n s.stream
    return ⟨h, stream, s.val + written⟩

def freadPiece (m : Manager) (tmpbuf ptr size : Nat) : PieceStep (Transfer (Feed UInt8)) :=
  fun n bytes indexOffset s => do
    let h := s.heap.memset tmpbuf 0 objSize
    let (h, stream, read) := h.fread tmpbuf size n s.stream
    let dst ← pieceAddr ptr indexOffset
    let (h, _) ← Heap.carmMemcpy m h dst tmpbuf bytes
    return ⟨h, stream, s.val + read⟩

/-- `tmpbuf` is where the bounce buffer is on the stack. -/
def carmFwrite (m : Manager) (h : Heap) (tmpbuf ptr size nmemb : Nat) (stream : List UInt8) :
    Outcome (Transfer (List UInt8)) :=
  if !checkCarmObject ptr then
    let (stream, val) := h.fwrite ptr size nmemb stream
    .ok ⟨h, stream, val⟩
  else inPieces (fwritePiece m tmpbuf ptr size) size nmemb ⟨h, stream, 0⟩

def carmFread (m : Manager) (h : Heap) (tmpbuf ptr size nmemb : Nat) (stream : Feed UInt8) :
    Outcome (Transfer (Feed UInt8)) :=
  if !checkCarmObject ptr then
    let (h, stream, val) := h.fread ptr size nmemb stream
    .ok ⟨h, stream, val⟩
  else inPieces (freadPiece m tmpbuf ptr size) size nmemb ⟨h, stream, 0⟩

-- ---------------------------------------------------------------------------
-- All pieces
-- ---------------------------------------------------------------------------

def Advances (piece : PieceStep S) (size total : Nat) (P : Nat → S → Prop) : Prop :=
  ∀ n bytes i s, n * size = bytes → bytes ≤ objSize → i * objSize + bytes ≤ total →
    i * objSize < 2 ^ 31 → P (i * objSize) s →
    ∃ s', piece n bytes i s = .ok s' ∧ P (i * objSize + bytes) s'

def Bounded (piece : PieceStep S) : Prop :=
  ∀ n bytes i s s', piece n bytes i s = .ok s' → i * objSize < 2 ^ 31

section

variable {S : Type} {piece : PieceStep S} {P : Nat → S → Prop} {s s' : S}
  {size nmemb total emObj k i : Nat}

theorem next_piece : (i + 1) * objSize = i * objSize + objSize := Nat.add_one_mul i _

theorem Advances.whole (ha : Advances piece size total P) (hem : emObj * size = objSize)
    (hle : (i + k) * objSize ≤ total) (htotal : total ≤ 2 ^ 31) (hp : P (i * objSize) s) :
    ∃ s', wholePieces piece emObj k i s = .ok s' ∧ P ((i + k) * objSize) s' := by
  induction k generalizing i s with
  | zero => exact ⟨s, rfl, hp⟩
  | succ k ih =>
    have hnext := next_piece (i := i)
    rw [show i + (k + 1) = i + 1 + k by omega] at hle ⊢
    have hend : i * objSize + objSize ≤ total :=
      hnext ▸ (Nat.mul_le_mul_right objSize (Nat.le_add_right (i + 1) k)).trans hle
    have hlt : i * objSize < 2 ^ 31 :=
      (Nat.lt_add_of_pos_right (by decide)).trans_le (hend.trans htotal)
    obtain ⟨s₁, hr, hp₁⟩ := ha emObj objSize i s hem (Nat.le_refl _) hend hlt hp
    rw [← hnext] at hp₁
    obtain ⟨s₂, hr', hp₂⟩ := ih hle hp₁
    refine ⟨s₂, ?_, hp₂⟩
    rw [wholePieces, hr]
    exact hr'

theorem piece_end (hi : i * objSize < 2 ^ 31) : (i + 1) * objSize ≤ 2 ^ 31 := by
  simp only [objSize] at hi ⊢
  omega

theorem Bounded.whole (hb : Bounded piece) (hk : 0 < k)
    (hr : wholePieces piece emObj k i s = .ok s') : (i + k) * objSize ≤ 2 ^ 31 := by
  induction k generalizing i s with
  | zero => exact absurd hk (Nat.lt_irrefl 0)
  | succ k ih =>
    rw [wholePieces, bind_ok] at hr
    obtain ⟨s₁, hp, hr⟩ := hr
    have hi := hb _ _ _ _ _ hp
    cases k with
    | zero =>
      exact piece_end hi
    | succ k =>
      rw [show i + (k + 1 + 1) = i + 1 + (k + 1) by omega]
      exact ih (Nat.succ_pos k) hr

theorem pieces_count (nmemb : Nat) (hsize : size ∣ objSize) (hpos : size ≠ 0) :
    0 < objSize / size ∧ objSize / size * size = objSize ∧
      nmemb / (objSize / size) * objSize + nmemb % (objSize / size) * size = nmemb * size := by
  have hem : objSize / size * size = objSize := Nat.div_mul_cancel hsize
  refine ⟨Nat.div_pos (Nat.le_of_dvd (by decide) hsize) (Nat.pos_of_ne_zero hpos), hem, ?_⟩
  calc nmemb / (objSize / size) * objSize + nmemb % (objSize / size) * size
      = nmemb / (objSize / size) * (objSize / size * size) + nmemb % (objSize / size) * size := by
        rw [hem]
    _ = (objSize / size * (nmemb / (objSize / size)) + nmemb % (objSize / size)) * size := by ring
    _ = nmemb * size := by rw [Nat.div_add_mod]

theorem inPieces_eq (hsize : size ∣ objSize) (hpos : size ≠ 0) :
    inPieces piece size nmemb s = (do
      let s ← wholePieces piece (objSize / size) (nmemb / (objSize / size)) 0 s
      if 0 < nmemb % (objSize / size) then
        piece (nmemb % (objSize / size)) (nmemb % (objSize / size) * size)
          (nmemb / (objSize / size)) s
      else return s) := by
  have hle := Nat.le_of_dvd (show 0 < objSize by decide) hsize
  simp [inPieces, hpos, Nat.mod_eq_zero_of_dvd hsize, Nat.not_lt.mpr hle]

theorem Advances.pieces (ha : Advances piece size (nmemb * size) P) (hsize : size ∣ objSize)
    (hpos : size ≠ 0) (htotal : nmemb * size ≤ 2 ^ 31) (hp : P 0 s) :
    ∃ s', inPieces piece size nmemb s = .ok s' ∧ P (nmemb * size) s' := by
  obtain ⟨hem, hmul, hsum⟩ := pieces_count nmemb hsize hpos
  obtain ⟨s₁, hr, hp₁⟩ := @Advances.whole _ _ _ s _ _ _ (nmemb / (objSize / size)) 0 ha hmul
    (by rw [Nat.zero_add]; omega) htotal (by rwa [Nat.zero_mul])
  rw [Nat.zero_add] at hp₁
  have hrun : inPieces piece size nmemb s =
      if 0 < nmemb % (objSize / size) then
        piece (nmemb % (objSize / size)) (nmemb % (objSize / size) * size)
          (nmemb / (objSize / size)) s₁
      else .ok s₁ := by
    rw [inPieces_eq hsize hpos, hr]
    rfl
  rw [hrun]
  have hlast : nmemb % (objSize / size) * size < objSize :=
    (Nat.mul_lt_mul_of_pos_right (Nat.mod_lt _ hem) (Nat.pos_of_ne_zero hpos)).trans_eq hmul
  by_cases hrem : 0 < nmemb % (objSize / size)
  · rw [if_pos hrem]
    have hbytes := Nat.mul_pos hrem (Nat.pos_of_ne_zero hpos)
    rw [← hsum]
    exact ha _ _ _ s₁ rfl (Nat.le_of_lt hlast) (Nat.le_of_eq hsum) (by omega) hp₁
  · rw [if_neg hrem]
    obtain hrem := Nat.eq_zero_of_not_pos hrem
    rw [hrem, Nat.zero_mul, Nat.add_zero] at hsum
    exact ⟨s₁, rfl, hsum ▸ hp₁⟩

theorem Bounded.pieces (hb : Bounded piece) (hsize : size = 0 ∨ size ∣ objSize)
    (hr : inPieces piece size nmemb s = .ok s') : size ≠ 0 ∧ nmemb * size ≤ 2 ^ 31 := by
  by_cases hpos : size = 0
  · rw [inPieces, if_pos hpos] at hr
    exact nomatch hr
  replace hsize := hsize.resolve_left hpos
  refine ⟨hpos, ?_⟩
  obtain ⟨hem, hmul, hsum⟩ := pieces_count nmemb hsize hpos
  rw [inPieces_eq hsize hpos, bind_ok] at hr
  obtain ⟨s₁, hw, hr⟩ := hr
  have hlast : nmemb % (objSize / size) * size < objSize :=
    (Nat.mul_lt_mul_of_pos_right (Nat.mod_lt _ hem) (Nat.pos_of_ne_zero hpos)).trans_eq hmul
  by_cases hrem : 0 < nmemb % (objSize / size)
  · rw [if_pos hrem] at hr
    have := piece_end (hb _ _ _ _ _ hr)
    rw [next_piece] at this
    omega
  · obtain hrem := Nat.eq_zero_of_not_pos hrem
    rw [hrem, Nat.zero_mul, Nat.add_zero] at hsum
    rw [← hsum]
    rcases Nat.eq_zero_or_pos (nmemb / (objSize / size)) with hk | hk
    · rw [hk, Nat.zero_mul]
      exact Nat.zero_le _
    · have := hb.whole hk hw
      rwa [Nat.zero_add] at this

end

-- ---------------------------------------------------------------------------
-- What is stored
-- ---------------------------------------------------------------------------

open Heap (Coherent Keeps Usable Writes Buffer store_app view_untagged)

/-- Local memory of the call itself, outside the object cache. -/
structure Own (m : Manager) (a r : Nat) : Prop where
  outside : ∀ j < r, a + j < m.lo ∨ m.hi ≤ a + j
  untagged : a + r ≤ startAddr

/-- `f` is written to `[d, d + n)`; of the rest only the call's own memory
`[a, a + r)` changes. -/
structure Stored (m : Manager) (h h' : Heap) (a r d n : Nat) (f : Nat → UInt8) : Prop where
  coherent : Coherent m h'
  current : ∀ i, h.Current i → h'.Current i
  view : ∀ b, Usable m h b → b < a ∨ a + r ≤ b → h'.view m b = blit (h.view m) d n f b

abbrev Confined (m : Manager) (h h' : Heap) (a r : Nat) : Prop :=
  Stored m h h' a r a 0 fun _ => 0

section

variable {m : Manager} {h h' h₁ h₂ : Heap} {tmpbuf a r d n k x i : Nat} {f g : Nat → UInt8}
  {stream : Feed UInt8}

theorem Own.sub (ho : Own m a r) (hd : a ≤ d) (hk : d + k ≤ a + r) : Own m d k where
  outside j hj := by
    obtain ⟨c, rfl⟩ := Nat.exists_eq_add_of_le hd
    rw [Nat.add_assoc]
    exact ho.outside _ (by omega)
  untagged := hk.trans ho.untagged

theorem Own.front (ho : Own m a r) (hn : n ≤ r) : Own m a n :=
  ho.sub (Nat.le_refl a) (Nat.add_le_add_left hn a)

theorem Own.buffer (ho : Own m a r) : Buffer m h r a := .app ho.outside ho.untagged

theorem Own.store (ho : Own m a r) (hc : Coherent m h) : Writes m h (h.store a r f) a r f :=
  store_app hc ho.outside ho.untagged

theorem Own.lt_start (ho : Own m a r) (hr : 0 < r) : a < startAddr :=
  (Nat.lt_add_of_pos_right hr).trans_le ho.untagged

theorem Own.le_remote (ho : Own m a r) : a + r ≤ startAddr + x + k :=
  ho.untagged.trans ((Nat.le_add_right _ _).trans (Nat.le_add_right _ _))

theorem Stored.refl (hc : Coherent m h) : Stored m h h a r d 0 f :=
  ⟨hc, fun _ => id, fun b _ _ => by rw [Lib.blit_zero]⟩

theorem Confined.view (hf : Confined m h h' a r) {b : Nat} (hu : Usable m h b)
    (hb : b < a ∨ a + r ≤ b) : h'.view m b = h.view m b := by
  rw [Stored.view hf b hu hb, Lib.blit_zero]

theorem Stored.keeps (hs : Stored m h h₁ a r d n f) (hk : Keeps m h₁ h₂) :
    Stored m h h₂ a r d n f where
  coherent := hk.coherent
  current i hi := hk.current i (hs.current i hi)
  view b hu hb := (hk.view hs.coherent (hu.mono hs.current)).trans (hs.view b hu hb)

theorem Stored.scratch {c : Nat} (hs : Stored m h h₁ a r d n f) (hw : Writes m h₁ h₂ c k g)
    (hc : a ≤ c) (hk : c + k ≤ a + r) : Stored m h h₂ a r d n f where
  coherent := hw.coherent
  current i hi := hw.current i (hs.current i hi)
  view b hu hb := by
    rw [hw.view b (hu.mono hs.current), blit_out (by omega), hs.view b hu hb]

theorem Stored.bounce (hs : Stored m h h₁ a r d n f) (hw : Writes m h₁ h₂ a k g) (hk : k ≤ r) :
    Stored m h h₂ a r d n f :=
  hs.scratch hw (Nat.le_refl a) (Nat.add_le_add_left hk a)

theorem Stored.writes (hs : Stored m h h₁ a r d n f) (hw : Writes m h₁ h₂ (d + n) k g)
    (hg : ∀ j < k, g j = f (n + j)) : Stored m h h₂ a r d (n + k) f where
  coherent := hw.coherent
  current i hi := hw.current i (hs.current i hi)
  view b hu hb := by
    rw [hw.view b (hu.mono hs.current)]
    by_cases hin : d + n ≤ b ∧ b < d + n + k
    · rw [blit_in hin.1 hin.2, blit_in (by omega) (by omega), hg _ (by omega)]
      congr 1
      omega
    · rw [blit_out (by omega), hs.view b hu hb]
      by_cases hd : d ≤ b ∧ b < d + n
      · rw [blit_in hd.1 hd.2, blit_in hd.1 (by omega)]
      · rw [blit_out (by omega), blit_out (by omega)]

theorem pieceAddr_eq (hi : i * objSize < 2 ^ 31) :
    pieceAddr (startAddr + x) i = .ok (startAddr + (x + i * objSize)) := by
  rw [pieceAddr, if_pos hi, Nat.add_assoc]

theorem fread_store (h : Heap) :
    h.fread tmpbuf k n stream = (h.store tmpbuf (stream.got (n * k)).length fun j =>
      (stream.got (n * k)).getD j 0, (stream.request (n * k)).2, (stream.got (n * k)).length / k) := rfl

theorem fread_view (ht : Own m tmpbuf objSize) (hn : n ≤ objSize) (hk : k < n) :
    ((h.memset tmpbuf 0 objSize).store tmpbuf (stream.got n).length fun j =>
      (stream.got n).getD j 0).view m (tmpbuf + k) = (stream.got n).getD k 0 := by
  have hlt : tmpbuf + k < 2 ^ 60 := (Nat.add_lt_add_left (hk.trans_le hn) _).trans_le ht.untagged
  rw [view_untagged hlt]
  simp only [Heap.memset, Heap.store]
  by_cases hd : k < (stream.got n).length
  · rw [Lib.blit_at hd]
  · rw [blit_out (by omega), Lib.blit_at (hk.trans_le hn)]
    simp [List.getD, List.getElem?_eq_none (Nat.le_of_not_lt hd), lowByte]

-- ---------------------------------------------------------------------------
-- One piece
-- ---------------------------------------------------------------------------

def rangeBytes (m : Manager) (h : Heap) (a n : Nat) : List UInt8 :=
  (List.range n).map fun j => h.view m (a + j)

theorem rangeBytes_add {a : Nat} :
    rangeBytes m h a (n + k) = rangeBytes m h a n ++ rangeBytes m h (a + n) k := by
  simp [rangeBytes, List.range_add, Nat.add_assoc, Function.comp_def]

/-- What is stored at byte `j`: a zero where its piece delivers less. -/
def freadByte (stream : Feed UInt8) (j : Nat) : UInt8 := (stream.arrives objSize j).getD 0

structure FreadDone (m : Manager) (h : Heap) (tmpbuf ptr size : Nat) (stream : Feed UInt8) (n : Nat)
    (s : Transfer (Feed UInt8)) : Prop where
  stored : Stored m h s.heap tmpbuf objSize ptr n (freadByte stream)
  rest : n % objSize = 0 → s.stream = stream.after objSize (n / objSize)
  val : s.val = stream.items objSize size n

structure FwriteDone (m : Manager) (h : Heap) (tmpbuf ptr size : Nat) (stream : List UInt8)
    (n : Nat) (s : Transfer (List UInt8)) : Prop where
  kept : Confined m h s.heap tmpbuf objSize
  appended : s.stream = stream ++ rangeBytes m h ptr n
  val : s.val = n / size

theorem freadPiece_advances {size total : Nat} (ht : Own m tmpbuf objSize)
    (hcur : ∀ j < total, h.Current ((x + j) / objSize)) :
    Advances (freadPiece m tmpbuf (startAddr + x) size) size total
      (FreadDone m h tmpbuf (startAddr + x) size stream) := by
  intro n bytes i s hbytes hle hend hi hs
  subst hbytes
  have hstream : s.stream = stream.after objSize i := by
    rw [hs.rest (Nat.mul_mod_left ..), Nat.mul_div_cancel i (by decide)]
  -- the buffer cleared, the bytes delivered into it, and all of it copied out
  have hset : Writes m s.heap (s.heap.memset tmpbuf 0 objSize) tmpbuf objSize _ :=
    ht.store hs.stored.coherent
  have hfit : (s.stream.got (n * size)).length ≤ objSize := Feed.got_length_le.trans hle
  have hread := (ht.front hfit).store (f := fun j => (s.stream.got (n * size)).getD j 0)
    hset.coherent
  have hbounced := (hs.stored.bounce hset (Nat.le_refl _)).bounce hread hfit
  have hdst : Buffer m _ (n * size) (startAddr + (x + i * objSize)) := .remote fun j hj => by
    have hj := hcur (i * objSize + j) ((Nat.add_lt_add_left hj _).trans_le hend)
    rw [← Nat.add_assoc] at hj
    exact hbounced.current _ hj
  obtain ⟨h', hcopy, hw⟩ := hdst.memmoves (ht.front hle).buffer hbounced.coherent
    (hle.trans_lt (by decide)) (.inr (.inl (ht.lt_start (by decide))))
  refine ⟨⟨h', (s.stream.request (n * size)).2, s.val + (s.stream.got (n * size)).length / size⟩,
    ?_, ?_⟩
  · simp only [freadPiece, fread_store, pieceAddr_eq hi]
    simp only [bind, Except.bind, hcopy, pure, Except.pure]
  · refine ⟨?_, fun hwhole => ?_, ?_⟩
    · rw [← Nat.add_assoc] at hw
      refine hbounced.writes hw fun j hj => ?_
      rw [fread_view ht hle hj, freadByte, Feed.arrives_add hj hle, hstream, List.getD]
    · rw [Nat.mul_add_mod'] at hwhole
      rcases Nat.lt_or_eq_of_le hle with hlt | hfull
      · rw [Nat.mod_eq_of_lt hlt] at hwhole
        rw [hwhole, Nat.add_zero, Nat.mul_div_cancel i (by decide), hstream]
        rfl
      · rw [hfull, ← next_piece, Nat.mul_div_cancel _ (by decide), hstream]
        rfl
    · show s.val + _ = _
      rw [hs.val, hstream, Feed.items_add (by decide) hle]

theorem fwritePiece_advances {stream : List UInt8} {size total : Nat} (ht : Own m tmpbuf objSize) (hpos : size ≠ 0)
    (hsize : size ∣ objSize) (hcur : ∀ j < total, h.Current ((x + j) / objSize)) :
    Advances (fwritePiece m tmpbuf (startAddr + x) size) size total
      (FwriteDone m h tmpbuf (startAddr + x) size stream) := by
  intro n bytes i s hbytes hle hend hi hs
  subst hbytes
  have hset : Writes m s.heap (s.heap.memset tmpbuf 0 objSize) tmpbuf objSize _ :=
    ht.store hs.kept.coherent
  have hbounced := hs.kept.bounce hset (Nat.le_refl _)
  have hpiece : ∀ j < n * size, h.Current ((x + i * objSize + j) / objSize) := fun j hj => by
    have hj := hcur (i * objSize + j) ((Nat.add_lt_add_left hj _).trans_le hend)
    rwa [← Nat.add_assoc] at hj
  have hsrc : Buffer m _ (n * size) (startAddr + (x + i * objSize)) := .remote fun j hj =>
    hbounced.current _ (hpiece j hj)
  obtain ⟨h', hcopy, hw⟩ := (ht.front hle).buffer.memmoves hsrc hbounced.coherent
    (hle.trans_lt (by decide)) (.inl (ht.lt_start (by decide)))
  have hbytes : ∀ j < n * size,
      h'.mem (tmpbuf + j) = h.view m (startAddr + (x + i * objSize) + j) := fun j hj => by
    have hlt : tmpbuf + j < 2 ^ 60 := (Nat.add_lt_add_left (hj.trans_le hle) _).trans_le ht.untagged
    have hbuf : Buffer m h (n * size) tmpbuf := (ht.front hle).buffer
    rw [← view_untagged (m := m) hlt, hw.view _ ((hbuf.usable j hj).mono hbounced.current),
      Lib.blit_at hj, Confined.view hbounced ((Buffer.remote hpiece).usable j hj)
        (.inr ht.le_remote)]
  refine ⟨⟨h', (h'.fwrite tmpbuf size n s.stream).1, s.val + (h'.fwrite tmpbuf size n s.stream).2⟩,
    ?_, ?_⟩
  · simp only [fwritePiece, pieceAddr_eq hi]
    simp only [bind, Except.bind, hcopy, pure, Except.pure]
  · refine ⟨hbounced.bounce hw hle, ?_, ?_⟩
    · rw [rangeBytes_add, ← List.append_assoc, ← hs.appended, Nat.add_assoc]
      exact congrArg _ (List.map_congr_left fun j hj => hbytes j (List.mem_range.mp hj))
    · show s.val + (if size = 0 then 0 else n) = _
      rw [if_neg hpos, hs.val, Nat.add_div_of_dvd_right (hsize.mul_left i),
        Nat.mul_div_cancel _ (Nat.pos_of_ne_zero hpos)]

theorem pieceAddr_out {ptr : Nat} (hi : ¬ i * objSize < 2 ^ 31) :
    pieceAddr ptr i = .error .undefined := by
  rw [pieceAddr, if_neg hi]

theorem fwritePiece_bounded {ptr size : Nat} : Bounded (fwritePiece m tmpbuf ptr size) := by
  intro n bytes i s s' hr
  by_contra hi
  simp [fwritePiece, pieceAddr_out hi, bind, Except.bind] at hr

theorem freadPiece_bounded {ptr size : Nat} : Bounded (freadPiece m tmpbuf ptr size) := by
  intro n bytes i s s' hr
  by_contra hi
  simp [freadPiece, pieceAddr_out hi, bind, Except.bind] at hr

end

-- ---------------------------------------------------------------------------
-- The calls
-- ---------------------------------------------------------------------------

/-- The call returns the items of `fread`, has its bytes at `ptr`, and changes
nothing past the last byte read. -/
def Delivers (m : Manager) (h : Heap) (tmpbuf ptr size nmemb : Nat) (stream : Feed UInt8) : Prop :=
  ∃ s, carmFread m h tmpbuf ptr size nmemb stream = .ok s ∧
    s.val = (h.fread ptr size nmemb stream).2.2 ∧
    (∀ j < s.val * size, (stream.got (nmemb * size))[j]? = some (s.heap.view m (ptr + j))) ∧
    ∀ a, Usable m h a → a < tmpbuf ∨ tmpbuf + objSize ≤ a →
      a < ptr ∨ ptr + (stream.got (nmemb * size)).length ≤ a → s.heap.view m a = h.view m a

/-- Once the stream falls short of `n` bytes, no later piece gets a whole item, and
from there on the range holds what the pieces get, and zeros. -/
structure FallsQuiet (m : Manager) (h : Heap) (ptr size n : Nat) (stream : Feed UInt8) : Prop where
  items : ∀ p, (stream.got n).length / objSize < p → p ≤ n / objSize →
    (stream.piece objSize n p).length < size
  holds : ∀ j, (stream.got n).length ≤ j → j < n →
    h.view m (ptr + j) = ((stream.piece objSize n (j / objSize))[j % objSize]?).getD 0

def Restores (m : Manager) (bytes : List UInt8) (size nmemb : Nat) : Prop :=
  ∀ h tmpbuf y, Coherent m h → Own m tmpbuf objSize → y < 2 ^ 60 →
    (∀ j < nmemb * size, h.Current ((y + j) / objSize)) →
    ∃ s, carmFread m h tmpbuf (startAddr + y) size nmemb (bytes.map some) = .ok s ∧
      rangeBytes m s.heap (startAddr + y) (nmemb * size) = bytes

def Emits (m : Manager) (h : Heap) (tmpbuf ptr size nmemb : Nat) (stream : List UInt8) : Prop :=
  ∃ s, carmFwrite m h tmpbuf ptr size nmemb stream = .ok s ∧
    s.stream = stream ++ rangeBytes m h ptr (nmemb * size) ∧
    s.val = (h.fwrite ptr size nmemb stream).2 ∧
    (∀ a, Usable m h a → a < tmpbuf ∨ tmpbuf + objSize ≤ a → s.heap.view m a = h.view m a) ∧
    Restores m (rangeBytes m h ptr (nmemb * size)) size nmemb

section

variable {m : Manager} {h : Heap} {tmpbuf x size nmemb : Nat} {stream : Feed UInt8}

theorem carmFread_start (hx : x < 2 ^ 60) :
    carmFread m h tmpbuf (startAddr + x) size nmemb stream =
      inPieces (freadPiece m tmpbuf (startAddr + x) size) size nmemb ⟨h, stream, 0⟩ := by
  simp [carmFread, checkCarmObject_start hx]

theorem size_ne_zero (hsize : size ∣ objSize) : size ≠ 0 := by
  rintro rfl
  exact absurd (Nat.eq_zero_of_zero_dvd hsize) (by decide)

theorem carmFread_done (stream : Feed UInt8) (hc : Coherent m h) (ht : Own m tmpbuf objSize)
    (hx : x < 2 ^ 60) (hsize : size ∣ objSize)
    (hcur : ∀ j < nmemb * size, h.Current ((x + j) / objSize))
    (htotal : nmemb * size ≤ 2 ^ 31) :
    ∃ s, carmFread m h tmpbuf (startAddr + x) size nmemb stream = .ok s ∧
      FreadDone m h tmpbuf (startAddr + x) size stream (nmemb * size) s := by
  rw [carmFread_start hx]
  refine (freadPiece_advances ht hcur).pieces hsize (size_ne_zero hsize) htotal
    ⟨.refl hc, fun _ => rfl, ?_⟩
  exact (Nat.zero_div size).symm

theorem FreadDone.view {s : Transfer (Feed UInt8)} (hs : FreadDone m h tmpbuf (startAddr + x) size
      stream (nmemb * size) s) (ht : Own m tmpbuf objSize)
    (hcur : ∀ j < nmemb * size, h.Current ((x + j) / objSize)) (hj : j < nmemb * size) :
    s.heap.view m (startAddr + x + j) = freadByte stream j := by
  rw [hs.stored.view _ ((Buffer.remote hcur).usable j hj) (.inr ht.le_remote), Lib.blit_at hj]

theorem FreadDone.delivers {s : Transfer (Feed UInt8)} (hs : FreadDone m h tmpbuf (startAddr + x)
      size stream (nmemb * size) s) (ht : Own m tmpbuf objSize) (hsize : size ∣ objSize)
    (hcur : ∀ j < nmemb * size, h.Current ((x + j) / objSize))
    (hr : carmFread m h tmpbuf (startAddr + x) size nmemb stream = .ok s)
    (hquiet : FallsQuiet m h (startAddr + x) size (nmemb * size) stream) :
    Delivers m h tmpbuf (startAddr + x) size nmemb stream := by
  have hval : s.val = (stream.got (nmemb * size)).length / size :=
    hs.val.trans ((Feed.items_eq_iff (by decide) hsize).mpr hquiet.items)
  refine ⟨s, hr, hval, fun j hj => ?_, fun a hu hout ha => ?_⟩
  · rw [hval] at hj
    have hlen := hj.trans_le (Nat.div_mul_le_self _ size)
    rw [hs.view ht hcur (hlen.trans_le Feed.got_length_le), freadByte,
      Feed.arrives_of_lt (by decide) hlen, List.getElem?_eq_getElem hlen]
    rfl
  · by_cases hin : startAddr + x ≤ a ∧ a < startAddr + x + nmemb * size
    · obtain ⟨j, rfl⟩ := Nat.exists_eq_add_of_le hin.1
      have hj : j < nmemb * size := Nat.lt_of_add_lt_add_left hin.2
      rw [hs.view ht hcur hj, hquiet.holds j (by omega) hj, Feed.piece_getElem? hj, freadByte]
    · rw [hs.stored.view a hu hout, blit_out (by omega)]

/-- A stream that ends, in a range of zeros from there on. -/
theorem fallsQuiet_ends {bytes : List UInt8} {a : Nat} (hsize : 0 < size)
    (hzero : ∀ j, bytes.length ≤ j → j < n → h.view m (a + j) = 0) :
    FallsQuiet m h a size n (bytes.map some) where
  items p hp hle := by
    rw [Feed.got_map_some, List.length_take] at hp
    have hdrop : bytes.length ≤ p * objSize ∨ n ≤ p * objSize := by
      have := (Nat.div_lt_iff_lt_mul (show 0 < objSize by decide)).mp hp
      omega
    rw [Feed.piece_map_some]
    refine (Nat.le_of_eq ?_).trans_lt hsize
    rw [List.length_take, List.length_drop]
    omega
  holds j hj hn := by
    rw [Feed.got_map_some, List.length_take] at hj
    have hmod := Nat.div_add_mod' j objSize
    rw [hzero j (by omega) hn, Feed.piece_map_some, List.getElem?_take]
    split
    · rw [List.getElem?_drop, hmod, List.getElem?_eq_none (by omega)]
      rfl
    · rfl

theorem Delivers.quiet (hd : Delivers m h tmpbuf (startAddr + x) size nmemb stream)
    (hc : Coherent m h) (ht : Own m tmpbuf objSize) (hx : x < 2 ^ 60) (hsize : size ∣ objSize)
    (hcur : ∀ j < nmemb * size, h.Current ((x + j) / objSize)) :
    nmemb * size ≤ 2 ^ 31 ∧ FallsQuiet m h (startAddr + x) size (nmemb * size) stream := by
  obtain ⟨s, hr, hval, -, hframe⟩ := hd
  have htotal := (freadPiece_bounded.pieces (.inr hsize) (carmFread_start hx ▸ hr)).2
  obtain ⟨s', hr', hs⟩ := carmFread_done stream hc ht hx hsize hcur htotal
  obtain rfl := Except.ok.inj (hr.symm.trans hr')
  refine ⟨htotal, (Feed.items_eq_iff (by decide) hsize).mp (hs.val.symm.trans hval),
    fun j hlen hj => ?_⟩
  have hu := (Buffer.remote hcur : Buffer m h _ _).usable j hj
  rw [← hframe _ hu (.inr ht.le_remote) (.inr (by omega)), hs.view ht hcur hj,
    Feed.piece_getElem? hj, freadByte]

end

section

variable {m : Manager} {h : Heap} {tmpbuf x size nmemb : Nat} {stream : List UInt8}

theorem carmFwrite_start (hx : x < 2 ^ 60) :
    carmFwrite m h tmpbuf (startAddr + x) size nmemb stream =
      inPieces (fwritePiece m tmpbuf (startAddr + x) size) size nmemb ⟨h, stream, 0⟩ := by
  simp [carmFwrite, checkCarmObject_start hx]

theorem carmFwrite_done (hc : Coherent m h) (ht : Own m tmpbuf objSize) (hx : x < 2 ^ 60)
    (hsize : size ∣ objSize) (hcur : ∀ j < nmemb * size, h.Current ((x + j) / objSize))
    (htotal : nmemb * size ≤ 2 ^ 31) :
    ∃ s, carmFwrite m h tmpbuf (startAddr + x) size nmemb stream = .ok s ∧
      FwriteDone m h tmpbuf (startAddr + x) size stream (nmemb * size) s := by
  rw [carmFwrite_start hx]
  refine (fwritePiece_advances ht (size_ne_zero hsize) hsize hcur).pieces hsize (size_ne_zero hsize)
    htotal ⟨.refl hc, (List.append_nil _).symm, (Nat.zero_div _).symm⟩

theorem restores {bytes : List UInt8} (hsize : size ∣ objSize) (htotal : nmemb * size ≤ 2 ^ 31)
    (hlen : bytes.length = nmemb * size) : Restores m bytes size nmemb := by
  intro h tmpbuf y hc ht hy hcur
  obtain ⟨s, hr, hs⟩ := carmFread_done (bytes.map some) hc ht hy hsize hcur htotal
  refine ⟨s, hr, List.ext_getElem (by simp [rangeBytes, hlen]) fun j hj _ => ?_⟩
  have hj : j < nmemb * size := by simpa [rangeBytes] using hj
  have hgot : Feed.got (nmemb * size) (bytes.map some) = bytes := by
    rw [Feed.got_map_some, ← hlen, List.take_length]
  have hview := hs.view ht hcur hj
  rw [freadByte, Feed.arrives_of_lt (n := nmemb * size) (by decide) (by rwa [hgot, hlen]),
    hgot, List.getElem?_eq_getElem (by rwa [hlen])] at hview
  simpa [rangeBytes] using hview

theorem FwriteDone.emits {s : Transfer (List UInt8)} (hs : FwriteDone m h tmpbuf (startAddr + x) size stream
      (nmemb * size) s)
    (hr : carmFwrite m h tmpbuf (startAddr + x) size nmemb stream = .ok s)
    (hsize : size ∣ objSize) (htotal : nmemb * size ≤ 2 ^ 31) :
    Emits m h tmpbuf (startAddr + x) size nmemb stream := by
  have hpos := size_ne_zero hsize
  refine ⟨s, hr, hs.appended, ?_, fun a hu hout => ?_, restores hsize htotal (by simp [rangeBytes])⟩
  · rw [hs.val, Nat.mul_div_cancel _ (Nat.pos_of_ne_zero hpos), Heap.fwrite]
    exact (if_neg hpos).symm
  · exact Confined.view hs.kept hu hout

end

theorem carmFread_delivers_iff {m : Manager} {h : Heap} {tmpbuf x size nmemb : Nat}
    {stream : Feed UInt8} (hc : Coherent m h) (ht : Own m tmpbuf objSize) (hx : x < 2 ^ 60)
    (hsize : size ∣ objSize) (hcur : ∀ j < nmemb * size, h.Current ((x + j) / objSize)) :
    Delivers m h tmpbuf (startAddr + x) size nmemb stream ↔ nmemb * size ≤ 2 ^ 31 ∧
      FallsQuiet m h (startAddr + x) size (nmemb * size) stream := by
  refine ⟨fun hd => hd.quiet hc ht hx hsize hcur, fun ⟨htotal, hquiet⟩ => ?_⟩
  obtain ⟨s, hr, hs⟩ := carmFread_done stream hc ht hx hsize hcur htotal
  exact hs.delivers ht hsize hcur hr hquiet

theorem carmFwrite_emits_iff {m : Manager} {h : Heap} {tmpbuf x size nmemb : Nat}
    {stream : List UInt8} (hc : Coherent m h) (ht : Own m tmpbuf objSize) (hx : x < 2 ^ 60)
    (hsize : size = 0 ∨ size ∣ objSize)
    (hcur : ∀ j < nmemb * size, h.Current ((x + j) / objSize)) :
    Emits m h tmpbuf (startAddr + x) size nmemb stream ↔ size ≠ 0 ∧ nmemb * size ≤ 2 ^ 31 := by
  constructor
  · rintro ⟨s, hr, -⟩
    exact fwritePiece_bounded.pieces hsize (carmFwrite_start hx ▸ hr)
  · rintro ⟨hpos, htotal⟩
    have hdvd := hsize.resolve_left hpos
    obtain ⟨s, hr, hs⟩ := carmFwrite_done hc ht hx hdvd hcur htotal
    exact hs.emits hr hdvd htotal

-- Ranges of a heap with one byte set
-- ---------------------------------------------------------------------------

def writtenHeap : Heap :=
  guardedWrite cacheManager (init (fun _ => none) fun _ => 0).heap (startAddr + 7) 1 fun _ => 7

theorem writtenHeap_writes :
    Writes cacheManager (init (fun _ => none) fun _ => 0).heap writtenHeap (startAddr + 7) 1
      fun _ => 7 :=
  guardedWrite_writes init_coherent (Heap.init_current (x := 7) (by decide)) (by decide)

theorem writtenHeap_current (hn : x + n ≤ kWorkingSetSize) :
    ∀ j < n, writtenHeap.Current ((x + j) / objSize) := fun _ hj =>
  writtenHeap_writes.current _ (Heap.init_current ((Nat.add_lt_add_left hj x).trans_le hn))

theorem writtenHeap_view (hx : x < kWorkingSetSize) :
    writtenHeap.view cacheManager (startAddr + x) = if x = 7 then 7 else 0 := by
  rw [writtenHeap_writes.view _ (.remote (Heap.init_current hx))]
  by_cases h7 : x = 7
  · rw [if_pos h7, h7]
    exact Lib.blit_at (j := 0) Nat.one_pos
  · have hptrs : (init (fun _ => none) fun _ => 0).heap.ptrs (x / objSize) = none := ite_self none
    rw [if_neg h7, blit_out (by omega), Heap.view_start (hx.trans (by decide)), Heap.byteAt, hptrs]
    rfl

theorem own_low {a r : Nat} (hr : a + r ≤ 2 ^ 46) : Own cacheManager a r where
  outside j hj := .inl (show a + j < Cache.lo from (Nat.add_lt_add_left hj a).trans_le hr)
  untagged := hr.trans (by decide)

theorem own_zero : Own cacheManager 0 objSize := own_low (by decide)

/-- A stream that has ended: the byte at the destination becomes 0. -/
theorem carmFread_zeroes : ¬∀ m h tmpbuf x size nmemb stream, Coherent m h → Own m tmpbuf objSize →
    x < 2 ^ 60 → size ∣ objSize → nmemb * size ≤ kWorkingSetSize →
    (∀ j < nmemb * size, h.Current ((x + j) / objSize)) →
    Delivers m h tmpbuf (startAddr + x) size nmemb stream := by
  intro hall
  have hcur := writtenHeap_current (x := 7) (n := 1 * 1) (by decide)
  have hd := hall cacheManager writtenHeap 0 7 1 1 [] writtenHeap_writes.coherent own_zero
    (by decide) (by decide) (by decide) hcur
  have hzero := (hd.quiet writtenHeap_writes.coherent own_zero (by decide) (by decide) hcur).2.holds
    0 (Nat.le_refl 0) (by decide)
  rw [Nat.add_zero, writtenHeap_view (by decide)] at hzero
  exact absurd hzero (by decide)

/-- Words read over three objects, from an odd offset on; the stream ends after 5000 bytes. -/
theorem carmFread_delivers_words : Delivers cacheManager writtenHeap 0 (startAddr + 5) 8 1500
    ((List.replicate 5000 9).map some) := by
  have hcur := writtenHeap_current (x := 5) (n := 1500 * 8) (by decide)
  refine (carmFread_delivers_iff writtenHeap_writes.coherent own_zero (by decide) (by decide)
    hcur).mpr ⟨by decide, fallsQuiet_ends (by decide) fun j hlen hj => ?_⟩
  rw [List.length_replicate] at hlen
  rw [Nat.add_assoc, writtenHeap_view (by
    show 5 + j < 17179869184 - 1073741824
    omega), if_neg (by omega)]

/-- No bytes to write: `OBJ_SIZE / size` divides by zero. -/
theorem carmFwrite_divides : ¬∀ m h tmpbuf x size nmemb stream, Coherent m h →
    Own m tmpbuf objSize → x < 2 ^ 60 → size = 0 ∨ size ∣ objSize → nmemb * size ≤ kWorkingSetSize →
    (∀ j < nmemb * size, h.Current ((x + j) / objSize)) →
    Emits m h tmpbuf (startAddr + x) size nmemb stream := by
  intro hall
  obtain ⟨s, hr, -⟩ := hall cacheManager writtenHeap 0 0 0 1 [] writtenHeap_writes.coherent
    own_zero (by decide) (.inl rfl) (by decide) fun j hj => absurd hj (Nat.not_lt_zero j)
  exact (fwritePiece_bounded.pieces (.inl rfl) (carmFwrite_start (x := 0) (by decide) ▸ hr)).1 rfl

/-- The same words written after one byte. -/
theorem carmFwrite_emits_words : Emits cacheManager writtenHeap 0 (startAddr + 5) 8 1500 [1] :=
  (carmFwrite_emits_iff writtenHeap_writes.coherent own_zero (by decide) (.inr (by decide))
    (writtenHeap_current (by decide))).mpr ⟨by decide, by decide⟩

end TrackFM
