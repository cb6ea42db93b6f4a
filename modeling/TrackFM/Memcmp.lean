import TrackFM.Libc

/-!
# carm_memcmp

`carm_memcmp` and its helpers of `libc_support.cpp`, with the conventions of
`TrackFM.Libc`. Of the result of `memcmp` only the sign is specified, so it is
an `Ordering`.
-/

namespace TrackFM

namespace Heap

/-- The first byte that differs decides. -/
def memcmp (h : Heap) (d s : Nat) : Nat → Ordering
  | 0 => .eq
  | n + 1 => (compare (h.mem d) (h.mem s)).then (memcmp h (d + 1) (s + 1) n)

/-- `_carm_memcmp_src_carm_ptr` -/
def carmMemcmpSrcLoop (m : Manager) (dst size : Nat) :
    Nat → Heap → CarmPtr → Nat → Outcome (Heap × Ordering)
  | 0, _, _, _ => .error .diverge
  | fuel + 1, h, carmSrc, bytesRead =>
    if bytesRead < size then
      let d := dst + bytesRead
      let (h, s) := ptrDeref m h carmSrc
      let chunkSize := objSize - carmSrc.offset
      if u32 (bytesRead + chunkSize) < size then
        match h.memcmp d s chunkSize with
        | .eq => carmMemcmpSrcLoop m dst size fuel h
            { carmSrc with objIndex := carmSrc.objIndex + 1, offset := 0 }
            (u32 (bytesRead + chunkSize))
        | ret => .ok (h, ret)
      else .ok (h, h.memcmp d s (size - bytesRead))
    else .ok (h, .eq)

/-- `_carm_memcmp_dst_carm_ptr` -/
def carmMemcmpDstLoop (m : Manager) (src size : Nat) :
    Nat → Heap → CarmPtr → Nat → Outcome (Heap × Ordering)
  | 0, _, _, _ => .error .diverge
  | fuel + 1, h, carmDst, bytesRead =>
    if bytesRead < size then
      let (h, d) := ptrDeref m h carmDst
      let s := src + bytesRead
      let chunkSize := objSize - carmDst.offset
      if u32 (bytesRead + chunkSize) < size then
        match h.memcmp d s chunkSize with
        | .eq => carmMemcmpDstLoop m src size fuel h
            { carmDst with objIndex := carmDst.objIndex + 1, offset := 0 }
            (u32 (bytesRead + chunkSize))
        | ret => .ok (h, ret)
      else .ok (h, h.memcmp d s (size - bytesRead))
    else .ok (h, .eq)

def carmMemcmpLoop (m : Manager) (dst src size : Nat) :
    Nat → Heap → Nat → Outcome (Heap × Ordering)
  | 0, _, _ => .error .diverge
  | fuel + 1, h, bytesRead =>
    if bytesRead < size then
      let carmDst := getCarmPtr (dst + bytesRead) false
      let carmSrc := getCarmPtr (src + bytesRead) false
      let (h, d) := ptrDeref m h carmDst
      let (h, s) := ptrDeref m h carmSrc
      let sizeDst := objSize - carmDst.offset
      let sizeSrc := objSize - carmSrc.offset
      let chunkSize := if min sizeDst sizeSrc = 0 then max sizeDst sizeSrc else min sizeDst sizeSrc
      if chunkSize = 0 then .error .exit
      else
        let ret :=
          if u32 (bytesRead + chunkSize) < size then h.memcmp d s chunkSize
          else h.memcmp d s (size - bytesRead)
        match ret with
        | .eq => carmMemcmpLoop m dst src size fuel h (u32 (bytesRead + chunkSize))
        | ret => .ok (h, ret)
    else .ok (h, .eq)

def carmMemcmp (m : Manager) (h : Heap) (dst src size : Nat) : Outcome (Heap × Ordering) :=
  if !checkCarmObject dst && !checkCarmObject src then .ok (h, h.memcmp dst src size)
  else if checkCarmObject dst && !checkCarmObject src then
    carmMemcmpDstLoop m src size (size + 1) h (getCarmPtr dst false) 0
  else if !checkCarmObject dst && checkCarmObject src then
    carmMemcmpSrcLoop m dst size (size + 1) h (getCarmPtr src false) 0
  else carmMemcmpLoop m dst src size (size + 1) h 0

variable {h : Heap}

theorem memcmp_eq_of_eq (heq : ∀ i < n, h.mem (d + i) = h.mem (s + i)) : h.memcmp d s n = .eq := by
  induction n generalizing d s with
  | zero => rfl
  | succ n ih =>
    have h₀ : h.mem d = h.mem s := heq 0 (Nat.succ_pos n)
    rw [memcmp, h₀, ih fun i hi => by
      rw [Nat.add_assoc, Nat.add_assoc, Nat.add_comm 1]
      exact heq (i + 1) (Nat.succ_lt_succ hi)]
    simp

end Heap

end TrackFM
