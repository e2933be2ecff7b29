import Porpoise.Lib.Row
import Porpoise.Shim.Present
import Porpoise.Shim.RecvBounds

/-!
# What `readv` scatters

The kernel lays the bytes it read end to end in the buffers of the array. After
the ocall every segment is copied back as a whole, whatever the result.

* `ReadvDelivered`: untrusted memory when the kernel's `readv` has returned.
* `ReadvLeaves`: enclave memory after the call. It is open when a transfer has left
  its buffer.
* `Scattered`: what the caller is to find in its segments.
* `readv_scatters_iff`: it finds that exactly when the buffers hold the array and the
  segments, and every copy is as long as the share of the result that lies in its
  segment.
-/

namespace Porpoise.Shim

open Porpoise.Lib

variable {c : Ctx} {r : Word} {u v : UMem} {d : Nat → Byte} {i j k : Nat}

/-! ## The kernel and the caller -/

/-- How many bytes a `readv` with the result `r` has read. -/
def bytesRead (r : Word) : Nat := if IsError r then 0 else r.toNat

/-- The most that one `readv` reads: `MAX_RW_COUNT`. -/
def maxRwCount : Nat := 0x7ffff000

/-- The lengths that the kernel finds in the array. -/
def kernelLens (w : UMem) (i : Nat) : Nat := (kernelSeg w i).size

/-- **The kernel's `readv`** has returned `r`, and put the bytes `d` that it read into the
buffers of the array, one after the other. -/
structure ReadvDelivered (c : Ctx) (u : UMem) (d : Nat → Byte) (r : Word) (v : UMem) : Prop where
  result : resultOf v = r
  segs : ∀ i < intCount c.a3, ∀ j, v (c.region (kernelSeg (sent c .readv u) i).ptr) j =
    if j < share (kernelLens (sent c .readv u)) (bytesRead r) i then
      d (start (kernelLens (sent c .readv u)) i + j)
    else sent c .readv u (c.region (kernelSeg (sent c .readv u) i).ptr) j
  rest : ∀ q ≠ .buf .arg0,
    (∀ i < intCount c.a3, q ≠ c.region (kernelSeg (sent c .readv u) i).ptr) →
      v q = sent c .readv u q

/-- The kernel's writes: of each segment its share of the result. -/
def readvWrites (c : Ctx) (u : UMem) (r : Word) : List KWrite :=
  (List.range (intCount c.a3)).map fun i =>
    ⟨(kernelSeg (sent c .readv u) i).ptr, 0,
      share (kernelLens (sent c .readv u)) (bytesRead r) i⟩

/-- No store, write of the kernel or copy back leaves its buffer. -/
structure ReadvInside (c : Ctx) (u : UMem) (r : Word) (v : UMem) : Prop where
  sends : SendsStay c .readv
  kernel : ∀ w ∈ readvWrites c u r, w.Inside c
  recvs : ∀ q ∈ wrapRecvs c v (wrapMem c .readv) .readv, q.Inside

/-- **Enclave memory after a `readv`** with the result `r` and the bytes `d`. After a
transfer that left its buffer it may be anything, or the call not return. -/
def ReadvLeaves (c : Ctx) (u : UMem) (d : Nat → Byte) (r : Word) (o : Option Mem) : Prop :=
  ∃ v, ReadvDelivered c u d r v ∧ (ReadvInside c u r v → o = some (memAfter c .readv v))

/-- The caller's lengths. -/
def segLens (c : Ctx) (i : Nat) : Nat := (iovLen c.mem c.a2 i).toNat

/-- The caller's `i`-th segment. -/
def segObj (c : Ctx) (i : Nat) : Obj := ⟨iovBase c.mem c.a2 i, segLens c i⟩

/-- The segments of the caller overlap neither each other nor the array that lists
them. -/
structure SegsApart (c : Ctx) : Prop where
  array : ∀ i < intCount c.a3, (segObj c i).Apart ⟨c.a2, 16 * intCount c.a3⟩
  segs : ∀ i < intCount c.a3, ∀ j < intCount c.a3, i ≠ j → (segObj c i).Apart (segObj c j)

/-- The first `k` bytes of the caller's segments, in order, are `d`, and every other
byte of them is what it was. -/
def Scattered (c : Ctx) (d : Nat → Byte) (k : Nat) (m : Mem) : Prop :=
  ∀ i < intCount c.a3, ∀ j < segLens c i, m.at (iovBase c.mem c.a2 i) j =
    if j < share (segLens c) k i then d (start (segLens c) i + j)
    else c.mem.at (iovBase c.mem c.a2 i) j

/-- **The result is scattered**, whatever was read and the slot held. -/
def ReadvScatters (c : Ctx) (r : Word) : Prop :=
  ∀ u d o, ReadvLeaves c u d r o → ∃ m, o = some m ∧ Scattered c d (bytesRead r) m

/-- `arg2` holds the array, and a buffer each of the first five segments. -/
structure BuffersHold (c : Ctx) : Prop where
  array : 16 * intCount c.a3 ≤ bufSize
  segs : ∀ i < intCount c.a3, i < 5 → Fits (iovLen c.mem c.a2 i)

/-- Every copy back is as long as the share of the bytes read that lies in its
segment. -/
def ExactCopies (c : Ctx) (r : Word) : Prop :=
  ∀ i < intCount c.a3,
    memcpyLen (iovLen c.mem c.a2 i) = share (segLens c) (bytesRead r) i

instance (c : Ctx) (r : Word) : Decidable (ExactCopies c r) :=
  inferInstanceAs (Decidable (∀ _, _))

/-! ## Lengths -/

/-- The lengths that the enclave puts into the array. -/
def askedLens (c : Ctx) (i : Nat) : Nat := (readvLen c i).toNat

def copyLens (c : Ctx) (i : Nat) : Nat := memcpyLen (iovLen c.mem c.a2 i)

/-- The first five lengths are asked for as they are, the others as `int`. -/
theorem askedLens_eq (c : Ctx) (i : Nat) :
    askedLens c i = if i < 5 then segLens c i else copyLens c i := by
  rw [askedLens, readvLen]
  split <;> rfl

theorem copyLens_of_lt (h : segLens c i < 2 ^ 31) : copyLens c i = segLens c i := memcpyLen_of_lt h

/-- A copy that is too short is one of a length beyond `2 ^ 32`. -/
theorem segLens_of_copyLens_lt (h : copyLens c i < segLens c i) : 2 ^ 32 ≤ segLens c i := by
  have hlt := (iovLen c.mem c.a2 i).isLt
  rw [copyLens, segLens, memcpyLen_eq] at h
  rw [segLens]
  split at h <;> omega

/-- Up to a segment that is copied exactly, the kernel's row is the caller's as far as
bytes were read. -/
theorem starts_agree (h : ∀ j < i, copyLens c j = share (segLens c) k j) :
    start (askedLens c) i = start (segLens c) i ∨
      k ≤ start (askedLens c) i ∧ k ≤ start (segLens c) i := by
  induction i with
  | zero => exact .inl rfl
  | succ i ih =>
      have hrow := ih fun j hj => h j (Nat.lt_succ_of_lt hj)
      have hcopy := h i (Nat.lt_succ_self i)
      have hasked := askedLens_eq c i
      rw [share] at hcopy
      rw [start_succ, start_succ]
      split at hasked <;> omega

/-! ## What lies in the buffers -/

theorem kernelSeg_sent (u : UMem) (hi : i < intCount c.a3) :
    kernelSeg (sent c .readv u) i = ⟨segPtr c i, askedLens c i⟩ :=
  readv_kernel_entry (fun _ => rfl) hi

theorem kernelLens_sent (u : UMem) (hi : i < intCount c.a3) :
    kernelLens (sent c .readv u) i = askedLens c i := by
  rw [kernelLens, kernelSeg_sent u hi]

theorem region_segPtr (c : Ctx) (i : Nat) : c.region (segPtr c i) =
    if i < 5 then .buf (segBuf i) else .heap (c.alloc (i - 5)) := by
  rw [segPtr]
  split
  · exact c.region_addr _
  · exact c.region_alloc _

theorem region_segPtr_inj (hi : i < intCount c.a3) (hj : j < intCount c.a3)
    (h : c.region (segPtr c i) = c.region (segPtr c j)) : i = j := by
  have hcount := intCount_lt c.a3
  rw [region_segPtr, region_segPtr] at h
  exact readvPlace_inj (by omega) (by omega) h

/-- Every delivery is possible. -/
theorem exists_readvDelivered (c : Ctx) (u : UMem) (d : Nat → Byte) (r : Word) :
    ∃ v, ReadvDelivered c u d r v := by
  have hplace : ∀ i < intCount c.a3,
      c.region (kernelSeg (sent c .readv u) i).ptr = c.region (segPtr c i) := by
    intro i hi
    rw [kernelSeg_sent u hi]
  obtain ⟨v, hsegs, hrest⟩ := exists_overwrite (k := intCount c.a3)
    (f := fun i => c.region (kernelSeg (sent c .readv u) i).ptr)
    (fun i hi j hj heq =>
      region_segPtr_inj hi hj ((hplace i hi).symm.trans (heq.trans (hplace j hj))))
    (fun i j => if j < share (kernelLens (sent c .readv u)) (bytesRead r) i then
        d (start (kernelLens (sent c .readv u)) i + j)
      else sent c .readv u (c.region (kernelSeg (sent c .readv u) i).ptr) j)
    ((put .arg0 r).apply (sent c .readv u))
  refine ⟨v, ?_, fun i hi j => congrFun (hsegs i hi) j, fun q hq hsrc => ?_⟩
  · have harg0 : v (.buf .arg0) = (put .arg0 r).apply (sent c .readv u) (.buf .arg0) := by
      refine hrest _ fun i hi => ?_
      rw [hplace i hi, region_segPtr]
      exact (readvPlace_ne i).symm
    rw [resultOf, harg0]
    exact resultOf_put _ _
  · rw [hrest q hsrc, put_apply, if_neg hq]

namespace ReadvDelivered

theorem array (h : ReadvDelivered c u d r v) : v (.buf .arg2) = sent c .readv u (.buf .arg2) := by
  refine h.rest _ (by decide) fun i hi => ?_
  rw [kernelSeg_sent u hi]
  exact (region_segPtr_ne i).symm

theorem src (h : ReadvDelivered c u d r v) (hi : i < intCount c.a3) :
    readvSrc c v i = c.region (segPtr c i) := by
  rw [readvSrc_sent hi h.array, region_segPtr]

/-- **A buffer** when the kernel has returned: its share of the bytes read, then what
earlier calls left. -/
theorem seg (h : ReadvDelivered c u d r v) (hi : i < intCount c.a3) (j : Nat) :
    v (readvSrc c v i) j = if j < share (askedLens c) (bytesRead r) i then
      d (start (askedLens c) i + j) else u (c.region (segPtr c i)) j := by
  have hlens : ∀ k ≤ i, kernelLens (sent c .readv u) k = askedLens c k :=
    fun k hk => kernelLens_sent u (Nat.lt_of_le_of_lt hk hi)
  have hstale : sent c .readv u (c.region (segPtr c i)) = u (c.region (segPtr c i)) := by
    rw [region_segPtr, sent, applyAll_of_ne (readvSrc_unsent i), sendNr_apply,
      if_neg (readvPlace_ne i)]
  have hseg := h.segs i hi j
  rw [share_congr hlens, start_congr fun k hk => hlens k (Nat.le_of_lt hk), kernelSeg_sent u hi,
    hstale] at hseg
  rw [h.src hi, hseg]

/-- As far as the copies before it are exact, a segment gets the caller's bytes. -/
theorem share_of_exact (h : ReadvDelivered c u d r v) (hi : i < intCount c.a3)
    (hexact : ∀ k < i, copyLens c k = share (segLens c) (bytesRead r) k)
    (hj : j < share (segLens c) (bytesRead r) i) (hcopy : j < copyLens c i) :
    v (readvSrc c v i) j = d (start (segLens c) i + j) := by
  obtain ⟨hlen, hread⟩ := lt_share_iff.mp hj
  have hstart : start (askedLens c) i = start (segLens c) i := by
    rcases starts_agree hexact with heq | ⟨-, hend⟩
    · exact heq
    · omega
  have hasked : j < askedLens c i := by
    rw [askedLens_eq]
    split
    · exact hlen
    · exact hcopy
  have hshare : j < share (askedLens c) (bytesRead r) i := lt_share_iff.mpr ⟨hasked, by omega⟩
  rw [h.seg hi, if_pos hshare, hstart]

end ReadvDelivered

/-! ## Exact copies -/

/-- The copy of the `i`-th segment, from the caller's array. -/
def segRecv (c : Ctx) (v : UMem) (i : Nat) : Recv := readvRecv c v i c.mem

theorem memAfter_readv (c : Ctx) (v : UMem) : memAfter c .readv v =
    applyRecvs v (copyOut v ((List.range (intCount c.a3)).map (readvRecv c v)) c.mem) c.mem := by
  rw [← readvRecvs_eq]
  rfl

/-- A copy from an array that is the caller's. -/
theorem readvRecv_eq {m : Mem} (hm : AgreeOn m c.mem c.a2 (16 * intCount c.a3))
    (hi : i < intCount c.a3) : readvRecv c v i m = segRecv c v i := by
  rw [segRecv, readvRecv, readvRecv, hm.iovBase hi, hm.iovLen hi]

/-- A copy that is no longer than its segment. -/
theorem segRecv_within (v : UMem) (hle : copyLens c i ≤ segLens c i) :
    (segRecv c v i).Within (segObj c i) := within_of_le rfl hle

/-- Copies that leave the array alone are those of the caller's array. -/
theorem readv_recvs_eq (hsegs : SegsApart c)
    (hle : ∀ i < intCount c.a3, copyLens c i ≤ segLens c i) (v : UMem) :
    wrapRecvs c v (wrapMem c .readv) .readv =
      (List.range (intCount c.a3)).map (segRecv c v) := by
  show copyOut v (readvRecvs c v) c.mem = _
  rw [readvRecvs_eq, copyOut_eq_map (g := fun f => f c.mem)
    (I := fun m => AgreeOn m c.mem c.a2 (16 * intCount c.a3)) (fun _ _ => rfl), List.map_map]
  · rfl
  · intro f hf m hm
    obtain ⟨i, hi, rfl⟩ := List.mem_map.mp hf
    have hlt := List.mem_range.mp hi
    have hcount := intCount_lt c.a3
    refine ⟨readvRecv_eq hm hlt, ?_⟩
    rw [readvRecv_eq hm hlt]
    have hsize : (Obj.mk c.a2 (16 * intCount c.a3)).size ≤ 2 ^ 64 := by
      show 16 * intCount c.a3 ≤ 2 ^ 64
      omega
    exact (segRecv_within v (hle i hlt)).agreeOn (hsegs.array i hlt) hsize hm

/-- A byte of a segment after such copies. -/
theorem memAfter_readv_at (hsegs : SegsApart c)
    (hle : ∀ i < intCount c.a3, copyLens c i ≤ segLens c i) (v : UMem) (hi : i < intCount c.a3)
    (hj : j < segLens c i) : (memAfter c .readv v).at (iovBase c.mem c.a2 i) j =
      if j < copyLens c i then v (readvSrc c v i) j else c.mem.at (iovBase c.mem c.a2 i) j := by
  have hlt : j < 2 ^ 64 := Nat.lt_trans hj (iovLen c.mem c.a2 i).isLt
  have hoff := toNat_add_sub (iovBase c.mem c.a2 i) hlt
  rw [memAfter, readv_recvs_eq hsegs hle, Mem.at, applyRecvs_range_at hi]
  · simp only [segRecv, readvRecv, Recv.apply, recv, hoff, Nat.zero_add]
    rfl
  · intro k hk hki
    exact (segRecv_within v (hle k hk)).not_writes (hsegs.segs k hk i hi hki)
      (Obj.has_add (x := segObj c i) hj (iovLen c.mem c.a2 i).isLt.le)

/-- **Exact copies** bring every byte that was read to its place, and no other. -/
theorem scattered_of_exact (hsegs : SegsApart c) (hexact : ExactCopies c r)
    (hv : ReadvDelivered c u d r v) : Scattered c d (bytesRead r) (memAfter c .readv v) := by
  have hle : ∀ i < intCount c.a3, copyLens c i ≤ segLens c i := by
    intro i hi
    have hcopy : copyLens c i = share (segLens c) (bytesRead r) i := hexact i hi
    rw [hcopy]
    exact share_le _ _ _
  intro i hi j hj
  have hcopy : copyLens c i = share (segLens c) (bytesRead r) i := hexact i hi
  rw [memAfter_readv_at hsegs hle v hi hj, hcopy]
  split
  · rename_i hshare
    exact hv.share_of_exact hi (fun k hk => hexact k (by omega)) hshare (by omega)
  · rfl

/-! ## Copies that are not exact -/

/-- What a copy of the `i`-th segment brings at an offset. -/
theorem segRecv_apply_at {m : Mem} {p : Word} (i : Nat) :
    (segRecv c v i).apply v m p = if (p - iovBase c.mem c.a2 i).toNat < copyLens c i then
      v (readvSrc c v i) (p - iovBase c.mem c.a2 i).toNat else m p := by
  simp only [segRecv, readvRecv, Recv.apply, recv, Nat.zero_add]
  rfl

/-- The copies behind a segment that the result ends in bring what earlier calls
left. -/
theorem tail_stale {x : Byte} {s : Nat} {m : Mem} (hv : ReadvDelivered c (fun _ _ => x) d r v)
    (hend : ∀ j, i < j → bytesRead r ≤ start (askedLens c) j) (hs : i + 1 + s = intCount c.a3) :
    ∀ q ∈ copyOut v ((List.range s).map fun j => readvRecv c v (i + 1 + j)) m,
      ∀ j < q.size, v q.src (q.off + j) = x := by
  have hsrc : ∀ q ∈ copyOut v ((List.range s).map fun j => readvRecv c v (i + 1 + j)) m,
      ∃ k, i < k ∧ k < intCount c.a3 ∧ q.src = readvSrc c v k := by
    refine (copyOut_rule (I := fun _ => True) trivial fun f hf m _ => ⟨?_, trivial⟩).1
    obtain ⟨j, hj, rfl⟩ := List.mem_map.mp hf
    have hlt := List.mem_range.mp hj
    exact ⟨i + 1 + j, by omega, by omega, rfl⟩
  intro q hq j _
  obtain ⟨k, hik, hk, hqk⟩ := hsrc q hq
  have hnone : ¬ q.off + j < share (askedLens c) (bytesRead r) k := by
    have hle := hend k hik
    rw [share]
    omega
  rw [hqk, hv.seg hk, if_neg hnone]

/-- A segment that the result ends in gets stale bytes when its copy is too long. -/
theorem not_scattered_of_long (hi : i < intCount c.a3) (hr : bytesRead r < 2 ^ 31)
    (hexact : ∀ j < i, copyLens c j = share (segLens c) (bytesRead r) j)
    (hlong : share (segLens c) (bytesRead r) i < copyLens c i) :
    ∃ u d v, ReadvDelivered c u d r v ∧ ¬ Scattered c d (bytesRead r) (memAfter c .readv v) := by
  obtain ⟨s, hs⟩ : ∃ s, s = share (segLens c) (bytesRead r) i := ⟨_, rfl⟩
  rw [← hs] at hlong
  have hpart : s = bytesRead r - start (segLens c) i ∧ s < segLens c i := by
    have hfull : segLens c i < 2 ^ 31 → copyLens c i = segLens c i := copyLens_of_lt
    rw [share] at hs
    omega
  have hagree := starts_agree hexact
  have hasked := askedLens_eq c i
  obtain ⟨v, hv⟩ := exists_readvDelivered c
    (fun _ _ => ~~~ c.mem (iovBase c.mem c.a2 i + BitVec.ofNat 64 s))
    (rowAt (segLens c) (fun j => c.mem.at (iovBase c.mem c.a2 j)) 0 (intCount c.a3)) r
  refine ⟨_, _, v, hv, fun hscat => ?_⟩
  have hlt : s < 2 ^ 64 := Nat.lt_trans hpart.2 (iovLen c.mem c.a2 i).isLt
  have hoff := toNat_add_sub (iovBase c.mem c.a2 i) hlt
  -- the segments before it get back what they held
  have hecho : ∀ j < i, (readvRecv c v j c.mem).apply v c.mem = c.mem := by
    intro j hj
    refine recv_apply_echo fun k hk => ?_
    have hshare : k < share (segLens c) (bytesRead r) j := hexact j hj ▸ hk
    have hbyte := hv.share_of_exact (Nat.lt_trans hj hi) (fun k hk => hexact k (by omega)) hshare hk
    rw [rowAt_start (by omega) (lt_share_iff.mp hshare).1] at hbyte
    exact (congrArg (v _) (Nat.zero_add k)).trans hbyte
  have hstale : (segRecv c v i).apply v c.mem (iovBase c.mem c.a2 i + BitVec.ofNat 64 s) =
      ~~~ c.mem (iovBase c.mem c.a2 i + BitVec.ofNat 64 s) := by
    have hnone : ¬ s < share (askedLens c) (bytesRead r) i := by
      rw [share]
      omega
    rw [segRecv_apply_at, hoff, if_pos hlong, hv.seg hi, if_neg hnone]
  have hend : ∀ j, i < j → bytesRead r ≤ start (askedLens c) j := by
    intro j hj
    have hbehind := start_add_le (askedLens c) hj
    split at hasked <;> omega
  have hafter : memAfter c .readv v (iovBase c.mem c.a2 i + BitVec.ofNat 64 s) =
      ~~~ c.mem (iovBase c.mem c.a2 i + BitVec.ofNat 64 s) := by
    rw [memAfter_readv, applyRecvs_copyOut_from hi hecho]
    exact applyRecvs_of_const (tail_stale hv hend (by omega)) (.inl hstale)
  have hbyte := hscat i hi s hpart.2
  rw [if_neg (by omega), Mem.at, Mem.at, hafter] at hbyte
  exact byte_not_ne _ hbyte

/-- A delivery of what the segments hold, but for one place `t` of the row. -/
theorem exists_delivery_but (c : Ctx) (r : Word) (t : Nat) (x : Byte) :
    ∃ u d v, ReadvDelivered c u d r v ∧ d t = x ∧ ∀ j < intCount c.a3, ∀ k,
      (k < askedLens c j → start (askedLens c) j + k ≠ t) →
        v (readvSrc c v j) k = c.mem.at (iovBase c.mem c.a2 j) k := by
  obtain ⟨u, hu⟩ := exists_slot (k := intCount c.a3) (f := fun j => c.region (segPtr c j))
    (fun j hj k hk heq => region_segPtr_inj hj hk heq) fun j => c.mem.at (iovBase c.mem c.a2 j)
  obtain ⟨v, hv⟩ := exists_readvDelivered c u (fun k => if k = t then x else
    rowAt (askedLens c) (fun j => c.mem.at (iovBase c.mem c.a2 j)) 0 (intCount c.a3) k) r
  refine ⟨u, _, v, hv, if_pos rfl, fun j hj k hne => ?_⟩
  rw [hv.seg hj]
  split
  · rename_i hshare
    have hin := (lt_share_iff.mp hshare).1
    rw [if_neg (hne hin), rowAt_start hj hin]
  · exact congrFun (hu j hj) k

/-- A byte that every copy keeps, as it keeps the array. -/
theorem memAfter_readv_keeps {p : Word}
    (hkeep : ∀ j < intCount c.a3, ∀ q, ((Obj.mk c.a2 (16 * intCount c.a3)).Has q ∨ q = p) →
      ∀ m : Mem, m q = c.mem q → (segRecv c v j).apply v m q = c.mem q) :
    memAfter c .readv v p = c.mem p := by
  rw [memAfter_readv]
  refine (copyOut_rule (Q := fun _ => True)
    (I := fun m => ∀ q, ((Obj.mk c.a2 (16 * intCount c.a3)).Has q ∨ q = p) → m q = c.mem q)
    (fun _ _ => rfl) fun f hf m hm => ⟨trivial, fun q hq => ?_⟩).2 p (.inr rfl)
  obtain ⟨j, hj, rfl⟩ := List.mem_map.mp hf
  have hcount := intCount_lt c.a3
  have hagree : AgreeOn m c.mem c.a2 (16 * intCount c.a3) := by
    intro k hk
    refine hm _ (.inl (Obj.has_add (x := ⟨c.a2, 16 * intCount c.a3⟩) hk ?_))
    show 16 * intCount c.a3 ≤ 2 ^ 64
    omega
  rw [readvRecv_eq hagree (List.mem_range.mp hj)]
  exact hkeep j (List.mem_range.mp hj) q hq m (hm q hq)

/-- A segment with a part of the result keeps an old byte when its copy is too short. -/
theorem not_scattered_of_short (hsegs : SegsApart c) (hi : i < intCount c.a3)
    (hr : bytesRead r < 2 ^ 31)
    (hexact : ∀ j < i, copyLens c j = share (segLens c) (bytesRead r) j)
    (hshort : copyLens c i < share (segLens c) (bytesRead r) i) :
    ∃ u d v, ReadvDelivered c u d r v ∧ ¬ Scattered c d (bytesRead r) (memAfter c .readv v) := by
  obtain ⟨hlen, hread⟩ := lt_share_iff.mp hshort
  have hlong := segLens_of_copyLens_lt hlen
  have hstart : ∀ j ≤ i, start (askedLens c) j = start (segLens c) j := by
    intro j hj
    have hmono := start_mono (segLens c) hj
    rcases starts_agree (i := j) fun k hk => hexact k (by omega) with heq | ⟨-, hend⟩
    · exact heq
    · omega
  have hasked := askedLens_eq c i
  have hself := hstart i le_rfl
  -- the byte after the copy, and its place in the row
  obtain ⟨p, hp⟩ : ∃ p, p = iovBase c.mem c.a2 i + BitVec.ofNat 64 (copyLens c i) := ⟨_, rfl⟩
  obtain ⟨t, ht⟩ : ∃ t, t = start (segLens c) i + copyLens c i := ⟨_, rfl⟩
  have hlt : copyLens c i < 2 ^ 64 := Nat.lt_trans hlen (iovLen c.mem c.a2 i).isLt
  have hoff : (p - iovBase c.mem c.a2 i).toNat = copyLens c i := hp ▸ toNat_add_sub _ hlt
  obtain ⟨u, d, v, hv, hd, hbuf⟩ := exists_delivery_but c r t (~~~ c.mem p)
  refine ⟨u, d, v, hv, fun hscat => ?_⟩
  -- neither the array nor this byte is changed by a copy
  have hkeep : ∀ j < intCount c.a3, ∀ q, ((Obj.mk c.a2 (16 * intCount c.a3)).Has q ∨ q = p) →
      ∀ m : Mem, m q = c.mem q → (segRecv c v j).apply v m q = c.mem q := by
    intro j hj q hq m hm
    rw [segRecv_apply_at]
    split
    · rename_i hcopy
      rw [hbuf j hj _ fun hin heq => ?_, Mem.at, add_ofNat_sub]
      rcases Nat.lt_trichotomy j i with hji | hji | hij
      · have hcopyj := hexact j hji
        have hshare := share_le (segLens c) (bytesRead r) j
        have hbehind := start_add_le (segLens c) hji
        have hstartj := hstart j hji.le
        omega
      · subst hji
        omega
      · -- a later buffer has it as its first byte
        have hbehind := start_add_le (askedLens c) hij
        have haskedj := askedLens_eq c j
        have hfull : segLens c j < 2 ^ 31 → copyLens c j = segLens c j := copyLens_of_lt
        have hhas : (segObj c j).Has q := by
          show (q - iovBase c.mem c.a2 j).toNat < segLens c j
          split at hasked <;> split at haskedj <;> omega
        rcases hq with harray | rfl
        · exact hsegs.array j hj q ⟨hhas, harray⟩
        · have hown : (segObj c i).Has q := hoff.trans_lt hlen
          exact hsegs.segs j hj i hi (by omega) q ⟨hhas, hown⟩
    · exact hm
  have hsame := memAfter_readv_keeps hkeep
  have hbyte := hscat i hi (copyLens c i) hlen
  rw [if_pos hshort, Mem.at, ← hp, hsame, ← ht, hd] at hbyte
  exact byte_not_ne _ hbyte.symm

/-! ## What `readv` scatters -/

/-- The copies of a `readv` that scatters what it read are exact. -/
theorem exact_of_scattered (hsegs : SegsApart c) (hr : bytesRead r ≤ maxRwCount)
    (h : ∀ u d v, ReadvDelivered c u d r v →
      Scattered c d (bytesRead r) (memAfter c .readv v)) : ExactCopies c r := by
  by_contra hnot
  have hex : ∃ i, i < intCount c.a3 ∧ copyLens c i ≠ share (segLens c) (bytesRead r) i := by
    rw [ExactCopies] at hnot
    push Not at hnot
    exact hnot
  obtain ⟨hi, hne⟩ := Nat.find_spec hex
  have hexact : ∀ j < Nat.find hex, copyLens c j = share (segLens c) (bytesRead r) j := by
    intro j hj
    by_contra hjne
    exact Nat.find_min hex hj ⟨by omega, hjne⟩
  have hbound : bytesRead r < 2 ^ 31 := Nat.lt_of_le_of_lt hr (by decide)
  rcases Nat.lt_or_gt_of_ne hne with hshort | hlong
  · obtain ⟨u, d, v, hv, hscat⟩ := not_scattered_of_short hsegs hi hbound hexact hshort
    exact hscat (h u d v hv)
  · obtain ⟨u, d, v, hv, hscat⟩ := not_scattered_of_long hi hbound hexact hlong
    exact hscat (h u d v hv)

/-! ## Transfers -/

/-- What the call leaves is open only when a transfer has left its buffer. -/
theorem readvScatters_iff_inside : ReadvScatters c r ↔ ∀ u d v, ReadvDelivered c u d r v →
    ReadvInside c u r v ∧ Scattered c d (bytesRead r) (memAfter c .readv v) := by
  constructor
  · intro h u d v hv
    obtain ⟨m, hm, hscat⟩ := h u d _ ⟨v, hv, fun _ => rfl⟩
    obtain rfl := Option.some.inj hm
    refine ⟨?_, hscat⟩
    by_contra hleave
    obtain ⟨m, hnone, -⟩ := h u d none ⟨v, hv, fun hin => absurd hin hleave⟩
    exact absurd hnone (Option.some_ne_none m).symm
  · rintro h u d o ⟨v, hv, ho⟩
    obtain ⟨hin, hscat⟩ := h u d v hv
    exact ⟨_, ho hin, hscat⟩

/-- The copy of the `i`-th segment stays inside when it is no longer than a buffer. -/
theorem segRecv_inside (hv : ReadvDelivered c u d r v) (hi : i < intCount c.a3)
    (hlen : copyLens c i < 2 ^ 31) :
    (segRecv c v i).Inside ↔ (i < 5 → Fits (iovLen c.mem c.a2 i)) := by
  show (recv (readvSrc c v i) _ _).Inside ↔ _
  rw [hv.src hi, region_segPtr]
  split
  · exact (recv_buf_inside _ _ _).trans (imp_iff_right ‹_›).symm
  · exact iff_of_true ((recv_heap_inside _ _ _).mpr hlen) fun h5 => absurd h5 ‹_›

/-- A share of the result that is written to a buffer is no longer than the copy. -/
theorem readvWrite_inside (hexact : ExactCopies c r) (hi : i < intCount c.a3)
    (hfit : i < 5 → Fits (iovLen c.mem c.a2 i)) :
    (KWrite.mk (segPtr c i) 0 (share (askedLens c) (bytesRead r) i)).Inside c := by
  intro b hb
  have hcopy : copyLens c i = share (segLens c) (bytesRead r) i := hexact i hi
  have hasked := askedLens_eq c i
  by_cases h5 : i < 5
  · have hlen : copyLens c i ≤ bufSize := hfit h5
    rw [if_pos h5] at hasked
    have hagree := starts_agree fun j hj => hexact j (Nat.lt_trans hj hi)
    show 0 + share (askedLens c) (bytesRead r) i ≤ bufSize
    rw [share] at hcopy ⊢
    omega
  · rw [show (KWrite.mk (segPtr c i) 0 (share (askedLens c) (bytesRead r) i)).ptr = segPtr c i from
      rfl, region_segPtr, if_neg h5] at hb
    cases hb

/-- Exact copies stay inside exactly when the buffers hold the array and the segments. -/
theorem readvInside_iff (hsegs : SegsApart c) (hr : bytesRead r ≤ maxRwCount)
    (hexact : ExactCopies c r) (hv : ReadvDelivered c u d r v) :
    ReadvInside c u r v ↔ BuffersHold c := by
  have hle : ∀ i < intCount c.a3, copyLens c i ≤ segLens c i := by
    intro i hi
    have hcopy : copyLens c i = share (segLens c) (bytesRead r) i := hexact i hi
    rw [hcopy]
    exact share_le _ _ _
  have hlen : ∀ i < intCount c.a3, copyLens c i < 2 ^ 31 := by
    intro i hi
    have hcopy : copyLens c i = share (segLens c) (bytesRead r) i := hexact i hi
    rw [share] at hcopy
    unfold maxRwCount at hr
    omega
  constructor
  · rintro ⟨hsends, -, hrecvs⟩
    refine ⟨((sends_stay_iff c .readv).mp hsends).2, fun i hi => ?_⟩
    rw [readv_recvs_eq hsegs hle] at hrecvs
    exact (segRecv_inside hv hi (hlen i hi)).mp
      (hrecvs _ (List.mem_map_of_mem (List.mem_range.mpr hi)))
  · rintro ⟨harray, hfit⟩
    refine ⟨(sends_stay_iff c .readv).mpr ⟨trivial, harray⟩, fun w hw => ?_, fun q hq => ?_⟩
    · obtain ⟨i, hi, rfl⟩ := List.mem_map.mp hw
      have hlt := List.mem_range.mp hi
      have hlens : ∀ k ≤ i, kernelLens (sent c .readv u) k = askedLens c k :=
        fun k hk => kernelLens_sent u (Nat.lt_of_le_of_lt hk hlt)
      rw [share_congr hlens, kernelSeg_sent u hlt]
      exact readvWrite_inside hexact hlt (hfit i hlt)
    · rw [readv_recvs_eq hsegs hle] at hq
      obtain ⟨i, hi, rfl⟩ := List.mem_map.mp hq
      have hlt := List.mem_range.mp hi
      exact (segRecv_inside hv hlt (hlen i hlt)).mpr (hfit i hlt)

/-- **What `readv` scatters.** For segments of any lengths that do not overlap, every
result of the kernel, and every slot: the caller finds the bytes that were read, in
order, and all other bytes of its segments unchanged, exactly when the buffers hold
the array and the segments and each copy back is as long as its segment's share of the
result. -/
theorem readv_scatters_iff (c : Ctx) (r : Word) (hsegs : SegsApart c)
    (hr : bytesRead r ≤ maxRwCount) : ReadvScatters c r ↔ BuffersHold c ∧ ExactCopies c r := by
  rw [readvScatters_iff_inside]
  constructor
  · intro h
    have hexact := exact_of_scattered hsegs hr fun u d v hv => (h u d v hv).2
    obtain ⟨v, hv⟩ := exists_readvDelivered c (fun _ _ => 0) (fun _ => 0) r
    exact ⟨(readvInside_iff hsegs hr hexact hv).mp (h _ _ v hv).1, hexact⟩
  · rintro ⟨hfit, hexact⟩ u d v hv
    exact ⟨(readvInside_iff hsegs hr hexact hv).mpr hfit, scattered_of_exact hsegs hexact hv⟩

/-- `readv` into one byte at 8192 and one at 12288. -/
def twoSegs : Ctx :=
  Ctx.plain 0 4096 2 0 0 0 fun p =>
    if p = 4097 then 32 else if p = 4113 then 48 else if p = 4104 ∨ p = 4120 then 1 else 0

theorem segsApart_twoSegs : SegsApart twoSegs where
  array i hi := by
    have hcount : intCount twoSegs.a3 = 2 := by decide
    have hlow : 4096 + 16 * 2 ≤ (segObj twoSegs i).ptr.toNat ∧
        (segObj twoSegs i).ptr.toNat + (segObj twoSegs i).size ≤ 2 ^ 64 := by
      obtain rfl | rfl : i = 0 ∨ i = 1 := by omega
      all_goals decide
    rw [hcount]
    exact (Obj.apart_of_le hlow.1 hlow.2).symm
  segs i hi j hj hij := by
    have hcount : intCount twoSegs.a3 = 2 := by decide
    have hapart : (segObj twoSegs 0).Apart (segObj twoSegs 1) :=
      Obj.apart_of_le (by decide) (by decide)
    obtain ⟨rfl, rfl⟩ | ⟨rfl, rfl⟩ : i = 0 ∧ j = 1 ∨ i = 1 ∧ j = 0 := by omega
    · exact hapart
    · exact hapart.symm

/-- All of a result of two bytes is scattered. -/
theorem readv_scatters_two : ReadvScatters twoSegs 2 := by
  have hexact : ExactCopies twoSegs 2 := by decide
  have hlen : ∀ i < intCount twoSegs.a3, i < 5 → Fits (iovLen twoSegs.mem twoSegs.a2 i) := by
    unfold Fits
    decide
  exact (readv_scatters_iff twoSegs 2 segsApart_twoSegs (by decide)).mpr
    ⟨⟨by decide, hlen⟩, hexact⟩

/-- A result of one byte, as at the end of a file: the second segment gets a byte of an
earlier call. -/
theorem readv_scatters_stale : bytesRead 1 ≤ start (segLens twoSegs) (intCount twoSegs.a3) ∧
    ¬ ReadvScatters twoSegs 1 := by
  refine ⟨by decide, fun h => ?_⟩
  have hexact := exact_of_scattered segsApart_twoSegs (by decide) fun u d v hv =>
    (readvScatters_iff_inside.mp h u d v hv).2
  exact absurd hexact (by decide)

end Porpoise.Shim
