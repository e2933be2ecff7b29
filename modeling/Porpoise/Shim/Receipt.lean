import Porpoise.Shim.Delivery
import Porpoise.Shim.Message

/-!
# What `recvmsg` returns

The kernel stores the lengths of the name and of the control data and the flags in
the `msghdr` in `arg2`, and name, payload and control data in the blocks. After the
ocall each part is copied back with the length that the caller gave, and of the
header the flags only.

* `Received`: untrusted memory when the kernel's `recvmsg` has returned.
* `MsgReturned`: what the caller is to find.
* `recvmsg_returns_iff`: it finds that exactly when the kernel's lengths are the
  ones that were sent, and the payload fills what is copied.
-/

namespace Porpoise.Shim

open Porpoise.Lib

variable {c : Ctx} {r : Word} {u v : UMem} {i j k : Nat} {p : Word} {m m' : Mem}

/-! ## The kernel and the caller -/

/-- The values that the kernel's `recvmsg` stores in the header. -/
structure MsgHead where
  namelen : BitVec 32
  controllen : Word
  flags : BitVec 32

/-- What it produces: these values, and the bytes of the three parts. -/
structure MsgOut extends MsgHead where
  name : Nat → Byte
  control : Nat → Byte
  data : Nat → Byte

variable {o : MsgOut}

/-- The header `h` when the kernel has stored its values. -/
def MsgHead.header (o : MsgHead) (h : Bytes) : Bytes :=
  overlay 48 4 (le64 (o.flags.setWidth 64)) <| overlay 40 8 (le64 o.controllen) <|
  overlay 8 4 (le64 (o.namelen.setWidth 64)) h

/-- The segment at `i` of the message that the kernel reads in `arg2`. -/
def kernelMsgSeg (c : Ctx) (w : UMem) (i : Nat) : Obj :=
  let array := w (c.region (load64 (w (.buf .arg2)) 16))
  ⟨load64 array (16 * i), (load64 array (16 * i + 8)).toNat⟩

/-- **The kernel's `recvmsg`** has returned `r`, and put `o` into the message that the
slot held: of name and control data as much as there was room for, of the payload
`bytesRead r` bytes, segment by segment. -/
structure Received (c : Ctx) (u : UMem) (o : MsgOut) (r : Word) (v : UMem) : Prop where
  result : resultOf v = r
  header : v (.buf .arg2) = o.header (sent c .recvmsg u (.buf .arg2))
  name : load32 (sent c .recvmsg u (.buf .arg2)) 8 ≠ 0 → ∀ j,
    v (c.region (load64 (sent c .recvmsg u (.buf .arg2)) 0)) j =
      if j < min (load32 (sent c .recvmsg u (.buf .arg2)) 8).toNat o.namelen.toNat then o.name j
      else sent c .recvmsg u (c.region (load64 (sent c .recvmsg u (.buf .arg2)) 0)) j
  array : load64 (sent c .recvmsg u (.buf .arg2)) 24 ≠ 0 →
    v (c.region (load64 (sent c .recvmsg u (.buf .arg2)) 16)) =
      sent c .recvmsg u (c.region (load64 (sent c .recvmsg u (.buf .arg2)) 16))
  segs : ∀ i < intCount (msgIovlen c.mem c.a2), ∀ j,
    v (c.region (kernelMsgSeg c (sent c .recvmsg u) i).ptr) j =
      if j < share (fun i => (kernelMsgSeg c (sent c .recvmsg u) i).size) (bytesRead r) i then
        o.data (start (fun i => (kernelMsgSeg c (sent c .recvmsg u) i).size) i + j)
      else sent c .recvmsg u (c.region (kernelMsgSeg c (sent c .recvmsg u) i).ptr) j
  control : load64 (sent c .recvmsg u (.buf .arg2)) 40 ≠ 0 → ∀ j,
    v (c.region (load64 (sent c .recvmsg u (.buf .arg2)) 32)) j =
      if j < min (load64 (sent c .recvmsg u (.buf .arg2)) 40).toNat o.controllen.toNat then
        o.control j
      else sent c .recvmsg u (c.region (load64 (sent c .recvmsg u (.buf .arg2)) 32)) j

/-- The kernel's lengths are not negative as `int`, and one call receives no more than
`MAX_RW_COUNT`. -/
structure MsgHead.Valid (o : MsgHead) (r : Word) : Prop where
  namelen : o.namelen.toNat < 2 ^ 31
  controllen : o.controllen.toNat < 2 ^ 31
  payload : bytesRead r ≤ maxRwCount

/-- The caller's lengths and segments. -/
def msgSegLens (c : Ctx) (i : Nat) : Nat := (iovLen c.mem (msgIov c.mem c.a2) i).toNat

def msgSegObj (c : Ctx) (i : Nat) : Obj := ⟨iovBase c.mem (msgIov c.mem c.a2) i, msgSegLens c i⟩

def msgNameObj (c : Ctx) : Obj := ⟨msgName c.mem c.a2, (msgNamelen c.mem c.a2).toNat⟩

def msgControlObj (c : Ctx) : Obj := ⟨msgControl c.mem c.a2, (msgControllen c.mem c.a2).toNat⟩

/-- The header and the array of the caller. -/
def msgHeaderObj (c : Ctx) : Obj := ⟨c.a2, sizeofMsghdr⟩

def msgArrayObj (c : Ctx) : Obj := ⟨msgIov c.mem c.a2, 16 * intCount (msgIovlen c.mem c.a2)⟩

theorem msgHeaderObj_size (c : Ctx) : (msgHeaderObj c).size ≤ 2 ^ 64 :=
  show sizeofMsghdr ≤ 2 ^ 64 by decide

/-- The object overlaps neither the header nor the array. -/
structure OutsideMsg (c : Ctx) (x : Obj) : Prop where
  header : x.Apart (msgHeaderObj c)
  array : x.Apart (msgArrayObj c)

/-- The parts of the caller's message overlap neither each other nor the header and the
array. -/
structure MsgApart (c : Ctx) : Prop where
  name : OutsideMsg c (msgNameObj c)
  control : OutsideMsg c (msgControlObj c)
  seg : ∀ i < intCount (msgIovlen c.mem c.a2), OutsideMsg c (msgSegObj c i)
  name_control : (msgNameObj c).Apart (msgControlObj c)
  name_seg : ∀ i < intCount (msgIovlen c.mem c.a2), (msgNameObj c).Apart (msgSegObj c i)
  control_seg : ∀ i < intCount (msgIovlen c.mem c.a2), (msgControlObj c).Apart (msgSegObj c i)
  segs : ∀ i < intCount (msgIovlen c.mem c.a2), ∀ j < intCount (msgIovlen c.mem c.a2), i ≠ j →
    (msgSegObj c i).Apart (msgSegObj c j)

/-- The caller finds the kernel's lengths and flags, the name and the control data up to
these lengths, the payload in order, and every other byte of its buffers unchanged. -/
structure MsgReturned (c : Ctx) (o : MsgOut) (r : Word) (m : Mem) : Prop where
  namelen : load32 (m.at c.a2) 8 = o.namelen
  controllen : (load32 (m.at c.a2) 40).setWidth 64 = o.controllen
  flags : load32 (m.at c.a2) 48 = o.flags
  name : ∀ j < (msgNameObj c).size, m.at (msgNameObj c).ptr j =
    if j < o.namelen.toNat then o.name j else c.mem.at (msgNameObj c).ptr j
  control : ∀ j < (msgControlObj c).size, m.at (msgControlObj c).ptr j =
    if j < o.controllen.toNat then o.control j else c.mem.at (msgControlObj c).ptr j
  segs : ∀ i < intCount (msgIovlen c.mem c.a2), ∀ j < msgSegLens c i,
    m.at (msgSegObj c i).ptr j = if j < share (msgSegLens c) (bytesRead r) i then
      o.data (start (msgSegLens c) i + j) else c.mem.at (msgSegObj c i).ptr j

/-- The kernel's lengths are the ones sent, and every copy of a segment is as long as
its share of the payload. -/
structure MsgExact (c : Ctx) (o : MsgHead) (r : Word) : Prop where
  namelen : o.namelen = load32 (c.mem.at c.a2) 8
  controllen : o.controllen = (load32 (c.mem.at c.a2) 40).setWidth 64
  segs : ∀ i < intCount (msgIovlen c.mem c.a2),
    memcpyLen (iovLen c.mem (msgIov c.mem c.a2) i) = share (msgSegLens c) (bytesRead r) i

/-! ## What lies in the blocks -/

theorem sent_header (u : UMem) : ∃ f, sent c .recvmsg u (.buf .arg2) = msgHeader c f :=
  ⟨_, msg_header c false _⟩

/-- Of the blocks only that of the array is written. -/
theorem sent_block {k : Nat} (hk : k < mallocs c .recvmsg)
    (hne : msgIovlen c.mem c.a2 ≠ 0 → k ≠ msgNameBlocks c) (u : UMem) :
    sent c .recvmsg u (.heap (c.alloc k)) = u (.heap (c.alloc k)) := by
  have hle : mallocs c .recvmsg ≤ 2 ^ 32 := mallocs_sendmsg_le c
  have hname := msgNameBlocks_le c
  have hblock : msgIovlen c.mem c.a2 ≠ 0 → c.alloc k ≠ c.alloc (msgNameBlocks c) :=
    fun hlen heq => hne hlen (c.alloc_inj k (by omega) _ (by omega) heq)
  rw [sent, applyAll_of_ne (msgSends_block hblock), sendNr_apply, if_neg (heap_ne_buf _ _)]

theorem kernelMsgSeg_sent (u : UMem) (hi : i < intCount (msgIovlen c.mem c.a2)) :
    kernelMsgSeg c (sent c .recvmsg u) i =
      ⟨c.alloc (msgNameBlocks c + 1 + i), msgSegLens c i⟩ := by
  obtain ⟨f, hf⟩ := sent_header (c := c) u
  obtain ⟨hbase, hlen⟩ := msg_entry false hi ((sendNr .recvmsg).apply u)
  have harray : sent c .recvmsg u (.heap (msgIovPtr c)) =
      applyAll (msgSends c false) ((sendNr .recvmsg).apply u) (.heap (msgIovPtr c)) := rfl
  simp only [kernelMsgSeg, hf, msgHeader_iov, region_msgIovPtr, harray, hbase, hlen]
  rfl

theorem sent_iovlen (u : UMem) :
    load64 (sent c .recvmsg u (.buf .arg2)) 24 = 0 ↔ msgIovlen c.mem c.a2 = 0 := by
  obtain ⟨f, hf⟩ := sent_header (c := c) u
  have hlow : ∀ y : BitVec 32, (y.setWidth 64).setWidth 32 = (y.signExtend 64).setWidth 32 :=
    fun y => (trunc_int y).trans (setWidth_signExtend y).symm
  rw [hf, load64_msgHeader_iovlen]
  refine setWidth_eq_zero_iff.symm.trans (Iff.trans ?_ signExtend_eq_zero_iff)
  rw [hlow]

theorem nameBlock_lt (hlen : msgNamelen c.mem c.a2 ≠ 0) : 0 < mallocs c .recvmsg := by
  have hone := msgNameBlocks_eq hlen
  have hle := msgNameBlocks_le_iov c
  have hle' : msgIovBlocks c ≤ mallocs c .recvmsg := msgIovBlocks_le_mallocs c
  omega

theorem segBlock_lt (hi : i < intCount (msgIovlen c.mem c.a2)) :
    msgNameBlocks c + 1 + i < msgIovBlocks c := by
  have hall := msgIovBlocks_eq (msgIovlen_ne_zero hi)
  omega

theorem controlBlock_lt (hlen : msgControllen c.mem c.a2 ≠ 0) :
    msgIovBlocks c < mallocs c .recvmsg := by
  show msgIovBlocks c < msgIovBlocks c + if msgControllen c.mem c.a2 = 0 then 0 else 1
  rw [if_neg hlen]
  omega

section Header

variable (o : MsgHead) (h : Bytes)

@[simp] theorem MsgHead.header_name : load64 (o.header h) 0 = load64 h 0 := by
  simp [MsgHead.header, load64_overlay_of_disjoint]

@[simp] theorem MsgHead.header_iov : load64 (o.header h) 16 = load64 h 16 := by
  simp [MsgHead.header, load64_overlay_of_disjoint]

@[simp] theorem MsgHead.header_iovlen : load32 (o.header h) 24 = load32 h 24 := by
  simp [MsgHead.header, load32_overlay_of_disjoint]

@[simp] theorem MsgHead.header_control : load64 (o.header h) 32 = load64 h 32 := by
  simp [MsgHead.header, load64_overlay_of_disjoint]

@[simp] theorem MsgHead.header_namelen : load32 (o.header h) 8 = o.namelen := by
  simp [MsgHead.header, load32_overlay_of_disjoint, load32_overlay_self]

@[simp] theorem MsgHead.header_controllen :
    load32 (o.header h) 40 = o.controllen.setWidth 32 := by
  rw [MsgHead.header, load32_overlay_of_disjoint (by decide),
    show 40 = 40 + 0 from rfl, load32_overlay (by decide), load32_le64]

@[simp] theorem MsgHead.header_flags : load32 (o.header h) 48 = o.flags := by
  simp [MsgHead.header, load32_overlay_self]

end Header

namespace Received

variable (h : Received c u o r v)

include h

/-- Where the copies of the name and of the control data come from. -/
theorem name_src : c.region (load64 (v (.buf .arg2)) 0) = .heap (msgNamePtr c) := by
  obtain ⟨f, hf⟩ := sent_header (c := c) u
  rw [h.header, MsgHead.header_name, hf, msgHeader_name, region_msgNamePtr]

theorem control_src : c.region (load64 (v (.buf .arg2)) 32) = .heap (msgControlPtr c) := by
  obtain ⟨f, hf⟩ := sent_header (c := c) u
  rw [h.header, MsgHead.header_control, hf, msgHeader_control, region_msgControlPtr]

theorem iovlen_field : load32 (v (.buf .arg2)) 24 = (msgIovlen c.mem c.a2).setWidth 32 := by
  obtain ⟨f, hf⟩ := sent_header (c := c) u
  rw [h.header, MsgHead.header_iovlen, hf, msgHeader_iovlen]

/-- Where the copy of a segment comes from. -/
theorem seg_src (hi : i < intCount (msgIovlen c.mem c.a2)) :
    msgSegSrc c v i = .heap (c.alloc (msgNameBlocks c + 1 + i)) := by
  obtain ⟨f, hf⟩ := sent_header (c := c) u
  have hlen := msgIovlen_ne_zero hi
  have hiovlen : load64 (sent c .recvmsg u (.buf .arg2)) 24 ≠ 0 := mt (sent_iovlen u).mp hlen
  have harray : v (.heap (msgIovPtr c)) = sent c .recvmsg u (.heap (msgIovPtr c)) := by
    have hkeep := h.array hiovlen
    rwa [hf, msgHeader_iov, region_msgIovPtr] at hkeep
  have hbase : load64 (sent c .recvmsg u (.heap (msgIovPtr c))) (16 * i) =
      c.alloc (msgNameBlocks c + 1 + i) := (msg_entry false hi _).1
  rw [msgSegSrc, h.header, MsgHead.header_iov, hf, msgHeader_iov, region_msgIovPtr, harray, hbase,
    c.region_alloc]

/-- **The blocks** when the kernel has returned: what it put there, then what they held
before. -/
theorem name_block (hlen : msgNamelen c.mem c.a2 ≠ 0) (j : Nat) :
    v (.heap (c.alloc 0)) j = if j < min (msgNameObj c).size o.namelen.toNat then o.name j
      else u (.heap (c.alloc 0)) j := by
  obtain ⟨f, hf⟩ := sent_header (c := c) u
  have hne : load32 (sent c .recvmsg u (.buf .arg2)) 8 ≠ 0 := by
    rw [hf, load32_msgHeader_namelen]
    exact mt msgNamelen_eq_zero.mpr hlen
  have hptr : msgNamePtr c = c.alloc 0 := if_neg hlen
  have hsize : (msgNameObj c).size = (load32 (c.mem.at c.a2) 8).toNat := by
    rw [msgNameObj, msgNamelen, toNat_zeroExtend]
  have hblock := h.name hne j
  rw [hf, msgHeader_name, region_msgNamePtr, load32_msgHeader_namelen, hptr,
    sent_block (nameBlock_lt hlen) fun _ => nameBlock_ne hlen] at hblock
  rw [hblock, hsize]

theorem seg_block (hi : i < intCount (msgIovlen c.mem c.a2)) (j : Nat) :
    v (.heap (c.alloc (msgNameBlocks c + 1 + i))) j =
      if j < share (msgSegLens c) (bytesRead r) i then o.data (start (msgSegLens c) i + j)
      else u (.heap (c.alloc (msgNameBlocks c + 1 + i))) j := by
  have hsize : ∀ k ≤ i, (kernelMsgSeg c (sent c .recvmsg u) k).size = msgSegLens c k := by
    intro k hk
    rw [kernelMsgSeg_sent u (by omega)]
  have hlt := segBlock_lt hi
  have hle : msgIovBlocks c ≤ mallocs c .recvmsg := msgIovBlocks_le_mallocs c
  have hblock := h.segs i hi j
  rw [share_congr hsize, start_congr fun k hk => hsize k hk.le, kernelMsgSeg_sent u hi,
    c.region_alloc, sent_block (by omega) fun _ => by omega] at hblock
  exact hblock

theorem control_block (hlen : msgControllen c.mem c.a2 ≠ 0) (j : Nat) :
    v (.heap (c.alloc (msgIovBlocks c))) j =
      if j < min (msgControlObj c).size o.controllen.toNat then o.control j
      else u (.heap (c.alloc (msgIovBlocks c))) j := by
  obtain ⟨f, hf⟩ := sent_header (c := c) u
  have hne : load64 (sent c .recvmsg u (.buf .arg2)) 40 ≠ 0 := by
    rw [hf, load64_msgHeader_controllen]
    exact hlen
  have hptr : msgControlPtr c = c.alloc (msgIovBlocks c) := if_neg hlen
  have hblock := h.control hne j
  rw [hf, msgHeader_control, region_msgControlPtr, load64_msgHeader_controllen, hptr,
    sent_block (controlBlock_lt hlen) fun hiov => controlBlock_ne hiov] at hblock
  exact hblock

end Received

/-! ## The copies back -/

/-- The copies of the three parts, with the lengths and places of the caller's header
and array. -/
def msgCopies (c : Ctx) (v : UMem) : List Recv :=
  msgNameRecvs c v c.mem ++
    (List.range (intCount (msgIovlen c.mem c.a2))).map (fun i => msgSegRecv c v i c.mem) ++
    msgControlRecvs c v c.mem

/-- Copies that leave header and array alone are these, and then the flags. -/
theorem memAfter_recvmsg (hv : Received c u o r v) {I : Mem → Prop} (hstart : I c.mem)
    (hhead : ∀ m, I m → AgreeOn m c.mem c.a2 sizeofMsghdr)
    (harray : ∀ m, I m →
      AgreeOn m c.mem (msgIov c.mem c.a2) (16 * intCount (msgIovlen c.mem c.a2)))
    (hkeep : ∀ q ∈ msgCopies c v, ∀ m, I m → I (q.apply v m)) :
    memAfter c .recvmsg v = (msgFlagsRecv c).apply v (applyRecvs v (msgCopies c v) c.mem) := by
  have hcount := intCount_lt (msgIovlen c.mem c.a2)
  obtain ⟨m1, hm1⟩ : ∃ m1, m1 = applyRecvs v (msgNameRecvs c v c.mem) c.mem := ⟨_, rfl⟩
  have hI1 : I m1 := hm1 ▸ applyRecvs_keeps hstart fun q hq =>
    hkeep q (List.mem_append_left _ (List.mem_append_left _ hq))
  have hseg : ∀ i < intCount (msgIovlen c.mem c.a2), ∀ m, I m →
      msgSegRecv c v i m = msgSegRecv c v i c.mem ∧ I ((msgSegRecv c v i c.mem).apply v m) := by
    intro i hi m hm
    constructor
    · rw [msgSegRecv, msgSegRecv, (hhead m hm).msgIov, (harray m hm).iovBase hi,
        (harray m hm).iovLen hi]
    · refine hkeep _ (List.mem_append_left _ (List.mem_append_right _ ?_)) m hm
      exact List.mem_map_of_mem (List.mem_range.mpr hi)
  have hsegs : msgSegRecvs c v m1 =
      (List.range (intCount (msgIovlen c.mem c.a2))).map fun i => msgSegRecv c v i c.mem := by
    unfold msgSegRecvs
    split
    · rename_i hzero
      have hnone : intCount (msgIovlen c.mem c.a2) = 0 := by
        rw [hv.iovlen_field] at hzero
        rw [intCount, hzero]
        rfl
      rw [hnone]
      rfl
    · rw [recvmsgLoop_eq_map hI1 (fun m hm => by rw [(hhead m hm).msgIovlen]) hseg (by omega)]
      simp only [Nat.zero_add, Nat.sub_zero]
  obtain ⟨m2, hm2⟩ : ∃ m2, m2 = applyRecvs v (msgSegRecvs c v m1) m1 := ⟨_, rfl⟩
  have hI2 : I m2 := by
    rw [hm2, hsegs]
    refine applyRecvs_keeps hI1 fun q hq => ?_
    exact hkeep q (List.mem_append_left _ (List.mem_append_right _ hq))
  have hcontrol : msgControlRecvs c v m2 = msgControlRecvs c v c.mem := by
    rw [msgControlRecvs, msgControlRecvs, (hhead m2 hI2).msgControl, (hhead m2 hI2).msgControllen]
  show applyRecvs v (recvmsgRecvs c v c.mem) c.mem = _
  rw [recvmsgRecvs_eq, ← hm1, ← hm2, hsegs, hcontrol, applyRecvs_append, applyRecvs_cons,
    applyRecvs_nil, msgCopies]

/-- The header after the assignment of the flags. -/
theorem flags_apply_at (v : UMem) (m : Mem) {j : Nat} (hj : j < sizeofMsghdr) :
    ((msgFlagsRecv c).apply v m).at c.a2 j =
      if 48 ≤ j ∧ j < 52 then v (.buf .arg2) j else m.at c.a2 j := by
  have hsize : sizeofMsghdr = 56 := rfl
  have hoff : (c.a2 + BitVec.ofNat 64 j - (c.a2 + 48)).toNat = (2 ^ 64 - 48 + j) % 2 ^ 64 := by
    have h48 : (48 : Word).toNat = 48 := rfl
    rw [BitVec.toNat_sub, BitVec.toNat_add, BitVec.toNat_add, BitVec.toNat_ofNat, h48]
    omega
  show (msgFlagsRecv c).apply v m (c.a2 + BitVec.ofNat 64 j) = _
  split
  · have hw : (msgFlagsRecv c).Writes (c.a2 + BitVec.ofNat 64 j) := by
      show (c.a2 + BitVec.ofNat 64 j - (c.a2 + 48)).toNat < 4
      rw [hoff]
      omega
    rw [recv_apply_of_writes hw]
    show v (.buf .arg2) (48 + (c.a2 + BitVec.ofNat 64 j - (c.a2 + 48)).toNat) = _
    rw [hoff]
    congr 1
    omega
  · refine recv_apply_of_not_writes (fun hw => ?_) v m
    have hlt : (c.a2 + BitVec.ofNat 64 j - (c.a2 + 48)).toNat < 4 := hw
    rw [hoff] at hlt
    omega

/-- A byte outside the header is no flag. -/
theorem flags_apply_of_outside {x : Obj} (hx : x.Apart (msgHeaderObj c)) (hp : x.Has p) (v : UMem)
    (m : Mem) : (msgFlagsRecv c).apply v m p = m p := by
  refine recv_apply_of_not_writes (fun hw => hx p ⟨hp, ?_⟩) v m
  have hlt : (p - (c.a2 + 48)).toNat < 4 := hw
  have h48 : (48 : Word).toNat = 48 := rfl
  rw [BitVec.toNat_sub, BitVec.toNat_add, h48] at hlt
  show (p - c.a2).toNat < 56
  rw [BitVec.toNat_sub]
  omega

/-! ## Exact copies -/

theorem name_within (hlt : (msgNamelen c.mem c.a2).toNat < 2 ^ 31) :
    ∀ q ∈ msgNameRecvs c v c.mem, q.Within (msgNameObj c) := by
  intro q hq
  unfold msgNameRecvs at hq
  split at hq
  · exact absurd hq List.not_mem_nil
  · rw [List.mem_singleton.mp hq]
    exact within_of_le rfl (memcpyLen_of_lt hlt).le

theorem control_within (hlt : (msgControllen c.mem c.a2).toNat < 2 ^ 31) :
    ∀ q ∈ msgControlRecvs c v c.mem, q.Within (msgControlObj c) := by
  intro q hq
  unfold msgControlRecvs at hq
  split at hq
  · exact absurd hq List.not_mem_nil
  · rw [List.mem_singleton.mp hq]
    exact within_of_le rfl (memcpyLen_of_lt hlt).le

theorem seg_within (v : UMem)
    (hle : memcpyLen (iovLen c.mem (msgIov c.mem c.a2) i) ≤ share (msgSegLens c) (bytesRead r) i) :
    (msgSegRecv c v i c.mem).Within (msgSegObj c i) :=
  within_of_le rfl (hle.trans (share_le _ _ _))

section Exact

variable (hexact : MsgExact c o.toMsgHead r) (hvalid : o.Valid r) (hv : Received c u o r v)

include hexact

theorem MsgExact.nameSize : (msgNameObj c).size = o.namelen.toNat := by
  rw [hexact.namelen, msgNameObj, msgNamelen, toNat_zeroExtend]

theorem MsgExact.controlSize : (msgControlObj c).size = o.controllen.toNat := by
  rw [hexact.controllen]
  rfl

include hvalid

theorem MsgExact.name_lt : (msgNamelen c.mem c.a2).toNat < 2 ^ 31 :=
  hexact.nameSize.trans_lt hvalid.namelen

theorem MsgExact.control_lt : (msgControllen c.mem c.a2).toNat < 2 ^ 31 :=
  hexact.controlSize.trans_lt hvalid.controllen

/-- Every copy stays in an object outside the header and the array. -/
theorem copies_within (hmsg : MsgApart c) :
    ∀ q ∈ msgCopies c v, ∃ x, q.Within x ∧ OutsideMsg c x := by
  intro q hq
  rcases List.mem_append.mp hq with hq | hq
  · rcases List.mem_append.mp hq with hq | hq
    · exact ⟨_, name_within (hexact.name_lt hvalid) q hq, hmsg.name⟩
    · obtain ⟨i, hi, rfl⟩ := List.mem_map.mp hq
      have hlt := List.mem_range.mp hi
      exact ⟨_, seg_within v (hexact.segs _ hlt).le, hmsg.seg i hlt⟩
  · exact ⟨_, control_within (hexact.control_lt hvalid) q hq, hmsg.control⟩

section Separate

variable (hmsg : MsgApart c)

include hv hmsg

/-- The parts are copied, and then the flags. -/
theorem memAfter_of_exact : memAfter c .recvmsg v =
    (msgFlagsRecv c).apply v (applyRecvs v (msgCopies c v) c.mem) := by
  have hcount := intCount_lt (msgIovlen c.mem c.a2)
  have hsize : (msgArrayObj c).size ≤ 2 ^ 64 := by
    show 16 * intCount (msgIovlen c.mem c.a2) ≤ 2 ^ 64
    omega
  refine memAfter_recvmsg hv (I := fun m => AgreeOn m c.mem (msgHeaderObj c).ptr
    (msgHeaderObj c).size ∧ AgreeOn m c.mem (msgArrayObj c).ptr (msgArrayObj c).size)
    ⟨fun _ _ => rfl, fun _ _ => rfl⟩ (fun _ hm => hm.1) (fun _ hm => hm.2) fun q hq m hm => ?_
  obtain ⟨x, hin, hout⟩ := copies_within hexact hvalid hmsg q hq
  exact ⟨hin.agreeOn hout.header (msgHeaderObj_size c) hm.1, hin.agreeOn hout.array hsize hm.2⟩

/-- Of the header only the flags change. -/
theorem header_of_exact {j : Nat} (hj : j < sizeofMsghdr) :
    (memAfter c .recvmsg v).at c.a2 j =
      if 48 ≤ j ∧ j < 52 then v (.buf .arg2) j else c.mem.at c.a2 j := by
  have hhead : AgreeOn (applyRecvs v (msgCopies c v) c.mem) c.mem (msgHeaderObj c).ptr
      (msgHeaderObj c).size := by
    refine applyRecvs_keeps (I := fun m => AgreeOn m c.mem (msgHeaderObj c).ptr
      (msgHeaderObj c).size) (fun _ _ => rfl) fun q hq m hm => ?_
    obtain ⟨x, hin, hout⟩ := copies_within hexact hvalid hmsg q hq
    exact hin.agreeOn hout.header (msgHeaderObj_size c) hm
  rw [memAfter_of_exact hexact hvalid hv hmsg, flags_apply_at v _ hj]
  split
  · rfl
  · exact hhead j hj

theorem name_of_exact {j : Nat} (hj : j < (msgNameObj c).size) :
    (memAfter c .recvmsg v).at (msgNameObj c).ptr j = o.name j := by
  have hlt := (msgNamelen c.mem c.a2).isLt
  have hhas := Obj.has_add hj hlt.le
  have hoff := toNat_add_sub (msgNameObj c).ptr (Nat.lt_trans hj hlt)
  have hsize := hexact.nameSize
  have hlen : msgNamelen c.mem c.a2 ≠ 0 := by
    intro hzero
    rw [msgNameObj, hzero] at hj
    exact absurd hj (Nat.not_lt_zero j)
  have hne : ¬ load32 (v (.buf .arg2)) 8 = 0 := by
    rw [hv.header, MsgHead.header_namelen]
    intro hzero
    rw [hsize, hzero] at hj
    exact absurd hj (Nat.not_lt_zero j)
  have hcopy : memcpyLen (msgNamelen c.mem c.a2) = (msgNameObj c).size :=
    memcpyLen_of_lt (hexact.name_lt hvalid)
  have hptr : msgNamePtr c = c.alloc 0 := if_neg hlen
  rw [memAfter_of_exact hexact hvalid hv hmsg, Mem.at,
    flags_apply_of_outside hmsg.name.header hhas, msgCopies, applyRecvs_append, applyRecvs_append,
    applyRecvs_of_not_writes, applyRecvs_of_not_writes, msgNameRecvs, if_neg hne, applyRecvs_cons,
    applyRecvs_nil, recv_apply_of_writes]
  · show v (c.region (load64 (v (.buf .arg2)) 0)) (0 + (_ - (msgNameObj c).ptr).toNat) = _
    rw [hv.name_src, hptr, hoff, Nat.zero_add, hv.name_block hlen, if_pos (by omega)]
  · show (_ - (msgNameObj c).ptr).toNat < memcpyLen (msgNamelen c.mem c.a2)
    rw [hoff, hcopy]
    exact hj
  · intro q hq
    obtain ⟨i, hi, rfl⟩ := List.mem_map.mp hq
    have hlt := List.mem_range.mp hi
    exact (seg_within v (hexact.segs _ hlt).le).not_writes (hmsg.name_seg i hlt).symm hhas
  · exact fun q hq =>
      (control_within (hexact.control_lt hvalid) q hq).not_writes hmsg.name_control.symm hhas

theorem control_of_exact {j : Nat} (hj : j < (msgControlObj c).size) :
    (memAfter c .recvmsg v).at (msgControlObj c).ptr j = o.control j := by
  have hlt := (msgControllen c.mem c.a2).isLt
  have hhas := Obj.has_add hj hlt.le
  have hoff := toNat_add_sub (msgControlObj c).ptr (Nat.lt_trans hj hlt)
  have hsize := hexact.controlSize
  have hlen : msgControllen c.mem c.a2 ≠ 0 := by
    intro hzero
    rw [msgControlObj, hzero] at hj
    exact absurd hj (Nat.not_lt_zero j)
  have hne : ¬ load32 (v (.buf .arg2)) 40 = 0 := by
    rw [hv.header, MsgHead.header_controllen, hexact.controllen]
    exact mt setWidth_eq_zero_iff.mp hlen
  have hcopy : memcpyLen (msgControllen c.mem c.a2) = (msgControlObj c).size :=
    memcpyLen_of_lt (hexact.control_lt hvalid)
  have hptr : msgControlPtr c = c.alloc (msgIovBlocks c) := if_neg hlen
  rw [memAfter_of_exact hexact hvalid hv hmsg, Mem.at,
    flags_apply_of_outside hmsg.control.header hhas, msgCopies, applyRecvs_append, msgControlRecvs,
    if_neg hne, applyRecvs_cons, applyRecvs_nil, recv_apply_of_writes]
  · show v (c.region (load64 (v (.buf .arg2)) 32)) (0 + (_ - (msgControlObj c).ptr).toNat) = _
    rw [hv.control_src, hptr, hoff, Nat.zero_add, hv.control_block hlen, if_pos (by omega)]
  · show (_ - (msgControlObj c).ptr).toNat < memcpyLen (msgControllen c.mem c.a2)
    rw [hoff, hcopy]
    exact hj

theorem seg_of_exact (hi : i < intCount (msgIovlen c.mem c.a2)) {j : Nat}
    (hj : j < msgSegLens c i) : (memAfter c .recvmsg v).at (msgSegObj c i).ptr j =
      if j < share (msgSegLens c) (bytesRead r) i then o.data (start (msgSegLens c) i + j)
      else c.mem.at (msgSegObj c i).ptr j := by
  have hlt := (iovLen c.mem (msgIov c.mem c.a2) i).isLt
  have hhas : (msgSegObj c i).Has ((msgSegObj c i).ptr + BitVec.ofNat 64 j) :=
    Obj.has_add hj hlt.le
  have hoff := toNat_add_sub (msgSegObj c i).ptr (Nat.lt_trans hj hlt)
  rw [memAfter_of_exact hexact hvalid hv hmsg, Mem.at,
    flags_apply_of_outside (hmsg.seg i hi).header hhas, msgCopies, applyRecvs_append,
    applyRecvs_append, applyRecvs_of_not_writes, applyRecvs_range_at hi]
  · show (if (_ - (msgSegObj c i).ptr).toNat < memcpyLen (iovLen c.mem (msgIov c.mem c.a2) i) then
      v (msgSegSrc c v i) (0 + (_ - (msgSegObj c i).ptr).toNat) else _) = _
    rw [hoff, Nat.zero_add, hexact.segs i hi, hv.seg_src hi, hv.seg_block hi]
    split
    · rfl
    · refine applyRecvs_of_not_writes (fun q hq => ?_) v c.mem
      exact (name_within (hexact.name_lt hvalid) q hq).not_writes (hmsg.name_seg i hi) hhas
  · intro k hk hki
    exact (seg_within v (hexact.segs _ hk).le).not_writes (hmsg.segs k hk i hi hki) hhas
  · intro q hq
    exact (control_within (hexact.control_lt hvalid) q hq).not_writes (hmsg.control_seg i hi) hhas

/-- **Exact lengths** bring back what the kernel produced. -/
theorem returned_of_exact : MsgReturned c o r (memAfter c .recvmsg v) := by
  have hhead := fun {j : Nat} (hj : j < sizeofMsghdr) => header_of_exact hexact hvalid hv hmsg hj
  have hsize : sizeofMsghdr = 56 := rfl
  refine { namelen := ?_, controllen := ?_, flags := ?_, name := ?_, control := ?_, segs := ?_ }
  · rw [hexact.namelen]
    refine load32_congr fun j hj => ?_
    rw [hhead (by omega), if_neg (by omega)]
  · rw [hexact.controllen]
    refine congrArg (·.setWidth 64) (load32_congr fun j hj => ?_)
    rw [hhead (by omega), if_neg (by omega)]
  · rw [load32_congr (g := v (.buf .arg2)) (p := 48) fun j hj => ?_, hv.header,
      MsgHead.header_flags]
    rw [hhead (by omega), if_pos (by omega)]
  · intro j hj
    rw [name_of_exact hexact hvalid hv hmsg hj, if_pos (hexact.nameSize ▸ hj)]
  · intro j hj
    rw [control_of_exact hexact hvalid hv hmsg hj, if_pos (hexact.controlSize ▸ hj)]
  · exact fun i hi j hj => seg_of_exact hexact hvalid hv hmsg hi hj

end Separate

end Exact

/-! ## Every message can come -/

/-- The `k`-th block when the kernel has returned. -/
def receivedBlock (c : Ctx) (u : UMem) (o : MsgOut) (r : Word) (k : Nat) : Bytes := fun j =>
  let i := k - (msgNameBlocks c + 1)
  if k = 0 ∧ msgNamelen c.mem c.a2 ≠ 0 then
    if j < min (msgNameObj c).size o.namelen.toNat then o.name j
    else sent c .recvmsg u (.heap (c.alloc k)) j
  else if msgNameBlocks c < k ∧ k < msgIovBlocks c then
    if j < share (msgSegLens c) (bytesRead r) i then o.data (start (msgSegLens c) i + j)
    else sent c .recvmsg u (.heap (c.alloc k)) j
  else if k = msgIovBlocks c then
    if j < min (msgControlObj c).size o.controllen.toNat then o.control j
    else sent c .recvmsg u (.heap (c.alloc k)) j
  else sent c .recvmsg u (.heap (c.alloc k)) j

theorem receivedBlock_name (hlen : msgNamelen c.mem c.a2 ≠ 0) (j : Nat) :
    receivedBlock c u o r 0 j = if j < min (msgNameObj c).size o.namelen.toNat then o.name j
      else sent c .recvmsg u (.heap (c.alloc 0)) j := if_pos ⟨rfl, hlen⟩

theorem receivedBlock_seg (hi : i < intCount (msgIovlen c.mem c.a2)) (j : Nat) :
    receivedBlock c u o r (msgNameBlocks c + 1 + i) j =
      if j < share (msgSegLens c) (bytesRead r) i then o.data (start (msgSegLens c) i + j)
      else sent c .recvmsg u (.heap (c.alloc (msgNameBlocks c + 1 + i))) j := by
  have hlt := segBlock_lt hi
  simp only [receivedBlock, Nat.add_sub_cancel_left]
  rw [if_neg (by omega), if_pos ⟨by omega, hlt⟩]

theorem receivedBlock_control (hlen : msgNamelen c.mem c.a2 ≠ 0 → msgIovBlocks c ≠ 0) (j : Nat) :
    receivedBlock c u o r (msgIovBlocks c) j =
      if j < min (msgControlObj c).size o.controllen.toNat then o.control j
      else sent c .recvmsg u (.heap (c.alloc (msgIovBlocks c))) j := by
  rw [receivedBlock, if_neg fun h => hlen h.2 h.1, if_neg fun h => Nat.lt_irrefl _ h.2, if_pos rfl]

theorem receivedBlock_array (hlen : msgIovlen c.mem c.a2 ≠ 0) :
    receivedBlock c u o r (msgNameBlocks c) =
      sent c .recvmsg u (.heap (c.alloc (msgNameBlocks c))) := by
  funext j
  have hname : msgNamelen c.mem c.a2 ≠ 0 → 0 ≠ msgNameBlocks c := nameBlock_ne
  have hall := msgIovBlocks_eq hlen
  rw [receivedBlock, if_neg fun h => hname h.2 h.1.symm, if_neg (by omega), if_neg (by omega)]

theorem exists_received (c : Ctx) (u : UMem) (o : MsgOut) (r : Word) :
    ∃ v, Received c u o r v := by
  have hle : mallocs c .recvmsg ≤ 2 ^ 32 := mallocs_sendmsg_le c
  obtain ⟨f, hf⟩ := sent_header (c := c) u
  obtain ⟨v, hblocks, hrest⟩ := exists_overwrite (k := mallocs c .recvmsg)
    (f := fun k => .heap (c.alloc k))
    (fun k hk l hl heq => c.alloc_inj k (by omega) l (by omega) (Region.heap.inj heq))
    (receivedBlock c u o r)
    ((put .arg0 r).apply fun q => if q = .buf .arg2 then
      o.header (sent c .recvmsg u (.buf .arg2)) else sent c .recvmsg u q)
  have hbuf : ∀ b, v (.buf b) = _ := fun b => hrest (.buf b) fun k _ => (heap_ne_buf _ _).symm
  have hiov : msgIovBlocks c ≤ mallocs c .recvmsg := msgIovBlocks_le_mallocs c
  refine ⟨v, ?_, ?_, fun hlen j => ?_, fun hlen => ?_, fun i hi j => ?_, fun hlen j => ?_⟩
  · rw [resultOf, hbuf]
    exact resultOf_put _ _
  · rw [hbuf, put_apply, if_neg (by decide), if_pos rfl]
  · rw [hf, load32_msgHeader_namelen] at hlen ⊢
    have hne : msgNamelen c.mem c.a2 ≠ 0 := mt msgNamelen_eq_zero.mp hlen
    have hptr : msgNamePtr c = c.alloc 0 := if_neg hne
    have hsize : (msgNameObj c).size = (load32 (c.mem.at c.a2) 8).toNat := by
      rw [msgNameObj, msgNamelen, toNat_zeroExtend]
    rw [msgHeader_name, region_msgNamePtr, hptr, hblocks 0 (nameBlock_lt hne),
      receivedBlock_name hne, hsize]
  · have hne : msgIovlen c.mem c.a2 ≠ 0 := mt (sent_iovlen u).mpr hlen
    have hptr : msgIovPtr c = c.alloc (msgNameBlocks c) := if_neg hne
    have hall := msgIovBlocks_eq hne
    rw [hf, msgHeader_iov, region_msgIovPtr, hptr, hblocks _ (by omega), receivedBlock_array hne]
  · have hlt := segBlock_lt hi
    have hsize : ∀ k ≤ i, (kernelMsgSeg c (sent c .recvmsg u) k).size = msgSegLens c k := by
      intro k hk
      rw [kernelMsgSeg_sent u (by omega)]
    rw [share_congr hsize, start_congr fun k hk => hsize k hk.le, kernelMsgSeg_sent u hi,
      c.region_alloc, hblocks _ (by omega), receivedBlock_seg hi]
  · rw [hf, load64_msgHeader_controllen] at hlen ⊢
    have hptr : msgControlPtr c = c.alloc (msgIovBlocks c) := if_neg hlen
    have hname : msgNamelen c.mem c.a2 ≠ 0 → msgIovBlocks c ≠ 0 := by
      intro hne
      have hone := msgNameBlocks_eq hne
      have hmono := msgNameBlocks_le_iov c
      omega
    rw [msgHeader_control, region_msgControlPtr, hptr, hblocks _ (controlBlock_lt hlen),
      receivedBlock_control hname]
    rfl

/-! ## Lengths that are not exact -/

/-- What the kernel produces, and what the blocks held before, is what `m` holds in the
caller's buffers. -/
structure Echoes (c : Ctx) (u : UMem) (o : MsgOut) (m : Mem) : Prop where
  name : msgNamelen c.mem c.a2 ≠ 0 → ∀ j, u (.heap (c.alloc 0)) j = m.at (msgNameObj c).ptr j ∧
    o.name j = m.at (msgNameObj c).ptr j
  seg : ∀ i < intCount (msgIovlen c.mem c.a2), ∀ j,
    u (.heap (c.alloc (msgNameBlocks c + 1 + i))) j = m.at (msgSegObj c i).ptr j ∧
      (j < msgSegLens c i → o.data (start (msgSegLens c) i + j) = m.at (msgSegObj c i).ptr j)
  control : msgControllen c.mem c.a2 ≠ 0 → ∀ j,
    u (.heap (c.alloc (msgIovBlocks c))) j = m.at (msgControlObj c).ptr j ∧
      o.control j = m.at (msgControlObj c).ptr j

/-- The buffer of the `k`-th block. -/
def msgBlockObj (c : Ctx) (k : Nat) : Obj :=
  if k = 0 ∧ msgNamelen c.mem c.a2 ≠ 0 then msgNameObj c
  else if msgNameBlocks c < k ∧ k < msgIovBlocks c then msgSegObj c (k - (msgNameBlocks c + 1))
  else msgControlObj c

theorem exists_echoes (c : Ctx) (h : MsgHead) (m : Mem) :
    ∃ u o, o.toMsgHead = h ∧ Echoes c u o m := by
  have hle : mallocs c .recvmsg ≤ 2 ^ 32 := mallocs_sendmsg_le c
  have hiov : msgIovBlocks c ≤ mallocs c .recvmsg := msgIovBlocks_le_mallocs c
  obtain ⟨u, hu⟩ := exists_slot (k := mallocs c .recvmsg) (f := fun k => .heap (c.alloc k))
    (fun k hk l hl heq => c.alloc_inj k (by omega) l (by omega) (Region.heap.inj heq))
    fun k => m.at (msgBlockObj c k).ptr
  refine ⟨u, ⟨h, m.at (msgNameObj c).ptr, m.at (msgControlObj c).ptr, rowAt (msgSegLens c)
    (fun i => m.at (msgSegObj c i).ptr) 0 (intCount (msgIovlen c.mem c.a2))⟩, rfl, ?_, ?_, ?_⟩
  · intro hlen j
    have hobj : msgBlockObj c 0 = msgNameObj c := if_pos ⟨rfl, hlen⟩
    rw [hu 0 (nameBlock_lt hlen), hobj]
    exact ⟨rfl, rfl⟩
  · intro i hi j
    have hlt := segBlock_lt hi
    have hobj : msgBlockObj c (msgNameBlocks c + 1 + i) = msgSegObj c i := by
      rw [msgBlockObj, if_neg (by omega), if_pos ⟨by omega, hlt⟩, Nat.add_sub_cancel_left]
    rw [hu _ (by omega), hobj]
    exact ⟨rfl, fun hj => rowAt_start hi hj⟩
  · intro hlen j
    have hname : ¬ (msgIovBlocks c = 0 ∧ msgNamelen c.mem c.a2 ≠ 0) := by
      rintro ⟨hzero, hne⟩
      have hone := msgNameBlocks_eq hne
      have hmono := msgNameBlocks_le_iov c
      omega
    have hobj : msgBlockObj c (msgIovBlocks c) = msgControlObj c := by
      rw [msgBlockObj, if_neg hname, if_neg fun h => Nat.lt_irrefl _ h.2]
    rw [hu _ (controlBlock_lt hlen), hobj]
    exact ⟨rfl, rfl⟩

section Echo

variable (hecho : Echoes c u o m) (hv : Received c u o r v)

include hecho hv

theorem name_echo : ∀ q ∈ msgNameRecvs c v c.mem, ∀ j < q.size,
    v q.src (q.off + j) = m.at q.dst j := by
  intro q hq
  unfold msgNameRecvs at hq
  split at hq
  · exact absurd hq List.not_mem_nil
  · rw [List.mem_singleton.mp hq]
    intro j hj
    have hsize : j < memcpyLen (msgNamelen c.mem c.a2) := hj
    have hlen : msgNamelen c.mem c.a2 ≠ 0 := by
      intro hzero
      rw [hzero] at hsize
      exact absurd hsize (Nat.not_lt_zero j)
    have hptr : msgNamePtr c = c.alloc 0 := if_neg hlen
    obtain ⟨hblock, hname⟩ := hecho.name hlen j
    show v (c.region (load64 (v (.buf .arg2)) 0)) (0 + j) = _
    rw [hv.name_src, hptr, Nat.zero_add, hv.name_block hlen]
    split
    · exact hname
    · exact hblock

theorem seg_echo (hi : i < intCount (msgIovlen c.mem c.a2)) (j : Nat) :
    v (msgSegSrc c v i) (0 + j) = m.at (msgSegObj c i).ptr j := by
  obtain ⟨hblock, hdata⟩ := hecho.seg i hi j
  rw [hv.seg_src hi, Nat.zero_add, hv.seg_block hi]
  split
  · rename_i hj
    exact hdata (lt_share_iff.mp hj).1
  · exact hblock

theorem control_echo : ∀ q ∈ msgControlRecvs c v c.mem, ∀ j < q.size,
    v q.src (q.off + j) = m.at q.dst j := by
  intro q hq
  unfold msgControlRecvs at hq
  split at hq
  · exact absurd hq List.not_mem_nil
  · rw [List.mem_singleton.mp hq]
    intro j hj
    have hsize : j < memcpyLen (msgControllen c.mem c.a2) := hj
    have hlen : msgControllen c.mem c.a2 ≠ 0 := by
      intro hzero
      rw [hzero] at hsize
      exact absurd hsize (Nat.not_lt_zero j)
    have hptr : msgControlPtr c = c.alloc (msgIovBlocks c) := if_neg hlen
    obtain ⟨hblock, hcontrol⟩ := hecho.control hlen j
    show v (c.region (load64 (v (.buf .arg2)) 32)) (0 + j) = _
    rw [hv.control_src, hptr, Nat.zero_add, hv.control_block hlen]
    split
    · exact hcontrol
    · exact hblock

/-- Then the copies bring what `m` holds. -/
theorem copies_echo : ∀ q ∈ msgCopies c v, ∀ j < q.size, v q.src (q.off + j) = m.at q.dst j := by
  intro q hq
  rcases List.mem_append.mp hq with hq | hq
  · rcases List.mem_append.mp hq with hq | hq
    · exact name_echo hecho hv q hq
    · obtain ⟨i, hi, rfl⟩ := List.mem_map.mp hq
      exact fun j _ => seg_echo hecho hv (List.mem_range.mp hi) j
  · exact control_echo hecho hv q hq

/-- Copies that bring the caller's header and array leave them as they are. -/
theorem memAfter_of_echo
    (hhead : AgreeOn m c.mem c.a2 sizeofMsghdr)
    (harray : AgreeOn m c.mem (msgIov c.mem c.a2) (16 * intCount (msgIovlen c.mem c.a2))) :
    memAfter c .recvmsg v = (msgFlagsRecv c).apply v (applyRecvs v (msgCopies c v) c.mem) := by
  have hagree : ∀ {p k}, AgreeOn m c.mem p k → ∀ m1 : Mem, (∀ q, m1 q = c.mem q ∨ m1 q = m q) →
      AgreeOn m1 c.mem p k := fun hm m1 h1 j hj => (h1 _).elim id fun heq => heq.trans (hm j hj)
  refine memAfter_recvmsg hv (I := fun m1 => ∀ p, m1 p = c.mem p ∨ m1 p = m p) (fun _ => .inl rfl)
    (hagree hhead) (hagree harray) fun q hq m1 h1 p => ?_
  by_cases hw : q.Writes p
  · right
    rw [recv_apply_of_writes hw, copies_echo hecho hv q hq _ hw, Mem.at, add_ofNat_sub]
  · rw [recv_apply_of_not_writes hw]
    exact h1 p

end Echo

/-- The memory with another byte at `p`. -/
def flipAt (m : Mem) (p : Word) : Mem := fun q => if q = p then ~~~ m p else m q

theorem flipAt_self (m : Mem) (p : Word) : flipAt m p p = ~~~ m p := if_pos rfl

theorem flipAt_agreeOn {x y : Obj} (hapart : x.Apart y) (hp : x.Has p) (hsize : y.size ≤ 2 ^ 64)
    (m : Mem) : AgreeOn (flipAt m p) m y.ptr y.size := by
  intro j hj
  refine if_neg fun heq : y.ptr + BitVec.ofNat 64 j = p => hapart p ⟨hp, ?_⟩
  rw [← heq]
  exact Obj.has_add hj hsize

section Returned

variable {h : MsgHead} (hall : ∀ u o v, o.toMsgHead = h → Received c u o r v →
  MsgReturned c o r (memAfter c .recvmsg v))

include hall

/-- The caller keeps its own lengths. -/
theorem head_of_returned : h.namelen = load32 (c.mem.at c.a2) 8 ∧
    h.controllen = (load32 (c.mem.at c.a2) 40).setWidth 64 := by
  obtain ⟨u, o, rfl, hecho⟩ := exists_echoes c h c.mem
  obtain ⟨v, hv⟩ := exists_received c u o r
  have hback := hall u o v rfl hv
  have hsize : sizeofMsghdr = 56 := rfl
  have hhead : ∀ j < 48, (memAfter c .recvmsg v).at c.a2 j = c.mem.at c.a2 j := by
    intro j hj
    rw [memAfter_of_echo hecho hv (AgreeOn.refl _ _ _) (AgreeOn.refl _ _ _),
      flags_apply_at v _ (by omega), if_neg (by omega)]
    exact applyRecvs_of_echo (copies_echo hecho hv) (.inl rfl)
  constructor
  · rw [← hback.namelen]
    exact load32_congr fun j hj => hhead (8 + j) (by omega)
  · rw [← hback.controllen]
    exact congrArg (·.setWidth 64) (load32_congr fun j hj => hhead (40 + j) (by omega))

variable (hmsg : MsgApart c)

include hmsg

/-- A byte of a segment, when the kernel's bytes and the stale ones are the caller's but for
this one: it changes exactly when it belongs to the payload, and whenever it is copied. -/
theorem segment_of_returned (hi : i < intCount (msgIovlen c.mem c.a2)) (hj : j < msgSegLens c i) :
    ∃ v q, q = (msgSegObj c i).ptr + BitVec.ofNat 64 j ∧
      (applyRecvs v (msgCopies c v) c.mem q = ~~~ c.mem q ↔
        j < share (msgSegLens c) (bytesRead r) i) ∧
      ((∃ s ∈ msgCopies c v, s.Writes q) → applyRecvs v (msgCopies c v) c.mem q = ~~~ c.mem q) := by
  obtain ⟨q, hq⟩ : ∃ q, q = (msgSegObj c i).ptr + BitVec.ofNat 64 j := ⟨_, rfl⟩
  have hcount := intCount_lt (msgIovlen c.mem c.a2)
  have hhas : (msgSegObj c i).Has q := by
    rw [hq]
    exact Obj.has_add hj (iovLen c.mem (msgIov c.mem c.a2) i).isLt.le
  have harray : (msgArrayObj c).size ≤ 2 ^ 64 := by
    show 16 * intCount (msgIovlen c.mem c.a2) ≤ 2 ^ 64
    omega
  obtain ⟨u, o, rfl, hecho⟩ := exists_echoes c h (flipAt c.mem q)
  obtain ⟨v, hv⟩ := exists_received c u o r
  have hmem := memAfter_of_echo hecho hv
    (flipAt_agreeOn (hmsg.seg i hi).header hhas (msgHeaderObj_size c) c.mem)
    (flipAt_agreeOn (hmsg.seg i hi).array hhas harray c.mem)
  have hbyte := (hall u o v rfl hv).segs i hi j hj
  rw [hmem, Mem.at, Mem.at, ← hq, flags_apply_of_outside (hmsg.seg i hi).header hhas] at hbyte
  refine ⟨v, q, hq, ?_, fun hw => ?_⟩
  · rw [hbyte]
    split
    · rename_i hshare
      have hdata := ((hecho.seg i hi j).2 hj).trans (congrArg (flipAt c.mem q) hq.symm)
      rw [hdata, flipAt_self]
      exact iff_of_true rfl hshare
    · rename_i hshare
      exact iff_of_false (byte_not_ne _ ·.symm) hshare
  · rw [applyRecvs_of_echo (copies_echo hecho hv) (.inr hw), flipAt_self]

/-- A copy that is too long brings a byte that the kernel did not write. -/
theorem copy_le_of_returned (hr : bytesRead r ≤ maxRwCount)
    (hi : i < intCount (msgIovlen c.mem c.a2)) :
    memcpyLen (iovLen c.mem (msgIov c.mem c.a2) i) ≤ share (msgSegLens c) (bytesRead r) i := by
  have hmax : maxRwCount < 2 ^ 31 := by decide
  by_contra hlong
  have hpart : share (msgSegLens c) (bytesRead r) i < msgSegLens c i := by
    have hfull : msgSegLens c i < 2 ^ 31 →
      memcpyLen (iovLen c.mem (msgIov c.mem c.a2) i) = msgSegLens c i := memcpyLen_of_lt
    rw [share] at hlong ⊢
    omega
  obtain ⟨v, q, hq, hflip, hwritten⟩ := segment_of_returned hall hmsg hi hpart
  have hw : (msgSegRecv c v i c.mem).Writes q := by
    have hlt := (iovLen c.mem (msgIov c.mem c.a2) i).isLt
    have hoff := toNat_add_sub (msgSegObj c i).ptr (Nat.lt_trans hpart hlt)
    show (q - (msgSegObj c i).ptr).toNat < memcpyLen (iovLen c.mem (msgIov c.mem c.a2) i)
    rw [hq, hoff]
    exact Nat.lt_of_not_le hlong
  refine Nat.lt_irrefl _ (hflip.mp (hwritten ⟨_, ?_, hw⟩))
  exact List.mem_append_left _
    (List.mem_append_right _ (List.mem_map_of_mem (List.mem_range.mpr hi)))

end Returned

/-- A message that returns whole has exact lengths. -/
theorem exact_of_returned {h : MsgHead} (hmsg : MsgApart c) (hvalid : h.Valid r)
    (hall : ∀ u o v, o.toMsgHead = h → Received c u o r v →
      MsgReturned c o r (memAfter c .recvmsg v)) : MsgExact c h r := by
  obtain ⟨hname, hcontrol⟩ := head_of_returned hall
  have hle := fun i hi => copy_le_of_returned hall hmsg (i := i) hvalid.payload hi
  refine ⟨hname, hcontrol, fun i hi => ?_⟩
  by_contra hne
  -- a copy that is too short leaves one out
  have hshort := Nat.lt_of_le_of_ne (hle i hi) hne
  have hpart := Nat.lt_of_lt_of_le hshort (share_le _ _ _)
  have hlt := Nat.lt_trans hpart (iovLen c.mem (msgIov c.mem c.a2) i).isLt
  obtain ⟨v, q, hq, hflip, -⟩ := segment_of_returned hall hmsg hi hpart
  have hhas : (msgSegObj c i).Has q := by
    rw [hq]
    exact Obj.has_add hpart (iovLen c.mem (msgIov c.mem c.a2) i).isLt.le
  have hkeep : applyRecvs v (msgCopies c v) c.mem q = c.mem q := by
    refine applyRecvs_of_not_writes (fun s hs hw => ?_) v c.mem
    rcases List.mem_append.mp hs with hs | hs
    · rcases List.mem_append.mp hs with hs | hs
      · refine (name_within ?_ s hs).not_writes (hmsg.name_seg i hi) hhas hw
        rw [msgNamelen, toNat_zeroExtend, ← hname]
        exact hvalid.namelen
      · obtain ⟨k, hk, rfl⟩ := List.mem_map.mp hs
        have hkn := List.mem_range.mp hk
        by_cases hki : k = i
        · subst hki
          have hcopy : (q - (msgSegObj c k).ptr).toNat <
            memcpyLen (iovLen c.mem (msgIov c.mem c.a2) k) := hw
          rw [hq, toNat_add_sub _ hlt] at hcopy
          omega
        · exact (seg_within v (hle k hkn)).not_writes (hmsg.segs k hkn i hi hki) hhas hw
    · refine (control_within ?_ s hs).not_writes (hmsg.control_seg i hi) hhas hw
      rw [msgControllen, ← hcontrol]
      exact hvalid.controllen
  exact byte_not_ne _ (hkeep.symm.trans (hflip.mpr hshort)).symm

/-! ## What `recvmsg` returns -/

/-- **What `recvmsg` returns.** For a message of any sizes whose parts do not overlap, every
result of the kernel, and every slot: the caller finds the kernel's lengths and flags and
all that the kernel put into the message, exactly when the kernel's lengths are the ones
that were sent and each copy is as long as its segment's share of the payload. -/
theorem recvmsg_returns_iff (c : Ctx) (h : MsgHead) (r : Word) (hmsg : MsgApart c)
    (hvalid : h.Valid r) :
    (∀ u o v, o.toMsgHead = h → Received c u o r v → MsgReturned c o r (memAfter c .recvmsg v)) ↔
      MsgExact c h r := by
  refine ⟨exact_of_returned hmsg hvalid, ?_⟩
  rintro hexact u o v rfl hv
  exact returned_of_exact hexact hvalid hv hmsg

/-- `recvmsg` with 16 bytes for the name at 12288, and a segment of one byte at 16384. -/
def namedMsg : Ctx :=
  Ctx.plain 0 4096 0 0 0 0 fun p =>
    if p = 4097 then 48 else if p = 4104 then 16 else if p = 4113 then 32 else
    if p = 4120 then 1 else if p = 8193 then 64 else if p = 8200 then 1 else 0

theorem msgApart_namedMsg : MsgApart namedMsg := by
  have hone : ∀ i < intCount (msgIovlen namedMsg.mem namedMsg.a2), i = 0 := by
    have hcount : intCount (msgIovlen namedMsg.mem namedMsg.a2) = 1 := by decide
    omega
  have hseg : OutsideMsg namedMsg (msgSegObj namedMsg 0) ∧
      (msgNameObj namedMsg).Apart (msgSegObj namedMsg 0) ∧
      (msgControlObj namedMsg).Apart (msgSegObj namedMsg 0) := by
    refine ⟨⟨Obj.Apart.symm ?_, Obj.Apart.symm ?_⟩, ?_, ?_⟩
    all_goals exact Obj.apart_of_le (by decide) (by decide)
  refine ⟨⟨Obj.Apart.symm ?_, Obj.Apart.symm ?_⟩, ⟨?_, ?_⟩, fun i hi => ?_, Obj.Apart.symm ?_,
    fun i hi => ?_, fun i hi => ?_, fun i hi j hj hij => ?_⟩
  · exact Obj.apart_of_le (by decide) (by decide)
  · exact Obj.apart_of_le (by decide) (by decide)
  · exact Obj.apart_of_le (by decide) (by decide)
  · exact Obj.apart_of_le (by decide) (by decide)
  · exact hone i hi ▸ hseg.1
  · exact Obj.apart_of_le (by decide) (by decide)
  · exact hone i hi ▸ hseg.2.1
  · exact hone i hi ▸ hseg.2.2
  · exact absurd ((hone i hi).trans (hone j hj).symm) hij

/-- A datagram of one byte, with the name of a sender that fills the buffer. -/
theorem recvmsg_returns_named : MsgExact namedMsg ⟨16, 0, 0⟩ 1 ∧
    ∀ u o v, o.toMsgHead = ⟨16, 0, 0⟩ → Received namedMsg u o 1 v →
      MsgReturned namedMsg o 1 (memAfter namedMsg .recvmsg v) := by
  have hvalid : MsgHead.Valid ⟨16, 0, 0⟩ 1 := ⟨by decide, by decide, by decide⟩
  have hexact : MsgExact namedMsg ⟨16, 0, 0⟩ 1 := ⟨by decide, by decide, by decide⟩
  exact ⟨hexact, (recvmsg_returns_iff namedMsg ⟨16, 0, 0⟩ 1 msgApart_namedMsg hvalid).mpr hexact⟩

/-- A stream socket, whose kernel stores the length 0: the caller's `msg_namelen` is still
16. -/
theorem recvmsg_keeps_namelen : ¬ ∀ u o v, o.toMsgHead = ⟨0, 0, 0⟩ → Received namedMsg u o 1 v →
    MsgReturned namedMsg o 1 (memAfter namedMsg .recvmsg v) :=
  fun h => absurd (head_of_returned h).1 (by decide)

end Porpoise.Shim
