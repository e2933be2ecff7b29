import Porpoise.Shim.OneCall
import Porpoise.Shim.Present

/-!
# What `sendmsg` copies

`sendmsg` rebuilds the caller's message from a `msghdr` in `arg2` and a block for
each part. Every `malloc_user` of it may enter `__syscall_wrap` again while the
message is half built, and other threads make calls.

* `deepView`: a message with all it points to, as the kernel reads it.
* `message_depth`: the message in the slot and its blocks is the caller's.
* `sendmsg_copied`: it still is when the host reads it.
-/

namespace Porpoise.Shim

open Porpoise.Lib
open Porpoise.Slots (Frame Owned maxNoOfThreads)

variable {c : Ctx} {K : Kernel} {u v : UMem} {i : Nat}

/-! ## Messages in depth -/

/-- A message at `p` with the bytes of its `n` segments. -/
def deepView (mem : Word → Bytes) (p : Word) (n : Nat) : MsgView :=
  { msgView mem true p with segs := (List.range n).map (segView mem true (load64 (mem p) 16)) }

/-- The caller's message. The name and the control data are left out when their
length is 0. -/
def callerMsg (c : Ctx) : MsgView where
  nameNull := load32 (c.mem.at c.a2) 8 == 0
  namelen := load32 (c.mem.at c.a2) 8
  name := take (load32 (c.mem.at c.a2) 8).toNat (c.mem.at (msgName c.mem c.a2))
  iovlen := (load32 (c.mem.at c.a2) 24).setWidth 64
  segs := (List.range (intCount (msgIovlen c.mem c.a2))).map fun i =>
    { segView c.mem.at true (msgIov c.mem c.a2) i with null := false }
  controlNull := load32 (c.mem.at c.a2) 40 == 0
  controllen := (load32 (c.mem.at c.a2) 40).setWidth 64
  control := take (load32 (c.mem.at c.a2) 40).toNat (c.mem.at (msgControl c.mem c.a2))
  flags := load32 (c.mem.at c.a2) 48

/-- The kernel's `sendmsg` gets the caller's descriptor and flags, and a message that
is the caller's in depth. -/
structure MsgCopied (c : Ctx) (K : Kernel) (v : UMem) : Prop where
  request : ocallRequests c K v = [⟨.syscall .sendmsg,
    [.scalar ((c.a1.setWidth 32).setWidth 64),
     .msg (msgView (fun p => v (c.region p)) true (c.addr .arg2)),
     .scalar ((c.a3.setWidth 32).setWidth 64)]⟩]
  depth : deepView (fun p => v (c.region p)) (c.addr .arg2) (intCount (msgIovlen c.mem c.a2)) =
    callerMsg c

/-- The lengths of the parts are those that an `int` carries. -/
structure MsgLens (c : Ctx) : Prop where
  name : (msgNamelen c.mem c.a2).toNat < 2 ^ 31
  segs : ∀ i < intCount (msgIovlen c.mem c.a2),
    (iovLen c.mem (msgIov c.mem c.a2) i).toNat < 2 ^ 31
  control : (msgControllen c.mem c.a2).toNat < 2 ^ 31

/-! ## The message in the slot -/

theorem msgNamelen_eq_zero : msgNamelen c.mem c.a2 = 0 ↔ load32 (c.mem.at c.a2) 8 = 0 := by
  rw [← BitVec.toNat_inj, ← BitVec.toNat_inj, msgNamelen, toNat_zeroExtend]
  rfl

theorem msgControllen_eq_zero : msgControllen c.mem c.a2 = 0 ↔ load32 (c.mem.at c.a2) 40 = 0 := by
  rw [← BitVec.toNat_inj, ← BitVec.toNat_inj, msgControllen, toNat_zeroExtend]
  rfl

theorem msgIovBlocks_le_mallocs (c : Ctx) : msgIovBlocks c ≤ mallocs c .sendmsg :=
  Nat.le_add_right _ _

theorem mallocs_sendmsg_le (c : Ctx) : mallocs c .sendmsg ≤ 2 ^ 32 := by
  have hlt := msgIovBlocks_lt c
  show msgIovBlocks c + (if _ then 0 else 1) ≤ 2 ^ 32
  split <;> omega

theorem segView_congr {mem mem' : Word → Bytes} {data : Bool} {p : Word} (h : mem p = mem' p)
    (hbase : mem (load64 (mem' p) (16 * i)) = mem' (load64 (mem' p) (16 * i))) :
    segView mem data p i = segView mem' data p i := by
  simp only [segView, h, hbase]

section Filled

variable (hbufs : ∀ b, v (.buf b) = sent c .sendmsg u (.buf b))
  (hblocks : ∀ j < mallocs c .sendmsg,
    v (.heap (c.alloc j)) = sent c .sendmsg u (.heap (c.alloc j)))

include hbufs in
/-- The request of a slot that the case has filled. -/
theorem ocallRequests_sendmsg : ocallRequests c K v = [⟨.syscall .sendmsg,
    [.scalar ((c.a1.setWidth 32).setWidth 64),
     .msg (msgView (fun p => v (c.region p)) true (c.addr .arg2)),
     .scalar ((c.a3.setWidth 32).setWidth 64)]⟩] := by
  have hnr : hostSysno v = some .sendmsg :=
    hostSysno_of_sendNr ((hbufs .arg0).trans (applyAll_of_ne (dst_ne_arg0 c .sendmsg) _))
  have hfirst : load32 (v (.buf .arg1)) 0 = c.a1.setWidth 32 := by
    rw [hbufs]
    show load32 (applyAll (msgSends c true) _ _) 0 = _
    rw [msg_first, load32_overlay_zero (by decide), load32_le64]
  have hlast : load32 (v (.buf .arg3)) 0 = c.a3.setWidth 32 := by
    rw [hbufs]
    exact msg_last c true _
  have hcase : unwrapCase .sendmsg =
      [⟨.syscall .sendmsg, [.long .arg1, .ptr .arg2, .long .arg3]⟩] := rfl
  rw [ocallRequests, ocallCalls, hnr]
  simp only [hcase, List.map_cons, List.map_nil, HostCall.request, kernelView, params, sysParams,
    List.zipWith, argView, Operand.eval, kargs_mem, Ctx.addr_ne_zero, if_false,
    BitVec.ofNat_eq_ofNat, setWidth_load64, hfirst, hlast]

include hblocks

theorem filled_name : take (load32 (c.mem.at c.a2) 8).toNat (v (.heap (msgNamePtr c))) =
    take (load32 (c.mem.at c.a2) 8).toNat (c.mem.at (msgName c.mem c.a2)) := by
  by_cases hlen : msgNamelen c.mem c.a2 = 0
  · rw [msgNamelen_eq_zero.mp hlen]
    rfl
  · have hle := msgNameBlocks_le_iov c
    have hle' := msgIovBlocks_le_mallocs c
    have hone := msgNameBlocks_eq hlen
    have hsent := take_msg_name (c := c) ((sendNr .sendmsg).apply u)
    rw [msgNamePtr, if_neg hlen] at hsent ⊢
    rw [hblocks 0 (by omega)]
    exact hsent

theorem filled_control : take (load32 (c.mem.at c.a2) 40).toNat (v (.heap (msgControlPtr c))) =
    take (load32 (c.mem.at c.a2) 40).toNat (c.mem.at (msgControl c.mem c.a2)) := by
  by_cases hlen : msgControllen c.mem c.a2 = 0
  · rw [msgControllen_eq_zero.mp hlen]
    rfl
  · have hall : mallocs c .sendmsg = msgIovBlocks c + 1 := by rw [mallocs, if_neg hlen]
    have hsent := take_msg_control (c := c) ((sendNr .sendmsg).apply u)
    rw [msgControlPtr, if_neg hlen] at hsent ⊢
    rw [hblocks _ (by omega)]
    exact hsent

/-- A segment in its block. -/
theorem filled_seg (hlens : MsgLens c) (halloc : ∀ k < mallocs c .sendmsg, c.alloc k ≠ 0)
    (hi : i < intCount (msgIovlen c.mem c.a2)) :
    segView (fun p => v (c.region p)) true (msgIovPtr c) i =
      { segView c.mem.at true (msgIov c.mem c.a2) i with null := false } := by
  have hlen := msgIovlen_ne_zero hi
  have hall := msgIovBlocks_eq hlen
  have hle := msgIovBlocks_le_mallocs c
  have hptr : msgIovPtr c = c.alloc (msgNameBlocks c) := if_neg hlen
  have hne := halloc (msgNameBlocks c + 1 + i) (by omega)
  have hcopy := memcpyLen_of_lt (hlens.segs i hi)
  have hview := msg_segView true hi ((sendNr .sendmsg).apply u)
  obtain ⟨hbase, -⟩ := msg_entry true hi ((sendNr .sendmsg).apply u)
  rw [beq_eq_false_iff_ne.mpr hne, if_pos rfl, take_overlay hcopy.ge] at hview
  refine (segView_congr ?_ ?_).trans hview
  · rw [region_msgIovPtr, hptr]
    exact hblocks _ (by omega)
  · rw [region_msgIovPtr, hbase, c.region_alloc]
    exact hblocks _ (by omega)

include hbufs in
/-- **The message in the slot** is the caller's, block by block. -/
theorem message_depth (hlens : MsgLens c) (halloc : ∀ k < mallocs c .sendmsg, c.alloc k ≠ 0) :
    deepView (fun p => v (c.region p)) (c.addr .arg2) (intCount (msgIovlen c.mem c.a2)) =
      callerMsg c := by
  have hheader : v (.buf .arg2) = msgHeader c ((sendNr .sendmsg).apply u (.buf .arg2)) :=
    (hbufs .arg2).trans (msg_header c true _)
  have hsegs : (List.range (intCount (msgIovlen c.mem c.a2))).map
      (segView (fun p => v (c.region p)) true (msgIovPtr c)) = (callerMsg c).segs :=
    List.map_congr_left fun i hi =>
      filled_seg hblocks hlens halloc (List.mem_range.mp hi)
  have hname : (msgNamePtr c == 0) = (load32 (c.mem.at c.a2) 8 == 0) := by
    rw [Bool.eq_iff_iff, beq_iff_eq, beq_iff_eq, ← msgNamelen_eq_zero, msgNamePtr]
    split
    · simp [*]
    · rename_i hlen
      have hle := msgNameBlocks_le_iov c
      have hle' := msgIovBlocks_le_mallocs c
      have hone := msgNameBlocks_eq hlen
      exact iff_of_false (halloc 0 (by omega)) hlen
  have hcontrol : (msgControlPtr c == 0) = (load32 (c.mem.at c.a2) 40 == 0) := by
    rw [Bool.eq_iff_iff, beq_iff_eq, beq_iff_eq, ← msgControllen_eq_zero, msgControlPtr]
    split
    · simp [*]
    · rename_i hlen
      have hall : mallocs c .sendmsg = msgIovBlocks c + 1 := by rw [mallocs, if_neg hlen]
      exact iff_of_false (halloc _ (by omega)) hlen
  simp only [deepView, msgView, Ctx.region_addr, hheader, msgHeader_name, msgHeader_control,
    msgHeader_iov, load32_msgHeader_namelen, load64_msgHeader_iovlen, load64_msgHeader_controllen,
    load32_msgHeader_flags, region_msgNamePtr, region_msgControlPtr, toNat_zeroExtend, if_true,
    filled_name hblocks, filled_control hblocks, hsegs, hname, hcontrol]
  rfl

end Filled

/-- **What `sendmsg` copies.** For every message with parts of lengths that an `int`
carries, every run that leads to the call, and every steps of other threads and of
nested calls while the message is built: the message that the kernel reads is the
caller's in depth, and the caller's memory does not change. -/
theorem sendmsg_copied {Tid : Type*} [DecidableEq Tid] {as : List (MemAct Tid)}
    {m m' : MemState Tid} {t : Tid} {slot : Nat} (K : Kernel)
    (hrun : (memSys Tid).Run TSys.Any as m) (hslot : slot < maxNoOfThreads)
    (hbuild : Building c t ⟨.sendmsg, slot⟩ m (sendNr .sendmsg :: wrapSends c .sendmsg)
      (mallocs c .sendmsg) m')
    (hlens : MsgLens c) (halloc : ∀ k < mallocs c .sendmsg, c.alloc k ≠ 0) :
    MsgCopied c K (m'.view slot) ∧ ∀ v, memAfter c .sendmsg v = c.mem := by
  obtain ⟨u, -, hbufs, hheap⟩ :=
    hbuild.memory hslot (owned_of_run hslot hrun) (mallocs_sendmsg_le c)
  have hv : ∀ b, m'.view slot (.buf b) = sent c .sendmsg u (.buf b) := hbufs
  have hblocks : ∀ j < mallocs c .sendmsg,
      m'.view slot (.heap (c.alloc j)) = sent c .sendmsg u (.heap (c.alloc j)) := hheap
  refine ⟨?_, fun _ => rfl⟩
  exact { request := ocallRequests_sendmsg hv, depth := message_depth hv hblocks hlens halloc }

/-- `sendmsg` of one segment at 12288. The byte at `p` of its length, which is at 8200,
is one. -/
def oneSegMsg (p : Word) : Ctx :=
  Ctx.plain 3 4096 0 0 0 0 fun q =>
    if q = 4113 then 32 else if q = 8193 then 48 else if q = 4120 ∨ q = p then 1 else 0

theorem msgLens_oneSegMsg : MsgLens (oneSegMsg 8200) where
  name := by decide
  segs := by decide
  control := by decide

/-- A segment of one byte, with a nested call for the first block. -/
theorem sendmsg_copied_one :
    ∃ m', Building (oneSegMsg 8200) 0 ⟨.sendmsg, 0⟩ (inCall .sendmsg)
        (sendNr .sendmsg :: wrapSends (oneSegMsg 8200) .sendmsg) 2 m' ∧
      MsgCopied (oneSegMsg 8200) linux (m'.view 0) := by
  obtain ⟨ss, hsplit⟩ : ∃ ss, ss = wrapSends (oneSegMsg 8200) .sendmsg := ⟨_, rfl⟩
  have hblocks : ∀ s ∈ ss, s.InBlocks (oneSegMsg 8200) 2 := by
    rw [hsplit]
    exact sends_inBlocks (by decide) (by decide) _
  have hnr : ∀ s ∈ [sendNr .sendmsg], s.InBlocks (oneSegMsg 8200) 0 := by
    intro s hs
    rw [List.mem_singleton.mp hs]
    exact inBlocks_of_buf (b := .arg0) rfl
  obtain ⟨m', hbuild⟩ := exists_building (n := .sendmsg) (k := 1) rfl hnr hblocks
  rw [hsplit] at hbuild
  exact ⟨m', hbuild, (sendmsg_copied linux (run_inCall .sendmsg) (by decide) hbuild
    msgLens_oneSegMsg (by decide)).1⟩

/-- What the kernel reads of a segment has to be the caller's bytes. -/
theorem MsgCopied.seg_data (h : MsgCopied c K (sent c .sendmsg u))
    (hi : i < intCount (msgIovlen c.mem c.a2)) :
    take (iovLen c.mem (msgIov c.mem c.a2) i).toNat
        (overlay 0 (memcpyLen (iovLen c.mem (msgIov c.mem c.a2) i))
          (c.mem.at (iovBase c.mem (msgIov c.mem c.a2) i))
          ((sendNr .sendmsg).apply u (.heap (c.alloc (msgNameBlocks c + 1 + i))))) =
      take (iovLen c.mem (msgIov c.mem c.a2) i).toNat
        (c.mem.at (iovBase c.mem (msgIov c.mem c.a2) i)) := by
  have hptr : load64 (sent c .sendmsg u (.buf .arg2)) 16 = msgIovPtr c := by
    show load64 (applyAll (msgSends c true) _ (.buf .arg2)) 16 = _
    rw [msg_header, msgHeader_iov]
  have hview := msg_segView true hi ((sendNr .sendmsg).apply u)
  have hsegs := congrArg MsgView.segs h.depth
  simp only [deepView, callerMsg, Ctx.region_addr, hptr] at hsegs
  have hseg := List.map_inj_left.mp hsegs i (List.mem_range.mpr hi)
  exact congrArg SegView.data (hview.symm.trans hseg)

/-- Of a segment of `2 ^ 32` bytes nothing is copied: the kernel sends what the block
held before. -/
theorem sendmsg_long_segment : ¬ MsgCopied (oneSegMsg 8204) linux
    (sent (oneSegMsg 8204) .sendmsg fun _ _ => 1) := by
  intro h
  have hdata := h.seg_data (i := 0) (by decide)
  have hcopy : memcpyLen (iovLen (oneSegMsg 8204).mem
      (msgIov (oneSegMsg 8204).mem (oneSegMsg 8204).a2) 0) = 0 := by decide
  have hpos : 0 < (iovLen (oneSegMsg 8204).mem
      (msgIov (oneSegMsg 8204).mem (oneSegMsg 8204).a2) 0).toNat := by decide
  -- the first byte of the segment
  have hbyte := take_eq_iff.mp hdata 0 hpos
  rw [hcopy] at hbyte
  revert hbyte
  decide

end Porpoise.Shim
