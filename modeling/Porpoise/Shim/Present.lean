import Porpoise.Shim.Confine
import Porpoise.Shim.Gather
import Porpoise.Shim.Nested

/-!
# What `readv` presents to the kernel

While `readv` fills its array in `arg2`, each `malloc_user` of its loop may enter
`__syscall_wrap` again, and other threads make calls.

* `ocallRequests_readv`: the request that the host makes of the slot.
* `readv_kernel_entry`: every entry of the array as the kernel reads it.
* `readv_presented`: the entries have the caller's lengths and buffers of their
  own, outside the array.
-/

namespace Porpoise.Shim

open Porpoise.Lib
open Porpoise.Slots (Frame Owned maxNoOfThreads)

variable {c : Ctx} {K : Kernel} {u v : UMem} {i j : Nat}

/-! ## Objects that do not overlap -/

/-- The objects have no byte in common. -/
def Obj.Apart (o o' : Obj) : Prop := ∀ p, ¬ (o.Has p ∧ o'.Has p)

theorem Obj.Apart.symm {o o' : Obj} (h : o.Apart o') : o'.Apart o := fun p hp => h p hp.symm

/-- A part of an object. -/
theorem Obj.Apart.mono {o o' : Obj} {m n : Nat} (h : o.Apart o') (hm : m ≤ o.size)
    (hn : n ≤ o'.size) : (Obj.mk o.ptr m).Apart ⟨o'.ptr, n⟩ :=
  fun p hp => h p ⟨Nat.lt_of_lt_of_le hp.1 hm, Nat.lt_of_lt_of_le hp.2 hn⟩

theorem Obj.apart_of_le {p q : Word} {m n : Nat} (h : p.toNat + m ≤ q.toNat)
    (hn : q.toNat + n ≤ 2 ^ 64) : (Obj.mk p m).Apart ⟨q, n⟩ := by
  rintro x ⟨hp, hq⟩
  have hx := x.isLt
  simp only [Obj.Has, BitVec.toNat_sub] at hp hq
  omega

theorem Obj.has_add {x : Obj} (hj : j < x.size) (hsize : x.size ≤ 2 ^ 64) :
    x.Has (x.ptr + BitVec.ofNat 64 j) := by
  rw [Obj.Has, toNat_add_sub _ (by omega)]
  exact hj

/-- The copy stays in the object. -/
def Recv.Within (q : Recv) (x : Obj) : Prop := ∀ p, q.Writes p → x.Has p

theorem within_of_le {q : Recv} {x : Obj} (hdst : q.dst = x.ptr) (hsize : q.size ≤ x.size) :
    q.Within x := by
  intro p hp
  rw [Recv.Writes, hdst] at hp
  exact Nat.lt_of_lt_of_le hp hsize

theorem Recv.Within.not_writes {q : Recv} {x y : Obj} {p : Word} (hq : q.Within x)
    (hapart : x.Apart y) (hp : y.Has p) : ¬ q.Writes p := fun hw => hapart p ⟨hq p hw, hp⟩

/-- It leaves alone what the object is apart from. -/
theorem Recv.Within.agreeOn {q : Recv} {x y : Obj} {m m' : Mem} (hq : q.Within x)
    (hapart : x.Apart y) (hsize : y.size ≤ 2 ^ 64) (hm : AgreeOn m m' y.ptr y.size) :
    AgreeOn (q.apply v m) m' y.ptr y.size := fun j hj =>
  (recv_apply_of_not_writes (hq.not_writes hapart (Obj.has_add hj hsize)) v m).trans (hm j hj)

/-- A buffer of the slot. -/
def bufObj (c : Ctx) (b : Buf) : Obj := ⟨c.addr b, bufSize⟩

/-- What the enclave has for the `i`-th segment of `readv`: a buffer, or a block of
the size asked of `malloc_user`. -/
def readvObj (c : Ctx) (i : Nat) : Obj :=
  if i < 5 then bufObj c (segBuf i) else ⟨c.alloc (i - 5), (readvLen c i).toNat⟩

/-- The host allocated each buffer with `BUF_SIZE` bytes, and the blocks that
`malloc_user` returns are outside all memory in use. -/
structure ReadvLayout (c : Ctx) : Prop where
  bufs : ∀ b b', b ≠ b' → (bufObj c b).Apart (bufObj c b')
  fresh : ∀ i, 5 ≤ i → i < intCount c.a3 → ∀ b, (readvObj c i).Apart (bufObj c b)
  blocks : ∀ i j, 5 ≤ i → i < j → j < intCount c.a3 → (readvObj c i).Apart (readvObj c j)

theorem readvObj_ptr (c : Ctx) (i : Nat) : (readvObj c i).ptr = segPtr c i := by
  rw [readvObj, segPtr]
  split <;> rfl

/-- What is there for two segments is apart. -/
theorem ReadvLayout.apart_of_lt (h : ReadvLayout c) (hij : i < j) (hj : j < intCount c.a3) :
    (readvObj c i).Apart (readvObj c j) := by
  by_cases hi5 : i < 5
  · by_cases hj5 : j < 5
    · rw [readvObj, readvObj, if_pos hi5, if_pos hj5]
      refine h.bufs _ _ fun heq => ?_
      have hsame := segBuf_inj hi5 hj5 heq
      omega
    · rw [readvObj, if_pos hi5]
      exact (h.fresh j (by omega) hj _).symm
  · exact h.blocks i j (by omega) hij hj

theorem ReadvLayout.apart (h : ReadvLayout c) (hi : i < intCount c.a3) (hj : j < intCount c.a3)
    (hij : i ≠ j) : (readvObj c i).Apart (readvObj c j) := by
  rcases Nat.lt_or_gt_of_ne hij with hlt | hgt
  · exact h.apart_of_lt hlt hj
  · exact (h.apart_of_lt hgt hi).symm

theorem ReadvLayout.apart_array (h : ReadvLayout c) (hi : i < intCount c.a3) :
    (readvObj c i).Apart (bufObj c .arg2) := by
  by_cases hi5 : i < 5
  · rw [readvObj, if_pos hi5]
    exact h.bufs _ _ (segBuf_ne_arg2 i)
  · exact h.fresh i (by omega) hi _

/-! ## What the kernel reads -/

/-- The entry at `i` of the array in `arg2`, as a buffer. -/
def kernelSeg (v : UMem) (i : Nat) : Obj :=
  ⟨load64 (v (.buf .arg2)) (16 * i), (load64 (v (.buf .arg2)) (16 * i + 8)).toNat⟩

/-- The kernel's `readv` gets `iovcnt` entries. Each has the caller's length and a
buffer with room for it; the buffers are apart from each other and from the
array. -/
structure Presented (c : Ctx) (K : Kernel) (v : UMem) : Prop where
  request : ocallRequests c K v = [vectorRequest c .readv ((List.range (intCount c.a3)).map
    (segView (fun p => v (c.region p)) false (c.addr .arg2)))]
  length : ∀ i < intCount c.a3, (kernelSeg v i).size = (iovLen c.mem c.a2 i).toNat
  room : ∀ i < intCount c.a3, (kernelSeg v i).ptr = (readvObj c i).ptr ∧
    (kernelSeg v i).size ≤ (readvObj c i).size
  apart : ∀ i < intCount c.a3, ∀ j < intCount c.a3, i ≠ j → (kernelSeg v i).Apart (kernelSeg v j)
  outside : ∀ i < intCount c.a3, (kernelSeg v i).Apart ⟨c.addr .arg2, 16 * intCount c.a3⟩

/-- A length that an `int` carries is asked for as it is. -/
theorem readvLen_of_lt (h : (iovLen c.mem c.a2 i).toNat < 2 ^ 31) :
    readvLen c i = iovLen c.mem c.a2 i := by
  rw [readvLen]
  split
  · rfl
  · exact BitVec.eq_of_toNat_eq (memcpyLen_of_lt h)

/-- The request of a slot that the case has filled. -/
theorem ocallRequests_readv (hv : ∀ b, v (.buf b) = sent c .readv u (.buf b)) :
    ocallRequests c K v = [vectorRequest c .readv
      (segViews (fun p => v (c.region p)) false (c.addr .arg2) (intCount c.a3))] := by
  have hnr : hostSysno v = some .readv :=
    hostSysno_of_sendNr ((hv .arg0).trans (applyAll_of_ne (dst_ne_arg0 c .readv) _))
  have hfirst : load32 (v (.buf .arg1)) 0 = c.a1.setWidth 32 := by
    rw [hv]
    exact load32_between_first (readvSends_ne (by decide)) _
  have hlast : load32 (v (.buf .arg3)) 0 = c.a3.setWidth 32 := by
    rw [hv]
    exact load32_between_last _
  have hcase : unwrapCase .readv = [⟨.syscall .readv, [.long .arg1, .ptr .arg2, .long .arg3]⟩] :=
    rfl
  rw [ocallRequests, ocallCalls, hnr]
  simp only [hcase, List.map_cons, List.map_nil]
  rw [vector_request (.syscall .readv) false rfl, hfirst, hlast]
  rfl

/-- **An entry of `readv`** as the kernel reads it. -/
theorem readv_kernel_entry (hv : ∀ b, v (.buf b) = sent c .readv u (.buf b))
    (hi : i < intCount c.a3) : kernelSeg v i = ⟨segPtr c i, (readvLen c i).toNat⟩ := by
  have harray : v (.buf .arg2) = applyAll (readvSends c) ((sendNr .readv).apply u) (.buf .arg2) :=
    (hv .arg2).trans (applyAll_between (by decide) (by decide) _)
  obtain ⟨hbase, hlen⟩ := readv_entry hi ((sendNr .readv).apply u)
  rw [kernelSeg, harray, hbase, hlen]

/-- **What `readv` presents.** For every array of up to `UIO_MAXIOV` segments of up
to `BUF_SIZE` bytes, every run that leads to the call, and every steps of other
threads and of nested calls while it fills its slot: the kernel gets the caller's
lengths, with buffers that have room for them and do not overlap. -/
theorem readv_presented {Tid : Type*} [DecidableEq Tid] {as : List (MemAct Tid)}
    {m m' : MemState Tid} {t : Tid} {slot : Nat} (K : Kernel)
    (hrun : (memSys Tid).Run TSys.Any as m) (hslot : slot < maxNoOfThreads)
    (hbuild : Building c t ⟨.readv, slot⟩ m (sendNr .readv :: wrapSends c .readv)
      (mallocs c .readv) m')
    (hlayout : ReadvLayout c) (hcount : intCount c.a3 ≤ 1024)
    (hlen : ∀ i < intCount c.a3, (iovLen c.mem c.a2 i).toNat ≤ bufSize) :
    Presented c K (m'.view slot) := by
  have hblocks : mallocs c .readv ≤ 2 ^ 32 := by
    show intCount c.a3 - 5 ≤ 2 ^ 32
    omega
  obtain ⟨u, -, hbufs, -⟩ := hbuild.memory hslot (owned_of_run hslot hrun) hblocks
  have hv : ∀ b, m'.view slot (.buf b) = sent c .readv u (.buf b) := hbufs
  have hreadvLen : ∀ i < intCount c.a3, readvLen c i = iovLen c.mem c.a2 i := by
    intro i hi
    have hbuf : bufSize < 2 ^ 31 := by decide
    exact readvLen_of_lt (Nat.lt_of_le_of_lt (hlen i hi) hbuf)
  have hentry : ∀ i < intCount c.a3, kernelSeg (m'.view slot) i =
      ⟨(readvObj c i).ptr, (iovLen c.mem c.a2 i).toNat⟩ := by
    intro i hi
    rw [readv_kernel_entry hv hi, hreadvLen i hi, readvObj_ptr]
  have hroom : ∀ i < intCount c.a3, (iovLen c.mem c.a2 i).toNat ≤ (readvObj c i).size := by
    intro i hi
    rw [readvObj]
    split
    · exact hlen i hi
    · rw [hreadvLen i hi]
  have harray : 16 * intCount c.a3 ≤ bufSize := by
    have hbuf : bufSize = 81920 := by decide
    omega
  refine { request := ?_, length := ?_, room := ?_, apart := ?_, outside := ?_ }
  · rw [ocallRequests_readv hv, segViews, if_pos hcount]
  · intro i hi
    rw [hentry i hi]
  · intro i hi
    rw [hentry i hi]
    exact ⟨rfl, hroom i hi⟩
  · intro i hi j hj hij
    rw [hentry i hi, hentry j hj]
    exact (hlayout.apart hi hj hij).mono (hroom i hi) (hroom j hj)
  · intro i hi
    rw [hentry i hi]
    have hbuf : 16 * intCount c.a3 ≤ (bufObj c .arg2).size := harray
    exact (hlayout.apart_array hi).mono (hroom i hi) hbuf

/-! ## A call with a nested one -/

section Plain

variable {a1 a2 a3 a4 a5 a6 : Word} {mem : Mem}

theorem plain_addr (b : Buf) :
    ((Ctx.plain a1 a2 a3 a4 a5 a6 mem).addr b).toNat = 0x100000 * (b.index + 1) := by
  cases b <;> rfl

theorem Buf.index_lt (b : Buf) : b.index < 10 := by cases b <;> decide

theorem Buf.index_inj {b b' : Buf} (h : b.index = b'.index) : b = b' := by
  cases b <;> cases b' <;> first | rfl | exact absurd h (by decide)

theorem plain_bufs_apart_of_lt {b b' : Buf} (h : b.index < b'.index) :
    (bufObj (Ctx.plain a1 a2 a3 a4 a5 a6 mem) b).Apart
      (bufObj (Ctx.plain a1 a2 a3 a4 a5 a6 mem) b') := by
  have hlast := b'.index_lt
  have hsize : bufSize = 81920 := by decide
  refine Obj.apart_of_le ?_ ?_
  · rw [plain_addr, plain_addr, hsize]
    omega
  · rw [plain_addr, hsize]
    omega

theorem plain_bufs_apart {b b' : Buf} (h : b ≠ b') :
    (bufObj (Ctx.plain a1 a2 a3 a4 a5 a6 mem) b).Apart
      (bufObj (Ctx.plain a1 a2 a3 a4 a5 a6 mem) b') := by
  rcases Nat.lt_or_gt_of_ne fun heq => h (Buf.index_inj heq) with hlt | hgt
  · exact plain_bufs_apart_of_lt hlt
  · exact (plain_bufs_apart_of_lt hgt).symm

end Plain

theorem readvObj_sixSegs : readvObj sixSegs 5 = ⟨8, 1⟩ := by
  have hptr : sixSegs.alloc 0 = 8 := by decide
  have hlen : readvLen sixSegs 5 = 1 := by decide
  rw [readvObj, if_neg (by decide), hlen]
  exact congrArg (Obj.mk · 1) hptr

theorem readvLayout_sixSegs : ReadvLayout sixSegs where
  bufs _ _ := plain_bufs_apart
  fresh i h5 hi b := by
    have hcount : intCount sixSegs.a3 = 6 := by decide
    obtain rfl : i = 5 := by omega
    have hbuf : 0x100000 ≤ (sixSegs.addr b).toNat ∧ (sixSegs.addr b).toNat ≤ 0xa00000 := by
      cases b <;> decide
    have hsize : bufSize = 81920 := by decide
    rw [readvObj_sixSegs, bufObj]
    exact Obj.apart_of_le (show 8 + 1 ≤ _ by omega) (by omega)
  blocks i j h5 hij hj := by
    have hcount : intCount sixSegs.a3 = 6 := by decide
    omega

section Nested

variable {n : Sysno}

/-- The only thread has entered the call. -/
def inCall (n : Sysno) : MemState Nat :=
  ⟨(Slots.State.boot 0).enter 0 n, fun _ _ _ => 0, fun _ _ => 0⟩

theorem run_inCall (n : Sysno) : (memSys Nat).Run TSys.Any [.slot (.call 0 n)] (inCall n) := by
  have hboot : (memSys Nat).Run TSys.Any [] ⟨Slots.State.boot 0, fun _ _ _ => 0, fun _ _ => 0⟩ :=
    .nil ⟨0, rfl⟩
  exact hboot.snoc trivial rfl

/-- A `malloc_user` that asks for the program break, and a host that fills the slot of
this nested call with sevens. -/
theorem building_brk {ss : List Store} {k : Nat} {m : MemState Nat} (hn : Slots.usesHeap n = true)
    (h : Building c 0 ⟨n, 0⟩ (inCall n) ss k m) (hslots : m.slots = (inCall n).slots) :
    ∃ m', Building c 0 ⟨n, 0⟩ (inCall n) ss (k + 1) m' ∧ m'.slots.calls 0 = [⟨n, 0⟩] := by
  have hinner : ((inCall n).slots.enter 0 .brk).calls 0 ≠ [⟨n, 0⟩] :=
    fun heq => absurd (congrArg List.length heq) (Nat.succ_ne_self 1)
  have hmay : Slots.mayCall ((inCall n).slots.calls 0) .brk = true := by
    show (Slots.usesHeap n && true) = true
    rw [hn]
    rfl
  have hlive : (inCall n).slots.live 0 := ⟨Finset.mem_singleton_self 0, Finset.notMem_empty 0⟩
  have hcall : m.next (.slot (.call 0 .brk)) =
      some { m with slots := (inCall n).slots.enter 0 .brk } := by
    rw [MemState.next, hslots, Slots.State.next, if_pos ⟨hlive, hmay⟩]
    rfl
  have hbrk := h.other (.slot (.call 0 .brk)) trivial hcall
  have hwrite := hbrk.other (.write 0 (fun _ _ => 7) m.heap)
    ⟨fun _ => hinner, fun _ _ => rfl⟩ rfl
  have hret := hwrite.other (.slot (.ret 0)) (fun _ => hinner) rfl
  exact ⟨_, hret.malloc, rfl⟩

/-- A call that makes some writes, gets its blocks, the first with a nested call, and
makes the others. -/
theorem exists_building {ss ss' : List Store} {k : Nat} (hn : Slots.usesHeap n = true)
    (hbefore : ∀ s ∈ ss, s.InBlocks c 0) (hafter : ∀ s ∈ ss', s.InBlocks c (k + 1)) :
    ∃ m', Building c 0 ⟨n, 0⟩ (inCall n) (ss ++ ss') (k + 1) m' := by
  have henter : Building c 0 ⟨n, 0⟩ (inCall n) [] 0 (inCall n) := .enter rfl
  obtain ⟨m1, hfirst, hslots⟩ := henter.stores rfl hbefore
  obtain ⟨m2, hbrk, hcalls⟩ := building_brk hn hfirst hslots
  have hmallocs : Building c 0 ⟨n, 0⟩ (inCall n) ([] ++ ss) (k + 1) m2 := by
    clear hafter
    induction k with
    | zero => exact hbrk
    | succ k ih => exact ih.malloc
  obtain ⟨m', hbuild, -⟩ := hmallocs.stores hcalls hafter
  rw [List.nil_append] at hbuild
  exact ⟨m', hbuild⟩

end Nested

/-- The writes of `readv` go to the slot. -/
theorem readvSends_inBlocks {k : Nat} :
    ∀ s ∈ sendNr .readv :: wrapSends c .readv, s.InBlocks c k := by
  simp only [wrapSends, readvSends, readvFirst, readvRest, List.forall_mem_cons,
    List.forall_mem_append, List.forall_mem_flatMap, forall_mem_ite]
  simp [Store.InBlocks, sendNr]

/-- The `readv` of six segments, with a nested call for the block of the sixth. -/
theorem readv_presented_six :
    ∃ m', Building sixSegs 0 ⟨.readv, 0⟩ (inCall .readv)
        (sendNr .readv :: wrapSends sixSegs .readv) 1 m' ∧
      Presented sixSegs linux (m'.view 0) := by
  obtain ⟨ss, ss', hsplit⟩ : ∃ ss ss', sendNr .readv :: wrapSends sixSegs .readv = ss ++ ss' :=
    ⟨sendNr .readv :: sendInt .arg1 sixSegs.a1 :: (List.range 5).flatMap (readvFirst sixSegs),
      _, rfl⟩
  have hblocks : ∀ k, ∀ s ∈ ss ++ ss', s.InBlocks sixSegs k :=
    fun k => hsplit ▸ readvSends_inBlocks
  obtain ⟨m', hbuild⟩ := exists_building (n := .readv) (k := 0) rfl
    (fun s hs => hblocks 0 s (List.mem_append_left _ hs))
    (fun s hs => hblocks 1 s (List.mem_append_right _ hs))
  rw [← hsplit] at hbuild
  exact ⟨m', hbuild, readv_presented linux (run_inCall .readv) (by decide) hbuild
    readvLayout_sixSegs (by decide) (by decide)⟩

end Porpoise.Shim
