import Porpoise.Shim.Heed
import Porpoise.Shim.NullFlags
import Porpoise.Shim.Independence

/-!
# When the kernel heeds the caller's call

* `faithfulWhen`: the arguments for which the host's call is, to the kernel, the caller's.
* `heeds_scalars`, `heeds_objects`: the calls whose arguments are sent one by one.
* `heeds_optional`, `heeds_futex`, `heeds_ioctl`: those whose cases branch.
-/

namespace Porpoise.Shim

open Porpoise.Lib

variable {c : Ctx} {K : Kernel} {n : Sysno} {u : UMem} {b : Buf}

/-! ## One argument -/

theorem forall_cstr_iff {limit k : Nat} {v : Bytes} :
    (∀ u : UMem, cstr limit (overlay 0 k v (u (.buf b))) = cstr limit v) ↔ cstrLen limit v ≤ k := by
  constructor
  · intro h
    by_contra hlt
    -- a byte after the copy that is not the string's
    have hview := h fun _ _ => ~~~ v k
    have hlimit := cstrLen_le limit v
    have hne : ∀ j < k, v j ≠ 0 := fun j hj =>
      ne_zero_of_lt_cstrLen (by omega : k < cstrLen limit v) hj
    have hread : ∀ j < k, overlay 0 k v (fun _ => ~~~ v k) j ≠ 0 := by
      intro j hj
      have hcopy : overlay 0 k v (fun _ => ~~~ v k) j = v j := by
        simp [overlay, hj]
      rw [hcopy]
      exact hne j hj
    have hbyte : (cstr limit (overlay 0 k v fun _ => ~~~ v k))[k]? = (cstr limit v)[k]? :=
      congrArg (·[k]?) hview
    rw [getElem?_cstr (by omega) hread, getElem?_cstr (by omega) hne,
      overlay_of_not (by omega)] at hbyte
    exact byte_not_ne _ (Option.some.inj hbyte)
  · exact fun hle u => cstr_overlay hle _

theorem forall_take_iff {m k : Nat} {r : Region} {v : Bytes} :
    (∀ u : UMem, take m (overlay 0 k v (u r)) = take m v) ↔ m ≤ k := by
  simp only [take_overlay_eq_iff]
  constructor
  · intro h
    by_contra hlt
    exact byte_not_ne _ (h (fun _ _ => ~~~ v k) k le_rfl (by omega))
  · intro hle u j hk hm
    omega

/-- **A path** arrives when the copy covers what the kernel reads of it. -/
theorem forall_string_iff (limit k : Nat) (p : Word) (v : Bytes) :
    (∀ u : UMem, ArgView.string (cstr limit (overlay 0 k v (u (.buf b)))) =
        if p = 0#64 then ArgView.null else .string (cstr limit v)) ↔
      p ≠ 0#64 ∧ cstrLen limit v ≤ k := by
  by_cases hp : p = 0#64
  · simp [hp]
  · simp [hp, forall_cstr_iff]

/-- **Bytes** arrive when the copy covers them. -/
theorem forall_bytes_iff (m k : Nat) (p : Word) (v : Bytes) :
    (∀ u : UMem, ArgView.bytes (take m (overlay 0 k v (u (.buf b)))) =
        if p = 0#64 then ArgView.null else .bytes (take m v)) ↔
      p ≠ 0#64 ∧ m ≤ k := by
  by_cases hp : p = 0#64
  · simp [hp]
  · simp [hp, forall_take_iff]

/-! ## When the call is the caller's -/

/-- What the kernel reads of a path is sent. -/
def PathSent (c : Ctx) (K : Kernel) (p : Word) : Prop :=
  p ≠ 0 ∧ cstrLen K.pathMax (c.mem.at p) ≤ memcpyLen (pathLen c p)

/-- There is an object, unless it is empty. -/
def Given (p : Word) (n : Nat) : Prop := n = 0 ∨ p ≠ 0

/-- `n` bytes behind a pointer are sent by a copy of `len`. -/
def BytesSent (p len : Word) (n : Nat) : Prop := n = 0 ∨ p ≠ 0 ∧ n ≤ memcpyLen len

/-- Two pointers to an object are `NULL` alike, unless it is empty. -/
def SameNull (p q : Word) (n : Nat) : Prop := n = 0 ∨ (p = 0 ↔ q = 0)

/-- The pointers of a message are `NULL` where the caller's are, the padding of its
lengths is zero, and, when the kernel reads them, an `int` carries the lengths of
its segments. -/
structure MsgSent (c : Ctx) (data : Bool) : Prop where
  header : c.a2 ≠ 0
  name : data = true ∧ load32 (c.mem.at c.a2) 8 = 0 ∨
    (msgNamePtr c = 0 ↔ msgName c.mem c.a2 = 0)
  control : SameNull (msgControlPtr c) (msgControl c.mem c.a2) (load32 (c.mem.at c.a2) 40).toNat
  padding : load32 (c.mem.at c.a2) 28 = 0 ∧ load32 (c.mem.at c.a2) 44 = 0
  segs : ((msgIovlen c.mem c.a2).setWidth 32).toNat ≤ 1024 →
    ∀ i < intCount (msgIovlen c.mem c.a2),
      SameNull (c.alloc (msgNameBlocks c + 1 + i)) (iovBase c.mem (msgIov c.mem c.a2) i)
        (iovLen c.mem (msgIov c.mem c.a2) i).toNat ∧
      (data = true → (iovLen c.mem (msgIov c.mem c.a2) i).toNat ≤
        memcpyLen (iovLen c.mem (msgIov c.mem c.a2) i))

/-- The command of `fcntl`. -/
def fcntlCmd (c : Ctx) : BitVec 32 := c.a2.setWidth 32

/-- No pointer, and no integer that an `unsigned int` does not carry. -/
def fcntlWhen (c : Ctx) : Prop :=
  (FcntlPointer (fcntlCmd c) → c.a3 = 0) ∧ (FcntlInteger (fcntlCmd c) → c.a3.toNat < 2 ^ 32)

/-- When the kernel heeds of the host's call what it would heed of the caller's. -/
def faithfulWhen (c : Ctx) (K : Kernel) : Sysno → Prop
  | .open_ | .access | .chdir | .mkdir | .rmdir | .creat | .unlink | .chmod | .chown | .lchown
  | .chroot | .umount2 => PathSent c K c.a1
  | .fchownat | .unlinkat | .fchmodat | .faccessat => PathSent c K c.a2
  -- `mode` is the flags again
  | .openat =>
      PathSent c K c.a2 ∧ (willCreate (c.a3.setWidth 32) → c.a4.setWidth 12 = c.a3.setWidth 12)
  | .rename | .link | .symlink => PathSent c K c.a1 ∧ PathSent c K c.a2
  | .stat | .lstat | .statfs => PathSent c K c.a1 ∧ c.a2 ≠ 0
  | .readlink => PathSent c K c.a1 ∧ Given c.a2 (min c.a3.toNat 4096)
  | .newfstatat => PathSent c K c.a2 ∧ c.a3 ≠ 0
  | .readlinkat => PathSent c K c.a2 ∧ Given c.a3 (min c.a4.toNat 4096)
  | .read | .pread64 => Given c.a2 (rwBytes c.a3)
  | .getdents | .getdents64 => Given c.a2 (c.a3.setWidth 32).toNat
  | .fstat | .getrlimit | .getrusage | .fstatfs | .clock_getres => c.a2 ≠ 0
  | .getgroups => Given c.a2 (c.kernelArgs K .getgroups).groupsOut
  | .connect => Given c.a2 ((c.kernelArgs K .connect).sockaddrLen 2)
  | .bind => Given c.a2 ((c.kernelArgs K .bind).sockaddrLen 2)
  | .uname | .sysinfo | .times | .pipe | .pipe2 => c.a1 ≠ 0
  | .getcwd => Given c.a1 (min c.a2.toNat 4096)
  | .rt_sigpending => Given c.a1 ((c.kernelArgs K .rt_sigpending).sigpendingLen 1)
  | .rt_sigsuspend => Given c.a1 ((c.kernelArgs K .rt_sigsuspend).sigsetLen 1)
  | .getrandom => Given c.a1 c.a2.toNat
  | .gettimeofday => c.a1 ≠ 0 ∧ c.a2 ≠ 0
  | .getresuid | .getresgid => c.a1 ≠ 0 ∧ c.a2 ≠ 0 ∧ c.a3 ≠ 0
  | .rt_sigtimedwait => c.a4 = 8 → c.a1 ≠ 0 ∧ c.a2 ≠ 0 ∧ c.a3 ≠ 0
  | .accept | .accept4 => c.a2 ≠ 0 ∧ c.a3 ≠ 0
  | .getsockname => Given c.a2 ((c.kernelArgs K .getsockname).sockaddrRoom 2) ∧ c.a3 ≠ 0
  | .getpeername => Given c.a2 ((c.kernelArgs K .getpeername).sockaddrRoom 2) ∧ c.a3 ≠ 0
  | .rt_sigqueueinfo => c.a3 ≠ 0
  | .sched_getaffinity => Given c.a3 (min c.a2.toNat K.cpumask)
  | .socketpair => c.a4 ≠ 0
  | .setsockopt => Given c.a4 (intCount c.a5)
  | .getsockopt => Given c.a4 (load32 (c.mem.at c.a5) 0).toInt.toNat ∧ c.a5 ≠ 0
  | .write | .pwrite64 => BytesSent c.a2 c.a3 (rwBytes c.a3)
  | .poll => BytesSent c.a1 (8 * c.a2) (c.kernelArgs K .poll).pollLen
  -- the third argument is not passed
  | .lseek => c.indet.setWidth 32 = c.a3.setWidth 32
  | .fcntl => fcntlWhen c
  | .truncate =>
      (c.a1 ≠ 0 ∧ cstrLen K.pathMax (c.mem.at c.a1) ≤ 9) ∧ (c.a2.setWidth 32).setWidth 64 = c.a2
  | .ftruncate => (c.a2.setWidth 32).setWidth 64 = c.a2
  | .ioctl =>
      if K.ioctlInt c.a2 then c.a3 = c.addr .arg3
      else K.ioctlIn c.a2 = 0 ∧ K.ioctlOut c.a2 = 0 ∨ c.a3 ≠ 0 ∧ K.ioctlIn c.a2 ≤ 32
  | .setitimer => c.a2 ≠ 0
  | .setgroups => Given c.a2 (c.kernelArgs K .setgroups).groupsIn
  | .sigaltstack => c.a1 ≠ 0 ∧ c.a2 ≠ 0
  | .utime | .utimes => PathSent c K c.a1
  | .futimesat => PathSent c K c.a2
  | .utimensat => c.a2 ≠ 0 → PathSent c K c.a2
  | .mount =>
      PathSent c K c.a1 ∧ PathSent c K c.a2 ∧ PathSent c K c.a3 ∧ (c.a5 ≠ 0 → PathSent c K c.a5)
  -- the second word is no word, and the last value is the address of a buffer
  | .futex =>
      (c.outAddress c.a1 = 0 ↔ c.a1 = 0) ∧
      (takesTimeout (c.a2.setWidth 32) → c.a4 ≠ 0 → c.a4.sshiftRight 32 ≠ 0) ∧
      ¬ takesSecond (c.a2.setWidth 32) ∧
      (takesVal3 (c.a2.setWidth 32) → c.a6.setWidth 32 = (c.addr .arg8).setWidth 32)
  | .set_tid_address => c.a1 ≠ 0 → c.outAddress c.a1 ≠ 0
  | .epoll_pwait => Given c.a2 (c.kernelArgs K .epoll_pwait).epollLen ∧ c.a5 = 0
  | .readv =>
      0 < intCount c.a3 ∧ intCount c.a3 ≤ 1024 → c.a2 ≠ 0 ∧ ∀ i < intCount c.a3,
        readvLen c i = iovLen c.mem c.a2 i ∧
          SameNull (segPtr c i) (iovBase c.mem c.a2 i) (iovLen c.mem c.a2 i).toNat
  | .writev =>
      0 < intCount c.a3 ∧ intCount c.a3 ≤ 1024 → c.a2 ≠ 0 ∧ intCount c.a3 ≤ 5 ∧
        ∀ i < intCount c.a3,
          BytesSent (iovBase c.mem c.a2 i) (iovLen c.mem c.a2 i) (iovLen c.mem c.a2 i).toNat
  | .sendmsg => MsgSent c true
  | .recvmsg => MsgSent c false
  | .clone | .sync | .clock_gettime | .rt_sigaction | .select | .sendto | .recvfrom | .pselect6
  | .alarm | .rt_sigreturn => False
  | _ => True

/-- The host's calls, as the kernel heeds them, are the caller's own whatever the slot held. -/
def HeedsCaller (c : Ctx) (K : Kernel) (n : Sysno) : Prop :=
  ∀ u, (unwrapCase n).map (·.heeded c K (sent c n u)) = [c.heeded K n]

/-- An object that the kernel may leave alone. -/
theorem forall_looked_iff {q : Prop} [Decidable q] {f : UMem → ArgView} {v : ArgView} :
    (∀ u, (if q then [] else [f u]) = if q then [] else [v]) ↔ q ∨ ∀ u, f u = v := by
  by_cases hq : q <;> simp [hq]

/-- What is its low half is below `2 ^ 32`. -/
theorem low_eq_iff {w : Word} : (w.setWidth 32).setWidth 64 = w ↔ w.toNat < 2 ^ 32 := by
  rw [← BitVec.toNat_inj, BitVec.toNat_setWidth, BitVec.toNat_setWidth]
  have hlt := w.isLt
  omega

/-- An object that the kernel only writes. -/
theorem looked_output_iff {q : Prop} [Decidable q] {p : Word} :
    ((if q then [] else [ArgView.bytes []]) =
        if q then [] else [if p = 0#64 then ArgView.null else .bytes []]) ↔ q ∨ ¬ p = 0#64 := by
  by_cases hq : q <;> simp [hq]

/-- Whether an argument is an object. -/
def hasObject (n : Sysno) : Bool := (sysParams n).any fun
  | .obj _ _ => true
  | _ => false

theorem not_pointer_of_integer {cmd : BitVec 32} (h : FcntlInteger cmd) : ¬ FcntlPointer cmd := by
  simp only [FcntlInteger, List.mem_cons, List.not_mem_nil, or_false] at h
  rcases h with rfl | rfl | rfl | rfl | rfl | rfl | rfl | rfl | rfl | rfl | rfl
  all_goals simp [FcntlPointer, fcntlObj]

/-- The third argument of `fcntl` arrives as an `int`. -/
theorem fcntlUse_heed_iff {x x' : KArgs} {cmd : BitVec 32} {mirror mirror' : Word → Word}
    {w : Word} :
    (fcntlUse cmd).heed x mirror true ((w.setWidth 32).setWidth 64) =
        (fcntlUse cmd).heed x' mirror' false w ↔
      (FcntlPointer cmd → w = 0) ∧ (FcntlInteger cmd → w.toNat < 2 ^ 32) := by
  unfold fcntlUse
  by_cases hint : FcntlInteger cmd
  · simp only [hint, not_pointer_of_integer hint, if_true, Use.heed_long, List.cons.injEq,
      ArgView.scalar.injEq, and_true, low_eq_iff, true_imp_iff, false_imp_iff, true_and]
  by_cases hptr : FcntlPointer cmd
  · by_cases hw : w = 0
    · simp [hint, hptr, hw, Param.inout, Param.heed_obj_int, argView]
    · simp only [hint, hptr, hw, Param.inout, if_true, if_false, Use.heed_pointer,
        Param.heed_obj_int, Param.heed_obj, argView, List.cons.injEq, and_true]
      split <;> simp
  · simp [hint, hptr]

theorem heeds_fcntl : HeedsCaller c K .fcntl ↔ faithfulWhen c K .fcntl := by
  have hfd : ∀ u, load32 (sent c .fcntl u (.buf .arg1)) 0 = c.a1.setWidth 32 := by
    intro u
    simp [sent, wrapSends]
  have hcmd : ∀ u, load32 (sent c .fcntl u (.buf .arg2)) 0 = c.a2.setWidth 32 := by
    intro u
    simp [sent, wrapSends]
  have harg : ∀ u, load32 (sent c .fcntl u (.buf .arg3)) 0 = c.a3.setWidth 32 := by
    intro u
    simp [sent, wrapSends]
  unfold HeedsCaller
  simp only [unwrapCase, List.map_cons, List.map_nil, Ctx.heeded, List.cons.injEq, and_true,
    HostCall.heeded, heeds, uses, sysUses, Heeded.mk.injEq, List.zipWith, Operand.eval,
    Operand.isInt, Ctx.args, hfd, hcmd, harg, kargs_val, params, sysParams, List.getD,
    List.getElem?_cons_zero, List.getElem?_cons_succ, Option.getD, Param.trunc, trunc_int,
    Use.heed_int, true_and, fcntlUse_heed_iff, forall_const]
  rfl

theorem mode_inj {x y : BitVec 12} : x.setWidth 64 = y.setWidth 64 ↔ x = y := by
  refine ⟨fun h => ?_, congrArg _⟩
  simpa using congrArg (·.setWidth 12) h

/-- **Integers and paths.** -/
theorem heeds_scalars (hn : n ∈ directCalls) (hobj : hasObject n = false) :
    HeedsCaller c K n ↔ faithfulWhen c K n := by
  by_cases hfcntl : n = .fcntl
  · subst hfcntl
    exact heeds_fcntl
  unfold HeedsCaller
  cases n <;> (first | exact absurd hn (by decide) | exact absurd hobj (by decide) |
    exact absurd rfl hfcntl | skip)
  -- the two calls, argument by argument
  all_goals
    simp only [unwrapCase, List.map_cons, List.map_nil, Ctx.heeded, List.cons.injEq, and_true]
  all_goals
    simp only [HostCall.heeded, heeds, uses, sysUses, params, sysParams, Heeded.mk.injEq,
      List.map_cons, List.map_nil, List.zipWith, Use.heed_int, Use.heed_long, Use.heed_path,
      Use.heed_mode, Use.heed_ite, Use.heed_ignored, argView, Operand.eval, Operand.isInt, Ctx.args,
      kargs_mem, kargs_kernel, Ctx.region_addr, BitVec.ofNat_eq_ofNat, Ctx.addr_ne_zero, if_false,
      List.cons.injEq, and_true, true_and, faithfulWhen]
  -- what the mode is for
  case' open_ | openat =>
    simp only [kargs_val, params, sysParams, List.zipWith, List.getD, List.getElem?_cons_zero,
      List.getElem?_cons_succ, Option.getD, Param.trunc]
  -- what the enclave wrote there
  all_goals simp [sent, wrapSends, forall_and, forall_string_iff, PathSent]
  case openat =>
    refine fun _ _ => ?_
    by_cases hcreate : willCreate (c.a3.setWidth 32) = true
    · simp only [hcreate, if_true, List.cons.injEq, ArgView.scalar.injEq, mode_inj, and_true,
        true_imp_iff]
      exact eq_comm
    · simp [hcreate]
  case lseek => exact setWidth_inj

/-- **Objects.** -/
theorem heeds_objects (hn : n ∈ directCalls) (hobj : hasObject n = true) :
    HeedsCaller c K n ↔ faithfulWhen c K n := by
  unfold HeedsCaller
  cases n <;> (first | exact absurd hn (by decide) | exact absurd hobj (by decide) | skip)
  -- the two calls, argument by argument
  all_goals
    simp only [unwrapCase, List.map_cons, List.map_nil, Ctx.heeded, List.cons.injEq, and_true]
  all_goals
    simp only [HostCall.heeded, heeds, uses, sysUses, params, sysParams, Heeded.mk.injEq,
      List.map_cons, List.map_nil, List.zipWith, Use.heed_int, Use.heed_long, Use.heed_path,
      Use.heed_obj, Use.heed_pointer, Use.heed_ite, Use.heed_ignored, Param.heed_obj, Param.input,
      Param.output, Param.inout, argView, Operand.eval, Operand.isInt, Ctx.args, kargs_mem,
      kargs_kernel, Ctx.region_addr, BitVec.ofNat_eq_ofNat, Ctx.addr_ne_zero, if_false,
      List.cons.injEq, and_true, true_and, take_zero, faithfulWhen,
      -- how many bytes the kernel reads and writes
      Ctx.kernelArgs, KArgs.pollLen, KArgs.rwCount, KArgs.sigsetLen, KArgs.sigpendingLen,
      KArgs.groupsOut, KArgs.sockaddrLen, KArgs.sockaddrRoom, KArgs.int, kargs_val, List.getD,
      List.getElem?_cons_zero, List.getElem?_cons_succ, Option.getD, Param.trunc]
  -- what the enclave wrote there
  all_goals
    simp [sent, wrapSends, forall_and, forall_string_iff, forall_bytes_iff, forall_looked_iff,
      looked_output_iff, PathSent, BytesSent, Given, -BitVec.toInt_setWidth]
  case connect | bind =>
    have hsent := sockaddr_sent c.a3
    tauto
  case setsockopt =>
    rw [and_iff_left (Int.toNat_le.mp (optval_sent c.a5)), intCount, Int.toNat_eq_zero]
  case rt_sigtimedwait =>
    by_cases h4 : c.a4 = 8#64
    · simp [h4, forall_bytes_iff]
    · simp [h4]
  case rt_sigsuspend =>
    by_cases h2 : c.a2 = 8#64
    · simp [h2, forall_bytes_iff]
    · simp [h2]

/-! ## Optional pointers -/

/-- A word is not the caller's timeout whatever the slot held behind it. -/
theorem not_forall_timeout {w : Word} {v : Bytes} :
    ¬ ∀ u : UMem, take 16 (overlay 0 8 (le64 w) (u (.buf b))) = take 16 v := by
  intro h
  have hbyte := take_eq_iff.mp (h fun _ _ => ~~~ v 8) 8 (by omega)
  rw [overlay_of_not (by omega)] at hbyte
  exact byte_not_ne _ hbyte

/-- What the kernel reads behind the timeout. -/
theorem futex_timeout_iff :
    (∀ u : UMem, (if load64 (sent c .futex u (.buf .arg4)) 0 = 0#64 then ArgView.null
        else .bytes (take 16
          (sent c .futex u (c.region (load64 (sent c .futex u (.buf .arg4)) 0))))) =
        if c.a4 = 0#64 then .null else .bytes (take 16 (c.mem.at c.a4))) ↔
      (c.a4 ≠ 0#64 → c.a4.sshiftRight 32 ≠ 0#64) := by
  by_cases h4 : c.a4 = 0#64
  · have hptr : ∀ u, load64 (sent c .futex u (.buf .arg4)) 0 = 0#64 := by
      intro u
      simp [sent, wrapSends, h4, apply_ite_store]
    simp [hptr, h4]
  have hptr : ∀ u, load64 (sent c .futex u (.buf .arg4)) 0 = c.addr .arg7 := by
    intro u
    simp [sent, wrapSends, h4, apply_ite_store]
  by_cases hvalue : c.a4.sshiftRight 32 = 0#64
  · have hbytes : ∀ u, sent c .futex u (.buf .arg7) =
        overlay 0 8 (le64 c.a4) (u (.buf .arg7)) := by
      intro u
      simp [sent, wrapSends, h4, hvalue, apply_ite_store]
    simp [hptr, h4, hvalue, hbytes, not_forall_timeout]
  · have hbytes : ∀ u, sent c .futex u (.buf .arg7) =
        overlay 0 16 (c.mem.at c.a4) (u (.buf .arg7)) := by
      intro u
      simp [sent, wrapSends, h4, hvalue, apply_ite_store]
    simp [hptr, h4, hvalue, hbytes, take_overlay]

section FutexSent

variable (c) (u : UMem)

theorem futex_sent_uaddr : load64 (sent c .futex u (.buf .arg1)) 0 = c.outAddress c.a1 := by
  simp [sent, wrapSends, applyAll_ite, apply_ite_store]

theorem futex_sent_op : load64 (sent c .futex u (.buf .arg2)) 0 = c.a2 := by
  simp [sent, wrapSends, applyAll_ite, apply_ite_store]

theorem futex_sent_val : load64 (sent c .futex u (.buf .arg3)) 0 = c.a3 := by
  simp [sent, wrapSends, applyAll_ite, apply_ite_store]

/-- `arg5` holds the address of a copy of the second word. -/
theorem futex_sent_val3 : sent c .futex u (.buf .arg5) =
    overlay 0 8 (le64 (c.addr .arg8)) (u (.buf .arg5)) := by
  simp [sent, wrapSends, applyAll_ite, apply_ite_store]

/-- The mirror gets the word. -/
theorem futex_sent_word : sent c .futex u (.heap (c.outAddress c.a1)) =
    overlay 0 4 (c.mem.at c.a1) (u (.heap (c.outAddress c.a1))) := by
  simp [sent, wrapSends, applyAll_ite, apply_ite_store]

end FutexSent

/-- **A word** reaches the kernel when it has a mirror. -/
theorem word_heed_iff {p q : Word} {v f : Bytes} :
    (if q = 0#64 then [ArgView.null] else [.scalar q, .bytes (take 4 (overlay 0 4 v f))]) =
        (if p = 0#64 then [ArgView.null] else [.scalar q, .bytes (take 4 v)]) ↔
      (q = 0#64 ↔ p = 0#64) := by
  have htake : take 4 (overlay 0 4 v f) = take 4 v := take_overlay le_rfl v f
  by_cases hq : q = 0#64 <;> by_cases hp : p = 0#64 <;> simp [hq, hp, htake]

theorem takesSecond_of_val2 {op : BitVec 32} (h : takesVal2 op = true) : takesSecond op = true := by
  unfold takesVal2 at h
  unfold takesSecond
  simp only [List.contains_eq_mem, List.mem_cons, List.not_mem_nil, or_false,
    decide_eq_true_eq] at h ⊢
  tauto

/-- **`futex`.** -/
theorem heeds_futex : HeedsCaller c K .futex ↔ faithfulWhen c K .futex := by
  unfold HeedsCaller
  simp only [unwrapCase, List.map_cons, List.map_nil, Ctx.heeded, List.cons.injEq, and_true,
    HostCall.heeded, heeds, uses, sysUses, futexUses, params, sysParams, Heeded.mk.injEq,
    List.zipWith, Use.heed_int, Use.heed_word, Use.heed_ite, Use.heed_ignored, Use.heed_obj,
    Param.input, argView, Operand.eval, Operand.isInt, Ctx.args, kargs_mem, kargs_val, List.getD,
    List.getElem?_cons_zero, List.getElem?_cons_succ, Option.getD, Param.trunc, trunc_int,
    BitVec.ofNat_eq_ofNat, Ctx.addr_ne_zero, if_false, true_and, faithfulWhen]
  simp only [futex_sent_uaddr, futex_sent_op, futex_sent_val, futex_sent_val3,
    c.region_outAddress, futex_sent_word, load64_overlay_self, id, word_heed_iff]
  by_cases hsecond : takesSecond (c.a2.setWidth 32) = true
  · -- a buffer is not the mirror of a word
    refine iff_of_false (fun h => ?_) fun h => h.2.2.1 hsecond
    have hword := (h fun _ _ => 0).2.2.2.2.1
    rw [if_pos hsecond, if_pos hsecond] at hword
    split at hword
    · simp at hword
    · simp only [List.cons.injEq, ArgView.scalar.injEq] at hword
      exact c.outAddress_ne _ _ hword.1.symm
  have hval2 : ¬ takesVal2 (c.a2.setWidth 32) = true := fun h => hsecond (takesSecond_of_val2 h)
  simp only [hsecond, hval2, if_false, OfNat.ofNat_ne_zero, Bool.false_eq_true, true_and,
    not_false_eq_true, forall_and, forall_const]
  refine and_congr_right fun _ => and_congr ?_ ?_
  · by_cases htimeout : takesTimeout (c.a2.setWidth 32) = true
    · simp only [htimeout, if_true, List.cons.injEq, and_true, true_imp_iff, futex_timeout_iff]
    · simp [htimeout]
  · by_cases hval3 : takesVal3 (c.a2.setWidth 32) = true
    · simp only [hval3, if_true, List.cons.injEq, ArgView.scalar.injEq, setWidth_inj, and_true,
        true_imp_iff]
      exact eq_comm
    · simp [hval3]

/-- **`ioctl`.** -/
theorem heeds_ioctl : HeedsCaller c K .ioctl ↔ faithfulWhen c K .ioctl := by
  have hfd : ∀ u, (load32 (sent c .ioctl u (.buf .arg1)) 0) = c.a1.setWidth 32 := by
    intro u
    by_cases h3 : c.a3 = 0#64 <;> simp [sent, wrapSends, h3]
  have hrequest : ∀ u, load64 (sent c .ioctl u (.buf .arg2)) 0 = c.a2 := by
    intro u
    by_cases h3 : c.a3 = 0#64 <;> simp [sent, wrapSends, h3]
  unfold HeedsCaller
  simp only [unwrapCase, List.map_cons, List.map_nil, Ctx.heeded, List.cons.injEq, and_true,
    HostCall.heeded, heeds, uses, sysUses, params, sysParams, Heeded.mk.injEq, List.zipWith,
    Use.heed_int, Use.heed_long, Operand.eval, Operand.isInt, Ctx.args, kargs_kernel, kargs_val,
    List.getD, List.getElem?_cons_zero, List.getElem?_cons_succ, Option.getD, Param.trunc,
    trunc_int, hfd, hrequest, true_and, faithfulWhen]
  by_cases hint : K.ioctlInt c.a2 = true
  · simp only [hint, if_true, Use.heed_long, List.cons.injEq, ArgView.scalar.injEq, and_true,
      forall_const]
    exact eq_comm
  simp only [hint, if_false, Bool.false_eq_true, Use.heed_obj, argView, kargs_kernel, kargs_val,
    List.zipWith, List.getD, List.getElem?_cons_zero, List.getElem?_cons_succ, Option.getD,
    Param.trunc, kargs_mem, Ctx.region_addr, BitVec.ofNat_eq_ofNat, Ctx.addr_ne_zero,
    params, sysParams, forall_looked_iff]
  refine or_congr_right ?_
  by_cases h3 : c.a3 = 0#64
  · simp [h3]
  · have hsent : ∀ u, sent c .ioctl u (.buf .arg3) =
        overlay 0 32 (c.mem.at c.a3) (u (.buf .arg3)) := by
      intro u
      simp [sent, wrapSends, h3]
    simp only [h3, if_false, hsent, ArgView.bytes.injEq, forall_take_iff, ne_eq, not_false_eq_true,
      true_and]

theorem heeds_optional (hn : n ∈ optionalCalls) (hword : n ≠ .futex) (harg : n ≠ .ioctl) :
    HeedsCaller c K n ↔ faithfulWhen c K n := by
  unfold HeedsCaller
  cases n <;> (first | exact absurd hn (by decide) | exact absurd rfl hword |
    exact absurd rfl harg | skip)
  -- the two calls, argument by argument
  all_goals
    simp only [unwrapCase, List.map_cons, List.map_nil, Ctx.heeded, List.cons.injEq, and_true]
  all_goals
    simp only [HostCall.heeded, heeds, uses, sysUses, params, sysParams, Heeded.mk.injEq,
      List.map_cons, List.map_nil, List.zipWith, Use.heed_int, Use.heed_long, Use.heed_path,
      Use.heed_obj, Use.heed_pointer, Use.heed_word, Param.heed_obj, Param.input, Param.output,
      Param.inout, argView, Operand.eval, Operand.isInt, Ctx.args, kargs_mem, kargs_kernel,
      Ctx.region_addr, BitVec.ofNat_eq_ofNat, Ctx.addr_ne_zero, if_false, List.cons.injEq,
      OfNat.ofNat_ne_zero, and_false, and_true, true_and, take_zero, faithfulWhen,
      -- how many bytes the kernel reads and writes
      Ctx.kernelArgs, KArgs.groupsIn, KArgs.sigsetLen, KArgs.eventLen, KArgs.epollLen,
      KArgs.sockaddrRoom, KArgs.int, kargs_val, List.getD, List.getElem?_cons_zero,
      List.getElem?_cons_succ, Option.getD, Param.trunc, trunc_int]
  case setgroups =>
    have hread : ∀ u, (load64 (sent c .setgroups u (.buf .arg1)) 0).setWidth 32 =
        c.a1.setWidth 32 := by
      intro u
      by_cases h2 : c.a2 = 0#64 <;> simp [sent, wrapSends, h2]
    simp only [hread, true_and, forall_looked_iff]
    refine or_congr_right' fun _ => ?_
    by_cases h2 : c.a2 = 0#64
    · simp [h2]
    · refine iff_of_true (fun u => ?_) h2
      have hsent : sent c .setgroups u (.buf .arg2) =
          overlay 0 (memcpyLen (c.a1 * 4)) (c.mem.at c.a2) (u (.buf .arg2)) := by
        simp [sent, wrapSends, h2]
      rw [if_neg h2, hsent, take_overlay]
      rw [BitVec.toNat_setWidth]
      exact groups_sent c.a1
  case rt_sigprocmask =>
    by_cases h2 : c.a2 = 0#64 <;> by_cases h3 : c.a3 = 0#64 <;> by_cases h4 : c.a4 = 8#64 <;>
      simp [sent, wrapSends, take_overlay, h2, h3, h4]
  case epoll_ctl =>
    by_cases h4 : c.a4 = 0#64 <;> by_cases hev : takesEvent (c.a2.setWidth 32) = true <;>
      simp [sent, wrapSends, take_overlay, h4, hev]
  case epoll_pwait =>
    by_cases h5 : c.a5 = 0#64
    · simp [sent, wrapSends, looked_output_iff, Given, h5, -BitVec.toInt_setWidth]
    · simp [sent, wrapSends, h5, -BitVec.toInt_setWidth]
  -- which pointers are `NULL`
  all_goals simp only [sent, wrapSends, ne_eq, ite_not, BitVec.ofNat_eq_ofNat]
  all_goals split_ifs
  -- what the enclave wrote there
  all_goals
    simp [forall_and, forall_cstr_iff, forall_take_iff, PathSent,
      -BitVec.toInt_setWidth, *]

end Porpoise.Shim
