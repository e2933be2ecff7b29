import Porpoise.Shim.Sysno
import Porpoise.Shim.World

/-!
# The cases of `__syscall_wrap`

`wrapSends` gives, for each case, the writes to untrusted memory from the case
label to `ocall_syscall`, in order; `wrapRecvs` gives the copies back after it.
Every case has one ocall, but `rt_sigreturn` has none, and `alarm`, which lacks
its `break`, runs on through the case of `setitimer` (`wrapPhases`).

The sends of a case depend on the arguments and the enclave's memory only. A
`recv_user` may depend on the result in `arg0`, and on enclave memory that the
copies before it have changed.
-/

namespace Porpoise.Shim

open Porpoise.Lib

/-! ## Sizes of the structures -/

@[simp] def sizeofInt : Word := 4
@[simp] def sizeofStat : Word := 144
@[simp] def sizeofPollfd : Word := 8
@[simp] def sizeofSigaction : Word := 152
/-- musl's `sigset_t`; the kernel's is 8 bytes long. -/
@[simp] def sizeofSigset : Word := 128
@[simp] def sizeofSiginfo : Word := 128
@[simp] def sizeofStack : Word := 24
@[simp] def sizeofFdSet : Word := 128
@[simp] def sizeofTimeval : Word := 16
@[simp] def sizeofTimespec : Word := 16
@[simp] def sizeofTimezone : Word := 8
@[simp] def sizeofItimerval : Word := 32
@[simp] def sizeofUtimbuf : Word := 16
@[simp] def sizeofRlimit : Word := 16
@[simp] def sizeofRusage : Word := 272
@[simp] def sizeofSysinfo : Word := 368
@[simp] def sizeofTms : Word := 32
@[simp] def sizeofUtsname : Word := 390
@[simp] def sizeofStatfs : Word := 120
@[simp] def sizeofSockaddr : Word := 16
@[simp] def sizeofSocklen : Word := 4
@[simp] def sizeofCpuSet : Word := 128
@[simp] def sizeofEpollEvent : Word := 12
@[simp] def sizeofMsghdr : Nat := 56

/-! ## Objects in enclave memory -/

/-- An `int` argument as the bound of a loop from 0. -/
def intCount (w : Word) : Nat := (w.setWidth 32).toInt.toNat

theorem intCount_lt (w : Word) : intCount w < 2 ^ 31 := by
  have hlt := (w.setWidth 32).isLt
  rw [intCount, BitVec.toInt_eq_toNat_cond]
  split <;> omega

/-- A count that the kernel takes for valid is the enclave's. -/
theorem intCount_of_le {w : Word} {k : Nat} (h : (w.setWidth 32).toNat ≤ k) (hk : k < 2 ^ 31) :
    intCount w = (w.setWidth 32).toNat := by
  rw [intCount, BitVec.toInt_eq_toNat_of_lt (by omega)]
  rfl

/-- `iov[i].iov_base` of an array at `p`. -/
def iovBase (m : Mem) (p : Word) (i : Nat) : Word := load64 (m.at p) (16 * i)

def iovLen (m : Mem) (p : Word) (i : Nat) : Word := load64 (m.at p) (16 * i + 8)

/-- `*(socklen_t*)p`. -/
def socklenAt (m : Mem) (p : Word) : Word := (load32 (m.at p) 0).setWidth 64

/-- The fields of a `struct msghdr` at `p`. -/
def msgName (m : Mem) (p : Word) : Word := load64 (m.at p) 0
def msgNamelen (m : Mem) (p : Word) : Word := (load32 (m.at p) 8).setWidth 64
def msgIov (m : Mem) (p : Word) : Word := load64 (m.at p) 16
def msgIovlen (m : Mem) (p : Word) : Word := (load32 (m.at p) 24).signExtend 64
def msgControl (m : Mem) (p : Word) : Word := load64 (m.at p) 32
def msgControllen (m : Mem) (p : Word) : Word := (load32 (m.at p) 40).setWidth 64
def msgFlags (m : Mem) (p : Word) : Word := (load32 (m.at p) 48).setWidth 64

/-- The buffers of the first five segments of `readv` and `writev`. -/
def segBuf : Nat → Buf
  | 0 => .arg4 | 1 => .arg5 | 2 => .arg6 | 3 => .arg7 | _ => .arg8

/-- An assignment of eight bytes at an offset of a region. -/
def putAt (r : Region) (off : Nat) (w : Word) : Store := ⟨r, off, 8, le64 w, false⟩

/-- An assignment of an `int` or `socklen_t`. -/
def putIntAt (r : Region) (off : Nat) (w : Word) : Store := ⟨r, off, 4, le64 w, false⟩

/-! ## Before the ocall -/

section Sends

variable (c : Ctx)

/-- The array that `readv` builds in `arg2`: the loop over the first five
segments. -/
def readvFirst (i : Nat) : List Store :=
  if i < intCount c.a3 then
    [putAt (.buf .arg2) (16 * i + 8) (iovLen c.mem c.a2 i),
     putAt (.buf .arg2) (16 * i) (c.addr (segBuf i))]
  else []

/-- The loop over the others, with `int len = iov_ptr_in[i].iov_len`. -/
def readvRest (k : Nat) : List Store :=
  [putAt (.buf .arg2) (16 * (k + 5) + 8)
     (((iovLen c.mem c.a2 (k + 5)).setWidth 32).signExtend 64),
   putAt (.buf .arg2) (16 * (k + 5)) (c.alloc k)]

def readvSends : List Store :=
  (List.range 5).flatMap (readvFirst c) ++ (List.range (intCount c.a3 - 5)).flatMap (readvRest c)

/-- The array and the segments of `writev`. -/
def writevFirst (i : Nat) : List Store :=
  if i < intCount c.a3 then
    [putAt (.buf .arg2) (16 * i + 8) (iovLen c.mem c.a2 i),
     putAt (.buf .arg2) (16 * i) (c.addr (segBuf i)),
     send (.buf (segBuf i)) (c.mem.at (iovBase c.mem c.a2 i)) (iovLen c.mem c.a2 i)]
  else []

/-- The loop over the segments from the sixth on does not assign `iov_len`. -/
def writevRest (k : Nat) : List Store :=
  [putAt (.buf .arg2) (16 * (k + 5)) (c.alloc k),
   send (.heap (c.alloc k)) (c.mem.at (iovBase c.mem c.a2 (k + 5))) (iovLen c.mem c.a2 (k + 5))]

def writevSends : List Store :=
  (List.range 5).flatMap (writevFirst c) ++ (List.range (intCount c.a3 - 5)).flatMap (writevRest c)

/-- The blocks allocated for a message before its array of segments. -/
def msgNameBlocks : Nat := if msgNamelen c.mem c.a2 = 0 then 0 else 1

/-- Those before its control data. -/
def msgIovBlocks : Nat :=
  msgNameBlocks c +
    if msgIovlen c.mem c.a2 = 0 then 0 else 1 + intCount (msgIovlen c.mem c.a2)

/-- The `i`-th segment of a message, in the array at `iovBlock`. -/
def msgSegSends (data : Bool) (i : Nat) : List Store :=
  let iovBlock := c.alloc (msgNameBlocks c)
  let base := c.alloc (msgNameBlocks c + 1 + i)
  let p := msgIov c.mem c.a2
  [putAt (.heap iovBlock) (16 * i) 0, putAt (.heap iovBlock) (16 * i + 8) (-1),
   putAt (.heap iovBlock) (16 * i + 8) (iovLen c.mem p i), putAt (.heap iovBlock) (16 * i) base] ++
  if data then [send (.heap base) (c.mem.at (iovBase c.mem p i)) (iovLen c.mem p i)] else []

/-- The `msghdr` in `arg2` and the blocks it points to; the data only when they
are to be sent. -/
def msgSends (data : Bool) : List Store :=
  [⟨.buf .arg2, 0, sizeofMsghdr, fun _ => 0, false⟩, sendLong .arg1 c.a1,
   putIntAt (.buf .arg2) 8 (msgNamelen c.mem c.a2)] ++
  (if msgNamelen c.mem c.a2 = 0 then [putAt (.buf .arg2) 0 0]
   else putAt (.buf .arg2) 0 (c.alloc 0) ::
     if data then [send (.heap (c.alloc 0)) (c.mem.at (msgName c.mem c.a2))
       (msgNamelen c.mem c.a2)] else []) ++
  putIntAt (.buf .arg2) 24 (msgIovlen c.mem c.a2) ::
  (if msgIovlen c.mem c.a2 = 0 then [putAt (.buf .arg2) 16 0]
   else putAt (.buf .arg2) 16 (c.alloc (msgNameBlocks c)) ::
     (List.range (intCount (msgIovlen c.mem c.a2))).flatMap (msgSegSends c data)) ++
  putIntAt (.buf .arg2) 40 (msgControllen c.mem c.a2) ::
  (if msgControllen c.mem c.a2 = 0 then [putAt (.buf .arg2) 32 0]
   else putAt (.buf .arg2) 32 (c.alloc (msgIovBlocks c)) ::
     if data then [send (.heap (c.alloc (msgIovBlocks c))) (c.mem.at (msgControl c.mem c.a2))
       (msgControllen c.mem c.a2)] else []) ++
  [putIntAt (.buf .arg2) 48 (msgFlags c.mem c.a2), sendLong .arg3 c.a3]

/-- `send_user(arg7, &null_ptr, sizeof(*null_ptr), 0)`: one byte, `null_ptr[0]`,
which no case assigns. -/
def sendNullPtr : Store := send (.buf .arg7) c.stack 1

/-- The writes of a case up to its ocall. -/
def wrapSends : Sysno → List Store
  | .read => [sendLong .arg1 c.a1, sendLong .arg3 c.a3]
  | .write => [sendLong .arg1 c.a1, sendMem c .arg2 c.a2 c.a3, sendLong .arg3 c.a3]
  | .open_ => [sendPath c .arg1 c.a1, sendLong .arg2 c.a2, sendLong .arg3 c.a3]
  | .close => [sendInt .arg1 c.a1]
  | .stat | .lstat => [sendPath c .arg1 c.a1]
  | .fstat => [sendLong .arg1 c.a1]
  | .poll =>
      [sendMem c .arg1 c.a1 (sizeofPollfd * c.a2), sendLong .arg2 c.a2, sendInt .arg3 c.a3]
  | .lseek => [sendLong .arg1 c.a1, sendLong .arg2 c.a2, sendLong .arg3 c.a3]
  | .mmap =>
      [sendLong .arg1 c.a1, sendLong .arg2 c.a2, sendLong .arg3 c.a3, sendLong .arg4 c.a4,
       sendLong .arg5 c.a5, sendLong .arg6 c.a6]
  | .mprotect => [sendLong .arg1 c.a1, sendLong .arg2 c.a2, sendLong .arg3 c.a3]
  | .munmap => [sendLong .arg1 c.a1, sendLong .arg2 c.a2]
  | .brk => [sendLong .arg1 c.a1]
  | .rt_sigaction =>
      sendLong .arg1 c.a1 ::
      (if c.a2 = 0 then [put .arg2 0]
       else [sendAddr c .arg2 .arg5, sendMem c .arg5 c.a2 sizeofSigaction]) ++
      (if c.a3 = 0 then [put .arg3 0] else [sendAddr c .arg3 .arg6]) ++
      [sendLong .arg4 c.a4]
  | .rt_sigprocmask =>
      sendLong .arg1 c.a1 ::
      (if c.a2 ≠ 0 then [put .arg2 (c.addr .arg5), sendMem c .arg5 c.a2 sizeofSigset]
       else [put .arg2 0]) ++
      (if c.a3 ≠ 0 then [put .arg3 (c.addr .arg6), sendMem c .arg6 c.a3 sizeofSigset]
       else [put .arg3 0]) ++
      [sendLong .arg4 c.a4]
  | .ioctl =>
      [sendInt .arg1 c.a1, sendLong .arg2 c.a2] ++
      if c.a3 ≠ 0 then [sendMem c .arg3 c.a3 32] else []
  | .pread64 => [sendLong .arg1 c.a1, sendLong .arg3 c.a3, sendLong .arg4 c.a4]
  | .pwrite64 =>
      [sendLong .arg1 c.a1, sendLong .arg3 c.a3, sendMem c .arg2 c.a2 c.a3, sendLong .arg4 c.a4]
  | .readv => sendInt .arg1 c.a1 :: readvSends c ++ [sendInt .arg3 c.a3]
  | .writev => sendInt .arg1 c.a1 :: writevSends c ++ [sendInt .arg3 c.a3]
  | .access => [sendPath c .arg1 c.a1, sendLong .arg2 c.a2]
  | .pipe => []
  | .select =>
      (if c.a2 ≠ 0 then [sendMem c .arg2 c.a2 sizeofFdSet] else []) ++
      (if c.a3 ≠ 0 then [sendMem c .arg3 c.a3 sizeofFdSet] else []) ++
      (if c.a4 ≠ 0 then [sendMem c .arg4 c.a4 sizeofFdSet] else []) ++
      (if c.a5 ≠ 0 then [sendMem c .arg5 c.a5 sizeofTimeval] else []) ++
      [sendNullPtr c]
  | .sched_yield => []
  | .mremap =>
      [sendLong .arg1 c.a1, sendLong .arg2 c.a2, sendLong .arg3 c.a3, sendLong .arg4 c.a4,
       sendLong .arg5 c.a5]
  | .msync => [sendLong .arg1 c.a1, sendLong .arg2 c.a2, sendLong .arg3 c.a3]
  | .madvise => [sendLong .arg1 c.a1, sendLong .arg2 c.a2, sendLong .arg3 c.a3]
  | .dup => [sendLong .arg1 c.a1]
  | .dup2 => [sendLong .arg1 c.a1, sendLong .arg2 c.a2]
  | .nanosleep =>
      (if c.a1 = 0 then [put .arg1 0]
       else [sendMem c .arg3 c.a1 sizeofTimespec, sendAddr c .arg1 .arg3]) ++
      if c.a2 = 0 then [put .arg2 0] else [sendAddr c .arg2 .arg4]
  | .getitimer => []
  | .alarm => [sendLong .arg1 c.a1]
  | .setitimer =>
      [sendLong .arg1 c.a1, sendMem c .arg2 c.a2 sizeofItimerval] ++
      if c.a3 = 0 then [put .arg3 0] else [sendAddr c .arg3 .arg4]
  | .getpid => []
  | .socket => [sendLong .arg1 c.a1, sendLong .arg2 c.a2, sendLong .arg3 c.a3]
  | .connect => [sendLong .arg1 c.a1, sendMem c .arg2 c.a2 c.a3, sendLong .arg3 c.a3]
  | .accept =>
      [sendLong .arg1 c.a1, sendMem c .arg2 c.a2 (socklenAt c.mem c.a3),
       sendMem c .arg3 c.a3 sizeofSocklen]
  | .sendto =>
      [sendInt .arg1 c.a1] ++ (if c.a2 ≠ 0 then [sendMem c .arg2 c.a2 c.a3] else []) ++
      [sendLong .arg3 c.a3, sendInt .arg4 c.a4] ++
      (if c.a5 ≠ 0 then [sendMem c .arg5 c.a5 ((c.a6.setWidth 32).setWidth 64)] else []) ++
      [sendInt .arg6 c.a6, sendNullPtr c]
  | .recvfrom =>
      [sendInt .arg1 c.a1] ++ (if c.a2 ≠ 0 then [sendMem c .arg2 c.a2 c.a3] else []) ++
      [sendLong .arg3 c.a3, sendInt .arg4 c.a4] ++
      (if c.a5 ≠ 0 then [sendMem c .arg5 c.a5 (socklenAt c.mem c.a6)] else []) ++
      (if c.a6 ≠ 0 then [sendMem c .arg6 c.a6 sizeofSocklen] else []) ++
      [sendNullPtr c]
  | .recvmsg => msgSends c false
  | .sendmsg => msgSends c true
  | .shutdown => [sendLong .arg1 c.a1, sendLong .arg2 c.a2]
  | .bind => [sendLong .arg1 c.a1, sendMem c .arg2 c.a2 c.a3, sendLong .arg3 c.a3]
  | .listen => [sendLong .arg1 c.a1, sendLong .arg2 c.a2]
  | .getsockname =>
      [sendLong .arg1 c.a1, sendMem c .arg2 c.a2 (socklenAt c.mem c.a3),
       sendMem c .arg3 c.a3 sizeofSocklen]
  | .getpeername =>
      [sendLong .arg1 c.a1, sendMem c .arg2 c.a2 (socklenAt c.mem c.a3),
       sendMem c .arg3 c.a3 sizeofSocklen]
  | .socketpair => [sendLong .arg1 c.a1, sendLong .arg2 c.a2, sendLong .arg3 c.a3]
  | .setsockopt =>
      [sendInt .arg1 c.a1, sendInt .arg2 c.a2, sendInt .arg3 c.a3,
       sendMem c .arg4 c.a4 ((c.a5.setWidth 32).setWidth 64), sendInt .arg5 c.a5]
  | .getsockopt =>
      [sendLong .arg1 c.a1, sendLong .arg2 c.a2, sendLong .arg3 c.a3,
       sendMem c .arg4 c.a4 (socklenAt c.mem c.a5), sendMem c .arg5 c.a5 sizeofSocklen]
  | .clone => [sendLong .arg5 c.a5]
  | .exit => [sendLong .arg1 c.a1]
  | .kill => [sendInt .arg1 c.a1, sendLong .arg2 c.a2]
  | .uname => []
  | .fcntl => [sendInt .arg1 c.a1, sendInt .arg2 c.a2, sendInt .arg3 c.a3]
  | .fsync => [sendLong .arg1 c.a1]
  -- `sizeof(path_name)+1` is the size of the pointer and one more
  | .truncate => [sendMem c .arg1 c.a1 9, sendInt .arg2 c.a2]
  | .ftruncate => [sendLong .arg1 c.a1, sendInt .arg2 c.a2]
  | .getdents => [sendLong .arg1 c.a1, sendLong .arg3 c.a3]
  | .getcwd => [sendLong .arg2 c.a2]
  | .chdir => [sendPath c .arg1 c.a1]
  | .fchdir => [sendLong .arg1 c.a1]
  | .rename => [sendPath c .arg1 c.a1, sendPath c .arg2 c.a2]
  | .mkdir => [sendPath c .arg1 c.a1, sendIntAsLong c .arg2 c.a2]
  | .rmdir => [sendPath c .arg1 c.a1]
  | .creat => [sendPath c .arg1 c.a1, sendLong .arg2 c.a2]
  | .link => [sendPath c .arg1 c.a1, sendPath c .arg2 c.a2]
  | .unlink => [sendPath c .arg1 c.a1]
  | .symlink => [sendPath c .arg1 c.a1, sendPath c .arg2 c.a2]
  | .readlink => [sendPath c .arg1 c.a1, sendLong .arg3 c.a3]
  | .chmod => [sendPath c .arg1 c.a1, sendInt .arg2 c.a2]
  | .fchmod => [sendLong .arg1 c.a1, sendInt .arg2 c.a2]
  | .chown | .lchown => [sendPath c .arg1 c.a1, sendInt .arg2 c.a2, sendInt .arg3 c.a3]
  | .fchown => [sendLong .arg1 c.a1, sendInt .arg2 c.a2, sendInt .arg3 c.a3]
  | .umask => [sendInt .arg1 c.a1]
  | .gettimeofday => [sendMem c .arg1 c.a1 sizeofTimeval, sendMem c .arg2 c.a2 sizeofTimezone]
  | .getrlimit => [sendLong .arg1 c.a1]
  | .getrusage => [sendLong .arg1 c.a1]
  | .sysinfo => []
  | .times => []
  | .getuid => []
  | .getgid => []
  | .setuid => [sendIntAsLong c .arg1 c.a1]
  | .setgid => [sendIntAsLong c .arg1 c.a1]
  | .geteuid => []
  | .getegid => []
  | .setpgid => [sendInt .arg1 c.a1, sendInt .arg2 c.a2]
  | .getppid => []
  | .getpgrp | .getpgid => [sendInt .arg1 c.a1]
  | .setsid => []
  | .setreuid => [sendInt .arg1 c.a1, sendInt .arg2 c.a2]
  | .setregid => [sendInt .arg1 c.a1, sendInt .arg2 c.a2]
  | .getgroups => [sendLong .arg1 c.a1]
  | .setgroups =>
      sendLong .arg1 c.a1 :: if c.a2 ≠ 0 then [sendMem c .arg2 c.a2 (c.a1 * 4)] else []
  | .setresuid => [sendInt .arg1 c.a1, sendInt .arg2 c.a2, sendInt .arg3 c.a3]
  | .getresuid => []
  | .setresgid => [sendInt .arg1 c.a1, sendInt .arg2 c.a2, sendInt .arg3 c.a3]
  | .getresgid => []
  | .getsid => [sendInt .arg1 c.a1]
  | .rt_sigsuspend | .rt_sigpending => [sendMem c .arg1 c.a1 sizeofSigset, sendLong .arg2 c.a2]
  | .rt_sigtimedwait =>
      [sendMem c .arg1 c.a1 sizeofSigset, sendMem c .arg2 c.a2 sizeofSiginfo,
       sendMem c .arg3 c.a3 sizeofTimespec, sendLong .arg4 c.a4]
  | .rt_sigqueueinfo =>
      [sendInt .arg1 c.a1, sendInt .arg2 c.a2, sendMem c .arg3 c.a3 sizeofSiginfo]
  | .rt_sigreturn => []
  | .sigaltstack => if c.a1 ≠ 0 then [sendMem c .arg1 c.a1 sizeofStack] else []
  | .utime =>
      sendPath c .arg1 c.a1 ::
      if c.a2 ≠ 0 then [sendAddr c .arg2 .arg3, sendMem c .arg3 c.a2 sizeofUtimbuf]
      else [put .arg2 0]
  | .personality => [sendLong .arg1 c.a1]
  | .statfs => [sendPath c .arg1 c.a1]
  | .fstatfs => [sendLong .arg1 c.a1]
  | .getpriority => [sendLong .arg1 c.a1, sendInt .arg2 c.a2]
  | .setpriority => [sendLong .arg1 c.a1, sendInt .arg2 c.a2, sendLong .arg3 c.a3]
  | .chroot => [sendPath c .arg1 c.a1]
  | .sync => []
  | .mount =>
      [sendPath c .arg1 c.a1, sendPath c .arg2 c.a2, sendPath c .arg3 c.a3,
       sendLong .arg4 c.a4] ++
      if c.a5 = 0 then [put .arg5 0] else [sendAddr c .arg5 .arg6, sendPath c .arg6 c.a5]
  | .umount2 => [sendPath c .arg1 c.a1, sendLong .arg2 c.a2]
  | .gettid => []
  | .futex =>
      [send (.heap (c.outAddress c.a1)) (c.mem.at c.a1) sizeofInt,
       sendLong .arg1 (c.outAddress c.a1), sendLong .arg2 c.a2, sendLong .arg3 c.a3] ++
      (if c.a4 = 0 then [put .arg4 0]
       else
        [sendAddr c .arg4 .arg7,
         if c.a4.sshiftRight 32 ≠ 0 then sendMem c .arg7 c.a4 sizeofTimespec
         else put .arg7 c.a4]) ++
      [sendAddr c .arg5 .arg8, if c.a5 ≠ 0 then sendMem c .arg8 c.a5 8 else put .arg8 0,
       sendInt .arg6 c.a6]
  | .sched_getaffinity =>
      [sendInt .arg1 c.a1, sendLong .arg2 c.a2, sendMem c .arg3 c.a3 sizeofCpuSet]
  | .getdents64 => [sendInt .arg1 c.a1, sendInt .arg3 c.a3]
  | .set_tid_address =>
      if c.a1 = 0 then [put .arg1 0]
      else
        [send (.heap (c.outAddress c.a1)) (c.mem.at c.a1) 8,
         putAt (.heap (c.outAddress c.a1)) 0 c.a1, put .arg1 (c.outAddress c.a1)]
  | .clock_gettime => [sendInt .arg1 c.a1]
  | .clock_getres => [sendInt .arg1 c.a1]
  | .exit_group => [sendLong .arg1 c.a1]
  | .epoll_ctl =>
      [sendInt .arg1 c.a1, sendInt .arg2 c.a2, sendInt .arg3 c.a3] ++
      if c.a4 ≠ 0 then [sendMem c .arg5 c.a4 sizeofEpollEvent, put .arg4 (c.addr .arg5)]
      else [put .arg4 0]
  | .utimes =>
      sendPath c .arg1 c.a1 ::
      if c.a2 ≠ 0 then [sendAddr c .arg2 .arg3, sendMem c .arg3 c.a2 (2 * sizeofTimeval)]
      else [put .arg2 0]
  -- `mode` is the third argument again
  | .openat =>
      [sendLong .arg1 c.a1, sendPath c .arg2 c.a2, sendLong .arg3 c.a3, sendInt .arg4 c.a3]
  | .fchownat =>
      [sendLong .arg1 c.a1, sendPath c .arg2 c.a2, sendInt .arg3 c.a3, sendInt .arg4 c.a4,
       sendLong .arg5 c.a5]
  | .futimesat =>
      [sendLong .arg1 c.a1, sendPath c .arg2 c.a2] ++
      if c.a3 = 0 then [put .arg3 0]
      else [sendAddr c .arg3 .arg4, sendMem c .arg4 c.a3 (2 * sizeofTimespec)]
  | .newfstatat => [sendLong .arg1 c.a1, sendPath c .arg2 c.a2, sendLong .arg4 c.a4]
  | .unlinkat => [sendLong .arg1 c.a1, sendPath c .arg2 c.a2, sendLong .arg3 c.a3]
  | .readlinkat => [sendLong .arg1 c.a1, sendPath c .arg2 c.a2, sendLong .arg4 c.a4]
  | .fchmodat =>
      [sendLong .arg1 c.a1, sendPath c .arg2 c.a2, sendInt .arg3 c.a3, sendLong .arg4 c.a4]
  | .faccessat =>
      [sendLong .arg1 c.a1, sendPath c .arg2 c.a2, sendLong .arg3 c.a3, sendLong .arg4 c.a4]
  | .pselect6 =>
      let sigmask := load64 (c.mem.at c.a6) 0
      let arg10 := c.alloc (if c.a4 ≠ 0 then 1 else 0)
      let arg11 := c.alloc ((if c.a4 ≠ 0 then 1 else 0) + (if c.a5 ≠ 0 then 1 else 0))
      (if c.a2 ≠ 0 then [put .arg2 (c.addr .arg7), sendMem c .arg7 c.a2 sizeofFdSet]
       else [put .arg2 0]) ++
      -- the size of the pointer, not of the set
      (if c.a3 ≠ 0 then [put .arg3 (c.addr .arg8), sendMem c .arg8 c.a3 8]
       else [put .arg3 0]) ++
      (if c.a4 ≠ 0 then
         [put .arg4 (c.alloc 0), send (.heap (c.alloc 0)) (c.mem.at c.a4) sizeofFdSet]
       else [put .arg4 0]) ++
      (if c.a5 ≠ 0 then [put .arg5 arg10, send (.heap arg10) (c.mem.at c.a5) sizeofTimespec]
       else [put .arg5 0]) ++
      -- the mask goes to `arg5` too
      if sigmask ≠ 0 then [put .arg5 arg11, send (.heap arg11) (c.mem.at sigmask) sizeofSigset]
      else [put .arg6 0]
  | .utimensat =>
      sendLong .arg1 c.a1 ::
      (if c.a2 = 0 then [put .arg2 0] else [sendAddr c .arg2 .arg5, sendPath c .arg5 c.a2]) ++
      (if c.a3 = 0 then [put .arg3 0]
       else [sendAddr c .arg3 .arg6, sendMem c .arg6 c.a3 (2 * sizeofTimespec)]) ++
      [sendLong .arg4 c.a4]
  | .epoll_pwait =>
      [sendInt .arg1 c.a1, sendInt .arg3 c.a3, sendInt .arg4 c.a4,
       if c.a5 ≠ 0 then sendMem c .arg5 c.a5 c.a6 else put .arg5 0, sendLong .arg6 c.a6]
  | .fallocate =>
      [sendLong .arg1 c.a1, sendLong .arg2 c.a2, sendLong .arg3 c.a3, sendLong .arg4 c.a4]
  | .accept4 =>
      sendInt .arg1 c.a1 :: (if c.a3 ≠ 0 then [sendMem c .arg3 c.a3 sizeofSocklen] else []) ++
      [sendInt .arg4 c.a4]
  | .eventfd2 => [sendInt .arg1 c.a1, sendInt .arg2 c.a2]
  | .epoll_create1 => [sendInt .arg1 c.a1]
  | .dup3 => [sendLong .arg1 c.a1, sendLong .arg2 c.a2, sendLong .arg3 c.a3]
  | .pipe2 => [sendMem c .arg1 c.a1 (2 * sizeofInt), sendInt .arg2 c.a2]
  | .prlimit64 =>
      [sendInt .arg1 c.a1, sendLong .arg2 c.a2] ++
      (if c.a3 = 0 then [put .arg3 0]
       else [sendMem c .arg5 c.a3 sizeofRlimit, sendAddr c .arg3 .arg5]) ++
      if c.a4 = 0 then [put .arg4 0] else [sendAddr c .arg4 .arg6]
  | .syncfs => [sendLong .arg1 c.a1]
  | .getrandom => [sendLong .arg2 c.a2, sendInt .arg3 c.a3]

end Sends

/-- The enclave's writes before each ocall of a case. -/
def wrapPhases (c : Ctx) : Sysno → List (List Store)
  | .rt_sigreturn => []
  -- no case: the default one makes no ocall
  | .getitimer => []
  | .alarm => [wrapSends c .alarm, wrapSends c .setitimer]
  | n => [wrapSends c n]

/-! ## After the ocall -/

/-- A write of the enclave to its own memory from untrusted memory. -/
structure Recv where
  src : Region
  /-- Where in the region; 0 but for the fields of structures. -/
  off : Nat
  dst : Word
  size : Nat
  /-- Whether it is a `recv_user` copy, not an assignment. -/
  copy : Bool

/-- `recv_user(src, dst, len, 0)`. -/
def recv (src : Region) (dst len : Word) : Recv := ⟨src, 0, dst, memcpyLen len, true⟩

def Recv.apply (u : UMem) (r : Recv) (m : Mem) : Mem :=
  fun p => if (p - r.dst).toNat < r.size then u r.src (r.off + (p - r.dst).toNat) else m p

/-- The copies in order. -/
def applyRecvs (u : UMem) (rs : List Recv) (m : Mem) : Mem := rs.foldl (fun m r => r.apply u m) m

/-- Copies whose operands are read from the memory that those before them
leave. -/
def copyOut (u : UMem) : List (Mem → Recv) → Mem → List Recv
  | [], _ => []
  | f :: fs, m => f m :: copyOut u fs ((f m).apply u m)

section Recvs

variable (c : Ctx)

/-- The `long` result that the host left in `arg0`. -/
def resultOf (u : UMem) : Word := load64 (u (.buf .arg0)) 0

/-- The segments of `readv`. -/
def readvRecvs (u : UMem) : List (Mem → Recv) :=
  (List.range 5).flatMap (fun i =>
    if i < intCount c.a3 then
      [fun m => recv (.buf (segBuf i)) (iovBase m c.a2 i) (iovLen m c.a2 i)]
    else []) ++
  (List.range (intCount c.a3 - 5)).map fun k m =>
    recv (c.region (load64 (u (.buf .arg2)) (16 * (k + 5)))) (iovBase m c.a2 (k + 5))
      (iovLen m c.a2 (k + 5))

/-- The loop over the segments of `recvmsg`, from the `i`-th on. Its bound is
read anew each time. -/
def recvmsgLoop (u : UMem) : Nat → Nat → Mem → List Recv
  | 0, _, _ => []
  | fuel + 1, i, m =>
      if i < intCount (msgIovlen m c.a2) then
        let out := c.region (load64 (u (.buf .arg2)) 16)
        let r := recv (c.region (load64 (u out) (16 * i))) (iovBase m (msgIov m c.a2) i)
          (iovLen m (msgIov m c.a2) i)
        r :: recvmsgLoop u fuel (i + 1) (r.apply u m)
      else []

/-- The parts of the message that `recvmsg` copies back. -/
def recvmsgRecvs (u : UMem) (m : Mem) : List Recv :=
  let out := u (.buf .arg2)
  let name :=
    if load32 out 8 = 0 then []
    else [recv (c.region (load64 out 0)) (msgName m c.a2) (msgNamelen m c.a2)]
  let m1 := applyRecvs u name m
  let segs := if load32 out 24 = 0 then [] else recvmsgLoop c u (2 ^ 31) 0 m1
  let m2 := applyRecvs u segs m1
  let control :=
    if load32 out 40 = 0 then []
    else [recv (c.region (load64 out 32)) (msgControl m2 c.a2) (msgControllen m2 c.a2)]
  name ++ segs ++ control ++ [⟨.buf .arg2, 48, c.a2 + 48, 4, false⟩]

/-- The writes of a case to enclave memory after its ocall, from the memory
`m`. -/
def wrapRecvs (u : UMem) (m : Mem) : Sysno → List Recv
  | .read => if 0 < (resultOf u).toInt then [recv (.buf .arg2) c.a2 (resultOf u)] else []
  | .stat | .lstat =>
      if resultOf u ≠ -1 then [recv (.buf .arg2) c.a2 sizeofStat] else []
  | .fstat => [recv (.buf .arg2) c.a2 (sizeofStat + 1)]
  | .poll => [recv (.buf .arg1) c.a1 (sizeofPollfd * c.a2)]
  | .rt_sigaction => if c.a3 ≠ 0 then [recv (.buf .arg6) c.a3 8] else []
  | .rt_sigprocmask => if c.a3 ≠ 0 then [recv (.buf .arg6) c.a3 sizeofSigset] else []
  | .ioctl => if c.a3 ≠ 0 then [recv (.buf .arg3) c.a3 32] else []
  | .pread64 => [recv (.buf .arg2) c.a2 (resultOf u)]
  | .readv => copyOut u (readvRecvs c u) m
  | .pipe => [recv (.buf .arg1) c.a1 (sizeofInt * 2)]
  | .select =>
      (if c.a2 ≠ 0 then [recv (.buf .arg2) c.a2 sizeofFdSet] else []) ++
      (if c.a3 ≠ 0 then [recv (.buf .arg3) c.a3 sizeofFdSet] else []) ++
      if c.a4 ≠ 0 then [recv (.buf .arg4) c.a4 sizeofFdSet] else []
  | .nanosleep => if c.a2 ≠ 0 then [recv (.buf .arg4) c.a2 sizeofTimespec] else []
  | .alarm | .setitimer => if c.a3 ≠ 0 then [recv (.buf .arg4) c.a3 sizeofItimerval] else []
  | .recvfrom => if 0 < (resultOf u).toInt then [recv (.buf .arg2) c.a2 (resultOf u)] else []
  | .recvmsg => recvmsgRecvs c u m
  | .socketpair => [recv (.buf .arg4) c.a4 (2 * sizeofInt)]
  | .uname => [recv (.buf .arg1) c.a1 sizeofUtsname]
  | .getdents => [recv (.buf .arg2) c.a2 c.a3]
  | .getcwd => if resultOf u ≠ 0 then [recv (.buf .arg1) c.a1 c.a2] else []
  | .readlink => if 0 < (resultOf u).toInt then [recv (.buf .arg2) c.a2 (resultOf u)] else []
  | .getrlimit => [recv (.buf .arg2) c.a2 sizeofRlimit]
  | .getrusage => [recv (.buf .arg2) c.a2 sizeofRusage]
  | .sysinfo => [recv (.buf .arg1) c.a1 sizeofSysinfo]
  | .times => [recv (.buf .arg1) c.a1 sizeofTms]
  | .getgroups => if c.a2 ≠ 0 then [recv (.buf .arg2) c.a2 (c.a1 * 4)] else []
  | .getresuid | .getresgid =>
      [recv (.buf .arg1) c.a1 4, recv (.buf .arg2) c.a2 4, recv (.buf .arg3) c.a3 4]
  | .sigaltstack => if c.a2 ≠ 0 then [recv (.buf .arg2) c.a2 sizeofStack] else []
  | .statfs | .fstatfs => [recv (.buf .arg2) c.a2 sizeofStatfs]
  | .sched_getaffinity => [recv (.buf .arg3) c.a3 sizeofCpuSet]
  | .getdents64 =>
      -- `count` is an `unsigned int`
      let count := (resultOf u).setWidth 32
      if 0 < count.toNat then [recv (.buf .arg2) c.a2 (count.setWidth 64)] else []
  | .clock_gettime => [recv (.buf .arg2) c.a2 sizeofTimespec]
  | .clock_getres => if c.a2 ≠ 0 then [recv (.buf .arg2) c.a2 sizeofTimespec] else []
  | .newfstatat => [recv (.buf .arg3) c.a3 sizeofStat]
  | .readlinkat => if resultOf u ≠ -1 then [recv (.buf .arg3) c.a3 (resultOf u)] else []
  | .epoll_pwait =>
      let nevents := (resultOf u).setWidth 32
      if 0 < nevents.toInt then
        [recv (.buf .arg2) c.a2 (nevents.signExtend 64 * sizeofEpollEvent)]
      else []
  | .accept4 =>
      (if c.a2 ≠ 0 then [recv (.buf .arg2) c.a2 sizeofSockaddr] else []) ++
      if c.a3 ≠ 0 then [recv (.buf .arg3) c.a3 sizeofSocklen] else []
  | .pipe2 => [recv (.buf .arg1) c.a1 (2 * sizeofInt)]
  | .prlimit64 => if c.a4 ≠ 0 then [recv (.buf .arg6) c.a4 sizeofRlimit] else []
  | .getrandom =>
      let count := (resultOf u).setWidth 32
      if 0 < count.toInt then [recv (.buf .arg1) c.a1 (count.signExtend 64)] else []
  | _ => []

/-- Enclave memory at the ocall: `stat` and `lstat` clear the caller's object
first. -/
def wrapMem : Sysno → Mem
  | .stat | .lstat =>
      fun p => if (p - c.a2).toNat < sizeofStat.toNat then 0 else c.mem p
  | _ => c.mem

end Recvs

end Porpoise.Shim
