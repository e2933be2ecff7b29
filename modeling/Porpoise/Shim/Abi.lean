import Porpoise.Shim.Unwrap

/-!
# What the kernel takes a call's arguments for

For each function that the host calls, `params` gives the kind of every
argument as section 2 of the Linux manual documents it: an `int` (32 bits), a
`long` or `size_t` (64 bits), a path, or a pointer to an object with the number
of bytes the kernel reads there and the most it writes there. `kernelView` is
what the kernel learns from a call: the integers in their widths, which
pointers are `NULL`, and the bytes it reads behind the others. The same
function views the caller's own call, on enclave memory, and the host's, on
untrusted memory.
-/

namespace Porpoise.Shim

open Porpoise.Lib

/-- What depends on the kernel's configuration and state. -/
structure Kernel where
  /-- The most bytes read of a path. -/
  pathMax : Nat
  /-- The limit on the entries of `poll`. -/
  nofile : Nat
  /-- The size of the descriptor table, a limit for `select`. -/
  maxFds : Nat
  /-- The bytes of a processor mask. -/
  cpumask : Nat
  /-- The longest datagram, which `MSG_TRUNC` lets `recvfrom` report. -/
  maxDatagram : Nat
  /-- The bytes of the argument that an `ioctl` request reads and writes. -/
  ioctlIn : Word → Nat
  ioctlOut : Word → Nat
  /-- The `ioctl` requests with an integer for an argument. -/
  ioctlInt : Word → Bool

/-- A kernel with common limits, and no `ioctl` request that takes an argument. -/
def linux : Kernel :=
  ⟨4096, 1024, 1024, 128, 65535, fun _ => 0, fun _ => 0, fun _ => false⟩

/-- The arguments of a call as the kernel sees them, and the memory they point
to. -/
structure KArgs where
  kernel : Kernel
  val : Nat → Word
  mem : Word → Bytes

/-- The kind of a parameter. -/
inductive Param
  | int
  | long
  | path
  /-- An object of which the kernel reads and writes so many bytes. -/
  | obj (read write : KArgs → Nat)
  /-- An array of segments, its length in the argument `cnt`; `data` when the
  kernel reads the segments. -/
  | iov (data : Bool) (cnt : Nat)
  /-- A `struct msghdr`; `data` when the kernel reads what it points to. -/
  | msg (data : Bool)

namespace Param

/-- Whether the kernel takes an argument for a pointer. -/
def isPointer : Param → Bool
  | .int | .long => false
  | _ => true

def input (n : Nat) : Param := .obj (fun _ => n) (fun _ => 0)

def output (n : Nat) : Param := .obj (fun _ => 0) (fun _ => n)

def inout (n : Nat) : Param := .obj (fun _ => n) (fun _ => n)

end Param

/-- The operations of `futex` that take a timeout: `FUTEX_WAIT`,
`FUTEX_LOCK_PI`, `FUTEX_WAIT_BITSET`, `FUTEX_WAIT_REQUEUE_PI` and
`FUTEX_LOCK_PI2`, with or without the `PRIVATE` and `CLOCK_REALTIME` flags. -/
def takesTimeout (op : BitVec 32) : Bool :=
  [0#32, 6#32, 9#32, 11#32, 13#32].contains (op &&& ~~~(384#32))

/-- The operations of `futex` that use a second word: `FUTEX_REQUEUE`,
`FUTEX_CMP_REQUEUE`, `FUTEX_WAKE_OP`, `FUTEX_WAIT_REQUEUE_PI` and
`FUTEX_CMP_REQUEUE_PI`. -/
def takesSecond (op : BitVec 32) : Bool :=
  [3#32, 4#32, 5#32, 11#32, 12#32].contains (op &&& ~~~(384#32))

/-- `EPOLL_CTL_DEL` ignores the event. -/
def takesEvent (op : BitVec 32) : Bool := op ≠ 2

/-- A byte count, of which at most `MAX_RW_COUNT` bytes are transferred; a
count that is negative as `ssize_t` is refused. -/
def rwBytes (count : Word) : Nat :=
  if count.toInt < 0 then 0 else min count.toNat 0x7ffff000

theorem rwBytes_le_toNat (count : Word) : rwBytes count ≤ count.toNat := by
  unfold rwBytes
  split
  · exact Nat.zero_le _
  · exact Nat.min_le_left _ _

namespace KArgs

variable (x : KArgs)

/-- An `int` argument. -/
def int (i : Nat) : Int := ((x.val i).setWidth 32).toInt

def rwCount (i : Nat) : Nat := rwBytes (x.val i)

/-- The bytes of a socket address given with its length: at most
`sizeof(struct sockaddr_storage)`, or the call is refused. -/
def sockaddrLen (i : Nat) : Nat :=
  if 0 ≤ x.int i ∧ x.int i ≤ 128 then (x.int i).toNat else 0

/-- The bytes written of a socket address whose room is in `*val i`; a negative one is
refused. -/
def sockaddrRoom (i : Nat) : Nat := min (load32 (x.mem (x.val i)) 0).toInt.toNat 128

/-- The bytes of the descriptor sets of `select`. -/
def fdSetLen (i : Nat) : Nat :=
  8 * ((min (x.int i).toNat x.kernel.maxFds + 63) / 64)

/-- The bytes of a signal set, which only has one valid size. -/
def sigsetLen (i : Nat) : Nat := if x.val i = 8 then 8 else 0

def pollLen : Nat := if (x.val 1).toNat ≤ x.kernel.nofile then 8 * (x.val 1).toNat else 0

/-- `NGROUPS_MAX` bounds the group list. -/
def groupsIn : Nat :=
  if ((x.val 0).setWidth 32).toNat ≤ 65536 then 4 * ((x.val 0).setWidth 32).toNat else 0

def groupsOut : Nat := 4 * min (x.int 0).toNat 65536

def epollLen : Nat :=
  if 0 < x.int 2 ∧ x.int 2 ≤ 2147483647 / 12 then 12 * (x.int 2).toNat else 0

/-- The bytes written of the pending signals; a larger set is refused. -/
def sigpendingLen (i : Nat) : Nat := if (x.val i).toNat ≤ 8 then (x.val i).toNat else 0

/-- The event of `epoll_ctl`. -/
def eventLen : Nat := if takesEvent ((x.val 1).setWidth 32) then 12 else 0

def futexTimeout : Nat := if takesTimeout ((x.val 1).setWidth 32) then 16 else 0

theorem sigpendingLen_le (i : Nat) : x.sigpendingLen i ≤ 8 := by
  rw [sigpendingLen]
  split
  · assumption
  · exact Nat.zero_le 8

end KArgs

/-- The parameters of a system call, in order. -/
def sysParams : Sysno → List Param
  | .read => [.int, .obj (fun _ => 0) (·.rwCount 2), .long]
  | .write => [.int, .obj (·.rwCount 2) (fun _ => 0), .long]
  | .open_ => [.path, .int, .int]
  | .close => [.int]
  | .stat | .lstat => [.path, .output 144]
  | .fstat => [.int, .output 144]
  | .poll => [.obj (·.pollLen) (·.pollLen), .long, .int]
  | .lseek => [.int, .long, .int]
  | .mmap => [.long, .long, .int, .int, .int, .long]
  | .mprotect => [.long, .long, .int]
  | .munmap => [.long, .long]
  | .brk => [.long]
  | .rt_sigaction => [.int, .input 152, .output 152, .long]
  | .rt_sigprocmask => [.int, .obj (·.sigsetLen 3) (fun _ => 0), .output 8, .long]
  | .rt_sigreturn => []
  | .ioctl =>
      [.int, .long, .obj (fun x => x.kernel.ioctlIn (x.val 1))
        (fun x => x.kernel.ioctlOut (x.val 1))]
  | .pread64 => [.int, .obj (fun _ => 0) (·.rwCount 2), .long, .long]
  | .pwrite64 => [.int, .obj (·.rwCount 2) (fun _ => 0), .long, .long]
  | .readv => [.int, .iov false 2, .int]
  | .writev => [.int, .iov true 2, .int]
  | .access => [.path, .int]
  | .pipe => [.output 8]
  | .select =>
      [.int, .obj (·.fdSetLen 0) (·.fdSetLen 0), .obj (·.fdSetLen 0) (·.fdSetLen 0),
       .obj (·.fdSetLen 0) (·.fdSetLen 0), .inout 16]
  | .sched_yield => []
  | .mremap => [.long, .long, .long, .int, .long]
  | .msync => [.long, .long, .int]
  | .madvise => [.long, .long, .int]
  | .dup => [.int]
  | .dup2 => [.int, .int]
  | .nanosleep => [.input 16, .output 16]
  | .getitimer => [.int, .output 32]
  | .alarm => [.int]
  | .setitimer => [.int, .input 32, .output 32]
  | .getpid => []
  | .socket => [.int, .int, .int]
  | .connect | .bind => [.int, .obj (·.sockaddrLen 2) (fun _ => 0), .int]
  | .accept | .getsockname | .getpeername =>
      [.int, .obj (fun _ => 0) (·.sockaddrRoom 2), .inout 4]
  | .sendto =>
      [.int, .obj (fun x => min (x.val 2).toNat 0x7ffff000) (fun _ => 0), .long, .int,
       .obj (·.sockaddrLen 5) (fun _ => 0), .int]
  | .recvfrom =>
      [.int, .obj (fun _ => 0) (fun x => min (x.val 2).toNat 0x7ffff000), .long, .int,
       .obj (fun _ => 0) (·.sockaddrRoom 5), .inout 4]
  | .sendmsg => [.int, .msg true, .int]
  | .recvmsg => [.int, .msg false, .int]
  | .shutdown => [.int, .int]
  | .listen => [.int, .int]
  | .socketpair => [.int, .int, .int, .output 8]
  | .setsockopt => [.int, .int, .int, .obj (fun x => (x.int 4).toNat) (fun _ => 0), .int]
  | .getsockopt =>
      [.int, .int, .int,
       .obj (fun _ => 0) (fun x => (load32 (x.mem (x.val 4)) 0).toInt.toNat), .inout 4]
  | .clone => [.long, .long, .long, .long, .long]
  | .exit | .exit_group => [.int]
  | .kill => [.int, .int]
  | .uname => [.output 390]
  | .fcntl => [.int, .int, .long]
  | .fsync => [.int]
  | .truncate => [.path, .long]
  | .ftruncate => [.int, .long]
  | .getdents | .getdents64 =>
      [.int, .obj (fun _ => 0) (fun x => ((x.val 2).setWidth 32).toNat), .int]
  | .getcwd => [.obj (fun _ => 0) (fun x => min (x.val 1).toNat 4096), .long]
  | .chdir => [.path]
  | .fchdir => [.int]
  | .rename => [.path, .path]
  | .mkdir => [.path, .int]
  | .rmdir => [.path]
  | .creat => [.path, .int]
  | .link => [.path, .path]
  | .unlink => [.path]
  | .symlink => [.path, .path]
  | .readlink => [.path, .obj (fun _ => 0) (fun x => min (x.val 2).toNat 4096), .long]
  | .chmod => [.path, .int]
  | .fchmod => [.int, .int]
  | .chown | .lchown => [.path, .int, .int]
  | .fchown => [.int, .int, .int]
  | .umask => [.int]
  | .gettimeofday => [.output 16, .output 8]
  | .getrlimit => [.int, .output 16]
  | .getrusage => [.int, .output 144]
  | .sysinfo => [.output 112]
  | .times => [.output 32]
  | .getuid | .getgid | .geteuid | .getegid | .getppid | .getpgrp | .setsid | .gettid => []
  | .setuid | .setgid => [.int]
  | .setpgid => [.int, .int]
  | .setreuid | .setregid => [.int, .int]
  | .getgroups => [.int, .obj (fun _ => 0) (·.groupsOut)]
  | .setgroups => [.int, .obj (·.groupsIn) (fun _ => 0)]
  | .setresuid | .setresgid => [.int, .int, .int]
  | .getresuid | .getresgid => [.output 4, .output 4, .output 4]
  | .getpgid | .getsid => [.int]
  | .rt_sigpending => [.obj (fun _ => 0) (·.sigpendingLen 1), .long]
  | .rt_sigsuspend => [.obj (·.sigsetLen 1) (fun _ => 0), .long]
  | .rt_sigtimedwait =>
      [.obj (·.sigsetLen 3) (fun _ => 0), .output 128, .input 16, .long]
  | .rt_sigqueueinfo => [.int, .int, .input 128]
  | .sigaltstack => [.input 24, .output 24]
  | .utime => [.path, .input 16]
  | .personality => [.long]
  | .statfs => [.path, .output 120]
  | .fstatfs => [.int, .output 120]
  | .getpriority => [.int, .int]
  | .setpriority => [.int, .int, .int]
  | .chroot => [.path]
  | .sync => []
  -- the options of a file system are a string
  | .mount => [.path, .path, .path, .long, .path]
  | .umount2 => [.path, .int]
  | .futex => [.inout 4, .int, .int, .obj (·.futexTimeout) (fun _ => 0), .inout 4, .int]
  | .sched_getaffinity =>
      [.int, .long, .obj (fun _ => 0) (fun x => min (x.val 1).toNat x.kernel.cpumask)]
  | .set_tid_address => [.output 4]
  | .clock_gettime => [.int, .output 16]
  | .clock_getres => [.int, .output 16]
  | .epoll_ctl => [.int, .int, .int, .obj (·.eventLen) (fun _ => 0)]
  | .utimes => [.path, .input 32]
  | .openat => [.int, .path, .int, .int]
  | .fchownat => [.int, .path, .int, .int, .int]
  | .futimesat => [.int, .path, .input 32]
  | .newfstatat => [.int, .path, .output 144, .int]
  | .unlinkat => [.int, .path, .int]
  | .readlinkat => [.int, .path, .obj (fun _ => 0) (fun x => min (x.val 3).toNat 4096), .long]
  | .fchmodat => [.int, .path, .int, .int]
  | .faccessat => [.int, .path, .int, .int]
  | .pselect6 =>
      [.int, .obj (·.fdSetLen 0) (·.fdSetLen 0), .obj (·.fdSetLen 0) (·.fdSetLen 0),
       .obj (·.fdSetLen 0) (·.fdSetLen 0), .inout 16, .input 16]
  | .utimensat => [.int, .path, .input 32, .int]
  | .epoll_pwait =>
      [.int, .obj (fun _ => 0) (·.epollLen), .int, .int, .obj (·.sigsetLen 5) (fun _ => 0), .long]
  | .fallocate => [.int, .int, .long, .long]
  | .accept4 => [.int, .obj (fun _ => 0) (·.sockaddrRoom 2), .inout 4, .int]
  | .eventfd2 => [.int, .int]
  | .epoll_create1 => [.int]
  | .dup3 => [.int, .int, .int]
  | .pipe2 => [.output 8, .int]
  | .prlimit64 => [.int, .int, .input 16, .output 16]
  | .syncfs => [.int]
  | .getrandom => [.obj (fun _ => 0) (fun x => (x.val 1).toNat), .long, .int]

/-- The parameters of a host function, in order. -/
def params : HostFn → List Param
  | .sigaction => [.int, .input 152, .output 152]
  | .pthread_create => [.long]
  | .pselect =>
      [.int, .obj (·.fdSetLen 0) (·.fdSetLen 0), .obj (·.fdSetLen 0) (·.fdSetLen 0),
       .obj (·.fdSetLen 0) (·.fdSetLen 0), .input 16, .input 8]
  | .clock_gettime => [.int, .output 16]
  | .syscall n => sysParams n

/-! ## Views -/

/-- A segment of an array: whether its base is `NULL`, its length, and its
bytes when the kernel reads them. -/
structure SegView where
  null : Bool
  len : Word
  data : List Byte
  deriving DecidableEq

structure MsgView where
  nameNull : Bool
  namelen : BitVec 32
  name : List Byte
  iovlen : Word
  segs : List SegView
  controlNull : Bool
  controllen : Word
  control : List Byte
  flags : BitVec 32
  deriving DecidableEq

/-- What the kernel learns from one argument. -/
inductive ArgView
  | scalar (w : Word)
  | null
  /-- A string, with its terminator. -/
  | string (l : List Byte)
  /-- The bytes read of an object. -/
  | bytes (l : List Byte)
  | segs (l : List SegView)
  | msg (m : MsgView)
  deriving DecidableEq

/-- The `i`-th segment of an array at `p`. -/
def segView (mem : Word → Bytes) (data : Bool) (p : Word) (i : Nat) : SegView :=
  let base := load64 (mem p) (16 * i)
  let len := load64 (mem p) (16 * i + 8)
  ⟨base == 0, len, if data then take len.toNat (mem base) else []⟩

/-- The segments of an array of `n` at `p`; more than `UIO_MAXIOV` are
refused. -/
def segViews (mem : Word → Bytes) (data : Bool) (p : Word) (n : Nat) : List SegView :=
  if n ≤ 1024 then (List.range n).map (segView mem data p) else []

def msgView (mem : Word → Bytes) (data : Bool) (p : Word) : MsgView :=
  let h := mem p
  let name := load64 h 0
  let control := load64 h 32
  { nameNull := name == 0
    namelen := load32 h 8
    name := if data then take (load32 h 8).toNat (mem name) else []
    iovlen := load64 h 24
    segs := segViews mem data (load64 h 16) (load64 h 24).toNat
    controlNull := control == 0
    controllen := load64 h 40
    control := if data then take (load64 h 40).toNat (mem control) else []
    flags := load32 h 48 }

/-- An argument in the width of its parameter. -/
def Param.trunc : Param → Word → Word
  | .int, w => (w.setWidth 32).setWidth 64
  | _, w => w

def argView (x : KArgs) : Param → Word → ArgView
  | .int, w => .scalar ((w.setWidth 32).setWidth 64)
  | .long, w => .scalar w
  | .path, p => if p = 0 then .null else .string (cstr x.kernel.pathMax (x.mem p))
  | .obj read _, p => if p = 0 then .null else .bytes (take (read x) (x.mem p))
  | .iov data cnt, p =>
      if p = 0 then .null else .segs (segViews x.mem data p (x.int cnt).toNat)
  | .msg data, p => if p = 0 then .null else .msg (msgView x.mem data p)

/-- The arguments of a call in the widths of their parameters. -/
def kargs (K : Kernel) (fn : HostFn) (args : List Word) (mem : Word → Bytes) : KArgs :=
  ⟨K, fun i => (List.zipWith Param.trunc (params fn) args).getD i 0, mem⟩

@[simp] theorem kargs_mem (K : Kernel) (fn : HostFn) (args : List Word) (mem : Word → Bytes) :
    (kargs K fn args mem).mem = mem := rfl

@[simp] theorem kargs_kernel (K : Kernel) (fn : HostFn) (args : List Word) (mem : Word → Bytes) :
    (kargs K fn args mem).kernel = K := rfl

theorem kargs_val (K : Kernel) (fn : HostFn) (args : List Word) (mem : Word → Bytes) (i : Nat) :
    (kargs K fn args mem).val i = (List.zipWith Param.trunc (params fn) args).getD i 0 := rfl

/-- What the kernel learns from a call. Arguments beyond the parameters do not
reach it. -/
def kernelView (K : Kernel) (fn : HostFn) (args : List Word) (mem : Word → Bytes) :
    List ArgView :=
  List.zipWith (argView (kargs K fn args mem)) (params fn) args

end Porpoise.Shim
