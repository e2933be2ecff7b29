import Porpoise.Shim.Sysno
import Porpoise.Shim.World

/-!
# The cases of `ocall_syscall`

`unwrapCase` gives, for each case of the host's switch, the calls it makes into
the host's C library, each with the expressions that make its arguments. Every
case but three makes one: `rt_sigreturn` makes none, `sync` falls through into
the case of `mount`, and a number without a case only prints a message.
-/

namespace Porpoise.Shim

open Porpoise.Lib

/-- An argument of a call that the host makes. -/
inductive Operand
  /-- `*arg`, also where the pointer read from there is the argument. -/
  | long (b : Buf)
  /-- `*(int*)arg`, and a `long` read from there and assigned to an `int`. A move
  of four bytes clears the other half of the register. -/
  | int (b : Buf)
  /-- `*(unsigned int*)arg`, likewise. -/
  | uint (b : Buf)
  /-- `arg` itself. -/
  | ptr (b : Buf)
  /-- `arg`, or `NULL` when `null_ptr[i]` is set. -/
  | ptrUnless (i : Nat) (b : Buf)
  | null
  /-- A variable without a value, or an argument that is not passed. -/
  | indet

/-- The value of an operand. -/
def Operand.eval (c : Ctx) (u : UMem) : Operand → Word
  | .long b => load64 (u (.buf b)) 0
  | .int b => (load32 (u (.buf b)) 0).setWidth 64
  | .uint b => (load32 (u (.buf b)) 0).setWidth 64
  | .ptr b => c.addr b
  | .ptrUnless i b => if u (.buf .arg7) i ≠ 0 then 0 else c.addr b
  | .null => 0
  | .indet => c.indet

/-- The functions of the host's C library that `ocall_syscall` calls. -/
inductive HostFn
  | syscall (n : Sysno)
  | sigaction
  | pthread_create
  | pselect
  | clock_gettime
  deriving DecidableEq

structure HostCall where
  fn : HostFn
  args : List Operand

/-- The calls of a case. -/
def unwrapCase : Sysno → List HostCall
  | .read => [⟨.syscall .read, [.int .arg1, .ptr .arg2, .long .arg3]⟩]
  | .write => [⟨.syscall .write, [.long .arg1, .ptr .arg2, .long .arg3]⟩]
  | .open_ => [⟨.syscall .open_, [.ptr .arg1, .long .arg2, .long .arg3]⟩]
  | .close => [⟨.syscall .close, [.int .arg1]⟩]
  | .stat => [⟨.syscall .stat, [.ptr .arg1, .ptr .arg2]⟩]
  | .lstat => [⟨.syscall .lstat, [.ptr .arg1, .ptr .arg2]⟩]
  | .fstat => [⟨.syscall .fstat, [.long .arg1, .ptr .arg2]⟩]
  | .poll => [⟨.syscall .poll, [.ptr .arg1, .long .arg2, .int .arg3]⟩]
  -- `a3` is read but not passed
  | .lseek => [⟨.syscall .lseek, [.long .arg1, .long .arg2, .indet]⟩]
  | .mmap =>
      [⟨.syscall .mmap,
        [.long .arg1, .long .arg2, .int .arg3, .int .arg4, .int .arg5, .long .arg6]⟩]
  | .mprotect => [⟨.syscall .mprotect, [.long .arg1, .long .arg2, .long .arg3]⟩]
  | .munmap => [⟨.syscall .munmap, [.long .arg1, .long .arg2]⟩]
  | .brk => [⟨.syscall .brk, [.long .arg1]⟩]
  -- the new action is not passed
  | .rt_sigaction => [⟨.sigaction, [.int .arg1, .null, .long .arg3]⟩]
  | .rt_sigprocmask =>
      [⟨.syscall .rt_sigprocmask, [.int .arg1, .long .arg2, .long .arg3, .long .arg4]⟩]
  | .rt_sigreturn => []
  | .ioctl => [⟨.syscall .ioctl, [.int .arg1, .long .arg2, .ptr .arg3]⟩]
  | .pread64 => [⟨.syscall .pread64, [.long .arg1, .ptr .arg2, .long .arg3, .long .arg4]⟩]
  | .pwrite64 => [⟨.syscall .pwrite64, [.long .arg1, .ptr .arg2, .long .arg3, .long .arg4]⟩]
  | .readv => [⟨.syscall .readv, [.long .arg1, .ptr .arg2, .long .arg3]⟩]
  | .writev => [⟨.syscall .writev, [.long .arg1, .ptr .arg2, .long .arg3]⟩]
  | .access => [⟨.syscall .access, [.ptr .arg1, .long .arg2]⟩]
  | .pipe => [⟨.syscall .pipe, [.ptr .arg1]⟩]
  | .select =>
      [⟨.syscall .select,
        [.int .arg1, .ptrUnless 2 .arg2, .ptrUnless 3 .arg3, .ptrUnless 4 .arg4,
         .ptrUnless 5 .arg5]⟩]
  | .sched_yield => [⟨.syscall .sched_yield, []⟩]
  | .mremap =>
      [⟨.syscall .mremap, [.long .arg1, .long .arg2, .long .arg3, .long .arg4, .long .arg5]⟩]
  | .msync => [⟨.syscall .msync, [.long .arg1, .long .arg2, .long .arg3]⟩]
  | .madvise => [⟨.syscall .madvise, [.long .arg1, .long .arg2, .int .arg3]⟩]
  | .dup => [⟨.syscall .dup, [.long .arg1]⟩]
  | .dup2 => [⟨.syscall .dup2, [.long .arg1, .long .arg2]⟩]
  | .nanosleep => [⟨.syscall .nanosleep, [.long .arg1, .long .arg2]⟩]
  | .getitimer => [⟨.syscall .getitimer, [.long .arg1, .ptr .arg2]⟩]
  | .alarm => [⟨.syscall .alarm, [.long .arg1]⟩]
  | .setitimer => [⟨.syscall .setitimer, [.long .arg1, .ptr .arg2, .long .arg3]⟩]
  | .getpid => [⟨.syscall .getpid, []⟩]
  | .socket => [⟨.syscall .socket, [.long .arg1, .long .arg2, .long .arg3]⟩]
  | .connect => [⟨.syscall .connect, [.long .arg1, .ptr .arg2, .long .arg3]⟩]
  | .accept => [⟨.syscall .accept, [.long .arg1, .ptr .arg2, .ptr .arg3]⟩]
  | .sendto =>
      [⟨.syscall .sendto,
        [.int .arg1, .ptrUnless 2 .arg2, .long .arg3, .int .arg4, .ptrUnless 5 .arg5,
         .uint .arg6]⟩]
  | .recvfrom =>
      [⟨.syscall .recvfrom,
        [.int .arg1, .ptrUnless 2 .arg2, .long .arg3, .int .arg4, .ptrUnless 5 .arg5,
         .ptrUnless 6 .arg6]⟩]
  | .sendmsg => [⟨.syscall .sendmsg, [.long .arg1, .ptr .arg2, .long .arg3]⟩]
  | .recvmsg => [⟨.syscall .recvmsg, [.long .arg1, .ptr .arg2, .long .arg3]⟩]
  | .shutdown => [⟨.syscall .shutdown, [.long .arg1, .long .arg2]⟩]
  | .bind => [⟨.syscall .bind, [.long .arg1, .ptr .arg2, .long .arg3]⟩]
  | .listen => [⟨.syscall .listen, [.long .arg1, .long .arg2]⟩]
  | .getsockname => [⟨.syscall .getsockname, [.long .arg1, .ptr .arg2, .ptr .arg3]⟩]
  | .getpeername => [⟨.syscall .getpeername, [.long .arg1, .ptr .arg2, .ptr .arg3]⟩]
  | .socketpair =>
      [⟨.syscall .socketpair, [.long .arg1, .long .arg2, .long .arg3, .ptr .arg4]⟩]
  | .setsockopt =>
      [⟨.syscall .setsockopt, [.int .arg1, .int .arg2, .int .arg3, .ptr .arg4, .uint .arg5]⟩]
  | .getsockopt =>
      [⟨.syscall .getsockopt, [.long .arg1, .long .arg2, .long .arg3, .ptr .arg4, .ptr .arg5]⟩]
  | .clone => [⟨.pthread_create, [.long .arg5]⟩]
  | .exit => [⟨.syscall .exit, [.long .arg1]⟩]
  | .kill => [⟨.syscall .kill, [.int .arg1, .long .arg2]⟩]
  | .uname => [⟨.syscall .uname, [.ptr .arg1]⟩]
  | .fcntl => [⟨.syscall .fcntl, [.int .arg1, .int .arg2, .int .arg3]⟩]
  | .fsync => [⟨.syscall .fsync, [.long .arg1]⟩]
  | .truncate => [⟨.syscall .truncate, [.ptr .arg1, .uint .arg2]⟩]
  | .ftruncate => [⟨.syscall .ftruncate, [.long .arg1, .uint .arg2]⟩]
  | .getdents => [⟨.syscall .getdents, [.long .arg1, .ptr .arg2, .long .arg3]⟩]
  | .getcwd => [⟨.syscall .getcwd, [.ptr .arg1, .long .arg2]⟩]
  | .chdir => [⟨.syscall .chdir, [.ptr .arg1]⟩]
  | .fchdir => [⟨.syscall .fchdir, [.long .arg1]⟩]
  | .rename => [⟨.syscall .rename, [.ptr .arg1, .ptr .arg2]⟩]
  | .mkdir => [⟨.syscall .mkdir, [.ptr .arg1, .uint .arg2]⟩]
  | .rmdir => [⟨.syscall .rmdir, [.ptr .arg1]⟩]
  | .creat => [⟨.syscall .creat, [.ptr .arg1, .long .arg2]⟩]
  | .link => [⟨.syscall .link, [.ptr .arg1, .ptr .arg2]⟩]
  | .unlink => [⟨.syscall .unlink, [.ptr .arg1]⟩]
  | .symlink => [⟨.syscall .symlink, [.ptr .arg1, .ptr .arg2]⟩]
  | .readlink => [⟨.syscall .readlink, [.ptr .arg1, .ptr .arg2, .long .arg3]⟩]
  | .chmod => [⟨.syscall .chmod, [.ptr .arg1, .uint .arg2]⟩]
  | .fchmod => [⟨.syscall .fchmod, [.long .arg1, .uint .arg2]⟩]
  | .chown => [⟨.syscall .chown, [.ptr .arg1, .uint .arg2, .uint .arg3]⟩]
  | .lchown => [⟨.syscall .lchown, [.ptr .arg1, .uint .arg2, .uint .arg3]⟩]
  | .fchown => [⟨.syscall .fchown, [.long .arg1, .uint .arg2, .uint .arg3]⟩]
  | .umask => [⟨.syscall .umask, [.uint .arg1]⟩]
  | .gettimeofday => [⟨.syscall .gettimeofday, [.ptr .arg1, .ptr .arg2]⟩]
  | .getrlimit => [⟨.syscall .getrlimit, [.long .arg1, .ptr .arg2]⟩]
  | .getrusage => [⟨.syscall .getrusage, [.long .arg1, .ptr .arg2]⟩]
  | .sysinfo => [⟨.syscall .sysinfo, [.ptr .arg1]⟩]
  | .times => [⟨.syscall .times, [.ptr .arg1]⟩]
  | .getuid => [⟨.syscall .getuid, []⟩]
  | .getgid => [⟨.syscall .getgid, [.uint .arg1]⟩]
  | .setuid => [⟨.syscall .setuid, [.uint .arg1]⟩]
  | .setgid => [⟨.syscall .setgid, [.long .arg1]⟩]
  | .geteuid => [⟨.syscall .geteuid, [.indet]⟩]
  | .getegid => [⟨.syscall .getegid, [.indet]⟩]
  | .setpgid => [⟨.syscall .setpgid, [.long .arg1, .long .arg2]⟩]
  | .getppid => [⟨.syscall .getppid, [.indet]⟩]
  | .getpgrp => [⟨.syscall .getpgrp, [.int .arg1]⟩]
  | .getpgid => [⟨.syscall .getpgid, [.int .arg1]⟩]
  | .setsid => [⟨.syscall .setsid, []⟩]
  | .setreuid => [⟨.syscall .setreuid, [.uint .arg1, .uint .arg2]⟩]
  | .setregid => [⟨.syscall .setregid, [.uint .arg1, .uint .arg2]⟩]
  | .getgroups => [⟨.syscall .getgroups, [.long .arg1, .ptr .arg2]⟩]
  | .setgroups => [⟨.syscall .setgroups, [.long .arg1, .ptr .arg2]⟩]
  | .setresuid => [⟨.syscall .setresuid, [.uint .arg1, .uint .arg2, .uint .arg3]⟩]
  | .getresuid => [⟨.syscall .getresuid, [.ptr .arg1, .ptr .arg2, .ptr .arg3]⟩]
  | .setresgid => [⟨.syscall .setresgid, [.uint .arg1, .uint .arg2, .uint .arg3]⟩]
  | .getresgid => [⟨.syscall .getresgid, [.ptr .arg1, .ptr .arg2, .ptr .arg3]⟩]
  | .getsid => [⟨.syscall .getsid, [.int .arg1]⟩]
  | .rt_sigsuspend => [⟨.syscall .rt_sigsuspend, [.ptr .arg1, .long .arg2]⟩]
  | .rt_sigpending => [⟨.syscall .rt_sigpending, [.ptr .arg1, .long .arg2]⟩]
  | .rt_sigtimedwait =>
      [⟨.syscall .rt_sigtimedwait, [.ptr .arg1, .ptr .arg2, .ptr .arg3, .long .arg4]⟩]
  | .rt_sigqueueinfo => [⟨.syscall .rt_sigqueueinfo, [.int .arg1, .int .arg2, .ptr .arg3]⟩]
  | .sigaltstack => [⟨.syscall .sigaltstack, [.ptr .arg1, .ptr .arg2]⟩]
  | .utime => [⟨.syscall .utime, [.ptr .arg1, .long .arg2]⟩]
  | .personality => [⟨.syscall .personality, [.long .arg1]⟩]
  | .statfs => [⟨.syscall .statfs, [.ptr .arg1, .ptr .arg2]⟩]
  | .fstatfs => [⟨.syscall .fstatfs, [.long .arg1, .ptr .arg2]⟩]
  | .getpriority => [⟨.syscall .getpriority, [.long .arg1, .uint .arg2]⟩]
  | .setpriority => [⟨.syscall .setpriority, [.long .arg1, .uint .arg2, .long .arg3]⟩]
  | .chroot => [⟨.syscall .chroot, [.ptr .arg1]⟩]
  | .sync =>
      [⟨.syscall .sync, []⟩,
       ⟨.syscall .sync, [.ptr .arg1, .ptr .arg2, .ptr .arg3, .long .arg4, .long .arg5]⟩]
  | .mount =>
      [⟨.syscall .mount, [.ptr .arg1, .ptr .arg2, .ptr .arg3, .long .arg4, .long .arg5]⟩]
  | .umount2 => [⟨.syscall .umount2, [.ptr .arg1, .long .arg2]⟩]
  | .gettid => [⟨.syscall .gettid, []⟩]
  -- the second address and the last value are both taken from `arg5`
  | .futex =>
      [⟨.syscall .futex,
        [.long .arg1, .long .arg2, .long .arg3, .long .arg4, .ptr .arg5, .long .arg5]⟩]
  | .sched_getaffinity => [⟨.syscall .sched_getaffinity, [.int .arg1, .long .arg2, .ptr .arg3]⟩]
  | .getdents64 => [⟨.syscall .getdents64, [.uint .arg1, .ptr .arg2, .uint .arg3]⟩]
  | .set_tid_address => [⟨.syscall .set_tid_address, [.long .arg1]⟩]
  | .clock_gettime => [⟨.clock_gettime, [.int .arg1, .ptr .arg2]⟩]
  | .clock_getres => [⟨.syscall .clock_getres, [.int .arg1, .ptr .arg2]⟩]
  | .exit_group => [⟨.syscall .exit_group, [.long .arg1]⟩]
  | .epoll_ctl => [⟨.syscall .epoll_ctl, [.int .arg1, .int .arg2, .int .arg3, .long .arg4]⟩]
  | .utimes => [⟨.syscall .utimes, [.ptr .arg1, .long .arg2]⟩]
  | .openat => [⟨.syscall .openat, [.long .arg1, .ptr .arg2, .long .arg3, .uint .arg4]⟩]
  | .fchownat =>
      [⟨.syscall .fchownat, [.long .arg1, .ptr .arg2, .uint .arg3, .uint .arg4, .long .arg5]⟩]
  | .futimesat => [⟨.syscall .futimesat, [.long .arg1, .ptr .arg2, .long .arg3]⟩]
  | .newfstatat =>
      [⟨.syscall .newfstatat, [.long .arg1, .ptr .arg2, .ptr .arg3, .long .arg4]⟩]
  | .unlinkat => [⟨.syscall .unlinkat, [.long .arg1, .ptr .arg2, .long .arg3]⟩]
  | .readlinkat => [⟨.syscall .readlinkat, [.long .arg1, .ptr .arg2, .ptr .arg3, .long .arg4]⟩]
  | .fchmodat => [⟨.syscall .fchmodat, [.long .arg1, .ptr .arg2, .uint .arg3, .long .arg4]⟩]
  | .faccessat => [⟨.syscall .faccessat, [.long .arg1, .ptr .arg2, .long .arg3, .long .arg4]⟩]
  | .pselect6 =>
      [⟨.pselect,
        [.int .arg1, .long .arg2, .long .arg3, .long .arg4, .long .arg5, .long .arg6]⟩]
  | .utimensat => [⟨.syscall .utimensat, [.long .arg1, .long .arg2, .long .arg3, .long .arg4]⟩]
  -- the signal mask is not passed
  | .epoll_pwait =>
      [⟨.syscall .epoll_pwait,
        [.int .arg1, .ptr .arg2, .int .arg3, .int .arg4, .null, .long .arg6]⟩]
  | .fallocate => [⟨.syscall .fallocate, [.long .arg1, .long .arg2, .long .arg3, .long .arg4]⟩]
  | .accept4 => [⟨.syscall .accept4, [.int .arg1, .ptr .arg2, .ptr .arg3, .int .arg4]⟩]
  | .eventfd2 => [⟨.syscall .eventfd2, [.uint .arg1, .int .arg2]⟩]
  | .epoll_create1 => [⟨.syscall .epoll_create1, [.int .arg1]⟩]
  | .dup3 => [⟨.syscall .dup3, [.long .arg1, .long .arg2, .long .arg3]⟩]
  | .pipe2 => [⟨.syscall .pipe2, [.ptr .arg1, .int .arg2]⟩]
  | .prlimit64 => [⟨.syscall .prlimit64, [.int .arg1, .long .arg2, .long .arg3, .long .arg4]⟩]
  | .syncfs => [⟨.syscall .syncfs, [.long .arg1]⟩]
  | .getrandom => [⟨.syscall .getrandom, [.ptr .arg1, .long .arg2, .uint .arg3]⟩]

end Porpoise.Shim
