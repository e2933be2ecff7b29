import Mathlib.Tactic.TypeStar

/-!
# System call numbers

The system calls that have a `case` in `__syscall_wrap` (enclave) or in
`ocall_syscall` (host), with their x86-64 numbers from the C library's
`bits/syscall.h`. Every one but `getitimer`, which only the host decodes, has
a case in both switches.
-/

namespace Porpoise

/-- The `__NR_*` constants the two switches mention. -/
inductive Sysno
  | read | write | open_ | close | stat | fstat | lstat | poll | lseek | mmap | mprotect
  | munmap | brk | rt_sigaction | rt_sigprocmask | rt_sigreturn | ioctl | pread64 | pwrite64
  | readv | writev | access | pipe | select | sched_yield | mremap | msync | madvise | dup
  | dup2 | nanosleep | getitimer | alarm | setitimer | getpid | socket | connect | accept
  | sendto | recvfrom | sendmsg | recvmsg | shutdown | bind | listen | getsockname
  | getpeername | socketpair | setsockopt | getsockopt | clone | exit | kill | uname | fcntl
  | fsync | truncate | ftruncate | getdents | getcwd | chdir | fchdir | rename | mkdir | rmdir
  | creat | link | unlink | symlink | readlink | chmod | fchmod | chown | fchown | lchown
  | umask | gettimeofday | getrlimit | getrusage | sysinfo | times | getuid | getgid | setuid
  | setgid | geteuid | getegid | setpgid | getppid | getpgrp | setsid | setreuid | setregid
  | getgroups | setgroups | setresuid | getresuid | setresgid | getresgid | getpgid | getsid
  | rt_sigpending | rt_sigtimedwait | rt_sigqueueinfo | rt_sigsuspend | sigaltstack | utime
  | personality | statfs | fstatfs | getpriority | setpriority | chroot | sync | mount
  | umount2 | gettid | futex | sched_getaffinity | getdents64 | set_tid_address | clock_gettime
  | clock_getres | exit_group | epoll_ctl | utimes | openat | fchownat | futimesat | newfstatat
  | unlinkat | readlinkat | fchmodat | faccessat | pselect6 | utimensat | epoll_pwait
  | fallocate | accept4 | eventfd2 | epoll_create1 | dup3 | pipe2 | prlimit64 | syncfs
  | getrandom
  deriving DecidableEq, Repr

namespace Sysno

/-- The number itself. -/
def nr : Sysno → Nat
  | .read => 0 | .write => 1 | .open_ => 2 | .close => 3 | .stat => 4 | .fstat => 5
  | .lstat => 6 | .poll => 7 | .lseek => 8 | .mmap => 9 | .mprotect => 10 | .munmap => 11
  | .brk => 12 | .rt_sigaction => 13 | .rt_sigprocmask => 14 | .rt_sigreturn => 15
  | .ioctl => 16 | .pread64 => 17 | .pwrite64 => 18 | .readv => 19 | .writev => 20
  | .access => 21 | .pipe => 22 | .select => 23 | .sched_yield => 24 | .mremap => 25
  | .msync => 26 | .madvise => 28 | .dup => 32 | .dup2 => 33 | .nanosleep => 35
  | .getitimer => 36 | .alarm => 37 | .setitimer => 38 | .getpid => 39 | .socket => 41
  | .connect => 42 | .accept => 43 | .sendto => 44 | .recvfrom => 45 | .sendmsg => 46
  | .recvmsg => 47 | .shutdown => 48 | .bind => 49 | .listen => 50 | .getsockname => 51
  | .getpeername => 52 | .socketpair => 53 | .setsockopt => 54 | .getsockopt => 55
  | .clone => 56 | .exit => 60 | .kill => 62 | .uname => 63 | .fcntl => 72 | .fsync => 74
  | .truncate => 76 | .ftruncate => 77 | .getdents => 78 | .getcwd => 79 | .chdir => 80
  | .fchdir => 81 | .rename => 82 | .mkdir => 83 | .rmdir => 84 | .creat => 85 | .link => 86
  | .unlink => 87 | .symlink => 88 | .readlink => 89 | .chmod => 90 | .fchmod => 91
  | .chown => 92 | .fchown => 93 | .lchown => 94 | .umask => 95 | .gettimeofday => 96
  | .getrlimit => 97 | .getrusage => 98 | .sysinfo => 99 | .times => 100 | .getuid => 102
  | .getgid => 104 | .setuid => 105 | .setgid => 106 | .geteuid => 107 | .getegid => 108
  | .setpgid => 109 | .getppid => 110 | .getpgrp => 111 | .setsid => 112 | .setreuid => 113
  | .setregid => 114 | .getgroups => 115 | .setgroups => 116 | .setresuid => 117
  | .getresuid => 118 | .setresgid => 119 | .getresgid => 120 | .getpgid => 121
  | .getsid => 124 | .rt_sigpending => 127 | .rt_sigtimedwait => 128 | .rt_sigqueueinfo => 129
  | .rt_sigsuspend => 130 | .sigaltstack => 131 | .utime => 132 | .personality => 135
  | .statfs => 137 | .fstatfs => 138 | .getpriority => 140 | .setpriority => 141
  | .chroot => 161 | .sync => 162 | .mount => 165 | .umount2 => 166 | .gettid => 186
  | .futex => 202 | .sched_getaffinity => 204 | .getdents64 => 217 | .set_tid_address => 218
  | .clock_gettime => 228 | .clock_getres => 229 | .exit_group => 231 | .epoll_ctl => 233
  | .utimes => 235 | .openat => 257 | .fchownat => 260 | .futimesat => 261 | .newfstatat => 262
  | .unlinkat => 263 | .readlinkat => 267 | .fchmodat => 268 | .faccessat => 269
  | .pselect6 => 270 | .utimensat => 280 | .epoll_pwait => 281 | .fallocate => 285
  | .accept4 => 288 | .eventfd2 => 290 | .epoll_create1 => 291 | .dup3 => 292 | .pipe2 => 293
  | .prlimit64 => 302 | .syncfs => 306 | .getrandom => 318

/-- All of them, in the order of their numbers. -/
def all : List Sysno :=
  [.read, .write, .open_, .close, .stat, .fstat, .lstat, .poll, .lseek, .mmap, .mprotect,
   .munmap, .brk, .rt_sigaction, .rt_sigprocmask, .rt_sigreturn, .ioctl, .pread64, .pwrite64,
   .readv, .writev, .access, .pipe, .select, .sched_yield, .mremap, .msync, .madvise, .dup,
   .dup2, .nanosleep, .getitimer, .alarm, .setitimer, .getpid, .socket, .connect, .accept,
   .sendto, .recvfrom, .sendmsg, .recvmsg, .shutdown, .bind, .listen, .getsockname,
   .getpeername, .socketpair, .setsockopt, .getsockopt, .clone, .exit, .kill, .uname, .fcntl,
   .fsync, .truncate, .ftruncate, .getdents, .getcwd, .chdir, .fchdir, .rename, .mkdir, .rmdir,
   .creat, .link, .unlink, .symlink, .readlink, .chmod, .fchmod, .chown, .fchown, .lchown,
   .umask, .gettimeofday, .getrlimit, .getrusage, .sysinfo, .times, .getuid, .getgid, .setuid,
   .setgid, .geteuid, .getegid, .setpgid, .getppid, .getpgrp, .setsid, .setreuid, .setregid,
   .getgroups, .setgroups, .setresuid, .getresuid, .setresgid, .getresgid, .getpgid, .getsid,
   .rt_sigpending, .rt_sigtimedwait, .rt_sigqueueinfo, .rt_sigsuspend, .sigaltstack, .utime,
   .personality, .statfs, .fstatfs, .getpriority, .setpriority, .chroot, .sync, .mount,
   .umount2, .gettid, .futex, .sched_getaffinity, .getdents64, .set_tid_address,
   .clock_gettime, .clock_getres, .exit_group, .epoll_ctl, .utimes, .openat, .fchownat,
   .futimesat, .newfstatat, .unlinkat, .readlinkat, .fchmodat, .faccessat, .pselect6,
   .utimensat, .epoll_pwait, .fallocate, .accept4, .eventfd2, .epoll_create1, .dup3, .pipe2,
   .prlimit64, .syncfs, .getrandom]

/-- The `case` label a number selects, if there is one. -/
def ofNr? (k : Nat) : Option Sysno := all.find? fun n => n.nr == k

@[simp] theorem ofNr?_nr (n : Sysno) : ofNr? n.nr = some n := by
  cases n <;> rfl

theorem nr_lt (n : Sysno) : n.nr < 351 := by
  cases n <;> decide

end Sysno

end Porpoise
