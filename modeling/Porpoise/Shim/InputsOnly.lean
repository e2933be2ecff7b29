import Porpoise.Shim.InputVectors

/-!
# Only the inputs leave the enclave

`inputsOnlyWhen` says for every call when the bytes it writes before its ocalls
are the same in all runs that agree on its inputs; `inputs_only_iff` proves that
this is exact. A case fails by one of three ways: it copies a variable of four
bytes as eight, or a pointer array never set (never), it copies an output buffer,
or it copies more than the object's size. Another input object may happen to cover
the surplus, hence `Known`.
-/

namespace Porpoise.Shim

open Porpoise.Lib

variable {c : Ctx} {K : Kernel} {n : Sysno}

/-- A path is sent up to its terminator at most. -/
def PathWhole (c : Ctx) (p : Word) : Prop := memcpyLen (pathLen c p) ≤ strlen (c.mem.at p) + 1

/-- When the writes before the ocall are the same in both runs. -/
def inputsOnlyWhen (c : Ctx) (K : Kernel) : Sysno → Prop
  | .open_ | .stat | .lstat | .access | .chdir | .rmdir | .creat | .unlink | .readlink
  | .chmod | .chown | .lchown | .statfs | .chroot | .umount2 => PathWhole c c.a1
  | .openat | .fchownat | .newfstatat | .unlinkat | .readlinkat | .fchmodat | .faccessat =>
      PathWhole c c.a2
  -- with several inputs, one may cover what is beyond another
  | .rename | .link | .symlink =>
      Known [pathObj c c.a1, pathObj c c.a2] c.a1 (memcpyLen (pathLen c c.a1)) ∧
        Known [pathObj c c.a1, pathObj c c.a2] c.a2 (memcpyLen (pathLen c c.a2))
  | .utime => Known (inputs c K .utime) c.a1 (memcpyLen (pathLen c c.a1))
  | .utimes => Known (inputs c K .utimes) c.a1 (memcpyLen (pathLen c c.a1))
  | .futimesat => Known (inputs c K .futimesat) c.a2 (memcpyLen (pathLen c c.a2))
  | .utimensat =>
      c.a2 ≠ 0 → Known (inputs c K .utimensat) c.a2 (memcpyLen (pathLen c c.a2))
  | .mount =>
      (Known (inputs c K .mount) c.a1 (memcpyLen (pathLen c c.a1)) ∧
        Known (inputs c K .mount) c.a2 (memcpyLen (pathLen c c.a2)) ∧
        Known (inputs c K .mount) c.a3 (memcpyLen (pathLen c c.a3))) ∧
      (c.a5 ≠ 0 → Known (inputs c K .mount) c.a5 (memcpyLen (pathLen c c.a5)))
  -- the size of a pointer and one more
  | .truncate => 9 ≤ strlen (c.mem.at c.a1) + 1
  | .write | .pwrite64 => memcpyLen c.a3 ≤ c.a3.toNat
  | .poll => memcpyLen (8 * c.a2) ≤ 8 * c.a2.toNat
  | .connect | .bind => memcpyLen c.a3 ≤ intCount c.a3
  | .setsockopt => memcpyLen ((c.a5.setWidth 32).setWidth 64) ≤ intCount c.a5
  | .setgroups => c.a2 ≠ 0 → memcpyLen (c.a1 * 4) ≤ 4 * (c.a1.setWidth 32).toNat
  | .epoll_pwait => c.a5 ≠ 0 → memcpyLen c.a6 ≤ c.a6.toNat
  | .ioctl => c.a3 ≠ 0 → 32 ≤ K.ioctlIn c.a2
  -- 152 bytes of an object of 32
  | .rt_sigaction => c.a2 = 0
  -- 128 bytes of a set of `sigsetsize`, and of an output
  | .rt_sigprocmask =>
      (c.a2 ≠ 0 → Known (inputs c K .rt_sigprocmask) c.a2 128) ∧
        (c.a3 ≠ 0 → Known (inputs c K .rt_sigprocmask) c.a3 128)
  | .rt_sigsuspend => 128 ≤ c.a2.toNat
  | .rt_sigtimedwait =>
      Known (inputs c K .rt_sigtimedwait) c.a1 128 ∧ Known (inputs c K .rt_sigtimedwait) c.a2 128
  -- the buffer of an address or of an option is an output
  | .accept | .getsockname | .getpeername =>
      Known [⟨c.a3, 4⟩] c.a2 (memcpyLen (socklenAt c.mem c.a3))
  | .getsockopt => Known [⟨c.a5, 4⟩] c.a4 (memcpyLen (socklenAt c.mem c.a5))
  | .futex =>
      (c.a4 ≠ 0 → c.a4.sshiftRight 32 ≠ 0 → Known (inputs c K .futex) c.a4 16) ∧
        (c.a5 ≠ 0 → Known (inputs c K .futex) c.a5 8)
  -- `EPOLL_CTL_DEL` has no event
  | .epoll_ctl => c.a4 ≠ 0 → takesEvent (c.a2.setWidth 32)
  | .set_tid_address => c.a1 = 0
  | .pselect6 =>
      (c.a2 ≠ 0 → Known (inputs c K .pselect6) c.a2 128) ∧
      (c.a3 ≠ 0 → Known (inputs c K .pselect6) c.a3 8) ∧
      (c.a4 ≠ 0 → Known (inputs c K .pselect6) c.a4 128) ∧
      (load64 (c.mem.at c.a6) 0 ≠ 0 →
        Known (inputs c K .pselect6) (load64 (c.mem.at c.a6) 0) 128)
  | .writev =>
      ∀ i < intCount c.a3, Known (inputs c K .writev) (iovBase c.mem c.a2 i)
        (memcpyLen (iovLen c.mem c.a2 i))
  | .sendmsg =>
      Known (inputs c K .sendmsg) (msgName c.mem c.a2) (memcpyLen (msgNamelen c.mem c.a2)) ∧
      (∀ i < intCount (msgIovlen c.mem c.a2),
        Known (inputs c K .sendmsg) (iovBase c.mem (msgIov c.mem c.a2) i)
          (memcpyLen (iovLen c.mem (msgIov c.mem c.a2) i))) ∧
      Known (inputs c K .sendmsg) (msgControl c.mem c.a2) (memcpyLen (msgControllen c.mem c.a2))
  -- bytes of the stack, or outputs
  | .mkdir | .setuid | .setgid | .select | .sendto | .recvfrom | .gettimeofday | .rt_sigpending
  | .sched_getaffinity | .pipe2 | .alarm => False
  | _ => True

attribute [local simp] indep_sendPath indep_sendMem indep_send_mem indep_sendSocklen
  not_indep_sendIntAsLong known_nil_iff known_copy_iff known_path_iff known_singleton_iff
  known_object

/-- The flags for `NULL` are sent without being set. -/
theorem null_flags_not_inputs_only (hn : n ∈ flagCalls) : ¬ InputsOnly c K n := by
  have hphase : ∀ c, wrapPhases c n = [wrapSends c n] := fun c => wrapPhases_of_flags hn c
  have hlast : ∀ x, ((wrapSends (c.run x) n).map Store.written).getLast? =
      some (sendNullPtr (c.run x)).written := by
    intro x
    cases n
    all_goals first | exact absurd hn (by decide) | clear hn
    all_goals simp [wrapSends, List.getLast?_cons, List.getLast?_append]
  intro h
  exact not_indep_sendNullPtr (((inputsOnly_iff_sends hphase).mp h).last hlast)

/-- `alarm` runs on into `setitimer`, which copies 32 bytes. -/
theorem alarm_not_inputs_only : ¬ InputsOnly c K .alarm := by
  intro h
  by_cases h3 : c.a3 = 0#64 <;>
    simp [InputsOnly, written, wrapPhases, wrapSends, inputs, h3] at h

/-- The place of the signal set is an input itself. -/
theorem pselect6_inputs_only_iff : InputsOnly c K .pselect6 ↔ inputsOnlyWhen c K .pselect6 := by
  have hmask : ∀ x : Secret, Agrees (inputs c K .pselect6) x.mem c.mem →
      load64 (x.mem.at c.a6) 0 = load64 (c.mem.at c.a6) 0 := by
    intro x hx
    have hobj : ⟨c.a6, 16⟩ ∈ inputs c K .pselect6 :=
      List.mem_append_right _ (List.mem_cons_self ..)
    exact (hx.agreeOn (known_object hobj)).load64 (by decide)
  rw [inputsOnly_iff_sends fun _ => rfl]
  apply Iff.trans
  · apply indep_sameInputs
    intro x hx
    simp only [wrapSends, run_mem, run_a6, hmask x hx]
    rfl
  · by_cases h2 : c.a2 = 0#64 <;> by_cases h3 : c.a3 = 0#64 <;> by_cases h4 : c.a4 = 0#64 <;>
      by_cases h5 : c.a5 = 0#64 <;> by_cases h6 : load64 (c.mem.at c.a6) 0 = 0#64 <;>
      simp [inputs, inputsOnlyWhen, optObj, h2, h3, h4, h5, h6]

/-- **Only the inputs leave the enclave** exactly under `inputsOnlyWhen`. -/
theorem inputs_only_iff (c : Ctx) (K : Kernel) (n : Sysno) :
    InputsOnly c K n ↔ inputsOnlyWhen c K n := by
  cases n
  case select | sendto | recvfrom => exact iff_false_intro (null_flags_not_inputs_only (by decide))
  case alarm => exact iff_false_intro alarm_not_inputs_only
  case pselect6 => exact pselect6_inputs_only_iff
  case readv => exact iff_of_true readv_inputs_only trivial
  case recvmsg => exact iff_of_true recvmsg_inputs_only trivial
  case writev => exact writev_inputs_only_iff
  case sendmsg => exact sendmsg_inputs_only_iff
  -- only integers
  all_goals first
    | exact iff_of_true (fun _ _ _ => rfl) trivial
    | rw [inputsOnly_iff_sends fun _ => rfl]
  -- pointers that may be null
  case sigaltstack | set_tid_address =>
    by_cases h1 : c.a1 = 0#64 <;> simp [wrapSends, inputs, inputsOnlyWhen, optObj, h1]
  case utime | utimes | setgroups =>
    by_cases h2 : c.a2 = 0#64 <;> simp [wrapSends, inputs, inputsOnlyWhen, optObj, h2]
  case ioctl | setitimer | futimesat | accept4 =>
    by_cases h3 : c.a3 = 0#64 <;> simp [wrapSends, inputs, inputsOnlyWhen, optObj, h3]
  case epoll_ctl =>
    by_cases h4 : c.a4 = 0#64 <;> by_cases hop : takesEvent (c.a2.setWidth 32) <;>
      simp [wrapSends, inputs, inputsOnlyWhen, optObj, h4, hop]
  case mount | epoll_pwait =>
    by_cases h5 : c.a5 = 0#64 <;> simp [wrapSends, inputs, inputsOnlyWhen, optObj, h5, and_assoc]
  case rt_sigaction | rt_sigprocmask | utimensat =>
    by_cases h2 : c.a2 = 0#64 <;> by_cases h3 : c.a3 = 0#64 <;>
      simp [wrapSends, inputs, inputsOnlyWhen, optObj, h2, h3]
  case nanosleep =>
    by_cases h1 : c.a1 = 0#64 <;> by_cases h2 : c.a2 = 0#64 <;>
      simp [wrapSends, inputs, inputsOnlyWhen, optObj, h1, h2]
  case prlimit64 =>
    by_cases h3 : c.a3 = 0#64 <;> by_cases h4 : c.a4 = 0#64 <;>
      simp [wrapSends, inputs, inputsOnlyWhen, optObj, h3, h4]
  case futex =>
    by_cases h4 : c.a4 = 0#64 <;> by_cases h5 : c.a5 = 0#64 <;>
      by_cases hlong : c.a4.sshiftRight 32 = 0#64 <;>
      simp [wrapSends, inputs, inputsOnlyWhen, optObj, h4, h5, hlong]
  case truncate =>
    simp only [wrapSends, run_a1, run_a2, List.map_cons, List.map_nil, indep_cons, indep_const,
      indep_sendMem, and_true]
    exact known_path_iff
  all_goals simp [wrapSends, inputs, inputsOnlyWhen, PathWhole]

/-- `rt_sigaction(10, 4096, NULL, 8)`: the copy of the action is 152 bytes long,
the action 32. -/
theorem rt_sigaction_sends_more :
    ¬ InputsOnly (Ctx.plain 10 4096 0 8 0 0 fun _ => 0) linux .rt_sigaction := by
  intro h
  rw [inputsOnly_iff_sends fun _ => rfl] at h
  simp [wrapSends, inputs, optObj, Ctx.plain] at h

end Porpoise.Shim
