import Porpoise.Shim.Call

/-!
# The host decodes what the enclave encoded

For the calls whose arguments are integers and paths only, the request that the
kernel gets is the one that the caller made: `callerRequest` views the caller's
arguments on enclave memory, and `decode_encode` says that the host's request
has the same view, whatever the slot held before.
-/

namespace Porpoise.Shim

open Porpoise.Lib

variable {c : Ctx} {K : Kernel} {n : Sysno} {r : Word} {u : UMem}

namespace Ctx

def args (c : Ctx) : List Word := [c.a1, c.a2, c.a3, c.a4, c.a5, c.a6]

/-- The arguments that are paths. -/
def pathArgs (c : Ctx) (n : Sysno) : List Word :=
  (List.zip (params (.syscall n)) c.args).filterMap fun
    | (.path, p) => some p
    | _ => none

/-- The request that the caller makes. -/
def request (c : Ctx) (K : Kernel) (n : Sysno) : Request :=
  ⟨.syscall n, kernelView K (.syscall n) c.args c.mem.at⟩

end Ctx

/-- The calls that only take integers and paths and whose cases pass them on. -/
def plainCalls : List Sysno :=
  [.open_, .close, .access, .mmap, .mprotect, .munmap, .brk, .mremap, .msync, .madvise, .dup,
   .dup2, .dup3, .socket, .listen, .shutdown, .kill, .exit, .exit_group, .fsync, .syncfs,
   .fchdir, .chdir, .rename, .mkdir, .rmdir, .creat, .link, .unlink, .symlink, .chmod, .fchmod,
   .chown, .lchown, .fchown, .umask, .setuid, .setgid, .setpgid, .getpgid, .getsid, .setreuid,
   .setregid, .setresuid, .setresgid, .getpriority, .setpriority, .personality, .chroot,
   .umount2, .fallocate, .eventfd2, .epoll_create1, .fchownat, .unlinkat, .fchmodat, .faccessat]

/-- A string with its terminator fits a buffer. -/
def Ctx.FitsPath (c : Ctx) (p : Word) : Prop := p ≠ 0 ∧ strlen (c.mem.at p) + 1 ≤ bufSize

theorem Ctx.FitsPath.ne_zero {p : Word} (h : c.FitsPath p) : (p = 0#64) = False := eq_false h.1

/-- A zero byte early enough is enough. -/
theorem Ctx.fitsPath_of_zero {p : Word} (hp : p ≠ 0) (k : Nat) (hk : k < bufSize)
    (hzero : c.mem.at p k = 0) : c.FitsPath p := by
  rw [bufSize] at hk
  have hlen := strlen_le (by omega) hzero
  exact ⟨hp, by rw [bufSize]; omega⟩

theorem Ctx.FitsPath.short {p : Word} (h : c.FitsPath p) :
    strlen (c.mem.at p) + 1 < 2 ^ 31 := by
  have hfits := h.2
  rw [bufSize] at hfits
  omega

/-- The length of a path is sent as it is when an `int` carries it. -/
theorem memcpyLen_pathLen {p : Word} (h : strlen (c.mem.at p) + 1 < 2 ^ 31) :
    memcpyLen (pathLen c p) = strlen (c.mem.at p) + 1 := by
  have hadd : pathLen c p = BitVec.ofNat 64 (strlen (c.mem.at p) + 1) := by
    rw [pathLen, BitVec.ofNat_add]
    rfl
  rw [hadd, memcpyLen_ofNat h]

/-- The kernel reads such a path from the buffer as from the enclave. -/
theorem cstr_sent_short {p : Word} (h : strlen (c.mem.at p) + 1 < 2 ^ 31) (limit : Nat)
    (f : Bytes) :
    cstr limit (overlay 0 (memcpyLen (pathLen c p)) (c.mem.at p) f) = cstr limit (c.mem.at p) := by
  refine cstr_overlay ?_ f
  rw [memcpyLen_pathLen h]
  exact cstrLen_le_strlen limit (by omega)

theorem cstr_sent_path {p : Word} (h : c.FitsPath p) (limit : Nat) (f : Bytes) :
    cstr limit (overlay 0 (memcpyLen (pathLen c p)) (c.mem.at p) f) = cstr limit (c.mem.at p) :=
  cstr_sent_short h.short limit f

theorem wrapPhases_of_plain (hn : n ∈ plainCalls) (c : Ctx) : wrapPhases c n = [wrapSends c n] := by
  cases n <;> first | rfl | exact absurd hn (by decide)

/-- **Decode undoes encode.** For every integer argument, every path that fits a
buffer and every content of the slot, the kernel gets the caller's request and
no other: each integer in the width of its parameter, each path byte for byte. -/
theorem decode_encode (hn : n ∈ plainCalls) (hpath : ∀ p ∈ c.pathArgs n, c.FitsPath p)
    (K : Kernel) (r : Word) (u : UMem) : requests c K r n u = [[c.request K n]] := by
  rw [requests_eq (wrapPhases_of_plain hn c)]
  cases n <;> (first | exact absurd hn (by decide) | skip)
  -- which arguments are paths
  all_goals
    simp only [Ctx.pathArgs, params, sysParams, Ctx.args, List.zip, List.zipWith, List.filterMap,
      List.forall_mem_cons] at hpath
  -- the two requests, argument by argument
  all_goals simp only [unwrapCase, List.map_cons, List.map_nil, Ctx.request]
  all_goals
    simp only [HostCall.request, kernelView, params, sysParams, Ctx.args, List.map_cons,
      List.map_nil, List.zipWith, argView, Operand.eval, kargs]
  -- what the host reads is what the enclave wrote
  all_goals
    simp only [sent, wrapSends, applyAll_cons, applyAll_nil, sendInt_apply, sendLong_apply,
      sendNr_apply, sendPath_apply, sendIntAsLong_apply, Region.buf.injEq, reduceCtorEq, if_true,
      if_false, Ctx.region_addr]
  all_goals simp [hpath, Ctx.FitsPath.ne_zero (c := c), cstr_sent_path]

/-- `chmod("a", 0777)`. -/
theorem decode_encode_chmod :
    requests (Ctx.plain 16 0o777 0 0 0 0 fun p => if p = 16 then 97 else 0)
        linux 0 .chmod (fun _ _ => 255) =
      [[(Ctx.plain 16 0o777 0 0 0 0 fun p => if p = 16 then 97 else 0).request linux .chmod]] := by
  refine decode_encode (by decide) ?_ _ 0 fun _ _ => 255
  intro p hp
  obtain rfl : p = 16 := List.mem_singleton.mp hp
  exact Ctx.fitsPath_of_zero (by decide) 1 (by decide) rfl

end Porpoise.Shim
