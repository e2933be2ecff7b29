import Porpoise.Lib.Indep
import Porpoise.Shim.Call

/-!
# What a request owes to earlier calls

A slot keeps what earlier calls left in it. Two runs of a call that start from
`SameOutside` memories differ in nothing else; a request that is independent of
the difference (`Indep SameOutside`) owes nothing to the slot's past.

* What the enclave writes in this call is the same in both runs, and so is
  everything outside `arg1` to `arg8`. Behind a buffer lies another one, so that a
  read past its end is a read of the slot's past, too.
* `indep_string` and `indep_bytes` decide one argument: the kernel must not read
  further than the copy of this call went.
* `Independent` asks for all that may be issued (`Issued`), and so for stores that
  stay in their buffers.
-/

namespace Porpoise.Shim

open Porpoise.Lib

/-- Memories that differ at most in the buffers `arg1` to `arg8`, and behind them. -/
structure SameOutside (u u' : UMem) : Prop where
  heap : ∀ p, u (.heap p) = u' (.heap p)
  arg0 : u (.buf .arg0) = u' (.buf .arg0)
  err_no : u (.buf .err_no) = u' (.buf .err_no)

variable {c : Ctx} {K : Kernel} {u u' : UMem} {b : Buf}

/-! ## Two memories -/

/-- One byte of one buffer, zeroes elsewhere. -/
def poke (b : Buf) (k : Nat) (x : Byte) : UMem :=
  fun r i => if r = .buf b ∧ i = k then x else 0

theorem poke_self (b : Buf) (k : Nat) (x : Byte) : poke b k x (.buf b) k = x := by
  simp [poke]

theorem sameOutside_poke (h0 : b ≠ .arg0) (he : b ≠ .err_no) (k : Nat) (x y : Byte) :
    SameOutside (poke b k x) (poke b k y) where
  heap _ := by
    funext i
    simp [poke]
  arg0 := by
    funext i
    simp [poke, h0.symm]
  err_no := by
    funext i
    simp [poke, he.symm]

/-- The same write keeps the memories related. -/
theorem SameOutside.apply (h : SameOutside u u') (s : Store) :
    SameOutside (s.apply u) (s.apply u') where
  heap p := by
    rw [apply_eq, apply_eq, h.heap]
  arg0 := by
    rw [apply_eq, apply_eq, h.arg0]
  err_no := by
    rw [apply_eq, apply_eq, h.err_no]

theorem SameOutside.applyAll (h : SameOutside u u') (ss : List Store) :
    SameOutside (applyAll ss u) (applyAll ss u') := by
  induction ss generalizing u u' with
  | nil => exact h
  | cons s ss ih => exact ih (h.apply s)

theorem SameOutside.symm (h : SameOutside u u') : SameOutside u' u where
  heap p := (h.heap p).symm
  arg0 := h.arg0.symm
  err_no := h.err_no.symm

/-! ## One argument -/

section Arguments

variable (h0 : b ≠ .arg0) (he : b ≠ .err_no)

/-- A request is independent exactly when its arguments are. -/
theorem indep_request {fn : HostFn} {f : UMem → List ArgView} :
    (Indep SameOutside fun u => Request.mk fn (f u)) ↔ Indep SameOutside f := by
  refine indep_injective (g := Request.mk fn) ?_
  intro l l' hl
  exact (Request.mk.inj hl).2

include h0 he

theorem indep_take (n k : Nat) (v : Bytes) :
    (Indep SameOutside fun u => take n (overlay 0 k v (u (.buf b)))) ↔ n ≤ k := by
  constructor
  · intro h
    by_contra hlt
    have hview := h _ _ (sameOutside_poke h0 he k 0 1)
    have hk := take_eq_iff.mp hview k (by omega)
    rw [overlay_of_not (by omega), overlay_of_not (by omega), poke_self, poke_self] at hk
    exact absurd hk (by decide)
  · intro hle u u' _
    refine take_congr fun i hi => ?_
    have hin : 0 ≤ i ∧ i < 0 + k := by omega
    simp [overlay, Nat.lt_of_lt_of_le hi hle]

/-- **Bytes.** The kernel may read as far as the copy of this call went. -/
theorem indep_bytes (n k : Nat) (v : Bytes) :
    (Indep SameOutside fun u => ArgView.bytes (take n (overlay 0 k v (u (.buf b))))) ↔ n ≤ k :=
  (indep_injective fun _ _ => ArgView.bytes.inj).trans (indep_take h0 he n k v)

/-- Bytes of a buffer that this call did not fill. -/
theorem indep_bytes_unsent (n : Nat) :
    (Indep SameOutside fun u => ArgView.bytes (take n (u (.buf b)))) ↔ n = 0 := by
  constructor
  · intro h
    by_contra hn
    have hview := h _ _ (sameOutside_poke h0 he 0 0 1)
    have hk := take_eq_iff.mp (ArgView.bytes.inj hview) 0 (by omega)
    rw [poke_self, poke_self] at hk
    exact absurd hk (by decide)
  · rintro rfl u u' _
    rfl

/-- **Strings.** The copy must have gone as far as the kernel reads the caller's
string. -/
theorem indep_string (limit k : Nat) (v : Bytes) :
    (Indep SameOutside fun u => ArgView.string (cstr limit (overlay 0 k v (u (.buf b))))) ↔
      cstrLen limit v ≤ k := by
  constructor
  · intro h
    by_contra hlt
    have hlimit := cstrLen_le limit v
    have hview := h _ _ (sameOutside_poke h0 he k 0 1)
    -- the byte after the copy is read, as no byte before it is zero
    have hread : ∀ x, (cstr limit (overlay 0 k v (poke b k x (.buf b))))[k]? = some x := by
      intro x
      rw [getElem?_cstr (by omega), overlay_of_not (by omega), poke_self]
      intro j hj
      have hcopy : overlay 0 k v (poke b k x (.buf b)) j = v j := by
        simp [overlay, hj]
      rw [hcopy]
      exact ne_zero_of_lt_cstrLen (by omega : k < cstrLen limit v) hj
    have hk := congrArg (·[k]?) (ArgView.string.inj hview)
    simp only [hread] at hk
    exact absurd hk (by decide)
  · intro hle u u' _
    exact congrArg ArgView.string ((cstr_overlay hle _).trans (cstr_overlay hle _).symm)

/-- An integer that this call did not store. -/
theorem not_indep_int :
    (Indep SameOutside fun u => ArgView.scalar ((load32 (u (.buf b)) 0).setWidth 64)) ↔ False := by
  refine iff_false_intro fun h => ?_
  have hview := ArgView.scalar.inj (h _ _ (sameOutside_poke h0 he 0 0 1))
  simp [load32, poke] at hview

end Arguments

/-- A pointer that is `NULL` or not as a byte of `null_ptr` says which this call
did not store. -/
theorem not_indep_ptrUnless {p : Word} (hp : p ≠ 0) (i : Nat) (f : UMem → List Byte) :
    (Indep SameOutside fun u =>
      if (if u (.buf .arg7) i ≠ 0 then 0 else p) = 0 then ArgView.null else .bytes (f u)) ↔
      False := by
  refine iff_false_intro fun h => ?_
  have hview := h _ _ (sameOutside_poke (by decide : Buf.arg7 ≠ .arg0) (by decide) i 0 1)
  simp only [poke, and_self, if_true] at hview
  exact hp (by simpa using hview)

/-- Bytes of a block are the same in both runs. -/
theorem indep_bytes_heap (n k : Nat) (v : Bytes) (p : Word) :
    Indep SameOutside fun u => ArgView.bytes (take n (overlay 0 k v (u (.heap p)))) := by
  intro u u' h
  show ArgView.bytes (take n (overlay 0 k v (u (.heap p)))) = _
  rw [h.heap]

/-! ## When a request is independent -/

/-- The copy of `len` bytes covers the `n` bytes that the kernel reads. The
length passes through an `int`. -/
def Covers (len : Word) (n : Nat) : Prop := n ≤ memcpyLen len

/-- The copy of a path covers what the kernel reads of it. -/
def CoversPath (c : Ctx) (K : Kernel) (p : Word) : Prop :=
  Covers (pathLen c p) (cstrLen K.pathMax (c.mem.at p))

/-- The segments that `writev` has buffers for, each covered by its copy. -/
def CoversSegs (c : Ctx) : Prop :=
  intCount c.a3 ≤ 5 ∧ ∀ i < intCount c.a3,
    Covers (iovLen c.mem c.a2 i) (iovLen c.mem c.a2 i).toNat

/-- When the request of a call, whose stores stay, is independent of the slot's
past. -/
def independentWhen (c : Ctx) (K : Kernel) : Sysno → Prop
  | .open_ | .stat | .lstat | .access | .chdir | .mkdir | .rmdir | .creat | .unlink | .readlink
  | .chmod | .chown | .lchown | .utime | .statfs | .chroot | .umount2 | .utimes =>
      CoversPath c K c.a1
  | .openat | .fchownat | .futimesat | .newfstatat | .unlinkat | .readlinkat | .fchmodat
  | .faccessat => CoversPath c K c.a2
  | .rename | .link | .symlink => CoversPath c K c.a1 ∧ CoversPath c K c.a2
  | .mount =>
      CoversPath c K c.a1 ∧ CoversPath c K c.a2 ∧ CoversPath c K c.a3 ∧
        (c.a5 ≠ 0 → CoversPath c K c.a5)
  | .utimensat => c.a2 ≠ 0 → CoversPath c K c.a2
  | .truncate => cstrLen K.pathMax (c.mem.at c.a1) ≤ 9
  | .write | .pwrite64 => Covers c.a3 (rwBytes c.a3)
  | .poll => c.a2.toNat ≤ K.nofile → Covers (8 * c.a2) (8 * c.a2.toNat)
  | .ioctl => if c.a3 = 0 then K.ioctlIn c.a2 = 0 else K.ioctlIn c.a2 ≤ 32
  | .writev => 1024 < intCount c.a3 ∨ CoversSegs c
  | .setgroups => c.a2 = 0 → (c.a1.setWidth 32).toNat = 0 ∨ 65536 < (c.a1.setWidth 32).toNat
  | .sigaltstack => c.a1 ≠ 0
  | .accept4 => c.a3 ≠ 0
  | .futex => c.a4 ≠ 0 → c.a4.sshiftRight 32 = 0 → ¬ takesTimeout (c.a2.setWidth 32)
  | .select | .pselect6 | .sendto | .recvfrom | .alarm => False
  | _ => True

/-- The requests from the slot are the same whatever earlier calls left. -/
def SlotFree (c : Ctx) (K : Kernel) (n : Sysno) : Prop :=
  ∀ result, Indep SameOutside (requests c K result n)

/-- **The request of a call** is the same whatever earlier calls left. -/
def Independent (c : Ctx) (K : Kernel) (n : Sysno) : Prop :=
  ∀ result u u', SameOutside u u' → ∀ rs rs',
    Issued c n (requests c K result n u) rs → Issued c n (requests c K result n u') rs' → rs = rs'

theorem independent_iff_slotFree {n : Sysno} :
    Independent c K n ↔ SendsStay c n ∧ SlotFree c K n := by
  constructor
  · intro h
    refine ⟨?_, fun result u u' hu => h result u u' hu _ _ (fun _ => rfl) fun _ => rfl⟩
    by_contra hleave
    have hany : ∀ rs, Issued c n (requests c K 0 n fun _ _ => 0) rs :=
      fun _ hstay => absurd hstay hleave
    have hsame := h 0 _ _ ⟨fun _ => rfl, rfl, rfl⟩ [] [[]] (hany []) (hany [[]])
    exact absurd hsame (by decide)
  · rintro ⟨hstay, hfree⟩ result u u' hu rs rs' hrs hrs'
    rw [hrs hstay, hrs' hstay]
    exact hfree result u u' hu

/-- A call with one ocall and one request. -/
theorem slotFree_iff_of_phases {n : Sysno} (h : wrapPhases c n = [wrapSends c n]) :
    SlotFree c K n ↔
      Indep SameOutside fun u => (unwrapCase n).map (·.request c K (sent c n u)) := by
  have hreq : ∀ result, requests c K result n =
      fun u => [(unwrapCase n).map (·.request c K (sent c n u))] := by
    intro result
    funext u
    exact requests_eq h K result u
  unfold SlotFree
  simp only [hreq, indep_cons, indep_const, and_true, forall_const]

/-- A socket address that the kernel takes is sent whole. -/
theorem sockaddr_sent (w : Word) :
    (if 0 ≤ (w.setWidth 32).toInt ∧ (w.setWidth 32).toInt ≤ 128
      then (w.setWidth 32).toInt.toNat else 0) ≤ memcpyLen w := by
  have hlow : (w.setWidth 32).toNat = w.toNat % 2 ^ 32 := BitVec.toNat_setWidth ..
  rw [memcpyLen_eq, BitVec.toInt_eq_toNat_cond, hlow]
  split <;> split <;> split <;> omega

/-- So is an option. -/
theorem optval_sent (w : Word) :
    (w.setWidth 32).toInt.toNat ≤ memcpyLen ((w.setWidth 32).setWidth 64) := by
  have hlow : ((w.setWidth 32).setWidth 64).toNat = (w.setWidth 32).toNat := by
    have hlt := (w.setWidth 32).isLt
    rw [BitVec.toNat_setWidth, Nat.mod_eq_of_lt (by omega)]
  have hlt := (w.setWidth 32).isLt
  rw [memcpyLen_eq, BitVec.toInt_eq_toNat_cond, hlow]
  split <;> split <;> omega

/-- So is a group list. -/
theorem groups_sent (w : Word) :
    (if w.toNat % 2 ^ 32 ≤ 65536 then 4 * (w.toNat % 2 ^ 32) else 0) ≤ memcpyLen (w * 4#64) := by
  have hmul : (w * 4#64).toNat = w.toNat * 4 % 2 ^ 64 := BitVec.toNat_mul ..
  rw [memcpyLen_eq, hmul]
  split <;> split <;> omega

/-! ## The cases -/

/-- The calls that pass every pointer as the address of a buffer, and whose
cases do not branch. -/
def directCalls : List Sysno :=
  [.read, .write, .open_, .close, .stat, .fstat, .lstat, .poll, .lseek, .mmap, .mprotect, .munmap,
   .brk, .pread64, .pwrite64, .access, .pipe, .sched_yield, .mremap, .msync, .madvise, .dup, .dup2,
   .getpid, .socket, .connect, .accept, .shutdown, .bind, .listen, .getsockname, .getpeername,
   .socketpair, .setsockopt, .getsockopt, .clone, .exit, .kill, .uname, .fcntl, .fsync, .truncate,
   .ftruncate, .getdents, .getcwd, .chdir, .fchdir, .rename, .mkdir, .rmdir, .creat, .link,
   .unlink, .symlink, .readlink, .chmod, .fchmod, .chown, .fchown, .lchown, .umask, .gettimeofday,
   .getrlimit, .getrusage, .sysinfo, .times, .getuid, .getgid, .setuid, .setgid, .geteuid,
   .getegid, .setpgid, .getppid, .getpgrp, .setsid, .setreuid, .setregid, .getgroups, .setresuid,
   .getresuid, .setresgid, .getresgid, .getpgid, .getsid, .rt_sigpending, .rt_sigtimedwait,
   .rt_sigqueueinfo, .rt_sigsuspend, .personality, .statfs, .fstatfs, .getpriority, .setpriority,
   .chroot, .sync, .umount2, .gettid, .sched_getaffinity, .getdents64, .clock_gettime,
   .clock_getres, .exit_group, .openat, .fchownat, .newfstatat, .unlinkat, .readlinkat, .fchmodat,
   .faccessat, .fallocate, .eventfd2, .epoll_create1, .dup3, .pipe2, .syncfs, .getrandom]

/-- The calls whose cases ask which pointers are `NULL`. -/
def optionalCalls : List Sysno :=
  [.rt_sigaction, .rt_sigprocmask, .ioctl, .nanosleep, .setitimer, .setgroups, .sigaltstack,
   .utime, .mount, .futex, .set_tid_address, .epoll_ctl, .utimes, .futimesat, .utimensat,
   .epoll_pwait, .accept4, .prlimit64]

variable {n : Sysno}

theorem wrapPhases_of_direct (hn : n ∈ directCalls) (c : Ctx) :
    wrapPhases c n = [wrapSends c n] := by
  cases n <;> first | rfl | exact absurd hn (by decide)

theorem wrapPhases_of_optional (hn : n ∈ optionalCalls) (c : Ctx) :
    wrapPhases c n = [wrapSends c n] := by
  cases n <;> first | rfl | exact absurd hn (by decide)

theorem slotFree_direct (hn : n ∈ directCalls) : SlotFree c K n ↔ independentWhen c K n := by
  rw [slotFree_iff_of_phases (wrapPhases_of_direct hn c)]
  cases n <;> (first | exact absurd hn (by decide) | skip)
  -- the request, argument by argument
  all_goals simp only [unwrapCase, List.map_cons, List.map_nil, indep_cons, indep_const, and_true]
  all_goals
    simp only [HostCall.request, indep_request, kernelView, params, sysParams, List.map_cons,
      List.map_nil, List.zipWith, argView, Operand.eval, Param.input, Param.output, Param.inout,
      kargs_mem, kargs_kernel, Ctx.region_addr, BitVec.ofNat_eq_ofNat, Ctx.addr_ne_zero, if_false,
      indep_cons, indep_const, and_true, take_zero]
  -- how many bytes the kernel reads
  all_goals
    simp only [KArgs.pollLen, KArgs.rwCount, KArgs.sigsetLen, KArgs.sockaddrLen, KArgs.int,
      kargs_val, params, sysParams, List.zipWith, List.getD, List.getElem?_cons_zero,
      List.getElem?_cons_succ, Option.getD, Param.trunc, independentWhen]
  -- what the enclave wrote there
  case connect | bind =>
    simp [sent, wrapSends, -BitVec.toInt_setWidth]
    refine (indep_bytes (by decide) (by decide) _ _ _).mpr ?_
    exact sockaddr_sent c.a3
  case setsockopt =>
    simp [sent, wrapSends, -BitVec.toInt_setWidth]
    refine (indep_bytes (by decide) (by decide) _ _ _).mpr ?_
    exact optval_sent c.a5
  all_goals
    simp [sent, wrapSends, indep_string, indep_bytes, Covers, CoversPath, -BitVec.toInt_setWidth]
  all_goals grind [bufSize]

theorem slotFree_optional (hn : n ∈ optionalCalls) :
    SlotFree c K n ↔ independentWhen c K n := by
  rw [slotFree_iff_of_phases (wrapPhases_of_optional hn c)]
  cases n <;> (first | exact absurd hn (by decide) | skip)
  -- the request, argument by argument
  all_goals simp only [unwrapCase, List.map_cons, List.map_nil, indep_cons, indep_const, and_true]
  all_goals
    simp only [HostCall.request, indep_request, kernelView, params, sysParams, List.map_cons,
      List.map_nil, List.zipWith, argView, Operand.eval, Param.input, Param.output, Param.inout,
      kargs_mem, kargs_kernel, Ctx.region_addr, BitVec.ofNat_eq_ofNat, Ctx.addr_ne_zero, if_false,
      indep_cons, indep_const, and_true, take_zero]
  -- how many bytes the kernel reads
  all_goals
    simp only [KArgs.groupsIn, KArgs.futexTimeout, KArgs.eventLen, KArgs.sigsetLen, kargs_val,
      params, sysParams, List.zipWith, List.getD, List.getElem?_cons_zero, List.getElem?_cons_succ,
      Option.getD, Param.trunc, independentWhen]
  case setgroups =>
    by_cases h2 : c.a2 = 0#64
    · simp [sent, wrapSends, h2, indep_bytes_unsent]
      omega
    · simp [sent, wrapSends, h2]
      refine (indep_bytes (by decide) (by decide) _ _ _).mpr ?_
      exact (groups_sent c.a1)
  -- which pointers are `NULL`
  all_goals simp only [sent, wrapSends, ne_eq, ite_not, BitVec.ofNat_eq_ofNat]
  all_goals split_ifs
  -- what the enclave wrote there
  all_goals
    simp [indep_string, indep_bytes, indep_bytes_heap, indep_bytes_unsent, Covers, CoversPath,
      -BitVec.toInt_setWidth, *]
  all_goals grind [bufSize]

end Porpoise.Shim
