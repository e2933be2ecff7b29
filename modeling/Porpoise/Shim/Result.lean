import Mathlib.Logic.Function.Iterate
import Porpoise.Shim.Call

/-!
# Results and `errno`

The result of a call passes through four conventions: the kernel returns `-e`,
the host's C library returns `-1` with `e` in its `errno`, `ocall_syscall`
stores `-e` in `arg0` again, and the enclave's `syscall` returns `-1` with `e`
in the enclave's `errno`. In between, `__syscall_wrap` takes a result of `-1`
for a failure and assigns `errno` from the buffer `err_no`, which nothing fills.

* `ocallSyscall`, `syscallWrap`, `syscallRet` and `syscall` are the code on the
  result's path. The copies of data after an ocall are left out.
* The C libraries are a parameter, with what is documented of them in
  `Libc.Documented`.
-/

namespace Porpoise.Shim

open Porpoise.Lib

/-! ## The libraries -/

/-- What library functions do with results and with `errno`. -/
structure Libc where
  /-- What a host function returns and leaves in the host's `errno`, for the
  kernel's result and `errno` before. -/
  call : HostFn → Word → BitVec 32 → Word × BitVec 32
  /-- The host's `errno` after `printf`. -/
  printf : BitVec 32 → BitVec 32
  /-- The enclave's `errno` after `malloc_user`. -/
  malloc_user : BitVec 32 → BitVec 32

/-- Whether a result of the kernel is an error number. -/
def IsError (r : Word) : Prop := -4095 ≤ r.toInt ∧ r.toInt ≤ -1

instance (r : Word) : Decidable (IsError r) := inferInstanceAs (Decidable (_ ∧ _))

/-- The documented behaviour of `syscall`, and that the other two functions
leave `errno` alone. -/
structure Libc.Documented (L : Libc) : Prop where
  call_ok : ∀ n r e, ¬ IsError r → (L.call (.syscall n) r e).1 = r
  call_error : ∀ n r e, IsError r → (L.call (.syscall n) r e).1 = -1 ∧
    (L.call (.syscall n) r e).2.toInt = -r.toInt
  printf_errno : ∀ e, L.printf e = e
  malloc_errno : ∀ e, L.malloc_user e = e

/-! ## The host -/

/-- What the kernel does with a request: its result, and untrusted memory
afterwards. -/
structure Answer where
  raw : Word
  mem : UMem → UMem

structure Host where
  u : UMem
  errno : BitVec 32

/-- What is stored in `arg0` when a function returns `x`. -/
def storedResult : HostFn → Word → Word
  | .pthread_create, x => if x = 0 then 1 else -1
  | _, x => x

/-- `*arg0 = f(…)`. -/
def Host.call (L : Libc) (h : Host) (fn : HostFn) (k : Answer) : Host :=
  let x := L.call fn k.raw h.errno
  ⟨(put .arg0 (storedResult fn x.1)).apply (k.mem h.u), x.2⟩

/-- The calls of a case, the `i`-th answered by `ks i`. -/
def Host.calls (L : Libc) : List HostCall → (Nat → Answer) → Host → Host
  | [], _, h => h
  | hc :: rest, ks, h => Host.calls L rest (fun i => ks (i + 1)) (h.call L hc.fn (ks 0))

/-- The cases that print a message when the call fails. -/
def printsFailure : Sysno → Bool
  | .read | .mmap | .clone => true
  | _ => false

/-- `if(*arg0 == -1) *arg0 = -errno;` -/
def Host.storeErrno (h : Host) : Host :=
  if resultOf h.u = -1 then
    { h with u := (put .arg0 ((-h.errno).signExtend 64)).apply h.u }
  else h

/-- `ocall_syscall`; `none` when the host faults on an invalid number. -/
def ocallSyscall (L : Libc) (ks : Nat → Answer) (h : Host) : Option Host :=
  let nr := (load32 (h.u (.buf .arg0)) 0).toInt
  if nr < 0 ∨ 350 < nr then none
  else match hostSysno h.u with
    | none => some (Host.storeErrno { h with errno := L.printf h.errno })
    | some n =>
        let h' := h.calls L (unwrapCase n) ks
        let h'' :=
          if printsFailure n ∧ resultOf h'.u = -1 then { h' with errno := L.printf h'.errno }
          else h'
        some h''.storeErrno

/-! ## The enclave -/

/-- The host and the enclave's `errno`. -/
structure Machine where
  host : Host
  errno : BitVec 32

/-- The ocalls of a call, the `j`-th answered by `ks j`. -/
def runPhases (L : Libc) : List (List Store) → (Nat → Nat → Answer) → Host → Option Host
  | [], _, h => some h
  | ss :: rest, ks, h => do
      let h' ← ocallSyscall L (ks 0) { h with u := applyAll ss h.u }
      runPhases L rest (fun j => ks (j + 1)) h'

/-- `__syscall_wrap`, with `blocks` calls of `malloc_user`. -/
def syscallWrap (L : Libc) (c : Ctx) (blocks : Nat) (ks : Nat → Nat → Answer) (n : Sysno)
    (s : Machine) : Option (Word × Machine) := do
  let h ← runPhases L (wrapPhases c n) ks { s.host with u := (sendNr n).apply s.host.u }
  -- the default case
  let h := if n = .getitimer then { h with u := (put .arg0 (-1)).apply h.u } else h
  let errno := L.malloc_user^[blocks] s.errno
  let ret_val := resultOf h.u
  some (ret_val, ⟨h, if ret_val = -1 then load32 (h.u (.buf .err_no)) 0 else errno⟩)

/-- `__syscall_ret`: the result and `errno`. -/
def syscallRet (r : Word) (errno : BitVec 32) : Word × BitVec 32 :=
  if (-4096 : Word).toNat < r.toNat then (-1, (-r).setWidth 32) else (r, errno)

/-- The C library's `syscall` in the enclave. -/
def syscall (L : Libc) (c : Ctx) (blocks : Nat) (ks : Nat → Nat → Answer) (n : Sysno)
    (s : Machine) : Option (Word × Machine) := do
  let (r, s') ← syscallWrap L c blocks ks n s
  let x := syscallRet r s'.errno
  some (x.1, { s' with errno := x.2 })

/-! ## Specifications -/

variable {L : Libc} {c : Ctx} {n : Sysno} {u : UMem} {h : Host} {r : Word}

@[simp] theorem resultOf_put (w : Word) (u : UMem) : resultOf ((put .arg0 w).apply u) = w := by
  simp [resultOf]

/-- The calls whose host case stores the result of one `syscall()`, and that
the enclave makes in one ocall. -/
def storesSyscall (n : Sysno) : Prop :=
  n ∉ [.getitimer, .clone, .rt_sigreturn, .rt_sigaction, .alarm, .sync, .pselect6,
    .clock_gettime]

instance (n : Sysno) : Decidable (storesSyscall n) := inferInstanceAs (Decidable (¬ _))

theorem wrapPhases_of_storesSyscall (hn : storesSyscall n) (c : Ctx) :
    wrapPhases c n = [wrapSends c n] := by
  cases n <;> first | rfl | exact absurd hn (by decide)

theorem unwrapCase_of_storesSyscall (hn : storesSyscall n) :
    ∃ args, unwrapCase n = [⟨.syscall n, args⟩] := by
  cases n <;> first | exact ⟨_, rfl⟩ | exact absurd hn (by decide)

theorem ne_neg_one_of_not_isError (hr : ¬ IsError r) : r ≠ -1 := by
  rintro rfl
  exact hr (by decide)

/-- The error number comes back as the kernel's result. -/
theorem neg_errno_eq {e : BitVec 32} (hr : IsError r) (he : e.toInt = -r.toInt) :
    (-e).signExtend 64 = r := by
  obtain ⟨hlow, hhigh⟩ := hr
  apply BitVec.eq_of_toInt_eq
  have hneg : (-r.toInt * -1).bmod (2 ^ 32) = r.toInt := by
    rw [Int.bmod_def]
    omega
  rw [BitVec.toInt_signExtend_of_le (by decide), BitVec.toInt_neg, he]
  simpa using hneg

/-- The unsigned comparison with `-4096UL` finds exactly the error numbers. -/
theorem syscallRet_eq (r : Word) (e : BitVec 32) :
    syscallRet r e = if IsError r then (-1, (-r).setWidth 32) else (r, e) := by
  have hiff : (-4096 : Word).toNat < r.toNat ↔ IsError r := by
    have hlt := r.isLt
    have hc : (-4096 : Word).toNat = 2 ^ 64 - 4096 := by decide
    rw [hc]
    unfold IsError
    rw [BitVec.toInt_eq_toNat_cond]
    split <;> omega
  by_cases h : IsError r
  · rw [syscallRet, if_pos (hiff.mpr h), if_pos h]
  · rw [syscallRet, if_neg (mt hiff.mp h), if_neg h]

theorem toInt_neg_setWidth (hr : IsError r) : ((-r).setWidth 32).toInt = -r.toInt := by
  obtain ⟨hlow, hhigh⟩ := hr
  have hlt := r.isLt
  have htoNat : r.toInt = r.toNat - 2 ^ 64 := by
    rw [BitVec.toInt_eq_toNat_cond] at hlow hhigh ⊢
    split at hlow <;> omega
  have hneg : ((-r).setWidth 32).toNat = 2 ^ 64 - r.toNat := by
    rw [BitVec.toNat_setWidth, BitVec.toNat_neg]
    omega
  rw [BitVec.toInt_eq_toNat_cond, hneg]
  split <;> omega

/-! ## The path of the result -/

theorem nr_in_range {f : Bytes} (n : Sysno) :
    (load32 (overlay 0 8 (le64 (BitVec.ofNat 64 n.nr)) f) 0).toInt = n.nr := by
  have hlt := n.nr_lt
  have hnat : ((BitVec.ofNat 64 n.nr).setWidth 32).toNat = n.nr := by
    simp only [BitVec.toNat_setWidth, BitVec.toNat_ofNat]
    omega
  rw [load32_overlay_zero (by decide), load32_le64, BitVec.toInt_eq_toNat_cond, hnat]
  split <;> omega

/-- What the library returned is in `arg0` after the switch; a message does not
change it. -/
theorem storeErrno_spec {h : Host}
    (hok : ¬ IsError r → resultOf h.u = r)
    (herr : IsError r → resultOf h.u = -1 ∧ h.errno.toInt = -r.toInt) :
    resultOf h.storeErrno.u = r := by
  unfold Host.storeErrno
  by_cases hr : IsError r
  · obtain ⟨hres, herrno⟩ := herr hr
    rw [if_pos hres, resultOf_put]
    exact neg_errno_eq hr herrno
  · have hres := hok hr
    rw [if_neg (by rw [hres]; exact ne_neg_one_of_not_isError hr)]
    exact hres

/-- **`ocall_syscall` reports the kernel's result** in `arg0`. -/
theorem ocallSyscall_spec (hL : L.Documented) (hn : storesSyscall n) (ks : Nat → Answer)
    (hnr : h.u (.buf .arg0) = (sendNr n).apply u (.buf .arg0)) :
    ∃ h', ocallSyscall L ks h = some h' ∧ resultOf h'.u = (ks 0).raw := by
  obtain ⟨args, hcase⟩ := unwrapCase_of_storesSyscall hn
  have hrange : (load32 (h.u (.buf .arg0)) 0).toInt = n.nr := by
    rw [hnr, sendNr_apply, if_pos rfl, nr_in_range]
  have hvalid : ¬ ((load32 (h.u (.buf .arg0)) 0).toInt < 0 ∨
      350 < (load32 (h.u (.buf .arg0)) 0).toInt) := by
    have hlt := n.nr_lt
    omega
  have hcalls : h.calls L (unwrapCase n) ks = h.call L (.syscall n) (ks 0) := by
    rw [hcase]
    rfl
  have hres : resultOf (h.call L (.syscall n) (ks 0)).u =
      (L.call (.syscall n) (ks 0).raw h.errno).1 := resultOf_put _ _
  unfold ocallSyscall
  simp only [hvalid, if_false, hostSysno_of_sendNr hnr, hcalls, hL.printf_errno, ite_self]
  refine ⟨_, rfl, storeErrno_spec ?_ ?_⟩
  · intro hr
    rw [hres, hL.call_ok n _ _ hr]
  · intro hr
    obtain ⟨hret, herrno⟩ := hL.call_error n _ h.errno hr
    exact ⟨hres.trans hret, herrno⟩

theorem iterate_malloc_user (hL : L.Documented) (blocks : Nat) (e : BitVec 32) :
    L.malloc_user^[blocks] e = e := by
  induction blocks with
  | zero => rfl
  | succ k ih => rw [Function.iterate_succ_apply', ih, hL.malloc_errno]

/-- `__syscall_wrap` returns the kernel's result, and assigns `errno` from the
buffer only when that is `-1`. -/
theorem syscallWrap_spec (hL : L.Documented) (hn : storesSyscall n) (c : Ctx) (blocks : Nat)
    (ks : Nat → Nat → Answer) (s : Machine) :
    ∃ s', syscallWrap L c blocks ks n s = some ((ks 0 0).raw, s') ∧
      ((ks 0 0).raw ≠ -1 → s'.errno = s.errno) := by
  have hne : n ≠ .getitimer := by
    rintro rfl
    exact absurd hn (by decide)
  obtain ⟨h', hocall, hres⟩ := ocallSyscall_spec (u := s.host.u) hL hn (ks 0)
    (h := ⟨applyAll (wrapSends c n) ((sendNr n).apply s.host.u), s.host.errno⟩)
    (applyAll_of_ne (dst_ne_arg0 c n) _)
  refine ⟨⟨h', if (ks 0 0).raw = -1 then load32 (h'.u (.buf .err_no)) 0 else s.errno⟩, ?_, ?_⟩
  · unfold syscallWrap
    simp [wrapPhases_of_storesSyscall hn, runPhases, hocall, hne, hres, iterate_malloc_user hL]
  · intro hr
    exact if_neg hr

/-- **Result and `errno` transparency.** For every call that is one `syscall()`
on the host, whatever the kernel's result and the contents of `errno` and
`err_no`: the wrapper returns the result, and the C library's `syscall` returns
it with `errno` unchanged, or `-1` with the error number in `errno`. -/
theorem result_transparent (hL : L.Documented) (hn : storesSyscall n) (c : Ctx) (blocks : Nat)
    (ks : Nat → Nat → Answer) (s : Machine) :
    (∃ s', syscallWrap L c blocks ks n s = some ((ks 0 0).raw, s')) ∧
    ∃ s', syscall L c blocks ks n s =
        some (if IsError (ks 0 0).raw then -1 else (ks 0 0).raw, s') ∧
      s'.errno.toInt = if IsError (ks 0 0).raw then -(ks 0 0).raw.toInt else s.errno.toInt := by
  obtain ⟨s', hwrap, herrno⟩ := syscallWrap_spec hL hn c blocks ks s
  have hcall : syscall L c blocks ks n s = some ((syscallRet (ks 0 0).raw s'.errno).1,
      { s' with errno := (syscallRet (ks 0 0).raw s'.errno).2 }) := by
    unfold syscall
    rw [hwrap]
    rfl
  refine ⟨⟨s', hwrap⟩, ⟨s'.host, (syscallRet (ks 0 0).raw s'.errno).2⟩, ?_, ?_⟩
  · rw [hcall, syscallRet_eq]
    split <;> rfl
  · show (syscallRet (ks 0 0).raw s'.errno).2.toInt = _
    rw [syscallRet_eq]
    by_cases hr : IsError (ks 0 0).raw
    · rw [if_pos hr, if_pos hr, toInt_neg_setWidth hr]
    · rw [if_neg hr, if_neg hr, herrno (ne_neg_one_of_not_isError hr)]

/-- The two libraries as they are. -/
def libc : Libc where
  call _ r e := if IsError r then (-1, (-r).setWidth 32) else (r, e)
  printf e := e
  malloc_user e := e

theorem libc_documented : libc.Documented where
  call_ok _ _ _ hr := by
    show (if _ then _ else _ : Word × BitVec 32).1 = _
    rw [if_neg hr]
  call_error _ r _ hr := by
    show (if _ then _ else _ : Word × BitVec 32).1 = _ ∧
      (if _ then _ else _ : Word × BitVec 32).2.toInt = _
    rw [if_pos hr]
    exact ⟨rfl, toInt_neg_setWidth hr⟩
  printf_errno _ := rfl
  malloc_errno _ := rfl

/-- `close` of a bad descriptor: `-9` from the kernel becomes `-1` and `EBADF`. -/
theorem result_transparent_close :
    storesSyscall .close ∧ ∃ s', syscall libc (Ctx.plain 100 0 0 0 0 0 fun _ => 0) 0
      (fun _ _ => ⟨-9, id⟩) .close ⟨⟨fun _ _ => 255, 2⟩, 7⟩ = some (-1, s') ∧
      s'.errno.toInt = 9 := by
  have hclose : storesSyscall .close := by decide
  exact ⟨hclose, (result_transparent libc_documented hclose (Ctx.plain 100 0 0 0 0 0 fun _ => 0) 0
    (fun _ _ => ⟨-9, id⟩) ⟨⟨fun _ _ => 255, 2⟩, 7⟩).2⟩

end Porpoise.Shim
