import Porpoise.Shim.Faithful

/-!
# Creation modes

The calls that create a file or a directory: `open`, `openat`, `creat` and `mkdir`, called
by number or through the C library.

* `CreateCall`, `LibcCreate`: the calls with the caller's arguments, and the request that is
  the caller's.
* `ModeKept`: a call that creates makes that request and no other.
* `creation_modes_iff`: for which arguments. `openat` takes its third argument, the flags,
  for the mode.
-/

namespace Porpoise.Shim

open Porpoise.Lib

variable {c : Ctx} {K : Kernel}

/-! ## Flags -/

def oCreat : BitVec 32 := 0o100

def oWronly : BitVec 32 := 0o1

def oTrunc : BitVec 32 := 0o1000

def oLargefile : BitVec 32 := 0

def oTmpfile : BitVec 32 := 0o20200000

/-- `(flags & O_CREAT) || (flags & O_TMPFILE) == O_TMPFILE`. -/
def Creating (flags : BitVec 32) : Prop :=
  flags &&& oCreat ≠ 0 ∨ flags &&& oTmpfile = oTmpfile

instance (flags : BitVec 32) : Decidable (Creating flags) :=
  inferInstanceAs (Decidable (_ ∨ _))

/-! ## Calls by number -/

/-- A call of `__syscall_wrap` that may create a file or a directory. -/
inductive CreateCall
  | open_ (path flags mode : Word)
  | openat (dirfd path flags mode : Word)
  | creat (path mode : Word)
  | mkdir (path mode : Word)

namespace CreateCall

def sysno : CreateCall → Sysno
  | open_ .. => .open_
  | openat .. => .openat
  | creat .. => .creat
  | mkdir .. => .mkdir

/-- The call with its arguments in place. -/
def ctx (c : Ctx) : CreateCall → Ctx
  | open_ path flags mode => { c with a1 := path, a2 := flags, a3 := mode }
  | openat dirfd path flags mode => { c with a1 := dirfd, a2 := path, a3 := flags, a4 := mode }
  | creat path mode | mkdir path mode => { c with a1 := path, a2 := mode }

def path : CreateCall → Word
  | open_ path _ _ | openat _ path _ _ | creat path _ | mkdir path _ => path

def Creates : CreateCall → Prop
  | open_ _ flags _ | openat _ _ flags _ => Creating (flags.setWidth 32)
  | creat .. | mkdir .. => True

/-- The mode is the flags again, where the case takes it from them. -/
def SameMode : CreateCall → Prop
  | openat _ _ flags mode => mode.setWidth 32 = flags.setWidth 32
  | _ => True

end CreateCall

/-- A path as the kernel reads it. -/
def pathView (K : Kernel) (m : Mem) (p : Word) : ArgView :=
  if p = 0 then .null else .string (cstr K.pathMax (m.at p))

/-- A number modulo `2 ^ 32`. -/
def intView (w : Word) : ArgView := .scalar ((w.setWidth 32).setWidth 64)

/-- The request that the caller makes. -/
def CreateCall.asked (K : Kernel) (m : Mem) : CreateCall → Request
  | open_ path flags mode => ⟨.syscall .open_, [pathView K m path, intView flags, intView mode]⟩
  | openat dirfd path flags mode =>
      ⟨.syscall .openat, [intView dirfd, pathView K m path, intView flags, intView mode]⟩
  | creat path mode => ⟨.syscall .creat, [pathView K m path, intView mode]⟩
  | mkdir path mode => ⟨.syscall .mkdir, [pathView K m path, intView mode]⟩

/-- A call that creates gives the kernel the caller's path, flags and mode, whatever the
slot held. -/
def CreateCall.ModeKept (c : Ctx) (K : Kernel) (q : CreateCall) : Prop :=
  q.Creates → ∀ r u, requests (q.ctx c) K r q.sysno u = [[q.asked K c.mem]]

theorem asked_eq_request (c : Ctx) (K : Kernel) (q : CreateCall) :
    q.asked K c.mem = (q.ctx c).request K q.sysno := by
  cases q <;> rfl

theorem modeKept_iff (c : Ctx) (K : Kernel) (q : CreateCall) :
    q.ModeKept c K ↔ (q.Creates → PathSent (q.ctx c) K q.path ∧ q.SameMode) := by
  have hphases : wrapPhases (q.ctx c) q.sysno = [wrapSends (q.ctx c) q.sysno] := by
    cases q <;> rfl
  unfold CreateCall.ModeKept
  refine imp_congr_right fun _ => ?_
  simp only [asked_eq_request, requests_eq hphases, List.cons.injEq, and_true, forall_const]
  -- the two requests, argument by argument
  cases q
  all_goals
    simp only [CreateCall.sysno, CreateCall.ctx, CreateCall.path, CreateCall.SameMode, unwrapCase,
      List.map_cons, List.map_nil, Ctx.request, List.cons.injEq, and_true, HostCall.request,
      Request.mk.injEq, kernelView, params, sysParams, List.zipWith, argView, Operand.eval,
      Ctx.args, kargs_mem, kargs_kernel, Ctx.region_addr, BitVec.ofNat_eq_ofNat,
      Ctx.addr_ne_zero, if_false, true_and]
  -- what the enclave wrote there
  all_goals simp [sent, wrapSends, forall_and, forall_string_iff, PathSent]
  case openat => exact fun _ _ => setWidth_inj.trans eq_comm

/-! ## Calls of the C library -/

/-- A call of the C library. The mode is the argument after the flags, read or not. -/
inductive LibcCreate
  | open_ (path : Word) (flags mode : BitVec 32)
  | openat (fd : BitVec 32) (path : Word) (flags mode : BitVec 32)
  | creat (path : Word) (mode : BitVec 32)
  | mkdir (path : Word) (mode : BitVec 32)

namespace LibcCreate

/-- `mode = va_arg(ap, mode_t)`, or 0. -/
def vaMode (flags mode : BitVec 32) : BitVec 32 := if Creating flags then mode else 0

/-- `__sys_open_cp(filename, flags, mode)`. -/
def sysOpen (path : Word) (flags mode : BitVec 32) : CreateCall :=
  .open_ path ((flags ||| oLargefile).signExtend 64) ((vaMode flags mode).setWidth 64)

/-- The call that the function makes. -/
def syscall : LibcCreate → CreateCall
  | open_ path flags mode => sysOpen path flags mode
  | openat fd path flags mode =>
      .openat (fd.signExtend 64) path ((flags ||| oLargefile).signExtend 64)
        ((vaMode flags mode).setWidth 64)
  -- `open(filename, O_CREAT|O_WRONLY|O_TRUNC, mode)`
  | creat path mode => sysOpen path (oCreat ||| oWronly ||| oTrunc) mode
  | mkdir path mode => .mkdir path (mode.setWidth 64)

def path : LibcCreate → Word
  | open_ path _ _ | openat _ path _ _ | creat path _ | mkdir path _ => path

def Creates : LibcCreate → Prop
  | open_ _ flags _ | openat _ _ flags _ => Creating flags
  | creat .. | mkdir .. => True

def SameMode : LibcCreate → Prop
  | openat _ _ flags mode => mode = flags
  | _ => True

/-- The request that the caller makes. -/
def asked (K : Kernel) (m : Mem) : LibcCreate → Request
  | open_ path flags mode =>
      ⟨.syscall .open_,
        [pathView K m path, .scalar (flags.setWidth 64), .scalar (mode.setWidth 64)]⟩
  | openat fd path flags mode =>
      ⟨.syscall .openat, [.scalar (fd.setWidth 64), pathView K m path, .scalar (flags.setWidth 64),
        .scalar (mode.setWidth 64)]⟩
  | creat path mode =>
      ⟨.syscall .open_, [pathView K m path, .scalar ((oCreat ||| oWronly ||| oTrunc).setWidth 64),
        .scalar (mode.setWidth 64)]⟩
  | mkdir path mode => ⟨.syscall .mkdir, [pathView K m path, .scalar (mode.setWidth 64)]⟩

/-- A call that creates gives the kernel the caller's path, flags and mode, whatever the
slot held. -/
def ModeKept (c : Ctx) (K : Kernel) (f : LibcCreate) : Prop :=
  f.Creates → ∀ r u, requests (f.syscall.ctx c) K r f.syscall.sysno u = [[f.asked K c.mem]]

end LibcCreate

theorem or_largefile (flags : BitVec 32) : flags ||| oLargefile = flags := BitVec.or_zero

theorem intView_signExtend (x : BitVec 32) :
    intView (x.signExtend 64) = .scalar (x.setWidth 64) := by
  rw [intView, setWidth_signExtend]

theorem intView_zeroExtend (x : BitVec 32) : intView (x.setWidth 64) = .scalar (x.setWidth 64) := by
  rw [intView, trunc_int]

theorem vaMode_of_creating {flags : BitVec 32} (h : Creating flags) (mode : BitVec 32) :
    LibcCreate.vaMode flags mode = mode := if_pos h

theorem creating_creat : Creating (oCreat ||| oWronly ||| oTrunc) := by decide

/-- The function asks for what its caller does. -/
theorem libc_asked {f : LibcCreate} (h : f.Creates) (m : Mem) :
    f.syscall.asked K m = f.asked K m := by
  cases f with
  | open_ path flags mode | openat fd path flags mode =>
      simp only [LibcCreate.syscall, LibcCreate.sysOpen, CreateCall.asked, LibcCreate.asked,
        or_largefile, intView_signExtend, intView_zeroExtend, vaMode_of_creating h]
  | creat path mode =>
      simp only [LibcCreate.syscall, LibcCreate.sysOpen, CreateCall.asked, LibcCreate.asked,
        or_largefile, intView_signExtend, intView_zeroExtend, vaMode_of_creating creating_creat]
  | mkdir path mode =>
      simp only [LibcCreate.syscall, CreateCall.asked, LibcCreate.asked, intView_zeroExtend]

theorem libc_creates (f : LibcCreate) : f.syscall.Creates ↔ f.Creates := by
  cases f with
  | open_ path flags mode | openat fd path flags mode =>
      show Creating (((flags ||| oLargefile).signExtend 64).setWidth 32) ↔ Creating flags
      rw [or_largefile, setWidth_signExtend]
  | creat path mode => exact iff_of_true creating_creat trivial
  | mkdir path mode => exact Iff.rfl

theorem libc_sameMode {f : LibcCreate} (h : f.Creates) : f.syscall.SameMode ↔ f.SameMode := by
  cases f with
  | openat fd path flags mode =>
      show ((LibcCreate.vaMode flags mode).setWidth 64).setWidth 32 =
        ((flags ||| oLargefile).signExtend 64).setWidth 32 ↔ mode = flags
      rw [vaMode_of_creating h, or_largefile, setWidth_signExtend, trunc_int]
  | open_ | creat | mkdir => exact Iff.rfl

theorem libc_path (f : LibcCreate) : f.syscall.path = f.path := by
  cases f <;> rfl

theorem libc_modeKept_iff (c : Ctx) (K : Kernel) (f : LibcCreate) :
    f.ModeKept c K ↔ (f.Creates → PathSent (f.syscall.ctx c) K f.path ∧ f.SameMode) := by
  refine forall_congr' fun h => ?_
  have hcall := modeKept_iff c K f.syscall
  rw [CreateCall.ModeKept, libc_asked h, libc_path, libc_sameMode h] at hcall
  have hcreates := (libc_creates f).mpr h
  exact (forall_prop_of_true hcreates).symm.trans (hcall.trans (forall_prop_of_true hcreates))

/-- **Creation modes.** By number and through the C library, for every path, descriptor,
flags and mode, and every slot content. `open`, `creat` and `mkdir` hand the kernel the mode
of any path that is sent; `openat` only a mode that is the flags again. -/
theorem creation_modes_iff (c : Ctx) (K : Kernel) :
    (∀ q : CreateCall, q.ModeKept c K ↔
      (q.Creates → PathSent (q.ctx c) K q.path ∧ q.SameMode)) ∧
    ∀ f : LibcCreate, f.ModeKept c K ↔
      (f.Creates → PathSent (f.syscall.ctx c) K f.path ∧ f.SameMode) :=
  ⟨modeKept_iff c K, libc_modeKept_iff c K⟩

/-- `openat(AT_FDCWD, path, O_CREAT|O_WRONLY, 0600)` does not ask for `0600`. -/
theorem openat_mode_lost :
    (LibcCreate.openat (-100) 4096 (oCreat ||| oWronly) 0o600).Creates ∧
      ¬ (LibcCreate.openat (-100) 4096 (oCreat ||| oWronly) 0o600).ModeKept
        (Ctx.plain 0 0 0 0 0 0 fun _ => 0) linux := by
  have hcreates : Creating (oCreat ||| oWronly) := by decide
  refine ⟨hcreates, fun h => ?_⟩
  have hmode : (0o600 : BitVec 32) = oCreat ||| oWronly :=
    ((libc_modeKept_iff _ _ _).mp h hcreates).2
  exact absurd hmode (by decide)

end Porpoise.Shim
