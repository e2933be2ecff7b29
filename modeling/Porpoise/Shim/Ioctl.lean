import Porpoise.Shim.InPlace

/-!
# The argument of `ioctl`

The third argument of `ioctl` is an integer, `NULL` or a pointer to an object whose size
depends on the request. The case takes every argument but `NULL` for a pointer, copies 32
bytes there and back, and the host always passes the buffer of the slot.

* `IoctlArg`: what the argument is.
* `IoctlMet`: the kernel gets it, and the caller's memory is as after a direct call.
* `ioctl_met_iff`: for objects of at most 32 bytes.
-/

namespace Porpoise.Shim

open Porpoise.Lib

variable {c : Ctx} {K : Kernel} {u v : UMem} {e : Nat → Option Byte}

inductive IoctlArg
  | integer | null | pointer
  deriving DecidableEq

/-- The argument of a call. -/
def ioctlArg (c : Ctx) (K : Kernel) : IoctlArg :=
  if K.ioctlInt c.a2 then .integer else if c.a3 = 0 then .null else .pointer

/-- The size of the object that the kernel uses for the request. -/
def ioctlSize (c : Ctx) (K : Kernel) : IoctlArg → Nat
  | .pointer => max (K.ioctlIn c.a2) (K.ioctlOut c.a2)
  | .integer | .null => 0

/-- The kernel gets the argument: the integer, `NULL`, or a pointer to a copy of the whole
object. -/
def IoctlPassed (c : Ctx) (K : Kernel) (u : UMem) : IoctlArg → Prop
  | .integer => hostArg c .ioctl u 2 = c.a3
  | .null => hostArg c .ioctl u 2 = 0
  | .pointer => hostArg c .ioctl u 2 = c.addr .arg3 ∧
      take (ioctlSize c K .pointer) (hostMem c .ioctl u (c.addr .arg3)) =
        take (ioctlSize c K .pointer) (c.mem.at c.a3)

/-- **`ioctl` round-trips its argument**, whatever the slot held: the kernel gets the
descriptor, the request and the argument; and whatever it updates of the object, the
caller's object has the update and nothing else of the enclave changes. -/
structure IoctlMet (c : Ctx) (K : Kernel) (a : IoctlArg) : Prop where
  fd : ∀ u, (hostArg c .ioctl u 0).setWidth 32 = c.a1.setWidth 32
  request : ∀ u, hostArg c .ioctl u 1 = c.a2
  argp : ∀ u, IoctlPassed c K u a
  memory : ∀ u v e, PatchWithin (ioctlSize c K a) e →
    v (.buf .arg3) = patch e (sent c .ioctl u (.buf .arg3)) →
      memAfter c .ioctl v = c.mem.patch c.a3 e

/-- When it does. -/
def ioctlWhen (c : Ctx) (K : Kernel) : IoctlArg → Prop
  -- the integer happens to be the address of the buffer
  | .integer => c.a3 = c.addr .arg3
  | .null => False
  | .pointer => ioctlSize c K .pointer ≤ 32

section Args

variable (c u)

theorem ioctl_fd : (hostArg c .ioctl u 0).setWidth 32 = c.a1.setWidth 32 := by
  show ((load32 (sent c .ioctl u (.buf .arg1)) 0).setWidth 64).setWidth 32 = _
  simp [sent, wrapSends, applyAll_ite]

theorem ioctl_request : hostArg c .ioctl u 1 = c.a2 := by
  show load64 (sent c .ioctl u (.buf .arg2)) 0 = _
  simp [sent, wrapSends, applyAll_ite]

theorem ioctl_argp : hostArg c .ioctl u 2 = c.addr .arg3 := rfl

theorem ioctl_sent (h3 : c.a3 ≠ 0) :
    sent c .ioctl u (.buf .arg3) = overlay 0 32 (c.mem.at c.a3) (u (.buf .arg3)) := by
  have h3' : ¬ c.a3 = 0#64 := h3
  simp [sent, wrapSends, h3']

end Args

/-- What is updated in the first 32 bytes comes back, and the other bytes return as they
were. -/
theorem ioctl_memory (he : PatchWithin 32 e) (hzero : c.a3 = 0 → PatchWithin 0 e)
    (hv : v (.buf .arg3) = patch e (sent c .ioctl u (.buf .arg3))) :
    memAfter c .ioctl v = c.mem.patch c.a3 e := by
  have hcopy : memAfter c .ioctl v = if c.a3 = 0 then c.mem else c.mem.patch c.a3 e :=
    memAfter_optional rfl rfl (fun h3 => hv.trans (congrArg _ (ioctl_sent c u h3))) (by decide) he
  rw [hcopy]
  split
  · next h3 => exact (c.mem.patch_zero (hzero h3) _).symm
  · rfl

/-- An object is sent whole when it has at most 32 bytes. -/
theorem ioctl_passed_iff (h3 : c.a3 ≠ 0) :
    (∀ u, IoctlPassed c K u .pointer) ↔ ioctlSize c K .pointer ≤ 32 := by
  have hview : ∀ u, IoctlPassed c K u .pointer ↔ take (ioctlSize c K .pointer)
      (overlay 0 32 (c.mem.at c.a3) (u (.buf .arg3))) =
        take (ioctlSize c K .pointer) (c.mem.at c.a3) := by
    intro u
    rw [IoctlPassed, and_iff_right (ioctl_argp c u), hostMem, c.region_addr, ioctl_sent c u h3]
  simp only [hview]
  exact forall_take_iff

theorem ioctl_integer_iff : IoctlMet c K .integer ↔ c.a3 = c.addr .arg3 := by
  constructor
  · intro h
    exact (h.argp fun _ _ => 0).symm
  · intro haddr
    refine ⟨ioctl_fd c, ioctl_request c, fun u => haddr.symm, fun u v e he hv => ?_⟩
    exact ioctl_memory (he.mono (Nat.zero_le 32)) (fun _ => he) hv

/-- The buffer is never `NULL`. -/
theorem ioctl_null_never : ¬ IoctlMet c K .null := fun h =>
  c.addr_ne .arg3 (h.argp fun _ _ => 0)

theorem ioctl_pointer_iff (h3 : c.a3 ≠ 0) :
    IoctlMet c K .pointer ↔ ioctlSize c K .pointer ≤ 32 := by
  constructor
  · exact fun h => (ioctl_passed_iff h3).mp h.argp
  · intro hsize
    refine ⟨ioctl_fd c, ioctl_request c, (ioctl_passed_iff h3).mpr hsize, fun u v e he hv => ?_⟩
    exact ioctl_memory (he.mono hsize) (fun hzero => absurd hzero h3) hv

/-- **The argument of `ioctl`**, for every request and argument. -/
theorem ioctl_met_iff (c : Ctx) (K : Kernel) :
    IoctlMet c K (ioctlArg c K) ↔ ioctlWhen c K (ioctlArg c K) := by
  unfold ioctlArg
  by_cases hint : K.ioctlInt c.a2 = true
  · rw [if_pos hint]
    exact ioctl_integer_iff
  · rw [if_neg hint]
    by_cases h3 : c.a3 = 0
    · rw [if_pos h3]
      exact iff_of_false ioctl_null_never id
    · rw [if_neg h3]
      exact ioctl_pointer_iff h3

/-- `TCGETS` fills a structure of 36 bytes, `TCSBRK` takes an integer. -/
def termiosKernel : Kernel :=
  { linux with ioctlOut := fun w => if w = 0x5401 then 36 else 0, ioctlInt := (· == 0x5409) }

/-- `ioctl(0, TCGETS, 4096)`, `ioctl(0, TCSBRK, 1)` and `ioctl(0, TIOCEXCL, NULL)`. -/
theorem ioctl_not_met :
    ¬ IoctlMet (Ctx.plain 0 0x5401 4096 0 0 0 fun _ => 0) termiosKernel
        (ioctlArg (Ctx.plain 0 0x5401 4096 0 0 0 fun _ => 0) termiosKernel) ∧
      ¬ IoctlMet (Ctx.plain 0 0x5409 1 0 0 0 fun _ => 0) termiosKernel
        (ioctlArg (Ctx.plain 0 0x5409 1 0 0 0 fun _ => 0) termiosKernel) ∧
      ¬ IoctlMet (Ctx.plain 0 0x540c 0 0 0 0 fun _ => 0) termiosKernel
        (ioctlArg (Ctx.plain 0 0x540c 0 0 0 0 fun _ => 0) termiosKernel) := by
  refine ⟨fun h => ?_, fun h => ?_, fun h => ?_⟩
  · have hkind : ioctlArg (Ctx.plain 0 0x5401 4096 0 0 0 fun _ => 0) termiosKernel = .pointer := by
      decide
    rw [hkind] at h
    have hsize := (ioctl_pointer_iff (show (4096 : Word) ≠ 0 by decide)).mp h
    exact absurd hsize (by decide)
  · have hkind : ioctlArg (Ctx.plain 0 0x5409 1 0 0 0 fun _ => 0) termiosKernel = .integer := by
      decide
    rw [hkind] at h
    exact absurd (ioctl_integer_iff.mp h) (by decide)
  · have hkind : ioctlArg (Ctx.plain 0 0x540c 0 0 0 0 fun _ => 0) termiosKernel = .null := by
      decide
    rw [hkind] at h
    exact ioctl_null_never h

end Porpoise.Shim
