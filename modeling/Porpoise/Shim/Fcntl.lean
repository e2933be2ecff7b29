import Porpoise.Shim.InPlace

/-!
# The argument of `fcntl`

What the third argument of `fcntl` is depends on the command: an integer, or a pointer to a
`struct flock` or another structure. The case takes it for an `int`, and the host passes
that on.

* `FcntlMet`: the kernel gets the integer, or a pointer to a copy of the structure, and
  never an address of the enclave.
* `fcntl_met_iff`: for integers below `2 ^ 32`, and no pointers.
-/

namespace Porpoise.Shim

open Porpoise.Lib

variable {c : Ctx} {u : UMem}

/-- **`fcntl` handles its argument**, whatever the slot held. -/
structure FcntlMet (c : Ctx) : Prop where
  fd : ∀ u, (hostArg c .fcntl u 0).setWidth 32 = c.a1.setWidth 32
  cmd : ∀ u, (hostArg c .fcntl u 1).setWidth 32 = fcntlCmd c
  integer : FcntlInteger (fcntlCmd c) → ∀ u, hostArg c .fcntl u 2 = c.a3
  /-- The kernel finds the caller's structure. -/
  object : c.a3 ≠ 0 → ∀ size, fcntlObj (fcntlCmd c) = some size → ∀ u,
    take size (hostMem c .fcntl u (hostArg c .fcntl u 2)) = take size (c.mem.at c.a3)
  /-- The caller finds what a successful `F_GETLK` or `F_GETOWN_EX` wrote. -/
  back : c.a3 ≠ 0 → fcntlCmd c = 5 ∨ fcntlCmd c = 16 → ∀ size, fcntlObj (fcntlCmd c) = some size →
    ∀ u v e, ¬ IsError (resultOf v) → PatchWithin size e →
      v (c.region (hostArg c .fcntl u 2)) = patch e (hostMem c .fcntl u (hostArg c .fcntl u 2)) →
        memAfter c .fcntl v = c.mem.patch c.a3 e
  /-- The kernel gets neither the caller's pointer nor the low half of it. -/
  address : c.a3 ≠ 0 → FcntlPointer (fcntlCmd c) → ∀ u,
    hostArg c .fcntl u 2 ≠ c.a3 ∧ hostArg c .fcntl u 2 ≠ (c.a3.setWidth 32).setWidth 64

section Args

variable (c u)

theorem fcntl_fd : (hostArg c .fcntl u 0).setWidth 32 = c.a1.setWidth 32 := by
  show ((load32 (sent c .fcntl u (.buf .arg1)) 0).setWidth 64).setWidth 32 = _
  simp [sent, wrapSends]

theorem fcntl_cmd : (hostArg c .fcntl u 1).setWidth 32 = fcntlCmd c := by
  show ((load32 (sent c .fcntl u (.buf .arg2)) 0).setWidth 64).setWidth 32 = _
  simp [sent, wrapSends, fcntlCmd]

/-- The low half, whatever it is. -/
theorem fcntl_arg : hostArg c .fcntl u 2 = (c.a3.setWidth 32).setWidth 64 := by
  show (load32 (sent c .fcntl u (.buf .arg3)) 0).setWidth 64 = _
  simp [sent, wrapSends]

end Args

theorem fcntlPointer_of_obj {cmd : BitVec 32} {size : Nat} (h : fcntlObj cmd = some size) :
    FcntlPointer cmd := .inl (by rw [h]; exact Option.some_ne_none size)

/-- A pointer arrives cut to its low half. -/
theorem FcntlMet.null (h : FcntlMet c) (hptr : FcntlPointer (fcntlCmd c)) : c.a3 = 0 := by
  by_contra h3
  exact (h.address h3 hptr fun _ _ => 0).2 (fcntl_arg c _)

/-- So does an integer. -/
theorem FcntlMet.small (h : FcntlMet c) (hint : FcntlInteger (fcntlCmd c)) :
    c.a3.toNat < 2 ^ 32 := by
  rw [← low_eq_iff, ← fcntl_arg c fun _ _ => 0]
  exact h.integer hint _

/-- **The argument of `fcntl`**, for every descriptor, command and argument. -/
theorem fcntl_met_iff (c : Ctx) : FcntlMet c ↔ fcntlWhen c := by
  refine ⟨fun h => ⟨h.null, h.small⟩, fun ⟨hnull, hsmall⟩ => ?_⟩
  refine ⟨fcntl_fd c, fcntl_cmd c, fun hint u => ?_, fun h3 size hobj => ?_,
    fun h3 _ size hobj => ?_, fun h3 hptr => ?_⟩
  · exact (fcntl_arg c u).trans (low_eq_iff.mpr (hsmall hint))
  · exact absurd (hnull (fcntlPointer_of_obj hobj)) h3
  · exact absurd (hnull (fcntlPointer_of_obj hobj)) h3
  · exact absurd (hnull hptr) h3

/-- `fcntl(3, F_GETLK, 0x7f0000001000)`: the kernel gets the address `0x1000`. -/
theorem fcntl_getlk_truncated :
    ¬ FcntlMet (Ctx.plain 3 5 0x7f0000001000 0 0 0 fun _ => 0) ∧
      ∀ u, hostArg (Ctx.plain 3 5 0x7f0000001000 0 0 0 fun _ => 0) .fcntl u 2 = 0x1000 := by
  refine ⟨fun h => ?_, fun u => ?_⟩
  · have hptr : FcntlPointer (fcntlCmd (Ctx.plain 3 5 0x7f0000001000 0 0 0 fun _ => 0)) := by
      decide
    exact absurd (h.null hptr) (show (0x7f0000001000 : Word) ≠ 0 by decide)
  · rw [fcntl_arg]
    decide

end Porpoise.Shim
