import Porpoise.Shim.Delivery
import Porpoise.Shim.HeapBalance

/-!
# Descriptor sets, timeouts and signal masks

`pselect6` has more objects than the slot has buffers: three descriptor sets, a timeout
and a signal mask, each of which may be `NULL`. It does not send `nfds`, sends eight
bytes of `writefds`, puts the pointer to the mask where the one to the timeout
belongs, and copies nothing back. The host passes no mask to `epoll_pwait`.

* `Passed`: an argument that the kernel gets as the caller gave it.
* `PselectMet`, `EpollMet`: the two calls keep their arguments apart.
* `pselect6_epoll_pwait_iff`: when they do, argument by argument.
-/

namespace Porpoise.Shim

open Porpoise.Lib

variable {c : Ctx} {u v : UMem} {p : Word}

/-! ## The arguments -/

/-- The object that a pointer leads to; none for `NULL`. -/
def pointee (mem : Word → Bytes) (p : Word) (size : Nat) : Option (List Byte) :=
  if p = 0 then none else some (take size (mem p))

theorem pointee_zero (mem : Word → Bytes) (size : Nat) : pointee mem 0 size = none := if_pos rfl

theorem pointee_of_ne (mem : Word → Bytes) (hp : p ≠ 0) (size : Nat) :
    pointee mem p size = some (take size (mem p)) := if_neg hp

/-- What the host passes to the kernel. -/
def hostArgs (c : Ctx) (n : Sysno) (u : UMem) : List Word :=
  (unwrapCase n).flatMap fun h => h.args.map (·.eval c (sent c n u))

def hostArg (c : Ctx) (n : Sysno) (u : UMem) (i : Nat) : Word := (hostArgs c n u).getD i 0

/-- Untrusted memory at the ocall, as the kernel addresses it. -/
def hostMem (c : Ctx) (n : Sysno) (u : UMem) (p : Word) : Bytes := sent c n u (c.region p)

/-- The arguments of `pselect6`, in order. -/
inductive PselectArg
  | nfds | readfds | writefds | exceptfds | timeout | sigmask
  deriving DecidableEq

namespace PselectArg

def index : PselectArg → Nat
  | nfds => 0 | readfds => 1 | writefds => 2 | exceptfds => 3 | timeout => 4 | sigmask => 5

/-- The caller's pointers. The last argument points to that of the mask. -/
def ptr (c : Ctx) : PselectArg → Word
  | nfds => 0
  | readfds => c.a2
  | writefds => c.a3
  | exceptfds => c.a4
  | timeout => c.a5
  | sigmask => load64 (c.mem.at c.a6) 0

/-- The size of the object; the kernel's signal set has eight bytes. -/
def size : PselectArg → Nat
  | nfds => 0
  | readfds | writefds | exceptfds => 128
  | timeout => 16
  | sigmask => 8

end PselectArg

def fdSets : List PselectArg := [.readfds, .writefds, .exceptfds]

/-- The kernel gets the argument in its own position. -/
def Passed (c : Ctx) (u : UMem) : PselectArg → Prop
  | .nfds => (hostArg c .pselect6 u 0).setWidth 32 = c.a1.setWidth 32
  | x => pointee (hostMem c .pselect6 u) (hostArg c .pselect6 u x.index) x.size =
      pointee c.mem.at (x.ptr c) x.size

/-- The caller finds the set that the kernel left in the slot. -/
def SetBack (c : Ctx) (u v : UMem) (x : PselectArg) : Prop :=
  x.ptr c ≠ 0 → ∀ j < x.size, (memAfter c .pselect6 v).at (x.ptr c) j =
    v (c.region (hostArg c .pselect6 u x.index)) j

/-- **`pselect6` keeps its arguments and results apart**, for every slot content and
every success of the kernel. -/
structure PselectMet (c : Ctx) : Prop where
  passed : ∀ u x, Passed c u x
  back : ∀ u v, ¬ IsError (resultOf v) → ∀ x ∈ fdSets, SetBack c u v x

/-- **`epoll_pwait` passes its arguments.** -/
structure EpollPassed (c : Ctx) (u : UMem) : Prop where
  epfd : (hostArg c .epoll_pwait u 0).setWidth 32 = c.a1.setWidth 32
  maxevents : (hostArg c .epoll_pwait u 2).setWidth 32 = c.a3.setWidth 32
  timeout : (hostArg c .epoll_pwait u 3).setWidth 32 = c.a4.setWidth 32
  sigmask : pointee (hostMem c .epoll_pwait u) (hostArg c .epoll_pwait u 4) c.a6.toNat =
    pointee c.mem.at c.a5 c.a6.toNat
  sigsetsize : hostArg c .epoll_pwait u 5 = c.a6

/-- When `pselect6` passes an argument. -/
def passedWhen (c : Ctx) : PselectArg → Prop
  -- not sent
  | .nfds => False
  | .readfds | .exceptfds => True
  -- the size of the pointer is sent
  | .writefds => c.a3 = 0
  -- the pointer is overwritten with that of the mask
  | .timeout => PselectArg.sigmask.ptr c = 0 ∨
      c.a5 ≠ 0 ∧ ∀ j < 16, c.mem.at (PselectArg.sigmask.ptr c) j = c.mem.at c.a5 j
  | .sigmask => PselectArg.sigmask.ptr c = 0

/-! ## The slot of `pselect6` -/

/-- The blocks of a call are different. -/
theorem alloc_ne_alloc {j k : Nat} (hj : j < 3) (hk : k < 3) (hne : j ≠ k) :
    c.alloc j ≠ c.alloc k := fun h => hne (c.alloc_inj j (by omega) k (by omega) h)

/-- The numbers of the blocks of the timeout and of the mask. -/
def timeoutBlock (c : Ctx) : Nat := if c.a4 ≠ 0 then 1 else 0

def maskBlock (c : Ctx) : Nat := (if c.a4 ≠ 0 then 1 else 0) + if c.a5 ≠ 0 then 1 else 0

section Slot

variable (c u)

theorem pselect_arg1 : sent c .pselect6 u (.buf .arg1) = u (.buf .arg1) :=
  sent_of_ne (by decide) pselect6_first_unsent u

theorem pselect_readfds : hostArg c .pselect6 u 1 = if c.a2 = 0 then 0 else c.addr .arg7 :=
  pselect6_readfds_sent c u

theorem pselect_writefds : hostArg c .pselect6 u 2 = if c.a3 = 0 then 0 else c.addr .arg8 :=
  pselect6_writefds_sent c u

theorem pselect_exceptfds : hostArg c .pselect6 u 3 = if c.a4 = 0 then 0 else c.alloc 0 :=
  pselect6_exceptfds_sent c u

theorem pselect_timeout : hostArg c .pselect6 u 4 =
    if PselectArg.sigmask.ptr c = 0 then if c.a5 = 0 then 0 else c.alloc (timeoutBlock c)
    else c.alloc (maskBlock c) := by
  show load64 (sent c .pselect6 u (.buf .arg5)) 0 = _
  by_cases hmask : load64 (c.mem.at c.a6) 0 = 0#64
  · simp [sent, wrapSends, applyAll_ite, PselectArg.ptr, timeoutBlock, hmask]
    split <;> simp
  · simp [sent, wrapSends, applyAll_ite, PselectArg.ptr, maskBlock, hmask]

theorem pselect_sigmask : hostArg c .pselect6 u 5 =
    if PselectArg.sigmask.ptr c = 0 then 0 else load64 (u (.buf .arg6)) 0 := by
  show load64 (sent c .pselect6 u (.buf .arg6)) 0 = _
  by_cases hmask : load64 (c.mem.at c.a6) 0 = 0#64
  · simp [sent, wrapSends, applyAll_ite, PselectArg.ptr, hmask]
  · simp [sent, wrapSends, applyAll_ite, PselectArg.ptr, hmask]

/-- The objects that were sent. -/
theorem pselect_arg7 (h2 : c.a2 ≠ 0) :
    sent c .pselect6 u (.buf .arg7) = overlay 0 128 (c.mem.at c.a2) (u (.buf .arg7)) := by
  have h2' : ¬ c.a2 = 0#64 := h2
  simp [sent, wrapSends, applyAll_ite, h2']

theorem pselect_arg8 (h3 : c.a3 ≠ 0) :
    sent c .pselect6 u (.buf .arg8) = overlay 0 8 (c.mem.at c.a3) (u (.buf .arg8)) := by
  have h3' : ¬ c.a3 = 0#64 := h3
  simp [sent, wrapSends, applyAll_ite, h3']

theorem pselect_except_block (h4 : c.a4 ≠ 0) : sent c .pselect6 u (.heap (c.alloc 0)) =
    overlay 0 128 (c.mem.at c.a4) (u (.heap (c.alloc 0))) := by
  have h4' : ¬ c.a4 = 0#64 := h4
  have h1 : c.alloc 0 ≠ c.alloc 1 := alloc_ne_alloc (by decide) (by decide) (by decide)
  have h2 : c.alloc 0 ≠ c.alloc 2 := alloc_ne_alloc (by decide) (by decide) (by decide)
  by_cases h5 : c.a5 = 0#64
  · simp [sent, wrapSends, applyAll_ite, h4', h5, h1]
  · simp [sent, wrapSends, applyAll_ite, h4', h5, h1, h2]

theorem pselect_timeout_block (h5 : c.a5 ≠ 0) (hmask : PselectArg.sigmask.ptr c = 0) :
    sent c .pselect6 u (.heap (c.alloc (timeoutBlock c))) =
      overlay 0 16 (c.mem.at c.a5) (u (.heap (c.alloc (timeoutBlock c)))) := by
  have h5' : ¬ c.a5 = 0#64 := h5
  have hmask' : load64 (c.mem.at c.a6) 0 = 0#64 := hmask
  have h1 : c.alloc 1 ≠ c.alloc 0 := alloc_ne_alloc (by decide) (by decide) (by decide)
  by_cases h4 : c.a4 = 0#64
  · simp [sent, wrapSends, applyAll_ite, timeoutBlock, h4, h5', hmask']
  · simp [sent, wrapSends, applyAll_ite, timeoutBlock, h4, h5', hmask', h1]

theorem pselect_mask_block (hmask : PselectArg.sigmask.ptr c ≠ 0) :
    sent c .pselect6 u (.heap (c.alloc (maskBlock c))) =
      overlay 0 128 (c.mem.at (PselectArg.sigmask.ptr c))
        (u (.heap (c.alloc (maskBlock c)))) := by
  have hmask' : ¬ load64 (c.mem.at c.a6) 0 = 0#64 := hmask
  have h1 : c.alloc 1 ≠ c.alloc 0 := alloc_ne_alloc (by decide) (by decide) (by decide)
  have h2 : c.alloc 2 ≠ c.alloc 0 := alloc_ne_alloc (by decide) (by decide) (by decide)
  have h21 : c.alloc 2 ≠ c.alloc 1 := alloc_ne_alloc (by decide) (by decide) (by decide)
  by_cases h4 : c.a4 = 0#64 <;> by_cases h5 : c.a5 = 0#64
  all_goals
    simp [sent, wrapSends, applyAll_ite, maskBlock, PselectArg.ptr, h4, h5, hmask', h1, h2, h21]

end Slot

/-! ## Argument by argument -/

/-- An object of which the slot holds all that the kernel reads. -/
theorem pointee_of_sent {g : Bytes} {k size : Nat} {h : UMem} {mem : Word → Bytes} {x y : Word}
    (hx : x ≠ 0) (hy : y ≠ 0) (hf : h (c.region x) = overlay 0 k (mem y) g) (hk : size ≤ k) :
    pointee (fun p => h (c.region p)) x size = pointee mem y size := by
  rw [pointee_of_ne _ hx, pointee_of_ne _ hy, hf]
  refine congrArg some (take_eq_iff.mpr fun j hj => ?_)
  have hbyte := overlay_of_lt (o := 0) (i := j) (by omega : j < k) (mem y) g
  rwa [Nat.zero_add] at hbyte

theorem nfds_never (c : Ctx) : ¬ ∀ u, Passed c u .nfds := by
  intro h
  have hfirst := h fun _ => le64 (~~~ c.a1)
  have harg : hostArg c .pselect6 (fun _ => le64 (~~~ c.a1)) 0 =
      (load32 (sent c .pselect6 (fun _ => le64 (~~~ c.a1)) (.buf .arg1)) 0).setWidth 64 := rfl
  rw [Passed, harg, pselect_arg1, load32_le64] at hfirst
  have hbit := congrArg (·.getLsbD 0) hfirst
  simp at hbit

theorem readfds_passed (c : Ctx) (u : UMem) : Passed c u .readfds := by
  show pointee _ (hostArg c .pselect6 u 1) 128 = pointee _ c.a2 128
  rw [pselect_readfds]
  by_cases h2 : c.a2 = 0
  · rw [if_pos h2, h2, pointee_zero, pointee_zero]
  · rw [if_neg h2]
    have hset := pselect_arg7 c u h2
    rw [← c.region_addr .arg7] at hset
    exact pointee_of_sent (c.addr_ne _) h2 hset le_rfl

theorem exceptfds_passed (halloc : ∀ k < mallocs c .pselect6, c.alloc k ≠ 0) (u : UMem) :
    Passed c u .exceptfds := by
  show pointee _ (hostArg c .pselect6 u 3) 128 = pointee _ c.a4 128
  rw [pselect_exceptfds]
  by_cases h4 : c.a4 = 0
  · rw [if_pos h4, h4, pointee_zero, pointee_zero]
  · have hblock : 0 < mallocs c .pselect6 := by
      simp only [mallocs, if_pos h4]
      omega
    rw [if_neg h4]
    have hset := pselect_except_block c u h4
    rw [← c.region_alloc] at hset
    exact pointee_of_sent (halloc 0 hblock) h4 hset le_rfl

theorem writefds_passed_iff : (∀ u, Passed c u .writefds) ↔ c.a3 = 0 := by
  have hview : ∀ u, Passed c u .writefds ↔ pointee (hostMem c .pselect6 u)
      (if c.a3 = 0 then 0 else c.addr .arg8) 128 = pointee c.mem.at c.a3 128 := by
    intro u
    rw [← pselect_writefds c u]
    exact Iff.rfl
  constructor
  · intro h
    by_contra h3
    -- the ninth byte of the buffer is of an earlier call
    have hset := (hview _).mp (h fun _ _ => ~~~ c.mem.at c.a3 8)
    rw [if_neg h3, pointee_of_ne _ (c.addr_ne _), pointee_of_ne _ h3, hostMem, c.region_addr,
      pselect_arg8 _ _ h3] at hset
    have hbyte := take_eq_iff.mp (Option.some.inj hset) 8 (by decide)
    rw [overlay_of_not (by decide)] at hbyte
    exact byte_not_ne _ hbyte
  · intro h3 u
    rw [hview, if_pos h3, h3, pointee_zero, pointee_zero]

theorem timeout_passed_iff (halloc : ∀ k < mallocs c .pselect6, c.alloc k ≠ 0) (u : UMem) :
    Passed c u .timeout ↔ passedWhen c .timeout := by
  have hview : Passed c u .timeout ↔ pointee (hostMem c .pselect6 u)
      (if PselectArg.sigmask.ptr c = 0 then if c.a5 = 0 then 0 else c.alloc (timeoutBlock c)
        else c.alloc (maskBlock c)) 16 = pointee c.mem.at c.a5 16 := by
    rw [← pselect_timeout c u]
    exact Iff.rfl
  rw [hview]
  by_cases hmask : PselectArg.sigmask.ptr c = 0
  · rw [if_pos hmask]
    refine iff_of_true ?_ (.inl hmask)
    by_cases h5 : c.a5 = 0
    · rw [if_pos h5, h5, pointee_zero, pointee_zero]
    · have hblock : timeoutBlock c < mallocs c .pselect6 := by
        simp only [mallocs, timeoutBlock, if_pos h5]
        omega
      rw [if_neg h5]
      have hspec := pselect_timeout_block c u h5 hmask
      rw [← c.region_alloc] at hspec
      exact pointee_of_sent (halloc _ hblock) h5 hspec le_rfl
  · have hblock : maskBlock c < mallocs c .pselect6 := by
      have hne : load64 (c.mem.at c.a6) 0 ≠ 0 := hmask
      simp only [mallocs, maskBlock, if_pos hne]
      omega
    have hsent : pointee (hostMem c .pselect6 u) (c.alloc (maskBlock c)) 16 =
        pointee c.mem.at (PselectArg.sigmask.ptr c) 16 := by
      have hset := pselect_mask_block c u hmask
      rw [← c.region_alloc] at hset
      exact pointee_of_sent (halloc _ hblock) hmask hset (by decide)
    rw [if_neg hmask, hsent, pointee_of_ne _ hmask, passedWhen, or_iff_right hmask]
    by_cases h5 : c.a5 = 0
    · rw [h5, pointee_zero]
      exact iff_of_false (fun h => Option.some_ne_none _ h) fun h => h.1 rfl
    · rw [pointee_of_ne _ h5, Option.some_inj, take_eq_iff]
      exact (and_iff_right h5).symm

theorem sigmask_passed_iff : (∀ u, Passed c u .sigmask) ↔ PselectArg.sigmask.ptr c = 0 := by
  have hview : ∀ u, Passed c u .sigmask ↔ pointee (hostMem c .pselect6 u)
      (if PselectArg.sigmask.ptr c = 0 then 0 else load64 (u (.buf .arg6)) 0) 8 =
        pointee c.mem.at (PselectArg.sigmask.ptr c) 8 := by
    intro u
    rw [← pselect_sigmask c u]
    exact Iff.rfl
  constructor
  · intro h
    by_contra hmask
    -- `arg6` holds what an earlier call left there: a null pointer
    have hset := (hview _).mp (h fun _ => le64 0)
    rw [if_neg hmask, load64_le64, pointee_zero, pointee_of_ne _ hmask] at hset
    exact absurd hset.symm (Option.some_ne_none _)
  · intro hmask u
    rw [hview, if_pos hmask, hmask, pointee_zero, pointee_zero]

/-- **An argument** of `pselect6`. -/
theorem passed_iff (halloc : ∀ k < mallocs c .pselect6, c.alloc k ≠ 0) (x : PselectArg) :
    (∀ u, Passed c u x) ↔ passedWhen c x := by
  cases x with
  | nfds => exact iff_of_false (nfds_never c) id
  | readfds => exact iff_of_true (readfds_passed c) trivial
  | writefds => exact writefds_passed_iff
  | exceptfds => exact iff_of_true (exceptfds_passed halloc) trivial
  | timeout =>
      have htimeout := timeout_passed_iff halloc
      exact ⟨fun h => (htimeout _).mp (h fun _ _ => 0), fun h u => (htimeout u).mpr h⟩
  | sigmask => exact sigmask_passed_iff

/-! ## The sets when the call has returned -/

theorem set_region_ne {x : PselectArg} (hx : x ∈ fdSets) (hne : x.ptr c ≠ 0) (u : UMem) :
    c.region (hostArg c .pselect6 u x.index) ≠ .buf .arg0 := by
  cases x
  case nfds | timeout | sigmask => exact absurd hx (by decide)
  case readfds =>
    have harg := (pselect_readfds c u).trans (if_neg hne)
    rw [PselectArg.index, harg, c.region_addr]
    decide
  case writefds =>
    have harg := (pselect_writefds c u).trans (if_neg hne)
    rw [PselectArg.index, harg, c.region_addr]
    decide
  case exceptfds =>
    have harg := (pselect_exceptfds c u).trans (if_neg hne)
    rw [PselectArg.index, harg, c.region_alloc]
    exact heap_ne_buf _ _

/-- Nothing is copied back. -/
theorem set_back_iff {x : PselectArg} (hx : x ∈ fdSets) :
    (∀ u v, ¬ IsError (resultOf v) → SetBack c u v x) ↔ x.ptr c = 0 := by
  constructor
  · intro h
    by_contra hne
    obtain ⟨v, hzero, hrest⟩ : ∃ v : UMem, v (.buf .arg0) = le64 0 ∧
        ∀ q ≠ .buf .arg0, v q = fun _ => ~~~ c.mem.at (x.ptr c) 0 :=
      ⟨fun q => if q = .buf .arg0 then le64 0 else _, if_pos rfl, fun q hq => if_neg hq⟩
    have hresult : ¬ IsError (resultOf v) := by
      rw [resultOf, hzero, load64_le64]
      decide
    have hsize : 0 < x.size := by
      revert hx
      cases x <;> decide
    have hbyte := h (fun _ _ => 0) v hresult hne 0 hsize
    rw [hrest _ (set_region_ne hx hne _)] at hbyte
    have hkept : c.mem.at (x.ptr c) 0 = ~~~ c.mem.at (x.ptr c) 0 := hbyte
    exact byte_not_ne _ hkept.symm
  · intro hnull u v _ hne
    exact absurd hnull hne

/-! ## `epoll_pwait` -/

theorem epollPassed_iff (u : UMem) : EpollPassed c u ↔ c.a5 = 0 := by
  have hmask : hostArg c .epoll_pwait u 4 = 0 := rfl
  constructor
  · intro h
    by_contra h5
    have hset := h.sigmask
    rw [hmask, pointee_zero, pointee_of_ne _ h5] at hset
    exact absurd hset.symm (Option.some_ne_none _)
  · intro h5
    have h5' : c.a5 = 0#64 := h5
    have hint : ∀ b : Buf, ((Operand.int b).eval c (sent c .epoll_pwait u)).setWidth 32 =
        load32 (sent c .epoll_pwait u (.buf b)) 0 := fun b => trunc_int _
    refine ⟨(hint .arg1).trans ?_, (hint .arg3).trans ?_, (hint .arg4).trans ?_, ?_, ?_⟩
    · simp [sent, wrapSends, h5']
    · simp [sent, wrapSends, h5']
    · simp [sent, wrapSends, h5']
    · rw [hmask, h5, pointee_zero, pointee_zero]
    · show load64 (sent c .epoll_pwait u (.buf .arg6)) 0 = c.a6
      simp [sent, wrapSends, h5']

/-! ## What keeps apart -/

/-- **Sets, timeouts and masks.** For every call, `NULL` or not in each place, and every
slot: `pselect6` never keeps all its arguments and results apart, `nfds` is never passed,
and each other argument is exactly when `passedWhen` says; a set comes back only if it is
`NULL`; and `epoll_pwait` passes its arguments exactly when its mask is `NULL`. -/
theorem pselect6_epoll_pwait_iff (c : Ctx) (halloc : ∀ k < mallocs c .pselect6, c.alloc k ≠ 0) :
    ¬ PselectMet c ∧ (∀ x, (∀ u, Passed c u x) ↔ passedWhen c x) ∧
      (∀ x ∈ fdSets, (∀ u v, ¬ IsError (resultOf v) → SetBack c u v x) ↔ x.ptr c = 0) ∧
      ∀ u, EpollPassed c u ↔ c.a5 = 0 :=
  ⟨fun h => nfds_never c fun u => h.passed u .nfds, passed_iff halloc, fun _ hx => set_back_iff hx,
    epollPassed_iff⟩

/-- A call with a pointer to a mask of one signal in its last argument, and `p` in the
fifth. -/
def masked (p : Word) : Ctx :=
  Ctx.plain 3 0 8 0 p 8192 fun q => if q = 8193 then 64 else if q = 16384 then 1 else 0

theorem masked_alloc (p : Word) : ∀ k < mallocs (masked p) .pselect6, (masked p).alloc k ≠ 0 := by
  intro k hk hzero
  have hlt : k < 3 := by
    refine Nat.lt_of_lt_of_le hk ?_
    simp only [mallocs]
    split_ifs <;> omega
  have hnat := congrArg BitVec.toNat hzero
  have halloc : ((masked p).alloc k).toNat = (16 * k + 8) % 2 ^ 64 := BitVec.toNat_ofNat _ _
  rw [halloc] at hnat
  exact absurd hnat (by show (16 * k + 8) % 2 ^ 64 ≠ 0; omega)

/-- Without a mask in its own place `epoll_pwait` passes its arguments. -/
theorem epoll_pwait_unmasked : (masked 0).a5 = 0 ∧ ∀ u, EpollPassed (masked 0) u :=
  ⟨rfl, fun u => ((pselect6_epoll_pwait_iff (masked 0) (masked_alloc 0)).2.2.2 u).mpr rfl⟩

/-- With a timeout of 0 seconds at 4096, the kernel of `pselect6` takes the mask for a
timeout of one; with a mask at 4096, `epoll_pwait` passes none. -/
theorem pselect6_mask_for_timeout : ¬ PselectMet (masked 4096) ∧
    (¬ Passed (masked 4096) (fun _ _ => 0) .timeout) ∧
      ¬ EpollPassed (masked 4096) fun _ _ => 0 := by
  refine ⟨fun h => nfds_never _ fun u => h.passed u .nfds, fun h => ?_, fun h => ?_⟩
  · rcases (timeout_passed_iff (masked_alloc 4096) _).mp h with hnull | ⟨-, hbytes⟩
    · exact absurd hnull (by decide)
    · exact absurd (hbytes 0 (by decide)) (by decide)
  · exact absurd ((epollPassed_iff _).mp h) (by decide)

end Porpoise.Shim
