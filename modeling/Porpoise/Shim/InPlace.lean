import Porpoise.Shim.InputBuffers
import Porpoise.Shim.Pointers
import Porpoise.Shim.Success

/-!
# Copy in, copy out

A call whose object the kernel reads and updates: the case copies the object to the slot,
the kernel updates part of the copy, and the case copies it back, whatever the result.

* `Mem.patch`: a direct kernel call on the caller's memory.
* `recv_apply_patch`: what is copied in at least as far as it is copied back comes back as
  if the kernel had updated it in place, however much longer than the kernel's object it is.
* `in_place_met`: `poll`, `pipe2` and `rt_sigprocmask`.
-/

namespace Porpoise.Shim

open Porpoise.Lib

variable {c : Ctx} {K : Kernel} {u v : UMem} {m : Mem} {e : Nat → Option Byte}

/-- Enclave memory after an update of an object in place. -/
def Mem.patch (m : Mem) (p : Word) (e : Nat → Option Byte) : Mem := fun x =>
  (e (x - p).toNat).getD (m x)

/-- Nothing but the object changes. -/
theorem Mem.patch_of_not_has {p x : Word} {size : Nat} (he : PatchWithin size e)
    (hx : ¬ (Obj.mk p size).Has x) : m.patch p e x = m x := by
  rw [Mem.patch, he _ (Nat.le_of_not_lt hx)]
  rfl

/-- A call that updates nothing. -/
theorem Mem.patch_zero (he : PatchWithin 0 e) (m : Mem) (p : Word) : m.patch p e = m := by
  funext x
  exact m.patch_of_not_has he (Nat.not_lt_zero _)

/-- **There and back.** An object of `k` bytes is copied to the slot, updated there and
copied back. -/
theorem recv_apply_patch {b : Buf} {p len : Word} {k : Nat} {f : Bytes}
    (hv : v (.buf b) = Lib.patch e (overlay 0 k (m.at p) f)) (hlen : memcpyLen len = k)
    (he : PatchWithin k e) : (recv (.buf b) p len).apply v m = m.patch p e := by
  funext x
  rw [recv_apply_eq, hlen]
  split
  · next hx => rw [hv, patch_overlay hx, Lib.patch, Mem.at, add_ofNat_sub, Mem.patch]
  · next hx => exact (m.patch_of_not_has he hx).symm

/-- A case that copies its object there and back unless the pointer is `NULL`. -/
theorem memAfter_optional {n : Sysno} {b : Buf} {p len : Word} {k : Nat} {f : Bytes}
    (hmem : wrapMem c n = c.mem)
    (hrecvs : wrapRecvs c v c.mem n = if p ≠ 0 then [recv (.buf b) p len] else [])
    (hv : p ≠ 0 → v (.buf b) = Lib.patch e (overlay 0 k (c.mem.at p) f)) (hlen : memcpyLen len = k)
    (he : PatchWithin k e) : memAfter c n v = if p = 0 then c.mem else c.mem.patch p e := by
  rw [memAfter, hmem, hrecvs]
  by_cases hp : p = 0
  · rw [if_pos hp, if_neg (not_not.mpr hp), applyRecvs_nil]
  · rw [if_neg hp, if_pos hp, applyRecvs_cons, applyRecvs_nil]
    exact recv_apply_patch (hv hp) hlen he

/-! ## The calls -/

inductive InPlaceCall
  | poll | pipe2 | rt_sigprocmask
  deriving DecidableEq

namespace InPlaceCall

def sysno : InPlaceCall → Sysno
  | poll => .poll
  | pipe2 => .pipe2
  | rt_sigprocmask => .rt_sigprocmask

/-- The buffer of the slot that holds the object, and the caller's object. -/
def slot : InPlaceCall → Buf
  | rt_sigprocmask => .arg6
  | _ => .arg1

/-- The place of the pointer among the kernel's arguments. -/
def place : InPlaceCall → Nat
  | rt_sigprocmask => 2
  | _ => 0

def ptr (c : Ctx) : InPlaceCall → Word
  | rt_sigprocmask => c.a3
  | _ => c.a1

/-- The bytes of the kernel's object: its signal set has eight. -/
def size (c : Ctx) : InPlaceCall → Nat
  | poll => 8 * c.a2.toNat
  | _ => 8

/-- The caller's request. The sets of `rt_sigprocmask` may be `NULL`. -/
def request (c : Ctx) (K : Kernel) : InPlaceCall → Request
  | rt_sigprocmask => c.request K .rt_sigprocmask
  | q => c.objRequest K q.sysno

/-- Enclave memory after the kernel's call on the caller's own object. -/
def direct (c : Ctx) (e : Nat → Option Byte) : InPlaceCall → Mem
  | rt_sigprocmask => if c.a3 = 0 then c.mem else c.mem.patch c.a3 e
  | q => c.mem.patch (q.ptr c) e

end InPlaceCall

variable {q : InPlaceCall}

/-- The length of an array of entries that fits the slot. -/
theorem memcpyLen_pollfds {w : Word} (h : 8 * w.toNat ≤ bufSize) :
    memcpyLen (8 * w) = 8 * w.toNat := by
  rw [bufSize] at h
  exact memcpyLen_mul (k := 8) (show 8 * w.toNat < 2 ^ 31 by omega)

/-- **Copy in, copy out is exact.** The kernel gets the caller's request, whatever the slot
held, with the address of the copy unless the caller's pointer is `NULL`; and for every update
of its object that it makes, on success or none on failure, the enclave's memory is as after a
direct call. -/
structure InPlaceMet (c : Ctx) (K : Kernel) (q : InPlaceCall) : Prop where
  passed : (q = .rt_sigprocmask → c.a3 ≠ 0) → ∀ u, hostArg c q.sysno u q.place = c.addr q.slot
  request : ∀ r u, requests c K r q.sysno u = [[q.request c K]]
  memory : ∀ u v e, PatchWithin (q.size c) e →
    v (.buf q.slot) = Lib.patch e (sent c q.sysno u (.buf q.slot)) →
      memAfter c q.sysno v = q.direct c e

/-- The kernel updates the copy. -/
theorem in_place_passed (q : InPlaceCall) (u : UMem) (h : q = .rt_sigprocmask → c.a3 ≠ 0) :
    hostArg c q.sysno u q.place = c.addr q.slot := by
  cases q with
  | poll | pipe2 => rfl
  | rt_sigprocmask =>
      have h3 : ¬ c.a3 = 0#64 := h rfl
      show load64 (sent c .rt_sigprocmask u (.buf .arg3)) 0 = _
      simp [sent, wrapSends, applyAll_ite, h3, InPlaceCall.slot]

theorem in_place_request (r : Word) (u : UMem) (hfits : q = .poll → 8 * c.a2.toNat ≤ bufSize) :
    requests c K r q.sysno u = [[q.request c K]] := by
  cases q with
  | poll =>
      have hlen := memcpyLen_pollfds (hfits rfl)
      have hread : (if c.a2.toNat ≤ K.nofile then 8 * c.a2.toNat else 0) ≤
          memcpyLen (8 * c.a2) := by
        split <;> omega
      rw [InPlaceCall.sysno, requests_eq rfl]
      -- the two requests, argument by argument
      simp only [unwrapCase, List.map_cons, List.map_nil, InPlaceCall.request, InPlaceCall.sysno,
        Ctx.objRequest, objView, HostCall.request, kernelView, params, sysParams, List.zipWith,
        argView, Operand.eval, Ctx.args, kargs_mem, Ctx.region_addr, BitVec.ofNat_eq_ofNat,
        Ctx.addr_ne_zero, if_false]
      -- how many bytes the kernel reads
      simp only [KArgs.pollLen, kargs_val, kargs_kernel, params, sysParams, List.zipWith, List.getD,
        List.getElem?_cons_zero, List.getElem?_cons_succ, Option.getD, Param.trunc]
      simp [sent, wrapSends]
      exact take_overlay hread _ _
  | pipe2 =>
      rw [InPlaceCall.sysno, requests_eq rfl]
      simp [unwrapCase, InPlaceCall.request, InPlaceCall.sysno, Ctx.objRequest, objView,
        HostCall.request, kernelView, params, sysParams, Param.output, argView, Operand.eval,
        Ctx.args, sent, wrapSends]
  | rt_sigprocmask =>
      have hgood : c.GoodPointers .rt_sigprocmask :=
        ⟨fun _ hp => absurd hp List.not_mem_nil, fun h => by cases h⟩
      exact (pointers_faithful (by decide) hgood K r u).1

theorem in_place_memory (hfits : q = .poll → 8 * c.a2.toNat ≤ bufSize)
    (he : PatchWithin (q.size c) e)
    (hv : v (.buf q.slot) = Lib.patch e (sent c q.sysno u (.buf q.slot))) :
    memAfter c q.sysno v = q.direct c e := by
  cases q with
  | poll =>
      have hlen := memcpyLen_pollfds (hfits rfl)
      have hsent : sent c .poll u (.buf .arg1) =
          overlay 0 (8 * c.a2.toNat) (c.mem.at c.a1) (u (.buf .arg1)) := by
        simp [sent, wrapSends, ← hlen]
      exact recv_apply_patch (hv.trans (congrArg _ hsent)) hlen he
  | pipe2 =>
      have hsent : sent c .pipe2 u (.buf .arg1) =
          overlay 0 8 (c.mem.at c.a1) (u (.buf .arg1)) := by
        simp [sent, wrapSends]
      exact recv_apply_patch (hv.trans (congrArg _ hsent)) (by decide) he
  | rt_sigprocmask =>
      have hsent : c.a3 ≠ 0 → sent c .rt_sigprocmask u (.buf .arg6) =
          overlay 0 128 (c.mem.at c.a3) (u (.buf .arg6)) := by
        intro h3
        have h3' : ¬ c.a3 = 0#64 := h3
        simp [sent, wrapSends, applyAll_ite, h3']
      -- the kernel's set has eight bytes, musl's 128
      have hset : PatchWithin 128 e := PatchWithin.mono he (show 8 ≤ 128 by decide)
      exact memAfter_optional rfl rfl (fun h3 => hv.trans (congrArg _ (hsent h3))) (by decide) hset

/-- **Poll, pipes and signal masks.** For every array of entries that fits the slot, every
combination of sets, every update and every slot content. -/
theorem in_place_met (c : Ctx) (K : Kernel) (q : InPlaceCall)
    (hfits : q = .poll → 8 * c.a2.toNat ≤ bufSize) : InPlaceMet c K q :=
  ⟨fun h u => in_place_passed q u h, fun r u => in_place_request r u hfits,
    fun _ _ _ he hv => in_place_memory hfits he hv⟩

/-- `poll(4096, 2, -1)`. -/
theorem in_place_met_poll :
    8 * (Ctx.plain 4096 2 (-1) 0 0 0 fun _ => 1).a2.toNat ≤ bufSize ∧
      InPlaceMet (Ctx.plain 4096 2 (-1) 0 0 0 fun _ => 1) linux .poll := by
  have hfits : 8 * (2#64).toNat ≤ 8192 * 10 := by decide
  exact ⟨hfits, in_place_met _ _ .poll fun _ => hfits⟩

end Porpoise.Shim
