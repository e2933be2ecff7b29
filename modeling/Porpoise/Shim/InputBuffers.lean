import Porpoise.Shim.OneCall
import Porpoise.Shim.Pselect

/-!
# Input buffers

The calls that hand one buffer to the kernel: `write`, `pwrite64`, `connect`, `bind`,
`setsockopt`, `setgroups` and `rt_sigqueueinfo`. How much is copied to the slot and how
much the kernel is told to read are computed apart, with different widths and element
sizes.

* `InputFits`: the object has room in the slot.
* `InputWhole`: the kernel gets the caller's scalars, and the caller's bytes as far as it
  reads.
* `input_whole`: the second follows from the first.
-/

namespace Porpoise.Shim

open Porpoise.Lib

variable {c : Ctx} {K : Kernel} {u : UMem}

inductive InputCall
  | write | pwrite64 | connect | bind | setsockopt | setgroups | rt_sigqueueinfo
  deriving DecidableEq

namespace InputCall

def sysno : InputCall → Sysno
  | write => .write
  | pwrite64 => .pwrite64
  | connect => .connect
  | bind => .bind
  | setsockopt => .setsockopt
  | setgroups => .setgroups
  | rt_sigqueueinfo => .rt_sigqueueinfo

/-- The place of the buffer among the arguments. -/
def place : InputCall → Nat
  | rt_sigqueueinfo => 2
  | setsockopt => 3
  | _ => 1

def ptr (c : Ctx) : InputCall → Word
  | rt_sigqueueinfo => c.a3
  | setsockopt => c.a4
  | _ => c.a2

/-- The size of the object. -/
def size (c : Ctx) : InputCall → Nat
  | setsockopt => (c.a5.setWidth 32).toNat
  | setgroups => 4 * c.a1.toNat
  | rt_sigqueueinfo => 128
  | _ => c.a3.toNat

end InputCall

variable {q : InputCall}

/-- The object fits a buffer of the slot. A group list is given. -/
structure InputFits (c : Ctx) (q : InputCall) : Prop where
  size : q.size c ≤ bufSize
  list : q = .setgroups → c.a2 ≠ 0

/-- An argument as the kernel sees it, with every pointer to an object taken for
one. -/
def objView (x : KArgs) : Param → Word → ArgView
  | .obj read _, p => .bytes (take (read x) (x.mem p))
  | a, w => argView x a w

/-- The caller's scalars, and as much of its object as the kernel reads. -/
def Ctx.objRequest (c : Ctx) (K : Kernel) (n : Sysno) : Request :=
  ⟨.syscall n, List.zipWith (objView (kargs K (.syscall n) c.args c.mem.at)) (sysParams n) c.args⟩

/-- **The input arrives whole**, whatever the slot held and the ocall returns. -/
structure InputWhole (c : Ctx) (K : Kernel) (q : InputCall) : Prop where
  request : ∀ r u, requests c K r q.sysno u = [[c.objRequest K q.sysno]]
  object : ∀ u, take (q.size c) (hostMem c q.sysno u (hostArg c q.sysno u q.place)) =
    take (q.size c) (c.mem.at (q.ptr c))

theorem wrapPhases_of_input (q : InputCall) (c : Ctx) :
    wrapPhases c q.sysno = [wrapSends c q.sysno] := by
  cases q <;> rfl

/-- The length of each copy. -/
def InputCall.copied (c : Ctx) : InputCall → Word
  | setsockopt => (c.a5.setWidth 32).setWidth 64
  | setgroups => c.a1 * 4
  | rt_sigqueueinfo => 128
  | _ => c.a3

/-- The copy is as long as the object. -/
theorem copied_eq (h : InputFits c q) : memcpyLen (q.copied c) = q.size c := by
  have hsize := h.size
  rw [bufSize] at hsize
  cases q with
  | setsockopt =>
      have hlen : ((c.a5.setWidth 32).setWidth 64).toNat = (c.a5.setWidth 32).toNat :=
        toNat_zeroExtend _
      have hlt : (c.a5.setWidth 32).toNat ≤ 8192 * 10 := hsize
      exact (memcpyLen_of_lt (show ((c.a5.setWidth 32).setWidth 64).toNat < 2 ^ 31 by omega)).trans
        hlen
  | setgroups =>
      have hlt : 4 * c.a1.toNat ≤ 8192 * 10 := hsize
      rw [InputCall.copied, BitVec.mul_comm]
      exact memcpyLen_mul (k := 4) (show 4 * c.a1.toNat < 2 ^ 31 by omega)
  | rt_sigqueueinfo => exact memcpyLen_ofNat (by decide)
  | write | pwrite64 | connect | bind =>
      have hlt : c.a3.toNat ≤ 8192 * 10 := hsize
      exact memcpyLen_of_lt (show c.a3.toNat < 2 ^ 31 by omega)

/-- What the kernel finds in the buffer. -/
theorem input_sent (h : InputFits c q) (u : UMem) : ∃ b : Buf,
    hostArg c q.sysno u q.place = c.addr b ∧
      sent c q.sysno u (.buf b) =
        overlay 0 (memcpyLen (q.copied c)) (c.mem.at (q.ptr c)) (u (.buf b)) := by
  cases q with
  | setsockopt =>
      refine ⟨.arg4, rfl, ?_⟩
      simp [InputCall.sysno, InputCall.copied, InputCall.ptr, sent, wrapSends]
  | setgroups =>
      have hlist : ¬ c.a2 = 0#64 := h.list rfl
      refine ⟨.arg2, rfl, ?_⟩
      simp [InputCall.sysno, InputCall.copied, InputCall.ptr, sent, wrapSends, hlist]
  | rt_sigqueueinfo =>
      refine ⟨.arg3, rfl, ?_⟩
      simp [InputCall.sysno, InputCall.copied, InputCall.ptr, sent, wrapSends]
  | write | pwrite64 | connect | bind =>
      refine ⟨.arg2, rfl, ?_⟩
      simp [InputCall.sysno, InputCall.copied, InputCall.ptr, sent, wrapSends]

theorem input_object (h : InputFits c q) (u : UMem) :
    take (q.size c) (hostMem c q.sysno u (hostArg c q.sysno u q.place)) =
      take (q.size c) (c.mem.at (q.ptr c)) := by
  obtain ⟨b, harg, hbytes⟩ := input_sent h u
  rw [hostMem, harg, c.region_addr, hbytes]
  exact take_overlay (copied_eq h).ge _ _

theorem input_request (h : InputFits c q) (r : Word) (u : UMem) :
    requests c K r q.sysno u = [[c.objRequest K q.sysno]] := by
  rw [requests_eq (wrapPhases_of_input q c)]
  have hlen := copied_eq h
  have hlist := h.list
  cases q
  -- the two requests, argument by argument
  all_goals
    simp only [InputCall.sysno, unwrapCase, List.map_cons, List.map_nil, Ctx.objRequest, objView,
      HostCall.request, kernelView, params, sysParams, List.zipWith, argView, Operand.eval,
      Param.input, Ctx.args, kargs_mem, Ctx.region_addr, BitVec.ofNat_eq_ofNat, Ctx.addr_ne_zero,
      if_false]
  case rt_sigqueueinfo =>
    simp [sent, wrapSends]
    exact take_overlay (by decide) _ _
  -- how many bytes the kernel reads
  all_goals
    simp only [KArgs.rwCount, KArgs.groupsIn, KArgs.sockaddrLen, KArgs.int, kargs_val, params,
      sysParams, List.zipWith, List.getD, List.getElem?_cons_zero, List.getElem?_cons_succ,
      Option.getD, Param.trunc]
  -- what the enclave wrote there
  case setgroups =>
    have hlist' : ¬ c.a2 = 0#64 := hlist rfl
    simp [sent, wrapSends, hlist']
    exact take_overlay (groups_sent c.a1) _ _
  case connect | bind =>
    simp [sent, wrapSends, -BitVec.toInt_setWidth]
    exact take_overlay (sockaddr_sent c.a3) _ _
  case setsockopt =>
    simp [sent, wrapSends, -BitVec.toInt_setWidth]
    exact take_overlay (optval_sent c.a5) _ _
  case write | pwrite64 =>
    simp [sent, wrapSends]
    exact take_overlay ((rwBytes_le_toNat c.a3).trans hlen.ge) _ _

/-- **Input buffers arrive whole.** For every object that fits the slot, and every slot
content. -/
theorem input_whole (c : Ctx) (K : Kernel) (q : InputCall) (h : InputFits c q) :
    InputWhole c K q :=
  ⟨input_request h, input_object h⟩

/-- `setgroups` of two groups at 4096, in a slot full of ones. -/
theorem input_whole_setgroups :
    InputFits (Ctx.plain 2 4096 0 0 0 0 fun p => if p = 4096 then 7 else 0) .setgroups ∧
      InputWhole (Ctx.plain 2 4096 0 0 0 0 fun p => if p = 4096 then 7 else 0)
        linux .setgroups := by
  have hfits : InputFits (Ctx.plain 2 4096 0 0 0 0 fun p => if p = 4096 then 7 else 0)
      .setgroups :=
    ⟨show 4 * (2#64).toNat ≤ 8192 * 10 by decide, fun _ => show (4096 : Word) ≠ 0 by decide⟩
  exact ⟨hfits, input_whole _ _ _ hfits⟩

end Porpoise.Shim
