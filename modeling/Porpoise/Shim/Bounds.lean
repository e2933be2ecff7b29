import Porpoise.Shim.RecvBounds

/-!
# Transfers stay inside the buffers

* `not_inside_alarm`: the second ocall of `alarm` can be any call, with what
  earlier calls left as its arguments.
* `transfers_inside`: when no transfer of a call leaves its buffer, and no length
  turns negative, whatever the slot held and the kernel answers.
-/

namespace Porpoise.Shim

open Porpoise.Lib

variable {c : Ctx} {K : Kernel} {u : UMem} {n : Sysno}

/-- When the copies before and after the ocall and the kernel's writes stay
inside. -/
def transfersFit (c : Ctx) (K : Kernel) (n : Sysno) : Prop :=
  sendsFit c n ∧ kernelFits c K n ∧ recvsFit c K n

/-! ## `alarm` -/

/-- Earlier calls left a large length in `arg5`. -/
def staleLength : UMem := fun r => if r = .buf .arg5 then le64 0x7fffffff else fun _ => 0

/-- Untrusted memory at the second ocall of `alarm`, when 55 seconds were left. -/
def sentSecond (c : Ctx) : UMem :=
  applyAll (wrapSends c .setitimer) ((put .arg0 55).apply (sent c .alarm staleLength))

theorem ocallCalls_sentSecond : ocallCalls (sentSecond c) = unwrapCase .getsockopt := by
  have hnr : hostSysno (sentSecond c) = some .getsockopt := by
    refine hostSysno_of_sendNr (u := sent c .alarm staleLength) ?_
    exact applyAll_of_ne (dst_ne_arg0 c .setitimer) _
  rw [ocallCalls, hnr]

/-- The second ocall asks the kernel for more bytes than `arg4` has. -/
theorem sentSecond_length : load32 (sentSecond c (.buf .arg5)) 0 = 0x7fffffff := by
  have hfirst : sent c .alarm staleLength (.buf .arg5) = staleLength (.buf .arg5) := by
    refine sent_of_ne (by decide) ?_ _
    simp [wrapSends]
  have hsecond : ∀ s ∈ wrapSends c .setitimer, s.dst ≠ .buf .arg5 := by
    simp only [wrapSends, List.forall_mem_append, forall_mem_ite, List.forall_mem_cons]
    simp
  rw [sentSecond, applyAll_of_ne hsecond, put_apply, if_neg (by decide), hfirst, staleLength,
    if_pos rfl, load32_le64]
  rfl

/-- **`alarm`** runs on into `setitimer`: the result of its ocall is the number of
the next. -/
theorem not_inside_alarm : ¬ Inside c K .alarm := by
  rintro ⟨-, h⟩
  obtain ⟨-, -, hreturn⟩ := h staleLength
  have hcalls : ocallCalls (sent c .alarm staleLength) = unwrapCase .alarm := by
    rw [ocallCalls, hostSysno_sent]
  have hanswer : Returned c K (ocallCalls (sent c .alarm staleLength)) (sent c .alarm staleLength)
      ((put .arg0 55).apply (sent c .alarm staleLength)) := by
    refine returned_put fun hc hmem => ?_
    rw [hcalls] at hmem
    obtain rfl := Option.some.inj hmem
    exact .inr (show (55 : Word).toNat ≤ 2 ^ 64 - 1 by decide)
  obtain ⟨-, hwrites, -⟩ := hreturn _ hanswer
  have hwrite : ∀ hc ∈ ocallCalls (sentSecond c), ∀ w ∈ hc.writes c K (sentSecond c), w.Inside c :=
    hwrites
  rw [ocallCalls_sentSecond] at hwrite
  simp only [unwrapCase, List.forall_mem_cons, List.not_mem_nil, IsEmpty.forall_iff, implies_true,
    and_true] at hwrite
  simp only [HostCall.writes, HostCall.argVals, HostCall.kargs, params, sysParams, List.map_cons,
    List.map_nil, List.zipWith, Param.writes, Operand.eval, Param.inout, BitVec.ofNat_eq_ofNat,
    Ctx.addr_ne_zero, if_false, List.flatten_cons, List.flatten_nil, List.nil_append,
    List.append_nil, List.forall_mem_append, List.forall_mem_cons, kwrite_addr_inside, kargs_mem,
    Nat.zero_add] at hwrite
  have hlength := hwrite.1.1
  simp only [kargs_val, params, sysParams, List.zipWith, List.getD, List.getElem?_cons_zero,
    List.getElem?_cons_succ, Option.getD, Param.trunc, Param.inout, Ctx.region_addr,
    sentSecond_length] at hlength
  exact absurd hlength (by decide)

/-! ## All calls -/

/-- **The copies back** stay inside exactly when `recvsFit` says so. -/
theorem recvs_inside_iff :
    (∀ u v, Returned c K (unwrapCase n) (sent c n u) v →
      ∀ r ∈ wrapRecvs c v (wrapMem c n) n, r.Inside) ↔ recvsFit c K n := by
  by_cases hn : n ∈ resultCalls
  · by_cases hr : n = .readv
    · subst hr
      exact recvs_inside_readv
    by_cases hm : n = .recvmsg
    · subst hm
      exact recvs_inside_recvmsg
    exact recvs_inside_result hn hr hm
  · exact recvs_inside_const hn

/-- **Transfers inside the slot buffers.** For every call, argument vector, enclave
memory and kernel, exactly when the lengths fit. -/
theorem transfers_inside (c : Ctx) (K : Kernel) (n : Sysno) :
    Inside c K n ↔ transfersFit c K n := by
  by_cases hnone : n = .getitimer ∨ n = .rt_sigreturn
  · rcases hnone with rfl | rfl
    all_goals
      exact iff_of_true (inside_of_no_phases rfl fun _ => rfl) ⟨trivial, trivial, trivial⟩
  by_cases halarm : n = .alarm
  · subst halarm
    exact iff_of_false not_inside_alarm fun h => h.2.1.elim
  have hphases : wrapPhases c n = [wrapSends c n] := by
    cases n <;> first | rfl | exact absurd rfl halarm | simp at hnone
  rw [inside_iff_of_phases hphases, sends_inside_iff, kernel_inside_iff halarm, recvs_inside_iff]
  rfl

/-- `write(1, p, 81921)` is one byte too long for `arg2`. -/
theorem write_not_inside :
    ¬ Inside (Ctx.plain 1 4096 81921 0 0 0 fun _ => 0) linux .write := by
  intro h
  rw [inside_iff_of_phases rfl, sends_inside_iff] at h
  exact absurd h.1 (not_fits_of_lt (by decide))

end Porpoise.Shim
