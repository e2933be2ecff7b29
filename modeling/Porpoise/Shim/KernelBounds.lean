import Porpoise.Shim.Independence
import Porpoise.Shim.Transfer

/-!
# Writes of the kernel to the slot

`kernelFits` says for every call when the most that the kernel writes stays
inside the buffers it was pointed to.

* `HostCall.writes_inside`: most calls only have writes of a small, fixed size.
* `kernel_inside_sized`: the others with one size that depends on an argument.
* `select`, `pselect6` and `recvfrom` depend on what the slot held; `readv` and
  `recvmsg` on the arrays that the enclave built.
-/

namespace Porpoise.Shim

open Porpoise.Lib

/-- When the kernel's writes stay inside. `alarm` makes a second ocall, with any
number as its result may be. -/
def kernelFits (c : Ctx) (K : Kernel) : Sysno → Prop
  | .read | .pread64 => c.a3.toInt ≤ bufSize
  | .poll => c.a2.toNat ≤ K.nofile → 8 * c.a2.toNat ≤ bufSize
  | .ioctl => K.ioctlOut c.a2 ≤ bufSize
  | .readv =>
      intCount c.a3 ≤ 1024 → (∀ i < intCount c.a3, 0 ≤ (readvLen c i).toInt) →
        ∀ i < intCount c.a3, i < 5 → (iovLen c.mem c.a2 i).toNat ≤ bufSize
  | .select => K.maxFds ≤ 8 * bufSize
  | .pselect6 => c.a2 ≠ 0 ∨ c.a3 ≠ 0 → K.maxFds ≤ 8 * bufSize
  | .recvfrom => c.a3.toNat ≤ bufSize
  | .getsockopt => (load32 (c.mem.at c.a5) 0).toInt ≤ bufSize
  | .getdents | .getdents64 => (c.a3.setWidth 32).toNat ≤ bufSize
  | .getgroups => 4 * (c.a1.setWidth 32).toInt ≤ bufSize
  | .sched_getaffinity => min c.a2.toNat K.cpumask ≤ bufSize
  | .epoll_pwait =>
      (c.a3.setWidth 32).toInt ≤ 2147483647 / 12 → 12 * (c.a3.setWidth 32).toInt ≤ bufSize
  | .getrandom => c.a2.toNat ≤ bufSize
  | .alarm => False
  | _ => True

variable {c : Ctx} {K : Kernel} {u : UMem} {b : Buf} {n : Sysno}

/-! ## Small writes -/

/-- A parameter behind which the kernel never writes more than a buffer holds. -/
def Param.Small : Param → Prop
  | .obj _ write => ∀ x, write x ≤ bufSize
  | .iov data _ | .msg data => data = true
  | _ => True

theorem Param.writes_inside {p : Param} (hp : p.Small) (x : KArgs) (w : Word) :
    ∀ k ∈ p.writes x w, k.Inside c := by
  cases p with
  | obj read write =>
      simp only [Param.writes, forall_mem_ite, List.forall_mem_cons]
      refine ⟨fun _ _ h => absurd h List.not_mem_nil, fun _ => ⟨fun b _ => ?_, ?_⟩⟩
      · show 0 + write x ≤ bufSize
        rw [Nat.zero_add]
        exact hp x
      · exact fun _ h => absurd h List.not_mem_nil
  | iov data cnt =>
      have hdata : data = true := hp
      simp [Param.writes, hdata]
  | msg data =>
      have hdata : data = true := hp
      simp [Param.writes, hdata]
  | int => exact fun _ h => absurd h List.not_mem_nil
  | long => exact fun _ h => absurd h List.not_mem_nil
  | path => exact fun _ h => absurd h List.not_mem_nil

/-- What holds for every element of the first list, with whatever it is paired. -/
theorem forall_mem_zipWith {α β γ : Type} {f : α → β → List γ} {Q : γ → Prop} {xs : List α}
    (h : ∀ x ∈ xs, ∀ y, ∀ z ∈ f x y, Q z) (ys : List β) :
    ∀ z ∈ (List.zipWith f xs ys).flatten, Q z := by
  induction xs generalizing ys with
  | nil => simp
  | cons x xs ih =>
      cases ys with
      | nil => simp
      | cons y ys =>
          rw [List.zipWith_cons_cons, List.flatten_cons, List.forall_mem_append]
          exact ⟨h x (List.mem_cons_self ..) y,
            ih (fun a ha => h a (List.mem_cons_of_mem x ha)) ys⟩

theorem HostCall.writes_inside {h : HostCall} (hp : ∀ p ∈ params h.fn, p.Small) (u : UMem) :
    ∀ w ∈ h.writes c K u, w.Inside c :=
  forall_mem_zipWith (fun _ hmem => Param.writes_inside (hp _ hmem) _) _

/-- The calls with one write whose size depends on an argument. -/
def sizedCalls : List Sysno :=
  [.read, .poll, .ioctl, .pread64, .getsockopt, .getdents, .getgroups, .sched_getaffinity,
   .getdents64, .epoll_pwait, .getrandom]

theorem small_of_not_sized
    (hn : n ∉ sizedCalls ++ [.readv, .recvmsg, .select, .pselect6, .recvfrom]) :
    ∀ h ∈ unwrapCase n, ∀ p ∈ params h.fn, p.Small := by
  cases n <;> (first | exact absurd (by decide) hn | skip)
  all_goals
    simp only [unwrapCase, List.forall_mem_cons, List.not_mem_nil, IsEmpty.forall_iff,
      implies_true, and_true]
  all_goals
    simp only [params, sysParams, List.forall_mem_cons, List.not_mem_nil, IsEmpty.forall_iff,
      implies_true, and_true]
  all_goals
    simp [Param.Small, Param.inout, Param.input, Param.output, KArgs.sockaddrRoom, bufSize]
  case rt_sigpending => exact fun x => (x.sigpendingLen_le 1).trans (by decide)

/-! ## Sizes from the arguments -/

/-- A count that is refused, cut off at `MAX_RW_COUNT` or taken as it is. -/
theorem rwBytes_le (w : Word) : rwBytes w ≤ bufSize ↔ w.toInt ≤ bufSize := by
  have hlt := w.isLt
  rw [rwBytes, bufSize, BitVec.toInt_eq_toNat_cond]
  split <;> split <;> omega

theorem pollLen_le (a b : Nat) :
    (if a ≤ b then 8 * a else 0) ≤ bufSize ↔ (a ≤ b → 8 * a ≤ bufSize) := by
  by_cases h : a ≤ b <;> simp [h]

theorem groupsOut_le (x : Int) : 4 * min x.toNat 65536 ≤ bufSize ↔ 4 * x ≤ bufSize := by
  rw [bufSize]
  omega

theorem epollLen_le (x : Int) :
    (if 0 < x ∧ x ≤ 178956970 then 12 * x.toNat else 0) ≤ bufSize ↔
      (x ≤ 178956970 → 12 * x ≤ bufSize) := by
  rw [bufSize]
  split <;> omega

theorem kernel_inside_sized (hn : n ∈ sizedCalls) :
    (∀ u, ∀ h ∈ unwrapCase n, ∀ w ∈ h.writes c K (sent c n u), w.Inside c) ↔
      kernelFits c K n := by
  cases n <;> (first | exact absurd hn (by decide) | skip)
  -- the pointers that the host passes
  all_goals
    simp only [unwrapCase, List.forall_mem_cons, List.not_mem_nil, IsEmpty.forall_iff,
      implies_true, and_true]
  all_goals
    simp only [HostCall.writes, HostCall.argVals, HostCall.kargs, params, sysParams, List.map_cons,
      List.map_nil, List.zipWith, Param.writes, Operand.eval, Param.inout, BitVec.ofNat_eq_ofNat,
      Ctx.addr_ne_zero, if_false, List.flatten_cons, List.flatten_nil, List.nil_append,
      List.append_nil, List.forall_mem_append, List.forall_mem_cons, kwrite_addr_inside, kargs_mem,
      kargs_kernel, Nat.zero_add, List.not_mem_nil, IsEmpty.forall_iff, implies_true, and_true]
  -- the sizes
  all_goals
    simp only [KArgs.pollLen, KArgs.rwCount, KArgs.groupsOut, KArgs.epollLen, KArgs.int, kargs_val,
      kargs_kernel, params, sysParams, List.zipWith, List.getD, List.getElem?_cons_zero,
      List.getElem?_cons_succ, Option.getD, Param.trunc, Param.inout, kernelFits, Ctx.region_addr]
  all_goals
    simp [sent, wrapSends, applyAll_ite, apply_ite_store, rwBytes_le, pollLen_le, groupsOut_le,
      epollLen_le, -BitVec.toInt_setWidth]
  case getsockopt => exact fun _ => by decide

/-! ## Calls that depend on the slot's past -/

/-- A pointer that is `NULL` or the address of a buffer. -/
theorem ptrUnless_inside {p : Prop} [Decidable p] {o k : Nat} :
    (¬ (if p then 0#64 else c.addr b) = 0#64 →
      (KWrite.mk (if p then 0#64 else c.addr b) o k).Inside c) ↔ (¬ p → o + k ≤ bufSize) := by
  by_cases h : p
  · simp [h]
  · have hb : ¬ c.addr b = 0#64 := c.addr_ne b
    rw [if_neg h, imp_iff_right hb, imp_iff_right h]
    exact kwrite_addr_inside b o k

/-- The size of a descriptor set is that of the table at most. -/
theorem fdSetLen_le {x : KArgs} (hx : x.kernel = K) (h : K.maxFds ≤ 8 * bufSize) (i : Nat) :
    x.fdSetLen i ≤ bufSize := by
  subst hx
  unfold KArgs.fdSetLen
  rw [bufSize] at h ⊢
  omega

theorem maxFds_le_of_fdSetLen {x : KArgs} {i : Nat} (hint : x.int i = 2147483647)
    (h : x.fdSetLen i ≤ bufSize) : x.kernel.maxFds ≤ 8 * bufSize := by
  unfold KArgs.fdSetLen at h
  rw [hint] at h
  rw [bufSize] at h ⊢
  omega

/-- A slot in which an earlier call left the largest `int` in `arg1`. -/
def staleFirst : UMem := fun r => if r = .buf .arg1 then le64 0x7fffffff else fun _ => 0

theorem kernel_inside_recvfrom :
    (∀ u, ∀ h ∈ unwrapCase .recvfrom, ∀ w ∈ h.writes c K (sent c .recvfrom u), w.Inside c) ↔
      kernelFits c K .recvfrom := by
  have hcount : ∀ u, load64 (sent c .recvfrom u (.buf .arg3)) 0 = c.a3 := by
    intro u
    simp [sent, wrapSends, applyAll_ite, sendNullPtr]
  have hnull : sent c .recvfrom (fun _ _ => 0) (.buf .arg7) 2 = 0 :=
    sent_of_not_writes (by decide) (recvfrom_null_unsent (by decide)) _
  simp only [unwrapCase, List.forall_mem_cons, List.not_mem_nil, IsEmpty.forall_iff,
    implies_true, and_true]
  simp only [HostCall.writes, HostCall.argVals, HostCall.kargs, params, sysParams, List.map_cons,
    List.map_nil, List.zipWith, Param.writes, Operand.eval, Param.inout, BitVec.ofNat_eq_ofNat,
    List.flatten_cons, List.flatten_nil, List.nil_append, List.append_nil,
    List.forall_mem_append, forall_mem_ite, List.forall_mem_cons, Nat.zero_add, List.not_mem_nil,
    IsEmpty.forall_iff, implies_true, and_true, true_and, ptrUnless_inside]
  simp only [KArgs.sockaddrRoom, kargs_val, params, sysParams, List.zipWith, List.getD,
    List.getElem?_cons_zero, List.getElem?_cons_succ, Option.getD, Param.trunc, hcount, kernelFits]
  constructor
  · intro h
    have hwrite := (h fun _ _ => 0).1 (by rw [hnull]; decide)
    rw [bufSize] at hwrite ⊢
    omega
  · intro h u
    refine ⟨fun _ => (Nat.min_le_left _ _).trans h, fun _ => ?_, fun _ => by decide⟩
    exact (Nat.min_le_right _ _).trans (by decide)

theorem kernel_inside_select :
    (∀ u, ∀ h ∈ unwrapCase .select, ∀ w ∈ h.writes c K (sent c .select u), w.Inside c) ↔
      kernelFits c K .select := by
  have hfirst : ∀ u, sent c .select u (.buf .arg1) = u (.buf .arg1) :=
    sent_of_ne (by decide) select_first_unsent
  have hnull : sent c .select staleFirst (.buf .arg7) 2 = 0 :=
    sent_of_not_writes (by decide) (select_null_unsent (by decide)) _
  simp only [unwrapCase, List.forall_mem_cons, List.not_mem_nil, IsEmpty.forall_iff,
    implies_true, and_true]
  simp only [HostCall.writes, HostCall.argVals, HostCall.kargs, params, sysParams, List.map_cons,
    List.map_nil, List.zipWith, Param.writes, Operand.eval, Param.inout, BitVec.ofNat_eq_ofNat,
    List.flatten_cons, List.flatten_nil, List.nil_append, List.append_nil,
    List.forall_mem_append, forall_mem_ite, List.forall_mem_cons, Nat.zero_add, List.not_mem_nil,
    IsEmpty.forall_iff, implies_true, and_true, true_and, ptrUnless_inside]
  constructor
  · intro h
    have hwrite := (h staleFirst).1 (by rw [hnull]; decide)
    refine maxFds_le_of_fdSetLen ?_ hwrite
    simp only [KArgs.int, kargs_val, params, sysParams, List.zipWith, List.getD,
      List.getElem?_cons_zero, Option.getD, Param.trunc, hfirst]
    simp [staleFirst]
  · intro h u
    exact ⟨fun _ => fdSetLen_le (K := K) rfl h 0, fun _ => fdSetLen_le (K := K) rfl h 0,
      fun _ => fdSetLen_le (K := K) rfl h 0, fun _ => by decide⟩

/-- Where the sets of `pselect6` are. -/
theorem pselect6_readfds_sent (c : Ctx) (u : UMem) :
    load64 (sent c .pselect6 u (.buf .arg2)) 0 = if c.a2 = 0 then 0 else c.addr .arg7 := by
  simp [sent, wrapSends, applyAll_ite]
  split <;> simp

theorem pselect6_writefds_sent (c : Ctx) (u : UMem) :
    load64 (sent c .pselect6 u (.buf .arg3)) 0 = if c.a3 = 0 then 0 else c.addr .arg8 := by
  simp [sent, wrapSends, applyAll_ite]
  split <;> simp

theorem pselect6_exceptfds_sent (c : Ctx) (u : UMem) :
    load64 (sent c .pselect6 u (.buf .arg4)) 0 = if c.a4 = 0 then 0 else c.alloc 0 := by
  simp [sent, wrapSends, applyAll_ite]
  split <;> simp

theorem kernel_inside_pselect6 :
    (∀ u, ∀ h ∈ unwrapCase .pselect6, ∀ w ∈ h.writes c K (sent c .pselect6 u), w.Inside c) ↔
      kernelFits c K .pselect6 := by
  have hfirst : ∀ u, sent c .pselect6 u (.buf .arg1) = u (.buf .arg1) :=
    sent_of_ne (by decide) pselect6_first_unsent
  simp only [unwrapCase, List.forall_mem_cons, List.not_mem_nil, IsEmpty.forall_iff,
    implies_true, and_true]
  simp only [HostCall.writes, HostCall.argVals, HostCall.kargs, params, List.map_cons,
    List.map_nil, List.zipWith, Param.writes, Operand.eval, Param.input, BitVec.ofNat_eq_ofNat,
    List.flatten_cons, List.flatten_nil, List.nil_append, List.append_nil,
    List.forall_mem_append, forall_mem_ite, List.forall_mem_cons, Nat.zero_add, List.not_mem_nil,
    IsEmpty.forall_iff, implies_true, and_true, true_and, pselect6_readfds_sent,
    pselect6_writefds_sent, pselect6_exceptfds_sent, ptrUnless_inside]
  constructor
  · intro h hset
    obtain ⟨hreads, hwrites, -⟩ := h staleFirst
    refine maxFds_le_of_fdSetLen ?_ (hset.elim hreads hwrites)
    simp only [KArgs.int, kargs_val, params, List.zipWith, List.getD, List.getElem?_cons_zero,
      Option.getD, Param.trunc, hfirst]
    simp [staleFirst]
  · intro h u
    refine ⟨fun h2 => fdSetLen_le rfl (h (.inl h2)) 0, fun h3 => fdSetLen_le rfl (h (.inr h3)) 0,
      fun h4 => ?_, fun _ => kwrite_inside_of_le (by decide),
      fun _ => kwrite_inside_of_le (by decide)⟩
    -- the third set is in a block
    apply kwrite_inside_of_heap
    split
    case isTrue h4' => exact absurd (if_pos h4') h4
    case isFalse => exact c.region_alloc 0

/-! ## Arrays and messages -/

theorem forall_mem_segWrites {mem : Word → Bytes} {p : Word} {k : Nat} {Q : KWrite → Prop} :
    (∀ w ∈ segWrites mem p k, Q w) ↔
      (k ≤ 1024 → (∀ i < k, 0 ≤ (load64 (mem p) (16 * i + 8)).toInt) → ∀ i < k,
        Q ⟨load64 (mem p) (16 * i), 0, min (load64 (mem p) (16 * i + 8)).toNat 0x7ffff000⟩) := by
  unfold segWrites
  rw [forall_mem_ite, List.forall_mem_map]
  simp

/-- What is true of the kernel's writes for `readv`. -/
theorem readv_writes_iff {Q : KWrite → Prop} (u : UMem) :
    (∀ h ∈ unwrapCase .readv, ∀ w ∈ h.writes c K (sent c .readv u), Q w) ↔
      (intCount c.a3 ≤ 1024 → (∀ i < intCount c.a3, 0 ≤ (readvLen c i).toInt) →
        ∀ i < intCount c.a3, Q ⟨segPtr c i, 0, min (readvLen c i).toNat 0x7ffff000⟩) := by
  have hlast : load32 (sent c .readv u (.buf .arg3)) 0 = c.a3.setWidth 32 := load32_between_last _
  have harray : sent c .readv u (.buf .arg2) =
      applyAll (readvSends c) ((sendNr .readv).apply u) (.buf .arg2) :=
    applyAll_between (by decide) (by decide) _
  have hcount : ((((load64 (sent c .readv u (.buf .arg3)) 0).setWidth 32).setWidth 64).setWidth
      32).toInt.toNat = intCount c.a3 := by
    simp [hlast, intCount, -BitVec.toInt_setWidth]
  simp only [unwrapCase, List.forall_mem_cons, List.not_mem_nil, IsEmpty.forall_iff,
    implies_true, and_true]
  simp only [HostCall.writes, HostCall.argVals, HostCall.kargs, params, sysParams, List.map_cons,
    List.map_nil, List.zipWith, Param.writes, Operand.eval, BitVec.ofNat_eq_ofNat,
    Ctx.addr_ne_zero, Bool.false_eq_true, or_self, if_false, List.flatten_cons, List.flatten_nil,
    List.nil_append, List.append_nil, kargs_mem]
  simp only [KArgs.int, kargs_val, params, sysParams, List.zipWith, List.getD,
    List.getElem?_cons_zero, List.getElem?_cons_succ, Option.getD, Param.trunc]
  simp only [hcount, forall_mem_segWrites, Ctx.region_addr, harray]
  refine imp_congr_right fun _ => ?_
  have hentry := fun i (hi : i < intCount c.a3) => readv_entry hi ((sendNr .readv).apply u)
  refine imp_congr (forall_congr' fun i => forall_congr' fun hi => ?_)
    (forall_congr' fun i => forall_congr' fun hi => ?_)
  · rw [(hentry i hi).2]
  · rw [(hentry i hi).1, (hentry i hi).2]

/-- The kernel leaves the array of `readv` alone. -/
theorem returned_readv_array {v : UMem}
    (hv : Returned c K (unwrapCase .readv) (sent c .readv u) v) :
    v (.buf .arg2) = sent c .readv u (.buf .arg2) := by
  refine funext fun i => hv.frame _ i (by decide) ?_
  rw [readv_writes_iff (Q := fun w =>
    ¬ (c.region w.ptr = .buf .arg2 ∧ w.off ≤ i ∧ i < w.off + w.size))]
  rintro - - j - ⟨hreg, -⟩
  exact region_segPtr_ne j hreg

theorem kernel_inside_readv :
    (∀ u, ∀ h ∈ unwrapCase .readv, ∀ w ∈ h.writes c K (sent c .readv u), w.Inside c) ↔
      kernelFits c K .readv := by
  simp only [readv_writes_iff, kernelFits, forall_const]
  refine imp_congr_right fun _ => imp_congr_right fun _ => forall_congr' fun i =>
    imp_congr_right fun _ => ?_
  rw [segPtr, readvLen]
  by_cases h5 : i < 5
  · rw [if_pos h5, if_pos h5, kwrite_addr_inside, imp_iff_right h5, bufSize]
    omega
  · rw [if_neg h5, if_neg h5]
    exact iff_of_true (kwrite_inside_of_heap (c.region_alloc _)) fun h => absurd h h5

/-- What is true of the kernel's writes for `recvmsg`. -/
theorem recvmsg_writes {Q : KWrite → Prop} (u : UMem)
    (hnamelen : Q ⟨c.addr .arg2, 8, 4⟩) (hflags : Q ⟨c.addr .arg2, 48, 4⟩)
    (hcontrollen : msgControllen c.mem c.a2 ≠ 0 → Q ⟨c.addr .arg2, 40, 8⟩)
    (hname : msgNamelen c.mem c.a2 ≠ 0 → ∀ k, Q ⟨c.alloc 0, 0, k⟩)
    (hseg : ∀ i < intCount (msgIovlen c.mem c.a2), ∀ k,
      Q ⟨c.alloc (msgNameBlocks c + 1 + i), 0, k⟩)
    (hcontrol : msgControllen c.mem c.a2 ≠ 0 → ∀ k, Q ⟨c.alloc (msgIovBlocks c), 0, k⟩) :
    ∀ h ∈ unwrapCase .recvmsg, ∀ w ∈ h.writes c K (sent c .recvmsg u), Q w := by
  have hsent : sent c .recvmsg u = applyAll (msgSends c false) ((sendNr .recvmsg).apply u) := rfl
  simp only [unwrapCase, List.forall_mem_cons, List.not_mem_nil, IsEmpty.forall_iff,
    implies_true, and_true]
  simp only [HostCall.writes, HostCall.argVals, HostCall.kargs, params, sysParams, List.map_cons,
    List.map_nil, List.zipWith, Param.writes, Operand.eval, BitVec.ofNat_eq_ofNat,
    Ctx.addr_ne_zero, Bool.false_eq_true, or_self, if_false, List.flatten_cons, List.flatten_nil,
    List.nil_append, List.append_nil, kargs_mem]
  simp only [msgWrites, Ctx.region_addr, hsent, msg_header, msgHeader_name, msgHeader_iov,
    msgHeader_control, toNat_msgHeader_iovlen, List.forall_mem_append, List.forall_mem_cons,
    forall_mem_ite, forall_mem_segWrites, List.not_mem_nil, IsEmpty.forall_iff, implies_true,
    and_true, true_and]
  refine ⟨⟨⟨⟨⟨hnamelen, hflags⟩, fun hlen => ?_⟩, fun hp => ?_⟩, fun hmany _ i hi => ?_⟩,
    fun hp => ?_⟩
  · refine hcontrollen fun hzero => hlen ?_
    exact msgHeader_controllen_zero _ hzero
  · unfold msgNamePtr at hp ⊢
    split at hp
    case isTrue => exact absurd rfl hp
    case isFalse hne =>
      rw [if_neg hne]
      exact hname hne _
  · rw [← intCount_of_le hmany (by decide)] at hi
    have hbase := (msg_entry false hi ((sendNr .recvmsg).apply u)).1
    simp only [region_msgIovPtr, hbase]
    exact hseg i hi _
  · unfold msgControlPtr at hp ⊢
    split at hp
    case isTrue => exact absurd rfl hp
    case isFalse hne =>
      rw [if_neg hne]
      exact hcontrol hne _

theorem kernel_inside_recvmsg (u : UMem) :
    ∀ h ∈ unwrapCase .recvmsg, ∀ w ∈ h.writes c K (sent c .recvmsg u), w.Inside c :=
  recvmsg_writes u (kwrite_inside_of_le (by decide)) (kwrite_inside_of_le (by decide))
    (fun _ => kwrite_inside_of_le (by decide)) (fun _ _ => kwrite_inside_of_heap (c.region_alloc _))
    (fun _ _ _ => kwrite_inside_of_heap (c.region_alloc _))
    fun _ _ => kwrite_inside_of_heap (c.region_alloc _)

/-- **Writes of the kernel.** -/
theorem kernel_inside_iff (hn : n ≠ .alarm) :
    (∀ u, ∀ h ∈ unwrapCase n, ∀ w ∈ h.writes c K (sent c n u), w.Inside c) ↔
      kernelFits c K n := by
  by_cases hsized : n ∈ sizedCalls
  · exact kernel_inside_sized hsized
  by_cases hother : n ∈ [Sysno.readv, .recvmsg, .select, .pselect6, .recvfrom]
  · cases n <;> first
      | exact kernel_inside_readv
      | exact iff_of_true kernel_inside_recvmsg trivial
      | exact kernel_inside_select
      | exact kernel_inside_pselect6
      | exact kernel_inside_recvfrom
      | exact absurd hother (by decide)
  · have hsmall := small_of_not_sized (n := n) fun h => (List.mem_append.mp h).elim hsized hother
    have hfits : kernelFits c K n := by
      cases n <;> trivial
    exact iff_of_true (fun u h hmem => HostCall.writes_inside (hsmall h hmem) _) hfits

end Porpoise.Shim
