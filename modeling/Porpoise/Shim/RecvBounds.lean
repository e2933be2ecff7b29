import Porpoise.Shim.SendBounds
import Porpoise.Shim.KernelBounds
import Porpoise.Shim.Failure

/-!
# Copies from the slot

`recvsFit` says for every call when the copies after the ocall stay inside,
whatever the kernel answers.

* `recvs_inside_const`: calls whose copies have sizes of the caller.
* `recvs_inside_result`: calls that copy as much as the result says. Three of
  them copy for an error number, too.
* `recvs_inside_readv`, `recvs_inside_recvmsg`: calls whose copies may change
  the array that the next ones read. What a copy brings can be anything.
* `readv_fits_iff_of_apart`, `recvmsg_fits_iff_of_separated`: when none does.
-/

namespace Porpoise.Shim

open Porpoise.Lib

variable {c : Ctx} {K : Kernel} {u v : UMem} {b : Buf} {n : Sysno}

/-- Enclave memory after the first `i` segments of `readv`, when the `j`-th is
filled with `g j`. -/
def readvMem (c : Ctx) (g : Nat → Bytes) : Nat → Mem :=
  filled (fun i m => iovBase m c.a2 i) (fun i m => iovLen m c.a2 i) g c.mem

/-- The same for `recvmsg`, when the name is filled with `f`. -/
def msgMem (c : Ctx) (f : Bytes) (g : Nat → Bytes) : Nat → Mem :=
  filled (fun i m => iovBase m (msgIov m c.a2) i) (fun i m => iovLen m (msgIov m c.a2) i) g
    (c.mem.store (msgName c.mem c.a2) (memcpyLen (msgNamelen c.mem c.a2)) f)

/-- The bound of the loop of `recvmsg`. It is read anew from enclave memory `m`
each time, but a message that was sent without segments is not looked at. -/
def msgBound (c : Ctx) (m : Mem) : Nat :=
  if msgIovlen c.mem c.a2 = 0 then 0 else intCount (msgIovlen m c.a2)

/-- When the copies after the ocall stay inside. -/
def recvsFit (c : Ctx) (K : Kernel) : Sysno → Prop
  | .read => c.a3.toInt ≤ bufSize
  | .pread64 | .getdents64 | .readlinkat => False
  | .poll => Fits (8 * c.a2)
  | .readv =>
      ∀ g, ∀ i < intCount c.a3,
        let len := iovLen (readvMem c g i) c.a2 i
        if i < 5 then Fits len else NonNeg len
  | .recvfrom =>
      c.a3.toNat ≤ bufSize ∧ (c.a4 &&& 0x20 ≠ 0 → K.maxDatagram ≤ bufSize)
  | .recvmsg =>
      NonNeg (msgNamelen c.mem c.a2) ∧
        ∀ f g k, (∀ i < k, i < msgBound c (msgMem c f g i)) →
          let m := msgMem c f g k
          let len := iovLen m (msgIov m c.a2) k
          if k < msgBound c m then
            -- the pointers behind the array are what earlier calls left there
            if k < intCount (msgIovlen c.mem c.a2) then NonNeg len else Fits len
          else msgControllen c.mem c.a2 ≠ 0 → NonNeg (msgControllen m c.a2)
  | .getdents => Fits c.a3
  | .getcwd => Fits c.a2
  | .getgroups => c.a2 ≠ 0 → Fits (c.a1 * 4)
  | .epoll_pwait =>
      (c.a3.setWidth 32).toInt ≤ 2147483647 / 12 → 12 * (c.a3.setWidth 32).toInt ≤ bufSize
  | .getrandom => c.a2.toNat ≤ bufSize
  | _ => True

theorem exists_returned (calls : List HostCall) (u : UMem) : ∃ v, Returned c K calls u v :=
  ⟨_, returned_put (r := -2) fun _ _ => .inl (by decide)⟩

theorem forall_returned_const {calls : UMem → List HostCall} {f : UMem → UMem} {P : Prop} :
    (∀ u v, Returned c K (calls u) (f u) v → P) ↔ P := by
  constructor
  · intro h
    obtain ⟨v, hv⟩ := exists_returned (c := c) (K := K) (calls fun _ _ => 0) (f fun _ _ => 0)
    exact h _ _ hv
  · intro h _ _ _
    exact h

/-- The calls whose copies back depend on the result or on what was copied. -/
def resultCalls : List Sysno :=
  [.read, .pread64, .recvfrom, .getcwd, .readlink, .getdents64, .readlinkat, .epoll_pwait,
   .getrandom, .readv, .recvmsg]

theorem recvs_inside_const (hn : n ∉ resultCalls) :
    (∀ u v, Returned c K (unwrapCase n) (sent c n u) v →
        ∀ r ∈ wrapRecvs c v (wrapMem c n) n, r.Inside) ↔ recvsFit c K n := by
  cases n <;> (first | exact absurd (by decide) hn | skip)
  all_goals
    simp only [wrapRecvs, List.forall_mem_append, forall_mem_ite, List.forall_mem_cons,
      List.not_mem_nil, IsEmpty.forall_iff, implies_true, and_true, recvsFit]
  all_goals simp only [recv_buf_inside]
  all_goals first | exact forall_returned_const | simp

/-- Results up to a bound, when errors are not copied. -/
theorem forall_allowed_iff {m : Nat} {P : Word → Prop} (herr : ∀ r, IsError r → P r)
    (hfit : ∀ r, r.toNat ≤ bufSize → P r) (hbig : ¬ P 81921) :
    (∀ r, IsError r ∨ r.toNat ≤ m → P r) ↔ m ≤ bufSize := by
  constructor
  · intro h
    by_contra hm
    rw [bufSize] at hm
    exact hbig (h 81921 (.inr (by rw [show (81921 : Word).toNat = 81921 from rfl]; omega)))
  · rintro h r (hr | hr)
    · exact herr r hr
    · exact hfit r (hr.trans h)

theorem not_fits_of_lt {w : Word} (h : bufSize < w.toNat % 2 ^ 32) : ¬ Fits w := by
  rw [fits_iff]
  omega

/-- A `long` that counts bytes when it is positive. -/
theorem forall_allowed_long {m : Nat} :
    (∀ r : Word, IsError r ∨ r.toNat ≤ m → 0 < r.toInt → Fits r) ↔ m ≤ bufSize := by
  refine forall_allowed_iff (fun r hr hpos => ?_) (fun r hr _ => ?_) fun h => ?_
  · have hneg := hr.2
    omega
  · rw [fits_iff]
    exact (Nat.mod_le _ _).trans hr
  · exact absurd (h (by decide)) (not_fits_of_lt (by decide))

theorem toNat_signExtend_mod (x : BitVec 32) : (x.signExtend 64).toNat % 2 ^ 32 = x.toNat := by
  have h := congrArg BitVec.toNat (setWidth_signExtend x)
  rwa [BitVec.toNat_setWidth] at h

theorem toInt_setWidth_of_isError {r : Word} (hr : IsError r) : (r.setWidth 32).toInt < 0 := by
  obtain ⟨hlow, hhigh⟩ := hr
  rw [BitVec.toInt_eq_toNat_cond] at hlow hhigh ⊢
  rw [BitVec.toNat_setWidth]
  split at hlow <;> split <;> omega

/-- The same, for an `int`. -/
theorem forall_allowed_int {m : Nat} :
    (∀ r : Word, IsError r ∨ r.toNat ≤ m → 0 < (r.setWidth 32).toInt →
      Fits ((r.setWidth 32).signExtend 64)) ↔ m ≤ bufSize := by
  refine forall_allowed_iff (fun r hr hpos => ?_) (fun r hr _ => ?_) fun h => ?_
  · have hneg := toInt_setWidth_of_isError hr
    omega
  · rw [fits_iff, toNat_signExtend_mod, BitVec.toNat_setWidth]
    exact (Nat.mod_le _ _).trans hr
  · exact absurd (h (by decide)) (not_fits_of_lt (by decide))

/-- The events of `epoll_pwait`, of twelve bytes each. -/
theorem forall_allowed_events {k : Nat} (hk : k ≤ 2147483647 / 12) :
    (∀ r : Word, IsError r ∨ r.toNat ≤ k → 0 < (r.setWidth 32).toInt →
      Fits ((r.setWidth 32).signExtend 64 * 12#64)) ↔ 12 * k ≤ bufSize := by
  have hevents : ∀ r : Word, r.toNat ≤ k →
      (Fits ((r.setWidth 32).signExtend 64 * 12#64) ↔ 12 * r.toNat ≤ bufSize) := by
    intro r hr
    have hmod : ((r.setWidth 32).signExtend 64).toNat % 2 ^ 32 = r.toNat := by
      rw [toNat_signExtend_mod, BitVec.toNat_setWidth, Nat.mod_eq_of_lt (by omega)]
    have hsize : ((r.setWidth 32).signExtend 64).toNat * 12 % 2 ^ 32 = 12 * r.toNat := by
      rw [Nat.mul_mod, hmod]
      omega
    rw [fits_iff, BitVec.toNat_mul, show (12#64).toNat = 12 from rfl,
      Nat.mod_mod_of_dvd _ (by decide), hsize]
  constructor
  · intro h
    have hnat : (BitVec.ofNat 64 k).toNat = k := by
      rw [BitVec.toNat_ofNat, Nat.mod_eq_of_lt (by omega)]
    by_cases hzero : k = 0
    · omega
    have hlast := h (BitVec.ofNat 64 k) (.inr hnat.le) ?_
    · rwa [hevents _ hnat.le, hnat] at hlast
    · rw [BitVec.toInt_eq_toNat_cond, BitVec.toNat_setWidth, hnat]
      split <;> omega
  · rintro h r (hr | hr) hpos
    · have hneg := toInt_setWidth_of_isError hr
      omega
    · rw [hevents r hr]
      omega

theorem trunc_flag (w : Word) : (w.setWidth 32).setWidth 64 &&& 32#64 = w &&& 32#64 := by
  have hbit : ∀ i < 64, (32#64).getLsbD i = true → i < 32 := by decide
  apply BitVec.eq_of_getLsbD_eq
  intro i hi
  simp only [BitVec.getLsbD_and, BitVec.getLsbD_setWidth]
  by_cases h : (32#64).getLsbD i = true
  · simp [hi, hbit i hi h]
  · rw [Bool.not_eq_true] at h
    simp [h]

theorem recvs_inside_result (hn : n ∈ resultCalls) (hr : n ≠ .readv) (hm : n ≠ .recvmsg) :
    (∀ u v, Returned c K (unwrapCase n) (sent c n u) v →
        ∀ r ∈ wrapRecvs c v (wrapMem c n) n, r.Inside) ↔ recvsFit c K n := by
  cases n <;> (first | exact absurd hn (by decide) | skip)
  all_goals first | exact absurd rfl hr | exact absurd rfl hm | skip
  all_goals
    simp only [wrapRecvs, forall_mem_ite, List.forall_mem_cons, unwrapCase,
      List.not_mem_nil, IsEmpty.forall_iff, implies_true, and_true, recvsFit, recv_buf_inside]
  case read =>
    simp only [forall_returned_iff (P := fun r => 0 < r.toInt → Fits r)]
    simp only [Allowed, maxResult, HostCall.kargs, HostCall.argVals, KArgs.rwCount, List.map_cons,
      List.map_nil, Operand.eval, kargs_val, params, sysParams, List.zipWith, List.getD,
      List.getElem?_cons_zero, List.getElem?_cons_succ, Option.getD, Param.trunc]
    simp [sent, wrapSends, forall_allowed_long]
    exact rwBytes_le _
  case readlink =>
    simp only [forall_returned_iff (P := fun r => 0 < r.toInt → Fits r)]
    simp only [Allowed, maxResult, forall_allowed_long]
    exact iff_of_true (fun _ => (Nat.min_le_right _ _).trans (by decide)) trivial
  case recvfrom =>
    simp only [forall_returned_iff (P := fun r => 0 < r.toInt → Fits r)]
    simp only [Allowed, maxResult, HostCall.kargs, HostCall.argVals, List.map_cons,
      List.map_nil, Operand.eval, kargs_val, kargs_kernel, params, sysParams, List.zipWith,
      List.getD, List.getElem?_cons_zero, List.getElem?_cons_succ, Option.getD, Param.trunc,
      forall_allowed_long]
    simp [sent, wrapSends, applyAll_ite, sendNullPtr, trunc_flag]
    grind [bufSize]
  case getrandom =>
    simp only [forall_returned_iff
      (P := fun r => 0 < (r.setWidth 32).toInt → Fits ((r.setWidth 32).signExtend 64))]
    simp only [Allowed, maxResult, HostCall.kargs, HostCall.argVals, List.map_cons,
      List.map_nil, Operand.eval, kargs_val, params, sysParams, List.zipWith, List.getD,
      List.getElem?_cons_zero, List.getElem?_cons_succ, Option.getD, Param.trunc,
      forall_allowed_int]
    simp [sent, wrapSends]
  case epoll_pwait =>
    simp only [sizeofEpollEvent, BitVec.ofNat_eq_ofNat, forall_returned_iff
      (P := fun r => 0 < (r.setWidth 32).toInt → Fits ((r.setWidth 32).signExtend 64 * 12#64))]
    simp only [Allowed, maxResult, HostCall.kargs, HostCall.argVals, List.map_cons,
      List.map_nil, Operand.eval, kargs_val, params, sysParams, List.zipWith, List.getD,
      List.getElem?_cons_zero, List.getElem?_cons_succ, Option.getD, Param.trunc, KArgs.epollLen,
      KArgs.int]
    simp [sent, wrapSends, apply_ite_store, -BitVec.toInt_setWidth]
    have hk : (if 0 < (c.a3.setWidth 32).toInt ∧ (c.a3.setWidth 32).toInt ≤ 178956970 then
        12 * (c.a3.setWidth 32).toInt.toNat else 0) / 12 ≤ 2147483647 / 12 := by
      split <;> omega
    rw [forall_allowed_events hk, bufSize]
    split <;> omega
  case pread64 =>
    refine iff_false_intro fun h => ?_
    have herr := h (fun _ _ => 0) _ (returned_put (r := -1) fun _ _ => .inl (by decide))
    rw [resultOf_put] at herr
    exact not_fits_of_lt (by decide) herr
  case getdents64 =>
    refine iff_false_intro fun h => ?_
    have herr := h (fun _ _ => 0) _ (returned_put (r := -1) fun _ _ => .inl (by decide))
    rw [resultOf_put] at herr
    exact not_fits_of_lt (by decide) (herr (by decide))
  case readlinkat =>
    refine iff_false_intro fun h => ?_
    have herr := h (fun _ _ => 0) _ (returned_put (r := -2) fun _ _ => .inl (by decide))
    rw [resultOf_put] at herr
    exact not_fits_of_lt (by decide) (herr (by decide))
  case getcwd =>
    constructor
    · intro h
      have herr := h (fun _ _ => 0) _ (returned_put (r := -2) fun _ _ => .inl (by decide))
      rw [resultOf_put] at herr
      exact herr (by decide)
    · exact fun h _ _ _ _ => h

/-! ## Arrays -/

/-- Untrusted memory when the kernel fails with `ENOENT` and writes nothing. -/
def refused (c : Ctx) (n : Sysno) (u : UMem) : UMem := (put .arg0 (-2)).apply (sent c n u)

theorem returned_refused {calls : List HostCall} (u : UMem) :
    Returned c K calls (sent c n u) (refused c n u) :=
  returned_put fun _ _ => .inl (by decide)

theorem refused_of_ne {q : Region} (hq : q ≠ .buf .arg0) (u : UMem) :
    refused c n u q = sent c n u q := by
  rw [refused, put_apply, if_neg hq]

/-- A region that the case does not write to keeps what earlier calls left. -/
theorem refused_of_unsent {q : Region} (h : ∀ s ∈ wrapSends c n, s.dst ≠ q) (hq : q ≠ .buf .arg0)
    (u : UMem) : refused c n u q = u q := by
  rw [refused_of_ne hq, sent, applyAll_of_ne h, sendNr_apply, if_neg hq]

/-- Different places can be given any contents, with all others as they are. -/
theorem exists_overwrite {k : Nat} {f : Nat → Region}
    (hf : ∀ i < k, ∀ j < k, f i = f j → i = j) (g : Nat → Bytes) (w : UMem) :
    ∃ v : UMem, (∀ i < k, v (f i) = g i) ∧ ∀ q, (∀ i < k, q ≠ f i) → v q = w q := by
  have hinj : Function.Injective fun i : Fin k => f i :=
    fun i j h => Fin.ext (hf i i.isLt j j.isLt h)
  refine ⟨Function.extend (fun i : Fin k => f i) (fun i => g i) w, fun i hi => ?_, fun q hq => ?_⟩
  · exact hinj.extend_apply (fun i : Fin k => g i) _ ⟨i, hi⟩
  · refine Function.extend_apply' _ _ _ ?_
    rintro ⟨i, heq⟩
    exact hq i i.isLt heq.symm

/-- Earlier calls can have left anything in different places. -/
theorem exists_slot {k : Nat} {f : Nat → Region} (hf : ∀ i < k, ∀ j < k, f i = f j → i = j)
    (g : Nat → Bytes) : ∃ u : UMem, ∀ i < k, u (f i) = g i := by
  obtain ⟨u, hu, -⟩ := exists_overwrite hf g fun _ _ => 0
  exact ⟨u, hu⟩

/-- The places of the segments of `readv`. -/
theorem readvPlace_inj {i j : Nat} (hi : i < 2 ^ 32) (hj : j < 2 ^ 32)
    (h : (if i < 5 then Region.buf (segBuf i) else .heap (c.alloc (i - 5))) =
      if j < 5 then .buf (segBuf j) else .heap (c.alloc (j - 5))) : i = j := by
  by_cases hi5 : i < 5 <;> by_cases hj5 : j < 5
  · rw [if_pos hi5, if_pos hj5] at h
    exact segBuf_inj hi5 hj5 (Region.buf.inj h)
  · rw [if_pos hi5, if_neg hj5] at h
    exact absurd h.symm (heap_ne_buf _ _)
  · rw [if_neg hi5, if_pos hj5] at h
    exact absurd h (heap_ne_buf _ _)
  · rw [if_neg hi5, if_neg hj5] at h
    have hinj := c.alloc_inj _ (by omega) _ (by omega) (Region.heap.inj h)
    omega

theorem readvPlace_ne (i : Nat) :
    (if i < 5 then Region.buf (segBuf i) else .heap (c.alloc (i - 5))) ≠ .buf .arg0 := by
  split
  · exact fun h => segBuf_ne (by decide) i (Region.buf.inj h)
  · exact heap_ne_buf _ _

/-- **`readv`** reads the length of a segment from memory that holds any bytes in
the segments before it. -/
theorem recvs_inside_readv :
    (∀ u v, Returned c K (unwrapCase .readv) (sent c .readv u) v →
      ∀ r ∈ wrapRecvs c v (wrapMem c .readv) .readv, r.Inside) ↔ recvsFit c K .readv := by
  have hcount := intCount_lt c.a3
  -- the copies of one run
  have hrun : ∀ u v, Returned c K (unwrapCase .readv) (sent c .readv u) v →
      ((∀ r ∈ wrapRecvs c v (wrapMem c .readv) .readv, r.Inside) ↔ ∀ i < intCount c.a3,
        let len := iovLen (readvMem c (fun j => v (readvSrc c v j)) i) c.a2 i
        if i < 5 then Fits len else NonNeg len) := by
    intro u v hv
    show (∀ r ∈ copyOut v (readvRecvs c v) c.mem, r.Inside) ↔ _
    rw [readvRecvs_eq]
    refine (copyOut_range (readvSrc c v) (intCount c.a3) Recv.Inside).2.trans ?_
    refine forall₂_congr fun i hi => ?_
    simp only [readvMem]
    rw [readvSrc_sent hi (returned_readv_array hv)]
    split
    · exact recv_buf_inside ..
    · exact recv_heap_inside ..
  constructor
  · intro h g i hi
    obtain ⟨u, hu⟩ := exists_slot (k := intCount c.a3)
      (f := fun j => if j < 5 then .buf (segBuf j) else .heap (c.alloc (j - 5)))
      (fun j hj k hk heq => readvPlace_inj (by omega) (by omega) heq) g
    have hv : Returned c K (unwrapCase .readv) (sent c .readv u) (refused c .readv u) :=
      returned_refused u
    have hbytes : ∀ j < i, refused c .readv u (readvSrc c (refused c .readv u) j) = g j := by
      intro j hj
      rw [readvSrc_sent (by omega) (returned_readv_array hv),
        refused_of_unsent (readvSrc_unsent j) (readvPlace_ne j)]
      exact hu j (by omega)
    have hlen := (hrun u _ hv).mp (h u _ hv) i hi
    rwa [show readvMem c _ i = readvMem c g i from filled_congr hbytes] at hlen
  · exact fun h u v hv => (hrun u v hv).mpr fun i hi => h _ i hi

/-- Where no segment covers the array, the lengths are the caller's. -/
theorem readv_fits_iff_of_apart
    (hsep : ∀ i < intCount c.a3,
      Apart c.a2 (16 * intCount c.a3) (iovBase c.mem c.a2 i) (memcpyLen (iovLen c.mem c.a2 i))) :
    recvsFit c K .readv ↔ ∀ i < intCount c.a3,
      if i < 5 then Fits (iovLen c.mem c.a2 i) else NonNeg (iovLen c.mem c.a2 i) := by
  have hsame : ∀ g, ∀ i < intCount c.a3, iovLen (readvMem c g i) c.a2 i = iovLen c.mem c.a2 i := by
    intro g i hi
    refine AgreeOn.iovLen (n := intCount c.a3) ?_ hi
    refine filled_rule (I := fun m => AgreeOn m c.mem c.a2 _) (AgreeOn.refl _ _ _)
      fun j hj m hm => hm.store ?_ _
    rw [hm.iovBase (by omega), hm.iovLen (by omega)]
    exact hsep j (by omega)
  constructor
  · intro h i hi
    have hlen := h (fun _ _ => 0) i hi
    rwa [hsame _ i hi] at hlen
  · intro h g i hi
    rw [hsame g i hi]
    exact h i hi

/-! ## Messages -/

/-- The copy of the name, with the bytes that it brings. -/
theorem msgNameRecvs_apply (v : UMem) :
    ∃ f, ∀ g, applyRecvs v (msgNameRecvs c v c.mem) c.mem = msgMem c f g 0 := by
  unfold msgNameRecvs
  split
  · exact ⟨_, fun _ => (Mem.store_at c.mem _ _).symm⟩
  · exact ⟨_, fun _ => recv_apply_store ..⟩

theorem failed_refused (u : UMem) : Failed c n (-2) u (refused c n u) where
  result := resultOf_put _ _
  rest _ hq := refused_of_ne hq u

section Message

variable (hv : Returned c K (unwrapCase .recvmsg) (sent c .recvmsg u) v)

include hv

/-- The kernel only changes the lengths of the name and of the control data, and
the flags. -/
theorem returned_header :
    ∃ f, ∀ i, i < 8 ∨ 16 ≤ i ∧ i < 40 ∨ msgControllen c.mem c.a2 = 0 ∧ 40 ≤ i ∧ i < 48 →
      v (.buf .arg2) i = msgHeader c f i := by
  have hsent : sent c .recvmsg u (.buf .arg2) = msgHeader c _ := msg_header c false _
  refine ⟨_, fun i hi => (hv.frame _ i (by decide) ?_).trans (congrFun hsent i)⟩
  refine recvmsg_writes (Q := fun w =>
    ¬ (c.region w.ptr = .buf .arg2 ∧ w.off ≤ i ∧ i < w.off + w.size)) u ?_ ?_ ?_ ?_ ?_ ?_
  · rintro ⟨-, hlow, hhigh⟩
    simp only at hlow hhigh
    omega
  · rintro ⟨-, hlow, hhigh⟩
    simp only at hlow hhigh
    omega
  · rintro hlen ⟨-, hlow, hhigh⟩
    simp only at hlow hhigh
    rcases hi with hi | hi | hi
    · omega
    · omega
    · exact hlen hi.1
  · rintro - k ⟨hreg, -⟩
    rw [c.region_alloc] at hreg
    exact heap_ne_buf _ _ hreg
  · rintro j - k ⟨hreg, -⟩
    rw [c.region_alloc] at hreg
    exact heap_ne_buf _ _ hreg
  · rintro - k ⟨hreg, -⟩
    rw [c.region_alloc] at hreg
    exact heap_ne_buf _ _ hreg

theorem returned_name : load64 (v (.buf .arg2)) 0 = msgNamePtr c := by
  obtain ⟨f, hf⟩ := returned_header hv
  rw [load64_congr (p := 0) fun j hj => hf (0 + j) (by omega), msgHeader_name]

theorem returned_iov : load64 (v (.buf .arg2)) 16 = msgIovPtr c := by
  obtain ⟨f, hf⟩ := returned_header hv
  rw [load64_congr (p := 16) fun j hj => hf (16 + j) (by omega), msgHeader_iov]

theorem returned_iovlen : load32 (v (.buf .arg2)) 24 = 0 ↔ msgIovlen c.mem c.a2 = 0 := by
  obtain ⟨f, hf⟩ := returned_header hv
  rw [load32_congr (p := 24) fun j hj => hf (24 + j) (by omega), msgHeader_iovlen]
  exact signExtend_eq_zero_iff

theorem returned_controllen (h : msgControllen c.mem c.a2 = 0) :
    load32 (v (.buf .arg2)) 40 = 0 := by
  obtain ⟨f, hf⟩ := returned_header hv
  rw [load32_congr (p := 40) fun j hj => hf (40 + j) (.inr (.inr ⟨h, by omega, by omega⟩)),
    msgHeader_controllen, h]
  rfl

theorem returned_control : load64 (v (.buf .arg2)) 32 = msgControlPtr c := by
  obtain ⟨f, hf⟩ := returned_header hv
  rw [load64_congr (p := 32) fun j hj => hf (32 + j) (by omega), msgHeader_control]

/-- The kernel writes to the blocks of the parts only. -/
theorem returned_array {i : Nat} (hi : i < intCount (msgIovlen c.mem c.a2)) :
    load64 (v (.heap (msgIovPtr c))) (16 * i) = c.alloc (msgNameBlocks c + 1 + i) := by
  have hlen := msgIovlen_ne_zero hi
  have hall := msgIovBlocks_eq hlen
  have hptr : msgIovPtr c = c.alloc (msgNameBlocks c) := if_neg hlen
  have hsame : v (.heap (msgIovPtr c)) = sent c .recvmsg u (.heap (msgIovPtr c)) := by
    refine funext fun k => hv.frame _ k (heap_ne_buf _ _) ?_
    refine recvmsg_writes (Q := fun w =>
      ¬ (c.region w.ptr = .heap (msgIovPtr c) ∧ w.off ≤ k ∧ k < w.off + w.size)) u ?_ ?_ ?_ ?_ ?_ ?_
    · rintro ⟨hreg, -⟩
      rw [c.region_addr] at hreg
      exact heap_ne_buf _ _ hreg.symm
    · rintro ⟨hreg, -⟩
      rw [c.region_addr] at hreg
      exact heap_ne_buf _ _ hreg.symm
    · rintro - ⟨hreg, -⟩
      rw [c.region_addr] at hreg
      exact heap_ne_buf _ _ hreg.symm
    · rintro hname k ⟨hreg, -⟩
      have hone := msgNameBlocks_eq hname
      rw [c.region_alloc, hptr] at hreg
      exact msgBlock_ne (by omega) (by omega) (by omega) (Region.heap.inj hreg)
    · rintro j hj k ⟨hreg, -⟩
      rw [c.region_alloc, hptr] at hreg
      exact msgBlock_ne (by omega) (by omega) (by omega) (Region.heap.inj hreg)
    · rintro - k ⟨hreg, -⟩
      rw [c.region_alloc, hptr] at hreg
      exact msgBlock_ne le_rfl (by omega) (by omega) (Region.heap.inj hreg)
  rw [hsame]
  exact (msg_entry false hi _).1

theorem msgSegSrc_returned {i : Nat} (hi : i < intCount (msgIovlen c.mem c.a2)) :
    msgSegSrc c v i = .heap (c.alloc (msgNameBlocks c + 1 + i)) := by
  rw [msgSegSrc, returned_iov hv, region_msgIovPtr, returned_array hv hi, c.region_alloc]

/-- Every part of a message is copied from a block. -/
theorem msgNameRecvs_inside {m : Mem} (h : NonNeg (msgNamelen m c.a2)) :
    ∀ r ∈ msgNameRecvs c v m, r.Inside := by
  unfold msgNameRecvs
  split
  · exact fun r hr => absurd hr List.not_mem_nil
  · rw [returned_name hv, region_msgNamePtr, List.forall_mem_singleton, recv_heap_inside]
    exact h

theorem msgControlRecvs_inside {m : Mem}
    (h : msgControllen c.mem c.a2 ≠ 0 → NonNeg (msgControllen m c.a2)) :
    ∀ r ∈ msgControlRecvs c v m, r.Inside := by
  unfold msgControlRecvs
  split
  case isTrue => exact fun r hr => absurd hr List.not_mem_nil
  case isFalse hlen =>
    rw [returned_control hv, region_msgControlPtr, List.forall_mem_singleton, recv_heap_inside]
    exact h (mt (returned_controllen hv) hlen)

/-- **The segments of a message** that are copied: up to the first that the message of
the moment does not have. -/
theorem msgSegRecvs_run (f : Bytes) :
    let M := msgMem c f fun i => v (msgSegSrc c v i)
    ∃ k, (∀ i < k, i < msgBound c (M i)) ∧ ¬ k < msgBound c (M k) ∧
      (∀ r, r ∈ msgSegRecvs c v (M 0) ↔ ∃ i < k, r = msgSegRecv c v i (M i)) ∧
      applyRecvs v (msgSegRecvs c v (M 0)) (M 0) = M k := by
  intro M
  have hzero := returned_iovlen hv
  unfold msgSegRecvs msgBound
  by_cases hlen : msgIovlen c.mem c.a2 = 0
  · rw [if_pos (hzero.mpr hlen)]
    refine ⟨0, fun i hi => absurd hi (Nat.not_lt_zero i), ?_, fun r => ?_, rfl⟩
    · rw [if_pos hlen]
      exact Nat.lt_irrefl 0
    · exact ⟨fun hr => absurd hr List.not_mem_nil, fun ⟨i, hi, _⟩ => absurd hi (Nat.not_lt_zero i)⟩
  · obtain ⟨k, -, hruns, hstop, hk, hmem, hafter⟩ :=
      recvmsgLoop_run (c := c) (v := v) (m := M 0) (2 ^ 31) 0
    rw [if_neg (mt hzero.mp hlen)]
    simp only [if_neg hlen]
    refine ⟨k, fun i hi => hruns i (Nat.zero_le i) hi, fun hlt => ?_, fun r => ?_, hafter⟩
    · have hcount := intCount_lt (msgIovlen (M k) c.a2)
      exact absurd hlt (Nat.not_lt.mpr (hstop (by omega)))
    · refine (hmem r).trans ?_
      simp only [Nat.zero_le, true_and]
      rfl

/-- **`recvmsg`** copies inside when all lengths fit, whatever the parts hold. -/
theorem recvmsg_recvs_inside (hfit : recvsFit c K .recvmsg) :
    ∀ r ∈ wrapRecvs c v (wrapMem c .recvmsg) .recvmsg, r.Inside := by
  show ∀ r ∈ recvmsgRecvs c v c.mem, r.Inside
  obtain ⟨hname, hparts⟩ := hfit
  obtain ⟨f, hf⟩ := msgNameRecvs_apply (c := c) v
  obtain ⟨k, hruns, hstop, hmem, hafter⟩ := msgSegRecvs_run hv f
  simp only [recvmsgRecvs_eq, hf fun i => v (msgSegSrc c v i), hafter, List.forall_mem_append]
  refine ⟨⟨⟨msgNameRecvs_inside hv hname, fun r hr => ?_⟩, msgControlRecvs_inside hv ?_⟩, ?_⟩
  · obtain ⟨i, hi, rfl⟩ := (hmem r).mp hr
    have hlen := hparts f (fun i => v (msgSegSrc c v i)) i fun j hj => hruns j (by omega)
    simp only [if_pos (hruns i hi)] at hlen
    unfold msgSegRecv
    split at hlen
    case isTrue hsent =>
      rw [msgSegSrc_returned hv hsent]
      exact (recv_heap_inside ..).mpr hlen
    case isFalse => exact (recv_inside ..).mpr ⟨hlen.nonNeg, fun _ _ => hlen⟩
  · have hlen := hparts f _ k hruns
    simp only [if_neg hstop] at hlen
    exact hlen
  · rw [List.forall_mem_singleton]
    exact fun hcopy => nomatch hcopy

end Message

/-- **A slot for any message**: the parts hold given bytes, and the pointer behind
the array leads to a buffer. -/
theorem exists_msgSlot (c : Ctx) (f : Bytes) (g : Nat → Bytes) (k : Nat) :
    ∃ u, (msgNamelen c.mem c.a2 ≠ 0 → refused c .recvmsg u (.heap (c.alloc 0)) = f) ∧
      (msgIovlen c.mem c.a2 ≠ 0 →
        (∀ i < 2 ^ 31, i ≠ k →
          refused c .recvmsg u (msgSegSrc c (refused c .recvmsg u) i) = g i) ∧
        (intCount (msgIovlen c.mem c.a2) ≤ k →
          msgSegSrc c (refused c .recvmsg u) k = .buf .arg8)) := by
  have hname := msgNameBlocks_le c
  -- where the pointers behind the array lead to
  let ptr : Nat → Word := fun i =>
    if i = k then c.addr .arg8 else c.alloc (msgNameBlocks c + 1 + i)
  obtain ⟨u, hu⟩ := exists_slot (k := 2 ^ 32) (f := fun j => .heap (c.alloc j))
    (fun i hi j hj heq => c.alloc_inj i hi j hj (Region.heap.inj heq)) fun j =>
      if j = msgNameBlocks c ∧ msgIovlen c.mem c.a2 ≠ 0 then fun o => le64 (ptr (o / 16)) (o % 16)
      else if j = 0 then f else g (j - (msgNameBlocks c + 1))
  have hv : Returned c linux (unwrapCase .recvmsg) (sent c .recvmsg u) (refused c .recvmsg u) :=
    returned_refused u
  have hblock : ∀ j < 2 ^ 32, (msgIovlen c.mem c.a2 ≠ 0 → j ≠ msgNameBlocks c) →
      refused c .recvmsg u (.heap (c.alloc j)) =
        if j = 0 then f else g (j - (msgNameBlocks c + 1)) := by
    intro j hj hne
    have hunsent : ∀ s ∈ wrapSends c .recvmsg, s.dst ≠ .heap (c.alloc j) :=
      msgSends_block fun hlen heq => hne hlen (c.alloc_inj _ hj _ (by omega) heq)
    rw [refused_of_unsent hunsent (heap_ne_buf _ _), hu j hj, if_neg fun h => hne h.2 h.1]
  refine ⟨u, fun hlen => ?_, fun hlen => ?_⟩
  · rw [hblock 0 (by decide) fun _ => nameBlock_ne hlen, if_pos rfl]
  have hptr : msgIovPtr c = c.alloc (msgNameBlocks c) := if_neg hlen
  have harray : ∀ i, intCount (msgIovlen c.mem c.a2) ≤ i →
      load64 (refused c .recvmsg u (.heap (msgIovPtr c))) (16 * i) = ptr i := by
    intro i hi
    rw [← load64_le64 (ptr i)]
    refine load64_congr fun o ho => ?_
    rw [refused_of_ne (heap_ne_buf _ _), hptr, sent,
      applyAll_of_not_writes (msgSends_array hi (by omega)), sendNr_apply,
      if_neg (heap_ne_buf _ _), hu _ (by omega), if_pos ⟨rfl, hlen⟩]
    have hentry : (16 * i + o) / 16 = i ∧ (16 * i + o) % 16 = 0 + o := by omega
    simp only [hentry]
  have hsrc : ∀ i, i ≠ k →
      msgSegSrc c (refused c .recvmsg u) i = .heap (c.alloc (msgNameBlocks c + 1 + i)) := by
    intro i hne
    by_cases hi : i < intCount (msgIovlen c.mem c.a2)
    · exact msgSegSrc_returned hv hi
    · rw [msgSegSrc, returned_iov hv, region_msgIovPtr, harray i (by omega),
        show ptr i = _ from if_neg hne, c.region_alloc]
  refine ⟨fun i hi hne => ?_, fun hk => ?_⟩
  · rw [hsrc i hne, hblock _ (by omega) fun _ => by omega, if_neg (by omega)]
    congr 1
    omega
  · rw [msgSegSrc, returned_iov hv, region_msgIovPtr, harray k hk, show ptr k = _ from if_pos rfl,
      c.region_addr]

/-- The name, as the slot holds it, is what a run starts with. -/
theorem msgNameRecvs_run {u v : UMem} {r : Word} {f : Bytes}
    (hv : Returned c K (unwrapCase .recvmsg) (sent c .recvmsg u) v)
    (hfail : Failed c .recvmsg r u v)
    (hheld : msgNamelen c.mem c.a2 ≠ 0 → v (.heap (c.alloc 0)) = f) (g : Nat → Bytes) :
    applyRecvs v (msgNameRecvs c v c.mem) c.mem = msgMem c f g 0 := by
  unfold msgNameRecvs
  split
  case isTrue hlen =>
    show _ = c.mem.store _ (memcpyLen (msgNamelen c.mem c.a2)) f
    rw [(failed_namelen hfail).mp hlen]
    exact funext fun p => (if_neg (Nat.not_lt_zero _)).symm
  case isFalse hlen =>
    have hne := mt (failed_namelen hfail).mpr hlen
    rw [returned_name hv, region_msgNamePtr, show msgNamePtr c = _ from if_neg hne,
      applyRecvs_cons, applyRecvs_nil, recv_apply_store, hheld hne]
    rfl

theorem of_lt_msgBound {i : Nat} {m : Mem} (h : i < msgBound c m) :
    msgIovlen c.mem c.a2 ≠ 0 ∧ i < 2 ^ 31 := by
  unfold msgBound at h
  split at h
  case isTrue => exact absurd h (Nat.not_lt_zero i)
  case isFalse hlen => exact ⟨hlen, h.trans (intCount_lt _)⟩

/-- A slot that holds the bytes in question makes every length be read. -/
theorem recvmsg_fits_of_inside
    (h : ∀ u v, Returned c K (unwrapCase .recvmsg) (sent c .recvmsg u) v →
      ∀ r ∈ wrapRecvs c v (wrapMem c .recvmsg) .recvmsg, r.Inside) : recvsFit c K .recvmsg := by
  have hinside : ∀ u, ∀ r ∈ recvmsgRecvs c (refused c .recvmsg u) c.mem, r.Inside :=
    fun u => h u _ (returned_refused u)
  refine ⟨(nonNeg_of_ne_zero _).mp fun hlen => ?_, fun f g k hruns => ?_⟩
  · have hin := hinside fun _ _ => 0
    simp only [recvmsgRecvs_eq, List.forall_mem_append] at hin
    have hnameIn := hin.1.1.1
    have hv : Returned c K (unwrapCase .recvmsg) (sent c .recvmsg fun _ _ => 0) _ :=
      returned_refused _
    rw [msgNameRecvs, if_neg (mt (failed_namelen (failed_refused _)).mp hlen), returned_name hv,
      region_msgNamePtr, List.forall_mem_singleton, recv_heap_inside] at hnameIn
    exact hnameIn
  obtain ⟨u, hheld, hsegs⟩ := exists_msgSlot c f g k
  have hv : Returned c K (unwrapCase .recvmsg) (sent c .recvmsg u) (refused c .recvmsg u) :=
    returned_refused u
  have hfail := failed_refused (c := c) (n := .recvmsg) u
  have hin := hinside u
  generalize refused c .recvmsg u = w at hheld hsegs hv hfail hin
  -- the memory that the run reaches
  have hmem : ∀ i ≤ k, msgMem c f (fun j => w (msgSegSrc c w j)) i = msgMem c f g i := by
    intro i hi
    refine filled_congr fun j hj => ?_
    obtain ⟨hlen, hlt⟩ := of_lt_msgBound (hruns j (by omega))
    exact (hsegs hlen).1 j hlt (by omega)
  obtain ⟨k', hruns', hstop, hseg, hafter⟩ := msgSegRecvs_run hv f
  simp only [recvmsgRecvs_eq, msgNameRecvs_run hv hfail hheld fun i => w (msgSegSrc c w i), hafter,
    List.forall_mem_append] at hin
  obtain ⟨⟨⟨-, hsegIn⟩, hcontrolIn⟩, -⟩ := hin
  have hle : k ≤ k' := by
    by_contra hlt
    have hmore := hruns k' (by omega)
    rw [← hmem k' (by omega)] at hmore
    exact hstop hmore
  simp only [← hmem k le_rfl]
  split
  case isTrue hk =>
    have hlt : k < k' := by
      refine lt_of_le_of_ne hle fun heq => hstop ?_
      rw [← heq]
      exact hk
    have hcopy := hsegIn _ ((hseg _).mpr ⟨k, hlt, rfl⟩)
    unfold msgSegRecv at hcopy
    split
    case isTrue hsent =>
      rw [msgSegSrc_returned hv hsent] at hcopy
      exact (recv_heap_inside ..).mp hcopy
    case isFalse hsent =>
      rw [(hsegs (of_lt_msgBound hk).1).2 (by omega)] at hcopy
      exact (recv_buf_inside ..).mp hcopy
  case isFalse hk =>
    intro hlen
    have heq : k = k' := by
      by_contra hne
      exact hk (hruns' k (by omega))
    rw [msgControlRecvs, if_neg (mt (failed_controllen hfail).mp hlen), returned_control hv,
      region_msgControlPtr, List.forall_mem_singleton, recv_heap_inside, ← heq] at hcontrolIn
    exact hcontrolIn

/-- **`recvmsg`**, too, reads each length from memory that holds any bytes in the
parts before it. -/
theorem recvs_inside_recvmsg :
    (∀ u v, Returned c K (unwrapCase .recvmsg) (sent c .recvmsg u) v →
      ∀ r ∈ wrapRecvs c v (wrapMem c .recvmsg) .recvmsg, r.Inside) ↔ recvsFit c K .recvmsg :=
  ⟨recvmsg_fits_of_inside, fun hfit _ _ hv => recvmsg_recvs_inside hv hfit⟩

theorem msgMem_succ (c : Ctx) (f : Bytes) (g : Nat → Bytes) (i : Nat) :
    let m := msgMem c f g i
    msgMem c f g (i + 1) = m.store (iovBase m (msgIov m c.a2) i)
      (memcpyLen (iovLen m (msgIov m c.a2) i)) (g i) := rfl

/-- No part of a message covers the header or the array that describe it. -/
structure MsgSeparated (c : Ctx) : Prop where
  nameHeader : Apart c.a2 sizeofMsghdr (msgName c.mem c.a2) (memcpyLen (msgNamelen c.mem c.a2))
  nameArray : Apart (msgIov c.mem c.a2) (16 * intCount (msgIovlen c.mem c.a2))
    (msgName c.mem c.a2) (memcpyLen (msgNamelen c.mem c.a2))
  segHeader : ∀ i < intCount (msgIovlen c.mem c.a2),
    Apart c.a2 sizeofMsghdr (iovBase c.mem (msgIov c.mem c.a2) i)
      (memcpyLen (iovLen c.mem (msgIov c.mem c.a2) i))
  segArray : ∀ i < intCount (msgIovlen c.mem c.a2),
    Apart (msgIov c.mem c.a2) (16 * intCount (msgIovlen c.mem c.a2))
      (iovBase c.mem (msgIov c.mem c.a2) i) (memcpyLen (iovLen c.mem (msgIov c.mem c.a2) i))

/-- The copies leave both alone. -/
theorem MsgSeparated.agreeOn (h : MsgSeparated c) (f : Bytes) (g : Nat → Bytes) {k : Nat}
    (hk : k ≤ intCount (msgIovlen c.mem c.a2)) :
    AgreeOn (msgMem c f g k) c.mem c.a2 sizeofMsghdr ∧
      AgreeOn (msgMem c f g k) c.mem (msgIov c.mem c.a2)
        (16 * intCount (msgIovlen c.mem c.a2)) := by
  induction k with
  | zero =>
      exact ⟨(AgreeOn.refl _ _ _).store h.nameHeader f, (AgreeOn.refl _ _ _).store h.nameArray f⟩
  | succ k ih =>
      obtain ⟨hheader, harray⟩ := ih (by omega)
      rw [msgMem_succ, hheader.msgIov, harray.iovBase (by omega), harray.iovLen (by omega)]
      exact ⟨hheader.store (h.segHeader k hk) _, harray.store (h.segArray k hk) _⟩

/-- Then the lengths are the caller's, too. -/
theorem recvmsg_fits_iff_of_separated (hsep : MsgSeparated c) :
    recvsFit c K .recvmsg ↔ NonNeg (msgNamelen c.mem c.a2) ∧
      (∀ i < intCount (msgIovlen c.mem c.a2), NonNeg (iovLen c.mem (msgIov c.mem c.a2) i)) ∧
      NonNeg (msgControllen c.mem c.a2) := by
  have hsame := fun f g k (hk : k ≤ intCount (msgIovlen c.mem c.a2)) => hsep.agreeOn f g hk
  have hbound : ∀ f g, ∀ k ≤ intCount (msgIovlen c.mem c.a2),
      msgBound c (msgMem c f g k) = intCount (msgIovlen c.mem c.a2) := by
    intro f g k hk
    unfold msgBound
    split
    case isTrue hlen =>
      rw [hlen]
      rfl
    case isFalse => rw [(hsame f g k hk).1.msgIovlen]
  constructor
  · rintro ⟨hname, hparts⟩
    have hruns : ∀ k ≤ intCount (msgIovlen c.mem c.a2), ∀ i < k,
        i < msgBound c (msgMem c (fun _ => 0) (fun _ _ => 0) i) := by
      intro k hk i hi
      rw [hbound _ _ i (by omega)]
      omega
    have hlen := fun k hk => hparts _ _ k (hruns k hk)
    refine ⟨hname, fun i hi => ?_, (nonNeg_of_ne_zero _).mp fun hne => ?_⟩
    · have hseg := hlen i hi.le
      simp only [hbound _ _ i hi.le, if_pos hi] at hseg
      rwa [(hsame _ _ i hi.le).1.msgIov, (hsame _ _ i hi.le).2.iovLen hi] at hseg
    · have hcontrol := hlen _ le_rfl
      simp only [hbound _ _ _ le_rfl, if_neg (Nat.lt_irrefl _)] at hcontrol
      rw [(hsame _ _ _ le_rfl).1.msgControllen] at hcontrol
      exact hcontrol hne
  · rintro ⟨hname, hsegs, hcontrol⟩
    refine ⟨hname, fun f g k hruns => ?_⟩
    have hk : k ≤ intCount (msgIovlen c.mem c.a2) := by
      by_contra hlt
      have hpast := hruns _ (Nat.lt_of_not_le hlt)
      rw [hbound f g _ le_rfl] at hpast
      exact Nat.lt_irrefl _ hpast
    obtain ⟨hheader, harray⟩ := hsame f g k hk
    simp only [hbound f g k hk]
    split
    case isTrue hi =>
      rw [hheader.msgIov, harray.iovLen hi]
      exact hsegs k hi
    case isFalse =>
      rw [hheader.msgControllen]
      exact fun _ => hcontrol

end Porpoise.Shim
