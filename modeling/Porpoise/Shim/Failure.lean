import Porpoise.Shim.Confine
import Porpoise.Shim.Result
import Porpoise.Shim.Scatter

/-!
# The output objects of a failed call

When a call fails and the kernel writes nothing, the slot holds what the enclave
sent and, elsewhere, what earlier calls left (`Failed`). A case that copies back
without asking for the result, or asks for another value than the host's `-errno`,
brings those bytes to the caller's objects.

* `untouched_iff`: when every failure leaves the caller's objects alone.
-/

namespace Porpoise.Shim

open Porpoise.Lib

variable {c : Ctx} {n : Sysno} {r : Word} {u v : UMem} {b : Buf} {x : Byte}

/-- Untrusted memory `v` after a call from `u` that failed with `r`. -/
structure Failed (c : Ctx) (n : Sysno) (r : Word) (u v : UMem) : Prop where
  result : resultOf v = r
  rest : ∀ q, q ≠ .buf .arg0 → v q = sent c n u q

/-- The output objects are what they were before the call. -/
def Untouched (c : Ctx) (n : Sysno) (v : UMem) : Prop :=
  ∀ o ∈ outObjects c n, ∀ p, o.Has p → memAfter c n v p = c.mem p

/-! ## Stale bytes -/

/-- The slot after a failure, when every byte that earlier calls left is `x`. -/
def staleSlot (c : Ctx) (n : Sysno) (r : Word) (x : Byte) : UMem :=
  (put .arg0 r).apply (sent c n fun _ _ => x)

theorem failed_staleSlot (c : Ctx) (n : Sysno) (r : Word) (x : Byte) :
    Failed c n r (fun _ _ => x) (staleSlot c n r x) where
  result := resultOf_put _ _
  rest _ hq := (put_apply ..).trans (if_neg hq)

theorem staleSlot_apply {q : Region} (hq : q ≠ .buf .arg0) (h : ∀ s ∈ wrapSends c n, s.dst ≠ q)
    (i : Nat) : staleSlot c n r x q i = x := by
  rw [(failed_staleSlot c n r x).rest q hq, sent, applyAll_of_ne h, sendNr_apply, if_neg hq]

/-- **A stale byte** that reaches an output object. -/
theorem not_untouched_of_byte {o : Obj} {p : Word} (ho : o ∈ outObjects c n) (hp : o.Has p)
    (h : ∀ x, ∃ u v, Failed c n r u v ∧ memAfter c n v p = x) :
    ¬ ∀ u v, Failed c n r u v → Untouched c n v := by
  intro hall
  obtain ⟨u, v, hv, hbyte⟩ := h (~~~ c.mem p)
  have hsame := hall u v hv o ho p hp
  rw [hbyte] at hsame
  exact byte_not_ne _ hsame

theorem not_untouched {o : Obj} {p : Word} (ho : o ∈ outObjects c n) (hp : o.Has p)
    (h : ∀ x, memAfter c n (staleSlot c n r x) p = x) :
    ¬ ∀ u v, Failed c n r u v → Untouched c n v :=
  not_untouched_of_byte ho hp fun x => ⟨_, _, failed_staleSlot c n r x, h x⟩

theorem Obj.has_ptr {p : Word} {size : Nat} (h : 0 < size) : (Obj.mk p size).Has p := by
  unfold Obj.Has
  simpa using h

/-- The last copy of a case brings a stale byte to the start of its object. -/
theorem not_untouched_of_last (rs : List Recv) {dst len : Word} {size : Nat}
    (hrecvs : ∀ v, resultOf v = r →
      wrapRecvs c v (wrapMem c n) n = rs ++ [recv (.buf b) dst len])
    (hb : b ≠ .arg0) (hsends : ∀ s ∈ wrapSends c n, s.dst ≠ .buf b) (hlen : 0 < memcpyLen len)
    (ho : ⟨dst, size⟩ ∈ outObjects c n) (hsize : 0 < size) :
    ¬ ∀ u v, Failed c n r u v → Untouched c n v := by
  refine not_untouched ho (Obj.has_ptr hsize) fun x => ?_
  have hbuf : Region.buf b ≠ .buf .arg0 := fun hb' => hb (Region.buf.inj hb')
  have hw : (recv (.buf b) dst len).Writes dst := by
    show (dst - dst).toNat < memcpyLen len
    simpa using hlen
  rw [memAfter, hrecvs _ (failed_staleSlot c n r x).result, applyRecvs_append, applyRecvs_cons,
    applyRecvs_nil, recv_apply_of_writes hw]
  exact staleSlot_apply hbuf hsends _

/-- A case without copies back, on a call that changes no object before. -/
theorem untouched_of_no_recvs (hmem : wrapMem c n = c.mem)
    (hrecvs : ∀ q ∈ wrapRecvs c v (wrapMem c n) n, q.size = 0) : Untouched c n v := by
  intro o _ p _
  rw [memAfter, applyRecvs_of_not_writes, hmem]
  intro q hq hw
  rw [Recv.Writes, hrecvs q hq] at hw
  omega

/-! ## Objects of known size -/

/-- The calls with output objects, other than those with arrays or lengths in
memory. -/
def fixedOutputs : List Sysno :=
  [.stat, .lstat, .fstat, .newfstatat, .pipe, .socketpair, .uname, .getcwd, .getrlimit,
   .getrusage, .sysinfo, .times, .getgroups, .getresuid, .getresgid, .statfs, .fstatfs,
   .clock_gettime, .clock_getres, .setitimer, .prlimit64]

/-- When a failure with `r` leaves the objects alone. -/
def keepsOnFailure (c : Ctx) (r : Word) : Sysno → Prop
  | .stat | .lstat => r = -1 ∧ ∀ i < 144, c.mem.at c.a2 i = 0
  | .getcwd => memcpyLen c.a2 = 0
  | .getgroups => c.a2 = 0 ∨ intCount c.a1 = 0 ∨ memcpyLen (c.a1 * 4) = 0
  | .clock_getres => c.a2 = 0
  | .setitimer => c.a3 = 0
  | .prlimit64 => c.a4 = 0
  | .accept4 =>
      c.a2 = 0 ∨ c.a3 ≠ 0 ∧ ∀ i < min (load32 (c.mem.at c.a3) 0).toNat 16,
        (c.a2 + BitVec.ofNat 64 i - c.a3).toNat < 4
  | .readv => ∀ i < intCount c.a3, memcpyLen (iovLen c.mem c.a2 i) = 0
  | .recvmsg =>
      msgNamelen c.mem c.a2 = 0 ∧
      (∀ i < intCount (msgIovlen c.mem c.a2),
        memcpyLen (iovLen c.mem (msgIov c.mem c.a2) i) = 0) ∧
      msgControllen c.mem c.a2 = 0
  | _ => False

/-- `stat` and `lstat` clear the object first, and take `-1` only for a failure. -/
theorem untouched_iff_stat (hn : n = .stat ∨ n = .lstat) :
    (∀ u v, Failed c n r u v → Untouched c n v) ↔ keepsOnFailure c r n := by
  have hobj : outObjects c n = [⟨c.a2, 144⟩] := by
    rcases hn with rfl | rfl <;> rfl
  have hkeep : keepsOnFailure c r n = (r = -1 ∧ ∀ i < 144, c.mem.at c.a2 i = 0) := by
    rcases hn with rfl | rfl <;> rfl
  have hmem : ∀ p, (Obj.mk c.a2 144).Has p → wrapMem c n p = 0 := by
    intro p hp
    rcases hn with rfl | rfl <;> exact if_pos hp
  have hrecvs : ∀ v, wrapRecvs c v (wrapMem c n) n =
      if resultOf v ≠ -1 then [recv (.buf .arg2) c.a2 sizeofStat] else [] := by
    intro v
    rcases hn with rfl | rfl <;> rfl
  have hsends : ∀ s ∈ wrapSends c n, s.dst ≠ .buf .arg2 := by
    rcases hn with rfl | rfl <;> simp [wrapSends]
  rw [hkeep]
  by_cases hr : r = -1
  · have hafter : ∀ u v, Failed c n r u v → memAfter c n v = wrapMem c n := by
      intro u v hv
      rw [memAfter, hrecvs, hv.result, if_neg (not_not_intro hr)]
      rfl
    constructor
    · intro h
      refine ⟨hr, fun i hi => ?_⟩
      have hp : (Obj.mk c.a2 144).Has (c.a2 + BitVec.ofNat 64 i) := by
        show (c.a2 + BitVec.ofNat 64 i - c.a2).toNat < 144
        rw [toNat_add_sub c.a2 (by omega)]
        exact hi
      have hfail := failed_staleSlot c n r 0
      have hsame := h _ _ hfail ⟨c.a2, 144⟩ (hobj ▸ List.mem_singleton_self _) _ hp
      rw [hafter _ _ hfail, hmem _ hp] at hsame
      exact hsame.symm
    · rintro ⟨-, hzero⟩ u v hv o ho p hp
      rw [hobj] at ho
      obtain rfl := List.mem_singleton.mp ho
      rw [hafter u v hv, hmem p hp]
      have hbyte := hzero _ hp
      rw [Mem.at, BitVec.ofNat_toNat, BitVec.setWidth_eq, BitVec.add_comm,
        BitVec.sub_add_cancel] at hbyte
      exact hbyte.symm
  · have hlast : ∀ v, resultOf v = r →
        wrapRecvs c v (wrapMem c n) n = [] ++ [recv (.buf .arg2) c.a2 sizeofStat] := by
      intro v hv
      rw [hrecvs, hv, if_pos hr]
      rfl
    exact iff_of_false (not_untouched_of_last [] hlast (by decide) hsends (by decide)
      (hobj ▸ List.mem_singleton_self _) (by decide)) fun h => hr h.1

/-- A copy back that only a `NULL` pointer prevents. -/
theorem untouched_iff_optional {p : Word} {size : Nat} {len : Word} (hb : b ≠ .arg0)
    (hsends : ∀ s ∈ wrapSends c n, s.dst ≠ .buf b) (hmem : wrapMem c n = c.mem)
    (hrecvs : ∀ v, wrapRecvs c v (wrapMem c n) n = if p ≠ 0 then [recv (.buf b) p len] else [])
    (ho : outObjects c n = optObj p size) (hlen : 0 < memcpyLen len) (hsize : 0 < size) :
    (∀ u v, Failed c n r u v → Untouched c n v) ↔ p = 0 := by
  by_cases hp : p = 0
  · refine iff_of_true (fun _ v _ => untouched_of_no_recvs hmem fun q hq => ?_) hp
    rw [hrecvs, if_neg (not_not_intro hp)] at hq
    exact absurd hq List.not_mem_nil
  · have hlast : ∀ v, wrapRecvs c v (wrapMem c n) n = [] ++ [recv (.buf b) p len] := by
      intro v
      rw [hrecvs, if_pos hp]
      rfl
    have hobj : ⟨p, size⟩ ∈ outObjects c n := by
      rw [ho, optObj, if_neg hp]
      exact List.mem_singleton_self _
    exact iff_of_false (not_untouched_of_last [] (fun v _ => hlast v) hb hsends hlen hobj hsize) hp

theorem untouched_iff_getcwd (hr : r ≠ 0) :
    (∀ u v, Failed c .getcwd r u v → Untouched c .getcwd v) ↔ keepsOnFailure c r .getcwd := by
  have hrecvs : ∀ v, resultOf v = r → wrapRecvs c v (wrapMem c .getcwd) .getcwd =
      [] ++ [recv (.buf .arg1) c.a1 c.a2] := fun v hv => if_pos (hv ▸ hr)
  by_cases hlen : memcpyLen c.a2 = 0
  · refine iff_of_true (fun u v hv => untouched_of_no_recvs rfl fun q hq => ?_) hlen
    rw [hrecvs v hv.result] at hq
    obtain rfl := List.mem_singleton.mp hq
    exact hlen
  · refine iff_of_false (not_untouched_of_last [] hrecvs (by decide) (by simp [wrapSends])
      (Nat.pos_of_ne_zero hlen) (List.mem_singleton_self _) ?_) hlen
    rw [memcpyLen_eq] at hlen
    split at hlen <;> omega

theorem untouched_iff_getgroups :
    (∀ u v, Failed c .getgroups r u v → Untouched c .getgroups v) ↔
      keepsOnFailure c r .getgroups := by
  by_cases hp : c.a2 = 0
  · refine iff_of_true (fun u v _ => untouched_of_no_recvs rfl fun q hq => ?_) (.inl hp)
    simp [wrapRecvs, hp] at hq
  have ho : outObjects c .getgroups = [⟨c.a2, 4 * intCount c.a1⟩] := if_neg hp
  have hrecvs : ∀ v, wrapRecvs c v (wrapMem c .getgroups) .getgroups =
      [] ++ [recv (.buf .arg2) c.a2 (c.a1 * 4)] := fun v => if_pos hp
  by_cases hsize : intCount c.a1 = 0
  · refine iff_of_true (fun u v _ o hmem q hq => ?_) (.inr (.inl hsize))
    rw [ho] at hmem
    obtain rfl := List.mem_singleton.mp hmem
    have hlt : (q - c.a2).toNat < 4 * intCount c.a1 := hq
    omega
  by_cases hlen : memcpyLen (c.a1 * 4) = 0
  · refine iff_of_true (fun u v _ => untouched_of_no_recvs rfl fun q hq => ?_) (.inr (.inr hlen))
    rw [hrecvs] at hq
    obtain rfl := List.mem_singleton.mp hq
    exact hlen
  · refine iff_of_false (not_untouched_of_last [] (fun v _ => hrecvs v) (by decide)
      (by simp [wrapSends]) (Nat.pos_of_ne_zero hlen) (ho ▸ List.mem_singleton_self _)
      (by omega)) ?_
    rintro (h | h | h)
    · exact hp h
    · exact hsize h
    · exact hlen h

theorem untouched_iff_fixed (hn : n ∈ fixedOutputs) (hr : IsError r) :
    (∀ u v, Failed c n r u v → Untouched c n v) ↔ keepsOnFailure c r n := by
  have hne : r ≠ 0 := by
    rintro rfl
    exact absurd hr (by decide)
  cases n <;> (first | exact absurd hn (by decide) | skip)
  case stat => exact untouched_iff_stat (.inl rfl)
  case lstat => exact untouched_iff_stat (.inr rfl)
  case getcwd => exact untouched_iff_getcwd hne
  case getgroups => exact untouched_iff_getgroups
  case clock_getres =>
    exact untouched_iff_optional (b := .arg2) (by decide) (by simp [wrapSends]) rfl (fun _ => rfl)
      rfl (by decide) (by decide)
  case setitimer =>
    refine untouched_iff_optional (b := .arg4) (by decide) ?_ rfl (fun _ => rfl) rfl (by decide)
      (by decide)
    simp only [wrapSends, List.forall_mem_append, forall_mem_ite, List.forall_mem_cons]
    simp
  case prlimit64 =>
    refine untouched_iff_optional (b := .arg6) (by decide) ?_ rfl (fun _ => rfl) rfl (by decide)
      (by decide)
    simp only [wrapSends, List.forall_mem_append, forall_mem_ite, List.forall_mem_cons]
    simp
  case getresuid | getresgid =>
    exact iff_of_false (not_untouched_of_last [recv (.buf .arg1) c.a1 4, recv (.buf .arg2) c.a2 4]
      (fun _ _ => rfl) (by decide) (by simp [wrapSends]) (by decide)
      (List.mem_cons_of_mem _ (List.mem_cons_of_mem _ (List.mem_singleton_self _))) (by decide)) id
  -- copied back whatever the result
  all_goals
    exact iff_of_false (not_untouched_of_last [] (fun _ _ => rfl) (by decide)
      (by simp [wrapSends]) (by decide) (List.mem_singleton_self _) (by decide)) id

/-! ## The address of `accept4` -/

/-- The copy of the address has a fixed length; the one of its length comes after it. -/
theorem accept4_at (h2 : c.a2 ≠ 0#64) (h3 : c.a3 ≠ 0#64) (v : UMem) (p : Word) :
    memAfter c .accept4 v p =
      if (p - c.a3).toNat < 4 then v (.buf .arg3) (p - c.a3).toNat
      else if (p - c.a2).toNat < 16 then v (.buf .arg2) (p - c.a2).toNat else c.mem p := by
  have hrecvs : wrapRecvs c v (wrapMem c .accept4) .accept4 =
      [recv (.buf .arg2) c.a2 sizeofSockaddr, recv (.buf .arg3) c.a3 sizeofSocklen] := by
    show (if c.a2 ≠ 0#64 then [recv (.buf .arg2) c.a2 sizeofSockaddr] else []) ++
      (if c.a3 ≠ 0#64 then [recv (.buf .arg3) c.a3 sizeofSocklen] else []) = _
    rw [if_pos h2, if_pos h3]
    rfl
  rw [memAfter, hrecvs, applyRecvs_cons, applyRecvs_cons, applyRecvs_nil, recv_apply_eq,
    recv_apply_eq]
  rfl

/-- The buffer of the address is not sent. -/
theorem accept4_address_sent (u : UMem) : sent c .accept4 u (.buf .arg2) = u (.buf .arg2) := by
  refine sent_of_ne (by decide) ?_ u
  simp only [wrapSends, List.cons_append, List.forall_mem_cons, List.forall_mem_append,
    forall_mem_ite]
  simp

/-- After a failure: the length is what was sent, the rest of the address is
stale. -/
theorem memAfter_accept4 (h2 : c.a2 ≠ 0#64) (h3 : c.a3 ≠ 0#64) (hv : Failed c .accept4 r u v)
    (p : Word) :
    memAfter c .accept4 v p =
      if (p - c.a3).toNat < 4 then c.mem p
      else if (p - c.a2).toNat < 16 then u (.buf .arg2) (p - c.a2).toNat else c.mem p := by
  have hsent2 : v (.buf .arg2) = u (.buf .arg2) := by
    rw [hv.rest _ (by decide), accept4_address_sent]
  have hsent3 : v (.buf .arg3) = overlay 0 4 (c.mem.at c.a3) (u (.buf .arg3)) := by
    rw [hv.rest _ (by decide)]
    simp [sent, wrapSends, h3]
  rw [accept4_at h2 h3, hsent2, hsent3]
  split
  · rename_i hp3
    have hbyte := overlay_of_lt (o := 0) hp3 (c.mem.at c.a3) (u (.buf .arg3))
    rw [Nat.zero_add] at hbyte
    exact hbyte.trans (congrArg c.mem (add_ofNat_sub p c.a3))
  · rfl

/-- Without `addrlen` the address is copied all the same. -/
theorem not_untouched_accept4 (h2 : c.a2 ≠ 0#64) (h3 : c.a3 = 0#64) :
    ¬ ∀ u v, Failed c .accept4 r u v → Untouched c .accept4 v := by
  have ho : outObjects c .accept4 = [⟨c.a2, 16⟩] := by
    simp [outObjects, optObj, h2, h3]
  have hrecvs : ∀ v, wrapRecvs c v (wrapMem c .accept4) .accept4 =
      [recv (.buf .arg2) c.a2 sizeofSockaddr] := by
    intro v
    simp [wrapRecvs, h2, h3]
  have hsends : ∀ s ∈ wrapSends c .accept4, s.dst ≠ .buf .arg2 := by
    simp [wrapSends, h3]
  exact not_untouched_of_last [] (fun v _ => hrecvs v) (by decide) hsends (by decide)
    (ho ▸ List.mem_singleton_self _) (by decide)

theorem untouched_iff_accept4 :
    (∀ u v, Failed c .accept4 r u v → Untouched c .accept4 v) ↔ keepsOnFailure c r .accept4 := by
  by_cases h2 : c.a2 = 0#64
  · have ho : outObjects c .accept4 = [] := if_pos h2
    exact iff_of_true (fun _ _ _ o hmem => absurd (ho ▸ hmem) List.not_mem_nil) (.inl h2)
  by_cases h3 : c.a3 = 0#64
  · exact iff_of_false (not_untouched_accept4 h2 h3) fun hkeep =>
      (hkeep.resolve_left h2).1 h3
  have ho : outObjects c .accept4 = [⟨c.a2, (load32 (c.mem.at c.a3) 0).toNat⟩] := by
    simp [outObjects, optObj, h2, h3]
  constructor
  · intro h
    refine .inr ⟨h3, fun i hi => ?_⟩
    by_contra hlt
    have hi' : (c.a2 + BitVec.ofNat 64 i - c.a2).toNat = i := toNat_add_sub c.a2 (by omega)
    have hp : (Obj.mk c.a2 (load32 (c.mem.at c.a3) 0).toNat).Has (c.a2 + BitVec.ofNat 64 i) := by
      show (c.a2 + BitVec.ofNat 64 i - c.a2).toNat < (load32 (c.mem.at c.a3) 0).toNat
      omega
    refine not_untouched (ho ▸ List.mem_singleton_self _) hp (fun x => ?_) h
    rw [memAfter_accept4 h2 h3 (failed_staleSlot c .accept4 r x), if_neg hlt, if_pos (by omega)]
  · intro hkeep u v hv o hmem p hp
    obtain rfl := List.mem_singleton.mp (ho ▸ hmem)
    have hcover := (hkeep.resolve_left h2).2
    rw [memAfter_accept4 h2 h3 hv]
    split
    · rfl
    · rename_i hp3
      split
      · rename_i hp2
        have hlt := hcover (p - c.a2).toNat (Nat.lt_min.mpr ⟨hp, hp2⟩)
        rw [add_ofNat_sub] at hlt
        exact absurd hlt hp3
      · rfl

/-! ## The segments of `readv` -/

theorem staleSlot_readvSrc {i : Nat} (hi : i < intCount c.a3) (k : Nat) :
    staleSlot c .readv r x (readvSrc c (staleSlot c .readv r x) i) k = x := by
  rw [readvSrc_sent hi ((failed_staleSlot c .readv r x).rest _ (by decide))]
  refine staleSlot_apply ?_ (readvSrc_unsent i) k
  split
  · exact fun h => segBuf_ne (by decide) i (Region.buf.inj h)
  · exact heap_ne_buf _ _

theorem untouched_iff_readv :
    (∀ u v, Failed c .readv r u v → Untouched c .readv v) ↔ keepsOnFailure c r .readv := by
  constructor
  · intro h i hi
    by_contra hlen
    -- the first segment that is not empty
    have hex : ∃ i, i < intCount c.a3 ∧ memcpyLen (iovLen c.mem c.a2 i) ≠ 0 := ⟨i, hi, hlen⟩
    obtain ⟨hk, hne⟩ := Nat.find_spec hex
    have hempty : ∀ j < Nat.find hex, memcpyLen (iovLen c.mem c.a2 j) = 0 := by
      intro j hj
      by_contra hjne
      exact Nat.find_min hex hj ⟨by omega, hjne⟩
    have hsize : 0 < (iovLen c.mem c.a2 (Nat.find hex)).toNat := by
      rw [memcpyLen_eq] at hne
      split at hne <;> omega
    have ho : (⟨iovBase c.mem c.a2 (Nat.find hex),
        (iovLen c.mem c.a2 (Nat.find hex)).toNat⟩ : Obj) ∈ outObjects c .readv :=
      List.mem_map.mpr ⟨_, List.mem_range.mpr hk, rfl⟩
    refine not_untouched ho (Obj.has_ptr hsize) (fun x => ?_) h
    show applyRecvs _ (copyOut _ (readvRecvs c _) c.mem) c.mem _ = x
    rw [readvRecvs_eq]
    refine applyRecvs_of_const (fun q hq j _ => ?_) (.inr ⟨_, mem_copyOut_range hk fun j hj =>
      recv_apply_of_size_zero (hempty j hj) _ _, ?_⟩)
    · have hsrc : ∀ q ∈ copyOut (staleSlot c .readv r x)
          ((List.range (intCount c.a3)).map (readvRecv c (staleSlot c .readv r x))) c.mem,
          ∃ i < intCount c.a3, q.src = readvSrc c (staleSlot c .readv r x) i := by
        refine (copyOut_rule (I := fun _ => True) trivial fun f hf m _ => ⟨?_, trivial⟩).1
        obtain ⟨i, hi, rfl⟩ := List.mem_map.mp hf
        exact ⟨i, List.mem_range.mp hi, rfl⟩
      obtain ⟨i, hi, hqi⟩ := hsrc q hq
      rw [hqi, staleSlot_readvSrc hi]
    · show (iovBase c.mem c.a2 _ - iovBase c.mem c.a2 _).toNat < memcpyLen _
      simpa using Nat.pos_of_ne_zero hne
  · intro hkeep u v _
    refine untouched_of_no_recvs rfl ?_
    show ∀ q ∈ copyOut v (readvRecvs c v) c.mem, q.size = 0
    rw [readvRecvs_eq]
    refine (copyOut_rule (I := (· = c.mem)) rfl fun f hf m hm => ?_).1
    obtain ⟨i, hi, rfl⟩ := List.mem_map.mp hf
    have hsize : (readvRecv c v i m).size = 0 := by
      rw [hm]
      exact hkeep i (List.mem_range.mp hi)
    exact ⟨hsize, (recv_apply_of_size_zero hsize v m).trans hm⟩

/-! ## The parts of `recvmsg` -/

theorem setWidth_eq_zero_iff {y : BitVec 32} :
    (y.setWidth 64).setWidth 32 = 0 ↔ y.setWidth 64 = 0#64 := by
  constructor
  · intro h
    have hy : y = 0 := by simpa using h
    simp [hy]
  · intro h
    rw [h]
    rfl

theorem signExtend_eq_zero_iff {y : BitVec 32} :
    (y.signExtend 64).setWidth 32 = 0 ↔ y.signExtend 64 = 0#64 := by
  constructor
  · intro h
    have hy : y = 0 := by simpa using h
    simp [hy]
  · intro h
    rw [h]
    rfl

/-- Empty segments leave enclave memory alone. -/
theorem applyRecvs_segs_of_empty
    (hsegs : ∀ i < intCount (msgIovlen c.mem c.a2),
      memcpyLen (iovLen c.mem (msgIov c.mem c.a2) i) = 0) (v : UMem) :
    applyRecvs v (msgSegRecvs c v c.mem) c.mem = c.mem := by
  unfold msgSegRecvs
  split
  · rfl
  · refine (recvmsgLoop_rule (I := (· = c.mem)) (Q := fun _ => True) rfl ?_ (2 ^ 31) 0).2
    rintro i m rfl hi
    exact ⟨trivial, recv_apply_of_size_zero (hsegs i hi) _ _⟩

section Message

variable (hv : Failed c .recvmsg r u v)

include hv

/-- The header after a failure. -/
theorem failed_header : ∃ f, v (.buf .arg2) = msgHeader c f := by
  rw [hv.rest _ (by decide)]
  exact ⟨_, msg_header c false _⟩

theorem failed_namelen : load32 (v (.buf .arg2)) 8 = 0 ↔ msgNamelen c.mem c.a2 = 0 := by
  obtain ⟨f, hf⟩ := failed_header hv
  rw [hf, msgHeader_namelen]
  exact setWidth_eq_zero_iff

theorem failed_iovlen : load32 (v (.buf .arg2)) 24 = 0 ↔ msgIovlen c.mem c.a2 = 0 := by
  obtain ⟨f, hf⟩ := failed_header hv
  rw [hf, msgHeader_iovlen]
  exact signExtend_eq_zero_iff

theorem failed_controllen : load32 (v (.buf .arg2)) 40 = 0 ↔ msgControllen c.mem c.a2 = 0 := by
  obtain ⟨f, hf⟩ := failed_header hv
  rw [hf, msgHeader_controllen]
  exact setWidth_eq_zero_iff

/-- The flags come back as they were. -/
theorem failed_flags {j : Nat} (hj : j < 4) :
    v (.buf .arg2) (48 + j) = c.mem (c.a2 + 48 + BitVec.ofNat 64 j) := by
  obtain ⟨f, hf⟩ := failed_header hv
  rw [hf, msgHeader_flags hj, msgFlags, le64_load32 hj, Mem.at, BitVec.ofNat_add, BitVec.add_assoc]
  rfl

/-- Empty parts: nothing but the flags is copied. -/
theorem memAfter_recvmsg_of_empty (hkeep : keepsOnFailure c r .recvmsg) :
    memAfter c .recvmsg v = c.mem := by
  obtain ⟨hname, hsegs, hcontrol⟩ := hkeep
  have hn : msgNameRecvs c v c.mem = [] := if_pos ((failed_namelen hv).mpr hname)
  have hs := applyRecvs_segs_of_empty hsegs v
  have hc : msgControlRecvs c v c.mem = [] := if_pos ((failed_controllen hv).mpr hcontrol)
  show applyRecvs v (recvmsgRecvs c v c.mem) c.mem = c.mem
  rw [recvmsgRecvs_eq, hn, applyRecvs_nil, hs, hc, List.nil_append, List.append_nil,
    applyRecvs_append, hs]
  refine recv_apply_echo fun j hj => ?_
  exact failed_flags hv hj

end Message

/-- No part of the message starts in the flags of its own header. -/
def FlagsApart (c : Ctx) : Prop :=
  4 ≤ (msgName c.mem c.a2 - (c.a2 + 48)).toNat ∧ 4 ≤ (msgControl c.mem c.a2 - (c.a2 + 48)).toNat ∧
    ∀ i < intCount (msgIovlen c.mem c.a2),
      4 ≤ (iovBase c.mem (msgIov c.mem c.a2) i - (c.a2 + 48)).toNat

/-- Earlier calls left `x` everywhere, but in the block of the array pointers to a
block full of `x`. -/
def msgStale (c : Ctx) (x : Byte) : UMem := fun q k =>
  if q = .heap (c.alloc (msgNameBlocks c)) ∧ msgIovlen c.mem c.a2 ≠ 0 then
    le64 (c.alloc (msgNameBlocks c + 1)) (k % 8)
  else x

/-- The slot after a failure from there. -/
def msgStaleSlot (c : Ctx) (r : Word) (x : Byte) : UMem :=
  (put .arg0 r).apply (sent c .recvmsg (msgStale c x))

theorem failed_msgStaleSlot (c : Ctx) (r : Word) (x : Byte) :
    Failed c .recvmsg r (msgStale c x) (msgStaleSlot c r x) where
  result := resultOf_put _ _
  rest _ hq := (put_apply ..).trans (if_neg hq)

/-- Of the blocks only that of the array is sent anything. -/
theorem msgSends_block {p : Word} (hp : msgIovlen c.mem c.a2 ≠ 0 → p ≠ c.alloc (msgNameBlocks c)) :
    ∀ s ∈ wrapSends c .recvmsg, s.dst ≠ .heap p := by
  simp only [wrapSends, msgSends, msgSegSends, List.forall_mem_append, List.forall_mem_cons,
    List.forall_mem_flatMap, forall_mem_ite]
  simp
  exact fun hlen _ _ heq => hp hlen heq.symm

/-- The block of the array is written up to its last entry. -/
theorem msgSends_array {i k : Nat} (hi : intCount (msgIovlen c.mem c.a2) ≤ i) (hk : 16 * i ≤ k) :
    ∀ s ∈ wrapSends c .recvmsg, ¬ s.Writes (.heap (c.alloc (msgNameBlocks c))) k := by
  have hseg : ∀ s ∈ wrapSends c .recvmsg, s.dst = .heap (c.alloc (msgNameBlocks c)) →
      ∃ j < intCount (msgIovlen c.mem c.a2), s ∈ msgSegSends c false j := by
    simp only [wrapSends, msgSends, List.forall_mem_append, List.forall_mem_cons,
      List.forall_mem_flatMap, forall_mem_ite]
    simp
    exact fun _ j hj s hs _ => ⟨j, hj, hs⟩
  rintro s hs ⟨hdst, hw⟩
  obtain ⟨j, hj, hs⟩ := hseg s hs hdst
  have hwithin := msgSegSends_within false hj s hs hdst
  omega

theorem msgStaleSlot_block {k : Nat} (hk : k < 2 ^ 32)
    (hne : msgIovlen c.mem c.a2 ≠ 0 → k ≠ msgNameBlocks c) (j : Nat) :
    msgStaleSlot c r x (.heap (c.alloc k)) j = x := by
  have hname := msgNameBlocks_le c
  have hblock : msgIovlen c.mem c.a2 ≠ 0 → c.alloc k ≠ c.alloc (msgNameBlocks c) :=
    fun hlen heq => hne hlen (c.alloc_inj k hk _ (by omega) heq)
  have harg0 : Region.heap (c.alloc k) ≠ .buf .arg0 := heap_ne_buf _ _
  rw [(failed_msgStaleSlot c r x).rest _ harg0, sent, applyAll_of_ne (msgSends_block hblock),
    sendNr_apply, if_neg harg0]
  refine if_neg fun h => ?_
  exact hblock h.2 (Region.heap.inj h.1)

/-- Every segment that the loop can reach comes from a block full of `x`. -/
theorem msgStaleSlot_segSrc (hlen : msgIovlen c.mem c.a2 ≠ 0) (i j : Nat) :
    msgStaleSlot c r x (msgSegSrc c (msgStaleSlot c r x) i) j = x := by
  have hfail := failed_msgStaleSlot c r x
  have hcount := intCount_lt (msgIovlen c.mem c.a2)
  have hname := msgNameBlocks_le c
  have hptr : msgIovPtr c = c.alloc (msgNameBlocks c) := if_neg hlen
  have hiov : c.region (load64 (msgStaleSlot c r x (.buf .arg2)) 16) = .heap (msgIovPtr c) := by
    obtain ⟨f, hf⟩ := failed_header hfail
    rw [hf, msgHeader_iov, region_msgIovPtr]
  have harray : msgStaleSlot c r x (.heap (msgIovPtr c)) =
      sent c .recvmsg (msgStale c x) (.heap (msgIovPtr c)) := hfail.rest _ (heap_ne_buf _ _)
  unfold msgSegSrc
  rw [hiov, harray]
  by_cases hi : i < intCount (msgIovlen c.mem c.a2)
  · have hbase : load64 (sent c .recvmsg (msgStale c x) (.heap (msgIovPtr c))) (16 * i) =
        c.alloc (msgNameBlocks c + 1 + i) := (msg_entry false hi _).1
    rw [hbase, c.region_alloc]
    exact msgStaleSlot_block (by omega) (fun _ => by omega) j
  · have hbase : load64 (sent c .recvmsg (msgStale c x) (.heap (msgIovPtr c))) (16 * i) =
        c.alloc (msgNameBlocks c + 1) := by
      rw [hptr, ← load64_le64 (c.alloc (msgNameBlocks c + 1))]
      refine load64_congr fun k hk => ?_
      rw [sent, applyAll_of_not_writes (msgSends_array (i := i) (by omega) (by omega)),
        sendNr_apply, if_neg (heap_ne_buf _ _)]
      refine (if_pos ⟨rfl, hlen⟩).trans ?_
      congr 1
      omega
    rw [hbase, c.region_alloc]
    exact msgStaleSlot_block (by omega) (fun _ => by omega) j

theorem nameBlock_ne (hname : msgNamelen c.mem c.a2 ≠ 0) : 0 ≠ msgNameBlocks c := by
  rw [msgNameBlocks, if_neg hname]
  decide

theorem controlBlock_ne (hlen : msgIovlen c.mem c.a2 ≠ 0) : msgIovBlocks c ≠ msgNameBlocks c := by
  rw [msgIovBlocks, if_neg hlen]
  omega

/-- Every copy of a part of the message brings `x`. -/
theorem msgStaleSlot_parts (m1 m2 : Mem) :
    ∀ q ∈ msgNameRecvs c (msgStaleSlot c r x) c.mem ++ msgSegRecvs c (msgStaleSlot c r x) m1 ++
        msgControlRecvs c (msgStaleSlot c r x) m2,
      ∀ j, msgStaleSlot c r x q.src j = x := by
  have hfail := failed_msgStaleSlot c r x
  obtain ⟨f, hf⟩ := failed_header hfail
  intro q hq
  rcases List.mem_append.mp hq with hq | hq
  · rcases List.mem_append.mp hq with hq | hq
    · -- the name
      unfold msgNameRecvs at hq
      split at hq
      · exact absurd hq List.not_mem_nil
      · rename_i hlen
        obtain rfl := List.mem_singleton.mp hq
        have hname := mt (failed_namelen hfail).mpr hlen
        have hptr : msgNamePtr c = c.alloc 0 := if_neg hname
        show ∀ j, msgStaleSlot c r x (c.region (load64 (msgStaleSlot c r x (.buf .arg2)) 0)) j = x
        rw [hf, msgHeader_name, hptr, c.region_alloc]
        exact msgStaleSlot_block (by decide) fun _ => nameBlock_ne hname
    · -- a segment
      unfold msgSegRecvs at hq
      split at hq
      · exact absurd hq List.not_mem_nil
      · rename_i hlen
        have hsrc := (recvmsgLoop_rule (m := m1) (I := fun _ => True)
          (Q := fun q => ∃ i, q.src = msgSegSrc c (msgStaleSlot c r x) i) trivial
          (fun i _ _ _ => ⟨⟨i, rfl⟩, trivial⟩) (2 ^ 31) 0).1
        obtain ⟨i, hi⟩ := hsrc q hq
        rw [hi]
        exact msgStaleSlot_segSrc (mt (failed_iovlen hfail).mpr hlen) i
  · -- the control data
    unfold msgControlRecvs at hq
    split at hq
    · exact absurd hq List.not_mem_nil
    · rename_i hlen
      obtain rfl := List.mem_singleton.mp hq
      have hptr : msgControlPtr c = c.alloc (msgIovBlocks c) :=
        if_neg (mt (failed_controllen hfail).mpr hlen)
      show ∀ j, msgStaleSlot c r x (c.region (load64 (msgStaleSlot c r x (.buf .arg2)) 32)) j = x
      rw [hf, msgHeader_control, hptr, c.region_alloc]
      exact msgStaleSlot_block (msgIovBlocks_lt c) controlBlock_ne

/-- **A part that is copied** brings `x` to its object. -/
theorem memAfter_msgStaleSlot {m1 m2 : Mem}
    (h1 : m1 = applyRecvs (msgStaleSlot c r x) (msgNameRecvs c (msgStaleSlot c r x) c.mem) c.mem)
    (h2 : m2 = applyRecvs (msgStaleSlot c r x) (msgSegRecvs c (msgStaleSlot c r x) m1) m1)
    {p : Word} (hp : 4 ≤ (p - (c.a2 + 48)).toNat)
    (hw : ∃ q ∈ msgNameRecvs c (msgStaleSlot c r x) c.mem ++
      msgSegRecvs c (msgStaleSlot c r x) m1 ++ msgControlRecvs c (msgStaleSlot c r x) m2,
      q.Writes p) :
    memAfter c .recvmsg (msgStaleSlot c r x) p = x := by
  have hflags : ¬ (msgFlagsRecv c).Writes p := Nat.not_lt.mpr hp
  show applyRecvs _ (recvmsgRecvs c _ c.mem) c.mem p = x
  rw [recvmsgRecvs_eq, ← h1, ← h2, applyRecvs_append, applyRecvs_cons, applyRecvs_nil,
    recv_apply_of_not_writes hflags]
  exact applyRecvs_of_const (fun q hq j _ => msgStaleSlot_parts m1 m2 q hq _) (.inr hw)

theorem recv_writes_dst {q : Region} {dst len : Word} (h : memcpyLen len ≠ 0) :
    (recv q dst len).Writes dst := by
  show (dst - dst).toNat < memcpyLen len
  simpa using Nat.pos_of_ne_zero h

theorem memcpyLen_ne_zero {w : Word} (hlow : w.toNat < 2 ^ 32) (h : w ≠ 0#64) :
    memcpyLen w ≠ 0 := by
  have hpos : w.toNat ≠ 0 := fun hz => h (BitVec.eq_of_toNat_eq hz)
  rw [memcpyLen_eq]
  split <;> omega

theorem toNat_pos_of_memcpyLen {w : Word} (h : memcpyLen w ≠ 0) : 0 < w.toNat := by
  rw [memcpyLen_eq] at h
  split at h <;> omega

theorem toNat_zeroExtend_lt (y : BitVec 32) : (y.setWidth 64).toNat < 2 ^ 32 := by
  have hlt := y.isLt
  rw [BitVec.toNat_setWidth, Nat.mod_eq_of_lt (by omega)]
  exact hlt

section NotEmpty

variable (h : ∀ u v, Failed c .recvmsg r u v → Untouched c .recvmsg v)

include h

theorem namelen_of_untouched (hname : 4 ≤ (msgName c.mem c.a2 - (c.a2 + 48)).toNat) :
    msgNamelen c.mem c.a2 = 0 := by
  by_contra hne
  have hlen := memcpyLen_ne_zero (toNat_zeroExtend_lt _) hne
  refine not_untouched_of_byte (List.mem_cons_self ..) (Obj.has_ptr (toNat_pos_of_memcpyLen hlen))
    (fun x => ⟨_, _, failed_msgStaleSlot c r x, ?_⟩) h
  have hmem : recv (c.region (load64 (msgStaleSlot c r x (.buf .arg2)) 0)) (msgName c.mem c.a2)
      (msgNamelen c.mem c.a2) ∈ msgNameRecvs c (msgStaleSlot c r x) c.mem := by
    rw [msgNameRecvs, if_neg (mt (failed_namelen (failed_msgStaleSlot c r x)).mp hne)]
    exact List.mem_singleton_self _
  exact memAfter_msgStaleSlot rfl rfl hname
    ⟨_, List.mem_append_left _ (List.mem_append_left _ hmem), recv_writes_dst hlen⟩

theorem segs_of_untouched (hname : msgNamelen c.mem c.a2 = 0)
    (hseg : ∀ i < intCount (msgIovlen c.mem c.a2),
      4 ≤ (iovBase c.mem (msgIov c.mem c.a2) i - (c.a2 + 48)).toNat) :
    ∀ i < intCount (msgIovlen c.mem c.a2),
      memcpyLen (iovLen c.mem (msgIov c.mem c.a2) i) = 0 := by
  intro i hi
  by_contra hlen
  -- the first segment that is not empty
  have hex : ∃ i, i < intCount (msgIovlen c.mem c.a2) ∧
      memcpyLen (iovLen c.mem (msgIov c.mem c.a2) i) ≠ 0 := ⟨i, hi, hlen⟩
  obtain ⟨hk, hne⟩ := Nat.find_spec hex
  have hempty : ∀ j < Nat.find hex, memcpyLen (iovLen c.mem (msgIov c.mem c.a2) j) = 0 := by
    intro j hj
    by_contra hjne
    exact Nat.find_min hex hj ⟨by omega, hjne⟩
  have hcount := intCount_lt (msgIovlen c.mem c.a2)
  have hiovlen : msgIovlen c.mem c.a2 ≠ 0 := by
    intro hz
    have hzero : intCount 0 = 0 := by decide
    rw [hz, hzero] at hi
    omega
  have ho : (⟨iovBase c.mem (msgIov c.mem c.a2) (Nat.find hex),
      (iovLen c.mem (msgIov c.mem c.a2) (Nat.find hex)).toNat⟩ : Obj) ∈ outObjects c .recvmsg :=
    List.mem_cons_of_mem _ (List.mem_cons_of_mem _ (List.mem_cons_of_mem _
      (List.mem_map.mpr ⟨_, List.mem_range.mpr hk, rfl⟩)))
  refine not_untouched_of_byte ho (Obj.has_ptr (toNat_pos_of_memcpyLen hne))
    (fun x => ⟨_, _, failed_msgStaleSlot c r x, ?_⟩) h
  have hfail := failed_msgStaleSlot c r x
  have hm1 : c.mem = applyRecvs (msgStaleSlot c r x)
      (msgNameRecvs c (msgStaleSlot c r x) c.mem) c.mem := by
    rw [msgNameRecvs, if_pos ((failed_namelen hfail).mpr hname), applyRecvs_nil]
  have hmem : msgSegRecv c (msgStaleSlot c r x) (Nat.find hex) c.mem ∈
      msgSegRecvs c (msgStaleSlot c r x) c.mem := by
    rw [msgSegRecvs, if_neg (mt (failed_iovlen hfail).mp hiovlen)]
    exact mem_recvmsgLoop (Nat.zero_le _) hk (by omega) fun j _ hj =>
      recv_apply_of_size_zero (hempty j hj) _ _
  exact memAfter_msgStaleSlot hm1 rfl (hseg _ hk)
    ⟨_, List.mem_append_left _ (List.mem_append_right _ hmem), recv_writes_dst hne⟩

theorem controllen_of_untouched (hname : msgNamelen c.mem c.a2 = 0)
    (hsegs : ∀ i < intCount (msgIovlen c.mem c.a2),
      memcpyLen (iovLen c.mem (msgIov c.mem c.a2) i) = 0)
    (hcontrol : 4 ≤ (msgControl c.mem c.a2 - (c.a2 + 48)).toNat) :
    msgControllen c.mem c.a2 = 0 := by
  by_contra hne
  have hlen := memcpyLen_ne_zero (toNat_zeroExtend_lt _) hne
  refine not_untouched_of_byte (List.mem_cons_of_mem _ (List.mem_cons_self ..))
    (Obj.has_ptr (toNat_pos_of_memcpyLen hlen)) (fun x => ⟨_, _, failed_msgStaleSlot c r x, ?_⟩) h
  have hfail := failed_msgStaleSlot c r x
  have hm1 : c.mem = applyRecvs (msgStaleSlot c r x)
      (msgNameRecvs c (msgStaleSlot c r x) c.mem) c.mem := by
    rw [msgNameRecvs, if_pos ((failed_namelen hfail).mpr hname), applyRecvs_nil]
  have hm2 := (applyRecvs_segs_of_empty hsegs (msgStaleSlot c r x)).symm
  have hmem : recv (c.region (load64 (msgStaleSlot c r x (.buf .arg2)) 32)) (msgControl c.mem c.a2)
      (msgControllen c.mem c.a2) ∈ msgControlRecvs c (msgStaleSlot c r x) c.mem := by
    rw [msgControlRecvs, if_neg (mt (failed_controllen hfail).mp hne)]
    exact List.mem_singleton_self _
  exact memAfter_msgStaleSlot hm1 hm2 hcontrol
    ⟨_, List.mem_append_right _ hmem, recv_writes_dst hlen⟩

/-- **A message that is not empty** brings stale bytes: the first part that is
copied, its operands being the caller's. -/
theorem keeps_of_untouched_recvmsg (hapart : FlagsApart c) : keepsOnFailure c r .recvmsg := by
  obtain ⟨hname, hcontrol, hseg⟩ := hapart
  have hnamelen := namelen_of_untouched h hname
  have hsegs := segs_of_untouched h hnamelen hseg
  exact ⟨hnamelen, hsegs, controllen_of_untouched h hnamelen hsegs hcontrol⟩

end NotEmpty

/-! ## All calls -/

/-- The calls with output-only objects. -/
def failureCalls : List Sysno := .accept4 :: .readv :: .recvmsg :: fixedOutputs

/-- **The objects of a failed call.** They are left alone, for every content of
the slot, when nothing is copied back or, for `stat`, when the object was clear;
and only then, but for a message that overlays the flags of its own header. -/
theorem untouched_iff (hn : n ∈ failureCalls) (hr : IsError r) (c : Ctx) :
    (keepsOnFailure c r n → ∀ u v, Failed c n r u v → Untouched c n v) ∧
    ((n = .recvmsg → FlagsApart c) → (∀ u v, Failed c n r u v → Untouched c n v) →
      keepsOnFailure c r n) := by
  have hiff : ((∀ u v, Failed c n r u v → Untouched c n v) ↔ keepsOnFailure c r n) →
      (keepsOnFailure c r n → ∀ u v, Failed c n r u v → Untouched c n v) ∧
      ((n = .recvmsg → FlagsApart c) → (∀ u v, Failed c n r u v → Untouched c n v) →
        keepsOnFailure c r n) := fun h => ⟨h.mpr, fun _ => h.mp⟩
  rcases List.mem_cons.mp hn with rfl | hn
  · exact hiff untouched_iff_accept4
  rcases List.mem_cons.mp hn with rfl | hn
  · exact hiff untouched_iff_readv
  rcases List.mem_cons.mp hn with rfl | hn
  · refine ⟨fun hkeep u v hv o _ p _ => ?_, fun hapart h => ?_⟩
    · rw [memAfter_recvmsg_of_empty hv hkeep]
    · exact keeps_of_untouched_recvmsg h (hapart rfl)
  · exact hiff (untouched_iff_fixed hn hr)

/-- `clock_getres(99, NULL)` fails with `EINVAL` in a slot full of ones. -/
theorem untouched_iff_getres :
    Untouched (Ctx.plain 99 0 0 0 0 0 fun _ => 0) .clock_getres
      (staleSlot (Ctx.plain 99 0 0 0 0 0 fun _ => 0) .clock_getres (-22) 1) := by
  have hfail := failed_staleSlot (Ctx.plain 99 0 0 0 0 0 fun _ => 0) .clock_getres (-22) 1
  have hkeep : keepsOnFailure (Ctx.plain 99 0 0 0 0 0 fun _ => 0) (-22) .clock_getres := rfl
  exact (untouched_iff (by decide) (by decide) _).1 hkeep _ _ hfail

/-- `fstat(100, 4096)` fails with `EBADF` in a slot full of ones: the first byte of
the object becomes one. -/
theorem fstat_not_untouched :
    ∃ v, Failed (Ctx.plain 100 4096 0 0 0 0 fun _ => 0) .fstat (-9) (fun _ _ => 1) v ∧
      ¬ Untouched (Ctx.plain 100 4096 0 0 0 0 fun _ => 0) .fstat v := by
  refine ⟨_, failed_staleSlot _ .fstat (-9) 1, fun h => ?_⟩
  have hsame := h ⟨4096, 144⟩ (List.mem_singleton_self _) 4096 (by unfold Obj.Has; decide)
  revert hsame
  decide

end Porpoise.Shim
