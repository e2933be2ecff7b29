import Porpoise.Shim.Faithful

/-!
# One kernel call for each wrapped call

What the host's kernel calls are, for a number between 0 and 350: one, with the
caller's number and arguments, and what the kernel reads behind them, or none.

* `heeds_readv`, `heeds_writev`, `heeds_message`: arrays and messages.
* `faithful_iff`: a call with a case makes the caller's kernel call, whatever the slot
  held, when its stores stay in their buffers and `faithfulWhen` holds.
* `one_call_iff`: every number. The numbers without a case return `-1`, and ten
  cases never make the caller's call, or make another one besides.
-/

namespace Porpoise.Shim

open Porpoise.Lib

variable {c : Ctx} {K : Kernel} {n : Sysno} {u : UMem} {b : Buf}

/-! ## Arrays -/

theorem segViews_heed_iff {f g : Word → Bytes} {data : Bool} {p q : Word} {k : Nat} :
    (segViews f data p k).map SegView.heed = (segViews g data q k).map SegView.heed ↔
      (k ≤ 1024 → ∀ i < k, (segView f data p i).heed = (segView g data q i).heed) := by
  unfold segViews
  by_cases hk : k ≤ 1024
  · rw [if_pos hk, if_pos hk, List.map_map, List.map_map, List.map_inj_left, imp_iff_right hk]
    simp only [List.mem_range, Function.comp_apply]
  · rw [if_neg hk, if_neg hk]
    exact iff_of_true rfl fun h => absurd h hk

theorem null_eq_iff {p q : Word} : (p == 0) = (q == 0) ↔ (p = 0 ↔ q = 0) := by
  rw [Bool.eq_iff_iff, beq_iff_eq, beq_iff_eq]

theorem null_and_iff {p q : Word} {b : Bool} :
    (p == 0 && b) = (q == 0 && b) ↔ b = false ∨ (p = 0 ↔ q = 0) := by
  cases b
  · simp
  · rw [Bool.and_true, Bool.and_true, null_eq_iff]
    simp

theorem toNat_eq_zero {w : Word} : w.toNat = 0 ↔ w = 0 := by
  rw [← BitVec.toNat_inj]
  rfl

/-- A segment is the caller's. -/
theorem seg_heed_iff {p q len len' : Word} {l l' : List Byte} :
    (SegView.mk (p == 0) len' l').heed = (SegView.mk (q == 0) len l).heed ↔
      len' = len ∧ SameNull p q len.toNat ∧ l' = l := by
  simp only [SegView.heed, SegView.mk.injEq, SameNull, toNat_eq_zero]
  constructor
  · rintro ⟨hnull, rfl, hdata⟩
    rw [null_and_iff, decide_eq_false_iff_not, not_not] at hnull
    exact ⟨rfl, hnull, hdata⟩
  · rintro ⟨rfl, hnull, hdata⟩
    rw [null_and_iff, decide_eq_false_iff_not, not_not]
    exact ⟨hnull, rfl, hdata⟩

/-- `readv` and `writev` are the caller's when the segments are. -/
theorem heeds_vector {ss : List Store} {data : Bool}
    (hcase : unwrapCase n = [⟨.syscall n, [.long .arg1, .ptr .arg2, .long .arg3]⟩])
    (huses : ∀ x, sysUses x n = [.arg .int, .arg (.iov data 2), .arg .int])
    (hparams : sysParams n = [.int, .iov data 2, .int])
    (hsends : wrapSends c n = sendInt .arg1 c.a1 :: ss ++ [sendInt .arg3 c.a3])
    (hss : ∀ s ∈ ss, s.dst ≠ .buf .arg1) :
    HeedsCaller c K n ↔ (0 < intCount c.a3 ∧ intCount c.a3 ≤ 1024 → c.a2 ≠ 0 ∧
      ∀ i < intCount c.a3, ∀ u,
        (segView (fun p => sent c n u (c.region p)) data (c.addr .arg2) i).heed =
          (segView c.mem.at data c.a2 i).heed) := by
  have hfirst := fun u => (vector_ints hsends hss u).1
  have hlast := fun u => (vector_ints hsends hss u).2
  unfold HeedsCaller
  rw [hcase]
  simp only [List.map_cons, List.map_nil, Ctx.heeded, List.cons.injEq, and_true, HostCall.heeded,
    heeds, uses, huses, params, hparams, Heeded.mk.injEq, List.zipWith, Use.heed_int, Use.heed_iov,
    Operand.eval, Operand.isInt, Ctx.args, kargs_mem, KArgs.int, kargs_val, List.getD,
    List.getElem?_cons_zero, List.getElem?_cons_succ, Option.getD, Param.trunc, trunc_int,
    setWidth_load64, hfirst, hlast, true_and, BitVec.ofNat_eq_ofNat, Ctx.addr_ne_zero, if_false]
  rw [← intCount]
  by_cases hvalid : 0 < intCount c.a3 ∧ intCount c.a3 ≤ 1024
  · simp only [hvalid, and_self, if_true, true_imp_iff, List.cons.injEq, and_true]
    by_cases h2 : c.a2 = 0#64
    · simp [h2]
    · simp only [h2, if_false, ArgView.segs.injEq, segViews_heed_iff, ne_eq, not_false_eq_true,
        true_and]
      exact ⟨fun h i hi u => h u hvalid.2 i hi, fun h u _ i hi => h i hi u⟩
  · simp [hvalid]

/-- **`readv`.** -/
theorem heeds_readv : HeedsCaller c K .readv ↔ faithfulWhen c K .readv := by
  rw [heeds_vector rfl (fun _ => rfl) rfl rfl (readvSends_ne (by decide))]
  refine imp_congr_right fun _ => and_congr_right fun _ => forall₂_congr fun i hi => ?_
  have hcaller : segView c.mem.at false c.a2 i =
      ⟨iovBase c.mem c.a2 i == 0, iovLen c.mem c.a2 i, []⟩ := rfl
  simp only [readv_sent_segView hi, hcaller, forall_const, seg_heed_iff, and_true]

/-- A segment of which a copy of `k` bytes is sent. -/
theorem forall_seg_heed_iff {m k : Nat} {p q len : Word} {r : Region} {v : Bytes} :
    (∀ u : UMem, (SegView.mk (p == 0) len (take m (overlay 0 k v (u r)))).heed =
        (SegView.mk (q == 0) len (take m v)).heed) ↔ SameNull p q len.toNat ∧ m ≤ k := by
  simp only [seg_heed_iff, true_and, forall_and, forall_const, forall_take_iff]

/-- **`writev`.** Nothing stores the length of the sixth segment. -/
theorem heeds_writev : HeedsCaller c K .writev ↔ faithfulWhen c K .writev := by
  rw [heeds_vector rfl (fun _ => rfl) rfl rfl (writevSends_ne (by decide) (by decide))]
  refine imp_congr_right fun _ => and_congr_right fun _ => ?_
  by_cases h5 : intCount c.a3 ≤ 5
  · -- every segment has a buffer
    rw [and_iff_right h5]
    refine forall₂_congr fun i hi => ?_
    have hptr : segPtr c i = c.addr (segBuf i) := if_pos (by omega)
    have hcaller : segView c.mem.at true c.a2 i =
        ⟨iovBase c.mem c.a2 i == 0, iovLen c.mem c.a2 i,
          take (iovLen c.mem c.a2 i).toNat (c.mem.at (iovBase c.mem c.a2 i))⟩ := rfl
    simp only [writev_sent_segView hi (by omega), hptr, hcaller]
    rw [forall_seg_heed_iff, BytesSent, SameNull]
    have hne := c.addr_ne (segBuf i)
    have hnone : (iovLen c.mem c.a2 i).toNat = 0 →
        (iovLen c.mem c.a2 i).toNat ≤ memcpyLen (iovLen c.mem c.a2 i) := by omega
    tauto
  · -- the length of the sixth is what the slot held
    refine iff_of_false (fun h => ?_) fun h => h5 h.1
    have hlen : ∀ v : Byte, load64 (poke .arg2 88 v (.buf .arg2)) 88 =
        iovLen c.mem c.a2 5 := by
      intro v
      have hview := congrArg SegView.len (h 5 (by omega) (poke .arg2 88 v))
      simp only [SegView.heed, segView, vector_array (n := .writev) rfl] at hview
      rw [writev_len_unsent, sendNr_apply, if_neg (by decide)] at hview
      exact hview
    have hlow := congrArg (·.setWidth 32) ((hlen 0).trans (hlen 1).symm)
    simp [load32, poke] at hlow

/-! ## Messages -/

theorem toNat_zeroExtend (x : BitVec 32) : (x.setWidth 64).toNat = x.toNat := by
  have hlt := x.isLt
  rw [BitVec.toNat_setWidth, Nat.mod_eq_of_lt (by omega)]

theorem le_memcpyLen (x : BitVec 32) : x.toNat ≤ memcpyLen (x.setWidth 64) := by
  have hlt := x.isLt
  rw [memcpyLen_eq, toNat_zeroExtend]
  split <;> omega

/-- Eight bytes whose upper half is zero. -/
theorem load64_eq_iff {f : Bytes} {o : Nat} :
    (load32 f o).setWidth 64 = load64 f o ↔ load32 f (o + 4) = 0 := by
  have hwhole := toNat_load64 f o
  rw [← BitVec.toNat_inj, ← BitVec.toNat_inj, toNat_zeroExtend, hwhole]
  show _ ↔ _ = 0
  omega

theorem load64_msgHeader_iovlen (f : Bytes) :
    load64 (msgHeader c f) 24 = (load32 (c.mem.at c.a2) 24).setWidth 64 := by
  have hlow : (msgIovlen c.mem c.a2).setWidth 32 = load32 (c.mem.at c.a2) 24 :=
    setWidth_signExtend _
  rw [← hlow, ← msgHeader_iovlen (f := f), eq_comm, load64_eq_iff]
  exact (msgHeader_padding f).1

theorem load64_msgHeader_controllen (f : Bytes) :
    load64 (msgHeader c f) 40 = (load32 (c.mem.at c.a2) 40).setWidth 64 := by
  have hlow : (msgControllen c.mem c.a2).setWidth 32 = load32 (c.mem.at c.a2) 40 := trunc_int _
  rw [← hlow, ← msgHeader_controllen (f := f), eq_comm, load64_eq_iff]
  exact (msgHeader_padding f).2

theorem load32_msgHeader_namelen (f : Bytes) :
    load32 (msgHeader c f) 8 = load32 (c.mem.at c.a2) 8 :=
  msgHeader_namelen.trans (trunc_int _)

theorem load32_msgHeader_flags (f : Bytes) :
    load32 (msgHeader c f) 48 = load32 (c.mem.at c.a2) 48 := by
  rw [load32_congr (p := 0) fun j hj => (msgHeader_flags hj).trans (by rw [Nat.zero_add])]
  rw [load32_le64]
  exact trunc_int _

/-- A segment as the kernel reads it in the message that the enclave built. -/
theorem msg_segView (data : Bool) {i : Nat} (hi : i < intCount (msgIovlen c.mem c.a2)) (u : UMem) :
    segView (fun p => applyAll (msgSends c data) u (c.region p)) data (msgIovPtr c) i =
      ⟨c.alloc (msgNameBlocks c + 1 + i) == 0, iovLen c.mem (msgIov c.mem c.a2) i,
        if data then take (iovLen c.mem (msgIov c.mem c.a2) i).toNat
          (overlay 0 (memcpyLen (iovLen c.mem (msgIov c.mem c.a2) i))
            (c.mem.at (iovBase c.mem (msgIov c.mem c.a2) i))
            (u (.heap (c.alloc (msgNameBlocks c + 1 + i))))) else []⟩ := by
  obtain ⟨hbase, hlen⟩ := msg_entry data hi u
  simp only [segView, region_msgIovPtr, hbase, hlen, Ctx.region_alloc]
  cases data
  case false => rfl
  case true => rw [msg_segData hi]

/-- The name as the kernel reads it. -/
theorem take_msg_name (u : UMem) :
    take (load32 (c.mem.at c.a2) 8).toNat (applyAll (msgSends c true) u (.heap (msgNamePtr c))) =
      take (load32 (c.mem.at c.a2) 8).toNat (c.mem.at (msgName c.mem c.a2)) := by
  by_cases hlen : msgNamelen c.mem c.a2 = 0
  · have hzero : load32 (c.mem.at c.a2) 8 = 0 := by
      rw [← trunc_int (load32 _ _)]
      exact congrArg (·.setWidth 32) hlen
    simp [hzero]
  · rw [msgNamePtr, if_neg hlen, msg_name hlen]
    exact take_overlay (le_memcpyLen _) _ _

/-- The control data as the kernel reads them. -/
theorem take_msg_control (u : UMem) :
    take (load32 (c.mem.at c.a2) 40).toNat
        (applyAll (msgSends c true) u (.heap (msgControlPtr c))) =
      take (load32 (c.mem.at c.a2) 40).toNat (c.mem.at (msgControl c.mem c.a2)) := by
  by_cases hlen : msgControllen c.mem c.a2 = 0
  · have hzero : load32 (c.mem.at c.a2) 40 = 0 := by
      rw [← trunc_int (load32 _ _)]
      exact congrArg (·.setWidth 32) hlen
    simp [hzero]
  · rw [msgControlPtr, if_neg hlen, msg_control hlen]
    exact take_overlay (le_memcpyLen _) _ _

/-- When the segments are the caller's. -/
theorem forall_msg_segs_iff {data : Bool} :
    (∀ u, (segViews (fun p => applyAll (msgSends c data) ((sendNr n).apply u) (c.region p)) data
        (msgIovPtr c) ((msgIovlen c.mem c.a2).setWidth 32).toNat).map SegView.heed =
      (segViews c.mem.at data (msgIov c.mem c.a2)
        ((msgIovlen c.mem c.a2).setWidth 32).toNat).map SegView.heed) ↔
      (((msgIovlen c.mem c.a2).setWidth 32).toNat ≤ 1024 →
        ∀ i < intCount (msgIovlen c.mem c.a2),
          SameNull (c.alloc (msgNameBlocks c + 1 + i)) (iovBase c.mem (msgIov c.mem c.a2) i)
            (iovLen c.mem (msgIov c.mem c.a2) i).toNat ∧
          (data = true → (iovLen c.mem (msgIov c.mem c.a2) i).toNat ≤
            memcpyLen (iovLen c.mem (msgIov c.mem c.a2) i))) := by
  simp only [segViews_heed_iff]
  rw [forall_comm]
  refine imp_congr_right fun hle => ?_
  rw [← intCount_of_le hle (by decide), forall_comm]
  refine forall_congr' fun i => ?_
  rw [forall_comm]
  refine imp_congr_right fun hi => ?_
  have hcaller : segView c.mem.at data (msgIov c.mem c.a2) i =
      ⟨iovBase c.mem (msgIov c.mem c.a2) i == 0, iovLen c.mem (msgIov c.mem c.a2) i,
        if data then take (iovLen c.mem (msgIov c.mem c.a2) i).toNat
          (c.mem.at (iovBase c.mem (msgIov c.mem c.a2) i)) else []⟩ := rfl
  simp only [msg_segView data hi, hcaller, sendNr_apply, reduceCtorEq, if_false]
  cases data
  case false =>
    simp only [Bool.false_eq_true, if_false, seg_heed_iff, true_and, and_true, forall_const,
      false_imp_iff]
  case true => simp only [if_true, forall_seg_heed_iff, true_imp_iff]

/-- The message as the kernel reads it. -/
theorem msg_view (data : Bool) (u : UMem) :
    msgView (fun p => applyAll (msgSends c data) u (c.region p)) data (c.addr .arg2) =
      { nameNull := msgNamePtr c == 0
        namelen := load32 (c.mem.at c.a2) 8
        name := if data then
          take (load32 (c.mem.at c.a2) 8).toNat (c.mem.at (msgName c.mem c.a2)) else []
        iovlen := (load32 (c.mem.at c.a2) 24).setWidth 64
        segs := segViews (fun p => applyAll (msgSends c data) u (c.region p)) data (msgIovPtr c)
          (load32 (c.mem.at c.a2) 24).toNat
        controlNull := msgControlPtr c == 0
        controllen := (load32 (c.mem.at c.a2) 40).setWidth 64
        control := if data then
          take (load32 (c.mem.at c.a2) 40).toNat (c.mem.at (msgControl c.mem c.a2)) else []
        flags := load32 (c.mem.at c.a2) 48 } := by
  simp only [msgView, Ctx.region_addr, msg_header, msgHeader_name, msgHeader_control,
    msgHeader_iov, load32_msgHeader_namelen, load64_msgHeader_iovlen, load64_msgHeader_controllen,
    load32_msgHeader_flags, region_msgNamePtr, region_msgControlPtr, toNat_zeroExtend]
  cases data
  case false => rfl
  case true => simp only [if_true, take_msg_name, take_msg_control]

/-- **A message** is the caller's. -/
theorem forall_msg_heed_iff {data : Bool} (h2 : c.a2 ≠ 0) :
    (∀ u, (msgView (fun p => applyAll (msgSends c data) ((sendNr n).apply u) (c.region p)) data
        (c.addr .arg2)).heed data = (msgView c.mem.at data c.a2).heed data) ↔ MsgSent c data := by
  have hcount : (msgIovlen c.mem c.a2).setWidth 32 = load32 (c.mem.at c.a2) 24 :=
    setWidth_signExtend _
  have hcaller : msgView c.mem.at data c.a2 =
      { nameNull := msgName c.mem c.a2 == 0
        namelen := load32 (c.mem.at c.a2) 8
        name := if data then
          take (load32 (c.mem.at c.a2) 8).toNat (c.mem.at (msgName c.mem c.a2)) else []
        iovlen := load64 (c.mem.at c.a2) 24
        segs := segViews c.mem.at data (msgIov c.mem c.a2) (load64 (c.mem.at c.a2) 24).toNat
        controlNull := msgControl c.mem c.a2 == 0
        controllen := load64 (c.mem.at c.a2) 40
        control := if data then
          take (load64 (c.mem.at c.a2) 40).toNat (c.mem.at (msgControl c.mem c.a2)) else []
        flags := load32 (c.mem.at c.a2) 48 } := rfl
  have hunnamed : (!(data && load32 (c.mem.at c.a2) 8 == 0)) = false ↔
      data = true ∧ load32 (c.mem.at c.a2) 8 = 0 := by
    rw [Bool.not_eq_false', Bool.and_eq_true, beq_iff_eq]
  have hempty : decide ((load32 (c.mem.at c.a2) 40).setWidth 64 ≠ 0) = false ↔
      (load32 (c.mem.at c.a2) 40).toNat = 0 := by
    rw [decide_eq_false_iff_not, not_not, ← toNat_eq_zero, toNat_zeroExtend]
  simp only [msg_view, hcaller, MsgView.heed, MsgView.mk.injEq, null_and_iff, hunnamed,
    load64_eq_iff, true_and, and_true, forall_and, forall_const]
  constructor
  · rintro ⟨hname, hpad, hsegs, hcontrol, hpad', -⟩
    rw [← load64_eq_iff.mpr hpad, toNat_zeroExtend, ← hcount] at hsegs
    rw [← load64_eq_iff.mpr hpad', null_and_iff, hempty] at hcontrol
    exact ⟨h2, hname, hcontrol, ⟨hpad, hpad'⟩, forall_msg_segs_iff.mp hsegs⟩
  · rintro ⟨-, hname, hcontrol, ⟨hpad, hpad'⟩, hsegs⟩
    rw [← load64_eq_iff.mpr hpad, ← load64_eq_iff.mpr hpad', toNat_zeroExtend, toNat_zeroExtend,
      null_and_iff, hempty, ← hcount]
    exact ⟨hname, hpad, forall_msg_segs_iff.mpr hsegs, hcontrol, hpad', rfl⟩

/-- **`sendmsg` and `recvmsg`.** -/
theorem heeds_message {data : Bool}
    (hcase : unwrapCase n = [⟨.syscall n, [.long .arg1, .ptr .arg2, .long .arg3]⟩])
    (huses : ∀ x, sysUses x n = [.arg .int, .arg (.msg data), .arg .int])
    (hsends : wrapSends c n = msgSends c data) :
    HeedsCaller c K n ↔ MsgSent c data := by
  have hfirst : ∀ u, load32 (sent c n u (.buf .arg1)) 0 = c.a1.setWidth 32 := by
    intro u
    rw [sent, hsends, msg_first, load32_overlay_zero (by decide), load32_le64]
  have hlast : ∀ u, load32 (sent c n u (.buf .arg3)) 0 = c.a3.setWidth 32 := by
    intro u
    rw [sent, hsends]
    exact msg_last c data _
  unfold HeedsCaller
  rw [hcase]
  simp only [List.map_cons, List.map_nil, Ctx.heeded, List.cons.injEq, and_true, HostCall.heeded,
    heeds, uses, huses, Heeded.mk.injEq, List.zipWith, Use.heed_int, Use.heed_msg, Operand.eval,
    Operand.isInt, Ctx.args, kargs_mem, setWidth_load64, hfirst, hlast, true_and,
    BitVec.ofNat_eq_ofNat, Ctx.addr_ne_zero, if_false]
  by_cases h2 : c.a2 = 0#64
  · refine iff_of_false (fun h => ?_) fun h => h.header h2
    simp [h2] at h
  · simp only [h2, if_false, ArgView.msg.injEq, sent, hsends]
    exact forall_msg_heed_iff h2

/-! ## Calls that are never the caller's -/

/-- An `int` of the slot is not the same whatever the slot holds. -/
theorem not_forall_load32 {w : BitVec 32} : ¬ ∀ u : UMem, load32 (u (.buf .arg1)) 0 = w := by
  intro h
  have hsame := (h (poke .arg1 0 0)).trans (h (poke .arg1 0 1)).symm
  simp [load32, poke] at hsame

theorem not_forall_flag {i : Nat} {p : Prop} : ¬ ∀ u : UMem, u (.buf .arg7) i ≠ 0 ↔ p := by
  intro h
  have hsame := (h (poke .arg7 i 0)).trans (h (poke .arg7 i 1)).symm
  simp [poke_self] at hsame

/-- Nothing stores `nfds`. -/
theorem not_heeds_select : ¬ HeedsCaller c K .select := by
  intro h
  refine not_forall_load32 (w := c.a1.setWidth 32) fun u => ?_
  have hfirst : sent c .select u (.buf .arg1) = u (.buf .arg1) :=
    sent_of_ne (by decide) select_first_unsent u
  have hargs := congrArg Heeded.args (List.singleton_inj.mp (h u))
  simp only [Ctx.heeded, HostCall.heeded, heeds, uses, sysUses, sysParams, List.map_cons,
    List.zipWith, Use.heed_int, Operand.eval, Ctx.args, trunc_int, hfirst, List.cons.injEq,
    ArgView.scalar.injEq, setWidth_inj] at hargs
  exact hargs.1.1

theorem null_of_view {p q : Word} {l l' : List Byte}
    (h : (if p = 0#64 then ArgView.null else .bytes l) = if q = 0#64 then .null else .bytes l') :
    p = 0#64 ↔ q = 0#64 := by
  by_cases hp : p = 0#64 <;> by_cases hq : q = 0#64 <;> simp_all

/-- Nothing stores the flag of an address. -/
theorem not_heeds_of_flag {h : HostCall} {read write : KArgs → Nat} (hn : n ∈ flagCalls)
    (hcase : unwrapCase n = [h]) (hfn : h.fn = .syscall n)
    (harg : h.args[4]? = some (.ptrUnless 5 .arg5))
    (huse : ∀ x, (sysUses x n)[4]? = some (.pointer (.obj read write))) : ¬ HeedsCaller c K n := by
  intro hheeds
  refine not_forall_flag (i := 5) (p := c.a5 = 0#64) fun u => ?_
  have hview := hheeds u
  rw [hcase] at hview
  have hargs := congrArg (fun x => x.args[4]?) (List.singleton_inj.mp hview)
  simp only [Ctx.heeded, HostCall.heeded, heeds, uses, hfn, List.getElem?_zipWith, huse,
    List.getElem?_map, harg, Ctx.args, Option.map, List.getElem?_cons_succ,
    List.getElem?_cons_zero, Use.heed_pointer, Param.heed_obj, argView, Operand.isInt,
    Operand.eval, sent_flag hn (show (5 : Nat) ≠ 0 by decide), Option.some.injEq,
    List.cons.injEq, and_true] at hargs
  rw [← null_of_view hargs]
  by_cases hflag : u (.buf .arg7) 5 = 0#8 <;> simp [hflag]

/-- The host makes another call, or one too many. -/
theorem not_heeds_of_calls (hcalls : (unwrapCase n).map HostCall.fn ≠ [.syscall n]) :
    ¬ HeedsCaller c K n := by
  intro h
  have hfns := congrArg (List.map Heeded.fn) (h fun _ _ => 0)
  simp only [List.map_map] at hfns
  exact hcalls hfns

/-! ## All numbers -/

theorem heeds_iff (hphases : wrapPhases c n = [wrapSends c n]) :
    HeedsCaller c K n ↔ faithfulWhen c K n := by
  by_cases hdirect : n ∈ directCalls
  · cases hobj : hasObject n with
    | false => exact heeds_scalars hdirect hobj
    | true => exact heeds_objects hdirect hobj
  by_cases hoptional : n ∈ optionalCalls
  · by_cases hfutex : n = .futex
    · exact hfutex ▸ heeds_futex
    by_cases hioctl : n = .ioctl
    · exact hioctl ▸ heeds_ioctl
    exact heeds_optional hoptional hfutex hioctl
  cases n
  case readv => exact heeds_readv
  case writev => exact heeds_writev
  case sendmsg => exact heeds_message rfl (fun _ => rfl) rfl
  case recvmsg => exact heeds_message rfl (fun _ => rfl) rfl
  case select => exact iff_of_false not_heeds_select id
  case sendto =>
    exact iff_of_false (not_heeds_of_flag (by decide) rfl rfl rfl fun _ => rfl) id
  case recvfrom =>
    exact iff_of_false (not_heeds_of_flag (by decide) rfl rfl rfl fun _ => rfl) id
  case pselect6 => exact iff_of_false (not_heeds_of_calls (by decide)) id
  case alarm | rt_sigreturn | getitimer => simp [wrapPhases] at hphases
  all_goals first | exact absurd (by decide) hdirect | exact absurd (by decide) hoptional

/-- `alarm` makes two ocalls, `rt_sigreturn` none. -/
theorem not_faithful_of_ocalls (h : (wrapPhases c n).length ≠ 1) : ¬ Faithful c K n := by
  intro hfaithful
  have hcalls := hfaithful 0 (fun _ _ => 0) _ fun _ => rfl
  have hlength := congrArg List.length hcalls
  rw [hostCalls, length_ocallsFrom] at hlength
  exact h hlength

/-- When the kernel gets one call, the caller's. -/
theorem faithful_iff (c : Ctx) (K : Kernel) (n : Sysno) (hn : n ≠ .getitimer) :
    Faithful c K n ↔ StoresFit c n ∧ faithfulWhen c K n := by
  by_cases hocalls : n = .alarm ∨ n = .rt_sigreturn
  · rcases hocalls with rfl | rfl
    · exact iff_of_false (not_faithful_of_ocalls (show 2 ≠ 1 by decide)) And.right
    · exact iff_of_false (not_faithful_of_ocalls (show 0 ≠ 1 by decide)) And.right
  have hphases : wrapPhases c n = [wrapSends c n] := by
    cases n <;> first | rfl | exact absurd rfl hn | exact absurd (by decide) hocalls
  rw [faithful_iff_of_phases hphases, sends_stay_iff]
  exact and_congr_right fun _ => heeds_iff hphases

/-- The case of `__syscall_wrap` for a number. -/
def wrapCase? (nr : Nat) : Option Sysno := (Sysno.ofNr? nr).filter (· ≠ .getitimer)

/-- The default case: `*(long*)arg0 = -1`. -/
def wrapDefault (nr : Nat) (u : UMem) : UMem :=
  (put .arg0 (-1)).apply ((sendLong .arg0 (BitVec.ofNat 64 nr)).apply u)

/-- `-ENOSYS`. -/
def negENOSYS : Word := -38

/-- A number with a case makes one kernel call, the caller's; one without makes
no ocall and returns `-ENOSYS`. -/
def OneCall (c : Ctx) (K : Kernel) (nr : Nat) : Prop :=
  match wrapCase? nr with
  | some n => Faithful c K n
  | none => ∀ u, resultOf (wrapDefault nr u) = negENOSYS

/-- When it does. -/
def oneCallWhen (c : Ctx) (K : Kernel) (nr : Nat) : Prop :=
  match wrapCase? nr with
  | some n => StoresFit c n ∧ faithfulWhen c K n
  | none => False

theorem wrapDefault_result (nr : Nat) (u : UMem) : resultOf (wrapDefault nr u) = -1 :=
  resultOf_put _ _

end Porpoise.Shim
