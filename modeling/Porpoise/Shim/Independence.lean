import Porpoise.Shim.SendBounds
import Porpoise.Shim.Stale
import Porpoise.Shim.Vectors

/-!
# Which requests are independent of the slot's past

The calls that `Porpoise.Shim.Stale` leaves: those with arrays or messages, and
those that always read something of an earlier call.

* `slotFree_vector` reduces `readv` and `writev` to their segments.
* `slotFree_message`: the header, and the blocks behind it, are all written
  in this call.
* `independent_iff` is the condition for every call.
-/

namespace Porpoise.Shim

open Porpoise.Lib

variable {c : Ctx} {K : Kernel} {u u' : UMem} {b : Buf} {n : Sysno}

/-! ## `readv` and `writev` -/

section Between

variable {ss : List Store} {v w : Word} {r : Region}

/-- An array written between a descriptor in `arg1` and a count in `arg3`. -/
theorem applyAll_between (h1 : r ≠ .buf .arg1) (h3 : r ≠ .buf .arg3) (u : UMem) :
    applyAll (sendInt .arg1 v :: ss ++ [sendInt .arg3 w]) u r = applyAll ss u r := by
  rw [List.cons_append, applyAll_cons, applyAll_append, applyAll_cons, applyAll_nil, sendInt_apply,
    if_neg h3]
  refine applyAll_congr_region ?_
  rw [sendInt_apply, if_neg h1]

theorem load32_between_first (h : ∀ s ∈ ss, s.dst ≠ .buf .arg1) (u : UMem) :
    load32 (applyAll (sendInt .arg1 v :: ss ++ [sendInt .arg3 w]) u (.buf .arg1)) 0 =
      v.setWidth 32 := by
  rw [List.cons_append, applyAll_cons, applyAll_append, applyAll_cons, applyAll_nil, sendInt_apply,
    if_neg (by decide), applyAll_of_ne h, sendInt_apply, if_pos rfl]
  exact load32_overlay_self v 0 _

theorem load32_between_last (u : UMem) :
    load32 (applyAll (sendInt .arg1 v :: ss ++ [sendInt .arg3 w]) u (.buf .arg3)) 0 =
      w.setWidth 32 := by
  rw [List.cons_append, applyAll_cons, applyAll_append, applyAll_cons, applyAll_nil, sendInt_apply,
    if_pos rfl]
  exact load32_overlay_self w 0 _

end Between

theorem readvSends_ne (h : b ≠ .arg2) : ∀ s ∈ readvSends c, s.dst ≠ .buf b := by
  simp only [readvSends, readvFirst, readvRest, List.forall_mem_append, List.forall_mem_flatMap,
    forall_mem_ite, List.forall_mem_cons]
  simp [h.symm]

theorem writevSends_ne (h : b ∉ (List.range 5).map segBuf) (h2 : b ≠ .arg2) :
    ∀ s ∈ writevSends c, s.dst ≠ .buf b := by
  simp only [writevSends, writevFirst, writevRest, List.forall_mem_append,
    List.forall_mem_flatMap, forall_mem_ite, List.forall_mem_cons]
  simp [h2.symm, segBuf_ne h]

/-- The view of the array of a call with the count of `readv` or `writev`. -/
theorem vector_request (fn : HostFn) (data : Bool) (hfn : params fn = [.int, .iov data 2, .int]) :
    HostCall.request c K u ⟨fn, [.long .arg1, .ptr .arg2, .long .arg3]⟩ =
      ⟨fn, [.scalar ((load32 (u (.buf .arg1)) 0).setWidth 64),
        .segs (segViews (fun p => u (c.region p)) data (c.addr .arg2)
          (load32 (u (.buf .arg3)) 0).toInt.toNat),
        .scalar ((load32 (u (.buf .arg3)) 0).setWidth 64)]⟩ := by
  simp only [HostCall.request, kernelView, hfn, List.map_cons, List.map_nil, List.zipWith, argView,
    Operand.eval, kargs_mem, Ctx.addr_ne_zero, if_false, BitVec.ofNat_eq_ofNat, setWidth_load64,
    KArgs.int, kargs_val, List.getD, List.getElem?_cons_zero, List.getElem?_cons_succ,
    Option.getD, Param.trunc]
  simp

/-- An array is independent when its segments are. -/
theorem indep_segViews {f : UMem → Word → Bytes} {data : Bool} {p : Word} {k : Nat} :
    (Indep SameOutside fun u => ArgView.segs (segViews (f u) data p k)) ↔
      (k ≤ 1024 → ∀ i < k, Indep SameOutside fun u => segView (f u) data p i) := by
  refine (indep_injective fun _ _ => ArgView.segs.inj).trans ?_
  by_cases hk : k ≤ 1024
  · simp only [segViews, if_pos hk]
    rw [indep_map_range, imp_iff_right hk]
  · simp only [segViews, if_neg hk]
    exact iff_of_true (indep_const _) fun h => absurd h hk

/-- The descriptor and the count of `readv` and `writev` at the host. -/
theorem vector_ints {ss : List Store}
    (hsends : wrapSends c n = sendInt .arg1 c.a1 :: ss ++ [sendInt .arg3 c.a3])
    (hss : ∀ s ∈ ss, s.dst ≠ .buf .arg1) (u : UMem) :
    load32 (sent c n u (.buf .arg1)) 0 = c.a1.setWidth 32 ∧
      load32 (sent c n u (.buf .arg3)) 0 = c.a3.setWidth 32 := by
  rw [sent, hsends]
  exact ⟨load32_between_first hss _, load32_between_last _⟩

/-- The array of `readv` and `writev` at the host. -/
theorem vector_array {ss : List Store}
    (hsends : wrapSends c n = sendInt .arg1 c.a1 :: ss ++ [sendInt .arg3 c.a3]) (u : UMem) :
    sent c n u (c.region (c.addr .arg2)) = applyAll ss ((sendNr n).apply u) (.buf .arg2) := by
  rw [Ctx.region_addr, sent, hsends]
  exact applyAll_between (by decide) (by decide) _

/-- An entry of `readv` as the kernel reads it. -/
theorem readv_sent_segView {i : Nat} (hi : i < intCount c.a3) (u : UMem) :
    segView (fun p => sent c .readv u (c.region p)) false (c.addr .arg2) i =
      ⟨segPtr c i == 0, readvLen c i, []⟩ := by
  obtain ⟨hbase, hlen⟩ := readv_entry hi ((sendNr .readv).apply u)
  simp only [segView, vector_array (n := .readv) rfl, hbase, hlen, Bool.false_eq_true, if_false]

/-- One of the first five entries of `writev` as the kernel reads it. -/
theorem writev_sent_segView {i : Nat} (hi : i < intCount c.a3) (h5 : i < 5) (u : UMem) :
    segView (fun p => sent c .writev u (c.region p)) true (c.addr .arg2) i =
      ⟨segPtr c i == 0, iovLen c.mem c.a2 i, take (iovLen c.mem c.a2 i).toNat
        (overlay 0 (memcpyLen (iovLen c.mem c.a2 i)) (c.mem.at (iovBase c.mem c.a2 i))
          (u (.buf (segBuf i))))⟩ := by
  obtain ⟨hbase, hlen⟩ := writev_entry hi h5 ((sendNr .writev).apply u)
  have hptr : segPtr c i = c.addr (segBuf i) := if_pos h5
  have hseg : sent c .writev u (.buf (segBuf i)) =
      overlay 0 (memcpyLen (iovLen c.mem c.a2 i)) (c.mem.at (iovBase c.mem c.a2 i))
        (u (.buf (segBuf i))) := by
    have hne : ∀ b ∉ (List.range 5).map segBuf, Region.buf (segBuf i) ≠ .buf b :=
      fun b hb h => segBuf_ne hb i (Region.buf.inj h)
    refine (applyAll_between (hne _ (by decide)) (hne _ (by decide)) _).trans ?_
    rw [writev_seg hi h5, sendNr_apply, if_neg (hne _ (by decide))]
  simp only [segView, vector_array (n := .writev) rfl, hbase, hlen, if_true]
  rw [hptr, Ctx.region_addr, hseg]

/-- `readv` and `writev` are independent when the segments are. -/
theorem slotFree_vector {ss : List Store} {data : Bool}
    (hphases : wrapPhases c n = [wrapSends c n])
    (hcase : unwrapCase n = [⟨.syscall n, [.long .arg1, .ptr .arg2, .long .arg3]⟩])
    (hparams : sysParams n = [.int, .iov data 2, .int])
    (hsends : wrapSends c n = sendInt .arg1 c.a1 :: ss ++ [sendInt .arg3 c.a3])
    (hss : ∀ s ∈ ss, s.dst ≠ .buf .arg1) :
    SlotFree c K n ↔ (intCount c.a3 ≤ 1024 → ∀ i < intCount c.a3, Indep SameOutside fun u =>
      segView (fun p => sent c n u (c.region p)) data (c.addr .arg2) i) := by
  have hfirst := fun u => (vector_ints hsends hss u).1
  have hlast := fun u => (vector_ints hsends hss u).2
  rw [slotFree_iff_of_phases hphases, hcase]
  simp only [List.map_cons, List.map_nil, vector_request (.syscall n) data hparams, hfirst, hlast,
    indep_cons, indep_const, and_true, true_and, indep_request, indep_segViews, intCount]

/-- **`readv`.** Every entry of its array is written in this call. -/
theorem slotFree_readv : SlotFree c K .readv := by
  rw [slotFree_vector rfl rfl rfl rfl (readvSends_ne (by decide))]
  intro _ i hi
  simp only [readv_sent_segView hi, indep_const]

/-- **`writev`.** The sixth segment has a length of an earlier call. -/
theorem slotFree_writev :
    SlotFree c K .writev ↔ 1024 < intCount c.a3 ∨ CoversSegs c := by
  rw [slotFree_vector rfl rfl rfl rfl (writevSends_ne (by decide) (by decide))]
  by_cases hmany : 1024 < intCount c.a3
  · have hle : ¬ intCount c.a3 ≤ 1024 := by omega
    simp only [hle, false_imp_iff, hmany, true_or]
  have hle : intCount c.a3 ≤ 1024 := by omega
  simp only [hle, true_imp_iff, hmany, false_or, CoversSegs]
  by_cases h5 : intCount c.a3 ≤ 5
  · -- every segment has a buffer
    rw [and_iff_right h5]
    refine forall_congr' fun i => forall_congr' fun hi => ?_
    simp only [writev_sent_segView hi (by omega)]
    refine (indep_injective (g := SegView.mk _ _) fun _ _ h => (SegView.mk.inj h).2.2).trans ?_
    exact indep_take (segBuf_ne (by decide) i) (segBuf_ne (by decide) i) _ _ _
  · -- the length of the sixth is what the slot held
    refine iff_of_false (fun h => ?_) fun h => h5 h.1
    have hview := h 5 (by omega) _ _
      (sameOutside_poke (by decide : Buf.arg2 ≠ .arg0) (by decide) 88 0 1)
    have hlen := congrArg SegView.len hview
    simp only [segView, vector_array (n := .writev) rfl] at hlen
    rw [writev_len_unsent, writev_len_unsent] at hlen
    have hlow := congrArg (·.setWidth 32) hlen
    simp [load32, poke] at hlow

/-! ## Messages -/

/-- What was stored in this call does not depend on what was there. -/
theorem load32_sendLong_congr {ss : List Store} {w : Word} (h : sendLong b w ∈ ss) (u u' : UMem) :
    load32 (applyAll ss u (.buf b)) 0 = load32 (applyAll ss u' (.buf b)) 0 := by
  refine load32_congr fun i hi => applyAll_congr_at (.inr ⟨_, h, rfl, ?_⟩)
  have hsize : (sendLong b w).size = 8 := by
    show memcpyLen 8 = 8
    decide
  have hoff : (sendLong b w).off = 0 := rfl
  omega

/-- **Messages.** What the kernel learns from a message is the same in both
runs. -/
theorem msgView_eq (h : SameOutside u u') (data : Bool) :
    msgView (fun p => applyAll (msgSends c data) u (c.region p)) data (c.addr .arg2) =
      msgView (fun p => applyAll (msgSends c data) u' (c.region p)) data (c.addr .arg2) := by
  have hheap := (h.applyAll (msgSends c data)).heap
  have hsegs : segViews (fun p => applyAll (msgSends c data) u (c.region p)) data (msgIovPtr c)
        ((msgIovlen c.mem c.a2).setWidth 32).toNat =
      segViews (fun p => applyAll (msgSends c data) u' (c.region p)) data (msgIovPtr c)
        ((msgIovlen c.mem c.a2).setWidth 32).toNat := by
    unfold segViews
    split
    case isTrue hle =>
      refine List.map_inj_left.mpr fun i hi => ?_
      have hlt := List.mem_range.mp hi
      rw [← intCount_of_le hle (by decide)] at hlt
      have hbase := fun u => (msg_entry data hlt u).1
      simp only [segView, region_msgIovPtr, hheap, hbase, Ctx.region_alloc]
    case isFalse => rfl
  simp only [msgView, Ctx.region_addr, msg_header, msgHeader_name, msgHeader_control,
    msgHeader_iov, toNat_msgHeader_iovlen, region_msgNamePtr, region_msgControlPtr, hheap, hsegs]
  have hnamelen := load32_msgHeader (c := c) (u (.buf .arg2)) (u' (.buf .arg2))
    (by decide : 8 + 4 ≤ sizeofMsghdr)
  have hiovlen := load64_msgHeader (c := c) (u (.buf .arg2)) (u' (.buf .arg2))
    (by decide : 24 + 8 ≤ sizeofMsghdr)
  have hcontrollen := load64_msgHeader (c := c) (u (.buf .arg2)) (u' (.buf .arg2))
    (by decide : 40 + 8 ≤ sizeofMsghdr)
  have hflags := load32_msgHeader (c := c) (u (.buf .arg2)) (u' (.buf .arg2))
    (by decide : 48 + 4 ≤ sizeofMsghdr)
  rw [hnamelen, hiovlen, hcontrollen, hflags]

/-- **`sendmsg` and `recvmsg`.** -/
theorem slotFree_message {data : Bool} (hphases : wrapPhases c n = [wrapSends c n])
    (hcase : unwrapCase n = [⟨.syscall n, [.long .arg1, .ptr .arg2, .long .arg3]⟩])
    (hparams : sysParams n = [.int, .msg data, .int]) (hsends : wrapSends c n = msgSends c data) :
    SlotFree c K n := by
  rw [slotFree_iff_of_phases hphases, hcase]
  intro u u' h
  have hview := msgView_eq (c := c) (h.apply (sendNr n)) data
  have hfirst : load32 (sent c n u (.buf .arg1)) 0 = load32 (sent c n u' (.buf .arg1)) 0 := by
    refine load32_sendLong_congr (w := c.a1) ?_ _ _
    rw [hsends]
    simp [msgSends]
  have hlast : load32 (sent c n u (.buf .arg3)) 0 = load32 (sent c n u' (.buf .arg3)) 0 := by
    refine load32_sendLong_congr (w := c.a3) ?_ _ _
    rw [hsends]
    simp [msgSends]
  simp only [List.map_cons, List.map_nil, HostCall.request, kernelView, params, hparams,
    List.zipWith, argView, Operand.eval, kargs_mem, Ctx.addr_ne_zero, if_false,
    BitVec.ofNat_eq_ofNat, setWidth_load64, hfirst, hlast]
  rw [sent, sent, hsends, hview]

/-! ## Calls that always read something of an earlier call -/

/-- The integer that the host takes from `arg1` is not sent. -/
theorem not_slotFree_of_first {fn : HostFn} {args : List Operand} {ps : List Param}
    (hphases : wrapPhases c n = [wrapSends c n])
    (hcase : unwrapCase n = [⟨fn, .int .arg1 :: args⟩]) (hparams : params fn = .int :: ps)
    (hsends : ∀ s ∈ wrapSends c n, s.dst ≠ .buf .arg1) : ¬ SlotFree c K n := by
  rw [slotFree_iff_of_phases hphases, hcase]
  have hold : ∀ u, sent c n u (.buf .arg1) = u (.buf .arg1) := sent_of_ne (by decide) hsends
  simp only [List.map_cons, List.map_nil, HostCall.request, kernelView, hparams, List.zipWith,
    argView, Operand.eval, trunc_int, hold, indep_cons, indep_request]
  intro h
  exact (not_indep_int (by decide) (by decide)).mp h.1.1

/-- Whether the second pointer is `NULL` is read from `null_ptr[2]`, which is
not sent. -/
theorem not_slotFree_of_second {fn : HostFn} {x : Operand} {args : List Operand} {p : Param}
    {read write : KArgs → Nat} {ps : List Param}
    (hphases : wrapPhases c n = [wrapSends c n])
    (hcase : unwrapCase n = [⟨fn, x :: .ptrUnless 2 .arg2 :: args⟩])
    (hparams : params fn = p :: .obj read write :: ps)
    (hsends : ∀ s ∈ wrapSends c n, ¬ s.Writes (.buf .arg7) 2) : ¬ SlotFree c K n := by
  rw [slotFree_iff_of_phases hphases, hcase]
  have hold : ∀ u, sent c n u (.buf .arg7) 2 = u (.buf .arg7) 2 :=
    sent_of_not_writes (by decide) hsends
  simp only [List.map_cons, List.map_nil, HostCall.request, kernelView, hparams, List.zipWith,
    argView, Operand.eval, hold, indep_cons, indep_request]
  intro h
  exact (not_indep_ptrUnless (c.addr_ne .arg2) _ _).mp h.1.2.1

theorem not_slotFree_select : ¬ SlotFree c K .select :=
  not_slotFree_of_first rfl rfl rfl select_first_unsent

theorem not_slotFree_pselect6 : ¬ SlotFree c K .pselect6 :=
  not_slotFree_of_first rfl rfl rfl pselect6_first_unsent

theorem not_slotFree_sendto : ¬ SlotFree c K .sendto :=
  not_slotFree_of_second rfl rfl rfl (sendto_null_unsent (by decide))

theorem not_slotFree_recvfrom : ¬ SlotFree c K .recvfrom :=
  not_slotFree_of_second rfl rfl rfl (recvfrom_null_unsent (by decide))

/-- Untrusted memory at the second ocall of `alarm`, when the first returned
nine. -/
def sentAfterAlarm (c : Ctx) (u : UMem) : UMem :=
  applyAll (wrapSends c .setitimer) ((put .arg0 9).apply (sent c .alarm u))

theorem requests_alarm (u : UMem) :
    requests c K 9 .alarm u =
      [(unwrapCase .alarm).map (·.request c K (sent c .alarm u)),
        (unwrapCase .mmap).map (·.request c K (sentAfterAlarm c u))] := by
  have hfirst := hostSysno_sent c .alarm u
  have hsecond : hostSysno (sentAfterAlarm c u) = some .mmap := by
    refine hostSysno_of_sendNr (u := sent c .alarm u) ?_
    exact applyAll_of_ne (dst_ne_arg0 c .setitimer) _
  simp only [requests, hostCalls, wrapPhases, ocallsFrom, ocallCalls]
  rw [← sent, ← sentAfterAlarm, hfirst, hsecond]

/-- **`alarm`** runs on into `setitimer`, and the host decodes the result of the
first ocall as the number of the second: with nine seconds left, `mmap`. -/
theorem not_slotFree_alarm : ¬ SlotFree c K .alarm := by
  intro h
  have hrequests := h 9
  have hold : ∀ u, sentAfterAlarm c u (.buf .arg4) = u (.buf .arg4) := by
    intro u
    rw [sentAfterAlarm, applyAll_of_ne, put_apply, if_neg (by decide), sent_of_ne (by decide)]
    · simp [wrapSends]
    · simp only [wrapSends, List.forall_mem_append, forall_mem_ite, List.forall_mem_cons]
      simp
  have heq : requests c K 9 .alarm = fun u => _ := funext requests_alarm
  rw [heq, indep_cons, indep_cons] at hrequests
  have hmmap := hrequests.2.1
  simp only [unwrapCase, List.map_cons, List.map_nil, HostCall.request, kernelView, params,
    sysParams, List.zipWith, argView, Operand.eval, trunc_int, hold, indep_cons,
    indep_request] at hmmap
  exact (not_indep_int (by decide) (by decide)).mp hmmap.1.2.2.2.1

/-! ## All calls -/

theorem slotFree_iff (c : Ctx) (K : Kernel) (n : Sysno) :
    SlotFree c K n ↔ independentWhen c K n := by
  by_cases hdirect : n ∈ directCalls
  · exact slotFree_direct hdirect
  by_cases hoptional : n ∈ optionalCalls
  · exact slotFree_optional hoptional
  cases n
  case readv => exact iff_of_true slotFree_readv trivial
  case writev => exact slotFree_writev
  case sendmsg => exact iff_of_true (slotFree_message rfl rfl rfl rfl) trivial
  case recvmsg => exact iff_of_true (slotFree_message rfl rfl rfl rfl) trivial
  case select => exact iff_of_false not_slotFree_select id
  case pselect6 => exact iff_of_false not_slotFree_pselect6 id
  case sendto => exact iff_of_false not_slotFree_sendto id
  case recvfrom => exact iff_of_false not_slotFree_recvfrom id
  case alarm => exact iff_of_false not_slotFree_alarm id
  -- no ocall
  case rt_sigreturn => exact iff_of_true (fun _ => indep_const []) trivial
  case getitimer => exact iff_of_true (fun _ => indep_const []) trivial
  all_goals first | exact absurd (by decide) hdirect | exact absurd (by decide) hoptional

/-- **When a request owes nothing to the slot's past.** For every call, with
every result of its ocall, every argument and every enclave memory: the stores of
the call stay in their buffers, and `independentWhen` holds. -/
theorem independent_iff (c : Ctx) (K : Kernel) (n : Sysno) :
    Independent c K n ↔ StoresFit c n ∧ independentWhen c K n := by
  rw [independent_iff_slotFree, sends_stay_iff, slotFree_iff]

/-- A new slot after `close(fd)` has returned 0. -/
def afterClose (fd : Word) : UMem :=
  (put .arg0 0).apply (sent (Ctx.plain fd 0 0 0 0 0 fun _ => 0) .close fun _ _ => 0)

theorem sameOutside_afterClose : SameOutside (afterClose 5) (afterClose 6) :=
  ⟨fun _ => rfl, rfl, rfl⟩

/-- The `nfds` of `select(1, NULL, NULL, NULL, NULL)` is the descriptor that an
earlier call closed. -/
theorem independent_fails_for_select :
    SameOutside (afterClose 5) (afterClose 6) ∧
      requests (Ctx.plain 1 0 0 0 0 0 fun _ => 0) linux 0 .select (afterClose 5) ≠
        requests (Ctx.plain 1 0 0 0 0 0 fun _ => 0) linux 0 .select (afterClose 6) :=
  ⟨sameOutside_afterClose, by decide +kernel⟩

end Porpoise.Shim
