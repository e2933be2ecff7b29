import Porpoise.Shim.Decode
import Porpoise.Shim.Transfer

/-!
# Pointers that travel in a buffer

For some calls the enclave stores the address of one buffer in another, or 0
when the caller passed `NULL`, and the host passes on what it reads there.

* `pointers_faithful`: the kernel gets the caller's request, so the same
  pointers are `NULL` and the bytes behind the others are the caller's; and no
  two pointers lead to one buffer.
-/

namespace Porpoise.Shim

open Porpoise.Lib

variable {c : Ctx} {K : Kernel} {n : Sysno} {u : UMem}

/-- The calls with pointers that travel in a buffer. -/
def pointerCalls : List Sysno :=
  [.nanosleep, .setitimer, .rt_sigprocmask, .utime, .utimes, .futimesat, .utimensat, .prlimit64,
   .epoll_ctl]

/-- A string with a size that an `int` carries. -/
def Ctx.IsPath (c : Ctx) (p : Word) : Prop := p ≠ 0 ∧ strlen (c.mem.at p) + 1 < 2 ^ 31

/-- What such a call asks of its caller: the paths are strings, where only
`utimensat` takes `NULL`, and `setitimer` has a new value. -/
def Ctx.GoodPointers (c : Ctx) (n : Sysno) : Prop :=
  (∀ p ∈ c.pathArgs n, n = .utimensat ∧ p = 0 ∨ c.IsPath p) ∧ (n = .setitimer → c.a2 ≠ 0)

/-- The pointers that the host passes. -/
def HostCall.pointers (c : Ctx) (u : UMem) (h : HostCall) : List Word :=
  ((List.zip (params h.fn) (h.argVals c u)).filter fun x => x.1.isPointer).map Prod.snd

/-- Pointers other than `NULL` lead to different regions. -/
def Ctx.Apart (c : Ctx) (ps : List Word) : Prop :=
  ps.Pairwise fun p q => p = 0 ∨ q = 0 ∨ c.region p ≠ c.region q

theorem Ctx.IsPath.ne_zero {p : Word} (h : c.IsPath p) : (p = 0#64) = False := eq_false h.1

theorem cstr_sent_isPath {p : Word} (h : c.IsPath p) (limit : Nat) (f : Bytes) :
    cstr limit (overlay 0 (memcpyLen (pathLen c p)) (c.mem.at p) f) = cstr limit (c.mem.at p) :=
  cstr_sent_short h.2 limit f

theorem wrapPhases_of_pointers (hn : n ∈ pointerCalls) (c : Ctx) :
    wrapPhases c n = [wrapSends c n] := by
  cases n <;> first | rfl | exact absurd hn (by decide)

/-! ## One argument -/

section Views

variable {p : Word} {limit m : Nat}

/-- **A pointer that travels in `b`** is the caller's when it leads to a copy. -/
theorem pointer_view (v : UMem) (b b' : Buf)
    (hptr : load64 (v (.buf b)) 0 = if p = 0#64 then 0#64 else c.addr b')
    (hobj : p ≠ 0#64 → take m (v (.buf b')) = take m (c.mem.at p)) :
    (if load64 (v (.buf b)) 0 = 0#64 then ArgView.null
      else .bytes (take m (v (c.region (load64 (v (.buf b)) 0))))) =
      if p = 0#64 then .null else .bytes (take m (c.mem.at p)) := by
  rw [hptr]
  by_cases hp : p = 0#64
  · simp [hp]
  · simp only [if_neg hp, c.addr_ne_zero, if_false, Ctx.region_addr, hobj hp]

/-- **A path** in a buffer of its own. -/
theorem path_view (v : UMem) (b : Buf) (hpath : c.IsPath p)
    (hobj : ∃ f, v (.buf b) = overlay 0 (memcpyLen (pathLen c p)) (c.mem.at p) f) :
    ArgView.string (cstr limit (v (.buf b))) =
      if p = 0#64 then .null else .string (cstr limit (c.mem.at p)) := by
  obtain ⟨f, hf⟩ := hobj
  have hp : ¬ p = 0#64 := hpath.1
  rw [if_neg hp, hf, cstr_sent_isPath hpath]

/-- A path whose place travels in `b`. -/
theorem optional_path_view (v : UMem) (b b' : Buf) (hpath : p = 0 ∨ c.IsPath p)
    (hptr : load64 (v (.buf b)) 0 = if p = 0#64 then 0#64 else c.addr b')
    (hobj : p ≠ 0#64 → ∃ f, v (.buf b') = overlay 0 (memcpyLen (pathLen c p)) (c.mem.at p) f) :
    (if load64 (v (.buf b)) 0 = 0#64 then ArgView.null
      else .string (cstr limit (v (c.region (load64 (v (.buf b)) 0))))) =
      if p = 0#64 then .null else .string (cstr limit (c.mem.at p)) := by
  rw [hptr]
  by_cases hp : p = 0#64
  · simp [hp]
  · obtain ⟨f, hf⟩ := hobj hp
    simp only [if_neg hp, c.addr_ne_zero, if_false, Ctx.region_addr, hf,
      cstr_sent_isPath (hpath.resolve_left hp)]

end Views

theorem request_of_pointers (hn : n ∈ pointerCalls) (hgood : c.GoodPointers n) (K : Kernel)
    (u : UMem) : (unwrapCase n).map (·.request c K (sent c n u)) = [c.request K n] := by
  obtain ⟨hpath, hnew⟩ := hgood
  cases n <;> (first | exact absurd hn (by decide) | clear hn)
  -- which arguments are paths
  all_goals
    simp only [Ctx.pathArgs, params, sysParams, Ctx.args, List.zip, List.zipWith, List.filterMap,
      Param.input, Param.output, List.forall_mem_cons, reduceCtorEq, false_and, false_or, true_and,
      IsEmpty.forall_iff, forall_const, List.not_mem_nil, and_true] at hpath hnew
  -- the two requests, argument by argument
  all_goals
    simp only [unwrapCase, List.map_cons, List.map_nil, Ctx.request, HostCall.request, kernelView,
      params, sysParams, Ctx.args, List.zipWith, argView, Operand.eval, Param.input, Param.output,
      kargs_mem, kargs_kernel, KArgs.sigsetLen, KArgs.eventLen, kargs_val, List.getD,
      List.getElem?_cons_zero, List.getElem?_cons_succ, Option.getD, Param.trunc, trunc_int,
      BitVec.ofNat_eq_ofNat, Ctx.addr_ne_zero, if_false, Ctx.region_addr, List.cons.injEq,
      Request.mk.injEq, and_true, true_and]
  case nanosleep =>
    refine ⟨?_, ?_⟩
    · refine pointer_view (sent c .nanosleep u) .arg1 .arg3 ?_ fun h1 => ?_
      · by_cases h1 : c.a1 = 0#64 <;> by_cases h2 : c.a2 = 0#64 <;> simp [sent, wrapSends, h1, h2]
      · by_cases h2 : c.a2 = 0#64 <;> simp [sent, wrapSends, take_overlay, h1, h2]
    · refine pointer_view (sent c .nanosleep u) .arg2 .arg4 ?_ fun _ => by simp
      by_cases h1 : c.a1 = 0#64 <;> by_cases h2 : c.a2 = 0#64 <;> simp [sent, wrapSends, h1, h2]
  case rt_sigprocmask =>
    have hmask : (if c.a4 = 8#64 then 8 else 0) ≤ 128 := by split <;> decide
    refine ⟨?_, ?_, ?_, ?_⟩
    · by_cases h2 : c.a2 = 0#64 <;> by_cases h3 : c.a3 = 0#64 <;> simp [sent, wrapSends, h2, h3]
    · simp only [show load64 (sent c .rt_sigprocmask u (.buf .arg4)) 0 = c.a4 by
        simp [sent, wrapSends]]
      refine pointer_view (sent c .rt_sigprocmask u) .arg2 .arg5 ?_ fun h2 => ?_
      · by_cases h2 : c.a2 = 0#64 <;> by_cases h3 : c.a3 = 0#64 <;> simp [sent, wrapSends, h2, h3]
      · by_cases h3 : c.a3 = 0#64 <;> simp [sent, wrapSends, take_overlay hmask, h2, h3]
    · refine pointer_view (sent c .rt_sigprocmask u) .arg3 .arg6 ?_ fun _ => by simp
      by_cases h2 : c.a2 = 0#64 <;> by_cases h3 : c.a3 = 0#64 <;> simp [sent, wrapSends, h2, h3]
    · simp [sent, wrapSends]
  case setitimer =>
    refine ⟨?_, ?_, ?_⟩
    · by_cases h3 : c.a3 = 0#64 <;> simp [sent, wrapSends, h3]
    · rw [if_neg (show ¬ c.a2 = 0#64 from hnew)]
      by_cases h3 : c.a3 = 0#64 <;> simp [sent, wrapSends, take_overlay, h3]
    · refine pointer_view (sent c .setitimer u) .arg3 .arg4 ?_ fun _ => by simp
      by_cases h3 : c.a3 = 0#64 <;> simp [sent, wrapSends, h3]
  case utime =>
    refine ⟨path_view (sent c .utime u) .arg1 hpath ?_, ?_⟩
    · by_cases h2 : c.a2 = 0#64 <;> simp [sent, wrapSends, h2]
    · refine pointer_view (sent c .utime u) .arg2 .arg3 ?_ fun h2 => ?_
      · by_cases h2 : c.a2 = 0#64 <;> simp [sent, wrapSends, h2]
      · simp [sent, wrapSends, take_overlay, h2]
  case utimes =>
    refine ⟨path_view (sent c .utimes u) .arg1 hpath ?_, ?_⟩
    · by_cases h2 : c.a2 = 0#64 <;> simp [sent, wrapSends, h2]
    · refine pointer_view (sent c .utimes u) .arg2 .arg3 ?_ fun h2 => ?_
      · by_cases h2 : c.a2 = 0#64 <;> simp [sent, wrapSends, h2]
      · simp [sent, wrapSends, take_overlay, h2]
  case futimesat =>
    refine ⟨?_, path_view (sent c .futimesat u) .arg2 hpath ?_, ?_⟩
    · by_cases h3 : c.a3 = 0#64 <;> simp [sent, wrapSends, h3]
    · by_cases h3 : c.a3 = 0#64 <;> simp [sent, wrapSends, h3]
    · refine pointer_view (sent c .futimesat u) .arg3 .arg4 ?_ fun h3 => ?_
      · by_cases h3 : c.a3 = 0#64 <;> simp [sent, wrapSends, h3]
      · simp [sent, wrapSends, take_overlay, h3]
  case utimensat =>
    have hpath : c.a2 = 0 ∨ c.IsPath c.a2 := hpath
    refine ⟨?_, ?_, ?_, ?_⟩
    · by_cases h2 : c.a2 = 0#64 <;> by_cases h3 : c.a3 = 0#64 <;> simp [sent, wrapSends, h2, h3]
    · refine optional_path_view (sent c .utimensat u) .arg2 .arg5 hpath ?_ fun h2 => ?_
      · by_cases h2 : c.a2 = 0#64 <;> by_cases h3 : c.a3 = 0#64 <;> simp [sent, wrapSends, h2, h3]
      · by_cases h3 : c.a3 = 0#64 <;> simp [sent, wrapSends, h2, h3]
    · refine pointer_view (sent c .utimensat u) .arg3 .arg6 ?_ fun h3 => ?_
      · by_cases h2 : c.a2 = 0#64 <;> by_cases h3 : c.a3 = 0#64 <;> simp [sent, wrapSends, h2, h3]
      · by_cases h2 : c.a2 = 0#64 <;> simp [sent, wrapSends, take_overlay, h2, h3]
    · simp [sent, wrapSends]
  case prlimit64 =>
    refine ⟨?_, ?_, ?_, ?_⟩
    · by_cases h3 : c.a3 = 0#64 <;> by_cases h4 : c.a4 = 0#64 <;> simp [sent, wrapSends, h3, h4]
    · by_cases h3 : c.a3 = 0#64 <;> by_cases h4 : c.a4 = 0#64 <;> simp [sent, wrapSends, h3, h4]
    · refine pointer_view (sent c .prlimit64 u) .arg3 .arg5 ?_ fun h3 => ?_
      · by_cases h3 : c.a3 = 0#64 <;> by_cases h4 : c.a4 = 0#64 <;> simp [sent, wrapSends, h3, h4]
      · by_cases h4 : c.a4 = 0#64 <;> simp [sent, wrapSends, take_overlay, h3, h4]
    · refine pointer_view (sent c .prlimit64 u) .arg4 .arg6 ?_ fun _ => by simp
      by_cases h3 : c.a3 = 0#64 <;> by_cases h4 : c.a4 = 0#64 <;> simp [sent, wrapSends, h3, h4]
  case epoll_ctl =>
    have hop : load32 (sent c .epoll_ctl u (.buf .arg2)) 0 = c.a2.setWidth 32 := by
      by_cases h4 : c.a4 = 0#64 <;> simp [sent, wrapSends, h4]
    have hevent : (if takesEvent (c.a2.setWidth 32) = true then 12 else 0) ≤ 12 := by
      split <;> decide
    refine ⟨?_, ?_, ?_, ?_⟩
    · by_cases h4 : c.a4 = 0#64 <;> simp [sent, wrapSends, h4]
    · rw [hop]
    · by_cases h4 : c.a4 = 0#64 <;> simp [sent, wrapSends, h4]
    · rw [hop]
      refine pointer_view (sent c .epoll_ctl u) .arg4 .arg5 ?_ fun h4 => ?_
      · by_cases h4 : c.a4 = 0#64 <;> simp [sent, wrapSends, h4]
      · simp [sent, wrapSends, take_overlay hevent, h4]

/-- The pointers of such a call lead to buffers of their own. -/
theorem apart_of_pointers (hn : n ∈ pointerCalls) (c : Ctx) (u : UMem) :
    ∀ h ∈ unwrapCase n, c.Apart (h.pointers c (sent c n u)) := by
  cases n <;> (first | exact absurd hn (by decide) | skip)
  all_goals
    simp only [unwrapCase, List.forall_mem_cons, List.not_mem_nil, IsEmpty.forall_iff, implies_true,
      and_true, HostCall.pointers, HostCall.argVals, params, sysParams, Param.input, Param.output,
      List.map_cons, List.map_nil, List.zip, List.zipWith, List.filter, Param.isPointer,
      Operand.eval]
  all_goals simp only [sent, wrapSends, BitVec.ofNat_eq_ofNat]
  all_goals split_ifs
  all_goals simp [Ctx.Apart]

/-- **Optional pointers.** For every combination of `NULL` and other pointers,
every content of the objects and of the slot: the kernel gets the caller's
request and no other (the same pointers are `NULL`, the bytes behind the others
are the caller's in the size that the kernel reads, integers and paths are
unchanged), and no two pointers lead to one buffer. -/
theorem pointers_faithful (hn : n ∈ pointerCalls) (hgood : c.GoodPointers n) (K : Kernel)
    (r : Word) (u : UMem) :
    requests c K r n u = [[c.request K n]] ∧
      ∀ h ∈ unwrapCase n, c.Apart (h.pointers c (sent c n u)) := by
  refine ⟨?_, apart_of_pointers hn c u⟩
  rw [requests_eq (wrapPhases_of_pointers hn c), request_of_pointers hn hgood]

/-- `utimensat(5, NULL, 4096, 0)`, with the times at 4096, in a slot full of
ones. -/
theorem pointers_faithful_utimensat :
    requests (Ctx.plain 5 0 4096 0 0 0 fun p => p.setWidth 8) linux 0 .utimensat (fun _ _ => 255) =
      [[(Ctx.plain 5 0 4096 0 0 0 fun p => p.setWidth 8).request linux .utimensat]] := by
  have hgood : (Ctx.plain 5 0 4096 0 0 0 fun p => p.setWidth 8).GoodPointers .utimensat := by
    refine ⟨fun p hp => .inl ⟨rfl, ?_⟩, fun h => nomatch h⟩
    exact List.mem_singleton.mp hp
  exact (pointers_faithful (by decide) hgood _ 0 fun _ _ => 255).1

/-- A path of `2 ^ 32 - 1` ones at 16. -/
def longPath : Mem := fun p => if p = 16 + BitVec.ofNat 64 (2 ^ 32 - 1) then 0 else 1

theorem strlen_longPath : strlen (longPath.at 16) = 2 ^ 32 - 1 := by
  refine strlen_eq (by decide) ?_ fun j hj => ?_
  · rw [Mem.at, longPath, if_pos rfl]
  · have hne : (16 : Word) + BitVec.ofNat 64 j ≠ 16 + BitVec.ofNat 64 (2 ^ 32 - 1) := by
      intro h
      have hnat := congrArg BitVec.toNat ((BitVec.add_right_inj 16).mp h)
      rw [BitVec.toNat_ofNat, BitVec.toNat_ofNat] at hnat
      omega
    rw [Mem.at, longPath, if_neg hne]
    decide

/-- A path whose size is 0 as an `int` is not sent. -/
theorem utime_path_unsent (hsize : memcpyLen (pathLen c c.a1) = 0) :
    ∀ s ∈ wrapSends c .utime, ¬ s.Writes (.buf .arg1) 0 := by
  intro s hs hw
  rcases List.mem_cons.mp hs with rfl | hs
  · obtain ⟨-, -, hlt⟩ := hw
    have hzero : 0 < 0 + memcpyLen (pathLen c c.a1) := hlt
    omega
  · have hdst := hw.1
    split at hs <;> simp only [List.mem_cons, List.not_mem_nil, or_false] at hs
    · rcases hs with rfl | rfl <;> exact absurd hdst (by simp)
    · exact absurd (hs ▸ hdst) (by simp)

/-- A call with this path: its size is `2 ^ 32`. -/
def longPathCtx : Ctx := Ctx.plain 16 0 0 0 0 0 longPath

theorem pathLen_longPath : memcpyLen (pathLen longPathCtx longPathCtx.a1) = 0 := by
  have hlen : pathLen longPathCtx longPathCtx.a1 =
      BitVec.ofNat 64 (strlen (longPath.at 16)) + 1 := rfl
  rw [hlen, strlen_longPath]
  decide

/-- `utime` with a path whose size is `2 ^ 32`, in a slot full of zeros: nothing of
the path is sent, and the kernel reads an empty one. -/
theorem utime_long_path :
    requests longPathCtx linux 0 .utime (fun _ _ => 0) ≠ [[longPathCtx.request linux .utime]] := by
  rw [requests_eq rfl]
  intro h
  have hview := congrArg Request.args (List.singleton_inj.mp (List.singleton_inj.mp h))
  have hpath := (List.cons.inj hview).1
  simp only [argView, Operand.eval, Ctx.addr_ne_zero, kargs_mem, kargs_kernel, Ctx.region_addr,
    BitVec.ofNat_eq_ofNat, if_false] at hpath
  -- the first byte of either string
  have hfirst := congrArg (·[0]?) (ArgView.string.inj hpath)
  simp only [getElem?_cstr (i := 0) (show 0 < linux.pathMax by decide)
      (fun j hj => absurd hj (by omega)),
    sent_of_not_writes (show Buf.arg1 ≠ .arg0 by decide)
      (utime_path_unsent pathLen_longPath)] at hfirst
  revert hfirst
  decide

end Porpoise.Shim
