import Porpoise.Shim.Confine
import Porpoise.Shim.Decode
import Porpoise.Shim.Transfer

/-!
# The output objects of a successful call

Each case picks by hand the buffer that the kernel writes, directly or through a
pointer in another buffer, and the one it copies back. `HostCall.outputs` takes
both from the case of the host: for every object that the kernel writes, the
pointer that the host passes and the pointer that the caller passed.

* `outputs_delivered`: what the kernel wrote behind the one arrives behind the other, and
  no other byte changes.
-/

namespace Porpoise.Shim

open Porpoise.Lib

variable {c : Ctx} {K : Kernel} {n : Sysno} {u v : UMem}

/-- An object that the kernel writes: where the caller has it, where the host
has it, and the most bytes written. -/
structure Output where
  dst : Word
  src : Word
  size : Nat

/-- The output of one parameter, from the caller's argument and the host's. The
kernel writes nothing behind `NULL`. -/
def paramOutputs (x : KArgs) : Param × Word × Word → List Output
  | (.obj _ write, p, q) => if q = 0 ∨ write x = 0 then [] else [⟨p, q, write x⟩]
  | _ => []

/-- The outputs of a call, in the order of the parameters. -/
def HostCall.outputs (c : Ctx) (K : Kernel) (u : UMem) (n : Sysno) (h : HostCall) : List Output :=
  ((sysParams n).zip (c.args.zip (h.argVals c u))).flatMap (paramOutputs (h.kargs c K u))

/-- The bytes of every output are in the caller's object, but for those that a
later output covers. -/
def Delivered (c : Ctx) (n : Sysno) (v : UMem) : List Output → Prop
  | [] => True
  | o :: os =>
      (∀ j < o.size, (∀ o' ∈ os, ¬ (Obj.mk o'.dst o'.size).Has (o.dst + BitVec.ofNat 64 j)) →
        memAfter c n v (o.dst + BitVec.ofNat 64 j) = v (c.region o.src) j) ∧
      Delivered c n v os

/-- The calls with outputs of fixed size. -/
def successCalls : List Sysno :=
  [.stat, .lstat, .newfstatat, .uname, .getrlimit, .getrusage, .sysinfo, .times, .statfs, .fstatfs,
   .clock_gettime, .clock_getres, .pipe, .pipe2, .socketpair, .getresuid, .getresgid, .setitimer,
   .prlimit64, .nanosleep]

/-- The result of a call that wrote its outputs: `nanosleep` was interrupted. -/
def Succeeded (n : Sysno) (r : Word) : Prop := if n = .nanosleep then r = -4 else ¬ IsError r

/-- **One copy.** A byte of the buffer is at its place in the object. -/
theorem recv_apply_at {b : Buf} {dst len : Word} {m : Mem} {j : Nat} (hj : j < memcpyLen len) :
    (recv (.buf b) dst len).apply v m (dst + BitVec.ofNat 64 j) = v (.buf b) j := by
  have hlt : memcpyLen len < 2 ^ 64 := BitVec.isLt _
  rw [recv_apply_eq, toNat_add_sub dst (Nat.lt_trans hj hlt), if_pos hj]

theorem delivered_one {b : Buf} {dst len : Word} {m : Mem} {size : Nat}
    (hmem : memAfter c n v = (recv (.buf b) dst len).apply v m) (hlen : size ≤ memcpyLen len) :
    Delivered c n v [⟨dst, c.addr b, size⟩] := by
  refine ⟨fun j hj _ => ?_, trivial⟩
  rw [hmem, c.region_addr]
  exact recv_apply_at (Nat.lt_of_lt_of_le hj hlen)

/-- Three objects, each copied over those before it. -/
theorem delivered_three (hmem : memAfter c n v =
      applyRecvs v [recv (.buf .arg1) c.a1 4, recv (.buf .arg2) c.a2 4, recv (.buf .arg3) c.a3 4]
        c.mem) :
    Delivered c n v
      [⟨c.a1, c.addr .arg1, 4⟩, ⟨c.a2, c.addr .arg2, 4⟩, ⟨c.a3, c.addr .arg3, 4⟩] := by
  rw [applyRecvs_cons, applyRecvs_cons, applyRecvs_cons, applyRecvs_nil] at hmem
  have hnot : ∀ {b : Buf} {q p : Word}, ¬ (Obj.mk q 4).Has p → ¬ (recv (.buf b) q 4).Writes p :=
    fun h => not_writes_of_le _ (by decide) h
  refine ⟨fun j hj hlater => ?_, fun j hj hlater => ?_, fun j hj _ => ?_, trivial⟩
  · have hthird := hlater _ (List.mem_cons_of_mem _ (List.mem_singleton_self _))
    rw [hmem, c.region_addr, recv_apply_of_not_writes (hnot hthird),
      recv_apply_of_not_writes (hnot (hlater _ (List.mem_cons_self ..)))]
    exact recv_apply_at hj
  · rw [hmem, c.region_addr, recv_apply_of_not_writes (hnot (hlater _ (List.mem_cons_self ..)))]
    exact recv_apply_at hj
  · rw [hmem, c.region_addr]
    exact recv_apply_at hj

/-- An output whose pointer travels in a buffer. -/
theorem delivered_pointer {b : Buf} {dst w len : Word} {size : Nat}
    (hw : w = if dst = 0 then 0 else c.addr b)
    (hmem : dst ≠ 0 → memAfter c n v = (recv (.buf b) dst len).apply v c.mem)
    (hlen : size ≤ memcpyLen len) :
    Delivered c n v (if w = 0 then [] else [⟨dst, w, size⟩]) := by
  by_cases hdst : dst = 0
  · rw [hw, if_pos hdst, if_pos rfl]
    trivial
  · rw [hw, if_neg hdst, if_neg (c.addr_ne b)]
    exact delivered_one (hmem hdst) hlen

/-- The copy that `stat` and `lstat` make for every result but `-1`. -/
theorem stat_memAfter (hn : n = .stat ∨ n = .lstat) (hr : ¬ IsError (resultOf v)) :
    memAfter c n v = (recv (.buf .arg2) c.a2 144).apply v (wrapMem c n) := by
  have hne : resultOf v ≠ -1 := fun h => hr (by rw [h]; decide)
  rcases hn with rfl | rfl <;> exact congrArg (applyRecvs v · _) (if_pos hne)

theorem delivered_outputs (hn : n ∈ successCalls) (hres : n = .clock_getres → c.a2 ≠ 0)
    (hr : Succeeded n (resultOf v)) (K : Kernel) (u : UMem) :
    ∀ h ∈ unwrapCase n, Delivered c n v (h.outputs c K (sent c n u) n) := by
  cases n <;> (first | exact absurd hn (by decide) | skip)
  all_goals
    simp only [unwrapCase, List.forall_mem_cons, List.not_mem_nil, IsEmpty.forall_iff, implies_true,
      and_true, HostCall.outputs, paramOutputs, HostCall.argVals, sysParams, Param.input,
      Param.output, List.map_cons, List.map_nil, Ctx.args, List.zip, List.zipWith,
      List.flatMap_cons, List.flatMap_nil, Operand.eval, List.nil_append, List.append_nil,
      BitVec.ofNat_eq_ofNat, Ctx.addr_ne_zero, or_true, if_true, or_false, Nat.reduceEqDiff,
      if_false]
  case stat => exact delivered_one (stat_memAfter (.inl rfl) hr) (by decide)
  case lstat => exact delivered_one (stat_memAfter (.inr rfl) hr) (by decide)
  case getresuid => exact delivered_three rfl
  case getresgid => exact delivered_three rfl
  case clock_getres =>
    exact delivered_one (congrArg (applyRecvs v · _) (if_pos (hres rfl))) (by decide)
  case setitimer =>
    refine delivered_pointer (b := .arg4) ?_ (fun h => congrArg (applyRecvs v · _) (if_pos h))
      (by decide)
    simp [sent, wrapSends]
    split <;> simp [*]
  case prlimit64 =>
    refine delivered_pointer (b := .arg6) ?_ (fun h => congrArg (applyRecvs v · _) (if_pos h))
      (by decide)
    simp [sent, wrapSends]
    split <;> simp [*]
  case nanosleep =>
    refine delivered_pointer (b := .arg4) ?_ (fun h => congrArg (applyRecvs v · _) (if_pos h))
      (by decide)
    simp [sent, wrapSends]
    split <;> simp [*]
  all_goals exact delivered_one rfl (by decide)

/-- Behind integers, paths and single objects, the kernel writes the outputs. -/
theorem writes_outputs {x : KArgs} :
    ∀ {ps : List Param} {as qs : List Word}, qs.length ≤ as.length →
      (∀ q ∈ ps, ∀ data cnt, q ≠ .iov data cnt ∧ q ≠ .msg data) →
      ∀ w ∈ (List.zipWith (Param.writes x) ps qs).flatten,
        w.size = 0 ∨ ∃ o ∈ (ps.zip (as.zip qs)).flatMap (paramOutputs x), w = ⟨o.src, 0, o.size⟩
  | [], _, _, _, _, _, hw => absurd hw List.not_mem_nil
  | _ :: _, _, [], _, _, _, hw => absurd hw List.not_mem_nil
  | q :: ps, a :: as, p :: qs, hlen, hps, w, hw => by
      rw [List.zipWith_cons_cons, List.flatten_cons, List.mem_append] at hw
      rcases hw with hw | hw
      · cases q with
        | obj read write =>
            simp only [Param.writes] at hw
            split at hw
            · exact absurd hw List.not_mem_nil
            · rename_i hp
              obtain rfl := List.mem_singleton.mp hw
              by_cases hz : write x = 0
              · exact .inl hz
              · refine .inr ⟨⟨a, p, write x⟩, List.mem_flatMap.mpr ⟨(.obj read write, a, p),
                  List.mem_cons_self .., ?_⟩, rfl⟩
                rw [paramOutputs, if_neg (not_or.mpr ⟨hp, hz⟩)]
                exact List.mem_singleton_self _
        | iov data cnt => exact absurd rfl (hps _ (List.mem_cons_self ..) data cnt).1
        | msg data => exact absurd rfl (hps _ (List.mem_cons_self ..) data 0).2
        | _ => exact absurd hw List.not_mem_nil
      · rcases writes_outputs (Nat.le_of_succ_le_succ hlen)
          (fun q hq => hps q (List.mem_cons_of_mem _ hq)) w hw with hz | ⟨o, ho, rfl⟩
        · exact .inl hz
        · refine .inr ⟨o, ?_, rfl⟩
          rw [List.zip_cons_cons, List.zip_cons_cons, List.flatMap_cons]
          exact List.mem_append_right _ ho

/-- The host makes one call, with parameters of these kinds. -/
theorem unwrapCase_of_success (hn : n ∈ successCalls) :
    ∃ h, unwrapCase n = [h] ∧ params h.fn = sysParams n ∧ h.args.length ≤ 6 ∧
      ∀ q ∈ sysParams n, ∀ data cnt, q ≠ .iov data cnt ∧ q ≠ .msg data := by
  cases n <;> (first | exact absurd hn (by decide) | skip)
  all_goals
    refine ⟨_, rfl, rfl, by decide, ?_⟩
    simp [sysParams, Param.input, Param.output]

/-- **Outputs of fixed size.** After a successful call, whatever the slot held:
what the host's kernel wrote behind its pointers (`writes`) are the outputs, each
of their bytes is at the same offset of the caller's object unless a later output
covers it, and nothing else of the enclave has changed. -/
theorem outputs_delivered (hn : n ∈ successCalls) (hres : n = .clock_getres → c.a2 ≠ 0)
    (hr : Succeeded n (resultOf v)) (K : Kernel) (u : UMem) :
    ∃ h, ocallCalls (sent c n u) = [h] ∧
      (∀ w ∈ h.writes c K (sent c n u),
        w.size = 0 ∨ ∃ o ∈ h.outputs c K (sent c n u) n, w = ⟨o.src, 0, o.size⟩) ∧
      Delivered c n v (h.outputs c K (sent c n u) n) ∧ Confined c n v := by
  obtain ⟨h, hcase, hparams, hlen, hkind⟩ := unwrapCase_of_success hn
  have hcalls : ocallCalls (sent c n u) = [h] := by
    rw [ocallCalls, hostSysno_sent]
    exact hcase
  have hmem : h ∈ unwrapCase n := hcase ▸ List.mem_singleton_self h
  refine ⟨h, hcalls, ?_, delivered_outputs hn hres hr K u h hmem, ?_⟩
  · rw [HostCall.writes, hparams]
    exact writes_outputs (by simpa [HostCall.argVals, Ctx.args] using hlen) hkind
  · refine confined_of_caller_sizes ?_ ?_ v
    · cases n <;> first | exact absurd hn (by decide) | decide
    · cases n <;> first | exact absurd hn (by decide) | trivial

/-- `getrlimit(7, 4096)` that leaves ones in its buffer. -/
theorem outputs_delivered_getrlimit :
    ∃ h, ocallCalls (sent (Ctx.plain 7 4096 0 0 0 0 fun _ => 0) .getrlimit fun _ _ => 255) = [h] ∧
      Delivered (Ctx.plain 7 4096 0 0 0 0 fun _ => 0) .getrlimit
        (fun q => if q = .buf .arg2 then fun _ => 1 else fun _ => 0)
        (h.outputs (Ctx.plain 7 4096 0 0 0 0 fun _ => 0) linux
          (sent (Ctx.plain 7 4096 0 0 0 0 fun _ => 0) .getrlimit fun _ _ => 255) .getrlimit) := by
  obtain ⟨h, hcalls, -, hdel, -⟩ := outputs_delivered (n := .getrlimit) (by decide)
    (fun h => nomatch h)
    (show Succeeded .getrlimit (resultOf fun q => if q = .buf .arg2 then fun _ => 1 else fun _ => 0)
      from (by decide : ¬ IsError _)) linux fun _ _ => 255
  exact ⟨h, hcalls, hdel⟩

/-- `getresuid(4096, 4096, 4096)` for a process with the identities 1, 2 and 3:
the first arrives and is covered by the third. -/
theorem getresuid_not_delivered :
    ∃ v, resultOf v = 0 ∧ ∃ h ∈ unwrapCase .getresuid,
      ∃ o ∈ h.outputs (Ctx.plain 4096 4096 4096 0 0 0 fun _ => 0) linux (fun _ _ => 0) .getresuid,
        memAfter (Ctx.plain 4096 4096 4096 0 0 0 fun _ => 0) .getresuid v o.dst ≠
          v ((Ctx.plain 4096 4096 4096 0 0 0 fun _ => 0).region o.src) 0 := by
  refine ⟨fun q => if q = .buf .arg1 then le64 1 else if q = .buf .arg2 then le64 2 else
    if q = .buf .arg3 then le64 3 else fun _ => 0, by decide, _, List.mem_singleton_self _,
    ⟨4096, (Ctx.plain 4096 4096 4096 0 0 0 fun _ => 0).addr .arg1, 4⟩, List.mem_cons_self .., ?_⟩
  rw [Ctx.region_addr]
  decide

end Porpoise.Shim
