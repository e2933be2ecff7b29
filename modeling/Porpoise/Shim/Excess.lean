import Porpoise.Shim.CountedReads
import Porpoise.Shim.Present

/-!
# Copies beyond the caller's object

Four calls copy back so many bytes as a structure has, or as the result says, to an object
whose size the caller chose: `fstat`, `accept4`, `recvfrom` and `sched_getaffinity`.

* `SizedCall.objects`: what the caller gave.
* `WritesOnly`: every byte that a copy writes is of these. What it writes there does not
  matter, since another thread may write to it, too.
* `writesOnly_iff`: for which sizes.
-/

namespace Porpoise.Shim

open Porpoise.Lib

variable {c : Ctx} {r : Word} {v : UMem} {p : Word}

inductive SizedCall
  | fstat | accept4 | recvfrom | sched_getaffinity
  deriving DecidableEq

namespace SizedCall

def sysno : SizedCall → Sysno
  | fstat => .fstat
  | accept4 => .accept4
  | recvfrom => .recvfrom
  | sched_getaffinity => .sched_getaffinity

end SizedCall

/-- The room for an address: `*addrlen` before the call. -/
def addrRoom (c : Ctx) : Nat := if c.a3 = 0 then 0 else (load32 (c.mem.at c.a3) 0).toNat

/-- The objects that the caller gave. -/
def SizedCall.objects (c : Ctx) : SizedCall → List Obj
  | fstat => [⟨c.a2, 144⟩]
  | accept4 => optObj c.a2 (addrRoom c) ++ optObj c.a3 4
  | recvfrom => [⟨c.a2, c.a3.toNat⟩]
  | sched_getaffinity => [⟨c.a3, c.a2.toNat⟩]

variable {q : SizedCall}

/-- **The call writes only** to the objects that the caller gave. -/
def WritesOnly (c : Ctx) (q : SizedCall) (v : UMem) : Prop :=
  ∀ x ∈ wrapRecvs c v (wrapMem c q.sysno) q.sysno, ∀ p, x.Writes p → ∃ o ∈ q.objects c, o.Has p

/-- When it does, for a result of the kernel. -/
def writesOnlyWhen (c : Ctx) (r : Word) : SizedCall → Prop
  -- one byte more than the structure has
  | .fstat => False
  -- the room is that of a `struct sockaddr`, or what is beyond it happens to be `*addrlen`
  | .accept4 => c.a2 ≠ 0 → ∀ j < 16, addrRoom c ≤ j →
      c.a3 ≠ 0 ∧ (Obj.mk c.a3 4).Has (c.a2 + BitVec.ofNat 64 j)
  | .recvfrom => 0 < r.toInt → r.toNat ≤ c.a3.toNat
  | .sched_getaffinity => 128 ≤ c.a2.toNat

/-- The results of the four calls: an error number, or what an `int` holds. -/
def IntResult (r : Word) : Prop := IsError r ∨ r.toNat < 2 ^ 31

/-- One copy to the start of an object. -/
theorem recv_writes_has_iff {b : Buf} {dst len : Word} {size : Nat} :
    (∀ p, (recv (.buf b) dst len).Writes p → (Obj.mk dst size).Has p) ↔ memcpyLen len ≤ size := by
  constructor
  · intro h
    by_contra hlt
    have hword : memcpyLen len < 2 ^ 64 := BitVec.isLt _
    -- the first byte after the object
    have hoff : (dst + BitVec.ofNat 64 size - dst).toNat = size := toNat_add_sub dst (by omega)
    have hin : (recv (.buf b) dst len).Writes (dst + BitVec.ofNat 64 size) := by
      show (dst + BitVec.ofNat 64 size - dst).toNat < memcpyLen len
      omega
    have hout : (dst + BitVec.ofNat 64 size - dst).toNat < size := h _ hin
    omega
  · exact fun hle p hp => Nat.lt_of_lt_of_le hp hle

/-- A call with one copy to its one object. -/
theorem writesOnly_one_iff {b : Buf} {dst len : Word} {size : Nat}
    (hrecvs : wrapRecvs c v (wrapMem c q.sysno) q.sysno = [recv (.buf b) dst len])
    (hobj : q.objects c = [⟨dst, size⟩]) : WritesOnly c q v ↔ memcpyLen len ≤ size := by
  have hone : (∀ p, (recv (.buf b) dst len).Writes p → (Obj.mk dst size).Has p) ↔
      memcpyLen len ≤ size := recv_writes_has_iff
  rw [WritesOnly, hrecvs, hobj, ← hone]
  simp

theorem fstat_excess : ¬ WritesOnly c .fstat v := by
  have hrecvs : wrapRecvs c v (wrapMem c .fstat) .fstat =
      [recv (.buf .arg2) c.a2 (sizeofStat + 1)] := rfl
  rw [writesOnly_one_iff (q := .fstat) hrecvs rfl]
  decide

theorem sched_getaffinity_only_iff : WritesOnly c .sched_getaffinity v ↔ 128 ≤ c.a2.toNat := by
  have hrecvs : wrapRecvs c v (wrapMem c .sched_getaffinity) .sched_getaffinity =
      [recv (.buf .arg3) c.a3 sizeofCpuSet] := rfl
  rw [writesOnly_one_iff (q := .sched_getaffinity) hrecvs rfl]
  exact Iff.rfl

theorem recvfrom_only_iff (hv : resultOf v = r) (hr : IntResult r) :
    WritesOnly c .recvfrom v ↔ (0 < r.toInt → r.toNat ≤ c.a3.toNat) := by
  by_cases hpos : 0 < r.toInt
  · have hsmall : r.toNat < 2 ^ 31 := by
      refine hr.resolve_left fun herr => ?_
      have hhigh := herr.2
      omega
    have hrecvs : wrapRecvs c v (wrapMem c .recvfrom) .recvfrom = [recv (.buf .arg2) c.a2 r] := by
      rw [← hv] at hpos ⊢
      exact if_pos hpos
    rw [writesOnly_one_iff (q := .recvfrom) hrecvs rfl, memcpyLen_of_lt hsmall, imp_iff_right hpos]
  · refine iff_of_true (fun x hx => ?_) fun h => absurd h hpos
    have hrecvs : wrapRecvs c v (wrapMem c .recvfrom) .recvfrom = [] := by
      rw [← hv] at hpos
      exact if_neg hpos
    exact absurd (hrecvs ▸ hx) List.not_mem_nil

theorem mem_optObj {o : Obj} {dst : Word} {size : Nat} :
    o ∈ optObj dst size ↔ dst ≠ 0 ∧ o = ⟨dst, size⟩ := by
  by_cases h : dst = 0
  · simp [optObj, h]
  · have h' : ¬ dst = 0#64 := h
    simp [optObj, h']

/-- The sixteen bytes of the address. -/
theorem sockaddr_only_iff (h2 : c.a2 ≠ 0) :
    (∀ p, (recv (.buf .arg2) c.a2 sizeofSockaddr).Writes p →
        ∃ o ∈ SizedCall.objects c .accept4, o.Has p) ↔
      ∀ j < 16, addrRoom c ≤ j → c.a3 ≠ 0 ∧ (Obj.mk c.a3 4).Has (c.a2 + BitVec.ofNat 64 j) := by
  constructor
  · intro h j hj hroom
    have hoff := toNat_add_sub c.a2 (j := j) (by omega)
    obtain ⟨o, ho, hhas⟩ := h (c.a2 + BitVec.ofNat 64 j) (hoff.trans_lt hj)
    rcases List.mem_append.mp ho with ho | ho
    · obtain ⟨-, rfl⟩ := mem_optObj.mp ho
      have hlt : j < addrRoom c := hoff.symm.trans_lt hhas
      omega
    · obtain ⟨h3, rfl⟩ := mem_optObj.mp ho
      exact ⟨h3, hhas⟩
  · intro h p hp
    have hj : (p - c.a2).toNat < 16 := hp
    by_cases hroom : (p - c.a2).toNat < addrRoom c
    · exact ⟨⟨c.a2, addrRoom c⟩, List.mem_append_left _ (mem_optObj.mpr ⟨h2, rfl⟩), hroom⟩
    · obtain ⟨h3, hhas⟩ := h _ hj (Nat.le_of_not_lt hroom)
      rw [add_ofNat_sub] at hhas
      exact ⟨⟨c.a3, 4⟩, List.mem_append_right _ (mem_optObj.mpr ⟨h3, rfl⟩), hhas⟩

theorem accept4_only_iff : WritesOnly c .accept4 v ↔ writesOnlyWhen c r .accept4 := by
  have hlen : ∀ x ∈ if c.a3 ≠ 0 then [recv (.buf .arg3) c.a3 sizeofSocklen] else [],
      ∀ p, x.Writes p → ∃ o ∈ SizedCall.objects c .accept4, o.Has p := by
    rw [forall_mem_ite]
    refine ⟨fun h3 x hx p hp => ?_, fun _ x hx => absurd hx List.not_mem_nil⟩
    obtain rfl := List.mem_singleton.mp hx
    exact ⟨⟨c.a3, 4⟩, List.mem_append_right _ (mem_optObj.mpr ⟨h3, rfl⟩), hp⟩
  show (∀ x ∈ (if c.a2 ≠ 0 then [recv (.buf .arg2) c.a2 sizeofSockaddr] else []) ++ _, _) ↔ _
  rw [List.forall_mem_append, and_iff_left hlen, forall_mem_ite]
  constructor
  · exact fun h h2 => (sockaddr_only_iff h2).mp (h.1 h2 _ (List.mem_singleton_self _))
  · refine fun h => ⟨fun h2 x hx => ?_, fun _ x hx => absurd hx List.not_mem_nil⟩
    obtain rfl := List.mem_singleton.mp hx
    exact (sockaddr_only_iff h2).mpr (h h2)

/-- **Copies back stay inside objects of the caller's size** exactly for these sizes and
results. -/
theorem writesOnly_iff (c : Ctx) (q : SizedCall) (r : Word) (hr : IntResult r) (v : UMem)
    (hv : resultOf v = r) : WritesOnly c q v ↔ writesOnlyWhen c r q := by
  cases q with
  | fstat => exact iff_of_false fstat_excess id
  | accept4 => exact accept4_only_iff
  | recvfrom => exact recvfrom_only_iff hv hr
  | sched_getaffinity => exact sched_getaffinity_only_iff

/-- `recvfrom(3, 4096, 16, 0, NULL, NULL)` that receives sixteen bytes. -/
theorem writesOnly_recvfrom : IntResult 16 ∧
    WritesOnly (Ctx.plain 3 4096 16 0 0 0 fun _ => 0) .recvfrom
      ((put .arg0 16).apply fun _ _ => 0) := by
  have hwhen : writesOnlyWhen (Ctx.plain 3 4096 16 0 0 0 fun _ => 0) 16 .recvfrom :=
    fun _ => show (16#64).toNat ≤ (16#64).toNat from le_rfl
  have hresult : IntResult 16 := .inr (by decide)
  exact ⟨hresult, (writesOnly_iff _ .recvfrom 16 hresult _ (resultOf_put _ _)).mpr hwhen⟩

/-- `fstat(1, 4096)`; `accept4(3, 4096, 8192, 0)` with room for no address; a datagram of a
hundred bytes that `recvfrom(3, 4096, 1, MSG_TRUNC, NULL, NULL)` reports; and
`sched_getaffinity(0, 8, 4096)`. -/
theorem writes_beyond :
    ¬ WritesOnly (Ctx.plain 1 4096 0 0 0 0 fun _ => 0) .fstat ((put .arg0 0).apply fun _ _ => 0) ∧
      ¬ WritesOnly (Ctx.plain 3 4096 8192 0 0 0 fun _ => 0) .accept4
        ((put .arg0 4).apply fun _ _ => 0) ∧
      ¬ WritesOnly (Ctx.plain 3 4096 1 0x20 0 0 fun _ => 0) .recvfrom
        ((put .arg0 100).apply fun _ _ => 0) ∧
      ¬ WritesOnly (Ctx.plain 0 8 4096 0 0 0 fun _ => 0) .sched_getaffinity
        ((put .arg0 8).apply fun _ _ => 0) := by
  refine ⟨fstat_excess, fun h => ?_, fun h => ?_, fun h => ?_⟩
  · have hwhen := (accept4_only_iff (r := 4)).mp h (show (4096 : Word) ≠ 0 by decide) 0 (by decide)
    exact absurd (hwhen (by decide)).2 (by unfold Obj.Has; decide)
  · have hlen : (100#64).toNat ≤ (1#64).toNat :=
      (recvfrom_only_iff (resultOf_put _ _) (.inr (by decide))).mp h (by decide)
    exact absurd hlen (by decide)
  · have hlen : 128 ≤ (8#64).toNat := sched_getaffinity_only_iff.mp h
    exact absurd hlen (by decide)

end Porpoise.Shim
