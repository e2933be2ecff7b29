import Porpoise.Shim.Result

/-!
# Transfers to and from the slot

Three things move bytes in a call: the enclave's copies before the ocall, the
kernel's writes behind the pointers it was given, and the enclave's copies after
it. `Inside` says that none of them leaves its buffer and that no length turns
negative on its way through `int len`.

* `HostCall.writes` is the most that the kernel writes for a call of the host.
* `Returned` is what is known of untrusted memory when an ocall returns: the
  result is one that the kernel can give, and only the kernel's writes and
  `arg0` have changed.
* `inside_iff_of_phases` takes a call with one ocall apart.
-/

namespace Porpoise.Shim

open Porpoise.Lib

/-! ## What the kernel writes -/

/-- A write of the kernel. -/
structure KWrite where
  ptr : Word
  /-- Where behind the pointer; 0 but for the fields of structures. -/
  off : Nat
  size : Nat

/-- The segments that `readv` and `recvmsg` fill; an array with a negative
length is refused. -/
def segWrites (mem : Word → Bytes) (p : Word) (n : Nat) : List KWrite :=
  if n ≤ 1024 ∧ ∀ i < n, 0 ≤ (load64 (mem p) (16 * i + 8)).toInt then
    (List.range n).map fun i =>
      ⟨load64 (mem p) (16 * i), 0, min (load64 (mem p) (16 * i + 8)).toNat 0x7ffff000⟩
  else []

/-- What `recvmsg` writes: the lengths and the flags of the header, the name, the
segments and the control data. The length of no control data stays 0. -/
def msgWrites (mem : Word → Bytes) (p : Word) : List KWrite :=
  let h := mem p
  [⟨p, 8, 4⟩, ⟨p, 48, 4⟩] ++ (if load64 h 40 = 0 then [] else [⟨p, 40, 8⟩]) ++
  (if load64 h 0 = 0 then [] else [⟨load64 h 0, 0, min (load32 h 8).toNat 128⟩]) ++
  segWrites mem (load64 h 16) (load64 h 24).toNat ++
  if load64 h 32 = 0 then [] else [⟨load64 h 32, 0, (load64 h 40).toNat⟩]

/-- The most that is written behind one argument. -/
def Param.writes (x : KArgs) : Param → Word → List KWrite
  | .obj _ write, p => if p = 0 then [] else [⟨p, 0, write x⟩]
  | .iov data cnt, p => if p = 0 ∨ data then [] else segWrites x.mem p (x.int cnt).toNat
  | .msg data, p => if p = 0 ∨ data then [] else msgWrites x.mem p
  | _, _ => []

namespace HostCall

variable (c : Ctx) (K : Kernel) (u : UMem) (h : HostCall)

def argVals : List Word := h.args.map (·.eval c u)

def kargs : KArgs := Shim.kargs K h.fn (h.argVals c u) fun p => u (c.region p)

/-- The kernel's writes for a call of the host. -/
def writes : List KWrite :=
  (List.zipWith (Param.writes (h.kargs c K u)) (params h.fn) (h.argVals c u)).flatten

end HostCall

/-- The largest result that is no error number. -/
def maxResult (x : KArgs) : HostFn → Nat
  | .syscall .read | .syscall .pread64 => x.rwCount 2
  -- with `MSG_TRUNC` the length of the datagram
  | .syscall .recvfrom =>
      max (min (x.val 2).toNat 0x7ffff000)
        (if x.val 3 &&& 0x20 ≠ 0 then x.kernel.maxDatagram else 0)
  | .syscall .readlink => min (x.val 2).toNat 4096
  | .syscall .readlinkat => min (x.val 3).toNat 4096
  | .syscall .getdents64 => ((x.val 2).setWidth 32).toNat
  | .syscall .epoll_pwait => x.epollLen / 12
  | .syscall .getrandom => (x.val 1).toNat
  | _ => 2 ^ 64 - 1

/-- The results that the kernel gives. -/
def Allowed (x : KArgs) (fn : HostFn) (r : Word) : Prop := IsError r ∨ r.toNat ≤ maxResult x fn

/-- Untrusted memory `v` when an ocall that started from `u` returns. For
`syscall` the result in `arg0` is the kernel's (`ocallSyscall_spec`). -/
structure Returned (c : Ctx) (K : Kernel) (calls : List HostCall) (u v : UMem) : Prop where
  result : ∀ h ∈ calls.getLast?, Allowed (h.kargs c K u) h.fn (resultOf v)
  frame : ∀ r i, r ≠ .buf .arg0 →
    (∀ h ∈ calls, ∀ w ∈ h.writes c K u,
      ¬ (c.region w.ptr = r ∧ w.off ≤ i ∧ i < w.off + w.size)) → v r i = u r i

/-! ## Transfers inside the buffers -/

/-- A length that stays in a buffer as it is received. -/
def Fits (len : Word) : Prop := memcpyLen len ≤ bufSize

/-- A length that does not turn negative. -/
def NonNeg (len : Word) : Prop := memcpyLen len < 2 ^ 31

/-- A copy to untrusted memory. Assignments are not copies. -/
def Store.Inside (s : Store) : Prop :=
  s.copy = true → s.size < 2 ^ 31 ∧ ∀ b, s.dst = .buf b → s.off + s.size ≤ bufSize

def Recv.Inside (r : Recv) : Prop :=
  r.copy = true → r.size < 2 ^ 31 ∧ ∀ b, r.src = .buf b → r.off + r.size ≤ bufSize

def KWrite.Inside (c : Ctx) (w : KWrite) : Prop :=
  ∀ b, c.region w.ptr = .buf b → w.off + w.size ≤ bufSize

/-- The transfers of the ocalls that are left, and of the copies back. -/
def InsideFrom (c : Ctx) (K : Kernel) (n : Sysno) : List (List Store) → UMem → Prop
  | [], v => ∀ r ∈ wrapRecvs c v (wrapMem c n) n, r.Inside
  | ss :: rest, u =>
      (∀ s ∈ ss, s.Inside) ∧
      (∀ h ∈ ocallCalls (applyAll ss u), ∀ w ∈ h.writes c K (applyAll ss u), w.Inside c) ∧
      ∀ v, Returned c K (ocallCalls (applyAll ss u)) (applyAll ss u) v → InsideFrom c K n rest v

/-- Every transfer of a call stays inside, whatever the slot held and whatever
the kernel answers. -/
def Inside (c : Ctx) (K : Kernel) (n : Sysno) : Prop :=
  (sendNr n).Inside ∧ ∀ u, InsideFrom c K n (wrapPhases c n) ((sendNr n).apply u)

variable {c : Ctx} {K : Kernel} {n : Sysno} {u v : UMem}

theorem Fits.nonNeg {len : Word} (h : Fits len) : NonNeg len := by
  unfold Fits bufSize at h
  unfold NonNeg
  omega

theorem fits_iff (len : Word) : Fits len ↔ len.toNat % 2 ^ 32 ≤ bufSize := by
  unfold Fits bufSize
  rw [memcpyLen_eq]
  split <;> omega

/-- A constant that fits. -/
@[simp] theorem fits_ofNat {k : Nat} (hk : k ≤ 81920) : Fits (BitVec.ofNat 64 k) := by
  rw [fits_iff, BitVec.toNat_ofNat, bufSize]
  omega

@[simp] theorem nonNeg_ofNat {k : Nat} (hk : k ≤ 81920) : NonNeg (BitVec.ofNat 64 k) :=
  (fits_ofNat hk).nonNeg

/-- An assignment is no copy. -/
@[simp] theorem store_inside (r : Region) (o k : Nat) (f : Bytes) :
    (Store.mk r o k f false).Inside := fun h => nomatch h

theorem ite_inside {p : Prop} [Decidable p] {s t : Store} :
    (if p then s else t).Inside ↔ (p → s.Inside) ∧ (¬ p → t.Inside) := by
  by_cases h : p <;> simp [h]

theorem send_inside (r : Region) (f : Bytes) (len : Word) :
    (send r f len).Inside ↔ NonNeg len ∧ ∀ b, r = .buf b → Fits len := by
  constructor
  · intro h
    obtain ⟨hsize, hbuf⟩ := h rfl
    refine ⟨hsize, fun b hb => ?_⟩
    have hle := hbuf b hb
    rwa [show (send r f len).off = 0 from rfl, Nat.zero_add] at hle
  · rintro ⟨hsize, hbuf⟩ -
    refine ⟨hsize, fun b hb => ?_⟩
    rw [show (send r f len).off = 0 from rfl, Nat.zero_add]
    exact hbuf b hb

@[simp] theorem send_buf_inside (b : Buf) (f : Bytes) (len : Word) :
    (send (.buf b) f len).Inside ↔ Fits len := by
  rw [send_inside]
  exact ⟨fun h => h.2 b rfl, fun h => ⟨h.nonNeg, fun _ _ => h⟩⟩

@[simp] theorem send_heap_inside (p : Word) (f : Bytes) (len : Word) :
    (send (.heap p) f len).Inside ↔ NonNeg len := by
  rw [send_inside]
  exact ⟨fun h => h.1, fun h => ⟨h, fun _ hb => nomatch hb⟩⟩

@[simp] theorem sendLong_inside (b : Buf) (w : Word) : (sendLong b w).Inside :=
  (send_buf_inside b (le64 w) 8).mpr (fits_ofNat (by decide))

@[simp] theorem sendInt_inside (b : Buf) (w : Word) : (sendInt b w).Inside :=
  (send_buf_inside b (le64 w) 4).mpr (fits_ofNat (by decide))

@[simp] theorem sendIntAsLong_inside (b : Buf) (w : Word) : (sendIntAsLong c b w).Inside :=
  (send_buf_inside b _ 8).mpr (fits_ofNat (by decide))

@[simp] theorem sendAddr_inside (b b' : Buf) : (sendAddr c b b').Inside := sendLong_inside b _

@[simp] theorem sendNullPtr_inside : (sendNullPtr c).Inside :=
  (send_buf_inside .arg7 c.stack 1).mpr (fits_ofNat (by decide))

@[simp] theorem sendMem_inside (b : Buf) (p len : Word) : (sendMem c b p len).Inside ↔ Fits len :=
  send_buf_inside b _ len

@[simp] theorem sendPath_inside (b : Buf) (p : Word) :
    (sendPath c b p).Inside ↔ Fits (pathLen c p) := sendMem_inside b p _

@[simp] theorem put_inside (b : Buf) (w : Word) : (put b w).Inside := store_inside _ _ _ _

@[simp] theorem putAt_inside (r : Region) (o : Nat) (w : Word) : (putAt r o w).Inside :=
  store_inside _ _ _ _

@[simp] theorem putIntAt_inside (r : Region) (o : Nat) (w : Word) : (putIntAt r o w).Inside :=
  store_inside _ _ _ _

theorem recv_inside (r : Region) (dst len : Word) :
    (recv r dst len).Inside ↔ NonNeg len ∧ ∀ b, r = .buf b → Fits len := by
  constructor
  · intro h
    obtain ⟨hsize, hbuf⟩ := h rfl
    refine ⟨hsize, fun b hb => ?_⟩
    have hle := hbuf b hb
    rwa [show (recv r dst len).off = 0 from rfl, Nat.zero_add] at hle
  · rintro ⟨hsize, hbuf⟩ -
    refine ⟨hsize, fun b hb => ?_⟩
    rw [show (recv r dst len).off = 0 from rfl, Nat.zero_add]
    exact hbuf b hb

@[simp] theorem recv_buf_inside (b : Buf) (dst len : Word) :
    (recv (.buf b) dst len).Inside ↔ Fits len := by
  rw [recv_inside]
  exact ⟨fun h => h.2 b rfl, fun h => ⟨h.nonNeg, fun _ _ => h⟩⟩

@[simp] theorem recv_heap_inside (p dst len : Word) :
    (recv (.heap p) dst len).Inside ↔ NonNeg len := by
  rw [recv_inside]
  exact ⟨fun h => h.1, fun h => ⟨h, fun _ hb => nomatch hb⟩⟩

/-- A write behind the address of a buffer. -/
@[simp] theorem kwrite_addr_inside (b : Buf) (o k : Nat) :
    (KWrite.mk (c.addr b) o k).Inside c ↔ o + k ≤ bufSize := by
  unfold KWrite.Inside
  rw [c.region_addr]
  exact ⟨fun h => h b rfl, fun h _ _ => h⟩

/-- A write that no buffer is too small for. -/
@[simp] theorem kwrite_inside_of_le {p : Word} {o k : Nat} (h : o + k ≤ 81920) :
    (KWrite.mk p o k).Inside c := fun _ _ => h

/-- A write elsewhere is no write to the slot. -/
theorem kwrite_inside_of_heap {w : KWrite} (h : c.region w.ptr = .heap w.ptr) : w.Inside c := by
  intro b hb
  rw [h] at hb
  exact nomatch hb

/-! ## Calls with one ocall -/

theorem inside_sendNr (n : Sysno) : (sendNr n).Inside := sendLong_inside .arg0 _

theorem inside_of_no_phases (h : wrapPhases c n = [])
    (hrecvs : ∀ v, wrapRecvs c v (wrapMem c n) n = []) : Inside c K n := by
  refine ⟨inside_sendNr n, fun u => ?_⟩
  rw [h]
  intro r hr
  rw [hrecvs] at hr
  exact absurd hr List.not_mem_nil

/-- **One ocall.** The copies to the slot, the kernel's writes and the copies
back are decided one after the other. -/
theorem inside_iff_of_phases (h : wrapPhases c n = [wrapSends c n]) :
    Inside c K n ↔
      (∀ s ∈ wrapSends c n, s.Inside) ∧
      (∀ u, ∀ h ∈ unwrapCase n, ∀ w ∈ h.writes c K (sent c n u), w.Inside c) ∧
      ∀ u v, Returned c K (unwrapCase n) (sent c n u) v →
        ∀ r ∈ wrapRecvs c v (wrapMem c n) n, r.Inside := by
  have hcalls : ∀ u, ocallCalls (applyAll (wrapSends c n) ((sendNr n).apply u)) = unwrapCase n := by
    intro u
    rw [← sent, ocallCalls, hostSysno_sent]
  unfold Inside
  rw [h]
  simp only [InsideFrom, hcalls]
  constructor
  · rintro ⟨-, hin⟩
    exact ⟨(hin fun _ _ => 0).1, fun u => (hin u).2.1, fun u => (hin u).2.2⟩
  · rintro ⟨hsends, hwrites, hrecvs⟩
    exact ⟨inside_sendNr n, fun u => ⟨hsends, hwrites u, hrecvs u⟩⟩

/-- The kernel can answer with any result that it allows and write nothing. -/
theorem returned_put {calls : List HostCall} {r : Word}
    (h : ∀ h ∈ calls.getLast?, Allowed (h.kargs c K u) h.fn r) :
    Returned c K calls u ((put .arg0 r).apply u) where
  result h' hh := by
    rw [resultOf_put]
    exact h h' hh
  frame r' i hne _ := by
    rw [put_apply, if_neg hne]

/-- What depends on the result only holds of what the kernel returns exactly
when it holds of every allowed result. -/
theorem forall_returned_iff {h : HostCall} {P : Word → Prop} :
    (∀ v, Returned c K [h] u v → P (resultOf v)) ↔
      ∀ r, Allowed (h.kargs c K u) h.fn r → P r := by
  constructor
  · intro hret r hr
    have hput := hret _ (returned_put (r := r) fun h' hh => by
      rw [List.getLast?_singleton, Option.mem_some_iff] at hh
      rwa [← hh])
    rwa [resultOf_put] at hput
  · intro hall v hv
    exact hall _ (hv.result h (by simp))

end Porpoise.Shim
