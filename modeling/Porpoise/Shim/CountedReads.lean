import Porpoise.Shim.Pselect

/-!
# Copies as long as the result

The result of a call that fills a buffer is a count, or an error number. The enclave reads
it from `arg0` as a `long`, a `size_t`, an `int` or an `unsigned int`, multiplies it by the
size of an element for `epoll_pwait`, and copies so many bytes back.

* `counted_delivered`: `read`, `readlink`, `getrandom` and `epoll_pwait` copy for positive
  counts only, and then what was counted.
* `copiesRight_iff`: `pread64`, `readlinkat` and `getdents64` copy for error numbers, too.
-/

namespace Porpoise.Shim

open Porpoise.Lib

variable {c : Ctx} {r : Word} {v : UMem} {W : Nat → Byte} {m : Mem} {k : Nat}

/-! ## Counted copies -/

inductive CountedCall
  | read | readlink | getrandom | epoll_pwait
  deriving DecidableEq

namespace CountedCall

def sysno : CountedCall → Sysno
  | read => .read
  | readlink => .readlink
  | getrandom => .getrandom
  | epoll_pwait => .epoll_pwait

/-- The buffer of the slot that the kernel fills, and the caller's. -/
def slot : CountedCall → Buf
  | getrandom => .arg1
  | _ => .arg2

/-- The place of the pointer among the kernel's arguments. -/
def place : CountedCall → Nat
  | getrandom => 0
  | _ => 1

def ptr (c : Ctx) : CountedCall → Word
  | getrandom => c.a1
  | _ => c.a2

/-- The bytes of one element. -/
def unit : CountedCall → Nat
  | epoll_pwait => 12
  | _ => 1

/-- The size of the caller's buffer. -/
def room (c : Ctx) : CountedCall → Nat
  | read | readlink => c.a3.toNat
  | getrandom => c.a2.toNat
  | epoll_pwait => 12 * intCount c.a3

/-- When the case copies. -/
def copies (r : Word) : CountedCall → Prop
  | read | readlink => 0 < r.toInt
  | getrandom | epoll_pwait => 0 < (r.setWidth 32).toInt

instance : (q : CountedCall) → Decidable (q.copies r)
  | read | readlink => inferInstanceAs (Decidable (0 < r.toInt))
  | getrandom | epoll_pwait => inferInstanceAs (Decidable (0 < (r.setWidth 32).toInt))

/-- The length that it passes to `recv_user`. -/
def copied (r : Word) : CountedCall → Word
  | read | readlink => r
  | getrandom => (r.setWidth 32).signExtend 64
  | epoll_pwait => (r.setWidth 32).signExtend 64 * sizeofEpollEvent

end CountedCall

variable {q : CountedCall}

/-- **The kernel** has returned `r`, an error number or a count that the caller's buffer
has room for, and filled the buffer of the slot with `W` so far. -/
structure Counted (c : Ctx) (q : CountedCall) (r : Word) (W : Nat → Byte) (v : UMem) : Prop where
  result : resultOf v = r
  allowed : IsError r ∨ q.unit * r.toNat ≤ q.room c
  bytes : ∀ j < q.unit * bytesRead r, v (.buf q.slot) j = W j

/-- Enclave memory with the counted bytes in the caller's buffer. -/
def countedMem (c : Ctx) (q : CountedCall) (r : Word) (W : Nat → Byte) : Mem := fun p =>
  if (p - q.ptr c).toNat < q.unit * bytesRead r then W (p - q.ptr c).toNat else c.mem p

theorem bytesRead_of_error (h : IsError r) : bytesRead r = 0 := if_pos h

theorem bytesRead_of_not_error (h : ¬ IsError r) : bytesRead r = r.toNat := if_neg h

/-- The kernel fills the buffer of the slot. -/
theorem counted_passed (q : CountedCall) (c : Ctx) (u : UMem) :
    hostArg c q.sysno u q.place = c.addr q.slot := by
  cases q <;> rfl

theorem wrapRecvs_counted (q : CountedCall) (c : Ctx) (v : UMem) (m : Mem) :
    wrapRecvs c v m q.sysno = if q.copies (resultOf v) then
      [recv (.buf q.slot) (q.ptr c) (q.copied (resultOf v))] else [] := by
  cases q <;> rfl

/-- A count that a buffer has room for, in four bytes. -/
theorem toNat_setWidth_small (h : r.toNat < 2 ^ 31) : (r.setWidth 32).toNat = r.toNat := by
  rw [BitVec.toNat_setWidth, Nat.mod_eq_of_lt (by omega)]

theorem toInt_small (h : r.toNat < 2 ^ 31) : r.toInt = r.toNat :=
  BitVec.toInt_eq_toNat_of_lt (by omega)

theorem toInt_setWidth_small (h : r.toNat < 2 ^ 31) : (r.setWidth 32).toInt = r.toNat := by
  have hlow := toNat_setWidth_small h
  rw [BitVec.toInt_eq_toNat_of_lt (by omega), hlow]

/-- The case copies for positive counts. -/
theorem copies_iff (hsmall : r.toNat < 2 ^ 31) : q.copies r ↔ 0 < r.toNat := by
  have hlong := toInt_small hsmall
  have hint := toInt_setWidth_small hsmall
  cases q with
  | read | readlink =>
      show 0 < r.toInt ↔ _
      omega
  | getrandom | epoll_pwait =>
      show 0 < (r.setWidth 32).toInt ↔ _
      omega

theorem not_copies_of_error (h : IsError r) : ¬ q.copies r := by
  have hint := toInt_setWidth_of_isError h
  have hlong := h.2
  cases q with
  | read | readlink =>
      show ¬ 0 < r.toInt
      omega
  | getrandom | epoll_pwait =>
      show ¬ 0 < (r.setWidth 32).toInt
      omega

/-- A small count survives the way through `int`. -/
theorem toNat_signExtend_small (h : r.toNat < 2 ^ 31) :
    ((r.setWidth 32).signExtend 64).toNat = r.toNat := by
  have hlow := toNat_setWidth_small h
  have hmsb : (r.setWidth 32).msb = false := by
    rw [BitVec.msb_eq_false_iff_two_mul_lt]
    omega
  rw [BitVec.toNat_signExtend, hmsb, BitVec.toNat_setWidth, hlow]
  simp only [Bool.false_eq_true, if_false]
  omega

/-- The copy is as long as what was counted. -/
theorem memcpyLen_copied (h : q.unit * r.toNat ≤ bufSize) :
    memcpyLen (q.copied r) = q.unit * r.toNat := by
  rw [bufSize] at h
  cases q with
  | read | readlink =>
      have hr : 1 * r.toNat ≤ 8192 * 10 := h
      exact (memcpyLen_of_lt (show r.toNat < 2 ^ 31 by omega)).trans (Nat.one_mul _).symm
  | getrandom =>
      have hr : 1 * r.toNat ≤ 8192 * 10 := h
      have hext := toNat_signExtend_small (r := r) (by omega)
      exact (memcpyLen_of_lt (show ((r.setWidth 32).signExtend 64).toNat < 2 ^ 31 by omega)).trans
        (hext.trans (Nat.one_mul _).symm)
  | epoll_pwait =>
      have hr : 12 * r.toNat ≤ 8192 * 10 := h
      have hext := toNat_signExtend_small (r := r) (by omega)
      have hmul : (12 : Word).toNat * ((r.setWidth 32).signExtend 64).toNat = 12 * r.toNat := by
        rw [hext]
        rfl
      rw [CountedCall.copied, BitVec.mul_comm]
      exact (memcpyLen_mul (k := 12) (by omega)).trans hmul

/-- One copy of `k` bytes. -/
theorem recv_apply_filled {b : Buf} {dst len : Word} (hlen : memcpyLen len = k)
    (hW : ∀ j < k, v (.buf b) j = W j) :
    (recv (.buf b) dst len).apply v m =
      fun p => if (p - dst).toNat < k then W (p - dst).toNat else m p := by
  funext p
  rw [recv_apply_eq, hlen]
  exact ite_congr rfl (hW _) fun _ => rfl

theorem wrapMem_of_counted (q : CountedCall) (c : Ctx) : wrapMem c q.sysno = c.mem := by
  cases q <;> rfl

theorem memAfter_counted (hroom : q.room c ≤ bufSize) (h : Counted c q r W v) :
    memAfter c q.sysno v = countedMem c q r W := by
  have hbytes := h.bytes
  rw [memAfter, wrapMem_of_counted, wrapRecvs_counted, h.result]
  by_cases herr : IsError r
  · rw [if_neg (not_copies_of_error herr), applyRecvs_nil]
    funext p
    rw [countedMem, bytesRead_of_error herr, Nat.mul_zero, if_neg (Nat.not_lt_zero _)]
  · have hfit := h.allowed.resolve_left herr
    have hunit : 1 ≤ q.unit := by cases q <;> decide
    have hmul : r.toNat ≤ q.unit * r.toNat := Nat.le_mul_of_pos_left _ hunit
    have hsmall : r.toNat < 2 ^ 31 := by
      rw [bufSize] at hroom
      omega
    rw [bytesRead_of_not_error herr] at hbytes
    by_cases hpos : 0 < r.toNat
    · rw [if_pos ((copies_iff hsmall).mpr hpos), applyRecvs_cons, applyRecvs_nil,
        recv_apply_filled (memcpyLen_copied (hfit.trans hroom)) hbytes]
      funext p
      rw [countedMem, bytesRead_of_not_error herr]
    · rw [if_neg (fun hc => hpos ((copies_iff hsmall).mp hc)), applyRecvs_nil]
      funext p
      have hzero : q.unit * bytesRead r = 0 := by
        rw [bytesRead_of_not_error herr, Nat.eq_zero_of_not_pos hpos, Nat.mul_zero]
      rw [countedMem, hzero, if_neg (Nat.not_lt_zero _)]

/-- **Counted reads.** For every buffer that fits the slot, every result and every slot
content: the kernel gets the buffer of the slot, the counted bytes are in the caller's
buffer, and every other byte of the enclave is as before. -/
theorem counted_delivered (c : Ctx) (q : CountedCall) (hroom : q.room c ≤ bufSize)
    (r : Word) (W : Nat → Byte) (v : UMem) (h : Counted c q r W v) :
    (∀ u, hostArg c q.sysno u q.place = c.addr q.slot) ∧
      memAfter c q.sysno v = countedMem c q r W :=
  ⟨counted_passed q c, memAfter_counted hroom h⟩

/-- `read(3, 4096, 16)`. -/
def readSixteen : Ctx := Ctx.plain 3 4096 16 0 0 0 fun _ => 0

/-- Sixteen ones were read. -/
def sixteenOnes : UMem := fun q => if q = .buf .arg0 then le64 16 else fun _ => 1

theorem counted_delivered_read : Counted readSixteen .read 16 (fun _ => 1) sixteenOnes ∧
    (∀ u, hostArg readSixteen .read u 1 = readSixteen.addr .arg2) ∧
      memAfter readSixteen .read sixteenOnes = countedMem readSixteen .read 16 fun _ => 1 := by
  have hcounted : Counted readSixteen .read 16 (fun _ => 1) sixteenOnes :=
    ⟨by decide, .inr (show 1 * (16#64).toNat ≤ (16#64).toNat by decide), fun _ _ => rfl⟩
  have hroom : CountedCall.room readSixteen .read ≤ bufSize :=
    show (16#64).toNat ≤ 8192 * 10 by decide
  exact ⟨hcounted, counted_delivered _ .read hroom _ _ _ hcounted⟩

/-! ## Error numbers as lengths -/

inductive ErrnoCall
  | pread64 | readlinkat | getdents64
  deriving DecidableEq

namespace ErrnoCall

def sysno : ErrnoCall → Sysno
  | pread64 => .pread64
  | readlinkat => .readlinkat
  | getdents64 => .getdents64

/-- The size of the caller's buffer. -/
def room (c : Ctx) : ErrnoCall → Nat
  | pread64 => c.a3.toNat
  | readlinkat => c.a4.toNat
  | getdents64 => (c.a3.setWidth 32).toNat

/-- When the case copies. -/
def copies (r : Word) : ErrnoCall → Prop
  | pread64 => True
  | readlinkat => r ≠ -1
  | getdents64 => 0 < (r.setWidth 32).toNat

instance : (e : ErrnoCall) → Decidable (e.copies r)
  | pread64 => inferInstanceAs (Decidable True)
  | readlinkat => inferInstanceAs (Decidable (r ≠ -1))
  | getdents64 => inferInstanceAs (Decidable (0 < (r.setWidth 32).toNat))

end ErrnoCall

variable {e : ErrnoCall}

/-- The kernel's results: an error number, or a count that the buffer has room for and an
`int` holds. -/
def CountResult (c : Ctx) (e : ErrnoCall) (r : Word) : Prop :=
  IsError r ∨ r.toNat ≤ min (e.room c) 0x7fffffff

/-- What `memcpy` is to copy is what was counted, and nothing when there is nothing. -/
def CopiesRight (c : Ctx) (e : ErrnoCall) (v : UMem) : Prop :=
  if 0 < (resultOf v).toInt then
    (wrapRecvs c v (wrapMem c e.sysno) e.sysno).map Recv.size = [(resultOf v).toNat] ∧
      (resultOf v).toNat ≤ e.room c
  else ∀ x ∈ wrapRecvs c v (wrapMem c e.sysno) e.sysno, x.size = 0

/-- The results for which it is. `readlinkat` asks for `-1`, which is the error number of
`EPERM`. -/
def copiesWhen (r : Word) : ErrnoCall → Prop
  | .pread64 | .getdents64 => ¬ IsError r
  | .readlinkat => ¬ IsError r ∨ r = -1

/-- An error number as a length: almost `2 ^ 64`. -/
theorem memcpyLen_of_error (h : IsError r) : memcpyLen r = r.toNat ∧ 2 ^ 63 < r.toNat := by
  obtain ⟨hlow, hhigh⟩ := h
  rw [BitVec.toInt_eq_toNat_cond] at hlow hhigh
  rw [memcpyLen_eq]
  split at hlow <;> split <;> omega

theorem memcpyLen_setWidth (r : Word) : memcpyLen ((r.setWidth 32).setWidth 64) = memcpyLen r := by
  have hlow : ((r.setWidth 32).setWidth 64).setWidth 32 = r.setWidth 32 := by simp
  rw [memcpyLen, hlow]
  rfl

theorem toNat_setWidth_pos (h : IsError r) : 0 < (r.setWidth 32).toNat := by
  obtain ⟨hlow, hhigh⟩ := h
  rw [BitVec.toInt_eq_toNat_cond] at hlow hhigh
  rw [BitVec.toNat_setWidth]
  split at hlow <;> omega

/-- It copies so many bytes as `memcpy` makes of the result. -/
theorem sizes_errno (e : ErrnoCall) (hv : resultOf v = r) :
    (wrapRecvs c v m e.sysno).map Recv.size = if e.copies r then [memcpyLen r] else [] := by
  subst hv
  cases e with
  | pread64 => rfl
  | readlinkat =>
      show List.map _ (if resultOf v ≠ -1 then _ else _) = if resultOf v ≠ -1 then _ else _
      split <;> rfl
  | getdents64 =>
      show List.map _ (if 0 < ((resultOf v).setWidth 32).toNat then _ else _) =
        if 0 < ((resultOf v).setWidth 32).toNat then _ else _
      split
      · exact congrArg (fun k => [k]) (memcpyLen_setWidth _)
      · rfl

theorem copiesRight_pos_iff (hv : resultOf v = r) (hpos : 0 < r.toInt) :
    CopiesRight c e v ↔ (e.copies r ∧ memcpyLen r = r.toNat) ∧ r.toNat ≤ e.room c := by
  rw [CopiesRight, hv, if_pos hpos, sizes_errno e hv]
  by_cases hcopies : e.copies r
  · rw [if_pos hcopies, List.singleton_inj, and_iff_right hcopies]
  · rw [if_neg hcopies]
    exact iff_of_false (fun h => List.cons_ne_nil _ _ h.1.symm) fun h => hcopies h.1.1

theorem copiesRight_nonpos_iff (hv : resultOf v = r) (hneg : ¬ 0 < r.toInt) :
    CopiesRight c e v ↔ (e.copies r → memcpyLen r = 0) := by
  have hsizes : CopiesRight c e v ↔
      ∀ k ∈ (wrapRecvs c v (wrapMem c e.sysno) e.sysno).map Recv.size, k = 0 := by
    rw [CopiesRight, hv, if_neg hneg, List.forall_mem_map]
  rw [hsizes, sizes_errno e hv]
  by_cases hcopies : e.copies r
  · rw [if_pos hcopies, List.forall_mem_singleton, imp_iff_right hcopies]
  · rw [if_neg hcopies]
    exact iff_of_true (fun _ hk => absurd hk List.not_mem_nil) fun h => absurd h hcopies

/-- The copies for a count. -/
theorem copiesRight_of_count (hv : resultOf v = r) (hr : r.toNat ≤ min (e.room c) 0x7fffffff) :
    CopiesRight c e v := by
  have hsmall : r.toNat < 2 ^ 31 := by omega
  have hint := toInt_small hsmall
  have hlen := memcpyLen_of_lt hsmall
  by_cases hpos : 0 < r.toInt
  · refine (copiesRight_pos_iff hv hpos).mpr ⟨⟨?_, hlen⟩, hr.trans (Nat.min_le_left _ _)⟩
    cases e with
    | pread64 => trivial
    | readlinkat =>
        rintro rfl
        exact absurd hpos (by decide)
    | getdents64 =>
        show 0 < (r.setWidth 32).toNat
        rw [toNat_setWidth_small hsmall]
        omega
  · exact (copiesRight_nonpos_iff hv hpos).mpr fun _ => by omega

/-- An error number is copied but for the one that `readlinkat` asks for. -/
theorem copies_error_iff (hr : IsError r) : e.copies r ↔ ¬ (e = .readlinkat ∧ r = -1) := by
  cases e with
  | pread64 => exact iff_of_true trivial fun h => ErrnoCall.noConfusion h.1
  | readlinkat => exact ⟨fun hne h => hne h.2, fun h hone => h ⟨rfl, hone⟩⟩
  | getdents64 => exact iff_of_true (toNat_setWidth_pos hr) fun h => ErrnoCall.noConfusion h.1

/-- The copies for an error number. -/
theorem copiesRight_error_iff (hv : resultOf v = r) (hr : IsError r) :
    CopiesRight c e v ↔ e = .readlinkat ∧ r = -1 := by
  obtain ⟨hlen, hbig⟩ := memcpyLen_of_error hr
  have hneg : ¬ 0 < r.toInt := by
    have hhigh := hr.2
    omega
  have hne : memcpyLen r ≠ 0 := by omega
  rw [copiesRight_nonpos_iff hv hneg, copies_error_iff hr, ← not_iff_not, Classical.not_imp,
    and_iff_left hne]

/-- **No copy with an error number as its length**, but for the calls and results that
`copiesWhen` leaves out. -/
theorem copiesRight_iff (c : Ctx) (e : ErrnoCall) (r : Word) (hr : CountResult c e r) (v : UMem)
    (hv : resultOf v = r) : CopiesRight c e v ↔ copiesWhen r e := by
  by_cases herr : IsError r
  · rw [copiesRight_error_iff hv herr]
    cases e with
    | pread64 | getdents64 =>
        exact iff_of_false (fun h => ErrnoCall.noConfusion h.1) fun h => h herr
    | readlinkat => exact ⟨fun h => .inr h.2, fun h => ⟨rfl, h.resolve_left fun hn => hn herr⟩⟩
  · refine iff_of_true (copiesRight_of_count hv (hr.resolve_left herr)) ?_
    cases e with
    | pread64 | getdents64 => exact herr
    | readlinkat => exact .inl herr

/-- `pread64(3, 4096, 16, 0)` that reads sixteen bytes. -/
theorem copiesRight_pread64 :
    CountResult (Ctx.plain 3 4096 16 0 0 0 fun _ => 0) .pread64 16 ∧
      CopiesRight (Ctx.plain 3 4096 16 0 0 0 fun _ => 0) .pread64
        ((put .arg0 16).apply fun _ _ => 0) := by
  have hcount : CountResult (Ctx.plain 3 4096 16 0 0 0 fun _ => 0) .pread64 16 :=
    .inr (show (16#64).toNat ≤ min (16#64).toNat 0x7fffffff by decide)
  have hwhen : copiesWhen 16 .pread64 := (by decide : ¬ IsError 16)
  exact ⟨hcount, (copiesRight_iff _ _ 16 hcount _ (resultOf_put _ _)).mpr hwhen⟩

/-- `pread64` of a closed descriptor, `readlinkat` of a missing file and `getdents64` of a
regular file. -/
theorem copies_error_numbers :
    ¬ CopiesRight (Ctx.plain 3 4096 16 16 0 0 fun _ => 0) .pread64
        ((put .arg0 (-9)).apply fun _ _ => 0) ∧
      ¬ CopiesRight (Ctx.plain 3 4096 16 16 0 0 fun _ => 0) .readlinkat
        ((put .arg0 (-2)).apply fun _ _ => 0) ∧
      ¬ CopiesRight (Ctx.plain 3 4096 16 16 0 0 fun _ => 0) .getdents64
        ((put .arg0 (-20)).apply fun _ _ => 0) := by
  have hwrong : ∀ (e : ErrnoCall) (r : Word), IsError r → r ≠ -1 →
      ¬ CopiesRight (Ctx.plain 3 4096 16 16 0 0 fun _ => 0) e
        ((put .arg0 r).apply fun _ _ => 0) :=
    fun e r hr hne h => hne ((copiesRight_error_iff (resultOf_put _ _) hr).mp h).2
  exact ⟨hwrong _ _ (by decide) (by decide), hwrong _ _ (by decide) (by decide),
    hwrong _ _ (by decide) (by decide)⟩

end Porpoise.Shim
