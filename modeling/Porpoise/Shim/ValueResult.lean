import Porpoise.Shim.Delivery
import Porpoise.Shim.Failure
import Porpoise.Shim.Pselect

/-!
# Values that come back through pointers

The kernel returns an address or an option in a buffer, and its length in the object
that held the buffer's size; other calls fill one object. Of nine such calls eight
copy nothing of this back, and `accept4` copies 16 bytes of the address whatever the
two lengths are.

* `Answered`, `Filled`: what the kernel leaves in the slot.
* `AddressReturned`: what the caller is to find.
* `value_results_iff`: for which lengths it finds that.
-/

namespace Porpoise.Shim

open Porpoise.Lib

variable {c : Ctx} {r : Word} {u v : UMem} {k : Nat} {p : Word}

/-! ## The calls -/

/-- The calls that return an object and its length. -/
inductive AddressCall
  | accept | accept4 | getsockname | getpeername | recvfrom | getsockopt
  deriving DecidableEq

namespace AddressCall

def sysno : AddressCall → Sysno
  | accept => .accept
  | accept4 => .accept4
  | getsockname => .getsockname
  | getpeername => .getpeername
  | recvfrom => .recvfrom
  | getsockopt => .getsockopt

/-- The buffers of the slot that the kernel gets for the object and for the length. -/
def bufSlot : AddressCall → Buf
  | recvfrom => .arg5
  | getsockopt => .arg4
  | _ => .arg2

def lenSlot : AddressCall → Buf
  | recvfrom => .arg6
  | getsockopt => .arg5
  | _ => .arg3

/-- The places of the two pointers among the kernel's arguments. -/
def bufPlace : AddressCall → Nat
  | recvfrom => 4
  | getsockopt => 3
  | _ => 1

def lenPlace : AddressCall → Nat
  | recvfrom => 5
  | getsockopt => 4
  | _ => 2

/-- The two pointers of the caller. -/
def bufPtr (c : Ctx) : AddressCall → Word
  | recvfrom => c.a5
  | getsockopt => c.a4
  | _ => c.a2

def lenPtr (c : Ctx) : AddressCall → Word
  | recvfrom => c.a6
  | getsockopt => c.a5
  | _ => c.a3

end AddressCall

variable {q : AddressCall} {M : BitVec 32} {K : Nat → Byte}

/-- `L`, in `*addrlen` or `*optlen`. -/
def roomOf (c : Ctx) (q : AddressCall) : BitVec 32 := load32 (c.mem.at (q.lenPtr c)) 0

def bufferObj (c : Ctx) (q : AddressCall) : Obj := ⟨q.bufPtr c, (roomOf c q).toNat⟩

def lengthObj (c : Ctx) (q : AddressCall) : Obj := ⟨q.lenPtr c, 4⟩

/-- The payload of `recvfrom`. -/
def payloadObj (c : Ctx) (r : Word) : AddressCall → Obj
  | .recvfrom => ⟨c.a2, bytesRead r⟩
  | _ => ⟨c.a2, 0⟩

/-- The caller gives both pointers, to objects that overlap neither each other nor the
payload. -/
structure Separate (c : Ctx) (r : Word) (q : AddressCall) : Prop where
  buf_ne : q.bufPtr c ≠ 0
  len_ne : q.lenPtr c ≠ 0
  buf_len : (bufferObj c q).Apart (lengthObj c q)
  payload_buf : (payloadObj c r q).Apart (bufferObj c q)
  payload_len : (payloadObj c r q).Apart (lengthObj c q)

/-- **The kernel** has returned `r`, and for its object `K` the length `M`, and as much of
it as the length in the slot allowed. -/
structure Answered (c : Ctx) (q : AddressCall) (u : UMem) (M : BitVec 32) (K : Nat → Byte)
    (r : Word) (v : UMem) : Prop where
  result : resultOf v = r
  len : load32 (v (.buf q.lenSlot)) 0 = M
  buf : ∀ j, v (.buf q.bufSlot) j =
    if j < min (load32 (sent c q.sysno u (.buf q.lenSlot)) 0).toNat M.toNat then K j
    else sent c q.sysno u (.buf q.bufSlot) j

/-- The caller finds the kernel's length, and of the object as much as its buffer has room
for. -/
structure AddressReturned (c : Ctx) (q : AddressCall) (M : BitVec 32) (K : Nat → Byte)
    (m : Mem) : Prop where
  len : load32 (m.at (q.lenPtr c)) 0 = M
  buf : ∀ j < (roomOf c q).toNat, m.at (q.bufPtr c) j =
    if j < M.toNat then K j else c.mem.at (q.bufPtr c) j

/-- The lengths with which the copies are what the kernel returned. -/
def LengthsFit (c : Ctx) (M : BitVec 32) : AddressCall → Prop
  | .accept4 => min (roomOf c .accept4).toNat M.toNat = min (roomOf c .accept4).toNat 16
  | q => roomOf c q = 0 ∧ M = 0

instance : (q : AddressCall) → Decidable (LengthsFit c M q)
  | .accept4 => inferInstanceAs (Decidable (_ = _))
  | .accept | .getsockname | .getpeername | .recvfrom | .getsockopt =>
      inferInstanceAs (Decidable (_ ∧ _))

/-- The calls that fill one object. -/
inductive FillCall
  | gettimeofday | rt_sigpending | rt_sigtimedwait
  deriving DecidableEq

def FillCall.sysno : FillCall → Sysno
  | gettimeofday => .gettimeofday
  | rt_sigpending => .rt_sigpending
  | rt_sigtimedwait => .rt_sigtimedwait

/-- The buffer of the slot, its place among the kernel's arguments, and the caller's
pointer: to a `timeval`, a signal set and a `siginfo`. -/
def FillCall.slot : FillCall → Buf
  | rt_sigtimedwait => .arg2
  | _ => .arg1

def FillCall.place : FillCall → Nat
  | rt_sigtimedwait => 1
  | _ => 0

def FillCall.ptr (c : Ctx) : FillCall → Word
  | rt_sigtimedwait => c.a2
  | _ => c.a1

/-- The kernel has returned `r` and written `k` bytes. -/
structure Filled (c : Ctx) (q : FillCall) (u : UMem) (k : Nat) (K : Nat → Byte) (r : Word)
    (v : UMem) : Prop where
  result : resultOf v = r
  buf : ∀ j, v (.buf q.slot) j = if j < k then K j else sent c q.sysno u (.buf q.slot) j

/-! ## The host passes the buffers -/

/-- The kernel gets the buffer of the slot. For `recvfrom` the host asks a byte of
`null_ptr` whether it is to be `NULL`. -/
def Passes (c : Ctx) (q : AddressCall) (u : UMem) (i : Nat) (b : Buf) : Prop :=
  hostArg c q.sysno u i = c.addr b ∨ q = .recvfrom ∧ hostArg c q.sysno u i = 0

theorem address_slots_passed (c : Ctx) (q : AddressCall) (u : UMem) :
    Passes c q u q.bufPlace q.bufSlot ∧ Passes c q u q.lenPlace q.lenSlot := by
  cases q
  case recvfrom =>
    have hunless : ∀ i b w, Operand.eval c w (.ptrUnless i b) = c.addr b ∨
        Operand.eval c w (.ptrUnless i b) = 0 := by
      intro i b w
      by_cases hflag : w (.buf .arg7) i = 0
      · exact .inl (if_neg (not_not_intro hflag))
      · exact .inr (if_pos hflag)
    exact ⟨(hunless 5 .arg5 _).imp_right fun h => ⟨rfl, h⟩,
      (hunless 6 .arg6 _).imp_right fun h => ⟨rfl, h⟩⟩
  all_goals exact ⟨.inl rfl, .inl rfl⟩

theorem fill_slot_passed (q : FillCall) (c : Ctx) (u : UMem) :
    hostArg c q.sysno u q.place = c.addr q.slot := by
  cases q <;> rfl

/-- The length that the kernel finds in the slot is the caller's. -/
theorem sent_room (hlen : q.lenPtr c ≠ 0) (u : UMem) :
    load32 (sent c q.sysno u (.buf q.lenSlot)) 0 = roomOf c q := by
  cases q
  case accept4 =>
    have hne : c.a3 ≠ 0#64 := hlen
    simp [sent, wrapSends, AddressCall.sysno, AddressCall.lenSlot, hne, roomOf, AddressCall.lenPtr]
  case recvfrom =>
    have hne : c.a6 ≠ 0#64 := hlen
    simp [sent, wrapSends, AddressCall.sysno, AddressCall.lenSlot, hne, roomOf, AddressCall.lenPtr,
      sendNullPtr]
  all_goals
    simp [sent, wrapSends, AddressCall.sysno, AddressCall.lenSlot, roomOf, AddressCall.lenPtr]

theorem AddressCall.slots_ne (q : AddressCall) :
    q.lenSlot ≠ .arg0 ∧ q.bufSlot ≠ .arg0 ∧ q.bufSlot ≠ q.lenSlot := by
  cases q <;> decide

theorem exists_answered (c : Ctx) (q : AddressCall) (u : UMem) (M : BitVec 32) (K : Nat → Byte)
    (r : Word) : ∃ v, Answered c q u M K r v := by
  obtain ⟨hlen, hbuf, hne⟩ := q.slots_ne
  refine ⟨fun x => if x = .buf .arg0 then le64 r else if x = .buf q.lenSlot then
    le64 (M.setWidth 64) else fun j =>
      if j < min (load32 (sent c q.sysno u (.buf q.lenSlot)) 0).toNat M.toNat then K j
      else sent c q.sysno u (.buf q.bufSlot) j, ?_, ?_, fun j => ?_⟩
  · rw [resultOf, if_pos rfl, load64_le64]
  · rw [if_neg (mt Region.buf.inj hlen), if_pos rfl, load32_le64,
      BitVec.setWidth_setWidth_of_le M (by decide), BitVec.setWidth_eq]
  · rw [if_neg (mt Region.buf.inj hbuf), if_neg (mt Region.buf.inj hne)]

/-! ## Nothing is copied back -/

/-- The calls but `accept4` leave what is not payload alone. -/
theorem address_unchanged (hq : q ≠ .accept4) (hr : bytesRead r ≤ maxRwCount)
    (hv : resultOf v = r) (hp : ¬ (payloadObj c r q).Has p) :
    memAfter c q.sysno v p = c.mem p := by
  cases q
  case accept4 => exact absurd rfl hq
  case recvfrom =>
    refine applyRecvs_of_not_writes (fun s hs hw => hp ?_) v c.mem
    have hrecvs : s ∈ if 0 < (resultOf v).toInt then
      [recv (.buf .arg2) c.a2 (resultOf v)] else [] := hs
    split at hrecvs
    · rename_i hpos
      rw [hv] at hpos hrecvs
      have hread : bytesRead r = r.toNat := if_neg fun herr => by have := herr.2; omega
      have hlt : r.toNat < 2 ^ 31 := by
        have hmax : maxRwCount < 2 ^ 31 := by decide
        omega
      rw [List.mem_singleton.mp hrecvs] at hw
      have hcopy : (p - c.a2).toNat < memcpyLen r := hw
      rw [memcpyLen_of_lt hlt] at hcopy
      exact hcopy.trans_eq hread.symm
    · exact absurd hrecvs List.not_mem_nil
  all_goals rfl

/-- The caller's objects after such a call. -/
theorem objects_unchanged (hq : q ≠ .accept4) (hr : bytesRead r ≤ maxRwCount)
    (hsep : Separate c r q) (hv : resultOf v = r) :
    load32 ((memAfter c q.sysno v).at (q.lenPtr c)) 0 = roomOf c q ∧
      ∀ j < (roomOf c q).toNat,
        (memAfter c q.sysno v).at (q.bufPtr c) j = c.mem.at (q.bufPtr c) j := by
  have hout := fun {o : Obj} (hap : (payloadObj c r q).Apart o) {p : Word} (hp : o.Has p) =>
    address_unchanged hq hr hv (p := p) fun hpay => hap p ⟨hpay, hp⟩
  constructor
  · refine load32_congr fun j hj => hout hsep.payload_len ?_
    rw [Nat.zero_add]
    exact Obj.has_add (x := lengthObj c q) hj (show 4 ≤ 2 ^ 64 by decide)
  · intro j hj
    have hsize : (bufferObj c q).size ≤ 2 ^ 64 := by
      show (roomOf c q).toNat ≤ 2 ^ 64
      omega
    exact hout hsep.payload_buf (Obj.has_add (x := bufferObj c q) hj hsize)

theorem returned_iff_of_unchanged (hq : q ≠ .accept4) (hr : bytesRead r ≤ maxRwCount)
    (hsep : Separate c r q) :
    (∀ u K v, Answered c q u M K r v → AddressReturned c q M K (memAfter c q.sysno v)) ↔
      roomOf c q = 0 ∧ M = 0 := by
  constructor
  · intro h
    -- the kernel's object differs from what is in the buffer
    obtain ⟨v, hv⟩ := exists_answered c q (fun _ _ => 0) M
      (fun j => ~~~ c.mem.at (q.bufPtr c) j) r
    have hback := h _ _ v hv
    obtain ⟨hlen, hbuf⟩ := objects_unchanged hq hr hsep hv.result
    have hroom : M = roomOf c q := hback.len.symm.trans hlen
    subst hroom
    suffices hzero : roomOf c q = 0 from ⟨hzero, hzero⟩
    by_contra hne
    have hpos : 0 < (roomOf c q).toNat :=
      Nat.pos_of_ne_zero fun hzero => hne (BitVec.eq_of_toNat_eq hzero)
    have hbyte := hback.buf 0 hpos
    rw [if_pos hpos, hbuf 0 hpos] at hbyte
    exact byte_not_ne _ hbyte.symm
  · rintro ⟨hroom, rfl⟩ u K v hv
    obtain ⟨hlen, -⟩ := objects_unchanged hq hr hsep hv.result
    refine ⟨hlen.trans hroom, fun j hj => ?_⟩
    rw [hroom] at hj
    exact absurd hj (Nat.not_lt_zero j)

/-! ## `accept4` -/

section Accept4

variable (hsep : Separate c r .accept4) (hv : Answered c .accept4 u M K r v)

include hsep hv

theorem accept4_length : load32 ((memAfter c .accept4 v).at c.a3) 0 = M := by
  rw [← hv.len]
  refine load32_congr fun j hj => ?_
  rw [Mem.at, accept4_at hsep.buf_ne hsep.len_ne, toNat_add_sub _ (by omega), if_pos (by omega)]
  rfl

theorem accept4_buffer {j : Nat} (hj : j < (roomOf c .accept4).toNat) :
    (memAfter c .accept4 v).at c.a2 j =
      if j < 16 then if j < M.toNat then K j else u (.buf .arg2) j else c.mem.at c.a2 j := by
  have hlt := (roomOf c .accept4).isLt
  have hoff := toNat_add_sub c.a2 (j := j) (by omega)
  have hhas : (bufferObj c .accept4).Has (c.a2 + BitVec.ofNat 64 j) := hoff.trans_lt hj
  have hnot : ¬ (c.a2 + BitVec.ofNat 64 j - c.a3).toNat < 4 :=
    fun hin => hsep.buf_len _ ⟨hhas, hin⟩
  have hslot := hv.buf j
  have hroom := sent_room hsep.len_ne u
  rw [hroom] at hslot
  rw [Mem.at, accept4_at hsep.buf_ne hsep.len_ne, if_neg hnot, hoff]
  split
  · refine hslot.trans ?_
    rw [← accept4_address_sent (c := c) u]
    by_cases hM : j < M.toNat
    · rw [if_pos hM, if_pos (by omega)]
    · rw [if_neg hM, if_neg (by omega)]
      rfl
  · rfl

end Accept4

theorem returned_iff_accept4 (hsep : Separate c r .accept4) :
    (∀ u K v, Answered c .accept4 u M K r v →
        AddressReturned c .accept4 M K (memAfter c .accept4 v)) ↔
      min (roomOf c .accept4).toNat M.toNat = min (roomOf c .accept4).toNat 16 := by
  constructor
  · intro h
    by_contra hne
    -- the first byte that is copied or returned, but not both
    obtain ⟨j, hj⟩ : ∃ j, j = min M.toNat 16 := ⟨_, rfl⟩
    have hroom : j < (roomOf c .accept4).toNat := by omega
    obtain ⟨v, hv⟩ := exists_answered c .accept4 (fun _ _ => ~~~ c.mem.at c.a2 j) M
      (fun _ => ~~~ c.mem.at c.a2 j) r
    have hbyte := (h _ _ v hv).buf j hroom
    have hcopy := accept4_buffer hsep hv hroom
    rw [show (memAfter c .accept4 v).at (AddressCall.accept4.bufPtr c) j = _ from hcopy] at hbyte
    by_cases hM : j < M.toNat
    · rw [if_neg (by omega), if_pos hM] at hbyte
      exact byte_not_ne _ hbyte.symm
    · rw [if_pos (by omega), if_neg hM, if_neg hM] at hbyte
      exact byte_not_ne _ hbyte
  · intro hfit u K v hv
    refine ⟨accept4_length hsep hv, fun j hj => (accept4_buffer hsep hv hj).trans ?_⟩
    by_cases hM : j < M.toNat
    · rw [if_pos (by omega), if_pos hM, if_pos hM]
    · rw [if_neg (by omega), if_neg hM]
      rfl

/-! ## One object -/

theorem exists_filled (c : Ctx) (q : FillCall) (u : UMem) (k : Nat) (K : Nat → Byte) (r : Word) :
    ∃ v, Filled c q u k K r v := by
  have hne : q.slot ≠ .arg0 := by cases q <;> decide
  refine ⟨fun x => if x = .buf .arg0 then le64 r else fun j =>
    if j < k then K j else sent c q.sysno u (.buf q.slot) j, ?_, fun j => ?_⟩
  · rw [resultOf, if_pos rfl, load64_le64]
  · rw [if_neg (mt Region.buf.inj hne)]

/-- Such a call copies nothing back. -/
theorem fill_unchanged (c : Ctx) (q : FillCall) (v : UMem) : memAfter c q.sysno v = c.mem := by
  cases q <;> rfl

theorem filled_iff (q : FillCall) :
    (∀ u K v, Filled c q u k K r v → ∀ j < k, (memAfter c q.sysno v).at (q.ptr c) j = K j) ↔
      k = 0 := by
  constructor
  · intro h
    by_contra hne
    obtain ⟨v, hv⟩ := exists_filled c q (fun _ _ => 0) k (fun j => ~~~ c.mem.at (q.ptr c) j) r
    have hbyte := h _ _ v hv 0 (Nat.pos_of_ne_zero hne)
    rw [fill_unchanged] at hbyte
    exact byte_not_ne _ hbyte.symm
  · rintro rfl u K v _ j hj
    exact absurd hj (Nat.not_lt_zero j)

/-! ## What comes back -/

/-- **What comes back.** For every call of the nine, room, kernel's length, and slot: the
kernel gets the buffers of the slot, and the caller finds what it returned exactly when
`accept4` has to return as many bytes as 16 would be, or another call none at all. -/
theorem value_results_iff (c : Ctx) (r : Word) (hr : bytesRead r ≤ maxRwCount) :
    (∀ (q : AddressCall) (M : BitVec 32), Separate c r q →
      (∀ u, Passes c q u q.bufPlace q.bufSlot ∧ Passes c q u q.lenPlace q.lenSlot) ∧
      ((∀ u K v, Answered c q u M K r v → AddressReturned c q M K (memAfter c q.sysno v)) ↔
        LengthsFit c M q)) ∧
    ∀ (q : FillCall) (k : Nat),
      (∀ u, hostArg c q.sysno u q.place = c.addr q.slot) ∧
      ((∀ u K v, Filled c q u k K r v → ∀ j < k, (memAfter c q.sysno v).at (q.ptr c) j = K j) ↔
        k = 0) := by
  refine ⟨fun q M hsep => ⟨address_slots_passed c q, ?_⟩,
    fun q k => ⟨fill_slot_passed q c, filled_iff q⟩⟩
  cases q
  case accept4 => exact returned_iff_accept4 hsep
  all_goals exact returned_iff_of_unchanged (by decide) hr hsep

/-- A call with a buffer at 4096, and its size `x` at 8192. -/
def addressRoom (x : Byte) : Ctx :=
  Ctx.plain 3 4096 8192 0 0 0 fun p => if p = 8192 then x else 0

theorem separate_addressRoom {q : AddressCall} {x : Byte} (hq : q = .accept ∨ q = .accept4)
    (hx : x = 16 ∨ x = 28) : Separate (addressRoom x) 4 q := by
  have h2 : (addressRoom x).a2.toNat = 4096 := rfl
  have h3 : (addressRoom x).a3.toNat = 8192 := rfl
  have hend : 4096 + (roomOf (addressRoom x) .accept4).toNat ≤ 8192 := by
    rcases hx with rfl | rfl <;> decide
  have hlen : (bufferObj (addressRoom x) .accept4).Apart (lengthObj (addressRoom x) .accept4) :=
    Obj.apart_of_le hend (h3 ▸ by decide)
  have hpay : ∀ o, (payloadObj (addressRoom x) 4 .accept4).Apart o :=
    fun o p hp => absurd hp.1 (Nat.not_lt_zero _)
  have hne2 : (addressRoom x).a2 ≠ 0 := show (4096 : Word) ≠ 0 by decide
  have hne3 : (addressRoom x).a3 ≠ 0 := show (8192 : Word) ≠ 0 by decide
  rcases hq with rfl | rfl
  · exact ⟨hne2, hne3, hlen, hpay _, hpay _⟩
  · exact ⟨hne2, hne3, hlen, hpay _, hpay _⟩

/-- An IPv4 address in a `struct sockaddr_in`. -/
theorem value_results_ipv4 : LengthsFit (addressRoom 16) 16 .accept4 ∧
    ∀ u K v, Answered (addressRoom 16) .accept4 u 16 K 4 v →
      AddressReturned (addressRoom 16) .accept4 16 K (memAfter (addressRoom 16) .accept4 v) := by
  have hfit : LengthsFit (addressRoom 16) 16 .accept4 := by decide
  have hsep := separate_addressRoom (q := .accept4) (x := 16) (.inr rfl) (.inl rfl)
  exact ⟨hfit, ((value_results_iff (addressRoom 16) 4 (by decide)).1 .accept4 16 hsep).2.mpr hfit⟩

/-- The same address from `accept`; an IPv6 address from `accept4`; the time. -/
theorem value_results_lost :
    (¬ ∀ u K v, Answered (addressRoom 16) .accept u 16 K 4 v →
      AddressReturned (addressRoom 16) .accept 16 K (memAfter (addressRoom 16) .accept v)) ∧
    (¬ ∀ u K v, Answered (addressRoom 28) .accept4 u 28 K 4 v →
      AddressReturned (addressRoom 28) .accept4 28 K (memAfter (addressRoom 28) .accept4 v)) ∧
    ¬ ∀ u K v, Filled (addressRoom 16) .gettimeofday u 16 K 0 v →
      ∀ j < 16, (memAfter (addressRoom 16) .gettimeofday v).at (addressRoom 16).a1 j = K j := by
  refine ⟨fun h => ?_, fun h => ?_, fun h => ?_⟩
  · have hsep := separate_addressRoom (q := .accept) (x := 16) (.inl rfl) (.inl rfl)
    exact absurd ((returned_iff_of_unchanged (by decide) (by decide) hsep).mp h) (by decide)
  · have hsep := separate_addressRoom (q := .accept4) (x := 28) (.inr rfl) (.inr rfl)
    exact absurd ((returned_iff_accept4 hsep).mp h) (by decide)
  · exact absurd ((filled_iff .gettimeofday).mp h) (by decide)

end Porpoise.Shim
