import Porpoise.Shim.Decode

/-!
# What the kernel heeds of a call

`kernelView` shows every argument, with what lies behind the pointers. What the kernel
looks at depends on the rest of the call: an object of no bytes it leaves alone, `open`
ignores the mode of a file that it does not create, and the operation of `futex` and the
command of `fcntl` say what the arguments after them are.

* `uses`: what an argument is to the kernel in a call, and `heeds`: what the kernel
  learns from each.
* `Faithful`: the kernel gets exactly one call, and heeds of it what it would heed of the
  caller's own.
-/

namespace Porpoise.Shim

open Porpoise.Lib

variable {c : Ctx} {K : Kernel} {n : Sysno} {u : UMem}

/-! ## Modes, commands and operations -/

/-- `WILL_CREATE(flags)`: `O_CREAT` or `__O_TMPFILE` is among them, and not `O_PATH`, which
beats both. -/
def willCreate (flags : BitVec 32) : Bool := flags &&& 0x400040 ≠ 0 && flags &&& 0x200000 = 0

/-- The size of the structure of `F_GETLK`, `F_SETLK` and `F_SETLKW`, and of
`F_SETOWN_EX` and `F_GETOWN_EX`. -/
def fcntlObj (cmd : BitVec 32) : Option Nat :=
  if cmd = 5 ∨ cmd = 6 ∨ cmd = 7 then some 32
  else if cmd = 15 ∨ cmd = 16 then some 8
  else none

/-- The commands with a pointer: these, `F_GETOWNER_UIDS`, `F_OFD_GETLK` to `F_OFD_SETLKW`,
and `F_GET_RW_HINT` to `F_SET_FILE_RW_HINT`. -/
def FcntlPointer (cmd : BitVec 32) : Prop :=
  fcntlObj cmd ≠ none ∨ cmd = 17 ∨ 36 ≤ cmd.toNat ∧ cmd.toNat ≤ 38 ∨
    1035 ≤ cmd.toNat ∧ cmd.toNat ≤ 1038

instance (cmd : BitVec 32) : Decidable (FcntlPointer cmd) :=
  inferInstanceAs (Decidable (_ ∨ _ ∨ _ ∧ _ ∨ _ ∧ _))

/-- The commands with an integer: `F_DUPFD`, `F_SETFD`, `F_SETFL`, `F_SETOWN`, `F_SETSIG`,
`F_SETLEASE`, `F_NOTIFY`, `F_DUPFD_QUERY`, `F_DUPFD_CLOEXEC`, `F_SETPIPE_SZ` and
`F_ADD_SEALS`. -/
def FcntlInteger (cmd : BitVec 32) : Prop :=
  cmd ∈ [0#32, 2#32, 4#32, 8#32, 10#32, 1024#32, 1026#32, 1027#32, 1030#32, 1031#32, 1033#32]

instance (cmd : BitVec 32) : Decidable (FcntlInteger cmd) :=
  inferInstanceAs (Decidable (_ ∈ _))

/-- The operations of `futex` with a second number in place of the timeout:
`FUTEX_REQUEUE`, `FUTEX_CMP_REQUEUE`, `FUTEX_WAKE_OP` and `FUTEX_CMP_REQUEUE_PI`. -/
def takesVal2 (op : BitVec 32) : Bool :=
  [3#32, 4#32, 5#32, 12#32].contains (op &&& ~~~(384#32))

/-- The operations of `futex` that use the last number: `FUTEX_CMP_REQUEUE`,
`FUTEX_WAKE_OP`, `FUTEX_WAIT_BITSET`, `FUTEX_WAKE_BITSET` and `FUTEX_CMP_REQUEUE_PI`. -/
def takesVal3 (op : BitVec 32) : Bool :=
  [4#32, 5#32, 9#32, 10#32, 12#32].contains (op &&& ~~~(384#32))

/-! ## Uses of an argument -/

/-- What an argument is to the kernel. -/
inductive Use
  /-- What the parameter says; an object that is neither read nor written is not looked at. -/
  | arg (p : Param)
  /-- A pointer of which it matters in any case whether it is `NULL`. -/
  | pointer (p : Param)
  /-- The mode of a new file: twelve bits count. -/
  | mode
  /-- The address of a word that threads share, of which so many bytes are read. -/
  | word (read : Nat)
  | ignored

/-- Whether the kernel looks at an argument. -/
def Param.looked (x : KArgs) : Param → Bool
  | .obj read write => read x ≠ 0 ∨ write x ≠ 0
  | .iov _ cnt => 0 < x.int cnt ∧ x.int cnt ≤ 1024
  | _ => true

/-- Where an empty segment lies does not matter. -/
def SegView.heed (s : SegView) : SegView := { s with null := s.null && s.len ≠ 0 }

/-- Nor where empty control data lie, and an empty name to send. -/
def MsgView.heed (data : Bool) (m : MsgView) : MsgView :=
  { m with
    nameNull := m.nameNull && !(data && m.namelen == 0)
    segs := m.segs.map SegView.heed
    controlNull := m.controlNull && m.controllen ≠ 0 }

/-- What the kernel learns from an argument that it looks at. An integer in the place of a
pointer, `int`, is not one. -/
def Param.heed (x : KArgs) (int : Bool) (p : Param) (w : Word) : ArgView :=
  if int ∧ p.isPointer ∧ w ≠ 0 then .scalar w
  else match p, argView x p w with
    | .iov _ _, .segs l => .segs (l.map SegView.heed)
    | .msg data, .msg m => .msg (m.heed data)
    | _, v => v

/-- What the kernel learns from an argument; `mirror` is the place that the kernel knows a
word by. -/
def Use.heed (x : KArgs) (mirror : Word → Word) (int : Bool) : Use → Word → List ArgView
  | .arg p, w => if p.looked x then [p.heed x int w] else []
  | .pointer p, w => [p.heed x int w]
  | .mode, w => [.scalar ((w.setWidth 12).setWidth 64)]
  | .word read, p =>
      if p = 0 then [.null] else [.scalar (mirror p), .bytes (take read (x.mem p))]
  | .ignored, _ => []

section Heed

variable {x : KArgs} {mirror : Word → Word} {int : Bool} {w : Word}

@[simp] theorem Use.heed_pointer (p : Param) :
    (Use.pointer p).heed x mirror int w = [p.heed x int w] := rfl

@[simp] theorem Use.heed_mode :
    Use.mode.heed x mirror int w = [.scalar ((w.setWidth 12).setWidth 64)] := rfl

@[simp] theorem Use.heed_word (read : Nat) : (Use.word read).heed x mirror int w =
    if w = 0 then [.null] else [.scalar (mirror w), .bytes (take read (x.mem w))] := rfl

@[simp] theorem Use.heed_ignored : Use.ignored.heed x mirror int w = [] := rfl

@[simp] theorem Use.heed_ite {q : Prop} [Decidable q] (v v' : Use) :
    (if q then v else v').heed x mirror int w =
      if q then v.heed x mirror int w else v'.heed x mirror int w := by
  split <;> rfl

@[simp] theorem Use.heed_int :
    (Use.arg .int).heed x mirror int w = [.scalar ((w.setWidth 32).setWidth 64)] := by
  simp [heed, Param.heed, Param.looked, Param.isPointer, argView]

@[simp] theorem Use.heed_long : (Use.arg .long).heed x mirror int w = [.scalar w] := by
  simp [heed, Param.heed, Param.looked, Param.isPointer, argView]

@[simp] theorem Use.heed_path :
    (Use.arg .path).heed x mirror false w = [argView x .path w] := rfl

/-- An object is left alone when it is empty. -/
theorem Use.heed_obj (read write : KArgs → Nat) :
    (Use.arg (.obj read write)).heed x mirror false w =
      if read x = 0 ∧ write x = 0 then [] else [argView x (.obj read write) w] := by
  have hlooked : Param.looked x (.obj read write) = true ↔ ¬ (read x = 0 ∧ write x = 0) := by
    rw [Param.looked, decide_eq_true_eq, not_and_or]
  show (if Param.looked x (.obj read write) then [argView x (.obj read write) w] else []) = _
  simp only [hlooked, ite_not]

/-- Nor are the segments of an array, unless their number is valid. -/
theorem Use.heed_iov (data : Bool) (cnt : Nat) :
    (Use.arg (.iov data cnt)).heed x mirror false w =
      if 0 < (x.int cnt).toNat ∧ (x.int cnt).toNat ≤ 1024 then
        [if w = 0 then .null
          else .segs ((segViews x.mem data w (x.int cnt).toNat).map SegView.heed)]
      else [] := by
  have hlooked : Param.looked x (.iov data cnt) = true ↔
      0 < (x.int cnt).toNat ∧ (x.int cnt).toNat ≤ 1024 := by
    rw [Param.looked, decide_eq_true_eq]
    omega
  by_cases hw : w = 0#64
  · simp [heed, Param.heed, argView, hw, hlooked]
  · simp [heed, Param.heed, argView, hw, hlooked]

theorem Use.heed_msg (data : Bool) :
    (Use.arg (.msg data)).heed x mirror false w =
      [if w = 0 then .null else .msg ((msgView x.mem data w).heed data)] := by
  by_cases hw : w = 0#64
  · simp [heed, Param.heed, Param.looked, argView, hw]
  · simp [heed, Param.heed, Param.looked, argView, hw]

@[simp] theorem Param.heed_obj (read write : KArgs → Nat) :
    (Param.obj read write).heed x false w = argView x (.obj read write) w := rfl

/-- An object that an `int` is to lead to. -/
theorem Param.heed_obj_int (read write : KArgs → Nat) :
    (Param.obj read write).heed x true w = if w = 0 then .null else .scalar w := by
  by_cases hw : w = 0
  · simp [heed, argView, hw]
  · exact (if_pos ⟨rfl, rfl, hw⟩).trans (if_neg hw).symm

end Heed

/-- What the third argument of `fcntl` is. -/
def fcntlUse (cmd : BitVec 32) : Use :=
  if FcntlInteger cmd then .arg .long
  else if FcntlPointer cmd then .pointer (.inout ((fcntlObj cmd).getD 8))
  else .ignored

/-- What the arguments of `futex` are. -/
def futexUses (op : BitVec 32) : List Use :=
  [.word 4, .arg .int, .arg .int,
   if takesTimeout op then .arg (.input 16) else if takesVal2 op then .arg .int else .ignored,
   if takesSecond op then .word 4 else .ignored,
   if takesVal3 op then .arg .int else .ignored]

/-- What the arguments of a system call are. -/
def sysUses (x : KArgs) : Sysno → List Use
  | .open_ =>
      [.arg .path, .arg .int, if willCreate ((x.val 1).setWidth 32) then .mode else .ignored]
  | .openat =>
      [.arg .int, .arg .path, .arg .int,
       if willCreate ((x.val 2).setWidth 32) then .mode else .ignored]
  | .ioctl =>
      [.arg .int, .arg .long, .arg (if x.kernel.ioctlInt (x.val 1) then .long
        else .obj (fun x => x.kernel.ioctlIn (x.val 1)) fun x => x.kernel.ioctlOut (x.val 1))]
  | .accept => [.arg .int, .pointer (.obj (fun _ => 0) (·.sockaddrRoom 2)), .arg (.inout 4)]
  | .accept4 =>
      [.arg .int, .pointer (.obj (fun _ => 0) (·.sockaddrRoom 2)), .arg (.inout 4), .arg .int]
  | .sendto =>
      [.arg .int, .arg (.obj (fun x => min (x.val 2).toNat 0x7ffff000) fun _ => 0), .arg .long,
       .arg .int, .pointer (.obj (·.sockaddrLen 5) fun _ => 0), .arg .int]
  | .recvfrom =>
      [.arg .int, .arg (.obj (fun _ => 0) fun x => min (x.val 2).toNat 0x7ffff000), .arg .long,
       .arg .int, .pointer (.obj (fun _ => 0) (·.sockaddrRoom 5)), .arg (.inout 4)]
  | .fcntl => [.arg .int, .arg .int, fcntlUse ((x.val 1).setWidth 32)]
  -- another size of the set is refused before anything is read
  | .rt_sigtimedwait =>
      let read (p : Param) : Use := if x.val 3 = 8 then .arg p else .ignored
      [read (.input 8), read (.output 128), read (.input 16), .arg .long]
  | .futex => futexUses ((x.val 1).setWidth 32)
  | .set_tid_address => [.word 0]
  | .epoll_pwait =>
      [.arg .int, .arg (.obj (fun _ => 0) (·.epollLen)), .arg .int, .arg .int,
       .pointer (.obj (·.sigsetLen 5) fun _ => 0), .arg .long]
  | n => (sysParams n).map Use.arg

def uses (x : KArgs) : HostFn → List Use
  | .syscall n => sysUses x n
  | fn => (params fn).map Use.arg

/-! ## The call as the kernel heeds it -/

/-- An operand that is an `int`, which is no address. -/
def Operand.isInt : Operand → Bool
  | .int _ | .uint _ | .indet => true
  | _ => false

/-- What the kernel learns from each argument. -/
structure Heeded where
  fn : HostFn
  args : List (List ArgView)
  deriving DecidableEq

/-- What the kernel learns from a call with these arguments; with each goes whether it is
an `int`. -/
def heeds (K : Kernel) (fn : HostFn) (args : List (Bool × Word)) (mirror : Word → Word)
    (mem : Word → Bytes) : Heeded :=
  let x := kargs K fn (args.map Prod.snd) mem
  ⟨fn, List.zipWith (fun use a => use.heed x mirror a.1 a.2) (uses x fn) args⟩

/-- A call that the host makes. -/
def HostCall.heeded (c : Ctx) (K : Kernel) (u : UMem) (h : HostCall) : Heeded :=
  heeds K h.fn (h.args.map fun o => (o.isInt, o.eval c u)) id fun p => u (c.region p)

/-- The caller's arguments. -/
def Ctx.kernelArgs (c : Ctx) (K : Kernel) (n : Sysno) : KArgs :=
  kargs K (.syscall n) c.args c.mem.at

/-- The caller's own. Its words stand in untrusted memory. -/
def Ctx.heeded (c : Ctx) (K : Kernel) (n : Sysno) : Heeded :=
  heeds K (.syscall n) (c.args.map fun w => (false, w)) c.outAddress c.mem.at

/-- **One call.** The kernel gets one call, the caller's in all that it heeds, whatever the
slot held and whatever the ocall returns. -/
def Faithful (c : Ctx) (K : Kernel) (n : Sysno) : Prop :=
  ∀ r u rs, Issued c n (hostCalls (fun u h => h.heeded c K u) c r n u) rs →
    rs = [[c.heeded K n]]

theorem faithful_iff_of_phases (h : wrapPhases c n = [wrapSends c n]) :
    Faithful c K n ↔ SendsStay c n ∧
      ∀ u, (unwrapCase n).map (·.heeded c K (sent c n u)) = [c.heeded K n] := by
  have hcalls : ∀ r u, (∀ rs, Issued c n (hostCalls (fun u h => h.heeded c K u) c r n u) rs →
      rs = [[c.heeded K n]]) ↔ SendsStay c n ∧
        (unwrapCase n).map (·.heeded c K (sent c n u)) = [c.heeded K n] := by
    intro r u
    rw [forall_issued_iff ⟨[], (List.cons_ne_nil _ _).symm⟩, hostCalls_eq h, List.cons.injEq,
      and_iff_left rfl]
  unfold Faithful
  simp only [hcalls, forall_and, forall_const]

end Porpoise.Shim
