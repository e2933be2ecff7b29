import Mathlib.Data.List.Basic
import Porpoise.Shim.Result

/-!
# Creating a thread

`__pthread_create` counts the new thread, asks the host for it through
`__clone`, and takes the count and the mapping back when the result is
negative. The result has come a long way by then:

* the host's `pthread_create` returns 0 or an error number and leaves `errno`
  as it was; its case stores 1 or -1 in `arg0`, and `ocall_syscall` replaces
  the -1 by `-errno`;
* `syscall` turns an error number into -1, and `__clone` cuts the result to an
  `int`.

With scheduling parameters in the attributes, `__pthread_create` also waits for
what `__start_sched` stores on the new thread.
-/

namespace Porpoise.Threads

open Porpoise.Lib Porpoise.Shim

/-- `EAGAIN`. -/
def EAGAIN : Int := 11

/-- How the wait for `ssa.futex` ends. -/
inductive Wait
  /-- After `__start_sched` has stored its result. -/
  | stored
  /-- Before that. -/
  | early
  | never

/-- What `__pthread_create` has prepared for the new thread: the mapping, at
`NULL` when the stack is the caller's, and `attr._a_sched`. -/
structure NewThread where
  map : Nat
  size : Nat
  do_sched : Bool
  wait : Wait

/-- The process as `__pthread_create` changes it. -/
structure Process where
  machine : Machine
  threads_minus_1 : Int
  /-- The mappings made for threads. -/
  maps : List (Nat × Nat)

/-- The host's `pthread_create`: its result and `errno` after it. -/
def pthreadCreateOutcome (L : Libc) (ks : Nat → Nat → Answer) (s : Process) : Word × BitVec 32 :=
  L.call .pthread_create (ks 0 0).raw s.machine.host.errno

/-- The host has started the thread. -/
def Started (L : Libc) (ks : Nat → Nat → Answer) (s : Process) : Prop :=
  (pthreadCreateOutcome L ks s).1 = 0

instance (L : Libc) (ks : Nat → Nat → Answer) (s : Process) : Decidable (Started L ks s) :=
  inferInstanceAs (Decidable (_ = _))

/-- What `__start_sched` stores: minus the result of `SYS_sched_setscheduler`,
for which `__syscall_wrap` has no case, so that it returns -1. -/
def startSchedResult : Int := -(-1)

/-- `ssa.futex` when the wait returns, `none` when it does not. -/
def ssaFutex (started : Bool) : Wait → Option Int
  | .stored => if started then some startSchedResult else none
  | .early => some (-1)
  | .never => none

/-- What is returned for a thread that was created, as far as one can tell. -/
def awaitSched (new : NewThread) (started : Bool) : Option Int :=
  if new.do_sched then ssaFutex started new.wait else some 0

/-- `__clone`. -/
def clone (L : Libc) (c : Ctx) (ks : Nat → Nat → Answer) (m : Machine) :
    Option (BitVec 32 × Machine) :=
  (syscall L c 0 ks .clone m).map fun p => (p.1.setWidth 32, p.2)

/-- `__pthread_create` from the mapping on: what it returns, and the process
then; `none` when it does not return. -/
def pthreadCreate (L : Libc) (c : Ctx) (ks : Nat → Nat → Answer) (new : NewThread)
    (s : Process) : Option (Int × Process) := do
  let maps := if new.map = 0 then s.maps else (new.map, new.size) :: s.maps
  let threads := s.threads_minus_1 + 1
  let (ret, m) ← clone L c ks s.machine
  if ret.toInt < 0 then
    some (EAGAIN, ⟨m, threads - 1, if new.map = 0 then maps else maps.erase (new.map, new.size)⟩)
  else (awaitSched new (Started L ks s)).map fun ret => (ret, ⟨m, threads, maps⟩)

/-- The outcome is reported: 0 and one thread more when the host has started
it, `EAGAIN` and everything as before when it has not. -/
def Reported (started : Prop) (s : Process) (r : Option (Int × Process)) : Prop :=
  ∃ ret s', r = some (ret, s') ∧
    (started → ret = 0 ∧ s'.threads_minus_1 = s.threads_minus_1 + 1) ∧
    (¬ started → ret = EAGAIN ∧ s'.threads_minus_1 = s.threads_minus_1 ∧ s'.maps = s.maps)

/-! ## The result of `__clone` -/

variable {L : Libc}

/-- What `ocall_syscall` leaves in `arg0`. -/
def cloneResult (L : Libc) (ks : Nat → Nat → Answer) (s : Process) : Word :=
  if Started L ks s then 1 else (-(pthreadCreateOutcome L ks s).2).signExtend 64

theorem ocall_clone (hL : L.Documented) (c : Ctx) (ks : Nat → Nat → Answer) (s : Process) :
    ∃ h', ocallSyscall L (ks 0) { s.machine.host with u := sent c .clone s.machine.host.u } =
        some h' ∧ resultOf h'.u = cloneResult L ks s := by
  have hnr := hostSysno_sent c .clone s.machine.host.u
  have hrange : (load32 (sent c .clone s.machine.host.u (.buf .arg0)) 0).toInt = 56 := by
    have harg0 : sent c .clone s.machine.host.u (.buf .arg0) =
        (sendNr .clone).apply s.machine.host.u (.buf .arg0) :=
      applyAll_of_ne (dst_ne_arg0 c .clone) _
    rw [harg0, sendNr_apply, if_pos rfl, nr_in_range]
    rfl
  have hvalid : ¬ ((load32 (sent c .clone s.machine.host.u (.buf .arg0)) 0).toInt < 0 ∨
      350 < (load32 (sent c .clone s.machine.host.u (.buf .arg0)) 0).toInt) := by
    omega
  unfold ocallSyscall
  simp only [hvalid, if_false, hnr, unwrapCase, Host.calls, Host.call, hL.printf_errno, ite_self]
  refine ⟨_, rfl, ?_⟩
  unfold Host.storeErrno cloneResult
  by_cases hst : Started L ks s
  · have hzero : (L.call .pthread_create (ks 0 0).raw s.machine.host.errno).1 = 0#64 := hst
    rw [if_pos hst]
    simp [storedResult, hzero]
  · have hne : ¬ (L.call .pthread_create (ks 0 0).raw s.machine.host.errno).1 = 0#64 := hst
    rw [if_neg hst]
    simp [storedResult, hne, pthreadCreateOutcome]

/-- The sign of a result survives `syscall`, and the cut to an `int`. -/
theorem toInt_neg_iff (e : BitVec 32) :
    ((if IsError ((-e).signExtend 64) then -1 else (-e).signExtend 64 : Word).setWidth 32).toInt <
      0 ↔ (-e).toInt < 0 := by
  have hwidth : ((-e).signExtend 64).setWidth 32 = -e := by simp
  split
  · rename_i herr
    have hneg : (-e).toInt < 0 := by
      have hle := herr.2
      rw [BitVec.toInt_signExtend_of_le (by decide)] at hle
      omega
    exact ⟨fun _ => hneg, fun _ => by decide⟩
  · rw [hwidth]

/-- What `__clone` returns: negative exactly when the thread was not started
and `-errno` is negative. -/
theorem clone_spec (hL : L.Documented) (c : Ctx) (ks : Nat → Nat → Answer) (s : Process) :
    ∃ ret m, clone L c ks s.machine = some (ret, m) ∧
      (ret.toInt < 0 ↔ ¬ Started L ks s ∧ (-(pthreadCreateOutcome L ks s).2).toInt < 0) := by
  obtain ⟨h', hocall, hres⟩ := ocall_clone hL c ks s
  have hwrap : ∃ m, syscallWrap L c 0 ks .clone s.machine = some (cloneResult L ks s, m) := by
    refine ⟨⟨h', if cloneResult L ks s = -1 then load32 (h'.u (.buf .err_no)) 0
      else s.machine.errno⟩, ?_⟩
    unfold syscallWrap
    rw [show wrapPhases c .clone = [wrapSends c .clone] from rfl]
    simp only [runPhases]
    rw [← sent, hocall]
    simp [hres]
  obtain ⟨m, hwrap⟩ := hwrap
  have hclone : clone L c ks s.machine =
      some ((syscallRet (cloneResult L ks s) m.errno).1.setWidth 32,
        { m with errno := (syscallRet (cloneResult L ks s) m.errno).2 }) := by
    unfold clone syscall
    rw [hwrap]
    rfl
  have hret : (syscallRet (cloneResult L ks s) m.errno).1 =
      if IsError (cloneResult L ks s) then -1 else cloneResult L ks s := by
    rw [syscallRet_eq]
    split <;> rfl
  refine ⟨_, _, hclone, ?_⟩
  rw [hret, cloneResult]
  by_cases hst : Started L ks s
  · rw [if_pos hst]
    have hone : ¬ ((if IsError 1 then -1 else 1 : Word).setWidth 32).toInt < 0 := by decide
    exact ⟨fun h => absurd h hone, fun h => absurd hst h.1⟩
  · rw [if_neg hst, toInt_neg_iff]
    exact ⟨fun h => ⟨hst, h⟩, fun h => h.2⟩

/-! ## What `__pthread_create` reports -/

/-- The thread's mapping goes and comes. -/
theorem erase_map (new : NewThread) (maps : List (Nat × Nat)) :
    (if new.map = 0 then (if new.map = 0 then maps else (new.map, new.size) :: maps)
      else (if new.map = 0 then maps else (new.map, new.size) :: maps).erase
        (new.map, new.size)) = maps := by
  split <;> simp

/-- When the wait for `ssa.futex` returns, it does not hold 0. -/
theorem ssaFutex_ne_zero (started : Bool) (w : Wait) : ssaFutex started w ≠ some 0 := by
  cases w <;> cases started <;> decide

theorem pthreadCreate_of_nonneg {c : Ctx} {ks : Nat → Nat → Answer} {s : Process}
    {ret : BitVec 32} {m : Machine} (hclone : clone L c ks s.machine = some (ret, m))
    (hge : ¬ ret.toInt < 0) (new : NewThread) :
    pthreadCreate L c ks new s = (awaitSched new (Started L ks s)).map fun r =>
      (r, ⟨m, s.threads_minus_1 + 1,
        if new.map = 0 then s.maps else (new.map, new.size) :: s.maps⟩) := by
  simp only [pthreadCreate, hclone, Option.bind_eq_bind, Option.bind_some, if_neg hge]

/-- **Thread creation and its failure.** A thread that the host starts is
reported unless scheduling parameters are to be set; one that it does not start
is reported exactly when minus the host's `errno` is negative. -/
theorem creation_reported_iff (hL : L.Documented) (c : Ctx) (ks : Nat → Nat → Answer)
    (new : NewThread) (s : Process) :
    Reported (Started L ks s) s (pthreadCreate L c ks new s) ↔
      if Started L ks s then new.do_sched = false
      else (-(pthreadCreateOutcome L ks s).2).toInt < 0 := by
  obtain ⟨ret, m, hclone, hneg⟩ := clone_spec hL c ks s
  by_cases hst : Started L ks s
  · have hge : ¬ ret.toInt < 0 := fun h => (hneg.mp h).1 hst
    rw [if_pos hst, pthreadCreate_of_nonneg hclone hge new]
    cases hsched : new.do_sched with
    | false =>
        refine ⟨fun _ => rfl, fun _ => ?_⟩
        rw [awaitSched, hsched]
        exact ⟨0, _, rfl, fun _ => ⟨rfl, rfl⟩, fun h => absurd hst h⟩
    | true =>
        refine ⟨?_, fun h => by cases h⟩
        rintro ⟨r, s', hr, hok, -⟩
        obtain ⟨rfl, -⟩ := hok hst
        rw [awaitSched, hsched] at hr
        obtain ⟨v, hv, hr⟩ := Option.map_eq_some_iff.mp hr
        cases hr
        exact absurd hv (ssaFutex_ne_zero _ _)
  · rw [if_neg hst]
    by_cases herrno : (-(pthreadCreateOutcome L ks s).2).toInt < 0
    · have hlt : ret.toInt < 0 := hneg.mpr ⟨hst, herrno⟩
      refine ⟨fun _ => herrno, fun _ => ?_⟩
      refine ⟨EAGAIN, ⟨m, s.threads_minus_1, s.maps⟩, ?_, fun h => absurd h hst,
        fun _ => ⟨rfl, rfl, rfl⟩⟩
      simp only [pthreadCreate, hclone, Option.bind_eq_bind, Option.bind_some, if_pos hlt,
        erase_map, Int.add_sub_cancel]
    · have hge : ¬ ret.toInt < 0 := fun h => herrno (hneg.mp h).2
      refine ⟨?_, fun h => absurd h herrno⟩
      rintro ⟨r, s', hr, -, hbad⟩
      -- the count is not taken back
      obtain ⟨-, hcount, -⟩ := hbad hst
      rw [pthreadCreate_of_nonneg hclone hge new] at hr
      obtain ⟨v, hv, hr⟩ := Option.map_eq_some_iff.mp hr
      cases hr
      have hsucc : s.threads_minus_1 + 1 = s.threads_minus_1 := hcount
      omega

/-- The libraries, with a `pthread_create` that returns its error number and
leaves `errno` alone. -/
def threadLibc : Libc :=
  { libc with
    call := fun fn r e => if fn = .pthread_create then (r, e) else libc.call fn r e }

theorem threadLibc_documented : threadLibc.Documented where
  call_ok := libc_documented.call_ok
  call_error := libc_documented.call_error
  printf_errno _ := rfl
  malloc_errno _ := rfl

/-- The host's answer to a `clone`: `pthread_create` returns `r`. -/
def createAnswer (r : Word) : Nat → Nat → Answer := fun _ _ => ⟨r, id⟩

/-- A process with the host's `errno` at `e` and no thread but the first. -/
def oneThread (e : BitVec 32) : Process := ⟨⟨⟨fun _ _ => 0, e⟩, 0⟩, 0, []⟩

def plainContext : Ctx := Ctx.plain 100 56 0 0 0 0 fun _ => 0

/-- The host is out of threads, with `EAGAIN` in its `errno` too. -/
theorem creation_reported_eagain :
    Reported (Started threadLibc (createAnswer 11) (oneThread 11)) (oneThread 11)
      (pthreadCreate threadLibc plainContext (createAnswer 11) ⟨4096, 8192, false, .never⟩
        (oneThread 11)) :=
  (creation_reported_iff threadLibc_documented plainContext (createAnswer 11)
    ⟨4096, 8192, false, .never⟩ (oneThread 11)).mpr (by decide)

/-- The same with 0 in the host's `errno`: the thread that was never started is
reported as created. -/
theorem creation_unreported :
    ¬ Started threadLibc (createAnswer 11) (oneThread 0) ∧
      (∃ s', pthreadCreate threadLibc plainContext (createAnswer 11) ⟨4096, 8192, false, .never⟩
        (oneThread 0) = some (0, s') ∧ s'.threads_minus_1 = 1) ∧
      ¬ Reported (Started threadLibc (createAnswer 11) (oneThread 0)) (oneThread 0)
        (pthreadCreate threadLibc plainContext (createAnswer 11) ⟨4096, 8192, false, .never⟩
          (oneThread 0)) := by
  have hst : ¬ Started threadLibc (createAnswer 11) (oneThread 0) := by decide
  obtain ⟨ret, m, hclone, hneg⟩ :=
    clone_spec threadLibc_documented plainContext (createAnswer 11) (oneThread 0)
  have hge : ¬ ret.toInt < 0 := fun h => absurd (hneg.mp h).2 (by decide)
  have hcreate := pthreadCreate_of_nonneg hclone hge ⟨4096, 8192, false, .never⟩
  refine ⟨hst, ⟨_, hcreate, rfl⟩, ?_⟩
  rintro ⟨r, s', hr, -, hbad⟩
  obtain ⟨hagain, -⟩ := hbad hst
  rw [hcreate] at hr
  cases hr
  cases hagain

end Porpoise.Threads
