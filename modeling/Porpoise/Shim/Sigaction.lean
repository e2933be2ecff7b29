import Mathlib.Data.List.Induction
import Porpoise.Lib.LastWrite
import Porpoise.Shim.Success

/-!
# `sigaction`

The library fills a `struct k_sigaction`, the case takes it for a `struct sigaction`, and the
host calls `sigaction` with `NULL` for the new action. Of the old action, eight bytes come
back.

* `SigCall.next`, `SigCall.answer`: one call, from the library down to the host and back.
* `host_after`: no call changes a disposition of the host. `handlerList_after`: the enclave
  keeps the handlers, but no call reads them.
* `sigaction_remembers_iff`: which histories of calls return what was installed last.
-/

namespace Porpoise.Shim

open Porpoise.Lib

/-- A `struct sigaction`: the handler, the flags and the signals 1 to 64 of the mask. -/
structure Action where
  handler : Word
  flags : BitVec 32
  mask : Word
  deriving DecidableEq

/-- `SIG_DFL`, no flags and no signals. -/
def Action.dfl : Action := ⟨0, 0, 0⟩

/-! ## The host -/

/-- The dispositions of the host's process: for each signal, a `struct sigaction` of the
host's C library. -/
abbrev Dispositions := BitVec 32 → Bytes

/-- `sigaction` of the host's C library. When it does not refuse, it writes the old action
and installs the new one, where they are not `NULL`. -/
def hostSigaction (c : Ctx) (accepted : Bool) (args : List Word) (D : Dispositions) (u : UMem) :
    Dispositions × UMem :=
  match args, accepted with
  | [signum, act, act_old], true =>
      let sig := signum.setWidth 32
      (if act = 0 then D else Function.update D sig (u (c.region act)),
       if act_old = 0 then u
       else Function.update u (c.region act_old)
         (overlay 0 152 (D sig) (u (c.region act_old))))
  | _, _ => (D, u)

/-- `SA_SIGINFO | SA_NODEFER | SA_RESTART`. -/
def outsideFlags : Word := 0x50000004

/-- `if(act != NULL)`: the handler and the flags of the new action. -/
def rewriteAct (c : Ctx) (outside_sig_handler : Word) (u : UMem) : UMem :=
  let act := load64 (u (.buf .arg2)) 0
  if act ≠ 0 then
    Function.update u (c.region act)
      (overlay 136 4 (le64 outsideFlags)
        (overlay 0 8 (le64 outside_sig_handler) (u (c.region act))))
  else u

/-- The call of the host's case. -/
def rtSigactionCall : HostCall := ⟨.sigaction, [.int .arg1, .null, .long .arg3]⟩

/-- The host's case. -/
def hostCase (c : Ctx) (outside_sig_handler : Word) (accepted : Bool) (D : Dispositions)
    (u : UMem) : Dispositions × UMem :=
  hostSigaction c accepted (rtSigactionCall.args.map (·.eval c u)) D
    (rewriteAct c outside_sig_handler u)

/-! ## The enclave -/

def saRestorer : BitVec 32 := 0x04000000

/-- The `struct k_sigaction` of an action: handler, flags, restorer and mask. -/
def ksaBytes (a : Action) (restorer : Word) : Bytes :=
  overlay 0 8 (le64 a.handler) <|
    overlay 8 8 (le64 ((a.flags ||| saRestorer).signExtend 64)) <|
      overlay 16 8 (le64 restorer) (overlay 24 8 (le64 a.mask) fun _ => 0)

/-- A call `sigaction(sig, new, old)`, with what it meets: the two local variables of the
library, the rest of memory, the slot and the answer of the host's library. -/
structure SigCall where
  sig : BitVec 32
  new : Option Action
  /-- `old` is not `NULL`. -/
  old : Bool
  frame : Ctx
  ksa : Word
  ksaOld : Word
  ksa_ne : ksa ≠ 0
  ksaOld_ne : ksaOld ≠ 0
  apart : Apart ksaOld 32 ksa 32
  restorer : Word
  outside_sig_handler : Word
  slot : UMem
  accepted : Bool

/-- The dispositions of the host and `handler_list`. -/
structure SigState where
  host : Dispositions
  handlerList : Word → Word

/-- `sig-32U < 3 || sig-1U >= _NSIG-1`. -/
def Rejected (sig : BitVec 32) : Prop := (sig - 32).toNat < 3 ∨ 64 ≤ (sig - 1).toNat

instance (sig : BitVec 32) : Decidable (Rejected sig) := inferInstanceAs (Decidable (_ ∨ _))

namespace SigCall

/-- `__syscall(SYS_rt_sigaction, sig, sa?&ksa:0, old?&ksa_old:0, _NSIG/8)`. -/
def ctx (q : SigCall) : Ctx :=
  { q.frame with
    a1 := q.sig.signExtend 64
    a2 := if q.new.isSome then q.ksa else 0
    a3 := if q.old then q.ksaOld else 0
    a4 := 8
    mem := match q.new with
      | some a => q.frame.mem.store q.ksa 32 (ksaBytes a q.restorer)
      | none => q.frame.mem }

/-- The library lets the signal pass and the host's library does not refuse. -/
def Succeeds (q : SigCall) : Prop := ¬ Rejected q.sig ∧ q.accepted = true

instance (q : SigCall) : Decidable q.Succeeds := inferInstanceAs (Decidable (_ ∧ _))

/-- What the host leaves. -/
def hostAfter (q : SigCall) (s : SigState) : Dispositions × UMem :=
  hostCase q.ctx q.outside_sig_handler q.accepted s.host (sent q.ctx .rt_sigaction q.slot)

/-- `handler_list[signum]` gets the handler of the new action. -/
def handlers (q : SigCall) (h : Word → Word) : Word → Word :=
  if q.ctx.a2 = 0 then h else Function.update h q.ctx.a1 (load64 (q.ctx.mem.at q.ctx.a2) 0)

def next (q : SigCall) (s : SigState) : SigState :=
  if Rejected q.sig then s else ⟨(q.hostAfter s).1, q.handlers s.handlerList⟩

/-- `ksa_old`, from which the library fills `*old`. -/
def readOld (m : Mem) (p : Word) : Action :=
  ⟨load64 (m.at p) 0, (load64 (m.at p) 8).setWidth 32, load64 (m.at p) 24⟩

/-- The call asks for the old action and succeeds. -/
def Asks (q : SigCall) : Prop := q.Succeeds ∧ q.old = true

instance (q : SigCall) : Decidable q.Asks := inferInstanceAs (Decidable (_ ∧ _))

/-- What `*old` holds afterwards. -/
def answer (q : SigCall) (s : SigState) : Option Action :=
  if q.Asks then some (readOld (memAfter q.ctx .rt_sigaction (q.hostAfter s).2) q.ksaOld) else none

end SigCall

/-- The state after a history of calls. -/
def afterCalls (s : SigState) (qs : List SigCall) : SigState := qs.foldl (fun s q => q.next s) s

/-- The actions that successful calls were given to install. -/
def installs (qs : List SigCall) : List (BitVec 32 × Action) :=
  qs.filterMap fun q => if q.Succeeds then q.new.map (q.sig, ·) else none

/-- The action of a signal after these calls. -/
def lastAction (qs : List SigCall) (sig : BitVec 32) : Action :=
  (lastWrite (installs qs) sig).getD .dfl

/-- **`sigaction` remembers.** Each call of the history that asks for the old action gets
the one installed last for its signal. -/
def Remembers (s : SigState) (qs : List SigCall) : Prop :=
  ∀ ps q, ps ++ [q] <+: qs → ∀ a, q.answer (afterCalls s ps) = some a → a = lastAction ps q.sig

/-- The action is what the host has for the signal and, but for the handler, what the
library's stack held before the call. -/
structure OldFits (D : Dispositions) (q : SigCall) (a : Action) : Prop where
  handler : load64 (D q.sig) 0 = a.handler
  flags : (load64 (q.frame.mem.at q.ksaOld) 8).setWidth 32 = a.flags
  mask : load64 (q.frame.mem.at q.ksaOld) 24 = a.mask

variable {q : SigCall} {s : SigState} {ps qs : List SigCall} {D : Dispositions}

/-! ## One call -/

/-- The pointer to the old action that the host reads. -/
theorem load64_sent_act_old (c : Ctx) (u : UMem) :
    load64 (sent c .rt_sigaction u (.buf .arg3)) 0 = if c.a3 = 0 then 0 else c.addr .arg6 := by
  by_cases h2 : c.a2 = 0#64 <;> by_cases h3 : c.a3 = 0#64 <;> simp [sent, wrapSends, h2, h3]

theorem load32_sent_signum (c : Ctx) (u : UMem) :
    load32 (sent c .rt_sigaction u (.buf .arg1)) 0 = c.a1.setWidth 32 := by
  by_cases h2 : c.a2 = 0#64 <;> by_cases h3 : c.a3 = 0#64 <;> simp [sent, wrapSends, h2, h3]

/-- The arguments of the host's `sigaction`: the new action is `NULL`. -/
theorem hostArgs_eq (c : Ctx) (u : UMem) :
    rtSigactionCall.args.map (·.eval c (sent c .rt_sigaction u)) =
      [(c.a1.setWidth 32).setWidth 64, 0, if c.a3 = 0 then 0 else c.addr .arg6] := by
  simp only [rtSigactionCall, List.map_cons, List.map_nil, Operand.eval, load32_sent_signum,
    load64_sent_act_old]

/-- **The host's dispositions** stay as they are. -/
theorem hostAfter_fst (q : SigCall) (s : SigState) : (q.hostAfter s).1 = s.host := by
  rw [SigCall.hostAfter, hostCase, hostArgs_eq]
  cases q.accepted with
  | false => rfl
  | true => rfl

/-- What the host writes for the old action. -/
theorem hostAfter_arg6 (hq : q.Asks) (s : SigState) {j : Nat} (hj : j < 152) :
    (q.hostAfter s).2 (.buf .arg6) j = s.host q.sig j := by
  obtain ⟨⟨-, haccepted⟩, hold⟩ := hq
  have h3 : q.ctx.a3 ≠ 0 := by
    show (if q.old = true then q.ksaOld else 0) ≠ 0
    rw [if_pos hold]
    exact q.ksaOld_ne
  have hsig : ((q.ctx.a1.setWidth 32).setWidth 64).setWidth 32 = q.sig := by
    show (((q.sig.signExtend 64).setWidth 32).setWidth 64).setWidth 32 = q.sig
    rw [trunc_int, setWidth_signExtend]
  rw [SigCall.hostAfter, hostCase, hostArgs_eq, haccepted, if_neg h3]
  show (if q.ctx.addr .arg6 = 0 then _ else _ : UMem) (.buf .arg6) j = _
  rw [if_neg (q.ctx.addr_ne .arg6), Ctx.region_addr, Function.update_self, hsig]
  simpa using overlay_of_lt (o := 0) hj (s.host q.sig) _

/-- The library's variable for the old action, when it asked for one: eight bytes are
copied, the others are as before the call. -/
theorem memAfter_ksaOld (hold : q.old = true) (v : UMem) {j : Nat} (hj : j < 32) :
    (memAfter q.ctx .rt_sigaction v).at q.ksaOld j =
      if j < 8 then v (.buf .arg6) j else q.frame.mem.at q.ksaOld j := by
  have h3 : q.ctx.a3 = q.ksaOld := if_pos hold
  have hmem : memAfter q.ctx .rt_sigaction v =
      (recv (.buf .arg6) q.ksaOld 8).apply v q.ctx.mem := by
    show applyRecvs v (if q.ctx.a3 ≠ 0 then [recv (.buf .arg6) q.ctx.a3 8] else []) q.ctx.mem = _
    rw [h3, if_pos q.ksaOld_ne, applyRecvs_cons, applyRecvs_nil]
  have hksa : q.ctx.mem.at q.ksaOld j = q.frame.mem.at q.ksaOld j := by
    show (match q.new with
      | some a => q.frame.mem.store q.ksa 32 (ksaBytes a q.restorer)
      | none => q.frame.mem) _ = _
    cases q.new with
    | none => rfl
    | some a => exact if_neg (Nat.not_lt.mpr (q.apart j hj))
  have hdist : (q.ksaOld + BitVec.ofNat 64 j - q.ksaOld).toNat = j := toNat_add_sub _ (by omega)
  rw [hmem, Mem.at, recv_apply_eq, hdist, ← hksa]
  rfl

/-- **What `*old` gets.** The handler is the host's, the rest is what the stack held. -/
theorem answer_eq (q : SigCall) (s : SigState) :
    q.answer s = if q.Asks then
      some ⟨load64 (s.host q.sig) 0, (load64 (q.frame.mem.at q.ksaOld) 8).setWidth 32,
        load64 (q.frame.mem.at q.ksaOld) 24⟩
    else none := by
  unfold SigCall.answer
  by_cases hq : q.Asks
  · have hhandler : load64 ((memAfter q.ctx .rt_sigaction (q.hostAfter s).2).at q.ksaOld) 0 =
        load64 (s.host q.sig) 0 := by
      refine load64_congr fun i hi => ?_
      rw [memAfter_ksaOld hq.2 _ (by omega), if_pos (by omega), hostAfter_arg6 hq s (by omega)]
    have hrest : ∀ o, 8 ≤ o → o + 8 ≤ 32 →
        load64 ((memAfter q.ctx .rt_sigaction (q.hostAfter s).2).at q.ksaOld) o =
          load64 (q.frame.mem.at q.ksaOld) o := by
      intro o ho ho'
      refine load64_congr fun i hi => ?_
      rw [memAfter_ksaOld hq.2 _ (by omega), if_neg (by omega)]
    rw [if_pos hq, if_pos hq, SigCall.readOld, hhandler, hrest 8 (by omega) (by omega),
      hrest 24 (by omega) (by omega)]
  · rw [if_neg hq, if_neg hq]

theorem answer_iff (a : Action) :
    (∀ x, q.answer s = some x → x = a) ↔ (q.Asks → OldFits s.host q a) := by
  rw [answer_eq]
  by_cases hq : q.Asks
  · simp only [if_pos hq, Option.some.injEq, forall_eq', forall_prop_of_true hq]
    constructor
    · rintro rfl
      exact ⟨rfl, rfl, rfl⟩
    · rintro ⟨hhandler, hflags, hmask⟩
      rw [hhandler, hflags, hmask]
  · simp [hq]

/-! ## Histories -/

theorem afterCalls_snoc (s : SigState) (qs : List SigCall) (q : SigCall) :
    afterCalls s (qs ++ [q]) = q.next (afterCalls s qs) := List.foldl_concat ..

theorem next_host (q : SigCall) (s : SigState) : (q.next s).host = s.host := by
  unfold SigCall.next
  split
  · rfl
  · exact hostAfter_fst q s

/-- **No call installs anything** in the host. -/
theorem host_after (s : SigState) (qs : List SigCall) : (afterCalls s qs).host = s.host := by
  induction qs using List.reverseRecOn with
  | nil => rfl
  | append_singleton qs q ih => rw [afterCalls_snoc, next_host, ih]

/-- The handlers that calls handed to the case, whether or not the host refused. -/
def handed (qs : List SigCall) : List (BitVec 32 × Word) :=
  qs.filterMap fun q => if Rejected q.sig then none else q.new.map fun a => (q.sig, a.handler)

theorem handed_snoc (qs : List SigCall) (q : SigCall) : handed (qs ++ [q]) = handed qs ++
    (if Rejected q.sig then none else q.new.map fun a => (q.sig, a.handler)).toList := by
  rw [handed, List.filterMap_append]
  rfl

theorem load64_store_ksa (m : Mem) (p : Word) (a : Action) (restorer : Word) :
    load64 ((m.store p 32 (ksaBytes a restorer)).at p) 0 = a.handler := by
  have hbytes : ∀ i < 8, (m.store p 32 (ksaBytes a restorer)).at p (0 + i) =
      overlay 0 8 (le64 a.handler) (fun _ => 0) (0 + i) := by
    intro i hi
    have hdist : (p + BitVec.ofNat 64 (0 + i) - p).toNat = 0 + i := toNat_add_sub _ (by omega)
    show (if _ < 32 then _ else _) = _
    rw [hdist, if_pos (by omega)]
    exact (overlay_of_lt hi _ _).trans (overlay_of_lt hi _ _).symm
  rw [load64_congr hbytes, load64_overlay_self]

/-- What a call stores in `handler_list`. -/
theorem handlers_eq (q : SigCall) (h : Word → Word) : q.handlers h = match q.new with
    | some a => Function.update h (q.sig.signExtend 64) a.handler
    | none => h := by
  unfold SigCall.handlers SigCall.ctx
  cases q.new with
  | none => exact if_pos rfl
  | some a =>
      show (if q.ksa = 0 then _ else _) = _
      rw [if_neg q.ksa_ne]
      exact congrArg _ (load64_store_ksa _ _ _ _)

theorem signExtend_inj {x y : BitVec 32} (h : x.signExtend 64 = y.signExtend 64) : x = y := by
  rw [← setWidth_signExtend x, h, setWidth_signExtend]

/-- **`handler_list`** has the handler of the last call for each signal; no call returns
it. -/
theorem handlerList_after (s : SigState) (qs : List SigCall) (sig : BitVec 32) :
    (afterCalls s qs).handlerList (sig.signExtend 64) =
      (lastWrite (handed qs) sig).getD (s.handlerList (sig.signExtend 64)) := by
  induction qs using List.reverseRecOn with
  | nil => rfl
  | append_singleton qs q ih =>
      rw [afterCalls_snoc, handed_snoc, SigCall.next]
      by_cases hrejected : Rejected q.sig
      · rw [if_pos hrejected, if_pos hrejected, Option.toList_none, List.append_nil, ih]
      rw [if_neg hrejected, if_neg hrejected]
      show q.handlers (afterCalls s qs).handlerList _ = _
      rw [handlers_eq]
      cases q.new with
      | none =>
          rw [Option.map_none, Option.toList_none, List.append_nil]
          exact ih
      | some a =>
          rw [Option.map_some, Option.toList_some]
          by_cases hsig : sig = q.sig
          · subst hsig
            rw [lastWrite_snoc_self]
            exact Function.update_self ..
          · rw [lastWrite_snoc_of_ne hsig, ← ih]
            exact Function.update_of_ne (fun heq => hsig (signExtend_inj heq)) _ _

/-- **`sigaction` remembers** exactly when, at each call that asks for the old action, the
host has the handler that was installed last in the enclave, and the stack of the library
happens to hold its flags and its mask. -/
theorem sigaction_remembers_iff (s : SigState) (qs : List SigCall) :
    Remembers s qs ↔ ∀ ps q, ps ++ [q] <+: qs → q.Asks →
      OldFits s.host q (lastAction ps q.sig) := by
  refine forall₃_congr fun ps q _ => ?_
  rw [answer_iff, host_after]

/-- A call for `SIGUSR1` that the host accepts, on an empty stack. -/
def usr1Call (new : Option Action) (old : Bool) : SigCall where
  sig := 10
  new; old
  frame := Ctx.plain 0 0 0 0 0 0 fun _ => 0
  ksa := 8192
  ksaOld := 8320
  ksa_ne := by decide
  ksaOld_ne := by decide
  apart := by
    show ∀ j < 32, 32 ≤ (8320 + BitVec.ofNat 64 j - 8192#64).toNat
    decide
  restorer := 4096
  outside_sig_handler := 4096
  slot _ _ := 0
  accepted := true

/-- `sigaction(SIGUSR1, &new, NULL)` and `sigaction(SIGUSR1, NULL, &old)`: the second call
returns `SIG_DFL`. -/
theorem sigaction_forgets : ¬ Remembers ⟨fun _ _ => 0, fun _ => 0⟩
    [usr1Call (some ⟨0x401000, 0, 0⟩) false, usr1Call none true] := by
  intro h
  have hlast := h [usr1Call (some ⟨0x401000, 0, 0⟩) false] (usr1Call none true)
    (List.prefix_refl _) ⟨0, 0, 0⟩
  have hanswer : (usr1Call none true).answer
      (afterCalls ⟨fun _ _ => 0, fun _ => 0⟩ [usr1Call (some ⟨0x401000, 0, 0⟩) false]) =
      some ⟨0, 0, 0⟩ := by
    rw [answer_eq, host_after]
    decide
  have hinstalled : lastAction [usr1Call (some ⟨0x401000, 0, 0⟩) false]
      (usr1Call none true).sig = ⟨0x401000, 0, 0⟩ := by
    decide
  have heq := (hlast hanswer).trans hinstalled
  exact absurd heq (by decide)

end Porpoise.Shim
