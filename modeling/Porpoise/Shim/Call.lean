import Porpoise.Shim.Abi
import Porpoise.Shim.Wrap

/-!
# The requests of a wrapped call

`requests` is what the kernel learns from one `__syscall_wrap`: for each ocall,
the calls that the host's switch makes, viewed as `Porpoise.Shim.Abi` says. The
host decodes what the slot holds after the enclave's writes, with the number
itself read back from `arg0`.

A store past the end of a buffer changes memory that is no part of the model, the
buffers behind it among them. `Issued` says what may be asked of the kernel with that in mind.

The lemmas at the end evaluate the slot after a known list of writes; with them
`simp` runs a case of the encoder and of the decoder on symbolic arguments.
-/

namespace Porpoise.Shim

open Porpoise.Lib

/-- One call of the host's C library, as the kernel sees it. -/
structure Request where
  fn : HostFn
  args : List ArgView
  deriving DecidableEq

/-- The case that `int n = *(int*)arg0` selects. -/
def hostSysno (u : UMem) : Option Sysno := Sysno.ofNr? (load32 (u (.buf .arg0)) 0).toNat

def HostCall.request (c : Ctx) (K : Kernel) (u : UMem) (h : HostCall) : Request :=
  ⟨h.fn, kernelView K h.fn (h.args.map (·.eval c u)) fun p => u (c.region p)⟩

/-- The calls of one `ocall_syscall`. -/
def ocallCalls (u : UMem) : List HostCall :=
  match hostSysno u with
  | none => []
  | some n => unwrapCase n

/-- The requests of one `ocall_syscall`. -/
def ocallRequests (c : Ctx) (K : Kernel) (u : UMem) : List Request :=
  (ocallCalls u).map (·.request c K u)

/-- The calls of the ocalls that are left, each as `f` sees it. The result of one ocall
is in `arg0` when the next begins. -/
def ocallsFrom {α : Type} (f : UMem → HostCall → α) (result : Word) : List (List Store) → UMem →
    List (List α)
  | [], _ => []
  | ss :: rest, u =>
      let u' := applyAll ss u
      (ocallCalls u').map (f u') :: ocallsFrom f result rest ((put .arg0 result).apply u')

/-- `send_user(arg0, &n, sizeof(long), 0)`. -/
def sendNr (n : Sysno) : Store := sendLong .arg0 (BitVec.ofNat 64 n.nr)

/-- The calls of the host for a wrapped call, ocall by ocall. -/
def hostCalls {α : Type} (f : UMem → HostCall → α) (c : Ctx) (result : Word) (n : Sysno)
    (u : UMem) : List (List α) := ocallsFrom f result (wrapPhases c n) ((sendNr n).apply u)

/-- The requests of a wrapped call. -/
def requests (c : Ctx) (K : Kernel) (result : Word) (n : Sysno) (u : UMem) : List (List Request) :=
  hostCalls (fun u h => h.request c K u) c result n u

theorem length_ocallsFrom {α : Type} (f : UMem → HostCall → α) (result : Word)
    (phases : List (List Store)) (u : UMem) :
    (ocallsFrom f result phases u).length = phases.length := by
  induction phases generalizing u with
  | nil => rfl
  | cons ss rest ih => exact congrArg (· + 1) (ih _)

/-- No store before the ocalls leaves its buffer. -/
def SendsStay (c : Ctx) (n : Sysno) : Prop := ∀ ss ∈ wrapPhases c n, ∀ s ∈ ss, s.Stays

/-- What the host may do for a wrapped call: what the slot asks for, and anything after
a store that left its buffer. -/
def Issued {α : Type} (c : Ctx) (n : Sysno) (asked rs : α) : Prop := SendsStay c n → rs = asked

/-! ## The slot after a write -/

section Stores

variable {c : Ctx} {u : UMem} {b b' : Buf} {v : Bytes} {w p len : Word}

theorem apply_eq (s : Store) (u : UMem) (r : Region) :
    s.apply u r = if r = s.dst then overlay s.off s.size s.val (u r) else u r := by
  by_cases h : r = s.dst
  · subst h
    simp [apply_self]
  · simp [apply_of_ne h, h]

@[simp] theorem send_apply (r r' : Region) (v : Bytes) (len : Word) (u : UMem) :
    (send r v len).apply u r' = if r' = r then overlay 0 (memcpyLen len) v (u r') else u r' :=
  apply_eq ..

@[simp] theorem put_apply (b : Buf) (w : Word) (u : UMem) (r : Region) :
    (put b w).apply u r = if r = .buf b then overlay 0 8 (le64 w) (u r) else u r :=
  apply_eq ..

@[simp] theorem putAt_apply (r r' : Region) (o : Nat) (w : Word) (u : UMem) :
    (putAt r o w).apply u r' = if r' = r then overlay o 8 (le64 w) (u r') else u r' :=
  apply_eq ..

@[simp] theorem putIntAt_apply (r r' : Region) (o : Nat) (w : Word) (u : UMem) :
    (putIntAt r o w).apply u r' = if r' = r then overlay o 4 (le64 w) (u r') else u r' :=
  apply_eq ..

@[simp] theorem sendLong_apply (b : Buf) (w : Word) (u : UMem) (r : Region) :
    (sendLong b w).apply u r = if r = .buf b then overlay 0 8 (le64 w) (u r) else u r :=
  apply_eq ..

@[simp] theorem sendInt_apply (b : Buf) (w : Word) (u : UMem) (r : Region) :
    (sendInt b w).apply u r = if r = .buf b then overlay 0 4 (le64 w) (u r) else u r :=
  apply_eq ..

@[simp] theorem sendIntAsLong_apply (c : Ctx) (b : Buf) (w : Word) (u : UMem) (r : Region) :
    (sendIntAsLong c b w).apply u r =
      if r = .buf b then overlay 0 8 (overlay 0 4 (le64 w) c.stack) (u r) else u r :=
  apply_eq ..

@[simp] theorem sendMem_apply (c : Ctx) (b : Buf) (p len : Word) (u : UMem) (r : Region) :
    (sendMem c b p len).apply u r =
      if r = .buf b then overlay 0 (memcpyLen len) (c.mem.at p) (u r) else u r :=
  apply_eq ..

@[simp] theorem sendPath_apply (c : Ctx) (b : Buf) (p : Word) (u : UMem) (r : Region) :
    (sendPath c b p).apply u r =
      if r = .buf b then overlay 0 (memcpyLen (pathLen c p)) (c.mem.at p) (u r) else u r := by
  rw [sendPath, sendMem_apply]

@[simp] theorem sendAddr_apply (c : Ctx) (b b' : Buf) (u : UMem) (r : Region) :
    (sendAddr c b b').apply u r =
      if r = .buf b then overlay 0 8 (le64 (c.addr b')) (u r) else u r :=
  apply_eq ..

@[simp] theorem sendNr_apply (n : Sysno) (u : UMem) (r : Region) :
    (sendNr n).apply u r =
      if r = .buf .arg0 then overlay 0 8 (le64 (BitVec.ofNat 64 n.nr)) (u r) else u r :=
  sendLong_apply ..

end Stores

@[simp] theorem send_dst (r : Region) (v : Bytes) (len : Word) : (send r v len).dst = r := rfl
@[simp] theorem sendLong_dst (b : Buf) (w : Word) : (sendLong b w).dst = .buf b := rfl
@[simp] theorem sendInt_dst (b : Buf) (w : Word) : (sendInt b w).dst = .buf b := rfl
@[simp] theorem sendIntAsLong_dst (c : Ctx) (b : Buf) (w : Word) :
    (sendIntAsLong c b w).dst = .buf b := rfl
@[simp] theorem put_dst (b : Buf) (w : Word) : (put b w).dst = .buf b := rfl
@[simp] theorem putAt_dst (r : Region) (o : Nat) (w : Word) : (putAt r o w).dst = r := rfl
@[simp] theorem putIntAt_dst (r : Region) (o : Nat) (w : Word) : (putIntAt r o w).dst = r := rfl
@[simp] theorem sendMem_dst (c : Ctx) (b : Buf) (p len : Word) :
    (sendMem c b p len).dst = .buf b := rfl
@[simp] theorem sendPath_dst (c : Ctx) (b : Buf) (p : Word) : (sendPath c b p).dst = .buf b := rfl
@[simp] theorem sendAddr_dst (c : Ctx) (b b' : Buf) : (sendAddr c b b').dst = .buf b := rfl
@[simp] theorem sendNullPtr_dst (c : Ctx) : (sendNullPtr c).dst = .buf .arg7 := rfl

/-- The segments lie in `arg4` to `arg8` only. -/
theorem segBuf_ne {b : Buf} (hb : b ∉ (List.range 5).map segBuf) (i : Nat) : segBuf i ≠ b := by
  rintro rfl
  revert hb
  unfold segBuf
  split <;> decide

/-- What holds of every element of a conditional list. -/
theorem forall_mem_ite {α : Type} {p : Prop} [Decidable p] {xs ys : List α} {Q : α → Prop} :
    (∀ x ∈ if p then xs else ys, Q x) ↔ (p → ∀ x ∈ xs, Q x) ∧ (¬ p → ∀ x ∈ ys, Q x) := by
  by_cases h : p <;> simp [h]

theorem ite_dst {p : Prop} [Decidable p] {s t : Store} :
    (if p then s else t).dst = if p then s.dst else t.dst := apply_ite ..

theorem applyAll_ite {p : Prop} [Decidable p] {ss ts : List Store} {u : UMem} {r : Region} :
    applyAll (if p then ss else ts) u r = if p then applyAll ss u r else applyAll ts u r := by
  split <;> rfl

theorem apply_ite_store {p : Prop} [Decidable p] {s t : Store} {u : UMem} {r : Region} :
    (if p then s else t).apply u r = if p then s.apply u r else t.apply u r := by
  split <;> rfl

/-- No write of a case goes to `arg0`. -/
theorem dst_ne_arg0 (c : Ctx) (n : Sysno) : ∀ s ∈ wrapSends c n, s.dst ≠ .buf .arg0 := by
  cases n <;>
    simp only [wrapSends, readvSends, readvFirst, readvRest, writevSends, writevFirst, writevRest,
      msgSends, msgSegSends, List.forall_mem_cons, List.forall_mem_append,
      List.forall_mem_flatMap, forall_mem_ite]
  all_goals simp [segBuf_ne (b := .arg0) (by decide), ite_dst]

/-- The host reads the number that the enclave stored. -/
theorem hostSysno_of_sendNr {n : Sysno} {u u' : UMem}
    (h : u' (.buf .arg0) = (sendNr n).apply u (.buf .arg0)) : hostSysno u' = some n := by
  have hnr : ((BitVec.ofNat 64 n.nr).setWidth 32).toNat = n.nr := by
    have hlt := n.nr_lt
    simp only [BitVec.toNat_setWidth, BitVec.toNat_ofNat]
    omega
  rw [hostSysno, h, sendNr_apply, if_pos rfl, load32_overlay_zero (by decide), load32_le64, hnr,
    Sysno.ofNr?_nr]

/-- Untrusted memory at the first ocall of a case. -/
def sent (c : Ctx) (n : Sysno) (u : UMem) : UMem :=
  applyAll (wrapSends c n) ((sendNr n).apply u)

theorem hostSysno_sent (c : Ctx) (n : Sysno) (u : UMem) : hostSysno (sent c n u) = some n :=
  hostSysno_of_sendNr (applyAll_of_ne (dst_ne_arg0 c n) _)

/-- A byte of the slot that no write of the case covers is of an earlier call. -/
theorem sent_of_not_writes {c : Ctx} {n : Sysno} {b : Buf} {i : Nat} (hb : b ≠ .arg0)
    (h : ∀ s ∈ wrapSends c n, ¬ s.Writes (.buf b) i) (u : UMem) :
    sent c n u (.buf b) i = u (.buf b) i := by
  have hne : Region.buf b ≠ .buf .arg0 := fun hb' => hb (Region.buf.inj hb')
  rw [sent, applyAll_of_not_writes h, sendNr_apply, if_neg hne]

theorem sent_of_ne {c : Ctx} {n : Sysno} {b : Buf} (hb : b ≠ .arg0)
    (h : ∀ s ∈ wrapSends c n, s.dst ≠ .buf b) (u : UMem) : sent c n u (.buf b) = u (.buf b) :=
  funext fun _ => sent_of_not_writes hb (fun s hs hw => h s hs hw.1) u

/-- The calls of the host for a call with one ocall. -/
theorem hostCalls_eq {α : Type} {c : Ctx} {n : Sysno} (h : wrapPhases c n = [wrapSends c n])
    (f : UMem → HostCall → α) (result : Word) (u : UMem) :
    hostCalls f c result n u = [(unwrapCase n).map (f (sent c n u))] := by
  have hnr := hostSysno_sent c n u
  rw [hostCalls, h]
  simp only [ocallsFrom, ocallCalls]
  rw [← sent, hnr]

/-- The requests of a call with one ocall. -/
theorem requests_eq {c : Ctx} {n : Sysno} (h : wrapPhases c n = [wrapSends c n]) (K : Kernel)
    (result : Word) (u : UMem) :
    requests c K result n u = [(unwrapCase n).map (·.request c K (sent c n u))] :=
  hostCalls_eq h _ result u

/-- **What holds of all that may be issued**: the stores stay, and it holds of what the
slot asks for. -/
theorem forall_issued_iff {α : Type} {c : Ctx} {n : Sysno} {asked : α} {P : α → Prop}
    (h : ∃ rs, ¬ P rs) : (∀ rs, Issued c n asked rs → P rs) ↔ SendsStay c n ∧ P asked := by
  constructor
  · intro hall
    refine ⟨?_, hall _ fun _ => rfl⟩
    by_contra hleave
    obtain ⟨rs, hrs⟩ := h
    exact hrs (hall rs fun hstay => absurd hstay hleave)
  · rintro ⟨hstay, hP⟩ rs hrs
    rw [hrs hstay]
    exact hP

/-! ## What is not sent

The first argument of `select`, and all of `null_ptr` but its first byte. -/

section Unsent

variable {c : Ctx} {i : Nat}

theorem select_first_unsent : ∀ s ∈ wrapSends c .select, s.dst ≠ .buf .arg1 := by
  simp only [wrapSends, List.forall_mem_append, forall_mem_ite, List.forall_mem_cons]
  simp

theorem pselect6_first_unsent : ∀ s ∈ wrapSends c .pselect6, s.dst ≠ .buf .arg1 := by
  simp only [wrapSends, List.forall_mem_append, forall_mem_ite, List.forall_mem_cons]
  simp

theorem select_null_unsent (hi : i ≠ 0) :
    ∀ s ∈ wrapSends c .select, ¬ s.Writes (.buf .arg7) i := by
  simp only [wrapSends, List.forall_mem_append, forall_mem_ite, List.forall_mem_cons]
  simp [Store.Writes, sendNullPtr, send, hi]

theorem sendto_null_unsent (hi : i ≠ 0) :
    ∀ s ∈ wrapSends c .sendto, ¬ s.Writes (.buf .arg7) i := by
  simp only [wrapSends, List.forall_mem_append, forall_mem_ite, List.forall_mem_cons]
  simp [Store.Writes, sendNullPtr, send, hi]

theorem recvfrom_null_unsent (hi : i ≠ 0) :
    ∀ s ∈ wrapSends c .recvfrom, ¬ s.Writes (.buf .arg7) i := by
  simp only [wrapSends, List.forall_mem_append, forall_mem_ite, List.forall_mem_cons]
  simp [Store.Writes, sendNullPtr, send, hi]

end Unsent

end Porpoise.Shim
