import Porpoise.Shim.Confine
import Porpoise.Shim.NullFlags

/-!
# Two runs of a call

What a call writes to untrusted memory before its ocalls, in two runs whose
enclave memories agree on the call's input objects.

* `inputs` lists the input objects of every call in the sizes of the kernel's
  interface; an output object is none.
* `InputsOnly`: the writes are the same in both runs.
* `indep_sendMem`: a copy of a fixed length is, exactly when the input objects
  cover what it copies (`Known`); `indep_sendPath` and `indep_sendSocklen` are
  copies whose length is an input, too.
-/

namespace Porpoise.Shim

open Porpoise.Lib

/-! ## The inputs of a call -/

/-- A path with its terminator. -/
def pathObj (c : Ctx) (p : Word) : Obj := ⟨p, strlen (c.mem.at p) + 1⟩

/-- An array of segments. -/
def iovObj (p : Word) (n : Nat) : Obj := ⟨p, 16 * n⟩

/-- The segments of an array. -/
def segObjs (m : Mem) (p : Word) (n : Nat) : List Obj :=
  (List.range n).map fun i => ⟨iovBase m p i, (iovLen m p i).toNat⟩

/-- The input objects of a call in enclave memory. -/
def inputs (c : Ctx) (K : Kernel) : Sysno → List Obj
  | .open_ | .stat | .lstat | .access | .chdir | .mkdir | .rmdir | .creat | .unlink | .readlink
  | .chmod | .chown | .lchown | .statfs | .chroot | .umount2 | .truncate => [pathObj c c.a1]
  | .openat | .fchownat | .newfstatat | .unlinkat | .readlinkat | .fchmodat | .faccessat =>
      [pathObj c c.a2]
  | .rename | .link | .symlink => [pathObj c c.a1, pathObj c c.a2]
  | .write | .pwrite64 => [⟨c.a2, c.a3.toNat⟩]
  | .poll => [⟨c.a1, 8 * c.a2.toNat⟩]
  -- `sizeof(struct k_sigaction)`
  | .rt_sigaction => optObj c.a2 32
  | .rt_sigprocmask => optObj c.a2 c.a4.toNat
  | .ioctl => optObj c.a3 (K.ioctlIn c.a2)
  | .readv => [iovObj c.a2 (intCount c.a3)]
  | .writev => iovObj c.a2 (intCount c.a3) :: segObjs c.mem c.a2 (intCount c.a3)
  | .select =>
      optObj c.a2 (c.fdSetBytes K) ++ optObj c.a3 (c.fdSetBytes K) ++
        optObj c.a4 (c.fdSetBytes K) ++ optObj c.a5 16
  | .nanosleep => optObj c.a1 16
  | .setitimer => [⟨c.a2, 32⟩]
  | .connect | .bind => [⟨c.a2, intCount c.a3⟩]
  | .accept | .getsockname | .getpeername => [⟨c.a3, 4⟩]
  | .sendto => optObj c.a2 c.a3.toNat ++ optObj c.a5 (intCount c.a6)
  | .recvfrom => optObj c.a6 4
  | .sendmsg =>
      let p := msgIov c.mem c.a2
      let n := intCount (msgIovlen c.mem c.a2)
      ⟨c.a2, sizeofMsghdr⟩ :: ⟨msgName c.mem c.a2, (msgNamelen c.mem c.a2).toNat⟩ ::
        ⟨msgControl c.mem c.a2, (msgControllen c.mem c.a2).toNat⟩ :: iovObj p n :: segObjs c.mem p n
  | .recvmsg =>
      [⟨c.a2, sizeofMsghdr⟩, iovObj (msgIov c.mem c.a2) (intCount (msgIovlen c.mem c.a2))]
  | .setsockopt => [⟨c.a4, intCount c.a5⟩]
  | .getsockopt => [⟨c.a5, 4⟩]
  | .setgroups => optObj c.a2 (4 * (c.a1.setWidth 32).toNat)
  | .rt_sigsuspend => [⟨c.a1, c.a2.toNat⟩]
  | .rt_sigtimedwait => [⟨c.a1, c.a4.toNat⟩, ⟨c.a3, 16⟩]
  | .rt_sigqueueinfo => [⟨c.a3, 128⟩]
  | .sigaltstack => optObj c.a1 24
  | .utime => pathObj c c.a1 :: optObj c.a2 16
  | .utimes => pathObj c c.a1 :: optObj c.a2 32
  | .futimesat => pathObj c c.a2 :: optObj c.a3 32
  | .utimensat => (if c.a2 = 0 then [] else [pathObj c c.a2]) ++ optObj c.a3 32
  | .mount =>
      [pathObj c c.a1, pathObj c c.a2, pathObj c c.a3] ++
        if c.a5 = 0 then [] else [pathObj c c.a5]
  | .futex =>
      ⟨c.a1, 4⟩ :: (if takesTimeout (c.a2.setWidth 32) then optObj c.a4 16 else []) ++
        if takesSecond (c.a2.setWidth 32) then optObj c.a5 4 else []
  | .epoll_ctl => if takesEvent (c.a2.setWidth 32) then optObj c.a4 12 else []
  | .pselect6 =>
      optObj c.a2 (c.fdSetBytes K) ++ optObj c.a3 (c.fdSetBytes K) ++
        optObj c.a4 (c.fdSetBytes K) ++ optObj c.a5 16 ++
        ⟨c.a6, 16⟩ :: optObj (load64 (c.mem.at c.a6) 0) (load64 (c.mem.at c.a6) 8).toNat
  | .epoll_pwait => optObj c.a5 c.a6.toNat
  | .accept4 => optObj c.a3 4
  | .prlimit64 => optObj c.a3 16
  | _ => []

/-! ## The other run -/

/-- What two runs of a call may differ in: the enclave's memory, what lies behind
local variables, and the value of those without one. -/
structure Secret where
  mem : Mem
  stack : Bytes
  indet : Word

/-- The call with another enclave memory. -/
def Ctx.run (c : Ctx) (x : Secret) : Ctx :=
  { c with mem := x.mem, stack := x.stack, indet := x.indet }

/-- Memories that agree on objects. -/
def Agrees (objs : List Obj) (m m' : Mem) : Prop := ∀ o ∈ objs, ∀ p, o.Has p → m p = m' p

/-- Two runs that the input objects do not tell apart. -/
def SameInputs (objs : List Obj) (m : Mem) (x y : Secret) : Prop :=
  Agrees objs x.mem m ∧ Agrees objs y.mem m

/-- What the host sees of a write: where it goes, and the bytes. -/
def Store.written (s : Store) : Region × Nat × List Byte := (s.dst, s.off, take s.size s.val)

/-- The writes before each ocall of a call. -/
def written (c : Ctx) (n : Sysno) : List (List (Region × Nat × List Byte)) :=
  (wrapPhases c n).map (·.map Store.written)

/-- **Only the inputs leave.** Any two runs whose memories agree with the call's on
its input objects write the same bytes. -/
def InputsOnly (c : Ctx) (K : Kernel) (n : Sysno) : Prop :=
  Indep (SameInputs (inputs c K n) c.mem) fun x => written (c.run x) n

variable {c : Ctx} {K : Kernel} {n : Sysno} {b : Buf} {x : Secret} {objs : List Obj} {m m' : Mem}
  {p q len : Word} {k : Nat}

section Run

@[simp] theorem run_a1 : (c.run x).a1 = c.a1 := rfl
@[simp] theorem run_a2 : (c.run x).a2 = c.a2 := rfl
@[simp] theorem run_a3 : (c.run x).a3 = c.a3 := rfl
@[simp] theorem run_a4 : (c.run x).a4 = c.a4 := rfl
@[simp] theorem run_a5 : (c.run x).a5 = c.a5 := rfl
@[simp] theorem run_a6 : (c.run x).a6 = c.a6 := rfl
@[simp] theorem run_mem : (c.run x).mem = x.mem := rfl
@[simp] theorem run_addr : (c.run x).addr = c.addr := rfl
@[simp] theorem run_alloc : (c.run x).alloc = c.alloc := rfl
@[simp] theorem run_outAddress : (c.run x).outAddress = c.outAddress := rfl
@[simp] theorem run_sendAddr (b b' : Buf) : sendAddr (c.run x) b b' = sendAddr c b b' := rfl

end Run

/-- A call with one ocall. -/
theorem inputsOnly_iff_sends (h : ∀ c, wrapPhases c n = [wrapSends c n]) :
    InputsOnly c K n ↔ Indep (SameInputs (inputs c K n) c.mem) fun x =>
      (wrapSends (c.run x) n).map Store.written := by
  have hphase : (fun x => written (c.run x) n) =
      fun x => [(wrapSends (c.run x) n).map Store.written] := by
    funext x
    rw [written, h]
    rfl
  rw [InputsOnly, hphase]
  exact indep_cons.trans (and_iff_left (indep_const []))

/-! ## What the inputs cover -/

/-- Input objects cover the `k` bytes at `p`. -/
def Known (objs : List Obj) (p : Word) (k : Nat) : Prop :=
  ∀ j < k, ∃ o ∈ objs, o.Has (p + BitVec.ofNat 64 j)

theorem Agrees.agreeOn (h : Agrees objs m m') (hk : Known objs p k) : AgreeOn m m' p k := by
  intro j hj
  obtain ⟨o, ho, hp⟩ := hk j hj
  exact h o ho _ hp

theorem Known.of_mem {o : Obj} (ho : o ∈ objs) (hk : k ≤ o.size) : Known objs o.ptr k := by
  intro j hj
  refine ⟨o, ho, ?_⟩
  have hmod : (o.ptr + BitVec.ofNat 64 j - o.ptr).toNat ≤ j := by
    rw [BitVec.add_comm, BitVec.add_sub_cancel, BitVec.toNat_ofNat]
    exact Nat.mod_le _ _
  exact Nat.lt_of_le_of_lt hmod (by omega)

/-- A single object covers what is not longer. -/
theorem known_singleton_iff {size : Nat} (hk : k ≤ 2 ^ 64) : Known [⟨p, size⟩] p k ↔ k ≤ size := by
  constructor
  · intro h
    by_contra hlt
    obtain ⟨o, ho, hp⟩ := h size (by omega)
    obtain rfl := List.mem_singleton.mp ho
    have hsize : (p + BitVec.ofNat 64 size - p).toNat = size := toNat_add_sub p (by omega)
    rw [Obj.Has, hsize] at hp
    exact absurd hp (Nat.lt_irrefl size)
  · exact fun h => Known.of_mem (o := ⟨p, size⟩) (List.mem_singleton_self _) h

theorem memcpyLen_le (len : Word) : memcpyLen len ≤ 2 ^ 64 := by
  have hlt := len.isLt
  rw [memcpyLen_eq]
  split <;> omega

/-- An object is known. -/
theorem known_object {size : Nat} (h : ⟨p, size⟩ ∈ objs) : Known objs p size :=
  Known.of_mem (o := ⟨p, size⟩) h (Nat.le_refl size)

theorem known_zero : Known objs p (memcpyLen 0) := by
  intro j hj
  exact absurd hj (Nat.not_lt_zero j)

theorem known_copy_iff {size : Nat} :
    Known [⟨p, size⟩] p (memcpyLen len) ↔ memcpyLen len ≤ size :=
  known_singleton_iff (memcpyLen_le len)

theorem known_path_iff :
    Known [pathObj c p] p (memcpyLen len) ↔ memcpyLen len ≤ strlen (c.mem.at p) + 1 :=
  known_copy_iff

theorem known_nil_iff : Known [] p k ↔ k = 0 := by
  constructor
  · intro h
    by_contra hk
    obtain ⟨o, ho, -⟩ := h 0 (by omega)
    exact absurd ho List.not_mem_nil
  · rintro rfl j hj
    omega

/-- **Bytes of enclave memory** are the same in both runs exactly when input
objects cover them. -/
theorem indep_take_mem :
    (Indep (SameInputs objs m) fun x => take k (x.mem.at p)) ↔ Known objs p k := by
  constructor
  · intro h
    by_contra hk
    obtain ⟨j, hj, hno⟩ : ∃ j < k, ∀ o ∈ objs, ¬ o.Has (p + BitVec.ofNat 64 j) := by
      unfold Known at hk
      push Not at hk
      exact hk
    -- another run with another byte there
    let a := p + BitVec.ofNat 64 j
    have hother : Agrees objs (Function.update m a (~~~ m a)) m := by
      intro o ho q hq
      have hne : q ≠ a := by
        rintro rfl
        exact hno o ho hq
      exact Function.update_of_ne hne _ _
    have hbytes := take_eq_iff.mp
      (h ⟨_, fun _ => 0, 0⟩ ⟨m, fun _ => 0, 0⟩ ⟨hother, fun _ _ _ _ => rfl⟩) j hj
    have hbyte : Function.update m a (~~~ m a) a = m a := hbytes
    rw [Function.update_self] at hbyte
    exact byte_not_ne _ hbyte
  · rintro hk x y ⟨hx, hy⟩
    refine take_eq_iff.mpr fun j hj => ?_
    exact (hx.agreeOn hk j hj).trans (hy.agreeOn hk j hj).symm

/-! ## Copies -/

/-- In runs that the inputs do not tell apart. -/
theorem indep_sameInputs {α : Type} {m : Mem} {f g : Secret → α}
    (h : ∀ x, Agrees objs x.mem m → f x = g x) :
    Indep (SameInputs objs m) f ↔ Indep (SameInputs objs m) g := by
  have hR : ∀ x y, SameInputs objs m x y → Agrees objs x.mem m ∧ Agrees objs y.mem m :=
    fun _ _ hxy => hxy
  exact indep_congr hR h

/-- **A copy** whose length both runs take from the inputs. -/
theorem indep_send {r : Region} {f : Mem → Word} (hf : ∀ m', Agrees objs m' m → f m' = f m) :
    (Indep (SameInputs objs m) fun x => (send r (x.mem.at p) (f x.mem)).written) ↔
      Known objs p (memcpyLen (f m)) := by
  have hlen : ∀ x : Secret, Agrees objs x.mem m →
      (send r (x.mem.at p) (f x.mem)).written =
        (r, 0, take (memcpyLen (f m)) (x.mem.at p)) := by
    intro x hx
    rw [← hf x.mem hx]
    rfl
  refine (indep_sameInputs hlen).trans ?_
  simp only [indep_pair, indep_const, true_and, indep_take_mem]

theorem indep_sendMem :
    (Indep (SameInputs objs m) fun x => (sendMem (c.run x) b p len).written) ↔
      Known objs p (memcpyLen len) :=
  indep_send (f := fun _ => len) fun _ _ => rfl

theorem indep_send_mem {r : Region} :
    (Indep (SameInputs objs m) fun x => (send r (x.mem.at p) len).written) ↔
      Known objs p (memcpyLen len) :=
  indep_send (f := fun _ => len) fun _ _ => rfl

theorem indep_sendSocklen (hq : ⟨q, 4⟩ ∈ objs) :
    (Indep (SameInputs objs m) fun x =>
        (sendMem (c.run x) b p (socklenAt x.mem q)).written) ↔
      Known objs p (memcpyLen (socklenAt m q)) := by
  refine indep_send (f := (socklenAt · q)) fun m' h => ?_
  have hagree : AgreeOn m' m q 4 := h.agreeOn (Known.of_mem (o := ⟨q, 4⟩) hq (Nat.le_refl 4))
  exact congrArg (·.setWidth 64) (hagree.load32 (Nat.le_refl 4))

/-- **A path**, up to its terminator, gives its own length. -/
theorem indep_sendPath (hp : pathObj c p ∈ objs) :
    (Indep (SameInputs objs c.mem) fun x => (sendPath (c.run x) b p).written) ↔
      Known objs p (memcpyLen (pathLen c p)) := by
  refine indep_send (f := fun m => BitVec.ofNat 64 (strlen (m.at p)) + 1) fun m' h => ?_
  have hagree : AgreeOn m' c.mem p (strlen (c.mem.at p) + 1) :=
    h.agreeOn (Known.of_mem (o := pathObj c p) hp (Nat.le_refl _))
  simp only [strlen_congr hagree]

/-- Bytes of the stack are no input. -/
theorem not_indep_sendIntAsLong {w : Word} :
    ¬ Indep (SameInputs objs m) fun x => (sendIntAsLong (c.run x) b w).written := by
  intro h
  have hbytes := h ⟨m, fun _ => 0, 0⟩ ⟨m, fun _ => 1, 0⟩ ⟨fun _ _ _ _ => rfl, fun _ _ _ _ => rfl⟩
  have hsize : 4 < memcpyLen 8 := by decide
  have hbyte : (0 : Byte) = 1 := take_eq_iff.mp (congrArg (·.2.2) hbytes) 4 hsize
  exact absurd hbyte (by decide)

theorem not_indep_sendNullPtr :
    ¬ Indep (SameInputs objs m) fun x => (sendNullPtr (c.run x)).written := by
  intro h
  have hbytes := h ⟨m, fun _ => 0, 0⟩ ⟨m, fun _ => 1, 0⟩ ⟨fun _ _ _ _ => rfl, fun _ _ _ _ => rfl⟩
  have hsize : 0 < memcpyLen 1 := by decide
  have hbyte : (0 : Byte) = 1 := take_eq_iff.mp (congrArg (·.2.2) hbytes) 0 hsize
  exact absurd hbyte (by decide)

end Porpoise.Shim
