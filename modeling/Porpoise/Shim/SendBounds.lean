import Porpoise.Shim.Transfer

/-!
# Copies to the slot

`sendsFit` says for every call which lengths must fit a buffer before the ocall;
`sends_inside_iff` proves that this is exactly when the copies stay inside. The
lengths of segments and messages that go to blocks must only stay positive.

The array that `readv` and `writev` build in `arg2` is assigned, not copied;
`sends_stay_iff` is about these stores, too.
-/

namespace Porpoise.Shim

open Porpoise.Lib

variable {c : Ctx}

/-- When the copies before the ocall stay inside. -/
def sendsFit (c : Ctx) : Sysno → Prop
  | .open_ | .stat | .lstat | .access | .chdir | .mkdir | .rmdir | .creat | .unlink | .readlink
  | .chmod | .chown | .lchown | .utime | .statfs | .chroot | .umount2 | .utimes =>
      Fits (pathLen c c.a1)
  | .openat | .fchownat | .futimesat | .newfstatat | .unlinkat | .readlinkat | .fchmodat
  | .faccessat => Fits (pathLen c c.a2)
  | .rename | .link | .symlink => Fits (pathLen c c.a1) ∧ Fits (pathLen c c.a2)
  | .mount =>
      Fits (pathLen c c.a1) ∧ Fits (pathLen c c.a2) ∧ Fits (pathLen c c.a3) ∧
        (c.a5 ≠ 0 → Fits (pathLen c c.a5))
  | .utimensat => c.a2 ≠ 0 → Fits (pathLen c c.a2)
  | .write | .pwrite64 | .connect | .bind => Fits c.a3
  | .poll => Fits (8 * c.a2)
  | .accept | .getsockname | .getpeername => Fits (socklenAt c.mem c.a3)
  | .getsockopt => Fits (socklenAt c.mem c.a5)
  | .setsockopt => Fits ((c.a5.setWidth 32).setWidth 64)
  | .sendto => (c.a2 ≠ 0 → Fits c.a3) ∧ (c.a5 ≠ 0 → Fits ((c.a6.setWidth 32).setWidth 64))
  | .recvfrom => (c.a2 ≠ 0 → Fits c.a3) ∧ (c.a5 ≠ 0 → Fits (socklenAt c.mem c.a6))
  | .setgroups => c.a2 ≠ 0 → Fits (c.a1 * 4)
  | .epoll_pwait => c.a5 ≠ 0 → Fits c.a6
  | .writev =>
      ∀ i < intCount c.a3,
        if i < 5 then Fits (iovLen c.mem c.a2 i) else NonNeg (iovLen c.mem c.a2 i)
  | .sendmsg =>
      NonNeg (msgNamelen c.mem c.a2) ∧ NonNeg (msgControllen c.mem c.a2) ∧
        ∀ i < intCount (msgIovlen c.mem c.a2), NonNeg (iovLen c.mem (msgIov c.mem c.a2) i)
  | _ => True

theorem writev_sends_inside :
    (∀ s ∈ wrapSends c .writev, s.Inside) ↔ sendsFit c .writev := by
  simp only [wrapSends, writevSends, writevFirst, writevRest, sendsFit, List.forall_mem_cons,
    List.forall_mem_append, List.forall_mem_flatMap, forall_mem_ite, List.mem_range]
  simp
  constructor
  · rintro ⟨hfirst, hrest⟩ i hi
    split
    case isTrue h5 => exact hfirst i h5 hi
    case isFalse h5 =>
      have hk := hrest (i - 5) (by omega)
      rwa [show i - 5 + 5 = i by omega] at hk
  · intro h
    refine ⟨fun i h5 hi => ?_, fun k hk => ?_⟩
    · have hi5 := h i hi
      rwa [if_pos h5] at hi5
    · have hk5 := h (k + 5) (by omega)
      rwa [if_neg (by omega)] at hk5

/-- A length of zero, which is not copied, does not turn negative. -/
theorem nonNeg_of_ne_zero (w : Word) : (¬ w = 0#64 → NonNeg w) ↔ NonNeg w := by
  by_cases h : w = 0#64
  · have hzero : NonNeg w := by
      rw [h]
      exact nonNeg_ofNat (by decide)
    exact iff_of_true (fun _ => hzero) hzero
  · exact imp_iff_right h

theorem sendmsg_sends_inside :
    (∀ s ∈ wrapSends c .sendmsg, s.Inside) ↔ sendsFit c .sendmsg := by
  simp only [wrapSends, msgSends, msgSegSends, sendsFit, List.forall_mem_cons,
    List.forall_mem_append, List.forall_mem_flatMap, forall_mem_ite, List.mem_range]
  simp [nonNeg_of_ne_zero]
  -- without segments the loop has no rounds
  have hsegs : (¬ msgIovlen c.mem c.a2 = 0#64 → ∀ i < intCount (msgIovlen c.mem c.a2),
        NonNeg (iovLen c.mem (msgIov c.mem c.a2) i)) ↔
      ∀ i < intCount (msgIovlen c.mem c.a2), NonNeg (iovLen c.mem (msgIov c.mem c.a2) i) := by
    by_cases h : msgIovlen c.mem c.a2 = 0#64
    · have hzero : intCount 0#64 = 0 := by decide
      simp [h, hzero]
    · exact imp_iff_right h
  rw [hsegs, and_assoc]
  exact and_congr_right fun _ => and_comm

/-- **Copies before the ocall.** -/
theorem sends_inside_iff (c : Ctx) (n : Sysno) :
    (∀ s ∈ wrapSends c n, s.Inside) ↔ sendsFit c n := by
  cases n
  case writev => exact writev_sends_inside
  case sendmsg => exact sendmsg_sends_inside
  all_goals
    simp only [wrapSends, readvSends, readvFirst, readvRest, msgSends, msgSegSends,
      List.forall_mem_cons, List.forall_mem_append, List.forall_mem_flatMap, forall_mem_ite,
      sendsFit]
  all_goals simp [ite_inside, and_assoc]

/-! ## Assignments -/

/-- An assignment stays in its buffer. -/
def Store.Placed (s : Store) : Prop :=
  s.copy = false → ∀ b, s.dst = .buf b → s.off + s.size ≤ bufSize

theorem stays_iff (s : Store) : s.Stays ↔ s.Inside ∧ s.Placed := by
  unfold Store.Stays Store.Inside Store.Placed
  cases s.copy <;> simp

@[simp] theorem send_placed (r : Region) (v : Bytes) (len : Word) : (send r v len).Placed :=
  fun h => nomatch h

@[simp] theorem sendLong_placed (b : Buf) (w : Word) : (sendLong b w).Placed := send_placed _ _ _

@[simp] theorem sendInt_placed (b : Buf) (w : Word) : (sendInt b w).Placed := send_placed _ _ _

@[simp] theorem sendIntAsLong_placed (b : Buf) (w : Word) : (sendIntAsLong c b w).Placed :=
  send_placed _ _ _

@[simp] theorem sendAddr_placed (b b' : Buf) : (sendAddr c b b').Placed := send_placed _ _ _

@[simp] theorem sendNullPtr_placed : (sendNullPtr c).Placed := send_placed _ _ _

@[simp] theorem sendMem_placed (b : Buf) (p len : Word) : (sendMem c b p len).Placed :=
  send_placed _ _ _

@[simp] theorem sendPath_placed (b : Buf) (p : Word) : (sendPath c b p).Placed := send_placed _ _ _

@[simp] theorem store_buf_placed (b : Buf) (o k : Nat) (f : Bytes) :
    (Store.mk (.buf b) o k f false).Placed ↔ o + k ≤ bufSize :=
  ⟨fun h => h rfl b rfl, fun h _ _ _ => h⟩

@[simp] theorem store_heap_placed (p : Word) (o k : Nat) (f : Bytes) :
    (Store.mk (.heap p) o k f false).Placed := fun _ _ hb => nomatch hb

@[simp] theorem put_placed (b : Buf) (w : Word) : (put b w).Placed :=
  (store_buf_placed b 0 8 _).mpr (by decide)

@[simp] theorem putAt_buf_placed (b : Buf) (o : Nat) (w : Word) :
    (putAt (.buf b) o w).Placed ↔ o + 8 ≤ bufSize := store_buf_placed b o 8 _

@[simp] theorem putAt_heap_placed (p : Word) (o : Nat) (w : Word) :
    (putAt (.heap p) o w).Placed := store_heap_placed p o 8 _

@[simp] theorem putIntAt_buf_placed (b : Buf) (o : Nat) (w : Word) :
    (putIntAt (.buf b) o w).Placed ↔ o + 4 ≤ bufSize := store_buf_placed b o 4 _

theorem ite_placed {p : Prop} [Decidable p] {s t : Store} :
    (if p then s else t).Placed ↔ (p → s.Placed) ∧ (¬ p → t.Placed) := by
  by_cases h : p <;> simp [h]

/-- When the array of `readv` or `writev` fits `arg2`. -/
def arrayFits (c : Ctx) : Sysno → Prop
  | .readv | .writev => 16 * intCount c.a3 ≤ bufSize
  | _ => True

/-- The entries lie in `arg2` exactly when the last one does. -/
theorem entries_placed_iff {n : Nat} :
    (∀ k < n - 5, 16 * (k + 5) + 8 ≤ bufSize) ↔ 16 * n ≤ bufSize := by
  unfold bufSize
  constructor
  · intro hrest
    by_contra hmany
    have hlast := hrest (n - 6) (by omega)
    omega
  · intro h k hk
    omega

theorem sends_placed_iff (c : Ctx) (n : Sysno) :
    (∀ s ∈ wrapSends c n, s.Placed) ↔ arrayFits c n := by
  cases n
  case readv | writev =>
    simp only [wrapSends, readvSends, readvFirst, readvRest, writevSends, writevFirst, writevRest,
      List.forall_mem_cons, List.forall_mem_append, List.forall_mem_flatMap, forall_mem_ite,
      List.mem_range]
    simp [arrayFits]
    rw [← entries_placed_iff]
    unfold bufSize
    constructor
    · rintro ⟨-, hrest⟩ k hk
      have hentry := hrest k hk
      omega
    · intro hrest
      refine ⟨fun i hi hn => by omega, fun k hk => ?_⟩
      have hentry := hrest k hk
      omega
  all_goals
    simp only [wrapSends, msgSends, msgSegSends,
      List.forall_mem_cons, List.forall_mem_append, List.forall_mem_flatMap, forall_mem_ite,
      arrayFits]
  all_goals simp [ite_placed, bufSize]

/-- When no store before the ocalls leaves its buffer. -/
def StoresFit (c : Ctx) (n : Sysno) : Prop := sendsFit c n ∧ arrayFits c n

theorem phase_stays_iff (c : Ctx) (n : Sysno) :
    (∀ s ∈ wrapSends c n, s.Stays) ↔ StoresFit c n := by
  simp only [stays_iff, forall_and, ← sends_inside_iff, ← sends_placed_iff, StoresFit]

/-- **Stores before the ocalls.** -/
theorem sends_stay_iff (c : Ctx) (n : Sysno) : SendsStay c n ↔ StoresFit c n := by
  rw [← phase_stays_iff]
  cases n
  case rt_sigreturn | getitimer => simp [SendsStay, wrapPhases, wrapSends]
  case alarm =>
    have hnext : ∀ s ∈ wrapSends c .setitimer, s.Stays :=
      (phase_stays_iff c .setitimer).mpr ⟨trivial, trivial⟩
    simpa [SendsStay, wrapPhases] using fun _ => hnext
  all_goals simp [SendsStay, wrapPhases]

end Porpoise.Shim
