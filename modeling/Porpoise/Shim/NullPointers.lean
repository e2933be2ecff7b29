import Porpoise.Shim.Inputs
import Porpoise.Shim.Pselect

/-!
# `NULL` for an optional pointer

Calls whose pointers may be `NULL`, and whose case passes on the buffer of the slot whether
they are or not.

* `NullCall`: the calls and which of their pointers are `NULL`.
* `NullKept`: the enclave neither reads nor writes there, and the kernel gets `NULL`.
* `null_never`: the kernel never does. It gets a copy of what the enclave reads at `NULL`
  (`Unguarded`), or what an earlier call left in the slot.
-/

namespace Porpoise.Shim

open Porpoise.Lib

inductive NullCall
  | accept | accept4 | gettimeofday | ioctl | mountSource | mountType | sigaltstack
  | sigtimedwaitInfo | sigtimedwaitTimeout
  deriving DecidableEq

namespace NullCall

def sysno : NullCall → Sysno
  | accept => .accept
  | accept4 => .accept4
  | gettimeofday => .gettimeofday
  | ioctl => .ioctl
  | mountSource | mountType => .mount
  | sigaltstack => .sigaltstack
  | sigtimedwaitInfo | sigtimedwaitTimeout => .rt_sigtimedwait

/-- The caller passes `NULL`. -/
def Given (c : Ctx) : NullCall → Prop
  | accept | accept4 => c.a2 = 0 ∧ c.a3 = 0
  | gettimeofday | sigtimedwaitInfo => c.a2 = 0
  | ioctl | mountType | sigtimedwaitTimeout => c.a3 = 0
  | mountSource | sigaltstack => c.a1 = 0

/-- Where the kernel's call has the pointers, and the buffers that the host passes there. -/
def places : NullCall → List (Nat × Buf)
  | accept | accept4 => [(1, .arg2), (2, .arg3)]
  | gettimeofday | sigtimedwaitInfo => [(1, .arg2)]
  | ioctl | mountType | sigtimedwaitTimeout => [(2, .arg3)]
  | mountSource | sigaltstack => [(0, .arg1)]

/-- The case copies from the pointer without a test for `NULL`. -/
def Unguarded : NullCall → Prop
  | accept4 | ioctl | sigaltstack => False
  | _ => True

end NullCall

/-- The call with other bytes in the page at `NULL`. -/
def Ctx.atNull (c : Ctx) (x : Bytes) : Ctx :=
  { c with mem := fun p => if p.toNat < 4096 then x p.toNat else c.mem p }

/-- What the call writes depends on what it finds at `NULL`. -/
def ReadsNull (c : Ctx) (n : Sysno) : Prop :=
  ∃ x y, written (c.atNull x) n ≠ written (c.atNull y) n

/-- **`NULL` is kept**, whatever the slot held. -/
structure NullKept (c : Ctx) (q : NullCall) : Prop where
  reads : ¬ ReadsNull c q.sysno
  writes : ∀ v m, ∀ y ∈ wrapRecvs c v m q.sysno, y.dst ≠ 0
  passed : ∀ u, ∀ p ∈ q.places, hostArg c q.sysno u p.1 = 0

variable {c : Ctx} {q : NullCall} {n : Sysno}

/-! ## In the enclave -/

theorem atNull_at {j : Nat} (hj : j < 4096) (c : Ctx) (x : Bytes) :
    (c.atNull x).mem.at 0 j = x j := by
  have hj' : (0 + BitVec.ofNat 64 j : Word).toNat = j := by
    show (0#64 + BitVec.ofNat 64 j).toNat = j
    rw [BitVec.zero_add, BitVec.toNat_ofNat]
    omega
  show (if _ then x _ else _) = _
  rw [hj', if_pos hj]

/-- A copy from the pointer, of whatever length, reads at `NULL`: its first byte is the one
there, and with a zero byte there the copy is not empty. -/
theorem readsNull_of_copy {k : Nat} {b : Buf} {p : Word} {len : Bytes → Word} (hp : p = 0)
    (hphases : ∀ c, wrapPhases c n = [wrapSends c n])
    (hsend : ∀ x, (wrapSends (c.atNull x) n)[k]? = some (sendMem (c.atNull x) b p (len x)))
    (hlen : 0 < memcpyLen (len fun _ => 0)) : ReadsNull c n := by
  subst hp
  refine ⟨fun _ => 0, fun _ => 1, fun heq => ?_⟩
  have hentry : ∀ x, (written (c.atNull x) n).map (·[k]?) =
      [some ((sendMem (c.atNull x) b 0 (len x)).written)] := by
    intro x
    rw [written, hphases, List.map_singleton, List.map_singleton, List.getElem?_map, hsend]
    rfl
  have hcopies := congrArg (List.map (·[k]?)) heq
  rw [hentry, hentry] at hcopies
  have hbytes := congrArg (·.2.2[0]?) (Option.some.inj (List.singleton_inj.mp hcopies))
  have hfirst : ∀ x, (sendMem (c.atNull x) b 0 (len x)).written.2.2[0]? =
      if 0 < memcpyLen (len x) then some (x 0) else none := by
    intro x
    show (take (memcpyLen (len x)) ((c.atNull x).mem.at 0))[0]? = _
    rw [take_head, atNull_at (by decide)]
  simp only [hfirst, if_pos hlen] at hbytes
  split at hbytes
  · exact absurd (Option.some.inj hbytes) (by decide)
  · exact Option.some_ne_none _ hbytes

/-- The empty string at `NULL` is copied with its terminator. -/
theorem memcpyLen_nullPath {p : Word} (hp : p = 0) (c : Ctx) :
    0 < memcpyLen (pathLen (c.atNull fun _ => 0) p) := by
  subst hp
  have hempty : strlen ((c.atNull fun _ => 0).mem.at 0) = 0 :=
    strlen_eq (by decide) (atNull_at (by decide) c _) (fun j hj => absurd hj (Nat.not_lt_zero j))
  rw [memcpyLen_pathLen (by rw [hempty]; decide)]
  exact Nat.succ_pos _

/-- Writes that are the same for every memory. -/
theorem not_readsNull (hphases : ∀ c, wrapPhases c n = [wrapSends c n])
    (hsends : ∀ x, wrapSends (c.atNull x) n = wrapSends c n) : ¬ ReadsNull c n := by
  rintro ⟨x, y, hne⟩
  refine hne ?_
  rw [written, written, hphases, hphases, hsends, hsends]

theorem readsNull_iff (h : q.Given c) : ReadsNull c q.sysno ↔ q.Unguarded := by
  cases q with
  | accept =>
      refine iff_of_true ?_ trivial
      exact readsNull_of_copy (k := 2) h.2 (fun _ => rfl) (fun _ => rfl) (by decide)
  | accept4 =>
      have h3 : c.a3 = 0#64 := h.2
      refine iff_of_false (not_readsNull (fun _ => rfl) fun x => ?_) id
      simp [NullCall.sysno, wrapSends, Ctx.atNull, h3]
  | gettimeofday =>
      refine iff_of_true ?_ trivial
      exact readsNull_of_copy (k := 1) h (fun _ => rfl) (fun _ => rfl) (by decide)
  | ioctl =>
      have h3 : c.a3 = 0#64 := h
      refine iff_of_false (not_readsNull (fun _ => rfl) fun x => ?_) id
      simp [NullCall.sysno, wrapSends, Ctx.atNull, h3]
  | mountSource =>
      refine iff_of_true ?_ trivial
      exact readsNull_of_copy (k := 0) h (fun _ => rfl) (fun _ => rfl) (memcpyLen_nullPath h c)
  | mountType =>
      refine iff_of_true ?_ trivial
      exact readsNull_of_copy (k := 2) h (fun _ => rfl) (fun _ => rfl) (memcpyLen_nullPath h c)
  | sigaltstack =>
      have h1 : c.a1 = 0#64 := h
      refine iff_of_false (not_readsNull (fun _ => rfl) fun x => ?_) id
      simp [NullCall.sysno, wrapSends, Ctx.atNull, h1]
  | sigtimedwaitInfo =>
      refine iff_of_true ?_ trivial
      exact readsNull_of_copy (k := 1) h (fun _ => rfl) (fun _ => rfl) (by decide)
  | sigtimedwaitTimeout =>
      refine iff_of_true ?_ trivial
      exact readsNull_of_copy (k := 2) h (fun _ => rfl) (fun _ => rfl) (by decide)

/-- No case copies back to `NULL`. -/
theorem null_writes (h : q.Given c) (v : UMem) (m : Mem) :
    ∀ y ∈ wrapRecvs c v m q.sysno, y.dst ≠ 0 := by
  intro y hy
  cases q with
  | accept4 =>
      have h2 : c.a2 = 0#64 := h.1
      have h3 : c.a3 = 0#64 := h.2
      simp [NullCall.sysno, wrapRecvs, h2, h3] at hy
  | ioctl =>
      have h3 : c.a3 = 0#64 := h
      simp [NullCall.sysno, wrapRecvs, h3] at hy
  | sigaltstack =>
      have hy' : y ∈ if c.a2 ≠ 0 then [recv (.buf .arg2) c.a2 sizeofStack] else [] := hy
      by_cases h2 : c.a2 = 0
      · rw [if_neg (not_not.mpr h2)] at hy'
        exact absurd hy' List.not_mem_nil
      · rw [if_pos h2] at hy'
        rw [List.mem_singleton.mp hy']
        exact h2
  | accept | gettimeofday | mountSource | mountType | sigtimedwaitInfo | sigtimedwaitTimeout =>
      exact absurd hy List.not_mem_nil

/-! ## At the kernel -/

/-- The host passes the buffer. -/
theorem null_passed (c : Ctx) (u : UMem) :
    ∀ p ∈ q.places, hostArg c q.sysno u p.1 = c.addr p.2 := by
  intro p hp
  cases q with
  | accept | accept4 =>
      rcases List.mem_pair.mp hp with rfl | rfl
      · rfl
      · rfl
  | gettimeofday | ioctl | mountSource | mountType | sigaltstack | sigtimedwaitInfo
  | sigtimedwaitTimeout =>
      rw [List.mem_singleton.mp hp]
      rfl

/-- With a test for `NULL` in the case, the buffer is as the slot held it. -/
theorem null_stale (h : q.Given c) (hguard : ¬ q.Unguarded) (u : UMem) :
    ∀ p ∈ q.places, hostMem c q.sysno u (c.addr p.2) = u (.buf p.2) := by
  intro p hp
  rw [hostMem, c.region_addr]
  cases q with
  | accept4 =>
      have h3 : c.a3 = 0#64 := h.2
      rcases List.mem_pair.mp hp with rfl | rfl
      · simp [NullCall.sysno, sent, wrapSends, h3, sendNr]
      · simp [NullCall.sysno, sent, wrapSends, h3, sendNr]
  | ioctl =>
      have h3 : c.a3 = 0#64 := h
      rw [List.mem_singleton.mp hp]
      simp [NullCall.sysno, sent, wrapSends, h3, sendNr]
  | sigaltstack =>
      have h1 : c.a1 = 0#64 := h
      rw [List.mem_singleton.mp hp]
      simp [NullCall.sysno, sent, wrapSends, h1, sendNr]
  | accept | gettimeofday | mountSource | mountType | sigtimedwaitInfo | sigtimedwaitTimeout =>
      exact absurd trivial hguard

/-- The kernel gets an address of the slot. -/
theorem not_nullKept (c : Ctx) (q : NullCall) : ¬ NullKept c q := by
  intro h
  have hplace : ∃ p, p ∈ q.places := by
    cases q <;> exact ⟨_, List.mem_cons_self⟩
  obtain ⟨p, hp⟩ := hplace
  have hnull := h.passed (fun _ _ => 0) p hp
  rw [null_passed c _ p hp] at hnull
  exact c.addr_ne p.2 hnull

/-- **`NULL` is never kept.** In every position the kernel gets the buffer of the slot. The
case reads at `NULL` exactly where it has no test; where it has one, the kernel finds in the
buffer what was there before the call. Nothing is written to `NULL`. -/
theorem null_never (c : Ctx) (q : NullCall) (h : q.Given c) :
    ¬ NullKept c q ∧ (ReadsNull c q.sysno ↔ q.Unguarded) ∧
      (∀ v m, ∀ y ∈ wrapRecvs c v m q.sysno, y.dst ≠ 0) ∧
        ∀ u, ∀ p ∈ q.places, hostArg c q.sysno u p.1 = c.addr p.2 ∧
          (¬ q.Unguarded → hostMem c q.sysno u (c.addr p.2) = u (.buf p.2)) :=
  ⟨not_nullKept c q, readsNull_iff h, null_writes h, fun u p hp =>
    ⟨null_passed c u p hp, fun hguard => null_stale h hguard u p hp⟩⟩

/-- `sigaltstack(NULL, old)`. -/
theorem null_never_sigaltstack :
    NullCall.sigaltstack.Given (Ctx.plain 0 4096 0 0 0 0 fun _ => 0) ∧
      ¬ NullKept (Ctx.plain 0 4096 0 0 0 0 fun _ => 0) .sigaltstack ∧
        ¬ ReadsNull (Ctx.plain 0 4096 0 0 0 0 fun _ => 0) .sigaltstack := by
  obtain ⟨hkept, hreads, -⟩ :=
    null_never (Ctx.plain 0 4096 0 0 0 0 fun _ => 0) .sigaltstack rfl
  exact ⟨rfl, hkept, hreads.mp⟩

/-- `gettimeofday(tv, NULL)` reads at `NULL`, and the kernel gets a `struct timezone`;
with `accept4(3, NULL, NULL, 0)` it gets two buffers. -/
theorem null_not_kept :
    NullCall.gettimeofday.Given (Ctx.plain 4096 0 0 0 0 0 fun _ => 0) ∧
      ReadsNull (Ctx.plain 4096 0 0 0 0 0 fun _ => 0) .gettimeofday ∧
      ¬ NullKept (Ctx.plain 4096 0 0 0 0 0 fun _ => 0) .gettimeofday ∧
      NullCall.accept4.Given (Ctx.plain 3 0 0 0 0 0 fun _ => 0) ∧
      ¬ NullKept (Ctx.plain 3 0 0 0 0 0 fun _ => 0) .accept4 := by
  have hreads := (readsNull_iff (q := .gettimeofday)
    (c := Ctx.plain 4096 0 0 0 0 0 fun _ => 0) rfl).mpr trivial
  exact ⟨rfl, hreads, not_nullKept _ _, ⟨rfl, rfl⟩, not_nullKept _ _⟩

end Porpoise.Shim
