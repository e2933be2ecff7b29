import Porpoise.Shim.Call
import Porpoise.Shim.CopyOut

/-!
# Which enclave memory a call changes

A call may change the caller's output objects and nothing else of the enclave
(`errno` and the slot table are no part of `Mem`). Untrusted memory after the
ocall is arbitrary here, so that the host may have left any result and any bytes.

* `confined_of_caller_sizes`: the calls that copy back as much as the caller
  says change its objects only.
* `confined_iff_resultFits`: the calls that copy back as much as the host says
  do so exactly for results that fit.
-/

namespace Porpoise.Shim

open Porpoise.Lib

/-- An object of the caller. -/
structure Obj where
  ptr : Word
  size : Nat

/-- Whether a byte of the enclave is one of the object's. -/
def Obj.Has (o : Obj) (p : Word) : Prop := (p - o.ptr).toNat < o.size

/-- An object that the caller may leave out. -/
def optObj (p : Word) (size : Nat) : List Obj := if p = 0 then [] else [⟨p, size⟩]

/-- The output objects of a call, in the sizes of the enclave's C library. Where a
case does not ask for `NULL`, neither does the list. -/
def outObjects (c : Ctx) : Sysno → List Obj
  | .read | .pread64 | .recvfrom | .readlink | .getdents => [⟨c.a2, c.a3.toNat⟩]
  | .readlinkat => [⟨c.a3, c.a4.toNat⟩]
  | .getdents64 => [⟨c.a2, (c.a3.setWidth 32).toNat⟩]
  | .epoll_pwait => [⟨c.a2, 12 * intCount c.a3⟩]
  | .getrandom | .getcwd => [⟨c.a1, c.a2.toNat⟩]
  | .stat | .lstat | .fstat => [⟨c.a2, 144⟩]
  | .newfstatat => [⟨c.a3, 144⟩]
  | .poll => [⟨c.a1, 8 * c.a2.toNat⟩]
  | .pipe | .pipe2 => [⟨c.a1, 8⟩]
  | .socketpair => [⟨c.a4, 8⟩]
  | .uname => [⟨c.a1, 390⟩]
  | .getrlimit => [⟨c.a2, 16⟩]
  | .getrusage => [⟨c.a2, 272⟩]
  | .sysinfo => [⟨c.a1, 368⟩]
  | .times => [⟨c.a1, 32⟩]
  | .getgroups => optObj c.a2 (4 * intCount c.a1)
  | .getresuid | .getresgid => [⟨c.a1, 4⟩, ⟨c.a2, 4⟩, ⟨c.a3, 4⟩]
  | .statfs | .fstatfs => [⟨c.a2, 120⟩]
  | .clock_gettime => [⟨c.a2, 16⟩]
  | .clock_getres | .nanosleep => optObj c.a2 16
  | .setitimer => optObj c.a3 32
  | .prlimit64 => optObj c.a4 16
  -- as much of the address as `*addrlen` has room for, and without it a `struct sockaddr`
  | .accept4 => optObj c.a2 (if c.a3 = 0 then 16 else (load32 (c.mem.at c.a3) 0).toNat)
  | .readv =>
      (List.range (intCount c.a3)).map fun i =>
        ⟨iovBase c.mem c.a2 i, (iovLen c.mem c.a2 i).toNat⟩
  | .recvmsg =>
      ⟨msgName c.mem c.a2, (msgNamelen c.mem c.a2).toNat⟩ ::
      ⟨msgControl c.mem c.a2, (msgControllen c.mem c.a2).toNat⟩ :: ⟨c.a2 + 48, 4⟩ ::
      (List.range (intCount (msgIovlen c.mem c.a2))).map fun i =>
        ⟨iovBase c.mem (msgIov c.mem c.a2) i, (iovLen c.mem (msgIov c.mem c.a2) i).toNat⟩
  | _ => []

/-- Enclave memory when a call returns, for untrusted memory `v` after its
ocall. -/
def memAfter (c : Ctx) (n : Sysno) (v : UMem) : Mem :=
  applyRecvs v (wrapRecvs c v (wrapMem c n) n) (wrapMem c n)

/-- The call changes its output objects only. -/
def Confined (c : Ctx) (n : Sysno) (v : UMem) : Prop :=
  ∀ p, (∀ o ∈ outObjects c n, ¬ o.Has p) → memAfter c n v p = c.mem p

variable {c : Ctx} {n : Sysno} {v : UMem} {p : Word}

/-- A copy of at most an object's size to its place writes that object only. -/
theorem not_writes_of_le {dst len : Word} {size : Nat} (r : Region) (hlen : memcpyLen len ≤ size)
    (hp : ¬ (Obj.mk dst size).Has p) : ¬ (recv r dst len).Writes p :=
  fun hw => hp (Nat.lt_of_lt_of_le hw hlen)

/-! ## Sizes from the caller -/

/-- The calls whose copies back have sizes that the caller knows. -/
def callerSized : List Sysno :=
  [.stat, .lstat, .newfstatat, .poll, .pipe, .pipe2, .socketpair, .uname, .getdents, .getcwd,
   .getrlimit, .getrusage, .sysinfo, .times, .getgroups, .getresuid, .getresgid, .statfs,
   .fstatfs, .clock_gettime, .clock_getres, .nanosleep, .setitimer, .prlimit64]

/-- The sizes that an `int` carries. -/
def SizesInRange (c : Ctx) : Sysno → Prop
  | .poll => 8 * c.a2.toNat < 2 ^ 31
  | .getdents => c.a3.toNat < 2 ^ 31
  | .getcwd => c.a2.toNat < 2 ^ 31
  | .getgroups => 4 * c.a1.toNat < 2 ^ 31
  | _ => True

theorem memcpyLen_mul {w k : Word} (h : k.toNat * w.toNat < 2 ^ 31) :
    memcpyLen (k * w) = k.toNat * w.toNat := by
  have hmul : (k * w).toNat = k.toNat * w.toNat := by
    rw [BitVec.toNat_mul, Nat.mod_eq_of_lt (by omega)]
  rw [memcpyLen_of_lt (by omega), hmul]

theorem intCount_of_lt {w : Word} (h : w.toNat < 2 ^ 31) : intCount w = w.toNat := by
  have hlow : (w.setWidth 32).toNat = w.toNat := by
    rw [BitVec.toNat_setWidth, Nat.mod_eq_of_lt (by omega)]
  rw [intCount_of_le (Nat.le_of_eq hlow) h, hlow]

/-- Only `stat` and `lstat` change enclave memory before the ocall, and only the
caller's object. -/
theorem wrapMem_of_not_has (hp : ∀ o ∈ outObjects c n, ¬ o.Has p) : wrapMem c n p = c.mem p := by
  cases n
  case stat => exact if_neg (hp ⟨c.a2, 144⟩ (List.mem_singleton_self _))
  case lstat => exact if_neg (hp ⟨c.a2, 144⟩ (List.mem_singleton_self _))
  all_goals rfl

/-- No copy back of such a call leaves the caller's objects. -/
theorem not_writes_of_callerSized (hn : n ∈ callerSized) (hsize : SizesInRange c n)
    (hp : ∀ o ∈ outObjects c n, ¬ o.Has p) :
    ∀ r ∈ wrapRecvs c v (wrapMem c n) n, ¬ r.Writes p := by
  cases n <;> (first | exact absurd hn (by decide) | skip)
  all_goals
    simp only [outObjects, optObj, forall_mem_ite, List.forall_mem_cons, List.not_mem_nil,
      IsEmpty.forall_iff, implies_true, and_true, true_and] at hp
    simp only [wrapRecvs, forall_mem_ite, List.forall_mem_cons, List.not_mem_nil,
      IsEmpty.forall_iff, implies_true, and_true]
  case poll =>
    exact not_writes_of_le _ (Nat.le_of_eq (memcpyLen_mul (w := c.a2) (k := 8) hsize)) hp
  case getdents =>
    exact not_writes_of_le _ (Nat.le_of_eq (memcpyLen_of_lt hsize)) hp
  case getcwd =>
    exact fun _ => not_writes_of_le _ (Nat.le_of_eq (memcpyLen_of_lt hsize)) hp
  case getgroups =>
    intro hlist
    refine not_writes_of_le _ ?_ (hp hlist)
    have hlt : 4 * c.a1.toNat < 2 ^ 31 := hsize
    rw [BitVec.mul_comm, memcpyLen_mul (k := 4) hlt, intCount_of_lt (by omega)]
    exact le_rfl
  case getresuid =>
    obtain ⟨h1, h2, h3⟩ := hp
    exact ⟨not_writes_of_le _ (by decide) h1, not_writes_of_le _ (by decide) h2,
      not_writes_of_le _ (by decide) h3⟩
  case getresgid =>
    obtain ⟨h1, h2, h3⟩ := hp
    exact ⟨not_writes_of_le _ (by decide) h1, not_writes_of_le _ (by decide) h2,
      not_writes_of_le _ (by decide) h3⟩
  -- one object of a fixed size, always or when its pointer is not `NULL`
  all_goals
    first
    | exact not_writes_of_le _ (by decide) hp
    | exact fun _ => not_writes_of_le _ (by decide) hp
    | exact fun hptr => not_writes_of_le _ (by decide) (hp hptr)

/-- **Host-independent confinement.** For every behaviour of the untrusted side,
a call that takes destination and length of its copies back from the caller
changes the caller's output objects only. -/
theorem confined_of_caller_sizes (hn : n ∈ callerSized) (hsize : SizesInRange c n) (v : UMem) :
    Confined c n v := by
  intro p hp
  rw [memAfter, applyRecvs_of_not_writes (not_writes_of_callerSized hn hsize hp)]
  exact wrapMem_of_not_has hp

/-- `getcwd(16, 100)` in a slot that the host has filled with sevens. -/
theorem confined_of_caller_sizes_getcwd :
    Confined (Ctx.plain 16 100 0 0 0 0 fun _ => 0) .getcwd fun _ _ => 7 := by
  have hsize : SizesInRange (Ctx.plain 16 100 0 0 0 0 fun _ => 0) .getcwd :=
    show (100 : Word).toNat < 2 ^ 31 by decide
  exact confined_of_caller_sizes (by decide) hsize _

/-! ## Sizes from the host -/

/-- The calls whose copy back is as long as the result in `arg0` says. -/
def hostSized : List Sysno :=
  [.read, .pread64, .recvfrom, .readlink, .readlinkat, .getdents64, .epoll_pwait, .getrandom]

/-- The copy that the case makes for the result `r` is no longer than the
caller's buffer. -/
def ResultFits (c : Ctx) (r : Word) : Sysno → Prop
  | .read | .recvfrom | .readlink => 0 < r.toInt → memcpyLen r ≤ c.a3.toNat
  | .pread64 => memcpyLen r ≤ c.a3.toNat
  | .readlinkat => r ≠ -1 → memcpyLen r ≤ c.a4.toNat
  | .getdents64 =>
      0 < (r.setWidth 32).toNat →
        memcpyLen ((r.setWidth 32).setWidth 64) ≤ (c.a3.setWidth 32).toNat
  | .epoll_pwait =>
      0 < (r.setWidth 32).toInt →
        memcpyLen ((r.setWidth 32).signExtend 64 * 12) ≤ 12 * intCount c.a3
  | .getrandom =>
      0 < (r.setWidth 32).toInt → memcpyLen ((r.setWidth 32).signExtend 64) ≤ c.a2.toNat
  | _ => True

/-- A slot with the result `r` and, everywhere else, no byte of `m` from `dst`
on. -/
def differing (m : Mem) (dst r : Word) : UMem :=
  fun q => if q = .buf .arg0 then le64 r else fun i => ~~~ m.at dst i

theorem resultOf_differing (m : Mem) (dst r : Word) : resultOf (differing m dst r) = r := by
  rw [resultOf, differing, if_pos rfl, load64_le64]

theorem differing_of_ne {b : Buf} (hb : b ≠ .arg0) (m : Mem) (dst r : Word) (i : Nat) :
    differing m dst r (.buf b) i = ~~~ m (dst + BitVec.ofNat 64 i) := by
  have hbuf : Region.buf b ≠ .buf .arg0 := fun hb' => hb (Region.buf.inj hb')
  rw [differing, if_neg hbuf, Mem.at]

/-- **One copy.** Whatever the host's bytes, it stays in an object exactly when
it is no longer. -/
theorem forall_recv_confined_iff {b : Buf} (hb : b ≠ .arg0) {m : Mem} {dst len r : Word}
    {size : Nat} (hsize : size < 2 ^ 64) :
    (∀ v, resultOf v = r → ∀ p, ¬ (Obj.mk dst size).Has p →
      (recv (.buf b) dst len).apply v m p = m p) ↔ memcpyLen len ≤ size := by
  constructor
  · intro h
    by_contra hlt
    -- the first byte after the object
    have hoff : (dst + BitVec.ofNat 64 size - dst).toNat = size := toNat_add_sub dst hsize
    have hout : ¬ (Obj.mk dst size).Has (dst + BitVec.ofNat 64 size) := by
      show ¬ (dst + BitVec.ofNat 64 size - dst).toNat < size
      omega
    have hin : (recv (.buf b) dst len).Writes (dst + BitVec.ofNat 64 size) := by
      show (dst + BitVec.ofNat 64 size - dst).toNat < memcpyLen len
      omega
    have hsame := h _ (resultOf_differing m dst r) _ hout
    rw [recv_apply_of_writes hin] at hsame
    simp only [recv, hoff, Nat.zero_add, differing_of_ne hb] at hsame
    exact byte_not_ne _ hsame
  · intro h v _ p hp
    exact recv_apply_of_not_writes (not_writes_of_le _ h hp) v m

/-- The same for a copy that the result `r` decides on. -/
theorem forall_guarded_confined_iff {b : Buf} (hb : b ≠ .arg0) {m : Mem} {d r : Word}
    {size : Nat} (hsize : size < 2 ^ 64) {g : Word → Prop} [DecidablePred g] {f : Word → Word} :
    (∀ v, resultOf v = r → ∀ p, ¬ (Obj.mk d size).Has p →
      applyRecvs v (if g (resultOf v) then [recv (.buf b) d (f (resultOf v))] else []) m p =
        m p) ↔ (g r → memcpyLen (f r) ≤ size) := by
  rw [← imp_congr_right fun _ => forall_recv_confined_iff hb hsize (m := m)]
  constructor
  · intro h hg v hv p hp
    have hp' := h v hv p hp
    rwa [hv, if_pos hg] at hp'
  · intro h v hv p hp
    by_cases hg : g r
    · rw [hv, if_pos hg]
      exact h hg v hv p hp
    · rw [hv, if_neg hg]
      rfl

theorem wrapMem_of_hostSized (hn : n ∈ hostSized) : wrapMem c n = c.mem := by
  cases n <;> first | rfl | exact absurd hn (by decide)

/-- **Copies as long as the host says.** For every result `r`: whatever else the
untrusted side leaves, the call changes the caller's buffer only, exactly when
the copy that `r` asks for is no longer than the buffer. -/
theorem confined_iff_resultFits (hn : n ∈ hostSized) (c : Ctx) (r : Word) :
    (∀ v, resultOf v = r → Confined c n v) ↔ ResultFits c r n := by
  simp only [Confined, memAfter, wrapMem_of_hostSized hn]
  cases n <;> (first | exact absurd hn (by decide) | skip)
  all_goals
    simp only [outObjects, wrapRecvs, ResultFits, List.forall_mem_cons, List.not_mem_nil,
      IsEmpty.forall_iff, implies_true, and_true]
  case read | recvfrom | readlink =>
    exact forall_guarded_confined_iff (by decide) c.a3.isLt (g := fun r => 0 < r.toInt) (f := id)
  case readlinkat =>
    exact forall_guarded_confined_iff (by decide) c.a4.isLt (g := fun r => r ≠ -1) (f := id)
  case pread64 =>
    have hiff := forall_guarded_confined_iff (b := .arg2) (by decide) c.a3.isLt (m := c.mem)
      (d := c.a2) (r := r) (g := fun _ => True) (f := id)
    simpa only [if_true, forall_const, id] using hiff
  case getdents64 =>
    exact forall_guarded_confined_iff (by decide) (by omega)
      (g := fun r => 0 < (r.setWidth 32).toNat) (f := fun r => (r.setWidth 32).setWidth 64)
  case epoll_pwait =>
    have hcount := intCount_lt c.a3
    exact forall_guarded_confined_iff (by decide) (by omega)
      (g := fun r => 0 < (r.setWidth 32).toInt) (f := fun r => (r.setWidth 32).signExtend 64 * 12)
  case getrandom =>
    exact forall_guarded_confined_iff (by decide) c.a2.isLt
      (g := fun r => 0 < (r.setWidth 32).toInt) (f := fun r => (r.setWidth 32).signExtend 64)

/-- `read(3, 4096, 16)` when the host says that it read 16 bytes. -/
theorem confined_iff_resultFits_read :
    Confined (Ctx.plain 3 4096 16 0 0 0 fun _ => 0) .read
      fun q => if q = .buf .arg0 then le64 16 else fun _ => 1 := by
  have hfits : ResultFits (Ctx.plain 3 4096 16 0 0 0 fun _ => 0) 16 .read :=
    fun _ => show memcpyLen 16 ≤ 16 by decide
  have hresult : resultOf (fun q => if q = .buf .arg0 then le64 16 else fun _ => 1) = 16 := by
    decide
  exact (confined_iff_resultFits (by decide) _ 16).mpr hfits _ hresult

/-- `read(3, 4096, 1)` when the host says that it read 100 bytes: the hundredth
is written too. -/
theorem read_not_confined :
    ¬ Confined (Ctx.plain 3 4096 1 0 0 0 fun _ => 0) .read
      fun q => if q = .buf .arg0 then le64 100 else fun _ => 1 := by
  intro h
  have hsame := h 4195 fun o ho => by
    obtain rfl := List.mem_singleton.mp ho
    show ¬ (4195 - 4096 : Word).toNat < (1 : Word).toNat
    decide
  revert hsame
  decide

end Porpoise.Shim
