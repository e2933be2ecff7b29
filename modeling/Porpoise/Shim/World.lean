import Mathlib.Logic.Function.Basic
import Porpoise.Lib.Bytes

/-!
# The memories a wrapped call works on

A call holds one slot, that is the buffers `arg0` to `arg8` and `err_no` of
`BUF_SIZE` bytes each, outside the enclave. Besides them it writes to blocks
from the untrusted heap: mirrors of futex words and what `malloc_user` returns
during the call. Each buffer and each block is a region of its own, without an
end. What a store past the end of a buffer changes is another block of the host's
`malloc`, and the source does not say which: `Store.Stays` tells such a store from
the others, `Porpoise.Shim.Bounds` says when they happen, and what the kernel gets
after one is left open (`Issued`).

`Ctx` is what a call starts from: its arguments, the enclave's memory and where
things lie. `Store` is one write of the enclave to untrusted memory.
-/

namespace Porpoise.Shim

open Porpoise.Lib

/-- `BUF_SIZE`. -/
def bufSize : Nat := 8192 * 10

/-- The buffers of a slot. -/
inductive Buf
  | arg0 | arg1 | arg2 | arg3 | arg4 | arg5 | arg6 | arg7 | arg8 | err_no
  deriving DecidableEq

def Buf.all : List Buf :=
  [.arg0, .arg1, .arg2, .arg3, .arg4, .arg5, .arg6, .arg7, .arg8, .err_no]

/-- A part of untrusted memory. -/
inductive Region
  | buf (b : Buf)
  /-- The block at this address. -/
  | heap (p : Word)
  deriving DecidableEq

/-- A block is no buffer. -/
theorem heap_ne_buf (p : Word) (b : Buf) : Region.heap p ≠ .buf b := by
  intro h
  cases h

/-- Untrusted memory. -/
abbrev UMem := Region → Bytes

/-- Enclave memory. -/
abbrev Mem := Word → Byte

/-- Enclave memory from an address on. -/
def Mem.at (m : Mem) (p : Word) : Bytes := fun i => m (p + BitVec.ofNat 64 i)

/-- What a wrapped call starts from. -/
structure Ctx where
  a1 : Word
  a2 : Word
  a3 : Word
  a4 : Word
  a5 : Word
  a6 : Word
  mem : Mem
  /-- Where the buffers of the slot lie. -/
  addr : Buf → Word
  addr_inj : Function.Injective addr
  addr_ne : ∀ b, addr b ≠ 0
  /-- What the `k`-th `malloc_user` of the call returns. -/
  alloc : Nat → Word
  alloc_ne : ∀ k b, alloc k ≠ addr b
  /-- The blocks are live together; no call allocates more than `2 ^ 32`. -/
  alloc_inj : ∀ j < 2 ^ 32, ∀ k < 2 ^ 32, alloc j = alloc k → j = k
  /-- The mirror that `get_out_address` or `set_out_address` returns for an
  enclave word. -/
  outAddress : Word → Word
  outAddress_ne : ∀ p b, outAddress p ≠ addr b
  /-- The stack after a local variable that is sent with more than its size. -/
  stack : Bytes
  /-- What a C variable without a value, or a missing argument, is read as. -/
  indet : Word

namespace Ctx

variable (c : Ctx)

/-- The region that a pointer to untrusted memory leads to. -/
def region (p : Word) : Region :=
  match Buf.all.find? fun b => c.addr b == p with
  | some b => .buf b
  | none => .heap p

@[simp] theorem region_addr (b : Buf) : c.region (c.addr b) = .buf b := by
  have hfind : Buf.all.find? (fun b' => c.addr b' == c.addr b) = some b := by
    have hb : ∀ b', (c.addr b' == c.addr b) = decide (b' = b) := by
      intro b'
      rw [Bool.eq_iff_iff, beq_iff_eq, decide_eq_true_iff]
      exact c.addr_inj.eq_iff
    simp only [hb]
    cases b <;> rfl
  rw [region, hfind]

theorem region_of_ne {p : Word} (h : ∀ b, p ≠ c.addr b) : c.region p = .heap p := by
  have hfind : Buf.all.find? (fun b => c.addr b == p) = none := by
    rw [List.find?_eq_none]
    intro b _
    simpa using (h b).symm
  rw [region, hfind]

@[simp] theorem region_alloc (k : Nat) : c.region (c.alloc k) = .heap (c.alloc k) :=
  c.region_of_ne fun b => c.alloc_ne k b

@[simp] theorem region_outAddress (p : Word) :
    c.region (c.outAddress p) = .heap (c.outAddress p) :=
  c.region_of_ne fun b => c.outAddress_ne p b

@[simp] theorem addr_ne_zero (b : Buf) : (c.addr b = 0#64) = False :=
  eq_false (c.addr_ne b)

end Ctx

/-- The place of a buffer in the slot. -/
def Buf.index : Buf → Nat
  | .arg0 => 0 | .arg1 => 1 | .arg2 => 2 | .arg3 => 3 | .arg4 => 4 | .arg5 => 5 | .arg6 => 6
  | .arg7 => 7 | .arg8 => 8 | .err_no => 9

/-- A call with the slot at a fixed place. Buffers, blocks and mirrors differ in
the last four bits of their addresses. -/
def Ctx.plain (a1 a2 a3 a4 a5 a6 : Word) (mem : Mem) : Ctx where
  a1; a2; a3; a4; a5; a6; mem
  addr b := BitVec.ofNat 64 (0x100000 * (b.index + 1))
  addr_inj b b' h := by
    cases b <;> cases b' <;> first | rfl | exact absurd h (by decide)
  addr_ne b := by cases b <;> decide
  alloc k := BitVec.ofNat 64 (16 * k + 8)
  alloc_ne k b h := by
    have hmod := congrArg (fun w => w.toNat % 16) h
    simp only [BitVec.toNat_ofNat] at hmod
    omega
  alloc_inj j hj k hk h := by
    have hnat := congrArg BitVec.toNat h
    simp only [BitVec.toNat_ofNat] at hnat
    omega
  outAddress p := BitVec.ofNat 64 (16 * p.toNat + 4)
  outAddress_ne p b h := by
    have hmod := congrArg (fun w => w.toNat % 16) h
    simp only [BitVec.toNat_ofNat] at hmod
    omega
  stack _ := 0
  indet := 0

/-! ## Stores -/

/-- A write of the enclave to untrusted memory. -/
structure Store where
  dst : Region
  /-- Where in the region; 0 but for the parts of arrays and structures. -/
  off : Nat
  size : Nat
  val : Bytes
  /-- Whether it is a `send_user` copy, not an assignment. -/
  copy : Bool

/-- The store stays in its buffer, and the length of a copy does not turn
negative. -/
def Store.Stays (s : Store) : Prop :=
  (s.copy = true → s.size < 2 ^ 31) ∧ ∀ b, s.dst = .buf b → s.off + s.size ≤ bufSize

def Store.apply (s : Store) (u : UMem) : UMem :=
  Function.update u s.dst (overlay s.off s.size s.val (u s.dst))

/-- The stores in order. -/
def applyAll (ss : List Store) (u : UMem) : UMem := ss.foldl (fun u s => s.apply u) u

/-- `send_user(dst, src, len, 0)` from any source. -/
def send (dst : Region) (v : Bytes) (len : Word) : Store := ⟨dst, 0, memcpyLen len, v, true⟩

/-- `send_user(arg, &x, sizeof(long), 0)` of a `long`, `size_t` or pointer. -/
def sendLong (b : Buf) (w : Word) : Store := send (.buf b) (le64 w) 8

/-- `send_user(arg, &x, sizeof(int), 0)` of an `int` the argument is cast to. -/
def sendInt (b : Buf) (w : Word) : Store := send (.buf b) (le64 w) 4

/-- `send_user(arg, &x, sizeof(long), 0)` of a variable of four bytes: four
bytes of the stack go with it. -/
def sendIntAsLong (c : Ctx) (b : Buf) (w : Word) : Store :=
  send (.buf b) (overlay 0 4 (le64 w) c.stack) 8

/-- `*(long*)arg = w`. -/
def put (b : Buf) (w : Word) : Store := ⟨.buf b, 0, 8, le64 w, false⟩

/-- A copy of `len` bytes of enclave memory at `p`. -/
def sendMem (c : Ctx) (b : Buf) (p len : Word) : Store := send (.buf b) (c.mem.at p) len

/-- The size argument of a path: `strlen(p) + 1`. -/
def pathLen (c : Ctx) (p : Word) : Word := BitVec.ofNat 64 (strlen (c.mem.at p)) + 1

/-- `send_user(arg, p, strlen(p)+1, 0)`. -/
def sendPath (c : Ctx) (b : Buf) (p : Word) : Store := sendMem c b p (pathLen c p)

/-- `send_user(arg, &arg', sizeof(void*), 0)`: the address of another buffer. -/
def sendAddr (c : Ctx) (b b' : Buf) : Store := sendLong b (c.addr b')

variable {u : UMem} {s : Store} {ss : List Store} {r : Region}

@[simp] theorem applyAll_nil (u : UMem) : applyAll [] u = u := rfl

@[simp] theorem applyAll_cons (s : Store) (ss : List Store) (u : UMem) :
    applyAll (s :: ss) u = applyAll ss (s.apply u) := rfl

@[simp] theorem applyAll_append (ss ts : List Store) (u : UMem) :
    applyAll (ss ++ ts) u = applyAll ts (applyAll ss u) := List.foldl_append

theorem apply_self (s : Store) (u : UMem) :
    s.apply u s.dst = overlay s.off s.size s.val (u s.dst) := Function.update_self ..

theorem apply_of_ne (h : r ≠ s.dst) (u : UMem) : s.apply u r = u r :=
  Function.update_of_ne h _ _

/-- Whether a store writes the byte at `i` of a region. -/
def Store.Writes (s : Store) (r : Region) (i : Nat) : Prop :=
  s.dst = r ∧ s.off ≤ i ∧ i < s.off + s.size

theorem apply_of_writes {i : Nat} (h : s.Writes r i) (u : UMem) :
    s.apply u r i = s.val (i - s.off) := by
  obtain ⟨rfl, hin⟩ := h
  rw [apply_self]
  exact if_pos hin

theorem apply_of_not_writes {i : Nat} (h : ¬ s.Writes r i) (u : UMem) :
    s.apply u r i = u r i := by
  by_cases hr : r = s.dst
  · subst hr
    rw [apply_self]
    exact overlay_of_not (fun hin => h ⟨rfl, hin⟩) _ _
  · rw [apply_of_ne hr]

theorem applyAll_of_not_writes {i : Nat} (h : ∀ s ∈ ss, ¬ s.Writes r i) (u : UMem) :
    applyAll ss u r i = u r i := by
  induction ss generalizing u with
  | nil => rfl
  | cons s ss ih =>
      rw [applyAll_cons, ih fun t ht => h t (List.mem_cons_of_mem s ht)]
      exact apply_of_not_writes (h s (List.mem_cons_self ..)) u

/-- A byte that is written is the same whatever was there. -/
theorem applyAll_congr_at {i : Nat} {u u' : UMem}
    (h : u r i = u' r i ∨ ∃ s ∈ ss, s.Writes r i) : applyAll ss u r i = applyAll ss u' r i := by
  induction ss generalizing u u' with
  | nil =>
      rcases h with h | ⟨s, hs, -⟩
      · exact h
      · exact absurd hs List.not_mem_nil
  | cons t ss ih =>
      rw [applyAll_cons, applyAll_cons]
      apply ih
      by_cases ht : t.Writes r i
      · left
        rw [apply_of_writes ht, apply_of_writes ht]
      · rcases h with h | ⟨s, hs, hw⟩
        · left
          rw [apply_of_not_writes ht, apply_of_not_writes ht, h]
        · rcases List.mem_cons.mp hs with rfl | hs
          · exact absurd hw ht
          · exact .inr ⟨s, hs, hw⟩

/-- The part of a loop's writes that its `i`-th round makes, when each round has
`w` bytes of the region to itself. -/
theorem applyAll_flatMap_range {f : Nat → List Store} {base w n i k : Nat}
    (hf : ∀ j < n, ∀ s ∈ f j, s.dst = r →
      base + w * j ≤ s.off ∧ s.off + s.size ≤ base + w * (j + 1))
    (hi : i < n) (hk : base + w * i ≤ k ∧ k < base + w * (i + 1)) (u : UMem) :
    applyAll ((List.range n).flatMap f) u r k =
      applyAll (f i) (applyAll ((List.range i).flatMap f) u) r k := by
  induction n with
  | zero => omega
  | succ n ih =>
      rw [List.range_succ, List.flatMap_append, applyAll_append]
      simp only [List.flatMap_cons, List.flatMap_nil, List.append_nil]
      by_cases hin : i = n
      · rw [hin]
      · rw [applyAll_of_not_writes, ih (fun j hj => hf j (by omega)) (by omega)]
        rintro s hs ⟨hdst, hwrite⟩
        obtain ⟨hlow, -⟩ := hf n (by omega) s hs hdst
        have hmono : w * (i + 1) ≤ w * n := Nat.mul_le_mul_left w (by omega)
        omega

/-- Writes to a region depend on that region only. -/
theorem applyAll_congr_region {u u' : UMem} (h : u r = u' r) : applyAll ss u r = applyAll ss u' r :=
  funext fun i => applyAll_congr_at (.inl (congrFun h i))

/-- Writes elsewhere leave a region alone. -/
theorem applyAll_of_ne (h : ∀ s ∈ ss, s.dst ≠ r) (u : UMem) : applyAll ss u r = u r :=
  funext fun _ => applyAll_of_not_writes (fun s hs hw => h s hs hw.1) u

/-- A region that only the `i`-th round of a loop writes. -/
theorem applyAll_flatMap_range_of_ne {f : Nat → List Store} {n i : Nat}
    (hf : ∀ j < n, j ≠ i → ∀ s ∈ f j, s.dst ≠ r) (hi : i < n) (u : UMem) :
    applyAll ((List.range n).flatMap f) u r = applyAll (f i) u r := by
  induction n with
  | zero => omega
  | succ n ih =>
      rw [List.range_succ, List.flatMap_append, applyAll_append]
      simp only [List.flatMap_cons, List.flatMap_nil, List.append_nil]
      by_cases hin : i = n
      · subst hin
        refine applyAll_congr_region (applyAll_of_ne ?_ u)
        intro s hs
        obtain ⟨j, hj, hs⟩ := List.mem_flatMap.mp hs
        have hlt := List.mem_range.mp hj
        exact hf j (by omega) (by omega) s hs
      · rw [applyAll_of_ne (hf n (by omega) (Ne.symm hin))]
        exact ih (fun j hj => hf j (by omega)) (by omega)

end Porpoise.Shim
