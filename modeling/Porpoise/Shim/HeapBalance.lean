import Porpoise.Futex.ObjectTable
import Porpoise.Lib.Heap
import Porpoise.Lib.TSys
import Porpoise.Shim.KernelBounds
import Porpoise.Shim.Scatter

/-!
# The blocks of the untrusted heap

Five cases of `__syscall_wrap` allocate with `malloc_user`: `readv` and `writev` a
block for each segment from the sixth on, `sendmsg` and `recvmsg` one for each
part of the message, `pselect6` one for each argument without a buffer. `futex`
and `set_tid_address` allocate the mirrors in `object_table`.

* `sends_inBlocks`: the memory model writes to the blocks that are counted here.
* `freed_eq`: the pointers that a case frees, as it reads them back, are those of
  its blocks.
* `heap_balance`: which sequences of calls leave the mirrors and nothing else.
-/

namespace Porpoise.Shim

open Porpoise.Lib Porpoise.Futex

variable {c : Ctx} {K : Kernel} {n : Sysno} {u v : UMem} {k : Nat}

/-! ## The calls of `malloc_user` and `free_user` -/

/-- How often a case calls `malloc_user`, for `futex` and `set_tid_address` at
most. -/
def mallocs (c : Ctx) : Sysno → Nat
  | .readv | .writev => intCount c.a3 - 5
  | .sendmsg | .recvmsg =>
      msgIovBlocks c + if msgControllen c.mem c.a2 = 0 then 0 else 1
  | .pselect6 =>
      (if c.a4 ≠ 0 then 1 else 0) + (if c.a5 ≠ 0 then 1 else 0) +
        if load64 (c.mem.at c.a6) 0 ≠ 0 then 1 else 0
  | .futex | .set_tid_address => 1
  | _ => 0

/-- What a case frees after the ocall, by number of the allocation. -/
def frees (c : Ctx) : Sysno → List Nat
  | .readv => List.range (mallocs c .readv)
  | .writev => List.range (mallocs c .writev)
  | .pselect6 => List.range (mallocs c .pselect6)
  | _ => []

/-- The pointers that a case passes to `free_user`: `readv` and `writev` read them
from the array in `arg2`, `pselect6` has them in `arg9`, `arg10` and `arg11`. -/
def freed (c : Ctx) (v : UMem) : Sysno → List Word
  | .readv | .writev =>
      (List.range (intCount c.a3 - 5)).map fun k => load64 (v (.buf .arg2)) (16 * (k + 5))
  | .pselect6 =>
      (if c.a4 ≠ 0 then [c.alloc 0] else []) ++
      (if c.a5 ≠ 0 then [c.alloc (if c.a4 ≠ 0 then 1 else 0)] else []) ++
      if load64 (c.mem.at c.a6) 0 ≠ 0 then
        [c.alloc ((if c.a4 ≠ 0 then 1 else 0) + (if c.a5 ≠ 0 then 1 else 0))]
      else []
  | _ => []

/-- What `s` writes is in a buffer or in one of the first `m` blocks. -/
def Store.InBlocks (c : Ctx) (m : Nat) (s : Store) : Prop :=
  ∀ p, s.dst = .heap p → ∃ k < m, p = c.alloc k

theorem inBlocks_of_buf {s : Store} {b : Buf} {m : Nat} (h : s.dst = .buf b) : s.InBlocks c m := by
  intro p hp
  rw [h] at hp
  cases hp

theorem inBlocks_of_alloc {s : Store} {m : Nat} (hk : k < m) (h : s.dst = .heap (c.alloc k)) :
    s.InBlocks c m := by
  intro p hp
  rw [h] at hp
  exact ⟨k, hk, (Region.heap.inj hp).symm⟩

theorem msgSegSends_inBlocks (data : Bool) {m i : Nat}
    (hm : msgNameBlocks c + 1 + i < m) : ∀ s ∈ msgSegSends c data i, s.InBlocks c m := by
  simp only [msgSegSends, List.forall_mem_append, forall_mem_ite, List.forall_mem_cons,
    List.not_mem_nil, IsEmpty.forall_iff, implies_true, and_true]
  have harray : ∀ o w, (putAt (.heap (c.alloc (msgNameBlocks c))) o w).InBlocks c m :=
    fun _ _ => inBlocks_of_alloc (by omega) rfl
  exact ⟨⟨harray _ _, harray _ _, harray _ _, harray _ _⟩, fun _ => inBlocks_of_alloc hm rfl⟩

theorem msgSends_inBlocks (data : Bool) :
    ∀ s ∈ msgSends c data, s.InBlocks c
      (msgIovBlocks c + if msgControllen c.mem c.a2 = 0 then 0 else 1) := by
  unfold msgSends
  simp only [List.forall_mem_append, forall_mem_ite, List.forall_mem_cons, List.not_mem_nil,
    IsEmpty.forall_iff, implies_true, and_true, List.forall_mem_flatMap, List.mem_range]
  have hbuf : ∀ {s : Store} {b : Buf} {m : Nat}, s.dst = .buf b → s.InBlocks c m := inBlocks_of_buf
  refine ⟨⟨⟨⟨⟨hbuf rfl, hbuf rfl, hbuf rfl⟩,
    fun _ => hbuf rfl, fun hname => ⟨hbuf rfl, fun _ => ?_⟩⟩,
    hbuf rfl, fun _ => hbuf rfl, fun hiov => ⟨hbuf rfl, fun i hi => ?_⟩⟩,
    hbuf rfl, fun _ => hbuf rfl, fun hcontrol => ⟨hbuf rfl, fun _ => ?_⟩⟩, hbuf rfl, hbuf rfl⟩
  · -- the name is the first block
    refine inBlocks_of_alloc ?_ rfl
    rw [msgIovBlocks, msgNameBlocks, if_neg hname]
    omega
  · -- the array and the segments come after it
    refine msgSegSends_inBlocks data ?_
    rw [msgIovBlocks, if_neg hiov]
    omega
  · refine inBlocks_of_alloc ?_ rfl
    rw [if_neg hcontrol]
    omega

/-- **Blocks are counted.** Besides the mirrors, a case only writes to the blocks
that `mallocs` counts. -/
theorem sends_inBlocks (hn : n ≠ .futex) (hn' : n ≠ .set_tid_address) (c : Ctx) :
    ∀ s ∈ wrapSends c n, s.InBlocks c (mallocs c n) := by
  cases n
  case futex => exact absurd rfl hn
  case set_tid_address => exact absurd rfl hn'
  case sendmsg => exact msgSends_inBlocks true
  case recvmsg => exact msgSends_inBlocks false
  case writev =>
    have hbuf : ∀ {s : Store} {b : Buf} {m : Nat}, s.dst = .buf b → s.InBlocks c m :=
      inBlocks_of_buf
    simp only [wrapSends, writevSends, writevFirst, writevRest, List.forall_mem_append,
      forall_mem_ite, List.forall_mem_cons, List.not_mem_nil, IsEmpty.forall_iff, implies_true,
      and_true, List.forall_mem_flatMap, List.mem_range]
    exact ⟨⟨hbuf rfl, fun i _ _ => ⟨hbuf rfl, hbuf rfl, hbuf rfl⟩, fun i hi =>
      ⟨hbuf rfl, inBlocks_of_alloc hi rfl⟩⟩, hbuf rfl⟩
  case pselect6 =>
    have hbuf : ∀ {s : Store} {b : Buf} {m : Nat}, s.dst = .buf b → s.InBlocks c m :=
      inBlocks_of_buf
    simp only [wrapSends, List.forall_mem_append, forall_mem_ite, List.forall_mem_cons,
      List.not_mem_nil, IsEmpty.forall_iff, implies_true, and_true]
    refine ⟨⟨⟨⟨⟨fun _ => ⟨hbuf rfl, hbuf rfl⟩, fun _ => hbuf rfl⟩, fun _ => ⟨hbuf rfl, hbuf rfl⟩,
      fun _ => hbuf rfl⟩, fun h4 => ⟨hbuf rfl, inBlocks_of_alloc ?_ rfl⟩, fun _ => hbuf rfl⟩,
      fun h5 => ⟨hbuf rfl, inBlocks_of_alloc ?_ rfl⟩, fun _ => hbuf rfl⟩,
      fun h6 => ⟨hbuf rfl, inBlocks_of_alloc ?_ rfl⟩, fun _ => hbuf rfl⟩
    all_goals
      simp only [mallocs]
      split_ifs <;> omega
  all_goals
    simp only [wrapSends, readvSends, readvFirst, readvRest, List.forall_mem_append, forall_mem_ite,
      List.forall_mem_cons, List.not_mem_nil, IsEmpty.forall_iff, implies_true, and_true,
      List.forall_mem_flatMap]
  all_goals simp [Store.InBlocks, ite_dst]

/-- `readv` and `writev` free what they find in the array, which the kernel has
not changed: the blocks. -/
theorem freed_entry (hn : n = .readv ∨ n = .writev)
    (hv : Returned c K (unwrapCase n) (sent c n u) v) (hk : k < mallocs c n) :
    load64 (v (.buf .arg2)) (16 * (k + 5)) = c.alloc k := by
  rcases hn with rfl | rfl
  · have hlt : k < intCount c.a3 - 5 := hk
    have hsame := returned_readv_array hv
    have harray : sent c .readv u (.buf .arg2) =
        applyAll (readvSends c) ((sendNr .readv).apply u) (.buf .arg2) :=
      applyAll_between (by decide) (by decide) _
    rw [hsame, harray, (readv_entry (i := k + 5) (by omega) _).1, segPtr, if_neg (by omega)]
    rfl
  · have hsame : v (.buf .arg2) = sent c .writev u (.buf .arg2) := by
      refine funext fun i => hv.frame _ i (by decide) ?_
      simp [unwrapCase, HostCall.writes, HostCall.argVals, params, sysParams, Param.writes,
        Operand.eval]
    have harray : sent c .writev u (.buf .arg2) =
        applyAll (writevSends c) ((sendNr .writev).apply u) (.buf .arg2) :=
      applyAll_between (by decide) (by decide) _
    rw [hsame, harray, writev_base hk]

/-- **The blocks are found again.** -/
theorem freed_eq (hv : Returned c K (unwrapCase n) (sent c n u) v) :
    freed c v n = (frees c n).map c.alloc := by
  cases n
  case readv =>
    exact List.map_congr_left fun k hk => freed_entry (.inl rfl) hv (List.mem_range.mp hk)
  case writev =>
    exact List.map_congr_left fun k hk => freed_entry (.inr rfl) hv (List.mem_range.mp hk)
  case pselect6 =>
    simp only [freed, frees, mallocs]
    split_ifs <;> rfl
  all_goals rfl

/-! ## The heap and the table -/

structure HeapState where
  heap : Heap Addr
  table : ObjectTable

/-- A wrapped call, and what `malloc_user` answers in it. (`Ctx.alloc` is for the
contents of blocks; there no allocation fails.) -/
structure HeapCall where
  ctx : Ctx
  n : Sysno
  ans : Nat → Addr

/-- The answers of `malloc_user`, in order. -/
def HeapCall.answers (x : HeapCall) : List Addr := (List.range (mallocs x.ctx x.n)).map x.ans

namespace HeapState

/-- `get_out_address`, and `set_out_address` when there is no mirror. -/
def mirror (s : HeapState) (key out : Addr) : HeapState :=
  if getOutAddress s.table key = null then
    ⟨if HasRoom s.table then s.heap.malloc out else (s.heap.malloc out).free out,
      (setOutAddress s.table key out).2⟩
  else s

/-- A wrapped call, from its beginning to its return. -/
def call (s : HeapState) (x : HeapCall) : HeapState :=
  match x.n with
  | .futex => s.mirror x.ctx.a1.toNat (x.ans 0)
  | .set_tid_address => if x.ctx.a1 = 0 then s else s.mirror x.ctx.a1.toNat (x.ans 0)
  | n => { s with heap := (s.heap.mallocAll x.answers).freeAll ((frees x.ctx n).map x.ans) }

def boot : HeapState := ⟨⟨∅, []⟩, emptyTable⟩

end HeapState

def heapSys : TSys HeapState HeapCall where
  init s := s = HeapState.boot
  next s x := some (s.call x)

/-- `malloc_user` returns `NULL` or a block that is not in use. -/
def FreshAnswers (s : HeapState) (x : HeapCall) : Prop := s.heap.Fresh x.answers

instance (s : HeapState) (x : HeapCall) : Decidable (FreshAnswers s x) :=
  inferInstanceAs (Decidable (s.heap.Fresh x.answers))

/-- The live blocks are those of the table, each of one entry, and nothing was
freed that was not live. -/
structure Balanced (s : HeapState) : Prop where
  recorded : ∀ b, b ∈ s.heap.live ↔ b ≠ null ∧ ∃ i < maxNoObjects, (s.table i).out = b
  once : ∀ i < maxNoObjects, ∀ j < maxNoObjects, (s.table i).out ≠ null →
    (s.table i).out = (s.table j).out → i = j
  tame : s.heap.wild = []

/-- A new mirror for `key` does not take the entry of `NULL` from a block. -/
def KeepsNull (s : HeapState) (key : Addr) : Prop :=
  getOutAddress s.table key = null → HasRoom s.table → getOutAddress s.table null = null

instance (s : HeapState) (key : Addr) : Decidable (KeepsNull s key) :=
  inferInstanceAs (Decidable (_ → _ → _))

/-- A message without parts, or no memory for them; a mirror that does not take
the entry of `NULL` from a block there. -/
def Releases (s : HeapState) (x : HeapCall) : Prop :=
  (x.n = .sendmsg ∨ x.n = .recvmsg → ∀ b ∈ x.answers, b = null) ∧
  (x.n = .futex ∨ x.n = .set_tid_address ∧ x.ctx.a1 ≠ 0 → KeepsNull s x.ctx.a1.toNat)

instance (s : HeapState) (x : HeapCall) : Decidable (Releases s x) :=
  inferInstanceAs (Decidable (_ ∧ _))

variable {s : HeapState} {x : HeapCall} {key out : Addr}

theorem balanced_boot : Balanced HeapState.boot where
  recorded b := by
    constructor
    · exact fun hb => absurd hb (Finset.notMem_empty b)
    · rintro ⟨hne, i, -, rfl⟩
      exact absurd rfl hne
  once _ _ _ _ hne := absurd rfl hne
  tame := rfl

/-- A call that gives back what it got. -/
theorem call_of_frees (h : (frees x.ctx x.n).map x.ans = x.answers) (hfresh : FreshAnswers s x)
    (hcall : s.call x =
      { s with heap := (s.heap.mallocAll x.answers).freeAll ((frees x.ctx x.n).map x.ans) }) :
    s.call x = s := by
  rw [hcall, h, Heap.freeAll_mallocAll hfresh]

/-- A call that gives nothing back keeps the balance when it got nothing. -/
theorem balanced_mallocAll_iff {bs : List Addr} (h : Balanced s) (hfresh : s.heap.Fresh bs) :
    Balanced { s with heap := s.heap.mallocAll bs } ↔ ∀ b ∈ bs, b = null := by
  constructor
  · intro hbal b hb
    by_contra hne
    have hlive : b ∈ (s.heap.mallocAll bs).live := Heap.mem_mallocAll.mpr (.inr ⟨hb, hne⟩)
    exact hfresh.1 b hb hne ((h.recorded b).mpr ((hbal.recorded b).mp hlive))
  · intro hnull
    rw [Heap.mallocAll_of_zero hnull]
    exact h

/-- The block that an unused entry is given is not recorded yet, and the one that
it had is lost. -/
theorem balanced_fill_iff {i : Nat} (h : Balanced s) (hout : out ≠ null → out ∉ s.heap.live)
    (hi : i < maxNoObjects) :
    Balanced ⟨s.heap.malloc out, fill s.table i ⟨key, out⟩⟩ ↔ (s.table i).out = null := by
  have hnew : ∀ j < maxNoObjects, out ≠ null → (s.table j).out ≠ out := fun j hj hne hsame =>
    hout hne ((h.recorded out).mpr ⟨hne, j, hj, hsame⟩)
  constructor
  · intro hbal
    by_contra hne
    have hlive : (s.table i).out ∈ (s.heap.malloc out).live :=
      Heap.mem_malloc.mpr (.inl ((h.recorded _).mpr ⟨hne, i, hi, rfl⟩))
    obtain ⟨-, j, hj, hrec⟩ := (hbal.recorded _).mp hlive
    by_cases hji : j = i
    · rw [hji] at hrec
      have hsame : out = (s.table i).out := by simpa using hrec
      exact hnew i hi (hsame ▸ hne) hsame.symm
    · have hsame : (s.table j).out = (s.table i).out := by simpa [fill_of_ne hji] using hrec
      exact hji (h.once j hj i hi (hsame ▸ hne) hsame)
  · intro hnull
    refine ⟨fun b => ?_, fun j hj k hk hne hsame => ?_, ?_⟩
    · show b ∈ (s.heap.malloc out).live ↔
        b ≠ null ∧ ∃ j < maxNoObjects, (fill s.table i ⟨key, out⟩ j).out = b
      rw [Heap.mem_malloc, h.recorded]
      constructor
      · rintro (⟨hne, j, hj, rfl⟩ | ⟨rfl, hne⟩)
        · have hji : j ≠ i := fun hji => hne (hji ▸ hnull)
          exact ⟨hne, j, hj, by rw [fill_of_ne hji]⟩
        · exact ⟨hne, i, hi, by rw [fill_self]⟩
      · rintro ⟨hne, j, hj, hrec⟩
        by_cases hji : j = i
        · rw [hji, fill_self] at hrec
          exact .inr ⟨hrec.symm, fun hz => hne (hrec.symm.trans hz)⟩
        · rw [fill_of_ne hji] at hrec
          exact .inl ⟨hne, j, hj, hrec⟩
    · by_cases hji : j = i <;> by_cases hki : k = i
      · exact hji.trans hki.symm
      · simp only [hji, fill_self, fill_of_ne hki] at hne hsame
        exact absurd hsame.symm (hnew k hk hne)
      · simp only [hki, fill_self, fill_of_ne hji] at hne hsame
        exact absurd hsame (hnew j hj (hsame ▸ hne))
      · simp only [fill_of_ne hji, fill_of_ne hki] at hne hsame
        exact h.once j hj k hk hne hsame
    · show (s.heap.malloc out).wild = []
      rw [Heap.malloc_wild, h.tame]

/-- A new mirror keeps the balance when the entry it takes has no block. -/
theorem balanced_mirror_iff (h : Balanced s) (hout : out ≠ null → out ∉ s.heap.live) :
    Balanced (s.mirror key out) ↔ KeepsNull s key := by
  unfold HeapState.mirror KeepsNull
  by_cases hkey : getOutAddress s.table key = null
  · rw [if_pos hkey]
    by_cases hroom : HasRoom s.table
    · obtain ⟨i, hi, hin, hfirst, hset⟩ := setOutAddress_of_hasRoom key out hroom
      rw [if_pos hroom, hset, balanced_fill_iff h hout hi, getOutAddress_of_first hi hin hfirst]
      exact ⟨fun hnull _ _ => hnull, fun himp => himp hkey hroom⟩
    · rw [if_neg hroom, setOutAddress_of_not_hasRoom key out hroom, Heap.free_malloc hout]
      exact iff_of_true h fun _ hr => absurd hr hroom
  · rw [if_neg hkey]
    exact iff_of_true h fun hk => absurd hk hkey

/-- The step lemma. -/
theorem balanced_call_iff (h : Balanced s) (hfresh : FreshAnswers s x) :
    Balanced (s.call x) ↔ Releases s x := by
  obtain ⟨c, n, ans⟩ := x
  unfold Releases
  cases n
  case futex =>
    have hout := hfresh.1 (ans 0) (List.mem_singleton_self _)
    refine (balanced_mirror_iff h hout : Balanced (s.mirror c.a1.toNat (ans 0)) ↔ _).trans ?_
    simp
  case set_tid_address =>
    have hout := hfresh.1 (ans 0) (List.mem_singleton_self _)
    have hiff : Balanced (if c.a1 = 0 then s else s.mirror c.a1.toNat (ans 0)) ↔
        (c.a1 ≠ 0 → KeepsNull s c.a1.toNat) := by
      by_cases ha : c.a1 = 0
      · rw [if_pos ha]
        exact iff_of_true h fun hne => absurd ha hne
      · rw [if_neg ha, balanced_mirror_iff h hout, imp_iff_right ha]
    refine hiff.trans ?_
    simp
  case sendmsg =>
    refine (balanced_mallocAll_iff h hfresh).trans ?_
    simp
  case recvmsg =>
    refine (balanced_mallocAll_iff h hfresh).trans ?_
    simp
  case readv =>
    rw [call_of_frees rfl hfresh rfl]
    exact iff_of_true h (by simp)
  case writev =>
    rw [call_of_frees rfl hfresh rfl]
    exact iff_of_true h (by simp)
  case pselect6 =>
    rw [call_of_frees rfl hfresh rfl]
    exact iff_of_true h (by simp)
  -- nothing is allocated
  all_goals exact iff_of_true h (by simp)

/-- A `readv` of seven segments, for which there is memory for one block, and a
`futex` on the word at 8. -/
def balancedCalls : List HeapCall :=
  [⟨Ctx.plain 3 4096 7 0 0 0 fun _ => 0, .readv, fun k => if k = 0 then 100 else 0⟩,
   ⟨Ctx.plain 8 1 1 0 0 0 fun _ => 0, .futex, fun _ => 100⟩]

/-- A `sendmsg` with a name of one byte. -/
def namedMessage : HeapCall :=
  ⟨Ctx.plain 3 4096 0 0 0 0 fun p => if p = 4104 then 1 else 0, .sendmsg, fun _ => 100⟩

end Porpoise.Shim
