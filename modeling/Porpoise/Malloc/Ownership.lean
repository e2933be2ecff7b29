import Mathlib.Data.List.Induction
import Mathlib.Order.Basic
import Porpoise.Lib.TSys
import Porpoise.Malloc.SysAlloc

/-!
# What `sys_alloc` adds to the heap

The allocator trusts the address that `sbrk` returns: what it adds to the heap begins there
and is as long as it asked for.

* `Owned`: the process owns a range, by its data segment or by a mapping.
* `sysAlloc_owned_iff`: with `sbrk_user`, exactly when no increment is refused.
* `heap_owned_of_run`: over whole runs, every segment of the heap.
-/

namespace Porpoise.Malloc

open Porpoise.Lib

/-- An address of a range. -/
def Range.Has (t : Range) (a : Nat) : Prop :=
  t.base.toNat ≤ a ∧ a < t.base.toNat + t.size.toNat

/-- An address of a mapping. -/
def Proc.Mapped (p : Proc) (a : Nat) : Prop :=
  ∃ x ∈ p.maps, x.1.toNat ≤ a ∧ a < x.1.toNat + x.2.toNat

/-- **The process owns a range**: what was mapped lies in its mappings, and what `MORECORE`
returned in its data segment. -/
structure Owned (p : Proc) (t : Range) : Prop where
  fits : t.base.toNat + t.size.toNat ≤ taskSize
  mapped : t.mmapped = true → ∀ a, t.Has a → p.Mapped a
  data : t.mmapped = false → ∀ a, t.Has a → p.start.toNat ≤ a ∧ a < p.brk.toNat

variable {A : Answers} {x : MParams} {m : MState} {nb asize b size : Word} {w : World} {p : Proc}

/-- A range that ends at the break. -/
structure AtBreak (p : Proc) (base size : Word) : Prop where
  start : p.start.toNat ≤ base.toNat
  brk : p.brk.toNat = base.toNat + size.toNat

theorem AtBreak.owned (h : AtBreak p b size) : Owned p ⟨b, size, false⟩ := by
  obtain ⟨hstart, hbrk⟩ := h
  refine ⟨?_, fun hm => ?_, ?_⟩
  · show b.toNat + size.toNat ≤ taskSize
    rw [← hbrk]
    exact p.brk_lt.le
  · cases hm
  · rintro - a ⟨hlow, hhigh⟩
    have hlow' : b.toNat ≤ a := hlow
    have hhigh' : a < b.toNat + size.toNat := hhigh
    omega

/-- A range that reaches beyond the break is not owned. -/
theorem brk_of_owned (h : Owned p ⟨b, size, false⟩) (hb : b.toNat ≤ p.brk.toNat) :
    b.toNat + size.toNat ≤ p.brk.toNat := by
  by_contra hlt
  have hhas : Range.Has ⟨b, size, false⟩ (b.toNat + size.toNat - 1) := by
    constructor
    · show b.toNat ≤ b.toNat + size.toNat - 1
      omega
    · show b.toNat + size.toNat - 1 < b.toNat + size.toNat
      omega
  have hlast := (h.data rfl _ hhas).2
  omega

/-- A process that has got more memory. -/
structure Grows (p p' : Proc) : Prop where
  start : p'.start = p.start
  brk : p.brk.toNat ≤ p'.brk.toNat
  maps : ∀ y ∈ p.maps, y ∈ p'.maps

theorem Grows.refl (p : Proc) : Grows p p := ⟨rfl, le_rfl, fun _ => id⟩

theorem Grows.trans {p₁ p₂ p₃ : Proc} (h : Grows p₁ p₂) (h' : Grows p₂ p₃) : Grows p₁ p₃ :=
  ⟨h'.start.trans h.start, h.brk.trans h'.brk, fun y hy => h'.maps y (h.maps y hy)⟩

/-- It keeps what it owns. -/
theorem Owned.mono {p' : Proc} {t : Range} (h : Owned p t) (hp : Grows p p') : Owned p' t where
  fits := h.fits
  mapped hm a ha := by
    obtain ⟨y, hy, hin⟩ := h.mapped hm a ha
    exact ⟨y, hp.maps y hy, hin⟩
  data hm a ha := by
    obtain ⟨hlow, hhigh⟩ := h.data hm a ha
    have hbrk := hp.brk
    rw [hp.start]
    omega

theorem afterIncs_grows {incs : List Word} (hincs : ∀ inc ∈ incs, inc.toNat < 2 ^ 63) :
    Grows w.proc (afterIncs A incs w).proc := by
  obtain ⟨hstart, hmaps⟩ := afterIncs_rest A incs w
  refine ⟨hstart, (afterIncs_brk A incs w hincs).1, fun y hy => ?_⟩
  rw [hmaps]
  exact hy

/-- `mmap` fails, or adds a mapping. -/
theorem callMmap_cases (A : Answers) (size : Word) (w : World) :
    callMmap A size w = (mfail, { w with mmaps := w.mmaps + 1 }) ∨
      ∃ a, a.toNat + size.toNat ≤ taskSize ∧ callMmap A size w = (a, { w with
        proc := { w.proc with maps := (a, size) :: w.proc.maps }
        mmaps := w.mmaps + 1 }) := by
  unfold callMmap
  cases hanswer : (A.mmap w.mmaps).filter fun a => a.toNat + size.toNat ≤ taskSize with
  | none => exact .inl rfl
  | some a =>
      have hfits := (Option.filter_eq_some_iff.mp hanswer).2
      exact .inr ⟨a, of_decide_eq_true hfits, rfl⟩

/-- It leaves the data segment alone. -/
theorem callMmap_brks (A : Answers) (size : Word) (w : World) :
    (callMmap A size w).2.proc.start = w.proc.start ∧
      (callMmap A size w).2.proc.brk = w.proc.brk ∧ (callMmap A size w).2.brks = w.brks := by
  rcases callMmap_cases A size w with heq | ⟨a, -, heq⟩
  · rw [heq]
    exact ⟨rfl, rfl, rfl⟩
  · rw [heq]
    exact ⟨rfl, rfl, rfl⟩

theorem callMmap_grows (A : Answers) (size : Word) (w : World) :
    Grows w.proc (callMmap A size w).2.proc := by
  rcases callMmap_cases A size w with heq | ⟨a, -, heq⟩
  · rw [heq]
    exact .refl _
  · rw [heq]
    exact ⟨rfl, le_rfl, fun y hy => List.mem_cons_of_mem _ hy⟩

/-- A mapping is owned. -/
theorem callMmap_owned (h : (callMmap A size w).1 ≠ mfail) :
    Owned (callMmap A size w).2.proc ⟨(callMmap A size w).1, size, true⟩ := by
  rcases callMmap_cases A size w with heq | ⟨a, hfits, heq⟩
  · rw [heq] at h
    exact absurd rfl h
  · rw [heq]
    refine ⟨hfits, fun _ a' ha => ?_, fun hdata => ?_⟩
    · exact ⟨(a, size), List.mem_cons_self, ha⟩
    · cases hdata

/-! ## With `sbrk_user` -/

/-- The increments of the first way, with the break at `b`. -/
def contiguousIncs (x : MParams) (m : MState) (nb asize b : Word) : List Word :=
  if m.use_noncontiguous then []
  else
    match topSegment m with
    | none => if FirstOk m nb (firstSize x asize b) then [0, firstSize x asize b] else [0]
    | some ss =>
        let ssize := extensionSize x m nb
        let esize := missingSize x nb ssize
        if ssize.toNat < halfMaxSize then
          -- what is missing, if the break is not where the segment ends
          if b ≠ ss.base + ss.size ∧ ssize.toNat < (nb + sysAllocPadding).toNat ∧
              esize.toNat < halfMaxSize then
            [ssize, esize]
          else [ssize]
        else []

theorem contiguousIncs_lt (x : MParams) (m : MState) (nb asize b : Word) :
    ∀ inc ∈ contiguousIncs x m nb asize b, inc.toNat < 2 ^ 63 := by
  have hhalf : ∀ {k : Word}, k.toNat < halfMaxSize → k.toNat < 2 ^ 63 := by
    intro k hk
    unfold halfMaxSize at hk
    omega
  have hzero : (0 : Word).toNat < 2 ^ 63 := by decide
  unfold contiguousIncs
  split
  · exact fun _ h => absurd h List.not_mem_nil
  split
  · split
    · next hok =>
        exact List.forall_mem_cons.mpr ⟨hzero, List.forall_mem_singleton.mpr (hhalf hok.2.1)⟩
    · exact List.forall_mem_singleton.mpr hzero
  · simp only
    split
    · next hsize =>
        split
        · next hmissing =>
            exact List.forall_mem_cons.mpr
              ⟨hhalf hsize, List.forall_mem_singleton.mpr (hhalf hmissing.2.2)⟩
        · exact List.forall_mem_singleton.mpr (hhalf hsize)
    · exact fun _ h => absurd h List.not_mem_nil

/-- The first attempt. `br` is always the break. -/
theorem contiguousFirst_none (hseg : topSegment m = none) (nb asize : Word) :
    contiguousFirst (sbrkUser A) x m nb asize w =
      if FirstOk m nb (firstSize x asize w.proc.brk) then
        (⟨w.proc.brk, firstSize x asize w.proc.brk, w.proc.brk⟩,
          afterIncs A [0, firstSize x asize w.proc.brk] w)
      else (⟨mfail, firstSize x asize w.proc.brk, mfail⟩, afterIncs A [0] w) := by
  unfold contiguousFirst
  rw [hseg]
  simp only [sbrkUser_after, afterIncs_zero, if_pos (brk_ne_mfail w.proc), if_true]
  rfl

theorem contiguousFirst_some {ss : Segment} (hseg : topSegment m = some ss) (nb asize : Word) :
    contiguousFirst (sbrkUser A) x m nb asize w =
      if (extensionSize x m nb).toNat < halfMaxSize then
        (⟨w.proc.brk, extensionSize x m nb,
            if w.proc.brk = ss.base + ss.size then w.proc.brk else mfail⟩,
          afterIncs A [extensionSize x m nb] w)
      else (⟨mfail, extensionSize x m nb, mfail⟩, w) := by
  unfold contiguousFirst
  rw [hseg]
  simp only [sbrkUser_after]

/-- What is missing is never refused. -/
theorem copePartial_sbrkUser {br ssize : Word} (nb : Word) (hbr : br ≠ mfail)
    (hsize : ssize.toNat < halfMaxSize) :
    copePartial (sbrkUser A) x nb br ssize w =
      if ssize.toNat < (nb + sysAllocPadding).toNat ∧
          (missingSize x nb ssize).toNat < halfMaxSize then
        (br, ssize + missingSize x nb ssize, afterIncs A [missingSize x nb ssize] w)
      else (br, ssize, w) := by
  unfold copePartial
  simp only [if_pos hbr, sbrkUser_after, if_pos (brk_ne_mfail w.proc), hsize, true_and]
  by_cases hless : ssize.toNat < (nb + sysAllocPadding).toNat
  · by_cases hmissing : (missingSize x nb ssize).toNat < halfMaxSize
    · simp only [hless, hmissing, if_true, and_self]
    · simp only [hless, hmissing, if_true, if_false, and_false]
  · simp only [hless, if_false, false_and]

theorem copePartial_mfail {M : Morecore} {ssize : Word} :
    copePartial M x nb mfail ssize w = (mfail, ssize, w) := if_neg fun h => h rfl

section Contiguous

variable {M : Morecore} {br k k' base : Word} {w' w'' : World}
  (hopen : ¬ m.use_noncontiguous = true)

include hopen

/-- The first attempt failed, and there is nothing to extend. -/
theorem contiguous_of_failed
    (hfirst : contiguousFirst M x m nb asize w = (⟨mfail, k, mfail⟩, w')) :
    contiguous M x m nb asize w = (mfail, 0, true, w') := by
  rw [contiguous, if_neg hopen, hfirst]
  show (if mfail ≠ mfail then _ else _) = _
  rw [if_neg fun h => h rfl, copePartial_mfail]
  exact if_neg fun h => h rfl

/-- It continues what there was. -/
theorem contiguous_of_tbase (hbase : base ≠ mfail)
    (hfirst : contiguousFirst M x m nb asize w = (⟨br, k, base⟩, w')) :
    contiguous M x m nb asize w = (base, k, false, w') := by
  rw [contiguous, if_neg hopen, hfirst]
  exact if_pos hbase

/-- It lies elsewhere, and is used there. -/
theorem contiguous_of_cope (hbase : base ≠ mfail)
    (hfirst : contiguousFirst M x m nb asize w = (⟨br, k, mfail⟩, w'))
    (hcope : copePartial M x nb br k w' = (base, k', w'')) :
    contiguous M x m nb asize w = (base, k', false, w'') := by
  rw [contiguous, if_neg hopen, hfirst]
  show (if mfail ≠ mfail then _ else _) = _
  rw [if_neg fun h => h rfl, hcope]
  exact if_pos hbase

theorem contiguousIncs_none (hseg : topSegment m = none) :
    contiguousIncs x m nb asize b =
      if FirstOk m nb (firstSize x asize b) then [0, firstSize x asize b] else [0] := by
  rw [contiguousIncs, if_neg hopen, hseg]

theorem contiguousIncs_some {ss : Segment} (hseg : topSegment m = some ss)
    (hsize : (extensionSize x m nb).toNat < halfMaxSize) :
    contiguousIncs x m nb asize b =
      if b ≠ ss.base + ss.size ∧ (extensionSize x m nb).toNat < (nb + sysAllocPadding).toNat ∧
          (missingSize x nb (extensionSize x m nb)).toNat < halfMaxSize then
        [extensionSize x m nb, missingSize x nb (extensionSize x m nb)]
      else [extensionSize x m nb] := by
  rw [contiguousIncs, if_neg hopen, hseg]
  exact if_pos hsize

end Contiguous

/-- What `contiguous` returns when it made these increments. -/
def FromBreak (A : Answers) (w : World) (incs : List Word) (r : Word × Word × Bool × World) :
    Prop :=
  r.2.2.2 = afterIncs A incs w ∧
    (r.1 = mfail ∧ total incs = 0 ∨ r.1 = w.proc.brk ∧ r.2.1.toNat = total incs)

/-- With a segment to extend. -/
theorem contiguous_extends {ss : Segment} (hopen : ¬ m.use_noncontiguous = true)
    (hseg : topSegment m = some ss) (hsize : (extensionSize x m nb).toNat < halfMaxSize) :
    FromBreak A w (contiguousIncs x m nb asize w.proc.brk)
      (contiguous (sbrkUser A) x m nb asize w) := by
  have hbrk := brk_ne_mfail w.proc
  have hfirst := contiguousFirst_some (A := A) (x := x) (w := w) hseg nb asize
  rw [if_pos hsize] at hfirst
  rw [contiguousIncs_some hopen hseg hsize]
  by_cases hend : w.proc.brk = ss.base + ss.size
  · rw [if_pos hend] at hfirst
    rw [if_neg fun h => h.1 hend, contiguous_of_tbase hopen hbrk hfirst]
    exact ⟨rfl, .inr ⟨rfl, by simp⟩⟩
  rw [if_neg hend] at hfirst
  have hcope := copePartial_sbrkUser (A := A) (x := x)
    (w := afterIncs A [extensionSize x m nb] w) nb hbrk hsize
  by_cases hmissing : (extensionSize x m nb).toNat < (nb + sysAllocPadding).toNat ∧
      (missingSize x nb (extensionSize x m nb)).toNat < halfMaxSize
  · rw [if_pos hmissing] at hcope
    rw [if_pos ⟨hend, hmissing⟩, contiguous_of_cope hopen hbrk hfirst hcope]
    refine ⟨rfl, .inr ⟨rfl, ?_⟩⟩
    have hmore := hmissing.2
    unfold halfMaxSize at hsize hmore
    rw [BitVec.toNat_add, total_cons, total_cons, total_nil]
    omega
  · rw [if_neg hmissing] at hcope
    rw [if_neg fun h => hmissing h.2, contiguous_of_cope hopen hbrk hfirst hcope]
    exact ⟨rfl, .inr ⟨rfl, by simp⟩⟩

/-- **The first way** with `sbrk_user`: the increments are made in any case, and the range
begins at the old break and is as long as they ask for. -/
theorem contiguous_sbrkUser (A : Answers) (x : MParams) (m : MState) (nb asize : Word)
    (w : World) :
    FromBreak A w (contiguousIncs x m nb asize w.proc.brk)
      (contiguous (sbrkUser A) x m nb asize w) := by
  by_cases hopen : m.use_noncontiguous = true
  · have hincs : contiguousIncs x m nb asize w.proc.brk = [] := if_pos hopen
    have heq : contiguous (sbrkUser A) x m nb asize w = (mfail, 0, true, w) := if_pos hopen
    rw [heq, hincs]
    exact ⟨rfl, .inl ⟨rfl, rfl⟩⟩
  cases hseg : topSegment m with
  | none =>
      have hfirst := contiguousFirst_none (A := A) (x := x) (w := w) hseg nb asize
      rw [contiguousIncs_none hopen hseg]
      by_cases hok : FirstOk m nb (firstSize x asize w.proc.brk)
      · rw [if_pos hok] at hfirst ⊢
        rw [contiguous_of_tbase hopen (brk_ne_mfail w.proc) hfirst]
        exact ⟨rfl, .inr ⟨rfl, by simp⟩⟩
      · rw [if_neg hok] at hfirst ⊢
        rw [contiguous_of_failed hopen hfirst]
        exact ⟨rfl, .inl ⟨rfl, rfl⟩⟩
  | some ss =>
      by_cases hsize : (extensionSize x m nb).toNat < halfMaxSize
      · exact contiguous_extends hopen hseg hsize
      · have hincs : contiguousIncs x m nb asize w.proc.brk = [] := by
          rw [contiguousIncs, if_neg hopen, hseg]
          exact if_neg hsize
        have hfirst := contiguousFirst_some (A := A) (x := x) (w := w) hseg nb asize
        rw [if_neg hsize] at hfirst
        rw [hincs, contiguous_of_failed hopen hfirst]
        exact ⟨rfl, .inl ⟨rfl, rfl⟩⟩

/-- **The third way** believes the break alone, and adds what it has moved by. -/
theorem noncontiguous_owned {t : Range}
    (h : (noncontiguous (sbrkUser A) nb asize w).1 = some t) :
    Owned (noncontiguous (sbrkUser A) nb asize w).2.proc t := by
  revert h
  unfold noncontiguous
  split
  case isFalse => exact fun h => nomatch h
  simp only [sbrkUser_after]
  split
  case isFalse => exact fun h => nomatch h
  next hlast =>
    split
    case isFalse => exact fun h => nomatch h
    intro h
    obtain rfl := Option.some.inj h
    obtain ⟨-, -, hlt⟩ := hlast
    show Owned (afterIncs A [0] (afterIncs A [asize] w)).proc _
    refine AtBreak.owned ⟨?_, ?_⟩
    · rw [(afterIncs_rest A _ _).1, (afterIncs_rest A _ _).1]
      exact w.proc.start_le
    · rw [afterIncs_zero, BitVec.toNat_sub_of_le (BitVec.le_def.mpr hlt.le)]
      omega

/-- **What the three ways add** is owned exactly when no increment of the first is
refused. -/
theorem added_owned_iff :
    (∀ t, (added (sbrkUser A) A x m nb asize w).1 = some t →
      Owned (added (sbrkUser A) A x m nb asize w).2.2.proc t) ↔
      AllGranted A w.proc.start w.brks w.proc.brk (contiguousIncs x m nb asize w.proc.brk) := by
  obtain ⟨hworld, hresult⟩ := contiguous_sbrkUser A x m nb asize w
  obtain ⟨hle, hge, hiff⟩ := afterIncs_brk A (contiguousIncs x m nb asize w.proc.brk) w
    (contiguousIncs_lt x m nb asize w.proc.brk)
  rw [← hiff]
  unfold added
  generalize contiguous (sbrkUser A) x m nb asize w = r at hworld hresult
  obtain ⟨tbase, tsize, closed, w'⟩ := r
  obtain rfl : w' = _ := hworld
  rcases hresult with ⟨hbase, hzero⟩ | ⟨hbase, hsize⟩
  · obtain rfl : tbase = mfail := hbase
    refine iff_of_true ?_ (by omega)
    intro t
    simp only [ne_eq, not_true_eq_false, if_false]
    split
    · next hmapped =>
        intro h
        obtain rfl := Option.some.inj h
        exact callMmap_owned hmapped
    · exact noncontiguous_owned
  · obtain rfl : tbase = w.proc.brk := hbase
    have hsize' : tsize.toNat = total (contiguousIncs x m nb asize w.proc.brk) := hsize
    simp only [if_pos (brk_ne_mfail w.proc), Option.some.injEq, forall_eq']
    constructor
    · intro howned
      have hend := brk_of_owned howned hle
      omega
    · intro hall
      refine AtBreak.owned ⟨?_, by omega⟩
      rw [(afterIncs_rest A _ _).1]
      exact w.proc.start_le

/-! ## What a call adds -/

/-- The increments that a call of `sys_alloc` makes for the first way. -/
def increments (A : Answers) (x : MParams) (m : MState) (nb : Word) (w : World) : List Word :=
  let (mem, m, w) := directAlloc A x m nb w
  if mem ≠ 0 then []
  else
    match systemSize x m nb with
    | none => []
    | some asize => contiguousIncs x m nb asize w.proc.brk

/-- A direct mapping leaves the data segment alone. -/
theorem directAlloc_brks (A : Answers) (x : MParams) (m : MState) (nb : Word) (w : World) :
    (directAlloc A x m nb w).2.2.proc.start = w.proc.start ∧
      (directAlloc A x m nb w).2.2.proc.brk = w.proc.brk ∧
      (directAlloc A x m nb w).2.2.brks = w.brks := by
  unfold directAlloc
  split
  case isFalse => exact ⟨rfl, rfl, rfl⟩
  unfold mmapAlloc
  have hbrks := callMmap_brks A (pageAlign x (nb + 48 + 15)) w
  simp only
  split
  case isFalse => exact ⟨rfl, rfl, rfl⟩
  split
  · exact hbrks
  · exact hbrks

/-- The range that a call adds to the heap is the process's. -/
def AddsOwned (o : Outcome) : Prop := ∀ t, o.range = some t → Owned o.world.proc t

theorem addsOwned_of_none {o : Outcome} (h : o.range = none) : AddsOwned o := by
  intro t ht
  rw [h] at ht
  cases ht

/-- What is added is what the three ways return. -/
theorem addsOwned_iff {M : Morecore} (hmem : (directAlloc A x m nb w).1 = 0)
    (hsize : systemSize x (directAlloc A x m nb w).2.1 nb = some asize) :
    AddsOwned (sysAlloc M A x m nb w) ↔
      ∀ t, (added M A x (directAlloc A x m nb w).2.1 nb asize
          (directAlloc A x m nb w).2.2).1 = some t →
        Owned (added M A x (directAlloc A x m nb w).2.1 nb asize
          (directAlloc A x m nb w).2.2).2.2.proc t := by
  unfold AddsOwned sysAlloc
  generalize directAlloc A x m nb w = d at hmem hsize
  obtain ⟨mem, m₁, w₁⟩ := d
  obtain rfl : mem = 0 := hmem
  simp only [ne_eq, not_true_eq_false, if_false, hsize]
  generalize added M A x m₁ nb asize w₁ = r
  obtain ⟨t, closed, w₂⟩ := r
  cases t with
  | none => exact Iff.rfl
  | some t => exact Iff.rfl

/-- A call that adds nothing: the request is mapped directly, or its size is refused. -/
theorem sysAlloc_range_none {M : Morecore} (h : (directAlloc A x m nb w).1 ≠ 0 ∨
    systemSize x (directAlloc A x m nb w).2.1 nb = none) :
    (sysAlloc M A x m nb w).range = none := by
  unfold sysAlloc
  generalize directAlloc A x m nb w = d at h
  obtain ⟨mem, m₁, w₁⟩ := d
  by_cases hmem : mem ≠ 0
  · exact congrArg Outcome.range (if_pos hmem)
  · obtain hsize : systemSize x m₁ nb = none := h.resolve_left hmem
    simp only [if_neg hmem, hsize]

theorem increments_eq (A : Answers) (x : MParams) (m : MState) (nb : Word) (w : World) :
    increments A x m nb w = if (directAlloc A x m nb w).1 ≠ 0 then [] else
      match systemSize x (directAlloc A x m nb w).2.1 nb with
      | none => []
      | some asize => contiguousIncs x (directAlloc A x m nb w).2.1 nb asize w.proc.brk := by
  have hbrk := (directAlloc_brks A x m nb w).2.1
  rw [← hbrk]
  rfl

/-- **What a call adds** is owned exactly when no increment of the first way is refused. -/
theorem sysAlloc_owned_iff (A : Answers) (x : MParams) (m : MState) (nb : Word) (w : World) :
    AddsOwned (sysAlloc (sbrkUser A) A x m nb w) ↔
      AllGranted A w.proc.start w.brks w.proc.brk (increments A x m nb w) := by
  obtain ⟨hstart, hbrk, hbrks⟩ := directAlloc_brks A x m nb w
  rw [increments_eq]
  by_cases hmem : (directAlloc A x m nb w).1 = 0
  case neg =>
    rw [if_pos hmem]
    exact iff_of_true (addsOwned_of_none (sysAlloc_range_none (.inl hmem))) trivial
  rw [if_neg (not_not.mpr hmem)]
  cases hsize : systemSize x (directAlloc A x m nb w).2.1 nb with
  | none => exact iff_of_true (addsOwned_of_none (sysAlloc_range_none (.inr hsize))) trivial
  | some asize =>
      rw [addsOwned_iff hmem hsize, added_owned_iff, hstart, hbrk, hbrks]

/-! ## The segments -/

section Segments

variable {r t : Range} {segs : List Segment} {f : Segment → Segment} {q : Segment → Bool}
  {s : Segment}

/-- Two adjacent ranges are one. -/
theorem Owned.join (hr : Owned p r) (ht : Owned p t) (hadj : t.base = r.base + r.size)
    (hflag : r.mmapped = t.mmapped) : Owned p ⟨r.base, r.size + t.size, r.mmapped⟩ := by
  have hfr := hr.fits
  have hft := ht.fits
  have hbase : t.base.toNat = r.base.toNat + r.size.toNat := by
    rw [hadj, BitVec.toNat_add]
    unfold taskSize at hfr
    omega
  have hsize : (r.size + t.size).toNat = r.size.toNat + t.size.toNat := by
    rw [BitVec.toNat_add]
    unfold taskSize at hfr hft
    omega
  -- an address of the whole is one of a part
  have hpart : ∀ a, Range.Has ⟨r.base, r.size + t.size, r.mmapped⟩ a → r.Has a ∨ t.Has a := by
    rintro a ⟨hlow, hhigh⟩
    have hlow' : r.base.toNat ≤ a := hlow
    have hhigh' : a < r.base.toNat + (r.size + t.size).toNat := hhigh
    rcases Nat.lt_or_ge a (r.base.toNat + r.size.toNat) with hlt | hge
    · exact .inl ⟨hlow', hlt⟩
    · exact .inr ⟨by omega, by omega⟩
  refine ⟨?_, fun hm a ha => ?_, fun hm a ha => ?_⟩
  · show r.base.toNat + (r.size + t.size).toNat ≤ taskSize
    omega
  · rcases hpart a ha with h | h
    · exact hr.mapped hm a h
    · exact ht.mapped (hflag.symm.trans hm) a h
  · rcases hpart a ha with h | h
    · exact hr.data hm a h
    · exact ht.data (hflag.symm.trans hm) a h

theorem mem_updateFirst (h : s ∈ updateFirst q f segs) :
    s ∈ segs ∨ ∃ s₀, segs.find? q = some s₀ ∧ s = f s₀ := by
  induction segs with
  | nil => exact .inl h
  | cons s₁ segs ih =>
      unfold updateFirst at h
      by_cases hq : q s₁ = true
      · rw [if_pos hq] at h
        rcases List.mem_cons.mp h with heq | hmem
        · exact .inr ⟨s₁, List.find?_cons_of_pos hq, heq⟩
        · exact .inl (List.mem_cons_of_mem _ hmem)
      · rw [if_neg hq] at h
        rcases List.mem_cons.mp h with rfl | hmem
        · exact .inl (List.mem_cons_self ..)
        · rcases ih hmem with hmem' | ⟨s₀, hfind, heq⟩
          · exact .inl (List.mem_cons_of_mem _ hmem')
          · exact .inr ⟨s₀, (List.find?_cons_of_neg hq).trans hfind, heq⟩

@[simp] theorem takeTop_segs (m : MState) (nb : Word) : (takeTop m nb).2.segs = m.segs := by
  unfold takeTop
  split
  · rfl
  · rfl

@[simp] theorem initTop_segs (m : MState) (a psize : Word) : (initTop m a psize).segs = m.segs :=
  rfl

@[simp] theorem prependAlloc_segs (m : MState) (newbase oldbase nb : Word) :
    (prependAlloc m newbase oldbase nb).2.segs = m.segs := by
  unfold prependAlloc
  simp only
  split
  · rfl
  · rfl

/-- **The heap takes the range**: when the process owns it and every segment, it owns every
segment afterwards. -/
theorem install_owned (hm : ∀ s ∈ m.segs, Owned p s.toRange) (ht : Owned p t) :
    ∀ s ∈ (install m nb t).2.segs, Owned p s.toRange := by
  have hnew : ∀ {l : List Segment}, (∀ s ∈ l, Owned p s.toRange) →
      ∀ s ∈ (⟨t, false⟩ : Segment) :: l, Owned p s.toRange := fun hl =>
    List.forall_mem_cons.mpr ⟨ht, hl⟩
  unfold install
  simp only
  split
  · -- the first segment
    rw [takeTop_segs, initTop_segs]
    exact hnew fun s hs => hm s (List.mem_of_mem_tail hs)
  split
  · next s₀ hfound =>
      obtain ⟨hfind, happends⟩ := Option.filter_eq_some_iff.mp hfound
      obtain ⟨-, hflag, -⟩ := of_decide_eq_true happends
      have hends : endsAt t s₀ = true := List.find?_some hfind
      have hadj : t.base = s₀.base + s₀.size := eq_of_beq hends
      rw [takeTop_segs, initTop_segs]
      intro s hs
      rcases mem_updateFirst hs with hs | ⟨s₁, hfind', rfl⟩
      · exact hm s hs
      · obtain rfl := Option.some.inj (hfind.symm.trans hfind')
        exact (hm s₀ (List.mem_of_find?_eq_some hfind)).join ht hadj hflag
  split
  · next s₀ hfound =>
      obtain ⟨hfind, hprepends⟩ := Option.filter_eq_some_iff.mp hfound
      obtain ⟨-, hflag⟩ := of_decide_eq_true hprepends
      have hbegins : beginsAt t s₀ = true := List.find?_some hfind
      have hadj : s₀.base = t.base + t.size := eq_of_beq hbegins
      rw [prependAlloc_segs]
      intro s hs
      rcases mem_updateFirst hs with hs | ⟨s₁, hfind', rfl⟩
      · exact hm s hs
      · obtain rfl := Option.some.inj (hfind.symm.trans hfind')
        have hjoin := ht.join (hm s₀ (List.mem_of_find?_eq_some hfind)) hadj hflag.symm
        rw [BitVec.add_comm t.size, ← hflag] at hjoin
        exact hjoin
  · rw [takeTop_segs, initTop_segs]
    exact hnew hm

end Segments

/-! ## Runs -/

theorem noncontiguous_grows (A : Answers) (nb asize : Word) (w : World) :
    Grows w.proc (noncontiguous (sbrkUser A) nb asize w).2.proc := by
  unfold noncontiguous
  split
  case isFalse => exact .refl _
  next hsize =>
    have hasize : ∀ inc ∈ [asize], inc.toNat < 2 ^ 63 := by
      unfold halfMaxSize at hsize
      exact List.forall_mem_singleton.mpr (by omega)
    have hzero : ∀ inc ∈ [(0 : Word)], inc.toNat < 2 ^ 63 :=
      List.forall_mem_singleton.mpr (by decide)
    have hgrows := (afterIncs_grows (A := A) (w := w) hasize).trans
      (afterIncs_grows (A := A) (w := afterIncs A [asize] w) hzero)
    simp only [sbrkUser_after]
    split
    · split
      · exact hgrows
      · exact hgrows
    · exact hgrows

theorem added_grows (A : Answers) (x : MParams) (m : MState) (nb asize : Word) (w : World) :
    Grows w.proc (added (sbrkUser A) A x m nb asize w).2.2.proc := by
  have hworld := (contiguous_sbrkUser A x m nb asize w).1
  have hgrows := afterIncs_grows (A := A) (w := w) (contiguousIncs_lt x m nb asize w.proc.brk)
  rw [← hworld] at hgrows
  unfold added
  simp only
  split
  · exact hgrows
  have hmapped := hgrows.trans (callMmap_grows A asize _)
  split
  · exact hmapped
  · exact hmapped.trans (noncontiguous_grows A nb asize _)

theorem directAlloc_spec (A : Answers) (x : MParams) (m : MState) (nb : Word) (w : World) :
    (directAlloc A x m nb w).2.1.segs = m.segs ∧
      Grows w.proc (directAlloc A x m nb w).2.2.proc := by
  unfold directAlloc
  split
  case isFalse => exact ⟨rfl, .refl _⟩
  unfold mmapAlloc
  have hgrows := callMmap_grows A (pageAlign x (nb + 48 + 15)) w
  simp only
  split
  case isFalse => exact ⟨rfl, .refl _⟩
  split
  · exact ⟨rfl, hgrows⟩
  · exact ⟨rfl, hgrows⟩

/-- **One call**: when what it adds is owned, the whole heap stays owned. -/
theorem heap_owned_of_call (hm : ∀ s ∈ m.segs, Owned w.proc s.toRange)
    (hadd : AddsOwned (sysAlloc (sbrkUser A) A x m nb w)) :
    ∀ s ∈ (sysAlloc (sbrkUser A) A x m nb w).state.segs,
      Owned (sysAlloc (sbrkUser A) A x m nb w).world.proc s.toRange := by
  obtain ⟨hsegs, hgrows⟩ := directAlloc_spec A x m nb w
  rw [← hsegs] at hm
  revert hadd
  unfold AddsOwned sysAlloc
  generalize directAlloc A x m nb w = d at hm hgrows
  obtain ⟨mem, m₁, w₁⟩ := d
  have hm₁ : ∀ {p' : Proc}, Grows w₁.proc p' → ∀ s ∈ m₁.segs, Owned p' s.toRange :=
    fun hp s hs => (hm s hs).mono (hgrows.trans hp)
  simp only
  split
  · exact fun _ => hm₁ (.refl _)
  split
  · exact fun _ => hm₁ (.refl _)
  next asize _ =>
    have hadded := added_grows A x m₁ nb asize w₁
    generalize added (sbrkUser A) A x m₁ nb asize w₁ = r at hadded
    obtain ⟨t, closed, w₂⟩ := r
    cases t with
    | none => exact fun _ => hm₁ hadded
    | some t =>
        intro howned
        exact install_owned (m := { m₁ with use_noncontiguous := closed }) (hm₁ hadded)
          (howned t rfl)

/-- What happens to the heap: a call of `sys_alloc`, or another operation, which moves the
top. -/
inductive HeapStep
  | sysAlloc (nb : Word) (A : Answers)
  | other (top topsize : Word)

/-- The allocator and its process, before any call. -/
def heapSys (x : MParams) : TSys (MState × Proc) HeapStep where
  init s := s.1.top = 0 ∧ s.1.segs = [⟨⟨0, 0, false⟩, false⟩]
  next s
    | .sysAlloc nb A =>
        let o := sysAlloc (sbrkUser A) A x s.1 nb ⟨s.2, 0, 0⟩
        some (o.state, o.world.proc)
    | .other top topsize => some ({ s.1 with top, topsize }, s.2)

/-- No increment of the step is refused. -/
def NoneRefused (x : MParams) (s : MState × Proc) : HeapStep → Prop
  | .sysAlloc nb A => AllGranted A s.2.start 0 s.2.brk (increments A x s.1 nb ⟨s.2, 0, 0⟩)
  | .other _ _ => True

/-- The segment of an allocator that has none yet. -/
theorem owned_empty (p : Proc) : Owned p ⟨0, 0, false⟩ := by
  refine ⟨Nat.zero_le _, fun hm => ?_, ?_⟩
  · cases hm
  · rintro - a ⟨-, hhigh⟩
    exact absurd hhigh (Nat.not_lt_zero a)

/-- **Every segment of the heap** is the process's in every run in which no increment is
refused. -/
theorem heap_owned_of_run {as : List HeapStep} {s : MState × Proc}
    (h : (heapSys x).Run (NoneRefused x) as s) : ∀ y ∈ s.1.segs, Owned s.2 y.toRange := by
  refine h.invariant (I := fun s => ∀ y ∈ s.1.segs, Owned s.2 y.toRange) ?_ ?_
  · rintro s ⟨-, hsegs⟩ y hy
    rw [hsegs] at hy
    rw [List.mem_singleton.mp hy]
    exact owned_empty _
  · intro s a s' hs hgranted hnext
    cases a with
    | sysAlloc nb A =>
        obtain rfl := Option.some.inj hnext
        exact heap_owned_of_call (w := ⟨s.2, 0, 0⟩) hs ((sysAlloc_owned_iff _ _ _ _ _).mpr hgranted)
    | other top topsize =>
        obtain rfl := Option.some.inj hnext
        exact hs

/-! ## `sbrk_user` and the heap -/

/-- **`sbrk_user` and the heap.** For every break, increment and answer, `sbrk_user` tells
failure from success exactly when the kernel does not refuse, or nothing is asked. For every
state of the allocator, request and answers, what `sys_alloc` adds is the process's exactly
when no increment of its first way is refused. -/
theorem sbrk_user_heap_iff (A : Answers) (w : World) :
    (∀ inc, SbrkTells w.proc.brk inc (sbrkUser A inc w).1 (sbrkUser A inc w).2.proc.brk ↔
      inc = 0 ∨ Granted A w.proc.start w.brks w.proc.brk inc) ∧
    ∀ x m nb, AddsOwned (sysAlloc (sbrkUser A) A x m nb w) ↔
      AllGranted A w.proc.start w.brks w.proc.brk (increments A x m nb w) :=
  ⟨fun inc => sbrk_tells_iff A inc w, fun x m nb => sysAlloc_owned_iff A x m nb w⟩

/-- A process of which the kernel does not move the break. -/
def fullWorld : World := ⟨⟨4096, 8192, [], by decide, by decide, by decide⟩, 0, 0⟩

def refusing : Answers := ⟨fun _ => false, fun _ => none⟩

/-- An allocator before its first call. -/
def newState : MState := ⟨0, 0, 0, 0, 0, 0, true, false, [⟨⟨0, 0, false⟩, false⟩]⟩

/-- A refused page: `sbrk_user(4096)` returns the old break, and `sys_alloc` adds 4096 bytes
that the process does not have. -/
theorem refused_page_is_used :
    ¬ SbrkTells fullWorld.proc.brk 4096 (sbrkUser refusing 4096 fullWorld).1
        (sbrkUser refusing 4096 fullWorld).2.proc.brk ∧
      ¬ AddsOwned (sysAlloc (sbrkUser refusing) refusing ⟨4096, 4096, 0x40000⟩ newState 64
        fullWorld) := by
  have hincs : increments refusing ⟨4096, 4096, 0x40000⟩ newState 64 fullWorld = [0, 4096] := by
    decide
  refine ⟨fun h => ?_, fun h => ?_⟩
  · rcases (sbrk_tells_iff _ _ _).mp h with hzero | hgranted
    · exact absurd hzero (by decide)
    · exact Bool.noConfusion hgranted.1
  · have hall := (sysAlloc_owned_iff _ _ _ _ _).mp h
    rw [hincs] at hall
    rcases hall.2.1 with hzero | hgranted
    · exact absurd hzero (by decide)
    · exact Bool.noConfusion hgranted.1

end Porpoise.Malloc
