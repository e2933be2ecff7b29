import Porpoise.Dlmalloc.Heap
import Porpoise.Malloc.Ownership

/-!
# `sys_alloc` in words and in numbers

`Porpoise.Malloc` has `sys_alloc` on words, with the requests that it makes to the system.
`Porpoise.Dlmalloc` has it on numbers, with the chunks and the bins, and is given what the
system answers. Here the first refines the second.

* `MState.Refines`: the words of a state are the numbers of another.
* `granted`: what the system answers to a call on words.
* `sysAlloc_refines`: the two calls return the same memory, and their states agree.
* `sysAlloc_served`: so the call on words serves the request from the heap's layout.
-/

namespace Porpoise.Malloc

open Porpoise.Lib

/-! ## One state in words and in numbers -/

/-- A range, as a segment of the heap. -/
def Range.seg (t : Range) : Dlmalloc.Seg := ⟨t.base.toNat, t.size.toNat, t.mmapped⟩

/-- The same parameters. Pages and units are powers of two, which `init_mparams` checks. -/
structure MParams.Refines (x : MParams) (y : Dlmalloc.MParams) : Prop where
  page_size : x.page_size.toNat = y.page_size
  granularity : x.granularity.toNat = y.granularity
  mmap_threshold : x.mmap_threshold.toNat = y.mmap_threshold
  page_pow : ∃ k, y.page_size = 2 ^ k
  granularity_pow : ∃ k, y.granularity = 2 ^ k

/-- The same state, but for the top and the segments. -/
structure MState.Agrees (w : MState) (m : Dlmalloc.MState) : Prop where
  footprint : w.footprint.toNat = m.footprint
  max_footprint : w.max_footprint.toNat = m.max_footprint
  footprint_limit : w.footprint_limit.toNat = m.footprint_limit
  least_addr : w.least_addr.toNat = m.least_addr
  use_mmap : w.use_mmap = true
  use_noncontiguous : w.use_noncontiguous = m.use_noncontiguous
  own : ∀ s ∈ w.segs, s.isExtern = false

/-- The same state. Before the first range the embedded segment holds nothing. -/
structure MState.Refines (w : MState) (m : Dlmalloc.MState) : Prop extends w.Agrees m where
  top : w.top.toNat = m.top
  topsize : w.topsize.toNat = m.topsize
  segs : w.top ≠ 0 → w.segs.map (·.toRange.seg) = m.segs
  unused : w.top = 0 → w.segs.tail = []

/-- The two agree before the first call. -/
theorem refines_new (t : Dlmalloc.Tags) : newState.Refines (.zeroed t) := by
  refine ⟨⟨rfl, rfl, rfl, rfl, rfl, rfl, fun s hs => ?_⟩, rfl, rfl, fun hne => absurd rfl hne,
    fun _ => rfl⟩
  rw [List.mem_singleton.mp hs]

/-- What the layout says of the numbers: none is too large for a word. -/
structure Bounded (m : Dlmalloc.MState) : Prop where
  segs_nil : m.top = 0 → m.segs = []
  top_dvd : 16 ∣ m.top
  top_le : m.top + m.topsize ≤ 2 ^ 47
  fin_le : ∀ r ∈ m.segs, r.fin ≤ 2 ^ 47
  room : ∀ r ∈ m.segs, r.holds m.top = true → m.top + m.topsize ≤ r.fin

variable {x : MParams} {y : Dlmalloc.MParams} {w : MState} {m : Dlmalloc.MState} {nb : Word}
  {t : Range} {cs : List Dlmalloc.Chunk} {ks : List Dlmalloc.Mapping}

theorem bounded_of_inv (h : Dlmalloc.Inv m cs ks) : Bounded m := by
  rcases h.topped with ⟨rfl, htop, hsize⟩ | hlast
  · have hnil : m.segs = [] := by
      refine List.eq_nil_iff_forall_not_mem.mpr fun s hs => ?_
      obtain ⟨c, hc, -⟩ := h.layout.start s hs
      cases hc
    refine ⟨fun _ => hnil, ?_, ?_, ?_, ?_⟩
    all_goals simp [htop, hsize, hnil]
  · have hmem := List.mem_of_getLast? hlast
    obtain ⟨s, hs, hbase, hfin, -⟩ := h.layout.top_room _ hmem rfl
    have hs : s ∈ m.segs := List.mem_of_mem_head? hs
    have hbase : s.base ≤ m.top := hbase
    have hend : m.top + m.topsize + 80 = s.fin := hfin
    have hle := (h.layout.seg_ok s hs).fin_le
    refine ⟨fun hz => ?_, ?_, by omega, fun r hr => (h.layout.seg_ok r hr).fin_le,
      fun r hr hholds => ?_⟩
    · exact absurd hz (h.layout.addr_pos hmem).ne'
    · exact ((h.layout.arena.shape _ hmem).aligned (by exact nofun)).1
    · have hin : r.base ≤ m.top ∧ m.top < r.fin := by
        simpa [Dlmalloc.Seg.holds] using hholds
      have hone : s = r := h.layout.seg_unique hs hr ⟨hbase, by omega⟩ hin
      rw [← hone]
      omega

/-! ## Sizes and addresses -/

theorem ne_zero_of_pos {a : Word} (h : 0 < a.toNat) : a ≠ 0 := by
  rintro rfl
  exact absurd h (by decide)

/-- A segment without its foot. -/
theorem toNat_sub_topFootSize {s : Word} (h : 80 ≤ s.toNat) :
    (s - topFootSize).toNat = s.toNat - Dlmalloc.topFootSize := by
  rw [BitVec.toNat_sub]
  show (2 ^ 64 - 80 + s.toNat) % 2 ^ 64 = s.toNat - 80
  omega

/-- A mask of the low bits rounds down. -/
theorem toNat_mask {s g : Word} {k : Nat} (hg : g.toNat = 2 ^ k) :
    (s &&& ~~~(g - 1)).toNat = s.toNat / 2 ^ k * 2 ^ k := by
  have hlt : k < 64 := by
    refine (Nat.pow_lt_pow_iff_right (by decide : 1 < 2)).mp ?_
    rw [← hg]
    exact g.isLt
  have hmask : (g - 1).toNat = 2 ^ k - 1 := by
    have hpos : 0 < 2 ^ k := Nat.two_pow_pos k
    have hgl := g.isLt
    rw [BitVec.toNat_sub, hg]
    show (2 ^ 64 - 1 + 2 ^ k) % 2 ^ 64 = _
    omega
  have hshift : s &&& ~~~(g - 1) = (s >>> k) <<< k := by
    refine BitVec.eq_of_getLsbD_eq fun i hi => ?_
    have hbit : (g - 1).getLsbD i = decide (i < k) := by
      rw [BitVec.getLsbD, hmask, Nat.testBit_two_pow_sub_one]
    rw [BitVec.getLsbD_and, BitVec.getLsbD_not, hbit, BitVec.getLsbD_shiftLeft]
    by_cases hik : i < k
    · simp [hik]
    · simp [hik, hi, BitVec.getLsbD_ushiftRight, show k + (i - k) = i by omega]
  rw [hshift, BitVec.toNat_shiftLeft, BitVec.toNat_ushiftRight, Nat.shiftRight_eq_div_pow,
    Nat.shiftLeft_eq]
  exact Nat.mod_eq_of_lt (Nat.lt_of_le_of_lt (Nat.div_mul_le_self _ _) s.isLt)

/-- Rounding down commutes with the wrap-around. -/
theorem mod_div_mul {n k : Nat} (hk : k ≤ 64) :
    n % 2 ^ 64 / 2 ^ k * 2 ^ k = n / 2 ^ k * 2 ^ k % 2 ^ 64 := by
  have hpow : 2 ^ 64 = 2 ^ k * 2 ^ (64 - k) := by
    rw [← Nat.pow_add]
    congr 1
    omega
  rw [hpow, Nat.mod_mul_right_div_self, Nat.mul_comm (2 ^ k) (2 ^ (64 - k)),
    Nat.mul_mod_mul_right]

/-- Rounding up to a power of two. -/
theorem toNat_roundUp {s g : Word} {k : Nat} (hg : g.toNat = 2 ^ k) :
    ((s + (g - 1)) &&& ~~~(g - 1)).toNat =
      (s.toNat + (g.toNat - 1)) / g.toNat * g.toNat % 2 ^ 64 := by
  have hlt : k < 64 := by
    refine (Nat.pow_lt_pow_iff_right (by decide : 1 < 2)).mp ?_
    rw [← hg]
    exact g.isLt
  have hone : (g - 1).toNat = g.toNat - 1 := by
    have hpos : 0 < g.toNat := hg ▸ Nat.two_pow_pos k
    have hgl := g.isLt
    rw [BitVec.toNat_sub]
    show (2 ^ 64 - 1 + g.toNat) % 2 ^ 64 = _
    omega
  rw [toNat_mask hg, BitVec.toNat_add, hone, mod_div_mul hlt.le, hg]

theorem toNat_pageAlign (hx : x.Refines y) (s : Word) :
    (pageAlign x s).toNat = Dlmalloc.pageAlign y s.toNat := by
  obtain ⟨k, hk⟩ := hx.page_pow
  unfold pageAlign Dlmalloc.pageAlign
  rw [toNat_roundUp (hx.page_size.trans hk), hx.page_size]

theorem toNat_granularityAlign (hx : x.Refines y) (s : Word) :
    (granularityAlign x s).toNat = Dlmalloc.granularityAlign y s.toNat := by
  obtain ⟨k, hk⟩ := hx.granularity_pow
  unfold granularityAlign Dlmalloc.granularityAlign
  rw [toNat_roundUp (hx.granularity.trans hk), hx.granularity]

theorem toNat_alignOffset (a : Word) : (alignOffset a).toNat = Dlmalloc.alignOffset a.toNat := by
  have hlow : (a &&& 15).toNat = a.toNat % 16 := Nat.and_two_pow_sub_one_eq_mod a.toNat 4
  have hzero : a &&& 15 = 0 ↔ a.toNat % 16 = 0 := by
    rw [← hlow, ← BitVec.toNat_inj]
    rfl
  unfold alignOffset Dlmalloc.alignOffset
  simp only [hzero]
  split
  · rfl
  · have hmod : ((16 - (a &&& 15)) &&& 15).toNat = (16 - (a &&& 15)).toNat % 16 :=
      Nat.and_two_pow_sub_one_eq_mod _ 4
    rw [hmod, BitVec.toNat_sub, hlow]
    show (2 ^ 64 - a.toNat % 16 + 16) % 2 ^ 64 % 16 = _
    omega

theorem alignOffset_zero {a : Word} (h : 16 ∣ a.toNat) : alignOffset (chunk2mem a) = 0 := by
  rw [← BitVec.toNat_inj, toNat_alignOffset]
  refine Dlmalloc.alignOffset_of_dvd ?_
  show 16 ∣ (a.toNat + 16) % 2 ^ 64
  omega

theorem alignAsChunk_eq {a : Word} (h : 16 ∣ a.toNat) : alignAsChunk a = a := by
  unfold alignAsChunk
  rw [alignOffset_zero h]
  exact BitVec.add_zero a

theorem toNat_chunk2mem {p : Word} (h : p.toNat + 16 < 2 ^ 64) :
    (chunk2mem p).toNat = Dlmalloc.chunk2mem p.toNat := by
  show (p.toNat + 16) % 2 ^ 64 = p.toNat + 16
  omega

/-! ## The footprint and a mapping for one chunk -/

theorem MState.Agrees.overLimit_iff (h : w.Agrees m) (size : Word) :
    FootprintOk w size ↔ ¬ m.overLimit size.toNat = true := by
  unfold FootprintOk Dlmalloc.MState.overLimit
  rw [← h.footprint, ← h.footprint_limit, BitVec.toNat_add, ← BitVec.toNat_inj]
  simp
  tauto

theorem MState.Agrees.grow (h : w.Agrees m) (size : Word) :
    (w.grow size).Agrees (m.addFootprint size.toNat) := by
  have hsum : (w.footprint + size).toNat = (m.footprint + size.toNat) % 2 ^ 64 := by
    rw [BitVec.toNat_add, h.footprint]
  refine ⟨hsum, ?_, h.footprint_limit, h.least_addr, h.use_mmap, h.use_noncontiguous, h.own⟩
  show (if w.max_footprint.toNat < (w.footprint + size).toNat then w.footprint + size
    else w.max_footprint).toNat = max m.max_footprint ((m.footprint + size.toNat) % 2 ^ 64)
  rw [← hsum, ← h.max_footprint]
  split <;> omega

theorem MState.Refines.grow (h : w.Refines m) (size : Word) :
    (w.grow size).Refines (m.addFootprint size.toNat) :=
  ⟨h.toAgrees.grow size, h.top, h.topsize, h.segs, h.unused⟩

/-- `if (least_addr == 0 || base < least_addr) least_addr = base`. -/
theorem toNat_least {a b : Word} :
    (if a = 0 ∨ b.toNat < a.toNat then b else a).toNat =
      if a.toNat = 0 ∨ b.toNat < a.toNat then b.toNat else a.toNat := by
  simp only [← BitVec.toNat_inj]
  exact apply_ite BitVec.toNat _ _ _

/-- The system's answer to a request for a mapping. -/
def mapped (A : Answers) (size : Word) (v : World) : Option Nat :=
  ((A.mmap v.mmaps).filter fun a => a.toNat + size.toNat ≤ taskSize).map BitVec.toNat

/-- A chunk of its own on words, and on numbers. -/
structure SameDirect (w : MState) (r : Word × MState × World) (q : Option (ℕ × Dlmalloc.MState)) :
    Prop where
  refused : q = none → r.1 = 0 ∧ r.2.1 = w
  mapped : ∀ p, q = some p → r.1.toNat = p.1 ∧ 0 < p.1 ∧ r.2.1.Refines p.2

theorem sameDirect_none (v : World) : SameDirect w (0, w, v) none :=
  ⟨fun _ => ⟨rfl, rfl⟩, fun _ h => (Option.some_ne_none _ h.symm).elim⟩

/-- **`mmap_alloc`.** -/
theorem mmapAlloc_refines (hx : x.Refines y) (h : w.Refines m) (A : Answers) (v : World) :
    SameDirect w (mmapAlloc A x w nb v)
      (m.mmapAlloc y (mapped A (pageAlign x (nb + 48 + 15)) v) nb.toNat) := by
  have hsum : (nb + 48 + 15).toNat = (nb.toNat + 48 + 15) % 2 ^ 64 := by
    rw [BitVec.toNat_add, BitVec.toNat_add, Nat.mod_add_mod]
    rfl
  have hsize := toNat_pageAlign hx (nb + 48 + 15)
  rw [hsum] at hsize
  unfold mmapAlloc Dlmalloc.MState.mmapAlloc mapped callMmap
  dsimp only
  simp only [h.overLimit_iff, ← hsize]
  generalize pageAlign x (nb + 48 + 15) = mmsize
  by_cases hover : m.overLimit mmsize.toNat = true
  · simpa [hover] using sameDirect_none v
  by_cases hlt : nb.toNat < mmsize.toNat
  swap
  · simpa [hover, hlt] using sameDirect_none v
  rw [if_neg hover, if_pos hlt, if_pos ⟨hover, hlt⟩]
  cases hmm : (A.mmap v.mmaps).filter fun a => a.toNat + mmsize.toNat ≤ taskSize with
  | none => simpa using sameDirect_none _
  | some mm =>
      have hle : mm.toNat + mmsize.toNat ≤ taskSize := by
        simpa using (Option.filter_eq_some_iff.mp hmm).2
      unfold taskSize at hle
      have hne : mm ≠ mfail := by
        rintro rfl
        have hfail : mfail.toNat = 2 ^ 64 - 1 := by decide
        omega
      have hoff : (alignOffset (chunk2mem mm)).toNat =
          Dlmalloc.alignOffset (Dlmalloc.chunk2mem mm.toNat) := by
        rw [toNat_alignOffset, toNat_chunk2mem (by omega)]
      have hoffle : Dlmalloc.alignOffset (Dlmalloc.chunk2mem mm.toNat) < 16 := by
        unfold Dlmalloc.alignOffset
        split <;> omega
      have hp : (mm + alignOffset (chunk2mem mm)).toNat =
          mm.toNat + Dlmalloc.alignOffset (Dlmalloc.chunk2mem mm.toNat) := by
        rw [BitVec.toNat_add, hoff]
        omega
      have hmem : (chunk2mem (mm + alignOffset (chunk2mem mm))).toNat = Dlmalloc.chunk2mem
          (mm.toNat + Dlmalloc.alignOffset (Dlmalloc.chunk2mem mm.toNat)) := by
        rw [toNat_chunk2mem (by omega), hp]
      have hgrow := h.grow mmsize
      simp only [Option.map_some, hne, ne_eq, not_false_eq_true, if_true]
      refine ⟨fun hnone => (Option.some_ne_none _ hnone).elim, fun p hp => ?_⟩
      obtain rfl := Option.some.inj hp
      refine ⟨hmem, Nat.succ_pos _, ⟨⟨hgrow.footprint, hgrow.max_footprint, h.footprint_limit, ?_,
        h.use_mmap, h.use_noncontiguous, h.own⟩, h.top, h.topsize, h.segs, h.unused⟩⟩
      show (if w.least_addr = 0 ∨ mm.toNat < w.least_addr.toNat then mm else w.least_addr).toNat =
        if m.least_addr = 0 ∨ mm.toNat < m.least_addr then mm.toNat else m.least_addr
      rw [toNat_least, h.least_addr]

/-! ## The top -/

/-- `init_top`, where nothing has to be aligned. -/
theorem MState.Agrees.initTop {p : Word} (psize : Word) (h : w.Agrees m)
    (hsegs : w.segs.map (·.toRange.seg) = m.segs) (hp : 16 ∣ p.toNat) (hne : p ≠ 0) :
    (initTop w p psize).Refines (m.initTop y p.toNat psize.toNat) := by
  unfold Malloc.initTop
  dsimp only
  rw [alignOffset_zero hp, Dlmalloc.initTop_eq hp]
  have hadd : p + 0 = p := BitVec.add_zero p
  have hsub : psize - 0 = psize := BitVec.sub_zero psize
  rw [hadd, hsub]
  exact ⟨⟨h.footprint, h.max_footprint, h.footprint_limit, h.least_addr, h.use_mmap,
    h.use_noncontiguous, h.own⟩, rfl, rfl, fun _ => hsegs, fun hz => absurd hz hne⟩

/-- "Allocate from new or extended top space". -/
theorem MState.Refines.takeTop (h : w.Refines m) (hpos : 0 < m.top)
    (hle : m.top + m.topsize ≤ 2 ^ 47) :
    (takeTop w nb).1.toNat = (m.takeTop nb.toNat).1 ∧
      (takeTop w nb).2.Refines (m.takeTop nb.toNat).2 := by
  unfold Malloc.takeTop Dlmalloc.MState.takeTop
  rw [h.topsize]
  have htop := h.top
  have hsize := h.topsize
  by_cases hlt : nb.toNat < m.topsize
  swap
  · rw [if_neg hlt, if_neg hlt]
    exact ⟨rfl, h⟩
  rw [if_pos hlt, if_pos hlt]
  have hnext : (w.top + nb).toNat = m.top + nb.toNat := by
    rw [BitVec.toNat_add]
    omega
  have hne : w.top ≠ 0 := by
    rw [ne_eq, ← BitVec.toNat_inj]
    show ¬ w.top.toNat = 0
    omega
  refine ⟨?_, ⟨⟨h.footprint, h.max_footprint, h.footprint_limit, h.least_addr, h.use_mmap,
    h.use_noncontiguous, h.own⟩, hnext, ?_, fun _ => h.segs hne, fun hz => ?_⟩⟩
  · show (chunk2mem w.top).toNat = Dlmalloc.chunk2mem m.top
    rw [toNat_chunk2mem (by omega), htop]
  · show (w.topsize - nb).toNat = m.topsize - nb.toNat
    rw [BitVec.toNat_sub]
    omega
  · have hzero : (w.top + nb).toNat = 0 := congrArg BitVec.toNat hz
    omega

/-! ## The segments -/

/-- The fields that a call on words has. -/
def numbers (m : Dlmalloc.MState) :
    ℕ × ℕ × ℕ × ℕ × Bool × ℕ × ℕ × List Dlmalloc.Seg :=
  (m.footprint, m.max_footprint, m.footprint_limit, m.least_addr, m.use_noncontiguous, m.top,
    m.topsize, m.segs)

/-- Tags and bins do not matter. -/
theorem MState.Refines.congr {m' : Dlmalloc.MState} (h : w.Refines m)
    (he : numbers m' = numbers m) : w.Refines m' := by
  simp only [numbers, Prod.mk.injEq] at he
  obtain ⟨hfoot, hmax, hlimit, hleast, hflag, htop, hsize, hsegs⟩ := he
  exact ⟨⟨hfoot ▸ h.footprint, hmax ▸ h.max_footprint, hlimit ▸ h.footprint_limit,
    hleast ▸ h.least_addr, h.use_mmap, hflag ▸ h.use_noncontiguous, h.own⟩, htop ▸ h.top,
    hsize ▸ h.topsize, hsegs ▸ h.segs, h.unused⟩

theorem toNat_fin {s : Range} (h : s.seg.fin ≤ 2 ^ 47) : (s.base + s.size).toNat = s.seg.fin := by
  have hfin : s.seg.fin = s.base.toNat + s.size.toNat := rfl
  rw [BitVec.toNat_add]
  omega

/-- Two segments that become one. -/
theorem toNat_size_add {s t : Range} (hs : s.seg.fin ≤ 2 ^ 47) (ht : t.seg.fin ≤ 2 ^ 47) :
    (s.size + t.size).toNat = s.size.toNat + t.size.toNat := by
  have hsfin : s.seg.fin = s.base.toNat + s.size.toNat := rfl
  have htfin : t.seg.fin = t.base.toNat + t.size.toNat := rfl
  rw [BitVec.toNat_add]
  omega

theorem endsAt_eq {s : Segment} (h : s.toRange.seg.fin ≤ 2 ^ 47) :
    endsAt t s = (t.seg.base == s.toRange.seg.fin) := by
  rw [Bool.eq_iff_iff, endsAt, beq_iff_eq, beq_iff_eq, ← toNat_fin h, ← BitVec.toNat_inj]
  rfl

theorem beginsAt_eq {s : Segment} (h : t.seg.fin ≤ 2 ^ 47) :
    beginsAt t s = (s.toRange.seg.base == t.seg.fin) := by
  rw [Bool.eq_iff_iff, beginsAt, beq_iff_eq, beq_iff_eq, ← toNat_fin h, ← BitVec.toNat_inj]
  rfl

theorem holds_eq {s : Segment} (h : s.toRange.seg.fin ≤ 2 ^ 47) (a : Word) :
    s.holds a = s.toRange.seg.holds a.toNat := by
  unfold Segment.holds Dlmalloc.Seg.holds
  rw [toNat_fin h]
  rfl

/-- A search in a list of images. -/
theorem find?_filter_map {α β : Type*} {f : α → β} {p P : α → Bool} {q Q : β → Bool} {l : List α}
    (h : ∀ a ∈ l, p a = q (f a) ∧ P a = Q (f a)) :
    ((l.map f).find? q).filter Q = ((l.find? p).filter P).map f := by
  induction l with
  | nil => rfl
  | cons a l ih =>
      obtain ⟨hp, hP⟩ := h a List.mem_cons_self
      rw [List.map_cons, List.find?_cons, List.find?_cons, ← hp]
      cases p a
      · exact ih fun b hb => h b (List.mem_cons_of_mem _ hb)
      · simp only [Option.filter_some, ← hP]
        cases P a <;> rfl

theorem map_updateFirst {p : Segment → Bool} {f : Segment → Segment}
    {q : Dlmalloc.Seg → Bool} {g : Dlmalloc.Seg → Dlmalloc.Seg} {l : List Segment}
    (h : ∀ s ∈ l, p s = q s.toRange.seg ∧ (f s).toRange.seg = g s.toRange.seg) :
    (updateFirst p f l).map (·.toRange.seg) =
      Dlmalloc.MState.updateSeg q g (l.map (·.toRange.seg)) := by
  induction l with
  | nil => rfl
  | cons s l ih =>
      obtain ⟨hp, hf⟩ := h s List.mem_cons_self
      unfold updateFirst
      rw [List.map_cons]
      unfold Dlmalloc.MState.updateSeg
      rw [← hp]
      cases p s
      · exact congrArg _ (ih fun b hb => h b (List.mem_cons_of_mem _ hb))
      · exact congrArg (· :: _) hf

theorem seg_fin_le {s : Segment} (h : w.Refines m) (hb : Bounded m) (hne : w.top ≠ 0)
    (hs : s ∈ w.segs) : s.toRange.seg.fin ≤ 2 ^ 47 :=
  hb.fin_le _ (h.segs hne ▸ List.mem_map_of_mem hs)

theorem appendTo_eq (h : w.Refines m) (hb : Bounded m) (hne : w.top ≠ 0) : m.appendTo t.seg =
    ((w.segs.find? (endsAt t)).filter (Appends w t)).map (·.toRange.seg) := by
  unfold Dlmalloc.MState.appendTo
  rw [← h.segs hne]
  refine find?_filter_map fun s hs => ?_
  have hle := seg_fin_le h hb hne hs
  refine ⟨endsAt_eq hle, ?_⟩
  rw [Bool.eq_iff_iff, Bool.and_eq_true, beq_iff_eq, decide_eq_true_eq, Appends,
    holds_eq hle, h.top]
  exact and_iff_right (h.own s hs)

theorem prependTo_eq (h : w.Refines m) (hne : w.top ≠ 0) (ht : t.seg.fin ≤ 2 ^ 47) :
    m.prependTo t.seg =
      ((w.segs.find? (beginsAt t)).filter (Prepends t)).map (·.toRange.seg) := by
  unfold Dlmalloc.MState.prependTo
  rw [← h.segs hne]
  refine find?_filter_map fun s hs => ⟨beginsAt_eq ht, ?_⟩
  rw [Bool.eq_iff_iff, beq_iff_eq, decide_eq_true_eq, Prepends]
  exact and_iff_right (h.own s hs)

/-! ## A range joins the heap -/

/-- The segment that grows stays the heap's own. -/
theorem own_updateFirst {p : Segment → Bool} {f : Segment → Segment} {l : List Segment}
    (hf : ∀ s, (f s).isExtern = s.isExtern) (h : ∀ s ∈ l, s.isExtern = false) :
    ∀ s ∈ updateFirst p f l, s.isExtern = false := by
  intro s hs
  rcases mem_updateFirst hs with hs | ⟨s₀, hfind, rfl⟩
  · exact h s hs
  · exact (hf s₀).trans (h s₀ (List.mem_of_find?_eq_some hfind))

theorem MState.Agrees.setSegs {l : List Segment} {rs : List Dlmalloc.Seg} (h : w.Agrees m)
    (hl : ∀ s ∈ l, s.isExtern = false) :
    MState.Agrees { w with segs := l } { m with segs := rs } :=
  ⟨h.footprint, h.max_footprint, h.footprint_limit, h.least_addr, h.use_mmap,
    h.use_noncontiguous, hl⟩

/-- The first range. -/
theorem initHeap_refines (h : w.Refines m) (htop : m.top = 0) (ht : 16 ∣ t.base.toNat)
    (hpos : 0 < t.base.toNat) (hsize : 80 ≤ t.size.toNat) :
    (initTop { w with
        least_addr :=
          if w.least_addr = 0 ∨ t.base.toNat < w.least_addr.toNat then t.base else w.least_addr
        segs := ⟨t, false⟩ :: w.segs.tail } t.base (t.size - topFootSize)).Refines
      (m.initHeap y t.seg) := by
  have hzero : w.top = 0 := by
    rw [← BitVec.toNat_inj, h.top, htop]
    rfl
  have hagrees : MState.Agrees { w with
      least_addr :=
        if w.least_addr = 0 ∨ t.base.toNat < w.least_addr.toNat then t.base else w.least_addr
      segs := ⟨t, false⟩ :: w.segs.tail } { m with
      least_addr :=
        if m.least_addr = 0 ∨ t.seg.base < m.least_addr then t.seg.base else m.least_addr
      segs := [t.seg]
      release_checks := Dlmalloc.maxReleaseCheckRate } := by
    refine ⟨h.footprint, h.max_footprint, h.footprint_limit, ?_, h.use_mmap, h.use_noncontiguous,
      fun s hs => ?_⟩
    · show (if w.least_addr = 0 ∨ t.base.toNat < w.least_addr.toNat then t.base
        else w.least_addr).toNat = _
      rw [toNat_least, h.least_addr]
      rfl
    · have hs : s ∈ ⟨t, false⟩ :: w.segs.tail := hs
      rw [h.unused hzero] at hs
      obtain rfl := List.mem_singleton.mp hs
      rfl
  have hinit := hagrees.initTop (y := y) (t.size - topFootSize)
    (by simp [h.unused hzero]) ht (ne_zero_of_pos hpos)
  rwa [toNat_sub_topFootSize hsize] at hinit

/-- "append". -/
theorem appendSeg_refines (h : w.Refines m) (hb : Bounded m) (hne : w.top ≠ 0)
    (ht : t.seg.fin ≤ 2 ^ 47) :
    (initTop { w with
        segs := updateFirst (endsAt t) (fun s => { s with size := s.size + t.size }) w.segs }
      w.top (w.topsize + t.size)).Refines (m.appendSeg y t.seg) := by
  have hfin : t.seg.fin = t.base.toNat + t.size.toNat := rfl
  have htop := h.top
  have hle := hb.top_le
  have hsize : (w.topsize + t.size).toNat = m.topsize + t.size.toNat := by
    rw [BitVec.toNat_add, h.topsize]
    omega
  have hsegs : (updateFirst (endsAt t) (fun s => { s with size := s.size + t.size })
      w.segs).map (·.toRange.seg) = Dlmalloc.MState.updateSeg (fun r => t.seg.base == r.fin)
        (fun r => { r with size := r.size + t.seg.size }) m.segs := by
    rw [← h.segs hne]
    refine map_updateFirst fun s hs => ?_
    have hle := seg_fin_le h hb hne hs
    exact ⟨endsAt_eq hle,
      congrArg (Dlmalloc.Seg.mk s.base.toNat · s.mmapped) (toNat_size_add hle ht)⟩
  have hagrees : MState.Agrees { w with
      segs := updateFirst (endsAt t) (fun s => { s with size := s.size + t.size }) w.segs }
      { m with
        segs := Dlmalloc.MState.updateSeg (fun r => t.seg.base == r.fin)
          (fun r => { r with size := r.size + t.seg.size }) m.segs } :=
    h.setSegs (own_updateFirst (fun _ => rfl) h.own)
  have hinit := hagrees.initTop (y := y) (w.topsize + t.size) hsegs
    (htop ▸ hb.top_dvd) hne
  rwa [hsize, htop] at hinit

/-- The segment that holds the top ends where the range begins, so the new top ends with it. -/
theorem append_top_le {s : Segment} (h : w.Refines m) (hb : Bounded m) (hne : w.top ≠ 0)
    (ht : t.seg.fin ≤ 2 ^ 47) (hfound : (w.segs.find? (endsAt t)).filter (Appends w t) = some s) :
    m.top + m.topsize + t.size.toNat ≤ 2 ^ 47 := by
  obtain ⟨hfind, happends⟩ := Option.filter_eq_some_iff.mp hfound
  have hmem : s ∈ w.segs := List.mem_of_find?_eq_some hfind
  have hends : endsAt t s = true := List.find?_some hfind
  have hsle := seg_fin_le h hb hne hmem
  rw [endsAt_eq hsle, beq_iff_eq] at hends
  have hholds : s.holds w.top = true := (of_decide_eq_true happends).2.2
  rw [holds_eq hsle, h.top] at hholds
  have hroom := hb.room _ (h.segs hne ▸ List.mem_map_of_mem hmem) hholds
  calc m.top + m.topsize + t.size.toNat
      ≤ s.toRange.seg.fin + t.size.toNat := Nat.add_le_add_right hroom _
    _ = t.seg.fin := congrArg (· + t.size.toNat) hends.symm
    _ ≤ 2 ^ 47 := ht

/-- What `add_segment` does to the fields that a call on words has. -/
theorem numbers_addSegment (s : Dlmalloc.Seg) :
    numbers (m.addSegment y s) =
      numbers { m.initTop y s.base (s.size - Dlmalloc.topFootSize) with segs := s :: m.segs } := by
  unfold Dlmalloc.MState.addSegment
  dsimp only
  -- where the old top goes, and whether it becomes a free chunk
  split
  · split <;> rfl
  · split <;> rfl

/-- `add_segment`. -/
theorem addSegment_refines (h : w.Refines m) (hne : w.top ≠ 0) (ht : 16 ∣ t.base.toNat)
    (hpos : 0 < t.base.toNat) (hsize : 80 ≤ t.size.toNat) :
    (initTop { w with segs := ⟨t, false⟩ :: w.segs } t.base (t.size - topFootSize)).Refines
      (m.addSegment y t.seg) := by
  have hagrees : MState.Agrees { w with segs := ⟨t, false⟩ :: w.segs }
      { m with segs := t.seg :: m.segs } := by
    refine h.setSegs fun s hs => ?_
    rcases List.mem_cons.mp hs with rfl | hs
    · rfl
    · exact h.own s hs
  have hinit := hagrees.initTop (y := y) (t.size - topFootSize)
    (congrArg (t.seg :: ·) (h.segs hne)) ht (ne_zero_of_pos hpos)
  rw [toNat_sub_topFootSize hsize] at hinit
  exact hinit.congr (numbers_addSegment t.seg)

/-- What `prepend_alloc` does to them. -/
theorem numbers_prependAlloc (a b n : ℕ) :
    (m.prependAlloc a b n).1 = Dlmalloc.chunk2mem (Dlmalloc.alignAsChunk a) ∧
      numbers (m.prependAlloc a b n).2 = numbers (if Dlmalloc.alignAsChunk b = m.top then
        { m with
          topsize := m.topsize + (Dlmalloc.alignAsChunk b - Dlmalloc.alignAsChunk a - n)
          top := Dlmalloc.alignAsChunk a + n }
        else m) := by
  refine ⟨rfl, ?_⟩
  unfold Dlmalloc.MState.prependAlloc
  dsimp only
  split
  · rfl
  · split
    · rfl
    · split <;> rfl

/-- `prepend_alloc`. -/
theorem prependAlloc_refines {a b : Word} (h : w.Refines m) (htop : m.top + m.topsize ≤ 2 ^ 47)
    (ha : 16 ∣ a.toNat) (hb : 16 ∣ b.toNat) (hpos : 0 < a.toNat) (hfin : b.toNat ≤ 2 ^ 47)
    (hroom : a.toNat + nb.toNat ≤ b.toNat) :
    (prependAlloc w a b nb).1.toNat = (m.prependAlloc a.toNat b.toNat nb.toNat).1 ∧
      (prependAlloc w a b nb).2.Refines (m.prependAlloc a.toNat b.toNat nb.toNat).2 := by
  obtain ⟨hmem, hnumbers⟩ := numbers_prependAlloc (m := m) a.toNat b.toNat nb.toNat
  rw [Dlmalloc.alignAsChunk_of_dvd ha] at hmem hnumbers
  rw [Dlmalloc.alignAsChunk_of_dvd hb] at hnumbers
  unfold prependAlloc
  dsimp only
  rw [alignAsChunk_eq ha, alignAsChunk_eq hb]
  refine ⟨(toNat_chunk2mem (by omega)).trans hmem.symm, MState.Refines.congr ?_ hnumbers⟩
  have hiff : b = w.top ↔ b.toNat = m.top := by
    rw [← h.top, BitVec.toNat_inj]
  by_cases hb : b = w.top
  swap
  · rw [if_neg hb, if_neg (mt hiff.mpr hb)]
    exact h
  rw [if_pos hb, if_pos (hiff.mp hb)]
  have hq : (a + nb).toNat = a.toNat + nb.toNat := by
    rw [BitVec.toNat_add]
    omega
  have hrest : (b - a - nb).toNat = b.toNat - a.toNat - nb.toNat := by
    rw [BitVec.toNat_sub, BitVec.toNat_sub]
    omega
  have hne : w.top ≠ 0 := by
    rw [← hb]
    rintro rfl
    exact absurd hroom (by simp; omega)
  refine ⟨⟨h.footprint, h.max_footprint, h.footprint_limit, h.least_addr, h.use_mmap,
    h.use_noncontiguous, h.own⟩, hq, ?_, fun _ => h.segs hne, fun hz => ?_⟩
  · show (w.topsize + (b - a - nb)).toNat = m.topsize + (b.toNat - a.toNat - nb.toNat)
    rw [BitVec.toNat_add, hrest, h.topsize]
    omega
  · have hzero : (a + nb).toNat = 0 := congrArg BitVec.toNat hz
    omega

/-- The range becomes part of the segment behind it. -/
theorem prependSeg_refines {s : Segment} (h : w.Refines m) (hb : Bounded m) (hne : w.top ≠ 0)
    (ht : 16 ∣ t.base.toNat ∧ 16 ∣ t.size.toNat) (hpos : 0 < t.base.toNat)
    (hfin : t.seg.fin ≤ 2 ^ 47) (hs : s.toRange.seg.base = t.seg.fin)
    (hroom : nb.toNat ≤ t.size.toNat) :
    (prependAlloc { w with
        segs := updateFirst (beginsAt t)
          (fun s => { s with base := t.base, size := s.size + t.size }) w.segs }
        t.base s.base nb).1.toNat = (m.prependSeg t.seg s.toRange.seg nb.toNat).1 ∧
      (prependAlloc { w with
          segs := updateFirst (beginsAt t)
            (fun s => { s with base := t.base, size := s.size + t.size }) w.segs }
        t.base s.base nb).2.Refines (m.prependSeg t.seg s.toRange.seg nb.toNat).2 := by
  have htfin : t.seg.fin = t.base.toNat + t.size.toNat := rfl
  have hsbase : s.base.toNat = t.seg.fin := hs
  have hsegs : (updateFirst (beginsAt t)
      (fun s => { s with base := t.base, size := s.size + t.size }) w.segs).map (·.toRange.seg) =
        Dlmalloc.MState.updateSeg (fun r => r.base == t.seg.fin)
          (fun r => { r with base := t.seg.base, size := r.size + t.seg.size }) m.segs := by
    rw [← h.segs hne]
    refine map_updateFirst fun s hs => ⟨beginsAt_eq hfin, ?_⟩
    exact congrArg (Dlmalloc.Seg.mk t.base.toNat · s.mmapped)
      (toNat_size_add (seg_fin_le h hb hne hs) hfin)
  exact prependAlloc_refines (m := { m with
      segs := Dlmalloc.MState.updateSeg (fun r => r.base == t.seg.fin)
        (fun r => { r with base := t.seg.base, size := r.size + t.seg.size }) m.segs })
    ⟨h.setSegs (own_updateFirst (fun _ => rfl) h.own), h.top, h.topsize, fun _ => hsegs,
      fun hz => absurd hz hne⟩
    hb.top_le ht.1 (by omega) hpos (by omega) (by omega)

/-- `if (tbase < m->least_addr) m->least_addr = tbase`. -/
theorem MState.Refines.lower (h : w.Refines m) :
    (w.lower t.base).Refines { m with
      least_addr := if t.seg.base < m.least_addr then t.seg.base else m.least_addr } := by
  refine ⟨⟨h.footprint, h.max_footprint, h.footprint_limit, ?_, h.use_mmap, h.use_noncontiguous,
    h.own⟩, h.top, h.topsize, h.segs, h.unused⟩
  show (if t.base.toNat < w.least_addr.toNat then t.base else w.least_addr).toNat =
    if t.base.toNat < m.least_addr then t.base.toNat else m.least_addr
  rw [← h.least_addr]
  exact apply_ite BitVec.toNat _ _ _

theorem top_initTop {p : ℕ} (psize : ℕ) (hp : 16 ∣ p) :
    (m.initTop y p psize).top = p ∧ (m.initTop y p psize).topsize = psize := by
  rw [Dlmalloc.initTop_eq hp]
  exact ⟨rfl, rfl⟩

theorem top_addSegment {s : Dlmalloc.Seg} (hs : 16 ∣ s.base) :
    (m.addSegment y s).top = s.base ∧
      (m.addSegment y s).topsize = s.size - Dlmalloc.topFootSize := by
  have hnumbers := numbers_addSegment (y := y) (m := m) s
  simp only [numbers, Prod.mk.injEq] at hnumbers
  obtain ⟨-, -, -, -, -, htop, hsize, -⟩ := hnumbers
  obtain ⟨htops, hsizes⟩ := top_initTop (y := y) (m := m) (s.size - Dlmalloc.topFootSize) hs
  exact ⟨htop.trans htops, hsize.trans hsizes⟩

/-- The new range and the request, wherever it lies. -/
theorem install_refines (h : w.Refines m) (hb : Bounded m) (hs : t.seg.Given m.segs ks)
    (hsize : nb.toNat + Dlmalloc.sysAllocPadding ≤
      t.size.toNat + if (m.appendTo t.seg).isSome then m.topsize else 0) :
    (install w nb t).1.toNat = (m.install y nb.toNat t.seg).1 ∧
      (install w nb t).2.Refines (m.install y nb.toNat t.seg).2 := by
  have hpos : 0 < t.base.toNat := hs.base_pos
  have hal : 16 ∣ t.base.toNat ∧ 16 ∣ t.size.toNat := hs.aligned
  have hfin : t.seg.fin ≤ 2 ^ 47 := hs.fin_le
  have htfin : t.seg.fin = t.base.toNat + t.size.toNat := rfl
  replace h := h.grow t.size
  replace hb : Bounded (m.addFootprint t.size.toNat) :=
    ⟨hb.segs_nil, hb.top_dvd, hb.top_le, hb.fin_le, hb.room⟩
  replace hsize : nb.toNat + 96 ≤ t.size.toNat +
      if ((m.addFootprint t.size.toNat).appendTo t.seg).isSome then
        (m.addFootprint t.size.toNat).topsize else 0 := hsize
  unfold install Dlmalloc.MState.install
  dsimp only
  rw [show t.seg.size = t.size.toNat from rfl]
  generalize w.grow t.size = w at h ⊢
  generalize m.addFootprint t.size.toNat = m at h hb hsize ⊢
  have hiff : w.top = 0 ↔ m.top = 0 := by
    rw [← h.top, ← BitVec.toNat_inj]
    rfl
  by_cases htop : m.top = 0
  · rw [if_pos htop, if_pos (hiff.mpr htop)]
    have hnone : m.appendTo t.seg = none := by
      unfold Dlmalloc.MState.appendTo
      rw [hb.segs_nil htop]
      rfl
    rw [hnone] at hsize
    have hroom : nb.toNat + 96 ≤ t.size.toNat := hsize
    have hinit := initHeap_refines (y := y) h htop hal.1 hpos (by omega)
    obtain ⟨htops, hsizes⟩ : (m.initHeap y t.seg).top = t.base.toNat ∧
        (m.initHeap y t.seg).topsize = t.size.toNat - 80 := top_initTop _ hal.1
    exact hinit.takeTop (by omega) (by omega)
  have hne : w.top ≠ 0 := mt hiff.mp htop
  rw [if_neg htop, if_neg hne]
  have happend := appendTo_eq (t := t) h hb hne
  cases hfound : (w.segs.find? (endsAt t)).filter (Appends w t) with
  | some s =>
      rw [hfound] at happend
      rw [happend]
      dsimp only [Option.map_some]
      have hend := append_top_le h hb hne hfin hfound
      obtain ⟨htops, hsizes⟩ : (m.appendSeg y t.seg).top = m.top ∧
          (m.appendSeg y t.seg).topsize = m.topsize + t.size.toNat := top_initTop _ hb.top_dvd
      exact (appendSeg_refines h hb hne hfin).takeTop (by omega) (by omega)
  | none =>
      rw [hfound] at happend
      rw [happend] at hsize ⊢
      have hroom : nb.toNat + 96 ≤ t.size.toNat := hsize
      dsimp only [Option.map_none]
      have hlow := h.lower (t := t)
      have hb' : Bounded { m with
          least_addr := if t.seg.base < m.least_addr then t.seg.base else m.least_addr } :=
        ⟨hb.segs_nil, hb.top_dvd, hb.top_le, hb.fin_le, hb.room⟩
      have hprepend := prependTo_eq (t := t) hlow hne hfin
      cases hbehind : ((w.lower t.base).segs.find? (beginsAt t)).filter (Prepends t) with
      | some s =>
          rw [hbehind] at hprepend
          rw [hprepend]
          have hbegins : beginsAt t s = true :=
            List.find?_some (Option.filter_eq_some_iff.mp hbehind).1
          rw [beginsAt_eq hfin, beq_iff_eq] at hbegins
          exact prependSeg_refines hlow hb' hne hal hpos hfin hbegins (by omega)
      | none =>
          rw [hbehind] at hprepend
          rw [hprepend]
          have hadd := addSegment_refines (y := y) hlow hne hal.1 hpos (by omega)
          obtain ⟨htops, hsizes⟩ := top_addSegment (y := y) (m := { m with
            least_addr := if t.seg.base < m.least_addr then t.seg.base else m.least_addr })
            (s := t.seg) hal.1
          refine hadd.takeTop ?_ ?_
          · rw [htops]
            exact hpos
          · rw [htops, hsizes]
            show t.base.toNat + (t.size.toNat - 80) ≤ 2 ^ 47
            omega

/-! ## One call -/

/-- What the system answers to a call on words. -/
def granted (M : Morecore) (A : Answers) (x : MParams) (w : MState) (nb : Word) (v : World) :
    Dlmalloc.Grant where
  direct :=
    if x.mmap_threshold.toNat ≤ nb.toNat ∧ w.topsize ≠ 0 then
      mapped A (pageAlign x (nb + 48 + 15)) v
    else none
  range := (sysAlloc M A x w nb v).range.map Range.seg
  closed := (sysAlloc M A x w nb v).state.use_noncontiguous

theorem install_flag : (install w nb t).2.use_noncontiguous = w.use_noncontiguous := by
  have htake : ∀ w : MState, (takeTop w nb).2.use_noncontiguous = w.use_noncontiguous := by
    intro w
    unfold takeTop
    split <;> rfl
  unfold install prependAlloc
  dsimp only
  split
  · exact htake _
  · split
    · exact htake _
    · split
      · split <;> rfl
      · exact htake _

/-- Once closed, the first way stays closed. -/
theorem added_closed (M : Morecore) (A : Answers) (x : MParams) (nb asize : Word) (v : World)
    (hflag : w.use_noncontiguous = true) : (added M A x w nb asize v).2.1 = true := by
  unfold added contiguous
  rw [if_pos hflag]
  simp only [ne_eq, not_true_eq_false, if_false]
  split <;> rfl

theorem MState.Refines.closeContiguous {closed : Bool} (h : w.Refines m)
    (hclosed : w.use_noncontiguous = true → closed = true) :
    MState.Refines { w with use_noncontiguous := closed } (m.closeContiguous closed) := by
  refine ⟨⟨h.footprint, h.max_footprint, h.footprint_limit, h.least_addr, h.use_mmap, ?_, h.own⟩,
    h.top, h.topsize, h.segs, h.unused⟩
  show closed = (m.use_noncontiguous || closed)
  rw [← h.use_noncontiguous]
  revert hclosed
  cases w.use_noncontiguous <;> simp

/-- "Directly map large chunks". -/
theorem directAlloc_refines (hx : x.Refines y) (h : w.Refines m) (nb : Word) (M : Morecore)
    (A : Answers) (v : World) :
    SameDirect w (directAlloc A x w nb v)
      (if y.mmap_threshold ≤ nb.toNat ∧ m.topsize ≠ 0 then
        m.mmapAlloc y (granted M A x w nb v).direct nb.toNat else none) := by
  have hiff : x.mmap_threshold.toNat ≤ nb.toNat ∧ w.topsize ≠ 0 ↔
      y.mmap_threshold ≤ nb.toNat ∧ m.topsize ≠ 0 := by
    rw [hx.mmap_threshold, ne_eq, ← BitVec.toNat_inj, h.topsize]
    rfl
  unfold directAlloc granted
  by_cases hlarge : y.mmap_threshold ≤ nb.toNat ∧ m.topsize ≠ 0
  · dsimp only
    rw [if_pos hlarge, if_pos (hiff.mpr hlarge), if_pos ⟨h.use_mmap, hiff.mpr hlarge⟩]
    exact mmapAlloc_refines hx h A v
  · rw [if_neg hlarge, if_neg fun hw => hlarge (hiff.mp hw.2)]
    exact sameDirect_none v

/-- The size of the request to the system. -/
theorem systemSize_cases (hx : x.Refines y) (h : w.Refines m) (nb : Word) :
    (systemSize x w nb = none ∧
      (Dlmalloc.granularityAlign y ((nb.toNat + Dlmalloc.sysAllocPadding) % 2 ^ 64) ≤ nb.toNat ∨
        m.overLimit (Dlmalloc.granularityAlign y
          ((nb.toNat + Dlmalloc.sysAllocPadding) % 2 ^ 64)) = true)) ∨
    (∃ asize, systemSize x w nb = some asize ∧
      ¬ (Dlmalloc.granularityAlign y ((nb.toNat + Dlmalloc.sysAllocPadding) % 2 ^ 64) ≤ nb.toNat ∨
        m.overLimit (Dlmalloc.granularityAlign y
          ((nb.toNat + Dlmalloc.sysAllocPadding) % 2 ^ 64)) = true)) := by
  have hasize := toNat_granularityAlign hx (nb + sysAllocPadding)
  have hsum : (nb + sysAllocPadding).toNat = (nb.toNat + Dlmalloc.sysAllocPadding) % 2 ^ 64 :=
    BitVec.toNat_add nb sysAllocPadding
  rw [hsum] at hasize
  have hok := h.overLimit_iff (granularityAlign x (nb + sysAllocPadding))
  rw [← hasize, ← Nat.not_lt]
  by_cases hserved : nb.toNat < (granularityAlign x (nb + sysAllocPadding)).toNat ∧
      FootprintOk w (granularityAlign x (nb + sysAllocPadding))
  · exact .inr ⟨_, if_pos hserved, by tauto⟩
  · exact .inl ⟨if_neg hserved, by tauto⟩

section Indirect

/-! When no chunk is mapped directly. -/

variable {M : Morecore} {A : Answers} {v v' : World} {asize : Word} {closed : Bool}
  (hdirect : (directAlloc A x w nb v).1 = 0 ∧ (directAlloc A x w nb v).2.1 = w)

include hdirect

/-- The size is refused. -/
theorem sysAlloc_refused (hsystem : systemSize x w nb = none) :
    sysAlloc M A x w nb v = ⟨0, w, (directAlloc A x w nb v).2.2, none⟩ := by
  unfold sysAlloc
  simp only [hdirect.1, hdirect.2, ne_eq, not_true_eq_false, if_false, hsystem]

variable (hsystem : systemSize x w nb = some asize)

include hsystem

/-- No way gives a range. -/
theorem sysAlloc_failed
    (hadded : added M A x w nb asize (directAlloc A x w nb v).2.2 = (none, closed, v')) :
    sysAlloc M A x w nb v = ⟨0, { w with use_noncontiguous := closed }, v', none⟩ := by
  unfold sysAlloc
  simp only [hdirect.1, hdirect.2, ne_eq, not_true_eq_false, if_false, hsystem, hadded]

/-- A range joins the heap. -/
theorem sysAlloc_added
    (hadded : added M A x w nb asize (directAlloc A x w nb v).2.2 = (some t, closed, v')) :
    sysAlloc M A x w nb v =
      ⟨(install { w with use_noncontiguous := closed } nb t).1,
        (install { w with use_noncontiguous := closed } nb t).2, v', some t⟩ := by
  unfold sysAlloc
  simp only [hdirect.1, hdirect.2, ne_eq, not_true_eq_false, if_false, hsystem, hadded]

end Indirect

/-- **`sys_alloc` on words is `sys_alloc` on numbers**, when what the system answers is new
memory, aligned and large enough. -/
theorem sysAlloc_refines (hx : x.Refines y) (h : w.Refines m) (hi : Dlmalloc.Inv m cs ks)
    (M : Morecore) (A : Answers) (v : World)
    (hg : (granted M A x w nb v).Ok y m ks nb.toNat) :
    (sysAlloc M A x w nb v).mem.toNat = (m.sysAlloc y (granted M A x w nb v) nb.toNat).1 ∧
      (sysAlloc M A x w nb v).state.Refines
        (m.sysAlloc y (granted M A x w nb v) nb.toNat).2 := by
  have hdirect := directAlloc_refines hx h nb M A v
  have hrange := hg.range
  have hrangeEq : (granted M A x w nb v).range =
    (sysAlloc M A x w nb v).range.map Range.seg := rfl
  have hclosedEq : (granted M A x w nb v).closed =
    (sysAlloc M A x w nb v).state.use_noncontiguous := rfl
  unfold Dlmalloc.MState.sysAlloc
  dsimp only
  split
  · next q hq =>
    obtain ⟨hmem, hpos, hstate⟩ := hdirect.mapped q hq
    have hne : (directAlloc A x w nb v).1 ≠ 0 := by
      rw [ne_eq, ← BitVec.toNat_inj, hmem]
      exact hpos.ne'
    unfold sysAlloc
    dsimp only
    rw [if_pos hne]
    exact ⟨hmem, hstate⟩
  next hq =>
  replace hdirect := hdirect.refused hq
  rcases systemSize_cases hx h nb with ⟨hsystem, hrefused⟩ | ⟨asize, hsystem, hasked⟩
  · rw [sysAlloc_refused hdirect hsystem, if_pos hrefused]
    exact ⟨rfl, h⟩
  rw [if_neg hasked]
  have hstays := added_closed (w := w) M A x nb asize (directAlloc A x w nb v).2.2
  obtain ⟨t, closed, v', hadded⟩ : ∃ t closed v',
      added M A x w nb asize (directAlloc A x w nb v).2.2 = (t, closed, v') := ⟨_, _, _, rfl⟩
  rw [hadded] at hstays
  have hclose := h.closeContiguous hstays
  cases t with
  | none =>
      have hcall := sysAlloc_failed hdirect hsystem hadded
      rw [hrangeEq, hclosedEq, hcall]
      exact ⟨rfl, hclose⟩
  | some t =>
      have hcall := sysAlloc_added hdirect hsystem hadded
      have hflag : (granted M A x w nb v).closed = closed := by
        rw [hclosedEq, hcall]
        exact install_flag
      have hsome : (granted M A x w nb v).range = some t.seg := by
        rw [hrangeEq, hcall]
        rfl
      obtain ⟨hgiven, hsize⟩ := hrange t.seg hsome
      rw [hsome, hflag, hcall]
      exact install_refines hclose (bounded_of_inv (hi.closeContiguous closed)) hgiven hsize

/-- So a call on words serves its request with a chunk of the layout, or changes nothing but the
flag. -/
theorem sysAlloc_served (hx : x.Refines y) (h : w.Refines m) (hi : Dlmalloc.Inv m cs ks)
    (hnb : Dlmalloc.minChunkSize ≤ nb.toNat) (hal : 16 ∣ nb.toNat) (M : Morecore) (A : Answers)
    (v : World) (hg : (granted M A x w nb v).Ok y m ks nb.toNat) :
    ∃ m', (sysAlloc M A x w nb v).state.Refines m' ∧
      Dlmalloc.Served m cs ks nb.toNat ((sysAlloc M A x w nb v).mem.toNat, m') := by
  obtain ⟨hmem, hstate⟩ := sysAlloc_refines hx h hi M A v hg
  exact ⟨_, hstate, hmem ▸ hi.sysAlloc hnb hal hg⟩

end Porpoise.Malloc
