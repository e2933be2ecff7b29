import Mathlib.Data.Nat.Bitwise
import Mathlib.Tactic.Ring
import Porpoise.Dlmalloc.Heap

/-!
# The best fit

`tmalloc_large` looks into the tree of the size that is asked for, and then into the next tree
that is not empty. Below `2 ^ 40` bytes the trees are in the order of the sizes, and in a tree the
bits of a size are its way; so the chunk that is found is the smallest that is large enough.

* `computeTreeIndex_mono`: the trees are in order.
* `digits_treeBits`: the way in a tree is the size in binary.
* `TreesOrdered.findLarge_le`: what is found is no larger than any chunk that fits.
* `Inv.smallRequest_best`: a small request looks at the small bins first, and then at the trees.
* `heap_best_fit`, `heap_best_fit_small`: in every state that a run reaches.
-/

namespace Porpoise.Dlmalloc

open Porpoise.Lib Chunk

variable {x : MParams} {p : Process} {m : MState} {cs : List Chunk} {ks : List Mapping}
  {s s' i j nb y : ℕ}

/-! ## The trees -/

/-- The sizes for which the trees are in order. -/
def TreeSize (s : ℕ) : Prop := 256 ≤ s ∧ s < 2 ^ 40

/-- The tree of a size: two for each power of 2, and one for all the large ones. -/
theorem TreeSize.index (h : TreeSize s) :
    (2 ^ 24 ≤ s ∧ computeTreeIndex s = 31) ∨
      ∃ K < 16, 2 ≤ s / 2 ^ (K + 7) ∧ s / 2 ^ (K + 7) < 4 ∧
        computeTreeIndex s = 2 * K + s / 2 ^ (K + 7) % 2 := by
  obtain ⟨hle, hlt⟩ := h
  have hX : (s >>> treeBinShift) % 2 ^ 32 = s / 256 := by
    unfold treeBinShift
    rw [Nat.shiftRight_eq_div_pow]
    omega
  unfold computeTreeIndex
  dsimp only
  rw [hX, if_neg (by omega)]
  by_cases hbig : s / 256 > 0xFFFF
  · rw [if_pos hbig]
    exact Or.inl ⟨by omega, rfl⟩
  · rw [if_neg hbig]
    have hne : s / 256 ≠ 0 := by omega
    have hlow := Nat.log2_self_le hne
    have hhigh := Nat.lt_log2_self (n := s / 256)
    have hlog : Nat.log2 (s / 256) < 16 := (Nat.log2_lt hne).mpr (by omega)
    generalize Nat.log2 (s / 256) = K at hlow hhigh hlog ⊢
    refine Or.inr ⟨K, hlog, ?_, ?_, ?_⟩
    · rw [Nat.le_div_iff_mul_le (Nat.two_pow_pos _)]
      have hpow : 2 * 2 ^ (K + 7) = 2 ^ K * 256 := by ring
      omega
    · rw [Nat.div_lt_iff_lt_mul (Nat.two_pow_pos _)]
      have hpow : 4 * 2 ^ (K + 7) = 2 ^ (K + 1) * 256 := by ring
      omega
    · have hshift : K + (treeBinShift - 1) = K + 7 := rfl
      rw [hshift, Nat.shiftLeft_eq, Nat.shiftRight_eq_div_pow, Nat.and_one_is_mod]
      omega

/-- **The trees are in the order of the sizes.** -/
theorem computeTreeIndex_mono (h : TreeSize s) (h' : TreeSize s') (hle : s ≤ s') :
    computeTreeIndex s ≤ computeTreeIndex s' := by
  rcases h'.index with ⟨-, heq'⟩ | ⟨K', hK', hlow', hhigh', heq'⟩
  · have hlt := computeTreeIndex_lt s
    omega
  rcases h.index with ⟨hbig, -⟩ | ⟨K, -, hlow, hhigh, heq⟩
  · rw [Nat.div_lt_iff_lt_mul (Nat.two_pow_pos _)] at hhigh'
    have hpow : 2 ^ (K' + 7) ≤ 2 ^ 22 := Nat.pow_le_pow_right (by decide) (by omega)
    omega
  · have hKK : K ≤ K' := by
      by_contra hgt
      rw [Nat.le_div_iff_mul_le (Nat.two_pow_pos _)] at hlow
      rw [Nat.div_lt_iff_lt_mul (Nat.two_pow_pos _)] at hhigh'
      have hpow : 2 ^ (K' + 1 + 7) ≤ 2 ^ (K + 7) := Nat.pow_le_pow_right (by decide) (by omega)
      have hdouble : 2 ^ (K' + 1 + 7) = 2 * 2 ^ (K' + 7) := by ring
      omega
    rcases Nat.eq_or_lt_of_le hKK with rfl | hlt
    · have hdiv := Nat.div_le_div_right (c := 2 ^ (K + 7)) hle
      omega
    · omega

/-- A bit of the way is a bit of the size. -/
theorem treeBits_eq (i s d : ℕ) : treeBits i s d =
    (decide (leftshiftForTreeIndex i + d < 64) &&
      s.testBit (63 - (leftshiftForTreeIndex i + d))) := by
  unfold treeBits
  rw [BitVec.msb_eq_getMsbD_zero, BitVec.getMsbD_shiftLeft, BitVec.getMsbD_shiftLeft,
    BitVec.getMsbD_eq_getLsbD, BitVec.getLsbD_ofNat, Nat.zero_add, Nat.add_comm d]
  by_cases hlt : leftshiftForTreeIndex i + d < 64
  · have hidx : 64 - 1 - (leftshiftForTreeIndex i + d) < 64 := by omega
    simp [hlt, hidx]
  · simp [hlt]

/-- Above the first bit of the way the sizes of a tree are the same. -/
theorem TreeSize.top_bits (h : TreeSize s) (h' : TreeSize s')
    (hi : computeTreeIndex s = computeTreeIndex s') (hj : 63 < leftshiftForTreeIndex
      (computeTreeIndex s) + j) : s.testBit j = s'.testBit j := by
  have hsmall : ∀ {n : ℕ}, n < 2 ^ 40 → 40 ≤ j → n.testBit j = false := fun hn hj =>
    Nat.testBit_lt_two_pow (Nat.lt_of_lt_of_le hn (Nat.pow_le_pow_right (by decide) hj))
  unfold leftshiftForTreeIndex nTreeBins treeBinShift at hj
  by_cases h31 : computeTreeIndex s = 31
  · rw [if_pos h31] at hj
    rw [hsmall h.2 (by omega), hsmall h'.2 (by omega)]
  rw [if_neg h31, Nat.shiftRight_eq_div_pow] at hj
  obtain ⟨K, hK, hlow, hhigh, heq⟩ := h.index.resolve_left fun hl => h31 hl.2
  obtain ⟨K', hK', hlow', hhigh', heq'⟩ := h'.index.resolve_left fun hl => h31 (hi.trans hl.2)
  have hKK : K = K' := by omega
  subst hKK
  have hdiv : s / 2 ^ (K + 7) = s' / 2 ^ (K + 7) := by omega
  obtain ⟨e, rfl⟩ : ∃ e, j = K + 7 + e := ⟨j - (K + 7), by omega⟩
  rw [← Nat.testBit_shiftRight, ← Nat.testBit_shiftRight, Nat.shiftRight_eq_div_pow,
    Nat.shiftRight_eq_div_pow, hdiv]

/-- **The way in a tree is the size in binary,** from the top bit of the tree on. -/
theorem digits_treeBits (i : ℕ) :
    Trie.Digits (treeBits i) fun s => TreeSize s ∧ computeTreeIndex s = i := by
  rintro a b d ⟨ha, hai⟩ ⟨hb, hbi⟩ hsame hbit hbit'
  rw [treeBits_eq, Bool.and_eq_true, decide_eq_true_eq] at hbit'
  obtain ⟨hd, hbit'⟩ := hbit'
  rw [treeBits_eq, decide_eq_true hd, Bool.true_and] at hbit
  refine Nat.lt_of_testBit _ hbit hbit' fun j hj => ?_
  by_cases htop : 63 < leftshiftForTreeIndex i + j
  · exact ha.top_bits hb (hai.trans hbi.symm) (hai.symm ▸ htop)
  · have he := hsame (63 - leftshiftForTreeIndex i - j) (by omega)
    have hidx : 63 - (leftshiftForTreeIndex i + (63 - leftshiftForTreeIndex i - j)) = j := by omega
    rw [treeBits_eq, treeBits_eq, decide_eq_true (by omega), hidx, Bool.true_and,
      Bool.true_and] at he
    exact he

/-! ## The search -/

/-- A chunk in a tree that is large enough. -/
def MState.Fits (m : MState) (nb y : ℕ) : Prop :=
  (∃ i, y ∈ (m.treebins i).members) ∧ nb ≤ m.chunksize y

/-- The trees are sorted by size, and what they hold is in their order. -/
structure TreesOrdered (m : MState) : Prop where
  sorted : ∀ i, (m.treebins i).Sorted m.chunksize (treeBits i) 0
  size : ∀ i, ∀ y ∈ (m.treebins i).members,
    TreeSize (m.chunksize y) ∧ computeTreeIndex (m.chunksize y) = i
  ne_zero : ∀ i, ∀ y ∈ (m.treebins i).members, y ≠ 0
  treemap : ∀ i, m.treemap.getLsbD i = true ↔ m.treebins i ≠ .leaf

theorem Inv.treesOrdered (h : Inv m cs ks) (hsegs : ∀ r ∈ m.segs, r.size ≤ 2 ^ 40) :
    TreesOrdered m where
  sorted i := h.bins.sorted i m.chunksize fun y s hy => h.layout.chunksize_eq hy.2
  size i y hy := by
    obtain ⟨hmem, -, hlarge, -, hidx⟩ := h.of_mem_tree hy
    obtain ⟨r, hr, hbase, hfin, -⟩ := h.layout.inside _ hmem
    have hsize := hsegs r hr
    have hrf : r.fin = r.base + r.size := rfl
    unfold Chunk.fin at hfin
    dsimp only at hbase hfin
    exact ⟨⟨hlarge, by omega⟩, hidx⟩
  ne_zero i y hy := (h.layout.addr_pos (h.of_mem_tree hy).1).ne'
  treemap := h.bins.treemap

namespace TreesOrdered

variable (h : TreesOrdered m) (hnb : TreeSize nb)
include h hnb

/-- A chunk that fits is in the tree of the size that is asked for, or in one behind it. -/
theorem index_le (hy : y ∈ (m.treebins j).members) (hle : nb ≤ m.chunksize y) :
    computeTreeIndex nb ≤ j := by
  obtain ⟨hsize, hidx⟩ := h.size j y hy
  rw [← hidx]
  exact computeTreeIndex_mono hnb hsize hle

omit hnb in
/-- In the trees behind the chunks are larger. -/
theorem size_lt {z : ℕ} (hz : z ∈ (m.treebins i).members) (hy : y ∈ (m.treebins j).members)
    (hij : i < j) : m.chunksize z < m.chunksize y := by
  obtain ⟨hsize, hidx⟩ := h.size j y hy
  obtain ⟨hsize', hidx'⟩ := h.size i z hz
  by_contra hge
  have hmono := computeTreeIndex_mono hsize hsize' (Nat.le_of_not_lt hge)
  omega

/-- What a chunk that fits has too many. -/
theorem wsub_eq (hy : y ∈ (m.treebins j).members) (hle : nb ≤ m.chunksize y) :
    wsub (m.chunksize y) nb = m.chunksize y - nb ∧ m.chunksize y - nb < wsub 0 nb := by
  have hlt := (h.size j y hy).1.2
  have hpos := hnb.1
  unfold wsub
  omega

/-- **The tree of the size has a chunk that fits:** so does the search find one, and none of the
chunks in the trees that fit is smaller. -/
theorem findLarge_near {z : ℕ} (hz : z ∈ (m.treebins (computeTreeIndex nb)).members)
    (hle : nb ≤ m.chunksize z) : (m.findLarge nb).2 ≤ m.chunksize z - nb := by
  obtain ⟨v, hv, hfit, hvz⟩ := Trie.exists_fit_on_seek (digits_treeBits (computeTreeIndex nb))
    ⟨hnb, rfl⟩ (h.sorted _) (h.size _) hz hle
  obtain ⟨hpath, hrest⟩ := Trie.seek_subset (treeBits (computeTreeIndex nb) nb) .leaf
    (m.treebins (computeTreeIndex nb))
  unfold MState.findLarge
  dsimp only
  rcases searchLoop_cases m.chunksize nb (treeBits (computeTreeIndex nb) nb) 0 (wsub 0 nb) .leaf
    (m.treebins (computeTreeIndex nb)) with ⟨q, heq, hbest⟩ | ⟨w, hw, u, heq, -, -, hu, -⟩
  · rw [heq]
    dsimp only
    have hfound : ¬ ((Trie.seek (treeBits (computeTreeIndex nb) nb) .leaf
        (m.treebins (computeTreeIndex nb))).2.isLeaf = true ∧ q.1 = 0) := by
      rintro ⟨hleaf, hq⟩
      rw [Trie.isLeaf_iff.mp hleaf] at hv
      have hvp := (List.mem_append.mp hv).resolve_right List.not_mem_nil
      have hvs := h.wsub_eq hnb (hpath v hvp) hfit
      have hqv := hbest.le_of_mem v hvp
      rcases hbest.mem with rfl | ⟨hmem, -, -⟩
      · dsimp only at hqv
        omega
      · exact h.ne_zero _ _ (hpath _ hmem) hq
    rw [if_neg hfound]
    have hleft := leftLoop_best m.chunksize nb (Trie.seek (treeBits (computeTreeIndex nb) nb) .leaf
      (m.treebins (computeTreeIndex nb))).2 q.1 q.2
    rcases List.mem_append.mp hv with hvp | hvl
    · have hvs := h.wsub_eq hnb (hpath v hvp) hfit
      have hqv := hbest.le_of_mem v hvp
      have hql := hleft.le
      omega
    · have hvm := (hrest v (Trie.leftPath_subset v hvl)).resolve_right List.not_mem_nil
      have hvs := h.wsub_eq hnb hvm hfit
      have hqv := hleft.le_of_mem v hvl
      omega
  · rw [heq]
    dsimp only
    rw [if_neg (by simp [hu])]
    exact Nat.le_trans (leftLoop_best ..).le (Nat.zero_le _)

/-- **No chunk in the tree of the size fits:** the search goes on in the next tree that is not
empty, whose smallest chunk is the best fit. -/
theorem findLarge_far (hno : ∀ z ∈ (m.treebins (computeTreeIndex nb)).members, m.chunksize z < nb)
    (hy : y ∈ (m.treebins j).members) (hle : nb ≤ m.chunksize y) :
    (m.findLarge nb).2 ≤ m.chunksize y - nb := by
  have hlt : computeTreeIndex nb < j := by
    refine Nat.lt_of_le_of_ne (h.index_le hnb hy hle) ?_
    rintro rfl
    have hsmall := hno y hy
    omega
  obtain ⟨hpath, hrest⟩ := Trie.seek_subset (treeBits (computeTreeIndex nb) nb) .leaf
    (m.treebins (computeTreeIndex nb))
  unfold MState.findLarge
  dsimp only
  rcases searchLoop_cases m.chunksize nb (treeBits (computeTreeIndex nb) nb) 0 (wsub 0 nb) .leaf
    (m.treebins (computeTreeIndex nb)) with ⟨q, heq, hbest⟩ | ⟨w, hw, u, heq, h0, -, -, -⟩
  swap
  · have hsmall := hno w hw
    have hsize := (h.size _ w hw).1.2
    have hn := hnb.2
    unfold wsub at h0
    omega
  have hq : q = (0, wsub 0 nb) := by
    refine hbest.mem.resolve_right fun ⟨hmem, hr, hlt⟩ => ?_
    have hsmall := hno _ (hpath _ hmem)
    have hsize := (h.size _ _ (hpath _ hmem)).1.2
    have hfit := le_of_wsub_lt (hr ▸ hlt) (by omega) (Nat.lt_trans hnb.2 (by decide))
    omega
  have hleaf : (Trie.seek (treeBits (computeTreeIndex nb) nb) .leaf
      (m.treebins (computeTreeIndex nb))).2.isLeaf = true := by
    rw [Trie.isLeaf_iff, ← Trie.members_eq_nil_iff, List.eq_nil_iff_forall_not_mem]
    intro z hz
    have hge := Trie.le_of_mem_seek (digits_treeBits (computeTreeIndex nb)) ⟨hnb, rfl⟩
      (h.sorted _) (h.size _) z hz
    have hsmall := hno z ((hrest z hz).resolve_right List.not_mem_nil)
    omega
  have hj : j < 32 := by
    rw [← (h.size j y hy).2]
    exact computeTreeIndex_lt _
  have hbits : ∀ k, (BitMap.leftBits (BitMap.idx2bit 32 (computeTreeIndex nb)) &&&
      m.treemap).getLsbD k = true ↔
        (computeTreeIndex nb < k ∧ k < 32) ∧ m.treebins k ≠ .leaf := by
    intro k
    rw [BitVec.getLsbD_and, BitMap.getLsbD_leftBits_idx2bit (computeTreeIndex_lt nb),
      Bool.and_eq_true, decide_eq_true_eq, h.treemap]
  have hbitj := (hbits j).mpr ⟨⟨hlt, hj⟩, Trie.ne_leaf_of_mem hy⟩
  have hne : BitMap.leftBits (BitMap.idx2bit 32 (computeTreeIndex nb)) &&& m.treemap ≠ 0 :=
    BitMap.ne_zero_of_getLsbD hbitj
  obtain ⟨hset, hleast⟩ := BitMap.ctz_leastBit hne
  rw [heq, hq]
  dsimp only
  rw [if_pos ⟨hleaf, rfl⟩, if_pos hne]
  generalize (BitMap.leastBit (BitMap.leftBits (BitMap.idx2bit 32 (computeTreeIndex nb)) &&&
    m.treemap)).ctz.toNat = i at hset hleast ⊢
  obtain ⟨⟨hi, -⟩, hileaf⟩ := (hbits i).mp hset
  -- The least chunk of that tree is on the way of the loop.
  obtain ⟨v, hv, hmin⟩ := Trie.exists_least_on_leftPath (digits_treeBits i) (h.sorted i)
    (fun _ _ _ _ e he => absurd he (Nat.not_lt_zero e)) (h.size i) hileaf
  have hvm := Trie.leftPath_subset v hv
  have hvy : m.chunksize v ≤ m.chunksize y := by
    have hij : i ≤ j := by
      by_contra hgt
      rw [hleast j (Nat.lt_of_not_le hgt)] at hbitj
      cases hbitj
    rcases Nat.eq_or_lt_of_le hij with rfl | hij
    · exact hmin y hy
    · exact Nat.le_of_lt (h.size_lt hvm hy hij)
  have hnbv : nb ≤ m.chunksize v := by
    by_contra hsmall
    obtain ⟨hsize, hidx⟩ := h.size i v hvm
    have hmono := computeTreeIndex_mono hsize hnb (Nat.le_of_not_le hsmall)
    omega
  have hvs := h.wsub_eq hnb hvm hnbv
  have hqv := (leftLoop_best m.chunksize nb (m.treebins i) 0 (wsub 0 nb)).le_of_mem v hv
  omega

/-- **Nothing that fits is smaller** than what is found. -/
theorem findLarge_le (hy : m.Fits nb y) : (m.findLarge nb).2 ≤ m.chunksize y - nb := by
  obtain ⟨⟨j, hy⟩, hle⟩ := hy
  by_cases hfit : ∃ z ∈ (m.treebins (computeTreeIndex nb)).members, nb ≤ m.chunksize z
  · obtain ⟨z, hz, hzle⟩ := hfit
    by_cases hj : j = computeTreeIndex nb
    · subst hj
      exact h.findLarge_near hnb hy hle
    · have hlt := Nat.lt_of_le_of_ne (h.index_le hnb hy hle) (Ne.symm hj)
      have hzy := h.size_lt hz hy hlt
      have hnear := h.findLarge_near hnb hz hzle
      omega
  · refine h.findLarge_far hnb (fun z hz => ?_) hy hle
    by_contra hge
    exact hfit ⟨z, hz, Nat.le_of_not_lt hge⟩

/-- What is found fits, unless nothing does. -/
theorem findLarge_spec :
    ((m.findLarge nb).1 = 0 ∧ ∀ y, ¬ m.Fits nb y) ∨
      (m.Fits nb (m.findLarge nb).1 ∧
        (m.findLarge nb).2 = m.chunksize (m.findLarge nb).1 - nb ∧
        ∀ y, m.Fits nb y → m.chunksize (m.findLarge nb).1 ≤ m.chunksize y) := by
  rcases findLarge_found m nb with ⟨h0, hr⟩ | ⟨i, hmem, hr, hlt⟩
  · refine Or.inl ⟨h0, fun y hy => ?_⟩
    have hle := h.findLarge_le hnb hy
    obtain ⟨⟨j, hj⟩, hfit⟩ := hy
    have hys := h.wsub_eq hnb hj hfit
    omega
  · have hsize := (h.size i _ hmem).1.2
    have hfit := le_of_wsub_lt (hr ▸ hlt) (by omega) (Nat.lt_trans hnb.2 (by decide))
    have hvs := h.wsub_eq hnb hmem hfit
    refine Or.inr ⟨⟨⟨i, hmem⟩, hfit⟩, hr.trans hvs.1, fun y hy => ?_⟩
    have hle := h.findLarge_le hnb hy
    have hy' := hy.2
    omega

end TreesOrdered

/-- `tmalloc_large` takes the chunk of the trees that fits best, if it fits better than the
designated victim. -/
theorem Inv.tmallocLarge_best (h : Inv m cs ks) (hsegs : ∀ r ∈ m.segs, r.size ≤ 2 ^ 40)
    (hnb : TreeSize nb) :
    (m.tmallocLarge nb = some (0, m) ∧
        ∀ y, m.Fits nb y → wsub m.dvsize nb ≤ m.chunksize y - nb) ∨
      ∃ v m', m.tmallocLarge nb = some (chunk2mem v, m') ∧ m.Fits nb v ∧
        m.chunksize v - nb < wsub m.dvsize nb ∧
        ∀ y, m.Fits nb y → m.chunksize v ≤ m.chunksize y := by
  have ht := h.treesOrdered hsegs
  unfold MState.tmallocLarge
  dsimp only
  rcases ht.findLarge_spec hnb with ⟨h0, hno⟩ | ⟨hfit, hr, hbest⟩
  · rw [if_neg fun hc => hc.1 h0]
    exact Or.inl ⟨rfl, fun y hy => absurd hy (hno y)⟩
  · obtain ⟨⟨i, hmem⟩, hle⟩ := hfit
    split
    · next hc =>
      have hpos := hnb.1
      unfold MState.takeTreeChunk
      rw [if_pos ⟨h.layout.okAddress (h.of_mem_tree hmem).1, by omega⟩]
      exact Or.inr ⟨_, _, rfl, ⟨⟨i, hmem⟩, hle⟩, hr ▸ hc.2, hbest⟩
    · next hc =>
      refine Or.inl ⟨rfl, fun y hy => ?_⟩
      have hge : wsub m.dvsize nb ≤ (m.findLarge nb).2 := by
        by_contra hlt
        exact hc ⟨ht.ne_zero i _ hmem, Nat.lt_of_not_le hlt⟩
      have hmin := hbest y hy
      omega

/-! ## Small requests -/

/-- The size of a chunk in a small bin. -/
theorem Inv.chunksize_small (h : Inv m cs ks) (hy : y ∈ m.smallbins i) :
    m.chunksize y = smallIndex2size i ∧ m.chunksize y < 256 := by
  obtain ⟨hmem, -, hs, -⟩ := h.of_mem_small hy
  have hsize : m.chunksize y = smallIndex2size i := h.layout.chunksize_eq hmem
  rw [hsize]
  exact ⟨rfl, isSmall_iff.mp hs⟩

/-- Where the map of the trees is 0, there is none. -/
theorem Inv.no_trees (h : Inv m cs ks) (hmap : m.treemap = 0) : y ∉ (m.treebins i).members := by
  intro hy
  have hbit := (h.bins.treemap i).mpr (Trie.ne_leaf_of_mem hy)
  rw [hmap] at hbit
  exact absurd hbit (by simp)

/-- The bin of a chunk that fits is marked, at the index of the request or behind it. -/
theorem Inv.small_marked (h : Inv m cs ks) (hy : y ∈ m.smallbins i) (hle : nb ≤ m.chunksize y) :
    smallIndex nb ≤ i ∧ m.smallmap.getLsbD i = true := by
  obtain ⟨hsize, -⟩ := h.chunksize_small hy
  refine ⟨?_, (h.bins.smallmap i).mpr (List.ne_nil_of_mem hy)⟩
  rw [hsize] at hle
  unfold smallIndex2size smallBinShift at hle
  unfold smallIndex smallBinShift
  rw [Nat.shiftLeft_eq] at hle
  rw [Nat.shiftRight_eq_div_pow]
  omega

/-- Where no bin from the index of the request on is marked, no small chunk fits. -/
theorem Inv.small_lt (h : Inv m cs ks) (hzero : m.smallmap >>> smallIndex nb = 0)
    (hy : y ∈ m.smallbins i) : m.chunksize y < nb := by
  by_contra hge
  obtain ⟨hi, hbit⟩ := h.small_marked hy (Nat.le_of_not_lt hge)
  have hno := BitMap.eq_zero_iff.mp hzero (i - smallIndex nb)
  rw [BitVec.getLsbD_ushiftRight, Nat.add_sub_cancel' hi, hbit] at hno
  cases hno

/-- The smallest of all chunks in bins that are large enough. -/
structure MState.BestFit (m : MState) (nb v : ℕ) : Prop where
  mem : ∃ j, v ∈ m.members j
  fits : nb ≤ m.chunksize v
  least : ∀ j, ∀ y ∈ m.members j, nb ≤ m.chunksize y → m.chunksize v ≤ m.chunksize y

/-- The chunks of the first small bin that is marked. -/
theorem Inv.bestFit_small {v : ℕ} (h : Inv m cs ks) (hal : 16 ∣ nb) (hv : v ∈ m.smallbins i)
    (hf : m.FirstMarked nb i) : m.BestFit nb v := by
  obtain ⟨hsize, hsmall⟩ := h.chunksize_small hv
  refine ⟨⟨.small i, hv⟩, hsize ▸ le_smallIndex2size hal hf.le, fun j y hy hle => ?_⟩
  cases j with
  | tree k =>
      have hlarge := (h.of_mem_tree hy).2.2.1
      omega
  | small k =>
      obtain ⟨hk, hbit⟩ := h.small_marked hy hle
      rw [hsize, (h.chunksize_small hy).1]
      unfold smallIndex2size
      rw [Nat.shiftLeft_eq, Nat.shiftLeft_eq]
      exact Nat.mul_le_mul_right _ (hf.least k hk hbit)

/-- **`tmalloc_small`** takes the smallest chunk of all trees. -/
theorem Inv.tmallocSmall_best (h : Inv m cs ks) (hsegs : ∀ r ∈ m.segs, r.size ≤ 2 ^ 40)
    (hnb : minChunkSize ≤ nb) (hs : nb < 256) (hmap : m.treemap ≠ 0) :
    ∃ v m', m.tmallocSmall nb = some (chunk2mem v, m') ∧ (∃ i, v ∈ (m.treebins i).members) ∧
      ∀ i, ∀ y ∈ (m.treebins i).members, m.chunksize v ≤ m.chunksize y := by
  have ht := h.treesOrdered hsegs
  obtain ⟨hset, hleast⟩ := BitMap.ctz_leastBit hmap
  have hpos : 0 < nb := Nat.lt_of_lt_of_le (by decide) hnb
  unfold MState.tmallocSmall
  generalize (BitMap.leastBit m.treemap).ctz.toNat = i at hset hleast ⊢
  have hne := (ht.treemap i).mp hset
  obtain ⟨w, hw, hmin⟩ := Trie.exists_least_on_leftPath (digits_treeBits i) (ht.sorted i)
    (fun _ _ _ _ e he => absurd he (Nat.not_lt_zero e)) (ht.size i) hne
  have hwm := Trie.leftPath_subset w hw
  have hexcess : ∀ y ∈ (m.treebins i).members, wsub (m.chunksize y) nb = m.chunksize y - nb ∧
      nb ≤ m.chunksize y := by
    intro y hy
    obtain ⟨hlow, hhigh⟩ := (ht.size i y hy).1
    exact ⟨wsub_of_le (by omega) (by omega), by omega⟩
  rcases htree : m.treebins i with _ | ⟨t, ring, l, r⟩
  · exact absurd htree hne
  dsimp only
  have hbest := leftLoop_best m.chunksize nb (if l.isLeaf then r else l) t
    (wsub (m.chunksize t) nb)
  generalize MState.leftLoop m.chunksize nb (if l.isLeaf then r else l) t
    (wsub (m.chunksize t) nb) = q at hbest ⊢
  obtain ⟨hpath, hq2, hle⟩ := hbest.root ring
  rw [← htree] at hpath hle
  have hqm := Trie.leftPath_subset _ hpath
  have hqw := hle w hw
  have hqle : m.chunksize q.1 ≤ m.chunksize w := by
    have hqe := hexcess _ hqm
    have hwe := hexcess w hwm
    omega
  unfold MState.takeTreeChunk
  rw [if_pos ⟨h.layout.okAddress (h.of_mem_tree hqm).1, by omega⟩]
  refine ⟨_, _, rfl, ⟨i, hqm⟩, fun j y hy => ?_⟩
  have hij : i ≤ j := by
    by_contra hgt
    have hleaf := hleast j (Nat.lt_of_not_le hgt)
    rw [(ht.treemap j).mpr (Trie.ne_leaf_of_mem hy)] at hleaf
    cases hleaf
  rcases Nat.eq_or_lt_of_le hij with rfl | hij
  · exact Nat.le_trans hqle (hmin y hy)
  · exact Nat.le_of_lt (ht.size_lt hqm hy hij)

/-- **A small request** that is larger than the victim takes the smallest chunk that fits. -/
theorem Inv.smallRequest_best {g : Grant} {b : Bin} (h : Inv m cs ks)
    (hsegs : ∀ r ∈ m.segs, r.size ≤ 2 ^ 40) (hnb : minChunkSize ≤ nb) (hal : 16 ∣ nb)
    (hs : nb < 256) (hdv : m.dvsize < nb) (hy : y ∈ m.members b) (hle : nb ≤ m.chunksize y) :
    ∃ v m', m.smallRequest x g nb = some (chunk2mem v, m') ∧ m.BestFit nb v := by
  rcases smallRequest_cases x g m hs with ⟨i, hf, -, heq⟩ | ⟨hge, -⟩ |
    ⟨-, ⟨i, hf, heq⟩ | ⟨hzero, hrest⟩⟩
  · obtain ⟨v, l, hl, hv⟩ := h.head_small hf.marked
    rw [heq]
    unfold MState.exactFit
    rw [hl]
    exact ⟨v, _, rfl, h.bestFit_small hal hv hf⟩
  · exact absurd hdv (Nat.not_lt_of_le hge)
  · obtain ⟨v, l, hl, hv⟩ := h.head_small hf.marked
    rw [heq]
    unfold MState.nextFit
    rw [hl]
    exact ⟨v, _, rfl, h.bestFit_small hal hv hf⟩
  · -- No small chunk fits, so the one that does is in a tree.
    have hsmall : ∀ i, ∀ z ∈ m.smallbins i, m.chunksize z < nb := fun i z hz =>
      h.small_lt hzero hz
    rcases b with i | i
    · exact absurd hle (Nat.not_le_of_lt (hsmall i y hy))
    have hmap : m.treemap ≠ 0 := fun hmap => h.no_trees hmap hy
    obtain ⟨-, heq⟩ := hrest.resolve_right fun hc => hmap hc.1
    obtain ⟨v, m', hv, ⟨k, hmem⟩, hleast⟩ := h.tmallocSmall_best hsegs hnb hs hmap
    have hlarge := (h.of_mem_tree hmem).2.2.1
    have hne : chunk2mem v ≠ 0 := Nat.succ_ne_zero _
    rw [heq, hv, Option.map_some, if_pos hne]
    refine ⟨v, m', rfl, ⟨.tree k, hmem⟩, by omega, fun b' z hz hfit => ?_⟩
    cases b' with
    | small i' => exact absurd hfit (Nat.not_le_of_lt (hsmall i' z hz))
    | tree i' => exact hleast i' z hz

/-! ## Every run -/

/-- **A large request gets the best fit**: in every state that a run reaches, `tmalloc_large`
takes the smallest chunk of the trees that is large enough, or it leaves the request to the
designated victim, which no such chunk fits better than. -/
theorem heap_best_fit {as : List Call} (bytes : ℕ) (hr : (heap x).Run (Legal x) as p)
    (hsegs : ∀ r ∈ p.state.segs, r.size ≤ 2 ^ 40) (hlarge : maxSmallRequest < bytes)
    (hlt : padRequest bytes < 2 ^ 40) :
    (p.state.tmallocLarge (padRequest bytes) = some (0, p.state) ∧
        ∀ y, p.state.Fits (padRequest bytes) y →
          wsub p.state.dvsize (padRequest bytes) ≤ p.state.chunksize y - padRequest bytes) ∨
      ∃ v m', p.state.tmallocLarge (padRequest bytes) = some (chunk2mem v, m') ∧
        p.state.Fits (padRequest bytes) v ∧
        p.state.chunksize v - padRequest bytes < wsub p.state.dvsize (padRequest bytes) ∧
        ∀ y, p.state.Fits (padRequest bytes) y → p.state.chunksize v ≤ p.state.chunksize y := by
  obtain ⟨-, cs, ks, hi, -⟩ := Good.of_run hr
  refine hi.tmallocLarge_best hsegs ⟨?_, hlt⟩
  unfold maxSmallRequest at hlarge
  unfold padRequest
  omega

/-- Two chunks of different sizes have been freed, and the smaller one fits. -/
theorem heap_best_fit_smaller : ∃ as p, (heap .initial).Run (Legal .initial) as p ∧
    (p.state.tmallocLarge (padRequest 500)).map (·.1) = some 1050656 ∧
    ((p.state.tmallocLarge (padRequest 500) = some (0, p.state) ∧
        ∀ y, p.state.Fits (padRequest 500) y →
          wsub p.state.dvsize (padRequest 500) ≤ p.state.chunksize y - padRequest 500) ∨
      ∃ v m', p.state.tmallocLarge (padRequest 500) = some (chunk2mem v, m') ∧
        p.state.Fits (padRequest 500) v ∧
        p.state.chunksize v - padRequest 500 < wsub p.state.dvsize (padRequest 500) ∧
        ∀ y, p.state.Fits (padRequest 500) y → p.state.chunksize v ≤ p.state.chunksize y) := by
  have hone := (run_zero .initial).snoc (Legal.malloc_first 2000 (by decide)) (heap_next _ rfl)
  have htwo := hone.snoc (Legal.malloc_none 40 true) (heap_next _ (by decide +kernel))
  have hthree := htwo.snoc (Legal.malloc_none 1000 true) (heap_next _ (by decide +kernel))
  have hfour := hthree.snoc (Legal.malloc_none 40 true) (heap_next _ (by decide +kernel))
  have hfive := hfour.snoc
    (Legal.free_live 1048592 ⟨true, true, fun _ => true⟩ (by decide +kernel))
    (heap_next _ (by decide +kernel))
  have hsix := hfive.snoc
    (Legal.free_live 1050656 ⟨true, true, fun _ => true⟩ (by decide +kernel))
    (heap_next _ (by decide +kernel))
  exact ⟨_, _, hsix, by decide +kernel,
    heap_best_fit 500 hsix (by decide +kernel) (by decide) (by decide)⟩

/-- **A small request gets the best fit**: in every state that a run reaches, when the designated
victim is too small and a chunk in a bin is not, `dlmalloc` takes the smallest that is large
enough. -/
theorem heap_best_fit_small {as : List Call} {g : Grant} {b : Bin} (bytes : ℕ)
    (hr : (heap x).Run (Legal x) as p) (hsegs : ∀ r ∈ p.state.segs, r.size ≤ 2 ^ 40)
    (hsmall : bytes ≤ maxSmallRequest) (hdv : p.state.dvsize < requestSize bytes)
    (hy : y ∈ p.state.members b) (hle : requestSize bytes ≤ p.state.chunksize y) :
    ∃ v m', p.state.dlmalloc x g bytes = some (chunk2mem v, m') ∧
      p.state.BestFit (requestSize bytes) v := by
  obtain ⟨-, cs, ks, hi, -⟩ := Good.of_run hr
  have hlt : bytes < maxRequest := Nat.lt_of_le_of_lt hsmall (by decide)
  obtain ⟨hnb, hal, -, -, hs⟩ := requestSize_spec hlt
  have hsize : requestSize bytes = if bytes < minRequest then minChunkSize else padRequest bytes :=
    if_pos hsmall
  unfold MState.dlmalloc
  rw [if_pos hsmall, ← hsize]
  exact hi.smallRequest_best hsegs hnb hal (hs hsmall) hdv hy hle

/-- Two small chunks have been freed, and the request is for a size between them. -/
theorem heap_best_fit_small_between : ∃ as p, (heap .initial).Run (Legal .initial) as p ∧
    (p.state.dlmalloc .initial ⟨none, none, true⟩ 100).map (·.1) = some 1048688 ∧
    ∃ v m', p.state.dlmalloc .initial ⟨none, none, true⟩ 100 = some (chunk2mem v, m') ∧
      p.state.BestFit (requestSize 100) v := by
  have hone := (run_zero .initial).snoc (Legal.malloc_first 40 (by decide)) (heap_next _ rfl)
  have htwo := hone.snoc (Legal.malloc_none 40 true) (heap_next _ (by decide +kernel))
  have hthree := htwo.snoc (Legal.malloc_none 200 true) (heap_next _ (by decide +kernel))
  have hfour := hthree.snoc (Legal.malloc_none 40 true) (heap_next _ (by decide +kernel))
  have hfive := hfour.snoc
    (Legal.free_live 1048592 ⟨true, true, fun _ => true⟩ (by decide +kernel))
    (heap_next _ (by decide +kernel))
  have hsix := hfive.snoc
    (Legal.free_live 1048688 ⟨true, true, fun _ => true⟩ (by decide +kernel))
    (heap_next _ (by decide +kernel))
  refine ⟨_, _, hsix, by decide +kernel, ?_⟩
  exact heap_best_fit_small (b := .small 26) (y := 1048672) 100 hsix (by decide +kernel)
    (by decide) (by decide +kernel) (by decide +kernel) (by decide +kernel)

end Porpoise.Dlmalloc
