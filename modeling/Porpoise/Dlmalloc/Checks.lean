import Porpoise.Dlmalloc.BestFit

/-!
# The debugging code

With `DEBUG` the source checks chunks and bins by assertions, which the shim compiles out. They
hold in every state that a run reaches.

* `checkInuseChunk`, `checkFreeChunk`, `checkTree`: the assertions, but for those on the links.
* `heap_checks`: they hold for the blocks of the program, the free chunks and the trees.
-/

namespace Porpoise.Dlmalloc

open Porpoise.Lib Chunk

namespace Tags

def nextChunk (t : Tags) (p : ℕ) : ℕ := p + t.chunksize p

def prevChunk (t : Tags) (p : ℕ) : ℕ := p - t.prev_foot p

def nextPinuse (t : Tags) (p : ℕ) : Bool := t.pinuse (t.nextChunk p)

end Tags

namespace MState

/-- `do_check_any_chunk`. -/
def checkAnyChunk (m : MState) (p : ℕ) : Bool :=
  decide ((16 ∣ chunk2mem p ∨ m.head p = ⟨8, true, true⟩) ∧ m.okAddress p = true)

/-- `do_check_mmapped_chunk`. -/
def checkMmappedChunk (x : MParams) (m : MState) (p : ℕ) : Bool :=
  let sz := m.chunksize p
  let len := sz + m.prev_foot p + mmapFootPad
  m.isMmapped p && m.checkAnyChunk p && !isSmall sz && decide (x.page_size ∣ len) &&
    decide (m.head (p + sz) = ⟨8, true, true⟩ ∧ m.head (p + sz + 8) = ⟨0, false, false⟩)

/-- `do_check_inuse_chunk`. -/
def checkInuseChunk (x : MParams) (m : MState) (p : ℕ) : Bool :=
  m.checkAnyChunk p && m.isInuse p && m.nextPinuse p &&
    (m.isMmapped p || m.pinuse p || decide (m.nextChunk (m.prevChunk p) = p)) &&
    (!m.isMmapped p || checkMmappedChunk x m p)

/-- `do_check_free_chunk`. -/
def checkFreeChunk (m : MState) (p : ℕ) : Bool :=
  let sz := m.chunksize p
  let next := m.nextChunk p
  m.checkAnyChunk p && !m.isInuse p && !m.nextPinuse p && !m.isMmapped p &&
    (decide (p = m.dv ∨ p = m.top) ||
      if minChunkSize ≤ sz then
        decide (16 ∣ sz ∧ 16 ∣ chunk2mem p ∧ m.prev_foot next = sz) && m.pinuse p &&
          (decide (next = m.top) || m.isInuse next)
      else decide (sz = 8))

/-- The check of the designated victim in `do_check_malloc_state`; it is in no bin. -/
def checkDv (m : MState) : Bool :=
  decide (m.dvsize = 0) ||
    m.checkAnyChunk m.dv && decide (m.dvsize = m.chunksize m.dv ∧ minChunkSize ≤ m.dvsize) &&
      !(m.members (binOf m.dvsize)).contains m.dv

end MState

/-- `minsize_for_tree_index`. -/
def minsizeForTreeIndex (i : ℕ) : ℕ :=
  (1 <<< ((i >>> 1) + treeBinShift)) ||| ((i &&& 1) <<< ((i >>> 1) + treeBinShift - 1))

namespace MState

/-- The roots of two subtrees, if there are two. -/
def checkOrder (m : MState) : Trie ℕ → Trie ℕ → Bool
  | .node t _ _ _, .node u _ _ _ => decide (m.chunksize t < m.chunksize u)
  | _, _ => true

/-- `do_check_tree`. -/
def checkTree (m : MState) : Trie ℕ → Bool
  | .leaf => true
  | .node t ring l r =>
      let tindex := m.index t
      let tsize := m.chunksize t
      decide (tindex = computeTreeIndex tsize ∧ 256 ≤ tsize ∧
        minsizeForTreeIndex tindex ≤ tsize ∧
        (tindex = nTreeBins - 1 ∨ tsize < minsizeForTreeIndex (tindex + 1))) &&
      ((t :: ring).all fun u =>
        m.checkAnyChunk u && decide (m.index u = tindex ∧ m.chunksize u = tsize) &&
          !m.isInuse u && !m.nextPinuse u) &&
      m.checkTree l && m.checkTree r && m.checkOrder l r

/-- `do_check_treebin`. -/
def checkTreebin (m : MState) (i : ℕ) : Bool :=
  (!(m.treebins i).isLeaf || !BitMap.isMarked m.treemap i) &&
    (!BitMap.isMarked m.treemap i || m.checkTree (m.treebins i))

end MState

variable {x : MParams} {p : Process} {m : MState} {cs : List Chunk} {ks : List Mapping}
  {c : Chunk} {k : Mapping} {s i y d : ℕ} {t : Trie ℕ}

/-! ## Chunks -/

theorem MState.checkAnyChunk_of (hal : 16 ∣ y) (hok : m.okAddress y = true) :
    m.checkAnyChunk y = true := by
  refine decide_eq_true ⟨Or.inl ?_, hok⟩
  unfold chunk2mem
  omega

/-- A chunk that the program has. -/
theorem Inv.checkInuseChunk (h : Inv m cs ks) (hc : c ∈ cs) (hk : c.kind = .used) :
    m.checkInuseChunk x c.addr = true := by
  obtain ⟨pre, post, rfl⟩ := cut hc
  obtain ⟨n, post, rfl, hadj, hpn⟩ := h.next_used hk
  have hcin : m.cinuse c.addr = true := by
    rw [h.layout.cinuse_eq hc, hk]
    rfl
  have hany := MState.checkAnyChunk_of
    ((h.layout.arena.shape c hc).aligned (by rw [hk]; exact nofun)).1 (h.layout.okAddress hc)
  have hnext : m.nextPinuse c.addr = true := by
    unfold Tags.nextPinuse Tags.nextChunk
    rw [h.layout.chunksize_eq hc, ← hadj, h.layout.pinuse_eq (by simp)]
    exact hpn
  have hprev : m.pinuse c.addr = true ∨ m.nextChunk (m.prevChunk c.addr) = c.addr := by
    rcases hp : c.pinuse with _ | _
    · obtain ⟨pre', v, post', heq, hkv, haddr⟩ := h.layout.arena.prev hc hp
      have hv : v ∈ pre ++ [c] ++ n :: post := by
        rw [heq]
        simp
      have hfoot := (h.layout.arena.tagged v hv).2 hkv
      have hfin : v.fin = v.addr + v.size := rfl
      have hback : m.prevChunk c.addr = v.addr := by
        unfold Tags.prevChunk
        rw [haddr, hfoot]
        omega
      refine Or.inr ?_
      rw [hback]
      unfold Tags.nextChunk
      rw [h.layout.chunksize_eq hv, haddr]
      rfl
    · exact Or.inl ((h.layout.pinuse_eq hc).trans hp)
  unfold MState.checkInuseChunk Tags.isInuse Tags.isMmapped
  rw [hany, hcin, hnext]
  rcases hprev with hp | hp <;> simp [hp]

/-- A mapping. -/
theorem Inv.checkInuseChunk_mapping (h : Inv m cs ks) (hx : x.page_size = 4096) (hk : k ∈ ks) :
    m.checkInuseChunk x k.addr = true := by
  have hok := h.layout.map_ok k hk
  obtain ⟨hhead, hfoot, hfence, hlast⟩ := h.layout.map_tagged k hk
  have hle := hok.least_le
  have hbase := hok.base_le
  have hfin := hok.fin_eq
  have hlarge := hok.large
  have hpages := hok.pages
  have hkf : k.fin = k.base + k.len := rfl
  have hany : m.checkAnyChunk k.addr = true :=
    MState.checkAnyChunk_of hok.aligned (decide_eq_true (Nat.le_trans hle hbase))
  have hsmall : isSmall k.size = false :=
    Bool.eq_false_iff.mpr fun hs => absurd (isSmall_iff.mp hs) (by omega)
  have hlen : k.size + (k.addr - k.base) + mmapFootPad = k.len := by omega
  have hmm : MState.checkMmappedChunk x m k.addr = true := by
    unfold MState.checkMmappedChunk Tags.isMmapped Tags.cinuse Tags.pinuse Tags.chunksize
    dsimp only
    rw [hhead, hfoot, hany]
    dsimp only
    rw [hsmall, hlen, hfence, hlast, hx]
    simp [hpages]
  unfold MState.checkInuseChunk Tags.nextPinuse Tags.nextChunk Tags.isInuse Tags.isMmapped
    Tags.cinuse Tags.pinuse Tags.chunksize
  rw [hany, hmm, hhead]
  dsimp only
  rw [hfence]
  rfl

/-- A free chunk. -/
theorem Inv.checkFreeChunk (h : Inv m cs ks) (hc : c ∈ cs) (hk : c.kind = .free) :
    m.checkFreeChunk c.addr = true := by
  obtain ⟨pre, post, rfl⟩ := cut hc
  obtain ⟨n, post, rfl, hadj, hin, hpn⟩ := h.next_free hk
  have hn : n ∈ pre ++ [c] ++ n :: post := by simp
  have hshape := h.layout.arena.shape c hc
  have hal := hshape.aligned (by rw [hk]; exact nofun)
  have hmin := hshape.min (by rw [hk]; exact nofun) (by rw [hk]; exact nofun)
  have hpin := h.layout.arena.pinuse_of_not_inuse hc (by rw [hk]; rfl)
  have hany := MState.checkAnyChunk_of hal.1 (h.layout.okAddress hc)
  have hsize := h.layout.chunksize_eq hc
  have hnext : m.nextChunk c.addr = n.addr := by
    unfold Tags.nextChunk
    rw [hsize, hadj]
    rfl
  have hcin : m.cinuse c.addr = false := by
    rw [h.layout.cinuse_eq hc, hk]
    rfl
  have hpinc : m.pinuse c.addr = true := (h.layout.pinuse_eq hc).trans hpin
  have hcinn : m.cinuse n.addr = true := (h.layout.cinuse_eq hn).trans hin
  have hpinn : m.pinuse n.addr = false := (h.layout.pinuse_eq hn).trans hpn
  have hfoot : m.prev_foot n.addr = c.size := by
    rw [hadj]
    exact (h.layout.arena.tagged c hc).2 hk
  have hmem : 16 ∣ chunk2mem c.addr := by
    have hal1 := hal.1
    unfold chunk2mem
    omega
  unfold MState.checkFreeChunk Tags.nextPinuse Tags.isInuse Tags.isMmapped
  dsimp only
  rw [hany, hnext, hsize, hcin, hpinc, hcinn, hpinn, hfoot, if_pos hmin]
  simp [hal.2, hmem]

/-- A chunk in a bin is free. -/
theorem Inv.of_mem_bin {j : Bin} (h : Inv m cs ks) (hy : y ∈ m.members j) :
    ⟨y, m.chunksize y, true, .free⟩ ∈ cs ∧ y ≠ m.dv := by
  obtain ⟨s, ⟨hne, hmem⟩, -⟩ := (h.bins.mem j y).mp hy
  have hsize : m.chunksize y = s := h.layout.chunksize_eq hmem
  rw [hsize]
  exact ⟨hmem, hne⟩

/-- The designated victim. -/
theorem Inv.checkDv (h : Inv m cs ks) : m.checkDv = true := by
  rcases h.victim with ⟨-, hz⟩ | hv
  · unfold MState.checkDv
    rw [hz]
    rfl
  · have hshape := h.layout.arena.shape _ hv
    have hal : 16 ∣ m.dv := (hshape.aligned (by exact nofun)).1
    have hmin : minChunkSize ≤ m.dvsize := hshape.min (by exact nofun) (by exact nofun)
    have hany := MState.checkAnyChunk_of hal (h.layout.okAddress hv)
    have hsize : m.chunksize m.dv = m.dvsize := h.layout.chunksize_eq hv
    have hout : m.dv ∉ m.members (binOf m.dvsize) := fun hy => (h.of_mem_bin hy).2 rfl
    unfold MState.checkDv
    rw [hany, hsize]
    simp [hmin, hout]

/-! ## Trees -/

theorem minsizeForTreeIndex_eq (K : ℕ) {b : ℕ} (hb : b < 2) :
    minsizeForTreeIndex (2 * K + b) = (2 + b) * 2 ^ (K + 7) := by
  unfold minsizeForTreeIndex treeBinShift
  have hK : (2 * K + b) >>> 1 = K := by
    rw [Nat.shiftRight_eq_div_pow]
    omega
  have hbit : (2 * K + b) &&& 1 = b := by
    rw [Nat.and_one_is_mod]
    omega
  have hsub : K + 8 - 1 = K + 7 := rfl
  have hpow : 2 ^ (K + 8) = 2 * 2 ^ (K + 7) := by ring
  have hlt : b * 2 ^ (K + 7) < 2 ^ (K + 8) := by
    rw [hpow]
    exact Nat.mul_lt_mul_of_pos_right hb (Nat.two_pow_pos _)
  have hor := Nat.two_pow_add_eq_or_of_lt hlt 1
  rw [Nat.mul_one] at hor
  rw [hK, hbit, hsub, Nat.shiftLeft_eq, Nat.shiftLeft_eq, Nat.one_mul, ← hor, hpow, Nat.add_mul]

/-- The sizes of a tree. -/
theorem TreeSize.minsize (h : TreeSize s) : minsizeForTreeIndex (computeTreeIndex s) ≤ s ∧
    (computeTreeIndex s = nTreeBins - 1 ∨ s < minsizeForTreeIndex (computeTreeIndex s + 1)) := by
  rcases h.index with ⟨hbig, heq⟩ | ⟨K, hK, hlow, hhigh, heq⟩
  · rw [heq]
    have hmin : minsizeForTreeIndex 31 = 3 * 2 ^ 22 :=
      minsizeForTreeIndex_eq 15 (b := 1) (by decide)
    exact ⟨by omega, Or.inl rfl⟩
  · have hle := Nat.div_mul_le_self s (2 ^ (K + 7))
    have hlt := Nat.lt_div_mul_add (a := s) (Nat.two_pow_pos (K + 7))
    rw [heq]
    generalize s / 2 ^ (K + 7) = q at *
    obtain rfl | rfl : q = 2 ∨ q = 3 := by omega
    · have h0 := minsizeForTreeIndex_eq K (b := 0) (by decide)
      have h1 := minsizeForTreeIndex_eq K (b := 1) (by decide)
      refine ⟨?_, Or.inr ?_⟩
      · rw [show 2 * K + 2 % 2 = 2 * K + 0 from rfl, h0]
        omega
      · rw [show 2 * K + 2 % 2 + 1 = 2 * K + 1 from rfl, h1]
        omega
    · have h0 := minsizeForTreeIndex_eq (K + 1) (b := 0) (by decide)
      have h1 := minsizeForTreeIndex_eq K (b := 1) (by decide)
      have hpow : 2 ^ (K + 1 + 7) = 2 * 2 ^ (K + 7) := by ring
      refine ⟨?_, Or.inr ?_⟩
      · rw [show 2 * K + 3 % 2 = 2 * K + 1 from rfl, h1]
        omega
      · rw [show 2 * K + 3 % 2 + 1 = 2 * (K + 1) + 0 by omega, h0]
        omega

/-- What is checked of each chunk in a tree. -/
structure TreeChunk (m : MState) (i u : ℕ) : Prop where
  any : m.checkAnyChunk u = true
  index : m.index u = i
  not_inuse : m.isInuse u = false
  next : m.nextPinuse u = false

theorem Inv.treeChunk (h : Inv m cs ks) (hy : y ∈ (m.treebins i).members) : TreeChunk m i y := by
  obtain ⟨hmem, -⟩ := h.of_mem_bin (j := .tree i) hy
  have hfree := h.checkFreeChunk hmem rfl
  unfold MState.checkFreeChunk at hfree
  simp only [Bool.and_eq_true, Bool.not_eq_true'] at hfree
  exact ⟨hfree.1.1.1.1, h.bins.index i y hy, hfree.1.1.1.2, hfree.1.1.2⟩

/-- The roots of the subtrees are in order. -/
theorem TreesOrdered.checkOrder {v : ℕ} {ring : List ℕ} {l r : Trie ℕ} (h : TreesOrdered m)
    (hs : (Trie.node v ring l r).Sorted m.chunksize (treeBits i) d)
    (hagree : (Trie.node v ring l r).Agree m.chunksize (treeBits i) d)
    (hm : ∀ u ∈ (Trie.node v ring l r).members, u ∈ (m.treebins i).members) :
    m.checkOrder l r = true := by
  cases hs with
  | node hring hleft hright hl hr =>
      cases l with
      | leaf => rfl
      | node a la lb lc =>
          cases r with
          | leaf => rfl
          | node b ra rb rc =>
              have ha : a ∈ (Trie.node a la lb lc).members := Trie.mem_node.mpr (Or.inl rfl)
              have hb : b ∈ (Trie.node b ra rb rc).members := Trie.mem_node.mpr (Or.inl rfl)
              have hat : a ∈ (Trie.node v ring (.node a la lb lc) (.node b ra rb rc)).members :=
                Trie.mem_node.mpr (Or.inr (Or.inr (Or.inl ha)))
              have hbt : b ∈ (Trie.node v ring (.node a la lb lc) (.node b ra rb rc)).members :=
                Trie.mem_node.mpr (Or.inr (Or.inr (Or.inr hb)))
              exact decide_eq_true (digits_treeBits i _ _ d (h.size i a (hm a hat))
                (h.size i b (hm b hbt)) (hagree a hat b hbt) (hleft a ha).1 (hright b hb).1)

/-- **A tree passes its check.** -/
theorem TreesOrdered.checkTree (h : TreesOrdered m)
    (hall : ∀ u ∈ (m.treebins i).members, TreeChunk m i u)
    (hs : t.Sorted m.chunksize (treeBits i) d) (hagree : t.Agree m.chunksize (treeBits i) d)
    (hm : ∀ u ∈ t.members, u ∈ (m.treebins i).members) : m.checkTree t = true := by
  induction hs with
  | leaf => rfl
  | @node d v ring l r hring hleft hright hl hr ihl ihr =>
      have horder := h.checkOrder (.node hring hleft hright hl hr) hagree hm
      have hl' := ihl (hagree.of_node (fun y hy => Or.inl hy) fun y hy => (hleft y hy).1)
        fun u hu => hm u (Trie.mem_node.mpr (Or.inr (Or.inr (Or.inl hu))))
      have hr' := ihr (hagree.of_node (fun y hy => Or.inr hy) fun y hy => (hright y hy).1)
        fun u hu => hm u (Trie.mem_node.mpr (Or.inr (Or.inr (Or.inr hu))))
      have hv : v ∈ (m.treebins i).members := hm v (Trie.mem_node.mpr (Or.inl rfl))
      obtain ⟨hsize, hidx⟩ := h.size i v hv
      have hmin := hsize.minsize
      have hindex := (hall v hv).index
      have hchain : ∀ u ∈ v :: ring, u ∈ (m.treebins i).members ∧
          m.chunksize u = m.chunksize v := by
        intro u hu
        rcases List.mem_cons.mp hu with rfl | hu
        · exact ⟨hv, rfl⟩
        · exact ⟨hm u (Trie.mem_node.mpr (Or.inr (Or.inl hu))), hring u hu⟩
      rw [hidx] at hmin
      unfold MState.checkTree
      dsimp only
      rw [hl', hr', horder, hindex, hidx, decide_eq_true ⟨rfl, hsize.1, hmin.1, hmin.2⟩]
      simp only [Bool.true_and, Bool.and_true, List.all_eq_true]
      intro u hu
      obtain ⟨hut, hus⟩ := hchain u hu
      obtain ⟨hany, hui, huin, hun⟩ := hall u hut
      rw [hany, hui, hus, huin, hun]
      simp

theorem Inv.checkTreebin (h : Inv m cs ks) (hsegs : ∀ r ∈ m.segs, r.size ≤ 2 ^ 40) (i : ℕ) :
    m.checkTreebin i = true := by
  have ht := h.treesOrdered hsegs
  have htree : m.checkTree (m.treebins i) = true :=
    ht.checkTree (fun u hu => h.treeChunk hu) (ht.sorted i)
      (fun _ _ _ _ e he => absurd he (Nat.not_lt_zero e)) fun u hu => hu
  unfold MState.checkTreebin
  rw [htree, Bool.or_true, Bool.and_true, BitMap.isMarked_eq]
  rcases hleaf : (m.treebins i).isLeaf with _ | _
  · rfl
  · have hbit : m.treemap.getLsbD i = false :=
      Bool.eq_false_iff.mpr fun hset => (h.bins.treemap i).mp hset (Trie.isLeaf_iff.mp hleaf)
    rw [hbit]
    rfl

/-! ## Every run -/

/-- **The debugging code finds nothing**, in any state that a run reaches. -/
theorem heap_checks {as : List Call} (hr : (heap x).Run (Legal x) as p)
    (hpage : x.page_size = 4096) (hsegs : ∀ r ∈ p.state.segs, r.size ≤ 2 ^ 40) :
    (∀ b ∈ p.live, p.state.checkInuseChunk x (mem2chunk b.mem) = true) ∧
      (∀ j, ∀ y ∈ p.state.members j, p.state.checkFreeChunk y = true) ∧
      p.state.checkDv = true ∧ ∀ i, p.state.checkTreebin i = true := by
  obtain ⟨-, cs, ks, hi, hl⟩ := Good.of_run hr
  refine ⟨fun b hb => ?_, fun j y hy => ?_, hi.checkDv, hi.checkTreebin hsegs⟩
  · obtain ⟨s, hs, -⟩ := hl.sound b hb
    rcases hs with ⟨q, hmem⟩ | ⟨k, hk, hka, -⟩
    · exact hi.checkInuseChunk hmem rfl
    · rw [← hka]
      exact hi.checkInuseChunk_mapping hpage hk
  · exact hi.checkFreeChunk (hi.of_mem_bin hy).1 rfl

/-- A chunk between two blocks has been freed. -/
theorem heap_checks_free : ∃ as p, (heap .initial).Run (Legal .initial) as p ∧
    p.live = [⟨1049664, 40⟩] ∧ 1048576 ∈ p.state.members (.tree 4) ∧
    (∀ b ∈ p.live, p.state.checkInuseChunk .initial (mem2chunk b.mem) = true) ∧
      (∀ j, ∀ y ∈ p.state.members j, p.state.checkFreeChunk y = true) ∧
      p.state.checkDv = true ∧ ∀ i, p.state.checkTreebin i = true := by
  have hone := (run_zero .initial).snoc (Legal.malloc_first 1060 (by decide)) (heap_next _ rfl)
  have htwo := hone.snoc (Legal.malloc_none 40 true) (heap_next _ (by decide +kernel))
  have hthree := htwo.snoc
    (Legal.free_live 1048592 ⟨true, true, fun _ => true⟩ (by decide +kernel))
    (heap_next _ (by decide +kernel))
  exact ⟨_, _, hthree, by decide +kernel, by decide +kernel,
    heap_checks hthree rfl (by decide +kernel)⟩

end Porpoise.Dlmalloc
