import Porpoise.Dlmalloc.SysAlloc

/-!
# What `dlmalloc` does

Each way to serve a request finds a free chunk that is large enough, and using it keeps the
invariant: the program has one chunk more.

* `Best`: the best fit among some chunks; `leftLoop_best` and `searchLoop_cases` say that the
  loops over trees find it on their ways.
* `Inv.tmallocLarge`, `Inv.tmallocSmall`, `Inv.exactFit`, `Inv.nextFit`: the bins.
* `smallRequest_cases`: the order of the ways, and what is known on each.
* `Inv.smallRequest`, `Inv.largeRequest`: a request is served, or nothing has changed.
* `Inv.dlmalloc`: one call.
-/

namespace Porpoise.Dlmalloc

open Porpoise.Lib Chunk

variable {m : MState} {cs : List Chunk} {c : Chunk} {ks : List Mapping} {nb s p i v r x : ℕ}
  {size : ℕ → ℕ} {l : List ℕ} {q : ℕ × ℕ}

/-! ## The loops -/

theorem wsub_of_le {a b : ℕ} (h : b ≤ a) (ha : a < 2 ^ 64) : wsub a b = a - b := by
  unfold wsub
  omega

/-- A difference below that from 0 does not wrap around. -/
theorem le_of_wsub_lt {a b : ℕ} (h : wsub a b < wsub 0 b) (ha : a < 2 ^ 64) (hb : b < 2 ^ 64) :
    b ≤ a := by
  unfold wsub at h
  omega

/-- `q` is the best of `v`, with `r` bytes too many, and the chunks in `l`: the chunk and its
excess. -/
structure Best (size : ℕ → ℕ) (nb : ℕ) (l : List ℕ) (v r : ℕ) (q : ℕ × ℕ) : Prop where
  mem : q = (v, r) ∨ (q.1 ∈ l ∧ q.2 = wsub (size q.1) nb ∧ q.2 < r)
  le : q.2 ≤ r
  le_of_mem : ∀ x ∈ l, q.2 ≤ wsub (size x) nb

theorem Best.nil : Best size nb [] v r (v, r) :=
  ⟨Or.inl rfl, Nat.le_refl _, fun _ hx => absurd hx List.not_mem_nil⟩

/-- One chunk is looked at before the others. -/
theorem Best.cons
    (h : Best size nb l (if wsub (size x) nb < r then x else v)
      (if wsub (size x) nb < r then wsub (size x) nb else r) q) :
    Best size nb (x :: l) v r q := by
  by_cases hx : wsub (size x) nb < r
  · rw [if_pos hx, if_pos hx] at h
    refine ⟨Or.inr ?_, Nat.le_trans h.le (Nat.le_of_lt hx), fun y hy => ?_⟩
    · rcases h.mem with rfl | ⟨hmem, heq, hlt⟩
      · exact ⟨List.mem_cons_self, rfl, hx⟩
      · exact ⟨List.mem_cons_of_mem _ hmem, heq, Nat.lt_trans hlt hx⟩
    · rcases List.mem_cons.mp hy with rfl | hy
      · exact h.le
      · exact h.le_of_mem y hy
  · rw [if_neg hx, if_neg hx] at h
    refine ⟨?_, h.le, fun y hy => ?_⟩
    · rcases h.mem with heq | ⟨hmem, heq, hlt⟩
      · exact Or.inl heq
      · exact Or.inr ⟨List.mem_cons_of_mem _ hmem, heq, hlt⟩
    · rcases List.mem_cons.mp hy with rfl | hy
      · exact Nat.le_trans h.le (Nat.le_of_not_lt hx)
      · exact h.le_of_mem y hy

/-- The loop to the leftmost leaf finds the best on its way. -/
theorem leftLoop_best (size : ℕ → ℕ) (nb : ℕ) (t : Trie ℕ) (v r : ℕ) :
    Best size nb t.leftPath v r (MState.leftLoop size nb t v r) := by
  induction t generalizing v r with
  | leaf => exact .nil
  | node x ring l r' ihl ihr =>
      refine Best.cons ?_
      unfold MState.leftLoop
      rcases l.isLeaf with _ | _
      · exact ihl _ _
      · exact ihr _ _

/-- The root is the first on the way. -/
theorem Best.root {size : ℕ → ℕ} {t : ℕ} {l r' : Trie ℕ} {q : ℕ × ℕ} (ring : List ℕ)
    (h : Best size nb (if l.isLeaf then r' else l).leftPath t (wsub (size t) nb) q) :
    q.1 ∈ (Trie.node t ring l r').leftPath ∧ q.2 = wsub (size q.1) nb ∧
      ∀ y ∈ (Trie.node t ring l r').leftPath, q.2 ≤ wsub (size y) nb := by
  rw [Trie.leftPath_node]
  refine ⟨?_, ?_, fun y hy => ?_⟩
  · rcases h.mem with rfl | ⟨hmem, -, -⟩
    · exact List.mem_cons_self
    · exact List.mem_cons_of_mem _ hmem
  · rcases h.mem with rfl | ⟨-, heq, -⟩
    · rfl
    · exact heq
  · rcases List.mem_cons.mp hy with rfl | hy
    · exact h.le
    · exact h.le_of_mem y hy

/-- The loop on the way of a size ends with the best on that way and the tree that is left, or
it stops at an exact fit. -/
theorem searchLoop_cases (size : ℕ → ℕ) (nb : ℕ) (K : ℕ → Bool) (v r : ℕ) (rst t : Trie ℕ) :
    (∃ q, MState.searchLoop size nb K v r rst t = (q.1, q.2, (Trie.seek K rst t).2) ∧
        Best size nb (Trie.seek K rst t).1 v r q) ∨
      ∃ x ∈ t.members, ∃ u : Trie ℕ, MState.searchLoop size nb K v r rst t = (x, 0, u) ∧
        wsub (size x) nb = 0 ∧ 0 < r ∧ u.isLeaf = false ∧ ∀ y ∈ u.members, y ∈ t.members := by
  induction t generalizing K v r rst with
  | leaf => exact Or.inl ⟨(v, r), rfl, .nil⟩
  | node x ring l r' ihl ihr =>
      unfold MState.searchLoop
      dsimp only
      split
      · next hx =>
        refine Or.inr ⟨x, Trie.mem_node.mpr (Or.inl rfl), _, ?_, hx.2, ?_, rfl, fun _ hy => hy⟩
        · rw [hx.2]
        · omega
      · next hx =>
        have hpos : 0 < (if wsub (size x) nb < r then wsub (size x) nb else r) → 0 < r := by
          split <;> omega
        rw [Trie.seek_node]
        rcases K 0 with _ | _
        · rcases ihl (fun d => K (d + 1)) (if wsub (size x) nb < r then x else v)
            (if wsub (size x) nb < r then wsub (size x) nb else r)
            (if r'.isLeaf then rst else r') with ⟨q, heq, hbest⟩ | ⟨y, hy, u, heq, h0, hr, hu, hsub⟩
          · exact Or.inl ⟨q, heq, hbest.cons⟩
          · exact Or.inr ⟨y, Trie.mem_node.mpr (Or.inr (Or.inr (Or.inl hy))), u, heq, h0, hpos hr,
              hu, fun z hz => Trie.mem_node.mpr (Or.inr (Or.inr (Or.inl (hsub z hz))))⟩
        · rcases ihr (fun d => K (d + 1)) (if wsub (size x) nb < r then x else v)
            (if wsub (size x) nb < r then wsub (size x) nb else r) rst with
            ⟨q, heq, hbest⟩ | ⟨y, hy, u, heq, h0, hr, hu, hsub⟩
          · exact Or.inl ⟨q, heq, hbest.cons⟩
          · exact Or.inr ⟨y, Trie.mem_node.mpr (Or.inr (Or.inr (Or.inr hy))), u, heq, h0, hpos hr,
              hu, fun z hz => Trie.mem_node.mpr (Or.inr (Or.inr (Or.inr (hsub z hz))))⟩

/-- Nothing yet, or a chunk of a tree and its excess. -/
def Found (m : MState) (nb v r : ℕ) : Prop :=
  (v = 0 ∧ r = wsub 0 nb) ∨
    ∃ i, v ∈ (m.treebins i).members ∧ r = wsub (m.chunksize v) nb ∧ r < wsub 0 nb

theorem Found.of_best (h : Found m nb v r) (hbest : Best m.chunksize nb l v r q)
    (hl : ∀ y ∈ l, y ∈ (m.treebins i).members) : Found m nb q.1 q.2 := by
  rcases hbest.mem with rfl | ⟨hmem, heq, hlt⟩
  · exact h
  · refine Or.inr ⟨i, hl _ hmem, heq, ?_⟩
    rcases h with ⟨-, hr⟩ | ⟨-, -, -, hr⟩
    · rwa [hr] at hlt
    · exact Nat.lt_trans hlt hr

/-- What `tmalloc_large` finds. -/
theorem findLarge_found (m : MState) (nb : ℕ) :
    Found m nb (m.findLarge nb).1 (m.findLarge nb).2 := by
  have hstart : Found m nb 0 (wsub 0 nb) := Or.inl ⟨rfl, rfl⟩
  have hsearch : ∃ v r t, MState.searchLoop m.chunksize nb (treeBits (computeTreeIndex nb) nb) 0
        (wsub 0 nb) .leaf (m.treebins (computeTreeIndex nb)) = (v, r, t) ∧ Found m nb v r ∧
      ∀ y ∈ t.members, y ∈ (m.treebins (computeTreeIndex nb)).members := by
    obtain ⟨hpath, hrst⟩ := Trie.seek_subset (treeBits (computeTreeIndex nb) nb) .leaf
      (m.treebins (computeTreeIndex nb))
    rcases searchLoop_cases m.chunksize nb (treeBits (computeTreeIndex nb) nb) 0 (wsub 0 nb) .leaf
      (m.treebins (computeTreeIndex nb)) with ⟨q, heq, hbest⟩ | ⟨x, hx, u, heq, h0, hr, -, hsub⟩
    · refine ⟨_, _, _, heq, hstart.of_best hbest hpath, fun y hy => ?_⟩
      exact (hrst y hy).resolve_right List.not_mem_nil
    · exact ⟨_, _, _, heq, Or.inr ⟨_, hx, h0.symm, hr⟩, hsub⟩
  obtain ⟨v, r, t, heq, hfound, hsub⟩ := hsearch
  unfold MState.findLarge
  dsimp only
  rw [heq]
  dsimp only
  split
  · split
    · exact hfound.of_best (leftLoop_best ..) Trie.leftPath_subset
    · exact hfound.of_best (i := 0) (leftLoop_best ..) fun y hy => absurd hy List.not_mem_nil
  · exact hfound.of_best (leftLoop_best ..) fun y hy => hsub y (Trie.leftPath_subset y hy)

/-! ## Free chunks -/

/-- A chunk of a tree is free and large, and `chunksize` is its size. -/
theorem Inv.of_mem_tree (h : Inv m cs ks) (hx : x ∈ (m.treebins i).members) :
    ⟨x, m.chunksize x, true, .free⟩ ∈ cs ∧ x ≠ m.dv ∧ 256 ≤ m.chunksize x ∧
      m.chunksize x < 2 ^ 47 ∧ computeTreeIndex (m.chunksize x) = i := by
  obtain ⟨s, ⟨hne, hmem⟩, hs, hidx⟩ := h.bins.of_mem_tree hx
  have hsize : m.chunksize x = s := h.layout.chunksize_eq hmem
  have hlt : x + s < 2 ^ 47 := h.layout.fin_lt hmem
  rw [hsize]
  refine ⟨hmem, hne, ?_, by omega, hidx⟩
  by_contra hsmall
  rw [isSmall_iff.mpr (Nat.lt_of_not_le hsmall)] at hs
  cases hs

/-- **A chunk of a tree serves a request.** -/
theorem Inv.takeTreeChunk {keep : MState → ℕ → ℕ → MState} (h : Inv m cs ks)
    (hnb : minChunkSize ≤ nb) (hal : 16 ∣ nb) (hv : v ∈ (m.treebins i).members)
    (hle : nb ≤ m.chunksize v)
    (hkeep : ∀ m' cs' r, Pending m' cs' ks r →
      ⟨r, m.chunksize v - nb, true, .free⟩ ∈ cs' → m'.dv = m.dv → m'.dvsize = m.dvsize →
      Inv (keep m' r (m.chunksize v - nb)) cs' ks) :
    ∃ r, m.takeTreeChunk keep v nb (m.chunksize v - nb) = some r ∧ Allocates cs ks nb r.1 r.2 := by
  obtain ⟨hmem, hne, hlarge, -, -⟩ := h.of_mem_tree hv
  have hok := h.layout.okAddress hmem
  have hpos : 0 < nb := Nat.lt_of_lt_of_le (by decide) hnb
  have hbins := h.bins.unlinkLargeChunk (fun _ _ hy => h.layout.least_le hy.2) ⟨hne, hmem⟩
    (fun s' hF => (h.layout.size_unique hmem hF.2).1)
    fun hs => absurd (isSmall_iff.mp hs) (by omega)
  have hpend := Pending.of_unlink h hbins hne
  obtain ⟨pre, post, rfl⟩ := cut hmem
  unfold MState.takeTreeChunk
  rw [if_pos ⟨hok, by omega⟩]
  refine ⟨_, rfl, ?_⟩
  exact Pending.carve (v := ⟨v, m.chunksize v, true, .free⟩) hpend rfl
    (show m.chunksize v = nb + (m.chunksize v - nb) by omega) hnb hal hkeep

/-- **`tmalloc_large`** serves a request or finds nothing. -/
theorem Inv.tmallocLarge (h : Inv m cs ks) (hnb : minChunkSize ≤ nb) (hal : 16 ∣ nb)
    (hlt : nb < 2 ^ 64) :
    m.tmallocLarge nb = some (0, m) ∨
      ∃ r, m.tmallocLarge nb = some r ∧ Allocates cs ks nb r.1 r.2 := by
  unfold MState.tmallocLarge
  dsimp only
  split
  · next hv =>
    refine Or.inr ?_
    rcases findLarge_found m nb with ⟨h0, -⟩ | ⟨i, hmem, heq, hr⟩
    · exact absurd h0 hv.1
    · obtain ⟨-, -, -, hsize, -⟩ := h.of_mem_tree hmem
      have hle : nb ≤ m.chunksize (m.findLarge nb).1 :=
        le_of_wsub_lt (by rw [← heq]; exact hr) (by omega) hlt
      rw [heq, wsub_of_le hle (by omega)]
      exact h.takeTreeChunk hnb hal hmem hle fun m' cs' r hp hr _ _ => hp.insertChunk hr
  · exact Or.inl rfl

/-- **`tmalloc_small`** serves a request when there is a tree. -/
theorem Inv.tmallocSmall (h : Inv m cs ks) (hnb : minChunkSize ≤ nb) (hal : 16 ∣ nb)
    (hs : nb < 256) (hdv : m.dvsize < nb) (hmap : m.treemap ≠ 0) :
    ∃ r, m.tmallocSmall nb = some r ∧ Allocates cs ks nb r.1 r.2 := by
  unfold MState.tmallocSmall
  have hbit := (h.bins.treemap _).mp (BitMap.ctz_leastBit hmap).1
  generalize (BitMap.leastBit m.treemap).ctz.toNat = i at hbit ⊢
  rcases ht : m.treebins i with _ | ⟨t, ring, l, r⟩
  · exact absurd ht hbit
  · dsimp only
    have hbest := leftLoop_best m.chunksize nb (if l.isLeaf then r else l) t
      (wsub (m.chunksize t) nb)
    generalize MState.leftLoop m.chunksize nb (if l.isLeaf then r else l) t
      (wsub (m.chunksize t) nb) = q at hbest ⊢
    obtain ⟨hpath, heq, -⟩ := hbest.root ring
    rw [← ht] at hpath
    have hmem := Trie.leftPath_subset _ hpath
    obtain ⟨-, -, hlarge, hsize, -⟩ := h.of_mem_tree hmem
    rw [heq, wsub_of_le (by omega) (by omega)]
    refine h.takeTreeChunk hnb hal hmem (by omega) fun m' cs' r hp hr _ hdvsize => ?_
    exact hp.replaceDv hr (isSmall_iff.mpr (by omega))

/-! ## Small bins -/

/-- A chunk of a small bin is free, and its size is that of the bin. -/
theorem Inv.of_mem_small (h : Inv m cs ks) (hx : x ∈ m.smallbins i) :
    ⟨x, smallIndex2size i, true, .free⟩ ∈ cs ∧ x ≠ m.dv ∧ isSmall (smallIndex2size i) = true ∧
      smallIndex (smallIndex2size i) = i := by
  obtain ⟨s, ⟨hne, hmem⟩, hs, hidx⟩ := h.bins.of_mem_small hx
  have hal := ((h.layout.arena.shape _ hmem).aligned nofun).2
  have hsize : smallIndex2size i = s := by
    have hal' : 16 ∣ s := hal
    rw [← hidx]
    unfold smallIndex2size smallIndex smallBinShift
    rw [Nat.shiftLeft_eq, Nat.shiftRight_eq_div_pow]
    omega
  rw [hsize]
  exact ⟨hmem, hne, hs, hidx⟩

theorem le_smallIndex2size (hal : 16 ∣ nb) (hi : smallIndex nb ≤ i) : nb ≤ smallIndex2size i := by
  unfold smallIndex smallBinShift at hi
  unfold smallIndex2size smallBinShift
  rw [Nat.shiftRight_eq_div_pow] at hi
  rw [Nat.shiftLeft_eq]
  omega

/-- **The first chunk of a small bin serves a request.** -/
theorem Inv.takeSmallChunk (keep : MState → ℕ → ℕ → MState) (h : Inv m cs ks)
    (hnb : minChunkSize ≤ nb) (hal : 16 ∣ nb) (hl : m.smallbins i = p :: l)
    (hi : smallIndex nb ≤ i)
    (hkeep : ∀ m' cs' r, Pending m' cs' ks r →
      ⟨r, smallIndex2size i - nb, true, .free⟩ ∈ cs' → m'.dv = m.dv → m'.dvsize = m.dvsize →
      Inv (keep m' r (smallIndex2size i - nb)) cs' ks) :
    Allocates cs ks nb (chunk2mem p) (MState.carve keep
      { m with toBins := m.unlinkFirstSmallChunk m.least_addr i } p nb
        (smallIndex2size i - nb)) := by
  have hp : p ∈ m.smallbins i := by
    rw [hl]
    exact List.mem_cons_self
  obtain ⟨hmem, hne, hsmall, hidx⟩ := h.of_mem_small hp
  have hle := le_smallIndex2size hal hi
  have hbins := h.bins.unlinkSmallChunk (fun _ _ hy => h.layout.least_le hy.2) ⟨hne, hmem⟩
    (fun s' hF => (h.layout.size_unique hmem hF.2).1) hsmall
  rw [← Binned.unlinkFirstSmallChunk_eq hidx hl] at hbins
  have hpend := Pending.of_unlink h hbins hne
  obtain ⟨pre, post, rfl⟩ := cut hmem
  exact Pending.carve (v := ⟨p, smallIndex2size i, true, .free⟩) hpend rfl
    (show smallIndex2size i = nb + (smallIndex2size i - nb) by omega) hnb hal hkeep

/-- The first chunk of a small bin that is marked. -/
theorem Inv.head_small (h : Inv m cs ks) (hbit : m.smallmap.getLsbD i = true) :
    ∃ p l, m.smallbins i = p :: l ∧ p ∈ m.smallbins i := by
  obtain ⟨p, l, hl⟩ := List.exists_cons_of_ne_nil ((h.bins.smallmap i).mp hbit)
  refine ⟨p, l, hl, ?_⟩
  rw [hl]
  exact List.mem_cons_self

/-- **The exact fit** serves a request. -/
theorem Inv.exactFit (h : Inv m cs ks) (hnb : minChunkSize ≤ nb) (hal : 16 ∣ nb)
    (hbit : m.smallmap.getLsbD i = true) (hi : smallIndex nb ≤ i) (hi' : i ≤ smallIndex nb + 1) :
    ∃ r, m.exactFit i = some r ∧ Allocates cs ks nb r.1 r.2 := by
  obtain ⟨p, l, hl, -⟩ := h.head_small hbit
  have hle := le_smallIndex2size hal hi
  have hlt : smallIndex2size i - nb < minChunkSize := by
    unfold smallIndex smallBinShift at hi'
    unfold smallIndex2size smallBinShift minChunkSize
    rw [Nat.shiftRight_eq_div_pow] at hi'
    rw [Nat.shiftLeft_eq]
    omega
  have halloc := h.takeSmallChunk MState.insertChunk hnb hal hl hi
    fun m' cs' r hp hr _ _ => hp.insertChunk hr
  unfold MState.carve at halloc
  rw [if_pos hlt, Nat.sub_add_cancel hle] at halloc
  unfold MState.exactFit
  rw [hl]
  exact ⟨_, rfl, halloc⟩

/-- **The next bin** serves a request. -/
theorem Inv.nextFit (h : Inv m cs ks) (hnb : minChunkSize ≤ nb) (hal : 16 ∣ nb)
    (hs : nb < 256) (hdv : m.dvsize < nb) (hbit : m.smallmap.getLsbD i = true)
    (hi : smallIndex nb ≤ i) : ∃ r, m.nextFit i nb = some r ∧ Allocates cs ks nb r.1 r.2 := by
  obtain ⟨p, l, hl, -⟩ := h.head_small hbit
  have halloc := h.takeSmallChunk MState.replaceDv hnb hal hl hi
    fun m' cs' r hp hr _ hdvsize => hp.replaceDv hr (isSmall_iff.mpr (by omega))
  unfold MState.nextFit
  rw [hl]
  exact ⟨_, rfl, halloc⟩

/-! ## The order of the ways -/

variable {x' : MParams} {g : Grant} {bytes : ℕ}

/-- **The ways that are left** serve a request or change nothing. -/
theorem Inv.fallback (h : Inv m cs ks) (hnb : minChunkSize ≤ nb) (hal : 16 ∣ nb)
    (hg : g.Ok x' m ks nb) : Served m cs ks nb (m.fallback x' g nb) := by
  unfold MState.fallback
  split
  · next hle => exact Or.inr (h.fromDv hnb hal hle)
  · split
    · next hlt => exact Or.inr (h.fromTop hnb hal hlt)
    · exact h.sysAlloc hnb hal hg

/-- A chunk of a tree, or the ways that are left. -/
theorem Served.orElse {o : Option (ℕ × MState)} {q : ℕ × MState}
    (h : o = some (0, m) ∨ ∃ r, o = some r ∧ Allocates cs ks nb r.1 r.2)
    (hq : Served m cs ks nb q) :
    ∃ r, (o.map fun r => if r.1 ≠ 0 then r else q) = some r ∧ Served m cs ks nb r := by
  rcases h with rfl | ⟨r, rfl, hr⟩
  · exact ⟨q, rfl, hq⟩
  · have hmem : r.1 ≠ 0 := by
      obtain ⟨-, -, -, -, -, hlt, -⟩ := hr
      omega
    refine ⟨r, ?_, Or.inr hr⟩
    rw [Option.map_some, if_pos hmem]

/-- The first small bin that is marked, from the index of the request on. -/
structure MState.FirstMarked (m : MState) (nb i : ℕ) : Prop where
  marked : m.smallmap.getLsbD i = true
  le : smallIndex nb ≤ i
  least : ∀ j, smallIndex nb ≤ j → m.smallmap.getLsbD j = true → i ≤ j

/-- **What a small request does:** the two bins that fit without a remainder, the designated
victim, the next bin, the smallest chunk of the trees, and the ways that are left. -/
theorem smallRequest_cases (x' : MParams) (g : Grant) (m : MState) (hs : nb < 256) :
    (∃ i, m.FirstMarked nb i ∧ i ≤ smallIndex nb + 1 ∧
        m.smallRequest x' g nb = m.exactFit i) ∨
      (nb ≤ m.dvsize ∧ m.smallRequest x' g nb = some (m.fallback x' g nb)) ∨
      m.dvsize < nb ∧
        ((∃ i, m.FirstMarked nb i ∧ m.smallRequest x' g nb = m.nextFit i nb) ∨
          m.smallmap >>> smallIndex nb = 0 ∧
            (m.treemap ≠ 0 ∧ m.smallRequest x' g nb =
                (m.tmallocSmall nb).map (fun r => if r.1 ≠ 0 then r else m.fallback x' g nb) ∨
              m.treemap = 0 ∧ m.smallRequest x' g nb = some (m.fallback x' g nb))) := by
  have hidx : smallIndex nb < 32 := smallIndex_lt (isSmall_iff.mpr hs)
  unfold MState.smallRequest
  dsimp only
  split
  · next hbits =>
    obtain ⟨hbit, hle, hleast⟩ := BitMap.getLsbD_not_and_one hbits
    generalize (~~~(m.smallmap >>> smallIndex nb) &&& 1#32).toNat = o at hbit hle hleast ⊢
    rw [BitVec.getLsbD_ushiftRight] at hbit
    refine Or.inl ⟨smallIndex nb + o, ⟨hbit, Nat.le_add_right _ _, fun j hj hset => ?_⟩,
      Nat.add_le_add_left hle _, rfl⟩
    by_contra hlt
    have hfalse := hleast (j - smallIndex nb) (by omega)
    rw [BitVec.getLsbD_ushiftRight, Nat.add_sub_cancel' hj, hset] at hfalse
    cases hfalse
  · next hbits =>
    have hno : m.smallmap >>> smallIndex nb &&& 3#32 = 0#32 := not_not.mp hbits
    split
    · next hdv =>
      refine Or.inr (Or.inr ⟨hdv, ?_⟩)
      split
      · next hne =>
        obtain ⟨hbit, hlt, hleast⟩ := BitMap.exists_above hidx hne hno
        refine Or.inl ⟨_, ⟨hbit, Nat.le_of_lt hlt, fun j hj hset => ?_⟩, rfl⟩
        rcases Nat.eq_or_lt_of_le hj with rfl | hj
        · -- The bin of the request itself is empty.
          have hzero := BitMap.eq_zero_iff.mp hno 0
          rw [BitMap.getLsbD_and_three, BitVec.getLsbD_ushiftRight, Nat.add_zero, hset] at hzero
          cases hzero
        · exact hleast j hj hset
      · next hzero =>
        refine Or.inr ⟨not_not.mp hzero, ?_⟩
        split
        · next hmap => exact Or.inl ⟨hmap, rfl⟩
        · next hmap => exact Or.inr ⟨not_not.mp hmap, rfl⟩
    · next hdv => exact Or.inr (Or.inl ⟨Nat.le_of_not_lt hdv, rfl⟩)

/-- **A small request.** -/
theorem Inv.smallRequest (h : Inv m cs ks) (hnb : minChunkSize ≤ nb) (hal : 16 ∣ nb)
    (hs : nb < 256) (hg : g.Ok x' m ks nb) :
    ∃ q, m.smallRequest x' g nb = some q ∧ Served m cs ks nb q := by
  rcases smallRequest_cases x' g m hs with ⟨i, hf, hle, heq⟩ | ⟨-, heq⟩ |
    ⟨hdv, ⟨i, hf, heq⟩ | ⟨-, ⟨hmap, heq⟩ | ⟨-, heq⟩⟩⟩
  · rw [heq]
    obtain ⟨q, hq, halloc⟩ := h.exactFit hnb hal hf.marked hf.le hle
    exact ⟨q, hq, Or.inr halloc⟩
  · exact ⟨_, heq, h.fallback hnb hal hg⟩
  · rw [heq]
    obtain ⟨q, hq, halloc⟩ := h.nextFit hnb hal hs hdv hf.marked hf.le
    exact ⟨q, hq, Or.inr halloc⟩
  · rw [heq]
    exact Served.orElse (Or.inr (h.tmallocSmall hnb hal hs hdv hmap)) (h.fallback hnb hal hg)
  · exact ⟨_, heq, h.fallback hnb hal hg⟩

/-- **A large request.** -/
theorem Inv.largeRequest (h : Inv m cs ks) (hnb : minChunkSize ≤ nb) (hal : 16 ∣ nb)
    (hlt : nb < 2 ^ 64) (hg : g.Ok x' m ks nb) :
    ∃ q, m.largeRequest x' g nb = some q ∧ Served m cs ks nb q := by
  unfold MState.largeRequest
  split
  · exact Served.orElse (h.tmallocLarge hnb hal hlt) (h.fallback hnb hal hg)
  · exact ⟨_, rfl, h.fallback hnb hal hg⟩

/-- A request that is too large is not served. -/
theorem Inv.fallback_maxSize (h : Inv m cs ks) (hg : g.Ok x' m ks maxSize) :
    m.fallback x' g maxSize = (0, m) := by
  have hmax : maxSize = 2 ^ 64 - 1 := rfl
  have hdv : m.dvsize < 2 ^ 47 := by
    rcases h.victim with ⟨-, hz⟩ | hv
    · omega
    · have hfin : m.dv + m.dvsize < 2 ^ 47 := h.layout.fin_lt hv
      omega
  have htop : m.topsize < 2 ^ 47 := by
    rcases h.topped with ⟨-, -, hz⟩ | hlast
    · omega
    · have hfin : m.top + m.topsize < 2 ^ 47 := h.layout.fin_lt (List.mem_of_getLast? hlast)
      omega
  unfold MState.fallback
  rw [if_neg (by omega), if_neg (by omega)]
  have hgran : granularityAlign x' ((maxSize + sysAllocPadding) % 2 ^ 64) ≤ maxSize := by
    unfold granularityAlign
    omega
  have hdirect : m.mmapAlloc x' g.direct maxSize = none := by
    unfold MState.mmapAlloc
    dsimp only
    split
    · rfl
    split
    · next hlt =>
      rcases hd : g.direct with _ | mm
      · rfl
      · obtain ⟨-, hle, -⟩ := hg.direct mm hd
        unfold mmapSize at hle
        omega
    · rfl
  unfold MState.sysAlloc
  rw [hdirect, ite_self]
  dsimp only
  rw [if_pos (Or.inl hgran)]

/-- The size of the chunk for a request. -/
def requestSize (bytes : ℕ) : ℕ :=
  if bytes ≤ maxSmallRequest then if bytes < minRequest then minChunkSize else padRequest bytes
  else if maxRequest ≤ bytes then maxSize
  else padRequest bytes

/-- The chunk is large enough, and a request that can be served is for a good one. -/
theorem requestSize_spec (h : bytes < maxRequest) :
    minChunkSize ≤ requestSize bytes ∧ 16 ∣ requestSize bytes ∧ bytes + 8 ≤ requestSize bytes ∧
      requestSize bytes < 2 ^ 64 ∧ (bytes ≤ maxSmallRequest → requestSize bytes < 256) := by
  unfold requestSize
  unfold maxRequest at h
  unfold maxSmallRequest minRequest minChunkSize maxRequest padRequest
  split
  · split <;> omega
  · rw [if_neg (by omega)]
    omega

/-- **`dlmalloc`** never aborts; it serves a request with a chunk that is large enough, or it
changes nothing but the flag. -/
theorem Inv.dlmalloc (h : Inv m cs ks) (hg : g.Ok x' m ks (requestSize bytes)) :
    ∃ q, m.dlmalloc x' g bytes = some q ∧
      ((∃ closed, q = (0, m.closeContiguous closed)) ∨
        (bytes < maxRequest ∧ Allocates cs ks (requestSize bytes) q.1 q.2)) := by
  unfold MState.dlmalloc
  by_cases hmax : maxRequest ≤ bytes
  · have hbig : ¬ bytes ≤ maxSmallRequest := by
      unfold maxRequest at hmax
      unfold maxSmallRequest
      omega
    have hsize : requestSize bytes = maxSize := by
      unfold requestSize
      rw [if_neg hbig, if_pos hmax]
    rw [hsize] at hg
    rw [if_neg hbig, if_pos hmax]
    exact ⟨_, rfl, Or.inl ⟨false, by rw [h.fallback_maxSize hg, MState.closeContiguous_false]⟩⟩
  · have hlt : bytes < maxRequest := Nat.lt_of_not_le hmax
    obtain ⟨hnb, hal, -, hlt64, hsmall⟩ := requestSize_spec hlt
    have hserved : ∀ {o : Option (ℕ × MState)},
        (∃ q, o = some q ∧ Served m cs ks (requestSize bytes) q) → ∃ q, o = some q ∧
          ((∃ closed, q = (0, m.closeContiguous closed)) ∨
            (bytes < maxRequest ∧ Allocates cs ks (requestSize bytes) q.1 q.2)) := by
      rintro o ⟨q, rfl, hq⟩
      exact ⟨q, rfl, hq.imp_right fun ha => ⟨hlt, ha⟩⟩
    split
    · next hs =>
      have hsize : requestSize bytes =
          if bytes < minRequest then minChunkSize else padRequest bytes := if_pos hs
      rw [← hsize]
      exact hserved (h.smallRequest hnb hal (hsmall hs) hg)
    · next hs =>
      have hsize : requestSize bytes = padRequest bytes := by
        unfold requestSize
        rw [if_neg hs, if_neg hmax]
      rw [← hsize]
      exact hserved (h.largeRequest hnb hal hlt64 hg)

end Porpoise.Dlmalloc
