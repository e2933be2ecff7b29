import Mathlib.Logic.Function.Basic
import Porpoise.Lib.BitMap
import Porpoise.Lib.Trie

/-!
# The bins of the allocator

Free chunks are kept in bins by size: small ones in lists of one size, larger ones in digital
trees of a range of sizes, and two bit maps tell which bins are not empty. What the link fields
of the free chunks form is a list or a tree here: a list from `fd` of the bin on, a ring from
the node on that has a parent. Addresses and sizes are numbers, and a null pointer is 0.

* `insertChunk`, `unlinkChunk`: a chunk enters its bin or leaves it.
* `Binned`: the bins hold exactly these chunks, each in the bin of its size.
* `Binned.insertChunk`, `Binned.unlinkChunk`: both keep this.
-/

namespace Porpoise.Dlmalloc

open Porpoise.Lib

/-! ## Indexing bins -/

def nSmallBins : ℕ := 32
def nTreeBins : ℕ := 32
def smallBinShift : ℕ := 3
def treeBinShift : ℕ := 8

/-- `MIN_CHUNK_SIZE`. -/
def minChunkSize : ℕ := 32

def isSmall (s : ℕ) : Bool := s >>> smallBinShift < nSmallBins

def smallIndex (s : ℕ) : ℕ := s >>> smallBinShift

def smallIndex2size (i : ℕ) : ℕ := i <<< smallBinShift

/-- `compute_tree_index`. `X` is an `unsigned int`: sizes from `2 ^ 40` on are cut. -/
def computeTreeIndex (s : ℕ) : ℕ :=
  let X := (s >>> treeBinShift) % 2 ^ 32
  if X = 0 then 0
  else if X > 0xFFFF then nTreeBins - 1
  else
    let K := Nat.log2 X
    (K <<< 1) + ((s >>> (K + (treeBinShift - 1))) &&& 1)

/-- `leftshift_for_tree_index`. -/
def leftshiftForTreeIndex (i : ℕ) : ℕ :=
  if i = nTreeBins - 1 then 0 else 63 - ((i >>> 1) + treeBinShift - 2)

/-- The top bit of `S << leftshift`, `d` levels down the tree. -/
def treeBits (i s d : ℕ) : Bool :=
  ((BitVec.ofNat 64 s <<< leftshiftForTreeIndex i) <<< d).msb

/-! ## Checks

Before a link is changed, `RTCHECK` asks of its address whether it may be one of the heap
(`ok_address`), and whether the link back agrees, as it does in a list or a ring. -/

/-- `ok_address`. -/
def okAddress (least a : ℕ) : Bool := least ≤ a

/-- `&T->child[b]`. -/
def childSlot (t : ℕ) (b : Bool) : ℕ := if b then t + 40 else t + 32

/-- What `unlink_small_chunk` asks of: `P->fd` and `P->bk`, unless they are the bin. -/
def neighbours (p : ℕ) : List ℕ → List ℕ
  | x :: y :: l =>
      if x = p then [y] else if y = p then x :: l.head?.toList else neighbours p (y :: l)
  | _ => []

/-- What `insert_large_chunk` asks of on its way down a tree. -/
def insertChecks (size : ℕ → ℕ) (s : ℕ) (K : ℕ → Bool) : Trie ℕ → List ℕ
  | .leaf => []
  | .node t ring l r =>
      if size t ≠ s then
        if K 0 then
          if r.isLeaf then [childSlot t true] else insertChecks size s (fun d => K (d + 1)) r
        else if l.isLeaf then [childSlot t false]
        else insertChecks size s (fun d => K (d + 1)) l
      else [t, ring.head?.getD t]

/-- The slot of the rightmost leaf of the tree in `slot`. -/
def leafSlot (slot : ℕ) : Trie ℕ → Option ℕ
  | .leaf => none
  | .node x _ l r =>
      (leafSlot (childSlot x true) r).or ((leafSlot (childSlot x false) l).or (some slot))

/-- The chunk of the node, if there is one. -/
def rootOf : Trie ℕ → Option ℕ
  | .leaf => none
  | .node x _ _ _ => some x

/-- What `unlink_large_chunk` asks of when the chunk `x` has the node: of the chunk before it
in the ring or the slot of a leaf, of the parent, and of what takes its place and the children
that this gets. -/
def nodeChecks (x : ℕ) (parent : Option ℕ) (ring : List ℕ) (l r : Trie ℕ) : List ℕ :=
  match ring.getLast? with
  | some y => ring.head?.toList ++ parent.toList ++ y :: ((rootOf l).toList ++ (rootOf r).toList)
  | none =>
      match r.takeLeaf with
      | some ((y, _), r') =>
          (leafSlot (childSlot x true) r).toList ++ parent.toList ++
            y :: ((rootOf l).toList ++ (rootOf r').toList)
      | none =>
          match l.takeLeaf with
          | some ((y, _), l') =>
              (leafSlot (childSlot x false) l).toList ++ parent.toList ++
                y :: ((rootOf l').toList ++ (rootOf r).toList)
          | none => parent.toList

/-- What `unlink_large_chunk` asks of. A chunk that has no node has no parent. -/
def eraseChecks (x : ℕ) (parent : Option ℕ) : Trie ℕ → List ℕ
  | .leaf => []
  | .node y ring l r =>
      if x = y then nodeChecks y parent ring l r
      else if x ∈ ring then [(ring.dropWhile (· ≠ x)).tail.head?.getD y]
      else eraseChecks x (some y) l ++ eraseChecks x (some y) r

/-! ## Operations -/

/-- `smallmap`, `treemap`, `smallbins` and `treebins` of `struct malloc_state`, and the field
`index` of the chunks in trees. `corrupt` tells that a check has failed, which is `ABORT`. -/
structure Bins where
  smallmap : BitVec 32
  treemap : BitVec 32
  smallbins : ℕ → List ℕ
  treebins : ℕ → Trie ℕ
  index : ℕ → ℕ
  corrupt : Bool

namespace Bins

/-- The checks of some addresses. -/
def check (b : Bins) (least : ℕ) (as : List ℕ) : Bins :=
  { b with corrupt := b.corrupt || !as.all (okAddress least) }

/-- `insert_small_chunk`. An unmarked bin is made anew. -/
def insertSmallChunk (b : Bins) (least : ℕ) (p : ℕ) (s : ℕ) : Bins :=
  let i := smallIndex s
  if BitMap.isMarked b.smallmap i then
    { b.check least (b.smallbins i).head?.toList with
      smallbins := Function.update b.smallbins i (p :: b.smallbins i) }
  else
    { b with
      smallmap := BitMap.mark b.smallmap i
      smallbins := Function.update b.smallbins i [p] }

/-- `unlink_small_chunk`. -/
def unlinkSmallChunk (b : Bins) (least : ℕ) (p : ℕ) (s : ℕ) : Bins :=
  let i := smallIndex s
  let l := (b.smallbins i).erase p
  { b.check least (neighbours p (b.smallbins i)) with
    smallmap := if l = [] then BitMap.clear b.smallmap i else b.smallmap
    smallbins := Function.update b.smallbins i l }

/-- `unlink_first_small_chunk`. -/
def unlinkFirstSmallChunk (b : Bins) (least : ℕ) (i : ℕ) : Bins :=
  let l := (b.smallbins i).tail
  { b.check least l.head?.toList with
    smallmap := if l = [] then BitMap.clear b.smallmap i else b.smallmap
    smallbins := Function.update b.smallbins i l }

/-- `insert_large_chunk`; `size` is `chunksize`. -/
def insertLargeChunk (b : Bins) (least : ℕ) (size : ℕ → ℕ) (x : ℕ) (s : ℕ) : Bins :=
  let i := computeTreeIndex s
  let b := { b with index := Function.update b.index x i }
  if BitMap.isMarked b.treemap i then
    { b.check least (insertChecks size s (treeBits i s) (b.treebins i)) with
      treebins := Function.update b.treebins i
        ((b.treebins i).insert size x s (treeBits i s)) }
  else
    { b with
      treemap := BitMap.mark b.treemap i
      treebins := Function.update b.treebins i (.node x [] .leaf .leaf) }

/-- `unlink_large_chunk`. -/
def unlinkLargeChunk (b : Bins) (least : ℕ) (x : ℕ) : Bins :=
  let i := b.index x
  let t := (b.treebins i).erase x
  { b.check least (eraseChecks x none (b.treebins i)) with
    treemap := if t.isLeaf then BitMap.clear b.treemap i else b.treemap
    treebins := Function.update b.treebins i t }

def insertChunk (b : Bins) (least : ℕ) (size : ℕ → ℕ) (p : ℕ) (s : ℕ) : Bins :=
  if isSmall s then b.insertSmallChunk least p s else b.insertLargeChunk least size p s

def unlinkChunk (b : Bins) (least : ℕ) (p : ℕ) (s : ℕ) : Bins :=
  if isSmall s then b.unlinkSmallChunk least p s else b.unlinkLargeChunk least p

end Bins

/-! ## What is checked -/

section Checks

variable {p x a : ℕ} {l : List ℕ} {size : ℕ → ℕ} {s : ℕ} {K : ℕ → Bool} {t : Trie ℕ}
  {parent : Option ℕ}

theorem le_childSlot (t : ℕ) (b : Bool) : t ≤ childSlot t b := by
  unfold childSlot
  split <;> omega

theorem mem_of_mem_neighbours (h : a ∈ neighbours p l) : a ∈ l := by
  fun_induction neighbours p l with
  | case1 y l =>
      rw [List.mem_singleton.mp h]
      simp
  | case2 x l hx =>
      rcases List.mem_cons.mp h with rfl | h
      · exact List.mem_cons_self
      · exact List.mem_cons_of_mem _ (List.mem_cons_of_mem _ (List.mem_of_head? (by simpa using h)))
  | case3 x y l hx hy ih => exact List.mem_cons_of_mem _ (ih h)
  | case4 => cases h

theorem neighbours_first (p : ℕ) (l : List ℕ) : neighbours p (p :: l) = l.head?.toList := by
  cases l with
  | nil => rfl
  | cons y l => exact if_pos rfl

/-- A chunk that joins a tree is linked to one that is there. -/
theorem insertChecks_above (h : a ∈ insertChecks size s K t) : ∃ y ∈ t.members, y ≤ a := by
  induction t generalizing K with
  | leaf => cases h
  | node t ring l r ihl ihr =>
      unfold insertChecks at h
      split at h
      · split at h
        · split at h
          · exact ⟨t, by simp, List.mem_singleton.mp h ▸ le_childSlot t true⟩
          · obtain ⟨y, hy, hle⟩ := ihr h
            exact ⟨y, Trie.mem_node.mpr (by tauto), hle⟩
        · split at h
          · exact ⟨t, by simp, List.mem_singleton.mp h ▸ le_childSlot t false⟩
          · obtain ⟨y, hy, hle⟩ := ihl h
            exact ⟨y, Trie.mem_node.mpr (by tauto), hle⟩
      · rcases List.mem_pair.mp h with rfl | rfl
        · exact ⟨a, by simp, Nat.le_refl _⟩
        · cases ring with
          | nil => exact ⟨t, by simp, Nat.le_refl _⟩
          | cons y ring => exact ⟨y, by simp, Nat.le_refl _⟩

theorem leafSlot_above {slot : ℕ} (h : leafSlot slot t = some a) :
    a = slot ∨ ∃ y ∈ t.members, y ≤ a := by
  induction t generalizing slot with
  | leaf => cases h
  | node x ring l r ihl ihr =>
      have hx : x ∈ (Trie.node x ring l r).members := by simp
      unfold leafSlot at h
      rcases Option.or_eq_some_iff.mp h with h | ⟨-, h⟩
      · rcases ihr h with rfl | ⟨y, hy, hle⟩
        · exact Or.inr ⟨x, hx, le_childSlot x true⟩
        · exact Or.inr ⟨y, Trie.mem_node.mpr (by tauto), hle⟩
      · rcases Option.or_eq_some_iff.mp h with h | ⟨-, h⟩
        · rcases ihl h with rfl | ⟨y, hy, hle⟩
          · exact Or.inr ⟨x, hx, le_childSlot x false⟩
          · exact Or.inr ⟨y, Trie.mem_node.mpr (by tauto), hle⟩
        · exact Or.inl (Option.some.inj h).symm

theorem mem_of_rootOf (h : rootOf t = some a) : a ∈ t.members := by
  cases t with
  | leaf => cases h
  | node x ring l r =>
      rw [← Option.some.inj h]
      simp

/-- What is asked of when a node loses its chunk is in the tree, or is the parent. -/
theorem nodeChecks_above {ring : List ℕ} {l r : Trie ℕ} (h : a ∈ nodeChecks x parent ring l r) :
    parent = some a ∨ ∃ y ∈ (Trie.node x ring l r).members, y ≤ a := by
  have hx : x ∈ (Trie.node x ring l r).members := by simp
  have hself : ∀ {y}, y ∈ (Trie.node x ring l r).members →
      parent = some y ∨ ∃ z ∈ (Trie.node x ring l r).members, z ≤ y :=
    fun hy => Or.inr ⟨_, hy, Nat.le_refl _⟩
  have hslot : ∀ {b : Bool} {t : Trie ℕ}, (∀ y ∈ t.members, y ∈ (Trie.node x ring l r).members) →
      leafSlot (childSlot x b) t = some a →
        parent = some a ∨ ∃ y ∈ (Trie.node x ring l r).members, y ≤ a := by
    intro b t hsub hs
    rcases leafSlot_above hs with rfl | ⟨y, hy, hle⟩
    · exact Or.inr ⟨x, hx, le_childSlot x b⟩
    · exact Or.inr ⟨y, hsub y hy, hle⟩
  have hl : ∀ y ∈ l.members, y ∈ (Trie.node x ring l r).members := fun y hy =>
    Trie.mem_node.mpr (by tauto)
  have hr : ∀ y ∈ r.members, y ∈ (Trie.node x ring l r).members := fun y hy =>
    Trie.mem_node.mpr (by tauto)
  unfold nodeChecks at h
  split at h
  · next y hy =>
    simp only [List.mem_append, List.mem_cons, Option.mem_toList] at h
    rcases h with (h | h) | rfl | h | h
    · exact hself (Trie.mem_node.mpr (Or.inr (Or.inl (List.mem_of_head? h))))
    · exact Or.inl h
    · exact hself (Trie.mem_node.mpr (Or.inr (Or.inl (List.mem_of_getLast? hy))))
    · exact hself (hl _ (mem_of_rootOf h))
    · exact hself (hr _ (mem_of_rootOf h))
  · split at h
    · next y ring' r' hy =>
      simp only [List.mem_append, List.mem_cons, Option.mem_toList] at h
      rcases h with (h | h) | rfl | h | h
      · exact hslot hr h
      · exact Or.inl h
      · exact hself (hr _ (Trie.mem_of_takeLeaf hy (Or.inl rfl)))
      · exact hself (hl _ (mem_of_rootOf h))
      · exact hself (hr _ (Trie.mem_of_takeLeaf hy (Or.inr (mem_of_rootOf h))))
    · split at h
      · next y ring' l' hy =>
        simp only [List.mem_append, List.mem_cons, Option.mem_toList] at h
        rcases h with (h | h) | rfl | h | h
        · exact hslot hl h
        · exact Or.inl h
        · exact hself (hl _ (Trie.mem_of_takeLeaf hy (Or.inl rfl)))
        · exact hself (hl _ (Trie.mem_of_takeLeaf hy (Or.inr (mem_of_rootOf h))))
        · exact hself (hr _ (mem_of_rootOf h))
      · exact Or.inl (by simpa using h)

theorem eraseChecks_above (h : a ∈ eraseChecks x parent t) :
    parent = some a ∨ ∃ y ∈ t.members, y ≤ a := by
  induction t generalizing parent with
  | leaf => cases h
  | node y ring l r ihl ihr =>
      unfold eraseChecks at h
      split at h
      · exact nodeChecks_above h
      · split at h
        · rw [List.mem_singleton.mp h]
          cases hf : (ring.dropWhile (· ≠ x)).tail.head? with
          | none => exact Or.inr ⟨y, by simp, Nat.le_refl _⟩
          | some z =>
              have hz := List.mem_of_mem_tail (List.mem_of_head? hf)
              have hring := (List.dropWhile_sublist _).subset hz
              exact Or.inr ⟨z, Trie.mem_node.mpr (Or.inr (Or.inl hring)), Nat.le_refl _⟩
        · have hsub : ∀ {z}, z ∈ l.members ∨ z ∈ r.members →
              z ∈ (Trie.node y ring l r).members := fun hz => Trie.mem_node.mpr (by tauto)
          have hnode : y ∈ (Trie.node y ring l r).members := by simp
          rcases List.mem_append.mp h with h | h
          · rcases ihl h with heq | ⟨z, hz, hle⟩
            · exact Or.inr ⟨y, hnode, (Option.some.inj heq).le⟩
            · exact Or.inr ⟨z, hsub (Or.inl hz), hle⟩
          · rcases ihr h with heq | ⟨z, hz, hle⟩
            · exact Or.inr ⟨y, hnode, (Option.some.inj heq).le⟩
            · exact Or.inr ⟨z, hsub (Or.inr hz), hle⟩

end Checks

/-! ## What the bins hold -/

theorem isSmall_iff {s : ℕ} : isSmall s = true ↔ s < 256 := by
  unfold isSmall smallBinShift nSmallBins
  rw [decide_eq_true_eq, Nat.shiftRight_eq_div_pow]
  omega

theorem smallIndex_lt {s : ℕ} (h : isSmall s = true) : smallIndex s < 32 := of_decide_eq_true h

theorem computeTreeIndex_lt (s : ℕ) : computeTreeIndex s < 32 := by
  unfold computeTreeIndex nTreeBins
  simp only
  split
  · omega
  · split
    · omega
    · next h0 h =>
      have hlog : Nat.log2 ((s >>> treeBinShift) % 2 ^ 32) < 16 :=
        (Nat.log2_lt h0).mpr (by omega)
      have hbit := Nat.and_le_right (n := s >>>
        (Nat.log2 ((s >>> treeBinShift) % 2 ^ 32) + (treeBinShift - 1))) (m := 1)
      rw [Nat.shiftLeft_eq]
      omega

/-- A small bin or a tree bin. -/
inductive Bin
  | small (i : ℕ)
  | tree (i : ℕ)
  deriving DecidableEq

/-- The bin of a size. -/
def binOf (s : ℕ) : Bin :=
  if isSmall s then .small (smallIndex s) else .tree (computeTreeIndex s)

def Bins.members (b : Bins) : Bin → List ℕ
  | .small i => b.smallbins i
  | .tree i => (b.treebins i).members

/-- The trees are sorted by the sizes of the chunks of `F`. -/
def TreesSorted (b : Bins) (F : ℕ → ℕ → Prop) : Prop :=
  ∀ i key, (∀ x s, F x s → key x = s) → (b.treebins i).Sorted key (treeBits i) 0

theorem TreesSorted.mono {b : Bins} {F F' : ℕ → ℕ → Prop} (h : TreesSorted b F)
    (hF : ∀ x s, F x s → F' x s) : TreesSorted b F' := fun i key hkey =>
  h i key fun x s hx => hkey x s (hF x s hx)

/-- A chunk has left the trees, or was in none. -/
theorem TreesSorted.of_erase {b b' : Bins} {F : ℕ → ℕ → Prop} {p s : ℕ} (h : TreesSorted b F)
    (hp : ∀ s', F p s' → s' = s)
    (hb : ∀ i key, (b.treebins i).Sorted key (treeBits i) 0 →
      (b'.treebins i).Sorted key (treeBits i) 0)
    (hno : ∀ i, p ∉ (b'.treebins i).members) : TreesSorted b' fun x s' => F x s' ∧ x ≠ p := by
  intro i key hkey
  have hold := hb i (Function.update key p s) (h i _ fun x s' hx => by
    by_cases hxp : x = p
    · subst hxp
      rw [Function.update_self, hp s' hx]
    · rw [Function.update_of_ne hxp, hkey x s' ⟨hx, hxp⟩])
  refine hold.congr fun y hy => (Function.update_of_ne ?_ ..).symm
  rintro rfl
  exact hno i hy

/-- **The bins hold the chunks of `F`**, given by address and size, each once and in the bin of
its size; the bit maps tell the bins that are not empty, and no check has failed. -/
structure Binned (b : Bins) (F : ℕ → ℕ → Prop) : Prop where
  mem : ∀ i x, x ∈ b.members i ↔ ∃ s, F x s ∧ binOf s = i
  nodup : ∀ i, (b.members i).Nodup
  smallmap : ∀ i, b.smallmap.getLsbD i = true ↔ b.smallbins i ≠ []
  treemap : ∀ i, b.treemap.getLsbD i = true ↔ b.treebins i ≠ .leaf
  index : ∀ i, ∀ x ∈ (b.treebins i).members, b.index x = i
  sorted : TreesSorted b F
  sound : b.corrupt = false

namespace Binned

variable {b : Bins} {F : ℕ → ℕ → Prop} {size : ℕ → ℕ} {p x least : ℕ} {s i : ℕ} {j : Bin}

theorem congr {F' : ℕ → ℕ → Prop} (h : Binned b F) (hF : ∀ x s, F' x s ↔ F x s) :
    Binned b F' where
  mem i x := by simp only [h.mem, hF]
  nodup := h.nodup
  smallmap := h.smallmap
  treemap := h.treemap
  index := h.index
  sorted i key hkey := h.sorted i key fun x s hx => hkey x s ((hF x s).mpr hx)
  sound := h.sound

/-- A chunk of a small bin. -/
theorem of_mem_small (h : Binned b F) (hx : x ∈ b.smallbins i) :
    ∃ s, F x s ∧ isSmall s = true ∧ smallIndex s = i := by
  obtain ⟨s, hF, hbin⟩ := (h.mem (.small i) x).mp hx
  unfold binOf at hbin
  split at hbin
  · next hs => exact ⟨s, hF, hs, Bin.small.inj hbin⟩
  · cases hbin

/-- A chunk of a tree. -/
theorem of_mem_tree (h : Binned b F) (hx : x ∈ (b.treebins i).members) :
    ∃ s, F x s ∧ isSmall s = false ∧ computeTreeIndex s = i := by
  obtain ⟨s, hF, hbin⟩ := (h.mem (.tree i) x).mp hx
  unfold binOf at hbin
  split at hbin
  · cases hbin
  · next hs => exact ⟨s, hF, Bool.eq_false_iff.mpr hs, Bin.tree.inj hbin⟩

theorem mem_of_small (h : Binned b F) (hF : F x s) (hs : isSmall s = true) :
    x ∈ b.smallbins (smallIndex s) :=
  (h.mem (.small _) x).mpr ⟨s, hF, if_pos hs⟩

theorem mem_of_tree (h : Binned b F) (hF : F x s) (hs : ¬ isSmall s = true) :
    x ∈ (b.treebins (computeTreeIndex s)).members :=
  (h.mem (.tree _) x).mpr ⟨s, hF, if_neg hs⟩

/-- The checks pass when the chunks are in the heap. -/
theorem check_eq {as : List ℕ} (h : ∀ a ∈ as, least ≤ a) : b.check least as = b := by
  have hall : as.all (okAddress least) = true :=
    List.all_eq_true.mpr fun a ha => decide_eq_true (h a ha)
  unfold Bins.check
  rw [hall, Bool.not_true, Bool.or_false]

theorem le_of_mem_small (h : Binned b F) (hok : ∀ y s, F y s → least ≤ y)
    (hx : x ∈ b.smallbins i) : least ≤ x := by
  obtain ⟨s, hF, -⟩ := h.of_mem_small hx
  exact hok x s hF

theorem le_of_mem_tree (h : Binned b F) (hok : ∀ y s, F y s → least ≤ y)
    (hx : x ∈ (b.treebins i).members) : least ≤ x := by
  obtain ⟨s, hF, -⟩ := h.of_mem_tree hx
  exact hok x s hF

/-- The members of the bins decide about a chunk that joins. -/
theorem of_insert {b' : Bins} (h : Binned b F) (hp : ∀ s', ¬ F p s')
    (hin : (b'.members (binOf s)).Perm (p :: b.members (binOf s)))
    (hother : ∀ j, j ≠ binOf s → b'.members j = b.members j)
    (hsmall : ∀ i, b'.smallmap.getLsbD i = true ↔ b'.smallbins i ≠ [])
    (htree : ∀ i, b'.treemap.getLsbD i = true ↔ b'.treebins i ≠ .leaf)
    (hindex : ∀ i, ∀ x ∈ (b'.treebins i).members, b'.index x = i)
    (hsorted : TreesSorted b' fun x s' => F x s' ∨ (x = p ∧ s' = s))
    (hsound : b'.corrupt = false) :
    Binned b' fun x s' => F x s' ∨ (x = p ∧ s' = s) where
  mem j x := by
    by_cases hj : j = binOf s
    · subst hj
      rw [hin.mem_iff, List.mem_cons, h.mem]
      constructor
      · rintro (rfl | ⟨s', hF, hbin⟩)
        · exact ⟨s, Or.inr ⟨rfl, rfl⟩, rfl⟩
        · exact ⟨s', Or.inl hF, hbin⟩
      · rintro ⟨s', hF | ⟨rfl, rfl⟩, hbin⟩
        · exact Or.inr ⟨s', hF, hbin⟩
        · exact Or.inl rfl
    · rw [hother j hj, h.mem]
      constructor
      · rintro ⟨s', hF, hbin⟩
        exact ⟨s', Or.inl hF, hbin⟩
      · rintro ⟨s', hF | ⟨rfl, rfl⟩, hbin⟩
        · exact ⟨s', hF, hbin⟩
        · exact absurd hbin.symm hj
  nodup j := by
    by_cases hj : j = binOf s
    · subst hj
      refine hin.nodup_iff.mpr (List.nodup_cons.mpr ⟨fun hx => ?_, h.nodup _⟩)
      obtain ⟨s', hF, -⟩ := (h.mem _ p).mp hx
      exact hp s' hF
    · rw [hother j hj]
      exact h.nodup j
  smallmap := hsmall
  treemap := htree
  index := hindex
  sorted := hsorted
  sound := hsound

/-- The members of the bins decide about a chunk that leaves. -/
theorem of_unlink {b' : Bins} (h : Binned b F) (hp : ∀ s', F p s' → s' = s)
    (hin : (p :: b'.members (binOf s)).Perm (b.members (binOf s)))
    (hother : ∀ j, j ≠ binOf s → b'.members j = b.members j)
    (hsmall : ∀ i, b'.smallmap.getLsbD i = true ↔ b'.smallbins i ≠ [])
    (htree : ∀ i, b'.treemap.getLsbD i = true ↔ b'.treebins i ≠ .leaf)
    (hindex : ∀ i, ∀ x ∈ (b'.treebins i).members, b'.index x = i)
    (hsorted : TreesSorted b' fun x s' => F x s' ∧ x ≠ p) (hsound : b'.corrupt = false) :
    Binned b' fun x s' => F x s' ∧ x ≠ p where
  mem j x := by
    have hnd : (p :: b'.members (binOf s)).Nodup := hin.nodup_iff.mpr (h.nodup _)
    by_cases hj : j = binOf s
    · subst hj
      constructor
      · intro hx
        obtain ⟨s', hF, hbin⟩ := (h.mem _ x).mp (hin.mem_iff.mp (List.mem_cons_of_mem _ hx))
        refine ⟨s', ⟨hF, ?_⟩, hbin⟩
        rintro rfl
        exact (List.nodup_cons.mp hnd).1 hx
      · rintro ⟨s', ⟨hF, hne⟩, hbin⟩
        have hx := hin.mem_iff.mpr ((h.mem _ x).mpr ⟨s', hF, hbin⟩)
        exact (List.mem_cons.mp hx).resolve_left hne
    · rw [hother j hj, h.mem]
      constructor
      · rintro ⟨s', hF, hbin⟩
        refine ⟨s', ⟨hF, ?_⟩, hbin⟩
        rintro rfl
        rw [hp s' hF] at hbin
        exact hj hbin.symm
      · rintro ⟨s', ⟨hF, -⟩, hbin⟩
        exact ⟨s', hF, hbin⟩
  nodup j := by
    by_cases hj : j = binOf s
    · subst hj
      exact (hin.nodup_iff.mpr (h.nodup _)).of_cons
    · rw [hother j hj]
      exact h.nodup j
  smallmap := hsmall
  treemap := htree
  index := hindex
  sorted := hsorted
  sound := hsound

/-! ## Small bins -/

/-- One small bin changes to `l`, and its bit with it. -/
theorem smallmap_update {b' : Bins} {l : List ℕ} (h : Binned b F)
    (hbins : b'.smallbins = Function.update b.smallbins i l)
    (hmap : ∀ k, b'.smallmap.getLsbD k = if k = i then decide (l ≠ []) else b.smallmap.getLsbD k)
    (k : ℕ) : b'.smallmap.getLsbD k = true ↔ b'.smallbins k ≠ [] := by
  rw [hbins, hmap]
  by_cases hk : k = i
  · subst hk
    rw [Function.update_self, if_pos rfl, decide_eq_true_eq]
  · rw [Function.update_of_ne hk, if_neg hk]
    exact h.smallmap k

theorem members_update_small (b b' : Bins) {l : List ℕ}
    (hbins : b'.smallbins = Function.update b.smallbins i l) (htree : b'.treebins = b.treebins) :
    b'.members (.small i) = l ∧ ∀ j, j ≠ .small i → b'.members j = b.members j := by
  refine ⟨?_, fun j hj => ?_⟩
  · show b'.smallbins i = l
    rw [hbins, Function.update_self]
  · cases j with
    | small k =>
        show b'.smallbins k = b.smallbins k
        rw [hbins, Function.update_of_ne]
        rintro rfl
        exact hj rfl
    | tree k =>
        show (b'.treebins k).members = (b.treebins k).members
        rw [htree]

/-- Marked or not, the chunk is put in front and the bit is set. -/
theorem insertSmallChunk_eq (h : Binned b F) (hok : ∀ y s, F y s → least ≤ y) (p : ℕ) (s : ℕ) :
    b.insertSmallChunk least p s =
      { b with
        smallmap := BitMap.mark b.smallmap (smallIndex s)
        smallbins :=
          Function.update b.smallbins (smallIndex s) (p :: b.smallbins (smallIndex s)) } := by
  unfold Bins.insertSmallChunk
  simp only [BitMap.isMarked_eq]
  split
  · next hm =>
    rw [BitMap.mark_of_getLsbD hm, check_eq fun a ha => h.le_of_mem_small hok
      (List.mem_of_head? (Option.mem_toList.mp ha))]
  · next hm =>
    have hnil : b.smallbins (smallIndex s) = [] := by
      by_contra hne
      exact hm ((h.smallmap _).mpr hne)
    rw [hnil]

theorem insertSmallChunk (h : Binned b F) (hok : ∀ y s, F y s → least ≤ y)
    (hp : ∀ s', ¬ F p s') (hs : isSmall s = true) :
    Binned (b.insertSmallChunk least p s) fun x s' => F x s' ∨ (x = p ∧ s' = s) := by
  have hbin : binOf s = .small (smallIndex s) := if_pos hs
  rw [h.insertSmallChunk_eq hok p s]
  obtain ⟨hin, hother⟩ := members_update_small b
    ({ b with
      smallmap := BitMap.mark b.smallmap (smallIndex s)
      smallbins :=
        Function.update b.smallbins (smallIndex s) (p :: b.smallbins (smallIndex s)) }) rfl rfl
  refine h.of_insert hp ?_ ?_ (h.smallmap_update rfl fun k => ?_) h.treemap h.index
    (h.sorted.mono fun x s' => Or.inl) h.sound
  · rw [hbin, hin]
    exact List.Perm.refl _
  · rw [hbin]
    exact hother
  · show (BitMap.mark b.smallmap (smallIndex s)).getLsbD k = _
    rw [BitMap.getLsbD_mark (smallIndex_lt hs)]
    by_cases hk : k = smallIndex s <;> simp [hk]

/-- The links of the neighbours are in the heap. -/
theorem unlinkSmallChunk_eq (h : Binned b F) (hok : ∀ y s, F y s → least ≤ y) (p : ℕ) (s : ℕ) :
    b.unlinkSmallChunk least p s =
      let l := (b.smallbins (smallIndex s)).erase p
      { b with
        smallmap := if l = [] then BitMap.clear b.smallmap (smallIndex s) else b.smallmap
        smallbins := Function.update b.smallbins (smallIndex s) l } := by
  unfold Bins.unlinkSmallChunk
  dsimp only
  rw [check_eq fun a ha => h.le_of_mem_small hok (mem_of_mem_neighbours ha)]

theorem unlinkSmallChunk (h : Binned b F) (hok : ∀ y s, F y s → least ≤ y) (hF : F p s)
    (hp : ∀ s', F p s' → s' = s) (hs : isSmall s = true) :
    Binned (b.unlinkSmallChunk least p s) fun x s' => F x s' ∧ x ≠ p := by
  have hbin : binOf s = .small (smallIndex s) := if_pos hs
  have heq := h.unlinkSmallChunk_eq hok p s
  have hmap : ∀ k, (b.unlinkSmallChunk least p s).smallmap.getLsbD k =
      if k = smallIndex s then decide ((b.smallbins (smallIndex s)).erase p ≠ [])
      else b.smallmap.getLsbD k := by
    intro k
    rw [heq]
    by_cases hnil : (b.smallbins (smallIndex s)).erase p = []
    · by_cases hk : k = smallIndex s <;> simp [hnil, hk]
    · have hne : b.smallbins (smallIndex s) ≠ [] := by
        intro he
        rw [he] at hnil
        exact hnil rfl
      by_cases hk : k = smallIndex s
      · subst hk
        simp only [hnil, if_false, if_true, ne_eq, not_false_eq_true, decide_true]
        exact (h.smallmap _).mpr hne
      · simp [hnil, hk]
  rw [heq] at hmap ⊢
  obtain ⟨hin, hother⟩ := members_update_small b ({ b with
    smallmap := if (b.smallbins (smallIndex s)).erase p = [] then
      BitMap.clear b.smallmap (smallIndex s) else b.smallmap
    smallbins := Function.update b.smallbins (smallIndex s)
      ((b.smallbins (smallIndex s)).erase p) }) rfl rfl
  refine h.of_unlink hp ?_ ?_ (h.smallmap_update rfl hmap) h.treemap h.index
    (h.sorted.of_erase hp (fun _ _ => id) fun i hmem => ?_) h.sound
  · rw [hbin, hin]
    exact (List.perm_cons_erase (h.mem_of_small hF hs)).symm
  · rw [hbin]
    exact hother
  · obtain ⟨s', hF', hs', -⟩ := h.of_mem_tree hmem
    rw [hp s' hF', hs] at hs'
    cases hs'

/-- The first chunk of a bin is unlinked like any other. -/
theorem unlinkFirstSmallChunk_eq {l : List ℕ} (hs : smallIndex s = i)
    (hl : b.smallbins i = p :: l) :
    b.unlinkFirstSmallChunk least i = b.unlinkSmallChunk least p s := by
  have herase : (b.smallbins i).tail = (b.smallbins i).erase p := by
    rw [hl, List.tail_cons, List.erase_cons_head]
  have hcheck : (b.smallbins i).tail.head?.toList = neighbours p (b.smallbins i) := by
    rw [hl, neighbours_first, List.tail_cons]
  unfold Bins.unlinkFirstSmallChunk Bins.unlinkSmallChunk
  dsimp only
  rw [hs, hcheck, herase]

/-! ## Trees -/

/-- One tree changes to `u`, and its bit with it. -/
theorem treemap_update {b' : Bins} {u : Trie ℕ} (h : Binned b F)
    (hbins : b'.treebins = Function.update b.treebins i u)
    (hmap : ∀ k, b'.treemap.getLsbD k = if k = i then !u.isLeaf else b.treemap.getLsbD k)
    (k : ℕ) : b'.treemap.getLsbD k = true ↔ b'.treebins k ≠ .leaf := by
  rw [hbins, hmap]
  by_cases hk : k = i
  · subst hk
    rw [Function.update_self, if_pos rfl, Bool.not_eq_true', ← Bool.not_eq_true,
      not_iff_not]
    exact Trie.isLeaf_iff
  · rw [Function.update_of_ne hk, if_neg hk]
    exact h.treemap k

theorem members_update_tree (b b' : Bins) {u : Trie ℕ}
    (hbins : b'.treebins = Function.update b.treebins i u) (hsmall : b'.smallbins = b.smallbins) :
    b'.members (.tree i) = u.members ∧ ∀ j, j ≠ .tree i → b'.members j = b.members j := by
  refine ⟨?_, fun j hj => ?_⟩
  · show (b'.treebins i).members = u.members
    rw [hbins, Function.update_self]
  · cases j with
    | small k =>
        show b'.smallbins k = b.smallbins k
        rw [hsmall]
    | tree k =>
        show (b'.treebins k).members = (b.treebins k).members
        rw [hbins, Function.update_of_ne]
        rintro rfl
        exact hj rfl

/-- Marked or not, the chunk joins the tree and the bit is set. -/
theorem insertLargeChunk_eq (h : Binned b F) (hok : ∀ y s, F y s → least ≤ y) (size : ℕ → ℕ)
    (p : ℕ) (s : ℕ) : b.insertLargeChunk least size p s =
      { b with
        treemap := BitMap.mark b.treemap (computeTreeIndex s)
        treebins := Function.update b.treebins (computeTreeIndex s)
          ((b.treebins (computeTreeIndex s)).insert size p s (treeBits (computeTreeIndex s) s))
        index := Function.update b.index p (computeTreeIndex s) } := by
  unfold Bins.insertLargeChunk
  simp only [BitMap.isMarked_eq]
  split
  · next hm =>
    have hpass : ∀ a ∈ insertChecks size s (treeBits (computeTreeIndex s) s)
        (b.treebins (computeTreeIndex s)), least ≤ a := by
      intro a ha
      obtain ⟨y, hy, hle⟩ := insertChecks_above ha
      exact (h.le_of_mem_tree hok hy).trans hle
    rw [BitMap.mark_of_getLsbD hm, check_eq hpass]
  · next hm =>
    have hleaf : b.treebins (computeTreeIndex s) = .leaf := by
      by_contra hne
      exact hm ((h.treemap _).mpr hne)
    rw [hleaf]
    rfl

theorem insertLargeChunk (h : Binned b F) (hok : ∀ y s, F y s → least ≤ y)
    (hp : ∀ s', ¬ F p s') (hs : ¬ isSmall s = true) (hsize : ∀ x s', F x s' → size x = s') :
    Binned (b.insertLargeChunk least size p s) fun x s' => F x s' ∨ (x = p ∧ s' = s) := by
  have hbin : binOf s = .tree (computeTreeIndex s) := if_neg hs
  have hnew : ∀ k, ∀ x ∈ (b.treebins k).members, x ≠ p := by
    rintro k x hx rfl
    obtain ⟨s', hF, -⟩ := h.of_mem_tree hx
    exact hp s' hF
  have hlt := computeTreeIndex_lt s
  have hkeys : ∀ (k : ℕ) (key : ℕ → ℕ), (∀ x s', F x s' → key x = s') →
      ∀ x ∈ (b.treebins k).members, size x = key x := by
    intro k key hkey x hx
    obtain ⟨s', hF, -⟩ := h.of_mem_tree hx
    rw [hsize x s' hF, hkey x s' hF]
  rw [h.insertLargeChunk_eq hok size p s]
  generalize computeTreeIndex s = i at hbin hlt ⊢
  have hperm : ((b.treebins i).insert size p s (treeBits i s)).members.Perm
      (p :: (b.treebins i).members) := Trie.perm_insert (treeBits i s) (b.treebins i)
  obtain ⟨hin, hother⟩ := members_update_tree b
    ({ b with
      treemap := BitMap.mark b.treemap i
      treebins := Function.update b.treebins i
        ((b.treebins i).insert size p s (treeBits i s))
      index := Function.update b.index p i }) rfl rfl
  refine h.of_insert hp ?_ ?_ h.smallmap (h.treemap_update rfl fun k => ?_) (fun k x hx => ?_)
    (fun k key hkey => ?_) h.sound
  · rw [hbin, hin]
    exact hperm
  · rw [hbin]
    exact hother
  · show (BitMap.mark b.treemap i).getLsbD k = _
    rw [BitMap.getLsbD_mark hlt, Trie.isLeaf_insert]
    by_cases hk : k = i <;> simp [hk]
  · show Function.update b.index p i x = k
    change x ∈ (Function.update b.treebins i _ k).members at hx
    by_cases hk : k = i
    · subst hk
      rw [Function.update_self, hperm.mem_iff, List.mem_cons] at hx
      rcases hx with rfl | hx
      · rw [Function.update_self]
      · rw [Function.update_of_ne (hnew k x hx)]
        exact h.index k x hx
    · rw [Function.update_of_ne hk] at hx
      rw [Function.update_of_ne (hnew k x hx)]
      exact h.index k x hx
  · have hold : ∀ x s', F x s' → key x = s' := fun x s' hx => hkey x s' (Or.inl hx)
    have hsorted := h.sorted k key hold
    show (Function.update b.treebins i _ k).Sorted key (treeBits k) 0
    by_cases hk : k = i
    · subst hk
      rw [Function.update_self, Trie.insert_congr (hkeys k key hold)]
      exact hsorted.insert (hkey p s (Or.inr ⟨rfl, rfl⟩)) fun e => by rw [Nat.zero_add]
    · rwa [Function.update_of_ne hk]

theorem unlinkLargeChunk (h : Binned b F) (hok : ∀ y s, F y s → least ≤ y) (hF : F p s)
    (hp : ∀ s', F p s' → s' = s) (hs : ¬ isSmall s = true) :
    Binned (b.unlinkLargeChunk least p) fun x s' => F x s' ∧ x ≠ p := by
  have hbin : binOf s = .tree (computeTreeIndex s) := if_neg hs
  have hmem := h.mem_of_tree hF hs
  have hidx := h.index _ p hmem
  have hnd : (b.treebins (computeTreeIndex s)).members.Nodup := h.nodup (.tree _)
  have hpass : ∀ a ∈ eraseChecks p none (b.treebins (computeTreeIndex s)), least ≤ a := by
    intro a ha
    rcases eraseChecks_above ha with hnone | ⟨y, hy, hle⟩
    · cases hnone
    · exact (h.le_of_mem_tree hok hy).trans hle
  unfold Bins.unlinkLargeChunk
  dsimp only
  rw [hidx, check_eq hpass]
  generalize computeTreeIndex s = i at hbin hmem hnd ⊢
  have hperm := Trie.perm_erase hnd hmem
  obtain ⟨hin, hother⟩ := members_update_tree b
    ({ b with
      treemap :=
        if ((b.treebins i).erase p).isLeaf then BitMap.clear b.treemap i else b.treemap
      treebins := Function.update b.treebins i ((b.treebins i).erase p) }) rfl rfl
  refine h.of_unlink hp ?_ ?_ h.smallmap (h.treemap_update rfl fun k => ?_) (fun k x hx => ?_)
    (h.sorted.of_erase hp (fun k key hk' => ?_) fun k hx => ?_) h.sound
  · rw [hbin, hin]
    exact hperm
  · rw [hbin]
    exact hother
  · have hne : b.treebins i ≠ .leaf := Trie.ne_leaf_of_mem hmem
    show (if ((b.treebins i).erase p).isLeaf then BitMap.clear b.treemap i
      else b.treemap).getLsbD k = _
    rcases hleaf : ((b.treebins i).erase p).isLeaf with _ | _
    · by_cases hk : k = i
      · subst hk
        simpa using (h.treemap k).mpr hne
      · simp [hk]
    · by_cases hk : k = i <;> simp [hk]
  · show b.index x = k
    change x ∈ (Function.update b.treebins i _ k).members at hx
    by_cases hk : k = i
    · subst hk
      rw [Function.update_self] at hx
      exact h.index k x ((Trie.mem_erase hnd).mp hx).2
    · rw [Function.update_of_ne hk] at hx
      exact h.index k x hx
  · show (Function.update b.treebins i _ k).Sorted key (treeBits k) 0
    by_cases hk : k = i
    · subst hk
      rw [Function.update_self]
      exact hk'.erase hnd
    · rwa [Function.update_of_ne hk]
  · change p ∈ (Function.update b.treebins i _ k).members at hx
    by_cases hk : k = i
    · subst hk
      rw [Function.update_self, Trie.mem_erase hnd] at hx
      exact hx.1 rfl
    · rw [Function.update_of_ne hk] at hx
      have hki := h.index k p hx
      rw [h.index i p hmem] at hki
      exact hk hki.symm

/-! ## Both kinds -/

/-- **A free chunk enters its bin.** -/
theorem insertChunk (h : Binned b F) (hok : ∀ y s, F y s → least ≤ y) (hp : ∀ s', ¬ F p s')
    (hsize : ∀ x s', F x s' → size x = s') :
    Binned (b.insertChunk least size p s) fun x s' => F x s' ∨ (x = p ∧ s' = s) := by
  unfold Bins.insertChunk
  split
  · next hs => exact h.insertSmallChunk hok hp hs
  · next hs => exact h.insertLargeChunk hok hp hs hsize

/-- **A free chunk leaves its bin.** -/
theorem unlinkChunk (h : Binned b F) (hok : ∀ y s, F y s → least ≤ y) (hF : F p s)
    (hp : ∀ s', F p s' → s' = s) : Binned (b.unlinkChunk least p s) fun x s' => F x s' ∧ x ≠ p := by
  unfold Bins.unlinkChunk
  split
  · next hs => exact h.unlinkSmallChunk hok hF hp hs
  · next hs => exact h.unlinkLargeChunk hok hF hp hs

end Binned

end Porpoise.Dlmalloc
