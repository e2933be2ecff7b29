import Mathlib.Data.List.Chain
import Porpoise.Dlmalloc.Bins
import Porpoise.Lib.Tiling

/-!
# The chunks of the allocator

The memory of the allocator is cut into chunks, and their sizes and states are written in
memory: `head` in each chunk, and the size of a free one once more behind it. The end of a
segment that was left is cut into chunks that are in use for ever.

* `Tags`: the tags in memory, and the macros that read and set them.
* `Arena`: the tags describe this list of chunks, of which no two free ones are neighbours.
* `Arena.link`, `Arena.prev`: neighbours, and the chunk before one whose flag is off.
* `Arena.replace`, `Arena.splice`: some chunks become others.
-/

namespace Porpoise.Dlmalloc

open Porpoise.Lib

/-! ## Tags -/

/-- The `head` word of a chunk: its size and its two low bits. -/
structure Head where
  size : ℕ
  cinuse : Bool
  pinuse : Bool
  deriving DecidableEq

/-- `head` and `prev_foot` of the chunk at each address. -/
structure Tags where
  head : ℕ → Head
  prev_foot : ℕ → ℕ

namespace Tags

def chunksize (t : Tags) (p : ℕ) : ℕ := (t.head p).size

def cinuse (t : Tags) (p : ℕ) : Bool := (t.head p).cinuse

def pinuse (t : Tags) (p : ℕ) : Bool := (t.head p).pinuse

def isInuse (t : Tags) (p : ℕ) : Bool := t.cinuse p || !t.pinuse p

def isMmapped (t : Tags) (p : ℕ) : Bool := !t.cinuse p && !t.pinuse p

/-- `p->head = h`. -/
def setHead (t : Tags) (p : ℕ) (h : Head) : Tags :=
  { t with head := Function.update t.head p h }

/-- `set_foot`. -/
def setFoot (t : Tags) (p : ℕ) (s : ℕ) : Tags :=
  { t with prev_foot := Function.update t.prev_foot (p + s) s }

/-- `n->head |= PINUSE_BIT`. -/
def markPinuse (t : Tags) (n : ℕ) : Tags := t.setHead n { t.head n with pinuse := true }

def clearPinuse (t : Tags) (n : ℕ) : Tags := t.setHead n { t.head n with pinuse := false }

def setInuseAndPinuse (t : Tags) (p : ℕ) (s : ℕ) : Tags :=
  (t.setHead p ⟨s, true, true⟩).markPinuse (p + s)

def setSizeAndPinuseOfInuseChunk (t : Tags) (p : ℕ) (s : ℕ) : Tags :=
  t.setHead p ⟨s, true, true⟩

def setSizeAndPinuseOfFreeChunk (t : Tags) (p : ℕ) (s : ℕ) : Tags :=
  (t.setHead p ⟨s, false, true⟩).setFoot p s

def setFreeWithPinuse (t : Tags) (p : ℕ) (s : ℕ) (n : ℕ) : Tags :=
  (t.clearPinuse n).setSizeAndPinuseOfFreeChunk p s

@[simp] theorem setHead_head_self (t : Tags) (p : ℕ) (h : Head) : (t.setHead p h).head p = h :=
  Function.update_self ..

theorem setHead_head_of_ne {t : Tags} {p x : ℕ} {h : Head} (hne : x ≠ p) :
    (t.setHead p h).head x = t.head x := Function.update_of_ne hne ..

@[simp] theorem setHead_prev_foot (t : Tags) (p : ℕ) (h : Head) :
    (t.setHead p h).prev_foot = t.prev_foot := rfl

@[simp] theorem setFoot_head (t : Tags) (p : ℕ) (s : ℕ) : (t.setFoot p s).head = t.head := rfl

@[simp] theorem setFoot_prev_foot_self (t : Tags) (p : ℕ) (s : ℕ) :
    (t.setFoot p s).prev_foot (p + s) = s := Function.update_self ..

theorem setFoot_prev_foot_of_ne {t : Tags} {p x : ℕ} {s : ℕ} (hne : x ≠ p + s) :
    (t.setFoot p s).prev_foot x = t.prev_foot x := Function.update_of_ne hne ..

/-- The tags differ between `a` and `b` only: heads before `b`, feet behind `a`. -/
structure Within (a b : ℕ) (t t' : Tags) : Prop where
  head : ∀ x, x < a ∨ b ≤ x → t'.head x = t.head x
  foot : ∀ x, x ≤ a ∨ b < x → t'.prev_foot x = t.prev_foot x

variable {a b p n x : ℕ} {s : ℕ} {h : Head} {t t' t'' : Tags}

theorem Within.refl (a b : ℕ) (t : Tags) : Within a b t t := ⟨fun _ _ => rfl, fun _ _ => rfl⟩

theorem Within.trans (h : Within a b t t') (h' : Within a b t' t'') : Within a b t t'' :=
  ⟨fun x hx => (h'.head x hx).trans (h.head x hx), fun x hx => (h'.foot x hx).trans (h.foot x hx)⟩

theorem Within.mono {a' b' : ℕ} (h : Within a b t t') (ha : a' ≤ a) (hb : b ≤ b') :
    Within a' b' t t' :=
  ⟨fun x hx => h.head x (by omega), fun x hx => h.foot x (by omega)⟩

theorem Within.setHead (h' : Within a b t t') (ha : a ≤ p) (hb : p < b) :
    Within a b t (t'.setHead p h) := by
  refine h'.trans ⟨fun x hx => setHead_head_of_ne ?_, fun _ _ => rfl⟩
  omega

theorem Within.setFoot (h' : Within a b t t') (ha : a < p + s) (hb : p + s ≤ b) :
    Within a b t (t'.setFoot p s) := by
  refine h'.trans ⟨fun _ _ => rfl, fun x hx => setFoot_prev_foot_of_ne ?_⟩
  omega

end Tags

/-! ## Chunks -/

/-- What a chunk is: in use by the program, free, part of the end of a segment that was left,
or the top. -/
inductive Kind
  | used
  | free
  | fence
  | top
  deriving DecidableEq

/-- `CINUSE_BIT` of a chunk. -/
def Kind.inuse : Kind → Bool
  | .used | .fence => true
  | .free | .top => false

structure Chunk where
  addr : ℕ
  size : ℕ
  pinuse : Bool
  kind : Kind
  deriving DecidableEq

namespace Chunk

def fin (c : Chunk) : ℕ := c.addr + c.size

def head (c : Chunk) : Head := ⟨c.size, c.kind.inuse, c.pinuse⟩

/-- Chunks are aligned and not too small, but for the ends of segments. -/
structure Shape (c : Chunk) : Prop where
  addr_pos : 0 < c.addr
  size_pos : 0 < c.size
  aligned : c.kind ≠ .fence → 16 ∣ c.addr ∧ 16 ∣ c.size
  min : c.kind ≠ .fence → c.kind ≠ .top → minChunkSize ≤ c.size

theorem Shape.lt_fin {c : Chunk} (h : c.Shape) : c.addr < c.fin := by
  have hpos := h.size_pos
  unfold fin
  omega

/-- `y` follows `x`: the flag of `y` tells whether `x` is in use, and after a free chunk comes
one that is in use. -/
structure Link (x y : Chunk) : Prop where
  not_top : x.kind ≠ .top
  adjacent : x.kind ≠ .fence → y.addr = x.fin
  pinuse : y.pinuse = true ↔ x.kind ≠ .free
  inuse : x.kind = .free → y.kind.inuse = true

end Chunk

open Chunk

/-- The tags of a chunk are in memory. -/
def Tagged (t : Tags) (c : Chunk) : Prop :=
  t.head c.addr = c.head ∧ (c.kind = .free → t.prev_foot c.fin = c.size)

theorem Tagged.frame {t t' : Tags} {a b : ℕ} {c : Chunk} (h : Tagged t c) (hs : c.Shape)
    (hw : t.Within a b t') (hfar : c.fin ≤ a ∨ b ≤ c.addr) : Tagged t' c := by
  have hlt := hs.lt_fin
  refine ⟨(hw.head _ ?_).trans h.1, fun hk => (hw.foot _ ?_).trans (h.2 hk)⟩
  · omega
  · omega

/-- **The arena.** The chunks lie apart, their tags are in memory, and each tells the state of
the one before it. -/
structure Arena (t : Tags) (cs : List Chunk) : Prop where
  tagged : ∀ c ∈ cs, Tagged t c
  shape : ∀ c ∈ cs, c.Shape
  linked : cs.IsChain Link
  apart : cs.Pairwise (Apart addr fin)
  first : ∀ c ∈ cs.head?, c.pinuse = true

namespace Arena

variable {t t' : Tags} {cs pre post old new : List Chunk} {c d x y : Chunk} {a b b' : ℕ}

/-- Two chunks of an arena are the same or apart. -/
theorem eq_or_apart (h : Arena t cs) (hc : c ∈ cs) (hd : d ∈ cs) : c = d ∨ Apart addr fin c d := by
  by_cases heq : c = d
  · exact Or.inl heq
  · exact Or.inr (h.apart.forall hc hd heq)

/-- An address begins one chunk. -/
theorem eq_of_addr (h : Arena t cs) (hc : c ∈ cs) (hd : d ∈ cs) (heq : c.addr = d.addr) :
    c = d := by
  have hlc := (h.shape c hc).lt_fin
  have hld := (h.shape d hd).lt_fin
  rcases h.eq_or_apart hc hd with he | ha
  · exact he
  · unfold Apart at ha
    omega

/-- A chunk that is not in use comes after one that is. -/
theorem pinuse_of_not_inuse (h : Arena t cs) (hc : c ∈ cs) (hk : c.kind.inuse = false) :
    c.pinuse = true := by
  obtain ⟨pre, post, rfl⟩ := List.append_of_mem hc
  rcases List.eq_nil_or_concat pre with rfl | ⟨pre, x, rfl⟩
  · exact h.first c rfl
  · have hlink : Link x c := by
      have hl := h.linked
      rw [List.concat_append] at hl
      exact (List.isChain_append_cons_cons.mp hl).2.1
    refine hlink.pinuse.mpr fun hfree => ?_
    have huse := hlink.inuse hfree
    rw [hk] at huse
    cases huse

/-- Neighbours in the list. -/
theorem link (h : Arena t (pre ++ [x, y] ++ post)) : Link x y := by
  have hl := h.linked
  rw [List.append_assoc] at hl
  exact (List.isChain_append_cons_cons.mp hl).2.1

/-- The chunk before one whose flag is off. -/
theorem prev (h : Arena t cs) (hc : c ∈ cs) (hp : c.pinuse = false) :
    ∃ pre x post, cs = pre ++ [x, c] ++ post ∧ x.kind = .free ∧ c.addr = x.fin := by
  obtain ⟨pre, post, rfl⟩ := List.append_of_mem hc
  rcases List.eq_nil_or_concat pre with rfl | ⟨pre, x, rfl⟩
  · have hfirst := h.first c rfl
    rw [hp] at hfirst
    cases hfirst
  · have hlink : Link x c := by
      have hl := h.linked
      rw [List.concat_append] at hl
      exact (List.isChain_append_cons_cons.mp hl).2.1
    have hfree : x.kind = .free := by
      by_contra hne
      have htrue := hlink.pinuse.mpr hne
      rw [hp] at htrue
      cases htrue
    refine ⟨pre, x, post, by simp, hfree, hlink.adjacent ?_⟩
    rw [hfree]
    exact fun he => nomatch he

/-- **Some chunks become others**, apart from those that stay. -/
theorem replace (h : Arena t (pre ++ old ++ post))
    (hside : ∀ c, c ∈ pre ∨ c ∈ post → Tagged t' c ∧ ∀ n ∈ new, Apart addr fin c n)
    (hapart : new.Pairwise (Apart addr fin)) (htag : ∀ c ∈ new, Tagged t' c)
    (hshape : ∀ c ∈ new, c.Shape) (hlinked : new.IsChain Link) (hne : new ≠ [])
    (hin : ∀ x ∈ pre.getLast?, ∀ n ∈ new.head?, Link x n)
    (hout : ∀ l ∈ new.getLast?, ∀ y ∈ post.head?, Link l y)
    (hfirst : pre = [] → ∀ n ∈ new.head?, n.pinuse = true) : Arena t' (pre ++ new ++ post) := by
  have hmem : ∀ c, c ∈ pre ∨ c ∈ post → c ∈ pre ++ old ++ post := by
    intro c hc
    rw [List.mem_append, List.mem_append]
    exact hc.elim (fun h => Or.inl (Or.inl h)) Or.inr
  have hsplit : ∀ c, c ∈ pre ++ new ++ post → c ∈ new ∨ c ∈ pre ∨ c ∈ post := by
    intro c hc
    simp only [List.mem_append] at hc
    tauto
  have hl := h.linked
  have hap := h.apart
  rw [List.isChain_append, List.isChain_append] at hl
  rw [List.pairwise_append, List.pairwise_append] at hap
  refine ⟨fun c hc => ?_, fun c hc => ?_, ?_, ?_, fun c hc => ?_⟩
  · rcases hsplit c hc with hc | hc
    · exact htag c hc
    · exact (hside c hc).1
  · rcases hsplit c hc with hc | hc
    · exact hshape c hc
    · exact h.shape c (hmem c hc)
  · rw [List.isChain_append, List.isChain_append]
    refine ⟨⟨hl.1.1, hlinked, hin⟩, hl.2.1, fun l hlast y hy => ?_⟩
    rw [List.getLast?_append_of_ne_nil _ hne] at hlast
    exact hout l hlast y hy
  · rw [List.pairwise_append, List.pairwise_append]
    refine ⟨⟨hap.1.1, hapart, fun x hx => (hside x (Or.inl hx)).2⟩, hap.2.1, fun n hn y hy => ?_⟩
    rcases List.mem_append.mp hn with hn | hn
    · exact hap.2.2 n (List.mem_append_left _ hn) y hy
    · exact ((hside y (Or.inr hy)).2 n hn).symm
  · cases pre with
    | nil =>
        rw [List.nil_append, List.head?_append_of_ne_nil _ hne] at hc
        exact hfirst rfl c hc
    | cons x pre => exact h.first c hc

/-- Chunks on both sides are apart from the stretch between them. -/
theorem far_of_tiles (h : Arena t (pre ++ old ++ post)) (hold : Tiles addr fin a b old)
    (hne : old ≠ []) (hc : c ∈ pre ∨ c ∈ post) : c.fin ≤ a ∨ b ≤ c.addr := by
  have hap := h.apart
  rw [List.pairwise_append, List.pairwise_append] at hap
  obtain ⟨⟨-, -, hpo⟩, -, hop⟩ := hap
  have hmem : c ∈ pre ++ old ++ post := by
    rw [List.mem_append, List.mem_append]
    exact hc.elim (fun h => Or.inl (Or.inl h)) Or.inr
  have hpos : ∀ o ∈ old, o.addr < o.fin := fun o ho =>
    (h.shape o (List.mem_append_left _ (List.mem_append_right _ ho))).lt_fin
  refine hold.apart hpos (h.shape c hmem).lt_fin hne fun o ho => ?_
  rcases hc with hc | hc
  · exact hpo c hc o ho
  · exact (hop o (List.mem_append_right _ ho) c hc).symm

/-- **Some chunks become others** that tile the same stretch: the first tells what the first
told, and the last, unless it ends the list, is of the kind of the last. -/
theorem splice (h : Arena t (pre ++ old ++ post)) (hold : Tiles addr fin a b old)
    (hnew : Tiles addr fin a b new) (hne : old ≠ []) (hne' : new ≠ [])
    (hw : t.Within a b t') (htag : ∀ c ∈ new, Tagged t' c) (hshape : ∀ c ∈ new, c.Shape)
    (hlinked : new.IsChain Link)
    (hfirst : ∀ o ∈ old.head?, ∀ n ∈ new.head?, n.pinuse = o.pinuse ∧
      (n.kind.inuse = false → n.pinuse = true))
    (hlast : post ≠ [] → ∀ o ∈ old.getLast?, ∀ n ∈ new.getLast?, n.kind = o.kind) :
    Arena t' (pre ++ new ++ post) := by
  obtain ⟨o, ho⟩ := Option.isSome_iff_exists.mp (List.isSome_head?.mpr hne)
  have hl := h.linked
  rw [List.isChain_append, List.isChain_append] at hl
  obtain ⟨⟨-, -, hpo⟩, -, hop⟩ := hl
  have hposn : ∀ c ∈ new, c.addr < c.fin := fun c hc => (hshape c hc).lt_fin
  refine h.replace (fun c hc => ⟨?_, fun n hn => ?_⟩) (hnew.pairwise hposn) htag hshape hlinked
    hne' (fun x hx n hn => ?_) (fun l hlast' y hy => ?_) fun hnil n hn => ?_
  · have hmem : c ∈ pre ++ old ++ post := by
      simp only [List.mem_append]
      tauto
    exact (h.tagged c hmem).frame (h.shape c hmem) hw (h.far_of_tiles hold hne hc)
  · have hfar := h.far_of_tiles hold hne hc
    have hin := hnew.within hposn hn
    unfold Apart
    omega
  · obtain ⟨hpn, hin⟩ := hfirst o ho n hn
    have hxo := hpo x hx o ho
    have haddr : n.addr = o.addr := (hnew.lo_head n hn).trans (hold.lo_head o ho).symm
    refine ⟨hxo.not_top, fun hk => haddr.trans (hxo.adjacent hk), ?_, fun hfree => ?_⟩
    · rw [hpn]
      exact hxo.pinuse
    · by_contra huse
      have hptrue := hin (Bool.eq_false_iff.mpr huse)
      rw [hpn] at hptrue
      exact hxo.pinuse.mp hptrue hfree
  · obtain ⟨o', ho'⟩ := Option.isSome_iff_exists.mp (List.getLast?_isSome.mpr hne)
    have hoy := hop o' (by rw [List.getLast?_append_of_ne_nil _ hne]; exact ho') y hy
    have hkind := hlast (List.ne_nil_of_mem (List.mem_of_mem_head? hy)) o' ho' l hlast'
    have hfin : l.fin = o'.fin :=
      (hnew.hi_getLast l hlast').trans (hold.hi_getLast o' ho').symm
    refine ⟨?_, ?_, ?_, ?_⟩
    · rw [hkind]
      exact hoy.not_top
    · rw [hkind, hfin]
      exact hoy.adjacent
    · rw [hkind]
      exact hoy.pinuse
    · rw [hkind]
      exact hoy.inuse
  · rw [(hfirst o ho n hn).1]
    refine h.first o ?_
    rw [hnil, List.nil_append, List.head?_append_of_ne_nil _ hne]
    exact ho

end Arena

end Porpoise.Dlmalloc
