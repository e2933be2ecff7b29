import Porpoise.Dlmalloc.Invariant

/-!
# New memory for the heap

A range of memory becomes part of the heap: as its first segment, behind the top, or as a
segment of its own, where the top goes and leaves fenceposts behind.

* `Fresh`: memory that is apart from all segments and mappings.
* `Layout.grow`: a segment joins, and the arena is one of the new segments.
* `Inv.initHeap`, `Inv.appendSeg`, `Inv.addSegment`: three ways to take a range.
-/

namespace Porpoise.Dlmalloc

open Porpoise.Lib Chunk

variable {m : MState} {t t' : Tags} {segs : List Seg} {cs pre post : List Chunk}
  {ks : List Mapping} {c d n : Chunk} {s r r' : Seg} {a b nb least : ℕ} {x : MParams}

/-! ## Memory that is new -/

/-- No segment and no mapping meets the memory from `a` to `b`. -/
structure Fresh (segs : List Seg) (ks : List Mapping) (a b : ℕ) : Prop where
  seg : ∀ r ∈ segs, r.fin ≤ a ∨ b ≤ r.base
  map : ∀ k ∈ ks, k.fin ≤ a ∨ b ≤ k.base

/-- No chunk meets it. -/
theorem Layout.far_of_fresh (h : Layout t segs least cs ks) (hf : Fresh segs ks a b)
    (hc : c ∈ cs) : c.fin ≤ a ∨ b ≤ c.addr := by
  obtain ⟨r, hr, hbase, hfin⟩ := h.inside c hc
  have hfar := hf.seg r hr
  omega

/-- The chunks beside the top are apart from what is between it and the end of its segment. -/
theorem Layout.far_of_top (h : Layout t segs least (pre ++ [n]) ks) (hr : r ∈ segs)
    (hbase : r.base ≤ n.addr) (hfin : n.fin ≤ r.fin)
    (hall : ∀ d ∈ pre ++ [n], r.base ≤ d.addr → d.addr < r.fin → d.fin ≤ n.fin) (hc : c ∈ pre) :
    c.fin ≤ n.addr ∨ r.fin ≤ c.addr := by
  have hcm : c ∈ pre ++ [n] := List.mem_append_left _ hc
  obtain ⟨q, hq, hqbase, hqfin⟩ := h.inside c hcm
  have hltc := (h.arena.shape c hcm).lt_fin
  have hltn := (h.arena.shape n (by simp)).lt_fin
  by_cases hqr : q = r
  · subst hqr
    have hle := hall c hcm hqbase (by omega)
    have hap : Apart addr fin c n :=
      (List.pairwise_append.mp h.arena.apart).2.2 c hc n List.mem_cons_self
    unfold Apart at hap
    omega
  · have hap := h.seg_apart.forall hq hr hqr
    unfold Apart at hap
    omega

/-- Only the last chunk is the top. -/
theorem Arena.not_top (h : Arena t (pre ++ c :: post)) (hpost : post ≠ []) : c.kind ≠ .top := by
  obtain ⟨y, post, rfl⟩ := List.exists_cons_of_ne_nil hpost
  exact (List.isChain_append_cons_cons.mp h.linked).2.1.not_top

theorem Arena.not_top_of_mem (h : Arena t (pre ++ [n])) (hc : c ∈ pre) : c.kind ≠ .top := by
  obtain ⟨l, l', rfl⟩ := List.append_of_mem hc
  rw [List.append_assoc, List.cons_append] at h
  exact h.not_top (by simp)

/-- The last chunk becomes one at the same place. -/
theorem Arena.replaceLast {v : Chunk} (h : Arena t (pre ++ [v]))
    (hside : ∀ c ∈ pre, Tagged t' c ∧ Apart addr fin c n) (htag : Tagged t' n) (hshape : n.Shape)
    (haddr : n.addr = v.addr) (hp : n.pinuse = v.pinuse) (hk : n.kind = v.kind) :
    Arena t' (pre ++ [n]) := by
  have hfirst := h.first
  have hl := (List.isChain_append.mp h.linked).2.2
  have harena := h
  rw [← List.append_nil (pre ++ [v])] at harena
  rw [← List.append_nil (pre ++ [n])]
  refine harena.replace (fun c hc => ?_) (List.pairwise_singleton _ _) ?_ ?_
    (List.isChain_singleton _) (by simp) ?_ (fun l _ y hy => by cases hy) ?_
  · obtain ⟨htagc, hap⟩ := hside c (hc.resolve_right List.not_mem_nil)
    refine ⟨htagc, fun o ho => ?_⟩
    cases List.mem_singleton.mp ho
    exact hap
  · intro o ho
    cases List.mem_singleton.mp ho
    exact htag
  · intro o ho
    cases List.mem_singleton.mp ho
    exact hshape
  · rintro x hx o ⟨⟩
    have hlink := hl x hx _ rfl
    exact ⟨hlink.not_top, fun hf => haddr.trans (hlink.adjacent hf), hp ▸ hlink.pinuse,
      fun hf => hk ▸ hlink.inuse hf⟩
  · rintro rfl o ⟨⟩
    rw [hp]
    exact hfirst v rfl

/-- The top is the one that the state names. -/
theorem Topped.eq_top (h : Topped m cs) (ha : Arena t cs) (hc : c ∈ cs) (hk : c.kind = .top) :
    c = ⟨m.top, m.topsize, true, .top⟩ := by
  rcases h with ⟨rfl, -⟩ | hlast
  · cases hc
  obtain ⟨pre, rfl⟩ := List.getLast?_eq_some_iff.mp hlast
  rcases List.mem_append.mp hc with hc | hc
  · exact absurd hk (ha.not_top_of_mem hc)
  · exact List.mem_singleton.mp hc

/-! ## Segments -/

/-- The segment that is assigned to is the first that meets the condition. -/
theorem updateSeg_eq {p : Seg → Bool} {f : Seg → Seg} (h : segs.find? p = some r) :
    ∃ l l', segs = l ++ r :: l' ∧ MState.updateSeg p f segs = l ++ f r :: l' := by
  induction segs with
  | nil => cases h
  | cons q segs ih =>
      unfold MState.updateSeg
      rw [List.find?_cons] at h
      rcases hq : p q with _ | _
      · rw [hq] at h
        obtain ⟨l, l', rfl, heq⟩ := ih h
        exact ⟨q :: l, l', rfl, by simp [heq]⟩
      · rw [hq] at h
        cases h
        exact ⟨[], segs, rfl, by simp⟩

theorem head?_updateSeg {p : Seg → Bool} {f : Seg → Seg} (hr : r ∈ segs.head?) :
    (if p r then f r else r) ∈ (MState.updateSeg p f segs).head? := by
  obtain ⟨l, rfl⟩ := List.head?_eq_some_iff.mp hr
  unfold MState.updateSeg
  split <;> simp

/-- A segment joins a list; the others stay, or become part of it. -/
structure Grown (segs segs' : List Seg) (r' : Seg) : Prop where
  mem : r' ∈ segs'
  of_mem : ∀ q ∈ segs', q = r' ∨ q ∈ segs
  to_mem : ∀ q ∈ segs, q ∈ segs' ∨ (r'.base ≤ q.base ∧ q.fin ≤ r'.fin)
  apart : segs'.Pairwise (Apart Seg.base Seg.fin)

/-- New memory is a segment of its own. -/
theorem Grown.cons (h : Layout t segs least cs ks) (hf : Fresh segs ks s.base s.fin) :
    Grown segs (s :: segs) s :=
  ⟨List.mem_cons_self, fun _ => List.mem_cons.mp, fun _ hq => Or.inl (List.mem_cons_of_mem _ hq),
    List.pairwise_cons.mpr ⟨fun q hq => (hf.seg q hq).symm, h.seg_apart⟩⟩

/-- A segment grows by memory that is new. -/
theorem Grown.of_update {p : Seg → Bool} {f : Seg → Seg} (h : Layout t segs least cs ks)
    (hfind : segs.find? p = some r) (hf : Fresh segs ks a b)
    (hsub : (f r).base ≤ r.base ∧ r.fin ≤ (f r).fin)
    (hnew : ∀ q : Seg, 0 < q.size → (q.fin ≤ a ∨ b ≤ q.base) → (q.fin ≤ r.base ∨ r.fin ≤ q.base) →
      q.fin ≤ (f r).base ∨ (f r).fin ≤ q.base) :
    Grown segs (MState.updateSeg p f segs) (f r) := by
  obtain ⟨l, l', rfl, heq⟩ := updateSeg_eq (f := f) hfind
  have hap := h.seg_apart
  rw [List.pairwise_append, List.pairwise_cons] at hap
  obtain ⟨hl, ⟨hr, hl'⟩, hll⟩ := hap
  have hmem : ∀ q, q ∈ l ∨ q ∈ l' → q ∈ l ++ r :: l' := by
    intro q hq
    simp only [List.mem_append, List.mem_cons]
    tauto
  have hfar : ∀ q, q ∈ l ∨ q ∈ l' → Apart Seg.base Seg.fin q (f r) := by
    intro q hq
    refine hnew q (h.seg_ok q (hmem q hq)).size_pos (hf.seg q (hmem q hq)) ?_
    rcases hq with hq | hq
    · exact hll q hq r List.mem_cons_self
    · exact (hr q hq).symm
  rw [heq]
  refine ⟨by simp, fun q hq => ?_, fun q hq => ?_, ?_⟩
  · simp only [List.mem_append, List.mem_cons] at hq ⊢
    tauto
  · simp only [List.mem_append, List.mem_cons] at hq ⊢
    rcases hq with hq | rfl | hq
    · exact Or.inl (Or.inl hq)
    · exact Or.inr hsub
    · exact Or.inl (Or.inr (Or.inr hq))
  · rw [List.pairwise_append, List.pairwise_cons]
    refine ⟨hl, ⟨fun q hq => (hfar q (Or.inr hq)).symm, hl'⟩, fun q hq y hy => ?_⟩
    rcases List.mem_cons.mp hy with rfl | hy
    · exact hfar q (Or.inl hq)
    · exact hll q hq y (List.mem_cons_of_mem _ hy)

/-- A range that the system may give. -/
structure Seg.Given (segs : List Seg) (ks : List Mapping) (s : Seg) : Prop where
  base_pos : 0 < s.base
  aligned : 16 ∣ s.base ∧ 16 ∣ s.size
  fin_le : s.fin ≤ 2 ^ 47
  pages : s.mmapped = true → 4096 ∣ s.size
  fresh : Fresh segs ks s.base s.fin

theorem Seg.Ok.mono {least' : ℕ} (h : s.Ok least) (hpos : 0 < least') (hle : least' ≤ least) :
    s.Ok least' :=
  ⟨hpos, Nat.le_trans hle h.least_le, h.size_gt, h.aligned, h.fin_le, h.pages⟩

theorem Mapping.Ok.mono {k : Mapping} {least' : ℕ} (h : k.Ok least) (hpos : 0 < least')
    (hle : least' ≤ least) : k.Ok least' :=
  ⟨hpos, Nat.le_trans hle h.least_le, h.base_le, h.fin_eq, h.large, h.aligned, h.pages⟩

/-- The tags of the mappings are apart from new memory. -/
theorem Layout.tagged_of_fresh {segs' : List Seg} {b' : ℕ} (h : Layout t segs least cs ks)
    (hf : Fresh segs' ks a b) (hw : t.Within a b' t') (hb : b' < b) : ∀ k ∈ ks, k.Tagged t' := by
  intro k hk
  refine (h.map_tagged k hk).frame (h.map_ok k hk) hw ?_
  have hfar := hf.map k hk
  omega

/-- **The heap gets memory:** a segment joins, and the arena is one of the new segments. -/
theorem Layout.grow {segs' : List Seg} {least' : ℕ} {cs' : List Chunk}
    (h : Layout t segs least cs ks) (hg : Grown segs segs' r') (hok : r'.Ok least')
    (hleast : 0 < least → least' ≤ least) (hmap : ∀ k ∈ ks, k.fin ≤ r'.base ∨ r'.fin ≤ k.base)
    (htagged : ∀ k ∈ ks, k.Tagged t') (harena : Arena t' cs')
    (hin : ∀ c ∈ cs', c ∈ cs ∨ ∃ q ∈ segs', q.base ≤ c.addr ∧ c.fin + 8 ≤ q.fin ∧
      (c.kind ≠ .fence → c.fin + topFootSize ≤ q.fin))
    (htop : ∀ c ∈ cs', c.kind = .top → ∃ q ∈ segs'.head?, q.base ≤ c.addr ∧
      c.fin + topFootSize = q.fin ∧ ∀ d ∈ cs', q.base ≤ d.addr → d.addr < q.fin → d.fin ≤ c.fin)
    (hstart : ∀ q ∈ segs', ∃ c ∈ cs', c.addr = q.base) : Layout t' segs' least' cs' ks := by
  refine ⟨harena, fun q hq => ?_, hg.apart, fun c hc => ?_, htop, hstart, fun k hk => ?_,
    htagged, h.map_apart, fun k hk q hq => ?_⟩
  · rcases hg.of_mem q hq with rfl | hq
    · exact hok
    · have hold := h.seg_ok q hq
      exact hold.mono hok.least_pos (hleast hold.least_pos)
  · rcases hin c hc with hc | hc
    · obtain ⟨q, hq, hbase, hfin, hroom⟩ := h.inside c hc
      rcases hg.to_mem q hq with hq | ⟨hb, hf⟩
      · exact ⟨q, hq, hbase, hfin, hroom⟩
      · exact ⟨r', hg.mem, by omega, by omega, fun hk => Nat.le_trans (hroom hk) hf⟩
    · exact hc
  · have hold := h.map_ok k hk
    exact hold.mono hok.least_pos (hleast hold.least_pos)
  · rcases hg.of_mem q hq with rfl | hq
    · exact hmap k hk
    · exact h.map_seg k hk q hq

/-! ## The new top -/

theorem alignOffset_of_dvd (h : 16 ∣ a) : alignOffset a = 0 :=
  if_pos (Nat.mod_eq_zero_of_dvd h)

theorem alignAsChunk_of_dvd (h : 16 ∣ a) : alignAsChunk a = a := by
  unfold alignAsChunk
  rw [alignOffset_of_dvd (show 16 ∣ chunk2mem a by unfold chunk2mem; omega)]
  rfl

theorem initTop_eq {p psize : ℕ} (h : 16 ∣ p) :
    m.initTop x p psize = { m with
      top := p
      topsize := psize
      trim_check := x.trim_threshold
      toTags := (m.setHead p ⟨psize, false, true⟩).setHead (p + psize)
        ⟨topFootSize, false, false⟩ } := by
  unfold MState.initTop
  rw [alignOffset_of_dvd (show 16 ∣ chunk2mem p by unfold chunk2mem; omega)]
  rfl

theorem newTop_within (t : Tags) (p psize : ℕ) (hb : p + psize < b) :
    t.Within p b ((t.setHead p ⟨psize, false, true⟩).setHead (p + psize)
      ⟨topFootSize, false, false⟩) :=
  ((Tags.Within.refl _ _ t).setHead (Nat.le_refl _) (by omega)).setHead (by omega) hb

theorem newTop_tagged (t : Tags) (p : ℕ) {psize : ℕ} (hpos : 0 < psize) :
    Tagged ((t.setHead p ⟨psize, false, true⟩).setHead (p + psize) ⟨topFootSize, false, false⟩)
      ⟨p, psize, true, .top⟩ := by
  refine ⟨?_, fun hk => by cases hk⟩
  show ((t.setHead p _).setHead (p + psize) _).head p = _
  rw [Tags.setHead_head_of_ne (by omega), Tags.setHead_head_self]
  rfl

theorem top_shape {p psize : ℕ} (hpos : 0 < p) (hsize : 0 < psize) (hp : 16 ∣ p)
    (hps : 16 ∣ psize) : (⟨p, psize, true, .top⟩ : Chunk).Shape :=
  ⟨hpos, hsize, fun _ => ⟨hp, hps⟩, fun _ hk => absurd rfl hk⟩

/-- The least address, when a range has come. -/
theorem least_le {l l' : ℕ} (hpos : 0 < s.base)
    (heq : l' = if l = 0 ∨ s.base < l then s.base else l) :
    0 < l' ∧ l' ≤ s.base ∧ (0 < l → l' ≤ l) := by
  rw [heq]
  split <;> omega

/-- A range is a good segment. -/
theorem Seg.Given.ok (h : s.Given segs ks) (hsize : topFootSize < s.size) (hpos : 0 < least)
    (hle : least ≤ s.base) : s.Ok least :=
  ⟨hpos, hle, hsize, h.aligned, h.fin_le, h.pages⟩

/-- **The first segment.** -/
theorem Inv.initHeap (h : Inv m cs ks) (htop : m.top = 0) (hs : s.Given m.segs ks)
    (hsize : sysAllocPadding ≤ s.size) :
    cs = [] ∧ Inv (m.initHeap x s) [⟨s.base, s.size - topFootSize, true, .top⟩] ks := by
  have hcs : cs = [] := by
    rcases h.topped with ⟨hcs, -⟩ | hlast
    · exact hcs
    · have hpos := h.layout.addr_pos (List.mem_of_getLast? hlast)
      exact absurd htop hpos.ne'
  subst hcs
  have hsegs : m.segs = [] := by
    refine List.eq_nil_iff_forall_not_mem.mpr fun q hq => ?_
    obtain ⟨c, hc, -⟩ := h.layout.start q hq
    cases hc
  refine ⟨rfl, ?_⟩
  unfold sysAllocPadding topFootSize at hsize
  have hroom : s.base + (s.size - topFootSize) + topFootSize = s.fin := by
    unfold Seg.fin topFootSize
    omega
  have hpos : 0 < s.size - topFootSize := by
    unfold topFootSize
    omega
  have hal := hs.aligned
  have hw := newTop_within (b := s.fin - 8) m.toTags s.base (s.size - topFootSize) (by
    unfold topFootSize at hroom ⊢
    omega)
  have hleast := least_le (l := m.least_addr) hs.base_pos rfl
  have hm : m.initHeap x s = { m with
      release_checks := maxReleaseCheckRate
      least_addr := if m.least_addr = 0 ∨ s.base < m.least_addr then s.base else m.least_addr
      segs := s :: m.segs
      top := s.base
      topsize := s.size - topFootSize
      trim_check := x.trim_threshold
      toTags := (m.setHead s.base ⟨s.size - topFootSize, false, true⟩).setHead
        (s.base + (s.size - topFootSize)) ⟨topFootSize, false, false⟩ } := by
    unfold MState.initHeap
    rw [initTop_eq hal.1, hsegs]
  rw [hm]
  have hgoal : ∀ c ∈ [(⟨s.base, s.size - topFootSize, true, .top⟩ : Chunk)],
      c = ⟨s.base, s.size - topFootSize, true, .top⟩ := fun c => List.mem_singleton.mp
  refine ⟨h.layout.grow (Grown.cons h.layout hs.fresh)
    (hs.ok (by unfold topFootSize; omega) hleast.1 hleast.2.1)
    hleast.2.2 hs.fresh.map (h.layout.tagged_of_fresh hs.fresh hw (by omega))
    ⟨?_, ?_, List.isChain_singleton _, List.pairwise_singleton _ _, ?_⟩ ?_ ?_ ?_, Or.inr rfl, ?_,
    h.bins.congr fun y s' => ?_⟩
  · intro c hc
    rw [hgoal c hc]
    exact newTop_tagged m.toTags s.base hpos
  · intro c hc
    rw [hgoal c hc]
    refine top_shape hs.base_pos hpos hal.1 ?_
    unfold topFootSize
    omega
  · rintro c ⟨⟩
    rfl
  · intro c hc
    rw [hgoal c hc]
    refine Or.inr ⟨s, List.mem_cons_self, Nat.le_refl _, ?_, fun _ => Nat.le_of_eq hroom⟩
    show s.base + (s.size - topFootSize) + 8 ≤ s.fin
    unfold topFootSize at hroom ⊢
    omega
  · intro c hc _
    rw [hgoal c hc]
    refine ⟨s, rfl, Nat.le_refl _, hroom, fun d hd _ _ => ?_⟩
    rw [hgoal d hd]
  · intro q hq
    rw [hsegs] at hq
    cases List.mem_singleton.mp hq
    exact ⟨_, List.mem_singleton_self _, rfl⟩
  · rcases h.victim with hv | hv
    · exact Or.inl hv
    · cases hv
  · unfold Binnable
    simp

/-- The top, its segment, and what is beside it. -/
theorem Inv.top_seg (h : Inv m cs ks) (hne : cs ≠ []) :
    ∃ pre r, cs = pre ++ [⟨m.top, m.topsize, true, .top⟩] ∧ r ∈ m.segs.head? ∧ r.base ≤ m.top ∧
      m.top + m.topsize + topFootSize = r.fin ∧
      (∀ d ∈ cs, r.base ≤ d.addr → d.addr < r.fin → d.fin ≤ m.top + m.topsize) ∧
      ∀ q ∈ m.segs, q.holds m.top = true → q = r := by
  rcases h.topped with ⟨hnil, -⟩ | hlast
  · exact absurd hnil hne
  obtain ⟨pre, rfl⟩ := List.getLast?_eq_some_iff.mp hlast
  have hmem : (⟨m.top, m.topsize, true, .top⟩ : Chunk) ∈
      pre ++ [⟨m.top, m.topsize, true, .top⟩] := by simp
  obtain ⟨r, hr, hbase, hroom, hall⟩ := h.layout.top_room _ hmem rfl
  change r.base ≤ m.top at hbase
  change m.top + m.topsize + topFootSize = r.fin at hroom
  refine ⟨pre, r, rfl, hr, hbase, hroom, hall, fun q hq hholds => ?_⟩
  unfold Seg.holds at hholds
  rw [Bool.and_eq_true, decide_eq_true_eq, decide_eq_true_eq] at hholds
  refine h.layout.seg_unique hq (List.mem_of_mem_head? hr) (x := m.top) hholds ⟨hbase, ?_⟩
  unfold topFootSize at hroom
  omega

/-- The walk over the segments finds the one of the top. -/
theorem find_top (hr : r ∈ m.segs) (hbase : r.base ≤ m.top)
    (hroom : m.top + m.topsize + topFootSize = r.fin)
    (hunique : ∀ q ∈ m.segs, q.holds m.top = true → q = r) :
    m.segs.find? (·.holds m.top) = some r := by
  have hholds : r.holds m.top = true := by
    unfold topFootSize at hroom
    unfold Seg.holds
    rw [Bool.and_eq_true, decide_eq_true_eq, decide_eq_true_eq]
    omega
  have hsome : (m.segs.find? (·.holds m.top)).isSome = true :=
    List.find?_isSome.mpr ⟨r, hr, hholds⟩
  obtain ⟨q, hq⟩ := Option.isSome_iff_exists.mp hsome
  have hqh := List.find?_some hq
  rw [hq, hunique q (List.mem_of_find?_eq_some hq) hqh]

/-- Behind a chunk that is not the top is another. -/
theorem Inv.next (h : Inv m (pre ++ [c] ++ post) ks) (hk : c.kind ≠ .top) :
    ∃ n post', post = n :: post' ∧ Link c n := by
  have hpost := h.topped.ne_nil (by simp) fun o ho => by
    cases ho
    exact hk
  obtain ⟨n, post, rfl⟩ := List.exists_cons_of_ne_nil hpost
  have hcut : pre ++ [c] ++ n :: post = pre ++ [c, n] ++ post := by simp
  exact ⟨n, post, rfl, (hcut ▸ h.layout.arena).link⟩

/-- Behind a free chunk is one that is in use, and its flag is off. -/
theorem Inv.next_free (h : Inv m (pre ++ [c] ++ post) ks) (hk : c.kind = .free) :
    ∃ n post', post = n :: post' ∧ n.addr = c.fin ∧ n.kind.inuse = true ∧ n.pinuse = false := by
  obtain ⟨n, post, rfl, hlink⟩ := h.next (by rw [hk]; exact nofun)
  refine ⟨n, post, rfl, hlink.adjacent (by rw [hk]; exact nofun), hlink.inuse hk, ?_⟩
  by_contra hp
  exact hlink.pinuse.mp (Bool.not_eq_false _ ▸ hp) hk

/-- What is in the place of the top is the top again. -/
theorem Inv.resizeTop {m' : MState} {size : ℕ}
    (h : Inv m (pre ++ [⟨m.top, m.topsize, true, .top⟩]) ks)
    (hlayout : Layout m'.toTags m'.segs m'.least_addr (pre ++ [⟨m.top, size, true, .top⟩]) ks)
    (htop : m'.top = m.top) (hsize : m'.topsize = size) (hbins : m'.toBins = m.toBins)
    (hdv : m'.dv = m.dv) (hdvsize : m'.dvsize = m.dvsize) :
    Inv m' (pre ++ [⟨m.top, size, true, .top⟩]) ks := by
  have hfree : ∀ y s', (⟨y, s', true, .free⟩ : Chunk) ∈ pre ++ [⟨m.top, size, true, .top⟩] ↔
      (⟨y, s', true, .free⟩ : Chunk) ∈ pre ++ [⟨m.top, m.topsize, true, .top⟩] := by
    intro y s'
    simp
  refine ⟨hlayout, Or.inr ?_, ?_, ?_⟩
  · rw [htop, hsize]
    simp
  · unfold Victim
    rw [hdv, hdvsize, hfree]
    exact h.victim
  · rw [hbins, hdv]
    exact h.bins.congr fun y s' => and_congr_right fun _ => hfree y s'

/-- **The segment of the top grows,** and the top with it. -/
theorem Inv.appendSeg (h : Inv m cs ks) (hs : s.Given m.segs ks) (hr : m.appendTo s = some r) :
    ∃ pre, cs = pre ++ [⟨m.top, m.topsize, true, .top⟩] ∧
      Inv (m.appendSeg x s) (pre ++ [⟨m.top, m.topsize + s.size, true, .top⟩]) ks := by
  unfold MState.appendTo at hr
  obtain ⟨hfind, hcond⟩ := Option.filter_eq_some_iff.mp hr
  rw [Bool.and_eq_true] at hcond
  have hrm := List.mem_of_find?_eq_some hfind
  have hbase : s.base = r.fin := by
    have heq := List.find?_some hfind
    exact eq_of_beq heq
  obtain ⟨c, hc, -⟩ := h.layout.start r hrm
  obtain ⟨pre, r₀, rfl, hhead, hbelow, hroom, hall, hunique⟩ := h.top_seg (List.ne_nil_of_mem hc)
  cases hunique r hrm hcond.2
  refine ⟨pre, rfl, ?_⟩
  have hst := h.layout.arena.shape ⟨m.top, m.topsize, true, .top⟩ (by simp)
  have halt : 16 ∣ m.top ∧ 16 ∣ m.topsize := hst.aligned (by exact nofun)
  have hpost : 0 < m.top ∧ 0 < m.topsize := ⟨hst.addr_pos, hst.size_pos⟩
  have hal := hs.aligned
  have hfin : s.fin = s.base + s.size := rfl
  have hrfin : r.fin = r.base + r.size := rfl
  have hrok := h.layout.seg_ok r hrm
  have hral := hrok.aligned
  have hr'fin : r.base + (r.size + s.size) = s.fin := by omega
  have hgrown : Grown m.segs (MState.updateSeg (fun r => s.base == r.fin)
      (fun r => { r with size := r.size + s.size }) m.segs)
      { r with size := r.size + s.size } := by
    refine Grown.of_update h.layout hfind hs.fresh ⟨Nat.le_refl _, ?_⟩ fun q hpos hqs hqr => ?_
    · show r.fin ≤ r.base + (r.size + s.size)
      omega
    · show q.fin ≤ r.base ∨ r.base + (r.size + s.size) ≤ q.base
      have hqfin : q.fin = q.base + q.size := rfl
      omega
  have hm : m.appendSeg x s = { m with
      segs := MState.updateSeg (fun r => s.base == r.fin)
        (fun r => { r with size := r.size + s.size }) m.segs
      topsize := m.topsize + s.size
      trim_check := x.trim_threshold
      toTags := (m.setHead m.top ⟨m.topsize + s.size, false, true⟩).setHead
        (m.top + (m.topsize + s.size)) ⟨topFootSize, false, false⟩ } := by
    unfold MState.appendSeg
    rw [initTop_eq halt.1]
  rw [hm]
  unfold topFootSize at hroom
  have hw := newTop_within (b := s.fin - 8) m.toTags m.top (m.topsize + s.size)
    (by omega)
  have hfirst : ({ r with size := r.size + s.size } : Seg) ∈
      (MState.updateSeg (fun r => s.base == r.fin)
        (fun r => { r with size := r.size + s.size }) m.segs).head? := by
    have hupdate := head?_updateSeg (p := fun r => s.base == r.fin)
      (f := fun r => { r with size := r.size + s.size }) hhead
    rwa [if_pos (beq_iff_eq.mpr hbase)] at hupdate
  have hmap : ∀ k ∈ ks, k.fin ≤ r.base ∨ r.base + (r.size + s.size) ≤ k.base := by
    intro k hk
    have hkr := h.layout.map_seg k hk r hrm
    have hks := hs.fresh.map k hk
    have hkb := (h.layout.map_ok k hk).base_le
    have hkf := (h.layout.map_ok k hk).fin_le
    omega
  have hfar : ∀ c ∈ pre, c.fin ≤ m.top ∨ s.fin ≤ c.addr := by
    intro c hc
    have hcm : c ∈ pre ++ [⟨m.top, m.topsize, true, .top⟩] := List.mem_append_left _ hc
    have hlt := (h.layout.arena.shape c hcm).lt_fin
    have htop : c.fin ≤ m.top ∨ r.fin ≤ c.addr :=
      h.layout.far_of_top hrm hbelow (by show m.top + m.topsize ≤ r.fin; omega) hall hc
    have hnew := h.layout.far_of_fresh hs.fresh hcm
    omega
  refine h.resizeTop (h.layout.grow hgrown ?_ (fun _ => Nat.le_refl _) hmap (fun k hk => ?_)
    (h.layout.arena.replaceLast (fun c hc => ⟨?_, ?_⟩) (newTop_tagged m.toTags m.top (by omega))
      (top_shape hpost.1 (by omega) halt.1 (by omega)) rfl rfl rfl) ?_ ?_ ?_) rfl rfl rfl rfl rfl
  · refine ⟨hrok.least_pos, hrok.least_le, Nat.lt_of_lt_of_le hrok.size_gt (Nat.le_add_right _ _),
      ⟨hral.1, by show 16 ∣ r.size + s.size; omega⟩, ?_, fun hmm => ?_⟩
    · show r.base + (r.size + s.size) ≤ 2 ^ 47
      rw [hr'fin]
      exact hs.fin_le
    · have hsm : s.mmapped = true := (eq_of_beq (Bool.and_eq_true _ _ ▸ hcond).1).symm.trans hmm
      exact Nat.dvd_add (hrok.pages hmm) (hs.pages hsm)
  · refine (h.layout.map_tagged k hk).frame (h.layout.map_ok k hk) hw ?_
    have hkm := hmap k hk
    omega
  · have hcm : c ∈ pre ++ [⟨m.top, m.topsize, true, .top⟩] := List.mem_append_left _ hc
    have hf := hfar c hc
    exact (h.layout.arena.tagged c hcm).frame (h.layout.arena.shape c hcm) hw (by omega)
  · have hf := hfar c hc
    show c.fin ≤ m.top ∨ m.top + (m.topsize + s.size) ≤ c.addr
    omega
  · intro c hc
    rcases List.mem_append.mp hc with hc | hc
    · exact Or.inl (List.mem_append_left _ hc)
    · cases List.mem_singleton.mp hc
      refine Or.inr ⟨_, hgrown.mem, hbelow, ?_, fun _ => ?_⟩
      · show m.top + (m.topsize + s.size) + 8 ≤ r.base + (r.size + s.size)
        omega
      · show m.top + (m.topsize + s.size) + 80 ≤ r.base + (r.size + s.size)
        omega
  · intro c hc hk
    rcases List.mem_append.mp hc with hc | hc
    · exact absurd hk (h.layout.arena.not_top_of_mem hc)
    · cases List.mem_singleton.mp hc
      refine ⟨_, hfirst, hbelow, ?_, fun d hd hdb hdf => ?_⟩
      · show m.top + (m.topsize + s.size) + 80 = r.base + (r.size + s.size)
        omega
      · show d.fin ≤ m.top + (m.topsize + s.size)
        change d.addr < r.base + (r.size + s.size) at hdf
        rcases List.mem_append.mp hd with hd | hd
        · have hf := hfar d hd
          omega
        · cases List.mem_singleton.mp hd
          exact Nat.le_refl _
  · intro q hq
    have hstart : ∃ c ∈ pre ++ [⟨m.top, m.topsize, true, .top⟩], c.addr = q.base := by
      rcases hgrown.of_mem q hq with rfl | hq
      · exact h.layout.start r hrm
      · exact h.layout.start q hq
    obtain ⟨c, hc, haddr⟩ := hstart
    rcases List.mem_append.mp hc with hc | hc
    · exact ⟨c, List.mem_append_left _ hc, haddr⟩
    · cases List.mem_singleton.mp hc
      exact ⟨_, List.mem_append_right _ (List.mem_singleton_self _), haddr⟩

/-! ## A segment of its own -/

/-- The fenceposts from `p` on. -/
def fences (p : ℕ) : ℕ → List Chunk
  | 0 => []
  | k + 1 => ⟨p, 8, true, .fence⟩ :: fences (p + 8) k

theorem tiles_fences (p k : ℕ) : Tiles addr fin p (p + 8 * k) (fences p k) := by
  induction k generalizing p with
  | zero => exact rfl
  | succ k ih =>
      refine ⟨rfl, ?_⟩
      rw [show p + 8 * (k + 1) = p + 8 + 8 * k by omega]
      exact ih (p + 8)

theorem mem_fences {p k : ℕ} (hc : c ∈ fences p k) :
    c = ⟨c.addr, 8, true, .fence⟩ ∧ p ≤ c.addr := by
  induction k generalizing p with
  | zero => cases hc
  | succ k ih =>
      rcases List.mem_cons.mp hc with rfl | hc
      · exact ⟨rfl, Nat.le_refl _⟩
      · have hfence := ih hc
        exact ⟨hfence.1, by omega⟩

theorem fences_shape {p k : ℕ} (hp : 0 < p) (hc : c ∈ fences p k) : c.Shape := by
  obtain ⟨heq, hle⟩ := mem_fences hc
  rw [heq]
  exact ⟨by show 0 < c.addr; omega, Nat.zero_lt_succ 7, fun hk => absurd rfl hk,
    fun hk => absurd rfl hk⟩

/-- Each fence comes behind one in use. -/
theorem fences_linked {p k : ℕ} (hd : d.kind = .fence) :
    (d :: fences p k).IsChain Link := by
  induction k generalizing p d with
  | zero => exact List.isChain_singleton _
  | succ k ih =>
      refine List.isChain_cons_cons.mpr ⟨⟨?_, fun hk => absurd hd hk, ?_, ?_⟩, ih rfl⟩
      · rw [hd]
        exact nofun
      · rw [hd]
        exact ⟨fun _ => nofun, fun _ => rfl⟩
      · rw [hd]
        exact nofun

theorem getLast_fences {p k : ℕ} (hd : d.kind = .fence) :
    ∀ c ∈ (d :: fences p k).getLast?, c.kind = .fence := by
  intro c hc
  rcases List.mem_cons.mp (List.mem_of_getLast? hc) with rfl | hc
  · exact hd
  · rw [(mem_fences hc).1]

/-- The loop writes all fenceposts, and nothing else. -/
theorem fenceposts_spec {k p : ℕ} (t : Tags) (hb : b = p + 8 * k + 16) :
    t.Within p (p + 8 * (k + 1)) (MState.fenceposts b t p) ∧
      ∀ c ∈ fences p (k + 1), (MState.fenceposts b t p).head c.addr = c.head := by
  induction k generalizing t p with
  | zero =>
      unfold MState.fenceposts
      rw [if_neg (by omega)]
      refine ⟨(Tags.Within.refl _ _ t).setHead (Nat.le_refl _) (by omega), fun c hc => ?_⟩
      cases List.mem_singleton.mp hc
      exact Tags.setHead_head_self ..
  | succ k ih =>
      unfold MState.fenceposts
      rw [if_pos (by omega)]
      obtain ⟨hw, hhead⟩ := ih (p := p + 8) (t.setHead p ⟨8, true, true⟩) (by omega)
      refine ⟨?_, fun c hc => ?_⟩
      · have hstep : t.Within p (p + 8 * (k + 1 + 1)) (t.setHead p ⟨8, true, true⟩) :=
          (Tags.Within.refl _ _ t).setHead (Nat.le_refl _) (by omega)
        exact hstep.trans (hw.mono (by omega) (by omega))
      · rcases List.mem_cons.mp hc with rfl | hc
        · show (MState.fenceposts b (t.setHead p _) (p + 8)).head p = _
          rw [hw.head p (by omega), Tags.setHead_head_self]
          rfl
        · exact hhead c hc

/-- The chunks in the place of the top when the top goes elsewhere. -/
structure Retired (t' : Tags) (a b : ℕ) (l : List Chunk) : Prop where
  tiles : Tiles addr fin a b l
  ne_nil : l ≠ []
  tagged : ∀ c ∈ l, Tagged t' c
  shape : ∀ c ∈ l, c.Shape
  linked : l.IsChain Link
  first : ∀ c ∈ l.head?, c.pinuse = true
  last : ∀ c ∈ l.getLast?, c.kind = .fence
  kind : ∀ c ∈ l, c.kind = .fence ∨ (c.kind = .free ∧ c.addr = a)
  room : ∀ c ∈ l, c.kind ≠ .fence → c.fin + 72 ≤ b

/-- **The top goes to a new segment.** -/
theorem Layout.addSegment {l : List Chunk} {v : Chunk} {t₁ : Tags} {least' : ℕ}
    (h : Layout t segs least (pre ++ [v]) ks) (hr : r ∈ segs)
    (hbase : r.base ≤ v.addr) (hroom : v.fin + 80 = r.fin)
    (hall : ∀ d ∈ pre ++ [v], r.base ≤ d.addr → d.addr < r.fin → d.fin ≤ v.fin)
    (hv : v.kind = .top) (hs : s.Given segs ks) (hsize : sysAllocPadding ≤ s.size)
    (hl : Retired t' v.addr b l) (hb : b + 8 = r.fin) (hw : t.Within s.base (s.fin - 8) t₁)
    (hw' : t₁.Within v.addr b t')
    (htop : Tagged t₁ ⟨s.base, s.size - topFootSize, true, .top⟩)
    (hleast : 0 < least' ∧ least' ≤ s.base ∧ least' ≤ least) :
    Layout t' (s :: segs) least'
      (pre ++ (l ++ [⟨s.base, s.size - topFootSize, true, .top⟩])) ks := by
  have hal := hs.aligned
  have hfin : s.fin = s.base + s.size := rfl
  unfold sysAllocPadding topFootSize at hsize
  unfold topFootSize at htop ⊢
  have hrs := hs.fresh.seg r hr
  have hlt : ∀ c ∈ l, c.addr < c.fin := fun c hc => (hl.shape c hc).lt_fin
  have hmemv : v ∈ pre ++ [v] := by simp
  have hltv := (h.arena.shape v hmemv).lt_fin
  have hnew : (⟨s.base, s.size - 80, true, .top⟩ : Chunk).Shape :=
    top_shape hs.base_pos (by omega) hal.1 (by omega)
  have hltn : s.base < s.base + (s.size - 80) := hnew.lt_fin
  have hfar : ∀ c ∈ pre, (c.fin ≤ v.addr ∨ r.fin ≤ c.addr) ∧ (c.fin ≤ s.base ∨ s.fin ≤ c.addr) :=
    fun c hc => ⟨h.far_of_top hr hbase (by omega) hall hc,
      h.far_of_fresh hs.fresh (List.mem_append_left _ hc)⟩
  have hlast : (l ++ [(⟨s.base, s.size - 80, true, .top⟩ : Chunk)]).head? = l.head? :=
    List.head?_append_of_ne_nil _ hl.ne_nil
  have harena : Arena t' (pre ++ (l ++ [⟨s.base, s.size - 80, true, .top⟩]) ++ []) := by
    have harena := h.arena
    have hlv := (List.isChain_append.mp h.arena.linked).2.2
    rw [← List.append_nil (pre ++ [v])] at harena
    refine harena.replace (fun c hc => ?_) ?_ (fun c hc => ?_) (fun c hc => ?_) ?_ (by simp)
      (fun x hx n hn => ?_) (fun _ _ y hy => by cases hy) (fun hnil n hn => ?_)
    · have hc := hc.resolve_right List.not_mem_nil
      have hcm : c ∈ pre ++ [v] := List.mem_append_left _ hc
      have hshape := h.arena.shape c hcm
      obtain ⟨hfv, hfs⟩ := hfar c hc
      refine ⟨((h.arena.tagged c hcm).frame hshape hw (by omega)).frame hshape hw' (by omega),
        fun n hn => ?_⟩
      rcases List.mem_append.mp hn with hn | hn
      · have hin := hl.tiles.within hlt hn
        show c.fin ≤ n.addr ∨ n.fin ≤ c.addr
        omega
      · cases List.mem_singleton.mp hn
        show c.fin ≤ s.base ∨ s.base + (s.size - 80) ≤ c.addr
        omega
    · rw [List.pairwise_append]
      refine ⟨hl.tiles.pairwise hlt, List.pairwise_singleton _ _, fun c hc n hn => ?_⟩
      cases List.mem_singleton.mp hn
      have hin := hl.tiles.within hlt hc
      show c.fin ≤ s.base ∨ s.base + (s.size - 80) ≤ c.addr
      omega
    · rcases List.mem_append.mp hc with hc | hc
      · exact hl.tagged c hc
      · cases List.mem_singleton.mp hc
        exact htop.frame hnew hw' (by show s.base + (s.size - 80) ≤ v.addr ∨ b ≤ s.base; omega)
    · rcases List.mem_append.mp hc with hc | hc
      · exact hl.shape c hc
      · cases List.mem_singleton.mp hc
        exact hnew
    · rw [List.isChain_append]
      refine ⟨hl.linked, List.isChain_singleton _, fun c hc n hn => ?_⟩
      cases hn
      have hk := hl.last c hc
      refine ⟨?_, fun hne => absurd hk hne, ?_, ?_⟩
      · rw [hk]
        exact nofun
      · rw [hk]
        exact ⟨fun _ => nofun, fun _ => rfl⟩
      · rw [hk]
        exact nofun
    · rw [hlast] at hn
      have hlink := hlv x hx v rfl
      have hxfree : x.kind ≠ .free := by
        intro hk
        have huse := hlink.inuse hk
        rw [hv] at huse
        cases huse
      exact ⟨hlink.not_top, fun hk => (hl.tiles.lo_head n hn).trans (hlink.adjacent hk),
        ⟨fun _ => hxfree, fun _ => hl.first n hn⟩, fun hk => absurd hk hxfree⟩
    · rw [hlast] at hn
      exact hl.first n hn
  rw [List.append_nil] at harena
  have hsplit : ∀ c, c ∈ pre ++ (l ++ [(⟨s.base, s.size - 80, true, .top⟩ : Chunk)]) →
      c ∈ pre ∨ c ∈ l ∨ c = ⟨s.base, s.size - 80, true, .top⟩ := by
    intro c hc
    simpa only [List.mem_append, List.mem_singleton] using hc
  refine h.grow (Grown.cons h hs.fresh)
    (hs.ok (by unfold topFootSize; omega) hleast.1 hleast.2.1)
    (fun _ => hleast.2.2) hs.fresh.map (fun k hk => ?_) harena (fun c hc => ?_)
    (fun c hc hk => ?_) (fun q hq => ?_)
  · have hkr := h.map_seg k hk r hr
    refine (h.tagged_of_fresh hs.fresh hw ?_ k hk).frame (h.map_ok k hk) hw' ?_
    all_goals omega
  · rcases hsplit c hc with hc | hc | rfl
    · exact Or.inl (List.mem_append_left _ hc)
    · have hin := hl.tiles.within hlt hc
      refine Or.inr ⟨r, List.mem_cons_of_mem _ hr, by omega, by omega, fun hk => ?_⟩
      have hroom := hl.room c hc hk
      unfold topFootSize
      omega
    · refine Or.inr ⟨s, List.mem_cons_self, Nat.le_refl _, ?_, fun _ => ?_⟩
      · show s.base + (s.size - 80) + 8 ≤ s.fin
        omega
      · show s.base + (s.size - 80) + 80 ≤ s.fin
        omega
  · rcases hsplit c hc with hc | hc | rfl
    · exact absurd hk (h.arena.not_top_of_mem hc)
    · rcases hl.kind c hc with hf | ⟨hf, -⟩
      · rw [hf] at hk
        cases hk
      · rw [hf] at hk
        cases hk
    · refine ⟨s, rfl, Nat.le_refl _, ?_, fun d hd hdb hdf => ?_⟩
      · show s.base + (s.size - 80) + 80 = s.fin
        omega
      · show d.fin ≤ s.base + (s.size - 80)
        rcases hsplit d hd with hd | hd | rfl
        · have hlt := (h.arena.shape d (List.mem_append_left _ hd)).lt_fin
          have hf := hfar d hd
          omega
        · have hin := hl.tiles.within hlt hd
          have hltd := hlt d hd
          omega
        · exact Nat.le_refl _
  · rcases List.mem_cons.mp hq with rfl | hq
    · exact ⟨⟨q.base, q.size - 80, true, .top⟩, by simp, rfl⟩
    · obtain ⟨c, hc, haddr⟩ := h.start q hq
      rcases List.mem_append.mp hc with hc | hc
      · exact ⟨c, List.mem_append_left _ hc, haddr⟩
      · cases List.mem_singleton.mp hc
        obtain ⟨n, hn⟩ := Option.isSome_iff_exists.mp (List.isSome_head?.mpr hl.ne_nil)
        refine ⟨n, ?_, (hl.tiles.lo_head n hn).trans haddr⟩
        have hnl := List.mem_of_mem_head? hn
        simp [hnl]

/-- The record of the segments and the fenceposts take the place of a top that is too small. -/
theorem retired_small {p : ℕ} (t : Tags) (hp : 0 < p) (hb : b = p + 96) :
    t.Within p (p + 88) (MState.fenceposts b (t.setHead p ⟨48, true, true⟩) (p + 48)) ∧
      Retired (MState.fenceposts b (t.setHead p ⟨48, true, true⟩) (p + 48)) p (p + 88)
        (⟨p, 48, true, .fence⟩ :: fences (p + 48) 5) := by
  obtain ⟨hw, hhead⟩ := fenceposts_spec (k := 4) (p := p + 48) (t.setHead p ⟨48, true, true⟩)
    (b := b) (by omega)
  have hstep : t.Within p (p + 88) (t.setHead p ⟨48, true, true⟩) :=
    (Tags.Within.refl _ _ t).setHead (Nat.le_refl _) (by omega)
  have hkind : ∀ c ∈ (⟨p, 48, true, .fence⟩ : Chunk) :: fences (p + 48) 5, c.kind = .fence := by
    intro c hc
    rcases List.mem_cons.mp hc with rfl | hc
    · rfl
    · rw [(mem_fences hc).1]
  refine ⟨hstep.trans (hw.mono (by omega) (by omega)), ⟨rfl, tiles_fences (p + 48) 5⟩, by simp,
    fun c hc => ?_, fun c hc => ?_, fences_linked rfl, ?_, getLast_fences rfl,
    fun c hc => Or.inl (hkind c hc), fun c hc hk => absurd (hkind c hc) hk⟩
  · rcases List.mem_cons.mp hc with rfl | hc
    · refine ⟨?_, fun hk => by cases hk⟩
      rw [hw.head p (by omega), Tags.setHead_head_self]
      rfl
    · refine ⟨hhead c hc, fun hk => ?_⟩
      rw [(mem_fences hc).1] at hk
      cases hk
  · rcases List.mem_cons.mp hc with rfl | hc
    · exact ⟨hp, Nat.zero_lt_succ 47, fun hk => absurd rfl hk, fun hk => absurd rfl hk⟩
    · exact fences_shape (by omega) hc
  · rintro c ⟨⟩
    rfl

/-- They come behind the old top, which is a free chunk then. -/
theorem retired_large {p e : ℕ} (size : ℕ) (t : Tags) (hp : 0 < p) (hal : 16 ∣ p ∧ 16 ∣ size)
    (hsize : minChunkSize ≤ size) (he : e = p + size) (hb : b = e + 80) :
    t.Within p (e + 72) ((MState.fenceposts b (t.setHead e ⟨48, true, true⟩)
        (e + 48)).setFreeWithPinuse p size e) ∧
      Retired ((MState.fenceposts b (t.setHead e ⟨48, true, true⟩) (e + 48)).setFreeWithPinuse
        p size e) p (e + 72)
        (⟨p, size, true, .free⟩ :: ⟨e, 48, false, .fence⟩ :: fences (e + 48) 3) := by
  obtain ⟨hw, hhead⟩ := fenceposts_spec (k := 2) (p := e + 48) (t.setHead e ⟨48, true, true⟩)
    (b := b) (by omega)
  have hpos : 0 < size := Nat.lt_of_lt_of_le (by decide) hsize
  have hstep : t.Within p (e + 72) (t.setHead e ⟨48, true, true⟩) :=
    (Tags.Within.refl _ _ t).setHead (by omega) (by omega)
  have hw' := hstep.trans (hw.mono (by omega) (by omega))
  have hheade : (MState.fenceposts b (t.setHead e ⟨48, true, true⟩) (e + 48)).head e =
      ⟨48, true, true⟩ := by
    rw [hw.head e (by omega), Tags.setHead_head_self]
  generalize MState.fenceposts b (t.setHead e ⟨48, true, true⟩) (e + 48) = t₂ at hw' hheade hhead
  have hfree : t.Within p (e + 72) (t₂.setFreeWithPinuse p size e) := by
    refine ((hw'.setHead ?_ ?_).setHead ?_ ?_).setFoot ?_ ?_
    all_goals omega
  refine ⟨hfree, ⟨rfl, he, tiles_fences (e + 48) 3⟩, by simp, fun c hc => ?_, fun c hc => ?_,
    ?_, ?_, ?_, fun c hc => ?_, fun c hc hk => ?_⟩
  · rcases List.mem_cons.mp hc with rfl | hc
    · exact ⟨Tags.setHead_head_self .., fun _ => Tags.setFoot_prev_foot_self ..⟩
    rcases List.mem_cons.mp hc with rfl | hc
    · refine ⟨?_, fun hk => by cases hk⟩
      show ((t₂.setHead e { t₂.head e with pinuse := false }).setHead p _).head e = _
      rw [Tags.setHead_head_of_ne (by omega), Tags.setHead_head_self, hheade]
      rfl
    · obtain ⟨heq, hle⟩ := mem_fences hc
      refine ⟨?_, fun hk => ?_⟩
      · show ((t₂.setHead e { t₂.head e with pinuse := false }).setHead p _).head c.addr = _
        rw [Tags.setHead_head_of_ne (by omega), Tags.setHead_head_of_ne (by omega)]
        exact hhead c hc
      · rw [heq] at hk
        cases hk
  · rcases List.mem_cons.mp hc with rfl | hc
    · exact ⟨hp, hpos, fun _ => hal, fun _ _ => hsize⟩
    rcases List.mem_cons.mp hc with rfl | hc
    · exact ⟨by show 0 < e; omega, Nat.zero_lt_succ 47, fun hk => absurd rfl hk,
        fun hk => absurd rfl hk⟩
    · exact fences_shape (by omega) hc
  · exact List.isChain_cons_cons.mpr ⟨⟨nofun, fun _ => he, ⟨nofun, fun hk => absurd rfl hk⟩,
      fun _ => rfl⟩, fences_linked rfl⟩
  · rintro c ⟨⟩
    rfl
  · exact getLast_fences (d := ⟨e, 48, false, .fence⟩) rfl
  · rcases List.mem_cons.mp hc with rfl | hc
    · exact Or.inr ⟨rfl, rfl⟩
    rcases List.mem_cons.mp hc with rfl | hc
    · exact Or.inl rfl
    · rw [(mem_fences hc).1]
      exact Or.inl rfl
  · rcases List.mem_cons.mp hc with rfl | hc
    · show p + size + 72 ≤ e + 72
      omega
    rcases List.mem_cons.mp hc with rfl | hc
    · exact absurd rfl hk
    · rw [(mem_fences hc).1] at hk
      exact absurd rfl hk

/-- A free chunk in no bin that is not there. -/
theorem Pending.inv {y : ℕ} (h : Pending m cs ks y)
    (hy : ∀ s', (⟨y, s', true, .free⟩ : Chunk) ∉ cs) : Inv m cs ks :=
  ⟨h.layout, h.topped, h.victim, h.bins.congr fun _ s' =>
    ⟨fun hz => ⟨hz, fun heq => hy s' (heq ▸ hz.2)⟩, fun hz => hz.1⟩⟩

/-- The state when the top has gone to a new segment and what was the top is retired. -/
theorem Inv.retire {l : List Chunk} {size : ℕ} (m' : MState)
    (h : Inv m (pre ++ [⟨m.top, m.topsize, true, .top⟩]) ks) (hl : Retired m'.toTags m.top b l)
    (hlayout : Layout m'.toTags m'.segs m'.least_addr
      (pre ++ (l ++ [⟨s.base, size, true, .top⟩])) ks)
    (htop : m'.top = s.base) (hsize : m'.topsize = size) (hbins : m'.toBins = m.toBins)
    (hdv : m'.dv = m.dv) (hdvsize : m'.dvsize = m.dvsize) :
    Pending m' (pre ++ (l ++ [⟨s.base, size, true, .top⟩])) ks m.top := by
  have hfree : ∀ y s', y ≠ m.top →
      ((⟨y, s', true, .free⟩ : Chunk) ∈ pre ++ (l ++ [⟨s.base, size, true, .top⟩]) ↔
        (⟨y, s', true, .free⟩ : Chunk) ∈ pre ++ [⟨m.top, m.topsize, true, .top⟩]) := by
    intro y s' hy
    have hnl : (⟨y, s', true, .free⟩ : Chunk) ∉ l := by
      intro hc
      rcases hl.kind _ hc with hk | ⟨-, hk⟩
      · cases hk
      · exact hy hk
    simp [hnl]
  have hmemt : (⟨m.top, m.topsize, true, .top⟩ : Chunk) ∈
      pre ++ [⟨m.top, m.topsize, true, .top⟩] := by simp
  have hne := h.layout.not_free hmemt (by exact nofun)
  have hdvne : m.top ≠ m.dv := h.layout.dv_ne h.victim hmemt (by exact nofun)
  refine ⟨hlayout, Or.inr ?_, ?_, ?_, ?_⟩
  · rw [htop, hsize]
    simp
  · unfold Victim
    rw [hdv, hdvsize]
    exact h.victim.imp_right fun hv => (hfree _ _ hdvne.symm).mpr hv
  · rwa [hdv]
  · rw [hbins, hdv]
    refine h.bins.congr fun y s' => ?_
    constructor
    · rintro ⟨⟨hy, hmem⟩, hyt⟩
      exact ⟨hy, (hfree y s' hyt).mp hmem⟩
    · rintro ⟨hy, hmem⟩
      have hyt : y ≠ m.top := by
        rintro rfl
        exact hne s' hmem
      exact ⟨⟨hy, (hfree y s' hyt).mpr hmem⟩, hyt⟩

/-- Where the record of the segments goes. -/
theorem addSegment_place {e : ℕ} (he : 16 ∣ e) :
    e + 80 - (padRequest 32 + 32 + 15) +
      alignOffset (chunk2mem (e + 80 - (padRequest 32 + 32 + 15))) = e := by
  have hpad : padRequest 32 = 48 := rfl
  rw [hpad]
  unfold alignOffset chunk2mem
  split <;> omega

theorem addSegment_eq (csp : ℕ) (hal : 16 ∣ m.top + m.topsize) (hs : 16 ∣ s.base)
    (hend : ((m.segs.find? (·.holds m.top)).map Seg.fin).getD 0 = m.top + m.topsize + 80)
    (hcsp : (if m.top + m.topsize < m.top + minChunkSize then m.top else m.top + m.topsize) = csp) :
    m.addSegment x s =
      let m' : MState := { m with
        top := s.base
        topsize := s.size - topFootSize
        trim_check := x.trim_threshold
        segs := s :: m.segs
        toTags := MState.fenceposts (m.top + m.topsize + 80)
          (((m.setHead s.base ⟨s.size - topFootSize, false, true⟩).setHead
            (s.base + (s.size - topFootSize)) ⟨topFootSize, false, false⟩).setHead csp
              ⟨48, true, true⟩) (csp + 48) }
      if csp ≠ m.top then
        { m' with toTags := m'.setFreeWithPinuse m.top (csp - m.top) csp }.insertChunk m.top
          (csp - m.top)
      else m' := by
  unfold MState.addSegment
  dsimp only
  rw [hend, addSegment_place hal, initTop_eq hs, hcsp]
  rfl

/-- **A segment of its own.** -/
theorem Inv.addSegment {least' : ℕ} (h : Inv m cs ks) (hne : cs ≠ []) (hs : s.Given m.segs ks)
    (hsize : sysAllocPadding ≤ s.size)
    (hleast : 0 < least' ∧ least' ≤ s.base ∧ least' ≤ m.least_addr) :
    ∃ cs', Inv ({ m with least_addr := least' }.addSegment x s) cs' ks ∧
      ({ m with least_addr := least' }.addSegment x s).topsize = s.size - topFootSize ∧
      ∀ a b, Blocks cs' ks a b ↔ Blocks cs ks a b := by
  obtain ⟨pre, r, rfl, hhead, hbase, hroom, hall, hunique⟩ := h.top_seg hne
  have hr := List.mem_of_mem_head? hhead
  have hst := h.layout.arena.shape ⟨m.top, m.topsize, true, .top⟩ (by simp)
  have halt : 16 ∣ m.top ∧ 16 ∣ m.topsize := hst.aligned (by exact nofun)
  have hpost : 0 < m.top ∧ 0 < m.topsize := ⟨hst.addr_pos, hst.size_pos⟩
  have hfind := find_top hr hbase hroom hunique
  unfold topFootSize at hroom
  have hend : ((m.segs.find? (·.holds m.top)).map Seg.fin).getD 0 = m.top + m.topsize + 80 := by
    rw [hfind, hroom]
    rfl
  have heq : ∀ csp, _ → _ := fun csp => addSegment_eq (x := x) (s := s)
    (m := { m with least_addr := least' }) csp (show 16 ∣ m.top + m.topsize by omega)
    hs.aligned.1 hend
  have hsz := hsize
  unfold sysAllocPadding topFootSize at hsz
  have hfin : s.fin = s.base + s.size := rfl
  have hw := newTop_within (b := s.fin - 8) m.toTags s.base (s.size - topFootSize) (by
    unfold topFootSize
    omega)
  have htop := newTop_tagged m.toTags s.base (show 0 < s.size - topFootSize by
    unfold topFootSize
    omega)
  have hblocks : ∀ l : List Chunk, (∀ c ∈ l, c.kind = .fence ∨ (c.kind = .free ∧ c.addr = m.top)) →
      ∀ a b, Blocks (pre ++ (l ++ [⟨s.base, s.size - topFootSize, true, .top⟩])) ks a b ↔
        Blocks (pre ++ [⟨m.top, m.topsize, true, .top⟩]) ks a b := by
    intro l hl a b
    have hnl : ∀ p, (⟨a, b, p, .used⟩ : Chunk) ∉ l := by
      intro p hc
      rcases hl _ hc with hk | ⟨hk, -⟩ <;> cases hk
    unfold Blocks
    simp [hnl]
  by_cases hsmall : m.topsize < minChunkSize
  · -- The old top is too small for a chunk.
    have hts : m.topsize = 16 := by
      unfold minChunkSize at hsmall
      omega
    obtain ⟨hw', hretired⟩ := retired_small (p := m.top) (b := m.top + m.topsize + 80)
      ((m.setHead s.base ⟨s.size - topFootSize, false, true⟩).setHead
        (s.base + (s.size - topFootSize)) ⟨topFootSize, false, false⟩) hpost.1 (by omega)
    replace heq := heq m.top (if_pos (by show m.top + m.topsize < m.top + minChunkSize; omega))
    rw [if_neg (by simp)] at heq
    refine ⟨_, ?_, by rw [heq], hblocks _ hretired.kind⟩
    rw [heq]
    refine Pending.inv (h.retire { m with
      top := s.base
      topsize := s.size - topFootSize
      trim_check := x.trim_threshold
      segs := s :: m.segs
      least_addr := least'
      toTags := _ } hretired ?_ rfl rfl rfl rfl rfl) fun s' hc => ?_
    · exact h.layout.addSegment hr hbase (by show m.top + m.topsize + 80 = r.fin; omega) hall rfl
        hs hsize hretired (by omega) hw hw' htop hleast
    · rw [List.mem_append, List.mem_append, List.mem_cons, List.mem_singleton] at hc
      rcases hc with hc | (hc | hc) | hc
      · exact h.layout.not_free (c := ⟨m.top, m.topsize, true, .top⟩) (by simp) (by exact nofun) s'
          (List.mem_append_left _ hc)
      · cases hc
      · have hf := (mem_fences hc).1
        cases congrArg Chunk.kind hf
      · cases congrArg Chunk.kind hc
  · have hge : minChunkSize ≤ m.topsize := Nat.le_of_not_lt hsmall
    obtain ⟨hw', hretired⟩ := retired_large m.topsize (p := m.top)
      (e := m.top + m.topsize) (b := m.top + m.topsize + 80)
      ((m.setHead s.base ⟨s.size - topFootSize, false, true⟩).setHead
        (s.base + (s.size - topFootSize)) ⟨topFootSize, false, false⟩) hpost.1 halt hge rfl rfl
    replace heq := heq (m.top + m.topsize)
      (if_neg (by show ¬ m.top + m.topsize < m.top + minChunkSize; omega))
    dsimp only at heq
    rw [if_pos (by omega), Nat.add_sub_cancel_left] at heq
    refine ⟨_, ?_, by rw [heq]; rfl, hblocks _ hretired.kind⟩
    rw [heq]
    refine (h.retire { m with
      top := s.base
      topsize := s.size - topFootSize
      trim_check := x.trim_threshold
      segs := s :: m.segs
      least_addr := least'
      toTags := _ } hretired ?_ rfl rfl rfl rfl rfl).insertChunk (by simp)
    exact h.layout.addSegment hr hbase (by show m.top + m.topsize + 80 = r.fin; omega) hall rfl
      hs hsize hretired (by omega) hw hw' htop hleast

end Porpoise.Dlmalloc
