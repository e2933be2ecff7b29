import Porpoise.Dlmalloc.Layout

/-!
# The invariant of the allocator

The state of the allocator describes the chunks in memory: the top is the last of them, the
designated victim is a free one, and the bins hold the other free ones.

* `Inv`: the invariant.
* `Blocks`: the chunks that the program has.
* `Allocates`: what serving a request does to the invariant and to the blocks.
* `Pending.carve`, `Inv.fromDv`, `Inv.fromTop`: the ways to use a free chunk.
* `Replaced`: some chunks have become others.
-/

namespace Porpoise.Dlmalloc

open Porpoise.Lib Chunk

/-- The free chunks but for the designated victim, by address and size. -/
def Binnable (dv : ℕ) (cs : List Chunk) (x s : ℕ) : Prop := x ≠ dv ∧ ⟨x, s, true, .free⟩ ∈ cs

/-- The top is the last chunk, if there are any. -/
def Topped (m : MState) (cs : List Chunk) : Prop :=
  (cs = [] ∧ m.top = 0 ∧ m.topsize = 0) ∨ cs.getLast? = some ⟨m.top, m.topsize, true, .top⟩

/-- The designated victim, if there is one, is a free chunk. -/
def Victim (m : MState) (cs : List Chunk) : Prop :=
  (m.dv = 0 ∧ m.dvsize = 0) ∨ ⟨m.dv, m.dvsize, true, .free⟩ ∈ cs

/-- **The invariant.** -/
structure Inv (m : MState) (cs : List Chunk) (ks : List Mapping) : Prop where
  layout : Layout m.toTags m.segs m.least_addr cs ks
  topped : Topped m cs
  victim : Victim m cs
  bins : Binned m.toBins (Binnable m.dv cs)

/-- The invariant but for a free chunk at `x` that is in no bin. -/
structure Pending (m : MState) (cs : List Chunk) (ks : List Mapping) (x : ℕ) : Prop where
  layout : Layout m.toTags m.segs m.least_addr cs ks
  topped : Topped m cs
  victim : Victim m cs
  ne : x ≠ m.dv
  bins : Binned m.toBins fun y s => Binnable m.dv cs y s ∧ y ≠ x

/-- The chunks that the program has, by address and size. -/
def Blocks (cs : List Chunk) (ks : List Mapping) (a s : ℕ) : Prop :=
  (∃ p, ⟨a, s, p, .used⟩ ∈ cs) ∨ ∃ k ∈ ks, k.addr = a ∧ k.size = s

/-- A state in which the program has one chunk more, for a request of a chunk of `nb` bytes. -/
def Allocates (cs : List Chunk) (ks : List Mapping) (nb mem : ℕ) (m' : MState) : Prop :=
  ∃ cs' ks' size, Inv m' cs' ks' ∧ nb ≤ size ∧ 16 < mem ∧
    (∀ s, ¬ Blocks cs ks (mem2chunk mem) s) ∧
    ∀ a s, Blocks cs' ks' a s ↔ Blocks cs ks a s ∨ (a = mem2chunk mem ∧ s = size)

variable {m : MState} {cs pre post old new : List Chunk} {ks : List Mapping} {c d v n : Chunk}
  {p s x nb rs : ℕ}

theorem Inv.setFootprint (h : Inv m cs ks) (n : ℕ) : Inv { m with footprint := n } cs ks :=
  ⟨h.layout, h.topped, h.victim, h.bins⟩

theorem Layout.addr_pos (h : Layout m.toTags m.segs m.least_addr cs ks) (hc : c ∈ cs) :
    0 < c.addr := (h.arena.shape c hc).addr_pos

/-- A chunk that is free is one with these fields. -/
theorem Layout.free_eq (h : Layout m.toTags m.segs m.least_addr cs ks) (hc : c ∈ cs)
    (hk : c.kind = .free) : c = ⟨c.addr, c.size, true, .free⟩ := by
  have hp := h.arena.pinuse_of_not_inuse hc (by rw [hk]; rfl)
  cases c
  simp_all

/-- Addresses begin one chunk. -/
theorem Layout.size_unique (h : Layout m.toTags m.segs m.least_addr cs ks) {k : Kind} {b b' : Bool}
    {s' : ℕ} {k' : Kind} (hx : ⟨x, s, b, k⟩ ∈ cs) (hx' : ⟨x, s', b', k'⟩ ∈ cs) :
    s' = s ∧ k' = k := by
  have heq := h.arena.eq_of_addr hx' hx rfl
  exact ⟨(Chunk.mk.inj heq).2.1, (Chunk.mk.inj heq).2.2.2⟩

/-- A mapping lies apart from the chunks. -/
theorem Layout.map_addr_ne (h : Layout m.toTags m.segs m.least_addr cs ks) {k : Mapping}
    (hk : k ∈ ks) (hc : c ∈ cs) : k.addr ≠ c.addr := by
  intro heq
  obtain ⟨r, hr, hbase, hfin⟩ := h.inside c hc
  have hlt := (h.arena.shape c hc).lt_fin
  have hok := h.map_ok k hk
  have hb := hok.base_le
  have hf := hok.fin_le
  have hap := h.map_seg k hk r hr
  omega

/-- The blocks of a list that is cut. -/
theorem blocks_append {a : ℕ} : Blocks (pre ++ new ++ post) ks a s ↔
    (∃ p, (⟨a, s, p, .used⟩ : Chunk) ∈ new) ∨ Blocks (pre ++ post) ks a s := by
  unfold Blocks
  simp only [List.mem_append, exists_or]
  tauto

/-- A chunk that the program does not have. -/
theorem Layout.not_blocks (h : Layout m.toTags m.segs m.least_addr cs ks) (hc : c ∈ cs)
    (hk : c.kind ≠ .used) : ¬ Blocks cs ks c.addr s := by
  rintro (⟨b, hmem⟩ | ⟨k, hk', haddr, -⟩)
  · have heq := h.arena.eq_of_addr hmem hc rfl
    exact hk (heq ▸ rfl)
  · exact h.map_addr_ne hk' hc haddr

/-- A chunk that is not free. -/
theorem Layout.not_free (h : Layout m.toTags m.segs m.least_addr cs ks) (hc : c ∈ cs)
    (hk : c.kind ≠ .free) (size : ℕ) : (⟨c.addr, size, true, .free⟩ : Chunk) ∉ cs := fun hmem =>
  hk (congrArg Chunk.kind (h.arena.eq_of_addr hmem hc rfl)).symm

theorem Layout.dv_ne (h : Layout m.toTags m.segs m.least_addr cs ks) (hv : Victim m cs)
    (hc : c ∈ cs) (hk : c.kind ≠ .free) : c.addr ≠ m.dv := by
  intro heq
  rcases hv with ⟨hv, -⟩ | hv
  · exact (h.addr_pos hc).ne' (heq.trans hv)
  · rw [← heq] at hv
    exact h.not_free hc hk _ hv

theorem Layout.least_le {t : Tags} {segs : List Seg} {least : ℕ}
    (h : Layout t segs least cs ks) (hc : c ∈ cs) : least ≤ c.addr := by
  obtain ⟨r, hr, hbase, -⟩ := h.inside c hc
  exact Nat.le_trans (h.seg_ok r hr).least_le hbase

theorem Layout.okAddress (h : Layout m.toTags m.segs m.least_addr cs ks) (hc : c ∈ cs) :
    m.okAddress c.addr = true := decide_eq_true (h.least_le hc)

theorem Layout.fin_lt (h : Layout m.toTags m.segs m.least_addr cs ks) (hc : c ∈ cs) :
    c.fin < 2 ^ 47 := by
  obtain ⟨r, hr, -, hfin⟩ := h.inside c hc
  have hle := (h.seg_ok r hr).fin_le
  omega

theorem Layout.chunksize_eq (h : Layout m.toTags m.segs m.least_addr cs ks) (hc : c ∈ cs) :
    m.chunksize c.addr = c.size := by
  unfold Tags.chunksize
  rw [(h.arena.tagged c hc).1]
  rfl

theorem Layout.cinuse_eq (h : Layout m.toTags m.segs m.least_addr cs ks) (hc : c ∈ cs) :
    m.cinuse c.addr = c.kind.inuse := by
  unfold Tags.cinuse
  rw [(h.arena.tagged c hc).1]
  rfl

theorem Layout.pinuse_eq (h : Layout m.toTags m.segs m.least_addr cs ks) (hc : c ∈ cs) :
    m.pinuse c.addr = c.pinuse := by
  unfold Tags.pinuse
  rw [(h.arena.tagged c hc).1]
  rfl

/-- What is behind a chunk that is not the top. -/
theorem Topped.ne_nil (h : Topped m (pre ++ old ++ post)) (hne : old ≠ [])
    (hold : ∀ o ∈ old.getLast?, o.kind ≠ .top) : post ≠ [] := by
  rintro rfl
  rw [List.append_nil] at h
  rcases h with ⟨hnil, -⟩ | hlast
  · exact hne (List.append_eq_nil_iff.mp hnil).2
  · rw [List.getLast?_append_of_ne_nil _ hne] at hlast
    exact hold _ hlast rfl

theorem Topped.splice {m' : MState} (h : Topped m (pre ++ old ++ post)) (hne : old ≠ [])
    (hold : ∀ o ∈ old.getLast?, o.kind ≠ .top) (htop : m'.top = m.top)
    (hsize : m'.topsize = m.topsize) : Topped m' (pre ++ new ++ post) := by
  have hpost := h.ne_nil hne hold
  refine Or.inr ?_
  rcases h with ⟨hnil, -⟩ | hlast
  · simp [hne] at hnil
  · rw [List.getLast?_append_of_ne_nil _ hpost] at hlast ⊢
    rw [hlast, htop, hsize]

/-- The victim stays where it is when it is none of the chunks that change. -/
theorem Victim.splice {m' : MState} (h : Victim m (pre ++ old ++ post))
    (hold : ∀ o ∈ old, o.kind = .free → o.addr ≠ m.dv) (hdv : m'.dv = m.dv)
    (hsize : m'.dvsize = m.dvsize) : Victim m' (pre ++ new ++ post) := by
  unfold Victim
  rw [hdv, hsize]
  rcases h with h | h
  · exact Or.inl h
  · refine Or.inr ?_
    simp only [List.mem_append] at h ⊢
    rcases h with (h | h) | h
    · exact Or.inl (Or.inl h)
    · exact absurd rfl (hold _ h rfl)
    · exact Or.inr h

/-! ## Bins -/

namespace Pending

/-- A chunk that left its bin. -/
theorem of_unlink {b : Bins} (h : Inv m cs ks)
    (hb : Binned b fun y s => Binnable m.dv cs y s ∧ y ≠ x) (hne : x ≠ m.dv) :
    Pending { m with toBins := b } cs ks x :=
  ⟨h.layout, h.topped, h.victim, hne, hb⟩

theorem not_binnable : ∀ s', ¬ (Binnable m.dv cs x s' ∧ x ≠ x) := fun _ h => h.2 rfl

/-- The chunk enters its bin. -/
theorem insertChunk (h : Pending m cs ks x) (hx : ⟨x, s, true, .free⟩ ∈ cs) :
    Inv (m.insertChunk x s) cs ks := by
  refine ⟨h.layout, h.topped, h.victim, ?_⟩
  have hsize : ∀ y s', Binnable m.dv cs y s' ∧ y ≠ x → m.chunksize y = s' := fun y s' hy =>
    h.layout.chunksize_eq hy.1.2
  refine (h.bins.insertChunk (fun _ _ hy => h.layout.least_le hy.1.2) not_binnable hsize).congr
    fun y s' => ?_
  constructor
  · intro hy
    by_cases heq : y = x
    · subst heq
      exact Or.inr ⟨rfl, (h.layout.size_unique hx hy.2).1⟩
    · exact Or.inl ⟨hy, heq⟩
  · rintro (⟨hy, -⟩ | ⟨rfl, rfl⟩)
    · exact hy
    · exact ⟨h.ne, hx⟩

/-- The chunk becomes the victim, and the old victim enters its bin. -/
theorem replaceDv (h : Pending m cs ks x) (hx : ⟨x, s, true, .free⟩ ∈ cs)
    (hs : isSmall m.dvsize = true) : Inv (m.replaceDv x s) cs ks := by
  refine ⟨h.layout, h.topped, Or.inr hx, ?_⟩
  rcases h.victim with ⟨hdv, hsize⟩ | hdv
  · have hbins : (m.replaceDv x s).toBins = m.toBins := by
      unfold MState.replaceDv
      rw [hsize]
      rfl
    rw [hbins]
    refine h.bins.congr fun y s' => ?_
    constructor
    · rintro ⟨hy, hmem⟩
      refine ⟨⟨?_, hmem⟩, hy⟩
      rw [hdv]
      exact (h.layout.addr_pos hmem).ne'
    · rintro ⟨⟨-, hmem⟩, hy⟩
      exact ⟨hy, hmem⟩
  · have hpos : m.dvsize ≠ 0 := (h.layout.arena.shape _ hdv).size_pos.ne'
    have hbins : (m.replaceDv x s).toBins =
        m.insertSmallChunk m.least_addr m.dv m.dvsize := by
      unfold MState.replaceDv
      rw [if_pos hpos]
    rw [hbins]
    refine (h.bins.insertSmallChunk (fun _ _ hy => h.layout.least_le hy.1.2)
      (fun s' hF => hF.1.1 rfl) hs).congr fun y s' => ?_
    constructor
    · rintro ⟨hy, hmem⟩
      by_cases heq : y = m.dv
      · subst heq
        exact Or.inr ⟨rfl, (h.layout.size_unique hdv hmem).1⟩
      · exact Or.inl ⟨⟨heq, hmem⟩, hy⟩
    · rintro (⟨⟨-, hmem⟩, hy⟩ | ⟨rfl, rfl⟩)
      · exact ⟨hy, hmem⟩
      · exact ⟨h.ne.symm, hdv⟩

/-! ## Using a free chunk -/

/-- Free chunks that are none of `old` lie on the sides. -/
theorem sides (hc : c ∈ pre ++ old ++ post) (hne : ∀ o ∈ old, c.addr ≠ o.addr) :
    c ∈ pre ∨ c ∈ post := by
  simp only [List.mem_append] at hc
  rcases hc with (hc | hc) | hc
  · exact Or.inl hc
  · exact absurd rfl (hne c hc)
  · exact Or.inr hc

/-- A free chunk is used as a whole. -/
theorem useWhole (h : Pending m (pre ++ [v, n] ++ post) ks v.addr) (hv : v.kind = .free) :
    Inv { m with toTags := m.setInuseAndPinuse v.addr v.size }
      (pre ++ [{ v with kind := .used }, { n with pinuse := true }] ++ post) ks := by
  have hn := h.layout.arena.link.inuse hv
  have hntop : n.kind ≠ .top := by
    intro he
    rw [he] at hn
    cases hn
  have hnfree : n.kind ≠ .free := by
    intro he
    rw [he] at hn
    cases hn
  refine ⟨h.layout.useWhole hv, h.topped.splice (by simp) ?_ rfl rfl,
    h.victim.splice (fun o ho hk => ?_) rfl rfl, h.bins.congr fun y s => ?_⟩
  · rintro o ⟨⟩
    exact hntop
  · rcases List.mem_pair.mp ho with rfl | rfl
    · exact h.ne
    · exact absurd hk hnfree
  · constructor
    · rintro ⟨hy, hmem⟩
      simp only [List.mem_append, List.mem_pair] at hmem
      have hside : (⟨y, s, true, .free⟩ : Chunk) ∈ pre ∨ (⟨y, s, true, .free⟩ : Chunk) ∈ post := by
        rcases hmem with (hmem | hmem | hmem) | hmem
        · exact Or.inl hmem
        · exact absurd (congrArg Chunk.kind hmem) (by exact nofun)
        · exact absurd (congrArg Chunk.kind hmem).symm hnfree
        · exact Or.inr hmem
      refine ⟨⟨hy, ?_⟩, Layout.addr_ne h.layout.arena hside (by simp)⟩
      simp only [List.mem_append]
      tauto
    · rintro ⟨⟨hy, hmem⟩, hne⟩
      refine ⟨hy, ?_⟩
      have hside := sides hmem fun o ho => by
        rcases List.mem_pair.mp ho with rfl | rfl
        · exact hne
        · intro heq
          have hon : o ∈ pre ++ [v, o] ++ post := by simp
          have heq' := h.layout.arena.eq_of_addr hmem hon heq
          exact hnfree (heq' ▸ rfl)
      simp only [List.mem_append]
      tauto

/-- A free chunk is split, and the rest is free. -/
theorem split (h : Pending m (pre ++ [v] ++ post) ks v.addr) (hv : v.kind = .free)
    (hsize : v.size = nb + rs) (hnb : minChunkSize ≤ nb) (hal : 16 ∣ nb)
    (hrs : minChunkSize ≤ rs) :
    Pending { m with
        toTags := (m.setSizeAndPinuseOfInuseChunk v.addr nb).setSizeAndPinuseOfFreeChunk
          (v.addr + nb) rs }
      (pre ++ [⟨v.addr, nb, true, .used⟩, ⟨v.addr + nb, rs, true, .free⟩] ++ post) ks
      (v.addr + nb) := by
  have hmem : v ∈ pre ++ [v] ++ post := by simp
  have hfar : ∀ c, c ∈ pre ∨ c ∈ post → c.addr ≠ v.addr + nb := by
    intro c hc heq
    have hside := h.layout.arena.far_of_tiles (a := v.addr) (b := v.fin) ⟨rfl, rfl⟩ (by simp) hc
    have hcm : c ∈ pre ++ [v] ++ post := by
      simp only [List.mem_append]
      tauto
    have hlt := (h.layout.arena.shape c hcm).lt_fin
    unfold minChunkSize at hrs hnb
    unfold fin at hside hlt
    omega
  refine ⟨h.layout.splitFree hv hsize hnb hal hrs, h.topped.splice (by simp) ?_ rfl rfl,
    h.victim.splice (fun o ho hk => ?_) rfl rfl, ?_, h.bins.congr fun y s => ?_⟩
  · rintro o ⟨⟩
    show v.kind ≠ .top
    rw [hv]
    exact nofun
  · cases List.mem_singleton.mp ho
    exact h.ne
  · intro heq
    rcases h.victim with ⟨hdv, -⟩ | hdv
    · have hpos := h.layout.addr_pos hmem
      change v.addr + nb = m.dv at heq
      omega
    · have hside := sides hdv fun o ho => by
        cases List.mem_singleton.mp ho
        exact h.ne.symm
      exact hfar _ hside heq.symm
  · constructor
    · rintro ⟨⟨hy, hmem'⟩, hne⟩
      simp only [List.mem_append, List.mem_pair] at hmem'
      have hside : (⟨y, s, true, .free⟩ : Chunk) ∈ pre ∨ (⟨y, s, true, .free⟩ : Chunk) ∈ post := by
        rcases hmem' with (hmem' | hmem' | hmem') | hmem'
        · exact Or.inl hmem'
        · exact absurd (congrArg Chunk.kind hmem') (by exact nofun)
        · exact absurd (congrArg Chunk.addr hmem') hne
        · exact Or.inr hmem'
      refine ⟨⟨hy, ?_⟩, Layout.addr_ne h.layout.arena hside (by simp)⟩
      simp only [List.mem_append]
      tauto
    · rintro ⟨⟨hy, hmem'⟩, hne⟩
      have hside := sides hmem' fun o ho => by
        cases List.mem_singleton.mp ho
        exact hne
      refine ⟨⟨hy, ?_⟩, hfar _ hside⟩
      simp only [List.mem_append]
      tauto

/-- **A free chunk is used,** whole or but for a rest that is kept. -/
theorem carve {keep : MState → ℕ → ℕ → MState} (h : Pending m (pre ++ [v] ++ post) ks v.addr)
    (hv : v.kind = .free) (hsize : v.size = nb + rs) (hnb : minChunkSize ≤ nb) (hal : 16 ∣ nb)
    (hkeep : ∀ m' cs' r, Pending m' cs' ks r → ⟨r, rs, true, .free⟩ ∈ cs' →
      m'.dv = m.dv → m'.dvsize = m.dvsize → Inv (keep m' r rs) cs' ks) :
    Allocates (pre ++ [v] ++ post) ks nb (chunk2mem v.addr) (m.carve keep v.addr nb rs) := by
  have hmem : v ∈ pre ++ [v] ++ post := by simp
  have hpos := h.layout.addr_pos hmem
  have hfresh : ∀ s, ¬ Blocks (pre ++ [v] ++ post) ks (mem2chunk (chunk2mem v.addr)) s := fun s =>
    h.layout.not_blocks hmem (by rw [hv]; exact nofun)
  have hmem2 : mem2chunk (chunk2mem v.addr) = v.addr := Nat.add_sub_cancel _ _
  have hlt : 16 < chunk2mem v.addr := by
    unfold chunk2mem
    omega
  have hnotused : ∀ a s, ¬ ∃ p, (⟨a, s, p, .used⟩ : Chunk) ∈ [v] := by
    rintro a s ⟨b, hb⟩
    have hk := congrArg Chunk.kind (List.mem_singleton.mp hb)
    rw [hv] at hk
    cases hk
  unfold MState.carve
  split
  · -- The rest is too small for a chunk.
    have hpost := h.topped.ne_nil (by simp) fun o ho => by
      cases ho
      show v.kind ≠ .top
      rw [hv]
      exact nofun
    obtain ⟨n, post, rfl⟩ := List.exists_cons_of_ne_nil hpost
    have hcut : pre ++ [v] ++ n :: post = pre ++ [v, n] ++ post := by simp
    have hinv := useWhole (by rw [← hcut]; exact h) hv
    rw [show rs + nb = v.size by omega]
    refine ⟨_, ks, v.size, hinv, by omega, hlt, hfresh, fun a s => ?_⟩
    rw [hmem2, hcut, blocks_append, blocks_append]
    constructor
    · rintro (⟨b, hb⟩ | hb)
      · rcases List.mem_pair.mp hb with hb | hb
        · exact Or.inr ⟨congrArg Chunk.addr hb, congrArg Chunk.size hb⟩
        · refine Or.inl (Or.inl ⟨n.pinuse, ?_⟩)
          have hn : n = ⟨a, s, n.pinuse, .used⟩ := by
            cases n
            cases hb
            rfl
          rw [← hn]
          simp
      · exact Or.inl (Or.inr hb)
    · rintro ((⟨b, hb⟩ | hb) | ⟨rfl, rfl⟩)
      · rcases List.mem_pair.mp hb with hb | hb
        · exact absurd ⟨b, List.mem_singleton.mpr hb⟩ (hnotused a s)
        · refine Or.inl ⟨true, ?_⟩
          rw [← hb]
          simp
      · exact Or.inr hb
      · refine Or.inl ⟨v.pinuse, ?_⟩
        simp
  · next hrs =>
    have hpend := h.split hv hsize hnb hal (Nat.le_of_not_lt hrs)
    have hinv := hkeep _ _ _ hpend (by simp) rfl rfl
    refine ⟨_, ks, nb, hinv, Nat.le_refl _, hlt, hfresh, fun a s => ?_⟩
    rw [hmem2, blocks_append, blocks_append]
    constructor
    · rintro (⟨b, hb⟩ | hb)
      · rcases List.mem_pair.mp hb with hb | hb
        · exact Or.inr ⟨congrArg Chunk.addr hb, congrArg Chunk.size hb⟩
        · exact absurd (congrArg Chunk.kind hb) (by exact nofun)
      · exact Or.inl (Or.inr hb)
    · rintro ((hb | hb) | ⟨rfl, rfl⟩)
      · exact absurd hb (hnotused a s)
      · exact Or.inr hb
      · exact Or.inl ⟨true, by simp⟩

end Pending

/-! ## Chunks that become others -/

/-- Some chunks have become others, and what is beside them is as it was; a free chunk is new
only at `q`. -/
structure Replaced (m' : MState) (pre old post new : List Chunk) (ks : List Mapping) (q : ℕ) :
    Prop where
  layout : Layout m'.toTags m'.segs m'.least_addr (pre ++ new ++ post) ks
  ne : ∀ d, d ∈ pre ∨ d ∈ post → d.addr ≠ q ∧ ∀ o ∈ old, d.addr ≠ o.addr
  free : ∀ n ∈ new, n.kind = .free → n.addr = q

namespace Replaced

variable {m' : MState} {q : ℕ}

/-- The free chunks but for the new one. -/
theorem free_iff (h : Replaced m' pre old post new ks q) (y size : ℕ) :
    (⟨y, size, true, .free⟩ : Chunk) ∈ pre ++ new ++ post ∧ y ≠ q ↔
      (⟨y, size, true, .free⟩ : Chunk) ∈ pre ++ old ++ post ∧ ∀ o ∈ old, y ≠ o.addr := by
  have hside : ∀ l : List Chunk, (⟨y, size, true, .free⟩ : Chunk) ∈ pre ++ l ++ post →
      (⟨y, size, true, .free⟩ : Chunk) ∉ l → (⟨y, size, true, .free⟩ : Chunk) ∈ pre ∨
        (⟨y, size, true, .free⟩ : Chunk) ∈ post := by
    intro l hmem hnl
    simp only [List.mem_append] at hmem
    tauto
  constructor
  · rintro ⟨hmem, hy⟩
    have hs := hside new hmem fun hn => hy (h.free _ hn rfl)
    refine ⟨?_, (h.ne _ hs).2⟩
    simp only [List.mem_append]
    tauto
  · rintro ⟨hmem, hy⟩
    have hs := hside old hmem fun hn => hy _ hn rfl
    refine ⟨?_, (h.ne _ hs).1⟩
    simp only [List.mem_append]
    tauto

/-- The victim is none of the chunks that change, or there is none from then on. -/
def KeepsDv (m m' : MState) (cs old : List Chunk) : Prop :=
  (m'.dv = m.dv ∧ m'.dvsize = m.dvsize ∧ Victim m cs ∧ ∀ o ∈ old, o.addr ≠ m.dv) ∨
    (m'.dv = 0 ∧ m'.dvsize = 0 ∧ ∃ o ∈ old, o.addr = m.dv)

/-- No new chunk is free. -/
theorem inv (h : Replaced m' pre old post new ks q)
    (hbins : Binned m'.toBins fun y s =>
      Binnable m.dv (pre ++ old ++ post) y s ∧ ∀ o ∈ old, y ≠ o.addr)
    (hdv : KeepsDv m m' (pre ++ old ++ post) old) (htop : Topped m' (pre ++ new ++ post))
    (hnew : ∀ n ∈ new, n.kind ≠ .free) : Inv m' (pre ++ new ++ post) ks := by
  have hfree : ∀ y s', (⟨y, s', true, .free⟩ : Chunk) ∈ pre ++ new ++ post ↔
      (⟨y, s', true, .free⟩ : Chunk) ∈ pre ++ old ++ post ∧ ∀ o ∈ old, y ≠ o.addr := by
    intro y s'
    rw [← h.free_iff, iff_self_and]
    intro hmem
    have hs : (⟨y, s', true, .free⟩ : Chunk) ∈ pre ∨ (⟨y, s', true, .free⟩ : Chunk) ∈ post := by
      simp only [List.mem_append] at hmem
      have hn : (⟨y, s', true, .free⟩ : Chunk) ∉ new := fun hn => hnew _ hn rfl
      tauto
    exact (h.ne _ hs).1
  refine ⟨h.layout, htop, ?_, hbins.congr fun y s' => ?_⟩
  · rcases hdv with ⟨hdv, hsize, hv, hout⟩ | ⟨hdv, hsize, -⟩
    · unfold Victim
      rw [hdv, hsize]
      exact hv.imp_right fun hv => (hfree _ _).mpr ⟨hv, fun o ho heq => hout o ho heq.symm⟩
    · exact Or.inl ⟨hdv, hsize⟩
  · unfold Binnable
    rw [hfree, and_assoc]
    rcases hdv with ⟨hdv, -⟩ | ⟨hdv, -, o, ho, hodv⟩
    · rw [hdv]
    · constructor
      · rintro ⟨-, hmem, hy⟩
        exact ⟨hodv ▸ hy o ho, hmem, hy⟩
      · rintro ⟨-, hmem, hy⟩
        rw [hdv]
        exact ⟨(h.layout.addr_pos ((hfree y s').mpr ⟨hmem, hy⟩)).ne', hmem, hy⟩

/-- The new free chunk is the victim, and the old one has gone. -/
theorem inv_dv (h : Replaced m' pre old post new ks q)
    (hbins : Binned m'.toBins fun y s =>
      Binnable m.dv (pre ++ old ++ post) y s ∧ ∀ o ∈ old, y ≠ o.addr)
    (hdv : ∃ o ∈ old, o.addr = m.dv) (htop : Topped m' (pre ++ new ++ post)) (hq : m'.dv = q)
    (hmem : ⟨m'.dv, m'.dvsize, true, .free⟩ ∈ new) : Inv m' (pre ++ new ++ post) ks := by
  refine ⟨h.layout, htop, Or.inr (by simp [hmem]), hbins.congr fun y s' => ?_⟩
  obtain ⟨o, ho, hodv⟩ := hdv
  unfold Binnable
  rw [hq, and_comm, h.free_iff, and_assoc]
  constructor
  · rintro ⟨hm, hy⟩
    exact ⟨hodv ▸ hy o ho, hm, hy⟩
  · rintro ⟨-, hm, hy⟩
    exact ⟨hm, hy⟩

/-- The new free chunk is in no bin. -/
theorem pending (h : Replaced m' pre old post new ks q)
    (hbins : Binned m'.toBins fun y s =>
      Binnable m.dv (pre ++ old ++ post) y s ∧ ∀ o ∈ old, y ≠ o.addr)
    (hdv : m'.dv = m.dv) (hdvsize : m'.dvsize = m.dvsize) (hv : Victim m (pre ++ old ++ post))
    (hout : ∀ o ∈ old, o.addr ≠ m.dv) (htop : Topped m' (pre ++ new ++ post)) (hpos : 0 < q) :
    Pending m' (pre ++ new ++ post) ks q := by
  have hne : q ≠ m.dv ∧ Victim m' (pre ++ new ++ post) := by
    unfold Victim
    rw [hdv, hdvsize]
    rcases hv with hv | hv
    · refine ⟨?_, Or.inl hv⟩
      rw [hv.1]
      exact hpos.ne'
    · have hv' := (h.free_iff _ _).mpr ⟨hv, fun o ho heq => hout o ho heq.symm⟩
      exact ⟨hv'.2.symm, Or.inr hv'.1⟩
  refine ⟨h.layout, htop, hne.2, ?_, hbins.congr fun y s' => ?_⟩
  · rw [hdv]
    exact hne.1
  · rw [hdv]
    unfold Binnable
    rw [and_assoc, h.free_iff, and_assoc]

end Replaced

/-- The chunks of a list that is cut at one of them. -/
theorem cut (hc : c ∈ cs) : ∃ pre post, cs = pre ++ [c] ++ post := by
  obtain ⟨pre, post, rfl⟩ := List.append_of_mem hc
  exact ⟨pre, post, by simp⟩

namespace Inv

/-! ## The victim and the top -/

/-- Without its victim the allocator has a free chunk that is in no bin. -/
theorem takeDv (h : Inv m cs ks) (hv : ⟨m.dv, m.dvsize, true, .free⟩ ∈ cs) :
    Pending { m with dv := 0, dvsize := 0 } cs ks m.dv := by
  refine ⟨h.layout, h.topped, Or.inl ⟨rfl, rfl⟩, (h.layout.addr_pos hv).ne', ?_⟩
  refine h.bins.congr fun y s => ?_
  constructor
  · rintro ⟨⟨-, hmem⟩, hne⟩
    exact ⟨hne, hmem⟩
  · rintro ⟨hne, hmem⟩
    exact ⟨⟨(h.layout.addr_pos hmem).ne', hmem⟩, hne⟩

/-- A free chunk that is in no bin becomes the victim. -/
theorem of_pending (h : Pending m cs ks x) (hx : ⟨x, s, true, .free⟩ ∈ cs)
    (hdv : m.dv = 0) : Inv { m with dv := x, dvsize := s } cs ks := by
  refine ⟨h.layout, h.topped, Or.inr hx, h.bins.congr fun y s' => ?_⟩
  constructor
  · rintro ⟨hne, hmem⟩
    refine ⟨⟨?_, hmem⟩, hne⟩
    rw [hdv]
    exact (h.layout.addr_pos hmem).ne'
  · rintro ⟨⟨-, hmem⟩, hne⟩
    exact ⟨hne, hmem⟩

/-- The victim is used like any free chunk. -/
theorem fromDv_eq (h : nb ≤ m.dvsize) (hpos : 0 < nb) :
    m.fromDv nb = (chunk2mem m.dv, { m with dv := 0, dvsize := 0 }.carve
      (fun m' r rsize => { m' with dv := r, dvsize := rsize }) m.dv nb (m.dvsize - nb)) := by
  unfold MState.fromDv MState.carve
  by_cases hrs : m.dvsize - nb < minChunkSize
  · rw [if_pos hrs, if_neg (Nat.not_le.mpr hrs), Nat.sub_add_cancel h]
  · rw [if_neg hrs, if_pos (Nat.le_of_not_lt hrs)]
    have hcomm : (m.setSizeAndPinuseOfFreeChunk (m.dv + nb)
        (m.dvsize - nb)).setSizeAndPinuseOfInuseChunk m.dv nb =
        (m.setSizeAndPinuseOfInuseChunk m.dv nb).setSizeAndPinuseOfFreeChunk (m.dv + nb)
          (m.dvsize - nb) := by
      unfold Tags.setSizeAndPinuseOfFreeChunk Tags.setSizeAndPinuseOfInuseChunk Tags.setHead
        Tags.setFoot
      rw [Function.update_comm (by omega)]
    dsimp only
    rw [hcomm]

/-- **The victim serves a request.** -/
theorem fromDv (h : Inv m cs ks) (hnb : minChunkSize ≤ nb) (hal : 16 ∣ nb) (hle : nb ≤ m.dvsize) :
    Allocates cs ks nb (m.fromDv nb).1 (m.fromDv nb).2 := by
  have hpos : 0 < nb := Nat.lt_of_lt_of_le (by decide) hnb
  have hmem : ⟨m.dv, m.dvsize, true, .free⟩ ∈ cs := by
    rcases h.victim with ⟨-, hzero⟩ | hmem
    · omega
    · exact hmem
  obtain ⟨pre, post, rfl⟩ := cut hmem
  rw [fromDv_eq hle hpos]
  have hpend := h.takeDv hmem
  dsimp only
  exact Pending.carve (v := ⟨m.dv, m.dvsize, true, .free⟩) hpend rfl
    (show m.dvsize = nb + (m.dvsize - nb) by omega) hnb hal
    fun m' cs' r hm' hr hdv _ => of_pending hm' hr hdv

/-- **The top serves a request.** -/
theorem fromTop (h : Inv m cs ks) (hnb : minChunkSize ≤ nb) (hal : 16 ∣ nb)
    (hlt : nb < m.topsize) : Allocates cs ks nb (m.fromTop nb).1 (m.fromTop nb).2 := by
  rcases h.topped with ⟨-, -, hzero⟩ | hlast
  · omega
  obtain ⟨pre, rfl⟩ := List.getLast?_eq_some_iff.mp hlast
  have hmem : (⟨m.top, m.topsize, true, .top⟩ : Chunk) ∈ pre ++ [⟨m.top, m.topsize, true, .top⟩] :=
    by simp
  have hpos : 0 < m.top := h.layout.addr_pos hmem
  have hlayout := h.layout.splitTop rfl
    (show m.topsize = nb + (m.topsize - nb) by omega) hnb hal (by omega)
  have hfree : ∀ y s, (⟨y, s, true, .free⟩ : Chunk) ∈
      pre ++ [⟨m.top, nb, true, .used⟩, ⟨m.top + nb, m.topsize - nb, true, .top⟩] ↔
      (⟨y, s, true, .free⟩ : Chunk) ∈ pre ++ [⟨m.top, m.topsize, true, .top⟩] := by
    intro y s
    simp
  refine ⟨_, ks, nb, ⟨hlayout, Or.inr (by simp [MState.fromTop]), ?_, ?_⟩, Nat.le_refl _,
    ?_, ?_, ?_⟩
  · rcases h.victim with hv | hv
    · exact Or.inl hv
    · exact Or.inr ((hfree _ _).mpr hv)
  · exact h.bins.congr fun y s => and_congr_right fun _ => hfree y s
  · show 16 < m.top + 16
    omega
  · intro s
    exact h.layout.not_blocks hmem (by exact nofun)
  · intro a s
    have hmem2 : mem2chunk (m.fromTop nb).1 = m.top := Nat.add_sub_cancel _ _
    rw [hmem2]
    unfold Blocks
    simp only [List.mem_append, List.mem_pair, List.mem_singleton, Chunk.mk.injEq, reduceCtorEq,
      and_false, or_false, and_true, exists_or, exists_and_left, exists_eq]
    exact or_right_comm

end Inv

end Porpoise.Dlmalloc
