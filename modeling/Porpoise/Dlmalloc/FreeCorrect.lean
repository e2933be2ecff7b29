import Porpoise.Dlmalloc.Release

/-!
# What `dlfree` does

The chunk that is freed and its free neighbours become one chunk, which is the top, the
designated victim, or in a bin; the program has one chunk less.

* `Freeing`: neighbours that become one free chunk.
* `Freeing.consolidateForward`: where it goes.
* `Inv.dlfree`: one call.
-/

namespace Porpoise.Dlmalloc

open Porpoise.Lib Chunk

variable {m m' : MState} {t t' : Tags} {segs : List Seg} {cs pre post run : List Chunk}
  {ks : List Mapping} {c d n : Chunk} {a b p psize least : ℕ} {x : MParams}
  {insert : MState → ℕ → ℕ → MState}

/-! ## Neighbours that become one chunk -/

/-- A run of chunks that will be one free chunk, and the chunk `n` behind it. -/
structure Freeing (m : MState) (pre run : List Chunk) (n : Chunk) (post : List Chunk)
    (ks : List Mapping) (p psize : ℕ) : Prop where
  layout : Layout m.toTags m.segs m.least_addr (pre ++ (run ++ [n]) ++ post) ks
  topped : Topped m (pre ++ (run ++ [n]) ++ post)
  merged : Layout.Run run p psize
  adjacent : n.addr = p + psize
  pinuse : n.pinuse = true
  bins : Binned m.toBins fun y s =>
    Binnable m.dv (pre ++ (run ++ [n]) ++ post) y s ∧ ∀ o ∈ run, y ≠ o.addr
  dv : (Victim m (pre ++ (run ++ [n]) ++ post) ∧ ∀ o ∈ run, o.addr ≠ m.dv) ∨ p = m.dv

namespace Freeing

variable {new : List Chunk}

theorem mem_next : n ∈ pre ++ (run ++ [n]) ++ post := by simp

theorem mem_run (hd : d ∈ run) : d ∈ pre ++ (run ++ [n]) ++ post := by simp [hd]

/-- What the program has when no new chunk is in use, or only the one behind. -/
theorem blocks (hnew : ∀ a b, (∃ q, (⟨a, b, q, .used⟩ : Chunk) ∈ new) ↔
    ∃ q, (⟨a, b, q, .used⟩ : Chunk) ∈ [n]) (a b : ℕ) :
    Blocks (pre ++ new ++ post) ks a b ↔ Blocks (pre ++ [n] ++ post) ks a b := by
  rw [blocks_append, blocks_append, hnew]

/-- The chunk behind is in use: its flag goes off. -/
theorem blocks_inuse (a b : ℕ) :
    Blocks (pre ++ [⟨p, psize, true, .free⟩, { n with pinuse := false }] ++ post) ks a b ↔
      Blocks (pre ++ [n] ++ post) ks a b := by
  refine blocks (fun a b => ?_) a b
  obtain ⟨na, ns, np, nk⟩ := n
  simp only [List.mem_cons, Chunk.mk.injEq, List.not_mem_nil, or_false, reduceCtorEq, and_false,
    false_or, exists_and_left, exists_eq_left]

theorem free_inuse (hn : n.kind ≠ .free) :
    ∀ c ∈ [(⟨p, psize, true, .free⟩ : Chunk), { n with pinuse := false }],
      c.kind = .free → c.addr = p := by
  intro c hc hk
  rcases List.mem_pair.mp hc with rfl | rfl
  · rfl
  · exact absurd hk hn

variable (h : Freeing m pre run n post ks p psize)
include h

/-- The run begins at `p`. -/
theorem exists_first : ∃ o ∈ run, o.addr = p := by
  obtain ⟨o, ho⟩ := Option.isSome_iff_exists.mp (List.isSome_head?.mpr h.merged.ne_nil)
  exact ⟨o, List.mem_of_mem_head? ho, h.merged.tiles.lo_head o ho⟩

theorem pos : 0 < p ∧ 0 < psize := ⟨h.merged.shape.addr_pos, h.merged.shape.size_pos⟩

theorem next_notMem (hd : d ∈ run) : n.addr ≠ d.addr := by
  have hin := h.merged.tiles.within
    (fun c hc => (h.layout.arena.shape c (mem_run hc)).lt_fin) hd
  have hlt := (h.layout.arena.shape d (mem_run hd)).lt_fin
  have hadj := h.adjacent
  omega

/-- What is in the place of the run and the chunk behind. -/
theorem replaced (m' : MState)
    (hl : Layout m'.toTags m'.segs m'.least_addr (pre ++ new ++ post) ks)
    (hnew : ∀ c ∈ new, c.kind = .free → c.addr = p) :
    Replaced m' pre (run ++ [n]) post new ks p := by
  refine ⟨hl, fun d hd => ⟨?_, fun o ho => Layout.addr_ne h.layout.arena hd ho⟩, hnew⟩
  obtain ⟨o, ho, haddr⟩ := h.exists_first
  rw [← haddr]
  exact Layout.addr_ne h.layout.arena hd (List.mem_append_left _ ho)

/-- The bins, when the chunk behind is in none. -/
theorem binned (hn : n.kind = .free → n.addr = m.dv) : Binned m.toBins fun y s =>
    Binnable m.dv (pre ++ (run ++ [n]) ++ post) y s ∧ ∀ o ∈ run ++ [n], y ≠ o.addr := by
  refine h.bins.congr fun y s => ⟨fun hy => ⟨hy.1, fun o ho => hy.2 o (List.mem_append_left _ ho)⟩,
    fun hy => ⟨hy.1, fun o ho => ?_⟩⟩
  rcases List.mem_append.mp ho with ho | ho
  · exact hy.2 o ho
  · rw [List.mem_singleton.mp ho]
    rintro rfl
    by_cases hk : n.kind = .free
    · exact hy.1.1 (hn hk)
    · exact h.layout.not_free mem_next hk s hy.1.2

/-- The chunk behind is the top. -/
theorem intoTop (hn : n.kind = .top) : ∃ cs', Inv (m.intoTop p psize) cs' ks ∧
    ∀ a b, Blocks cs' ks a b ↔ Blocks (pre ++ [n] ++ post) ks a b := by
  have hpost : post = [] := by
    by_contra hne
    have harena := h.layout.arena
    rw [← List.append_assoc, List.append_assoc (pre ++ run), List.singleton_append] at harena
    exact harena.not_top hne hn
  subst hpost
  have heq := h.topped.eq_top h.layout.arena mem_next hn
  have hsize : n.size = m.topsize := by rw [heq]
  have hlayout := Layout.freeToTop (List.append_nil (pre ++ (run ++ [n])) ▸ h.layout) h.merged hn
    h.adjacent
  rw [hsize, ← List.append_nil (pre ++ [_])] at hlayout
  have hnofree : ∀ c ∈ [(⟨p, m.topsize + psize, true, .top⟩ : Chunk)], c.kind ≠ .free := by
    intro c hc
    rw [List.mem_singleton.mp hc]
    exact nofun
  have hnf : n.kind ≠ .free := by
    rw [hn]
    exact nofun
  refine ⟨pre ++ [⟨p, m.topsize + psize, true, .top⟩] ++ [], ?_, blocks fun a b => ?_⟩
  · have hbins := h.binned fun hk => absurd hk hnf
    unfold MState.intoTop
    dsimp only
    split
    · next hp =>
      obtain ⟨o, ho, haddr⟩ := h.exists_first
      refine (h.replaced { m with
        topsize := m.topsize + psize
        top := p
        toTags := m.setHead p ⟨m.topsize + psize, false, true⟩
        dv := 0
        dvsize := 0 } hlayout fun c hc hk => absurd hk (hnofree c hc)).inv hbins
        (Or.inr ⟨rfl, rfl, o, List.mem_append_left _ ho, haddr.trans hp⟩) (Or.inr ?_) hnofree
      simp
    · next hp =>
      obtain ⟨hv, hout⟩ := h.dv.resolve_right hp
      refine (h.replaced { m with
        topsize := m.topsize + psize
        top := p
        toTags := m.setHead p ⟨m.topsize + psize, false, true⟩ } hlayout
        fun c hc hk => absurd hk (hnofree c hc)).inv hbins
        (Or.inl ⟨rfl, rfl, hv, fun o ho => ?_⟩) (Or.inr ?_) hnofree
      · rcases List.mem_append.mp ho with ho | ho
        · exact hout o ho
        · rw [List.mem_singleton.mp ho]
          exact h.layout.dv_ne hv mem_next hnf
      · simp
  · have hnn : ∀ q, (⟨a, b, q, .used⟩ : Chunk) ≠ n := by
      rintro q rfl
      cases hn
    simp [hnn]

/-- Nothing behind moves but the last chunk. -/
theorem topped_of {t' : MState} (hn : n.kind ≠ .top) (htop : t'.top = m.top)
    (hsize : t'.topsize = m.topsize) : Topped t' (pre ++ new ++ post) := by
  refine h.topped.splice (by simp) ?_ htop hsize
  intro o ho
  rw [List.getLast?_append_of_ne_nil _ (by simp)] at ho
  cases ho
  exact hn

/-- The chunk behind is free: the two become one free chunk. -/
theorem blocks_free (hn : n.kind = .free) {size : ℕ} (a b : ℕ) :
    Blocks (pre ++ [⟨p, size, true, .free⟩] ++ post) ks a b ↔
      Blocks (pre ++ [n] ++ post) ks a b := by
  refine blocks (fun a b => ?_) a b
  have hnn : ∀ q, (⟨a, b, q, .used⟩ : Chunk) ≠ n := by
    rintro q rfl
    cases hn
  simp [hnn]

/-- The chunk behind is the victim. -/
theorem intoDv (hn : n.kind = .free) (hdv : n.addr = m.dv) :
    ∃ cs', Inv (m.intoDv p psize) cs' ks ∧
      ∀ a b, Blocks cs' ks a b ↔ Blocks (pre ++ [n] ++ post) ks a b := by
  have hne : p ≠ m.dv := by
    have hadj := h.adjacent
    have hpos := h.pos
    omega
  obtain ⟨hv, hout⟩ := h.dv.resolve_right hne
  have hsize : n.size = m.dvsize := by
    rcases hv with ⟨hz, -⟩ | hv
    · exact absurd (hdv.trans hz) (h.layout.addr_pos mem_next).ne'
    · have heq := h.layout.arena.eq_of_addr mem_next hv hdv
      rw [heq]
  have hlayout := h.layout.freeToFree h.merged hn h.adjacent
  rw [hsize, Nat.add_comm psize] at hlayout
  have hnew : ∀ c ∈ [(⟨p, m.dvsize + psize, true, .free⟩ : Chunk)], c.kind = .free →
      c.addr = p := fun c hc _ => by rw [List.mem_singleton.mp hc]
  refine ⟨_, (h.replaced (m.intoDv p psize) hlayout hnew).inv_dv (h.binned fun _ => hdv)
    ⟨n, by simp, hdv⟩ (h.topped_of ?_ rfl rfl) rfl (List.mem_singleton_self _), h.blocks_free hn⟩
  rw [hn]
  exact nofun

/-- The chunk behind is in a bin. -/
theorem withNext (hins : Inserts insert) (hn : n.kind = .free) (hdv : n.addr ≠ m.dv) :
    ∃ cs', Inv (MState.withNext insert m p psize n.addr) cs' ks ∧
      ∀ a b, Blocks cs' ks a b ↔ Blocks (pre ++ [n] ++ post) ks a b := by
  have hsize : m.chunksize n.addr = n.size := h.layout.chunksize_eq mem_next
  have hmem : (⟨n.addr, n.size, true, .free⟩ : Chunk) ∈ pre ++ (run ++ [n]) ++ post :=
    h.layout.free_eq mem_next hn ▸ mem_next
  have hlayout := h.layout.freeToFree h.merged hn h.adjacent
  have hnt : n.kind ≠ .top := by
    rw [hn]
    exact nofun
  have hbins : Binned (m.toBins.unlinkChunk m.least_addr n.addr n.size) fun y s =>
      Binnable m.dv (pre ++ (run ++ [n]) ++ post) y s ∧ ∀ o ∈ run ++ [n], y ≠ o.addr := by
    refine (h.bins.unlinkChunk (fun _ _ hy => h.layout.least_le hy.1.2)
      ⟨⟨hdv, hmem⟩, fun o ho => h.next_notMem ho⟩
      fun s' hF => (h.layout.size_unique hmem hF.1.2).1).congr fun y s => ?_
    simp only [List.mem_append, List.mem_singleton, or_imp, forall_and, forall_eq, and_assoc]
  have hnew : ∀ c ∈ [(⟨p, psize + n.size, true, .free⟩ : Chunk)], c.kind = .free →
      c.addr = p := fun c hc _ => by rw [List.mem_singleton.mp hc]
  unfold MState.withNext
  dsimp only
  rw [hsize]
  split
  · next hp =>
    obtain ⟨o, ho, haddr⟩ := h.exists_first
    change p = m.dv at hp
    refine ⟨pre ++ [⟨p, psize + n.size, true, .free⟩] ++ post, ?_, h.blocks_free hn⟩
    refine (h.replaced { m.unlinkChunk n.addr n.size with
      toTags := m.setSizeAndPinuseOfFreeChunk p (psize + n.size)
      dvsize := psize + n.size } hlayout hnew).inv_dv hbins
      ⟨o, List.mem_append_left _ ho, haddr.trans hp⟩ (h.topped_of hnt rfl rfl) hp.symm ?_
    rw [hp]
    exact List.mem_singleton_self _
  · next hp =>
    change p ≠ m.dv at hp
    obtain ⟨hv, hout⟩ := h.dv.resolve_right hp
    refine (hins _ _ _ _ _ ((h.replaced { m.unlinkChunk n.addr n.size with
      toTags := m.setSizeAndPinuseOfFreeChunk p (psize + n.size) } hlayout hnew).pending hbins rfl
      rfl hv (fun o ho => ?_) (h.topped_of hnt rfl rfl) h.pos.1) (by simp)).imp fun cs' hi =>
      ⟨hi.1, fun a b => (hi.2 a b).trans (h.blocks_free hn a b)⟩
    rcases List.mem_append.mp ho with ho | ho
    · exact hout o ho
    · rwa [List.mem_singleton.mp ho]

/-- The run grows the victim. -/
theorem mergeDv (hn : n.kind.inuse = true) (hp : p = m.dv) :
    ∃ cs', Inv { m with dvsize := psize, toTags := m.setFreeWithPinuse p psize n.addr } cs' ks ∧
      ∀ a b, Blocks cs' ks a b ↔ Blocks (pre ++ [n] ++ post) ks a b := by
  have hlayout := h.layout.freeToInuse h.merged hn h.adjacent
  have hnf : n.kind ≠ .free := by
    intro hk
    rw [hk] at hn
    cases hn
  have hnt : n.kind ≠ .top := by
    intro hk
    rw [hk] at hn
    cases hn
  obtain ⟨o, ho, haddr⟩ := h.exists_first
  refine ⟨_, (h.replaced { m with
    dvsize := psize
    toTags := m.setFreeWithPinuse p psize n.addr } hlayout (free_inuse hnf)).inv_dv
      (h.binned fun hk => absurd hk hnf) ⟨o, List.mem_append_left _ ho, haddr.trans hp⟩
      (h.topped_of hnt rfl rfl) hp.symm ?_, blocks_inuse⟩
  rw [hp]
  exact List.mem_cons_self

/-- The run is a free chunk before one that is in use. -/
theorem beforeInuse (hins : Inserts insert) (hn : n.kind.inuse = true) (hp : p ≠ m.dv) :
    ∃ cs', Inv (insert { m with
        toTags := m.setFreeWithPinuse p psize n.addr } p psize) cs' ks ∧
      ∀ a b, Blocks cs' ks a b ↔ Blocks (pre ++ [n] ++ post) ks a b := by
  have hlayout := h.layout.freeToInuse h.merged hn h.adjacent
  have hnf : n.kind ≠ .free := by
    intro hk
    rw [hk] at hn
    cases hn
  have hnt : n.kind ≠ .top := by
    intro hk
    rw [hk] at hn
    cases hn
  obtain ⟨hv, hout⟩ := h.dv.resolve_right hp
  refine (hins _ _ _ _ _ ((h.replaced { m with
    toTags := m.setFreeWithPinuse p psize n.addr } hlayout (free_inuse hnf)).pending
      (h.binned fun hk => absurd hk hnf) rfl rfl hv (fun o ho => ?_)
      (h.topped_of hnt rfl rfl) h.pos.1) (by simp)).imp fun cs' hi =>
    ⟨hi.1, fun a b => (hi.2 a b).trans (blocks_inuse a b)⟩
  rcases List.mem_append.mp ho with ho | ho
  · exact hout o ho
  · rw [List.mem_singleton.mp ho]
    exact h.layout.dv_ne hv mem_next hnf

theorem cinuse_next : m.cinuse n.addr = n.kind.inuse ∧ m.pinuse n.addr = true :=
  ⟨h.layout.cinuse_eq mem_next, (h.layout.pinuse_eq mem_next).trans h.pinuse⟩

theorem next_eq_top : n.addr = m.top ↔ n.kind = .top := by
  constructor
  · intro heq
    rcases h.topped with ⟨hnil, -⟩ | hlast
    · have hmem : n ∈ pre ++ (run ++ [n]) ++ post := mem_next
      rw [hnil] at hmem
      cases hmem
    · have hn := h.layout.arena.eq_of_addr mem_next (List.mem_of_getLast? hlast) heq
      rw [hn]
  · intro hk
    rw [h.topped.eq_top h.layout.arena mem_next hk]

/-- A chunk behind that is not in use and is not the top is free. -/
theorem next_free (hn : n.kind.inuse = false) (htop : n.addr ≠ m.top) : n.kind = .free := by
  rcases hk : n.kind with _ | _ | _ | _
  · rw [hk] at hn
    cases hn
  · rfl
  · rw [hk] at hn
    cases hn
  · exact absurd (h.next_eq_top.mpr hk) htop

/-- **"Consolidate forward"** keeps the invariant; the program has what it had but for the run. -/
theorem consolidateForward (hins : Inserts insert) (hdv : p = m.dv → n.kind.inuse = false) :
    ∃ cs', Inv (MState.consolidateForward insert m p psize n.addr) cs' ks ∧
    ∀ a b, Blocks cs' ks a b ↔ Blocks (pre ++ [n] ++ post) ks a b := by
  unfold MState.consolidateForward
  rw [h.cinuse_next.1]
  split
  · next hn =>
    split
    · next htop => exact h.intoTop (h.next_eq_top.mp htop)
    · next htop =>
      have hk := h.next_free hn htop
      split
      · next hdv => exact h.intoDv hk hdv
      · next hdv => exact h.withNext hins hk hdv
  · next hn =>
    exact h.beforeInuse hins (Bool.not_eq_false _ ▸ hn) fun hp => hn (hdv hp)

/-- The rest of `dlfree`. -/
theorem freeForward (g : Taken) (hdv : p = m.dv → n.kind.inuse = false) :
    ∃ q cs', m.freeForward x g p psize n.addr = some q ∧ Inv q cs' ks ∧
      ∀ a b, Blocks cs' ks a b ↔ Blocks (pre ++ [n] ++ post) ks a b := by
  obtain ⟨cs', hi, hb⟩ := h.consolidateForward (inserts_insertFreed g) hdv
  have hadj := h.adjacent
  have hpos := h.pos
  unfold MState.freeForward
  rw [if_pos ⟨by omega, h.cinuse_next.2⟩]
  dsimp only
  split
  · obtain ⟨cs₂, hi₂, hb₂⟩ := hi.sysTrim (x := x) g
    exact ⟨_, cs₂, rfl, hi₂, fun a b => (hb₂ a b).trans (hb a b)⟩
  · exact ⟨_, cs', rfl, hi, hb⟩

end Freeing

/-! ## One call -/

/-- The mapping of a chunk is given back. -/
theorem Layout.unmap {k : Mapping} {ks₁ ks₂ : List Mapping}
    (h : Layout t segs least cs (ks₁ ++ k :: ks₂)) : Layout t segs least cs (ks₁ ++ ks₂) := by
  have hsub : (ks₁ ++ ks₂).Sublist (ks₁ ++ k :: ks₂) :=
    List.Sublist.append_left (List.sublist_cons_self k ks₂) ks₁
  exact ⟨h.arena, h.seg_ok, h.seg_apart, h.inside, h.top_room, h.start,
    fun k' hk' => h.map_ok k' (hsub.subset hk'),
    fun k' hk' => h.map_tagged k' (hsub.subset hk'), h.map_apart.sublist hsub,
    fun k' hk' => h.map_seg k' (hsub.subset hk')⟩

/-- A state in which the program has one chunk less. -/
def Frees (cs : List Chunk) (ks : List Mapping) (p : ℕ) (m' : MState) : Prop :=
  ∃ cs' ks', Inv m' cs' ks' ∧ ∀ a s, Blocks cs' ks' a s ↔ Blocks cs ks a s ∧ a ≠ p

/-- The chunks that stay are those with another address. -/
theorem Layout.blocks_erase {q : Bool} {size : ℕ}
    (h : Layout m.toTags m.segs m.least_addr (pre ++ [c] ++ post) ks)
    (hc : c = ⟨p, size, q, .used⟩) (a b : ℕ) :
    Blocks (pre ++ post) ks a b ↔ Blocks (pre ++ [c] ++ post) ks a b ∧ a ≠ p := by
  have hcm : c ∈ pre ++ [c] ++ post := by simp
  have haddr : c.addr = p := by rw [hc]
  constructor
  · intro hb
    refine ⟨blocks_append.mpr (Or.inr hb), ?_⟩
    rintro rfl
    rcases hb with ⟨r, hmem⟩ | ⟨k, hk, hka, -⟩
    · exact Layout.addr_ne h.arena (List.mem_append.mp hmem) (List.mem_singleton_self c) haddr.symm
    · exact h.map_addr_ne hk hcm (hka.trans haddr.symm)
  · rintro ⟨hb, hne⟩
    rcases blocks_append.mp hb with ⟨r, hmem⟩ | hb
    · refine absurd ?_ hne
      have heq := List.mem_singleton.mp hmem
      rw [← haddr, ← heq]
    · exact hb

/-- The run of a chunk alone. -/
theorem Layout.run_single (h : Layout t segs least cs ks) (hc : c ∈ cs) (hk : c.kind = .used)
    (hp : c.pinuse = true) : Layout.Run [c] c.addr c.size := by
  have hs := h.arena.shape c hc
  refine ⟨⟨rfl, rfl⟩, by simp, ?_, ?_, hs.addr_pos, hs.size_pos, fun _ => hs.aligned ?_,
    fun _ _ => hs.min ?_ ?_⟩
  · rintro o ⟨⟩
    exact hp
  · intro o ho
    rw [List.mem_singleton.mp ho, hk]
    exact nofun
  · rw [hk]
    exact nofun
  · rw [hk]
    exact nofun
  · rw [hk]
    exact nofun

/-- The run of a chunk and the free one before it. -/
theorem Layout.run_pair {y : Chunk} (h : Layout t segs least cs ks) (hy : y ∈ cs)
    (hky : y.kind = .free) (hc : c ∈ cs) (hk : c.kind = .used) (hadj : c.addr = y.fin) :
    Layout.Run [y, c] y.addr (c.size + y.size) := by
  have hs := h.arena.shape c hc
  have hsy := h.arena.shape y hy
  have hal := hs.aligned (by rw [hk]; exact nofun)
  have haly := hsy.aligned (by rw [hky]; exact nofun)
  have hmin := hs.min (by rw [hk]; exact nofun) (by rw [hk]; exact nofun)
  have hpos := hsy.addr_pos
  have hcf : c.fin = c.addr + c.size := rfl
  have hyf : y.fin = y.addr + y.size := rfl
  have hend : c.fin = y.addr + (c.size + y.size) := by omega
  refine ⟨⟨rfl, hadj, hend⟩, by simp, ?_, ?_, hpos, ?_, fun _ => ⟨haly.1, ?_⟩, fun _ _ => ?_⟩
  · rintro o ⟨⟩
    exact h.arena.pinuse_of_not_inuse hy (by rw [hky]; rfl)
  · intro o ho
    rcases List.mem_pair.mp ho with rfl | rfl
    · rw [hky]
      exact nofun
    · rw [hk]
      exact nofun
  · show 0 < c.size + y.size
    have hpos := hs.size_pos
    omega
  · show 16 ∣ c.size + y.size
    omega
  · show minChunkSize ≤ c.size + y.size
    omega

/-- A chunk in use has one behind it, whose flag is on. -/
theorem Inv.next_used (h : Inv m (pre ++ [c] ++ post) ks) (hk : c.kind = .used) :
    ∃ n post', post = n :: post' ∧ n.addr = c.addr + c.size ∧ n.pinuse = true := by
  obtain ⟨n, post, rfl, hlink⟩ := h.next (by rw [hk]; exact nofun)
  refine ⟨n, post, rfl, hlink.adjacent (by rw [hk]; exact nofun), hlink.pinuse.mpr ?_⟩
  rw [hk]
  exact nofun

/-- **A mapping is freed.** -/
theorem Inv.dlfree_mapping {k : Mapping} (g : Taken) (h : Inv m cs ks) (hk : k ∈ ks) :
    ∃ q, m.dlfree x g (chunk2mem k.addr) = some q ∧ Frees cs ks k.addr q := by
  have hok := h.layout.map_ok k hk
  obtain ⟨hinuse, hmm, hpin⟩ := (h.layout.map_tagged k hk).flags
  have hpos := hok.least_pos
  have hle := hok.least_le
  have hbase := hok.base_le
  have hmem : mem2chunk (chunk2mem k.addr) = k.addr := Nat.add_sub_cancel _ _
  have hokay : m.okAddress k.addr = true := decide_eq_true (Nat.le_trans hle hbase)
  unfold MState.dlfree
  dsimp only
  rw [if_neg (by unfold chunk2mem; omega), hmem, if_pos ⟨hokay, hinuse⟩,
    if_neg (Bool.eq_false_iff.mp hpin), if_pos hmm]
  refine ⟨_, rfl, ?_⟩
  obtain ⟨ks₁, ks₂, rfl⟩ := List.append_of_mem hk
  refine ⟨cs, ks₁ ++ ks₂, ?_, fun a s => ?_⟩
  · have hi : Inv m cs (ks₁ ++ ks₂) := ⟨h.layout.unmap, h.topped, h.victim, h.bins⟩
    split
    · exact hi.setFootprint _
    · exact hi
  have hother : ∀ k' ∈ ks₁ ++ ks₂, k'.addr ≠ k.addr := by
    intro k' hk' heq
    have hk'm : k' ∈ ks₁ ++ k :: ks₂ :=
      (List.Sublist.append_left (List.sublist_cons_self k ks₂) ks₁).subset hk'
    have hap : Apart Mapping.base Mapping.fin k k' := by
      have hpair := (List.perm_middle.pairwise_iff fun h => h.symm).mp h.layout.map_apart
      exact (List.pairwise_cons.mp hpair).1 k' hk'
    have hok' := h.layout.map_ok k' hk'm
    have hb' := hok'.base_le
    have hf' := hok'.fin_le
    have hf := hok.fin_le
    unfold Apart at hap
    omega
  constructor
  · rintro (⟨q, hmem⟩ | ⟨k', hk', rfl, rfl⟩)
    · exact ⟨Or.inl ⟨q, hmem⟩, fun heq => h.layout.map_addr_ne hk hmem heq.symm⟩
    · refine ⟨Or.inr ⟨k', ?_, rfl, rfl⟩, hother k' hk'⟩
      exact (List.Sublist.append_left (List.sublist_cons_self k ks₂) ks₁).subset hk'
  · rintro ⟨⟨q, hmem⟩ | ⟨k', hk', rfl, rfl⟩, hne⟩
    · exact Or.inl ⟨q, hmem⟩
    · refine Or.inr ⟨k', ?_, rfl, rfl⟩
      simp only [List.mem_append, List.mem_cons] at hk' ⊢
      rcases hk' with hk' | rfl | hk'
      · exact Or.inl hk'
      · exact absurd rfl hne
      · exact Or.inr hk'

/-- **A chunk behind one in use is freed.** -/
theorem Inv.free_single (g : Taken) (h : Inv m cs ks) (hc : c ∈ cs) (hk : c.kind = .used)
    (hp : c.pinuse = true) : ∃ q, m.freeForward x g c.addr c.size (c.addr + c.size) = some q ∧
      Frees cs ks c.addr q := by
  obtain ⟨pre, post, rfl⟩ := cut hc
  obtain ⟨n, post, rfl, hadj, hpn⟩ := h.next_used hk
  have hcut : pre ++ [c] ++ n :: post = pre ++ ([c] ++ [n]) ++ post := by simp
  have hkf : c.kind ≠ .free := by
    rw [hk]
    exact nofun
  have hdv : c.addr ≠ m.dv := h.layout.dv_ne h.victim hc hkf
  have hf : Freeing m pre [c] n post ks c.addr c.size := by
    refine ⟨hcut ▸ h.layout, hcut ▸ h.topped, h.layout.run_single hc hk hp, hadj, hpn, ?_,
      Or.inl ⟨hcut ▸ h.victim, fun o ho => ?_⟩⟩
    · refine h.bins.congr fun y s => ⟨fun hy => hcut ▸ hy.1, fun hy => ⟨hcut ▸ hy, fun o ho => ?_⟩⟩
      rw [List.mem_singleton.mp ho]
      rintro rfl
      exact h.layout.not_free hc hkf s hy.2
    · rwa [List.mem_singleton.mp ho]
  obtain ⟨q, cs', hq, hi, hb⟩ := hf.freeForward (x := x) g fun he => absurd he hdv
  rw [hadj] at hq
  refine ⟨q, hq, cs', ks, hi, fun a b => ?_⟩
  have hceq : c = ⟨c.addr, c.size, c.pinuse, .used⟩ := by
    rw [← hk]
  have hside : pre ++ [n] ++ post = pre ++ n :: post := by simp
  rw [hb, hside, h.layout.blocks_erase hceq]

/-- What is before and behind a chunk and the free one before it. -/
structure Paired (m : MState) (pre : List Chunk) (y c n : Chunk) (post : List Chunk)
    (ks : List Mapping) : Prop where
  inv : Inv m (pre ++ ([y, c] ++ [n]) ++ post) ks
  free : y.kind = .free
  used : c.kind = .used
  adjacent : c.addr = y.fin
  next : n.addr = c.addr + c.size
  pinuse : n.pinuse = true

theorem Inv.paired (h : Inv m cs ks) (hc : c ∈ cs) (hk : c.kind = .used) (hp : c.pinuse = false) :
    ∃ pre y n post, cs = pre ++ ([y, c] ++ [n]) ++ post ∧ Paired m pre y c n post ks := by
  obtain ⟨pre, y, post, rfl, hy, hadj⟩ := h.layout.arena.prev hc hp
  have hcut : pre ++ [y, c] ++ post = (pre ++ [y]) ++ [c] ++ post := by simp
  obtain ⟨n, post, rfl, hn, hpn⟩ := Inv.next_used (hcut ▸ h) hk
  have hcut' : pre ++ [y, c] ++ n :: post = pre ++ ([y, c] ++ [n]) ++ post := by simp
  exact ⟨pre, y, n, post, hcut', hcut' ▸ h, hy, hk, hadj, hn, hpn⟩

namespace Paired

variable {y : Chunk}

theorem mem : y ∈ pre ++ ([y, c] ++ [n]) ++ post ∧ c ∈ pre ++ ([y, c] ++ [n]) ++ post := by simp

variable (h : Paired m pre y c n post ks)
include h

/-- The bins, when the chunk before is in none. -/
theorem freeing {b : Bins}
    (hb : Binned b fun z s => Binnable m.dv (pre ++ ([y, c] ++ [n]) ++ post) z s ∧ z ≠ y.addr) :
    Freeing { m with toBins := b } pre [y, c] n post ks y.addr (c.size + y.size) := by
  have hkf : c.kind ≠ .free := by
    rw [h.used]
    exact nofun
  have hcdv := h.inv.layout.dv_ne h.inv.victim mem.2 hkf
  have hadj := h.adjacent
  have hnext := h.next
  have hyf : y.fin = y.addr + y.size := rfl
  refine ⟨h.inv.layout, h.inv.topped,
    h.inv.layout.run_pair mem.1 h.free mem.2 h.used h.adjacent, by omega, h.pinuse, ?_, ?_⟩
  · refine hb.congr fun z s =>
      ⟨fun hz => ⟨hz.1, hz.2 y (by simp)⟩, fun hz => ⟨hz.1, fun o ho => ?_⟩⟩
    rcases List.mem_pair.mp ho with rfl | rfl
    · exact hz.2
    · rintro rfl
      exact h.inv.layout.not_free mem.2 hkf s hz.1.2
  · by_cases hydv : y.addr = m.dv
    · exact Or.inr hydv
    · refine Or.inl ⟨h.inv.victim, fun o ho => ?_⟩
      rcases List.mem_pair.mp ho with rfl | rfl
      · exact hydv
      · exact hcdv

/-- What the program has without the chunk. -/
theorem frees {cs' : List Chunk} {q : MState} (hi : Inv q cs' ks)
    (hb : ∀ a b, Blocks cs' ks a b ↔ Blocks (pre ++ [n] ++ post) ks a b) :
    Frees (pre ++ ([y, c] ++ [n]) ++ post) ks c.addr q := by
  refine ⟨cs', ks, hi, fun a b => ?_⟩
  have hceq : c = ⟨c.addr, c.size, c.pinuse, .used⟩ := by
    rw [← h.used]
  have hcut : pre ++ ([y, c] ++ [n]) ++ post = (pre ++ [y]) ++ [c] ++ n :: post := by simp
  have hy : Blocks (pre ++ [n] ++ post) ks a b ↔ Blocks ((pre ++ [y]) ++ n :: post) ks a b := by
    have hny : ∀ q, (⟨a, b, q, .used⟩ : Chunk) ≠ y := by
      rintro q rfl
      cases h.free
    unfold Blocks
    simp [hny]
  rw [hb, hy, hcut]
  exact Layout.blocks_erase (hcut ▸ h.inv.layout) hceq a b

/-- **"Consolidate backward"** and what follows. -/
theorem free_pair (g : Taken) :
    ∃ q, (if y.addr ≠ m.dv then
        MState.freeForward x g (m.unlinkChunk y.addr y.size) y.addr (c.size + y.size)
          (c.addr + c.size)
      else if m.cinuse (c.addr + c.size) = true ∧ m.pinuse (c.addr + c.size) = true then
        some { m with
          dvsize := c.size + y.size
          toTags := m.setFreeWithPinuse y.addr (c.size + y.size) (c.addr + c.size) }
      else MState.freeForward x g m y.addr (c.size + y.size) (c.addr + c.size)) = some q ∧
      Frees (pre ++ ([y, c] ++ [n]) ++ post) ks c.addr q := by
  rw [← h.next]
  split
  · next hdv =>
    have hmem : (⟨y.addr, y.size, true, .free⟩ : Chunk) ∈ pre ++ ([y, c] ++ [n]) ++ post :=
      h.inv.layout.free_eq mem.1 h.free ▸ mem.1
    have hf := h.freeing (h.inv.bins.unlinkChunk
      (fun _ _ hy => h.inv.layout.least_le hy.2) ⟨hdv, hmem⟩
      fun s' hF => (h.inv.layout.size_unique hmem hF.2).1)
    obtain ⟨q, cs', hq, hi, hb⟩ := hf.freeForward (x := x) g fun he => absurd he hdv
    exact ⟨q, hq, h.frees hi hb⟩
  · next hdv =>
    have hydv : y.addr = m.dv := not_not.mp hdv
    have hf : Freeing m pre [y, c] n post ks y.addr (c.size + y.size) :=
      h.freeing (b := m.toBins) (h.inv.bins.congr fun z s =>
        ⟨fun hz => hz.1, fun hz => ⟨hz, hydv ▸ hz.1⟩⟩)
    obtain ⟨hcin, hpin⟩ := hf.cinuse_next
    split
    · next hin =>
      obtain ⟨cs', hi, hb⟩ := hf.mergeDv (hcin ▸ hin.1) hydv
      exact ⟨_, rfl, h.frees hi hb⟩
    · next hin =>
      obtain ⟨q, cs', hq, hi, hb⟩ := hf.freeForward (x := x) g fun _ => by
        rw [← hcin]
        exact Bool.eq_false_iff.mpr fun ht => hin ⟨ht, hpin⟩
      exact ⟨q, hq, h.frees hi hb⟩

end Paired

/-- **`dlfree`** never aborts on a chunk that the program has, and the program has the others. -/
theorem Inv.dlfree {size : ℕ} (g : Taken) (h : Inv m cs ks) (hb : Blocks cs ks p size) :
    ∃ q, m.dlfree x g (chunk2mem p) = some q ∧ Frees cs ks p q := by
  rcases hb with ⟨b, hc⟩ | ⟨k, hk, rfl, -⟩
  · have hmem : mem2chunk (chunk2mem p) = p := Nat.add_sub_cancel _ _
    have hcin : m.cinuse p = true := h.layout.cinuse_eq hc
    have hcond : m.okAddress p = true ∧ m.isInuse p = true := by
      refine ⟨h.layout.okAddress hc, ?_⟩
      unfold Tags.isInuse
      rw [hcin, Bool.true_or]
    have hsize : m.chunksize p = size := h.layout.chunksize_eq hc
    have hpin : m.pinuse p = b := h.layout.pinuse_eq hc
    unfold MState.dlfree
    dsimp only
    rw [if_neg (by unfold chunk2mem; omega), hmem, if_pos hcond, hsize, hpin]
    cases b with
    | true => exact h.free_single g hc rfl rfl
    | false =>
        have hmm : ¬ m.isMmapped p = true := by
          unfold Tags.isMmapped
          rw [hcin]
          exact nofun
        obtain ⟨pre, y, n, post, rfl, hpair⟩ := h.paired hc rfl rfl
        have hyf : p = y.addr + y.size := hpair.adjacent
        have htagy := h.layout.arena.tagged y Paired.mem.1
        have hfoot : m.prev_foot p = y.size := by
          rw [hyf]
          exact htagy.2 hpair.free
        have hprev : p - y.size = y.addr := by omega
        have hoky : m.okAddress y.addr = true := h.layout.okAddress Paired.mem.1
        rw [if_neg nofun, if_neg hmm, hfoot, hprev, if_pos hoky]
        exact hpair.free_pair g
  · exact h.dlfree_mapping g hk

end Porpoise.Dlmalloc
