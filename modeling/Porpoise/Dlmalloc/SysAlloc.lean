import Porpoise.Dlmalloc.Grow

/-!
# What `sys_alloc` does

A range in front of a segment joins it, and the request is served from the range; what is left
of it joins the first chunk of the segment. A large request may get a mapping of its own.

* `Inv.prependSeg`: the range in front of a segment.
* `Inv.mmapAlloc`: a mapping for one chunk.
* `Inv.sysAlloc`: one call.
-/

namespace Porpoise.Dlmalloc

open Porpoise.Lib Chunk

variable {m : MState} {t t' : Tags} {segs : List Seg} {cs pre post : List Chunk}
  {ks : List Mapping} {c d n : Chunk} {s r : Seg} {a b nb least : ℕ} {x : MParams}

/-! ## In front of a segment -/

/-- The chunks that take the place of the first chunk of a segment and of the range before it. -/
structure Preceded (t' : Tags) (a : ℕ) (c : Chunk) (post new : List Chunk) : Prop where
  tiles : Tiles addr fin a c.fin new
  ne_nil : new ≠ []
  tagged : ∀ n ∈ new, Tagged t' n
  shape : ∀ n ∈ new, n.Shape
  linked : new.IsChain Link
  first : ∀ n ∈ new.head?, n.pinuse = true
  last : post ≠ [] → ∀ n ∈ new.getLast?, n.kind = c.kind
  top : ∀ n ∈ new, n.kind = .top → c.kind = .top ∧ n.fin = c.fin
  room : ∀ n ∈ new, n.kind ≠ .fence → n.fin ≤ c.addr ∨ (c.kind ≠ .fence ∧ n.fin ≤ c.fin)

/-- The first chunk of a segment comes behind a fence or is the first of all. -/
theorem Layout.fence_before (h : Layout t segs least (pre ++ [c] ++ post) ks) (hr : r ∈ segs)
    (hc : c.addr = r.base) : (∀ x ∈ pre.getLast?, x.kind = .fence) ∧ c.pinuse = true := by
  have hl := (List.isChain_append.mp (List.isChain_append.mp h.arena.linked).1).2.2
  have hfence : ∀ x ∈ pre.getLast?, x.kind = .fence := by
    intro x hx
    by_contra hk
    have hmem : x ∈ pre ++ [c] ++ post :=
      List.mem_append_left _ (List.mem_append_left _ (List.mem_of_getLast? hx))
    exact h.fin_ne_base hmem hr (((hl x hx c rfl).adjacent hk).symm.trans hc)
  refine ⟨hfence, ?_⟩
  rcases hlast : pre.getLast? with _ | x
  · rw [List.getLast?_eq_none_iff] at hlast
    subst hlast
    exact h.arena.first c rfl
  · refine (hl x hlast c rfl).pinuse.mpr ?_
    rw [hfence x hlast]
    exact nofun

/-- What is beside the first chunk of a segment is apart from it and from the range before. -/
theorem Layout.far_of_first (h : Layout t segs least (pre ++ [c] ++ post) ks)
    (hs : s.Given segs ks) (hc : c.addr = s.fin) (hd : d ∈ pre ∨ d ∈ post) :
    d.fin ≤ s.base ∨ c.fin ≤ d.addr := by
  have hmem : d ∈ pre ++ [c] ++ post := by
    simp only [List.mem_append]
    tauto
  have hlt := (h.arena.shape d hmem).lt_fin
  have hnew := h.far_of_fresh hs.fresh hmem
  have hold := h.arena.far_of_tiles (a := c.addr) (b := c.fin) ⟨rfl, rfl⟩ (by simp) hd
  omega

/-- **A range in front of a segment joins it.** -/
theorem Layout.prepend {segs' : List Seg} {new : List Chunk} {least' : ℕ} {r' : Seg}
    (h : Layout t segs least (pre ++ [c] ++ post) ks) (hr : r ∈ segs) (hc : c.addr = r.base)
    (hg : Grown segs segs' r') (hbase : r'.base = s.base) (hfin : r'.fin = r.fin)
    (hs : s.Given segs ks) (hsr : s.fin = r.base) (hspos : 0 < s.size)
    (hnew : Preceded t' s.base c post new) (hw : t.Within s.base c.fin t')
    (hhead : ∀ q ∈ segs.head?, (if q = r then r' else q) ∈ segs'.head?)
    (hpages : r'.mmapped = true → r.mmapped = true ∧ s.mmapped = true)
    (hleast : 0 < least' ∧ least' ≤ s.base ∧ least' ≤ least) :
    Layout t' segs' least' (pre ++ new ++ post) ks := by
  have hmemc : c ∈ pre ++ [c] ++ post := by simp
  have hltc := (h.arena.shape c hmemc).lt_fin
  have hsfin : s.fin = s.base + s.size := rfl
  have hrok := h.seg_ok r hr
  have hral := hrok.aligned
  have hsal := hs.aligned
  have hr'size : r'.size = r.size + s.size := by
    unfold Seg.fin at hfin hsr
    omega
  have hrgt := hrok.size_gt
  have hrf : r.fin = r.base + r.size := rfl
  have hcfin : c.fin + 8 ≤ r.fin ∧ (c.kind ≠ .fence → c.fin + topFootSize ≤ r.fin) := by
    obtain ⟨q, hq, hqb, hqf⟩ := h.inside c hmemc
    have hqr : q = r := by
      refine h.seg_unique hq hr (x := c.addr) ⟨hqb, by omega⟩ ⟨by omega, ?_⟩
      have hpos := hrok.size_pos
      unfold Seg.fin
      omega
    rwa [← hqr]
  obtain ⟨hfence, -⟩ := h.fence_before hr hc
  have hlt : ∀ n ∈ new, n.addr < n.fin := fun n hn => (hnew.shape n hn).lt_fin
  have hfar : ∀ d, d ∈ pre ∨ d ∈ post → d.fin ≤ s.base ∨ c.fin ≤ d.addr := fun d hd =>
    h.far_of_first hs (hc.trans hsr.symm) hd
  have hside : ∀ d, d ∈ pre ∨ d ∈ post → d ∈ pre ++ [c] ++ post := by
    intro d hd
    simp only [List.mem_append]
    tauto
  have hsplit : ∀ d, d ∈ pre ++ new ++ post → d ∈ new ∨ d ∈ pre ∨ d ∈ post := by
    intro d hd
    simp only [List.mem_append] at hd
    tauto
  have hmap : ∀ k ∈ ks, k.fin ≤ r'.base ∨ r'.fin ≤ k.base := by
    intro k hk
    have hkr := h.map_seg k hk r hr
    have hks := hs.fresh.map k hk
    have hkb := (h.map_ok k hk).base_le
    have hkf := (h.map_ok k hk).fin_le
    omega
  have harena : Arena t' (pre ++ new ++ post) := by
    have hout := (List.isChain_append.mp h.arena.linked).2.2
    refine h.arena.replace (fun d hd => ⟨?_, fun n hn => ?_⟩) (hnew.tiles.pairwise hlt) hnew.tagged
      hnew.shape hnew.linked hnew.ne_nil (fun x hx n hn => ?_) (fun l hl y hy => ?_)
      fun _ => hnew.first
    · exact (h.arena.tagged d (hside d hd)).frame (h.arena.shape d (hside d hd)) hw (hfar d hd)
    · have hin := hnew.tiles.within hlt hn
      have hf := hfar d hd
      show d.fin ≤ n.addr ∨ n.fin ≤ d.addr
      omega
    · have hk := hfence x hx
      refine ⟨?_, fun hne => absurd hk hne, ?_, ?_⟩
      · rw [hk]
        exact nofun
      · rw [hk]
        exact ⟨fun _ => nofun, fun _ => hnew.first n hn⟩
      · rw [hk]
        exact nofun
    · have hlink := hout c (by simp) y hy
      have hk := hnew.last (List.ne_nil_of_mem (List.mem_of_mem_head? hy)) l hl
      have hlfin := hnew.tiles.hi_getLast l hl
      refine ⟨?_, ?_, ?_, ?_⟩
      · rw [hk]
        exact hlink.not_top
      · rw [hk, hlfin]
        exact hlink.adjacent
      · rw [hk]
        exact hlink.pinuse
      · rw [hk]
        exact hlink.inuse
  refine h.grow hg ⟨hleast.1, ?_, ?_, ⟨?_, ?_⟩, ?_, fun hmm => ?_⟩ (fun _ => hleast.2.2) hmap
    (fun k hk => ?_) harena (fun d hd => ?_) (fun d hd hk => ?_) (fun q hq => ?_)
  · omega
  · omega
  · rw [hbase]
    exact hsal.1
  · rw [hr'size]
    omega
  · rw [hfin]
    exact hrok.fin_le
  · rw [hr'size]
    exact Nat.dvd_add (hrok.pages (hpages hmm).1) (hs.pages (hpages hmm).2)
  · refine (h.map_tagged k hk).frame (h.map_ok k hk) hw ?_
    have hkm := hmap k hk
    omega
  · rcases hsplit d hd with hd | hd
    · have hin := hnew.tiles.within hlt hd
      refine Or.inr ⟨r', hg.mem, by omega, by omega, fun hk => ?_⟩
      rw [hfin]
      rcases hnew.room d hd hk with hle | ⟨hck, hle⟩
      · omega
      · exact Nat.le_trans (Nat.add_le_add_right hle _) (hcfin.2 hck)
    · exact Or.inl (hside d hd)
  · -- The top ends where a top ended.
    have hold : ∃ o ∈ pre ++ [c] ++ post, o.kind = .top ∧ o.fin = d.fin ∧
        (d.addr = o.addr ∨ (o = c ∧ d ∈ new)) := by
      rcases hsplit d hd with hd | hd
      · obtain ⟨hck, hcf⟩ := hnew.top d hd hk
        exact ⟨c, hmemc, hck, hcf.symm, Or.inr ⟨rfl, hd⟩⟩
      · exact ⟨d, hside d hd, hk, rfl, Or.inl rfl⟩
    obtain ⟨o, ho, hok, hof, hplace⟩ := hold
    obtain ⟨q, hqh, hqb, hqroom, hall⟩ := h.top_room o ho hok
    have hq := List.mem_of_mem_head? hqh
    have hqhead := hhead q hqh
    have hlto := (h.arena.shape o ho).lt_fin
    unfold topFootSize at hqroom
    by_cases hqr : q = r
    swap
    · rw [if_neg hqr] at hqhead
      have hap := h.seg_apart.forall hq hr hqr
      have hfresh := hs.fresh.seg q hq
      change q.fin ≤ r.base ∨ r.fin ≤ q.base at hap
      have hplace' : d.addr = o.addr := by
        refine hplace.resolve_right ?_
        rintro ⟨rfl, -⟩
        omega
      refine ⟨q, hqhead, by omega, by unfold topFootSize; omega, fun e he heb hef => ?_⟩
      rcases hsplit e he with he | he
      · have hin := hnew.tiles.within hlt he
        have hlte := hlt e he
        omega
      · have hle := hall e (hside e he) heb hef
        omega
    · rw [if_pos hqr] at hqhead
      subst hqr
      have hcle := hall c hmemc (by omega) (by omega)
      refine ⟨r', hqhead, ?_, by unfold topFootSize; omega, fun e he heb hef => ?_⟩
      · rcases hplace with hplace | ⟨-, hdn⟩
        · omega
        · have hin := hnew.tiles.within hlt hdn
          omega
      · rcases hsplit e he with he | he
        · have hin := hnew.tiles.within hlt he
          omega
        · have hef' := hfar e he
          have hlte := (h.arena.shape e (hside e he)).lt_fin
          by_cases heq : q.base ≤ e.addr
          · have hle := hall e (hside e he) heq (by omega)
            omega
          · omega
  · by_cases hqr : q = r'
    · subst hqr
      obtain ⟨n, hn⟩ := Option.isSome_iff_exists.mp (List.isSome_head?.mpr hnew.ne_nil)
      refine ⟨n, ?_, (hnew.tiles.lo_head n hn).trans hbase.symm⟩
      have hmem := List.mem_of_mem_head? hn
      simp [hmem]
    · have hap := hg.apart.forall hq hg.mem hqr
      change q.fin ≤ r'.base ∨ r'.fin ≤ q.base at hap
      have hqs := (hg.of_mem q hq).resolve_left hqr
      obtain ⟨e, he, haddr⟩ := h.start q hqs
      have hqpos := (h.seg_ok q hqs).size_pos
      have hqf : q.fin = q.base + q.size := rfl
      refine ⟨e, ?_, haddr⟩
      simp only [List.mem_append, List.mem_singleton] at he ⊢
      rcases he with (he | rfl) | he
      · exact Or.inl (Or.inl he)
      · omega
      · exact Or.inr he

/-- The chunk for a request at the begin of a range. -/
theorem used_shape (hpos : 0 < a) (ha : 16 ∣ a) (hnb : minChunkSize ≤ nb) (hal : 16 ∣ nb) :
    (⟨a, nb, true, .used⟩ : Chunk).Shape :=
  ⟨hpos, Nat.lt_of_lt_of_le (by decide) hnb, fun _ => ⟨ha, hal⟩, fun _ _ => hnb⟩

/-- The rest of the range joins the top. -/
theorem preceded_top {size : ℕ} (t : Tags) (post : List Chunk) (hpos : 0 < a) (ha : 16 ∣ a)
    (hnb : minChunkSize ≤ nb) (hal : 16 ∣ nb) (hc : c.kind = .top) (hsize : 0 < size)
    (hals : 16 ∣ size) (hfin : a + nb + size = c.fin) :
    t.Within a c.fin ((t.setHead a ⟨nb, true, true⟩).setHead (a + nb) ⟨size, false, true⟩) ∧
      Preceded ((t.setHead a ⟨nb, true, true⟩).setHead (a + nb) ⟨size, false, true⟩) a c post
        [⟨a, nb, true, .used⟩, ⟨a + nb, size, true, .top⟩] := by
  have hshape := used_shape hpos ha hnb hal
  have hnbpos : 0 < nb := hshape.size_pos
  refine ⟨((Tags.Within.refl _ _ t).setHead (Nat.le_refl _) ?_).setHead ?_ ?_,
    ⟨rfl, rfl, hfin⟩, by simp, fun n hn => ?_, fun n hn => ?_, ?_, ?_, fun _ => ?_,
    fun n hn hk => ?_, fun n hn hk => Or.inr ⟨?_, ?_⟩⟩
  · omega
  · omega
  · omega
  · rcases List.mem_pair.mp hn with rfl | rfl
    · refine ⟨?_, fun hk => by cases hk⟩
      show ((t.setHead a _).setHead (a + nb) _).head a = _
      rw [Tags.setHead_head_of_ne (by omega), Tags.setHead_head_self]
      rfl
    · exact ⟨Tags.setHead_head_self .., fun hk => by cases hk⟩
  · rcases List.mem_pair.mp hn with rfl | rfl
    · exact hshape
    · exact top_shape (by omega) hsize (by omega) hals
  · exact List.isChain_pair.mpr ⟨nofun, fun _ => rfl, ⟨fun _ => nofun, fun _ => rfl⟩, nofun⟩
  · rintro n ⟨⟩
    rfl
  · rintro n ⟨⟩
    exact hc.symm
  · rcases List.mem_pair.mp hn with rfl | rfl
    · cases hk
    · exact ⟨hc, hfin⟩
  · rw [hc]
    exact nofun
  · rcases List.mem_pair.mp hn with rfl | rfl
    · show a + nb ≤ c.fin
      omega
    · exact Nat.le_of_eq hfin

/-- The rest of the range joins a free chunk. -/
theorem preceded_free {size : ℕ} (t : Tags) (post : List Chunk) (hpos : 0 < a) (ha : 16 ∣ a)
    (hnb : minChunkSize ≤ nb) (hal : 16 ∣ nb) (hc : c.kind = .free) (hsize : minChunkSize ≤ size)
    (hals : 16 ∣ size) (hfin : a + nb + size = c.fin) :
    t.Within a c.fin ((t.setHead a ⟨nb, true, true⟩).setSizeAndPinuseOfFreeChunk (a + nb) size) ∧
      Preceded ((t.setHead a ⟨nb, true, true⟩).setSizeAndPinuseOfFreeChunk (a + nb) size) a c post
        [⟨a, nb, true, .used⟩, ⟨a + nb, size, true, .free⟩] := by
  have hshape := used_shape hpos ha hnb hal
  have hnbpos : 0 < nb := hshape.size_pos
  have hspos : 0 < size := Nat.lt_of_lt_of_le (by decide) hsize
  refine ⟨(((Tags.Within.refl _ _ t).setHead (Nat.le_refl _) ?_).setHead ?_ ?_).setFoot ?_ ?_,
    ⟨rfl, rfl, hfin⟩, by simp, fun n hn => ?_, fun n hn => ?_, ?_, ?_, fun _ => ?_,
    fun n hn hk => ?_, fun n hn hk => Or.inr ⟨?_, ?_⟩⟩
  · omega
  · omega
  · omega
  · omega
  · omega
  · rcases List.mem_pair.mp hn with rfl | rfl
    · refine ⟨?_, fun hk => by cases hk⟩
      show ((t.setHead a _).setHead (a + nb) _).head a = _
      rw [Tags.setHead_head_of_ne (by omega), Tags.setHead_head_self]
      rfl
    · exact ⟨Tags.setHead_head_self .., fun _ => Tags.setFoot_prev_foot_self ..⟩
  · rcases List.mem_pair.mp hn with rfl | rfl
    · exact hshape
    · exact ⟨by show 0 < a + nb; omega, hspos, fun _ => ⟨by show 16 ∣ a + nb; omega, hals⟩,
        fun _ _ => hsize⟩
  · exact List.isChain_pair.mpr ⟨nofun, fun _ => rfl, ⟨fun _ => nofun, fun _ => rfl⟩, nofun⟩
  · rintro n ⟨⟩
    rfl
  · rintro n ⟨⟩
    exact hc.symm
  · rcases List.mem_pair.mp hn with rfl | rfl
    · cases hk
    · cases hk
  · rw [hc]
    exact nofun
  · rcases List.mem_pair.mp hn with rfl | rfl
    · show a + nb ≤ c.fin
      omega
    · exact Nat.le_of_eq hfin

/-- The rest of the range is a free chunk before one in use. -/
theorem preceded_inuse {size : ℕ} (t : Tags) (post : List Chunk) (hpos : 0 < a) (ha : 16 ∣ a)
    (hnb : minChunkSize ≤ nb) (hal : 16 ∣ nb) (hc : c.kind.inuse = true) (hcs : c.Shape)
    (htc : t.head c.addr = c.head) (hsize : minChunkSize ≤ size) (hals : 16 ∣ size)
    (hfin : a + nb + size = c.addr) :
    t.Within a c.fin ((t.setHead a ⟨nb, true, true⟩).setFreeWithPinuse (a + nb) size c.addr) ∧
      Preceded ((t.setHead a ⟨nb, true, true⟩).setFreeWithPinuse (a + nb) size c.addr) a c post
        [⟨a, nb, true, .used⟩, ⟨a + nb, size, true, .free⟩, { c with pinuse := false }] := by
  have hshape := used_shape hpos ha hnb hal
  have hnbpos : 0 < nb := hshape.size_pos
  have hspos : 0 < size := Nat.lt_of_lt_of_le (by decide) hsize
  have hltc := hcs.lt_fin
  have hcfree : c.kind ≠ .free := by
    intro hk
    rw [hk] at hc
    cases hc
  refine ⟨((((Tags.Within.refl _ _ t).setHead (Nat.le_refl _) ?_).setHead ?_ ?_).setHead
      ?_ ?_).setFoot ?_ ?_, ⟨rfl, rfl, hfin.symm, rfl⟩, by simp, fun n hn => ?_, fun n hn => ?_,
    ?_, ?_, fun _ => ?_, fun n hn hk => ?_, fun n hn hk => ?_⟩
  · omega
  · omega
  · omega
  · omega
  · omega
  · omega
  · omega
  · rcases List.mem_cons.mp hn with rfl | hn
    · refine ⟨?_, fun hk => by cases hk⟩
      show (((t.setHead a _).setHead c.addr _).setHead (a + nb) _).head a = _
      rw [Tags.setHead_head_of_ne (by omega), Tags.setHead_head_of_ne (by omega),
        Tags.setHead_head_self]
      rfl
    rcases List.mem_pair.mp hn with rfl | rfl
    · exact ⟨Tags.setHead_head_self .., fun _ => Tags.setFoot_prev_foot_self ..⟩
    · refine ⟨?_, fun hk => absurd hk hcfree⟩
      show ((((t.setHead a ⟨nb, true, true⟩).setHead c.addr { (t.setHead a ⟨nb, true, true⟩).head
        c.addr with pinuse := false })).setHead (a + nb) _).head c.addr = _
      rw [Tags.setHead_head_of_ne (by omega), Tags.setHead_head_self,
        Tags.setHead_head_of_ne (by omega), htc]
      rfl
  · rcases List.mem_cons.mp hn with rfl | hn
    · exact hshape
    rcases List.mem_pair.mp hn with rfl | rfl
    · exact ⟨by show 0 < a + nb; omega, hspos, fun _ => ⟨by show 16 ∣ a + nb; omega, hals⟩,
        fun _ _ => hsize⟩
    · exact ⟨hcs.addr_pos, hcs.size_pos, hcs.aligned, hcs.min⟩
  · exact List.isChain_cons_cons.mpr ⟨⟨nofun, fun _ => rfl, ⟨fun _ => nofun, fun _ => rfl⟩, nofun⟩,
      List.isChain_pair.mpr ⟨nofun, fun _ => hfin.symm, ⟨nofun, fun hk => absurd rfl hk⟩,
        fun _ => hc⟩⟩
  · rintro n ⟨⟩
    rfl
  · rintro n ⟨⟩
    rfl
  · rcases List.mem_cons.mp hn with rfl | hn
    · cases hk
    rcases List.mem_pair.mp hn with rfl | rfl
    · cases hk
    · exact ⟨hk, rfl⟩
  · rcases List.mem_cons.mp hn with rfl | hn
    · exact Or.inl (by show a + nb ≤ c.addr; omega)
    rcases List.mem_pair.mp hn with rfl | rfl
    · exact Or.inl (Nat.le_of_eq hfin)
    · exact Or.inr ⟨hk, Nat.le_refl _⟩

/-- The first chunk of a segment, and the memory before it. -/
theorem Layout.ahead_ne {q : ℕ} (h : Layout t segs least (pre ++ [c] ++ post) ks)
    (hs : s.Given segs ks) (hc : c.addr = s.fin) (hq : s.base < q) (hq' : q < c.fin)
    (hd : d ∈ pre ∨ d ∈ post) : d.addr ≠ q ∧ d.addr ≠ c.addr := by
  have hfar := h.far_of_first hs hc hd
  have hlt : d.addr < d.fin := by
    refine (h.arena.shape d ?_).lt_fin
    simp only [List.mem_append]
    tauto
  have hltc := (h.arena.shape c (by simp)).lt_fin
  have hsf : s.base ≤ s.fin := Nat.le_add_right _ _
  omega

/-- The bins hold free chunks but for one. -/
theorem Binned.beside {b : Bins} {F : ℕ → ℕ → Prop} (hb : Binned b F)
    (hF : ∀ y s', F y s' ↔ Binnable m.dv (pre ++ [c] ++ post) y s' ∧ y ≠ c.addr) :
    Binned b fun y s' => Binnable m.dv (pre ++ [c] ++ post) y s' ∧ ∀ o ∈ [c], y ≠ o.addr :=
  hb.congr fun y s' => by
    rw [hF]
    simp

theorem Inv.binned_inuse (h : Inv m (pre ++ [c] ++ post) ks) (hc : c ∈ pre ++ [c] ++ post)
    (hk : c.kind ≠ .free) : Binned m.toBins fun y s' =>
      Binnable m.dv (pre ++ [c] ++ post) y s' ∧ ∀ o ∈ [c], y ≠ o.addr := by
  refine h.bins.beside fun y s' => ⟨fun hy => ⟨hy, ?_⟩, fun hy => hy.1⟩
  rintro rfl
  exact h.layout.not_free hc hk s' hy.2

/-- A range in front of the segment that begins with `c`, and what it makes of the layout. -/
structure Front (m : MState) (pre post : List Chunk) (c : Chunk) (ks : List Mapping)
    (segs' : List Seg) (least' : ℕ) (s : Seg) (nb : ℕ) : Prop where
  inv : Inv m (pre ++ [c] ++ post) ks
  given : s.Given m.segs ks
  addr : c.addr = s.fin
  pinuse : c.pinuse = true
  min : minChunkSize ≤ nb
  aligned : 16 ∣ nb
  room : nb + 96 ≤ s.size
  least_le : least' ≤ m.least_addr
  layout : ∀ {t' : Tags} {new : List Chunk}, m.Within s.base c.fin t' →
    Preceded t' s.base c post new → Layout t' segs' least' (pre ++ new ++ post) ks

namespace Front

variable {m' : MState} {new : List Chunk} {segs' : List Seg} {least' : ℕ}

theorem of_prependTo {l : ℕ} (h : Inv m cs ks) (hnb : minChunkSize ≤ nb) (hal : 16 ∣ nb)
    (hs : s.Given m.segs ks) (hsize : nb + 96 ≤ s.size) (hr : m.prependTo s = some r)
    (hleast : 0 < l ∧ l ≤ s.base ∧ l ≤ m.least_addr) :
    r.base = s.fin ∧ ∃ pre c post, cs = pre ++ [c] ++ post ∧
      Front m pre post c ks (MState.updateSeg (fun r => r.base == s.fin)
        (fun r => { r with base := s.base, size := r.size + s.size }) m.segs) l s nb := by
  unfold MState.prependTo at hr
  obtain ⟨hfind, hcond⟩ := Option.filter_eq_some_iff.mp hr
  have hrm := List.mem_of_find?_eq_some hfind
  have hrs : r.base = s.fin := by
    have heq := List.find?_some hfind
    exact eq_of_beq heq
  have hsf : s.fin = s.base + s.size := rfl
  have hrf : r.fin = r.base + r.size := rfl
  obtain ⟨c, hc, hcaddr⟩ := h.layout.start r hrm
  obtain ⟨pre, post, rfl⟩ := cut hc
  have hg : Grown m.segs (MState.updateSeg (fun r => r.base == s.fin)
      (fun r => { r with base := s.base, size := r.size + s.size }) m.segs)
      { r with base := s.base, size := r.size + s.size } := by
    refine Grown.of_update h.layout hfind hs.fresh ⟨?_, ?_⟩ fun q hpos hqs hqr => ?_
    · show s.base ≤ r.base
      omega
    · show r.fin ≤ s.base + (r.size + s.size)
      omega
    · show q.fin ≤ s.base ∨ s.base + (r.size + s.size) ≤ q.base
      have hqfin : q.fin = q.base + q.size := rfl
      omega
  have hr'f : s.base + (r.size + s.size) = r.fin := by omega
  refine ⟨hrs, pre, c, post, rfl, h, hs, hcaddr.trans hrs,
    (h.layout.fence_before hrm hcaddr).2, hnb, hal, hsize, hleast.2.2, fun hw hnew => ?_⟩
  refine h.layout.prepend (s := s) hrm hcaddr hg rfl hr'f hs hrs.symm (by omega) hnew hw
    (fun q hq => ?_) (fun hmm => ⟨hmm, (eq_of_beq hcond).symm.trans hmm⟩) hleast
  have hupdate := head?_updateSeg (p := fun r => r.base == s.fin)
    (f := fun r => { r with base := s.base, size := r.size + s.size }) hq
  by_cases hqr : q = r
  · rw [if_pos hqr]
    rwa [hqr, if_pos (beq_iff_eq.mpr hrs)] at hupdate
  · rw [if_neg hqr]
    rwa [if_neg fun heq => hqr ?_] at hupdate
    have hqpos := (h.layout.seg_ok q (List.mem_of_mem_head? hq)).size_pos
    have hrpos := (h.layout.seg_ok r hrm).size_pos
    have hqf : q.fin = q.base + q.size := rfl
    have hqb : q.base = r.base := (eq_of_beq heq).trans hrs.symm
    exact h.layout.seg_unique (List.mem_of_mem_head? hq) hrm (x := q.base)
      ⟨Nat.le_refl _, by omega⟩ ⟨by omega, by omega⟩

variable (h : Front m pre post c ks segs' least' s nb)
include h

theorem bounds : 0 < s.base ∧ 16 ∣ s.base ∧ 0 < nb ∧ s.base + s.size = c.addr ∧
    16 ∣ s.size ∧ c.addr + c.size = c.fin ∧ 0 < c.size :=
  ⟨h.given.base_pos, h.given.aligned.1, Nat.lt_of_lt_of_le (by decide) h.min, h.addr.symm,
    h.given.aligned.2, rfl, (h.inv.layout.arena.shape c (by simp)).size_pos⟩

theorem ahead (hw : m.Within s.base c.fin m'.toTags) (hnew : Preceded m'.toTags s.base c post new)
    (hsegs : m'.segs = segs') (hleast : m'.least_addr = least')
    (hfree : ∀ n ∈ new, n.kind = .free → n.addr = s.base + nb) :
    Replaced m' pre [c] post new ks (s.base + nb) := by
  have hb := h.bounds
  have hroom := h.room
  refine ⟨?_, fun d hd => ?_, hfree⟩
  · rw [hsegs, hleast]
    exact h.layout hw hnew
  · obtain ⟨hq, hc⟩ := h.inv.layout.ahead_ne h.given h.addr (q := s.base + nb) (by omega)
      (by omega) hd
    refine ⟨hq, fun o ho => ?_⟩
    rwa [List.mem_singleton.mp ho]

/-- The program has the chunk at the begin of the range. -/
theorem serves (hi : Inv m' (pre ++ new ++ post) ks)
    (hnew : ∀ a b, (∃ p, (⟨a, b, p, .used⟩ : Chunk) ∈ new) ↔
      (∃ p, (⟨a, b, p, .used⟩ : Chunk) ∈ [c]) ∨ (a = s.base ∧ b = nb)) :
    Allocates (pre ++ [c] ++ post) ks nb (chunk2mem s.base) m' := by
  have hb := h.bounds
  have hsf : s.fin = s.base + s.size := rfl
  have hroom := h.room
  have hmem2 : mem2chunk (chunk2mem s.base) = s.base := Nat.add_sub_cancel _ _
  refine ⟨_, ks, nb, hi, Nat.le_refl _, by unfold chunk2mem; omega, fun b => ?_, fun a b => ?_⟩
  · rw [hmem2]
    rintro (⟨p, hmem⟩ | ⟨k, hk, hka, -⟩)
    · have hfar := h.inv.layout.far_of_fresh h.given.fresh hmem
      have hlt := (h.inv.layout.arena.shape _ hmem).lt_fin
      change _ ≤ s.base ∨ s.fin ≤ s.base at hfar
      change s.base < _ at hlt
      omega
    · have hfar := h.given.fresh.map k hk
      have hok := h.inv.layout.map_ok k hk
      have hkb := hok.base_le
      have hkf := hok.fin_le
      omega
  · rw [hmem2, blocks_append, blocks_append, hnew]
    tauto

/-- The segment begins with the top. -/
theorem top (hk : c.kind = .top) {size : ℕ} (hsize : s.base + nb + size = c.fin)
    (htags : m'.toTags = (m.setHead s.base ⟨nb, true, true⟩).setHead (s.base + nb)
      ⟨size, false, true⟩) (hsegs : m'.segs = segs') (hleast : m'.least_addr = least')
    (htop : m'.top = s.base + nb) (htopsize : m'.topsize = size) (hbins : m'.toBins = m.toBins)
    (hdv : m'.dv = m.dv) (hdvsize : m'.dvsize = m.dvsize) :
    Allocates (pre ++ [c] ++ post) ks nb (chunk2mem s.base) m' := by
  have hb := h.bounds
  have hroom := h.room
  have hal := h.aligned
  have halc := (h.inv.layout.arena.shape c (by simp)).aligned (by rw [hk]; exact nofun)
  obtain ⟨hw, hnew⟩ := preceded_top m.toTags post hb.1 hb.2.1 h.min h.aligned hk
    (by omega) (by omega) hsize
  rw [← htags] at hw hnew
  have hpost : post = [] := by
    by_contra hne
    have harena := h.inv.layout.arena
    rw [List.append_assoc, List.singleton_append] at harena
    exact harena.not_top hne hk
  have hmemc : c ∈ pre ++ [c] ++ post := by simp
  have hkf : c.kind ≠ .free := by
    rw [hk]
    exact nofun
  have hnofree : ∀ n ∈ [(⟨s.base, nb, true, .used⟩ : Chunk), ⟨s.base + nb, size, true, .top⟩],
      n.kind ≠ .free := by
    intro n hn
    rcases List.mem_pair.mp hn with rfl | rfl
    · exact nofun
    · exact nofun
  have hbinned := h.inv.binned_inuse hmemc hkf
  rw [← hbins] at hbinned
  refine h.serves ((h.ahead hw hnew hsegs hleast fun n hn hf => absurd hf (hnofree n hn)).inv
    hbinned (Or.inl ⟨hdv, hdvsize, h.inv.victim, fun o ho => ?_⟩) (Or.inr ?_) hnofree) fun a b => ?_
  · rw [List.mem_singleton.mp ho]
    exact h.inv.layout.dv_ne h.inv.victim hmemc hkf
  · rw [hpost, htop, htopsize]
    simp
  · have hnc : ∀ p, (⟨a, b, p, .used⟩ : Chunk) ≠ c := by
      rintro p rfl
      cases hk
    simp [hnc]

/-- The top is where it was. -/
theorem topped_free (hk : c.kind = .free) (htop : m'.top = m.top)
    (htopsize : m'.topsize = m.topsize) : Topped m' (pre ++ new ++ post) := by
  refine h.inv.topped.splice (by simp) ?_ htop htopsize
  rintro o ⟨⟩
  show c.kind ≠ .top
  rw [hk]
  exact nofun

/-- What the program has when a free chunk grows. -/
theorem serves_free {size : ℕ} (hk : c.kind = .free)
    (hi : Inv m' (pre ++ [⟨s.base, nb, true, .used⟩, ⟨s.base + nb, size, true, .free⟩] ++ post)
      ks) :
    Allocates (pre ++ [c] ++ post) ks nb (chunk2mem s.base) m' := by
  refine h.serves hi fun a b => ?_
  have hnc : ∀ p, (⟨a, b, p, .used⟩ : Chunk) ≠ c := by
    rintro p rfl
    cases hk
  simp [hnc]

/-- The segment begins with the victim. -/
theorem dv (hk : c.kind = .free) (hcdv : c.addr = m.dv) {size : ℕ}
    (hsize : s.base + nb + size = c.fin)
    (htags : m'.toTags = (m.setHead s.base ⟨nb, true, true⟩).setSizeAndPinuseOfFreeChunk
      (s.base + nb) size) (hsegs : m'.segs = segs') (hleast : m'.least_addr = least')
    (htop : m'.top = m.top) (htopsize : m'.topsize = m.topsize) (hbins : m'.toBins = m.toBins)
    (hdv : m'.dv = s.base + nb) (hdvsize : m'.dvsize = size) :
    Allocates (pre ++ [c] ++ post) ks nb (chunk2mem s.base) m' := by
  have hb := h.bounds
  have hroom := h.room
  have hal := h.aligned
  have halc := (h.inv.layout.arena.shape c (by simp)).aligned (by rw [hk]; exact nofun)
  obtain ⟨hw, hnew⟩ := preceded_free m.toTags post hb.1 hb.2.1 h.min h.aligned hk
    (by unfold minChunkSize; omega) (by omega) hsize
  rw [← htags] at hw hnew
  have hbinned : Binned m.toBins fun y s' =>
      Binnable m.dv (pre ++ [c] ++ post) y s' ∧ ∀ o ∈ [c], y ≠ o.addr :=
    h.inv.bins.beside fun y s' => ⟨fun hy => ⟨hy, hcdv ▸ hy.1⟩, fun hy => hy.1⟩
  rw [← hbins] at hbinned
  refine h.serves_free hk ((h.ahead hw hnew hsegs hleast fun n hn hf => ?_).inv_dv hbinned
    ⟨c, List.mem_singleton_self c, hcdv⟩ (h.topped_free hk htop htopsize) hdv ?_)
  · rcases List.mem_pair.mp hn with rfl | rfl
    · cases hf
    · rfl
  · rw [hdv, hdvsize]
    simp

/-- The segment begins with a free chunk that is in a bin. -/
theorem free (hk : c.kind = .free) (hcdv : c.addr ≠ m.dv) {size : ℕ}
    (hsize : s.base + nb + size = c.fin)
    (htags : m'.toTags = (m.setHead s.base ⟨nb, true, true⟩).setSizeAndPinuseOfFreeChunk
      (s.base + nb) size) (hsegs : m'.segs = segs') (hleast : m'.least_addr = least')
    (htop : m'.top = m.top) (htopsize : m'.topsize = m.topsize)
    (hbins : m'.toBins = m.toBins.unlinkChunk least' c.addr c.size)
    (hdv : m'.dv = m.dv) (hdvsize : m'.dvsize = m.dvsize) :
    Allocates (pre ++ [c] ++ post) ks nb (chunk2mem s.base)
      (m'.insertChunk (s.base + nb) size) := by
  have hb := h.bounds
  have hroom := h.room
  have hal := h.aligned
  have hmemc : c ∈ pre ++ [c] ++ post := by simp
  have halc := (h.inv.layout.arena.shape c hmemc).aligned (by rw [hk]; exact nofun)
  have hmemf : (⟨c.addr, c.size, true, .free⟩ : Chunk) ∈ pre ++ [c] ++ post :=
    h.inv.layout.free_eq hmemc hk ▸ hmemc
  obtain ⟨hw, hnew⟩ := preceded_free m.toTags post hb.1 hb.2.1 h.min h.aligned hk
    (by unfold minChunkSize; omega) (by omega) hsize
  rw [← htags] at hw hnew
  have hunlinked := h.inv.bins.unlinkChunk
    (fun _ _ hy => h.least_le.trans (h.inv.layout.least_le hy.2)) ⟨hcdv, hmemf⟩
    fun s' hF => (h.inv.layout.size_unique hmemf hF.2).1
  rw [← hbins] at hunlinked
  refine h.serves_free hk (Pending.insertChunk ((h.ahead hw hnew hsegs hleast
    fun n hn hf => ?_).pending (hunlinked.beside fun y s' => Iff.rfl) hdv hdvsize h.inv.victim
      (fun o ho => ?_) (h.topped_free hk htop htopsize) (by omega)) (by simp))
  · rcases List.mem_pair.mp hn with rfl | rfl
    · cases hf
    · rfl
  · rwa [List.mem_singleton.mp ho]

/-- The segment begins with a chunk in use. -/
theorem inuse (hk : c.kind.inuse = true) {size : ℕ} (hsize : s.base + nb + size = c.addr)
    (htags : m'.toTags = (m.setHead s.base ⟨nb, true, true⟩).setFreeWithPinuse
      (s.base + nb) size c.addr) (hsegs : m'.segs = segs') (hleast : m'.least_addr = least')
    (htop : m'.top = m.top) (htopsize : m'.topsize = m.topsize) (hbins : m'.toBins = m.toBins)
    (hdv : m'.dv = m.dv) (hdvsize : m'.dvsize = m.dvsize) :
    Allocates (pre ++ [c] ++ post) ks nb (chunk2mem s.base)
      (m'.insertChunk (s.base + nb) size) := by
  have hb := h.bounds
  have hroom := h.room
  have hal := h.aligned
  have hmemc : c ∈ pre ++ [c] ++ post := by simp
  have hcs := h.inv.layout.arena.shape c hmemc
  have hsal := h.given.aligned
  have hkt : c.kind ≠ .top := by
    intro he
    rw [he] at hk
    cases hk
  have hkf : c.kind ≠ .free := by
    intro he
    rw [he] at hk
    cases hk
  obtain ⟨hw, hnew⟩ := preceded_inuse m.toTags post hb.1 hb.2.1 h.min h.aligned hk hcs
    (h.inv.layout.arena.tagged c hmemc).1 (by unfold minChunkSize; omega) (by omega) hsize
  rw [← htags] at hw hnew
  have hbinned := h.inv.binned_inuse hmemc hkf
  rw [← hbins] at hbinned
  refine h.serves (Pending.insertChunk ((h.ahead hw hnew hsegs hleast fun n hn hf => ?_).pending
    hbinned hdv hdvsize h.inv.victim (fun o ho => ?_)
    (h.inv.topped.splice (by simp) (by rintro o ⟨⟩; exact hkt) htop htopsize) (by omega))
    (by simp)) fun a b => ?_
  · rcases List.mem_cons.mp hn with rfl | hn
    · cases hf
    rcases List.mem_pair.mp hn with rfl | rfl
    · rfl
    · exact absurd hf hkf
  · rw [List.mem_singleton.mp ho]
    exact h.inv.layout.dv_ne h.inv.victim hmemc hkf
  · obtain ⟨ca, cs, cp, ck⟩ := c
    simp only [List.mem_cons, Chunk.mk.injEq, List.not_mem_nil, or_false, exists_or, reduceCtorEq,
      and_false, false_or, exists_and_left, exists_eq_left, and_true, exists_eq]
    tauto

end Front

/-- The flag of a chunk behind a free one is off already. -/
theorem Tags.clearPinuse_eq {t : Tags} {p : ℕ} (h : t.pinuse p = false) : t.clearPinuse p = t := by
  have hhead : { t.head p with pinuse := false } = t.head p := by
    rw [← h]
    rfl
  unfold Tags.clearPinuse Tags.setHead
  rw [hhead, Function.update_eq_self]

/-- **The range in front of a segment** serves the request. -/
theorem Inv.prependSeg {l : ℕ} (h : Inv m cs ks) (hnb : minChunkSize ≤ nb) (hal : 16 ∣ nb)
    (hs : s.Given m.segs ks) (hsize : nb + 96 ≤ s.size) (hr : m.prependTo s = some r)
    (hleast : 0 < l ∧ l ≤ s.base ∧ l ≤ m.least_addr) :
    Allocates cs ks nb ({ m with least_addr := l }.prependSeg s r nb).1
      ({ m with least_addr := l }.prependSeg s r nb).2 := by
  obtain ⟨hrs, pre, c, post, rfl, hf⟩ := Front.of_prependTo h hnb hal hs hsize hr hleast
  have hb := hf.bounds
  have hsal := hs.aligned
  have hmemc : c ∈ pre ++ [c] ++ post := by simp
  have hcs := h.layout.arena.shape c hmemc
  have hct := h.layout.arena.tagged c hmemc
  have hrc : r.base = c.addr := hrs.trans hf.addr.symm
  have hpp : alignAsChunk s.base = s.base := alignAsChunk_of_dvd hb.2.1
  have hpr : alignAsChunk c.addr = c.addr := alignAsChunk_of_dvd (by omega)
  have hheadc : (m.setSizeAndPinuseOfInuseChunk s.base nb).head c.addr = c.head :=
    (Tags.setHead_head_of_ne (by omega)).trans hct.1
  unfold MState.prependSeg MState.prependAlloc
  dsimp only
  rw [hrc, hpp, hpr]
  have htopc : c.addr = m.top → c = ⟨m.top, m.topsize, true, .top⟩ := by
    intro heq
    rcases h.topped with ⟨hnil, -⟩ | hlast
    · rw [hnil] at hmemc
      cases hmemc
    · exact h.layout.arena.eq_of_addr hmemc (List.mem_of_getLast? hlast) heq
  have hdvc : c.addr = m.dv → c = ⟨m.dv, m.dvsize, true, .free⟩ := by
    intro heq
    rcases h.victim with ⟨hv, -⟩ | hv
    · exact absurd (heq.trans hv) hcs.addr_pos.ne'
    · exact h.layout.arena.eq_of_addr hmemc hv heq
  split
  · next heq =>
    have hceq := htopc heq
    have hk : c.kind = .top := by rw [hceq]
    have hcsize : c.size = m.topsize := by rw [hceq]
    exact hf.top hk (show s.base + nb + (m.topsize + (c.addr - s.base - nb)) = c.fin by omega)
      rfl rfl rfl rfl rfl rfl rfl rfl
  · next htop =>
    split
    · next heq =>
      have hceq := hdvc heq
      have hk : c.kind = .free := by rw [hceq]
      have hcsize : c.size = m.dvsize := by rw [hceq]
      exact hf.dv hk heq (show s.base + nb + (m.dvsize + (c.addr - s.base - nb)) = c.fin by omega)
        rfl rfl rfl rfl rfl rfl rfl rfl
    · next hdv =>
      have hinuse : (m.setSizeAndPinuseOfInuseChunk s.base nb).isInuse c.addr = c.kind.inuse := by
        unfold Tags.isInuse Tags.cinuse Tags.pinuse
        rw [hheadc]
        show (c.kind.inuse || !c.pinuse) = c.kind.inuse
        rw [hf.pinuse]
        exact Bool.or_false _
      rw [hinuse]
      have hsize : (m.setSizeAndPinuseOfInuseChunk s.base nb).chunksize c.addr = c.size := by
        unfold Tags.chunksize
        rw [hheadc]
        rfl
      split
      · next hfree =>
        have hk : c.kind = .free := by
          rcases hkind : c.kind with _ | _ | _ | _
          · rw [hkind] at hfree
            cases hfree
          · rfl
          · rw [hkind] at hfree
            cases hfree
          · exact absurd (congrArg Chunk.addr (h.topped.eq_top h.layout.arena hmemc hkind)) htop
        obtain ⟨n, post', rfl, hn, -, hnp⟩ := h.next_free hk
        have htn := h.layout.arena.tagged n (by simp)
        have hclear : (m.setSizeAndPinuseOfInuseChunk s.base nb).clearPinuse (c.addr + c.size) =
            m.setSizeAndPinuseOfInuseChunk s.base nb := by
          refine Tags.clearPinuse_eq ?_
          have hhead : (m.setSizeAndPinuseOfInuseChunk s.base nb).head n.addr = n.head :=
            (Tags.setHead_head_of_ne (by omega)).trans htn.1
          rw [show c.addr + c.size = n.addr from hn.symm]
          unfold Tags.pinuse
          rw [hhead]
          exact hnp
        rw [hsize]
        refine hf.free hk hdv (show s.base + nb + (c.addr - s.base - nb + c.size) = c.fin by omega)
          ?_ rfl rfl rfl rfl rfl rfl rfl
        show ((m.setSizeAndPinuseOfInuseChunk s.base nb).clearPinuse
          (c.addr + c.size)).setSizeAndPinuseOfFreeChunk _ _ = _
        rw [hclear]
        rfl
      · next hinuse' =>
        exact hf.inuse (Bool.not_eq_false _ ▸ hinuse')
          (show s.base + nb + (c.addr - s.base - nb) = c.addr by omega)
          rfl rfl rfl rfl rfl rfl rfl rfl

/-! ## A mapping for one chunk -/

/-- A new mapping joins. -/
theorem Layout.map {k : Mapping} {l : ℕ} (h : Layout t segs least cs ks)
    (hf : Fresh segs ks k.base k.fin) (hk : k.Ok l) (hkt : k.Tagged t')
    (hleast : 0 < least → l ≤ least)
    (hhead : ∀ y, y < k.base ∨ k.fin ≤ y → t'.head y = t.head y)
    (hfoot : ∀ y, y < k.base ∨ k.fin ≤ y → t'.prev_foot y = t.prev_foot y) :
    Layout t' segs l cs (k :: ks) := by
  have hkb := hk.base_le
  have hkf := hk.fin_le
  refine ⟨{ h.arena with tagged := fun c hc => ?_ }, fun q hq => ?_, h.seg_apart, h.inside,
    h.top_room, h.start, fun k' hk' => ?_, fun k' hk' => ?_, ?_, fun k' hk' q hq => ?_⟩
  · obtain ⟨q, hq, hbase, hfin⟩ := h.inside c hc
    have hfar := hf.seg q hq
    have hlt := (h.arena.shape c hc).lt_fin
    have htag := h.arena.tagged c hc
    refine ⟨(hhead _ ?_).trans htag.1, fun hfree => (hfoot _ ?_).trans (htag.2 hfree)⟩
    · omega
    · omega
  · have hold := h.seg_ok q hq
    exact hold.mono hk.least_pos (hleast hold.least_pos)
  · rcases List.mem_cons.mp hk' with rfl | hk'
    · exact hk
    · have hold := h.map_ok k' hk'
      exact hold.mono hk.least_pos (hleast hold.least_pos)
  · rcases List.mem_cons.mp hk' with rfl | hk'
    · exact hkt
    · have hold := h.map_ok k' hk'
      have htag := h.map_tagged k' hk'
      have hfar := hf.map k' hk'
      have hb := hold.base_le
      have hf' := hold.fin_le
      refine ⟨(hhead _ ?_).trans htag.head, (hfoot _ ?_).trans htag.foot,
        (hhead _ ?_).trans htag.fence, (hhead _ ?_).trans htag.last⟩
      all_goals omega
  · exact List.pairwise_cons.mpr ⟨fun k' hk' => (hf.map k' hk').symm, h.map_apart⟩
  · rcases List.mem_cons.mp hk' with rfl | hk'
    · exact (hf.seg q hq).symm
    · exact h.map_seg k' hk' q hq

theorem le_pageAlign (x : MParams) {n : ℕ} (hn : n ≤ 2 ^ 63) : n ≤ pageAlign x n := by
  have hpos := x.page_pos
  have hle := x.page_le
  have hdiv := Nat.div_add_mod (n + (x.page_size - 1)) x.page_size
  have hmod := Nat.mod_lt (n + (x.page_size - 1)) hpos
  rw [Nat.mul_comm] at hdiv
  unfold pageAlign
  rw [Nat.mod_eq_of_lt (by omega)]
  omega

theorem dvd_pageAlign (x : MParams) (n : ℕ) : 4096 ∣ pageAlign x n := by
  unfold pageAlign
  refine (Nat.dvd_mod_iff (by decide)).mpr ?_
  exact Nat.dvd_mul_left_of_dvd x.page_dvd _

/-- The length of the mapping for a chunk. -/
def mmapSize (x : MParams) (nb : ℕ) : ℕ := pageAlign x ((nb + 48 + 15) % 2 ^ 64)

/-- **A mapping for one chunk.** -/
theorem Inv.mmapAlloc {mm : ℕ} {q : ℕ × MState} (h : Inv m cs ks) (hpos : 0 < mm)
    (hle : mm + mmapSize x nb ≤ 2 ^ 47) (hf : Fresh m.segs ks mm (mm + mmapSize x nb))
    (hq : m.mmapAlloc x (some mm) nb = some q) : Allocates cs ks nb q.1 q.2 := by
  unfold MState.mmapAlloc at hq
  simp only [Option.map_some] at hq
  rw [show pageAlign x ((nb + 48 + 15) % 2 ^ 64) = mmapSize x nb from rfl] at hq
  split at hq
  · cases hq
  split at hq
  · next hlt =>
    cases hq
    have hdvd : 4096 ∣ mmapSize x nb := dvd_pageAlign x _
    have hsize : nb + 63 ≤ mmapSize x nb := by
      have hmod : (nb + 48 + 15) % 2 ^ 64 = nb + 63 := Nat.mod_eq_of_lt (by omega)
      have hpage := le_pageAlign x (n := nb + 63) (by omega)
      unfold mmapSize
      rwa [hmod]
    generalize mmapSize x nb = mmsize at *
    have hoff : alignOffset (chunk2mem mm) ≤ 15 ∧ 16 ∣ mm + alignOffset (chunk2mem mm) := by
      unfold alignOffset chunk2mem
      split <;> omega
    generalize alignOffset (chunk2mem mm) = offset at *
    have hleast := least_le (s := ⟨mm, mmsize, true⟩) (l := m.least_addr) hpos rfl
    let k : Mapping := ⟨mm, mmsize, mm + offset, mmsize - offset - mmapFootPad⟩
    have hkf : k.fin = mm + mmsize := rfl
    have hpad : mmapFootPad = 32 := rfl
    have hmem2 : mem2chunk (chunk2mem (mm + offset)) = k.addr := Nat.add_sub_cancel _ _
    refine ⟨cs, k :: ks, k.size, ⟨h.layout.map (k := k) hf
      ⟨hleast.1, hleast.2.1, Nat.le_add_right _ _, ?_, ?_, hoff.2, hdvd⟩ ⟨?_, ?_, ?_, ?_⟩
      hleast.2.2
      (fun y hy => ?_) (fun y hy => ?_), h.topped, h.victim, h.bins⟩, ?_, ?_, fun b => ?_,
      fun a b => ?_⟩
    · show mm + offset + (mmsize - offset - mmapFootPad) + mmapFootPad = mm + mmsize
      omega
    · show 256 ≤ mmsize - offset - mmapFootPad
      omega
    · show Function.update (Function.update (Function.update m.head (mm + offset)
        ⟨mmsize - offset - mmapFootPad, false, false⟩)
        (mm + offset + (mmsize - offset - mmapFootPad)) ⟨8, true, true⟩)
        (mm + offset + (mmsize - offset - mmapFootPad) + 8) ⟨0, false, false⟩ (mm + offset) = _
      rw [Function.update_of_ne (by omega), Function.update_of_ne (by omega),
        Function.update_self]
    · show Function.update m.prev_foot (mm + offset) offset (mm + offset) = mm + offset - mm
      rw [Function.update_self, Nat.add_sub_cancel_left]
    · show Function.update (Function.update _ _ _) _ _
        (mm + offset + (mmsize - offset - mmapFootPad)) = _
      rw [Function.update_of_ne (by omega), Function.update_self]
    · exact Function.update_self ..
    · show Function.update (Function.update (Function.update m.head _ _) _ _) _ _ y = _
      change y < mm ∨ mm + mmsize ≤ y at hy
      rw [Function.update_of_ne (by omega), Function.update_of_ne (by omega),
        Function.update_of_ne (by omega)]
    · show Function.update m.prev_foot _ _ y = _
      change y < mm ∨ mm + mmsize ≤ y at hy
      rw [Function.update_of_ne (by omega)]
    · show nb ≤ mmsize - offset - mmapFootPad
      omega
    · show 16 < mm + offset + 16
      omega
    · rw [hmem2]
      rintro (⟨p, hmem⟩ | ⟨k', hk', hka, -⟩)
      · have hfar := h.layout.far_of_fresh hf hmem
        have hlt := (h.layout.arena.shape _ hmem).lt_fin
        change _ ≤ mm ∨ mm + mmsize ≤ mm + offset at hfar
        change mm + offset < _ at hlt
        omega
      · have hfar := hf.map k' hk'
        have hok := h.layout.map_ok k' hk'
        have hkb := hok.base_le
        have hkf := hok.fin_le
        change k'.addr = mm + offset at hka
        omega
    · rw [hmem2]
      unfold Blocks
      simp only [List.mem_cons, exists_eq_or_imp]
      constructor
      · rintro (hmem | ⟨rfl, rfl⟩ | hmem)
        · exact Or.inl (Or.inl hmem)
        · exact Or.inr ⟨rfl, rfl⟩
        · exact Or.inl (Or.inr hmem)
      · rintro ((hmem | hmem) | ⟨rfl, rfl⟩)
        · exact Or.inl hmem
        · exact Or.inr (Or.inr hmem)
        · exact Or.inr (Or.inl ⟨rfl, rfl⟩)
  · cases hq

/-! ## One call -/

/-- A request is served, or nothing changes but the flag. -/
def Served (m : MState) (cs : List Chunk) (ks : List Mapping) (nb : ℕ) (q : ℕ × MState) : Prop :=
  (∃ closed, q = (0, m.closeContiguous closed)) ∨ Allocates cs ks nb q.1 q.2

theorem Inv.closeContiguous (h : Inv m cs ks) (closed : Bool) :
    Inv (m.closeContiguous closed) cs ks := ⟨h.layout, h.topped, h.victim, h.bins⟩

/-- What the system may answer: memory that is new, aligned and large enough. -/
structure Grant.Ok (x : MParams) (g : Grant) (m : MState) (ks : List Mapping) (nb : ℕ) : Prop where
  direct : ∀ mm, g.direct = some mm → 0 < mm ∧ mm + mmapSize x nb ≤ 2 ^ 47 ∧
    Fresh m.segs ks mm (mm + mmapSize x nb)
  range : ∀ s, g.range = some s → s.Given m.segs ks ∧
    nb + sysAllocPadding ≤ s.size + if (m.appendTo s).isSome then m.topsize else 0

theorem Allocates.of_blocks {cs' : List Chunk} {mem : ℕ} {m' : MState}
    (h : Allocates cs' ks nb mem m') (hb : ∀ a b, Blocks cs' ks a b ↔ Blocks cs ks a b) :
    Allocates cs ks nb mem m' := by
  obtain ⟨cs₂, ks₂, size, hi, hle, hmem, hnew, hblocks⟩ := h
  refine ⟨cs₂, ks₂, size, hi, hle, hmem, fun s hs => hnew s ((hb _ _).mpr hs), fun a s => ?_⟩
  rw [hblocks, hb]

/-- The size of the top. -/
theorem Topped.size {p size : ℕ} (h : Topped m (pre ++ [⟨p, size, true, .top⟩])) :
    m.topsize = size := by
  rcases h with ⟨hnil, -⟩ | hlast
  · simp at hnil
  · rw [List.getLast?_append_of_ne_nil _ (by simp)] at hlast
    exact (congrArg Chunk.size (Option.some.inj hlast)).symm

/-- The new top serves the request. -/
theorem Inv.takeTop (h : Inv m cs ks) (hnb : minChunkSize ≤ nb) (hal : 16 ∣ nb)
    (hlt : nb < m.topsize) : Allocates cs ks nb (m.takeTop nb).1 (m.takeTop nb).2 := by
  unfold MState.takeTop
  rw [if_pos hlt]
  exact h.fromTop hnb hal hlt

/-- **A range serves the request,** wherever it lies. -/
theorem Inv.install (h : Inv m cs ks) (hnb : minChunkSize ≤ nb) (hal : 16 ∣ nb)
    (hs : s.Given m.segs ks)
    (hsize : nb + sysAllocPadding ≤ s.size + if (m.appendTo s).isSome then m.topsize else 0) :
    Allocates cs ks nb (m.install x nb s).1 (m.install x nb s).2 := by
  unfold sysAllocPadding topFootSize at hsize
  replace h : Inv (m.addFootprint s.size) cs ks := ⟨h.layout, h.topped, h.victim, h.bins⟩
  replace hs : s.Given (m.addFootprint s.size).segs ks := hs
  replace hsize : nb + (80 + 16) ≤ s.size +
    if ((m.addFootprint s.size).appendTo s).isSome then (m.addFootprint s.size).topsize else 0 :=
    hsize
  unfold MState.install
  dsimp only
  generalize m.addFootprint s.size = m at h hs hsize ⊢
  split
  · next htop =>
    have hzero : m.topsize = 0 := by
      rcases h.topped with ⟨-, -, hz⟩ | hlast
      · exact hz
      · exact absurd htop (h.layout.addr_pos (List.mem_of_getLast? hlast)).ne'
    rw [hzero, ite_self] at hsize
    obtain ⟨rfl, hi⟩ := h.initHeap (x := x) htop hs (by unfold sysAllocPadding topFootSize; omega)
    refine (hi.takeTop hnb hal ?_).of_blocks fun a b => ?_
    · have htopped : Topped (m.initHeap x s)
          ([] ++ [⟨s.base, s.size - topFootSize, true, .top⟩]) := hi.topped
      rw [htopped.size]
      unfold topFootSize
      omega
    · unfold Blocks
      simp
  · next htop =>
    have hne : cs ≠ [] := by
      rintro rfl
      rcases h.topped with ⟨-, hz, -⟩ | hlast
      · exact htop hz
      · cases hlast
    have hleast : 0 < (if s.base < m.least_addr then s.base else m.least_addr) ∧
        (if s.base < m.least_addr then s.base else m.least_addr) ≤ s.base ∧
        (if s.base < m.least_addr then s.base else m.least_addr) ≤ m.least_addr := by
      obtain ⟨c, hc⟩ := List.exists_mem_of_ne_nil _ hne
      obtain ⟨q, hq, -⟩ := h.layout.inside c hc
      have hpos := (h.layout.seg_ok q hq).least_pos
      have hbase := hs.base_pos
      split <;> omega
    rcases happ : m.appendTo s with _ | r
    · rw [happ] at hsize
      dsimp only
      have hsize' : nb + 96 ≤ s.size := hsize
      split
      · next hr => exact h.prependSeg hnb hal hs hsize' hr hleast
      · obtain ⟨cs', hi, htops, hb⟩ := h.addSegment (x := x) hne hs
          (by unfold sysAllocPadding topFootSize; omega) hleast
        refine (hi.takeTop hnb hal ?_).of_blocks hb
        rw [htops]
        unfold topFootSize
        omega
    · rw [happ] at hsize
      change nb + (80 + 16) ≤ s.size + m.topsize at hsize
      obtain ⟨pre, rfl, hi⟩ := h.appendSeg (x := x) hs happ
      refine (hi.takeTop hnb hal ?_).of_blocks fun a b => ?_
      · rw [hi.topped.size]
        omega
      · unfold Blocks
        simp

/-- **`sys_alloc`** serves a request with new memory, or changes nothing but the flag. -/
theorem Inv.sysAlloc {g : Grant} (h : Inv m cs ks) (hnb : minChunkSize ≤ nb) (hal : 16 ∣ nb)
    (hg : g.Ok x m ks nb) : Served m cs ks nb (m.sysAlloc x g nb) := by
  unfold MState.sysAlloc
  dsimp only
  split
  · next q hq =>
    split at hq
    · rcases hd : g.direct with _ | mm
      · rw [hd] at hq
        unfold MState.mmapAlloc at hq
        dsimp only at hq
        split at hq
        · cases hq
        · split at hq <;> cases hq
      · rw [hd] at hq
        obtain ⟨hpos, hle, hf⟩ := hg.direct mm hd
        exact Or.inr (h.mmapAlloc hpos hle hf hq)
    · cases hq
  · split
    · exact Or.inl ⟨false, by rw [MState.closeContiguous_false]⟩
    · split
      · exact Or.inl ⟨g.closed, rfl⟩
      · next s hs =>
        obtain ⟨hgiven, hsize⟩ := hg.range s hs
        exact Or.inr ((h.closeContiguous g.closed).install hnb hal hgiven hsize)

end Porpoise.Dlmalloc
