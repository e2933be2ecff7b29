import Porpoise.Dlmalloc.Malloc

/-!
# The layout of the memory

The chunks lie in segments, the last one before the end of a segment with room behind it, and
chunks that were mapped directly lie elsewhere.

* `Layout`: chunks, segments and mappings.
* `Layout.splice`: neighbouring chunks become others of the same segment.
* `Layout.useWhole`, `Layout.splitFree`, `Layout.splitTop`: what an allocation does.
* `Layout.freeToTop`, `Layout.freeToFree`, `Layout.freeToInuse`: what a release does.
-/

namespace Porpoise.Dlmalloc

open Porpoise.Lib Chunk

/-- A chunk that was mapped directly: the mapping, and the chunk in it. -/
structure Mapping where
  base : ℕ
  len : ℕ
  addr : ℕ
  size : ℕ
  deriving DecidableEq

def Mapping.fin (k : Mapping) : ℕ := k.base + k.len

/-- The tags of a mapping are in memory: those of its chunk, and the two ends behind it. -/
structure Mapping.Tagged (t : Tags) (k : Mapping) : Prop where
  head : t.head k.addr = ⟨k.size, false, false⟩
  foot : t.prev_foot k.addr = k.addr - k.base
  fence : t.head (k.addr + k.size) = ⟨8, true, true⟩
  last : t.head (k.addr + k.size + 8) = ⟨0, false, false⟩

/-- The flags of a mapping. -/
theorem Mapping.Tagged.flags {t : Tags} {k : Mapping} (h : k.Tagged t) :
    t.isInuse k.addr = true ∧ t.isMmapped k.addr = true ∧ t.pinuse k.addr = false := by
  unfold Tags.isInuse Tags.isMmapped Tags.cinuse Tags.pinuse
  rw [h.head]
  exact ⟨rfl, rfl, rfl⟩

/-- The chunk is aligned and fills its mapping, which is made of pages. -/
structure Mapping.Ok (least : ℕ) (k : Mapping) : Prop where
  least_pos : 0 < least
  least_le : least ≤ k.base
  base_le : k.base ≤ k.addr
  fin_eq : k.addr + k.size + mmapFootPad = k.fin
  large : 256 ≤ k.size
  aligned : 16 ∣ k.addr
  pages : 4096 ∣ k.len

theorem Mapping.Ok.fin_le {least : ℕ} {k : Mapping} (h : k.Ok least) :
    k.addr + k.size + 16 ≤ k.fin := by
  have hfin := h.fin_eq
  unfold mmapFootPad at hfin
  omega

/-- Memory apart from the mapping changes. -/
theorem Mapping.Tagged.frame {t t' : Tags} {least a b : ℕ} {k : Mapping} (h : k.Tagged t)
    (hok : k.Ok least) (hw : t.Within a b t') (hfar : k.fin ≤ a ∨ b < k.base) : k.Tagged t' := by
  have hbase := hok.base_le
  have hfin := hok.fin_le
  have hlarge := hok.large
  refine ⟨(hw.head _ ?_).trans h.head, (hw.foot _ ?_).trans h.foot, (hw.head _ ?_).trans h.fence,
    (hw.head _ ?_).trans h.last⟩
  all_goals omega

/-- A segment that the heap may have; one that was mapped is made of pages. -/
structure Seg.Ok (least : ℕ) (s : Seg) : Prop where
  least_pos : 0 < least
  least_le : least ≤ s.base
  size_gt : topFootSize < s.size
  aligned : 16 ∣ s.base ∧ 16 ∣ s.size
  fin_le : s.fin ≤ 2 ^ 47
  pages : s.mmapped = true → 4096 ∣ s.size

theorem Seg.Ok.size_pos {least : ℕ} {s : Seg} (h : s.Ok least) : 0 < s.size :=
  Nat.zero_lt_of_lt h.size_gt

/-- **The layout.** The chunks of the arena lie in the segments, each of which begins with one;
the top is the last in the first segment, and the mappings lie apart. -/
structure Layout (t : Tags) (segs : List Seg) (least : ℕ) (cs : List Chunk) (ks : List Mapping) :
    Prop where
  arena : Arena t cs
  seg_ok : ∀ s ∈ segs, s.Ok least
  seg_apart : segs.Pairwise (Apart Seg.base Seg.fin)
  inside : ∀ c ∈ cs, ∃ s ∈ segs, s.base ≤ c.addr ∧ c.fin + 8 ≤ s.fin ∧
    (c.kind ≠ .fence → c.fin + topFootSize ≤ s.fin)
  top_room : ∀ c ∈ cs, c.kind = .top → ∃ s ∈ segs.head?, s.base ≤ c.addr ∧
    c.fin + topFootSize = s.fin ∧ ∀ d ∈ cs, s.base ≤ d.addr → d.addr < s.fin → d.fin ≤ c.fin
  start : ∀ s ∈ segs, ∃ c ∈ cs, c.addr = s.base
  map_ok : ∀ k ∈ ks, k.Ok least
  map_tagged : ∀ k ∈ ks, k.Tagged t
  map_apart : ks.Pairwise (Apart Mapping.base Mapping.fin)
  map_seg : ∀ k ∈ ks, ∀ s ∈ segs, k.fin ≤ s.base ∨ s.fin ≤ k.base

namespace Layout

variable {t t' : Tags} {segs : List Seg} {least a b : ℕ} {cs pre post old new : List Chunk}
  {ks : List Mapping} {c d v n : Chunk} {s r : Seg}

/-- An address lies in one segment. -/
theorem seg_unique (h : Layout t segs least cs ks) (hs : s ∈ segs) (hr : r ∈ segs) {x : ℕ}
    (hxs : s.base ≤ x ∧ x < s.fin) (hxr : r.base ≤ x ∧ x < r.fin) : s = r := by
  by_contra hne
  have hap := h.seg_apart.forall hs hr hne
  unfold Apart at hap
  omega

/-- No chunk ends where a segment begins. -/
theorem fin_ne_base (h : Layout t segs least cs ks) (hc : c ∈ cs) (hs : s ∈ segs) :
    c.fin ≠ s.base := by
  intro heq
  obtain ⟨r, hr, hbase, hfin⟩ := h.inside c hc
  have hlt := (h.arena.shape c hc).lt_fin
  have hne : s ≠ r := by
    rintro rfl
    omega
  have hap := h.seg_apart.forall hs hr hne
  have hsize : s.base ≤ s.fin := Nat.le_add_right _ _
  unfold Apart at hap
  omega

/-- Neighbours lie in one segment. -/
theorem inside_tiles (h : Layout t segs least cs ks) (hold : Tiles addr fin a b old)
    (hne : old ≠ []) (hsub : ∀ c ∈ old, c ∈ cs) : ∃ s ∈ segs, s.base ≤ a ∧ b + 8 ≤ s.fin := by
  induction old generalizing a with
  | nil => exact absurd rfl hne
  | cons c old ih =>
      have hc := hsub c List.mem_cons_self
      obtain ⟨s, hs, hbase, hfin⟩ := h.inside c hc
      have ha : c.addr = a := hold.1
      by_cases hnil : old = []
      · subst hnil
        have hb : c.fin = b := hold.2
        exact ⟨s, hs, by omega, by omega⟩
      · obtain ⟨r, hr, hbase', hfin'⟩ :=
          ih hold.2 hnil fun d hd => hsub d (List.mem_cons_of_mem _ hd)
        have hpos : ∀ d ∈ old, d.addr < d.fin := fun d hd =>
          (h.arena.shape d (hsub d (List.mem_cons_of_mem _ hd))).lt_fin
        have hle : c.fin ≤ b := hold.2.le hpos
        have hlt := (h.arena.shape c hc).lt_fin
        have hsr : s = r := h.seg_unique hs hr (x := c.fin) (by omega) (by omega)
        subst hsr
        exact ⟨s, hs, by omega, hfin'⟩

/-- The chunks on both sides begin elsewhere. -/
theorem addr_ne (h : Arena t (pre ++ old ++ post)) (hc : c ∈ pre ∨ c ∈ post) (hd : d ∈ old) :
    c.addr ≠ d.addr := by
  have hap := h.apart
  rw [List.pairwise_append, List.pairwise_append] at hap
  obtain ⟨⟨-, -, hpo⟩, -, hop⟩ := hap
  have hmem : ∀ x, (x ∈ pre ∨ x ∈ post) ∨ x ∈ old → x ∈ pre ++ old ++ post := by
    intro x hx
    simp only [List.mem_append]
    tauto
  have hlc := (h.shape c (hmem c (Or.inl hc))).lt_fin
  have hld := (h.shape d (hmem d (Or.inr hd))).lt_fin
  intro heq
  have hcd : Apart addr fin c d := by
    rcases hc with hc | hc
    · exact hpo c hc d hd
    · exact (hop d (List.mem_append_right _ hd) c hc).symm
  unfold Apart at hcd
  omega

/-- The chunks of a spliced list. -/
theorem mem_splice (h : Arena t (pre ++ old ++ post)) :
    c ∈ pre ++ new ++ post ↔
      c ∈ new ∨ (c ∈ pre ++ old ++ post ∧ ∀ o ∈ old, c.addr ≠ o.addr) := by
  have hside : (c ∈ pre ∨ c ∈ post) ↔ c ∈ pre ++ old ++ post ∧ ∀ o ∈ old, c.addr ≠ o.addr := by
    simp only [List.mem_append]
    constructor
    · intro hc
      exact ⟨by tauto, fun o ho => addr_ne h hc ho⟩
    · rintro ⟨(hc | hc) | hc, hno⟩
      · exact Or.inl hc
      · exact absurd rfl (hno c hc)
      · exact Or.inr hc
  rw [← hside]
  simp only [List.mem_append]
  tauto

/-- **Some chunks become others** in the same segment. -/
theorem splice (h : Layout t segs least (pre ++ old ++ post) ks) (hold : Tiles addr fin a b old)
    (hnew : Tiles addr fin a b new) (hne : old ≠ []) (hne' : new ≠ [])
    (hw : t.Within a b t') (htag : ∀ c ∈ new, Tagged t' c) (hshape : ∀ c ∈ new, c.Shape)
    (hlinked : new.IsChain Link)
    (hfirst : ∀ o ∈ old.head?, ∀ n ∈ new.head?, n.pinuse = o.pinuse ∧
      (n.kind.inuse = false → n.pinuse = true))
    (hlast : post ≠ [] → ∀ o ∈ old.getLast?, ∀ n ∈ new.getLast?, n.kind = o.kind)
    (hroom : ∀ n ∈ new, n.kind ≠ .fence → ∃ o ∈ old, o.kind ≠ .fence ∧ n.fin ≤ o.fin)
    (htop : ∀ n ∈ new, n.kind = .top → ∃ o ∈ old, o.kind = .top ∧ o.fin = n.fin) :
    Layout t' segs least (pre ++ new ++ post) ks := by
  have hsub : ∀ c ∈ old, c ∈ pre ++ old ++ post := fun c hc =>
    List.mem_append_left _ (List.mem_append_right _ hc)
  have hpos : ∀ c ∈ new, c.addr < c.fin := fun c hc => (hshape c hc).lt_fin
  have hposo : ∀ c ∈ old, c.addr < c.fin := fun c hc => (h.arena.shape c (hsub c hc)).lt_fin
  obtain ⟨s, hs, hsa, hsb⟩ := h.inside_tiles hold hne hsub
  refine ⟨h.arena.splice hold hnew hne hne' hw htag hshape hlinked hfirst hlast, h.seg_ok,
    h.seg_apart, fun c hc => ?_, fun c hc hk => ?_, fun r hr => ?_, h.map_ok, fun k hk => ?_,
    h.map_apart, h.map_seg⟩
  · rcases (mem_splice h.arena).mp hc with hc | ⟨hc, -⟩
    · have hin := hnew.within hpos hc
      refine ⟨s, hs, by omega, by omega, fun hk => ?_⟩
      obtain ⟨o, ho, hok, hle⟩ := hroom c hc hk
      obtain ⟨r, hr, hbase, -, hroom⟩ := h.inside o (hsub o ho)
      have hino := hold.within hposo ho
      have hlt := hposo o ho
      have hrs : r = s :=
        h.seg_unique hr hs (x := o.addr) ⟨hbase, by have := hroom hok; omega⟩ ⟨by omega, by omega⟩
      have hfin := hroom hok
      rw [hrs] at hfin
      omega
    · exact h.inside c hc
  · -- What is above the top of the old chunks would be above that of the new ones.
    obtain ⟨o, ho⟩ := Option.isSome_iff_exists.mp (List.getLast?_isSome.mpr hne)
    have hoo := List.mem_of_getLast? ho
    have hob := hold.hi_getLast o ho
    have hino := hold.within hposo hoo
    have hlto := hposo o hoo
    have hbelow : ∀ r ∈ segs, (∀ d ∈ pre ++ old ++ post, r.base ≤ d.addr → d.addr < r.fin →
        d.fin ≤ c.fin) → ∀ d ∈ pre ++ new ++ post, r.base ≤ d.addr → d.addr < r.fin →
        d.fin ≤ c.fin := by
      intro r hr hall d hd hbase hlt
      rcases (mem_splice h.arena).mp hd with hd | ⟨hd, -⟩
      · have hin := hnew.within hpos hd
        have hltd := hpos d hd
        have hrs : r = s := h.seg_unique hr hs (x := d.addr) ⟨hbase, hlt⟩ ⟨by omega, by omega⟩
        subst hrs
        have hle := hall o (hsub o hoo) (by omega) (by omega)
        omega
      · exact hall d hd hbase hlt
    rcases (mem_splice h.arena).mp hc with hc | ⟨hc, -⟩
    · obtain ⟨o', ho', hok, hfin⟩ := htop c hc hk
      obtain ⟨r, hr, hbase, hroom, hall⟩ := h.top_room o' (hsub o' ho') hok
      have hin := hnew.within hpos hc
      have hino' := hold.within hposo ho'
      have hlt := hposo o' ho'
      have hrs : r = s := h.seg_unique (List.mem_of_mem_head? hr) hs (x := o'.addr)
        ⟨hbase, by omega⟩ ⟨by omega, by omega⟩
      subst hrs
      exact ⟨r, hr, by omega, by omega, hbelow r hs (hfin ▸ hall)⟩
    · obtain ⟨r, hr, hbase, hroom, hall⟩ := h.top_room c hc hk
      exact ⟨r, hr, hbase, hroom, hbelow r (List.mem_of_mem_head? hr) hall⟩
  · obtain ⟨c, hc, haddr⟩ := h.start r hr
    by_cases hno : ∀ o ∈ old, c.addr ≠ o.addr
    · exact ⟨c, (mem_splice h.arena).mpr (Or.inr ⟨hc, hno⟩), haddr⟩
    · push Not at hno
      obtain ⟨o, ho, heq⟩ := hno
      obtain ⟨n, hn⟩ := Option.isSome_iff_exists.mp (List.isSome_head?.mpr hne')
      refine ⟨n, (mem_splice h.arena).mpr (Or.inl (List.mem_of_mem_head? hn)), ?_⟩
      rcases hold.lo_eq ho with hlo | ⟨d, hd, hlo⟩
      · rw [hnew.lo_head n hn, ← hlo, ← heq, haddr]
      · exact absurd (hlo.trans (heq.symm.trans haddr)) (h.fin_ne_base (hsub d hd) hr)
  · refine (h.map_tagged k hk).frame (h.map_ok k hk) hw ?_
    have hks := h.map_seg k hk s hs
    omega

/-! ## Allocations -/

/-- A free chunk is used as a whole. -/
theorem useWhole (h : Layout t segs least (pre ++ [v, n] ++ post) ks) (hv : v.kind = .free) :
    Layout (t.setInuseAndPinuse v.addr v.size) segs least
      (pre ++ [{ v with kind := .used }, { n with pinuse := true }] ++ post) ks := by
  have hmemv : v ∈ pre ++ [v, n] ++ post := by simp
  have hmemn : n ∈ pre ++ [v, n] ++ post := by simp
  have hlink := h.arena.link
  have hadj : n.addr = v.fin := hlink.adjacent (by rw [hv]; exact fun he => nomatch he)
  have hn := hlink.inuse hv
  have hpv := h.arena.pinuse_of_not_inuse hmemv (by rw [hv]; rfl)
  have hsv := h.arena.shape v hmemv
  have hsn := h.arena.shape n hmemn
  have hltv := hsv.lt_fin
  have hltn := hsn.lt_fin
  have htn := h.arena.tagged n hmemn
  have hfin : v.addr + v.size = n.addr := hadj.symm
  refine h.splice (a := v.addr) (b := n.fin) ⟨rfl, hadj, rfl⟩ ⟨rfl, hadj, rfl⟩ (by simp) (by simp)
    ?_ ?_ ?_ ?_ ?_ ?_ ?_ ?_
  · unfold Tags.setInuseAndPinuse Tags.markPinuse
    rw [hfin]
    exact ((Tags.Within.refl _ _ t).setHead (Nat.le_refl _) (by omega)).setHead (by omega) hltn
  · unfold Tags.setInuseAndPinuse Tags.markPinuse
    rw [hfin]
    intro c hc
    rcases List.mem_pair.mp hc with rfl | rfl
    · refine ⟨?_, fun hk => by cases hk⟩
      rw [Tags.setHead_head_of_ne (by show v.addr ≠ n.addr; omega), Tags.setHead_head_self]
      show Head.mk v.size true true = ⟨v.size, true, v.pinuse⟩
      rw [hpv]
    · refine ⟨?_, fun hk => ?_⟩
      · rw [Tags.setHead_head_self, Tags.setHead_head_of_ne (by omega), htn.1]
        rfl
      · change n.kind = .free at hk
        rw [hk] at hn
        cases hn
  · intro c hc
    rcases List.mem_pair.mp hc with rfl | rfl
    · exact ⟨hsv.addr_pos, hsv.size_pos, fun _ => hsv.aligned (by rw [hv]; exact nofun),
        fun _ _ => hsv.min (by rw [hv]; exact nofun) (by rw [hv]; exact nofun)⟩
    · exact ⟨hsn.addr_pos, hsn.size_pos, hsn.aligned, hsn.min⟩
  · refine List.isChain_pair.mpr ⟨nofun, fun _ => hadj, ⟨fun _ => nofun, fun _ => rfl⟩, nofun⟩
  · rintro o ⟨⟩ n' ⟨⟩
    exact ⟨rfl, nofun⟩
  · rintro - o ⟨⟩ n' ⟨⟩
    rfl
  · intro c hc hk
    rcases List.mem_pair.mp hc with rfl | rfl
    · exact ⟨v, by simp, by rw [hv]; exact nofun, Nat.le_refl _⟩
    · exact ⟨n, by simp, hk, Nat.le_refl _⟩
  · intro c hc hk
    rcases List.mem_pair.mp hc with rfl | rfl
    · cases hk
    · exact ⟨n, by simp, hk, rfl⟩

variable {nb rs : ℕ}

/-- A free chunk is split: the lower part is used. -/
theorem splitFree (h : Layout t segs least (pre ++ [v] ++ post) ks) (hv : v.kind = .free)
    (hsize : v.size = nb + rs) (hnb : minChunkSize ≤ nb) (hal : 16 ∣ nb)
    (hrs : minChunkSize ≤ rs) :
    Layout ((t.setSizeAndPinuseOfInuseChunk v.addr nb).setSizeAndPinuseOfFreeChunk
      (v.addr + nb) rs) segs least
      (pre ++ [⟨v.addr, nb, true, .used⟩, ⟨v.addr + nb, rs, true, .free⟩] ++ post) ks := by
  have hmem : v ∈ pre ++ [v] ++ post := by simp
  have hpv := h.arena.pinuse_of_not_inuse hmem (by rw [hv]; rfl)
  have hsv := h.arena.shape v hmem
  have halv := hsv.aligned (by rw [hv]; exact nofun)
  have hpos := hsv.addr_pos
  have hfin : v.addr + nb + rs = v.fin := by
    unfold fin
    omega
  unfold minChunkSize at hnb hrs
  refine h.splice (a := v.addr) (b := v.fin) ⟨rfl, rfl⟩ ⟨rfl, rfl, hfin⟩ (by simp) (by simp)
    ?_ ?_ ?_ ?_ ?_ ?_ ?_ ?_
  · refine ((Tags.Within.refl _ _ t).setHead (Nat.le_refl _) ?_).setHead ?_ ?_ |>.setFoot ?_ ?_
    all_goals omega
  · intro c hc
    rcases List.mem_pair.mp hc with rfl | rfl
    · refine ⟨?_, fun hk => by cases hk⟩
      show ((t.setHead v.addr ⟨nb, true, true⟩).setHead (v.addr + nb) _).head v.addr = _
      rw [Tags.setHead_head_of_ne (by omega), Tags.setHead_head_self]
      rfl
    · exact ⟨Tags.setHead_head_self .., fun _ => Tags.setFoot_prev_foot_self ..⟩
  · intro c hc
    rcases List.mem_pair.mp hc with rfl | rfl
    · exact ⟨hpos, by show 0 < nb; omega, fun _ => ⟨halv.1, hal⟩, fun _ _ => hnb⟩
    · refine ⟨by show 0 < v.addr + nb; omega, by show 0 < rs; omega, fun _ => ⟨?_, ?_⟩,
        fun _ _ => hrs⟩
      · show 16 ∣ v.addr + nb
        omega
      · show 16 ∣ rs
        omega
  · exact List.isChain_pair.mpr ⟨nofun, fun _ => rfl, ⟨fun _ => nofun, fun _ => rfl⟩, nofun⟩
  · rintro o ⟨⟩ n' ⟨⟩
    exact ⟨hpv.symm, nofun⟩
  · rintro - o ⟨⟩ n' ⟨⟩
    exact hv.symm
  · intro c hc _
    refine ⟨v, by simp, by rw [hv]; exact nofun, ?_⟩
    rcases List.mem_pair.mp hc with rfl | rfl
    · show v.addr + nb ≤ v.fin
      omega
    · exact Nat.le_of_eq hfin
  · intro c hc hk
    rcases List.mem_pair.mp hc with rfl | rfl
    · cases hk
    · cases hk

/-- The top is split. -/
theorem splitTop (h : Layout t segs least (pre ++ [v]) ks) (hv : v.kind = .top)
    (hsize : v.size = nb + rs) (hnb : minChunkSize ≤ nb) (hal : 16 ∣ nb) (hrs : 0 < rs) :
    Layout ((t.setHead (v.addr + nb) ⟨rs, false, true⟩).setSizeAndPinuseOfInuseChunk v.addr nb)
      segs least (pre ++ [⟨v.addr, nb, true, .used⟩, ⟨v.addr + nb, rs, true, .top⟩]) ks := by
  have hmem : v ∈ pre ++ [v] := by simp
  have hpv := h.arena.pinuse_of_not_inuse hmem (by rw [hv]; rfl)
  have hsv := h.arena.shape v hmem
  have halv := hsv.aligned (by rw [hv]; exact nofun)
  have hpos := hsv.addr_pos
  have hfin : v.addr + nb + rs = v.fin := by
    unfold fin
    omega
  unfold minChunkSize at hnb
  rw [← List.append_nil (pre ++ [v])] at h
  rw [← List.append_nil (pre ++ _)]
  refine h.splice (a := v.addr) (b := v.fin) ⟨rfl, rfl⟩ ⟨rfl, rfl, hfin⟩ (by simp) (by simp)
    ?_ ?_ ?_ ?_ ?_ (fun he => absurd rfl he) ?_ ?_
  · refine ((Tags.Within.refl _ _ t).setHead ?_ ?_).setHead ?_ ?_
    all_goals omega
  · intro c hc
    rcases List.mem_pair.mp hc with rfl | rfl
    · exact ⟨Tags.setHead_head_self .., fun hk => by cases hk⟩
    · refine ⟨?_, fun hk => by cases hk⟩
      show ((t.setHead (v.addr + nb) ⟨rs, false, true⟩).setHead v.addr _).head (v.addr + nb) = _
      rw [Tags.setHead_head_of_ne (by omega), Tags.setHead_head_self]
      rfl
  · intro c hc
    rcases List.mem_pair.mp hc with rfl | rfl
    · exact ⟨hpos, by show 0 < nb; omega, fun _ => ⟨halv.1, hal⟩, fun _ _ => hnb⟩
    · refine ⟨by show 0 < v.addr + nb; omega, hrs, fun _ => ⟨?_, ?_⟩, fun _ hk => absurd rfl hk⟩
      · show 16 ∣ v.addr + nb
        omega
      · show 16 ∣ rs
        omega
  · exact List.isChain_pair.mpr ⟨nofun, fun _ => rfl, ⟨fun _ => nofun, fun _ => rfl⟩, nofun⟩
  · rintro o ⟨⟩ n' ⟨⟩
    exact ⟨hpv.symm, nofun⟩
  · intro c hc _
    refine ⟨v, by simp, by rw [hv]; exact nofun, ?_⟩
    rcases List.mem_pair.mp hc with rfl | rfl
    · show v.addr + nb ≤ v.fin
      omega
    · exact Nat.le_of_eq hfin
  · intro c hc hk
    rcases List.mem_pair.mp hc with rfl | rfl
    · cases hk
    · exact ⟨v, by simp, hv, hfin.symm⟩

/-! ## Releases -/

/-- Neighbours that become one chunk, which comes after a chunk in use. -/
structure Run (run : List Chunk) (p psize : ℕ) : Prop where
  tiles : Tiles addr fin p (p + psize) run
  ne_nil : run ≠ []
  first : ∀ c ∈ run.head?, c.pinuse = true
  no_fence : ∀ c ∈ run, c.kind ≠ .fence
  shape : (⟨p, psize, true, .free⟩ : Chunk).Shape

variable {run : List Chunk} {p psize : ℕ}

/-- With the chunk behind, a run is a stretch of one chunk more. -/
theorem Run.snoc (hrun : Run run p psize) (hadj : n.addr = p + psize) :
    Tiles addr fin p n.fin (run ++ [n]) ∧ run ++ [n] ≠ [] ∧
      ∀ o ∈ (run ++ [n]).head?, o.pinuse = true := by
  refine ⟨hrun.tiles.append ⟨hadj, rfl⟩, by simp, fun o ho => hrun.first o ?_⟩
  rwa [List.head?_append_of_ne_nil _ hrun.ne_nil] at ho

/-- The chunk behind is the top. -/
theorem freeToTop (h : Layout t segs least (pre ++ (run ++ [n])) ks) (hrun : Run run p psize)
    (hn : n.kind = .top) (hadj : n.addr = p + psize) :
    Layout (t.setHead p ⟨n.size + psize, false, true⟩) segs least
      (pre ++ [⟨p, n.size + psize, true, .top⟩]) ks := by
  have hsn := h.arena.shape n (by simp)
  have haln := hsn.aligned (by rw [hn]; exact nofun)
  have hsp := hrun.shape
  have halp : 16 ∣ p ∧ 16 ∣ psize := hsp.aligned nofun
  have hpos : 0 < p ∧ 0 < psize := ⟨hsp.addr_pos, hsp.size_pos⟩
  have hfin : p + (n.size + psize) = n.fin := by
    unfold fin
    omega
  obtain ⟨htiles, hne, hfirst⟩ := hrun.snoc hadj
  rw [← List.append_nil (pre ++ (run ++ [n]))] at h
  rw [← List.append_nil (pre ++ _)]
  refine h.splice (a := p) (b := n.fin) htiles ⟨rfl, hfin⟩ hne (by simp)
    ?_ ?_ ?_ (List.isChain_singleton _) ?_ (fun he => absurd rfl he) ?_ ?_
  · exact (Tags.Within.refl _ _ t).setHead (Nat.le_refl _) (by omega)
  · intro c hc
    cases List.mem_singleton.mp hc
    exact ⟨Tags.setHead_head_self .., fun hk => by cases hk⟩
  · intro c hc
    cases List.mem_singleton.mp hc
    refine ⟨hpos.1, by show 0 < n.size + psize; omega, fun _ => ⟨halp.1, ?_⟩,
      fun _ hk => absurd rfl hk⟩
    show 16 ∣ n.size + psize
    omega
  · rintro o ho n' ⟨⟩
    exact ⟨(hfirst o ho).symm, fun _ => rfl⟩
  · intro c hc _
    cases List.mem_singleton.mp hc
    exact ⟨n, by simp, by rw [hn]; exact nofun, Nat.le_of_eq hfin⟩
  · intro c hc _
    cases List.mem_singleton.mp hc
    exact ⟨n, by simp, hn, hfin.symm⟩

/-- The chunk behind is free. -/
theorem freeToFree (h : Layout t segs least (pre ++ (run ++ [n]) ++ post) ks)
    (hrun : Run run p psize) (hn : n.kind = .free) (hadj : n.addr = p + psize) :
    Layout (t.setSizeAndPinuseOfFreeChunk p (psize + n.size)) segs least
      (pre ++ [⟨p, psize + n.size, true, .free⟩] ++ post) ks := by
  have hsn := h.arena.shape n (by simp)
  have haln := hsn.aligned (by rw [hn]; exact nofun)
  have hsp := hrun.shape
  have halp : 16 ∣ p ∧ 16 ∣ psize := hsp.aligned nofun
  have hpos : 0 < p ∧ 0 < psize := ⟨hsp.addr_pos, hsp.size_pos⟩
  have hmin : minChunkSize ≤ psize := hsp.min nofun nofun
  have hfin : p + (psize + n.size) = n.fin := by
    unfold fin
    omega
  obtain ⟨htiles, hne, hfirst⟩ := hrun.snoc hadj
  refine h.splice (a := p) (b := n.fin) htiles ⟨rfl, hfin⟩ hne (by simp)
    ?_ ?_ ?_ (List.isChain_singleton _) ?_ ?_ ?_ ?_
  · exact ((Tags.Within.refl _ _ t).setHead (Nat.le_refl _) (by omega)).setFoot
      (by omega) (by omega)
  · intro c hc
    cases List.mem_singleton.mp hc
    exact ⟨Tags.setHead_head_self .., fun _ => Tags.setFoot_prev_foot_self ..⟩
  · intro c hc
    cases List.mem_singleton.mp hc
    refine ⟨hpos.1, by show 0 < psize + n.size; omega, fun _ => ⟨halp.1, ?_⟩, fun _ _ => ?_⟩
    · show 16 ∣ psize + n.size
      omega
    · show minChunkSize ≤ psize + n.size
      omega
  · rintro o ho n' ⟨⟩
    exact ⟨(hfirst o ho).symm, fun _ => rfl⟩
  · rintro - o ho n' ⟨⟩
    rw [List.getLast?_append_of_ne_nil _ (by simp)] at ho
    cases ho
    exact hn.symm
  · intro c hc _
    cases List.mem_singleton.mp hc
    exact ⟨n, by simp, by rw [hn]; exact nofun, Nat.le_of_eq hfin⟩
  · intro c hc hk
    cases List.mem_singleton.mp hc
    cases hk

/-- The chunk behind is in use. -/
theorem freeToInuse (h : Layout t segs least (pre ++ (run ++ [n]) ++ post) ks)
    (hrun : Run run p psize) (hn : n.kind.inuse = true) (hadj : n.addr = p + psize) :
    Layout (t.setFreeWithPinuse p psize n.addr) segs least
      (pre ++ [⟨p, psize, true, .free⟩, { n with pinuse := false }] ++ post) ks := by
  have hmemn : n ∈ pre ++ (run ++ [n]) ++ post := by simp
  have hsn := h.arena.shape n hmemn
  have htn := h.arena.tagged n hmemn
  have hltn := hsn.lt_fin
  have hsp := hrun.shape
  have hpos : 0 < p ∧ 0 < psize := ⟨hsp.addr_pos, hsp.size_pos⟩
  have hnofree : n.kind ≠ .free := by
    intro he
    rw [he] at hn
    cases hn
  obtain ⟨htiles, hne, hfirst⟩ := hrun.snoc hadj
  refine h.splice (a := p) (b := n.fin) htiles ⟨rfl, hadj, rfl⟩ hne (by simp) ?_ ?_ ?_ ?_ ?_ ?_ ?_
    ?_
  · refine ((Tags.Within.refl _ _ t).setHead ?_ ?_).setHead ?_ ?_ |>.setFoot ?_ ?_
    all_goals omega
  · intro c hc
    rcases List.mem_pair.mp hc with rfl | rfl
    · exact ⟨Tags.setHead_head_self .., fun _ => Tags.setFoot_prev_foot_self ..⟩
    · refine ⟨?_, fun hk => absurd hk hnofree⟩
      show ((t.clearPinuse n.addr).setHead p ⟨psize, false, true⟩).head n.addr = _
      rw [Tags.setHead_head_of_ne (by omega)]
      show ((t.setHead n.addr { t.head n.addr with pinuse := false }).head n.addr) = _
      rw [Tags.setHead_head_self, htn.1]
      rfl
  · intro c hc
    rcases List.mem_pair.mp hc with rfl | rfl
    · exact hsp
    · exact ⟨hsn.addr_pos, hsn.size_pos, hsn.aligned, hsn.min⟩
  · refine List.isChain_pair.mpr
      ⟨nofun, fun _ => hadj, ⟨nofun, fun hk => absurd rfl hk⟩, fun _ => hn⟩
  · rintro o ho n' ⟨⟩
    exact ⟨(hfirst o ho).symm, fun _ => rfl⟩
  · rintro - o ho n' ⟨⟩
    rw [List.getLast?_append_of_ne_nil _ (by simp)] at ho
    cases ho
    rfl
  · intro c hc hk
    rcases List.mem_pair.mp hc with rfl | rfl
    · obtain ⟨l, hl⟩ := Option.isSome_iff_exists.mp (List.getLast?_isSome.mpr hrun.ne_nil)
      have hlm := List.mem_of_getLast? hl
      exact ⟨l, List.mem_append_left _ hlm, hrun.no_fence l hlm,
        Nat.le_of_eq (hrun.tiles.hi_getLast l hl).symm⟩
    · exact ⟨n, by simp, hk, Nat.le_refl _⟩
  · intro c hc hk
    rcases List.mem_pair.mp hc with rfl | rfl
    · cases hk
    · exact ⟨n, by simp, hk, rfl⟩

end Layout

end Porpoise.Dlmalloc
