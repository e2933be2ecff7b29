import Porpoise.Dlmalloc.Free
import Porpoise.Dlmalloc.Grow

/-!
# Memory that goes back

The end of the segment of the top goes back to the system, and so does a segment in which nothing
is in use: the chunks in it are one that is free, and the end of what was the top once. The
blocks stay as they are.

* `Layout.trim`, `Layout.drop`: the end of a segment goes, or the whole.
* `Inv.releaseUnusedSegments`, `Inv.sysTrim`: what is kept.
* `Inserts`: a way to put a free chunk in its place.
-/

namespace Porpoise.Dlmalloc

open Porpoise.Lib Chunk

variable {m m' : MState} {t t' : Tags} {segs : List Seg} {cs pre post : List Chunk}
  {ks : List Mapping} {c d n : Chunk} {s r : Seg} {a b p psize least released : ℕ} {x : MParams}
  {g : Taken}

/-! ## The top shrinks -/

/-- A segment shrinks. -/
theorem Layout.mem_updateSeg {q : Seg → Bool} {f : Seg → Seg} (h : Layout t segs least cs ks)
    (hfind : segs.find? q = some r) (hf : (f r).base = r.base ∧ (f r).fin ≤ r.fin) :
    (∀ s ∈ MState.updateSeg q f segs, s = f r ∨ (s ∈ segs ∧ s ≠ r)) ∧
      (∀ s ∈ segs, s = r ∨ s ∈ MState.updateSeg q f segs) ∧ f r ∈ MState.updateSeg q f segs ∧
      (MState.updateSeg q f segs).Pairwise (Apart Seg.base Seg.fin) := by
  obtain ⟨l, l', rfl, heq⟩ := updateSeg_eq (f := f) hfind
  have hap := h.seg_apart
  rw [List.pairwise_append, List.pairwise_cons] at hap
  obtain ⟨hl, ⟨hr, hl'⟩, hll⟩ := hap
  have hpos := (h.seg_ok r (by simp)).size_pos
  have hself : ¬ Apart Seg.base Seg.fin r r := by
    unfold Apart Seg.fin
    omega
  have hnl : ∀ s ∈ l, s ≠ r := by
    rintro s hs rfl
    exact hself (hll s hs s List.mem_cons_self)
  have hnl' : ∀ s ∈ l', s ≠ r := by
    rintro s hs rfl
    exact hself (hr s hs)
  rw [heq]
  refine ⟨fun s hs => ?_, fun s hs => ?_, by simp, ?_⟩
  · simp only [List.mem_append, List.mem_cons] at hs ⊢
    rcases hs with hs | rfl | hs
    · exact Or.inr ⟨Or.inl hs, hnl s hs⟩
    · exact Or.inl rfl
    · exact Or.inr ⟨Or.inr (Or.inr hs), hnl' s hs⟩
  · simp only [List.mem_append, List.mem_cons] at hs ⊢
    tauto
  · rw [List.pairwise_append, List.pairwise_cons]
    refine ⟨hl, ⟨fun s hs => ?_, hl'⟩, fun s hs y hy => ?_⟩
    · have ha := hr s hs
      unfold Apart at ha ⊢
      omega
    · rcases List.mem_cons.mp hy with rfl | hy
      · have ha := hll s hs r List.mem_cons_self
        unfold Apart at ha ⊢
        omega
      · exact hll s hs y (List.mem_cons_of_mem _ hy)

/-- **The end of the segment of the top is given back.** -/
theorem Layout.trim {q : Seg → Bool} {v n : Chunk} (h : Layout t segs least (pre ++ [v]) ks)
    (hv : v.kind = .top) (hfind : segs.find? q = some r) (hbase : r.base ≤ v.addr)
    (hroom : v.fin + 80 = r.fin)
    (hall : ∀ d ∈ pre ++ [v], r.base ≤ d.addr → d.addr < r.fin → d.fin ≤ v.fin)
    (hhead : r ∈ segs.head?) (hal : 4096 ∣ released) (hlt : released < v.size)
    (hw : t.Within v.addr (r.fin - 8) t')
    (htag : Tagged t' n) (hn : n = ⟨v.addr, v.size - released, v.pinuse, v.kind⟩) :
    Layout t' (MState.updateSeg q (fun s => { s with size := s.size - released }) segs) least
      (pre ++ [n]) ks := by
  have hrm := List.mem_of_find?_eq_some hfind
  have hrok := h.seg_ok r hrm
  have hral := hrok.aligned
  have hvs := h.arena.shape v (by simp)
  have hvf : v.fin = v.addr + v.size := rfl
  have hrf : r.fin = r.base + r.size := rfl
  have hnf : n.fin = v.addr + (v.size - released) := by rw [hn]; rfl
  have hna : n.addr = v.addr := by rw [hn]
  have hr'f : r.base + (r.size - released) = n.fin + 80 := by omega
  have halv := hvs.aligned (by rw [hv]; exact nofun)
  obtain ⟨hof, hto, hmem, hap⟩ := h.mem_updateSeg (f := fun s =>
    { s with size := s.size - released }) hfind ⟨rfl, by
      show r.base + (r.size - released) ≤ r.fin
      omega⟩
  have hfar : ∀ c ∈ pre, c.fin ≤ v.addr ∨ r.fin ≤ c.addr := fun c hc =>
    h.far_of_top hrm hbase (by omega) hall hc
  have hfirst := head?_updateSeg (p := q) (f := fun s => { s with size := s.size - released }) hhead
  rw [if_pos (List.find?_some hfind)] at hfirst
  have hsplit : ∀ c, c ∈ pre ++ [n] → c ∈ pre ∨ c = n := fun c hc =>
    (List.mem_append.mp hc).imp_right List.mem_singleton.mp
  refine ⟨h.arena.replaceLast (fun c hc => ⟨?_, ?_⟩) htag ?_ hna (by rw [hn]) (by rw [hn]),
    fun s hs => ?_, hap, fun c hc => ?_, fun c hc hk => ?_, fun s hs => ?_, h.map_ok,
    fun k hk => ?_, h.map_apart, fun k hk s hs => ?_⟩
  · have hcm : c ∈ pre ++ [v] := List.mem_append_left _ hc
    have hf := hfar c hc
    exact (h.arena.tagged c hcm).frame (h.arena.shape c hcm) hw (by omega)
  · have hf := hfar c hc
    unfold Apart
    omega
  · rw [hn]
    refine ⟨hvs.addr_pos, by show 0 < v.size - released; omega, fun _ => ⟨halv.1, ?_⟩,
      fun _ hk => absurd hv hk⟩
    show 16 ∣ v.size - released
    omega
  · rcases hof s hs with rfl | ⟨hs, -⟩
    · refine ⟨hrok.least_pos, hrok.least_le, by show 80 < r.size - released; omega,
        ⟨hral.1, by show 16 ∣ r.size - released; omega⟩, ?_, fun hmm => ?_⟩
      · have hle := hrok.fin_le
        show r.base + (r.size - released) ≤ 2 ^ 47
        omega
      · exact Nat.dvd_sub (hrok.pages hmm) hal
    · exact h.seg_ok s hs
  · rcases hsplit c hc with hc | rfl
    · have hcm : c ∈ pre ++ [v] := List.mem_append_left _ hc
      obtain ⟨s, hs, hsb, hsf⟩ := h.inside c hcm
      rcases hto s hs with rfl | hs
      · have hf := hfar c hc
        have hltc := (h.arena.shape c hcm).lt_fin
        refine ⟨_, hmem, hsb, ?_, fun _ => ?_⟩
        · show c.fin + 8 ≤ s.base + (s.size - released)
          omega
        · show c.fin + 80 ≤ s.base + (s.size - released)
          omega
      · exact ⟨s, hs, hsb, hsf⟩
    · refine ⟨_, hmem, by show r.base ≤ c.addr; omega, ?_, fun _ => ?_⟩
      · show c.fin + 8 ≤ r.base + (r.size - released)
        omega
      · show c.fin + 80 ≤ r.base + (r.size - released)
        omega
  · rcases hsplit c hc with hc | rfl
    · exact absurd hk (h.arena.not_top_of_mem hc)
    · refine ⟨_, hfirst, by show r.base ≤ c.addr; omega, by
        show c.fin + 80 = r.base + (r.size - released); omega, fun d hd hdb hdf => ?_⟩
      change r.base ≤ d.addr at hdb
      change d.addr < r.base + (r.size - released) at hdf
      rcases hsplit d hd with hd | rfl
      · have hf := hfar d hd
        omega
      · exact Nat.le_refl _
  · have hstart : ∃ c ∈ pre ++ [v], c.addr = s.base := by
      rcases hof s hs with rfl | ⟨hs, -⟩
      · exact h.start r hrm
      · exact h.start s hs
    obtain ⟨c, hc, haddr⟩ := hstart
    rcases List.mem_append.mp hc with hc | hc
    · exact ⟨c, List.mem_append_left _ hc, haddr⟩
    · rw [List.mem_singleton.mp hc] at haddr
      exact ⟨n, by simp, hna.trans haddr⟩
  · refine (h.map_tagged k hk).frame (h.map_ok k hk) hw ?_
    have hkr := h.map_seg k hk r hrm
    omega
  · rcases hof s hs with rfl | ⟨hs, -⟩
    · have hkr := h.map_seg k hk r hrm
      show k.fin ≤ r.base ∨ r.base + (r.size - released) ≤ k.base
      omega
    · exact h.map_seg k hk s hs

/-- **The end of the top goes back.** -/
theorem Inv.trimTop (h : Inv m cs ks) (hlt : released + topFootSize < m.topsize)
    (hal : 4096 ∣ released) :
    ∃ cs', Inv (m.trimTop x released) cs' ks ∧ ∀ a b, Blocks cs' ks a b ↔ Blocks cs ks a b := by
  have hne : cs ≠ [] := by
    rintro rfl
    rcases h.topped with ⟨-, -, hz⟩ | hlast
    · omega
    · cases hlast
  obtain ⟨pre, r, rfl, hhead, hbase, hroom, hall, hunique⟩ := h.top_seg hne
  have hst := h.layout.arena.shape ⟨m.top, m.topsize, true, .top⟩ (by simp)
  have halt : 16 ∣ m.top ∧ 16 ∣ m.topsize := hst.aligned (by exact nofun)
  have hfind := find_top (List.mem_of_mem_head? hhead) hbase hroom hunique
  unfold topFootSize at hroom hlt
  have hpos : 0 < m.topsize - released := by omega
  refine ⟨pre ++ [⟨m.top, m.topsize - released, true, .top⟩], ?_, fun a b => ?_⟩
  · unfold MState.trimTop
    rw [initTop_eq halt.1]
    refine h.resizeTop ?_ rfl rfl rfl rfl rfl
    exact h.layout.trim (v := ⟨m.top, m.topsize, true, .top⟩) rfl hfind hbase hroom hall hhead hal
      (show released < m.topsize by omega)
      (newTop_within m.toTags m.top (m.topsize - released) (by omega))
      (newTop_tagged m.toTags m.top hpos) rfl
  · unfold Blocks
    simp

/-! ## A segment goes -/

/-- Some chunks go: where one stays and its neighbour goes, the first is a fence. -/
theorem Arena.filter {p : Chunk → Bool} (h : Arena t cs)
    (hF : ∀ x ∈ cs, ∀ y ∈ cs, Link x y → p x ≠ p y → x.kind = .fence) : Arena t (cs.filter p) := by
  have hsub : ∀ c ∈ cs.filter p, c ∈ cs := fun c hc => (List.mem_filter.mp hc).1
  refine ⟨fun c hc => h.tagged c (hsub c hc), fun c hc => h.shape c (hsub c hc),
    isChain_filter (F := fun c => c.kind = .fence) h.linked hF fun x y z hx hy hl => ?_,
    h.apart.filter p, fun c hc => ?_⟩
  · refine ⟨?_, fun hne => absurd hx hne, ?_, fun hk => ?_⟩
    · rw [hx]
      exact nofun
    · rw [hl.pinuse, hx, hy]
    · rw [hx] at hk
      cases hk
  · cases cs with
    | nil => cases hc
    | cons x cs =>
        by_cases hx : p x = true
        · rw [List.filter_cons_of_pos hx] at hc
          cases hc
          exact h.first _ rfl
        · rw [List.filter_cons_of_neg hx] at hc
          obtain ⟨y, -, hy, hl⟩ :=
            head?_filter_of_isChain h.linked (Bool.eq_false_iff.mpr hx) hF c hc
          refine hl.pinuse.mpr ?_
          rw [hy]
          exact nofun

/-- The chunk lies outside the segment. -/
def Seg.without (s : Seg) (c : Chunk) : Bool := !s.holds c.addr

theorem Seg.without_iff : s.without c = true ↔ ¬ (s.base ≤ c.addr ∧ c.addr < s.fin) := by
  unfold Seg.without Seg.holds
  rw [Bool.not_eq_true', ← Bool.not_eq_true, Bool.and_eq_true, decide_eq_true_eq,
    decide_eq_true_eq]

/-- A segment whose first chunk is free and fills it, but for the end; it is not the first. -/
structure Unused (segs : List Seg) (cs : List Chunk) (s : Seg) (c : Chunk) : Prop where
  seg : s ∈ segs
  not_first : ∀ q ∈ segs.head?, q ≠ s
  mem : c ∈ cs
  addr : c.addr = s.base
  free : c.kind = .free
  fills : s.fin ≤ c.fin + topFootSize

namespace Unused

variable (hu : Unused segs cs s c)
include hu

theorem within (h : Layout t segs least cs ks) : s.base ≤ c.addr ∧ c.addr < s.fin := by
  have hpos := (h.seg_ok s hu.seg).size_pos
  have haddr := hu.addr
  unfold Seg.fin
  omega

/-- A chunk of the segment lies in no other. -/
theorem inside (h : Layout t segs least cs ks) (hd : d ∈ cs) (hin : s.base ≤ d.addr)
    (hin' : d.addr < s.fin) :
    d.fin + 8 ≤ s.fin ∧ (d.kind ≠ .fence → d.fin + topFootSize ≤ s.fin) := by
  obtain ⟨r, hr, hrb, hrf, hroom⟩ := h.inside d hd
  have hlt := (h.arena.shape d hd).lt_fin
  have hrs : r = s := h.seg_unique hr hu.seg (x := d.addr) ⟨hrb, by omega⟩ ⟨hin, hin'⟩
  subst hrs
  exact ⟨hrf, hroom⟩

/-- The others in the segment are fences. -/
theorem fence (h : Layout t segs least cs ks) (hd : d ∈ cs) (hin : s.base ≤ d.addr)
    (hin' : d.addr < s.fin) (hne : d ≠ c) : d.kind = .fence := by
  by_contra hk
  have hroom := (hu.inside h hd hin hin').2 hk
  have hltd := (h.arena.shape d hd).lt_fin
  have hltc := (h.arena.shape c hu.mem).lt_fin
  have hap := (h.arena.eq_or_apart hd hu.mem).resolve_left hne
  have haddr := hu.addr
  have hfills := hu.fills
  unfold Apart at hap
  omega

/-- Of neighbours in different segments the first is a fence. -/
theorem seam {y : Chunk} (h : Layout t segs least cs ks) (hd : d ∈ cs) (hl : Link d y)
    (hne : s.without d ≠ s.without y) : d.kind = .fence := by
  by_contra hk
  have hadj := hl.adjacent hk
  have hlt := (h.arena.shape d hd).lt_fin
  have hiff : s.without d = true ↔ s.without y = true := by
    rw [Seg.without_iff, Seg.without_iff, not_iff_not]
    constructor
    · rintro ⟨hin, hin'⟩
      have hfin := (hu.inside h hd hin hin').1
      omega
    · rintro ⟨hin, hin'⟩
      obtain ⟨r, hr, hrb, hrf, -⟩ := h.inside d hd
      have hrs : r = s :=
        h.seg_unique hr hu.seg (x := y.addr) ⟨by omega, by omega⟩ ⟨hin, hin'⟩
      subst hrs
      omega
  exact hne (Bool.eq_iff_iff.mpr hiff)

/-- **The segment goes,** and its chunks. -/
theorem drop (h : Layout t segs least cs ks) :
    Layout t (segs.erase s) least (cs.filter s.without) ks := by
  have hsub : ∀ d ∈ cs.filter s.without, d ∈ cs ∧ ¬ (s.base ≤ d.addr ∧ d.addr < s.fin) :=
    fun d hd => (List.mem_filter.mp hd).imp_right Seg.without_iff.mp
  have hmem : ∀ q ∈ segs.erase s, q ∈ segs := fun q hq => List.mem_of_mem_erase hq
  have hkeep : ∀ q ∈ segs, ∀ y, q.base ≤ y → y < q.fin → ¬ (s.base ≤ y ∧ y < s.fin) →
      q ∈ segs.erase s := by
    intro q hq y hqb hqf hout
    refine (List.mem_erase_of_ne ?_).mpr hq
    rintro rfl
    exact hout ⟨hqb, hqf⟩
  have hnd : segs.Nodup := h.seg_apart.imp_of_mem fun {q r} hq _ hap hqr => by
    subst hqr
    have hpos := (h.seg_ok q hq).size_pos
    unfold Apart Seg.fin at hap
    omega
  refine ⟨h.arena.filter fun x hx y _ => hu.seam h hx, fun q hq => h.seg_ok q (hmem q hq),
    h.seg_apart.sublist List.erase_sublist, fun d hd => ?_, fun d hd hk => ?_, fun q hq => ?_,
    h.map_ok, h.map_tagged, h.map_apart, fun k hk q hq => h.map_seg k hk q (hmem q hq)⟩
  · obtain ⟨hd, hout⟩ := hsub d hd
    obtain ⟨r, hr, hrb, hrf, hroom⟩ := h.inside d hd
    have hlt := (h.arena.shape d hd).lt_fin
    exact ⟨r, hkeep r hr d.addr hrb (by omega) hout, hrb, hrf, hroom⟩
  · obtain ⟨hd, -⟩ := hsub d hd
    obtain ⟨r, hr, hrb, hroom, hall⟩ := h.top_room d hd hk
    refine ⟨r, ?_, hrb, hroom, fun e he => hall e (hsub e he).1⟩
    obtain ⟨l, rfl⟩ := List.head?_eq_some_iff.mp hr
    rw [List.erase_cons_tail (by simpa using hu.not_first r rfl)]
    rfl
  · obtain ⟨hne, hq⟩ := hnd.mem_erase_iff.mp hq
    obtain ⟨d, hd, haddr⟩ := h.start q hq
    refine ⟨d, List.mem_filter.mpr ⟨hd, Seg.without_iff.mpr ?_⟩, haddr⟩
    have hap := h.seg_apart.forall hq hu.seg hne
    have hpos := (h.seg_ok q hq).size_pos
    have hqf : q.fin = q.base + q.size := rfl
    change q.fin ≤ s.base ∨ s.fin ≤ q.base at hap
    omega

/-- Where a chunk that is not free lies. -/
theorem addr_ne (h : Layout t segs least cs ks) (hd : d ∈ cs) (hk : d.kind ≠ .free) :
    d.addr ≠ c.addr := by
  intro heq
  rw [h.arena.eq_of_addr hd hu.mem heq] at hk
  exact hk hu.free

/-- What stays of the chunks that are not fences: all but the free one. -/
theorem mem_filter (h : Layout t segs least cs ks) (hk : d.kind ≠ .fence) :
    d ∈ cs.filter s.without ↔ d ∈ cs ∧ d.addr ≠ c.addr := by
  rw [List.mem_filter, Seg.without_iff]
  refine and_congr_right fun hd => ?_
  constructor
  · rintro hout heq
    rw [heq] at hout
    exact hout (hu.within h)
  · rintro hne ⟨hin, hin'⟩
    refine hk (hu.fence h hd hin hin' ?_)
    rintro rfl
    exact hne rfl

end Unused

/-- **A segment in which nothing is in use goes,** and its free chunk is in no bin. -/
theorem Inv.dropSeg (hu : Unused m.segs cs s c) (h : Pending m cs ks c.addr) :
    Inv { m with segs := m.segs.erase s } (cs.filter s.without) ks ∧
      ∀ a b, Blocks (cs.filter s.without) ks a b ↔ Blocks cs ks a b := by
  have hlayout := h.layout
  have hfree : ∀ y size, (⟨y, size, true, .free⟩ : Chunk) ∈ cs.filter s.without ↔
      (⟨y, size, true, .free⟩ : Chunk) ∈ cs ∧ y ≠ c.addr := fun y size =>
    hu.mem_filter hlayout (by exact nofun)
  refine ⟨⟨hu.drop hlayout, ?_, ?_, h.bins.congr fun y size => ?_⟩, fun a b => ?_⟩
  · rcases h.topped with ⟨hnil, -⟩ | hlast
    · exact absurd hu.mem (by rw [hnil]; exact List.not_mem_nil)
    · refine Or.inr ?_
      have hmem : (⟨m.top, m.topsize, true, .top⟩ : Chunk) ∈ cs := List.mem_of_getLast? hlast
      have hkeep := (List.mem_filter.mp ((hu.mem_filter hlayout (by exact nofun)).mpr
        ⟨hmem, hu.addr_ne hlayout hmem (by exact nofun)⟩)).2
      obtain ⟨pre, rfl⟩ := List.getLast?_eq_some_iff.mp hlast
      rw [List.filter_append, List.filter_cons_of_pos hkeep, List.filter_nil]
      simp
  · rcases h.victim with hv | hv
    · exact Or.inl hv
    · exact Or.inr ((hfree _ _).mpr ⟨hv, h.ne.symm⟩)
  · show (y ≠ m.dv ∧ _) ↔ (y ≠ m.dv ∧ _) ∧ _
    rw [hfree, and_assoc]
  · unfold Blocks
    have hused : ∀ q, (⟨a, b, q, .used⟩ : Chunk) ∈ cs.filter s.without ↔
        (⟨a, b, q, .used⟩ : Chunk) ∈ cs := by
      intro q
      rw [hu.mem_filter hlayout (by exact nofun), and_iff_left_iff_imp]
      exact fun hmem => hu.addr_ne hlayout hmem (by exact nofun)
    simp only [hused]

/-- The segment that a step of the loop looks at is unused when it meets the conditions. -/
theorem Inv.unused (h : Inv m cs ks) (hs : s ∈ m.segs) (hfirst : ∀ q ∈ m.segs.head?, q ≠ s)
    (hinuse : m.isInuse s.base = false)
    (hfills : s.fin - topFootSize ≤ s.base + m.chunksize s.base) :
    ∃ c, Unused m.segs cs s c ∧ c = ⟨s.base, m.chunksize s.base, true, .free⟩ := by
  obtain ⟨c, hc, haddr⟩ := h.layout.start s hs
  have hsize := h.layout.chunksize_eq hc
  rw [haddr] at hsize
  have hflags : c.kind.inuse = false ∧ c.pinuse = true := by
    unfold Tags.isInuse at hinuse
    rwa [← haddr, h.layout.cinuse_eq hc, h.layout.pinuse_eq hc, Bool.or_eq_false_iff,
      Bool.not_eq_false'] at hinuse
  have hpos := (h.layout.seg_ok s hs).size_pos
  have hsf : s.fin = s.base + s.size := rfl
  have hk : c.kind = .free := by
    rcases hkind : c.kind with _ | _ | _ | _
    · rw [hkind] at hflags
      cases hflags.1
    · rfl
    · rw [hkind] at hflags
      cases hflags.1
    · obtain ⟨q, hq, hqb, hqf, -⟩ := h.layout.top_room c hc hkind
      have hlt := (h.layout.arena.shape c hc).lt_fin
      refine absurd (h.layout.seg_unique (List.mem_of_mem_head? hq) hs (x := s.base) ⟨by omega, ?_⟩
        ⟨Nat.le_refl _, by omega⟩) (hfirst q hq)
      omega
  refine ⟨c, ⟨hs, hfirst, hc, haddr, hk, ?_⟩, ?_⟩
  · unfold fin
    unfold topFootSize at hfills ⊢
    omega
  · rw [h.layout.free_eq hc hk, haddr, hsize]

/-- **A step of the loop** keeps the invariant and the blocks. -/
theorem Inv.releaseSeg (released : ℕ) (m : MState) (h : Inv m cs ks) (hs : s ∈ m.segs)
    (hfirst : ∀ q ∈ m.segs.head?, q ≠ s) :
    ((MState.releaseSeg g (released, m) s).2.segs = m.segs ∨
      (MState.releaseSeg g (released, m) s).2.segs = m.segs.erase s) ∧
      ∃ cs', Inv (MState.releaseSeg g (released, m) s).2 cs' ks ∧
        ∀ a b, Blocks cs' ks a b ↔ Blocks cs ks a b := by
  have hok := h.layout.seg_ok s hs
  unfold MState.releaseSeg
  dsimp only
  rw [alignAsChunk_of_dvd hok.aligned.1]
  split
  swap
  · exact ⟨Or.inl rfl, cs, h, fun _ _ => Iff.rfl⟩
  next hcond =>
  obtain ⟨hmm, hinuse, hfills⟩ := hcond
  obtain ⟨c, hu, hc⟩ := h.unused hs hfirst hinuse hfills
  have haddr : c.addr = s.base := hu.addr
  have hmem : (⟨s.base, m.chunksize s.base, true, .free⟩ : Chunk) ∈ cs := hc ▸ hu.mem
  have hlarge : ¬ isSmall (m.chunksize s.base) = true := by
    rw [isSmall_iff]
    have hpages := hok.pages hmm
    have hpos := hok.size_pos
    have hsf : s.fin = s.base + s.size := rfl
    unfold topFootSize at hfills
    omega
  -- The free chunk leaves its place first.
  have hpend : Pending (if s.base = m.dv then { m with dv := 0, dvsize := 0 }
      else { m with toBins := m.unlinkLargeChunk m.least_addr s.base }) cs ks s.base := by
    split
    · next hdv =>
      have hv : (⟨m.dv, m.dvsize, true, .free⟩ : Chunk) ∈ cs := by
        refine h.victim.resolve_left fun hz => ?_
        have hpos := h.layout.addr_pos hmem
        exact hpos.ne' (hdv.trans hz.1)
      rw [hdv]
      exact h.takeDv hv
    · next hdv =>
      exact Pending.of_unlink h (h.bins.unlinkLargeChunk
        (fun _ _ hy => h.layout.least_le hy.2) ⟨hdv, hmem⟩
        (fun s' hF => (h.layout.size_unique hmem hF.2).1) hlarge) hdv
  have hsame : (if s.base = m.dv then { m with dv := 0, dvsize := 0 }
      else { m with toBins := m.unlinkLargeChunk m.least_addr s.base } : MState).segs = m.segs := by
    split <;> rfl
  generalize (if s.base = m.dv then { m with dv := 0, dvsize := 0 }
      else { m with toBins := m.unlinkLargeChunk m.least_addr s.base } : MState) = m₁
    at hpend hsame ⊢
  split
  · obtain ⟨hi, hb⟩ := Inv.dropSeg (m := m₁) (hsame.symm ▸ hu) (haddr.symm ▸ hpend)
    exact ⟨Or.inr (congrArg (·.erase s) hsame), cs.filter s.without, hi.setFootprint _, hb⟩
  · have hinsert : m₁.insertChunk s.base (m.chunksize s.base) =
        { m₁ with
          toBins := m₁.insertLargeChunk m₁.least_addr m₁.chunksize s.base
            (m.chunksize s.base) } := by
      unfold MState.insertChunk Bins.insertChunk
      rw [if_neg hlarge]
    rw [← hinsert]
    exact ⟨Or.inl hsame, cs, hpend.insertChunk hmem, fun _ _ => Iff.rfl⟩

/-- The loop over the segments but for the first. -/
theorem Inv.releaseFold {l : List Seg} (r : ℕ × MState) (h : Inv r.2 cs ks) (hnd : l.Nodup)
    (hl : ∀ s ∈ l, s ∈ r.2.segs ∧ ∀ q ∈ r.2.segs.head?, q ≠ s) :
    ∃ cs', Inv (l.foldl (MState.releaseSeg g) r).2 cs' ks ∧
      ∀ a b, Blocks cs' ks a b ↔ Blocks cs ks a b := by
  induction l generalizing r cs with
  | nil => exact ⟨cs, h, fun _ _ => Iff.rfl⟩
  | cons s l ih =>
      obtain ⟨hs, hnd⟩ := List.nodup_cons.mp hnd
      obtain ⟨hmem, hfirst⟩ := hl s List.mem_cons_self
      obtain ⟨hsegs, cs₁, hi, hb⟩ := Inv.releaseSeg (g := g) r.1 r.2 h hmem hfirst
      obtain ⟨cs₂, hi₂, hb₂⟩ := ih _ hi hnd fun q hq => by
        obtain ⟨hqm, hqf⟩ := hl q (List.mem_cons_of_mem _ hq)
        have hne : q ≠ s := by
          rintro rfl
          exact hs hq
        rcases hsegs with heq | heq
        · rw [heq]
          exact ⟨hqm, hqf⟩
        · rw [heq]
          refine ⟨(List.mem_erase_of_ne hne).mpr hqm, fun f hf => hqf f ?_⟩
          rcases hsg : r.2.segs with _ | ⟨f', l'⟩
          · rw [hsg] at hmem
            cases hmem
          · rw [hsg] at hf hfirst
            rwa [List.erase_cons_tail (by simpa using hfirst f' rfl)] at hf
      exact ⟨cs₂, hi₂, fun a b => (hb₂ a b).trans (hb a b)⟩

/-- **`release_unused_segments`** keeps the invariant and the blocks. -/
theorem Inv.releaseUnusedSegments (g : Taken) (h : Inv m cs ks) :
    ∃ cs', Inv (m.releaseUnusedSegments g).2 cs' ks ∧
      ∀ a b, Blocks cs' ks a b ↔ Blocks cs ks a b := by
  have hnd : m.segs.Nodup := h.layout.seg_apart.imp_of_mem fun {q r} hq _ hap hqr => by
    subst hqr
    have hpos := (h.layout.seg_ok q hq).size_pos
    unfold Apart Seg.fin at hap
    omega
  have htail : ∀ s ∈ m.segs.tail, s ∈ m.segs ∧ ∀ q ∈ m.segs.head?, q ≠ s := by
    intro s hs
    refine ⟨List.mem_of_mem_tail hs, fun q hq => ?_⟩
    obtain ⟨l, hl⟩ := List.head?_eq_some_iff.mp hq
    rw [hl] at hs hnd
    rintro rfl
    exact (List.nodup_cons.mp hnd).1 hs
  obtain ⟨cs', hi, hb⟩ := Inv.releaseFold (g := g) (0, m) h hnd.tail htail
  exact ⟨cs', ⟨hi.layout, hi.topped, hi.victim, hi.bins⟩, hb⟩

/-! ## `sys_trim` -/

/-- Less than the whole top is given back, in pages. -/
theorem trimExtra_spec (x : MParams) (m : MState) : 4096 ∣ MState.trimExtra x m ∧
    (topFootSize < m.topsize → MState.trimExtra x m + topFootSize < m.topsize) := by
  unfold MState.trimExtra
  refine ⟨Nat.dvd_mul_left_of_dvd (x.page_dvd.trans x.granularity_dvd) _, fun hlt => ?_⟩
  have hpos : 0 < m.topsize - topFootSize := by omega
  generalize hk : m.topsize - topFootSize = k at hpos ⊢
  have hextra : ((k + (x.granularity - 1)) / x.granularity - 1) * x.granularity < k := by
    rcases Nat.eq_zero_or_pos x.granularity with hz | hg
    · rw [hz, Nat.mul_zero]
      exact hpos
    · have hdiv := Nat.div_mul_le_self (k + (x.granularity - 1)) x.granularity
      rw [Nat.sub_mul, Nat.one_mul]
      omega
  omega

/-- **`sys_trim`** keeps the invariant and the blocks. -/
theorem Inv.sysTrim (g : Taken) (h : Inv m cs ks) :
    ∃ cs', Inv (m.sysTrim x g) cs' ks ∧ ∀ a b, Blocks cs' ks a b ↔ Blocks cs ks a b := by
  have htrim : ∃ cs', Inv (if (if m.topsize > topFootSize ∧ g.top = true then
      MState.trimExtra x m else 0) ≠ 0 then m.trimTop x (if m.topsize > topFootSize ∧
        g.top = true then MState.trimExtra x m else 0) else m) cs' ks ∧
      ∀ a b, Blocks cs' ks a b ↔ Blocks cs ks a b := by
    obtain ⟨hdvd, hlt⟩ := trimExtra_spec x m
    by_cases hcond : m.topsize > topFootSize ∧ g.top = true
    · rw [if_pos hcond]
      split
      · exact h.trimTop (hlt hcond.1) hdvd
      · exact ⟨cs, h, fun _ _ => Iff.rfl⟩
    · rw [if_neg hcond, if_neg (by simp)]
      exact ⟨cs, h, fun _ _ => Iff.rfl⟩
  obtain ⟨cs₁, hi₁, hb₁⟩ := htrim
  obtain ⟨cs₂, hi₂, hb₂⟩ := hi₁.releaseUnusedSegments g
  unfold MState.sysTrim
  dsimp only
  generalize (if (if m.topsize > topFootSize ∧ g.top = true then MState.trimExtra x m else 0) ≠ 0
    then _ else m : MState) = m₁ at hi₂ ⊢
  generalize m₁.releaseUnusedSegments g = r at hi₂ ⊢
  generalize (if m.topsize > topFootSize ∧ g.top = true then MState.trimExtra x m else 0) = k
  refine ⟨cs₂, ?_, fun a b => (hb₂ a b).trans (hb₁ a b)⟩
  split
  · exact ⟨hi₂.layout, hi₂.topped, hi₂.victim, hi₂.bins⟩
  · exact hi₂

/-! ## Chunks that enter a bin -/

/-- A way to put a free chunk in its place: the blocks stay as they are. -/
def Inserts (insert : MState → ℕ → ℕ → MState) : Prop :=
  ∀ m cs ks p psize, Pending m cs ks p → (⟨p, psize, true, .free⟩ : Chunk) ∈ cs →
    ∃ cs', Inv (insert m p psize) cs' ks ∧ ∀ a b, Blocks cs' ks a b ↔ Blocks cs ks a b

/-- The heap does not depend on the counter. -/
theorem Inv.setReleaseChecks (h : Inv m cs ks) (k : ℕ) :
    Inv { m with release_checks := k } cs ks :=
  ⟨h.layout, h.topped, h.victim, h.bins⟩

theorem Inv.countRelease (g : Taken) (h : Inv m cs ks) :
    ∃ cs', Inv (m.countRelease g) cs' ks ∧ ∀ a b, Blocks cs' ks a b ↔ Blocks cs ks a b := by
  have hi := h.setReleaseChecks (wsub m.release_checks 1)
  unfold MState.countRelease
  dsimp only
  split
  · exact hi.releaseUnusedSegments g
  · exact ⟨cs, hi, fun _ _ => Iff.rfl⟩

theorem inserts_insertFreed (g : Taken) : Inserts (MState.insertFreed g) := by
  intro m cs ks p psize h hmem
  have hi := h.insertChunk hmem
  unfold MState.insertFreed
  dsimp only
  split
  · exact ⟨cs, hi, fun _ _ => Iff.rfl⟩
  · exact hi.countRelease g

end Porpoise.Dlmalloc
