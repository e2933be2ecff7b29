import Porpoise.Dlmalloc.BestFit

/-!
# When a request fails

`dlmalloc` returns 0 only when it must: no free chunk, neither in a bin nor the designated victim
nor the top, is large enough, and the system gives no memory.

* `Exhausted`: no chunk is large enough; `Refused`: there is no new memory.
* `Inv.smallRequest_zero`, `Inv.largeRequest_zero`: what the bins hold when they serve nothing.
* `heap_exhausted`: in every state that a run reaches.
-/

namespace Porpoise.Dlmalloc

open Porpoise.Lib Chunk

namespace MState

/-- No chunk that is free can serve a request of `nb` bytes. -/
structure Exhausted (m : MState) (nb : ℕ) : Prop where
  bins : ∀ j, ∀ y ∈ m.members j, m.chunksize y < nb
  dv : m.dvsize < nb
  top : m.topsize ≤ nb

/-- There is no new memory: the size wraps around, or is over the limit, or the system gives
none. -/
def Refused (x : MParams) (g : Grant) (m : MState) (nb : ℕ) : Prop :=
  granularityAlign x ((nb + sysAllocPadding) % 2 ^ 64) ≤ nb ∨
    m.overLimit (granularityAlign x ((nb + sysAllocPadding) % 2 ^ 64)) = true ∨ g.range = none

end MState

variable {x : MParams} {p : Process} {m m' : MState} {cs : List Chunk} {ks : List Mapping}
  {nb i y mem : ℕ} {g : Grant}

theorem Allocates.ne_zero (h : Allocates cs ks nb mem m') : mem ≠ 0 := by
  obtain ⟨-, -, -, -, -, hlt, -⟩ := h
  omega

/-- New memory serves the request. -/
theorem Inv.sysAlloc_zero (h : Inv m cs ks) (hnb : minChunkSize ≤ nb) (hal : 16 ∣ nb)
    (hg : g.Ok x m ks nb) (h0 : (m.sysAlloc x g nb).1 = 0) : m.Refused x g nb := by
  by_contra hno
  unfold MState.Refused at hno
  rw [not_or, not_or] at hno
  obtain ⟨hwrap, hlimit, hrange⟩ := hno
  obtain ⟨s, hs⟩ := Option.ne_none_iff_exists'.mp hrange
  rcases h.sysAlloc hnb hal hg with heq | halloc
  · obtain ⟨hgiven, hsize⟩ := hg.range s hs
    have hinstall := ((h.closeContiguous g.closed).install (x := x) hnb hal hgiven hsize).ne_zero
    unfold MState.sysAlloc at h0
    dsimp only at h0
    split at h0
    · next r hr =>
      split at hr
      · unfold MState.mmapAlloc at hr
        dsimp only at hr
        split at hr
        · cases hr
        · split at hr
          · obtain ⟨mm, -, rfl⟩ := Option.map_eq_some_iff.mp hr
            unfold chunk2mem at h0
            dsimp only at h0
            omega
          · cases hr
      · cases hr
    · rw [if_neg (not_or.mpr ⟨hwrap, hlimit⟩), hs] at h0
      exact hinstall h0
  · exact halloc.ne_zero h0

/-- The victim and the top cannot serve the request either. -/
theorem Inv.fallback_zero (h : Inv m cs ks) (hnb : minChunkSize ≤ nb) (hal : 16 ∣ nb)
    (hg : g.Ok x m ks nb) (h0 : (m.fallback x g nb).1 = 0) :
    m.dvsize < nb ∧ m.topsize ≤ nb ∧ m.Refused x g nb := by
  unfold MState.fallback at h0
  split at h0
  · next hle => exact absurd h0 (h.fromDv hnb hal hle).ne_zero
  · next hdv =>
    split at h0
    · next hlt => exact absurd h0 (h.fromTop hnb hal hlt).ne_zero
    · next htop =>
      exact ⟨Nat.lt_of_not_le hdv, Nat.le_of_not_lt htop, h.sysAlloc_zero hnb hal hg h0⟩

/-! ## The bins -/

/-- **A small request** that no bin serves. -/
theorem Inv.smallRequest_zero (h : Inv m cs ks) (hnb : minChunkSize ≤ nb) (hal : 16 ∣ nb)
    (hs : nb < 256) (h0 : m.smallRequest x g nb = some (0, m')) :
    (∀ j, ∀ y ∈ m.members j, m.chunksize y < nb) ∧ m.fallback x g nb = (0, m') := by
  rcases smallRequest_cases x g m hs with ⟨i, hf, hle, heq⟩ | ⟨hge, heq⟩ |
    ⟨hdv, ⟨i, hf, heq⟩ | ⟨hzero, ⟨hmap, heq⟩ | ⟨hmap, heq⟩⟩⟩
  · obtain ⟨q, hq, halloc⟩ := h.exactFit hnb hal hf.marked hf.le hle
    cases (heq.trans hq).symm.trans h0
    exact absurd rfl halloc.ne_zero
  · have hfall := Option.some.inj (heq.symm.trans h0)
    unfold MState.fallback at hfall
    rw [if_pos hge] at hfall
    exact absurd (congrArg Prod.fst hfall) (h.fromDv hnb hal hge).ne_zero
  · obtain ⟨q, hq, halloc⟩ := h.nextFit hnb hal hs hdv hf.marked hf.le
    cases (heq.trans hq).symm.trans h0
    exact absurd rfl halloc.ne_zero
  · obtain ⟨q, hq, halloc⟩ := h.tmallocSmall hnb hal hs hdv hmap
    rw [heq, hq, Option.map_some, if_pos halloc.ne_zero] at h0
    cases h0
    exact absurd rfl halloc.ne_zero
  · refine ⟨fun j y hy => ?_, Option.some.inj (heq.symm.trans h0)⟩
    cases j with
    | tree i => exact absurd hy (h.no_trees hmap)
    | small i => exact h.small_lt hzero hy

/-- **A large request** that no bin serves. -/
theorem Inv.largeRequest_zero (h : Inv m cs ks) (hsegs : ∀ r ∈ m.segs, r.size ≤ 2 ^ 40)
    (hnb : 256 ≤ nb) (hal : 16 ∣ nb) (hlt : nb < 2 ^ 64) (hg : g.Ok x m ks nb)
    (h0 : m.largeRequest x g nb = some (0, m')) :
    (∀ j, ∀ y ∈ m.members j, m.chunksize y < nb) ∧ m.fallback x g nb = (0, m') := by
  have hmin : minChunkSize ≤ nb := Nat.le_trans (by decide) hnb
  have hsmall : ∀ i, ∀ y ∈ m.smallbins i, m.chunksize y < nb := fun i y hy =>
    Nat.lt_of_lt_of_le (h.chunksize_small hy).2 hnb
  unfold MState.largeRequest at h0
  split at h0
  swap
  · next hmap =>
    refine ⟨fun j y hy => ?_, Option.some.inj h0⟩
    cases j with
    | small i => exact hsmall i y hy
    | tree i => exact absurd hy (h.no_trees (not_not.mp hmap))
  have hlarge : m.tmallocLarge nb = some (0, m) ∧ m.fallback x g nb = (0, m') := by
    rcases h.tmallocLarge hmin hal hlt with heq | ⟨r, heq, halloc⟩
    · rw [heq] at h0
      exact ⟨heq, Option.some.inj h0⟩
    · rw [heq, Option.map_some, if_pos halloc.ne_zero] at h0
      cases h0
      exact absurd rfl halloc.ne_zero
  obtain ⟨hzero, hfall⟩ := hlarge
  obtain ⟨hdv, -, -⟩ := h.fallback_zero hmin hal hg (congrArg Prod.fst hfall)
  refine ⟨fun j y hy => ?_, hfall⟩
  cases j with
  | small i => exact hsmall i y hy
  | tree i =>
      have hsize := ((h.treesOrdered hsegs).size i y hy).1.2
      by_contra hge
      have hfit : m.Fits nb y := ⟨⟨i, hy⟩, Nat.le_of_not_lt hge⟩
      have hts : TreeSize nb := ⟨hnb, by omega⟩
      rcases h.tmallocLarge_best hsegs hts with ⟨-, hbest⟩ | ⟨v, r, heq, -⟩
      · -- The victim is too small, so any chunk that fits is better.
        have hle := hbest y hfit
        unfold wsub at hle
        omega
      · rw [hzero] at heq
        have hv := congrArg Prod.fst (Option.some.inj heq)
        change 0 = v + 16 at hv
        omega

/-! ## Every run -/

/-- **A request fails only when it must**: in every state that a run reaches, no free chunk is
large enough, and there is no new memory. -/
theorem heap_exhausted {as : List Call} (bytes : ℕ) (hr : (heap x).Run (Legal x) as p)
    (hsegs : ∀ r ∈ p.state.segs, r.size ≤ 2 ^ 40) (hlt : bytes < maxRequest)
    (hg : Legal x p (.malloc bytes g))
    (h0 : (p.state.dlmalloc x g bytes).map (·.1) = some 0) :
    (∃ closed, p.state.dlmalloc x g bytes = some (0, p.state.closeContiguous closed)) ∧
      p.state.Exhausted (requestSize bytes) ∧ p.state.Refused x g (requestSize bytes) := by
  obtain ⟨-, cs, ks, hi, hl⟩ := Good.of_run hr
  have hok : g.Ok x p.state ks (requestSize bytes) :=
    Grant.Ok.congr hg fun k hk => (hl.mem_mappings hi).mpr hk
  obtain ⟨hnb, hal, -, hlt64, hsmall⟩ := requestSize_spec hlt
  obtain ⟨q, hq, hserved⟩ := hi.dlmalloc hok
  rw [hq] at h0
  obtain ⟨closed, rfl⟩ := hserved.resolve_right fun ⟨_, ha⟩ => ha.ne_zero (Option.some.inj h0)
  refine ⟨⟨closed, hq⟩, ?_⟩
  have hbins : (∀ j, ∀ y ∈ p.state.members j, p.state.chunksize y < requestSize bytes) ∧
      p.state.fallback x g (requestSize bytes) = (0, p.state.closeContiguous closed) := by
    unfold MState.dlmalloc at hq
    split at hq
    · next hs =>
      have hsize : requestSize bytes =
          if bytes < minRequest then minChunkSize else padRequest bytes := if_pos hs
      rw [← hsize] at hq
      exact hi.smallRequest_zero hnb hal (hsmall hs) hq
    · next hs =>
      have hsize : requestSize bytes = padRequest bytes := by
        unfold requestSize
        rw [if_neg hs, if_neg (Nat.not_le_of_lt hlt)]
      rw [if_neg (Nat.not_le_of_lt hlt), ← hsize] at hq
      refine hi.largeRequest_zero hsegs ?_ hal hlt64 hok hq
      rw [hsize]
      unfold maxSmallRequest at hs
      unfold padRequest
      omega
  obtain ⟨hdv, htop, href⟩ := hi.fallback_zero hnb hal hok (congrArg Prod.fst hbins.2)
  exact ⟨⟨hbins.1, hdv, htop⟩, href⟩

/-- The first segment is too small, and the system gives no other. -/
theorem heap_exhausted_large : ∃ as p, (heap .initial).Run (Legal .initial) as p ∧
    p.live = [⟨1048592, 24⟩] ∧
    (∃ closed, p.state.dlmalloc .initial ⟨none, none, true⟩ 70000 =
        some (0, p.state.closeContiguous closed)) ∧
      p.state.Exhausted (requestSize 70000) ∧
      p.state.Refused .initial ⟨none, none, true⟩ (requestSize 70000) := by
  have hone := (run_zero .initial).snoc (Legal.malloc_first 24 (by decide)) (heap_next _ rfl)
  exact ⟨_, _, hone, by decide +kernel,
    heap_exhausted 70000 hone (by decide +kernel) (by decide) (Legal.malloc_none 70000 true)
      (by decide +kernel)⟩

end Porpoise.Dlmalloc
