import Porpoise.Dlmalloc.MallocCorrect
import Porpoise.Dlmalloc.FreeCorrect
import Porpoise.Lib.TSys

/-!
# The allocator in use

The program calls `dlmalloc` and `dlfree` and writes to the blocks that it has, in any order and
for as long as it likes; the system answers a request for memory as it likes, but for memory that
is in use. No run aborts, and the blocks that the program has lie apart.

* `heap`: calls and writes, one after another; `Legal`: what the program and the system keep to.
* `Good`: the invariant of the runs; `Good.malloc`, `Good.free`, `Good.write`: the steps.
* `heap_safe`: the blocks in every state that a run reaches.
-/

namespace Porpoise.Dlmalloc

open Porpoise.Lib Chunk

/-- The static `_gm_` before the first call, in any memory. -/
def MState.zeroed (t : Tags) : MState where
  toTags := t
  smallmap := 0
  treemap := 0
  smallbins _ := []
  treebins _ := .leaf
  index _ := 0
  corrupt := false
  dvsize := 0
  topsize := 0
  least_addr := 0
  dv := 0
  top := 0
  trim_check := 0
  release_checks := 0
  footprint := 0
  max_footprint := 0
  footprint_limit := 0
  use_noncontiguous := false
  segs := []

/-- A block that the program has: its address, and the bytes that were asked for. -/
structure Block where
  mem : ℕ
  bytes : ℕ
  deriving DecidableEq

def Block.fin (b : Block) : ℕ := b.mem + b.bytes

/-- The allocator, and the program that uses it. -/
structure Process where
  state : MState
  live : List Block
  aborted : Bool

/-- What happens: a call, with what the system answers meanwhile, or writes to memory. -/
inductive Call
  | malloc (bytes : ℕ) (g : Grant)
  | free (mem : ℕ) (g : Taken)
  | write (t : Tags)

namespace Process

def step (x : MParams) (p : Process) : Call → Process
  | .malloc bytes g =>
      match p.state.dlmalloc x g bytes with
      | none => { p with aborted := true }
      | some (mem, m) =>
          { state := m
            live := if mem = 0 then p.live else ⟨mem, bytes⟩ :: p.live
            aborted := m.corrupt }
  | .free mem g =>
      match p.state.dlfree x g mem with
      | none => { p with aborted := true }
      | some m =>
          { state := m, live := p.live.filter (·.mem ≠ mem), aborted := m.corrupt }
  | .write t => { p with state := { p.state with toTags := t } }

end Process

/-- The runs: after `ABORT` there is no step. -/
def heap (x : MParams) : TSys Process Call where
  init p := ∃ t, p = ⟨.zeroed t, [], false⟩
  next p a := if p.aborted then none else some (p.step x a)

/-- The mapping of a chunk, as `dlfree` reads it off the tags. -/
def Tags.mapping (t : Tags) (p : ℕ) : Mapping :=
  ⟨p - t.prev_foot p, t.chunksize p + t.prev_foot p + mmapFootPad, p, t.chunksize p⟩

def Process.mappings (p : Process) : List Mapping :=
  ((p.live.map fun b => mem2chunk b.mem).filter fun c => p.state.isMmapped c).map
    p.state.mapping

/-- The system gives memory that is not in use, the program frees blocks that it has, and it
writes to these only: a word changes when it lies in a block, or partly. -/
def Legal (x : MParams) (p : Process) : Call → Prop
  | .malloc bytes g => g.Ok x p.state p.mappings (requestSize bytes)
  | .free mem _ => mem = 0 ∨ ∃ b ∈ p.live, b.mem = mem
  | .write t => ∀ y,
      (t.head y ≠ p.state.head y → ∃ b ∈ p.live, b.mem < y + 16 ∧ y + 8 < b.fin) ∧
      (t.prev_foot y ≠ p.state.prev_foot y → ∃ b ∈ p.live, b.mem < y + 8 ∧ y < b.fin)

variable {x : MParams} {p : Process} {m : MState} {t t' : Tags} {segs : List Seg} {least a s : ℕ}
  {cs : List Chunk} {ks ks' : List Mapping} {c : Chunk} {k : Mapping} {live : List Block}
  {b b' : Block} {g : Grant}

/-! ## Blocks and what is around them -/

/-- A chunk that the program has lies apart from the others. -/
theorem Layout.chunk_apart (h : Layout t segs least cs ks) (hb : Blocks cs ks a s) (hc : c ∈ cs) :
    (c.addr = a ∧ c.size = s ∧ c.kind = .used) ∨ c.fin ≤ a ∨ a + s ≤ c.addr := by
  rcases hb with ⟨q, hmem⟩ | ⟨k, hk, rfl, rfl⟩
  · rcases h.arena.eq_or_apart hc hmem with rfl | hap
    · exact Or.inl ⟨rfl, rfl, rfl⟩
    · exact Or.inr hap
  · obtain ⟨r, hr, hbase, hfin, -⟩ := h.inside c hc
    have hok := h.map_ok k hk
    have hkb := hok.base_le
    have hkf := hok.fin_le
    have hap := h.map_seg k hk r hr
    refine Or.inr ?_
    omega

/-- A chunk that the program has is a mapping, or lies apart from it. -/
theorem Layout.mapping_apart (h : Layout t segs least cs ks) (hb : Blocks cs ks a s)
    (hk : k ∈ ks) : (a = k.addr ∧ s = k.size) ∨ a + s + 8 ≤ k.base ∨ k.fin ≤ a := by
  rcases hb with ⟨q, hmem⟩ | ⟨k', hk', rfl, rfl⟩
  · obtain ⟨r, hr, hbase, hfin, -⟩ := h.inside _ hmem
    have hap := h.map_seg k hk r hr
    change a + s + 8 ≤ r.fin at hfin
    change r.base ≤ a at hbase
    omega
  · by_cases heq : k' = k
    · exact Or.inl (heq ▸ ⟨rfl, rfl⟩)
    · have hap := h.map_apart.forall hk' hk heq
      have hok := h.map_ok k' hk'
      have hkb := hok.base_le
      have hkf := hok.fin_le
      unfold Apart at hap
      omega

/-- The tags change, but for those of the chunks and of the mappings. -/
theorem Layout.retag (h : Layout t segs least cs ks) (hc : ∀ c ∈ cs, Tagged t' c)
    (hk : ∀ k ∈ ks, k.Tagged t') : Layout t' segs least cs ks :=
  { h with
    arena := { h.arena with tagged := hc }
    map_tagged := hk }

/-- The tags of a mapping tell where it lies. -/
theorem Mapping.Tagged.mapping_eq (h : k.Tagged t) (hok : k.Ok least) :
    t.mapping k.addr = k := by
  have hbase := hok.base_le
  have hfin := hok.fin_eq
  unfold Mapping.fin at hfin
  obtain ⟨base, len, addr, size⟩ := k
  unfold Tags.mapping Tags.chunksize
  rw [h.head, h.foot]
  dsimp only at hbase hfin ⊢
  rw [Mapping.mk.injEq]
  omega

/-! ## The invariant -/

/-- The blocks are the chunks that are in use, each of which is large enough. -/
structure Holds (live : List Block) (cs : List Chunk) (ks : List Mapping) : Prop where
  sound : ∀ b ∈ live, ∃ s, Blocks cs ks (mem2chunk b.mem) s ∧ b.bytes + 8 ≤ s
  mem_gt : ∀ b ∈ live, 16 < b.mem
  complete : ∀ a s, Blocks cs ks a s → ∃ b ∈ live, b.mem = chunk2mem a
  distinct : live.Pairwise (·.mem ≠ ·.mem)

def Good (p : Process) : Prop :=
  p.aborted = false ∧ ∃ cs ks, Inv p.state cs ks ∧ Holds p.live cs ks

theorem Binned.zeroed {F : ℕ → ℕ → Prop} (hF : ∀ y s, ¬ F y s) :
    Binned (MState.zeroed t).toBins F := by
  refine ⟨fun i y => ⟨fun hy => ?_, fun ⟨s, hy, _⟩ => absurd hy (hF y s)⟩, fun i => ?_,
    fun i => ?_, fun i => ?_, fun i y hy => ?_, fun i key _ => .leaf, rfl⟩
  · cases i <;> cases hy
  · cases i <;> exact List.nodup_nil
  · simp [MState.zeroed]
  · simp [MState.zeroed]
  · cases hy

/-- Before the first call there is no chunk. -/
theorem Good.init (h : (heap x).init p) : Good p := by
  obtain ⟨t, rfl⟩ := h
  refine ⟨rfl, [], [], ⟨⟨⟨nofun, nofun, .nil, .nil, nofun⟩, nofun, .nil, nofun, nofun, nofun,
    nofun, nofun, .nil, nofun⟩, Or.inl ⟨rfl, rfl, rfl⟩, Or.inl ⟨rfl, rfl⟩, ?_⟩,
    ⟨nofun, nofun, ?_, .nil⟩⟩
  · exact Binned.zeroed fun y s hy => List.not_mem_nil hy.2
  · rintro a s (⟨q, hq⟩ | ⟨k, hk, -⟩)
    · cases hq
    · cases hk

/-- The mappings are those whose chunks the program has. -/
theorem Holds.mem_mappings (h : Inv p.state cs ks) (hl : Holds p.live cs ks) :
    k ∈ p.mappings ↔ k ∈ ks := by
  unfold Process.mappings
  simp only [List.mem_map, List.mem_filter]
  constructor
  · rintro ⟨c, ⟨⟨b, hb, rfl⟩, hmm⟩, rfl⟩
    obtain ⟨s, hs, -⟩ := hl.sound b hb
    rcases hs with ⟨q, hmem⟩ | ⟨k, hk, hka, -⟩
    · have hcin : p.state.cinuse (mem2chunk b.mem) = true := h.layout.cinuse_eq hmem
      unfold Tags.isMmapped at hmm
      rw [hcin] at hmm
      cases hmm
    · rw [← hka, (h.layout.map_tagged k hk).mapping_eq (h.layout.map_ok k hk)]
      exact hk
  · intro hk
    have htag := h.layout.map_tagged k hk
    obtain ⟨b, hb, hmem⟩ := hl.complete _ _ (Or.inr ⟨k, hk, rfl, rfl⟩)
    refine ⟨k.addr, ⟨⟨b, hb, ?_⟩, htag.flags.2.1⟩, htag.mapping_eq (h.layout.map_ok k hk)⟩
    rw [hmem]
    exact Nat.add_sub_cancel _ _

/-- What the system may give depends on where the mappings lie only. -/
theorem Grant.Ok.congr {nb : ℕ} (h : g.Ok x m ks nb) (hks : ∀ k ∈ ks', k ∈ ks) :
    g.Ok x m ks' nb := by
  have hfresh : ∀ {a b : ℕ}, Fresh m.segs ks a b → Fresh m.segs ks' a b := fun hf =>
    ⟨hf.seg, fun k hk => hf.map k (hks k hk)⟩
  refine ⟨fun mm hmm => ?_, fun s hs => ?_⟩
  · obtain ⟨hpos, hle, hf⟩ := h.direct mm hmm
    exact ⟨hpos, hle, hfresh hf⟩
  · obtain ⟨hgiven, hroom⟩ := h.range s hs
    exact ⟨{ hgiven with fresh := hfresh hgiven.fresh }, hroom⟩

/-! ## The steps -/

theorem Good.malloc {bytes : ℕ} (h : Good p) (hg : Legal x p (.malloc bytes g)) :
    Good (p.step x (.malloc bytes g)) := by
  obtain ⟨hab, cs, ks, hi, hl⟩ := h
  have hok : g.Ok x p.state ks (requestSize bytes) :=
    Grant.Ok.congr hg fun k hk => (hl.mem_mappings hi).mpr hk
  obtain ⟨⟨mem, m⟩, hq, hserved⟩ := hi.dlmalloc hok
  unfold Process.step
  dsimp only
  rw [hq]
  dsimp only
  rcases hserved with ⟨closed, heq⟩ | ⟨hlt, cs', ks', size, hi', hsize, hmem, hnew, hblocks⟩
  · cases heq
    exact ⟨hi.bins.sound, cs, ks, hi.closeContiguous closed, hl⟩
  have hne : mem ≠ 0 := by
    dsimp only at hmem
    omega
  have hback : chunk2mem (mem2chunk mem) = mem := Nat.sub_add_cancel (Nat.le_of_lt hmem)
  rw [if_neg hne]
  refine ⟨hi'.bins.sound, cs', ks', hi', ⟨fun b hb => ?_, fun b hb => ?_, fun a s hs => ?_, ?_⟩⟩
  · rcases List.mem_cons.mp hb with rfl | hb
    · have hbytes := (requestSize_spec hlt).2.2.1
      exact ⟨size, (hblocks _ _).mpr (Or.inr ⟨rfl, rfl⟩), Nat.le_trans hbytes hsize⟩
    · obtain ⟨s, hs, hle⟩ := hl.sound b hb
      exact ⟨s, (hblocks _ _).mpr (Or.inl hs), hle⟩
  · rcases List.mem_cons.mp hb with rfl | hb
    · exact hmem
    · exact hl.mem_gt b hb
  · rcases (hblocks a s).mp hs with hs | ⟨rfl, -⟩
    · obtain ⟨b, hb, hbm⟩ := hl.complete a s hs
      exact ⟨b, List.mem_cons_of_mem _ hb, hbm⟩
    · exact ⟨_, List.mem_cons_self, hback.symm⟩
  · refine List.pairwise_cons.mpr ⟨fun b hb heq => ?_, hl.distinct⟩
    obtain ⟨s, hs, -⟩ := hl.sound b hb
    change mem = b.mem at heq
    rw [← heq] at hs
    exact hnew s hs

theorem Good.free {mem : ℕ} {g : Taken} (h : Good p) (hg : Legal x p (.free mem g)) :
    Good (p.step x (.free mem g)) := by
  obtain ⟨hab, cs, ks, hi, hl⟩ := h
  unfold Process.step
  dsimp only
  rcases hg with rfl | ⟨b, hb, rfl⟩
  · have hq : p.state.dlfree x g 0 = some p.state := rfl
    have hall : p.live.filter (·.mem ≠ 0) = p.live := by
      refine List.filter_eq_self.mpr fun b hb => decide_eq_true ?_
      have hgt := hl.mem_gt b hb
      omega
    rw [hq]
    dsimp only
    rw [hall]
    exact ⟨hi.bins.sound, cs, ks, hi, hl⟩
  · obtain ⟨s, hs, -⟩ := hl.sound b hb
    have hgt := hl.mem_gt b hb
    obtain ⟨m', hq, cs', ks', hi', hblocks⟩ := hi.dlfree (x := x) g hs
    rw [show chunk2mem (mem2chunk b.mem) = b.mem from Nat.sub_add_cancel (Nat.le_of_lt hgt)] at hq
    rw [hq]
    refine ⟨hi'.bins.sound, cs', ks', hi', ⟨fun d hd => ?_, fun d hd => ?_, fun a s hs => ?_, ?_⟩⟩
    · obtain ⟨hd, hne⟩ := List.mem_filter.mp hd
      obtain ⟨s', hs', hle⟩ := hl.sound d hd
      have hgtd := hl.mem_gt d hd
      refine ⟨s', (hblocks _ _).mpr ⟨hs', fun heq => of_decide_eq_true hne ?_⟩, hle⟩
      unfold mem2chunk at heq
      omega
    · exact hl.mem_gt d (List.mem_filter.mp hd).1
    · obtain ⟨hs, hne⟩ := (hblocks a s).mp hs
      obtain ⟨d, hd, hdm⟩ := hl.complete a s hs
      refine ⟨d, List.mem_filter.mpr ⟨hd, decide_eq_true fun heq => hne ?_⟩, hdm⟩
      rw [← heq, hdm]
      exact (Nat.add_sub_cancel _ _).symm
    · exact hl.distinct.filter _

/-- The program writes to its blocks, and no tag of a chunk lies in one. -/
theorem Good.write (h : Good p) (hg : Legal x p (.write t)) : Good (p.step x (.write t)) := by
  obtain ⟨hab, cs, ks, hi, hl⟩ := h
  have hin : ∀ b ∈ p.live, ∃ s, Blocks cs ks (b.mem - 16) s ∧ 16 < b.mem ∧
      b.fin ≤ b.mem - 16 + s + 8 := by
    intro b hb
    obtain ⟨s, hs, hle⟩ := hl.sound b hb
    have hgt := hl.mem_gt b hb
    refine ⟨s, hs, hgt, ?_⟩
    unfold Block.fin
    omega
  have hhead : ∀ y, (∀ b ∈ p.live, ¬ (b.mem < y + 16 ∧ y + 8 < b.fin)) →
      t.head y = p.state.head y := fun y hy => by
    by_contra hne
    obtain ⟨b, hb, hlt⟩ := (hg y).1 hne
    exact hy b hb hlt
  have hfoot : ∀ y, (∀ b ∈ p.live, ¬ (b.mem < y + 8 ∧ y < b.fin)) →
      t.prev_foot y = p.state.prev_foot y := fun y hy => by
    by_contra hne
    obtain ⟨b, hb, hlt⟩ := (hg y).2 hne
    exact hy b hb hlt
  refine ⟨hab, cs, ks, ⟨hi.layout.retag (fun c hc => ?_) fun k hk => ?_, hi.topped, hi.victim,
    hi.bins⟩, hl⟩
  · have htag := hi.layout.arena.tagged c hc
    have hshape := hi.layout.arena.shape c hc
    have hlt := hshape.lt_fin
    refine ⟨(hhead _ fun b hb hmeet => ?_).trans htag.1, fun hk =>
      (hfoot _ fun b hb hmeet => ?_).trans (htag.2 hk)⟩
    · obtain ⟨s, hs, hgt, hfin⟩ := hin b hb
      have hap := hi.layout.chunk_apart hs hc
      omega
    · obtain ⟨s, hs, hgt, hfin⟩ := hin b hb
      have hmin := hshape.min (by rw [hk]; exact nofun) (by rw [hk]; exact nofun)
      have hcf : c.fin = c.addr + c.size := rfl
      unfold minChunkSize at hmin
      rcases hi.layout.chunk_apart hs hc with ⟨-, -, hku⟩ | hap
      · rw [hk] at hku
        cases hku
      · omega
  · have htag := hi.layout.map_tagged k hk
    have hok := hi.layout.map_ok k hk
    have hbase := hok.base_le
    have hfin := hok.fin_le
    have hfar : ∀ b ∈ p.live, 16 < b.mem ∧ ((b.mem = k.addr + 16 ∧ b.fin ≤ k.addr + k.size + 8) ∨
        b.fin ≤ k.base ∨ k.fin + 16 ≤ b.mem) := by
      intro b hb
      obtain ⟨s, hs, hgt, hle⟩ := hin b hb
      have hap := hi.layout.mapping_apart hs hk
      omega
    refine ⟨(hhead _ fun b hb hmeet => ?_).trans htag.head,
      (hfoot _ fun b hb hmeet => ?_).trans htag.foot,
      (hhead _ fun b hb hmeet => ?_).trans htag.fence,
      (hhead _ fun b hb hmeet => ?_).trans htag.last⟩
    all_goals
      have hf := hfar b hb
      omega

/-- **A step keeps the invariant.** -/
theorem Good.step (p : Process) (a : Call) (p' : Process) (h : Good p) (hg : Legal x p a)
    (hn : (heap x).next p a = some p') : Good p' := by
  have hp' : p.step x a = p' := by
    unfold heap at hn
    dsimp only at hn
    rw [h.1] at hn
    exact Option.some.inj hn
  rw [← hp']
  cases a with
  | malloc bytes g => exact h.malloc hg
  | free mem g => exact h.free hg
  | write t => exact h.write hg

/-! ## Every run -/

/-- Two blocks lie apart, and so do the chunks that they are in. -/
theorem Holds.apart (h : Inv m cs ks) (hl : Holds live cs ks) :
    live.Pairwise (Apart Block.mem Block.fin) := by
  refine hl.distinct.imp_of_mem fun {b b'} hb hb' hne => ?_
  obtain ⟨s, hs, hle⟩ := hl.sound b hb
  obtain ⟨s', hs', hle'⟩ := hl.sound b' hb'
  have hgt := hl.mem_gt b hb
  have hgt' := hl.mem_gt b' hb'
  unfold mem2chunk at hs hs'
  unfold Apart Block.fin
  rcases hs' with ⟨q, hmem⟩ | ⟨k, hk, hka, hks⟩
  · have hap := h.layout.chunk_apart hs hmem
    unfold Chunk.fin at hap
    dsimp only at hap
    omega
  · have hap := h.layout.mapping_apart hs hk
    have hok := h.layout.map_ok k hk
    have hbase := hok.base_le
    have hfin := hok.fin_le
    omega

theorem Good.of_run {as : List Call} (hr : (heap x).Run (Legal x) as p) : Good p :=
  hr.invariant (fun _ h => Good.init h) Good.step

/-- **No run aborts**, whatever the program asks for and whatever the system answers; the blocks
are aligned, lie apart and are in chunks that are large enough. -/
theorem heap_safe {as : List Call} (hr : (heap x).Run (Legal x) as p) :
    p.aborted = false ∧
      (∀ b ∈ p.live, 16 ∣ b.mem ∧ b.bytes + 8 ≤ p.state.chunksize (mem2chunk b.mem)) ∧
      p.live.Pairwise (Apart Block.mem Block.fin) := by
  obtain ⟨hab, cs, ks, hi, hl⟩ := Good.of_run hr
  refine ⟨hab, fun b hb => ?_, hl.apart hi⟩
  obtain ⟨s, hs, hle⟩ := hl.sound b hb
  have hgt := hl.mem_gt b hb
  have hmem : mem2chunk b.mem = b.mem - 16 := rfl
  rcases hs with ⟨q, hc⟩ | ⟨k, hk, hka, rfl⟩
  · have hsize : p.state.chunksize (mem2chunk b.mem) = s := hi.layout.chunksize_eq hc
    have hal : 16 ∣ mem2chunk b.mem := ((hi.layout.arena.shape _ hc).aligned (by exact nofun)).1
    rw [hsize]
    exact ⟨by omega, hle⟩
  · have hsize : p.state.chunksize k.addr = k.size := by
      unfold Tags.chunksize
      rw [(hi.layout.map_tagged k hk).head]
    have hal := (hi.layout.map_ok k hk).aligned
    rw [← hka, hsize]
    exact ⟨by omega, hle⟩

/-- The step that is taken when no call has aborted. -/
theorem heap_next (a : Call) (h : p.aborted = false) :
    (heap x).next p a = some (p.step x a) := by
  unfold heap
  dsimp only
  rw [h]
  rfl

/-- The system gives nothing. -/
theorem Legal.malloc_none (bytes : ℕ) (closed : Bool) :
    Legal x p (.malloc bytes ⟨none, none, closed⟩) := ⟨nofun, nofun⟩

theorem Legal.free_live (mem : ℕ) (g : Taken) (h : ∃ b ∈ p.live, b.mem = mem) :
    Legal x p (.free mem g) := Or.inr h

/-- `mparams` on a machine with pages of 4096 bytes. -/
def MParams.initial : MParams where
  page_size := 4096
  granularity := 65536
  mmap_threshold := 262144
  trim_threshold := 2097152
  page_pos := by decide
  page_le := by decide
  page_dvd := by decide
  granularity_dvd := by decide

/-- The program before its first call, in memory that is 0. -/
def Process.zero : Process :=
  ⟨.zeroed ⟨fun _ => ⟨0, false, false⟩, fun _ => 0⟩, [], false⟩

theorem run_zero (x : MParams) : (heap x).Run (Legal x) [] Process.zero := .nil ⟨_, rfl⟩

/-- A first range from the system. -/
theorem Legal.malloc_first (bytes : ℕ) (h : requestSize bytes + sysAllocPadding ≤ 65536) :
    Legal x Process.zero (.malloc bytes ⟨none, some ⟨1048576, 65536, false⟩, false⟩) := by
  refine ⟨nofun, ?_⟩
  rintro s ⟨⟩
  exact ⟨⟨by decide, by decide, by decide, nofun, ⟨nofun, nofun⟩⟩, Nat.le_add_right_of_le h⟩

/-- Two blocks from the first segment, of which one is freed again. -/
theorem heap_safe_free : ∃ as p, (heap .initial).Run (Legal .initial) as p ∧
    p.live = [⟨1048624, 100⟩] ∧ p.aborted = false ∧
      (∀ b ∈ p.live, 16 ∣ b.mem ∧ b.bytes + 8 ≤ p.state.chunksize (mem2chunk b.mem)) ∧
      p.live.Pairwise (Apart Block.mem Block.fin) := by
  have hone := (run_zero .initial).snoc (Legal.malloc_first 24 (by decide)) (heap_next _ rfl)
  have htwo := hone.snoc (Legal.malloc_none 100 true) (heap_next _ (by decide +kernel))
  have hthree := htwo.snoc
    (Legal.free_live 1048592 ⟨true, true, fun _ => true⟩ (by decide +kernel))
    (heap_next _ (by decide +kernel))
  exact ⟨_, _, hthree, by decide +kernel, heap_safe hthree⟩

end Porpoise.Dlmalloc
