import Porpoise.Shim.Independence
import Porpoise.Shim.Pointers

/-!
# What `writev` gathers

The kernel's `writev` reads the array in `arg2`, and behind it the slot's
buffers and the blocks of `malloc_user`.

* `requests_vector`: the request of `readv` and `writev`, for every slot.
* `writev_segView`: every entry as the kernel reads it. Its bytes are the
  caller's; from the sixth segment on its length is what an earlier call left.
* `writev_gathers_iff`: the kernel gathers the caller's bytes exactly when these
  lengths happen to be the caller's.
-/

namespace Porpoise.Shim

open Porpoise.Lib

variable {c : Ctx} {K : Kernel} {n : Sysno} {u : UMem} {i : Nat}

/-! ## The request -/

/-- The request of a call with an array, with the caller's descriptor and
count. -/
def vectorRequest (c : Ctx) (n : Sysno) (l : List SegView) : Request :=
  ⟨.syscall n, [.scalar ((c.a1.setWidth 32).setWidth 64), .segs l,
    .scalar ((c.a3.setWidth 32).setWidth 64)]⟩

theorem requests_vector {ss : List Store} {data : Bool}
    (hphases : wrapPhases c n = [wrapSends c n])
    (hcase : unwrapCase n = [⟨.syscall n, [.long .arg1, .ptr .arg2, .long .arg3]⟩])
    (hparams : sysParams n = [.int, .iov data 2, .int])
    (hsends : wrapSends c n = sendInt .arg1 c.a1 :: ss ++ [sendInt .arg3 c.a3])
    (hss : ∀ s ∈ ss, s.dst ≠ .buf .arg1) (r : Word) (u : UMem) :
    requests c K r n u = [[vectorRequest c n (segViews (fun p => sent c n u (c.region p)) data
      (c.addr .arg2) (intCount c.a3))]] := by
  have hfirst : load32 (sent c n u (.buf .arg1)) 0 = c.a1.setWidth 32 := by
    rw [sent, hsends]
    exact load32_between_first hss _
  have hlast : load32 (sent c n u (.buf .arg3)) 0 = c.a3.setWidth 32 := by
    rw [sent, hsends]
    exact load32_between_last _
  rw [requests_eq hphases, hcase, List.map_cons, List.map_nil,
    vector_request (.syscall n) data hparams, hfirst, hlast]
  rfl

/-! ## The entries -/

/-- The length in the `i`-th entry of `writev`. -/
def writevLen (c : Ctx) (u : UMem) (i : Nat) : Word :=
  if i < 5 then iovLen c.mem c.a2 i else load64 (u (.buf .arg2)) (16 * i + 8)

theorem writev_entry_len (hi : i < intCount c.a3) (u : UMem) :
    load64 (applyAll (writevSends c) u (.buf .arg2)) (16 * i) = segPtr c i ∧
      load64 (applyAll (writevSends c) u (.buf .arg2)) (16 * i + 8) = writevLen c u i := by
  by_cases h5 : i < 5
  · rw [writevLen, if_pos h5]
    exact writev_entry hi h5 u
  · rw [writevLen, if_neg h5, segPtr, if_neg h5]
    have hsub : i - 5 + 5 = i := by omega
    have hbase := writev_base (c := c) (k := i - 5) (by omega) u
    rw [hsub] at hbase
    exact ⟨hbase, writev_len_stale (by omega) u⟩

/-- The segments from the sixth on are copied to their blocks. -/
theorem writev_block {k : Nat} (hk : k < intCount c.a3 - 5) (u : UMem) :
    applyAll (writevSends c) u (.heap (c.alloc k)) =
      overlay 0 (memcpyLen (iovLen c.mem c.a2 (k + 5))) (c.mem.at (iovBase c.mem c.a2 (k + 5)))
        (u (.heap (c.alloc k))) := by
  have hcount := intCount_lt c.a3
  unfold writevSends
  rw [applyAll_append, applyAll_flatMap_range_of_ne _ hk, writevRest]
  · have hfirst : applyAll ((List.range 5).flatMap (writevFirst c)) u (.heap (c.alloc k)) =
        u (.heap (c.alloc k)) := by
      refine applyAll_of_ne ?_ u
      simp only [List.forall_mem_flatMap, writevFirst, forall_mem_ite, List.forall_mem_cons]
      simp
    simp [hfirst]
  · intro j hj hjk
    -- the blocks of a call are different
    have hne : c.alloc j ≠ c.alloc k := fun h =>
      hjk (c.alloc_inj j (by omega) k (by omega) h)
    simp only [writevRest, List.forall_mem_cons]
    simp [hne]

/-- Every segment is copied to where its entry points. -/
theorem writev_data (hi : i < intCount c.a3) (u : UMem) :
    applyAll (writevSends c) u (c.region (segPtr c i)) =
      overlay 0 (memcpyLen (iovLen c.mem c.a2 i)) (c.mem.at (iovBase c.mem c.a2 i))
        (u (c.region (segPtr c i))) := by
  by_cases h5 : i < 5
  · rw [segPtr, if_pos h5, c.region_addr]
    exact writev_seg hi h5 u
  · rw [segPtr, if_neg h5, c.region_alloc]
    have hblock := writev_block (c := c) (k := i - 5) (by omega) u
    rwa [show i - 5 + 5 = i by omega] at hblock

theorem region_segPtr_ne_buf {b : Buf} (hb : b ∉ (List.range 5).map segBuf) (i : Nat) :
    c.region (segPtr c i) ≠ .buf b := by
  rw [segPtr]
  split
  · rw [c.region_addr]
    exact fun h => segBuf_ne hb i (Region.buf.inj h)
  · rw [c.region_alloc]
    exact heap_ne_buf _ _

/-- **An entry of `writev`** as the kernel reads it. -/
theorem writev_segView (hi : i < intCount c.a3) (u : UMem) :
    segView (fun p => sent c .writev u (c.region p)) true (c.addr .arg2) i =
      ⟨segPtr c i == 0, writevLen c u i, take (writevLen c u i).toNat
        (overlay 0 (memcpyLen (iovLen c.mem c.a2 i)) (c.mem.at (iovBase c.mem c.a2 i))
          (u (c.region (segPtr c i))))⟩ := by
  have hdata : sent c .writev u (c.region (segPtr c i)) =
      overlay 0 (memcpyLen (iovLen c.mem c.a2 i)) (c.mem.at (iovBase c.mem c.a2 i))
        (u (c.region (segPtr c i))) := by
    refine (applyAll_between (region_segPtr_ne_buf (by decide) i)
      (region_segPtr_ne_buf (by decide) i) _).trans ?_
    rw [writev_data hi, sendNr_apply, if_neg (region_segPtr_ne_buf (by decide) i)]
  have hlen : writevLen c ((sendNr .writev).apply u) i = writevLen c u i := by
    rw [writevLen, writevLen, sendNr_apply,
      if_neg (show Region.buf Buf.arg2 ≠ .buf .arg0 by decide)]
  obtain ⟨hbase, hentry⟩ := writev_entry_len hi ((sendNr .writev).apply u)
  simp only [segView, vector_array (n := .writev) rfl, hbase, hentry, hlen, hdata, if_true]

/-! ## What the kernel gathers -/

/-- The caller's segments. -/
def callerSegs (c : Ctx) : List SegView :=
  (List.range (intCount c.a3)).map (segView c.mem.at true c.a2)

/-- The kernel's `writev` gets the caller's descriptor and count, an entry that is
not `NULL` for each segment, with the caller's length and bytes; so the bytes in
a row are the caller's. -/
def Gathered (c : Ctx) (K : Kernel) (u : UMem) : Prop :=
  ∃ l, (∀ r, requests c K r .writev u = [[vectorRequest c .writev l]]) ∧
    (∀ s ∈ l, s.null = false) ∧
    l.map SegView.len = (callerSegs c).map SegView.len ∧
    l.map SegView.data = (callerSegs c).map SegView.data ∧
    l.flatMap SegView.data = (callerSegs c).flatMap SegView.data

/-- The lengths that earlier calls left in the array are the caller's. -/
def StaleLengthsMatch (c : Ctx) (u : UMem) : Prop :=
  ∀ i, 5 ≤ i → i < intCount c.a3 →
    load64 (u (.buf .arg2)) (16 * i + 8) = iovLen c.mem c.a2 i

theorem staleLengthsMatch_iff :
    StaleLengthsMatch c u ↔ ∀ i < intCount c.a3, writevLen c u i = iovLen c.mem c.a2 i := by
  constructor
  · intro h i hi
    rw [writevLen]
    split
    · rfl
    · exact h i (by omega) hi
  · intro h i h5 hi
    rw [← h i hi, writevLen, if_neg (by omega)]

theorem segPtr_ne_zero (halloc : ∀ k < intCount c.a3 - 5, c.alloc k ≠ 0)
    (hi : i < intCount c.a3) : segPtr c i ≠ 0 := by
  rw [segPtr]
  split
  · exact c.addr_ne _
  · exact halloc _ (by omega)

theorem requests_writev (r : Word) (hcount : intCount c.a3 ≤ 1024) (u : UMem) :
    requests c K r .writev u = [[vectorRequest c .writev ((List.range (intCount c.a3)).map
      (segView (fun p => sent c .writev u (c.region p)) true (c.addr .arg2)))]] := by
  rw [requests_vector rfl rfl rfl rfl (writevSends_ne (by decide) (by decide)), segViews,
    if_pos hcount]

/-- The kernel gathers the caller's bytes only if every length is the caller's. -/
theorem Gathered.writevLen (h : Gathered c K u) (hcount : intCount c.a3 ≤ 1024)
    (hi : i < intCount c.a3) : writevLen c u i = iovLen c.mem c.a2 i := by
  obtain ⟨l, hl, -, hlens, -⟩ := h
  have heq := (hl 0).symm.trans (requests_writev 0 hcount u)
  simp only [vectorRequest, List.cons.injEq, Request.mk.injEq, ArgView.segs.injEq, and_true,
    true_and] at heq
  rw [heq, callerSegs, List.map_map, List.map_map, List.map_inj_left] at hlens
  have hlen := hlens i (List.mem_range.mpr hi)
  simp only [Function.comp_apply, writev_segView hi] at hlen
  exact hlen

/-- **What `writev` gathers.** For every array of up to `UIO_MAXIOV` segments of up
to `BUF_SIZE` bytes and every slot: the kernel gathers the caller's bytes exactly
when the slot already held the lengths of the segments from the sixth on. -/
theorem writev_gathers_iff (c : Ctx) (K : Kernel) (u : UMem) (hcount : intCount c.a3 ≤ 1024)
    (hlen : ∀ i < intCount c.a3, (iovLen c.mem c.a2 i).toNat ≤ bufSize)
    (halloc : ∀ k < intCount c.a3 - 5, c.alloc k ≠ 0) :
    Gathered c K u ↔ StaleLengthsMatch c u := by
  rw [staleLengthsMatch_iff]
  constructor
  · exact fun h i hi => h.writevLen hcount hi
  · intro hmatch
    have hview : ∀ i ∈ List.range (intCount c.a3),
        segView (fun p => sent c .writev u (c.region p)) true (c.addr .arg2) i =
          { segView c.mem.at true c.a2 i with null := false } := by
      intro i hi
      have hlt := List.mem_range.mp hi
      have hbuf : bufSize < 2 ^ 31 := by decide
      have hcopy : memcpyLen (iovLen c.mem c.a2 i) = (iovLen c.mem c.a2 i).toNat :=
        memcpyLen_of_lt (Nat.lt_of_le_of_lt (hlen i hlt) hbuf)
      rw [writev_segView hlt, hmatch i hlt, beq_eq_false_iff_ne.mpr (segPtr_ne_zero halloc hlt),
        take_overlay (Nat.le_of_eq hcopy.symm)]
      rfl
    have hsegs := List.map_inj_left.mpr hview
    have hdata : ((List.range (intCount c.a3)).map
        (segView (fun p => sent c .writev u (c.region p)) true (c.addr .arg2))).map SegView.data =
          (callerSegs c).map SegView.data := by
      rw [hsegs, callerSegs, List.map_map, List.map_map]
      rfl
    refine ⟨_, fun r => requests_writev r hcount u, ?_, ?_, hdata, ?_⟩
    · rw [hsegs]
      simp
    · rw [hsegs, callerSegs, List.map_map, List.map_map]
      rfl
    · rw [List.flatMap_def, List.flatMap_def, hdata]

/-- `writev` of six segments of one byte each, all of them the byte at 8192. -/
def sixSegs : Ctx :=
  Ctx.plain 1 4096 6 0 0 0 fun p =>
    if p.toNat % 16 = 1 then 32 else if p.toNat % 16 = 8 then 1 else 0

theorem writev_gathers_six :
    Gathered sixSegs linux (fun _ _ => 0) ↔ StaleLengthsMatch sixSegs fun _ _ => 0 :=
  writev_gathers_iff sixSegs linux (fun _ _ => 0) (by decide) (by decide) (by decide)

/-- In a slot of zeros the kernel writes five bytes. -/
theorem writev_drops_sixth :
    intCount sixSegs.a3 = 6 ∧ (∀ i < 6, iovLen sixSegs.mem sixSegs.a2 i = 1) ∧
      ¬ Gathered sixSegs linux fun _ _ => 0 := by
  refine ⟨by decide, by decide, fun h => ?_⟩
  have hlen := h.writevLen (i := 5) (by decide) (by decide)
  exact absurd hlen (by decide)

end Porpoise.Shim
