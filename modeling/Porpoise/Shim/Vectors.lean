import Mathlib.Tactic.IntervalCases
import Porpoise.Shim.Call

/-!
# Arrays of segments and messages in the slot

`readv` and `writev` build their array in `arg2`; the first five segments lie in
`arg4` to `arg8`, the others in blocks. `sendmsg` and `recvmsg` build a `msghdr`
in `arg2` that only points to blocks.

* `readv_entry`, `writev_entry`: the base and the length of every segment that
  gets both. From its sixth segment on `writev` stores no length
  (`writev_len_unsent`).
* `msg_header`, `msg_entry`: where the pointers of a message lead.
* `msg_name`, `msg_segData`, `msg_control`: what is written to its blocks.
-/

namespace Porpoise.Shim

open Porpoise.Lib

variable {c : Ctx} {u : UMem} {i : Nat} {r : Region}

/-- Where the `i`-th segment lies. -/
def segPtr (c : Ctx) (i : Nat) : Word :=
  if i < 5 then c.addr (segBuf i) else c.alloc (i - 5)

/-- The length of the `i`-th segment that `readv` asks for. -/
def readvLen (c : Ctx) (i : Nat) : Word :=
  if i < 5 then iovLen c.mem c.a2 i
  else ((iovLen c.mem c.a2 i).setWidth 32).signExtend 64

theorem segBuf_ne_arg2 (i : Nat) : segBuf i ≠ .arg2 := segBuf_ne (by decide) i

/-- The segments lie outside the array. -/
theorem region_segPtr_ne (i : Nat) : c.region (segPtr c i) ≠ .buf .arg2 := by
  rw [segPtr]
  split
  · rw [c.region_addr]
    exact fun h => segBuf_ne_arg2 i (Region.buf.inj h)
  · rw [c.region_alloc]
    exact heap_ne_buf _ _

theorem segBuf_inj {i j : Nat} (hi : i < 5) (hj : j < 5) (h : segBuf i = segBuf j) : i = j := by
  revert h
  interval_cases i <;> interval_cases j <;> decide

/-- An entry that is stored, length first. -/
theorem load64_entry {f : Bytes} {o : Nat} {base len : Word}
    (h : ∃ v, ∀ k, o ≤ k ∧ k < o + 16 →
      f k = applyAll [putAt r (o + 8) len, putAt r o base] v r k) :
    load64 f o = base ∧ load64 f (o + 8) = len := by
  obtain ⟨v, h⟩ := h
  constructor
  · rw [load64_congr (p := o) fun j hj => h (o + j) (by omega)]
    simp [load64_overlay_self]
  · rw [load64_congr (p := o + 8) fun j hj => h (o + 8 + j) (by omega)]
    simp [load64_overlay_of_disjoint, load64_overlay_self]

theorem readvFirst_within (c : Ctx) (j : Nat) : ∀ s ∈ readvFirst c j, s.dst = .buf .arg2 →
    0 + 16 * j ≤ s.off ∧ s.off + s.size ≤ 0 + 16 * (j + 1) := by
  simp only [readvFirst, forall_mem_ite, List.forall_mem_cons]
  simp [putAt]
  omega

theorem readvRest_within (c : Ctx) (k : Nat) : ∀ s ∈ readvRest c k, s.dst = .buf .arg2 →
    80 + 16 * k ≤ s.off ∧ s.off + s.size ≤ 80 + 16 * (k + 1) := by
  simp only [readvRest, List.forall_mem_cons]
  simp [putAt]
  omega

/-- **The array of `readv`** has the caller's length and a buffer of its own for
every segment. -/
theorem readv_entry (hi : i < intCount c.a3) (u : UMem) :
    load64 (applyAll (readvSends c) u (.buf .arg2)) (16 * i) = segPtr c i ∧
      load64 (applyAll (readvSends c) u (.buf .arg2)) (16 * i + 8) = readvLen c i := by
  refine load64_entry (r := .buf .arg2) ?_
  unfold readvSends
  rw [applyAll_append]
  by_cases h5 : i < 5
  · rw [segPtr, readvLen, if_pos h5, if_pos h5]
    refine ⟨applyAll ((List.range i).flatMap (readvFirst c)) u, fun k hk => ?_⟩
    -- the second loop starts behind the entry
    rw [applyAll_of_not_writes,
      applyAll_flatMap_range (fun j _ => readvFirst_within c j) h5 (by omega), readvFirst,
      if_pos hi]
    rintro s hs ⟨hdst, hw⟩
    obtain ⟨j, -, hs⟩ := List.mem_flatMap.mp hs
    have hwithin := readvRest_within c j s hs hdst
    omega
  · rw [segPtr, readvLen, if_neg h5, if_neg h5]
    refine ⟨applyAll ((List.range (i - 5)).flatMap (readvRest c))
      (applyAll ((List.range 5).flatMap (readvFirst c)) u), fun k hk => ?_⟩
    have hsub : i - 5 + 5 = i := by omega
    rw [applyAll_flatMap_range (i := i - 5) (fun j _ => readvRest_within c j) (by omega)
      (by omega), readvRest, hsub]

theorem writevFirst_within (c : Ctx) (j : Nat) : ∀ s ∈ writevFirst c j, s.dst = .buf .arg2 →
    0 + 16 * j ≤ s.off ∧ s.off + s.size ≤ 0 + 16 * (j + 1) := by
  simp only [writevFirst, forall_mem_ite, List.forall_mem_cons]
  simp [putAt, segBuf_ne_arg2]
  omega

theorem writevRest_within (c : Ctx) (k : Nat) : ∀ s ∈ writevRest c k, s.dst = .buf .arg2 →
    80 + 16 * k ≤ s.off ∧ s.off + s.size ≤ 80 + 16 * k + 8 := by
  simp only [writevRest, List.forall_mem_cons]
  simp [putAt]
  omega

/-- **The array of `writev`** has both fields of the segments up to the fifth. -/
theorem writev_entry (hi : i < intCount c.a3) (h5 : i < 5) (u : UMem) :
    load64 (applyAll (writevSends c) u (.buf .arg2)) (16 * i) = segPtr c i ∧
      load64 (applyAll (writevSends c) u (.buf .arg2)) (16 * i + 8) = iovLen c.mem c.a2 i := by
  rw [segPtr, if_pos h5]
  refine load64_entry (r := .buf .arg2)
    ⟨applyAll ((List.range i).flatMap (writevFirst c)) u, fun k hk => ?_⟩
  unfold writevSends
  rw [applyAll_append]
  -- the second loop starts behind the entry
  rw [applyAll_of_not_writes,
    applyAll_flatMap_range (fun j _ => writevFirst_within c j) h5 (by omega), writevFirst,
    if_pos hi]
  · have hne : Region.buf .arg2 ≠ .buf (segBuf i) :=
      fun h => segBuf_ne_arg2 i (Region.buf.inj h).symm
    simp [hne]
  · rintro s hs ⟨hdst, hw⟩
    obtain ⟨j, -, hs⟩ := List.mem_flatMap.mp hs
    have hwithin := writevRest_within c j s hs hdst
    omega

/-- The segments up to the fifth are copied to their buffers. -/
theorem writev_seg (hi : i < intCount c.a3) (h5 : i < 5) (u : UMem) :
    applyAll (writevSends c) u (.buf (segBuf i)) =
      overlay 0 (memcpyLen (iovLen c.mem c.a2 i)) (c.mem.at (iovBase c.mem c.a2 i))
        (u (.buf (segBuf i))) := by
  have hne : segBuf i ≠ .arg2 := segBuf_ne_arg2 i
  unfold writevSends
  rw [applyAll_append, applyAll_of_ne, applyAll_flatMap_range_of_ne _ h5, writevFirst, if_pos hi]
  · simp [hne]
  · intro j hj hji
    have hseg : segBuf j ≠ segBuf i := fun h => hji (segBuf_inj hj h5 h)
    simp only [writevFirst, forall_mem_ite, List.forall_mem_cons]
    simp [hseg, hne.symm]
  · simp only [List.forall_mem_flatMap, writevRest, List.forall_mem_cons]
    simp [hne.symm]

/-- The segments from the sixth on have their bases. -/
theorem writev_base {k : Nat} (hk : k < intCount c.a3 - 5) (u : UMem) :
    load64 (applyAll (writevSends c) u (.buf .arg2)) (16 * (k + 5)) = c.alloc k := by
  have hwithin : ∀ j < intCount c.a3 - 5, ∀ s ∈ writevRest c j, s.dst = .buf .arg2 →
      80 + 16 * j ≤ s.off ∧ s.off + s.size ≤ 80 + 16 * (j + 1) := by
    intro j _ s hs hdst
    have hin := writevRest_within c j s hs hdst
    omega
  unfold writevSends
  rw [applyAll_append, load64_congr (p := 16 * (k + 5)) fun j hj =>
    applyAll_flatMap_range hwithin hk (by omega) _]
  simp [writevRest, load64_overlay_self]

/-- Nothing stores the lengths of the segments from the sixth on. -/
theorem writev_len_stale (h5 : 5 ≤ i) (u : UMem) :
    load64 (applyAll (writevSends c) u (.buf .arg2)) (16 * i + 8) =
      load64 (u (.buf .arg2)) (16 * i + 8) := by
  refine load64_congr fun j hj => applyAll_of_not_writes ?_ u
  rintro s hs ⟨hdst, hw⟩
  rcases List.mem_append.mp hs with hs | hs
  · obtain ⟨k, hk, hs⟩ := List.mem_flatMap.mp hs
    have hwithin := writevFirst_within c k s hs hdst
    have hlt := List.mem_range.mp hk
    omega
  · obtain ⟨k, -, hs⟩ := List.mem_flatMap.mp hs
    have hwithin := writevRest_within c k s hs hdst
    omega

theorem writev_len_unsent (u : UMem) :
    load64 (applyAll (writevSends c) u (.buf .arg2)) 88 = load64 (u (.buf .arg2)) 88 :=
  writev_len_stale (i := 5) (by decide) u

/-! ## Messages -/

/-- Where the name, the array and the control data of a message lie. -/
def msgNamePtr (c : Ctx) : Word := if msgNamelen c.mem c.a2 = 0 then 0 else c.alloc 0

def msgIovPtr (c : Ctx) : Word :=
  if msgIovlen c.mem c.a2 = 0 then 0 else c.alloc (msgNameBlocks c)

def msgControlPtr (c : Ctx) : Word :=
  if msgControllen c.mem c.a2 = 0 then 0 else c.alloc (msgIovBlocks c)

/-- The `msghdr` over `f`. -/
def msgHeader (c : Ctx) (f : Bytes) : Bytes :=
  overlay 48 4 (le64 (msgFlags c.mem c.a2)) <|
  overlay 32 8 (le64 (msgControlPtr c)) <| overlay 40 4 (le64 (msgControllen c.mem c.a2)) <|
  overlay 16 8 (le64 (msgIovPtr c)) <| overlay 24 4 (le64 (msgIovlen c.mem c.a2)) <|
  overlay 0 8 (le64 (msgNamePtr c)) <| overlay 8 4 (le64 (msgNamelen c.mem c.a2)) <|
  overlay 0 sizeofMsghdr (fun _ => 0) f

/-- A pointer that is set to `NULL` or to a block, and the writes to blocks that
come with it. -/
theorem applyAll_pointer {p : Prop} [Decidable p] {off : Nat} {a : Word} {rest : List Store}
    (hrest : ∀ s ∈ rest, s.dst ≠ r) (u : UMem) :
    applyAll (if p then [putAt r off 0] else putAt r off a :: rest) u r =
      overlay off 8 (le64 (if p then 0 else a)) (u r) := by
  by_cases h : p
  · simp [h]
  · rw [if_neg h, if_neg h, applyAll_cons, applyAll_of_ne hrest]
    simp

/-- Another region. -/
theorem applyAll_pointer_of_ne {p : Prop} [Decidable p] {q : Region} {off : Nat} {a : Word}
    {rest : List Store} (hrest : ∀ s ∈ rest, s.dst ≠ r) (hne : r ≠ q) (u : UMem) :
    applyAll (if p then [putAt q off 0] else putAt q off a :: rest) u r = u r := by
  refine applyAll_of_ne (fun s hs => ?_) u
  split at hs
  · rw [List.mem_singleton.mp hs]
    exact hne.symm
  · rcases List.mem_cons.mp hs with rfl | hs
    · exact hne.symm
    · exact hrest s hs

/-- The parts of a message go to blocks. -/
theorem msgPart_dst_buf {data : Bool} {a size : Word} {v : Bytes} {b : Buf} :
    ∀ s ∈ (if data then [send (.heap a) v size] else []), s.dst ≠ .buf b := by
  intro s hs
  split at hs
  · rw [List.mem_singleton.mp hs]
    simp
  · cases hs

theorem msgSegs_dst_buf {c : Ctx} {data : Bool} {k : Nat} {b : Buf} :
    ∀ s ∈ (List.range k).flatMap (msgSegSends c data), s.dst ≠ .buf b := by
  simp only [List.forall_mem_flatMap, msgSegSends, List.forall_mem_append, List.forall_mem_cons,
    forall_mem_ite]
  simp

/-- **The message header** that the host reads. -/
theorem msg_header (c : Ctx) (data : Bool) (u : UMem) :
    applyAll (msgSends c data) u (.buf .arg2) = msgHeader c (u (.buf .arg2)) := by
  unfold msgSends
  simp only [applyAll_append, applyAll_cons, applyAll_nil]
  simp only [sendLong_apply, putIntAt_apply, Region.buf.injEq, reduceCtorEq, if_false, if_true]
  rw [applyAll_pointer msgPart_dst_buf, putIntAt_apply, if_pos rfl,
    applyAll_pointer msgSegs_dst_buf, putIntAt_apply, if_pos rfl,
    applyAll_pointer msgPart_dst_buf, putIntAt_apply, if_pos rfl, sendLong_apply,
    if_neg (show Region.buf Buf.arg2 ≠ .buf .arg1 by decide), apply_eq, if_pos rfl]
  rfl

/-- The descriptor, which is sent before the parts. -/
theorem msg_first (c : Ctx) (data : Bool) (u : UMem) :
    applyAll (msgSends c data) u (.buf .arg1) = overlay 0 8 (le64 c.a1) (u (.buf .arg1)) := by
  have hne : Region.buf .arg1 ≠ .buf .arg2 := by decide
  unfold msgSends
  simp only [applyAll_append, applyAll_cons, applyAll_nil]
  rw [sendLong_apply, if_neg (by decide), putIntAt_apply, if_neg hne,
    applyAll_pointer_of_ne msgPart_dst_buf hne, putIntAt_apply, if_neg hne,
    applyAll_pointer_of_ne msgSegs_dst_buf hne, putIntAt_apply, if_neg hne,
    applyAll_pointer_of_ne msgPart_dst_buf hne, putIntAt_apply, if_neg hne, sendLong_apply,
    if_pos rfl]
  simp [apply_eq]

/-- The flags, which are sent last. -/
theorem msg_last (c : Ctx) (data : Bool) (u : UMem) :
    load32 (applyAll (msgSends c data) u (.buf .arg3)) 0 = c.a3.setWidth 32 := by
  unfold msgSends
  rw [applyAll_append, applyAll_cons, applyAll_cons, applyAll_nil, sendLong_apply, if_pos rfl,
    load32_overlay_zero (by decide), load32_le64]

theorem msgNameBlocks_le (c : Ctx) : msgNameBlocks c ≤ 1 := by
  unfold msgNameBlocks
  split <;> decide

/-- The blocks of the segments are not the block of the array. -/
theorem segBlock_ne (hi : i < intCount (msgIovlen c.mem c.a2)) :
    c.alloc (msgNameBlocks c + 1 + i) ≠ c.alloc (msgNameBlocks c) := by
  intro h
  have hname := msgNameBlocks_le c
  have hcount := intCount_lt (msgIovlen c.mem c.a2)
  have hinj := c.alloc_inj _ (by omega) _ (by omega) h
  omega

theorem msgSegSends_within (data : Bool) {j : Nat} (hj : j < intCount (msgIovlen c.mem c.a2)) :
    ∀ s ∈ msgSegSends c data j, s.dst = .heap (c.alloc (msgNameBlocks c)) →
      0 + 16 * j ≤ s.off ∧ s.off + s.size ≤ 0 + 16 * (j + 1) := by
  simp only [msgSegSends, List.forall_mem_append, List.forall_mem_cons, forall_mem_ite]
  simp [putAt, segBlock_ne hj]
  omega

/-! ## The blocks of a message -/

theorem msgNameBlocks_eq (h : msgNamelen c.mem c.a2 ≠ 0) : msgNameBlocks c = 1 := if_neg h

theorem msgNameBlocks_le_iov (c : Ctx) : msgNameBlocks c ≤ msgIovBlocks c := Nat.le_add_right ..

theorem msgIovBlocks_eq (h : msgIovlen c.mem c.a2 ≠ 0) :
    msgIovBlocks c = msgNameBlocks c + (1 + intCount (msgIovlen c.mem c.a2)) := by
  rw [msgIovBlocks, if_neg h]

theorem msgIovlen_ne_zero (hi : i < intCount (msgIovlen c.mem c.a2)) :
    msgIovlen c.mem c.a2 ≠ 0 := by
  intro h
  have hzero : intCount 0 = 0 := by decide
  rw [h, hzero] at hi
  omega

/-- A message has fewer blocks than a call may allocate. -/
theorem msgIovBlocks_lt (c : Ctx) : msgIovBlocks c < 2 ^ 32 := by
  have hname := msgNameBlocks_le c
  have hcount := intCount_lt (msgIovlen c.mem c.a2)
  unfold msgIovBlocks
  split <;> omega

/-- The blocks of a message are different. -/
theorem msgBlock_ne {j k : Nat} (hj : j ≤ msgIovBlocks c) (hk : k ≤ msgIovBlocks c) (h : j ≠ k) :
    c.alloc j ≠ c.alloc k := by
  intro heq
  have hlt := msgIovBlocks_lt c
  exact h (c.alloc_inj _ (by omega) _ (by omega) heq)

section Elsewhere

variable {a : Word}

/-- A pointer in the header, and writes to other blocks. -/
theorem msgPointer_dst {w p : Word} {off : Nat} {rest : List Store}
    (h : w ≠ 0 → ∀ s ∈ rest, s.dst ≠ .heap a) :
    ∀ s ∈ (if w = 0 then [putAt (.buf .arg2) off 0] else putAt (.buf .arg2) off p :: rest),
      s.dst ≠ .heap a := by
  split
  case isTrue => simp
  case isFalse hw => exact List.forall_mem_cons.mpr ⟨by simp, h hw⟩

theorem blockSend_dst {v : Bytes} {w a' : Word} (h : a' ≠ a) :
    ∀ s ∈ [send (.heap a') v w], s.dst ≠ .heap a := by
  simp [h]

theorem msgSegSends_dst {data : Bool} {j : Nat} (harray : c.alloc (msgNameBlocks c) ≠ a)
    (hbase : c.alloc (msgNameBlocks c + 1 + j) ≠ a) :
    ∀ s ∈ msgSegSends c data j, s.dst ≠ .heap a := by
  simp only [msgSegSends, List.forall_mem_append, forall_mem_ite, List.forall_mem_cons]
  simp [harray, hbase]

theorem msgSegs_dst {data : Bool} (harray : c.alloc (msgNameBlocks c) ≠ a)
    (hbase : ∀ j < intCount (msgIovlen c.mem c.a2), c.alloc (msgNameBlocks c + 1 + j) ≠ a) :
    ∀ s ∈ (List.range (intCount (msgIovlen c.mem c.a2))).flatMap (msgSegSends c data),
      s.dst ≠ .heap a := by
  rw [List.forall_mem_flatMap]
  exact fun j hj => msgSegSends_dst harray (hbase j (List.mem_range.mp hj))

end Elsewhere

/-- **The array of a message** has the caller's length and a block for every
segment. -/
theorem msg_entry (data : Bool) (hi : i < intCount (msgIovlen c.mem c.a2)) (u : UMem) :
    load64 (applyAll (msgSends c data) u (.heap (msgIovPtr c))) (16 * i) =
        c.alloc (msgNameBlocks c + 1 + i) ∧
      load64 (applyAll (msgSends c data) u (.heap (msgIovPtr c))) (16 * i + 8) =
        iovLen c.mem (msgIov c.mem c.a2) i := by
  have hlen := msgIovlen_ne_zero hi
  have hall := msgIovBlocks_eq hlen
  have hne := segBlock_ne hi
  rw [msgIovPtr, if_neg hlen]
  obtain ⟨v, hv⟩ : ∃ v, ∀ k, 16 * i ≤ k ∧ k < 16 * i + 16 →
      applyAll (msgSends c data) u (.heap (c.alloc (msgNameBlocks c))) k =
        applyAll (msgSegSends c data i) v (.heap (c.alloc (msgNameBlocks c))) k := by
    refine ⟨applyAll ((List.range i).flatMap (msgSegSends c data)) u, fun k hk => ?_⟩
    unfold msgSends
    simp only [applyAll_append, applyAll_cons, applyAll_nil, if_neg hlen]
    rw [sendLong_apply, if_neg (by simp), putIntAt_apply, if_neg (by simp), applyAll_of_ne,
      putIntAt_apply, if_neg (by simp),
      applyAll_flatMap_range (fun j hj => msgSegSends_within data hj) hi (by omega)]
    · -- only these loops write to the array
      refine congrFun (applyAll_congr_region (applyAll_congr_region ?_)) k
      rw [putAt_apply, if_neg (by simp), putIntAt_apply, if_neg (by simp), applyAll_of_ne,
        putIntAt_apply, if_neg (by simp)]
      · simp [apply_eq]
      · refine msgPointer_dst fun hname => ?_
        have hone := msgNameBlocks_eq hname
        cases data
        · simp
        · exact blockSend_dst (msgBlock_ne (by omega) (by omega) (by omega))
    · refine msgPointer_dst fun _ => ?_
      cases data
      · simp
      · exact blockSend_dst (msgBlock_ne le_rfl (by omega) (by omega))
  constructor
  · rw [load64_congr (p := 16 * i) fun j hj => hv (16 * i + j) (by omega)]
    cases data <;> simp [msgSegSends, hne.symm, load64_overlay_self]
  · rw [load64_congr (p := 16 * i + 8) fun j hj => hv (16 * i + 8 + j) (by omega)]
    cases data <;>
      simp [msgSegSends, hne.symm, load64_overlay_self, load64_overlay_of_disjoint]

/-- **The name** is written to the first block. -/
theorem msg_name (h : msgNamelen c.mem c.a2 ≠ 0) (u : UMem) :
    applyAll (msgSends c true) u (.heap (c.alloc 0)) =
      overlay 0 (memcpyLen (msgNamelen c.mem c.a2)) (c.mem.at (msgName c.mem c.a2))
        (u (.heap (c.alloc 0))) := by
  have hname := msgNameBlocks_eq h
  have hblocks := msgNameBlocks_le_iov c
  unfold msgSends
  simp only [applyAll_append, applyAll_cons, applyAll_nil, if_neg h, if_true]
  rw [sendLong_apply, if_neg (by simp), putIntAt_apply, if_neg (by simp), applyAll_of_ne,
    putIntAt_apply, if_neg (by simp), applyAll_of_ne, putIntAt_apply, if_neg (by simp),
    send_apply, if_pos rfl, putAt_apply, if_neg (by simp), putIntAt_apply, if_neg (by simp)]
  · simp [apply_eq]
  · refine msgPointer_dst fun hlen => ?_
    have hall := msgIovBlocks_eq hlen
    refine msgSegs_dst (msgBlock_ne hblocks (by omega) (by omega)) fun j hj => ?_
    exact msgBlock_ne (by omega) (by omega) (by omega)
  · exact msgPointer_dst fun _ => blockSend_dst (msgBlock_ne le_rfl (by omega) (by omega))

/-- **The control data** are written to the last block. -/
theorem msg_control (h : msgControllen c.mem c.a2 ≠ 0) (u : UMem) :
    applyAll (msgSends c true) u (.heap (c.alloc (msgIovBlocks c))) =
      overlay 0 (memcpyLen (msgControllen c.mem c.a2)) (c.mem.at (msgControl c.mem c.a2))
        (u (.heap (c.alloc (msgIovBlocks c)))) := by
  unfold msgSends
  simp only [applyAll_append, applyAll_cons, applyAll_nil, if_neg h, if_true]
  rw [sendLong_apply, if_neg (by simp), putIntAt_apply, if_neg (by simp), send_apply, if_pos rfl,
    putAt_apply, if_neg (by simp), putIntAt_apply, if_neg (by simp), applyAll_of_ne,
    putIntAt_apply, if_neg (by simp), applyAll_of_ne, putIntAt_apply, if_neg (by simp)]
  · simp [apply_eq]
  · refine msgPointer_dst fun hlen => ?_
    have hname := msgNameBlocks_eq hlen
    have hblocks := msgNameBlocks_le_iov c
    exact blockSend_dst (msgBlock_ne (by omega) le_rfl (by omega))
  · refine msgPointer_dst fun hlen => ?_
    have hall := msgIovBlocks_eq hlen
    refine msgSegs_dst (msgBlock_ne (by omega) le_rfl (by omega)) fun j hj => ?_
    exact msgBlock_ne (by omega) le_rfl (by omega)

/-- **The data of a segment** are written to its block. -/
theorem msg_segData (hi : i < intCount (msgIovlen c.mem c.a2)) (u : UMem) :
    applyAll (msgSends c true) u (.heap (c.alloc (msgNameBlocks c + 1 + i))) =
      overlay 0 (memcpyLen (iovLen c.mem (msgIov c.mem c.a2) i))
        (c.mem.at (iovBase c.mem (msgIov c.mem c.a2) i))
        (u (.heap (c.alloc (msgNameBlocks c + 1 + i)))) := by
  have hlen := msgIovlen_ne_zero hi
  have hall := msgIovBlocks_eq hlen
  have hne := segBlock_ne hi
  unfold msgSends
  simp only [applyAll_append, applyAll_cons, applyAll_nil, if_neg hlen, if_true]
  rw [sendLong_apply, if_neg (by simp), putIntAt_apply, if_neg (by simp), applyAll_of_ne,
    putIntAt_apply, if_neg (by simp), applyAll_flatMap_range_of_ne _ hi]
  · simp only [msgSegSends, if_true, List.cons_append, List.nil_append, applyAll_cons, applyAll_nil]
    simp only [send_apply, putAt_apply, putIntAt_apply, Region.heap.injEq, hne, if_true, if_false,
      reduceCtorEq]
    rw [applyAll_of_ne, putIntAt_apply, if_neg (by simp)]
    · simp [apply_eq]
    · refine msgPointer_dst fun hname => ?_
      have hone := msgNameBlocks_eq hname
      exact blockSend_dst (msgBlock_ne (by omega) (by omega) (by omega))
  · intro j hj hji
    exact msgSegSends_dst (msgBlock_ne (by omega) (by omega) (by omega))
      (msgBlock_ne (by omega) (by omega) (by omega))
  · exact msgPointer_dst fun _ => blockSend_dst (msgBlock_ne le_rfl (by omega) (by omega))

/-! ## The header -/

variable {f : Bytes}

@[simp] theorem msgHeader_name : load64 (msgHeader c f) 0 = msgNamePtr c := by
  simp [msgHeader, load64_overlay_of_disjoint, load64_overlay_self]

@[simp] theorem msgHeader_iov : load64 (msgHeader c f) 16 = msgIovPtr c := by
  simp [msgHeader, load64_overlay_of_disjoint, load64_overlay_self]

@[simp] theorem msgHeader_control : load64 (msgHeader c f) 32 = msgControlPtr c := by
  simp [msgHeader, load64_overlay_of_disjoint, load64_overlay_self]

@[simp] theorem msgHeader_namelen :
    load32 (msgHeader c f) 8 = (msgNamelen c.mem c.a2).setWidth 32 := by
  simp [msgHeader, load32_overlay_of_disjoint, load32_overlay_self]

@[simp] theorem msgHeader_iovlen :
    load32 (msgHeader c f) 24 = (msgIovlen c.mem c.a2).setWidth 32 := by
  simp [msgHeader, load32_overlay_of_disjoint, load32_overlay_self]

@[simp] theorem msgHeader_controllen :
    load32 (msgHeader c f) 40 = (msgControllen c.mem c.a2).setWidth 32 := by
  simp [msgHeader, load32_overlay_of_disjoint, load32_overlay_self]

theorem msgHeader_flags {j : Nat} (hj : j < 4) :
    msgHeader c f (48 + j) = le64 (msgFlags c.mem c.a2) j := overlay_of_lt hj _ _

/-- The header is cleared before its fields are set. -/
theorem msgHeader_congr (f g : Bytes) {i : Nat} (hi : i < sizeofMsghdr) :
    msgHeader c f i = msgHeader c g i := by
  have hin : 0 ≤ i ∧ i < 0 + sizeofMsghdr := by omega
  simp only [msgHeader, overlay, hin, and_self, if_true]

theorem load32_msgHeader (f g : Bytes) {o : Nat} (ho : o + 4 ≤ sizeofMsghdr) :
    load32 (msgHeader c f) o = load32 (msgHeader c g) o :=
  load32_congr fun i hi => msgHeader_congr f g (by omega)

theorem load64_msgHeader (f g : Bytes) {o : Nat} (ho : o + 8 ≤ sizeofMsghdr) :
    load64 (msgHeader c f) o = load64 (msgHeader c g) o :=
  load64_congr fun i hi => msgHeader_congr f g (by omega)

/-- The padding after the two counts is zero. -/
theorem msgHeader_padding (f : Bytes) :
    load32 (msgHeader c f) (24 + 4) = 0 ∧ load32 (msgHeader c f) (40 + 4) = 0 := by
  refine ⟨?_, ?_⟩
  · simp [msgHeader, load32_overlay_of_disjoint]
    rw [show 28 = 0 + 28 from rfl, load32_overlay (by decide)]
    rfl
  · simp [msgHeader, load32_overlay_of_disjoint]
    rw [show 44 = 0 + 44 from rfl, load32_overlay (by decide)]
    rfl

/-- The count is an `int`. -/
theorem toNat_msgHeader_iovlen (f : Bytes) :
    (load64 (msgHeader c f) 24).toNat = ((msgIovlen c.mem c.a2).setWidth 32).toNat := by
  rw [toNat_load64, msgHeader_iovlen, (msgHeader_padding f).1]
  rfl

theorem msgHeader_controllen_zero (f : Bytes) (h : msgControllen c.mem c.a2 = 0) :
    load64 (msgHeader c f) 40 = 0 := by
  apply BitVec.eq_of_toNat_eq
  rw [toNat_load64, msgHeader_controllen, (msgHeader_padding f).2, h]
  rfl

/-- Its pointers lead to blocks. -/
theorem region_block {p : Word} (h : p = 0 ∨ ∃ k, p = c.alloc k) : c.region p = .heap p := by
  rcases h with rfl | ⟨k, rfl⟩
  · exact c.region_of_ne fun b => (c.addr_ne b).symm
  · exact c.region_alloc k

@[simp] theorem region_msgNamePtr : c.region (msgNamePtr c) = .heap (msgNamePtr c) := by
  apply region_block
  unfold msgNamePtr
  split
  · exact .inl rfl
  · exact .inr ⟨_, rfl⟩

@[simp] theorem region_msgIovPtr : c.region (msgIovPtr c) = .heap (msgIovPtr c) := by
  apply region_block
  unfold msgIovPtr
  split
  · exact .inl rfl
  · exact .inr ⟨_, rfl⟩

@[simp] theorem region_msgControlPtr : c.region (msgControlPtr c) = .heap (msgControlPtr c) := by
  apply region_block
  unfold msgControlPtr
  split
  · exact .inl rfl
  · exact .inr ⟨_, rfl⟩

end Porpoise.Shim
