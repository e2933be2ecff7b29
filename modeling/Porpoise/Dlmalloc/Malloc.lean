import Porpoise.Dlmalloc.Arena

/-!
# `dlmalloc`

How a request is served: from a bin, from the designated victim, from the top, or with new
memory. `none` stands for `ABORT`, and for an empty bin or tree where the source follows a
pointer of one; memory at 0 for a request that is not served.

* `dlmalloc`: the order of the ways.
* `tmallocLarge`, `tmallocSmall`: the search in the trees.
* `sysAlloc`: new memory; what the system gives is an argument.
-/

namespace Porpoise.Dlmalloc

open Porpoise.Lib

/-! ## The state -/

/-- A `struct malloc_segment`. -/
structure Seg where
  base : ℕ
  size : ℕ
  mmapped : Bool
  deriving DecidableEq

def Seg.fin (s : Seg) : ℕ := s.base + s.size

/-- `segment_holds`. -/
def Seg.holds (s : Seg) (a : ℕ) : Bool := s.base ≤ a && a < s.fin

/-- `mparams`, once it is initialised: a page has 4096 bytes at least, and the granularity is a
number of pages. -/
structure MParams where
  page_size : ℕ
  granularity : ℕ
  mmap_threshold : ℕ
  trim_threshold : ℕ
  page_pos : 0 < page_size
  page_le : page_size ≤ 2 ^ 32
  page_dvd : 4096 ∣ page_size
  granularity_dvd : page_size ∣ granularity

/-- `struct malloc_state` and the tags of the chunks. `segs` lists the segments, the embedded
one first; of `mflags` only the bit is kept that changes. -/
structure MState extends Tags, Bins where
  dvsize : ℕ
  topsize : ℕ
  least_addr : ℕ
  dv : ℕ
  top : ℕ
  trim_check : ℕ
  release_checks : ℕ
  footprint : ℕ
  max_footprint : ℕ
  footprint_limit : ℕ
  use_noncontiguous : Bool
  segs : List Seg

/-- What the system answers to a request for memory: the address of a new mapping for one
chunk, the range that becomes part of the heap, and whether the way to extend the last segment
is closed (`disable_contiguous`). -/
structure Grant where
  direct : Option ℕ
  range : Option Seg
  closed : Bool

/-! ## Sizes and addresses -/

/-- `TOP_FOOT_SIZE`. -/
def topFootSize : ℕ := 80

/-- `SYS_ALLOC_PADDING`. -/
def sysAllocPadding : ℕ := topFootSize + 16

/-- `MMAP_FOOT_PAD`. -/
def mmapFootPad : ℕ := 32

/-- `MAX_REQUEST`. -/
def maxRequest : ℕ := 2 ^ 64 - 128

/-- `MAX_SMALL_REQUEST`. -/
def maxSmallRequest : ℕ := 232

/-- `MIN_REQUEST`. -/
def minRequest : ℕ := 23

/-- `MAX_SIZE_T`. -/
def maxSize : ℕ := 2 ^ 64 - 1

/-- `MAX_RELEASE_CHECK_RATE`. -/
def maxReleaseCheckRate : ℕ := 4095

/-- `(req + CHUNK_OVERHEAD + CHUNK_ALIGN_MASK) & ~CHUNK_ALIGN_MASK`. -/
def padRequest (req : ℕ) : ℕ := (req + 8 + 15) / 16 * 16

/-- The difference of two `size_t`. -/
def wsub (a b : ℕ) : ℕ := (a + 2 ^ 64 - b) % 2 ^ 64

def chunk2mem (p : ℕ) : ℕ := p + 16

def mem2chunk (mem : ℕ) : ℕ := mem - 16

def alignOffset (a : ℕ) : ℕ := if a % 16 = 0 then 0 else 16 - a % 16

def alignAsChunk (a : ℕ) : ℕ := a + alignOffset (chunk2mem a)

def pageAlign (x : MParams) (s : ℕ) : ℕ :=
  (s + (x.page_size - 1)) / x.page_size * x.page_size % 2 ^ 64

def granularityAlign (x : MParams) (s : ℕ) : ℕ :=
  (s + (x.granularity - 1)) / x.granularity * x.granularity % 2 ^ 64

namespace MState

def okAddress (m : MState) (a : ℕ) : Bool := Dlmalloc.okAddress m.least_addr a

def insertChunk (m : MState) (p s : ℕ) : MState :=
  { m with toBins := m.toBins.insertChunk m.least_addr m.chunksize p s }

def unlinkChunk (m : MState) (p s : ℕ) : MState :=
  { m with toBins := m.toBins.unlinkChunk m.least_addr p s }

def replaceDv (m : MState) (p s : ℕ) : MState :=
  let b :=
    if m.dvsize ≠ 0 then m.toBins.insertSmallChunk m.least_addr m.dv m.dvsize else m.toBins
  { m with toBins := b, dvsize := s, dv := p }

/-- A chunk of `nb + rsize` bytes is used: whole, when the rest is too small for a chunk, or but
for the rest, which is kept by `keep`. -/
def carve (keep : MState → ℕ → ℕ → MState) (m : MState) (p nb rsize : ℕ) : MState :=
  if rsize < minChunkSize then { m with toTags := m.setInuseAndPinuse p (rsize + nb) }
  else
    let r := p + nb
    keep { m with
      toTags := (m.setSizeAndPinuseOfInuseChunk p nb).setSizeAndPinuseOfFreeChunk r rsize } r rsize

/-! ## Trees -/

/-- `while (t != 0) … t = leftmost_child(t)`: the best fit on the way, from `v` with `rsize`
bytes too many. -/
def leftLoop (size : ℕ → ℕ) (nb : ℕ) : Trie ℕ → ℕ → ℕ → ℕ × ℕ
  | .leaf, v, rsize => (v, rsize)
  | .node t _ l r, v, rsize =>
      let trem := wsub (size t) nb
      let v' := if trem < rsize then t else v
      let rsize' := if trem < rsize then trem else rsize
      if l.isLeaf then leftLoop size nb r v' rsize' else leftLoop size nb l v' rsize'

/-- The loop over the tree that may hold a chunk of `nb` bytes: the best fit, its excess and
the tree to go on with. -/
def searchLoop (size : ℕ → ℕ) (nb : ℕ) (K : ℕ → Bool) (v rsize : ℕ) (rst : Trie ℕ) :
    Trie ℕ → ℕ × ℕ × Trie ℕ
  | .leaf => (v, rsize, rst)
  | .node t ring l r =>
      let trem := wsub (size t) nb
      if trem < rsize ∧ trem = 0 then (t, trem, .node t ring l r)
      else
        let v' := if trem < rsize then t else v
        let rsize' := if trem < rsize then trem else rsize
        if K 0 then searchLoop size nb (fun d => K (d + 1)) v' rsize' rst r
        else searchLoop size nb (fun d => K (d + 1)) v' rsize' (if r.isLeaf then rst else r) l

/-- The chunk that fits a large request best, and its excess; 0 when there is none. -/
def findLarge (m : MState) (nb : ℕ) : ℕ × ℕ :=
  let idx := computeTreeIndex nb
  let (v, rsize, t) := searchLoop m.chunksize nb (treeBits idx nb) 0 (wsub 0 nb) .leaf
    (m.treebins idx)
  let t :=
    if t.isLeaf ∧ v = 0 then
      let leftbits := BitMap.leftBits (BitMap.idx2bit 32 idx) &&& m.treemap
      if leftbits ≠ 0 then m.treebins (BitMap.leastBit leftbits).ctz.toNat else .leaf
    else t
  leftLoop m.chunksize nb t v rsize

/-- A chunk of a tree is used. -/
def takeTreeChunk (keep : MState → ℕ → ℕ → MState) (m : MState) (v nb rsize : ℕ) :
    Option (ℕ × MState) :=
  if m.okAddress v ∧ v < v + nb then
    some (chunk2mem v,
      carve keep { m with toBins := m.unlinkLargeChunk m.least_addr v } v nb rsize)
  else none

def tmallocLarge (m : MState) (nb : ℕ) : Option (ℕ × MState) :=
  let (v, rsize) := findLarge m nb
  if v ≠ 0 ∧ rsize < wsub m.dvsize nb then takeTreeChunk insertChunk m v nb rsize else some (0, m)

def tmallocSmall (m : MState) (nb : ℕ) : Option (ℕ × MState) :=
  match m.treebins (BitMap.leastBit m.treemap).ctz.toNat with
  | .leaf => none
  | .node t _ l r =>
      let (v, rsize) :=
        leftLoop m.chunksize nb (if l.isLeaf then r else l) t (wsub (m.chunksize t) nb)
      takeTreeChunk replaceDv m v nb rsize

/-! ## Small bins -/

/-- "Remainderless fit to a smallbin". -/
def exactFit (m : MState) (idx : ℕ) : Option (ℕ × MState) :=
  match m.smallbins idx with
  | [] => none
  | p :: _ =>
      some (chunk2mem p, { m with
        toBins := m.unlinkFirstSmallChunk m.least_addr idx
        toTags := m.setInuseAndPinuse p (smallIndex2size idx) })

/-- "Use chunk in next nonempty smallbin". -/
def nextFit (m : MState) (i nb : ℕ) : Option (ℕ × MState) :=
  match m.smallbins i with
  | [] => none
  | p :: _ =>
      some (chunk2mem p, carve replaceDv
        { m with toBins := m.unlinkFirstSmallChunk m.least_addr i } p nb
        (smallIndex2size i - nb))

/-! ## The victim and the top -/

def fromDv (m : MState) (nb : ℕ) : ℕ × MState :=
  let rsize := m.dvsize - nb
  let p := m.dv
  if rsize ≥ minChunkSize then
    let r := p + nb
    (chunk2mem p, { m with
      dv := r
      dvsize := rsize
      toTags := (m.setSizeAndPinuseOfFreeChunk r rsize).setSizeAndPinuseOfInuseChunk p nb })
  else
    (chunk2mem p, { m with
      dv := 0
      dvsize := 0
      toTags := m.setInuseAndPinuse p m.dvsize })

/-- "Split top". -/
def fromTop (m : MState) (nb : ℕ) : ℕ × MState :=
  let rsize := m.topsize - nb
  let p := m.top
  let r := p + nb
  (chunk2mem p, { m with
    topsize := rsize
    top := r
    toTags := (m.setHead r ⟨rsize, false, true⟩).setSizeAndPinuseOfInuseChunk p nb })

/-! ## New memory -/

/-- With `n` bytes more the footprint would be over its limit. -/
def overLimit (m : MState) (n : ℕ) : Bool :=
  let fp := (m.footprint + n) % 2 ^ 64
  m.footprint_limit ≠ 0 && (fp ≤ m.footprint || m.footprint_limit < fp)

/-- `(m->footprint += n) > m->max_footprint`, and what follows. -/
def addFootprint (m : MState) (n : ℕ) : MState :=
  let fp := (m.footprint + n) % 2 ^ 64
  { m with
    footprint := fp
    max_footprint := max m.max_footprint fp }

/-- `mmap_alloc`. -/
def mmapAlloc (x : MParams) (direct : Option ℕ) (m : MState) (nb : ℕ) : Option (ℕ × MState) :=
  let mmsize := pageAlign x ((nb + 48 + 15) % 2 ^ 64)
  if m.overLimit mmsize then none
  else if nb < mmsize then
    direct.map fun mm =>
      let offset := alignOffset (chunk2mem mm)
      let psize := mmsize - offset - mmapFootPad
      let p := mm + offset
      (chunk2mem p, { m.addFootprint mmsize with
        head := Function.update (Function.update (Function.update m.head p ⟨psize, false, false⟩)
          (p + psize) ⟨8, true, true⟩) (p + psize + 8) ⟨0, false, false⟩
        prev_foot := Function.update m.prev_foot p offset
        least_addr := if m.least_addr = 0 ∨ mm < m.least_addr then mm else m.least_addr })
  else none

def initTop (x : MParams) (m : MState) (p psize : ℕ) : MState :=
  let offset := alignOffset (chunk2mem p)
  let p := p + offset
  let psize := psize - offset
  { m with
    top := p
    topsize := psize
    trim_check := x.trim_threshold
    toTags := (m.setHead p ⟨psize, false, true⟩).setHead (p + psize) ⟨topFootSize, false, false⟩ }

/-- `prepend_alloc`. -/
def prependAlloc (m : MState) (newbase oldbase nb : ℕ) : ℕ × MState :=
  let p := alignAsChunk newbase
  let oldfirst := alignAsChunk oldbase
  let q := p + nb
  let qsize := oldfirst - p - nb
  let m := { m with toTags := m.setSizeAndPinuseOfInuseChunk p nb }
  let m :=
    if oldfirst = m.top then
      let tsize := m.topsize + qsize
      { m with topsize := tsize, top := q, toTags := m.setHead q ⟨tsize, false, true⟩ }
    else if oldfirst = m.dv then
      let dsize := m.dvsize + qsize
      { m with dvsize := dsize, dv := q, toTags := m.setSizeAndPinuseOfFreeChunk q dsize }
    else if m.isInuse oldfirst = false then
      let nsize := m.chunksize oldfirst
      let m := m.unlinkChunk oldfirst nsize
      let m := { m with toTags := m.setFreeWithPinuse q (qsize + nsize) (oldfirst + nsize) }
      m.insertChunk q (qsize + nsize)
    else
      let m := { m with toTags := m.setFreeWithPinuse q qsize oldfirst }
      m.insertChunk q qsize
  (chunk2mem p, m)

/-- The fenceposts from `p` on, up to the end of the segment. -/
def fenceposts (old_end : ℕ) (t : Tags) (p : ℕ) : Tags :=
  let t := t.setHead p ⟨8, true, true⟩
  if p + 16 < old_end then fenceposts old_end t (p + 8) else t
  termination_by old_end - p

/-- `add_segment`. -/
def addSegment (x : MParams) (m : MState) (s : Seg) : MState :=
  let old_top := m.top
  let old_end := ((m.segs.find? (·.holds old_top)).map Seg.fin).getD 0
  let ssize := padRequest 32
  let rawsp := old_end - (ssize + 32 + 15)
  let asp := rawsp + alignOffset (chunk2mem rawsp)
  let csp := if asp < old_top + minChunkSize then old_top else asp
  let m := initTop x m s.base (s.size - topFootSize)
  let m := { m with
    segs := s :: m.segs
    toTags := fenceposts old_end (m.setSizeAndPinuseOfInuseChunk csp ssize) (csp + ssize) }
  if csp ≠ old_top then
    let psize := csp - old_top
    let m := { m with toTags := m.setFreeWithPinuse old_top psize csp }
    m.insertChunk old_top psize
  else m

/-- Assigns to the first segment that meets `p`. -/
def updateSeg (p : Seg → Bool) (f : Seg → Seg) : List Seg → List Seg
  | [] => []
  | s :: ss => if p s then f s :: ss else s :: updateSeg p f ss

/-- "Allocate from new or extended top space". -/
def takeTop (m : MState) (nb : ℕ) : ℕ × MState := if nb < m.topsize then m.fromTop nb else (0, m)

/-- The segment that the range `s` extends: it ends where `s` begins, and holds the top. -/
def appendTo (m : MState) (s : Seg) : Option Seg :=
  (m.segs.find? fun r => s.base == r.fin).filter fun r =>
    r.mmapped == s.mmapped && r.holds m.top

/-- The segment that begins where the range `s` ends. -/
def prependTo (m : MState) (s : Seg) : Option Seg :=
  (m.segs.find? fun r => r.base == s.fin).filter fun r => r.mmapped == s.mmapped

/-- The first range. -/
def initHeap (x : MParams) (m : MState) (s : Seg) : MState :=
  initTop x { m with
    least_addr := if m.least_addr = 0 ∨ s.base < m.least_addr then s.base else m.least_addr
    segs := [s]
    release_checks := maxReleaseCheckRate } s.base (s.size - topFootSize)

/-- "append". -/
def appendSeg (x : MParams) (m : MState) (s : Seg) : MState :=
  initTop x { m with
    segs := updateSeg (fun r => s.base == r.fin) (fun r => { r with size := r.size + s.size })
      m.segs } m.top (m.topsize + s.size)

/-- The range becomes part of the segment behind it, and the request is served from it. -/
def prependSeg (m : MState) (s r : Seg) (nb : ℕ) : ℕ × MState :=
  prependAlloc { m with
    segs := updateSeg (fun r => r.base == s.fin)
      (fun r => { r with base := s.base, size := r.size + s.size }) m.segs } s.base r.base nb

/-- A new range becomes part of the heap, and the request is served. -/
def install (x : MParams) (m : MState) (nb : ℕ) (s : Seg) : ℕ × MState :=
  let m := m.addFootprint s.size
  if m.top = 0 then takeTop (initHeap x m s) nb
  else
    match m.appendTo s with
    | some _ => takeTop (appendSeg x m s) nb
    | none =>
        let m := { m with
          least_addr := if s.base < m.least_addr then s.base else m.least_addr }
        match m.prependTo s with
        | some r => prependSeg m s r nb
        | none => takeTop (addSegment x m s) nb

/-- `disable_contiguous`, when the way was closed. -/
def closeContiguous (m : MState) (closed : Bool) : MState :=
  { m with use_noncontiguous := m.use_noncontiguous || closed }

@[simp] theorem closeContiguous_false (m : MState) : m.closeContiguous false = m := by
  unfold closeContiguous
  rw [Bool.or_false]

/-- `sys_alloc`. -/
def sysAlloc (x : MParams) (g : Grant) (m : MState) (nb : ℕ) : ℕ × MState :=
  let direct :=
    if x.mmap_threshold ≤ nb ∧ m.topsize ≠ 0 then mmapAlloc x g.direct m nb else none
  match direct with
  | some r => r
  | none =>
      let asize := granularityAlign x ((nb + sysAllocPadding) % 2 ^ 64)
      if asize ≤ nb ∨ m.overLimit asize = true then (0, m)
      else
        let m := m.closeContiguous g.closed
        match g.range with
        | none => (0, m)
        | some s => install x m nb s

/-! ## `dlmalloc` -/

/-- The ways that are left when no bin serves the request. -/
def fallback (x : MParams) (g : Grant) (m : MState) (nb : ℕ) : ℕ × MState :=
  if nb ≤ m.dvsize then m.fromDv nb
  else if nb < m.topsize then m.fromTop nb
  else m.sysAlloc x g nb

/-- A request that a small chunk can serve. -/
def smallRequest (x : MParams) (g : Grant) (m : MState) (nb : ℕ) : Option (ℕ × MState) :=
  let idx := smallIndex nb
  let smallbits := m.smallmap >>> idx
  if smallbits &&& 3 ≠ 0 then m.exactFit (idx + (~~~smallbits &&& 1).toNat)
  else if m.dvsize < nb then
    if smallbits ≠ 0 then
      let leftbits := (smallbits <<< idx) &&& BitMap.leftBits (BitMap.idx2bit 32 idx)
      m.nextFit (BitMap.leastBit leftbits).ctz.toNat nb
    else if m.treemap ≠ 0 then
      (m.tmallocSmall nb).map fun r => if r.1 ≠ 0 then r else m.fallback x g nb
    else some (m.fallback x g nb)
  else some (m.fallback x g nb)

def largeRequest (x : MParams) (g : Grant) (m : MState) (nb : ℕ) : Option (ℕ × MState) :=
  if m.treemap ≠ 0 then
    (m.tmallocLarge nb).map fun r => if r.1 ≠ 0 then r else m.fallback x g nb
  else some (m.fallback x g nb)

/-- `dlmalloc`: the memory, or 0, and the state. -/
def dlmalloc (x : MParams) (g : Grant) (m : MState) (bytes : ℕ) : Option (ℕ × MState) :=
  if bytes ≤ maxSmallRequest then
    smallRequest x g m (if bytes < minRequest then minChunkSize else padRequest bytes)
  else if maxRequest ≤ bytes then some (m.fallback x g maxSize)
  else largeRequest x g m (padRequest bytes)

end MState

end Porpoise.Dlmalloc
