import Porpoise.Malloc.Sbrk

/-!
# `sys_alloc`

How the allocator of untrusted memory gets more of it: by moving the break to extend its
last segment, by mapping, or by moving the break elsewhere. `MORECORE` is a parameter, as it
is a macro of the source; it is `sbrk_user`.

* `added`: the three ways, and the range that they find.
* `install`: the range becomes a segment, or part of one.
* `sysAlloc`: one call, on the state of the allocator but for bins and chunk headers.
-/

namespace Porpoise.Malloc

open Porpoise.Lib

/-! ## The state of the allocator -/

/-- A range of addresses, from `mmap` or from `MORECORE`. -/
structure Range where
  base : Word
  size : Word
  mmapped : Bool
  deriving DecidableEq

/-- A `struct malloc_segment`. -/
structure Segment extends Range where
  isExtern : Bool
  deriving DecidableEq

/-- `segment_holds`. -/
def Segment.holds (s : Segment) (addr : Word) : Bool :=
  s.base.toNat ≤ addr.toNat && addr.toNat < (s.base + s.size).toNat

/-- `mparams`. -/
structure MParams where
  page_size : Word
  granularity : Word
  mmap_threshold : Word

/-- The fields of `struct malloc_state` that `sys_alloc` uses. `segs` lists the segments,
the embedded one first. -/
structure MState where
  top : Word
  topsize : Word
  footprint : Word
  max_footprint : Word
  footprint_limit : Word
  least_addr : Word
  use_mmap : Bool
  use_noncontiguous : Bool
  segs : List Segment

def topFootSize : Word := 80

/-- `SYS_ALLOC_PADDING`. -/
def sysAllocPadding : Word := topFootSize + 16

/-- `HALF_MAX_SIZE_T`. -/
def halfMaxSize : Nat := 2 ^ 63 - 1

def pageAlign (x : MParams) (s : Word) : Word := (s + (x.page_size - 1)) &&& ~~~(x.page_size - 1)

def granularityAlign (x : MParams) (s : Word) : Word :=
  (s + (x.granularity - 1)) &&& ~~~(x.granularity - 1)

def isPageAligned (x : MParams) (s : Word) : Bool := s &&& (x.page_size - 1) == 0

def chunk2mem (p : Word) : Word := p + 16

def alignOffset (a : Word) : Word := if a &&& 15 = 0 then 0 else (16 - (a &&& 15)) &&& 15

/-- `align_as_chunk`. -/
def alignAsChunk (a : Word) : Word := a + alignOffset (chunk2mem a)

/-- The footprint grows by `size` within its limit. -/
def FootprintOk (m : MState) (size : Word) : Prop :=
  m.footprint_limit = 0 ∨
    m.footprint.toNat < (m.footprint + size).toNat ∧
      (m.footprint + size).toNat ≤ m.footprint_limit.toNat

instance (m : MState) (size : Word) : Decidable (FootprintOk m size) :=
  inferInstanceAs (Decidable (_ ∨ _))

/-- `m->footprint += size`, and the maximum. -/
def MState.grow (m : MState) (size : Word) : MState :=
  let footprint := m.footprint + size
  { m with
    footprint
    max_footprint :=
      if m.max_footprint.toNat < footprint.toNat then footprint else m.max_footprint }

/-! ## Memory from the system -/

/-- `CALL_MORECORE`. -/
abbrev Morecore := Word → World → Word × World

/-- `CALL_MMAP` and `CALL_DIRECT_MMAP`: a new mapping below the end of the addresses, or
`MFAIL`. -/
def callMmap (A : Answers) (size : Word) (w : World) : Word × World :=
  match (A.mmap w.mmaps).filter fun a => a.toNat + size.toNat ≤ taskSize with
  | none => (mfail, { w with mmaps := w.mmaps + 1 })
  | some a =>
      (a, { w with
        proc := { w.proc with maps := (a, size) :: w.proc.maps }
        mmaps := w.mmaps + 1 })

/-- `mmap_alloc`: the memory, or 0. -/
def mmapAlloc (A : Answers) (x : MParams) (m : MState) (nb : Word) (w : World) :
    Word × MState × World :=
  let mmsize := pageAlign x (nb + 48 + 15)
  if FootprintOk m mmsize ∧ nb.toNat < mmsize.toNat then
    let (mm, w) := callMmap A mmsize w
    if mm ≠ mfail then
      let least_addr :=
        if m.least_addr = 0 ∨ mm.toNat < m.least_addr.toNat then mm else m.least_addr
      (chunk2mem (mm + alignOffset (chunk2mem mm)), { m.grow mmsize with least_addr }, w)
    else (0, m, w)
  else (0, m, w)

/-- `(m->top == 0)? 0 : segment_holding(m, (char*)m->top)`. -/
def topSegment (m : MState) : Option Segment :=
  if m.top = 0 then none else m.segs.find? (·.holds m.top)

/-- The size of the first request when there is no segment to extend. -/
def firstSize (x : MParams) (asize base : Word) : Word :=
  if isPageAligned x base then asize else asize + (pageAlign x base - base)

/-- The size of a request that extends the last segment. -/
def extensionSize (x : MParams) (m : MState) (nb : Word) : Word :=
  granularityAlign x (nb - m.topsize + sysAllocPadding)

/-- Whether the first request is made. -/
def FirstOk (m : MState) (nb ssize : Word) : Prop :=
  nb.toNat < ssize.toNat ∧ ssize.toNat < halfMaxSize ∧ FootprintOk m ssize

instance (m : MState) (nb ssize : Word) : Decidable (FirstOk m nb ssize) :=
  inferInstanceAs (Decidable (_ ∧ _))

/-- What the first attempt leaves in `br`, `ssize` and `tbase`. -/
structure Attempt where
  br : Word
  ssize : Word
  tbase : Word

/-- The first attempt to extend memory contiguously. -/
def contiguousFirst (M : Morecore) (x : MParams) (m : MState) (nb asize : Word) (w : World) :
    Attempt × World :=
  match topSegment m with
  | none =>
      let (base, w) := M 0 w
      if base ≠ mfail then
        let ssize := firstSize x asize base
        if FirstOk m nb ssize then
          let (br, w) := M ssize w
          (⟨br, ssize, if br = base then base else mfail⟩, w)
        else (⟨mfail, ssize, mfail⟩, w)
      else (⟨mfail, asize, mfail⟩, w)
  | some ss =>
      let ssize := extensionSize x m nb
      if ssize.toNat < halfMaxSize then
        let (br, w) := M ssize w
        (⟨br, ssize, if br = ss.base + ss.size then br else mfail⟩, w)
      else (⟨mfail, ssize, mfail⟩, w)

/-- The size of the request for what is missing. -/
def missingSize (x : MParams) (nb ssize : Word) : Word :=
  granularityAlign x (nb + sysAllocPadding - ssize)

/-- "Cope with partial failure": `br` and `ssize` afterwards. -/
def copePartial (M : Morecore) (x : MParams) (nb : Word) (br ssize : Word) (w : World) :
    Word × Word × World :=
  if br ≠ mfail then
    if ssize.toNat < halfMaxSize ∧ ssize.toNat < (nb + sysAllocPadding).toNat then
      let esize := missingSize x nb ssize
      if esize.toNat < halfMaxSize then
        let (last, w) := M esize w
        if last ≠ mfail then (br, ssize + esize, w)
        else
          let (_, w) := M (-ssize) w
          (mfail, ssize, w)
      else (br, ssize, w)
    else (br, ssize, w)
  else (br, ssize, w)

/-- The first way: `tbase`, `tsize` and whether the way is closed. -/
def contiguous (M : Morecore) (x : MParams) (m : MState) (nb asize : Word) (w : World) :
    Word × Word × Bool × World :=
  if m.use_noncontiguous then (mfail, 0, true, w)
  else
    let (a, w) := contiguousFirst M x m nb asize w
    if a.tbase ≠ mfail then (a.tbase, a.ssize, false, w)
    else
      let (br, ssize, w) := copePartial M x nb a.br a.ssize w
      if br ≠ mfail then (br, ssize, false, w) else (mfail, 0, true, w)

/-- The third way. -/
def noncontiguous (M : Morecore) (nb asize : Word) (w : World) : Option Range × World :=
  if asize.toNat < halfMaxSize then
    let (br, w) := M asize w
    let (last, w) := M 0 w
    if br ≠ mfail ∧ last ≠ mfail ∧ br.toNat < last.toNat then
      let ssize := last - br
      if (nb + topFootSize).toNat < ssize.toNat then (some ⟨br, ssize, false⟩, w) else (none, w)
    else (none, w)
  else (none, w)

/-- The three ways: the range that is added, if there is one. -/
def added (M : Morecore) (A : Answers) (x : MParams) (m : MState) (nb asize : Word) (w : World) :
    Option Range × Bool × World :=
  let (tbase, tsize, closed, w) := contiguous M x m nb asize w
  if tbase ≠ mfail then (some ⟨tbase, tsize, false⟩, closed, w)
  else
    let (mp, w) := callMmap A asize w
    if mp ≠ mfail then (some ⟨mp, asize, true⟩, closed, w)
    else
      let (r, w) := noncontiguous M nb asize w
      (r, closed, w)

/-! ## The segments -/

/-- `init_top`. -/
def initTop (m : MState) (p psize : Word) : MState :=
  let offset := alignOffset (chunk2mem p)
  { m with top := p + offset, topsize := psize - offset }

/-- Assigns to the first segment that meets `p`. -/
def updateFirst (p : Segment → Bool) (f : Segment → Segment) : List Segment → List Segment
  | [] => []
  | s :: ss => if p s then f s :: ss else s :: updateFirst p f ss

/-- The segment that ends where a range begins. -/
def endsAt (t : Range) (s : Segment) : Bool := t.base == s.base + s.size

/-- The segment that begins where a range ends. -/
def beginsAt (t : Range) (s : Segment) : Bool := s.base == t.base + t.size

/-- The range extends the segment of `m->top`. -/
def Appends (m : MState) (t : Range) (s : Segment) : Prop :=
  s.isExtern = false ∧ s.mmapped = t.mmapped ∧ s.holds m.top = true

/-- The range extends a segment downwards. -/
def Prepends (t : Range) (s : Segment) : Prop := s.isExtern = false ∧ s.mmapped = t.mmapped

instance (m : MState) (t : Range) (s : Segment) : Decidable (Appends m t s) :=
  inferInstanceAs (Decidable (_ ∧ _))

instance (t : Range) (s : Segment) : Decidable (Prepends t s) :=
  inferInstanceAs (Decidable (_ ∧ _))

/-- `prepend_alloc`: the memory, and the top when it was the first chunk of the segment. -/
def prependAlloc (m : MState) (newbase oldbase nb : Word) : Word × MState :=
  let p := alignAsChunk newbase
  let oldfirst := alignAsChunk oldbase
  let q := p + nb
  let qsize := oldfirst - p - nb
  (chunk2mem p,
    if oldfirst = m.top then { m with topsize := m.topsize + qsize, top := q } else m)

/-- "Allocate from new or extended top space". -/
def takeTop (m : MState) (nb : Word) : Word × MState :=
  if nb.toNat < m.topsize.toNat then
    (chunk2mem m.top, { m with topsize := m.topsize - nb, top := m.top + nb })
  else (0, m)

/-- `if (tbase < m->least_addr) m->least_addr = tbase`. -/
def MState.lower (m : MState) (tbase : Word) : MState :=
  { m with least_addr := if tbase.toNat < m.least_addr.toNat then tbase else m.least_addr }

/-- The range joins the heap, and the request is served from it. -/
def install (m : MState) (nb : Word) (t : Range) : Word × MState :=
  let m := m.grow t.size
  if m.top = 0 then
    let m := { m with
      least_addr :=
        if m.least_addr = 0 ∨ t.base.toNat < m.least_addr.toNat then t.base else m.least_addr
      segs := ⟨t, false⟩ :: m.segs.tail }
    takeTop (initTop m t.base (t.size - topFootSize)) nb
  else
    match (m.segs.find? (endsAt t)).filter (Appends m t) with
    | some _ =>
        let m := { m with
          segs := updateFirst (endsAt t) (fun s => { s with size := s.size + t.size }) m.segs }
        takeTop (initTop m m.top (m.topsize + t.size)) nb
    | none =>
        let m := m.lower t.base
        match (m.segs.find? (beginsAt t)).filter (Prepends t) with
        | some s =>
            let m := { m with
              segs := updateFirst (beginsAt t)
                (fun s => { s with base := t.base, size := s.size + t.size }) m.segs }
            prependAlloc m t.base s.base nb
        | none =>
            -- `add_segment`
            let m := { m with segs := ⟨t, false⟩ :: m.segs }
            takeTop (initTop m t.base (t.size - topFootSize)) nb

/-! ## One call -/

/-- The size of the request to the system, unless it wraps around or is over the limit. -/
def systemSize (x : MParams) (m : MState) (nb : Word) : Option Word :=
  let asize := granularityAlign x (nb + sysAllocPadding)
  if nb.toNat < asize.toNat ∧ FootprintOk m asize then some asize else none

/-- What a call of `sys_alloc` returns and leaves, and the range that it adds to the
segments. -/
structure Outcome where
  mem : Word
  state : MState
  world : World
  range : Option Range

/-- "Directly map large chunks, but only if already initialized". -/
def directAlloc (A : Answers) (x : MParams) (m : MState) (nb : Word) (w : World) :
    Word × MState × World :=
  if m.use_mmap ∧ x.mmap_threshold.toNat ≤ nb.toNat ∧ m.topsize ≠ 0 then mmapAlloc A x m nb w
  else (0, m, w)

/-- `sys_alloc`. -/
def sysAlloc (M : Morecore) (A : Answers) (x : MParams) (m : MState) (nb : Word) (w : World) :
    Outcome :=
  let (mem, m, w) := directAlloc A x m nb w
  if mem ≠ 0 then ⟨mem, m, w, none⟩
  else
    match systemSize x m nb with
    | none => ⟨0, m, w, none⟩
    | some asize =>
        let (t, closed, w) := added M A x m nb asize w
        let m := { m with use_noncontiguous := closed }
        match t with
        | none => ⟨0, m, w, none⟩
        | some t =>
            let (mem, m) := install m nb t
            ⟨mem, m, w, some t⟩

end Porpoise.Malloc
