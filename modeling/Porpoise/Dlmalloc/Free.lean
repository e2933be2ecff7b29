import Porpoise.Dlmalloc.Malloc

/-!
# `dlfree`

A chunk that is freed is joined with its free neighbours, and what comes of it becomes part of
the top or of the designated victim, or enters a bin. Memory that is not needed goes back to the
system, if it takes it.

* `releaseUnusedSegments`, `sysTrim`: memory goes back.
* `consolidateForward`: the chunk behind, and where the result goes.
* `dlfree`: one call; `none` stands for `ABORT`.
-/

namespace Porpoise.Dlmalloc

/-- What the system answers when memory is given back: whether it takes the mapping of a chunk,
the end of the top, and a segment. -/
structure Taken where
  mapping : Bool
  top : Bool
  seg : Seg → Bool

namespace MState

/-! ## Memory goes back -/

/-- A step of the loop in `release_unused_segments`: what was released, and the state. -/
def releaseSeg (g : Taken) (r : ℕ × MState) (s : Seg) : ℕ × MState :=
  let (released, m) := r
  let p := alignAsChunk s.base
  let psize := m.chunksize p
  if s.mmapped = true ∧ m.isInuse p = false ∧ s.fin - topFootSize ≤ p + psize then
    let m :=
      if p = m.dv then { m with dv := 0, dvsize := 0 }
      else { m with toBins := m.unlinkLargeChunk m.least_addr p }
    if g.seg s then
      (released + s.size, { m with footprint := wsub m.footprint s.size, segs := m.segs.erase s })
    else
      (released, { m with toBins := m.insertLargeChunk m.least_addr m.chunksize p psize })
  else (released, m)

/-- `release_unused_segments`: the first segment is kept. -/
def releaseUnusedSegments (g : Taken) (m : MState) : ℕ × MState :=
  let (released, m') := m.segs.tail.foldl (releaseSeg g) (0, m)
  (released, { m' with release_checks := max m.segs.tail.length maxReleaseCheckRate })

/-- What `sys_trim` gives back at most: whole units, and one is kept. -/
def trimExtra (x : MParams) (m : MState) : ℕ :=
  ((m.topsize - topFootSize + (x.granularity - 1)) / x.granularity - 1) * x.granularity

/-- The end of the top goes back. -/
def trimTop (x : MParams) (m : MState) (released : ℕ) : MState :=
  initTop x { m with
    footprint := wsub m.footprint released
    segs := updateSeg (·.holds m.top) (fun s => { s with size := s.size - released }) m.segs }
    m.top (m.topsize - released)

/-- `sys_trim(m, 0)`. -/
def sysTrim (x : MParams) (g : Taken) (m : MState) : MState :=
  let released := if m.topsize > topFootSize ∧ g.top = true then trimExtra x m else 0
  let m := if released ≠ 0 then trimTop x m released else m
  let (freed, m) := releaseUnusedSegments g m
  if released + freed = 0 ∧ m.topsize > m.trim_check then { m with trim_check := maxSize } else m

/-! ## A chunk that is freed -/

/-- The chunk behind is the top. -/
def intoTop (m : MState) (p psize : ℕ) : MState :=
  let tsize := m.topsize + psize
  let m := { m with topsize := tsize, top := p, toTags := m.setHead p ⟨tsize, false, true⟩ }
  if p = m.dv then { m with dv := 0, dvsize := 0 } else m

/-- The chunk behind is the designated victim. -/
def intoDv (m : MState) (p psize : ℕ) : MState :=
  let dsize := m.dvsize + psize
  { m with dvsize := dsize, dv := p, toTags := m.setSizeAndPinuseOfFreeChunk p dsize }

/-- A large chunk was freed: after so many of them the unused segments are released. -/
def countRelease (g : Taken) (m : MState) : MState :=
  let m := { m with release_checks := wsub m.release_checks 1 }
  if m.release_checks = 0 then (m.releaseUnusedSegments g).2 else m

/-- The chunk enters its bin. -/
def insertFreed (g : Taken) (m : MState) (p psize : ℕ) : MState :=
  let m := m.insertChunk p psize
  if isSmall psize then m else m.countRelease g

/-- The chunk behind is in a bin. -/
def withNext (insert : MState → ℕ → ℕ → MState) (m : MState) (p psize next : ℕ) : MState :=
  let nsize := m.chunksize next
  let psize := psize + nsize
  let m := m.unlinkChunk next nsize
  let m := { m with toTags := m.setSizeAndPinuseOfFreeChunk p psize }
  if p = m.dv then { m with dvsize := psize } else insert m p psize

/-- "Consolidate forward". -/
def consolidateForward (insert : MState → ℕ → ℕ → MState) (m : MState) (p psize next : ℕ) :
    MState :=
  if m.cinuse next = false then
    if next = m.top then m.intoTop p psize
    else if next = m.dv then m.intoDv p psize
    else withNext insert m p psize next
  else insert { m with toTags := m.setFreeWithPinuse p psize next } p psize

/-- The rest of `dlfree` when the chunk before has been looked at. -/
def freeForward (x : MParams) (g : Taken) (m : MState) (p psize next : ℕ) : Option MState :=
  if p < next ∧ m.pinuse next = true then
    let m' := consolidateForward (insertFreed g) m p psize next
    some (if m.cinuse next = false ∧ next = m.top ∧ m'.topsize > m.trim_check then
      sysTrim x g m' else m')
  else none

/-- `dlfree`. -/
def dlfree (x : MParams) (g : Taken) (m : MState) (mem : ℕ) : Option MState :=
  if mem = 0 then some m
  else
    let p := mem2chunk mem
    if m.okAddress p ∧ m.isInuse p = true then
      let psize := m.chunksize p
      let next := p + psize
      if m.pinuse p = true then freeForward x g m p psize next
      else
        let prevsize := m.prev_foot p
        if m.isMmapped p = true then
          some (if g.mapping then
            { m with footprint := wsub m.footprint (psize + prevsize + mmapFootPad) } else m)
        else
          let prev := p - prevsize
          let psize := psize + prevsize
          if m.okAddress prev then
            -- "Consolidate backward".
            if prev ≠ m.dv then
              freeForward x g (m.unlinkChunk prev prevsize) prev psize next
            else if m.cinuse next = true ∧ m.pinuse next = true then
              some { m with dvsize := psize, toTags := m.setFreeWithPinuse prev psize next }
            else freeForward x g m prev psize next
          else none
    else none

end MState

end Porpoise.Dlmalloc
