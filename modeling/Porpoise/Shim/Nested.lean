import Porpoise.Shim.HeapBalance
import Porpoise.Slots.Ownership

/-!
# A call among others

While one call fills its slot, other threads make calls, and its own
`malloc_user` enters `__syscall_wrap` again. A call in progress, or the host for
it, may change the buffers of its own slot and the heap at will; the one under
consideration makes its writes in between, one by one.

* `memSys`: the slot table with the contents of the slots and the heap.
* `Building`: the stretch of a run in which one call makes its writes and gets
  its blocks, with steps of other calls anywhere in it.
* `Building.memory`: what is then in its slot and in its blocks is what its own
  writes alone leave there.
-/

namespace Porpoise.Shim

open Porpoise.Lib
open Porpoise.Slots (Frame Owned maxNoOfThreads)

structure MemState (Tid : Type*) where
  slots : Slots.State Tid
  /-- The buffers of every slot. -/
  bufs : Nat → Buf → Bytes
  /-- The blocks of the untrusted heap. -/
  heap : Word → Bytes

inductive MemAct (Tid : Type*)
  /-- A call is entered or left, a thread starts or ends. -/
  | slot (a : Slots.Act Tid)
  /-- The innermost call of `t`, or the host for it, leaves `b` in its slot and `h`
  in the heap. -/
  | write (t : Tid) (b : Buf → Bytes) (h : Word → Bytes)

variable {Tid : Type*} [DecidableEq Tid]

namespace MemState

/-- One step; `none` when it is not enabled. -/
def next (m : MemState Tid) : MemAct Tid → Option (MemState Tid)
  | .slot a => (m.slots.next a).map fun s => { m with slots := s }
  | .write t b h =>
      match m.slots.calls t with
      | [] => none
      | f :: _ => some { m with bufs := Function.update m.bufs f.slot b, heap := h }

/-- Untrusted memory as the call with slot `i` sees it. -/
def view (m : MemState Tid) (i : Nat) : UMem
  | .buf b => m.bufs i b
  | .heap p => m.heap p

/-- The state after the call with slot `i` has made a write. -/
def store (m : MemState Tid) (i : Nat) (s : Store) : MemState Tid :=
  { m with
    bufs := Function.update m.bufs i fun b => s.apply (m.view i) (.buf b)
    heap := fun p => s.apply (m.view i) (.heap p) }

end MemState

/-- Slots and heap hold anything when the enclave starts. -/
def memSys (Tid : Type*) [DecidableEq Tid] : TSys (MemState Tid) (MemAct Tid) where
  init m := ∃ main, m.slots = Slots.State.boot main
  next := MemState.next

/-- A step that is none of the call `f` of `t`: the call is not left, and its slot
and its first `k` blocks are not written on its behalf. What `malloc_user` returned
is no other's memory. -/
def Foreign (c : Ctx) (t : Tid) (f : Frame) (k : Nat) (m : MemState Tid) : MemAct Tid → Prop
  | .slot (.ret u) => u = t → m.slots.calls t ≠ [f]
  | .slot _ => True
  | .write u _ h =>
      (u = t → m.slots.calls t ≠ [f]) ∧ ∀ j < k, h (c.alloc j) = m.heap (c.alloc j)

/-- `Building c t f m ss k m'`: since `m`, in which `t` entered the call `f`, the call
has made the writes `ss` and got `k` blocks, and the state is `m'`. -/
inductive Building (c : Ctx) (t : Tid) (f : Frame) (m : MemState Tid) :
    List Store → Nat → MemState Tid → Prop
  | enter : m.slots.calls t = [f] → Building c t f m [] 0 m
  | store {ss k m'} (s : Store) : Building c t f m ss k m' → m'.slots.calls t = [f] →
      s.InBlocks c k → Building c t f m (ss ++ [s]) k (m'.store f.slot s)
  | malloc {ss k m'} : Building c t f m ss k m' → Building c t f m ss (k + 1) m'
  | other {ss k m' m''} (a : MemAct Tid) : Building c t f m ss k m' → Foreign c t f k m' a →
      m'.next a = some m'' → Building c t f m ss k m''

/-! ## What the other steps leave alone -/

variable {c : Ctx} {t : Tid} {f : Frame} {m m' m'' : MemState Tid} {ss : List Store} {k : Nat}
  {a : MemAct Tid}

/-- What a step can do to the slot table. -/
theorem slots_of_next (hn : m.next a = some m') :
    m'.slots = m.slots ∨ ∃ b, m.slots.next b = some m'.slots := by
  cases a with
  | slot b =>
      obtain ⟨s, hs, rfl⟩ := Option.map_eq_some_iff.mp hn
      exact .inr ⟨b, hs⟩
  | write u b h =>
      simp only [MemState.next] at hn
      split at hn
      · cases hn
      · cases hn
        exact .inl rfl

theorem owned_next {i : Nat} (h : Owned m.slots i) (hi : i < maxNoOfThreads)
    (hn : m.next a = some m') : Owned m'.slots i := by
  rcases slots_of_next hn with heq | ⟨b, hb⟩
  · rw [heq]
    exact h
  · exact h.next hi hb

/-- In every run an entry of the table has one owner. -/
theorem owned_of_run {as : List (MemAct Tid)} {i : Nat} (hi : i < maxNoOfThreads)
    (h : (memSys Tid).Run TSys.Any as m) : Owned m.slots i := by
  refine h.invariant (I := fun m => Owned m.slots i) ?_ ?_
  · rintro m ⟨main, hmain⟩
    show Owned m.slots i
    rw [hmain]
    exact Slots.owned_boot main i
  · intro m a m' ho _ hn
    exact owned_next ho hi hn

/-- The call stays at the bottom of its thread. -/
theorem bottom_next {gs : List Frame} (hcalls : m.slots.calls t = gs ++ [f])
    (ha : Foreign c t f k m a) (hn : m.next a = some m') :
    ∃ gs', m'.slots.calls t = gs' ++ [f] := by
  cases a with
  | write u b h =>
      simp only [MemState.next] at hn
      split at hn
      · cases hn
      · cases hn
        exact ⟨gs, hcalls⟩
  | slot b =>
      obtain ⟨s, hs, rfl⟩ := Option.map_eq_some_iff.mp hn
      rcases Slots.next_cases hs with ⟨u, n, rfl, -, -, rfl⟩ | ⟨u, g, rest, rfl, -, hu, -, rfl⟩ |
        ⟨u, w, j, rest, rfl, -, -, -, rfl⟩ | ⟨u, j, rfl, -, -, rfl⟩
      · by_cases hut : u = t
        · subst hut
          refine ⟨⟨n, (Slots.getFreeSyscallArgIndex m.slots.table).1⟩ :: gs, ?_⟩
          simp only [Slots.State.enter, Function.update_self, hcalls, List.cons_append]
        · refine ⟨gs, ?_⟩
          simp only [Slots.State.enter, Function.update_of_ne (Ne.symm hut), hcalls]
      · by_cases hut : u = t
        · subst hut
          have hne : m.slots.calls u ≠ [f] := ha rfl
          rw [hcalls] at hu hne
          cases gs with
          | nil => exact absurd rfl hne
          | cons g' gs' =>
              simp only [List.cons_append, List.cons.injEq] at hu
              refine ⟨gs', ?_⟩
              simp only [Slots.State.leave, Function.update_self, hu.2]
        · refine ⟨gs, ?_⟩
          simp only [Slots.State.leave, Function.update_of_ne (Ne.symm hut), hcalls]
      · exact ⟨gs, hcalls⟩
      · exact ⟨gs, hcalls⟩

/-- The slot of the call and its blocks keep their contents. -/
theorem memory_next {gs : List Frame} (hown : Owned m.slots f.slot)
    (hcalls : m.slots.calls t = gs ++ [f]) (ha : Foreign c t f k m a)
    (hn : m.next a = some m') :
    m'.bufs f.slot = m.bufs f.slot ∧ ∀ j < k, m'.heap (c.alloc j) = m.heap (c.alloc j) := by
  cases a with
  | slot b =>
      obtain ⟨s, -, rfl⟩ := Option.map_eq_some_iff.mp hn
      exact ⟨rfl, fun _ _ => rfl⟩
  | write u b h =>
      obtain ⟨hinner, hblocks⟩ := ha
      simp only [MemState.next] at hn
      split at hn
      · cases hn
      · rename_i g rest hu
        cases hn
        refine ⟨Function.update_of_ne (Ne.symm ?_) _ _, hblocks⟩
        refine hown.slot_ne hcalls (u := u) (by rw [hu]; exact List.mem_cons_self) fun hut => ?_
        -- a nested call of the same thread
        subst hut
        have hne := hinner rfl
        rw [hcalls] at hu hne
        cases gs with
        | nil => exact absurd rfl hne
        | cons g' gs' =>
            simp only [List.cons_append, List.cons.injEq] at hu
            rw [hu.1]
            exact List.mem_cons_self

/-! ## What the call has written -/

theorem Store.apply_congr_region (s : Store) {u u' : UMem} {r : Region} (h : u r = u' r) :
    s.apply u r = s.apply u' r := by
  show applyAll [s] u r = applyAll [s] u' r
  exact applyAll_congr_region h

/-- A write of the innermost call is a step. -/
theorem exists_next_store {fs : List Frame} (hcalls : m.slots.calls t = f :: fs) (s : Store) :
    ∃ a, (memSys Tid).next m a = some (m.store f.slot s) := by
  refine ⟨.write t (fun b => s.apply (m.view f.slot) (.buf b))
    fun p => s.apply (m.view f.slot) (.heap p), ?_⟩
  simp only [memSys, MemState.next, hcalls]
  rfl

namespace Building

/-- The stretch continues the run that led to the call. -/
theorem run (h : Building c t f m ss k m') {as : List (MemAct Tid)}
    (hrun : (memSys Tid).Run TSys.Any as m) : ∃ bs, (memSys Tid).Run TSys.Any bs m' := by
  induction h with
  | enter _ => exact ⟨as, hrun⟩
  | @store ss k m' s _ hcalls _ ih =>
      obtain ⟨bs, hbs⟩ := ih
      obtain ⟨a, hn⟩ := exists_next_store hcalls s
      exact ⟨_, hbs.snoc trivial hn⟩
  | malloc _ ih => exact ih
  | other a _ _ hn ih =>
      obtain ⟨bs, hbs⟩ := ih
      exact ⟨_, hbs.snoc trivial hn⟩

/-- Several writes in a row. -/
theorem stores {ss' : List Store} (h : Building c t f m ss k m') (hcalls : m'.slots.calls t = [f])
    (hinto : ∀ s ∈ ss', s.InBlocks c k) :
    ∃ m'', Building c t f m (ss ++ ss') k m'' ∧ m''.slots = m'.slots := by
  induction ss' generalizing ss m' with
  | nil => exact ⟨m', by rwa [List.append_nil], rfl⟩
  | cons s ss' ih =>
      have hs : s.InBlocks c k := hinto s List.mem_cons_self
      obtain ⟨m'', hb, hslots⟩ := ih (h.store s hcalls hs) hcalls
        fun s' hs' => hinto s' (List.mem_cons_of_mem s hs')
      refine ⟨m'', ?_, hslots⟩
      rwa [List.append_assoc, List.singleton_append] at hb

theorem owned (h : Building c t f m ss k m') (hi : f.slot < maxNoOfThreads)
    (hown : Owned m.slots f.slot) : Owned m'.slots f.slot := by
  induction h with
  | enter _ => exact hown
  | store s _ _ _ ih => exact ih
  | malloc _ ih => exact ih
  | other a _ _ hn ih => exact owned_next ih hi hn

theorem bottom (h : Building c t f m ss k m') : ∃ gs, m'.slots.calls t = gs ++ [f] := by
  induction h with
  | enter hcalls => exact ⟨[], hcalls⟩
  | store s _ _ _ ih => exact ih
  | malloc _ ih => exact ih
  | other a _ ha hn ih =>
      obtain ⟨gs, hgs⟩ := ih
      exact bottom_next hgs ha hn

theorem inBlocks (h : Building c t f m ss k m') : ∀ s ∈ ss, s.InBlocks c k := by
  induction h with
  | enter _ => exact fun s hs => absurd hs List.not_mem_nil
  | store s _ _ hinto ih =>
      intro s' hs'
      rcases List.mem_append.mp hs' with hs' | hs'
      · exact ih s' hs'
      · rw [List.mem_singleton.mp hs']
        exact hinto
  | malloc _ ih =>
      intro s hs p hp
      obtain ⟨j, hj, rfl⟩ := ih s hs p hp
      exact ⟨j, Nat.lt_succ_of_lt hj, rfl⟩
  | other _ _ _ _ ih => exact ih

/-- **What the call built** is in its slot and in its blocks, whatever the other
calls did meanwhile: its writes over what the slot held at first. -/
theorem memory (h : Building c t f m ss k m') (hi : f.slot < maxNoOfThreads)
    (hown : Owned m.slots f.slot) (hk : k ≤ 2 ^ 32) :
    ∃ u : UMem, (∀ b, u (.buf b) = m.bufs f.slot b) ∧
      (∀ b, m'.bufs f.slot b = applyAll ss u (.buf b)) ∧
      ∀ j < k, m'.heap (c.alloc j) = applyAll ss u (.heap (c.alloc j)) := by
  induction h with
  | enter _ => exact ⟨m.view f.slot, fun _ => rfl, fun _ => rfl, fun j hj => absurd hj (by omega)⟩
  | @store ss k m' s _ _ _ ih =>
      obtain ⟨u, hslot, hbufs, hheap⟩ := ih hk
      refine ⟨u, hslot, fun b => ?_, fun j hj => ?_⟩
      · rw [applyAll_append, applyAll_cons, applyAll_nil]
        simp only [MemState.store, Function.update_self]
        exact s.apply_congr_region (hbufs b)
      · rw [applyAll_append, applyAll_cons, applyAll_nil]
        exact s.apply_congr_region (hheap j hj)
  | @malloc ss k m' hb ih =>
      obtain ⟨u, hslot, hbufs, hheap⟩ := ih (by omega)
      -- the new block holds what it holds now; nothing was written to it yet
      have hnew : ∀ j < k, c.alloc j ≠ c.alloc k := by
        intro j hj heq
        have hjk := c.alloc_inj j (by omega) k (by omega) heq
        omega
      refine ⟨Function.update u (.heap (c.alloc k)) (m'.heap (c.alloc k)), fun b => ?_, fun b => ?_,
        fun j hj => ?_⟩
      · rw [Function.update_of_ne (Ne.symm (heap_ne_buf _ b))]
        exact hslot b
      · rw [hbufs b]
        refine applyAll_congr_region ?_
        rw [Function.update_of_ne (Ne.symm (heap_ne_buf _ b))]
      · by_cases hjk : j = k
        · rw [hjk, applyAll_of_ne, Function.update_self]
          intro s hs hdst
          obtain ⟨i, hik, heq⟩ := hb.inBlocks s hs _ hdst
          exact hnew i hik heq.symm
        · rw [hheap j (by omega)]
          refine applyAll_congr_region ?_
          rw [Function.update_of_ne fun heq => hnew j (by omega) (Region.heap.inj heq)]
  | other a hb ha hn ih =>
      obtain ⟨u, hslot, hbufs, hheap⟩ := ih hk
      obtain ⟨gs, hgs⟩ := hb.bottom
      obtain ⟨hsame, hblocks⟩ := memory_next (hb.owned hi hown) hgs ha hn
      refine ⟨u, hslot, fun b => ?_, fun j hj => ?_⟩
      · rw [hsame]
        exact hbufs b
      · rw [hblocks j hj]
        exact hheap j hj

end Building

end Porpoise.Shim
