import Mathlib.Data.Finset.Basic

/-!
# An abstract allocator

A heap is the set of blocks that are allocated and not freed. The answer of every
allocation is given from outside: a fresh block, or 0 when there is none. To free
0 does nothing; a pointer that is freed and is no live block is kept in `wild`.

* `freeAll_mallocAll`: to free all that was allocated, in the same order, leaves
  the heap as it was.
-/

namespace Porpoise.Lib

structure Heap (α : Type*) where
  live : Finset α
  wild : List α

namespace Heap

variable {α : Type*} [DecidableEq α] [Zero α]

/-- `malloc` with the answer `b`. -/
def malloc (h : Heap α) (b : α) : Heap α :=
  if b = 0 then h else { h with live := insert b h.live }

def free (h : Heap α) (b : α) : Heap α :=
  if b = 0 then h
  else if b ∈ h.live then { h with live := h.live.erase b }
  else { h with wild := b :: h.wild }

def mallocAll (h : Heap α) (bs : List α) : Heap α := bs.foldl malloc h

def freeAll (h : Heap α) (bs : List α) : Heap α := bs.foldl free h

/-- The answers are blocks that are not in use, each once, or 0. -/
def Fresh (h : Heap α) (bs : List α) : Prop :=
  (∀ b ∈ bs, b ≠ 0 → b ∉ h.live) ∧ bs.Pairwise fun b b' => b ≠ 0 → b ≠ b'

instance (h : Heap α) (bs : List α) : Decidable (h.Fresh bs) :=
  inferInstanceAs (Decidable (_ ∧ _))

variable {h : Heap α} {b b' : α} {bs : List α}

@[simp] theorem mallocAll_nil (h : Heap α) : h.mallocAll [] = h := rfl

@[simp] theorem mallocAll_cons (h : Heap α) (b : α) (bs : List α) :
    h.mallocAll (b :: bs) = (h.malloc b).mallocAll bs := rfl

@[simp] theorem freeAll_nil (h : Heap α) : h.freeAll [] = h := rfl

@[simp] theorem freeAll_cons (h : Heap α) (b : α) (bs : List α) :
    h.freeAll (b :: bs) = (h.free b).freeAll bs := rfl

@[simp] theorem malloc_zero (h : Heap α) : h.malloc 0 = h := if_pos rfl

@[simp] theorem free_zero (h : Heap α) : h.free 0 = h := if_pos rfl

theorem mem_malloc : b' ∈ (h.malloc b).live ↔ b' ∈ h.live ∨ (b' = b ∧ b ≠ 0) := by
  unfold malloc
  split
  · rename_i hb
    constructor
    · exact .inl
    · rintro (hmem | ⟨-, hne⟩)
      · exact hmem
      · exact absurd hb hne
  · rename_i hb
    rw [Finset.mem_insert]
    constructor
    · rintro (rfl | hmem)
      · exact .inr ⟨rfl, hb⟩
      · exact .inl hmem
    · rintro (hmem | ⟨rfl, -⟩)
      · exact .inr hmem
      · exact .inl rfl

@[simp] theorem malloc_wild (h : Heap α) (b : α) : (h.malloc b).wild = h.wild := by
  unfold malloc
  split <;> rfl

/-- **One block.** To free it when it was fresh leaves the heap as it was. -/
theorem free_malloc (hb : b ≠ 0 → b ∉ h.live) : (h.malloc b).free b = h := by
  by_cases hz : b = 0
  · rw [hz, malloc_zero, free_zero]
  · rw [malloc, if_neg hz, free, if_neg hz, if_pos (Finset.mem_insert_self ..)]
    simp only [Finset.erase_insert (hb hz)]

/-- A free and an allocation of different blocks commute. -/
theorem free_malloc_comm (hne : b ≠ 0 → b ≠ b') :
    (h.malloc b').free b = (h.free b).malloc b' := by
  by_cases hz : b = 0
  · rw [hz, free_zero, free_zero]
  · by_cases hz' : b' = 0
    · rw [hz', malloc_zero, malloc_zero]
    · have hmem : b ∈ insert b' h.live ↔ b ∈ h.live := by
        rw [Finset.mem_insert, or_iff_right (hne hz)]
      simp only [free, malloc, if_neg hz, if_neg hz', hmem]
      split
      · simp only [Finset.erase_insert_of_ne (hne hz).symm]
      · rfl

theorem free_mallocAll_comm (hne : ∀ b' ∈ bs, b ≠ 0 → b ≠ b') (h : Heap α) :
    (h.mallocAll bs).free b = (h.free b).mallocAll bs := by
  induction bs generalizing h with
  | nil => rfl
  | cons b' bs ih =>
      rw [mallocAll_cons, mallocAll_cons, ih fun b'' hb'' => hne b'' (List.mem_cons_of_mem _ hb''),
        free_malloc_comm (hne b' (List.mem_cons_self ..))]

/-- **All blocks.** Each is freed once, and none is wild. -/
theorem freeAll_mallocAll (hfresh : h.Fresh bs) : (h.mallocAll bs).freeAll bs = h := by
  induction bs with
  | nil => rfl
  | cons b bs ih =>
      obtain ⟨hlive, hdistinct⟩ := hfresh
      obtain ⟨hhead, htail⟩ := List.pairwise_cons.mp hdistinct
      rw [mallocAll_cons, freeAll_cons, free_mallocAll_comm hhead,
        free_malloc (hlive b (List.mem_cons_self ..))]
      exact ih ⟨fun b' hb' => hlive b' (List.mem_cons_of_mem _ hb'), htail⟩

theorem mem_mallocAll :
    b ∈ (h.mallocAll bs).live ↔ b ∈ h.live ∨ (b ∈ bs ∧ b ≠ 0) := by
  induction bs generalizing h with
  | nil => simp
  | cons b' bs ih =>
      rw [mallocAll_cons, ih, mem_malloc, List.mem_cons]
      constructor
      · rintro ((hmem | ⟨rfl, hne⟩) | ⟨hmem, hne⟩)
        · exact .inl hmem
        · exact .inr ⟨.inl rfl, hne⟩
        · exact .inr ⟨.inr hmem, hne⟩
      · rintro (hmem | ⟨rfl | hmem, hne⟩)
        · exact .inl (.inl hmem)
        · exact .inl (.inr ⟨rfl, hne⟩)
        · exact .inr ⟨hmem, hne⟩

@[simp] theorem mallocAll_wild (h : Heap α) (bs : List α) : (h.mallocAll bs).wild = h.wild := by
  induction bs generalizing h with
  | nil => rfl
  | cons b bs ih => rw [mallocAll_cons, ih, malloc_wild]

/-- No block was got. -/
theorem mallocAll_of_zero (hbs : ∀ b ∈ bs, b = 0) (h : Heap α) : h.mallocAll bs = h := by
  induction bs with
  | nil => rfl
  | cons b bs ih =>
      rw [mallocAll_cons, hbs b (List.mem_cons_self ..), malloc_zero]
      exact ih fun b' hb' => hbs b' (List.mem_cons_of_mem _ hb')

end Heap

end Porpoise.Lib
