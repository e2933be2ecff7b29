import Mathlib.Data.Finset.Card
import Mathlib.Data.Finset.Range
import Mathlib.Logic.Function.Basic
import Porpoise.Lib.Scan

/-!
# The slot table

`syscall_arg_table` holds one set of argument buffers per entry; an entry is
taken when its `busy` field is not 0. Its two operations run under
`syscall_arg_table_lock`, so each is one atomic step:

* `getFreeSyscallArgIndex` takes the first entry with `busy == 0` and sets
  its field to 1; without one it returns `maxNoOfThreads`;
* `releaseSlot` is the `busy = 0` at the end of `__syscall_wrap`.

Only the `busy` column is kept here; the buffers of one entry are the subject
of `Porpoise.Shim`.
-/

namespace Porpoise.Slots

open Porpoise.Lib

/-- `MAX_NO_OF_THREADS`: the entries of `syscall_arg_table`. -/
def maxNoOfThreads : Nat := 16

/-- The `busy` column of `syscall_arg_table`. Entries from `maxNoOfThreads`
on lie outside the array. -/
abbrev SlotTable := Nat → Int

/-- `!syscall_arg_table[i].busy`. -/
def isFree (t : SlotTable) (i : Nat) : Bool := t i == 0

/-- `get_free_syscall_arg_index`: the index returned and the table left
behind. -/
def getFreeSyscallArgIndex (t : SlotTable) : Nat × SlotTable :=
  let i := scan (isFree t) maxNoOfThreads
  if i < maxNoOfThreads then (i, Function.update t i 1) else (i, t)

/-- `syscall_arg_table[i].busy = 0`. -/
def releaseSlot (t : SlotTable) (i : Nat) : SlotTable := Function.update t i 0

/-- The entries that a claim passes over. -/
def busySlots (t : SlotTable) : Finset Nat :=
  {i ∈ Finset.range maxNoOfThreads | t i ≠ 0}

@[simp] theorem mem_busySlots {t : SlotTable} {i : Nat} :
    i ∈ busySlots t ↔ i < maxNoOfThreads ∧ t i ≠ 0 := by
  simp [busySlots]

/-- The index a claim returns. -/
theorem getFree_fst (t : SlotTable) :
    (getFreeSyscallArgIndex t).1 = scan (isFree t) maxNoOfThreads := by
  simp only [getFreeSyscallArgIndex]
  split <;> rfl

/-- A claim that finds an entry: it was free, and only its field changes. -/
theorem getFree_of_lt {t : SlotTable} (h : (getFreeSyscallArgIndex t).1 < maxNoOfThreads) :
    t (getFreeSyscallArgIndex t).1 = 0 ∧
    (getFreeSyscallArgIndex t).2 =
      Function.update t (getFreeSyscallArgIndex t).1 1 := by
  rw [getFree_fst] at h ⊢
  refine ⟨by simpa [isFree] using (scan_spec h).1, ?_⟩
  simp [getFreeSyscallArgIndex, h]

/-- A claim fails exactly when every entry is taken. -/
theorem getFree_lt_iff {t : SlotTable} :
    (getFreeSyscallArgIndex t).1 < maxNoOfThreads ↔
      (busySlots t).card < maxNoOfThreads := by
  rw [getFree_fst, scan_lt_iff]
  have hle : (busySlots t).card ≤ (Finset.range maxNoOfThreads).card :=
    Finset.card_le_card (Finset.filter_subset _ _)
  rw [Finset.card_range] at hle
  constructor
  · rintro ⟨i, hi, hfree⟩
    refine lt_of_le_of_ne hle fun heq => ?_
    have hall : busySlots t = Finset.range maxNoOfThreads :=
      Finset.eq_of_subset_of_card_le (Finset.filter_subset _ _) (by simp [heq])
    have : i ∈ busySlots t := hall ▸ Finset.mem_range.mpr hi
    simp [isFree] at hfree
    simp [hfree] at this
  · intro hlt
    by_contra hno
    push Not at hno
    have hall : busySlots t = Finset.range maxNoOfThreads := by
      ext i
      simp only [mem_busySlots, Finset.mem_range, and_iff_left_iff_imp]
      intro hi
      simpa [isFree] using hno i hi
    rw [hall, Finset.card_range] at hlt
    exact lt_irrefl _ hlt

end Porpoise.Slots
