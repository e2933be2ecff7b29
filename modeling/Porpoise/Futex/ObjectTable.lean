import Mathlib.Algebra.Group.Nat.Defs
import Mathlib.Data.Finset.Card
import Mathlib.Data.Finset.Range
import Porpoise.Lib.Scan

/-!
# The object table

`object_table` maps the address of an enclave word to the untrusted block that
mirrors it for the kernel. An entry is in use when its `in` is not `NULL`; no
entry is ever removed. Both operations run under `object_table_lock`, so each
is one atomic step:

* `getOutAddress` returns the block of the first entry for an address, `NULL`
  when there is none;
* `setOutAddress` puts a block that `malloc_user` returned into the first
  unused entry; without one it frees the block and returns `NULL`.
-/

namespace Porpoise.Futex

open Porpoise.Lib

/-- Addresses; `NULL` is 0. -/
abbrev Addr := Nat

def null : Addr := 0

/-- `MAX_NO_OBJECTS`: the entries of `object_table`. -/
def maxNoObjects : Nat := 1024

/-- `struct ptr_map_t`. -/
structure PtrMap where
  «in» : Addr
  out : Addr
  deriving DecidableEq

/-- `object_table`. Only the entries below `maxNoObjects` are looked at. -/
abbrev ObjectTable := Nat → PtrMap

/-- The static table before the first call: every entry is zero. -/
def emptyTable : ObjectTable := fun _ => ⟨null, null⟩

/-- The table with `e` stored at `i`. -/
def fill (t : ObjectTable) (i : Nat) (e : PtrMap) : ObjectTable :=
  fun j => if j = i then e else t j

/-- `get_out_address`. -/
def getOutAddress (t : ObjectTable) (key : Addr) : Addr :=
  let i := scan (fun i => (t i).in == key) maxNoObjects
  if i < maxNoObjects then (t i).out else null

/-- `set_out_address`, where `out` is the block `malloc_user` returned: the
address returned and the table left behind. -/
def setOutAddress (t : ObjectTable) (key out : Addr) : Addr × ObjectTable :=
  let i := scan (fun i => (t i).in == null) maxNoObjects
  if i < maxNoObjects then (out, fill t i ⟨key, out⟩) else (null, t)

/-- Some entry is unused. -/
def HasRoom (t : ObjectTable) : Prop := ∃ i < maxNoObjects, (t i).in = null

instance (t : ObjectTable) : Decidable (HasRoom t) :=
  decidable_of_iff (scan (fun i => (t i).in == null) maxNoObjects < maxNoObjects) (by
    rw [scan_lt_iff, HasRoom]
    simp)

/-- Entries in use hold a block. -/
def BlocksSet (t : ObjectTable) : Prop :=
  ∀ i < maxNoObjects, (t i).in ≠ null → (t i).out ≠ null

/-- The entries in use come first. -/
def Packed (t : ObjectTable) : Prop :=
  ∀ i j, i ≤ j → j < maxNoObjects → (t i).in = null → (t j).in = null

variable {t : ObjectTable} {key out : Addr} {i : Nat}

@[simp] theorem fill_self (t : ObjectTable) (i : Nat) (e : PtrMap) : fill t i e i = e :=
  if_pos rfl

theorem fill_of_ne {j : Nat} (h : j ≠ i) (e : PtrMap) : fill t i e j = t j := if_neg h

/-- A table with fewer than `maxNoObjects` entries in use has room. -/
theorem hasRoom_iff :
    HasRoom t ↔ ({i ∈ Finset.range maxNoObjects | (t i).in ≠ null} : Finset Nat).card <
      maxNoObjects := by
  constructor
  · rintro ⟨i, hi, hnull⟩
    have hss : ({i ∈ Finset.range maxNoObjects | (t i).in ≠ null} : Finset Nat) ⊂
        Finset.range maxNoObjects := by
      refine Finset.filter_ssubset.mpr ⟨i, Finset.mem_range.mpr hi, ?_⟩
      simpa using hnull
    simpa using Finset.card_lt_card hss
  · intro hlt
    by_contra hno
    have hall : ∀ i ∈ Finset.range maxNoObjects, (t i).in ≠ null := by
      intro i hi hnull
      exact hno ⟨i, Finset.mem_range.mp hi, hnull⟩
    rw [Finset.filter_true_of_mem hall, Finset.card_range] at hlt
    exact Nat.lt_irrefl _ hlt

/-- A look-up that returns a block returns that of an entry for the address. -/
theorem getOutAddress_spec (h : getOutAddress t key ≠ null) :
    ∃ i < maxNoObjects, (t i).in = key ∧ (t i).out = getOutAddress t key := by
  simp only [getOutAddress] at h ⊢
  split at h
  · rename_i hi
    refine ⟨_, hi, by simpa using (scan_spec hi).1, ?_⟩
    rw [if_pos hi]
  · exact absurd rfl h

theorem getOutAddress_of_first (hi : i < maxNoObjects) (hin : (t i).in = key)
    (hfirst : ∀ j < i, (t j).in ≠ key) : getOutAddress t key = (t i).out := by
  have hscan : scan (fun j => (t j).in == key) maxNoObjects = i :=
    (scan_eq_iff hi).mpr ⟨by simp [hin], fun j hj => by simpa using hfirst j hj⟩
  simp only [getOutAddress, hscan, if_pos hi]

/-- A look-up fails exactly when there is no entry for the address. -/
theorem getOutAddress_eq_null_iff (hb : BlocksSet t) (hkey : key ≠ null) :
    getOutAddress t key = null ↔ ∀ i < maxNoObjects, (t i).in ≠ key := by
  simp only [getOutAddress]
  split
  · rename_i hi
    have hin : (t (scan (fun i => (t i).in == key) maxNoObjects)).in = key := by
      simpa using (scan_spec hi).1
    constructor
    · intro hout
      exact absurd hout (hb _ hi (by rw [hin]; exact hkey))
    · intro hno
      exact absurd hin (hno _ hi)
  · rename_i hi
    have hle := scan_le (fun i => (t i).in == key) maxNoObjects
    refine ⟨fun _ i hlt => ?_, fun _ => rfl⟩
    simpa using scan_eq_length_iff.mp (Nat.le_antisymm hle (Nat.le_of_not_lt hi)) i hlt

/-- With room the block goes into the first unused entry. -/
theorem setOutAddress_of_hasRoom (key out : Addr) (h : HasRoom t) :
    ∃ i < maxNoObjects, (t i).in = null ∧ (∀ j < i, (t j).in ≠ null) ∧
      setOutAddress t key out = (out, fill t i ⟨key, out⟩) := by
  have hi : scan (fun i => (t i).in == null) maxNoObjects < maxNoObjects := by
    obtain ⟨i, hi, hnull⟩ := h
    exact scan_lt_iff.mpr ⟨i, hi, by simp [hnull]⟩
  refine ⟨_, hi, by simpa using (scan_spec hi).1, fun j hj => ?_, ?_⟩
  · simpa using (scan_spec hi).2 j hj
  · simp only [setOutAddress, if_pos hi]

/-- Without room nothing changes, and the address returned is `NULL`. -/
theorem setOutAddress_of_not_hasRoom (key out : Addr) (h : ¬ HasRoom t) :
    setOutAddress t key out = (null, t) := by
  have hi : ¬ scan (fun i => (t i).in == null) maxNoObjects < maxNoObjects := by
    intro hlt
    exact h ⟨_, hlt, by simpa using (scan_spec hlt).1⟩
  simp only [setOutAddress, if_neg hi]

/-- Filling an unused entry does not change the look-ups of other addresses. -/
theorem getOutAddress_fill_ne {key' : Addr} (hnull : (t i).in = null) (hne : key' ≠ key)
    (hkey' : key' ≠ null) :
    getOutAddress (fill t i ⟨key, out⟩) key' = getOutAddress t key' := by
  have hscan : scan (fun j => (fill t i ⟨key, out⟩ j).in == key') maxNoObjects =
      scan (fun j => (t j).in == key') maxNoObjects := by
    refine scan_congr fun j _ => ?_
    by_cases hj : j = i
    · subst hj
      simp [hnull, hne.symm, hkey'.symm]
    · rw [fill_of_ne hj]
  simp only [getOutAddress, hscan]
  split
  · rename_i hlt
    have hne' : scan (fun j => (t j).in == key') maxNoObjects ≠ i := by
      intro hi
      have hin : (t (scan (fun j => (t j).in == key') maxNoObjects)).in = key' := by
        simpa using (scan_spec hlt).1
      rw [hi, hnull] at hin
      exact hkey' hin.symm
    rw [fill_of_ne hne']
  · rfl

/-- The first block stored for an address is the one look-ups return. -/
theorem getOutAddress_fill_self (hi : i < maxNoObjects)
    (hno : ∀ j < maxNoObjects, (t j).in ≠ key) :
    getOutAddress (fill t i ⟨key, out⟩) key = out := by
  have hscan : scan (fun j => (fill t i ⟨key, out⟩ j).in == key) maxNoObjects = i := by
    refine (scan_eq_iff hi).mpr ⟨by simp, fun j hj => ?_⟩
    rw [fill_of_ne (Nat.ne_of_lt hj)]
    simpa using hno j (Nat.lt_trans hj hi)
  simp only [getOutAddress, hscan, if_pos hi, fill_self]

/-- In a packed table a look-up that succeeds keeps its result for ever. -/
theorem getOutAddress_fill_of_found {key' : Addr} (hp : Packed t) (hnull : (t i).in = null)
    (hkey' : key' ≠ null) (hfound : getOutAddress t key' ≠ null) :
    getOutAddress (fill t i ⟨key, out⟩) key' = getOutAddress t key' := by
  have hlt : scan (fun j => (t j).in == key') maxNoObjects < maxNoObjects := by
    obtain ⟨j, hj, hin, -⟩ := getOutAddress_spec hfound
    exact scan_lt_iff.mpr ⟨j, hj, by simp [hin]⟩
  obtain ⟨hin, hfirst⟩ := scan_spec hlt
  have hin' : (t (scan (fun j => (t j).in == key') maxNoObjects)).in = key' := by
    simpa using hin
  -- the entry found is in use, so it lies before the unused entry `i`
  have hbefore : scan (fun j => (t j).in == key') maxNoObjects < i := by
    by_contra hge
    have hfree := hp i _ (Nat.le_of_not_lt hge) hlt hnull
    exact hkey' (hin'.symm.trans hfree)
  have hscan : scan (fun j => (fill t i ⟨key, out⟩ j).in == key') maxNoObjects =
      scan (fun j => (t j).in == key') maxNoObjects := by
    refine (scan_eq_iff hlt).mpr ⟨?_, fun j hj => ?_⟩
    · rw [fill_of_ne (Nat.ne_of_lt hbefore)]
      exact hin
    · rw [fill_of_ne (Nat.ne_of_lt (Nat.lt_trans hj hbefore))]
      exact hfirst j hj
  simp only [getOutAddress, hscan, if_pos hlt]
  rw [fill_of_ne (Nat.ne_of_lt hbefore)]

theorem Packed.fill (hp : Packed t) (hbefore : ∀ j < i, (t j).in ≠ null) (hkey : key ≠ null) :
    Packed (fill t i ⟨key, out⟩) := by
  intro j k hjk hk hnull
  have hji : j ≠ i := by
    rintro rfl
    rw [fill_self] at hnull
    exact hkey hnull
  rw [fill_of_ne hji] at hnull
  have hgt : i < j := by
    by_contra hle
    exact hbefore j (by omega) hnull
  rw [fill_of_ne (by omega)]
  exact hp j k hjk hk hnull

theorem packed_empty : Packed emptyTable := fun _ _ _ _ _ => rfl

theorem blocksSet_empty : BlocksSet emptyTable := fun _ _ h => absurd rfl h

theorem BlocksSet.fill (h : BlocksSet t) (hout : out ≠ null) :
    BlocksSet (fill t i ⟨key, out⟩) := by
  intro j hj hin
  by_cases hji : j = i
  · subst hji
    simpa using hout
  · rw [fill_of_ne hji] at hin ⊢
    exact h j hj hin

-- From here on the table is known by the lemmas above only.
attribute [irreducible] getOutAddress setOutAddress

end Porpoise.Futex
