import Mathlib.Algebra.Group.Nat.Defs
import Mathlib.Data.Nat.Basic
import Porpoise.Lib.Scan

/-!
# Bytes in memory

Memory from some address on is a function from the offset to the byte there.
Integers are stored least significant byte first; `memcpy` of `k` bytes is
`overlay`, an update of some bytes is `patch`; a C string runs to its first zero
byte. `memcpyLen` is the length that `memcpy` receives when a `long` passes
through a parameter `int len`.
-/

namespace Porpoise.Lib

abbrev Byte := BitVec 8

abbrev Word := BitVec 64

/-- Memory from some address on. -/
abbrev Bytes := Nat → Byte

/-- The bytes of an integer in memory; zero after the eighth. -/
def le64 (w : Word) : Bytes := fun i => BitVec.ofNat 8 (w.toNat / 256 ^ i)

def load32 (f : Bytes) (o : Nat) : BitVec 32 :=
  BitVec.ofNat 32 ((f o).toNat + 256 * (f (o + 1)).toNat + 256 ^ 2 * (f (o + 2)).toNat +
    256 ^ 3 * (f (o + 3)).toNat)

def load64 (f : Bytes) (o : Nat) : Word :=
  BitVec.ofNat 64 ((load32 f o).toNat + 2 ^ 32 * (load32 f (o + 4)).toNat)

/-- `k` bytes of `v` copied over `f` at offset `o`. -/
def overlay (o k : Nat) (v f : Bytes) : Bytes :=
  fun i => if o ≤ i ∧ i < o + k then v (i - o) else f i

/-- `strlen`; `2 ^ 64` when no byte of the address space is zero. -/
def strlen (f : Bytes) : Nat := scan (fun i => f i == 0) (2 ^ 64)

/-- The first `k` bytes. -/
def take (k : Nat) (f : Bytes) : List Byte := (List.range k).map f

/-- What a reader of at most `limit` bytes of a string reads: up to and with
the terminator. -/
def cstrLen (limit : Nat) (f : Bytes) : Nat := min (scan (fun i => f i == 0) limit + 1) limit

def cstr (limit : Nat) (f : Bytes) : List Byte := take (cstrLen limit f) f

/-- A `long` length converted to `int` and then to `size_t`. -/
def memcpyLen (len : Word) : Nat := ((len.setWidth 32).signExtend 64).toNat

variable {f g v : Bytes} {o k : Nat}

/-! ## Loads -/

theorem load32_congr {p : Nat} (h : ∀ i < 4, f (o + i) = g (p + i)) :
    load32 f o = load32 g p := by
  have h0 := h 0 (by omega)
  have h1 := h 1 (by omega)
  have h2 := h 2 (by omega)
  have h3 := h 3 (by omega)
  rw [Nat.add_zero, Nat.add_zero] at h0
  rw [load32, load32, h0, h1, h2, h3]

theorem load64_congr {p : Nat} (h : ∀ i < 8, f (o + i) = g (p + i)) :
    load64 f o = load64 g p := by
  have hlow : load32 f o = load32 g p := load32_congr fun i hi => h i (by omega)
  have hhigh : load32 f (o + 4) = load32 g (p + 4) := by
    refine load32_congr fun i hi => ?_
    simpa [Nat.add_assoc] using h (4 + i) (by omega)
  rw [load64, load64, hlow, hhigh]

/-- The low half of an eight-byte load is a four-byte load. -/
@[simp] theorem setWidth_load64 (f : Bytes) (o : Nat) : (load64 f o).setWidth 32 = load32 f o := by
  apply BitVec.eq_of_toNat_eq
  simp only [load64, BitVec.toNat_setWidth, BitVec.toNat_ofNat]
  omega

@[simp] theorem load32_le64 (w : Word) : load32 (le64 w) 0 = w.setWidth 32 := by
  apply BitVec.eq_of_toNat_eq
  simp only [load32, le64, BitVec.toNat_setWidth, BitVec.toNat_ofNat]
  omega

/-- A four-byte load holds the bytes it read. -/
theorem le64_load32 {i : Nat} (hi : i < 4) : le64 ((load32 f o).setWidth 64) i = f (o + i) := by
  have h0 := (f o).isLt
  have h1 := (f (o + 1)).isLt
  have h2 := (f (o + 2)).isLt
  have h3 := (f (o + 3)).isLt
  obtain rfl | rfl | rfl | rfl : i = 0 ∨ i = 1 ∨ i = 2 ∨ i = 3 := by omega
  all_goals
    apply BitVec.eq_of_toNat_eq
    simp only [le64, load32, BitVec.toNat_setWidth, BitVec.toNat_ofNat, Nat.add_zero]
    omega

theorem load32_le64_four (w : Word) :
    (load32 (le64 w) 4).toNat = w.toNat / 2 ^ 32 := by
  simp only [load32, le64, BitVec.toNat_ofNat]
  omega

@[simp] theorem load64_le64 (w : Word) : load64 (le64 w) 0 = w := by
  apply BitVec.eq_of_toNat_eq
  have hlow : (load32 (le64 w) 0).toNat = w.toNat % 2 ^ 32 := by
    rw [load32_le64, BitVec.toNat_setWidth]
  have hhigh := load32_le64_four w
  simp only [load64, BitVec.toNat_ofNat, Nat.zero_add, hlow, hhigh]
  omega

/-- An `int` passed as a `long` is the same `int`. -/
@[simp] theorem setWidth_signExtend (x : BitVec 32) : (x.signExtend 64).setWidth 32 = x := by
  ext i hi
  simp only [BitVec.getElem_setWidth, BitVec.getLsbD_signExtend]
  simp [hi, Nat.lt_of_lt_of_le hi]

theorem trunc_int (x : BitVec 32) : (x.setWidth 64).setWidth 32 = x := by
  simp

/-! ## Copies -/

theorem overlay_of_lt {i : Nat} (h : i < k) (v f : Bytes) : overlay o k v f (o + i) = v i := by
  have hc : o ≤ o + i ∧ o + i < o + k := by omega
  simp [overlay, hc]

theorem overlay_of_not {i : Nat} (h : ¬ (o ≤ i ∧ i < o + k)) (v f : Bytes) :
    overlay o k v f i = f i := if_neg h

/-- A load from inside a copy reads what was copied. -/
theorem load32_overlay {i : Nat} (h : i + 4 ≤ k) (v f : Bytes) :
    load32 (overlay o k v f) (o + i) = load32 v i := by
  refine load32_congr fun j hj => ?_
  rw [Nat.add_assoc]
  exact overlay_of_lt (by omega) v f

theorem load64_overlay {i : Nat} (h : i + 8 ≤ k) (v f : Bytes) :
    load64 (overlay o k v f) (o + i) = load64 v i := by
  refine load64_congr fun j hj => ?_
  rw [Nat.add_assoc]
  exact overlay_of_lt (by omega) v f

/-- A load from elsewhere does not see a copy. -/
theorem load32_overlay_of_disjoint {i : Nat} (h : i + 4 ≤ o ∨ o + k ≤ i) (v f : Bytes) :
    load32 (overlay o k v f) i = load32 f i :=
  load32_congr fun j hj => overlay_of_not (by omega) v f

theorem load64_overlay_of_disjoint {i : Nat} (h : i + 8 ≤ o ∨ o + k ≤ i) (v f : Bytes) :
    load64 (overlay o k v f) i = load64 f i :=
  load64_congr fun j hj => overlay_of_not (by omega) v f

theorem load64_overlay_self (w : Word) (o : Nat) (f : Bytes) :
    load64 (overlay o 8 (le64 w) f) o = w :=
  (load64_overlay (i := 0) (by decide) (le64 w) f).trans (load64_le64 w)

theorem load32_overlay_self (w : Word) (o : Nat) (f : Bytes) :
    load32 (overlay o 4 (le64 w) f) o = w.setWidth 32 :=
  (load32_overlay (i := 0) (by decide) (le64 w) f).trans (load32_le64 w)

theorem toNat_load64 (f : Bytes) (o : Nat) :
    (load64 f o).toNat = (load32 f o).toNat + 2 ^ 32 * (load32 f (o + 4)).toNat := by
  have hlow := (load32 f o).isLt
  have hhigh := (load32 f (o + 4)).isLt
  rw [load64, BitVec.toNat_ofNat]
  omega

@[simp] theorem load32_overlay_zero (h : 4 ≤ k) (v f : Bytes) :
    load32 (overlay 0 k v f) 0 = load32 v 0 :=
  load32_overlay (o := 0) (i := 0) h v f

@[simp] theorem load64_overlay_zero (h : 8 ≤ k) (v f : Bytes) :
    load64 (overlay 0 k v f) 0 = load64 v 0 :=
  load64_overlay (o := 0) (i := 0) h v f

/-! ## Updates in part -/

/-- The bytes after an update of those where `e` has one. -/
def patch (e : Nat → Option Byte) (f : Bytes) : Bytes := fun i => (e i).getD (f i)

/-- Only the first `k` bytes are updated. -/
def PatchWithin (k : Nat) (e : Nat → Option Byte) : Prop := ∀ i, k ≤ i → e i = none

theorem PatchWithin.mono {e : Nat → Option Byte} {l : Nat} (h : PatchWithin k e) (hkl : k ≤ l) :
    PatchWithin l e := fun i hi => h i (Nat.le_trans hkl hi)

/-- An update of a copy is that of the original. -/
theorem patch_overlay {e : Nat → Option Byte} {i : Nat} (hi : i < k) (v f : Bytes) :
    patch e (overlay 0 k v f) i = patch e v i := by
  have hcopy := overlay_of_lt (o := 0) hi v f
  rw [Nat.zero_add] at hcopy
  rw [patch, patch, hcopy]

/-! ## Prefixes and strings -/

theorem take_congr (h : ∀ i < k, f i = g i) : take k f = take k g := by
  refine List.map_congr_left fun i hi => ?_
  exact h i (List.mem_range.mp hi)

theorem take_eq_iff : take k f = take k g ↔ ∀ i < k, f i = g i := by
  simp [take, List.map_inj_left]

/-- A reader goes no further than the copy. -/
theorem take_overlay {m : Nat} (h : k ≤ m) (f g : Bytes) :
    take k (overlay 0 m f g) = take k f := by
  refine take_congr fun i hi => ?_
  simpa using overlay_of_lt (o := 0) (Nat.lt_of_lt_of_le hi h) f g

@[simp] theorem take_zero (f : Bytes) : take 0 f = [] := rfl

/-- The first byte of a prefix, unless it is empty. -/
theorem take_head (k : Nat) (f : Bytes) : (take k f)[0]? = if 0 < k then some (f 0) else none := by
  cases k with
  | zero => rfl
  | succ k => simp [take, List.range_succ_eq_map]

theorem cstrLen_le (limit : Nat) (f : Bytes) : cstrLen limit f ≤ limit := Nat.min_le_right _ _

/-- No byte before the terminator is zero. -/
theorem ne_zero_of_lt_cstrLen {limit i j : Nat} (hi : i < cstrLen limit f) (hj : j < i) :
    f j ≠ 0 := by
  have hscan : j < scan (fun i => f i == 0) limit := by
    simp only [cstrLen] at hi
    omega
  by_cases hlt : scan (fun i => f i == 0) limit < limit
  · simpa using (scan_spec hlt).2 j hscan
  · have hle := scan_le (fun i => f i == 0) limit
    have hall := scan_eq_length_iff.mp (Nat.le_antisymm hle (Nat.le_of_not_lt hlt))
    simpa using hall j (by omega)

/-- A position up to which no byte is zero is read. -/
theorem lt_cstrLen {limit i : Nat} (hi : i < limit) (h : ∀ j < i, f j ≠ 0) :
    i < cstrLen limit f := by
  have hscan : i ≤ scan (fun i => f i == 0) limit := by
    by_contra hlt
    have hlt' : scan (fun i => f i == 0) limit < limit := by omega
    have hzero := (scan_spec hlt').1
    exact h (scan (fun i => f i == 0) limit) (by omega) (by simpa using hzero)
  simp only [cstrLen]
  omega

/-- Strings that agree up to the terminator of one of them are equal. -/
theorem cstr_congr {limit : Nat} (h : ∀ i < cstrLen limit f, f i = g i) :
    cstr limit f = cstr limit g := by
  have hlen : cstrLen limit f = cstrLen limit g := by
    apply Nat.le_antisymm
    · by_contra hlt
      have hg : cstrLen limit g < cstrLen limit f := by omega
      have hnz : cstrLen limit g < cstrLen limit g := by
        refine lt_cstrLen (by have := cstrLen_le limit f; omega) fun j hj => ?_
        rw [← h j (by omega)]
        exact ne_zero_of_lt_cstrLen hg hj
      omega
    · by_contra hlt
      have hf : cstrLen limit f < cstrLen limit g := by omega
      have hnz : cstrLen limit f < cstrLen limit f := by
        refine lt_cstrLen (by have := cstrLen_le limit g; omega) fun j hj => ?_
        rw [h j hj]
        exact ne_zero_of_lt_cstrLen hf hj
      omega
  rw [cstr, cstr, ← hlen]
  exact take_congr h

theorem byte_not_ne (x : Byte) : ~~~ x ≠ x := by
  revert x
  decide

/-- A string that fits a copy is read back from it. -/
theorem cstr_overlay {limit : Nat} (h : cstrLen limit v ≤ k) (f : Bytes) :
    cstr limit (overlay 0 k v f) = cstr limit v := by
  refine (cstr_congr fun i hi => ?_).symm
  have hcopy := @overlay_of_lt 0 k i (by omega) v f
  rw [Nat.zero_add] at hcopy
  exact hcopy.symm

/-- The byte of a string at a position up to which no byte is zero. -/
theorem getElem?_cstr {limit i : Nat} (hi : i < limit) (h : ∀ j < i, f j ≠ 0) :
    (cstr limit f)[i]? = some (f i) := by
  simp [cstr, take, lt_cstrLen hi h]

/-- A string ends at its first zero byte, at the latest. -/
theorem strlen_le {i : Nat} (hi : i < 2 ^ 64) (h : f i = 0) : strlen f ≤ i := by
  have hlt : strlen f < 2 ^ 64 := scan_lt_iff.mpr ⟨i, hi, by rw [h]; rfl⟩
  by_contra hgt
  have hne := (scan_spec hlt).2 i (by rw [strlen] at hgt; omega)
  rw [h] at hne
  exact absurd hne (by decide)

theorem strlen_eq {i : Nat} (hi : i < 2 ^ 64) (h : f i = 0) (hne : ∀ j < i, f j ≠ 0) :
    strlen f = i := by
  refine (scan_eq_iff hi).mpr ⟨by rw [h]; rfl, fun j hj => ?_⟩
  exact beq_eq_false_iff_ne.mpr (hne j hj)

/-- A string that agrees up to its terminator. -/
theorem strlen_congr {g : Bytes} (h : ∀ i < strlen f + 1, g i = f i) : strlen g = strlen f := by
  by_cases hlt : strlen f < 2 ^ 64
  · obtain ⟨hend, hne⟩ := scan_spec hlt
    refine strlen_eq hlt ?_ fun j hj => ?_
    · rw [h _ (Nat.lt_succ_self _)]
      exact eq_of_beq hend
    · rw [h j (Nat.lt_succ_of_lt hj)]
      exact beq_eq_false_iff_ne.mp (hne j hj)
  · refine scan_congr fun i hi => ?_
    rw [h i (by omega)]

/-- What is read of a string is at most its length and the terminator. -/
theorem cstrLen_le_strlen (limit : Nat) (h : strlen f < 2 ^ 64) :
    cstrLen limit f ≤ strlen f + 1 := by
  have hzero : f (strlen f) = 0 := eq_of_beq (scan_spec h).1
  by_contra hlt
  exact ne_zero_of_lt_cstrLen (by omega : strlen f + 1 < cstrLen limit f) (by omega) hzero

-- the scan of the whole address space is never to be evaluated
attribute [irreducible] strlen

/-! ## Lengths -/

theorem memcpyLen_eq (len : Word) :
    memcpyLen len = if len.toNat % 2 ^ 32 < 2 ^ 31 then len.toNat % 2 ^ 32
      else len.toNat % 2 ^ 32 + (2 ^ 64 - 2 ^ 32) := by
  have hlow : (len.setWidth 32).toNat = len.toNat % 2 ^ 32 := BitVec.toNat_setWidth ..
  have hmsb : (len.setWidth 32).msb = decide (2 ^ 31 ≤ len.toNat % 2 ^ 32) := by
    rw [BitVec.msb_eq_decide, hlow]
  rw [memcpyLen, BitVec.toNat_signExtend, BitVec.toNat_setWidth, hlow, hmsb]
  by_cases h : len.toNat % 2 ^ 32 < 2 ^ 31
  · have hn : ¬ 2 ^ 31 ≤ len.toNat % 2 ^ 32 := by omega
    simp only [h, hn, decide_false, if_true]
    simp only [Bool.false_eq_true, if_false]
    omega
  · have hn : 2 ^ 31 ≤ len.toNat % 2 ^ 32 := by omega
    simp only [h, hn, decide_true, if_true, if_false]
    omega

theorem memcpyLen_of_lt {len : Word} (h : len.toNat < 2 ^ 31) : memcpyLen len = len.toNat := by
  rw [memcpyLen_eq, if_pos (by omega)]
  omega

@[simp] theorem memcpyLen_ofNat {n : Nat} (h : n < 2 ^ 31) :
    memcpyLen (BitVec.ofNat 64 n) = n := by
  have hn : (BitVec.ofNat 64 n).toNat = n := by
    rw [BitVec.toNat_ofNat, Nat.mod_eq_of_lt (by omega)]
  rw [memcpyLen_of_lt (by omega), hn]

end Porpoise.Lib
