import Mathlib.Data.BitVec

/-!
# Bit maps

A set of small numbers as the bits of a word. The least number of a set, and the least one
above a given number, are found with a few arithmetic operations and no loop.

* `mark`, `clear`: a number joins or leaves.
* `leastBit`, `leftBits`: masks of the least bit, and of the bits to the left of it.
* `ctz_leastBit`: the position of the least bit.
* `getLsbD_leftBits_idx2bit`: the numbers above a given one.
* `getLsbD_not_and_one`, `exists_above`: two ways to pick a number from a map that was shifted.
-/

namespace Porpoise.Lib.BitMap

variable {w : ℕ}

def idx2bit (w i : ℕ) : BitVec w := 1#w <<< i

def mark (x : BitVec w) (i : ℕ) : BitVec w := x ||| idx2bit w i

def clear (x : BitVec w) (i : ℕ) : BitVec w := x &&& ~~~idx2bit w i

def isMarked (x : BitVec w) (i : ℕ) : Bool := x &&& idx2bit w i ≠ 0#w

/-- The least bit of `x` alone. -/
def leastBit (x : BitVec w) : BitVec w := x &&& -x

/-- All bits to the left of the least bit of `x`. -/
def leftBits (x : BitVec w) : BitVec w := (x <<< 1) ||| -(x <<< 1)

variable {x : BitVec w} {i j : ℕ}

@[simp] theorem getLsbD_idx2bit : (idx2bit w i).getLsbD j = decide (i = j ∧ j < w) := by
  unfold idx2bit
  rw [BitVec.getLsbD_shiftLeft, Bool.eq_iff_iff]
  by_cases hj : j < w
  · simp only [hj, BitVec.getLsbD_one, decide_true, Bool.true_and, Bool.and_eq_true,
      Bool.not_eq_true', decide_eq_false_iff_not, decide_eq_true_eq, and_true]
    omega
  · simp only [hj, decide_false, Bool.false_and, Bool.false_eq_true, and_false]

@[simp] theorem getLsbD_mark (hi : i < w) :
    (mark x i).getLsbD j = (decide (j = i) || x.getLsbD j) := by
  unfold mark
  rw [BitVec.getLsbD_or, getLsbD_idx2bit, Bool.eq_iff_iff]
  simp only [Bool.or_eq_true, decide_eq_true_eq]
  constructor
  · rintro (h | ⟨rfl, -⟩)
    · exact Or.inr h
    · exact Or.inl rfl
  · rintro (rfl | h)
    · exact Or.inr ⟨rfl, hi⟩
    · exact Or.inl h

@[simp] theorem getLsbD_clear : (clear x i).getLsbD j = (decide (j ≠ i) && x.getLsbD j) := by
  unfold clear
  rw [BitVec.getLsbD_and, BitVec.getLsbD_not, getLsbD_idx2bit, Bool.eq_iff_iff]
  simp only [Bool.and_eq_true, Bool.not_eq_true', decide_eq_false_iff_not, decide_eq_true_eq]
  constructor
  · rintro ⟨h, hj, hne⟩
    exact ⟨fun he => hne ⟨he.symm, hj⟩, h⟩
  · rintro ⟨hne, h⟩
    exact ⟨h, BitVec.lt_of_getLsbD h, fun he => hne he.1.symm⟩

/-- The test with a mask reads one bit. -/
@[simp] theorem isMarked_eq : isMarked x i = x.getLsbD i := by
  have hbit : ∀ j, (x &&& idx2bit w i).getLsbD j = (x.getLsbD i && decide (i = j)) := by
    intro j
    rw [BitVec.getLsbD_and, getLsbD_idx2bit, Bool.eq_iff_iff]
    simp only [Bool.and_eq_true, decide_eq_true_eq]
    constructor
    · rintro ⟨h, rfl, -⟩
      exact ⟨h, rfl⟩
    · rintro ⟨h, rfl⟩
      exact ⟨h, rfl, BitVec.lt_of_getLsbD h⟩
  unfold isMarked
  rw [Bool.eq_iff_iff, decide_eq_true_eq]
  constructor
  · intro hne
    by_contra hx
    refine hne (BitVec.eq_of_getLsbD_eq fun j _ => ?_)
    rw [hbit, Bool.eq_false_iff.mpr hx]
    simp
  · intro hx h0
    have h := hbit i
    rw [h0, hx] at h
    simp at h

theorem mark_of_getLsbD (h : x.getLsbD i = true) : mark x i = x := by
  refine BitVec.eq_of_getLsbD_eq fun j _ => ?_
  rw [getLsbD_mark (BitVec.lt_of_getLsbD h)]
  by_cases hj : j = i
  · rw [hj, h]
    simp
  · simp [hj]

/-- A map is empty when no bit is set. -/
theorem eq_zero_iff : x = 0#w ↔ ∀ i, x.getLsbD i = false := by
  constructor
  · rintro rfl i
    exact BitVec.getLsbD_zero
  · intro h
    exact BitVec.eq_of_getLsbD_eq fun i _ => by rw [h i, BitVec.getLsbD_zero]

theorem ne_zero_of_getLsbD (h : x.getLsbD i = true) : x ≠ 0#w := by
  intro h0
  rw [eq_zero_iff.mp h0 i] at h
  cases h

/-! ## The least bit -/

theorem getLsbD_leastBit :
    (leastBit x).getLsbD i = true ↔ x.getLsbD i = true ∧ ∀ j < i, x.getLsbD j = false := by
  unfold leastBit
  rw [BitVec.getLsbD_and, BitVec.getLsbD_neg]
  by_cases hx : x.getLsbD i = true
  · have hi := BitVec.lt_of_getLsbD hx
    simp only [hx, hi, decide_true, Bool.true_and, Bool.true_xor, Bool.not_eq_true',
      decide_eq_false_iff_not, not_exists, not_and, Bool.not_eq_true, true_and]
  · simp only [hx, Bool.false_and, Bool.false_eq_true, false_and]

theorem leastBit_ne_zero (h : x ≠ 0#w) : leastBit x ≠ 0#w := by
  refine ne_zero_of_getLsbD (i := x.ctz.toNat) (getLsbD_leastBit.mpr ⟨?_, fun j hj => ?_⟩)
  · exact BitVec.getLsbD_true_ctz_of_ne_zero h
  · exact BitVec.getLsbD_false_of_lt_ctz hj

/-- **The position of the least bit** is the least number of the map. -/
theorem ctz_leastBit (h : x ≠ 0#w) :
    x.getLsbD (leastBit x).ctz.toNat = true ∧
      ∀ j < (leastBit x).ctz.toNat, x.getLsbD j = false :=
  getLsbD_leastBit.mp (BitVec.getLsbD_true_ctz_of_ne_zero (leastBit_ne_zero h))

/-- **The bits to the left** of a single bit. -/
theorem getLsbD_leftBits_idx2bit (hi : i < w) :
    (leftBits (idx2bit w i)).getLsbD j = decide (i < j ∧ j < w) := by
  unfold leftBits
  have hshift : ∀ k, (idx2bit w i <<< 1).getLsbD k = decide (k = i + 1 ∧ k < w) := by
    intro k
    rw [BitVec.getLsbD_shiftLeft, getLsbD_idx2bit, Bool.eq_iff_iff]
    simp only [Bool.and_eq_true, Bool.not_eq_true', decide_eq_true_eq, decide_eq_false_iff_not]
    omega
  have hbelow : (∃ k < j, decide (k = i + 1 ∧ k < w) = true) ↔ i + 1 < j ∧ i + 1 < w := by
    simp only [decide_eq_true_eq]
    constructor
    · rintro ⟨k, hk, rfl, hw⟩
      exact ⟨hk, hw⟩
    · rintro ⟨hj, hw⟩
      exact ⟨i + 1, hj, rfl, hw⟩
  rw [BitVec.getLsbD_or, BitVec.getLsbD_neg]
  simp only [hshift, hbelow]
  by_cases hj : j = i + 1
  · subst hj
    simp
  · simp only [hj, false_and, decide_false, Bool.false_or, Bool.false_xor, ← Bool.decide_and]
    exact decide_eq_decide.mpr (by omega)

/-! ## Picking a number -/

theorem getLsbD_and_three : (x &&& 3#w).getLsbD j = (x.getLsbD j && decide (j < 2)) := by
  rw [BitVec.getLsbD_and, BitVec.getLsbD_ofNat]
  by_cases hj : j < w
  · have hbit : Nat.testBit 3 j = decide (j < 2) := by
      match j with
      | 0 => rfl
      | 1 => rfl
      | j + 2 =>
          rw [Nat.testBit_succ, Nat.testBit_succ]
          simp
    rw [hbit]
    simp [hj]
  · rw [BitVec.getLsbD_of_ge x j (by omega)]
    simp

/-- The choice between the two lowest bits, when one is set: the lower one that is. -/
theorem getLsbD_not_and_one (h : x &&& 3#w ≠ 0#w) :
    x.getLsbD (~~~x &&& 1#w).toNat = true ∧ (~~~x &&& 1#w).toNat ≤ 1 ∧
      ∀ j < (~~~x &&& 1#w).toNat, x.getLsbD j = false := by
  have hsome : x.getLsbD 0 = true ∨ x.getLsbD 1 = true := by
    by_contra hno
    rw [not_or, Bool.not_eq_true, Bool.not_eq_true] at hno
    refine h (eq_zero_iff.mpr fun i => ?_)
    rw [getLsbD_and_three]
    match i with
    | 0 => rw [hno.1]; rfl
    | 1 => rw [hno.2]; rfl
    | i + 2 => simp
  have hw : 0 < w := by
    rcases hsome with h0 | h1
    · exact BitVec.lt_of_getLsbD h0
    · exact Nat.zero_lt_of_lt (BitVec.lt_of_getLsbD h1)
  have hval : (~~~x &&& 1#w).toNat = if x.getLsbD 0 = true then 0 else 1 := by
    split
    · next h0 =>
      have hz : ~~~x &&& 1#w = 0#w := eq_zero_iff.mpr fun i => by
        rw [BitVec.getLsbD_and, BitVec.getLsbD_one, BitVec.getLsbD_not]
        by_cases hi : i = 0
        · subst hi
          simp [h0]
        · simp [hi]
      rw [hz]
      rfl
    · next h0 =>
      have ho : ~~~x &&& 1#w = 1#w := BitVec.eq_of_getLsbD_eq fun i hi => by
        rw [BitVec.getLsbD_and, BitVec.getLsbD_one, BitVec.getLsbD_not]
        by_cases hi' : i = 0
        · subst hi'
          simp [h0]
        · simp [hi']
      rw [ho, BitVec.toNat_ofNat]
      exact Nat.mod_eq_of_lt (Nat.one_lt_two_pow hw.ne')
  rw [hval]
  split
  · next h0 => exact ⟨h0, Nat.zero_le 1, fun j hj => absurd hj (Nat.not_lt_zero j)⟩
  · next h0 =>
    refine ⟨hsome.resolve_left h0, Nat.le_refl 1, fun j hj => ?_⟩
    rw [Nat.lt_one_iff.mp hj]
    exact Bool.eq_false_iff.mpr h0

/-- The least number above `i`, when `i` and the next one are not in the map but one above is. -/
theorem exists_above (hi : i < w) (hne : x >>> i ≠ 0#w) (hno : x >>> i &&& 3#w = 0#w) :
    x.getLsbD (leastBit (x >>> i <<< i &&& leftBits (idx2bit w i))).ctz.toNat = true ∧
      i < (leastBit (x >>> i <<< i &&& leftBits (idx2bit w i))).ctz.toNat ∧
      ∀ j, i < j → x.getLsbD j = true →
        (leastBit (x >>> i <<< i &&& leftBits (idx2bit w i))).ctz.toNat ≤ j := by
  have hbits : ∀ j, (x >>> i <<< i &&& leftBits (idx2bit w i)).getLsbD j = true ↔
      i < j ∧ x.getLsbD j = true := by
    intro j
    rw [BitVec.getLsbD_and, getLsbD_leftBits_idx2bit hi, BitVec.getLsbD_shiftLeft,
      BitVec.getLsbD_ushiftRight]
    simp only [Bool.and_eq_true, Bool.not_eq_true', decide_eq_true_eq, decide_eq_false_iff_not]
    constructor
    · rintro ⟨⟨⟨-, hge⟩, hx⟩, hlt, -⟩
      rw [Nat.add_sub_cancel' (by omega)] at hx
      exact ⟨hlt, hx⟩
    · rintro ⟨hlt, hx⟩
      have hj := BitVec.lt_of_getLsbD hx
      rw [Nat.add_sub_cancel' (by omega)]
      exact ⟨⟨⟨hj, by omega⟩, hx⟩, hlt, hj⟩
  have hleft : x >>> i <<< i &&& leftBits (idx2bit w i) ≠ 0#w := by
    obtain ⟨k, hk⟩ : ∃ k, (x >>> i).getLsbD k = true := by
      by_contra hall
      push Not at hall
      exact hne (eq_zero_iff.mpr fun k => Bool.eq_false_iff.mpr (hall k))
    have hpos : 0 < k := by
      refine Nat.pos_of_ne_zero ?_
      rintro rfl
      have h0 := eq_zero_iff.mp hno 0
      rw [getLsbD_and_three, hk] at h0
      cases h0
    rw [BitVec.getLsbD_ushiftRight] at hk
    exact ne_zero_of_getLsbD ((hbits (i + k)).mpr ⟨by omega, hk⟩)
  obtain ⟨hset, hleast⟩ := ctz_leastBit hleft
  obtain ⟨hlt, hx⟩ := (hbits _).mp hset
  refine ⟨hx, hlt, fun j hj hxj => ?_⟩
  by_contra hgt
  have hno := hleast j (Nat.lt_of_not_le hgt)
  rw [(hbits j).mpr ⟨hj, hxj⟩] at hno
  cases hno

end Porpoise.Lib.BitMap
