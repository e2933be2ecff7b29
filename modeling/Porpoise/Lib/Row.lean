import Mathlib.Data.Nat.Basic
import Mathlib.Tactic.TypeStar

/-!
# Segments in a row

Segments of the lengths `len 0`, `len 1`, … laid end to end make one row.

* `start`: where in the row a segment begins.
* `share`: how many of the first `k` places of the row lie in a segment.
* `rowAt`: the row of what is in the segments.
-/

namespace Porpoise.Lib

/-- The place in the row where the `i`-th segment begins. -/
def start (len : Nat → Nat) : Nat → Nat
  | 0 => 0
  | i + 1 => start len i + len i

/-- How many of the first `k` places lie in the `i`-th segment. -/
def share (len : Nat → Nat) (k i : Nat) : Nat := min (len i) (k - start len i)

/-- What is at the place `t` of the row of the first `n` segments; `x` behind it. -/
def rowAt {α : Type*} (len : Nat → Nat) (f : Nat → Nat → α) (x : α) : Nat → Nat → α
  | 0, _ => x
  | n + 1, t => if start len n ≤ t then f n (t - start len n) else rowAt len f x n t

variable {α : Type*} {len len' : Nat → Nat} {i j k n o : Nat}

@[simp] theorem start_zero (len : Nat → Nat) : start len 0 = 0 := rfl

theorem start_succ (len : Nat → Nat) (i : Nat) : start len (i + 1) = start len i + len i := rfl

theorem start_congr (h : ∀ j < i, len j = len' j) : start len i = start len' i := by
  induction i with
  | zero => rfl
  | succ i ih =>
      rw [start_succ, start_succ, ih fun j hj => h j (Nat.lt_succ_of_lt hj),
        h i (Nat.lt_succ_self i)]

theorem start_mono (len : Nat → Nat) (h : i ≤ j) : start len i ≤ start len j := by
  induction j with
  | zero => rw [Nat.le_zero.mp h]
  | succ j ih =>
      rw [start_succ]
      by_cases hij : i = j + 1
      · rw [hij, start_succ]
      · have hle := ih (by omega)
        omega

/-- A segment ends before those behind it. -/
theorem start_add_le (len : Nat → Nat) (h : i < j) : start len i + len i ≤ start len j :=
  start_mono len h

theorem lt_share_iff : o < share len k i ↔ o < len i ∧ start len i + o < k := by
  rw [share]
  omega

theorem share_congr (h : ∀ j ≤ i, len j = len' j) : share len k i = share len' k i := by
  rw [share, share, h i le_rfl, start_congr fun j hj => h j (Nat.le_of_lt hj)]

theorem share_le (len : Nat → Nat) (k i : Nat) : share len k i ≤ len i := Nat.min_le_left _ _

theorem rowAt_start {f : Nat → Nat → α} {x : α} (hi : i < n) (ho : o < len i) :
    rowAt len f x n (start len i + o) = f i o := by
  induction n with
  | zero => omega
  | succ n ih =>
      rw [rowAt]
      by_cases hin : i = n
      · rw [hin, if_pos (Nat.le_add_right _ _), Nat.add_sub_cancel_left]
      · have hlt : i < n := by omega
        have hend := start_add_le len hlt
        rw [if_neg (by omega), ih hlt]

end Porpoise.Lib
