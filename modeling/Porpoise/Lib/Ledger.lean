import Mathlib.Algebra.BigOperators.Group.Finset.Basic
import Mathlib.Algebra.Order.BigOperators.Group.Finset
import Mathlib.Algebra.BigOperators.Group.Finset.Piecewise
import Mathlib.Data.Int.Order.Basic

/-!
# Ledgers

A word that counts threads is right when it equals what the threads' places in the code
count for together. `total` is that sum over a finite set of threads; it changes with one
thread's place by the difference of the two places.
-/

namespace Porpoise.Lib

variable {Tid π : Type*} [DecidableEq Tid]

/-- What the places of the threads in `T` count for together. -/
def total (T : Finset Tid) (w : π → ℤ) (q : Tid → π) : ℤ :=
  ∑ t ∈ T, w (q t)

variable {T : Finset Tid} {w : π → ℤ} {q q' : Tid → π} {t u : Tid} {p : π}

omit [DecidableEq Tid] in
theorem total_congr (h : ∀ t ∈ T, w (q' t) = w (q t)) : total T w q' = total T w q :=
  Finset.sum_congr rfl h

/-- One thread of `T` gets another place. -/
theorem total_update (ht : t ∈ T) :
    total T w (Function.update q t p) = total T w q - w (q t) + w p := by
  have hrest : ∑ u ∈ T.erase t, w (Function.update q t p u) = ∑ u ∈ T.erase t, w (q u) :=
    Finset.sum_congr rfl fun u hu => by rw [Function.update_of_ne (Finset.ne_of_mem_erase hu)]
  have hnew := Finset.add_sum_erase T (fun u => w (Function.update q t p u)) ht
  have hold := Finset.add_sum_erase T (fun u => w (q u)) ht
  simp only [Function.update_self] at hnew
  unfold total
  omega

/-- A thread joins with a place of its own. -/
theorem total_insert (hu : u ∉ T) :
    total (insert u T) w (Function.update q u p) = total T w q + w p := by
  have hrest : ∑ t ∈ T, w (Function.update q u p t) = ∑ t ∈ T, w (q t) := by
    refine Finset.sum_congr rfl fun t ht => ?_
    rw [Function.update_of_ne]
    rintro rfl
    exact hu ht
  unfold total
  rw [Finset.sum_insert hu, Function.update_self, hrest]
  omega

/-- A thread leaves. -/
theorem total_erase (ht : t ∈ T) : total (T.erase t) w q = total T w q - w (q t) := by
  have h := Finset.add_sum_erase T (fun u => w (q u)) ht
  unfold total
  omega

omit [DecidableEq Tid] in
/-- One thread alone. -/
theorem total_of_card_one (hone : T.card = 1) (ht : t ∈ T) : total T w q = w (q t) := by
  obtain ⟨u, rfl⟩ := Finset.card_eq_one.mp hone
  rw [Finset.mem_singleton.mp ht]
  exact Finset.sum_singleton (fun t => w (q t)) u

section Bounds

omit [DecidableEq Tid]

theorem total_nonneg (hw : ∀ p, 0 ≤ w p) : 0 ≤ total T w q :=
  Finset.sum_nonneg fun t _ => hw (q t)

theorem le_total (hw : ∀ p, 0 ≤ w p) (ht : t ∈ T) :
    w (q t) ≤ total T w q :=
  Finset.single_le_sum (f := fun t => w (q t)) (fun u _ => hw (q u)) ht

/-- A weight that is nowhere larger. -/
theorem total_mono {v : π → ℤ} (h : ∀ p, v p ≤ w p) : total T v q ≤ total T w q :=
  Finset.sum_le_sum fun t _ => h (q t)

theorem total_le_card (hw : ∀ p, w p ≤ 1) : total T w q ≤ T.card := by
  have h := Finset.sum_le_card_nsmul T (fun t => w (q t)) 1 fun t _ => hw (q t)
  simpa [total] using h

theorem exists_of_total_pos (h : 0 < total T w q) :
    ∃ t ∈ T, 0 < w (q t) := by
  by_contra hnone
  have hle : total T w q ≤ 0 := by
    refine Finset.sum_nonpos fun t ht => ?_
    by_contra hpos
    exact hnone ⟨t, ht, by omega⟩
  omega

end Bounds

/-- Two threads count together. -/
theorem pair_le_total (hw : ∀ p, 0 ≤ w p) (ht : t ∈ T) (hu : u ∈ T) (hne : u ≠ t) :
    w (q t) + w (q u) ≤ total T w q := by
  have h := total_erase ht (w := w) (q := q)
  have hle := le_total (q := q) hw (Finset.mem_erase.mpr ⟨hne, hu⟩)
  omega

/-- Where the threads count for 1 at most, two that count are one. -/
theorem eq_of_total_le_one (hw : ∀ p, 0 ≤ w p) (hle : total T w q ≤ 1)
    (ht : t ∈ T) (hu : u ∈ T) (hwt : 0 < w (q t)) (hwu : 0 < w (q u)) :
    t = u := by
  by_contra hne
  have h := pair_le_total (q := q) hw ht hu (Ne.symm hne)
  omega

end Porpoise.Lib
