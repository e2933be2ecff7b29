import Mathlib.Data.List.Basic

/-!
# Linear scans of a table

The loop `for (i = 0; i < n; i++) if (p(i)) break;` leaves in `i` the first
index below `n` that satisfies `p`, or `n` itself. Tables are functions from
the index; only the first `n` entries are scanned.
-/

namespace Porpoise.Lib

/-- Where a scan of the entries `0 .. n - 1` for `p` stops. -/
def scan (p : Nat → Bool) (n : Nat) : Nat := (List.range n).findIdx p

variable {p q : Nat → Bool} {n i : Nat}

theorem scan_le (p : Nat → Bool) (n : Nat) : scan p n ≤ n := by
  simpa [scan] using @List.findIdx_le_length _ p (List.range n)

/-- The scan finds an entry exactly when there is one. -/
theorem scan_lt_iff : scan p n < n ↔ ∃ i < n, p i = true := by
  have h := @List.findIdx_lt_length _ p (List.range n)
  simpa [scan] using h

theorem scan_eq_iff (hi : i < n) :
    scan p n = i ↔ p i = true ∧ ∀ j < i, p j = false := by
  have h := @List.findIdx_eq _ p (List.range n) i (by simpa using hi)
  simpa [scan] using h

/-- The entry found satisfies `p`, and it is the first that does. -/
theorem scan_spec (h : scan p n < n) : p (scan p n) = true ∧ ∀ j < scan p n, p j = false :=
  (scan_eq_iff h).mp rfl

theorem scan_eq_length_iff : scan p n = n ↔ ∀ i < n, p i = false := by
  have h := @List.findIdx_eq_length _ p (List.range n)
  simpa [scan] using h

/-- Scans for predicates that agree on the table agree. -/
theorem scan_congr (h : ∀ i < n, p i = q i) : scan p n = scan q n := by
  by_cases hp : scan p n < n
  · obtain ⟨hpi, hmin⟩ := scan_spec hp
    refine ((scan_eq_iff hp).mpr ⟨(h _ hp).symm.trans hpi, fun j hj => ?_⟩).symm
    exact (h j (Nat.lt_trans hj hp)).symm.trans (hmin j hj)
  · have hp' : scan p n = n := Nat.le_antisymm (scan_le p n) (Nat.le_of_not_lt hp)
    rw [hp', eq_comm, scan_eq_length_iff]
    intro i hi
    rw [← h i hi]
    exact scan_eq_length_iff.mp hp' i hi

/-- What is left of a scan at entry `i`: where it stops. -/
def scanFrom (p : Nat → Bool) (n i : Nat) : Nat :=
  if i < n then if p i then i else scanFrom p n (i + 1) else i
termination_by n - i

theorem scanFrom_of_ge (hi : ¬ i < n) : scanFrom p n i = i :=
  (scanFrom.eq_def p n i).trans (if_neg hi)

theorem scanFrom_found (hi : i < n) (hp : p i = true) : scanFrom p n i = i :=
  (scanFrom.eq_def p n i).trans ((if_pos hi).trans (if_pos hp))

theorem scanFrom_next (hi : i < n) (hp : p i = false) : scanFrom p n i = scanFrom p n (i + 1) := by
  rw [scanFrom.eq_def p n i, if_pos hi, hp]
  exact if_neg Bool.false_ne_true

/-- A scan that has passed `i` entries in vain stops where the whole scan stops. -/
theorem scanFrom_eq_scan (hi : i ≤ n) (hpast : ∀ j < i, p j = false) :
    scanFrom p n i = scan p n := by
  induction hk : n - i generalizing i with
  | zero =>
      have heq : i = n := by omega
      subst heq
      rw [scanFrom_of_ge (Nat.lt_irrefl i), scan_eq_length_iff.mpr hpast]
  | succ k ih =>
      have hlt : i < n := by omega
      cases hp : p i with
      | true => rw [scanFrom_found hlt hp, (scan_eq_iff hlt).mpr ⟨hp, hpast⟩]
      | false =>
          rw [scanFrom_next hlt hp]
          refine ih hlt (fun j hj => ?_) (by omega)
          by_cases hji : j = i
          · rw [hji, hp]
          · exact hpast j (by omega)

theorem scanFrom_zero (p : Nat → Bool) (n : Nat) : scanFrom p n 0 = scan p n :=
  scanFrom_eq_scan (Nat.zero_le n) fun j hj => absurd hj (Nat.not_lt_zero j)

end Porpoise.Lib
