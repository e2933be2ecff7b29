import Mathlib.Data.List.Infix
import Mathlib.Tactic.TypeStar

/-!
# Logs of writes

A log lists writes of values to keys, the oldest first.

* `List.lookup` finds the first write of a key, `lastWrite` the most recent one.
* `lastWrite_snoc_self` and `lastWrite_snoc_of_ne`: a write replaces the value of
  its key and keeps those of all others.
* `forall_lookup_eq_lastWrite_iff`: when a table that only appends, and whose
  look-up stops at the first match, is a map.
-/

namespace Porpoise.Lib

variable {κ ν : Type*} [BEq κ] {w p : List (κ × ν)} {k : κ} {v : ν}

/-- The value of the most recent write of a key. -/
def lastWrite (w : List (κ × ν)) (k : κ) : Option ν := w.reverse.lookup k

@[simp] theorem lastWrite_nil (k : κ) : lastWrite ([] : List (κ × ν)) k = none := rfl

/-- Neither end finds a key that was never written. -/
theorem lookup_none_iff : w.lookup k = none ↔ lastWrite w k = none := by
  rw [lastWrite, List.lookup_eq_none_iff, List.lookup_eq_none_iff]
  simp only [List.mem_reverse]

/-- A key that has been written is found where it was first written. -/
theorem lookup_of_isPrefix (hp : p <+: w) (h : p.lookup k = some v) : w.lookup k = some v := by
  obtain ⟨s, rfl⟩ := hp
  rw [List.lookup_append, h]
  rfl

variable [LawfulBEq κ]

@[simp] theorem lastWrite_snoc_self (w : List (κ × ν)) (k : κ) (v : ν) :
    lastWrite (w ++ [(k, v)]) k = some v := by
  rw [lastWrite, List.reverse_append]
  exact List.lookup_cons_self

theorem lastWrite_snoc_of_ne {k' : κ} (h : k ≠ k') (w : List (κ × ν)) (v : ν) :
    lastWrite (w ++ [(k', v)]) k = lastWrite w k := by
  rw [lastWrite, List.reverse_append, lastWrite]
  show List.lookup k ((k', v) :: w.reverse) = _
  rw [List.lookup_cons, beq_eq_false_iff_ne.mpr h]

/-- A write that is found is one of the log. -/
theorem mem_of_lookup (h : w.lookup k = some v) : (k, v) ∈ w := by
  obtain ⟨l₁, l₂, rfl, -⟩ := List.lookup_eq_some_iff.mp h
  exact List.mem_append_right _ (List.mem_cons_self ..)

theorem mem_of_lastWrite (h : lastWrite w k = some v) : (k, v) ∈ w :=
  List.mem_reverse.mp (mem_of_lookup h)

theorem exists_lookup_of_mem (h : (k, v) ∈ w) : ∃ v', w.lookup k = some v' := by
  cases hfound : w.lookup k with
  | some v' => exact ⟨v', rfl⟩
  | none =>
      have hne := List.lookup_eq_none_iff.mp hfound _ h
      exact absurd rfl (bne_iff_ne.mp hne)

/-- **The first write is the last** at every point of a log exactly when every
write of a key repeats the value of the first. -/
theorem forall_lookup_eq_lastWrite_iff :
    (∀ p, p <+: w → ∀ k, p.lookup k = lastWrite p k) ↔ ∀ x ∈ w, w.lookup x.1 = some x.2 := by
  constructor
  · rintro h ⟨k, v⟩ hx
    -- the log up to this write
    obtain ⟨s, t, rfl⟩ := List.append_of_mem hx
    have hprefix : s ++ [(k, v)] <+: s ++ (k, v) :: t := ⟨t, by simp⟩
    have hfirst := h _ hprefix k
    rw [lastWrite_snoc_self] at hfirst
    exact lookup_of_isPrefix hprefix hfirst
  · intro h p hp k
    cases hlast : lastWrite p k with
    | none => exact lookup_none_iff.mpr hlast
    | some v =>
        have hmem := mem_of_lastWrite hlast
        obtain ⟨v', hfirst⟩ := exists_lookup_of_mem hmem
        have hsame := h _ (hp.subset hmem)
        rw [lookup_of_isPrefix hp hfirst] at hsame
        rw [hfirst, Option.some.inj hsame]

/-- In particular when no key is written twice. -/
theorem lookup_of_nodup (h : (w.map Prod.fst).Nodup) : ∀ x ∈ w, w.lookup x.1 = some x.2 := by
  rintro ⟨k, v⟩ hx
  obtain ⟨s, t, rfl⟩ := List.append_of_mem hx
  have hnone : s.lookup k = none := by
    rw [List.lookup_eq_none_iff]
    intro x hxs
    rw [List.map_append, List.nodup_append] at h
    exact bne_iff_ne.mpr (h.2.2 x.1 (List.mem_map_of_mem hxs) k (List.mem_cons_self ..)).symm
  rw [List.lookup_append, hnone]
  exact List.lookup_cons_self

end Porpoise.Lib
