import Porpoise.Slots.Threads

/-!
# An entry of the table has one owner

In every run, also in one that claims past the end of the table, an entry of
the table is held by at most one call: a claim takes it only while it is free,
and only its holder's release frees it.
-/

namespace Porpoise.Slots

open Porpoise.Lib

variable {Tid : Type*} [DecidableEq Tid]

/-- At most one call holds `i`, and `i` is taken while one does. -/
structure Owned (s : State Tid) (i : Nat) : Prop where
  once : ∀ t, (slotsOf s t).count i ≤ 1
  apart : ∀ t u, t ≠ u → i ∈ slotsOf s t → i ∉ slotsOf s u
  taken : Held s i → s.table i ≠ 0

variable {s s' : State Tid} {t u : Tid} {i : Nat}

theorem getFree_snd_of_ne {table : SlotTable} (h : i ≠ (getFreeSyscallArgIndex table).1) :
    (getFreeSyscallArgIndex table).2 i = table i := by
  rw [getFree_fst] at h
  simp only [getFreeSyscallArgIndex]
  split
  · exact Function.update_of_ne h _ _
  · rfl

omit [DecidableEq Tid] in
theorem owned_boot (main : Tid) (i : Nat) : Owned (State.boot main) i where
  once t := by simp [slotsOf_boot]
  apart t u _ ht := by simp [slotsOf_boot] at ht
  taken := by
    rintro ⟨t, ht⟩
    simp [slotsOf_boot] at ht

/-- A claim of `i` finds it free; another claim does not touch it. -/
theorem Owned.enter (h : Owned s i) (hi : i < maxNoOfThreads) (t : Tid) (n : Sysno) :
    Owned (s.enter t n) i := by
  by_cases hclaim : i = (getFreeSyscallArgIndex s.table).1
  · have hlt : (getFreeSyscallArgIndex s.table).1 < maxNoOfThreads := hclaim ▸ hi
    obtain ⟨hfree, htable⟩ := getFree_of_lt hlt
    rw [← hclaim] at hfree htable
    have hno : ∀ u, i ∉ slotsOf s u := fun u hu => h.taken ⟨u, hu⟩ hfree
    have hmem : ∀ u, i ∈ slotsOf (s.enter t n) u → u = t := by
      intro u hu
      by_contra hut
      rw [slotsOf_enter_ne s n hut] at hu
      exact hno u hu
    refine { once := ?_, apart := ?_, taken := ?_ }
    · intro u
      by_cases hut : u = t
      · subst hut
        rw [slotsOf_enter, ← hclaim, List.count_cons_self, List.count_eq_zero_of_not_mem (hno u)]
      · rw [slotsOf_enter_ne s n hut]
        exact h.once u
    · intro u w huw hu hw
      exact huw ((hmem u hu).trans (hmem w hw).symm)
    · intro _
      show (getFreeSyscallArgIndex s.table).2 i ≠ 0
      rw [htable, Function.update_self]
      decide
  · have hmem : ∀ u, i ∈ slotsOf (s.enter t n) u ↔ i ∈ slotsOf s u := by
      intro u
      by_cases hut : u = t
      · subst hut
        rw [slotsOf_enter, List.mem_cons]
        exact or_iff_right hclaim
      · rw [slotsOf_enter_ne s n hut]
    refine { once := ?_, apart := ?_, taken := ?_ }
    · intro u
      by_cases hut : u = t
      · subst hut
        rw [slotsOf_enter, List.count_cons_of_ne (Ne.symm hclaim)]
        exact h.once u
      · rw [slotsOf_enter_ne s n hut]
        exact h.once u
    · intro u w huw hu hw
      exact h.apart u w huw ((hmem u).mp hu) ((hmem w).mp hw)
    · rintro ⟨u, hu⟩
      show (getFreeSyscallArgIndex s.table).2 i ≠ 0
      rw [getFree_snd_of_ne hclaim]
      exact h.taken ⟨u, (hmem u).mp hu⟩

/-- A release of `i` is that of its one holder. -/
theorem Owned.leave (h : Owned s i) {f : Frame} {fs : List Frame} (hcalls : s.calls t = f :: fs) :
    Owned (s.leave t f fs) i := by
  have hslots : slotsOf s t = f.slot :: fs.map Frame.slot := by
    rw [slotsOf, hcalls, List.map_cons]
  have hmem : ∀ u, i ∈ slotsOf (s.leave t f fs) u → i ∈ slotsOf s u := by
    intro u hu
    by_cases hut : u = t
    · subst hut
      rw [slotsOf_leave] at hu
      rw [hslots]
      exact List.mem_cons_of_mem _ hu
    · rwa [slotsOf_leave_ne s f fs hut] at hu
  refine { once := ?_, apart := ?_, taken := ?_ }
  · intro u
    by_cases hut : u = t
    · subst hut
      have hle := h.once u
      rw [hslots, List.count_cons] at hle
      rw [slotsOf_leave]
      omega
    · rw [slotsOf_leave_ne s f fs hut]
      exact h.once u
  · intro u w huw hu hw
    exact h.apart u w huw (hmem u hu) (hmem w hw)
  · rintro ⟨u, hu⟩
    have hne : i ≠ f.slot := by
      rintro rfl
      -- the holder is `t`, and it held `i` once
      have hone := h.once t
      rw [hslots, List.count_cons_self] at hone
      by_cases hut : u = t
      · subst hut
        rw [slotsOf_leave] at hu
        have hpos := List.count_pos_iff.mpr hu
        omega
      · refine h.apart u t hut (hmem u hu) ?_
        rw [hslots]
        exact List.mem_cons_self
    show Function.update s.table f.slot 0 i ≠ 0
    rw [Function.update_of_ne hne]
    exact h.taken ⟨u, hmem u hu⟩

/-- The step lemma. -/
theorem Owned.next {a : Act Tid} (h : Owned s i) (hi : i < maxNoOfThreads)
    (hn : s.next a = some s') : Owned s' i := by
  rcases next_cases hn with ⟨t, n, rfl, -, -, rfl⟩ | ⟨t, f, fs, rfl, -, hcalls, -, rfl⟩ |
    ⟨t, u, j, fs, rfl, -, -, -, rfl⟩ | ⟨t, j, rfl, -, -, rfl⟩
  · exact h.enter hi t n
  · exact h.leave hcalls
  · exact { once := h.once, apart := h.apart, taken := h.taken }
  · exact { once := h.once, apart := h.apart, taken := h.taken }

/-- The call at the bottom of `t` shares its entry with no other call. -/
theorem Owned.slot_ne {f g : Frame} {gs : List Frame} (h : Owned s f.slot)
    (hcalls : s.calls t = gs ++ [f]) (hg : g ∈ s.calls u) (hother : u = t → g ∈ gs) :
    g.slot ≠ f.slot := by
  intro heq
  have hslots : slotsOf s t = gs.map Frame.slot ++ [f.slot] := by
    rw [slotsOf, hcalls, List.map_append, List.map_cons, List.map_nil]
  by_cases hut : u = t
  · have hmem : f.slot ∈ gs.map Frame.slot := heq ▸ List.mem_map_of_mem (hother hut)
    have hone := h.once t
    have hpos := List.count_pos_iff.mpr hmem
    rw [hslots, List.count_append, List.count_singleton_self] at hone
    omega
  · refine h.apart u t hut ?_ ?_
    · rw [← heq]
      exact List.mem_map_of_mem hg
    · rw [hslots]
      exact List.mem_append_right _ (List.mem_singleton_self _)

end Porpoise.Slots
