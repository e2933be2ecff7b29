import Porpoise.Slots.Threads

/-!
# Slot exclusivity

In every run whose claims stay inside the table, an entry is taken exactly
while one call holds it, and no two calls hold the same entry: what the
encoder and the decoder of one call do to its buffers (`Porpoise.Shim`) is not
disturbed by another call.
-/

namespace Porpoise.Slots

open Porpoise.Lib

variable {Tid : Type*} [DecidableEq Tid]

/-- **Slot exclusivity.** In every state reached: an entry holds 1 when a call
in progress holds it and 0 otherwise; calls of one thread, nested or not, and
calls of different threads hold different entries; and after any thread has
released its innermost call, no call still in progress holds a free entry. -/
theorem slot_exclusivity {as : List (Act Tid)} {s : State Tid}
    (h : (slotSys Tid).Run InRange as s) :
    (∀ i < maxNoOfThreads, (s.table i = 1 ∧ Held s i) ∨ (s.table i = 0 ∧ ¬ Held s i)) ∧
    (∀ t, (slotsOf s t).Nodup) ∧
    (∀ t u, t ≠ u → List.Disjoint (slotsOf s t) (slotsOf s u)) ∧
    (∀ t s', s.next (.ret t) = some s' →
      ∀ u, ∀ i ∈ slotsOf s' u, i < maxNoOfThreads ∧ isFree s'.table i = false) := by
  have hinv := inv_of_run h
  refine ⟨hinv.held, hinv.nodup, hinv.apart, ?_⟩
  intro t s' hn u i hi
  have hinv' : Inv s' := hinv.next (a := .ret t) trivial hn
  have hlt := hinv'.slot_lt u i hi
  rcases hinv'.held i hlt with ⟨h1, -⟩ | ⟨-, hno⟩
  · exact ⟨hlt, by simp [isFree, h1]⟩
  · exact absurd ⟨u, hi⟩ hno

theorem slot_exclusivity_nested :
    ∃ s, (slotSys Nat).Run InRange nestedRun s ∧ slotsOf s 0 = [2, 0] ∧ slotsOf s 1 = [1] ∧
      (∀ i < maxNoOfThreads, (s.table i = 1 ∧ Held s i) ∨ (s.table i = 0 ∧ ¬ Held s i)) := by
  obtain ⟨s, hrun, h0, h1⟩ := run_nestedRun
  exact ⟨s, hrun, h0, h1, (slot_exclusivity hrun).1⟩

end Porpoise.Slots
