import Mathlib.Algebra.Order.BigOperators.Group.Finset
import Porpoise.Slots.Threads

/-!
# Slot capacity and conservation

The taken entries are counted by the calls not yet released (`unreleased`):

* a claim returns `maxNoOfThreads` exactly when 16 calls are in progress. One
  thread can hold two entries, so 16 threads need up to 32;
* a call whose ocall does not return is never released: the entry of a thread
  that ended in `SYS_exit` stays taken.
-/

namespace Porpoise.Slots

open Porpoise.Lib

variable {Tid : Type*} [DecidableEq Tid]

/-- The calls claimed and not released, of all threads started so far. -/
def unreleased (s : State Tid) : Nat := ∑ t ∈ s.threads, (s.calls t).length

/-- The calls in progress on threads that are alive. -/
def inProgress (s : State Tid) : Nat := ∑ t ∈ s.threads \ s.ended, (s.calls t).length

/-- The step is no call, or it is entered while fewer than `maxNoOfThreads`
calls, outer and nested ones, are unreleased. -/
def Roomy (s : State Tid) : Act Tid → Prop
  | .call _ _ => unreleased s < maxNoOfThreads
  | _ => True

/-- No two calls hold one entry, and entries are taken by calls only. -/
theorem Inv.card_busySlots {s : State Tid} (h : Inv s) :
    (busySlots s.table).card = unreleased s := by
  have hset : busySlots s.table = s.threads.biUnion fun t => (slotsOf s t).toFinset := by
    ext i
    simp only [mem_busySlots, Finset.mem_biUnion, List.mem_toFinset]
    constructor
    · rintro ⟨hi, hbusy⟩
      obtain ⟨-, t, ht⟩ := (h.held i hi).resolve_right fun hfree => hbusy hfree.1
      refine ⟨t, ?_, ht⟩
      by_contra hno
      simp [slotsOf, h.idle t hno] at ht
    · rintro ⟨t, -, ht⟩
      have hi := h.slot_lt t i ht
      have hone := ((h.held i hi).resolve_right fun hfree => hfree.2 ⟨t, ht⟩).1
      exact ⟨hi, by omega⟩
  have hcard : ∀ t ∈ s.threads, (slotsOf s t).toFinset.card = (s.calls t).length := by
    intro t _
    rw [List.toFinset_card_of_nodup (h.nodup t), slotsOf, List.length_map]
  rw [hset, Finset.card_biUnion, unreleased]
  · exact Finset.sum_congr rfl hcard
  · intro t _ u _ htu
    exact List.disjoint_toFinset_iff_disjoint.mpr (h.apart t u htu)

/-- A claim stays inside the table exactly when there is room. -/
theorem Inv.inRange_iff {s : State Tid} (h : Inv s) (a : Act Tid) :
    InRange s a ↔ Roomy s a := by
  cases a with
  | call t n => rw [InRange, Roomy, getFree_lt_iff, h.card_busySlots]
  | _ => exact Iff.rfl

/-- A thread that ended holds one entry, so the unreleased calls are those in
progress and one for each end. -/
theorem Inv.unreleased_eq {s : State Tid} (h : Inv s) :
    unreleased s = inProgress s + s.ended.card := by
  have hone : ∑ t ∈ s.ended, (s.calls t).length = s.ended.card := by
    rw [Finset.card_eq_sum_ones]
    refine Finset.sum_congr rfl fun t ht => ?_
    obtain ⟨i, hcalls⟩ := h.ended_calls t ht
    rw [hcalls, List.length_singleton]
  rw [unreleased, inProgress, ← hone]
  exact (Finset.sum_sdiff h.ended_subset).symm

/-- A claim by a live thread counts as one more call in progress. -/
theorem inProgress_enter {s : State Tid} {t : Tid} {n : Sysno} (hlive : s.live t) :
    inProgress (s.enter t n) = inProgress s + 1 := by
  have hmem : t ∈ s.threads \ s.ended := Finset.mem_sdiff.mpr hlive
  have hsame : ∀ u ∈ (s.threads \ s.ended).erase t,
      ((s.enter t n).calls u).length = (s.calls u).length := by
    intro u hu
    simp [State.enter, Function.update_of_ne (Finset.ne_of_mem_erase hu)]
  show ∑ u ∈ s.threads \ s.ended, ((s.enter t n).calls u).length = _
  rw [inProgress, ← Finset.add_sum_erase _ _ hmem, ← Finset.add_sum_erase _ _ hmem,
    Finset.sum_congr rfl hsame]
  simp only [State.enter, Function.update_self, List.length_cons]
  omega

/-- A claim outside the table changes no entry. -/
theorem enter_table_of_not_lt {s : State Tid} {t : Tid} {n : Sysno}
    (h : ¬ (getFreeSyscallArgIndex s.table).1 < maxNoOfThreads) :
    (s.enter t n).table = s.table := by
  rw [getFree_fst] at h
  simp [State.enter, getFreeSyscallArgIndex, h]

/-! ## Capacity -/

theorem inRange_of_roomy {as : List (Act Tid)} {s : State Tid}
    (h : (slotSys Tid).Run Roomy as s) : (slotSys Tid).Run InRange as s := by
  refine h.mono_of (I := Inv) ?_ ?_ fun s a hi => (hi.inRange_iff a).mpr
  · rintro _ ⟨main, rfl⟩
    exact inv_boot main
  · intro s a s' hi hg hn
    exact hi.next ((hi.inRange_iff a).mpr hg) hn

theorem roomy_of_inRange {as : List (Act Tid)} {s : State Tid}
    (h : (slotSys Tid).Run InRange as s) : (slotSys Tid).Run Roomy as s := by
  refine h.mono_of (I := Inv) ?_ ?_ fun s a hi => (hi.inRange_iff a).mp
  · rintro _ ⟨main, rfl⟩
    exact inv_boot main
  · intro s a s' hi hg hn
    exact hi.next hg hn

/-- **Slot capacity.** While every call is entered with fewer than 16 calls
unreleased, all calls hold entries of the table, and the next claim stays
inside the table exactly when it too finds fewer than 16. -/
theorem slot_capacity {as : List (Act Tid)} {s : State Tid}
    (h : (slotSys Tid).Run Roomy as s) :
    (∀ t, ∀ i ∈ slotsOf s t, i < maxNoOfThreads) ∧ ∀ a, InRange s a ↔ Roomy s a := by
  have hinv := inv_of_run (inRange_of_roomy h)
  exact ⟨hinv.slot_lt, hinv.inRange_iff⟩

theorem slot_capacity_nested :
    ∃ s, (slotSys Nat).Run Roomy nestedRun s ∧ (slotsOf s 0 = [2, 0]) ∧
      (∀ t, ∀ i ∈ slotsOf s t, i < maxNoOfThreads) ∧ ∀ a, InRange s a ↔ Roomy s a := by
  obtain ⟨s, hrun, h0, -⟩ := run_nestedRun
  exact ⟨s, roomy_of_inRange hrun, h0, slot_capacity (roomy_of_inRange hrun)⟩

theorem threads_subset_next {s s' : State Tid} {a : Act Tid} (hn : s.next a = some s') :
    s.threads ⊆ s'.threads := by
  rcases next_cases hn with ⟨t, n, rfl, -, -, rfl⟩ | ⟨t, f, fs, rfl, -, -, -, rfl⟩ |
    ⟨t, u, i, fs, rfl, -, -, -, rfl⟩ | ⟨t, i, rfl, -, -, rfl⟩
  · exact Finset.Subset.refl _
  · exact Finset.Subset.refl _
  · exact Finset.subset_insert _ _
  · exact Finset.Subset.refl _

/-- Eight threads, each with at most one call inside another, always find
room. -/
theorem Inv.roomy_of_card_le {s : State Tid} (h : Inv s) (hcard : s.threads.card ≤ 8)
    {s' : State Tid} {a : Act Tid} (hn : s.next a = some s') : Roomy s a := by
  rcases next_cases hn with ⟨t, n, rfl, hlive, hmay, -⟩ | ⟨t, f, fs, rfl, -, -, -, -⟩ |
    ⟨t, u, i, fs, rfl, -, -, -, -⟩ | ⟨t, i, rfl, -, -, -⟩
  · have hone := h.length_le_one hmay
    have hrest : ∑ u ∈ s.threads.erase t, (s.calls u).length ≤ (s.threads.erase t).card * 2 :=
      Finset.sum_le_card_nsmul _ _ 2 fun u _ => (h.nesting u).1
    have herase := Finset.card_erase_of_mem hlive.1
    have hsum := Finset.add_sum_erase s.threads (fun u => (s.calls u).length) hlive.1
    show ∑ u ∈ s.threads, (s.calls u).length < 16
    omega
  · trivial
  · trivial
  · trivial

/-- A program of at most eight threads never claims outside the table. -/
theorem inRange_of_eight_threads {as : List (Act Tid)} {s : State Tid}
    (h : (slotSys Tid).Run TSys.Any as s) (hcard : s.threads.card ≤ 8) :
    (slotSys Tid).Run InRange as s := by
  induction h with
  | nil h => exact .nil h
  | @snoc as s a s' _ _ hn ih =>
      have hle : s.threads.card ≤ 8 :=
        (Finset.card_le_card (threads_subset_next hn)).trans hcard
      have hinv := inv_of_run (ih hle)
      exact .snoc (ih hle) ((hinv.inRange_iff a).mpr (hinv.roomy_of_card_le hle hn)) hn

/-- `main` starts the threads 1 to 15. -/
def startAll : List (Act Nat) :=
  (List.range 15).flatMap fun i => [.call 0 .clone, .create 0 (i + 1), .ret 0]

/-- All 16 threads are inside `readv`, and the heap of thread 0 calls `brk`. -/
def crowdedRun : List (Act Nat) :=
  startAll ++ (List.range 16).map (fun t => .call t .readv) ++ [.call 0 .brk]

/-- Sixteen threads, none of them ended: the nested claim returns
`maxNoOfThreads`. -/
theorem slot_capacity_crowded :
    ∃ s, (slotSys Nat).Run TSys.Any crowdedRun s ∧ s.threads.card = 16 ∧ s.ended = ∅ ∧
      maxNoOfThreads ∈ slotsOf s 0 := by
  obtain ⟨s, hrun, hend⟩ := TSys.exists_run (slotSys Nat) TSys.Any crowdedRun ⟨0, rfl⟩
    (fun s => (s.threads.card, s.ended, slotsOf s 0)) (b := (16, ∅, [16, 0])) (by decide +kernel)
  rw [Prod.mk.injEq, Prod.mk.injEq] at hend
  refine ⟨s, hrun, hend.1, hend.2.1, ?_⟩
  rw [hend.2.2]
  exact List.mem_cons_self

/-! ## Conservation -/

/-- `Roomy`, and the step is not the end of a thread. -/
def Clean (s : State Tid) (a : Act Tid) : Prop := Roomy s a ∧ ∀ t, a ≠ .exit t

/-- The taken entries are as many as the calls in progress on live threads. -/
def Counted (s : State Tid) : Prop := (busySlots s.table).card = inProgress s

/-- Steps other than ends of threads end no thread. -/
theorem ended_next {s s' : State Tid} {a : Act Tid} (ha : ∀ t, a ≠ .exit t)
    (hn : s.next a = some s') : s'.ended = s.ended := by
  rcases next_cases hn with ⟨t, n, rfl, -, -, rfl⟩ | ⟨t, f, fs, rfl, -, -, -, rfl⟩ |
    ⟨t, u, i, fs, rfl, -, -, -, rfl⟩ | ⟨t, i, rfl, -, -, rfl⟩
  · rfl
  · rfl
  · rfl
  · exact absurd rfl (ha t)

/-- The invariant of runs with room and without ends. -/
theorem inv_of_clean {as : List (Act Tid)} {s : State Tid}
    (h : (slotSys Tid).Run Clean as s) : Inv s ∧ s.ended = ∅ := by
  refine h.invariant (I := fun s => Inv s ∧ s.ended = ∅) ?_ ?_
  · rintro _ ⟨main, rfl⟩
    exact ⟨inv_boot main, rfl⟩
  · intro s a s' ⟨hi, he⟩ hg hn
    exact ⟨hi.next ((hi.inRange_iff a).mpr hg.1) hn, (ended_next hg.2 hn).trans he⟩

/-- Under the invariant each ended thread accounts for one entry too many. -/
theorem Inv.counted_iff {s : State Tid} (h : Inv s) : Counted s ↔ s.ended = ∅ := by
  rw [Counted, h.card_busySlots, h.unreleased_eq, ← Finset.card_eq_zero]
  omega

/-- A claim made without room leaves one call more than there are entries. -/
theorem not_counted_of_crowded {s s' : State Tid} {a : Act Tid} (h : Inv s)
    (he : s.ended = ∅) (hr : ¬ Roomy s a) (hn : s.next a = some s') : ¬ Counted s' := by
  rcases next_cases hn with ⟨t, n, rfl, hlive, -, rfl⟩ | ⟨t, f, fs, rfl, -, -, -, rfl⟩ |
    ⟨t, u, i, fs, rfl, -, -, -, rfl⟩ | ⟨t, i, rfl, -, -, rfl⟩
  · have hout : ¬ (getFreeSyscallArgIndex s.table).1 < maxNoOfThreads :=
      fun hlt => hr ((h.inRange_iff (.call t n)).mp hlt)
    have hcount : Counted s := h.counted_iff.mpr he
    rw [Counted] at hcount
    rw [Counted, enter_table_of_not_lt hout, inProgress_enter hlive]
    omega
  · exact absurd trivial hr
  · exact absurd trivial hr
  · exact absurd trivial hr

/-- **Slot conservation.** While no thread ends and every call finds room, the
taken entries are as many as the calls in progress on live threads, and the
next step keeps the two equal exactly when it is of this kind too. -/
theorem slot_conservation {as : List (Act Tid)} {s : State Tid}
    (h : (slotSys Tid).Run Clean as s) :
    Counted s ∧ ∀ a s', s.next a = some s' → (Counted s' ↔ Clean s a) := by
  obtain ⟨hinv, he⟩ := inv_of_clean h
  refine ⟨hinv.counted_iff.mpr he, fun a s' hn => ⟨fun hcount => ?_, fun hclean => ?_⟩⟩
  · have hroomy : Roomy s a := by
      by_contra hr
      exact not_counted_of_crowded hinv he hr hn hcount
    have hinv' := hinv.next ((hinv.inRange_iff a).mpr hroomy) hn
    refine ⟨hroomy, ?_⟩
    rintro t rfl
    have he' := hinv'.counted_iff.mp hcount
    rcases next_cases hn with ⟨_, _, e, -⟩ | ⟨_, _, _, e, -⟩ | ⟨_, _, _, _, e, -⟩ |
      ⟨u, i, -, -, -, rfl⟩
    · cases e
    · cases e
    · cases e
    · exact Finset.insert_ne_empty u s.ended he'
  · have hinv' := hinv.next ((hinv.inRange_iff a).mpr hclean.1) hn
    exact hinv'.counted_iff.mpr ((ended_next hclean.2 hn).trans he)

theorem slot_conservation_nested :
    ∃ s, (slotSys Nat).Run Clean nestedRun s ∧
      Counted s ∧ ∀ a s', s.next a = some s' → (Counted s' ↔ Clean s a) := by
  obtain ⟨s, hrun, -, -⟩ := run_nestedRun
  have hclean : (slotSys Nat).Run Clean nestedRun s :=
    (roomy_of_inRange hrun).and_labels (by simp [nestedRun])
  exact ⟨s, hclean, slot_conservation hclean⟩

/-- `main` starts a thread, which ends at once, sixteen times. -/
def startAndEnd : List (Act Nat) :=
  (List.range 16).flatMap fun i =>
    [.call 0 .clone, .create 0 (i + 1), .ret 0, .call (i + 1) .exit, .exit (i + 1)]

/-- After 16 ends no call is in progress on the one thread alive, yet every
entry is taken, and the next claim returns `maxNoOfThreads`. -/
theorem slot_conservation_leak :
    ∃ s, (slotSys Nat).Run TSys.Any startAndEnd s ∧ s.threads \ s.ended = {0} ∧
      inProgress s = 0 ∧ (busySlots s.table).card = 16 ∧
      (getFreeSyscallArgIndex s.table).1 = maxNoOfThreads := by
  obtain ⟨s, hrun, hend⟩ := TSys.exists_run (slotSys Nat) TSys.Any startAndEnd ⟨0, rfl⟩
    (fun s => (s.threads \ s.ended, inProgress s, (busySlots s.table).card,
      (getFreeSyscallArgIndex s.table).1)) (b := ({0}, 0, 16, 16)) (by decide +kernel)
  rw [Prod.mk.injEq, Prod.mk.injEq, Prod.mk.injEq] at hend
  exact ⟨s, hrun, hend⟩

end Porpoise.Slots
