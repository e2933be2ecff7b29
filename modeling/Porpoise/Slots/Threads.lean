import Mathlib.Algebra.BigOperators.Group.Finset.Basic
import Mathlib.Algebra.Order.BigOperators.Group.Finset
import Porpoise.Lib.TSys
import Porpoise.Shim.Sysno
import Porpoise.Slots.Table

/-!
# Threads making wrapped calls

Any number of threads run through `__syscall_wrap`. A call claims a slot on
entry and releases it at the common exit; in between, a call that uses the
untrusted heap may enter `__syscall_wrap` again for the system calls that
`malloc_user` and `free_user` make themselves. The steps are

* `call t n` — thread `t` enters `__syscall_wrap` for `n` and claims a slot;
* `ret t` — the innermost call of `t` reaches the exit and releases its slot;
* `create t u` — the host's `pthread_create` in a `clone` of `t` starts `u`;
* `exit t` — the host executes `SYS_exit` for `t`, whose ocall never returns.

`Inv` ties the table to the calls in progress, the ghost part of the state.
It holds in every run whose claims stay inside the table (`InRange`).
-/

namespace Porpoise.Slots

open Porpoise.Lib

/-- The cases of `__syscall_wrap` that call `malloc_user` or `free_user`. -/
def usesHeap : Sysno → Bool
  | .readv | .writev | .sendmsg | .recvmsg | .futex | .set_tid_address | .pselect6 => true
  | _ => false

/-- The system calls `malloc_user` and `free_user` make: `brk` through
`sbrk_user`, the mmap family, `sched_yield` while the heap lock is taken, the
clock once at start-up. -/
def heapCall : Sysno → Bool
  | .brk | .mmap | .munmap | .mremap | .sched_yield | .clock_gettime | .gettimeofday => true
  | _ => false

/-- A call of `__syscall_wrap` in progress. -/
structure Frame where
  nr : Sysno
  /-- The local `syscall_table_index`. -/
  slot : Nat
  deriving DecidableEq

/-- The slot table and, for each thread, its calls in progress, innermost
first. -/
structure State (Tid : Type*) where
  table : SlotTable
  calls : Tid → List Frame
  /-- The threads started so far. -/
  threads : Finset Tid
  /-- Those of them that have ended in `SYS_exit`. -/
  ended : Finset Tid

inductive Act (Tid : Type*)
  | call (t : Tid) (n : Sysno)
  | ret (t : Tid)
  | create (t u : Tid)
  | exit (t : Tid)

/-- A thread outside the wrapper may make any call; inside it, only a call
that uses the heap leads to another one, made by the heap. -/
def mayCall : List Frame → Sysno → Bool
  | [], _ => true
  | f :: _, n => usesHeap f.nr && heapCall n

/-- The calls whose ocall does not come back. -/
def neverReturns : Sysno → Bool
  | .exit | .exit_group => true
  | _ => false

variable {Tid : Type*} [DecidableEq Tid]

namespace State

def live (s : State Tid) (t : Tid) : Prop := t ∈ s.threads ∧ t ∉ s.ended

instance (s : State Tid) (t : Tid) : Decidable (s.live t) :=
  inferInstanceAs (Decidable (_ ∧ _))

/-- The state after `t` claimed a slot for `n`. -/
def enter (s : State Tid) (t : Tid) (n : Sysno) : State Tid :=
  { s with
    table := (getFreeSyscallArgIndex s.table).2
    calls := Function.update s.calls t
      (⟨n, (getFreeSyscallArgIndex s.table).1⟩ :: s.calls t) }

/-- The state after the call `f` of `t` released its slot, with `fs` left. -/
def leave (s : State Tid) (t : Tid) (f : Frame) (fs : List Frame) : State Tid :=
  { s with
    table := releaseSlot s.table f.slot
    calls := Function.update s.calls t fs }

/-- One step; `none` when it is not enabled. -/
def next (s : State Tid) : Act Tid → Option (State Tid)
  | .call t n => if s.live t ∧ mayCall (s.calls t) n then some (s.enter t n) else none
  | .ret t =>
      match s.calls t with
      | [] => none
      | f :: fs =>
          if s.live t ∧ neverReturns f.nr = false then some (s.leave t f fs) else none
  | .create t u =>
      match s.calls t with
      | ⟨.clone, _⟩ :: _ =>
          if s.live t ∧ u ∉ s.threads then some { s with threads := insert u s.threads }
          else none
      | _ => none
  | .exit t =>
      match s.calls t with
      | [⟨.exit, _⟩] =>
          if s.live t then some { s with ended := insert t s.ended } else none
      | _ => none

/-- `shim_init`: every entry free, one thread, no call in progress. -/
def boot (main : Tid) : State Tid :=
  { table := fun _ => 0, calls := fun _ => [], threads := {main}, ended := ∅ }

end State

/-- The threads of one enclave as a transition system. -/
def slotSys (Tid : Type*) [DecidableEq Tid] : TSys (State Tid) (Act Tid) where
  init s := ∃ main, s = State.boot main
  next := State.next

/-- The step's claim, if it makes one, returns an index inside the table. -/
def InRange (s : State Tid) : Act Tid → Prop
  | .call _ _ => (getFreeSyscallArgIndex s.table).1 < maxNoOfThreads
  | _ => True

instance (s : State Tid) (a : Act Tid) : Decidable (InRange s a) :=
  match a with
  | .call _ _ => inferInstanceAs (Decidable (_ < _))
  | .ret _ | .create _ _ | .exit _ => inferInstanceAs (Decidable True)

/-- What a step can do. -/
theorem next_cases {s s' : State Tid} {a : Act Tid} (h : s.next a = some s') :
    (∃ t n, a = .call t n ∧ s.live t ∧ mayCall (s.calls t) n = true ∧ s' = s.enter t n) ∨
    (∃ t f fs, a = .ret t ∧ s.live t ∧ s.calls t = f :: fs ∧ neverReturns f.nr = false ∧
      s' = s.leave t f fs) ∨
    (∃ t u i fs, a = .create t u ∧ s.live t ∧ s.calls t = ⟨.clone, i⟩ :: fs ∧ u ∉ s.threads ∧
      s' = { s with threads := insert u s.threads }) ∨
    (∃ t i, a = .exit t ∧ s.live t ∧ s.calls t = [⟨.exit, i⟩] ∧
      s' = { s with ended := insert t s.ended }) := by
  cases a with
  | call t n =>
      simp only [State.next] at h
      split at h
      · rename_i hc
        exact .inl ⟨t, n, rfl, hc.1, hc.2, (Option.some.inj h).symm⟩
      · cases h
  | ret t =>
      simp only [State.next] at h
      split at h
      · cases h
      · rename_i f fs hcalls
        split at h
        · rename_i hc
          exact .inr (.inl ⟨t, f, fs, rfl, hc.1, hcalls, hc.2, (Option.some.inj h).symm⟩)
        · cases h
  | create t u =>
      simp only [State.next] at h
      split at h
      · rename_i i fs hcalls
        split at h
        · rename_i hc
          exact .inr (.inr (.inl
            ⟨t, u, i, fs, rfl, hc.1, hcalls, hc.2, (Option.some.inj h).symm⟩))
        · cases h
      · cases h
  | exit t =>
      simp only [State.next] at h
      split at h
      · rename_i i hcalls
        split at h
        · rename_i hc
          exact .inr (.inr (.inr ⟨t, i, rfl, hc, hcalls, (Option.some.inj h).symm⟩))
        · cases h
      · cases h

/-! ## The invariant -/

/-- The slots of the calls of one thread. -/
def slotsOf (s : State Tid) (t : Tid) : List Nat := (s.calls t).map Frame.slot

/-- A call of some thread holds entry `i`. -/
def Held (s : State Tid) (i : Nat) : Prop := ∃ t, i ∈ slotsOf s t

/-- The table and the calls in progress agree. -/
structure Inv (s : State Tid) : Prop where
  /-- Calls hold entries of the table. -/
  slot_lt : ∀ t, ∀ i ∈ slotsOf s t, i < maxNoOfThreads
  /-- The taken entries are the held ones; a taken entry holds 1. -/
  held : ∀ i < maxNoOfThreads, (s.table i = 1 ∧ Held s i) ∨ (s.table i = 0 ∧ ¬ Held s i)
  /-- The calls of one thread hold different entries. -/
  nodup : ∀ t, (slotsOf s t).Nodup
  /-- So do the calls of different threads. -/
  apart : ∀ t u, t ≠ u → List.Disjoint (slotsOf s t) (slotsOf s u)
  /-- Threads not yet started make no calls. -/
  idle : ∀ t, t ∉ s.threads → s.calls t = []
  ended_subset : s.ended ⊆ s.threads
  /-- A thread that ended is inside its exit call for ever. -/
  ended_calls : ∀ t ∈ s.ended, ∃ i, s.calls t = [⟨.exit, i⟩]
  /-- Calls nest at most once, and only under a call that uses the heap. -/
  nesting : ∀ t, (s.calls t).length ≤ 2 ∧
    ((s.calls t).length = 2 → ∃ f g, s.calls t = [f, g] ∧ heapCall f.nr = true)

omit [DecidableEq Tid] in
theorem slotsOf_boot (main t : Tid) : slotsOf (State.boot main) t = [] := rfl

omit [DecidableEq Tid] in
theorem inv_boot (main : Tid) : Inv (State.boot main) where
  slot_lt t i hi := by simp [slotsOf_boot] at hi
  held i _ := .inr ⟨rfl, fun ⟨t, hi⟩ => by simp [slotsOf_boot] at hi⟩
  nodup t := by simp [slotsOf_boot]
  apart t u _ := by simp [slotsOf_boot]
  idle t _ := rfl
  ended_subset := Finset.empty_subset _
  ended_calls t ht := by simp [State.boot] at ht
  nesting t := by simp [State.boot]

theorem slotsOf_enter (s : State Tid) (t : Tid) (n : Sysno) :
    slotsOf (s.enter t n) t = (getFreeSyscallArgIndex s.table).1 :: slotsOf s t := by
  simp [slotsOf, State.enter]

theorem slotsOf_enter_ne (s : State Tid) {t u : Tid} (n : Sysno) (h : u ≠ t) :
    slotsOf (s.enter t n) u = slotsOf s u := by
  simp [slotsOf, State.enter, Function.update_of_ne h]

theorem slotsOf_leave (s : State Tid) (t : Tid) (f : Frame) (fs : List Frame) :
    slotsOf (s.leave t f fs) t = fs.map Frame.slot := by
  simp [slotsOf, State.leave]

theorem slotsOf_leave_ne (s : State Tid) {t u : Tid} (f : Frame) (fs : List Frame)
    (h : u ≠ t) : slotsOf (s.leave t f fs) u = slotsOf s u := by
  simp [slotsOf, State.leave, Function.update_of_ne h]

/-- After a claim the held entries are the old ones and the one claimed. -/
theorem held_enter {s : State Tid} {t : Tid} {n : Sysno} {i : Nat} :
    Held (s.enter t n) i ↔ i = (getFreeSyscallArgIndex s.table).1 ∨ Held s i := by
  constructor
  · rintro ⟨u, hi⟩
    by_cases hu : u = t
    · subst hu
      rw [slotsOf_enter, List.mem_cons] at hi
      exact hi.imp_right fun h => ⟨u, h⟩
    · rw [slotsOf_enter_ne s n hu] at hi
      exact .inr ⟨u, hi⟩
  · rintro (rfl | ⟨u, hi⟩)
    · exact ⟨t, by rw [slotsOf_enter]; exact List.mem_cons_self⟩
    · refine ⟨u, ?_⟩
      by_cases hu : u = t
      · subst hu
        rw [slotsOf_enter]
        exact List.mem_cons_of_mem _ hi
      · rwa [slotsOf_enter_ne s n hu]

omit [DecidableEq Tid] in
/-- A free entry is held by no call. -/
theorem Inv.not_held {s : State Tid} (h : Inv s) {i : Nat} (hi : i < maxNoOfThreads)
    (hfree : s.table i = 0) : ¬ Held s i := by
  rcases h.held i hi with ⟨h1, _⟩ | ⟨_, hn⟩
  · omega
  · exact hn

/-- The heap does not use itself. -/
theorem usesHeap_of_heapCall {n : Sysno} (h : heapCall n = true) : usesHeap n = false := by
  cases n <;> first | rfl | cases h

omit [DecidableEq Tid] in
/-- Inside a nested call no further call is made. -/
theorem Inv.length_le_one {s : State Tid} (h : Inv s) {t : Tid} {n : Sysno}
    (hmay : mayCall (s.calls t) n = true) : (s.calls t).length ≤ 1 := by
  obtain ⟨hle, htwo⟩ := h.nesting t
  by_contra hgt
  obtain ⟨f, g, hcalls, hheap⟩ := htwo (by omega)
  rw [hcalls] at hmay
  simp [mayCall, usesHeap_of_heapCall hheap] at hmay

/-- The calls of a live thread are no business of a thread not yet started. -/
theorem Inv.idle_update {s : State Tid} (h : Inv s) {t : Tid} (hlive : s.live t)
    (fs : List Frame) : ∀ u, u ∉ s.threads → Function.update s.calls t fs u = [] := by
  intro u hu
  have hut : u ≠ t := fun e => hu (e ▸ hlive.1)
  rw [Function.update_of_ne hut]
  exact h.idle u hu

/-- Nor of one that has ended. -/
theorem Inv.ended_update {s : State Tid} (h : Inv s) {t : Tid} (hlive : s.live t)
    (fs : List Frame) : ∀ u ∈ s.ended, ∃ i, Function.update s.calls t fs u = [⟨.exit, i⟩] := by
  intro u hu
  have hut : u ≠ t := fun e => hlive.2 (e ▸ hu)
  rw [Function.update_of_ne hut]
  exact h.ended_calls u hu

/-- A claim inside the table keeps the invariant. -/
theorem Inv.enter {s : State Tid} (h : Inv s) {t : Tid} {n : Sysno} (hlive : s.live t)
    (hmay : mayCall (s.calls t) n = true)
    (hr : (getFreeSyscallArgIndex s.table).1 < maxNoOfThreads) : Inv (s.enter t n) := by
  obtain ⟨hfree, htab⟩ := getFree_of_lt hr
  have hnew := h.not_held hr hfree
  refine
    { slot_lt := ?_, held := ?_, nodup := ?_, apart := ?_,
      idle := h.idle_update hlive _, ended_subset := h.ended_subset,
      ended_calls := h.ended_update hlive _, nesting := ?_ }
  · intro u i hi
    by_cases hu : u = t
    · subst hu
      rw [slotsOf_enter, List.mem_cons] at hi
      rcases hi with rfl | hi
      · exact hr
      · exact h.slot_lt u i hi
    · rw [slotsOf_enter_ne s n hu] at hi
      exact h.slot_lt u i hi
  · intro i hi
    rw [held_enter]
    show ((getFreeSyscallArgIndex s.table).2 i = 1 ∧ _) ∨
      ((getFreeSyscallArgIndex s.table).2 i = 0 ∧ _)
    rw [htab]
    by_cases hc : i = (getFreeSyscallArgIndex s.table).1
    · exact .inl ⟨by rw [hc, Function.update_self], .inl hc⟩
    · rw [Function.update_of_ne hc]
      simpa [hc] using h.held i hi
  · intro u
    by_cases hu : u = t
    · subst hu
      rw [slotsOf_enter, List.nodup_cons]
      exact ⟨fun hmem => hnew ⟨u, hmem⟩, h.nodup u⟩
    · rw [slotsOf_enter_ne s n hu]
      exact h.nodup u
  · -- only the entry claimed is new, and nobody held it
    intro u v huv
    by_cases hu : u = t
    · subst hu
      rw [slotsOf_enter, slotsOf_enter_ne s n (Ne.symm huv), List.disjoint_cons_left]
      exact ⟨fun hmem => hnew ⟨v, hmem⟩, h.apart u v huv⟩
    · rw [slotsOf_enter_ne s n hu]
      by_cases hv : v = t
      · subst hv
        rw [slotsOf_enter, List.disjoint_cons_right]
        exact ⟨fun hmem => hnew ⟨u, hmem⟩, h.apart u v huv⟩
      · rw [slotsOf_enter_ne s n hv]
        exact h.apart u v huv
  · intro u
    by_cases hu : u = t
    · subst hu
      show (Function.update s.calls u _ u).length ≤ 2 ∧ _
      have hc : (s.enter u n).calls u = ⟨n, (getFreeSyscallArgIndex s.table).1⟩ :: s.calls u := by
        simp [State.enter]
      rw [Function.update_self, hc]
      cases hcalls : s.calls u with
      | nil => simp
      | cons f fs =>
          rw [hcalls] at hmay
          simp only [mayCall, Bool.and_eq_true] at hmay
          have hlen : fs = [] := by
            have hle := h.length_le_one (t := u) (n := n) (by simp [hcalls, mayCall, hmay])
            rw [hcalls, List.length_cons] at hle
            exact List.length_eq_zero_iff.mp (by omega)
          subst hlen
          exact ⟨by simp, fun _ => ⟨_, _, rfl, hmay.2⟩⟩
    · show (Function.update s.calls t _ u).length ≤ 2 ∧ _
      have hc : (s.enter t n).calls u = s.calls u := Function.update_of_ne hu _ _
      rw [Function.update_of_ne hu, hc]
      exact h.nesting u

/-- A release keeps the invariant. -/
theorem Inv.leave {s : State Tid} (h : Inv s) {t : Tid} {f : Frame} {fs : List Frame}
    (hlive : s.live t) (hcalls : s.calls t = f :: fs) : Inv (s.leave t f fs) := by
  have hslots : slotsOf s t = f.slot :: fs.map Frame.slot := by simp [slotsOf, hcalls]
  have hnd := h.nodup t
  rw [hslots, List.nodup_cons] at hnd
  -- the calls left hold what they held, and nothing the released one held
  have hkeep : ∀ u, ∀ i ∈ slotsOf (s.leave t f fs) u, i ∈ slotsOf s u ∧ i ≠ f.slot := by
    intro u i hi
    by_cases hu : u = t
    · subst hu
      rw [slotsOf_leave] at hi
      exact ⟨hslots ▸ List.mem_cons_of_mem _ hi, fun e => hnd.1 (e ▸ hi)⟩
    · rw [slotsOf_leave_ne s f fs hu] at hi
      refine ⟨hi, fun e => h.apart u t hu hi ?_⟩
      rw [hslots, e]
      exact List.mem_cons_self
  have hheld : ∀ i, i ≠ f.slot → (Held (s.leave t f fs) i ↔ Held s i) := by
    intro i hne
    refine ⟨fun ⟨u, hi⟩ => ⟨u, (hkeep u i hi).1⟩, fun ⟨u, hi⟩ => ⟨u, ?_⟩⟩
    by_cases hu : u = t
    · subst hu
      rw [hslots, List.mem_cons] at hi
      rw [slotsOf_leave]
      exact hi.resolve_left hne
    · rwa [slotsOf_leave_ne s f fs hu]
  refine
    { slot_lt := fun u i hi => h.slot_lt u i (hkeep u i hi).1, held := ?_, nodup := ?_
      apart := ?_, idle := h.idle_update hlive _, ended_subset := h.ended_subset
      ended_calls := h.ended_update hlive _, nesting := ?_ }
  · intro i hi
    show (Function.update s.table f.slot 0 i = 1 ∧ _) ∨
      (Function.update s.table f.slot 0 i = 0 ∧ _)
    by_cases hc : i = f.slot
    · subst hc
      exact .inr ⟨Function.update_self .., fun ⟨u, hu⟩ => (hkeep u _ hu).2 rfl⟩
    · rw [Function.update_of_ne hc, hheld i hc]
      exact h.held i hi
  · intro u
    by_cases hu : u = t
    · subst hu
      rw [slotsOf_leave]
      exact hnd.2
    · rw [slotsOf_leave_ne s f fs hu]
      exact h.nodup u
  · intro u v huv i hi hj
    exact h.apart u v huv (hkeep u i hi).1 (hkeep v i hj).1
  · intro u
    show (Function.update s.calls t fs u).length ≤ 2 ∧
      ((Function.update s.calls t fs u).length = 2 →
      ∃ f' g, Function.update s.calls t fs u = [f', g] ∧ _)
    by_cases hu : u = t
    · subst hu
      have hle := (h.nesting u).1
      rw [hcalls, List.length_cons] at hle
      rw [Function.update_self]
      exact ⟨by omega, fun e => by omega⟩
    · rw [Function.update_of_ne hu]
      exact h.nesting u

/-- Starting a thread keeps the invariant. -/
theorem Inv.create {s : State Tid} (h : Inv s) (u : Tid) :
    Inv { s with threads := insert u s.threads } where
  slot_lt := h.slot_lt
  held := h.held
  nodup := h.nodup
  apart := h.apart
  idle v hv := h.idle v fun hmem => hv (Finset.mem_insert_of_mem hmem)
  ended_subset := h.ended_subset.trans (Finset.subset_insert _ _)
  ended_calls := h.ended_calls
  nesting := h.nesting

/-- The end of a thread keeps the invariant: its exit call stays in progress
and its entry taken. -/
theorem Inv.exit {s : State Tid} (h : Inv s) {t : Tid} {i : Nat} (hlive : s.live t)
    (hcalls : s.calls t = [⟨.exit, i⟩]) : Inv { s with ended := insert t s.ended } where
  slot_lt := h.slot_lt
  held := h.held
  nodup := h.nodup
  apart := h.apart
  idle := h.idle
  ended_subset := Finset.insert_subset hlive.1 h.ended_subset
  ended_calls u hu := by
    rcases Finset.mem_insert.mp hu with rfl | hu
    · exact ⟨i, hcalls⟩
    · exact h.ended_calls u hu
  nesting := h.nesting

/-- The step lemma. -/
theorem Inv.next {s s' : State Tid} {a : Act Tid} (h : Inv s) (hr : InRange s a)
    (hn : s.next a = some s') : Inv s' := by
  rcases next_cases hn with ⟨t, n, rfl, hlive, hmay, rfl⟩ | ⟨t, f, fs, rfl, hlive, hcalls, -, rfl⟩ |
    ⟨t, u, i, fs, rfl, -, -, -, rfl⟩ | ⟨t, i, rfl, hlive, hcalls, rfl⟩
  · exact h.enter hlive hmay hr
  · exact h.leave hlive hcalls
  · exact h.create u
  · exact h.exit hlive hcalls

/-- The run lemma: the invariant holds in every state that a run with claims
inside the table reaches. -/
theorem inv_of_run {as : List (Act Tid)} {s : State Tid}
    (h : (slotSys Tid).Run InRange as s) : Inv s := by
  refine h.invariant (I := Inv) ?_ ?_
  · rintro _ ⟨main, rfl⟩
    exact inv_boot main
  · intro _ _ _ hi hg hn
    exact hi.next hg hn

/-- Two threads, one of them with a nested call. -/
def nestedRun : List (Act Nat) :=
  [.call 0 .clone, .create 0 1, .ret 0, .call 0 .readv, .call 1 .write, .call 0 .brk]

theorem run_nestedRun :
    ∃ s, (slotSys Nat).Run InRange nestedRun s ∧ slotsOf s 0 = [2, 0] ∧ slotsOf s 1 = [1] := by
  obtain ⟨s, hrun, hslots⟩ := TSys.exists_run (slotSys Nat) InRange nestedRun ⟨0, rfl⟩
    (fun s => (slotsOf s 0, slotsOf s 1)) (b := ([2, 0], [1])) (by decide +kernel)
  exact ⟨s, hrun, Prod.mk.inj hslots⟩

end Porpoise.Slots
