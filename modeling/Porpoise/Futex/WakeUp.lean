import Mathlib.Data.Fintype.Basic
import Mathlib.Logic.Function.Basic
import Porpoise.Lib.TSys

/-!
# Wake-ups through the mirror

Any number of threads wait on and update one enclave word `w` whose mirror `o`
is in `object_table` already. The kernel compares and sleeps on `o`; every
wrapped call refreshes `o` from `w` first, by the load and the store of
`send_user`. The steps are

* `wait t val` — `t` begins `FUTEX_WAIT(w, val)`;
* `update t v` — `t` changes `w` to the new value `v` and begins
  `FUTEX_WAKE(w, all)`;
* `step t` — the next step of the call `t` is in.

`Inv` says why nobody is left asleep: a waiter about to sleep on a value that
`w` no longer has is still ahead of some updater's store.
-/

namespace Porpoise.Futex.WakeUp

open Porpoise.Lib

/-- Where a thread is; `val` is the argument of its `FUTEX_WAIT`, `v` what
`send_user` has loaded. -/
inductive Pc (V : Type*)
  | outside
  | waitLoad (val : V)
  | waitStore (val v : V)
  /-- In the kernel, before the comparison. -/
  | waitCheck (val : V)
  | asleep (val : V)
  | wakeLoad
  | wakeStore (v : V)
  /-- In the kernel, before the wake. -/
  | wakeAll
  deriving DecidableEq

structure State (Tid V : Type*) where
  w : V
  /-- The mirror. -/
  o : V
  /-- The values `w` has had. -/
  used : List V
  pc : Tid → Pc V

inductive Act (Tid V : Type*)
  | wait (t : Tid) (val : V)
  | update (t : Tid) (v : V)
  | step (t : Tid)

variable {Tid V : Type*} [DecidableEq Tid] [DecidableEq V]

namespace State

def goto (s : State Tid V) (t : Tid) (p : Pc V) : State Tid V :=
  { s with pc := Function.update s.pc t p }

/-- The kernel's `FUTEX_WAKE` of every sleeper on `o`. -/
def wakeSleepers (s : State Tid V) : State Tid V :=
  { s with pc := fun u => match s.pc u with
      | .asleep _ => .outside
      | p => p }

/-- The next step of the call that `t` is in. -/
def stepOf (s : State Tid V) (t : Tid) : Option (State Tid V) :=
  match s.pc t with
  | .waitLoad val => some (s.goto t (.waitStore val s.w))
  | .waitStore val v => some ({ s with o := v }.goto t (.waitCheck val))
  | .waitCheck val => some (s.goto t (if s.o = val then .asleep val else .outside))
  | .wakeLoad => some (s.goto t (.wakeStore s.w))
  | .wakeStore v => some ({ s with o := v }.goto t .wakeAll)
  | .wakeAll => some (s.wakeSleepers.goto t .outside)
  | .outside | .asleep _ => none

/-- One step; `none` when it is not enabled. -/
def next (s : State Tid V) : Act Tid V → Option (State Tid V)
  | .wait t val => if s.pc t = .outside then some (s.goto t (.waitLoad val)) else none
  | .update t v =>
      if s.pc t = .outside ∧ v ∉ s.used then
        some ({ s with w := v, used := v :: s.used }.goto t .wakeLoad)
      else none
  | .step t => s.stepOf t

end State

/-- All threads are outside at first, and the mirror holds anything. -/
def sys (Tid V : Type*) [DecidableEq Tid] [DecidableEq V] : TSys (State Tid V) (Act Tid V) where
  init s := s.used = [s.w] ∧ ∀ t, s.pc t = .outside
  next := State.next

/-- An updater that has not refreshed the mirror yet. -/
def Pc.beforeStore : Pc V → Prop
  | .wakeLoad | .wakeStore _ => True
  | _ => False

/-- An updater whose `FUTEX_WAKE` is not finished. -/
def Pc.updating : Pc V → Prop
  | .wakeLoad | .wakeStore _ | .wakeAll => True
  | _ => False

omit [DecidableEq V] in
theorem Pc.beforeStore.updating {p : Pc V} (h : p.beforeStore) : p.updating := by
  cases p <;> trivial

instance (p : Pc V) : Decidable p.beforeStore :=
  match p with
  | .wakeLoad | .wakeStore _ => .isTrue trivial
  | .outside | .waitLoad _ | .waitStore _ _ | .waitCheck _ | .asleep _ | .wakeAll => .isFalse id

/-- The value that the next step of the thread writes to the mirror. -/
def Pc.stores : Pc V → Option V
  | .waitStore _ v | .wakeStore v => some v
  | _ => none

/-- The step writes to the mirror a value `v` that `w` no longer has, no other
updater is still to write, and some thread waits on `v`: the writer itself, or
one that has written already. -/
def Overtaken (s : State Tid V) : Act Tid V → Prop
  | .step t => ∃ v, (s.pc t).stores = some v ∧ v ≠ s.w ∧
      (∀ u, u ≠ t → ¬ (s.pc u).beforeStore) ∧
      (s.pc t = .waitStore v v ∨ ∃ u, s.pc u = .waitCheck v)
  | _ => False

instance [Fintype Tid] (s : State Tid V) (a : Act Tid V) : Decidable (Overtaken s a) :=
  match a with
  | .wait _ _ | .update _ _ => .isFalse id
  | .step t =>
      match h : (s.pc t).stores with
      | none => .isFalse fun ⟨v, hv, _⟩ => by rw [h] at hv; cases hv
      | some v =>
          decidable_of_iff (v ≠ s.w ∧ (∀ u, u ≠ t → ¬ (s.pc u).beforeStore) ∧
            (s.pc t = .waitStore v v ∨ ∃ u, s.pc u = .waitCheck v))
            ⟨fun hc => ⟨v, h, hc⟩, fun ⟨v', hv, hc⟩ => by
              rw [h] at hv
              cases hv
              exact hc⟩

/-- When all updaters have finished, nobody is asleep on a value that `w` does
not have. -/
def NoneLost (s : State Tid V) : Prop :=
  (∀ t, ¬ (s.pc t).updating) → ∀ t val, s.pc t = .asleep val → val = s.w

/-! ## The invariant -/

structure Inv (s : State Tid V) : Prop where
  /-- Before a thread can fall asleep on a stale value some updater writes. -/
  check : ∀ t val, s.pc t = .waitCheck val → val ≠ s.w → s.o = val →
    ∃ u, (s.pc u).beforeStore
  /-- A thread asleep on a stale value will be woken. -/
  asleep : ∀ t val, s.pc t = .asleep val → val ≠ s.w → ∃ u, (s.pc u).updating

omit [DecidableEq Tid] [DecidableEq V] in
theorem Inv.noneLost {s : State Tid V} (h : Inv s) : NoneLost s := by
  intro hquiet t val ht
  by_contra hne
  obtain ⟨u, hu⟩ := h.asleep t val ht hne
  exact hquiet u hu

omit [DecidableEq V] in
@[simp] theorem goto_pc (s : State Tid V) (t u : Tid) (p : Pc V) :
    (s.goto t p).pc u = if u = t then p else s.pc u := by
  simp [State.goto, Function.update_apply]

omit [DecidableEq V] in
/-- Threads other than `t` stay where they are. -/
theorem exists_goto {P : Pc V → Prop} {s : State Tid V} {t : Tid} {p : Pc V}
    (hnot : ¬ P (s.pc t)) (h : ∃ u, P (s.pc u)) : ∃ u, P ((s.goto t p).pc u) := by
  obtain ⟨u, hu⟩ := h
  have hut : u ≠ t := by
    rintro rfl
    exact hnot hu
  exact ⟨u, by rwa [goto_pc, if_neg hut]⟩

omit [DecidableEq V] in
/-- A step of a thread that is no updater, into a place that is neither before
the comparison nor asleep, keeps the invariant. -/
theorem Inv.goto {s : State Tid V} (h : Inv s) {t : Tid} {p : Pc V}
    (ht : ¬ (s.pc t).updating) (hcheck : ∀ val, p ≠ .waitCheck val)
    (hasleep : ∀ val, p ≠ .asleep val) : Inv (s.goto t p) where
  check u val hu hne ho := by
    rw [goto_pc] at hu
    split at hu
    · exact absurd hu (hcheck val)
    · exact exists_goto (fun hb => ht hb.updating) (h.check u val hu hne ho)
  asleep u val hu hne := by
    rw [goto_pc] at hu
    split at hu
    · exact absurd hu (hasleep val)
    · exact exists_goto ht (h.asleep u val hu hne)

omit [DecidableEq Tid] [DecidableEq V] in
/-- With an updater before its store at `t`, everything is covered. -/
theorem inv_of_beforeStore {s : State Tid V} {t : Tid} (h : (s.pc t).beforeStore) : Inv s where
  check _ _ _ _ _ := ⟨t, h⟩
  asleep _ _ _ _ := ⟨t, h.updating⟩

omit [DecidableEq V] in
/-- A waiter's store keeps the invariant unless it overtakes. -/
theorem Inv.waitStore {s : State Tid V} (h : Inv s) {t : Tid} {val v : V}
    (hpc : s.pc t = .waitStore val v) (hord : ¬ Overtaken s (.step t)) :
    Inv ({ s with o := v }.goto t (.waitCheck val)) where
  check u val' hu hne ho := by
    have hv : v = val' := ho
    subst hv
    rw [goto_pc] at hu
    -- `u` is the writer, or it waits on `v` already
    have hwait : s.pc t = .waitStore v v ∨ ∃ u, s.pc u = .waitCheck v := by
      split at hu
      · cases hu
        exact .inl hpc
      · exact .inr ⟨u, hu⟩
    by_contra hno
    refine hord ⟨v, by simp [hpc, Pc.stores], hne, fun u' hu' hb => ?_, hwait⟩
    exact hno ⟨u', by rwa [goto_pc, if_neg hu']⟩
  asleep u val' hu hne := by
    rw [goto_pc] at hu
    split at hu
    · cases hu
    · exact exists_goto (by simp [hpc, Pc.updating]) (h.asleep u val' hu hne)

omit [DecidableEq V] in
/-- So does an updater's. -/
theorem Inv.wakeStore {s : State Tid V} {t : Tid} {v : V}
    (hpc : s.pc t = .wakeStore v) (hord : ¬ Overtaken s (.step t)) :
    Inv ({ s with o := v }.goto t .wakeAll) where
  check u val' hu hne ho := by
    have hv : v = val' := ho
    subst hv
    rw [goto_pc] at hu
    split at hu
    · cases hu
    · by_contra hno
      refine hord ⟨v, by simp [hpc, Pc.stores], hne, fun u' hu' hb => ?_, .inr ⟨u, hu⟩⟩
      exact hno ⟨u', by rwa [goto_pc, if_neg hu']⟩
  asleep u val' _ _ := ⟨t, by simp [Pc.updating]⟩

/-- A waiter that falls asleep on a stale value has an updater before its
store, and so before its wake. -/
theorem Inv.waitCheck {s : State Tid V} (h : Inv s) {t : Tid} {val : V}
    (hpc : s.pc t = .waitCheck val) :
    Inv (s.goto t (if s.o = val then .asleep val else .outside)) := by
  by_cases ho : s.o = val
  · rw [if_pos ho]
    refine ⟨fun u val' hu hne ho' => ?_, fun u val' hu hne => ?_⟩
    · rw [goto_pc] at hu
      split at hu
      · cases hu
      · exact exists_goto (by simp [hpc, Pc.beforeStore]) (h.check u val' hu hne ho')
    · rw [goto_pc] at hu
      refine exists_goto (by simp [hpc, Pc.updating]) ?_
      split at hu
      · cases hu
        obtain ⟨u', hu'⟩ := h.check t val hpc hne ho
        exact ⟨u', hu'.updating⟩
      · exact h.asleep u val' hu hne
  · rw [if_neg ho]
    exact h.goto (by simp [hpc, Pc.updating]) (by simp) (by simp)

omit [DecidableEq V] in
/-- After the wake nobody sleeps. -/
theorem Inv.wakeAll {s : State Tid V} (h : Inv s) {t : Tid} (hpc : s.pc t = .wakeAll) :
    Inv (s.wakeSleepers.goto t .outside) where
  check u val hu hne ho := by
    have hu' : s.pc u = .waitCheck val := by
      rw [goto_pc] at hu
      split at hu
      · cases hu
      · revert hu
        simp only [State.wakeSleepers]
        cases s.pc u <;> simp
    obtain ⟨u', hb⟩ := h.check u val hu' hne ho
    refine exists_goto (P := Pc.beforeStore) (s := s.wakeSleepers) ?_ ⟨u', ?_⟩
    · simp [State.wakeSleepers, hpc, Pc.beforeStore]
    · revert hb
      simp only [State.wakeSleepers]
      cases s.pc u' <;> simp [Pc.beforeStore]
  asleep u val hu hne := by
    rw [goto_pc] at hu
    split at hu
    · cases hu
    · revert hu
      simp only [State.wakeSleepers]
      cases s.pc u <;> simp

/-- The step lemma. -/
theorem Inv.next {s s' : State Tid V} {a : Act Tid V} (h : Inv s) (hord : ¬ Overtaken s a)
    (hn : s.next a = some s') : Inv s' := by
  cases a with
  | wait t val =>
      simp only [State.next] at hn
      split at hn
      · rename_i hpc
        cases hn
        exact h.goto (by simp [hpc, Pc.updating]) (by simp) (by simp)
      · cases hn
  | update t v =>
      simp only [State.next] at hn
      split at hn
      · cases hn
        exact inv_of_beforeStore (t := t) (by simp [Pc.beforeStore])
      · cases hn
  | step t =>
      simp only [State.next, State.stepOf] at hn
      cases hpc : s.pc t with
      | outside | asleep val =>
          simp only [hpc] at hn
          cases hn
      | waitLoad val =>
          simp only [hpc] at hn
          cases hn
          exact h.goto (by simp [hpc, Pc.updating]) (by simp) (by simp)
      | waitStore val v =>
          simp only [hpc] at hn
          cases hn
          exact h.waitStore hpc hord
      | waitCheck val =>
          simp only [hpc] at hn
          cases hn
          exact h.waitCheck hpc
      | wakeLoad =>
          simp only [hpc] at hn
          cases hn
          exact inv_of_beforeStore (t := t) (by simp [Pc.beforeStore])
      | wakeStore v =>
          simp only [hpc] at hn
          cases hn
          exact Inv.wakeStore hpc hord
      | wakeAll =>
          simp only [hpc] at hn
          cases hn
          exact h.wakeAll hpc

/-- **No lost wake-up through the mirror.** In every run without an overtaken
store: when all updaters have finished, nobody sleeps on a value that the word
does not have. -/
theorem no_lost_wake_up {as : List (Act Tid V)} {s : State Tid V}
    (h : (sys Tid V).Run (fun s a => ¬ Overtaken s a) as s) : NoneLost s := by
  refine Inv.noneLost (h.invariant (I := Inv) ?_ fun s a s' hi hg hn => hi.next hg hn)
  rintro s ⟨-, hout⟩
  exact ⟨fun t val ht => by simp [hout t] at ht, fun t val ht => by simp [hout t] at ht⟩

/-- Nobody has begun, and the mirror holds the word. -/
def quiet : State (Fin 2) Nat := { w := 0, o := 0, used := [0], pc := fun _ => .outside }

/-- Thread 0 falls asleep, and the update by thread 1 wakes it. -/
def wokenRun : List (Act (Fin 2) Nat) :=
  [.wait 0 0, .step 0, .step 0, .step 0, .update 1 1, .step 1, .step 1, .step 1]

theorem no_lost_wake_up_woken :
    ∃ s, (sys (Fin 2) Nat).Run (fun s a => ¬ Overtaken s a) wokenRun s ∧
      s.pc 0 = .outside ∧ s.w = 1 ∧ NoneLost s := by
  obtain ⟨s, hrun, hend⟩ := TSys.exists_run (sys (Fin 2) Nat) (fun s a => ¬ Overtaken s a)
    wokenRun (s := quiet) ⟨rfl, fun _ => rfl⟩ (fun s => (s.pc 0, s.w)) (b := (.outside, 1))
    (by decide +kernel)
  obtain ⟨hpc, hw⟩ := Prod.mk.inj hend
  exact ⟨s, hrun, hpc, hw, no_lost_wake_up hrun⟩

/-- Thread 1 updates `w` and wakes between the load and the store of
thread 0. -/
def overtakenRun : List (Act (Fin 2) Nat) :=
  [.wait 0 0, .step 0, .update 1 1, .step 1, .step 1, .step 1, .step 0, .step 0]

/-- The stale copy overwrites the newer one, and the waiter sleeps for ever. -/
theorem no_lost_wake_up_overtaken :
    ∃ s, (sys (Fin 2) Nat).Run TSys.Any overtakenRun s ∧ s.pc 0 = .asleep 0 ∧
      s.pc 1 = .outside ∧ s.w = 1 ∧ ¬ NoneLost s := by
  obtain ⟨s, hrun, hend⟩ := TSys.exists_run (sys (Fin 2) Nat) TSys.Any overtakenRun (s := quiet)
    ⟨rfl, fun _ => rfl⟩ (fun s => (s.pc 0, s.pc 1, s.w)) (b := (.asleep 0, .outside, 1))
    (by decide +kernel)
  obtain ⟨h0, hend⟩ := Prod.mk.inj hend
  obtain ⟨h1, hw⟩ := Prod.mk.inj hend
  refine ⟨s, hrun, h0, h1, hw, fun hlost => ?_⟩
  have hquiet : ∀ t, ¬ (s.pc t).updating := by
    intro t
    match t with
    | 0 => simp [h0, Pc.updating]
    | 1 => simp [h1, Pc.updating]
  have := hlost hquiet 0 0 h0
  omega

end Porpoise.Futex.WakeUp
