import Mathlib.Logic.Function.Basic
import Porpoise.Lib.TSys

/-!
# Registering a thread

A thread finds its `struct pthread` in `fs_table`, under the address of the
TCS it runs on. `start` enters it there with `__set_thread_area`; `start_c11`
does not. Neither `__set_thread_area` nor `__pthread_self` takes a lock, so
every access of the table is a step of its own:

* `spawn t e u tcs self` — `__pthread_create` starts thread `t` at the entry
  `e` on the TCS `tcs`, with `self` as its structure;
* `sigprocmask t r` — the call of `start` under `unblock_cancel` returns `r`;
  on -1 `__syscall_wrap` sets `errno`, which evaluates `__pthread_self`;
* `area t` — the next access of `t` in `__set_thread_area`;
* `self t` — the start routine, or `__pthread_exit`, begins an evaluation of
  `__pthread_self`;
* `exit t` — `t` enters `__pthread_exit`, which begins with one;
* `look t` — the next access of `t` in `__pthread_self`;
* `leave t` — `t` ends in `SYS_exit`.

A failed assertion prints to `stderr`, whose lock is taken under the thread's
own id: it evaluates `__pthread_self` once more.
-/

namespace Porpoise.Threads

open Porpoise.Lib

/-- Addresses; `NULL` is 0. -/
abbrev Addr := Nat

def null : Addr := 0

/-- `MAX_THREADS`: the entries of `fs_table`. -/
def maxThreads : Nat := 20

/-- `struct fs_map`. -/
structure FsMap where
  tcs : Addr
  fs : Addr
  deriving DecidableEq

/-- `fs_table`. Only the entries below `maxThreads` are looked at. -/
abbrev FsTable := Nat → FsMap

/-- The table with `e` stored at `i`. -/
def fill (t : FsTable) (i : Nat) (e : FsMap) : FsTable := fun j => if j = i then e else t j

/-- The routine that `__clone` is given. -/
inductive Entry
  | start
  | start_c11
  deriving DecidableEq

/-- Where a thread is. -/
inductive Pc
  /-- In `start`, before the `rt_sigprocmask` call. -/
  | unblock
  /-- In `__set_thread_area`, about to look at this entry. -/
  | scan (i : Nat)
  /-- About to store the TCS in this entry, which it found free. -/
  | storeTcs (i : Nat)
  /-- About to store the thread data there. -/
  | storeFs (i : Nat)
  /-- In the start routine. -/
  | body
  /-- In `__pthread_exit`. -/
  | exiting
  | gone
  /-- An assertion has failed. -/
  | aborted
  deriving DecidableEq

/-- Where an evaluation of `__pthread_self` is. -/
inductive Look
  /-- About to compare the TCS of this entry. -/
  | entry (i : Nat)
  /-- About to read the data of this entry. -/
  | data (i : Nat)
  deriving DecidableEq

structure Thread where
  /-- `%fs:0`: the TCS the thread runs on. -/
  tcs : Addr
  /-- The `struct pthread` that `__pthread_create` allocated. -/
  self : Addr
  pc : Pc
  /-- The evaluation of `__pthread_self` in progress. -/
  look : Option Look
  /-- `__set_thread_area` has returned on this thread. -/
  registered : Bool
  deriving DecidableEq

/-- One evaluation of `__pthread_self`: the thread, whether it was registered,
and what came back, `none` when the assertion failed. -/
structure Eval (Tid : Type*) where
  tid : Tid
  registered : Bool
  result : Option Addr
  deriving DecidableEq

structure RegState (Tid : Type*) where
  table : FsTable
  threads : Tid → Option Thread
  /-- The TCSs that threads run on. -/
  bound : List Addr
  evals : List (Eval Tid)

inductive RegAct (Tid : Type*)
  | spawn (t : Tid) (e : Entry) (unblockCancel : Bool) (tcs self : Addr)
  | sigprocmask (t : Tid) (r : Int)
  | area (t : Tid)
  | self (t : Tid)
  | exit (t : Tid)
  | look (t : Tid)
  | leave (t : Tid)

/-- The first statement of the entry routine. -/
def firstPc : Entry → Bool → Pc
  | .start, true => .unblock
  | .start, false => .scan 0
  | .start_c11, _ => .body

/-- One access of `__set_thread_area`, by the thread `th`. -/
def areaStep (table : FsTable) (th : Thread) : Option (FsTable × Thread) :=
  match th.pc with
  | .scan i =>
      if i < maxThreads then
        if (table i).tcs = null then some (table, { th with pc := .storeTcs i })
        else some (table, { th with pc := .scan (i + 1) })
      else some (table, { th with pc := .aborted, look := some (.entry 0) })
  | .storeTcs i => some (fill table i { table i with tcs := th.tcs }, { th with pc := .storeFs i })
  | .storeFs i =>
      some (fill table i { table i with fs := th.self },
        { th with pc := .body, registered := true })
  | _ => none

/-- One access of `__pthread_self`, by the thread `th`, and the result when it
is the last. -/
def lookStep (table : FsTable) (th : Thread) : Option (Thread × Option (Option Addr)) :=
  match th.look with
  | none => none
  | some (.entry i) =>
      if i < maxThreads then
        if (table i).tcs = th.tcs then some ({ th with look := some (.data i) }, none)
        else some ({ th with look := some (.entry (i + 1)) }, none)
      else some ({ th with pc := .aborted, look := none }, some none)
  | some (.data i) => some ({ th with look := none }, some (some (table i).fs))

variable {Tid : Type*} [DecidableEq Tid]

namespace RegState

def setThread (s : RegState Tid) (t : Tid) (th : Thread) : RegState Tid :=
  { s with threads := Function.update s.threads t (some th) }

/-- The step of a thread that exists and is outside `__pthread_self`. -/
def onThread (s : RegState Tid) (t : Tid) (f : Thread → Option (RegState Tid)) :
    Option (RegState Tid) :=
  match s.threads t with
  | some th => if th.look = none then f th else none
  | none => none

/-- One step; `none` when it is not enabled. -/
def next (s : RegState Tid) : RegAct Tid → Option (RegState Tid)
  | .spawn t e unblockCancel tcs self =>
      if s.threads t = none ∧ tcs ≠ null ∧ tcs ∉ s.bound then
        some { s.setThread t ⟨tcs, self, firstPc e unblockCancel, none, false⟩ with
          bound := tcs :: s.bound }
      else none
  | .sigprocmask t r => s.onThread t fun th =>
      if th.pc = .unblock then
        some (s.setThread t { th with
          pc := .scan 0
          look := if r = -1 then some (.entry 0) else none })
      else none
  | .area t => s.onThread t fun th =>
      (areaStep s.table th).map fun p => { s.setThread t p.2 with table := p.1 }
  | .self t => s.onThread t fun th =>
      if th.pc = .body ∨ th.pc = .exiting then
        some (s.setThread t { th with look := some (.entry 0) })
      else none
  | .exit t => s.onThread t fun th =>
      if th.pc = .body then
        some (s.setThread t { th with pc := .exiting, look := some (.entry 0) })
      else none
  | .look t =>
      match s.threads t with
      | none => none
      | some th => (lookStep s.table th).map fun p =>
          { s.setThread t p.1 with
            evals := match p.2 with
              | none => s.evals
              | some r => ⟨t, th.registered, r⟩ :: s.evals }
  | .leave t => s.onThread t fun th =>
      if th.pc = .exiting then
        some { s.setThread t { th with pc := .gone } with
          bound := s.bound.filter (· ≠ th.tcs) }
      else none

/-- The main thread, registered by `__init_tp` in the first entry. -/
def boot (t : Tid) (tcs self : Addr) : RegState Tid where
  table := fill (fun _ => ⟨null, null⟩) 0 ⟨tcs, self⟩
  threads := Function.update (fun _ => none) t (some ⟨tcs, self, .body, none, true⟩)
  bound := [tcs]
  evals := []

end RegState

def regSys (Tid : Type*) [DecidableEq Tid] : TSys (RegState Tid) (RegAct Tid) where
  init s := ∃ t tcs self, tcs ≠ null ∧ s = RegState.boot t tcs self
  next := RegState.next

/-- The entry that `th` is about to store its TCS in is still free, and no
entry holds that TCS; it has not come to the end of the table. -/
def EntersAlone (table : FsTable) (th : Thread) : Prop :=
  match th.pc with
  | .scan i => i < maxThreads
  | .storeTcs i => (table i).tcs = null ∧ ∀ j < maxThreads, (table j).tcs ≠ th.tcs
  | _ => True

/-- Threads start at `start`, `rt_sigprocmask` does not return -1 there, and
registrations do not meet an entry of another thread or of an earlier one. -/
def Orderly (s : RegState Tid) : RegAct Tid → Prop
  | .spawn _ e _ _ _ => e = .start
  | .sigprocmask _ r => r ≠ -1
  | .area t => ∀ th, s.threads t = some th → EntersAlone s.table th
  | _ => True

/-- Every evaluation so far was made by a registered thread and returned that
thread's own structure. -/
def SelvesKnown (s : RegState Tid) : Prop :=
  ∀ e ∈ s.evals, e.registered = true ∧ ∃ th, s.threads e.tid = some th ∧ e.result = some th.self

/-! ## The invariant -/

/-- No two entries hold one TCS. -/
def Distinct (table : FsTable) : Prop :=
  ∀ i < maxThreads, ∀ j < maxThreads, (table i).tcs ≠ null → (table i).tcs = (table j).tcs → i = j

/-- The thread runs code that may evaluate `__pthread_self`. -/
def Thread.Runs (th : Thread) : Prop := th.pc = .body ∨ th.pc = .exiting

/-- What the table holds for a thread, by where it is. -/
structure ThreadOk (table : FsTable) (th : Thread) : Prop where
  tcs_ne : th.tcs ≠ null
  /-- A TCS to be stored goes into an entry of the table. -/
  index : ∀ i, th.pc = .storeTcs i → i < maxThreads
  stored : ∀ i, th.pc = .storeFs i → i < maxThreads ∧ (table i).tcs = th.tcs
  registered : th.Runs → th.registered = true ∧ ∃ i < maxThreads, table i = ⟨th.tcs, th.self⟩
  /-- An evaluation has passed only entries of others. -/
  entry : ∀ i, th.look = some (.entry i) → th.Runs ∧ ∀ k < i, (table k).tcs ≠ th.tcs
  data : ∀ i, th.look = some (.data i) → th.Runs ∧ table i = ⟨th.tcs, th.self⟩

structure RegInv (s : RegState Tid) : Prop where
  distinct : Distinct s.table
  threadOk : ∀ t th, s.threads t = some th → ThreadOk s.table th
  bound : ∀ t th, s.threads t = some th → th.pc ≠ .gone → th.tcs ∈ s.bound
  /-- Threads that run at one time run on different TCSs. -/
  apart : ∀ t th u uh, s.threads t = some th → s.threads u = some uh → th.pc ≠ .gone →
    uh.pc ≠ .gone → th.tcs = uh.tcs → t = u
  evals : SelvesKnown s

variable {table : FsTable} {th : Thread} {i : Nat} {e : FsMap}

@[simp] theorem fill_self (table : FsTable) (i : Nat) (e : FsMap) : fill table i e i = e :=
  if_pos rfl

theorem fill_of_ne {j : Nat} (h : j ≠ i) (e : FsMap) : fill table i e j = table j := if_neg h

theorem Thread.Runs.ne_gone (h : th.Runs) : th.pc ≠ .gone := by
  rcases h with h | h <;> rw [h] <;> exact Pc.noConfusion

/-- An entry of another TCS may change to one of another TCS. -/
theorem ThreadOk.frame (h : ThreadOk table th) (hold : th.pc ≠ .gone → (table i).tcs ≠ th.tcs)
    (hnew : th.pc ≠ .gone → e.tcs ≠ th.tcs) : ThreadOk (fill table i e) th := by
  have hne : ∀ {j}, th.pc ≠ .gone → (table j).tcs = th.tcs → j ≠ i := by
    rintro j hpc hj rfl
    exact hold hpc hj
  refine { h with stored := ?_, registered := ?_, entry := ?_, data := ?_ }
  · intro j hj
    obtain ⟨hlt, htcs⟩ := h.stored j hj
    refine ⟨hlt, ?_⟩
    rw [fill_of_ne (hne (by rw [hj]; exact Pc.noConfusion) htcs)]
    exact htcs
  · intro hr
    obtain ⟨hreg, j, hlt, hj⟩ := h.registered hr
    refine ⟨hreg, j, hlt, ?_⟩
    rw [fill_of_ne (hne hr.ne_gone (by rw [hj]))]
    exact hj
  · intro j hj
    obtain ⟨hr, hpast⟩ := h.entry j hj
    refine ⟨hr, fun k hk => ?_⟩
    by_cases hki : k = i
    · subst hki
      rw [fill_self]
      exact hnew hr.ne_gone
    · rw [fill_of_ne hki]
      exact hpast k hk
  · intro j hj
    obtain ⟨hr, hdata⟩ := h.data j hj
    refine ⟨hr, ?_⟩
    rw [fill_of_ne (hne hr.ne_gone (by rw [hdata]))]
    exact hdata

/-- A TCS that no entry holds may be stored in a free entry. -/
theorem Distinct.storeTcs (h : Distinct table) (htcs : ∀ j < maxThreads, (table j).tcs ≠ th.tcs) :
    Distinct (fill table i { table i with tcs := th.tcs }) := by
  intro j hj k hk hne heq
  by_cases hji : j = i <;> by_cases hki : k = i
  · rw [hji, hki]
  · subst hji
    rw [fill_self, fill_of_ne hki] at heq
    exact absurd heq.symm (htcs k hk)
  · subst hki
    rw [fill_self, fill_of_ne hji] at heq
    exact absurd heq (htcs j hj)
  · rw [fill_of_ne hji] at hne heq
    rw [fill_of_ne hki] at heq
    exact h j hj k hk hne heq

/-- Storing the data leaves every TCS in place. -/
theorem Distinct.storeFs (h : Distinct table) (p : Addr) :
    Distinct (fill table i { table i with fs := p }) := by
  have htcs : ∀ j, (fill table i { table i with fs := p } j).tcs = (table j).tcs := by
    intro j
    by_cases hji : j = i
    · subst hji
      rw [fill_self]
    · rw [fill_of_ne hji]
  intro j hj k hk hne heq
  rw [htcs] at hne heq
  rw [htcs] at heq
  exact h j hj k hk hne heq

theorem update_eq_some {f : Tid → Option Thread} {t u : Tid} {th' uh : Thread}
    (h : Function.update f t (some th') u = some uh) :
    u = t ∧ uh = th' ∨ u ≠ t ∧ f u = some uh := by
  by_cases hut : u = t
  · subst hut
    rw [Function.update_self] at h
    exact .inl ⟨rfl, (Option.some.inj h).symm⟩
  · rw [Function.update_of_ne hut] at h
    exact .inr ⟨hut, h⟩

/-- A thread moves: what it must show, the rest of the invariant being kept. -/
theorem RegInv.move {s : RegState Tid} (h : RegInv s) {t : Tid} (ht : s.threads t = some th)
    (hgone : th.pc ≠ .gone) (th' : Thread) (htcs : th'.tcs = th.tcs)
    (hself : th'.self = th.self) {table' : FsTable} {bound' : List Addr} {evals' : List (Eval Tid)}
    (hdistinct : Distinct table') (hok : ThreadOk table' th')
    (hothers : ∀ uh, ThreadOk s.table uh → (uh.pc ≠ .gone → uh.tcs ≠ th.tcs) → ThreadOk table' uh)
    (hbound : ∀ p ∈ s.bound, p ≠ th.tcs ∨ th'.pc ≠ .gone → p ∈ bound')
    (hevals : ∀ e ∈ evals', e ∈ s.evals ∨
      e.tid = t ∧ e.registered = true ∧ e.result = some th.self) :
    RegInv { table := table', threads := Function.update s.threads t (some th')
             bound := bound', evals := evals' } := by
  have happart : ∀ u uh, u ≠ t → s.threads u = some uh → uh.pc ≠ .gone → uh.tcs ≠ th.tcs :=
    fun u uh hut hu hpc heq => hut (h.apart u uh t th hu ht hpc hgone heq)
  refine
    { distinct := hdistinct, threadOk := ?_, bound := ?_, apart := ?_, evals := ?_ }
  · intro u uh hu
    rcases update_eq_some hu with ⟨rfl, rfl⟩ | ⟨hut, hu⟩
    · exact hok
    · exact hothers uh (h.threadOk u uh hu) (happart u uh hut hu)
  · intro u uh hu hpc
    rcases update_eq_some hu with ⟨rfl, rfl⟩ | ⟨hut, hu⟩
    · rw [htcs]
      exact hbound _ (h.bound u th ht hgone) (.inr hpc)
    · exact hbound _ (h.bound u uh hu hpc) (.inl (happart u uh hut hu hpc))
  · intro u uh w wh hu hw hup hwp heq
    rcases update_eq_some hu with ⟨rfl, rfl⟩ | ⟨hut, hu'⟩ <;>
      rcases update_eq_some hw with ⟨rfl, rfl⟩ | ⟨hwt, hw'⟩
    · rfl
    · exact absurd (heq.symm.trans htcs) (happart w wh hwt hw' hwp)
    · exact absurd (heq.trans htcs) (happart u uh hut hu' hup)
    · exact h.apart u uh w wh hu' hw' hup hwp heq
  · intro e he
    rcases hevals e he with hold | ⟨rfl, hreg, hres⟩
    · obtain ⟨hreg, uh, hu, hres⟩ := h.evals e hold
      refine ⟨hreg, ?_⟩
      by_cases hut : e.tid = t
      · rw [hut, ht] at hu
        cases hu
        exact ⟨th', by simp only [hut, Function.update_self], by rw [hself]; exact hres⟩
      · exact ⟨uh, by simp only [Function.update_of_ne hut]; exact hu, hres⟩
    · exact ⟨hreg, th', by simp only [Function.update_self], by rw [hself]; exact hres⟩

/-- A thread moves and leaves the table as it is. -/
theorem RegInv.stay {s : RegState Tid} (h : RegInv s) {t : Tid} {th' : Thread}
    (ht : s.threads t = some th) (hgone : th.pc ≠ .gone) (htcs : th'.tcs = th.tcs)
    (hself : th'.self = th.self) (hok : ThreadOk s.table th') : RegInv (s.setThread t th') :=
  h.move ht hgone th' htcs hself h.distinct hok (fun _ hu _ => hu) (fun _ hp _ => hp)
    fun _ he => .inl he

omit [DecidableEq Tid] in
theorem onThread_eq_some {s s' : RegState Tid} {t : Tid} {f : Thread → Option (RegState Tid)}
    (h : s.onThread t f = some s') :
    ∃ th, s.threads t = some th ∧ th.look = none ∧ f th = some s' := by
  simp only [RegState.onThread] at h
  split at h
  · rename_i th ht
    split at h
    · rename_i hlook
      exact ⟨th, ht, hlook, h⟩
    · cases h
  · cases h

/-- What an access of `__set_thread_area` can do. -/
theorem areaStep_cases {p : FsTable × Thread} (h : areaStep table th = some p) :
    (∃ i, th.pc = .scan i ∧ i < maxThreads ∧ (table i).tcs = null ∧
      p = (table, { th with pc := .storeTcs i })) ∨
    (∃ i, th.pc = .scan i ∧ i < maxThreads ∧ p = (table, { th with pc := .scan (i + 1) })) ∨
    (∃ i, th.pc = .scan i ∧ ¬ i < maxThreads ∧
      p = (table, { th with pc := .aborted, look := some (.entry 0) })) ∨
    (∃ i, th.pc = .storeTcs i ∧
      p = (fill table i { table i with tcs := th.tcs }, { th with pc := .storeFs i })) ∨
    (∃ i, th.pc = .storeFs i ∧ p = (fill table i { table i with fs := th.self },
      { th with pc := .body, registered := true })) := by
  simp only [areaStep] at h
  split at h
  · rename_i i hpc
    split at h
    · rename_i hi
      split at h
      · rename_i hfree
        exact .inl ⟨i, hpc, hi, hfree, (Option.some.inj h).symm⟩
      · exact .inr (.inl ⟨i, hpc, hi, (Option.some.inj h).symm⟩)
    · rename_i hi
      exact .inr (.inr (.inl ⟨i, hpc, hi, (Option.some.inj h).symm⟩))
  · rename_i i hpc
    exact .inr (.inr (.inr (.inl ⟨i, hpc, (Option.some.inj h).symm⟩)))
  · rename_i i hpc
    exact .inr (.inr (.inr (.inr ⟨i, hpc, (Option.some.inj h).symm⟩)))
  · cases h

/-- What an access of `__pthread_self` can do. -/
theorem lookStep_cases {p : Thread × Option (Option Addr)} (h : lookStep table th = some p) :
    (∃ i, th.look = some (.entry i) ∧ i < maxThreads ∧ (table i).tcs = th.tcs ∧
      p = ({ th with look := some (.data i) }, none)) ∨
    (∃ i, th.look = some (.entry i) ∧ i < maxThreads ∧ (table i).tcs ≠ th.tcs ∧
      p = ({ th with look := some (.entry (i + 1)) }, none)) ∨
    (∃ i, th.look = some (.entry i) ∧ ¬ i < maxThreads ∧
      p = ({ th with pc := .aborted, look := none }, some none)) ∨
    (∃ i, th.look = some (.data i) ∧
      p = ({ th with look := none }, some (some (table i).fs))) := by
  simp only [lookStep] at h
  split at h
  · cases h
  · rename_i i hlook
    split at h
    · rename_i hi
      split at h
      · rename_i hown
        exact .inl ⟨i, hlook, hi, hown, (Option.some.inj h).symm⟩
      · rename_i hother
        exact .inr (.inl ⟨i, hlook, hi, hother, (Option.some.inj h).symm⟩)
    · rename_i hi
      exact .inr (.inr (.inl ⟨i, hlook, hi, (Option.some.inj h).symm⟩))
  · rename_i i hlook
    exact .inr (.inr (.inr ⟨i, hlook, (Option.some.inj h).symm⟩))

/-- A thread that is not yet in its start routine relies on little. -/
theorem ThreadOk.outside (htcs : th.tcs ≠ null) (hlook : th.look = none) (hruns : ¬ th.Runs)
    (hindex : ∀ i, th.pc = .storeTcs i → i < maxThreads)
    (hstored : ∀ i, th.pc = .storeFs i → i < maxThreads ∧ (table i).tcs = th.tcs) :
    ThreadOk table th where
  tcs_ne := htcs
  index := hindex
  stored := hstored
  registered hr := absurd hr hruns
  entry i h := by rw [hlook] at h; cases h
  data i h := by rw [hlook] at h; cases h

theorem not_runs (hbody : th.pc ≠ .body) (hexit : th.pc ≠ .exiting) : ¬ th.Runs := by
  rintro (h | h)
  · exact hbody h
  · exact hexit h

/-- `__set_thread_area` keeps the invariant when its entry is its own. -/
theorem RegInv.area {s : RegState Tid} (h : RegInv s) {t : Tid} (ht : s.threads t = some th)
    (hlook : th.look = none) (halone : EntersAlone s.table th) {p : FsTable × Thread}
    (hp : areaStep s.table th = some p) : RegInv { s.setThread t p.2 with table := p.1 } := by
  have hok := h.threadOk t th ht
  rcases areaStep_cases hp with ⟨i, hpc, hi, -, rfl⟩ | ⟨i, hpc, -, rfl⟩ | ⟨i, hpc, hi, rfl⟩ |
    ⟨i, hpc, rfl⟩ | ⟨i, hpc, rfl⟩
  · refine h.stay ht (by rw [hpc]; exact Pc.noConfusion) rfl rfl ?_
    refine .outside hok.tcs_ne hlook (not_runs Pc.noConfusion Pc.noConfusion) ?_ nofun
    rintro j ⟨⟩
    exact hi
  · exact h.stay ht (by rw [hpc]; exact Pc.noConfusion) rfl rfl
      (.outside hok.tcs_ne hlook (not_runs Pc.noConfusion Pc.noConfusion) nofun nofun)
  · simp only [EntersAlone, hpc] at halone
    exact absurd halone hi
  · simp only [EntersAlone, hpc] at halone
    obtain ⟨hfree, hnone⟩ := halone
    refine h.move ht (by rw [hpc]; exact Pc.noConfusion) { th with pc := .storeFs i } rfl rfl
      (h.distinct.storeTcs hnone) ?_ ?_ (fun _ hp _ => hp) fun _ he => .inl he
    · refine .outside hok.tcs_ne hlook (not_runs Pc.noConfusion Pc.noConfusion) nofun ?_
      rintro j ⟨⟩
      exact ⟨hok.index i hpc, by simp only [fill_self]⟩
    · intro uh hu hne
      refine hu.frame (fun _ => ?_) fun hpc => (hne hpc).symm
      rw [hfree]
      exact hu.tcs_ne.symm
  · obtain ⟨hi, hown⟩ := hok.stored i hpc
    refine h.move ht (by rw [hpc]; exact Pc.noConfusion)
      { th with pc := .body, registered := true } rfl rfl (h.distinct.storeFs th.self) ?_ ?_
      (fun _ hp _ => hp) fun _ he => .inl he
    · exact
        { tcs_ne := hok.tcs_ne
          index := nofun
          stored := nofun
          registered := fun _ => ⟨rfl, i, hi, by simp only [fill_self, hown]⟩
          entry := fun j hj => by rw [hlook] at hj; cases hj
          data := fun j hj => by rw [hlook] at hj; cases hj }
    · intro uh hu hne
      have hold : uh.pc ≠ .gone → (s.table i).tcs ≠ uh.tcs := fun hpc => by
        rw [hown]
        exact (hne hpc).symm
      exact hu.frame hold hold

/-- An evaluation of `__pthread_self` finds the thread's own entry. -/
theorem RegInv.look {s : RegState Tid} (h : RegInv s) {t : Tid} (ht : s.threads t = some th)
    {p : Thread × Option (Option Addr)} (hp : lookStep s.table th = some p) :
    RegInv { s.setThread t p.1 with
      evals := match p.2 with
        | none => s.evals
        | some r => ⟨t, th.registered, r⟩ :: s.evals } := by
  have hok := h.threadOk t th ht
  rcases lookStep_cases hp with ⟨i, hlook, hi, hown, rfl⟩ | ⟨i, hlook, hi, hother, rfl⟩ |
    ⟨i, hlook, hi, rfl⟩ | ⟨i, hlook, rfl⟩
  · obtain ⟨hr, -⟩ := hok.entry i hlook
    obtain ⟨-, j, hj, hentry⟩ := hok.registered hr
    -- the TCS has one entry, so this is the one the thread made
    have hij : i = j := by
      refine h.distinct i hi j hj (by rw [hown]; exact hok.tcs_ne) ?_
      rw [hown, hentry]
    refine h.stay ht hr.ne_gone rfl rfl { hok with entry := nofun, data := ?_ }
    rintro k ⟨⟩
    exact ⟨hr, hij ▸ hentry⟩
  · obtain ⟨hr, hpast⟩ := hok.entry i hlook
    refine h.stay ht hr.ne_gone rfl rfl { hok with entry := ?_, data := nofun }
    rintro j ⟨⟩
    refine ⟨hr, fun k hk => ?_⟩
    rcases Nat.lt_succ_iff_lt_or_eq.mp hk with hlt | rfl
    · exact hpast k hlt
    · exact hother
  · obtain ⟨hr, hpast⟩ := hok.entry i hlook
    obtain ⟨-, j, hj, hentry⟩ := hok.registered hr
    exact absurd (by rw [hentry]) (hpast j (Nat.lt_of_lt_of_le hj (Nat.le_of_not_lt hi)))
  · obtain ⟨hr, hentry⟩ := hok.data i hlook
    obtain ⟨hreg, -⟩ := hok.registered hr
    refine h.move ht hr.ne_gone { th with look := none } rfl rfl h.distinct
      { hok with entry := nofun, data := nofun } (fun _ hu _ => hu) (fun _ hp _ => hp) ?_
    intro e he
    rcases List.mem_cons.mp he with rfl | he
    · exact .inr ⟨rfl, hreg, by simp only [hentry]⟩
    · exact .inl he

/-- A new thread, not in its start routine yet, on a TCS of its own. -/
theorem RegInv.spawn {s : RegState Tid} (h : RegInv s) {t : Tid} (ht : s.threads t = none)
    (hfree : th.tcs ∉ s.bound) (hok : ThreadOk s.table th) :
    RegInv { s.setThread t th with bound := th.tcs :: s.bound } := by
  have hnew : ∀ u uh, s.threads u = some uh → uh.pc ≠ .gone → uh.tcs ≠ th.tcs := by
    rintro u uh hu hpc heq
    exact hfree (heq ▸ h.bound u uh hu hpc)
  refine { distinct := h.distinct, threadOk := ?_, bound := ?_, apart := ?_, evals := ?_ }
  · intro u uh hu
    rcases update_eq_some hu with ⟨rfl, rfl⟩ | ⟨-, hu'⟩
    · exact hok
    · exact h.threadOk u uh hu'
  · intro u uh hu hpc
    rcases update_eq_some hu with ⟨rfl, rfl⟩ | ⟨-, hu'⟩
    · exact List.mem_cons_self
    · exact List.mem_cons_of_mem _ (h.bound u uh hu' hpc)
  · intro u uh w wh hu hw hup hwp heq
    rcases update_eq_some hu with ⟨rfl, rfl⟩ | ⟨-, hu'⟩ <;>
      rcases update_eq_some hw with ⟨rfl, rfl⟩ | ⟨-, hw'⟩
    · rfl
    · exact absurd heq.symm (hnew w wh hw' hwp)
    · exact absurd heq (hnew u uh hu' hup)
    · exact h.apart u uh w wh hu' hw' hup hwp heq
  · intro e he
    obtain ⟨hreg, uh, hu, hres⟩ := h.evals e he
    have hut : e.tid ≠ t := by
      rintro heq
      rw [heq, ht] at hu
      cases hu
    refine ⟨hreg, uh, ?_, hres⟩
    simp only [RegState.setThread, Function.update_of_ne hut]
    exact hu

/-- The step lemma. -/
theorem RegInv.next {s s' : RegState Tid} {a : RegAct Tid} (h : RegInv s) (ha : Orderly s a)
    (hn : s.next a = some s') : RegInv s' := by
  cases a with
  | spawn t e unblockCancel tcs self =>
      simp only [RegState.next] at hn
      split at hn
      · rename_i hc
        obtain ⟨ht, htcs, hfree⟩ := hc
        cases hn
        cases ha
        cases unblockCancel with
        | true =>
            exact h.spawn ht hfree
              (.outside htcs rfl (not_runs Pc.noConfusion Pc.noConfusion) nofun nofun)
        | false =>
            exact h.spawn ht hfree
              (.outside htcs rfl (not_runs Pc.noConfusion Pc.noConfusion) nofun nofun)
      · cases hn
  | sigprocmask t r =>
      obtain ⟨th, ht, hlook, hn⟩ := onThread_eq_some hn
      split at hn
      · rename_i hpc
        cases hn
        have hr : r ≠ -1 := ha
        refine h.stay ht (by rw [hpc]; exact Pc.noConfusion) rfl rfl ?_
        exact .outside (h.threadOk t th ht).tcs_ne (if_neg hr)
          (not_runs Pc.noConfusion Pc.noConfusion) nofun nofun
      · cases hn
  | area t =>
      obtain ⟨th, ht, hlook, hn⟩ := onThread_eq_some hn
      obtain ⟨p, hp, rfl⟩ := Option.map_eq_some_iff.mp hn
      exact h.area ht hlook (ha th ht) hp
  | self t =>
      obtain ⟨th, ht, hlook, hn⟩ := onThread_eq_some hn
      split at hn
      · rename_i hr
        cases hn
        refine h.stay ht (Thread.Runs.ne_gone hr) rfl rfl
          { h.threadOk t th ht with entry := ?_, data := nofun }
        rintro j ⟨⟩
        exact ⟨hr, fun k hk => absurd hk (Nat.not_lt_zero k)⟩
      · cases hn
  | exit t =>
      obtain ⟨th, ht, hlook, hn⟩ := onThread_eq_some hn
      split at hn
      · rename_i hpc
        cases hn
        have hok := h.threadOk t th ht
        refine h.stay ht (by rw [hpc]; exact Pc.noConfusion) rfl rfl
          { hok with index := nofun, stored := nofun, registered := ?_, entry := ?_, data := nofun }
        · exact fun _ => hok.registered (.inl hpc)
        · rintro j ⟨⟩
          exact ⟨.inr rfl, fun k hk => absurd hk (Nat.not_lt_zero k)⟩
      · cases hn
  | look t =>
      simp only [RegState.next] at hn
      split at hn
      · cases hn
      · rename_i th ht
        obtain ⟨p, hp, rfl⟩ := Option.map_eq_some_iff.mp hn
        exact h.look ht hp
  | leave t =>
      obtain ⟨th, ht, hlook, hn⟩ := onThread_eq_some hn
      split at hn
      · rename_i hpc
        cases hn
        refine h.move ht (by rw [hpc]; exact Pc.noConfusion) { th with pc := .gone } rfl rfl
          h.distinct ?_ (fun _ hu _ => hu) ?_ fun _ he => .inl he
        · exact .outside (h.threadOk t th ht).tcs_ne hlook (not_runs Pc.noConfusion Pc.noConfusion)
            nofun nofun
        · rintro p hp (hne | hgone)
          · exact List.mem_filter.mpr ⟨hp, decide_eq_true hne⟩
          · exact absurd rfl hgone
      · cases hn

theorem boot_threads {t u : Tid} {tcs self : Addr} {uh : Thread}
    (h : (RegState.boot t tcs self).threads u = some uh) :
    u = t ∧ uh = ⟨tcs, self, .body, none, true⟩ := by
  simp only [RegState.boot] at h
  rcases update_eq_some h with heq | ⟨-, hu⟩
  · exact heq
  · cases hu

theorem regInv_boot {t : Tid} {tcs self : Addr} (htcs : tcs ≠ null) :
    RegInv (RegState.boot t tcs self) where
  distinct := by
    intro i hi j hj hne heq
    by_cases hi0 : i = 0 <;> by_cases hj0 : j = 0
    · rw [hi0, hj0]
    · subst hi0
      simp only [RegState.boot, fill_self, fill_of_ne hj0] at heq
      exact absurd heq htcs
    · simp only [RegState.boot, fill_of_ne hi0] at hne
      exact absurd rfl hne
    · simp only [RegState.boot, fill_of_ne hi0] at hne
      exact absurd rfl hne
  threadOk u uh hu := by
    obtain ⟨-, rfl⟩ := boot_threads hu
    exact
      { tcs_ne := htcs, index := nofun, stored := nofun, entry := nofun, data := nofun
        registered := fun _ => ⟨rfl, 0, by decide, rfl⟩ }
  bound u uh hu _ := by
    obtain ⟨-, rfl⟩ := boot_threads hu
    exact List.mem_cons_self
  apart u uh w wh hu hw _ _ _ := (boot_threads hu).1.trans (boot_threads hw).1.symm
  evals e he := by cases he

/-- **Registered before looked up.** In every run whose threads start at
`start`, whose `rt_sigprocmask` calls there do not return -1, and whose
registrations each meet a free entry and a new TCS, all evaluations of
`__pthread_self` come after the registration and return the thread's own
structure. -/
theorem selves_known {as : List (RegAct Tid)} {s : RegState Tid}
    (h : (regSys Tid).Run Orderly as s) : SelvesKnown s := by
  have hinv : RegInv s := by
    refine h.invariant (I := RegInv) ?_ ?_
    · rintro _ ⟨t, tcs, self, htcs, rfl⟩
      exact regInv_boot htcs
    · intro s a s' hi hg hn
      exact hi.next hg hn
  exact hinv.evals

instance (table : FsTable) (th : Thread) : Decidable (EntersAlone table th) := by
  unfold EntersAlone
  split <;> infer_instance

instance (s : RegState Tid) (a : RegAct Tid) : Decidable (Orderly s a) :=
  match a with
  | .spawn _ e _ _ _ => inferInstanceAs (Decidable (e = .start))
  | .sigprocmask _ r => inferInstanceAs (Decidable (r ≠ -1))
  | .area t =>
      match h : s.threads t with
      | none => .isTrue fun th e => by rw [h] at e; cases e
      | some th => decidable_of_iff (EntersAlone s.table th)
          ⟨fun e u hu => by rw [h] at hu; cases hu; exact e, fun e => e th h⟩
  | .self _ | .exit _ | .look _ | .leave _ => inferInstanceAs (Decidable True)

/-- A POSIX thread with `unblock_cancel` set registers, and exits. -/
def posixThread : List (RegAct Nat) :=
  [.spawn 1 .start true 16 200, .sigprocmask 1 0, .area 1, .area 1, .area 1, .area 1,
    .exit 1, .look 1, .look 1, .look 1]

theorem selves_known_posix :
    ∃ s, (regSys Nat).Run Orderly posixThread s ∧ s.evals = [⟨1, true, some 200⟩] ∧
      SelvesKnown s := by
  obtain ⟨s, hrun, hevals⟩ := TSys.exists_run (regSys Nat) Orderly posixThread
    (s := RegState.boot 0 8 100) ⟨0, 8, 100, by decide, rfl⟩ RegState.evals
    (b := [⟨1, true, some 200⟩]) (by decide +kernel)
  exact ⟨s, hrun, hevals, selves_known hrun⟩

/-- A C11 thread that does nothing: `__pthread_exit` goes through the table. -/
def c11Thread : List (RegAct Nat) :=
  [.spawn 1 .start_c11 false 16 200, .exit 1] ++ List.replicate (maxThreads + 1) (.look 1)

/-- The assertion of `__pthread_self` fails in the exit of a C11 thread. -/
theorem c11_exit_not_known :
    ∃ s, (regSys Nat).Run TSys.Any c11Thread s ∧ s.evals = [⟨1, false, none⟩] ∧
      ¬ SelvesKnown s := by
  obtain ⟨s, hrun, hevals⟩ := TSys.exists_run (regSys Nat) TSys.Any c11Thread
    (s := RegState.boot 0 8 100) ⟨0, 8, 100, by decide, rfl⟩ RegState.evals
    (b := [⟨1, false, none⟩]) (by decide +kernel)
  refine ⟨s, hrun, hevals, fun hknown => ?_⟩
  obtain ⟨hreg, -⟩ := hknown ⟨1, false, none⟩ (by simp [hevals])
  cases hreg

end Porpoise.Threads
