import Porpoise.Lib.Ledger
import Porpoise.Lib.TSys

/-!
# Threads and a futex outside the enclave

The synchronisation objects of the C library are words in the enclave. Threads access them
one word at a time, and sleep and wake through the `futex` call, which the host answers.
`Code` is what an operation does: the accesses, the waits and the wakes, each at a place of
its own. `machine` runs any number of threads through it:

* `begin t p` — the caller's code on thread `t` begins an operation at `p`;
* `create t u`, `exit t` — threads come and go;
* `move t` — the next access of `t`. `__futexwait`, `__timedwait` and `__wake` first copy
  the word to its mirror, by the load and the store of `send_user`;
* `answer t a` — what the host makes of the `futex` call of `t`.

The host may answer anything: it may end a wait at any time, and wake nobody. `Honest` says
what a kernel answers.
-/

namespace Porpoise.Sync

open Porpoise.Lib

def eintr : Int := 4
def ebusy : Int := 16
def einval : Int := 22
def enosys : Int := 38
def etimedout : Int := 110
def ecanceled : Int := 125

def intMin : Int := -2 ^ 31
def intMax : Int := 2 ^ 31 - 1

/-- The value of an `int` after an operation that may wrap. -/
def int32 (x : Int) : Int := Int.bmod x (2 ^ 32)

theorem int32_of_range {x : Int} (hmin : intMin ≤ x) (hmax : x ≤ intMax) : int32 x = x := by
  unfold intMin at hmin
  unfold intMax at hmax
  unfold int32
  rw [Int.bmod_eq_of_le] <;> omega

/-- What a thread does next. -/
inductive Instr (Tid σ π : Type*)
  /-- The caller's code runs: outside the object, or in the critical section. -/
  | rest
  /-- One access, by thread `t` while `libc.threads_minus_1` is `n`. -/
  | access (f : (t : Tid) → (n : Int) → σ → σ × π)
  /-- `FUTEX_WAIT` for a change of the value `val`; with a deadline if `timed`. -/
  | wait (val : Int) (timed : Bool)
  | wake (cnt : Int)

def Instr.isRest {Tid σ π : Type*} : Instr Tid σ π → Bool
  | .rest => true
  | _ => false

/-- The thread is in `__futexwait`, `__timedwait` or `__wake`. -/
def Instr.isCall {Tid σ π : Type*} : Instr Tid σ π → Bool
  | .rest | .access _ => false
  | .wait _ _ | .wake _ => true

def Instr.isWait {Tid σ π : Type*} : Instr Tid σ π → Bool
  | .wait _ _ => true
  | _ => false

theorem Instr.isCall_of_isWait {Tid σ π : Type*} {i : Instr Tid σ π} (h : i.isWait = true) :
    i.isCall = true := by
  cases i with
  | wait _ _ => rfl
  | _ => cases h

/-- The code of an object's operations. -/
structure Code (Tid σ π : Type*) where
  /-- The word that threads wait on. -/
  word : σ → Int
  instr : π → Instr Tid σ π
  /-- Where the code goes on after a wait or a wake that returned `r`. -/
  resume : π → (r : Int) → π
  /-- At a place, the operations that the caller may begin. -/
  begins : π → π → Bool
  /-- Outside the object. -/
  start : π

/-- A place in the code or in the `futex` call made there; `again` in the second call, which
follows when the first returned `-ENOSYS`. -/
inductive Place (π : Type*)
  | code (p : π)
  | load (p : π) (again : Bool)
  | store (p : π) (again : Bool) (v : Int)
  /-- The host has the call. -/
  | kernel (p : π) (again : Bool)
  | asleep (p : π) (again : Bool)
  deriving DecidableEq

/-- The place in the code. -/
def Place.pc {π : Type*} : Place π → π
  | .code p | .load p _ | .store p _ _ | .kernel p _ | .asleep p _ => p

def Place.isAsleep {π : Type*} : Place π → Bool
  | .asleep _ _ => true
  | _ => false

inductive Answer (Tid : Type*)
  /-- Before the call: the deadline is over, or `clock_gettime` fails. -/
  | early (r : Int)
  | sleep
  /-- The call returns `r`. -/
  | ret (r : Int)
  /-- `FUTEX_WAKE` wakes these. -/
  | wakes (us : Finset Tid)

inductive Act (Tid π : Type*)
  | begin (t : Tid) (p : π)
  | create (t u : Tid)
  | exit (t : Tid)
  | move (t : Tid)
  | answer (t : Tid) (a : Answer Tid)

structure State (Tid σ π : Type*) where
  shared : σ
  /-- The copy of the word outside. -/
  mirror : Int
  /-- The threads of the process. -/
  live : Finset Tid
  place : Tid → Place π

variable {Tid σ π : Type*} [DecidableEq Tid]

/-- `r` in `__timedwait_cp`, from the result of the call. -/
def timedwaitResult (r : Int) : Int :=
  if -r = eintr ∨ -r = etimedout ∨ -r = ecanceled then -r else 0

namespace State

def goto (s : State Tid σ π) (t : Tid) (q : Place π) : State Tid σ π :=
  { s with place := Function.update s.place t q }

/-- The threads `us` go on after their waits. -/
def rouse (s : State Tid σ π) (C : Code Tid σ π) (us : Finset Tid) : State Tid σ π :=
  { s with place := fun u =>
      if u ∈ us then .code (C.resume (s.place u).pc 0) else s.place u }

/-- The thread waits for the host to end its wait. -/
def sleeps (s : State Tid σ π) (C : Code Tid σ π) (u : Tid) : Bool :=
  (s.place u).isAsleep && (C.instr (s.place u).pc).isWait

/-- `libc.threads_minus_1`. -/
def threadsMinus1 (s : State Tid σ π) : Int := s.live.card - 1

variable (C : Code Tid σ π) (s : State Tid σ π)

/-- The next access of `t`. -/
def moveBy (t : Tid) : Option (State Tid σ π) :=
  match s.place t with
  | .code p =>
      match C.instr p with
      | .rest => none
      | .access f =>
          some ({ s with shared := (f t s.threadsMinus1 s.shared).1 }.goto t
            (.code (f t s.threadsMinus1 s.shared).2))
      | .wait _ _ | .wake _ => some (s.goto t (.load p false))
  | .load p again => some (s.goto t (.store p again (C.word s.shared)))
  | .store p again v => some ({ s with mirror := v }.goto t (.kernel p again))
  | .kernel _ _ | .asleep _ _ => none

/-- The host answers the call of `t`. -/
def answerTo (t : Tid) (a : Answer Tid) : Option (State Tid σ π) :=
  match s.place t, C.instr (s.place t).pc, a with
  | .load p false, .wait _ true, .early r =>
      if r = einval ∨ r = etimedout then some (s.goto t (.code (C.resume p r))) else none
  | .kernel p again, .wait _ _, .sleep => some (s.goto t (.asleep p again))
  | .kernel p again, .wait _ _, .ret r | .kernel p again, .wake _, .ret r
  | .asleep p again, .wait _ _, .ret r =>
      if r = -enosys ∧ again = false then some (s.goto t (.load p true))
      else some (s.goto t (.code (C.resume p (timedwaitResult r))))
  | .kernel p _, .wake _, .wakes us =>
      if ∀ u ∈ us, u ∈ s.live ∧ s.sleeps C u then
        some ((s.rouse C us).goto t (.code (C.resume p 0)))
      else none
  | _, _, _ => none

/-- One step; `none` when it is not enabled. -/
def next : Act Tid π → Option (State Tid σ π)
  | .begin t p =>
      match s.place t with
      | .code q =>
          if t ∈ s.live ∧ C.begins q p then some (s.goto t (.code p)) else none
      | _ => none
  | .create t u =>
      match s.place t with
      | .code q =>
          if t ∈ s.live ∧ u ∉ s.live ∧ (C.instr q).isRest then
            some ({ s with live := insert u s.live }.goto u (.code C.start))
          else none
      | _ => none
  | .exit t =>
      match s.place t with
      | .code q =>
          if t ∈ s.live ∧ (C.instr q).isRest then some { s with live := s.live.erase t }
          else none
      | _ => none
  | .move t => if t ∈ s.live then s.moveBy C t else none
  | .answer t a => if t ∈ s.live then s.answerTo C t a else none

end State

/-- One thread at first, outside the object. -/
def machine (C : Code Tid σ π) (init : σ) : TSys (State Tid σ π) (Act Tid π) where
  init s := s.shared = init ∧ (∃ t, s.live = {t}) ∧ ∀ t, s.place t = .code C.start
  next := State.next C

/-! ## What a step does -/

/-- The cases of `next`. -/
inductive Step (C : Code Tid σ π) (s : State Tid σ π) : Act Tid π → State Tid σ π → Prop
  | begin {t q p} : t ∈ s.live → s.place t = .code q → C.begins q p = true →
      Step C s (.begin t p) (s.goto t (.code p))
  | create {t u q} : t ∈ s.live → u ∉ s.live → s.place t = .code q → (C.instr q).isRest = true →
      Step C s (.create t u) ({ s with live := insert u s.live }.goto u (.code C.start))
  | exit {t q} : t ∈ s.live → s.place t = .code q → (C.instr q).isRest = true →
      Step C s (.exit t) { s with live := s.live.erase t }
  | access {t p f} : t ∈ s.live → s.place t = .code p → C.instr p = .access f →
      Step C s (.move t)
        ({ s with shared := (f t s.threadsMinus1 s.shared).1 }.goto t
          (.code (f t s.threadsMinus1 s.shared).2))
  | call {t p} : t ∈ s.live → s.place t = .code p → (C.instr p).isCall = true →
      Step C s (.move t) (s.goto t (.load p false))
  | load {t p again} : t ∈ s.live → s.place t = .load p again →
      Step C s (.move t) (s.goto t (.store p again (C.word s.shared)))
  | store {t p again v} : t ∈ s.live → s.place t = .store p again v →
      Step C s (.move t) ({ s with mirror := v }.goto t (.kernel p again))
  | early {t p val r} : t ∈ s.live → s.place t = .load p false → C.instr p = .wait val true →
      Step C s (.answer t (.early r)) (s.goto t (.code (C.resume p r)))
  | sleep {t p again val timed} : t ∈ s.live → s.place t = .kernel p again →
      C.instr p = .wait val timed → Step C s (.answer t .sleep) (s.goto t (.asleep p again))
  | again {t p r} : t ∈ s.live → s.place t = .kernel p false ∨ s.place t = .asleep p false →
      (C.instr p).isCall = true → r = -enosys →
      Step C s (.answer t (.ret r)) (s.goto t (.load p true))
  | ret {t p again r} : t ∈ s.live → s.place t = .kernel p again ∨ s.place t = .asleep p again →
      (C.instr p).isCall = true → ¬ (r = -enosys ∧ again = false) →
      Step C s (.answer t (.ret r)) (s.goto t (.code (C.resume p (timedwaitResult r))))
  | wakes {t p again cnt us} : t ∈ s.live → s.place t = .kernel p again →
      C.instr p = .wake cnt → (∀ u ∈ us, u ∈ s.live ∧ s.sleeps C u = true) →
      Step C s (.answer t (.wakes us)) ((s.rouse C us).goto t (.code (C.resume p 0)))

variable {C : Code Tid σ π} {s s' : State Tid σ π} {a : Act Tid π}

theorem step_of_moveBy {t : Tid} (ht : t ∈ s.live) (h : s.moveBy C t = some s') :
    Step C s (.move t) s' := by
  unfold State.moveBy at h
  split at h
  · rename_i p hp
    split at h
    · cases h
    · rename_i f hf
      cases h
      exact .access ht hp hf
    · rename_i hw
      cases h
      exact .call ht hp (by rw [hw]; rfl)
    · rename_i hw
      cases h
      exact .call ht hp (by rw [hw]; rfl)
  · rename_i hp
    cases h
    exact .load ht hp
  · rename_i hp
    cases h
    exact .store ht hp
  · cases h
  · cases h

theorem step_of_ret {t : Tid} {p : π} {again : Bool} {r : Int} (ht : t ∈ s.live)
    (hp : s.place t = .kernel p again ∨ s.place t = .asleep p again)
    (hcall : (C.instr p).isCall = true)
    (h : (if r = -enosys ∧ again = false then some (s.goto t (.load p true))
      else some (s.goto t (.code (C.resume p (timedwaitResult r))))) = some s') :
    Step C s (.answer t (.ret r)) s' := by
  split at h
  · rename_i hr
    obtain ⟨hr, rfl⟩ := hr
    cases h
    exact .again ht hp hcall hr
  · rename_i hr
    cases h
    exact .ret ht hp hcall hr

theorem step_of_answerTo {t : Tid} {a : Answer Tid} (ht : t ∈ s.live)
    (h : s.answerTo C t a = some s') : Step C s (.answer t a) s' := by
  unfold State.answerTo at h
  split at h
  · rename_i hp hi
    split at h
    · cases h
      exact .early ht hp (by rw [hp] at hi; exact hi)
    · cases h
  · rename_i hp hi
    cases h
    exact .sleep ht hp (by rw [hp] at hi; exact hi)
  · rename_i hp hi
    refine step_of_ret ht (.inl hp) ?_ h
    rw [hp] at hi
    exact congrArg Instr.isCall hi
  · rename_i hp hi
    refine step_of_ret ht (.inl hp) ?_ h
    rw [hp] at hi
    exact congrArg Instr.isCall hi
  · rename_i hp hi
    refine step_of_ret ht (.inr hp) ?_ h
    rw [hp] at hi
    exact congrArg Instr.isCall hi
  · rename_i hp hi
    split at h
    · rename_i hus
      cases h
      exact .wakes ht hp (by rw [hp] at hi; exact hi) hus
    · cases h
  · cases h

theorem step_of_next (h : s.next C a = some s') : Step C s a s' := by
  cases a with
  | begin t p =>
      simp only [State.next] at h
      split at h
      · rename_i q hq
        split at h
        · rename_i hc
          cases h
          exact .begin hc.1 hq hc.2
        · cases h
      · cases h
  | create t u =>
      simp only [State.next] at h
      split at h
      · rename_i q hq
        split at h
        · rename_i hc
          cases h
          exact .create hc.1 hc.2.1 hq hc.2.2
        · cases h
      · cases h
  | exit t =>
      simp only [State.next] at h
      split at h
      · rename_i q hq
        split at h
        · rename_i hc
          cases h
          exact .exit hc.1 hq hc.2
        · cases h
      · cases h
  | move t =>
      simp only [State.next] at h
      split at h
      · rename_i ht
        exact step_of_moveBy ht h
      · cases h
  | answer t a =>
      simp only [State.next] at h
      split at h
      · rename_i ht
        exact step_of_answerTo ht h
      · cases h

/-! ## Sums over the threads -/

/-- What the threads' places in the code count for together. -/
def State.total (s : State Tid σ π) (w : π → ℤ) : ℤ :=
  Lib.total s.live (fun q : Place π => w q.pc) s.place

/-- A weight that only accesses change. -/
structure Code.Weighs (C : Code Tid σ π) (w : π → ℤ) : Prop where
  start : w C.start = 0
  begins : ∀ {q p}, C.begins q p = true → w p = w q
  resume : ∀ {p} r, (C.instr p).isCall = true → w (C.resume p r) = w p

/-- What holds of a place holds of the next one, if it is no access that leads there. -/
structure Code.Closed (C : Code Tid σ π) (L : π → Prop) : Prop where
  start : L C.start
  begins : ∀ {q p}, C.begins q p = true → L q → L p
  resume : ∀ {p} r, (C.instr p).isCall = true → L p → L (C.resume p r)

/-- The state after an access by `t` at `p`. -/
def State.afterAccess (s : State Tid σ π) (t : Tid) (f : Tid → Int → σ → σ × π) :
    State Tid σ π :=
  { s with shared := (f t s.threadsMinus1 s.shared).1 }.goto t
    (.code (f t s.threadsMinus1 s.shared).2)

variable {w : π → ℤ} {L : Tid → π → Prop} {t : Tid}

theorem total_goto (ht : t ∈ s.live) (q : Place π) :
    (s.goto t q).total w = s.total w - w (s.place t).pc + w q.pc :=
  Lib.total_update ht

theorem total_goto_eq (ht : t ∈ s.live) {q : Place π} (h : w q.pc = w (s.place t).pc) :
    (s.goto t q).total w = s.total w := by
  rw [total_goto ht, h]
  omega

theorem forall_goto {P : Tid → Place π → Prop} (h : ∀ u ∈ s.live, P u (s.place u)) {q : Place π}
    (hq : P t q) : ∀ u ∈ (s.goto t q).live, P u ((s.goto t q).place u) := by
  intro u hu
  show P u (Function.update s.place t q u)
  by_cases hut : u = t
  · rw [hut, Function.update_self]
    exact hq
  · rw [Function.update_of_ne hut]
    exact h u hu

theorem total_afterAccess (ht : t ∈ s.live) {p : π} (hp : s.place t = .code p)
    (f : Tid → Int → σ → σ × π) :
    (s.afterAccess t f).total w =
      s.total w - w p + w (f t s.threadsMinus1 s.shared).2 := by
  have h := total_goto (s := { s with shared := (f t s.threadsMinus1 s.shared).1 }) (w := w) ht
    (.code (f t s.threadsMinus1 s.shared).2)
  rw [show (State.place _ t) = _ from hp] at h
  exact h

theorem total_rouse (hw : C.Weighs w) {us : Finset Tid}
    (hus : ∀ u ∈ us, u ∈ s.live ∧ s.sleeps C u = true) : (s.rouse C us).total w = s.total w := by
  refine Lib.total_congr fun u _ => ?_
  by_cases hu : u ∈ us
  · have hcall := Instr.isCall_of_isWait (Bool.and_eq_true_iff.mp (hus u hu).2).2
    simp only [State.rouse, if_pos hu]
    exact hw.resume 0 hcall
  · simp only [State.rouse, if_neg hu]

theorem forall_rouse (hL : ∀ u, C.Closed (L u)) {us : Finset Tid}
    (hus : ∀ u ∈ us, u ∈ s.live ∧ s.sleeps C u = true) (h : ∀ u ∈ s.live, L u (s.place u).pc) :
    ∀ u ∈ (s.rouse C us).live, L u ((s.rouse C us).place u).pc := by
  intro u hlive
  by_cases hu : u ∈ us
  · have hcall := Instr.isCall_of_isWait (Bool.and_eq_true_iff.mp (hus u hu).2).2
    simp only [State.rouse, if_pos hu]
    exact (hL u).resume 0 hcall (h u hlive)
  · simp only [State.rouse, if_neg hu]
    exact h u hlive

/-- Neither a word nor a sum over the threads changes; at most, a thread is created. -/
structure Calm (C : Code Tid σ π) (s : State Tid σ π) (a : Act Tid π) (s' : State Tid σ π) :
    Prop where
  shared : s'.shared = s.shared
  live : s'.live = s.live ∨ ∃ t u, a = .create t u ∧ t ∈ s.live ∧ u ∉ s.live ∧
    s'.live = insert u s.live
  total : ∀ w, C.Weighs w → s'.total w = s.total w
  pcs : ∀ L : Tid → π → Prop, (∀ u, C.Closed (L u)) → (∀ u ∈ s.live, L u (s.place u).pc) →
    ∀ u ∈ s'.live, L u (s'.place u).pc

/-- A thread moves on without an access. -/
theorem Calm.goto (ht : t ∈ s.live) {q : Place π}
    (hw : ∀ w, C.Weighs w → w q.pc = w (s.place t).pc)
    (hL : ∀ L, C.Closed L → L (s.place t).pc → L q.pc) : Calm C s a (s.goto t q) where
  shared := rfl
  live := .inl rfl
  total w h := total_goto_eq ht (hw w h)
  pcs L h hall := forall_goto (P := fun u q => L u q.pc) hall (hL (L t) (h t) (hall t ht))

/-- It stays at the same place of the code. -/
theorem Calm.goto_same (ht : t ∈ s.live) {q : Place π} (h : q.pc = (s.place t).pc) :
    Calm C s a (s.goto t q) := by
  refine .goto ht (fun w _ => by rw [h]) fun L _ hL => ?_
  rw [h]
  exact hL

/-- It comes back from a call. -/
theorem Calm.goto_resume (ht : t ∈ s.live) {p : π} (hp : (s.place t).pc = p) (r : Int)
    (hcall : (C.instr p).isCall = true) : Calm C s a (s.goto t (.code (C.resume p r))) := by
  refine .goto ht (fun w h => ?_) fun L h hL => ?_
  · rw [hp]
    exact h.resume r hcall
  · rw [hp] at hL
    exact h.resume r hcall hL

/-- A step is an access, or the end of a thread, or changes neither words nor sums. -/
theorem Step.access_or_exit_or_calm (h : Step C s a s') :
    (∃ t p f, a = .move t ∧ t ∈ s.live ∧ s.place t = .code p ∧ C.instr p = .access f ∧
      s' = s.afterAccess t f) ∨
    (∃ t q, a = .exit t ∧ t ∈ s.live ∧ s.place t = .code q ∧ (C.instr q).isRest = true ∧
      s' = { s with live := s.live.erase t }) ∨
    Calm C s a s' := by
  cases h with
  | begin ht hq hb =>
      refine .inr (.inr (.goto ht (fun w h => ?_) fun L h hL => ?_))
      · rw [hq]
        exact h.begins hb
      · rw [hq] at hL
        exact h.begins hb hL
  | @create t u q ht hu hq hrest =>
      refine .inr (.inr ⟨rfl, .inr ⟨t, u, rfl, ht, hu, rfl⟩, fun w h => ?_, fun L h hall => ?_⟩)
      · have hsum := Lib.total_insert (w := fun q : Place π => w q.pc) (q := s.place)
          (p := .code C.start) hu
        rw [Place.pc, h.start, add_zero] at hsum
        exact hsum
      · intro v hv
        simp only [State.goto]
        by_cases hvu : v = u
        · rw [hvu, Function.update_self]
          exact (h u).start
        · rw [Function.update_of_ne hvu]
          exact hall v ((Finset.mem_insert.mp hv).resolve_left hvu)
  | exit ht hq hrest => exact .inr (.inl ⟨_, _, rfl, ht, hq, hrest, rfl⟩)
  | access ht hp hf => exact .inl ⟨_, _, _, rfl, ht, hp, hf, rfl⟩
  | call ht hp hcall => exact .inr (.inr (.goto_same ht (by rw [hp]; rfl)))
  | load ht hp => exact .inr (.inr (.goto_same ht (by rw [hp]; rfl)))
  | @store t p again v ht hp =>
      have h := Calm.goto_same (C := C) (s := { s with mirror := v }) (a := .move t)
        (q := .kernel p again) ht
        (by rw [show State.place _ t = _ from hp]; rfl)
      exact .inr (.inr ⟨h.shared, h.live, h.total, h.pcs⟩)
  | early ht hp hi => exact .inr (.inr (.goto_resume ht (by rw [hp]; rfl) _ (by rw [hi]; rfl)))
  | sleep ht hp hi => exact .inr (.inr (.goto_same ht (by rw [hp]; rfl)))
  | again ht hp hcall hr =>
      refine .inr (.inr (.goto_same ht ?_))
      rcases hp with hp | hp <;> rw [hp] <;> rfl
  | ret ht hp hcall hr =>
      refine .inr (.inr (.goto_resume ht ?_ _ hcall))
      rcases hp with hp | hp <;> rw [hp] <;> rfl
  | @wakes t p again cnt us ht hp hi hus =>
      have hplace : ((s.rouse C us).place t).pc = p := by
        have hnot : t ∉ us := by
          intro hmem
          have hs := (hus t hmem).2
          rw [State.sleeps, hp] at hs
          cases hs
        simp only [State.rouse, if_neg hnot, hp, Place.pc]
      have h := Calm.goto_resume (s := s.rouse C us) (a := .answer t (.wakes us)) ht hplace 0
        (by rw [hi]; rfl)
      refine .inr (.inr ⟨rfl, .inl rfl, fun w hw => ?_, fun L hL hall => ?_⟩)
      · rw [h.total w hw, total_rouse hw hus]
      · exact h.pcs L hL (forall_rouse hL hus hall)

end Porpoise.Sync
