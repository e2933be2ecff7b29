import Porpoise.Sync.Machine

/-!
# `pthread_mutex_lock`, `pthread_mutex_timedlock`, `pthread_mutex_trylock`, `pthread_mutex_unlock`

A mutex is a lock word, a count of waiters and, for a recursive mutex, a count of the locks
its owner has beyond the first. The word is 0 or, with the sign bit for a waiter that goes to
sleep, the mark of the owner: `EBUSY` in a normal mutex, its thread id in the others.

* `mutexCode`: the functions for a mutex that is neither robust nor process-shared, an access
  at a time. A place keeps how often the thread has locked the mutex, which the code does not.
* `Inv`: the word names the one thread that has the mutex, and the count is its depth.
* `mutex_excludes`: mutual exclusion, whatever the host answers to `futex`.
-/

namespace Porpoise.Sync.Mutex

open Porpoise.Lib

def eperm : Int := 1
def eagain : Int := 11
def edeadlk : Int := 35
def enotrecoverable : Int := 131

/-- `x & 0x7fffffff` -/
def low31 (x : Int) : Int := x % 2 ^ 31

/-- `x | 0x80000000` -/
def high (x : Int) : Int := if x < 0 then x else x + intMin

/-- `x & EBUSY` -/
def busyBit (x : Int) : Int := if x / 16 % 2 = 1 then ebusy else 0

inductive MutexType
  | normal
  | recursive
  | errorcheck
  deriving DecidableEq

/-- Who called `pthread_mutex_trylock`. -/
inductive From
  | alone
  /-- `pthread_mutex_timedlock`, before it spins and in its loop. -/
  | first (timed : Bool)
  | loop (timed : Bool)
  deriving DecidableEq

inductive At
  /-- The caller's code runs; the last operation returned `r`. -/
  | rest (r : Int)
  /-- About to compare and swap 0, in `pthread_mutex_lock` and in `pthread_mutex_timedlock`. -/
  | lockCas
  | timedCas (timed : Bool)
  /-- `pthread_mutex_trylock` of a normal mutex. -/
  | trySwap (from' : From)
  /-- `__pthread_mutex_trylock_owner`. -/
  | tryRead (from' : From)
  | tryCount (from' : From)
  | tryInc (from' : From) (count : Int)
  | tryCas (from' : From) (old : Int)
  /-- The spin loop, with `n` rounds to go. -/
  | spinLock (n : Nat) (timed : Bool)
  | spinWaiters (n : Nat) (timed : Bool)
  /-- The main loop after a failed try. -/
  | read (timed : Bool)
  | inc (r : Int) (timed : Bool)
  | mark (r : Int) (timed : Bool)
  | wait (v : Int) (timed : Bool)
  | dec (r : Int) (timed : Bool)
  /-- `pthread_mutex_unlock`. -/
  | unlockWaiters
  | unlockOwner (waiters : Int)
  | unlockCount (waiters : Int)
  | unlockDec (count : Int)
  | swap (waiters : Int)
  | wake
  deriving DecidableEq

/-- A place in the code, on a thread that has the mutex `hold` times. -/
structure MutexPc where
  hold : Nat
  pos : At
  deriving DecidableEq

structure Words where
  lock : Int
  waiters : Int
  count : Int
  deriving DecidableEq

/-- What the caller of `pthread_mutex_trylock` does with its result. -/
def From.after (r : Int) : From → At
  | .alone => .rest r
  | .first timed => if r ≠ ebusy then .rest r else .spinLock 100 timed
  | .loop timed => if r ≠ ebusy then .rest r else .read timed

/-- `pthread_mutex_trylock` returns `r`; with 0 the thread has the mutex once more. -/
def tried (hold : Nat) (from' : From) (r : Int) : MutexPc :=
  ⟨if r = 0 then hold + 1 else hold, from'.after r⟩

/-- The call of `pthread_mutex_trylock`. -/
def tryAt (type : MutexType) (from' : From) : At :=
  if type = .normal then .trySwap from' else .tryRead from'

variable {Tid : Type*}

/-- The next access of thread `t` in a place other than a wait or a wake. -/
def step (type : MutexType) (tid : Tid → Int) (hold : Nat) (t : Tid) (m : Words) :
    At → Words × MutexPc
  | .lockCas =>
      if m.lock = 0 then ({ m with lock := ebusy }, ⟨hold + 1, .rest 0⟩)
      else (m, ⟨hold, .timedCas false⟩)
  | .timedCas timed =>
      if m.lock = 0 then ({ m with lock := ebusy }, ⟨hold + 1, .rest 0⟩)
      else (m, ⟨hold, .trySwap (.first timed)⟩)
  | .trySwap from' =>
      (if m.lock = 0 then { m with lock := ebusy } else m, tried hold from' (busyBit m.lock))
  | .tryRead from' =>
      if low31 m.lock = tid t ∧ type = .recursive then (m, ⟨hold, .tryCount from'⟩)
      else if low31 m.lock = intMax then (m, tried hold from' enotrecoverable)
      else if low31 m.lock ≠ 0 then (m, tried hold from' ebusy)
      else (m, ⟨hold, .tryCas from' m.lock⟩)
  | .tryCount from' =>
      if m.count < 0 ∨ intMax ≤ m.count then (m, tried hold from' eagain)
      else (m, ⟨hold, .tryInc from' m.count⟩)
  | .tryInc from' count => ({ m with count := count + 1 }, tried hold from' 0)
  | .tryCas from' old =>
      if m.lock = old then ({ m with lock := tid t }, tried hold from' 0)
      else (m, tried hold from' ebusy)
  | .spinLock n timed =>
      (m, ⟨hold, if m.lock = 0 then tryAt type (.loop timed) else .spinWaiters (n - 1) timed⟩)
  | .spinWaiters n timed =>
      (m, ⟨hold, if m.waiters ≠ 0 ∨ n = 0 then tryAt type (.loop timed) else .spinLock n timed⟩)
  | .read timed =>
      if m.lock = 0 then (m, ⟨hold, tryAt type (.loop timed)⟩)
      else if type = .errorcheck ∧ low31 m.lock = tid t then (m, ⟨hold, .rest edeadlk⟩)
      else (m, ⟨hold, .inc m.lock timed⟩)
  | .inc r timed => ({ m with waiters := int32 (m.waiters + 1) }, ⟨hold, .mark r timed⟩)
  | .mark r timed =>
      (if m.lock = r then { m with lock := high r } else m, ⟨hold, .wait (high r) timed⟩)
  | .dec r timed =>
      ({ m with waiters := int32 (m.waiters - 1) },
        ⟨hold, if r ≠ 0 ∧ r ≠ eintr then .rest r else tryAt type (.loop timed)⟩)
  | .unlockWaiters =>
      (m, ⟨hold, if type = .normal then .swap m.waiters else .unlockOwner m.waiters⟩)
  | .unlockOwner waiters =>
      if low31 m.lock ≠ tid t then (m, ⟨hold, .rest eperm⟩)
      else (m, ⟨hold, if type = .recursive then .unlockCount waiters else .swap waiters⟩)
  | .unlockCount waiters =>
      (m, ⟨hold, if m.count ≠ 0 then .unlockDec m.count else .swap waiters⟩)
  | .unlockDec count => ({ m with count := count - 1 }, ⟨hold - 1, .rest 0⟩)
  | .swap waiters =>
      ({ m with lock := 0 },
        ⟨hold - 1, if waiters ≠ 0 ∨ m.lock < 0 then .wake else .rest 0⟩)
  | .rest r => (m, ⟨hold, .rest r⟩)
  | .wait v timed => (m, ⟨hold, .wait v timed⟩)
  | .wake => (m, ⟨hold, .wake⟩)

/-- The operation that a caller may begin, who neither locks a normal mutex that it has nor
unlocks one that it does not have. -/
def starts (type : MutexType) (hold : Nat) : At → Bool
  | .lockCas | .timedCas true => type = .normal ∧ hold = 0
  | .trySwap .alone => type = .normal
  | .tryRead .alone | .tryRead (.first _) => type ≠ .normal
  | .unlockWaiters => type ≠ .normal ∨ 0 < hold
  | _ => false

/-- The operations on a mutex of the given type, by threads with the ids `tid`. -/
def mutexCode (type : MutexType) (tid : Tid → Int) : Code Tid Words MutexPc where
  word m := m.lock
  instr p :=
    match p.pos with
    | .rest _ => .rest
    | .wait v timed => .wait v timed
    | .wake => .wake 1
    | pos => .access fun t _ m => step type tid p.hold t m pos
  resume p r :=
    match p.pos with
    | .wait _ timed => ⟨p.hold, .dec r timed⟩
    | .wake => ⟨p.hold, .rest 0⟩
    | _ => p
  begins q p :=
    match q.pos with
    | .rest _ => p.hold = q.hold ∧ starts type q.hold p.pos
    | _ => false
  start := ⟨0, .rest 0⟩

/-- The ids that the kernel gives to threads. -/
structure Ids (tid : Tid → Int) : Prop where
  pos : ∀ t, 0 < tid t
  lt : ∀ t, tid t < 2 ^ 30
  inj : Function.Injective tid

/-- The mark of a thread. -/
def own (type : MutexType) (tid : Tid → Int) (t : Tid) : Int :=
  if type = .normal then ebusy else tid t

/-! ## What a place counts for -/

def MutexPc.holds (p : MutexPc) : Int := if 0 < p.hold then 1 else 0

/-- The thread is counted in `_m_waiters`. -/
def MutexPc.waits (p : MutexPc) : Int :=
  match p.pos with
  | .mark _ _ | .wait _ _ | .dec _ _ => 1
  | _ => 0

/-- A thread in the loop of `pthread_mutex_timedlock` does not have the mutex, except in an
error-checking one, before it finds that out. -/
def MutexPc.Free (type : MutexType) (p : MutexPc) : Prop := type ≠ .errorcheck → p.hold = 0

/-- What a place knows. -/
def MutexPc.Sound (type : MutexType) (p : MutexPc) : Prop :=
  match p.pos with
  | .rest _ | .wake => True
  | .lockCas | .timedCas _ => type = .normal ∧ p.hold = 0
  | .trySwap .alone => type = .normal
  | .trySwap (.first _) | .trySwap (.loop _) => type = .normal ∧ p.hold = 0
  | .tryRead .alone | .tryRead (.first _) => type ≠ .normal
  | .tryRead (.loop _) => type ≠ .normal ∧ p.Free type
  | .spinLock _ _ | .spinWaiters _ _ | .read _ => p.Free type
  | .tryCount _ => type = .recursive ∧ 0 < p.hold
  | .tryInc _ count => type = .recursive ∧ (p.hold : Int) = count + 1 ∧ 0 ≤ count
  | .tryCas _ old => type ≠ .normal ∧ p.hold = 0 ∧ old = 0
  | .inc r _ | .mark r _ => p.hold = 0 ∧ r ≠ 0 ∧ r < 2 ^ 31
  | .wait v _ => p.hold = 0 ∧ v < 0
  | .dec _ _ => p.hold = 0
  | .unlockWaiters => type = .normal → 0 < p.hold
  | .unlockOwner _ => type ≠ .normal
  | .unlockCount _ => type = .recursive ∧ 0 < p.hold
  | .unlockDec count => type = .recursive ∧ (p.hold : Int) = count + 1 ∧ 0 < count
  | .swap _ => p.hold = 1

variable {type : MutexType} {tid : Tid → Int}

/-- A caller begins at a place that knows nothing but what `starts` asks. -/
theorem begins_cases {q p : MutexPc} (h : (mutexCode type tid).begins q p = true) :
    (∃ r, q.pos = .rest r) ∧ p.hold = q.hold ∧ starts type q.hold p.pos = true := by
  simp only [mutexCode] at h
  split at h
  · rename_i r hr
    have hboth := of_decide_eq_true h
    exact ⟨⟨r, hr⟩, hboth⟩
  · cases h

theorem call_cases {p : MutexPc} (h : ((mutexCode type tid).instr p).isCall = true) :
    (∃ v timed, p.pos = .wait v timed) ∨ p.pos = .wake := by
  obtain ⟨hold, pos⟩ := p
  cases pos with
  | wait v timed => exact .inl ⟨v, timed, rfl⟩
  | wake => exact .inr rfl
  | _ => cases h

theorem weighs_holds : (mutexCode type tid).Weighs MutexPc.holds where
  start := rfl
  begins h := by
    rw [MutexPc.holds, MutexPc.holds, (begins_cases h).2.1]
  resume {p} r h := by
    obtain ⟨hold, pos⟩ := p
    rcases call_cases h with ⟨v, timed, hpos⟩ | hpos <;> cases hpos <;> rfl

theorem closed_sound : (mutexCode type tid).Closed (MutexPc.Sound type) where
  start := trivial
  begins {q p} h _ := by
    obtain ⟨-, hhold, hstart⟩ := begins_cases h
    obtain ⟨hold, pos⟩ := p
    cases hhold
    unfold starts at hstart
    split at hstart
    · rename_i hpos
      cases hpos
      have hboth : type = .normal ∧ q.hold = 0 := of_decide_eq_true hstart
      exact hboth
    · rename_i hpos
      cases hpos
      have hboth : type = .normal ∧ q.hold = 0 := of_decide_eq_true hstart
      exact hboth
    · rename_i hpos
      cases hpos
      have hnormal : type = .normal := of_decide_eq_true hstart
      exact hnormal
    · rename_i hpos
      cases hpos
      have hnot : type ≠ .normal := of_decide_eq_true hstart
      exact hnot
    · rename_i hpos
      cases hpos
      have hnot : type ≠ .normal := of_decide_eq_true hstart
      exact hnot
    · rename_i hpos
      cases hpos
      intro hn
      exact (of_decide_eq_true hstart).resolve_left fun hne => hne hn
    · cases hstart
  resume {p} r h hL := by
    obtain ⟨hold, pos⟩ := p
    rcases call_cases h with ⟨v, timed, hpos⟩ | hpos <;> cases hpos
    · exact hL.1
    · trivial

/-- A fact about how often a thread has the mutex. -/
theorem closed_hold {P : Nat → Prop} (h0 : P 0) :
    (mutexCode type tid).Closed fun p => P p.hold where
  start := h0
  begins h hL := by
    rw [(begins_cases h).2.1]
    exact hL
  resume {p} r h hL := by
    obtain ⟨hold, pos⟩ := p
    rcases call_cases h with ⟨v, timed, hpos⟩ | hpos <;> cases hpos <;> exact hL

theorem holds_nonneg (p : MutexPc) : 0 ≤ p.holds := by
  unfold MutexPc.holds
  split <;> decide

theorem holds_pos {p : MutexPc} : 0 < p.holds ↔ 0 < p.hold := by
  unfold MutexPc.holds
  split <;> simp_all

/-! ## The invariant -/

variable [DecidableEq Tid]

/-- No thread ends that has the mutex, and there are fewer than `2 ^ 31`. -/
def Outside (s : State Tid Words MutexPc) : Act Tid MutexPc → Prop
  | .create _ _ => s.live.card + 1 < 2 ^ 31
  | .exit t => (s.place t).pc.hold = 0
  | _ => True

instance (s : State Tid Words MutexPc) (a : Act Tid MutexPc) : Decidable (Outside s a) :=
  match a with
  | .create _ _ => inferInstanceAs (Decidable (s.live.card + 1 < 2 ^ 31))
  | .exit t => inferInstanceAs (Decidable ((s.place t).pc.hold = 0))
  | .begin _ _ | .move _ | .answer _ _ => .isTrue trivial

/-- The word and the count are those of a thread that has the mutex `hold` times. -/
def Names (type : MutexType) (tid : Tid → Int) (m : Words) (t : Tid) (hold : Nat) : Prop :=
  0 < hold → (m.lock = own type tid t ∨ m.lock = own type tid t + intMin) ∧ m.count = hold - 1

structure Inv (type : MutexType) (tid : Tid → Int) (s : State Tid Words MutexPc) : Prop where
  held : s.total MutexPc.holds = if s.shared.lock = 0 then 0 else 1
  names : ∀ t ∈ s.live, Names type tid s.shared t (s.place t).pc.hold
  zero : s.shared.lock = 0 → s.shared.count = 0
  plain : type ≠ .recursive → s.shared.count = 0
  sound : ∀ t ∈ s.live, (s.place t).pc.Sound type

variable {s s' : State Tid Words MutexPc} {a : Act Tid MutexPc} {t u : Tid}

theorem Inv.calm (h : Inv type tid s) (hc : Calm (mutexCode type tid) s a s') :
    Inv type tid s' := by
  refine ⟨?_, ?_, ?_, ?_, hc.pcs (fun _ => MutexPc.Sound type) (fun _ => closed_sound) h.sound⟩
  · rw [hc.shared, hc.total _ weighs_holds]
    exact h.held
  · rw [hc.shared]
    refine hc.pcs (fun u p => Names type tid s.shared u p.hold) (fun u => ?_) h.names
    exact closed_hold (P := Names type tid s.shared u) fun hpos => absurd hpos (lt_irrefl 0)
  · rw [hc.shared]
    exact h.zero
  · rw [hc.shared]
    exact h.plain

theorem Inv.exit (h : Inv type tid s) (ht : t ∈ s.live) (hp : (s.place t).pc.hold = 0) :
    Inv type tid { s with live := s.live.erase t } := by
  refine ⟨?_, fun u hu => h.names u (Finset.mem_of_mem_erase hu), h.zero, h.plain,
    fun u hu => h.sound u (Finset.mem_of_mem_erase hu)⟩
  have hsum := total_erase (w := fun q : Place MutexPc => q.pc.holds) (q := s.place) ht
  have hzero : (s.place t).pc.holds = 0 := by
    unfold MutexPc.holds
    rw [hp]
    rfl
  rw [hzero, sub_zero] at hsum
  exact hsum.trans h.held

/-- One thread has the mutex. -/
theorem Inv.unique (h : Inv type tid s) (ht : t ∈ s.live) (hu : u ∈ s.live)
    (hth : 0 < (s.place t).pc.hold) (huh : 0 < (s.place u).pc.hold) : t = u := by
  refine eq_of_total_le_one (w := fun q : Place MutexPc => q.pc.holds) (q := s.place)
    (fun q => holds_nonneg q.pc) ?_ ht hu (holds_pos.mpr hth) (holds_pos.mpr huh)
  have hheld := h.held
  show s.total MutexPc.holds ≤ 1
  rw [hheld]
  split <;> decide

omit [DecidableEq Tid] in
/-- Nobody has it while the word is 0. -/
theorem Inv.hold_eq_zero (h : Inv type tid s) (ht : t ∈ s.live) (hlock : s.shared.lock = 0) :
    (s.place t).pc.hold = 0 := by
  by_contra hne
  have hle : (s.place t).pc.holds ≤ s.total MutexPc.holds :=
    le_total (w := fun q : Place MutexPc => q.pc.holds) (fun q => holds_nonneg q.pc) ht
  rw [h.held, if_pos hlock] at hle
  have hpos := holds_pos.mpr (Nat.pos_of_ne_zero hne)
  omega

omit [DecidableEq Tid] in
/-- A thread has it while the word is not 0. -/
theorem Inv.exists_holder (h : Inv type tid s) (hlock : s.shared.lock ≠ 0) :
    ∃ u ∈ s.live, 0 < (s.place u).pc.hold := by
  have hpos : 0 < s.total MutexPc.holds := by
    rw [h.held, if_neg hlock]
    decide
  obtain ⟨u, hu, hpos⟩ :=
    exists_of_total_pos (w := fun q : Place MutexPc => q.pc.holds) (q := s.place) hpos
  exact ⟨u, hu, holds_pos.mp hpos⟩

omit [DecidableEq Tid] in
/-- The word is 0 or the mark of a thread. -/
theorem Inv.lock_cases (h : Inv type tid s) : s.shared.lock = 0 ∨ ∃ u ∈ s.live,
    0 < (s.place u).pc.hold ∧
      (s.shared.lock = own type tid u ∨ s.shared.lock = own type tid u + intMin) := by
  by_cases hlock : s.shared.lock = 0
  · exact .inl hlock
  · obtain ⟨u, hu, hpos⟩ := h.exists_holder hlock
    exact .inr ⟨u, hu, hpos, (h.names u hu hpos).1⟩

/-- An access after which the words are right again. -/
theorem Inv.afterAccess (h : Inv type tid s) (ht : t ∈ s.live) {p : MutexPc} (m' : Words)
    (p' : MutexPc) {f : Tid → Int → Words → Words × MutexPc} (hp : s.place t = .code p)
    (hf : f t s.threadsMinus1 s.shared = (m', p'))
    (hheld : s.total MutexPc.holds - p.holds + p'.holds = if m'.lock = 0 then 0 else 1)
    (hmine : Names type tid m' t p'.hold)
    (hothers : ∀ u ∈ s.live, u ≠ t → Names type tid m' u (s.place u).pc.hold)
    (hzero : m'.lock = 0 → m'.count = 0) (hplain : type ≠ .recursive → m'.count = 0)
    (hsound : p'.Sound type) : Inv type tid (s.afterAccess t f) := by
  have hshared : (s.afterAccess t f).shared = m' := by
    show (f t s.threadsMinus1 s.shared).1 = m'
    rw [hf]
  have hplace : (s.afterAccess t f).place = Function.update s.place t (.code p') := by
    show Function.update s.place t (.code (f t s.threadsMinus1 s.shared).2) = _
    rw [hf]
  refine ⟨?_, ?_, ?_, ?_, ?_⟩
  · rw [total_afterAccess ht hp, hf, hshared]
    exact hheld
  · rw [hshared, hplace]
    intro u hu
    by_cases hut : u = t
    · rw [hut, Function.update_self]
      exact hmine
    · rw [Function.update_of_ne hut]
      exact hothers u hu hut
  · rw [hshared]
    exact hzero
  · rw [hshared]
    exact hplain
  · rw [hplace]
    intro u hu
    by_cases hut : u = t
    · rw [hut, Function.update_self]
      exact hsound
    · rw [Function.update_of_ne hut]
      exact h.sound u hu

/-- The word and the count stay. -/
theorem Inv.stay (h : Inv type tid s) (ht : t ∈ s.live) {p : MutexPc} (m' : Words) (pos' : At)
    {f : Tid → Int → Words → Words × MutexPc} (hp : s.place t = .code p)
    (hf : f t s.threadsMinus1 s.shared = (m', ⟨p.hold, pos'⟩)) (hlock : m'.lock = s.shared.lock)
    (hcount : m'.count = s.shared.count) (hsound : MutexPc.Sound type ⟨p.hold, pos'⟩) :
    Inv type tid (s.afterAccess t f) := by
  have hnames : ∀ u ∈ s.live, Names type tid m' u (s.place u).pc.hold := by
    intro u hu
    rw [Names, hlock, hcount]
    exact h.names u hu
  refine h.afterAccess ht m' ⟨p.hold, pos'⟩ hp hf ?_ ?_ (fun u hu _ => hnames u hu) ?_ ?_ hsound
  · rw [hlock, ← h.held]
    show s.total MutexPc.holds - p.holds + p.holds = _
    omega
  · have hmine := hnames t ht
    rw [hp] at hmine
    exact hmine
  · rw [hlock, hcount]
    exact h.zero
  · rw [hcount]
    exact h.plain

/-- A compare and swap of 0 by the mark of the thread. -/
theorem Inv.take (hids : Ids tid) (h : Inv type tid s) (ht : t ∈ s.live) {p : MutexPc} (pos' : At)
    {f : Tid → Int → Words → Words × MutexPc} (hp : s.place t = .code p)
    (hf : f t s.threadsMinus1 s.shared =
      ({ s.shared with lock := own type tid t }, ⟨p.hold + 1, pos'⟩))
    (hlock : s.shared.lock = 0) (hsound : MutexPc.Sound type ⟨p.hold + 1, pos'⟩) :
    Inv type tid (s.afterAccess t f) := by
  have hfree := h.hold_eq_zero ht hlock
  rw [hp, Place.pc] at hfree
  have hown : own type tid t ≠ 0 := by
    unfold own
    have hpos := hids.pos t
    split
    · decide
    · omega
  refine h.afterAccess ht _ ⟨p.hold + 1, pos'⟩ hp hf ?_ ?_ ?_ ?_ h.plain hsound
  · rw [if_neg hown, h.held, if_pos hlock]
    simp [MutexPc.holds, hfree]
  · intro _
    refine ⟨.inl rfl, ?_⟩
    show s.shared.count = ((p.hold + 1 : Nat) : Int) - 1
    rw [h.zero hlock, hfree]
    rfl
  · intro u hu _ hpos
    rw [h.hold_eq_zero hu hlock] at hpos
    exact absurd hpos (lt_irrefl 0)
  · intro hzero
    exact absurd hzero hown

omit [DecidableEq Tid] in
theorem own_range (hids : Ids tid) (type : MutexType) (t : Tid) :
    0 < own type tid t ∧ own type tid t < 2 ^ 30 := by
  unfold own
  split
  · decide
  · exact ⟨hids.pos t, hids.lt t⟩

/-- A waiter sets the sign bit. -/
theorem Inv.flag (hids : Ids tid) (h : Inv type tid s) (ht : t ∈ s.live) {p : MutexPc} (pos' : At)
    {f : Tid → Int → Words → Words × MutexPc} (hp : s.place t = .code p)
    (hf : f t s.threadsMinus1 s.shared =
      ({ s.shared with lock := high s.shared.lock }, ⟨p.hold, pos'⟩))
    (hlock : s.shared.lock ≠ 0) (hsound : MutexPc.Sound type ⟨p.hold, pos'⟩) :
    Inv type tid (s.afterAccess t f) := by
  obtain ⟨v, hv, hvpos, hvlock⟩ := h.lock_cases.resolve_left hlock
  obtain ⟨hlow, hhigh⟩ := own_range hids type v
  have hflagged : high s.shared.lock = own type tid v + intMin := by
    unfold high intMin
    unfold intMin at hvlock
    split <;> omega
  have hnot : high s.shared.lock ≠ 0 := by
    rw [hflagged]
    unfold intMin
    omega
  have hnames : ∀ u ∈ s.live, Names type tid { s.shared with lock := high s.shared.lock } u
      (s.place u).pc.hold := by
    intro u hu hpos
    obtain rfl := h.unique hu hv hpos hvpos
    exact ⟨.inr hflagged, (h.names u hu hpos).2⟩
  refine h.afterAccess ht _ ⟨p.hold, pos'⟩ hp hf ?_ ?_ (fun u hu _ => hnames u hu) ?_ h.plain hsound
  · have hheld := h.held
    rw [if_neg hlock] at hheld
    rw [if_neg hnot, ← hheld]
    show s.total MutexPc.holds - p.holds + p.holds = _
    omega
  · have hmine := hnames t ht
    rw [hp] at hmine
    exact hmine
  · intro hzero
    exact absurd hzero hnot

/-- The owner of a recursive mutex changes its depth. -/
theorem Inv.deepen (h : Inv .recursive tid s) (ht : t ∈ s.live) {p : MutexPc} (count : Int)
    (hold' : Nat) (pos' : At) {f : Tid → Int → Words → Words × MutexPc}
    (hp : s.place t = .code p)
    (hf : f t s.threadsMinus1 s.shared = ({ s.shared with count := count }, ⟨hold', pos'⟩))
    (hhold : 0 < p.hold) (hhold' : 0 < hold') (hcount : count = hold' - 1)
    (hsound : MutexPc.Sound .recursive ⟨hold', pos'⟩) :
    Inv .recursive tid (s.afterAccess t f) := by
  have hown : 0 < (s.place t).pc.hold := by
    rw [hp]
    exact hhold
  have hlock : s.shared.lock ≠ 0 := by
    intro hlock
    rw [h.hold_eq_zero ht hlock] at hown
    exact absurd hown (lt_irrefl 0)
  refine h.afterAccess ht _ ⟨hold', pos'⟩ hp hf ?_ ?_ ?_ ?_ (fun hne => absurd rfl hne) hsound
  · have hheld := h.held
    rw [if_neg hlock] at hheld
    rw [if_neg hlock, hheld]
    simp [MutexPc.holds, hhold, hhold']
  · exact fun _ => ⟨(h.names t ht hown).1, hcount⟩
  · intro u hu hut hpos
    exact absurd (h.unique hu ht hpos hown) hut
  · intro hzero
    exact absurd hzero hlock

/-- The owner gives the mutex back. -/
theorem Inv.release (h : Inv type tid s) (ht : t ∈ s.live) {p : MutexPc} (pos' : At)
    {f : Tid → Int → Words → Words × MutexPc} (hp : s.place t = .code p)
    (hf : f t s.threadsMinus1 s.shared = ({ s.shared with lock := 0 }, ⟨p.hold - 1, pos'⟩))
    (hhold : p.hold = 1) (hsound : MutexPc.Sound type ⟨p.hold - 1, pos'⟩) :
    Inv type tid (s.afterAccess t f) := by
  have hown : 0 < (s.place t).pc.hold := by
    rw [hp, Place.pc, hhold]
    decide
  have hlock : s.shared.lock ≠ 0 := by
    intro hlock
    rw [h.hold_eq_zero ht hlock] at hown
    exact absurd hown (lt_irrefl 0)
  refine h.afterAccess ht _ ⟨p.hold - 1, pos'⟩ hp hf ?_ ?_ ?_ ?_ h.plain hsound
  · have hheld := h.held
    rw [if_neg hlock] at hheld
    rw [if_pos rfl, hheld]
    simp [MutexPc.holds, hhold]
  · intro hpos
    rw [hhold] at hpos
    exact absurd hpos (lt_irrefl 0)
  · intro u hu hut hpos
    exact absurd (h.unique hu ht hpos hown) hut
  · intro _
    have hcount := (h.names t ht hown).2
    rw [hp, Place.pc, hhold] at hcount
    exact hcount

/-! ## Every access -/

omit [DecidableEq Tid] in
/-- The mark without the sign bit. -/
theorem low31_own (hids : Ids tid) {x : Int}
    (h : x = own type tid u ∨ x = own type tid u + intMin) : low31 x = own type tid u := by
  obtain ⟨hlow, hhigh⟩ := own_range hids type u
  unfold intMin at h
  unfold low31
  omega

omit [DecidableEq Tid] in
/-- The thread whose id the word has is the one that has the mutex. -/
theorem Inv.owner (hids : Ids tid) (h : Inv type tid s) (htype : type ≠ .normal)
    (ht : t ∈ s.live) : low31 s.shared.lock = tid t ↔ 0 < (s.place t).pc.hold := by
  have hown : ∀ v, own type tid v = tid v := fun v => if_neg htype
  constructor
  · intro heq
    rcases h.lock_cases with hlock | ⟨v, hv, hvpos, hvlock⟩
    · have hpos := hids.pos t
      rw [hlock] at heq
      unfold low31 at heq
      omega
    · rw [low31_own hids hvlock, hown] at heq
      obtain rfl := hids.inj heq
      exact hvpos
  · intro hpos
    rw [low31_own hids (h.names t ht hpos).1, hown]

omit [DecidableEq Tid] in
theorem Inv.lock_of_low31 (hids : Ids tid) (h : Inv type tid s) (hlow : low31 s.shared.lock = 0) :
    s.shared.lock = 0 := by
  rcases h.lock_cases with hlock | ⟨v, hv, hvpos, hvlock⟩
  · exact hlock
  · rw [low31_own hids hvlock] at hlow
    have hrange := own_range hids type v
    omega

omit [DecidableEq Tid] in
theorem Inv.lock_lt (hids : Ids tid) (h : Inv type tid s) : s.shared.lock < 2 ^ 31 := by
  rcases h.lock_cases with hlock | ⟨v, hv, hvpos, hvlock⟩
  · rw [hlock]
    decide
  · have hrange := own_range hids type v
    unfold intMin at hvlock
    omega

omit [DecidableEq Tid] in
theorem Inv.busyBit (h : Inv .normal tid s) (hlock : s.shared.lock ≠ 0) :
    busyBit s.shared.lock = ebusy := by
  obtain ⟨v, hv, hvpos, hvlock⟩ := h.lock_cases.resolve_left hlock
  rcases hvlock with hvlock | hvlock <;> rw [hvlock] <;> rfl

theorem after_of_ne {r : Int} (hr : r ≠ ebusy) (from' : From) : from'.after r = .rest r := by
  cases from' with
  | alone => rfl
  | first timed | loop timed => exact if_pos hr

/-- A try that takes the mutex. -/
theorem tried_zero (hold : Nat) (from' : From) : tried hold from' 0 = ⟨hold + 1, .rest 0⟩ := by
  rw [tried, if_pos rfl, after_of_ne (by decide)]

/-- One that fails. -/
theorem tried_of_ne {hold : Nat} {r : Int} (hr : r ≠ 0) (from' : From) :
    tried hold from' r = ⟨hold, from'.after r⟩ := by
  rw [tried, if_neg hr]

theorem sound_after_ebusy {hold : Nat} {from' : From}
    (h : from' = .alone ∨ (type ≠ .errorcheck → hold = 0)) :
    MutexPc.Sound type ⟨hold, from'.after ebusy⟩ := by
  cases from' with
  | alone => trivial
  | first timed => exact h.resolve_left (by simp)
  | loop timed => exact h.resolve_left (by simp)

theorem sound_tryAt {hold : Nat} {timed : Bool} (h : type ≠ .errorcheck → hold = 0) :
    MutexPc.Sound type ⟨hold, tryAt type (.loop timed)⟩ := by
  unfold tryAt
  split
  · rename_i htype
    exact ⟨htype, h (by rw [htype]; decide)⟩
  · rename_i htype
    exact ⟨htype, h⟩

omit [DecidableEq Tid] in
/-- A mutex that is not recursive is never locked twice. -/
theorem Inv.hold_eq_one (h : Inv type tid s) (ht : t ∈ s.live) (hcount : s.shared.count = 0)
    (hpos : 0 < (s.place t).pc.hold) : (s.place t).pc.hold = 1 := by
  have hdepth := (h.names t ht hpos).2
  omega

variable {hold : Nat} {pos : At}

theorem Inv.lockCas (hids : Ids tid) (h : Inv type tid s) (ht : t ∈ s.live)
    (hp : s.place t = .code ⟨hold, pos⟩) (pos' : At) (hnormal : type = .normal)
    (hsound : MutexPc.Sound type ⟨hold, pos'⟩) :
    Inv type tid (s.afterAccess t fun _ _ m =>
      if m.lock = 0 then ({ m with lock := ebusy }, ⟨hold + 1, .rest 0⟩)
      else (m, ⟨hold, pos'⟩)) := by
  by_cases hlock : s.shared.lock = 0
  · refine h.take hids ht (.rest 0) hp ?_ hlock trivial
    simp only [if_pos hlock, own, if_pos hnormal]
  · exact h.stay ht s.shared pos' hp (by simp only [if_neg hlock]) rfl rfl hsound

theorem Inv.trySwap (hids : Ids tid) (h : Inv type tid s) (ht : t ∈ s.live) {from' : From}
    (hp : s.place t = .code ⟨hold, .trySwap from'⟩) :
    Inv type tid (s.afterAccess t fun t _ m => step type tid hold t m (.trySwap from')) := by
  have hsound := h.sound t ht
  rw [hp] at hsound
  have hnormal : type = .normal ∧ (from' = .alone ∨ (type ≠ .errorcheck → hold = 0)) := by
    cases from' with
    | alone => exact ⟨hsound, .inl rfl⟩
    | first timed | loop timed => exact ⟨hsound.1, .inr fun _ => hsound.2⟩
  obtain ⟨rfl, hfree⟩ := hnormal
  by_cases hlock : s.shared.lock = 0
  · refine h.take hids ht (.rest 0) hp ?_ hlock trivial
    simp only [step, if_pos hlock]
    rw [hlock, show Mutex.busyBit 0 = 0 from rfl, tried_zero]
    rfl
  · refine h.stay ht s.shared (from'.after ebusy) hp ?_ rfl rfl (sound_after_ebusy hfree)
    simp only [step, if_neg hlock, h.busyBit hlock]
    rw [tried_of_ne (by decide)]

theorem Inv.tryRead (hids : Ids tid) (h : Inv type tid s) (ht : t ∈ s.live) {from' : From}
    (hp : s.place t = .code ⟨hold, .tryRead from'⟩) :
    Inv type tid (s.afterAccess t fun t _ m => step type tid hold t m (.tryRead from')) := by
  have hsound := h.sound t ht
  rw [hp] at hsound
  have htype : type ≠ .normal := by
    cases from' with
    | alone | first timed => exact hsound
    | loop timed => exact hsound.1
  have howner := h.owner hids htype ht
  rw [hp, Place.pc] at howner
  by_cases hself : low31 s.shared.lock = tid t ∧ type = .recursive
  · refine h.stay ht s.shared (.tryCount from') hp ?_ rfl rfl ⟨hself.2, howner.mp hself.1⟩
    simp only [step, if_pos hself]
  · by_cases hgone : low31 s.shared.lock = intMax
    · refine h.stay ht s.shared (from'.after enotrecoverable) hp ?_ rfl rfl ?_
      · simp only [step, if_neg hself, if_pos hgone]
        rw [tried_of_ne (by decide)]
      · rw [after_of_ne (by decide)]
        trivial
    · by_cases hbusy : low31 s.shared.lock ≠ 0
      · refine h.stay ht s.shared (from'.after ebusy) hp ?_ rfl rfl
          (sound_after_ebusy (.inr fun hne => ?_))
        · simp only [step, if_neg hself, if_neg hgone, if_pos hbusy]
          rw [tried_of_ne (by decide)]
        · -- the owner of a recursive mutex has left before
          by_contra hpos
          refine hself ⟨howner.mpr (Nat.pos_of_ne_zero hpos), ?_⟩
          cases type with
          | normal => exact absurd rfl htype
          | recursive => rfl
          | errorcheck => exact absurd rfl hne
      · have hlock := h.lock_of_low31 hids (not_not.mp hbusy)
        have hfree := h.hold_eq_zero ht hlock
        rw [hp] at hfree
        refine h.stay ht s.shared (.tryCas from' s.shared.lock) hp ?_ rfl rfl
          ⟨htype, hfree, hlock⟩
        simp only [step, if_neg hself, if_neg hgone, if_neg hbusy]

theorem Inv.tryCount (h : Inv type tid s) (ht : t ∈ s.live) {from' : From}
    (hp : s.place t = .code ⟨hold, .tryCount from'⟩) :
    Inv type tid (s.afterAccess t fun t _ m => step type tid hold t m (.tryCount from')) := by
  have hsound := h.sound t ht
  have hnames := h.names t ht
  rw [hp] at hsound hnames
  obtain ⟨hrec, hpos⟩ := hsound
  have hcount := (hnames hpos).2
  simp only [Place.pc] at hcount
  by_cases hfull : s.shared.count < 0 ∨ intMax ≤ s.shared.count
  · refine h.stay ht s.shared (.rest eagain) hp ?_ rfl rfl trivial
    simp only [step, if_pos hfull]
    rw [tried_of_ne (by decide), after_of_ne (by decide)]
  · refine h.stay ht s.shared (.tryInc from' s.shared.count) hp ?_ rfl rfl ⟨hrec, ?_, ?_⟩
    · simp only [step, if_neg hfull]
    · show (hold : Int) = s.shared.count + 1
      omega
    · omega

theorem Inv.tryCas (hids : Ids tid) (h : Inv type tid s) (ht : t ∈ s.live) {from' : From}
    {old : Int} (hp : s.place t = .code ⟨hold, .tryCas from' old⟩) :
    Inv type tid (s.afterAccess t fun t _ m => step type tid hold t m (.tryCas from' old)) := by
  have hsound := h.sound t ht
  rw [hp] at hsound
  obtain ⟨htype, hfree, hold0⟩ := hsound
  by_cases hlock : s.shared.lock = old
  · refine h.take hids ht (.rest 0) hp ?_ (hlock.trans hold0) trivial
    simp only [step, if_pos hlock, own, if_neg htype]
    rw [tried_zero]
  · refine h.stay ht s.shared (from'.after ebusy) hp ?_ rfl rfl
      (sound_after_ebusy (.inr fun _ => hfree))
    simp only [step, if_neg hlock]
    rw [tried_of_ne (by decide)]

theorem Inv.read (hids : Ids tid) (h : Inv type tid s) (ht : t ∈ s.live) {timed : Bool}
    (hp : s.place t = .code ⟨hold, .read timed⟩) :
    Inv type tid (s.afterAccess t fun t _ m => step type tid hold t m (.read timed)) := by
  have hsound := h.sound t ht
  rw [hp] at hsound
  by_cases hlock : s.shared.lock = 0
  · exact h.stay ht s.shared (tryAt type (.loop timed)) hp (by simp only [step, if_pos hlock]) rfl
      rfl (sound_tryAt hsound)
  · by_cases hself : type = .errorcheck ∧ low31 s.shared.lock = tid t
    · exact h.stay ht s.shared (.rest edeadlk) hp
        (by simp only [step, if_neg hlock, if_pos hself]) rfl rfl trivial
    · refine h.stay ht s.shared (.inc s.shared.lock timed) hp
        (by simp only [step, if_neg hlock, if_neg hself]) rfl rfl ⟨?_, hlock, h.lock_lt hids⟩
      -- an error-checking mutex has told its owner
      by_cases htype : type = .errorcheck
      · by_contra hpos
        have howner := (h.owner hids (by rw [htype]; decide) ht).mpr
          (by rw [hp]; exact Nat.pos_of_ne_zero hpos)
        exact hself ⟨htype, howner⟩
      · exact hsound htype

theorem Inv.mark (hids : Ids tid) (h : Inv type tid s) (ht : t ∈ s.live) {r : Int} {timed : Bool}
    (hp : s.place t = .code ⟨hold, .mark r timed⟩) :
    Inv type tid (s.afterAccess t fun t _ m => step type tid hold t m (.mark r timed)) := by
  have hsound := h.sound t ht
  rw [hp] at hsound
  obtain ⟨hfree, hne, hlt⟩ := hsound
  have hnext : MutexPc.Sound type ⟨hold, .wait (high r) timed⟩ := by
    refine ⟨hfree, ?_⟩
    unfold high intMin
    split <;> omega
  by_cases hlock : s.shared.lock = r
  · refine h.flag hids ht (.wait (high r) timed) hp ?_ (by rw [hlock]; exact hne) hnext
    subst hlock
    simp only [step, if_true]
  · exact h.stay ht s.shared (.wait (high r) timed) hp (by simp only [step, if_neg hlock]) rfl rfl
      hnext

theorem Inv.unlockWaiters (h : Inv type tid s) (ht : t ∈ s.live)
    (hp : s.place t = .code ⟨hold, .unlockWaiters⟩) :
    Inv type tid (s.afterAccess t fun t _ m => step type tid hold t m .unlockWaiters) := by
  have hsound := h.sound t ht
  rw [hp] at hsound
  refine h.stay ht s.shared
    (if type = .normal then .swap s.shared.waiters else .unlockOwner s.shared.waiters) hp rfl rfl
    rfl ?_
  split
  · rename_i htype
    have hone := h.hold_eq_one ht (h.plain (by rw [htype]; decide)) (by rw [hp]; exact hsound htype)
    rw [hp] at hone
    exact hone
  · rename_i htype
    exact htype

theorem Inv.unlockOwner (hids : Ids tid) (h : Inv type tid s) (ht : t ∈ s.live) {waiters : Int}
    (hp : s.place t = .code ⟨hold, .unlockOwner waiters⟩) :
    Inv type tid (s.afterAccess t fun t _ m => step type tid hold t m (.unlockOwner waiters)) := by
  have hsound := h.sound t ht
  rw [hp] at hsound
  have htype : type ≠ .normal := hsound
  by_cases hself : low31 s.shared.lock ≠ tid t
  · exact h.stay ht s.shared (.rest eperm) hp (by simp only [step, if_pos hself]) rfl rfl trivial
  · have hpos := (h.owner hids htype ht).mp (not_not.mp hself)
    refine h.stay ht s.shared
      (if type = .recursive then .unlockCount waiters else .swap waiters) hp
      (by simp only [step, if_neg hself]) rfl rfl ?_
    split
    · rename_i hrec
      rw [hp] at hpos
      exact ⟨hrec, hpos⟩
    · rename_i hrec
      have hone := h.hold_eq_one ht (h.plain hrec) hpos
      rw [hp] at hone
      exact hone

theorem Inv.unlockCount (h : Inv type tid s) (ht : t ∈ s.live) {waiters : Int}
    (hp : s.place t = .code ⟨hold, .unlockCount waiters⟩) :
    Inv type tid (s.afterAccess t fun t _ m => step type tid hold t m (.unlockCount waiters)) := by
  have hsound := h.sound t ht
  have hnames := h.names t ht
  rw [hp] at hsound hnames
  obtain ⟨hrec, hpos⟩ := hsound
  have hcount := (hnames hpos).2
  simp only [Place.pc] at hcount
  refine h.stay ht s.shared
    (if s.shared.count ≠ 0 then .unlockDec s.shared.count else .swap waiters) hp rfl rfl rfl ?_
  by_cases hmore : s.shared.count ≠ 0
  · rw [if_pos hmore]
    refine ⟨hrec, ?_, ?_⟩
    · show (hold : Int) = s.shared.count + 1
      omega
    · have hpos' : 0 < hold := hpos
      omega
  · rw [if_neg hmore]
    have hone := h.hold_eq_one ht (not_not.mp hmore) (by rw [hp]; exact hpos)
    rw [hp] at hone
    exact hone

/-- The thread moves by an access. -/
theorem Inv.step (hids : Ids tid) (h : Inv type tid s) (ht : t ∈ s.live)
    (hp : s.place t = .code ⟨hold, pos⟩) :
    Inv type tid (s.afterAccess t fun t _ m => Mutex.step type tid hold t m pos) := by
  have hsound := h.sound t ht
  rw [hp] at hsound
  cases pos with
  | rest r => exact h.stay ht s.shared (.rest r) hp rfl rfl rfl trivial
  | wake => exact h.stay ht s.shared .wake hp rfl rfl rfl trivial
  | wait v timed => exact h.stay ht s.shared (.wait v timed) hp rfl rfl rfl hsound
  | lockCas => exact h.lockCas hids ht hp (.timedCas false) hsound.1 hsound
  | timedCas timed => exact h.lockCas hids ht hp (.trySwap (.first timed)) hsound.1 hsound
  | trySwap from' => exact h.trySwap hids ht hp
  | tryRead from' => exact h.tryRead hids ht hp
  | tryCount from' => exact h.tryCount ht hp
  | tryInc from' count =>
      obtain ⟨rfl, hdepth, hge⟩ := hsound
      have hdeep : (hold : Int) = count + 1 := hdepth
      have hpos : 0 < hold := by
        omega
      refine h.deepen ht (count + 1) (hold + 1) (.rest 0) hp ?_ hpos (by omega) ?_ trivial
      · simp only [Mutex.step]
        rw [tried_zero]
      · push_cast
        omega
  | tryCas from' old => exact h.tryCas hids ht hp
  | spinLock n timed =>
      refine h.stay ht s.shared
        (if s.shared.lock = 0 then tryAt type (.loop timed) else .spinWaiters (n - 1) timed) hp rfl
        rfl rfl ?_
      split
      · exact sound_tryAt hsound
      · exact hsound
  | spinWaiters n timed =>
      refine h.stay ht s.shared
        (if s.shared.waiters ≠ 0 ∨ n = 0 then tryAt type (.loop timed) else .spinLock n timed) hp
        rfl rfl rfl ?_
      split
      · exact sound_tryAt hsound
      · exact hsound
  | read timed => exact h.read hids ht hp
  | inc r timed => exact h.stay ht _ (.mark r timed) hp rfl rfl rfl hsound
  | mark r timed => exact h.mark hids ht hp
  | dec r timed =>
      refine h.stay ht { s.shared with waiters := int32 (s.shared.waiters - 1) }
        (if r ≠ 0 ∧ r ≠ eintr then .rest r else tryAt type (.loop timed)) hp rfl rfl rfl ?_
      split
      · trivial
      · exact sound_tryAt fun _ => hsound
  | unlockWaiters => exact h.unlockWaiters ht hp
  | unlockOwner waiters => exact h.unlockOwner hids ht hp
  | unlockCount waiters => exact h.unlockCount ht hp
  | unlockDec count =>
      obtain ⟨rfl, hdepth, hmore⟩ := hsound
      have hdeep : (hold : Int) = count + 1 := hdepth
      have hpos : 0 < hold := by
        omega
      exact h.deepen ht (count - 1) (hold - 1) (.rest 0) hp rfl hpos (by omega) (by omega) trivial
  | swap waiters =>
      refine h.release ht (if waiters ≠ 0 ∨ s.shared.lock < 0 then .wake else .rest 0) hp rfl
        hsound ?_
      split <;> trivial

omit [DecidableEq Tid] in
/-- The access at a place. -/
theorem access_eq {p : MutexPc} {f : Tid → Int → Words → Words × MutexPc}
    (hf : (mutexCode type tid).instr p = .access f) :
    f = fun t _ m => Mutex.step type tid p.hold t m p.pos := by
  obtain ⟨hold, pos⟩ := p
  cases pos with
  | rest r | wait v timed | wake => cases hf
  | _ =>
      cases hf
      rfl

theorem inv_init {s : State Tid Words MutexPc}
    (hs : (machine (mutexCode type tid) ⟨0, 0, 0⟩).init s) : Inv type tid s := by
  obtain ⟨hshared, ⟨t, hlive⟩, hplace⟩ := hs
  have hstart : ∀ u, (s.place u).pc = ⟨0, .rest 0⟩ := fun u => by rw [hplace]; rfl
  refine ⟨?_, ?_, ?_, ?_, ?_⟩
  · rw [hshared, if_pos rfl]
    unfold State.total
    rw [total_of_card_one (by rw [hlive]; rfl) (t := t) (by rw [hlive]; simp), hstart]
    rfl
  · intro u _ hpos
    rw [hstart] at hpos
    exact absurd hpos (lt_irrefl 0)
  · rw [hshared]
    exact fun _ => rfl
  · rw [hshared]
    exact fun _ => rfl
  · intro u _
    rw [hstart]
    trivial

theorem inv_step (hids : Ids tid) (h : Inv type tid s) (hg : Outside s a)
    (hn : s.next (mutexCode type tid) a = some s') : Inv type tid s' := by
  rcases (step_of_next hn).access_or_exit_or_calm with
    ⟨t, p, f, rfl, ht, hp, hf, rfl⟩ | ⟨t, q, rfl, ht, hq, -, rfl⟩ | hc
  · rw [access_eq hf]
    exact h.step hids ht hp
  · exact h.exit ht hg
  · exact h.calm hc

/-- **Mutual exclusion.** Whatever the host answers to `futex`, in every run in which no
thread ends that has the mutex: at most one thread has it, the word is 0 exactly when none
has, else it is the mark of the one that has, perhaps with the sign bit, and the count of a
recursive mutex is the owner's depth. -/
theorem mutex_excludes (hids : Ids tid) {as : List (Act Tid MutexPc)}
    (h : (machine (mutexCode type tid) ⟨0, 0, 0⟩).Run Outside as s) :
    (∀ t ∈ s.live, ∀ u ∈ s.live, 0 < (s.place t).pc.hold → 0 < (s.place u).pc.hold → t = u) ∧
    (s.shared.lock ≠ 0 ↔ ∃ t ∈ s.live, 0 < (s.place t).pc.hold) ∧
    ∀ t ∈ s.live, 0 < (s.place t).pc.hold →
      (s.shared.lock = own type tid t ∨ s.shared.lock = own type tid t + intMin) ∧
      s.shared.count = (s.place t).pc.hold - 1 ∧
      (type ≠ .recursive → (s.place t).pc.hold = 1) := by
  have hinv : Inv type tid s :=
    h.invariant (fun _ hs => inv_init hs) fun _ _ _ => inv_step hids
  refine ⟨fun t ht u hu => hinv.unique ht hu, ⟨hinv.exists_holder, ?_⟩, ?_⟩
  · rintro ⟨t, ht, hpos⟩ hlock
    rw [hinv.hold_eq_zero ht hlock] at hpos
    exact absurd hpos (lt_irrefl 0)
  · intro t ht hpos
    obtain ⟨hlock, hcount⟩ := hinv.names t ht hpos
    exact ⟨hlock, hcount, fun htype => hinv.hold_eq_one ht (hinv.plain htype) hpos⟩

/-- Thread ids for an example. -/
def twoIds (t : Bool) : Int := if t then 102 else 101

theorem ids_twoIds : Ids twoIds where
  pos t := by cases t <;> decide
  lt t := by cases t <;> decide
  inj t u h := by cases t <;> cases u <;> first | rfl | exact absurd h (by decide)

/-- A recursive mutex: one thread locks it twice, and another spins and falls asleep. -/
def contention : List (Act Bool MutexPc) :=
  [.create false true, .begin false ⟨0, .tryRead (.first false)⟩, .move false, .move false,
    .begin false ⟨1, .tryRead (.first false)⟩, .move false, .move false, .move false,
    .begin true ⟨0, .tryRead (.first false)⟩] ++ List.replicate 208 (.move true) ++
    [.answer true .sleep]

/-- The mutex before its first use. -/
def fresh : State Bool Words MutexPc :=
  ⟨⟨0, 0, 0⟩, 0, {false}, fun _ => .code ⟨0, .rest 0⟩⟩

theorem init_fresh : (machine (mutexCode .recursive twoIds) ⟨0, 0, 0⟩).init fresh :=
  ⟨rfl, ⟨false, rfl⟩, fun _ => rfl⟩

theorem mutex_excludes_contention : ∃ s : State Bool Words MutexPc,
    (false ∈ s.live ∧ (s.place false).pc.hold = 2 ∧ (s.place true).isAsleep = true) ∧
      ∀ u ∈ s.live, 0 < (s.place u).pc.hold → false = u := by
  obtain ⟨s, hrun, hs⟩ := (machine (mutexCode .recursive twoIds) ⟨0, 0, 0⟩).exists_run Outside
    contention init_fresh
    (fun s => (decide (false ∈ s.live), (s.place false).pc.hold, (s.place true).isAsleep))
    (b := (true, 2, true)) (by decide +kernel)
  obtain ⟨hlive, hrest⟩ := Prod.mk.inj hs
  obtain ⟨hhold, hasleep⟩ := Prod.mk.inj hrest
  refine ⟨s, ⟨of_decide_eq_true hlive, hhold, hasleep⟩, fun u hu hpos => ?_⟩
  exact (mutex_excludes ids_twoIds hrun).1 false (of_decide_eq_true hlive) u hu
    (by rw [hhold]; decide) hpos

end Porpoise.Sync.Mutex
