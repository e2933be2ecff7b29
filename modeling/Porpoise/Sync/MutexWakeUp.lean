import Porpoise.Sync.Mutex
import Porpoise.Sync.WakeUp

/-!
# No sleeper is left on a mutex

With a kernel that compares the current word and wakes as it is asked to, a thread that
sleeps on a mutex is owed a wake-up: while the word is not 0 by the thread that has the
mutex, else by one that is awake and about to try it or to wake another.

The owner reads `_m_waiters` before it gives the mutex back. A thread that counts itself
later sets the sign bit before it sleeps, and the swap finds it (`PromptInv.seen`).

* `PromptInv`: the count of waiters, and what the owner will find.
* `mutex_wakes`: no sleeper is left behind; with a stale copy one may be
  (`mutex_wakes_not_stale`).
-/

namespace Porpoise.Sync.Mutex

open Porpoise.Lib

variable {Tid : Type*} [DecidableEq Tid] {type : MutexType} {tid : Tid → Int}
  {s s' : State Tid Words MutexPc} {a : Act Tid MutexPc} {t u : Tid} {hold : Nat} {pos : At}


/-- A try in the loop of `pthread_mutex_timedlock`, a waiter that was woken, and `__wake`. -/
def MutexPc.alert (p : MutexPc) : Bool :=
  match p.pos with
  | .trySwap (.loop _) | .tryRead (.loop _) | .tryCount (.loop _) | .tryInc (.loop _) _
  | .tryCas (.loop _) _ | .wake => true
  | .dec r _ => r = 0 ∨ r = eintr
  | _ => false

/-- What `pthread_mutex_unlock` has found in `_m_waiters`. -/
def At.found : At → Option Int
  | .unlockOwner waiters | .unlockCount waiters | .swap waiters => some waiters
  | _ => none

/-- The owner has found 0 there and is about to give the mutex back. -/
def MutexPc.Blind (p : MutexPc) : Prop := 0 < p.hold ∧ p.pos.found = some 0

omit [DecidableEq Tid] in
theorem wakeful : Wakeful (mutexCode type tid) MutexPc.alert where
  rest {p} h := by
    obtain ⟨hold, pos⟩ := p
    cases pos with
    | rest r => rfl
    | _ => cases h
  begins {q p} h := by
    obtain ⟨⟨r, hr⟩, -⟩ := begins_cases h
    rw [MutexPc.alert, hr]
  wake {p cnt} h := by
    obtain ⟨hold, pos⟩ := p
    cases pos with
    | wake =>
        cases h
        exact ⟨rfl, by decide⟩
    | _ => cases h
  woken {p} h := by
    obtain ⟨hold, pos⟩ := p
    cases pos with
    | wait v timed => rfl
    | _ => cases h
  back {p} r h halert := by
    obtain ⟨hold, pos⟩ := p
    cases pos with
    | wait v timed => cases halert
    | _ => cases h

omit [DecidableEq Tid] in
theorem weighs_waits : (mutexCode type tid).Weighs MutexPc.waits where
  start := rfl
  begins {q p} h := by
    obtain ⟨⟨r, hr⟩, -, hstart⟩ := begins_cases h
    rw [MutexPc.waits, MutexPc.waits, hr]
    unfold starts at hstart
    split at hstart
    all_goals first
      | cases hstart
      | (rename_i hpos; rw [hpos])
  resume {p} r h := by
    obtain ⟨hold, pos⟩ := p
    rcases call_cases h with ⟨v, timed, hpos⟩ | hpos <;> cases hpos <;> rfl

omit [DecidableEq Tid] in
/-- A thread becomes blind by an access only. -/
theorem closed_blind (B : Prop) : (mutexCode type tid).Closed fun p => p.Blind → B where
  start h := absurd h.1 (lt_irrefl 0)
  begins {q p} h _ hb := by
    obtain ⟨-, -, hstart⟩ := begins_cases h
    obtain ⟨-, hfound⟩ := hb
    unfold At.found at hfound
    split at hfound
    · rename_i hpos
      rw [hpos] at hstart
      cases hstart
    · rename_i hpos
      rw [hpos] at hstart
      cases hstart
    · rename_i hpos
      rw [hpos] at hstart
      cases hstart
    · cases hfound
  resume {p} r h _ hb := by
    obtain ⟨hold, pos⟩ := p
    rcases call_cases h with ⟨v, timed, hpos⟩ | hpos <;> cases hpos <;> cases hb.2

theorem waits_nonneg (p : MutexPc) : 0 ≤ p.waits := by
  unfold MutexPc.waits
  split <;> decide

theorem waits_le_one (p : MutexPc) : p.waits ≤ 1 := by
  unfold MutexPc.waits
  split <;> decide

/-- A kernel that compares and wakes as it is asked to, and copies that are up to date. -/
def Prompt (type : MutexType) (tid : Tid → Int) (s : State Tid Words MutexPc)
    (a : Act Tid MutexPc) : Prop :=
  Outside s a ∧ Honest (mutexCode type tid) s a ∧ Fresh (mutexCode type tid) s a

instance (s : State Tid Words MutexPc) (a : Act Tid MutexPc) : Decidable (Prompt type tid s a) :=
  inferInstanceAs (Decidable (_ ∧ _ ∧ _))

/-- What holds in such runs. -/
structure PromptInv (type : MutexType) (tid : Tid → Int) (s : State Tid Words MutexPc) :
    Prop where
  inv : Inv type tid s
  waits : ∀ t ∈ s.live, Waits (mutexCode type tid) (s.place t)
  waiters : s.shared.waiters = s.total MutexPc.waits
  few : (s.live.card : Int) < 2 ^ 31
  /-- A thread that sleeps since `_m_waiters` was read has set the sign bit. -/
  seen : ∀ t ∈ s.live, (s.place t).pc.Blind → ∀ u ∈ s.live, (s.place u).isAsleep = true →
    s.shared.lock < 0
  noLost : NoLost (mutexCode type tid) MutexPc.alert (fun s => s.shared.lock ≠ 0) s

omit [DecidableEq Tid] in
/-- The wait of a thread that sleeps. -/
theorem wait_of_asleep (hw : Waits (mutexCode type tid) (s.place t))
    (h : (s.place t).isAsleep = true) : ∃ v timed, (s.place t).pc.pos = .wait v timed := by
  have hwait := hw h
  cases hpc : (s.place t).pc with
  | mk hold pos =>
      rw [hpc] at hwait
      rcases call_cases (Instr.isCall_of_isWait hwait) with hpos | hpos
      · exact hpos
      · cases hpos
        cases hwait

theorem waits_tried (hold : Nat) (from' : From) (r : Int) : (tried hold from' r).waits = 0 := by
  by_cases hr : r = ebusy
  · rw [hr]
    cases from' <;> rfl
  · rw [tried, after_of_ne hr]
    rfl

theorem waits_tryAt (hold : Nat) (from' : From) :
    MutexPc.waits ⟨hold, tryAt type from'⟩ = 0 := by
  unfold tryAt
  split <;> rfl

omit [DecidableEq Tid] in
/-- Away from the count of waiters. -/
theorem step_keeps_waiters (m : Words) (hold : Nat) (t : Tid) {pos : At}
    (hinc : ∀ r timed, pos ≠ .inc r timed) (hpos : MutexPc.waits ⟨hold, pos⟩ = 0) :
    (step type tid hold t m pos).1.waiters = m.waiters ∧
      (step type tid hold t m pos).2.waits = 0 := by
  cases pos with
  | rest r | wake | unlockDec count => exact ⟨rfl, rfl⟩
  | inc r timed => exact absurd rfl (hinc r timed)
  | mark r timed | wait v timed | dec r timed =>
      exact absurd (show (1 : Int) = 0 from hpos) (by decide)
  | lockCas | timedCas timed =>
      simp only [step]
      split <;> exact ⟨rfl, rfl⟩
  | tryCount from' =>
      simp only [step]
      split
      · exact ⟨rfl, waits_tried _ _ _⟩
      · exact ⟨rfl, rfl⟩
  | trySwap from' =>
      simp only [step]
      split <;> exact ⟨rfl, waits_tried _ _ _⟩
  | tryRead from' =>
      simp only [step]
      split
      · exact ⟨rfl, rfl⟩
      · split
        · exact ⟨rfl, waits_tried _ _ _⟩
        · split
          · exact ⟨rfl, waits_tried _ _ _⟩
          · exact ⟨rfl, rfl⟩
  | tryInc from' count => exact ⟨rfl, waits_tried _ _ _⟩
  | tryCas from' old =>
      simp only [step]
      split <;> exact ⟨rfl, waits_tried _ _ _⟩
  | spinLock n timed | spinWaiters n timed =>
      refine ⟨rfl, ?_⟩
      simp only [step]
      split
      · exact waits_tryAt _ _
      · rfl
  | read timed =>
      simp only [step]
      split
      · exact ⟨rfl, waits_tryAt _ _⟩
      · split <;> exact ⟨rfl, rfl⟩
  | unlockWaiters | unlockCount waiters | swap waiters =>
      refine ⟨rfl, ?_⟩
      simp only [step]
      split <;> rfl
  | unlockOwner waiters =>
      simp only [step]
      split
      · exact ⟨rfl, rfl⟩
      · split <;> exact ⟨rfl, rfl⟩

theorem PromptInv.waiters_step (h : PromptInv type tid s) (ht : t ∈ s.live)
    (hp : s.place t = .code ⟨hold, pos⟩) (hwait : ∀ v timed, pos ≠ .wait v timed) :
    (s.afterAccess t fun t _ m => step type tid hold t m pos).shared.waiters =
      (s.afterAccess t fun t _ m => step type tid hold t m pos).total MutexPc.waits := by
  have hle : (s.place t).pc.waits ≤ s.total MutexPc.waits :=
    le_total (w := fun q : Place MutexPc => q.pc.waits) (fun q => waits_nonneg q.pc) ht
  have hroom : s.total MutexPc.waits - (s.place t).pc.waits + 1 ≤ s.live.card := by
    have hafter : (s.goto t (.code ⟨0, .mark 0 false⟩)).total MutexPc.waits ≤ s.live.card :=
      total_le_card fun q => waits_le_one q.pc
    rw [total_goto ht] at hafter
    exact hafter
  have hfew := h.few
  have hnonneg : 0 ≤ s.total MutexPc.waits :=
    total_nonneg (w := fun q : Place MutexPc => q.pc.waits) fun q => waits_nonneg q.pc
  rw [hp, Place.pc] at hle hroom
  rw [total_afterAccess ht hp]
  show (step type tid hold t s.shared pos).1.waiters =
    _ + (step type tid hold t s.shared pos).2.waits
  have hkeeps : (∀ r timed, pos ≠ .inc r timed) → MutexPc.waits ⟨hold, pos⟩ = 0 →
      (step type tid hold t s.shared pos).1.waiters = s.total MutexPc.waits -
        MutexPc.waits ⟨hold, pos⟩ + (step type tid hold t s.shared pos).2.waits := by
    intro hinc hpos
    obtain ⟨hsame, hzero⟩ := step_keeps_waiters s.shared hold t hinc hpos
    rw [hsame, hzero, hpos, h.waiters]
    omega
  cases pos with
  | wait v timed => exact absurd rfl (hwait v timed)
  | inc r timed =>
      show int32 (s.shared.waiters + 1) = s.total MutexPc.waits - 0 + 1
      have hmore : s.total MutexPc.waits - 0 + 1 ≤ s.live.card := hroom
      rw [h.waiters, int32_of_range]
      · omega
      · unfold intMin
        omega
      · unfold intMax
        omega
  | mark r timed =>
      have hcounted : s.shared.waiters = s.total MutexPc.waits - 1 + 1 := by
        rw [h.waiters]
        omega
      show (if s.shared.lock = r then { s.shared with lock := high r } else s.shared).waiters = _
      split <;> exact hcounted
  | dec r timed =>
      have hcounted : 1 ≤ s.total MutexPc.waits := hle
      have hless : s.total MutexPc.waits - 1 + 1 ≤ s.live.card := hroom
      have hout : (step type tid hold t s.shared (.dec r timed)).2.waits = 0 := by
        simp only [step]
        split
        · rfl
        · exact waits_tryAt _ _
      rw [hout]
      show int32 (s.shared.waiters - 1) = s.total MutexPc.waits - 1 + 0
      rw [h.waiters, int32_of_range]
      · omega
      · unfold intMin
        omega
      · unfold intMax
        omega
  | _ =>
      refine hkeeps (fun _ _ hne => ?_) rfl
      cases hne

omit [DecidableEq Tid] in
/-- How an access changes the word. -/
theorem step_lock (hids : Ids tid) (m : Words) (t : Tid) (hsound : MutexPc.Sound type ⟨hold, pos⟩) :
    (step type tid hold t m pos).1.lock = m.lock ∨
      (m.lock = 0 ∧ (step type tid hold t m pos).1.lock ≠ 0) ∨
      (m.lock ≠ 0 ∧ (step type tid hold t m pos).1.lock = high m.lock) ∨
      ∃ waiters, pos = .swap waiters := by
  cases pos with
  | swap waiters => exact .inr (.inr (.inr ⟨waiters, rfl⟩))
  | lockCas | timedCas timed | trySwap from' =>
      simp only [step]
      split
      · rename_i hlock
        exact .inr (.inl ⟨hlock, show ebusy ≠ 0 by decide⟩)
      · exact .inl rfl
  | tryCas from' old =>
      simp only [step]
      split
      · rename_i hlock
        have hpos := hids.pos t
        exact .inr (.inl ⟨hlock.trans hsound.2.2, by simp only; omega⟩)
      · exact .inl rfl
  | mark r timed =>
      simp only [step]
      split
      · rename_i hlock
        exact .inr (.inr (.inl ⟨by rw [hlock]; exact hsound.2.1, by rw [hlock]⟩))
      · exact .inl rfl
  | rest r | wake | wait v timed | inc r timed | dec r timed | unlockWaiters | unlockCount waiters
  | unlockDec count | tryInc from' count | spinLock n timed | spinWaiters n timed => exact .inl rfl
  | tryRead from' =>
      simp only [step]
      split
      · exact .inl rfl
      · split
        · exact .inl rfl
        · split <;> exact .inl rfl
  | tryCount from' | unlockOwner waiters =>
      simp only [step]
      split <;> exact .inl rfl
  | read timed =>
      simp only [step]
      split
      · exact .inl rfl
      · split <;> exact .inl rfl

theorem found_tried (hold : Nat) (from' : From) (r : Int) :
    (tried hold from' r).pos.found = none := by
  by_cases hr : r = ebusy
  · rw [hr]
    cases from' <;> rfl
  · rw [tried, after_of_ne hr]
    rfl

theorem found_tryAt (from' : From) : (tryAt type from').found = none := by
  unfold tryAt
  split <;> rfl

omit [DecidableEq Tid] in
/-- How a thread becomes blind. -/
theorem step_blind (m : Words) (t : Tid) (h : (step type tid hold t m pos).2.Blind) :
    (pos = .unlockWaiters ∧ m.waiters = 0) ∨ MutexPc.Blind ⟨hold, pos⟩ := by
  obtain ⟨hpos, hfound⟩ := h
  cases pos with
  | unlockWaiters =>
      refine .inl ⟨rfl, ?_⟩
      simp only [step] at hfound
      split at hfound <;> exact Option.some.inj hfound
  | unlockOwner waiters =>
      right
      simp only [step] at hpos hfound
      split at hfound
      · cases hfound
      · rename_i hself
        rw [if_neg hself] at hpos
        split at hfound <;> exact ⟨hpos, hfound⟩
  | unlockCount waiters =>
      right
      simp only [step] at hfound
      split at hfound
      · cases hfound
      · exact ⟨hpos, hfound⟩
  | rest r | wake | wait v timed | inc r timed | mark r timed | unlockDec count => cases hfound
  | swap waiters | lockCas | timedCas timed =>
      simp only [step] at hfound
      split at hfound <;> cases hfound
  | trySwap from' | tryInc from' count =>
      exact absurd hfound (by simp only [step]; rw [found_tried]; simp)
  | tryRead from' | tryCount from' | tryCas from' old =>
      simp only [step] at hfound
      split_ifs at hfound <;> first
        | (rw [found_tried] at hfound; cases hfound)
        | cases hfound
  | spinLock n timed | spinWaiters n timed | dec r timed | read timed =>
      simp only [step] at hfound
      split_ifs at hfound <;> first
        | (rw [found_tryAt] at hfound; cases hfound)
        | cases hfound

theorem high_neg {x : Int} (h : x < 0) : high x < 0 := by
  unfold high
  rw [if_pos h]
  exact h

/-- An access by another thread does not clear the sign bit of an owner's word. -/
theorem PromptInv.stays_neg (hids : Ids tid) (h : PromptInv type tid s) (ht : t ∈ s.live)
    (hp : s.place t = .code ⟨hold, pos⟩) (hu : u ∈ s.live) (hut : u ≠ t)
    (hpos : 0 < (s.place u).pc.hold) (hneg : s.shared.lock < 0) :
    (step type tid hold t s.shared pos).1.lock < 0 := by
  have hsound := h.inv.sound t ht
  rw [hp] at hsound
  rcases step_lock hids s.shared t hsound with hsame | ⟨hzero, -⟩ | ⟨-, hhigh⟩ | ⟨waiters, rfl⟩
  · rw [hsame]
    exact hneg
  · omega
  · rw [hhigh]
    exact high_neg hneg
  · -- `t` would have it too
    refine absurd (h.inv.unique hu ht hpos ?_) hut
    have hone : hold = 1 := hsound
    rw [hp, Place.pc, hone]
    exact Nat.one_pos

omit [DecidableEq Tid] in
/-- Nobody sleeps while `_m_waiters` is 0. -/
theorem PromptInv.nobody_sleeps (h : PromptInv type tid s) (hzero : s.shared.waiters = 0)
    (hu : u ∈ s.live) : (s.place u).isAsleep = false := by
  by_contra hsleep
  obtain ⟨v, timed, hpos⟩ := wait_of_asleep (h.waits u hu) (Bool.not_eq_false _ ▸ hsleep)
  have hle : (s.place u).pc.waits ≤ s.total MutexPc.waits :=
    le_total (w := fun q : Place MutexPc => q.pc.waits) (fun q => waits_nonneg q.pc) hu
  rw [← h.waiters, hzero, MutexPc.waits, hpos] at hle
  exact absurd hle (show ¬ (1 : Int) ≤ 0 by decide)

omit [DecidableEq Tid] in
/-- A try in the loop on a free mutex takes it or goes on. -/
theorem alert_step (hids : Ids tid) {m : Words} {t : Tid} (hlock : m.lock = 0)
    (halert : MutexPc.alert ⟨hold, pos⟩ = true) (hsound : MutexPc.Sound type ⟨hold, pos⟩)
    (hhold : hold = 0) (hwake : pos ≠ .wake) :
    (step type tid hold t m pos).1.lock ≠ 0 ∨ (step type tid hold t m pos).2.alert = true := by
  have htry : ∀ timed, MutexPc.alert ⟨hold, tryAt type (.loop timed)⟩ = true := by
    intro timed
    unfold tryAt
    split <;> rfl
  cases pos with
  | wake => exact absurd rfl hwake
  | trySwap from' =>
      left
      simp only [step, if_pos hlock]
      decide
  | tryCas from' old =>
      left
      simp only [step, if_pos (hlock.trans hsound.2.2.symm)]
      have hpos := hids.pos t
      omega
  | tryRead from' =>
      right
      have hself : ¬ (low31 m.lock = tid t ∧ type = .recursive) := by
        have hpos := hids.pos t
        rw [hlock]
        rintro ⟨heq, -⟩
        unfold low31 at heq
        omega
      have hlow : low31 m.lock = 0 := by
        rw [hlock]
        rfl
      simp only [step]
      rw [if_neg hself, hlow, if_neg (by decide), if_neg (by decide)]
      cases from' with
      | loop timed => rfl
      | alone | first timed => cases halert
  | tryCount from' => exact absurd hsound.2 (by rw [hhold]; exact lt_irrefl 0)
  | tryInc from' count =>
      have hdepth := hsound.2.1
      have hge := hsound.2.2
      rw [hhold] at hdepth
      simp only at hdepth
      omega
  | dec r timed =>
      right
      have hcase : r = 0 ∨ r = eintr := of_decide_eq_true halert
      simp only [step]
      rw [if_neg (by omega)]
      exact htry timed
  | _ => cases halert

omit [DecidableEq Tid] in
/-- An access leaves the mutex taken, or leads on to an alert place. -/
theorem PromptInv.wakes (hids : Ids tid) (h : PromptInv type tid s) (ht : t ∈ s.live)
    (hp : s.place t = .code ⟨hold, pos⟩) (hwake : pos ≠ .wake) :
    (step type tid hold t s.shared pos).1.lock ≠ 0 ∨
      (step type tid hold t s.shared pos).2.alert = true ∨
      (∀ u ∈ s.live, s.sleeps (mutexCode type tid) u = false) ∨
      (MutexPc.alert ⟨hold, pos⟩ = false ∧ ¬ s.shared.lock ≠ 0) := by
  have hsound := h.inv.sound t ht
  rw [hp] at hsound
  rcases step_lock hids s.shared t hsound with hsame | ⟨-, hne⟩ | ⟨hne, hhigh⟩ | ⟨waiters, rfl⟩
  · by_cases hlock : s.shared.lock = 0
    · have hfree := h.inv.hold_eq_zero ht hlock
      rw [hp] at hfree
      cases halert : MutexPc.alert ⟨hold, pos⟩ with
      | false => exact .inr (.inr (.inr ⟨rfl, not_not.mpr hlock⟩))
      | true =>
          rcases alert_step hids hlock halert hsound hfree hwake (t := t) with hne | hnext
          · exact .inl hne
          · exact .inr (.inl hnext)
    · exact .inl (by rw [hsame]; exact hlock)
  · exact .inl hne
  · left
    rw [hhigh]
    unfold high intMin
    have hlt := h.inv.lock_lt hids
    split <;> omega
  · -- the owner gives the mutex back
    by_cases hcont : waiters ≠ 0 ∨ s.shared.lock < 0
    · right
      left
      simp only [step, if_pos hcont]
      rfl
    · right
      right
      left
      intro u hu
      rw [State.sleeps]
      cases hasleep : (s.place u).isAsleep with
      | false => rfl
      | true =>
          have hone : hold = 1 := hsound
          have hzero : waiters = 0 := by
            omega
          refine absurd (h.seen t ht ?_ u hu hasleep) (by omega)
          rw [hp, Place.pc, hone, hzero]
          exact ⟨Nat.one_pos, rfl⟩

/-- The sign bit after an access. -/
theorem PromptInv.seen_access (hids : Ids tid) (h : PromptInv type tid s) (ht : t ∈ s.live)
    (hp : s.place t = .code ⟨hold, pos⟩) {v : Tid} (hv : v ∈ s.live)
    (hblind : ((s.afterAccess t fun t _ m => step type tid hold t m pos).place v).pc.Blind)
    (hu : u ∈ s.live) (hasleep : (s.place u).isAsleep = true) :
    (step type tid hold t s.shared pos).1.lock < 0 := by
  simp only [State.afterAccess, State.goto] at hblind
  by_cases hvt : v = t
  · rw [hvt, Function.update_self] at hblind
    rcases step_blind s.shared t hblind with ⟨-, hzero⟩ | hold'
    · rw [h.nobody_sleeps hzero hu] at hasleep
      cases hasleep
    · -- the word stays until the mutex is given back
      have hneg := h.seen t ht (by rw [hp]; exact hold') u hu hasleep
      have hfound := hblind.2
      unfold At.found at hfound
      obtain ⟨-, hpos⟩ := hold'
      cases pos with
      | unlockOwner waiters =>
          simp only [step]
          split <;> exact hneg
      | unlockCount waiters => exact hneg
      | swap waiters =>
          have hcold : (step type tid hold t s.shared (.swap waiters)).2.pos.found = some 0 :=
            hblind.2
          simp only [step] at hcold
          split at hcold <;> cases hcold
      | _ => cases hpos
  · rw [Function.update_of_ne hvt] at hblind
    exact h.stays_neg hids ht hp hv hvt hblind.1 (h.seen v hv hblind u hu hasleep)

theorem promptInv_init {s : State Tid Words MutexPc}
    (hs : (machine (mutexCode type tid) ⟨0, 0, 0⟩).init s) : PromptInv type tid s := by
  have hinv := inv_init hs
  obtain ⟨hshared, ⟨t, hlive⟩, hplace⟩ := hs
  refine ⟨hinv, ?_, ?_, ?_, ?_, ?_⟩
  · intro u _ hasleep
    rw [hplace] at hasleep
    cases hasleep
  · rw [hshared]
    unfold State.total
    rw [total_of_card_one (by rw [hlive]; rfl) (t := t) (by rw [hlive]; simp), hplace]
    rfl
  · rw [hlive, Finset.card_singleton]
    decide
  · intro u _ _ v _ hasleep
    rw [hplace] at hasleep
    cases hasleep
  · rintro ⟨u, -, hu⟩
    rw [State.sleeps, hplace] at hu
    cases hu

omit [DecidableEq Tid] in
/-- An access is at a place of its own. -/
theorem access_pos {p : MutexPc} {f : Tid → Int → Words → Words × MutexPc}
    (hf : (mutexCode type tid).instr p = .access f) :
    p.pos ≠ .wake ∧ ∀ v timed, p.pos ≠ .wait v timed := by
  obtain ⟨hold, pos⟩ := p
  cases pos with
  | rest r | wait v timed | wake => cases hf
  | _ =>
      constructor
      · intro h
        cases h
      · intro _ _ h
        cases h

theorem PromptInv.access (hids : Ids tid) (h : PromptInv type tid s)
    (ht : t ∈ s.live) {p : MutexPc} {f : Tid → Int → Words → Words × MutexPc}
    (hp : s.place t = .code p) (hf : (mutexCode type tid).instr p = .access f)
    (hstep : Step (mutexCode type tid) s (.move t) (s.afterAccess t f)) :
    PromptInv type tid (s.afterAccess t f) := by
  obtain ⟨hwake, hwait⟩ := access_pos hf
  obtain rfl := access_eq hf
  refine ⟨h.inv.step hids ht hp, hstep.waits h.waits, h.waiters_step ht hp hwait, h.few, ?_,
    h.noLost.access ht hp (h.wakes hids ht hp hwake)⟩
  intro v hv hblind u hu hasleep
  rcases hstep.asleep hu hasleep with ⟨hlive, hold⟩ | hanswer
  · exact h.seen_access hids ht hp hv hblind hlive hold
  · cases hanswer

theorem PromptInv.exit (h : PromptInv type tid s) (ht : t ∈ s.live) {q : MutexPc}
    (hq : s.place t = .code q) (hrest : ((mutexCode type tid).instr q).isRest = true)
    (hfree : (s.place t).pc.hold = 0)
    (hnoLost : NoLost (mutexCode type tid) MutexPc.alert (fun s => s.shared.lock ≠ 0)
      { s with live := s.live.erase t }) :
    PromptInv type tid { s with live := s.live.erase t } := by
  refine ⟨h.inv.exit ht hfree, fun u hu => h.waits u (Finset.mem_of_mem_erase hu), ?_, ?_, ?_,
    hnoLost⟩
  · have hzero : (s.place t).pc.waits = 0 := by
      obtain ⟨hold, pos⟩ := q
      rw [hq]
      cases pos with
      | rest r => rfl
      | _ => cases hrest
    have hsum := total_erase (w := fun q : Place MutexPc => q.pc.waits) (q := s.place) ht
    rw [hzero, sub_zero] at hsum
    exact h.waiters.trans hsum.symm
  · have hcard := Finset.card_le_card (Finset.erase_subset t s.live)
    have hfew := h.few
    show ((s.live.erase t).card : Int) < 2 ^ 31
    omega
  · intro v hv hblind u hu hasleep
    exact h.seen v (Finset.mem_of_mem_erase hv) hblind u (Finset.mem_of_mem_erase hu) hasleep

omit [DecidableEq Tid] in
/-- A thread falls asleep on a word with the sign bit. -/
theorem Inv.sleeps_on_neg (h : Inv type tid s)
    (hhonest : ∀ val timed, (mutexCode type tid).instr (s.place t).pc = .wait val timed →
      s.mirror = val) (hfresh : s.mirror = s.shared.lock) (ht : t ∈ s.live) {v : Int} {timed : Bool}
    (hi : (mutexCode type tid).instr (s.place t).pc = .wait v timed) :
    s.shared.lock < 0 := by
  have hval := hhonest v timed hi
  have hsound := h.sound t ht
  cases hpc : (s.place t).pc with
  | mk hold pos =>
      rw [hpc] at hi hsound
      cases pos with
      | wait v' timed' =>
          cases hi
          rw [show s.shared.lock = v from hfresh.symm.trans hval]
          exact hsound.2
      | _ => cases hi

theorem PromptInv.calm (h : PromptInv type tid s) (hg : Prompt type tid s a)
    (hstep : Step (mutexCode type tid) s a s') (hc : Calm (mutexCode type tid) s a s')
    (hnoLost : NoLost (mutexCode type tid) MutexPc.alert (fun s => s.shared.lock ≠ 0) s') :
    PromptInv type tid s' := by
  refine ⟨h.inv.calm hc, hstep.waits h.waits, ?_, ?_, ?_, hnoLost⟩
  · rw [hc.shared, hc.total _ weighs_waits]
    exact h.waiters
  · rcases hc.live with hlive | ⟨t, u, rfl, ht, hu, hlive⟩
    · rw [hlive]
      exact h.few
    · rw [hlive, Finset.card_insert_of_notMem hu]
      have hfew : s.live.card + 1 < 2 ^ 31 := hg.1
      omega
  · intro v hv hblind u hu hasleep
    rw [hc.shared]
    rcases hstep.asleep hu hasleep with ⟨hlive, hold⟩ | rfl
    · have hwas := hc.pcs (fun v p => p.Blind → v ∈ s.live ∧ (s.place v).pc.Blind)
        (fun v => closed_blind _) (fun v hv hb => ⟨hv, hb⟩) v hv hblind
      exact h.seen v hwas.1 hwas.2 u hlive hold
    · cases hstep with
      | sleep ht hp hi => exact h.inv.sleeps_on_neg hg.2.1 hg.2.2 ht (by rw [hp]; exact hi)

theorem promptInv_step (hids : Ids tid) (h : PromptInv type tid s) (hg : Prompt type tid s a)
    (hn : s.next (mutexCode type tid) a = some s') : PromptInv type tid s' := by
  have hstep := step_of_next hn
  have hnoLost : NoLost (mutexCode type tid) MutexPc.alert (fun s => s.shared.lock ≠ 0) s' := by
    refine h.noLost.step wakeful hstep hg.2.1 ?_ ?_ ?_ ?_
    · intro hc hne
      show s'.shared.lock ≠ 0
      rw [hc.shared]
      exact hne
    · rintro t rfl hne
      cases hstep
      exact hne
    · rintro t p v timed rfl ht hp hi
      have hneg := h.inv.sleeps_on_neg hg.2.1 hg.2.2 ht (by rw [hp]; exact hi)
      cases hstep
      show s.shared.lock ≠ 0
      omega
    · intro t p f _ ht hp hf
      obtain ⟨hwake, -⟩ := access_pos hf
      obtain rfl := access_eq hf
      exact h.wakes hids ht hp hwake
  rcases hstep.access_or_exit_or_calm with
    ⟨t, p, f, rfl, ht, hp, hf, rfl⟩ | ⟨t, q, rfl, ht, hq, hrest, rfl⟩ | hc
  · exact h.access hids ht hp hf hstep
  · exact h.exit ht hq hrest hg.1 hnoLost
  · exact h.calm hg hstep hc hnoLost

/-- **No sleeper is left behind.** With a kernel that compares and wakes as it is asked to, and
threads that fall asleep only on a copy that is up to date, in every state in which a thread
sleeps on the mutex there is a thread awake that has it, or is about to try it in the loop of
`pthread_mutex_timedlock`, or is in `__wake`. -/
theorem mutex_wakes (hids : Ids tid) {as : List (Act Tid MutexPc)}
    (h : (machine (mutexCode type tid) ⟨0, 0, 0⟩).Run (Prompt type tid) as s) (ht : t ∈ s.live)
    (hasleep : (s.place t).isAsleep = true) :
    ∃ u ∈ s.live, (s.place u).isAsleep = false ∧
      (0 < (s.place u).pc.hold ∨ (s.place u).pc.alert = true) := by
  have hinv : PromptInv type tid s :=
    h.invariant (fun _ hs => promptInv_init hs) fun _ _ _ => promptInv_step hids
  have hsleep : s.sleeps (mutexCode type tid) t = true :=
    Bool.and_eq_true_iff.mpr ⟨hasleep, hinv.waits t ht hasleep⟩
  rcases hinv.noLost ⟨t, ht, hsleep⟩ with hne | ⟨u, hu, hawake, halert⟩
  · obtain ⟨u, hu, hpos⟩ := hinv.inv.exists_holder hne
    refine ⟨u, hu, ?_, .inl hpos⟩
    -- a thread that waits does not have the mutex
    by_contra husleep
    obtain ⟨v, timed, hwait⟩ := wait_of_asleep (hinv.waits u hu) (Bool.not_eq_false _ ▸ husleep)
    have hsound := hinv.inv.sound u hu
    rw [MutexPc.Sound, hwait] at hsound
    have hzero : (s.place u).pc.hold = 0 := hsound.1
    omega
  · exact ⟨u, hu, hawake, .inr halert⟩

theorem mutex_wakes_contention : ∃ s : State Bool Words MutexPc,
    (true ∈ s.live ∧ (s.place true).isAsleep = true) ∧
      ∃ u ∈ s.live, (s.place u).isAsleep = false ∧
        (0 < (s.place u).pc.hold ∨ (s.place u).pc.alert = true) := by
  obtain ⟨s, hrun, hs⟩ := (machine (mutexCode .recursive twoIds) ⟨0, 0, 0⟩).exists_run
    (Prompt .recursive twoIds) contention init_fresh
    (fun s => (decide (true ∈ s.live), (s.place true).isAsleep)) (b := (true, true))
    (by decide +kernel)
  obtain ⟨hlive, hasleep⟩ := Prod.mk.inj hs
  exact ⟨s, ⟨of_decide_eq_true hlive, hasleep⟩,
    mutex_wakes ids_twoIds hrun (of_decide_eq_true hlive) hasleep⟩

/-- The waiter has loaded the word for its copy when the owner unlocks twice. The copy that it
then stores is the old word. -/
def staleCopy : List (Act Bool MutexPc) :=
  contention.take 216 ++
    .begin false ⟨2, .unlockWaiters⟩ :: List.replicate 4 (.move false) ++
    .begin false ⟨1, .unlockWaiters⟩ :: List.replicate 7 (.move false) ++
    [.answer false (.wakes ∅), .move true, .answer true .sleep]

/-- The copy has to be up to date here too. -/
theorem mutex_wakes_not_stale : ∃ (s : State Bool Words MutexPc) (as : List (Act Bool MutexPc)),
    (machine (mutexCode .recursive twoIds) ⟨0, 0, 0⟩).Run
        (fun s a => Outside s a ∧ Honest (mutexCode .recursive twoIds) s a) as s ∧
      true ∈ s.live ∧ (s.place true).isAsleep = true ∧
      ¬ ∃ u ∈ s.live, (s.place u).isAsleep = false ∧
        (0 < (s.place u).pc.hold ∨ (s.place u).pc.alert = true) := by
  obtain ⟨s, hrun, hs⟩ := (machine (mutexCode .recursive twoIds) ⟨0, 0, 0⟩).exists_run
    (fun s a => Outside s a ∧ Honest (mutexCode .recursive twoIds) s a) staleCopy init_fresh
    (fun s => decide (true ∈ s.live ∧ (s.place true).isAsleep = true ∧
      ¬ ∃ u ∈ s.live, (s.place u).isAsleep = false ∧
        (0 < (s.place u).pc.hold ∨ (s.place u).pc.alert = true)))
    (b := true) (by decide +kernel)
  exact ⟨s, staleCopy, hrun, of_decide_eq_true hs⟩

end Porpoise.Sync.Mutex
