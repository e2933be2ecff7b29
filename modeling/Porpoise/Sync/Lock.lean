import Mathlib.Tactic.Ring
import Porpoise.Sync.WakeUp

/-!
# `__lock` and `__unlock`

The lock of the C library's own data. One `int` combines a flag, its sign bit, and a
congestion count, the threads that hold the lock or have given up spinning for it.

* `lockCode`: the two functions, an access at a time. A place of the critical section keeps
  whether the thread took the lock, which the code does not: with one thread in the process
  `__lock` does nothing.
* `Inv`: the word is what the threads' places count for.
* `lock_excludes`: mutual exclusion, and the two assertions of the source, whatever the host
  answers to `futex`.
* `lock_wakes`: with a kernel that compares the current word, no sleeper is left behind; with a
  stale copy one may be (`lock_wakes_not_stale`).
-/

namespace Porpoise.Sync.Lock

open Porpoise.Lib

/-- A place in `__lock` or `__unlock`. -/
inductive LockPc
  | out
  /-- About to read `libc.threads_minus_1`. -/
  | test
  /-- About to compare and swap 0. -/
  | fast
  /-- In the spin loop. -/
  | spin (i : Nat) (current : Int)
  /-- About to count itself. -/
  | mark
  /-- In the main loop. -/
  | wait (current : Int)
  | cas (current : Int)
  /-- `__lock` has returned, with the lock taken or not. -/
  | critical (locked : Bool)
  /-- About to read the word. -/
  | unlock (locked : Bool)
  /-- About to subtract. -/
  | sub
  | wake
  deriving DecidableEq

/-- `if (current < 0) current -= INT_MIN + 1;` -/
def unlocked (current : Int) : Int :=
  if current < 0 then current - (intMin + 1) else current

/-- The top of the main loop. -/
def again (current : Int) : LockPc :=
  if current < 0 then .wait current else .cas current

/-- `__lock(l)` and `__unlock(l)`. -/
def lockCode (Tid : Type*) : Code Tid Int LockPc where
  word l := l
  instr
    | .out => .rest
    | .test => .access fun _ n l => (l, if n = 0 then .critical false else .fast)
    | .fast => .access fun _ _ l =>
        if l = 0 then (intMin + 1, .critical true) else (l, .spin 0 l)
    | .spin i current => .access fun _ _ l =>
        if l = unlocked current then (intMin + (unlocked current + 1), .critical true)
        else (l, if i + 1 < 10 then .spin (i + 1) l else .mark)
    | .mark => .access fun _ _ l => (int32 (l + 1), again (l + 1))
    | .wait current => .wait current false
    | .cas current => .access fun _ _ l =>
        if l = current then (intMin + current, .critical true) else (l, again l)
    | .critical _ => .rest
    | .unlock _ => .access fun _ _ l => (l, if l < 0 then .sub else .out)
    | .sub => .access fun _ _ l =>
        (int32 (l - (intMin + 1)), if l ≠ intMin + 1 then .wake else .out)
    | .wake => .wake 1
  resume p _ :=
    match p with
    | .wait current => .cas (current - (intMin + 1))
    | .wake => .out
    | p => p
  begins
    | .out, .test => true
    | .critical b, .unlock b' => b == b'
    | _, _ => false
  start := .out

/-! ## What a place counts for -/

/-- The thread has the lock. -/
def LockPc.locks : LockPc → Int
  | .critical true | .unlock true | .sub => 1
  | _ => 0

/-- It is in the congestion count. -/
def LockPc.counts : LockPc → Int
  | .critical true | .unlock true | .sub | .wait _ | .cas _ => 1
  | _ => 0

/-- It is in the critical section without the lock. -/
def LockPc.bare : LockPc → Int
  | .critical false | .unlock false => 1
  | _ => 0

/-- It is in the critical section. -/
def LockPc.inside : LockPc → Bool
  | .critical _ | .unlock _ | .sub => true
  | _ => false

/-- The assertions of the source, and what the wait relies on. -/
def LockPc.Asserts : LockPc → Prop
  | .spin _ current => 0 ≤ unlocked current
  | .wait current => current < 0 ∧ 0 < current - (intMin + 1)
  | .cas current => 0 < current
  | _ => True

variable {Tid : Type*}

theorem begins_cases {q p : LockPc} (h : (lockCode Tid).begins q p = true) :
    (q = .out ∧ p = .test) ∨ ∃ b, q = .critical b ∧ p = .unlock b := by
  cases q with
  | out =>
      cases p with
      | test => exact .inl ⟨rfl, rfl⟩
      | _ => cases h
  | critical b =>
      cases p with
      | unlock b' =>
          have hb : b = b' := by simpa [lockCode] using h
          exact .inr ⟨b, rfl, by rw [hb]⟩
      | _ => cases h
  | _ => cases h

theorem call_cases {p : LockPc} (h : ((lockCode Tid).instr p).isCall = true) :
    (∃ current, p = .wait current) ∨ p = .wake := by
  cases p with
  | wait current => exact .inl ⟨current, rfl⟩
  | wake => exact .inr rfl
  | _ => cases h

theorem weighs_locks : (lockCode Tid).Weighs LockPc.locks where
  start := rfl
  begins h := by
    rcases begins_cases h with ⟨rfl, rfl⟩ | ⟨b, rfl, rfl⟩
    · rfl
    · cases b <;> rfl
  resume r h := by
    rcases call_cases h with ⟨current, rfl⟩ | rfl <;> rfl

theorem weighs_counts : (lockCode Tid).Weighs LockPc.counts where
  start := rfl
  begins h := by
    rcases begins_cases h with ⟨rfl, rfl⟩ | ⟨b, rfl, rfl⟩
    · rfl
    · cases b <;> rfl
  resume r h := by
    rcases call_cases h with ⟨current, rfl⟩ | rfl <;> rfl

theorem weighs_bare : (lockCode Tid).Weighs LockPc.bare where
  start := rfl
  begins h := by
    rcases begins_cases h with ⟨rfl, rfl⟩ | ⟨b, rfl, rfl⟩
    · rfl
    · cases b <;> rfl
  resume r h := by
    rcases call_cases h with ⟨current, rfl⟩ | rfl <;> rfl

theorem closed_asserts : (lockCode Tid).Closed LockPc.Asserts where
  start := trivial
  begins h _ := by
    rcases begins_cases h with ⟨rfl, rfl⟩ | ⟨b, rfl, rfl⟩ <;> trivial
  resume r h hL := by
    rcases call_cases h with ⟨current, rfl⟩ | rfl
    · exact hL.2
    · trivial

theorem locks_nonneg (p : LockPc) : 0 ≤ p.locks := by
  unfold LockPc.locks
  split <;> decide

theorem locks_le_counts (p : LockPc) : p.locks ≤ p.counts := by
  unfold LockPc.locks LockPc.counts
  split <;> split <;> simp_all

theorem counts_le_one (p : LockPc) : p.counts ≤ 1 := by
  unfold LockPc.counts
  split <;> decide

theorem bare_nonneg (p : LockPc) : 0 ≤ p.bare := by
  unfold LockPc.bare
  split <;> decide

/-! ## The invariant -/

variable [DecidableEq Tid]

/-- Threads come and go outside the lock, and there are fewer than `2 ^ 31`. -/
def Outside (s : State Tid Int LockPc) : Act Tid LockPc → Prop
  | .create t _ => s.place t = .code .out ∧ s.live.card + 1 < 2 ^ 31
  | .exit t => s.place t = .code .out
  | _ => True

instance (s : State Tid Int LockPc) (a : Act Tid LockPc) : Decidable (Outside s a) :=
  match a with
  | .create t _ => inferInstanceAs (Decidable (s.place t = .code .out ∧ s.live.card + 1 < 2 ^ 31))
  | .exit t => inferInstanceAs (Decidable (s.place t = .code .out))
  | .begin _ _ | .move _ | .answer _ _ => .isTrue trivial

/-- The word is the flag and the count. -/
structure Inv (s : State Tid Int LockPc) : Prop where
  word : s.shared = intMin * s.total LockPc.locks + s.total LockPc.counts
  one : s.total LockPc.locks ≤ 1
  /-- Nobody else is there when a thread goes in without the lock. -/
  alone : 0 < s.total LockPc.bare → s.live.card = 1
  few : (s.live.card : Int) < 2 ^ 31
  asserts : ∀ t ∈ s.live, (s.place t).pc.Asserts

variable {s s' : State Tid Int LockPc} {a : Act Tid LockPc} {t u : Tid}

theorem Inv.calm (h : Inv s) (hg : Outside s a) (hc : Calm (lockCode Tid) s a s') : Inv s' := by
  have hlocks := hc.total _ weighs_locks
  have hcounts := hc.total _ weighs_counts
  have hbare := hc.total _ weighs_bare
  refine ⟨?_, ?_, ?_, ?_, hc.pcs (fun _ => LockPc.Asserts) (fun _ => closed_asserts) h.asserts⟩
  · rw [hc.shared, hlocks, hcounts, h.word]
  · rw [hlocks]
    exact h.one
  · intro hpos
    rw [hbare] at hpos
    rcases hc.live with hlive | ⟨t, u, rfl, ht, hu, hlive⟩
    · rw [hlive]
      exact h.alone hpos
    · -- the thread alone in the process is outside
      have hout : s.total LockPc.bare = 0 := by
        unfold State.total
        rw [total_of_card_one (h.alone hpos) ht, hg.1]
        rfl
      omega
  · rcases hc.live with hlive | ⟨t, u, rfl, ht, hu, hlive⟩
    · rw [hlive]
      exact h.few
    · rw [hlive, Finset.card_insert_of_notMem hu]
      have hfew := hg.2
      omega

theorem Inv.exit (h : Inv s) (ht : t ∈ s.live) (hp : s.place t = .code .out) :
    Inv { s with live := s.live.erase t } := by
  have hsame : ∀ w : LockPc → Int, w .out = 0 →
      State.total { s with live := s.live.erase t } w = s.total w := by
    intro w hw
    have hsum := total_erase (w := fun q : Place LockPc => w q.pc) (q := s.place) ht
    rw [hp, Place.pc, hw, sub_zero] at hsum
    exact hsum
  have hcard := Finset.card_erase_of_mem ht
  have hpos := Finset.card_pos.mpr ⟨t, ht⟩
  refine ⟨?_, ?_, ?_, ?_, fun u hu => h.asserts u (Finset.mem_of_mem_erase hu)⟩
  · rw [hsame _ rfl, hsame _ rfl]
    exact h.word
  · rw [hsame _ rfl]
    exact h.one
  · intro hbare
    rw [hsame _ rfl] at hbare
    have hout : s.total LockPc.bare = 0 := by
      unfold State.total
      rw [total_of_card_one (h.alone hbare) ht, hp]
      rfl
    omega
  · have hfew := h.few
    show ((s.live.erase t).card : Int) < 2 ^ 31
    omega

omit [DecidableEq Tid] in
theorem totals (s : State Tid Int LockPc) :
    s.total LockPc.locks ≤ s.total LockPc.counts ∧ s.total LockPc.counts ≤ s.live.card ∧
      0 ≤ s.total LockPc.locks :=
  ⟨total_mono fun q => locks_le_counts q.pc, total_le_card fun q => counts_le_one q.pc,
    total_nonneg fun q => locks_nonneg q.pc⟩

/-- What one thread adds to them. -/
theorem sums (ht : t ∈ s.live) :
    (s.place t).pc.locks ≤ s.total LockPc.locks ∧
      (s.place t).pc.counts ≤ s.total LockPc.counts ∧
      s.total LockPc.locks - (s.place t).pc.locks ≤
        s.total LockPc.counts - (s.place t).pc.counts := by
  have hcounts : ∀ p : LockPc, 0 ≤ p.counts := fun p => (locks_nonneg p).trans (locks_le_counts p)
  refine ⟨?_, ?_, ?_⟩
  · exact le_total (w := fun q : Place LockPc => q.pc.locks) (fun q => locks_nonneg q.pc) ht
  · exact le_total (w := fun q : Place LockPc => q.pc.counts) (fun q => hcounts q.pc) ht
  · have hothers := total_mono (T := s.live.erase t) (q := s.place)
      (v := fun q => q.pc.locks) (w := fun q => q.pc.counts) fun q => locks_le_counts q.pc
    rw [total_erase ht, total_erase ht] at hothers
    exact hothers

/-- An access after which the word is right again. -/
theorem Inv.afterAccess (h : Inv s) (ht : t ∈ s.live) {p : LockPc} (l' : Int) (p' : LockPc)
    {f : Tid → Int → Int → Int × LockPc} (hp : s.place t = .code p)
    (hf : f t s.threadsMinus1 s.shared = (l', p'))
    (hword : l' = s.shared + intMin * (p'.locks - p.locks) + (p'.counts - p.counts))
    (hone : s.total LockPc.locks - p.locks + p'.locks ≤ 1)
    (hbare : p'.bare ≤ p.bare ∨ s.live.card = 1) (hass : p'.Asserts) :
    Inv (s.afterAccess t f) := by
  have hsum : ∀ w : LockPc → Int, (s.afterAccess t f).total w = s.total w - w p + w p' := by
    intro w
    rw [total_afterAccess ht hp, hf]
  refine ⟨?_, ?_, ?_, h.few, ?_⟩
  · rw [hsum, hsum]
    show (f t s.threadsMinus1 s.shared).1 = _
    rw [hf, hword, h.word]
    ring
  · rw [hsum]
    exact hone
  · intro hpos
    rw [hsum] at hpos
    rcases hbare with hle | hcard
    · exact h.alone (by omega)
    · exact hcard
  · unfold State.afterAccess
    refine forall_goto (s := { s with shared := (f t s.threadsMinus1 s.shared).1 })
      (P := fun _ q => q.pc.Asserts) h.asserts ?_
    rw [hf]
    exact hass

/-- The word stays, and the next place counts for the same. -/
theorem Inv.stay (h : Inv s) (ht : t ∈ s.live) {p : LockPc} (p' : LockPc)
    {f : Tid → Int → Int → Int × LockPc} (hp : s.place t = .code p)
    (hf : f t s.threadsMinus1 s.shared = (s.shared, p')) (hlocks : p'.locks = p.locks)
    (hcounts : p'.counts = p.counts) (hbare : p'.bare ≤ p.bare ∨ s.live.card = 1)
    (hass : p'.Asserts) : Inv (s.afterAccess t f) := by
  have hone := h.one
  refine h.afterAccess ht s.shared p' hp hf ?_ (by omega) hbare hass
  rw [hlocks, hcounts]
  simp

omit [DecidableEq Tid] in
/-- A word without the flag. -/
theorem Inv.free (h : Inv s) (hword : 0 ≤ s.shared) :
    s.total LockPc.locks = 0 := by
  obtain ⟨hall, hcard, hnonneg⟩ := totals s
  have hw := h.word
  have hone := h.one
  have hfew := h.few
  unfold intMin at hw
  omega

/-- A compare and swap that sets the flag, and counts the thread if it is not counted. -/
theorem Inv.take (h : Inv s) (ht : t ∈ s.live) {p : LockPc} (l' : Int)
    {f : Tid → Int → Int → Int × LockPc} (hp : s.place t = .code p)
    (hf : f t s.threadsMinus1 s.shared = (l', .critical true)) (hword : 0 ≤ s.shared)
    (hlocks : p.locks = 0) (hl' : l' = intMin + (s.shared + (1 - p.counts))) :
    Inv (s.afterAccess t f) := by
  have hfree := h.free hword
  refine h.afterAccess ht l' (.critical true) hp hf ?_ ?_ (.inl (bare_nonneg p)) trivial
  · rw [hl', hlocks]
    simp only [LockPc.locks, LockPc.counts]
    omega
  · rw [hfree, hlocks]
    decide

theorem again_counts (l : Int) :
    (again l).locks = 0 ∧ (again l).counts = 1 ∧ (again l).bare = 0 := by
  unfold again
  split <;> exact ⟨rfl, rfl, rfl⟩

/-- A value read by a thread that is counted. -/
theorem asserts_again {l H C : Int} (hword : l = intMin * H + C) (hH : 0 ≤ H) (hone : H ≤ 1)
    (hcounted : H + 1 ≤ C) (hC : C < 2 ^ 31) : (again l).Asserts := by
  unfold intMin at hword
  unfold again
  split
  · refine ⟨by assumption, ?_⟩
    unfold intMin
    omega
  · show 0 < l
    omega

omit [DecidableEq Tid] in
/-- A value read by one that need not be. -/
theorem Inv.asserts_spin (h : Inv s) (i : Nat) :
    (LockPc.spin i s.shared).Asserts := by
  obtain ⟨hall, hcard, hnonneg⟩ := totals s
  have hword := h.word
  have hone := h.one
  unfold intMin at hword
  simp only [LockPc.Asserts, unlocked, intMin]
  split <;> omega

theorem Inv.mark (h : Inv s) (ht : t ∈ s.live) (hp : s.place t = .code .mark) :
    Inv (s.afterAccess t fun _ _ l => (int32 (l + 1), again (l + 1))) := by
  obtain ⟨hall, hcard, hnonneg⟩ := totals s
  have hword := h.word
  have hone := h.one
  have hfew := h.few
  -- the thread is counted after the addition, so there was one more to count
  have hroom : s.total LockPc.counts + 1 ≤ s.live.card := by
    have hafter : (s.goto t (.code (.cas 0))).total LockPc.counts ≤ s.live.card :=
      total_le_card fun q => counts_le_one q.pc
    rw [total_goto ht, hp] at hafter
    simpa [Place.pc, LockPc.counts] using hafter
  have hrange : int32 (s.shared + 1) = s.shared + 1 := by
    refine int32_of_range ?_ ?_
    · unfold intMin at hword ⊢
      omega
    · unfold intMin at hword
      unfold intMax
      omega
  obtain ⟨hlocks, hcounts, hbare⟩ := again_counts (s.shared + 1)
  refine h.afterAccess ht (int32 (s.shared + 1)) (again (s.shared + 1)) hp rfl ?_ ?_ (.inl ?_) ?_
  · rw [hlocks, hcounts, hrange]
    simp only [LockPc.locks, LockPc.counts]
    omega
  · rw [hlocks]
    simp only [LockPc.locks]
    omega
  · rw [hbare]
    exact bare_nonneg _
  · exact asserts_again (C := s.total LockPc.counts + 1) (by omega) hnonneg hone (by omega)
      (by omega)

theorem Inv.sub (h : Inv s) (ht : t ∈ s.live) (hp : s.place t = .code .sub) :
    Inv (s.afterAccess t fun _ _ l =>
      (int32 (l - (intMin + 1)), if l ≠ intMin + 1 then .wake else .out)) := by
  obtain ⟨hlocks, hcounts, -⟩ := sums ht
  have hcard := (totals s).2.1
  have hword := h.word
  have hone := h.one
  have hfew := h.few
  rw [hp] at hlocks hcounts
  simp only [Place.pc, LockPc.locks, LockPc.counts] at hlocks hcounts
  have hheld : s.total LockPc.locks = 1 := by
    omega
  have hrange : int32 (s.shared - (intMin + 1)) = s.shared - (intMin + 1) := by
    unfold intMin at hword
    refine int32_of_range ?_ ?_
    · unfold intMin
      omega
    · unfold intMin intMax
      omega
  refine h.afterAccess ht (int32 (s.shared - (intMin + 1)))
    (if s.shared ≠ intMin + 1 then .wake else .out) hp rfl ?_ ?_ (.inl ?_) ?_
  · rw [hrange]
    split <;> simp only [LockPc.locks, LockPc.counts, intMin] <;> omega
  · rw [hheld]
    split <;> simp only [LockPc.locks] <;> omega
  · split <;> exact le_refl _
  · split <;> trivial

omit [DecidableEq Tid] in
/-- A thread that went in without the lock finds it free. -/
theorem Inv.bare_word (h : Inv s) (ht : t ∈ s.live) (hp : s.place t = .code (.unlock false)) :
    s.shared = 0 := by
  have hbare : 0 < s.total LockPc.bare := by
    have hle := le_total (w := fun q : Place LockPc => q.pc.bare) (q := s.place)
      (fun q => bare_nonneg q.pc) ht
    rw [hp] at hle
    exact lt_of_lt_of_le (by decide) hle
  have halone := h.alone hbare
  have hword := h.word
  unfold State.total at hword
  rw [total_of_card_one halone ht, total_of_card_one halone ht, hp] at hword
  exact hword

theorem Inv.access (h : Inv s) (ht : t ∈ s.live) {p : LockPc}
    {f : Tid → Int → Int → Int × LockPc} (hp : s.place t = .code p)
    (hf : (lockCode Tid).instr p = .access f) : Inv (s.afterAccess t f) := by
  have hass := h.asserts t ht
  rw [hp, Place.pc] at hass
  cases p with
  | out | wait _ | critical _ | wake => cases hf
  | test =>
      cases hf
      by_cases hn : s.threadsMinus1 = 0
      · refine h.stay ht (.critical false) hp (by simp only [if_pos hn]) rfl rfl (.inr ?_) trivial
        unfold State.threadsMinus1 at hn
        omega
      · exact h.stay ht .fast hp (by simp only [if_neg hn]) rfl rfl (.inl (le_refl _)) trivial
  | fast =>
      cases hf
      by_cases hl : s.shared = 0
      · refine h.take ht (intMin + 1) hp (by simp only [if_pos hl]) (by omega) rfl ?_
        rw [hl]
        rfl
      · exact h.stay ht (.spin 0 s.shared) hp (by simp only [if_neg hl]) rfl rfl
          (.inl (le_refl _)) (h.asserts_spin 0)
  | spin i current =>
      cases hf
      by_cases hl : s.shared = unlocked current
      · have hge : 0 ≤ unlocked current := hass
        refine h.take ht (intMin + (unlocked current + 1)) hp (by simp only [if_pos hl]) (by omega)
          rfl ?_
        rw [hl]
        rfl
      · by_cases hi : i + 1 < 10
        · exact h.stay ht (.spin (i + 1) s.shared) hp (by simp only [if_neg hl, if_pos hi]) rfl rfl
            (.inl (le_refl _)) (h.asserts_spin (i + 1))
        · exact h.stay ht .mark hp (by simp only [if_neg hl, if_neg hi]) rfl rfl
            (.inl (le_refl _)) trivial
  | mark =>
      cases hf
      exact h.mark ht hp
  | cas current =>
      cases hf
      by_cases hl : s.shared = current
      · have hpos : 0 < current := hass
        refine h.take ht (intMin + current) hp (by simp only [if_pos hl]) (by omega) rfl ?_
        rw [hl]
        simp [LockPc.counts]
      · obtain ⟨-, hcard, hnonneg⟩ := totals s
        have hothers := (sums ht).2.2
        rw [hp] at hothers
        simp only [Place.pc, LockPc.locks, LockPc.counts] at hothers
        have hfew := h.few
        obtain ⟨hlocks, hcounts, hbare⟩ := again_counts s.shared
        refine h.stay ht (again s.shared) hp (by simp only [if_neg hl]) hlocks hcounts (.inl ?_) ?_
        · rw [hbare]
          exact bare_nonneg _
        · -- the holder and the thread itself are counted
          exact asserts_again h.word hnonneg h.one (by omega) (by omega)
  | unlock locked =>
      cases hf
      cases locked with
      | true =>
          have hneg : s.shared < 0 := by
            by_contra hge
            obtain ⟨hlocks, -⟩ := sums ht
            rw [hp, h.free (by omega)] at hlocks
            exact absurd hlocks (by decide)
          exact h.stay ht .sub hp (by simp only [if_pos hneg]) rfl rfl (.inl (le_refl _)) trivial
      | false =>
          have hzero := h.bare_word ht hp
          exact h.stay ht .out hp (by simp only [if_neg (show ¬ s.shared < 0 by omega)]) rfl rfl
            (.inl (by decide)) trivial
  | sub =>
      cases hf
      exact h.sub ht hp

theorem inv_init (hs : (machine (lockCode Tid) 0).init s) : Inv s := by
  obtain ⟨hshared, ⟨t, hlive⟩, hplace⟩ := hs
  have hsum : ∀ w : LockPc → Int, w .out = 0 → s.total w = 0 := by
    intro w hw
    unfold State.total
    rw [total_of_card_one (by rw [hlive]; rfl) (t := t) (by rw [hlive]; simp), hplace]
    exact hw
  refine ⟨?_, ?_, ?_, ?_, ?_⟩
  · rw [hshared, hsum _ rfl, hsum _ rfl]
    rfl
  · rw [hsum _ rfl]
    decide
  · intro hpos
    rw [hsum _ rfl] at hpos
    omega
  · rw [hlive, Finset.card_singleton]
    decide
  · intro u _
    rw [hplace]
    trivial

theorem inv_step (h : Inv s) (hg : Outside s a) (hn : s.next (lockCode Tid) a = some s') :
    Inv s' := by
  rcases (step_of_next hn).access_or_exit_or_calm with
    ⟨t, p, f, rfl, ht, hp, hf, rfl⟩ | ⟨t, q, rfl, ht, hq, -, rfl⟩ | hc
  · exact h.access ht hp hf
  · exact h.exit ht hg
  · exact h.calm hg hc

theorem inv_of_run {as : List (Act Tid LockPc)}
    (h : (machine (lockCode Tid) 0).Run Outside as s) : Inv s :=
  h.invariant (fun _ hs => inv_init hs) fun _ _ _ => inv_step

omit [DecidableEq Tid] in
/-- In the critical section, with or without the lock. -/
theorem locks_or_bare {p : LockPc} (h : p.inside = true) : 0 < p.locks ∨ 0 < p.bare := by
  cases p with
  | critical b | unlock b => cases b <;> simp [LockPc.locks, LockPc.bare]
  | sub => exact .inl (by decide)
  | _ => cases h

theorem Inv.exclusive (h : Inv s) (ht : t ∈ s.live) (hu : u ∈ s.live)
    (hti : (s.place t).pc.inside = true) (hui : (s.place u).pc.inside = true) : t = u := by
  have hbare : ∀ v ∈ s.live, 0 < (s.place v).pc.bare → t = u := by
    intro v hv hpos
    have hle := le_total (w := fun q : Place LockPc => q.pc.bare) (q := s.place)
      (fun q => bare_nonneg q.pc) hv
    have hone := h.alone (lt_of_lt_of_le hpos hle)
    exact Finset.card_le_one.mp (by omega) t ht u hu
  rcases locks_or_bare hti with htl | htb
  · rcases locks_or_bare hui with hul | hub
    · exact eq_of_total_le_one (w := fun q : Place LockPc => q.pc.locks) (q := s.place)
        (fun q => locks_nonneg q.pc) h.one ht hu htl hul
    · exact hbare u hu hub
  · exact hbare t ht htb

/-- The flag. -/
theorem Inv.flag (h : Inv s) :
    s.shared < 0 ↔ ∃ t ∈ s.live, 0 < (s.place t).pc.locks := by
  constructor
  · intro hneg
    refine exists_of_total_pos (w := fun q : Place LockPc => q.pc.locks) ?_
    obtain ⟨hall, hcard, hnonneg⟩ := totals s
    have hword := h.word
    by_contra hle
    have hzero : s.total LockPc.locks = 0 := le_antisymm (not_lt.mp hle) hnonneg
    rw [hzero] at hword hall
    omega
  · rintro ⟨t, ht, hpos⟩
    by_contra hge
    obtain ⟨hlocks, -⟩ := sums ht
    have hfree := h.free (not_lt.mp hge)
    omega

/-- **Mutual exclusion.** In every run in which threads come and go outside the lock, and
whatever the host answers to `futex`: at most one thread is in the critical section, the
sign bit is set exactly when a thread has the lock, the word is the flag and the congestion
count without overflow, and the assertions of `__lock` hold. -/
theorem lock_excludes {as : List (Act Tid LockPc)}
    (h : (machine (lockCode Tid) 0).Run Outside as s) :
    (∀ t ∈ s.live, ∀ u ∈ s.live, (s.place t).pc.inside = true → (s.place u).pc.inside = true →
      t = u) ∧
    (s.shared < 0 ↔ ∃ t ∈ s.live, 0 < (s.place t).pc.locks) ∧
    s.shared = intMin * s.total LockPc.locks + s.total LockPc.counts ∧
    s.total LockPc.counts ≤ intMax ∧
    ∀ t ∈ s.live, (s.place t).pc.Asserts := by
  have hinv := inv_of_run h
  have hcard := (totals s).2.1
  have hfew := hinv.few
  refine ⟨?_, hinv.flag, hinv.word, ?_, hinv.asserts⟩
  · intro t ht u hu hti hui
    exact hinv.exclusive ht hu hti hui
  · unfold intMax
    omega

/-- Thread 0 takes the lock, and thread 1 spins, counts itself and falls asleep. -/
def contention : List (Act Nat LockPc) :=
  [.create 0 1, .begin 0 .test, .move 0, .move 0, .begin 1 .test, .move 1, .move 1] ++
    List.replicate 10 (.move 1) ++
    [.move 1, .move 1, .move 1, .move 1, .answer 1 .sleep]

/-- The lock before its first use. -/
def fresh : State Nat Int LockPc := ⟨0, 0, {0}, fun _ => .code .out⟩

theorem init_fresh : (machine (lockCode Nat) 0).init fresh :=
  ⟨rfl, ⟨0, rfl⟩, fun _ => rfl⟩

theorem lock_excludes_contention : ∃ s : State Nat Int LockPc,
    (s.shared = intMin + 2 ∧ 0 ∈ s.live ∧ (s.place 0).pc.inside = true) ∧
      ∀ u ∈ s.live, (s.place u).pc.inside = true → 0 = u := by
  obtain ⟨s, hrun, hs⟩ := (machine (lockCode Nat) 0).exists_run Outside contention init_fresh
    (fun s => (s.shared, decide (0 ∈ s.live), (s.place 0).pc.inside))
    (b := (intMin + 2, true, true)) (by decide +kernel)
  obtain ⟨hword, hrest⟩ := Prod.mk.inj hs
  obtain ⟨hlive, hin⟩ := Prod.mk.inj hrest
  refine ⟨s, ⟨hword, of_decide_eq_true hlive, hin⟩, fun u hu hui => ?_⟩
  exact (lock_excludes hrun).1 0 (of_decide_eq_true hlive) u hu hin hui

/-! ## No sleeper is left behind -/

/-- The places of `__lock` after the thread has counted itself, and `__wake`. -/
def LockPc.alert : LockPc → Bool
  | .wait _ | .cas _ | .wake => true
  | _ => false

omit [DecidableEq Tid] in
theorem wakeful : Wakeful (lockCode Tid) LockPc.alert where
  rest {p} h := by
    cases p with
    | out | critical _ => rfl
    | _ => cases h
  begins h := by
    rcases begins_cases h with ⟨rfl, rfl⟩ | ⟨b, rfl, rfl⟩ <;> rfl
  wake {p cnt} h := by
    cases p with
    | wake =>
        cases h
        exact ⟨rfl, by decide⟩
    | _ => cases h
  woken {p} h := by
    cases p with
    | wait _ => rfl
    | _ => cases h
  back {p} r h _ := by
    cases p with
    | wait _ => rfl
    | _ => cases h

omit [DecidableEq Tid] in
/-- The wait of a thread that sleeps. -/
theorem wait_of_sleeps (h : s.sleeps (lockCode Tid) t = true) :
    ∃ current, (s.place t).pc = .wait current := by
  have hwait := (Bool.and_eq_true_iff.mp h).2
  cases hpc : (s.place t).pc with
  | wait current => exact ⟨current, rfl⟩
  | _ =>
      rw [hpc] at hwait
      cases hwait

/-- When the count is the holder alone, nobody sleeps. -/
theorem Inv.nobody_sleeps (h : Inv s) (ht : t ∈ s.live) (hp : s.place t = .code .sub)
    (hword : s.shared = intMin + 1) : ∀ u ∈ s.live, s.sleeps (lockCode Tid) u = false := by
  intro u hu
  by_contra hsleep
  obtain ⟨current, hpc⟩ := wait_of_sleeps (Bool.not_eq_false _ ▸ hsleep)
  have hne : u ≠ t := by
    rintro rfl
    rw [hp] at hpc
    cases hpc
  have hpair : (s.place t).pc.counts + (s.place u).pc.counts ≤ s.total LockPc.counts :=
    pair_le_total (w := fun q : Place LockPc => q.pc.counts)
      (fun q => (locks_nonneg q.pc).trans (locks_le_counts q.pc)) ht hu hne
  rw [hp, hpc] at hpair
  simp only [Place.pc, LockPc.counts] at hpair
  obtain ⟨hlocks, -⟩ := sums ht
  rw [hp] at hlocks
  simp only [Place.pc, LockPc.locks] at hlocks
  have hw := h.word
  have hone := h.one
  unfold intMin at hw hword
  omega

/-- An access leaves the lock taken, or leads on to an alert place. -/
theorem Inv.wakes (h : Inv s) (ht : t ∈ s.live) {p : LockPc}
    {f : Tid → Int → Int → Int × LockPc} (hp : s.place t = .code p)
    (hf : (lockCode Tid).instr p = .access f) :
    (s.afterAccess t f).shared < 0 ∨ (f t s.threadsMinus1 s.shared).2.alert = true ∨
      (∀ u ∈ s.live, s.sleeps (lockCode Tid) u = false) ∨
      (p.alert = false ∧ ¬ s.shared < 0) := by
  have hsame : ∀ p' : LockPc, f t s.threadsMinus1 s.shared = (s.shared, p') → p.alert = false →
      (s.afterAccess t f).shared < 0 ∨ p.alert = false ∧ ¬ s.shared < 0 := by
    intro p' heq hcold
    by_cases hneg : s.shared < 0
    · left
      show (f t s.threadsMinus1 s.shared).1 < 0
      rw [heq]
      exact hneg
    · exact .inr ⟨hcold, hneg⟩
  have halert : ∀ l : Int, (again l).alert = true := by
    intro l
    unfold again
    split <;> rfl
  have hafter := (h.access ht hp hf).flag
  cases p with
  | out | wait _ | critical _ | wake => cases hf
  | test =>
      cases hf
      rcases hsame _ rfl rfl with hneg | hfree
      · exact .inl hneg
      · exact .inr (.inr (.inr hfree))
  | unlock locked =>
      cases hf
      rcases hsame _ rfl rfl with hneg | hfree
      · exact .inl hneg
      · exact .inr (.inr (.inr hfree))
  | fast =>
      cases hf
      by_cases hl : s.shared = 0
      · left
        show (if s.shared = 0 then _ else _ : Int × LockPc).1 < 0
        rw [if_pos hl]
        decide
      · rcases hsame (.spin 0 s.shared) (by simp only [if_neg hl]) rfl with hneg | hfree
        · exact .inl hneg
        · exact .inr (.inr (.inr hfree))
  | spin i current =>
      cases hf
      by_cases hl : s.shared = unlocked current
      · -- the thread has the lock after it
        left
        refine hafter.mpr ⟨t, ht, ?_⟩
        simp only [State.afterAccess, State.goto, Function.update_self, if_pos hl, Place.pc]
        decide
      · rcases hsame (if i + 1 < 10 then .spin (i + 1) s.shared else .mark)
          (by simp only [if_neg hl]) rfl with hneg | hfree
        · exact .inl hneg
        · exact .inr (.inr (.inr hfree))
  | mark =>
      cases hf
      exact .inr (.inl (halert _))
  | cas current =>
      cases hf
      by_cases hl : s.shared = current
      · left
        refine hafter.mpr ⟨t, ht, ?_⟩
        simp only [State.afterAccess, State.goto, Function.update_self, if_pos hl, Place.pc]
        decide
      · right
        left
        simp only [if_neg hl]
        exact halert _
  | sub =>
      cases hf
      by_cases hl : s.shared = intMin + 1
      · exact .inr (.inr (.inl (h.nobody_sleeps ht hp hl)))
      · exact .inr (.inl (by simp only [if_pos (show s.shared ≠ intMin + 1 from hl)]; rfl))

/-- A kernel that compares and wakes as it is asked to, and copies that are up to date. -/
def Prompt (s : State Tid Int LockPc) (a : Act Tid LockPc) : Prop :=
  Outside s a ∧ Honest (lockCode Tid) s a ∧ Fresh (lockCode Tid) s a

instance (s : State Tid Int LockPc) (a : Act Tid LockPc) : Decidable (Prompt s a) :=
  inferInstanceAs (Decidable (_ ∧ _ ∧ _))

/-- What holds in such runs. -/
structure PromptInv (s : State Tid Int LockPc) : Prop where
  inv : Inv s
  waits : ∀ t ∈ s.live, Waits (lockCode Tid) (s.place t)
  noLost : NoLost (lockCode Tid) LockPc.alert (fun s => s.shared < 0) s

theorem promptInv_init (hs : (machine (lockCode Tid) 0).init s) : PromptInv s := by
  refine ⟨inv_init hs, fun t _ hasleep => ?_, ?_⟩
  · rw [hs.2.2] at hasleep
    cases hasleep
  · rintro ⟨u, -, hu⟩
    rw [State.sleeps, hs.2.2] at hu
    cases hu

theorem promptInv_step (h : PromptInv s) (hg : Prompt s a)
    (hn : s.next (lockCode Tid) a = some s') : PromptInv s' := by
  obtain ⟨hout, hhonest, hfresh⟩ := hg
  have hstep := step_of_next hn
  refine ⟨inv_step h.inv hout hn, hstep.waits h.waits,
    h.noLost.step wakeful hstep hhonest ?_ ?_ ?_ ?_⟩
  · intro hc hneg
    show s'.shared < 0
    rw [hc.shared]
    exact hneg
  · rintro u rfl hneg
    cases hstep
    exact hneg
  · rintro u p val timed rfl hu hp hwait
    -- it sleeps on the current word, which is negative
    have hval := hhonest val timed (by rw [hp]; exact hwait)
    cases p with
    | wait current =>
        cases hwait
        have hass := h.inv.asserts u hu
        rw [hp] at hass
        cases hstep
        show s.shared < 0
        rw [show s.shared = val from hfresh.symm.trans hval]
        exact hass.1
    | _ => cases hwait
  · intro u p f _ hu hp hf
    exact h.inv.wakes hu hp hf

/-- **No sleeper is left behind.** With a kernel that compares and wakes as it is asked to, and
threads that fall asleep only on a copy that is up to date, in every state in which a thread
sleeps in `__lock` there is a thread awake that has the lock, or has counted itself and is about
to compare and swap, or is in `__wake`. -/
theorem lock_wakes {as : List (Act Tid LockPc)}
    (h : (machine (lockCode Tid) 0).Run Prompt as s) (ht : t ∈ s.live)
    (hasleep : (s.place t).isAsleep = true) :
    ∃ u ∈ s.live, (s.place u).isAsleep = false ∧
      (0 < (s.place u).pc.locks ∨ (s.place u).pc.alert = true) := by
  have hinv : PromptInv s :=
    h.invariant (fun _ hs => promptInv_init hs) fun _ _ _ => promptInv_step
  have hsleep : s.sleeps (lockCode Tid) t = true :=
    Bool.and_eq_true_iff.mpr ⟨hasleep, hinv.waits t ht hasleep⟩
  rcases hinv.noLost ⟨t, ht, hsleep⟩ with hneg | ⟨u, hu, hawake, halert⟩
  · obtain ⟨u, hu, hlocks⟩ := hinv.inv.flag.mp hneg
    refine ⟨u, hu, ?_, .inl hlocks⟩
    -- the holder is not in the wait
    by_contra husleep
    obtain ⟨current, hpc⟩ := wait_of_sleeps (s := s) (t := u) (Bool.and_eq_true_iff.mpr
      ⟨Bool.not_eq_false _ ▸ husleep, hinv.waits u hu (Bool.not_eq_false _ ▸ husleep)⟩)
    rw [hpc] at hlocks
    simp [LockPc.locks] at hlocks
  · exact ⟨u, hu, hawake, .inr halert⟩

theorem lock_wakes_contention : ∃ s : State Nat Int LockPc,
    (1 ∈ s.live ∧ (s.place 1).isAsleep = true) ∧
      ∃ u ∈ s.live, (s.place u).isAsleep = false ∧
        (0 < (s.place u).pc.locks ∨ (s.place u).pc.alert = true) := by
  obtain ⟨s, hrun, hs⟩ := (machine (lockCode Nat) 0).exists_run Prompt contention init_fresh
    (fun s => (decide (1 ∈ s.live), (s.place 1).isAsleep)) (b := (true, true)) (by decide +kernel)
  obtain ⟨hlive, hasleep⟩ := Prod.mk.inj hs
  exact ⟨s, ⟨of_decide_eq_true hlive, hasleep⟩,
    lock_wakes hrun (of_decide_eq_true hlive) hasleep⟩

/-- Thread 1 has loaded the word for its copy when thread 0 unlocks, and nobody is asleep yet.
The copy that thread 1 then stores is the old word. -/
def staleCopy : List (Act Nat LockPc) :=
  contention.take 20 ++
    [.begin 0 (.unlock true), .move 0, .move 0, .move 0, .move 0, .move 0, .answer 0 (.wakes ∅),
      .move 1, .answer 1 .sleep]

/-- The copy has to be up to date: with a stale one the waiter sleeps on a free lock, though the
kernel compares and wakes as it is asked to. -/
theorem lock_wakes_not_stale : ∃ (s : State Nat Int LockPc) (as : List (Act Nat LockPc)),
    (machine (lockCode Nat) 0).Run (fun s a => Outside s a ∧ Honest (lockCode Nat) s a) as s ∧
      1 ∈ s.live ∧ (s.place 1).isAsleep = true ∧
      ¬ ∃ u ∈ s.live, (s.place u).isAsleep = false ∧
        (0 < (s.place u).pc.locks ∨ (s.place u).pc.alert = true) := by
  obtain ⟨s, hrun, hs⟩ := (machine (lockCode Nat) 0).exists_run
    (fun s a => Outside s a ∧ Honest (lockCode Nat) s a) staleCopy init_fresh
    (fun s => decide (1 ∈ s.live ∧ (s.place 1).isAsleep = true ∧
      ¬ ∃ u ∈ s.live, (s.place u).isAsleep = false ∧
        (0 < (s.place u).pc.locks ∨ (s.place u).pc.alert = true)))
    (b := true) (by decide +kernel)
  exact ⟨s, staleCopy, hrun, of_decide_eq_true hs⟩

end Porpoise.Sync.Lock
