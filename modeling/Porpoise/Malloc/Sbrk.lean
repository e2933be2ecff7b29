import Mathlib.Algebra.GroupWithZero.Nat
import Porpoise.Shim.Decode
import Porpoise.Shim.Result

/-!
# `sbrk_user`

The allocator of untrusted memory moves the break with two calls of `brk`: one that asks
where it is and one that moves it. The kernel answers both with the break, moved or not.

* `sysBrk`, `sbrkUser`: the kernel's call and the function.
* `brk_transparent`: both calls reach the kernel and return its result unchanged.
* `sbrkUser_eq`: the function returns the old break, whatever the kernel answers.
* `sbrk_tells_iff`: it tells failure from success exactly when there is none to tell.
* `afterIncs_brk`: where a sequence of increments leaves the break.
-/

namespace Porpoise.Malloc

open Porpoise.Lib Porpoise.Shim

/-- The end of the addresses of a process. -/
def taskSize : Nat := 2 ^ 47

/-- A process: its data segment, from `start` to the break, and its mappings, each with its
size. -/
structure Proc where
  start : Word
  brk : Word
  maps : List (Word × Word)
  start_pos : 0 < start.toNat
  start_le : start.toNat ≤ brk.toNat
  brk_lt : brk.toNat < taskSize

/-- What the kernel answers while the allocator runs: whether it moves the break, and where
it maps. -/
structure Answers where
  brk : Nat → Bool
  mmap : Nat → Option Word

/-- A process with the number of calls that were answered. -/
structure World where
  proc : Proc
  brks : Nat
  mmaps : Nat

/-- The `k`-th call of `brk` moves the break to an address. -/
def Moves (A : Answers) (start : Word) (k : Nat) (addr : Word) : Prop :=
  A.brk k = true ∧ start.toNat ≤ addr.toNat ∧ addr.toNat < taskSize

instance (A : Answers) (start : Word) (k : Nat) (addr : Word) : Decidable (Moves A start k addr) :=
  inferInstanceAs (Decidable (_ ∧ _))

/-- `brk`: the new break, or the unchanged one. -/
def sysBrk (A : Answers) (addr : Word) (w : World) : Word × World :=
  if h : Moves A w.proc.start w.brks addr then
    (addr, { w with
      proc := { w.proc with brk := addr, start_le := h.2.1, brk_lt := h.2.2 }
      brks := w.brks + 1 })
  else (w.proc.brk, { w with brks := w.brks + 1 })

/-- The assertion about the second result is compiled out. -/
def sbrkUser (A : Answers) (increment : Word) (w : World) : Word × World :=
  let (current, w) := sysBrk A 0 w
  let (_, w) := sysBrk A (current + increment) w
  (current, w)

/-- `MFAIL`. -/
def mfail : Word := -1

/-! ## The wrapped call -/

/-- **`brk`** reaches the kernel with its address, and the kernel's result comes back. -/
theorem brk_transparent {L : Libc} (hL : L.Documented) (c : Ctx) (K : Kernel) (r : Word)
    (u : UMem) (blocks : Nat) (ks : Nat → Nat → Answer) (s : Machine)
    (hraw : (ks 0 0).raw.toNat < taskSize) :
    requests c K r .brk u = [[⟨.syscall .brk, [.scalar c.a1]⟩]] ∧
      ∃ s', syscall L c blocks ks .brk s = some ((ks 0 0).raw, s') := by
  have hrequests : requests c K r .brk u = [[c.request K .brk]] :=
    decode_encode (by decide) (fun _ hp => absurd hp List.not_mem_nil) K r u
  refine ⟨hrequests, ?_⟩
  obtain ⟨s', hwrap, -⟩ := syscallWrap_spec (n := .brk) hL (by decide) c blocks ks s
  have hok : ¬ IsError (ks 0 0).raw := by
    rintro ⟨-, hneg⟩
    rw [BitVec.toInt_eq_toNat_of_lt (by unfold taskSize at hraw; omega)] at hneg
    omega
  refine ⟨{ s' with errno := s'.errno }, ?_⟩
  unfold syscall
  rw [hwrap]
  show some ((syscallRet (ks 0 0).raw s'.errno).1, _) = _
  rw [syscallRet_eq, if_neg hok]

/-! ## One increment -/

variable {A : Answers} {w : World} {inc : Word}

/-- The second call of `brk` moves the break. -/
def Granted (A : Answers) (start : Word) (k : Nat) (b inc : Word) : Prop :=
  Moves A start (k + 1) (b + inc)

instance (A : Answers) (start : Word) (k : Nat) (b inc : Word) :
    Decidable (Granted A start k b inc) := inferInstanceAs (Decidable (Moves ..))

/-- `brk(NULL)` does not move the break. -/
theorem sysBrk_null (A : Answers) (w : World) :
    sysBrk A 0 w = (w.proc.brk, { w with brks := w.brks + 1 }) := by
  refine dif_neg fun h => ?_
  have hstart : w.proc.start.toNat ≤ 0 := h.2.1
  have hpos := w.proc.start_pos
  omega

/-- What a call leaves. -/
theorem sysBrk_snd (A : Answers) (addr : Word) (w : World) :
    (sysBrk A addr w).2.proc.brk =
        (if Moves A w.proc.start w.brks addr then addr else w.proc.brk) ∧
      (sysBrk A addr w).2.proc.start = w.proc.start ∧
      (sysBrk A addr w).2.proc.maps = w.proc.maps ∧
      (sysBrk A addr w).2.brks = w.brks + 1 ∧ (sysBrk A addr w).2.mmaps = w.mmaps := by
  unfold sysBrk
  by_cases h : Moves A w.proc.start w.brks addr
  · rw [dif_pos h, if_pos h]
    exact ⟨rfl, rfl, rfl, rfl, rfl⟩
  · rw [dif_neg h, if_neg h]
    exact ⟨rfl, rfl, rfl, rfl, rfl⟩

/-- **The old break**, in every case. -/
theorem sbrkUser_eq (A : Answers) (inc : Word) (w : World) :
    sbrkUser A inc w =
      (w.proc.brk, (sysBrk A (w.proc.brk + inc) { w with brks := w.brks + 1 }).2) := by
  rw [sbrkUser, sysBrk_null]

theorem sbrkUser_brk (A : Answers) (inc : Word) (w : World) :
    (sbrkUser A inc w).2.proc.brk =
      if Granted A w.proc.start w.brks w.proc.brk inc then w.proc.brk + inc else w.proc.brk := by
  rw [sbrkUser_eq]
  exact (sysBrk_snd _ _ _).1

/-- The rest of the state: only the number of calls changes. -/
theorem sbrkUser_rest (A : Answers) (inc : Word) (w : World) :
    (sbrkUser A inc w).2.proc.start = w.proc.start ∧
      (sbrkUser A inc w).2.proc.maps = w.proc.maps ∧
      (sbrkUser A inc w).2.brks = w.brks + 2 ∧ (sbrkUser A inc w).2.mmaps = w.mmaps := by
  rw [sbrkUser_eq]
  exact (sysBrk_snd _ _ _).2

/-- **`sbrk` tells failure from success**: it returns the old break exactly when the break
has moved by the increment, and `MFAIL` with the break where it was otherwise. -/
structure SbrkTells (b inc : Word) (result brk : Word) : Prop where
  success : result = b ↔ brk = b + inc
  failure : brk ≠ b + inc → result = mfail ∧ brk = b

theorem brk_ne_mfail (p : Proc) : p.brk ≠ mfail := by
  intro h
  have hlt := p.brk_lt
  rw [h] at hlt
  exact absurd hlt (by decide)

theorem add_eq_self_iff {b : Word} : b = b + inc ↔ inc = 0 := by
  constructor
  · intro h
    have hsub := congrArg (· - b) h
    simpa [BitVec.add_comm b inc, BitVec.add_sub_cancel] using hsub.symm
  · rintro rfl
    exact (BitVec.add_zero b).symm

theorem sbrk_tells_iff (A : Answers) (inc : Word) (w : World) :
    SbrkTells w.proc.brk inc (sbrkUser A inc w).1 (sbrkUser A inc w).2.proc.brk ↔
      inc = 0 ∨ Granted A w.proc.start w.brks w.proc.brk inc := by
  rw [sbrkUser_brk, sbrkUser_eq]
  by_cases h : Granted A w.proc.start w.brks w.proc.brk inc
  · rw [if_pos h]
    exact iff_of_true ⟨iff_of_true rfl rfl, fun hne => absurd rfl hne⟩ (.inr h)
  · rw [if_neg h]
    constructor
    · rintro ⟨hsuccess, -⟩
      exact .inl (add_eq_self_iff.mp (hsuccess.mp rfl))
    · rintro (hzero | hgranted)
      · have hsame : w.proc.brk = w.proc.brk + inc := add_eq_self_iff.mpr hzero
        exact ⟨iff_of_true rfl hsame, fun hne => absurd hsame hne⟩
      · exact absurd hgranted h

/-! ## Increments one after the other -/

/-- The state after a sequence of increments. -/
def afterIncs (A : Answers) (incs : List Word) (w : World) : World :=
  incs.foldl (fun w inc => (sbrkUser A inc w).2) w

/-- Every increment, made with the break where those before it leave it, is granted or
zero. -/
def AllGranted (A : Answers) (start : Word) : Nat → Word → List Word → Prop
  | _, _, [] => True
  | k, b, inc :: incs =>
      (inc = 0 ∨ Granted A start k b inc) ∧ AllGranted A start (k + 2) (b + inc) incs

/-- The bytes that a sequence of increments asks for. -/
def total (incs : List Word) : Nat := (incs.map BitVec.toNat).sum

@[simp] theorem total_nil : total [] = 0 := rfl

@[simp] theorem total_cons (inc : Word) (incs : List Word) :
    total (inc :: incs) = inc.toNat + total incs := List.sum_cons

theorem allGranted_cons {start : Word} {k : Nat} {b : Word} {incs : List Word} :
    AllGranted A start k b (inc :: incs) ↔
      (inc = 0 ∨ Granted A start k b inc) ∧ AllGranted A start (k + 2) (b + inc) incs := Iff.rfl

@[simp] theorem afterIncs_cons (A : Answers) (inc : Word) (incs : List Word) (w : World) :
    afterIncs A (inc :: incs) w = afterIncs A incs (sbrkUser A inc w).2 := rfl

/-- A call, by its result and the state that it leaves. -/
theorem sbrkUser_after (A : Answers) (inc : Word) (w : World) :
    sbrkUser A inc w = (w.proc.brk, afterIncs A [inc] w) := by
  refine Prod.ext ?_ rfl
  rw [sbrkUser_eq]

/-- `sbrk_user(0)` leaves the break. -/
theorem afterIncs_zero (A : Answers) (w : World) : (afterIncs A [0] w).proc.brk = w.proc.brk := by
  have hstay : w.proc.brk + 0 = w.proc.brk := BitVec.add_zero _
  show (sbrkUser A 0 w).2.proc.brk = _
  rw [sbrkUser_brk, hstay, ite_self]

theorem afterIncs_rest (A : Answers) (incs : List Word) (w : World) :
    (afterIncs A incs w).proc.start = w.proc.start ∧
      (afterIncs A incs w).proc.maps = w.proc.maps := by
  induction incs generalizing w with
  | nil => exact ⟨rfl, rfl⟩
  | cons inc incs ih =>
      obtain ⟨hstart, hmaps, -⟩ := sbrkUser_rest A inc w
      obtain ⟨hstart', hmaps'⟩ := ih (sbrkUser A inc w).2
      exact ⟨hstart'.trans hstart, hmaps'.trans hmaps⟩

/-- A break that a positive increment moves to is above the old one. -/
theorem toNat_add_of_lt {b : Word} (hb : b.toNat < taskSize) (hinc : inc.toNat < 2 ^ 63) :
    (b + inc).toNat = b.toNat + inc.toNat := by
  unfold taskSize at hb
  rw [BitVec.toNat_add]
  omega

/-- **Where the increments leave the break**: no further than they ask for, and that far
exactly when all are granted. -/
theorem afterIncs_brk (A : Answers) (incs : List Word) (w : World)
    (hincs : ∀ inc ∈ incs, inc.toNat < 2 ^ 63) :
    w.proc.brk.toNat ≤ (afterIncs A incs w).proc.brk.toNat ∧
      (afterIncs A incs w).proc.brk.toNat ≤ w.proc.brk.toNat + total incs ∧
      ((afterIncs A incs w).proc.brk.toNat = w.proc.brk.toNat + total incs ↔
        AllGranted A w.proc.start w.brks w.proc.brk incs) := by
  induction incs generalizing w with
  | nil => exact ⟨le_rfl, le_rfl, iff_of_true rfl trivial⟩
  | cons inc incs ih =>
      have hinc := hincs inc (List.mem_cons_self ..)
      obtain ⟨hle, hge, hiff⟩ :=
        ih (sbrkUser A inc w).2 fun i hi => hincs i (List.mem_cons_of_mem inc hi)
      obtain ⟨hstart, -, hbrks, -⟩ := sbrkUser_rest A inc w
      rw [hstart, hbrks, sbrkUser_brk] at hiff
      rw [sbrkUser_brk] at hle hge
      rw [afterIncs_cons, total_cons]
      have hadd := toNat_add_of_lt w.proc.brk_lt hinc
      by_cases hgranted : Granted A w.proc.start w.brks w.proc.brk inc
      · rw [if_pos hgranted] at hle hge hiff
        refine ⟨by omega, by omega, ?_⟩
        rw [allGranted_cons, and_iff_right (.inr hgranted), ← hiff]
        omega
      · rw [if_neg hgranted] at hle hge hiff
        refine ⟨hle, by omega, ?_⟩
        by_cases hzero : inc = 0
        · have hstay : w.proc.brk + inc = w.proc.brk := (add_eq_self_iff.mpr hzero).symm
          have hnone : inc.toNat = 0 := congrArg BitVec.toNat hzero
          rw [allGranted_cons, and_iff_right (.inl hzero), hstay, ← hiff]
          omega
        · have hpos : 0 < inc.toNat := by
            have hne := mt BitVec.eq_of_toNat_eq hzero
            simpa [Nat.pos_iff_ne_zero] using hne
          refine iff_of_false (by omega) ?_
          rintro ⟨hzero' | hgranted', -⟩
          · exact hzero hzero'
          · exact hgranted hgranted'

end Porpoise.Malloc
