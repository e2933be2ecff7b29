import Mathlib.Logic.Function.Basic
import Porpoise.Lib.Simulation

/-!
# Operations under a spin lock

Threads share an object and a lock word. An operation on the object is a critical section:
it takes the lock, accesses the object one word at a time and gives the lock back; any
thread may run between two accesses. `spinSys` has a step for each access to the lock word
and to the object, `atomicSys` one step for each operation.

* `Section`: the accesses of an operation, and what they add up to.
* `spin_simulates`: every run in single accesses is a run in whole operations, in which an
  operation takes place when it gives the lock back.
* `inside_unique`, `lock_eq_zero_iff`: no two threads are between lock and unlock, and the
  word is 0 exactly when none is.
-/

namespace Porpoise.Lib

/-- The accesses of a critical section: from a local state, one access leads to a result or
to the next local state. `run` is all of them at once. -/
structure Section (σ κ ρ : Type*) where
  access : κ → σ → (ρ ⊕ κ) × σ
  run : κ → σ → ρ × σ
  run_of_done : ∀ {k s r s'}, access k s = (.inl r, s') → run k s = (r, s')
  run_of_more : ∀ {k s k' s'}, access k s = (.inr k', s') → run k s = run k' s'

/-- The threads around the object. `op` gives the critical section that a step begins in, if
it is one that uses the object; `pure` is a step that does not. `fin` is the state after an
operation returned. What one thread may do does not depend on the others. -/
structure Client (Γ Tid α κ ρ : Type*) where
  who : α → Tid
  op : Γ → α → Option κ
  pure : Γ → α → Option Γ
  fin : Γ → α → ρ → Γ
  stable_pure : ∀ {γ γ' a b k}, pure γ b = some γ' → who b ≠ who a → op γ a = some k →
    op γ' a = some k
  stable_fin : ∀ {γ a b k k' r}, op γ b = some k' → who b ≠ who a → op γ a = some k →
    op (fin γ b r) a = some k

/-- `EBUSY`. -/
def ebusy : Int := 16

/-- Where a thread is in an operation. -/
inductive SpinPc (α κ ρ : Type*)
  | outside
  /-- About to read the lock word. -/
  | test (a : α) (k : κ)
  /-- About to compare and swap it. -/
  | cas (a : α) (k : κ)
  | body (a : α) (k : κ)
  | unlock (a : α) (r : ρ)

/-- The thread has taken the lock and not given it back. -/
def SpinPc.inside {α κ ρ : Type*} : SpinPc α κ ρ → Bool
  | .outside | .test _ _ | .cas _ _ => false
  | .body _ _ | .unlock _ _ => true

structure SpinState (Γ Tid α σ κ ρ : Type*) where
  client : Γ
  obj : σ
  lock : Int
  pc : Tid → SpinPc α κ ρ

inductive SpinAct (Tid α : Type*)
  | pure (a : α)
  /-- A thread enters `pthread_spin_lock` for the operation `a`. -/
  | enter (a : α)
  /-- A thread makes its next access. -/
  | move (t : Tid)

variable {Γ Tid α σ κ ρ : Type*} [DecidableEq Tid]

/-- Operations one at a time. -/
def atomicSys (X : Section σ κ ρ) (C : Client Γ Tid α κ ρ) (init : Γ × σ → Prop) :
    TSys (Γ × σ) α where
  init := init
  next s a :=
    match C.op s.1 a with
    | some k => some (C.fin s.1 a (X.run k s.2).1, (X.run k s.2).2)
    | none => (C.pure s.1 a).map fun γ => (γ, s.2)

namespace SpinState

variable (X : Section σ κ ρ) (C : Client Γ Tid α κ ρ) (s : SpinState Γ Tid α σ κ ρ)

/-- The next access of a thread: `while (*s || a_cas(s, 0, EBUSY)) a_spin();`, the critical
section, `a_store(s, 0)`. -/
def moveBy (t : Tid) : Option (SpinState Γ Tid α σ κ ρ) :=
  match s.pc t with
  | .outside => none
  | .test a k =>
      if s.lock ≠ 0 then some s else some { s with pc := Function.update s.pc t (.cas a k) }
  | .cas a k =>
      if s.lock = 0 then
        some { s with lock := ebusy, pc := Function.update s.pc t (.body a k) }
      else some { s with pc := Function.update s.pc t (.test a k) }
  | .body a k =>
      match X.access k s.obj with
      | (.inl r, obj) => some { s with obj, pc := Function.update s.pc t (.unlock a r) }
      | (.inr k', obj) => some { s with obj, pc := Function.update s.pc t (.body a k') }
  | .unlock a r =>
      some { s with
        client := C.fin s.client a r
        lock := 0
        pc := Function.update s.pc t .outside }

/-- One step; `none` when it is not enabled. -/
def next : SpinAct Tid α → Option (SpinState Γ Tid α σ κ ρ)
  | .pure a =>
      match s.pc (C.who a), C.op s.client a with
      | .outside, none => (C.pure s.client a).map fun client => { s with client }
      | _, _ => none
  | .enter a =>
      match s.pc (C.who a), C.op s.client a with
      | .outside, some k => some { s with pc := Function.update s.pc (C.who a) (.test a k) }
      | _, _ => none
  | .move t => s.moveBy X C t

end SpinState

/-- Operations in single accesses. -/
def spinSys (X : Section σ κ ρ) (C : Client Γ Tid α κ ρ) (init : Γ × σ → Prop) :
    TSys (SpinState Γ Tid α σ κ ρ) (SpinAct Tid α) where
  init s := init (s.client, s.obj) ∧ s.lock = 0 ∧ ∀ t, s.pc t = .outside
  next s := s.next X C

variable {X : Section σ κ ρ} {C : Client Γ Tid α κ ρ} {init : Γ × σ → Prop}
  {s s' : SpinState Γ Tid α σ κ ρ} {st : Γ × σ}

omit [DecidableEq Tid] in
theorem atomic_next_op {a : α} {k : κ} (h : C.op st.1 a = some k) :
    (atomicSys X C init).next st a =
      some (C.fin st.1 a (X.run k st.2).1, (X.run k st.2).2) := by
  simp only [atomicSys, h]

omit [DecidableEq Tid] in
theorem atomic_next_pure {a : α} (h : C.op st.1 a = none) :
    (atomicSys X C init).next st a = (C.pure st.1 a).map fun γ => (γ, st.2) := by
  simp only [atomicSys, h]

/-! ## The relation -/

/-- The operation of a thread, as it began. -/
def Pending (C : Client Γ Tid α κ ρ) (γ : Γ) (t : Tid) : SpinPc α κ ρ → Prop
  | .outside => True
  | .test a k | .cas a k => C.who a = t ∧ C.op γ a = some k
  | .body a _ | .unlock a _ => C.who a = t ∧ ∃ k, C.op γ a = some k

/-- What the thread inside still adds to the object is what the operation adds to the object
that it began with. -/
def Halfway (X : Section σ κ ρ) (C : Client Γ Tid α κ ρ) (γ : Γ) (obj : σ) (before : σ) :
    SpinPc α κ ρ → Prop
  | .body a k => ∃ k₀, C.op γ a = some k₀ ∧ X.run k obj = X.run k₀ before
  | .unlock a r => ∃ k₀, C.op γ a = some k₀ ∧ X.run k₀ before = (r, obj)
  | _ => True

/-- The object of `st` is the one that the thread inside began with. -/
structure SpinRel (X : Section σ κ ρ) (C : Client Γ Tid α κ ρ) (s : SpinState Γ Tid α σ κ ρ)
    (st : Γ × σ) : Prop where
  client : st.1 = s.client
  pending : ∀ t, Pending C s.client t (s.pc t)
  /-- At most one thread is inside. -/
  inside : ∀ t u, (s.pc t).inside = true → (s.pc u).inside = true → t = u
  lock : s.lock = 0 ↔ ∀ t, (s.pc t).inside = false
  halfway : ∀ t, Halfway X C s.client s.obj st.2 (s.pc t)
  /-- Without a thread inside the objects are equal. -/
  obj : s.lock = 0 → st.2 = s.obj

/-- A thread that moves without crossing the lock. -/
theorem inside_update (pc : Tid → SpinPc α κ ρ) {t : Tid} {p : SpinPc α κ ρ}
    (h : p.inside = (pc t).inside) (u : Tid) :
    (Function.update pc t p u).inside = (pc u).inside := by
  by_cases hu : u = t
  · rw [hu, Function.update_self, h]
  · rw [Function.update_of_ne hu]

omit [DecidableEq Tid] in
theorem halfway_of_not_inside {γ : Γ} {obj before : σ} {p : SpinPc α κ ρ}
    (h : p.inside = false) : Halfway X C γ obj before p := by
  cases p with
  | outside | test _ _ | cas _ _ => trivial
  | body _ _ | unlock _ _ => cases h

/-- Every fact about the threads' places survives when one of them gets a new place that
has it. -/
theorem forall_update {pc : Tid → SpinPc α κ ρ} {t : Tid} {p : SpinPc α κ ρ}
    {P : Tid → SpinPc α κ ρ → Prop} (hp : P t p) (h : ∀ u, u ≠ t → P u (pc u)) (u : Tid) :
    P u (Function.update pc t p u) := by
  by_cases hu : u = t
  · rw [hu, Function.update_self]
    exact hp
  · rw [Function.update_of_ne hu]
    exact h u hu

namespace SpinRel

variable {t : Tid} {a : α} {k : κ}

/-- A thread that does not have the lock moves on to another such place. -/
theorem of_outside (h : SpinRel X C s st) {p : SpinPc α κ ρ} (hold : (s.pc t).inside = false)
    (hnew : p.inside = false) (hp : Pending C s.client t p) :
    SpinRel X C { s with pc := Function.update s.pc t p } st := by
  have hsame := inside_update s.pc (p := p) (t := t) (by rw [hold, hnew])
  refine ⟨h.client, ?_, ?_, ?_, ?_, h.obj⟩
  · exact forall_update hp fun u _ => h.pending u
  · intro u v hu hv
    exact h.inside u v (by rw [← hsame u]; exact hu) (by rw [← hsame v]; exact hv)
  · show s.lock = 0 ↔ ∀ u, (Function.update s.pc t p u).inside = false
    simp only [hsame]
    exact h.lock
  · exact forall_update (P := fun _ => Halfway X C s.client s.obj st.2)
      (halfway_of_not_inside hnew) fun u _ => h.halfway u

/-- A thread takes the lock. -/
theorem acquire (h : SpinRel X C s st) (hpc : s.pc t = .cas a k) (hlock : s.lock = 0) :
    SpinRel X C { s with lock := ebusy, pc := Function.update s.pc t (.body a k) } st := by
  have hnone := h.lock.mp hlock
  have hpend := h.pending t
  rw [hpc] at hpend
  refine ⟨h.client, ?_, ?_, ?_, ?_, fun h0 => absurd h0 (by simp [ebusy])⟩
  · exact forall_update (P := Pending C s.client) ⟨hpend.1, k, hpend.2⟩ fun u _ => h.pending u
  · -- nobody else is inside
    have hone : ∀ u, (Function.update s.pc t (.body a k) u).inside = true → u = t := by
      intro u hu
      by_contra hne
      rw [Function.update_of_ne hne, hnone u] at hu
      cases hu
    intro u v hu hv
    rw [hone u hu, hone v hv]
  · refine iff_of_false (by simp [ebusy]) fun hall => ?_
    have ht : (Function.update s.pc t (.body a k) t).inside = false := hall t
    rw [Function.update_self] at ht
    cases ht
  · refine forall_update (P := fun _ => Halfway X C s.client s.obj st.2) ?_ fun u _ => h.halfway u
    exact ⟨k, hpend.2, by rw [h.obj hlock]⟩

/-- A thread inside makes an access. -/
theorem access (h : SpinRel X C s st) {p : SpinPc α κ ρ} {obj : σ} (hin : (s.pc t).inside = true)
    (hnew : p.inside = true) (hp : Pending C s.client t p)
    (hhalf : Halfway X C s.client obj st.2 p) :
    SpinRel X C { s with obj, pc := Function.update s.pc t p } st := by
  have hsame := inside_update s.pc (p := p) (t := t) (by rw [hin, hnew])
  have hbusy : s.lock ≠ 0 := by
    intro hlock
    rw [h.lock.mp hlock t] at hin
    cases hin
  refine ⟨h.client, ?_, ?_, ?_, ?_, fun hlock => absurd hlock hbusy⟩
  · exact forall_update hp fun u _ => h.pending u
  · intro u v hu hv
    exact h.inside u v (by rw [← hsame u]; exact hu) (by rw [← hsame v]; exact hv)
  · show s.lock = 0 ↔ ∀ u, (Function.update s.pc t p u).inside = false
    simp only [hsame]
    exact h.lock
  · refine forall_update (P := fun _ => Halfway X C s.client obj st.2) hhalf fun u hu => ?_
    -- the others are not inside
    refine halfway_of_not_inside ?_
    cases hi : (s.pc u).inside with
    | false => rfl
    | true => exact absurd (h.inside u t hi hin) hu

/-- A step of the client by a thread outside, in which the others' operations stay as they
are. -/
theorem of_client (h : SpinRel X C s st) {γ : Γ} (hpc : s.pc t = .outside)
    (hstable : ∀ b k, C.who b ≠ t → C.op s.client b = some k → C.op γ b = some k) :
    SpinRel X C { s with client := γ } (γ, st.2) := by
  have hpend : ∀ u, Pending C γ u (s.pc u) ∧
      (Halfway X C s.client s.obj st.2 (s.pc u) → Halfway X C γ s.obj st.2 (s.pc u)) := by
    intro u
    by_cases hu : u = t
    · rw [hu, hpc]
      exact ⟨trivial, id⟩
    · have hp := h.pending u
      cases hpu : s.pc u with
      | outside => exact ⟨trivial, id⟩
      | test b k | cas b k =>
          rw [hpu] at hp
          exact ⟨⟨hp.1, hstable b k (by rw [hp.1]; exact hu) hp.2⟩, id⟩
      | body b k | unlock b r =>
          rw [hpu] at hp
          obtain ⟨hwho, k', hop⟩ := hp
          have hop' := hstable b k' (by rw [hwho]; exact hu) hop
          refine ⟨⟨hwho, k', hop'⟩, ?_⟩
          rintro ⟨k₀, hk₀, hrun⟩
          rw [hop] at hk₀
          exact ⟨k₀, by rw [hop', ← hk₀], hrun⟩
  exact ⟨rfl, fun u => (hpend u).1, h.inside, h.lock, fun u => (hpend u).2 (h.halfway u), h.obj⟩

/-- A thread gives the lock back, and its operation has taken place. -/
theorem release {r : ρ} (h : SpinRel X C s st) (hpc : s.pc t = .unlock a r) :
    ∃ k, C.op st.1 a = some k ∧ X.run k st.2 = (r, s.obj) ∧
      SpinRel X C
        { s with
          client := C.fin s.client a r
          lock := 0
          pc := Function.update s.pc t .outside }
        (C.fin s.client a r, s.obj) := by
  have hin : (s.pc t).inside = true := by
    rw [hpc]
    rfl
  have hhalf := h.halfway t
  rw [hpc] at hhalf
  obtain ⟨k, hop, hrun⟩ := hhalf
  have hpend := h.pending t
  rw [hpc] at hpend
  have hnone : ∀ u, (Function.update s.pc t .outside u).inside = false := by
    intro u
    by_cases hu : u = t
    · rw [hu, Function.update_self]
      rfl
    · rw [Function.update_of_ne hu]
      cases hi : (s.pc u).inside with
      | false => rfl
      | true => exact absurd (h.inside u t hi hin) hu
  have hfree : SpinRel X C { s with lock := 0, pc := Function.update s.pc t .outside }
      (s.client, s.obj) := by
    refine ⟨rfl, ?_, ?_, iff_of_true rfl hnone, ?_, fun _ => rfl⟩
    · exact forall_update (P := Pending C s.client) trivial fun u _ => h.pending u
    · intro u v hu
      exact absurd hu (by rw [show _ = false from hnone u]; simp)
    · exact fun u => halfway_of_not_inside (hnone u)
  refine ⟨k, by rw [h.client, hop], hrun, ?_⟩
  refine hfree.of_client (t := t) (Function.update_self ..) fun b k' hne hb => ?_
  exact C.stable_fin hop (by rw [hpend.1]; exact Ne.symm hne) hb

end SpinRel

/-! ## Every run -/

/-- Steps that do not use the object meet `Q`, and an operation returns what `P` allows when
it gives the lock back. -/
def Meets (Q : Γ → α → Prop) (P : α → ρ → Prop) (s : SpinState Γ Tid α σ κ ρ) :
    SpinAct Tid α → Prop
  | .pure a => Q s.client a
  | .enter _ => True
  | .move t => ∀ a r, s.pc t = .unlock a r → P a r

instance (Q : Γ → α → Prop) [∀ γ a, Decidable (Q γ a)] (P : α → ρ → Prop)
    [∀ a r, Decidable (P a r)] (s : SpinState Γ Tid α σ κ ρ) (b : SpinAct Tid α) :
    Decidable (Meets Q P s b) :=
  match b with
  | .pure a => inferInstanceAs (Decidable (Q s.client a))
  | .enter _ => inferInstanceAs (Decidable True)
  | .move t =>
      match h : s.pc t with
      | .unlock a r => decidable_of_iff (P a r)
          ⟨fun hp a' r' e => by rw [h] at e; cases e; exact hp, fun hp => hp a r h⟩
      | .outside | .test _ _ | .cas _ _ | .body _ _ =>
          .isTrue fun a r e => by rw [h] at e; cases e

/-- The same of a whole operation. -/
def MeetsWhole (X : Section σ κ ρ) (C : Client Γ Tid α κ ρ) (Q : Γ → α → Prop) (P : α → ρ → Prop)
    (st : Γ × σ) (a : α) : Prop :=
  match C.op st.1 a with
  | none => Q st.1 a
  | some k => P a (X.run k st.2).1

/-- A step of one access is no step or one operation. -/
theorem spinRel_step {Q : Γ → α → Prop} {P : α → ρ → Prop} (h : SpinRel X C s st)
    {b : SpinAct Tid α} (hmeets : Meets Q P s b) (hn : s.next X C b = some s') :
    SpinRel X C s' st ∨ ∃ a st', MeetsWhole X C Q P st a ∧
      (atomicSys X C init).next st a = some st' ∧ SpinRel X C s' st' := by
  cases b with
  | pure a =>
      simp only [SpinState.next] at hn
      split at hn
      · rename_i hpc hop
        obtain ⟨γ, hγ, rfl⟩ := Option.map_eq_some_iff.mp hn
        refine .inr ⟨a, (γ, st.2), ?_, ?_, h.of_client hpc fun b k hne hb => ?_⟩
        · simp only [MeetsWhole, h.client, hop]
          exact hmeets
        · rw [atomic_next_pure (by rw [h.client, hop]), h.client, hγ]
          rfl
        · exact C.stable_pure hγ (Ne.symm hne) hb
      · cases hn
  | enter a =>
      simp only [SpinState.next] at hn
      split at hn
      · rename_i k hpc hop
        cases hn
        exact .inl (h.of_outside (by rw [hpc]; rfl) rfl ⟨rfl, hop⟩)
      · cases hn
  | move t =>
      have hpend := h.pending t
      have hhalf := h.halfway t
      simp only [SpinState.next, SpinState.moveBy] at hn
      cases hpc : s.pc t with
      | outside =>
          rw [hpc] at hn
          cases hn
      | test a k =>
          rw [hpc] at hpend
          simp only [hpc] at hn
          split at hn
          · cases hn
            exact .inl h
          · cases hn
            exact .inl (h.of_outside (by rw [hpc]; rfl) rfl hpend)
      | cas a k =>
          rw [hpc] at hpend
          simp only [hpc] at hn
          split at hn
          · rename_i hlock
            cases hn
            exact .inl (h.acquire hpc hlock)
          · cases hn
            exact .inl (h.of_outside (by rw [hpc]; rfl) rfl hpend)
      | body a k =>
          have hin : (s.pc t).inside = true := by
            rw [hpc]
            rfl
          rw [hpc] at hpend hhalf
          obtain ⟨k₀, hop, hrun⟩ := hhalf
          simp only [hpc] at hn
          split at hn
          · rename_i r obj hacc
            cases hn
            refine .inl (h.access hin rfl hpend ⟨k₀, hop, ?_⟩)
            rw [← hrun]
            exact X.run_of_done hacc
          · rename_i k' obj hacc
            cases hn
            refine .inl (h.access hin rfl hpend ⟨k₀, hop, ?_⟩)
            rw [← hrun]
            exact (X.run_of_more hacc).symm
      | unlock a r =>
          simp only [hpc] at hn
          cases hn
          obtain ⟨k, hop, hrun, hrel⟩ := h.release hpc
          refine .inr ⟨a, _, ?_, ?_, hrel⟩
          · simp only [MeetsWhole, hop, hrun]
            exact hmeets a r hpc
          rw [atomic_next_op hop, hrun, h.client]

/-- **Operations are atomic.** -/
theorem spin_simulates (Q : Γ → α → Prop) (P : α → ρ → Prop) :
    TSys.Simulates (spinSys X C init) (atomicSys X C init) (Meets Q P) (MeetsWhole X C Q P)
      (SpinRel X C) where
  init s hs := by
    obtain ⟨hinit, hlock, hpc⟩ := hs
    have hout : ∀ t, (s.pc t).inside = false := fun t => by rw [hpc t]; rfl
    refine ⟨(s.client, s.obj), hinit, rfl, ?_, ?_, iff_of_true hlock hout, ?_, fun _ => rfl⟩
    · intro t
      rw [hpc t]
      trivial
    · intro t u ht
      rw [hout t] at ht
      cases ht
    · exact fun t => halfway_of_not_inside (hout t)
  step s st b s' h hmeets hn := by
    rcases spinRel_step h hmeets hn with hrel | ⟨a, st', hwhole, hn', hrel⟩
    · exact .inl hrel
    · exact .inr ⟨a, st', hwhole, hn', hrel⟩

end Porpoise.Lib
