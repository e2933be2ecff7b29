import Porpoise.Sync.Machine

/-!
# When no wake-up is lost

A thread that sleeps on the word of an object is woken by a thread that is still to come:
one that holds the object and will wake it, or one that is awake in the operations and will
take the object or wake another. This file has what a step of the machine does to such
threads; each object says which places of its code they are.

* `Honest`: the kernel compares the mirror and wakes as many sleepers as it is asked to.
* `Fresh`: what it compares is the value of the word, which the copying does not ensure.
* `Wakeful`: the places of the threads that are still to come.
* `NoLost.step`: a sleeper is owed a wake-up after every step of an honest kernel.
-/

namespace Porpoise.Sync

open Porpoise.Lib

variable {Tid σ π : Type*} [DecidableEq Tid]

/-- The threads that sleep. -/
def State.sleepers (s : State Tid σ π) (C : Code Tid σ π) : Finset Tid :=
  s.live.filter fun u => s.sleeps C u = true

/-- What a kernel answers. -/
def Honest (C : Code Tid σ π) (s : State Tid σ π) : Act Tid π → Prop
  | .answer t .sleep => ∀ val timed, C.instr (s.place t).pc = .wait val timed → s.mirror = val
  | .answer t (.ret r) => ∀ cnt, C.instr (s.place t).pc = .wake cnt →
      r = -enosys ∧ s.place t = .kernel (s.place t).pc false
  | .answer t (.wakes us) => ∀ cnt, C.instr (s.place t).pc = .wake cnt →
      (us.card : Int) = min cnt (s.sleepers C).card
  | _ => True

/-- A thread falls asleep only while its copy of the word is up to date. The copying does not
ensure it: the word may change between the load and the store. -/
def Fresh (C : Code Tid σ π) (s : State Tid σ π) : Act Tid π → Prop
  | .answer _ .sleep => s.mirror = C.word s.shared
  | _ => True

instance [DecidableEq π] (C : Code Tid σ π) (s : State Tid σ π) (a : Act Tid π) :
    Decidable (Honest C s a) :=
  match a with
  | .begin _ _ | .create _ _ | .exit _ | .move _ | .answer _ (.early _) => .isTrue trivial
  | .answer t .sleep =>
      match h : C.instr (s.place t).pc with
      | .wait val _ => decidable_of_iff (s.mirror = val)
          ⟨fun e _ _ hi => by rw [h] at hi; cases hi; exact e, fun e => e _ _ h⟩
      | .rest | .access _ | .wake _ => .isTrue fun _ _ hi => by rw [h] at hi; cases hi
  | .answer t (.ret r) =>
      match h : C.instr (s.place t).pc with
      | .wake _ => decidable_of_iff (r = -enosys ∧ s.place t = .kernel (s.place t).pc false)
          ⟨fun e _ _ => e, fun e => e _ h⟩
      | .rest | .access _ | .wait _ _ => .isTrue fun _ hi => by rw [h] at hi; cases hi
  | .answer t (.wakes us) =>
      match h : C.instr (s.place t).pc with
      | .wake cnt => decidable_of_iff ((us.card : Int) = min cnt (s.sleepers C).card)
          ⟨fun e _ hi => by rw [h] at hi; cases hi; exact e, fun e => e _ h⟩
      | .rest | .access _ | .wait _ _ => .isTrue fun _ hi => by rw [h] at hi; cases hi

instance (C : Code Tid σ π) (s : State Tid σ π) (a : Act Tid π) : Decidable (Fresh C s a) :=
  match a with
  | .answer _ .sleep => inferInstanceAs (Decidable (s.mirror = C.word s.shared))
  | .begin _ _ | .create _ _ | .exit _ | .move _ | .answer _ (.early _) | .answer _ (.ret _)
  | .answer _ (.wakes _) => .isTrue trivial

/-- A thread asleep is in a wait. -/
def Waits (C : Code Tid σ π) (q : Place π) : Prop :=
  q.isAsleep = true → (C.instr q.pc).isWait = true

/-- `alert` are places from which a thread is still to take the object or to wake another. -/
structure Wakeful (C : Code Tid σ π) (alert : π → Bool) : Prop where
  rest : ∀ {p}, (C.instr p).isRest = true → alert p = false
  begins : ∀ {q p}, C.begins q p = true → alert q = false
  wake : ∀ {p cnt}, C.instr p = .wake cnt → alert p = true ∧ 1 ≤ cnt
  woken : ∀ {p}, (C.instr p).isWait = true → alert (C.resume p 0) = true
  /-- A wait that fails leads on to such a place if it is one. -/
  back : ∀ {p} r, (C.instr p).isWait = true → alert p = true → alert (C.resume p r) = true

/-- A thread at such a place that is not asleep. -/
def State.Alert (s : State Tid σ π) (alert : π → Bool) : Prop :=
  ∃ u ∈ s.live, (s.place u).isAsleep = false ∧ alert (s.place u).pc = true

/-- Every sleeper is owed a wake-up, as `blocked` or by an alert thread. -/
def NoLost (C : Code Tid σ π) (alert : π → Bool) (blocked : State Tid σ π → Prop)
    (s : State Tid σ π) : Prop :=
  (∃ t ∈ s.live, s.sleeps C t = true) → blocked s ∨ s.Alert alert

variable {C : Code Tid σ π} {alert : π → Bool} {blocked : State Tid σ π → Prop}
  {s s' : State Tid σ π} {a : Act Tid π} {t : Tid}

theorem Step.waits (hstep : Step C s a s') (h : ∀ u ∈ s.live, Waits C (s.place u)) :
    ∀ u ∈ s'.live, Waits C (s'.place u) := by
  have hcode : ∀ p, Waits C (.code p) := fun _ hq => by cases hq
  cases hstep with
  | begin _ _ _ => exact forall_goto (P := fun _ => Waits C) h (hcode _)
  | @create t u q _ _ _ _ =>
      intro v hv
      simp only [State.goto]
      by_cases hvu : v = u
      · rw [hvu, Function.update_self]
        exact hcode _
      · rw [Function.update_of_ne hvu]
        exact h v ((Finset.mem_insert.mp hv).resolve_left hvu)
  | exit _ _ _ => exact fun u hu => h u (Finset.mem_of_mem_erase hu)
  | access _ _ _ =>
      exact forall_goto (P := fun _ => Waits C) (s := { s with shared := _ }) h (hcode _)
  | call _ _ _ => exact forall_goto (P := fun _ => Waits C) h fun hq => by cases hq
  | load _ _ => exact forall_goto (P := fun _ => Waits C) h fun hq => by cases hq
  | store _ _ =>
      refine forall_goto (P := fun _ => Waits C) (s := { s with mirror := _ }) h fun hq => ?_
      cases hq
  | early _ _ _ => exact forall_goto (P := fun _ => Waits C) h (hcode _)
  | sleep _ _ hi => exact forall_goto (P := fun _ => Waits C) h fun _ => by rw [Place.pc, hi]; rfl
  | again _ _ _ _ => exact forall_goto (P := fun _ => Waits C) h fun hq => by cases hq
  | ret _ _ _ _ => exact forall_goto (P := fun _ => Waits C) h (hcode _)
  | @wakes t p again cnt us _ _ _ _ =>
      refine forall_goto (P := fun _ => Waits C) (s := s.rouse C us) (fun u hu => ?_) (hcode _)
      simp only [State.rouse]
      split
      · exact hcode _
      · exact h u hu

/-- A thread falls asleep by the host's answer only. -/
theorem Step.asleep (hstep : Step C s a s') {u : Tid} (hu : u ∈ s'.live)
    (h : (s'.place u).isAsleep = true) :
    (u ∈ s.live ∧ (s.place u).isAsleep = true) ∨ a = .answer u .sleep := by
  have hgoto : ∀ (r : State Tid σ π) (t : Tid) (q : Place π), q.isAsleep = false →
      ((r.goto t q).place u).isAsleep = true → (r.place u).isAsleep = true := by
    intro r t q hq hsleep
    simp only [State.goto] at hsleep
    by_cases hut : u = t
    · rw [hut, Function.update_self, hq] at hsleep
      cases hsleep
    · rw [Function.update_of_ne hut] at hsleep
      exact hsleep
  cases hstep with
  | begin _ _ _ => exact .inl ⟨hu, hgoto _ _ _ rfl h⟩
  | @create t v q _ hv _ _ =>
      have hold := hgoto { s with live := insert v s.live } _ _ rfl h
      have huv : u ≠ v := by
        rintro rfl
        simp only [State.goto, Function.update_self] at h
        cases h
      exact .inl ⟨(Finset.mem_insert.mp hu).resolve_left huv, hold⟩
  | exit _ _ _ => exact .inl ⟨Finset.mem_of_mem_erase hu, h⟩
  | access _ _ _ => exact .inl ⟨hu, hgoto { s with shared := _ } _ _ rfl h⟩
  | call _ _ _ | load _ _ | early _ _ _ | again _ _ _ _ | ret _ _ _ _ =>
      exact .inl ⟨hu, hgoto _ _ _ rfl h⟩
  | store _ _ => exact .inl ⟨hu, hgoto { s with mirror := _ } _ _ rfl h⟩
  | @sleep t p again val timed _ _ _ =>
      by_cases hut : u = t
      · exact .inr (by rw [hut])
      · simp only [State.goto, Function.update_of_ne hut] at h
        exact .inl ⟨hu, h⟩
  | @wakes t p again cnt us _ _ _ _ =>
      have hold := hgoto (s.rouse C us) _ _ rfl h
      simp only [State.rouse] at hold
      split at hold
      · cases hold
      · exact .inl ⟨hu, hold⟩

/-- The thread that moves is alert after it. -/
theorem alert_goto (ht : t ∈ s.live) {q : Place π} (hq : q.isAsleep = false)
    (halert : alert q.pc = true) : (s.goto t q).Alert alert := by
  refine ⟨t, ht, ?_⟩
  simp only [State.goto, Function.update_self]
  exact ⟨hq, halert⟩

/-- Another thread stays alert. -/
theorem State.Alert.goto (h : s.Alert alert) {q : Place π}
    (hq : (s.place t).isAsleep = false → alert (s.place t).pc = true →
      q.isAsleep = false ∧ alert q.pc = true) : (s.goto t q).Alert alert := by
  obtain ⟨u, hu, hawake, halert⟩ := h
  refine ⟨u, hu, ?_⟩
  simp only [State.goto]
  by_cases hut : u = t
  · rw [hut] at hawake halert ⊢
    rw [Function.update_self]
    exact hq hawake halert
  · rw [Function.update_of_ne hut]
    exact ⟨hawake, halert⟩

/-- A thread that is awake after its move does not add a sleeper. -/
theorem sleeper_of_goto {q : Place π} (hq : q.isAsleep = false)
    (h : ∃ u ∈ (s.goto t q).live, (s.goto t q).sleeps C u = true) :
    ∃ u ∈ s.live, s.sleeps C u = true := by
  obtain ⟨u, hu, hsleep⟩ := h
  refine ⟨u, hu, ?_⟩
  by_cases hut : u = t
  · rw [State.sleeps] at hsleep
    simp only [State.goto, hut, Function.update_self, hq] at hsleep
    cases hsleep
  · simpa only [State.sleeps, State.goto, Function.update_of_ne hut] using hsleep

/-- The thread moves on within its code or its call, and does not fall asleep. -/
theorem NoLost.goto (h : NoLost C alert blocked s) {q : Place π} (hq : q.isAsleep = false)
    (hstay : (s.place t).isAsleep = false → alert (s.place t).pc = true → alert q.pc = true)
    (hblocked : blocked s → blocked (s.goto t q)) : NoLost C alert blocked (s.goto t q) := by
  intro hsleep
  rcases h (sleeper_of_goto hq hsleep) with hb | ha
  · exact .inl (hblocked hb)
  · exact .inr (ha.goto fun hawake halert => ⟨hq, hstay hawake halert⟩)

/-- `FUTEX_WAKE` wakes somebody, or there was nobody to wake. -/
theorem noLost_wakes (hC : Wakeful C alert) {p : π} {again : Bool} {cnt : Int} {us : Finset Tid}
    (hp : s.place t = .kernel p again) (hi : C.instr p = .wake cnt)
    (hus : ∀ u ∈ us, u ∈ s.live ∧ s.sleeps C u = true)
    (hcard : (us.card : Int) = min cnt (s.sleepers C).card) :
    NoLost C alert blocked ((s.rouse C us).goto t (.code (C.resume p 0))) := by
  intro hsleep
  obtain ⟨v, hv, hvsleep⟩ := sleeper_of_goto rfl hsleep
  -- `v` sleeps still, so it slept before, and the wake was not for nothing
  have hvus : v ∉ us := by
    intro hmem
    simp only [State.sleeps, State.rouse, if_pos hmem] at hvsleep
    cases hvsleep
  have hvold : v ∈ s.sleepers C := by
    refine Finset.mem_filter.mpr ⟨hv, ?_⟩
    simpa only [State.sleeps, State.rouse, if_neg hvus] using hvsleep
  have hpos : 0 < us.card := by
    have hsome := Finset.card_pos.mpr ⟨v, hvold⟩
    have hcnt := (hC.wake hi).2
    omega
  obtain ⟨u, hu⟩ := Finset.card_pos.mp hpos
  obtain ⟨hlive, husleep⟩ := hus u hu
  have hut : u ≠ t := by
    rintro rfl
    rw [State.sleeps, hp] at husleep
    cases husleep
  refine .inr ⟨u, hlive, ?_⟩
  simp only [State.goto, Function.update_of_ne hut, State.rouse, if_pos hu]
  exact ⟨rfl, hC.woken (Bool.and_eq_true_iff.mp husleep).2⟩

/-- An access. -/
theorem NoLost.access (h : NoLost C alert blocked s) (ht : t ∈ s.live) {p : π}
    {f : Tid → Int → σ → σ × π} (hp : s.place t = .code p)
    (haccess : blocked (s.afterAccess t f) ∨ alert (f t s.threadsMinus1 s.shared).2 = true ∨
      (∀ u ∈ s.live, s.sleeps C u = false) ∨ (alert p = false ∧ ¬ blocked s)) :
    NoLost C alert blocked (s.afterAccess t f) := by
  intro hsleeps
  obtain ⟨u, hu, husleep⟩ : ∃ u ∈ s.live, s.sleeps C u = true :=
    sleeper_of_goto (s := { s with shared := (f t s.threadsMinus1 s.shared).1 }) rfl hsleeps
  rcases haccess with hblocked | halert | hnone | ⟨hcold, hnot⟩
  · exact .inl hblocked
  · exact .inr (alert_goto (s := { s with shared := (f t s.threadsMinus1 s.shared).1 }) ht rfl
      halert)
  · rw [hnone u hu] at husleep
    cases husleep
  · rcases h ⟨u, hu, husleep⟩ with hblocked | ha
    · exact absurd hblocked hnot
    · refine .inr (State.Alert.goto
        (s := { s with shared := (f t s.threadsMinus1 s.shared).1 }) ha fun _ halert => ?_)
      rw [show State.place _ t = _ from hp, Place.pc, hcold] at halert
      cases halert

/-- **One step.** What an object has to show: that it stays blocked where the words stay, that
a thread falls asleep only on a blocked object, and that an access leaves the object blocked
or leads on to an alert place, unless nobody sleeps or the object was free before. -/
theorem NoLost.step (hC : Wakeful C alert) (h : NoLost C alert blocked s) (hstep : Step C s a s')
    (hhonest : Honest C s a)
    (hcalm : Calm C s a s' → blocked s → blocked s')
    (hexit : ∀ t, a = .exit t → blocked s → blocked s')
    (hsleep : ∀ t p val timed, a = .answer t .sleep → t ∈ s.live → (s.place t).pc = p →
      C.instr p = .wait val timed → blocked s')
    (haccess : ∀ t p f, a = .move t → t ∈ s.live → s.place t = .code p →
      C.instr p = .access f → blocked (s.afterAccess t f) ∨
        alert (f t s.threadsMinus1 s.shared).2 = true ∨
        (∀ u ∈ s.live, s.sleeps C u = false) ∨ (alert p = false ∧ ¬ blocked s)) :
    NoLost C alert blocked s' := by
  have hb : (∃ t p f, a = .move t ∧ t ∈ s.live ∧ s.place t = .code p ∧
      C.instr p = .access f ∧ s' = s.afterAccess t f) ∨ (blocked s → blocked s') := by
    rcases hstep.access_or_exit_or_calm with hacc | ⟨t, q, rfl, -, -, -, -⟩ | hc
    · exact .inl hacc
    · exact .inr (hexit t rfl)
    · exact .inr (hcalm hc)
  rcases hb with ⟨t, p, f, rfl, ht, hp, hf, rfl⟩ | hb
  · exact h.access ht hp (haccess t p f rfl ht hp hf)
  · cases hstep with
    | begin ht hq hbegins =>
        refine h.goto rfl (fun _ halert => ?_) hb
        rw [hq, Place.pc, hC.begins hbegins] at halert
        cases halert
    | @create t u q ht hu hq hrest =>
        -- nobody minds a thread at the start
        intro hsleeps
        have hold : ∃ v ∈ s.live, s.sleeps C v = true := by
          obtain ⟨v, hv, hvsleep⟩ := hsleeps
          simp only [State.sleeps, State.goto] at hvsleep
          by_cases hvu : v = u
          · rw [hvu, Function.update_self] at hvsleep
            cases hvsleep
          · rw [Function.update_of_ne hvu] at hvsleep
            exact ⟨v, (Finset.mem_insert.mp hv).resolve_left hvu, hvsleep⟩
        rcases h hold with hblocked | ⟨v, hv, hawake, halert⟩
        · exact .inl (hb hblocked)
        · have hvu : v ≠ u := by
            rintro rfl
            exact hu hv
          refine .inr ⟨v, Finset.mem_insert_of_mem hv, ?_⟩
          simp only [State.goto, Function.update_of_ne hvu]
          exact ⟨hawake, halert⟩
    | @exit t q ht hq hrest =>
        rintro ⟨v, hv, hvsleep⟩
        rcases h ⟨v, Finset.mem_of_mem_erase hv, hvsleep⟩ with hblocked | ⟨u, hu, hawake, halert⟩
        · exact .inl (hb hblocked)
        · have hut : u ≠ t := by
            rintro rfl
            rw [hq, Place.pc, hC.rest hrest] at halert
            cases halert
          exact .inr ⟨u, Finset.mem_erase.mpr ⟨hut, hu⟩, hawake, halert⟩
    | access ht hp hf => exact h.access ht hp (haccess _ _ _ rfl ht hp hf)
    | call ht hp hcall =>
        exact h.goto rfl (fun _ halert => by rw [hp] at halert; exact halert) hb
    | load ht hp => exact h.goto rfl (fun _ halert => by rw [hp] at halert; exact halert) hb
    | store ht hp =>
        intro hsleeps
        rcases h (sleeper_of_goto (q := .kernel _ _) rfl hsleeps) with hblocked | ha
        · exact .inl (hb hblocked)
        · refine .inr (State.Alert.goto (s := { s with mirror := _ }) ha fun _ halert => ?_)
          rw [show State.place _ _ = _ from hp] at halert
          exact ⟨rfl, halert⟩
    | early ht hp hi =>
        refine h.goto rfl (fun _ halert => ?_) hb
        rw [hp] at halert
        exact hC.back _ (by rw [hi]; rfl) halert
    | @sleep t p again val timed ht hp hi =>
        exact fun _ => .inl (hsleep t p val timed rfl ht (by rw [hp]; rfl) hi)
    | again ht hp hcall hr =>
        refine h.goto rfl (fun _ halert => ?_) hb
        rcases hp with hp | hp <;> rw [hp] at halert <;> exact halert
    | @ret t p again r ht hp hcall hr =>
        have hpc : (s.place t).pc = p := by
          rcases hp with hp | hp <;> rw [hp] <;> rfl
        cases hi : C.instr p with
        | rest | access f =>
            rw [hi] at hcall
            cases hcall
        | wait val timed =>
            refine h.goto rfl (fun _ halert => ?_) hb
            rw [hpc] at halert
            exact hC.back _ (by rw [hi]; rfl) halert
        | wake cnt =>
            -- an honest kernel returns from `FUTEX_WAKE` without a wake-up to be asked again
            obtain ⟨hno, hplace⟩ := hhonest cnt (by rw [hpc]; exact hi)
            rw [hpc] at hplace
            refine absurd ⟨hno, ?_⟩ hr
            rcases hp with hp | hp <;> rw [hp] at hplace <;> cases hplace
            rfl
    | @wakes t p again cnt us ht hp hi hus =>
        exact noLost_wakes hC hp hi hus (hhonest cnt (by rw [hp]; exact hi))

end Porpoise.Sync
