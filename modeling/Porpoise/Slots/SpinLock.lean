import Porpoise.Lib.SpinLock
import Porpoise.Slots.Threads

/-!
# The slot table under its spin lock

`get_free_syscall_arg_index` reads the `busy` fields one by one between
`pthread_spin_lock(&syscall_arg_table_lock)` and `pthread_spin_unlock`, and the end of
`__syscall_wrap` stores one field between the same two calls. Other threads run between any
two of these accesses.

* `slotSection`: the accesses; together they are `getFreeSyscallArgIndex` and `releaseSlot`.
* `spinSlots_refine`: what threads do in single accesses, they do in the whole steps of
  `slotSys`; the entries held by different calls are different at every access.
-/

namespace Porpoise.Slots

open Porpoise.Lib

/-! ## The critical sections -/

/-- Where a thread is in a critical section. -/
inductive SlotPc
  /-- About to read `syscall_arg_table[i].busy`, if there is an entry `i`. -/
  | scan (i : Nat)
  /-- About to store 1 in it. -/
  | take (i : Nat)
  /-- About to store 0 in it. -/
  | clear (i : Nat)

/-- One access. -/
def slotAccess : SlotPc → SlotTable → (Nat ⊕ SlotPc) × SlotTable
  | .scan i, t =>
      if i < maxNoOfThreads then
        if isFree t i then (.inr (.take i), t) else (.inr (.scan (i + 1)), t)
      else (.inl i, t)
  | .take i, t => (.inl i, Function.update t i 1)
  | .clear i, t => (.inl i, releaseSlot t i)

/-- All accesses at once. -/
def slotRun : SlotPc → SlotTable → Nat × SlotTable
  | .scan i, t =>
      let i := scanFrom (isFree t) maxNoOfThreads i
      if i < maxNoOfThreads then (i, Function.update t i 1) else (i, t)
  | .take i, t => (i, Function.update t i 1)
  | .clear i, t => (i, releaseSlot t i)

/-- The critical sections of `syscall_arg_table_lock`. -/
def slotSection : Section SlotTable SlotPc Nat where
  access := slotAccess
  run := slotRun
  run_of_done := by
    intro k t r t' h
    cases k with
    | scan i =>
        simp only [slotAccess] at h
        split at h
        · split at h <;> cases h
        · rename_i hi
          cases h
          simp only [slotRun, scanFrom_of_ge hi]
          exact if_neg hi
    | take i | clear i =>
        cases h
        rfl
  run_of_more := by
    intro k t k' t' h
    cases k with
    | scan i =>
        simp only [slotAccess] at h
        split at h
        · rename_i hi
          split at h
          · rename_i hfree
            cases h
            simp only [slotRun, scanFrom_found hi hfree]
            exact if_pos hi
          · rename_i hbusy
            cases h
            simp only [slotRun, scanFrom_next hi (Bool.eq_false_iff.mpr hbusy)]
        · cases h
    | take i | clear i => cases h

theorem slotRun_claim (t : SlotTable) :
    slotSection.run (.scan 0) t = getFreeSyscallArgIndex t := by
  show slotRun (.scan 0) t = _
  simp only [slotRun, scanFrom_zero, getFreeSyscallArgIndex]

/-! ## The threads -/

/-- The threads and their calls, without the table. -/
structure Threads (Tid : Type*) where
  calls : Tid → List Frame
  threads : Finset Tid
  ended : Finset Tid

variable {Tid : Type*} [DecidableEq Tid]

namespace Threads

def live (γ : Threads Tid) (t : Tid) : Prop := t ∈ γ.threads ∧ t ∉ γ.ended

instance (γ : Threads Tid) (t : Tid) : Decidable (γ.live t) := inferInstanceAs (Decidable (_ ∧ _))

/-- With a table. -/
def join (s : Threads Tid × SlotTable) : State Tid := ⟨s.2, s.1.calls, s.1.threads, s.1.ended⟩

def who : Act Tid → Tid
  | .call t _ | .ret t | .create t _ | .exit t => t

/-- The critical section that a step begins in. -/
def op (γ : Threads Tid) : Act Tid → Option SlotPc
  | .call t n => if γ.live t ∧ mayCall (γ.calls t) n then some (.scan 0) else none
  | .ret t =>
      match γ.calls t with
      | [] => none
      | f :: _ => if γ.live t ∧ neverReturns f.nr = false then some (.clear f.slot) else none
  | .create _ _ | .exit _ => none

/-- The steps that do not use the table. -/
def pure (γ : Threads Tid) : Act Tid → Option (Threads Tid)
  | .call _ _ | .ret _ => none
  | .create t u =>
      match γ.calls t with
      | ⟨.clone, _⟩ :: _ =>
          if γ.live t ∧ u ∉ γ.threads then some { γ with threads := insert u γ.threads } else none
      | _ => none
  | .exit t =>
      match γ.calls t with
      | [⟨.exit, _⟩] => if γ.live t then some { γ with ended := insert t γ.ended } else none
      | _ => none

/-- The calls after a claim returned the entry `i`, or a release returned. -/
def fin (γ : Threads Tid) : Act Tid → Nat → Threads Tid
  | .call t n, i => { γ with calls := Function.update γ.calls t (⟨n, i⟩ :: γ.calls t) }
  | .ret t, _ => { γ with calls := Function.update γ.calls t (γ.calls t).tail }
  | .create _ _, _ | .exit _, _ => γ

variable {γ γ' : Threads Tid}

/-- The operation of a thread depends on its own calls and on whether it lives. -/
theorem op_congr {a : Act Tid} {k : SlotPc} (h : γ.op a = some k)
    (hcalls : γ'.calls (who a) = γ.calls (who a)) (hlive : γ.live (who a) → γ'.live (who a)) :
    γ'.op a = some k := by
  cases a with
  | call t n =>
      simp only [op, who] at h hcalls hlive ⊢
      split at h
      · rename_i hc
        rw [hcalls, if_pos ⟨hlive hc.1, hc.2⟩]
        exact h
      · cases h
  | ret t =>
      simp only [op, who] at h hcalls hlive ⊢
      rw [hcalls]
      split at h
      · cases h
      · split at h
        · rename_i hc
          simp only [hc.2, and_true, if_pos (hlive hc.1)]
          exact h
        · cases h
  | create t u | exit t => cases h

/-- A step that does not use the table: a thread starts, or the one that steps ends. -/
theorem pure_cases {a : Act Tid} (h : γ.pure a = some γ') :
    (∃ u, γ' = { γ with threads := insert u γ.threads }) ∨
      γ' = { γ with ended := insert (who a) γ.ended } := by
  cases a with
  | call t n | ret t => cases h
  | create t u =>
      simp only [pure] at h
      split at h
      · split at h
        · exact .inl ⟨u, (Option.some.inj h).symm⟩
        · cases h
      · cases h
  | exit t =>
      simp only [pure] at h
      split at h
      · split at h
        · exact .inr (Option.some.inj h).symm
        · cases h
      · cases h

/-- Neither of the others nor of their lives does a step know. -/
def client (Tid : Type*) [DecidableEq Tid] : Client (Threads Tid) Tid (Act Tid) SlotPc Nat where
  who := who
  op := op
  pure := pure
  fin := fin
  stable_pure := by
    intro γ γ' a b k hb hne ha
    rcases pure_cases hb with ⟨u, rfl⟩ | rfl
    · exact op_congr ha rfl fun hl => ⟨Finset.mem_insert_of_mem hl.1, hl.2⟩
    · refine op_congr ha rfl fun hl => ⟨hl.1, fun hmem => ?_⟩
      rcases Finset.mem_insert.mp hmem with heq | hmem
      · exact hne heq.symm
      · exact hl.2 hmem
  stable_fin := by
    intro γ a b k k' r _ hne ha
    have hcalls : (fin γ b r).calls (who a) = γ.calls (who a) := by
      cases b with
      | call t n | ret t => exact Function.update_of_ne (Ne.symm hne) _ _
      | create t u | exit t => rfl
    have hlive : γ.live (who a) → (fin γ b r).live (who a) := by
      cases b <;> exact id
    exact op_congr ha hcalls hlive

end Threads

open Threads (join)

/-- One thread, outside the wrapper, and an empty table. -/
def Booted (s : Threads Tid × SlotTable) : Prop := ∃ main, join s = State.boot main

/-- The threads in single accesses. -/
def spinSlots (Tid : Type*) [DecidableEq Tid] :
    TSys (SpinState (Threads Tid) Tid (Act Tid) SlotTable SlotPc Nat) (SpinAct Tid (Act Tid)) :=
  spinSys slotSection (Threads.client Tid) Booted

/-- The threads in whole operations. -/
def wholeSlots (Tid : Type*) [DecidableEq Tid] : TSys (Threads Tid × SlotTable) (Act Tid) :=
  atomicSys slotSection (Threads.client Tid) Booted

/-- A whole operation is a step of `slotSys`. -/
theorem join_next {s s' : Threads Tid × SlotTable} {a : Act Tid}
    (h : (wholeSlots Tid).next s a = some s') : (slotSys Tid).next (join s) a = some (join s') := by
  obtain ⟨γ, table⟩ := s
  cases hop : γ.op a with
  | some k =>
      rw [wholeSlots, atomic_next_op (show (Threads.client Tid).op γ a = some k from hop)] at h
      cases h
      cases a with
      | call t n =>
          simp only [Threads.op] at hop
          split at hop
          · rename_i hc
            cases hop
            rw [slotRun_claim]
            exact if_pos hc
          · cases hop
      | ret t =>
          simp only [Threads.op] at hop
          split at hop
          · cases hop
          · rename_i f fs hcalls
            split at hop
            · rename_i hc
              cases hop
              simp only [slotSys, State.next, join, Threads.client, Threads.fin, hcalls,
                List.tail_cons]
              exact if_pos hc
            · cases hop
      | create t u | exit t => cases hop
  | none =>
      rw [wholeSlots, atomic_next_pure (show (Threads.client Tid).op γ a = none from hop)] at h
      obtain ⟨γ', hγ', rfl⟩ := Option.map_eq_some_iff.mp h
      cases a with
      | call t n | ret t => cases hγ'
      | create t u =>
          simp only [Threads.client, Threads.pure] at hγ'
          split at hγ'
          · rename_i i fs hcalls
            split at hγ'
            · rename_i hc
              cases hγ'
              simp only [slotSys, State.next, join, hcalls]
              exact if_pos hc
            · cases hγ'
          · cases hγ'
      | exit t =>
          simp only [Threads.client, Threads.pure] at hγ'
          split at hγ'
          · rename_i i hcalls
            split at hγ'
            · rename_i hc
              cases hγ'
              simp only [slotSys, State.next, join, hcalls]
              exact if_pos hc
            · cases hγ'
          · cases hγ'

/-- A claim returns an entry of the table. -/
def ClaimsEntry : Act Tid → Nat → Prop
  | .call _ _, i => i < maxNoOfThreads
  | _, _ => True

instance : (a : Act Tid) → (i : Nat) → Decidable (ClaimsEntry a i)
  | .call _ _, i => inferInstanceAs (Decidable (i < maxNoOfThreads))
  | .ret _, _ | .create _ _, _ | .exit _, _ => inferInstanceAs (Decidable True)

/-- Steps that do not use the table need nothing. -/
abbrev AnyPure : Threads Tid → Act Tid → Prop := fun _ _ => True

/-- Claims that return an entry are in range. -/
theorem inRange_of_meets {s : Threads Tid × SlotTable} {s' : State Tid} {a : Act Tid}
    (h : MeetsWhole slotSection (Threads.client Tid) AnyPure ClaimsEntry s a)
    (hn : (slotSys Tid).next (join s) a = some s') : InRange (join s) a := by
  cases a with
  | call t n =>
      have hop : (Threads.client Tid).op s.1 (.call t n) = some (.scan 0) := by
        refine if_pos ?_
        have hn : (if (join s).live t ∧ mayCall ((join s).calls t) n then _ else none) =
          some s' := hn
        split at hn
        · rename_i hc
          exact hc
        · cases hn
      rw [MeetsWhole, hop] at h
      have hlt : (slotSection.run (.scan 0) s.2).1 < maxNoOfThreads := h
      rw [slotRun_claim] at hlt
      exact hlt
  | ret t | create t u | exit t => trivial

/-- Whole operations are steps of `slotSys`. -/
theorem whole_simulates :
    TSys.Simulates (wholeSlots Tid) (slotSys Tid)
      (MeetsWhole slotSection (Threads.client Tid) AnyPure ClaimsEntry) InRange
      fun s t => t = join s where
  init s hs := ⟨join s, hs, rfl⟩
  step s t a s' h hmeets hn := by
    subst h
    have hn' := join_next hn
    exact .inr ⟨a, join s', inRange_of_meets hmeets hn', hn', rfl⟩

/-- **Single accesses.** In every run of the threads in single accesses, whose claims return
entries of the table: at most one thread is between lock and unlock, and the lock word is 0
exactly when none is; the calls and their entries are those of a run of `slotSys`, with the
same table while the lock is free; and no two calls in progress hold the same entry. -/
theorem spinSlots_refine {as : List (SpinAct Tid (Act Tid))}
    {s : SpinState (Threads Tid) Tid (Act Tid) SlotTable SlotPc Nat}
    (h : (spinSlots Tid).Run (Meets AnyPure ClaimsEntry) as s) :
    (∀ t u, (s.pc t).inside = true → (s.pc u).inside = true → t = u) ∧
    (s.lock = 0 ↔ ∀ t, (s.pc t).inside = false) ∧
    (∃ bs table, (slotSys Tid).Run InRange bs (join (s.client, table)) ∧
      (s.lock = 0 → table = s.obj)) ∧
    (∀ t, ((s.client.calls t).map Frame.slot).Nodup) ∧
    ∀ t u, t ≠ u →
      List.Disjoint ((s.client.calls t).map Frame.slot) ((s.client.calls u).map Frame.slot) := by
  obtain ⟨as', st, hrun, hrel⟩ := h.simulate (spin_simulates AnyPure ClaimsEntry)
  obtain ⟨bs, s', hrun', rfl⟩ := hrun.simulate whole_simulates
  obtain ⟨γ, table⟩ := st
  obtain rfl : γ = s.client := hrel.client
  have hinv := inv_of_run hrun'
  exact ⟨hrel.inside, hrel.lock, ⟨bs, table, hrun', hrel.obj⟩, hinv.nodup, hinv.apart⟩

/-- Thread 1 is about to give the lock back after its claim, thread 0 spins to release the
slot of its `clone`. -/
def spinningRun : List (SpinAct Nat (Act Nat)) :=
  [.enter (.call 0 .clone), .move 0, .move 0, .move 0, .move 0, .move 0, .pure (.create 0 1),
   .enter (.call 1 .write), .move 1, .move 1, .enter (.ret 0), .move 0, .move 1, .move 0, .move 1,
   .move 1, .move 0]

theorem spinSlots_refine_spinning :
    ∃ s, (spinSlots Nat).Run (Meets AnyPure ClaimsEntry) spinningRun s ∧ s.lock = ebusy ∧
      (s.lock = 0 ↔ ∀ t, (s.pc t).inside = false) := by
  obtain ⟨s, hrun, hlock⟩ := TSys.exists_run (spinSlots Nat) (Meets AnyPure ClaimsEntry) spinningRun
    (s := ⟨⟨fun _ => [], {0}, ∅⟩, fun _ => 0, 0, fun _ => .outside⟩) ⟨⟨0, rfl⟩, rfl, fun _ => rfl⟩
    (fun s => s.lock) (b := ebusy) (by decide +kernel)
  exact ⟨s, hrun, hlock, (spinSlots_refine hrun).2.1⟩

end Porpoise.Slots
