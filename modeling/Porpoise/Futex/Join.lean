import Porpoise.Futex.ObjectTable
import Porpoise.Lib.TSys

/-!
# Termination detection in `pthread_join`

One target thread and one joiner share the enclave word
`w = self->detach_state`. The kernel sees only mirrors of it, untrusted words
found through `object_table`:

* the target registers a mirror with `set_tid_address`, runs, sets `w` to
  `DT_EXITED` and executes `SYS_exit`, on which the kernel stores 0 in the
  registered mirror and wakes its waiter;
* the joiner repeats: read `w`, stop at `DT_EXITED`, else wait on the futex `w`
  with the value read, that is refresh a mirror from `w` and sleep on it if it
  still holds that value.

A mirror is refreshed by two steps, the load of `w` and the store of what was
loaded. A copy to `NULL`, when there is no block or no unused entry, faults and
ends the process, so the step is not enabled.
-/

namespace Porpoise.Futex

open Porpoise.Lib

/-- The values of `detach_state` of a joinable thread. -/
def dtExited : Nat := 0
def dtExiting : Nat := 1
def dtJoinable : Nat := 2

/-- Where the target is, with its locals. -/
inductive TargetPc
  | look
  | insert
  | load (out : Addr)
  | store (out : Addr) (v : Nat)
  /-- `*(long*)out_tidptr = (long)tidptr` comes next. -/
  | storePtr (out : Addr)
  | register (out : Addr)
  | running
  /-- The `a_cas` to `DT_EXITING` is done. -/
  | exiting
  /-- `w` is `DT_EXITED`, and `SYS_exit` comes next. -/
  | exited
  | done
  deriving DecidableEq

/-- Where the joiner is, with its locals; `val` is the value it read. -/
inductive JoinerPc
  | read
  | look (val : Nat)
  | insert (val : Nat)
  | load (val : Nat) (out : Addr)
  | store (val : Nat) (out : Addr) (v : Nat)
  /-- In the kernel, before the comparison. -/
  | wait (val : Nat) (out : Addr)
  | asleep (out : Addr)
  | joined
  deriving DecidableEq

structure JoinState where
  /-- `detach_state`. -/
  w : Nat
  table : ObjectTable
  /-- The untrusted words, as the kernel compares them. -/
  mirror : Addr → Nat
  /-- The kernel's `clear_child_tid` of the target. -/
  childTid : Addr
  target : TargetPc
  joiner : JoinerPc

/-- Who moves. If the step stores a block, `out` is the one `malloc_user`
returned. -/
inductive JoinAct
  | target (out : Addr)
  | joiner (out : Addr)
  deriving DecidableEq

namespace JoinState

/-- The target's `insert`, or the joiner's: the entry is stored and the copy
goes to the block. -/
def stored (s : JoinState) (key out : Addr) : Option (Addr × ObjectTable) :=
  let r := setOutAddress s.table key out
  if r.1 = null then none else some r

/-- `SYS_exit` of the target: `put_user(0, clear_child_tid)` and a wake. -/
def exit (s : JoinState) : JoinState :=
  { s with
    mirror := Function.update s.mirror s.childTid 0
    joiner := if s.joiner = .asleep s.childTid then .read else s.joiner
    target := .done }

/-- `set_tid_address(&w)`, the end of `__pthread_exit` and the exit. `key` is
the address of `w`. -/
def targetNext (key : Addr) (s : JoinState) (out : Addr) : Option JoinState :=
  match s.target with
  | .look =>
      let o := getOutAddress s.table key
      some { s with target := if o = null then .insert else .load o }
  | .insert =>
      (s.stored key out).map fun r => { s with table := r.2, target := .load r.1 }
  | .load o => some { s with target := .store o s.w }
  | .store o v =>
      some { s with mirror := Function.update s.mirror o v, target := .storePtr o }
  | .storePtr o =>
      some { s with mirror := Function.update s.mirror o (key % 2 ^ 32), target := .register o }
  | .register o => some { s with childTid := o, target := .running }
  | .running =>
      some { s with w := if s.w = dtJoinable then dtExiting else s.w, target := .exiting }
  | .exiting => some { s with w := dtExited, target := .exited }
  | .exited => some s.exit
  | .done => none

/-- The loop of `__pthread_timedjoin_np` without a timeout. -/
def joinerNext (key : Addr) (s : JoinState) (out : Addr) : Option JoinState :=
  match s.joiner with
  | .read => some { s with joiner := if s.w = dtExited then .joined else .look s.w }
  | .look val =>
      let o := getOutAddress s.table key
      some { s with joiner := if o = null then .insert val else .load val o }
  | .insert val =>
      (s.stored key out).map fun r => { s with table := r.2, joiner := .load val r.1 }
  | .load val o => some { s with joiner := .store val o s.w }
  | .store val o v =>
      some { s with mirror := Function.update s.mirror o v, joiner := .wait val o }
  | .wait val o => some { s with joiner := if s.mirror o = val then .asleep o else .read }
  | .asleep _ | .joined => none

/-- One step; `none` when it is not enabled. -/
def next (key : Addr) (s : JoinState) : JoinAct → Option JoinState
  | .target out => s.targetNext key out
  | .joiner out => s.joinerNext key out

/-- The joiner may start from here on: `pthread_create` has returned, and the
target has not begun. -/
def Start (s : JoinState) : Prop :=
  s.w = dtJoinable ∧ BlocksSet s.table ∧ Packed s.table ∧ s.target = .look ∧ s.joiner = .read

end JoinState

/-- A target and a joiner; `key` is the address of `w`. -/
def joinSys (key : Addr) : TSys JoinState JoinAct where
  init := JoinState.Start
  next := JoinState.next key

/-- The target has completed `SYS_exit` and the joiner sleeps: nobody is left
to wake it. -/
def Hung (s : JoinState) : Prop := s.target = .done ∧ ∃ o, s.joiner = .asleep o

/-- The condition on a step:

* the target stores a block for `w` only while look-ups of it still fail, and
  the joiner only then or when `w` is no longer what it read;
* `SYS_exit` does not fall between the joiner's load of the value it waits on
  and its store to the mirror. -/
def Orderly (key : Addr) (s : JoinState) : JoinAct → Prop
  | .target _ =>
      (s.target = .insert → getOutAddress s.table key = null) ∧
      (s.target = .exited → ∀ val o, s.joiner ≠ .store val o val)
  | .joiner _ => ∀ val, s.joiner = .insert val → getOutAddress s.table key = null ∨ s.w ≠ val

/-! ## The invariant -/

/-- `o` is the mirror that look-ups of `key` find. -/
def Current (key : Addr) (s : JoinState) (o : Addr) : Prop :=
  o ≠ null ∧ getOutAddress s.table key = o

/-- The target's place in its code determines `w`, and from its look-up on it
works on the current mirror. -/
def TargetOk (key : Addr) (s : JoinState) : Prop :=
  match s.target with
  | .look | .insert => s.w = dtJoinable
  | .load o | .store o _ | .storePtr o | .register o => s.w = dtJoinable ∧ Current key s o
  | .running => s.w = dtJoinable ∧ Current key s s.childTid
  | .exiting => s.w = dtExiting ∧ Current key s s.childTid
  | .exited => s.w = dtExited ∧ Current key s s.childTid
  | .done => s.w = dtExited

/-- The joiner will not sleep unless on the current mirror, before the end of
the target. -/
def JoinerOk (key : Addr) (s : JoinState) : Prop :=
  match s.joiner with
  | .read | .joined => True
  | .look val | .insert val => val ≠ 0 ∧ s.w ≤ val
  | .load val o => val ≠ 0 ∧ s.w ≤ val ∧ (Current key s o ∨ s.w < val)
  | .store val o v => val ≠ 0 ∧ (v ≠ val ∨ Current key s o ∧ s.target ≠ .done)
  | .wait val o => val ≠ 0 ∧ (s.mirror o ≠ val ∨ Current key s o ∧ s.target ≠ .done)
  | .asleep o => Current key s o ∧ s.target ≠ .done

structure JoinInv (key : Addr) (s : JoinState) : Prop where
  blocksSet : BlocksSet s.table
  packed : Packed s.table
  target : TargetOk key s
  joiner : JoinerOk key s

variable {key : Addr} {s s' : JoinState}

theorem joinInv_start (h : s.Start) : JoinInv key s := by
  obtain ⟨hw, hb, hp, ht, hj⟩ := h
  refine ⟨hb, hp, ?_, ?_⟩
  · simpa [TargetOk, ht] using hw
  · simp [JoinerOk, hj]

/-- What storing an entry does: the first block for `key` becomes current, and
a current mirror stays current. -/
theorem stored_spec {r : Addr × ObjectTable} {out : Addr} (hb : BlocksSet s.table)
    (hp : Packed s.table) (hkey : key ≠ null) (h : s.stored key out = some r) :
    r.1 ≠ null ∧ BlocksSet r.2 ∧ Packed r.2 ∧
    (getOutAddress s.table key = null → getOutAddress r.2 key = r.1) ∧
    (getOutAddress s.table key ≠ null → getOutAddress r.2 key = getOutAddress s.table key) := by
  simp only [JoinState.stored] at h
  split at h
  · cases h
  · rename_i hne
    cases h
    by_cases hroom : HasRoom s.table
    · obtain ⟨i, hi, hnull, hbefore, heq⟩ := setOutAddress_of_hasRoom key out hroom
      rw [heq] at hne ⊢
      refine ⟨hne, hb.fill hne, hp.fill hbefore hkey, fun habs => ?_, fun hfound => ?_⟩
      · exact getOutAddress_fill_self hi ((getOutAddress_eq_null_iff hb hkey).mp habs)
      · exact getOutAddress_fill_of_found hp hnull hkey hfound
    · rw [setOutAddress_of_not_hasRoom key out hroom] at hne
      exact absurd rfl hne

/-- Storing an entry keeps current mirrors current. -/
theorem current_of_stored {r : Addr × ObjectTable} {out : Addr} (hi : JoinInv key s)
    (hkey : key ≠ null) (h : s.stored key out = some r) (hs' : s'.table = r.2) {o : Addr}
    (hcur : Current key s o) : Current key s' o := by
  obtain ⟨-, -, -, -, hkeep⟩ := stored_spec hi.blocksSet hi.packed hkey h
  refine ⟨hcur.1, ?_⟩
  rw [hs', hkeep (by rw [hcur.2]; exact hcur.1)]
  exact hcur.2

/-- A step of the target before its end does not disturb the joiner. -/
theorem JoinerOk.of_target (h : JoinerOk key s) (hj : s'.joiner = s.joiner) (hw : s'.w ≤ s.w)
    (hcur : ∀ o, Current key s o → Current key s' o) (hlive' : s'.target ≠ .done)
    (hm : ∀ o, ¬ Current key s o → s'.mirror o = s.mirror o) : JoinerOk key s' := by
  unfold JoinerOk at h ⊢
  rw [hj]
  cases hpc : s.joiner with
  | read | joined => trivial
  | look val | insert val =>
      rw [hpc] at h
      exact ⟨h.1, by omega⟩
  | load val o =>
      rw [hpc] at h
      obtain ⟨hval, hle, hc⟩ := h
      exact ⟨hval, by omega, hc.imp (hcur o) fun hlt => by omega⟩
  | store val o v =>
      rw [hpc] at h
      exact ⟨h.1, h.2.imp_right fun hc => ⟨hcur o hc.1, hlive'⟩⟩
  | wait val o =>
      rw [hpc] at h
      refine ⟨h.1, ?_⟩
      by_cases hc : Current key s o
      · exact .inr ⟨hcur o hc, hlive'⟩
      · rw [hm o hc]
        exact h.2.imp_right fun hc' => absurd hc'.1 hc
  | asleep o =>
      rw [hpc] at h
      exact ⟨hcur o h.1, hlive'⟩

/-- Nor does a store of the target to its own mirror. -/
theorem JoinerOk.of_ownStore {own : Addr} {v : Nat} (h : JoinerOk key s)
    (hown : Current key s own) (hj : s'.joiner = s.joiner) (hw : s'.w ≤ s.w)
    (hcur : ∀ o, Current key s o → Current key s' o) (hlive' : s'.target ≠ .done)
    (hm : s'.mirror = Function.update s.mirror own v) : JoinerOk key s' := by
  refine h.of_target hj hw hcur hlive' fun o hc => ?_
  have ho : o ≠ own := by
    rintro rfl
    exact hc hown
  rw [hm]
  exact Function.update_of_ne ho _ _

/-- A step of the joiner does not disturb the target. -/
theorem TargetOk.of_joiner (h : TargetOk key s) (ht : s'.target = s.target) (hw : s'.w = s.w)
    (hc : s'.childTid = s.childTid) (hcur : ∀ o, Current key s o → Current key s' o) :
    TargetOk key s' := by
  unfold TargetOk at h ⊢
  rw [ht, hw, hc]
  cases hpc : s.target with
  | look | insert | done =>
      rw [hpc] at h
      exact h
  | load o | store o _ | storePtr o | register o | running | exiting | exited =>
      rw [hpc] at h
      exact ⟨h.1, hcur _ h.2⟩

/-- After `SYS_exit` the joiner is not asleep, and about to sleep only if its
store to the mirror was overtaken. -/
theorem JoinerOk.exit (h : JoinerOk key s) (hw : s.w = dtExited) (hreg : Current key s s.childTid)
    (hord : ∀ val o, s.joiner ≠ .store val o val) : JoinerOk key s.exit := by
  unfold JoinerOk at h
  cases hpc : s.joiner with
  | read | joined => simp [JoinerOk, JoinState.exit, hpc]
  | look val | insert val =>
      rw [hpc] at h
      simpa [JoinerOk, JoinState.exit, hpc] using h
  | load val o =>
      rw [hpc] at h
      have hlt : s.w < val := by
        rw [hw, dtExited]
        exact Nat.pos_of_ne_zero h.1
      simp only [JoinerOk, JoinState.exit, hpc, reduceCtorEq, if_false]
      exact ⟨h.1, h.2.1, .inr hlt⟩
  | store val o v =>
      rw [hpc] at h
      have hne : v ≠ val := by
        rintro rfl
        exact hord v o hpc
      simp only [JoinerOk, JoinState.exit, hpc, reduceCtorEq, if_false]
      exact ⟨h.1, .inl hne⟩
  | wait val o =>
      rw [hpc] at h
      simp only [JoinerOk, JoinState.exit, hpc, reduceCtorEq, if_false]
      refine ⟨h.1, .inl ?_⟩
      by_cases ho : o = s.childTid
      · subst ho
        rw [Function.update_self]
        exact h.1.symm
      · -- only the registered mirror is current
        rw [Function.update_of_ne ho]
        exact h.2.resolve_right fun hc => ho (hc.1.2.symm.trans hreg.2)
  | asleep o =>
      rw [hpc] at h
      have ho : o = s.childTid := h.1.2.symm.trans hreg.2
      simp [JoinerOk, JoinState.exit, hpc, ho]

/-- The step lemma of the target. -/
theorem JoinInv.targetNext {out : Addr} (h : JoinInv key s) (hkey : key ≠ null)
    (hord : Orderly key s (.target out)) (hn : s.targetNext key out = some s') :
    JoinInv key s' := by
  have ht := h.target
  unfold TargetOk at ht
  unfold JoinState.targetNext at hn
  cases hpc : s.target with
  | look =>
      simp only [hpc] at ht hn
      cases hn
      refine ⟨h.blocksSet, h.packed, ?_, ?_⟩
      · by_cases hnull : getOutAddress s.table key = null
        · simpa [TargetOk, hnull] using ht
        · simpa [TargetOk, hnull, Current] using ht
      · refine h.joiner.of_target rfl (Nat.le_refl _) (fun o hc => hc) ?_ fun o _ => rfl
        dsimp only
        split <;> simp
  | insert =>
      simp only [hpc] at ht hn
      obtain ⟨r, hr, rfl⟩ := Option.map_eq_some_iff.mp hn
      obtain ⟨hne, hb, hp, hnew, -⟩ := stored_spec h.blocksSet h.packed hkey hr
      refine ⟨hb, hp, ⟨ht, hne, hnew (hord.1 hpc)⟩, ?_⟩
      exact h.joiner.of_target rfl (Nat.le_refl _)
        (fun o hc => current_of_stored h hkey hr rfl hc) (by simp) fun o _ => rfl
  | load o =>
      simp only [hpc] at ht hn
      cases hn
      refine ⟨h.blocksSet, h.packed, ht, ?_⟩
      exact h.joiner.of_target rfl (Nat.le_refl _) (fun o hc => hc) (by simp) fun o _ => rfl
  | store o v =>
      simp only [hpc] at ht hn
      cases hn
      refine ⟨h.blocksSet, h.packed, ht, ?_⟩
      exact h.joiner.of_ownStore ht.2 rfl (Nat.le_refl _) (fun o hc => hc) (by simp) rfl
  | storePtr o =>
      simp only [hpc] at ht hn
      cases hn
      refine ⟨h.blocksSet, h.packed, ht, ?_⟩
      exact h.joiner.of_ownStore ht.2 rfl (Nat.le_refl _) (fun o hc => hc) (by simp) rfl
  | register o =>
      simp only [hpc] at ht hn
      cases hn
      refine ⟨h.blocksSet, h.packed, ht, ?_⟩
      exact h.joiner.of_target rfl (Nat.le_refl _) (fun o hc => hc) (by simp) fun o _ => rfl
  | running =>
      simp only [hpc] at ht hn
      cases hn
      refine ⟨h.blocksSet, h.packed, ⟨if_pos ht.1, ht.2⟩, ?_⟩
      refine h.joiner.of_target rfl ?_ (fun o hc => hc) (by simp) fun o _ => rfl
      dsimp only
      rw [if_pos ht.1, ht.1]
      decide
  | exiting =>
      simp only [hpc] at ht hn
      cases hn
      refine ⟨h.blocksSet, h.packed, ⟨rfl, ht.2⟩, ?_⟩
      exact h.joiner.of_target rfl (Nat.zero_le _) (fun o hc => hc) (by simp) fun o _ => rfl
  | exited =>
      simp only [hpc] at ht hn
      cases hn
      exact ⟨h.blocksSet, h.packed, ht.1, h.joiner.exit ht.1 ht.2 (hord.2 hpc)⟩
  | done =>
      simp only [hpc] at hn
      cases hn

/-- The step lemma of the joiner. -/
theorem JoinInv.joinerNext {out : Addr} (h : JoinInv key s) (hkey : key ≠ null)
    (hord : Orderly key s (.joiner out)) (hn : s.joinerNext key out = some s') :
    JoinInv key s' := by
  have hj := h.joiner
  unfold JoinerOk at hj
  unfold JoinState.joinerNext at hn
  -- once the target is done, `w` stays at `DT_EXITED`
  have hdone : s.target = .done → s.w = dtExited := by
    intro hd
    have ht := h.target
    simpa only [TargetOk, hd] using ht
  cases hpc : s.joiner with
  | read =>
      simp only [hpc] at hn
      cases hn
      refine ⟨h.blocksSet, h.packed, h.target.of_joiner rfl rfl rfl fun o hc => hc, ?_⟩
      by_cases hw : s.w = dtExited
      · simp [JoinerOk, hw]
      · simp only [JoinerOk, if_neg hw]
        exact ⟨hw, Nat.le_refl _⟩
  | look val =>
      simp only [hpc] at hj hn
      cases hn
      refine ⟨h.blocksSet, h.packed, h.target.of_joiner rfl rfl rfl fun o hc => hc, ?_⟩
      by_cases hnull : getOutAddress s.table key = null
      · simpa [JoinerOk, hnull] using hj
      · simpa [JoinerOk, hnull, Current] using hj
  | insert val =>
      simp only [hpc] at hj hn
      obtain ⟨r, hr, rfl⟩ := Option.map_eq_some_iff.mp hn
      obtain ⟨hne, hb, hp, hnew, -⟩ := stored_spec h.blocksSet h.packed hkey hr
      refine ⟨hb, hp, h.target.of_joiner rfl rfl rfl
        fun o hc => current_of_stored h hkey hr rfl hc, hj.1, hj.2, ?_⟩
      rcases hord val hpc with habs | hw
      · exact .inl ⟨hne, hnew habs⟩
      · exact .inr (Nat.lt_of_le_of_ne hj.2 hw)
  | load val o =>
      simp only [hpc] at hj hn
      cases hn
      refine ⟨h.blocksSet, h.packed, h.target.of_joiner rfl rfl rfl fun o hc => hc, hj.1, ?_⟩
      by_cases hw : s.w = val
      · refine .inr ⟨hj.2.2.resolve_right (by omega), fun hd => ?_⟩
        exact hj.1 (hw.symm.trans (hdone hd))
      · exact .inl hw
  | store val o v =>
      simp only [hpc] at hj hn
      cases hn
      refine ⟨h.blocksSet, h.packed, h.target.of_joiner rfl rfl rfl fun o hc => hc, hj.1, ?_⟩
      refine hj.2.imp_left fun hne => ?_
      show Function.update s.mirror o v o ≠ val
      rwa [Function.update_self]
  | wait val o =>
      simp only [hpc] at hj hn
      cases hn
      refine ⟨h.blocksSet, h.packed, h.target.of_joiner rfl rfl rfl fun o hc => hc, ?_⟩
      by_cases hm : s.mirror o = val
      · simp only [JoinerOk, if_pos hm]
        exact hj.2.resolve_left fun hne => hne hm
      · simp [JoinerOk, hm]
  | asleep o =>
      simp only [hpc] at hn
      cases hn
  | joined =>
      simp only [hpc] at hn
      cases hn

/-- **No hang in `pthread_join`.** In every run whose steps are orderly the
joiner does not sleep once the target has completed `SYS_exit`. -/
theorem no_hang {as : List JoinAct} (hkey : key ≠ null)
    (h : (joinSys key).Run (Orderly key) as s) : ¬ Hung s := by
  have hinv : JoinInv key s := by
    refine h.invariant (I := JoinInv key) (fun _ => joinInv_start) ?_
    intro s a s' hi hg hn
    cases a with
    | target out => exact hi.targetNext hkey hg hn
    | joiner out => exact hi.joinerNext hkey hg hn
  rintro ⟨hd, o, hpc⟩
  have hj := hinv.joiner
  simp only [JoinerOk, hpc] at hj
  exact hj.2 hd

/-- A word at 64, the first one with a mirror. -/
def joinStart : JoinState :=
  { w := dtJoinable, table := emptyTable, mirror := fun _ => 0, childTid := null
    target := .look, joiner := .read }

theorem start_joinStart : joinStart.Start :=
  ⟨rfl, blocksSet_empty, packed_empty, rfl, rfl⟩

instance (key : Addr) (s : JoinState) (a : JoinAct) : Decidable (Orderly key s a) :=
  match a with
  | .target _ =>
      have : Decidable (∀ val o, s.joiner ≠ .store val o val) :=
        match hj : s.joiner with
        | .store val o v =>
            decidable_of_iff (v ≠ val) ⟨fun h _ _ e => by cases e; exact h rfl,
              fun h e => h val o (by rw [e])⟩
        | .read | .look _ | .insert _ | .load _ _ | .wait _ _ | .asleep _ | .joined =>
            .isTrue fun _ _ e => by cases e
      inferInstanceAs (Decidable (_ ∧ _))
  | .joiner _ =>
      match hj : s.joiner with
      | .insert val =>
          decidable_of_iff (getOutAddress s.table key = null ∨ s.w ≠ val)
            ⟨fun h _ e => by rw [hj] at e; cases e; exact h, fun h => h val hj⟩
      | .read | .look _ | .load _ _ | .store _ _ _ | .wait _ _ | .asleep _ | .joined =>
          .isTrue fun _ e => by rw [hj] at e; cases e

/-- The target's steps in one go; the first block it may store is at 100. -/
def targetRuns (n : Nat) : List JoinAct := List.replicate n (.target 100)

/-- The joiner's steps in one go; the first block it may store is at 200. -/
def joinerRuns (n : Nat) : List JoinAct := List.replicate n (.joiner 200)

/-- The joiner registers first, sleeps, and is woken by the exit. -/
theorem no_hang_woken :
    ∃ s, (joinSys 64).Run (Orderly 64) (joinerRuns 6 ++ targetRuns 8 ++ joinerRuns 1) s ∧
      s.joiner = .joined ∧ ¬ Hung s := by
  obtain ⟨s, hrun, hj⟩ := TSys.exists_run (joinSys 64) (Orderly 64)
    (joinerRuns 6 ++ targetRuns 8 ++ joinerRuns 1) start_joinStart JoinState.joiner
    (b := .joined) (by decide +kernel)
  exact ⟨s, hrun, hj, no_hang (by decide) hrun⟩

/-- Two ways to hang: both threads store a mirror for `w`, and the kernel
clears the other one than the joiner sleeps on; or `SYS_exit` falls between
the joiner's load of `w` and its store to the mirror. -/
theorem no_hang_fails :
    (∃ s, (joinSys 64).Run TSys.Any
      (joinerRuns 2 ++ targetRuns 2 ++ joinerRuns 4 ++ targetRuns 7) s ∧ Hung s) ∧
    (∃ s, (joinSys 64).Run TSys.Any
      (targetRuns 6 ++ joinerRuns 3 ++ targetRuns 3 ++ joinerRuns 2) s ∧ Hung s) := by
  constructor
  · obtain ⟨s, hrun, hend⟩ := TSys.exists_run (joinSys 64) TSys.Any
      (joinerRuns 2 ++ targetRuns 2 ++ joinerRuns 4 ++ targetRuns 7) start_joinStart
      (fun s => (s.target, s.joiner)) (b := (.done, .asleep 200)) (by decide +kernel)
    obtain ⟨hd, hj⟩ := Prod.mk.inj hend
    exact ⟨s, hrun, hd, 200, hj⟩
  · obtain ⟨s, hrun, hend⟩ := TSys.exists_run (joinSys 64) TSys.Any
      (targetRuns 6 ++ joinerRuns 3 ++ targetRuns 3 ++ joinerRuns 2) start_joinStart
      (fun s => (s.target, s.joiner)) (b := (.done, .asleep 100)) (by decide +kernel)
    obtain ⟨hd, hj⟩ := Prod.mk.inj hend
    exact ⟨s, hrun, hd, 100, hj⟩

end Porpoise.Futex
