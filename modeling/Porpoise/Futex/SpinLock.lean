import Porpoise.Futex.Stability
import Porpoise.Lib.SpinLock

/-!
# The object table under its spin lock

`get_out_address` and the middle part of `set_out_address` walk the table entry by entry
under `object_table_lock`, and the latter fills an entry with two stores: the address first,
then the block. Another thread that runs between the two would find an entry for the address
with no block in it, were it not kept out by the lock.

* `tableSection`: the accesses; together they are `getOutAddress` and `setOutAddress`.
* `spinTable_stable`: in single accesses, too, look-ups are stable and injective, and no
  block of the table is freed.
-/

namespace Porpoise.Futex

open Porpoise.Lib

/-! ## The critical sections -/

/-- Where a thread is in a critical section. -/
inductive TablePc
  /-- About to compare `object_table[i].in` with the address, if there is an entry `i`. -/
  | look (key : Addr) (i : Nat)
  /-- About to read `object_table[i].out`. -/
  | fetch (i : Nat)
  /-- About to test `object_table[i].in`, if there is an entry `i`. -/
  | find (key out : Addr) (i : Nat)
  /-- About to store the address in entry `i`. -/
  | putIn (key out : Addr) (i : Nat)
  /-- About to store the block in it. -/
  | putOut (out : Addr) (i : Nat)

/-- What a critical section leads to: the block found, or whether an entry was filled. -/
inductive TableRes
  | found (out : Addr)
  | allocated (b : Bool)
  deriving DecidableEq

/-- One access. -/
def tableAccess : TablePc → ObjectTable → (TableRes ⊕ TablePc) × ObjectTable
  | .look key i, t =>
      if i < maxNoObjects then
        if (t i).in == key then (.inr (.fetch i), t) else (.inr (.look key (i + 1)), t)
      else (.inl (.found null), t)
  | .fetch i, t => (.inl (.found (t i).out), t)
  | .find key out i, t =>
      if i < maxNoObjects then
        if (t i).in == null then (.inr (.putIn key out i), t)
        else (.inr (.find key out (i + 1)), t)
      else (.inl (.allocated false), t)
  | .putIn key out i, t => (.inr (.putOut out i), fill t i ⟨key, (t i).out⟩)
  | .putOut out i, t => (.inl (.allocated true), fill t i ⟨(t i).in, out⟩)

/-- All accesses at once. -/
def tableRun : TablePc → ObjectTable → TableRes × ObjectTable
  | .look key i, t =>
      let i := scanFrom (fun i => (t i).in == key) maxNoObjects i
      (.found (if i < maxNoObjects then (t i).out else null), t)
  | .fetch i, t => (.found (t i).out, t)
  | .find key out i, t =>
      let i := scanFrom (fun i => (t i).in == null) maxNoObjects i
      if i < maxNoObjects then (.allocated true, fill t i ⟨key, out⟩) else (.allocated false, t)
  | .putIn key out i, t => (.allocated true, fill t i ⟨key, out⟩)
  | .putOut out i, t => (.allocated true, fill t i ⟨(t i).in, out⟩)

/-- The two stores fill the entry. -/
theorem fill_fill (t : ObjectTable) (i : Nat) (key out : Addr) (e : PtrMap) :
    fill (fill t i ⟨key, e.out⟩) i ⟨(fill t i ⟨key, e.out⟩ i).in, out⟩ = fill t i ⟨key, out⟩ := by
  funext j
  by_cases hj : j = i
  · rw [hj, fill_self, fill_self, fill_self]
  · rw [fill_of_ne hj, fill_of_ne hj, fill_of_ne hj]

/-- The critical sections of `object_table_lock`. -/
def tableSection : Section ObjectTable TablePc TableRes where
  access := tableAccess
  run := tableRun
  run_of_done := by
    intro k t r t' h
    cases k with
    | look key i =>
        simp only [tableAccess] at h
        split at h
        · split at h <;> cases h
        · rename_i hi
          cases h
          simp only [tableRun, scanFrom_of_ge hi, if_neg hi]
    | find key out i =>
        simp only [tableAccess] at h
        split at h
        · split at h <;> cases h
        · rename_i hi
          cases h
          simp only [tableRun, scanFrom_of_ge hi, if_neg hi]
    | fetch i | putOut out i =>
        cases h
        rfl
    | putIn key out i => cases h
  run_of_more := by
    intro k t k' t' h
    cases k with
    | look key i =>
        simp only [tableAccess] at h
        split at h
        · rename_i hi
          split at h
          · rename_i hin
            cases h
            simp only [tableRun, scanFrom_found (p := fun i => (t i).in == key) hi hin, if_pos hi]
          · rename_i hin
            cases h
            simp only [tableRun,
              scanFrom_next (p := fun i => (t i).in == key) hi (Bool.eq_false_iff.mpr hin)]
        · cases h
    | find key out i =>
        simp only [tableAccess] at h
        split at h
        · rename_i hi
          split at h
          · rename_i hin
            cases h
            simp only [tableRun, scanFrom_found (p := fun i => (t i).in == null) hi hin, if_pos hi]
          · rename_i hin
            cases h
            simp only [tableRun,
              scanFrom_next (p := fun i => (t i).in == null) hi (Bool.eq_false_iff.mpr hin)]
        · cases h
    | putIn key out i =>
        cases h
        simp only [tableRun, fill_fill t i key out (t i)]
    | fetch i | putOut out i => cases h

theorem tableRun_get (t : ObjectTable) (key : Addr) :
    tableSection.run (.look key 0) t = (.found (getOutAddress t key), t) := by
  show tableRun (.look key 0) t = _
  unfold getOutAddress
  simp only [tableRun, scanFrom_zero]

theorem tableRun_set (t : ObjectTable) (key out : Addr) :
    tableSection.run (.find key out 0) t =
      (.allocated (decide (HasRoom t)), (setOutAddress t key out).2) := by
  show tableRun (.find key out 0) t = _
  have hroom : HasRoom t ↔ scan (fun i => (t i).in == null) maxNoObjects < maxNoObjects := by
    rw [scan_lt_iff, HasRoom]
    simp
  unfold setOutAddress
  simp only [tableRun, scanFrom_zero, hroom]
  split <;> rename_i hi
  · rw [decide_eq_true hi]
  · rw [decide_eq_false hi]

/-! ## The threads -/

/-- The threads around the table, without the table. -/
structure TableClient (Tid : Type*) where
  pc : Tid → SetPc
  live : List Addr
  stored : List Addr
  gets : List (Addr × Addr)

variable {Tid : Type*} [DecidableEq Tid]

namespace TableClient

/-- With a table. -/
def join (s : TableClient Tid × ObjectTable) : TableState Tid :=
  ⟨s.2, s.1.pc, s.1.live, s.1.stored, s.1.gets⟩

def who : TableAct Tid → Tid
  | .get t _ | .malloc t _ _ | .insert t | .free t => t

/-- The critical section that a step begins in. -/
def op (γ : TableClient Tid) : TableAct Tid → Option TablePc
  | .get t key => if γ.pc t = .outside then some (.look key 0) else none
  | .insert t =>
      match γ.pc t with
      | .allocated key out => some (.find key out 0)
      | _ => none
  | .malloc _ _ _ | .free _ => none

/-- The steps that do not use the table: `malloc_user` and `free_user`. -/
def pure (γ : TableClient Tid) : TableAct Tid → Option (TableClient Tid)
  | .malloc t key out =>
      if γ.pc t = .outside then
        some { γ with
          pc := Function.update γ.pc t (.allocated key out)
          live := out :: γ.live }
      else none
  | .free t =>
      match γ.pc t with
      | .full out => some { γ with
          pc := Function.update γ.pc t .outside
          live := γ.live.filter (· ≠ out) }
      | _ => none
  | .get _ _ | .insert _ => none

/-- After a look-up, or after an entry was filled or none was found. -/
def fin (γ : TableClient Tid) : TableAct Tid → TableRes → TableClient Tid
  | .get _ key, .found out => { γ with gets := (key, out) :: γ.gets }
  | .insert t, .allocated ok =>
      match γ.pc t with
      | .allocated _ out =>
          if ok then
            { γ with pc := Function.update γ.pc t .outside, stored := out :: γ.stored }
          else { γ with pc := Function.update γ.pc t (.full out) }
      | _ => γ
  | _, _ => γ

variable {γ γ' : TableClient Tid}

omit [DecidableEq Tid] in
/-- The operation of a thread depends on its own place. -/
theorem op_congr {a : TableAct Tid} {k : TablePc} (h : γ.op a = some k)
    (hpc : γ'.pc (who a) = γ.pc (who a)) : γ'.op a = some k := by
  cases a with
  | get t key | insert t =>
      simp only [op, who] at h hpc ⊢
      rw [hpc]
      exact h
  | malloc t key out | free t => cases h

/-- A step that does not use the table moves its own thread. -/
theorem pure_pc {a : TableAct Tid} (h : γ.pure a = some γ') {u : Tid} (hu : u ≠ who a) :
    γ'.pc u = γ.pc u := by
  cases a with
  | get t key | insert t => cases h
  | malloc t key out =>
      simp only [pure] at h
      split at h
      · cases h
        exact Function.update_of_ne hu _ _
      · cases h
  | free t =>
      simp only [pure] at h
      split at h
      · cases h
        exact Function.update_of_ne hu _ _
      · cases h

/-- So does an operation that returns. -/
theorem fin_pc (γ : TableClient Tid) (a : TableAct Tid) (r : TableRes) {u : Tid}
    (hu : u ≠ who a) : (γ.fin a r).pc u = γ.pc u := by
  cases a with
  | malloc t key out | free t => rfl
  | get t key => cases r <;> rfl
  | insert t =>
      cases r with
      | found out => rfl
      | allocated ok =>
          simp only [fin]
          split
          · split
            · exact Function.update_of_ne hu _ _
            · exact Function.update_of_ne hu _ _
          · rfl

def client (Tid : Type*) [DecidableEq Tid] :
    Client (TableClient Tid) Tid (TableAct Tid) TablePc TableRes where
  who := who
  op := op
  pure := pure
  fin := fin
  stable_pure := fun hb hne ha => op_congr ha (pure_pc hb (Ne.symm hne))
  stable_fin := fun _ hne ha => op_congr ha (fin_pc _ _ _ (Ne.symm hne))

/-- `malloc_user` returns `NULL` or a block that is not in use. -/
def FreshAlloc (γ : TableClient Tid) : TableAct Tid → Prop
  | .malloc _ _ out => out = null ∨ out ∉ γ.live
  | _ => True

instance (γ : TableClient Tid) (a : TableAct Tid) : Decidable (FreshAlloc γ a) :=
  match a with
  | .malloc _ _ _ => inferInstanceAs (Decidable (_ ∨ _))
  | .get _ _ | .insert _ | .free _ => inferInstanceAs (Decidable True)

end TableClient

open TableClient (join FreshAlloc)

/-- Operations may return anything. -/
abbrev AnyRes : TableAct Tid → TableRes → Prop := fun _ _ => True

/-- The threads in single accesses. -/
def spinTable (Tid : Type*) [DecidableEq Tid] :
    TSys (SpinState (TableClient Tid) Tid (TableAct Tid) ObjectTable TablePc TableRes)
      (SpinAct Tid (TableAct Tid)) :=
  spinSys tableSection (TableClient.client Tid) fun s => join s = TableState.boot

/-- The threads in whole operations. -/
def wholeTable (Tid : Type*) [DecidableEq Tid] :
    TSys (TableClient Tid × ObjectTable) (TableAct Tid) :=
  atomicSys tableSection (TableClient.client Tid) fun s => join s = TableState.boot

/-- A whole operation is a step of `tableSys`. -/
theorem join_next {s s' : TableClient Tid × ObjectTable} {a : TableAct Tid}
    (h : (wholeTable Tid).next s a = some s') :
    (tableSys Tid).next (join s) a = some (join s') := by
  obtain ⟨γ, table⟩ := s
  cases hop : γ.op a with
  | some k =>
      rw [wholeTable, atomic_next_op (show (TableClient.client Tid).op γ a = some k from hop)] at h
      cases h
      cases a with
      | get t key =>
          simp only [TableClient.op] at hop
          split at hop
          · rename_i hpc
            cases hop
            rw [tableRun_get]
            exact if_pos hpc
          · cases hop
      | insert t =>
          simp only [TableClient.op] at hop
          split at hop
          · rename_i key out hpc
            cases hop
            rw [tableRun_set]
            simp only [tableSys, TableState.next, join, TableClient.client, TableClient.fin, hpc]
            by_cases hroom : HasRoom table
            · simp only [hroom, decide_true, if_true]
            · simp only [hroom, decide_false, if_false, Bool.false_eq_true,
                setOutAddress_of_not_hasRoom key out hroom]
          · cases hop
      | malloc t key out | free t => cases hop
  | none =>
      rw [wholeTable, atomic_next_pure (show (TableClient.client Tid).op γ a = none from hop)] at h
      obtain ⟨γ', hγ', rfl⟩ := Option.map_eq_some_iff.mp h
      cases a with
      | get t key | insert t => cases hγ'
      | malloc t key out =>
          simp only [TableClient.client, TableClient.pure] at hγ'
          split at hγ'
          · rename_i hpc
            cases hγ'
            exact if_pos hpc
          · cases hγ'
      | free t =>
          simp only [TableClient.client, TableClient.pure] at hγ'
          split at hγ'
          · rename_i out hpc
            cases hγ'
            simp only [tableSys, TableState.next, join, hpc]
          · cases hγ'

/-- Whole operations are steps of `tableSys`. -/
theorem whole_simulates :
    TSys.Simulates (wholeTable Tid) (tableSys Tid)
      (MeetsWhole tableSection (TableClient.client Tid) FreshAlloc AnyRes) FreshBlock
      fun s t => t = join s where
  init s hs := ⟨join s, hs, rfl⟩
  step s t a s' h hmeets hn := by
    subst h
    refine .inr ⟨a, join s', ?_, join_next hn, rfl⟩
    cases a with
    | malloc t key out => exact hmeets
    | get t key | insert t | free t => trivial

theorem tableInv_of_run {as : List (TableAct Tid)} {s : TableState Tid}
    (h : (tableSys Tid).Run FreshBlock as s) : TableInv s := by
  refine h.invariant (I := TableInv) ?_ ?_
  · rintro _ rfl
    exact tableInv_boot
  · intro s a s' hi hg hn
    exact hi.next hg hn

/-- **Single accesses.** In every run of the threads in single accesses, `malloc_user`
returning fresh blocks: look-ups that returned a block go on to return it, those of two
addresses never return one block, and no block of the table is freed; at most one thread is
between lock and unlock; and while the lock is free the table is that of a run of
`tableSys`. -/
theorem spinTable_stable {as : List (SpinAct Tid (TableAct Tid))}
    {s : SpinState (TableClient Tid) Tid (TableAct Tid) ObjectTable TablePc TableRes}
    (h : (spinTable Tid).Run (Meets FreshAlloc AnyRes) as s) :
    (∃ table, StableLookups (join (s.client, table)) ∧
      InjectiveLookups (join (s.client, table)) ∧ StoredLive (join (s.client, table)) ∧
      (∃ bs, (tableSys Tid).Run FreshBlock bs (join (s.client, table))) ∧
      (s.lock = 0 → table = s.obj)) ∧
    (∀ t u, (s.pc t).inside = true → (s.pc u).inside = true → t = u) ∧
    (s.lock = 0 ↔ ∀ t, (s.pc t).inside = false) := by
  obtain ⟨as', st, hrun, hrel⟩ := h.simulate (spin_simulates FreshAlloc AnyRes)
  obtain ⟨bs, s', hrun', rfl⟩ := hrun.simulate whole_simulates
  obtain ⟨γ, table⟩ := st
  obtain rfl : γ = s.client := hrel.client
  have hinv : TableInv (join (s.client, table)) := tableInv_of_run hrun'
  exact ⟨⟨table, hinv.stable, hinv.injective, hinv.storedLive, ⟨bs, hrun'⟩, hrel.obj⟩,
    hrel.inside, hrel.lock⟩

/-- Thread 1 looks an address up while thread 0 stores its block. -/
def lookDuringStore : List (SpinAct Nat (TableAct Nat)) :=
  [.pure (.malloc 0 8 100), .enter (.insert 0), .move 0, .move 0, .move 0, .move 0,
   .enter (.get 1 8), .move 1, .move 0, .move 0, .move 1, .move 1, .move 1, .move 1, .move 1]

theorem spinTable_stable_during :
    ∃ s, (spinTable Nat).Run (Meets FreshAlloc AnyRes) lookDuringStore s ∧
      s.client.gets = [(8, 100)] ∧ (s.lock = 0 ↔ ∀ t, (s.pc t).inside = false) := by
  obtain ⟨s, hrun, hgets⟩ := TSys.exists_run (spinTable Nat) (Meets FreshAlloc AnyRes)
    lookDuringStore (s := ⟨⟨fun _ => .outside, [], [], []⟩, emptyTable, 0, fun _ => .outside⟩)
    ⟨rfl, rfl, fun _ => rfl⟩ (fun s => s.client.gets) (b := [(8, 100)]) (by decide +kernel)
  exact ⟨s, hrun, hgets, (spinTable_stable hrun).2.2⟩

end Porpoise.Futex
