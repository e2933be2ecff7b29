import Porpoise.Futex.ObjectTable
import Porpoise.Lib.TSys

/-!
# One mirror per futex address

A `futex` or `set_tid_address` call on an enclave address looks its mirror up
and, when there is none, stores a block of its own. The two operations are
atomic one by one but not together, and the second returns the caller's block,
not the one that later look-ups find. The steps are

* `look t k` — thread `t` begins a call on address `k` with `getOutAddress`;
* `insert t o` — `t`, whose look-up returned `NULL`, calls `setOutAddress`;
  `malloc_user` has returned the block `o`.

`handed` records, for every call so far, the address and the mirror handed to
the kernel.
-/

namespace Porpoise.Futex

open Porpoise.Lib

/-- Where a thread is in the call. -/
inductive LookPc
  | outside
  /-- `get_out_address` has returned `NULL` for this address. -/
  | missed (key : Addr)
  deriving DecidableEq

structure MirrorState (Tid : Type*) where
  table : ObjectTable
  pc : Tid → LookPc
  /-- The calls that have an out address: the enclave address and the mirror. -/
  handed : List (Addr × Addr)
  /-- The blocks `malloc_user` has returned for the table. -/
  blocks : List Addr

inductive MirrorAct (Tid : Type*)
  | look (t : Tid) (key : Addr)
  | insert (t : Tid) (out : Addr)

variable {Tid : Type*} [DecidableEq Tid]

namespace MirrorState

/-- One step; `none` when it is not enabled. -/
def next (s : MirrorState Tid) : MirrorAct Tid → Option (MirrorState Tid)
  | .look t key =>
      if s.pc t = .outside ∧ key ≠ null then
        if getOutAddress s.table key = null then
          some { s with pc := Function.update s.pc t (.missed key) }
        else some { s with handed := (key, getOutAddress s.table key) :: s.handed }
      else none
  | .insert t out =>
      match s.pc t with
      | .outside => none
      | .missed key => some
          { table := (setOutAddress s.table key out).2
            pc := Function.update s.pc t .outside
            handed := (key, (setOutAddress s.table key out).1) :: s.handed
            blocks := out :: s.blocks }

def boot : MirrorState Tid := ⟨emptyTable, fun _ => .outside, [], []⟩

end MirrorState

def mirrorSys (Tid : Type*) [DecidableEq Tid] : TSys (MirrorState Tid) (MirrorAct Tid) where
  init s := s = MirrorState.boot
  next := MirrorState.next

/-- `malloc_user` returns a block that is not `NULL` and not in use, and the
table has room. -/
def Allocates (s : MirrorState Tid) : MirrorAct Tid → Prop
  | .look _ _ => True
  | .insert _ out => out ≠ null ∧ out ∉ s.blocks ∧ HasRoom s.table

/-- A block is stored for an address only while look-ups of it still fail. -/
def StillAbsent (s : MirrorState Tid) : MirrorAct Tid → Prop
  | .look _ _ => True
  | .insert t _ => ∀ key, s.pc t = .missed key → getOutAddress s.table key = null

instance (s : MirrorState Tid) (a : MirrorAct Tid) : Decidable (Allocates s a) :=
  match a with
  | .look _ _ => inferInstanceAs (Decidable True)
  | .insert _ _ => inferInstanceAs (Decidable (_ ∧ _ ∧ _))

instance (s : MirrorState Tid) (a : MirrorAct Tid) : Decidable (StillAbsent s a) :=
  match a with
  | .look _ _ => inferInstanceAs (Decidable True)
  | .insert t _ =>
      match h : s.pc t with
      | .outside => .isTrue fun key e => by rw [h] at e; cases e
      | .missed key => decidable_of_iff (getOutAddress s.table key = null)
          ⟨fun e k hk => by rw [h] at hk; cases hk; exact e, fun e => e key h⟩

/-- Any two calls on one address got the same mirror. -/
def OneMirror (s : MirrorState Tid) : Prop :=
  ∀ p ∈ s.handed, ∀ q ∈ s.handed, p.1 = q.1 → p.2 = q.2

/-- What a step can do. -/
theorem mirror_next_cases {s s' : MirrorState Tid} {a : MirrorAct Tid}
    (h : s.next a = some s') :
    (∃ t key, a = .look t key ∧ key ≠ null ∧ getOutAddress s.table key = null ∧
      s' = { s with pc := Function.update s.pc t (.missed key) }) ∨
    (∃ t key, a = .look t key ∧ key ≠ null ∧ getOutAddress s.table key ≠ null ∧
      s' = { s with handed := (key, getOutAddress s.table key) :: s.handed }) ∨
    (∃ t key out, a = .insert t out ∧ s.pc t = .missed key ∧
      s' = { table := (setOutAddress s.table key out).2
             pc := Function.update s.pc t .outside
             handed := (key, (setOutAddress s.table key out).1) :: s.handed
             blocks := out :: s.blocks }) := by
  cases a with
  | look t key =>
      simp only [MirrorState.next] at h
      split at h
      · rename_i hc
        split at h
        · rename_i hnull
          exact .inl ⟨t, key, rfl, hc.2, hnull, (Option.some.inj h).symm⟩
        · rename_i hfound
          exact .inr (.inl ⟨t, key, rfl, hc.2, hfound, (Option.some.inj h).symm⟩)
      · cases h
  | insert t out =>
      simp only [MirrorState.next] at h
      split at h
      · cases h
      · rename_i key hpc
        exact .inr (.inr ⟨t, key, out, rfl, hpc, (Option.some.inj h).symm⟩)

/-! ## The invariant -/

/-- Every mirror handed out is the one look-ups find now. -/
structure MirrorInv (s : MirrorState Tid) : Prop where
  blocksSet : BlocksSet s.table
  key_ne : ∀ t key, s.pc t = .missed key → key ≠ null
  current : ∀ p ∈ s.handed, p.1 ≠ null ∧ p.2 ≠ null ∧ p.2 = getOutAddress s.table p.1
  /-- Every block that look-ups can find was handed out already. -/
  found : ∀ key ≠ null, getOutAddress s.table key ≠ null →
    (key, getOutAddress s.table key) ∈ s.handed
  known : ∀ p ∈ s.handed, p.2 ∈ s.blocks

omit [DecidableEq Tid] in
theorem mirrorInv_boot : MirrorInv (MirrorState.boot : MirrorState Tid) where
  blocksSet := blocksSet_empty
  key_ne t key h := by cases h
  current p hp := by cases hp
  found key hkey h := by
    obtain ⟨i, -, hin, -⟩ := getOutAddress_spec h
    exact absurd hin.symm hkey
  known p hp := by cases hp

/-- A block stored for an address that has none keeps the invariant. -/
theorem MirrorInv.insert {s : MirrorState Tid} (h : MirrorInv s) {t : Tid} {key out : Addr}
    (hpc : s.pc t = .missed key) (hout : out ≠ null) (hroom : HasRoom s.table)
    (habs : getOutAddress s.table key = null) :
    MirrorInv { table := (setOutAddress s.table key out).2
                pc := Function.update s.pc t .outside
                handed := (key, (setOutAddress s.table key out).1) :: s.handed
                blocks := out :: s.blocks } := by
  have hkey := h.key_ne t key hpc
  have hno := (getOutAddress_eq_null_iff h.blocksSet hkey).mp habs
  obtain ⟨i, hi, hnull, -, heq⟩ := setOutAddress_of_hasRoom key out hroom
  have hself : getOutAddress (fill s.table i ⟨key, out⟩) key = out :=
    getOutAddress_fill_self hi hno
  have hother : ∀ k, k ≠ null → k ≠ key →
      getOutAddress (fill s.table i ⟨key, out⟩) k = getOutAddress s.table k :=
    fun k hk hne => getOutAddress_fill_ne hnull hne hk
  rw [heq]
  refine
    { blocksSet := h.blocksSet.fill hout, key_ne := ?_, current := ?_, found := ?_, known := ?_ }
  · intro u k hu
    by_cases hut : u = t
    · subst hut
      simp at hu
    · exact h.key_ne u k (by simpa [Function.update_of_ne hut] using hu)
  · intro p hp
    rcases List.mem_cons.mp hp with rfl | hp
    · exact ⟨hkey, hout, hself.symm⟩
    · obtain ⟨hne, hset, hcur⟩ := h.current p hp
      refine ⟨hne, hset, ?_⟩
      -- no call on `key` has a mirror yet: look-ups of it still fail
      have hpk : p.1 ≠ key := by
        rintro rfl
        exact hset (hcur.trans habs)
      rw [hother p.1 hne hpk]
      exact hcur
  · intro k hk hfound
    by_cases hkk : k = key
    · subst hkk
      rw [hself]
      exact List.mem_cons_self
    · rw [hother k hk hkk] at hfound ⊢
      exact List.mem_cons_of_mem _ (h.found k hk hfound)
  · intro p hp
    rcases List.mem_cons.mp hp with rfl | hp
    · exact List.mem_cons_self
    · exact List.mem_cons_of_mem _ (h.known p hp)

/-- A look-up keeps the invariant, whether it finds a mirror or not. -/
theorem MirrorInv.look {s : MirrorState Tid} (h : MirrorInv s) {t : Tid} {key : Addr}
    (hkey : key ≠ null) :
    (getOutAddress s.table key = null →
      MirrorInv { s with pc := Function.update s.pc t (.missed key) }) ∧
    (getOutAddress s.table key ≠ null →
      MirrorInv { s with handed := (key, getOutAddress s.table key) :: s.handed }) := by
  refine ⟨fun _ => { h with key_ne := ?_ }, fun hfound =>
    { h with current := ?_, found := ?_, known := ?_ }⟩
  · intro u k hu
    by_cases hut : u = t
    · subst hut
      have hk : key = k := by simpa using hu
      exact hk ▸ hkey
    · exact h.key_ne u k (by simpa [Function.update_of_ne hut] using hu)
  · intro p hp
    rcases List.mem_cons.mp hp with rfl | hp
    · exact ⟨hkey, hfound, rfl⟩
    · exact h.current p hp
  · intro k hk hf
    exact List.mem_cons_of_mem _ (h.found k hk hf)
  · intro p hp
    rcases List.mem_cons.mp hp with rfl | hp
    · exact h.known _ (h.found key hkey hfound)
    · exact h.known p hp

/-- The step lemma. -/
theorem MirrorInv.next {s s' : MirrorState Tid} {a : MirrorAct Tid} (h : MirrorInv s)
    (ha : Allocates s a) (habs : StillAbsent s a) (hn : s.next a = some s') : MirrorInv s' := by
  rcases mirror_next_cases hn with ⟨t, key, rfl, hkey, hnull, rfl⟩ |
    ⟨t, key, rfl, hkey, hfound, rfl⟩ | ⟨t, key, out, rfl, hpc, rfl⟩
  · exact (h.look hkey).1 hnull
  · exact (h.look (t := t) hkey).2 hfound
  · exact h.insert hpc ha.1 ha.2.2 (habs key hpc)

omit [DecidableEq Tid] in
/-- Calls on one address got what look-ups of it find. -/
theorem MirrorInv.oneMirror {s : MirrorState Tid} (h : MirrorInv s) : OneMirror s := by
  intro p hp q hq hpq
  rw [(h.current p hp).2.2, (h.current q hq).2.2, hpq]

/-- A second block for one address leaves two calls with different mirrors. -/
theorem not_oneMirror_of_present {s : MirrorState Tid} (h : MirrorInv s) {t : Tid}
    {key out : Addr} (hpc : s.pc t = .missed key) (ha : Allocates s (.insert t out))
    (hpresent : getOutAddress s.table key ≠ null) {s' : MirrorState Tid}
    (hn : s.next (.insert t out) = some s') : ¬ OneMirror s' := by
  obtain ⟨hout, hfresh, hroom⟩ := ha
  have hmem := h.found key (h.key_ne t key hpc) hpresent
  obtain ⟨i, -, -, -, heq⟩ := setOutAddress_of_hasRoom key out hroom
  simp only [MirrorState.next, hpc, heq, Option.some.injEq] at hn
  subst hn
  intro hone
  have hsame : out = getOutAddress s.table key :=
    hone (key, out) List.mem_cons_self _ (List.mem_cons_of_mem _ hmem) rfl
  exact hfresh (hsame ▸ h.known _ hmem)

/-- **One mirror per futex address.** While blocks are stored only for
addresses whose look-ups still fail, all calls on one address get one mirror;
and the next step keeps it so exactly when it is of this kind. -/
theorem one_mirror {as : List (MirrorAct Tid)} {s : MirrorState Tid}
    (h : (mirrorSys Tid).Run (fun s a => Allocates s a ∧ StillAbsent s a) as s) :
    OneMirror s ∧ ∀ a s', Allocates s a → s.next a = some s' →
      (OneMirror s' ↔ StillAbsent s a) := by
  have hinv : MirrorInv s := by
    refine h.invariant (I := MirrorInv) ?_ ?_
    · rintro _ rfl
      exact mirrorInv_boot
    · intro s a s' hi hg hn
      exact hi.next hg.1 hg.2 hn
  refine ⟨hinv.oneMirror, fun a s' ha hn => ⟨fun hone => ?_, fun habs => ?_⟩⟩
  · cases a with
    | look t key => trivial
    | insert t out =>
        intro key hpc
        by_contra hpresent
        exact not_oneMirror_of_present hinv hpc ha hpresent hn hone
  · exact (hinv.next ha habs hn).oneMirror

/-- Two threads use one address, one after the other. -/
def orderlyCalls : List (MirrorAct Nat) := [.look 0 8, .insert 0 100, .look 1 8]

theorem one_mirror_orderly :
    ∃ s, (mirrorSys Nat).Run (fun s a => Allocates s a ∧ StillAbsent s a) orderlyCalls s ∧
      s.handed = [(8, 100), (8, 100)] ∧ OneMirror s ∧
      ∀ a s', Allocates s a → s.next a = some s' → (OneMirror s' ↔ StillAbsent s a) := by
  obtain ⟨s, hrun, hhanded⟩ := TSys.exists_run (mirrorSys Nat)
    (fun s a => Allocates s a ∧ StillAbsent s a) orderlyCalls rfl MirrorState.handed
    (b := [(8, 100), (8, 100)]) (by decide +kernel)
  exact ⟨s, hrun, hhanded, one_mirror hrun⟩

/-- Both threads look before either stores. -/
def racingCalls : List (MirrorAct Nat) := [.look 0 8, .look 1 8, .insert 0 100, .insert 1 200]

/-- Two first uses of one address hand the kernel two mirrors. -/
theorem one_mirror_racing :
    ∃ s, (mirrorSys Nat).Run Allocates racingCalls s ∧ s.handed = [(8, 200), (8, 100)] ∧
      ¬ OneMirror s := by
  obtain ⟨s, hrun, hhanded⟩ := TSys.exists_run (mirrorSys Nat) Allocates racingCalls rfl
    MirrorState.handed (b := [(8, 200), (8, 100)]) (by decide +kernel)
  refine ⟨s, hrun, hhanded, fun hone => ?_⟩
  have hsame : 200 = 100 := hone (8, 200) (by simp [hhanded]) (8, 100) (by simp [hhanded]) rfl
  omega

end Porpoise.Futex
