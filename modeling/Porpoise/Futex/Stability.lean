import Porpoise.Futex.ObjectTable
import Porpoise.Lib.TSys

/-!
# Look-ups are stable and injective

Any number of threads call `get_out_address` and `set_out_address`, the latter
also again on an address that has an entry, and on `NULL`. `set_out_address`
is three steps, of which only the second is under `object_table_lock`:

* `malloc t k o` — thread `t` gets the block `o` for the address `k`;
* `insert t` — it stores the block when the table has room;
* `free t` — it frees the block when there was none.

`gets` records what every look-up returned, the latest first, and `stored`
every block that was ever in the table.
-/

namespace Porpoise.Futex

open Porpoise.Lib

/-- Where a thread is in `set_out_address`. -/
inductive SetPc
  | outside
  /-- `malloc_user` has returned this block for this address. -/
  | allocated (key out : Addr)
  /-- The table was full. -/
  | full (out : Addr)
  deriving DecidableEq

/-- The block that a thread has and the table does not. -/
def SetPc.block : SetPc → Addr
  | .outside => null
  | .allocated _ out => out
  | .full out => out

structure TableState (Tid : Type*) where
  table : ObjectTable
  pc : Tid → SetPc
  /-- The blocks that are allocated and not freed. -/
  live : List Addr
  stored : List Addr
  gets : List (Addr × Addr)

inductive TableAct (Tid : Type*)
  | get (t : Tid) (key : Addr)
  | malloc (t : Tid) (key out : Addr)
  | insert (t : Tid)
  | free (t : Tid)

variable {Tid : Type*} [DecidableEq Tid]

namespace TableState

/-- One step; `none` when it is not enabled. -/
def next (s : TableState Tid) : TableAct Tid → Option (TableState Tid)
  | .get t key =>
      if s.pc t = .outside then
        some { s with gets := (key, getOutAddress s.table key) :: s.gets }
      else none
  | .malloc t key out =>
      if s.pc t = .outside then
        some { s with
          pc := Function.update s.pc t (.allocated key out)
          live := out :: s.live }
      else none
  | .insert t =>
      match s.pc t with
      | .allocated key out =>
          if HasRoom s.table then
            some { s with
              table := (setOutAddress s.table key out).2
              pc := Function.update s.pc t .outside
              stored := out :: s.stored }
          else some { s with pc := Function.update s.pc t (.full out) }
      | _ => none
  | .free t =>
      match s.pc t with
      | .full out => some { s with
          pc := Function.update s.pc t .outside
          live := s.live.filter (· ≠ out) }
      | _ => none

def boot : TableState Tid := ⟨emptyTable, fun _ => .outside, [], [], []⟩

end TableState

def tableSys (Tid : Type*) [DecidableEq Tid] : TSys (TableState Tid) (TableAct Tid) where
  init s := s = TableState.boot
  next := TableState.next

/-- `malloc_user` returns `NULL` or a block that is not in use. -/
def FreshBlock (s : TableState Tid) : TableAct Tid → Prop
  | .malloc _ _ out => out = null ∨ out ∉ s.live
  | _ => True

instance (s : TableState Tid) (a : TableAct Tid) : Decidable (FreshBlock s a) :=
  match a with
  | .malloc _ _ _ => inferInstanceAs (Decidable (_ ∨ _))
  | .get _ _ | .insert _ | .free _ => inferInstanceAs (Decidable True)

/-! ## What is claimed of a run -/

/-- A look-up that succeeded was repeated with the same result by every later
one. -/
def StableLookups (s : TableState Tid) : Prop :=
  s.gets.Pairwise fun later earlier =>
    later.1 = earlier.1 → earlier.1 ≠ null → earlier.2 ≠ null → later.2 = earlier.2

/-- Look-ups of two addresses, at whatever times, did not return one block. -/
def InjectiveLookups (s : TableState Tid) : Prop :=
  ∀ p ∈ s.gets, ∀ q ∈ s.gets, p.1 ≠ null → q.1 ≠ null → p.2 ≠ null → p.2 = q.2 → p.1 = q.1

/-- No block that was ever stored has been freed. -/
def StoredLive (s : TableState Tid) : Prop := ∀ b ∈ s.stored, b ≠ null → b ∈ s.live

/-! ## The invariant -/

/-- Entries in use hold different blocks. -/
def BlocksDistinct (t : ObjectTable) : Prop :=
  ∀ i < maxNoObjects, ∀ j < maxNoObjects, (t i).in ≠ null → (t j).in ≠ null →
    (t i).out ≠ null → (t i).out = (t j).out → i = j

section Entries

variable {t : ObjectTable} {key out : Addr} {i : Nat}

theorem Packed.fill_first (hp : Packed t) (hnull : (t i).in = null)
    (hbefore : ∀ j < i, (t j).in ≠ null) : Packed (Futex.fill t i ⟨key, out⟩) := by
  by_cases hkey : key = null
  · -- the entry stays unused
    have hin : ∀ j, (Futex.fill t i ⟨key, out⟩ j).in = (t j).in := by
      intro j
      by_cases hji : j = i
      · subst hji
        rw [fill_self, hnull, hkey]
      · rw [fill_of_ne hji]
    intro j k hjk hk
    rw [hin, hin]
    exact hp j k hjk hk
  · exact hp.fill hbefore hkey

/-- The block of an entry in use is the new one or that of an old entry. -/
theorem out_fill {j : Nat} (h : (fill t i ⟨key, out⟩ j).in ≠ null) :
    (j = i ∧ (fill t i ⟨key, out⟩ j).out = out) ∨
    ((t j).in ≠ null ∧ (fill t i ⟨key, out⟩ j).out = (t j).out) := by
  by_cases hji : j = i
  · subst hji
    rw [fill_self]
    exact .inl ⟨rfl, rfl⟩
  · rw [fill_of_ne hji] at h ⊢
    exact .inr ⟨h, rfl⟩

theorem BlocksDistinct.fill (h : BlocksDistinct t)
    (hnew : ∀ j < maxNoObjects, (t j).in ≠ null → out ≠ null → (t j).out ≠ out) :
    BlocksDistinct (fill t i ⟨key, out⟩) := by
  intro j hj k hk huj huk hne hsame
  rcases out_fill huj with ⟨hji, hoj⟩ | ⟨hoj, hj'⟩ <;>
    rcases out_fill huk with ⟨hki, hok⟩ | ⟨hok, hk'⟩
  · exact hji.trans hki.symm
  · rw [hoj] at hne hsame
    exact absurd (hk'.symm.trans hsame.symm) (hnew k hk hok hne)
  · rw [hok] at hsame
    exact absurd (hj'.symm.trans hsame) (hnew j hj hoj (hsame ▸ hne))
  · rw [hj'] at hne hsame
    rw [hk'] at hsame
    exact h j hj k hk hoj hok hne hsame

end Entries

structure TableInv (s : TableState Tid) : Prop where
  packed : Packed s.table
  distinct : BlocksDistinct s.table
  storedOf : ∀ i < maxNoObjects, (s.table i).in ≠ null → (s.table i).out ∈ s.stored
  storedLive : StoredLive s
  /-- A block on its way into the table is not there yet, and one thread's only. -/
  held : ∀ t, (s.pc t).block ≠ null → (s.pc t).block ∈ s.live ∧ (s.pc t).block ∉ s.stored
  heldOnce : ∀ t t', (s.pc t).block ≠ null → (s.pc t).block = (s.pc t').block → t = t'
  /-- What a look-up returned is what look-ups return now. -/
  current : ∀ p ∈ s.gets, p.1 ≠ null → p.2 ≠ null → getOutAddress s.table p.1 = p.2
  stable : StableLookups s

variable {s s' : TableState Tid} {t : Tid} {key out : Addr}

omit [DecidableEq Tid] in
theorem tableInv_boot : TableInv (TableState.boot : TableState Tid) where
  packed := packed_empty
  distinct _ _ _ _ h := absurd rfl h
  storedOf _ _ h := absurd rfl h
  storedLive _ hb := absurd hb List.not_mem_nil
  held _ h := absurd rfl h
  heldOnce _ _ h := absurd rfl h
  current _ hp := absurd hp List.not_mem_nil
  stable := List.Pairwise.nil

omit [DecidableEq Tid] in
/-- A look-up: what it returns, look-ups go on to return. -/
theorem TableInv.get (h : TableInv s) (key : Addr) :
    TableInv { s with gets := (key, getOutAddress s.table key) :: s.gets } where
  packed := h.packed
  distinct := h.distinct
  storedOf := h.storedOf
  storedLive := h.storedLive
  held := h.held
  heldOnce := h.heldOnce
  current p hp hkey hout := by
    rcases List.mem_cons.mp hp with rfl | hp
    · rfl
    · exact h.current p hp hkey hout
  stable := by
    refine List.pairwise_cons.mpr ⟨fun p hp hsame hkey hout => ?_, h.stable⟩
    have hcur := h.current p hp hkey hout
    rw [← hcur, ← hsame]

/-- The blocks that threads have after one of them has moved on. -/
theorem block_update (s : TableState Tid) (t u : Tid) (q : SetPc) :
    (Function.update s.pc t q u).block = if u = t then q.block else (s.pc u).block := by
  by_cases hu : u = t
  · subst hu
    simp
  · simp [hu]

theorem TableInv.malloc (h : TableInv s) (hfresh : out = null ∨ out ∉ s.live) :
    TableInv { s with
      pc := Function.update s.pc t (.allocated key out)
      live := out :: s.live } where
  packed := h.packed
  distinct := h.distinct
  storedOf := h.storedOf
  storedLive b hb hne := List.mem_cons_of_mem out (h.storedLive b hb hne)
  held u := by
    rw [block_update]
    split
    · intro hne
      refine ⟨List.mem_cons_self, fun hstored => ?_⟩
      rcases hfresh with hnull | hdead
      · exact hne hnull
      · exact hdead (h.storedLive _ hstored hne)
    · intro hne
      obtain ⟨hlive, hnot⟩ := h.held u hne
      exact ⟨List.mem_cons_of_mem out hlive, hnot⟩
  heldOnce u v := by
    -- a block that a thread has is live, so that it is not the new one
    have hold : ∀ w, (s.pc w).block ≠ null → (s.pc w).block ≠ out := by
      rintro w hw rfl
      exact hfresh.elim hw fun hdead => hdead (h.held w hw).1
    rw [block_update, block_update]
    by_cases hu : u = t
    · by_cases hv : v = t
      · exact fun _ _ => hu.trans hv.symm
      · rw [if_pos hu, if_neg hv]
        intro hne hsame
        exact absurd hsame.symm (hold v (hsame ▸ hne))
    · by_cases hv : v = t
      · rw [if_neg hu, if_pos hv]
        intro hne hsame
        exact absurd hsame (hold u hne)
      · rw [if_neg hu, if_neg hv]
        exact h.heldOnce u v
  current := h.current
  stable := h.stable

/-- A thread that gives its block away, or keeps the one it has, leaves the
others' blocks theirs. -/
theorem TableInv.heldOnce_update (h : TableInv s) {q : SetPc}
    (hq : q.block = null ∨ q.block = (s.pc t).block) (u v : Tid)
    (hne : (Function.update s.pc t q u).block ≠ null)
    (hsame : (Function.update s.pc t q u).block = (Function.update s.pc t q v).block) :
    u = v := by
  have hblock : ∀ w, (Function.update s.pc t q w).block ≠ null →
      (Function.update s.pc t q w).block = (s.pc w).block := by
    intro w hw
    rw [block_update] at hw ⊢
    by_cases hwt : w = t
    · rw [if_pos hwt] at hw ⊢
      rw [hwt]
      exact hq.resolve_left hw
    · rw [if_neg hwt]
  have hu := hblock u hne
  have hv := hblock v (hsame ▸ hne)
  refine h.heldOnce u v (hu ▸ hne) ?_
  rw [← hu, ← hv, hsame]

/-- A block that the table has no room for. -/
theorem TableInv.noRoom (h : TableInv s) (hpc : s.pc t = .allocated key out) :
    TableInv { s with pc := Function.update s.pc t (.full out) } where
  packed := h.packed
  distinct := h.distinct
  storedOf := h.storedOf
  storedLive := h.storedLive
  held u := by
    rw [block_update]
    split
    · have hheld := h.held t
      rwa [hpc] at hheld
    · exact h.held u
  heldOnce := h.heldOnce_update (.inr (by rw [hpc]; rfl))
  current := h.current
  stable := h.stable

/-- Only a block that the table does not hold is freed. -/
theorem TableInv.free (h : TableInv s) (hpc : s.pc t = .full out) :
    TableInv { s with
      pc := Function.update s.pc t .outside
      live := s.live.filter (· ≠ out) } where
  packed := h.packed
  distinct := h.distinct
  storedOf := h.storedOf
  storedLive b hb hne := by
    have hnot := h.held t
    rw [hpc] at hnot
    refine List.mem_filter.mpr ⟨h.storedLive b hb hne, decide_eq_true ?_⟩
    rintro rfl
    exact (hnot hne).2 hb
  held u := by
    rw [block_update]
    split
    · exact fun hne => absurd rfl hne
    · rename_i hut
      intro hne
      obtain ⟨hlive, hnot⟩ := h.held u hne
      refine ⟨List.mem_filter.mpr ⟨hlive, decide_eq_true ?_⟩, hnot⟩
      intro hsame
      exact hut (h.heldOnce u t hne (by rw [hsame, hpc]; rfl))
  heldOnce := h.heldOnce_update (.inl rfl)
  current := h.current
  stable := h.stable

/-- A block goes into the first unused entry; the entries in use stay. -/
theorem TableInv.insert (h : TableInv s) (hpc : s.pc t = .allocated key out)
    (hroom : HasRoom s.table) :
    TableInv { s with
      table := (setOutAddress s.table key out).2
      pc := Function.update s.pc t .outside
      stored := out :: s.stored } := by
  obtain ⟨i, hi, hnull, hbefore, heq⟩ := setOutAddress_of_hasRoom key out hroom
  have hblock : (s.pc t).block = out := by rw [hpc]; rfl
  -- the new block is in no entry in use
  have hnew : ∀ j < maxNoObjects, (s.table j).in ≠ null → out ≠ null → (s.table j).out ≠ out := by
    rintro j hj huse hne rfl
    exact (h.held t (hblock ▸ hne)).2 (hblock ▸ h.storedOf j hj huse)
  rw [heq]
  refine
    { packed := h.packed.fill_first hnull hbefore, distinct := h.distinct.fill hnew,
      storedOf := ?_, storedLive := ?_, held := ?_, heldOnce := h.heldOnce_update (.inl rfl),
      current := ?_, stable := h.stable }
  · intro j hj huse
    rcases out_fill huse with ⟨-, hj'⟩ | ⟨huse, hj'⟩
    · exact List.mem_cons.mpr (.inl hj')
    · exact List.mem_cons.mpr (.inr (hj' ▸ h.storedOf j hj huse))
  · intro b hb hne
    rcases List.mem_cons.mp hb with rfl | hb
    · exact hblock ▸ (h.held t (hblock ▸ hne)).1
    · exact h.storedLive b hb hne
  · intro u
    rw [block_update]
    split
    · exact fun hne => absurd rfl hne
    · rename_i hut
      intro hne
      obtain ⟨hlive, hnot⟩ := h.held u hne
      refine ⟨hlive, fun hmem => ?_⟩
      rcases List.mem_cons.mp hmem with hsame | hmem
      · exact hut (h.heldOnce u t hne (hsame.trans hblock.symm))
      · exact hnot hmem
  · intro p hp hkey hout
    have hcur := h.current p hp hkey hout
    exact (getOutAddress_fill_of_found h.packed hnull hkey (hcur ▸ hout)).trans hcur

/-- What a step can do. -/
theorem table_next_cases {a : TableAct Tid} (h : s.next a = some s') :
    (∃ t key, a = .get t key ∧ s' = { s with gets := (key, getOutAddress s.table key) :: s.gets }) ∨
    (∃ t key out, a = .malloc t key out ∧
      s' = { s with pc := Function.update s.pc t (.allocated key out), live := out :: s.live }) ∨
    (∃ t key out, a = .insert t ∧ s.pc t = .allocated key out ∧ HasRoom s.table ∧
      s' = { s with table := (setOutAddress s.table key out).2
                    pc := Function.update s.pc t .outside
                    stored := out :: s.stored }) ∨
    (∃ t key out, a = .insert t ∧ s.pc t = .allocated key out ∧
      s' = { s with pc := Function.update s.pc t (.full out) }) ∨
    (∃ t out, a = .free t ∧ s.pc t = .full out ∧
      s' = { s with pc := Function.update s.pc t .outside
                    live := s.live.filter (· ≠ out) }) := by
  cases a with
  | get t key =>
      simp only [TableState.next] at h
      split at h
      · exact .inl ⟨t, key, rfl, (Option.some.inj h).symm⟩
      · cases h
  | malloc t key out =>
      simp only [TableState.next] at h
      split at h
      · exact .inr (.inl ⟨t, key, out, rfl, (Option.some.inj h).symm⟩)
      · cases h
  | insert t =>
      simp only [TableState.next] at h
      split at h
      · rename_i key out hpc
        split at h
        · rename_i hroom
          exact .inr (.inr (.inl ⟨t, key, out, rfl, hpc, hroom, (Option.some.inj h).symm⟩))
        · exact .inr (.inr (.inr (.inl ⟨t, key, out, rfl, hpc, (Option.some.inj h).symm⟩)))
      · cases h
  | free t =>
      simp only [TableState.next] at h
      split at h
      · rename_i out hpc
        exact .inr (.inr (.inr (.inr ⟨t, out, rfl, hpc, (Option.some.inj h).symm⟩)))
      · cases h

/-- The step lemma. -/
theorem TableInv.next {a : TableAct Tid} (h : TableInv s) (ha : FreshBlock s a)
    (hn : s.next a = some s') : TableInv s' := by
  rcases table_next_cases hn with ⟨t, key, rfl, rfl⟩ | ⟨t, key, out, rfl, rfl⟩ |
    ⟨t, key, out, rfl, hpc, hroom, rfl⟩ | ⟨t, key, out, rfl, hpc, rfl⟩ | ⟨t, out, rfl, hpc, rfl⟩
  · exact h.get key
  · exact h.malloc ha
  · exact h.insert hpc hroom
  · exact h.noRoom hpc
  · exact h.free hpc

omit [DecidableEq Tid] in
/-- Two addresses that look-ups found have entries of their own. -/
theorem TableInv.injective (h : TableInv s) : InjectiveLookups s := by
  intro p hp q hq hpk hqk hne hsame
  have hcur := h.current p hp hpk hne
  have hcur' := h.current q hq hqk (hsame ▸ hne)
  obtain ⟨i, hi, hin, hout⟩ := getOutAddress_spec (hcur ▸ hne)
  obtain ⟨j, hj, hjn, hjout⟩ := getOutAddress_spec (hcur' ▸ hsame ▸ hne)
  have hij : i = j := by
    refine h.distinct i hi j hj (hin ▸ hpk) (hjn ▸ hqk) ?_ ?_
    · rw [hout, hcur]
      exact hne
    · rw [hout, hjout, hcur, hcur', hsame]
  rw [← hin, ← hjn, hij]

/-- **Stable and injective look-ups.** In every interleaving of look-ups and
insertions: a look-up of an address that has returned a block goes on to return
it, two addresses never get one block, and no block of the table is freed. -/
theorem lookups_stable {as : List (TableAct Tid)} {s : TableState Tid}
    (h : (tableSys Tid).Run FreshBlock as s) :
    StableLookups s ∧ InjectiveLookups s ∧ StoredLive s := by
  have hinv : TableInv s := by
    refine h.invariant (I := TableInv) ?_ ?_
    · rintro _ rfl
      exact tableInv_boot
    · intro s a s' hi hg hn
      exact hi.next hg hn
  exact ⟨hinv.stable, hinv.injective, hinv.storedLive⟩

/-- Two threads, with a second insertion for one address and one on `NULL`. -/
def mixedCalls : List (TableAct Nat) :=
  [.malloc 0 8 100, .insert 0, .get 1 8, .malloc 1 8 200, .malloc 0 0 300, .insert 0, .insert 1,
   .get 0 8]

theorem lookups_stable_mixed :
    ∃ s, (tableSys Nat).Run FreshBlock mixedCalls s ∧ s.gets = [(8, 100), (8, 100)] ∧
      StableLookups s ∧ InjectiveLookups s ∧ StoredLive s := by
  obtain ⟨s, hrun, hgets⟩ := TSys.exists_run (tableSys Nat) FreshBlock mixedCalls rfl
    TableState.gets (b := [(8, 100), (8, 100)]) (by decide +kernel)
  exact ⟨s, hrun, hgets, lookups_stable hrun⟩

end Porpoise.Futex
