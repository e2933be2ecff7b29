import Mathlib.Data.Finset.Dedup
import Porpoise.Futex.ObjectTable

/-!
# When the object table runs out

A program uses its words one after the other. A wrapped `futex` or
`set_tid_address` call looks the mirror of its word up and, when there is
none, stores a block for it; a word that goes out of use tells the table
nothing, as no code of the shim runs then. So the entries in use are exactly
the words that were ever used, and the table hands out mirrors for as long as
these are at most `maxNoObjects`.
-/

namespace Porpoise.Futex

open Porpoise.Lib

/-- What a program does with its words. -/
inductive WordOp
  /-- A wrapped `futex` or `set_tid_address` call; `out` is the block that
  `malloc_user` returns if the call asks for one. -/
  | call (key out : Addr)
  /-- The word goes out of use. -/
  | retire (key : Addr)
  deriving DecidableEq

/-- The first lines of both calls: the mirror of `key` and the table left. -/
def mirrorFor (t : ObjectTable) (key out : Addr) : Addr × ObjectTable :=
  if getOutAddress t key = null then setOutAddress t key out else (getOutAddress t key, t)

/-- The table, and the word and mirror of every call so far, the latest first. -/
structure Ledger where
  table : ObjectTable
  handed : List (Addr × Addr)

namespace Ledger

/-- One operation. -/
def step (s : Ledger) : WordOp → Ledger
  | .call key out =>
      { table := (mirrorFor s.table key out).2
        handed := (key, (mirrorFor s.table key out).1) :: s.handed }
  | .retire _ => s

/-- The ledger after a run. -/
def after (ops : List WordOp) : Ledger := ops.foldl step ⟨emptyTable, []⟩

end Ledger

/-- The call is on a word, and `malloc_user` succeeds. -/
def WordOp.Served : WordOp → Prop
  | .call key out => key ≠ null ∧ out ≠ null
  | .retire _ => True

/-- The words a run uses, in order. -/
def wordsUsed (ops : List WordOp) : List Addr :=
  ops.filterMap fun
    | .call key _ => some key
    | .retire _ => none

/-- Every call of the run has a mirror to pass to the kernel. -/
def AllMirrored (ops : List WordOp) : Prop := ∀ p ∈ (Ledger.after ops).handed, p.2 ≠ null

/-! ## Entries and words -/

/-- The addresses that have an entry. -/
def keysOf (t : ObjectTable) : Finset Addr :=
  ({i ∈ Finset.range maxNoObjects | (t i).in ≠ null} : Finset Nat).image fun i => (t i).in

variable {t : ObjectTable} {key out : Addr}

theorem mem_keysOf : key ∈ keysOf t ↔ ∃ i < maxNoObjects, (t i).in = key ∧ key ≠ null := by
  simp only [keysOf, Finset.mem_image, Finset.mem_filter, Finset.mem_range]
  constructor
  · rintro ⟨i, ⟨hi, hne⟩, rfl⟩
    exact ⟨i, hi, rfl, hne⟩
  · rintro ⟨i, hi, rfl, hne⟩
    exact ⟨i, ⟨hi, hne⟩, rfl⟩

/-- No two entries in use are for one address. -/
def OneEntryEach (t : ObjectTable) : Prop :=
  ∀ i < maxNoObjects, ∀ j < maxNoObjects, (t i).in ≠ null → (t i).in = (t j).in → i = j

/-- There is room exactly while fewer than `maxNoObjects` addresses have an
entry. -/
theorem hasRoom_iff_keysOf (h : OneEntryEach t) : HasRoom t ↔ (keysOf t).card < maxNoObjects := by
  rw [hasRoom_iff, keysOf, Finset.card_image_of_injOn]
  intro i hi j hj hij
  simp only [Finset.mem_coe, Finset.mem_filter, Finset.mem_range] at hi hj
  exact h i hi.1 j hj.1 hi.2 hij

theorem keysOf_fill {i : Nat} (hi : i < maxNoObjects) (hnull : (t i).in = null)
    (hkey : key ≠ null) : keysOf (fill t i ⟨key, out⟩) = insert key (keysOf t) := by
  ext k
  simp only [mem_keysOf, Finset.mem_insert]
  constructor
  · rintro ⟨j, hj, hin, hk⟩
    by_cases hji : j = i
    · subst hji
      rw [fill_self] at hin
      exact .inl hin.symm
    · rw [fill_of_ne hji] at hin
      exact .inr ⟨j, hj, hin, hk⟩
  · rintro (rfl | ⟨j, hj, hin, hk⟩)
    · exact ⟨i, hi, by rw [fill_self], hkey⟩
    · have hji : j ≠ i := by
        rintro rfl
        exact hk (hin.symm.trans hnull)
      exact ⟨j, hj, by rw [fill_of_ne hji]; exact hin, hk⟩

theorem OneEntryEach.fill {i : Nat} (h : OneEntryEach t) (hnew : key ∉ keysOf t)
    (hkey : key ≠ null) : OneEntryEach (fill t i ⟨key, out⟩) := by
  have hno : ∀ j < maxNoObjects, (t j).in ≠ key := fun j hj hin =>
    hnew (mem_keysOf.mpr ⟨j, hj, hin, hkey⟩)
  intro j hj k hk hne heq
  by_cases hji : j = i <;> by_cases hki : k = i
  · rw [hji, hki]
  · subst hji
    rw [fill_self, fill_of_ne hki] at heq
    exact absurd heq.symm (hno k hk)
  · subst hki
    rw [fill_self, fill_of_ne hji] at heq
    exact absurd heq (hno j hj)
  · rw [fill_of_ne hji] at hne heq
    rw [fill_of_ne hki] at heq
    exact h j hj k hk hne heq

theorem getOutAddress_ne_null_iff (hb : BlocksSet t) (hkey : key ≠ null) :
    getOutAddress t key ≠ null ↔ key ∈ keysOf t := by
  rw [Ne, getOutAddress_eq_null_iff hb hkey, mem_keysOf]
  push Not
  constructor
  · rintro ⟨i, hi, hin⟩
    exact ⟨i, hi, hin, hkey⟩
  · rintro ⟨i, hi, hin, -⟩
    exact ⟨i, hi, hin⟩

/-! ## The invariant -/

/-- What holds of a table after calls that used the words `ws`. -/
structure TableKeeps (ws : Finset Addr) (t : ObjectTable) : Prop where
  blocksSet : BlocksSet t
  oneEntry : OneEntryEach t
  keys : keysOf t = ws

/-- While the words used fit, the table holds an entry for each; once they do
not, some call had no mirror. -/
def LedgerInv (ws : Finset Addr) (s : Ledger) : Prop :=
  (∀ p ∈ s.handed, p.2 ≠ null) ∧ TableKeeps ws s.table ∧ ws.card ≤ maxNoObjects ∨
    (∃ p ∈ s.handed, p.2 = null) ∧ maxNoObjects < ws.card

/-- A call on a word that has an entry gets its block and changes nothing. -/
theorem mirrorFor_of_mem {ws : Finset Addr} (h : TableKeeps ws t) (hkey : key ≠ null)
    (hmem : key ∈ ws) (out : Addr) :
    (mirrorFor t key out).1 ≠ null ∧ (mirrorFor t key out).2 = t := by
  have hfound : getOutAddress t key ≠ null :=
    (getOutAddress_ne_null_iff h.blocksSet hkey).mpr (h.keys ▸ hmem)
  simp only [mirrorFor, if_neg hfound]
  exact ⟨hfound, trivial⟩

/-- A call on a new word gets the block it brings while there is room. -/
theorem mirrorFor_of_room {ws : Finset Addr} (h : TableKeeps ws t) (hkey : key ≠ null)
    (hout : out ≠ null) (hnew : key ∉ ws) (hroom : ws.card < maxNoObjects) :
    (mirrorFor t key out).1 = out ∧ TableKeeps (insert key ws) (mirrorFor t key out).2 := by
  have hmiss : getOutAddress t key = null := by
    by_contra hfound
    exact hnew (h.keys ▸ (getOutAddress_ne_null_iff h.blocksSet hkey).mp hfound)
  have hr : HasRoom t := (hasRoom_iff_keysOf h.oneEntry).mpr (h.keys.symm ▸ hroom)
  obtain ⟨i, hi, hnull, -, heq⟩ := setOutAddress_of_hasRoom key out hr
  simp only [mirrorFor, if_pos hmiss, heq, true_and]
  exact
    { blocksSet := h.blocksSet.fill hout
      oneEntry := h.oneEntry.fill (h.keys.symm ▸ hnew) hkey
      keys := by rw [keysOf_fill hi hnull hkey, h.keys] }

/-- A call on a new word gets `NULL` once there is no room. -/
theorem mirrorFor_of_full {ws : Finset Addr} (h : TableKeeps ws t) (hkey : key ≠ null)
    (hnew : key ∉ ws) (hfull : maxNoObjects ≤ ws.card) (out : Addr) :
    (mirrorFor t key out).1 = null := by
  have hmiss : getOutAddress t key = null := by
    by_contra hfound
    exact hnew (h.keys ▸ (getOutAddress_ne_null_iff h.blocksSet hkey).mp hfound)
  have hr : ¬ HasRoom t := by
    rw [hasRoom_iff_keysOf h.oneEntry, h.keys]
    exact Nat.not_lt.mpr hfull
  simp only [mirrorFor, if_pos hmiss, setOutAddress_of_not_hasRoom key out hr]

/-- The step lemma. -/
theorem LedgerInv.call {ws : Finset Addr} {s : Ledger} (h : LedgerInv ws s) (hkey : key ≠ null)
    (hout : out ≠ null) : LedgerInv (insert key ws) (s.step (.call key out)) := by
  rcases h with ⟨hall, ht, hcard⟩ | ⟨⟨p, hp, hnull⟩, hcard⟩
  · by_cases hmem : key ∈ ws
    · obtain ⟨hne, hsame⟩ := mirrorFor_of_mem ht hkey hmem out
      rw [Finset.insert_eq_of_mem hmem]
      refine .inl ⟨?_, by simpa only [Ledger.step, hsame] using ht, hcard⟩
      exact List.forall_mem_cons.mpr ⟨hne, hall⟩
    · have hsucc := Finset.card_insert_of_notMem hmem
      rcases Nat.lt_or_ge ws.card maxNoObjects with hroom | hfull
      · obtain ⟨hmirror, hkeeps⟩ := mirrorFor_of_room ht hkey hout hmem hroom
        refine .inl ⟨?_, hkeeps, by omega⟩
        exact List.forall_mem_cons.mpr ⟨by rw [hmirror]; exact hout, hall⟩
      · have hmirror := mirrorFor_of_full ht hkey hmem hfull out
        exact .inr ⟨⟨_, List.mem_cons_self, hmirror⟩, by omega⟩
  · refine .inr ⟨⟨p, List.mem_cons_of_mem _ hp, hnull⟩, ?_⟩
    exact Nat.lt_of_lt_of_le hcard (Finset.card_le_card (Finset.subset_insert _ _))

theorem ledgerInv_boot : LedgerInv ∅ ⟨emptyTable, []⟩ := by
  refine .inl ⟨?_, ?_, Nat.zero_le _⟩
  · intro p hp
    cases hp
  refine { blocksSet := blocksSet_empty, oneEntry := ?_, keys := ?_ }
  · intro i _ j _ hne
    exact absurd rfl hne
  · refine Finset.eq_empty_of_forall_notMem fun k hk => ?_
    obtain ⟨i, -, hin, hne⟩ := mem_keysOf.mp hk
    exact hne hin.symm

/-- The run lemma. -/
theorem ledgerInv_after {ops : List WordOp} (h : ∀ op ∈ ops, op.Served) :
    LedgerInv (wordsUsed ops).toFinset (Ledger.after ops) := by
  induction ops using List.reverseRecOn with
  | nil => exact ledgerInv_boot
  | append_singleton ops op ih =>
      have hinv := ih fun o ho => h o (List.mem_append_left _ ho)
      have hop := h op (List.mem_append_right _ (List.mem_singleton_self _))
      cases op with
      | call key out =>
          have hstep := hinv.call hop.1 hop.2
          have hws : (wordsUsed (ops ++ [.call key out])).toFinset =
              insert key (wordsUsed ops).toFinset := by
            ext k
            simp [wordsUsed]
          rw [hws]
          simpa only [Ledger.after, List.foldl_append, List.foldl_cons, List.foldl_nil] using hstep
      | retire key =>
          have hws : wordsUsed (ops ++ [.retire key]) = wordsUsed ops := by
            simp [wordsUsed]
          rw [hws]
          simpa only [Ledger.after, List.foldl_append, List.foldl_cons, List.foldl_nil,
            Ledger.step] using hinv

/-- **The table runs out.** All calls of a run have a mirror exactly when the
run uses at most `maxNoObjects` different words, retired or not. -/
theorem table_suffices_iff (ops : List WordOp) (h : ∀ op ∈ ops, op.Served) :
    AllMirrored ops ↔ (wordsUsed ops).toFinset.card ≤ maxNoObjects := by
  rcases ledgerInv_after h with ⟨hall, -, hcard⟩ | ⟨⟨p, hp, hnull⟩, hcard⟩
  · exact ⟨fun _ => hcard, fun _ => hall⟩
  · refine ⟨fun hall => absurd hnull (hall p hp), fun hle => ?_⟩
    exact absurd hcard (Nat.not_lt.mpr hle)

/-- Two words, the first used twice and then retired. -/
theorem table_suffices_two :
    AllMirrored [.call 8 100, .call 8 200, .retire 8, .call 16 300] ↔ 2 ≤ maxNoObjects :=
  table_suffices_iff [.call 8 100, .call 8 200, .retire 8, .call 16 300]
    (by simp [WordOp.Served, null])

/-- One word after the other, each retired before the next is used. -/
def oneByOne (n : Nat) : List WordOp :=
  (List.range n).flatMap fun i => [.call (i + 1) (i + 1), .retire (i + 1)]

theorem wordsUsed_oneByOne (n : Nat) :
    wordsUsed (oneByOne n) = (List.range n).map (· + 1) := by
  induction n with
  | zero => rfl
  | succ n ih =>
      simp only [wordsUsed, oneByOne] at ih
      simp [wordsUsed, oneByOne, List.range_succ, List.flatMap_append, ih]

/-- With a word too many, some call passes `NULL` on. -/
theorem table_runs_out :
    (∀ op ∈ oneByOne (maxNoObjects + 1), op.Served) ∧
      ∃ p ∈ (Ledger.after (oneByOne (maxNoObjects + 1))).handed, p.2 = null := by
  have hserved : ∀ op ∈ oneByOne (maxNoObjects + 1), op.Served := by
    intro op hop
    simp only [oneByOne, List.mem_flatMap, List.mem_cons, List.not_mem_nil, or_false] at hop
    obtain ⟨i, -, rfl | rfl⟩ := hop
    · exact ⟨Nat.succ_ne_zero i, Nat.succ_ne_zero i⟩
    · trivial
  refine ⟨hserved, ?_⟩
  have hcard : (wordsUsed (oneByOne (maxNoObjects + 1))).toFinset.card = maxNoObjects + 1 := by
    rw [wordsUsed_oneByOne, List.toFinset_card_of_nodup, List.length_map, List.length_range]
    exact List.nodup_range.map (Nat.succ_injective)
  rcases ledgerInv_after hserved with ⟨-, -, hle⟩ | ⟨hnull, -⟩
  · rw [hcard] at hle
    omega
  · exact hnull

end Porpoise.Futex
