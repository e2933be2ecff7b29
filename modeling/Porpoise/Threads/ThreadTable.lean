import Mathlib.Data.Finset.Card
import Mathlib.Data.List.Induction
import Mathlib.Logic.Relation
import Porpoise.Lib.LastWrite
import Porpoise.Lib.Scan
import Porpoise.Threads.Registration

/-!
# The thread table as a map

`__set_thread_area` enters the calling TCS in the first free entry of `fs_table`, without a
look at the entries before it; `__pthread_self` stops at the first entry of its TCS. Nothing
is ever removed.

* `setThreadArea` and `pthreadSelf`: a call that nothing interrupts, and
  `setThreadArea_steps` and `pthreadSelf_steps`: these are the accesses of `areaStep` and
  `lookStep`, one after the other.
* `Filled`: the table lists the registrations in their order.
* `last_write_wins_iff`: for which sequences of registrations the table is a map.
-/

namespace Porpoise.Threads

open Porpoise.Lib Relation

/-- The static table before the first call. -/
def emptyTable : FsTable := fun _ => ⟨null, null⟩

/-- `__set_thread_area(data)` on the TCS `tcs`; `none` when the assertion fails. -/
def setThreadArea (t : FsTable) (tcs data : Addr) : Option FsTable :=
  let i := scan (fun i => (t i).tcs == null) maxThreads
  if i < maxThreads then some (fill t i ⟨tcs, data⟩) else none

/-- `__pthread_self()` on the TCS `tcs`; `none` when the assertion fails. -/
def pthreadSelf (t : FsTable) (tcs : Addr) : Option Addr :=
  let i := scan (fun i => (t i).tcs == tcs) maxThreads
  if i < maxThreads then some (t i).fs else none

variable {t t' : FsTable} {tcs data : Addr} {i k : Nat} {th : Thread}

/-! ## Access by access -/

/-- One access of `__set_thread_area`. -/
def AreaStep (p q : FsTable × Thread) : Prop := areaStep p.1 p.2 = some q

/-- One access of `__pthread_self` that is not the last. -/
def LookStep (t : FsTable) (p q : Thread) : Prop := lookStep t p = some (q, none)

/-- The loop passes entries that are in use. -/
theorem area_passes (th : Thread) (hk : k ≤ maxThreads) (h : ∀ j < k, (t j).tcs ≠ null) :
    ReflTransGen AreaStep (t, { th with pc := .scan 0 }) (t, { th with pc := .scan k }) := by
  induction k with
  | zero => exact .refl
  | succ k ih =>
      refine (ih (by omega) fun j hj => h j (by omega)).tail ?_
      show areaStep t { th with pc := .scan k } = _
      have hlt : k < maxThreads := by omega
      simp only [areaStep, if_pos hlt, if_neg (h k (Nat.lt_succ_self k))]

theorem scan_free_ne (h : k ≤ scan (fun i => (t i).tcs == null) maxThreads) :
    ∀ j < k, (t j).tcs ≠ null := by
  intro j hj
  have hle := scan_le (fun i => (t i).tcs == null) maxThreads
  by_cases hlt : scan (fun i => (t i).tcs == null) maxThreads < maxThreads
  · exact beq_eq_false_iff_ne.mp ((scan_spec hlt).2 j (by omega))
  · have hall := scan_eq_length_iff.mp (Nat.le_antisymm hle (Nat.le_of_not_lt hlt))
    exact beq_eq_false_iff_ne.mp (hall j (by omega))

theorem fill_fill (t : FsTable) (i : Nat) (e e' : FsMap) :
    fill (fill t i e) i e' = fill t i e' := by
  funext j
  by_cases hj : j = i
  · subst hj
    rw [fill_self, fill_self]
  · rw [fill_of_ne hj, fill_of_ne hj, fill_of_ne hj]

/-- **A registration**, access by access. -/
theorem setThreadArea_steps (h : setThreadArea t th.tcs th.self = some t') :
    ReflTransGen AreaStep (t, { th with pc := .scan 0 })
      (t', { th with pc := .body, registered := true }) := by
  simp only [setThreadArea] at h
  split at h
  · next hi =>
      obtain rfl := Option.some.inj h
      generalize hscan : scan (fun i => (t i).tcs == null) maxThreads = i at hi ⊢
      have hfree : (t i).tcs = null := by
        have hspec := (scan_spec (p := fun i => (t i).tcs == null) (hscan.symm ▸ hi)).1
        rw [hscan] at hspec
        exact eq_of_beq hspec
      have hscanned := area_passes th hi.le (scan_free_ne hscan.ge)
      have hfound : AreaStep (t, { th with pc := .scan i }) (t, { th with pc := .storeTcs i }) := by
        show areaStep t { th with pc := .scan i } = _
        simp only [areaStep, if_pos hi, if_pos hfree]
      have htcs : AreaStep (t, { th with pc := .storeTcs i })
          (fill t i { t i with tcs := th.tcs }, { th with pc := .storeFs i }) := rfl
      have hfs : AreaStep (fill t i { t i with tcs := th.tcs }, { th with pc := .storeFs i })
          (fill t i ⟨th.tcs, th.self⟩, { th with pc := .body, registered := true }) := by
        show some (fill (fill t i { t i with tcs := th.tcs }) i
          { fill t i { t i with tcs := th.tcs } i with fs := th.self }, _) = _
        rw [fill_fill, fill_self]
      exact ((hscanned.tail hfound).tail htcs).tail hfs
  · cases h

/-- The loop that finds no free entry ends in the assertion. -/
theorem setThreadArea_fails (h : setThreadArea t th.tcs th.self = none) :
    ReflTransGen AreaStep (t, { th with pc := .scan 0 })
      (t, { th with pc := .aborted, look := some (.entry 0) }) := by
  simp only [setThreadArea] at h
  split at h
  · cases h
  · next hi =>
      refine (area_passes th le_rfl (scan_free_ne (Nat.le_of_not_lt hi))).tail ?_
      show areaStep t { th with pc := .scan maxThreads } = _
      simp only [areaStep, if_neg (Nat.lt_irrefl maxThreads)]

/-- The loop passes entries of others. -/
theorem look_passes (hk : k ≤ maxThreads) (h : ∀ j < k, (t j).tcs ≠ th.tcs) :
    ReflTransGen (LookStep t) { th with look := some (.entry 0) }
      { th with look := some (.entry k) } := by
  induction k with
  | zero => exact .refl
  | succ k ih =>
      refine (ih (by omega) fun j hj => h j (by omega)).tail ?_
      show lookStep t { th with look := some (.entry k) } = _
      have hlt : k < maxThreads := by omega
      simp only [lookStep, if_pos hlt, if_neg (h k (Nat.lt_succ_self k))]

/-- **A look-up**, access by access: it returns the data, or fails its assertion. -/
theorem pthreadSelf_steps (t : FsTable) (th : Thread) :
    ∃ last, ReflTransGen (LookStep t) { th with look := some (.entry 0) } last ∧
      match pthreadSelf t th.tcs with
      | some p => lookStep t last = some ({ th with look := none }, some (some p))
      | none => lookStep t last = some ({ th with pc := .aborted, look := none }, some none) := by
  simp only [pthreadSelf]
  by_cases hi : scan (fun i => (t i).tcs == th.tcs) maxThreads < maxThreads
  · obtain ⟨hown, hothers⟩ := scan_spec hi
    rw [if_pos hi]
    refine ⟨_, (look_passes hi.le fun j hj => beq_eq_false_iff_ne.mp (hothers j hj)).tail
      (c := { th with look := some (.data (scan (fun i => (t i).tcs == th.tcs) maxThreads)) })
      ?_, rfl⟩
    show lookStep t { th with look := some (.entry _) } = _
    simp only [lookStep, if_pos hi, if_pos (eq_of_beq hown)]
  · rw [if_neg hi]
    have hend := Nat.le_antisymm (scan_le _ _) (Nat.le_of_not_lt hi)
    refine ⟨_, look_passes le_rfl fun j hj =>
      beq_eq_false_iff_ne.mp (scan_eq_length_iff.mp hend j hj), ?_⟩
    show lookStep t { th with look := some (.entry maxThreads) } = _
    simp only [lookStep, if_neg (Nat.lt_irrefl maxThreads)]

/-! ## Sequences of registrations -/

/-- A call of `__set_thread_area` with the structure it runs on. -/
structure Registration where
  tcs : Addr
  data : Addr
  tcs_ne : tcs ≠ null

def tableSys : TSys FsTable Registration where
  init t := t = emptyTable
  next t r := setThreadArea t r.tcs r.data

/-- What the calls write to the map that the table stands for. -/
def writes (rs : List Registration) : List (Addr × Addr) := rs.map fun r => (r.tcs, r.data)

/-- **The table is a map**: no registration fails its assertion; a look-up returns the data
of the most recent registration on its structure; and a registration changes no look-up on
another structure. -/
structure LastWriteWins (rs : List Registration) : Prop where
  registers : ∃ t, tableSys.Run TSys.Any rs t
  self : ∀ ps, ps <+: rs → ∀ t, tableSys.Run TSys.Any ps t →
    ∀ tcs data, lastWrite (writes ps) tcs = some data → pthreadSelf t tcs = some data
  others : ∀ ps r, ps ++ [r] <+: rs → ∀ t t', tableSys.Run TSys.Any ps t →
    tableSys.next t r = some t' → ∀ tcs, tcs ≠ null → tcs ≠ r.tcs →
      pthreadSelf t' tcs = pthreadSelf t tcs

variable {rs ps : List Registration} {r : Registration}

/-- The table lists these registrations, and the rest of it is free. -/
def Filled (t : FsTable) (rs : List Registration) : Prop :=
  ∀ i < maxThreads, t i = match rs[i]? with
    | some r => ⟨r.tcs, r.data⟩
    | none => ⟨null, null⟩

theorem Filled.of_lt (h : Filled t rs) (hi : i < maxThreads) (hlt : i < rs.length) :
    t i = ⟨rs[i].tcs, rs[i].data⟩ := by
  rw [h i hi, List.getElem?_eq_getElem hlt]

theorem Filled.of_ge (h : Filled t rs) (hi : i < maxThreads) (hge : rs.length ≤ i) :
    t i = ⟨null, null⟩ := by
  rw [h i hi, List.getElem?_eq_none hge]

theorem Filled.scan_free (h : Filled t rs) (hlen : rs.length ≤ maxThreads) :
    scan (fun i => (t i).tcs == null) maxThreads = rs.length := by
  have hused : ∀ j < rs.length, ((t j).tcs == null) = false := by
    intro j hj
    rw [h.of_lt (by omega) hj]
    exact beq_eq_false_iff_ne.mpr rs[j].tcs_ne
  rcases Nat.lt_or_eq_of_le hlen with hlt | heq
  · refine (scan_eq_iff hlt).mpr ⟨?_, hused⟩
    rw [h.of_ge hlt le_rfl]
    rfl
  · rw [heq]
    exact scan_eq_length_iff.mpr fun j hj => hused j (heq ▸ hj)

/-- One registration: the next entry, while there is one. -/
theorem Filled.register (h : Filled t rs) (hlen : rs.length ≤ maxThreads) (r : Registration) :
    setThreadArea t r.tcs r.data =
      if rs.length < maxThreads then some (fill t rs.length ⟨r.tcs, r.data⟩) else none := by
  simp only [setThreadArea, h.scan_free hlen]

theorem Filled.snoc (h : Filled t rs) (r : Registration) :
    Filled (fill t rs.length ⟨r.tcs, r.data⟩) (rs ++ [r]) := by
  intro i hi
  by_cases hend : i = rs.length
  · subst hend
    rw [fill_self, List.getElem?_concat_length]
  · rw [fill_of_ne hend, h i hi]
    by_cases hlt : i < rs.length
    · rw [List.getElem?_append_left hlt]
    · rw [List.getElem?_eq_none (by omega), List.getElem?_eq_none]
      rw [List.length_append, List.length_singleton]
      omega

/-- What a run leaves in the table. -/
theorem filled_of_run (h : tableSys.Run TSys.Any rs t) : Filled t rs ∧ rs.length ≤ maxThreads := by
  induction h with
  | nil hinit =>
      obtain rfl : _ = emptyTable := hinit
      exact ⟨fun i _ => rfl, Nat.zero_le _⟩
  | @snoc rs t r t' _ _ hnext ih =>
      obtain ⟨hfilled, hlen⟩ := ih
      have hstep : (if rs.length < maxThreads then some (fill t rs.length ⟨r.tcs, r.data⟩)
          else none) = some t' := (hfilled.register hlen r).symm.trans hnext
      split at hstep
      · next hlt =>
          obtain rfl := Option.some.inj hstep
          refine ⟨hfilled.snoc r, ?_⟩
          rw [List.length_append, List.length_singleton]
          exact hlt
      · cases hstep

/-- **No assertion fails** as long as there are entries. -/
theorem registers_iff : (∃ t, tableSys.Run TSys.Any rs t) ↔ rs.length ≤ maxThreads := by
  constructor
  · rintro ⟨t, h⟩
    exact (filled_of_run h).2
  · induction rs using List.reverseRecOn with
    | nil => exact fun _ => ⟨emptyTable, .nil rfl⟩
    | append_singleton rs r ih =>
        intro hlen
        rw [List.length_append, List.length_singleton] at hlen
        obtain ⟨t, hrun⟩ := ih (by omega)
        have hnext := (filled_of_run hrun).1.register (by omega) r
        rw [if_pos (by omega)] at hnext
        exact ⟨_, .snoc hrun trivial hnext⟩

/-- **A look-up** finds the first registration on its structure. -/
theorem Filled.self (h : Filled t rs) (hlen : rs.length ≤ maxThreads) (htcs : tcs ≠ null) :
    pthreadSelf t tcs = (writes rs).lookup tcs := by
  cases hfound : (writes rs).lookup tcs with
  | none =>
      have hother : ∀ i < maxThreads, ((t i).tcs == tcs) = false := by
        intro i hi
        refine beq_eq_false_iff_ne.mpr fun heq => ?_
        by_cases hlt : i < rs.length
        · rw [h.of_lt hi hlt] at heq
          have hmem : (rs[i].tcs, rs[i].data) ∈ writes rs :=
            List.mem_map_of_mem (List.getElem_mem hlt)
          exact bne_iff_ne.mp (List.lookup_eq_none_iff.mp hfound _ hmem) heq.symm
        · rw [h.of_ge hi (by omega)] at heq
          exact htcs heq.symm
      simp only [pthreadSelf, scan_eq_length_iff.mpr hother, if_neg (Nat.lt_irrefl maxThreads)]
  | some data =>
      obtain ⟨l₁, l₂, hsplit, hne⟩ := List.lookup_eq_some_iff.mp hfound
      have hget : ∀ j : Nat, (writes rs)[j]? = (l₁ ++ (tcs, data) :: l₂)[j]? := by
        intro j
        rw [hsplit]
      -- the entries before, and this one
      have hentry : ∀ (j : Nat) (x : Addr × Addr), j ≤ l₁.length →
          (l₁ ++ (tcs, data) :: l₂)[j]? = some x → j < maxThreads ∧ t j = ⟨x.1, x.2⟩ := by
        intro j x hj hx
        rw [← hget, writes, List.getElem?_map, Option.map_eq_some_iff] at hx
        obtain ⟨r, hr, rfl⟩ := hx
        have hlt : j < rs.length := (List.getElem?_eq_some_iff.mp hr).1
        refine ⟨by omega, ?_⟩
        rw [h j (by omega), hr]
      obtain ⟨hlt, hown⟩ := hentry l₁.length (tcs, data) le_rfl (by simp)
      have hscan : scan (fun i => (t i).tcs == tcs) maxThreads = l₁.length := by
        refine (scan_eq_iff hlt).mpr ⟨by rw [hown]; exact beq_self_eq_true tcs, fun j hj => ?_⟩
        have hj' : (l₁ ++ (tcs, data) :: l₂)[j]? = some l₁[j] := by
          rw [List.getElem?_append_left hj, List.getElem?_eq_getElem hj]
        rw [(hentry j _ hj.le hj').2]
        exact beq_eq_false_iff_ne.mpr (bne_iff_ne.mp (hne _ (List.getElem_mem hj))).symm
      simp only [pthreadSelf, hscan, if_pos hlt, hown]

theorem self_of_run (h : tableSys.Run TSys.Any rs t) (htcs : tcs ≠ null) :
    pthreadSelf t tcs = (writes rs).lookup tcs := by
  obtain ⟨hfilled, hlen⟩ := filled_of_run h
  exact hfilled.self hlen htcs

theorem writes_isPrefix (h : ps <+: rs) : writes ps <+: writes rs := h.map _

/-- A registration on one structure does not concern the others. -/
theorem self_of_other (h : tableSys.Run TSys.Any rs t) (hnext : tableSys.next t r = some t')
    (htcs : tcs ≠ null) (hne : tcs ≠ r.tcs) : pthreadSelf t' tcs = pthreadSelf t tcs := by
  have hone : List.lookup tcs [(r.tcs, r.data)] = none := by
    rw [List.lookup_cons, beq_eq_false_iff_ne.mpr hne]
    rfl
  rw [self_of_run (h.snoc trivial hnext) htcs, self_of_run h htcs, writes, writes, List.map_append,
    List.map_singleton, List.lookup_append, hone, Option.or_none]

/-- A key that was written is a structure. -/
theorem ne_null_of_mem {x : Addr × Addr} (hx : x ∈ writes rs) : x.1 ≠ null := by
  obtain ⟨r, -, rfl⟩ := List.mem_map.mp hx
  exact r.tcs_ne

/-- Look-ups return the most recent data when no registration changes that of the first. -/
theorem self_iff (hlen : rs.length ≤ maxThreads) :
    (∀ ps, ps <+: rs → ∀ t, tableSys.Run TSys.Any ps t →
      ∀ tcs data, lastWrite (writes ps) tcs = some data → pthreadSelf t tcs = some data) ↔
      ∀ r ∈ rs, (writes rs).lookup r.tcs = some r.data := by
  have hwrites : (∀ r ∈ rs, (writes rs).lookup r.tcs = some r.data) ↔
      ∀ x ∈ writes rs, (writes rs).lookup x.1 = some x.2 := by
    rw [writes, List.forall_mem_map]
  rw [hwrites, ← forall_lookup_eq_lastWrite_iff]
  constructor
  · intro h w hw tcs
    obtain ⟨n, rfl⟩ : ∃ n, w = (writes rs).take n := ⟨_, List.prefix_iff_eq_take.mp hw⟩
    rw [writes, ← List.map_take]
    have hp : rs.take n <+: rs := List.take_prefix n rs
    cases hlast : lastWrite (writes (rs.take n)) tcs with
    | none => exact (lookup_none_iff.mpr hlast).trans hlast.symm
    | some data =>
        obtain ⟨t, hrun⟩ := registers_iff.mpr (hp.length_le.trans hlen)
        have htcs : tcs ≠ null := ne_null_of_mem (mem_of_lastWrite hlast)
        have hself := h _ hp t hrun tcs data hlast
        rw [self_of_run hrun htcs] at hself
        exact hself.trans hlast.symm
  · intro h ps hp t hrun tcs data hlast
    have htcs : tcs ≠ null := ne_null_of_mem (mem_of_lastWrite hlast)
    rw [self_of_run hrun htcs, h _ (writes_isPrefix hp) tcs, hlast]

/-- **The thread table**: it is a map for the sequences of at most `maxThreads`
registrations of which none gives a structure other data than the first on it. Among them are
all on at most sixteen structures, each registered once. -/
theorem last_write_wins_iff (rs : List Registration) :
    (LastWriteWins rs ↔
      rs.length ≤ maxThreads ∧ ∀ r ∈ rs, (writes rs).lookup r.tcs = some r.data) ∧
    ∀ S : Finset Addr, S.card ≤ 16 → (∀ r ∈ rs, r.tcs ∈ S) → (rs.map Registration.tcs).Nodup →
      LastWriteWins rs := by
  have hiff : LastWriteWins rs ↔
      rs.length ≤ maxThreads ∧ ∀ r ∈ rs, (writes rs).lookup r.tcs = some r.data := by
    constructor
    · intro h
      have hlen := registers_iff.mp h.registers
      exact ⟨hlen, (self_iff hlen).mp h.self⟩
    · rintro ⟨hlen, hfirst⟩
      exact ⟨registers_iff.mpr hlen, (self_iff hlen).mpr hfirst,
        fun _ _ _ _ _ hrun hnext _ htcs hne => self_of_other hrun hnext htcs hne⟩
  refine ⟨hiff, fun S hcard hS hnodup => hiff.mpr ⟨?_, ?_⟩⟩
  · have hsub : (rs.map Registration.tcs).toFinset ⊆ S := by
      intro p hp
      obtain ⟨r, hr, rfl⟩ := List.mem_map.mp (List.mem_toFinset.mp hp)
      exact hS r hr
    have hle := Finset.card_le_card hsub
    rw [List.toFinset_card_of_nodup hnodup, List.length_map] at hle
    exact (hle.trans hcard).trans (by decide)
  · intro r hr
    have hkeys : ((writes rs).map Prod.fst).Nodup := by
      rw [writes, List.map_map]
      exact hnodup
    exact lookup_of_nodup hkeys (r.tcs, r.data) (List.mem_map_of_mem hr)

/-- A thread's structure, by the number of its TCS. -/
def onTcs (tcs data : Nat) : Registration := ⟨tcs + 1, data, Nat.succ_ne_zero tcs⟩

/-- A later thread on the second TCS finds the structure of the dead one; and the
twenty-first registration fails its assertion. -/
theorem registered_again :
    ¬ LastWriteWins [onTcs 0 100, onTcs 1 200, onTcs 1 300] ∧
      ¬ LastWriteWins ((List.range 21).map fun i => onTcs (i % 16) 100) := by
  constructor
  · intro h
    have hfirst := (self_iff (by decide)).mp h.self (onTcs 1 300) (by simp)
    exact absurd hfirst (by decide)
  · intro h
    exact absurd (registers_iff.mp h.registers) (by decide)

end Porpoise.Threads
