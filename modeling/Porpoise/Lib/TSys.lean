import Mathlib.Data.List.Basic
import Mathlib.Tactic.TypeStar

/-!
# Labelled transition systems and their runs

A system is a set of initial states and a partial step function: the label
resolves every choice (which thread moves, what the environment answers), so
a run is a list of labels. `Run G as s` is a run all of whose steps meet the
guard `G`; `G := Any` gives all runs. An invariant is proved once per step
and lifted to runs by `Run.invariant`.
-/

namespace Porpoise.Lib

/-- A transition system: `next s a` is the state after the step labelled `a`,
`none` when that step is not enabled in `s`. -/
structure TSys (σ α : Type*) where
  init : σ → Prop
  next : σ → α → Option σ

namespace TSys

variable {σ α : Type*}

/-- The guard that lets every step pass. -/
abbrev Any : σ → α → Prop := fun _ _ => True

/-- `S.Run G as s`: the labels `as`, taken in order from an initial state,
lead to `s`, and every step of it meets `G` in the state it is taken in. -/
inductive Run (S : TSys σ α) (G : σ → α → Prop) : List α → σ → Prop
  | nil {s} : S.init s → Run S G [] s
  | snoc {as s a s'} : Run S G as s → G s a → S.next s a = some s' →
      Run S G (as ++ [a]) s'

/-- The labels `as` run from `s`, by computation; a step that fails the
executable guard `g` stops the run. -/
def execWhere (S : TSys σ α) (g : σ → α → Bool) : σ → List α → Option σ
  | s, [] => some s
  | s, a :: as =>
      if g s a then (S.next s a).bind fun s' => S.execWhere g s' as else none

variable {S : TSys σ α} {G G' : σ → α → Prop} {as : List α} {s s' : σ}

/-- What holds initially and is kept by every step that meets the guard holds
in every state a guarded run reaches. -/
theorem Run.invariant {I : σ → Prop} (hinit : ∀ s, S.init s → I s)
    (hstep : ∀ s a s', I s → G s a → S.next s a = some s' → I s')
    (h : S.Run G as s) : I s := by
  induction h with
  | nil h => exact hinit _ h
  | snoc _ hg hn ih => exact hstep _ _ _ ih hg hn

/-- A guard may be replaced by what it implies in the states a run reaches. -/
theorem Run.mono_of {I : σ → Prop} (hinit : ∀ s, S.init s → I s)
    (hstep : ∀ s a s', I s → G s a → S.next s a = some s' → I s')
    (himp : ∀ s a, I s → G s a → G' s a) (h : S.Run G as s) : S.Run G' as s := by
  induction h with
  | nil h => exact .nil h
  | snoc hr hg hn ih => exact .snoc ih (himp _ _ (hr.invariant hinit hstep) hg) hn

/-- A property of all the labels taken may join the guard. -/
theorem Run.and_labels {P : α → Prop} (h : S.Run G as s) (hP : ∀ a ∈ as, P a) :
    S.Run (fun s a => G s a ∧ P a) as s := by
  induction h with
  | nil h => exact .nil h
  | snoc _ hg hn ih =>
      have hlast := hP _ (List.mem_append_right _ (List.mem_singleton_self _))
      exact .snoc (ih fun a ha => hP a (List.mem_append_left _ ha)) ⟨hg, hlast⟩ hn

/-- A run continues with what `execWhere` computes from the state it reached. -/
theorem Run.execWhere {g : σ → α → Bool} (hg : ∀ s a, g s a = true → G s a) :
    ∀ {bs as : List α} {s s' : σ}, S.Run G as s → S.execWhere g s bs = some s' →
      S.Run G (as ++ bs) s'
  | [], as, s, s', hr, h => by
      cases h
      simpa using hr
  | b :: bs, as, s, s', hr, h => by
      simp only [TSys.execWhere] at h
      split at h
      · rename_i hgb
        obtain ⟨t, ht, h⟩ := Option.bind_eq_some_iff.mp h
        have hr' : S.Run G (as ++ [b]) t := .snoc hr (hg _ _ hgb) ht
        simpa using hr'.execWhere hg h
      · cases h

/-- Computed runs are runs: with what `f` observes of the state reached. -/
theorem exists_run {β : Type*} (S : TSys σ α) (G : σ → α → Prop) [∀ s a, Decidable (G s a)]
    (as : List α) (hs : S.init s) (f : σ → β) {b : β}
    (h : (S.execWhere (fun s a => decide (G s a)) s as).map f = some b) :
    ∃ s', S.Run G as s' ∧ f s' = b := by
  obtain ⟨s', hs', hb⟩ := Option.map_eq_some_iff.mp h
  refine ⟨s', ?_, hb⟩
  simpa using (Run.nil hs).execWhere (fun _ _ => of_decide_eq_true) hs'

end TSys

end Porpoise.Lib
