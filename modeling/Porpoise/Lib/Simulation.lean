import Porpoise.Lib.TSys

/-!
# Forward simulation

A run of a system `S` is a run of a system `T` in smaller steps when every step of `S`
is matched by a step of `T`, or by none, so that a relation between the states is kept.

* `Run.simulate`: the run of `T` that belongs to a run of `S`, with the guards of both.
-/

namespace Porpoise.Lib.TSys

variable {σ τ α β : Type*} {S : TSys σ α} {T : TSys τ β} {R : σ → τ → Prop}
  {G : σ → α → Prop} {H : τ → β → Prop} {as : List α} {s : σ}

/-- `R` holds initially and is kept when each step of `S` that meets `G` is matched by at
most one step of `T`, which meets `H`. -/
structure Simulates (S : TSys σ α) (T : TSys τ β) (G : σ → α → Prop) (H : τ → β → Prop)
    (R : σ → τ → Prop) : Prop where
  init : ∀ s, S.init s → ∃ t, T.init t ∧ R s t
  step : ∀ s t a s', R s t → G s a → S.next s a = some s' →
    R s' t ∨ ∃ b t', H t b ∧ T.next t b = some t' ∧ R s' t'

/-- **Runs.** To every run of `S` belongs a run of `T` that ends in a related state. -/
theorem Run.simulate (hsim : Simulates S T G H R) (h : S.Run G as s) :
    ∃ bs t, T.Run H bs t ∧ R s t := by
  induction h with
  | nil h =>
      obtain ⟨t, ht, hrel⟩ := hsim.init _ h
      exact ⟨[], t, .nil ht, hrel⟩
  | snoc _ hg hn ih =>
      obtain ⟨bs, t, hrun, hrel⟩ := ih
      rcases hsim.step _ _ _ _ hrel hg hn with hrel' | ⟨b, t', hh, hn', hrel'⟩
      · exact ⟨bs, t, hrun, hrel'⟩
      · exact ⟨bs ++ [b], t', .snoc hrun hh hn', hrel'⟩

end Porpoise.Lib.TSys
