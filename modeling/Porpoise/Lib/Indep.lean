import Mathlib.Data.List.Basic
import Mathlib.Tactic.TypeStar

/-!
# Independence of a secret part of the state

A relation `R` says which states an observer must not tell apart; an
observation `f` is independent of the rest when it is equal on related states
(a two-run property). The lemmas take a structured observation apart, in both
directions, so that independence of the whole is decided part by part.
-/

namespace Porpoise.Lib

/-- `f` is the same in any two states related by `R`. -/
def Indep {σ α : Type*} (R : σ → σ → Prop) (f : σ → α) : Prop := ∀ s t, R s t → f s = f t

variable {σ α β : Type*} {R : σ → σ → Prop}

@[simp] theorem indep_const (a : α) : Indep R (fun _ => a) := fun _ _ _ => rfl

theorem Indep.comp {f : σ → α} (h : Indep R f) (g : α → β) : Indep R fun s => g (f s) :=
  fun s t hst => congrArg g (h s t hst)

/-- Nothing is lost by an injective function. -/
theorem indep_injective {f : σ → α} {g : α → β} (hg : Function.Injective g) :
    (Indep R fun s => g (f s)) ↔ Indep R f :=
  ⟨fun h s t hst => hg (h s t hst), fun h => h.comp g⟩

@[simp] theorem indep_cons {f : σ → α} {g : σ → List α} :
    (Indep R fun s => f s :: g s) ↔ Indep R f ∧ Indep R g := by
  constructor
  · intro h
    exact ⟨fun s t hst => (List.cons.inj (h s t hst)).1,
      fun s t hst => (List.cons.inj (h s t hst)).2⟩
  · rintro ⟨hf, hg⟩ s t hst
    show f s :: g s = f t :: g t
    rw [hf s t hst, hg s t hst]

theorem indep_pair {f : σ → α} {g : σ → β} :
    (Indep R fun s => (f s, g s)) ↔ Indep R f ∧ Indep R g := by
  constructor
  · intro h
    exact ⟨fun s t hst => (Prod.mk.inj (h s t hst)).1,
      fun s t hst => (Prod.mk.inj (h s t hst)).2⟩
  · rintro ⟨hf, hg⟩ s t hst
    show (f s, g s) = (f t, g t)
    rw [hf s t hst, hg s t hst]

/-- A list with one entry for each number below `n`. -/
theorem indep_map_range {n : Nat} {f : σ → Nat → α} :
    (Indep R fun s => (List.range n).map (f s)) ↔ ∀ i < n, Indep R fun s => f s i := by
  constructor
  · intro h i hi s t hst
    exact List.map_inj_left.mp (h s t hst) i (List.mem_range.mpr hi)
  · intro h s t hst
    exact List.map_inj_left.mpr fun i hi => h i (List.mem_range.mp hi) s t hst

/-- Two lists, the first of which always has the same length. -/
theorem indep_append {f g : σ → List α} (hf : ∀ s t, (f s).length = (f t).length) :
    (Indep R fun s => f s ++ g s) ↔ Indep R f ∧ Indep R g := by
  constructor
  · intro h
    exact ⟨fun s t hst => List.append_inj_left (h s t hst) (hf s t),
      fun s t hst => List.append_inj_right (h s t hst) (hf s t)⟩
  · rintro ⟨h, h'⟩ s t hst
    show f s ++ g s = f t ++ g t
    rw [h s t hst, h' s t hst]

/-- Loops whose rounds emit lists of the same lengths. -/
theorem length_flatMap_range {n : Nat} {f g : Nat → List α}
    (h : ∀ i, (f i).length = (g i).length) :
    ((List.range n).flatMap f).length = ((List.range n).flatMap g).length := by
  simp only [List.length_flatMap, h]

/-- A loop whose rounds always emit lists of the same lengths. -/
theorem indep_flatMap_range {n : Nat} {f : σ → Nat → List α}
    (hf : ∀ s t i, (f s i).length = (f t i).length) :
    (Indep R fun s => (List.range n).flatMap (f s)) ↔ ∀ i < n, Indep R fun s => f s i := by
  induction n with
  | zero => simp
  | succ n ih =>
      have hlen : ∀ s t, ((List.range n).flatMap (f s)).length =
          ((List.range n).flatMap (f t)).length := fun s t => length_flatMap_range (hf s t)
      simp only [List.range_succ, List.flatMap_append, List.flatMap_cons, List.flatMap_nil,
        List.append_nil]
      rw [indep_append hlen, ih]
      constructor
      · rintro ⟨hfirst, hlast⟩ i hi
        rcases Nat.lt_succ_iff_lt_or_eq.mp hi with hlt | rfl
        · exact hfirst i hlt
        · exact hlast
      · intro h
        exact ⟨fun i hi => h i (by omega), h n (by omega)⟩

/-- The last entry of a list. -/
theorem Indep.last {f : σ → List α} {g : σ → α} (h : Indep R f)
    (hlast : ∀ s, (f s).getLast? = some (g s)) : Indep R g := by
  intro s t hst
  have heq := congrArg List.getLast? (h s t hst)
  rw [hlast, hlast] at heq
  exact Option.some.inj heq

/-- Two observations that are the same in every state that `R` relates. -/
theorem indep_congr {P : σ → Prop} {f g : σ → α} (hR : ∀ s t, R s t → P s ∧ P t)
    (h : ∀ s, P s → f s = g s) : Indep R f ↔ Indep R g := by
  refine forall_congr' fun s => forall_congr' fun t => imp_congr_right fun hst => ?_
  rw [h s (hR s t hst).1, h t (hR s t hst).2]

/-- A branch that does not depend on the state. -/
@[simp] theorem indep_ite {p : Prop} [Decidable p] {f g : σ → α} :
    (Indep R fun s => if p then f s else g s) ↔
      (p → Indep R f) ∧ (¬ p → Indep R g) := by
  by_cases h : p <;> simp [h]

end Porpoise.Lib
