import Mathlib.Data.List.Chain
import Mathlib.Data.List.Pairwise
import Mathlib.Tactic.TypeStar

/-!
# Ranges that tile a stretch

Things that lie from `lo c` to `hi c`. A list of them tiles a stretch when each begins where the
one before ends; then each lies in the stretch, and what is apart from each is apart from it.

* `Tiles`: the ranges lie from one end to the other.
* `isChain_filter`: a chain that loses some of its elements between seams.
-/

namespace Porpoise.Lib

variable {α : Type*} (lo hi : α → ℕ)

/-- The ranges do not overlap. -/
def Apart (c d : α) : Prop := hi c ≤ lo d ∨ hi d ≤ lo c

/-- The list lies from `a` to `b` without gaps. -/
def Tiles : ℕ → ℕ → List α → Prop
  | a, b, [] => a = b
  | a, b, c :: cs => lo c = a ∧ Tiles (hi c) b cs

variable {lo hi} {a b : ℕ} {c d x : α} {cs : List α}

theorem Apart.symm (h : Apart lo hi c d) : Apart lo hi d c := Or.symm h

instance : Std.Symm (Apart lo hi) := ⟨fun _ _ => Apart.symm⟩

@[simp] theorem tiles_nil : Tiles lo hi a b [] ↔ a = b := Iff.rfl

@[simp] theorem tiles_cons : Tiles lo hi a b (c :: cs) ↔ lo c = a ∧ Tiles lo hi (hi c) b cs :=
  Iff.rfl

namespace Tiles

theorem le (h : Tiles lo hi a b cs) (hpos : ∀ c ∈ cs, lo c < hi c) : a ≤ b := by
  induction cs generalizing a with
  | nil => exact Nat.le_of_eq h
  | cons c cs ih =>
      have hc := hpos c List.mem_cons_self
      have hle := ih h.2 fun d hd => hpos d (List.mem_cons_of_mem _ hd)
      have ha := h.1
      omega

theorem append {m : ℕ} {ds : List α} (h : Tiles lo hi a m cs) (h' : Tiles lo hi m b ds) :
    Tiles lo hi a b (cs ++ ds) := by
  induction cs generalizing a with
  | nil =>
      cases h
      exact h'
  | cons c cs ih => exact ⟨h.1, ih h.2⟩

/-- Each of them lies in the stretch. -/
theorem within (h : Tiles lo hi a b cs) (hpos : ∀ c ∈ cs, lo c < hi c) (hc : c ∈ cs) :
    a ≤ lo c ∧ hi c ≤ b := by
  induction cs generalizing a with
  | nil => cases hc
  | cons d cs ih =>
      have hrest : ∀ c ∈ cs, lo c < hi c := fun c hc => hpos c (List.mem_cons_of_mem _ hc)
      have hd := hpos d List.mem_cons_self
      have hle := h.2.le hrest
      have ha := h.1
      rcases List.mem_cons.mp hc with rfl | hc
      · omega
      · have hin := ih h.2 hrest hc
        omega

/-- Each begins where another ends, but for the first. -/
theorem lo_eq (h : Tiles lo hi a b cs) (hc : c ∈ cs) : lo c = a ∨ ∃ d ∈ cs, hi d = lo c := by
  induction cs generalizing a with
  | nil => cases hc
  | cons d cs ih =>
      rcases List.mem_cons.mp hc with rfl | hc
      · exact Or.inl h.1
      · rcases ih h.2 hc with hlo | ⟨e, he, hlo⟩
        · exact Or.inr ⟨d, List.mem_cons_self, hlo.symm⟩
        · exact Or.inr ⟨e, List.mem_cons_of_mem _ he, hlo⟩

theorem lo_head (h : Tiles lo hi a b cs) : ∀ c ∈ cs.head?, lo c = a := by
  intro c hc
  cases cs with
  | nil => cases hc
  | cons d cs =>
      cases hc
      exact h.1

theorem hi_getLast (h : Tiles lo hi a b cs) : ∀ c ∈ cs.getLast?, hi c = b := by
  intro c hc
  induction cs generalizing a with
  | nil => cases hc
  | cons d cs ih =>
      cases cs with
      | nil =>
          cases hc
          exact h.2
      | cons e cs =>
          rw [List.getLast?_cons_cons] at hc
          exact ih h.2 hc

theorem pairwise (h : Tiles lo hi a b cs) (hpos : ∀ c ∈ cs, lo c < hi c) :
    cs.Pairwise (Apart lo hi) := by
  induction cs generalizing a with
  | nil => exact .nil
  | cons c cs ih =>
      have hrest : ∀ c ∈ cs, lo c < hi c := fun c hc => hpos c (List.mem_cons_of_mem _ hc)
      exact .cons (fun d hd => Or.inl (h.2.within hrest hd).1) (ih h.2 hrest)

/-- What is apart from each is apart from the stretch. -/
theorem apart (h : Tiles lo hi a b cs) (hpos : ∀ c ∈ cs, lo c < hi c) (hx : lo x < hi x)
    (hne : cs ≠ []) (hapart : ∀ c ∈ cs, Apart lo hi x c) : hi x ≤ a ∨ b ≤ lo x := by
  induction cs generalizing a with
  | nil => exact absurd rfl hne
  | cons c cs ih =>
      have hrest : ∀ c ∈ cs, lo c < hi c := fun c hc => hpos c (List.mem_cons_of_mem _ hc)
      have hc := hpos c List.mem_cons_self
      have hxc := hapart c List.mem_cons_self
      have ha := h.1
      unfold Apart at hxc
      by_cases hnil : cs = []
      · subst hnil
        have hb : hi c = b := h.2
        omega
      · have hfar := ih h.2 hrest hnil fun d hd => hapart d (List.mem_cons_of_mem _ hd)
        omega

end Tiles

/-! ## Chains that lose elements -/

section Filter

variable {R : α → α → Prop} {p : α → Bool} {F : α → Prop} {l : List α}

/-- The first element that stays comes behind a seam. -/
theorem head?_filter_of_isChain (h : (x :: l).IsChain R) (hx : p x = false)
    (hF : ∀ y ∈ x :: l, ∀ z ∈ x :: l, R y z → p y ≠ p z → F y) :
    ∀ z ∈ (l.filter p).head?, ∃ y ∈ x :: l, F y ∧ R y z := by
  induction l generalizing x with
  | nil =>
      intro z hz
      cases hz
  | cons y l ih =>
      intro z hz
      obtain ⟨hxy, htail⟩ := List.isChain_cons_cons.mp h
      by_cases hy : p y = true
      · rw [List.filter_cons_of_pos hy] at hz
        cases hz
        exact ⟨x, List.mem_cons_self, hF x List.mem_cons_self y (by simp) hxy (by simp [hx, hy]),
          hxy⟩
      · rw [List.filter_cons_of_neg hy] at hz
        obtain ⟨w, hw, hFw, hR⟩ := ih htail (Bool.eq_false_iff.mpr hy)
          (fun v hv w hw => hF v (List.mem_cons_of_mem _ hv) w (List.mem_cons_of_mem _ hw)) z hz
        exact ⟨w, List.mem_cons_of_mem _ hw, hFw, hR⟩

/-- **A chain loses some elements.** Where one stays and the next goes, or the other way round,
there is a seam, and what comes behind a seam may come behind any other. -/
theorem isChain_filter (h : l.IsChain R) (hF : ∀ x ∈ l, ∀ y ∈ l, R x y → p x ≠ p y → F x)
    (hjoin : ∀ x y z, F x → F y → R y z → R x z) : (l.filter p).IsChain R := by
  induction l with
  | nil => exact .nil
  | cons x l ih =>
      obtain ⟨hhead, htail⟩ := List.isChain_cons.mp h
      have hrest := ih htail fun y hy z hz =>
        hF y (List.mem_cons_of_mem _ hy) z (List.mem_cons_of_mem _ hz)
      by_cases hx : p x = true
      · rw [List.filter_cons_of_pos hx]
        refine List.isChain_cons.mpr ⟨fun z hz => ?_, hrest⟩
        cases l with
        | nil => cases hz
        | cons y l =>
            have hxy := hhead y rfl
            by_cases hy : p y = true
            · rw [List.filter_cons_of_pos hy] at hz
              cases hz
              exact hxy
            · rw [List.filter_cons_of_neg hy] at hz
              obtain ⟨w, -, hFw, hR⟩ := head?_filter_of_isChain htail (Bool.eq_false_iff.mpr hy)
                (fun v hv w hw => hF v (List.mem_cons_of_mem _ hv) w (List.mem_cons_of_mem _ hw))
                z hz
              exact hjoin x w z (hF x List.mem_cons_self y (by simp) hxy (by simp [hx, hy])) hFw hR
      · rwa [List.filter_cons_of_neg hx]

end Filter

end Porpoise.Lib
