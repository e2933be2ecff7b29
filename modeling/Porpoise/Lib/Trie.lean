import Mathlib.Data.List.Perm.Basic
import Mathlib.Order.Basic
import Mathlib.Tactic.TypeStar

/-!
# Digital trees

A tree of elements with keys. The directions of a key, one a level, say where an element
belongs; elements of one key share a node, in a ring. No node is empty: a node that loses its
last element gets those of a leaf below it.

* `insert`, `erase`: an element joins or leaves.
* `Sorted`: every element lies in the direction of its key.
* `exists_least_on_leftPath`: the least key is on the way to the leftmost leaf.
* `exists_fit_on_seek`: the least key that is at least `k` is on the way of `k`, or on the
  leftmost way in the deepest right subtree that was not taken.
-/

namespace Porpoise.Lib

inductive Trie (α : Type*)
  | leaf
  | node (x : α) (ring : List α) (l r : Trie α)
  deriving DecidableEq

namespace Trie

variable {α : Type*}

def members : Trie α → List α
  | leaf => []
  | node x ring l r => x :: ring ++ (l.members ++ r.members)

def isLeaf : Trie α → Bool
  | leaf => true
  | node .. => false

/-- An element joins the node of its key, or becomes one. `K d` is the direction of the key
`d` levels below. -/
def insert (key : α → ℕ) (x : α) (s : ℕ) (K : ℕ → Bool) : Trie α → Trie α
  | leaf => node x [] leaf leaf
  | node y ring l r =>
      if key y ≠ s then
        if K 0 then node y ring l (insert key x s (fun d => K (d + 1)) r)
        else node y ring (insert key x s (fun d => K (d + 1)) l) r
      else node y (x :: ring) l r

/-- The rightmost leaf, and the tree without it. -/
def takeLeaf : Trie α → Option ((α × List α) × Trie α)
  | leaf => none
  | node x ring l r =>
      match takeLeaf r with
      | some (p, r) => some (p, node x ring l r)
      | none =>
          match takeLeaf l with
          | some (p, l) => some (p, node x ring l r)
          | none => some ((x, ring), leaf)

/-- A node without its first element: the last of the ring takes its place, or a leaf below. -/
def replaceRoot (ring : List α) (l r : Trie α) : Trie α :=
  match ring.getLast? with
  | some y => node y ring.dropLast l r
  | none =>
      match takeLeaf r with
      | some ((y, ring), r) => node y ring l r
      | none =>
          match takeLeaf l with
          | some ((y, ring), l) => node y ring l r
          | none => leaf

/-- An element leaves. -/
def erase [DecidableEq α] (x : α) : Trie α → Trie α
  | leaf => leaf
  | node y ring l r =>
      if x = y then replaceRoot ring l r
      else if x ∈ ring then node y (ring.erase x) l r
      else node y ring (erase x l) (erase x r)

/-- The nodes on the way to the leftmost leaf: to the right only where there is no left. -/
def leftPath : Trie α → List α
  | leaf => []
  | node x _ l r => x :: if l.isLeaf then r.leftPath else l.leftPath

/-- The nodes on the way of a key, and the deepest right subtree that is not taken. -/
def seek (K : ℕ → Bool) (rst : Trie α) : Trie α → List α × Trie α
  | leaf => ([], rst)
  | node x _ l r =>
      if K 0 then
        let p := seek (fun d => K (d + 1)) rst r
        (x :: p.1, p.2)
      else
        let p := seek (fun d => K (d + 1)) (if r.isLeaf then rst else r) l
        (x :: p.1, p.2)

/-- The elements of a tree at depth `d` lie in the directions of their keys, and each key has
one node. -/
inductive Sorted (key : α → ℕ) (dir : ℕ → ℕ → Bool) : ℕ → Trie α → Prop
  | leaf {d : ℕ} : Sorted key dir d leaf
  | node {d : ℕ} {x : α} {ring : List α} {l r : Trie α}
      (hring : ∀ y ∈ ring, key y = key x)
      (hleft : ∀ y ∈ l.members, dir (key y) d = false ∧ key y ≠ key x)
      (hright : ∀ y ∈ r.members, dir (key y) d = true ∧ key y ≠ key x)
      (hl : Sorted key dir (d + 1) l) (hr : Sorted key dir (d + 1) r) :
      Sorted key dir d (node x ring l r)

/-- The directions of the keys in `P` are digits, the most significant first. -/
def Digits (dir : ℕ → ℕ → Bool) (P : ℕ → Prop) : Prop :=
  ∀ a b d, P a → P b → (∀ e < d, dir a e = dir b e) → dir a d = false → dir b d = true → a < b

/-! ## Members -/

variable {key : α → ℕ} {x y : α} {s : ℕ} {K : ℕ → Bool} {t t' l r : Trie α} {ring : List α}

@[simp] theorem members_leaf : (leaf : Trie α).members = [] := rfl

@[simp] theorem members_node :
    (node x ring l r).members = x :: ring ++ (l.members ++ r.members) := rfl

@[simp] theorem isLeaf_iff : t.isLeaf = true ↔ t = leaf := by
  cases t <;> simp [isLeaf]

theorem mem_node :
    y ∈ (node x ring l r).members ↔ y = x ∨ y ∈ ring ∨ y ∈ l.members ∨ y ∈ r.members := by
  simp

theorem members_eq_nil_iff : t.members = [] ↔ t = leaf := by
  cases t <;> simp

theorem ne_leaf_of_mem (h : y ∈ t.members) : t ≠ leaf := by
  rintro rfl
  cases h

theorem perm_insert (K : ℕ → Bool) (t : Trie α) :
    (t.insert key x s K).members.Perm (x :: t.members) := by
  induction t generalizing K with
  | leaf => exact List.Perm.refl _
  | node y ring l r ihl ihr =>
      unfold insert
      split
      · split
        · have hr := (ihr fun d => K (d + 1)).append_left (y :: ring ++ l.members)
          have hmid : ((y :: ring ++ l.members) ++ x :: r.members).Perm
              (x :: ((y :: ring ++ l.members) ++ r.members)) := List.perm_middle
          simpa only [members_node, List.append_assoc] using hr.trans hmid
        · have hl := ((ihl fun d => K (d + 1)).append_right r.members).append_left (y :: ring)
          exact hl.trans List.perm_middle
      · exact List.Perm.swap _ _ _

@[simp] theorem isLeaf_insert : (t.insert key x s K).isLeaf = false := by
  cases t with
  | leaf => rfl
  | node y ring l r =>
      unfold insert
      split
      · split <;> rfl
      · rfl

theorem mem_insert : y ∈ (t.insert key x s K).members ↔ y = x ∨ y ∈ t.members := by
  rw [(perm_insert K t).mem_iff, List.mem_cons]

theorem takeLeaf_eq_none : t.takeLeaf = none ↔ t = leaf := by
  cases t with
  | leaf => simp [takeLeaf]
  | node x ring l r =>
      unfold takeLeaf
      rcases r.takeLeaf with _ | p
      · rcases l.takeLeaf with _ | p <;> simp
      · simp

/-- Where the rightmost leaf comes from. -/
theorem takeLeaf_node {p : α × List α} (h : (node x ring l r).takeLeaf = some (p, t')) :
    (∃ r', r.takeLeaf = some (p, r') ∧ t' = node x ring l r') ∨
      (r = leaf ∧ ∃ l', l.takeLeaf = some (p, l') ∧ t' = node x ring l' r) ∨
      (r = leaf ∧ l = leaf ∧ p = (x, ring) ∧ t' = leaf) := by
  unfold takeLeaf at h
  rcases hr : r.takeLeaf with _ | ⟨q, r'⟩
  · have hr' := takeLeaf_eq_none.mp hr
    rcases hl : l.takeLeaf with _ | ⟨q, l'⟩
    · rw [hr, hl] at h
      cases h
      exact Or.inr (Or.inr ⟨hr', takeLeaf_eq_none.mp hl, rfl, rfl⟩)
    · rw [hr, hl] at h
      cases h
      exact Or.inr (Or.inl ⟨hr', l', rfl, rfl⟩)
  · rw [hr] at h
    cases h
    exact Or.inl ⟨r', rfl, rfl⟩

/-- What the rightmost leaf takes with it. -/
theorem perm_takeLeaf {p : α × List α} (h : t.takeLeaf = some (p, t')) :
    t.members.Perm (p.1 :: p.2 ++ t'.members) := by
  have hmid : ∀ a b c d : List α, ((a ++ b) ++ (c ++ d)).Perm (c ++ (a ++ (b ++ d))) := by
    intro a b c d
    rw [← List.append_assoc a b d]
    exact List.perm_append_comm_assoc (a ++ b) c d
  induction t generalizing t' with
  | leaf => cases h
  | node x ring l r ihl ihr =>
      rcases takeLeaf_node h with ⟨r', hr, rfl⟩ | ⟨-, l', hl, rfl⟩ | ⟨rfl, rfl, rfl, rfl⟩
      · have hp := ((ihr hr).append_left l.members).append_left (x :: ring)
        refine hp.trans ?_
        simpa only [members_node, List.append_assoc] using
          hmid (x :: ring) l.members (p.1 :: p.2) r'.members
      · have hp := ((ihl hl).append_right r.members).append_left (x :: ring)
        refine hp.trans ?_
        simpa only [members_node, List.append_assoc, List.nil_append] using
          hmid (x :: ring) [] (p.1 :: p.2) (l'.members ++ r.members)
      · exact List.Perm.refl _

theorem mem_of_takeLeaf {p : α × List α} {z : α} (h : t.takeLeaf = some (p, t'))
    (hz : z = p.1 ∨ z ∈ t'.members) : z ∈ t.members := by
  rw [(perm_takeLeaf h).mem_iff, List.cons_append, List.mem_cons, List.mem_append]
  exact hz.imp_right Or.inr

theorem perm_replaceRoot (ring : List α) (l r : Trie α) :
    (replaceRoot ring l r).members.Perm (ring ++ (l.members ++ r.members)) := by
  unfold replaceRoot
  rcases hlast : ring.getLast? with _ | y
  · rw [List.getLast?_eq_none_iff] at hlast
    subst hlast
    rcases hr : r.takeLeaf with _ | ⟨⟨y, yring⟩, r'⟩
    · rw [takeLeaf_eq_none.mp hr]
      rcases hl : l.takeLeaf with _ | ⟨⟨y, yring⟩, l'⟩
      · rw [takeLeaf_eq_none.mp hl]
        exact List.Perm.refl _
      · have hp := (perm_takeLeaf hl).append_right (members leaf)
        exact (hp.trans (List.Perm.of_eq (List.append_assoc _ _ _))).symm
    · have hp := (perm_takeLeaf hr).append_left l.members
      exact (hp.trans (List.perm_append_comm_assoc _ _ _)).symm
  · have hring : ring = ring.dropLast ++ [y] := by
      obtain ⟨init, rfl⟩ := List.getLast?_eq_some_iff.mp hlast
      rw [List.dropLast_concat]
    have hp : (y :: ring.dropLast).Perm ring := by
      conv_rhs => rw [hring]
      exact (List.perm_append_singleton y ring.dropLast).symm
    exact hp.append_right _

variable [DecidableEq α]

theorem erase_of_notMem (hx : x ∉ t.members) : t.erase x = t := by
  induction t with
  | leaf => rfl
  | node y ring l r ihl ihr =>
      simp only [mem_node, not_or] at hx
      obtain ⟨hne, hring, hl, hr⟩ := hx
      unfold erase
      rw [if_neg hne, if_neg hring, ihl hl, ihr hr]

/-- One element leaves. -/
theorem perm_erase (hnd : t.members.Nodup) (hx : x ∈ t.members) :
    (x :: (t.erase x).members).Perm t.members := by
  induction t with
  | leaf => cases hx
  | node y ring l r ihl ihr =>
      unfold erase
      split
      · next h =>
        subst h
        exact (perm_replaceRoot ring l r).cons x
      · next hxy =>
        split
        · next hring =>
          have hp := (List.perm_cons_erase hring).symm.append_right (l.members ++ r.members)
          exact (List.Perm.swap y x _).trans (hp.cons y)
        · next hring =>
          rw [members_node, List.nodup_append, List.nodup_append] at hnd
          obtain ⟨-, ⟨hndl, hndr, hlr⟩, -⟩ := hnd
          rcases mem_node.mp hx with h | h | h | h
          · exact absurd h hxy
          · exact absurd h hring
          · have hnot : x ∉ r.members := fun hr => hlr x h x hr rfl
            rw [erase_of_notMem hnot]
            have hp := ((ihl hndl h).append_right r.members).append_left (y :: ring)
            exact List.perm_middle.symm.trans hp
          · have hnot : x ∉ l.members := fun hl => hlr x hl x h rfl
            rw [erase_of_notMem hnot]
            have hp := ((ihr hndr h).append_left l.members).append_left (y :: ring)
            refine List.Perm.trans ?_ hp
            rw [members_node, ← List.append_assoc, ← List.append_assoc]
            exact List.perm_middle.symm

theorem mem_erase (hnd : t.members.Nodup) :
    y ∈ (t.erase x).members ↔ y ≠ x ∧ y ∈ t.members := by
  by_cases hx : x ∈ t.members
  · have hp := perm_erase hnd hx
    have hnot : x ∉ (t.erase x).members := (List.nodup_cons.mp (hp.nodup_iff.mpr hnd)).1
    rw [← hp.mem_iff, List.mem_cons]
    constructor
    · intro h
      exact ⟨fun he => hnot (he ▸ h), Or.inr h⟩
    · rintro ⟨hne, he | h⟩
      · exact absurd he hne
      · exact h
  · rw [erase_of_notMem hx]
    exact ⟨fun h => ⟨fun he => hx (he ▸ h), h⟩, fun h => h.2⟩

/-! ## Order -/

omit [DecidableEq α]

variable {dir : ℕ → ℕ → Bool} {P : ℕ → Prop} {d k : ℕ} {rst : Trie α}

theorem Sorted.congr {key' : α → ℕ} (h : t.Sorted key dir d)
    (heq : ∀ y ∈ t.members, key' y = key y) : t.Sorted key' dir d := by
  induction h with
  | leaf => exact .leaf
  | @node d x ring l r hring hleft hright hl hr ihl ihr =>
      have hx : key' x = key x := heq x (mem_node.mpr (Or.inl rfl))
      have hml : ∀ y ∈ l.members, key' y = key y := fun y hy =>
        heq y (mem_node.mpr (Or.inr (Or.inr (Or.inl hy))))
      have hmr : ∀ y ∈ r.members, key' y = key y := fun y hy =>
        heq y (mem_node.mpr (Or.inr (Or.inr (Or.inr hy))))
      refine .node (fun y hy => ?_) (fun y hy => ?_) (fun y hy => ?_) (ihl hml) (ihr hmr)
      · rw [hx, heq y (mem_node.mpr (Or.inr (Or.inl hy)))]
        exact hring y hy
      · rw [hx, hml y hy]
        exact hleft y hy
      · rw [hx, hmr y hy]
        exact hright y hy

/-- Only the keys in the tree are read. -/
theorem insert_congr {key' : α → ℕ} (heq : ∀ y ∈ t.members, key' y = key y) :
    t.insert key' x s K = t.insert key x s K := by
  induction t generalizing K with
  | leaf => rfl
  | node y ring l r ihl ihr =>
      have hy : key' y = key y := heq y (mem_node.mpr (Or.inl rfl))
      unfold Trie.insert
      rw [hy, ihl fun z hz => heq z (mem_node.mpr (Or.inr (Or.inr (Or.inl hz)))),
        ihr fun z hz => heq z (mem_node.mpr (Or.inr (Or.inr (Or.inr hz))))]

/-- An element joins in the direction of its key. -/
theorem Sorted.insert (h : t.Sorted key dir d) (hx : key x = s)
    (hK : ∀ e, K e = dir s (d + e)) : (t.insert key x s K).Sorted key dir d := by
  induction h generalizing K with
  | leaf => exact .node (by simp) (by simp) (by simp) .leaf .leaf
  | @node d y ring l r hring hleft hright hl hr ihl ihr =>
      have hshift : ∀ e, K (e + 1) = dir s (d + 1 + e) := by
        intro e
        rw [hK, Nat.add_assoc, Nat.add_comm 1 e]
      unfold Trie.insert
      split
      · next hne =>
        have hxy : key x ≠ key y := by rw [hx]; exact Ne.symm hne
        have hd : dir (key x) d = K 0 := by rw [hx, hK, Nat.add_zero]
        split
        · next hbit =>
          refine .node hring hleft (fun z hz => ?_) hl (ihr hshift)
          rcases mem_insert.mp hz with rfl | hz
          · exact ⟨hd.trans hbit, hxy⟩
          · exact hright z hz
        · next hbit =>
          refine .node hring (fun z hz => ?_) hright (ihl hshift) hr
          rcases mem_insert.mp hz with rfl | hz
          · exact ⟨hd.trans (Bool.eq_false_iff.mpr hbit), hxy⟩
          · exact hleft z hz
      · next heq =>
        refine .node (fun z hz => ?_) hleft hright hl hr
        rcases List.mem_cons.mp hz with rfl | hz
        · rw [hx, not_not.mp heq]
        · exact hring z hz

/-- The rightmost leaf has its key for itself. -/
theorem Sorted.takeLeaf {p : α × List α} (h : t.Sorted key dir d)
    (ht : t.takeLeaf = some (p, t')) :
    (∀ y ∈ p.2, key y = key p.1) ∧ t'.Sorted key dir d ∧ ∀ y ∈ t'.members, key y ≠ key p.1 := by
  induction h generalizing t' with
  | leaf => cases ht
  | @node d x ring l r hring hleft hright hl hr ihl ihr =>
      rcases takeLeaf_node ht with ⟨r', hr', rfl⟩ | ⟨rfl, l', hl', rfl⟩ | ⟨rfl, rfl, rfl, rfl⟩
      · obtain ⟨hp, hsorted, hne⟩ := ihr hr'
        have hperm := perm_takeLeaf hr'
        have hsub : ∀ y ∈ r'.members, y ∈ r.members := fun y hy =>
          hperm.mem_iff.mpr (List.mem_append_right _ hy)
        have hp1 := hright p.1 (hperm.mem_iff.mpr (by simp))
        refine ⟨hp, .node hring hleft (fun y hy => hright y (hsub y hy)) hl hsorted, ?_⟩
        intro y hy
        rcases mem_node.mp hy with rfl | hy | hy | hy
        · exact Ne.symm hp1.2
        · rw [hring y hy]
          exact Ne.symm hp1.2
        · intro he
          have hfalse := (hleft y hy).1
          rw [he, hp1.1] at hfalse
          cases hfalse
        · exact hne y hy
      · obtain ⟨hp, hsorted, hne⟩ := ihl hl'
        have hperm := perm_takeLeaf hl'
        have hsub : ∀ y ∈ l'.members, y ∈ l.members := fun y hy =>
          hperm.mem_iff.mpr (List.mem_append_right _ hy)
        have hp1 := hleft p.1 (hperm.mem_iff.mpr (by simp))
        refine ⟨hp, .node hring (fun y hy => hleft y (hsub y hy)) hright hsorted hr, ?_⟩
        intro y hy
        rcases mem_node.mp hy with rfl | hy | hy | hy
        · exact Ne.symm hp1.2
        · rw [hring y hy]
          exact Ne.symm hp1.2
        · exact hne y hy
        · cases hy
      · exact ⟨hring, .leaf, by simp⟩

/-- The element that replaces the first of a node is of its key or from below. -/
theorem Sorted.replaceRoot (h : (Trie.node x ring l r).Sorted key dir d) :
    (replaceRoot ring l r).Sorted key dir d := by
  cases h with
  | node hring hleft hright hl hr =>
      unfold Trie.replaceRoot
      rcases hlast : ring.getLast? with _ | y
      · rcases hr' : r.takeLeaf with _ | ⟨⟨y, yring⟩, r'⟩
        · rcases hl' : l.takeLeaf with _ | ⟨⟨y, yring⟩, l'⟩
          · exact .leaf
          · obtain ⟨hp, hsorted, hne⟩ := hl.takeLeaf hl'
            have hperm := perm_takeLeaf hl'
            have hsub : ∀ z ∈ l'.members, z ∈ l.members := fun z hz =>
              hperm.mem_iff.mpr (List.mem_append_right _ hz)
            rw [takeLeaf_eq_none.mp hr']
            exact .node hp (fun z hz => ⟨(hleft z (hsub z hz)).1, hne z hz⟩) (by simp)
              hsorted .leaf
        · obtain ⟨hp, hsorted, hne⟩ := hr.takeLeaf hr'
          have hperm := perm_takeLeaf hr'
          have hsub : ∀ z ∈ r'.members, z ∈ r.members := fun z hz =>
            hperm.mem_iff.mpr (List.mem_append_right _ hz)
          have hy := hright y (hperm.mem_iff.mpr (by simp))
          refine .node hp (fun z hz => ⟨(hleft z hz).1, fun he => ?_⟩)
            (fun z hz => ⟨(hright z (hsub z hz)).1, hne z hz⟩) hl hsorted
          have hfalse := (hleft z hz).1
          rw [he, hy.1] at hfalse
          cases hfalse
      · have hyx : key y = key x := hring y (List.mem_of_getLast? hlast)
        refine .node (fun z hz => ?_) (fun z hz => ?_) (fun z hz => ?_) hl hr
        · rw [hyx]
          exact hring z (List.dropLast_subset _ hz)
        · rw [hyx]
          exact hleft z hz
        · rw [hyx]
          exact hright z hz

theorem Sorted.erase [DecidableEq α] (h : t.Sorted key dir d) (hnd : t.members.Nodup) :
    (t.erase x).Sorted key dir d := by
  induction h with
  | leaf => exact .leaf
  | @node d y ring l r hring hleft hright hl hr ihl ihr =>
      have hroot : (Trie.node y ring l r).Sorted key dir d := .node hring hleft hright hl hr
      rw [members_node, List.nodup_append, List.nodup_append] at hnd
      obtain ⟨-, ⟨hndl, hndr, -⟩, -⟩ := hnd
      unfold Trie.erase
      split
      · exact hroot.replaceRoot
      · split
        · exact .node (fun z hz => hring z (List.mem_of_mem_erase hz)) hleft hright hl hr
        · exact .node hring (fun z hz => hleft z ((mem_erase hndl).mp hz).2)
            (fun z hz => hright z ((mem_erase hndr).mp hz).2) (ihl hndl) (ihr hndr)

theorem leftPath_node :
    (node x ring l r).leftPath = x :: (if l.isLeaf then r else l).leftPath := by
  rw [apply_ite leftPath]
  rfl

theorem leftPath_subset : ∀ y ∈ t.leftPath, y ∈ t.members := by
  induction t with
  | leaf => intro y hy; cases hy
  | node x ring l r ihl ihr =>
      intro y hy
      rw [mem_node]
      rcases List.mem_cons.mp hy with rfl | hy
      · exact Or.inl rfl
      · split at hy
        · exact Or.inr (Or.inr (Or.inr (ihr y hy)))
        · exact Or.inr (Or.inr (Or.inl (ihl y hy)))

/-- The keys of a tree have the same digits before depth `d`. -/
def Agree (key : α → ℕ) (dir : ℕ → ℕ → Bool) (d : ℕ) (t : Trie α) : Prop :=
  ∀ y ∈ t.members, ∀ z ∈ t.members, ∀ e < d, dir (key y) e = dir (key z) e

/-- The subtrees agree on one digit more. -/
theorem Agree.of_node {b : Bool} (h : (node x ring l r).Agree key dir d)
    (hsub : ∀ y ∈ t.members, y ∈ l.members ∨ y ∈ r.members)
    (hb : ∀ y ∈ t.members, dir (key y) d = b) : t.Agree key dir (d + 1) := by
  have hmem : ∀ y ∈ t.members, y ∈ (node x ring l r).members := fun y hy =>
    mem_node.mpr (Or.inr (Or.inr (hsub y hy)))
  intro y hy z hz e he
  rcases Nat.lt_succ_iff_lt_or_eq.mp he with he | rfl
  · exact h y (hmem y hy) z (hmem z hz) e he
  · rw [hb y hy, hb z hz]

/-- **The least key** is on the way to the leftmost leaf. -/
theorem exists_least_on_leftPath (hdigits : Digits dir P) (h : t.Sorted key dir d)
    (hagree : t.Agree key dir d) (hP : ∀ y ∈ t.members, P (key y)) (hne : t ≠ leaf) :
    ∃ x ∈ t.leftPath, ∀ y ∈ t.members, key x ≤ key y := by
  induction h with
  | leaf => exact absurd rfl hne
  | @node d x ring l r hring hleft hright hl hr ihl ihr =>
      have hml : ∀ y ∈ l.members, y ∈ (node x ring l r).members := fun y hy =>
        mem_node.mpr (Or.inr (Or.inr (Or.inl hy)))
      have hmr : ∀ y ∈ r.members, y ∈ (node x ring l r).members := fun y hy =>
        mem_node.mpr (Or.inr (Or.inr (Or.inr hy)))
      have hal : l.Agree key dir (d + 1) :=
        hagree.of_node (fun y hy => Or.inl hy) fun y hy => (hleft y hy).1
      have har : r.Agree key dir (d + 1) :=
        hagree.of_node (fun y hy => Or.inr hy) fun y hy => (hright y hy).1
      -- The least of `x` and of a least element below, which is on the way.
      have hbelow : ∀ z ∈ (node x ring l r).leftPath,
          (∀ y, y ∈ l.members ∨ y ∈ r.members → key z ≤ key y) →
          ∃ x' ∈ (node x ring l r).leftPath, ∀ y ∈ (node x ring l r).members,
            key x' ≤ key y := by
        intro z hz hleast
        rcases Nat.le_total (key x) (key z) with hxz | hzx
        · refine ⟨x, List.mem_cons_self, fun y hy => ?_⟩
          rcases mem_node.mp hy with rfl | hy | hy
          · exact Nat.le_refl _
          · exact Nat.le_of_eq (hring y hy).symm
          · exact Nat.le_trans hxz (hleast y hy)
        · refine ⟨z, hz, fun y hy => ?_⟩
          rcases mem_node.mp hy with rfl | hy | hy
          · exact hzx
          · rw [hring y hy]
            exact hzx
          · exact hleast y hy
      rcases hleaf : l.isLeaf with _ | _
      · have hlne : l ≠ leaf := fun he => by
          rw [he] at hleaf
          cases hleaf
        obtain ⟨z, hz, hleast⟩ := ihl hal (fun y hy => hP y (hml y hy)) hlne
        have hzm := leftPath_subset z hz
        refine hbelow z (by simp [leftPath, hleaf, hz]) fun y hy => ?_
        rcases hy with hy | hy
        · exact hleast y hy
        · exact Nat.le_of_lt (hdigits _ _ d (hP z (hml z hzm)) (hP y (hmr y hy))
            (hagree z (hml z hzm) y (hmr y hy)) (hleft z hzm).1 (hright y hy).1)
      · have hl0 := isLeaf_iff.mp hleaf
        subst hl0
        by_cases hr0 : r = leaf
        · subst hr0
          exact hbelow x List.mem_cons_self (by simp)
        · obtain ⟨z, hz, hleast⟩ := ihr har (fun y hy => hP y (hmr y hy)) hr0
          refine hbelow z (by simp [leftPath, isLeaf, hz]) fun y hy => ?_
          rcases hy with hy | hy
          · cases hy
          · exact hleast y hy

/-- Both ways of `seek` at a node. -/
theorem seek_node (K : ℕ → Bool) (rst : Trie α) (x : α) (ring : List α) (l r : Trie α) :
    seek K rst (node x ring l r) =
      if K 0 then
        (x :: (seek (fun d => K (d + 1)) rst r).1, (seek (fun d => K (d + 1)) rst r).2)
      else
        (x :: (seek (fun d => K (d + 1)) (if r.isLeaf then rst else r) l).1,
          (seek (fun d => K (d + 1)) (if r.isLeaf then rst else r) l).2) := rfl

theorem seek_subset (K : ℕ → Bool) (rst t : Trie α) : (∀ y ∈ (seek K rst t).1, y ∈ t.members) ∧
    ∀ y ∈ (seek K rst t).2.members, y ∈ t.members ∨ y ∈ rst.members := by
  induction t generalizing K rst with
  | leaf => exact ⟨fun y hy => absurd hy List.not_mem_nil, fun y hy => Or.inr hy⟩
  | node x ring l r ihl ihr =>
      simp only [mem_node]
      rw [seek_node]
      split
      · obtain ⟨h1, h2⟩ := ihr (fun d => K (d + 1)) rst
        refine ⟨fun y hy => ?_, fun y hy => ?_⟩
        · rcases List.mem_cons.mp hy with rfl | hy
          · exact Or.inl rfl
          · exact Or.inr (Or.inr (Or.inr (h1 y hy)))
        · rcases h2 y hy with h | h
          · exact Or.inl (Or.inr (Or.inr (Or.inr h)))
          · exact Or.inr h
      · obtain ⟨h1, h2⟩ := ihl (fun d => K (d + 1)) (if r.isLeaf then rst else r)
        refine ⟨fun y hy => ?_, fun y hy => ?_⟩
        · rcases List.mem_cons.mp hy with rfl | hy
          · exact Or.inl rfl
          · exact Or.inr (Or.inr (Or.inl (h1 y hy)))
        · rcases h2 y hy with h | h
          · exact Or.inl (Or.inr (Or.inr (Or.inl h)))
          · split at h
            · exact Or.inr h
            · exact Or.inl (Or.inr (Or.inr (Or.inr h)))

/-- A tree that is sorted somewhere below a root. -/
def Below (key : α → ℕ) (dir : ℕ → ℕ → Bool) (t : Trie α) : Prop :=
  ∃ d, t.Sorted key dir d ∧ t.Agree key dir d

/-- `y` is at least matched by a node on a way, or by one in the tree that is left. -/
def Covers (key : α → ℕ) (k : ℕ) (p : List α × Trie α) (y : α) : Prop :=
  (∃ x ∈ p.1, k ≤ key x ∧ key x ≤ key y) ∨ ∃ z ∈ p.2.members, key z ≤ key y

theorem Covers.cons {p : List α × Trie α} (h : Covers key k p y) :
    Covers key k (x :: p.1, p.2) y := by
  rcases h with ⟨z, hz, hle⟩ | hz
  · exact Or.inl ⟨z, List.mem_cons_of_mem _ hz, hle⟩
  · exact Or.inr hz

theorem Covers.mono {p : List α × Trie α} {z : α} (h : Covers key k p z) (hle : key z ≤ key y) :
    Covers key k p y := by
  rcases h with ⟨x, hx, hkx, hxz⟩ | ⟨x, hx, hxz⟩
  · exact Or.inl ⟨x, hx, hkx, Nat.le_trans hxz hle⟩
  · exact Or.inr ⟨x, hx, Nat.le_trans hxz hle⟩

theorem Covers.head {p : List α × Trie α} (hky : k ≤ key y) (heq : key y = key x) :
    Covers key k (x :: p.1, p.2) y :=
  Or.inl ⟨x, List.mem_cons_self, heq ▸ hky, Nat.le_of_eq heq.symm⟩

/-- On the way of `k` nothing is lost: an element that is at least `k` is matched by one on the
way or by one in the tree that is left. -/
theorem seek_covers (hdigits : Digits dir P) (hk : P k) (h : t.Sorted key dir d)
    (hP : ∀ y ∈ t.members, P (key y)) (hagree : ∀ y ∈ t.members, ∀ e < d, dir (key y) e = dir k e)
    (hK : ∀ e, K e = dir k (d + e)) (hbelow : rst.Below key dir)
    (hrst : ∀ z ∈ rst.members, k ≤ key z ∧ ∀ y ∈ t.members, key y < key z) :
    (seek K rst t).2.Below key dir ∧ (∀ z ∈ (seek K rst t).2.members, k ≤ key z) ∧
      ∀ y, y ∈ t.members ∨ y ∈ rst.members → k ≤ key y → Covers key k (seek K rst t) y := by
  induction h generalizing K rst with
  | leaf =>
      refine ⟨hbelow, fun z hz => (hrst z hz).1, fun y hy _ => Or.inr ?_⟩
      rcases hy with hy | hy
      · cases hy
      · exact ⟨y, hy, Nat.le_refl _⟩
  | @node d x ring l r hring hleft hright hl hr ihl ihr =>
      have hml : ∀ y ∈ l.members, y ∈ (node x ring l r).members := fun y hy =>
        mem_node.mpr (Or.inr (Or.inr (Or.inl hy)))
      have hmr : ∀ y ∈ r.members, y ∈ (node x ring l r).members := fun y hy =>
        mem_node.mpr (Or.inr (Or.inr (Or.inr hy)))
      have hshift : ∀ e, K (e + 1) = dir k (d + 1 + e) := by
        intro e
        rw [hK, Nat.add_assoc, Nat.add_comm 1 e]
      have hk0 : dir k d = K 0 := by rw [hK, Nat.add_zero]
      have hext : ∀ (b : Bool) (u : Trie α), (∀ y ∈ u.members, y ∈ (node x ring l r).members) →
          (∀ y ∈ u.members, dir (key y) d = b) → dir k d = b →
          ∀ y ∈ u.members, ∀ e < d + 1, dir (key y) e = dir k e := by
        intro b u hu hb hkb y hy e he
        rcases Nat.lt_succ_iff_lt_or_eq.mp he with he | rfl
        · exact hagree y (hu y hy) e he
        · rw [hb y hy, hkb]
      rw [seek_node]
      rcases hbit : K 0 with _ | _
      · -- To the left: what is on the right exceeds `k` and all that is on the left.
        rw [hbit] at hk0
        have hkr : ∀ z ∈ r.members, k < key z := fun z hz =>
          hdigits k (key z) d hk (hP z (hmr z hz)) (fun e he => (hagree z (hmr z hz) e he).symm)
            hk0 (hright z hz).1
        have hlr : ∀ y ∈ l.members, ∀ z ∈ r.members, key y < key z := fun y hy z hz =>
          hdigits _ _ d (hP y (hml y hy)) (hP z (hmr z hz))
            (fun e he => (hagree y (hml y hy) e he).trans (hagree z (hmr z hz) e he).symm)
            (hleft y hy).1 (hright z hz).1
        have hnode : (node x ring l r).Agree key dir d := fun y hy z hz e he =>
          (hagree y hy e he).trans (hagree z hz e he).symm
        have har : r.Agree key dir (d + 1) :=
          hnode.of_node (fun y hy => Or.inr hy) fun y hy => (hright y hy).1
        by_cases hr0 : r = leaf
        · subst hr0
          obtain ⟨hb, hge, hcov⟩ := ihl (fun y hy => hP y (hml y hy))
            (hext false l hml (fun y hy => (hleft y hy).1) hk0) hshift hbelow
            fun z hz => ⟨(hrst z hz).1, fun y hy => (hrst z hz).2 y (hml y hy)⟩
          refine ⟨hb, hge, fun y hy hky => ?_⟩
          rcases hy with hy | hy
          · rcases mem_node.mp hy with rfl | hy | hy | hy
            · exact Covers.head hky rfl
            · exact Covers.head hky (hring y hy)
            · exact (hcov y (Or.inl hy) hky).cons
            · cases hy
          · exact (hcov y (Or.inr hy) hky).cons
        · have hleaf : r.isLeaf = false := Bool.eq_false_iff.mpr fun h => hr0 (isLeaf_iff.mp h)
          simp only [hleaf, Bool.false_eq_true, if_false]
          obtain ⟨hb, hge, hcov⟩ := ihl (fun y hy => hP y (hml y hy))
            (hext false l hml (fun y hy => (hleft y hy).1) hk0) hshift ⟨d + 1, hr, har⟩
            fun z hz => ⟨Nat.le_of_lt (hkr z hz), fun y hy => hlr y hy z hz⟩
          refine ⟨hb, hge, fun y hy hky => ?_⟩
          rcases hy with hy | hy
          · rcases mem_node.mp hy with rfl | hy | hy | hy
            · exact Covers.head hky rfl
            · exact Covers.head hky (hring y hy)
            · exact (hcov y (Or.inl hy) hky).cons
            · exact (hcov y (Or.inr hy) hky).cons
          · -- A subtree from above is no better than the one on the right.
            obtain ⟨z, hz⟩ := List.exists_mem_of_ne_nil _ (mt members_eq_nil_iff.mp hr0)
            have hzy : key z < key y := (hrst y hy).2 z (hmr z hz)
            exact ((hcov z (Or.inr hz) (Nat.le_of_lt (hkr z hz))).mono (Nat.le_of_lt hzy)).cons
      · -- To the right: what is on the left is below `k`.
        rw [hbit] at hk0
        obtain ⟨hb, hge, hcov⟩ := ihr (fun y hy => hP y (hmr y hy))
          (hext true r hmr (fun y hy => (hright y hy).1) hk0) hshift hbelow
          fun z hz => ⟨(hrst z hz).1, fun y hy => (hrst z hz).2 y (hmr y hy)⟩
        refine ⟨hb, hge, fun y hy hky => ?_⟩
        rcases hy with hy | hy
        · rcases mem_node.mp hy with rfl | hy | hy | hy
          · exact Covers.head hky rfl
          · exact Covers.head hky (hring y hy)
          · have hlt : key y < k := hdigits _ _ d (hP y (hml y hy)) hk
              (hagree y (hml y hy)) (hleft y hy).1 hk0
            omega
          · exact (hcov y (Or.inl hy) hky).cons
        · exact (hcov y (Or.inr hy) hky).cons

/-- From the root. -/
theorem seek_root (hdigits : Digits dir P) (hk : P k) (h : t.Sorted key dir 0)
    (hP : ∀ y ∈ t.members, P (key y)) :
    (seek (dir k) leaf t).2.Below key dir ∧ (∀ z ∈ (seek (dir k) leaf t).2.members, k ≤ key z) ∧
      ∀ y ∈ t.members, k ≤ key y → Covers key k (seek (dir k) leaf t) y := by
  have hK : ∀ e, dir k e = dir k (0 + e) := fun e => by rw [Nat.zero_add]
  have hbelow : (leaf : Trie α).Below key dir := ⟨0, .leaf, fun _ h => absurd h List.not_mem_nil⟩
  obtain ⟨hb, hge, hcov⟩ := seek_covers hdigits hk h hP
    (fun _ _ e he => absurd he (Nat.not_lt_zero e)) hK hbelow fun _ h => absurd h List.not_mem_nil
  exact ⟨hb, hge, fun y hy => hcov y (Or.inl hy)⟩

/-- What is left is at least `k`. -/
theorem le_of_mem_seek (hdigits : Digits dir P) (hk : P k) (h : t.Sorted key dir 0)
    (hP : ∀ y ∈ t.members, P (key y)) : ∀ z ∈ (seek (dir k) leaf t).2.members, k ≤ key z :=
  (seek_root hdigits hk h hP).2.1

/-- **The best fit** for `k` in a tree is on the way of `k`, or on the leftmost way in the
deepest right subtree that was not taken. -/
theorem exists_fit_on_seek (hdigits : Digits dir P) (hk : P k) (h : t.Sorted key dir 0)
    (hP : ∀ y ∈ t.members, P (key y)) (hy : y ∈ t.members) (hky : k ≤ key y) :
    ∃ x ∈ (seek (dir k) leaf t).1 ++ (seek (dir k) leaf t).2.leftPath,
      k ≤ key x ∧ key x ≤ key y := by
  obtain ⟨⟨e, hsorted, hagree⟩, hge, hcov⟩ := seek_root hdigits hk h hP
  rcases hcov y hy hky with ⟨x, hx, hfit⟩ | ⟨z, hz, hzy⟩
  · exact ⟨x, List.mem_append_left _ hx, hfit⟩
  · have hsub : ∀ z ∈ (seek (dir k) leaf t).2.members, z ∈ t.members := fun z hz =>
      ((seek_subset _ _ _).2 z hz).resolve_right List.not_mem_nil
    have hne : (seek (dir k) leaf t).2 ≠ leaf := by
      intro he
      rw [he] at hz
      cases hz
    obtain ⟨x, hx, hleast⟩ := exists_least_on_leftPath hdigits hsorted hagree
      (fun z hz => hP z (hsub z hz)) hne
    exact ⟨x, List.mem_append_right _ hx, hge x (leftPath_subset x hx),
      Nat.le_trans (hleast z hz) hzy⟩

end Trie

end Porpoise.Lib
