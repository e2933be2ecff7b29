import Porpoise.Shim.Wrap

/-!
# Copies to enclave memory

A `recv_user` changes the bytes it covers and no other. The copies of one call
follow each other, each with operands from the memory that those before it left.

* `applyRecvs_of_not_writes`: a byte that no copy covers.
* `copyOut_rule`: what every copy keeps holds at every copy.
* `recv_apply_echo`: a copy of what is already there changes nothing.
-/

namespace Porpoise.Shim

open Porpoise.Lib

variable {v : UMem} {m m' : Mem} {r : Recv} {rs : List Recv} {p q : Word} {k : Nat}

theorem add_ofNat_sub (p q : Word) : q + BitVec.ofNat 64 (p - q).toNat = p := by
  rw [BitVec.ofNat_toNat, BitVec.setWidth_eq, BitVec.add_comm, BitVec.sub_add_cancel]

/-- The distance of a byte of an object from its start. -/
theorem toNat_add_sub (p : Word) {j : Nat} (hj : j < 2 ^ 64) :
    (p + BitVec.ofNat 64 j - p).toNat = j := by
  rw [BitVec.add_comm, BitVec.add_sub_cancel, BitVec.toNat_ofNat, Nat.mod_eq_of_lt hj]

/-- Whether a copy covers a byte of the enclave. -/
def Recv.Writes (r : Recv) (p : Word) : Prop := (p - r.dst).toNat < r.size

theorem recv_apply_of_writes (h : r.Writes p) (v : UMem) (m : Mem) :
    r.apply v m p = v r.src (r.off + (p - r.dst).toNat) := if_pos h

theorem recv_apply_of_not_writes (h : ¬ r.Writes p) (v : UMem) (m : Mem) : r.apply v m p = m p :=
  if_neg h

/-- A `recv_user` copy, byte by byte. -/
theorem recv_apply_eq (src : Region) (dst len : Word) (v : UMem) (m : Mem) (p : Word) :
    (recv src dst len).apply v m p =
      if (p - dst).toNat < memcpyLen len then v src (p - dst).toNat else m p := by
  show (if _ then v src (0 + _) else _) = _
  rw [Nat.zero_add]
  rfl

/-- An assignment to an object of enclave memory. -/
def Mem.store (m : Mem) (p : Word) (k : Nat) (v : Bytes) : Mem :=
  fun q => if (q - p).toNat < k then v (q - p).toNat else m q

theorem recv_apply_store (src : Region) (dst len : Word) (v : UMem) (m : Mem) :
    (recv src dst len).apply v m = m.store dst (memcpyLen len) (v src) :=
  funext fun p => recv_apply_eq src dst len v m p

/-- A store of what is already there. -/
theorem Mem.store_at (m : Mem) (p : Word) (k : Nat) : m.store p k (m.at p) = m := by
  funext q
  unfold Mem.store Mem.at
  split
  · rw [add_ofNat_sub]
  · rfl

theorem recv_apply_of_size_zero (h : r.size = 0) (v : UMem) (m : Mem) : r.apply v m = m :=
  funext fun p => recv_apply_of_not_writes (by rw [Recv.Writes, h]; omega) v m

@[simp] theorem applyRecvs_nil (v : UMem) (m : Mem) : applyRecvs v [] m = m := rfl

@[simp] theorem applyRecvs_cons (v : UMem) (r : Recv) (rs : List Recv) (m : Mem) :
    applyRecvs v (r :: rs) m = applyRecvs v rs (r.apply v m) := rfl

@[simp] theorem applyRecvs_append (v : UMem) (rs ss : List Recv) (m : Mem) :
    applyRecvs v (rs ++ ss) m = applyRecvs v ss (applyRecvs v rs m) := List.foldl_append

theorem applyRecvs_of_not_writes (h : ∀ r ∈ rs, ¬ r.Writes p) (v : UMem) (m : Mem) :
    applyRecvs v rs m p = m p := by
  induction rs generalizing m with
  | nil => rfl
  | cons r rs ih =>
      rw [applyRecvs_cons, ih fun s hs => h s (List.mem_cons_of_mem r hs)]
      exact recv_apply_of_not_writes (h r (List.mem_cons_self ..)) v m

/-- Copies that all bring what `m'` holds at their places. -/
theorem applyRecvs_of_echo (h : ∀ r ∈ rs, ∀ j < r.size, v r.src (r.off + j) = m'.at r.dst j)
    (hp : m p = m' p ∨ ∃ r ∈ rs, r.Writes p) : applyRecvs v rs m p = m' p := by
  induction rs generalizing m with
  | nil =>
      rcases hp with hp | ⟨r, hr, -⟩
      · exact hp
      · exact absurd hr List.not_mem_nil
  | cons r rs ih =>
      rw [applyRecvs_cons]
      refine ih (fun s hs => h s (List.mem_cons_of_mem r hs)) ?_
      by_cases hw : r.Writes p
      · left
        rw [recv_apply_of_writes hw, h r (List.mem_cons_self ..) _ hw, Mem.at, add_ofNat_sub]
      · rcases hp with hp | ⟨s, hs, hsw⟩
        · left
          rw [recv_apply_of_not_writes hw]
          exact hp
        · rcases List.mem_cons.mp hs with rfl | hs
          · exact absurd hsw hw
          · exact .inr ⟨s, hs, hsw⟩

/-- Copies that all bring the byte `x`. -/
theorem applyRecvs_of_const {x : Byte} (h : ∀ r ∈ rs, ∀ j < r.size, v r.src (r.off + j) = x)
    (hp : m p = x ∨ ∃ r ∈ rs, r.Writes p) : applyRecvs v rs m p = x := by
  have hecho : ∀ r ∈ rs, ∀ j < r.size, v r.src (r.off + j) = Mem.at (fun _ => x) r.dst j := h
  exact applyRecvs_of_echo hecho hp

/-- A copy of what is already there. -/
theorem recv_apply_echo (h : ∀ j < r.size, v r.src (r.off + j) = m.at r.dst j) :
    r.apply v m = m := by
  funext p
  by_cases hw : r.Writes p
  · rw [recv_apply_of_writes hw, h _ hw, Mem.at, add_ofNat_sub]
  · exact recv_apply_of_not_writes hw v m

/-- What every copy keeps. -/
theorem applyRecvs_keeps {I : Mem → Prop} (hm : I m) (h : ∀ r ∈ rs, ∀ m, I m → I (r.apply v m)) :
    I (applyRecvs v rs m) := by
  induction rs generalizing m with
  | nil => exact hm
  | cons r rs ih =>
      rw [applyRecvs_cons]
      exact ih (h r (List.mem_cons_self ..) m hm) fun s hs => h s (List.mem_cons_of_mem r hs)

/-! ## Sequences of copies -/

/-- **Copies one after the other.** What each keeps (`I`) gives what is true of
each (`Q`). -/
theorem copyOut_rule {I : Mem → Prop} {Q : Recv → Prop} {fs : List (Mem → Recv)} (hm : I m)
    (hstep : ∀ f ∈ fs, ∀ m, I m → Q (f m) ∧ I ((f m).apply v m)) :
    (∀ r ∈ copyOut v fs m, Q r) ∧ I (applyRecvs v (copyOut v fs m) m) := by
  induction fs generalizing m with
  | nil => exact ⟨fun r hr => absurd hr List.not_mem_nil, hm⟩
  | cons f fs ih =>
      obtain ⟨hq, hi⟩ := hstep f (List.mem_cons_self ..) m hm
      obtain ⟨hqs, his⟩ := ih hi fun g hg => hstep g (List.mem_cons_of_mem f hg)
      exact ⟨List.forall_mem_cons.mpr ⟨hq, hqs⟩, his⟩

/-- Copies whose operands those before them leave alone. -/
theorem copyOut_eq_map {I : Mem → Prop} {g : (Mem → Recv) → Recv} {fs : List (Mem → Recv)}
    (hm : I m) (hstep : ∀ f ∈ fs, ∀ m, I m → f m = g f ∧ I ((f m).apply v m)) :
    copyOut v fs m = fs.map g := by
  induction fs generalizing m with
  | nil => rfl
  | cons f fs ih =>
      obtain ⟨heq, hi⟩ := hstep f (List.mem_cons_self ..) m hm
      rw [copyOut, ih hi fun g hg => hstep g (List.mem_cons_of_mem f hg), heq, List.map_cons]

theorem copyOut_append (v : UMem) (fs gs : List (Mem → Recv)) (m : Mem) :
    copyOut v (fs ++ gs) m = copyOut v fs m ++ copyOut v gs (applyRecvs v (copyOut v fs m) m) := by
  induction fs generalizing m with
  | nil => rfl
  | cons f fs ih =>
      rw [List.cons_append, copyOut, copyOut, applyRecvs_cons, ih]
      rfl

/-- A byte that only the `i`-th copy covers. -/
theorem applyRecvs_range_at {F : Nat → Recv} {n i : Nat} (hi : i < n)
    (hone : ∀ j < n, j ≠ i → ¬ (F j).Writes p) :
    applyRecvs v ((List.range n).map F) m p = (F i).apply v m p := by
  induction n with
  | zero => omega
  | succ n ih =>
      rw [List.range_succ, List.map_append, applyRecvs_append, List.map_cons, List.map_nil,
        applyRecvs_cons, applyRecvs_nil]
      by_cases hin : i = n
      · subst hin
        have hsame : applyRecvs v ((List.range i).map F) m p = m p := by
          refine applyRecvs_of_not_writes (fun q hq => ?_) v m
          obtain ⟨j, hj, rfl⟩ := List.mem_map.mp hq
          have hlt := List.mem_range.mp hj
          exact hone j (by omega) (by omega)
        simp only [Recv.apply, hsame]
      · rw [recv_apply_of_not_writes (hone n (by omega) (Ne.symm hin))]
        exact ih (by omega) fun j hj => hone j (by omega)

/-! ## Objects -/

/-- Memories that agree on an object. -/
def AgreeOn (m m' : Mem) (p : Word) (k : Nat) : Prop := ∀ j < k, m.at p j = m'.at p j

theorem AgreeOn.refl (m : Mem) (p : Word) (k : Nat) : AgreeOn m m p k := fun _ _ => rfl

/-- The object of `k` bytes at `p` is not covered by a copy of `l` bytes to
`q`. -/
def Apart (p : Word) (k : Nat) (q : Word) (l : Nat) : Prop :=
  ∀ j < k, l ≤ (p + BitVec.ofNat 64 j - q).toNat

theorem AgreeOn.store {l : Nat} (h : AgreeOn m m' p k) (hq : Apart p k q l) (f : Bytes) :
    AgreeOn (m.store q l f) m' p k := by
  intro j hj
  exact (if_neg (Nat.not_lt.mpr (hq j hj))).trans (h j hj)

theorem AgreeOn.apply (h : AgreeOn m m' p k) (hr : Apart p k r.dst r.size) (v : UMem) :
    AgreeOn (r.apply v m) m' p k := by
  intro j hj
  have hnot : ¬ r.Writes (p + BitVec.ofNat 64 j) := Nat.not_lt.mpr (hr j hj)
  exact (recv_apply_of_not_writes hnot v m).trans (h j hj)

theorem AgreeOn.load32 (h : AgreeOn m m' p k) {o : Nat} (ho : o + 4 ≤ k) :
    load32 (m.at p) o = load32 (m'.at p) o := load32_congr fun i hi => h (o + i) (by omega)

theorem AgreeOn.load64 (h : AgreeOn m m' p k) {o : Nat} (ho : o + 8 ≤ k) :
    load64 (m.at p) o = load64 (m'.at p) o := load64_congr fun i hi => h (o + i) (by omega)

theorem AgreeOn.iovBase {n i : Nat} (h : AgreeOn m m' p (16 * n)) (hi : i < n) :
    iovBase m p i = iovBase m' p i := h.load64 (by omega)

theorem AgreeOn.iovLen {n i : Nat} (h : AgreeOn m m' p (16 * n)) (hi : i < n) :
    iovLen m p i = iovLen m' p i := h.load64 (by omega)

section Header

variable (h : AgreeOn m m' p sizeofMsghdr)

include h

theorem AgreeOn.msgName : msgName m p = msgName m' p := h.load64 (by decide)

theorem AgreeOn.msgNamelen : msgNamelen m p = msgNamelen m' p :=
  congrArg (·.setWidth 64) (h.load32 (by decide))

theorem AgreeOn.msgIov : msgIov m p = msgIov m' p := h.load64 (by decide)

theorem AgreeOn.msgIovlen : msgIovlen m p = msgIovlen m' p :=
  congrArg (·.signExtend 64) (h.load32 (by decide))

theorem AgreeOn.msgControl : msgControl m p = msgControl m' p := h.load64 (by decide)

theorem AgreeOn.msgControllen : msgControllen m p = msgControllen m' p :=
  congrArg (·.setWidth 64) (h.load32 (by decide))

theorem AgreeOn.msgFlags : msgFlags m p = msgFlags m' p :=
  congrArg (·.setWidth 64) (h.load32 (by decide))

end Header

/-! ## Copies of any bytes -/

/-- Enclave memory after the first `i` copies, when each has its place and its
length from the memory that those before it left, and the `j`-th brings `g j`. -/
def filled (dst len : Nat → Mem → Word) (g : Nat → Bytes) (m : Mem) : Nat → Mem
  | 0 => m
  | i + 1 =>
      let p := filled dst len g m i
      p.store (dst i p) (memcpyLen (len i p)) (g i)

section Filled

variable {dst len : Nat → Mem → Word} {g g' : Nat → Bytes}

/-- Only what the copies before it bring matters to a copy. -/
theorem filled_congr {i : Nat} (h : ∀ j < i, g j = g' j) :
    filled dst len g m i = filled dst len g' m i := by
  induction i with
  | zero => rfl
  | succ i ih => simp only [filled, ih fun j hj => h j (by omega), h i (by omega)]

/-- What every copy keeps. -/
theorem filled_rule {I : Mem → Prop} {i : Nat} (hm : I m)
    (hstep : ∀ j < i, ∀ p, I p → I (p.store (dst j p) (memcpyLen (len j p)) (g j))) :
    I (filled dst len g m i) := by
  induction i with
  | zero => exact hm
  | succ i ih => exact hstep i (by omega) _ (ih fun j hj => hstep j (by omega))

/-- **Copies one after the other**, with what is true of each (`Q`). -/
theorem copyOut_range (src : Nat → Region) (n : Nat) (Q : Recv → Prop) :
    let F := fun i m => recv (src i) (dst i m) (len i m)
    let M := filled dst len (fun i => v (src i)) m
    applyRecvs v (copyOut v ((List.range n).map F) m) m = M n ∧
      ((∀ r ∈ copyOut v ((List.range n).map F) m, Q r) ↔ ∀ i < n, Q (F i (M i))) := by
  intro F M
  induction n with
  | zero => exact ⟨rfl, by simp [copyOut]⟩
  | succ n ih =>
      obtain ⟨hmem, hall⟩ := ih
      rw [List.range_succ, List.map_append, copyOut_append, hmem]
      refine ⟨?_, ?_⟩
      · rw [applyRecvs_append, hmem]
        exact recv_apply_store _ _ _ v _
      · rw [List.forall_mem_append, hall, Nat.forall_lt_succ_right]
        exact and_congr_right fun _ => List.forall_mem_singleton

end Filled

end Porpoise.Shim
