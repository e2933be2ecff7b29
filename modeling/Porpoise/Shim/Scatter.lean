import Porpoise.Shim.CopyOut
import Porpoise.Shim.Independence

/-!
# The copies of `readv` and `recvmsg`

`readv` copies its segments back one after the other; their buffers are those
that the enclave put into `arg2`. `recvmsg` copies the name, the segments, the
control data and the flags, and reads the caller's header and array anew for
each copy.

* `readvRecvs_eq`: the two loops of `readv` are one.
* `recvmsgLoop_rule`: what every round of the loop keeps.
* `mem_copyOut_range`, `mem_recvmsgLoop`: a copy that those before it leave in
  its place.
-/

namespace Porpoise.Shim

open Porpoise.Lib

variable {c : Ctx} {u v : UMem} {m : Mem} {i k : Nat}

/-! ## `readv` -/

/-- Where the copy of the `i`-th segment comes from. -/
def readvSrc (c : Ctx) (v : UMem) (i : Nat) : Region :=
  if i < 5 then .buf (segBuf i) else c.region (load64 (v (.buf .arg2)) (16 * i))

/-- The copy of the `i`-th segment. -/
def readvRecv (c : Ctx) (v : UMem) (i : Nat) (m : Mem) : Recv :=
  recv (readvSrc c v i) (iovBase m c.a2 i) (iovLen m c.a2 i)

theorem flatMap_range_if {α : Type} {g : Nat → α} {n k : Nat} (h : k ≤ n) :
    (List.range n).flatMap (fun i => if i < k then [g i] else []) = (List.range k).map g := by
  induction n with
  | zero =>
      obtain rfl : k = 0 := by omega
      rfl
  | succ n ih =>
      rw [List.range_succ, List.flatMap_append, List.flatMap_cons, List.flatMap_nil,
        List.append_nil]
      by_cases hk : k = n + 1
      · have hall : ∀ i ∈ List.range n, (if i < k then [g i] else []) = [g i] := by
          intro i hi
          have hlt := List.mem_range.mp hi
          exact if_pos (by omega)
        rw [List.flatMap_congr hall, if_pos (by omega), hk, List.range_succ, List.map_append,
          List.map_eq_flatMap]
        rfl
      · rw [ih (by omega), if_neg (by omega), List.append_nil]

/-- **The copies of `readv`**, one for each segment. -/
theorem readvRecvs_eq (c : Ctx) (v : UMem) :
    readvRecvs c v = (List.range (intCount c.a3)).map (readvRecv c v) := by
  have hsplit : List.range (intCount c.a3) =
      List.range (min 5 (intCount c.a3)) ++
        (List.range (intCount c.a3 - 5)).map (min 5 (intCount c.a3) + ·) := by
    rw [← List.range_add]
    congr 1
    omega
  have hfirst : ∀ i ∈ List.range 5,
      (if i < intCount c.a3 then
        [fun m => recv (.buf (segBuf i)) (iovBase m c.a2 i) (iovLen m c.a2 i)] else []) =
      if i < min 5 (intCount c.a3) then [readvRecv c v i] else [] := by
    intro i hi
    have h5 := List.mem_range.mp hi
    have hiff : i < min 5 (intCount c.a3) ↔ i < intCount c.a3 := by omega
    simp only [hiff]
    split
    · unfold readvRecv
      rw [readvSrc, if_pos h5]
    · rfl
  have hrest : ∀ k ∈ List.range (intCount c.a3 - 5),
      (fun m => recv (c.region (load64 (v (.buf .arg2)) (16 * (k + 5)))) (iovBase m c.a2 (k + 5))
        (iovLen m c.a2 (k + 5))) = (readvRecv c v ∘ (min 5 (intCount c.a3) + ·)) k := by
    intro k hk
    have hlt := List.mem_range.mp hk
    have hidx : min 5 (intCount c.a3) + k = k + 5 := by omega
    unfold readvRecv
    simp only [Function.comp, hidx]
    rw [readvSrc, if_neg (by omega)]
  rw [readvRecvs, hsplit, List.map_append, List.map_map, List.flatMap_congr hfirst,
    flatMap_range_if (Nat.min_le_left _ _), List.map_congr_left hrest]

/-- A copy that those before it leave where it is. -/
theorem mem_copyOut_range {F : Nat → Mem → Recv} {n : Nat} (hk : k < n)
    (h : ∀ j < k, (F j m).apply v m = m) : F k m ∈ copyOut v ((List.range n).map F) m := by
  induction k generalizing F n with
  | zero =>
      obtain ⟨n, rfl⟩ : ∃ p, n = p + 1 := ⟨n - 1, by omega⟩
      rw [List.range_succ_eq_map, List.map_cons, copyOut]
      exact List.mem_cons_self ..
  | succ k ih =>
      obtain ⟨n, rfl⟩ : ∃ p, n = p + 1 := ⟨n - 1, by omega⟩
      rw [List.range_succ_eq_map, List.map_cons, List.map_map, copyOut, h 0 (by omega)]
      refine List.mem_cons_of_mem _ ?_
      exact ih (F := F ∘ Nat.succ) (by omega) fun j hj => h (j + 1) (by omega)

/-- The copies from the `i`-th on, when those before it change nothing. -/
theorem applyRecvs_copyOut_from {F : Nat → Mem → Recv} {n : Nat} (hi : i < n)
    (h : ∀ j < i, (F j m).apply v m = m) :
    let m' := (F i m).apply v m
    applyRecvs v (copyOut v ((List.range n).map F) m) m =
      applyRecvs v (copyOut v ((List.range (n - (i + 1))).map fun j => F (i + 1 + j)) m') m' := by
  induction i generalizing F n with
  | zero =>
      obtain ⟨n, rfl⟩ : ∃ p, n = p + 1 := ⟨n - 1, by omega⟩
      rw [List.range_succ_eq_map, List.map_cons, List.map_map, copyOut, applyRecvs_cons]
      simp only [Function.comp_def, Nat.succ_eq_add_one, Nat.add_comm, Nat.add_sub_cancel, zero_add]
  | succ i ih =>
      obtain ⟨n, rfl⟩ : ∃ p, n = p + 1 := ⟨n - 1, by omega⟩
      have hrest := ih (F := F ∘ Nat.succ) (n := n) (by omega) fun j hj => h (j + 1) (by omega)
      rw [List.range_succ_eq_map, List.map_cons, List.map_map, copyOut, applyRecvs_cons,
        h 0 (by omega)]
      refine hrest.trans ?_
      have hidx : ∀ j, (i + 1 + j).succ = i + 1 + 1 + j := fun j => by omega
      have hcount : n - (i + 1) = n + 1 - (i + 1 + 1) := by omega
      simp only [Function.comp_apply, hidx, hcount]

/-- The segments of `readv` lie where the enclave put them. -/
theorem readvSrc_sent (hi : i < intCount c.a3)
    (hv : v (.buf .arg2) = sent c .readv u (.buf .arg2)) :
    readvSrc c v i = if i < 5 then .buf (segBuf i) else .heap (c.alloc (i - 5)) := by
  have harray : sent c .readv u (.buf .arg2) =
      applyAll (readvSends c) ((sendNr .readv).apply u) (.buf .arg2) :=
    applyAll_between (by decide) (by decide) _
  rw [readvSrc, hv, harray, (readv_entry hi _).1, segPtr]
  split
  · rfl
  · exact c.region_alloc _

/-- Nothing is sent to the buffers of the segments of `readv`. -/
theorem readvSrc_unsent (i : Nat) :
    ∀ s ∈ wrapSends c .readv,
      s.dst ≠ if i < 5 then Region.buf (segBuf i) else .heap (c.alloc (i - 5)) := by
  have hbuf : ∀ b : Buf, b = .arg1 ∨ b = .arg2 ∨ b = .arg3 →
      Region.buf b ≠ if i < 5 then Region.buf (segBuf i) else .heap (c.alloc (i - 5)) := by
    intro b hb
    split
    · intro heq
      obtain rfl := Region.buf.inj heq
      rcases hb with hb | hb | hb <;> exact segBuf_ne (by decide) i hb
    · exact (heap_ne_buf _ _).symm
  simp only [wrapSends, readvSends, readvFirst, readvRest, List.forall_mem_append,
    List.forall_mem_cons, List.forall_mem_flatMap, forall_mem_ite]
  simp [hbuf]

/-! ## `recvmsg` -/

/-- Where the copy of the `i`-th segment of a message comes from. -/
def msgSegSrc (c : Ctx) (v : UMem) (i : Nat) : Region :=
  c.region (load64 (v (c.region (load64 (v (.buf .arg2)) 16))) (16 * i))

/-- The copy of the `i`-th segment of a message. -/
def msgSegRecv (c : Ctx) (v : UMem) (i : Nat) (m : Mem) : Recv :=
  recv (msgSegSrc c v i) (iovBase m (msgIov m c.a2) i) (iovLen m (msgIov m c.a2) i)

theorem recvmsgLoop_succ (c : Ctx) (v : UMem) (fuel i : Nat) (m : Mem) :
    recvmsgLoop c v (fuel + 1) i m =
      if i < intCount (msgIovlen m c.a2) then
        msgSegRecv c v i m :: recvmsgLoop c v fuel (i + 1) ((msgSegRecv c v i m).apply v m)
      else [] := rfl

/-- **The loop of `recvmsg`.** What each round keeps (`I`) gives what is true of
each copy (`Q`). -/
theorem recvmsgLoop_rule {I : Mem → Prop} {Q : Recv → Prop} (hm : I m)
    (hstep : ∀ i m, I m → i < intCount (msgIovlen m c.a2) →
      Q (msgSegRecv c v i m) ∧ I ((msgSegRecv c v i m).apply v m)) (fuel i : Nat) :
    (∀ r ∈ recvmsgLoop c v fuel i m, Q r) ∧ I (applyRecvs v (recvmsgLoop c v fuel i m) m) := by
  induction fuel generalizing i m with
  | zero => exact ⟨fun r hr => absurd hr List.not_mem_nil, hm⟩
  | succ fuel ih =>
      rw [recvmsgLoop_succ]
      split
      · rename_i hi
        obtain ⟨hq, hkeep⟩ := hstep i m hm hi
        obtain ⟨hqs, hkeeps⟩ := ih hkeep (i + 1)
        exact ⟨List.forall_mem_cons.mpr ⟨hq, hqs⟩, hkeeps⟩
      · exact ⟨fun r hr => absurd hr List.not_mem_nil, hm⟩

/-- **The rounds of the loop** from memory `m`: it stops at the first round `k` that the
message of the moment does not have. -/
theorem recvmsgLoop_run (fuel i : Nat) :
    let M := filled (fun i m => iovBase m (msgIov m c.a2) i)
      (fun i m => iovLen m (msgIov m c.a2) i) (fun i => v (msgSegSrc c v i)) m
    ∃ k, i ≤ k ∧ (∀ l, i ≤ l → l < k → l < intCount (msgIovlen (M l) c.a2)) ∧
      (k < i + fuel → intCount (msgIovlen (M k) c.a2) ≤ k) ∧ k ≤ i + fuel ∧
      (∀ r, r ∈ recvmsgLoop c v fuel i (M i) ↔
        ∃ l, i ≤ l ∧ l < k ∧ r = msgSegRecv c v l (M l)) ∧
      applyRecvs v (recvmsgLoop c v fuel i (M i)) (M i) = M k := by
  intro M
  induction fuel generalizing i with
  | zero =>
      refine ⟨i, le_refl i, fun l _ _ => by omega, fun _ => by omega, by omega, fun r => ?_, rfl⟩
      exact ⟨fun hr => absurd hr List.not_mem_nil, fun ⟨l, _, _, _⟩ => by omega⟩
  | succ fuel ih =>
      rw [recvmsgLoop_succ]
      by_cases hi : i < intCount (msgIovlen (M i) c.a2)
      · have hnext : (msgSegRecv c v i (M i)).apply v (M i) = M (i + 1) := recv_apply_store ..
        obtain ⟨k, hik, hruns, hstop, hk, hmem, hafter⟩ := ih (i + 1)
        rw [if_pos hi, hnext, applyRecvs_cons, hnext]
        refine ⟨k, by omega, fun l hl hlk => ?_, fun h => hstop (by omega), by omega, fun r => ?_,
          hafter⟩
        · by_cases hli : l = i
          · exact hli ▸ hi
          · exact hruns l (by omega) hlk
        · rw [List.mem_cons, hmem]
          constructor
          · rintro (rfl | ⟨l, hl, hlk, rfl⟩)
            · exact ⟨i, le_refl i, by omega, rfl⟩
            · exact ⟨l, by omega, hlk, rfl⟩
          · rintro ⟨l, hl, hlk, rfl⟩
            by_cases hli : l = i
            · exact .inl (hli ▸ rfl)
            · exact .inr ⟨l, by omega, hlk, rfl⟩
      · rw [if_neg hi]
        refine ⟨i, le_refl i, fun l _ _ => by omega, fun _ => by omega, by omega, fun r => ?_, rfl⟩
        exact ⟨fun hr => absurd hr List.not_mem_nil, fun ⟨l, _, _, _⟩ => by omega⟩

/-- A copy of the loop that those before it leave where it is. -/
theorem mem_recvmsgLoop {fuel : Nat} (hi : i ≤ k) (hk : k < intCount (msgIovlen m c.a2))
    (hfuel : k < i + fuel) (h : ∀ j, i ≤ j → j < k → (msgSegRecv c v j m).apply v m = m) :
    msgSegRecv c v k m ∈ recvmsgLoop c v fuel i m := by
  induction fuel generalizing i with
  | zero => omega
  | succ fuel ih =>
      rw [recvmsgLoop_succ, if_pos (by omega)]
      by_cases hik : i = k
      · subst hik
        exact List.mem_cons_self ..
      · rw [h i (le_refl i) (by omega)]
        refine List.mem_cons_of_mem _ (ih (by omega) (by omega) fun j hj hjk => ?_)
        exact h j (by omega) hjk

/-- The loop when no round changes what the next ones read. -/
theorem recvmsgLoop_eq_map {I : Mem → Prop} {n fuel : Nat} (hm : I m)
    (hcount : ∀ m, I m → intCount (msgIovlen m c.a2) = n) {F : Nat → Recv}
    (hstep : ∀ i < n, ∀ m, I m → msgSegRecv c v i m = F i ∧ I ((F i).apply v m))
    (hfuel : n ≤ i + fuel) :
    recvmsgLoop c v fuel i m = (List.range (n - i)).map fun j => F (i + j) := by
  induction fuel generalizing i m with
  | zero =>
      rw [show n - i = 0 by omega]
      rfl
  | succ fuel ih =>
      rw [recvmsgLoop_succ, hcount m hm]
      by_cases hi : i < n
      · obtain ⟨heq, hkeep⟩ := hstep i hi m hm
        have hidx : ∀ j, i + 1 + j = i + (j + 1) := fun j => by omega
        rw [if_pos hi, heq, ih hkeep (by omega), show n - i = n - (i + 1) + 1 by omega,
          List.range_succ_eq_map, List.map_cons, List.map_map]
        simp only [Function.comp_def, Nat.succ_eq_add_one, hidx, Nat.add_zero]
      · rw [if_neg hi, show n - i = 0 by omega]
        rfl

section Parts

variable (c v m)

/-- The parts of a message, one after the other: the name, the segments and the
control data. -/
def msgNameRecvs : List Recv :=
  if load32 (v (.buf .arg2)) 8 = 0 then []
  else [recv (c.region (load64 (v (.buf .arg2)) 0)) (msgName m c.a2) (msgNamelen m c.a2)]

def msgSegRecvs : List Recv :=
  if load32 (v (.buf .arg2)) 24 = 0 then [] else recvmsgLoop c v (2 ^ 31) 0 m

def msgControlRecvs : List Recv :=
  if load32 (v (.buf .arg2)) 40 = 0 then []
  else
    [recv (c.region (load64 (v (.buf .arg2)) 32)) (msgControl m c.a2) (msgControllen m c.a2)]

/-- The flags of the header. -/
def msgFlagsRecv : Recv := ⟨.buf .arg2, 48, c.a2 + 48, 4, false⟩

theorem recvmsgRecvs_eq :
    let m1 := applyRecvs v (msgNameRecvs c v m) m
    let m2 := applyRecvs v (msgSegRecvs c v m1) m1
    recvmsgRecvs c v m =
      msgNameRecvs c v m ++ msgSegRecvs c v m1 ++ msgControlRecvs c v m2 ++ [msgFlagsRecv c] := rfl

end Parts

end Porpoise.Shim
