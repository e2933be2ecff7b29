import Porpoise.Shim.Inputs

/-!
# The inputs of arrays and messages

`readv`, `writev`, `sendmsg` and `recvmsg` first read an array of segments or a
header, which is an input; with these fixed, a run of the call differs in the
data only (`writevSends_run`, `sendmsg_run`).

* `readv_inputs_only`, `recvmsg_inputs_only`: nothing else is sent.
* `writev_inputs_only_iff`, `sendmsg_inputs_only_iff`: exactly when the inputs
  cover what is copied of each part.
-/

namespace Porpoise.Shim

open Porpoise.Lib

variable {c : Ctx} {K : Kernel} {x : Secret} {objs : List Obj} {k : Nat}

/-! ## Arrays -/

/-- The five segments of the first loop and those of the second. -/
theorem forall_segments {P : Nat → Prop} {n : Nat} :
    ((∀ i < 5, i < n → P i) ∧ ∀ k < n - 5, P (k + 5)) ↔ ∀ i < n, P i := by
  constructor
  · rintro ⟨hfirst, hrest⟩ i hi
    by_cases h5 : i < 5
    · exact hfirst i h5 hi
    · have hk := hrest (i - 5) (by omega)
      rwa [show i - 5 + 5 = i by omega] at hk
  · intro h
    exact ⟨fun i _ hi => h i hi, fun k hk => h (k + 5) (by omega)⟩

theorem readvFirst_run (hx : AgreeOn x.mem c.mem c.a2 (16 * intCount c.a3)) (i : Nat) :
    readvFirst (c.run x) i = readvFirst c i := by
  by_cases hi : i < intCount c.a3
  · simp only [readvFirst, run_a2, run_a3, run_mem, run_addr, hx.iovLen hi]
  · simp only [readvFirst, run_a3, hi, if_false]

theorem readvRest_run (hx : AgreeOn x.mem c.mem c.a2 (16 * intCount c.a3))
    (hk : k < intCount c.a3 - 5) : readvRest (c.run x) k = readvRest c k := by
  have hi : k + 5 < intCount c.a3 := by omega
  simp only [readvRest, run_a2, run_mem, run_alloc, hx.iovLen hi]

theorem readvSends_run (hx : AgreeOn x.mem c.mem c.a2 (16 * intCount c.a3)) :
    readvSends (c.run x) = readvSends c := by
  have hfirst : (List.range 5).flatMap (readvFirst (c.run x)) =
      (List.range 5).flatMap (readvFirst c) :=
    List.flatMap_congr fun i _ => readvFirst_run hx i
  have hrest : (List.range (intCount c.a3 - 5)).flatMap (readvRest (c.run x)) =
      (List.range (intCount c.a3 - 5)).flatMap (readvRest c) :=
    List.flatMap_congr fun k hk => readvRest_run hx (List.mem_range.mp hk)
  rw [readvSends, readvSends, hfirst, run_a3, hrest]

theorem readv_inputs_only : InputsOnly c K .readv := by
  refine (inputsOnly_iff_sends fun _ => rfl).mpr ?_
  have hrun : ∀ x : Secret, Agrees (inputs c K .readv) x.mem c.mem →
      readvSends (c.run x) = readvSends c := by
    intro x hx
    refine readvSends_run (hx.agreeOn ?_)
    exact known_object (List.mem_singleton_self _)
  intro x y hxy
  simp only [wrapSends, hrun x hxy.1, hrun y hxy.2, run_a1, run_a3]

/-- A round of the first loop of `writev`, with the array of `c` and the data of `m`. -/
def writevFirstFrom (c : Ctx) (m : Mem) (i : Nat) : List Store :=
  if i < intCount c.a3 then
    [putAt (.buf .arg2) (16 * i + 8) (iovLen c.mem c.a2 i),
     putAt (.buf .arg2) (16 * i) (c.addr (segBuf i)),
     send (.buf (segBuf i)) (m.at (iovBase c.mem c.a2 i)) (iovLen c.mem c.a2 i)]
  else []

/-- One of the second. -/
def writevRestFrom (c : Ctx) (m : Mem) (k : Nat) : List Store :=
  [putAt (.buf .arg2) (16 * (k + 5)) (c.alloc k),
   send (.heap (c.alloc k)) (m.at (iovBase c.mem c.a2 (k + 5))) (iovLen c.mem c.a2 (k + 5))]

theorem writevFirst_run (hx : AgreeOn x.mem c.mem c.a2 (16 * intCount c.a3)) (i : Nat) :
    writevFirst (c.run x) i = writevFirstFrom c x.mem i := by
  by_cases hi : i < intCount c.a3
  · simp only [writevFirst, writevFirstFrom, run_a2, run_a3, run_mem, run_addr, hx.iovLen hi,
      hx.iovBase hi]
  · simp only [writevFirst, writevFirstFrom, run_a3, hi, if_false]

theorem writevRest_run (hx : AgreeOn x.mem c.mem c.a2 (16 * intCount c.a3))
    (hk : k < intCount c.a3 - 5) : writevRest (c.run x) k = writevRestFrom c x.mem k := by
  have hi : k + 5 < intCount c.a3 := by omega
  simp only [writevRest, writevRestFrom, run_a2, run_mem, run_alloc, hx.iovLen hi, hx.iovBase hi]

theorem writevSends_run (hx : AgreeOn x.mem c.mem c.a2 (16 * intCount c.a3)) :
    writevSends (c.run x) = (List.range 5).flatMap (writevFirstFrom c x.mem) ++
      (List.range (intCount c.a3 - 5)).flatMap (writevRestFrom c x.mem) := by
  have hfirst : (List.range 5).flatMap (writevFirst (c.run x)) =
      (List.range 5).flatMap (writevFirstFrom c x.mem) :=
    List.flatMap_congr fun i _ => writevFirst_run hx i
  have hrest : (List.range (intCount c.a3 - 5)).flatMap (writevRest (c.run x)) =
      (List.range (intCount c.a3 - 5)).flatMap (writevRestFrom c x.mem) :=
    List.flatMap_congr fun k hk => writevRest_run hx (List.mem_range.mp hk)
  rw [writevSends, hfirst, run_a3, hrest]

theorem length_writevFirstFrom (m m' : Mem) (i : Nat) :
    (writevFirstFrom c m i).length = (writevFirstFrom c m' i).length := by
  rw [writevFirstFrom, writevFirstFrom]
  split <;> rfl

theorem indep_writevFirstFrom (i : Nat) :
    (Indep (SameInputs objs c.mem) fun x => (writevFirstFrom c x.mem i).map Store.written) ↔
      (i < intCount c.a3 →
        Known objs (iovBase c.mem c.a2 i) (memcpyLen (iovLen c.mem c.a2 i))) := by
  by_cases hi : i < intCount c.a3
  · simp only [writevFirstFrom, hi, if_true, List.map_cons, List.map_nil, indep_cons, indep_const,
      indep_send_mem, true_and, and_true, true_imp_iff]
  · simp only [writevFirstFrom, hi, if_false, indep_const, false_imp_iff]

theorem indep_writevRestFrom (k : Nat) :
    (Indep (SameInputs objs c.mem) fun x => (writevRestFrom c x.mem k).map Store.written) ↔
      Known objs (iovBase c.mem c.a2 (k + 5)) (memcpyLen (iovLen c.mem c.a2 (k + 5))) := by
  simp only [writevRestFrom, List.map_cons, List.map_nil, indep_cons, indep_const,
    indep_send_mem, true_and, and_true]

theorem writev_inputs_only_iff : InputsOnly c K .writev ↔
    ∀ i < intCount c.a3, Known (inputs c K .writev) (iovBase c.mem c.a2 i)
      (memcpyLen (iovLen c.mem c.a2 i)) := by
  refine (inputsOnly_iff_sends fun _ => rfl).trans ?_
  have hrun : ∀ x : Secret, Agrees (inputs c K .writev) x.mem c.mem →
      (wrapSends (c.run x) .writev).map Store.written =
        (sendInt .arg1 c.a1).written ::
          ((List.range 5).flatMap (fun i => (writevFirstFrom c x.mem i).map Store.written) ++
            (List.range (intCount c.a3 - 5)).flatMap
              (fun k => (writevRestFrom c x.mem k).map Store.written) ++
            [(sendInt .arg3 c.a3).written]) := by
    intro x hx
    have harray : AgreeOn x.mem c.mem c.a2 (16 * intCount c.a3) := by
      refine hx.agreeOn (Known.of_mem (o := iovObj c.a2 (intCount c.a3)) ?_ (Nat.le_refl _))
      exact List.mem_cons_self ..
    simp only [wrapSends, writevSends_run harray, run_a1, run_a3, List.map_cons, List.map_append,
      List.map_flatMap, List.cons_append, List.map_nil]
  rw [indep_sameInputs hrun, indep_cons, indep_append, indep_append,
    indep_flatMap_range, indep_flatMap_range]
  · simp only [indep_const, indep_writevFirstFrom, indep_writevRestFrom, true_and, and_true]
    exact forall_segments
  · exact fun _ _ _ => rfl
  · intro x y i
    rw [List.length_map, List.length_map, length_writevFirstFrom]
  · intro x y
    refine length_flatMap_range fun i => ?_
    rw [List.length_map, List.length_map, length_writevFirstFrom]
  · intro x y
    rw [List.length_append, List.length_append]
    congr 1
    · refine length_flatMap_range fun i => ?_
      rw [List.length_map, List.length_map, length_writevFirstFrom]
    · exact length_flatMap_range fun i => rfl

/-! ## Messages -/

section Message

variable (hx : AgreeOn x.mem c.mem c.a2 sizeofMsghdr)
  (harray : AgreeOn x.mem c.mem (msgIov c.mem c.a2) (16 * intCount (msgIovlen c.mem c.a2)))

/-- The writes for the name of `sendmsg`, with the header of `c` and the data of `m`. -/
def msgNameFrom (c : Ctx) (m : Mem) : List Store :=
  if msgNamelen c.mem c.a2 = 0 then [putAt (.buf .arg2) 0 0]
  else
    [putAt (.buf .arg2) 0 (c.alloc 0),
     send (.heap (c.alloc 0)) (m.at (msgName c.mem c.a2)) (msgNamelen c.mem c.a2)]

/-- Those for a segment. -/
def msgSegFrom (c : Ctx) (m : Mem) (i : Nat) : List Store :=
  msgSegSends c false i ++
    [send (.heap (c.alloc (msgNameBlocks c + 1 + i))) (m.at (iovBase c.mem (msgIov c.mem c.a2) i))
      (iovLen c.mem (msgIov c.mem c.a2) i)]

/-- Those for the control data. -/
def msgControlFrom (c : Ctx) (m : Mem) : List Store :=
  if msgControllen c.mem c.a2 = 0 then [putAt (.buf .arg2) 32 0]
  else
    [putAt (.buf .arg2) 32 (c.alloc (msgIovBlocks c)),
     send (.heap (c.alloc (msgIovBlocks c))) (m.at (msgControl c.mem c.a2))
       (msgControllen c.mem c.a2)]

/-- Those for the segments. -/
def msgIovFrom (c : Ctx) (m : Mem) : List Store :=
  if msgIovlen c.mem c.a2 = 0 then [putAt (.buf .arg2) 16 0]
  else putAt (.buf .arg2) 16 (c.alloc (msgNameBlocks c)) ::
     (List.range (intCount (msgIovlen c.mem c.a2))).flatMap (msgSegFrom c m)

/-- A message with the header and the array of `c`. -/
def msgSendsFrom (c : Ctx) (m : Mem) : List Store :=
  [⟨.buf .arg2, 0, sizeofMsghdr, fun _ => 0, false⟩, sendLong .arg1 c.a1,
   putIntAt (.buf .arg2) 8 (msgNamelen c.mem c.a2)] ++ msgNameFrom c m ++
  putIntAt (.buf .arg2) 24 (msgIovlen c.mem c.a2) :: msgIovFrom c m ++
  putIntAt (.buf .arg2) 40 (msgControllen c.mem c.a2) :: msgControlFrom c m ++
  [putIntAt (.buf .arg2) 48 (msgFlags c.mem c.a2), sendLong .arg3 c.a3]

include hx

theorem msgNameBlocks_run : msgNameBlocks (c.run x) = msgNameBlocks c := by
  simp only [msgNameBlocks, run_mem, run_a2, hx.msgNamelen]

theorem msgIovBlocks_run : msgIovBlocks (c.run x) = msgIovBlocks c := by
  simp only [msgIovBlocks, msgNameBlocks_run hx, run_mem, run_a2, hx.msgIovlen]

include harray

theorem msgSegSends_run {i : Nat} (hi : i < intCount (msgIovlen c.mem c.a2)) (data : Bool) :
    msgSegSends (c.run x) data i =
      if data then msgSegFrom c x.mem i else msgSegSends c false i := by
  cases data <;>
    simp only [msgSegSends, msgSegFrom, run_mem, run_a2, run_alloc, msgNameBlocks_run hx,
      hx.msgIov, harray.iovLen hi, harray.iovBase hi, if_true, Bool.false_eq_true, if_false,
      List.append_nil]

theorem recvmsg_run : msgSends (c.run x) false = msgSends c false := by
  have hsegs :
      (List.range (intCount (msgIovlen c.mem c.a2))).flatMap (msgSegSends (c.run x) false) =
        (List.range (intCount (msgIovlen c.mem c.a2))).flatMap (msgSegSends c false) :=
    List.flatMap_congr fun i hi => msgSegSends_run hx harray (List.mem_range.mp hi) false
  simp only [msgSends, run_mem, run_a1, run_a2, run_a3, run_alloc, hx.msgNamelen, hx.msgIovlen,
    hx.msgControllen, hx.msgFlags, msgNameBlocks_run hx, msgIovBlocks_run hx, hsegs,
    Bool.false_eq_true, if_false]

theorem sendmsg_run : msgSends (c.run x) true = msgSendsFrom c x.mem := by
  have hsegs :
      (List.range (intCount (msgIovlen c.mem c.a2))).flatMap (msgSegSends (c.run x) true) =
        (List.range (intCount (msgIovlen c.mem c.a2))).flatMap (msgSegFrom c x.mem) :=
    List.flatMap_congr fun i hi => msgSegSends_run hx harray (List.mem_range.mp hi) true
  simp only [msgSends, msgSendsFrom, msgNameFrom, msgIovFrom, msgControlFrom, run_mem, run_a1,
    run_a2, run_a3, run_alloc, hx.msgName, hx.msgNamelen, hx.msgIovlen, hx.msgControl,
    hx.msgControllen, hx.msgFlags, msgNameBlocks_run hx, msgIovBlocks_run hx, hsegs, if_true]

end Message

theorem indep_msgNameFrom :
    (Indep (SameInputs objs c.mem) fun x => (msgNameFrom c x.mem).map Store.written) ↔
      Known objs (msgName c.mem c.a2) (memcpyLen (msgNamelen c.mem c.a2)) := by
  by_cases h : msgNamelen c.mem c.a2 = 0
  · simp only [msgNameFrom, h, if_true, indep_const, known_zero]
  · simp only [msgNameFrom, h, if_false, List.map_cons, List.map_nil, indep_cons, indep_const,
      indep_send_mem, true_and, and_true]

theorem indep_msgControlFrom :
    (Indep (SameInputs objs c.mem) fun x => (msgControlFrom c x.mem).map Store.written) ↔
      Known objs (msgControl c.mem c.a2) (memcpyLen (msgControllen c.mem c.a2)) := by
  by_cases h : msgControllen c.mem c.a2 = 0
  · simp only [msgControlFrom, h, if_true, indep_const, known_zero]
  · simp only [msgControlFrom, h, if_false, List.map_cons, List.map_nil, indep_cons, indep_const,
      indep_send_mem, true_and, and_true]

theorem indep_msgSegFrom (i : Nat) :
    (Indep (SameInputs objs c.mem) fun x => (msgSegFrom c x.mem i).map Store.written) ↔
      Known objs (iovBase c.mem (msgIov c.mem c.a2) i)
        (memcpyLen (iovLen c.mem (msgIov c.mem c.a2) i)) := by
  simp only [msgSegFrom, List.map_append, List.map_cons, List.map_nil]
  rw [indep_append fun _ _ => rfl]
  simp only [indep_cons, indep_const, indep_send_mem, true_and, and_true]

theorem length_msgSegFrom (m m' : Mem) (i : Nat) :
    ((msgSegFrom c m i).map Store.written).length =
      ((msgSegFrom c m' i).map Store.written).length := by
  simp only [msgSegFrom, List.length_map, List.length_append, List.length_cons]

theorem indep_msgIovFrom :
    (Indep (SameInputs objs c.mem) fun x => (msgIovFrom c x.mem).map Store.written) ↔
      ∀ i < intCount (msgIovlen c.mem c.a2), Known objs (iovBase c.mem (msgIov c.mem c.a2) i)
        (memcpyLen (iovLen c.mem (msgIov c.mem c.a2) i)) := by
  by_cases h : msgIovlen c.mem c.a2 = 0
  · have hzero : intCount 0 = 0 := by decide
    simp only [msgIovFrom, h, if_true, indep_const, hzero, Nat.not_lt_zero, false_imp_iff,
      implies_true]
  · simp only [msgIovFrom, h, if_false, List.map_cons, List.map_flatMap, indep_cons, indep_const,
      true_and]
    rw [indep_flatMap_range fun x y i => length_msgSegFrom x.mem y.mem i]
    simp only [indep_msgSegFrom]

theorem length_msgFrom (m m' : Mem) :
    (msgNameFrom c m).length = (msgNameFrom c m').length ∧
      (msgIovFrom c m).length = (msgIovFrom c m').length ∧
      (msgControlFrom c m).length = (msgControlFrom c m').length := by
  refine ⟨?_, ?_, ?_⟩
  · rw [msgNameFrom, msgNameFrom]
    split <;> rfl
  · rw [msgIovFrom, msgIovFrom]
    split
    · rfl
    · refine congrArg (· + 1) (length_flatMap_range fun i => ?_)
      simp only [msgSegFrom, List.length_append, List.length_cons]
  · rw [msgControlFrom, msgControlFrom]
    split <;> rfl

theorem recvmsg_inputs_only : InputsOnly c K .recvmsg := by
  refine (inputsOnly_iff_sends fun _ => rfl).mpr ?_
  have hrun : ∀ x : Secret, Agrees (inputs c K .recvmsg) x.mem c.mem →
      msgSends (c.run x) false = msgSends c false := by
    intro x hx
    refine recvmsg_run (hx.agreeOn (known_object ?_)) (hx.agreeOn (known_object ?_))
    · exact List.mem_cons_self ..
    · exact List.mem_cons_of_mem _ (List.mem_cons_self ..)
  intro x y hxy
  simp only [wrapSends, hrun x hxy.1, hrun y hxy.2]

theorem sendmsg_inputs_only_iff : InputsOnly c K .sendmsg ↔
    Known (inputs c K .sendmsg) (msgName c.mem c.a2) (memcpyLen (msgNamelen c.mem c.a2)) ∧
      (∀ i < intCount (msgIovlen c.mem c.a2),
        Known (inputs c K .sendmsg) (iovBase c.mem (msgIov c.mem c.a2) i)
          (memcpyLen (iovLen c.mem (msgIov c.mem c.a2) i))) ∧
      Known (inputs c K .sendmsg) (msgControl c.mem c.a2)
        (memcpyLen (msgControllen c.mem c.a2)) := by
  refine (inputsOnly_iff_sends fun _ => rfl).trans ?_
  have hrun : ∀ x : Secret, Agrees (inputs c K .sendmsg) x.mem c.mem →
      (wrapSends (c.run x) .sendmsg).map Store.written =
        (msgSendsFrom c x.mem).map Store.written := by
    intro x hx
    refine congrArg _ (sendmsg_run (hx.agreeOn (known_object ?_)) (hx.agreeOn (known_object ?_)))
    · exact List.mem_cons_self ..
    · simp only [inputs, iovObj, List.mem_cons, true_or, or_true]
  rw [indep_sameInputs hrun]
  simp only [msgSendsFrom, List.map_append, List.map_cons, List.map_nil]
  rw [indep_append, indep_append, indep_append, indep_append]
  · simp only [indep_cons, indep_const, indep_msgNameFrom, indep_msgIovFrom, indep_msgControlFrom,
      true_and, and_true, and_assoc]
  all_goals
    intro x y
    obtain ⟨hname, hsegs, hcontrol⟩ := length_msgFrom (c := c) x.mem y.mem
    simp only [List.length_append, List.length_cons, List.length_map, List.length_nil, hname, hsegs,
      hcontrol]

end Porpoise.Shim
