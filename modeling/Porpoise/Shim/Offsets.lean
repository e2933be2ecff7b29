import Porpoise.Shim.OneCall

/-!
# File positions and sizes

The calls that take an `off_t`: `lseek`, `truncate`, `ftruncate`, `pread64`, `pwrite64`
and `fallocate`. Their positions pass through a local variable, a copy, the decoder and
a call of the host's C library.

* `PositionsKept`: the kernel gets the caller's descriptor or path, positions, lengths
  and `whence`.
* `positions_iff`: for which arguments. `truncate` and `ftruncate` take the length for a
  `mode_t`, `truncate` sends nine bytes of the path, and the host does not pass `whence`.
-/

namespace Porpoise.Shim

open Porpoise.Lib

variable {c : Ctx} {K : Kernel} {u : UMem}

inductive PositionCall
  | lseek | truncate | ftruncate | pread64 | pwrite64 | fallocate
  deriving DecidableEq

namespace PositionCall

def sysno : PositionCall → Sysno
  | lseek => .lseek
  | truncate => .truncate
  | ftruncate => .ftruncate
  | pread64 => .pread64
  | pwrite64 => .pwrite64
  | fallocate => .fallocate

/-- The arguments but for the buffers of `pread64` and `pwrite64`. -/
def places : PositionCall → List Nat
  | lseek => [0, 1, 2]
  | truncate | ftruncate => [0, 1]
  | pread64 | pwrite64 => [0, 2, 3]
  | fallocate => [0, 1, 2, 3]

end PositionCall

variable {q : PositionCall}

/-- A request with the arguments at these places only. -/
def Request.only (is : List Nat) (x : Request) : Request := ⟨x.fn, is.filterMap (x.args[·]?)⟩

/-- The kernel gets one request, with the caller's arguments, whatever the slot held
and the ocall returns. -/
def PositionsKept (c : Ctx) (K : Kernel) (q : PositionCall) : Prop :=
  ∀ r u rs, Issued c q.sysno (requests c K r q.sysno u) rs →
    rs.map (·.map (·.only q.places)) = [[(c.request K q.sysno).only q.places]]

/-- A length that an unsigned `int` carries. -/
def FitsMode (w : Word) : Prop := w.toNat < 2 ^ 32

/-- When it does. -/
def positionsWhen (c : Ctx) (K : Kernel) : PositionCall → Prop
  -- what is in the register of the argument that is not passed
  | .lseek => c.indet.setWidth 32 = c.a3.setWidth 32
  | .truncate => (c.a1 ≠ 0 ∧ cstrLen K.pathMax (c.mem.at c.a1) ≤ 9) ∧ FitsMode c.a2
  | .ftruncate => FitsMode c.a2
  -- the buffer is sent after the count, and must not reach it
  | .pwrite64 => Fits c.a3
  | .pread64 | .fallocate => True

theorem fitsMode_iff {w : Word} : (w.setWidth 32).setWidth 64 = w ↔ FitsMode w := by
  rw [FitsMode, ← BitVec.toNat_inj, BitVec.toNat_setWidth, BitVec.toNat_setWidth]
  have hlt := w.isLt
  omega

theorem wrapPhases_of_position (q : PositionCall) (c : Ctx) :
    wrapPhases c q.sysno = [wrapSends c q.sysno] := by
  cases q <;> rfl

/-- The stores stay, and the arguments at their places, as the kernel sees them. -/
theorem positionsKept_iff_views {h : HostCall} (hcase : unwrapCase q.sysno = [h])
    (hfn : h.fn = .syscall q.sysno) :
    PositionsKept c K q ↔ StoresFit c q.sysno ∧
      ∀ u, q.places.filterMap ((kernelView K (.syscall q.sysno)
        (h.args.map (·.eval c (sent c q.sysno u))) fun p => sent c q.sysno u (c.region p))[·]?) =
      q.places.filterMap ((kernelView K (.syscall q.sysno) c.args c.mem.at)[·]?) := by
  have hissued : ∀ r u, (∀ rs, Issued c q.sysno (requests c K r q.sysno u) rs →
      rs.map (·.map (·.only q.places)) = [[(c.request K q.sysno).only q.places]]) ↔
      StoresFit c q.sysno ∧ (requests c K r q.sysno u).map (·.map (·.only q.places)) =
        [[(c.request K q.sysno).only q.places]] := by
    intro r u
    rw [forall_issued_iff ⟨[], List.cons_ne_nil _ _ ∘ Eq.symm⟩, sends_stay_iff]
  unfold PositionsKept
  simp only [hissued, forall_and, forall_const]
  simp only [requests_eq (wrapPhases_of_position q c), hcase, HostCall.request, hfn, Request.only,
    Ctx.request, List.map_cons, List.map_nil, List.cons.injEq, Request.mk.injEq, and_true, true_and,
    forall_const]

/-! ## Call by call -/

theorem lseek_kept_iff :
    PositionsKept c K .lseek ↔ c.indet.setWidth 32 = c.a3.setWidth 32 := by
  rw [positionsKept_iff_views rfl rfl, and_iff_right ⟨trivial, trivial⟩]
  simp [PositionCall.sysno, PositionCall.places, kernelView, params, sysParams, Ctx.args, argView,
    Operand.eval, sent, wrapSends]
  exact setWidth_inj

theorem truncate_kept_iff : PositionsKept c K .truncate ↔
    (c.a1 ≠ 0 ∧ cstrLen K.pathMax (c.mem.at c.a1) ≤ 9) ∧ FitsMode c.a2 := by
  rw [positionsKept_iff_views rfl rfl, and_iff_right ⟨trivial, trivial⟩]
  simp [PositionCall.sysno, PositionCall.places, kernelView, params, sysParams, Ctx.args, argView,
    Operand.eval, sent, wrapSends, forall_and, forall_string_iff]
  exact fun _ _ => fitsMode_iff

theorem ftruncate_kept_iff : PositionsKept c K .ftruncate ↔ FitsMode c.a2 := by
  rw [positionsKept_iff_views rfl rfl, and_iff_right ⟨trivial, trivial⟩]
  simp [PositionCall.sysno, PositionCall.places, kernelView, params, sysParams, Ctx.args, argView,
    Operand.eval, sent, wrapSends]
  exact fitsMode_iff

/-- Eight bytes all the way, when the stores stay. -/
theorem positions_kept_iff (hq : q = .pread64 ∨ q = .pwrite64 ∨ q = .fallocate) :
    PositionsKept c K q ↔ StoresFit c q.sysno := by
  rcases hq with rfl | rfl | rfl
  all_goals
    rw [positionsKept_iff_views rfl rfl]
    refine and_iff_left fun u => ?_
    simp [PositionCall.sysno, PositionCall.places, kernelView, params, sysParams, Ctx.args, argView,
      Operand.eval, sent, wrapSends]

/-- **File positions and sizes.** For every descriptor, path, offset and `whence`, and
every slot content. -/
theorem positions_iff (c : Ctx) (K : Kernel) (q : PositionCall) :
    PositionsKept c K q ↔ positionsWhen c K q := by
  cases q with
  | lseek => exact lseek_kept_iff
  | truncate => exact truncate_kept_iff
  | ftruncate => exact ftruncate_kept_iff
  | pread64 => exact (positions_kept_iff (.inl rfl)).trans (and_true _).to_iff
  | pwrite64 => exact (positions_kept_iff (.inr (.inl rfl))).trans (and_true _).to_iff
  | fallocate => exact (positions_kept_iff (.inr (.inr rfl))).trans (and_true _).to_iff

/-- `lseek(3, 0, SEEK_END)` with another value in the register, `truncate` with a path of
nine characters, and `ftruncate` to 4 GiB, which empties the file. -/
theorem positions_not_kept :
    ¬ PositionsKept (Ctx.plain 3 0 2 0 0 0 fun _ => 0) linux .lseek ∧
      ¬ PositionsKept (Ctx.plain 4096 5 0 0 0 0 fun p => if p = 4105 then 0 else 97) linux
        .truncate ∧
      ¬ PositionsKept (Ctx.plain 3 0x100000000 0 0 0 0 fun _ => 0) linux .ftruncate := by
  refine ⟨fun h => ?_, fun h => ?_, fun h => ?_⟩
  · have hkept : (0#64).setWidth 32 = (2#64).setWidth 32 := lseek_kept_iff.mp h
    exact absurd hkept (by decide)
  · have hread := (truncate_kept_iff.mp h).1.2
    have hlong : 9 < cstrLen 4096 fun i =>
        if 4096#64 + BitVec.ofNat 64 i = 4105 then 0 else 97 :=
      lt_cstrLen (by decide) (by decide)
    exact absurd hread (Nat.not_le.mpr hlong)
  · have hlength : (0x100000000#64).toNat < 2 ^ 32 := ftruncate_kept_iff.mp h
    exact absurd hlength (by decide)

end Porpoise.Shim
