import Porpoise.Shim.OneCall
import Porpoise.Shim.Pselect

/-!
# Requeueing through the wrapped `futex`

`FUTEX_REQUEUE`, `FUTEX_CMP_REQUEUE` and `FUTEX_WAKE_OP` work on two words. The
case of `futex` looks up the mirror of the first word only. It copies the second
word to `arg8`, and puts the address of `arg8` in `arg5`; the host passes `arg5`
itself for the second address, and what it holds for the last value.

* `TwoAddressMet`: the kernel gets both mirrors and the caller's values.
* `requeue`: what the kernel does to its queues of waiters, by address.
* `two_address_never`: the second address is a buffer of the slot, so that no
  waiter gets to the queue that a wake of the second word looks at.
-/

namespace Porpoise.Shim

open Porpoise.Lib

variable {c : Ctx} {u : UMem}

/-! ## The operations -/

/-- The operation without the `PRIVATE` and `CLOCK_REALTIME` flags. -/
def futexCmd (op : Word) : BitVec 32 := op.setWidth 32 &&& ~~~(384#32)

/-- `FUTEX_REQUEUE`, `FUTEX_CMP_REQUEUE` and `FUTEX_WAKE_OP`. -/
def TwoAddress (c : Ctx) : Prop :=
  futexCmd c.a2 = 3 ∨ futexCmd c.a2 = 4 ∨ futexCmd c.a2 = 5

/-- The kernel gets the mirrors of the two words, and the operation and the
three values of the caller. It takes the second count from the place of the
timeout. -/
structure TwoAddressMet (c : Ctx) (u : UMem) : Prop where
  uaddr : hostArg c .futex u 0 = c.outAddress c.a1
  op : (hostArg c .futex u 1).setWidth 32 = c.a2.setWidth 32
  val : (hostArg c .futex u 2).setWidth 32 = c.a3.setWidth 32
  val2 : (hostArg c .futex u 3).setWidth 32 = c.a4.setWidth 32
  uaddr2 : hostArg c .futex u 4 = c.outAddress c.a5
  val3 : (hostArg c .futex u 5).setWidth 32 = c.a6.setWidth 32

/-- The call of `unlock_requeue(l, r, 0)`: one waiter of `l` is to wait on
`r`. -/
def Ctx.unlockRequeue (c : Ctx) (l r : Word) : Ctx :=
  { c with a1 := l, a2 := 3 ||| 128, a3 := 0, a4 := 1, a5 := r, a6 := 0 }

/-! ## What the kernel gets -/

section Args

variable (c u)

theorem futex_uaddr : hostArg c .futex u 0 = c.outAddress c.a1 := futex_sent_uaddr c u

theorem futex_uaddr2 : hostArg c .futex u 4 = c.addr .arg5 := rfl

/-- The second address is no mirror. -/
theorem futex_uaddr2_ne (p : Word) : hostArg c .futex u 4 ≠ c.outAddress p := by
  rw [futex_uaddr2]
  exact (c.outAddress_ne p .arg5).symm

end Args

/-! ## The kernel's queues -/

/-- The waiters by address, after `wake` of those on `src` are woken and up to
`move` of the rest wait on `dst`. -/
def requeue {Tid : Type} (q : Word → List Tid) (src dst : Word) (wake move : Nat) :
    Word → List Tid :=
  fun p => (if p = src then (q src).drop (wake + move) else q p) ++
    if p = dst then ((q src).drop wake).take move else []

/-- Nobody joins another queue than that of the second address. -/
theorem mem_of_requeue {Tid : Type} {q : Word → List Tid} {src dst p : Word} {wake move : Nat}
    {t : Tid} (hp : p ≠ dst) (ht : t ∈ requeue q src dst wake move p) : t ∈ q p := by
  rw [requeue, if_neg hp, List.append_nil] at ht
  by_cases hsrc : p = src
  · rw [if_pos hsrc] at ht
    rw [hsrc]
    exact List.mem_of_mem_drop ht
  · rwa [if_neg hsrc] at ht

/-- A waiter is in none but the queues where it was and that of the second
address. A later call on the second word looks elsewhere. -/
theorem not_mem_requeue {Tid : Type} {q : Word → List Tid} {t : Tid} (wake move : Nat)
    (c' : Ctx) (u' : UMem) (hmirrors : c'.outAddress = c.outAddress)
    (ht : t ∉ q (c.outAddress c'.a1)) :
    t ∉ requeue q (hostArg c .futex u 0) (hostArg c .futex u 4) wake move
      (hostArg c' .futex u' 0) := by
  rw [futex_uaddr c' u', hmirrors]
  exact fun hmem => ht (mem_of_requeue (futex_uaddr2_ne c u _).symm hmem)

/-- **Two addresses.** For every such call and every slot, the kernel does not
get the two mirrors and the values; and whatever the counts, no waiter gets to
the queue that a later call on the second word looks at. -/
theorem two_address_never (c : Ctx) (_hop : TwoAddress c) (u : UMem) :
    ¬ TwoAddressMet c u ∧
      ∀ (Tid : Type) (q : Word → List Tid) (t : Tid) (wake move : Nat),
        t ∉ q (c.outAddress c.a5) →
          ∀ (c' : Ctx) (u' : UMem), c'.outAddress = c.outAddress → c'.a1 = c.a5 →
            t ∉ requeue q (hostArg c .futex u 0) (hostArg c .futex u 4) wake move
              (hostArg c' .futex u' 0) := by
  refine ⟨fun h => futex_uaddr2_ne c u c.a5 h.uaddr2, ?_⟩
  intro Tid q t wake move ht c' u' hmirrors hword
  rw [← hword] at ht
  exact not_mem_requeue wake move c' u' hmirrors ht

theorem twoAddress_unlockRequeue (c : Ctx) (l r : Word) : TwoAddress (c.unlockRequeue l r) :=
  .inl (show futexCmd (3 ||| 128) = 3 by decide)

/-- A condition variable's waiter is to be moved from the word at 4096 to the
mutex at 8192. -/
theorem two_address_unlock_requeue :
    TwoAddress ((Ctx.plain 0 0 0 0 0 0 fun _ => 0).unlockRequeue 4096 8192) ∧
      ∀ u, ¬ TwoAddressMet ((Ctx.plain 0 0 0 0 0 0 fun _ => 0).unlockRequeue 4096 8192) u :=
  ⟨twoAddress_unlockRequeue _ _ _,
    fun u => (two_address_never _ (twoAddress_unlockRequeue _ _ _) u).1⟩

/-- It is moved to `arg5`, and the queue of the mutex's mirror stays empty. -/
theorem unlock_requeue_stranded :
    ¬ (∀ c : Ctx, TwoAddress c → ∀ u, TwoAddressMet c u) ∧
      ∃ (c : Ctx) (q : Word → List Nat), ∀ u,
        q (c.outAddress 4096) = [7] ∧
        requeue q (hostArg (c.unlockRequeue 4096 8192) .futex u 0)
          (hostArg (c.unlockRequeue 4096 8192) .futex u 4) 0 1 (c.addr .arg5) = [7] ∧
        requeue q (hostArg (c.unlockRequeue 4096 8192) .futex u 0)
          (hostArg (c.unlockRequeue 4096 8192) .futex u 4) 0 1 (c.outAddress 8192) = [] := by
  refine ⟨fun h => ?_, Ctx.plain 0 0 0 0 0 0 fun _ => 0, ?_⟩
  · have hmet := h _ (twoAddress_unlockRequeue (Ctx.plain 0 0 0 0 0 0 fun _ => 0) 4096 8192)
      fun _ _ => 0
    exact futex_uaddr2_ne _ _ _ hmet.uaddr2
  · refine ⟨fun p => if p = BitVec.ofNat 64 (16 * 4096 + 4) then [7] else [], fun u => ?_⟩
    rw [futex_uaddr, futex_uaddr2]
    decide

end Porpoise.Shim
