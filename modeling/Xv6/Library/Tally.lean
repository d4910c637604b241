import Mathlib.Algebra.BigOperators.Group.Finset.Piecewise
import Mathlib.Algebra.Order.BigOperators.Group.Finset
import Mathlib.Algebra.BigOperators.Ring.Finset
import Mathlib.Data.Fintype.BigOperators

/-!
# Tallies over threads

A system of finitely many threads, each in a phase of its own, is often
reasoned about through a total: how many threads are in some phase, or how
much of a shared resource the threads still claim.  A tally sums a weight of
each thread's phase.  A step that moves one thread changes the tally by the
difference of that thread's two weights, and a pointwise bound between weights
bounds the tallies.
-/

namespace Tally

open Finset

variable {ι β M : Type} [Fintype ι]

/-- The total over all threads of the weight `w` of each thread's phase. -/
def tally [AddCommMonoid M] (w : β → M) (phase : ι → β) : M :=
  ∑ t, w (phase t)

section Update

variable [DecidableEq ι] [AddCommMonoid M]

theorem tally_update (w : β → M) (phase : ι → β) (t : ι) (b : β) :
    tally w (Function.update phase t b) + w (phase t) = tally w phase + w b := by
  have hcomp : (fun x => w (Function.update phase t b x)) =
      Function.update (fun x => w (phase x)) t (w b) := Function.comp_update w phase t b
  unfold tally
  rw [hcomp, sum_update_of_mem (mem_univ t), Fintype.sum_eq_sum_compl_add t,
    compl_eq_univ_sdiff]
  rw [add_comm (w b), add_right_comm]

theorem tally_update_of_eq [IsRightCancelAdd M] (w : β → M) (phase : ι → β) (t : ι) {b : β}
    (hw : w b = w (phase t)) : tally w (Function.update phase t b) = tally w phase := by
  have h := tally_update w phase t b
  rw [hw] at h
  exact add_right_cancel h

end Update

theorem tally_eq_zero [AddCommMonoid M] {w : β → M} {phase : ι → β}
    (h : ∀ t, w (phase t) = 0) : tally w phase = 0 :=
  sum_eq_zero (fun t _ => h t)

theorem tally_le_tally {w : β → Nat} {phase phase' : ι → β}
    (h : ∀ t, w (phase' t) ≤ w (phase t)) : tally w phase' ≤ tally w phase :=
  sum_le_sum (fun t _ => h t)

theorem le_tally (w : β → Nat) (phase : ι → β) (t : ι) : w (phase t) ≤ tally w phase :=
  single_le_sum (f := fun x => w (phase x)) (fun _ _ => Nat.zero_le _) (mem_univ t)

theorem tally_le_mul {w v : β → Nat} (c : Nat) (h : ∀ b, w b ≤ c * v b) (phase : ι → β) :
    tally w phase ≤ c * tally v phase := by
  unfold tally
  rw [mul_sum]
  exact sum_le_sum (fun t _ => h (phase t))

end Tally
