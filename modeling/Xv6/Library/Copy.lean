import Mathlib.Logic.Function.Basic

/-!
# Copying between regions of a memory

A memory is a function from addresses to cells.  `copyUp` copies `n` cells from
`s` to `d` lowest address first, and `copyDown` highest first from the ends
`d` and `s`; each reads the memory as its earlier writes left it.  `moved m dst
src n` is what a move is for: the `n` cells at `src` as they were, now at
`dst`, and every other cell as it was.

Copying up is a move when `dst ≤ src` or the regions do not meet, and copying
down when `src ≤ dst`.  When `src < dst < src + n`, copying up reads cells it
has already written: the first `dst - src` cells are repeated through the
destination (`copyUp_apply_overlap`).
-/

namespace Xv6

namespace Copy

open Function

variable {α : Type*}

/-- The memory after a move of `n` cells from `src` to `dst`. -/
def moved (m : Nat → α) (dst src n : Nat) : Nat → α :=
  fun a => if dst ≤ a ∧ a < dst + n then m (src + (a - dst)) else m a

/-- `n` cells copied from `s` to `d`, lowest first. -/
def copyUp : (Nat → α) → Nat → Nat → Nat → Nat → α
  | m, _, _, 0 => m
  | m, d, s, n + 1 => copyUp (update m d (m s)) (d + 1) (s + 1) n

/-- `n` cells copied to the `n` cells below `d` from the `n` below `s`,
highest first. -/
def copyDown : (Nat → α) → Nat → Nat → Nat → Nat → α
  | m, _, _, 0 => m
  | m, d, s, n + 1 => copyDown (update m (d - 1) (m (s - 1))) (d - 1) (s - 1) n

variable {m : Nat → α} {d s n a : Nat}

@[simp] theorem moved_zero (m : Nat → α) (dst src : Nat) : moved m dst src 0 = m := by
  funext a
  simp only [moved, Nat.add_zero]
  rw [if_neg (by omega)]

@[simp] theorem copyUp_zero (m : Nat → α) (d s : Nat) : copyUp m d s 0 = m := rfl

theorem copyUp_succ (m : Nat → α) (d s n : Nat) :
    copyUp m d s (n + 1) = copyUp (update m d (m s)) (d + 1) (s + 1) n := rfl

@[simp] theorem copyDown_zero (m : Nat → α) (d s : Nat) : copyDown m d s 0 = m := rfl

theorem copyDown_succ (m : Nat → α) (d s n : Nat) :
    copyDown m (d + 1) (s + 1) (n + 1) = copyDown (update m d (m s)) d s n := rfl

/-!
## Copying up
-/

theorem copyUp_succ' (m : Nat → α) (d s n : Nat) :
    copyUp m d s (n + 1) = update (copyUp m d s n) (d + n) (copyUp m d s n (s + n)) := by
  induction n generalizing m d s with
  | zero => rfl
  | succ n ih =>
      rw [copyUp_succ, ih, copyUp_succ]
      simp only [Nat.add_right_comm _ 1 n, Nat.add_assoc]

theorem copyUp_apply_of_not_mem (h : ¬(d ≤ a ∧ a < d + n)) : copyUp m d s n a = m a := by
  induction n with
  | zero => rfl
  | succ n ih =>
      rw [copyUp_succ', update_of_ne (by omega), ih (by omega)]

theorem moved_update_up (h : d ≤ s ∨ s + (n + 1) ≤ d) :
    moved (update m d (m s)) (d + 1) (s + 1) n = moved m d s (n + 1) := by
  funext a
  unfold moved
  by_cases hd : a = d
  · subst hd
    rw [if_neg (by omega), if_pos (by omega), update_self, Nat.sub_self, Nat.add_zero]
  · by_cases hin : d + 1 ≤ a ∧ a < d + 1 + n
    · have hsrc : s + 1 + (a - (d + 1)) ≠ d := by omega
      rw [if_pos hin, if_pos (by omega), update_of_ne hsrc]
      congr 1
      omega
    · rw [if_neg hin, if_neg (by omega), update_of_ne hd]

theorem copyUp_eq_moved (h : d ≤ s ∨ s + n ≤ d) : copyUp m d s n = moved m d s n := by
  induction n generalizing m d s with
  | zero => simp
  | succ n ih =>
      rw [copyUp_succ, ih (by omega), moved_update_up h]

theorem copyUp_apply_overlap (hsd : s < d) (ha : d ≤ a) (han : a < d + n) :
    copyUp m d s n a = m (s + (a - d) % (d - s)) := by
  induction n generalizing a with
  | zero => omega
  | succ n ih =>
      rw [copyUp_succ']
      by_cases hlast : a = d + n
      · subst hlast
        rw [update_self]
        by_cases hwritten : d ≤ s + n
        · -- the cell read was written `d - s` turns before
          rw [ih hwritten (by omega)]
          congr 2
          have hk : d + n - d = s + n - d + (d - s) := by omega
          rw [hk, Nat.add_mod_right]
        · rw [copyUp_apply_of_not_mem (by omega), Nat.mod_eq_of_lt (by omega)]
          congr 1
          omega
      · rw [update_of_ne hlast, ih ha (by omega)]

/-!
## Copying down
-/

theorem moved_update_down (h : s ≤ d) :
    moved (update m (d + n) (m (s + n))) d s n = moved m d s (n + 1) := by
  funext a
  unfold moved
  by_cases hlast : a = d + n
  · subst hlast
    rw [if_neg (by omega), if_pos (by omega), update_self]
    congr 1
    omega
  · by_cases hin : d ≤ a ∧ a < d + n
    · rw [if_pos hin, if_pos (by omega), update_of_ne (by omega)]
    · rw [if_neg hin, if_neg (by omega), update_of_ne hlast]

theorem copyDown_eq_moved (h : s ≤ d) : copyDown m (d + n) (s + n) n = moved m d s n := by
  induction n generalizing m with
  | zero => simp
  | succ n ih =>
      rw [show d + (n + 1) = d + n + 1 by omega, show s + (n + 1) = s + n + 1 by omega, copyDown_succ, ih,
        moved_update_down h]

end Copy

end Xv6
