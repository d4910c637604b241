import Mathlib

/-!
# Owners of blocks

An allocator hands blocks out to keys, each of which holds at most one:
`R x` is the block key `x` holds, `0` for none.  The table is sound when
every block held lies in the region `D` the allocator hands out from, is
marked in use in `U`, and is held by one key only.

Marking a block, attaching a fresh block of `D` that is marked to a key that
holds none, letting a key go, and unmarking a block that nobody holds keep
a table sound; an allocator that only does these keeps its blocks apart.
-/

namespace Xv6

namespace Owners

open Function

variable {κ : Type*} {D U U' : Set ℕ} {R : κ → ℕ} {x y : κ} {b : ℕ}

/-- A sound table of owners. -/
structure Sound (D U : Set ℕ) (R : κ → ℕ) : Prop where
  inside : ∀ x, R x ≠ 0 → R x ∈ D
  marked : ∀ x, R x ≠ 0 → R x ∈ U
  inj : Set.InjOn R (support R)

/-- A block no key holds. -/
def Fresh (R : κ → ℕ) (b : ℕ) : Prop :=
  ∀ x, R x ≠ b

theorem Sound.eq_of_eq (h : Sound D U R) (hx : R x ≠ 0) (hxy : R x = R y) : x = y :=
  h.inj (mem_support.mpr hx) (mem_support.mpr (hxy ▸ hx)) hxy

theorem Sound.mark (h : Sound D U R) (hU : ∀ b ∈ D, b ∈ U → b ∈ U') : Sound D U' R :=
  ⟨h.inside, fun x hx => hU _ (h.inside x hx) (h.marked x hx), h.inj⟩

theorem Sound.unmarkAll {F : Set ℕ} (h : Sound D U R) (hF : ∀ b ∈ F, Fresh R b) : Sound D (U \ F) R :=
  ⟨h.inside, fun y hy => ⟨h.marked y hy, fun hb => hF _ hb y rfl⟩, h.inj⟩

theorem Sound.sub {R' : κ → ℕ} (h : Sound D U R) (hR : ∀ x, R' x = 0 ∨ R' x = R x) : Sound D U R' := by
  have hheld : ∀ x, R' x ≠ 0 → R' x = R x := fun x hx => (hR x).resolve_left hx
  refine ⟨fun x hx => ?_, fun x hx => ?_, fun x hx y hy hxy => ?_⟩
  · have he := hheld x hx
    rw [he] at hx ⊢
    exact h.inside x hx
  · have he := hheld x hx
    rw [he] at hx ⊢
    exact h.marked x hx
  · have hx' : R x ≠ 0 := hheld x hx ▸ mem_support.mp hx
    have hy' : R y ≠ 0 := hheld y hy ▸ mem_support.mp hy
    rw [hheld x (mem_support.mp hx), hheld y (mem_support.mp hy)] at hxy
    exact h.inj (mem_support.mpr hx') (mem_support.mpr hy') hxy

variable [DecidableEq κ]

theorem update_held (hy : update R x b y ≠ 0) : y = x ∧ update R x b y = b ∨ y ≠ x ∧ update R x b y = R y := by
  by_cases hyx : y = x
  · subst hyx
    exact .inl ⟨rfl, update_self _ _ _⟩
  · exact .inr ⟨hyx, update_of_ne hyx _ _⟩

theorem Sound.attach (h : Sound D U R) (hx : R x = 0) (hb : b ≠ 0) (hD : b ∈ D) (hU : b ∈ U)
    (hfresh : Fresh R b) : Sound D U (update R x b) := by
  have hnot : x ∉ support R := by simpa using hx
  refine ⟨fun y hy => ?_, fun y hy => ?_, ?_⟩
  · rcases update_held hy with ⟨-, he⟩ | ⟨-, he⟩
    · rw [he]
      exact hD
    · rw [he] at hy ⊢
      exact h.inside y hy
  · rcases update_held hy with ⟨-, he⟩ | ⟨-, he⟩
    · rw [he]
      exact hU
    · rw [he] at hy ⊢
      exact h.marked y hy
  · rw [support_update_of_ne_zero _ _ hb, Set.injOn_insert hnot]
    have hne : ∀ y ∈ support R, y ≠ x := fun y hy hyx => hnot (hyx ▸ hy)
    constructor
    · exact h.inj.congr fun y hy => (update_of_ne (hne y hy) _ _).symm
    · rintro ⟨y, hy, hyb⟩
      rw [update_self, update_of_ne (hne y hy)] at hyb
      exact hfresh y hyb

end Owners

end Xv6
