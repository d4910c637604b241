import Mathlib.Data.ZMod.Basic

/-!
# Two's-complement `int` arithmetic

C's `int` is 32 bits wide on the i386 ABI.  Its arithmetic is modelled on
mathematical integers: each result is brought back into `[-2^31, 2^31)`,
as the processor's `add`, `sub` and `imul` leave it, and `/` truncates
toward zero and faults where `idiv` faults.

The lemmas are those a proof about a running counter needs: wrapping is the
identity on representable values, it only depends on the residue modulo
`2^32`, and an addition undone by the matching subtraction gives back the
representable value it started from.
-/

namespace CInt

/-- The values a 32-bit `int` can hold. -/
def Representable (x : Int) : Prop :=
  -2 ^ 31 ≤ x ∧ x < 2 ^ 31

instance (x : Int) : Decidable (Representable x) :=
  inferInstanceAs (Decidable (_ ∧ _))

/-- The value a 32-bit `int` holds once the mathematical `x` is stored in it. -/
def wrap (x : Int) : Int :=
  (x + 2 ^ 31) % 2 ^ 32 - 2 ^ 31

/-- `a + b` on `int`. -/
def add (a b : Int) : Int :=
  wrap (a + b)

/-- `a - b` on `int`. -/
def sub (a b : Int) : Int :=
  wrap (a - b)

/-- `a * b` on `int`. -/
def mul (a b : Int) : Int :=
  wrap (a * b)

/--
`a / b` on `int`: truncating division.  `idiv` faults on a zero divisor and on
`-2^31 / -1`, whose quotient does not fit; a fault is `none`.
-/
def div (a b : Int) : Option Int :=
  if b = 0 ∨ (a = -2 ^ 31 ∧ b = -1) then none else some (a.tdiv b)

/-- Conversion of an unsigned value to `int`. -/
def ofUInt (x : Nat) : Int :=
  wrap x

theorem representable_wrap (x : Int) : Representable (wrap x) := by
  unfold Representable wrap
  omega

theorem wrap_of_representable {x : Int} (h : Representable x) : wrap x = x := by
  unfold Representable at h
  unfold wrap
  omega

theorem ofUInt_of_lt {x : Nat} (h : x < 2 ^ 31) : ofUInt x = x :=
  wrap_of_representable ⟨by omega, by omega⟩

@[simp] theorem wrap_wrap (x : Int) : wrap (wrap x) = wrap x :=
  wrap_of_representable (representable_wrap x)

theorem wrap_add_wrap (a b : Int) : wrap (wrap a + b) = wrap (a + b) := by
  unfold wrap
  omega

theorem representable_zero : Representable 0 := by
  decide

theorem sub_add_cancel {a : Int} (h : Representable a) (b : Int) :
    sub (add a b) b = a := by
  unfold Representable at h
  unfold sub add wrap
  omega

theorem wrap_eq_wrap_iff (a b : Int) :
    wrap a = wrap b ↔ (a : ZMod (2 ^ 32)) = b := by
  rw [ZMod.intCast_eq_intCast_iff']
  simp only [Nat.cast_pow, Nat.cast_ofNat]
  unfold wrap
  constructor
  · intro h
    omega
  · intro h
    omega

@[simp] theorem cast_wrap (x : Int) : ((wrap x : Int) : ZMod (2 ^ 32)) = x := by
  rw [← wrap_eq_wrap_iff, wrap_wrap]

theorem eq_wrap_of_cast_eq {x y : Int} (hx : Representable x)
    (h : (x : ZMod (2 ^ 32)) = y) : x = wrap y := by
  rw [← wrap_of_representable hx]
  exact (wrap_eq_wrap_iff x y).mpr h

end CInt
