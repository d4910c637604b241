import Xv6.Library.Copy

/-!
# `memmove` in the kernel and in the user library

The kernel's `memmove` (`string.c`) copies down, highest byte first, when the
source starts below the destination and runs into it, and up otherwise; its
`memcpy` is the same function.  The user library's `memmove` (`ulib.c`)
always copies up, counting down an `int`.  So the kernel's moves every pair
of regions, and the user library's moves exactly those where the source does
not start below the destination and run into it; on the others it repeats
the first `dst - src` bytes through the destination.

Memory is bytes by address.  The regions are those of C objects, which do not
wrap around the address space, so addresses are naturals.  Both functions
return `dst`, which is left out.
-/

namespace Xv6

open Copy

namespace Clib

/-- `memmove(dst, src, n)` of `string.c`. -/
def memmove (m : Nat → UInt8) (dst src n : Nat) : Nat → UInt8 :=
  if src < dst ∧ src + n > dst then copyDown m (dst + n) (src + n) n
  else copyUp m dst src n

/-- `memcpy`, which `string.c` defines as `memmove`. -/
def memcpy (m : Nat → UInt8) (dst src n : Nat) : Nat → UInt8 :=
  memmove m dst src n

theorem memmove_eq_moved (m : Nat → UInt8) (dst src n : Nat) : memmove m dst src n = moved m dst src n := by
  unfold memmove
  split
  · exact copyDown_eq_moved (by omega)
  · exact copyUp_eq_moved (by omega)

end Clib

namespace Ulib

/-- `memmove(vdst, vsrc, n)` of `ulib.c`: `while(n-- > 0) *dst++ = *src++`. -/
def memmove (m : Nat → UInt8) (vdst vsrc : Nat) (n : Int) : Nat → UInt8 :=
  copyUp m vdst vsrc n.toNat

theorem memmove_eq_moved_iff (vdst vsrc : Nat) (n : Int) :
    (∀ m, memmove m vdst vsrc n = moved m vdst vsrc n.toNat) ↔ ¬(vsrc < vdst ∧ vdst < vsrc + n.toNat) := by
  constructor
  · rintro hall ⟨hlt, hrun⟩
    -- a memory whose first source byte differs from the byte at `vdst`
    let m : Nat → UInt8 := fun a => if a = vsrc then 1 else 0
    have hat := congrFun (hall m) (vdst + (vdst - vsrc))
    have hup : memmove m vdst vsrc n (vdst + (vdst - vsrc)) = 1 := by
      rw [memmove, copyUp_apply_overlap hlt (by omega) (by omega)]
      simp [m]
    have hmv : moved m vdst vsrc n.toNat (vdst + (vdst - vsrc)) = 0 := by
      simp only [moved, m]
      rw [if_pos (by omega), if_neg (by omega)]
    rw [hup, hmv] at hat
    exact absurd hat (by decide)
  · intro h m
    exact copyUp_eq_moved (by omega)

theorem memmove_smears_upward_overlap :
    (List.range 3).map (Clib.memmove (fun a => [0x61, 0x62, 0x63].getD a 0) 1 0 2) = [0x61, 0x61, 0x62] ∧
    (List.range 3).map (memmove (fun a => [0x61, 0x62, 0x63].getD a 0) 1 0 2) = [0x61, 0x61, 0x61] := by
  constructor <;> decide

end Ulib

end Xv6
