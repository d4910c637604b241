import Mathlib.Data.Nat.Bitwise

/-!
# Byte memory with 32-bit addresses

A memory of bytes addressed by 32-bit words, with the word loads and stores of a
little-endian machine, the filling of a range and the writing of a list of
bytes.  Addresses wrap around `2 ^ 32`.

Alongside it, what masks and shifts of a 32-bit word are as arithmetic on its
value: a goal about addresses built with `&&&`, `|||` and `>>>` becomes, after
these rewrites, a goal of linear arithmetic with division and remainder by
constants, which `omega` closes.
-/

namespace ByteMem

/-!
## Masks and shifts as arithmetic
-/

section Word

variable {k : Nat}

private theorem testBit_high_mask (hk : k ≤ 32) (i : Nat) :
    (2 ^ 32 - 1 - (2 ^ k - 1)).testBit i = (decide (k ≤ i) && decide (i < 32)) := by
  have hm : 2 ^ 32 - 1 - (2 ^ k - 1) = (2 ^ (32 - k) - 1) * 2 ^ k := by
    have hsplit : 2 ^ 32 = 2 ^ (32 - k) * 2 ^ k := by
      rw [← Nat.pow_add, Nat.sub_add_cancel hk]
    have hpos : 1 ≤ 2 ^ k := Nat.one_le_two_pow
    rw [Nat.sub_one_mul, ← hsplit]
    omega
  rw [hm, Nat.testBit_mul_two_pow, Nat.testBit_two_pow_sub_one]
  by_cases hi : k ≤ i
  · simp only [hi, decide_true, Bool.true_and]
    exact decide_eq_decide.mpr (by omega)
  · simp only [hi, decide_false, Bool.false_and]

theorem toNat_and_not_low (a m : UInt32) (hm : m.toNat = 2 ^ k - 1) (hk : k ≤ 32) :
    (a &&& ~~~m).toNat = a.toNat / 2 ^ k * 2 ^ k := by
  rw [UInt32.toNat_and, UInt32.toNat_not, hm, show UInt32.size = 2 ^ 32 from rfl]
  apply Nat.eq_of_testBit_eq
  intro i
  rw [Nat.testBit_and, testBit_high_mask hk, Nat.testBit_mul_two_pow, Nat.testBit_div_two_pow]
  by_cases hi : k ≤ i
  · by_cases h32 : i < 32
    · simp only [hi, h32, decide_true, Bool.and_true, Bool.true_and, Nat.sub_add_cancel hi]
    · have hbit : a.toNat.testBit i = false :=
        Nat.testBit_lt_two_pow (lt_of_lt_of_le a.toNat_lt (Nat.pow_le_pow_right (by decide) (by omega)))
      simp only [hbit, Bool.false_and, hi, decide_true, Bool.true_and, Nat.sub_add_cancel hi]
  · simp only [hi, decide_false, Bool.false_and, Bool.and_false]

theorem toNat_and_low (a m : UInt32) (hm : m.toNat = 2 ^ k - 1) :
    (a &&& m).toNat = a.toNat % 2 ^ k := by
  rw [UInt32.toNat_and, hm, Nat.and_two_pow_sub_one_eq_mod]

theorem toNat_shiftRight (a s : UInt32) (hs : s.toNat < 32) :
    (a >>> s).toNat = a.toNat / 2 ^ s.toNat := by
  rw [UInt32.toNat_shiftRight, Nat.mod_eq_of_lt hs, Nat.shiftRight_eq_div_pow]

theorem toNat_or_of_low (a b : UInt32) (ha : a.toNat % 2 ^ k = 0) (hb : b.toNat < 2 ^ k) :
    (a ||| b).toNat = a.toNat + b.toNat := by
  have hdiv : a.toNat = 2 ^ k * (a.toNat / 2 ^ k) := by
    have := Nat.div_add_mod a.toNat (2 ^ k)
    omega
  rw [UInt32.toNat_or, hdiv, ← Nat.two_pow_add_eq_or_of_lt hb, ← hdiv]

theorem and_not_or_of_lt (a b m : UInt32) (hm : m.toNat = 2 ^ k - 1) (hk : k ≤ 32)
    (hb : b.toNat < 2 ^ k) : (a ||| b) &&& ~~~m = a &&& ~~~m := by
  apply UInt32.toNat_inj.mp
  rw [toNat_and_not_low _ _ hm hk, toNat_and_not_low _ _ hm hk, UInt32.toNat_or]
  have hdiv : (a.toNat ||| b.toNat) / 2 ^ k = a.toNat / 2 ^ k := by
    rw [← Nat.shiftRight_eq_div_pow, ← Nat.shiftRight_eq_div_pow, Nat.shiftRight_or_distrib,
      Nat.shiftRight_eq_zero _ _ hb, Nat.or_zero]
  rw [hdiv]

theorem bytes_toUInt32 (v : UInt32) :
    v.toUInt8.toUInt32 ||| (v >>> 8).toUInt8.toUInt32 <<< 8 ||| (v >>> 16).toUInt8.toUInt32 <<< 16 |||
      (v >>> 24).toUInt8.toUInt32 <<< 24 = v := by
  have hv := v.toNat_lt
  -- each byte moved back to its place, as a number
  have byte : ∀ s : UInt32, s.toNat < 32 →
      ((v >>> s).toUInt8.toUInt32 <<< s).toNat = v.toNat / 2 ^ s.toNat % 256 * 2 ^ s.toNat % 2 ^ 32 := by
    intro s hs
    rw [UInt32.toNat_shiftLeft, Nat.mod_eq_of_lt hs, Nat.shiftLeft_eq, UInt8.toNat_toUInt32,
      UInt32.toNat_toUInt8, toNat_shiftRight _ _ hs]
  have h0 : v.toUInt8.toUInt32.toNat = v.toNat % 256 := by
    rw [UInt8.toNat_toUInt32, UInt32.toNat_toUInt8]
  have h1 := byte 8 (by decide)
  have h2 := byte 16 (by decide)
  have h3 := byte 24 (by decide)
  simp only [UInt32.reduceToNat] at h1 h2 h3
  -- the bytes occupy disjoint bits, so or-ing them adds them
  have i1 : (v.toUInt8.toUInt32 ||| (v >>> 8).toUInt8.toUInt32 <<< 8).toNat =
      v.toNat % 256 + v.toNat / 256 % 256 * 256 := by
    rw [UInt32.or_comm, toNat_or_of_low _ _ (k := 8) (by omega) (by omega), h0, h1]
    omega
  have i2 : (v.toUInt8.toUInt32 ||| (v >>> 8).toUInt8.toUInt32 <<< 8 |||
      (v >>> 16).toUInt8.toUInt32 <<< 16).toNat =
      v.toNat % 256 + v.toNat / 256 % 256 * 256 + v.toNat / 65536 % 256 * 65536 := by
    rw [UInt32.or_comm, toNat_or_of_low _ _ (k := 16) (by omega) (by omega), i1, h2]
    omega
  apply UInt32.toNat_inj.mp
  rw [UInt32.or_comm, toNat_or_of_low _ _ (k := 24) (by omega) (by omega), i2, h3]
  omega

end Word

/-!
## Memory
-/

/-- A memory of bytes at 32-bit addresses. -/
abbrev Mem := UInt32 → UInt8

/-- The little-endian word at `a`. -/
def load32 (m : Mem) (a : UInt32) : UInt32 :=
  (m a).toUInt32 ||| (m (a + 1)).toUInt32 <<< 8 ||| (m (a + 2)).toUInt32 <<< 16 |||
    (m (a + 3)).toUInt32 <<< 24

def store8 (m : Mem) (a : UInt32) (b : UInt8) : Mem :=
  Function.update m a b

/-- The word `v` stored at `a`, low byte first. -/
def store32 (m : Mem) (a v : UInt32) : Mem :=
  store8 (store8 (store8 (store8 m a v.toUInt8) (a + 1) (v >>> 8).toUInt8) (a + 2)
    (v >>> 16).toUInt8) (a + 3) (v >>> 24).toUInt8

/-- The `n` bytes from `a` on set to `c`. -/
def fill (m : Mem) (a n : UInt32) (c : UInt8) : Mem :=
  fun x => if x - a < n then c else m x

/-- The bytes `bs` written from `a` on. -/
def writeBytes (m : Mem) (a : UInt32) : List UInt8 → Mem
  | [] => m
  | b :: bs => writeBytes (store8 m a b) (a + 1) bs

section Lemmas

variable {m m' : Mem} {a x : UInt32}

theorem store8_apply_of_ne {b : UInt8} (h : x ≠ a) : store8 m a b x = m x :=
  Function.update_of_ne h _ _

theorem store32_apply_of_ne {v : UInt32} (h₀ : x ≠ a) (h₁ : x ≠ a + 1) (h₂ : x ≠ a + 2)
    (h₃ : x ≠ a + 3) : store32 m a v x = m x := by
  unfold store32
  rw [store8_apply_of_ne h₃, store8_apply_of_ne h₂, store8_apply_of_ne h₁, store8_apply_of_ne h₀]

theorem fill_apply_of_not_lt {n : UInt32} {c : UInt8} (h : ¬ x - a < n) : fill m a n c x = m x :=
  if_neg h

theorem fill_apply_of_lt {n : UInt32} {c : UInt8} (h : x - a < n) : fill m a n c x = c :=
  if_pos h

theorem load32_store32_self (m : Mem) (a v : UInt32) : load32 (store32 m a v) a = v := by
  have hne : ∀ i j : UInt32, i ≠ j → a + i ≠ a + j :=
    fun i j h e => h ((UInt32.add_right_inj a).mp e)
  have h0 : ∀ j : UInt32, j ≠ 0 → a ≠ a + j := fun j h => by simpa using hne 0 j (Ne.symm h)
  unfold load32 store32 store8
  simp only [Function.update_self, Function.update_of_ne (h0 1 (by decide)),
    Function.update_of_ne (h0 2 (by decide)), Function.update_of_ne (h0 3 (by decide)),
    Function.update_of_ne (hne 1 2 (by decide)), Function.update_of_ne (hne 1 3 (by decide)),
    Function.update_of_ne (hne 2 3 (by decide))]
  exact bytes_toUInt32 v

theorem load32_congr {b : UInt32}
    (h : m b = m' b ∧ m (b + 1) = m' (b + 1) ∧ m (b + 2) = m' (b + 2) ∧ m (b + 3) = m' (b + 3)) :
    load32 m b = load32 m' b := by
  obtain ⟨h₀, h₁, h₂, h₃⟩ := h
  unfold load32
  rw [h₀, h₁, h₂, h₃]

theorem load32_eq_zero {b : UInt32}
    (h : m b = 0 ∧ m (b + 1) = 0 ∧ m (b + 2) = 0 ∧ m (b + 3) = 0) : load32 m b = 0 := by
  obtain ⟨h₀, h₁, h₂, h₃⟩ := h
  unfold load32
  rw [h₀, h₁, h₂, h₃]
  rfl

theorem add_ne_add_of_aligned {a b : UInt32} (ha : a.toNat % 4 = 0) (hb : b.toNat % 4 = 0)
    (hne : a ≠ b) {i j : UInt32} (hi : i.toNat < 4) (hj : j.toNat < 4) : b + j ≠ a + i := by
  intro h
  have hn : (b.toNat + j.toNat) % 2 ^ 32 = (a.toNat + i.toNat) % 2 ^ 32 := by
    rw [← UInt32.toNat_add, ← UInt32.toNat_add, h]
  have := a.toNat_lt
  have := b.toNat_lt
  exact hne (UInt32.toNat_inj.mp (by omega))

theorem load32_store32_of_ne {b v : UInt32} (ha : a.toNat % 4 = 0) (hb : b.toNat % 4 = 0)
    (hne : a ≠ b) : load32 (store32 m a v) b = load32 m b := by
  have key : ∀ j : UInt32, j.toNat < 4 → store32 m a v (b + j) = m (b + j) := by
    intro j hj
    have hne' : ∀ i : UInt32, i.toNat < 4 → b + j ≠ a + i :=
      fun i hi => add_ne_add_of_aligned ha hb hne hi hj
    refine store32_apply_of_ne ?_ (hne' 1 (by decide)) (hne' 2 (by decide)) (hne' 3 (by decide))
    simpa using hne' 0 (by decide)
  apply load32_congr
  refine ⟨?_, key 1 (by decide), key 2 (by decide), key 3 (by decide)⟩
  simpa using key 0 (by decide)

theorem load32_fill_of_le {b n : UInt32} {c : UInt8} (hn : n.toNat ≤ (b - a).toNat)
    (hwrap : (b - a).toNat + 4 ≤ 2 ^ 32) : load32 (fill m a n c) b = load32 m b := by
  have key : ∀ j : UInt32, j.toNat < 4 → fill m a n c (b + j) = m (b + j) := by
    intro j hj
    apply fill_apply_of_not_lt
    rw [UInt32.lt_iff_toNat_lt, not_lt]
    have hsub : (b + j - a).toNat = (b - a).toNat + j.toNat := by
      rw [UInt32.toNat_sub, UInt32.toNat_add]
      rw [UInt32.toNat_sub] at hwrap hn ⊢
      have := a.toNat_lt
      have := b.toNat_lt
      omega
    omega
  apply load32_congr
  refine ⟨?_, key 1 (by decide), key 2 (by decide), key 3 (by decide)⟩
  simpa using key 0 (by decide)

end Lemmas

end ByteMem
