import Mathlib.Data.Nat.Bitwise
import Mathlib.Data.UInt
import Mathlib.Data.BitVec

/-!
# Byte arrays

A byte array as a function from offsets to bytes, with what C code does to
one through a pointer cast: little-endian fields of `w` bytes, signed
two-byte fields, `memmove` of a range, and a bitmap kept eight bits to a byte
and changed by `|= 1 << (i % 8)` and `&= ~(1 << (i % 8))`.

The lemmas say what a read finds after a write: the value written, where the
read covers the write, and what was there before, where the two are
disjoint.
-/

/-- Bytes at every offset; a disk block or a buffer uses the first few. -/
abbrev Bytes := Nat → UInt8

namespace Bytes

/-!
## Little-endian fields
-/

/-- The number held by the `w` bytes of `m` from `o`, least significant
first. -/
def getLE (m : Bytes) (o : Nat) : Nat → Nat
  | 0 => 0
  | w + 1 => (m o).toNat + 256 * getLE m (o + 1) w

/-- `m` with the `w` bytes from `o` holding `v`, least significant first; the
bits of `v` above `8 * w` are dropped. -/
def setLE (m : Bytes) (o v w : Nat) : Bytes := fun i =>
  if o ≤ i ∧ i < o + w then UInt8.ofNat (v / 256 ^ (i - o)) else m i

/-- `m` with the `n` four-byte words from `o` holding `f 0`, ..., `f (n - 1)`,
as a `memmove` of an array of `uint` writes them. -/
def setWords (m : Bytes) (o : Nat) (f : Nat → Nat) (n : Nat) : Bytes := fun i =>
  if o ≤ i ∧ i < o + 4 * n then UInt8.ofNat (f ((i - o) / 4) / 256 ^ ((i - o) % 4)) else m i

/-- A `short` read from two bytes. -/
def getShort (m : Bytes) (o : Nat) : Int :=
  let v := getLE m o 2
  if v < 2 ^ 15 then v else (v : Int) - 2 ^ 16

/-- A `short` stored in two bytes. -/
def setShort (m : Bytes) (o : Nat) (x : Int) : Bytes :=
  setLE m o (x % 2 ^ 16).toNat 2

/-- `memmove(dst + o, src + so, n)`. -/
def copy (dst : Bytes) (o : Nat) (src : Bytes) (so n : Nat) : Bytes := fun i =>
  if o ≤ i ∧ i < o + n then src (so + (i - o)) else dst i

variable {m m' : Bytes} {o v w : Nat}

theorem setLE_of_lt {i : Nat} (h : i < o) : setLE m o v w i = m i := by
  simp [setLE, Nat.not_le.mpr h]

theorem setLE_of_le {i : Nat} (h : o + w ≤ i) : setLE m o v w i = m i := by
  simp only [setLE]
  rw [if_neg (by omega)]

theorem getLE_congr (h : ∀ i, o ≤ i → i < o + w → m i = m' i) : getLE m o w = getLE m' o w := by
  induction w generalizing o with
  | zero => rfl
  | succ w ih =>
      simp only [getLE]
      rw [h o le_rfl (by omega), ih (fun i hi hi' => h i (by omega) (by omega))]

@[simp] theorem getLE_zero (o w : Nat) : getLE (fun _ => 0) o w = 0 := by
  induction w generalizing o with
  | zero => rfl
  | succ w ih => simp [getLE, ih]

theorem getLE_lt (m : Bytes) (o w : Nat) : getLE m o w < 256 ^ w := by
  induction w generalizing o with
  | zero => simp [getLE]
  | succ w ih =>
      have hb := (m o).toNat_lt
      have hr := ih (o + 1)
      simp only [getLE, pow_succ]
      omega

theorem getShort_bounds (m : Bytes) (o : Nat) : -2 ^ 15 ≤ getShort m o ∧ getShort m o < 2 ^ 15 := by
  have h := getLE_lt m o 2
  unfold getShort
  dsimp only
  split <;> omega

theorem getLE_setLE_self (m : Bytes) (o v w : Nat) : getLE (setLE m o v w) o w = v % 256 ^ w := by
  induction w generalizing o v with
  | zero => simp [getLE, Nat.mod_one]
  | succ w ih =>
      -- past the first byte, the field holds the rest of `v`
      have hrest : getLE (setLE m o v (w + 1)) (o + 1) w = getLE (setLE m (o + 1) (v / 256) w) (o + 1) w := by
        apply getLE_congr
        intro i hi hi'
        simp only [setLE]
        rw [if_pos (by omega), if_pos (by omega), Nat.div_div_eq_div_mul, ← pow_succ']
        congr 3
        omega
      have hfirst : (setLE m o v (w + 1) o).toNat = v % 256 := by
        simp only [setLE, le_refl, true_and, Nat.sub_self, pow_zero, Nat.div_one]
        rw [if_pos (by omega), UInt8.toNat_ofNat']
      simp only [getLE]
      rw [hfirst, hrest, ih, pow_succ', Nat.mod_mul]

theorem getLE_setLE_of_disjoint (m : Bytes) (v : Nat) {o' w' : Nat}
    (hd : o' + w' ≤ o ∨ o + w ≤ o') : getLE (setLE m o v w) o' w' = getLE m o' w' := by
  apply getLE_congr
  intro i hi hi'
  rcases hd with hd | hd
  · exact setLE_of_lt (by omega)
  · exact setLE_of_le (by omega)

theorem setWords_of_lt {f : Nat → Nat} {n i : Nat} (h : i < o) : setWords m o f n i = m i := by
  simp [setWords, Nat.not_le.mpr h]

theorem setWords_of_le {f : Nat → Nat} {n i : Nat} (h : o + 4 * n ≤ i) : setWords m o f n i = m i := by
  simp only [setWords]
  rw [if_neg (by omega)]

theorem getLE_setWords_self (m : Bytes) (o : Nat) (f : Nat → Nat) {n j : Nat} (hj : j < n) :
    getLE (setWords m o f n) (o + 4 * j) 4 = f j % 256 ^ 4 := by
  rw [← getLE_setLE_self m (o + 4 * j) (f j) 4]
  apply getLE_congr
  intro i hi hi'
  simp only [setWords, setLE]
  rw [if_pos (by omega), if_pos (by omega)]
  have hq : (i - o) / 4 = j := by omega
  have hr : (i - o) % 4 = i - (o + 4 * j) := by omega
  rw [hq, hr]

theorem getLE_setWords_of_disjoint (m : Bytes) (f : Nat → Nat) {n o' w' : Nat}
    (hd : o' + w' ≤ o ∨ o + 4 * n ≤ o') : getLE (setWords m o f n) o' w' = getLE m o' w' := by
  apply getLE_congr
  intro i hi hi'
  rcases hd with hd | hd
  · exact setWords_of_lt (by omega)
  · exact setWords_of_le (by omega)

theorem getShort_setShort_self (m : Bytes) (o : Nat) {x : Int} (hlo : -2 ^ 15 ≤ x) (hhi : x < 2 ^ 15) :
    getShort (setShort m o x) o = x := by
  unfold getShort setShort
  rw [getLE_setLE_self]
  have hmod : ((x % 2 ^ 16).toNat % 256 ^ 2 : Nat) = (x % 2 ^ 16).toNat := by
    apply Nat.mod_eq_of_lt
    omega
  simp only [hmod]
  split <;> omega

theorem getShort_setShort_of_disjoint (m : Bytes) (x : Int) {o o' : Nat}
    (hd : o' + 2 ≤ o ∨ o + 2 ≤ o') : getShort (setShort m o x) o' = getShort m o' := by
  unfold getShort setShort
  rw [getLE_setLE_of_disjoint m _ hd]

theorem getShort_setLE_of_disjoint (m : Bytes) (v : Nat) {o' : Nat}
    (hd : o' + 2 ≤ o ∨ o + w ≤ o') : getShort (setLE m o v w) o' = getShort m o' := by
  unfold getShort
  rw [getLE_setLE_of_disjoint m v hd]

theorem getShort_setWords_of_disjoint (m : Bytes) (f : Nat → Nat) {n o' : Nat}
    (hd : o' + 2 ≤ o ∨ o + 4 * n ≤ o') : getShort (setWords m o f n) o' = getShort m o' := by
  unfold getShort
  rw [getLE_setWords_of_disjoint m f hd]

theorem copy_of_lt {dst src : Bytes} {so n i : Nat} (h : i < o) : copy dst o src so n i = dst i := by
  simp [copy, Nat.not_le.mpr h]

theorem copy_of_le {dst src : Bytes} {so n i : Nat} (h : o + n ≤ i) : copy dst o src so n i = dst i := by
  simp only [copy]
  rw [if_neg (by omega)]

theorem copy_of_mem {dst src : Bytes} {so n i : Nat} (h₁ : o ≤ i) (h₂ : i < o + n) :
    copy dst o src so n i = src (so + (i - o)) := by
  simp only [copy]
  rw [if_pos ⟨h₁, h₂⟩]

theorem getLE_copy_of_within {dst src : Bytes} {so n a w : Nat} (h₁ : o ≤ a) (h₂ : a + w ≤ o + n) :
    getLE (copy dst o src so n) a w = getLE src (so + (a - o)) w := by
  induction w generalizing a with
  | zero => rfl
  | succ w ih =>
      simp only [getLE]
      rw [copy_of_mem h₁ (by omega), ih (by omega) (by omega)]
      congr 3
      omega

theorem getLE_copy_of_disjoint {dst src : Bytes} {so n a w : Nat} (hd : a + w ≤ o ∨ o + n ≤ a) :
    getLE (copy dst o src so n) a w = getLE dst a w := by
  apply getLE_congr
  intro i hi hi'
  rcases hd with hd | hd
  · exact copy_of_lt (by omega)
  · exact copy_of_le (by omega)

/-!
## C strings
-/

/-- `strncmp(p, q, n)`: the strings from offset `0`, compared up to `n` bytes
or a `NUL`. -/
def strncmp (p q : Bytes) : Nat → Int
  | 0 => 0
  | n + 1 => if p 0 ≠ 0 ∧ p 0 = q 0 then strncmp (fun i => p (i + 1)) (fun i => q (i + 1)) n
      else (p 0).toNat - (q 0).toNat

theorem strncmp_congr_left {p p' q : Bytes} {n : Nat}
    (h : ∀ j < n, (∀ k < j, p k ≠ 0) → p' j = p j) : strncmp p' q n = strncmp p q n := by
  induction n generalizing p p' q with
  | zero => rfl
  | succ n ih =>
      have h0 : p' 0 = p 0 := h 0 (Nat.succ_pos n) (fun _ hk => absurd hk (Nat.not_lt_zero _))
      simp only [strncmp, h0]
      split
      · rename_i hp
        -- past a byte that is not `NUL`, the rest is read the same way
        apply ih
        intro j hj hpre
        apply h (j + 1) (by omega)
        intro k hk
        cases k with
        | zero => exact hp.1
        | succ k => exact hpre k (by omega)
      · rfl

theorem strncmp_ne_zero_of_ne {p q : Bytes} {n : Nat} (hn : 0 < n) (h : p 0 ≠ q 0) :
    strncmp p q n ≠ 0 := by
  obtain ⟨n, rfl⟩ : ∃ k, n = k + 1 := ⟨n - 1, by omega⟩
  have hne : (p 0).toNat ≠ (q 0).toNat := fun h' => h (UInt8.toNat_inj.mp h')
  simp only [strncmp, h, and_false, if_false]
  omega

theorem strncmp_congr_right {p q q' : Bytes} {n : Nat} (h : ∀ j < n, q' j = q j) :
    strncmp p q' n = strncmp p q n := by
  induction n generalizing p q q' with
  | zero => rfl
  | succ n ih =>
      have h0 : q' 0 = q 0 := h 0 (Nat.succ_pos n)
      simp only [strncmp, h0]
      split
      · exact ih fun j hj => h (j + 1) (by omega)
      · rfl

/-- `strncpy(s, t, n)`: the `n` bytes from `s` hold `t` up to its first
`NUL`, then `NUL`s. -/
def strncpy (s t : Bytes) (n : Nat) : Bytes := fun k =>
  if k < n then (if ∀ j < k, t j ≠ 0 then t k else 0) else s k

theorem strncpy_succ {s t : Bytes} {n : Nat} (ht : t 0 ≠ 0) :
    (fun k => strncpy s t (n + 1) (k + 1)) = strncpy (fun k => s (k + 1)) (fun k => t (k + 1)) n := by
  funext k
  have hpre : (∀ j < k + 1, t j ≠ 0) ↔ ∀ j < k, t (j + 1) ≠ 0 := by
    constructor
    · exact fun h j hj => h (j + 1) (by omega)
    · intro h j hj
      cases j with
      | zero => exact ht
      | succ j => exact h j (by omega)
  simp only [strncpy, Nat.add_lt_add_iff_right, hpre]

theorem strncmp_strncpy (s t : Bytes) (n : Nat) : strncmp t (strncpy s t n) n = 0 := by
  induction n generalizing s t with
  | zero => rfl
  | succ n ih =>
      have h0 : strncpy s t (n + 1) 0 = t 0 := by simp [strncpy]
      by_cases ht : t 0 = 0
      · simp [strncmp, h0, ht]
      · simp only [strncmp, h0, ne_eq, ht, not_false_eq_true, and_self, if_true, strncpy_succ ht]
        exact ih _ _

theorem strncmp_succ_eq_zero_iff {p q : Bytes} {n : Nat} :
    strncmp p q (n + 1) = 0 ↔
      p 0 = q 0 ∧ (p 0 ≠ 0 → strncmp (fun i => p (i + 1)) (fun i => q (i + 1)) n = 0) := by
  simp only [strncmp]
  split
  · rename_i h
    exact ⟨fun hr => ⟨h.2, fun _ => hr⟩, fun hr => hr.2 h.1⟩
  · rename_i h
    constructor
    · intro hr
      have hpq : p 0 = q 0 := UInt8.toNat_inj.mp (by omega)
      exact ⟨hpq, fun hp => absurd ⟨hp, hpq⟩ h⟩
    · rintro ⟨hpq, -⟩
      rw [hpq]
      omega

theorem strncmp_eq_zero_symm {p q : Bytes} {n : Nat} (h : strncmp p q n = 0) : strncmp q p n = 0 := by
  induction n generalizing p q with
  | zero => rfl
  | succ n ih =>
      obtain ⟨h0, hrest⟩ := strncmp_succ_eq_zero_iff.mp h
      refine strncmp_succ_eq_zero_iff.mpr ⟨h0.symm, fun hq => ih (hrest ?_)⟩
      rw [h0]
      exact hq

theorem strncmp_eq_zero_trans {p q r : Bytes} {n : Nat} (h₁ : strncmp p q n = 0) (h₂ : strncmp q r n = 0) :
    strncmp p r n = 0 := by
  induction n generalizing p q r with
  | zero => rfl
  | succ n ih =>
      obtain ⟨h0, hrest⟩ := strncmp_succ_eq_zero_iff.mp h₁
      obtain ⟨h0', hrest'⟩ := strncmp_succ_eq_zero_iff.mp h₂
      refine strncmp_succ_eq_zero_iff.mpr ⟨h0.trans h0', fun hp => ih (hrest hp) (hrest' ?_)⟩
      rw [← h0]
      exact hp

/-!
## Bitmaps
-/

/-- Bit `i` of a bitmap, bit `i % 8` of byte `i / 8`. -/
def bit (m : Bytes) (i : Nat) : Bool :=
  (m (i / 8)).toNat.testBit (i % 8)

/-- `m[i / 8] |= 1 << (i % 8)`. -/
def setBit (m : Bytes) (i : Nat) : Bytes :=
  Function.update m (i / 8) (m (i / 8) ||| UInt8.ofNat (1 <<< (i % 8)))

/-- `m[i / 8] &= ~(1 << (i % 8))`. -/
def clearBit (m : Bytes) (i : Nat) : Bytes :=
  Function.update m (i / 8) (m (i / 8) &&& ~~~UInt8.ofNat (1 <<< (i % 8)))

theorem toNat_mask (i : Nat) : (UInt8.ofNat (1 <<< (i % 8))).toNat = 2 ^ (i % 8) := by
  rw [UInt8.toNat_ofNat', Nat.one_shiftLeft]
  exact Nat.mod_eq_of_lt (Nat.pow_lt_pow_right (by decide) (Nat.mod_lt _ (by decide)))

theorem and_mask_eq_zero_iff (m : Bytes) (i : Nat) :
    (m (i / 8)).toNat &&& 1 <<< (i % 8) = 0 ↔ bit m i = false := by
  rw [Nat.one_shiftLeft, Nat.and_two_pow, bit]
  cases (m (i / 8)).toNat.testBit (i % 8) <;> simp

private theorem testBit_not_mask (k j : Nat) (hk : k < 8) :
    (UInt8.size - 1 - 2 ^ k).testBit j = (decide (j < 8) && decide (j ≠ k)) := by
  have h : UInt8.size - 1 - 2 ^ k = (~~~(BitVec.twoPow 8 k)).toNat := by
    rw [BitVec.toNat_not, BitVec.toNat_twoPow,
      Nat.mod_eq_of_lt (Nat.pow_lt_pow_right (by decide) hk)]
  rw [h, BitVec.testBit_toNat, BitVec.getLsbD_not, BitVec.getLsbD_twoPow]
  by_cases hjk : k = j
  · subst hjk
    simp [hk]
  · simp [hk, hjk, Ne.symm hjk]

private theorem eq_of_div_mod {i j : Nat} (hd : j / 8 = i / 8) (hm : i % 8 = j % 8) : j = i := by
  omega

theorem bit_setBit (m : Bytes) (i j : Nat) : bit (setBit m i) j = (decide (j = i) || bit m j) := by
  by_cases hd : j / 8 = i / 8
  · simp only [bit, setBit, hd, Function.update_self, UInt8.toNat_or, toNat_mask, Nat.testBit_or,
      Nat.testBit_two_pow]
    by_cases hji : j = i
    · subst hji
      simp
    · have hm : ¬i % 8 = j % 8 := fun hm => hji (eq_of_div_mod hd hm)
      simp [hm, hji]
  · have hji : j ≠ i := fun h => hd (h ▸ rfl)
    simp only [bit, setBit, Function.update_of_ne hd, hji, decide_false, Bool.false_or]

theorem bit_clearBit (m : Bytes) (i j : Nat) :
    bit (clearBit m i) j = (decide (j ≠ i) && bit m j) := by
  by_cases hd : j / 8 = i / 8
  · simp only [bit, clearBit, hd, Function.update_self, UInt8.toNat_and, UInt8.toNat_not, toNat_mask,
      Nat.testBit_and, testBit_not_mask _ _ (Nat.mod_lt i (by decide))]
    have hj8 : j % 8 < 8 := Nat.mod_lt j (by decide)
    by_cases hji : j = i
    · subst hji
      simp
    · have hm : ¬j % 8 = i % 8 := fun hm => hji (eq_of_div_mod hd hm.symm)
      simp [hm, hji, hj8, Bool.and_comm]
  · have hji : j ≠ i := fun h => hd (h ▸ rfl)
    simp only [bit, clearBit, Function.update_of_ne hd, ne_eq, hji, not_false_eq_true, decide_true,
      Bool.true_and]

@[simp] theorem bit_zero (i : Nat) : bit (fun _ => 0) i = false := by
  simp [bit]

theorem bit_foldl_setBit (m : Bytes) (n j : Nat) :
    bit ((List.range n).foldl setBit m) j = (decide (j < n) || bit m j) := by
  induction n with
  | zero => simp
  | succ n ih =>
      rw [List.range_succ, List.foldl_append, List.foldl_cons, List.foldl_nil, bit_setBit, ih]
      by_cases hj : j = n
      · simp [hj]
      · have : j < n + 1 ↔ j < n := by omega
        simp [hj, this]

end Bytes
