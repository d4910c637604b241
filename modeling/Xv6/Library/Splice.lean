import Mathlib

/-!
# Writing a list over another

`splice l off src` is `l` with `src` written over it from `off`, growing it
where `src` runs past its end: what a write of `src` at offset `off ≤ length`
does to a byte string.  Reading the written range back gives `src`; the rest
of `l` is as it was.  A string given by its elements, as a file's bytes are,
is written over element by element.
-/

namespace Xv6

namespace Splice

variable {α : Type*}

/-- `l` with `src` written over it from `off`. -/
def splice (l : List α) (off : ℕ) (src : List α) : List α :=
  l.take off ++ src ++ l.drop (off + src.length)

variable {l src : List α} {off : ℕ}

theorem length_splice (h : off ≤ l.length) :
    (splice l off src).length = max l.length (off + src.length) := by
  simp only [splice, List.length_append, List.length_take, List.length_drop]
  omega

theorem getElem?_splice (h : off ≤ l.length) (k : ℕ) :
    (splice l off src)[k]? = if off ≤ k ∧ k < off + src.length then src[k - off]? else l[k]? := by
  unfold splice
  by_cases hk : k < off
  · rw [if_neg (by omega), List.append_assoc, List.getElem?_append_left (by simp; omega),
      List.getElem?_take_of_lt hk]
  · have htake : (l.take off).length = off := by simp; omega
    rw [List.append_assoc, List.getElem?_append_right (by omega), htake]
    by_cases hin : k < off + src.length
    · rw [if_pos ⟨by omega, hin⟩, List.getElem?_append_left (by omega)]
    · rw [if_neg (by omega), List.getElem?_append_right (by omega), List.getElem?_drop]
      congr 1
      omega

theorem take_drop_splice (h : off ≤ l.length) : ((splice l off src).drop off).take src.length = src := by
  have htake : (l.take off).length = off := by simp; omega
  rw [splice, List.append_assoc, List.drop_append_of_le_length (le_of_eq htake.symm), List.drop_of_length_le
    (le_of_eq htake), List.nil_append, List.take_append_of_le_length le_rfl, List.take_length]

variable {f g : ℕ → α} {size n : ℕ}

theorem getElem?_map_range (k : ℕ) : ((List.range n).map f)[k]? = if k < n then some (f k) else none := by
  by_cases hk : k < n
  · rw [if_pos hk, List.getElem?_map, List.getElem?_range hk]
    rfl
  · rw [if_neg hk, List.getElem?_eq_none (by simp; omega)]

theorem map_range_add (a b : ℕ) :
    (List.range (a + b)).map f = (List.range a).map f ++ (List.range b).map fun t => f (a + t) := by
  rw [List.range_add, List.map_append, List.map_map]
  rfl

theorem splice_map_range (h : off ≤ size) :
    splice ((List.range size).map f) off ((List.range n).map g) =
      (List.range (max size (off + n))).map fun k => if off ≤ k ∧ k < off + n then g (k - off) else f k := by
  apply List.ext_getElem?
  intro k
  rw [getElem?_splice (by simpa using h), List.length_map, List.length_range]
  simp only [getElem?_map_range]
  by_cases hin : off ≤ k ∧ k < off + n
  · rw [if_pos hin, if_pos (by omega : k - off < n), if_pos (by omega : k < max size (off + n)), if_pos hin]
  · rw [if_neg hin]
    by_cases hk : k < size
    · rw [if_pos hk, if_pos (lt_of_lt_of_le hk (le_max_left _ _)), if_neg hin]
    · rw [if_neg hk, if_neg (by omega : ¬k < max size (off + n))]

theorem take_drop_map_range :
    (((List.range size).map f).drop off).take n = (List.range (min n (size - off))).map fun t => f (off + t) := by
  apply List.ext_getElem?
  intro t
  rw [List.getElem?_take, List.getElem?_drop]
  simp only [getElem?_map_range]
  by_cases ht : t < n
  · rw [if_pos ht]
    by_cases hs : off + t < size
    · rw [if_pos hs, if_pos (by omega : t < min n (size - off))]
    · rw [if_neg hs, if_neg (by omega : ¬t < min n (size - off))]
  · rw [if_neg ht, if_neg (by omega : ¬t < min n (size - off))]

end Splice

end Xv6
