import Mathlib

/-!
# Extents laid end to end

An extent is given by where it starts and how long it is.  A list of extents
is contiguous from `o` when the first starts at `o` and each later one where
the one before it ended.  Contiguous extents do not overlap, and together they
cover `[o, o + total)` with no gap.
-/

namespace Xv6

namespace Extent

variable {α : Type*} (start len : α → ℕ)

/-- Each extent of the list starts where the one before it ended, the first at `o`. -/
def Contiguous : ℕ → List α → Prop
  | _, [] => True
  | o, a :: l => start a = o ∧ Contiguous (o + len a) l

/-- The lengths of the extents, summed. -/
def total (l : List α) : ℕ :=
  (l.map len).sum

variable {start len} {o : ℕ} {a : α} {l l' : List α}

@[simp] theorem total_nil : total len [] = 0 :=
  rfl

@[simp] theorem total_cons : total len (a :: l) = len a + total len l := by
  simp [total]

@[simp] theorem total_append : total len (l ++ l') = total len l + total len l' := by
  simp [total]

@[simp] theorem contiguous_nil : Contiguous start len o [] :=
  trivial

theorem contiguous_cons : Contiguous start len o (a :: l) ↔ start a = o ∧ Contiguous start len (o + len a) l :=
  Iff.rfl

theorem contiguous_append :
    Contiguous start len o (l ++ l') ↔ Contiguous start len o l ∧ Contiguous start len (o + total len l) l' := by
  induction l generalizing o with
  | nil => simp
  | cons a l ih => simp [contiguous_cons, ih, Nat.add_assoc, and_assoc]

theorem contiguous_concat :
    Contiguous start len o (l ++ [a]) ↔ Contiguous start len o l ∧ start a = o + total len l := by
  simp [contiguous_append, contiguous_cons]

theorem le_start (h : Contiguous start len o l) : ∀ b ∈ l, o ≤ start b := by
  induction l generalizing o with
  | nil => simp
  | cons a l ih =>
      obtain ⟨ha, hl⟩ := h
      intro b hb
      rcases List.mem_cons.mp hb with rfl | hb
      · exact Nat.le_of_eq ha.symm
      · have hle := ih hl b hb
        omega

theorem pairwise_end_le_start (h : Contiguous start len o l) :
    l.Pairwise fun a b => start a + len a ≤ start b := by
  induction l generalizing o with
  | nil => exact List.Pairwise.nil
  | cons a l ih =>
      obtain ⟨ha, hl⟩ := h
      refine List.Pairwise.cons (fun b hb => ?_) (ih hl)
      rw [ha]
      exact le_start hl b hb

theorem exists_mem_of_lt (h : Contiguous start len o l) {x : ℕ} (hlo : o ≤ x) (hhi : x < o + total len l) :
    ∃ a ∈ l, start a ≤ x ∧ x < start a + len a := by
  induction l generalizing o with
  | nil => simp at hhi; omega
  | cons a l ih =>
      obtain ⟨ha, hl⟩ := h
      rw [total_cons] at hhi
      by_cases hx : x < o + len a
      · exact ⟨a, List.mem_cons_self .., by omega, by omega⟩
      · obtain ⟨b, hb, hbx⟩ := ih hl (by omega) (by omega)
        exact ⟨b, List.mem_cons_of_mem _ hb, hbx⟩

end Extent

end Xv6
