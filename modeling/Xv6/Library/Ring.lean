import Mathlib.Data.Nat.ModEq
import Mathlib.Logic.Function.Basic

/-!
# Ring buffers with free-running counters

A ring of `N` cells holds a queue: a read counter `r` and a count `d` say
that the queue is the cells `r, r + 1, …, r + d - 1`, each taken mod `N`.
The counters run freely and are stored mod some `M` that `N` divides, as an
unsigned machine word is; the cells they name do not change when they wrap.

Writing the cell after the queue, when the queue is not full, appends to it;
the cell a read counter names is the queue's head, and moving the counter on
drops it.
-/

namespace Xv6

namespace Ring

open Function

variable {α : Type*} {N M : ℕ} [NeZero N]

/-- The cell of a ring of `N` cells that the counter `x` names. -/
def cell (N : ℕ) [NeZero N] (x : ℕ) : Fin N :=
  ⟨x % N, Nat.mod_lt _ (Nat.pos_of_neZero N)⟩

/-- The `d` cells of `buf` from counter `r` on, oldest first. -/
def view (buf : Fin N → α) (r : ℕ) : ℕ → List α
  | 0 => []
  | d + 1 => view buf r d ++ [buf (cell N (r + d))]

variable {buf buf' : Fin N → α} {r r' d : ℕ}

@[simp] theorem view_zero : view buf r 0 = [] :=
  rfl

theorem view_succ : view buf r (d + 1) = view buf r d ++ [buf (cell N (r + d))] :=
  rfl

@[simp] theorem length_view : (view buf r d).length = d := by
  induction d with
  | zero => rfl
  | succ d ih => simp [view_succ, ih]

theorem view_congr (h : ∀ k < d, buf (cell N (r + k)) = buf' (cell N (r' + k))) :
    view buf r d = view buf' r' d := by
  induction d with
  | zero => rfl
  | succ d ih =>
      rw [view_succ, view_succ, ih fun k hk => h k (Nat.lt_succ_of_lt hk), h d (Nat.lt_succ_self d)]

theorem cell_add_ne {k : ℕ} (hk : k < d) (hd : d < N) : cell N (r + k) ≠ cell N (r + d) := by
  intro h
  have hmod : r + k ≡ r + d [MOD N] := Fin.val_eq_of_eq h
  have hkd : k % N = d % N := Nat.ModEq.add_left_cancel' r hmod
  rw [Nat.mod_eq_of_lt (hk.trans hd), Nat.mod_eq_of_lt hd] at hkd
  omega

theorem view_push (hd : d < N) (x : α) :
    view (update buf (cell N (r + d)) x) r (d + 1) = view buf r d ++ [x] := by
  rw [view_succ, update_self]
  congr 1
  exact view_congr fun k hk => update_of_ne (cell_add_ne hk hd) _ _

theorem view_update_of_le {j : ℕ} (hd : d ≤ j) (hj : j < N) (x : α) :
    view (update buf (cell N (r + j)) x) r d = view buf r d :=
  view_congr fun _ hk => update_of_ne (cell_add_ne (lt_of_lt_of_le hk hd) hj) _ _

theorem view_pop : view buf r (d + 1) = buf (cell N r) :: view buf (r + 1) d := by
  induction d with
  | zero => simp [view_succ]
  | succ d ih =>
      rw [view_succ, ih, view_succ, List.cons_append]
      simp only [Nat.add_right_comm r 1 d, Nat.add_assoc]

theorem view_dropLast : (view buf r (d + 1)).dropLast = view buf r d := by
  rw [view_succ, List.dropLast_concat]

theorem view_add (a : ℕ) : view buf r (a + d) = view buf r a ++ view buf (r + a) d := by
  induction d with
  | zero => simp
  | succ d ih => rw [← Nat.add_assoc, view_succ, ih, view_succ, List.append_assoc, Nat.add_assoc]

theorem cell_mod (hN : N ∣ M) (x : ℕ) : cell N (x % M) = cell N x :=
  Fin.ext (Nat.mod_mod_of_dvd x hN)

theorem view_mod (hN : N ∣ M) : view buf (r % M) d = view buf r d := by
  apply view_congr
  intro k _
  -- both counters are `r + k` mod `M`, and `N` divides `M`
  rw [← cell_mod hN (r % M + k), ← cell_mod hN (r + k), Nat.add_mod, Nat.mod_mod, ← Nat.add_mod]

/-!
## Counters in a 32-bit word

`a - b` on `uint` is the distance from `b` up to `a` mod `2^32`.
-/

section Word

variable {a b : UInt32}

theorem toNat_sub_eq_zero_iff : (a - b).toNat = 0 ↔ a = b := by
  have ha := UInt32.toNat_lt a
  have hb := UInt32.toNat_lt b
  rw [UInt32.toNat_sub, ← UInt32.toNat_inj]
  omega

theorem eq_add_ofNat_iff {n : ℕ} (hn : n < 2 ^ 32) : a = b + UInt32.ofNat n ↔ (a - b).toNat = n := by
  have ha := UInt32.toNat_lt a
  have hb := UInt32.toNat_lt b
  rw [UInt32.toNat_sub, ← UInt32.toNat_inj, UInt32.toNat_add, UInt32.toNat_ofNat', Nat.mod_eq_of_lt hn]
  omega

theorem toNat_add_one_sub (h : (a - b).toNat + 1 < 2 ^ 32) : (a + 1 - b).toNat = (a - b).toNat + 1 := by
  have ha := UInt32.toNat_lt a
  have hb := UInt32.toNat_lt b
  simp only [UInt32.toNat_sub, UInt32.toNat_add, UInt32.toNat_one] at h ⊢
  omega

theorem toNat_sub_add_one (h : a ≠ b) : (a - (b + 1)).toNat = (a - b).toNat - 1 := by
  have ha := UInt32.toNat_lt a
  have hb := UInt32.toNat_lt b
  have hne : a.toNat ≠ b.toNat := fun h' => h (UInt32.toNat_inj.mp h')
  rw [UInt32.toNat_sub, UInt32.toNat_sub, UInt32.toNat_add, UInt32.toNat_one]
  omega

theorem toNat_sub_one_sub (h : a ≠ b) : (a - 1 - b).toNat = (a - b).toNat - 1 := by
  have ha := UInt32.toNat_lt a
  have hb := UInt32.toNat_lt b
  have hne : a.toNat ≠ b.toNat := fun h' => h (UInt32.toNat_inj.mp h')
  rw [UInt32.toNat_sub, UInt32.toNat_sub, UInt32.toNat_sub, UInt32.toNat_one]
  omega

theorem lt_ofNat_iff {n : ℕ} (hn : n < 2 ^ 32) : a < UInt32.ofNat n ↔ a.toNat < n := by
  rw [UInt32.lt_iff_toNat_lt, UInt32.toNat_ofNat', Nat.mod_eq_of_lt hn]

theorem toNat_eq_add_sub (a b : UInt32) : a.toNat = (b.toNat + (a - b).toNat) % 2 ^ 32 := by
  have ha := UInt32.toNat_lt a
  have hb := UInt32.toNat_lt b
  rw [UInt32.toNat_sub]
  omega

theorem cell_toNat_eq_add_sub (hN : N ∣ 2 ^ 32) (a b : UInt32) :
    cell N a.toNat = cell N (b.toNat + (a - b).toNat) := by
  rw [toNat_eq_add_sub a b, cell_mod hN]

end Word

end Ring

end Xv6
