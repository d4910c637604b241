import Mathlib.Data.List.Basic
import Xv6.Vm.Kvm
import Xv6.Vm.Grow

/-!
# Taking pages back: `deallocuvm`

`deallocuvm(pgdir, oldsz, newsz)` runs `a` over the pages from
`PGROUNDUP(newsz)` below `oldsz`.  At a page with no page table it moves `a`
to the last page before the next 4 MB region, `PGADDR(PDX(a)+1, 0, 0) -
PGSIZE`, so that `a += PGSIZE` lands on that region's first page; at a
present PTE it frees the page and clears the entry.

Both moves take `a` on by a page at least, and for `oldsz ≤ KERNBASE` the
next region starts at `2 ^ 31` at most, so `PGADDR` does not wrap around to
`0`: on every directory the loop returns within `pagesUpTo a oldsz` turns or
panics in one of them (`deallocLoop_terminates`).

On a directory whose page tables and user pages are distinct pages of the
kernel map (`UserDir`), the loop frees the pages of exactly the present PTEs
of the range, in order, clears exactly those PTEs, and leaves every other
PTE and every directory entry as it was (`Freed`, `deallocLoop_freed`).  A
directory with a user PTE that maps one of its own page tables loses that
frame: `kfree`'s junk turns the table's other entries into present ones.
-/

namespace Xv6

namespace Vm

open ByteMem

/-!
## What a directory maps
-/

/-- The page table that entry `i` of `pgdir` names, at its kernel address. -/
def table (s : Machine) (pgdir i : UInt32) : UInt32 :=
  P2V (PTE_ADDR (pde s pgdir i))

/-- The PTE of `va` under `pgdir`, `0` where there is no page table for it. -/
def pteOf (s : Machine) (pgdir va : UInt32) : UInt32 :=
  if pde s pgdir (PDX va) &&& PTE_P ≠ 0 then load32 s.mem (slot (table s pgdir (PDX va)) (PTX va)) else 0

/-- The pages `kfree` gets back from the pages numbered `[lo, hi)`, in order:
those of the present PTEs. -/
def freedPages (s : Machine) (pgdir : UInt32) (lo hi : Nat) : List UInt32 :=
  (List.range' lo (hi - lo)).filterMap fun k =>
    if pteOf s pgdir (UInt32.ofNat (4096 * k)) &&& PTE_P ≠ 0 then
      some (P2V (PTE_ADDR (pteOf s pgdir (UInt32.ofNat (4096 * k)))))
    else none

/-- A physical page that `kfree` takes back at `P2V`, and that is neither
`pgdir` nor one of its page tables. -/
structure Freeable (img : Image) (pgdir : UInt32) (s : Machine) (pa : UInt32) : Prop where
  ne_zero : pa ≠ 0
  phys : pa < PHYSTOP
  above : img.kend ≤ P2V pa
  ne_dir : P2V pa ≠ pgdir
  ne_table : ∀ i : UInt32, i.toNat < 1024 → pde s pgdir i &&& PTE_P ≠ 0 → P2V pa ≠ table s pgdir i

/-- A directory `deallocuvm` can take apart: `pgdir` and the page tables of
its present entries are distinct pages of the kernel map, and each present
user PTE names a page `kfree` takes back. -/
structure UserDir (img : Image) (pgdir : UInt32) (s : Machine) : Prop where
  kpage : KPage pgdir
  tables : ∀ i : UInt32, i.toNat < 1024 → pde s pgdir i &&& PTE_P ≠ 0 →
    KPage (table s pgdir i) ∧ table s pgdir i ≠ pgdir
  tables_inj : ∀ i j : UInt32, i.toNat < 1024 → j.toNat < 1024 → pde s pgdir i &&& PTE_P ≠ 0 →
    pde s pgdir j &&& PTE_P ≠ 0 → table s pgdir i = table s pgdir j → i = j
  pages : ∀ va : UInt32, va < KERNBASE → pteOf s pgdir va &&& PTE_P ≠ 0 →
    Freeable img pgdir s (PTE_ADDR (pteOf s pgdir va))

/-- What a stretch of the loop did to the pages numbered `[lo, hi)`: their
present PTEs are cleared and their pages freed in order, and no other PTE
and no directory entry changed. -/
structure Freed (img : Image) (pgdir : UInt32) (s s' : Machine) (lo hi : Nat) : Prop where
  dir : UserDir img pgdir s'
  pdes : ∀ i : UInt32, i.toNat < 1024 → pde s' pgdir i = pde s pgdir i
  pte : ∀ va : UInt32, pteOf s' pgdir va =
    if lo ≤ va.toNat / 4096 ∧ va.toNat / 4096 < hi ∧ pteOf s pgdir va &&& PTE_P ≠ 0 then 0
    else pteOf s pgdir va
  freelist : s'.freelist = (freedPages s pgdir lo hi).reverse ++ s.freelist

/-- One turn of `deallocuvm`'s loop at `a < oldsz`, with `a += PGSIZE`. -/
def Turn (img : Image) (pgdir oldsz : UInt32) (x y : Machine × UInt32) : Prop :=
  x.2 < oldsz ∧ ∃ a', deallocPage img pgdir x.1 x.2 = some (y.1, a') ∧ y.2 = a' + PGSIZE

/-!
## Where `a` goes
-/

section Next

variable {a : UInt32}

theorem toNat_PGADDR_next (hlt : a.toNat < 2 ^ 31) :
    (PGADDR (PDX a + 1) 0 0).toNat = (a.toNat / 2 ^ 22 + 1) * 2 ^ 22 := by
  have hd : (PDX a + 1).toNat = a.toNat / 2 ^ 22 + 1 := by
    rw [UInt32.toNat_add, toNat_PDX]
    simp only [UInt32.reduceToNat]
    omega
  unfold PGADDR
  have h0 : (0 : UInt32) <<< PTXSHIFT = 0 := by decide
  rw [h0, UInt32.or_zero, UInt32.or_zero, UInt32.toNat_shiftLeft, hd]
  simp only [PDXSHIFT, UInt32.reduceToNat, Nat.reduceMod, Nat.shiftLeft_eq]
  omega

theorem toNat_add_PGSIZE (hlt : a.toNat < 2 ^ 31) : (a + PGSIZE).toNat = a.toNat + 4096 := by
  rw [UInt32.toNat_add]
  simp only [PGSIZE, UInt32.reduceToNat]
  omega

theorem next_page (ha : a.toNat % 4096 = 0) (hlt : a.toNat < 2 ^ 31) {a' : UInt32}
    (h : a' = a ∨ a' = PGADDR (PDX a + 1) 0 0 - PGSIZE) :
    (a' + PGSIZE).toNat % 4096 = 0 ∧ a.toNat + 4096 ≤ (a' + PGSIZE).toNat ∧ (a' + PGSIZE).toNat ≤ 2 ^ 31 := by
  rcases h with rfl | rfl
  · rw [toNat_add_PGSIZE hlt]
    omega
  · rw [UInt32.sub_add_cancel, toNat_PGADDR_next hlt]
    omega

theorem pagesUpTo_next {oldsz b : UInt32} (hlt : a < oldsz) (hb : a.toNat + 4096 ≤ b.toNat) :
    pagesUpTo b oldsz < pagesUpTo a oldsz := by
  have := UInt32.lt_iff_toNat_lt.mp hlt
  unfold pagesUpTo
  omega

end Next

/-!
## Every directory: the loop ends
-/

section Termination

variable {img : Image} {pgdir oldsz : UInt32}

theorem deallocPage_next {s s' : Machine} {a a' : UInt32} (h : deallocPage img pgdir s a = some (s', a')) :
    a' = a ∨ a' = PGADDR (PDX a + 1) 0 0 - PGSIZE := by
  obtain ⟨⟨s₁, pte⟩, -, h⟩ := Option.bind_eq_some_iff.mp h
  dsimp only at h
  split at h
  · cases h
    exact .inr rfl
  · obtain ⟨e, -, h⟩ := Option.bind_eq_some_iff.mp h
    split at h
    · cases h
      exact .inl rfl
    · split at h
      · cases h
      · obtain ⟨s₂, -, h⟩ := Option.bind_eq_some_iff.mp h
        obtain ⟨s₃, -, h⟩ := Option.map_eq_some_iff.mp h
        cases h
        exact .inl rfl

theorem deallocLoop_of_ge {fuel : Nat} {s : Machine} {a : UInt32} (h : ¬a < oldsz) :
    deallocLoop img pgdir oldsz fuel s a = some s := by
  cases fuel <;> simp only [deallocLoop, if_neg h]

/-- The loop over a directory, whatever it holds, returns within
`pagesUpTo a oldsz` turns, or one of its turns panics: it never runs out of
turns, since `PGADDR(PDX(a)+1, 0, 0)` stays above `a` below `KERNBASE`. -/
theorem deallocLoop_terminates (hold : oldsz ≤ KERNBASE) :
    ∀ (fuel : Nat) (s : Machine) (a : UInt32), a.toNat % 4096 = 0 → pagesUpTo a oldsz ≤ fuel →
      (∃ s', deallocLoop img pgdir oldsz fuel s a = some s') ∨
      ∃ x, Relation.ReflTransGen (Turn img pgdir oldsz) (s, a) x ∧ x.2 < oldsz ∧
        deallocPage img pgdir x.1 x.2 = none := by
  have hold' : oldsz.toNat ≤ 2 ^ 31 := UInt32.le_iff_toNat_le.mp hold
  intro fuel
  induction fuel with
  | zero =>
      intro s a _ hfuel
      -- no pages are left, so `a` is past `oldsz` already
      have hge : ¬a < oldsz := by
        rw [UInt32.lt_iff_toNat_lt]
        unfold pagesUpTo at hfuel
        omega
      exact .inl ⟨s, deallocLoop_of_ge hge⟩
  | succ fuel ih =>
      intro s a ha hfuel
      by_cases hlt : a < oldsz
      · have hlt' : a.toNat < 2 ^ 31 := by
          have := UInt32.lt_iff_toNat_lt.mp hlt
          omega
        cases hp : deallocPage img pgdir s a with
        | none => exact .inr ⟨(s, a), .refl, hlt, hp⟩
        | some r =>
            obtain ⟨s₁, a'⟩ := r
            obtain ⟨hal, hstep, -⟩ := next_page ha hlt' (deallocPage_next hp)
            have hturn : Turn img pgdir oldsz (s, a) (s₁, a' + PGSIZE) := ⟨hlt, a', hp, rfl⟩
            have hrest := ih s₁ (a' + PGSIZE) hal (by have := pagesUpTo_next hlt hstep; omega)
            rw [deallocLoop, if_pos hlt, hp, Option.bind_some]
            rcases hrest with hend | ⟨x, hrun, hx⟩
            · exact .inl hend
            · exact .inr ⟨x, .head hturn hrun, hx⟩
      · exact .inl ⟨s, deallocLoop_of_ge hlt⟩

end Termination

/-!
## Reading a directory
-/

section Views

variable {img : Image} {pgdir : UInt32} {s s' : Machine} {va : UInt32}

theorem pteOf_present (h : pde s pgdir (PDX va) &&& PTE_P ≠ 0) :
    pteOf s pgdir va = load32 s.mem (slot (table s pgdir (PDX va)) (PTX va)) :=
  if_pos h

theorem pteOf_absent (h : pde s pgdir (PDX va) &&& PTE_P = 0) : pteOf s pgdir va = 0 :=
  if_neg (not_not.mpr h)

theorem PDX_PTX_of_page {vb : UInt32} (h : va.toNat / 4096 = vb.toNat / 4096) : PDX va = PDX vb ∧ PTX va = PTX vb :=
  ⟨UInt32.toNat_inj.mp (by rw [toNat_PDX, toNat_PDX]; omega),
    UInt32.toNat_inj.mp (by rw [toNat_PTX, toNat_PTX]; omega)⟩

theorem PDX_PTX_of_page_ne {vb : UInt32} (h : va.toNat / 4096 ≠ vb.toNat / 4096) :
    PDX va ≠ PDX vb ∨ PTX va ≠ PTX vb := by
  by_contra hsame
  rw [not_or, not_not, not_not] at hsame
  have hd := congrArg UInt32.toNat hsame.1
  have ht := congrArg UInt32.toNat hsame.2
  rw [toNat_PDX, toNat_PDX] at hd
  rw [toNat_PTX, toNat_PTX] at ht
  omega

theorem pteOf_congr_page {vb : UInt32} (h : va.toNat / 4096 = vb.toNat / 4096) :
    pteOf s pgdir va = pteOf s pgdir vb := by
  obtain ⟨hd, ht⟩ := PDX_PTX_of_page h
  unfold pteOf
  rw [hd, ht]

theorem toNat_page {k : Nat} (hk : k < 2 ^ 20) : (UInt32.ofNat (4096 * k)).toNat = 4096 * k := by
  rw [UInt32.toNat_ofNat']
  omega

theorem table_congr {i : UInt32} (h : pde s' pgdir i = pde s pgdir i) : table s' pgdir i = table s pgdir i := by
  unfold table
  rw [h]

theorem walkpgdir_table (hpg : KPage pgdir) (h : pde s pgdir (PDX va) &&& PTE_P ≠ 0) (alloc : Bool) :
    walkpgdir s pgdir va alloc = some (s, table s pgdir (PDX va) + 4 * PTX va) :=
  walkpgdir_present hpg h alloc

theorem memset_mem (s : Machine) (dst : UInt32) (c : UInt8) (n : UInt32) :
    (memset s dst c n).mem = fill s.mem (V2P dst) n c := rfl

theorem memset_freelist (s : Machine) (dst : UInt32) (c : UInt8) (n : UInt32) :
    (memset s dst c n).freelist = s.freelist := rfl

theorem memset_cr3 (s : Machine) (dst : UInt32) (c : UInt8) (n : UInt32) :
    (memset s dst c n).cr3 = s.cr3 := rfl

theorem kpage_P2V {pa : UInt32} (hal : pa.toNat % 4096 = 0) (hphys : pa < PHYSTOP) : KPage (P2V pa) := by
  have hlt := UInt32.lt_iff_toNat_lt.mp hphys
  simp only [PHYSTOP, UInt32.reduceToNat] at hlt
  have hv : (P2V pa).toNat = pa.toNat + 0x80000000 := by
    rw [P2V, UInt32.toNat_add]
    simp only [KERNBASE, UInt32.reduceToNat]
    omega
  refine ⟨?_, ?_, ?_⟩ <;> rw [hv] <;> omega

theorem Freeable.congr {pa : UInt32} (hf : Freeable img pgdir s pa)
    (hpde : ∀ i : UInt32, i.toNat < 1024 → pde s' pgdir i = pde s pgdir i) : Freeable img pgdir s' pa where
  ne_zero := hf.ne_zero
  phys := hf.phys
  above := hf.above
  ne_dir := hf.ne_dir
  ne_table i hi hp := by
    rw [table_congr (hpde i hi)]
    exact hf.ne_table i hi (by rwa [← hpde i hi])

theorem UserDir.congr (hd : UserDir img pgdir s)
    (hpde : ∀ i : UInt32, i.toNat < 1024 → pde s' pgdir i = pde s pgdir i)
    (hpte : ∀ va : UInt32, pteOf s' pgdir va &&& PTE_P ≠ 0 → pteOf s' pgdir va = pteOf s pgdir va) :
    UserDir img pgdir s' where
  kpage := hd.kpage
  tables i hi hp := by
    rw [table_congr (hpde i hi)]
    exact hd.tables i hi (by rwa [← hpde i hi])
  tables_inj i j hi hj hpi hpj heq := by
    rw [table_congr (hpde i hi), table_congr (hpde j hj)] at heq
    exact hd.tables_inj i j hi hj (by rwa [← hpde i hi]) (by rwa [← hpde j hj]) heq
  pages va hva hp := by
    have hsame := hpte va hp
    rw [hsame] at hp ⊢
    exact (hd.pages va hva hp).congr hpde

end Views

/-!
## The pages freed
-/

section FreedPages

variable {pgdir : UInt32} {s s' : Machine} {lo mid hi : Nat}

theorem freedPages_append (hlm : lo ≤ mid) (hmh : mid ≤ hi) :
    freedPages s pgdir lo hi = freedPages s pgdir lo mid ++ freedPages s pgdir mid hi := by
  unfold freedPages
  rw [show hi - lo = (mid - lo) + (hi - mid) by omega, ← List.range'_append_1, List.filterMap_append,
    show lo + (mid - lo) = mid by omega]

theorem freedPages_congr
    (h : ∀ k, lo ≤ k → k < hi →
      pteOf s' pgdir (UInt32.ofNat (4096 * k)) = pteOf s pgdir (UInt32.ofNat (4096 * k))) :
    freedPages s' pgdir lo hi = freedPages s pgdir lo hi := by
  unfold freedPages
  apply List.filterMap_congr
  intro k hk
  rw [List.mem_range'_1] at hk
  rw [h k hk.1 (by omega)]

theorem freedPages_eq_nil (h : ∀ k, lo ≤ k → k < hi → pteOf s pgdir (UInt32.ofNat (4096 * k)) &&& PTE_P = 0) :
    freedPages s pgdir lo hi = [] := by
  unfold freedPages
  rw [List.filterMap_eq_nil_iff]
  intro k hk
  rw [List.mem_range'_1] at hk
  rw [if_neg (not_not.mpr (h k hk.1 (by omega)))]

end FreedPages

/-!
## Stretches of the loop
-/

section Stretch

variable {img : Image} {pgdir : UInt32} {s s₁ s₂ : Machine} {lo mid hi : Nat}

theorem Freed.of_unmapped (hd : UserDir img pgdir s) (hhi : hi ≤ 2 ^ 20)
    (h : ∀ va : UInt32, lo ≤ va.toNat / 4096 → va.toNat / 4096 < hi → pteOf s pgdir va &&& PTE_P = 0) :
    Freed img pgdir s s lo hi where
  dir := hd
  pdes _ _ := rfl
  pte va := by
    split_ifs with hin
    · exact absurd (h va hin.1 hin.2.1) hin.2.2
    · rfl
  freelist := by
    have hnil : freedPages s pgdir lo hi = [] := by
      apply freedPages_eq_nil
      intro k hlo hk
      have hpage := toNat_page (show k < 2 ^ 20 by omega)
      exact h _ (by rw [hpage]; omega) (by rw [hpage]; omega)
    rw [hnil]
    rfl

theorem Freed.trans (h₁ : Freed img pgdir s s₁ lo mid) (h₂ : Freed img pgdir s₁ s₂ mid hi)
    (hlm : lo ≤ mid) (hmh : mid ≤ hi) (hhi : hi ≤ 2 ^ 20) : Freed img pgdir s s₂ lo hi where
  dir := h₂.dir
  pdes i hi := (h₂.pdes i hi).trans (h₁.pdes i hi)
  pte va := by
    rw [h₂.pte va, h₁.pte va]
    by_cases hfirst : va.toNat / 4096 < mid
    · -- in the first stretch, or before it: the second leaves it alone
      rw [if_neg fun h => Nat.not_le.mpr hfirst h.1]
      by_cases hin : lo ≤ va.toNat / 4096 ∧ pteOf s pgdir va &&& PTE_P ≠ 0
      · rw [if_pos ⟨hin.1, hfirst, hin.2⟩, if_pos ⟨hin.1, by omega, hin.2⟩]
      · rw [if_neg fun h => hin ⟨h.1, h.2.2⟩, if_neg fun h => hin ⟨h.1, h.2.2⟩]
    · -- past the first stretch: only the second can clear it
      have hnot : ¬(lo ≤ va.toNat / 4096 ∧ va.toNat / 4096 < mid ∧ pteOf s pgdir va &&& PTE_P ≠ 0) :=
        fun h => hfirst h.2.1
      rw [if_neg hnot]
      by_cases hin : va.toNat / 4096 < hi ∧ pteOf s pgdir va &&& PTE_P ≠ 0
      · have h₂in : mid ≤ va.toNat / 4096 ∧ va.toNat / 4096 < hi ∧ pteOf s pgdir va &&& PTE_P ≠ 0 :=
          ⟨by omega, hin.1, hin.2⟩
        have hin' : lo ≤ va.toNat / 4096 ∧ va.toNat / 4096 < hi ∧ pteOf s pgdir va &&& PTE_P ≠ 0 :=
          ⟨by omega, hin.1, hin.2⟩
        rw [if_pos h₂in, if_pos hin']
      · have h₂out : ¬(mid ≤ va.toNat / 4096 ∧ va.toNat / 4096 < hi ∧ pteOf s pgdir va &&& PTE_P ≠ 0) :=
          fun h => hin ⟨h.2.1, h.2.2⟩
        have hout : ¬(lo ≤ va.toNat / 4096 ∧ va.toNat / 4096 < hi ∧ pteOf s pgdir va &&& PTE_P ≠ 0) :=
          fun h => hin ⟨h.2.1, h.2.2⟩
        rw [if_neg h₂out, if_neg hout]
  freelist := by
    have hsame : freedPages s₁ pgdir mid hi = freedPages s pgdir mid hi := by
      apply freedPages_congr
      intro k hk _
      rw [h₁.pte, toNat_page (by omega)]
      rw [if_neg (by omega)]
    rw [h₂.freelist, hsame, h₁.freelist, freedPages_append hlm hmh, List.reverse_append, List.append_assoc]

end Stretch

/-!
## One turn
-/

section Turn

variable {img : Image} {pgdir : UInt32} {s : Machine} {a : UInt32}

/-- The machine after the turn at a page `pa` whose PTE is entry `j` of the
page table `t`: `kfree` has filled the page with junk and taken it back, and
`*pte = 0`. -/
def unmapPage (s : Machine) (t j pa : UInt32) : Machine :=
  ⟨store32 (fill s.mem (V2P (P2V pa)) PGSIZE 1) (slot t j) 0, P2V pa :: s.freelist, s.cr3⟩

theorem load32_unmapPage {t j pa p i : UInt32} (hp : KPage p) (ht : KPage t) (hv : KPage (P2V pa))
    (hpv : p ≠ P2V pa) (hi : i.toNat < 1024) (hj : j.toNat < 1024) (h : t ≠ p ∨ j ≠ i) :
    load32 (unmapPage s t j pa).mem (slot p i) = load32 s.mem (slot p i) := by
  rw [unmapPage, load32_store32_slot hp ht hi hj h, load32_fill_slot hp hv hpv hi]

theorem deallocPage_absent (hpg : KPage pgdir) (hpde : pde s pgdir (PDX a) &&& PTE_P = 0) :
    deallocPage img pgdir s a = some (s, PGADDR (PDX a + 1) 0 0 - PGSIZE) := by
  rw [deallocPage, walkpgdir_absent hpg hpde, Option.bind_some]
  simp

theorem deallocPage_unmapped (hd : UserDir img pgdir s) (hpde : pde s pgdir (PDX a) &&& PTE_P ≠ 0)
    (hpte : pteOf s pgdir a &&& PTE_P = 0) : deallocPage img pgdir s a = some (s, a) := by
  obtain ⟨ht, -⟩ := hd.tables (PDX a) (PDX_lt a) hpde
  have hent := direct_entry ht (PTX a) (PTX_lt a)
  rw [pteOf_present hpde] at hpte
  rw [deallocPage, walkpgdir_table hd.kpage hpde, Option.bind_some]
  dsimp only
  rw [if_neg (ne_zero_of_direct hent.1), kload32_of_direct hent.1, hent.2, Option.bind_some, if_pos hpte]

theorem kfree_of_freeable {pa : UInt32} (hal : pa.toNat % 4096 = 0) (hf : Freeable img pgdir s pa) :
    kfree img s (P2V pa) = some ⟨fill s.mem (V2P (P2V pa)) PGSIZE 1, P2V pa :: s.freelist, s.cr3⟩ := by
  have hv := kpage_P2V hal hf.phys
  have hphys := UInt32.lt_iff_toNat_lt.mp hf.phys
  have habove := UInt32.le_iff_toNat_le.mp hf.above
  have hcheck : ¬(P2V pa % PGSIZE ≠ 0 ∨ P2V pa < img.kend ∨ V2P (P2V pa) ≥ PHYSTOP) := by
    rw [V2P_P2V, UInt32.lt_iff_toNat_lt, ge_iff_le, UInt32.le_iff_toNat_le]
    refine not_or.mpr ⟨not_not.mpr (UInt32.toNat_inj.mp ?_), not_or.mpr ⟨by omega, by omega⟩⟩
    rw [UInt32.toNat_mod]
    exact hv.1
  -- `kfree`'s body, with the fields of `memset` read off one by one
  have hbody : kfree img s (P2V pa) =
      some ⟨(memset s (P2V pa) 1 PGSIZE).mem, P2V pa :: (memset s (P2V pa) 1 PGSIZE).freelist,
        (memset s (P2V pa) 1 PGSIZE).cr3⟩ := by
    unfold kfree
    exact if_neg hcheck
  rw [hbody, memset_mem, memset_freelist, memset_cr3]

theorem deallocPage_mapped (hd : UserDir img pgdir s) (hka : a < KERNBASE)
    (hpde : pde s pgdir (PDX a) &&& PTE_P ≠ 0) (hpte : pteOf s pgdir a &&& PTE_P ≠ 0) :
    deallocPage img pgdir s a =
      some (unmapPage s (table s pgdir (PDX a)) (PTX a) (PTE_ADDR (pteOf s pgdir a)), a) := by
  obtain ⟨ht, -⟩ := hd.tables (PDX a) (PDX_lt a) hpde
  have hent := direct_entry ht (PTX a) (PTX_lt a)
  have hf := hd.pages a hka hpte
  have hal : (PTE_ADDR (pteOf s pgdir a)).toNat % 4096 = 0 := by
    rw [toNat_PTE_ADDR]
    omega
  rw [pteOf_present hpde] at hpte hf hal ⊢
  rw [deallocPage, walkpgdir_table hd.kpage hpde, Option.bind_some]
  dsimp only
  rw [if_neg (ne_zero_of_direct hent.1), kload32_of_direct hent.1, hent.2, Option.bind_some, if_neg hpte,
    if_neg hf.ne_zero, kfree_of_freeable hal hf, Option.bind_some, kstore32_of_direct hent.1, hent.2,
    Option.map_some]
  rfl

theorem deallocPage_freed (hd : UserDir img pgdir s) (hka : a < KERNBASE)
    (hpde : pde s pgdir (PDX a) &&& PTE_P ≠ 0) (hpte : pteOf s pgdir a &&& PTE_P ≠ 0) :
    ∃ s₁, deallocPage img pgdir s a = some (s₁, a) ∧
      Freed img pgdir s s₁ (a.toNat / 4096) (a.toNat / 4096 + 1) := by
  refine ⟨_, deallocPage_mapped hd hka hpde hpte, ?_⟩
  obtain ⟨ht, htne⟩ := hd.tables (PDX a) (PDX_lt a) hpde
  have hf := hd.pages a hka hpte
  have hv : KPage (P2V (PTE_ADDR (pteOf s pgdir a))) :=
    kpage_P2V (by rw [toNat_PTE_ADDR]; omega) hf.phys
  have hka' : a.toNat < 2 ^ 31 := UInt32.lt_iff_toNat_lt.mp hka
  -- the directory's entries stay
  have hpdes : ∀ i : UInt32, i.toNat < 1024 →
      pde (unmapPage s (table s pgdir (PDX a)) (PTX a) (PTE_ADDR (pteOf s pgdir a))) pgdir i = pde s pgdir i :=
    fun i hi => load32_unmapPage hd.kpage ht hv hf.ne_dir.symm hi (PTX_lt a) (Or.inl htne)
  -- the PTE of `a`'s page is cleared, and every other PTE stays
  have hptes : ∀ va : UInt32,
      pteOf (unmapPage s (table s pgdir (PDX a)) (PTX a) (PTE_ADDR (pteOf s pgdir a))) pgdir va =
        if a.toNat / 4096 ≤ va.toNat / 4096 ∧ va.toNat / 4096 < a.toNat / 4096 + 1 ∧
          pteOf s pgdir va &&& PTE_P ≠ 0 then 0 else pteOf s pgdir va := by
    intro va
    by_cases hpd : pde s pgdir (PDX va) &&& PTE_P = 0
    · have hpd' := hpd
      rw [← hpdes (PDX va) (PDX_lt va)] at hpd'
      rw [pteOf_absent hpd', pteOf_absent hpd]
      simp
    · have hpd' : pde (unmapPage s (table s pgdir (PDX a)) (PTX a) (PTE_ADDR (pteOf s pgdir a))) pgdir (PDX va)
          &&& PTE_P ≠ 0 := by
        rw [hpdes (PDX va) (PDX_lt va)]
        exact hpd
      obtain ⟨ht', -⟩ := hd.tables (PDX va) (PDX_lt va) hpd
      rw [pteOf_present hpd', table_congr (hpdes (PDX va) (PDX_lt va))]
      by_cases hpage : va.toNat / 4096 = a.toNat / 4096
      · -- `a`'s page: its entry now reads `0`
        obtain ⟨hdx, htx⟩ := PDX_PTX_of_page hpage
        rw [if_pos ⟨le_of_eq hpage.symm, by omega, by rw [pteOf_congr_page hpage]; exact hpte⟩, hdx, htx]
        exact load32_store32_self _ _ _
      · -- another page: another entry, of a table that is not the freed page
        have hother : table s pgdir (PDX a) ≠ table s pgdir (PDX va) ∨ PTX a ≠ PTX va := by
          rcases PDX_PTX_of_page_ne (Ne.symm hpage) with hdx | htx
          · exact .inl fun heq => hdx (hd.tables_inj _ _ (PDX_lt a) (PDX_lt va) hpde hpd heq)
          · exact .inr htx
        rw [if_neg fun h => hpage (by omega), load32_unmapPage ht' ht hv (hf.ne_table _ (PDX_lt va) hpd).symm
          (PTX_lt va) (PTX_lt a) hother]
        exact (pteOf_present hpd).symm
  have hone : freedPages s pgdir (a.toNat / 4096) (a.toNat / 4096 + 1) = [P2V (PTE_ADDR (pteOf s pgdir a))] := by
    have hpage : (UInt32.ofNat (4096 * (a.toNat / 4096))).toNat / 4096 = a.toNat / 4096 := by
      rw [toNat_page (by omega)]
      omega
    rw [freedPages, Nat.add_sub_cancel_left, List.range'_one, List.filterMap_cons, List.filterMap_nil,
      pteOf_congr_page hpage, if_pos hpte]
  refine ⟨hd.congr hpdes fun va hp => ?_, hpdes, hptes, by rw [hone]; rfl⟩
  rw [hptes va] at hp ⊢
  split_ifs at hp ⊢ with hin
  · exact absurd hp (by decide)
  · rfl

end Turn

/-!
## The loop, on a directory it can take apart
-/

section Loop

variable {img : Image} {pgdir oldsz : UInt32}

theorem freed_of_ge {s : Machine} {a : UInt32} (hd : UserDir img pgdir s) (hold : oldsz ≤ KERNBASE)
    (ha : a.toNat % 4096 = 0) (hge : ¬a < oldsz) :
    Freed img pgdir s s (a.toNat / 4096) ((oldsz.toNat + 4095) / 4096) := by
  have hold' := UInt32.le_iff_toNat_le.mp hold
  have hge' : oldsz.toNat ≤ a.toNat := Nat.le_of_not_lt fun h => hge (UInt32.lt_iff_toNat_lt.mpr h)
  simp only [KERNBASE, UInt32.reduceToNat] at hold'
  exact Freed.of_unmapped hd (by omega) fun va hlo hhi => absurd hhi (by omega)

theorem deallocLoop_freed (hold : oldsz ≤ KERNBASE) :
    ∀ (fuel : Nat) (s : Machine) (a : UInt32), UserDir img pgdir s → a.toNat % 4096 = 0 →
      pagesUpTo a oldsz ≤ fuel →
      ∃ s', deallocLoop img pgdir oldsz fuel s a = some s' ∧
        Freed img pgdir s s' (a.toNat / 4096) ((oldsz.toNat + 4095) / 4096) := by
  have hold' : oldsz.toNat ≤ 2 ^ 31 := UInt32.le_iff_toNat_le.mp hold
  have hhi : (oldsz.toNat + 4095) / 4096 ≤ 2 ^ 20 := by omega
  intro fuel
  induction fuel with
  | zero =>
      intro s a hd ha hfuel
      have hge : ¬a < oldsz := by
        rw [UInt32.lt_iff_toNat_lt]
        unfold pagesUpTo at hfuel
        omega
      exact ⟨s, deallocLoop_of_ge hge, freed_of_ge hd hold ha hge⟩
  | succ fuel ih =>
      intro s a hd ha hfuel
      by_cases hlt : a < oldsz
      · have hlt' : a.toNat < oldsz.toNat := UInt32.lt_iff_toNat_lt.mp hlt
        have hka' : a.toNat < 2 ^ 31 := by omega
        have hka : a < KERNBASE := UInt32.lt_iff_toNat_lt.mpr hka'
        rw [deallocLoop, if_pos hlt]
        by_cases hpde : pde s pgdir (PDX a) &&& PTE_P = 0
        · -- no page table: on to the next region, whose pages up to it are all unmapped
          rw [deallocPage_absent hd.kpage hpde, Option.bind_some]
          dsimp only
          rw [UInt32.sub_add_cancel]
          have hnext := toNat_PGADDR_next hka'
          have hskip : ∀ va : UInt32, a.toNat / 4096 ≤ va.toNat / 4096 →
              va.toNat / 4096 < (PGADDR (PDX a + 1) 0 0).toNat / 4096 → pteOf s pgdir va &&& PTE_P = 0 := by
            intro va hlo hup
            have hdx : PDX va = PDX a := UInt32.toNat_inj.mp (by rw [toNat_PDX, toNat_PDX]; omega)
            rw [pteOf_absent (by rw [hdx]; exact hpde)]
            rfl
          by_cases hend : PGADDR (PDX a + 1) 0 0 < oldsz
          · have hend' := UInt32.lt_iff_toNat_lt.mp hend
            obtain ⟨s', hrun, hfreed⟩ := ih s _ hd (by rw [hnext]; omega)
              (by
                have : pagesUpTo (PGADDR (PDX a + 1) 0 0) oldsz < pagesUpTo a oldsz :=
                  pagesUpTo_next hlt (by rw [hnext]; omega)
                omega)
            exact ⟨s', hrun, (Freed.of_unmapped hd (by omega) hskip).trans hfreed (by rw [hnext]; omega)
              (by omega) hhi⟩
          · have hend' : oldsz.toNat ≤ (PGADDR (PDX a + 1) 0 0).toNat :=
              Nat.le_of_not_lt fun h => hend (UInt32.lt_iff_toNat_lt.mpr h)
            exact ⟨s, deallocLoop_of_ge hend, Freed.of_unmapped hd hhi fun va hlo hup => hskip va hlo (by omega)⟩
        · have hnext := toNat_add_PGSIZE hka'
          have hfuel' : pagesUpTo (a + PGSIZE) oldsz ≤ fuel := by
            have : pagesUpTo (a + PGSIZE) oldsz < pagesUpTo a oldsz := pagesUpTo_next hlt (by rw [hnext])
            omega
          by_cases hpte : pteOf s pgdir a &&& PTE_P = 0
          · -- a page table, but no page at `a`
            rw [deallocPage_unmapped hd hpde hpte, Option.bind_some]
            dsimp only
            obtain ⟨s', hrun, hfreed⟩ := ih s (a + PGSIZE) hd (by rw [hnext]; omega) hfuel'
            rw [hnext, show (a.toNat + 4096) / 4096 = a.toNat / 4096 + 1 by omega] at hfreed
            have hone : Freed img pgdir s s (a.toNat / 4096) (a.toNat / 4096 + 1) :=
              Freed.of_unmapped hd (by omega) fun va hlo hup => by
                rw [pteOf_congr_page (show va.toNat / 4096 = a.toNat / 4096 by omega)]
                exact hpte
            exact ⟨s', hrun, hone.trans hfreed (by omega) (by omega) hhi⟩
          · -- a page at `a`: freed, and its PTE cleared
            obtain ⟨s₁, hdp, hone⟩ := deallocPage_freed hd hka hpde hpte
            rw [hdp, Option.bind_some]
            dsimp only
            obtain ⟨s', hrun, hfreed⟩ := ih s₁ (a + PGSIZE) hone.dir (by rw [hnext]; omega) hfuel'
            rw [hnext, show (a.toNat + 4096) / 4096 = a.toNat / 4096 + 1 by omega] at hfreed
            exact ⟨s', hrun, hone.trans hfreed (by omega) (by omega) hhi⟩
      · exact ⟨s, deallocLoop_of_ge hlt, freed_of_ge hd hold ha hlt⟩

end Loop

/-!
## `deallocuvm`
-/

section Dealloc

variable {img : Image} {s : Machine} {pgdir oldsz newsz : UInt32}

theorem toNat_PGROUNDUP_of_le (h : newsz.toNat < 2 ^ 31) :
    (PGROUNDUP newsz).toNat = (newsz.toNat + 4095) / 4096 * 4096 := by
  rw [toNat_PGROUNDUP]
  omega

theorem deallocuvm_of_lt (hlt : newsz < oldsz) :
    deallocuvm img s pgdir oldsz newsz =
      (deallocLoop img pgdir oldsz (pagesUpTo (PGROUNDUP newsz) oldsz) s (PGROUNDUP newsz)).map fun s => (s, newsz) := by
  have hlt' := UInt32.lt_iff_toNat_lt.mp hlt
  rw [deallocuvm, if_neg (by rw [ge_iff_le, UInt32.le_iff_toNat_le]; omega)]

theorem deallocuvm_terminates (hlt : newsz < oldsz) (hold : oldsz ≤ KERNBASE) :
    (∃ s', deallocuvm img s pgdir oldsz newsz = some (s', newsz)) ∨
      ∃ x, Relation.ReflTransGen (Turn img pgdir oldsz) (s, PGROUNDUP newsz) x ∧ x.2 < oldsz ∧
        deallocPage img pgdir x.1 x.2 = none := by
  have hlt' := UInt32.lt_iff_toNat_lt.mp hlt
  have hold' := UInt32.le_iff_toNat_le.mp hold
  simp only [KERNBASE, UInt32.reduceToNat] at hold'
  rw [deallocuvm_of_lt hlt]
  rcases deallocLoop_terminates hold _ s (PGROUNDUP newsz)
      (by rw [toNat_PGROUNDUP_of_le (by omega)]; omega) le_rfl with ⟨s', hrun⟩ | hpanic
  · exact .inl ⟨s', by rw [hrun, Option.map_some]⟩
  · exact .inr hpanic

/-- `deallocuvm` on a directory it can take apart frees exactly the pages of
the present PTEs in `[PGROUNDUP(newsz), oldsz)`, clears exactly those PTEs and
returns `newsz`. -/
theorem deallocuvm_freed (hd : UserDir img pgdir s) (hlt : newsz < oldsz) (hold : oldsz ≤ KERNBASE) :
    ∃ s', deallocuvm img s pgdir oldsz newsz = some (s', newsz) ∧
      Freed img pgdir s s' ((newsz.toNat + 4095) / 4096) ((oldsz.toNat + 4095) / 4096) := by
  have hlt' := UInt32.lt_iff_toNat_lt.mp hlt
  have hold' := UInt32.le_iff_toNat_le.mp hold
  simp only [KERNBASE, UInt32.reduceToNat] at hold'
  have hup : (PGROUNDUP newsz).toNat = (newsz.toNat + 4095) / 4096 * 4096 := toNat_PGROUNDUP_of_le (by omega)
  obtain ⟨s', hrun, hfreed⟩ := deallocLoop_freed hold _ s (PGROUNDUP newsz) hd (by rw [hup]; omega) le_rfl
  rw [hup, Nat.mul_div_cancel _ (by decide)] at hfreed
  exact ⟨s', by rw [deallocuvm_of_lt hlt, hrun, Option.map_some], hfreed⟩

theorem deallocuvm_unmaps_range (hlt : newsz < oldsz) (hold : oldsz ≤ KERNBASE) :
    ((∃ s', deallocuvm img s pgdir oldsz newsz = some (s', newsz)) ∨
      ∃ x, Relation.ReflTransGen (Turn img pgdir oldsz) (s, PGROUNDUP newsz) x ∧ x.2 < oldsz ∧
        deallocPage img pgdir x.1 x.2 = none) ∧
    (UserDir img pgdir s → ∃ s', deallocuvm img s pgdir oldsz newsz = some (s', newsz) ∧
      Freed img pgdir s s' ((newsz.toNat + 4095) / 4096) ((oldsz.toNat + 4095) / 4096)) :=
  ⟨deallocuvm_terminates hlt hold, fun hd => deallocuvm_freed hd hlt hold⟩

/-!
## The first process's directory
-/

theorem load32_initMem {a : UInt32} (ha : a.toNat % 4 = 0) :
    load32 initMem a = if a = 0x2000 then 0x3007 else if a = 0x3000 then 0x4007 else 0 := by
  by_cases h2 : a = 0x2000
  · subst h2
    decide
  by_cases h3 : a = 0x3000
  · subst h3
    decide
  rw [if_neg h2, if_neg h3]
  -- no byte of the word is one of the four that `initMem` sets
  have hbyte : ∀ j : UInt32, j.toNat < 4 → initMem (a + j) = 0 := by
    intro j hj
    have hne : ∀ c : UInt32, c.toNat % 4 = 0 → a ≠ c → ∀ i : UInt32, i.toNat < 4 → a + j ≠ c + i :=
      fun c hc hac i hi => add_ne_add_of_aligned hc ha (Ne.symm hac) hi hj
    have h20 : a + j ≠ 0x2000 := by simpa using hne 0x2000 (by decide) h2 0 (by decide)
    have h21 : a + j ≠ 0x2001 := hne 0x2000 (by decide) h2 1 (by decide)
    have h30 : a + j ≠ 0x3000 := by simpa using hne 0x3000 (by decide) h3 0 (by decide)
    have h31 : a + j ≠ 0x3001 := hne 0x3000 (by decide) h3 1 (by decide)
    simp only [initMem, if_neg h20, if_neg h21, if_neg h30, if_neg h31]
  exact load32_eq_zero ⟨by simpa using hbyte 0 (by decide), hbyte 1 (by decide), hbyte 2 (by decide),
    hbyte 3 (by decide)⟩

theorem load32_initMem_slot {p i : UInt32} (hp : p = 0x80002000 ∨ p = 0x80003000) (hi : i.toNat < 1024) :
    load32 initMem (slot p i) = if i = 0 then (if p = 0x80002000 then 0x3007 else 0x4007) else 0 := by
  have hkp : KPage p := by rcases hp with rfl | rfl <;> decide
  have hdir : KPage 0x80002000 := by decide
  have htab : KPage 0x80003000 := by decide
  rw [load32_initMem (slot_aligned hkp hi)]
  by_cases h0 : i = 0
  · subst h0
    rcases hp with rfl | rfl <;> decide
  · -- entry `i` of either page is neither word set
    have h2 : slot p i ≠ slot 0x80002000 0 := slot_ne hkp hdir hi (by decide) (.inr h0)
    have h3 : slot p i ≠ slot 0x80003000 0 := slot_ne hkp htab hi (by decide) (.inr h0)
    rw [show slot 0x80002000 0 = 0x2000 by decide] at h2
    rw [show slot 0x80003000 0 = 0x3000 by decide] at h3
    rw [if_neg h2, if_neg h3, if_neg h0]

theorem pde_initMachine {i : UInt32} (hi : i.toNat < 1024) :
    pde initMachine 0x80002000 i = if i = 0 then 0x3007 else 0 :=
  load32_initMem_slot (.inl rfl) hi

theorem pteOf_initMachine (va : UInt32) :
    pteOf initMachine 0x80002000 va = if PDX va = 0 ∧ PTX va = 0 then 0x4007 else 0 := by
  have hd : (PDX va).toNat < 1024 := by
    rw [toNat_PDX]
    have := va.toNat_lt
    omega
  have ht : (PTX va).toNat < 1024 := by
    rw [toNat_PTX]
    omega
  unfold pteOf
  rw [pde_initMachine hd]
  by_cases h0 : PDX va = 0
  · have htab : table initMachine 0x80002000 (PDX va) = 0x80003000 := by
      rw [table, pde_initMachine hd, if_pos h0]
      decide
    rw [if_pos h0, if_pos (by decide), htab, show initMachine.mem = initMem from rfl,
      load32_initMem_slot (.inr rfl) ht]
    by_cases h1 : PTX va = 0
    · rw [if_pos h1, if_pos (show PDX va = 0 ∧ PTX va = 0 from ⟨h0, h1⟩)]
      decide
    · rw [if_neg h1, if_neg fun h => h1 h.2]
  · rw [if_neg h0, if_neg (by decide), if_neg fun h => h0 h.1]

theorem userDir_initMachine : UserDir initImage 0x80002000 initMachine := by
  -- entry `0` is the only present entry, and names the table at `0x80003000`
  have hpres : ∀ i : UInt32, i.toNat < 1024 → pde initMachine 0x80002000 i &&& PTE_P ≠ 0 → i = 0 := by
    intro i hi h
    rw [pde_initMachine hi] at h
    by_contra h0
    rw [if_neg h0] at h
    exact h (by decide)
  have htab : table initMachine 0x80002000 0 = 0x80003000 := by
    rw [table, pde_initMachine (by decide), if_pos rfl]
    decide
  refine ⟨by decide, fun i hi h => ?_, fun i j hi hj h h' _ => (hpres i hi h).trans (hpres j hj h').symm,
    fun va _ h => ?_⟩
  · rw [hpres i hi h, htab]
    decide
  · have hpte : pteOf initMachine 0x80002000 va = 0x4007 := by
      rw [pteOf_initMachine] at h ⊢
      split
      · rfl
      · rw [if_neg (by assumption)] at h
        exact absurd rfl h
    rw [hpte]
    refine ⟨by decide, by decide, by decide, by decide, fun i hi h => ?_⟩
    rw [hpres i hi h, htab]
    decide

theorem deallocuvm_unmaps_range_of_init :
    (0 : UInt32) < 0x1000 ∧ (0x1000 : UInt32) ≤ KERNBASE ∧ UserDir initImage 0x80002000 initMachine ∧
      ∃ s', deallocuvm initImage initMachine 0x80002000 0x1000 0 = some (s', 0) ∧
        pteOf initMachine 0x80002000 0 = 0x4007 ∧ pteOf s' 0x80002000 0 = 0 ∧
        s'.freelist = 0x80004000 :: initMachine.freelist := by
  have hlt : (0 : UInt32) < 0x1000 := by decide
  have hle : (0x1000 : UInt32) ≤ KERNBASE := by decide
  obtain ⟨s', hrun, hfreed⟩ := (deallocuvm_unmaps_range hlt hle).2 userDir_initMachine
  have hpte : pteOf initMachine 0x80002000 0 = 0x4007 := by
    rw [pteOf_initMachine]
    decide
  -- the one present PTE of page `0` is cleared and its page freed
  refine ⟨hlt, hle, userDir_initMachine, s', hrun, hpte, ?_, ?_⟩
  · rw [hfreed.pte, if_pos ⟨by decide, by decide, by rw [hpte]; decide⟩]
  · rw [hfreed.freelist]
    decide

/-- A directory whose page `0` maps its own page table, at physical
`0x3000`: the directory at physical `0x2000` has entry `0` for that table, and
the table has entry `0` for itself, with `PTE_P | PTE_W | PTE_U`. -/
def selfMapMem : Mem := fun a =>
  if a = 0x2000 then 0x07 else if a = 0x2001 then 0x30
  else if a = 0x3000 then 0x07 else if a = 0x3001 then 0x30 else 0

def selfMapMachine : Machine :=
  ⟨selfMapMem, [], 0x2000⟩

theorem deallocuvm_remaps_own_table :
    pteOf selfMapMachine 0x80002000 0x1000 = 0 ∧
    (deallocuvm initImage selfMapMachine 0x80002000 0x1000 0).map (fun r => (pteOf r.1 0x80002000 0x1000, r.2)) =
      some (0x01010101, 0) := by
  constructor <;> decide

end Dealloc

end Vm

end Xv6
