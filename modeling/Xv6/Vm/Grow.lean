import Xv6.Vm.Copyout

/-!
# Growing and shrinking a process

`growproc(n)` moves the size of the current process by `n` bytes with
`allocuvm` or `deallocuvm`, and takes a result of `0` from either for a
failure.  `deallocuvm` returns the new size, and the new size of
`sbrk(-sz)` is `0`: every page is freed and unmapped, and `growproc` returns
`-1` with `sz` as it was.  The process is then left with a size whose pages
are gone.
-/

namespace Xv6

namespace Vm

open ByteMem

/-- `growproc(n)` for the current process, with page directory `pgdir` and
size `sz`: the machine, the process's `sz` after, and what it returns.
`switchuvm` loads `%cr3` with the process's directory. -/
def growproc (img : Image) (s : Machine) (pgdir sz : UInt32) (n : Int) : Option (Machine × UInt32 × Int) :=
  if n > 0 then
    (allocuvm img s pgdir sz (sz + UInt32.ofInt n)).map fun (s', sz') =>
      if sz' = 0 then (s', sz, -1) else ({ s' with cr3 := V2P pgdir }, sz', 0)
  else if n < 0 then
    (deallocuvm img s pgdir sz (sz + UInt32.ofInt n)).map fun (s', sz') =>
      if sz' = 0 then (s', sz, -1) else ({ s' with cr3 := V2P pgdir }, sz', 0)
  else some ({ s with cr3 := V2P pgdir }, sz, 0)

variable {img : Image} {s s₁ s₂ : Machine} {pgdir sz pte e : UInt32}

theorem add_ofInt_neg_toNat (sz : UInt32) : sz + UInt32.ofInt (-(sz.toNat : Int)) = 0 := by
  apply UInt32.toNat_inj.mp
  have h := sz.toNat_lt
  rw [UInt32.toNat_add, UInt32.ofInt, UInt32.toNat_ofNat']
  simp only [Int.reducePow, Nat.reducePow, Nat.add_mod_mod, UInt32.toNat_zero]
  omega

theorem pagesUpTo_zero_of_le (hsz : sz.toNat ≤ 4096) (hpos : 0 < sz.toNat) : pagesUpTo (PGROUNDUP 0) sz = 1 := by
  have h0 : PGROUNDUP 0 = 0 := by decide
  rw [pagesUpTo, h0]
  simp only [UInt32.toNat_zero, Nat.sub_zero]
  omega

theorem deallocPage_present (hpg : KPage pgdir) (hpde : load32 s.mem (V2P pgdir + 4 * PDX 0) &&& PTE_P ≠ 0)
    (hpte : P2V (PTE_ADDR (load32 s.mem (V2P pgdir + 4 * PDX 0))) + 4 * PTX 0 = pte) (hpte0 : pte ≠ 0)
    (he : kload32 s pte = some e) (hP : e &&& PTE_P ≠ 0) (hpa : PTE_ADDR e ≠ 0)
    (hfree : kfree img s (P2V (PTE_ADDR e)) = some s₁) (hclear : kstore32 s₁ pte 0 = some s₂) :
    deallocPage img pgdir s 0 = some (s₂, 0) := by
  rw [deallocPage, walkpgdir_present hpg hpde, hpte, Option.bind_some]
  dsimp only
  rw [if_neg hpte0, he, Option.bind_some, if_neg hP, if_neg hpa, hfree, Option.bind_some, hclear,
    Option.map_some]

/-- `sbrk(-sz)` from a process of one page, whose page `0` is present:
`deallocuvm` frees the page and clears its PTE, then returns the new size
`0`, which `growproc` takes for a failure: it returns `-1` and keeps `sz`. -/
theorem growproc_shrink_to_zero (hpg : KPage pgdir) (hpos : 0 < sz.toNat) (hsz : sz.toNat ≤ 4096)
    (hpde : load32 s.mem (V2P pgdir + 4 * PDX 0) &&& PTE_P ≠ 0)
    (hpte : P2V (PTE_ADDR (load32 s.mem (V2P pgdir + 4 * PDX 0))) + 4 * PTX 0 = pte) (hpte0 : pte ≠ 0)
    (he : kload32 s pte = some e) (hP : e &&& PTE_P ≠ 0) (hpa : PTE_ADDR e ≠ 0)
    (hfree : kfree img s (P2V (PTE_ADDR e)) = some s₁) (hclear : kstore32 s₁ pte 0 = some s₂) :
    growproc img s pgdir sz (-(sz.toNat : Int)) = some (s₂, sz, -1) := by
  have hneg : ¬(-(sz.toNat : Int)) > 0 := by omega
  have hlt : (-(sz.toNat : Int)) < 0 := by omega
  have h0 : PGROUNDUP 0 = 0 := by decide
  have hzero : ¬(0 : UInt32) ≥ sz := by
    rw [ge_iff_le, UInt32.le_iff_toNat_le, UInt32.toNat_zero]
    omega
  have hend : ¬(0 + PGSIZE : UInt32) < sz := by
    rw [UInt32.lt_iff_toNat_lt]
    simp only [PGSIZE, UInt32.reduceAdd, UInt32.reduceToNat]
    omega
  have hstart : (0 : UInt32) < sz := by
    rw [UInt32.lt_iff_toNat_lt, UInt32.toNat_zero]
    exact hpos
  -- one turn of the loop, at page `0`, which is `PGROUNDUP(0)`
  have hloop : deallocLoop img pgdir sz 1 s (PGROUNDUP 0) = some s₂ := by
    rw [h0, deallocLoop, if_pos hstart, deallocPage_present hpg hpde hpte hpte0 he hP hpa hfree hclear,
      Option.bind_some]
    dsimp only
    rw [deallocLoop, if_neg hend]
  rw [growproc, if_neg hneg, if_pos hlt, add_ofInt_neg_toNat, deallocuvm, if_neg hzero]
  dsimp only
  rw [pagesUpTo_zero_of_le hsz hpos, hloop, Option.map_some, Option.map_some]
  rfl

/-- The first process as `userinit` leaves it, in the words `growproc`
reads: its directory at kernel address `0x80002000` maps virtual page `0`
through a page table at physical `0x3000` to the page at physical `0x4000`,
with `PTE_W | PTE_U`; its size is one page. -/
def initMem : Mem := fun a =>
  if a = 0x2000 then 0x07 else if a = 0x2001 then 0x30
  else if a = 0x3000 then 0x07 else if a = 0x3001 then 0x40 else 0

def initMachine : Machine :=
  ⟨initMem, [0x80005000], 0x2000⟩

/-- The kernel ends below the pages the allocator handed out. -/
def initImage : Image :=
  ⟨0x80001000, 0x80002000⟩

/-- `sbrk(-4096)` from the first process: its only page is freed and its PTE
cleared, yet `growproc` returns `-1` and the size stays one page. -/
theorem sbrk_whole_size_frees_yet_fails :
    kload32 initMachine 0x80003000 = some 0x4007 ∧
      ∃ s', growproc initImage initMachine 0x80002000 0x1000 (-4096) = some (s', 0x1000, -1) ∧
        s'.freelist = 0x80004000 :: initMachine.freelist ∧ kload32 s' 0x80003000 = some 0 := by
  have he : kload32 initMachine 0x80003000 = some 0x4007 := by decide
  have hpage : P2V (PTE_ADDR 0x4007) = 0x80004000 := by decide
  have hfree : kfree initImage initMachine (P2V (PTE_ADDR 0x4007)) =
      some { memset initMachine 0x80004000 1 PGSIZE with freelist := 0x80004000 :: initMachine.freelist } := by
    rw [hpage, kfree, if_neg (by decide)]
    rfl
  have hdirect : Direct 0x80003000 := by decide
  have hpg : KPage 0x80002000 := by decide
  have hpos : 0 < (0x1000 : UInt32).toNat := by decide
  have hn : (-((0x1000 : UInt32).toNat : Int)) = -4096 := by decide
  have hrun := growproc_shrink_to_zero hpg hpos (by decide) (by decide) (by decide) (by decide) he
    (by decide) (by decide) hfree (kstore32_of_direct hdirect 0)
  rw [hn] at hrun
  refine ⟨he, _, hrun, rfl, ?_⟩
  rw [kload32_of_direct hdirect, load32_store32_self]

end Vm

end Xv6
