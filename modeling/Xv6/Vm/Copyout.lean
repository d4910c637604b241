import Xv6.Vm.Basic

/-!
# Copying out through a missing page table

`copyout(pgdir, va, p, len)` finds the kernel address of each page of the
destination with `uva2ka`, which dereferences the pointer that
`walkpgdir(pgdir, va, 0)` returns without checking it.  When `pgdir` has no
page table for `va`, that pointer is `0`, and the kernel reads the PTE it acts
on from virtual address `0` of the address space it runs in: during `exec`,
the user memory of the calling process.  A word there with `PTE_P` and `PTE_U`
set sends the copy to the physical page it names, which `pgdir` does not map.

The page directories `setupkvm` builds have no page table between
`P2V(PHYSTOP)` and `DEVSPACE`, and `exec` reaches that range when a long
argument string makes its stack pointer wrap below `0`.
-/

namespace Xv6

namespace Vm

open ByteMem

variable {s : Machine} {pgdir va : UInt32}

theorem kload32_pde (hpg : KPage pgdir) (va : UInt32) :
    kload32 s (pgdir + 4 * PDX va) = some (load32 s.mem (V2P pgdir + 4 * PDX va)) := by
  have hidx : (4 * PDX va).toNat < 4096 := by
    rw [UInt32.toNat_mul, toNat_PDX]
    have := va.toNat_lt
    simp only [UInt32.reduceToNat]
    omega
  rw [kload32_of_direct (direct_of_kpage hpg hidx), V2P_add]

theorem walkpgdir_absent (hpg : KPage pgdir)
    (hpde : load32 s.mem (V2P pgdir + 4 * PDX va) &&& PTE_P = 0) :
    walkpgdir s pgdir va false = some (s, 0) := by
  rw [walkpgdir, kload32_pde hpg, Option.bind_some, if_neg (not_not.mpr hpde)]
  rfl

theorem walkpgdir_present (hpg : KPage pgdir)
    (hpde : load32 s.mem (V2P pgdir + 4 * PDX va) &&& PTE_P ≠ 0) (alloc : Bool) :
    walkpgdir s pgdir va alloc =
      some (s, P2V (PTE_ADDR (load32 s.mem (V2P pgdir + 4 * PDX va))) + 4 * PTX va) := by
  rw [walkpgdir, kload32_pde hpg, Option.bind_some, if_pos hpde]

theorem uva2ka_absent (hpg : KPage pgdir)
    (hpde : load32 s.mem (V2P pgdir + 4 * PDX va) &&& PTE_P = 0) :
    uva2ka s pgdir va = (kload32 s 0).map fun e =>
      if e &&& PTE_P = 0 then 0 else if e &&& PTE_U = 0 then 0 else P2V (PTE_ADDR e) := by
  rw [uva2ka, walkpgdir_absent hpg hpde, Option.bind_some]

theorem copyoutLoop_nil (fuel : Nat) (s : Machine) (va : UInt32) :
    copyoutLoop pgdir fuel s va [] = some (s, 0) := by
  cases fuel with
  | zero => rfl
  | succ fuel => rfl

theorem memmove_P2V {w off : UInt32} {bs : List UInt8} (hphys : PTE_ADDR w < PHYSTOP)
    (hfit : off.toNat + bs.length ≤ 4096) :
    memmove s (P2V (PTE_ADDR w) + off) bs =
      some { s with mem := writeBytes s.mem (PTE_ADDR w + off) bs } := by
  have hlt : (PTE_ADDR w).toNat < 0xE000000 := UInt32.lt_iff_toNat_lt.mp hphys
  have halign := toNat_PTE_ADDR w
  rw [memmove_of_direct, V2P_add, V2P_P2V]
  intro i hi
  rw [direct_iff, UInt32.toNat_add, UInt32.toNat_add, P2V, UInt32.toNat_add]
  simp only [KERNBASE, UInt32.reduceToNat]
  omega

/-- `copyout` of a buffer that fits in the page of `va`, where `pgdir` has no
page table: it reports success, and the bytes land in the physical page that
the word at virtual address `0` of the running address space names, while
`pgdir` gives the user no page at `va`. -/
theorem copyout_writes_through_null_pte {w : UInt32} {buf : List UInt8} (hpg : KPage pgdir)
    (hpde : load32 s.mem (V2P pgdir + 4 * PDX va) &&& PTE_P = 0)
    (hw : kload32 s 0 = some w) (hP : w &&& PTE_P ≠ 0) (hU : w &&& PTE_U ≠ 0)
    (hphys : PTE_ADDR w < PHYSTOP) (hlen : 0 < buf.length)
    (hfit : buf.length ≤ (PGSIZE - (va - PGROUNDDOWN va)).toNat) :
    translate s.mem (V2P pgdir) va false true = none ∧
      copyout s pgdir va buf =
        some ({ s with mem := writeBytes s.mem (PTE_ADDR w + (va - PGROUNDDOWN va)) buf }, 0) := by
  refine ⟨?_, ?_⟩
  · -- the user's own walk stops at the missing page table
    simp [translate, permits, hpde]
  · have hpde0 : load32 s.mem (V2P pgdir + 4 * PDX (PGROUNDDOWN va)) &&& PTE_P = 0 := by
      rw [PDX_PGROUNDDOWN]
      exact hpde
    have hpa : uva2ka s pgdir (PGROUNDDOWN va) = some (P2V (PTE_ADDR w)) := by
      rw [uva2ka_absent hpg hpde0, hw, Option.map_some, if_neg hP, if_neg hU]
    have hne : P2V (PTE_ADDR w) ≠ 0 := ne_zero_of_direct (direct_P2V hphys)
    -- the whole buffer fits in the first page: one turn of the loop copies it
    have hroom : (va - PGROUNDDOWN va).toNat + (PGSIZE - (va - PGROUNDDOWN va)).toNat = 4096 := by
      rw [UInt32.toNat_sub (PGSIZE), toNat_sub_PGROUNDDOWN]
      simp only [PGSIZE, UInt32.reduceToNat]
      omega
    have hn : (if (PGSIZE - (va - PGROUNDDOWN va)).toNat > buf.length then buf.length
        else (PGSIZE - (va - PGROUNDDOWN va)).toNat) = buf.length := by
      split <;> omega
    obtain ⟨k, hk⟩ : ∃ k, buf.length = k + 1 := ⟨buf.length - 1, by omega⟩
    rw [copyout, hk, copyoutLoop, if_neg (by omega)]
    dsimp only
    rw [hpa, Option.bind_some, if_neg hne, hn, List.take_length, List.drop_length,
      memmove_P2V hphys (by omega), Option.bind_some, copyoutLoop_nil]

/-- The running address space maps virtual page `0` through a page table at
physical `0x3000` to the page at physical `0x4000`, whose first word is
`0x00001007`; the page directory at kernel address `0x80005000` is empty. -/
def nullPteMem : Mem := fun a =>
  if a = 0x2000 then 0x07 else if a = 0x2001 then 0x30
  else if a = 0x3000 then 0x07 else if a = 0x3001 then 0x40
  else if a = 0x4000 then 0x07 else if a = 0x4001 then 0x10 else 0

def nullPteMachine : Machine :=
  ⟨nullPteMem, [], 0x2000⟩

theorem copyout_writes_through_null_pte_at_gap :
    KPage 0x80005000 ∧
      load32 nullPteMachine.mem (V2P 0x80005000 + 4 * PDX 0xFDFFF000) &&& PTE_P = 0 ∧
      kload32 nullPteMachine 0 = some 0x1007 ∧ (0x1007 : UInt32) &&& PTE_P ≠ 0 ∧
      (0x1007 : UInt32) &&& PTE_U ≠ 0 ∧ PTE_ADDR 0x1007 < PHYSTOP ∧
      0 < [1, 2, 3, 4].length ∧
      [1, 2, 3, 4].length ≤ (PGSIZE - (0xFDFFF000 - PGROUNDDOWN 0xFDFFF000)).toNat ∧
      (translate nullPteMachine.mem (V2P 0x80005000) 0xFDFFF000 false true = none ∧
        copyout nullPteMachine 0x80005000 0xFDFFF000 [1, 2, 3, 4] =
          some ({ nullPteMachine with
            mem := writeBytes nullPteMachine.mem
              (PTE_ADDR 0x1007 + (0xFDFFF000 - PGROUNDDOWN 0xFDFFF000)) [1, 2, 3, 4] }, 0)) := by
  have hpg : KPage 0x80005000 := by decide
  have hpde : load32 nullPteMachine.mem (V2P 0x80005000 + 4 * PDX 0xFDFFF000) &&& PTE_P = 0 := by
    decide
  have hw : kload32 nullPteMachine 0 = some 0x1007 := by decide
  have hP : (0x1007 : UInt32) &&& PTE_P ≠ 0 := by decide
  have hU : (0x1007 : UInt32) &&& PTE_U ≠ 0 := by decide
  have hphys : PTE_ADDR 0x1007 < PHYSTOP := by decide
  have hfit : [1, 2, 3, 4].length ≤ (PGSIZE - (0xFDFFF000 - PGROUNDDOWN 0xFDFFF000)).toNat := by
    decide
  exact ⟨hpg, hpde, hw, hP, hU, hphys, by decide, hfit,
    copyout_writes_through_null_pte hpg hpde hw hP hU hphys (by decide) hfit⟩

end Vm

end Xv6
