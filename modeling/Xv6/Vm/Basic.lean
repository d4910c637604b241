import Xv6.Library.ByteMem

/-!
# Page tables

The page allocator of `kalloc.c` and the page tables of `vm.c`, over physical
memory as bytes.  The kernel reaches memory through the MMU of the CPU it runs
on: a virtual address of `KERNBASE..KERNBASE+PHYSTOP` is the physical address
`V2P` of it, the map `setupkvm` puts into every page directory, and any other
address is walked through the page directory at `%cr3`, as the hardware does.

A call that panics, or takes a page fault in the kernel (which `trap` turns
into a panic), gives `none`.  The free list is kept as the list of its pages;
the `next` pointers `kfree` writes into them are left out.
-/

namespace Xv6

namespace Vm

open ByteMem

/-!
## `mmu.h` and `memlayout.h`
-/

def PGSIZE : UInt32 := 4096
def NPDENTRIES : Nat := 1024
def PTXSHIFT : UInt32 := 12
def PDXSHIFT : UInt32 := 22

def PTE_P : UInt32 := 0x001
def PTE_W : UInt32 := 0x002
def PTE_U : UInt32 := 0x004
def PTE_PS : UInt32 := 0x080

def EXTMEM : UInt32 := 0x100000
def PHYSTOP : UInt32 := 0xE000000
def DEVSPACE : UInt32 := 0xFE000000
def KERNBASE : UInt32 := 0x80000000
def KERNLINK : UInt32 := KERNBASE + EXTMEM

def PDX (va : UInt32) : UInt32 := (va >>> PDXSHIFT) &&& 0x3FF
def PTX (va : UInt32) : UInt32 := (va >>> PTXSHIFT) &&& 0x3FF
def PGADDR (d t o : UInt32) : UInt32 := (d <<< PDXSHIFT) ||| (t <<< PTXSHIFT) ||| o
def PGROUNDUP (sz : UInt32) : UInt32 := (sz + PGSIZE - 1) &&& ~~~(PGSIZE - 1)
def PGROUNDDOWN (a : UInt32) : UInt32 := a &&& ~~~(PGSIZE - 1)
def PTE_ADDR (pte : UInt32) : UInt32 := pte &&& ~~~0xFFF
def PTE_FLAGS (pte : UInt32) : UInt32 := pte &&& 0xFFF

def V2P (a : UInt32) : UInt32 := a - KERNBASE
def P2V (a : UInt32) : UInt32 := a + KERNBASE

/-!
### The macros as arithmetic
-/

theorem toNat_PDX (va : UInt32) : (PDX va).toNat = va.toNat / 2 ^ 22 := by
  unfold PDX
  rw [toNat_and_low _ _ (k := 10) (by decide), toNat_shiftRight _ _ (by decide)]
  have := va.toNat_lt
  simp only [PDXSHIFT, UInt32.reduceToNat]
  omega

theorem toNat_PTX (va : UInt32) : (PTX va).toNat = va.toNat / 4096 % 1024 := by
  unfold PTX
  rw [toNat_and_low _ _ (k := 10) (by decide), toNat_shiftRight _ _ (by decide)]
  rfl

theorem toNat_PGROUNDDOWN (a : UInt32) : (PGROUNDDOWN a).toNat = a.toNat / 4096 * 4096 :=
  toNat_and_not_low _ _ (k := 12) (by decide) (by decide)

theorem toNat_PTE_ADDR (pte : UInt32) : (PTE_ADDR pte).toNat = pte.toNat / 4096 * 4096 :=
  toNat_and_not_low _ _ (k := 12) (by decide) (by decide)

theorem PTE_ADDR_or (x f : UInt32) (hf : f.toNat < 4096) : PTE_ADDR (x ||| f) = PTE_ADDR x :=
  and_not_or_of_lt _ _ _ (k := 12) (by decide) (by decide) hf

theorem PTE_ADDR_of_aligned {x : UInt32} (hx : x.toNat % 4096 = 0) : PTE_ADDR x = x := by
  apply UInt32.toNat_inj.mp
  rw [toNat_PTE_ADDR]
  omega

theorem toNat_PGROUNDUP (sz : UInt32) :
    (PGROUNDUP sz).toNat = (sz.toNat + 4095) % 2 ^ 32 / 4096 * 4096 := by
  unfold PGROUNDUP
  rw [toNat_and_not_low _ _ (k := 12) (by decide) (by decide), UInt32.toNat_sub, UInt32.toNat_add]
  simp only [PGSIZE, UInt32.reduceToNat]
  omega

theorem PDX_PGROUNDDOWN (va : UInt32) : PDX (PGROUNDDOWN va) = PDX va := by
  apply UInt32.toNat_inj.mp
  rw [toNat_PDX, toNat_PDX, toNat_PGROUNDDOWN]
  omega

theorem toNat_sub_PGROUNDDOWN (va : UInt32) : (va - PGROUNDDOWN va).toNat = va.toNat % 4096 := by
  rw [UInt32.toNat_sub, toNat_PGROUNDDOWN]
  have := va.toNat_lt
  omega

theorem V2P_add (a b : UInt32) : V2P (a + b) = V2P a + b := by
  unfold V2P
  grind

theorem V2P_P2V (a : UInt32) : V2P (P2V a) = a := by
  unfold V2P P2V
  grind

theorem P2V_V2P (a : UInt32) : P2V (V2P a) = a := by
  unfold V2P P2V
  grind

/-- The symbols of `kernel.ld` that the allocator and the kernel map use:
`data`, where the kernel's data starts, and `end`, the first address after
the kernel. -/
structure Image where
  data : UInt32
  kend : UInt32

structure Machine where
  /-- Physical memory. -/
  mem : Mem
  /-- `kmem.freelist`: the free pages by kernel virtual address, the next one
  `kalloc` hands out first. -/
  freelist : List UInt32
  /-- `%cr3`: the physical address of the page directory the CPU runs on. -/
  cr3 : UInt32

/-!
## The MMU
-/

/-- Whether a page directory or page table entry lets an access through: an
access from user mode needs `PTE_U`, and a write, with `CR0_WP` on as
`entry.S` sets it, needs `PTE_W`. -/
def permits (e : UInt32) (write user : Bool) : Bool :=
  e &&& PTE_P != 0 && (!write || e &&& PTE_W != 0) && (!user || e &&& PTE_U != 0)

/-- The page walk of the MMU with `CR4_PSE` on: the physical address of `va`
under the page directory at physical address `pd`, or `none` for a page
fault. -/
def translate (m : Mem) (pd va : UInt32) (write user : Bool) : Option UInt32 :=
  let pde := load32 m (pd + 4 * PDX va)
  if !permits pde write user then none
  else if pde &&& PTE_PS ≠ 0 then some ((pde &&& 0xFFC00000) ||| (va &&& 0x3FFFFF))
  else
    let pte := load32 m (PTE_ADDR pde + 4 * PTX va)
    if !permits pte write user then none else some (PTE_ADDR pte ||| (va &&& 0xFFF))

/-- Whether the kernel reaches `va` through its map of physical memory. -/
def Direct (va : UInt32) : Prop :=
  KERNBASE ≤ va ∧ va < KERNBASE + PHYSTOP

instance : DecidablePred Direct := fun _ => inferInstanceAs (Decidable (_ ∧ _))

/-- The physical address of the kernel's access to `va`. -/
def kaddr (s : Machine) (va : UInt32) (write : Bool) : Option UInt32 :=
  if Direct va then some (V2P va) else translate s.mem s.cr3 va write false

/-- `*(uint*)va` in the kernel: an aligned word lies within one page. -/
def kload32 (s : Machine) (va : UInt32) : Option UInt32 :=
  (kaddr s va false).map (load32 s.mem)

def kstore32 (s : Machine) (va v : UInt32) : Option Machine :=
  (kaddr s va true).map fun pa => { s with mem := store32 s.mem pa v }

def kstore8 (s : Machine) (va : UInt32) (b : UInt8) : Option Machine :=
  (kaddr s va true).map fun pa => { s with mem := store8 s.mem pa b }

/-- `memmove(dst, src, n)` with the `n` bytes of `src` as a list, copied one
by one. -/
def memmove (s : Machine) (dst : UInt32) : List UInt8 → Option Machine
  | [] => some s
  | b :: bs => (kstore8 s dst b).bind fun s => memmove s (dst + 1) bs

/-- `memset(dst, c, n)` on pages the allocator hands out, which lie in the
kernel's map of physical memory. -/
def memset (s : Machine) (dst : UInt32) (c : UInt8) (n : UInt32) : Machine :=
  { s with mem := fill s.mem (V2P dst) n c }

theorem direct_iff (va : UInt32) : Direct va ↔ 0x80000000 ≤ va.toNat ∧ va.toNat < 0x8E000000 := by
  unfold Direct
  rw [UInt32.le_iff_toNat_le, UInt32.lt_iff_toNat_lt]
  rfl

theorem ne_zero_of_direct {va : UInt32} (h : Direct va) : va ≠ 0 := by
  rintro rfl
  exact absurd ((direct_iff 0).mp h).1 (by decide)

theorem kaddr_of_direct {s : Machine} {va : UInt32} (h : Direct va) (write : Bool) :
    kaddr s va write = some (V2P va) :=
  if_pos h

theorem kload32_of_direct {s : Machine} {va : UInt32} (h : Direct va) :
    kload32 s va = some (load32 s.mem (V2P va)) := by
  rw [kload32, kaddr_of_direct h]
  rfl

theorem kstore32_of_direct {s : Machine} {va : UInt32} (h : Direct va) (v : UInt32) :
    kstore32 s va v = some { s with mem := store32 s.mem (V2P va) v } := by
  rw [kstore32, kaddr_of_direct h]
  rfl

theorem kstore8_of_direct {s : Machine} {va : UInt32} (h : Direct va) (b : UInt8) :
    kstore8 s va b = some { s with mem := store8 s.mem (V2P va) b } := by
  rw [kstore8, kaddr_of_direct h]
  rfl

theorem memmove_of_direct {s : Machine} {dst : UInt32} {bs : List UInt8}
    (h : ∀ i : UInt32, i.toNat < bs.length → Direct (dst + i)) :
    memmove s dst bs = some { s with mem := writeBytes s.mem (V2P dst) bs } := by
  induction bs generalizing s dst with
  | nil => rfl
  | cons b bs ih =>
      have h₀ : Direct dst := by
        simpa using h 0 (by simp)
      -- the rest of the bytes start one further on
      have hrest : ∀ i : UInt32, i.toNat < bs.length → Direct (dst + 1 + i) := by
        intro i hi
        rw [UInt32.add_assoc]
        apply h
        rw [UInt32.toNat_add, List.length_cons]
        have : (1 : UInt32).toNat = 1 := rfl
        omega
      rw [memmove, kstore8_of_direct h₀, Option.bind_some, ih hrest, V2P_add]
      rfl

/-!
## `kalloc.c`
-/

def kalloc (s : Machine) : Machine × UInt32 :=
  match s.freelist with
  | [] => (s, 0)
  | r :: rest => ({ s with freelist := rest }, r)

theorem kalloc_of_nil {s : Machine} (hf : s.freelist = []) : kalloc s = (s, 0) := by
  simp only [kalloc, hf]

theorem kalloc_of_cons {s : Machine} {r : UInt32} {rest : List UInt32}
    (hf : s.freelist = r :: rest) : kalloc s = ({ s with freelist := rest }, r) := by
  simp only [kalloc, hf]

def kfree (img : Image) (s : Machine) (v : UInt32) : Option Machine :=
  if v % PGSIZE ≠ 0 ∨ v < img.kend ∨ V2P v ≥ PHYSTOP then none
  else
    -- fill with junk to catch dangling refs
    let s := memset s v 1 PGSIZE
    some { s with freelist := v :: s.freelist }

/-- A page of the kernel's map of physical memory, as the allocator hands
them out. -/
def KPage (p : UInt32) : Prop :=
  p.toNat % 4096 = 0 ∧ 0x80000000 ≤ p.toNat ∧ p.toNat + 4096 ≤ 0x8E000000

instance : DecidablePred KPage := fun _ => inferInstanceAs (Decidable (_ ∧ _))

theorem direct_of_kpage {p i : UInt32} (hp : KPage p) (hi : i.toNat < 4096) : Direct (p + i) := by
  obtain ⟨-, hlo, hhi⟩ := hp
  rw [direct_iff, UInt32.toNat_add]
  omega

theorem ne_zero_of_kpage {p : UInt32} (hp : KPage p) : p ≠ 0 := by
  simpa using ne_zero_of_direct (direct_of_kpage hp (i := 0) (by decide))

theorem direct_P2V {a : UInt32} (ha : a < PHYSTOP) : Direct (P2V a) := by
  have hlt : a.toNat < 0xE000000 := UInt32.lt_iff_toNat_lt.mp ha
  rw [direct_iff, P2V, UInt32.toNat_add]
  simp only [KERNBASE, UInt32.reduceToNat]
  omega

/-!
## `vm.c`
-/

/-- The address of the PTE of `va` in `pgdir`, `0` when there is none, with a
page table allocated for it if `alloc`. -/
def walkpgdir (s : Machine) (pgdir va : UInt32) (alloc : Bool) : Option (Machine × UInt32) :=
  let pde := pgdir + 4 * PDX va
  (kload32 s pde).bind fun e =>
    if e &&& PTE_P ≠ 0 then some (s, P2V (PTE_ADDR e) + 4 * PTX va)
    else if !alloc then some (s, 0)
    else
      let (s, pgtab) := kalloc s
      if pgtab = 0 then some (s, 0)
      else
        -- all the `PTE_P` bits of the new table zero
        let s := memset s pgtab 0 PGSIZE
        (kstore32 s pde (V2P pgtab ||| PTE_P ||| PTE_W ||| PTE_U)).map fun s =>
          (s, pgtab + 4 * PTX va)

/-- The pages from `a` up to below `b`: the turns a loop over them takes. -/
def pagesUpTo (a b : UInt32) : Nat :=
  (b.toNat - a.toNat + 4095) / 4096

/-- One turn of the loop of `deallocuvm` at `a`: the page mapped there freed,
or, with no page table for `a`, the last page before the next table. -/
def deallocPage (img : Image) (pgdir : UInt32) (s : Machine) (a : UInt32) :
    Option (Machine × UInt32) :=
  (walkpgdir s pgdir a false).bind fun (s, pte) =>
    if pte = 0 then some (s, PGADDR (PDX a + 1) 0 0 - PGSIZE)
    else
      (kload32 s pte).bind fun e =>
        if e &&& PTE_P = 0 then some (s, a)
        else
          let pa := PTE_ADDR e
          if pa = 0 then none
          else (kfree img s (P2V pa)).bind fun s => (kstore32 s pte 0).map fun s => (s, a)

/-- The loop of `deallocuvm` from `a` while `a < oldsz`.  Each turn moves `a`
on by a page at least, so `pagesUpTo a oldsz` turns end it unless `a` wraps
around; a loop that would go on gives `none`. -/
def deallocLoop (img : Image) (pgdir oldsz : UInt32) : Nat → Machine → UInt32 → Option Machine
  | 0, s, a => if a < oldsz then none else some s
  | fuel + 1, s, a =>
      if a < oldsz then
        (deallocPage img pgdir s a).bind fun (s, a) =>
          deallocLoop img pgdir oldsz fuel s (a + PGSIZE)
      else some s

def deallocuvm (img : Image) (s : Machine) (pgdir oldsz newsz : UInt32) :
    Option (Machine × UInt32) :=
  if newsz ≥ oldsz then some (s, oldsz)
  else
    let a := PGROUNDUP newsz
    (deallocLoop img pgdir oldsz (pagesUpTo a oldsz) s a).map fun s => (s, newsz)

/-- The loop of `freevm` over the entries `is` of `pgdir`, freeing the page
table of each present one. -/
def freeTables (img : Image) (pgdir : UInt32) : Machine → List Nat → Option Machine
  | s, [] => some s
  | s, i :: is =>
      (kload32 s (pgdir + 4 * i.toUInt32)).bind fun e =>
        if e &&& PTE_P ≠ 0 then
          (kfree img s (P2V (PTE_ADDR e))).bind fun s => freeTables img pgdir s is
        else freeTables img pgdir s is

def freevm (img : Image) (s : Machine) (pgdir : UInt32) : Option Machine :=
  if pgdir = 0 then none
  else
    (deallocuvm img s pgdir KERNBASE 0).bind fun (s, _) =>
      (freeTables img pgdir s (List.range NPDENTRIES)).bind fun s => kfree img s pgdir

/-- One turn of the loop of `mappages`: the PTE of `a` set to map `pa` with
`perm`, or `false` when `walkpgdir` finds no page for a table; `none` at
`panic("remap")`. -/
def mapPage (s : Machine) (pgdir a pa perm : UInt32) : Option (Machine × Bool) :=
  (walkpgdir s pgdir a true).bind fun (s, pte) =>
    if pte = 0 then some (s, false)
    else
      (kload32 s pte).bind fun e =>
        if e &&& PTE_P ≠ 0 then none
        else (kstore32 s pte (pa ||| perm ||| PTE_P)).map fun s => (s, true)

/-- The loop of `mappages` from page `a`, mapped to `pa`, with `n` more pages
up to `last`. -/
def mappagesLoop (pgdir perm : UInt32) : Nat → Machine → UInt32 → UInt32 → Option (Machine × Int)
  | n, s, a, pa =>
      (mapPage s pgdir a pa perm).bind fun (s, ok) =>
        if !ok then some (s, -1)
        else
          match n with
          | 0 => some (s, 0)
          | n + 1 => mappagesLoop pgdir perm n s (a + PGSIZE) (pa + PGSIZE)

/-- The loop runs from `a` to `last`, both rounded down to a page, and stops
at `a == last`: `(last - a) / PGSIZE` pages after the first, wrapping
around `2 ^ 32` as the `uint`s of the source do. -/
def mappages (s : Machine) (pgdir va size pa perm : UInt32) : Option (Machine × Int) :=
  let a := PGROUNDDOWN va
  let last := PGROUNDDOWN (va + size - 1)
  mappagesLoop pgdir perm ((last - a) / PGSIZE).toNat s a pa

/-- An entry of the table `kmap`. -/
structure Kmap where
  virt : UInt32
  physStart : UInt32
  physEnd : UInt32
  perm : UInt32

/-- The kernel's mappings, present in every process's page table. -/
def kmap (img : Image) : List Kmap :=
  [⟨KERNBASE, 0, EXTMEM, PTE_W⟩,
    ⟨KERNLINK, V2P KERNLINK, V2P img.data, 0⟩,
    ⟨img.data, V2P img.data, PHYSTOP, PTE_W⟩,
    ⟨DEVSPACE, DEVSPACE, 0, PTE_W⟩]

/-- The loop of `setupkvm` over `kmap`: on a failed `mappages` the directory
is freed and `setupkvm` returns `0`. -/
def mapKmap (img : Image) (pgdir : UInt32) : Machine → List Kmap → Option (Machine × UInt32)
  | s, [] => some (s, pgdir)
  | s, k :: ks =>
      (mappages s pgdir k.virt (k.physEnd - k.physStart) k.physStart k.perm).bind fun (s, r) =>
        if r < 0 then (freevm img s pgdir).map fun s => (s, 0)
        else mapKmap img pgdir s ks

def setupkvm (img : Image) (s : Machine) : Option (Machine × UInt32) :=
  let (s, pgdir) := kalloc s
  if pgdir = 0 then some (s, 0)
  else
    let s := memset s pgdir 0 PGSIZE
    if P2V PHYSTOP > DEVSPACE then none
    else mapKmap img pgdir s (kmap img)

/-- The loop of `allocuvm` from `a` while `a < newsz`; on running out of
memory it frees what it allocated and returns `0`. -/
def allocLoop (img : Image) (pgdir oldsz newsz : UInt32) :
    Nat → Machine → UInt32 → Option (Machine × UInt32)
  | 0, s, _ => some (s, newsz)
  | fuel + 1, s, a =>
      if a < newsz then
        let (s, mem) := kalloc s
        if mem = 0 then (deallocuvm img s pgdir newsz oldsz).map fun (s, _) => (s, 0)
        else
          let s := memset s mem 0 PGSIZE
          (mappages s pgdir a PGSIZE (V2P mem) (PTE_W ||| PTE_U)).bind fun (s, r) =>
            if r < 0 then
              (deallocuvm img s pgdir newsz oldsz).bind fun (s, _) =>
                (kfree img s mem).map fun s => (s, 0)
            else allocLoop img pgdir oldsz newsz fuel s (a + PGSIZE)
      else some (s, newsz)

def allocuvm (img : Image) (s : Machine) (pgdir oldsz newsz : UInt32) :
    Option (Machine × UInt32) :=
  if newsz ≥ KERNBASE then some (s, 0)
  else if newsz < oldsz then some (s, oldsz)
  else
    let a := PGROUNDUP oldsz
    allocLoop img pgdir oldsz newsz (pagesUpTo a newsz) s a

/-- The kernel address of the user page `uva` of `pgdir`, or `0` when its PTE
is not present or not `PTE_U`.  The PTE is read through the pointer
`walkpgdir` returns, `0` included. -/
def uva2ka (s : Machine) (pgdir uva : UInt32) : Option UInt32 :=
  (walkpgdir s pgdir uva false).bind fun (s, pte) =>
    (kload32 s pte).map fun e =>
      if e &&& PTE_P = 0 then 0
      else if e &&& PTE_U = 0 then 0
      else P2V (PTE_ADDR e)

/-- The loop of `copyout` while bytes remain.  Each turn copies one byte at
least, so `buf.length` turns end it. -/
def copyoutLoop (pgdir : UInt32) : Nat → Machine → UInt32 → List UInt8 → Option (Machine × Int)
  | 0, s, _, _ => some (s, 0)
  | fuel + 1, s, va, buf =>
      if buf.length = 0 then some (s, 0)
      else
        let va0 := PGROUNDDOWN va
        (uva2ka s pgdir va0).bind fun pa0 =>
          if pa0 = 0 then some (s, -1)
          else
            let n := if (PGSIZE - (va - va0)).toNat > buf.length then buf.length
              else (PGSIZE - (va - va0)).toNat
            (memmove s (pa0 + (va - va0)) (buf.take n)).bind fun s =>
              copyoutLoop pgdir fuel s (va0 + PGSIZE) (buf.drop n)

/-- `copyout(pgdir, va, p, len)` with the `len` bytes at `p` as `buf`. -/
def copyout (s : Machine) (pgdir va : UInt32) (buf : List UInt8) : Option (Machine × Int) :=
  copyoutLoop pgdir buf.length s va buf

end Vm

end Xv6
