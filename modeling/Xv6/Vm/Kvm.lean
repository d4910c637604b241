import Xv6.Vm.Basic

/-!
# What the page directory builders write

`setupkvm` and `allocuvm` change a page directory only through `mappages`,
whose `walkpgdir` sets the entry for each page it maps, and fill pages taken
from the free list.  So an entry changes only where a page is mapped: the
directory `setupkvm` returns has page tables for the kernel's map of physical
memory and for the devices, and none elsewhere, and `allocuvm` adds page tables
below `KERNBASE` only.  No page table of such a directory covers
`P2V(PHYSTOP)..DEVSPACE`.
-/

namespace Xv6

namespace Vm

open ByteMem

/-- The physical address of entry `i` of the page directory or page table at
kernel address `p`. -/
def slot (p i : UInt32) : UInt32 :=
  V2P p + 4 * i

/-- Entry `i` of the page directory at kernel address `pgdir`. -/
def pde (s : Machine) (pgdir i : UInt32) : UInt32 :=
  load32 s.mem (slot pgdir i)

/-!
## Entries of kernel pages
-/

section Slots

variable {p q i j : UInt32}

theorem toNat_slot (hp : KPage p) (hi : i.toNat < 1024) :
    (slot p i).toNat = p.toNat - 0x80000000 + 4 * i.toNat := by
  obtain ⟨-, hlo, hhi⟩ := hp
  rw [slot, UInt32.toNat_add, V2P, UInt32.toNat_sub, UInt32.toNat_mul]
  simp only [KERNBASE, UInt32.reduceToNat]
  omega

theorem toNat_V2P (hp : KPage p) : (V2P p).toNat = p.toNat - 0x80000000 := by
  obtain ⟨-, hlo, hhi⟩ := hp
  rw [V2P, UInt32.toNat_sub]
  simp only [KERNBASE, UInt32.reduceToNat]
  omega

theorem slot_aligned (hp : KPage p) (hi : i.toNat < 1024) : (slot p i).toNat % 4 = 0 := by
  have := hp.1
  rw [toNat_slot hp hi]
  omega

theorem slot_ne (hp : KPage p) (hq : KPage q) (hi : i.toNat < 1024) (hj : j.toNat < 1024)
    (h : p ≠ q ∨ i ≠ j) : slot p i ≠ slot q j := by
  intro heq
  have hn := congrArg UInt32.toNat heq
  rw [toNat_slot hp hi, toNat_slot hq hj] at hn
  have hpa := hp.1
  have hqa := hq.1
  have hlo := hp.2.1
  have hlo' := hq.2.1
  rcases h with h | h
  · exact h (UInt32.toNat_inj.mp (by omega))
  · exact h (UInt32.toNat_inj.mp (by omega))

theorem load32_store32_slot {m : Mem} {v : UInt32} (hp : KPage p) (hq : KPage q)
    (hi : i.toNat < 1024) (hj : j.toNat < 1024) (h : q ≠ p ∨ j ≠ i) :
    load32 (store32 m (slot q j) v) (slot p i) = load32 m (slot p i) :=
  load32_store32_of_ne (slot_aligned hq hj) (slot_aligned hp hi) (slot_ne hq hp hj hi h)

theorem load32_fill_slot {m : Mem} {c : UInt8} (hp : KPage p) (hq : KPage q) (hne : p ≠ q)
    (hi : i.toNat < 1024) : load32 (fill m (V2P q) PGSIZE c) (slot p i) = load32 m (slot p i) := by
  have hpq : p.toNat ≠ q.toNat := fun h => hne (UInt32.toNat_inj.mp h)
  have hpa := hp.1
  have hqa := hq.1
  have hlo := hp.2
  have hlo' := hq.2
  have hs := toNat_slot hp hi
  have hv := toNat_V2P hq
  apply load32_fill_of_le
  · rw [UInt32.toNat_sub, hs, hv]
    simp only [PGSIZE, UInt32.reduceToNat]
    omega
  · rw [UInt32.toNat_sub, hs, hv]
    omega

theorem load32_fill_zero_slot {m : Mem} (hp : KPage p) (hi : i.toNat < 1024) :
    load32 (fill m (V2P p) PGSIZE 0) (slot p i) = 0 := by
  have hs := toNat_slot hp hi
  have hv := toNat_V2P hp
  have hin : ∀ k : UInt32, k.toNat < 4 → slot p i + k - V2P p < PGSIZE := by
    intro k hk
    rw [UInt32.lt_iff_toNat_lt, UInt32.toNat_sub, UInt32.toNat_add, hs, hv]
    simp only [PGSIZE, UInt32.reduceToNat]
    have := hp.2
    omega
  apply load32_eq_zero
  refine ⟨?_, fill_apply_of_lt (hin 1 (by decide)), fill_apply_of_lt (hin 2 (by decide)),
    fill_apply_of_lt (hin 3 (by decide))⟩
  exact fill_apply_of_lt (by simpa using hin 0 (by decide))

end Slots

/-!
## The invariant of the builders
-/

/-- What the builders keep true of `pgdir`: it is a page of the kernel map,
the free pages are other pages of the kernel map, and so are the page tables
that its present entries name. -/
structure DirInv (pgdir : UInt32) (s : Machine) : Prop where
  kpage : KPage pgdir
  free : ∀ p ∈ s.freelist, KPage p ∧ p ≠ pgdir
  tables : ∀ i : UInt32, i.toNat < 1024 → pde s pgdir i &&& PTE_P ≠ 0 →
    KPage (P2V (PTE_ADDR (pde s pgdir i))) ∧ P2V (PTE_ADDR (pde s pgdir i)) ≠ pgdir

/-- `s'` holds the entries of `pgdir` that `s` holds, outside the entries
`touched` picks. -/
def Keeps (pgdir : UInt32) (touched : UInt32 → Prop) (s s' : Machine) : Prop :=
  ∀ i : UInt32, i.toNat < 1024 → ¬ touched i → pde s' pgdir i = pde s pgdir i

section Keeps

variable {pgdir : UInt32} {T T' : UInt32 → Prop} {s s' s'' : Machine}

theorem Keeps.refl (T : UInt32 → Prop) (s : Machine) : Keeps pgdir T s s :=
  fun _ _ _ => rfl

theorem Keeps.trans (h : Keeps pgdir T s s') (h' : Keeps pgdir T' s' s'') :
    Keeps pgdir (fun i => T i ∨ T' i) s s'' := by
  intro i hi hT
  rw [h' i hi (fun hT' => hT (Or.inr hT')), h i hi (fun hT₀ => hT (Or.inl hT₀))]

theorem Keeps.mono (h : Keeps pgdir T s s') (hT : ∀ i, i.toNat < 1024 → T i → T' i) :
    Keeps pgdir T' s s' :=
  fun i hi hn => h i hi (fun hTi => hn (hT i hi hTi))

end Keeps

section Inv

variable {pgdir : UInt32} {s s' : Machine}

theorem DirInv.congr (h : DirInv pgdir s) (hfree : ∀ p ∈ s'.freelist, p ∈ s.freelist)
    (hpde : ∀ i : UInt32, i.toNat < 1024 → pde s' pgdir i = pde s pgdir i) : DirInv pgdir s' where
  kpage := h.kpage
  free p hp := h.free p (hfree p hp)
  tables i hi := by
    rw [hpde i hi]
    exact h.tables i hi

theorem DirInv.kalloc_fill (h : DirInv pgdir s) {r : UInt32} {rest : List UInt32}
    (hf : s.freelist = r :: rest) (c : UInt8) :
    KPage r ∧ r ≠ pgdir ∧ DirInv pgdir (memset { s with freelist := rest } r c PGSIZE) ∧
      ∀ i : UInt32, i.toNat < 1024 →
        pde (memset { s with freelist := rest } r c PGSIZE) pgdir i = pde s pgdir i := by
  obtain ⟨hr, hne⟩ := h.free r (by rw [hf]; exact List.mem_cons_self)
  have hpde : ∀ i : UInt32, i.toNat < 1024 →
      pde (memset { s with freelist := rest } r c PGSIZE) pgdir i = pde s pgdir i :=
    fun i hi => load32_fill_slot h.kpage hr (Ne.symm hne) hi
  refine ⟨hr, hne, h.congr ?_ hpde, hpde⟩
  intro p hp
  rw [hf]
  exact List.mem_cons_of_mem r hp

theorem DirInv.store_table (h : DirInv pgdir s) {t j v : UInt32} (ht : KPage t) (hne : t ≠ pgdir)
    (hj : j.toNat < 1024) :
    DirInv pgdir { s with mem := store32 s.mem (slot t j) v } ∧
      ∀ i : UInt32, i.toNat < 1024 → pde { s with mem := store32 s.mem (slot t j) v } pgdir i =
        pde s pgdir i := by
  have hpde : ∀ i : UInt32, i.toNat < 1024 →
      pde { s with mem := store32 s.mem (slot t j) v } pgdir i = pde s pgdir i :=
    fun i hi => load32_store32_slot h.kpage ht hi hj (Or.inl hne)
  exact ⟨h.congr (fun _ hp => hp) hpde, hpde⟩

theorem P2V_PTE_ADDR_entry {r : UInt32} (hr : KPage r) :
    P2V (PTE_ADDR (V2P r ||| PTE_P ||| PTE_W ||| PTE_U)) = r := by
  have hal : (V2P r).toNat % 4096 = 0 := by
    rw [toNat_V2P hr]
    have := hr.1
    have := hr.2.1
    omega
  -- the flags `PTE_U`, `PTE_W` and `PTE_P` come off one by one
  rw [PTE_ADDR_or (V2P r ||| PTE_P ||| PTE_W) PTE_U (by decide), PTE_ADDR_or (V2P r ||| PTE_P) PTE_W (by decide),
    PTE_ADDR_or (V2P r) PTE_P (by decide), PTE_ADDR_of_aligned hal, P2V_V2P]

theorem DirInv.enter (h : DirInv pgdir s) {r j v : UInt32} (hr : KPage r) (hne : r ≠ pgdir)
    (hj : j.toNat < 1024) (hv : P2V (PTE_ADDR v) = r) :
    DirInv pgdir { s with mem := store32 s.mem (slot pgdir j) v } ∧
      Keeps pgdir (· = j) s { s with mem := store32 s.mem (slot pgdir j) v } := by
  have hkeep : Keeps pgdir (· = j) s { s with mem := store32 s.mem (slot pgdir j) v } :=
    fun i hi hij => load32_store32_slot h.kpage h.kpage hi hj (Or.inr (Ne.symm hij))
  refine ⟨⟨h.kpage, h.free, fun i hi hp => ?_⟩, hkeep⟩
  by_cases hij : i = j
  · subst hij
    have hself : pde { s with mem := store32 s.mem (slot pgdir i) v } pgdir i = v :=
      load32_store32_self _ _ _
    rw [hself, hv]
    exact ⟨hr, hne⟩
  · rw [hkeep i hi hij] at hp ⊢
    exact h.tables i hi hp

end Inv

/-!
## One page mapped
-/

section Map

variable {pgdir a : UInt32} {s s' : Machine}

theorem PDX_lt (va : UInt32) : (PDX va).toNat < 1024 := by
  rw [toNat_PDX]
  have := va.toNat_lt
  omega

theorem PTX_lt (va : UInt32) : (PTX va).toNat < 1024 := by
  rw [toNat_PTX]
  omega

theorem direct_entry {t : UInt32} (ht : KPage t) (j : UInt32) (hj : j.toNat < 1024) :
    Direct (t + 4 * j) ∧ V2P (t + 4 * j) = slot t j := by
  have hidx : (4 * j).toNat < 4096 := by
    rw [UInt32.toNat_mul]
    simp only [UInt32.reduceToNat]
    omega
  exact ⟨direct_of_kpage ht hidx, V2P_add _ _⟩

theorem walkpgdir_alloc (h : DirInv pgdir s) {pte : UInt32}
    (hw : walkpgdir s pgdir a true = some (s', pte)) :
    DirInv pgdir s' ∧ Keeps pgdir (· = PDX a) s s' ∧
      (pte = 0 ∨ ∃ t, KPage t ∧ t ≠ pgdir ∧ pte = t + 4 * PTX a) := by
  have hd := direct_entry h.kpage (PDX a) (PDX_lt a)
  rw [walkpgdir, kload32_of_direct hd.1, hd.2, Option.bind_some] at hw
  by_cases hp : load32 s.mem (slot pgdir (PDX a)) &&& PTE_P ≠ 0
  · -- a page table is there: nothing changes
    rw [if_pos hp] at hw
    cases hw
    obtain ⟨ht, hne⟩ := h.tables (PDX a) (PDX_lt a) hp
    exact ⟨h, Keeps.refl _ _, Or.inr ⟨_, ht, hne, rfl⟩⟩
  · rw [if_neg hp] at hw
    simp only [Bool.not_true, Bool.false_eq_true, ↓reduceIte] at hw
    cases hf : s.freelist with
    | nil =>
        rw [kalloc_of_nil hf] at hw
        cases hw
        exact ⟨h, Keeps.refl _ _, Or.inl rfl⟩
    | cons r rest =>
        rw [kalloc_of_cons hf] at hw
        dsimp only at hw
        obtain ⟨hr, hne, hinv, hkeep⟩ := h.kalloc_fill hf 0
        by_cases h0 : r = 0
        · rw [if_pos h0] at hw
          cases hw
          refine ⟨h.congr (fun p hp => ?_) (fun _ _ => rfl), Keeps.refl _ _, Or.inl rfl⟩
          rw [hf]
          exact List.mem_cons_of_mem r hp
        · -- a fresh page table, entered at `PDX a`
          rw [if_neg h0, kstore32_of_direct hd.1, hd.2, Option.map_some] at hw
          cases hw
          obtain ⟨hinv', hkeep'⟩ := hinv.enter hr hne (PDX_lt a) (P2V_PTE_ADDR_entry hr)
          refine ⟨hinv', fun i hi hia => ?_, Or.inr ⟨r, hr, hne, rfl⟩⟩
          rw [hkeep' i hi hia, hkeep i hi]

theorem mapPage_frame (h : DirInv pgdir s) {pa perm : UInt32} {ok : Bool}
    (hm : mapPage s pgdir a pa perm = some (s', ok)) :
    DirInv pgdir s' ∧ Keeps pgdir (· = PDX a) s s' := by
  obtain ⟨⟨s₁, pte⟩, hw, hrest⟩ := Option.bind_eq_some_iff.mp hm
  obtain ⟨h₁, hk₁, hpte⟩ := walkpgdir_alloc h hw
  dsimp only at hrest
  rcases hpte with h0 | ⟨t, ht, hne, rfl⟩
  · -- no page for a table: `mappages` gives up with the table as it is
    rw [if_pos h0] at hrest
    cases hrest
    exact ⟨h₁, hk₁⟩
  · -- the PTE, in a page table other than `pgdir`, is set
    have hd := direct_entry ht (PTX a) (PTX_lt a)
    rw [if_neg (ne_zero_of_direct hd.1), kload32_of_direct hd.1, Option.bind_some] at hrest
    by_cases hp : load32 s₁.mem (V2P (t + 4 * PTX a)) &&& PTE_P ≠ 0
    · rw [if_pos hp] at hrest
      cases hrest
    · rw [if_neg hp, kstore32_of_direct hd.1, hd.2, Option.map_some] at hrest
      cases hrest
      obtain ⟨h₂, hk₂⟩ := h₁.store_table ht hne (PTX_lt a)
      refine ⟨h₂, fun i hi hia => ?_⟩
      rw [hk₂ i hi, hk₁ i hi hia]

end Map

/-!
## A range of pages mapped
-/

/-- The entries of a page directory for the addresses `lo` to `hi`. -/
def Covers (lo hi : Nat) (i : UInt32) : Prop :=
  lo / 2 ^ 22 ≤ i.toNat ∧ i.toNat ≤ hi / 2 ^ 22

section Range

variable {pgdir : UInt32} {perm : UInt32}

theorem mappagesLoop_eq {n : Nat} {s : Machine} {a pa : UInt32} :
    mappagesLoop pgdir perm n s a pa =
      (mapPage s pgdir a pa perm).bind fun (s, ok) =>
        if !ok then some (s, -1)
        else
          match n with
          | 0 => some (s, 0)
          | n + 1 => mappagesLoop pgdir perm n s (a + PGSIZE) (pa + PGSIZE) := by
  cases n <;> rfl

theorem mappagesLoop_cases {n : Nat} {s s' : Machine} {a pa : UInt32} {r : Int}
    (h : mappagesLoop pgdir perm n s a pa = some (s', r)) :
    ∃ s₁ ok, mapPage s pgdir a pa perm = some (s₁, ok) ∧
      (s' = s₁ ∨ ∃ n', n = n' + 1 ∧
        mappagesLoop pgdir perm n' s₁ (a + PGSIZE) (pa + PGSIZE) = some (s', r)) := by
  rw [mappagesLoop_eq] at h
  obtain ⟨⟨s₁, ok⟩, hm, hrest⟩ := Option.bind_eq_some_iff.mp h
  refine ⟨s₁, ok, hm, ?_⟩
  cases ok with
  | false =>
      simp only [Bool.not_false, ↓reduceIte, Option.some.injEq, Prod.mk.injEq] at hrest
      exact Or.inl hrest.1.symm
  | true =>
      cases n with
      | zero =>
          simp only [Bool.not_true, Bool.false_eq_true, ↓reduceIte, Option.some.injEq,
            Prod.mk.injEq] at hrest
          exact Or.inl hrest.1.symm
      | succ n =>
          simp only [Bool.not_true, Bool.false_eq_true, ↓reduceIte] at hrest
          exact Or.inr ⟨n, rfl, hrest⟩

theorem mappagesLoop_frame : ∀ {n : Nat} {s s' : Machine} {a pa : UInt32} {r : Int},
    DirInv pgdir s → a.toNat + 4096 * n < 2 ^ 32 →
    mappagesLoop pgdir perm n s a pa = some (s', r) →
    DirInv pgdir s' ∧ Keeps pgdir (Covers a.toNat (a.toNat + 4096 * n)) s s' := by
  intro n
  induction n with
  | zero =>
      intro s s' a pa r h _ hl
      obtain ⟨s₁, ok, hm, hrest⟩ := mappagesLoop_cases hl
      obtain ⟨h₁, hk₁⟩ := mapPage_frame h hm
      rcases hrest with rfl | ⟨n', hn', -⟩
      · refine ⟨h₁, hk₁.mono fun i _ hi => ?_⟩
        rw [hi, Covers, toNat_PDX]
        omega
      · cases hn'
  | succ n ih =>
      intro s s' a pa r h hwrap hl
      obtain ⟨s₁, ok, hm, hrest⟩ := mappagesLoop_cases hl
      obtain ⟨h₁, hk₁⟩ := mapPage_frame h hm
      have hnext : (a + PGSIZE).toNat = a.toNat + 4096 := by
        rw [UInt32.toNat_add]
        simp only [PGSIZE, UInt32.reduceToNat]
        omega
      rcases hrest with rfl | ⟨n', hn', hrest⟩
      · refine ⟨h₁, hk₁.mono fun i _ hi => ?_⟩
        rw [hi, Covers, toNat_PDX]
        omega
      · -- the first page, then the rest from the next one
        cases hn'
        obtain ⟨h₂, hk₂⟩ := ih h₁ (by omega) hrest
        refine ⟨h₂, (hk₁.trans hk₂).mono fun i _ hi => ?_⟩
        rcases hi with hi | hi
        · rw [hi, Covers, toNat_PDX]
          omega
        · rw [Covers, hnext] at hi
          rw [Covers]
          omega

theorem mappages_frame {s s' : Machine} {va size pa : UInt32} {r : Int} (h : DirInv pgdir s)
    (hm : mappages s pgdir va size pa perm = some (s', r))
    (hle : PGROUNDDOWN va ≤ PGROUNDDOWN (va + size - 1)) :
    DirInv pgdir s' ∧ Keeps pgdir (Covers (PGROUNDDOWN va).toNat (va + size - 1).toNat) s s' := by
  rw [UInt32.le_iff_toNat_le] at hle
  have hlast := toNat_PGROUNDDOWN (va + size - 1)
  have hfirst := toNat_PGROUNDDOWN va
  have hmax := (va + size - 1).toNat_lt
  -- the loop runs over the pages from `a` to `last`
  have hn : (((PGROUNDDOWN (va + size - 1) - PGROUNDDOWN va) / PGSIZE).toNat) * 4096 =
      (PGROUNDDOWN (va + size - 1)).toNat - (PGROUNDDOWN va).toNat := by
    rw [UInt32.toNat_div, UInt32.toNat_sub]
    simp only [PGSIZE, UInt32.reduceToNat]
    omega
  obtain ⟨h', hk⟩ := mappagesLoop_frame h (by omega) hm
  refine ⟨h', hk.mono fun i _ hi => ?_⟩
  rw [Covers] at hi ⊢
  omega

end Range


/-!
## `setupkvm`
-/

/-- What `kernel.ld` gives the kernel map: the kernel's text ends above
`KERNLINK`, and its data starts below `P2V(PHYSTOP)`. -/
structure Image.Fits (img : Image) : Prop where
  text : KERNLINK < img.data
  data : img.data < P2V PHYSTOP

/-- The range of an entry of `kmap`, from its first page to its last byte. -/
def Kmap.last (k : Kmap) : UInt32 :=
  k.virt + (k.physEnd - k.physStart) - 1

section Setup

variable {img : Image} {pgdir : UInt32}

theorem kmap_covers (hfit : img.Fits) (k : Kmap) (hk : k ∈ kmap img) :
    PGROUNDDOWN k.virt ≤ PGROUNDDOWN k.last ∧
      ∀ i, Covers (PGROUNDDOWN k.virt).toNat k.last.toNat i →
        (0x200 ≤ i.toNat ∧ i.toNat < 0x238) ∨ 0x3F8 ≤ i.toNat := by
  have hlo : 0x80100000 < img.data.toNat := UInt32.lt_iff_toNat_lt.mp hfit.text
  have hhi : img.data.toNat < 0x8E000000 := UInt32.lt_iff_toNat_lt.mp hfit.data
  have hdl := toNat_PGROUNDDOWN img.data
  simp only [kmap, List.mem_cons, List.not_mem_nil, or_false] at hk
  rcases hk with rfl | rfl | rfl | rfl
  · -- the I/O space: one page table
    have hv : (PGROUNDDOWN KERNBASE).toNat = 0x80000000 := by decide
    have hl : (Kmap.last ⟨KERNBASE, 0, EXTMEM, PTE_W⟩).toNat = 0x800FFFFF := by decide
    refine ⟨by decide, fun i hi => ?_⟩
    rw [Covers, hv, hl] at hi
    exact Or.inl (by omega)
  · -- the kernel's text, up to `data`
    have hv : (PGROUNDDOWN KERNLINK).toNat = 0x80100000 := by decide
    have hl : Kmap.last ⟨KERNLINK, V2P KERNLINK, V2P img.data, 0⟩ = img.data - 1 := by
      simp only [Kmap.last, V2P]
      grind
    have hd1 : (img.data - 1).toNat = img.data.toNat - 1 := by
      rw [UInt32.toNat_sub]
      simp only [UInt32.reduceToNat]
      omega
    have hdl1 := toNat_PGROUNDDOWN (img.data - 1)
    rw [hl]
    refine ⟨?_, fun i hi => ?_⟩
    · rw [UInt32.le_iff_toNat_le, hdl1, hd1, hv]
      omega
    · rw [Covers, hv, hd1] at hi
      exact Or.inl (by omega)
  · -- the kernel's data and the rest of physical memory, from `data`
    have hl : (Kmap.last ⟨img.data, V2P img.data, PHYSTOP, PTE_W⟩).toNat = 0x8DFFFFFF := by
      have he : Kmap.last ⟨img.data, V2P img.data, PHYSTOP, PTE_W⟩ = KERNBASE + PHYSTOP - 1 := by
        simp only [Kmap.last, V2P]
        grind
      rw [he]
      decide
    have hll := toNat_PGROUNDDOWN (Kmap.last ⟨img.data, V2P img.data, PHYSTOP, PTE_W⟩)
    refine ⟨?_, fun i hi => ?_⟩
    · rw [UInt32.le_iff_toNat_le, hll, hdl, hl]
      omega
    · rw [Covers, hdl, hl] at hi
      exact Or.inl (by omega)
  · -- the devices, up to the top of the address space
    have hv : (PGROUNDDOWN DEVSPACE).toNat = 0xFE000000 := by decide
    have hl : (Kmap.last ⟨DEVSPACE, DEVSPACE, 0, PTE_W⟩).toNat = 0xFFFFFFFF := by decide
    refine ⟨by decide, fun i hi => ?_⟩
    rw [Covers, hv, hl] at hi
    exact Or.inr (by omega)

theorem mapKmap_frame : ∀ {ks : List Kmap} {s s' : Machine} {r : UInt32},
    DirInv pgdir s → (∀ k ∈ ks, PGROUNDDOWN k.virt ≤ PGROUNDDOWN k.last) →
    mapKmap img pgdir s ks = some (s', r) → r ≠ 0 →
    r = pgdir ∧ DirInv pgdir s' ∧
      Keeps pgdir (fun i => ∃ k ∈ ks, Covers (PGROUNDDOWN k.virt).toNat k.last.toNat i) s s' := by
  intro ks
  induction ks with
  | nil =>
      intro s s' r h _ hm _
      cases hm
      exact ⟨rfl, h, Keeps.refl _ _⟩
  | cons k ks ih =>
      intro s s' r h hks hm hr
      obtain ⟨⟨s₁, r₁⟩, hmp, hrest⟩ := Option.bind_eq_some_iff.mp hm
      dsimp only at hrest
      by_cases hneg : r₁ < 0
      · -- a failed `mappages`: `setupkvm` returns `0`
        rw [if_pos hneg] at hrest
        obtain ⟨_, -, hx⟩ := Option.map_eq_some_iff.mp hrest
        cases hx
        exact absurd rfl hr
      · rw [if_neg hneg] at hrest
        obtain ⟨h₁, hk₁⟩ := mappages_frame h hmp (hks k List.mem_cons_self)
        obtain ⟨rfl, h₂, hk₂⟩ := ih h₁ (fun k' hk' => hks k' (List.mem_cons_of_mem k hk')) hrest hr
        refine ⟨rfl, h₂, (hk₁.trans hk₂).mono fun i _ hi => ?_⟩
        rcases hi with hi | ⟨k', hk', hi⟩
        · exact ⟨k, List.mem_cons_self, hi⟩
        · exact ⟨k', List.mem_cons_of_mem k hk', hi⟩

theorem setupkvm_frame (hfit : img.Fits) {s s' : Machine} (hnd : s.freelist.Nodup)
    (hfree : ∀ p ∈ s.freelist, KPage p) (h : setupkvm img s = some (s', pgdir)) (hpg : pgdir ≠ 0) :
    DirInv pgdir s' ∧ ∀ i : UInt32, i.toNat < 1024 →
      (i.toNat < 0x200 ∨ (0x238 ≤ i.toNat ∧ i.toNat < 0x3F8)) → pde s' pgdir i = 0 := by
  unfold setupkvm at h
  cases hf : s.freelist with
  | nil =>
      rw [kalloc_of_nil hf] at h
      cases h
      exact absurd rfl hpg
  | cons r rest =>
      rw [kalloc_of_cons hf] at h
      dsimp only at h
      have hr : KPage r := hfree r (by rw [hf]; exact List.mem_cons_self)
      have hnotin : r ∉ rest := (List.nodup_cons.mp (hf ▸ hnd)).1
      rw [if_neg (ne_zero_of_kpage hr), if_neg (by decide)] at h
      -- the directory starts out empty
      have hzero : ∀ i : UInt32, i.toNat < 1024 →
          pde (memset { s with freelist := rest } r 0 PGSIZE) r i = 0 :=
        fun i hi => load32_fill_zero_slot hr hi
      have h₀ : DirInv r (memset { s with freelist := rest } r 0 PGSIZE) := by
        refine ⟨hr, fun p hp => ⟨hfree p (by rw [hf]; exact List.mem_cons_of_mem r hp), ?_⟩,
          fun i hi hp => absurd (by rw [hzero i hi]; rfl) hp⟩
        rintro rfl
        exact hnotin hp
      obtain ⟨rfl, h', hk⟩ := mapKmap_frame h₀ (fun k hk => (kmap_covers hfit k hk).1) h hpg
      refine ⟨h', fun i hi hgap => ?_⟩
      rw [hk i hi, hzero i hi]
      rintro ⟨k, hk, hcov⟩
      rcases (kmap_covers hfit k hk).2 i hcov with hc | hc <;> omega

end Setup

/-!
## `allocuvm`
-/

section Grow

variable {img : Image} {pgdir oldsz newsz : UInt32}

theorem allocLoop_frame (hnew : newsz < KERNBASE) : ∀ {fuel : Nat} {s s' : Machine} {a sz : UInt32},
    DirInv pgdir s → a.toNat % 4096 = 0 → allocLoop img pgdir oldsz newsz fuel s a = some (s', sz) →
    sz ≠ 0 → DirInv pgdir s' ∧ Keeps pgdir (fun i => i.toNat < 0x200) s s' := by
  have hnew' : newsz.toNat < 0x80000000 := UInt32.lt_iff_toNat_lt.mp hnew
  intro fuel
  induction fuel with
  | zero =>
      intro s s' a sz h _ hl _
      cases hl
      exact ⟨h, Keeps.refl _ _⟩
  | succ fuel ih =>
      intro s s' a sz h ha hl hsz
      rw [allocLoop] at hl
      by_cases hlt : a < newsz
      · rw [if_pos hlt] at hl
        have hlt' : a.toNat < newsz.toNat := UInt32.lt_iff_toNat_lt.mp hlt
        cases hf : s.freelist with
        | nil =>
            -- out of memory: `allocuvm` returns `0`
            rw [kalloc_of_nil hf] at hl
            obtain ⟨_, -, hx⟩ := Option.map_eq_some_iff.mp hl
            cases hx
            exact absurd rfl hsz
        | cons r rest =>
            rw [kalloc_of_cons hf] at hl
            dsimp only at hl
            obtain ⟨hr, -, h₁, hk₁⟩ := h.kalloc_fill hf 0
            rw [if_neg (ne_zero_of_kpage hr)] at hl
            obtain ⟨⟨s₂, r₂⟩, hmp, hrest⟩ := Option.bind_eq_some_iff.mp hl
            -- the one page at `a` lies below `KERNBASE`
            have hpa : (PGROUNDDOWN a).toNat = a.toNat := by
              rw [toNat_PGROUNDDOWN]
              omega
            have hlast : (a + PGSIZE - 1).toNat = a.toNat + 4095 := by
              rw [UInt32.toNat_sub, UInt32.toNat_add]
              simp only [PGSIZE, UInt32.reduceToNat]
              omega
            have hle : PGROUNDDOWN a ≤ PGROUNDDOWN (a + PGSIZE - 1) := by
              rw [UInt32.le_iff_toNat_le, hpa, toNat_PGROUNDDOWN, hlast]
              omega
            obtain ⟨h₂, hk₂⟩ := mappages_frame h₁ hmp hle
            dsimp only at hrest
            by_cases hneg : r₂ < 0
            · rw [if_pos hneg] at hrest
              obtain ⟨⟨s₃, y⟩, -, hx⟩ := Option.bind_eq_some_iff.mp hrest
              obtain ⟨_, -, hx'⟩ := Option.map_eq_some_iff.mp hx
              cases hx'
              exact absurd rfl hsz
            · rw [if_neg hneg] at hrest
              have hnext : (a + PGSIZE).toNat % 4096 = 0 := by
                rw [UInt32.toNat_add]
                simp only [PGSIZE, UInt32.reduceToNat]
                omega
              obtain ⟨h₃, hk₃⟩ := ih h₂ hnext hrest hsz
              refine ⟨h₃, fun i hi hlow => ?_⟩
              rw [hk₃ i hi hlow, hk₂ i hi ?_, hk₁ i hi]
              rw [Covers, hpa, hlast]
              omega
      · rw [if_neg hlt] at hl
        cases hl
        exact ⟨h, Keeps.refl _ _⟩

theorem allocuvm_frame {s s' : Machine} {sz : UInt32} (h : DirInv pgdir s)
    (ha : allocuvm img s pgdir oldsz newsz = some (s', sz)) (hsz : sz ≠ 0) :
    DirInv pgdir s' ∧ Keeps pgdir (fun i => i.toNat < 0x200) s s' := by
  unfold allocuvm at ha
  by_cases hk : newsz ≥ KERNBASE
  · rw [if_pos hk] at ha
    cases ha
    exact absurd rfl hsz
  · rw [if_neg hk] at ha
    by_cases hlt : newsz < oldsz
    · rw [if_pos hlt] at ha
      cases ha
      exact ⟨h, Keeps.refl _ _⟩
    · rw [if_neg hlt] at ha
      have hal : (PGROUNDUP oldsz).toNat % 4096 = 0 := by
        rw [toNat_PGROUNDUP]
        omega
      have hnew : newsz < KERNBASE := by
        rw [UInt32.lt_iff_toNat_lt]
        rw [ge_iff_le, UInt32.le_iff_toNat_le] at hk
        omega
      exact allocLoop_frame hnew h hal ha hsz

end Grow

/-!
## The page directories of a process
-/

/-- The page directories `exec` builds: `setupkvm` from a free list of
distinct pages of the kernel map, then successful calls of `allocuvm`. -/
inductive Built (img : Image) (pgdir : UInt32) : Machine → Prop
  | setup {s s' : Machine} : s.freelist.Nodup → (∀ p ∈ s.freelist, KPage p) →
      setupkvm img s = some (s', pgdir) → pgdir ≠ 0 → Built img pgdir s'
  | grow {s s' : Machine} {oldsz newsz sz : UInt32} : Built img pgdir s →
      allocuvm img s pgdir oldsz newsz = some (s', sz) → sz ≠ 0 → Built img pgdir s'

theorem built_gap {img : Image} (hfit : img.Fits) {pgdir : UInt32} {s : Machine}
    (hb : Built img pgdir s) :
    DirInv pgdir s ∧ ∀ i : UInt32, 0x238 ≤ i.toNat → i.toNat < 0x3F8 → pde s pgdir i = 0 := by
  induction hb with
  | setup hnd hfree hs hpg =>
      obtain ⟨h, hz⟩ := setupkvm_frame hfit hnd hfree hs hpg
      exact ⟨h, fun i hlo hhi => hz i (by omega) (Or.inr ⟨hlo, hhi⟩)⟩
  | grow _ ha hsz ih =>
      obtain ⟨h, hk⟩ := allocuvm_frame ih.1 ha hsz
      refine ⟨h, fun i hlo hhi => ?_⟩
      rw [hk i (by omega) (by omega)]
      exact ih.2 i hlo hhi

end Vm

end Xv6
