import Mathlib.Logic.Function.Basic
import Xv6.Library.CInt

/-!
# The user heap allocator

`malloc` and `free` of `umalloc.c`, the allocator of K&R 8.7.  Blocks carry a
header, a pointer to the next free block and the block's size in units of
`sizeof(Header)`, which is 8 bytes; the free list is circular, runs through
the static `base`, and `morecore` extends it with memory from `sbrk`.

`malloc(nbytes)` asks for `(nbytes + 7) / 8 + 1` units, computed in `uint`.
For `nbytes` of `2^32 - 7` or more the sum wraps and the request is one unit,
the header alone: every block `malloc` can return for such a request holds
no byte of the caller's.

Memory is read and written through `Header *` only, so it is kept as the
header at each address.  Loops that follow the free list are given fuel.
-/

namespace Xv6

namespace Umalloc

open Function

/-- `union header`: the next block on the free list, and this block's size
in units. -/
structure Header where
  ptr : UInt32
  size : UInt32
deriving DecidableEq, Repr

/-- `sizeof(Header)`: a pointer and a `uint`; `Align` is a 4-byte `long`. -/
def HDRSIZE : UInt32 := 8

/-- `KERNBASE`, where `allocuvm` stops a process. -/
def KERNBASE : UInt32 := 0x80000000

/-- A process's heap: the header at each address, the address of the static
`base`, `freep` (`0` for null), and the process size that `sbrk` moves. -/
structure Heap where
  hdr : UInt32 → Header
  base : UInt32
  freep : UInt32
  sz : UInt32

/-- `p + k` on `Header *`. -/
def hplus (p k : UInt32) : UInt32 :=
  p + HDRSIZE * k

namespace Heap

/-- `a->s.ptr = v`. -/
def setPtr (h : Heap) (a v : UInt32) : Heap :=
  { h with hdr := update h.hdr a { h.hdr a with ptr := v } }

/-- `a->s.size = v`. -/
def setSize (h : Heap) (a v : UInt32) : Heap :=
  { h with hdr := update h.hdr a { h.hdr a with size := v } }

variable {h : Heap} {a b v : UInt32}

@[simp] theorem setPtr_size : ((h.setPtr a v).hdr b).size = (h.hdr b).size := by
  by_cases hb : b = a
  · subst hb
    simp [setPtr]
  · simp [setPtr, hb]

@[simp] theorem setSize_self : ((h.setSize a v).hdr a).size = v := by
  simp [setSize]

end Heap

/-- The `for` loop of `free`: from `p` on, the free block after which `bp`
goes; `none` when the fuel runs out. -/
def freeScan (h : Heap) (bp : UInt32) : ℕ → UInt32 → Option UInt32
  | 0, _ => none
  | fuel + 1, p =>
      if bp > p ∧ bp < (h.hdr p).ptr then
        some p
      else if p ≥ (h.hdr p).ptr ∧ (bp > p ∨ bp < (h.hdr p).ptr) then
        some p
      else
        freeScan h bp fuel (h.hdr p).ptr

/-- `free(ap)`. -/
def free (h : Heap) (ap : UInt32) (fuel : ℕ) : Option Heap :=
  let bp := ap - HDRSIZE
  (freeScan h bp fuel h.freep).map fun p =>
    -- join `bp` to the block after it, or link it to that block
    let h :=
      if hplus bp (h.hdr bp).size = (h.hdr p).ptr then
        let h := h.setSize bp ((h.hdr bp).size + (h.hdr (h.hdr p).ptr).size)
        h.setPtr bp (h.hdr (h.hdr p).ptr).ptr
      else
        h.setPtr bp (h.hdr p).ptr
    -- join `p` to `bp`, or link `p` to it
    let h :=
      if hplus p (h.hdr p).size = bp then
        let h := h.setSize p ((h.hdr p).size + (h.hdr bp).size)
        h.setPtr p (h.hdr bp).ptr
      else
        h.setPtr p bp
    { h with freep := p }

/-- `growproc(n)` on the process size, as `sys_sbrk` calls it: `allocuvm`
fails at `KERNBASE` and keeps a size it would shrink, `deallocuvm` keeps a
size it would grow, and a result `0` is a failure; `none` is `-1`.  Running
out of physical pages is not modelled. -/
def growproc (sz : UInt32) (n : Int) : Option UInt32 :=
  if 0 < n then
    let newsz := sz + UInt32.ofInt n
    if newsz ≥ KERNBASE then none
    else if newsz < sz then some sz
    else some newsz
  else if n < 0 then
    let newsz := sz + UInt32.ofInt n
    let r := if newsz ≥ sz then sz else newsz
    if r = 0 then none else some r
  else
    some sz

/-- `sbrk(n)`: the old size, or `(char*)-1`. -/
def sbrk (h : Heap) (n : Int) : Heap × UInt32 :=
  match growproc h.sz n with
  | none => (h, 0xFFFFFFFF)
  | some sz => ({ h with sz := sz }, h.sz)

/-- `morecore(nu)`: the heap and the new `freep`, `0` when `sbrk` fails. -/
def morecore (h : Heap) (nu : UInt32) (fuel : ℕ) : Option (Heap × UInt32) :=
  let nu := if nu < 4096 then 4096 else nu
  let r := sbrk h (CInt.ofUInt (nu * HDRSIZE).toNat)
  if r.2 = 0xFFFFFFFF then
    some (r.1, 0)
  else
    (free (r.1.setSize r.2 nu) (hplus r.2 1) fuel).map fun h => (h, h.freep)

/-- `nunits` of `malloc(nbytes)`, in `uint`. -/
def nunits (nbytes : UInt32) : UInt32 :=
  (nbytes + HDRSIZE - 1) / HDRSIZE + 1

/-- The `for` loop of `malloc` for `nu` units (its `nunits`) from `prevp`
and `p`: the heap and the pointer returned, `0` for none. -/
def mallocLoop (nu : UInt32) : ℕ → Heap → UInt32 → UInt32 → Option (Heap × UInt32)
  | 0, _, _, _ => none
  | fuel + 1, h, prevp, p =>
      if (h.hdr p).size ≥ nu then
        if (h.hdr p).size = nu then
          some ({ h.setPtr prevp (h.hdr p).ptr with freep := prevp }, hplus p 1)
        else
          -- hand out the tail of the block
          let h := h.setSize p ((h.hdr p).size - nu)
          let p := hplus p (h.hdr p).size
          some ({ h.setSize p nu with freep := prevp }, hplus p 1)
      else if p = h.freep then
        (morecore h nu fuel).bind fun r =>
          if r.2 = 0 then some (r.1, 0) else mallocLoop nu fuel r.1 r.2 (r.1.hdr r.2).ptr
      else
        mallocLoop nu fuel h p (h.hdr p).ptr

/-- `malloc(nbytes)`: the heap and the pointer returned, `0` for none;
`none` when the fuel runs out. -/
def malloc (h : Heap) (nbytes : UInt32) (fuel : ℕ) : Option (Heap × UInt32) :=
  let h :=
    if h.freep = 0 then
      let h := h.setPtr h.base h.base
      ({ h with freep := h.base } : Heap).setSize h.base 0
    else h
  mallocLoop (nunits nbytes) fuel h h.freep (h.hdr h.freep).ptr

/-!
## The size of the block `malloc` returns
-/

theorem hplus_one_sub (p : UInt32) : hplus p 1 - HDRSIZE = p := by
  simp [hplus]

theorem mallocLoop_size (nu : UInt32) (fuel : ℕ) :
    ∀ {h h' : Heap} {prevp p q : UInt32}, mallocLoop nu fuel h prevp p = some (h', q) → q ≠ 0 →
      (h'.hdr (q - HDRSIZE)).size = nu := by
  induction fuel with
  | zero =>
      intro h h' prevp p q hrun
      cases hrun
  | succ fuel ih =>
      intro h h' prevp p q hrun hq
      simp only [mallocLoop] at hrun
      by_cases hfit : (h.hdr p).size ≥ nu
      · rw [if_pos hfit] at hrun
        by_cases hexact : (h.hdr p).size = nu
        · -- the block fits exactly: unlinking it leaves its size
          rw [if_pos hexact] at hrun
          cases hrun
          rw [hplus_one_sub]
          exact Heap.setPtr_size.trans hexact
        · -- the tail of the block is given its size last
          rw [if_neg hexact] at hrun
          cases hrun
          rw [hplus_one_sub]
          exact Heap.setSize_self
      · rw [if_neg hfit] at hrun
        split at hrun
        · -- back at `freep`: `morecore`, then on from the block it returns
          obtain ⟨r, -, hr⟩ := Option.bind_eq_some_iff.mp hrun
          split at hr
          · cases hr
            exact absurd rfl hq
          · exact ih hr hq
        · exact ih hrun hq

theorem malloc_size {h h' : Heap} {nbytes q : UInt32} {fuel : ℕ} (hrun : malloc h nbytes fuel = some (h', q))
    (hq : q ≠ 0) : (h'.hdr (q - HDRSIZE)).size = nunits nbytes :=
  mallocLoop_size _ fuel hrun hq

theorem nunits_eq_one {nbytes : UInt32} (h : 0xFFFFFFF9 ≤ nbytes) : nunits nbytes = 1 := by
  have hn := UInt32.toNat_lt nbytes
  have h' : 0xFFFFFFF9 ≤ nbytes.toNat := by simpa [UInt32.le_iff_toNat_le] using h
  rw [nunits, HDRSIZE, ← UInt32.toNat_inj]
  simp only [UInt32.toNat_add, UInt32.toNat_sub, UInt32.toNat_div, UInt32.toNat_one, UInt32.reduceToNat]
  omega

/-- `malloc` of one of the seven largest sizes returns, when it returns a
block at all, a block of one unit: the header alone.  A process that has not
called `malloc` yet and asks for `2^32 - 1` bytes gets such a block, cut
from the end of the 4096 units `morecore` took from `sbrk`: a non-null
pointer at the very end of the process's memory. -/
theorem malloc_wraps_to_empty_block :
    (∀ (h h' : Heap) (nbytes q : UInt32) (fuel : ℕ), 0xFFFFFFF9 ≤ nbytes →
        malloc h nbytes fuel = some (h', q) → q ≠ 0 → (h'.hdr (q - HDRSIZE)).size = 1) ∧
      ∃ h' q, malloc ⟨fun _ => ⟨0, 0⟩, 0x2000, 0, 0x3000⟩ 0xFFFFFFFF 3 = some (h', q) ∧ q ≠ 0 ∧ h'.sz ≤ q := by
  refine ⟨fun h h' nbytes q fuel hn hrun hq => (malloc_size hrun hq).trans (nunits_eq_one hn), ?_⟩
  have hrun : (malloc ⟨fun _ => ⟨0, 0⟩, 0x2000, 0, 0x3000⟩ 0xFFFFFFFF 3).map
      (fun r => decide (r.2 ≠ 0 ∧ r.1.sz ≤ r.2)) = some true := by
    decide
  obtain ⟨⟨h', q⟩, hmalloc, hend⟩ := Option.map_eq_some_iff.mp hrun
  exact ⟨h', q, hmalloc, of_decide_eq_true hend⟩

end Umalloc

end Xv6
