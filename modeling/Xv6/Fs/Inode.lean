import Xv6.Fs.Layout
import Xv6.Library.CInt

/-!
# Inodes and blocks

The lower layers of `fs.c`: the block allocator `balloc` and `bfree` on the
free bitmap; the inode cache `icache` with `iget`, `ilock`, `iupdate` and
`iput`; and `bmap` and `itrunc`, which map the blocks of a file through its
direct addresses and its indirect block.

The state is the superblock `iinit` read, the disk as the buffer cache and
the log show it, and the cache.  An inode pointer is a slot of `icache`.  Each
function runs whole, as it does under the locks of the inode and of the
buffers it holds; `none` is a panic.  `log_write` is a write to the disk
seen here: when the log makes it durable is the business of `Log`.
-/

namespace Xv6

namespace Fs

open Bytes

/-- `struct inode`: the cache entry's `dev`, `inum`, `ref` and `valid`, and its
copy of `struct dinode`.  The sleep-lock is not modelled. -/
structure Inode extends Dinode where
  dev : Nat
  inum : Nat
  ref : Int
  valid : Bool

/-- A slot of the zeroed static `icache`. -/
def Inode.zero : Inode :=
  { Dinode.zero with dev := 0, inum := 0, ref := 0, valid := false }

instance : NeZero NINODE := ⟨by decide⟩

/-- What the kernel's file system works on. -/
structure State where
  sb : Superblock
  disk : Disk
  icache : Fin NINODE → Inode

namespace State

def setDisk (s : State) (b : Nat) (blk : Bytes) : State :=
  { s with disk := Function.update s.disk b blk }

def setInode (s : State) (i : Fin NINODE) (ip : Inode) : State :=
  { s with icache := Function.update s.icache i ip }

/-- `ip->addrs[j] = a`. -/
def setAddr (s : State) (i : Fin NINODE) (j : Fin (NDIRECT + 1)) (a : Nat) : State :=
  s.setInode i { s.icache i with addrs := Function.update (s.icache i).addrs j a }

variable {s : State} {b b' : Nat} {blk : Bytes} {i i' : Fin NINODE} {ip : Inode}

@[simp] theorem setDisk_sb : (s.setDisk b blk).sb = s.sb := rfl
@[simp] theorem setDisk_icache : (s.setDisk b blk).icache = s.icache := rfl
@[simp] theorem setDisk_disk_self : (s.setDisk b blk).disk b = blk := Function.update_self _ _ _

theorem setDisk_disk_of_ne (h : b' ≠ b) : (s.setDisk b blk).disk b' = s.disk b' :=
  Function.update_of_ne h _ _

@[simp] theorem setInode_sb : (s.setInode i ip).sb = s.sb := rfl
@[simp] theorem setInode_disk : (s.setInode i ip).disk = s.disk := rfl
@[simp] theorem setInode_icache_self : (s.setInode i ip).icache i = ip := Function.update_self _ _ _

theorem setInode_icache_of_ne (h : i' ≠ i) : (s.setInode i ip).icache i' = s.icache i' :=
  Function.update_of_ne h _ _

@[simp] theorem setAddr_sb {j : Fin (NDIRECT + 1)} {a : Nat} : (s.setAddr i j a).sb = s.sb := rfl
@[simp] theorem setAddr_disk {j : Fin (NDIRECT + 1)} {a : Nat} : (s.setAddr i j a).disk = s.disk := rfl

end State

open State

/-!
## Blocks
-/

/-- The test of `balloc`'s inner loop: `(bp->data[bi/8] & m) == 0` with
`m = 1 << (bi % 8)`, for block `b + bi` of bitmap block `BBLOCK(b, sb)`. -/
def blockFree (s : State) (i : Nat) : Bool :=
  (s.disk (BBLOCK i s.sb) (i % BPB / 8)).toNat &&& 1 <<< (i % BPB % 8) == 0

/-- The block `balloc` finds: its loops over the bitmap blocks `b` and their
bits `bi` test the blocks `b + bi` below `sb.size` in increasing order. -/
def firstFree (s : State) : Option Nat :=
  (List.range s.sb.size).find? (blockFree s)

/-- `bzero`. -/
def bzero (s : State) (b : Nat) : State :=
  s.setDisk b fun _ => 0

/-- `balloc`: mark the block in use, then `bzero` it; `none` is
`panic("balloc: out of blocks")`. -/
def balloc (s : State) : Option (State × Nat) :=
  (firstFree s).map fun b =>
    let bm := BBLOCK b s.sb
    (bzero (s.setDisk bm (setBit (s.disk bm) (b % BPB))) b, b)

/-- `bfree`; `none` is `panic("freeing free block")`. -/
def bfree (s : State) (b : Nat) : Option State :=
  let bm := BBLOCK b s.sb
  let bi := b % BPB
  if (s.disk bm (bi / 8)).toNat &&& 1 <<< (bi % 8) = 0 then none
  else some (s.setDisk bm (clearBit (s.disk bm) bi))

theorem blockFree_eq (s : State) (b : Nat) : blockFree s b = !bit (s.disk (BBLOCK b s.sb)) (b % BPB) := by
  have h := and_mask_eq_zero_iff (s.disk (BBLOCK b s.sb)) (b % BPB)
  simp only [blockFree, bit] at h ⊢
  cases hb : (s.disk (BBLOCK b s.sb) (b % BPB / 8)).toNat.testBit (b % BPB % 8) <;> simp_all

theorem firstFree_eq_some_iff {s : State} {b : Nat} :
    firstFree s = some b ↔ b < s.sb.size ∧ blockFree s b ∧ ∀ c < b, blockFree s c = false := by
  unfold firstFree
  rw [List.find?_range_eq_some]
  simp only [List.mem_range, Bool.not_eq_true']
  tauto

theorem balloc_of_firstFree {s : State} {b : Nat} (h : firstFree s = some b) :
    balloc s = some (bzero (s.setDisk (BBLOCK b s.sb) (setBit (s.disk (BBLOCK b s.sb)) (b % BPB))) b, b) := by
  simp [balloc, h]

/-!
## The inode cache
-/

/-- The `struct dinode` of inode `inum` on the disk. -/
def dinodeOf (s : State) (inum : Nat) : Dinode :=
  Dinode.get (s.disk (IBLOCK inum s.sb)) (dinodeOffset inum)

/-- `iupdate`: copy the cached fields to the `struct dinode` on the disk. -/
def iupdate (s : State) (i : Fin NINODE) : State :=
  let ip := s.icache i
  let bn := IBLOCK ip.inum s.sb
  s.setDisk bn (Dinode.put (s.disk bn) (dinodeOffset ip.inum) ip.toDinode)

@[simp] theorem iupdate_icache (s : State) (i : Fin NINODE) : (iupdate s i).icache = s.icache :=
  rfl

/-- `iget`: the live entry already holding the inode, or else the first free
one, recycled with `valid = 0`; `none` is `panic("iget: no inodes")`. -/
def iget (s : State) (dev inum : Nat) : Option (State × Fin NINODE) :=
  match (List.finRange NINODE).find? (fun j =>
      0 < (s.icache j).ref ∧ (s.icache j).dev = dev ∧ (s.icache j).inum = inum) with
  | some j => some (s.setInode j { s.icache j with ref := (s.icache j).ref + 1 }, j)
  | none =>
      match (List.finRange NINODE).find? (fun j => (s.icache j).ref = 0) with
      | some j => some (s.setInode j { s.icache j with dev := dev, inum := inum, ref := 1, valid := false }, j)
      | none => none

/-- `idup`: one more reference to a cache entry. -/
def idup (s : State) (i : Fin NINODE) : State :=
  s.setInode i { s.icache i with ref := (s.icache i).ref + 1 }

theorem iget_of_fresh {s : State} {dev inum : Nat} {j : Fin NINODE}
    (hlive : ∀ j', ¬(0 < (s.icache j').ref ∧ (s.icache j').dev = dev ∧ (s.icache j').inum = inum))
    (hfree : (List.finRange NINODE).find? (fun j' => (s.icache j').ref = 0) = some j) :
    iget s dev inum = some (s.setInode j { s.icache j with dev := dev, inum := inum, ref := 1, valid := false }, j) := by
  have hnone : (List.finRange NINODE).find? (fun j' =>
      0 < (s.icache j').ref ∧ (s.icache j').dev = dev ∧ (s.icache j').inum = inum) = none :=
    List.find?_eq_none.mpr fun j' _ => by simpa using hlive j'
  simp only [iget, hnone, hfree]

/-- `ilock`: read the `struct dinode` into an entry that is not valid; `none`
is `panic("ilock")` or `panic("ilock: no type")`. -/
def ilock (s : State) (i : Fin NINODE) : Option State :=
  let ip := s.icache i
  if ip.ref < 1 then none
  else if ip.valid then some s
  else
    let d := dinodeOf s ip.inum
    if d.type = 0 then none else some (s.setInode i { ip with toDinode := d, valid := true })

theorem ilock_of_valid {s : State} {i : Fin NINODE} (hr : 1 ≤ (s.icache i).ref) (hv : (s.icache i).valid = true) :
    ilock s i = some s := by
  simp [ilock, hv, Int.not_lt.mpr hr]

theorem ilock_of_invalid {s : State} {i : Fin NINODE} (hr : 1 ≤ (s.icache i).ref) (hv : (s.icache i).valid = false)
    (ht : (dinodeOf s (s.icache i).inum).type ≠ 0) :
    ilock s i = some (s.setInode i { s.icache i with toDinode := dinodeOf s (s.icache i).inum, valid := true }) := by
  simp [ilock, hv, ht, Int.not_lt.mpr hr]

/-- `ialloc`: the first free inode from `1`, marked with its type on the disk,
then `iget`; `none` is `panic("ialloc: no inodes")`. -/
def ialloc (s : State) (dev : Nat) (type : Int) : Option (State × Fin NINODE) :=
  match (List.range' 1 (s.sb.ninodes - 1)).find? (fun inum => (dinodeOf s inum).type = 0) with
  | none => none
  | some inum =>
      let bn := IBLOCK inum s.sb
      iget (s.setDisk bn (Dinode.put (s.disk bn) (dinodeOffset inum) { Dinode.zero with type := type }))
        dev inum

/-!
## Block maps
-/

/-- `bmap`: the block holding block `bn` of the file, allocated if there is
none; `none` is a panic of `balloc`, or `panic("bmap: out of range")`. -/
def bmap (s : State) (i : Fin NINODE) (bn : Nat) : Option (State × Nat) :=
  let ip := s.icache i
  if h : bn < NDIRECT then
    let j : Fin (NDIRECT + 1) := ⟨bn, by omega⟩
    if ip.addrs j = 0 then (balloc s).map fun (s, a) => (s.setAddr i j a, a)
    else some (s, ip.addrs j)
  else
    let bn := bn - NDIRECT
    if bn < NINDIRECT then
      -- load the indirect block, allocating it if necessary
      let ind : Option (State × Nat) :=
        if ip.addrs (Fin.last NDIRECT) = 0 then
          (balloc s).map fun (s, a) => (s.setAddr i (Fin.last NDIRECT) a, a)
        else some (s, ip.addrs (Fin.last NDIRECT))
      ind.bind fun (s, ia) =>
        let a := getLE (s.disk ia) (4 * bn) 4
        if a = 0 then
          -- `a[bn] = balloc(ip->dev); log_write(bp)`
          (balloc s).map fun (s, a) => (s.setDisk ia (setLE (s.disk ia) (4 * bn) a 4), a)
        else some (s, a)
    else none

theorem bmap_of_mapped {s : State} {i : Fin NINODE} {bn : Nat} (hbn : bn < NDIRECT)
    (ha : (s.icache i).addrs ⟨bn, by omega⟩ ≠ 0) : bmap s i bn = some (s, (s.icache i).addrs ⟨bn, by omega⟩) := by
  simp [bmap, hbn, ha]

theorem bmap_of_hole {s : State} {i : Fin NINODE} {bn : Nat} (hbn : bn < NDIRECT)
    (ha : (s.icache i).addrs ⟨bn, by omega⟩ = 0) :
    bmap s i bn = (balloc s).map fun (s, a) => (s.setAddr i ⟨bn, by omega⟩ a, a) := by
  simp [bmap, hbn, ha]

/-- `itrunc`'s loop over the direct addresses. -/
def truncDirect (i : Fin NINODE) (s : State) : Option State :=
  (List.finRange NDIRECT).foldlM (fun s j =>
    let a := (s.icache i).addrs j.castSucc
    if a ≠ 0 then (bfree s a).map fun s => s.setAddr i j.castSucc 0 else some s) s

/-- `itrunc`'s loop over the entries of the indirect block `ia`. -/
def truncIndirect (ia : Nat) (s : State) : Option State :=
  (List.range NINDIRECT).foldlM (fun s j =>
    let a := getLE (s.disk ia) (4 * j) 4
    if a ≠ 0 then bfree s a else some s) s

/-- `itrunc`: free every block of the file, then its indirect block, and write
back the emptied inode. -/
def itrunc (s : State) (i : Fin NINODE) : Option State :=
  (truncDirect i s).bind fun s =>
    let ia := (s.icache i).addrs (Fin.last NDIRECT)
    let s? : Option State :=
      if ia ≠ 0 then
        ((truncIndirect ia s).bind fun s => bfree s ia).map fun s => s.setAddr i (Fin.last NDIRECT) 0
      else some s
    s?.map fun s => iupdate (s.setInode i { s.icache i with size := 0 }) i

/-- `iput`: the last reference to an inode with no links truncates and frees
it; then one reference fewer. -/
def iput (s : State) (i : Fin NINODE) : Option State :=
  let ip := s.icache i
  let freed : Option State :=
    if ip.valid ∧ ip.nlink = 0 ∧ ip.ref = 1 then
      (itrunc s i).map fun s =>
        let s := iupdate (s.setInode i { s.icache i with type := 0 }) i
        s.setInode i { s.icache i with valid := false }
    else some s
  freed.map fun s => s.setInode i { s.icache i with ref := (s.icache i).ref - 1 }

theorem iput_of_not_last {s : State} {i : Fin NINODE}
    (h : ¬((s.icache i).valid ∧ (s.icache i).nlink = 0 ∧ (s.icache i).ref = 1)) :
    iput s i = some (s.setInode i { s.icache i with ref := (s.icache i).ref - 1 }) := by
  simp only [iput, if_neg h, Option.map_some]

end Fs

end Xv6
