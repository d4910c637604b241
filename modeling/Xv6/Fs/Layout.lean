import Xv6.Library.Bytes

/-!
# The on-disk format

`fs.h` fixes what both the kernel and `mkfs` read and write: the layout of the
disk as boot block, superblock, log, inode blocks, free bitmap and data
blocks; `struct dinode`, eight to a block; and `struct dirent`, sixteen bytes
of inode number and name.  A structure is read and written through a pointer
into a block, so it is kept here as its bytes: a `short` in two, a `uint` in
four, little-endian as on the i386 and as `mkfs`'s `xshort` and `xint`
make them on any host.
-/

namespace Xv6

namespace Fs

open Bytes

-- `fs.h`
def ROOTINO : Nat := 1
def BSIZE : Nat := 512
def NDIRECT : Nat := 12
def NINDIRECT : Nat := BSIZE / 4
def MAXFILE : Nat := NDIRECT + NINDIRECT
/-- `sizeof(struct dinode)`: four `short`s, the size and `NDIRECT + 1` addresses. -/
def DINODESIZE : Nat := 64
def IPB : Nat := BSIZE / DINODESIZE
def BPB : Nat := BSIZE * 8
def DIRSIZ : Nat := 14
/-- `sizeof(struct dirent)`. -/
def DIRENTSIZE : Nat := 16

-- `stat.h`
def T_DIR : Int := 1
def T_FILE : Int := 2
def T_DEV : Int := 3

-- `param.h`
def NINODE : Nat := 50
def ROOTDEV : Nat := 1
def FSSIZE : Nat := 1000

/-- `struct superblock`. -/
structure Superblock where
  size : Nat
  nblocks : Nat
  ninodes : Nat
  nlog : Nat
  logstart : Nat
  inodestart : Nat
  bmapstart : Nat
deriving DecidableEq, Repr

/-- `IBLOCK(i, sb)`: the block holding inode `i`. -/
def IBLOCK (i : Nat) (sb : Superblock) : Nat :=
  i / IPB + sb.inodestart

/-- `BBLOCK(b, sb)`: the bitmap block holding the bit of block `b`. -/
def BBLOCK (b : Nat) (sb : Superblock) : Nat :=
  b / BPB + sb.bmapstart

/-- The byte of `IBLOCK(i, sb)` where the `struct dinode` of inode `i` starts:
`(struct dinode*)bp->data + i%IPB`. -/
def dinodeOffset (i : Nat) : Nat :=
  i % IPB * DINODESIZE

theorem dinodeOffset_disjoint {i j : Nat} {sb : Superblock} (hb : IBLOCK i sb = IBLOCK j sb) (hij : i ≠ j) :
    dinodeOffset i + DINODESIZE ≤ dinodeOffset j ∨ dinodeOffset j + DINODESIZE ≤ dinodeOffset i := by
  simp only [IBLOCK, Nat.add_right_cancel_iff] at hb
  simp only [dinodeOffset, IPB, BSIZE, DINODESIZE] at hb ⊢
  omega

/-- The blocks of the disk, as read through the buffer cache and the log. -/
abbrev Disk := Nat → Bytes

/-- `struct dinode`, with its `short`s as integers and its `uint`s as
naturals. -/
structure Dinode where
  type : Int
  major : Int
  minor : Int
  nlink : Int
  size : Nat
  addrs : Fin (NDIRECT + 1) → Nat

namespace Dinode

/-- The `struct dinode` at byte `o` of a block. -/
def get (m : Bytes) (o : Nat) : Dinode where
  type := getShort m o
  major := getShort m (o + 2)
  minor := getShort m (o + 4)
  nlink := getShort m (o + 6)
  size := getLE m (o + 8) 4
  addrs j := getLE m (o + 12 + 4 * j) 4

/-- `*dip = *ip`: the block with the `struct dinode` at byte `o` replaced. -/
def put (m : Bytes) (o : Nat) (d : Dinode) : Bytes :=
  setWords
    (setLE (setShort (setShort (setShort (setShort m o d.type) (o + 2) d.major) (o + 4) d.minor)
      (o + 6) d.nlink) (o + 8) d.size 4)
    (o + 12) (fun j => if h : j < NDIRECT + 1 then d.addrs ⟨j, h⟩ else 0) (NDIRECT + 1)

/-- The all-zero `struct dinode` of a free inode. -/
def zero : Dinode :=
  ⟨0, 0, 0, 0, 0, fun _ => 0⟩

/-- Every field fits its C type. -/
structure Fits (d : Dinode) : Prop where
  type : -2 ^ 15 ≤ d.type ∧ d.type < 2 ^ 15
  major : -2 ^ 15 ≤ d.major ∧ d.major < 2 ^ 15
  minor : -2 ^ 15 ≤ d.minor ∧ d.minor < 2 ^ 15
  nlink : -2 ^ 15 ≤ d.nlink ∧ d.nlink < 2 ^ 15
  size : d.size < 2 ^ 32
  addrs : ∀ j, d.addrs j < 2 ^ 32

theorem fits_get (m : Bytes) (o : Nat) : (get m o).Fits where
  type := getShort_bounds m o
  major := getShort_bounds m (o + 2)
  minor := getShort_bounds m (o + 4)
  nlink := getShort_bounds m (o + 6)
  size := getLE_lt m (o + 8) 4
  addrs j := getLE_lt m (o + 12 + 4 * j) 4

theorem put_of_lt {m : Bytes} {o i : Nat} {d : Dinode} (h : i < o) : put m o d i = m i := by
  simp only [put]
  rw [setWords_of_lt (by omega), setLE_of_lt (by omega)]
  simp only [setShort]
  rw [setLE_of_lt (by omega), setLE_of_lt (by omega), setLE_of_lt (by omega), setLE_of_lt h]

theorem put_of_le {m : Bytes} {o i : Nat} {d : Dinode} (h : o + DINODESIZE ≤ i) :
    put m o d i = m i := by
  simp only [put, DINODESIZE] at h ⊢
  rw [setWords_of_le (by simp [NDIRECT]; omega), setLE_of_le (by omega)]
  simp only [setShort]
  rw [setLE_of_le (by omega), setLE_of_le (by omega), setLE_of_le (by omega), setLE_of_le (by omega)]

theorem get_put_type (m : Bytes) (o : Nat) {d : Dinode} (hlo : -2 ^ 15 ≤ d.type) (hhi : d.type < 2 ^ 15) :
    (get (put m o d) o).type = d.type := by
  simp only [get, put]
  rw [getShort_setWords_of_disjoint _ _ (by omega), getShort_setLE_of_disjoint _ _ (by omega),
    getShort_setShort_of_disjoint _ _ (by omega), getShort_setShort_of_disjoint _ _ (by omega),
    getShort_setShort_of_disjoint _ _ (by omega), getShort_setShort_self _ _ hlo hhi]

theorem get_put_self (m : Bytes) (o : Nat) {d : Dinode} (hd : d.Fits) : get (put m o d) o = d := by
  have htype := get_put_type m o hd.type.1 hd.type.2
  obtain ⟨type, major, minor, nlink, size, addrs⟩ := d
  have hw : o + 12 + 4 * (NDIRECT + 1) = o + DINODESIZE := by simp [NDIRECT, DINODESIZE]
  simp only [get, put, Dinode.mk.injEq] at htype ⊢
  refine ⟨htype, ?_, ?_, ?_, ?_, ?_⟩
  · rw [getShort_setWords_of_disjoint _ _ (by omega), getShort_setLE_of_disjoint _ _ (by omega),
      getShort_setShort_of_disjoint _ _ (by omega), getShort_setShort_of_disjoint _ _ (by omega),
      getShort_setShort_self _ _ hd.major.1 hd.major.2]
  · rw [getShort_setWords_of_disjoint _ _ (by omega), getShort_setLE_of_disjoint _ _ (by omega),
      getShort_setShort_of_disjoint _ _ (by omega), getShort_setShort_self _ _ hd.minor.1 hd.minor.2]
  · rw [getShort_setWords_of_disjoint _ _ (by omega), getShort_setLE_of_disjoint _ _ (by omega),
      getShort_setShort_self _ _ hd.nlink.1 hd.nlink.2]
  · rw [getLE_setWords_of_disjoint _ _ (by omega), getLE_setLE_self,
      Nat.mod_eq_of_lt (by simpa using hd.size)]
  · funext j
    rw [getLE_setWords_self _ _ _ j.isLt, dif_pos j.isLt, Nat.mod_eq_of_lt (by simpa using hd.addrs j)]

theorem get_congr {m m' : Bytes} {o : Nat} (h : ∀ i, o ≤ i → i < o + DINODESIZE → m i = m' i) :
    get m o = get m' o := by
  have hfield : ∀ a w, o ≤ a → a + w ≤ o + DINODESIZE → getLE m a w = getLE m' a w :=
    fun a w ha hw => getLE_congr fun i hi hi' => h i (by omega) (by omega)
  have hw : o + 12 + 4 * (NDIRECT + 1) = o + DINODESIZE := by simp [NDIRECT, DINODESIZE]
  simp only [get, getShort, Dinode.mk.injEq]
  refine ⟨?_, ?_, ?_, ?_, ?_, ?_⟩
  · rw [hfield o 2 (by omega) (by unfold DINODESIZE; omega)]
  · rw [hfield (o + 2) 2 (by omega) (by unfold DINODESIZE; omega)]
  · rw [hfield (o + 4) 2 (by omega) (by unfold DINODESIZE; omega)]
  · rw [hfield (o + 6) 2 (by omega) (by unfold DINODESIZE; omega)]
  · exact hfield (o + 8) 4 (by omega) (by unfold DINODESIZE; omega)
  · funext j
    have hj := j.isLt
    exact hfield _ 4 (by omega) (by omega)

theorem get_put_of_disjoint (m : Bytes) {o o' : Nat} (d : Dinode)
    (hd : o' + DINODESIZE ≤ o ∨ o + DINODESIZE ≤ o') : get (put m o d) o' = get m o' := by
  apply get_congr
  intro i hi hi'
  rcases hd with hd | hd
  · exact put_of_lt (by omega)
  · exact put_of_le (by omega)

end Dinode

namespace Superblock

/-- The `struct superblock` at the start of a block. -/
def get (m : Bytes) : Superblock :=
  ⟨getLE m 0 4, getLE m 4 4, getLE m 8 4, getLE m 12 4, getLE m 16 4, getLE m 20 4, getLE m 24 4⟩

/-- The fields in the order of `struct superblock`. -/
def fields (sb : Superblock) : List Nat :=
  [sb.size, sb.nblocks, sb.ninodes, sb.nlog, sb.logstart, sb.inodestart, sb.bmapstart]

/-- `memmove(buf, &sb, sizeof(sb))`. -/
def put (m : Bytes) (sb : Superblock) : Bytes :=
  setWords m 0 (fun j => sb.fields.getD j 0) 7

theorem get_put (m : Bytes) {sb : Superblock} (h : ∀ x ∈ sb.fields, x < 2 ^ 32) : get (put m sb) = sb := by
  have hw : ∀ j, j < 7 → getLE (put m sb) (4 * j) 4 = sb.fields.getD j 0 := by
    intro j hj
    have hx : sb.fields.getD j 0 < 2 ^ 32 := by
      apply h
      rw [List.getD_eq_getElem _ _ (by simpa [fields] using hj)]
      exact List.getElem_mem _
    have hword := getLE_setWords_self m 0 (fun j => sb.fields.getD j 0) hj
    have hx' : sb.fields.getD j 0 < 256 ^ 4 := lt_of_lt_of_eq hx rfl
    rw [Nat.zero_add, Nat.mod_eq_of_lt hx'] at hword
    exact hword
  obtain ⟨size, nblocks, ninodes, nlog, logstart, inodestart, bmapstart⟩ := sb
  simp only [get, Superblock.mk.injEq]
  exact ⟨hw 0 (by decide), hw 1 (by decide), hw 2 (by decide), hw 3 (by decide), hw 4 (by decide),
    hw 5 (by decide), hw 6 (by decide)⟩

end Superblock

end Fs

end Xv6
