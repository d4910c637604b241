import Xv6.Fs.Mkfs
import Xv6.Fs.Path

/-!
# The kernel on an image `mkfs` wrote

`iinit` reads the superblock of the disk it boots from, and the inode cache
starts empty.  `userinit` gives the first process the root directory as its
current directory, `namei("/")`, and the first thing `init` does is open
`console`, which `mkfs` never writes: `namei("console")` reads the root
directory to its end and finds nothing.

With thirty host files the root directory's second block is a hole
(`Mkfs.mkfs_root_dir_has_hole`).  Reading through it, `readi` calls `bmap`,
which allocates a block for the hole: the root directory's cache entry gets
the block, and nothing writes that entry back to its `struct dinode`.
-/

namespace Xv6

namespace Fs

open Bytes

/-- The state `iinit` leaves: the superblock of the boot disk and the zeroed
cache. -/
def boot (d : Disk) : State where
  sb := Superblock.get (d 1)
  disk := d
  icache := fun _ => Inode.zero

/-- `"console"`. -/
def console : List UInt8 :=
  [99, 111, 110, 115, 111, 108, 101]

/-- The cache entry `iget(ROOTDEV, ROOTINO)` makes of a free slot. -/
def rootEntry : Inode :=
  { Inode.zero with dev := ROOTDEV, inum := ROOTINO, ref := 1, valid := false }

theorem namei_slash (d : Disk) (cwd : Fin NINODE) :
    namei (boot d) cwd [47] = some ((boot d).setInode 0 rootEntry, some 0) := by
  have hfree : (List.finRange NINODE).find? (fun j => ((boot d).icache j).ref = 0) = some 0 := by
    rw [List.find?_eq_some_iff_getElem]
    refine ⟨by simp [boot, Inode.zero], 0, by simp [NINODE], by simp, fun j hj => absurd hj (Nat.not_lt_zero j)⟩
  have hget : iget (boot d) ROOTDEV ROOTINO = some ((boot d).setInode 0 rootEntry, 0) :=
    iget_of_fresh (fun j => by simp [boot, Inode.zero]) hfree
  have hend : skipelem [47] (fun _ => 0) = none := skipelem_of_slashes (by simp)
  simp only [namei, namex, List.head?_cons, if_true, hget, Option.bind_some]
  rw [namexLoop_of_none hend]
  rfl

/-!
## The root directory of thirty files
-/

/-- The kernel's state over the image `st`, with slot `0` holding the root
directory's `struct dinode` as `ilock` reads it from the image. -/
structure RootLoaded (st : Mkfs.Img) (s : State) : Prop where
  sb : s.sb = Mkfs.sb
  disk : s.disk = st.img
  root : (s.icache 0).toDinode = Mkfs.rootDinode (2 * BSIZE)

/-- The first block the bitmap of `mkfs` leaves free, after the root
directory's first block. -/
def holeBlock : Nat :=
  Mkfs.nmeta + 1

/-- What `bmap` leaves when it gives the hole of slot `0` the block
`holeBlock`: the bit set, the block zeroed, the address in the cache. -/
def fillHole (s : State) : State :=
  let bm := BBLOCK holeBlock s.sb
  (bzero (s.setDisk bm (setBit (s.disk bm) (holeBlock % BPB))) holeBlock).setAddr 0 ⟨1, by decide⟩ holeBlock

section Loaded

variable {st : Mkfs.Img} {s : State}

theorem bblock_of_le_holeBlock {b : Nat} (h : b ≤ holeBlock) : BBLOCK b Mkfs.sb = Mkfs.sb.bmapstart := by
  simp only [BBLOCK, holeBlock, BPB, BSIZE, Mkfs.nmeta, nlog, LOGSIZE, MAXOPBLOCKS, Mkfs.ninodeblocks,
    Mkfs.nbitmap, Mkfs.NINODES, IPB, DINODESIZE, FSSIZE] at h ⊢
  omega

theorem firstFree_of_loaded (hf : Mkfs.Final st) (h : RootLoaded st s) : firstFree s = some holeBlock := by
  have hlt : holeBlock < BPB := by decide
  have hbit : ∀ c ≤ holeBlock, blockFree s c = !decide (c < holeBlock) := by
    intro c hc
    rw [blockFree_eq, h.sb, h.disk, bblock_of_le_holeBlock hc, hf.bitmap, bit_foldl_setBit, bit_zero,
      Nat.mod_eq_of_lt (by omega)]
    simp [holeBlock]
  rw [firstFree_eq_some_iff]
  refine ⟨by rw [h.sb]; decide, by simp [hbit _ le_rfl], fun c hc => ?_⟩
  simp [hbit c hc.le, hc]

theorem RootLoaded.type (h : RootLoaded st s) : (s.icache 0).type = T_DIR :=
  congrArg Dinode.type h.root

theorem RootLoaded.size (h : RootLoaded st s) : (s.icache 0).size = 2 * BSIZE :=
  congrArg Dinode.size h.root

theorem RootLoaded.addrs (h : RootLoaded st s) (j : Fin (NDIRECT + 1)) :
    (s.icache 0).addrs j = (Mkfs.rootDinode (2 * BSIZE)).addrs j :=
  congrFun (congrArg Dinode.addrs h.root) j

theorem readi_first_block (h : RootLoaded st s) {j : Nat} (hj : j < BSIZE / DIRENTSIZE) :
    readi s 0 (UInt32.ofNat (DIRENTSIZE * j)) (UInt32.ofNat DIRENTSIZE) =
      some (s, (DIRENTSIZE : Int), (List.range DIRENTSIZE).map fun k => st.img Mkfs.nmeta (DIRENTSIZE * j + k)) := by
  have hbn : DIRENTSIZE * j / BSIZE = 0 := by unfold BSIZE DIRENTSIZE at *; omega
  have hmod : DIRENTSIZE * j % BSIZE = DIRENTSIZE * j := by unfold BSIZE DIRENTSIZE at *; omega
  have ha : (s.icache 0).addrs ⟨DIRENTSIZE * j / BSIZE, by rw [hbn]; decide⟩ = Mkfs.nmeta := by
    rw [h.addrs]
    exact Mkfs.rootDinode_addrs_of_val hbn
  rw [readi_entry (by rw [h.type]; decide) (by simp [DIRENTSIZE]) (by rw [h.size]; unfold BSIZE DIRENTSIZE at *; omega)
    (by rw [h.size]; decide) (by rw [hbn]; decide) (by rw [ha]; decide), ha, h.disk, hmod]

theorem readi_hole (hf : Mkfs.Final st) (h : RootLoaded st s) :
    readi s 0 (UInt32.ofNat BSIZE) (UInt32.ofNat DIRENTSIZE) =
      some (fillHole s, (DIRENTSIZE : Int), (List.range DIRENTSIZE).map fun _ => 0) := by
  have ha : (s.icache 0).addrs ⟨1, by decide⟩ = 0 := by
    rw [h.addrs]
    exact Mkfs.rootDinode_addrs_of_ne (by decide)
  have hb : bmap s 0 1 = some (fillHole s, holeBlock) := by
    rw [bmap_of_hole (by decide) ha, balloc_of_firstFree (firstFree_of_loaded hf h)]
    rfl
  have hz : (fillHole s).disk holeBlock = fun _ => 0 := by simp [fillHole, bzero]
  have hn : (UInt32.ofNat DIRENTSIZE).toNat = DIRENTSIZE := rfl
  have hc : CInt.ofUInt DIRENTSIZE = DIRENTSIZE := by decide
  rw [readi_within_block (by rw [h.type]; decide) (by decide) (by rw [h.size]; decide) (by decide) (by decide) hb, hz,
    hn, hc]

theorem fillHole_icache_self : (fillHole s).icache 0 =
    { s.icache 0 with addrs := Function.update (s.icache 0).addrs 1 holeBlock } := by
  simp only [fillHole, State.setAddr, State.setInode_icache_self, bzero, State.setDisk_icache]
  rfl

theorem fillHole_disk_holeBlock : (fillHole s).disk holeBlock = fun _ => 0 := by
  simp [fillHole, bzero]

theorem fillHole_disk_of_ne {b : Nat} (h₁ : b ≠ holeBlock) (h₂ : b ≠ BBLOCK holeBlock s.sb) :
    (fillHole s).disk b = s.disk b := by
  simp only [fillHole, bzero, State.setAddr_disk]
  rw [State.setDisk_disk_of_ne h₁, State.setDisk_disk_of_ne h₂]

theorem readi_second_block (h : RootLoaded st s) {off : Nat} (hoff : BSIZE ≤ off) (hal : off % DIRENTSIZE = 0)
    (hend : off + DIRENTSIZE ≤ 2 * BSIZE) :
    readi (fillHole s) 0 (UInt32.ofNat off) (UInt32.ofNat DIRENTSIZE) =
      some (fillHole s, (DIRENTSIZE : Int), (List.range DIRENTSIZE).map fun _ => 0) := by
  have hbn : off / BSIZE = 1 := by unfold BSIZE DIRENTSIZE at *; omega
  have hi : (fillHole s).icache 0 = _ := fillHole_icache_self
  have hj : (⟨off / BSIZE, by rw [hbn]; decide⟩ : Fin (NDIRECT + 1)) = 1 := Fin.ext hbn
  have ha : ((fillHole s).icache 0).addrs ⟨off / BSIZE, by rw [hbn]; decide⟩ = holeBlock := by
    rw [hi, hj]
    exact Function.update_self 1 holeBlock (s.icache 0).addrs
  rw [readi_entry (by rw [hi]; exact h.type ▸ (by decide)) hal (by rw [hi]; exact h.size ▸ hend)
    (by rw [hi, h.size]; decide) (by rw [hbn]; decide) (by rw [ha]; decide), ha, fillHole_disk_holeBlock]

/-- A lookup, in the loaded root directory, of a name that starts with
neither `.` nor `f`: the entries of the first block are passed over, the
hole is filled and read as empty entries, and nothing is found. -/
theorem dirlookup_of_loaded (hf : Mkfs.Final st) (h : RootLoaded st s) {name : Bytes}
    (hname : name 0 ≠ 46 ∧ name 0 ≠ 102) : dirlookup s 0 name = some (fillHole s, none) := by
  have hfirst : ∀ j < 32, ∃ de, readi s 0 (UInt32.ofNat (0 + DIRENTSIZE * j)) (UInt32.ofNat DIRENTSIZE) =
      some (s, (DIRENTSIZE : Int), de) ∧
      (getLE (ofList de) 0 2 = 0 ∨ strncmp name (fun k => ofList de (2 + k)) DIRSIZ ≠ 0) := by
    intro j hj
    refine ⟨_, by rw [Nat.zero_add]; exact readi_first_block h hj, Or.inr ?_⟩
    apply strncmp_ne_zero_of_ne (by decide)
    rw [ofList_map_range (by decide)]
    rcases (hf.entries j hj).2 with he | he <;> rw [he] <;> simp [hname]
  have hsecond : ∀ j < 31, ∃ de, readi (fillHole s) 0 (UInt32.ofNat (BSIZE + DIRENTSIZE + DIRENTSIZE * j))
      (UInt32.ofNat DIRENTSIZE) = some (fillHole s, (DIRENTSIZE : Int), de) ∧
      (getLE (ofList de) 0 2 = 0 ∨ strncmp name (fun k => ofList de (2 + k)) DIRSIZ ≠ 0) := by
    intro j hj
    refine ⟨_, readi_second_block h (by omega) (by unfold BSIZE DIRENTSIZE; omega)
      (by unfold BSIZE DIRENTSIZE; omega), Or.inl ?_⟩
    rw [getLE_ofList_map_range (by decide), getLE_zero]
  have hsize' : ((fillHole s).icache 0).size = 2 * BSIZE := by rw [fillHole_icache_self]; exact h.size
  unfold dirlookup
  rw [if_neg (by rw [h.type]; decide), h.size, show (2 * BSIZE + DIRENTSIZE - 1) / DIRENTSIZE = 32 + 1 + 31 from rfl,
    lookupLoop_of_skips (by omega) (by rw [h.size]; decide) hfirst,
    show 32 + 1 + 31 - 32 = 31 + 1 from rfl, show 0 + DIRENTSIZE * 32 = BSIZE from rfl,
    lookupLoop_of_skip (by rw [h.size]; decide) (readi_hole hf h)
      (Or.inl (by rw [getLE_ofList_map_range (by decide), getLE_zero])),
    lookupLoop_of_skips le_rfl (by rw [hsize']; decide) hsecond]
  rfl

end Loaded

/-!
## `init` opens `console`
-/

/-- The state inside `namei("console")` once `ilock` has read the root
directory: `idup` gave slot `0` its second reference. -/
def lockedRoot (d : Disk) : State :=
  let s := idup ((boot d).setInode 0 rootEntry) 0
  s.setInode 0 { s.icache 0 with toDinode := dinodeOf s (s.icache 0).inum, valid := true }

/-- The state `namei("console")` returns: the lookup filled the hole, and
`iunlockput` dropped the second reference. -/
def afterConsole (d : Disk) : State :=
  let s := fillHole (lockedRoot d)
  s.setInode 0 { s.icache 0 with ref := (s.icache 0).ref - 1 }

section Console

variable {st : Mkfs.Img}

theorem boot_sb (hf : Mkfs.Final st) : (boot st.img).sb = Mkfs.sb := by
  rw [boot, hf.super]
  exact Superblock.get_put _ (by decide)

theorem dinodeOf_root (hf : Mkfs.Final st) {s : State} (hsb : s.sb = Mkfs.sb)
    (hd : s.disk (IBLOCK ROOTINO Mkfs.sb) = st.img (IBLOCK ROOTINO Mkfs.sb)) :
    dinodeOf s ROOTINO = Mkfs.rootDinode (2 * BSIZE) := by
  rw [dinodeOf, hsb, hd, hf.root]

theorem rootLoaded_lockedRoot (hf : Mkfs.Final st) : RootLoaded st (lockedRoot st.img) where
  sb := boot_sb hf
  disk := rfl
  root := by
    simp only [lockedRoot, State.setInode_icache_self]
    exact dinodeOf_root hf (boot_sb hf) rfl

theorem namei_console (hf : Mkfs.Final st) :
    namei ((boot st.img).setInode 0 rootEntry) 0 console = some (afterConsole st.img, none) := by
  have hs : skipelem console (fun _ => 0) = some ([], _) :=
    skipelem_of_elem (show console ≠ [] by decide) (by simp [console]) (by decide)
  have hinum : ((idup ((boot st.img).setInode 0 rootEntry) 0).icache 0).inum = ROOTINO := rfl
  have hdin : dinodeOf (idup ((boot st.img).setInode 0 rootEntry) 0) ROOTINO = Mkfs.rootDinode (2 * BSIZE) :=
    dinodeOf_root hf (boot_sb hf) rfl
  have hl : ilock (idup ((boot st.img).setInode 0 rootEntry) 0) 0 = some (lockedRoot st.img) := by
    apply ilock_of_invalid (by simp [idup, rootEntry, Inode.zero]) (by simp [idup, rootEntry])
    rw [hinum, hdin]
    decide
  have hd : dirlookup (lockedRoot st.img) 0 (fun j => if j < console.length then console.getD j 0
      else if j = console.length then 0 else 0) = some (fillHole (lockedRoot st.img), none) :=
    dirlookup_of_loaded hf (rootLoaded_lockedRoot hf) (by decide)
  have hput : iput (fillHole (lockedRoot st.img)) 0 = some (afterConsole st.img) := by
    apply iput_of_not_last
    rw [fillHole_icache_self]
    simp only [lockedRoot, State.setInode_icache_self]
    rw [hinum, hdin]
    -- the root directory keeps its link
    exact fun h => absurd h.2.1 (by decide)
  have hstart : (if console.head? = some 47 then iget ((boot st.img).setInode 0 rootEntry) ROOTDEV ROOTINO
      else some (idup ((boot st.img).setInode 0 rootEntry) 0, 0)) =
      some (idup ((boot st.img).setInode 0 rootEntry) 0, 0) := if_neg (by decide)
  simp only [namei, namex, hstart, Option.bind_some]
  rw [namexLoop_of_missing hs hl (rootLoaded_lockedRoot hf).type (by simp) hd, hput]
  rfl

/-- On the image `mkfs` writes for thirty host files, the first process's
current directory is `namei("/")`, and `init`'s `open("console")` fails in
`namei("console")`.  That lookup leaves the root directory's cache entry
referenced and valid, with a block for the hole that the root directory's
`struct dinode` on the disk does not have. -/
theorem cached_root_differs_from_dinode : ∃ st s₁ s, Mkfs.mkfs Mkfs.thirtyFiles = some st ∧
    namei (boot st.img) 0 [47] = some (s₁, some 0) ∧ namei s₁ 0 console = some (s, none) ∧
    0 < (s.icache 0).ref ∧ (s.icache 0).valid = true ∧ (s.icache 0).inum = ROOTINO ∧
    (s.icache 0).addrs 1 ≠ (dinodeOf s ROOTINO).addrs 1 := by
  obtain ⟨st, hm, hf⟩ := Mkfs.mkfs_thirtyFiles
  have hslot : (afterConsole st.img).icache 0 =
      { (lockedRoot st.img).icache 0 with
        addrs := Function.update ((lockedRoot st.img).icache 0).addrs 1 holeBlock, ref := 1 + 1 - 1 } := by
    simp only [afterConsole, State.setInode_icache_self, fillHole_icache_self]
    rfl
  have hdisk : (afterConsole st.img).disk (IBLOCK ROOTINO Mkfs.sb) = st.img (IBLOCK ROOTINO Mkfs.sb) := by
    simp only [afterConsole, State.setInode_disk]
    rw [fillHole_disk_of_ne (by decide) (by rw [(rootLoaded_lockedRoot hf).sb]; decide)]
    rfl
  have hdin : dinodeOf (afterConsole st.img) ROOTINO = Mkfs.rootDinode (2 * BSIZE) :=
    dinodeOf_root hf (boot_sb hf) hdisk
  refine ⟨st, _, afterConsole st.img, hm, namei_slash _ _, namei_console hf, ?_, ?_, ?_, ?_⟩
  · rw [hslot]
    simp
  · rw [hslot]
    rfl
  · rw [hslot]
    rfl
  · rw [hdin, Mkfs.rootDinode_addrs_of_ne (by decide), hslot]
    simp [holeBlock]

end Console

end Fs

end Xv6
