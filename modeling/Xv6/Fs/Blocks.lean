import Xv6.Fs.Inode
import Xv6.Library.Owners

/-!
# Blocks and their owners

A file's bytes live in the blocks its `struct dinode` names: `addrs[0..NDIRECT)`
directly, the rest through the indirect block `addrs[NDIRECT]`.  `blockOf` is
the block holding block `bn` of a file, `0` for a hole, as `bmap` finds it
before it allocates anything; a hole reads as zeros.

The kernel sees an inode through its cache entry while the entry is
referenced and valid, and through its `struct dinode` on the disk otherwise:
`current`.  `Owned` is the file system's invariant over the blocks: each
block an allocated inode refers to (`refAt`) is a data block, is marked in
the bitmap and is referred to by nothing else, and every block before the
data blocks is marked.  The cache keeps one entry per inode, and an entry's
`struct dinode` on the disk differs from it only by blocks `bmap` added.
-/

namespace Xv6

namespace Fs

open Bytes State

/-- The first data block: the bitmap has a bit for each block below `size`. -/
def dataStart (sb : Superblock) : Nat :=
  sb.bmapstart + sb.size / BPB + 1

/-- The order of the regions `mkfs` lays out: the inode blocks, the bitmap,
the data blocks. -/
structure Superblock.Wf (sb : Superblock) : Prop where
  inodes : sb.inodestart + sb.ninodes / IPB < sb.bmapstart
  data : dataStart sb ≤ sb.size
  size : sb.size < 2 ^ 32

theorem Superblock.Wf.iblock_lt {sb : Superblock} (h : sb.Wf) {inum : Nat} (hi : inum < sb.ninodes) :
    IBLOCK inum sb < sb.bmapstart := by
  have : inum / IPB ≤ sb.ninodes / IPB := Nat.div_le_div_right hi.le
  have := h.inodes
  unfold IBLOCK
  omega

theorem bblock_lt_dataStart {sb : Superblock} {b : Nat} (hb : b < sb.size) : BBLOCK b sb < dataStart sb := by
  have : b / BPB ≤ sb.size / BPB := Nat.div_le_div_right hb.le
  unfold BBLOCK dataStart
  omega

theorem bmapstart_le_bblock (sb : Superblock) (b : Nat) : sb.bmapstart ≤ BBLOCK b sb :=
  Nat.le_add_left _ _

theorem bmapstart_lt_dataStart (sb : Superblock) : sb.bmapstart < dataStart sb :=
  Nat.lt_succ_of_le (Nat.le_add_right _ _)

theorem Superblock.Wf.bmapstart_pos {sb : Superblock} (h : sb.Wf) : 0 < sb.bmapstart :=
  Nat.lt_of_le_of_lt (Nat.zero_le _) h.inodes

/-!
## The blocks of a file
-/

/-- Block `bn` of a file, `0` for a hole. -/
def blockOf (disk : Disk) (d : Dinode) (bn : Nat) : Nat :=
  if h : bn < NDIRECT then d.addrs ⟨bn, Nat.lt_succ_of_lt h⟩
  else if bn < MAXFILE ∧ d.addrs (Fin.last NDIRECT) ≠ 0 then
    getLE (disk (d.addrs (Fin.last NDIRECT))) (4 * (bn - NDIRECT)) 4
  else 0

/-- Byte `k` of a file. -/
def byteAt (disk : Disk) (d : Dinode) (k : Nat) : UInt8 :=
  if blockOf disk d (k / BSIZE) = 0 then 0 else disk (blockOf disk d (k / BSIZE)) (k % BSIZE)

/-- The blocks a file refers to: `none` is its indirect block, `some bn` its
block `bn`. -/
def refAt (disk : Disk) (d : Dinode) : Option (Fin MAXFILE) → Nat
  | none => d.addrs (Fin.last NDIRECT)
  | some bn => blockOf disk d bn

theorem blockOf_of_lt {disk : Disk} {d : Dinode} {bn : Nat} (h : bn < NDIRECT) :
    blockOf disk d bn = d.addrs ⟨bn, Nat.lt_succ_of_lt h⟩ := by
  simp [blockOf, h]

theorem blockOf_of_indirect {disk : Disk} {d : Dinode} {bn : Nat} (h₁ : NDIRECT ≤ bn) (h₂ : bn < MAXFILE) :
    blockOf disk d bn =
      if d.addrs (Fin.last NDIRECT) = 0 then 0
      else getLE (disk (d.addrs (Fin.last NDIRECT))) (4 * (bn - NDIRECT)) 4 := by
  by_cases hia : d.addrs (Fin.last NDIRECT) = 0 <;> simp [blockOf, Nat.not_lt.mpr h₁, h₂, hia]

theorem blockOf_of_ge {disk : Disk} {d : Dinode} {bn : Nat} (h : MAXFILE ≤ bn) : blockOf disk d bn = 0 := by
  have : ¬bn < NDIRECT := by unfold MAXFILE at h; omega
  simp [blockOf, this, Nat.not_lt.mpr h]

theorem blockOf_congr {disk disk' : Disk} {d : Dinode}
    (h : d.addrs (Fin.last NDIRECT) ≠ 0 → disk' (d.addrs (Fin.last NDIRECT)) = disk (d.addrs (Fin.last NDIRECT)))
    (bn : Nat) : blockOf disk' d bn = blockOf disk d bn := by
  unfold blockOf
  split
  · rfl
  · split
    · rename_i hc
      rw [h hc.2]
    · rfl

theorem byteAt_congr {disk disk' : Disk} {d : Dinode}
    (hind : d.addrs (Fin.last NDIRECT) ≠ 0 → disk' (d.addrs (Fin.last NDIRECT)) = disk (d.addrs (Fin.last NDIRECT)))
    {k : Nat} (hb : blockOf disk d (k / BSIZE) ≠ 0 → disk' (blockOf disk d (k / BSIZE)) = disk (blockOf disk d (k / BSIZE))) :
    byteAt disk' d k = byteAt disk d k := by
  unfold byteAt
  rw [blockOf_congr hind]
  split
  · rfl
  · rename_i h0
    rw [hb h0]

theorem refAt_congr {disk disk' : Disk} {d : Dinode}
    (h : d.addrs (Fin.last NDIRECT) ≠ 0 → disk' (d.addrs (Fin.last NDIRECT)) = disk (d.addrs (Fin.last NDIRECT)))
    (r : Option (Fin MAXFILE)) : refAt disk' d r = refAt disk d r := by
  cases r with
  | none => rfl
  | some bn => exact blockOf_congr h bn

/-!
## The inodes the kernel sees
-/

/-- A cache entry in use whose `struct dinode` has been read. -/
def Inode.held (ip : Inode) : Prop :=
  0 < ip.ref ∧ ip.valid = true

instance (ip : Inode) : Decidable ip.held :=
  inferInstanceAs (Decidable (0 < ip.ref ∧ ip.valid = true))

/-- The cache entry holding inode `inum`, if one does. -/
def cached (s : State) (inum : Nat) : Option (Fin NINODE) :=
  (List.finRange NINODE).find? fun j => (s.icache j).held ∧ (s.icache j).inum = inum

/-- Inode `inum` as the kernel sees it. -/
def current (s : State) (inum : Nat) : Dinode :=
  match cached s inum with
  | some j => (s.icache j).toDinode
  | none => dinodeOf s inum

/-- An inode in use. -/
def allocated (s : State) (inum : Nat) : Prop :=
  0 < inum ∧ inum < s.sb.ninodes ∧ (current s inum).type ≠ 0

/-- The bit of block `b` in the bitmap. -/
def used (s : State) (b : Nat) : Prop :=
  bit (s.disk (BBLOCK b s.sb)) (b % BPB) = true

instance (s : State) (b : Nat) : Decidable (used s b) :=
  inferInstanceAs (Decidable (bit _ _ = true))

instance (s : State) (inum : Nat) : Decidable (allocated s inum) :=
  inferInstanceAs (Decidable (_ ∧ _ ∧ _))

theorem blockFree_iff_not_used {s : State} {b : Nat} : blockFree s b = true ↔ ¬used s b := by
  rw [blockFree_eq, used]
  simp

/-- The blocks whose bit is clear: those `balloc` can hand out. -/
def freeBlocks (s : State) : Finset Nat :=
  (Finset.range s.sb.size).filter fun b => ¬used s b

/-- The block inode `inum` refers to at `r`, for the inodes in use; `0` for
none. -/
def refs (s : State) (x : Nat × Option (Fin MAXFILE)) : Nat :=
  if allocated s x.1 then refAt s.disk (current s x.1) x.2 else 0

/-- A file apart from where its bytes are. -/
def Dinode.attrs (d : Dinode) : Dinode :=
  { d with addrs := fun _ => 0 }

/-- The `struct dinode` on the disk of an inode the cache holds: the cache's
copy, but for the blocks `bmap` gave the cache only. -/
structure Dinode.Lags (d c : Dinode) : Prop where
  attrs : d.attrs = c.attrs
  addrs : ∀ j, d.addrs j = 0 ∨ d.addrs j = c.addrs j

/-- The file system's invariant.  The blocks: every block before the data
blocks is marked in use, and the blocks the inodes in use refer to are data
blocks, marked, each referred to once; no file is longer than `MAXFILE`
blocks, and an inode not in use is empty.  The cache: one entry at most for
an inode, only for inodes of the disk that are in use, and the `struct
dinode` on the disk lags behind it only by blocks `bmap` added. -/
structure Owned (s : State) : Prop where
  wf : s.sb.Wf
  reserved : ∀ b < dataStart s.sb, used s b
  owners : Owners.Sound (Set.Ico (dataStart s.sb) s.sb.size) {b | used s b} (refs s)
  size : ∀ {inum}, allocated s inum → (current s inum).size ≤ MAXFILE * BSIZE
  empty : ∀ {inum}, inum < s.sb.ninodes → ¬allocated s inum → (current s inum).size = 0
  held_unique : ∀ {j j'}, (s.icache j).held → (s.icache j').held → (s.icache j).inum = (s.icache j').inum → j = j'
  held_inum : ∀ {j}, (s.icache j).held → 0 < (s.icache j).inum ∧ (s.icache j).inum < s.sb.ninodes
  held_type : ∀ {j}, (s.icache j).held → (s.icache j).type ≠ 0
  held_disk : ∀ {j}, (s.icache j).held → (dinodeOf s (s.icache j).inum).Lags (s.icache j).toDinode

variable {s s' s'' : State} {inum b x : Nat} {j : Fin NINODE} {r : Option (Fin MAXFILE)}

/-!
## Lookups
-/

theorem lt_of_blockOf_ne_zero {disk : Disk} {d : Dinode} {bn : Nat} (h : blockOf disk d bn ≠ 0) : bn < MAXFILE :=
  Nat.lt_of_not_le fun hge => h (blockOf_of_ge hge)

theorem current_of_cached (h : cached s inum = some j) : current s inum = (s.icache j).toDinode := by
  simp [current, h]

theorem current_of_not_cached (h : cached s inum = none) : current s inum = dinodeOf s inum := by
  simp [current, h]

theorem cached_of_held (huniq : ∀ j', (s.icache j').held → (s.icache j').inum = (s.icache j).inum → j' = j)
    (hj : (s.icache j).held) : cached s (s.icache j).inum = some j := by
  unfold cached
  cases h : (List.finRange NINODE).find? (fun j' => decide ((s.icache j').held ∧ (s.icache j').inum = (s.icache j).inum)) with
  | none =>
      have := List.find?_eq_none.mp h j (List.mem_finRange j)
      simp [hj] at this
  | some j' =>
      have hj' := List.find?_some h
      simp only [decide_eq_true_eq] at hj'
      rw [huniq j' hj'.1 hj'.2]

theorem Owned.cached_eq (hs : Owned s) (hj : (s.icache j).held) : cached s (s.icache j).inum = some j :=
  cached_of_held (fun _ hj' he => hs.held_unique hj' hj he) hj

theorem Owned.current_eq (hs : Owned s) (hj : (s.icache j).held) : current s (s.icache j).inum = (s.icache j).toDinode :=
  current_of_cached (hs.cached_eq hj)

theorem Owned.held_allocated (hs : Owned s) (hj : (s.icache j).held) : allocated s (s.icache j).inum :=
  ⟨(hs.held_inum hj).1, (hs.held_inum hj).2, by rw [hs.current_eq hj]; exact hs.held_type hj⟩

theorem refs_of_allocated (h : allocated s inum) (r : Option (Fin MAXFILE)) :
    refs s (inum, r) = refAt s.disk (current s inum) r :=
  if_pos h

/-!
## Writes past the inodes

A write to a block past the inode blocks that is no inode's indirect block
leaves every inode and the blocks it refers to as they were.
-/

/-- `s'` is `s` with writes to blocks past the inode blocks that are no
inode's indirect block only. -/
structure Frame (s s' : State) : Prop where
  sb : s'.sb = s.sb
  icache : s'.icache = s.icache
  disk : ∀ x, s'.disk x ≠ s.disk x → s.sb.bmapstart ≤ x ∧ ∀ inum, refs s (inum, none) ≠ x

theorem frame_setDisk {blk : Bytes} (hb : s.sb.bmapstart ≤ x) (hx : ∀ inum, refs s (inum, none) ≠ x) :
    Frame s (s.setDisk x blk) := by
  refine ⟨rfl, rfl, fun y hy => ?_⟩
  by_cases hyx : y = x
  · exact hyx ▸ ⟨hb, hx⟩
  · exact absurd (setDisk_disk_of_ne hyx) hy

theorem Frame.dinodeOf_eq (h : Frame s s') (hwf : s.sb.Wf) (hi : inum < s.sb.ninodes) :
    dinodeOf s' inum = dinodeOf s inum := by
  have hlt := hwf.iblock_lt hi
  have hblk : s'.disk (IBLOCK inum s.sb) = s.disk (IBLOCK inum s.sb) := by
    by_contra hne
    have := (h.disk _ hne).1
    omega
  rw [Fs.dinodeOf, Fs.dinodeOf, h.sb, hblk]

theorem Frame.cached_eq (h : Frame s s') : cached s' inum = cached s inum := by
  unfold Fs.cached
  rw [h.icache]

theorem Frame.current_eq (h : Frame s s') (hwf : s.sb.Wf) (hi : inum < s.sb.ninodes) :
    current s' inum = current s inum := by
  cases hc : Fs.cached s inum with
  | none => rw [current_of_not_cached (h.cached_eq.trans hc), current_of_not_cached hc, h.dinodeOf_eq hwf hi]
  | some j => rw [current_of_cached (h.cached_eq.trans hc), current_of_cached hc, h.icache]

theorem Frame.allocated_iff (h : Frame s s') (hwf : s.sb.Wf) : allocated s' inum ↔ allocated s inum := by
  unfold Fs.allocated
  rw [h.sb]
  by_cases hi : inum < s.sb.ninodes
  · rw [h.current_eq hwf hi]
  · simp [hi]

theorem Frame.refs_eq (h : Frame s s') (hwf : s.sb.Wf) : refs s' = refs s := by
  funext ⟨inum, r⟩
  by_cases ha : Fs.allocated s inum
  · rw [refs_of_allocated ((h.allocated_iff hwf).mpr ha), refs_of_allocated ha, h.current_eq hwf ha.2.1]
    apply refAt_congr
    intro _
    by_contra hne
    exact (h.disk _ hne).2 inum (refs_of_allocated ha none)
  · simp only [Fs.refs, if_neg ha, if_neg (mt (h.allocated_iff hwf).mp ha)]

theorem Frame.byteAt_eq (h : Frame s s') (hwf : s.sb.Wf) (ha : allocated s inum)
    (hown : ∀ x, s'.disk x ≠ s.disk x → ∀ r, refs s (inum, r) ≠ x) :
    byteAt s'.disk (current s' inum) = byteAt s.disk (current s inum) := by
  funext k
  rw [h.current_eq hwf ha.2.1]
  apply byteAt_congr
  · intro _
    by_contra hne
    exact hown _ hne none (refs_of_allocated ha none)
  · intro hb
    by_contra hne
    exact hown _ hne (some ⟨_, lt_of_blockOf_ne_zero hb⟩) (refs_of_allocated ha _)

theorem Frame.trans (h₁ : Frame s s') (h₂ : Frame s' s'') (hwf : s.sb.Wf) : Frame s s'' := by
  refine ⟨h₂.sb.trans h₁.sb, h₂.icache.trans h₁.icache, fun x hx => ?_⟩
  by_cases h₂x : s''.disk x = s'.disk x
  · exact h₁.disk x (h₂x ▸ hx)
  · have := h₂.disk x h₂x
    rw [h₁.sb, h₁.refs_eq hwf] at this
    exact this

theorem Owned.frame (hs : Owned s) (h : Frame s s') (hused : ∀ c < s.sb.size, used s c → used s' c) : Owned s' := by
  have hwf := hs.wf
  have hdata := hwf.data
  refine ⟨h.sb ▸ hwf, fun c hc => ?_, ?_, fun ha => ?_, fun hi ha => ?_, fun hj hj' => ?_, fun hj => ?_,
    fun hj => ?_, fun hj => ?_⟩
  · rw [h.sb] at hc
    exact hused c (by omega) (hs.reserved c hc)
  · rw [h.refs_eq hwf, h.sb]
    exact hs.owners.mark fun c hc hu => hused c hc.2 hu
  · have ha' := (h.allocated_iff hwf).mp ha
    rw [h.current_eq hwf ha'.2.1]
    exact hs.size ha'
  · rw [h.sb] at hi
    rw [h.current_eq hwf hi]
    exact hs.empty hi (mt (h.allocated_iff hwf).mpr ha)
  · rw [h.icache] at hj hj' ⊢
    exact hs.held_unique hj hj'
  · rw [h.icache, h.sb] at *
    exact hs.held_inum hj
  · rw [h.icache] at *
    exact hs.held_type hj
  · rw [h.icache] at *
    rw [h.dinodeOf_eq hwf (hs.held_inum hj).2]
    exact hs.held_disk hj

/-!
## The bitmap
-/

theorem used_setDisk_of_data {blk : Bytes} {c : Nat} (hc : c < s.sb.size) (hx : dataStart s.sb ≤ x) :
    used (s.setDisk x blk) c ↔ used s c := by
  have := bblock_lt_dataStart hc
  unfold used
  rw [setDisk_sb, setDisk_disk_of_ne (by omega)]

theorem mod_BPB_eq_iff {sb : Superblock} {c : Nat} (hbb : BBLOCK c sb = BBLOCK b sb) : c % BPB = b % BPB ↔ c = b := by
  have hdiv : c / BPB = b / BPB := by unfold BBLOCK at hbb; omega
  constructor
  · intro hm
    rw [← Nat.div_add_mod c BPB, ← Nat.div_add_mod b BPB, hdiv, hm]
  · rintro rfl
    rfl

theorem used_markBlock {c : Nat} :
    used (s.setDisk (BBLOCK b s.sb) (setBit (s.disk (BBLOCK b s.sb)) (b % BPB))) c ↔ used s c ∨ c = b := by
  unfold used
  rw [setDisk_sb]
  by_cases hbb : BBLOCK c s.sb = BBLOCK b s.sb
  · rw [hbb, setDisk_disk_self, bit_setBit, Bool.or_eq_true, decide_eq_true_eq, mod_BPB_eq_iff hbb, or_comm]
  · have hcb : c ≠ b := by rintro rfl; exact hbb rfl
    rw [setDisk_disk_of_ne hbb]
    simp [hcb]

theorem used_clearBlock {c : Nat} :
    used (s.setDisk (BBLOCK b s.sb) (clearBit (s.disk (BBLOCK b s.sb)) (b % BPB))) c ↔ used s c ∧ c ≠ b := by
  unfold used
  rw [setDisk_sb]
  by_cases hbb : BBLOCK c s.sb = BBLOCK b s.sb
  · rw [hbb, setDisk_disk_self, bit_clearBit, Bool.and_eq_true, decide_eq_true_eq, ne_eq, mod_BPB_eq_iff hbb,
      and_comm]
  · have hcb : c ≠ b := by rintro rfl; exact hbb rfl
    rw [setDisk_disk_of_ne hbb]
    simp [hcb]

/-!
## `balloc`
-/

theorem Owned.fresh_of_firstFree (hs : Owned s) (h : firstFree s = some b) :
    b ∈ freeBlocks s ∧ dataStart s.sb ≤ b ∧ Owners.Fresh (refs s) b := by
  obtain ⟨hb, hfree, -⟩ := firstFree_eq_some_iff.mp h
  have hunused : ¬used s b := blockFree_iff_not_used.mp hfree
  have hdata : dataStart s.sb ≤ b := Nat.le_of_not_lt fun hlt => hunused (hs.reserved b hlt)
  refine ⟨by simp [freeBlocks, hb, hunused], hdata, fun y hy => hunused ?_⟩
  have hne : refs s y ≠ 0 := by
    have := bmapstart_lt_dataStart s.sb
    omega
  exact hy ▸ hs.owners.marked y hne

theorem balloc_eq_some (h : balloc s = some (s', b)) :
    firstFree s = some b ∧ s' = bzero (s.setDisk (BBLOCK b s.sb) (setBit (s.disk (BBLOCK b s.sb)) (b % BPB))) b := by
  simp only [balloc, Option.map_eq_some_iff, Prod.mk.injEq] at h
  obtain ⟨b', hb', rfl, rfl⟩ := h
  exact ⟨hb', rfl⟩

theorem used_bzero_markBlock {c : Nat} (hb : dataStart s.sb ≤ b) (hc : c < s.sb.size) :
    used (bzero (s.setDisk (BBLOCK b s.sb) (setBit (s.disk (BBLOCK b s.sb)) (b % BPB))) b) c ↔ used s c ∨ c = b := by
  have hc' : c < (s.setDisk (BBLOCK b s.sb) (setBit (s.disk (BBLOCK b s.sb)) (b % BPB))).sb.size := hc
  rw [bzero, used_setDisk_of_data hc' hb, used_markBlock]

theorem Owned.balloc (hs : Owned s) (h : Fs.balloc s = some (s', b)) :
    Owned s' ∧ Frame s s' ∧ used s' b ∧ s'.disk b = (fun _ => 0) := by
  obtain ⟨hff, rfl⟩ := balloc_eq_some h
  obtain ⟨-, hdata, hfresh⟩ := hs.fresh_of_firstFree hff
  have hwf := hs.wf
  have hb : b < s.sb.size := (firstFree_eq_some_iff.mp hff).1
  have hbm : BBLOCK b s.sb < dataStart s.sb := bblock_lt_dataStart hb
  have hstart := bmapstart_lt_dataStart s.sb
  -- the bitmap block is no data block, so no inode refers to it
  have hmark : Frame s (s.setDisk (BBLOCK b s.sb) (setBit (s.disk (BBLOCK b s.sb)) (b % BPB))) := by
    refine frame_setDisk (bmapstart_le_bblock _ _) fun inum hr => ?_
    have hpos := hwf.bmapstart_pos
    have hne : refs s (inum, none) ≠ 0 := by
      have := bmapstart_le_bblock s.sb b
      omega
    have := (hs.owners.inside _ hne).1
    omega
  have hzero : Frame (s.setDisk (BBLOCK b s.sb) (setBit (s.disk (BBLOCK b s.sb)) (b % BPB)))
      (bzero (s.setDisk (BBLOCK b s.sb) (setBit (s.disk (BBLOCK b s.sb)) (b % BPB))) b) := by
    refine frame_setDisk (by simp only [setDisk_sb]; omega) fun inum => ?_
    rw [hmark.refs_eq hwf]
    exact hfresh _
  have hframe := hmark.trans hzero hwf
  refine ⟨hs.frame hframe fun c hc hu => (used_bzero_markBlock hdata hc).mpr (.inl hu), hframe,
    (used_bzero_markBlock hdata hb).mpr (.inr rfl), setDisk_disk_self⟩

theorem Owned.freeBlocks_balloc (hs : Owned s) (h : Fs.balloc s = some (s', b)) :
    freeBlocks s' = (freeBlocks s).erase b := by
  obtain ⟨hff, rfl⟩ := balloc_eq_some h
  obtain ⟨-, hdata, -⟩ := hs.fresh_of_firstFree hff
  ext c
  rw [Finset.mem_erase]
  simp only [freeBlocks, Finset.mem_filter, Finset.mem_range]
  constructor
  · rintro ⟨hc, hu⟩
    rw [used_bzero_markBlock hdata hc, not_or] at hu
    exact ⟨hu.2, hc, hu.1⟩
  · rintro ⟨hcb, hc, hu⟩
    rw [used_bzero_markBlock hdata hc, not_or]
    exact ⟨hc, hu, hcb⟩

end Fs

end Xv6
