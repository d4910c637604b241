import Xv6.Fs.Bmap
import Xv6.Library.Splice

/-!
# What `writei` and `readi` do to the bytes of files

A file is the string of its first `size` bytes, read through its block map
(`content`).  Under the invariant `Owned`, and for a cache entry the caller
holds:

* `bmap` changes the bytes of no file: the blocks it hands out were free and
  are zeroed, a new block of the file takes the place of a hole, which reads
  as zeros, and the only block a file refers to that it writes is the file's
  own indirect block, at an entry that was a hole;
* a turn of `writei`'s loop copies its chunk into the block of the file that
  holds it, which no other key of the owners table holds, so the chunk is the
  only change to the file's bytes and no other file's bytes change;
* hence `writei` writes `src` over the file from `off` (`Splice.splice`),
  and `readi` returns the bytes from `off` without changing any file, so a
  read of the range just written returns what was written.

Both keep the invariant.
-/

namespace Xv6

namespace Fs

open Bytes State Function Splice

/-- The bytes of inode `inum` as the kernel sees it, up to its size. -/
def content (s : State) (inum : Nat) : List UInt8 :=
  (List.range (current s inum).size).map (byteAt s.disk (current s inum))

variable {s s' : State} {i : Fin NINODE} {inum bn a b : Nat}

/-!
## A file's bytes through the owners table
-/

section Refs

theorem byteAt_eq_refs (ha : allocated s inum) (k : Nat) :
    byteAt s.disk (current s inum) k =
      if h : k / BSIZE < MAXFILE then
        if refs s (inum, some ⟨k / BSIZE, h⟩) = 0 then 0 else s.disk (refs s (inum, some ⟨k / BSIZE, h⟩)) (k % BSIZE)
      else 0 := by
  unfold byteAt
  by_cases h : k / BSIZE < MAXFILE
  · rw [dif_pos h, refs_of_allocated ha]
    rfl
  · rw [dif_neg h, blockOf_of_ge (Nat.le_of_not_lt h), if_pos rfl]

/-- An inode keeps its bytes when each of its keys holds the block it held,
or held none and now holds a zeroed block, and the blocks it held keep their
bytes. -/
theorem byteAt_eq_of_refs (ha : allocated s inum) (ha' : allocated s' inum)
    (hr : ∀ bn, refs s' (inum, some bn) = refs s (inum, some bn) ∨
      refs s (inum, some bn) = 0 ∧ s'.disk (refs s' (inum, some bn)) = fun _ => 0)
    (hd : ∀ bn, refs s (inum, some bn) ≠ 0 → s'.disk (refs s (inum, some bn)) = s.disk (refs s (inum, some bn))) :
    byteAt s'.disk (current s' inum) = byteAt s.disk (current s inum) := by
  funext k
  rw [byteAt_eq_refs ha', byteAt_eq_refs ha]
  by_cases h : k / BSIZE < MAXFILE
  · rw [dif_pos h, dif_pos h]
    rcases hr ⟨k / BSIZE, h⟩ with he | ⟨h0, hz⟩
    · rw [he]
      by_cases h0 : refs s (inum, some ⟨k / BSIZE, h⟩) = 0
      · rw [if_pos h0, if_pos h0]
      · rw [if_neg h0, if_neg h0, hd _ h0]
    · rw [if_pos h0, hz]
      split <;> rfl
  · rw [dif_neg h, dif_neg h]

theorem Owned.data_of_refs (hs : Owned s) {x : Nat × Option (Fin MAXFILE)} (hx : refs s x ≠ 0) :
    dataStart s.sb ≤ refs s x ∧ refs s x ∉ freeBlocks s := by
  have hin := hs.owners.inside x hx
  have hu : used s (refs s x) := hs.owners.marked x hx
  refine ⟨hin.1, fun hfree => ?_⟩
  simp only [freeBlocks, Finset.mem_filter] at hfree
  exact hfree.2 hu

theorem Owned.data_of_free (hs : Owned s) {c : Nat} (hc : c ∈ freeBlocks s) : dataStart s.sb ≤ c := by
  simp only [freeBlocks, Finset.mem_filter, Finset.mem_range] at hc
  by_contra hlt
  exact hc.2 (hs.reserved c (Nat.lt_of_not_le hlt))

theorem held_of_cached {j : Fin NINODE} (h : cached s inum = some j) : (s.icache j).held := by
  have := List.find?_some h
  simp only [decide_eq_true_eq] at this
  exact this.1

theorem Owned.refAt_data (hs : Owned s) (ha : allocated s inum) (r : Option (Fin MAXFILE))
    (h0 : refAt s.disk (current s inum) r ≠ 0) : dataStart s.sb ≤ refAt s.disk (current s inum) r := by
  rw [← refs_of_allocated ha] at h0 ⊢
  exact (hs.data_of_refs h0).1

theorem Owned.byteAt_of_data (hs : Owned s) (ha : allocated s inum) {disk : Disk}
    (hd : ∀ c, dataStart s.sb ≤ c → disk c = s.disk c) : byteAt disk (current s inum) = byteAt s.disk (current s inum) := by
  funext k
  apply byteAt_congr
  · exact fun h0 => hd _ (hs.refAt_data ha none h0)
  · exact fun h0 => hd _ (hs.refAt_data ha (some ⟨k / BSIZE, lt_of_blockOf_ne_zero h0⟩) h0)

theorem dinodeOf_eq_of_writes (hwf : s.sb.Wf) (hsb : s'.sb = s.sb)
    (hw : ∀ c, s'.disk c ≠ s.disk c → s.sb.bmapstart ≤ c) (hi : inum < s.sb.ninodes) :
    dinodeOf s' inum = dinodeOf s inum := by
  have hlt := hwf.iblock_lt hi
  have hblk : s'.disk (IBLOCK inum s.sb) = s.disk (IBLOCK inum s.sb) := by
    by_contra hne
    have := hw _ hne
    omega
  rw [Fs.dinodeOf, Fs.dinodeOf, hsb, hblk]

end Refs

/-!
## The writes of `bmap`
-/

section BmapWrites

theorem balloc_sb (h : balloc s = some (s', b)) : s'.sb = s.sb := by
  obtain ⟨-, rfl⟩ := balloc_eq_some h
  rfl

theorem balloc_free (h : balloc s = some (s', b)) : b ∈ freeBlocks s := by
  obtain ⟨hff, -⟩ := balloc_eq_some h
  obtain ⟨hb, hfree, -⟩ := firstFree_eq_some_iff.mp hff
  simp only [freeBlocks, Finset.mem_filter, Finset.mem_range]
  exact ⟨hb, blockFree_iff_not_used.mp hfree⟩

theorem freeBlocks_setAddr {j : Fin (NDIRECT + 1)} : freeBlocks (s.setAddr i j a) = freeBlocks s :=
  rfl

theorem Owned.balloc_writes (hs : Owned s) {t t' : State} (hsb : t.sb = s.sb) (hfree : freeBlocks t ⊆ freeBlocks s)
    (h : Fs.balloc t = some (t', b)) {c : Nat} (hc : t'.disk c ≠ t.disk c) :
    s.sb.bmapstart ≤ c ∧ (c < dataStart s.sb ∨ c ∈ freeBlocks s) := by
  have hb := hfree (balloc_free h)
  obtain ⟨-, rfl⟩ := balloc_eq_some h
  by_cases hcb : c = b
  · subst hcb
    have := hs.data_of_free hb
    have := bmapstart_lt_dataStart s.sb
    exact ⟨by omega, .inr hb⟩
  · have hcm : c = BBLOCK b t.sb := by
      by_contra hcm
      apply hc
      rw [bzero, setDisk_disk_of_ne hcb, setDisk_disk_of_ne hcm]
    have hsize : b < s.sb.size := by
      simp only [freeBlocks, Finset.mem_filter, Finset.mem_range] at hb
      exact hb.1
    rw [hcm, hsb]
    exact ⟨bmapstart_le_bblock _ _, .inl (bblock_lt_dataStart hsize)⟩

/-- What `bmap` writes, for an entry the caller holds: the superblock stays,
a block handed out for a hole was free, and the blocks written are the
bitmap, blocks that were free, and the file's indirect block. -/
structure BmapWrites (s : State) (i : Fin NINODE) (bn : Nat) (s' : State) (a : Nat) : Prop where
  sb : s'.sb = s.sb
  fresh : blockOf s.disk (s.icache i).toDinode bn = 0 → a ∈ freeBlocks s
  disk : ∀ c, s'.disk c ≠ s.disk c →
    s.sb.bmapstart ≤ c ∧ (c < dataStart s.sb ∨ c ∈ freeBlocks s ∨ c = (s.icache i).addrs (Fin.last NDIRECT))

theorem lt_MAXFILE_of_bmap (h : bmap s i bn = some (s', a)) : bn < MAXFILE := by
  by_contra hge
  have hd : ¬bn < NDIRECT := by unfold MAXFILE at hge; omega
  have hn : ¬bn - NDIRECT < NINDIRECT := by unfold MAXFILE at hge; omega
  simp [bmap, hd, hn] at h

theorem Owned.bmap_writes (hs : Owned s) (hi : (s.icache i).held) (h : bmap s i bn = some (s', a)) :
    BmapWrites s i bn s' a := by
  have hbn := lt_MAXFILE_of_bmap h
  by_cases h0 : blockOf s.disk (s.icache i).toDinode bn = 0
  · by_cases hd : bn < NDIRECT
    · have hj : (s.icache i).addrs ⟨bn, Nat.lt_succ_of_lt hd⟩ = 0 := by rwa [blockOf_of_lt hd] at h0
      rw [bmap_of_hole hd hj] at h
      obtain ⟨⟨s₁, b⟩, hb, he⟩ := Option.map_eq_some_iff.mp h
      obtain ⟨rfl, rfl⟩ := Prod.mk.inj he
      refine ⟨setAddr_sb.trans (balloc_sb hb), fun _ => balloc_free hb, fun c hc => ?_⟩
      obtain ⟨hstart, hc'⟩ := hs.balloc_writes rfl subset_rfl hb hc
      exact ⟨hstart, hc'.elim .inl fun h => .inr (.inl h)⟩
    · have h₁ := Nat.le_of_not_lt hd
      by_cases hia : (s.icache i).addrs (Fin.last NDIRECT) = 0
      · -- two blocks: the indirect block, then the entry's
        rw [bmap_of_absent h₁ hbn hia] at h
        obtain ⟨⟨s₁, ia⟩, hb₁, h⟩ := Option.bind_eq_some_iff.mp h
        obtain ⟨⟨s₃, b⟩, hb₂, he⟩ := Option.map_eq_some_iff.mp h
        obtain ⟨rfl, rfl⟩ := Prod.mk.inj he
        have hia_free := balloc_free hb₁
        have hsub : freeBlocks (s₁.setAddr i (Fin.last NDIRECT) ia) ⊆ freeBlocks s := by
          rw [freeBlocks_setAddr, hs.freeBlocks_balloc hb₁]
          exact Finset.erase_subset _ _
        have hsb₁ : (s₁.setAddr i (Fin.last NDIRECT) ia).sb = s.sb := setAddr_sb.trans (balloc_sb hb₁)
        refine ⟨setDisk_sb.trans ((balloc_sb hb₂).trans hsb₁), fun _ => hsub (balloc_free hb₂), fun c hc => ?_⟩
        by_cases hcia : c = ia
        · subst hcia
          have := hs.data_of_free hia_free
          have := bmapstart_lt_dataStart s.sb
          exact ⟨by omega, .inr (.inl hia_free)⟩
        · rw [setDisk_disk_of_ne hcia] at hc
          by_cases h₃ : s₃.disk c = s₁.disk c
          · rw [h₃] at hc
            obtain ⟨hstart, hc'⟩ := hs.balloc_writes rfl subset_rfl hb₁ hc
            exact ⟨hstart, hc'.elim .inl fun h => .inr (.inl h)⟩
          · obtain ⟨hstart, hc'⟩ := hs.balloc_writes hsb₁ hsub hb₂ h₃
            exact ⟨hstart, hc'.elim .inl fun h => .inr (.inl h)⟩
      · rw [bmap_of_present h₁ hbn hia h0] at h
        obtain ⟨⟨s₁, b⟩, hb, he⟩ := Option.map_eq_some_iff.mp h
        obtain ⟨rfl, rfl⟩ := Prod.mk.inj he
        refine ⟨setDisk_sb.trans (balloc_sb hb), fun _ => balloc_free hb, fun c hc => ?_⟩
        by_cases hcia : c = (s.icache i).addrs (Fin.last NDIRECT)
        · -- the entry written in the file's indirect block
          have hkey : refs s ((s.icache i).inum, none) ≠ 0 := by rwa [hs.refs_held hi]
          have hdata := (hs.data_of_refs hkey).1
          rw [hs.refs_held hi] at hdata
          have := bmapstart_lt_dataStart s.sb
          exact ⟨by simp only [refAt] at hdata; omega, .inr (.inr hcia)⟩
        · rw [setDisk_disk_of_ne hcia] at hc
          obtain ⟨hstart, hc'⟩ := hs.balloc_writes rfl subset_rfl hb hc
          exact ⟨hstart, hc'.elim .inl fun h => .inr (.inl h)⟩
  · rw [bmap_of_blockOf_ne_zero hbn h0] at h
    obtain ⟨rfl, rfl⟩ := Prod.mk.inj (Option.some.inj h)
    exact ⟨rfl, fun h => absurd h h0, fun _ hc => absurd rfl hc⟩

end BmapWrites

/-!
## What the loops keep

Each turn of the loops of `readi` and `writei` keeps the invariant, the cache
up to block addresses, the superblock and the inodes on the disk, and the
bytes of every inode in use but the one the turn maps through.
-/

section Keeps

/-- What a stretch of the loops through entry `i` keeps. -/
structure Keeps (s : State) (i : Fin NINODE) (s' : State) : Prop where
  owned : Owned s'
  same : SameInodes s s'
  sb : s'.sb = s.sb
  dinodes : ∀ inum < s.sb.ninodes, dinodeOf s' inum = dinodeOf s inum
  others : ∀ inum, inum ≠ (s.icache i).inum → allocated s inum →
    byteAt s'.disk (current s' inum) = byteAt s.disk (current s inum)
  mapped : ∀ bn, blockOf s.disk (s.icache i).toDinode bn ≠ 0 →
    blockOf s'.disk (s'.icache i).toDinode bn = blockOf s.disk (s.icache i).toDinode bn

theorem Keeps.refl (hs : Owned s) : Keeps s i s :=
  ⟨hs, SameInodes.refl s, rfl, fun _ _ => rfl, fun _ _ _ => rfl, fun _ _ => rfl⟩

theorem Keeps.allocated_iff (h : Keeps s i s') : allocated s' inum ↔ allocated s inum :=
  h.same.allocated_iff h.sb h.dinodes

theorem Keeps.size_current (h : Keeps s i s') (hi : inum < s.sb.ninodes) :
    (current s' inum).size = (current s inum).size := by
  have hattrs := congrArg Dinode.size (h.same.attrs_current (h.dinodes inum hi))
  exact hattrs

theorem Keeps.trans {s'' : State} (h₁ : Keeps s i s') (h₂ : Keeps s' i s'') : Keeps s i s'' where
  owned := h₂.owned
  same := h₁.same.trans h₂.same
  sb := h₂.sb.trans h₁.sb
  dinodes inum hi := (h₂.dinodes inum (h₁.sb ▸ hi)).trans (h₁.dinodes inum hi)
  others inum hne ha := by
    rw [← h₁.same.inum_eq i] at hne
    rw [h₂.others inum hne (h₁.allocated_iff.mpr ha), h₁.others inum (h₁.same.inum_eq i ▸ hne) ha]
  mapped bn h0 := by
    have h₁bn := h₁.mapped bn h0
    rw [h₂.mapped bn (h₁bn ▸ h0), h₁bn]

theorem Owned.bmap_byteAt (hs : Owned s) (hi : (s.icache i).held) (hm : Mapped s i bn s' a)
    (hw : BmapWrites s i bn s' a) (ha : allocated s inum) :
    byteAt s'.disk (current s' inum) = byteAt s.disk (current s inum) := by
  have ha' : allocated s' inum := (hm.same.allocated_iff hw.sb fun _ hlt =>
    dinodeOf_eq_of_writes hs.wf hw.sb (fun c hc => (hw.disk c hc).1) hlt).mpr ha
  refine byteAt_eq_of_refs ha ha' (fun bn' => ?_) (fun bn' hne => ?_)
  · by_cases he : refs s' (inum, some bn') = refs s (inum, some bn')
    · exact .inl he
    · -- a hole of this file at `bn`: it now holds `a`, which was free and is zeroed
      obtain ⟨h0, hinum, hkey⟩ := hm.refs _ he
      dsimp only at hinum hkey
      subst hinum
      have hbn' : (bn' : Nat) = bn := by simpa using hkey
      have hi' := (hm.same.held_iff i).mpr hi
      have hnew : refs s' ((s.icache i).inum, some bn') = a := by
        rw [← hm.same.inum_eq i, hm.owned.refs_held hi']
        show blockOf _ _ bn' = a
        rw [hbn']
        exact hm.block
      have hfree : a ∈ freeBlocks s := by
        apply hw.fresh
        rw [hs.refs_held hi] at h0
        rwa [← hbn']
      have hused : a ∉ freeBlocks s' := by
        have hnz : refs s' ((s.icache i).inum, some bn') ≠ 0 := by rw [hnew]; exact hm.ne_zero
        have := (hm.owned.data_of_refs hnz).2
        rwa [hnew] at this
      refine .inr ⟨h0, ?_⟩
      rw [hnew]
      rcases hm.new a hfree hused with ⟨-, hz⟩ | ⟨hind, -⟩
      · exact hz
      · exact absurd hind (hm.ne_indirect hi)
  · -- a block the inode holds is no bitmap block, not free, and no indirect block
    by_contra hc
    obtain ⟨hdata, hnot⟩ := hs.data_of_refs hne
    rcases (hw.disk _ hc).2 with hlt | hfree | hind
    · omega
    · exact hnot hfree
    · have hkey : refs s ((s.icache i).inum, none) = refs s (inum, some bn') := by
        rw [hs.refs_held hi]
        exact hind.symm
      exact absurd (hs.owners.eq_of_eq hne hkey.symm) (by simp)

theorem Owned.bmap_keeps (hs : Owned s) (hi : (s.icache i).held) (h : bmap s i bn = some (s', a)) :
    Keeps s i s' ∧ byteAt s'.disk (s'.icache i).toDinode = byteAt s.disk (s.icache i).toDinode := by
  have hm := hs.bmap_mapped hi (lt_MAXFILE_of_bmap h) h
  have hw := hs.bmap_writes hi h
  have hdin : ∀ inum < s.sb.ninodes, dinodeOf s' inum = dinodeOf s inum :=
    fun _ hlt => dinodeOf_eq_of_writes hs.wf hw.sb (fun c hc => (hw.disk c hc).1) hlt
  have hi' := (hm.same.held_iff i).mpr hi
  -- a block the file has is a nonzero key, which `bmap` leaves as it was
  have hmapped : ∀ bn', blockOf s.disk (s.icache i).toDinode bn' ≠ 0 →
      blockOf s'.disk (s'.icache i).toDinode bn' = blockOf s.disk (s.icache i).toDinode bn' := by
    intro bn' h0
    have hbn' := lt_of_blockOf_ne_zero h0
    have hkey : refs s ((s.icache i).inum, some ⟨bn', hbn'⟩) ≠ 0 := by rw [hs.refs_held hi]; exact h0
    have heq : refs s' ((s.icache i).inum, some ⟨bn', hbn'⟩) = refs s ((s.icache i).inum, some ⟨bn', hbn'⟩) := by
      by_contra hne
      exact hkey (hm.refs _ hne).1
    have h₁ := hm.owned.refs_held hi' (some ⟨bn', hbn'⟩)
    rw [hm.same.inum_eq i] at h₁
    exact h₁.symm.trans (heq.trans (hs.refs_held hi _))
  refine ⟨⟨hm.owned, hm.same, hw.sb, hdin, fun inum _ ha => hs.bmap_byteAt hi hm hw ha, hmapped⟩, ?_⟩
  have hbytes := hs.bmap_byteAt hi hm hw (hs.held_allocated hi)
  rwa [← hm.same.inum_eq i, hm.owned.current_eq hi', hm.same.inum_eq i, hs.current_eq hi] at hbytes

end Keeps

/-!
## A chunk written into a block of the file
-/

section Chunk

theorem Owned.blockOf_setDisk (hs : Owned s) (hi : (s.icache i).held) (hbn : bn < MAXFILE)
    (hb : blockOf s.disk (s.icache i).toDinode bn = a) (ha : a ≠ 0) (blk : Bytes) :
    blockOf (s.setDisk a blk).disk (s.icache i).toDinode = blockOf s.disk (s.icache i).toDinode := by
  have hind : (s.icache i).addrs (Fin.last NDIRECT) ≠ a := by
    rw [← hb]
    exact (hs.blockOf_ne_indirect hi hbn (hb ▸ ha)).symm
  exact funext (blockOf_congr fun _ => setDisk_disk_of_ne hind)

theorem Owned.byteAt_setDisk (hs : Owned s) (hi : (s.icache i).held) (hbn : bn < MAXFILE)
    (hb : blockOf s.disk (s.icache i).toDinode bn = a) (ha : a ≠ 0) (blk : Bytes) (k : Nat) :
    byteAt (s.setDisk a blk).disk (s.icache i).toDinode k =
      if k / BSIZE = bn then blk (k % BSIZE) else byteAt s.disk (s.icache i).toDinode k := by
  unfold byteAt
  rw [hs.blockOf_setDisk hi hbn hb ha]
  by_cases hk : k / BSIZE = bn
  · rw [if_pos hk, hk, hb, if_neg ha, setDisk_disk_self]
  · rw [if_neg hk]
    by_cases h0 : blockOf s.disk (s.icache i).toDinode (k / BSIZE) = 0
    · rw [if_pos h0, if_pos h0]
    · -- the file's other blocks are other blocks
      have hne : blockOf s.disk (s.icache i).toDinode (k / BSIZE) ≠ a := fun he =>
        hk (hs.blockOf_inj hi (lt_of_blockOf_ne_zero h0) hbn h0 (he.trans hb.symm))
      rw [if_neg h0, if_neg h0, setDisk_disk_of_ne hne]

theorem Owned.byteAt_copy (hs : Owned s) (hi : (s.icache i).held) (hbn : bn < MAXFILE)
    (hb : blockOf s.disk (s.icache i).toDinode bn = a) (ha : a ≠ 0) (src : Bytes) (o so m k : Nat) :
    byteAt (s.setDisk a (copy (s.disk a) o src so m)).disk (s.icache i).toDinode k =
      if k / BSIZE = bn ∧ o ≤ k % BSIZE ∧ k % BSIZE < o + m then src (so + (k % BSIZE - o))
      else byteAt s.disk (s.icache i).toDinode k := by
  rw [hs.byteAt_setDisk hi hbn hb ha]
  by_cases hk : k / BSIZE = bn
  · rw [if_pos hk]
    by_cases hin : o ≤ k % BSIZE ∧ k % BSIZE < o + m
    · rw [if_pos ⟨hk, hin⟩, copy_of_mem hin.1 hin.2]
    · rw [if_neg fun h => hin h.2]
      simp only [copy, if_neg hin]
      unfold byteAt
      rw [hk, hb, if_neg ha]
  · rw [if_neg hk, if_neg fun h => hk h.1]

theorem Owned.setDisk_keeps (hs : Owned s) (hi : (s.icache i).held) (hbn : bn < MAXFILE)
    (hb : blockOf s.disk (s.icache i).toDinode bn = a) (ha : a ≠ 0) (blk : Bytes) :
    Keeps s i (s.setDisk a blk) := by
  have hkey : refs s ((s.icache i).inum, some ⟨bn, hbn⟩) = a := by
    rw [hs.refs_held hi]
    exact hb
  have hnz : refs s ((s.icache i).inum, some ⟨bn, hbn⟩) ≠ 0 := by rw [hkey]; exact ha
  have hdata : dataStart s.sb ≤ a := hkey ▸ (hs.data_of_refs hnz).1
  have hstart := bmapstart_lt_dataStart s.sb
  -- a key holding `a` is the file's key at `bn`
  have hown : ∀ x, refs s x = a → x = ((s.icache i).inum, some ⟨bn, hbn⟩) := fun x hx =>
    hs.owners.eq_of_eq (by rw [hx]; exact ha) (hx.trans hkey.symm)
  have hframe : Frame s (s.setDisk a blk) :=
    frame_setDisk (by omega) fun inum hx => absurd (hown _ hx) (by simp)
  refine ⟨hs.frame hframe fun c hc hu => (used_setDisk_of_data hc hdata).mpr hu, SameInodes.setDisk _ _ _, rfl,
    fun _ hlt => hframe.dinodeOf_eq hs.wf hlt, fun inum hne ha' => ?_,
    fun bn' _ => congrFun (hs.blockOf_setDisk hi hbn hb ha blk) bn'⟩
  refine hframe.byteAt_eq hs.wf ha' fun x hx r hr => ?_
  have hxa : x = a := by
    by_contra hxa
    exact hx (setDisk_disk_of_ne hxa)
  exact hne (congrArg Prod.fst (hown _ (hr.trans hxa)))

end Chunk

/-!
## `writei`'s loop
-/

section WriteLoop

theorem chunk_mem {off tot n k : Nat} :
    (k / BSIZE = off / BSIZE ∧ off % BSIZE ≤ k % BSIZE ∧ k % BSIZE < off % BSIZE + chunk off tot n) ↔
      off ≤ k ∧ k < off + chunk off tot n := by
  unfold chunk BSIZE
  omega

theorem chunk_index {off tot n k : Nat} (h : off ≤ k ∧ k < off + chunk off tot n) :
    k % BSIZE - off % BSIZE = k - off := by
  unfold chunk BSIZE at *
  omega

variable {src : Bytes}

/-- `writei`'s loop from a held entry keeps what the loops keep, writes `src`
from `tot` over the file from `off`, and leaves a block of the file under
each byte written. -/
theorem writeLoop_keeps (n d : Nat) :
    ∀ (s : State) (off tot : Nat), n - tot = d → Owned s → (s.icache i).held → ∀ {s' : State} {off' : Nat},
      writeLoop i src s off tot n = some (s', off') →
        Keeps s i s' ∧ (∀ k, byteAt s'.disk (s'.icache i).toDinode k =
          if off ≤ k ∧ k < off + (n - tot) then src (tot + (k - off)) else byteAt s.disk (s.icache i).toDinode k) ∧
        ∀ k, off ≤ k → k < off + (n - tot) → blockOf s'.disk (s'.icache i).toDinode (k / BSIZE) ≠ 0 := by
  induction d using Nat.strong_induction_on with
  | _ d ih =>
      intro s off tot hd hs hi s' off' hrun
      rw [writeLoop] at hrun
      split at hrun
      · rename_i htot
        split at hrun
        · cases hrun
        · rename_i s₁ a hb
          have hm₀ := chunk_pos off htot
          have hle : chunk off tot n ≤ n - tot := min_le_left _ _
          obtain ⟨hk₁, hbytes₁⟩ := hs.bmap_keeps hi hb
          have hm := hs.bmap_mapped hi (lt_MAXFILE_of_bmap hb) hb
          have hi₁ := (hm.same.held_iff i).mpr hi
          have hk₂ := hk₁.owned.setDisk_keeps hi₁ (lt_MAXFILE_of_bmap hb) hm.block hm.ne_zero
            (copy (s₁.disk a) (off % BSIZE) src tot (chunk off tot n))
          obtain ⟨hk₃, hbytes₃, hmapped₃⟩ := ih _ (by omega) _ _ _ rfl hk₂.owned hi₁ hrun
          refine ⟨hk₁.trans (hk₂.trans hk₃), fun k => ?_, fun k hlo hhi => ?_⟩
          swap
          · -- the chunk's block stays the file's; the later bytes are the later turns'
            by_cases hin : k < off + chunk off tot n
            · have hblk := (chunk_mem.mpr ⟨hlo, hin⟩).1
              have h₂ := hk₁.owned.blockOf_setDisk hi₁ (lt_MAXFILE_of_bmap hb) hm.block hm.ne_zero
                (copy (s₁.disk a) (off % BSIZE) src tot (chunk off tot n))
              have ha₂ : blockOf (s₁.setDisk a (copy (s₁.disk a) (off % BSIZE) src tot (chunk off tot n))).disk
                  ((s₁.setDisk a (copy (s₁.disk a) (off % BSIZE) src tot (chunk off tot n))).icache i).toDinode
                  (off / BSIZE) = a := by
                rw [setDisk_icache, h₂, hm.block]
              rw [hblk, hk₃.mapped _ (by rw [ha₂]; exact hm.ne_zero), ha₂]
              exact hm.ne_zero
            · exact hmapped₃ k (by omega) (by omega)
          rw [hbytes₃ k, setDisk_icache, hk₁.owned.byteAt_copy hi₁ (lt_MAXFILE_of_bmap hb) hm.block hm.ne_zero,
            hbytes₁]
          -- the chunk, the bytes after it, or the file as it was
          by_cases hafter : off + chunk off tot n ≤ k ∧ k < off + (n - tot)
          · rw [if_pos ⟨hafter.1, by omega⟩, if_pos ⟨by omega, hafter.2⟩]
            congr 1
            omega
          · rw [if_neg fun h => hafter ⟨h.1, by omega⟩]
            by_cases hin : off ≤ k ∧ k < off + chunk off tot n
            · rw [if_pos (chunk_mem.mpr hin), if_pos ⟨hin.1, by omega⟩, chunk_index hin]
            · rw [if_neg fun h => hin (chunk_mem.mp h), if_neg fun h => by omega]
      · cases hrun
        refine ⟨Keeps.refl hs, fun k => ?_, fun k _ _ => by omega⟩
        rw [if_neg fun h => by omega]

end WriteLoop

/-!
## The size written back

`ip->size = off; iupdate(ip)`: the entry's size changes, and its `struct
dinode`, the only one of its block that changes, is written from it.
-/

section Size

theorem Dinode.Lags.fits {d c : Dinode} (hl : d.Lags c) (hf : d.Fits) (ha : ∀ j, c.addrs j < 2 ^ 32) : c.Fits := by
  obtain ⟨type, major, minor, nlink, size, addrs⟩ := d
  obtain ⟨type', major', minor', nlink', size', addrs'⟩ := c
  have h := hl.attrs
  simp only [Dinode.attrs, Dinode.mk.injEq] at h
  obtain ⟨rfl, rfl, rfl, rfl, rfl, -⟩ := h
  exact ⟨hf.type, hf.major, hf.minor, hf.nlink, hf.size, ha⟩

theorem Owned.held_fits (hs : Owned s) (hi : (s.icache i).held) : (s.icache i).toDinode.Fits := by
  have hblock : ∀ r, refAt s.disk (s.icache i).toDinode r < 2 ^ 32 := fun r => by
    rw [← hs.refs_held hi]
    by_cases h0 : refs s ((s.icache i).inum, r) = 0
    · rw [h0]
      exact Nat.two_pow_pos 32
    · exact lt_trans (hs.owners.inside _ h0).2 hs.wf.size
  refine (hs.held_disk hi).fits (Dinode.fits_get _ _) fun j => ?_
  by_cases hj : (j : Nat) < NDIRECT
  · have hlt := hblock (some ⟨j, by unfold MAXFILE; omega⟩)
    rw [refAt, blockOf_of_lt hj] at hlt
    exact hlt
  · have hjl : j = Fin.last NDIRECT := Fin.ext (by simp only [Fin.val_last]; omega)
    subst hjl
    exact hblock none

theorem iupdate_sb : (iupdate s i).sb = s.sb :=
  rfl

theorem iupdate_disk_self : (iupdate s i).disk (IBLOCK (s.icache i).inum s.sb) =
    Dinode.put (s.disk (IBLOCK (s.icache i).inum s.sb)) (dinodeOffset (s.icache i).inum) (s.icache i).toDinode :=
  setDisk_disk_self

theorem iupdate_disk_of_ne {c : Nat} (hc : c ≠ IBLOCK (s.icache i).inum s.sb) : (iupdate s i).disk c = s.disk c :=
  setDisk_disk_of_ne hc

theorem dinodeOf_iupdate_self (hf : (s.icache i).toDinode.Fits) :
    dinodeOf (iupdate s i) (s.icache i).inum = (s.icache i).toDinode := by
  rw [Fs.dinodeOf, iupdate_sb, iupdate_disk_self, Dinode.get_put_self _ _ hf]

theorem dinodeOf_iupdate_of_ne (hne : inum ≠ (s.icache i).inum) : dinodeOf (iupdate s i) inum = dinodeOf s inum := by
  rw [Fs.dinodeOf, Fs.dinodeOf, iupdate_sb]
  by_cases hb : IBLOCK inum s.sb = IBLOCK (s.icache i).inum s.sb
  · rw [hb, iupdate_disk_self, Dinode.get_put_of_disjoint _ _ (dinodeOffset_disjoint hb hne)]
  · rw [iupdate_disk_of_ne hb]

variable {sz : Nat}

theorem setSize_icache (j : Fin NINODE) :
    ((iupdate (s.setInode i { s.icache i with size := sz }) i).icache j).held = (s.icache j).held ∧
      ((iupdate (s.setInode i { s.icache i with size := sz }) i).icache j).inum = (s.icache j).inum ∧
      ((iupdate (s.setInode i { s.icache i with size := sz }) i).icache j).type = (s.icache j).type := by
  rw [iupdate_icache]
  by_cases hj : j = i
  · subst hj
    rw [setInode_icache_self]
    exact ⟨rfl, rfl, rfl⟩
  · rw [setInode_icache_of_ne hj]
    exact ⟨rfl, rfl, rfl⟩

theorem setSize_disk_of_ne {c : Nat} (hc : c ≠ IBLOCK (s.icache i).inum s.sb) :
    (iupdate (s.setInode i { s.icache i with size := sz }) i).disk c = s.disk c := by
  rw [iupdate_disk_of_ne (by rwa [setInode_icache_self, setInode_sb]), setInode_disk]

theorem Owned.setSize_disk (hs : Owned s) (hi : (s.icache i).held) {c : Nat} (hc : s.sb.bmapstart ≤ c) :
    (iupdate (s.setInode i { s.icache i with size := sz }) i).disk c = s.disk c := by
  have := hs.wf.iblock_lt (hs.held_inum hi).2
  exact setSize_disk_of_ne (by omega)

theorem Owned.dinodeOf_setSize_self (hs : Owned s) (hi : (s.icache i).held) (hsz : sz ≤ MAXFILE * BSIZE) :
    dinodeOf (iupdate (s.setInode i { s.icache i with size := sz }) i) (s.icache i).inum =
      { (s.icache i).toDinode with size := sz } := by
  have hf := hs.held_fits hi
  have hsz' : sz < 2 ^ 32 := by unfold MAXFILE NINDIRECT NDIRECT BSIZE at hsz; omega
  have h := dinodeOf_iupdate_self (s := s.setInode i { s.icache i with size := sz }) (i := i)
    (by rw [setInode_icache_self]; exact ⟨hf.type, hf.major, hf.minor, hf.nlink, hsz', hf.addrs⟩)
  rw [setInode_icache_self] at h
  exact h

theorem dinodeOf_setSize_of_ne (hne : inum ≠ (s.icache i).inum) :
    dinodeOf (iupdate (s.setInode i { s.icache i with size := sz }) i) inum = dinodeOf s inum :=
  dinodeOf_iupdate_of_ne (by rwa [setInode_icache_self])

theorem Owned.current_setSize (hs : Owned s) (hi : (s.icache i).held) (sz inum : Nat) :
    current (iupdate (s.setInode i { s.icache i with size := sz }) i) inum =
      if inum = (s.icache i).inum then { (s.icache i).toDinode with size := sz } else current s inum := by
  have hc : cached (iupdate (s.setInode i { s.icache i with size := sz }) i) inum = cached s inum := by
    simp only [Fs.cached, setSize_icache]
  cases h : cached s inum with
  | none =>
      have hne : inum ≠ (s.icache i).inum := fun he => by
        rw [he, hs.cached_eq hi] at h
        cases h
      rw [current_of_not_cached (hc.trans h), current_of_not_cached h, if_neg hne, dinodeOf_setSize_of_ne hne]
  | some j =>
      rw [current_of_cached (hc.trans h), current_of_cached h, iupdate_icache]
      by_cases hji : j = i
      · subst hji
        rw [if_pos (inum_of_cached h).symm, setInode_icache_self]
      · -- the entry `cached` finds for another inode
        have hne : inum ≠ (s.icache i).inum := fun he =>
          hji (hs.held_unique (held_of_cached h) hi ((inum_of_cached h).trans he))
        rw [if_neg hne, setInode_icache_of_ne hji]

theorem setSize_icache_self :
    (iupdate (s.setInode i { s.icache i with size := sz }) i).icache i = { s.icache i with size := sz } := by
  rw [iupdate_icache, setInode_icache_self]

theorem Owned.indirect_data (hs : Owned s) (hi : (s.icache i).held) (h0 : (s.icache i).addrs (Fin.last NDIRECT) ≠ 0) :
    dataStart s.sb ≤ (s.icache i).addrs (Fin.last NDIRECT) := by
  have hkey := hs.refs_held hi none
  have hdata := (hs.data_of_refs (x := ((s.icache i).inum, none)) (by rw [hkey]; exact h0)).1
  rwa [hkey] at hdata

theorem Owned.entry_setSize (hs : Owned s) (hi : (s.icache i).held) (sz : Nat) :
    blockOf (iupdate (s.setInode i { s.icache i with size := sz }) i).disk
        ((iupdate (s.setInode i { s.icache i with size := sz }) i).icache i).toDinode =
      blockOf s.disk (s.icache i).toDinode ∧
    byteAt (iupdate (s.setInode i { s.icache i with size := sz }) i).disk
        ((iupdate (s.setInode i { s.icache i with size := sz }) i).icache i).toDinode =
      byteAt s.disk (s.icache i).toDinode := by
  have hdata : ∀ c, dataStart s.sb ≤ c → (iupdate (s.setInode i { s.icache i with size := sz }) i).disk c = s.disk c :=
    fun c hc => hs.setSize_disk hi (le_trans (bmapstart_lt_dataStart s.sb).le hc)
  have hbytes := hs.byteAt_of_data (hs.held_allocated hi) hdata
  rw [hs.current_eq hi] at hbytes
  rw [setSize_icache_self]
  exact ⟨funext (blockOf_congr fun h0 => hdata _ (hs.indirect_data hi h0)), hbytes⟩

theorem Owned.setSize (hs : Owned s) (hi : (s.icache i).held) (hsz : sz ≤ MAXFILE * BSIZE) :
    Owned (iupdate (s.setInode i { s.icache i with size := sz }) i) ∧
      (∀ inum, allocated (iupdate (s.setInode i { s.icache i with size := sz }) i) inum ↔ allocated s inum) ∧
      ∀ inum, allocated s inum →
        byteAt (iupdate (s.setInode i { s.icache i with size := sz }) i).disk
          (current (iupdate (s.setInode i { s.icache i with size := sz }) i) inum) =
        byteAt s.disk (current s inum) := by
  have hcur := hs.current_setSize hi sz
  have hdata : ∀ c, dataStart s.sb ≤ c → (iupdate (s.setInode i { s.icache i with size := sz }) i).disk c = s.disk c :=
    fun c hc => hs.setSize_disk hi (le_trans (bmapstart_lt_dataStart s.sb).le hc)
  have htype : ∀ inum, (current (iupdate (s.setInode i { s.icache i with size := sz }) i) inum).type =
      (current s inum).type := fun inum => by
    rw [hcur]
    split
    · rename_i he
      rw [he, hs.current_eq hi]
    · rfl
  have halloc : ∀ inum, allocated (iupdate (s.setInode i { s.icache i with size := sz }) i) inum ↔ allocated s inum :=
    fun inum => by
      unfold Fs.allocated
      rw [htype]
      rfl
  -- a file's map and bytes do not read its size
  have hbytes : ∀ inum, allocated s inum →
      byteAt (iupdate (s.setInode i { s.icache i with size := sz }) i).disk
        (current (iupdate (s.setInode i { s.icache i with size := sz }) i) inum) = byteAt s.disk (current s inum) := by
    intro inum ha
    rw [← hs.byteAt_of_data ha hdata, hcur]
    split
    · rename_i he
      rw [he, hs.current_eq hi]
      rfl
    · rfl
  have hrefs : refs (iupdate (s.setInode i { s.icache i with size := sz }) i) = refs s := by
    funext ⟨inum, r⟩
    by_cases ha : allocated s inum
    · rw [refs_of_allocated ((halloc inum).mpr ha), refs_of_allocated ha, hcur,
        ← refAt_congr (fun h0 => hdata _ (hs.refAt_data ha none h0)) r]
      split
      · rename_i he
        rw [he, hs.current_eq hi]
        cases r <;> rfl
      · rfl
    · simp only [Fs.refs, if_neg ha, if_neg (mt (halloc inum).mp ha)]
  have hused : ∀ c, used (iupdate (s.setInode i { s.icache i with size := sz }) i) c ↔ used s c := fun c => by
    unfold used
    rw [iupdate_sb, setInode_sb, hs.setSize_disk hi (bmapstart_le_bblock _ _)]
  refine ⟨⟨hs.wf, fun c hc => (hused c).mpr (hs.reserved c hc), ?_, fun {inum} ha => ?_, fun {inum} hlt hna => ?_,
    fun {j j'} hj hj' he => ?_, fun {j} hj => ?_, fun {j} hj => ?_, fun {j} hj => ?_⟩, halloc, hbytes⟩
  · rw [hrefs, show {c | used (iupdate (s.setInode i { s.icache i with size := sz }) i) c} = {c | used s c} from
      Set.ext hused]
    exact hs.owners
  · rw [hcur]
    split
    · exact hsz
    · exact hs.size ((halloc inum).mp ha)
  · rw [hcur]
    split
    · rename_i he
      exact absurd ((halloc inum).mpr (he ▸ hs.held_allocated hi)) hna
    · exact hs.empty hlt (mt (halloc inum).mpr hna)
  · rw [(setSize_icache j).2.1, (setSize_icache j').2.1] at he
    exact hs.held_unique ((setSize_icache j).1 ▸ hj) ((setSize_icache j').1 ▸ hj') he
  · rw [(setSize_icache j).2.1]
    exact hs.held_inum ((setSize_icache j).1 ▸ hj)
  · rw [(setSize_icache j).2.2]
    exact hs.held_type ((setSize_icache j).1 ▸ hj)
  · -- the written entry's `struct dinode` is its copy; the others are as they were
    have hj' := (setSize_icache j).1 ▸ hj
    rw [iupdate_icache]
    by_cases hji : j = i
    · subst hji
      rw [setInode_icache_self]
      show (dinodeOf _ (s.icache j).inum).Lags { (s.icache j).toDinode with size := sz }
      rw [hs.dinodeOf_setSize_self hj' hsz]
      exact ⟨rfl, fun _ => .inr rfl⟩
    · have hne : (s.icache j).inum ≠ (s.icache i).inum := fun he => hji (hs.held_unique hj' hi he)
      rw [setInode_icache_of_ne hji, dinodeOf_setSize_of_ne hne]
      exact hs.held_disk hj'

end Size

/-!
## `writei`
-/

section Writei

theorem wraps_iff {off n : UInt32} : off + n < off ↔ 2 ^ 32 ≤ off.toNat + n.toNat := by
  rw [UInt32.lt_iff_toNat_lt, UInt32.toNat_add]
  have := off.toNat_lt
  have := n.toNat_lt
  omega

theorem Owned.content_held (hs : Owned s) (hi : (s.icache i).held) :
    content s (s.icache i).inum = (List.range (s.icache i).size).map (byteAt s.disk (s.icache i).toDinode) := by
  rw [content, hs.current_eq hi]

theorem Keeps.content_eq (h : Keeps s i s') (hlt : inum < s.sb.ninodes) (hne : inum ≠ (s.icache i).inum) :
    content s' inum = content s inum := by
  unfold content
  rw [h.size_current hlt]
  by_cases ha : allocated s inum
  · rw [h.others inum hne ha]
  · have h0 := h.owned.empty (h.sb ▸ hlt) (mt h.allocated_iff.mp ha)
    rw [h.size_current hlt] at h0
    rw [h0, List.range_zero, List.map_nil, List.map_nil]

theorem Owned.content_setSize (hs : Owned s) (hi : (s.icache i).held) {sz : Nat} (hsz : sz ≤ MAXFILE * BSIZE)
    (hlt : inum < s.sb.ninodes) :
    content (iupdate (s.setInode i { s.icache i with size := sz }) i) inum =
      if inum = (s.icache i).inum then (List.range sz).map (byteAt s.disk (s.icache i).toDinode)
      else content s inum := by
  obtain ⟨-, -, hbytes⟩ := hs.setSize hi hsz
  by_cases he : inum = (s.icache i).inum
  · have hb := hbytes _ (hs.held_allocated hi)
    rw [hs.current_setSize hi, if_pos rfl, hs.current_eq hi] at hb
    rw [if_pos he, he, content, hs.current_setSize hi, if_pos rfl, hb]
  · rw [if_neg he]
    by_cases ha : allocated s inum
    · rw [content, content, ← hbytes inum ha, hs.current_setSize hi, if_neg he]
    · rw [content, content, hs.current_setSize hi, if_neg he, hs.empty hlt ha, List.range_zero, List.map_nil,
        List.map_nil]

variable {src : Bytes}

/-- What a `writei` of `n` bytes of `src` at `off` that succeeds leaves: the
invariant, the inodes in use and every other inode of the disk; the entry it
wrote through, held, grown to `off + n`, with a block under each byte written
and `src` written over its bytes from `off`. -/
structure Wrote (s : State) (i : Fin NINODE) (src : Bytes) (off n : Nat) (s' : State) : Prop where
  owned : Owned s'
  allocated_iff : ∀ inum, allocated s' inum ↔ allocated s inum
  others : ∀ inum < s.sb.ninodes, inum ≠ (s.icache i).inum → content s' inum = content s inum
  held : (s'.icache i).held
  inum : (s'.icache i).inum = (s.icache i).inum
  type : (s'.icache i).type = (s.icache i).type
  size : (s'.icache i).size = max (s.icache i).size (off + n)
  mapped : ∀ k, off ≤ k → k < off + n → blockOf s'.disk (s'.icache i).toDinode (k / BSIZE) ≠ 0
  bytes : ∀ k, byteAt s'.disk (s'.icache i).toDinode k =
    if off ≤ k ∧ k < off + n then src (k - off) else byteAt s.disk (s.icache i).toDinode k
  kept : ∀ bn, blockOf s.disk (s.icache i).toDinode bn ≠ 0 →
    blockOf s'.disk (s'.icache i).toDinode bn = blockOf s.disk (s.icache i).toDinode bn

theorem Wrote.content {off n : Nat} (h : Wrote s i src off n s') (hs : Owned s) (hi : (s.icache i).held)
    (hoff : off ≤ (s.icache i).size) :
    content s' (s.icache i).inum = splice (content s (s.icache i).inum) off ((List.range n).map src) := by
  have h' := h.owned.content_held h.held
  rw [h.inum] at h'
  rw [h', h.size, hs.content_held hi, splice_map_range hoff]
  congr 1
  funext k
  exact h.bytes k

theorem writei_not_dev {off n : UInt32} {p : State × Int} (h : writei s i src off n = some p) :
    (s.icache i).type ≠ T_DEV := by
  intro hdev
  simp [writei, hdev] at h

theorem writei_of_not_ok {off n : UInt32} {r : Int} (h : writei s i src off n = some (s', r))
    (hbad : ¬(off.toNat ≤ (s.icache i).size ∧ off.toNat + n.toNat ≤ MAXFILE * BSIZE)) : r = -1 ∧ s' = s := by
  unfold writei at h
  dsimp only at h
  split_ifs at h with hdev hb hl
  · obtain ⟨rfl, rfl⟩ := Prod.mk.inj (Option.some.inj h)
    exact ⟨rfl, rfl⟩
  · obtain ⟨rfl, rfl⟩ := Prod.mk.inj (Option.some.inj h)
    exact ⟨rfl, rfl⟩
  · exact absurd ⟨Nat.le_of_not_lt fun h => hb (.inl h), Nat.le_of_not_lt hl⟩ hbad

theorem Owned.writei_wrote (hs : Owned s) (hi : (s.icache i).held) {off n : UInt32} {r : Int}
    (h : writei s i src off n = some (s', r))
    (hok : off.toNat ≤ (s.icache i).size ∧ off.toNat + n.toNat ≤ MAXFILE * BSIZE) :
    r = CInt.ofUInt n.toNat ∧ Wrote s i src off.toNat n.toNat s' := by
  have hmax : MAXFILE * BSIZE < 2 ^ 32 := by unfold MAXFILE NINDIRECT NDIRECT BSIZE; omega
  unfold writei at h
  dsimp only at h
  split_ifs at h with hdev hbad hlong
  · rw [wraps_iff] at hbad
    omega
  · omega
  obtain ⟨⟨s₁, off'⟩, hrun, he⟩ := Option.map_eq_some_iff.mp h
  obtain ⟨hk, hbytes, hmapped⟩ := writeLoop_keeps n.toNat _ s off.toNat 0 rfl hs hi hrun
  have hoff' := (writeLoop_spec i src n.toNat _ s off.toNat 0 rfl hrun).2
  simp only [Nat.sub_zero, Nat.zero_add] at hbytes hmapped hoff'
  have hi₁ : (s₁.icache i).held := (hk.same.held_iff i).mpr hi
  have hsize := hk.same.size i
  dsimp only at he
  split at he
  · -- the file grows: its size is written back
    obtain ⟨rfl, rfl⟩ := Prod.mk.inj he
    have hsz : off' ≤ MAXFILE * BSIZE := by omega
    obtain ⟨hown, halloc, -⟩ := hk.owned.setSize hi₁ hsz
    obtain ⟨hblock, hbyte⟩ := hk.owned.entry_setSize hi₁ off'
    refine ⟨rfl, hown, fun inum => (halloc inum).trans hk.allocated_iff, fun inum hlt hne => ?_, ?_, ?_, ?_, ?_,
      fun k hlo hhi => ?_, fun k => ?_, fun bn h0 => ?_⟩
    · rw [hk.owned.content_setSize hi₁ hsz (hk.sb ▸ hlt), if_neg (hk.same.inum_eq i ▸ hne), hk.content_eq hlt hne]
    · rw [setSize_icache_self]
      exact hi₁
    · rw [setSize_icache_self]
      exact hk.same.inum_eq i
    · rw [setSize_icache_self]
      exact hk.same.type i
    · rw [setSize_icache_self]
      show off' = _
      omega
    · rw [hblock]
      exact hmapped k hlo hhi
    · rw [hbyte]
      exact hbytes k
    · rw [hblock]
      exact hk.mapped bn h0
  · -- the file keeps its size
    obtain ⟨rfl, rfl⟩ := Prod.mk.inj he
    exact ⟨rfl, hk.owned, fun _ => hk.allocated_iff, fun inum hlt hne => hk.content_eq hlt hne, hi₁,
      hk.same.inum_eq i, hk.same.type i, by omega, hmapped, hbytes, hk.mapped⟩

/-- `writei` through a held entry keeps the invariant, the inodes in use and
every other inode of the disk.  A write that starts inside the file and ends
within `MAXFILE` blocks returns `n` and writes `src` over the file from
`off`, growing it; any other returns `-1` and changes nothing. -/
theorem Owned.writei_splice (hs : Owned s) (hi : (s.icache i).held) {off n : UInt32} {r : Int}
    (h : writei s i src off n = some (s', r)) :
    Owned s' ∧ (∀ inum, allocated s' inum ↔ allocated s inum) ∧
      (∀ inum < s.sb.ninodes, inum ≠ (s.icache i).inum → content s' inum = content s inum) ∧
      if off.toNat ≤ (s.icache i).size ∧ off.toNat + n.toNat ≤ MAXFILE * BSIZE then
        r = CInt.ofUInt n.toNat ∧
          content s' (s.icache i).inum = splice (content s (s.icache i).inum) off.toNat ((List.range n.toNat).map src)
      else r = -1 ∧ s' = s := by
  by_cases hok : off.toNat ≤ (s.icache i).size ∧ off.toNat + n.toNat ≤ MAXFILE * BSIZE
  · obtain ⟨hr, hw⟩ := hs.writei_wrote hi h hok
    refine ⟨hw.owned, hw.allocated_iff, hw.others, ?_⟩
    rw [if_pos hok]
    exact ⟨hr, hw.content hs hi hok.1⟩
  · obtain ⟨hr, rfl⟩ := writei_of_not_ok h hok
    refine ⟨hs, fun _ => Iff.rfl, fun _ _ _ => rfl, ?_⟩
    rw [if_neg hok]
    exact ⟨hr, rfl⟩

/-- A write that fits in one block is one turn of `writei`'s loop, through
the block `bmap` gives. -/
theorem writeLoop_one_block {s₁ : State} {off n a : Nat} (hn : 0 < n) (hfit : off % BSIZE + n ≤ BSIZE)
    (hb : bmap s i (off / BSIZE) = some (s₁, a)) :
    writeLoop i src s off 0 n = some (s₁.setDisk a (copy (s₁.disk a) (off % BSIZE) src 0 n), off + n) := by
  have hc : chunk off 0 n = n := by
    unfold chunk
    omega
  rw [writeLoop_of_lt hn hb, hc, Nat.zero_add, writeLoop_of_ge (Nat.le_refl n)]

/-- A `writei` from inside the file whose loop ends returns `n`. -/
theorem writei_of_writeLoop {off n : UInt32} {s₁ : State} {e : Nat} (hdev : (s.icache i).type ≠ T_DEV)
    (hoff : off.toNat ≤ (s.icache i).size) (hmax : off.toNat + n.toNat ≤ MAXFILE * BSIZE)
    (hloop : writeLoop i src s off.toNat 0 n.toNat = some (s₁, e)) :
    ∃ s', writei s i src off n = some (s', CInt.ofUInt n.toNat) := by
  have hlimit : MAXFILE * BSIZE < 2 ^ 32 := by unfold MAXFILE NINDIRECT NDIRECT BSIZE; omega
  unfold writei
  dsimp only
  rw [if_neg hdev, if_neg (by rw [wraps_iff]; omega), if_neg (by omega), hloop, Option.map_some]
  split
  · exact ⟨_, rfl⟩
  · exact ⟨_, rfl⟩

theorem writei_oneFile : ∃ s' r, writei oneFile 0 (fun _ => 7) 0 3 = some (s', r) := by
  obtain ⟨⟨s₁, a⟩, hb⟩ : ∃ p, bmap oneFile 0 ((0 : UInt32).toNat / BSIZE) = some p :=
    Option.isSome_iff_exists.mp (by decide)
  obtain ⟨s', hw⟩ : ∃ s', writei oneFile 0 (fun _ => 7) 0 3 = some (s', CInt.ofUInt (3 : UInt32).toNat) :=
    writei_of_writeLoop (by decide) (by decide) (by decide) (writeLoop_one_block (by decide) (by decide) hb)
  exact ⟨s', _, hw⟩

theorem content_oneFile : content oneFile 1 = [] := by
  rw [content, (current_oneFile (by decide)).1]
  rfl

theorem writei_splice_on_oneFile :
    ∃ s' r, writei oneFile 0 (fun _ => 7) 0 3 = some (s', r) ∧ Owned s' ∧ r = 3 ∧ content s' 1 = [7, 7, 7] := by
  obtain ⟨s', r, hw⟩ := writei_oneFile
  obtain ⟨hs', -, -, hok⟩ := owned_oneFile.writei_splice ((held_oneFile 0).mpr rfl) hw
  have hin : (0 : UInt32).toNat ≤ (oneFile.icache 0).size ∧ (0 : UInt32).toNat + (3 : UInt32).toNat ≤ MAXFILE * BSIZE :=
    ⟨by decide, by decide⟩
  rw [if_pos hin] at hok
  obtain ⟨hr, hc⟩ := hok
  refine ⟨s', r, hw, hs', hr.trans (by decide), ?_⟩
  rw [show (oneFile.icache 0).inum = 1 from rfl, content_oneFile] at hc
  rw [hc]
  rfl

end Writei

/-!
## `readi`
-/

section Readi

theorem byteAt_of_chunk {disk : Disk} {d : Dinode} {off k : Nat} (hb : blockOf disk d (off / BSIZE) = a) (ha : a ≠ 0)
    (hk : off % BSIZE + k < BSIZE) : byteAt disk d (off + k) = disk a (off % BSIZE + k) := by
  have hdiv : (off + k) / BSIZE = off / BSIZE := by unfold BSIZE at *; omega
  have hmod : (off + k) % BSIZE = off % BSIZE + k := by unfold BSIZE at *; omega
  rw [byteAt, hdiv, hmod, hb, if_neg ha]

theorem chunk_read {disk : Disk} {d : Dinode} {off tot n : Nat} (hb : blockOf disk d (off / BSIZE) = a) (ha : a ≠ 0) :
    (List.range (chunk off tot n)).map (fun k => disk a (off % BSIZE + k)) =
      (List.range (chunk off tot n)).map fun t => byteAt disk d (off + t) := by
  refine List.map_congr_left fun k hk => (byteAt_of_chunk hb ha ?_).symm
  have := List.mem_range.mp hk
  have : chunk off tot n ≤ BSIZE - off % BSIZE := min_le_right _ _
  have : off % BSIZE < BSIZE := Nat.mod_lt _ (by decide)
  omega

theorem readLoop_keeps (n d : Nat) :
    ∀ (s : State) (off tot : Nat) (dst : List UInt8), n - tot = d → Owned s → (s.icache i).held →
      ∀ {s' : State} {dst' : List UInt8}, readLoop i s off tot n dst = some (s', dst') →
        Keeps s i s' ∧ byteAt s'.disk (s'.icache i).toDinode = byteAt s.disk (s.icache i).toDinode ∧
          dst' = dst ++ (List.range (n - tot)).map (fun t => byteAt s.disk (s.icache i).toDinode (off + t)) ∧
          ∀ k, off ≤ k → k < off + (n - tot) → blockOf s'.disk (s'.icache i).toDinode (k / BSIZE) ≠ 0 := by
  induction d using Nat.strong_induction_on with
  | _ d ih =>
      intro s off tot dst hd hs hi s' dst' hrun
      rw [readLoop] at hrun
      split at hrun
      · rename_i htot
        split at hrun
        · cases hrun
        · rename_i s₁ a hb
          have hm₀ := chunk_pos off htot
          have hle : chunk off tot n ≤ n - tot := min_le_left _ _
          obtain ⟨hk₁, hbytes₁⟩ := hs.bmap_keeps hi hb
          have hm := hs.bmap_mapped hi (lt_MAXFILE_of_bmap hb) hb
          obtain ⟨hk₂, hbytes₂, hdst, hmapped₂⟩ := ih _ (by omega) _ _ _ _ rfl hk₁.owned ((hm.same.held_iff i).mpr hi) hrun
          refine ⟨hk₁.trans hk₂, hbytes₂.trans hbytes₁, ?_, fun k hlo hhi => ?_⟩
          · -- the chunk, then the rest
            rw [hdst, chunk_read hm.block hm.ne_zero, hbytes₁, List.append_assoc,
              show n - tot = chunk off tot n + (n - (tot + chunk off tot n)) by omega, map_range_add]
            simp only [Nat.add_assoc]
          · -- the chunk's block stays the file's; the later bytes are the later turns'
            by_cases hin : k < off + chunk off tot n
            · rw [(chunk_mem.mpr ⟨hlo, hin⟩).1, hk₂.mapped _ (by rw [hm.block]; exact hm.ne_zero), hm.block]
              exact hm.ne_zero
            · exact hmapped₂ k (by omega) (by omega)
      · cases hrun
        refine ⟨Keeps.refl hs, rfl, ?_, fun k _ _ => by omega⟩
        rw [show n - tot = 0 by omega, List.range_zero, List.map_nil, List.append_nil]

theorem readLoop_of_mapped (n d : Nat) :
    ∀ (off tot : Nat) (dst : List UInt8), n - tot = d →
      (∀ k, off ≤ k → k < off + (n - tot) → blockOf s.disk (s.icache i).toDinode (k / BSIZE) ≠ 0) →
      readLoop i s off tot n dst =
        some (s, dst ++ (List.range (n - tot)).map fun t => byteAt s.disk (s.icache i).toDinode (off + t)) := by
  induction d using Nat.strong_induction_on with
  | _ d ih =>
      intro off tot dst hd hmapped
      by_cases htot : tot < n
      · have hm₀ := chunk_pos off htot
        have hle : chunk off tot n ≤ n - tot := min_le_left _ _
        have h0 := hmapped off le_rfl (by omega)
        rw [readLoop_of_lt htot (bmap_of_blockOf_ne_zero (lt_of_blockOf_ne_zero h0) h0),
          ih _ (by omega) _ _ _ rfl fun k hlo hhi => hmapped k (by omega) (by omega), chunk_read rfl h0,
          List.append_assoc, show n - tot = chunk off tot n + (n - (tot + chunk off tot n)) by omega, map_range_add]
        simp only [Nat.add_assoc]
      · rw [readLoop_of_ge (by omega), show n - tot = 0 by omega, List.range_zero, List.map_nil, List.append_nil]

theorem Keeps.content_self (h : Keeps s i s') (hs : Owned s) (hi : (s.icache i).held)
    (hb : byteAt s'.disk (s'.icache i).toDinode = byteAt s.disk (s.icache i).toDinode) :
    content s' (s.icache i).inum = content s (s.icache i).inum := by
  have h' := h.owned.content_held ((h.same.held_iff i).mpr hi)
  rw [h.same.inum_eq i] at h'
  rw [h', hb, h.same.size i, hs.content_held hi]

theorem Keeps.content_all (h : Keeps s i s') (hs : Owned s) (hi : (s.icache i).held)
    (hb : byteAt s'.disk (s'.icache i).toDinode = byteAt s.disk (s.icache i).toDinode) (hlt : inum < s.sb.ninodes) :
    content s' inum = content s inum := by
  by_cases he : inum = (s.icache i).inum
  · rw [he]
    exact h.content_self hs hi hb
  · exact h.content_eq hlt he

/-- `readi` through a held entry keeps the invariant, the inodes in use and
every inode of the disk, though its `bmap` may fill holes.  A read that
starts inside the file and does not wrap returns the file's bytes from `off`,
at most `n` of them, and their count; any other returns `-1` and changes
nothing. -/
theorem Owned.readi_content (hs : Owned s) (hi : (s.icache i).held) {off n : UInt32} {r : Int} {dst : List UInt8}
    (h : readi s i off n = some (s', r, dst)) :
    Owned s' ∧ (∀ inum, allocated s' inum ↔ allocated s inum) ∧
      (∀ inum < s.sb.ninodes, content s' inum = content s inum) ∧
      if off.toNat ≤ (s.icache i).size ∧ off.toNat + n.toNat < 2 ^ 32 then
        r = CInt.ofUInt (min n.toNat ((s.icache i).size - off.toNat)) ∧
          dst = ((content s (s.icache i).inum).drop off.toNat).take n.toNat
      else r = -1 ∧ dst = [] ∧ s' = s := by
  -- the count, cut at the end of the file
  have hclamp : (if off.toNat + n.toNat > (s.icache i).size then (s.icache i).size - off.toNat else n.toNat) =
      min n.toNat ((s.icache i).size - off.toNat) := by
    split <;> omega
  unfold readi at h
  dsimp only at h
  rw [hclamp] at h
  -- the device branch is `none`
  split_ifs at h with hdev hbad
  · obtain ⟨rfl, he⟩ := Prod.mk.inj (Option.some.inj h)
    obtain ⟨rfl, rfl⟩ := Prod.mk.inj he
    rw [wraps_iff] at hbad
    refine ⟨hs, fun _ => Iff.rfl, fun _ _ => rfl, ?_⟩
    rw [if_neg (by omega)]
    exact ⟨rfl, rfl, rfl⟩
  · obtain ⟨⟨s₁, dst₁⟩, hrun, he⟩ := Option.map_eq_some_iff.mp h
    rw [wraps_iff] at hbad
    simp only [Prod.mk.injEq] at he
    obtain ⟨rfl, rfl, rfl⟩ := he
    obtain ⟨hk, hbytes, hdst, -⟩ := readLoop_keeps _ _ s off.toNat 0 [] rfl hs hi hrun
    refine ⟨hk.owned, fun _ => hk.allocated_iff, fun inum hlt => hk.content_all hs hi hbytes hlt, ?_⟩
    rw [if_pos (by omega), hs.content_held hi, take_drop_map_range, hdst, List.nil_append, Nat.sub_zero]
    exact ⟨rfl, rfl⟩

theorem Wrote.read_back {off n : UInt32} (h : Wrote s i src off.toNat n.toNat s')
    (hdev : (s'.icache i).type ≠ T_DEV) (hwrap : off.toNat + n.toNat < 2 ^ 32) :
    readi s' i off n = some (s', CInt.ofUInt n.toNat, (List.range n.toNat).map src) := by
  have hbad : ¬(off.toNat > (s'.icache i).size ∨ off + n < off) := by
    rw [wraps_iff, h.size]
    omega
  have hclamp : ¬(off.toNat + n.toNat > (s'.icache i).size) := by
    rw [h.size]
    omega
  have hread := readLoop_of_mapped (s := s') (i := i) n.toNat _ off.toNat 0 [] rfl
    fun k hlo hhi => h.mapped k hlo (by omega)
  -- each byte read is the byte of `src` written there
  have hbytes : ((List.range n.toNat).map fun t => byteAt s'.disk (s'.icache i).toDinode (off.toNat + t)) =
      (List.range n.toNat).map src := by
    refine List.map_congr_left fun t ht => ?_
    have ht := List.mem_range.mp ht
    rw [h.bytes, if_pos ⟨by omega, by omega⟩, Nat.add_sub_cancel_left]
  simp only [readi, if_neg hdev, if_neg hbad, if_neg hclamp]
  rw [hread, Nat.sub_zero, List.nil_append, hbytes]
  rfl

theorem readi_content_after_writei :
    ∃ s₁ r₁ s₂ r dst, writei oneFile 0 (fun _ => 7) 0 3 = some (s₁, r₁) ∧
      readi s₁ 0 0 3 = some (s₂, r, dst) ∧ Owned s₂ ∧ r = 3 ∧ dst = [7, 7, 7] ∧
      dst = ((content s₁ 1).drop 0).take 3 := by
  obtain ⟨s₁, r₁, hw⟩ := writei_oneFile
  obtain ⟨-, hwr⟩ := owned_oneFile.writei_wrote ((held_oneFile 0).mpr rfl) hw ⟨by decide, by decide⟩
  have hr := hwr.read_back (by rw [hwr.type]; decide) (by decide)
  obtain ⟨hs₂, -, -, hok⟩ := hwr.owned.readi_content hwr.held hr
  have hin : (0 : UInt32).toNat ≤ (s₁.icache 0).size ∧ (0 : UInt32).toNat + (3 : UInt32).toNat < 2 ^ 32 :=
    ⟨Nat.zero_le _, by decide⟩
  rw [if_pos hin, hwr.inum] at hok
  exact ⟨s₁, r₁, s₁, _, _, hw, hr, hs₂, by decide, by decide, hok.2⟩

/-- A read of the range a `writei` just wrote returns what was written: the
file has a block under each byte written, so the read maps nothing, changes
nothing and cannot panic. -/
theorem Owned.readi_writei (hs : Owned s) (hi : (s.icache i).held) {off n : UInt32} {r : Int}
    (hw : writei s i src off n = some (s', r)) (hoff : off.toNat ≤ (s.icache i).size)
    (hmax : off.toNat + n.toNat ≤ MAXFILE * BSIZE) :
    readi s' i off n = some (s', CInt.ofUInt n.toNat, (List.range n.toNat).map src) := by
  obtain ⟨-, hwr⟩ := hs.writei_wrote hi hw ⟨hoff, hmax⟩
  have hlimit : MAXFILE * BSIZE < 2 ^ 32 := by unfold MAXFILE NINDIRECT NDIRECT BSIZE; omega
  exact hwr.read_back (by rw [hwr.type]; exact writei_not_dev hw) (by omega)

theorem readi_writei_on_oneFile :
    ∃ s' r, writei oneFile 0 (fun _ => 7) 0 3 = some (s', r) ∧ readi s' 0 0 3 = some (s', 3, [7, 7, 7]) := by
  obtain ⟨s', r, hw⟩ := writei_oneFile
  have hoff : (0 : UInt32).toNat ≤ (oneFile.icache 0).size := by decide
  have hmax : (0 : UInt32).toNat + (3 : UInt32).toNat ≤ MAXFILE * BSIZE := by decide
  have hread := owned_oneFile.readi_writei ((held_oneFile 0).mpr rfl) hw hoff hmax
  rw [show CInt.ofUInt (3 : UInt32).toNat = 3 by decide,
    show ((List.range (3 : UInt32).toNat).map fun _ => (7 : UInt8)) = [7, 7, 7] by decide] at hread
  exact ⟨s', r, hw, hread⟩

end Readi

end Fs

end Xv6
