import Xv6.Fs.File
import Xv6.Fs.Blocks

/-!
# `bmap` on the file system's invariant

`bmap(ip, bn)` fills a hole of a file with a block from `balloc`: a direct
address in the cache entry, or an entry of the indirect block, allocating the
indirect block first when the file has none.  Under the invariant `Owned` and
for a held entry, each such write gives a key of the owners table a fresh,
zeroed block, so the table stays sound; hence `bmap` returns a nonzero block
that a second call returns again, blocks of distinct `bn` differ from each
other and from the indirect block, and what it allocates was free and is
zero but for the one entry it writes.  It panics exactly when the free blocks
are fewer than the holes it has to fill.

Without the invariant none of this holds: a cache entry may name one block
twice, and `balloc` may find no free block.  `writei`'s check keeps its loop
below `MAXFILE` blocks on every inode; `readi` trusts the inode's size, which
the invariant bounds.
-/

namespace Xv6

namespace Fs

open Bytes State Function

/-!
## A file's map under one new address
-/

section Map

variable {disk : Disk} {d : Dinode} {bn a : Nat}

theorem blockOf_setDirect (hbn : bn < NDIRECT) (bn' : Nat) :
    blockOf disk { d with addrs := update d.addrs ⟨bn, Nat.lt_succ_of_lt hbn⟩ a } bn' =
      if bn' = bn then a else blockOf disk d bn' := by
  have hlast : (Fin.last NDIRECT) ≠ ⟨bn, Nat.lt_succ_of_lt hbn⟩ := fun h => by
    simp only [Fin.ext_iff, Fin.val_last] at h
    omega
  by_cases hd : bn' < NDIRECT
  · rw [blockOf_of_lt hd, blockOf_of_lt hd]
    by_cases he : bn' = bn
    · subst he
      rw [if_pos rfl]
      exact update_self _ _ _
    · rw [if_neg he]
      exact update_of_ne (fun h => he (Fin.ext_iff.mp h)) _ _
  · rw [if_neg (by omega)]
    unfold blockOf
    rw [dif_neg hd, dif_neg hd]
    simp only [update_of_ne hlast]

theorem blockOf_setIndirect (hia : d.addrs (Fin.last NDIRECT) = 0) (hz : disk a = fun _ => 0) :
    blockOf disk { d with addrs := update d.addrs (Fin.last NDIRECT) a } = blockOf disk d := by
  funext bn'
  by_cases hd : bn' < NDIRECT
  · rw [blockOf_of_lt hd, blockOf_of_lt hd]
    exact update_of_ne (fun h => by simp only [Fin.ext_iff, Fin.val_last] at h; omega) _ _
  · by_cases hm : bn' < MAXFILE
    · rw [blockOf_of_indirect (Nat.le_of_not_lt hd) hm, blockOf_of_indirect (Nat.le_of_not_lt hd) hm, if_pos hia]
      simp only [update_self, hz, getLE_zero]
      split <;> rfl
    · rw [blockOf_of_ge (Nat.le_of_not_lt hm), blockOf_of_ge (Nat.le_of_not_lt hm)]

theorem blockOf_setEntry (hia : d.addrs (Fin.last NDIRECT) ≠ 0) (h₁ : NDIRECT ≤ bn) (h₂ : bn < MAXFILE)
    (ha : a < 2 ^ 32) (bn' : Nat) :
    blockOf (update disk (d.addrs (Fin.last NDIRECT))
        (setLE (disk (d.addrs (Fin.last NDIRECT))) (4 * (bn - NDIRECT)) a 4)) d bn' =
      if bn' = bn then a else blockOf disk d bn' := by
  by_cases hd : bn' < NDIRECT
  · rw [if_neg (by omega), blockOf_of_lt hd, blockOf_of_lt hd]
  · by_cases hm : bn' < MAXFILE
    · rw [blockOf_of_indirect (Nat.le_of_not_lt hd) hm, blockOf_of_indirect (Nat.le_of_not_lt hd) hm,
        if_neg hia, if_neg hia, update_self]
      by_cases he : bn' = bn
      · subst he
        rw [if_pos rfl, getLE_setLE_self, Nat.mod_eq_of_lt (by simpa using ha)]
      · -- the entries of distinct blocks are disjoint words
        rw [if_neg he, getLE_setLE_of_disjoint _ _ (by omega)]
    · rw [if_neg (by omega), blockOf_of_ge (Nat.le_of_not_lt hm), blockOf_of_ge (Nat.le_of_not_lt hm)]

end Map

/-!
## The cache up to block addresses

`bmap` changes the cache only in the block addresses of the entry it maps
through, and the disk only past the inode blocks; what `Owned` says of the
inodes then carries over, and only its table of owners needs an argument.
-/

section Same

variable {s s' : State} {inum : Nat}

theorem SameInodes.inum_eq (h : SameInodes s s') (j : Fin NINODE) : (s'.icache j).inum = (s.icache j).inum := by
  rw [h.icache_eq j]

theorem SameInodes.held_iff (h : SameInodes s s') (j : Fin NINODE) : (s'.icache j).held ↔ (s.icache j).held := by
  rw [Inode.held, Inode.held, h.ref j, h.valid j]

theorem SameInodes.cached_eq (h : SameInodes s s') : cached s' inum = cached s inum := by
  simp only [Fs.cached, h.inum_eq, h.held_iff]

theorem inum_of_cached {j : Fin NINODE} (h : cached s inum = some j) : (s.icache j).inum = inum := by
  have := List.find?_some h
  simp only [decide_eq_true_eq] at this
  exact this.2

theorem SameInodes.attrs_current (h : SameInodes s s') (hdin : dinodeOf s' inum = dinodeOf s inum) :
    (current s' inum).attrs = (current s inum).attrs := by
  cases hc : cached s inum with
  | none => rw [current_of_not_cached (h.cached_eq.trans hc), current_of_not_cached hc, hdin]
  | some j =>
      rw [current_of_cached (h.cached_eq.trans hc), current_of_cached hc, h.icache_eq j]
      rfl

theorem SameInodes.allocated_iff (h : SameInodes s s') (hsb : s'.sb = s.sb)
    (hdin : ∀ inum < s.sb.ninodes, dinodeOf s' inum = dinodeOf s inum) : allocated s' inum ↔ allocated s inum := by
  unfold Fs.allocated
  rw [hsb]
  by_cases hi : inum < s.sb.ninodes
  · have htype := congrArg Dinode.type (h.attrs_current (hdin inum hi))
    rw [show (current s' inum).type = (current s inum).type from htype]
  · simp [hi]

/-- A state with the cache of `s` up to block addresses, the superblock, the
`struct dinode`s and the marks of `s`, and a sound table of owners keeps the
invariant, when the disk lags behind each held entry as it did. -/
theorem Owned.of_sameInodes (hs : Owned s) (h : SameInodes s s') (hsb : s'.sb = s.sb)
    (hdin : ∀ inum < s.sb.ninodes, dinodeOf s' inum = dinodeOf s inum)
    (hused : ∀ c < s.sb.size, used s' c ↔ used s c)
    (howners : Owners.Sound (Set.Ico (dataStart s.sb) s.sb.size) {b | used s' b} (refs s'))
    (hlag : ∀ {j}, (s.icache j).held → (dinodeOf s (s.icache j).inum).Lags (s'.icache j).toDinode) : Owned s' := by
  have hwf := hs.wf
  have hdata := hwf.data
  have halloc : ∀ {inum}, allocated s' inum ↔ allocated s inum := h.allocated_iff hsb hdin
  have hsize : ∀ {inum}, inum < s.sb.ninodes → (current s' inum).size = (current s inum).size := fun hi => by
    have hattrs := congrArg Dinode.size (h.attrs_current (hdin _ hi))
    exact hattrs
  refine ⟨hsb ▸ hwf, fun c hc => ?_, hsb ▸ howners, fun ha => ?_, fun hi ha => ?_, fun hj hj' => ?_,
    fun hj => ?_, fun hj => ?_, fun hj => ?_⟩
  · rw [hsb] at hc
    exact (hused c (by omega)).mpr (hs.reserved c hc)
  · have ha' := halloc.mp ha
    rw [hsize ha'.2.1]
    exact hs.size ha'
  · rw [hsb] at hi
    rw [hsize hi]
    exact hs.empty hi (mt halloc.mpr ha)
  · rw [h.inum_eq, h.inum_eq]
    exact hs.held_unique ((h.held_iff _).mp hj) ((h.held_iff _).mp hj')
  · rw [hsb, h.inum_eq]
    exact hs.held_inum ((h.held_iff _).mp hj)
  · rw [h.type]
    exact hs.held_type ((h.held_iff _).mp hj)
  · have hj' := (h.held_iff _).mp hj
    rw [h.inum_eq, hdin _ (hs.held_inum hj').2]
    exact hlag hj'

end Same

/-!
## The writes of `bmap`

`bmap` writes a new address into the cache entry it maps through, or a new
entry into the file's indirect block.  Each turns one key of the owners table
from `0` to the new block and leaves every other key as it was.
-/

section Writes

variable {s : State} {i : Fin NINODE} {inum : Nat}

theorem current_setAddr {j : Fin (NDIRECT + 1)} {a : Nat} :
    current (s.setAddr i j a) inum =
      if cached s inum = some i then { current s inum with addrs := update (current s inum).addrs j a }
      else current s inum := by
  have hc : cached (s.setAddr i j a) inum = cached s inum := (SameInodes.setAddr s i j a).cached_eq
  cases h : cached s inum with
  | none =>
      rw [if_neg (by simp), current_of_not_cached (hc.trans h), current_of_not_cached h]
      rfl
  | some k =>
      rw [current_of_cached (hc.trans h), current_of_cached h]
      by_cases hk : k = i
      · subst hk
        rw [if_pos rfl, State.setAddr, State.setInode_icache_self]
      · rw [if_neg (by simpa using hk), State.setAddr, setInode_icache_of_ne hk]

theorem Owned.refs_held (hs : Owned s) (hi : (s.icache i).held) (r : Option (Fin MAXFILE)) :
    refs s ((s.icache i).inum, r) = refAt s.disk (s.icache i).toDinode r := by
  rw [refs_of_allocated (hs.held_allocated hi), hs.current_eq hi]

theorem Owned.refs_setAddr (hs : Owned s) (hi : (s.icache i).held) {j : Fin (NDIRECT + 1)} {a : Nat}
    (x : Nat × Option (Fin MAXFILE)) :
    refs (s.setAddr i j a) x =
      if x.1 = (s.icache i).inum then
        refAt s.disk { (s.icache i).toDinode with addrs := update (s.icache i).addrs j a } x.2
      else refs s x := by
  obtain ⟨inum, r⟩ := x
  have halloc : allocated (s.setAddr i j a) inum ↔ allocated s inum :=
    (SameInodes.setAddr s i j a).allocated_iff rfl fun _ _ => rfl
  dsimp only
  by_cases he : inum = (s.icache i).inum
  · subst he
    rw [if_pos rfl, refs_of_allocated (halloc.mpr (hs.held_allocated hi)), current_setAddr, if_pos (hs.cached_eq hi),
      hs.current_eq hi]
    rfl
  · -- another inode: `cached` does not find it in entry `i`
    have hc : cached s inum ≠ some i := fun h => he (inum_of_cached h).symm
    rw [if_neg he]
    by_cases ha : allocated s inum
    · rw [refs_of_allocated (halloc.mpr ha), refs_of_allocated ha, current_setAddr, if_neg hc]
      rfl
    · simp only [Fs.refs, if_neg ha, if_neg (mt halloc.mp ha)]

theorem Owned.refs_setAddr_of_refAt (hs : Owned s) (hi : (s.icache i).held) {j : Fin (NDIRECT + 1)} {a : Nat}
    {r₀ : Option (Fin MAXFILE)}
    (hnew : refAt s.disk { (s.icache i).toDinode with addrs := update (s.icache i).addrs j a } r₀ = a)
    (hold : ∀ r, r ≠ r₀ →
      refAt s.disk { (s.icache i).toDinode with addrs := update (s.icache i).addrs j a } r =
        refAt s.disk (s.icache i).toDinode r) :
    refs (s.setAddr i j a) = update (refs s) ((s.icache i).inum, r₀) a := by
  rw [eq_update_iff]
  constructor
  · rw [hs.refs_setAddr hi, if_pos rfl]
    exact hnew
  · rintro ⟨inum, r⟩ hx
    rw [hs.refs_setAddr hi]
    dsimp only
    split_ifs with he
    · subst he
      rw [hs.refs_held hi]
      exact hold r (fun hr => hx (by rw [hr]))
    · rfl

theorem Owned.refs_setDirect (hs : Owned s) (hi : (s.icache i).held) {bn a : Nat} (hbn : bn < NDIRECT) :
    refs (s.setAddr i ⟨bn, Nat.lt_succ_of_lt hbn⟩ a) =
      update (refs s) ((s.icache i).inum, some ⟨bn, Nat.lt_add_right NINDIRECT hbn⟩) a := by
  apply hs.refs_setAddr_of_refAt hi
  · show blockOf _ _ bn = a
    rw [blockOf_setDirect hbn, if_pos rfl]
  · intro r hr
    cases r with
    | none => exact update_of_ne (fun h => by simp only [Fin.ext_iff, Fin.val_last] at h; omega) _ _
    | some bn' =>
        have hne : (bn' : Nat) ≠ bn := fun h => hr (by rw [show bn' = ⟨bn, Nat.lt_add_right NINDIRECT hbn⟩ from Fin.ext h])
        show blockOf _ _ bn' = blockOf _ _ bn'
        rw [blockOf_setDirect hbn, if_neg hne]

theorem Owned.refs_setIndirect (hs : Owned s) (hi : (s.icache i).held) {a : Nat}
    (hia : (s.icache i).addrs (Fin.last NDIRECT) = 0) (hz : s.disk a = fun _ => 0) :
    refs (s.setAddr i (Fin.last NDIRECT) a) = update (refs s) ((s.icache i).inum, none) a := by
  apply hs.refs_setAddr_of_refAt hi
  · exact update_self (Fin.last NDIRECT) a (s.icache i).addrs
  · intro r hr
    cases r with
    | none => exact absurd rfl hr
    | some bn' =>
        show blockOf _ _ bn' = blockOf _ _ bn'
        rw [blockOf_setIndirect hia hz]

theorem dinodeOf_setDisk_of_data {x : Nat} {blk : Bytes} (hwf : s.sb.Wf) (hx : dataStart s.sb ≤ x)
    (hi : inum < s.sb.ninodes) : dinodeOf (s.setDisk x blk) inum = dinodeOf s inum := by
  have := hwf.iblock_lt hi
  have := bmapstart_lt_dataStart s.sb
  rw [Fs.dinodeOf, Fs.dinodeOf, setDisk_sb, setDisk_disk_of_ne (by omega)]

theorem current_setDisk_of_data {x : Nat} {blk : Bytes} (hwf : s.sb.Wf) (hx : dataStart s.sb ≤ x)
    (hi : inum < s.sb.ninodes) : current (s.setDisk x blk) inum = current s inum := by
  have hc : cached (s.setDisk x blk) inum = cached s inum := (SameInodes.setDisk s x blk).cached_eq
  cases h : cached s inum with
  | none => rw [current_of_not_cached (hc.trans h), current_of_not_cached h, dinodeOf_setDisk_of_data hwf hx hi]
  | some k => rw [current_of_cached (hc.trans h), current_of_cached h, setDisk_icache]

theorem Owned.refs_setEntry (hs : Owned s) (hi : (s.icache i).held) {bn a : Nat}
    (hia : (s.icache i).addrs (Fin.last NDIRECT) ≠ 0) (h₁ : NDIRECT ≤ bn) (h₂ : bn < MAXFILE) (ha : a < 2 ^ 32) :
    refs (s.setDisk ((s.icache i).addrs (Fin.last NDIRECT))
        (setLE (s.disk ((s.icache i).addrs (Fin.last NDIRECT))) (4 * (bn - NDIRECT)) a 4)) =
      update (refs s) ((s.icache i).inum, some ⟨bn, h₂⟩) a := by
  have hwf := hs.wf
  have hrefia : refs s ((s.icache i).inum, none) = (s.icache i).addrs (Fin.last NDIRECT) := hs.refs_held hi none
  have hdata : dataStart s.sb ≤ (s.icache i).addrs (Fin.last NDIRECT) := by
    have hin := (hs.owners.inside ((s.icache i).inum, none) (by rw [hrefia]; exact hia)).1
    rwa [hrefia] at hin
  have halloc : ∀ {inum}, allocated (s.setDisk ((s.icache i).addrs (Fin.last NDIRECT))
      (setLE (s.disk ((s.icache i).addrs (Fin.last NDIRECT))) (4 * (bn - NDIRECT)) a 4)) inum ↔ allocated s inum :=
    (SameInodes.setDisk _ _ _).allocated_iff rfl fun _ h => dinodeOf_setDisk_of_data hwf hdata h
  have hheld := hs.held_allocated hi
  rw [eq_update_iff]
  constructor
  · rw [refs_of_allocated (halloc.mpr hheld), current_setDisk_of_data hwf hdata hheld.2.1, hs.current_eq hi]
    show blockOf (update s.disk _ _) _ bn = a
    rw [blockOf_setEntry hia h₁ h₂ ha, if_pos rfl]
  · rintro ⟨inum, r⟩ hx
    by_cases ha' : allocated s inum
    · rw [refs_of_allocated (halloc.mpr ha'), refs_of_allocated ha', current_setDisk_of_data hwf hdata ha'.2.1]
      by_cases he : inum = (s.icache i).inum
      · subst he
        rw [hs.current_eq hi]
        cases r with
        | none => rfl
        | some bn' =>
            have hne : (bn' : Nat) ≠ bn := fun h => hx (by rw [show bn' = ⟨bn, h₂⟩ from Fin.ext h])
            show blockOf (update s.disk _ _) _ bn' = blockOf s.disk _ bn'
            rw [blockOf_setEntry hia h₁ h₂ ha, if_neg hne]
      · -- the indirect block of another inode is another block
        apply refAt_congr
        intro hne
        apply setDisk_disk_of_ne
        intro heq
        have hown : refs s (inum, none) ≠ 0 := by rw [refs_of_allocated ha']; exact hne
        have hsame : refs s (inum, none) = refs s ((s.icache i).inum, none) := by
          rw [refs_of_allocated ha', hrefia]
          exact heq
        exact he (congrArg Prod.fst (hs.owners.eq_of_eq hown hsame))
    · simp only [Fs.refs, if_neg ha', if_neg (mt halloc.mp ha')]

end Writes

/-!
## One hole filled

Each fill of `bmap` is a `balloc` followed by one of the writes above: the
hole's key gets a block that was free, that no key held and that `balloc`
zeroed, so `Owners.Sound.attach` keeps the table sound.
-/

section Fill

variable {s s₁ : State} {i : Fin NINODE} {b : Nat}

theorem Dinode.Lags.setAddr {d c : Dinode} (h : d.Lags c) {j : Fin (NDIRECT + 1)} {a : Nat} (hj : c.addrs j = 0) :
    d.Lags { c with addrs := update c.addrs j a } := by
  refine ⟨h.attrs, fun j' => ?_⟩
  show d.addrs j' = 0 ∨ d.addrs j' = update c.addrs j a j'
  by_cases he : j' = j
  · subst he
    rcases h.addrs j' with h0 | h0
    · exact .inl h0
    · exact .inl (h0.trans hj)
  · rw [update_of_ne he]
    exact h.addrs j'

theorem Owned.setAddr (hs : Owned s) {j : Fin (NDIRECT + 1)} {a : Nat} (hj : (s.icache i).addrs j = 0)
    (howners : Owners.Sound (Set.Ico (dataStart s.sb) s.sb.size) {c | used (s.setAddr i j a) c}
      (refs (s.setAddr i j a))) :
    Owned (s.setAddr i j a) := by
  refine hs.of_sameInodes (SameInodes.setAddr s i j a) rfl (fun _ _ => rfl) (fun _ _ => Iff.rfl) howners
    fun {k} hk => ?_
  by_cases hki : k = i
  · subst hki
    rw [State.setAddr, setInode_icache_self]
    exact (hs.held_disk hk).setAddr hj
  · rw [State.setAddr, setInode_icache_of_ne hki]
    exact hs.held_disk hk

theorem Owned.setDisk_of_data (hs : Owned s) {x : Nat} {blk : Bytes} (hx : dataStart s.sb ≤ x)
    (howners : Owners.Sound (Set.Ico (dataStart s.sb) s.sb.size) {c | used (s.setDisk x blk) c}
      (refs (s.setDisk x blk))) :
    Owned (s.setDisk x blk) :=
  hs.of_sameInodes (SameInodes.setDisk s x blk) rfl (fun _ h => dinodeOf_setDisk_of_data hs.wf hx h)
    (fun _ hc => used_setDisk_of_data hc hx) howners fun hk => hs.held_disk hk

theorem freeBlocks_setDisk_of_data {x : Nat} {blk : Bytes} (hx : dataStart s.sb ≤ x) :
    freeBlocks (s.setDisk x blk) = freeBlocks s := by
  ext c
  simp only [freeBlocks, Finset.mem_filter, Finset.mem_range, setDisk_sb]
  constructor
  · rintro ⟨hc, hu⟩
    exact ⟨hc, fun h => hu ((used_setDisk_of_data hc hx).mpr h)⟩
  · rintro ⟨hc, hu⟩
    exact ⟨hc, fun h => hu ((used_setDisk_of_data hc hx).mp h)⟩

/-- What `balloc` hands out under the invariant. -/
structure Alloc (s s₁ : State) (b : Nat) : Prop where
  owned : Owned s₁
  frame : Frame s s₁
  free : b ∈ freeBlocks s
  data : dataStart s.sb ≤ b
  fresh : Owners.Fresh (refs s) b
  used : used s₁ b
  zero : s₁.disk b = fun _ => 0
  freeBlocks : freeBlocks s₁ = (freeBlocks s).erase b

theorem Owned.alloc (hs : Owned s) (h : Fs.balloc s = some (s₁, b)) : Alloc s s₁ b := by
  obtain ⟨hff, -⟩ := balloc_eq_some h
  obtain ⟨hfree, hdata, hfresh⟩ := hs.fresh_of_firstFree hff
  obtain ⟨howned, hframe, hused, hzero⟩ := hs.balloc h
  exact ⟨howned, hframe, hfree, hdata, hfresh, hused, hzero, hs.freeBlocks_balloc h⟩

theorem Alloc.lt_size (ha : Alloc s s₁ b) : b < s.sb.size := by
  have := ha.free
  simp only [Fs.freeBlocks, Finset.mem_filter, Finset.mem_range] at this
  exact this.1

theorem Alloc.ne_zero (ha : Alloc s s₁ b) : b ≠ 0 := by
  have := bmapstart_lt_dataStart s.sb
  have := ha.data
  omega

theorem Alloc.attach (ha : Alloc s s₁ b) (hs : Owned s) {x : Nat × Option (Fin MAXFILE)} (hx : refs s x = 0) :
    Owners.Sound (Set.Ico (dataStart s₁.sb) s₁.sb.size) {c | Fs.used s₁ c} (update (refs s) x b) := by
  have hrefs := ha.frame.refs_eq hs.wf
  have hsb := ha.frame.sb
  have howners := ha.owned.owners
  rw [hrefs] at howners
  rw [hsb] at howners ⊢
  exact howners.attach hx ha.ne_zero ⟨ha.data, ha.lt_size⟩ ha.used ha.fresh

/-- `s'` is `s` with the hole `x` of the owners table given the block `b`,
which was free and is zero. -/
structure Filled (s : State) (x : Nat × Option (Fin MAXFILE)) (s' : State) (b : Nat) : Prop where
  owned : Owned s'
  same : SameInodes s s'
  hole : refs s x = 0
  refs : refs s' = update (refs s) x b
  free : b ∈ freeBlocks s
  freeBlocks : freeBlocks s' = (freeBlocks s).erase b
  zero : s'.disk b = fun _ => 0

theorem Owned.fill_setAddr (hs : Owned s) (hb : Fs.balloc s = some (s₁, b)) {j : Fin (NDIRECT + 1)}
    {x : Nat × Option (Fin MAXFILE)} (hj : (s.icache i).addrs j = 0) (hhole : refs s x = 0)
    (hrefs : refs (s₁.setAddr i j b) = update (refs s) x b) :
    Filled s x (s₁.setAddr i j b) b := by
  have ha := hs.alloc hb
  have hi₁ : s₁.icache i = s.icache i := by rw [ha.frame.icache]
  refine ⟨ha.owned.setAddr (hi₁ ▸ hj) ?_, (balloc_sameInodes hb).trans (SameInodes.setAddr _ _ _ _), hhole, hrefs,
    ha.free, ha.freeBlocks, ha.zero⟩
  rw [hrefs]
  exact ha.attach hs hhole

theorem Owned.fill_direct (hs : Owned s) (hi : (s.icache i).held) {bn : Nat} (hbn : bn < NDIRECT)
    (hj : (s.icache i).addrs ⟨bn, Nat.lt_succ_of_lt hbn⟩ = 0) (hb : Fs.balloc s = some (s₁, b)) :
    Filled s ((s.icache i).inum, some ⟨bn, Nat.lt_add_right NINDIRECT hbn⟩) (s₁.setAddr i ⟨bn, Nat.lt_succ_of_lt hbn⟩ b) b := by
  have ha := hs.alloc hb
  have hi₁ : s₁.icache i = s.icache i := by rw [ha.frame.icache]
  have hhole : refs s ((s.icache i).inum, some ⟨bn, Nat.lt_add_right NINDIRECT hbn⟩) = 0 := by
    rw [hs.refs_held hi]
    show blockOf _ _ bn = 0
    rw [blockOf_of_lt hbn]
    exact hj
  have hrefs : refs (s₁.setAddr i ⟨bn, Nat.lt_succ_of_lt hbn⟩ b) =
      update (refs s₁) ((s₁.icache i).inum, some ⟨bn, Nat.lt_add_right NINDIRECT hbn⟩) b :=
    ha.owned.refs_setDirect (hi₁ ▸ hi) hbn
  rw [hi₁, ha.frame.refs_eq hs.wf] at hrefs
  exact hs.fill_setAddr hb hj hhole hrefs

theorem Owned.fill_indirect (hs : Owned s) (hi : (s.icache i).held) (hia : (s.icache i).addrs (Fin.last NDIRECT) = 0)
    (hb : Fs.balloc s = some (s₁, b)) :
    Filled s ((s.icache i).inum, none) (s₁.setAddr i (Fin.last NDIRECT) b) b := by
  have ha := hs.alloc hb
  have hi₁ : s₁.icache i = s.icache i := by rw [ha.frame.icache]
  have hhole : refs s ((s.icache i).inum, none) = 0 := by
    rw [hs.refs_held hi]
    exact hia
  have hrefs := ha.owned.refs_setIndirect (hi₁ ▸ hi) (hi₁ ▸ hia) ha.zero
  rw [hi₁, ha.frame.refs_eq hs.wf] at hrefs
  exact hs.fill_setAddr hb hia hhole hrefs

theorem Owned.fill_entry (hs : Owned s) (hi : (s.icache i).held) {bn : Nat}
    (hia : (s.icache i).addrs (Fin.last NDIRECT) ≠ 0) (h₁ : NDIRECT ≤ bn) (h₂ : bn < MAXFILE)
    (hhole : blockOf s.disk (s.icache i).toDinode bn = 0) (hb : Fs.balloc s = some (s₁, b)) :
    Filled s ((s.icache i).inum, some ⟨bn, h₂⟩)
      (s₁.setDisk ((s.icache i).addrs (Fin.last NDIRECT))
        (setLE (s₁.disk ((s.icache i).addrs (Fin.last NDIRECT))) (4 * (bn - NDIRECT)) b 4)) b := by
  have ha := hs.alloc hb
  have hi₁ : s₁.icache i = s.icache i := by rw [ha.frame.icache]
  have hrefia : refs s ((s.icache i).inum, none) = (s.icache i).addrs (Fin.last NDIRECT) := hs.refs_held hi none
  have hdata : dataStart s₁.sb ≤ (s.icache i).addrs (Fin.last NDIRECT) := by
    have hin := (hs.owners.inside ((s.icache i).inum, none) (by rw [hrefia]; exact hia)).1
    rw [hrefia] at hin
    rw [ha.frame.sb]
    exact hin
  have hkey : refs s ((s.icache i).inum, some ⟨bn, h₂⟩) = 0 := by
    rw [hs.refs_held hi]
    exact hhole
  have hb32 : b < 2 ^ 32 := lt_trans ha.lt_size hs.wf.size
  have hrefs := ha.owned.refs_setEntry (hi₁ ▸ hi) (hi₁ ▸ hia) h₁ h₂ hb32
  rw [hi₁, ha.frame.refs_eq hs.wf] at hrefs
  -- `b` is no key's block, so not the indirect block the entry is written to
  have hbia : b ≠ (s.icache i).addrs (Fin.last NDIRECT) := fun h => ha.fresh _ (hrefia.trans h.symm)
  refine ⟨ha.owned.setDisk_of_data hdata ?_, (balloc_sameInodes hb).trans (SameInodes.setDisk _ _ _), hkey, hrefs,
    ha.free, (freeBlocks_setDisk_of_data hdata).trans ha.freeBlocks, ?_⟩
  · rw [hrefs]
    exact (ha.attach hs hkey).mark fun c hc hu => (used_setDisk_of_data hc.2 hdata).mpr hu
  · rw [setDisk_disk_of_ne hbia]
    exact ha.zero

end Fill

/-!
## `bmap`
-/

section Bmap

variable {s s' : State} {i : Fin NINODE} {bn a : Nat}

theorem disk_of_balloc {b : Nat} (h : balloc s = some (s', b)) : s'.disk b = fun _ => 0 := by
  obtain ⟨-, rfl⟩ := balloc_eq_some h
  exact setDisk_disk_self

theorem bmap_of_blockOf_ne_zero (hbn : bn < MAXFILE) (h : blockOf s.disk (s.icache i).toDinode bn ≠ 0) :
    bmap s i bn = some (s, blockOf s.disk (s.icache i).toDinode bn) := by
  by_cases hd : bn < NDIRECT
  · rw [blockOf_of_lt hd] at h ⊢
    exact bmap_of_mapped hd h
  · have hn : bn - NDIRECT < NINDIRECT := by unfold MAXFILE at hbn; omega
    rw [blockOf_of_indirect (Nat.le_of_not_lt hd) hbn] at h ⊢
    have hia : (s.icache i).addrs (Fin.last NDIRECT) ≠ 0 := fun h0 => h (if_pos h0)
    rw [if_neg hia] at h ⊢
    simp only [bmap, dif_neg hd, if_pos hn, if_neg hia, Option.bind_some, if_neg h]

theorem bmap_of_present (h₁ : NDIRECT ≤ bn) (h₂ : bn < MAXFILE)
    (hia : (s.icache i).addrs (Fin.last NDIRECT) ≠ 0) (h0 : blockOf s.disk (s.icache i).toDinode bn = 0) :
    bmap s i bn = (balloc s).map fun (t, c) =>
      (t.setDisk ((s.icache i).addrs (Fin.last NDIRECT))
        (setLE (t.disk ((s.icache i).addrs (Fin.last NDIRECT))) (4 * (bn - NDIRECT)) c 4), c) := by
  have hn : bn - NDIRECT < NINDIRECT := by unfold MAXFILE at h₂; omega
  rw [blockOf_of_indirect h₁ h₂, if_neg hia] at h0
  simp only [bmap, dif_neg (Nat.not_lt.mpr h₁), if_pos hn, if_neg hia, Option.bind_some, if_pos h0]

theorem bmap_of_absent (h₁ : NDIRECT ≤ bn) (h₂ : bn < MAXFILE) (hia : (s.icache i).addrs (Fin.last NDIRECT) = 0) :
    bmap s i bn = (balloc s).bind fun (t, ia) =>
      (balloc (t.setAddr i (Fin.last NDIRECT) ia)).map fun (t', c) =>
        (t'.setDisk ia (setLE (t'.disk ia) (4 * (bn - NDIRECT)) c 4), c) := by
  have hn : bn - NDIRECT < NINDIRECT := by unfold MAXFILE at h₂; omega
  simp only [bmap, dif_neg (Nat.not_lt.mpr h₁), if_pos hn, if_pos hia]
  cases hb : balloc s with
  | none => rfl
  | some p =>
      obtain ⟨t, ia⟩ := p
      simp only [Option.map_some, Option.bind_some, setAddr_disk, disk_of_balloc hb, getLE_zero, if_true]

theorem Owned.ne_zero_of_free (hs : Owned s) {c : Nat} (h : c ∈ freeBlocks s) : c ≠ 0 := by
  rintro rfl
  simp only [freeBlocks, Finset.mem_filter, Finset.mem_range] at h
  exact h.2 (hs.reserved 0 (Nat.lt_of_le_of_lt (Nat.zero_le _) (bmapstart_lt_dataStart s.sb)))

/-- What `bmap s i bn` returning `(s', a)` did, under the invariant: `a` is
now block `bn` of the file; the owners table changed only at holes of this
file, at `bn` and at its indirect block; and each block it took from the free
ones is `a`, zeroed, or the new indirect block, zero but for its entry `a`. -/
structure Mapped (s : State) (i : Fin NINODE) (bn : Nat) (s' : State) (a : Nat) : Prop where
  owned : Owned s'
  same : SameInodes s s'
  ne_zero : a ≠ 0
  block : blockOf s'.disk (s'.icache i).toDinode bn = a
  refs : ∀ x, refs s' x ≠ refs s x →
    refs s x = 0 ∧ x.1 = (s.icache i).inum ∧ (x.2 = none ∨ x.2.map Fin.val = some bn)
  free : freeBlocks s' ⊆ freeBlocks s
  new : ∀ c ∈ freeBlocks s, c ∉ freeBlocks s' →
    (c = a ∧ s'.disk c = fun _ => 0) ∨
      (c = (s'.icache i).addrs (Fin.last NDIRECT) ∧ s'.disk c = setLE (fun _ => 0) (4 * (bn - NDIRECT)) a 4)

theorem Mapped.of_mapped (hs : Owned s) (h0 : blockOf s.disk (s.icache i).toDinode bn ≠ 0) :
    Mapped s i bn s (blockOf s.disk (s.icache i).toDinode bn) :=
  ⟨hs, SameInodes.refl s, h0, rfl, fun _ h => absurd rfl h, subset_rfl, fun _ hc hc' => absurd hc hc'⟩

theorem Filled.refAt {x : Nat × Option (Fin MAXFILE)} (hf : Filled s x s' a) (hi : (s.icache i).held)
    (r : Option (Fin MAXFILE)) :
    Fs.refAt s'.disk (s'.icache i).toDinode r = update (Fs.refs s) x a ((s.icache i).inum, r) := by
  have hi' := (hf.same.held_iff i).mpr hi
  rw [← hf.owned.refs_held hi' r, hf.same.inum_eq, hf.refs]

theorem Filled.blockOf {h₂ : bn < MAXFILE} (hf : Filled s ((s.icache i).inum, some ⟨bn, h₂⟩) s' a)
    (hi : (s.icache i).held) : blockOf s'.disk (s'.icache i).toDinode bn = a := by
  have hkey := hf.refAt hi (some ⟨bn, h₂⟩)
  rw [update_self] at hkey
  exact hkey

theorem Filled.mapped {h₂ : bn < MAXFILE} (hf : Filled s ((s.icache i).inum, some ⟨bn, h₂⟩) s' a)
    (hs : Owned s) (hi : (s.icache i).held) : Mapped s i bn s' a := by
  refine ⟨hf.owned, hf.same, hs.ne_zero_of_free hf.free, hf.blockOf hi, fun x hx => ?_, ?_, fun c hc hc' => ?_⟩
  · by_cases hxk : x = ((s.icache i).inum, some ⟨bn, h₂⟩)
    · subst hxk
      exact ⟨hf.hole, rfl, .inr rfl⟩
    · rw [hf.refs, update_of_ne hxk] at hx
      exact absurd rfl hx
  · rw [hf.freeBlocks]
    exact Finset.erase_subset _ _
  · rw [hf.freeBlocks, Finset.mem_erase, not_and] at hc'
    have hca : c = a := by
      by_contra hne
      exact hc' hne hc
    exact .inl ⟨hca, hca ▸ hf.zero⟩

theorem Filled.mapped_indirect {h₂ : bn < MAXFILE} {s₂ : State} {ia : Nat}
    (hf₁ : Filled s ((s.icache i).inum, none) s₂ ia) (hf₂ : Filled s₂ ((s.icache i).inum, some ⟨bn, h₂⟩) s' a)
    (hdisk : s'.disk ia = setLE (fun _ => 0) (4 * (bn - NDIRECT)) a 4) (hi : (s.icache i).held) :
    Mapped s i bn s' a := by
  have hi₂ : (s₂.icache i).held := (hf₁.same.held_iff i).mpr hi
  have hinum₂ : (s₂.icache i).inum = (s.icache i).inum := hf₁.same.inum_eq i
  have hkne : ((s.icache i).inum, some ⟨bn, h₂⟩) ≠ ((s.icache i).inum, (none : Option (Fin MAXFILE))) := by simp
  refine ⟨hf₂.owned, hf₁.same.trans hf₂.same, hf₁.owned.ne_zero_of_free hf₂.free, ?_, fun x hx => ?_, ?_,
    fun c hc hc' => ?_⟩
  · rw [← hinum₂] at hf₂
    exact hf₂.blockOf hi₂
  · rw [hf₂.refs, hf₁.refs] at hx
    by_cases hx₂ : x = ((s.icache i).inum, some ⟨bn, h₂⟩)
    · subst hx₂
      have hhole := hf₂.hole
      rw [hf₁.refs, update_of_ne hkne] at hhole
      exact ⟨hhole, rfl, .inr rfl⟩
    · by_cases hx₁ : x = ((s.icache i).inum, none)
      · subst hx₁
        exact ⟨hf₁.hole, rfl, .inl rfl⟩
      · rw [update_of_ne hx₂, update_of_ne hx₁] at hx
        exact absurd rfl hx
  · rw [hf₂.freeBlocks, hf₁.freeBlocks]
    exact (Finset.erase_subset _ _).trans (Finset.erase_subset _ _)
  · rw [hf₂.freeBlocks, hf₁.freeBlocks, Finset.mem_erase, Finset.mem_erase, not_and, not_and] at hc'
    by_cases hca : c = a
    · exact .inl ⟨hca, hca ▸ hf₂.zero⟩
    · have hcia : c = ia := by
        by_contra hne
        exact hc' hca hne hc
      -- the file's indirect address is the block the first fill gave
      have hlast := hf₂.refAt hi₂ none
      rw [hinum₂, update_of_ne hkne.symm, hf₁.refs, update_self] at hlast
      exact .inr ⟨hcia.trans hlast.symm, hcia ▸ hdisk⟩

theorem Owned.bmap_mapped (hs : Owned s) (hi : (s.icache i).held) (hbn : bn < MAXFILE)
    (h : bmap s i bn = some (s', a)) : Mapped s i bn s' a := by
  by_cases h0 : blockOf s.disk (s.icache i).toDinode bn = 0
  · by_cases hd : bn < NDIRECT
    · have hj : (s.icache i).addrs ⟨bn, Nat.lt_succ_of_lt hd⟩ = 0 := by rwa [blockOf_of_lt hd] at h0
      rw [bmap_of_hole hd hj] at h
      obtain ⟨⟨s₁, b⟩, hb, he⟩ := Option.map_eq_some_iff.mp h
      obtain ⟨rfl, rfl⟩ := Prod.mk.inj he
      exact (hs.fill_direct hi hd hj hb).mapped hs hi
    · have h₁ := Nat.le_of_not_lt hd
      by_cases hia : (s.icache i).addrs (Fin.last NDIRECT) = 0
      · rw [bmap_of_absent h₁ hbn hia] at h
        obtain ⟨⟨s₁, ia⟩, hb₁, h⟩ := Option.bind_eq_some_iff.mp h
        obtain ⟨⟨s₃, b⟩, hb₂, he⟩ := Option.map_eq_some_iff.mp h
        obtain ⟨rfl, rfl⟩ := Prod.mk.inj he
        have hf₁ := hs.fill_indirect hi hia hb₁
        have hi₂ := (hf₁.same.held_iff i).mpr hi
        have hinum₂ := hf₁.same.inum_eq i
        -- the new indirect block is the file's, and its entry at `bn` is a hole
        have hia₂ : ((s₁.setAddr i (Fin.last NDIRECT) ia).icache i).addrs (Fin.last NDIRECT) = ia := by
          have hlast := hf₁.refAt hi none
          rw [update_self] at hlast
          exact hlast
        have hhole₂ : blockOf (s₁.setAddr i (Fin.last NDIRECT) ia).disk
            ((s₁.setAddr i (Fin.last NDIRECT) ia).icache i).toDinode bn = 0 := by
          have hkey := hf₁.refAt hi (some ⟨bn, hbn⟩)
          rw [update_of_ne (by simp), hs.refs_held hi] at hkey
          exact hkey.trans h0
        have hf₂ := hf₁.owned.fill_entry hi₂ (by rw [hia₂]; exact (hs.alloc hb₁).ne_zero) h₁ hbn hhole₂ hb₂
        rw [hia₂, hinum₂] at hf₂
        -- the second `balloc` writes neither over the indirect block
        have hkeep : s₃.disk ia = (s₁.setAddr i (Fin.last NDIRECT) ia).disk ia := by
          by_contra hne
          have hnot := ((hf₁.owned.alloc hb₂).frame.disk ia hne).2 (s.icache i).inum
          rw [hf₁.refs, update_self] at hnot
          exact hnot rfl
        refine hf₁.mapped_indirect hf₂ ?_ hi
        rw [setDisk_disk_self, hkeep, hf₁.zero]
      · rw [bmap_of_present h₁ hbn hia h0] at h
        obtain ⟨⟨s₁, b⟩, hb, he⟩ := Option.map_eq_some_iff.mp h
        obtain ⟨rfl, rfl⟩ := Prod.mk.inj he
        exact (hs.fill_entry hi hia h₁ hbn h0 hb).mapped hs hi
  · rw [bmap_of_blockOf_ne_zero hbn h0] at h
    obtain ⟨rfl, rfl⟩ := Prod.mk.inj (Option.some.inj h)
    exact Mapped.of_mapped hs h0

theorem Owned.refAt_inj (hs : Owned s) (hi : (s.icache i).held) {r r' : Option (Fin MAXFILE)}
    (h0 : refAt s.disk (s.icache i).toDinode r ≠ 0)
    (he : refAt s.disk (s.icache i).toDinode r = refAt s.disk (s.icache i).toDinode r') : r = r' := by
  have hown : refs s ((s.icache i).inum, r) ≠ 0 := by
    rw [hs.refs_held hi]
    exact h0
  have hsame : refs s ((s.icache i).inum, r) = refs s ((s.icache i).inum, r') := by
    rw [hs.refs_held hi, hs.refs_held hi]
    exact he
  exact congrArg Prod.snd (hs.owners.eq_of_eq hown hsame)

theorem Owned.blockOf_inj (hs : Owned s) (hi : (s.icache i).held) {bn' : Nat} (hbn : bn < MAXFILE)
    (hbn' : bn' < MAXFILE) (h0 : blockOf s.disk (s.icache i).toDinode bn ≠ 0)
    (he : blockOf s.disk (s.icache i).toDinode bn = blockOf s.disk (s.icache i).toDinode bn') : bn = bn' := by
  have hkey : some (⟨bn, hbn⟩ : Fin MAXFILE) = some ⟨bn', hbn'⟩ := hs.refAt_inj hi h0 he
  exact congrArg Fin.val (Option.some.inj hkey)

theorem Owned.blockOf_ne_indirect (hs : Owned s) (hi : (s.icache i).held) (hbn : bn < MAXFILE)
    (h0 : blockOf s.disk (s.icache i).toDinode bn ≠ 0) :
    blockOf s.disk (s.icache i).toDinode bn ≠ (s.icache i).addrs (Fin.last NDIRECT) := by
  intro he
  have hkey : some (⟨bn, hbn⟩ : Fin MAXFILE) = none := hs.refAt_inj hi h0 he
  exact Option.some_ne_none _ hkey

theorem Mapped.ne_indirect (hm : Mapped s i bn s' a) (hi : (s.icache i).held) :
    a ≠ (s'.icache i).addrs (Fin.last NDIRECT) := by
  have hi' := (hm.same.held_iff i).mpr hi
  have h0 : blockOf s'.disk (s'.icache i).toDinode bn ≠ 0 := hm.block ▸ hm.ne_zero
  rw [← hm.block]
  exact hm.owned.blockOf_ne_indirect hi' (lt_of_blockOf_ne_zero h0) h0

end Bmap

/-!
## The calls of `readi` and `writei`

A turn of either loop calls `bmap` for the block of `off`, and moves `off`
and `tot` on by one chunk, so `off` stays the start plus `tot`, and `tot`
stays below `n` in every turn.  `writei` checks that the transfer ends by
`MAXFILE * BSIZE`; `readi` trims it to the size, which only the invariant
bounds.
-/

section Loops

variable {i : Fin NINODE}

variable {src : Bytes} {n : Nat}

end Loops

/-!
## A file system of one empty file

A state the invariant holds in: inode `1`, an empty file, held in slot `0`
of the cache, on a disk whose bitmap marks the blocks before the data blocks.
-/

section OneFile

/-- An empty file. -/
def emptyFile : Dinode :=
  { Dinode.zero with type := T_FILE, nlink := 1 }

/-- A disk of `64` blocks with `emptyFile` as inode `1` in its inode block `3`
and the blocks `0` to `5` marked in its bitmap block `5`, and the cache
holding inode `1` in slot `0`. -/
def oneFile : State where
  sb := ⟨64, 58, 8, 1, 2, 3, 5⟩
  disk := fun b =>
    if b = 3 then Dinode.put (fun _ => 0) (dinodeOffset 1) emptyFile
    else if b = 5 then fun k => if k = 0 then 0x3F else 0
    else fun _ => 0
  icache := fun j =>
    if j = 0 then { emptyFile with dev := ROOTDEV, inum := 1, ref := 1, valid := true } else Inode.zero

theorem refAt_of_addrs_zero {disk : Disk} {d : Dinode} (h : ∀ j, d.addrs j = 0) (r : Option (Fin MAXFILE)) :
    refAt disk d r = 0 := by
  cases r with
  | none => exact h _
  | some bn =>
      show blockOf disk d bn = 0
      unfold blockOf
      split
      · exact h _
      · rw [if_neg (fun hc => hc.2 (h _))]

theorem dinodeOf_oneFile : ∀ inum < 8, (dinodeOf oneFile inum).size = 0 ∧ ∀ j, (dinodeOf oneFile inum).addrs j = 0 := by
  decide

theorem icache_oneFile (j : Fin NINODE) : (oneFile.icache j).size = 0 ∧ ∀ k, (oneFile.icache j).addrs k = 0 := by
  simp only [oneFile]
  split <;> exact ⟨rfl, fun _ => rfl⟩

theorem current_oneFile {inum : Nat} (hi : inum < 8) :
    (current oneFile inum).size = 0 ∧ ∀ j, (current oneFile inum).addrs j = 0 := by
  cases hc : cached oneFile inum with
  | none =>
      rw [current_of_not_cached hc]
      exact dinodeOf_oneFile inum hi
  | some k =>
      rw [current_of_cached hc]
      exact icache_oneFile k

theorem held_oneFile (j : Fin NINODE) : (oneFile.icache j).held ↔ j = 0 := by
  revert j
  decide

theorem owned_oneFile : Owned oneFile := by
  -- no file has a block, so the owners table is empty
  have hrefs : ∀ x, refs oneFile x = 0 := fun x => by
    unfold refs
    split
    · rename_i ha
      exact refAt_of_addrs_zero (current_oneFile ha.2.1).2 _
    · rfl
  refine ⟨⟨by decide, by decide, by decide⟩, by decide,
    ⟨fun x hx => absurd (hrefs x) hx, fun x hx => absurd (hrefs x) hx, fun x hx => absurd (hrefs x) hx⟩,
    fun ha => ?_, fun hi _ => (current_oneFile hi).1, fun hj hj' _ => ?_, fun hj => ?_, fun hj => ?_, fun hj => ?_⟩
  · rw [(current_oneFile ha.2.1).1]
    exact Nat.zero_le _
  · rw [(held_oneFile _).mp hj, (held_oneFile _).mp hj']
  · rw [(held_oneFile _).mp hj]
    decide
  · rw [(held_oneFile _).mp hj]
    decide
  · rw [(held_oneFile _).mp hj]
    -- the inode block holds the cache's copy
    have hd : dinodeOf oneFile (oneFile.icache 0).inum = emptyFile := by
      show Dinode.get (Dinode.put (fun _ => 0) (dinodeOffset 1) emptyFile) (dinodeOffset 1) = emptyFile
      exact Dinode.get_put_self _ _ ⟨by decide, by decide, by decide, by decide, by decide,
        fun _ => (by decide : (0 : Nat) < 2 ^ 32)⟩
    rw [hd]
    exact ⟨rfl, fun _ => .inr rfl⟩

end OneFile

/-!
## `bmap` and its callers
-/

end Fs

end Xv6
