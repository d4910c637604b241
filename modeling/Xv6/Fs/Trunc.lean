import Xv6.Fs.ReadWrite
import Xv6.Library.Run

/-!
# Truncating and freeing inodes

`itrunc` frees every block of a file: its direct blocks, the blocks its
indirect block lists, and then the indirect block; it then writes the emptied
inode back.  `iput` of the last reference to an inode with no links does so
and frees the inode.

In between, the invariant `Owned` does not hold.  The cache's addresses are
cleared before the `struct dinode` is written, and the indirect block still
lists blocks already freed.  So the loops are followed on the bitmap
(`Freed`) and on the cache entry, and `Owned` is proved of the state `itrunc`
ends in.  Under the invariant `itrunc` never panics: the blocks a file refers
to are marked, and no two of its keys hold one block, so none is freed twice.
-/

namespace Xv6

namespace Fs

open Bytes State Function

variable {s t t' : State} {i : Fin NINODE} {inum a b : Nat}

/-- The blocks inode `inum` refers to. -/
def blocksOf (s : State) (inum : Nat) : Finset Nat :=
  (Finset.univ.image fun r => refs s (inum, r)).erase 0

theorem mem_blocksOf : b ∈ blocksOf s inum ↔ b ≠ 0 ∧ ∃ r, refs s (inum, r) = b := by
  simp [blocksOf]

/-!
## Freeing blocks
-/

section Freed

/-- The blocks a list of indices names through `f`, holes apart. -/
def freedBy {α : Type} (f : α → Nat) (l : List α) : Set Nat :=
  {b | b ≠ 0 ∧ ∃ j ∈ l, f j = b}

variable {α : Type} {f : α → Nat} {l : List α} {j : α}

theorem freedBy_nil : freedBy f [] = ∅ := by
  simp [freedBy]

theorem freedBy_append_of_zero (h : f j = 0) : freedBy f (l ++ [j]) = freedBy f l := by
  ext b
  simp only [freedBy, Set.mem_ofPred_eq, List.mem_append, List.mem_singleton]
  constructor
  · rintro ⟨hb, j', hj' | rfl, he⟩
    · exact ⟨hb, j', hj', he⟩
    · exact absurd (he ▸ h) hb
  · rintro ⟨hb, j', hj', he⟩
    exact ⟨hb, j', .inl hj', he⟩

theorem freedBy_append (h : f j ≠ 0) : freedBy f (l ++ [j]) = insert (f j) (freedBy f l) := by
  ext b
  simp only [freedBy, Set.mem_insert_iff, Set.mem_ofPred_eq, List.mem_append, List.mem_singleton]
  constructor
  · rintro ⟨hb, j', hj' | rfl, he⟩
    · exact .inr ⟨hb, j', hj', he⟩
    · exact .inl he.symm
  · rintro (rfl | ⟨hb, j', hj', he⟩)
    · exact ⟨h, j, .inr rfl, rfl⟩
    · exact ⟨hb, j', .inl hj', he⟩

/-- What freeing the blocks `F` did: the superblock stays, the disk changes in
bitmap blocks only, and a block is marked when it was and is not in `F`. -/
structure Freed (s s' : State) (F : Set Nat) : Prop where
  sb : s'.sb = s.sb
  disk : ∀ c, s'.disk c ≠ s.disk c → s.sb.bmapstart ≤ c ∧ c < dataStart s.sb
  used : ∀ b, used s' b ↔ used s b ∧ b ∉ F

theorem Freed.refl (s : State) : Freed s s ∅ :=
  ⟨rfl, fun _ hc => absurd rfl hc, fun _ => by simp⟩

theorem Freed.trans {s'' : State} {F G : Set Nat} (h₁ : Freed s s' F) (h₂ : Freed s' s'' G) :
    Freed s s'' (F ∪ G) where
  sb := h₂.sb.trans h₁.sb
  disk c hc := by
    by_cases hc' : s'.disk c = s.disk c
    · rw [← hc'] at hc
      have := h₂.disk c hc
      rwa [h₁.sb] at this
    · exact h₁.disk c hc'
  used b := by
    rw [h₂.used, h₁.used, Set.mem_union]
    tauto

theorem Freed.setAddr {F : Set Nat} (h : Freed s t F) {j : Fin (NDIRECT + 1)} : Freed s (t.setAddr i j a) F :=
  ⟨h.sb, h.disk, h.used⟩

theorem bfree_of_used (h : used s b) :
    bfree s b = some (s.setDisk (BBLOCK b s.sb) (clearBit (s.disk (BBLOCK b s.sb)) (b % BPB))) := by
  have hne : ¬((s.disk (BBLOCK b s.sb) (b % BPB / 8)).toNat &&& 1 <<< (b % BPB % 8) = 0) := fun h0 =>
    blockFree_iff_not_used.mp (by simp [blockFree, h0]) h
  simp only [bfree, if_neg hne]

theorem Freed.bfree {F : Set Nat} (h : Freed s t F) (hsize : b < s.sb.size) (hu : Fs.used s b) (hb : b ∉ F) :
    Fs.bfree t b = some (t.setDisk (BBLOCK b t.sb) (clearBit (t.disk (BBLOCK b t.sb)) (b % BPB))) ∧
      Freed s (t.setDisk (BBLOCK b t.sb) (clearBit (t.disk (BBLOCK b t.sb)) (b % BPB))) (insert b F) := by
  refine ⟨bfree_of_used ((h.used b).mpr ⟨hu, hb⟩), h.sb, fun c hc => ?_, fun c => ?_⟩
  · by_cases hcb : c = BBLOCK b t.sb
    · rw [hcb, h.sb]
      exact ⟨bmapstart_le_bblock _ _, bblock_lt_dataStart hsize⟩
    · rw [setDisk_disk_of_ne hcb] at hc
      exact h.disk c hc
  · rw [used_clearBlock, h.used c, Set.mem_insert_iff]
    tauto

end Freed

/-!
## The loops of `itrunc`
-/

section Loops

theorem setAddr_addrs_self {j : Fin (NDIRECT + 1)} : ((s.setAddr i j a).icache i).addrs = update (s.icache i).addrs j a := by
  rw [State.setAddr, setInode_icache_self]

theorem setAddr_icache_of_ne {i' : Fin NINODE} {j : Fin (NDIRECT + 1)} (h : i' ≠ i) :
    (s.setAddr i j a).icache i' = s.icache i' :=
  setInode_icache_of_ne h

theorem Owned.refAt_marked (hs : Owned s) (hi : (s.icache i).held) {r : Option (Fin MAXFILE)}
    (h0 : refAt s.disk (s.icache i).toDinode r ≠ 0) :
    refAt s.disk (s.icache i).toDinode r < s.sb.size ∧ used s (refAt s.disk (s.icache i).toDinode r) := by
  have hkey : refs s ((s.icache i).inum, r) ≠ 0 := by rwa [hs.refs_held hi]
  have hin := hs.owners.inside _ hkey
  have hmark := hs.owners.marked _ hkey
  rw [hs.refs_held hi] at hin hmark
  exact ⟨hin.2, hmark⟩

theorem Owned.not_mem_freedBy (hs : Owned s) (hi : (s.icache i).held) {α : Type} {g : α → Option (Fin MAXFILE)}
    {pre : List α} {j : α} (hg : ∀ j' ∈ pre, g j = g j' → j = j') (hj : j ∉ pre)
    (h0 : refAt s.disk (s.icache i).toDinode (g j) ≠ 0) :
    refAt s.disk (s.icache i).toDinode (g j) ∉ freedBy (fun j => refAt s.disk (s.icache i).toDinode (g j)) pre := by
  rintro ⟨-, j', hj', he⟩
  have hkey := hs.refAt_inj hi h0 he.symm
  exact hj (hg j' hj' hkey ▸ hj')

/-- The key of direct block `j`. -/
def directKey (j : Fin NDIRECT) : Option (Fin MAXFILE) :=
  some ⟨j, Nat.lt_add_right NINDIRECT j.isLt⟩

theorem directKey_injective : Injective directKey := by
  intro j j' h
  simp only [directKey, Option.some.injEq] at h
  have hv := congrArg (fun x : Fin MAXFILE => x.val) h
  exact Fin.ext hv

theorem refAt_directKey {disk : Disk} {d : Dinode} (j : Fin NDIRECT) : refAt disk d (directKey j) = d.addrs j.castSucc :=
  blockOf_of_lt j.isLt

/-- The key of the block entry `j` of the indirect block lists. -/
def indirectKey (j : Nat) : Option (Fin MAXFILE) :=
  if h : j < NINDIRECT then some ⟨NDIRECT + j, by unfold MAXFILE; omega⟩ else none

theorem refAt_indirectKey {disk : Disk} {d : Dinode} {j : Nat} (hia : d.addrs (Fin.last NDIRECT) ≠ 0)
    (hj : j < NINDIRECT) : refAt disk d (indirectKey j) = getLE (disk (d.addrs (Fin.last NDIRECT))) (4 * j) 4 := by
  rw [indirectKey, dif_pos hj]
  show blockOf disk d (NDIRECT + j) = _
  rw [blockOf_of_indirect (Nat.le_add_right _ _) (by unfold MAXFILE; omega), if_neg hia, Nat.add_sub_cancel_left]

theorem indirectKey_ne_directKey {j : Nat} (hj : j < NINDIRECT) (j' : Fin NDIRECT) : indirectKey j ≠ directKey j' := by
  rw [indirectKey, dif_pos hj, directKey]
  intro h
  have hv := congrArg (fun x : Option (Fin MAXFILE) => x.map Fin.val) h
  simp only [Option.map_some, Option.some.injEq] at hv
  have := j'.isLt
  omega

theorem indirectKey_inj {j j' : Nat} (hj : j < NINDIRECT) (hj' : j' < NINDIRECT) (h : indirectKey j = indirectKey j') :
    j = j' := by
  rw [indirectKey, indirectKey, dif_pos hj, dif_pos hj'] at h
  have hv := congrArg (fun x : Option (Fin MAXFILE) => x.map Fin.val) h
  simp only [Option.map_some, Option.some.injEq] at hv
  omega

theorem Owned.truncDirect_run (hs : Owned s) (hi : (s.icache i).held) :
    ∃ t, truncDirect i s = some t ∧
      Freed s t (freedBy (fun j => refAt s.disk (s.icache i).toDinode (directKey j)) (List.finRange NDIRECT)) ∧
      SameInodes s t ∧ (∀ j, j ≠ i → t.icache j = s.icache j) ∧
      (∀ j : Fin NDIRECT, (t.icache i).addrs j.castSucc = 0) ∧
      (t.icache i).addrs (Fin.last NDIRECT) = (s.icache i).addrs (Fin.last NDIRECT) := by
  unfold truncDirect
  rw [Run.foldlM_eq_exec]
  -- after the indices `pre`: their blocks freed and their addresses cleared
  let P : List (Fin NDIRECT) → State → Prop := fun pre t =>
    Freed s t (freedBy (fun j => refAt s.disk (s.icache i).toDinode (directKey j)) pre) ∧ SameInodes s t ∧
      (∀ j, j ≠ i → t.icache j = s.icache j) ∧ (∀ j ∈ pre, (t.icache i).addrs (Fin.castSucc j) = 0) ∧
      ∀ k, (∀ j ∈ pre, k ≠ Fin.castSucc j) → (t.icache i).addrs k = (s.icache i).addrs k
  have hstep : ∀ pre j post t, pre ++ j :: post = List.finRange NDIRECT → P pre t →
      ∃ t', (let a := (t.icache i).addrs j.castSucc
        if a ≠ 0 then (bfree t a).map fun s => s.setAddr i j.castSucc 0 else some t) = some t' ∧ P (pre ++ [j]) t' := by
    intro pre j post t hsplit ⟨hF, hsame, hother, hdone, hrest⟩
    have hj := Run.not_mem_pre (List.nodup_finRange NDIRECT) hsplit
    have ha : (t.icache i).addrs j.castSucc = refAt s.disk (s.icache i).toDinode (directKey j) := by
      rw [refAt_directKey]
      exact hrest _ fun j' hj' he => hj (Fin.castSucc_injective _ he ▸ hj')
    by_cases h0 : refAt s.disk (s.icache i).toDinode (directKey j) = 0
    · -- a hole: the turn does nothing
      refine ⟨t, by simp only [ha, h0, ne_eq, not_true_eq_false, if_false], ?_⟩
      refine ⟨by rw [freedBy_append_of_zero (f := fun j => refAt s.disk (s.icache i).toDinode (directKey j)) h0]; exact hF,
        hsame, hother, fun j' hj' => ?_, fun k hk => ?_⟩
      · rcases List.mem_append.mp hj' with hj' | hj'
        · exact hdone j' hj'
        · rw [List.mem_singleton.mp hj', ha, h0]
      · exact hrest k fun j' hj' => hk j' (List.mem_append_left _ hj')
    · -- a block: freed, then its address cleared
      obtain ⟨hsize, hused⟩ := hs.refAt_marked hi h0
      obtain ⟨hb, hF'⟩ := hF.bfree hsize hused (hs.not_mem_freedBy hi (fun _ _ h => directKey_injective h) hj h0)
      refine ⟨_, by simp only [ha, ne_eq, h0, not_false_eq_true, if_true, hb, Option.map_some]; rfl, ?_⟩
      refine ⟨by rw [freedBy_append (f := fun j => refAt s.disk (s.icache i).toDinode (directKey j)) h0]; exact hF'.setAddr,
        hsame.trans ((SameInodes.setDisk _ _ _).trans (SameInodes.setAddr _ _ _ _)), fun j' hj' => ?_,
        fun j' hj' => ?_, fun k hk => ?_⟩
      · rw [setAddr_icache_of_ne hj', setDisk_icache]
        exact hother j' hj'
      · rw [setAddr_addrs_self]
        by_cases he : j' = j
        · rw [he]
          exact update_self _ _ _
        · rw [update_of_ne (fun h => he (Fin.castSucc_injective _ h))]
          exact hdone j' ((List.mem_append.mp hj').resolve_right fun h => he (List.mem_singleton.mp h))
      · rw [setAddr_addrs_self, update_of_ne (hk j (List.mem_append_right _ (List.mem_singleton_self j)))]
        exact hrest k fun j' hj' => hk j' (List.mem_append_left _ hj')
  obtain ⟨t, hrun, hF, hsame, hother, hdone, hrest⟩ := Run.exec_trace_exists (List.finRange NDIRECT) hstep s
    ⟨freedBy_nil ▸ Freed.refl s, SameInodes.refl s, fun _ _ => rfl, fun _ hj => absurd hj List.not_mem_nil,
      fun _ _ => rfl⟩
  refine ⟨t, hrun, hF, hsame, hother, fun j => hdone j (List.mem_finRange j), ?_⟩
  exact hrest _ fun j _ => (Fin.castSucc_lt_last j).ne'

theorem Owned.truncIndirect_run (hs : Owned s) (hi : (s.icache i).held)
    (hia : (s.icache i).addrs (Fin.last NDIRECT) ≠ 0)
    (hF : Freed s t (freedBy (fun j => refAt s.disk (s.icache i).toDinode (directKey j)) (List.finRange NDIRECT))) :
    ∃ t', truncIndirect ((s.icache i).addrs (Fin.last NDIRECT)) t = some t' ∧
      Freed s t' (freedBy (fun j => refAt s.disk (s.icache i).toDinode (directKey j)) (List.finRange NDIRECT) ∪
        freedBy (fun j => refAt s.disk (s.icache i).toDinode (indirectKey j)) (List.range NINDIRECT)) ∧
      t'.icache = t.icache := by
  unfold truncIndirect
  rw [Run.foldlM_eq_exec]
  have hdata := hs.indirect_data hi hia
  have hstart := bmapstart_lt_dataStart s.sb
  -- after the entries `pre`: their blocks freed, and the indirect block as it was
  let P : List Nat → State → Prop := fun pre t' =>
    Freed s t' (freedBy (fun j => refAt s.disk (s.icache i).toDinode (directKey j)) (List.finRange NDIRECT) ∪
      freedBy (fun j => refAt s.disk (s.icache i).toDinode (indirectKey j)) pre) ∧ t'.icache = t.icache
  have hstep : ∀ pre j post t', pre ++ j :: post = List.range NINDIRECT → P pre t' →
      ∃ t'', (let a := getLE (t'.disk ((s.icache i).addrs (Fin.last NDIRECT))) (4 * j) 4
        if a ≠ 0 then bfree t' a else some t') = some t'' ∧ P (pre ++ [j]) t'' := by
    intro pre j post t' hsplit ⟨hF', hicache⟩
    have hj := Run.not_mem_pre List.nodup_range hsplit
    have hjlt : j < NINDIRECT := List.mem_range.mp (hsplit ▸ List.mem_append_right pre List.mem_cons_self)
    have hpre : ∀ j' ∈ pre, j' < NINDIRECT := fun j' hj' => List.mem_range.mp (hsplit ▸ List.mem_append_left _ hj')
    have hind : t'.disk ((s.icache i).addrs (Fin.last NDIRECT)) = s.disk ((s.icache i).addrs (Fin.last NDIRECT)) := by
      by_contra hne
      have := (hF'.disk _ hne).2
      omega
    have ha : getLE (t'.disk ((s.icache i).addrs (Fin.last NDIRECT))) (4 * j) 4 =
        refAt s.disk (s.icache i).toDinode (indirectKey j) := by
      rw [hind, refAt_indirectKey hia hjlt]
    by_cases h0 : refAt s.disk (s.icache i).toDinode (indirectKey j) = 0
    · -- a hole: the turn does nothing
      refine ⟨t', by simp only [ha, h0, ne_eq, not_true_eq_false, if_false], ?_, hicache⟩
      rw [freedBy_append_of_zero (f := fun j => refAt s.disk (s.icache i).toDinode (indirectKey j)) h0]
      exact hF'
    · -- a block: no direct block, and not freed before
      obtain ⟨hsize, hused⟩ := hs.refAt_marked hi h0
      have hnd : refAt s.disk (s.icache i).toDinode (indirectKey j) ∉
          freedBy (fun j => refAt s.disk (s.icache i).toDinode (directKey j)) (List.finRange NDIRECT) := by
        rintro ⟨-, j', -, he⟩
        exact indirectKey_ne_directKey hjlt j' (hs.refAt_inj hi h0 he.symm)
      have hni := hs.not_mem_freedBy hi (fun j' hj' h => indirectKey_inj hjlt (hpre j' hj') h) hj h0
      obtain ⟨hb, hF''⟩ := hF'.bfree hsize hused (fun h => (Set.mem_union _ _ _).mp h |>.elim hnd hni)
      refine ⟨_, by simp only [ha, ne_eq, h0, not_false_eq_true, if_true, hb]; rfl, ?_⟩
      refine ⟨?_, hicache⟩
      rw [freedBy_append (f := fun j => refAt s.disk (s.icache i).toDinode (indirectKey j)) h0, Set.union_insert]
      exact hF''
  obtain ⟨t', hrun, hF', hicache⟩ := Run.exec_trace_exists (List.range NINDIRECT) hstep t
    ⟨by rw [freedBy_nil, Set.union_empty]; exact hF, rfl⟩
  exact ⟨t', hrun, hF', hicache⟩

end Loops

/-!
## The state `itrunc` ends in
-/

section Emptied

/-- What `itrunc`'s loops leave: the file's blocks freed, and the entry's
addresses cleared, with nothing else of the cache changed. -/
structure Emptied (s : State) (i : Fin NINODE) (t : State) : Prop where
  freed : Freed s t (blocksOf s (s.icache i).inum)
  other : ∀ j, j ≠ i → t.icache j = s.icache j
  self : t.icache i = { s.icache i with addrs := fun _ => 0 }

theorem Emptied.icache_end (h : Emptied s i t) (j : Fin NINODE) :
    (iupdate (t.setInode i { t.icache i with size := 0 }) i).icache j =
      if j = i then { s.icache i with addrs := fun _ => 0, size := 0 } else s.icache j := by
  rw [iupdate_icache]
  split
  · rename_i hj
    subst hj
    rw [setInode_icache_self, h.self]
  · rename_i hj
    rw [setInode_icache_of_ne hj, h.other j hj]

theorem Emptied.entry (h : Emptied s i t) (j : Fin NINODE) :
    ((iupdate (t.setInode i { t.icache i with size := 0 }) i).icache j).held = (s.icache j).held ∧
      ((iupdate (t.setInode i { t.icache i with size := 0 }) i).icache j).inum = (s.icache j).inum ∧
      ((iupdate (t.setInode i { t.icache i with size := 0 }) i).icache j).type = (s.icache j).type := by
  rw [h.icache_end j]
  split
  · rename_i hj
    subst hj
    exact ⟨rfl, rfl, rfl⟩
  · exact ⟨rfl, rfl, rfl⟩

theorem Emptied.inum_self (h : Emptied s i t) : (t.icache i).inum = (s.icache i).inum := by
  rw [h.self]

theorem Emptied.disk_end (h : Emptied s i t) (hs : Owned s) (hi : (s.icache i).held) {x : Nat}
    (hx : s.sb.bmapstart ≤ x) : (iupdate (t.setInode i { t.icache i with size := 0 }) i).disk x = t.disk x := by
  have := hs.wf.iblock_lt (hs.held_inum hi).2
  exact setSize_disk_of_ne (by rw [h.inum_self, h.freed.sb]; omega)

theorem Emptied.data_end (h : Emptied s i t) (hs : Owned s) (hi : (s.icache i).held) {x : Nat}
    (hx : dataStart s.sb ≤ x) : (iupdate (t.setInode i { t.icache i with size := 0 }) i).disk x = s.disk x := by
  have := bmapstart_lt_dataStart s.sb
  rw [h.disk_end hs hi (by omega)]
  by_contra hne
  have := (h.freed.disk x hne).2
  omega

theorem Emptied.used_end (h : Emptied s i t) (hs : Owned s) (hi : (s.icache i).held) (b : Nat) :
    used (iupdate (t.setInode i { t.icache i with size := 0 }) i) b ↔ used s b ∧ b ∉ blocksOf s (s.icache i).inum := by
  have hb := h.freed.used b
  unfold used at hb ⊢
  rw [h.freed.sb] at hb
  rw [iupdate_sb, setInode_sb, h.freed.sb, h.disk_end hs hi (bmapstart_le_bblock _ _)]
  exact hb

theorem Emptied.dinodeOf_self (h : Emptied s i t) (hs : Owned s) (hi : (s.icache i).held) :
    dinodeOf (iupdate (t.setInode i { t.icache i with size := 0 }) i) (s.icache i).inum =
      { (s.icache i).toDinode with addrs := fun _ => 0, size := 0 } := by
  have hf := hs.held_fits hi
  have hE : (t.setInode i { t.icache i with size := 0 }).icache i = { s.icache i with addrs := fun _ => 0, size := 0 } := by
    rw [setInode_icache_self, h.self]
  have hd := dinodeOf_iupdate_self (s := t.setInode i { t.icache i with size := 0 }) (i := i)
    (by rw [hE]; exact ⟨hf.type, hf.major, hf.minor, hf.nlink, Nat.two_pow_pos 32, fun _ => Nat.two_pow_pos 32⟩)
  rw [hE] at hd
  exact hd

theorem Emptied.dinodeOf_other (h : Emptied s i t) (hs : Owned s) (hne : inum ≠ (s.icache i).inum)
    (hlt : inum < s.sb.ninodes) : dinodeOf (iupdate (t.setInode i { t.icache i with size := 0 }) i) inum = dinodeOf s inum := by
  rw [dinodeOf_iupdate_of_ne (by rw [setInode_icache_self, h.inum_self]; exact hne)]
  exact dinodeOf_eq_of_writes hs.wf h.freed.sb (fun c hc => (h.freed.disk c hc).1) hlt

theorem Emptied.current_end (h : Emptied s i t) (hs : Owned s) (hi : (s.icache i).held)
    (hlt : inum < s.sb.ninodes) :
    current (iupdate (t.setInode i { t.icache i with size := 0 }) i) inum =
      if inum = (s.icache i).inum then { (s.icache i).toDinode with addrs := fun _ => 0, size := 0 }
      else current s inum := by
  have hc : cached (iupdate (t.setInode i { t.icache i with size := 0 }) i) inum = cached s inum := by
    simp only [Fs.cached, h.entry]
  cases hcs : cached s inum with
  | none =>
      have hne : inum ≠ (s.icache i).inum := fun he => by
        rw [he, hs.cached_eq hi] at hcs
        cases hcs
      rw [current_of_not_cached (hc.trans hcs), current_of_not_cached hcs, if_neg hne, h.dinodeOf_other hs hne hlt]
  | some j =>
      rw [current_of_cached (hc.trans hcs), current_of_cached hcs, h.icache_end j]
      by_cases hji : j = i
      · subst hji
        rw [if_pos rfl, if_pos (inum_of_cached hcs).symm]
      · -- the entry `cached` finds for another inode
        have hne : inum ≠ (s.icache i).inum := fun he =>
          hji (hs.held_unique (held_of_cached hcs) hi ((inum_of_cached hcs).trans he))
        rw [if_neg hji, if_neg hne]

theorem Emptied.allocated_end (h : Emptied s i t) (hs : Owned s) (hi : (s.icache i).held) :
    allocated (iupdate (t.setInode i { t.icache i with size := 0 }) i) inum ↔ allocated s inum := by
  unfold Fs.allocated
  rw [iupdate_sb, setInode_sb, h.freed.sb]
  by_cases hlt : inum < s.sb.ninodes
  · rw [h.current_end hs hi hlt]
    split
    · rename_i he
      rw [he, hs.current_eq hi]
    · rfl
  · simp [hlt]

theorem Emptied.refs_end (h : Emptied s i t) (hs : Owned s) (hi : (s.icache i).held)
    (x : Nat × Option (Fin MAXFILE)) :
    refs (iupdate (t.setInode i { t.icache i with size := 0 }) i) x =
      if x.1 = (s.icache i).inum then 0 else refs s x := by
  obtain ⟨inum, r⟩ := x
  dsimp only
  by_cases ha : allocated s inum
  · rw [refs_of_allocated ((h.allocated_end hs hi).mpr ha), h.current_end hs hi ha.2.1]
    split
    · exact refAt_of_addrs_zero (fun _ => rfl) r
    · rw [refs_of_allocated ha]
      exact refAt_congr (fun h0 => h.data_end hs hi (hs.refAt_data ha none h0)) r
  · have hna : ¬allocated (iupdate (t.setInode i { t.icache i with size := 0 }) i) inum :=
      mt (h.allocated_end hs hi).mp ha
    simp only [Fs.refs, if_neg hna, if_neg ha]
    split <;> rfl

theorem Emptied.owned_end (h : Emptied s i t) (hs : Owned s) (hi : (s.icache i).held) :
    Owned (iupdate (t.setInode i { t.icache i with size := 0 }) i) := by
  have hwf := hs.wf
  have hsb : (iupdate (t.setInode i { t.icache i with size := 0 }) i).sb = s.sb := h.freed.sb
  -- the file's blocks are held by no other key
  have hfresh : ∀ b ∈ (blocksOf s (s.icache i).inum : Set ℕ),
      Owners.Fresh (refs (iupdate (t.setInode i { t.icache i with size := 0 }) i)) b := by
    intro b hb x hx
    obtain ⟨hb0, r, hr⟩ := mem_blocksOf.mp (Finset.mem_coe.mp hb)
    rw [h.refs_end hs hi] at hx
    split at hx
    · exact hb0 hx.symm
    · rename_i hne
      have hkey := hs.owners.eq_of_eq (by rw [hx]; exact hb0) (hx.trans hr.symm)
      exact hne (congrArg Prod.fst hkey)
  have howners : Owners.Sound (Set.Ico (dataStart s.sb) s.sb.size)
      ({b | used s b} \ (blocksOf s (s.icache i).inum : Set ℕ))
      (refs (iupdate (t.setInode i { t.icache i with size := 0 }) i)) := by
    refine Owners.Sound.unmarkAll (hs.owners.sub fun x => ?_) hfresh
    rw [h.refs_end hs hi]
    split
    · exact .inl rfl
    · exact .inr rfl
  refine ⟨hsb ▸ hwf, fun c hc => ?_, ?_, fun {inum} ha => ?_, fun {inum} hlt hna => ?_, fun {j j'} hj hj' he => ?_,
    fun {j} hj => ?_, fun {j} hj => ?_, fun {j} hj => ?_⟩
  · -- the blocks before the data blocks are no file's
    rw [hsb] at hc
    refine (h.used_end hs hi c).mpr ⟨hs.reserved c hc, fun hb => ?_⟩
    obtain ⟨hb0, r, hr⟩ := mem_blocksOf.mp hb
    have := (hs.owners.inside _ (hr ▸ hb0)).1
    rw [hr] at this
    omega
  · have hU : {b | used (iupdate (t.setInode i { t.icache i with size := 0 }) i) b} =
        {b | used s b} \ (blocksOf s (s.icache i).inum : Set ℕ) := by
      ext b
      rw [Set.mem_sdiff, Finset.mem_coe]
      exact h.used_end hs hi b
    rw [hsb, hU]
    exact howners
  · have ha' := (h.allocated_end hs hi).mp ha
    rw [h.current_end hs hi ha'.2.1]
    split
    · exact Nat.zero_le _
    · exact hs.size ha'
  · rw [hsb] at hlt
    rw [h.current_end hs hi hlt]
    split
    · rfl
    · exact hs.empty hlt (mt (h.allocated_end hs hi).mpr hna)
  · rw [(h.entry j).2.1, (h.entry j').2.1] at he
    exact hs.held_unique ((h.entry j).1 ▸ hj) ((h.entry j').1 ▸ hj') he
  · rw [hsb, (h.entry j).2.1]
    exact hs.held_inum ((h.entry j).1 ▸ hj)
  · rw [(h.entry j).2.2]
    exact hs.held_type ((h.entry j).1 ▸ hj)
  · -- the emptied entry's `struct dinode` is its copy; the others are as they were
    have hj' := (h.entry j).1 ▸ hj
    rw [h.icache_end j]
    split
    · rename_i hji
      subst hji
      show (dinodeOf _ (s.icache j).inum).Lags { (s.icache j).toDinode with addrs := fun _ => 0, size := 0 }
      rw [h.dinodeOf_self hs hj']
      exact ⟨rfl, fun _ => .inr rfl⟩
    · rename_i hji
      have hne : (s.icache j).inum ≠ (s.icache i).inum := fun he => hji (hs.held_unique hj' hi he)
      rw [h.dinodeOf_other hs hne (hs.held_inum hj').2]
      exact hs.held_disk hj'

theorem Emptied.content_end (h : Emptied s i t) (hs : Owned s) (hi : (s.icache i).held) (hlt : inum < s.sb.ninodes) :
    content (iupdate (t.setInode i { t.icache i with size := 0 }) i) inum =
      if inum = (s.icache i).inum then [] else content s inum := by
  unfold content
  rw [h.current_end hs hi hlt]
  split
  · rfl
  · by_cases ha : allocated s inum
    · rw [hs.byteAt_of_data ha fun c hc => h.data_end hs hi hc]
    · rw [hs.empty hlt ha, List.range_zero, List.map_nil, List.map_nil]

end Emptied

/-!
## `itrunc`
-/

section Itrunc

theorem key_cases (r : Option (Fin MAXFILE)) :
    r = none ∨ (∃ j, r = directKey j) ∨ ∃ j < NINDIRECT, r = indirectKey j := by
  rcases r with _ | bn
  · exact .inl rfl
  · by_cases hbn : bn.val < NDIRECT
    · exact .inr (.inl ⟨⟨bn, hbn⟩, rfl⟩)
    · have hlt := bn.isLt
      unfold MAXFILE at hlt
      refine .inr (.inr ⟨bn.val - NDIRECT, by omega, ?_⟩)
      rw [indirectKey, dif_pos (by omega)]
      congr 1
      ext
      show bn.val = NDIRECT + (bn.val - NDIRECT)
      omega

theorem refAt_indirectKey_of_zero {disk : Disk} {d : Dinode} (hia : d.addrs (Fin.last NDIRECT) = 0) (j : Nat) :
    refAt disk d (indirectKey j) = 0 := by
  unfold indirectKey
  split
  · show blockOf disk d (NDIRECT + j) = 0
    rw [blockOf_of_indirect (Nat.le_add_right _ _) (by unfold MAXFILE; omega), if_pos hia]
  · exact hia

theorem addrs_eq_zero {a : Fin (NDIRECT + 1) → Nat} (hd : ∀ j : Fin NDIRECT, a j.castSucc = 0)
    (hl : a (Fin.last NDIRECT) = 0) : a = fun _ => 0 := by
  funext k
  induction k using Fin.lastCases with
  | last => exact hl
  | cast j => exact hd j

theorem SameInodes.emptied (h : SameInodes s t) (hz : (t.icache i).addrs = fun _ => 0) :
    t.icache i = { s.icache i with addrs := fun _ => 0 } := by
  rw [h.icache_eq i, hz]

theorem Owned.blocksOf_cases (hs : Owned s) (hi : (s.icache i).held) :
    b ∈ blocksOf s (s.icache i).inum ↔ b ≠ 0 ∧ (b = (s.icache i).addrs (Fin.last NDIRECT) ∨
      b ∈ freedBy (fun j => refAt s.disk (s.icache i).toDinode (directKey j)) (List.finRange NDIRECT) ∨
      b ∈ freedBy (fun j => refAt s.disk (s.icache i).toDinode (indirectKey j)) (List.range NINDIRECT)) := by
  rw [Fs.mem_blocksOf]
  simp only [hs.refs_held hi]
  constructor
  · rintro ⟨hb, r, rfl⟩
    refine ⟨hb, ?_⟩
    rcases key_cases r with rfl | ⟨j, rfl⟩ | ⟨j, hj, rfl⟩
    · exact .inl rfl
    · exact .inr (.inl ⟨hb, j, List.mem_finRange j, rfl⟩)
    · exact .inr (.inr ⟨hb, j, List.mem_range.mpr hj, rfl⟩)
  · rintro ⟨hb, rfl | ⟨-, j, -, rfl⟩ | ⟨-, j, -, rfl⟩⟩
    · exact ⟨hb, none, rfl⟩
    · exact ⟨hb, directKey j, rfl⟩
    · exact ⟨hb, indirectKey j, rfl⟩

theorem Owned.blocksOf_of_zero (hs : Owned s) (hi : (s.icache i).held)
    (hia : (s.icache i).addrs (Fin.last NDIRECT) = 0) :
    (blocksOf s (s.icache i).inum : Set ℕ) =
      freedBy (fun j => refAt s.disk (s.icache i).toDinode (directKey j)) (List.finRange NDIRECT) := by
  ext b
  rw [Finset.mem_coe, hs.blocksOf_cases hi]
  constructor
  · rintro ⟨hb, rfl | hd | ⟨-, j, -, he⟩⟩
    · exact absurd hia hb
    · exact hd
    · dsimp only at he
      rw [refAt_indirectKey_of_zero hia] at he
      exact absurd he.symm hb
  · intro hd
    exact ⟨hd.1, .inr (.inl hd)⟩

theorem Owned.blocksOf_of_ne (hs : Owned s) (hi : (s.icache i).held)
    (hia : (s.icache i).addrs (Fin.last NDIRECT) ≠ 0) :
    (blocksOf s (s.icache i).inum : Set ℕ) = insert ((s.icache i).addrs (Fin.last NDIRECT))
      (freedBy (fun j => refAt s.disk (s.icache i).toDinode (directKey j)) (List.finRange NDIRECT) ∪
        freedBy (fun j => refAt s.disk (s.icache i).toDinode (indirectKey j)) (List.range NINDIRECT)) := by
  ext b
  rw [Finset.mem_coe, hs.blocksOf_cases hi, Set.mem_insert_iff, Set.mem_union]
  constructor
  · rintro ⟨-, h⟩
    exact h
  · rintro (rfl | hd | hd)
    · exact ⟨hia, .inl rfl⟩
    · exact ⟨hd.1, .inr (.inl hd)⟩
    · exact ⟨hd.1, .inr (.inr hd)⟩

theorem Owned.indirect_not_mem (hs : Owned s) (hi : (s.icache i).held)
    (hia : (s.icache i).addrs (Fin.last NDIRECT) ≠ 0) :
    (s.icache i).addrs (Fin.last NDIRECT) ∉
      freedBy (fun j => refAt s.disk (s.icache i).toDinode (directKey j)) (List.finRange NDIRECT) ∪
        freedBy (fun j => refAt s.disk (s.icache i).toDinode (indirectKey j)) (List.range NINDIRECT) := by
  rintro (⟨-, j, -, he⟩ | ⟨-, j, hj, he⟩)
  · have hkey := hs.refAt_inj hi (r := none) hia he.symm
    cases hkey
  · have hkey := hs.refAt_inj hi (r := none) hia he.symm
    rw [indirectKey, dif_pos (List.mem_range.mp hj)] at hkey
    cases hkey

theorem Owned.itrunc_emptied (hs : Owned s) (hi : (s.icache i).held) :
    ∃ t, itrunc s i = some (iupdate (t.setInode i { t.icache i with size := 0 }) i) ∧ Emptied s i t := by
  obtain ⟨t₁, h₁, hF₁, hsame, hoth₁, hdir, hlast⟩ := hs.truncDirect_run hi
  unfold itrunc
  rw [h₁, Option.bind_some]
  dsimp only
  rw [hlast]
  by_cases hia : (s.icache i).addrs (Fin.last NDIRECT) = 0
  · -- no indirect block: the direct blocks are all
    rw [if_neg (not_not.mpr hia), Option.map_some]
    refine ⟨t₁, rfl, ⟨?_, hoth₁, ?_⟩⟩
    · rw [hs.blocksOf_of_zero hi hia]
      exact hF₁
    · exact hsame.emptied (addrs_eq_zero hdir (hlast.trans hia))
  · -- the indirect block's entries, then the indirect block itself
    obtain ⟨t₂, h₂, hF₂, hic₂⟩ := hs.truncIndirect_run hi hia hF₁
    obtain ⟨hsize, hused⟩ := hs.refAt_marked hi (r := none) hia
    obtain ⟨h₃, hF₃⟩ := hF₂.bfree (b := (s.icache i).addrs (Fin.last NDIRECT)) hsize hused (hs.indirect_not_mem hi hia)
    rw [if_pos hia, h₂, Option.bind_some, h₃, Option.map_some, Option.map_some]
    have hsame₄ : SameInodes s ((t₂.setDisk (BBLOCK ((s.icache i).addrs (Fin.last NDIRECT)) t₂.sb)
        (clearBit (t₂.disk (BBLOCK ((s.icache i).addrs (Fin.last NDIRECT)) t₂.sb))
          ((s.icache i).addrs (Fin.last NDIRECT) % BPB))).setAddr i (Fin.last NDIRECT) 0) :=
      ((hsame.trans fun j => by rw [hic₂]).trans (SameInodes.setDisk _ _ _)).trans (SameInodes.setAddr _ _ _ _)
    refine ⟨_, rfl, ⟨?_, fun j hj => ?_, ?_⟩⟩
    · rw [hs.blocksOf_of_ne hi hia]
      exact hF₃.setAddr
    · rw [setAddr_icache_of_ne hj]
      show t₂.icache j = _
      rw [hic₂]
      exact hoth₁ j hj
    · refine hsame₄.emptied ?_
      rw [setAddr_addrs_self]
      refine addrs_eq_zero (fun j => ?_) (update_self _ _ _)
      rw [update_of_ne (Fin.castSucc_lt_last j).ne]
      show (t₂.icache i).addrs j.castSucc = 0
      rw [hic₂]
      exact hdir j

/-- `itrunc` of a held entry keeps the invariant and frees exactly the blocks
of its file: it unmarks them in the bitmap and empties the file; every other
inode of the disk, and which inodes are in use, stay as they were. -/
theorem Owned.itrunc_frees (hs : Owned s) (hi : (s.icache i).held) :
    ∃ s', itrunc s i = some s' ∧ Owned s' ∧
      (∀ b, used s' b ↔ used s b ∧ b ∉ blocksOf s (s.icache i).inum) ∧
      (∀ inum, allocated s' inum ↔ allocated s inum) ∧
      ∀ inum < s.sb.ninodes, content s' inum = if inum = (s.icache i).inum then [] else content s inum := by
  obtain ⟨t, ht, h⟩ := hs.itrunc_emptied hi
  exact ⟨_, ht, h.owned_end hs hi, h.used_end hs hi, fun _ => h.allocated_end hs hi,
    fun _ hlt => h.content_end hs hi hlt⟩

theorem itrunc_frees_on_written :
    ∃ s' r s'', writei oneFile 0 (fun _ => 7) 0 3 = some (s', r) ∧ itrunc s' 0 = some s'' ∧ Owned s'' ∧
      content s'' 1 = [] := by
  obtain ⟨s', r, hw⟩ := writei_oneFile
  obtain ⟨-, hwr⟩ := owned_oneFile.writei_wrote ((held_oneFile 0).mpr rfl) hw ⟨by decide, by decide⟩
  obtain ⟨s'', ht, hs'', -, -, hc⟩ := hwr.owned.itrunc_frees hwr.held
  have h1 : (s'.icache 0).inum = 1 := hwr.inum
  have hc1 := hc 1 (h1 ▸ (hwr.owned.held_inum hwr.held).2)
  rw [if_pos h1.symm] at hc1
  exact ⟨s', r, s'', hw, ht, hs'', hc1⟩

end Itrunc

/-!
## `iput`

Dropping a reference lets the cache entry go when it was the last: the
inode is then the disk's copy, which lags the entry only by blocks `bmap`
added, so the blocks each key holds shrink at most.  The last reference to
an unlinked inode first truncates it and writes type 0 back.
-/

section Iput

theorem Dinode.Lags.refl (d : Dinode) : d.Lags d :=
  ⟨rfl, fun _ => .inr rfl⟩

theorem Dinode.Lags.type {d c : Dinode} (h : d.Lags c) : d.type = c.type := by
  have ht := congrArg Dinode.type h.attrs
  exact ht

theorem Dinode.Lags.size {d c : Dinode} (h : d.Lags c) : d.size = c.size := by
  have hs := congrArg Dinode.size h.attrs
  exact hs

theorem Dinode.Lags.refAt_or {d c : Dinode} (h : d.Lags c) (disk : Disk) (r : Option (Fin MAXFILE)) :
    refAt disk d r = 0 ∨ refAt disk d r = refAt disk c r := by
  rcases r with _ | bn
  · exact h.addrs _
  · show blockOf disk d bn = 0 ∨ blockOf disk d bn = blockOf disk c bn
    rcases Nat.lt_or_ge bn NDIRECT with hd | hd
    · rw [blockOf_of_lt hd, blockOf_of_lt hd]
      exact h.addrs _
    · rw [blockOf_of_indirect hd bn.isLt, blockOf_of_indirect hd bn.isLt]
      rcases h.addrs (Fin.last NDIRECT) with h0 | he
      · exact .inl (if_pos h0)
      · rw [he]
        exact .inr rfl

theorem cached_congr (h : ∀ j, ((s'.icache j).held ∧ (s'.icache j).inum = inum) ↔ ((s.icache j).held ∧ (s.icache j).inum = inum)) :
    cached s' inum = cached s inum := by
  unfold cached
  congr 1
  funext j
  exact decide_eq_decide.mpr (h j)

theorem cached_eq_none (h : ∀ j, (s.icache j).held → (s.icache j).inum ≠ inum) : cached s inum = none := by
  unfold cached
  rw [List.find?_eq_none]
  intro j _
  simp only [decide_eq_true_eq, not_and]
  exact h j

variable {e : Inode}

theorem Owned.letGo (hs : Owned s)
    (hh : e.held → (s.icache i).held ∧ e.toDinode = (s.icache i).toDinode ∧ e.inum = (s.icache i).inum) :
    Owned (s.setInode i e) ∧ ∀ inum, allocated (s.setInode i e) inum ↔ allocated s inum := by
  -- a held entry was held before, for the same inode
  have hent : ∀ j, ((s.setInode i e).icache j).held → (s.icache j).held ∧
      ((s.setInode i e).icache j).toDinode = (s.icache j).toDinode ∧
      ((s.setInode i e).icache j).inum = (s.icache j).inum := by
    intro j
    by_cases hj : j = i
    · subst hj
      rw [setInode_icache_self]
      exact hh
    · rw [setInode_icache_of_ne hj]
      exact fun h => ⟨h, rfl, rfl⟩
  have hlags : ∀ inum, (current (s.setInode i e) inum).Lags (current s inum) := by
    intro inum
    cases hc : cached (s.setInode i e) inum with
    | some j =>
        obtain ⟨hj, hd, hn⟩ := hent j (held_of_cached hc)
        have hcs : cached s inum = some j := by
          rw [← inum_of_cached hc, hn]
          exact hs.cached_eq hj
        rw [current_of_cached hc, current_of_cached hcs, hd]
        exact Dinode.Lags.refl _
    | none =>
        rw [current_of_not_cached hc]
        cases hcs : cached s inum with
        | none =>
            rw [current_of_not_cached hcs]
            exact Dinode.Lags.refl _
        | some j =>
            rw [current_of_cached hcs, ← inum_of_cached hcs]
            exact hs.held_disk (held_of_cached hcs)
  have halloc : ∀ inum, allocated (s.setInode i e) inum ↔ allocated s inum := by
    intro inum
    unfold Fs.allocated
    rw [(hlags inum).type]
    rfl
  have hrefs : ∀ x, refs (s.setInode i e) x = 0 ∨ refs (s.setInode i e) x = refs s x := by
    rintro ⟨inum, r⟩
    by_cases ha : allocated s inum
    · rw [refs_of_allocated ((halloc inum).mpr ha), refs_of_allocated ha]
      exact (hlags inum).refAt_or s.disk r
    · exact .inl (if_neg (mt (halloc inum).mp ha))
  refine ⟨⟨hs.wf, hs.reserved, hs.owners.sub hrefs, fun {inum} ha => ?_, fun {inum} hlt hna => ?_,
    fun {j j'} hj hj' he => ?_, fun {j} hj => ?_, fun {j} hj => ?_, fun {j} hj => ?_⟩, halloc⟩
  · rw [(hlags inum).size]
    exact hs.size ((halloc inum).mp ha)
  · rw [(hlags inum).size]
    exact hs.empty hlt (mt (halloc inum).mpr hna)
  · rw [(hent j hj).2.2, (hent j' hj').2.2] at he
    exact hs.held_unique (hent j hj).1 (hent j' hj').1 he
  · rw [(hent j hj).2.2]
    exact hs.held_inum (hent j hj).1
  · rw [(hent j hj).2.1]
    exact hs.held_type (hent j hj).1
  · rw [(hent j hj).2.2, (hent j hj).2.1]
    exact hs.held_disk (hent j hj).1

theorem Owned.dropRef (hs : Owned s) :
    Owned (s.setInode i { s.icache i with ref := (s.icache i).ref - 1 }) ∧
      ∀ inum, allocated (s.setInode i { s.icache i with ref := (s.icache i).ref - 1 }) inum ↔ allocated s inum := by
  refine hs.letGo fun h => ⟨⟨?_, h.2⟩, rfl, rfl⟩
  have h1 : 0 < (s.icache i).ref - 1 := h.1
  show 0 < (s.icache i).ref
  omega

theorem freeInode_icache (j : Fin NINODE) :
    ((iupdate (t.setInode i { t.icache i with type := 0 }) i).setInode i
        { (iupdate (t.setInode i { t.icache i with type := 0 }) i).icache i with valid := false }).icache j =
      if j = i then { t.icache i with type := 0, valid := false } else t.icache j := by
  split
  · rename_i hj
    subst hj
    rw [setInode_icache_self, iupdate_icache, setInode_icache_self]
  · rename_i hj
    rw [setInode_icache_of_ne hj, iupdate_icache, setInode_icache_of_ne hj]

/-- Type 0 written back for a held entry whose file is empty, and the entry
let go: the inode is free on the disk, nothing else changes, and the
invariant is kept. -/
theorem Owned.freeInode (ht : Owned t) (hi : (t.icache i).held) (hz : (t.icache i).addrs = fun _ => 0)
    (hsz : (t.icache i).size = 0) {v : State}
    (hv : v = (iupdate (t.setInode i { t.icache i with type := 0 }) i).setInode i
      { (iupdate (t.setInode i { t.icache i with type := 0 }) i).icache i with valid := false }) :
    Owned v ∧ (∀ inum, allocated v inum ↔ allocated t inum ∧ inum ≠ (t.icache i).inum) ∧ ∀ b, used v b ↔ used t b := by
  have hic := freeInode_icache (t := t) (i := i)
  rw [← hv] at hic
  have hsb : v.sb = t.sb := by rw [hv]; rfl
  have hit := ht.wf.iblock_lt (ht.held_inum hi).2
  have hdisk : ∀ x, t.sb.bmapstart ≤ x → v.disk x = t.disk x := by
    intro x hx
    rw [hv]
    refine iupdate_disk_of_ne ?_
    rw [setInode_icache_self]
    show x ≠ IBLOCK (t.icache i).inum t.sb
    omega
  -- the entries held are those held before, but `i`
  have hheld : ∀ j, (v.icache j).held → j ≠ i ∧ v.icache j = t.icache j := by
    intro j hj
    rw [hic j] at hj ⊢
    split at hj
    · exact absurd hj.2 Bool.false_ne_true
    · rename_i hji
      rw [if_neg hji]
      exact ⟨hji, rfl⟩
  have hne : ∀ {j}, (t.icache j).held → j ≠ i → (t.icache j).inum ≠ (t.icache i).inum :=
    fun hj hji he => hji (ht.held_unique hj hi he)
  have hdin : ∀ inum, dinodeOf v inum =
      if inum = (t.icache i).inum then { (t.icache i).toDinode with type := 0 } else dinodeOf t inum := by
    intro inum
    have hf := ht.held_fits hi
    rw [hv]
    split
    · rename_i he
      subst he
      have hd := dinodeOf_iupdate_self (s := t.setInode i { t.icache i with type := 0 }) (i := i)
        (by rw [setInode_icache_self]; exact ⟨⟨by norm_num, by norm_num⟩, hf.major, hf.minor, hf.nlink, hf.size, hf.addrs⟩)
      rw [setInode_icache_self] at hd
      exact hd
    · rename_i he
      exact dinodeOf_iupdate_of_ne (by rw [setInode_icache_self]; exact he)
  have hcur : ∀ inum, current v inum =
      if inum = (t.icache i).inum then { (t.icache i).toDinode with type := 0 } else current t inum := by
    intro inum
    split
    · rename_i he
      have hc : cached v inum = none := cached_eq_none fun j hj hji => by
        obtain ⟨hj', hvj⟩ := hheld j hj
        rw [hvj] at hj hji
        exact hne hj hj' (hji.trans he)
      rw [current_of_not_cached hc, hdin, if_pos he]
    · rename_i he
      have hc : cached v inum = cached t inum := cached_congr fun j => by
        rw [hic j]
        split
        · rename_i hji
          subst hji
          exact ⟨fun h => absurd h.1.2 Bool.false_ne_true, fun h => absurd h.2.symm he⟩
        · exact Iff.rfl
      cases hct : cached t inum with
      | none =>
          rw [current_of_not_cached (hc.trans hct), current_of_not_cached hct, hdin, if_neg he]
      | some j =>
          have hji : j ≠ i := fun hji => he (hji ▸ (inum_of_cached hct).symm)
          rw [current_of_cached (hc.trans hct), current_of_cached hct, hic j, if_neg hji]
  have halloc : ∀ inum, allocated v inum ↔ allocated t inum ∧ inum ≠ (t.icache i).inum := by
    intro inum
    unfold Fs.allocated
    rw [hsb, hcur]
    split
    · rename_i he
      simp [he]
    · rename_i he
      simp [he]
  have hrefs : refs v = refs t := by
    funext x
    obtain ⟨inum, r⟩ := x
    by_cases ha : allocated v inum
    · obtain ⟨ha', he⟩ := (halloc inum).mp ha
      rw [refs_of_allocated ha, refs_of_allocated ha', hcur, if_neg he]
      exact refAt_congr (fun h0 => hdisk _ (le_trans (bmapstart_lt_dataStart _).le (ht.refAt_data ha' none h0))) r
    · rw [Fs.refs, if_neg ha]
      by_cases he : inum = (t.icache i).inum
      · rw [he, ht.refs_held hi, refAt_of_addrs_zero (congrFun hz) r]
      · exact (if_neg fun ha' => ha ((halloc inum).mpr ⟨ha', he⟩)).symm
  have hused : ∀ b, used v b ↔ used t b := by
    intro b
    unfold used
    rw [hsb, hdisk _ (bmapstart_le_bblock _ _)]
  have hU : {b | used v b} = {b | used t b} := Set.ext hused
  refine ⟨⟨hsb ▸ ht.wf, fun c hc => (hused c).mpr (ht.reserved c (hsb ▸ hc)), ?_, fun {inum} ha => ?_,
    fun {inum} hlt hna => ?_, fun {j j'} hj hj' he => ?_, fun {j} hj => ?_, fun {j} hj => ?_, fun {j} hj => ?_⟩,
    halloc, hused⟩
  · rw [hsb, hU, hrefs]
    exact ht.owners
  · obtain ⟨ha', he⟩ := (halloc inum).mp ha
    rw [hcur, if_neg he]
    exact ht.size ha'
  · rw [hcur]
    split
    · exact hsz
    · rename_i he
      exact ht.empty (hsb ▸ hlt) fun ha' => hna ((halloc inum).mpr ⟨ha', he⟩)
  · rw [(hheld j hj).2, (hheld j' hj').2] at he
    rw [(hheld j hj).2] at hj
    rw [(hheld j' hj').2] at hj'
    exact ht.held_unique hj hj' he
  · rw [hsb, (hheld j hj).2]
    exact ht.held_inum ((hheld j hj).2 ▸ hj)
  · rw [(hheld j hj).2]
    exact ht.held_type ((hheld j hj).2 ▸ hj)
  · obtain ⟨hji, hvj⟩ := hheld j hj
    rw [hvj] at hj ⊢
    rw [hdin, if_neg (hne hj hji)]
    exact ht.held_disk hj

theorem Owned.iput_last (hs : Owned s) (hlast : (s.icache i).valid ∧ (s.icache i).nlink = 0 ∧ (s.icache i).ref = 1) :
    ∃ v, iput s i = some (v.setInode i { v.icache i with ref := (v.icache i).ref - 1 }) ∧ Owned v ∧
      (∀ b, used v b ↔ used s b ∧ b ∉ blocksOf s (s.icache i).inum) ∧
      (∀ inum, allocated v inum ↔ allocated s inum ∧ inum ≠ (s.icache i).inum) ∧ v.sb = s.sb ∧
      ∀ j, v.icache j =
        if j = i then { s.icache i with addrs := fun _ => 0, size := 0, type := 0, valid := false } else s.icache j := by
  have hi : (s.icache i).held := ⟨by rw [hlast.2.2]; decide, hlast.1⟩
  obtain ⟨t, ht, h⟩ := hs.itrunc_emptied hi
  have hent := h.icache_end i
  rw [if_pos rfl] at hent
  have hi₁ : ((iupdate (t.setInode i { t.icache i with size := 0 }) i).icache i).held := by
    rw [hent]
    exact hi
  obtain ⟨hv, hvalloc, hvused⟩ := (h.owned_end hs hi).freeInode hi₁ (by rw [hent]) (by rw [hent]) rfl
  simp only [iput, if_pos hlast, ht, Option.map_some]
  refine ⟨_, rfl, hv, fun b => (hvused b).trans (h.used_end hs hi b), fun inum => ?_, h.freed.sb, fun j => ?_⟩
  · rw [hvalloc, h.allocated_end hs hi, hent]
  · rw [freeInode_icache, h.icache_end j]
    split
    · rename_i hj
      subst hj
      rw [hent]
    · rfl

/-- Under the invariant `iput` never fails, and keeps the invariant.  The
last reference to an unlinked inode frees the inode on the disk and exactly
the blocks of its file; any other `iput` writes nothing to the disk. -/
theorem Owned.iput_frees (hs : Owned s) (i : Fin NINODE) :
    ∃ s', iput s i = some s' ∧ Owned s' ∧
      if (s.icache i).valid ∧ (s.icache i).nlink = 0 ∧ (s.icache i).ref = 1 then
        (∀ b, used s' b ↔ used s b ∧ b ∉ blocksOf s (s.icache i).inum) ∧
          ∀ inum, allocated s' inum ↔ allocated s inum ∧ inum ≠ (s.icache i).inum
      else s'.disk = s.disk ∧ ∀ inum, allocated s' inum ↔ allocated s inum := by
  by_cases hlast : (s.icache i).valid ∧ (s.icache i).nlink = 0 ∧ (s.icache i).ref = 1
  · -- the last reference to an unlinked inode: truncate, then free the inode
    obtain ⟨v, hput, hv, hused, halloc, -, -⟩ := hs.iput_last hlast
    obtain ⟨hw, hwalloc⟩ := hv.dropRef (i := i)
    refine ⟨_, hput, hw, ?_⟩
    rw [if_pos hlast]
    exact ⟨hused, fun inum => (hwalloc inum).trans (halloc inum)⟩
  · rw [iput_of_not_last hlast]
    obtain ⟨hw, hwalloc⟩ := hs.dropRef (i := i)
    refine ⟨_, rfl, hw, ?_⟩
    rw [if_neg hlast]
    exact ⟨rfl, hwalloc⟩

end Iput

end Fs

end Xv6
