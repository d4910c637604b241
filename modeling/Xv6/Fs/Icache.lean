import Xv6.Fs.Trunc
import Xv6.Library.Run

/-!
# The inode cache over runs of calls

`fs.c` hands out cache entries with `iget`, `idup` and `ilock`, takes them
back with `iput`, allocates inodes with `ialloc` and moves bytes with `readi`
and `writei`.  Its callers keep to a discipline: they name inodes of the root
device, drop only references they hold, and read and write through locked
entries.  Under that discipline every call keeps `Owned` and the cache's own
invariant `Slots`: no count is negative, an entry in use is for an inode of
the disk, and no two entries in use are for one inode.  `iget` relies on the
last to find the entry in use for an inode, and `ilock` on it to read an
inode into one entry only.
-/

namespace Xv6

namespace Fs

open State Function

variable {s s' t : State} {i : Fin NINODE} {e : Inode} {inum : Nat}

/-!
## The entries in use
-/

structure Slots (s : State) : Prop where
  nonneg : ∀ j, 0 ≤ (s.icache j).ref
  live : ∀ {j}, 0 < (s.icache j).ref →
    (s.icache j).dev = ROOTDEV ∧ 0 < (s.icache j).inum ∧ (s.icache j).inum < s.sb.ninodes
  unique : ∀ {j j'}, 0 < (s.icache j).ref → 0 < (s.icache j').ref → (s.icache j).inum = (s.icache j').inum → j = j'

/-- The entries' counts, devices and inodes are as they were. -/
def SameSlots (s s' : State) : Prop :=
  ∀ j, (s'.icache j).ref = (s.icache j).ref ∧ (s'.icache j).dev = (s.icache j).dev ∧
    (s'.icache j).inum = (s.icache j).inum

theorem SameInodes.sameSlots (h : SameInodes s s') : SameSlots s s' := fun j => by
  rw [h.icache_eq j]
  exact ⟨rfl, rfl, rfl⟩

theorem sameSlots_setInode (hr : e.ref = (s.icache i).ref) (hd : e.dev = (s.icache i).dev)
    (hn : e.inum = (s.icache i).inum) : SameSlots s (s.setInode i e) := fun j => by
  by_cases hj : j = i
  · rw [hj, setInode_icache_self]
    exact ⟨hr, hd, hn⟩
  · rw [setInode_icache_of_ne hj]
    exact ⟨rfl, rfl, rfl⟩

theorem SameSlots.trans (h₁ : SameSlots s s') (h₂ : SameSlots s' t) : SameSlots s t := fun j =>
  ⟨(h₂ j).1.trans (h₁ j).1, (h₂ j).2.1.trans (h₁ j).2.1, (h₂ j).2.2.trans (h₁ j).2.2⟩

theorem Slots.of_same (h : Slots s) (hsb : s'.sb = s.sb) (hs : SameSlots s s') : Slots s' := by
  refine ⟨fun j => ?_, fun {j} hj => ?_, fun {j j'} hj hj' he => ?_⟩
  · rw [(hs j).1]
    exact h.nonneg j
  · rw [(hs j).1] at hj
    rw [(hs j).2.1, (hs j).2.2, hsb]
    exact h.live hj
  · rw [(hs j).1] at hj
    rw [(hs j').1] at hj'
    rw [(hs j).2.2, (hs j').2.2] at he
    exact h.unique hj hj' he

theorem Slots.setInode (h : Slots s) (hn : 0 ≤ e.ref)
    (hlive : 0 < e.ref → e.dev = ROOTDEV ∧ 0 < e.inum ∧ e.inum < s.sb.ninodes)
    (hfresh : 0 < e.ref → ∀ j, j ≠ i → 0 < (s.icache j).ref → (s.icache j).inum ≠ e.inum) :
    Slots (s.setInode i e) := by
  refine ⟨fun j => ?_, fun {j} hj => ?_, fun {j j'} hj hj' he => ?_⟩
  · by_cases hji : j = i
    · rw [hji, setInode_icache_self]
      exact hn
    · rw [setInode_icache_of_ne hji]
      exact h.nonneg j
  · by_cases hji : j = i
    · rw [hji, setInode_icache_self] at hj ⊢
      exact hlive hj
    · rw [setInode_icache_of_ne hji] at hj ⊢
      exact h.live hj
  · -- the changed entry against another one in use
    by_cases hji : j = i <;> by_cases hji' : j' = i
    · rw [hji, hji']
    · rw [hji, setInode_icache_self] at hj he
      rw [setInode_icache_of_ne hji'] at hj' he
      exact absurd he.symm (hfresh hj j' hji' hj')
    · rw [hji', setInode_icache_self] at hj' he
      rw [setInode_icache_of_ne hji] at hj he
      exact absurd he (hfresh hj' j hji hj)
    · rw [setInode_icache_of_ne hji] at hj he
      rw [setInode_icache_of_ne hji'] at hj' he
      exact h.unique hj hj' he

theorem Slots.addRef (h : Slots s) (hpos : 0 < (s.icache i).ref) :
    Slots (s.setInode i { s.icache i with ref := (s.icache i).ref + 1 }) := by
  refine h.setInode (by have := h.nonneg i; show 0 ≤ (s.icache i).ref + 1; omega) (fun _ => h.live hpos)
    fun _ j hj hjpos he => hj (h.unique hjpos hpos he)

theorem Slots.dropRef (h : Slots s) (hpos : 0 < (s.icache i).ref) :
    Slots (s.setInode i { s.icache i with ref := (s.icache i).ref - 1 }) := by
  refine h.setInode (by show 0 ≤ (s.icache i).ref - 1; omega) (fun _ => h.live hpos)
    fun _ j hj hjpos he => hj (h.unique hjpos hpos he)

/-!
## `ilock`
-/

theorem Owned.of_current (hs : Owned s) (hsb : s'.sb = s.sb) (hdisk : s'.disk = s.disk)
    (hcur : ∀ inum, current s' inum = current s inum)
    (hu : ∀ {j j'}, (s'.icache j).held → (s'.icache j').held → (s'.icache j).inum = (s'.icache j').inum → j = j')
    (hin : ∀ {j}, (s'.icache j).held → 0 < (s'.icache j).inum ∧ (s'.icache j).inum < s.sb.ninodes)
    (ht : ∀ {j}, (s'.icache j).held → (s'.icache j).type ≠ 0)
    (hd : ∀ {j}, (s'.icache j).held → (dinodeOf s (s'.icache j).inum).Lags (s'.icache j).toDinode) :
    Owned s' := by
  have halloc : ∀ inum, allocated s' inum ↔ allocated s inum := by
    intro inum
    unfold Fs.allocated
    rw [hsb, hcur]
  have hrefs : refs s' = refs s := by
    funext x
    simp only [Fs.refs, halloc, hcur, hdisk]
  have hused : {b | used s' b} = {b | used s b} := by
    ext b
    simp only [Set.mem_ofPred_eq, Fs.used, hsb, hdisk]
  have hdin : ∀ inum, dinodeOf s' inum = dinodeOf s inum := fun inum => by
    unfold dinodeOf
    rw [hsb, hdisk]
  refine ⟨hsb ▸ hs.wf, fun b hb => ?_, ?_, fun {inum} ha => ?_, fun {inum} hlt hna => ?_, hu, fun hj => ?_, ht,
    fun {j} hj => ?_⟩
  · rw [hsb] at hb
    show b ∈ {b | used s' b}
    rw [hused]
    exact hs.reserved b hb
  · rw [hsb, hused, hrefs]
    exact hs.owners
  · rw [hcur]
    exact hs.size ((halloc inum).mp ha)
  · rw [hcur]
    exact hs.empty (hsb ▸ hlt) (mt (halloc inum).mpr hna)
  · rw [hsb]
    exact hin hj
  · rw [hdin]
    exact hd hj

theorem Owned.ilock_read (hs : Owned s) (hsl : Slots s) (hpos : 0 < (s.icache i).ref)
    (hv : (s.icache i).valid = false) (ht : (dinodeOf s (s.icache i).inum).type ≠ 0) :
    Owned (s.setInode i { s.icache i with toDinode := dinodeOf s (s.icache i).inum, valid := true }) := by
  have hsl' : Slots (s.setInode i { s.icache i with toDinode := dinodeOf s (s.icache i).inum, valid := true }) :=
    hsl.of_same rfl (sameSlots_setInode rfl rfl rfl)
  have hself : (s.setInode i { s.icache i with toDinode := dinodeOf s (s.icache i).inum, valid := true }).icache i =
      { s.icache i with toDinode := dinodeOf s (s.icache i).inum, valid := true } := setInode_icache_self
  -- before, no entry holds the inode: the entry in use for it is not valid
  have hnone : ∀ j, (s.icache j).held → (s.icache j).inum ≠ (s.icache i).inum := by
    intro j hj he
    have hji := hsl.unique hj.1 hpos he
    subst hji
    have hvalid := hj.2
    rw [hv] at hvalid
    cases hvalid
  have hcached : cached (s.setInode i { s.icache i with toDinode := dinodeOf s (s.icache i).inum, valid := true })
      (s.icache i).inum = some i := by
    have hc := cached_of_held (fun j' hj' he => hsl'.unique hj'.1 (hsl'.nonneg i |>.lt_of_ne' ?_) he)
      (show ((s.setInode i _).icache i).held by rw [hself]; exact ⟨hpos, rfl⟩)
    · rw [hself] at hc
      exact hc
    · rw [hself]
      exact hpos.ne'
  refine hs.of_current rfl rfl (fun inum => ?_) (fun {j j'} hj hj' he => hsl'.unique hj.1 hj'.1 he)
    (fun hj => (hsl'.live hj.1).2) (fun {j} hj => ?_) (fun {j} hj => ?_)
  · by_cases he : inum = (s.icache i).inum
    · rw [he, current_of_cached hcached, current_of_not_cached (cached_eq_none hnone), hself]
    · have hc : cached (s.setInode i { s.icache i with toDinode := dinodeOf s (s.icache i).inum, valid := true })
          inum = cached s inum := cached_congr fun j => by
        by_cases hji : j = i
        · rw [hji, hself]
          exact ⟨fun h => absurd h.2.symm he, fun h => absurd h.2.symm he⟩
        · rw [setInode_icache_of_ne hji]
      cases hcs : cached s inum with
      | none =>
          rw [current_of_not_cached (hc.trans hcs), current_of_not_cached hcs]
          rfl
      | some j =>
          have hji : j ≠ i := fun hji => he (hji ▸ (inum_of_cached hcs).symm)
          rw [current_of_cached (hc.trans hcs), current_of_cached hcs, setInode_icache_of_ne hji]
  · by_cases hji : j = i
    · rw [hji, hself]
      exact ht
    · rw [setInode_icache_of_ne hji] at hj ⊢
      exact hs.held_type hj
  · by_cases hji : j = i
    · rw [hji, hself]
      exact Dinode.Lags.refl _
    · rw [setInode_icache_of_ne hji] at hj ⊢
      exact hs.held_disk hj

/-!
## `ialloc`
-/

section Claim

variable {type : Int}

theorem dinodeOf_put_self {d : Dinode} (hf : d.Fits) :
    dinodeOf (s.setDisk (IBLOCK inum s.sb) (Dinode.put (s.disk (IBLOCK inum s.sb)) (dinodeOffset inum) d)) inum = d := by
  rw [Fs.dinodeOf, setDisk_sb, setDisk_disk_self, Dinode.get_put_self _ _ hf]

theorem dinodeOf_put_of_ne {d : Dinode} {k : Nat} (hk : k ≠ inum) :
    dinodeOf (s.setDisk (IBLOCK inum s.sb) (Dinode.put (s.disk (IBLOCK inum s.sb)) (dinodeOffset inum) d)) k =
      dinodeOf s k := by
  rw [Fs.dinodeOf, Fs.dinodeOf, setDisk_sb]
  by_cases hb : IBLOCK k s.sb = IBLOCK inum s.sb
  · rw [hb, setDisk_disk_self, Dinode.get_put_of_disjoint _ _ (dinodeOffset_disjoint hb hk)]
  · rw [setDisk_disk_of_ne hb]

theorem Owned.not_held_of_free (hs : Owned s) (hfree : (dinodeOf s inum).type = 0) {j : Fin NINODE}
    (hj : (s.icache j).held) : (s.icache j).inum ≠ inum := by
  intro he
  have hty := (hs.held_disk hj).type
  rw [he, hfree] at hty
  exact hs.held_type hj hty.symm

theorem Owned.claim (hs : Owned s) (hlo : 0 < inum) (hlt : inum < s.sb.ninodes) (hfree : (dinodeOf s inum).type = 0)
    (hty : type ≠ 0) (hfit : -2 ^ 15 ≤ type ∧ type < 2 ^ 15) :
    Owned (s.setDisk (IBLOCK inum s.sb) (Dinode.put (s.disk (IBLOCK inum s.sb)) (dinodeOffset inum)
      { Dinode.zero with type := type })) ∧
    ∀ k, allocated (s.setDisk (IBLOCK inum s.sb) (Dinode.put (s.disk (IBLOCK inum s.sb)) (dinodeOffset inum)
      { Dinode.zero with type := type })) k ↔ allocated s k ∨ k = inum := by
  have hib := hs.wf.iblock_lt hlt
  have hdata := bmapstart_lt_dataStart s.sb
  have hf : ({ Dinode.zero with type := type } : Dinode).Fits :=
    ⟨hfit, by norm_num [Dinode.zero], by norm_num [Dinode.zero], by norm_num [Dinode.zero], by norm_num [Dinode.zero],
      fun _ => by norm_num [Dinode.zero]⟩
  have hdisk : ∀ x, s.sb.bmapstart ≤ x → (s.setDisk (IBLOCK inum s.sb) (Dinode.put (s.disk (IBLOCK inum s.sb))
      (dinodeOffset inum) { Dinode.zero with type := type })).disk x = s.disk x :=
    fun x hx => setDisk_disk_of_ne (by omega)
  have hnone : cached s inum = none := cached_eq_none fun j hj => hs.not_held_of_free hfree hj
  have hcached : ∀ k, cached (s.setDisk (IBLOCK inum s.sb) (Dinode.put (s.disk (IBLOCK inum s.sb)) (dinodeOffset inum)
      { Dinode.zero with type := type })) k = cached s k := fun _ => rfl
  -- only the claimed inode changes
  have hcur : ∀ k, current (s.setDisk (IBLOCK inum s.sb) (Dinode.put (s.disk (IBLOCK inum s.sb)) (dinodeOffset inum)
      { Dinode.zero with type := type })) k = if k = inum then { Dinode.zero with type := type } else current s k := by
    intro k
    split
    · rename_i hk
      rw [hk, current_of_not_cached ((hcached inum).trans hnone), dinodeOf_put_self hf]
    · rename_i hk
      cases hc : cached s k with
      | none => rw [current_of_not_cached ((hcached k).trans hc), current_of_not_cached hc, dinodeOf_put_of_ne hk]
      | some j => rw [current_of_cached ((hcached k).trans hc), current_of_cached hc, setDisk_icache]
  have hwas : ¬allocated s inum := fun ha => by
    have ht := ha.2.2
    rw [current_of_not_cached hnone] at ht
    exact ht hfree
  have halloc : ∀ k, allocated (s.setDisk (IBLOCK inum s.sb) (Dinode.put (s.disk (IBLOCK inum s.sb))
      (dinodeOffset inum) { Dinode.zero with type := type })) k ↔ allocated s k ∨ k = inum := by
    intro k
    unfold Fs.allocated
    rw [setDisk_sb, hcur]
    split
    · rename_i hk
      subst hk
      exact ⟨fun _ => .inr rfl, fun _ => ⟨hlo, hlt, hty⟩⟩
    · rename_i hk
      simp [hk]
  have hrefs : refs (s.setDisk (IBLOCK inum s.sb) (Dinode.put (s.disk (IBLOCK inum s.sb)) (dinodeOffset inum)
      { Dinode.zero with type := type })) = refs s := by
    funext x
    obtain ⟨k, r⟩ := x
    by_cases hk : k = inum
    · subst hk
      rw [refs_of_allocated ((halloc k).mpr (.inr rfl)), hcur, if_pos rfl, refAt_of_addrs_zero (fun _ => rfl),
        Fs.refs, if_neg hwas]
    · by_cases ha : allocated s k
      · rw [refs_of_allocated ((halloc k).mpr (.inl ha)), refs_of_allocated ha, hcur, if_neg hk]
        exact refAt_congr (fun h0 => hdisk _ (le_trans hdata.le (hs.refAt_data ha none h0))) r
      · have hna : ¬allocated (s.setDisk (IBLOCK inum s.sb) (Dinode.put (s.disk (IBLOCK inum s.sb))
            (dinodeOffset inum) { Dinode.zero with type := type })) k := fun h => ((halloc k).mp h).elim ha hk
        rw [Fs.refs, Fs.refs, if_neg hna, if_neg ha]
  have hused : {b | used (s.setDisk (IBLOCK inum s.sb) (Dinode.put (s.disk (IBLOCK inum s.sb)) (dinodeOffset inum)
      { Dinode.zero with type := type })) b} = {b | used s b} := by
    ext b
    simp only [Set.mem_ofPred_eq, Fs.used, setDisk_sb]
    rw [hdisk _ (bmapstart_le_bblock _ _)]
  refine ⟨⟨hs.wf, fun b hb => ?_, ?_, fun {k} ha => ?_, fun {k} hk hna => ?_, hs.held_unique, hs.held_inum,
    hs.held_type, fun {j} hj => ?_⟩, halloc⟩
  · show b ∈ {b | used _ b}
    rw [hused]
    exact hs.reserved b hb
  · rw [setDisk_sb, hused, hrefs]
    exact hs.owners
  · rw [hcur]
    split
    · exact Nat.zero_le _
    · rename_i hk
      exact hs.size (((halloc k).mp ha).resolve_right hk)
  · rw [hcur]
    split
    · rfl
    · rename_i hki
      exact hs.empty hk fun ha => hna ((halloc k).mpr (.inl ha))
  · show (dinodeOf _ (s.icache j).inum).Lags (s.icache j).toDinode
    rw [dinodeOf_put_of_ne (hs.not_held_of_free hfree hj)]
    exact hs.held_disk hj

end Claim

/-!
## `readi` and `writei`
-/

section Bytes

variable {off n : UInt32} {r : Int}

theorem Owned.readi_slots (hs : Owned s) (hi : (s.icache i).held) {dst : List UInt8}
    (h : readi s i off n = some (s', r, dst)) : Owned s' ∧ s'.sb = s.sb ∧ SameSlots s s' := by
  unfold readi at h
  dsimp only at h
  split at h
  · cases h
  split at h
  · cases h
    exact ⟨hs, rfl, fun _ => ⟨rfl, rfl, rfl⟩⟩
  obtain ⟨⟨s₁, dst₁⟩, hrun, he⟩ := Option.map_eq_some_iff.mp h
  obtain ⟨rfl, -⟩ := Prod.mk.inj he
  obtain ⟨hk, -, -⟩ := readLoop_keeps _ _ s _ 0 [] rfl hs hi hrun
  exact ⟨hk.owned, hk.sb, hk.same.sameSlots⟩

theorem Owned.writei_slots (hs : Owned s) (hi : (s.icache i).held) {src : Bytes}
    (h : writei s i src off n = some (s', r)) : Owned s' ∧ s'.sb = s.sb ∧ SameSlots s s' := by
  have hown : Owned s' := by
    by_cases hok : off.toNat ≤ (s.icache i).size ∧ off.toNat + n.toNat ≤ MAXFILE * BSIZE
    · exact (hs.writei_wrote hi h hok).2.owned
    · obtain ⟨-, rfl⟩ := writei_of_not_ok h hok
      exact hs
  refine ⟨hown, ?_⟩
  unfold writei at h
  dsimp only at h
  split at h
  · cases h
  split at h
  · cases h
    exact ⟨rfl, fun _ => ⟨rfl, rfl, rfl⟩⟩
  split at h
  · cases h
    exact ⟨rfl, fun _ => ⟨rfl, rfl, rfl⟩⟩
  obtain ⟨⟨s₁, off'⟩, hloop, he⟩ := Option.map_eq_some_iff.mp h
  obtain ⟨hk, -, -⟩ := writeLoop_keeps _ _ s _ 0 rfl hs hi hloop
  dsimp only at he
  split at he
  · -- the size written back
    obtain ⟨rfl, -⟩ := Prod.mk.inj he
    exact ⟨hk.sb, hk.same.sameSlots.trans (sameSlots_setInode (e := { s₁.icache i with size := off' }) rfl rfl rfl)⟩
  · obtain ⟨rfl, -⟩ := Prod.mk.inj he
    exact ⟨hk.sb, hk.same.sameSlots⟩

end Bytes

/-!
## Runs of calls
-/

/-- The calls of `fs.c` on the inode cache and the disk's inodes. -/
inductive Call where
  | iget (dev inum : Nat)
  | idup (i : Fin NINODE)
  | ilock (i : Fin NINODE)
  | iput (i : Fin NINODE)
  | ialloc (dev : Nat) (type : Int)
  | readi (i : Fin NINODE) (off n : UInt32)
  | writei (i : Fin NINODE) (src : Bytes) (off n : UInt32)

/-- One call, with what it returns to its caller dropped. -/
def call (s : State) : Call → Option State
  | .iget dev inum => (iget s dev inum).map Prod.fst
  | .idup i => some (idup s i)
  | .ilock i => ilock s i
  | .iput i => iput s i
  | .ialloc dev type => (ialloc s dev type).map Prod.fst
  | .readi i off n => (readi s i off n).map Prod.fst
  | .writei i src off n => (writei s i src off n).map Prod.fst

/-- The callers' discipline: `iget` of an inode of the root device and of
the disk, `idup` and `iput` by a holder of a reference, `readi` and `writei`
through a locked entry, `ialloc` of a type that fits a `short`. -/
def Allowed (s : State) : Call → Prop
  | .iget dev inum => dev = ROOTDEV ∧ 0 < inum ∧ inum < s.sb.ninodes
  | .idup i => 0 < (s.icache i).ref
  | .ilock _ => True
  | .iput i => 0 < (s.icache i).ref
  | .ialloc dev type => dev = ROOTDEV ∧ type ≠ 0 ∧ -2 ^ 15 ≤ type ∧ type < 2 ^ 15
  | .readi i _ _ => (s.icache i).held
  | .writei i _ _ _ => (s.icache i).held

instance (s : State) (c : Call) : Decidable (Allowed s c) := by
  cases c <;> unfold Allowed <;> infer_instance

/-- The file system's invariant and the cache's. -/
structure Live (s : State) : Prop where
  owned : Owned s
  slots : Slots s

theorem Live.of_addRef (h : Live s) (hpos : 0 < (s.icache i).ref) :
    Live (s.setInode i { s.icache i with ref := (s.icache i).ref + 1 }) :=
  ⟨(h.owned.letGo (e := { s.icache i with ref := (s.icache i).ref + 1 }) fun he => ⟨⟨hpos, he.2⟩, rfl, rfl⟩).1,
    h.slots.addRef hpos⟩

theorem Live.of_iget (h : Live s) {dev : Nat} (hdev : dev = ROOTDEV) (hlo : 0 < inum) (hlt : inum < s.sb.ninodes)
    {j : Fin NINODE} (hg : iget s dev inum = some (s', j)) : Live s' := by
  unfold iget at hg
  split at hg
  · -- the entry in use for the inode
    rename_i j' hfind
    obtain ⟨rfl, -⟩ := Prod.mk.inj (Option.some.inj hg)
    have hp := List.find?_some hfind
    simp only [decide_eq_true_eq] at hp
    exact h.of_addRef hp.1
  · rename_i hnone
    split at hg
    · -- a slot with no references, recycled: no entry in use is for the inode
      rename_i j' _
      obtain ⟨rfl, -⟩ := Prod.mk.inj (Option.some.inj hg)
      refine ⟨(h.owned.letGo (e := { s.icache j' with dev := dev, inum := inum, ref := 1, valid := false })
        fun he => absurd he.2 Bool.false_ne_true).1,
        h.slots.setInode (show (0 : Int) ≤ 1 by decide) (fun _ => ⟨hdev, hlo, hlt⟩) fun _ k _ hkpos he => ?_⟩
      have he' : (s.icache k).inum = inum := he
      exact List.find?_eq_none.mp hnone k (List.mem_finRange k)
        (decide_eq_true ⟨hkpos, (h.slots.live hkpos).1.trans hdev.symm, he'⟩)
    · cases hg

theorem Live.of_ilock (h : Live s) (hl : ilock s i = some s') : Live s' := by
  unfold ilock at hl
  dsimp only at hl
  split at hl
  · cases hl
  rename_i href
  split at hl
  · cases hl
    exact h
  rename_i hvalid
  split at hl
  · cases hl
  rename_i htype
  cases hl
  have hpos : 0 < (s.icache i).ref := by omega
  exact ⟨h.owned.ilock_read h.slots hpos (Bool.eq_false_iff.mpr hvalid) htype,
    h.slots.of_same rfl (sameSlots_setInode rfl rfl rfl)⟩

theorem Live.of_iput (h : Live s) (hpos : 0 < (s.icache i).ref) (hp : iput s i = some s') : Live s' := by
  by_cases hlast : (s.icache i).valid ∧ (s.icache i).nlink = 0 ∧ (s.icache i).ref = 1
  · -- the inode freed, then the reference dropped
    obtain ⟨v, hput, hv, -, -, hvsb, hic⟩ := h.owned.iput_last hlast
    rw [hput] at hp
    cases hp
    have hsl : Slots v := h.slots.of_same hvsb fun j => by
      rw [hic j]
      split
      · rename_i hj
        rw [hj]
        exact ⟨rfl, rfl, rfl⟩
      · exact ⟨rfl, rfl, rfl⟩
    have hvpos : 0 < (v.icache i).ref := by
      rw [hic i, if_pos rfl]
      exact hpos
    exact ⟨(hv.dropRef (i := i)).1, hsl.dropRef hvpos⟩
  · rw [iput_of_not_last hlast] at hp
    cases hp
    exact ⟨(h.owned.dropRef (i := i)).1, h.slots.dropRef hpos⟩

theorem Live.of_ialloc (h : Live s) {dev : Nat} {type : Int} (hdev : dev = ROOTDEV) (hty : type ≠ 0)
    (hfit : -2 ^ 15 ≤ type ∧ type < 2 ^ 15) {j : Fin NINODE} (ha : ialloc s dev type = some (s', j)) : Live s' := by
  unfold ialloc at ha
  split at ha
  · cases ha
  rename_i inum hfind
  -- the first inode from 1 that is free on the disk
  have hmem := List.mem_range'_1.mp (List.mem_of_find?_eq_some hfind)
  have hfree := List.find?_some hfind
  simp only [decide_eq_true_eq] at hfree
  dsimp only at ha
  have hlt : inum < s.sb.ninodes := by omega
  obtain ⟨hown, -⟩ := h.owned.claim (by omega) hlt hfree hty hfit
  exact Live.of_iget ⟨hown, h.slots.of_same rfl fun _ => ⟨rfl, rfl, rfl⟩⟩ hdev (by omega) hlt ha

theorem Live.step (h : Live s) {c : Call} (ha : Allowed s c) (hc : call s c = some s') : Live s' := by
  cases c with
  | iget dev inum =>
      obtain ⟨⟨s₁, j⟩, hg, rfl⟩ := Option.map_eq_some_iff.mp hc
      exact h.of_iget ha.1 ha.2.1 ha.2.2 hg
  | idup i =>
      cases hc
      exact h.of_addRef ha
  | ilock i => exact h.of_ilock hc
  | iput i => exact h.of_iput ha hc
  | ialloc dev type =>
      obtain ⟨⟨s₁, j⟩, hg, rfl⟩ := Option.map_eq_some_iff.mp hc
      exact h.of_ialloc ha.1 ha.2.1 ha.2.2 hg
  | readi i off n =>
      obtain ⟨⟨s₁, r, dst⟩, hg, rfl⟩ := Option.map_eq_some_iff.mp hc
      obtain ⟨hown, hsb, hsame⟩ := h.owned.readi_slots ha hg
      exact ⟨hown, h.slots.of_same hsb hsame⟩
  | writei i src off n =>
      obtain ⟨⟨s₁, r⟩, hg, rfl⟩ := Option.map_eq_some_iff.mp hc
      obtain ⟨hown, hsb, hsame⟩ := h.owned.writei_slots ha hg
      exact ⟨hown, h.slots.of_same hsb hsame⟩

/-- Every run of the calls in which each call keeps to its callers'
discipline keeps the file system's invariant and the cache's, in whatever
order the calls come. -/
theorem live_of_run {cs : List Call} (h : Live s) (hrun : Run.exec call s cs = some s')
    (hall : Run.Always call Allowed s cs) : Live s' :=
  Run.exec_invariant_of_always (fun _ _ _ ha hs hc => hs.step ha hc) hrun hall h

theorem ref_oneFile (j : Fin NINODE) : 0 < (oneFile.icache j).ref ↔ j = 0 := by
  revert j
  decide

theorem live_oneFile : Live oneFile := by
  refine ⟨owned_oneFile, fun j => ?_, fun {j} hj => ?_, fun {j j'} hj hj' _ => ?_⟩
  · revert j
    decide
  · rw [(ref_oneFile j).mp hj]
    decide
  · rw [(ref_oneFile j).mp hj, (ref_oneFile j').mp hj']

theorem live_of_run_on_oneFile :
    ∃ s', Run.exec call oneFile [.iget ROOTDEV 1, .ilock 0, .iput 0] = some s' ∧ Live s' := by
  obtain ⟨s', hrun⟩ : ∃ s', Run.exec call oneFile [.iget ROOTDEV 1, .ilock 0, .iput 0] = some s' :=
    Option.isSome_iff_exists.mp (by decide)
  exact ⟨s', hrun, live_of_run live_oneFile hrun (by decide)⟩

theorem iput_frees_after_ialloc :
    (∃ s', iput oneFile 0 = some s' ∧ Owned s' ∧ s'.disk = oneFile.disk) ∧
      ∃ t s', Run.exec call oneFile [.ialloc ROOTDEV T_FILE, .ilock 1] = some t ∧ allocated t 2 ∧
        iput t 1 = some s' ∧ Owned s' ∧ ¬allocated s' 2 := by
  constructor
  · -- the file of `oneFile` is linked: `iput` only drops the reference
    obtain ⟨s', hput, hs', hcase⟩ := owned_oneFile.iput_frees 0
    have hlinked : ¬((oneFile.icache 0).valid ∧ (oneFile.icache 0).nlink = 0 ∧ (oneFile.icache 0).ref = 1) := by
      decide
    rw [if_neg hlinked] at hcase
    exact ⟨s', hput, hs', hcase.1⟩
  · -- a new inode has no link: its only reference goes, and the inode with it
    obtain ⟨t, hrun, hlast, hinum, halloc⟩ : ∃ t, Run.exec call oneFile [.ialloc ROOTDEV T_FILE, .ilock 1] = some t ∧
        ((t.icache 1).valid ∧ (t.icache 1).nlink = 0 ∧ (t.icache 1).ref = 1) ∧ (t.icache 1).inum = 2 ∧
        allocated t 2 :=
      Run.exists_exec_of_map_decide _ (by decide)
    have hlive : Live t :=
      Run.exec_invariant_of_always (fun _ _ _ ha hs hc => hs.step ha hc) hrun (by decide) live_oneFile
    obtain ⟨s', hput, hs', hcase⟩ := hlive.owned.iput_frees 1
    rw [if_pos hlast, hinum] at hcase
    exact ⟨t, s', hrun, halloc, hput, hs', fun h => ((hcase.2 2).mp h).2 rfl⟩

end Fs

end Xv6
