import Xv6.Fs.Icache

/-!
# Linking a name into a directory

`dirlink` refuses a name `dirlookup` finds.  Otherwise it looks for the first
empty entry of the directory, or its end, and writes there an entry holding
the name, as `strncpy` copies it, and the inode.  A directory is read and
written through `readi` and `writei`, so under `Owned` and for a held entry
the two loops keep the directory's bytes, and the write splices the new entry
over them.  A `dirlookup` of the name afterwards passes over the entries
before the new one, as the refused lookup did, and hands the new entry's
inode to `iget`: what is linked is found.
-/

namespace Xv6

namespace Fs

open Bytes State Function Splice

/-!
## The model
-/

/-- `dirlink`'s loop over the entries from `off`, for as many entries as the
directory had when it started: the offset of the first empty entry, or of the
end, and the entry read last.  `none` is `panic("dirlink read")`. -/
def linkLoop (i : Fin NINODE) : Nat → State → Nat → Bytes → Option (State × Nat × Bytes)
  | 0, s, off, de => some (s, off, de)
  | k + 1, s, off, de =>
      if off < (s.icache i).size then
        match readi s i (UInt32.ofNat off) (UInt32.ofNat DIRENTSIZE) with
        | none => none
        | some (s, r, d) =>
            if r ≠ DIRENTSIZE then none
            else if getLE (ofList d) 0 2 = 0 then some (s, off, ofList d)
            else linkLoop i k s (off + DIRENTSIZE) (ofList d)
      else some (s, off, de)

/-- The entry `dirlink` writes: the `struct dirent` read last, after
`strncpy(de.name, name, DIRSIZ)` and `de.inum = inum`, which keeps the low
sixteen bits. -/
def fillEntry (de name : Bytes) (inum : Nat) : Bytes :=
  setLE (fun k => if 2 ≤ k then strncpy (fun j => de (2 + j)) name DIRSIZ (k - 2) else de k) 0 inum 2

/-- `dirlink`: `-1` after `iput` of what `dirlookup` finds for `name`; else
`0`, with the new entry written at the first empty entry or at the end.
`none` is a panic.  Every byte written is set first, so the bytes the stack
gives `de` do not matter: the model starts it at zero. -/
def dirlink (s : State) (i : Fin NINODE) (name : Bytes) (inum : Nat) : Option (State × Int) :=
  match dirlookup s i name with
  | none => none
  | some (s, some (ip, _)) => (iput s ip).map fun s => (s, -1)
  | some (s, none) =>
      (linkLoop i (((s.icache i).size + DIRENTSIZE - 1) / DIRENTSIZE) s 0 fun _ => 0).bind fun (s, off, de) =>
        match writei s i (fillEntry de name inum) (UInt32.ofNat off) (UInt32.ofNat DIRENTSIZE) with
        | none => none
        | some (s, r) => if r ≠ DIRENTSIZE then none else some (s, 0)  -- `panic("dirlink")`

variable {s s' t : State} {i : Fin NINODE} {name : Bytes} {k off : Nat}

theorem linkLoop_of_size_le {de : Bytes} (hoff : (s.icache i).size ≤ off) :
    linkLoop i k s off de = some (s, off, de) := by
  cases k with
  | zero => rfl
  | succ k => simp [linkLoop, Nat.not_lt.mpr hoff]

theorem linkLoop_of_read {de : Bytes} {d : List UInt8} (hoff : off < (s.icache i).size)
    (hr : readi s i (UInt32.ofNat off) (UInt32.ofNat DIRENTSIZE) = some (s', (DIRENTSIZE : Int), d)) :
    linkLoop i (k + 1) s off de =
      if getLE (ofList d) 0 2 = 0 then some (s', off, ofList d) else linkLoop i k s' (off + DIRENTSIZE) (ofList d) := by
  simp [linkLoop, hoff, hr]

theorem lookupLoop_of_match {d : List UInt8} (hoff : off < (s.icache i).size)
    (hr : readi s i (UInt32.ofNat off) (UInt32.ofNat DIRENTSIZE) = some (s', (DIRENTSIZE : Int), d))
    (h0 : getLE (ofList d) 0 2 ≠ 0) (hname : strncmp name (fun j => ofList d (2 + j)) DIRSIZ = 0) :
    lookupLoop i name (k + 1) s off =
      (iget s' (s'.icache i).dev (getLE (ofList d) 0 2)).map fun (t, j) => (t, some (j, off)) := by
  simp [lookupLoop, hoff, hr, h0, hname]

/-!
## Entries
-/

/-- The bytes of the entry at `off` of a directory's bytes. -/
def entryAt (l : List UInt8) (off : Nat) : List UInt8 :=
  (l.drop off).take DIRENTSIZE

/-- An entry a lookup of `name` passes over: empty, or of another name. -/
def Skips (name : Bytes) (d : List UInt8) : Prop :=
  getLE (ofList d) 0 2 = 0 ∨ strncmp name (fun j => ofList d (2 + j)) DIRSIZ ≠ 0

/-- Each name is held by at most one entry in use of a directory's bytes, so
the entry `dirlookup` finds for it is the only one it could find. -/
def UniqueNames (l : List UInt8) : Prop :=
  ∀ name o o', o % DIRENTSIZE = 0 → o' % DIRENTSIZE = 0 → o + DIRENTSIZE ≤ l.length → o' + DIRENTSIZE ≤ l.length →
    ¬Skips name (entryAt l o) → ¬Skips name (entryAt l o') → o = o'

theorem getElem?_entryAt (l : List UInt8) (o j : Nat) :
    (entryAt l o)[j]? = if j < DIRENTSIZE then l[o + j]? else none := by
  rw [entryAt, List.getElem?_take, List.getElem?_drop]

theorem entryAt_splice_of_disjoint {l src : List UInt8} {o : Nat} (hoff : off ≤ l.length)
    (h : o + DIRENTSIZE ≤ off ∨ off + src.length ≤ o) : entryAt (splice l off src) o = entryAt l o := by
  apply List.ext_getElem?
  intro j
  rw [getElem?_entryAt, getElem?_entryAt, getElem?_splice hoff]
  by_cases hj : j < DIRENTSIZE
  · rw [if_pos hj, if_pos hj, if_neg (by omega)]
  · rw [if_neg hj, if_neg hj]

theorem entryAt_splice_self {l src : List UInt8} (hoff : off ≤ l.length) (hlen : src.length = DIRENTSIZE) :
    entryAt (splice l off src) off = src := by
  rw [entryAt, ← hlen]
  exact take_drop_splice hoff

theorem add_entry_le {o n : Nat} (ho : o % DIRENTSIZE = 0) (hn : n % DIRENTSIZE = 0) (h : o < n) :
    o + DIRENTSIZE ≤ n := by
  unfold DIRENTSIZE at *
  omega

theorem getLE_fillEntry (de name : Bytes) (inum : Nat) : getLE (fillEntry de name inum) 0 2 = inum % 2 ^ 16 := by
  rw [fillEntry, getLE_setLE_self]
  norm_num

theorem fillEntry_name (de name : Bytes) (inum : Nat) {k : Nat} (hk : 2 ≤ k) :
    fillEntry de name inum k = strncpy (fun j => de (2 + j)) name DIRSIZ (k - 2) := by
  rw [fillEntry, setLE_of_le (by omega), if_pos hk]

theorem fillEntry_inum (de name : Bytes) {inum : Nat} (hinum : inum < 2 ^ 16) :
    getLE (ofList ((List.range DIRENTSIZE).map (fillEntry de name inum))) 0 2 = inum := by
  rw [getLE_ofList_map_range (by decide), getLE_fillEntry, Nat.mod_eq_of_lt hinum]

theorem fillEntry_name_eq (de name : Bytes) (inum : Nat) :
    strncmp name (fun j => ofList ((List.range DIRENTSIZE).map (fillEntry de name inum)) (2 + j)) DIRSIZ = 0 := by
  rw [← strncmp_strncpy (fun j => de (2 + j)) name DIRSIZ]
  apply strncmp_congr_right
  intro j hj
  rw [ofList_map_range (by unfold DIRENTSIZE DIRSIZ at *; omega), fillEntry_name _ _ _ (by omega),
    Nat.add_sub_cancel_left]

/-!
## Reading entries
-/

theorem Owned.held_size (hs : Owned s) (hi : (s.icache i).held) : (s.icache i).size ≤ MAXFILE * BSIZE := by
  have h := hs.size (hs.held_allocated hi)
  rwa [hs.current_eq hi] at h

theorem Owned.held_size_lt (hs : Owned s) (hi : (s.icache i).held) : (s.icache i).size < 2 ^ 32 := by
  have h := hs.held_size hi
  have hmax : MAXFILE * BSIZE < 2 ^ 32 := by unfold MAXFILE NINDIRECT NDIRECT BSIZE; omega
  omega

theorem Owned.readi_entry_loop (hs : Owned s) (hi : (s.icache i).held) (hdev : (s.icache i).type ≠ T_DEV)
    (hsz : off + DIRENTSIZE ≤ (s.icache i).size) :
    readi s i (UInt32.ofNat off) (UInt32.ofNat DIRENTSIZE) =
      (readLoop i s off 0 DIRENTSIZE []).map fun (s, d) => (s, (DIRENTSIZE : Int), d) := by
  have hsize := hs.held_size_lt hi
  have hlt : off < 2 ^ 32 := by omega
  have hoff : (UInt32.ofNat off).toNat = off := UInt32.toNat_ofNat_of_lt' hlt
  have hn : (UInt32.ofNat DIRENTSIZE).toNat = DIRENTSIZE := rfl
  have hbad : ¬(off > (s.icache i).size ∨ UInt32.ofNat off + UInt32.ofNat DIRENTSIZE < UInt32.ofNat off) := by
    rw [wraps_iff, hoff, hn]
    omega
  have hclamp : ¬(off + DIRENTSIZE > (s.icache i).size) := by omega
  have hr : CInt.ofUInt DIRENTSIZE = (DIRENTSIZE : Int) := by decide
  simp only [readi, hoff, hn, if_neg hdev, if_neg hbad, if_neg hclamp, hr]

theorem Owned.readi_entry_keeps (hs : Owned s) (hi : (s.icache i).held) (hdev : (s.icache i).type ≠ T_DEV)
    (hsz : off + DIRENTSIZE ≤ (s.icache i).size) {r : Int} {d : List UInt8}
    (h : readi s i (UInt32.ofNat off) (UInt32.ofNat DIRENTSIZE) = some (s', r, d)) :
    r = DIRENTSIZE ∧ d = entryAt (content s (s.icache i).inum) off ∧ Keeps s i s' ∧
      byteAt s'.disk (s'.icache i).toDinode = byteAt s.disk (s.icache i).toDinode ∧
      ∀ x, off ≤ x → x < off + DIRENTSIZE → blockOf s'.disk (s'.icache i).toDinode (x / BSIZE) ≠ 0 := by
  rw [hs.readi_entry_loop hi hdev hsz] at h
  obtain ⟨⟨s₁, d₁⟩, hrun, he⟩ := Option.map_eq_some_iff.mp h
  simp only [Prod.mk.injEq] at he
  obtain ⟨rfl, rfl, rfl⟩ := he
  obtain ⟨hk, hbytes, hdst, hm⟩ := readLoop_keeps _ _ s off 0 [] rfl hs hi hrun
  rw [Nat.sub_zero] at hdst hm
  refine ⟨rfl, ?_, hk, hbytes, hm⟩
  rw [hdst, List.nil_append, entryAt, hs.content_held hi, take_drop_map_range, min_eq_left (by omega)]

theorem Owned.readi_entry_of_mapped (hs : Owned s) (hi : (s.icache i).held) (hdev : (s.icache i).type ≠ T_DEV)
    (hsz : off + DIRENTSIZE ≤ (s.icache i).size)
    (hm : ∀ x, off ≤ x → x < off + DIRENTSIZE → blockOf s.disk (s.icache i).toDinode (x / BSIZE) ≠ 0) :
    readi s i (UInt32.ofNat off) (UInt32.ofNat DIRENTSIZE) =
      some (s, (DIRENTSIZE : Int), entryAt (content s (s.icache i).inum) off) := by
  rw [hs.readi_entry_loop hi hdev hsz, readLoop_of_mapped DIRENTSIZE _ off 0 [] rfl hm, Nat.sub_zero,
    List.nil_append, entryAt, hs.content_held hi, take_drop_map_range, min_eq_left (by omega)]
  rfl

theorem Owned.readi_short (hs : Owned s) (hi : (s.icache i).held) (hdev : (s.icache i).type ≠ T_DEV)
    (hoff : off < (s.icache i).size) (hend : (s.icache i).size < off + DIRENTSIZE) {r : Int} {d : List UInt8}
    (h : readi s i (UInt32.ofNat off) (UInt32.ofNat DIRENTSIZE) = some (s', r, d)) : r ≠ DIRENTSIZE := by
  have hsize := hs.held_size hi
  have hmax : MAXFILE * BSIZE + DIRENTSIZE < 2 ^ 32 := by unfold MAXFILE NINDIRECT NDIRECT BSIZE DIRENTSIZE; omega
  have hoffN : (UInt32.ofNat off).toNat = off := UInt32.toNat_ofNat_of_lt' (show off < 2 ^ 32 by omega)
  have hn : (UInt32.ofNat DIRENTSIZE).toNat = DIRENTSIZE := rfl
  have hbad : ¬(off > (s.icache i).size ∨ UInt32.ofNat off + UInt32.ofNat DIRENTSIZE < UInt32.ofNat off) := by
    rw [wraps_iff, hoffN, hn]
    omega
  have hclamp : off + DIRENTSIZE > (s.icache i).size := hend
  simp only [readi, hoffN, hn, if_neg hdev, if_neg hbad, if_pos hclamp] at h
  obtain ⟨_, -, he⟩ := Option.map_eq_some_iff.mp h
  -- the count is what is left of the file
  rw [← (Prod.mk.inj (Prod.mk.inj he).2).1, CInt.ofUInt_of_lt (by unfold DIRENTSIZE at hend; omega)]
  omega

theorem lookupLoop_of_short {k : Nat} {d : List UInt8} {r : Int} (hoff : off < (s.icache i).size)
    (hr : readi s i (UInt32.ofNat off) (UInt32.ofNat DIRENTSIZE) = some (s', r, d)) (hne : r ≠ DIRENTSIZE) :
    lookupLoop i name (k + 1) s off = none := by
  simp [lookupLoop, hoff, hr, hne]

/-!
## The two loops
-/

/-- A lookup that finds nothing has passed over every entry from `off`, kept
the directory's bytes, and left a block under each byte it read; the
directory holds whole entries, or `readi` of the last would have panicked. -/
theorem lookupLoop_none (k : Nat) :
    ∀ (t : State) (off : Nat), Owned t → (t.icache i).held → (t.icache i).type ≠ T_DEV →
      off % DIRENTSIZE = 0 → (t.icache i).size ≤ off + DIRENTSIZE * k →
      ∀ {t'}, lookupLoop i name k t off = some (t', none) →
        Keeps t i t' ∧ byteAt t'.disk (t'.icache i).toDinode = byteAt t.disk (t.icache i).toDinode ∧
          (off ≤ (t.icache i).size → (t.icache i).size % DIRENTSIZE = 0) ∧
          (∀ o, off ≤ o → o + DIRENTSIZE ≤ (t.icache i).size → o % DIRENTSIZE = 0 →
            Skips name (entryAt (content t (t.icache i).inum) o)) ∧
          ∀ x, off ≤ x → x < (t.icache i).size → blockOf t'.disk (t'.icache i).toDinode (x / BSIZE) ≠ 0 := by
  have hD : 0 < DIRENTSIZE := by decide
  induction k with
  | zero =>
      intro t off hs _ _ hal hend t' h
      rw [lookupLoop_of_size_le (by omega)] at h
      obtain ⟨rfl, -⟩ := Prod.mk.inj (Option.some.inj h)
      refine ⟨Keeps.refl hs, rfl, fun hle => ?_, fun o ho ho' _ => by omega, fun x hx hx' => by omega⟩
      rw [show (t.icache i).size = off by omega]
      exact hal
  | succ k ih =>
      intro t off hs hi hdev hal hend t' h
      by_cases hoff : off < (t.icache i).size
      · cases hr : readi t i (UInt32.ofNat off) (UInt32.ofNat DIRENTSIZE) with
        | none => simp [lookupLoop, hoff, hr] at h
        | some p =>
            obtain ⟨t₁, r, d⟩ := p
            by_cases hsz : off + DIRENTSIZE ≤ (t.icache i).size
            swap
            · -- a last entry cut short: `panic("dirlookup read")`
              rw [lookupLoop_of_short hoff hr (hs.readi_short hi hdev hoff (by omega) hr)] at h
              cases h
            obtain ⟨rfl, hd, hk₁, hb₁, hm₁⟩ := hs.readi_entry_keeps hi hdev hsz hr
            by_cases hskip : Skips name d
            · -- passed over: the rest of the lookup runs from the next entry
              rw [lookupLoop_of_skip hoff hr hskip] at h
              have hsize₁ := hk₁.same.size i
              rw [Nat.mul_succ] at hend
              obtain ⟨hk₂, hb₂, hwhole, hskips, hm₂⟩ := ih t₁ (off + DIRENTSIZE) hk₁.owned
                ((hk₁.same.held_iff i).mpr hi) (by rw [hk₁.same.type i]; exact hdev)
                (by rw [Nat.add_mod_right]; exact hal) (by omega) h
              have hc₁ := hk₁.content_self hs hi hb₁
              rw [hsize₁] at hwhole
              refine ⟨hk₁.trans hk₂, hb₂.trans hb₁, fun _ => hwhole hsz, fun o ho ho' hoal => ?_,
                fun x hx hx' => ?_⟩
              · rcases Nat.eq_or_lt_of_le ho with rfl | hlt
                · rw [← hd]
                  exact hskip
                · have hskip' := hskips o (add_entry_le hal hoal hlt) (by omega) hoal
                  rwa [hk₁.same.inum_eq i, hc₁] at hskip'
              · by_cases hin : x < off + DIRENTSIZE
                · rw [hk₂.mapped _ (hm₁ x hx hin)]
                  exact hm₁ x hx hin
                · exact hm₂ x (by omega) (by omega)
            · -- an entry in use of the name: the lookup finds it
              have h0 : getLE (ofList d) 0 2 ≠ 0 := fun h0 => hskip (.inl h0)
              have hname : strncmp name (fun j => ofList d (2 + j)) DIRSIZ = 0 :=
                Classical.not_not.mp fun hne => hskip (.inr hne)
              rw [lookupLoop_of_match hoff hr h0 hname] at h
              obtain ⟨⟨t₂, j⟩, -, hp⟩ := Option.map_eq_some_iff.mp h
              simp at hp
      · rw [lookupLoop_of_size_le (by omega)] at h
        obtain ⟨rfl, -⟩ := Prod.mk.inj (Option.some.inj h)
        refine ⟨Keeps.refl hs, rfl, fun hle => ?_, fun o ho ho' _ => by omega, fun x hx hx' => by omega⟩
        rw [show (t.icache i).size = off by omega]
        exact hal

theorem linkLoop_keeps (k : Nat) :
    ∀ (t : State) (off : Nat) (de : Bytes), Owned t → (t.icache i).held → (t.icache i).type ≠ T_DEV →
      off ≤ (t.icache i).size → off % DIRENTSIZE = 0 → (t.icache i).size % DIRENTSIZE = 0 →
      (t.icache i).size ≤ off + DIRENTSIZE * k →
      ∀ {t' off' de'}, linkLoop i k t off de = some (t', off', de') →
        Keeps t i t' ∧ byteAt t'.disk (t'.icache i).toDinode = byteAt t.disk (t.icache i).toDinode ∧
          off' ≤ (t.icache i).size ∧ off' % DIRENTSIZE = 0 ∧
          (off' < (t.icache i).size → getLE (ofList (entryAt (content t (t.icache i).inum) off')) 0 2 = 0) := by
  induction k with
  | zero =>
      intro t off de hs _ _ hle hal _ hend t' off' de' h
      rw [linkLoop_of_size_le (by omega)] at h
      obtain ⟨rfl, h'⟩ := Prod.mk.inj (Option.some.inj h)
      obtain ⟨rfl, -⟩ := Prod.mk.inj h'
      exact ⟨Keeps.refl hs, rfl, hle, hal, fun hlt => absurd hlt (by omega)⟩
  | succ k ih =>
      intro t off de hs hi hdev hle hal hsal hend t' off' de' h
      by_cases hoff : off < (t.icache i).size
      · have hsz := add_entry_le hal hsal hoff
        cases hr : readi t i (UInt32.ofNat off) (UInt32.ofNat DIRENTSIZE) with
        | none => simp [linkLoop, hoff, hr] at h
        | some p =>
            obtain ⟨t₁, r, d⟩ := p
            obtain ⟨rfl, hd, hk₁, hb₁, -⟩ := hs.readi_entry_keeps hi hdev hsz hr
            have hsize₁ := hk₁.same.size i
            rw [linkLoop_of_read hoff hr] at h
            split at h
            · -- an empty entry: the new one goes there
              rename_i hempty
              obtain ⟨rfl, h'⟩ := Prod.mk.inj (Option.some.inj h)
              obtain ⟨rfl, -⟩ := Prod.mk.inj h'
              exact ⟨hk₁, hb₁, hle, hal, fun _ => hd ▸ hempty⟩
            · rw [Nat.mul_succ] at hend
              obtain ⟨hk₂, hb₂, hle₂, hal₂, hempty₂⟩ := ih t₁ (off + DIRENTSIZE) (ofList d) hk₁.owned
                ((hk₁.same.held_iff i).mpr hi) (by rw [hk₁.same.type i]; exact hdev) (by omega)
                (by rw [Nat.add_mod_right]; exact hal) (by rw [hsize₁]; exact hsal) (by omega) h
              rw [hsize₁, hk₁.same.inum_eq i, hk₁.content_self hs hi hb₁] at hempty₂
              exact ⟨hk₁.trans hk₂, hb₂.trans hb₁, by omega, hal₂, hempty₂⟩
      · rw [linkLoop_of_size_le (by omega)] at h
        obtain ⟨rfl, h'⟩ := Prod.mk.inj (Option.some.inj h)
        obtain ⟨rfl, -⟩ := Prod.mk.inj h'
        exact ⟨Keeps.refl hs, rfl, hle, hal, fun hlt => absurd hlt hoff⟩

/-!
## What a `dirlink` that returns `0` did
-/

/-- What a `dirlink` of `name` and `inum` into entry `i` that returns `0`
leaves, with `off` where it wrote: the invariant, the inodes in use and
every other inode of the disk; the directory, held, grown to cover the new
entry and with a block under each of its bytes up to the entry's end; every
entry of the old directory passed over by a lookup of `name`; the new entry
over the old bytes, at an empty entry or at the end. -/
structure Linked (s : State) (i : Fin NINODE) (name : Bytes) (inum : Nat) (s' : State) (off : Nat) : Prop where
  owned : Owned s'
  allocated_iff : ∀ inum', allocated s' inum' ↔ allocated s inum'
  others : ∀ inum' < s.sb.ninodes, inum' ≠ (s.icache i).inum → content s' inum' = content s inum'
  held : (s'.icache i).held
  inode : (s'.icache i).inum = (s.icache i).inum
  type : (s'.icache i).type = (s.icache i).type
  size : (s'.icache i).size = max (s.icache i).size (off + DIRENTSIZE)
  aligned : off % DIRENTSIZE = 0
  within : off ≤ (s.icache i).size
  empty : off < (s.icache i).size → getLE (ofList (entryAt (content s (s.icache i).inum) off)) 0 2 = 0
  skips : ∀ o, o + DIRENTSIZE ≤ (s.icache i).size → o % DIRENTSIZE = 0 →
    Skips name (entryAt (content s (s.icache i).inum) o)
  written : ∃ de, content s' (s.icache i).inum =
    splice (content s (s.icache i).inum) off ((List.range DIRENTSIZE).map (fillEntry de name inum))
  mapped : ∀ x, x < off + DIRENTSIZE → blockOf s'.disk (s'.icache i).toDinode (x / BSIZE) ≠ 0

/-- A `dirlink` that returns `0`: its first lookup found nothing, its loop
stopped at an empty entry or at the end, and its `writei` wrote the whole
entry there. -/
theorem Owned.dirlink_linked (hs : Owned s) (hi : (s.icache i).held) (hdir : (s.icache i).type = T_DIR)
    {inum : Nat} (h : dirlink s i name inum = some (s', 0)) :
    ∃ off, Linked s i name inum s' off := by
  have hdev : (s.icache i).type ≠ T_DEV := by rw [hdir]; decide
  have hfuel : ∀ sz, sz ≤ 0 + DIRENTSIZE * ((sz + DIRENTSIZE - 1) / DIRENTSIZE) := by
    intro sz
    unfold DIRENTSIZE
    omega
  unfold dirlink at h
  split at h
  · cases h
  · obtain ⟨_, -, he⟩ := Option.map_eq_some_iff.mp h
    exact absurd (Prod.mk.inj he).2 (by decide)
  rename_i t₁ hlook
  -- the lookup `dirlink` makes first passes over every entry
  rw [dirlookup, if_neg (not_not.mpr hdir)] at hlook
  obtain ⟨hk₁, hb₁, hwhole, hskips, hm₁⟩ := lookupLoop_none _ s 0 hs hi hdev (by decide) (hfuel _) hlook
  have hal := hwhole (Nat.zero_le _)
  have hi₁ := (hk₁.same.held_iff i).mpr hi
  have hsize₁ := hk₁.same.size i
  have hc₁ := hk₁.content_self hs hi hb₁
  -- then `dirlink`'s loop finds where the new entry goes
  obtain ⟨⟨t₂, off, de⟩, hlink, hw⟩ := Option.bind_eq_some_iff.mp h
  obtain ⟨hk₂, hb₂, hle, hoal, hempty⟩ := linkLoop_keeps _ t₁ 0 _ hk₁.owned hi₁
    (by rw [hk₁.same.type i]; exact hdev) (Nat.zero_le _) (by decide) (by rw [hsize₁]; exact hal) (hfuel _) hlink
  have hi₂ := (hk₂.same.held_iff i).mpr hi₁
  have hc₂ : content t₂ (t₂.icache i).inum = content s (s.icache i).inum := by
    rw [hk₂.same.inum_eq i, hk₂.content_self hk₁.owned hi₁ hb₂, hk₁.same.inum_eq i, hc₁]
  rw [hsize₁, hk₁.same.inum_eq i, hc₁] at hempty
  rw [hsize₁] at hle
  dsimp only at hw
  split at hw
  · cases hw
  rename_i s₃ r hwrite
  split at hw
  · cases hw
  rename_i hr
  have hs₃ := (Prod.mk.inj (Option.some.inj hw)).1
  subst s₃
  -- a write that cannot be made returns `-1`, on which `dirlink` panics
  have hoffN : (UInt32.ofNat off).toNat = off := UInt32.toNat_ofNat_of_lt' (lt_of_le_of_lt hle (hs.held_size_lt hi))
  have hn : (UInt32.ofNat DIRENTSIZE).toNat = DIRENTSIZE := rfl
  have hok : (UInt32.ofNat off).toNat ≤ (t₂.icache i).size ∧
      (UInt32.ofNat off).toNat + (UInt32.ofNat DIRENTSIZE).toNat ≤ MAXFILE * BSIZE := by
    by_contra hbad
    exact hr (by rw [(writei_of_not_ok hwrite hbad).1]; decide)
  obtain ⟨-, hwr⟩ := hk₂.owned.writei_wrote hi₂ hwrite hok
  rw [hoffN, hn] at hwr
  have hinum₂ : (t₂.icache i).inum = (s.icache i).inum := (hk₂.same.inum_eq i).trans (hk₁.same.inum_eq i)
  refine ⟨off, hwr.owned, fun _ => (hwr.allocated_iff _).trans (hk₂.allocated_iff.trans hk₁.allocated_iff),
    fun inum' hlt hne => ?_, hwr.held, hwr.inum.trans hinum₂,
    hwr.type.trans ((hk₂.same.type i).trans (hk₁.same.type i)), by rw [hwr.size, hk₂.same.size i, hsize₁], hoal,
    hle, hempty, fun o ho hoal' => hskips o (Nat.zero_le o) ho hoal', ⟨de, ?_⟩, fun x hx => ?_⟩
  · -- no other inode of the disk changes
    have hlt₁ : inum' < t₁.sb.ninodes := by rw [hk₁.sb]; exact hlt
    rw [hwr.others inum' (by rw [hk₂.sb, hk₁.sb]; exact hlt) (by rw [hinum₂]; exact hne),
      hk₂.content_eq hlt₁ (by rw [hk₁.same.inum_eq i]; exact hne), hk₁.content_eq hlt hne]
  · -- the new entry over the directory's bytes
    have hw' := hwr.content hk₂.owned hi₂ (by rw [hk₂.same.size i, hsize₁]; exact hle)
    rw [hc₂, hinum₂] at hw'
    exact hw'
  · -- a block under each byte up to the new entry's end: the old ones kept, the new ones written
    by_cases hlo : off ≤ x
    · exact hwr.mapped x hlo hx
    · have h₁ := hm₁ x (Nat.zero_le x) (by omega)
      have h₂ : blockOf t₂.disk (t₂.icache i).toDinode (x / BSIZE) ≠ 0 := by
        rw [hk₂.mapped _ h₁]
        exact h₁
      rw [hwr.kept _ h₂]
      exact h₂

theorem Linked.off_le_length {inum : Nat} (hl : Linked s i name inum s' off) (hs : Owned s)
    (hi : (s.icache i).held) : off ≤ (content s (s.icache i).inum).length := by
  rw [hs.content_held hi, List.length_map, List.length_range]
  exact hl.within

/-- Every aligned entry but the new one keeps its bytes. -/
theorem Linked.entryAt_of_ne {inum o : Nat} (hl : Linked s i name inum s' off) (hs : Owned s)
    (hi : (s.icache i).held) (hoal : o % DIRENTSIZE = 0) (hne : o ≠ off) :
    entryAt (content s' (s.icache i).inum) o = entryAt (content s (s.icache i).inum) o := by
  obtain ⟨de, hc'⟩ := hl.written
  -- two aligned entries that differ do not overlap
  have hsep : o + DIRENTSIZE ≤ off ∨ off + DIRENTSIZE ≤ o := by
    have := hl.aligned
    unfold DIRENTSIZE at *
    omega
  rw [hc', entryAt_splice_of_disjoint (hl.off_le_length hs hi) (by rw [List.length_map, List.length_range]; exact hsep)]

theorem Linked.entryAt_self {inum : Nat} (hl : Linked s i name inum s' off) (hs : Owned s)
    (hi : (s.icache i).held) :
    ∃ de, entryAt (content s' (s.icache i).inum) off = (List.range DIRENTSIZE).map (fillEntry de name inum) := by
  obtain ⟨de, hc'⟩ := hl.written
  exact ⟨de, by rw [hc', entryAt_splice_self (hl.off_le_length hs hi) (by simp)]⟩

/-- The new entry reads back whole at its offset. -/
theorem Linked.readi_entry {inum : Nat} (hl : Linked s i name inum s' off) (hs : Owned s)
    (hi : (s.icache i).held) (hdev : (s.icache i).type ≠ T_DEV) :
    ∃ de, readi s' i (UInt32.ofNat off) (UInt32.ofNat DIRENTSIZE) =
      some (s', (DIRENTSIZE : Int), (List.range DIRENTSIZE).map (fillEntry de name inum)) := by
  obtain ⟨de, hentry⟩ := hl.entryAt_self hs hi
  have hsz : off + DIRENTSIZE ≤ (s'.icache i).size := by
    rw [hl.size]
    exact le_max_right _ _
  refine ⟨de, ?_⟩
  rw [← hentry, ← hl.inode]
  exact hl.owned.readi_entry_of_mapped hl.held (by rw [hl.type]; exact hdev) hsz fun x _ hx => hl.mapped x hx

/-!
## Linking, then looking up
-/

/-- A name `dirlink` links into a held directory is found there afterwards:
`dirlookup` of it passes over the entries before the new one, as the lookup
`dirlink` made first did, and hands the inode linked to `iget`. -/
theorem Owned.dirlink_dirlookup (hs : Owned s) (hi : (s.icache i).held) (hdir : (s.icache i).type = T_DIR)
    {inum : Nat} (hinum : 0 < inum ∧ inum < 2 ^ 16)
    (h : dirlink s i name inum = some (s', 0)) :
    Owned s' ∧ ∃ off, dirlookup s' i name = (iget s' (s'.icache i).dev inum).map fun (t, j) => (t, some (j, off)) := by
  have hD : 0 < DIRENTSIZE := by decide
  obtain ⟨off, hl⟩ := hs.dirlink_linked hi hdir h
  have htype' : (s'.icache i).type = T_DIR := hl.type.trans hdir
  have hdev' : (s'.icache i).type ≠ T_DEV := by rw [htype']; decide
  obtain ⟨de, hread⟩ := hl.readi_entry hs hi (by rw [hdir]; decide)
  refine ⟨hl.owned, off, ?_⟩
  rw [dirlookup, if_neg (not_not.mpr htype')]
  obtain ⟨m, rfl⟩ : ∃ m, off = DIRENTSIZE * m :=
    ⟨off / DIRENTSIZE, (Nat.mul_div_cancel' (Nat.dvd_of_mod_eq_zero hl.aligned)).symm⟩
  have hK : m + 1 ≤ ((s'.icache i).size + DIRENTSIZE - 1) / DIRENTSIZE := by
    rw [hl.size]
    unfold DIRENTSIZE
    omega
  -- the entries before the new one are passed over, as the first lookup passed over them
  have hbefore : ∀ j < m, ∃ d, readi s' i (UInt32.ofNat (0 + DIRENTSIZE * j)) (UInt32.ofNat DIRENTSIZE) =
      some (s', (DIRENTSIZE : Int), d) ∧ Skips name d := by
    intro j hj
    have hjm : DIRENTSIZE * j + DIRENTSIZE ≤ DIRENTSIZE * m := by
      rw [← Nat.mul_succ]
      exact Nat.mul_le_mul_left _ hj
    rw [Nat.zero_add]
    refine ⟨_, hl.owned.readi_entry_of_mapped hl.held hdev' (by rw [hl.size]; omega)
      fun x _ hx => hl.mapped x (by omega), ?_⟩
    rw [hl.inode, hl.entryAt_of_ne hs hi (Nat.mul_mod_right _ _) (by omega)]
    exact hl.skips _ (by have := hl.within; omega) (Nat.mul_mod_right _ _)
  rw [lookupLoop_of_skips (by omega) (by rw [hl.size]; omega) hbefore, Nat.zero_add]
  -- then the new entry, which the lookup reads back
  obtain ⟨k, hk⟩ : ∃ k, ((s'.icache i).size + DIRENTSIZE - 1) / DIRENTSIZE - m = k + 1 :=
    ⟨_, (Nat.succ_pred_eq_of_pos (by omega)).symm⟩
  have hget := fillEntry_inum de name hinum.2
  have hname := fillEntry_name_eq de name inum
  rw [hk, lookupLoop_of_match (by rw [hl.size]; omega) hread (by rw [hget]; omega) hname, hget]

/-- `dirlink` never overwrites an entry in use: it writes the new entry over
an empty entry or at the end of the directory, the new entry holds the inode
linked, and every other entry of the directory and every other inode of the
disk keep their bytes. -/
theorem Owned.dirlink_fills_empty (hs : Owned s) (hi : (s.icache i).held) (hdir : (s.icache i).type = T_DIR)
    {inum : Nat} (hinum : inum < 2 ^ 16)
    (h : dirlink s i name inum = some (s', 0)) :
    Owned s' ∧ (∀ inum' < s.sb.ninodes, inum' ≠ (s.icache i).inum → content s' inum' = content s inum') ∧
      ∃ off, off % DIRENTSIZE = 0 ∧ off ≤ (s.icache i).size ∧
        (off < (s.icache i).size → getLE (ofList (entryAt (content s (s.icache i).inum) off)) 0 2 = 0) ∧
        getLE (ofList (entryAt (content s' (s.icache i).inum) off)) 0 2 = inum ∧
        ∀ o, o % DIRENTSIZE = 0 → o ≠ off →
          entryAt (content s' (s.icache i).inum) o = entryAt (content s (s.icache i).inum) o := by
  obtain ⟨off, hl⟩ := hs.dirlink_linked hi hdir h
  obtain ⟨de, hentry⟩ := hl.entryAt_self hs hi
  refine ⟨hl.owned, hl.others, off, hl.aligned, hl.within, hl.empty, ?_,
    fun o hoal hne => hl.entryAt_of_ne hs hi hoal hne⟩
  rw [hentry]
  exact fillEntry_inum de name hinum

/-- `dirlink` keeps each name of a directory on at most one entry in use: it
refuses a name some entry holds, and writes over an empty entry or past the
end. -/
theorem Owned.dirlink_unique (hs : Owned s) (hi : (s.icache i).held) (hdir : (s.icache i).type = T_DIR)
    {inum : Nat} (h : dirlink s i name inum = some (s', 0)) (hu : UniqueNames (content s (s.icache i).inum)) :
    UniqueNames (content s' (s.icache i).inum) := by
  obtain ⟨off, hl⟩ := hs.dirlink_linked hi hdir h
  have hsize : (content s (s.icache i).inum).length = (s.icache i).size := by
    rw [hs.content_held hi, List.length_map, List.length_range]
  have hlen' : (content s' (s.icache i).inum).length = max (s.icache i).size (off + DIRENTSIZE) := by
    rw [← hl.inode, hl.owned.content_held hl.held, List.length_map, List.length_range, hl.size]
  -- an entry other than the new one is an entry of the old directory, unchanged
  have hold : ∀ o, o % DIRENTSIZE = 0 → o + DIRENTSIZE ≤ (content s' (s.icache i).inum).length → o ≠ off →
      o + DIRENTSIZE ≤ (content s (s.icache i).inum).length ∧
        entryAt (content s' (s.icache i).inum) o = entryAt (content s (s.icache i).inum) o := by
    intro o hoal hlo hne
    refine ⟨?_, hl.entryAt_of_ne hs hi hoal hne⟩
    -- an aligned entry past the old end would start at or after `off`
    have hal := hl.aligned
    have hwithin := hl.within
    rw [hlen'] at hlo
    rw [hsize]
    unfold DIRENTSIZE at *
    omega
  obtain ⟨de, hentry⟩ := hl.entryAt_self hs hi
  -- no name the new entry holds is held by an entry in use of the old directory
  have hnew : ∀ name' o, o % DIRENTSIZE = 0 → o + DIRENTSIZE ≤ (content s (s.icache i).inum).length →
      ¬Skips name' (entryAt (content s' (s.icache i).inum) off) →
      ¬Skips name' (entryAt (content s (s.icache i).inum) o) → False := by
    intro name' o hoal hlo hn ho
    rw [hentry] at hn
    simp only [Skips, not_or, not_not] at hn ho
    rcases hl.skips o (hsize ▸ hlo) hoal with h0 | hne
    · exact ho.1 h0
    · -- `name` compares equal to the new entry's name, which compares equal to the old one's
      exact hne (strncmp_eq_zero_trans (strncmp_eq_zero_trans (fillEntry_name_eq de name inum)
        (strncmp_eq_zero_symm hn.2)) ho.2)
  intro name' o o' hoal hoal' hlo hlo' hno hno'
  by_cases ho : o = off <;> by_cases ho' : o' = off
  · rw [ho, ho']
  · obtain ⟨hlo₁, he⟩ := hold o' hoal' hlo' ho'
    rw [he] at hno'
    exact (hnew name' o' hoal' hlo₁ (ho ▸ hno) hno').elim
  · obtain ⟨hlo₁, he⟩ := hold o hoal hlo ho
    rw [he] at hno
    exact (hnew name' o hoal hlo₁ (ho' ▸ hno') hno).elim
  · obtain ⟨hlo₁, he⟩ := hold o hoal hlo ho
    obtain ⟨hlo₁', he'⟩ := hold o' hoal' hlo' ho'
    rw [he] at hno
    rw [he'] at hno'
    exact hu name' o o' hoal hoal' hlo₁ hlo₁' hno hno'

/-- A `dirlink` whose lookup found nothing and whose `writei` wrote the whole
entry returns `0`. -/
theorem dirlink_of_write {s₁ s₂ : State} {off inum : Nat} {de : Bytes} (hlook : dirlookup s i name = some (s, none))
    (hloop : linkLoop i (((s.icache i).size + DIRENTSIZE - 1) / DIRENTSIZE) s 0 (fun _ => 0) = some (s₁, off, de))
    (hw : writei s₁ i (fillEntry de name inum) (UInt32.ofNat off) (UInt32.ofNat DIRENTSIZE) =
      some (s₂, CInt.ofUInt (UInt32.ofNat DIRENTSIZE).toNat)) :
    dirlink s i name inum = some (s₂, 0) := by
  simp only [dirlink, hlook, hloop, Option.bind_some, hw]
  rw [if_neg (by decide)]

/-- `ialloc` of a directory and `ilock` of its entry: an empty directory, held,
whose first block `bmap` can hand out. -/
theorem exists_newDir :
    ∃ t, Run.exec call oneFile [.ialloc ROOTDEV T_DIR, .ilock 1] = some t ∧ Live t ∧ (t.icache 1).held ∧
      (t.icache 1).type = T_DIR ∧ (t.icache 1).size = 0 ∧ (bmap t 1 0).isSome := by
  obtain ⟨t, hrun, hheld, htype, hsize, hb⟩ : ∃ t, Run.exec call oneFile [.ialloc ROOTDEV T_DIR, .ilock 1] = some t ∧
      (t.icache 1).held ∧ (t.icache 1).type = T_DIR ∧ (t.icache 1).size = 0 ∧ (bmap t 1 0).isSome :=
    Run.exists_exec_of_map_decide _ (by decide)
  have hlive : Live t :=
    Run.exec_invariant_of_always (fun _ _ _ ha hs hc => hs.step ha hc) hrun (by decide) live_oneFile
  exact ⟨t, hrun, hlive, hheld, htype, hsize, hb⟩

theorem dirlink_newDir :
    ∃ t s', Run.exec call oneFile [.ialloc ROOTDEV T_DIR, .ilock 1] = some t ∧ Owned t ∧ (t.icache 1).held ∧
      (t.icache 1).type = T_DIR ∧ (t.icache 1).size = 0 ∧ dirlink t 1 (ofList [46]) 2 = some (s', 0) := by
  obtain ⟨t, hrun, hlive, hheld, htype, hsize, hb⟩ := exists_newDir
  -- the new directory is empty: the entry goes at its start, in the block `bmap` hands out
  have hlook : dirlookup t 1 (ofList [46]) = some (t, none) := by
    rw [dirlookup, if_neg (not_not.mpr htype), hsize]
    rfl
  have hloop : linkLoop 1 (((t.icache 1).size + DIRENTSIZE - 1) / DIRENTSIZE) t 0 (fun _ => 0) = some (t, 0, fun _ => 0) :=
    linkLoop_of_size_le (by rw [hsize])
  obtain ⟨⟨t₁, a⟩, hbmap⟩ := Option.isSome_iff_exists.mp hb
  obtain ⟨s', hw⟩ : ∃ s', writei t 1 (fillEntry (fun _ => 0) (ofList [46]) 2) (UInt32.ofNat 0) (UInt32.ofNat DIRENTSIZE) =
      some (s', CInt.ofUInt (UInt32.ofNat DIRENTSIZE).toNat) :=
    writei_of_writeLoop (by rw [htype]; decide) (by rw [hsize]; decide) (by decide)
      (writeLoop_one_block (by decide) (by decide) hbmap)
  exact ⟨t, s', hrun, hlive.owned, hheld, htype, hsize, dirlink_of_write hlook hloop hw⟩

theorem dirlink_dirlookup_on_newDir :
    ∃ t s', Run.exec call oneFile [.ialloc ROOTDEV T_DIR, .ilock 1] = some t ∧
      dirlink t 1 (ofList [46]) 2 = some (s', 0) ∧ Owned s' ∧
      ∃ off, dirlookup s' 1 (ofList [46]) = (iget s' (s'.icache 1).dev 2).map fun (u, j) => (u, some (j, off)) := by
  obtain ⟨t, s', hrun, hs, hheld, htype, hsize, hl⟩ := dirlink_newDir
  exact ⟨t, s', hrun, hl, hs.dirlink_dirlookup hheld htype ⟨by decide, by decide⟩ hl⟩

theorem dirlink_fills_empty_on_newDir :
    ∃ t s', Run.exec call oneFile [.ialloc ROOTDEV T_DIR, .ilock 1] = some t ∧
      dirlink t 1 (ofList [46]) 2 = some (s', 0) ∧ Owned s' ∧
      getLE (ofList (entryAt (content s' (t.icache 1).inum) 0)) 0 2 = 2 := by
  obtain ⟨t, s', hrun, hs, hheld, htype, hsize, hl⟩ := dirlink_newDir
  obtain ⟨hs', -, off, -, hle, -, hnew, -⟩ := hs.dirlink_fills_empty hheld htype (by decide) hl
  -- the new directory is empty, so the entry goes at its start
  have hoff : off = 0 := by omega
  exact ⟨t, s', hrun, hl, hs', hoff ▸ hnew⟩

theorem dirlink_newDir_dotdot :
    ∃ t s₁ s₂, Run.exec call oneFile [.ialloc ROOTDEV T_DIR, .ilock 1] = some t ∧
      dirlink t 1 (ofList [46]) 2 = some (s₁, 0) ∧ Owned s₁ ∧ (s₁.icache 1).held ∧
      (s₁.icache 1).type = T_DIR ∧ (s₁.icache 1).inum = (t.icache 1).inum ∧
      (content s₁ (s₁.icache 1).inum).length = DIRENTSIZE ∧ dirlink s₁ 1 (ofList [46, 46]) 1 = some (s₂, 0) := by
  obtain ⟨t, s₁, hrun, hs, hheld, htype, hsize, h₁⟩ := dirlink_newDir
  obtain ⟨off, hk⟩ := hs.dirlink_linked hheld htype h₁
  have hoff : off = 0 := by
    have := hk.within
    rw [hsize] at this
    omega
  subst hoff
  have hs₁ := hk.owned
  have htype₁ : (s₁.icache 1).type = T_DIR := hk.type.trans htype
  have hdev₁ : (s₁.icache 1).type ≠ T_DEV := by rw [htype₁]; decide
  have hsize₁ : (s₁.icache 1).size = DIRENTSIZE := by rw [hk.size, hsize]; rfl
  have hlen : (content s₁ (s₁.icache 1).inum).length = DIRENTSIZE := by
    rw [hs₁.content_held hk.held, List.length_map, List.length_range, hsize₁]
  -- the one entry is `.`, for inode 2
  obtain ⟨de, hread⟩ := hk.readi_entry hs hheld (by rw [htype]; decide)
  have hused : getLE (ofList ((List.range DIRENTSIZE).map (fillEntry de (ofList [46]) 2))) 0 2 ≠ 0 := by
    rw [fillEntry_inum _ _ (by decide)]
    decide
  have hother : strncmp (ofList [46, 46])
      (fun j => ofList ((List.range DIRENTSIZE).map (fillEntry de (ofList [46]) 2)) (2 + j)) DIRSIZ ≠ 0 := by
    intro h
    have hdot := strncmp_eq_zero_trans h (strncmp_eq_zero_symm (fillEntry_name_eq de (ofList [46]) 2))
    revert hdot
    decide
  have hfuel : ((s₁.icache 1).size + DIRENTSIZE - 1) / DIRENTSIZE = 0 + 1 := by rw [hsize₁]; rfl
  have hlook : dirlookup s₁ 1 (ofList [46, 46]) = some (s₁, none) := by
    rw [dirlookup, if_neg (not_not.mpr htype₁), hfuel, lookupLoop, if_pos (by rw [hsize₁]; decide), hread]
    simp only [ne_eq, not_true_eq_false, if_false, hused, hother, lookupLoop]
  have hloop : linkLoop 1 (((s₁.icache 1).size + DIRENTSIZE - 1) / DIRENTSIZE) s₁ 0 (fun _ => 0) =
      some (s₁, DIRENTSIZE, ofList ((List.range DIRENTSIZE).map (fillEntry de (ofList [46]) 2))) := by
    rw [hfuel, linkLoop_of_read (by rw [hsize₁]; decide) hread, if_neg hused,
      linkLoop_of_size_le (by rw [hsize₁, Nat.zero_add]), Nat.zero_add]
  -- `..` goes at the end, in the block that holds `.`
  have hbmap : bmap s₁ 1 ((UInt32.ofNat DIRENTSIZE).toNat / BSIZE) =
      some (s₁, blockOf s₁.disk (s₁.icache 1).toDinode ((UInt32.ofNat DIRENTSIZE).toNat / BSIZE)) :=
    bmap_of_blockOf_ne_zero (by decide) (hk.mapped 0 (by decide))
  obtain ⟨s₂, hw⟩ : ∃ s₂, writei s₁ 1 (fillEntry (ofList ((List.range DIRENTSIZE).map (fillEntry de (ofList [46]) 2)))
      (ofList [46, 46]) 1) (UInt32.ofNat DIRENTSIZE) (UInt32.ofNat DIRENTSIZE) =
      some (s₂, CInt.ofUInt (UInt32.ofNat DIRENTSIZE).toNat) :=
    writei_of_writeLoop hdev₁ (by rw [hsize₁]; decide) (by decide) (writeLoop_one_block (by decide) (by decide) hbmap)
  have h₂ := dirlink_of_write hlook hloop hw
  exact ⟨t, s₁, s₂, hrun, h₁, hs₁, hk.held, htype₁, hk.inode, hlen, h₂⟩

theorem dirlink_unique_on_dotdot :
    ∃ t s₁ s₂, Run.exec call oneFile [.ialloc ROOTDEV T_DIR, .ilock 1] = some t ∧
      dirlink t 1 (ofList [46]) 2 = some (s₁, 0) ∧ dirlink s₁ 1 (ofList [46, 46]) 1 = some (s₂, 0) ∧
      UniqueNames (content s₂ (t.icache 1).inum) := by
  obtain ⟨t, s₁, s₂, hrun, h₁, hs₁, hheld₁, htype₁, hinum₁, hlen, h₂⟩ := dirlink_newDir_dotdot
  -- the directory holds one entry, so no two of its entries share a name
  have hu : UniqueNames (content s₁ (s₁.icache 1).inum) := by
    intro name o o' _ _ hlo hlo'
    rw [hlen] at hlo hlo'
    omega
  have hu₂ := hs₁.dirlink_unique hheld₁ htype₁ h₂ hu
  rw [hinum₁] at hu₂
  exact ⟨t, s₁, s₂, hrun, h₁, h₂, hu₂⟩

end Fs

end Xv6
