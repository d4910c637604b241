import Xv6.Fs.Dirlink

/-!
# The directory calls of `sysfile.c`

`isdirempty`, which `sys_unlink` asks before it removes a directory, reads the
entries past `.` and `..` through `readi` and says whether all are empty.
-/

namespace Xv6

namespace Fs

open Bytes State Splice

/-- `isdirempty`'s loop over the entries from `off`: `0` at the first entry
in use, `1` past the last; `none` is `panic("isdirempty: readi")`. -/
def emptyLoop (dp : Fin NINODE) : Nat → State → Nat → Option (State × Int)
  | 0, s, _ => some (s, 1)
  | k + 1, s, off =>
      if off < (s.icache dp).size then
        match readi s dp (UInt32.ofNat off) (UInt32.ofNat DIRENTSIZE) with
        | none => none
        | some (s, r, de) =>
            if r ≠ DIRENTSIZE then none
            else if getLE (ofList de) 0 2 ≠ 0 then some (s, 0)
            else emptyLoop dp k s (off + DIRENTSIZE)
      else some (s, 1)

/-- `isdirempty`: are the entries past `.` and `..` all empty? -/
def isdirempty (s : State) (dp : Fin NINODE) : Option (State × Int) :=
  emptyLoop dp (((s.icache dp).size - 2 * DIRENTSIZE + DIRENTSIZE - 1) / DIRENTSIZE) s (2 * DIRENTSIZE)

variable {s s' : State} {dp : Fin NINODE} {k off : Nat}

theorem emptyLoop_of_size_le (hoff : (s.icache dp).size ≤ off) : emptyLoop dp k s off = some (s, 1) := by
  cases k with
  | zero => rfl
  | succ k => simp [emptyLoop, Nat.not_lt.mpr hoff]

theorem emptyLoop_of_read {d : List UInt8} (hoff : off < (s.icache dp).size)
    (hr : readi s dp (UInt32.ofNat off) (UInt32.ofNat DIRENTSIZE) = some (s', (DIRENTSIZE : Int), d)) :
    emptyLoop dp (k + 1) s off =
      if getLE (ofList d) 0 2 ≠ 0 then some (s', 0) else emptyLoop dp k s' (off + DIRENTSIZE) := by
  simp [emptyLoop, hoff, hr]

theorem emptyLoop_of_short {d : List UInt8} {r : Int} (hoff : off < (s.icache dp).size)
    (hr : readi s dp (UInt32.ofNat off) (UInt32.ofNat DIRENTSIZE) = some (s', r, d)) (hne : r ≠ DIRENTSIZE) :
    emptyLoop dp (k + 1) s off = none := by
  simp [emptyLoop, hoff, hr, hne]

theorem emptyLoop_spec (k : Nat) :
    ∀ (t : State) (off : Nat), Owned t → (t.icache dp).held → (t.icache dp).type ≠ T_DEV →
      off % DIRENTSIZE = 0 → (t.icache dp).size ≤ off + DIRENTSIZE * k →
      ∀ {t' r}, emptyLoop dp k t off = some (t', r) →
        Keeps t dp t' ∧ byteAt t'.disk (t'.icache dp).toDinode = byteAt t.disk (t.icache dp).toDinode ∧
          (r = 0 ∨ r = 1) ∧
          (r = 1 ↔ ∀ o, off ≤ o → o + DIRENTSIZE ≤ (t.icache dp).size → o % DIRENTSIZE = 0 →
            getLE (ofList (entryAt (content t (t.icache dp).inum) o)) 0 2 = 0) := by
  have hD : 0 < DIRENTSIZE := by decide
  induction k with
  | zero =>
      intro t off hs _ _ _ hend t' r h
      rw [emptyLoop_of_size_le (by omega)] at h
      obtain ⟨rfl, rfl⟩ := Prod.mk.inj (Option.some.inj h)
      exact ⟨Keeps.refl hs, rfl, .inr rfl, iff_of_true rfl fun o ho ho' _ => by omega⟩
  | succ k ih =>
      intro t off hs hi hdev hal hend t' r h
      by_cases hoff : off < (t.icache dp).size
      · cases hr : readi t dp (UInt32.ofNat off) (UInt32.ofNat DIRENTSIZE) with
        | none => simp [emptyLoop, hoff, hr] at h
        | some p =>
            obtain ⟨t₁, r₁, d⟩ := p
            by_cases hsz : off + DIRENTSIZE ≤ (t.icache dp).size
            swap
            · -- a last entry cut short: the panic
              rw [emptyLoop_of_short hoff hr (hs.readi_short hi hdev hoff (by omega) hr)] at h
              cases h
            obtain ⟨rfl, hd, hk₁, hb₁, -⟩ := hs.readi_entry_keeps hi hdev hsz hr
            rw [emptyLoop_of_read hoff hr] at h
            split at h
            · -- an entry in use: the directory is not empty
              rename_i hused
              obtain ⟨rfl, rfl⟩ := Prod.mk.inj (Option.some.inj h)
              refine ⟨hk₁, hb₁, .inl rfl, iff_of_false (by decide) fun hall => hused ?_⟩
              rw [hd]
              exact hall off le_rfl hsz hal
            · rename_i hfree
              rw [Nat.mul_succ] at hend
              obtain ⟨hk₂, hb₂, hr₂, hiff⟩ := ih t₁ (off + DIRENTSIZE) hk₁.owned ((hk₁.same.held_iff dp).mpr hi)
                (by rw [hk₁.same.type dp]; exact hdev) (by rw [Nat.add_mod_right]; exact hal)
                (by rw [hk₁.same.size dp]; omega) h
              rw [hk₁.same.size dp, hk₁.same.inum_eq dp, hk₁.content_self hs hi hb₁] at hiff
              refine ⟨hk₁.trans hk₂, hb₂.trans hb₁, hr₂, hiff.trans ⟨fun hall o ho ho' hoal => ?_,
                fun hall o ho ho' hoal => hall o (by omega) ho' hoal⟩⟩
              -- the entry read here is empty; the later ones are the rest of the loop's
              rcases Nat.eq_or_lt_of_le ho with rfl | hlt
              · rw [← hd]
                exact not_not.mp hfree
              · exact hall o (add_entry_le hal hoal hlt) ho' hoal
      · rw [emptyLoop_of_size_le (by omega)] at h
        obtain ⟨rfl, rfl⟩ := Prod.mk.inj (Option.some.inj h)
        exact ⟨Keeps.refl hs, rfl, .inr rfl, iff_of_true rfl fun o ho ho' _ => by omega⟩

/-- `isdirempty` of a held directory changes no file and no inode in use, and
returns `1` when every entry past `.` and `..` is empty, else `0`. -/
theorem Owned.isdirempty_iff (hs : Owned s) (hi : (s.icache dp).held) (hdev : (s.icache dp).type ≠ T_DEV)
    {r : Int} (h : isdirempty s dp = some (s', r)) :
    Owned s' ∧ (∀ inum, allocated s' inum ↔ allocated s inum) ∧
      (∀ inum < s.sb.ninodes, content s' inum = content s inum) ∧ (r = 0 ∨ r = 1) ∧
      (r = 1 ↔ ∀ o, 2 * DIRENTSIZE ≤ o → o + DIRENTSIZE ≤ (s.icache dp).size → o % DIRENTSIZE = 0 →
        getLE (ofList (entryAt (content s (s.icache dp).inum) o)) 0 2 = 0) := by
  have hfuel : (s.icache dp).size ≤
      2 * DIRENTSIZE + DIRENTSIZE * (((s.icache dp).size - 2 * DIRENTSIZE + DIRENTSIZE - 1) / DIRENTSIZE) := by
    unfold DIRENTSIZE
    omega
  obtain ⟨hk, hb, hr, hiff⟩ := emptyLoop_spec _ s _ hs hi hdev (by decide) hfuel h
  exact ⟨hk.owned, fun _ => hk.allocated_iff, fun inum hlt => hk.content_all hs hi hb hlt, hr, hiff⟩

theorem isdirempty_iff_on_entries :
    ∃ t s₁ r₁ s' r, Run.exec call oneFile [.ialloc ROOTDEV T_DIR, .ilock 1] = some t ∧
      writei t 1 (fun _ => 1) 0 48 = some (s₁, r₁) ∧ isdirempty s₁ 1 = some (s', r) ∧ Owned s' ∧ r = 0 ∧
      ¬∀ o, 2 * DIRENTSIZE ≤ o → o + DIRENTSIZE ≤ (s₁.icache 1).size → o % DIRENTSIZE = 0 →
        getLE (ofList (entryAt (content s₁ (s₁.icache 1).inum) o)) 0 2 = 0 := by
  obtain ⟨t, hrun, hlive, hheld, htype, hsize, hb⟩ := exists_newDir
  -- the three entries fit in the first block
  obtain ⟨⟨t₁, a⟩, hbmap⟩ := Option.isSome_iff_exists.mp hb
  have hdev : (t.icache 1).type ≠ T_DEV := by rw [htype]; decide
  obtain ⟨s₁, hw⟩ : ∃ s₁, writei t 1 (fun _ => 1) 0 48 = some (s₁, CInt.ofUInt (48 : UInt32).toNat) :=
    writei_of_writeLoop hdev (by rw [hsize]; decide) (by decide) (writeLoop_one_block (by decide) (by decide) hbmap)
  obtain ⟨-, hwr⟩ := hlive.owned.writei_wrote hheld hw ⟨by rw [hsize]; decide, by decide⟩
  have hsize₁ : (s₁.icache 1).size = 48 := by rw [hwr.size, hsize]; rfl
  have hdev₁ : (s₁.icache 1).type ≠ T_DEV := by rw [hwr.type]; exact hdev
  have hread : readi s₁ 1 (UInt32.ofNat (2 * DIRENTSIZE)) (UInt32.ofNat DIRENTSIZE) =
      some (s₁, (DIRENTSIZE : Int), entryAt (content s₁ (s₁.icache 1).inum) (2 * DIRENTSIZE)) :=
    hwr.owned.readi_entry_of_mapped hwr.held hdev₁ (by rw [hsize₁]; decide)
      fun x _ hx => hwr.mapped x (Nat.zero_le _) (by
        have hn : (0 : UInt32).toNat + (48 : UInt32).toNat = 48 := rfl
        unfold DIRENTSIZE at hx
        omega)
  -- the entry at `32` holds the bytes written, so its inode field is `0x0101`
  have hbyte : ∀ j < DIRENTSIZE, ofList (entryAt (content s₁ (s₁.icache 1).inum) (2 * DIRENTSIZE)) j = 1 := by
    intro j hj
    have hlt : 2 * DIRENTSIZE + j < 48 := by unfold DIRENTSIZE at hj ⊢; omega
    rw [ofList, List.getD_eq_getElem?_getD, getElem?_entryAt, if_pos hj, hwr.owned.content_held hwr.held,
      getElem?_map_range, if_pos (by rw [hsize₁]; exact hlt), Option.getD_some, hwr.bytes,
      if_pos ⟨Nat.zero_le _, hlt⟩]
  have hused : getLE (ofList (entryAt (content s₁ (s₁.icache 1).inum) (2 * DIRENTSIZE))) 0 2 ≠ 0 := by
    have hfield : getLE (ofList (entryAt (content s₁ (s₁.icache 1).inum) (2 * DIRENTSIZE))) 0 2 =
        getLE (fun _ => 1) 0 2 :=
      getLE_congr fun k _ hk => hbyte k (by unfold DIRENTSIZE; omega)
    rw [hfield]
    decide
  have hfuel : ((s₁.icache 1).size - 2 * DIRENTSIZE + DIRENTSIZE - 1) / DIRENTSIZE = 0 + 1 := by
    rw [hsize₁]
    rfl
  have hemp : isdirempty s₁ 1 = some (s₁, 0) := by
    rw [isdirempty, hfuel, emptyLoop_of_read (by rw [hsize₁]; decide) hread, if_pos hused]
  obtain ⟨hs', -, -, -, hiff⟩ := hwr.owned.isdirempty_iff hwr.held hdev₁ hemp
  exact ⟨t, s₁, _, s₁, 0, hrun, hw, hemp, hs', rfl, fun hall => absurd (hiff.mpr hall) (by decide)⟩

end Fs

end Xv6
