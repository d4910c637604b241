import Xv6.Fs.Inode

/-!
# Reading and writing inodes, and looking up names

`readi` and `writei` copy between a buffer and the blocks of a file, a block
at a time: each turn of their loops copies
`m = min(n - tot, BSIZE - off % BSIZE)` bytes, to the end of the block or of
the transfer, through `bmap`, which allocates a block the file does not have
yet.  `dirlookup` reads a directory one `struct dirent` at a time with
`readi`.

Offsets and counts are `uint`; the checks of `readi` and `writei` rule out a
transfer past `2 ^ 32` before their loops run, so the loops count in
naturals.  A device inode is read and written through `devsw`, which is not
modelled: these functions stop there, as they do at a panic.
-/

namespace Xv6

namespace Fs

open Bytes

/-- The bytes a turn of the loops copies from offset `off`, `tot` of `n` done. -/
def chunk (off tot n : Nat) : Nat :=
  min (n - tot) (BSIZE - off % BSIZE)

theorem chunk_pos (off : Nat) {tot n : Nat} (h : tot < n) : 0 < chunk off tot n := by
  have hb : off % BSIZE < BSIZE := Nat.mod_lt _ (by decide)
  unfold chunk
  omega

/-- `readi`'s loop: `tot` of `n` bytes are in `dst`, the next from `off`. -/
def readLoop (i : Fin NINODE) (s : State) (off tot n : Nat) (dst : List UInt8) :
    Option (State × List UInt8) :=
  if tot < n then
    match bmap s i (off / BSIZE) with
    | none => none
    | some (s, a) =>
        let m := chunk off tot n
        readLoop i s (off + m) (tot + m) n
          (dst ++ (List.range m).map fun k => s.disk a (off % BSIZE + k))
  else some (s, dst)
termination_by n - tot
decreasing_by have := chunk_pos off ‹tot < n›; omega

/-- `readi` of an inode; `none` is a panic of `bmap`, or a device inode. -/
def readi (s : State) (i : Fin NINODE) (off n : UInt32) : Option (State × Int × List UInt8) :=
  let ip := s.icache i
  if ip.type = T_DEV then none
  else if off.toNat > ip.size ∨ off + n < off then some (s, -1, [])
  else
    let n := if off.toNat + n.toNat > ip.size then ip.size - off.toNat else n.toNat
    (readLoop i s off.toNat 0 n []).map fun (s, dst) => (s, CInt.ofUInt n, dst)

theorem readLoop_of_ge {i : Fin NINODE} {s : State} {off tot n : Nat} {dst : List UInt8} (h : n ≤ tot) :
    readLoop i s off tot n dst = some (s, dst) := by
  rw [readLoop, if_neg (by omega)]

theorem readLoop_of_lt {i : Fin NINODE} {s s' : State} {off tot n a : Nat} {dst : List UInt8} (h : tot < n)
    (hb : bmap s i (off / BSIZE) = some (s', a)) :
    readLoop i s off tot n dst = readLoop i s' (off + chunk off tot n) (tot + chunk off tot n) n
      (dst ++ (List.range (chunk off tot n)).map fun k => s'.disk a (off % BSIZE + k)) := by
  rw [readLoop, if_pos h, hb]

theorem readi_within_block {s s' : State} {i : Fin NINODE} {off n : UInt32} {a : Nat}
    (ht : (s.icache i).type ≠ T_DEV) (hn : 0 < n.toNat) (hsize : off.toNat + n.toNat ≤ (s.icache i).size)
    (hwrap : off.toNat + n.toNat < 2 ^ 32) (hfit : off.toNat % BSIZE + n.toNat ≤ BSIZE)
    (hb : bmap s i (off.toNat / BSIZE) = some (s', a)) :
    readi s i off n =
      some (s', CInt.ofUInt n.toNat, (List.range n.toNat).map fun k => s'.disk a (off.toNat % BSIZE + k)) := by
  have hoff : ¬(off.toNat > (s.icache i).size ∨ off + n < off) := by
    rw [UInt32.lt_iff_toNat_lt, UInt32.toNat_add, Nat.mod_eq_of_lt hwrap]
    omega
  have hclamp : ¬(off.toNat + n.toNat > (s.icache i).size) := by omega
  have hc : chunk off.toNat 0 n.toNat = n.toNat := by
    unfold chunk
    omega
  simp only [readi, if_neg ht, if_neg hoff, if_neg hclamp]
  rw [readLoop_of_lt hn hb, hc, Nat.zero_add, readLoop_of_ge le_rfl]
  simp

/-- `writei`'s loop: `tot` of `n` bytes of `src` are written, the next to
`off`; its result is `off` at the end. -/
def writeLoop (i : Fin NINODE) (src : Bytes) (s : State) (off tot n : Nat) : Option (State × Nat) :=
  if tot < n then
    match bmap s i (off / BSIZE) with
    | none => none
    | some (s, a) =>
        let m := chunk off tot n
        -- `memmove(bp->data + off%BSIZE, src, m); log_write(bp)`
        writeLoop i src (s.setDisk a (copy (s.disk a) (off % BSIZE) src tot m)) (off + m) (tot + m) n
  else some (s, off)
termination_by n - tot
decreasing_by have := chunk_pos off ‹tot < n›; omega

theorem writeLoop_of_ge {i : Fin NINODE} {src : Bytes} {s : State} {off tot n : Nat} (h : n ≤ tot) :
    writeLoop i src s off tot n = some (s, off) := by
  rw [writeLoop, if_neg (by omega)]

theorem writeLoop_of_lt {i : Fin NINODE} {src : Bytes} {s s' : State} {off tot n a : Nat} (h : tot < n)
    (hb : bmap s i (off / BSIZE) = some (s', a)) :
    writeLoop i src s off tot n =
      writeLoop i src (s'.setDisk a (copy (s'.disk a) (off % BSIZE) src tot (chunk off tot n)))
        (off + chunk off tot n) (tot + chunk off tot n) n := by
  rw [writeLoop, if_pos h, hb]

/-- `writei` of an inode; `none` is a panic of `bmap`, or a device inode.  The
size grows, and only then is the inode written back. -/
def writei (s : State) (i : Fin NINODE) (src : Bytes) (off n : UInt32) : Option (State × Int) :=
  let ip := s.icache i
  if ip.type = T_DEV then none
  else if off.toNat > ip.size ∨ off + n < off then some (s, -1)
  else if off.toNat + n.toNat > MAXFILE * BSIZE then some (s, -1)
  else
    (writeLoop i src s off.toNat 0 n.toNat).map fun (s, off) =>
      if n.toNat > 0 ∧ off > (s.icache i).size then
        (iupdate (s.setInode i { s.icache i with size := off }) i, CInt.ofUInt n.toNat)
      else (s, CInt.ofUInt n.toNat)

/-!
## Directories
-/

/-- A buffer holding the bytes `readi` copied into it. -/
def ofList (l : List UInt8) : Bytes :=
  fun k => l.getD k 0

/-- `dirlookup`'s loop over the entries from `off`, for as many entries as the
directory had when it started: `readi` never changes the size. -/
def lookupLoop (i : Fin NINODE) (name : Bytes) : Nat → State → Nat →
    Option (State × Option (Fin NINODE × Nat))
  | 0, s, _ => some (s, none)
  | k + 1, s, off =>
      if off < (s.icache i).size then
        match readi s i (UInt32.ofNat off) (UInt32.ofNat DIRENTSIZE) with
        | none => none
        | some (s, r, de) =>
            if r ≠ DIRENTSIZE then none  -- `panic("dirlookup read")`
            else
              let inum := getLE (ofList de) 0 2
              if inum = 0 then lookupLoop i name k s (off + DIRENTSIZE)
              else if strncmp name (fun j => ofList de (2 + j)) DIRSIZ = 0 then
                (iget s (s.icache i).dev inum).map fun (s, j) => (s, some (j, off))
              else lookupLoop i name k s (off + DIRENTSIZE)
      else some (s, none)

theorem ofList_map_range {f : Nat → UInt8} {n k : Nat} (hk : k < n) : ofList ((List.range n).map f) k = f k := by
  simp [ofList, hk]

theorem getLE_ofList_map_range {f : Nat → UInt8} {n o w : Nat} (h : o + w ≤ n) :
    getLE (ofList ((List.range n).map f)) o w = getLE f o w :=
  getLE_congr fun _ _ hk => ofList_map_range (by omega)

theorem readi_entry {s : State} {i : Fin NINODE} {off : Nat} (ht : (s.icache i).type ≠ T_DEV)
    (hal : off % DIRENTSIZE = 0) (hsize : off + DIRENTSIZE ≤ (s.icache i).size) (hsize32 : (s.icache i).size < 2 ^ 32)
    (hbn : off / BSIZE < NDIRECT) (ha : (s.icache i).addrs ⟨off / BSIZE, by omega⟩ ≠ 0) :
    readi s i (UInt32.ofNat off) (UInt32.ofNat DIRENTSIZE) =
      some (s, (DIRENTSIZE : Int), (List.range DIRENTSIZE).map fun k =>
        s.disk ((s.icache i).addrs ⟨off / BSIZE, by omega⟩) (off % BSIZE + k)) := by
  have hoff32 : off < 2 ^ 32 := by omega
  have hoff : (UInt32.ofNat off).toNat = off := UInt32.toNat_ofNat_of_lt' hoff32
  have hn : (UInt32.ofNat DIRENTSIZE).toNat = DIRENTSIZE := rfl
  have hfit : off % BSIZE + DIRENTSIZE ≤ BSIZE := by unfold BSIZE DIRENTSIZE at *; omega
  rw [readi_within_block ht (by rw [hn]; decide) (by rw [hoff, hn]; exact hsize) (by rw [hoff, hn]; omega)
    (by rw [hoff, hn]; exact hfit) (by rw [hoff]; exact bmap_of_mapped hbn ha), hoff, hn]
  rfl

theorem lookupLoop_of_skip {i : Fin NINODE} {name : Bytes} {k : Nat} {s s' : State} {off : Nat}
    {de : List UInt8} (hoff : off < (s.icache i).size)
    (hr : readi s i (UInt32.ofNat off) (UInt32.ofNat DIRENTSIZE) = some (s', (DIRENTSIZE : Int), de))
    (hskip : getLE (ofList de) 0 2 = 0 ∨ strncmp name (fun j => ofList de (2 + j)) DIRSIZ ≠ 0) :
    lookupLoop i name (k + 1) s off = lookupLoop i name k s' (off + DIRENTSIZE) := by
  by_cases h0 : getLE (ofList de) 0 2 = 0
  · simp [lookupLoop, hoff, hr, h0]
  · have hne : strncmp name (fun j => ofList de (2 + j)) DIRSIZ ≠ 0 := hskip.resolve_left h0
    simp [lookupLoop, hoff, hr, h0, hne]

theorem lookupLoop_of_size_le {i : Fin NINODE} {name : Bytes} {k : Nat} {s : State} {off : Nat}
    (hoff : (s.icache i).size ≤ off) : lookupLoop i name k s off = some (s, none) := by
  cases k with
  | zero => rfl
  | succ k => simp [lookupLoop, Nat.not_lt.mpr hoff]

theorem lookupLoop_of_skips {i : Fin NINODE} {name : Bytes} {s : State} {m : Nat} :
    ∀ {k off : Nat}, m ≤ k → off + DIRENTSIZE * m ≤ (s.icache i).size →
    (∀ j < m, ∃ de, readi s i (UInt32.ofNat (off + DIRENTSIZE * j)) (UInt32.ofNat DIRENTSIZE) =
        some (s, (DIRENTSIZE : Int), de) ∧
      (getLE (ofList de) 0 2 = 0 ∨ strncmp name (fun j => ofList de (2 + j)) DIRSIZ ≠ 0)) →
    lookupLoop i name k s off = lookupLoop i name (k - m) s (off + DIRENTSIZE * m) := by
  induction m with
  | zero => intro k off _ _ _; rfl
  | succ m ih =>
      intro k off hk hsize hskip
      obtain ⟨k, rfl⟩ : ∃ k', k = k' + 1 := ⟨k - 1, by omega⟩
      have hD : 0 < DIRENTSIZE := by decide
      rw [Nat.mul_succ] at hsize
      obtain ⟨de, hr, hde⟩ := hskip 0 (by omega)
      rw [Nat.mul_zero, Nat.add_zero] at hr
      -- the rest of the run starts one entry further
      have hnext : ∀ j < m, ∃ de, readi s i (UInt32.ofNat (off + DIRENTSIZE + DIRENTSIZE * j))
          (UInt32.ofNat DIRENTSIZE) = some (s, (DIRENTSIZE : Int), de) ∧
          (getLE (ofList de) 0 2 = 0 ∨ strncmp name (fun j => ofList de (2 + j)) DIRSIZ ≠ 0) := by
        intro j hj
        obtain ⟨de', hr', hde'⟩ := hskip (j + 1) (by omega)
        rw [Nat.mul_succ, ← Nat.add_assoc, Nat.add_right_comm] at hr'
        exact ⟨de', hr', hde'⟩
      rw [lookupLoop_of_skip (by omega) hr hde, ih (by omega) (by omega) hnext, Nat.mul_succ,
        Nat.add_sub_add_right, ← Nat.add_assoc, Nat.add_right_comm]

/-- `dirlookup`: the cache slot `iget` gives for the entry named `name`, and
the entry's offset, or no entry; `none` is a panic. -/
def dirlookup (s : State) (i : Fin NINODE) (name : Bytes) : Option (State × Option (Fin NINODE × Nat)) :=
  if (s.icache i).type ≠ T_DIR then none  -- `panic("dirlookup not DIR")`
  else lookupLoop i name (((s.icache i).size + DIRENTSIZE - 1) / DIRENTSIZE) s 0

end Fs

end Xv6
