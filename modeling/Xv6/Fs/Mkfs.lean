import Xv6.Fs.Layout
import Xv6.Fs.Trans

/-!
# `mkfs`

`mkfs` writes the image the kernel boots from: zeroed sectors, the
superblock, the root directory with `.` and `..`, then for each host file an
inode, an entry in the root directory and the file's bytes, appended by
`iappend`; last it rounds the root directory's size and writes the bitmap of
the blocks it used.

Its globals are the image, `freeinode` and `freeblock`; the image is a file
whose length in sectors grows with `wsect` and past whose end `rsect` fails.
A failed `assert` or a failed read ends `mkfs`, as `none`.  Host files are
their names, as given on the command line, and their bytes.
-/

namespace Xv6

namespace Fs

namespace Mkfs

open Bytes

-- `mkfs.c`
def NINODES : Nat := 200
def nbitmap : Nat := FSSIZE / (BSIZE * 8) + 1
def ninodeblocks : Nat := NINODES / IPB + 1
def nmeta : Nat := 2 + nlog + ninodeblocks + nbitmap
def nblocks : Nat := FSSIZE - nmeta

/-- The superblock `main` fills in. -/
def sb : Superblock :=
  ⟨FSSIZE, nblocks, NINODES, nlog, 2, 2 + nlog, 2 + nlog + ninodeblocks⟩

/-- `mkfs`'s globals and the image it writes. -/
structure Img where
  img : Disk
  len : Nat
  freeinode : Nat
  freeblock : Nat

/-- A file named on the command line. -/
structure HostFile where
  name : List UInt8
  data : List UInt8

variable (st : Img)

def wsect (sec : Nat) (buf : Bytes) : Img :=
  { st with img := Function.update st.img sec buf, len := max st.len (sec + 1) }

/-- `rsect`; `none` is a short read past the end of the image. -/
def rsect (sec : Nat) : Option Bytes :=
  if sec < st.len then some (st.img sec) else none

def winode (inum : Nat) (din : Dinode) : Option Img :=
  let bn := IBLOCK inum sb
  (rsect st bn).map fun buf => wsect st bn (Dinode.put buf (dinodeOffset inum) din)

def rinode (inum : Nat) : Option Dinode :=
  (rsect st (IBLOCK inum sb)).map fun buf => Dinode.get buf (dinodeOffset inum)

/-- `ialloc`: the next inode, with its type and one link. -/
def ialloc (type : Int) : Option (Img × Nat) :=
  let inum := st.freeinode
  (winode { st with freeinode := inum + 1 } inum { Dinode.zero with type := type, nlink := 1 }).map
    fun st => (st, inum)

/-- `balloc(used)`: the bitmap with the first `used` blocks in use. -/
def balloc (used : Nat) : Option Img :=
  if used < BSIZE * 8 then
    some (wsect st sb.bmapstart ((List.range used).foldl setBit fun _ => 0))
  else none

/-- `iappend`'s loop: `n` bytes of `p` from `pos` still to append at `off`. -/
def appendLoop (p : Bytes) (st : Img) (din : Dinode) (off n pos : Nat) : Option (Img × Dinode × Nat) :=
  if n > 0 then
    let fbn := off / BSIZE
    if fbn < MAXFILE then
      let found : Option (Img × Dinode × Nat) :=
        if h : fbn < NDIRECT then
          let j : Fin (NDIRECT + 1) := ⟨fbn, by omega⟩
          let (st, din) :=
            if din.addrs j = 0 then
              ({ st with freeblock := st.freeblock + 1 },
                { din with addrs := Function.update din.addrs j st.freeblock })
            else (st, din)
          some (st, din, din.addrs j)
        else
          let ind := Fin.last NDIRECT
          let (st, din) :=
            if din.addrs ind = 0 then
              ({ st with freeblock := st.freeblock + 1 },
                { din with addrs := Function.update din.addrs ind st.freeblock })
            else (st, din)
          (rsect st (din.addrs ind)).map fun indirect =>
            let k := 4 * (fbn - NDIRECT)
            if getLE indirect k 4 = 0 then
              (wsect { st with freeblock := st.freeblock + 1 } (din.addrs ind)
                (setLE indirect k st.freeblock 4), din, st.freeblock)
            else (st, din, getLE indirect k 4)
      found.bind fun (st, din, x) =>
        let n1 := min n ((fbn + 1) * BSIZE - off)
        (rsect st x).bind fun buf =>
          appendLoop p (wsect st x (copy buf (off - fbn * BSIZE) p pos n1)) din (off + n1) (n - n1) (pos + n1)
    else none  -- `assert(fbn < MAXFILE)`
  else some (st, din, off)
termination_by n
decreasing_by
  have hlt : off < (off / BSIZE + 1) * BSIZE := by unfold BSIZE; omega
  omega

/-- `iappend(inum, p, n)`. -/
def iappend (inum : Nat) (p : Bytes) (n : Nat) : Option Img :=
  (rinode st inum).bind fun din =>
    (appendLoop p st din din.size n 0).bind fun (st, din, off) => winode st inum { din with size := off }

/-- `main`'s loop over a host file's bytes: `read` gives `BSIZE` bytes at a
time, and `iappend` appends them. -/
def copyIn (inum : Nat) (st : Img) (data : List UInt8) : Option Img :=
  if data = [] then some st
  else
    (iappend st inum (fun k => (data.take BSIZE).getD k 0) (min data.length BSIZE)).bind fun st =>
      copyIn inum st (data.drop BSIZE)
termination_by data.length
decreasing_by
  have hpos : 0 < data.length := List.length_pos_iff.mpr ‹_›
  simp only [List.length_drop]
  unfold BSIZE
  omega

/-- The `struct dirent` `main` writes: `de` zeroed, `de.inum = xshort(inum)`,
and `strncpy(de.name, name, DIRSIZ)`. -/
def dirent (inum : Nat) (name : List UInt8) : Bytes :=
  setLE (fun k => if 2 ≤ k ∧ k < DIRENTSIZE then (name.takeWhile (· ≠ 0)).getD (k - 2) 0 else 0) 0 inum 2

/-- `main`'s work for one host file. -/
def addFile (rootino : Nat) (st : Img) (f : HostFile) : Option Img :=
  if (47 : UInt8) ∈ f.name then none  -- `assert(index(argv[i], '/') == 0)`
  else
    -- `if(argv[i][0] == '_') ++argv[i];`
    let name := if f.name.head? = some 95 then f.name.tail else f.name
    (ialloc st T_FILE).bind fun (st, inum) =>
      (iappend st rootino (dirent inum name) DIRENTSIZE).bind fun st => copyIn inum st f.data

/-- `wsect(i, zeroes)` for every sector, into the truncated image. -/
def zeroSectors : Img :=
  (List.range FSSIZE).foldl (fun st i => wsect st i fun _ => 0) ⟨fun _ _ => 0, 0, 1, nmeta⟩

/-- `main`: the image `mkfs` writes for the host files. -/
def mkfs (files : List HostFile) : Option Img := do
  let st := wsect zeroSectors 1 (Superblock.put (fun _ => 0) sb)
  let (st, rootino) ← ialloc st T_DIR
  if rootino ≠ ROOTINO then none  -- `assert(rootino == ROOTINO)`
  let st ← iappend st rootino (dirent rootino [46]) DIRENTSIZE
  let st ← iappend st rootino (dirent rootino [46, 46]) DIRENTSIZE
  let st ← files.foldlM (addFile rootino) st
  -- fix size of root inode dir
  let din ← rinode st rootino
  let off := (din.size / BSIZE + 1) * BSIZE
  let st ← winode st rootino { din with size := off }
  balloc st st.freeblock

/-!
## What `mkfs` writes
-/

section Image

variable {st : Img} {sec : Nat} {buf : Bytes}

@[simp] theorem wsect_img_self : (wsect st sec buf).img sec = buf := Function.update_self _ _ _

theorem wsect_img_of_ne {b : Nat} (h : b ≠ sec) : (wsect st sec buf).img b = st.img b :=
  Function.update_of_ne h _ _

@[simp] theorem wsect_len : (wsect st sec buf).len = max st.len (sec + 1) := rfl
@[simp] theorem wsect_freeinode : (wsect st sec buf).freeinode = st.freeinode := rfl
@[simp] theorem wsect_freeblock : (wsect st sec buf).freeblock = st.freeblock := rfl

theorem rsect_of_lt (h : sec < st.len) : rsect st sec = some (st.img sec) := by
  simp [rsect, h]

theorem zeroSectors_eq : zeroSectors = ⟨fun _ _ => 0, FSSIZE, 1, nmeta⟩ := by
  have h : ∀ n, (List.range n).foldl (fun st i => wsect st i fun _ => 0) ⟨fun _ _ => 0, 0, 1, nmeta⟩ =
      ⟨fun _ _ => 0, n, 1, nmeta⟩ := by
    intro n
    induction n with
    | zero => rfl
    | succ n ih =>
        rw [List.range_succ, List.foldl_append, ih]
        simp only [List.foldl_cons, List.foldl_nil, wsect, Img.mk.injEq, and_true]
        exact ⟨Function.update_eq_self n _, by omega⟩
  exact h FSSIZE

theorem winode_eq {inum : Nat} {din : Dinode} (h : IBLOCK inum sb < st.len) :
    winode st inum din = some (wsect st (IBLOCK inum sb) (Dinode.put (st.img (IBLOCK inum sb)) (dinodeOffset inum) din)) := by
  simp [winode, rsect_of_lt h]

theorem rinode_eq {inum : Nat} (h : IBLOCK inum sb < st.len) :
    rinode st inum = some (Dinode.get (st.img (IBLOCK inum sb)) (dinodeOffset inum)) := by
  simp [rinode, rsect_of_lt h]

theorem balloc_eq {used : Nat} (h : used < BSIZE * 8) :
    balloc st used = some (wsect st sb.bmapstart ((List.range used).foldl setBit fun _ => 0)) := by
  simp [balloc, h]

theorem appendLoop_zero {p : Bytes} {din : Dinode} {off pos : Nat} :
    appendLoop p st din off 0 pos = some (st, din, off) := by
  rw [appendLoop]
  simp

theorem appendLoop_direct_of_ne {p : Bytes} {din : Dinode} {off n pos : Nat} (hfbn : off / BSIZE < NDIRECT)
    (hn : 0 < n) (hfit : off % BSIZE + n ≤ BSIZE) (ha : din.addrs ⟨off / BSIZE, by omega⟩ ≠ 0)
    (hx : din.addrs ⟨off / BSIZE, by omega⟩ < st.len) :
    appendLoop p st din off n pos =
      some (wsect st (din.addrs ⟨off / BSIZE, by omega⟩)
        (copy (st.img (din.addrs ⟨off / BSIZE, by omega⟩)) (off % BSIZE) p pos n), din, off + n) := by
  have hmax : off / BSIZE < MAXFILE := by unfold MAXFILE; omega
  have hn1 : min n ((off / BSIZE + 1) * BSIZE - off) = n := by unfold BSIZE at *; omega
  have hoff : off - off / BSIZE * BSIZE = off % BSIZE := by unfold BSIZE; omega
  rw [appendLoop]
  simp only [gt_iff_lt, hn, if_true, hmax, dif_pos hfbn, ha, if_false, hn1, hoff, rsect_of_lt hx,
    Option.bind_some, Nat.sub_self, appendLoop_zero]

theorem appendLoop_direct_of_eq {p : Bytes} {din : Dinode} {off n pos : Nat} (hfbn : off / BSIZE < NDIRECT)
    (hn : 0 < n) (hfit : off % BSIZE + n ≤ BSIZE) (ha : din.addrs ⟨off / BSIZE, by omega⟩ = 0)
    (hx : st.freeblock < st.len) :
    appendLoop p st din off n pos =
      some (wsect { st with freeblock := st.freeblock + 1 } st.freeblock
          (copy (st.img st.freeblock) (off % BSIZE) p pos n),
        { din with addrs := Function.update din.addrs ⟨off / BSIZE, by omega⟩ st.freeblock }, off + n) := by
  have hmax : off / BSIZE < MAXFILE := by unfold MAXFILE; omega
  have hn1 : min n ((off / BSIZE + 1) * BSIZE - off) = n := by unfold BSIZE at *; omega
  have hoff : off - off / BSIZE * BSIZE = off % BSIZE := by unfold BSIZE; omega
  have hx' : st.freeblock < ({ st with freeblock := st.freeblock + 1 } : Img).len := hx
  rw [appendLoop]
  simp only [gt_iff_lt, hn, if_true, hmax, dif_pos hfbn, ha, hn1, hoff, Function.update_self,
    rsect_of_lt hx', Option.bind_some, Nat.sub_self, appendLoop_zero]

/-!
## Thirty host files

The root directory starts with `.` and `..` and gains a sixteen-byte entry
for each host file.  With thirty files its entries fill exactly one block,
and the rounding `((off/BSIZE) + 1) * BSIZE` gives it the size of two.
-/

/-- An empty host file named `f` and the `k`th character from `A`. -/
def emptyFile (k : Nat) : HostFile :=
  ⟨[102, UInt8.ofNat (65 + k)], []⟩

/-- Thirty of them, `fA` to `f^`. -/
def thirtyFiles : List HostFile :=
  (List.range 30).map emptyFile

/-- The root directory's `struct dinode` once `size` bytes of entries fill
part of its first block. -/
def rootDinode (size : Nat) : Dinode :=
  ⟨T_DIR, 0, 0, 1, size, Function.update (fun _ => 0) 0 nmeta⟩

theorem rootDinode_fits {size : Nat} (h : size < 2 ^ 32) : (rootDinode size).Fits where
  type := by simp [rootDinode, T_DIR]
  major := by simp [rootDinode]
  minor := by simp [rootDinode]
  nlink := by simp [rootDinode]
  size := h
  addrs j := by
    by_cases hj : j = 0
    · subst hj
      simp [rootDinode, nmeta, ninodeblocks, nbitmap, NINODES, IPB, FSSIZE, BSIZE, DINODESIZE, nlog,
        LOGSIZE, MAXOPBLOCKS]
    · simp [rootDinode, hj]

theorem iblock_bounds {inum : Nat} (h : inum < NINODES) :
    1 < IBLOCK inum sb ∧ IBLOCK inum sb < sb.bmapstart ∧ IBLOCK inum sb < nmeta := by
  simp only [IBLOCK, sb, NINODES, IPB, BSIZE, DINODESIZE, nmeta, nlog, LOGSIZE, MAXOPBLOCKS,
    ninodeblocks, nbitmap, FSSIZE] at h ⊢
  omega

theorem bmapstart_lt_nmeta : sb.bmapstart < nmeta ∧ 1 < sb.bmapstart := by
  simp [sb, nmeta, nbitmap, FSSIZE, BSIZE, nlog, LOGSIZE, MAXOPBLOCKS, ninodeblocks, NINODES, IPB,
    DINODESIZE]

theorem nmeta_lt_fssize : nmeta + 1 < FSSIZE := by
  simp [nmeta, nlog, LOGSIZE, MAXOPBLOCKS, ninodeblocks, nbitmap, NINODES, IPB, BSIZE, DINODESIZE, FSSIZE]

@[simp] theorem rootDinode_size {size : Nat} : (rootDinode size).size = size := rfl

theorem rootDinode_addrs_of_val {size : Nat} {j : Fin (NDIRECT + 1)} (hj : j.val = 0) :
    (rootDinode size).addrs j = nmeta := by
  have : j = 0 := Fin.ext hj
  simp [rootDinode, this]

theorem rootDinode_addrs_of_ne {size : Nat} {j : Fin (NDIRECT + 1)} (hj : j ≠ 0) :
    (rootDinode size).addrs j = 0 := by
  simp only [rootDinode]
  exact Function.update_of_ne hj _ _

theorem iappend_root {p : Bytes} {sz : Nat} (hlen : st.len = FSSIZE)
    (hroot : Dinode.get (st.img (IBLOCK ROOTINO sb)) (dinodeOffset ROOTINO) = rootDinode sz)
    (hsz : sz + DIRENTSIZE ≤ BSIZE) :
    iappend st ROOTINO p DIRENTSIZE =
      some (wsect (wsect st nmeta (copy (st.img nmeta) sz p 0 DIRENTSIZE)) (IBLOCK ROOTINO sb)
        (Dinode.put (st.img (IBLOCK ROOTINO sb)) (dinodeOffset ROOTINO) (rootDinode (sz + DIRENTSIZE)))) := by
  obtain ⟨-, -, hib⟩ := iblock_bounds (show ROOTINO < NINODES by decide)
  have hfs := nmeta_lt_fssize
  have hfbn : sz / BSIZE = 0 := by unfold BSIZE DIRENTSIZE at *; omega
  have hmod : sz % BSIZE = sz := by unfold BSIZE DIRENTSIZE at *; omega
  have ha : (rootDinode sz).addrs ⟨sz / BSIZE, by unfold NDIRECT; omega⟩ = nmeta := rootDinode_addrs_of_val hfbn
  have hd : sz / BSIZE < NDIRECT := by unfold NDIRECT; omega
  have hne : (rootDinode sz).addrs ⟨sz / BSIZE, by omega⟩ ≠ 0 := by rw [ha]; unfold nmeta; omega
  have hx : (rootDinode sz).addrs ⟨sz / BSIZE, by omega⟩ < st.len := by rw [ha, hlen]; omega
  have hib' : IBLOCK ROOTINO sb < (wsect st nmeta (copy (st.img nmeta) sz p 0 DIRENTSIZE)).len := by
    simp only [wsect_len, hlen]; omega
  unfold iappend
  rw [rinode_eq (by rw [hlen]; omega), Option.bind_some, hroot, rootDinode_size,
    appendLoop_direct_of_ne hd (by decide) (by rw [hmod]; exact hsz) hne hx, Option.bind_some, ha, hmod]
  dsimp only
  rw [winode_eq hib', wsect_img_of_ne (by omega)]
  rfl

@[simp] theorem getLE_dirent {inum : Nat} {name : List UInt8} : getLE (dirent inum name) 0 2 = inum % 256 ^ 2 :=
  getLE_setLE_self _ _ _ _

theorem dirent_name {inum : Nat} {name : List UInt8} :
    dirent inum name 2 = (name.takeWhile (· ≠ 0)).getD 0 0 := by
  rw [dirent, setLE_of_le (by omega)]
  simp [DIRENTSIZE]

theorem get_wsect_put {inum inum' : Nat} {d : Dinode} (h : inum' ≠ inum) :
    Dinode.get ((wsect st (IBLOCK inum sb) (Dinode.put (st.img (IBLOCK inum sb)) (dinodeOffset inum) d)).img
      (IBLOCK inum' sb)) (dinodeOffset inum') = Dinode.get (st.img (IBLOCK inum' sb)) (dinodeOffset inum') := by
  by_cases hb : IBLOCK inum' sb = IBLOCK inum sb
  · rw [hb, wsect_img_self, Dinode.get_put_of_disjoint _ _ (dinodeOffset_disjoint hb h)]
  · rw [wsect_img_of_ne hb]

theorem ialloc_eq {type : Int} {inum : Nat} (hi : st.freeinode = inum) (h : IBLOCK inum sb < st.len) :
    ialloc st type = some (wsect { st with freeinode := inum + 1 } (IBLOCK inum sb)
      (Dinode.put (st.img (IBLOCK inum sb)) (dinodeOffset inum) { Dinode.zero with type := type, nlink := 1 }),
        inum) := by
  dsimp only [ialloc]
  rw [hi, winode_eq (by exact h)]
  rfl

/-- Entry `j` of a directory block names an inode, and its name starts with
`.` or `f`. -/
def namedEntry (m : Bytes) (j : Nat) : Prop :=
  0 < getLE m (DIRENTSIZE * j) 2 ∧ (m (DIRENTSIZE * j + 2) = 46 ∨ m (DIRENTSIZE * j + 2) = 102)

theorem namedEntry_copy_of_lt {m e : Bytes} {j n : Nat} (hj : j < n) (h : namedEntry m j) :
    namedEntry (copy m (DIRENTSIZE * n) e 0 DIRENTSIZE) j := by
  unfold namedEntry DIRENTSIZE at *
  rw [getLE_copy_of_disjoint (Or.inl (by omega)), copy_of_lt (by omega)]
  exact h

theorem namedEntry_copy_self {m e : Bytes} {n : Nat} (h : namedEntry e 0) :
    namedEntry (copy m (DIRENTSIZE * n) e 0 DIRENTSIZE) n := by
  unfold namedEntry DIRENTSIZE at *
  rw [getLE_copy_of_within le_rfl (by omega), copy_of_mem (by omega) (by omega)]
  simpa using h

/-- What `mkfs` has written once the root directory holds `n` entries in its
first block. -/
structure RootDir (n : Nat) (st : Img) : Prop where
  len : st.len = FSSIZE
  freeblock : st.freeblock = nmeta + 1
  root : Dinode.get (st.img (IBLOCK ROOTINO sb)) (dinodeOffset ROOTINO) = rootDinode (DIRENTSIZE * n)
  super : st.img 1 = Superblock.put (fun _ => 0) sb
  entries : ∀ j < n, namedEntry (st.img nmeta) j

theorem RootDir.ialloc {n : Nat} (h : RootDir n st) (hi : ROOTINO < st.freeinode) (hn : st.freeinode < NINODES) :
    ∃ st', ialloc st T_FILE = some (st', st.freeinode) ∧ RootDir n st' ∧ st'.freeinode = st.freeinode + 1 := by
  obtain ⟨h1, -, h3⟩ := iblock_bounds hn
  have hfs := nmeta_lt_fssize
  refine ⟨_, ialloc_eq rfl (by rw [h.len]; omega), ?_, rfl⟩
  exact {
    len := by simp only [wsect_len, h.len]; omega
    freeblock := h.freeblock
    root := by rw [get_wsect_put (by omega)]; exact h.root
    super := by rw [wsect_img_of_ne (by omega)]; exact h.super
    entries := by rw [wsect_img_of_ne (by omega)]; exact h.entries }

theorem rootDir_of_append {n : Nat} {e : Bytes} (hlen : st.len = FSSIZE) (hfb : st.freeblock = nmeta + 1)
    (hsuper : st.img 1 = Superblock.put (fun _ => 0) sb) (hentries : ∀ j < n, namedEntry (st.img nmeta) j)
    (hn : n < BSIZE / DIRENTSIZE) (he : namedEntry e 0) :
    RootDir (n + 1) (wsect (wsect st nmeta (copy (st.img nmeta) (DIRENTSIZE * n) e 0 DIRENTSIZE))
      (IBLOCK ROOTINO sb) (Dinode.put (st.img (IBLOCK ROOTINO sb)) (dinodeOffset ROOTINO)
        (rootDinode (DIRENTSIZE * n + DIRENTSIZE)))) := by
  obtain ⟨h1, -, hib⟩ := iblock_bounds (show ROOTINO < NINODES by decide)
  have hfs := nmeta_lt_fssize
  have hsz : DIRENTSIZE * n + DIRENTSIZE ≤ BSIZE := by unfold BSIZE DIRENTSIZE at *; omega
  exact {
    len := by simp only [wsect_len, hlen]; omega
    freeblock := hfb
    root := by
      rw [wsect_img_self, Dinode.get_put_self _ _ (rootDinode_fits (by unfold BSIZE at hsz; omega))]
      congr 1
    super := by rw [wsect_img_of_ne (by omega), wsect_img_of_ne (by unfold nmeta; omega)]; exact hsuper
    entries := by
      intro j hj
      rw [wsect_img_of_ne (by omega), wsect_img_self]
      rcases Nat.lt_succ_iff_lt_or_eq.mp hj with hj | rfl
      · exact namedEntry_copy_of_lt hj (hentries j hj)
      · exact namedEntry_copy_self he }

theorem RootDir.iappend {n : Nat} {e : Bytes} (h : RootDir n st) (hn : n < BSIZE / DIRENTSIZE)
    (he : namedEntry e 0) :
    ∃ st', iappend st ROOTINO e DIRENTSIZE = some st' ∧ RootDir (n + 1) st' ∧ st'.freeinode = st.freeinode := by
  have hsz : DIRENTSIZE * n + DIRENTSIZE ≤ BSIZE := by unfold BSIZE DIRENTSIZE at *; omega
  exact ⟨_, iappend_root h.len h.root hsz, rootDir_of_append h.len h.freeblock h.super h.entries hn he, rfl⟩

/-- The `struct dinode` `ialloc` gives the root directory. -/
def emptyDir : Dinode :=
  { Dinode.zero with type := T_DIR, nlink := 1 }

@[simp] theorem emptyDir_size : emptyDir.size = 0 := rfl

theorem iappend_first {p : Bytes} (hlen : st.len = FSSIZE) (hfb : st.freeblock = nmeta)
    (hroot : Dinode.get (st.img (IBLOCK ROOTINO sb)) (dinodeOffset ROOTINO) = emptyDir) :
    iappend st ROOTINO p DIRENTSIZE =
      some (wsect (wsect { st with freeblock := nmeta + 1 } nmeta (copy (st.img nmeta) 0 p 0 DIRENTSIZE))
        (IBLOCK ROOTINO sb) (Dinode.put (st.img (IBLOCK ROOTINO sb)) (dinodeOffset ROOTINO)
          (rootDinode DIRENTSIZE))) := by
  obtain ⟨-, -, hib⟩ := iblock_bounds (show ROOTINO < NINODES by decide)
  have hfs := nmeta_lt_fssize
  have hx : st.freeblock < st.len := by rw [hfb, hlen]; omega
  have hib' : IBLOCK ROOTINO sb < (wsect { st with freeblock := nmeta + 1 } nmeta
      (copy (st.img nmeta) 0 p 0 DIRENTSIZE)).len := by
    simp only [wsect_len, hlen]; omega
  unfold iappend
  rw [rinode_eq (by rw [hlen]; omega), Option.bind_some, hroot, emptyDir_size,
    appendLoop_direct_of_eq (by decide) (by decide) (by decide) rfl hx, Option.bind_some, hfb]
  dsimp only
  rw [Nat.zero_mod, winode_eq hib', wsect_img_of_ne (by omega)]
  rfl

theorem RootDir.first {e : Bytes} (hlen : st.len = FSSIZE) (hfb : st.freeblock = nmeta)
    (hroot : Dinode.get (st.img (IBLOCK ROOTINO sb)) (dinodeOffset ROOTINO) = emptyDir)
    (hsuper : st.img 1 = Superblock.put (fun _ => 0) sb) (he : namedEntry e 0) :
    ∃ st', Mkfs.iappend st ROOTINO e DIRENTSIZE = some st' ∧ RootDir 1 st' ∧ st'.freeinode = st.freeinode := by
  have h := rootDir_of_append (show ({ st with freeblock := nmeta + 1 } : Img).len = FSSIZE from hlen) rfl hsuper
    (fun j hj => absurd hj (Nat.not_lt_zero j)) (by decide) he
  simp only [Nat.mul_zero, Nat.zero_add] at h
  exact ⟨_, iappend_first hlen hfb hroot, h, rfl⟩

theorem copyIn_nil {inum : Nat} : copyIn inum st [] = some st := by
  rw [copyIn]
  simp

theorem RootDir.addFile {k : Nat} (h : RootDir (2 + k) st) (hi : st.freeinode = 2 + k) (hk : k < 30) :
    ∃ st', addFile ROOTINO st (emptyFile k) = some st' ∧ RootDir (3 + k) st' ∧ st'.freeinode = 3 + k := by
  obtain ⟨st₁, hal, h₁, hi₁⟩ := h.ialloc (by rw [hi]; unfold ROOTINO; omega) (by rw [hi]; unfold NINODES; omega)
  have he : namedEntry (dirent (2 + k) (emptyFile k).name) 0 := by
    have h256 : (256 : Nat) ^ 2 = 65536 := rfl
    refine ⟨?_, Or.inr ?_⟩
    · rw [Nat.mul_zero, getLE_dirent, Nat.mod_eq_of_lt (by omega)]
      omega
    · simp [dirent_name, emptyFile]
  obtain ⟨st₂, hap, h₂, hi₂⟩ := h₁.iappend (by unfold BSIZE DIRENTSIZE; omega) he
  have hslash : (47 : UInt8) ∉ (emptyFile k).name := by
    simp [emptyFile, UInt8.ext_iff]
    omega
  have hstrip : (if (emptyFile k).name.head? = some 95 then (emptyFile k).name.tail else (emptyFile k).name) =
      (emptyFile k).name := by simp [emptyFile]
  refine ⟨st₂, ?_, by rwa [show 3 + k = 2 + k + 1 by omega], by omega⟩
  rw [hi] at hal
  simp only [Mkfs.addFile, if_neg hslash, hstrip, hal, Option.bind_some, hap]
  exact copyIn_nil

theorem RootDir.addFiles {k : Nat} (h : RootDir 2 st) (hi : st.freeinode = 2) (hk : k ≤ 30) :
    ∃ st', ((List.range k).map emptyFile).foldlM (Mkfs.addFile ROOTINO) st = some st' ∧
      RootDir (2 + k) st' ∧ st'.freeinode = 2 + k := by
  induction k with
  | zero => exact ⟨st, rfl, h, hi⟩
  | succ k ih =>
      obtain ⟨st₁, hf, h₁, hi₁⟩ := ih (by omega)
      obtain ⟨st₂, ha, h₂, hi₂⟩ := h₁.addFile hi₁ (by omega)
      refine ⟨st₂, ?_, by rwa [show 2 + (k + 1) = 3 + k by omega], by omega⟩
      rw [List.range_succ, List.map_append, List.foldlM_append, hf]
      simpa using ha

theorem emptyDir_fits : emptyDir.Fits where
  type := by simp [emptyDir, Dinode.zero, T_DIR]
  major := by simp [emptyDir, Dinode.zero]
  minor := by simp [emptyDir, Dinode.zero]
  nlink := by simp [emptyDir, Dinode.zero]
  size := by simp [emptyDir, Dinode.zero]
  addrs _ := by simp [emptyDir, Dinode.zero]

theorem ialloc_root : ∃ st, ialloc (wsect zeroSectors 1 (Superblock.put (fun _ => 0) sb)) T_DIR =
      some (st, ROOTINO) ∧ st.len = FSSIZE ∧ st.freeinode = 2 ∧ st.freeblock = nmeta ∧
    Dinode.get (st.img (IBLOCK ROOTINO sb)) (dinodeOffset ROOTINO) = emptyDir ∧
    st.img 1 = Superblock.put (fun _ => 0) sb := by
  obtain ⟨h1, -, hib⟩ := iblock_bounds (show ROOTINO < NINODES by decide)
  have hfs := nmeta_lt_fssize
  rw [zeroSectors_eq]
  refine ⟨_, ialloc_eq rfl (by simp only [wsect_len]; omega), ?_, rfl, rfl, ?_, ?_⟩
  · simp only [wsect_len]
    omega
  · rw [wsect_img_self]
    exact Dinode.get_put_self _ _ emptyDir_fits
  · rw [wsect_img_of_ne (by omega)]
    dsimp only
    exact wsect_img_self

/-- The image `mkfs` writes for the thirty files: the superblock, the root
directory's entries in its first block, its size rounded up to two blocks, and
the bitmap with the blocks `mkfs` used. -/
structure Final (st : Img) : Prop where
  super : st.img 1 = Superblock.put (fun _ => 0) sb
  root : Dinode.get (st.img (IBLOCK ROOTINO sb)) (dinodeOffset ROOTINO) = rootDinode (2 * BSIZE)
  entries : ∀ j < BSIZE / DIRENTSIZE, namedEntry (st.img nmeta) j
  bitmap : st.img sb.bmapstart = (List.range (nmeta + 1)).foldl setBit fun _ => 0

theorem mkfs_thirtyFiles : ∃ st, mkfs thirtyFiles = some st ∧ Final st := by
  obtain ⟨h1, hbm, hib⟩ := iblock_bounds (show ROOTINO < NINODES by decide)
  have hfs := nmeta_lt_fssize
  have hmeta := bmapstart_lt_nmeta
  -- `.` and `..`, then the files
  obtain ⟨st₁, hal, hlen₁, hi₁, hfb₁, hroot₁, hsuper₁⟩ := ialloc_root
  obtain ⟨st₂, hdot, h₂, hi₂⟩ := RootDir.first hlen₁ hfb₁ hroot₁ hsuper₁
    (e := dirent ROOTINO [46]) (by simp [namedEntry, dirent_name, ROOTINO])
  obtain ⟨st₃, hdotdot, h₃, hi₃⟩ := h₂.iappend (by decide) (e := dirent ROOTINO [46, 46])
    (by simp [namedEntry, dirent_name, ROOTINO])
  obtain ⟨st₄, hfiles, h₄, -⟩ := h₃.addFiles (by rw [hi₃, hi₂, hi₁]) le_rfl
  -- the root directory's size rounded up, then the bitmap
  have hr : rinode st₄ ROOTINO = some (rootDinode BSIZE) := by
    rw [rinode_eq (by rw [h₄.len]; omega), h₄.root]
    rfl
  have hw : winode st₄ ROOTINO (rootDinode (2 * BSIZE)) = some (wsect st₄ (IBLOCK ROOTINO sb)
      (Dinode.put (st₄.img (IBLOCK ROOTINO sb)) (dinodeOffset ROOTINO) (rootDinode (2 * BSIZE)))) :=
    winode_eq (by rw [h₄.len]; omega)
  have hfiles' : thirtyFiles.foldlM (Mkfs.addFile ROOTINO) st₃ = some st₄ := hfiles
  unfold mkfs
  dsimp only
  have hdin : ({ rootDinode BSIZE with size := ((rootDinode BSIZE).size / BSIZE + 1) * BSIZE } : Dinode) =
      rootDinode (2 * BSIZE) := rfl
  simp only [hal, Option.bind_eq_bind, Option.bind_some, ne_eq, not_true_eq_false, if_false, hdot, hdotdot,
    hfiles', hr, hdin, hw, wsect_freeblock, h₄.freeblock]
  rw [balloc_eq (by unfold BSIZE FSSIZE at *; omega)]
  refine ⟨_, rfl, ?_⟩
  have hne : IBLOCK ROOTINO sb ≠ sb.bmapstart := by omega
  exact {
    super := by
      rw [wsect_img_of_ne (by omega), wsect_img_of_ne (by omega)]
      exact h₄.super
    root := by
      rw [wsect_img_of_ne hne, wsect_img_self]
      exact Dinode.get_put_self _ _ (rootDinode_fits (by unfold BSIZE; omega))
    entries := by
      rw [wsect_img_of_ne (by omega), wsect_img_of_ne (by omega)]
      exact h₄.entries
    bitmap := wsect_img_self }

/-- With thirty host files the root directory's entries end exactly at the end
of its first block, and `((off/BSIZE) + 1) * BSIZE` still rounds its size up
to two blocks: its second block, inside the size, is a hole. -/
theorem mkfs_root_dir_has_hole : ∃ st, mkfs thirtyFiles = some st ∧
    (Dinode.get (st.img (IBLOCK ROOTINO sb)) (dinodeOffset ROOTINO)).size = 2 * BSIZE ∧
    (Dinode.get (st.img (IBLOCK ROOTINO sb)) (dinodeOffset ROOTINO)).addrs 1 = 0 := by
  obtain ⟨st, hm, hf⟩ := mkfs_thirtyFiles
  refine ⟨st, hm, ?_, ?_⟩
  · rw [hf.root, rootDinode_size]
  · rw [hf.root]
    exact rootDinode_addrs_of_ne (by decide)

end Image

end Mkfs

end Fs

end Xv6
