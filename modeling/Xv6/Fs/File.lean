import Xv6.Fs.Content
import Xv6.Fs.Trans
import Xv6.Library.Extent
import Xv6.Library.Run

/-!
# Shared file offsets

A `struct file` of an inode keeps the offset its reads and writes start at.
Processes share one through `fork` and `dup`.  `fileread` reads at `f->off`
and moves it on by what it read, `filewrite` writes its bytes in chunks of at
most `((MAXOPBLOCKS-1-1-2) / 2) * 512`, each in a transaction of its own, at
`f->off`, and moves it on likewise; both do so under `ilock`, so each read and
each chunk is one step, and the chunks of a write can be interleaved with
other reads and writes through the same file.

Every transfer starts where the one before it ended, and the offset has
moved by the bytes transferred; the file's size is the larger of its size at
the start and the offset.  Writes through the file never overlap and leave no
gap, and when the offset starts at the end of the file, as for a file just
created, the file grows by exactly the bytes written.  When it starts inside
the file, writes overwrite what is there.

The log's `begin_op` and `end_op` around each chunk are not modelled here:
they do not touch the inode or the offset.
-/

namespace Xv6

namespace Fs

open Function

variable {s s' s₁ s₂ s₃ : State} {i : Fin NINODE}

/-!
## What `bmap`, `readi` and `writei` do to the inode cache
-/

/-- `s'` has the inode cache of `s`, up to block addresses. -/
def SameInodes (s s' : State) : Prop :=
  ∀ j, ({ s'.icache j with addrs := (s.icache j).addrs } : Inode) = s.icache j

namespace SameInodes

theorem refl (s : State) : SameInodes s s :=
  fun _ => rfl

theorem trans (h₁ : SameInodes s₁ s₂) (h₂ : SameInodes s₂ s₃) : SameInodes s₁ s₃ := by
  intro j
  calc ({ s₃.icache j with addrs := (s₁.icache j).addrs } : Inode)
      = { ({ s₃.icache j with addrs := (s₂.icache j).addrs } : Inode) with addrs := (s₁.icache j).addrs } := rfl
    _ = { s₂.icache j with addrs := (s₁.icache j).addrs } := by rw [h₂ j]
    _ = s₁.icache j := h₁ j

theorem icache_eq (h : SameInodes s s') (j : Fin NINODE) :
    s'.icache j = { s.icache j with addrs := (s'.icache j).addrs } := by
  rw [← h j]

theorem size (h : SameInodes s s') (j : Fin NINODE) : (s'.icache j).size = (s.icache j).size := by
  rw [h.icache_eq j]

theorem type (h : SameInodes s s') (j : Fin NINODE) : (s'.icache j).type = (s.icache j).type := by
  rw [h.icache_eq j]

theorem ref (h : SameInodes s s') (j : Fin NINODE) : (s'.icache j).ref = (s.icache j).ref := by
  rw [h.icache_eq j]

theorem valid (h : SameInodes s s') (j : Fin NINODE) : (s'.icache j).valid = (s.icache j).valid := by
  rw [h.icache_eq j]

theorem setDisk (s : State) (b : Nat) (blk : Bytes) : SameInodes s (s.setDisk b blk) :=
  fun _ => rfl

theorem setAddr (s : State) (i : Fin NINODE) (j : Fin (NDIRECT + 1)) (a : Nat) :
    SameInodes s (s.setAddr i j a) := by
  intro k
  by_cases hk : k = i
  · subst hk
    simp [State.setAddr, State.setInode]
  · simp [State.setAddr, State.setInode, hk]

end SameInodes

theorem balloc_sameInodes {b : Nat} (h : balloc s = some (s', b)) : SameInodes s s' := by
  simp only [balloc, Option.map_eq_some_iff, Prod.mk.injEq] at h
  obtain ⟨b', -, rfl, -⟩ := h
  exact fun _ => rfl

theorem allocAddr_sameInodes {j : Fin (NDIRECT + 1)} {c : Prop} [Decidable c] {a₀ a : Nat}
    (h : (if c then (balloc s).map (fun p => (p.1.setAddr i j p.2, p.2)) else some (s, a₀)) = some (s', a)) :
    SameInodes s s' := by
  split at h
  · obtain ⟨⟨s₁, b⟩, hb, he⟩ := Option.map_eq_some_iff.mp h
    cases he
    exact (balloc_sameInodes hb).trans (SameInodes.setAddr _ _ _ _)
  · cases h
    exact SameInodes.refl _

theorem bmap_sameInodes {bn a : Nat} (h : bmap s i bn = some (s', a)) : SameInodes s s' := by
  unfold bmap at h
  dsimp only at h
  split at h
  · exact allocAddr_sameInodes h
  · split at h
    · obtain ⟨⟨s₁, ia⟩, hind, h⟩ := Option.bind_eq_some_iff.mp h
      -- the indirect block, allocated if need be, then the entry in it
      have h₁ : SameInodes s s₁ := allocAddr_sameInodes hind
      dsimp only at h
      split at h
      · obtain ⟨⟨s₂, b⟩, hb, he⟩ := Option.map_eq_some_iff.mp h
        cases he
        exact h₁.trans ((balloc_sameInodes hb).trans (SameInodes.setDisk _ _ _))
      · cases h
        exact h₁
    · cases h

theorem writeLoop_spec (i : Fin NINODE) (src : Bytes) (n : Nat) (d : Nat) :
    ∀ (s : State) (off tot : Nat), n - tot = d → ∀ {s' : State} {off' : Nat},
      writeLoop i src s off tot n = some (s', off') → SameInodes s s' ∧ off' = off + (n - tot) := by
  induction d using Nat.strong_induction_on with
  | _ d ih =>
      intro s off tot hd s' off' hrun
      rw [writeLoop] at hrun
      split at hrun
      · rename_i htot
        split at hrun
        · cases hrun
        · rename_i s₁ a hb
          have hm := chunk_pos off htot
          have hle : chunk off tot n ≤ n - tot := min_le_left _ _
          obtain ⟨hsame, hoff⟩ := ih _ (by omega) _ _ _ rfl hrun
          refine ⟨(bmap_sameInodes hb).trans ((SameInodes.setDisk _ _ _).trans hsame), ?_⟩
          rw [hoff]
          omega
      · cases hrun
        exact ⟨SameInodes.refl _, by omega⟩

theorem readLoop_sameInodes (i : Fin NINODE) (n : Nat) (d : Nat) :
    ∀ (s : State) (off tot : Nat) (dst : List UInt8), n - tot = d → ∀ {s' : State} {dst' : List UInt8},
      readLoop i s off tot n dst = some (s', dst') → SameInodes s s' := by
  induction d using Nat.strong_induction_on with
  | _ d ih =>
      intro s off tot dst hd s' dst' hrun
      rw [readLoop] at hrun
      split at hrun
      · rename_i htot
        split at hrun
        · cases hrun
        · rename_i s₁ a hb
          have hm := chunk_pos off htot
          exact (bmap_sameInodes hb).trans (ih _ (by omega) _ _ _ _ rfl hrun)
      · cases hrun
        exact SameInodes.refl _

/-- `writei` of an inode that is not a device fails with `-1` and changes
nothing, or writes all `n` bytes at `off`, within the size, and leaves the
entry as it was but for its block addresses and its size, which becomes the
larger of the size and the end of the write. -/
theorem writei_spec {src : Bytes} {off n : UInt32} {r : Int} (ht : (s.icache i).type ≠ T_DEV)
    (hw : writei s i src off n = some (s', r)) :
    (r = -1 ∧ s' = s) ∨
      (off.toNat ≤ (s.icache i).size ∧ off.toNat + n.toNat ≤ MAXFILE * BSIZE ∧ r = CInt.ofUInt n.toNat ∧
        ∃ addrs, s'.icache i = { s.icache i with addrs, size := max (s.icache i).size (off.toNat + n.toNat) }) := by
  unfold writei at hw
  dsimp only at hw
  rw [if_neg ht] at hw
  split at hw
  · cases hw
    exact .inl ⟨rfl, rfl⟩
  · rename_i hin
    obtain ⟨hin, -⟩ := not_or.mp hin
    split at hw
    · cases hw
      exact .inl ⟨rfl, rfl⟩
    · rename_i hmax
      obtain ⟨⟨s₁, off'⟩, hloop, he⟩ := Option.map_eq_some_iff.mp hw
      obtain ⟨hsame, hoff⟩ := writeLoop_spec i src n.toNat _ s off.toNat 0 rfl hloop
      rw [Nat.sub_zero] at hoff
      dsimp only at he
      refine .inr ⟨by omega, by omega, ?_⟩
      -- the size grows to the end of the write, or is already past it
      split at he
      · rename_i hgrow
        cases he
        rw [hsame.size i] at hgrow
        refine ⟨rfl, (s₁.icache i).addrs, ?_⟩
        simp only [iupdate_icache, State.setInode_icache_self]
        rw [hsame.icache_eq i, max_eq_right (by omega), hoff]
      · rename_i hkeep
        obtain ⟨rfl, rfl⟩ := Prod.mk.inj he
        rw [hsame.size i] at hkeep
        refine ⟨rfl, (s₁.icache i).addrs, ?_⟩
        rw [hsame.icache_eq i, max_eq_left (by omega)]

theorem writei_within_block {src : Bytes} {off n : UInt32} {a : Nat}
    (ht : (s.icache i).type ≠ T_DEV) (hn : 0 < n.toNat) (hsize : off.toNat ≤ (s.icache i).size)
    (hmax : off.toNat + n.toNat ≤ MAXFILE * BSIZE) (hfit : off.toNat % BSIZE + n.toNat ≤ BSIZE)
    (hb : bmap s i (off.toNat / BSIZE) = some (s', a)) :
    ∃ s'', writei s i src off n = some (s'', CInt.ofUInt n.toNat) := by
  have hwrap : off.toNat + n.toNat < 2 ^ 32 := lt_of_le_of_lt hmax (by decide)
  have hoff : ¬(off.toNat > (s.icache i).size ∨ off + n < off) := by
    rw [UInt32.lt_iff_toNat_lt, UInt32.toNat_add, Nat.mod_eq_of_lt hwrap]
    omega
  have hc : chunk off.toNat 0 n.toNat = n.toNat := by
    unfold chunk
    omega
  simp only [writei, if_neg ht, if_neg hoff, if_neg (Nat.not_lt.mpr hmax)]
  rw [writeLoop_of_lt hn hb, hc, Nat.zero_add, writeLoop_of_ge le_rfl, Option.map_some]
  dsimp only
  split <;> exact ⟨_, rfl⟩

/-- `readi` of an inode that is not a device fails with `-1` and changes
nothing, or reads from `off`, within the size, the `n` bytes asked for or
what is left of the file, and leaves the cache as it was up to block
addresses. -/
theorem readi_spec {off n : UInt32} {r : Int} {dst : List UInt8} (ht : (s.icache i).type ≠ T_DEV)
    (hr : readi s i off n = some (s', r, dst)) :
    (r = -1 ∧ s' = s) ∨
      (off.toNat ≤ (s.icache i).size ∧ r = CInt.ofUInt (min n.toNat ((s.icache i).size - off.toNat)) ∧
        SameInodes s s') := by
  unfold readi at hr
  dsimp only at hr
  rw [if_neg ht] at hr
  split at hr
  · cases hr
    exact .inl ⟨rfl, rfl⟩
  · rename_i hin
    obtain ⟨hin, -⟩ := not_or.mp hin
    obtain ⟨⟨s₁, dst₁⟩, hloop, he⟩ := Option.map_eq_some_iff.mp hr
    dsimp only at he
    simp only [Prod.mk.injEq] at he
    obtain ⟨rfl, hr', -⟩ := he
    refine .inr ⟨by omega, ?_, readLoop_sameInodes i _ _ s _ 0 [] rfl hloop⟩
    -- `readi` trims `n` to what is left of the file
    rw [← hr']
    exact congrArg CInt.ofUInt (by split <;> omega)

/-!
## Files
-/

/-- `struct file` of type `FD_INODE`, with the fields `fileread` and
`filewrite` use: their pipe branches are `Pipe`'s, and `ref` is that of
`filedup` and `fileclose`. -/
structure File where
  readable : Bool
  writable : Bool
  ip : Fin NINODE
  off : UInt32

/-- `fileread(f, addr, n)`: the state, the file, what it returns, and the
bytes it copies to `addr`; `n` goes to `readi` as a `uint`. -/
def fileread (s : State) (f : File) (n : Int) : Option (State × File × Int × List UInt8) :=
  if f.readable = false then some (s, f, -1, [])
  else
    (ilock s f.ip).bind fun s =>
      (readi s f.ip f.off (UInt32.ofInt n)).map fun (s, r, dst) =>
        (s, if r > 0 then { f with off := f.off + UInt32.ofInt r } else f, r, dst)

/-- `max` of `filewrite`: the bytes of one transaction's chunk. -/
def maxChunk : Nat :=
  (MAXOPBLOCKS - 1 - 1 - 2) / 2 * 512

/-- The body of `filewrite`'s loop at `i` of `n` bytes, from `begin_op` to
`end_op`: `n1` bytes of `addr + i` written at `f->off`, which moves on by
what `writei` returned, and that value. -/
def writeChunk (s : State) (f : File) (src : Bytes) (i n : Nat) : Option (State × File × Int) :=
  let n1 := min (n - i) maxChunk
  (ilock s f.ip).bind fun s =>
    (writei s f.ip (fun k => src (i + k)) f.off (UInt32.ofNat n1)).map fun (s, r) =>
      (s, if r > 0 then { f with off := f.off + UInt32.ofInt r } else f, r)

theorem toNat_ofInt_natCast (n : Nat) : (UInt32.ofInt (n : Int)).toNat = n % 2 ^ 32 := by
  rw [UInt32.ofInt, UInt32.toNat_ofNat']
  omega

theorem toNat_off_add {off : UInt32} {m : Nat} (h : off.toNat + m < 2 ^ 32) :
    (off + UInt32.ofInt (m : Int)).toNat = off.toNat + m := by
  rw [UInt32.toNat_add, toNat_ofInt_natCast]
  omega

variable {f f' : File}

/-- `writeChunk` on a held, valid inode that is not a device fails with `-1`
and changes nothing, or writes all its `n1` bytes: the offset moves on by
them, and the size becomes the larger of the size and the new offset.  So
`panic("short filewrite")` cannot happen. -/
theorem writeChunk_spec {src : Bytes} {i n : Nat} {r : Int}
    (hr : 1 ≤ (s.icache f.ip).ref) (hv : (s.icache f.ip).valid = true) (ht : (s.icache f.ip).type ≠ T_DEV)
    (hw : writeChunk s f src i n = some (s', f', r)) :
    (r = -1 ∧ s' = s ∧ f' = f) ∨
      (r = min (n - i) maxChunk ∧ f' = { f with off := f'.off } ∧
        f'.off.toNat = f.off.toNat + min (n - i) maxChunk ∧ f'.off.toNat ≤ MAXFILE * BSIZE ∧
        ∃ addrs, s'.icache f.ip = { s.icache f.ip with addrs, size := max (s.icache f.ip).size f'.off.toNat }) := by
  unfold writeChunk at hw
  dsimp only at hw
  rw [ilock_of_valid hr hv, Option.bind_some] at hw
  obtain ⟨⟨s₁, r₁⟩, hwi, he⟩ := Option.map_eq_some_iff.mp hw
  dsimp only at he
  have hcap : MAXFILE * BSIZE < 2 ^ 31 := by decide
  have hn1 : min (n - i) maxChunk ≤ 1536 := min_le_right _ _
  have hnat : (UInt32.ofNat (min (n - i) maxChunk)).toNat = min (n - i) maxChunk :=
    UInt32.toNat_ofNat_of_lt' (lt_of_le_of_lt hn1 (by decide))
  rcases writei_spec ht hwi with ⟨rfl, rfl⟩ | ⟨-, hend, hr₁, addrs, hip⟩
  · -- `writei` failed: the offset stays
    rw [if_neg (by decide)] at he
    cases he
    exact .inl ⟨rfl, rfl, rfl⟩
  · rw [hnat] at hend hip
    rw [hr₁, hnat, CInt.ofUInt_of_lt (by omega)] at he
    refine .inr ?_
    by_cases h0 : 0 < min (n - i) maxChunk
    · rw [if_pos (by omega)] at he
      cases he
      have hoff : ({ f with off := f.off + UInt32.ofInt (min (n - i) maxChunk : Nat) } : File).off.toNat =
          f.off.toNat + min (n - i) maxChunk :=
        toNat_off_add (by omega)
      exact ⟨rfl, rfl, hoff, by rw [hoff]; exact hend, addrs, by rw [hoff]; exact hip⟩
    · rw [if_neg (by omega)] at he
      cases he
      have h0 : min (n - i) maxChunk = 0 := by omega
      rw [h0] at hip ⊢
      exact ⟨rfl, rfl, rfl, by omega, addrs, hip⟩

/-- `fileread` on a held, valid inode that is not a device, within `MAXFILE`
blocks, fails with `-1` and changes nothing, or reads `m` bytes from the
offset, within the size: the `n` asked for or what is left of the file.  The
offset moves on by them, and the cache is as it was up to block addresses. -/
theorem fileread_spec {n r : Int} {dst : List UInt8}
    (hr : 1 ≤ (s.icache f.ip).ref) (hv : (s.icache f.ip).valid = true) (ht : (s.icache f.ip).type ≠ T_DEV)
    (hsize : (s.icache f.ip).size ≤ MAXFILE * BSIZE) (hread : fileread s f n = some (s', f', r, dst)) :
    (r = -1 ∧ s' = s ∧ f' = f) ∨
      ∃ m : Nat, r = m ∧ m = min (UInt32.ofInt n).toNat ((s.icache f.ip).size - f.off.toNat) ∧
        f.off.toNat ≤ (s.icache f.ip).size ∧ f' = { f with off := f'.off } ∧
        f'.off.toNat = f.off.toNat + m ∧ SameInodes s s' := by
  unfold fileread at hread
  split at hread
  · cases hread
    exact .inl ⟨rfl, rfl, rfl⟩
  · rw [ilock_of_valid hr hv, Option.bind_some] at hread
    obtain ⟨⟨s₁, r₁, dst₁⟩, hri, he⟩ := Option.map_eq_some_iff.mp hread
    dsimp only at he
    rcases readi_spec ht hri with ⟨rfl, rfl⟩ | ⟨hoff, hr₁, hsame⟩
    · rw [if_neg (by decide)] at he
      cases he
      exact .inl ⟨rfl, rfl, rfl⟩
    · have hbound : MAXFILE * BSIZE < 2 ^ 31 := by decide
      have hm : min (UInt32.ofInt n).toNat ((s.icache f.ip).size - f.off.toNat) ≤ (s.icache f.ip).size - f.off.toNat :=
        min_le_right _ _
      rw [hr₁, CInt.ofUInt_of_lt (by omega)] at he
      simp only [Prod.mk.injEq] at he
      obtain ⟨rfl, hf, rfl, -⟩ := he
      refine .inr ⟨_, rfl, rfl, hoff, ?_⟩
      by_cases h0 : 0 < min (UInt32.ofInt n).toNat ((s.icache f.ip).size - f.off.toNat)
      · rw [if_pos (by omega)] at hf
        subst hf
        exact ⟨rfl, toNat_off_add (by omega), hsame⟩
      · rw [if_neg (by omega)] at hf
        subst hf
        exact ⟨rfl, by omega, hsame⟩

/-!
## Processes sharing one file

Each `fileread`, and each turn of `filewrite`'s loop, holds the inode's lock
from `ilock` to `iunlock`, and with it the only access to `f->off`; each is
one step.  The history records, in the order they took the lock, the
transfers that moved the offset.
-/

/-- One transfer through the file: the offset it started at, the bytes it
moved, and whether it wrote them. -/
structure Transfer where
  off : Nat
  len : Nat
  write : Bool
deriving DecidableEq, Repr

/-- Processes `ι` sharing one `struct file`: the file system, the file, the
`filewrite` each process is in (its buffer, `n` and `i`) and, as history, the
transfers through the file and what each call returned. -/
structure Shared (ι : Type) where
  fs : State
  file : File
  writing : ι → Option (Bytes × Nat × Nat)
  moved : List Transfer
  replies : List (ι × Int)

inductive FileEvent (ι : Type) where
  /-- Process `p` calls `filewrite` with `n` bytes from `src`. -/
  | write (p : ι) (src : Bytes) (n : Int)
  /-- Process `p`, in `filewrite`, runs a turn of its loop, or returns. -/
  | turn (p : ι)
  /-- Process `p` calls `fileread` for `n` bytes. -/
  | read (p : ι) (n : Int)

namespace Shared

open Function

variable {ι : Type}

/-- Process `p` returns `r` from `filewrite`. -/
def reply [DecidableEq ι] (s : Shared ι) (p : ι) (r : Int) : Shared ι :=
  { s with writing := update s.writing p none, replies := s.replies ++ [(p, r)] }

def step [DecidableEq ι] (s : Shared ι) : FileEvent ι → Option (Shared ι)
  | .write p src n =>
      if (s.writing p).isSome then none
      else if s.file.writable = false then some (s.reply p (-1))
      -- the loop does not run, and `i == n` fails
      else if n < 0 then some (s.reply p (-1))
      else some { s with writing := update s.writing p (some (src, n.toNat, 0)) }
  | .turn p =>
      match s.writing p with
      | none => none
      | some (src, n, i) =>
          if i < n then
            (writeChunk s.fs s.file src i n).bind fun (fs, f, r) =>
              if r < 0 then some (reply { s with fs := fs, file := f } p (if i = n then n else -1))
              else if r ≠ (min (n - i) maxChunk : Nat) then none
              else
                some { s with
                  fs := fs
                  file := f
                  writing := update s.writing p (some (src, n, i + r.toNat))
                  moved := s.moved ++ [⟨s.file.off.toNat, r.toNat, true⟩] }
          else some (s.reply p (if i = n then n else -1))
  | .read p n =>
      if (s.writing p).isSome then none
      else
        (fileread s.fs s.file n).map fun (fs, f, r, _) =>
          { s with
            fs := fs
            file := f
            moved := if r > 0 then s.moved ++ [⟨s.file.off.toNat, r.toNat, false⟩] else s.moved
            replies := s.replies ++ [(p, r)] }

/-- The cache entry of the file's inode. -/
def inode (s : Shared ι) : Inode :=
  s.fs.icache s.file.ip

/-- The size of the file. -/
def size (s : Shared ι) : Nat :=
  s.inode.size

/-- The bytes written through the file. -/
def written (s : Shared ι) : Nat :=
  Extent.total Transfer.len (s.moved.filter Transfer.write)

/-- The file open on an inode that is not a device, its offset within the
file, and no process in `filewrite`. -/
def Init (s : Shared ι) : Prop :=
  1 ≤ s.inode.ref ∧ s.inode.valid = true ∧ s.inode.type ≠ T_DEV ∧ s.size ≤ MAXFILE * BSIZE ∧
    s.file.off.toNat ≤ s.size ∧ s.writing = (fun _ => none) ∧ s.moved = []

/-- What holds along a run from a state whose file is on inode `i` with
offset `o` and size `z`: the transfers lie end to end from `o`, the offset is
where the last ended, and the size is the larger of `z` and the offset; when
`o` was the end of the file, every transfer is a write. -/
structure Inv (i : Fin NINODE) (o z : Nat) (s : Shared ι) : Prop where
  ip : s.file.ip = i
  ref : 1 ≤ s.inode.ref
  valid : s.inode.valid = true
  type : s.inode.type ≠ T_DEV
  bound : s.size ≤ MAXFILE * BSIZE
  start : o ≤ z
  contiguous : Extent.Contiguous Transfer.off Transfer.len o s.moved
  off : s.file.off.toNat = o + Extent.total Transfer.len s.moved
  size : s.size = max z s.file.off.toNat
  atEnd : o = z → ∀ t ∈ s.moved, t.write = true

variable {s s' s₀ : Shared ι} {i : Fin NINODE} {o z : Nat}

theorem inv_init (h : Init s) : Inv s.file.ip s.file.off.toNat s.size s := by
  obtain ⟨hr, hv, ht, hb, hoff, -, hm⟩ := h
  refine ⟨rfl, hr, hv, ht, hb, hoff, ?_, ?_, ?_, ?_⟩
  · rw [hm]
    trivial
  · simp [hm]
  · omega
  · simp [hm]

theorem Inv.of_same (h : Inv i o z s) (hfs : SameInodes s.fs s'.fs) (hip : s'.file.ip = s.file.ip)
    (hoff : s'.file.off = s.file.off) (hm : s'.moved = s.moved) : Inv i o z s' := by
  have href : s'.inode.ref = s.inode.ref := by simp only [inode, hip]; exact hfs.ref _
  have hvalid : s'.inode.valid = s.inode.valid := by simp only [inode, hip]; exact hfs.valid _
  have htype : s'.inode.type = s.inode.type := by simp only [inode, hip]; exact hfs.type _
  have hsize : s'.size = s.size := by simp only [Shared.size, inode, hip]; exact hfs.size _
  refine ⟨hip.trans h.ip, href ▸ h.ref, hvalid ▸ h.valid, htype ▸ h.type, hsize ▸ h.bound, h.start, ?_, ?_, ?_, ?_⟩
  · rw [hm]
    exact h.contiguous
  · rw [hoff, hm]
    exact h.off
  · rw [hsize, hoff]
    exact h.size
  · rw [hm]
    exact h.atEnd

/-- A step that leaves the file's entry as it was but for its block addresses
and size, and records a transfer from the offset, which it moves past the
transfer, keeps the invariant when the size stays within `MAXFILE` blocks and
the larger of `z` and the offset, and when from the end of the file it only
writes. -/
theorem Inv.transfer (h : Inv i o z s) (t : Transfer) (hip : s'.file.ip = s.file.ip)
    (hentry : ∃ addrs sz, s'.inode = { s.inode with addrs, size := sz }) (hbound : s'.size ≤ MAXFILE * BSIZE)
    (hoff : s'.file.off.toNat = s.file.off.toNat + t.len) (hsize : s'.size = max z s'.file.off.toNat)
    (hm : s'.moved = s.moved ++ [t]) (ht : t.off = s.file.off.toNat) (hw : o = z → t.write = true) :
    Inv i o z s' := by
  obtain ⟨addrs, sz, he⟩ := hentry
  have hoff₀ := h.off
  refine ⟨hip.trans h.ip, ?_, ?_, ?_, hbound, h.start, ?_, ?_, hsize, ?_⟩
  · rw [he]
    exact h.ref
  · rw [he]
    exact h.valid
  · rw [he]
    exact h.type
  · rw [hm]
    exact Extent.contiguous_concat.mpr ⟨h.contiguous, ht.trans h.off⟩
  · rw [hm, hoff, Extent.total_append, Extent.total_cons, Extent.total_nil]
    omega
  · intro ho u hu
    rw [hm] at hu
    rcases List.mem_append.mp hu with hu | hu
    · exact h.atEnd ho u hu
    · rw [List.mem_singleton.mp hu]
      exact hw ho

/-- A turn of `filewrite`'s loop whose chunk `writei` wrote keeps the
invariant: the chunk starts at the offset, which moves past it, and the size
grows to the new offset if it was short of it. -/
theorem Inv.write_chunk (h : Inv i o z s) {src : Bytes} {k n : Nat} {fs : State} {f : File} {r : Int}
    (hw : writeChunk s.fs s.file src k n = some (fs, f, r)) (hr : ¬r < 0) (w : ι → Option (Bytes × Nat × Nat)) :
    Inv i o z { s with fs := fs, file := f, writing := w, moved := s.moved ++ [⟨s.file.off.toNat, r.toNat, true⟩] } := by
  rcases writeChunk_spec h.ref h.valid h.type hw with ⟨rfl, -, -⟩ | ⟨rfl, hf, hoff, hend, addrs, hip⟩
  · exact absurd (show (-1 : Int) < 0 by decide) hr
  · have hfip : f.ip = s.file.ip := by rw [hf]
    have hinode : fs.icache f.ip = { s.inode with addrs, size := max s.size f.off.toNat } := by
      rw [hfip]
      exact hip
    have hsize : (fs.icache f.ip).size = max s.size f.off.toNat := by rw [hinode]
    have hsize₀ := h.size
    have hbound := h.bound
    refine h.transfer _ hfip ⟨addrs, _, hinode⟩ ?_ ?_ ?_ rfl rfl fun _ => rfl
    · show (fs.icache f.ip).size ≤ MAXFILE * BSIZE
      rw [hsize]
      omega
    · show f.off.toNat = s.file.off.toNat + ((min (n - k) maxChunk : Nat) : Int).toNat
      rw [Int.toNat_natCast, hoff]
    · show (fs.icache f.ip).size = max z f.off.toNat
      rw [hsize]
      omega

/-- A `fileread` keeps the invariant: what it reads starts at the offset,
which moves past it, within the size.  From the end of the file it reads
nothing. -/
theorem Inv.read (h : Inv i o z s) {n r : Int} {fs : State} {f : File} {dst : List UInt8}
    (hr : fileread s.fs s.file n = some (fs, f, r, dst)) (rs : List (ι × Int)) :
    Inv i o z { s with
      fs := fs
      file := f
      moved := if r > 0 then s.moved ++ [⟨s.file.off.toNat, r.toNat, false⟩] else s.moved
      replies := rs } := by
  rcases fileread_spec h.ref h.valid h.type h.bound hr with ⟨rfl, rfl, rfl⟩ | ⟨m, rfl, hm, -, hf, hadv, hsame⟩
  · exact h.of_same (SameInodes.refl _) rfl rfl (by rw [if_neg (show ¬(-1 : Int) > 0 by decide)])
  · have hfip : f.ip = s.file.ip := by rw [hf]
    by_cases h0 : 0 < m
    · -- `readi` moved `m` bytes, within the size
      rw [if_pos (by omega)]
      have hinode : fs.icache f.ip = { s.inode with addrs := (fs.icache f.ip).addrs, size := s.size } := by
        rw [hfip]
        exact hsame.icache_eq _
      have hsize : (fs.icache f.ip).size = s.size := by rw [hinode]
      have hle : m ≤ s.size - s.file.off.toNat := hm ▸ min_le_right _ _
      have hoff₀ := h.off
      have hsize₀ := h.size
      refine h.transfer _ hfip ⟨_, _, hinode⟩ ?_ ?_ ?_ rfl rfl ?_
      · show (fs.icache f.ip).size ≤ MAXFILE * BSIZE
        rw [hsize]
        exact h.bound
      · show f.off.toNat = s.file.off.toNat + (m : Int).toNat
        rw [Int.toNat_natCast, hadv]
      · show (fs.icache f.ip).size = max z f.off.toNat
        rw [hsize]
        omega
      · -- from the end of the file, where the offset stays, there is nothing to read
        intro ho
        exfalso
        omega
    · have hm0 : m = 0 := by omega
      subst hm0
      have hoff : f.off = s.file.off := UInt32.toNat_inj.mp (by omega)
      exact h.of_same hsame hfip hoff (by rw [if_neg (show ¬((0 : Nat) : Int) > 0 by decide)])

variable [DecidableEq ι]

theorem Inv.reply (h : Inv i o z s) (p : ι) (r : Int) : Inv i o z (s.reply p r) :=
  h.of_same (SameInodes.refl _) rfl rfl rfl

theorem inv_step (h : Inv i o z s) {e : FileEvent ι} (hs : step s e = some s') : Inv i o z s' := by
  cases e with
  | write p src n =>
      simp only [step] at hs
      split at hs
      · cases hs
      split at hs
      · cases hs
        exact h.reply p (-1)
      split at hs
      · cases hs
        exact h.reply p (-1)
      · cases hs
        exact h.of_same (SameInodes.refl _) rfl rfl rfl
  | turn p =>
      simp only [step] at hs
      split at hs
      · cases hs
      · split at hs
        · obtain ⟨⟨fs, f, r⟩, hw, hs⟩ := Option.bind_eq_some_iff.mp hs
          dsimp only at hs
          split at hs
          · -- `r < 0`: `writei` failed, and nothing moved
            rename_i hneg
            cases hs
            rcases writeChunk_spec h.ref h.valid h.type hw with ⟨-, rfl, rfl⟩ | ⟨rfl, -⟩
            · exact h.reply p _
            · omega
          · rename_i hneg
            split at hs
            · cases hs
            · cases hs
              exact h.write_chunk hw hneg _
        · cases hs
          exact h.reply p _
  | read p n =>
      simp only [step] at hs
      split at hs
      · cases hs
      · obtain ⟨⟨fs, f, r, dst⟩, hr, rfl⟩ := Option.map_eq_some_iff.mp hs
        exact h.read hr _

theorem inv_of_exec {es : List (FileEvent ι)} (h₀ : Init s₀) (hrun : Run.exec step s₀ es = some s) :
    Inv s₀.file.ip s₀.file.off.toNat s₀.size s :=
  Run.exec_invariant (fun _ _ _ h hs => inv_step h hs) hrun (inv_init h₀)

/-- However the processes sharing a file interleave their `fileread`s and
the chunks of their `filewrite`s, the file stays on its inode, each transfer
starts where the one before it ended, so that no two overlap and they leave no
gap, and the offset has moved by exactly the bytes transferred.  The size is
the larger of the size at the start and the offset; so when the offset
started at the end of the file, the file has grown by exactly the bytes
written, and when it started inside, by only what reached past the end. -/
theorem shared_offset_transfers {es : List (FileEvent ι)} (h₀ : Init s₀)
    (hrun : Run.exec step s₀ es = some s) :
    s.file.ip = s₀.file.ip ∧
      Extent.Contiguous Transfer.off Transfer.len s₀.file.off.toNat s.moved ∧
      s.moved.Pairwise (fun a b => a.off + a.len ≤ b.off) ∧
      (∀ x, s₀.file.off.toNat ≤ x → x < s.file.off.toNat → ∃ t ∈ s.moved, t.off ≤ x ∧ x < t.off + t.len) ∧
      s.file.off.toNat = s₀.file.off.toNat + Extent.total Transfer.len s.moved ∧
      s.size = max s₀.size s.file.off.toNat ∧
      (s₀.file.off.toNat = s₀.size → s.size = s₀.size + s.written) := by
  have h := inv_of_exec h₀ hrun
  refine ⟨h.ip, h.contiguous, Extent.pairwise_end_le_start h.contiguous, ?_, h.off, h.size, ?_⟩
  · intro x hlo hhi
    rw [h.off] at hhi
    exact Extent.exists_mem_of_lt h.contiguous hlo hhi
  · -- from the end of the file every transfer is a write
    intro hend
    have hall : s.moved.filter Transfer.write = s.moved := List.filter_eq_self.mpr (h.atEnd hend)
    have hoff := h.off
    have hsize := h.size
    rw [written, hall]
    omega

theorem step_write_start {p : ι} {src : Bytes} {n : Int} (hp : s.writing p = none) (hw : s.file.writable = true)
    (hn : 0 ≤ n) : step s (.write p src n) = some { s with writing := update s.writing p (some (src, n.toNat, 0)) } := by
  simp [step, hp, hw, Int.not_lt.mpr hn]

theorem step_turn_chunk {p : ι} {src : Bytes} {n k : Nat} {fs : State} {f : File}
    (hp : s.writing p = some (src, n, k)) (hk : k < n)
    (hw : writeChunk s.fs s.file src k n = some (fs, f, ((min (n - k) maxChunk : Nat) : Int))) :
    step s (.turn p) =
      some { s with
        fs := fs
        file := f
        writing := update s.writing p (some (src, n, k + min (n - k) maxChunk))
        moved := s.moved ++ [⟨s.file.off.toNat, min (n - k) maxChunk, true⟩] } := by
  have hr : ¬((min (n - k) maxChunk : Nat) : Int) < 0 := by omega
  simp only [step, hp, if_pos hk, hw, Option.bind_some, if_neg hr, ne_eq, not_true_eq_false, if_false,
    Int.toNat_natCast]

/-- A `filewrite` of at most `maxChunk` bytes while no other process takes a
step: the call, the turn that writes them in one chunk, and the turn that
returns `n`. -/
theorem exec_write_one_chunk {p : ι} {src : Bytes} {n : Nat} {fs : State} {f : File}
    (hp : s.writing p = none) (hw : s.file.writable = true) (hn : 0 < n) (hmax : n ≤ maxChunk)
    (hc : writeChunk s.fs s.file src 0 n = some (fs, f, (n : Int))) :
    Run.exec step s [.write p src n, .turn p, .turn p] =
      some (reply { s with fs := fs, file := f, moved := s.moved ++ [⟨s.file.off.toNat, n, true⟩] } p n) := by
  have hmin : min (n - 0) maxChunk = n := by omega
  have hc' : writeChunk s.fs s.file src 0 n = some (fs, f, ((min (n - 0) maxChunk : Nat) : Int)) := by
    rw [hmin]
    exact hc
  rw [Run.exec_cons_of_step _ (step_write_start hp hw (by omega)), Int.toNat_natCast,
    Run.exec_cons_of_step _
      (step_turn_chunk (s := { s with writing := update s.writing p (some (src, n, 0)) }) (update_self _ _ _) hn hc')]
  simp [Run.exec, step, reply, Nat.min_eq_left hmax]

/-- A file of one full block, open for reading and writing at offset `0`. -/
def oneBlock : Shared Unit where
  fs :=
    { sb := ⟨FSSIZE, 0, 0, 0, 0, 0, 0⟩
      disk := fun _ _ => 0
      icache := fun _ =>
        { type := T_FILE, major := 0, minor := 0, nlink := 1, size := BSIZE, addrs := fun _ => 100,
          dev := ROOTDEV, inum := 2, ref := 1, valid := true } }
  file := ⟨true, true, 0, 0⟩
  writing := fun _ => none
  moved := []
  replies := []

/-- A process writes ten bytes through it. -/
def overwrite : List (FileEvent Unit) :=
  [.write () (fun _ => 7) 10, .turn (), .turn ()]

theorem init_oneBlock : Init oneBlock :=
  ⟨by decide, rfl, by decide, by decide, by decide, rfl, rfl⟩

theorem oneBlock_overwrite : ∃ s, Run.exec step oneBlock overwrite = some s ∧ s.moved = [⟨0, 10, true⟩] := by
  have hlt : min (10 - 0) maxChunk < 2 ^ 31 := by decide
  have hnat : (UInt32.ofNat (min (10 - 0) maxChunk)).toNat = min (10 - 0) maxChunk :=
    UInt32.toNat_ofNat_of_lt' (lt_trans hlt (by decide))
  have hoff : oneBlock.file.off.toNat = 0 := rfl
  obtain ⟨fs, hw⟩ : ∃ fs, writei oneBlock.fs oneBlock.file.ip (fun k => (fun _ => (7 : UInt8)) (0 + k))
      oneBlock.file.off (UInt32.ofNat (min (10 - 0) maxChunk)) =
        some (fs, CInt.ofUInt (UInt32.ofNat (min (10 - 0) maxChunk)).toNat) :=
    writei_within_block (by decide) (by rw [hnat]; decide) (by rw [hoff]; decide) (by rw [hoff, hnat]; decide)
      (by rw [hoff, hnat]; decide) (bmap_of_mapped (by rw [hoff]; decide) (by show (100 : Nat) ≠ 0; decide))
  rw [hnat] at hw
  have hmoved : oneBlock.moved = [] := rfl
  rw [CInt.ofUInt_of_lt hlt] at hw
  obtain ⟨f, hchunk⟩ : ∃ f, writeChunk oneBlock.fs oneBlock.file (fun _ => 7) 0 10 = some (fs, f, 10) := by
    rw [writeChunk, ilock_of_valid (by decide) rfl, Option.bind_some, hw, Option.map_some]
    dsimp only
    rw [if_pos (by decide)]
    exact ⟨_, rfl⟩
  refine ⟨_, exec_write_one_chunk rfl rfl (by decide) (by decide) hchunk, ?_⟩
  show oneBlock.moved ++ [⟨oneBlock.file.off.toNat, 10, true⟩] = _
  rw [hmoved, hoff]
  rfl

theorem shared_offset_transfers_on_overwrite :
    Init oneBlock ∧ ∃ s, Run.exec step oneBlock overwrite = some s ∧
      s.file.ip = oneBlock.file.ip ∧
      Extent.Contiguous Transfer.off Transfer.len oneBlock.file.off.toNat s.moved ∧
      s.moved.Pairwise (fun a b => a.off + a.len ≤ b.off) ∧
      (∀ x, oneBlock.file.off.toNat ≤ x → x < s.file.off.toNat →
        ∃ t ∈ s.moved, t.off ≤ x ∧ x < t.off + t.len) ∧
      s.file.off.toNat = oneBlock.file.off.toNat + Extent.total Transfer.len s.moved ∧
      s.size = max oneBlock.size s.file.off.toNat ∧
      (oneBlock.file.off.toNat = oneBlock.size → s.size = oneBlock.size + s.written) := by
  obtain ⟨s, hrun, -⟩ := oneBlock_overwrite
  exact ⟨init_oneBlock, s, hrun, shared_offset_transfers init_oneBlock hrun⟩

theorem overwrite_keeps_size :
    Init oneBlock ∧ ∃ s, Run.exec step oneBlock overwrite = some s ∧ s.written = 10 ∧ s.size = oneBlock.size := by
  obtain ⟨s, hrun, hm⟩ := oneBlock_overwrite
  have h := inv_of_exec init_oneBlock hrun
  have hoff := h.off
  have hsize := h.size
  have h512 : oneBlock.size = 512 := rfl
  have h0 : oneBlock.file.off.toNat = 0 := rfl
  rw [hm, h0] at hoff
  simp only [Extent.total_cons, Extent.total_nil] at hoff
  refine ⟨init_oneBlock, s, hrun, by simp [written, hm], ?_⟩
  rw [hsize, h512]
  omega

end Shared

end Fs

end Xv6
