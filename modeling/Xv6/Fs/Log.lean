import Mathlib.Data.List.GetD
import Mathlib.Data.List.Nodup
import Xv6.Library.Disk
import Xv6.Library.Bytes
import Xv6.Fs.Trans

/-!
# The write-ahead log of `log.c`

The log occupies the header block `log.start` and the blocks after it.
`commit()` copies the cached content of each logged block into the log
(`write_log`), writes the header (`write_head`, the commit point), copies the
log to the home blocks (`install_trans`) and writes an empty header.  At boot
`recover_from_log()` reads the header, installs what it names and empties it.

Each `bwrite` is one disk write, and a crash keeps a prefix of the writes.
The blocks are of any type; how the header sits in its block is a parameter,
with the one law the code relies on: `read_head` reads back what `write_head`
wrote, for a header that fits `block[LOGSIZE]`.  `logheader` is that layout
for the bytes of a block, as `struct logheader` has it.
-/

namespace Xv6

namespace Log

open Bytes

/-- How `struct logheader` lies in the header block: `get` reads the block
numbers `block[0..n)`, and `put` writes `n` and those numbers over the block,
keeping the rest of it.  The numbers are `int`s, so the law is for at most
`LOGSIZE` of them, each below `2 ^ 32`. -/
structure HeaderLayout (α : Type) where
  get : α → List Nat
  put : List Nat → α → α
  get_put : ∀ l x, l.length ≤ LOGSIZE → (∀ b ∈ l, b < 2 ^ 32) → get (put l x) = l

/-- `read_head()` on the bytes of the header block: `n` in the first four,
`block[i]` in the four from `4 + 4 * i`.  The loop runs while `i < n` for an
`int` `n`, so a word with its sign bit set names no block. -/
def readHead (x : Bytes) : List Nat :=
  let n := getLE x 0 4
  (List.range (if n < 2 ^ 31 then n else 0)).map fun i => getLE x (4 + 4 * i) 4

/-- `write_head()` on the bytes of the header block: `hb->n` and then
`hb->block[0..n)`. -/
def putHead (lh : List Nat) (x : Bytes) : Bytes :=
  setWords (setLE x 0 lh.length 4) 4 (fun i => lh.getD i 0) lh.length

theorem readHead_putHead {lh : List Nat} (x : Bytes) (hcap : lh.length ≤ LOGSIZE)
    (hword : ∀ b ∈ lh, b < 2 ^ 32) : readHead (putHead lh x) = lh := by
  have hn : getLE (putHead lh x) 0 4 = lh.length := by
    rw [putHead, getLE_setWords_of_disjoint (o := 4) _ _ (Or.inl le_rfl), getLE_setLE_self]
    exact Nat.mod_eq_of_lt (by unfold LOGSIZE MAXOPBLOCKS at hcap; omega)
  have hsmall : lh.length < 2 ^ 31 := by
    unfold LOGSIZE MAXOPBLOCKS at hcap
    omega
  simp only [readHead, hn, if_pos hsmall]
  apply List.ext_getElem (by simp)
  intro i hi _
  -- each word read is the block number `write_head` put there
  rw [List.getElem_map, List.getElem_range, putHead, getLE_setWords_self _ _ _ (by simpa using hi),
    List.getD_eq_getElem _ _ (by simpa using hi)]
  exact Nat.mod_eq_of_lt (hword _ (List.getElem_mem _))

/-- `struct logheader` in the bytes of its block. -/
def logheader : HeaderLayout Bytes :=
  ⟨readHead, putHead, fun _ x hcap hword => readHead_putHead x hcap hword⟩

variable {α : Type} (L : HeaderLayout α) (start : Nat)

/-- `write_head()`. -/
def writeHead (lh : List Nat) : (Nat → α) → Nat → α :=
  fun d => Function.update d start (L.put lh (d start))

/-- `write_log()`: log block `tail + 1` gets the cached content of block `lh[tail]`. -/
def writeLog (cache : Nat → α) (lh : List Nat) : List ((Nat → α) → Nat → α) :=
  Disk.writeLoop lh.length (fun tail => start + tail + 1) (fun tail _ => cache (lh.getD tail 0))

/-- `install_trans()`: block `lh[tail]` gets the content of log block `tail + 1`. -/
def installTrans (lh : List Nat) : List ((Nat → α) → Nat → α) :=
  Disk.writeLoop lh.length (fun tail => lh.getD tail 0) (fun tail d => d (start + tail + 1))

/-- The writes of `commit()` for the logged blocks `lh`, cached as `cache`. -/
def commit (cache : Nat → α) (lh : List Nat) : List ((Nat → α) → Nat → α) :=
  if 0 < lh.length then
    writeLog start cache lh ++ [writeHead L start lh] ++ installTrans start lh ++
      [writeHead L start []]
  else
    []

/-- The writes of `recover_from_log()` on the disk `d`: `read_head()` decides them. -/
def recoverWrites (d : Nat → α) : List ((Nat → α) → Nat → α) :=
  installTrans start (L.get (d start)) ++ [writeHead L start []]

def recover (d : Nat → α) : Nat → α :=
  Disk.run (recoverWrites L start d) d

/-- The disk a crash leaves after the first `k` writes of `commit()`. -/
def crashCommit (cache : Nat → α) (lh : List Nat) (k : Nat) (d : Nat → α) : Nat → α :=
  Disk.run ((commit L start cache lh).take k) d

/-- A home block for a log of `n` blocks: neither the header nor a log block. -/
def Home (n b : Nat) : Prop :=
  b < start ∨ start + n < b

variable {L start}

/-!
## The three loops and the header
-/

theorem writeHead_of_ne {lh : List Nat} {b : Nat} (hb : b ≠ start) (d : Nat → α) :
    writeHead L start lh d b = d b :=
  Function.update_of_ne hb _ _

theorem get_writeHead {lh : List Nat} (hcap : lh.length ≤ LOGSIZE) (hword : ∀ b ∈ lh, b < 2 ^ 32)
    (d : Nat → α) : L.get (writeHead L start lh d start) = lh := by
  rw [writeHead, Function.update_self, L.get_put _ _ hcap hword]

@[simp] theorem get_writeHead_nil (d : Nat → α) : L.get (writeHead L start [] d start) = [] :=
  get_writeHead (Nat.zero_le _) (fun _ hb => absurd hb List.not_mem_nil) d

theorem getD_mem {h : List Nat} {t : Nat} (ht : t < h.length) : h.getD t 0 ∈ h := by
  rw [List.getD_eq_getElem h 0 ht]
  exact List.getElem_mem ht

theorem getD_injective {h : List Nat} (hnd : h.Nodup) {t u : Nat} (ht : t < h.length)
    (hu : u < h.length) (htu : h.getD t 0 = h.getD u 0) : t = u := by
  rw [List.getD_eq_getElem h 0 ht, List.getD_eq_getElem h 0 hu] at htu
  exact (hnd.getElem_inj_iff).mp htu

theorem run_writeLog_of_ne {cache : Nat → α} {lh : List Nat} {m b : Nat}
    (hb : b ≤ start ∨ start + m < b) (d : Nat → α) :
    Disk.run (Disk.writeLoop m (fun tail => start + tail + 1)
      (fun tail _ => cache (lh.getD tail 0))) d b = d b :=
  Disk.run_writeLoop_of_ne (fun t ht h => by omega) d

theorem run_writeLog_log {cache : Nat → α} {lh : List Nat} {m t : Nat} (ht : t < m)
    (d : Nat → α) :
    Disk.run (Disk.writeLoop m (fun tail => start + tail + 1)
      (fun tail _ => cache (lh.getD tail 0))) d (start + t + 1) = cache (lh.getD t 0) :=
  Disk.run_writeLoop_self (N := m) (fun t u _ _ h => by omega)
    (fun _ _ _ _ _ => rfl) m (Nat.le_refl m) t ht d

theorem run_install_of_not_mem {h : List Nat} {m b : Nat} (hm : m ≤ h.length) (hb : b ∉ h)
    (d : Nat → α) :
    Disk.run (Disk.writeLoop m (fun tail => h.getD tail 0)
      (fun tail d => d (start + tail + 1))) d b = d b :=
  Disk.run_writeLoop_of_ne (fun t ht heq => hb (by rw [← heq]; exact getD_mem (by omega))) d

theorem run_install_getD {h : List Nat} (hnd : h.Nodup) (hhome : ∀ b ∈ h, Home start h.length b)
    {m t : Nat} (hm : m ≤ h.length) (ht : t < m) (d : Nat → α) :
    Disk.run (Disk.writeLoop m (fun tail => h.getD tail 0)
      (fun tail d => d (start + tail + 1))) d (h.getD t 0) = d (start + t + 1) := by
  refine Disk.run_writeLoop_self (N := m)
    (fun t u ht hu => getD_injective hnd (by omega) (by omega)) ?_ m (Nat.le_refl m) t ht d
  intro t' ht' e e' heq
  apply heq
  -- a log block is no home block
  rintro ⟨u, hu, hequ⟩
  simp only at hequ
  have := hhome _ (getD_mem (h := h) (t := u) (by omega))
  unfold Home at this
  omega

/-!
## Recovery
-/

@[simp] theorem get_recover (d : Nat → α) : L.get (recover L start d start) = [] := by
  rw [recover, recoverWrites, Disk.run_append, Disk.run_cons, Disk.run_nil, get_writeHead_nil]

theorem recover_of_not_mem {d : Nat → α} {b : Nat} (hb : b ∉ L.get (d start)) (hbs : b ≠ start) :
    recover L start d b = d b := by
  rw [recover, recoverWrites, Disk.run_append, Disk.run_cons, Disk.run_nil,
    writeHead_of_ne hbs, installTrans]
  exact run_install_of_not_mem (Nat.le_refl _) hb d

theorem recover_getD {d : Nat → α} {h : List Nat} (hh : L.get (d start) = h) (hnd : h.Nodup)
    (hhome : ∀ b ∈ h, Home start h.length b) {t : Nat} (ht : t < h.length) :
    recover L start d (h.getD t 0) = d (start + t + 1) := by
  have hs : h.getD t 0 ≠ start := by
    have := hhome _ (getD_mem ht)
    unfold Home at this
    omega
  rw [recover, recoverWrites, Disk.run_append, Disk.run_cons, Disk.run_nil,
    writeHead_of_ne hs, installTrans, hh]
  exact run_install_getD hnd hhome (Nat.le_refl _) ht d

/-- Recovery on a disk whose header names distinct home blocks: a crash
during it and a second recovery give the same disk, but for the rest of the
header block. -/
theorem recover_crash_recover {d : Nat → α} {h : List Nat} (hh : L.get (d start) = h)
    (hnd : h.Nodup) (hhome : ∀ b ∈ h, Home start h.length b) (j : Nat) {b : Nat}
    (hbs : b ≠ start) :
    recover L start (Disk.run ((recoverWrites L start d).take j) d) b = recover L start d b := by
  have hstart : ∀ t < h.length, h.getD t 0 ≠ start := by
    intro t ht
    have := hhome _ (getD_mem ht)
    unfold Home at this
    omega
  by_cases hj : j ≤ h.length
  · -- the crash came during `install_trans`: the header still names `h`
    rw [recoverWrites, List.take_append_of_le_length (by simp [installTrans, hh, hj]),
      installTrans, hh, Disk.writeLoop_take, Nat.min_eq_left hj]
    generalize he : Disk.run (Disk.writeLoop j (fun tail => h.getD tail 0)
      (fun tail d => d (start + tail + 1))) d = e
    have heh : L.get (e start) = h := by
      rw [← he, Disk.run_writeLoop_of_ne (fun t ht => hstart t (by omega)), hh]
    by_cases hb : b ∈ h
    · obtain ⟨t, ht, rfl⟩ := List.mem_iff_getElem.mp hb
      rw [← List.getD_eq_getElem h 0 ht, recover_getD heh hnd hhome ht,
        recover_getD hh hnd hhome ht, ← he]
      apply Disk.run_writeLoop_of_ne
      intro u hu hequ
      have := hhome _ (getD_mem (h := h) (t := u) (by omega))
      unfold Home at this
      omega
    · rw [recover_of_not_mem (by rw [heh]; exact hb) hbs, recover_of_not_mem (by rw [hh]; exact hb) hbs,
        ← he, run_install_of_not_mem hj hb]
  · -- the crash came after the last write: the header is empty
    rw [List.take_of_length_le (by simp [recoverWrites, installTrans, hh]; omega)]
    change recover L start (recover L start d) b = recover L start d b
    exact recover_of_not_mem (by rw [get_recover]; exact List.not_mem_nil) hbs

/-!
## A crash during `commit()`

The header write splits the writes of `commit()` in two.  A crash before it
leaves the home blocks and the empty header as they were; a crash after it
leaves the transaction in the log under a header that names it, or already in
the home blocks under an empty header.
-/

/-- What a crash after the commit point leaves. -/
inductive Committed (L : HeaderLayout α) (start : Nat) (cache d : Nat → α) (lh : List Nat)
    (e : Nat → α) : Prop
  /-- Between the two header writes: the log holds the transaction. -/
  | logged : L.get (e start) = lh →
      (∀ t < lh.length, e (start + t + 1) = cache (lh.getD t 0)) →
      (∀ b, Home start lh.length b → b ∉ lh → e b = d b) → Committed L start cache d lh e
  /-- After the header is emptied: the home blocks hold the transaction. -/
  | installed : L.get (e start) = [] →
      (∀ b, Home start lh.length b → e b = if b ∈ lh then cache b else d b) →
      Committed L start cache d lh e

theorem home_ne_start {n b : Nat} (hb : Home start n b) : b ≠ start := by
  unfold Home at hb
  omega

theorem commit_eq {cache : Nat → α} {lh : List Nat} (hn : 0 < lh.length) :
    commit L start cache lh = writeLog start cache lh ++
      ([writeHead L start lh] ++ (installTrans start lh ++ [writeHead L start []])) := by
  rw [commit, if_pos hn, List.append_assoc, List.append_assoc]

theorem crashCommit_of_le (cache : Nat → α) {d : Nat → α} {lh : List Nat} (hclear : L.get (d start) = [])
    {k : Nat} (hk : k ≤ lh.length) :
    L.get (crashCommit L start cache lh k d start) = [] ∧
      ∀ b, Home start lh.length b → crashCommit L start cache lh k d b = d b := by
  by_cases hn : 0 < lh.length
  swap
  · -- an empty transaction issues no write
    have hc : commit L start cache lh = [] := if_neg hn
    rw [crashCommit, hc, List.take_nil, Disk.run_nil]
    exact ⟨hclear, fun b _ => rfl⟩
  have hW : (writeLog (α := α) start cache lh).length = lh.length := Disk.length_writeLoop _
  rw [crashCommit, commit_eq hn, List.take_append_of_le_length (by omega), writeLog,
    Disk.writeLoop_take]
  refine ⟨?_, fun b hb => run_writeLog_of_ne (by unfold Home at hb; omega) d⟩
  rw [run_writeLog_of_ne (Or.inl (Nat.le_refl start)), hclear]

theorem crashCommit_committed (cache : Nat → α) {d : Nat → α} {lh : List Nat} (hnd : lh.Nodup)
    (hcap : lh.length ≤ LOGSIZE) (hword : ∀ b ∈ lh, b < 2 ^ 32)
    (hhome : ∀ b ∈ lh, Home start lh.length b) (hclear : L.get (d start) = []) {k : Nat}
    (hk : lh.length < k) : Committed L start cache d lh (crashCommit L start cache lh k d) := by
  by_cases hn : 0 < lh.length
  swap
  · -- an empty transaction issues no write, and installs nothing
    obtain rfl : lh = [] := List.eq_nil_of_length_eq_zero (by omega)
    rw [crashCommit, commit, if_neg hn, List.take_nil, Disk.run_nil]
    exact .installed hclear fun b _ => (if_neg List.not_mem_nil).symm
  have hW : (writeLog (α := α) start cache lh).length = lh.length := Disk.length_writeLoop _
  -- the disk once the header is written
  generalize he : writeHead L start lh (Disk.run (writeLog start cache lh) d) = e
  have he_hdr : L.get (e start) = lh := by
    rw [← he, get_writeHead hcap hword]
  have he_log : ∀ t < lh.length, e (start + t + 1) = cache (lh.getD t 0) := by
    intro t ht
    rw [← he, writeHead_of_ne (by omega), writeLog]
    exact run_writeLog_log ht d
  have he_home : ∀ b, Home start lh.length b → e b = d b := by
    intro b hb
    rw [← he, writeHead_of_ne (home_ne_start hb), writeLog]
    exact run_writeLog_of_ne (by unfold Home at hb; omega) d
  have hlh_start : ∀ t < lh.length, lh.getD t 0 ≠ start := fun t ht =>
    home_ne_start (hhome _ (getD_mem ht))
  have hk' : k - lh.length = (k - lh.length - 1) + 1 := by omega
  rw [crashCommit, commit_eq hn, List.take_append, List.take_of_length_le (by omega), hW, hk',
    List.singleton_append, List.take_succ_cons, Disk.run_append, Disk.run_cons, he]
  by_cases hj : k - lh.length - 1 ≤ lh.length
  · -- the crash came during `install_trans`
    rw [List.take_append_of_le_length (by simp [installTrans, hj]), installTrans,
      Disk.writeLoop_take, Nat.min_eq_left hj]
    refine .logged ?_ ?_ ?_
    · rw [Disk.run_writeLoop_of_ne (fun t ht => hlh_start t (by omega)), he_hdr]
    · intro t ht
      rw [Disk.run_writeLoop_of_ne, he_log t ht]
      intro u hu hequ
      have := hhome _ (getD_mem (h := lh) (t := u) (by omega))
      unfold Home at this
      omega
    · intro b hb hnot
      rw [run_install_of_not_mem hj hnot, he_home b hb]
  · -- the crash came after the last write
    rw [List.take_of_length_le (by simp [installTrans]; omega), Disk.run_append,
      Disk.run_cons, Disk.run_nil]
    refine .installed (get_writeHead_nil _) ?_
    intro b hb
    rw [writeHead_of_ne (home_ne_start hb), installTrans]
    by_cases hmem : b ∈ lh
    · obtain ⟨t, ht, rfl⟩ := List.mem_iff_getElem.mp hmem
      rw [if_pos hmem, ← List.getD_eq_getElem lh 0 ht,
        run_install_getD hnd hhome (Nat.le_refl _) ht, he_log t ht]
    · rw [if_neg hmem, run_install_of_not_mem (Nat.le_refl _) hmem, he_home b hb]

theorem recover_of_committed {cache d e : Nat → α} {lh : List Nat} (hnd : lh.Nodup)
    (hhome : ∀ b ∈ lh, Home start lh.length b) (hc : Committed L start cache d lh e) :
    ∀ b, Home start lh.length b → recover L start e b = if b ∈ lh then cache b else d b := by
  cases hc with
  | logged hhdr hlog hold =>
      intro b hb
      by_cases hmem : b ∈ lh
      · obtain ⟨t, ht, rfl⟩ := List.mem_iff_getElem.mp hmem
        rw [if_pos hmem, ← List.getD_eq_getElem lh 0 ht, recover_getD hhdr hnd hhome ht,
          hlog t ht]
      · rw [if_neg hmem, recover_of_not_mem (by rw [hhdr]; exact hmem) (home_ne_start hb),
          hold b hb hmem]
  | installed hhdr hnew =>
      intro b hb
      rw [recover_of_not_mem (by rw [hhdr]; exact List.not_mem_nil) (home_ne_start hb), hnew b hb]

theorem commit_crash_atomic {cache d : Nat → α} {lh : List Nat} (hnd : lh.Nodup)
    (hcap : lh.length ≤ LOGSIZE) (hword : ∀ b ∈ lh, b < 2 ^ 32)
    (hhome : ∀ b ∈ lh, Home start lh.length b) (hclear : L.get (d start) = []) (k : Nat) :
    (k ≤ lh.length → ∀ b, Home start lh.length b →
        recover L start (crashCommit L start cache lh k d) b = d b) ∧
      (lh.length < k → ∀ b, Home start lh.length b →
        recover L start (crashCommit L start cache lh k d) b = if b ∈ lh then cache b else d b) ∧
      L.get (recover L start (crashCommit L start cache lh k d) start) = [] ∧
      ∀ j b, b ≠ start →
        recover L start (Disk.run ((recoverWrites L start (crashCommit L start cache lh k d)).take j)
          (crashCommit L start cache lh k d)) b = recover L start (crashCommit L start cache lh k d) b := by
  have hnil : ∀ b ∈ ([] : List Nat), Home start ([] : List Nat).length b :=
    fun b hb => absurd hb List.not_mem_nil
  by_cases hk : k ≤ lh.length
  · -- before the commit point: the header is empty and the home blocks are old
    obtain ⟨hhdr, hold⟩ := crashCommit_of_le cache hclear hk
    refine ⟨fun _ b hb => ?_, fun hlt => absurd hlt (by omega), get_recover _,
      fun j b hbs => recover_crash_recover hhdr List.nodup_nil hnil j hbs⟩
    rw [recover_of_not_mem (by rw [hhdr]; exact List.not_mem_nil) (home_ne_start hb), hold b hb]
  · -- after it: the header names the transaction or nothing
    have hc := crashCommit_committed cache hnd hcap hword hhome hclear (Nat.lt_of_not_le hk)
    refine ⟨fun hle => absurd hle hk, fun _ => recover_of_committed hnd hhome hc, get_recover _,
      fun j b hbs => ?_⟩
    cases hc with
    | logged hhdr _ _ => exact recover_crash_recover hhdr hnd hhome j hbs
    | installed hhdr _ => exact recover_crash_recover hhdr List.nodup_nil hnil j hbs

theorem commit_crash_atomic_after_header :
    [40, 41].Nodup ∧ [40, 41].length ≤ LOGSIZE ∧ (∀ b ∈ [40, 41], b < 2 ^ 32) ∧
      (∀ b ∈ [40, 41], Home 2 [40, 41].length b) ∧ logheader.get (fun _ => 0) = [] ∧
      recover logheader 2 (crashCommit logheader 2 (fun b _ => UInt8.ofNat b) [40, 41] 2
        fun _ _ => 0) 40 = (fun _ => 0) ∧
      recover logheader 2 (crashCommit logheader 2 (fun b _ => UInt8.ofNat b) [40, 41] 3
        fun _ _ => 0) 40 = fun _ => 40 := by
  have hnd : [40, 41].Nodup := by decide
  have hcap : [40, 41].length ≤ LOGSIZE := by decide
  have hword : ∀ b ∈ [40, 41], b < 2 ^ 32 := by decide
  have hhome : ∀ b ∈ [40, 41], Home 2 [40, 41].length b := by simp [Home]
  have hclear : logheader.get (fun _ => 0) = [] := by decide
  have h40 : Home 2 [40, 41].length 40 := hhome 40 (by simp)
  -- two log writes come before the header: a crash after them keeps the old
  -- block 40, a crash after the header write recovers the new one
  have hat := @commit_crash_atomic Bytes logheader 2 (fun b _ => UInt8.ofNat b) (fun _ _ => 0) [40, 41]
    hnd hcap hword hhome hclear
  refine ⟨hnd, hcap, hword, hhome, hclear, (hat 2).1 (by decide) 40 h40, ?_⟩
  rw [(hat 3).2.1 (by decide) 40 h40, if_pos (by simp)]
  rfl

end Log

end Xv6
