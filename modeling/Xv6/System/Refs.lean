import Xv6.System.Basic

/-!
# References to open files and working directories

`struct file` and `struct inode` count the pointers to them: `filedup` and
`idup` take a reference, `fileclose` and `iput` give one back.  A process
holds one reference to the file each of its descriptors points to and one to
its working directory.  `fork` takes them for the child, and `exit` gives them
back before the process becomes a zombie, so that `wait` reaps it without
touching either table.

The counts live beside the process table and change where `fork` and `exit`
call these functions.  File descriptors and inodes are the opaque handles of
`ofile` and `cwd`; a file names the inode it reads, `0` for a pipe or a free
entry.  The rejection branch of `sched_policy` makes a zombie without `exit`,
and `wait` reaps that zombie with its references still counted.
-/

namespace Xv6

-- `param.h`
def NFILE : Nat := 100

/-- `ftable` and `icache`, as far as references go: `f->ref` and `f->ip` of
each file, and `ip->ref` of each inode. -/
structure Refs where
  file : Nat → Int
  ip : Nat → Nat
  inode : Nat → Int

namespace Refs

/-- `filedup`; `none` is `panic("filedup")`. -/
def filedup (r : Refs) (f : Nat) : Option Refs :=
  if r.file f < 1 then none
  else some { r with file := Function.update r.file f (r.file f + 1) }

def idup (r : Refs) (ip : Nat) : Refs :=
  { r with inode := Function.update r.inode ip (r.inode ip + 1) }

/-- `iput`: one reference fewer.  Freeing an unlinked inode on its last
reference is left out. -/
def iput (r : Refs) (ip : Nat) : Refs :=
  { r with inode := Function.update r.inode ip (r.inode ip - 1) }

/-- `fileclose`; `none` is `panic("fileclose")`.  The last reference frees the
entry and puts the inode of an `FD_INODE` file. -/
def fileclose (r : Refs) (f : Nat) : Option Refs :=
  if r.file f < 1 then none
  else if r.file f - 1 > 0 then some { r with file := Function.update r.file f (r.file f - 1) }
  else
    let r' := { r with file := Function.update r.file f 0, ip := Function.update r.ip f 0 }
    if r.ip f = 0 then some r' else some (r'.iput (r.ip f))

/-- `fork`'s `filedup` of each open descriptor of the parent `p`, then its
`idup(curproc->cwd)`. -/
def forkRefs (r : Refs) (p : Proc) : Option Refs :=
  ((List.finRange NOFILE).foldlM
    (fun r fd => if p.ofile fd = 0 then some r else r.filedup (p.ofile fd)) r).map
    fun r => r.idup p.cwd

/-- `exit`'s `fileclose` of each open descriptor of `p`, then its
`iput(curproc->cwd)`. -/
def exitRefs (r : Refs) (p : Proc) : Option Refs :=
  ((List.finRange NOFILE).foldlM
    (fun r fd => if p.ofile fd = 0 then some r else r.fileclose (p.ofile fd)) r).map
    fun r => r.iput p.cwd

/-- What `userinit` takes: the reference `namei("/")` returns for the first
process's working directory. -/
def boot (root : Nat) : Refs where
  file := fun _ => 0
  ip := fun _ => 0
  inode := fun ip => if ip = root then 1 else 0

end Refs

/-- The process table with the references its processes hold. -/
structure RefSys where
  kernel : Kernel
  refs : Refs

namespace RefSys

/-- The parent of the process a `fork` on the event's CPU made: the CPU's
process, when a slot unused before the step is runnable after it. -/
def forked (k k' : Kernel) : Event → Option (Fin NPROC)
  | .syscall c (.fork _ _) =>
      match (k.cpus c).proc with
      | none => none
      | some cur =>
          if ∃ j, (k.ptable j).state = .unused ∧ (k'.ptable j).state = .runnable then some cur
          else none
  | _ => none

/-- A step of the process table with the references `fork` takes and `exit`
gives back in it. -/
def step (s : RefSys) (e : Event) : Option RefSys :=
  (s.kernel.step e).bind fun k =>
    let taken :=
      match forked s.kernel k e with
      | none => some s.refs
      | some cur => s.refs.forkRefs (s.kernel.ptable cur)
    taken.bind fun r =>
      match Sys.exited s.kernel k e with
      | none => some ⟨k, r⟩
      | some i => (r.exitRefs (s.kernel.ptable i)).map fun r => ⟨k, r⟩

def bootRun (kstack pgdir root : Nat) (es : List Event) : Option RefSys :=
  (Kernel.userinit kstack pgdir root).bind fun k => Run.exec step ⟨k, Refs.boot root⟩ es

/-!
## Counting the holders
-/

/-- The descriptors of live processes that point to file `f`. -/
def fileHolders (k : Kernel) (f : Nat) : Nat :=
  (Finset.univ.filter fun x : Fin NPROC × Fin NOFILE =>
    (k.ptable x.1).Live ∧ (k.ptable x.1).ofile x.2 = f).card

/-- The `FD_INODE` entries of `ftable` in use that read inode `ip`. -/
def inodeFiles (r : Refs) (ip : Nat) : Nat :=
  ((Finset.range (NFILE + 1)).filter fun f => f ≠ 0 ∧ 0 < r.file f ∧ r.ip f = ip).card

/-- The live processes whose working directory is `ip`. -/
def cwdHolders (k : Kernel) (ip : Nat) : Nat :=
  (Finset.univ.filter fun i => (k.ptable i).Live ∧ (k.ptable i).cwd = ip).card

/-- Every reference count is the number of its holders. -/
structure Counted (s : RefSys) : Prop where
  file : ∀ f, f ≠ 0 → s.refs.file f = fileHolders s.kernel f
  inode : ∀ ip, ip ≠ 0 → s.refs.inode ip = inodeFiles s.refs ip + cwdHolders s.kernel ip

theorem userinit_ptable {kstack pgdir root : Nat} {k : Kernel}
    (h : Kernel.userinit kstack pgdir root = some k) :
    ∃ p, (k.ptable p).Live ∧ (k.ptable p).cwd = root ∧ (∀ fd, (k.ptable p).ofile fd = 0) ∧
      ∀ j, j ≠ p → k.ptable j = Proc.zero := by
  unfold Kernel.userinit at h
  rcases halloc : Kernel.zero.allocproc kstack with ⟨p, t⟩
  rw [halloc] at h
  cases p with
  | none => cases h
  | some p =>
      obtain ⟨-, -, rfl⟩ := Kernel.allocproc_eq_some halloc
      dsimp only at h
      split at h
      · cases h
      · cases h
        refine ⟨p, ?_, ?_, ?_, ?_⟩
        · simp [Proc.Live]
        · simp
        · intro fd
          simp [Kernel.zero, Proc.zero]
        · intro j hj
          simp [hj, Kernel.zero]

section Boot

variable {kstack pgdir root : Nat} {k : Kernel}

theorem fileHolders_boot (h : Kernel.userinit kstack pgdir root = some k) {f : Nat}
    (hf : f ≠ 0) : fileHolders k f = 0 := by
  obtain ⟨p, -, -, hofile, hzero⟩ := userinit_ptable h
  apply Finset.card_eq_zero.mpr
  apply Finset.filter_eq_empty_iff.mpr
  intro x _ hx
  have h0 : (k.ptable x.1).ofile x.2 = 0 := by
    by_cases hx1 : x.1 = p
    · rw [hx1]
      exact hofile x.2
    · rw [hzero x.1 hx1]
      rfl
  exact hf (hx.2.symm.trans h0)

theorem cwdHolders_boot (h : Kernel.userinit kstack pgdir root = some k) (ip : Nat) :
    cwdHolders k ip = if ip = root then 1 else 0 := by
  obtain ⟨p, hlive, hcwd, -, hzero⟩ := userinit_ptable h
  have hfilter : (Finset.univ.filter fun i => (k.ptable i).Live ∧ (k.ptable i).cwd = ip) =
      if ip = root then {p} else ∅ := by
    ext j
    by_cases hj : j = p
    · subst hj
      by_cases hip : ip = root <;> simp [hip, hlive, hcwd, eq_comm]
    · -- the other slots are unused
      have hdead : ¬(k.ptable j).Live := by
        rw [hzero j hj]
        simp [Proc.Live, Proc.zero]
      by_cases hip : ip = root <;> simp [hip, hdead, hj]
  unfold cwdHolders
  rw [hfilter]
  split <;> rfl

theorem counted_boot (h : Kernel.userinit kstack pgdir root = some k) :
    Counted ⟨k, Refs.boot root⟩ where
  file f hf := by
    rw [fileHolders_boot h hf]
    rfl
  inode ip _ := by
    have hfiles : inodeFiles (Refs.boot root) ip = 0 := by
      apply Finset.card_eq_zero.mpr
      apply Finset.filter_eq_empty_iff.mpr
      intro f _ hf
      exact absurd hf.2.1 (lt_irrefl 0)
    rw [hfiles, cwdHolders_boot h ip]
    simp only [Refs.boot]
    split <;> rfl

end Boot

/-- Init forks a child, sets its rate to `100` and asks for RM, which rejects
the child; init then waits for it. -/
def rejectRun : List Event :=
  [.scheduler 0, .syscall 0 (.fork 3 4), .syscall 0 (.rate 2 100),
    .syscall 0 (.schedPolicy 2 1), .syscall 0 .wait]

/-- From `userinit`, where every count matches its holders, `rejectRun` ends
with the child's slot reaped but the root directory still counted twice: once
for init, once for the reaped child, whose `cwd` was never put. -/
theorem wait_reaps_rejected_process_holding_cwd :
    ∃ k₀ s, Kernel.userinit 1 2 1 = some k₀ ∧ Counted ⟨k₀, Refs.boot 1⟩ ∧
      Run.exec step ⟨k₀, Refs.boot 1⟩ rejectRun = some s ∧
      (s.kernel.ptable 1).state = .unused ∧ (s.kernel.ptable 1).cwd = 1 ∧
      s.refs.inode 1 = 2 ∧ inodeFiles s.refs 1 + cwdHolders s.kernel 1 = 1 ∧ ¬Counted s := by
  have hend : (bootRun 1 2 1 rejectRun).map (fun s => decide
      ((s.kernel.ptable 1).state = .unused ∧ (s.kernel.ptable 1).cwd = 1 ∧
        s.refs.inode 1 = 2 ∧ inodeFiles s.refs 1 + cwdHolders s.kernel 1 = 1)) = some true := by
    decide +kernel
  obtain ⟨s, hs, hp⟩ := Option.map_eq_some_iff.mp hend
  obtain ⟨k₀, hk₀, hrun⟩ := Option.bind_eq_some_iff.mp hs
  obtain ⟨hunused, hcwd, hinode, hheld⟩ := of_decide_eq_true hp
  refine ⟨k₀, s, hk₀, counted_boot hk₀, hrun, hunused, hcwd, hinode, hheld, fun hc => ?_⟩
  -- the count of the root directory is one more than its holders
  have h1 := hc.inode 1 one_ne_zero
  rw [hinode] at h1
  omega

end RefSys

end Xv6
