import Xv6.Proc.Basic

/-!
# The process functions of `proc.c`

Each function of `proc.c` that changes the process table, as a function of
the kernel state.  What the C code obtains from outside the table is an
argument: the page `kalloc` returns for a kernel stack and the page directory
`copyuvm` returns, each `0` on failure.  A kernel panic is `none`.

The functions act on behalf of a current process, the slot `cur` the CPU `c`
runs; a function that ends in `sched()` gives the CPU back to the scheduler,
which then clears `c->proc`.  The file layer is not modelled here: `fileclose`
and `iput` are seen only through the cleared `ofile` and `cwd` fields, and
`filedup` and `idup` return the pointer they are given.
-/

namespace Xv6

/-- `initproc`: `userinit` takes the first slot of the zeroed table. -/
def initproc : Fin NPROC := ⟨0, by decide⟩

namespace Kernel

/-- `wakeup1(chan)`.  The loop's iterations touch distinct slots, so it is a
map over the table. -/
def wakeup1 (s : Kernel) (chan : Chan) : Kernel :=
  { s with
    ptable := fun i =>
      if (s.ptable i).state = .sleeping ∧ (s.ptable i).chan = chan then
        { s.ptable i with state := .runnable }
      else
        s.ptable i }

def allocproc (s : Kernel) (kstack : Nat) : Option (Fin NPROC) × Kernel :=
  match s.findSlot (fun p => p.state == .unused) with
  | none => (none, s)
  | some i =>
      let p : Proc :=
        { s.ptable i with
          state := .embryo
          pid := s.nextpid
          priority := 1
          deadline := 0
          schedPolicy := -1
          executionTime := 1
          elapsedTime := 0 }
      let s := { s with nextpid := CInt.add s.nextpid 1 }
      if kstack = 0 then
        (none, s.setProc i { p with state := .unused })
      else
        (some i, s.setProc i { p with kstack := kstack })

/-- `fork` by the process in slot `cur`: the new state and the value returned. -/
def fork (s : Kernel) (cur : Fin NPROC) (kstack pgdir : Nat) : Kernel × Int :=
  match s.allocproc kstack with
  | (none, s) => (s, -1)
  | (some np, s) =>
      let q := s.ptable np
      if pgdir = 0 then
        -- `copyuvm` failed: `kfree(np->kstack)` and back to `UNUSED`
        (s.setProc np { q with kstack := 0, state := .unused }, -1)
      else
        let parent := s.ptable cur
        -- only the parent's non-null descriptors are copied; the others keep
        -- whatever the slot held
        (s.setProc np
          { q with
            pgdir := pgdir
            parent := some cur
            ofile := fun fd => if parent.ofile fd = 0 then q.ofile fd else parent.ofile fd
            cwd := parent.cwd
            state := .runnable },
          q.pid)

/-- `sched()` after the current process has left `RUNNING`. -/
def release (s : Kernel) (c : Fin NCPU) : Kernel :=
  s.setCpu c { s.cpus c with proc := none }

/-- One iteration of `exit`'s loop passing abandoned children to init. -/
def reparent (cur : Fin NPROC) (s : Kernel) (p : Fin NPROC) : Kernel :=
  if (s.ptable p).parent = some cur then
    let s := s.setProc p { s.ptable p with parent := some initproc }
    if (s.ptable p).state = .zombie then s.wakeup1 (.proc initproc) else s
  else
    s

def parentChan (p : Proc) : Chan :=
  match p.parent with
  | some q => .proc q
  | none => .null

/-- `exit` by the process in slot `cur` on CPU `c`; `none` is `panic("init exiting")`. -/
def exit (s : Kernel) (c : Fin NCPU) (cur : Fin NPROC) : Option Kernel :=
  if cur = initproc then
    none
  else
    let s := s.setProc cur { s.ptable cur with ofile := fun _ => 0, cwd := 0 }
    let s := s.wakeup1 (parentChan (s.ptable cur))
    let s := (List.finRange NPROC).foldl (reparent cur) s
    let s := s.setProc cur { s.ptable cur with state := .zombie }
    some (s.release c)

def sleep (s : Kernel) (c : Fin NCPU) (cur : Fin NPROC) (chan : Chan) : Kernel :=
  (s.setProc cur { s.ptable cur with chan := chan, state := .sleeping }).release c

def yield (s : Kernel) (c : Fin NCPU) (cur : Fin NPROC) : Kernel :=
  (s.setProc cur { s.ptable cur with state := .runnable }).release c

/-- `wait` by the process in slot `cur` on CPU `c`: the value returned, or
`none` when it went to sleep on itself. -/
def wait (s : Kernel) (c : Fin NCPU) (cur : Fin NPROC) : Kernel × Option Int :=
  match s.findSlot (fun p => p.parent == some cur && p.state == .zombie) with
  | some i =>
      let p := s.ptable i
      -- `freevm(p->pgdir)` frees the page directory but leaves the pointer
      (s.setProc i
          { p with kstack := 0, pid := 0, parent := none, killed := 0, state := .unused },
        some p.pid)
  | none =>
      if (s.findSlot (fun p => p.parent == some cur)).isNone || (s.ptable cur).killed ≠ 0 then
        (s, some (-1))
      else
        (s.sleep c cur (.proc cur), none)

def kill (s : Kernel) (pid : Int) : Kernel × Int :=
  match s.findPid pid with
  | none => (s, -1)
  | some i =>
      let p := s.ptable i
      (s.setProc i
          { p with
            killed := 1
            state := if p.state = .sleeping then .runnable else p.state },
        0)

/-!
## The scheduling extension

`sched_policy` admits a process under EDF (`policy == 0`) or RM
(`policy == 1`) when a running utilization counter passes its test, and
otherwise kills it on the spot.  `exec_time`, `deadline` and `rate` set the
parameters the tests read.
-/

/-- `(p->execution_time * 100)/p->deadline`; `none` is the divide fault. -/
def edfTerm (p : Proc) : Option Int :=
  CInt.div (CInt.mul p.executionTime 100) p.deadline

/-- `p->execution_time * p->rate * 10`. -/
def rmTerm (p : Proc) : Int :=
  CInt.mul (CInt.mul p.executionTime p.rate) 10

/-- The values `chk_lproc` takes for `lproc = 1, 2, ..., 63`. -/
def rmBoundTable : List Int :=
  [1000, 828, 779, 756, 743, 734, 728, 724, 720, 717, 715, 713, 711, 710, 709,
    708, 707, 706, 705, 705, 704, 704, 703, 703, 702, 702, 702, 701, 701, 701,
    700, 700, 700, 700, 700, 699, 699, 699, 699, 699, 699, 698, 698, 698, 698,
    698, 698, 698, 698, 697, 697, 697, 697, 697, 697, 697, 697, 697, 697, 697,
    697, 697, 696]

/-- The `if (lproc == 1) ... else` chain: `696` outside `1..63`. -/
def rmBound (lproc : Int) : Int :=
  if 1 ≤ lproc ∧ lproc ≤ 63 then rmBoundTable.getD (lproc.toNat - 1) 696 else 696

/-- The rejection of `sched_policy`: `p->killed = 1; p->state = ZOMBIE`. -/
def reject (s : Kernel) (i : Fin NPROC) : Kernel :=
  s.setProc i { s.ptable i with killed := 1, state := .zombie }

/-- The EDF branch of `sched_policy` on slot `i`. -/
def admitEdf (s : Kernel) (i : Fin NPROC) : Option (Kernel × Int) :=
  match edfTerm (s.ptable i) with
  | none => none
  | some t =>
      let utf := CInt.add s.utfEdf t
      if 100 ≤ utf then
        some ({ s.reject i with utfEdf := CInt.sub utf t }, -22)
      else
        some ({ s.setProc i { s.ptable i with schedPolicy := 0 } with utfEdf := utf }, 0)

/-- The RM branch of `sched_policy` on slot `i`, found for `pid`. -/
def admitRm (s : Kernel) (i : Fin NPROC) (pid : Int) : Kernel × Int :=
  let curr := rmTerm (s.ptable i)
  if CInt.add s.utfRm curr ≤ rmBound (CInt.sub pid 2) then
    ({ s.setProc i
          { s.ptable i with arrivalTime := CInt.ofUInt s.ticks, schedPolicy := 1 } with
        utfRm := CInt.add s.utfRm curr },
      0)
  else
    (s.reject i, -22)

/-- `sched_policy(pid, policy)`: the value returned; `none` is a divide fault. -/
def schedPolicy (s : Kernel) (pid policy : Int) : Option (Kernel × Int) :=
  match s.findPid pid with
  | none => some (s, 0)
  | some i =>
      if policy = 0 then s.admitEdf i
      else if policy = 1 then some (s.admitRm i pid)
      else some (s, 0)

/-- The shape shared by `exec_time`, `deadline` and `rate`: update the first
process with that pid, or return `-22`. -/
def setByPid (s : Kernel) (pid : Int) (f : Proc → Proc) : Kernel × Int :=
  match s.findPid pid with
  | none => (s, -22)
  | some i => (s.setProc i (f (s.ptable i)), 0)

def execTime (s : Kernel) (pid time : Int) : Kernel × Int :=
  s.setByPid pid (fun p => { p with executionTime := time })

def deadline (s : Kernel) (pid d : Int) : Kernel × Int :=
  s.setByPid pid (fun p => { p with deadline := d })

/-- `(90 - 3 * rate + 28)/29`, raised to `1`; the divisor cannot fault. -/
def ratePriority (r : Int) : Int :=
  let t := (CInt.add (CInt.sub 90 (CInt.mul 3 r)) 28).tdiv 29
  if t < 1 then 1 else t

def rate (s : Kernel) (pid r : Int) : Kernel × Int :=
  s.setByPid pid (fun p => { p with rate := r, priority := ratePriority r })

/-!
## One iteration of `scheduler()`
-/

/-- The inner loop of the EDF (`key = deadline`) and RM (`key = priority`)
branches, started at `highP`. -/
def pickMin (key : Proc → Int) (s : Kernel) (highP : Fin NPROC) : Fin NPROC :=
  (List.finRange NPROC).foldl
    (fun h p1 =>
      if (s.ptable p1).state = .runnable ∧ key (s.ptable p1) ≤ key (s.ptable h) then
        if key (s.ptable p1) = key (s.ptable h) then
          if (s.ptable p1).pid < (s.ptable h).pid then p1 else h
        else
          p1
      else
        h)
    highP

/-- Whether the outer loop's slot `p` sends the pass through an RT branch. -/
def RtPolicy (p : Proc) : Prop :=
  p.schedPolicy = 0 ∨ p.schedPolicy = 1

instance (p : Proc) : Decidable (RtPolicy p) :=
  inferInstanceAs (Decidable (_ ∨ _))

/-- The slot dispatched once the outer loop reaches the runnable slot `p`. -/
def selectFrom (s : Kernel) (p : Fin NPROC) : Fin NPROC :=
  if (s.ptable p).schedPolicy = 0 then pickMin Proc.deadline s p
  else if (s.ptable p).schedPolicy = 1 then pickMin Proc.priority s p
  else p

/-- The first runnable slot at or after the loop position `n`. -/
def nextRunnable (s : Kernel) (n : Nat) : Option (Fin NPROC) :=
  (List.finRange NPROC).find? (fun i => n ≤ i.val && (s.ptable i).state == .runnable)

/-- One iteration of the loop of `scheduler()` on CPU `c`: a dispatch, or the
end of a pass over the table.  `none` when `c` runs a process, or when
`switchuvm` panics on a missing kernel stack or page directory. -/
def scheduler (s : Kernel) (c : Fin NCPU) : Option Kernel :=
  match (s.cpus c).proc with
  | some _ => none
  | none =>
      match s.nextRunnable (s.cpus c).next with
      | none => some (s.setCpu c { proc := none, next := 0 })
      | some p =>
          let h := s.selectFrom p
          let q := s.ptable h
          if q.kstack = 0 ∨ q.pgdir = 0 then
            none
          else
            let elapsed := if RtPolicy (s.ptable p) then CInt.add q.elapsedTime 1 else q.elapsedTime
            some ((s.setProc h { q with elapsedTime := elapsed, state := .running }).setCpu c
              { proc := some h, next := h.val + 1 })

end Kernel

end Xv6
