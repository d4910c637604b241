import Xv6.Proc.Ops
import Xv6.Library.Run

/-!
# Traps and the kernel's step relation

The events that change the process table: a system call from the process a
CPU runs, entered through `trap` for `T_SYSCALL` with its two `killed`
checks; a `sleep` or a `wakeup` from anywhere in the kernel; a timer
interrupt, taken in user or in kernel mode, with the budget check of the
scheduling extension; and one iteration of a CPU's scheduler loop.  A run
starts from the table `userinit` leaves.

A system call runs whole, so interleavings are those of whole calls, ticks
and scheduler iterations; `sleep` and the kernel-mode timer stand for what
happens in the middle of the calls the model does not spell out.
-/

namespace Xv6

/-- The system calls of the process layer, with what `kalloc` and `copyuvm`
return to `fork`. -/
inductive Syscall where
  | fork (kstack pgdir : Nat)
  | exit
  | wait
  | kill (pid : Int)
  | schedPolicy (pid policy : Int)
  | execTime (pid time : Int)
  | deadline (pid d : Int)
  | rate (pid r : Int)
deriving DecidableEq, Repr

/-- How a system call body ends for the calling process. -/
inductive Outcome where
  /-- It returns `r` to user space and keeps its CPU. -/
  | ret (s : Kernel) (r : Int)
  /-- It gave its CPU back: it slept or exited. -/
  | off (s : Kernel)

inductive Event where
  | syscall (c : Fin NCPU) (call : Syscall)
  | sleep (c : Fin NCPU) (chan : Chan)
  | wakeup (chan : Chan)
  | timer (c : Fin NCPU) (user : Bool)
  | scheduler (c : Fin NCPU)
deriving DecidableEq, Repr

namespace Kernel

def retOf (p : Kernel × Int) : Outcome :=
  .ret p.1 p.2

/-- The body of system call `call` for the process `cur` on CPU `c`. -/
def runSyscall (s : Kernel) (c : Fin NCPU) (cur : Fin NPROC) : Syscall → Option Outcome
  | .fork kstack pgdir => some (retOf (s.fork cur kstack pgdir))
  | .exit => (s.exit c cur).map .off
  | .wait =>
      match s.wait c cur with
      | (s', some r) => some (.ret s' r)
      | (s', none) => some (.off s')
  | .kill pid => some (retOf (s.kill pid))
  | .schedPolicy pid policy => (s.schedPolicy pid policy).map retOf
  | .execTime pid time => some (retOf (s.execTime pid time))
  | .deadline pid d => some (retOf (s.deadline pid d))
  | .rate pid r => some (retOf (s.rate pid r))

/-- The end of `trap` for `T_SYSCALL`: a call that returned exits if its
process was killed meanwhile. -/
def finishSyscall (c : Fin NCPU) (i : Fin NPROC) : Outcome → Option Kernel
  | .off s => some s
  | .ret s _ => if (s.ptable i).killed ≠ 0 then s.exit c i else some s

/-- `trap` for `T_SYSCALL` on CPU `c`: `exit()` if killed before the call, the
call, and `exit()` if killed after it. -/
def syscall (s : Kernel) (c : Fin NCPU) (call : Syscall) : Option Kernel :=
  match (s.cpus c).proc with
  | none => none
  | some i =>
      if (s.ptable i).killed ≠ 0 then
        s.exit c i
      else
        (s.runSyscall c i call).bind (finishSyscall c i)

/-- Whether the budget check of `trap` ends a process: an admitted policy and
`elapsed_time >= execution_time`. -/
def BudgetSpent (p : Proc) : Prop :=
  0 ≤ p.schedPolicy ∧ p.executionTime ≤ p.elapsedTime

instance (p : Proc) : Decidable (BudgetSpent p) :=
  inferInstanceAs (Decidable (_ ∧ _))

/-- The timer case of `trap` on CPU 0 advances `ticks` and wakes its sleepers. -/
def clock (s : Kernel) (c : Fin NCPU) : Kernel :=
  if c.val = 0 then ({ s with ticks := (s.ticks + 1) % 2 ^ 32 }).wakeup1 .ticks else s

/--
`trap` for the timer interrupt on CPU `c`, taken in user mode when `user`.
CPU 0 advances `ticks`.  Only a trap from user mode exits a killed process,
but the budget check exits a running process in either mode; otherwise a
running process yields.  The last `killed` check of `trap` runs when a
yielded process is resumed, which this model leaves to its next event.
-/
def timer (s : Kernel) (c : Fin NCPU) (user : Bool) : Option Kernel :=
  let s := s.clock c
  match (s.cpus c).proc with
  | none => some s
  | some i =>
      if (s.ptable i).killed ≠ 0 ∧ user = true then
        s.exit c i
      else if (s.ptable i).state = .running then
        if BudgetSpent (s.ptable i) then s.exit c i else some (s.yield c i)
      else
        some s

def step (s : Kernel) : Event → Option Kernel
  | .syscall c call => s.syscall c call
  | .sleep c chan =>
      match (s.cpus c).proc with
      | none => none
      | some i => some (s.sleep c i chan)
  | .wakeup chan => some (s.wakeup1 chan)
  | .timer c user => s.timer c user
  | .scheduler c => s.scheduler c

/-- The statically zeroed `ptable` and globals. -/
def zero : Kernel where
  ptable := fun _ => Proc.zero
  cpus := fun _ => { proc := none, next := 0 }
  nextpid := 1
  utfEdf := 0
  utfRm := 0
  ticks := 0

/-- `userinit`, given the kernel stack `kalloc` returns, the page directory
`setupkvm` returns and the inode `namei("/")` returns. -/
def userinit (kstack pgdir root : Nat) : Option Kernel :=
  match zero.allocproc kstack with
  | (none, _) => none
  | (some p, s) =>
      if pgdir = 0 then
        none
      else
        some (s.setProc p { s.ptable p with pgdir := pgdir, cwd := root, state := .runnable })

def Init (s : Kernel) : Prop :=
  ∃ kstack pgdir root, userinit kstack pgdir root = some s

def Reachable (s : Kernel) : Prop :=
  Run.Reachable step Init s

theorem Reachable.of_step {s s' : Kernel} {e : Event} (h : s.Reachable) (hs : step s e = some s') :
    s'.Reachable :=
  Run.Reachable.of_step h hs

/-- The state the events `es` lead to from the table `userinit` leaves. -/
def bootRun (kstack pgdir root : Nat) (es : List Event) : Option Kernel :=
  (userinit kstack pgdir root).bind (fun s => Run.exec step s es)

theorem reachable_of_bootRun {kstack pgdir root : Nat} {es : List Event} {s : Kernel}
    (h : bootRun kstack pgdir root es = some s) : s.Reachable := by
  obtain ⟨s₀, h₀, hrun⟩ := Option.bind_eq_some_iff.mp h
  exact ⟨s₀, es, ⟨kstack, pgdir, root, h₀⟩, hrun⟩

theorem exists_reachable_of_bootRun (P : Kernel → Prop) [DecidablePred P]
    (kstack pgdir root : Nat) (es : List Event)
    (h : (bootRun kstack pgdir root es).map (fun s => decide (P s)) = some true) :
    ∃ s, s.Reachable ∧ P s := by
  obtain ⟨s, hs, hp⟩ := Option.map_eq_some_iff.mp h
  exact ⟨s, reachable_of_bootRun hs, of_decide_eq_true hp⟩

end Kernel

end Xv6
