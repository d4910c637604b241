import Xv6.Library.CInt

/-!
# The process table

The data of `proc.h` and `proc.c`: the per-process record `struct proc`, the
per-CPU record `struct cpu`, and the kernel globals of `proc.c` that the
scheduling extension adds (`utf_edf`, `utf_rm`), together with `nextpid` and
the clock `ticks` of `trap.c`.

Pointers become indices: `struct proc *` is a slot of `ptable.proc`, a file
or inode pointer is an opaque handle with `0` for null, and a sleep channel
`void *chan` is one of the kernel objects a process can sleep on.  The
table's loops `for(p = ptable.proc; p < &ptable.proc[NPROC]; p++)` that stop
at the first match are {name}`Kernel.findSlot`.
-/

namespace Xv6

-- `param.h`
def NPROC : Nat := 64

def NCPU : Nat := 8

def NOFILE : Nat := 16

instance : NeZero NPROC := ⟨by decide⟩

instance : NeZero NCPU := ⟨by decide⟩

inductive ProcState where
  | unused
  | embryo
  | sleeping
  | runnable
  | running
  | zombie
deriving DecidableEq, Repr

/-- The address a process sleeps on. -/
inductive Chan where
  /-- The null pointer, the value of `p->chan` when not sleeping. -/
  | null
  /-- A `struct proc`, slept on by `wait` and woken by `exit`. -/
  | proc (i : Fin NPROC)
  /-- `&ticks`, slept on by `sys_sleep`. -/
  | ticks
  /-- Any other kernel object: a pipe, the log, a buffer, a sleep-lock. -/
  | obj (n : Nat)
deriving DecidableEq, Repr

/-- `struct proc`, without the fields no modelled function reads. -/
structure Proc where
  state : ProcState
  pid : Int
  parent : Option (Fin NPROC)
  chan : Chan
  killed : Int
  ofile : Fin NOFILE → Nat
  cwd : Nat
  kstack : Nat
  pgdir : Nat
  priority : Int
  deadline : Int
  schedPolicy : Int
  executionTime : Int
  elapsedTime : Int
  arrivalTime : Int
  rate : Int

/-- `struct cpu`: the process it runs, and where its scheduler loop stands. -/
structure Cpu where
  proc : Option (Fin NPROC)
  /-- The slot the scheduler's `for(p = ptable.proc; ...)` loop examines next. -/
  next : Nat

/-- The kernel state the process functions of `proc.c` and `trap.c` work on. -/
structure Kernel where
  ptable : Fin NPROC → Proc
  cpus : Fin NCPU → Cpu
  nextpid : Int
  utfEdf : Int
  utfRm : Int
  ticks : Nat

namespace Proc

-- A slot of the zero-initialised static `ptable`.
def zero : Proc where
  state := .unused
  pid := 0
  parent := none
  chan := .null
  killed := 0
  ofile := fun _ => 0
  cwd := 0
  kstack := 0
  pgdir := 0
  priority := 0
  deadline := 0
  schedPolicy := 0
  executionTime := 0
  elapsedTime := 0
  arrivalTime := 0
  rate := 0

def Live (p : Proc) : Prop :=
  p.state ≠ .unused ∧ p.state ≠ .zombie

instance (p : Proc) : Decidable p.Live :=
  inferInstanceAs (Decidable (_ ∧ _))

end Proc

namespace Kernel

def setProc (s : Kernel) (i : Fin NPROC) (p : Proc) : Kernel :=
  { s with ptable := Function.update s.ptable i p }

def setCpu (s : Kernel) (c : Fin NCPU) (cpu : Cpu) : Kernel :=
  { s with cpus := Function.update s.cpus c cpu }

@[simp] theorem setProc_ptable_self (s : Kernel) (i : Fin NPROC) (p : Proc) :
    (s.setProc i p).ptable i = p := by
  simp [setProc]

@[simp] theorem setProc_ptable_of_ne (s : Kernel) {i j : Fin NPROC} (p : Proc)
    (h : j ≠ i) : (s.setProc i p).ptable j = s.ptable j := by
  simp [setProc, h]

theorem setProc_ptable (s : Kernel) (i j : Fin NPROC) (p : Proc) :
    (s.setProc i p).ptable j = if j = i then p else s.ptable j := by
  simp [setProc, Function.update_apply]

@[simp] theorem setProc_setProc (s : Kernel) (i : Fin NPROC) (p q : Proc) :
    (s.setProc i p).setProc i q = s.setProc i q := by
  simp [setProc]

@[simp] theorem setProc_cpus (s : Kernel) (i : Fin NPROC) (p : Proc) :
    (s.setProc i p).cpus = s.cpus := rfl

@[simp] theorem setProc_nextpid (s : Kernel) (i : Fin NPROC) (p : Proc) :
    (s.setProc i p).nextpid = s.nextpid := rfl

@[simp] theorem setProc_utfEdf (s : Kernel) (i : Fin NPROC) (p : Proc) :
    (s.setProc i p).utfEdf = s.utfEdf := rfl

@[simp] theorem setProc_utfRm (s : Kernel) (i : Fin NPROC) (p : Proc) :
    (s.setProc i p).utfRm = s.utfRm := rfl

@[simp] theorem setProc_ticks (s : Kernel) (i : Fin NPROC) (p : Proc) :
    (s.setProc i p).ticks = s.ticks := rfl

@[simp] theorem setCpu_cpus_self (s : Kernel) (c : Fin NCPU) (cpu : Cpu) :
    (s.setCpu c cpu).cpus c = cpu := by
  simp [setCpu]

@[simp] theorem setCpu_cpus_of_ne (s : Kernel) {c d : Fin NCPU} (cpu : Cpu)
    (h : d ≠ c) : (s.setCpu c cpu).cpus d = s.cpus d := by
  simp [setCpu, h]

@[simp] theorem setCpu_ptable (s : Kernel) (c : Fin NCPU) (cpu : Cpu) :
    (s.setCpu c cpu).ptable = s.ptable := rfl

@[simp] theorem setCpu_nextpid (s : Kernel) (c : Fin NCPU) (cpu : Cpu) :
    (s.setCpu c cpu).nextpid = s.nextpid := rfl

@[simp] theorem setCpu_utfEdf (s : Kernel) (c : Fin NCPU) (cpu : Cpu) :
    (s.setCpu c cpu).utfEdf = s.utfEdf := rfl

@[simp] theorem setCpu_utfRm (s : Kernel) (c : Fin NCPU) (cpu : Cpu) :
    (s.setCpu c cpu).utfRm = s.utfRm := rfl

@[simp] theorem setCpu_ticks (s : Kernel) (c : Fin NCPU) (cpu : Cpu) :
    (s.setCpu c cpu).ticks = s.ticks := rfl

/-!
## Searching the table
-/

/-- The first slot, in table order, whose process satisfies `P`: the loop
`for(p = ptable.proc; p < &ptable.proc[NPROC]; p++) if(P(p)) ...; break`. -/
def findSlot (s : Kernel) (P : Proc → Bool) : Option (Fin NPROC) :=
  (List.finRange NPROC).find? (fun i => P (s.ptable i))

/-- The first slot with `p->pid == pid`, whatever its state: the lookup of
`kill`, `sched_policy`, `exec_time`, `deadline` and `rate`. -/
def findPid (s : Kernel) (pid : Int) : Option (Fin NPROC) :=
  s.findSlot (fun p => p.pid == pid)

theorem findSlot_eq_some_iff (s : Kernel) (P : Proc → Bool) (i : Fin NPROC) :
    s.findSlot P = some i ↔
      P (s.ptable i) = true ∧ ∀ j : Fin NPROC, j < i → P (s.ptable j) = false := by
  unfold findSlot
  rw [List.find?_eq_some_iff_getElem]
  constructor
  · rintro ⟨hi, k, hk, hki, hbefore⟩
    refine ⟨hi, fun j hj => ?_⟩
    have hk' : k = i.val := by
      rw [List.getElem_finRange] at hki
      rw [← hki]
      rfl
    have hjk : j.val < k := by
      rw [hk']
      exact hj
    have := hbefore j.val hjk
    simpa [List.getElem_finRange] using this
  · rintro ⟨hi, hbefore⟩
    refine ⟨hi, i.val, by simp, by simp, fun j hj => ?_⟩
    have hjn : j < NPROC := by omega
    have := hbefore ⟨j, hjn⟩ hj
    simpa [List.getElem_finRange] using this

theorem findSlot_eq_none_iff (s : Kernel) (P : Proc → Bool) :
    s.findSlot P = none ↔ ∀ i : Fin NPROC, P (s.ptable i) = false := by
  unfold findSlot
  rw [List.find?_eq_none]
  simp

theorem findSlot_spec {s : Kernel} {P : Proc → Bool} {i : Fin NPROC}
    (h : s.findSlot P = some i) : P (s.ptable i) = true :=
  ((findSlot_eq_some_iff s P i).mp h).1

end Kernel

end Xv6
