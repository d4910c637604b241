import Xv6.Proc.Lifecycle
import Xv6.Fs.Trans

/-!
# The kernel with its log

The process table and the log of `log.c` side by side.  A system call that
works on files runs `begin_op`, its `log_write`s and `end_op`, and traps and
scheduling come in between; `exit()` wraps `iput(curproc->cwd)` in a
transaction of its own.  Where a process stands in the log's protocol is the
kernel code it would return to: `exit()` never returns, so the process it
ends leaves the protocol wherever it stood, and a slot given to a new process
starts outside any call.

A trap from user mode finds its process outside any file-system call: a
process inside one is in kernel mode.  A timer interrupt taken in kernel mode
can come at any point, and `trap` applies its budget check to it as well.
-/

namespace Xv6

/-- The CPU of a trap taken from user mode: a system call, or a timer
interrupt in user mode. -/
def Event.userCpu : Event → Option (Fin NCPU)
  | .syscall c _ => some c
  | .timer c true => some c
  | _ => none

/-- The kernel, its log, and where each process stands in the log's protocol. -/
structure Sys where
  kernel : Kernel
  trans : Log.Trans (Fin NPROC)

inductive SysEvent where
  /-- A step of the process table. -/
  | kernel (e : Event)
  /-- A call into the log by the process CPU `c` runs, inside a file-system call. -/
  | fs (c : Fin NCPU) (call : Log.Call)
deriving DecidableEq, Repr

namespace Sys

/-- The process the kernel step `e` from `k` to `k'` ran `exit()` for: the one
its CPU ran, now a zombie off the CPU. -/
def exited (k k' : Kernel) (e : Event) : Option (Fin NPROC) :=
  match e.cpu with
  | none => none
  | some c =>
      match (k.cpus c).proc with
      | none => none
      | some i => if (k'.cpus c).proc = none ∧ (k'.ptable i).state = .zombie then some i else none

/-- The transaction `exit()` wraps around `iput(curproc->cwd)`: `begin_op`,
then `end_op`, which commits if it ends the last operation; `none` while the
`begin_op` sleeps. -/
def exitTrans (m : Log.Mem) : Option Log.Mem :=
  m.beginOp.bind fun m =>
    match m.endOp with
    | .ok (m, true) => some m.commitDone
    | .ok (m, false) => some m
    | .error _ => none

/-- The phases after the kernel step from `k` to `k'`: a slot that held no
process and holds one now starts outside any call. -/
def renew (k k' : Kernel) (phase : Fin NPROC → Log.Phase) (j : Fin NPROC) : Log.Phase :=
  if (k.ptable j).state = .unused ∧ (k'.ptable j).state ≠ .unused then .idle else phase j

/-- Whether a trap from user mode finds its process outside any file-system call. -/
def fromUser (s : Sys) (e : Event) : Bool :=
  match e.userCpu with
  | none => true
  | some c =>
      match (s.kernel.cpus c).proc with
      | none => true
      | some i => s.trans.phase i == .idle

/-- A step of the process table, with the transaction of the `exit()` it runs. -/
def kernelStep (s : Sys) (e : Event) : Option Sys :=
  if s.fromUser e then
    (s.kernel.step e).bind fun k =>
      let phase := renew s.kernel k s.trans.phase
      match exited s.kernel k e with
      | none => some ⟨k, ⟨s.trans.log, phase⟩⟩
      | some i => (exitTrans s.trans.log).map fun m => ⟨k, ⟨m, Function.update phase i .idle⟩⟩
  else
    none

def step (s : Sys) : SysEvent → Option Sys
  | .kernel e => s.kernelStep e
  | .fs c call =>
      match (s.kernel.cpus c).proc with
      | none => none
      | some i => (s.trans.step i call).map fun tr => ⟨s.kernel, tr⟩

/-- The table `userinit` leaves and the log `initlog` leaves on `mkfs`'s disk. -/
def Init (s : Sys) : Prop :=
  s.kernel.Init ∧ s.trans = Log.Trans.init nlog

def Reachable (s : Sys) : Prop :=
  Run.Reachable step Init s

def bootRun (kstack pgdir root : Nat) (es : List SysEvent) : Option Sys :=
  (Kernel.userinit kstack pgdir root).bind fun k => Run.exec step ⟨k, Log.Trans.init nlog⟩ es

theorem reachable_of_bootRun {kstack pgdir root : Nat} {es : List SysEvent} {s : Sys}
    (h : bootRun kstack pgdir root es = some s) : s.Reachable := by
  obtain ⟨k, hk, hrun⟩ := Option.bind_eq_some_iff.mp h
  exact ⟨_, es, ⟨⟨kstack, pgdir, root, hk⟩, rfl⟩, hrun⟩

/-!
## What one step does to the log
-/

theorem exitTrans_eq_some {m m' : Log.Mem} (h : exitTrans m = some m') :
    m.committing = false ∧ m' = if m.outstanding = 0 then { m with lh := [] } else m := by
  obtain ⟨m₁, h₁, h₂⟩ := Option.bind_eq_some_iff.mp h
  obtain ⟨hc, -, rfl⟩ := Log.Mem.beginOp_eq_some.mp h₁
  refine ⟨hc, ?_⟩
  have hsub : m.outstanding + 1 - 1 = m.outstanding := by omega
  cases hend : Log.Mem.endOp { m with outstanding := m.outstanding + 1 } with
  | error e =>
      rw [hend] at h₂
      cases h₂
  | ok r =>
      obtain ⟨m₂, c⟩ := r
      obtain ⟨-, hdec, rfl⟩ := Log.Mem.endOp_eq_ok.mp hend
      rw [hend] at h₂
      simp only [hsub] at hdec
      by_cases h0 : m.outstanding = 0
      · -- the last operation ended: `commit()` empties the header
        rw [decide_eq_true h0] at hdec
        subst hdec
        cases h₂
        rw [if_pos h0]
        simp only [Log.Mem.commitDone, hsub, ← hc]
      · rw [decide_eq_false h0] at hdec
        subst hdec
        cases h₂
        rw [if_neg h0]
        simp only [hsub, ← hc]

theorem kernelStep_cases {s s' : Sys} {e : Event} (h : s.kernelStep e = some s') :
    s.fromUser e = true ∧ s.kernel.step e = some s'.kernel ∧
      (∀ j, s'.trans.phase j = s.trans.phase j ∨ s'.trans.phase j = .idle) ∧
      (s'.trans.log = s.trans.log ∨ exitTrans s.trans.log = some s'.trans.log) := by
  unfold kernelStep at h
  by_cases hu : s.fromUser e = true
  · rw [if_pos hu] at h
    obtain ⟨k, hk, h'⟩ := Option.bind_eq_some_iff.mp h
    have hrenew : ∀ j, renew s.kernel k s.trans.phase j = s.trans.phase j ∨
        renew s.kernel k s.trans.phase j = .idle := by
      intro j
      unfold renew
      split
      · exact Or.inr rfl
      · exact Or.inl rfl
    cases hx : exited s.kernel k e with
    | none =>
        rw [hx] at h'
        cases h'
        exact ⟨hu, hk, hrenew, Or.inl rfl⟩
    | some i =>
        rw [hx] at h'
        obtain ⟨m, hm, rfl⟩ := Option.map_eq_some_iff.mp h'
        refine ⟨hu, hk, ?_, Or.inr hm⟩
        intro j
        dsimp only
        by_cases hj : j = i
        · subst hj
          exact Or.inr (Function.update_self _ _ _)
        · rw [Function.update_of_ne hj]
          exact hrenew j
  · rw [if_neg hu] at h
    cases h

theorem step_fs {s s' : Sys} {c : Fin NCPU} {call : Log.Call}
    (h : s.step (.fs c call) = some s') :
    ∃ i, (s.kernel.cpus c).proc = some i ∧ s.trans.step i call = some s'.trans ∧
      s'.kernel = s.kernel := by
  simp only [step] at h
  split at h
  · cases h
  · rename_i i hi
    obtain ⟨tr, htr, rfl⟩ := Option.map_eq_some_iff.mp h
    exact ⟨i, hi, htr, rfl⟩

end Sys

end Xv6
