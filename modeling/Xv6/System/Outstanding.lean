import Xv6.System.Basic

/-!
# Operations no process will end

`log.outstanding` counts the file-system calls between `begin_op` and
`end_op`.  A call into the log keeps the difference between that count and
the processes inside an operation (`Log.Trans.gap`), and a kernel step can
only raise it: when `exit()` ends a process inside an operation, that
operation never reaches its `end_op`.  So `outstanding` counts at least the
processes inside operations, in every reachable state.

`trap` applies the budget check of the scheduling extension to a timer
interrupt from kernel mode as well, unlike its `killed` check, so a process
whose budget runs out inside a file-system call exits there.  From then on
`outstanding` never returns to `0`: no `end_op` commits, and the header of
the open transaction only grows.
-/

namespace Xv6

namespace Sys

open Tally Log

theorem kernelStep_outstanding {s s' : Sys} {e : Event} (h : s.kernelStep e = some s') :
    s'.trans.log.outstanding = s.trans.log.outstanding := by
  obtain ⟨-, -, -, hlog⟩ := kernelStep_cases h
  rcases hlog with hlog | hlog
  · rw [hlog]
  · obtain ⟨-, heq⟩ := exitTrans_eq_some hlog
    rw [heq]
    split <;> rfl

theorem gap_le_kernelStep {s s' : Sys} {e : Event} (h : s.kernelStep e = some s') :
    s.trans.gap ≤ s'.trans.gap := by
  obtain ⟨-, -, hphase, -⟩ := kernelStep_cases h
  have htally : tally inOp s'.trans.phase ≤ tally inOp s.trans.phase := by
    apply tally_le_tally
    intro j
    rcases hphase j with hj | hj
    · exact Nat.le_of_eq (congrArg inOp hj)
    · rw [hj]
      exact Nat.zero_le _
  have hout := kernelStep_outstanding h
  unfold Trans.gap
  omega

theorem gap_le_step {s s' : Sys} {e : SysEvent} (h : s.step e = some s') :
    s.trans.gap ≤ s'.trans.gap := by
  cases e with
  | kernel e => exact gap_le_kernelStep h
  | fs c call =>
      obtain ⟨i, -, htr, -⟩ := step_fs h
      exact (Trans.gap_step htr).ge

/-!
## A stranded operation
-/

/-- A state whose `outstanding` counts an operation no process is inside, with
no commit running. -/
structure Stranded (s : Sys) : Prop where
  gap_pos : 0 < s.trans.gap
  not_committing : s.trans.log.committing = false
  no_commit : ∀ i, s.trans.phase i ≠ .commit

theorem Stranded.one_le_outstanding {s : Sys} (hs : Stranded s) :
    1 ≤ s.trans.log.outstanding := by
  have := hs.gap_pos
  unfold Trans.gap at this
  omega

theorem Stranded.two_le_outstanding {s : Sys} (hs : Stranded s) {i : Fin NPROC}
    {bs : List Nat} (hp : s.trans.phase i = .op bs) : 2 ≤ s.trans.log.outstanding := by
  have hone := le_tally inOp s.trans.phase i
  rw [hp] at hone
  have := hs.gap_pos
  unfold Trans.gap at this
  simp only [inOp] at hone
  omega

theorem update_ne_commit {phase : Fin NPROC → Phase} (h : ∀ j, phase j ≠ .commit)
    (i : Fin NPROC) {p : Phase} (hp : p ≠ .commit) (j : Fin NPROC) :
    Function.update phase i p j ≠ .commit := by
  by_cases hj : j = i
  · rw [hj, Function.update_self]
    exact hp
  · rw [Function.update_of_ne hj]
    exact h j

theorem Stranded.fs {s : Sys} {i : Fin NPROC} {call : Call} {tr : Trans (Fin NPROC)}
    (hs : Stranded s) (h : s.trans.step i call = some tr) :
    tr.log.committing = false ∧ (∀ j, tr.phase j ≠ .commit) ∧ s.trans.log.lh <+: tr.log.lh := by
  cases call with
  | beginOp =>
      obtain ⟨-, m, hm, rfl⟩ := Trans.step_beginOp h
      obtain ⟨hc, -, rfl⟩ := Mem.beginOp_eq_some.mp hm
      exact ⟨hc, update_ne_commit hs.no_commit i (by simp), List.prefix_refl _⟩
  | logWrite blockno =>
      obtain ⟨bs, m, -, hm, rfl⟩ := Trans.step_logWrite h
      obtain ⟨-, -, -, rfl⟩ := Mem.logWrite_eq_ok.mp hm
      refine ⟨hs.not_committing, update_ne_commit hs.no_commit i (by simp), ?_⟩
      · -- `log_write` absorbs the block or appends it
        by_cases hmem : blockno ∈ s.trans.log.lh
        · rw [absorb_of_mem hmem]
        · rw [absorb_of_not_mem hmem]
          exact List.prefix_append _ _
  | endOp =>
      obtain ⟨bs, m, c, hp, hm, rfl⟩ := Trans.step_endOp h
      obtain ⟨-, hc, rfl⟩ := Mem.endOp_eq_ok.mp hm
      -- the stranded operation keeps `outstanding` above `0`
      have htwo := hs.two_le_outstanding hp
      have hc' : c = false := by
        rw [hc]
        exact decide_eq_false (by omega)
      subst hc'
      exact ⟨rfl, update_ne_commit hs.no_commit i (by simp), List.prefix_refl _⟩
  | commit =>
      obtain ⟨hp, -⟩ := Trans.step_commit h
      exact absurd hp (hs.no_commit i)

theorem Stranded.kernelStep {s s' : Sys} {e : Event} (hs : Stranded s)
    (h : s.kernelStep e = some s') :
    s'.trans.log = s.trans.log ∧ ∀ j, s'.trans.phase j ≠ .commit := by
  obtain ⟨-, -, hphase, hlog⟩ := kernelStep_cases h
  refine ⟨?_, ?_⟩
  · rcases hlog with hlog | hlog
    · exact hlog
    · obtain ⟨-, heq⟩ := exitTrans_eq_some hlog
      have hout := hs.one_le_outstanding
      rw [heq, if_neg (by omega)]
  · intro j
    rcases hphase j with hj | hj
    · rw [hj]
      exact hs.no_commit j
    · rw [hj]
      simp only [ne_eq, reduceCtorEq, not_false_eq_true]

theorem Stranded.step {s s' : Sys} {e : SysEvent} (hs : Stranded s) (h : s.step e = some s') :
    Stranded s' ∧ s.trans.log.lh <+: s'.trans.log.lh := by
  have hgap := gap_le_step h
  cases e with
  | kernel e =>
      obtain ⟨hlog, hnc⟩ := hs.kernelStep h
      refine ⟨⟨lt_of_lt_of_le hs.gap_pos hgap, ?_, hnc⟩, ?_⟩
      · rw [hlog]
        exact hs.not_committing
      · rw [hlog]
  | fs c call =>
      obtain ⟨i, -, htr, -⟩ := step_fs h
      obtain ⟨hc, hnc, hpre⟩ := hs.fs htr
      exact ⟨⟨lt_of_lt_of_le hs.gap_pos hgap, hc, hnc⟩, hpre⟩

theorem Stranded.run {s t : Sys} {es : List SysEvent} (hs : Stranded s)
    (h : Run.exec Sys.step s es = some t) : Stranded t ∧ s.trans.log.lh <+: t.trans.log.lh := by
  refine Run.exec_invariant
    (P := fun t : Sys => Stranded t ∧ s.trans.log.lh <+: t.trans.log.lh) ?_ h
    ⟨hs, List.prefix_refl _⟩
  rintro u e u' ⟨hu, hpre⟩ hstep
  obtain ⟨hu', hpre'⟩ := hu.step hstep
  exact ⟨hu', hpre.trans hpre'⟩

/-- Init forks a child and admits it under EDF with `execution_time = 1`,
then sleeps in `wait()`.  Dispatching the child spends its budget; it begins
a file-system operation and logs block `100`, and the timer interrupt from
kernel mode exits it there. -/
def strandRun : List SysEvent :=
  [.kernel (.scheduler 0), .kernel (.syscall 0 (.fork 3 4)),
    .kernel (.syscall 0 (.deadline 2 10)), .kernel (.syscall 0 (.execTime 2 1)),
    .kernel (.syscall 0 (.schedPolicy 2 0)), .kernel (.syscall 0 .wait), .kernel (.scheduler 0),
    .fs 0 .beginOp, .fs 0 (.logWrite 100), .kernel (.timer 0 false)]

theorem budget_exit_strands_transaction :
    ∃ s : Sys, s.Reachable ∧ s.trans.log.outstanding = 1 ∧ s.trans.log.lh = [100] ∧
      (∀ i, s.trans.phase i = .idle) ∧
      ∀ es t, Run.exec step s es = some t →
        1 ≤ t.trans.log.outstanding ∧ t.trans.log.committing = false ∧
          [100] <+: t.trans.log.lh := by
  have hend : (bootRun 1 2 1 strandRun).map (fun s => decide
      (s.trans.log.outstanding = 1 ∧ s.trans.log.lh = [100] ∧ s.trans.log.committing = false ∧
        ∀ i, s.trans.phase i = .idle)) = some true := by
    decide +kernel
  obtain ⟨s, hs, hp⟩ := Option.map_eq_some_iff.mp hend
  obtain ⟨hout, hlh, hc, hidle⟩ := of_decide_eq_true hp
  have hzero : tally inOp s.trans.phase = 0 :=
    tally_eq_zero (fun i => by rw [hidle i]; rfl)
  have hstr : Stranded s := by
    refine ⟨?_, hc, fun i => by rw [hidle i]; simp only [ne_eq, reduceCtorEq, not_false_eq_true]⟩
    unfold Trans.gap
    rw [hzero, hout]
    decide
  refine ⟨s, reachable_of_bootRun hs, hout, hlh, hidle, fun es t hrun => ?_⟩
  obtain ⟨ht, hpre⟩ := hstr.run hrun
  exact ⟨ht.one_le_outstanding, ht.not_committing, hlh ▸ hpre⟩

end Sys

end Xv6
