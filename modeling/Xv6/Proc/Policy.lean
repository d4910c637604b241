import Xv6.Proc.Admission

/-!
# What `sched_policy` returns, and when it traps

`sched_policy(pid, policy)` looks for the first slot with that pid.  Its
`check` flag is set on a rejection only, so the call returns `-22` exactly
when it rejected the process it found; a pid no slot holds and a policy
other than `0` and `1` both fall through to `return 0`, unlike `exec_time`,
`deadline` and `rate`, which return `-22` when they find no slot.

The EDF test divides by the deadline, which `allocproc` sets to `0` and
only `deadline()` changes, and multiplies `execution_time`, which any
`exec_time()` call sets from user space, by `100` in a 32-bit `int`.
-/

namespace Xv6

namespace Kernel

variable {s s' : Kernel} {pid policy r : Int}

/-- The error contract `sched_policy` keeps: `-22` when it rejected the
process it found, which it leaves a killed `ZOMBIE`; otherwise `0`, having
admitted that process under `policy`, or having changed nothing. -/
theorem schedPolicy_contract (h : s.schedPolicy pid policy = some (s', r)) :
    (r = -22 ∧ ∃ i, s.findPid pid = some i ∧ (policy = 0 ∨ policy = 1) ∧
        (s'.ptable i).state = .zombie ∧ (s'.ptable i).killed = 1) ∨
      (r = 0 ∧ ((∃ i, s.findPid pid = some i ∧ (policy = 0 ∨ policy = 1) ∧
          (s'.ptable i).schedPolicy = policy) ∨ s' = s)) := by
  rcases schedPolicy_cases h with ⟨-, rfl, rfl⟩ | ⟨i, hi, hcase⟩
  · exact .inr ⟨rfl, .inr rfl⟩
  · rcases hcase with ⟨rfl, hedf⟩ | ⟨rfl, hrm⟩ | ⟨-, -, rfl, rfl⟩
    · obtain ⟨t, -, ⟨-, rfl, rfl⟩ | ⟨-, rfl, rfl⟩⟩ := admitEdf_spec hedf
      · exact .inr ⟨rfl, .inl ⟨i, hi, .inl rfl, by simp⟩⟩
      · exact .inl ⟨rfl, i, hi, .inl rfl, by simp [reject], by simp [reject]⟩
    · rcases admitRm_spec s i pid with ⟨-, hadm⟩ | ⟨-, hrej⟩
      · rw [hadm] at hrm
        cases hrm
        exact .inr ⟨rfl, .inl ⟨i, hi, .inr rfl, by simp⟩⟩
      · rw [hrej] at hrm
        cases hrm
        exact .inl ⟨rfl, i, hi, .inr rfl, by simp [reject], by simp [reject]⟩
    · exact .inr ⟨rfl, .inr rfl⟩

theorem edfTerm_eq_none_iff {p : Proc} :
    edfTerm p = none ↔ p.deadline = 0 ∨ (CInt.mul p.executionTime 100 = -2 ^ 31 ∧ p.deadline = -1) := by
  unfold edfTerm CInt.div
  by_cases hfault : p.deadline = 0 ∨ (CInt.mul p.executionTime 100 = -2 ^ 31 ∧ p.deadline = -1)
  · rw [if_pos hfault]
    exact iff_of_true rfl hfault
  · rw [if_neg hfault]
    exact iff_of_false (by simp) hfault

theorem schedPolicy_edf_eq_none_iff {i : Fin NPROC} (hi : s.findPid pid = some i) :
    s.schedPolicy pid 0 = none ↔
      (s.ptable i).deadline = 0 ∨
        (CInt.mul (s.ptable i).executionTime 100 = -2 ^ 31 ∧ (s.ptable i).deadline = -1) := by
  rw [← edfTerm_eq_none_iff]
  simp only [schedPolicy, hi, if_true, admitEdf]
  cases edfTerm (s.ptable i) with
  | none => simp
  | some t => simp only [reduceCtorEq, iff_false]; split <;> simp

/-- Right after boot, init (pid `1`) runs on CPU 0 with the deadline `0`
`allocproc` gave it: `sched_policy(1, 0)` divides by zero and the system call
traps.  With `exec_time(1, 2^29)` and `deadline(1, 1)` the test runs, but
`execution_time * 100` does not fit an `int`. -/
theorem sched_policy_divides_by_zero_after_boot :
    (∃ s : Kernel, s.Reachable ∧ (s.cpus 0).proc = some 0 ∧ (s.ptable 0).pid = 1 ∧
      (s.ptable 0).deadline = 0 ∧ s.schedPolicy 1 0 = none ∧ step s (.syscall 0 (.schedPolicy 1 0)) = none) ∧
    ∃ s : Kernel, s.Reachable ∧ s.findPid 1 = some 0 ∧ (s.ptable 0).deadline = 1 ∧
      ¬CInt.Representable ((s.ptable 0).executionTime * 100) ∧ (s.schedPolicy 1 0).isSome := by
  constructor
  · obtain ⟨s, hs, hcpu, hpid, hdl, htrap, hstep⟩ := exists_reachable_of_bootRun
      (fun s => (s.cpus 0).proc = some 0 ∧ (s.ptable 0).pid = 1 ∧ (s.ptable 0).deadline = 0 ∧
        (s.schedPolicy 1 0).isNone = true ∧ (step s (.syscall 0 (.schedPolicy 1 0))).isNone = true)
      1 2 1 [.scheduler 0] (by decide)
    exact ⟨s, hs, hcpu, hpid, hdl, Option.isNone_iff_eq_none.mp htrap, Option.isNone_iff_eq_none.mp hstep⟩
  · exact exists_reachable_of_bootRun
      (fun s => s.findPid 1 = some 0 ∧ (s.ptable 0).deadline = 1 ∧
        ¬CInt.Representable ((s.ptable 0).executionTime * 100) ∧ (s.schedPolicy 1 0).isSome)
      1 2 1 [.scheduler 0, .syscall 0 (.execTime 1 (2 ^ 29)), .syscall 0 (.deadline 1 1)] (by decide)

/-- Right after boot, with init (pid `1`) the only process, `sched_policy(7, 0)`
finds no process and `sched_policy(1, 2)` is asked for no policy: both
return `0`, as an admission does, where the setters return `-22`. -/
theorem sched_policy_returns_zero_without_admission :
    ∃ s : Kernel, s.Reachable ∧ (∀ i : Fin NPROC, (s.ptable i).pid ≠ 7) ∧ s.execTime 7 1 = (s, -22) ∧
      (∃ s', s.schedPolicy 7 0 = some (s', 0)) ∧ (∃ s', s.schedPolicy 1 2 = some (s', 0)) := by
  obtain ⟨s, hs, hnone, hret₇, hret₁⟩ := exists_reachable_of_bootRun
    (fun s => (∀ i : Fin NPROC, (s.ptable i).pid ≠ 7) ∧
      (s.schedPolicy 7 0).map Prod.snd = some 0 ∧ (s.schedPolicy 1 2).map Prod.snd = some 0)
    1 2 1 [.scheduler 0] (by decide)
  have hfind : s.findPid 7 = none :=
    (findSlot_eq_none_iff s _).mpr fun i => by simpa using hnone i
  obtain ⟨⟨s₇, r₇⟩, h₇, rfl⟩ := Option.map_eq_some_iff.mp hret₇
  obtain ⟨⟨s₁, r₁⟩, h₁, rfl⟩ := Option.map_eq_some_iff.mp hret₁
  exact ⟨s, hs, hnone, by simp [execTime, setByPid, hfind], ⟨s₇, h₇⟩, ⟨s₁, h₁⟩⟩

end Kernel

end Xv6
