import Xv6.Proc.Lifecycle

/-!
# The process a pass of the scheduler dispatches

Once the outer loop of `scheduler()` reaches a runnable slot `p` whose
`sched_policy` is `0` (EDF) or `1` (RM), the inner loop scans the whole
table from its head with `highP = p`, and moves `highP` to a runnable `p1`
whose key is smaller, or equal with a smaller pid.  The key is the deadline
under EDF and the priority under RM.  The scan keeps the least `(key, pid)`
of what it has seen, in the lexicographic order, so the slot it ends on is
least among all runnable slots; that slot, and no other, becomes `RUNNING`
and has its `elapsed_time` counted.
-/

namespace Xv6

namespace Kernel

/-- `(key p, p->pid)` is at most `(key q, q->pid)` in the lexicographic
order. -/
def LexLe (key : Proc → Int) (p q : Proc) : Prop :=
  key p < key q ∨ key p = key q ∧ p.pid ≤ q.pid

variable {key : Proc → Int} {s s' : Kernel} {p q r : Proc}

theorem LexLe.refl : LexLe key p p :=
  .inr ⟨rfl, le_rfl⟩

theorem LexLe.trans (hpq : LexLe key p q) (hqr : LexLe key q r) : LexLe key p r := by
  unfold LexLe at *
  omega

/-- One turn of `pickMin`'s loop: `highP` after looking at `p1`. -/
def pickStep (key : Proc → Int) (s : Kernel) (h p1 : Fin NPROC) : Fin NPROC :=
  if (s.ptable p1).state = .runnable ∧ key (s.ptable p1) ≤ key (s.ptable h) then
    if key (s.ptable p1) = key (s.ptable h) then
      if (s.ptable p1).pid < (s.ptable h).pid then p1 else h
    else
      p1
  else
    h

theorem pickMin_eq_foldl (h : Fin NPROC) :
    pickMin key s h = (List.finRange NPROC).foldl (pickStep key s) h :=
  rfl

theorem pickStep_spec (key : Proc → Int) {h : Fin NPROC} (p1 : Fin NPROC) (hh : (s.ptable h).state = .runnable) :
    (s.ptable (pickStep key s h p1)).state = .runnable ∧
      LexLe key (s.ptable (pickStep key s h p1)) (s.ptable h) ∧
      ((s.ptable p1).state = .runnable → LexLe key (s.ptable (pickStep key s h p1)) (s.ptable p1)) := by
  unfold pickStep
  by_cases hc : (s.ptable p1).state = .runnable ∧ key (s.ptable p1) ≤ key (s.ptable h)
  · rw [if_pos hc]
    by_cases he : key (s.ptable p1) = key (s.ptable h)
    · rw [if_pos he]
      by_cases hpid : (s.ptable p1).pid < (s.ptable h).pid
      · rw [if_pos hpid]
        exact ⟨hc.1, .inr ⟨he, hpid.le⟩, fun _ => LexLe.refl⟩
      · rw [if_neg hpid]
        exact ⟨hh, LexLe.refl, fun _ => .inr ⟨he.symm, not_lt.mp hpid⟩⟩
    · rw [if_neg he]
      exact ⟨hc.1, .inl (lt_of_le_of_ne hc.2 he), fun _ => LexLe.refl⟩
  · rw [if_neg hc]
    refine ⟨hh, LexLe.refl, fun hr => .inl ?_⟩
    -- `p1` is runnable, so it was passed over for a larger key
    have := not_and.mp hc hr
    omega

theorem foldl_pickStep_least (key : Proc → Int) (l : List (Fin NPROC)) :
    ∀ h : Fin NPROC, (s.ptable h).state = .runnable →
      (s.ptable (l.foldl (pickStep key s) h)).state = .runnable ∧
        LexLe key (s.ptable (l.foldl (pickStep key s) h)) (s.ptable h) ∧
        ∀ q ∈ l, (s.ptable q).state = .runnable → LexLe key (s.ptable (l.foldl (pickStep key s) h)) (s.ptable q) := by
  induction l with
  | nil =>
      intro h hh
      exact ⟨hh, LexLe.refl, by simp⟩
  | cons p1 l ih =>
      intro h hh
      obtain ⟨hrun₁, hle₁, hp1⟩ := pickStep_spec key p1 hh
      obtain ⟨hrun, hle, hrest⟩ := ih _ hrun₁
      rw [List.foldl_cons]
      refine ⟨hrun, hle.trans hle₁, fun q hq hqr => ?_⟩
      rcases List.mem_cons.mp hq with rfl | hq
      · exact hle.trans (hp1 hqr)
      · exact hrest q hq hqr

theorem pickMin_least {h : Fin NPROC} (hh : (s.ptable h).state = .runnable) :
    (s.ptable (pickMin key s h)).state = .runnable ∧
      ∀ q : Fin NPROC, (s.ptable q).state = .runnable → LexLe key (s.ptable (pickMin key s h)) (s.ptable q) := by
  rw [pickMin_eq_foldl]
  obtain ⟨hrun, -, hall⟩ := foldl_pickStep_least key (List.finRange NPROC) h hh
  exact ⟨hrun, fun q hq => hall q (List.mem_finRange q) hq⟩

theorem selectFrom_edf {p : Fin NPROC} (hrun : (s.ptable p).state = .runnable) (h0 : (s.ptable p).schedPolicy = 0) :
    ∀ q : Fin NPROC, (s.ptable q).state = .runnable → LexLe Proc.deadline (s.ptable (s.selectFrom p)) (s.ptable q) := by
  have hsel : s.selectFrom p = pickMin Proc.deadline s p := by simp [selectFrom, h0]
  rw [hsel]
  exact (pickMin_least hrun).2

theorem selectFrom_rm {p : Fin NPROC} (hrun : (s.ptable p).state = .runnable) (h1 : (s.ptable p).schedPolicy = 1) :
    ∀ q : Fin NPROC, (s.ptable q).state = .runnable → LexLe Proc.priority (s.ptable (s.selectFrom p)) (s.ptable q) := by
  have hsel : s.selectFrom p = pickMin Proc.priority s p := by simp [selectFrom, h1]
  rw [hsel]
  exact (pickMin_least hrun).2

/-- The scheduler's selection law: when the outer loop reaches a runnable slot
`p` under EDF, the process dispatched is the runnable one least in
`(deadline, pid)`, and under RM least in `(priority, pid)`; it alone becomes
`RUNNING`, with one more tick of `elapsed_time`. -/
theorem scheduler_dispatches_least {c : Fin NCPU} {p : Fin NPROC}
    (hp : s.nextRunnable (s.cpus c).next = some p) (hrt : RtPolicy (s.ptable p))
    (hs : s.scheduler c = some s') :
    ∃ h : Fin NPROC, (s'.cpus c).proc = some h ∧ (s.ptable h).state = .runnable ∧
      ((s.ptable p).schedPolicy = 0 →
        ∀ q : Fin NPROC, (s.ptable q).state = .runnable → LexLe Proc.deadline (s.ptable h) (s.ptable q)) ∧
      ((s.ptable p).schedPolicy = 1 →
        ∀ q : Fin NPROC, (s.ptable q).state = .runnable → LexLe Proc.priority (s.ptable h) (s.ptable q)) ∧
      s'.ptable h =
        { s.ptable h with elapsedTime := CInt.add (s.ptable h).elapsedTime 1, state := .running } ∧
      ∀ j, j ≠ h → s'.ptable j = s.ptable j := by
  have hrun := nextRunnable_runnable hp
  obtain ⟨-, ⟨hnone, -⟩ | ⟨p', hp', -, -, -, rfl⟩⟩ := scheduler_cases hs
  · rw [hp] at hnone
    cases hnone
  rw [hp] at hp'
  cases hp'
  have hrun' := selectFrom_runnable hrun
  exact ⟨s.selectFrom p, by simp, hrun', selectFrom_edf hrun, selectFrom_rm hrun, by simp [hrt],
    fun j hj => by simp [hj]⟩

/-- Init, admitted under EDF with deadline `50`, yields while its child,
admitted with deadline `10`, is runnable: CPU 1's pass reaches init first
and dispatches the slot least in `(deadline, pid)`. -/
theorem scheduler_dispatches_least_past_init :
    ∃ s s' : Kernel, s.Reachable ∧ s.nextRunnable (s.cpus 1).next = some 0 ∧
      RtPolicy (s.ptable 0) ∧ s.scheduler 1 = some s' ∧
      ∃ h : Fin NPROC, (s'.cpus 1).proc = some h ∧
        ∀ q : Fin NPROC, (s.ptable q).state = .runnable → LexLe Proc.deadline (s.ptable h) (s.ptable q) := by
  obtain ⟨s, hs, hp, hpol, hsched⟩ := exists_reachable_of_bootRun
    (fun s => s.nextRunnable (s.cpus 1).next = some 0 ∧ (s.ptable 0).schedPolicy = 0 ∧
      (s.scheduler 1).isSome = true)
    1 2 1
    [.scheduler 0, .syscall 0 (.fork 3 4), .syscall 0 (.deadline 1 50), .syscall 0 (.deadline 2 10),
      .syscall 0 (.schedPolicy 1 0), .syscall 0 (.schedPolicy 2 0), .timer 0 true]
    (by decide)
  obtain ⟨s', hs'⟩ := Option.isSome_iff_exists.mp hsched
  have hrt : RtPolicy (s.ptable 0) := .inl hpol
  obtain ⟨h, hcpu, -, hedf, -⟩ := scheduler_dispatches_least hp hrt hs'
  exact ⟨s, s', hs, hp, hrt, hs', h, hcpu, hedf hpol⟩

/-!
## Rate-monotonic priorities

`rate(pid, rate)` sets `priority = (90 - 3 * rate + 28) / 29`, raised to `1`,
on `int`.  `sys_rate` passes any `int` on.  While `3 * rate` and the sums
after it stay within `int`, that is `-715827843 ≤ rate ≤ 715827882`, a higher
rate gets a priority at most as large, which the RM pass prefers; past that
range `3 * rate` wraps, and a rate of `1431655765` gets priority `4` where a
rate of `10` gets `3`.
-/

theorem ratePriority_of_range {r : Int} (hlo : -715827843 ≤ r) (hhi : r ≤ 715827882) :
    ratePriority r = if (118 - 3 * r).tdiv 29 < 1 then 1 else (118 - 3 * r).tdiv 29 := by
  have hmul : CInt.mul 3 r = 3 * r := CInt.wrap_of_representable ⟨by omega, by omega⟩
  have hsub : CInt.sub 90 (3 * r) = 90 - 3 * r := CInt.wrap_of_representable ⟨by omega, by omega⟩
  have hadd : CInt.add (90 - 3 * r) 28 = 118 - 3 * r := by
    rw [CInt.add, CInt.wrap_of_representable ⟨by omega, by omega⟩]
    omega
  simp only [ratePriority, hmul, hsub, hadd]

theorem one_le_ratePriority (r : Int) : 1 ≤ ratePriority r := by
  simp only [ratePriority]
  split <;> omega

theorem ratePriority_antitone {r₁ r₂ : Int} (hlo : -715827843 ≤ r₁) (hle : r₁ ≤ r₂) (hhi : r₂ ≤ 715827882) :
    ratePriority r₂ ≤ ratePriority r₁ := by
  have hq : (118 - 3 * r₂).tdiv 29 ≤ (118 - 3 * r₁).tdiv 29 := Int.tdiv_le_tdiv (by decide) (by omega)
  rw [ratePriority_of_range (by omega) hhi, ratePriority_of_range hlo (by omega)]
  split <;> split <;> omega

theorem rate_priority_inverts_past_overflow :
    (10 : Int) ≤ 1431655765 ∧ ratePriority 1431655765 = 4 ∧ ratePriority 10 = 3 := by
  refine ⟨by decide, ?_, ?_⟩
  · simp only [ratePriority, CInt.add, CInt.sub, CInt.mul, CInt.wrap]
    decide
  · rw [ratePriority_of_range (by decide) (by decide)]
    decide

/-- Rate-monotonic order where `rate()` computes without overflow: a higher
rate gets a priority at most as large; every priority is at least `1`; and
an RM pass dispatches a runnable process whose priority is at most that of
every runnable process, so never one while another lies in a strictly better
bucket. -/
theorem rate_monotonic_order :
    (∀ r₁ r₂ : Int, -715827843 ≤ r₁ → r₁ ≤ r₂ → r₂ ≤ 715827882 → ratePriority r₂ ≤ ratePriority r₁) ∧
      (∀ r : Int, 1 ≤ ratePriority r) ∧
      ∀ {s s' : Kernel} {c : Fin NCPU} {p : Fin NPROC}, s.nextRunnable (s.cpus c).next = some p →
        (s.ptable p).schedPolicy = 1 → s.scheduler c = some s' →
        ∃ h : Fin NPROC, (s'.cpus c).proc = some h ∧
          ∀ q : Fin NPROC, (s.ptable q).state = .runnable → (s.ptable h).priority ≤ (s.ptable q).priority := by
  refine ⟨fun r₁ r₂ hlo hle hhi => ratePriority_antitone hlo hle hhi, one_le_ratePriority, ?_⟩
  intro s s' c p hp h1 hs
  have hrun := nextRunnable_runnable hp
  obtain ⟨-, ⟨hnone, -⟩ | ⟨p', hp', -, -, -, rfl⟩⟩ := scheduler_cases hs
  · rw [hp] at hnone
    cases hnone
  rw [hp] at hp'
  cases hp'
  refine ⟨s.selectFrom p, by simp, fun q hq => ?_⟩
  -- least in `(priority, pid)`, so least in priority
  rcases selectFrom_rm hrun h1 q hq with hlt | ⟨heq, -⟩
  · exact hlt.le
  · exact heq.le

theorem rate_monotonic_order_at_ten : ratePriority 20 ≤ ratePriority 10 :=
  rate_monotonic_order.1 10 20 (by decide) (by decide) (by decide)

end Kernel

end Xv6
