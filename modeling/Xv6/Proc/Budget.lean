import Xv6.Proc.Lifecycle

/-!
# The execution-time budget

The scheduler adds one to `elapsed_time` of the process it dispatches when its
outer loop stopped at an EDF or RM process, whichever process the inner loop
then picks, and `trap` exits a process whose `elapsed_time` has reached its
`execution_time`.  Only `allocproc` resets `elapsed_time`, so it counts the RT
dispatches of the slot since it was allocated, those before the process was
admitted included.
-/

namespace Xv6

namespace Kernel

/-- The slot a step dispatches, and whether the pass went through an RT
branch. -/
def dispatch (s : Kernel) : Event → Option (Fin NPROC × Bool)
  | .scheduler c =>
      match (s.cpus c).proc, s.nextRunnable (s.cpus c).next with
      | none, some p => some (s.selectFrom p, decide (RtPolicy (s.ptable p)))
      | _, _ => none
  | _ => none

/-- The dispatches of slot `i` along the run of `es` from `s`. -/
def dispatches (i : Fin NPROC) (s : Kernel) (es : List Event) : Int :=
  Run.ledger step (fun s e => if (s.dispatch e).map Prod.fst = some i then 1 else 0) s es

/-- The dispatches of slot `i` through an RT branch. -/
def rtDispatches (i : Fin NPROC) (s : Kernel) (es : List Event) : Int :=
  Run.ledger step (fun s e => if s.dispatch e = some (i, true) then 1 else 0) s es

theorem selectFrom_of_not_rt {s : Kernel} {p : Fin NPROC} (hp : ¬RtPolicy (s.ptable p)) :
    s.selectFrom p = p := by
  unfold RtPolicy at hp
  push Not at hp
  unfold selectFrom
  rw [if_neg hp.1, if_neg hp.2]

theorem dispatch_rt_of_rtPolicy {s : Kernel} {e : Event} {j : Fin NPROC} {b : Bool}
    (h : s.dispatch e = some (j, b)) (hj : RtPolicy (s.ptable j)) : b = true := by
  cases e with
  | scheduler c =>
      simp only [dispatch] at h
      split at h
      · rename_i p _ _
        obtain ⟨rfl, rfl⟩ := Prod.mk.inj (Option.some.inj h)
        by_cases hp : RtPolicy (s.ptable p)
        · exact decide_eq_true hp
        · rw [selectFrom_of_not_rt hp] at hj
          exact absurd hj hp
      · cases h
  | syscall c call => cases h
  | sleep c chan => cases h
  | wakeup chan => cases h
  | timer c user => cases h

/-!
## Who writes `elapsed_time`
-/

theorem setProc_elapsedTime {s : Kernel} {i : Fin NPROC} {p : Proc}
    (h : p.elapsedTime = (s.ptable i).elapsedTime) (j : Fin NPROC) :
    ((s.setProc i p).ptable j).elapsedTime = (s.ptable j).elapsedTime := by
  by_cases hj : j = i
  · subst hj
    simpa using h
  · simp [hj]

@[simp] theorem wakeup1_elapsedTime (s : Kernel) (chan : Chan) (j : Fin NPROC) :
    ((s.wakeup1 chan).ptable j).elapsedTime = (s.ptable j).elapsedTime := by
  obtain ⟨st, h⟩ := wakeup1_ptable s chan j
  rw [h]

@[simp] theorem clock_elapsedTime (s : Kernel) (c : Fin NCPU) (j : Fin NPROC) :
    ((s.clock c).ptable j).elapsedTime = (s.ptable j).elapsedTime := by
  unfold clock
  split
  · exact wakeup1_elapsedTime _ _ j
  · rfl

@[simp] theorem sleep_elapsedTime (s : Kernel) (c : Fin NCPU) (cur : Fin NPROC) (chan : Chan)
    (j : Fin NPROC) : ((s.sleep c cur chan).ptable j).elapsedTime = (s.ptable j).elapsedTime := by
  simp only [sleep, release, setCpu_ptable]
  exact setProc_elapsedTime (by rfl) j

@[simp] theorem yield_elapsedTime (s : Kernel) (c : Fin NCPU) (cur : Fin NPROC)
    (j : Fin NPROC) : ((s.yield c cur).ptable j).elapsedTime = (s.ptable j).elapsedTime := by
  simp only [yield, release, setCpu_ptable]
  exact setProc_elapsedTime (by rfl) j

theorem exit_elapsedTime {s s' : Kernel} {c : Fin NCPU} {cur : Fin NPROC}
    (h : s.exit c cur = some s') (j : Fin NPROC) :
    (s'.ptable j).elapsedTime = (s.ptable j).elapsedTime := by
  obtain ⟨_, _, _, _, hj⟩ := exit_ptable h j
  rw [hj]

theorem wait_elapsedTime (s : Kernel) (c : Fin NCPU) (cur j : Fin NPROC) :
    ((s.wait c cur).1.ptable j).elapsedTime = (s.ptable j).elapsedTime := by
  rcases wait_cases s c cur with ⟨i, -, hw⟩ | hw | hw <;> rw [hw]
  · exact setProc_elapsedTime (by rfl) j
  · exact sleep_elapsedTime s c cur _ j

theorem kill_elapsedTime (s : Kernel) (pid : Int) (j : Fin NPROC) :
    ((s.kill pid).1.ptable j).elapsedTime = (s.ptable j).elapsedTime := by
  unfold kill
  split
  · rfl
  · dsimp only
    exact setProc_elapsedTime (by rfl) j

theorem setByPid_elapsedTime (s : Kernel) (pid : Int) {f : Proc → Proc}
    (hf : ∀ p, (f p).elapsedTime = p.elapsedTime) (j : Fin NPROC) :
    ((s.setByPid pid f).1.ptable j).elapsedTime = (s.ptable j).elapsedTime := by
  unfold setByPid
  split
  · rfl
  · exact setProc_elapsedTime (hf _) j

theorem schedPolicy_elapsedTime {s t : Kernel} {pid policy r : Int}
    (h : s.schedPolicy pid policy = some (t, r)) (j : Fin NPROC) :
    (t.ptable j).elapsedTime = (s.ptable j).elapsedTime := by
  rcases schedPolicy_cases h with ⟨-, rfl, -⟩ | ⟨i, -, hcase⟩
  · rfl
  · rcases hcase with ⟨-, hedf⟩ | ⟨-, hrm⟩ | ⟨-, -, rfl, -⟩
    · obtain ⟨u, -, ⟨-, -, rfl⟩ | ⟨-, -, rfl⟩⟩ := admitEdf_spec hedf
      · exact setProc_elapsedTime (by rfl) j
      · exact setProc_elapsedTime (by rfl) j
    · rcases admitRm_spec s i pid with ⟨-, hadm⟩ | ⟨-, hrej⟩
      · rw [hadm] at hrm
        cases hrm
        exact setProc_elapsedTime (by rfl) j
      · rw [hrej] at hrm
        cases hrm
        exact setProc_elapsedTime (by rfl) j
    · rfl

theorem allocproc_ptable {s : Kernel} {j : Fin NPROC} (hj : (s.ptable j).state ≠ .unused)
    (kstack : Nat) : (s.allocproc kstack).2.ptable j = s.ptable j := by
  unfold allocproc
  split
  · rfl
  · rename_i i hi
    have hji : j ≠ i := by
      rintro rfl
      exact hj (by simpa using findSlot_spec hi)
    dsimp only
    split <;> simp [hji]

theorem fork_ptable {s : Kernel} {j : Fin NPROC} (hj : (s.ptable j).state ≠ .unused)
    (cur : Fin NPROC) (kstack pgdir : Nat) :
    (s.fork cur kstack pgdir).1.ptable j = s.ptable j := by
  have halloc := allocproc_ptable hj kstack
  unfold fork
  split
  · rename_i s₁ h
    rw [h] at halloc
    exact halloc
  · rename_i np s₁ h
    obtain ⟨hnp, -, -⟩ := allocproc_eq_some h
    have hjn : j ≠ np := by
      rintro rfl
      exact hj (by simpa using findSlot_spec hnp)
    rw [h] at halloc
    dsimp only at halloc ⊢
    split <;> simp [hjn, halloc]

theorem scheduler_elapsedTime {s s' : Kernel} {c : Fin NCPU} (h : s.scheduler c = some s')
    (j : Fin NPROC) :
    (s'.ptable j).elapsedTime =
      if s.dispatch (.scheduler c) = some (j, true) then CInt.add (s.ptable j).elapsedTime 1
      else (s.ptable j).elapsedTime := by
  obtain ⟨hc, ⟨hn, rfl⟩ | ⟨p, hp, -, -, -, rfl⟩⟩ := scheduler_cases h
  · have hd : s.dispatch (.scheduler c) = none := by simp [dispatch, hc, hn]
    rw [hd, if_neg (by simp)]
    rfl
  · have hd : s.dispatch (.scheduler c) =
        some (s.selectFrom p, decide (RtPolicy (s.ptable p))) := by
      simp [dispatch, hc, hp]
    rw [hd, setCpu_ptable]
    by_cases hj : j = s.selectFrom p
    · subst hj
      by_cases hrt : RtPolicy (s.ptable p) <;> simp [hrt]
    · simp [hj, Ne.symm hj]

/-!
## One step and a whole run
-/

theorem runSyscall_elapsedTime {s : Kernel} {c : Fin NCPU} {k j : Fin NPROC}
    {call : Syscall} {o : Outcome} (hj : (s.ptable j).state ≠ .unused)
    (h : s.runSyscall c k call = some o) :
    (o.kernel.ptable j).elapsedTime = (s.ptable j).elapsedTime := by
  cases call with
  | fork kstack pgdir =>
      cases h
      simp only [retOf, Outcome.kernel]
      rw [fork_ptable hj]
  | exit =>
      obtain ⟨t, ht, rfl⟩ := Option.map_eq_some_iff.mp h
      exact exit_elapsedTime ht j
  | wait =>
      have hw := wait_elapsedTime s c k j
      rcases hwait : s.wait c k with ⟨t, r⟩
      rw [hwait] at hw
      cases r with
      | none =>
          simp only [runSyscall, hwait, Option.some.injEq] at h
          rw [← h]
          exact hw
      | some r =>
          simp only [runSyscall, hwait, Option.some.injEq] at h
          rw [← h]
          exact hw
  | kill pid =>
      cases h
      exact kill_elapsedTime s pid j
  | schedPolicy pid policy =>
      obtain ⟨⟨t, r⟩, ht, rfl⟩ := Option.map_eq_some_iff.mp h
      exact schedPolicy_elapsedTime ht j
  | execTime pid time =>
      cases h
      simp only [retOf, Outcome.kernel, execTime]
      exact setByPid_elapsedTime s pid (fun _ => by rfl) j
  | deadline pid d =>
      cases h
      simp only [retOf, Outcome.kernel, deadline]
      exact setByPid_elapsedTime s pid (fun _ => by rfl) j
  | rate pid r =>
      cases h
      simp only [retOf, Outcome.kernel, rate]
      exact setByPid_elapsedTime s pid (fun _ => by rfl) j

theorem finishSyscall_elapsedTime {c : Fin NCPU} {k : Fin NPROC} {o : Outcome} {s' : Kernel}
    (h : finishSyscall c k o = some s') (j : Fin NPROC) :
    (s'.ptable j).elapsedTime = (o.kernel.ptable j).elapsedTime := by
  cases o with
  | off t =>
      cases h
      rfl
  | ret t r =>
      rw [finishSyscall_ret] at h
      split at h
      · exact exit_elapsedTime h j
      · cases h
        rfl

theorem timer_elapsedTime {s s' : Kernel} {c : Fin NCPU} {user : Bool}
    (h : s.timer c user = some s') (j : Fin NPROC) :
    (s'.ptable j).elapsedTime = (s.ptable j).elapsedTime := by
  rcases timer_cases h with ⟨-, rfl⟩ | ⟨k, -, hexit | ⟨-, rfl⟩ | ⟨-, rfl⟩⟩
  · exact clock_elapsedTime s c j
  · rw [exit_elapsedTime hexit j, clock_elapsedTime]
  · rw [yield_elapsedTime, clock_elapsedTime]
  · exact clock_elapsedTime s c j

theorem step_elapsedTime {s s' : Kernel} {e : Event} {i : Fin NPROC}
    (hi : (s.ptable i).state ≠ .unused) (h : step s e = some s') :
    (s'.ptable i).elapsedTime =
      if s.dispatch e = some (i, true) then CInt.add (s.ptable i).elapsedTime 1
      else (s.ptable i).elapsedTime := by
  cases e with
  | scheduler c => exact scheduler_elapsedTime h i
  | syscall c call =>
      rw [if_neg (by simp [dispatch])]
      obtain ⟨k, -, ⟨-, hexit⟩ | ⟨-, o, ho, hfin⟩⟩ := syscall_cases h
      · exact exit_elapsedTime hexit i
      · rw [finishSyscall_elapsedTime hfin, runSyscall_elapsedTime hi ho]
  | sleep c chan =>
      rw [if_neg (by simp [dispatch])]
      simp only [step] at h
      split at h
      · cases h
      · cases h
        exact sleep_elapsedTime s c _ chan i
  | wakeup chan =>
      rw [if_neg (by simp [dispatch])]
      cases h
      exact wakeup1_elapsedTime s chan i
  | timer c user =>
      rw [if_neg (by simp [dispatch])]
      exact timer_elapsedTime h i

theorem elapsedTime_counts_rt_dispatches {s₀ s : Kernel} {es : List Event} {i : Fin NPROC}
    (hrep : CInt.Representable (s₀.ptable i).elapsedTime)
    (hrun : Run.exec step s₀ es = some s)
    (hlive : Run.Always step (fun s _ => (s.ptable i).state ≠ .unused) s₀ es) :
    (s.ptable i).elapsedTime = CInt.wrap ((s₀.ptable i).elapsedTime + rtDispatches i s₀ es) ∧
      (Run.Always step (fun s _ => RtPolicy (s.ptable i)) s₀ es →
        rtDispatches i s₀ es = dispatches i s₀ es) := by
  constructor
  · have hrep' : CInt.Representable (s.ptable i).elapsedTime := by
      refine Run.exec_invariant_of_always
        (P := fun s : Kernel => CInt.Representable (s.ptable i).elapsedTime)
        (fun s e s' hi hs hse => ?_) hrun hlive hrep
      rw [step_elapsedTime hi hse]
      split
      · exact CInt.representable_wrap _
      · exact hs
    -- the ledger is kept in `ZMod (2^32)`, where the wrap of each increment disappears
    have hmap := Run.ledger_map step (Int.castAddHom (ZMod (2 ^ 32)))
      (fun s e => if s.dispatch e = some (i, true) then (1 : Int) else 0) s₀ es
    simp only [Int.coe_castAddHom] at hmap
    have hcast : ((s.ptable i).elapsedTime : ZMod (2 ^ 32)) =
        ((s₀.ptable i).elapsedTime : ZMod (2 ^ 32)) + ((rtDispatches i s₀ es : Int) :
          ZMod (2 ^ 32)) := by
      rw [rtDispatches, hmap]
      refine Run.exec_ledger (fun s => ((s.ptable i).elapsedTime : ZMod (2 ^ 32))) _ ?_ hrun hlive
      intro s e s' hi hse
      rw [step_elapsedTime hi hse]
      split
      · rw [CInt.add, CInt.cast_wrap, Int.cast_add]
      · rw [Int.cast_zero, add_zero]
    refine CInt.eq_wrap_of_cast_eq hrep' ?_
    rw [hcast, Int.cast_add]
  · intro hrt
    refine Run.ledger_congr_of_always (fun s e hs => ?_) hrt
    cases hd : s.dispatch e with
    | none => simp
    | some d =>
        obtain ⟨j, b⟩ := d
        by_cases hji : j = i
        · subst hji
          rw [dispatch_rt_of_rtPolicy hd hs]
          simp
        · simp [hji]

theorem elapsedTime_counts_rt_dispatches_at_dispatch :
    ∃ (s₀ s : Kernel) (es : List Event),
      CInt.Representable (s₀.ptable 1).elapsedTime ∧ Run.exec step s₀ es = some s ∧
      Run.Always step (fun s _ => (s.ptable 1).state ≠ .unused) s₀ es ∧
      (s.ptable 1).elapsedTime = CInt.wrap ((s₀.ptable 1).elapsedTime + rtDispatches 1 s₀ es) ∧
      (Run.Always step (fun s _ => RtPolicy (s.ptable 1)) s₀ es →
        rtDispatches 1 s₀ es = dispatches 1 s₀ es) := by
  obtain ⟨s₀, -, hrep, hlive, hstep⟩ := exists_reachable_of_bootRun
    (fun s => CInt.Representable (s.ptable 1).elapsedTime ∧ (s.ptable 1).state ≠ .unused ∧
      (step s (.scheduler 1)).isSome)
    1 2 1
    [.scheduler 0, .syscall 0 (.deadline 1 20), .syscall 0 (.execTime 1 5),
      .syscall 0 (.schedPolicy 1 0), .syscall 0 (.fork 3 4), .timer 0 true, .scheduler 1,
      .syscall 1 (.deadline 2 10), .syscall 1 (.execTime 2 2), .syscall 1 (.schedPolicy 2 0),
      .timer 1 true, .scheduler 1]
    (by decide +kernel)
  obtain ⟨s, hs⟩ := Option.isSome_iff_exists.mp hstep
  have hrun : Run.exec step s₀ [.scheduler 1] = some s := by
    rw [Run.exec_cons_of_step _ hs]
    rfl
  have halways : Run.Always step (fun s _ => (s.ptable 1).state ≠ .unused) s₀ [.scheduler 1] := by
    simp only [Run.Always, hs]
    exact ⟨hlive, trivial⟩
  exact ⟨s₀, s, [.scheduler 1], hrep, hrun, halways,
    elapsedTime_counts_rt_dispatches hrep hrun halways⟩

/-- Init admits itself under EDF with deadline `20`, forks and yields; the pass
of CPU 1 stops at init, and its EDF branch dispatches the child, whose deadline
is still `0`.  The child then admits itself with `execution_time = 2` having
used `1`, and the timer ends it after a single further dispatch. -/
theorem budget_exit_after_one_dispatch :
    ∃ s s' : Kernel, s.Reachable ∧
      Run.exec step s [.timer 1 true, .scheduler 1, .scheduler 1, .timer 1 true] = some s' ∧
      (s.ptable 1).schedPolicy = 0 ∧ (s.ptable 1).executionTime = 2 ∧
      dispatches 1 s [.timer 1 true, .scheduler 1, .scheduler 1, .timer 1 true] = 1 ∧
      (s'.ptable 1).state = .zombie ∧ (s'.ptable 1).killed = 0 := by
  obtain ⟨s, hs, hpol, hexec, hcount, hrun⟩ := exists_reachable_of_bootRun
    (fun s => (s.ptable 1).schedPolicy = 0 ∧ (s.ptable 1).executionTime = 2 ∧
      dispatches 1 s [.timer 1 true, .scheduler 1, .scheduler 1, .timer 1 true] = 1 ∧
      (Run.exec step s [.timer 1 true, .scheduler 1, .scheduler 1, .timer 1 true]).map
        (fun s' => decide ((s'.ptable 1).state = .zombie ∧ (s'.ptable 1).killed = 0)) =
          some true)
    1 2 1
    [.scheduler 0, .syscall 0 (.deadline 1 20), .syscall 0 (.execTime 1 5),
      .syscall 0 (.schedPolicy 1 0), .syscall 0 (.fork 3 4), .timer 0 true, .scheduler 1,
      .syscall 1 (.deadline 2 10), .syscall 1 (.execTime 2 2), .syscall 1 (.schedPolicy 2 0)]
    (by decide +kernel)
  obtain ⟨s', hs', hend⟩ := Option.map_eq_some_iff.mp hrun
  exact ⟨s, s', hs, hs', hpol, hexec, hcount, of_decide_eq_true hend⟩

end Kernel

end Xv6
