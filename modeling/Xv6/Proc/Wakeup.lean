import Xv6.Proc.Lifecycle
import Xv6.Proc.Policy

/-!
# Who wakes a parent waiting for its children

`wait` with no `ZOMBIE` child puts its caller to sleep on its own slot, and
`exit` wakes the parent's slot before it marks the child `ZOMBIE`, so a
parent waiting in `wait` is runnable once a child exits.  The rejection in
`sched_policy` is another way into `ZOMBIE`: it marks the process it found
and wakes no one, so a parent waiting for that child sleeps on.
-/

namespace Xv6

namespace Kernel

variable {s s' : Kernel} {c : Fin NCPU} {cur q : Fin NPROC}

theorem wakeup1_state (s : Kernel) (chan : Chan) (j : Fin NPROC) :
    ((s.wakeup1 chan).ptable j).state =
      if (s.ptable j).state = .sleeping ∧ (s.ptable j).chan = chan then .runnable
      else (s.ptable j).state := by
  simp only [wakeup1]
  split <;> rfl

@[simp] theorem wakeup1_nextpid (s : Kernel) (chan : Chan) : (s.wakeup1 chan).nextpid = s.nextpid := rfl

@[simp] theorem wakeup1_cpus (s : Kernel) (chan : Chan) : (s.wakeup1 chan).cpus = s.cpus := rfl

theorem reparent_state_runnable (cur : Fin NPROC) (s : Kernel) (p : Fin NPROC)
    (hq : (s.ptable q).state = .runnable) : ((reparent cur s p).ptable q).state = .runnable := by
  have hset : ((s.setProc p { s.ptable p with parent := some initproc }).ptable q).state = .runnable := by
    by_cases hqp : q = p
    · subst hqp
      simpa using hq
    · simpa [hqp] using hq
  unfold reparent
  split
  · dsimp only
    split
    · rw [wakeup1_state, hset]
      simp
    · exact hset
  · exact hq

theorem foldl_reparent_state_runnable (cur : Fin NPROC) (l : List (Fin NPROC)) (s : Kernel)
    (hq : (s.ptable q).state = .runnable) : ((l.foldl (reparent cur) s).ptable q).state = .runnable := by
  induction l generalizing s with
  | nil => exact hq
  | cons p l ih =>
      rw [List.foldl_cons]
      exact ih _ (reparent_state_runnable cur s p hq)

theorem wait_sleeps_on_self (h : s.wait c cur = (s', none)) :
    (s'.ptable cur).state = .sleeping ∧ (s'.ptable cur).chan = .proc cur := by
  unfold wait at h
  split at h
  · cases h
  · split at h
    · cases h
    · cases h
      simp [sleep, release]

theorem exit_wakes_parent (h : s.exit c cur = some s') (hpar : (s.ptable cur).parent = some q)
    (hq : q ≠ cur) (hsleep : (s.ptable q).state = .sleeping) (hchan : (s.ptable q).chan = .proc q) :
    (s'.ptable q).state = .runnable := by
  rw [exit_eq h]
  dsimp only
  generalize hs₁ : s.setProc cur { s.ptable cur with ofile := fun _ => 0, cwd := 0 } = s₁
  have hq₁ : s₁.ptable q = s.ptable q := by
    rw [← hs₁]
    simp [hq]
  have hchan₁ : parentChan (s₁.ptable cur) = .proc q := by
    rw [← hs₁]
    simp [parentChan, hpar]
  -- the wakeup on the parent's slot comes before the loop over the children
  have hwoken : ((s₁.wakeup1 (parentChan (s₁.ptable cur))).ptable q).state = .runnable := by
    rw [wakeup1_state, hchan₁, hq₁, if_pos ⟨hsleep, hchan⟩]
  have hfold := foldl_reparent_state_runnable cur (List.finRange NPROC) _ hwoken
  simpa [release, hq] using hfold

theorem schedPolicy_reject_wakes_no_one {pid policy : Int} (h : s.schedPolicy pid policy = some (s', -22)) :
    ∃ i, s.findPid pid = some i ∧ (s'.ptable i).state = .zombie ∧ ∀ j, j ≠ i → s'.ptable j = s.ptable j := by
  rcases schedPolicy_cases h with ⟨-, -, hr⟩ | ⟨i, hi, hcase⟩
  · cases hr
  · refine ⟨i, hi, ?_⟩
    rcases hcase with ⟨-, hedf⟩ | ⟨-, hrm⟩ | ⟨-, -, -, hr⟩
    · obtain ⟨t, -, ⟨-, hr, -⟩ | ⟨-, -, rfl⟩⟩ := admitEdf_spec hedf
      · cases hr
      · exact ⟨by simp [reject], fun j hj => by simp [reject, hj]⟩
    · rcases admitRm_spec s i pid with ⟨-, hadm⟩ | ⟨-, hrej⟩
      · rw [hadm] at hrm
        cases hrm
      · rw [hrej] at hrm
        cases hrm
        exact ⟨by simp [reject], fun j hj => by simp [reject, hj]⟩
    · cases hr

/-- Init forks two children and waits; the first, on CPU 0, sets the second's
deadline to `1` and execution time to `100` and asks EDF for it.  The term
`10000` fails the test: the second child becomes a `ZOMBIE` while init,
asleep in `wait` on its own slot, stays asleep. -/
theorem sched_policy_rejection_leaves_parent_asleep :
    ∃ s s' : Kernel, s.Reachable ∧ step s (.syscall 0 (.schedPolicy 3 0)) = some s' ∧
      (s.ptable 2).parent = some 0 ∧ (s.ptable 2).state = .runnable ∧ (s'.ptable 2).state = .zombie ∧
      (s.ptable 0).state = .sleeping ∧ (s.ptable 0).chan = .proc 0 ∧ (s'.ptable 0).state = .sleeping := by
  obtain ⟨s, hs, hpar, hrun, hsleep, hchan, hstep⟩ := exists_reachable_of_bootRun
    (fun s => (s.ptable 2).parent = some 0 ∧ (s.ptable 2).state = .runnable ∧
      (s.ptable 0).state = .sleeping ∧ (s.ptable 0).chan = .proc 0 ∧
      (step s (.syscall 0 (.schedPolicy 3 0))).map
        (fun s' => decide ((s'.ptable 2).state = .zombie ∧ (s'.ptable 0).state = .sleeping)) = some true)
    1 2 1
    [.scheduler 0, .syscall 0 (.fork 3 4), .syscall 0 (.fork 5 6), .syscall 0 .wait, .scheduler 0,
      .syscall 0 (.deadline 3 1), .syscall 0 (.execTime 3 100)]
    (by decide)
  obtain ⟨s', hs', hafter⟩ := Option.map_eq_some_iff.mp hstep
  have hafter' := of_decide_eq_true hafter
  exact ⟨s, s', hs, hs', hpar, hrun, hafter'.1, hsleep, hchan, hafter'.2⟩

end Kernel

end Xv6
