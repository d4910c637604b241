import Xv6.Proc.Step

/-!
# What each process function leaves alone

Only the two branches of `sched_policy` write `utf_edf` and `utf_rm`; every
other function of the process layer leaves both counters as they were.  The
lemmas come one per function, each from the lemmas of the functions it is
built from, so that no proof about a run unfolds a function twice.
-/

namespace Xv6

namespace Kernel

/-- The two admission counters, `utf_edf` and `utf_rm`. -/
def counters (s : Kernel) : Int × Int :=
  (s.utfEdf, s.utfRm)

@[simp] theorem setProc_counters (s : Kernel) (i : Fin NPROC) (p : Proc) :
    (s.setProc i p).counters = s.counters := rfl

@[simp] theorem setCpu_counters (s : Kernel) (c : Fin NCPU) (cpu : Cpu) :
    (s.setCpu c cpu).counters = s.counters := rfl

@[simp] theorem wakeup1_counters (s : Kernel) (chan : Chan) :
    (s.wakeup1 chan).counters = s.counters := rfl

@[simp] theorem release_counters (s : Kernel) (c : Fin NCPU) :
    (s.release c).counters = s.counters := rfl

@[simp] theorem sleep_counters (s : Kernel) (c : Fin NCPU) (i : Fin NPROC) (chan : Chan) :
    (s.sleep c i chan).counters = s.counters := rfl

@[simp] theorem yield_counters (s : Kernel) (c : Fin NCPU) (i : Fin NPROC) :
    (s.yield c i).counters = s.counters := rfl

@[simp] theorem reject_counters (s : Kernel) (i : Fin NPROC) :
    (s.reject i).counters = s.counters := rfl

@[simp] theorem reject_utfEdf (s : Kernel) (i : Fin NPROC) :
    (s.reject i).utfEdf = s.utfEdf := rfl

@[simp] theorem reject_utfRm (s : Kernel) (i : Fin NPROC) :
    (s.reject i).utfRm = s.utfRm := rfl

@[simp] theorem reparent_counters (cur : Fin NPROC) (s : Kernel) (p : Fin NPROC) :
    (reparent cur s p).counters = s.counters := by
  unfold reparent
  split
  · dsimp only
    split <;> simp
  · rfl

theorem foldl_reparent_counters (cur : Fin NPROC) (l : List (Fin NPROC)) (s : Kernel) :
    (l.foldl (reparent cur) s).counters = s.counters := by
  induction l generalizing s with
  | nil => rfl
  | cons p l ih =>
      rw [List.foldl_cons, ih]
      exact reparent_counters cur s p

theorem exit_counters {s s' : Kernel} {c : Fin NCPU} {cur : Fin NPROC}
    (h : s.exit c cur = some s') : s'.counters = s.counters := by
  unfold exit at h
  split at h
  · cases h
  · cases h
    simp [foldl_reparent_counters]

@[simp] theorem allocproc_counters (s : Kernel) (kstack : Nat) :
    (s.allocproc kstack).2.counters = s.counters := by
  unfold allocproc
  split
  · rfl
  · split <;> rfl

@[simp] theorem fork_counters (s : Kernel) (cur : Fin NPROC) (kstack pgdir : Nat) :
    (s.fork cur kstack pgdir).1.counters = s.counters := by
  unfold fork
  split
  · rename_i s₁ h
    rw [← allocproc_counters s kstack, h]
  · rename_i np s₁ h
    have hs₁ : s₁.counters = s.counters := by
      rw [← allocproc_counters s kstack, h]
    split <;> simp [hs₁]

@[simp] theorem wait_counters (s : Kernel) (c : Fin NCPU) (cur : Fin NPROC) :
    (s.wait c cur).1.counters = s.counters := by
  unfold wait
  split
  · simp
  · split <;> simp

@[simp] theorem kill_counters (s : Kernel) (pid : Int) :
    (s.kill pid).1.counters = s.counters := by
  unfold kill
  split <;> simp

@[simp] theorem setByPid_counters (s : Kernel) (pid : Int) (f : Proc → Proc) :
    (s.setByPid pid f).1.counters = s.counters := by
  unfold setByPid
  split <;> simp

theorem scheduler_counters {s s' : Kernel} {c : Fin NCPU}
    (h : s.scheduler c = some s') : s'.counters = s.counters := by
  unfold scheduler at h
  split at h
  · cases h
  · split at h
    · cases h
      rfl
    · dsimp only at h
      split at h
      · cases h
      · cases h
        simp

@[simp] theorem clock_cpus (s : Kernel) (c : Fin NCPU) : (s.clock c).cpus = s.cpus := by
  unfold clock
  split <;> rfl

@[simp] theorem clock_counters (s : Kernel) (c : Fin NCPU) :
    (s.clock c).counters = s.counters := by
  unfold clock
  split <;> rfl

theorem timer_cases {s s' : Kernel} {c : Fin NCPU} {user : Bool}
    (h : s.timer c user = some s') :
    ((s.cpus c).proc = none ∧ s' = s.clock c) ∨
      ∃ k, (s.cpus c).proc = some k ∧
        (((s.clock c).exit c k = some s') ∨
          (((s.clock c).ptable k).state = .running ∧ s' = (s.clock c).yield c k) ∨
          (((s.clock c).ptable k).state ≠ .running ∧ s' = s.clock c)) := by
  unfold timer at h
  simp only [clock_cpus] at h
  split at h
  · rename_i hk
    exact Or.inl ⟨hk, (Option.some.inj h).symm⟩
  · rename_i k hk
    refine Or.inr ⟨k, hk, ?_⟩
    split at h
    · exact Or.inl h
    · split at h
      · rename_i hrun
        split at h
        · exact Or.inl h
        · exact Or.inr (Or.inl ⟨hrun, (Option.some.inj h).symm⟩)
      · rename_i hrun
        exact Or.inr (Or.inr ⟨hrun, (Option.some.inj h).symm⟩)

theorem timer_counters {s s' : Kernel} {c : Fin NCPU} {user : Bool}
    (h : s.timer c user = some s') : s'.counters = s.counters := by
  rcases timer_cases h with ⟨-, rfl⟩ | ⟨k, -, hexit | ⟨-, rfl⟩ | ⟨-, rfl⟩⟩
  · exact clock_counters s c
  · rw [exit_counters hexit, clock_counters]
  · simp
  · exact clock_counters s c

/-!
## System calls
-/

theorem syscall_cases {s s' : Kernel} {c : Fin NCPU} {call : Syscall}
    (h : s.syscall c call = some s') :
    ∃ k, (s.cpus c).proc = some k ∧
      (((s.ptable k).killed ≠ 0 ∧ s.exit c k = some s') ∨
        ((s.ptable k).killed = 0 ∧
          ∃ o, s.runSyscall c k call = some o ∧ finishSyscall c k o = some s')) := by
  unfold syscall at h
  split at h
  · cases h
  · rename_i k hk
    refine ⟨k, hk, ?_⟩
    by_cases hkill : (s.ptable k).killed ≠ 0
    · rw [if_pos hkill] at h
      exact Or.inl ⟨hkill, h⟩
    · rw [if_neg hkill] at h
      obtain ⟨o, ho, hfin⟩ := Option.bind_eq_some_iff.mp h
      exact Or.inr ⟨not_not.mp hkill, o, ho, hfin⟩

end Kernel

/-- The kernel state an outcome carries. -/
def Outcome.kernel : Outcome → Kernel
  | .ret s _ => s
  | .off s => s

namespace Kernel

@[simp] theorem finishSyscall_off (c : Fin NCPU) (k : Fin NPROC) (s : Kernel) :
    finishSyscall c k (.off s) = some s := rfl

theorem finishSyscall_ret (c : Fin NCPU) (k : Fin NPROC) (s : Kernel) (r : Int) :
    finishSyscall c k (.ret s r) = if (s.ptable k).killed ≠ 0 then s.exit c k else some s :=
  rfl

theorem finishSyscall_counters {c : Fin NCPU} {k : Fin NPROC} {o : Outcome} {s' : Kernel}
    (h : finishSyscall c k o = some s') : s'.counters = o.kernel.counters := by
  cases o with
  | off t =>
      cases h
      rfl
  | ret t r =>
      rw [finishSyscall_ret] at h
      by_cases hkill : (t.ptable k).killed ≠ 0
      · rw [if_pos hkill] at h
        exact exit_counters h
      · rw [if_neg hkill] at h
        cases h
        rfl

theorem runSyscall_counters {s : Kernel} {c : Fin NCPU} {k : Fin NPROC} {call : Syscall}
    {o : Outcome} (hcall : ∀ pid policy, call ≠ .schedPolicy pid policy)
    (h : s.runSyscall c k call = some o) : o.kernel.counters = s.counters := by
  cases call with
  | fork kstack pgdir =>
      cases h
      exact fork_counters s k kstack pgdir
  | exit =>
      obtain ⟨t, ht, rfl⟩ := Option.map_eq_some_iff.mp h
      exact exit_counters ht
  | wait =>
      have hwait := wait_counters s c k
      rcases hw : s.wait c k with ⟨t, r⟩
      rw [hw] at hwait
      cases r with
      | none =>
          simp only [runSyscall, hw, Option.some.injEq] at h
          rw [← h]
          exact hwait
      | some r =>
          simp only [runSyscall, hw, Option.some.injEq] at h
          rw [← h]
          exact hwait
  | kill pid =>
      cases h
      exact kill_counters s pid
  | schedPolicy pid policy =>
      exact absurd rfl (hcall pid policy)
  | execTime pid time =>
      cases h
      exact setByPid_counters s pid _
  | deadline pid d =>
      cases h
      exact setByPid_counters s pid _
  | rate pid r =>
      cases h
      exact setByPid_counters s pid _

end Kernel

end Xv6
