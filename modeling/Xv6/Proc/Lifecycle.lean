import Xv6.Proc.Admission

/-!
# The life cycle of a process slot

`exit` is not the only writer of `ZOMBIE`: the rejection branches of
`sched_policy` set it on whichever slot holds the pid, with none of `exit`'s
clean-up, and a process so rejected while it runs still holds its CPU and may
sleep.  This file says, for every step and every slot, how the slot can enter
and leave `ZOMBIE`.
-/

namespace Xv6

/-- The CPU an event runs on. -/
def Event.cpu : Event → Option (Fin NCPU)
  | .syscall c _ => some c
  | .sleep c _ => some c
  | .wakeup _ => none
  | .timer c _ => some c
  | .scheduler c => some c

namespace Kernel

/-- The slots in state `ZOMBIE`. -/
def zombies (s : Kernel) (i : Fin NPROC) : Bool :=
  decide ((s.ptable i).state = .zombie)

theorem zombies_eq_true {s : Kernel} {i : Fin NPROC} :
    s.zombies i = true ↔ (s.ptable i).state = .zombie := by
  simp [zombies]

@[simp] theorem setProc_zombies (s : Kernel) (i : Fin NPROC) (p : Proc) :
    (s.setProc i p).zombies = Function.update s.zombies i (decide (p.state = .zombie)) := by
  funext j
  by_cases hj : j = i
  · subst hj
    simp [zombies]
  · simp [zombies, hj]

theorem setProc_zombies_of_iff {s : Kernel} {i : Fin NPROC} {p : Proc}
    (h : p.state = .zombie ↔ (s.ptable i).state = .zombie) :
    (s.setProc i p).zombies = s.zombies := by
  rw [setProc_zombies]
  have hb : decide (p.state = .zombie) = s.zombies i := decide_eq_decide.mpr h
  rw [hb, Function.update_eq_self]

@[simp] theorem setCpu_zombies (s : Kernel) (c : Fin NCPU) (cpu : Cpu) :
    (s.setCpu c cpu).zombies = s.zombies := rfl

@[simp] theorem release_zombies (s : Kernel) (c : Fin NCPU) :
    (s.release c).zombies = s.zombies := rfl

@[simp] theorem wakeup1_zombies (s : Kernel) (chan : Chan) :
    (s.wakeup1 chan).zombies = s.zombies := by
  funext j
  simp only [zombies, wakeup1]
  split
  · rename_i hj
    simp [hj.1]
  · rfl

@[simp] theorem sleep_zombies (s : Kernel) (c : Fin NCPU) (cur : Fin NPROC) (chan : Chan) :
    (s.sleep c cur chan).zombies = Function.update s.zombies cur false := by
  simp [sleep]

@[simp] theorem yield_zombies (s : Kernel) (c : Fin NCPU) (cur : Fin NPROC) :
    (s.yield c cur).zombies = Function.update s.zombies cur false := by
  simp [yield]

@[simp] theorem reject_zombies (s : Kernel) (i : Fin NPROC) :
    (s.reject i).zombies = Function.update s.zombies i true := by
  simp [reject]

@[simp] theorem clock_zombies (s : Kernel) (c : Fin NCPU) :
    (s.clock c).zombies = s.zombies := by
  unfold clock
  split
  · exact wakeup1_zombies _ _
  · rfl

/-!
## `exit`
-/

/-- What `exit` leaves of the process `i` that ran on CPU `c`: no open file,
no working directory, no child, and not the CPU's process. -/
structure Exited (s : Kernel) (c : Fin NCPU) (i : Fin NPROC) : Prop where
  released : (s.cpus c).proc = none
  ofile : ∀ fd, (s.ptable i).ofile fd = 0
  cwd : (s.ptable i).cwd = 0
  orphaned : ∀ j, (s.ptable j).parent ≠ some i

theorem wakeup1_ptable (s : Kernel) (chan : Chan) (j : Fin NPROC) :
    ∃ st, (s.wakeup1 chan).ptable j = { s.ptable j with state := st } := by
  simp only [wakeup1]
  split
  · exact ⟨_, rfl⟩
  · exact ⟨(s.ptable j).state, rfl⟩

theorem reparent_ptable (cur : Fin NPROC) (s : Kernel) (p j : Fin NPROC) :
    ∃ par st, (reparent cur s p).ptable j = { s.ptable j with parent := par, state := st } := by
  unfold reparent
  split
  · dsimp only
    by_cases hj : j = p
    · subst hj
      split
      · obtain ⟨st, hst⟩ := wakeup1_ptable
          (s.setProc j { s.ptable j with parent := some initproc }) (.proc initproc) j
        rw [hst]
        exact ⟨some initproc, st, by simp⟩
      · exact ⟨some initproc, (s.ptable j).state, by simp⟩
    · split
      · obtain ⟨st, hst⟩ := wakeup1_ptable
          (s.setProc p { s.ptable p with parent := some initproc }) (.proc initproc) j
        rw [hst]
        exact ⟨(s.ptable j).parent, st, by simp [hj]⟩
      · exact ⟨(s.ptable j).parent, (s.ptable j).state, by simp [hj]⟩
  · exact ⟨(s.ptable j).parent, (s.ptable j).state, rfl⟩

theorem foldl_reparent_ptable (cur : Fin NPROC) (l : List (Fin NPROC)) (s : Kernel)
    (j : Fin NPROC) :
    ∃ par st, (l.foldl (reparent cur) s).ptable j =
      { s.ptable j with parent := par, state := st } := by
  induction l generalizing s with
  | nil => exact ⟨(s.ptable j).parent, (s.ptable j).state, rfl⟩
  | cons p l ih =>
      obtain ⟨par, st, h⟩ := ih (reparent cur s p)
      obtain ⟨par', st', h'⟩ := reparent_ptable cur s p j
      rw [List.foldl_cons, h, h']
      exact ⟨par, st, rfl⟩

theorem reparent_parent_ne {cur : Fin NPROC} (hcur : cur ≠ initproc) (s : Kernel)
    {p j : Fin NPROC} (hj : j = p ∨ (s.ptable j).parent ≠ some cur) :
    ((reparent cur s p).ptable j).parent ≠ some cur := by
  have hinit : some initproc ≠ some cur := fun h => hcur (Option.some.inj h).symm
  unfold reparent
  split
  · rename_i hp
    dsimp only
    have hset : ((s.setProc p { s.ptable p with parent := some initproc }).ptable j).parent ≠
        some cur := by
      by_cases hjp : j = p
      · subst hjp
        simpa using hinit
      · simp only [setProc_ptable_of_ne _ _ hjp]
        exact hj.resolve_left hjp
    split
    · obtain ⟨st, hst⟩ := wakeup1_ptable
        (s.setProc p { s.ptable p with parent := some initproc }) (.proc initproc) j
      rw [hst]
      exact hset
    · exact hset
  · rename_i hp
    rcases hj with rfl | hj
    · exact hp
    · exact hj

theorem foldl_reparent_parent_ne {cur : Fin NPROC} (hcur : cur ≠ initproc)
    (l : List (Fin NPROC)) (s : Kernel) {j : Fin NPROC}
    (hj : j ∈ l ∨ (s.ptable j).parent ≠ some cur) :
    ((l.foldl (reparent cur) s).ptable j).parent ≠ some cur := by
  induction l generalizing s with
  | nil =>
      rcases hj with hj | hj
      · cases hj
      · exact hj
  | cons p l ih =>
      rw [List.foldl_cons]
      apply ih
      rcases hj with hj | hj
      · rcases List.mem_cons.mp hj with rfl | hl
        · exact Or.inr (reparent_parent_ne hcur s (Or.inl rfl))
        · exact Or.inl hl
      · exact Or.inr (reparent_parent_ne hcur s (Or.inr hj))

@[simp] theorem reparent_zombies (cur : Fin NPROC) (s : Kernel) (p : Fin NPROC) :
    (reparent cur s p).zombies = s.zombies := by
  unfold reparent
  split
  · dsimp only
    have hset : (s.setProc p { s.ptable p with parent := some initproc }).zombies = s.zombies :=
      setProc_zombies_of_iff Iff.rfl
    split
    · rw [wakeup1_zombies, hset]
    · exact hset
  · rfl

theorem foldl_reparent_zombies (cur : Fin NPROC) (l : List (Fin NPROC)) (s : Kernel) :
    (l.foldl (reparent cur) s).zombies = s.zombies := by
  induction l generalizing s with
  | nil => rfl
  | cons p l ih => rw [List.foldl_cons, ih, reparent_zombies]

theorem exit_ne_initproc {s s' : Kernel} {c : Fin NCPU} {cur : Fin NPROC}
    (h : s.exit c cur = some s') : cur ≠ initproc := by
  intro hcur
  unfold exit at h
  rw [if_pos hcur] at h
  cases h

theorem exit_eq {s s' : Kernel} {c : Fin NCPU} {cur : Fin NPROC}
    (h : s.exit c cur = some s') :
    let s₁ := s.setProc cur { s.ptable cur with ofile := fun _ => 0, cwd := 0 }
    let s₂ := (List.finRange NPROC).foldl (reparent cur)
      (s₁.wakeup1 (parentChan (s₁.ptable cur)))
    s' = (s₂.setProc cur { s₂.ptable cur with state := .zombie }).release c := by
  unfold exit at h
  rw [if_neg (exit_ne_initproc h)] at h
  dsimp only at h ⊢
  exact (Option.some.inj h).symm

theorem exit_zombies {s s' : Kernel} {c : Fin NCPU} {cur : Fin NPROC}
    (h : s.exit c cur = some s') : s'.zombies = Function.update s.zombies cur true := by
  rw [exit_eq h]
  dsimp only
  rw [release_zombies, setProc_zombies, foldl_reparent_zombies, wakeup1_zombies,
    setProc_zombies, Function.update_idem]
  simp

theorem exit_exited {s s' : Kernel} {c : Fin NCPU} {cur : Fin NPROC}
    (h : s.exit c cur = some s') : Exited s' c cur := by
  have hcur := exit_ne_initproc h
  rw [exit_eq h]
  dsimp only
  have hmem : ∀ j, j ∈ List.finRange NPROC := List.mem_finRange
  generalize List.finRange NPROC = l at hmem
  generalize hs₁ : s.setProc cur { s.ptable cur with ofile := fun _ => 0, cwd := 0 } = s₁
  obtain ⟨st, hst⟩ := wakeup1_ptable s₁ (parentChan (s₁.ptable cur)) cur
  generalize s₁.wakeup1 (parentChan (s₁.ptable cur)) = s₂ at hst
  obtain ⟨par, st', hfold⟩ := foldl_reparent_ptable cur l s₂ cur
  have hfile : ((l.foldl (reparent cur) s₂).ptable cur).ofile = (fun _ => 0) ∧
      ((l.foldl (reparent cur) s₂).ptable cur).cwd = 0 := by
    rw [hfold, hst, ← hs₁]
    simp
  constructor
  · simp [release]
  · intro fd
    simp [release, hfile.1]
  · simp [release, hfile.2]
  · intro j
    have hne := foldl_reparent_parent_ne hcur l s₂ (Or.inl (hmem j))
    by_cases hj : j = cur
    · subst hj
      simpa [release] using hne
    · simpa [release, hj] using hne

theorem exit_ptable {s s' : Kernel} {c : Fin NCPU} {cur : Fin NPROC}
    (h : s.exit c cur = some s') (j : Fin NPROC) :
    ∃ ofile cwd par st, s'.ptable j =
      { s.ptable j with ofile := ofile, cwd := cwd, parent := par, state := st } := by
  rw [exit_eq h]
  dsimp only
  generalize hs₁ : s.setProc cur { s.ptable cur with ofile := fun _ => 0, cwd := 0 } = s₁
  obtain ⟨st, hst⟩ := wakeup1_ptable s₁ (parentChan (s₁.ptable cur)) j
  generalize s₁.wakeup1 (parentChan (s₁.ptable cur)) = s₂ at hst
  obtain ⟨par, st', hfold⟩ := foldl_reparent_ptable cur (List.finRange NPROC) s₂ j
  have hj₁ : ∃ ofile cwd, s₁.ptable j = { s.ptable j with ofile := ofile, cwd := cwd } := by
    rw [← hs₁]
    by_cases hj : j = cur
    · subst hj
      exact ⟨fun _ => 0, 0, by simp⟩
    · exact ⟨(s.ptable j).ofile, (s.ptable j).cwd, by simp [hj]⟩
  obtain ⟨ofile, cwd, hj₁⟩ := hj₁
  by_cases hj : j = cur
  · subst hj
    exact ⟨ofile, cwd, par, .zombie, by simp [release, hfold, hst, hj₁]⟩
  · exact ⟨ofile, cwd, par, st', by simp [release, hj, hfold, hst, hj₁]⟩

theorem exit_ptable_of_ne {s s' : Kernel} {c : Fin NCPU} {cur j : Fin NPROC}
    (h : s.exit c cur = some s') (hj : j ≠ cur) :
    ∃ par st, s'.ptable j = { s.ptable j with parent := par, state := st } := by
  rw [exit_eq h]
  dsimp only
  generalize hs₁ : s.setProc cur { s.ptable cur with ofile := fun _ => 0, cwd := 0 } = s₁
  obtain ⟨st, hst⟩ := wakeup1_ptable s₁ (parentChan (s₁.ptable cur)) j
  generalize s₁.wakeup1 (parentChan (s₁.ptable cur)) = s₂ at hst
  obtain ⟨par, st', hfold⟩ := foldl_reparent_ptable cur (List.finRange NPROC) s₂ j
  have hj₁ : s₁.ptable j = s.ptable j := by
    rw [← hs₁, setProc_ptable_of_ne _ _ hj]
  exact ⟨par, st', by simp [release, hj, hfold, hst, hj₁]⟩

/-!
## Allocation, `wait` and the other writers of `state`
-/

theorem allocproc_eq_some {s t : Kernel} {kstack : Nat} {i : Fin NPROC}
    (h : s.allocproc kstack = (some i, t)) :
    s.findSlot (fun p => p.state == .unused) = some i ∧ kstack ≠ 0 ∧
      t = ({ s with nextpid := CInt.add s.nextpid 1 }).setProc i
        { s.ptable i with
          state := .embryo, pid := s.nextpid, priority := 1, deadline := 0,
          schedPolicy := -1, executionTime := 1, elapsedTime := 0, kstack := kstack } := by
  unfold allocproc at h
  split at h
  · cases h
  · rename_i j hj
    dsimp only at h
    split at h
    · cases h
    · rename_i hk
      obtain ⟨hji, rfl⟩ := Prod.mk.inj h
      cases Option.some.inj hji
      exact ⟨hj, hk, rfl⟩

theorem allocproc_eq_none {s t : Kernel} {kstack : Nat} (h : s.allocproc kstack = (none, t)) :
    t.zombies = s.zombies := by
  unfold allocproc at h
  split at h
  · cases h
    rfl
  · rename_i j hj
    dsimp only at h
    split at h
    · cases h
      have hunused : (s.ptable j).state = .unused := by simpa using findSlot_spec hj
      exact setProc_zombies_of_iff (by simp [hunused])
    · cases h

/-- `fork` when `allocproc` and `copyuvm` succeed: the child is the first
`UNUSED` slot, with the parent's page directory copy, files and directory;
`killed`, `rate`, `arrival_time` and the descriptors the parent does not have
keep what the slot held. -/
theorem fork_child {s : Kernel} {cur np : Fin NPROC} {kstack pgdir : Nat}
    (hnp : s.findSlot (fun p => p.state == .unused) = some np) (hk : kstack ≠ 0)
    (hpg : pgdir ≠ 0) :
    s.fork cur kstack pgdir =
      (({ s with nextpid := CInt.add s.nextpid 1 }).setProc np
        { s.ptable np with
          state := .runnable, pid := s.nextpid, parent := some cur,
          priority := 1, deadline := 0, schedPolicy := -1, executionTime := 1,
          elapsedTime := 0, kstack := kstack, pgdir := pgdir,
          ofile := fun fd =>
            if (s.ptable cur).ofile fd = 0 then (s.ptable np).ofile fd else (s.ptable cur).ofile fd,
          cwd := (s.ptable cur).cwd },
        s.nextpid) := by
  unfold fork allocproc
  rw [hnp]
  dsimp only
  rw [if_neg hk]
  dsimp only
  rw [if_neg hpg]
  -- the parent is read after `allocproc`, so a parent in slot `np` reads the new entry
  by_cases hc : cur = np
  · subst hc
    simp
  · simp [hc]

/-- `fork` when `allocproc` succeeds and `copyuvm` fails: the slot goes back
to `UNUSED` with its kernel stack freed, but it keeps the pid and the
scheduling fields `allocproc` gave it, and `nextpid` has moved on. -/
theorem fork_copyuvm_fail {s : Kernel} {cur np : Fin NPROC} {kstack : Nat}
    (hnp : s.findSlot (fun p => p.state == .unused) = some np) (hk : kstack ≠ 0) :
    s.fork cur kstack 0 =
      (({ s with nextpid := CInt.add s.nextpid 1 }).setProc np
        { s.ptable np with
          state := .unused, pid := s.nextpid, priority := 1, deadline := 0, schedPolicy := -1,
          executionTime := 1, elapsedTime := 0, kstack := 0 },
        -1) := by
  unfold fork allocproc
  rw [hnp]
  dsimp only
  rw [if_neg hk]
  dsimp only
  rw [if_pos rfl]
  simp

/-- Init's `fork` fails in `copyuvm` and returns `-1`, but slot 1, back to
`UNUSED`, now holds pid `2` and `nextpid` is `3`: `kill(2)`, which found no
process before, finds the slot and returns `0`.  It marks the slot killed,
and the next `fork` gives the slot to a child, pid `3`, that starts killed. -/
theorem failed_fork_keeps_pid :
    (bootRun 1 2 1 [.scheduler 0]).map
      (fun s => ((s.ptable 1).state, (s.ptable 1).pid, s.nextpid, (s.kill 2).2, (s.fork 0 3 0).2)) =
      some (.unused, 0, 2, -1, -1) ∧
    (bootRun 1 2 1 [.scheduler 0, .syscall 0 (.fork 3 0)]).map
      (fun s => ((s.ptable 1).state, (s.ptable 1).pid, (s.ptable 1).kstack, s.nextpid, (s.kill 2).2)) =
      some (.unused, 2, 0, 3, 0) ∧
    (bootRun 1 2 1 [.scheduler 0, .syscall 0 (.fork 3 0), .syscall 0 (.kill 2), .syscall 0 (.fork 5 6)]).map
      (fun s => ((s.ptable 1).state, (s.ptable 1).pid, (s.ptable 1).killed)) =
      some (.runnable, 3, 1) := by
  refine ⟨?_, ?_, ?_⟩ <;> decide

/-- `kill(0)` and `rate(0, 7)` find the `UNUSED` slot 1, whose pid is `0`;
the child of the next `fork` takes that slot and starts killed, with rate `7`. -/
theorem fork_child_inherits_pid_zero_calls :
    (bootRun 1 2 1 [.scheduler 0, .syscall 0 (.kill 0), .syscall 0 (.rate 0 7),
        .syscall 0 (.fork 3 4)]).map
      (fun s => ((s.ptable 1).state, (s.ptable 1).pid, (s.ptable 1).killed, (s.ptable 1).rate)) =
      some (.runnable, 2, 1, 7) := by
  decide

@[simp] theorem fork_zombies (s : Kernel) (cur : Fin NPROC) (kstack pgdir : Nat) :
    (s.fork cur kstack pgdir).1.zombies = s.zombies := by
  unfold fork
  split
  · rename_i s₁ h
    exact allocproc_eq_none h
  · rename_i np s₁ h
    obtain ⟨hnp, -, rfl⟩ := allocproc_eq_some h
    have hunused : (s.ptable np).state = .unused := by simpa using findSlot_spec hnp
    have hs₁ := setProc_zombies_of_iff (s := { s with nextpid := CInt.add s.nextpid 1 })
      (i := np) (p := { s.ptable np with
          state := .embryo, pid := s.nextpid, priority := 1, deadline := 0,
          schedPolicy := -1, executionTime := 1, elapsedTime := 0, kstack := kstack })
      (by simp [hunused])
    dsimp only
    split
    · rw [setProc_zombies_of_iff (by simp), hs₁]
      rfl
    · rw [setProc_zombies_of_iff (by simp), hs₁]
      rfl

@[simp] theorem kill_zombies (s : Kernel) (pid : Int) : (s.kill pid).1.zombies = s.zombies := by
  unfold kill
  split
  · rfl
  · rename_i i hi
    apply setProc_zombies_of_iff
    dsimp only
    split
    · rename_i hsl
      simp [hsl]
    · exact Iff.rfl

theorem setByPid_zombies (s : Kernel) (pid : Int) {f : Proc → Proc}
    (hf : ∀ p, (f p).state = p.state) : (s.setByPid pid f).1.zombies = s.zombies := by
  unfold setByPid
  split
  · rfl
  · exact setProc_zombies_of_iff (by rw [hf])

theorem schedPolicy_zombies {s t : Kernel} {pid policy r : Int}
    (h : s.schedPolicy pid policy = some (t, r)) :
    t.zombies = s.zombies ∨
      ∃ i, s.findPid pid = some i ∧ t.zombies = Function.update s.zombies i true ∧
        (t.ptable i).killed = 1 := by
  rcases schedPolicy_cases h with ⟨-, rfl, -⟩ | ⟨i, hi, hcase⟩
  · exact Or.inl rfl
  · rcases hcase with ⟨-, hedf⟩ | ⟨-, hrm⟩ | ⟨-, -, rfl, -⟩
    · obtain ⟨u, -, ⟨-, -, rfl⟩ | ⟨-, -, rfl⟩⟩ := admitEdf_spec hedf
      · exact Or.inl (setProc_zombies_of_iff Iff.rfl)
      · exact Or.inr ⟨i, hi, reject_zombies s i, by simp [reject]⟩
    · rcases admitRm_spec s i pid with ⟨-, hadm⟩ | ⟨-, hrej⟩
      · rw [hadm] at hrm
        cases hrm
        exact Or.inl (setProc_zombies_of_iff Iff.rfl)
      · rw [hrej] at hrm
        cases hrm
        exact Or.inr ⟨i, hi, reject_zombies s i, by simp [reject]⟩
    · exact Or.inl rfl

theorem schedPolicy_files {s t : Kernel} {pid policy r : Int}
    (h : s.schedPolicy pid policy = some (t, r)) (i : Fin NPROC) :
    (t.ptable i).ofile = (s.ptable i).ofile ∧ (t.ptable i).cwd = (s.ptable i).cwd := by
  -- each branch writes one slot through `setProc`, with these fields kept
  have hset : ∀ (j : Fin NPROC) (p : Proc), p.ofile = (s.ptable j).ofile → p.cwd = (s.ptable j).cwd →
      ((s.setProc j p).ptable i).ofile = (s.ptable i).ofile ∧
        ((s.setProc j p).ptable i).cwd = (s.ptable i).cwd := by
    intro j p hf hc
    rw [setProc_ptable]
    split
    · subst i
      exact ⟨hf, hc⟩
    · exact ⟨rfl, rfl⟩
  rcases schedPolicy_cases h with ⟨-, rfl, -⟩ | ⟨j, -, hcase⟩
  · exact ⟨rfl, rfl⟩
  · rcases hcase with ⟨-, hedf⟩ | ⟨-, hrm⟩ | ⟨-, -, rfl, -⟩
    · obtain ⟨u, -, ⟨-, -, rfl⟩ | ⟨-, -, rfl⟩⟩ := admitEdf_spec hedf
      · exact hset j _ rfl rfl
      · exact hset j _ rfl rfl
    · rcases admitRm_spec s j pid with ⟨-, hadm⟩ | ⟨-, hrej⟩
      · rw [hadm] at hrm
        cases hrm
        exact hset j _ rfl rfl
      · rw [hrej] at hrm
        cases hrm
        exact hset j _ rfl rfl
    · exact ⟨rfl, rfl⟩

theorem wait_cases (s : Kernel) (c : Fin NCPU) (cur : Fin NPROC) :
    (∃ j, s.findSlot (fun p => p.parent == some cur && p.state == .zombie) = some j ∧
        s.wait c cur =
          (s.setProc j
            { s.ptable j with
              kstack := 0, pid := 0, parent := none, killed := 0, state := .unused },
            some (s.ptable j).pid)) ∨
      s.wait c cur = (s, some (-1)) ∨
      s.wait c cur = (s.sleep c cur (.proc cur), none) := by
  unfold wait
  split
  · rename_i j hj
    exact Or.inl ⟨j, hj, rfl⟩
  · split
    · exact Or.inr (Or.inl rfl)
    · exact Or.inr (Or.inr rfl)

/-!
## Dispatch
-/

theorem pickMin_runnable (key : Proc → Int) (s : Kernel) {h : Fin NPROC}
    (hh : (s.ptable h).state = .runnable) : (s.ptable (pickMin key s h)).state = .runnable := by
  unfold pickMin
  generalize List.finRange NPROC = l
  induction l generalizing h with
  | nil => exact hh
  | cons p l ih =>
      rw [List.foldl_cons]
      apply ih
      split
      · rename_i hp
        split
        · split
          · exact hp.1
          · exact hh
        · exact hp.1
      · exact hh

theorem selectFrom_runnable {s : Kernel} {p : Fin NPROC} (hp : (s.ptable p).state = .runnable) :
    (s.ptable (s.selectFrom p)).state = .runnable := by
  unfold selectFrom
  split
  · exact pickMin_runnable _ s hp
  · split
    · exact pickMin_runnable _ s hp
    · exact hp

theorem nextRunnable_runnable {s : Kernel} {n : Nat} {p : Fin NPROC}
    (h : s.nextRunnable n = some p) : (s.ptable p).state = .runnable := by
  have hp := List.find?_some h
  simp only [Bool.and_eq_true, decide_eq_true_eq, beq_iff_eq] at hp
  exact hp.2

theorem scheduler_cases {s s' : Kernel} {c : Fin NCPU} (h : s.scheduler c = some s') :
    (s.cpus c).proc = none ∧
      ((s.nextRunnable (s.cpus c).next = none ∧ s' = s.setCpu c { proc := none, next := 0 }) ∨
        ∃ p, s.nextRunnable (s.cpus c).next = some p ∧
          (s.ptable (s.selectFrom p)).state = .runnable ∧
          (s.ptable (s.selectFrom p)).kstack ≠ 0 ∧ (s.ptable (s.selectFrom p)).pgdir ≠ 0 ∧
          s' = (s.setProc (s.selectFrom p)
              { s.ptable (s.selectFrom p) with
                elapsedTime :=
                  if RtPolicy (s.ptable p) then CInt.add (s.ptable (s.selectFrom p)).elapsedTime 1
                  else (s.ptable (s.selectFrom p)).elapsedTime,
                state := .running }).setCpu c
            { proc := some (s.selectFrom p), next := (s.selectFrom p).val + 1 }) := by
  unfold scheduler at h
  split at h
  · cases h
  · rename_i hc
    refine ⟨hc, ?_⟩
    split at h
    · rename_i hn
      exact Or.inl ⟨hn, (Option.some.inj h).symm⟩
    · rename_i p hp
      dsimp only at h
      split at h
      · cases h
      · rename_i hks
        push Not at hks
        exact Or.inr ⟨p, hp, selectFrom_runnable (nextRunnable_runnable hp), hks.1, hks.2,
          (Option.some.inj h).symm⟩

theorem scheduler_zombies {s s' : Kernel} {c : Fin NCPU} (h : s.scheduler c = some s') :
    s'.zombies = s.zombies := by
  rcases (scheduler_cases h).2 with ⟨-, rfl⟩ | ⟨p, -, hrun, -, -, rfl⟩
  · rfl
  · rw [setCpu_zombies, setProc_zombies_of_iff (by simp [hrun])]

/-!
## Entering and leaving `ZOMBIE`
-/

/-- The two ways a step moves slot `i` into `ZOMBIE`. -/
inductive ZombieEntry (s : Kernel) (e : Event) (s' : Kernel) (i : Fin NPROC) : Prop
  /-- `exit()` by the process itself, on the CPU the event runs on. -/
  | exit (c : Fin NCPU) : e.cpu = some c → (s.cpus c).proc = some i → Exited s' c i →
      ZombieEntry s e s' i
  /-- The rejection of `sched_policy` for the pid the slot holds, by any process. -/
  | reject (c : Fin NCPU) (policy : Int) :
      e = .syscall c (.schedPolicy (s.ptable i).pid policy) → (s'.ptable i).killed = 1 →
      ZombieEntry s e s' i

/-- The two ways a step moves slot `i` out of `ZOMBIE`. -/
inductive ZombieExit (s : Kernel) (e : Event) (s' : Kernel) (i : Fin NPROC) : Prop
  /-- `wait()` by its parent frees the slot. -/
  | reap (c : Fin NCPU) (k : Fin NPROC) : e = .syscall c .wait → s.caller c = some k →
      (s.ptable i).parent = some k → (s'.ptable i).state = .unused → ZombieExit s e s' i
  /-- A process rejected while it runs still holds its CPU, and sleeps there. -/
  | sleep (c : Fin NCPU) : e.cpu = some c → (s.cpus c).proc = some i →
      (s'.ptable i).state = .sleeping → ZombieExit s e s' i

theorem zombies_of_update_false {f : Fin NPROC → Bool} {j i : Fin NPROC}
    (h : Function.update f j false i = true) : f i = true := by
  rw [Function.update_apply] at h
  split at h
  · cases h
  · exact h

theorem zombies_of_update_true {f : Fin NPROC → Bool} {j i : Fin NPROC}
    (h : Function.update f j true i = false) : f i = false := by
  rw [Function.update_apply] at h
  split at h
  · cases h
  · exact h

theorem finishSyscall_zombies {c : Fin NCPU} {k : Fin NPROC} {o : Outcome} {s' : Kernel}
    (h : finishSyscall c k o = some s') :
    s' = o.kernel ∨ s'.zombies = Function.update o.kernel.zombies k true := by
  cases o with
  | off t =>
      cases h
      exact Or.inl rfl
  | ret t r =>
      rw [finishSyscall_ret] at h
      split at h
      · exact Or.inr (exit_zombies h)
      · cases h
        exact Or.inl rfl

theorem finishSyscall_ptable_of_ne {c : Fin NCPU} {k i : Fin NPROC} {o : Outcome} {s' : Kernel}
    (h : finishSyscall c k o = some s') (hik : i ≠ k) :
    ∃ par st, s'.ptable i = { o.kernel.ptable i with parent := par, state := st } := by
  have hsame : ∃ par st, o.kernel.ptable i = { o.kernel.ptable i with parent := par, state := st } :=
    ⟨_, _, rfl⟩
  cases o with
  | off t =>
      cases h
      exact hsame
  | ret t r =>
      rw [finishSyscall_ret] at h
      split at h
      · exact exit_ptable_of_ne h hik
      · cases h
        exact hsame

theorem zombieEntry_of_exit {s u s' : Kernel} {e : Event} {c : Fin NCPU} {k i : Fin NPROC}
    (he : e.cpu = some c) (hk : (s.cpus c).proc = some k) (hexit : u.exit c k = some s')
    (hu : u.zombies i = true → ZombieEntry s e u i) (hz : s'.zombies i = true) :
    ZombieEntry s e s' i := by
  by_cases hik : i = k
  · subst hik
    exact .exit c he hk (exit_exited hexit)
  · rw [exit_zombies hexit, Function.update_of_ne hik] at hz
    cases hu hz with
    | exit c' he' hk' _ =>
        -- the event's CPU runs `k`, not `i`
        rw [he, Option.some.injEq] at he'
        subst he'
        rw [hk, Option.some.injEq] at hk'
        exact absurd hk'.symm hik
    | reject c' policy he' hkill =>
        obtain ⟨_, _, _, _, hi⟩ := exit_ptable hexit i
        exact .reject c' policy he' (by rw [hi]; exact hkill)

theorem runSyscall_zombie_entry {s : Kernel} {c : Fin NCPU} {k i : Fin NPROC}
    {call : Syscall} {o : Outcome} (hk : (s.cpus c).proc = some k)
    (h : s.runSyscall c k call = some o) (hin : s.zombies i = false)
    (hz : o.kernel.zombies i = true) : ZombieEntry s (.syscall c call) o.kernel i := by
  have hsame : o.kernel.zombies i = s.zombies i → ZombieEntry s (.syscall c call) o.kernel i := by
    intro hs
    rw [hs, hin] at hz
    cases hz
  cases call with
  | fork kstack pgdir =>
      cases h
      exact hsame (by simp [retOf, Outcome.kernel])
  | exit =>
      obtain ⟨t, ht, rfl⟩ := Option.map_eq_some_iff.mp h
      refine zombieEntry_of_exit rfl hk ht (fun hu => ?_) hz
      rw [hin] at hu
      cases hu
  | wait =>
      rcases wait_cases s c k with ⟨j, -, hw⟩ | hw | hw <;>
        simp only [runSyscall, hw, Option.some.injEq] at h <;> subst h
      · exact absurd (zombies_of_update_false (by simpa [Outcome.kernel] using hz)) (by simp [hin])
      · exact hsame rfl
      · exact absurd (zombies_of_update_false (by simpa [Outcome.kernel] using hz)) (by simp [hin])
  | kill pid =>
      cases h
      exact hsame (by simp [retOf, Outcome.kernel])
  | schedPolicy pid policy =>
      obtain ⟨⟨t, r⟩, ht, rfl⟩ := Option.map_eq_some_iff.mp h
      rcases schedPolicy_zombies ht with hs | ⟨j, hj, hs, hkill⟩
      · exact hsame (by simp [retOf, Outcome.kernel, hs])
      · simp only [retOf, Outcome.kernel] at hz ⊢
        rw [hs, Function.update_apply] at hz
        split at hz
        · rename_i hij
          subst hij
          have hpid : (s.ptable i).pid = pid := by simpa using findSlot_spec hj
          exact .reject c policy (by rw [hpid]) hkill
        · rw [hin] at hz
          cases hz
  | execTime pid time =>
      cases h
      exact hsame (by simp [retOf, Outcome.kernel, execTime, setByPid_zombies])
  | deadline pid d =>
      cases h
      exact hsame (by simp [retOf, Outcome.kernel, deadline, setByPid_zombies])
  | rate pid r =>
      cases h
      exact hsame (by simp [retOf, Outcome.kernel, rate, setByPid_zombies])

theorem syscall_zombie_entry {s s' : Kernel} {c : Fin NCPU} {call : Syscall} {i : Fin NPROC}
    (h : s.syscall c call = some s') (hin : s.zombies i = false) (hz : s'.zombies i = true) :
    ZombieEntry s (.syscall c call) s' i := by
  have hnot : s.zombies i = true → ZombieEntry s (.syscall c call) s i := by
    intro h'
    rw [hin] at h'
    cases h'
  obtain ⟨k, hk, ⟨-, hexit⟩ | ⟨-, o, ho, hfin⟩⟩ := syscall_cases h
  · exact zombieEntry_of_exit rfl hk hexit hnot hz
  · have hrun := fun hz' => runSyscall_zombie_entry hk ho hin hz'
    cases o with
    | off t =>
        cases hfin
        exact hrun hz
    | ret t r =>
        rw [finishSyscall_ret] at hfin
        split at hfin
        · exact zombieEntry_of_exit rfl hk hfin hrun hz
        · cases hfin
          exact hrun hz

theorem timer_zombie_entry {s s' : Kernel} {c : Fin NCPU} {user : Bool} {i : Fin NPROC}
    (h : s.timer c user = some s') (hin : s.zombies i = false) (hz : s'.zombies i = true) :
    ZombieEntry s (.timer c user) s' i := by
  have hclock : (s.clock c).zombies i = true → ZombieEntry s (.timer c user) (s.clock c) i := by
    intro h'
    rw [clock_zombies, hin] at h'
    cases h'
  rcases timer_cases h with ⟨-, rfl⟩ | ⟨k, hk, hexit | ⟨-, rfl⟩ | ⟨-, rfl⟩⟩
  · exact hclock hz
  · exact zombieEntry_of_exit rfl hk hexit hclock hz
  · rw [yield_zombies, clock_zombies] at hz
    rw [zombies_of_update_false hz] at hin
    cases hin
  · exact hclock hz

theorem step_zombie_entry {s s' : Kernel} {e : Event} {i : Fin NPROC}
    (h : step s e = some s') (hin : s.zombies i = false) (hz : s'.zombies i = true) :
    ZombieEntry s e s' i := by
  cases e with
  | syscall c call => exact syscall_zombie_entry h hin hz
  | sleep c chan =>
      simp only [step] at h
      split at h
      · cases h
      · cases h
        rw [sleep_zombies] at hz
        rw [zombies_of_update_false hz] at hin
        cases hin
  | wakeup chan =>
      cases h
      rw [wakeup1_zombies, hin] at hz
      cases hz
  | timer c user => exact timer_zombie_entry h hin hz
  | scheduler c =>
      rw [scheduler_zombies (show s.scheduler c = some s' from h), hin] at hz
      cases hz

theorem runSyscall_zombie_exit {s : Kernel} {c : Fin NCPU} {k i : Fin NPROC}
    {call : Syscall} {o : Outcome} (hk : (s.cpus c).proc = some k)
    (hkill : (s.ptable k).killed = 0) (h : s.runSyscall c k call = some o)
    (hz : s.zombies i = true) (hout : o.kernel.zombies i = false) :
    ZombieExit s (.syscall c call) o.kernel i ∧ finishSyscall c k o = some o.kernel := by
  have hsame : o.kernel.zombies i ≠ s.zombies i := by
    rw [hout, hz]
    exact Bool.false_ne_true
  cases call with
  | fork kstack pgdir =>
      cases h
      exact (hsame (by simp [retOf, Outcome.kernel])).elim
  | exit =>
      obtain ⟨t, ht, rfl⟩ := Option.map_eq_some_iff.mp h
      have hout' : Function.update s.zombies k true i = false := by
        rw [← exit_zombies ht]
        exact hout
      rw [zombies_of_update_true hout'] at hz
      cases hz
  | wait =>
      rcases wait_cases s c k with ⟨j, hj, hw⟩ | hw | hw <;>
        simp only [runSyscall, hw, Option.some.injEq] at h <;> subst h
      · have hchild : (s.ptable j).parent = some k ∧ (s.ptable j).state = .zombie := by
          simpa using findSlot_spec hj
        by_cases hij : i = j
        · subst hij
          refine ⟨.reap c k rfl (caller_of_proc hk hkill) hchild.1 (by simp [Outcome.kernel]), ?_⟩
          -- the caller's `killed` is `0` whether or not it reaped itself
          rw [finishSyscall_ret, if_neg]
          · rfl
          · by_cases hki : k = i
            · subst hki
              simp
            · simp [hki, hkill]
        · exact (hsame (by simp [Outcome.kernel, hij])).elim
      · exact (hsame rfl).elim
      · by_cases hik : i = k
        · subst hik
          exact ⟨.sleep c rfl hk (by simp [Outcome.kernel, sleep, release]), rfl⟩
        · exact (hsame (by simp [Outcome.kernel, hik])).elim
  | kill pid =>
      cases h
      exact (hsame (by simp [retOf, Outcome.kernel])).elim
  | schedPolicy pid policy =>
      obtain ⟨⟨t, r⟩, ht, rfl⟩ := Option.map_eq_some_iff.mp h
      simp only [retOf, Outcome.kernel] at hout hsame
      rcases schedPolicy_zombies ht with hs | ⟨j, -, hs, -⟩
      · exact (hsame (by rw [hs])).elim
      · rw [hs] at hout
        rw [zombies_of_update_true hout] at hz
        cases hz
  | execTime pid time =>
      cases h
      exact (hsame (by simp [retOf, Outcome.kernel, execTime, setByPid_zombies])).elim
  | deadline pid d =>
      cases h
      exact (hsame (by simp [retOf, Outcome.kernel, deadline, setByPid_zombies])).elim
  | rate pid r =>
      cases h
      exact (hsame (by simp [retOf, Outcome.kernel, rate, setByPid_zombies])).elim

theorem syscall_zombie_exit {s s' : Kernel} {c : Fin NCPU} {call : Syscall} {i : Fin NPROC}
    (h : s.syscall c call = some s') (hz : s.zombies i = true) (hout : s'.zombies i = false) :
    ZombieExit s (.syscall c call) s' i := by
  obtain ⟨k, hk, ⟨-, hexit⟩ | ⟨hkill, o, ho, hfin⟩⟩ := syscall_cases h
  · rw [exit_zombies hexit] at hout
    rw [zombies_of_update_true hout] at hz
    cases hz
  · have hout' : o.kernel.zombies i = false := by
      rcases finishSyscall_zombies hfin with rfl | hs
      · exact hout
      · rw [hs] at hout
        exact zombies_of_update_true hout
    obtain ⟨hexit, hfin'⟩ := runSyscall_zombie_exit hk hkill ho hz hout'
    rw [hfin', Option.some.injEq] at hfin
    subst hfin
    exact hexit

theorem timer_zombie_exit {s s' : Kernel} {c : Fin NCPU} {user : Bool} {i : Fin NPROC}
    (h : s.timer c user = some s') (hz : s.zombies i = true) : s'.zombies i = true := by
  have hclock : (s.clock c).zombies i = true := by
    rw [clock_zombies]
    exact hz
  rcases timer_cases h with ⟨-, rfl⟩ | ⟨k, -, hexit | ⟨hrun, rfl⟩ | ⟨-, rfl⟩⟩
  · exact hclock
  · rw [exit_zombies hexit, Function.update_apply]
    split
    · rfl
    · exact hclock
  · rw [yield_zombies, Function.update_apply]
    split
    · rename_i hik
      subst hik
      rw [zombies_eq_true, hrun] at hclock
      cases hclock
    · exact hclock
  · exact hclock

theorem step_zombie_exit {s s' : Kernel} {e : Event} {i : Fin NPROC}
    (h : step s e = some s') (hz : s.zombies i = true) (hout : s'.zombies i = false) :
    ZombieExit s e s' i := by
  cases e with
  | syscall c call => exact syscall_zombie_exit h hz hout
  | sleep c chan =>
      simp only [step] at h
      split at h
      · cases h
      · rename_i k hk
        cases h
        by_cases hik : i = k
        · subst hik
          exact .sleep c rfl hk (by simp [sleep, release])
        · rw [sleep_zombies, Function.update_of_ne hik, hz] at hout
          cases hout
  | wakeup chan =>
      cases h
      rw [wakeup1_zombies, hz] at hout
      cases hout
  | timer c user =>
      rw [timer_zombie_exit h hz] at hout
      cases hout
  | scheduler c =>
      rw [scheduler_zombies (show s.scheduler c = some s' from h), hz] at hout
      cases hout

theorem zombie_transitions {s s' : Kernel} {e : Event} (h : step s e = some s')
    (i : Fin NPROC) :
    ((s.ptable i).state ≠ .zombie → (s'.ptable i).state = .zombie → ZombieEntry s e s' i) ∧
      ((s.ptable i).state = .zombie → (s'.ptable i).state ≠ .zombie → ZombieExit s e s' i) := by
  constructor
  · intro hin hz
    exact step_zombie_entry h (by simpa [zombies] using hin) (zombies_eq_true.mpr hz)
  · intro hz hout
    exact step_zombie_exit h (zombies_eq_true.mpr hz) (by simpa [zombies] using hout)

theorem schedPolicy_zombie_keeps_files {s s' : Kernel} {c : Fin NCPU} {pid policy : Int}
    {i : Fin NPROC} (h : step s (.syscall c (.schedPolicy pid policy)) = some s')
    (hcaller : (s.cpus c).proc ≠ some i) (hin : (s.ptable i).state ≠ .zombie)
    (hz : (s'.ptable i).state = .zombie) :
    (s.ptable i).pid = pid ∧ (s'.ptable i).killed = 1 ∧
      (s'.ptable i).ofile = (s.ptable i).ofile ∧ (s'.ptable i).cwd = (s.ptable i).cwd := by
  have hin' : s.zombies i = false := by simpa [zombies] using hin
  have hz' : s'.zombies i = true := zombies_eq_true.mpr hz
  obtain ⟨k, hk, ⟨-, hexit⟩ | ⟨-, o, ho, hfin⟩⟩ := syscall_cases h
  all_goals have hik : i ≠ k := fun hik => hcaller (hik ▸ hk)
  · -- a caller killed before the call exits, and only it enters `ZOMBIE`
    rw [exit_zombies hexit, Function.update_of_ne hik, hin'] at hz'
    cases hz'
  · obtain ⟨⟨t, r⟩, ht, rfl⟩ := Option.map_eq_some_iff.mp ho
    obtain ⟨par, st, hs'⟩ := finishSyscall_ptable_of_ne hfin hik
    simp only [retOf, Outcome.kernel] at hs'
    have hzt : t.zombies i = true := by
      rcases finishSyscall_zombies hfin with rfl | hfz
      · exact hz'
      · rwa [hfz, Function.update_of_ne hik] at hz'
    -- the rejection wrote `i`: no other slot changed state
    rcases schedPolicy_zombies ht with hts | ⟨j, hj, hts, hkill⟩
    · rw [hts, hin'] at hzt
      cases hzt
    · rw [hts, Function.update_apply] at hzt
      split at hzt
      · rename_i hij
        subst hij
        obtain ⟨hfile, hcwd⟩ := schedPolicy_files ht i
        refine ⟨by simpa using findSlot_spec hj, ?_, ?_, ?_⟩
        · rw [hs']
          exact hkill
        · rw [hs', ← hfile]
        · rw [hs', ← hcwd]
      · rw [hin'] at hzt
        cases hzt

/-- Init, on CPU 0, forks a child, sets its rate to `100` and asks for RM:
the term `1000` exceeds the entry `696` for `lproc = 0`, and the runnable
child becomes a `ZOMBIE` that still holds its working directory. -/
theorem schedPolicy_zombie_keeps_files_at_fork :
    ∃ s s' : Kernel, s.Reachable ∧ step s (.syscall 0 (.schedPolicy 2 1)) = some s' ∧
      (s.cpus 0).proc ≠ some 1 ∧ (s.ptable 1).state = .runnable ∧ (s'.ptable 1).state = .zombie ∧
      (s'.ptable 1).killed = 1 ∧ (s'.ptable 1).cwd = (s.ptable 1).cwd ∧ (s.ptable 1).cwd ≠ 0 := by
  obtain ⟨s, hs, hcpu, hrun, hcwd, hstep⟩ := exists_reachable_of_bootRun
    (fun s => (s.cpus 0).proc = some 0 ∧ (s.ptable 1).state = .runnable ∧ (s.ptable 1).cwd ≠ 0 ∧
      (step s (.syscall 0 (.schedPolicy 2 1))).map
        (fun s' => decide ((s'.ptable 1).state = .zombie)) = some true)
    1 2 1
    [.scheduler 0, .syscall 0 (.fork 3 4), .syscall 0 (.rate 2 100)]
    (by decide)
  obtain ⟨s', hs', hz⟩ := Option.map_eq_some_iff.mp hstep
  have hcaller : (s.cpus 0).proc ≠ some 1 := by
    rw [hcpu]
    decide
  have hin : (s.ptable 1).state ≠ .zombie := by
    rw [hrun]
    decide
  obtain ⟨-, hkill, -, hkeep⟩ :=
    schedPolicy_zombie_keeps_files hs' hcaller hin (of_decide_eq_true hz)
  exact ⟨s, s', hs, hs', hcaller, hrun, of_decide_eq_true hz, hkill, hkeep, hcwd⟩

/-- Init, on CPU 0, forks a child that CPU 1 then runs, and asks for RM for
it: the rejection makes the running child a `ZOMBIE`, and init's `wait`
reaps it, freeing the kernel stack that CPU 1 still runs on. -/
theorem wait_frees_process_still_running :
    ∃ s s' : Kernel, s.Reachable ∧ step s (.syscall 0 .wait) = some s' ∧
      (s.cpus 1).proc = some 1 ∧ (s.ptable 1).state = .zombie ∧ (s.ptable 1).kstack = 3 ∧
      (s'.cpus 1).proc = some 1 ∧ (s'.ptable 1).state = .unused ∧ (s'.ptable 1).kstack = 0 := by
  obtain ⟨s, hs, hcpu, hz, hk, hstep⟩ := exists_reachable_of_bootRun
    (fun s => (s.cpus 1).proc = some 1 ∧ (s.ptable 1).state = .zombie ∧ (s.ptable 1).kstack = 3 ∧
      (step s (.syscall 0 .wait)).map (fun s' => decide ((s'.cpus 1).proc = some 1 ∧
        (s'.ptable 1).state = .unused ∧ (s'.ptable 1).kstack = 0)) = some true)
    1 2 1
    [.scheduler 0, .syscall 0 (.fork 3 4), .scheduler 1, .syscall 0 (.rate 2 100),
      .syscall 0 (.schedPolicy 2 1)]
    (by decide)
  obtain ⟨s', hs', hfree⟩ := Option.map_eq_some_iff.mp hstep
  exact ⟨s, s', hs, hs', hcpu, hz, hk, of_decide_eq_true hfree⟩

end Kernel

end Xv6
