import Xv6.Proc.Wakeup

/-!
# Process ids after `nextpid` wraps

`allocproc` gives each new process `nextpid++`, a 32-bit `int` that nothing
else resets.  Init is pid `1` and never exits.  A loop in which init forks a
child, waits, and reaps it once the child exits, comes back to where it
started with `nextpid` one higher.  After `2^32 - 1` turns `nextpid` has
wrapped through the negative values and `0` back to `1`, and the next `fork`
hands out init's own pid.
-/

namespace Xv6

namespace Kernel

variable {s : Kernel} {n : Int}

/-- Init's slot in the loop: pid `1`, not killed, with a kernel stack and a
page directory, no parent, no RT policy, and asleep only on its own slot. -/
structure InitSlot (p : Proc) (st : ProcState) : Prop where
  state : p.state = st
  pid : p.pid = 1
  killed : p.killed = 0
  kstack : p.kstack ≠ 0
  pgdir : p.pgdir ≠ 0
  parent : p.parent = none
  policy : p.schedPolicy = -1
  chan : st = .sleeping → p.chan = .proc 0

/-- The child's slot in the loop: not killed, init's child with a kernel
stack, a page directory and no RT policy while in use, and nobody's child
once reaped. -/
structure ChildSlot (p : Proc) (st : ProcState) : Prop where
  state : p.state = st
  killed : p.killed = 0
  parent : p.parent = if st = .unused then none else some 0
  live : st ≠ .unused → p.kstack ≠ 0 ∧ p.pgdir ≠ 0 ∧ p.schedPolicy = -1

/-- The states of the loop: init in slot 0, its one child in slot 1, every
other slot unused, and CPU 0 at `cpuProc` with its scheduler at `cpuNext`. -/
structure Loop (s : Kernel) (n : Int) (cpuProc : Option (Fin NPROC)) (cpuNext : Nat)
    (initSt childSt : ProcState) : Prop where
  nextpid : s.nextpid = n
  cpu_proc : (s.cpus 0).proc = cpuProc
  cpu_next : (s.cpus 0).next = cpuNext
  init : InitSlot (s.ptable 0) initSt
  child : ChildSlot (s.ptable 1) childSt
  rest : ∀ j : Fin NPROC, 2 ≤ j.val → (s.ptable j).state = .unused ∧ (s.ptable j).parent = none

theorem ne_of_two_le {j : Fin NPROC} (hj : 2 ≤ j.val) : j ≠ 0 ∧ j ≠ 1 := by
  constructor
  · rintro rfl
    exact absurd hj (by decide)
  · rintro rfl
    exact absurd hj (by decide)

theorem one_ne_zero_slot : (1 : Fin NPROC) ≠ 0 := by decide

theorem eq_zero_of_lt_one {j : Fin NPROC} (hj : j < 1) : j = 0 := by
  have hlt : j.val < 1 := hj
  exact Fin.ext (by show j.val = 0; omega)

theorem slot_cases (j : Fin NPROC) : j = 0 ∨ j = 1 ∨ 2 ≤ j.val := by
  rcases j with ⟨_ | _ | k, hk⟩
  · exact .inl rfl
  · exact .inr (.inl rfl)
  · exact .inr (.inr (by simp))

theorem step_syscall_of_running {c : Fin NCPU} {i : Fin NPROC} {call : Syscall}
    (hc : (s.cpus c).proc = some i) (hk : (s.ptable i).killed = 0) :
    step s (.syscall c call) = (s.runSyscall c i call).bind (finishSyscall c i) := by
  simp [step, syscall, hc, hk]

theorem nextRunnable_self {p : Fin NPROC} (hrun : (s.ptable p).state = .runnable) :
    s.nextRunnable p.val = some p := by
  unfold nextRunnable
  rw [List.find?_eq_some_iff_getElem]
  refine ⟨by simp [hrun], p.val, by simp, by simp, fun j hj => ?_⟩
  simp [List.getElem_finRange]
  omega

theorem nextRunnable_eq_none {m : Nat} (h : ∀ j : Fin NPROC, m ≤ j.val → (s.ptable j).state ≠ .runnable) :
    s.nextRunnable m = none :=
  List.find?_eq_none.mpr fun j _ => by simpa using h j

theorem foldl_reparent_of_childless {cur : Fin NPROC} (l : List (Fin NPROC))
    (h : ∀ j, (s.ptable j).parent ≠ some cur) : l.foldl (reparent cur) s = s := by
  induction l with
  | nil => rfl
  | cons p l ih =>
      rw [List.foldl_cons]
      have hp : reparent cur s p = s := by
        unfold reparent
        rw [if_neg (h p)]
      rw [hp, ih]

theorem Loop.fork {kstack pgdir : Nat} (h : Loop s n (some 0) 1 .running .unused) (hk : kstack ≠ 0)
    (hpg : pgdir ≠ 0) :
    ∃ s', step s (.syscall 0 (.fork kstack pgdir)) = some s' ∧ (s'.ptable 1).pid = n ∧
      Loop s' (CInt.add n 1) (some 0) 1 .running .runnable := by
  have hfind : s.findSlot (fun p => p.state == .unused) = some 1 := by
    rw [findSlot_eq_some_iff]
    refine ⟨by simp [h.child.state], fun j hj => ?_⟩
    obtain rfl := eq_zero_of_lt_one hj
    simp [h.init.state]
  rw [step_syscall_of_running h.cpu_proc h.init.killed]
  simp only [runSyscall, fork_child hfind hk hpg, retOf, Option.bind_some, finishSyscall_ret,
    setProc_ptable_of_ne _ _ one_ne_zero_slot.symm, h.init.killed, ne_eq, not_true_eq_false, if_false]
  refine ⟨_, rfl, by simp [h.nextpid], ⟨by simp [h.nextpid], by simp [h.cpu_proc], by simp [h.cpu_next], ?_, ?_, ?_⟩⟩
  · rw [setProc_ptable_of_ne _ _ one_ne_zero_slot.symm]
    exact h.init
  · simp only [setProc_ptable_self]
    exact ⟨rfl, h.child.killed, by simp, fun _ => ⟨hk, hpg, rfl⟩⟩
  · intro j hj
    rw [setProc_ptable_of_ne _ _ (ne_of_two_le hj).2]
    exact h.rest j hj

theorem Loop.waitSleeps (h : Loop s n (some 0) 1 .running .runnable) :
    ∃ s', step s (.syscall 0 .wait) = some s' ∧ Loop s' n none 1 .sleeping .runnable := by
  have hzombie : s.findSlot (fun p => p.parent == some 0 && p.state == .zombie) = none := by
    rw [findSlot_eq_none_iff]
    intro j
    rcases slot_cases j with rfl | rfl | hj
    · simp [h.init.parent]
    · simp [h.child.state]
    · simp [(h.rest j hj).1]
  have hchild : s.findSlot (fun p => p.parent == some 0) = some 1 := by
    rw [findSlot_eq_some_iff]
    refine ⟨by simp [h.child.parent], fun j hj => ?_⟩
    obtain rfl := eq_zero_of_lt_one hj
    simp [h.init.parent]
  rw [step_syscall_of_running h.cpu_proc h.init.killed]
  simp only [runSyscall, wait, hzombie, hchild, Option.isNone_some, h.init.killed, Bool.false_or,
    ne_eq, not_true_eq_false, decide_false, Bool.false_eq_true, if_false, Option.bind_some, finishSyscall_off]
  refine ⟨_, rfl, ⟨by simp [sleep, release, h.nextpid], by simp [sleep, release],
    by simp [sleep, release, h.cpu_next], ?_, ?_, fun j hj => ?_⟩⟩
  · simp only [sleep, release, setCpu_ptable, setProc_ptable_self]
    exact ⟨rfl, h.init.pid, h.init.killed, h.init.kstack, h.init.pgdir, h.init.parent, h.init.policy,
      fun _ => rfl⟩
  · simp only [sleep, release, setCpu_ptable, setProc_ptable_of_ne _ _ one_ne_zero_slot]
    exact h.child
  · simp only [sleep, release, setCpu_ptable, setProc_ptable_of_ne _ _ (ne_of_two_le hj).1]
    exact h.rest j hj

theorem Loop.runChild (h : Loop s n none 1 .sleeping .runnable) :
    ∃ s', step s (.scheduler 0) = some s' ∧ Loop s' n (some 1) 2 .sleeping .running := by
  obtain ⟨hk, hpg, hpol⟩ := h.child.live (by decide)
  have hnext : s.nextRunnable (s.cpus 0).next = some 1 := by
    rw [h.cpu_next]
    exact nextRunnable_self h.child.state
  have hsel : s.selectFrom 1 = 1 := by simp [selectFrom, hpol]
  simp only [step, scheduler, h.cpu_proc, hnext, hsel, hk, hpg, or_self, if_false]
  refine ⟨_, rfl, ⟨by simp [h.nextpid], by simp, by simp [NPROC], ?_, ?_, fun j hj => ?_⟩⟩
  · simp only [setCpu_ptable, setProc_ptable_of_ne _ _ one_ne_zero_slot.symm]
    exact h.init
  · simp only [setCpu_ptable, setProc_ptable_self]
    exact ⟨rfl, h.child.killed, h.child.parent, fun _ => ⟨hk, hpg, hpol⟩⟩
  · simp only [setCpu_ptable, setProc_ptable_of_ne _ _ (ne_of_two_le hj).2]
    exact h.rest j hj

theorem Loop.childExits (h : Loop s n (some 1) 2 .sleeping .running) :
    ∃ s', step s (.syscall 0 .exit) = some s' ∧ Loop s' n none 2 .runnable .zombie := by
  obtain ⟨hk, hpg, hpol⟩ := h.child.live (by decide)
  set s₁ := s.setProc 1 { s.ptable 1 with ofile := fun _ => 0, cwd := 0 } with hs₁
  have h₁ : ∀ j, j ≠ 1 → s₁.ptable j = s.ptable j := fun j hj => by simp [hs₁, hj]
  have hchan : parentChan (s₁.ptable 1) = .proc 0 := by
    simp [hs₁, parentChan, h.child.parent]
  -- nobody is the child's child, so `exit`'s loop over the table passes nothing on
  have hfold : (List.finRange NPROC).foldl (reparent 1) (s₁.wakeup1 (.proc 0)) = s₁.wakeup1 (.proc 0) := by
    apply foldl_reparent_of_childless
    intro j
    have hpar : ((s₁.wakeup1 (.proc 0)).ptable j).parent = (s.ptable j).parent := by
      obtain ⟨st, hst⟩ := wakeup1_ptable s₁ (.proc 0) j
      rw [hst]
      by_cases hj : j = 1
      · subst hj
        simp [hs₁]
      · simp [h₁ j hj]
    rw [hpar]
    rcases slot_cases j with rfl | rfl | hj
    · simp [h.init.parent]
    · rw [h.child.parent, if_neg (by decide)]
      decide
    · simp [(h.rest j hj).2]
  have hexit : s.exit 0 1 = some (((s₁.wakeup1 (.proc 0)).setProc 1
      { (s₁.wakeup1 (.proc 0)).ptable 1 with state := .zombie }).release 0) := by
    unfold exit
    rw [if_neg (by decide)]
    simp only [← hs₁, hchan, hfold]
  rw [step_syscall_of_running h.cpu_proc h.child.killed]
  simp only [runSyscall, hexit, Option.map_some, Option.bind_some, finishSyscall_off]
  have hinit : ((s₁.wakeup1 (.proc 0)).ptable 0).state = .runnable := by
    rw [wakeup1_state, h₁ 0 one_ne_zero_slot.symm, if_pos ⟨h.init.state, h.init.chan rfl⟩]
  refine ⟨_, rfl, ⟨by simp [release, hs₁, h.nextpid], by simp [release], by simp [release, hs₁, h.cpu_next],
    ?_, ?_, fun j hj => ?_⟩⟩
  · obtain ⟨st, hst⟩ := wakeup1_ptable s₁ (.proc 0) 0
    simp only [release, setCpu_ptable, setProc_ptable_of_ne _ _ one_ne_zero_slot.symm]
    rw [hst] at hinit ⊢
    rw [h₁ 0 one_ne_zero_slot.symm] at hinit ⊢
    exact ⟨hinit, h.init.pid, h.init.killed, h.init.kstack, h.init.pgdir, h.init.parent, h.init.policy,
      fun hs => absurd hs (by decide)⟩
  · obtain ⟨st, hst⟩ := wakeup1_ptable s₁ (.proc 0) 1
    simp only [release, setCpu_ptable, setProc_ptable_self, hst]
    exact ⟨rfl, by simp [hs₁, h.child.killed], by simp [hs₁, h.child.parent],
      fun _ => ⟨by simp [hs₁, hk], by simp [hs₁, hpg], by simp [hs₁, hpol]⟩⟩
  · obtain ⟨st, hst⟩ := wakeup1_ptable s₁ (.proc 0) j
    have hstate : ((s₁.wakeup1 (.proc 0)).ptable j).state = .unused := by
      rw [wakeup1_state, h₁ j (ne_of_two_le hj).2, (h.rest j hj).1]
      simp
    simp only [release, setCpu_ptable, setProc_ptable_of_ne _ _ (ne_of_two_le hj).2]
    refine ⟨hstate, ?_⟩
    rw [hst, h₁ j (ne_of_two_le hj).2]
    exact (h.rest j hj).2

theorem Loop.endPass (h : Loop s n none 2 .runnable .zombie) :
    ∃ s', step s (.scheduler 0) = some s' ∧ Loop s' n none 0 .runnable .zombie := by
  have hnone : s.nextRunnable (s.cpus 0).next = none := by
    rw [h.cpu_next]
    apply nextRunnable_eq_none
    intro j hj
    rcases slot_cases j with rfl | rfl | hj'
    · exact absurd hj (by decide)
    · exact absurd hj (by decide)
    · simp [(h.rest j hj').1]
  simp only [step, scheduler, h.cpu_proc, hnone]
  exact ⟨_, rfl, ⟨by simp [h.nextpid], by simp, by simp, by simpa using h.init, by simpa using h.child,
    fun j hj => by simpa using h.rest j hj⟩⟩

theorem Loop.runInit (h : Loop s n none 0 .runnable .zombie) :
    ∃ s', step s (.scheduler 0) = some s' ∧ Loop s' n (some 0) 1 .running .zombie := by
  have hnext : s.nextRunnable (s.cpus 0).next = some 0 := by
    rw [h.cpu_next]
    exact nextRunnable_self h.init.state
  have hsel : s.selectFrom 0 = 0 := by simp [selectFrom, h.init.policy]
  simp only [step, scheduler, h.cpu_proc, hnext, hsel, h.init.kstack, h.init.pgdir, or_self, if_false]
  refine ⟨_, rfl, ⟨by simp [h.nextpid], by simp, by simp, ?_, ?_, fun j hj => ?_⟩⟩
  · simp only [setCpu_ptable, setProc_ptable_self]
    exact ⟨rfl, h.init.pid, h.init.killed, h.init.kstack, h.init.pgdir, h.init.parent, h.init.policy,
      fun hs => absurd hs (by decide)⟩
  · simp only [setCpu_ptable, setProc_ptable_of_ne _ _ one_ne_zero_slot]
    exact h.child
  · simp only [setCpu_ptable, setProc_ptable_of_ne _ _ (ne_of_two_le hj).1]
    exact h.rest j hj

theorem Loop.waitReaps (h : Loop s n (some 0) 1 .running .zombie) :
    ∃ s', step s (.syscall 0 .wait) = some s' ∧ Loop s' n (some 0) 1 .running .unused := by
  have hzombie : s.findSlot (fun p => p.parent == some 0 && p.state == .zombie) = some 1 := by
    rw [findSlot_eq_some_iff]
    refine ⟨by simp [h.child.parent, h.child.state], fun j hj => ?_⟩
    obtain rfl := eq_zero_of_lt_one hj
    simp [h.init.parent]
  rw [step_syscall_of_running h.cpu_proc h.init.killed]
  simp only [runSyscall, wait, hzombie, Option.bind_some, finishSyscall_ret,
    setProc_ptable_of_ne _ _ one_ne_zero_slot.symm, h.init.killed, ne_eq, not_true_eq_false, if_false]
  refine ⟨_, rfl, ⟨by simp [h.nextpid], by simp [h.cpu_proc], by simp [h.cpu_next], ?_, ?_, fun j hj => ?_⟩⟩
  · rw [setProc_ptable_of_ne _ _ one_ne_zero_slot.symm]
    exact h.init
  · simp only [setProc_ptable_self]
    exact ⟨rfl, rfl, by simp, fun hs => absurd rfl hs⟩
  · rw [setProc_ptable_of_ne _ _ (ne_of_two_le hj).2]
    exact h.rest j hj

theorem Loop.cycle (hs : s.Reachable) (h : Loop s n (some 0) 1 .running .unused) :
    ∃ s', s'.Reachable ∧ Loop s' (CInt.add n 1) (some 0) 1 .running .unused := by
  obtain ⟨s₁, e₁, -, h₁⟩ := h.fork one_ne_zero one_ne_zero
  obtain ⟨s₂, e₂, h₂⟩ := h₁.waitSleeps
  obtain ⟨s₃, e₃, h₃⟩ := h₂.runChild
  obtain ⟨s₄, e₄, h₄⟩ := h₃.childExits
  obtain ⟨s₅, e₅, h₅⟩ := h₄.endPass
  obtain ⟨s₆, e₆, h₆⟩ := h₅.runInit
  obtain ⟨s₇, e₇, h₇⟩ := h₆.waitReaps
  have hs₃ : s₃.Reachable := ((hs.of_step e₁).of_step e₂).of_step e₃
  exact ⟨s₇, (((hs₃.of_step e₄).of_step e₅).of_step e₆).of_step e₇, h₇⟩

theorem Loop.boot : ∃ s : Kernel, s.Reachable ∧ Loop s 2 (some 0) 1 .running .unused := by
  obtain ⟨s, hs, hnext, hproc, hcpu, hst, hpid, hkill, hk, hpg, hpar, hpol, hst₁, hkill₁, hpar₁, hrest⟩ :=
    exists_reachable_of_bootRun
      (fun s => s.nextpid = 2 ∧ (s.cpus 0).proc = some 0 ∧ (s.cpus 0).next = 1 ∧
        (s.ptable 0).state = .running ∧ (s.ptable 0).pid = 1 ∧ (s.ptable 0).killed = 0 ∧
        (s.ptable 0).kstack ≠ 0 ∧ (s.ptable 0).pgdir ≠ 0 ∧ (s.ptable 0).parent = none ∧
        (s.ptable 0).schedPolicy = -1 ∧ (s.ptable 1).state = .unused ∧ (s.ptable 1).killed = 0 ∧
        (s.ptable 1).parent = none ∧
        ∀ j : Fin NPROC, 2 ≤ j.val → (s.ptable j).state = .unused ∧ (s.ptable j).parent = none)
      1 2 1 [.scheduler 0] (by decide)
  refine ⟨s, hs, ⟨hnext, hproc, hcpu, ?_, ?_, hrest⟩⟩
  · exact ⟨hst, hpid, hkill, hk, hpg, hpar, hpol, fun h => absurd h (by decide)⟩
  · exact ⟨hst₁, hkill₁, by simp [hpar₁], fun h => absurd rfl h⟩

theorem Loop.after (k : Nat) :
    ∃ s : Kernel, s.Reachable ∧ Loop s (CInt.wrap (2 + k)) (some 0) 1 .running .unused := by
  induction k with
  | zero =>
      obtain ⟨s, hs, h⟩ := Loop.boot
      have h₂ : CInt.wrap (2 + ((0 : Nat) : Int)) = 2 := by decide
      exact ⟨s, hs, h₂ ▸ h⟩
  | succ k ih =>
      obtain ⟨s, hs, h⟩ := ih
      obtain ⟨s', hs', h'⟩ := h.cycle hs
      have hwrap : CInt.add (CInt.wrap (2 + k)) 1 = CInt.wrap (2 + (k + 1 : Nat)) := by
        rw [CInt.add, CInt.wrap_add_wrap]
        push_cast
        rw [add_assoc]
      exact ⟨s', hs', hwrap ▸ h'⟩

/-- Pids are not unique: init forks in a loop, and after `2^32 - 2` turns the
child it forks next is live with pid `0`; after `2^32 - 1` turns the child
gets pid `1`, init's own, while init lives, and `kill(1)` or any other call
that looks a pid up finds init in slot 0 before the child. -/
theorem fork_reuses_live_pid_after_wrap :
    (∃ s : Kernel, s.Reachable ∧ (s.ptable 1).state ≠ .unused ∧ (s.ptable 1).pid = 0) ∧
    ∃ s : Kernel, s.Reachable ∧ (s.ptable 0).state ≠ .unused ∧ (s.ptable 1).state ≠ .unused ∧
      (s.ptable 0).pid = (s.ptable 1).pid ∧ s.findPid 1 = some 0 := by
  constructor
  · obtain ⟨s, hs, h⟩ := Loop.after (2 ^ 32 - 2)
    obtain ⟨s', e, hpid, h'⟩ := h.fork one_ne_zero one_ne_zero
    have h₀ : CInt.wrap (2 + ((2 ^ 32 - 2 : Nat) : Int)) = 0 := by decide
    refine ⟨s', hs.of_step e, by rw [h'.child.state]; decide, ?_⟩
    rw [hpid, h₀]
  · obtain ⟨s, hs, h⟩ := Loop.after (2 ^ 32 - 1)
    obtain ⟨s', e, hpid, h'⟩ := h.fork one_ne_zero one_ne_zero
    have h₁ : CInt.wrap (2 + ((2 ^ 32 - 1 : Nat) : Int)) = 1 := by decide
    have hfind : s'.findPid 1 = some 0 := by
      rw [findPid, findSlot_eq_some_iff]
      exact ⟨by simp [h'.init.pid], fun j hj => absurd (show j.val < 0 from hj) (Nat.not_lt_zero _)⟩
    refine ⟨s', hs.of_step e, by rw [h'.init.state]; decide, by rw [h'.child.state]; decide, ?_, hfind⟩
    rw [h'.init.pid, hpid, h₁]

end Kernel

end Xv6
