import Mathlib.Algebra.BigOperators.Fin
import Mathlib.Algebra.Order.Field.Rat
import Mathlib.Tactic.NormNum
import Xv6.Proc.Frame

/-!
# Admission counters

`sched_policy` admits on two running counters.  Under EDF it adds the
truncated percentage `(execution_time * 100)/deadline` of the process to
`utf_edf`, keeps the sum if it stays below `100` and otherwise takes it back
and kills the process.  Under RM it admits when `utf_rm` plus
`execution_time * rate * 10` is at most the entry of its bound table for
`lproc = pid - 2`.

Nothing else writes the counters, so each is the wrapped sum of the terms of
the admissions of the run, and each keeps the bound of its own test.  The
table of the live processes is another matter: the terms are taken once, at
admission.
-/

namespace Xv6

namespace Kernel

/-!
## `sched_policy`
-/

theorem admitEdf_spec {s s' : Kernel} {i : Fin NPROC} {r : Int}
    (h : s.admitEdf i = some (s', r)) :
    ∃ t, edfTerm (s.ptable i) = some t ∧
      ((CInt.add s.utfEdf t < 100 ∧ r = 0 ∧
          s' = { s.setProc i { s.ptable i with schedPolicy := 0 } with
            utfEdf := CInt.add s.utfEdf t }) ∨
        (100 ≤ CInt.add s.utfEdf t ∧ r = -22 ∧
          s' = { s.reject i with utfEdf := CInt.sub (CInt.add s.utfEdf t) t })) := by
  unfold admitEdf at h
  cases ht : edfTerm (s.ptable i) with
  | none =>
      rw [ht] at h
      cases h
  | some t =>
      rw [ht] at h
      dsimp only at h
      refine ⟨t, rfl, ?_⟩
      by_cases hle : 100 ≤ CInt.add s.utfEdf t
      · rw [if_pos hle] at h
        cases h
        exact Or.inr ⟨hle, rfl, rfl⟩
      · rw [if_neg hle] at h
        cases h
        exact Or.inl ⟨by omega, rfl, rfl⟩

theorem admitRm_spec (s : Kernel) (i : Fin NPROC) (pid : Int) :
    (CInt.add s.utfRm (rmTerm (s.ptable i)) ≤ rmBound (CInt.sub pid 2) ∧
        s.admitRm i pid =
          ({ s.setProc i
                { s.ptable i with arrivalTime := CInt.ofUInt s.ticks, schedPolicy := 1 } with
              utfRm := CInt.add s.utfRm (rmTerm (s.ptable i)) }, 0)) ∨
      (rmBound (CInt.sub pid 2) < CInt.add s.utfRm (rmTerm (s.ptable i)) ∧
        s.admitRm i pid = (s.reject i, -22)) := by
  unfold admitRm
  dsimp only
  by_cases hle : CInt.add s.utfRm (rmTerm (s.ptable i)) ≤ rmBound (CInt.sub pid 2)
  · rw [if_pos hle]
    exact Or.inl ⟨hle, rfl⟩
  · rw [if_neg hle]
    exact Or.inr ⟨by omega, rfl⟩

theorem schedPolicy_cases {s s' : Kernel} {pid policy r : Int}
    (h : s.schedPolicy pid policy = some (s', r)) :
    (s.findPid pid = none ∧ s' = s ∧ r = 0) ∨
      ∃ i, s.findPid pid = some i ∧
        ((policy = 0 ∧ s.admitEdf i = some (s', r)) ∨
          (policy = 1 ∧ s.admitRm i pid = (s', r)) ∨
          (policy ≠ 0 ∧ policy ≠ 1 ∧ s' = s ∧ r = 0)) := by
  unfold schedPolicy at h
  cases hf : s.findPid pid with
  | none =>
      rw [hf] at h
      cases h
      exact Or.inl ⟨rfl, rfl, rfl⟩
  | some i =>
      rw [hf] at h
      dsimp only at h
      refine Or.inr ⟨i, rfl, ?_⟩
      by_cases h0 : policy = 0
      · rw [if_pos h0] at h
        exact Or.inl ⟨h0, h⟩
      · rw [if_neg h0] at h
        by_cases h1 : policy = 1
        · rw [if_pos h1] at h
          exact Or.inr (Or.inl ⟨h1, Option.some.inj h⟩)
        · rw [if_neg h1] at h
          cases h
          exact Or.inr (Or.inr ⟨h0, h1, rfl, rfl⟩)

/-!
## The terms a step admits
-/

/-- The slot and term `sched_policy(pid, 0)` admits in `s`, if it admits one. -/
def edfAdmission (s : Kernel) (pid : Int) : Option (Fin NPROC × Int) :=
  match s.findPid pid with
  | none => none
  | some i =>
      match edfTerm (s.ptable i) with
      | none => none
      | some t => if CInt.add s.utfEdf t < 100 then some (i, t) else none

/-- The slot and term `sched_policy(pid, 1)` admits in `s`, if it admits one. -/
def rmAdmission (s : Kernel) (pid : Int) : Option (Fin NPROC × Int) :=
  match s.findPid pid with
  | none => none
  | some i =>
      if CInt.add s.utfRm (rmTerm (s.ptable i)) ≤ rmBound (CInt.sub pid 2) then
        some (i, rmTerm (s.ptable i))
      else
        none

/-- The process on CPU `c` that runs the body of a system call: it is not killed. -/
def caller (s : Kernel) (c : Fin NCPU) : Option (Fin NPROC) :=
  match (s.cpus c).proc with
  | some k => if (s.ptable k).killed = 0 then some k else none
  | none => none

/-- The term a step adds to `utf_edf` and keeps. -/
def edfAdmitted (s : Kernel) : Event → Option Int
  | .syscall c (.schedPolicy pid policy) =>
      if (s.caller c).isSome ∧ policy = 0 then (s.edfAdmission pid).map Prod.snd else none
  | _ => none

/-- The term a step adds to `utf_rm`. -/
def rmAdmitted (s : Kernel) : Event → Option Int
  | .syscall c (.schedPolicy pid policy) =>
      if (s.caller c).isSome ∧ policy = 1 then (s.rmAdmission pid).map Prod.snd else none
  | _ => none

theorem caller_of_proc {s : Kernel} {c : Fin NCPU} {k : Fin NPROC}
    (hk : (s.cpus c).proc = some k) (hkill : (s.ptable k).killed = 0) :
    s.caller c = some k := by
  simp [caller, hk, hkill]

theorem caller_of_killed {s : Kernel} {c : Fin NCPU} {k : Fin NPROC}
    (hk : (s.cpus c).proc = some k) (hkill : (s.ptable k).killed ≠ 0) :
    s.caller c = none := by
  simp [caller, hk, hkill]

theorem edfAdmitted_lt {s : Kernel} {e : Event} {t : Int} (h : s.edfAdmitted e = some t) :
    CInt.add s.utfEdf t < 100 := by
  cases e with
  | syscall c call =>
      cases call with
      | schedPolicy pid policy =>
          simp only [edfAdmitted] at h
          split at h
          · obtain ⟨⟨i, t'⟩, ha, rfl⟩ := Option.map_eq_some_iff.mp h
            unfold edfAdmission at ha
            split at ha
            · cases ha
            · split at ha
              · cases ha
              · split at ha
                · cases ha
                  assumption
                · cases ha
          · cases h
      | _ => cases h
  | _ => cases h

theorem rmBound_le (lproc : Int) : rmBound lproc ≤ 1000 := by
  have htable : ∀ x ∈ rmBoundTable, x ≤ 1000 := by decide
  unfold rmBound
  split
  · rw [List.getD_eq_getElem?_getD]
    cases hx : rmBoundTable[lproc.toNat - 1]? with
    | none => simp
    | some x => exact htable x (List.mem_of_getElem? hx)
  · omega

theorem rmAdmitted_le {s : Kernel} {e : Event} {t : Int} (h : s.rmAdmitted e = some t) :
    CInt.add s.utfRm t ≤ 1000 := by
  cases e with
  | syscall c call =>
      cases call with
      | schedPolicy pid policy =>
          simp only [rmAdmitted] at h
          split at h
          · obtain ⟨⟨i, t'⟩, ha, rfl⟩ := Option.map_eq_some_iff.mp h
            unfold rmAdmission at ha
            split at ha
            · cases ha
            · split at ha
              · cases ha
                exact le_trans (by assumption) (rmBound_le _)
              · cases ha
          · cases h
      | _ => cases h
  | _ => cases h

/-- A counter after a step that may admit a term. -/
def addTerm (u : Int) : Option Int → Int
  | none => u
  | some t => CInt.add u t

theorem edfAdmission_of_findPid {s : Kernel} {pid : Int} {i : Fin NPROC} {t : Int}
    (hf : s.findPid pid = some i) (ht : edfTerm (s.ptable i) = some t) :
    s.edfAdmission pid = if CInt.add s.utfEdf t < 100 then some (i, t) else none := by
  simp only [edfAdmission, hf, ht]

theorem rmAdmission_of_findPid {s : Kernel} {pid : Int} {i : Fin NPROC}
    (hf : s.findPid pid = some i) :
    s.rmAdmission pid =
      if CInt.add s.utfRm (rmTerm (s.ptable i)) ≤ rmBound (CInt.sub pid 2) then
        some (i, rmTerm (s.ptable i))
      else
        none := by
  simp only [rmAdmission, hf]

theorem schedPolicy_counters {s t : Kernel} {pid policy r : Int}
    (hs : CInt.Representable s.utfEdf) (h : s.schedPolicy pid policy = some (t, r)) :
    t.counters =
      (if policy = 0 then addTerm s.utfEdf ((s.edfAdmission pid).map Prod.snd) else s.utfEdf,
        if policy = 1 then addTerm s.utfRm ((s.rmAdmission pid).map Prod.snd) else s.utfRm) := by
  rcases schedPolicy_cases h with ⟨hf, rfl, -⟩ | ⟨i, hf, hbranch⟩
  · simp [counters, edfAdmission, rmAdmission, hf, addTerm]
  · rcases hbranch with ⟨rfl, hedf⟩ | ⟨rfl, hrm⟩ | ⟨h0, h1, rfl, -⟩
    · obtain ⟨term, hterm, ⟨hlt, -, rfl⟩ | ⟨hge, -, rfl⟩⟩ := admitEdf_spec hedf
      · have hadm : s.edfAdmission pid = some (i, term) := by
          rw [edfAdmission_of_findPid hf hterm, if_pos hlt]
        simp [counters, hadm, addTerm]
      · have hadm : s.edfAdmission pid = none := by
          rw [edfAdmission_of_findPid hf hterm, if_neg (by omega)]
        simp [counters, hadm, addTerm, CInt.sub_add_cancel hs]
    · rcases admitRm_spec s i pid with ⟨hle, hres⟩ | ⟨hgt, hres⟩
      · rw [hres] at hrm
        cases hrm
        have hadm : s.rmAdmission pid = some (i, rmTerm (s.ptable i)) := by
          rw [rmAdmission_of_findPid hf, if_pos hle]
        simp [counters, hadm, addTerm]
      · rw [hres] at hrm
        cases hrm
        have hadm : s.rmAdmission pid = none := by
          rw [rmAdmission_of_findPid hf, if_neg (by omega)]
        simp [counters, hadm, addTerm]
    · simp [counters, h0, h1]

theorem edfAdmitted_of_caller_none {s : Kernel} {c : Fin NCPU} (call : Syscall)
    (hc : s.caller c = none) : s.edfAdmitted (.syscall c call) = none := by
  cases call <;> simp [edfAdmitted, hc]

theorem rmAdmitted_of_caller_none {s : Kernel} {c : Fin NCPU} (call : Syscall)
    (hc : s.caller c = none) : s.rmAdmitted (.syscall c call) = none := by
  cases call <;> simp [rmAdmitted, hc]

theorem syscall_counters {s s' : Kernel} {c : Fin NCPU} {call : Syscall}
    (hs : CInt.Representable s.utfEdf) (h : s.syscall c call = some s') :
    s'.counters =
      (addTerm s.utfEdf (s.edfAdmitted (.syscall c call)),
        addTerm s.utfRm (s.rmAdmitted (.syscall c call))) := by
  obtain ⟨k, hk, ⟨hkill, hexit⟩ | ⟨hkill, o, ho, hfin⟩⟩ := syscall_cases h
  · have hc := caller_of_killed hk hkill
    rw [exit_counters hexit, edfAdmitted_of_caller_none call hc,
      rmAdmitted_of_caller_none call hc]
    rfl
  · have hc := caller_of_proc hk hkill
    rw [finishSyscall_counters hfin]
    cases call with
    | schedPolicy pid policy =>
        obtain ⟨⟨t, r⟩, hsp, rfl⟩ := Option.map_eq_some_iff.mp ho
        rw [show (retOf (t, r)).kernel = t from rfl, schedPolicy_counters hs hsp]
        by_cases h0 : policy = 0
        · have h1 : ¬policy = 1 := by omega
          simp [edfAdmitted, rmAdmitted, hc, h0, addTerm]
        · by_cases h1 : policy = 1
          · simp [edfAdmitted, rmAdmitted, hc, h1, addTerm]
          · simp [edfAdmitted, rmAdmitted, h0, h1, addTerm]
    | _ =>
        rw [runSyscall_counters (fun _ _ h => Syscall.noConfusion h) ho]
        rfl

theorem step_counters {s s' : Kernel} {e : Event} (hs : CInt.Representable s.utfEdf)
    (h : step s e = some s') :
    s'.counters = (addTerm s.utfEdf (s.edfAdmitted e), addTerm s.utfRm (s.rmAdmitted e)) := by
  cases e with
  | syscall c call => exact syscall_counters hs h
  | sleep c chan =>
      simp only [step] at h
      split at h
      · cases h
      · cases h
        rfl
  | wakeup chan =>
      cases h
      rfl
  | timer c user =>
      rw [timer_counters h]
      rfl
  | scheduler c =>
      rw [scheduler_counters h]
      rfl

theorem step_utfEdf {s s' : Kernel} {e : Event} (hs : CInt.Representable s.utfEdf)
    (h : step s e = some s') : s'.utfEdf = addTerm s.utfEdf (s.edfAdmitted e) :=
  congrArg Prod.fst (step_counters hs h)

theorem step_utfRm {s s' : Kernel} {e : Event} (hs : CInt.Representable s.utfEdf)
    (h : step s e = some s') : s'.utfRm = addTerm s.utfRm (s.rmAdmitted e) :=
  congrArg Prod.snd (step_counters hs h)

/-!
## Over whole runs
-/

theorem userinit_counters {kstack pgdir root : Nat} {s : Kernel}
    (h : userinit kstack pgdir root = some s) : s.counters = (0, 0) := by
  unfold userinit at h
  have hzero := allocproc_counters zero kstack
  rcases halloc : zero.allocproc kstack with ⟨p, t⟩
  rw [halloc] at hzero h
  cases p with
  | none => cases h
  | some p =>
      dsimp only at h
      split at h
      · cases h
      · cases h
        rw [setProc_counters, hzero]
        rfl

theorem init_counters {s : Kernel} (h : Init s) : s.counters = (0, 0) := by
  obtain ⟨kstack, pgdir, root, hs⟩ := h
  exact userinit_counters hs

theorem representable_addTerm {u : Int} (hu : CInt.Representable u) (a : Option Int) :
    CInt.Representable (addTerm u a) := by
  cases a with
  | none => exact hu
  | some t => exact CInt.representable_wrap _

theorem cast_addTerm (u : Int) (a : Option Int) :
    ((addTerm u a : Int) : ZMod (2 ^ 32)) = u + ((a.getD 0 : Int) : ZMod (2 ^ 32)) := by
  cases a with
  | none => simp [addTerm]
  | some t =>
      simp only [addTerm, CInt.add, Option.getD_some]
      rw [CInt.cast_wrap, Int.cast_add]

/-- Both counters hold `int` values. -/
def CountersRepresentable (s : Kernel) : Prop :=
  CInt.Representable s.utfEdf ∧ CInt.Representable s.utfRm

theorem countersRepresentable_step {s s' : Kernel} {e : Event}
    (hs : CountersRepresentable s) (h : step s e = some s') : CountersRepresentable s' := by
  rw [CountersRepresentable, step_utfEdf hs.1 h, step_utfRm hs.1 h]
  exact ⟨representable_addTerm hs.1 _, representable_addTerm hs.2 _⟩

theorem countersRepresentable_init {s : Kernel} (h : Init s) : CountersRepresentable s := by
  have h0 := init_counters h
  simp only [counters, Prod.mk.injEq] at h0
  rw [CountersRepresentable, h0.1, h0.2]
  exact ⟨CInt.representable_zero, CInt.representable_zero⟩

/-- `utf_edf` keeps the bound of its test. -/
def EdfBounded (s : Kernel) : Prop :=
  CInt.Representable s.utfEdf ∧ s.utfEdf < 100

theorem edfBounded_step {s s' : Kernel} {e : Event} (hs : EdfBounded s)
    (h : step s e = some s') : EdfBounded s' := by
  rw [EdfBounded, step_utfEdf hs.1 h]
  cases ha : s.edfAdmitted e with
  | none => exact hs
  | some t => exact ⟨CInt.representable_wrap _, edfAdmitted_lt ha⟩

theorem utfEdf_lt_hundred {s : Kernel} (h : s.Reachable) : s.utfEdf < 100 := by
  have hinv : EdfBounded s := by
    refine Run.Reachable.induction (fun s₀ h₀ => ?_) (fun s e s' hs hse => edfBounded_step hs hse) h
    have hc := init_counters h₀
    simp only [counters, Prod.mk.injEq] at hc
    rw [EdfBounded, hc.1]
    exact ⟨CInt.representable_zero, by decide⟩
  exact hinv.2

theorem utfEdf_lt_hundred_after_admission : ∃ s : Kernel, s.Reachable ∧ s.utfEdf < 100 := by
  obtain ⟨s, hs⟩ := Option.isSome_iff_exists.mp
    (by decide : (bootRun 1 2 1 [.scheduler 0, .syscall 0 (.deadline 1 200),
      .syscall 0 (.execTime 1 199), .syscall 0 (.schedPolicy 1 0)]).isSome)
  have hr := reachable_of_bootRun hs
  exact ⟨s, hr, utfEdf_lt_hundred hr⟩

/-- The exact utilization `Σ C/D` of the live EDF processes: the test
`U ≤ 1` is what makes an EDF task set schedulable. -/
def edfUtilization (s : Kernel) : ℚ :=
  ∑ i : Fin NPROC,
    if (s.ptable i).Live ∧ (s.ptable i).schedPolicy = 0 then
      ((s.ptable i).executionTime : ℚ) / (s.ptable i).deadline
    else
      0

theorem edf_admission_exceeds_unit_utilization :
    ∃ s : Kernel, s.Reachable ∧ 1 < s.edfUtilization := by
  obtain ⟨s, hs, h0, h1, hrest⟩ := exists_reachable_of_bootRun
    (fun s => ((s.ptable 0).Live ∧ (s.ptable 0).schedPolicy = 0 ∧
        (s.ptable 0).executionTime = 199 ∧ (s.ptable 0).deadline = 200) ∧
      ((s.ptable 1).Live ∧ (s.ptable 1).schedPolicy = 0 ∧
        (s.ptable 1).executionTime = 1 ∧ (s.ptable 1).deadline = 101) ∧
      ∀ j : Fin NPROC, j ≠ 0 → j ≠ 1 → ¬((s.ptable j).Live ∧ (s.ptable j).schedPolicy = 0))
    1 2 1
    [.scheduler 0, .syscall 0 (.deadline 1 200), .syscall 0 (.execTime 1 199),
      .syscall 0 (.schedPolicy 1 0), .syscall 0 (.fork 3 4), .syscall 0 (.deadline 2 101),
      .syscall 0 (.schedPolicy 2 0)]
    (by decide)
  refine ⟨s, hs, ?_⟩
  have hsum : s.edfUtilization = (199 : ℚ) / 200 + 1 / 101 := by
    rw [edfUtilization, Fintype.sum_eq_add 0 1 (by decide)
      (fun j hj => if_neg (hrest j hj.1 hj.2))]
    rw [if_pos ⟨h0.1, h0.2.1⟩, if_pos ⟨h1.1, h1.2.1⟩, h0.2.2.1, h0.2.2.2, h1.2.2.1, h1.2.2.2]
    norm_num
  rw [hsum]
  norm_num

/-- `utf_rm` keeps the largest entry of the bound table. -/
def RmBounded (s : Kernel) : Prop :=
  CInt.Representable s.utfEdf ∧ s.utfRm ≤ 1000

theorem rmBounded_step {s s' : Kernel} {e : Event} (hs : RmBounded s)
    (h : step s e = some s') : RmBounded s' := by
  have hrep : CInt.Representable s'.utfEdf := by
    rw [step_utfEdf hs.1 h]
    exact representable_addTerm hs.1 _
  refine ⟨hrep, ?_⟩
  rw [step_utfRm hs.1 h]
  cases ha : s.rmAdmitted e with
  | none => exact hs.2
  | some t => exact rmAdmitted_le ha

theorem utfRm_le_thousand {s : Kernel} (h : s.Reachable) : s.utfRm ≤ 1000 := by
  have hinv : RmBounded s := by
    refine Run.Reachable.induction (fun s₀ h₀ => ?_) (fun s e s' hs hse => rmBounded_step hs hse) h
    have hc := init_counters h₀
    simp only [counters, Prod.mk.injEq] at hc
    rw [RmBounded, hc.1, hc.2]
    exact ⟨CInt.representable_zero, by decide⟩
  exact hinv.2

theorem utfRm_le_thousand_after_admission : ∃ s : Kernel, s.Reachable ∧ s.utfRm ≤ 1000 := by
  obtain ⟨s, hs⟩ := Option.isSome_iff_exists.mp
    (by decide : (bootRun 1 2 1 [.scheduler 0, .syscall 0 (.rate 1 1),
      .syscall 0 (.schedPolicy 1 1)]).isSome)
  have hr := reachable_of_bootRun hs
  exact ⟨s, hr, utfRm_le_thousand hr⟩

/-- The live RM processes. -/
def rmTasks (s : Kernel) : Finset (Fin NPROC) :=
  Finset.univ.filter (fun i => (s.ptable i).Live ∧ (s.ptable i).schedPolicy = 1)

/-- `Σ execution_time * rate * 10` over the live RM processes: the load the
Liu-Layland table bounds, in thousandths, for a set of its size. -/
def rmLoad (s : Kernel) : Int :=
  ∑ i ∈ s.rmTasks, (s.ptable i).executionTime * (s.ptable i).rate * 10

/-- Init is admitted at load `10` against the entry for `lproc = -1`; pid 3 is
admitted at `900` against the entry for `lproc = 1`, `1000`.  The two live RM
processes carry `910`, above the entry for two processes, `828`. -/
theorem rm_admission_exceeds_bound_for_its_size :
    ∃ s : Kernel, s.Reachable ∧ 1 ≤ s.rmTasks.card ∧ rmBound s.rmTasks.card < s.rmLoad := by
  obtain ⟨s, hs, hset, h0, h2⟩ := exists_reachable_of_bootRun
    (fun s => (∀ j : Fin NPROC,
        ((s.ptable j).Live ∧ (s.ptable j).schedPolicy = 1) ↔ (j = 0 ∨ j = 2)) ∧
      ((s.ptable 0).executionTime = 1 ∧ (s.ptable 0).rate = 1) ∧
      ((s.ptable 2).executionTime = 90 ∧ (s.ptable 2).rate = 1))
    1 2 1
    [.scheduler 0, .syscall 0 (.rate 1 1), .syscall 0 (.schedPolicy 1 1),
      .syscall 0 (.fork 3 4), .syscall 0 (.fork 5 6), .syscall 0 (.rate 3 1),
      .syscall 0 (.execTime 3 90), .syscall 0 (.schedPolicy 3 1)]
    (by decide)
  have htasks : s.rmTasks = {0, 2} := by
    ext j
    simp [rmTasks, hset j]
  refine ⟨s, hs, ?_⟩
  rw [rmLoad, htasks, Finset.sum_pair (by decide), h0.1, h0.2, h2.1, h2.2]
  decide

/-- The terms the admissions of a run add to `utf_edf`. -/
def edfLedger (s : Kernel) (es : List Event) : Int :=
  Run.ledger step (fun s e => (s.edfAdmitted e).getD 0) s es

/-- The terms the admissions of a run add to `utf_rm`. -/
def rmLedger (s : Kernel) (es : List Event) : Int :=
  Run.ledger step (fun s e => (s.rmAdmitted e).getD 0) s es

theorem cast_counter_ledger (f : Kernel → Int) {charge : Kernel → Event → Option Int}
    (hstep : ∀ s e s', CountersRepresentable s → step s e = some s' →
      f s' = addTerm (f s) (charge s e))
    {s t : Kernel} {es : List Event} (hs : CountersRepresentable s)
    (hrun : Run.exec step s es = some t) :
    ((f t : Int) : ZMod (2 ^ 32)) =
      (f s : ZMod (2 ^ 32)) + ((Run.ledger step (fun s e => (charge s e).getD 0) s es : Int) :
        ZMod (2 ^ 32)) := by
  have hQ : Run.Always step (fun s _ => CountersRepresentable s) s es :=
    Run.always_of_invariant (fun s e s' hs hse => countersRepresentable_step hs hse)
      (fun s _ hs => hs) hs
  have hmap := Run.ledger_map step (Int.castAddHom (ZMod (2 ^ 32)))
    (fun s e => (charge s e).getD 0) s es
  simp only [Int.coe_castAddHom] at hmap
  rw [hmap]
  refine Run.exec_ledger (fun s => (f s : ZMod (2 ^ 32))) _ ?_ hrun hQ
  intro s e s' hs hse
  rw [hstep s e s' hs hse, cast_addTerm]

theorem counters_eq_admission_ledger {s₀ s : Kernel} {es : List Event} (h₀ : Init s₀)
    (hrun : Run.exec step s₀ es = some s) :
    s.utfEdf = CInt.wrap (edfLedger s₀ es) ∧ s.utfRm = CInt.wrap (rmLedger s₀ es) := by
  have hrep₀ := countersRepresentable_init h₀
  have hrep : CountersRepresentable s :=
    Run.exec_invariant (fun s e s' hs hse => countersRepresentable_step hs hse) hrun hrep₀
  have hc := init_counters h₀
  simp only [counters, Prod.mk.injEq] at hc
  have hedf := cast_counter_ledger Kernel.utfEdf
    (fun s e s' hs hse => step_utfEdf hs.1 hse) hrep₀ hrun
  have hrm := cast_counter_ledger Kernel.utfRm
    (fun s e s' hs hse => step_utfRm hs.1 hse) hrep₀ hrun
  rw [hc.1, Int.cast_zero, zero_add] at hedf
  rw [hc.2, Int.cast_zero, zero_add] at hrm
  exact ⟨CInt.eq_wrap_of_cast_eq hrep.1 hedf, CInt.eq_wrap_of_cast_eq hrep.2 hrm⟩

theorem counters_eq_admission_ledger_after_admission :
    ∃ (s₀ s : Kernel) (es : List Event), Init s₀ ∧ Run.exec step s₀ es = some s ∧
      s.utfEdf = CInt.wrap (edfLedger s₀ es) ∧ s.utfRm = CInt.wrap (rmLedger s₀ es) := by
  obtain ⟨s, hs⟩ := Option.isSome_iff_exists.mp
    (by decide : (bootRun 1 2 1 [.scheduler 0, .syscall 0 (.deadline 1 200),
      .syscall 0 (.execTime 1 199), .syscall 0 (.schedPolicy 1 0)]).isSome)
  obtain ⟨s₀, h₀, hrun⟩ := Option.bind_eq_some_iff.mp hs
  exact ⟨s₀, s, _, ⟨1, 2, 1, h₀⟩, hrun,
    counters_eq_admission_ledger ⟨1, 2, 1, h₀⟩ hrun⟩

/-- `Σ floor(execution_time * 100 / deadline)` over the live EDF processes. -/
def edfTableSum (s : Kernel) : Int :=
  ∑ i : Fin NPROC,
    if (s.ptable i).Live ∧ (s.ptable i).schedPolicy = 0 then
      Int.fdiv ((s.ptable i).executionTime * 100) (s.ptable i).deadline
    else
      0

theorem admission_counters_drift_from_table :
    ∃ s : Kernel, s.Reachable ∧ ¬(s.utfEdf = s.edfTableSum ∧ s.utfRm = s.rmLoad) := by
  obtain ⟨s, hs, hutf, h1, hrest⟩ := exists_reachable_of_bootRun
    (fun s => s.utfEdf = 10 ∧
      ((s.ptable 1).Live ∧ (s.ptable 1).schedPolicy = 0 ∧
        (s.ptable 1).executionTime = 2 ∧ (s.ptable 1).deadline = 10) ∧
      ∀ j : Fin NPROC, j ≠ 1 → ¬((s.ptable j).Live ∧ (s.ptable j).schedPolicy = 0))
    1 2 1
    [.scheduler 0, .syscall 0 (.fork 3 4), .syscall 0 (.deadline 2 10),
      .syscall 0 (.schedPolicy 2 0), .syscall 0 (.execTime 2 2)]
    (by decide)
  have hsum : s.edfTableSum = 20 := by
    rw [edfTableSum, Fintype.sum_eq_single 1 (fun j hj => if_neg (hrest j hj)),
      if_pos ⟨h1.1, h1.2.1⟩, h1.2.2.1, h1.2.2.2]
    decide
  refine ⟨s, hs, fun h => ?_⟩
  rw [hutf, hsum] at h
  exact absurd h.1 (by decide)

end Kernel

end Xv6
