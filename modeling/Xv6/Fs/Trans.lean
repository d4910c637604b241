import Mathlib.Data.List.Basic
import Xv6.Library.Run
import Xv6.Library.Tally

/-!
# Log transactions in memory

The in-memory half of `log.c`: `begin_op`, `log_write` and `end_op` on
`struct log`, which let several file-system calls add blocks to one
transaction and commit it when the last of them ends.  `begin_op` admits a
call only while the blocks logged so far and `MAXOPBLOCKS` for each call in
progress, itself included, fit in `LOGSIZE`; `log_write` panics once the
header holds `LOGSIZE` blocks or `log.size - 1`, the data blocks of the log
region.

The callers are threads.  Each is outside any transaction, inside one between
its `begin_op` and its `end_op`, or in the `commit()` its `end_op` started.  A
thread inside an operation carries the distinct blocks it has logged: no
variable of `log.c` holds them, but the callers' side of the protocol, at most
`MAXOPBLOCKS` blocks an operation, is stated over them.

Along every run whose operations keep to that budget the reservation holds:
the header and what the operations may still add fit in `LOGSIZE`.  So a
`log_write` within budget never finds `LOGSIZE` blocks logged; it still panics
when `log.size - 1` is smaller, as with the `nlog = LOGSIZE` that `mkfs`
writes.
-/

namespace Xv6

-- `param.h`
def MAXOPBLOCKS : Nat := 10

def LOGSIZE : Nat := MAXOPBLOCKS * 3

/-- The log blocks `mkfs` writes into the superblock. -/
def nlog : Nat := LOGSIZE

namespace Log

/-- `log_write`'s loop over `lh.block[0..lh.n)`: `blockno` overwrites its
first equal entry, or goes at `lh.block[lh.n]` and `lh.n` grows. -/
def absorb (lh : List Nat) (blockno : Nat) : List Nat :=
  if lh.idxOf blockno = lh.length then lh ++ [blockno] else lh

theorem absorb_of_mem {lh : List Nat} {blockno : Nat} (h : blockno ∈ lh) :
    absorb lh blockno = lh :=
  if_neg (fun heq => List.idxOf_eq_length_iff.mp heq h)

theorem absorb_of_not_mem {lh : List Nat} {blockno : Nat} (h : blockno ∉ lh) :
    absorb lh blockno = lh ++ [blockno] :=
  if_pos (List.idxOf_eq_length_iff.mpr h)

theorem mem_absorb (lh : List Nat) (blockno : Nat) : blockno ∈ absorb lh blockno := by
  by_cases h : blockno ∈ lh
  · rw [absorb_of_mem h]
    exact h
  · rw [absorb_of_not_mem h]
    exact List.mem_append_right _ (List.mem_singleton_self _)

theorem subset_absorb (lh : List Nat) (blockno : Nat) : lh ⊆ absorb lh blockno := by
  by_cases h : blockno ∈ lh
  · rw [absorb_of_mem h]
    exact List.Subset.refl lh
  · rw [absorb_of_not_mem h]
    exact List.subset_append_left _ _

theorem mem_of_mem_absorb {lh : List Nat} {blockno b : Nat} (h : b ∈ absorb lh blockno) :
    b ∈ lh ∨ b = blockno := by
  by_cases hin : blockno ∈ lh
  · rw [absorb_of_mem hin] at h
    exact Or.inl h
  · rw [absorb_of_not_mem hin, List.mem_append, List.mem_singleton] at h
    exact h

theorem length_absorb (lh : List Nat) (blockno : Nat) :
    (absorb lh blockno).length = if blockno ∈ lh then lh.length else lh.length + 1 := by
  by_cases h : blockno ∈ lh
  · rw [absorb_of_mem h, if_pos h]
  · rw [absorb_of_not_mem h, if_neg h, List.length_append, List.length_singleton]

theorem nodup_absorb {lh : List Nat} (h : lh.Nodup) (blockno : Nat) : (absorb lh blockno).Nodup := by
  by_cases hb : blockno ∈ lh
  · rw [absorb_of_mem hb]
    exact h
  · rw [absorb_of_not_mem hb]
    exact h.append (List.nodup_singleton _) (List.disjoint_singleton.mpr hb)

theorem prefix_absorb (lh : List Nat) (blockno : Nat) : lh <+: absorb lh blockno := by
  by_cases hb : blockno ∈ lh
  · rw [absorb_of_mem hb]
  · rw [absorb_of_not_mem hb]
    exact List.prefix_append _ _

/-- `struct log` in memory, without its lock, device and start block: the
size of the log region, the file-system calls in progress, whether `commit()`
runs, and the header of the transaction being built, `lh.block[0..lh.n)`. -/
structure Mem where
  size : Nat
  outstanding : Int
  committing : Bool
  lh : List Nat
deriving DecidableEq, Repr

namespace Mem

/-- `initlog` on a superblock of `size` log blocks, once `recover_from_log`
has emptied the header. -/
def init (size : Nat) : Mem where
  size := size
  outstanding := 0
  committing := false
  lh := []

/-- `begin_op`; `none` while it sleeps on the log. -/
def beginOp (m : Mem) : Option Mem :=
  if m.committing then
    none
  else if (m.lh.length : Int) + (m.outstanding + 1) * MAXOPBLOCKS > LOGSIZE then
    -- this op might exhaust log space; wait for commit
    none
  else
    some { m with outstanding := m.outstanding + 1 }

/-- `log_write` of the buffer of block `blockno`.  `log.size - 1` is an `int`
in the source; truncated at `0` here, both tests hold there alike. -/
def logWrite (m : Mem) (blockno : Nat) : Except String Mem :=
  if m.lh.length ≥ LOGSIZE ∨ m.lh.length ≥ m.size - 1 then
    .error "too big a transaction"
  else if m.outstanding < 1 then
    .error "log_write outside of trans"
  else
    .ok { m with lh := absorb m.lh blockno }

/-- `end_op` up to its call of `commit()`: the log, and whether this call
commits. -/
def endOp (m : Mem) : Except String (Mem × Bool) :=
  let m := { m with outstanding := m.outstanding - 1 }
  if m.committing then
    .error "log.committing"
  else if m.outstanding = 0 then
    .ok ({ m with committing := true }, true)
  else
    -- `wakeup(&log)`: a `begin_op` waiting for space may fit now
    .ok (m, false)

/-- The rest of a committing `end_op`: `commit()` empties the header once its
writes are done, then `committing` is cleared and the log's sleepers woken. -/
def commitDone (m : Mem) : Mem :=
  { m with lh := [], committing := false }

variable {m m' : Mem}

theorem beginOp_eq_some :
    m.beginOp = some m' ↔ m.committing = false ∧
      (m.lh.length : Int) + (m.outstanding + 1) * MAXOPBLOCKS ≤ LOGSIZE ∧
      m' = { m with outstanding := m.outstanding + 1 } := by
  unfold beginOp
  cases hc : m.committing with
  | true => simp
  | false =>
      simp only [Bool.false_eq_true, if_false, true_and]
      by_cases hf : (m.lh.length : Int) + (m.outstanding + 1) * MAXOPBLOCKS > LOGSIZE
      · simp only [hf, if_true, reduceCtorEq, false_iff, not_and]
        intro hle
        omega
      · rw [if_neg hf, Option.some.injEq]
        constructor
        · intro h
          exact ⟨by omega, h.symm⟩
        · intro h
          exact h.2.symm

theorem logWrite_eq_ok {blockno : Nat} :
    m.logWrite blockno = .ok m' ↔ m.lh.length < LOGSIZE ∧ m.lh.length < m.size - 1 ∧
      1 ≤ m.outstanding ∧ m' = { m with lh := absorb m.lh blockno } := by
  unfold logWrite
  by_cases hf : m.lh.length ≥ LOGSIZE ∨ m.lh.length ≥ m.size - 1
  · simp only [hf, if_true, reduceCtorEq, false_iff, not_and]
    intro h1 h2
    omega
  · by_cases ho : m.outstanding < 1
    · simp only [hf, ho, if_true, if_false, reduceCtorEq, false_iff, not_and]
      intro _ _ h
      omega
    · simp only [hf, ho, if_false, Except.ok.injEq]
      constructor
      · intro h
        exact ⟨by omega, by omega, by omega, h.symm⟩
      · intro h
        exact h.2.2.2.symm

theorem endOp_eq_ok {c : Bool} :
    m.endOp = .ok (m', c) ↔ m.committing = false ∧ c = decide (m.outstanding - 1 = 0) ∧
      m' = { m with outstanding := m.outstanding - 1, committing := c } := by
  unfold endOp
  by_cases hc : m.committing = true
  · simp [hc]
  · have hc' : m.committing = false := by simpa using hc
    by_cases h0 : m.outstanding - 1 = 0
    · simp only [hc', h0, if_true, Bool.false_eq_true, if_false, Except.ok.injEq, Prod.mk.injEq,
        decide_true, true_and]
      constructor
      · rintro ⟨rfl, rfl⟩
        exact ⟨rfl, rfl⟩
      · rintro ⟨rfl, rfl⟩
        exact ⟨rfl, rfl⟩
    · simp only [hc', h0, if_false, Bool.false_eq_true, Except.ok.injEq, Prod.mk.injEq,
        decide_false, true_and]
      constructor
      · rintro ⟨rfl, rfl⟩
        exact ⟨rfl, by rw [← hc']⟩
      · rintro ⟨rfl, rfl⟩
        exact ⟨by rw [← hc'], rfl⟩

end Mem

/-- Where a thread stands: outside any transaction, inside an operation that
has logged the distinct blocks `blocks`, or in `commit()` from its `end_op`. -/
inductive Phase where
  | idle
  | op (blocks : List Nat)
  | commit
deriving DecidableEq, Repr

inductive Call where
  | beginOp
  | logWrite (blockno : Nat)
  | endOp
  | commit
deriving DecidableEq, Repr

/-- Whether an operation in phase `p` keeps to its budget logging `blockno`:
a block it has logged already, or one more of at most `MAXOPBLOCKS`. -/
def Phase.MayLog (blockno : Nat) : Phase → Prop
  | .op bs => blockno ∈ bs ∨ bs.length < MAXOPBLOCKS
  | _ => True

instance (blockno : Nat) : (p : Phase) → Decidable (p.MayLog blockno)
  | .op bs => inferInstanceAs (Decidable (blockno ∈ bs ∨ bs.length < MAXOPBLOCKS))
  | .idle => isTrue trivial
  | .commit => isTrue trivial

/-- `1` for a thread inside an operation. -/
def inOp : Phase → Nat
  | .op _ => 1
  | _ => 0

/-- `1` for the thread in `commit()`. -/
def committer : Phase → Nat
  | .commit => 1
  | _ => 0

/-- The blocks an operation may still add to the transaction. -/
def slack : Phase → Nat
  | .op bs => MAXOPBLOCKS - bs.length
  | _ => 0

theorem slack_le_inOp (p : Phase) : slack p ≤ MAXOPBLOCKS * inOp p := by
  cases p <;> simp [slack, inOp]

/-- The log and the threads that call it. -/
structure Trans (τ : Type) where
  log : Mem
  phase : τ → Phase

namespace Trans

variable {τ : Type} [DecidableEq τ]

def init (size : Nat) : Trans τ where
  log := Mem.init size
  phase := fun _ => .idle

/-- Thread `t` makes call `call`.  A `begin_op` that would sleep, a call out
of phase and a call that panics cannot be taken. -/
def step (s : Trans τ) (t : τ) : Call → Option (Trans τ)
  | .beginOp =>
      match s.phase t with
      | .idle => s.log.beginOp.map fun m => ⟨m, Function.update s.phase t (.op [])⟩
      | _ => none
  | .logWrite blockno =>
      match s.phase t, s.log.logWrite blockno with
      | .op bs, .ok m => some ⟨m, Function.update s.phase t (.op (bs.insert blockno))⟩
      | _, _ => none
  | .endOp =>
      match s.phase t, s.log.endOp with
      | .op _, .ok (m, doCommit) =>
          some ⟨m, Function.update s.phase t (if doCommit then .commit else .idle)⟩
      | _, _ => none
  | .commit =>
      match s.phase t with
      | .commit => some ⟨s.log.commitDone, Function.update s.phase t .idle⟩
      | _ => none

/-- The step of a run's event: a thread and its call. -/
def next (s : Trans τ) (e : τ × Call) : Option (Trans τ) :=
  s.step e.1 e.2

/-!
## What one call does
-/

variable {s s' : Trans τ} {t : τ}

theorem step_beginOp (h : s.step t .beginOp = some s') :
    s.phase t = .idle ∧ ∃ m, s.log.beginOp = some m ∧
      s' = ⟨m, Function.update s.phase t (.op [])⟩ := by
  cases hp : s.phase t with
  | idle =>
      simp only [step, hp] at h
      obtain ⟨m, hm, rfl⟩ := Option.map_eq_some_iff.mp h
      exact ⟨rfl, m, hm, rfl⟩
  | op bs => simp [step, hp] at h
  | commit => simp [step, hp] at h

theorem step_logWrite {blockno : Nat} (h : s.step t (.logWrite blockno) = some s') :
    ∃ bs m, s.phase t = .op bs ∧ s.log.logWrite blockno = .ok m ∧
      s' = ⟨m, Function.update s.phase t (.op (bs.insert blockno))⟩ := by
  cases hp : s.phase t with
  | op bs =>
      cases hm : s.log.logWrite blockno with
      | ok m =>
          simp only [step, hp, hm, Option.some.injEq] at h
          exact ⟨bs, m, rfl, rfl, h.symm⟩
      | error e => simp [step, hp, hm] at h
  | idle => simp [step, hp] at h
  | commit => simp [step, hp] at h

theorem step_endOp (h : s.step t .endOp = some s') :
    ∃ bs m c, s.phase t = .op bs ∧ s.log.endOp = .ok (m, c) ∧
      s' = ⟨m, Function.update s.phase t (if c then .commit else .idle)⟩ := by
  cases hp : s.phase t with
  | op bs =>
      cases hm : s.log.endOp with
      | ok r =>
          simp only [step, hp, hm, Option.some.injEq] at h
          exact ⟨bs, r.1, r.2, rfl, rfl, h.symm⟩
      | error e => simp [step, hp, hm] at h
  | idle => simp [step, hp] at h
  | commit => simp [step, hp] at h

theorem step_commit (h : s.step t .commit = some s') :
    s.phase t = .commit ∧ s' = ⟨s.log.commitDone, Function.update s.phase t .idle⟩ := by
  cases hp : s.phase t with
  | commit =>
      simp only [step, hp, Option.some.injEq] at h
      exact ⟨rfl, h.symm⟩
  | idle => simp [step, hp] at h
  | op bs => simp [step, hp] at h

/-- The callers' side of the protocol: an operation logs at most
`MAXOPBLOCKS` distinct blocks. -/
def InBudget (s : Trans τ) : τ × Call → Prop
  | (t, .logWrite blockno) => (s.phase t).MayLog blockno
  | _ => True

instance (s : Trans τ) : (e : τ × Call) → Decidable (s.InBudget e)
  | (t, .logWrite blockno) => inferInstanceAs (Decidable ((s.phase t).MayLog blockno))
  | (_, .beginOp) => isTrue trivial
  | (_, .endOp) => isTrue trivial
  | (_, .commit) => isTrue trivial

/-!
## The log region is never overrun

`log_write` tests the header before it grows it, so whatever the callers do the
header fits in `lh.block[LOGSIZE]` and `write_log` copies it into the data
blocks of the log region, `log.start + 1 .. log.start + log.size - 1`.
-/

theorem size_step (h : s.step t call = some s') : s'.log.size = s.log.size := by
  cases call with
  | beginOp =>
      obtain ⟨-, m, hm, rfl⟩ := step_beginOp h
      obtain ⟨-, -, rfl⟩ := Mem.beginOp_eq_some.mp hm
      rfl
  | logWrite blockno =>
      obtain ⟨bs, m, -, hm, rfl⟩ := step_logWrite h
      obtain ⟨-, -, -, rfl⟩ := Mem.logWrite_eq_ok.mp hm
      rfl
  | endOp =>
      obtain ⟨bs, m, c, -, hm, rfl⟩ := step_endOp h
      obtain ⟨-, -, rfl⟩ := Mem.endOp_eq_ok.mp hm
      rfl
  | commit =>
      obtain ⟨-, rfl⟩ := step_commit h
      rfl

theorem length_lh_step (h : s.step t call = some s') :
    s'.log.lh.length ≤ s.log.lh.length ∨
      (s.log.lh.length < LOGSIZE ∧ s.log.lh.length < s.log.size - 1 ∧
        s'.log.lh.length = s.log.lh.length + 1) := by
  cases call with
  | beginOp =>
      obtain ⟨-, m, hm, rfl⟩ := step_beginOp h
      obtain ⟨-, -, rfl⟩ := Mem.beginOp_eq_some.mp hm
      exact Or.inl (Nat.le_refl _)
  | logWrite blockno =>
      obtain ⟨bs, m, -, hm, rfl⟩ := step_logWrite h
      obtain ⟨hlog, hsize, -, rfl⟩ := Mem.logWrite_eq_ok.mp hm
      -- absorbed, or appended behind the test
      have hlen := length_absorb s.log.lh blockno
      by_cases hmem : blockno ∈ s.log.lh
      · rw [if_pos hmem] at hlen
        exact Or.inl (Nat.le_of_eq hlen)
      · rw [if_neg hmem] at hlen
        exact Or.inr ⟨hlog, hsize, hlen⟩
  | endOp =>
      obtain ⟨bs, m, c, -, hm, rfl⟩ := step_endOp h
      obtain ⟨-, -, rfl⟩ := Mem.endOp_eq_ok.mp hm
      exact Or.inl (Nat.le_refl _)
  | commit =>
      obtain ⟨-, rfl⟩ := step_commit h
      exact Or.inl (Nat.zero_le _)

theorem lh_fits_of_run {size : Nat} {es : List (τ × Call)}
    (hrun : Run.exec next (init size) es = some s) :
    s.log.size = size ∧ s.log.lh.length ≤ size - 1 ∧ s.log.lh.length ≤ LOGSIZE := by
  refine Run.exec_invariant
    (P := fun s : Trans τ => s.log.size = size ∧ s.log.lh.length ≤ size - 1 ∧
      s.log.lh.length ≤ LOGSIZE) ?_ hrun ⟨rfl, Nat.zero_le _, Nat.zero_le _⟩
  rintro s e s' ⟨hsize, hregion, hlog⟩ h
  have hsize' := size_step h
  rcases length_lh_step h with hle | ⟨hlt, hlt', heq⟩
  · exact ⟨hsize' ▸ hsize, by omega, by omega⟩
  · exact ⟨hsize' ▸ hsize, by omega, by omega⟩

/-!
## The reservation

`gap` is what `log.outstanding` counts beyond the threads inside operations.
Every call keeps it; a thread that stops between `begin_op` and `end_op` is
what moves it.
-/

section Reservation

open Tally

variable [Fintype τ]

def gap (s : Trans τ) : Int :=
  s.log.outstanding - tally inOp s.phase

theorem gap_step (h : s.step t call = some s') : gap s' = gap s := by
  unfold gap
  cases call with
  | beginOp =>
      obtain ⟨hp, m, hm, rfl⟩ := step_beginOp h
      obtain ⟨-, -, rfl⟩ := Mem.beginOp_eq_some.mp hm
      have hin := tally_update inOp s.phase t (.op [])
      rw [hp] at hin
      simp only [inOp] at hin ⊢
      omega
  | logWrite blockno =>
      obtain ⟨bs, m, hp, hm, rfl⟩ := step_logWrite h
      obtain ⟨-, -, -, rfl⟩ := Mem.logWrite_eq_ok.mp hm
      rw [tally_update_of_eq inOp s.phase t (by rw [hp]; rfl)]
  | endOp =>
      obtain ⟨bs, m, c, hp, hm, rfl⟩ := step_endOp h
      obtain ⟨-, -, rfl⟩ := Mem.endOp_eq_ok.mp hm
      have hin := tally_update inOp s.phase t (if c then .commit else .idle)
      have hc : inOp (if c then .commit else .idle) = 0 := by cases c <;> rfl
      rw [hp, hc] at hin
      simp only [inOp] at hin ⊢
      omega
  | commit =>
      obtain ⟨hp, rfl⟩ := step_commit h
      rw [tally_update_of_eq inOp s.phase t (by rw [hp]; rfl)]
      rfl

/-- Group commit, whatever the operations log: `outstanding` counts the
threads inside operations, and `commit()` runs in at most one thread, the one
whose `end_op` set `committing`. -/
structure Protocol (s : Trans τ) : Prop where
  gap_eq : gap s = 0
  committer_eq : tally committer s.phase = if s.log.committing then 1 else 0
  quiet : s.log.committing = true → s.log.outstanding = 0

omit [DecidableEq τ] in
theorem protocol_init (size : Nat) : Protocol (init size : Trans τ) where
  gap_eq := by
    have h0 : tally inOp (fun _ : τ => Phase.idle) = 0 := tally_eq_zero (fun _ => rfl)
    simp only [gap, init, Mem.init, h0]
    rfl
  committer_eq := tally_eq_zero (fun _ => rfl)
  quiet := fun h => absurd h Bool.false_ne_true

omit [DecidableEq τ] in
theorem ne_op_of_tally_inOp {phase : τ → Phase} (h : tally inOp phase = 0) (t : τ)
    (bs : List Nat) : phase t ≠ .op bs := by
  intro hp
  have hone := le_tally inOp phase t
  rw [hp] at hone
  simp only [inOp] at hone
  omega

namespace Protocol

variable {m : Mem}

omit [DecidableEq τ] in
theorem one_le_outstanding (hq : Protocol s) {bs : List Nat} (hp : s.phase t = .op bs) :
    1 ≤ s.log.outstanding := by
  have hone := le_tally inOp s.phase t
  rw [hp] at hone
  have hgap := hq.gap_eq
  unfold gap at hgap
  simp only [inOp] at hone
  omega

omit [DecidableEq τ] in
theorem committing_eq_false (hq : Protocol s) {bs : List Nat} (hp : s.phase t = .op bs) :
    s.log.committing = false := by
  cases hc : s.log.committing with
  | false => rfl
  | true =>
      have h0 := hq.quiet hc
      have h1 := hq.one_le_outstanding hp
      omega

omit [DecidableEq τ] in
theorem commit_alone (hq : Protocol s) (hp : s.phase t = .commit) :
    s.log.committing = true ∧ s.log.outstanding = 0 ∧ tally inOp s.phase = 0 := by
  have hone := le_tally committer s.phase t
  rw [hp] at hone
  have hcm := hq.committer_eq
  have hcommitting : s.log.committing = true := by
    by_contra hne
    rw [if_neg hne] at hcm
    simp only [committer] at hone
    omega
  have hzero := hq.quiet hcommitting
  have hgap := hq.gap_eq
  unfold gap at hgap
  exact ⟨hcommitting, hzero, by omega⟩

theorem step (hq : Protocol s) {e : τ × Call} (h : next s e = some s') : Protocol s' := by
  have hgap : gap s' = 0 := (gap_step h).trans hq.gap_eq
  obtain ⟨t, call⟩ := e
  cases call with
  | beginOp =>
      obtain ⟨hp, m, hm, rfl⟩ := step_beginOp h
      obtain ⟨hc, -, rfl⟩ := Mem.beginOp_eq_some.mp hm
      refine ⟨hgap, ?_, ?_⟩
      · rw [tally_update_of_eq committer s.phase t (by rw [hp]; rfl)]
        exact hq.committer_eq
      · intro h
        simp only [hc] at h
        exact absurd h Bool.false_ne_true
  | logWrite blockno =>
      obtain ⟨bs, m, hp, hm, rfl⟩ := step_logWrite h
      obtain ⟨-, -, -, rfl⟩ := Mem.logWrite_eq_ok.mp hm
      refine ⟨hgap, ?_, hq.quiet⟩
      rw [tally_update_of_eq committer s.phase t (by rw [hp]; rfl)]
      exact hq.committer_eq
  | endOp =>
      obtain ⟨bs, m, c, hp, hm, rfl⟩ := step_endOp h
      obtain ⟨hc, hcommit, rfl⟩ := Mem.endOp_eq_ok.mp hm
      have hcm := tally_update committer s.phase t (if c then .commit else .idle)
      have hend : committer (if c then .commit else .idle) = if c then 1 else 0 := by
        cases c <;> rfl
      rw [hp, show committer (.op bs) = 0 from rfl] at hcm
      have hcm0 : tally committer s.phase = 0 := by
        have h := hq.committer_eq
        rw [hc, if_neg Bool.false_ne_true] at h
        exact h
      refine ⟨hgap, ?_, ?_⟩
      · dsimp only
        rw [← hend]
        omega
      · -- the last operation to end is the one that commits
        intro h
        simp only at h
        rw [h] at hcommit
        exact of_decide_eq_true hcommit.symm
  | commit =>
      obtain ⟨hp, rfl⟩ := step_commit h
      have hcm := tally_update committer s.phase t .idle
      have hcm0 := hq.committer_eq
      rw [hp] at hcm
      simp only [committer] at hcm
      rw [if_pos (hq.commit_alone hp).1] at hcm0
      refine ⟨hgap, ?_, fun h => absurd h Bool.false_ne_true⟩
      show tally committer (Function.update s.phase t .idle) = if false = true then 1 else 0
      rw [if_neg Bool.false_ne_true]
      omega

end Protocol

theorem protocol_of_run {size : Nat} {es : List (τ × Call)}
    (hrun : Run.exec next (init size) es = some s) : Protocol s :=
  Run.exec_invariant (fun _ _ _ hq h => hq.step h) hrun (protocol_init size)

/-- The reservation along a run whose operations keep to their budget:
`outstanding` counts the threads inside operations, `commit()` runs alone and
only once they have all ended, each operation's blocks are in the header,
and the header with what the operations may still add fits in `LOGSIZE`. -/
structure Reserved (s : Trans τ) : Prop where
  gap_eq : gap s = 0
  committer_eq : tally committer s.phase = if s.log.committing then 1 else 0
  quiet : s.log.committing = true → s.log.outstanding = 0
  blocks : ∀ t bs, s.phase t = .op bs → bs.Nodup ∧ bs ⊆ s.log.lh ∧ bs.length ≤ MAXOPBLOCKS
  fits : s.log.lh.length + tally slack s.phase ≤ LOGSIZE

omit [DecidableEq τ] in
theorem reserved_init (size : Nat) : Reserved (init size : Trans τ) where
  gap_eq := (protocol_init size).gap_eq
  committer_eq := (protocol_init size).committer_eq
  quiet := (protocol_init size).quiet
  blocks := fun _ _ h => absurd h (by simp [init])
  fits := by
    have h0 : tally slack (fun _ : τ => Phase.idle) = 0 := tally_eq_zero (fun _ => rfl)
    simp only [init, Mem.init, h0, List.length_nil]
    exact Nat.zero_le _

namespace Reserved

variable {m : Mem}

omit [DecidableEq τ] in
theorem protocol (hr : Reserved s) : Protocol s :=
  ⟨hr.gap_eq, hr.committer_eq, hr.quiet⟩

/-! Each call keeps the protocol (`Protocol.step`); what is left is the blocks
of the operations and the room they reserve. -/

omit [Fintype τ] in
theorem blocks_update {ph : τ → Phase} {p : Phase} {P : List Nat → Prop}
    (hold : ∀ t' bs, ph t' = .op bs → P bs) (hnew : ∀ bs, p = .op bs → P bs) :
    ∀ t' bs, Function.update ph t p t' = .op bs → P bs := by
  intro t' bs hbs
  by_cases ht : t' = t
  · subst ht
    rw [Function.update_self] at hbs
    exact hnew bs hbs
  · rw [Function.update_of_ne ht] at hbs
    exact hold t' bs hbs

theorem beginOp (hr : Reserved s) (hq : Protocol ⟨m, Function.update s.phase t (.op [])⟩)
    (hp : s.phase t = .idle) (hm : s.log.beginOp = some m) :
    Reserved ⟨m, Function.update s.phase t (.op [])⟩ := by
  obtain ⟨-, hroom, rfl⟩ := Mem.beginOp_eq_some.mp hm
  have hsl := tally_update slack s.phase t (.op [])
  have hbound := tally_le_mul MAXOPBLOCKS slack_le_inOp s.phase
  have hgap := hr.gap_eq
  rw [hp] at hsl
  unfold gap at hgap
  simp only [slack, List.length_nil, Nat.sub_zero] at hsl
  refine ⟨hq.gap_eq, hq.committer_eq, hq.quiet, blocks_update hr.blocks fun bs hbs => ?_, ?_⟩
  · rw [Phase.op.injEq] at hbs
    subst hbs
    exact ⟨List.nodup_nil, List.nil_subset _, Nat.zero_le _⟩
  · -- `begin_op` admitted the call: `MAXOPBLOCKS` more fit
    have hfits := hr.fits
    simp only [MAXOPBLOCKS, LOGSIZE] at hroom hfits hbound hsl ⊢
    omega

theorem logWrite (hr : Reserved s) {bs : List Nat} {blockno : Nat}
    (hq : Protocol ⟨m, Function.update s.phase t (.op (bs.insert blockno))⟩)
    (hp : s.phase t = .op bs) (hm : s.log.logWrite blockno = .ok m)
    (hb : blockno ∈ bs ∨ bs.length < MAXOPBLOCKS) :
    Reserved ⟨m, Function.update s.phase t (.op (bs.insert blockno))⟩ := by
  obtain ⟨-, -, -, rfl⟩ := Mem.logWrite_eq_ok.mp hm
  obtain ⟨hnd, hsub, hlen⟩ := hr.blocks t bs hp
  by_cases hbs : blockno ∈ bs
  · -- a block this operation logged already: nothing changes
    rw [List.insert_of_mem hbs, absorb_of_mem (hsub hbs), ← hp, Function.update_eq_self]
    exact hr
  have hlt : bs.length < MAXOPBLOCKS := hb.resolve_left hbs
  rw [List.insert_of_not_mem hbs] at hq ⊢
  have hsl := tally_update slack s.phase t (.op (blockno :: bs))
  rw [hp] at hsl
  simp only [slack, List.length_cons] at hsl
  refine ⟨hq.gap_eq, hq.committer_eq, hq.quiet, blocks_update (fun t' bs' hbs' => ?_) fun bs' hbs' => ?_, ?_⟩
  · -- another operation's blocks stay in the header
    obtain ⟨hnd', hsub', hlen'⟩ := hr.blocks t' bs' hbs'
    exact ⟨hnd', List.Subset.trans hsub' (subset_absorb _ _), hlen'⟩
  · rw [Phase.op.injEq] at hbs'
    subst hbs'
    refine ⟨List.nodup_cons.mpr ⟨hbs, hnd⟩, ?_, by simp only [List.length_cons]; omega⟩
    exact List.cons_subset.mpr ⟨mem_absorb _ _, List.Subset.trans hsub (subset_absorb _ _)⟩
  · -- a new block takes one of the operation's reserved slots
    have hfits := hr.fits
    have hslt := le_tally slack s.phase t
    rw [hp] at hslt
    simp only [slack] at hslt
    simp only [length_absorb]
    split <;> omega

theorem endOp (hr : Reserved s) {bs : List Nat} {c : Bool}
    (hq : Protocol ⟨m, Function.update s.phase t (if c then .commit else .idle)⟩)
    (hp : s.phase t = .op bs) (hm : s.log.endOp = .ok (m, c)) :
    Reserved ⟨m, Function.update s.phase t (if c then .commit else .idle)⟩ := by
  obtain ⟨-, -, rfl⟩ := Mem.endOp_eq_ok.mp hm
  have hsl := tally_update slack s.phase t (if c then .commit else .idle)
  have hend : slack (if c then .commit else .idle) = 0 := by
    cases c <;> rfl
  rw [hp, hend] at hsl
  simp only [slack] at hsl
  refine ⟨hq.gap_eq, hq.committer_eq, hq.quiet, blocks_update hr.blocks fun bs' hbs' => ?_, ?_⟩
  · cases c <;> cases hbs'
  · have hfits := hr.fits
    simp only at hfits ⊢
    omega

theorem commit (hr : Reserved s) (hq : Protocol ⟨s.log.commitDone, Function.update s.phase t .idle⟩)
    (hp : s.phase t = .commit) :
    Reserved ⟨s.log.commitDone, Function.update s.phase t .idle⟩ := by
  -- `commit()` runs while no operation is in progress
  have hzero := (hr.protocol.commit_alone hp).2.2
  refine ⟨hq.gap_eq, hq.committer_eq, hq.quiet,
    blocks_update (fun t' bs hbs => absurd hbs (ne_op_of_tally_inOp hzero t' bs)) fun bs hbs => ?_, ?_⟩
  · cases hbs
  · rw [tally_update_of_eq slack s.phase t (by rw [hp]; rfl)]
    have hbound := tally_le_mul MAXOPBLOCKS slack_le_inOp s.phase
    rw [hzero] at hbound
    simp only [Mem.commitDone, List.length_nil]
    omega

theorem step (hr : Reserved s) {e : τ × Call} (hb : s.InBudget e) (h : next s e = some s') :
    Reserved s' := by
  have hq := hr.protocol.step h
  obtain ⟨t, call⟩ := e
  cases call with
  | beginOp =>
      obtain ⟨hp, m, hm, rfl⟩ := step_beginOp h
      exact hr.beginOp hq hp hm
  | logWrite blockno =>
      obtain ⟨bs, m, hp, hm, rfl⟩ := step_logWrite h
      have hb' : blockno ∈ bs ∨ bs.length < MAXOPBLOCKS := by
        simp only [InBudget, hp, Phase.MayLog] at hb
        exact hb
      exact hr.logWrite hq hp hm hb'
  | endOp =>
      obtain ⟨bs, m, c, hp, hm, rfl⟩ := step_endOp h
      exact hr.endOp hq hp hm
  | commit =>
      obtain ⟨hp, rfl⟩ := step_commit h
      exact hr.commit hq hp

omit [DecidableEq τ] in
theorem logWrite_ok (hr : Reserved s) (hsize : LOGSIZE < s.log.size) {bs : List Nat}
    (hp : s.phase t = .op bs) (hlt : bs.length < MAXOPBLOCKS) (blockno : Nat) :
    ∃ m, s.log.logWrite blockno = .ok m := by
  have hslt := le_tally slack s.phase t
  rw [hp] at hslt
  simp only [slack] at hslt
  have hfits := hr.fits
  have hout := hr.protocol.one_le_outstanding hp
  exact ⟨_, Mem.logWrite_eq_ok.mpr ⟨by omega, by omega, hout, rfl⟩⟩

omit [DecidableEq τ] in
theorem endOp_ok (hr : Reserved s) {bs : List Nat} (hp : s.phase t = .op bs) :
    ∃ m c, s.log.endOp = .ok (m, c) :=
  ⟨_, _, Mem.endOp_eq_ok.mpr ⟨hr.protocol.committing_eq_false hp, rfl, rfl⟩⟩

end Reserved

theorem reserved_of_run {size : Nat} {es : List (τ × Call)}
    (hrun : Run.exec next (init size) es = some s)
    (hb : Run.Always next InBudget (init size) es) : Reserved s :=
  Run.exec_invariant_of_always (fun _ _ _ hb hr h => hr.step hb h) hrun hb (reserved_init size)

end Reservation

/-!
## The reservation and `mkfs`'s log

`begin_op` reserves `LOGSIZE` blocks of header, but `mkfs` gives the log
`nlog = LOGSIZE` blocks, one of them the header block itself.
-/

/-- Three operations admitted together; the first two log ten blocks each,
the third nine. -/
def fullLogRun : List (Fin 3 × Call) :=
  [(0, .beginOp), (1, .beginOp), (2, .beginOp)] ++
    (List.range 10).map (fun b => (0, .logWrite (100 + b))) ++
    (List.range 10).map (fun b => (1, .logWrite (110 + b))) ++
    (List.range 9).map (fun b => (2, .logWrite (120 + b)))

theorem log_write_panics_within_reservation :
    ∃ s, Run.exec next (init nlog : Trans (Fin 3)) fullLogRun = some s ∧
      Run.Always next InBudget (init nlog : Trans (Fin 3)) fullLogRun ∧
      s.InBudget (2, .logWrite 129) ∧ s.log.logWrite 129 = .error "too big a transaction" := by
  have hb : Run.Always next InBudget (init nlog : Trans (Fin 3)) fullLogRun := by
    decide +kernel
  have hend : (Run.exec next (init nlog : Trans (Fin 3)) fullLogRun).map (fun s => decide
      (s.InBudget (2, .logWrite 129) ∧ s.log.logWrite 129 = .error "too big a transaction")) =
      some true := by
    decide +kernel
  obtain ⟨s, hs, hp⟩ := Run.exists_exec_of_map_decide _ hend
  exact ⟨s, hs, hb, hp⟩

end Trans

end Log

end Xv6
