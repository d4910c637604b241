import Xv6.Fs.Trans

/-!
# Group commit

`end_op` starts `commit()` when the last operation in progress ends, and
`commit()` writes the blocks of the header `lh` to the log and home.  The
design comment of `log.c` promises that a commit never writes the block of an
operation that has not finished.

Along any interleaving of `begin_op`, `log_write`, `end_op` and `commit()` by
any number of threads, whatever the operations log, the protocol of `Trans`
holds (`Trans.protocol_of_run`): `commit()` runs with `outstanding` zero and
no operation in progress, and an operation's `end_op` finds `committing`
clear.  What a run leaves in the header is read off its events: every block
of `lh` was logged by some `log_write` of the run, and every `log_write` by a
thread now outside an operation is followed in the run by that thread's
`end_op`.
-/

namespace Xv6

namespace Log

namespace Trans

open Tally

variable {τ : Type}

/-- Every `log_write` of thread `t` in `es` is followed, later in `es`, by an
`end_op` of `t`. -/
def Ended (es : List (τ × Call)) (t : τ) : Prop :=
  ∀ (i : Nat) (blockno : Nat), es[i]? = some (t, Call.logWrite blockno) →
    ∃ j : Nat, i < j ∧ es[j]? = some (t, Call.endOp)

/-- Some `log_write` of `es` logs `blockno`. -/
def Logged (es : List (τ × Call)) (blockno : Nat) : Prop :=
  ∃ (i : Nat) (t : τ), es[i]? = some (t, Call.logWrite blockno)

variable {es : List (τ × Call)} {s s' : Trans τ}

theorem Ended.append {t : τ} (h : Ended es t) {e : τ × Call}
    (he : ∀ blockno, e ≠ (t, Call.logWrite blockno)) : Ended (es ++ [e]) t := by
  intro i blockno hi
  rcases Nat.lt_or_ge i es.length with hlt | hge
  · rw [List.getElem?_append_left hlt] at hi
    obtain ⟨j, hij, hj⟩ := h i blockno hi
    have hjlt : j < es.length := (List.getElem?_eq_some_iff.mp hj).1
    exact ⟨j, hij, by rw [List.getElem?_append_left hjlt]; exact hj⟩
  · -- the new event is not a `log_write` of `t`
    rw [List.getElem?_append_right hge] at hi
    obtain ⟨hlen, hx⟩ := List.getElem?_eq_some_iff.mp hi
    rw [List.getElem_singleton] at hx
    exact absurd hx (he blockno)

theorem ended_append_endOp (es : List (τ × Call)) (t : τ) : Ended (es ++ [(t, Call.endOp)]) t := by
  intro i blockno hi
  have hlt : i < es.length := by
    by_contra hge
    rw [List.getElem?_append_right (Nat.le_of_not_lt hge)] at hi
    obtain ⟨hlen, hx⟩ := List.getElem?_eq_some_iff.mp hi
    rw [List.getElem_singleton] at hx
    cases hx
  exact ⟨es.length, hlt, List.getElem?_concat_length⟩

theorem Logged.append {blockno : Nat} (h : Logged es blockno) (e : τ × Call) :
    Logged (es ++ [e]) blockno := by
  obtain ⟨i, t, hi⟩ := h
  refine ⟨i, t, ?_⟩
  rw [List.getElem?_append_left (List.getElem?_eq_some_iff.mp hi).1]
  exact hi

theorem logged_append_logWrite (es : List (τ × Call)) (t : τ) (blockno : Nat) :
    Logged (es ++ [(t, Call.logWrite blockno)]) blockno :=
  ⟨es.length, t, List.getElem?_concat_length⟩

/-- What the events `es` of a run leave in the state `s` it reaches: the
threads outside an operation have ended every operation they logged in, and
the header holds only blocks the run logged. -/
structure History (es : List (τ × Call)) (s : Trans τ) : Prop where
  ended : ∀ t, (∀ bs, s.phase t ≠ .op bs) → Ended es t
  logged : ∀ blockno ∈ s.log.lh, Logged es blockno

theorem history_nil (size : Nat) : History [] (init size : Trans τ) where
  ended := fun _ _ i _ hi => absurd hi (by simp)
  logged := fun _ hb => absurd hb (by simp [init, Mem.init])

variable [DecidableEq τ]

theorem History.other (hh : History es s) {t t' : τ} (htt : t' ≠ t) (call : Call)
    {p : Phase} (ht' : ∀ bs, Function.update s.phase t p t' ≠ .op bs) :
    Ended (es ++ [(t, call)]) t' := by
  rw [Function.update_of_ne htt] at ht'
  exact (hh.ended t' ht').append (fun _ he => htt (congrArg Prod.fst he).symm)

theorem History.step (hh : History es s) {e : τ × Call} (h : next s e = some s') :
    History (es ++ [e]) s' := by
  obtain ⟨t, call⟩ := e
  cases call with
  | beginOp =>
      obtain ⟨-, m, hm, rfl⟩ := step_beginOp h
      obtain ⟨-, -, rfl⟩ := Mem.beginOp_eq_some.mp hm
      refine ⟨fun t' ht' => ?_, fun b hb => (hh.logged b hb).append _⟩
      by_cases htt : t' = t
      · subst htt
        exact absurd (Function.update_self _ _ _) (ht' [])
      · exact hh.other htt .beginOp ht'
  | logWrite blockno =>
      obtain ⟨bs, m, -, hm, rfl⟩ := step_logWrite h
      obtain ⟨-, -, -, rfl⟩ := Mem.logWrite_eq_ok.mp hm
      refine ⟨fun t' ht' => ?_, fun b hb => ?_⟩
      · by_cases htt : t' = t
        · subst htt
          exact absurd (Function.update_self _ _ _) (ht' _)
        · exact hh.other htt (.logWrite blockno) ht'
      · -- the header gains at most the block just logged
        rcases mem_of_mem_absorb hb with hb | rfl
        · exact (hh.logged b hb).append _
        · exact logged_append_logWrite es t b
  | endOp =>
      obtain ⟨bs, m, c, -, hm, rfl⟩ := step_endOp h
      obtain ⟨-, -, rfl⟩ := Mem.endOp_eq_ok.mp hm
      refine ⟨fun t' ht' => ?_, fun b hb => (hh.logged b hb).append _⟩
      by_cases htt : t' = t
      · subst htt
        exact ended_append_endOp es t'
      · exact hh.other htt .endOp ht'
  | commit =>
      obtain ⟨hp, rfl⟩ := step_commit h
      refine ⟨fun t' ht' => ?_, fun b hb => absurd hb (by simp [Mem.commitDone])⟩
      by_cases htt : t' = t
      · -- the committing thread ended its operation before it committed
        subst htt
        have hout : ∀ bs, s.phase t' ≠ .op bs := by
          intro bs h
          rw [hp] at h
          cases h
        exact (hh.ended t' hout).append (fun _ he => by cases he)
      · exact hh.other htt .commit ht'

theorem history_of_run {size : Nat} (hrun : Run.exec next (init size) es = some s) :
    History es s := by
  have h : History ([] ++ es) s :=
    Run.exec_trace_invariant
      (fun es s _ _ (hh : History es s) h => hh.step h) hrun (history_nil size)
  rwa [List.nil_append] at h

section Commit

variable [Fintype τ]

/-- Group commit along any interleaving of the log calls by any number of
threads: `committing` implies `outstanding` is zero, `begin_op` is admitted
only while it is clear, an operation's `end_op` finds it clear and does not
panic, and when a thread runs `commit()` no operation is in progress, every
block of the header was logged in the run, and every `log_write` of such a
block is followed in the run by the `end_op` of the thread that made it. -/
theorem commit_follows_ended_operations {size : Nat}
    (hrun : Run.exec next (init size) es = some s) :
    (s.log.committing = true → s.log.outstanding = 0) ∧
      (∀ t s', s.step t .beginOp = some s' → s.log.committing = false) ∧
      (∀ t bs, s.phase t = .op bs →
        s.log.committing = false ∧ ∃ m c, s.log.endOp = .ok (m, c)) ∧
      (∀ t s', s.step t .commit = some s' →
        s.log.outstanding = 0 ∧ (∀ t' bs, s.phase t' ≠ .op bs) ∧
          ∀ blockno ∈ s.log.lh, Logged es blockno ∧
            ∀ (i : Nat) t', es[i]? = some (t', Call.logWrite blockno) →
              ∃ j : Nat, i < j ∧ es[j]? = some (t', Call.endOp)) := by
  have hq := protocol_of_run hrun
  have hh := history_of_run hrun
  refine ⟨hq.quiet, ?_, ?_, ?_⟩
  · intro t s' h
    obtain ⟨-, m, hm, -⟩ := step_beginOp h
    exact (Mem.beginOp_eq_some.mp hm).1
  · intro t bs hp
    have hc := hq.committing_eq_false hp
    exact ⟨hc, _, _, Mem.endOp_eq_ok.mpr ⟨hc, rfl, rfl⟩⟩
  · intro t s' h
    obtain ⟨hp, -⟩ := step_commit h
    obtain ⟨-, hzero, hidle⟩ := hq.commit_alone hp
    have hnoop := ne_op_of_tally_inOp hidle
    refine ⟨hzero, hnoop, fun blockno hb => ⟨hh.logged blockno hb, ?_⟩⟩
    intro i t' hi
    exact hh.ended t' (hnoop t') i blockno hi

/-- Two threads each log a block and end; the second `end_op` commits. -/
def twoOpRun : List (Fin 2 × Call) :=
  [(0, .beginOp), (1, .beginOp), (0, .logWrite 7), (1, .logWrite 8), (1, .logWrite 7),
    (0, .endOp), (1, .endOp)]

theorem commit_follows_ended_operations_two_threads :
    ∃ s, Run.exec next (init nlog : Trans (Fin 2)) twoOpRun = some s ∧
      s.phase 1 = .commit ∧ s.log.lh = [7, 8] ∧
      ((s.log.committing = true → s.log.outstanding = 0) ∧
        (∀ t s', s.step t .beginOp = some s' → s.log.committing = false) ∧
        (∀ t bs, s.phase t = .op bs →
          s.log.committing = false ∧ ∃ m c, s.log.endOp = .ok (m, c)) ∧
        (∀ t s', s.step t .commit = some s' →
          s.log.outstanding = 0 ∧ (∀ t' bs, s.phase t' ≠ .op bs) ∧
            ∀ blockno ∈ s.log.lh, Logged twoOpRun blockno ∧
              ∀ (i : Nat) t', twoOpRun[i]? = some (t', Call.logWrite blockno) →
                ∃ j : Nat, i < j ∧ twoOpRun[j]? = some (t', Call.endOp))) := by
  have hend : (Run.exec next (init nlog : Trans (Fin 2)) twoOpRun).map
      (fun s => decide (s.phase 1 = .commit ∧ s.log.lh = [7, 8])) = some true := by
    decide +kernel
  obtain ⟨s, hs, hp⟩ := Run.exists_exec_of_map_decide _ hend
  exact ⟨s, hs, hp.1, hp.2, commit_follows_ended_operations hs⟩

end Commit

end Trans

end Log

end Xv6
