import Mathlib.Logic.Function.Basic

/-!
# Disks written block by block

A disk is the content of every numbered block, and what a program does to it
is the list of block writes it issues, in order, each of which may read the
disk as it finds it.  A crash keeps a prefix of that list.

The loop `for (t = 0; t < n; t++)` that writes block `dst t` is the shape of
the copy loops of a write-ahead log.  When its targets are distinct and no
value it writes reads a target, each target ends with the value read from the
disk the loop started on, and every other block is left alone.
-/

namespace Disk

variable {α : Type}

/-- Issue the writes `ws` in order. -/
def run (ws : List ((Nat → α) → Nat → α)) (d : Nat → α) : Nat → α :=
  ws.foldl (fun d w => w d) d

@[simp] theorem run_nil (d : Nat → α) : run [] d = d := rfl

@[simp] theorem run_cons (w : (Nat → α) → Nat → α) (ws : List ((Nat → α) → Nat → α))
    (d : Nat → α) : run (w :: ws) d = run ws (w d) := rfl

theorem run_append (ws vs : List ((Nat → α) → Nat → α)) (d : Nat → α) :
    run (ws ++ vs) d = run vs (run ws d) :=
  List.foldl_append

/-- The loop `for (t = 0; t < n; t++)` writing block `dst t` with `val t`,
read from the disk as that iteration finds it. -/
def writeLoop (n : Nat) (dst : Nat → Nat) (val : Nat → (Nat → α) → α) :
    List ((Nat → α) → Nat → α) :=
  (List.range n).map (fun t d => Function.update d (dst t) (val t d))

variable {dst : Nat → Nat} {val : Nat → (Nat → α) → α}

@[simp] theorem length_writeLoop (n : Nat) : (writeLoop n dst val).length = n := by
  simp [writeLoop]

theorem writeLoop_succ (n : Nat) :
    writeLoop (n + 1) dst val =
      writeLoop n dst val ++ [fun d => Function.update d (dst n) (val n d)] := by
  simp [writeLoop, List.range_succ]

theorem writeLoop_take (j n : Nat) :
    (writeLoop n dst val).take j = writeLoop (min j n) dst val := by
  rw [writeLoop, ← List.map_take, List.take_range, writeLoop]

theorem run_writeLoop_of_ne {n b : Nat} (hb : ∀ t < n, dst t ≠ b) (d : Nat → α) :
    run (writeLoop n dst val) d b = d b := by
  induction n with
  | zero => rfl
  | succ n ih =>
      rw [writeLoop_succ, run_append, run_cons, run_nil,
        Function.update_of_ne (hb n (Nat.lt_succ_self n)).symm]
      exact ih (fun t ht => hb t (Nat.lt_succ_of_lt ht))

/-- `f` reads no block that satisfies `W`. -/
def ReadsOff (W : Nat → Prop) (f : (Nat → α) → α) : Prop :=
  ∀ d d' : Nat → α, (∀ b, ¬W b → d b = d' b) → f d = f d'

/-- The blocks the first `N` iterations target. -/
def Targets (N : Nat) (dst : Nat → Nat) (b : Nat) : Prop :=
  ∃ u < N, dst u = b

theorem run_writeLoop_self {N : Nat}
    (hinj : ∀ t u, t < N → u < N → dst t = dst u → t = u)
    (hval : ∀ t < N, ReadsOff (Targets N dst) (val t)) :
    ∀ n ≤ N, ∀ t < n, ∀ d : Nat → α, run (writeLoop n dst val) d (dst t) = val t d := by
  intro n
  induction n with
  | zero =>
      intro _ t ht
      exact absurd ht (Nat.not_lt_zero t)
  | succ n ih =>
      intro hn t ht d
      rw [writeLoop_succ, run_append, run_cons, run_nil]
      by_cases htn : t = n
      · subst htn
        rw [Function.update_self]
        -- the iterations before this one wrote only targets
        apply hval t (by omega)
        intro b hb
        exact run_writeLoop_of_ne (fun u hu h => hb ⟨u, by omega, h⟩) d
      · rw [Function.update_of_ne (fun h => htn (hinj t n (by omega) (by omega) h))]
        exact ih (by omega) t (by omega) d

end Disk
