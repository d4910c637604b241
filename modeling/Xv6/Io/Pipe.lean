import Xv6.Library.Ring
import Xv6.Library.Run

/-!
# Pipes

`struct pipe` keeps its bytes in a ring of `PIPESIZE` cells with two
free-running `uint` counters: `nread` bytes have been read and `nwrite`
written.  `pipewrite` copies its bytes one by one while the pipe is not full
and sleeps when it is, so a write by one process can be interleaved with
reads and other writes; `piperead` sleeps while the pipe is empty and its
write end open, then copies what there is in one go.

Each part of a call between two sleeps holds `p->lock`, so it is one step
here.  A process asleep in `pipewrite` may be woken at any time: it checks
the pipe again when it runs, so a spurious wakeup changes nothing, and the
steps below allow every order of wakeups.

The pipe holds the queue `contents`, the cells from `nread` up to `nwrite`.
Its invariant is that `nwrite - nread`, in `uint`, is at most `PIPESIZE`; the
system's is that the bytes the writes have stored are the bytes the reads
have returned followed by the pipe's contents.
-/

namespace Xv6

/-- `PIPESIZE`. -/
def PIPESIZE : ℕ := 512

instance : NeZero PIPESIZE :=
  ⟨by decide⟩

/-- `struct pipe`, without its lock. -/
structure Pipe where
  data : Fin PIPESIZE → UInt8
  nread : UInt32
  nwrite : UInt32
  readopen : Bool
  writeopen : Bool

namespace Pipe

open Function

/-- The cell `x % PIPESIZE` of `data`. -/
def slot (x : UInt32) : Fin PIPESIZE :=
  Ring.cell PIPESIZE x.toNat

/-- The pipe `pipealloc` sets up in the page `kalloc` returned. -/
def pipealloc (data : Fin PIPESIZE → UInt8) : Pipe where
  data := data
  nread := 0
  nwrite := 0
  readopen := true
  writeopen := true

/-- `p->data[p->nwrite++ % PIPESIZE] = b`. -/
def put (p : Pipe) (b : UInt8) : Pipe :=
  { p with data := update p.data (slot p.nwrite) b, nwrite := p.nwrite + 1 }

/-- The `for` loop of `pipewrite` over the bytes `bs` it has still to write,
up to the point where it finds the pipe full: the pipe after, and how many
bytes it wrote. -/
def writeLoop (p : Pipe) : List UInt8 → Pipe × ℕ
  | [] => (p, 0)
  | b :: bs =>
      if p.nwrite = p.nread + PIPESIZE.toUInt32 then
        (p, 0)
      else
        let r := writeLoop (p.put b) bs
        (r.1, r.2 + 1)

/-- Where a run of `pipewrite` stops: it returns, or it sleeps in
`sleep(&p->nwrite)` with bytes still to write. -/
inductive WriteStop where
  | returns (r : Int)
  | sleeps (rest : List UInt8)
deriving DecidableEq, Repr

/-- `pipewrite(p, addr, n)` from the bytes `bs` of `addr` still to write, by
a process whose `killed` flag is `killed`, up to the point where it returns
or sleeps: the pipe after, how many bytes it wrote, and where it stopped. -/
def pipewrite (p : Pipe) (killed : Bool) (n : Int) (bs : List UInt8) : Pipe × ℕ × WriteStop :=
  let r := writeLoop p bs
  if r.2 = bs.length then
    (r.1, r.2, .returns n)
  else if !r.1.readopen || killed then
    (r.1, r.2, .returns (-1))
  else
    (r.1, r.2, .sleeps (bs.drop r.2))

/-- The copying loop of `piperead`, for at most `n` bytes: the pipe after and
the bytes copied to `addr`. -/
def readLoop (p : Pipe) : ℕ → Pipe × List UInt8
  | 0 => (p, [])
  | n + 1 =>
      if p.nread = p.nwrite then
        (p, [])
      else
        let r := readLoop { p with nread := p.nread + 1 } n
        (r.1, p.data (slot p.nread) :: r.2)

/-- `piperead(p, addr, n)` by a process whose `killed` flag is `killed`:
`none` while it sleeps in `sleep(&p->nread)`, else the pipe after, the value
it returns and the bytes it copied to `addr`. -/
def piperead (p : Pipe) (killed : Bool) (n : Int) : Option (Pipe × Int × List UInt8) :=
  if p.nread = p.nwrite ∧ p.writeopen then
    if killed then some (p, -1, []) else none
  else
    let r := readLoop p n.toNat
    some (r.1, r.2.length, r.2)

/-- `pipeclose(p, writable)`; freeing the page once both ends are closed is
not modelled. -/
def pipeclose (p : Pipe) (writable : Bool) : Pipe :=
  if writable then { p with writeopen := false } else { p with readopen := false }

/-!
## The queue a pipe holds
-/

/-- The bytes in the pipe, oldest first. -/
def contents (p : Pipe) : List UInt8 :=
  Ring.view p.data p.nread.toNat (p.nwrite - p.nread).toNat

/-- A pipe holds at most `PIPESIZE` bytes. -/
def Wf (p : Pipe) : Prop :=
  (p.nwrite - p.nread).toNat ≤ PIPESIZE

variable {p : Pipe}

theorem PIPESIZE_dvd : PIPESIZE ∣ 2 ^ 32 :=
  ⟨2 ^ 23, by decide⟩

theorem full_iff : p.nwrite = p.nread + PIPESIZE.toUInt32 ↔ (p.nwrite - p.nread).toNat = PIPESIZE :=
  Ring.eq_add_ofNat_iff (by decide)

theorem empty_iff : p.nread = p.nwrite ↔ (p.nwrite - p.nread).toNat = 0 := by
  rw [Ring.toNat_sub_eq_zero_iff, eq_comm]

theorem put_spec (hwf : p.Wf) (hfull : ¬p.nwrite = p.nread + PIPESIZE.toUInt32) (b : UInt8) :
    (p.put b).Wf ∧ (p.put b).contents = p.contents ++ [b] := by
  have hd : (p.nwrite - p.nread).toNat < PIPESIZE := lt_of_le_of_ne hwf (mt full_iff.mpr hfull)
  have hlen : (p.nwrite + 1 - p.nread).toNat = (p.nwrite - p.nread).toNat + 1 :=
    Ring.toNat_add_one_sub (lt_of_lt_of_le (Nat.succ_lt_succ hd) (by decide))
  -- `nwrite` names the cell right after the queue
  have hslot : slot p.nwrite = Ring.cell PIPESIZE (p.nread.toNat + (p.nwrite - p.nread).toNat) :=
    Ring.cell_toNat_eq_add_sub PIPESIZE_dvd p.nwrite p.nread
  refine ⟨?_, ?_⟩
  · show (p.nwrite + 1 - p.nread).toNat ≤ PIPESIZE
    omega
  · simp only [contents, put, hlen, hslot]
    exact Ring.view_push hd b

theorem get_spec (hwf : p.Wf) (hempty : ¬p.nread = p.nwrite) :
    ({ p with nread := p.nread + 1 } : Pipe).Wf ∧
      p.contents = p.data (slot p.nread) :: ({ p with nread := p.nread + 1 } : Pipe).contents := by
  have hd : (p.nwrite - p.nread).toNat ≠ 0 := mt empty_iff.mpr hempty
  have hlen : (p.nwrite - (p.nread + 1)).toNat = (p.nwrite - p.nread).toNat - 1 :=
    Ring.toNat_sub_add_one (Ne.symm hempty)
  obtain ⟨d, hd'⟩ : ∃ d, (p.nwrite - p.nread).toNat = d + 1 := ⟨_, (Nat.succ_pred_eq_of_ne_zero hd).symm⟩
  refine ⟨?_, ?_⟩
  · show (p.nwrite - (p.nread + 1)).toNat ≤ PIPESIZE
    unfold Wf at hwf
    omega
  · simp only [contents, hlen, hd', Nat.add_sub_cancel, UInt32.toNat_add, UInt32.toNat_one,
      Ring.view_mod PIPESIZE_dvd]
    exact Ring.view_pop

theorem writeLoop_spec (bs : List UInt8) :
    ∀ p : Pipe, p.Wf →
      (writeLoop p bs).1.Wf ∧ (writeLoop p bs).1.contents = p.contents ++ bs.take (writeLoop p bs).2 := by
  induction bs with
  | nil =>
      intro p hwf
      simp [writeLoop, hwf]
  | cons b bs ih =>
      intro p hwf
      by_cases hfull : p.nwrite = p.nread + PIPESIZE.toUInt32
      · simp [writeLoop, hfull, hwf]
      · obtain ⟨hwf', hput⟩ := put_spec hwf hfull b
        obtain ⟨hwf'', hcont⟩ := ih (p.put b) hwf'
        simp only [writeLoop, hfull, if_false, List.take_succ_cons]
        exact ⟨hwf'', by rw [hcont, hput, List.append_assoc, List.singleton_append]⟩

theorem readLoop_spec (n : ℕ) :
    ∀ p : Pipe, p.Wf → (readLoop p n).1.Wf ∧ p.contents = (readLoop p n).2 ++ (readLoop p n).1.contents := by
  induction n with
  | zero =>
      intro p hwf
      exact ⟨hwf, rfl⟩
  | succ n ih =>
      intro p hwf
      by_cases hempty : p.nread = p.nwrite
      · simp [readLoop, hempty, hwf]
      · obtain ⟨hwf', hget⟩ := get_spec hwf hempty
        obtain ⟨hwf'', hcont⟩ := ih _ hwf'
        simp only [readLoop, hempty, if_false]
        exact ⟨hwf'', by rw [hget, hcont, List.cons_append]⟩

@[simp] theorem pipewrite_pipe (killed : Bool) (n : Int) (bs : List UInt8) :
    (pipewrite p killed n bs).1 = (writeLoop p bs).1 := by
  unfold pipewrite
  dsimp only
  split
  · rfl
  · split <;> rfl

@[simp] theorem pipewrite_written (killed : Bool) (n : Int) (bs : List UInt8) :
    (pipewrite p killed n bs).2.1 = (writeLoop p bs).2 := by
  unfold pipewrite
  dsimp only
  split
  · rfl
  · split <;> rfl

theorem piperead_spec {p' : Pipe} {killed : Bool} {n r : Int} {bs : List UInt8} (hwf : p.Wf)
    (h : piperead p killed n = some (p', r, bs)) : p'.Wf ∧ p.contents = bs ++ p'.contents := by
  unfold piperead at h
  split at h
  · split at h
    · cases h
      exact ⟨hwf, rfl⟩
    · cases h
  · cases h
    exact readLoop_spec n.toNat p hwf

@[simp] theorem contents_pipealloc (data : Fin PIPESIZE → UInt8) : (pipealloc data).contents = [] := by
  simp [contents, pipealloc]

theorem wf_pipealloc (data : Fin PIPESIZE → UInt8) : (pipealloc data).Wf := by
  simp [Wf, pipealloc]

@[simp] theorem pipeclose_contents (writable : Bool) : (pipeclose p writable).contents = p.contents := by
  unfold pipeclose
  split <;> rfl

theorem pipeclose_wf (hwf : p.Wf) (writable : Bool) : (pipeclose p writable).Wf := by
  unfold pipeclose
  split <;> exact hwf

end Pipe

/-!
## Processes sharing a pipe
-/

/-- A pipe and the processes using it: what each process asleep in
`pipewrite` has still to write, with the `n` it was called with; and, as
history for the statements, the bytes the writes have stored and the reads
have returned so far, in order. -/
structure PipeSys (ι : Type) where
  pipe : Pipe
  writing : ι → Option (Int × List UInt8)
  stored : List UInt8
  returned : List UInt8

inductive PipeEvent (ι : Type) where
  /-- Process `i` calls `pipewrite` with the bytes `bs`. -/
  | write (i : ι) (bs : List UInt8) (killed : Bool)
  /-- Process `i`, asleep in `pipewrite`, runs again. -/
  | wake (i : ι) (killed : Bool)
  /-- A process calls `piperead` for `n` bytes. -/
  | read (n : Int) (killed : Bool)
  /-- A process closes an end of the pipe. -/
  | close (writable : Bool)

namespace PipeSys

open Function

variable {ι : Type} [DecidableEq ι]

/-- Process `i` runs `pipewrite` on the bytes `bs` left of its `n`. -/
def runWrite (s : PipeSys ι) (i : ι) (killed : Bool) (n : Int) (bs : List UInt8) : PipeSys ι :=
  let r := Pipe.pipewrite s.pipe killed n bs
  { s with
    pipe := r.1
    stored := s.stored ++ bs.take r.2.1
    writing := update s.writing i
      (match r.2.2 with
        | .returns _ => none
        | .sleeps rest => some (n, rest)) }

def step (s : PipeSys ι) : PipeEvent ι → Option (PipeSys ι)
  | .write i bs killed => if (s.writing i).isSome then none else some (s.runWrite i killed bs.length bs)
  | .wake i killed =>
      match s.writing i with
      | none => none
      | some (n, rest) => some (s.runWrite i killed n rest)
  | .read n killed =>
      (Pipe.piperead s.pipe killed n).map fun r => { s with pipe := r.1, returned := s.returned ++ r.2.2 }
  | .close writable => some { s with pipe := Pipe.pipeclose s.pipe writable }

/-- A pipe just allocated, with no process in a call. -/
def Init (s : PipeSys ι) : Prop :=
  ∃ data, s = { pipe := Pipe.pipealloc data, writing := fun _ => none, stored := [], returned := [] }

def Reachable (s : PipeSys ι) : Prop :=
  Run.Reachable step Init s

/-- The pipe holds at most `PIPESIZE` bytes, and what the writes stored is
what the reads returned followed by what the pipe holds. -/
def Inv (s : PipeSys ι) : Prop :=
  s.pipe.Wf ∧ s.stored = s.returned ++ s.pipe.contents

variable {s s' : PipeSys ι}

omit [DecidableEq ι] in
theorem inv_init (h : Init s) : Inv s := by
  obtain ⟨data, rfl⟩ := h
  exact ⟨Pipe.wf_pipealloc data, by simp⟩

theorem runWrite_inv (h : Inv s) (i : ι) (killed : Bool) (n : Int) (bs : List UInt8) :
    Inv (s.runWrite i killed n bs) := by
  obtain ⟨hwf, hcont⟩ := Pipe.writeLoop_spec bs s.pipe h.1
  refine ⟨by simpa [runWrite] using hwf, ?_⟩
  simp only [runWrite, Pipe.pipewrite_pipe, Pipe.pipewrite_written]
  rw [hcont, h.2, List.append_assoc]

theorem inv_step (h : Inv s) {e : PipeEvent ι} (hs : step s e = some s') : Inv s' := by
  cases e with
  | write i bs killed =>
      simp only [step] at hs
      split at hs
      · cases hs
      · cases hs
        exact runWrite_inv h i killed _ bs
  | wake i killed =>
      simp only [step] at hs
      split at hs
      · cases hs
      · cases hs
        exact runWrite_inv h i killed _ _
  | read n killed =>
      obtain ⟨r, hr, rfl⟩ := Option.map_eq_some_iff.mp hs
      obtain ⟨hwf, hcont⟩ := Pipe.piperead_spec h.1 hr
      exact ⟨hwf, by rw [h.2, hcont, List.append_assoc]⟩
  | close writable =>
      cases hs
      exact ⟨Pipe.pipeclose_wf h.1 writable, by simpa using h.2⟩

theorem inv_of_reachable (h : s.Reachable) : Inv s :=
  Run.Reachable.induction (fun _ h₀ => inv_init h₀) (fun _ _ _ hi hs => inv_step hi hs) h

/-- Pipe FIFO safety: over any interleaving of `pipewrite`, `piperead` and
`pipeclose` by any processes, `nwrite - nread` in `uint` is at most
`PIPESIZE`, and the bytes the reads returned are, in order, a prefix of the
bytes the writes stored: all of them but those still in the pipe. -/
theorem pipe_fifo (hs : s.Reachable) :
    (s.pipe.nwrite - s.pipe.nread).toNat ≤ PIPESIZE ∧ s.returned <+: s.stored ∧
      s.stored = s.returned ++ s.pipe.contents := by
  obtain ⟨hwf, hcont⟩ := inv_of_reachable hs
  exact ⟨hwf, ⟨_, hcont.symm⟩, hcont⟩

theorem pipe_fifo_after_write_and_read :
    ∃ s : PipeSys Unit, s.Reachable ∧ s.returned = [1, 2] ∧
      ((s.pipe.nwrite - s.pipe.nread).toNat ≤ PIPESIZE ∧ s.returned <+: s.stored ∧
        s.stored = s.returned ++ s.pipe.contents) := by
  let s₀ : PipeSys Unit :=
    { pipe := Pipe.pipealloc fun _ => 0, writing := fun _ => none, stored := [], returned := [] }
  have h : (Run.exec step s₀ [PipeEvent.write () [1, 2, 3] false, PipeEvent.read 2 false]).map
      (fun s => decide (s.returned = [1, 2])) = some true := by
    decide
  obtain ⟨s, hrun, hret⟩ := Run.exists_exec_of_map_decide (fun s : PipeSys Unit => s.returned = [1, 2]) h
  have hs : s.Reachable := ⟨s₀, _, ⟨_, rfl⟩, hrun⟩
  exact ⟨s, hs, hret, pipe_fifo hs⟩

end PipeSys

end Xv6
