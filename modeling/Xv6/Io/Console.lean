import Xv6.Library.Ring
import Xv6.Library.Run

/-!
# The console's line discipline

`consoleintr` edits the `input` buffer as keys arrive, and `consoleread`
hands committed lines to readers.  The buffer is a ring of `INPUT_BUF` bytes
with three free-running `uint` indices: bytes before `r` have been read, bytes
from `r` to `w` are committed and wait for a reader, and bytes from `w` to
`e` are the line being edited.

The line discipline the console is meant to have is stated on lists, in
`Lines`: the committed bytes not yet read and the line being edited, with
the editing rules applied key by key and reads taking committed bytes off
the front.  The ring with its wrapping indices implements it: `Input.lines`
maps the buffer to that pair, and each key and each part of a read between
two sleeps commutes with it, so every run of the console is a run of
`Lines` on the same events, with the same bytes returned.

A call of `consoleintr` holds `cons.lock` throughout, so it is one step; a
call of `consoleread` sleeps whenever nothing is committed, and a process
asleep in it may be woken at any time.  The keys are what `getc` returns,
bytes from the keyboard's tables or the UART.  The echo through `consputc`
and `procdump` are not modelled.
-/

namespace Xv6

/-- `INPUT_BUF`. -/
def INPUT_BUF : ℕ := 128

instance : NeZero INPUT_BUF :=
  ⟨by decide⟩

namespace Console

open Function

/-- `C(x)`: control-`x`. -/
def C (x : Char) : UInt8 :=
  x.toUInt8 - '@'.toUInt8

/-- The `input` buffer. -/
structure Input where
  buf : Fin INPUT_BUF → UInt8
  r : UInt32
  w : UInt32
  e : UInt32

/-- The cell `x % INPUT_BUF` of `buf`. -/
def slot (x : UInt32) : Fin INPUT_BUF :=
  Ring.cell INPUT_BUF x.toNat

/-- `input.buf[input.e++ % INPUT_BUF] = c`. -/
def Input.put (inp : Input) (c : UInt8) : Input :=
  { inp with buf := update inp.buf (slot inp.e) c, e := inp.e + 1 }

/-- The loop of `^U`: while `e != w` and the byte before `e` is not a
newline, `e--`.  It runs at most `e - w` times, the fuel it is given. -/
def killLine (inp : Input) : ℕ → Input
  | 0 => inp
  | fuel + 1 =>
      if inp.e ≠ inp.w ∧ inp.buf (slot (inp.e - 1)) ≠ '\n'.toUInt8 then
        killLine { inp with e := inp.e - 1 } fuel
      else
        inp

/-- One turn of `consoleintr`'s loop, on the key `c`. -/
def intrChar (inp : Input) (c : UInt8) : Input :=
  if c = C 'P' then
    -- `procdump()` runs after the loop and leaves `input` alone
    inp
  else if c = C 'U' then
    killLine inp (inp.e - inp.w).toNat
  else if c = C 'H' ∨ c = 0x7f then
    if inp.e ≠ inp.w then { inp with e := inp.e - 1 } else inp
  else if c ≠ 0 ∧ inp.e - inp.r < INPUT_BUF.toUInt32 then
    let c := if c = '\r'.toUInt8 then '\n'.toUInt8 else c
    let inp := inp.put c
    if c = '\n'.toUInt8 ∨ c = C 'D' ∨ inp.e = inp.r + INPUT_BUF.toUInt32 then { inp with w := inp.e } else inp
  else
    inp

/-- `consoleintr(getc)` while `getc` returns the keys `cs`. -/
def consoleintr (inp : Input) (cs : List UInt8) : Input :=
  cs.foldl intrChar inp

/-- Where a run of `consoleread` stops: it returns, or it sleeps in
`sleep(&input.r)` with `n` bytes still to read. -/
inductive ReadStop where
  | returns (r : Int)
  | sleeps (n : ℕ)
deriving DecidableEq, Repr

/-- The `while(n > 0)` loop of `consoleread(ip, dst, target)` with `n` bytes
still to read, by a process whose `killed` flag is `killed`, up to the point
where it returns or sleeps: the buffer after, the bytes copied to `dst`, and
where it stopped. -/
def readLoop (killed : Bool) (target : ℕ) : ℕ → Input → Input × List UInt8 × ReadStop
  | 0, inp => (inp, [], .returns target)
  | n + 1, inp =>
      if inp.r = inp.w then
        if killed then (inp, [], .returns (-1)) else (inp, [], .sleeps (n + 1))
      else
        let c := inp.buf (slot inp.r)
        let inp := { inp with r := inp.r + 1 }
        if c = C 'D' then
          -- end of file: a `^D` after some bytes is saved for the next read
          if n + 1 < target then
            ({ inp with r := inp.r - 1 }, [], .returns ((target - (n + 1) : ℕ) : Int))
          else
            (inp, [], .returns ((target - (n + 1) : ℕ) : Int))
        else if c = '\n'.toUInt8 then
          (inp, [c], .returns ((target - n : ℕ) : Int))
        else
          let res := readLoop killed target n inp
          (res.1, c :: res.2.1, res.2.2)

/-!
## The line discipline on lists
-/

/-- Committed bytes not yet read, and the line being edited. -/
structure Lines where
  committed : List UInt8
  line : List UInt8

namespace Lines

/-- The editing rules on the key `c`: `^P` changes nothing, `^U` deletes the
line, backspace and DEL its last byte; any other key but `0` is added, `'\r'`
as `'\n'`, while the buffer has room, and a newline, a `^D` or a full buffer
commits the line. -/
def key (l : Lines) (c : UInt8) : Lines :=
  if c = C 'P' then
    l
  else if c = C 'U' then
    { l with line := [] }
  else if c = C 'H' ∨ c = 0x7f then
    { l with line := l.line.dropLast }
  else if c ≠ 0 ∧ l.committed.length + l.line.length < INPUT_BUF then
    let c := if c = '\r'.toUInt8 then '\n'.toUInt8 else c
    let line := l.line ++ [c]
    if c = '\n'.toUInt8 ∨ c = C 'D' ∨ l.committed.length + line.length = INPUT_BUF then
      { committed := l.committed ++ line, line := [] }
    else
      { l with line := line }
  else
    l

def intr (l : Lines) (cs : List UInt8) : Lines :=
  cs.foldl key l

/-- A read of at most `target` bytes with `n` still to read: committed bytes
are taken off the front up to a newline, which is returned, or a `^D`, which
is not; a `^D` after some bytes stays for the next read, which then returns
`0`.  With nothing committed the reader sleeps, or returns `-1` if killed. -/
def read (killed : Bool) (target : ℕ) : ℕ → Lines → Lines × List UInt8 × ReadStop
  | 0, l => (l, [], .returns target)
  | n + 1, l =>
      match l.committed with
      | [] => if killed then (l, [], .returns (-1)) else (l, [], .sleeps (n + 1))
      | c :: cs =>
          if c = C 'D' then
            if n + 1 < target then
              (l, [], .returns ((target - (n + 1) : ℕ) : Int))
            else
              ({ l with committed := cs }, [], .returns ((target - (n + 1) : ℕ) : Int))
          else if c = '\n'.toUInt8 then
            ({ l with committed := cs }, [c], .returns ((target - n : ℕ) : Int))
          else
            let res := read killed target n { l with committed := cs }
            (res.1, c :: res.2.1, res.2.2)

theorem committed_prefix_key (l : Lines) (c : UInt8) : l.committed <+: (l.key c).committed := by
  unfold key
  split
  · exact List.prefix_refl _
  split
  · exact List.prefix_refl _
  split
  · exact List.prefix_refl _
  split
  · dsimp only
    generalize (if c = '\r'.toUInt8 then '\n'.toUInt8 else c) = c
    split
    · exact List.prefix_append _ _
    · exact List.prefix_refl _
  · exact List.prefix_refl _

theorem committed_prefix_intr (cs : List UInt8) :
    ∀ l : Lines, l.committed <+: (l.intr cs).committed := by
  induction cs with
  | nil =>
      intro l
      exact List.prefix_refl _
  | cons c cs ih =>
      intro l
      exact (committed_prefix_key l c).trans (ih (l.key c))

theorem read_stops_at_eof (killed : Bool) (target : ℕ) {cs : List UInt8} (bs : List UInt8)
    (hbs : ∀ c ∈ bs, c ≠ C 'D' ∧ c ≠ '\n'.toUInt8) :
    ∀ (n : ℕ) (l : Lines), l.committed = bs ++ C 'D' :: cs → bs.length < n → n - bs.length < target →
      read killed target n l =
        ({ l with committed := C 'D' :: cs }, bs, .returns ((target - (n - bs.length) : ℕ) : Int)) := by
  induction bs with
  | nil =>
      intro n l hl hn hlt
      obtain ⟨m, rfl⟩ : ∃ m, n = m + 1 := ⟨n - 1, by omega⟩
      rw [List.nil_append] at hl
      rw [List.length_nil, Nat.sub_zero] at hlt
      -- the `^D` is put back: the buffer is as it was
      have hback : { l with committed := C 'D' :: cs } = l := by
        cases l
        simp_all
      simp only [read, hl, if_pos hlt, List.length_nil, Nat.sub_zero, hback, if_true]
  | cons c bs ih =>
      intro n l hl hn hlt
      obtain ⟨m, rfl⟩ : ∃ m, n = m + 1 := ⟨n - 1, by omega⟩
      obtain ⟨hcD, hcnl⟩ := hbs c List.mem_cons_self
      rw [List.cons_append] at hl
      simp only [read, hl, if_neg hcD, if_neg hcnl]
      rw [ih (fun c hc => hbs c (List.mem_cons_of_mem _ hc)) m _ rfl (by simp at hn; omega)
        (by simp at hlt; omega)]
      simp only [List.length_cons, Nat.add_sub_add_right]

theorem read_eof_first (killed : Bool) {m : ℕ} (hm : 0 < m) {l : Lines} {cs : List UInt8}
    (hl : l.committed = C 'D' :: cs) :
    read killed m m l = ({ l with committed := cs }, [], .returns 0) := by
  obtain ⟨k, rfl⟩ : ∃ k, m = k + 1 := ⟨m - 1, by omega⟩
  simp [read, hl]

end Lines

/-!
## The ring implements the line discipline
-/

namespace Input

/-- The committed bytes not yet read. -/
def pending (inp : Input) : List UInt8 :=
  Ring.view inp.buf inp.r.toNat (inp.w - inp.r).toNat

/-- The line being edited. -/
def editing (inp : Input) : List UInt8 :=
  Ring.view inp.buf inp.w.toNat (inp.e - inp.w).toNat

def lines (inp : Input) : Lines :=
  ⟨inp.pending, inp.editing⟩

/-- `r ≤ w ≤ e ≤ r + INPUT_BUF` as distances in `uint`, and no newline in
the line being edited: a newline commits it. -/
structure Wf (inp : Input) : Prop where
  order : (inp.w - inp.r).toNat + (inp.e - inp.w).toNat = (inp.e - inp.r).toNat
  bound : (inp.e - inp.r).toNat ≤ INPUT_BUF
  newline : '\n'.toUInt8 ∉ inp.editing

variable {inp : Input}

theorem INPUT_BUF_dvd : INPUT_BUF ∣ 2 ^ 32 :=
  ⟨2 ^ 25, by decide⟩

@[simp] theorem length_pending : inp.pending.length = (inp.w - inp.r).toNat :=
  Ring.length_view

@[simp] theorem length_editing : inp.editing.length = (inp.e - inp.w).toNat :=
  Ring.length_view

theorem slot_e_of_w : slot inp.e = Ring.cell INPUT_BUF (inp.w.toNat + (inp.e - inp.w).toNat) :=
  Ring.cell_toNat_eq_add_sub INPUT_BUF_dvd inp.e inp.w

theorem slot_e_of_r : slot inp.e = Ring.cell INPUT_BUF (inp.r.toNat + (inp.e - inp.r).toNat) :=
  Ring.cell_toNat_eq_add_sub INPUT_BUF_dvd inp.e inp.r

theorem put_spec (hwf : inp.Wf) (hroom : (inp.e - inp.r).toNat < INPUT_BUF) (c : UInt8) :
    (inp.put c).pending = inp.pending ∧ (inp.put c).editing = inp.editing ++ [c] ∧
      ((inp.put c).e - (inp.put c).w).toNat = (inp.e - inp.w).toNat + 1 ∧
      ((inp.put c).e - (inp.put c).r).toNat = (inp.e - inp.r).toNat + 1 := by
  have hord := hwf.order
  have hb : (inp.e - inp.w).toNat < INPUT_BUF := by omega
  have hew : (inp.e + 1 - inp.w).toNat = (inp.e - inp.w).toNat + 1 :=
    Ring.toNat_add_one_sub (lt_of_lt_of_le (Nat.succ_lt_succ hb) (by decide))
  have her : (inp.e + 1 - inp.r).toNat = (inp.e - inp.r).toNat + 1 :=
    Ring.toNat_add_one_sub (lt_of_lt_of_le (Nat.succ_lt_succ hroom) (by decide))
  refine ⟨?_, ?_, hew, her⟩
  · -- the cell written lies past the committed bytes
    simp only [pending, put]
    rw [slot_e_of_r]
    exact Ring.view_update_of_le (by omega) hroom c
  · simp only [editing, put, hew]
    rw [slot_e_of_w]
    exact Ring.view_push hb c

theorem commit_spec (hord : (inp.w - inp.r).toNat + (inp.e - inp.w).toNat = (inp.e - inp.r).toNat) :
    ({ inp with w := inp.e } : Input).pending = inp.pending ++ inp.editing ∧
      ({ inp with w := inp.e } : Input).editing = [] := by
  constructor
  · simp only [pending, editing]
    rw [← hord, Ring.view_add, Ring.toNat_eq_add_sub inp.w inp.r, Ring.view_mod INPUT_BUF_dvd]
  · simp [editing]

theorem backspace_spec (hwf : inp.Wf) (hne : inp.e ≠ inp.w) :
    ({ inp with e := inp.e - 1 } : Input).pending = inp.pending ∧
      ({ inp with e := inp.e - 1 } : Input).editing = inp.editing.dropLast ∧
      (inp.e - 1 - inp.w).toNat = (inp.e - inp.w).toNat - 1 ∧
      (inp.e - 1 - inp.r).toNat = (inp.e - inp.r).toNat - 1 := by
  have hord := hwf.order
  have hb : (inp.e - inp.w).toNat ≠ 0 := mt Ring.toNat_sub_eq_zero_iff.mp hne
  have hew := Ring.toNat_sub_one_sub hne
  have her : (inp.e - 1 - inp.r).toNat = (inp.e - inp.r).toNat - 1 := by
    apply Ring.toNat_sub_one_sub
    intro her
    rw [her] at hord hb
    have hrr : (inp.r - inp.r).toNat = 0 := by simp
    omega
  obtain ⟨b, hb'⟩ : ∃ b, (inp.e - inp.w).toNat = b + 1 := ⟨_, (Nat.succ_pred_eq_of_ne_zero hb).symm⟩
  refine ⟨rfl, ?_, hew, her⟩
  simp only [editing, hew, hb', Nat.add_sub_cancel]
  exact Ring.view_dropLast.symm

theorem killLine_spec (b : ℕ) :
    ∀ inp : Input, (inp.e - inp.w).toNat = b → '\n'.toUInt8 ∉ inp.editing →
      killLine inp b = { inp with e := inp.w } := by
  induction b with
  | zero =>
      intro inp hb _
      have he : inp.e = inp.w := Ring.toNat_sub_eq_zero_iff.mp hb
      rw [killLine]
      cases inp
      dsimp only at he
      subst he
      rfl
  | succ b ih =>
      intro inp hb hnl
      have hne : inp.e ≠ inp.w := fun he => by simp [he] at hb
      have hew : (inp.e - 1 - inp.w).toNat = b := by
        rw [Ring.toNat_sub_one_sub hne, hb, Nat.add_sub_cancel]
      -- the byte before `e` is the last of the line
      have hlast : inp.buf (slot (inp.e - 1)) ∈ inp.editing := by
        have hslot : slot (inp.e - 1) = Ring.cell INPUT_BUF (inp.w.toNat + b) := by
          rw [slot, Ring.cell_toNat_eq_add_sub INPUT_BUF_dvd (inp.e - 1) inp.w, hew]
        rw [editing, hb, Ring.view_succ, hslot]
        exact List.mem_append_right _ (List.mem_singleton_self _)
      have hnl' : '\n'.toUInt8 ∉ ({ inp with e := inp.e - 1 } : Input).editing := by
        intro hmem
        apply hnl
        simp only [editing, hew] at hmem
        rw [editing, hb, Ring.view_succ]
        exact List.mem_append_left _ hmem
      rw [killLine, if_pos ⟨hne, fun h => hnl (h ▸ hlast)⟩, ih _ hew hnl']

theorem kill_spec (hwf : inp.Wf) :
    ({ inp with e := inp.w } : Input).Wf ∧ ({ inp with e := inp.w } : Input).lines = { inp.lines with line := [] } := by
  have hord := hwf.order
  have hww : (inp.w - inp.w).toNat = 0 := by simp
  refine ⟨⟨?_, ?_, by simp [editing]⟩, by simp [lines, pending, editing]⟩
  · show (inp.w - inp.r).toNat + (inp.w - inp.w).toNat = (inp.w - inp.r).toNat
    omega
  · show (inp.w - inp.r).toNat ≤ INPUT_BUF
    have := hwf.bound
    omega

theorem backspace_wf_lines (hwf : inp.Wf) :
    (if inp.e ≠ inp.w then { inp with e := inp.e - 1 } else inp).Wf ∧
      (if inp.e ≠ inp.w then { inp with e := inp.e - 1 } else inp).lines =
        { inp.lines with line := inp.lines.line.dropLast } := by
  by_cases hne : inp.e ≠ inp.w
  · rw [if_pos hne]
    obtain ⟨hpend, hedit, hew, her⟩ := backspace_spec hwf hne
    have hord := hwf.order
    have hbound := hwf.bound
    have hb : (inp.e - inp.w).toNat ≠ 0 := mt Ring.toNat_sub_eq_zero_iff.mp hne
    refine ⟨⟨?_, ?_, ?_⟩, ?_⟩
    · show (inp.w - inp.r).toNat + (inp.e - 1 - inp.w).toNat = (inp.e - 1 - inp.r).toNat
      omega
    · show (inp.e - 1 - inp.r).toNat ≤ INPUT_BUF
      omega
    · rw [hedit]
      exact fun h => hwf.newline (List.dropLast_subset _ h)
    · simp only [lines, hpend, hedit]
  · -- an empty line stays empty
    rw [if_neg hne]
    have he : inp.e = inp.w := not_not.mp hne
    have hnil : inp.editing = [] := by simp [editing, he]
    refine ⟨hwf, ?_⟩
    simp [lines, hnil]

theorem put_keep_spec (hwf : inp.Wf) (hroom : (inp.e - inp.r).toNat < INPUT_BUF) {c : UInt8}
    (hc : c ≠ '\n'.toUInt8) :
    (inp.put c).Wf ∧ (inp.put c).lines = { inp.lines with line := inp.lines.line ++ [c] } := by
  obtain ⟨hpend, hedit, hew, her⟩ := put_spec hwf hroom c
  have hord := hwf.order
  refine ⟨⟨?_, ?_, ?_⟩, by simp only [lines, hpend, hedit]⟩
  · simp only [put] at hew her ⊢
    omega
  · simp only [put] at her ⊢
    omega
  · rw [hedit]
    intro h
    rcases List.mem_append.mp h with h | h
    · exact hwf.newline h
    · exact hc (List.mem_singleton.mp h).symm

theorem put_commit_spec (hwf : inp.Wf) (hroom : (inp.e - inp.r).toNat < INPUT_BUF) (c : UInt8) :
    ({ inp.put c with w := (inp.put c).e } : Input).Wf ∧
      ({ inp.put c with w := (inp.put c).e } : Input).lines =
        { committed := inp.lines.committed ++ (inp.lines.line ++ [c]), line := [] } := by
  obtain ⟨hpend, hedit, hew, her⟩ := put_spec hwf hroom c
  have hord := hwf.order
  have hord' : ((inp.put c).w - (inp.put c).r).toNat + ((inp.put c).e - (inp.put c).w).toNat =
      ((inp.put c).e - (inp.put c).r).toNat := by
    simp only [put] at hew her ⊢
    omega
  obtain ⟨hpend', hedit'⟩ := commit_spec hord'
  refine ⟨⟨?_, ?_, by rw [hedit']; simp⟩, by simp only [lines, hpend', hedit', hpend, hedit]⟩
  · show ((inp.put c).e - (inp.put c).r).toNat + ((inp.put c).e - (inp.put c).e).toNat =
      ((inp.put c).e - (inp.put c).r).toNat
    simp
  · show ((inp.put c).e - (inp.put c).r).toNat ≤ INPUT_BUF
    omega

theorem intrChar_spec (hwf : inp.Wf) (c : UInt8) :
    (intrChar inp c).Wf ∧ (intrChar inp c).lines = inp.lines.key c := by
  unfold intrChar Lines.key
  by_cases hP : c = C 'P'
  · rw [if_pos hP, if_pos hP]
    exact ⟨hwf, rfl⟩
  rw [if_neg hP, if_neg hP]
  by_cases hU : c = C 'U'
  · rw [if_pos hU, if_pos hU, killLine_spec _ inp rfl hwf.newline]
    exact kill_spec hwf
  rw [if_neg hU, if_neg hU]
  by_cases hH : c = C 'H' ∨ c = 0x7f
  · rw [if_pos hH, if_pos hH]
    exact backspace_wf_lines hwf
  rw [if_neg hH, if_neg hH]
  have hord := hwf.order
  -- the room left in the ring is the room left in the lists
  have hroom_iff : inp.e - inp.r < INPUT_BUF.toUInt32 ↔
      inp.lines.committed.length + inp.lines.line.length < INPUT_BUF := by
    rw [Ring.lt_ofNat_iff (by decide)]
    simp only [lines, length_pending, length_editing]
    omega
  by_cases hroom : c ≠ 0 ∧ inp.e - inp.r < INPUT_BUF.toUInt32
  · have hroomL : c ≠ 0 ∧ inp.lines.committed.length + inp.lines.line.length < INPUT_BUF :=
      ⟨hroom.1, hroom_iff.mp hroom.2⟩
    rw [if_pos hroom, if_pos hroomL]
    have hroom' : (inp.e - inp.r).toNat < INPUT_BUF := (Ring.lt_ofNat_iff (by decide)).mp hroom.2
    dsimp only
    generalize (if c = '\r'.toUInt8 then '\n'.toUInt8 else c) = c
    obtain ⟨-, -, -, her⟩ := put_spec hwf hroom' c
    -- a full ring is a full pair of lists
    have hfull_iff : (inp.put c).e = (inp.put c).r + INPUT_BUF.toUInt32 ↔
        inp.lines.committed.length + (inp.lines.line ++ [c]).length = INPUT_BUF := by
      rw [Ring.eq_add_ofNat_iff (by decide), her]
      simp only [lines, length_pending, length_editing, List.length_append, List.length_singleton]
      omega
    by_cases hcommit : c = '\n'.toUInt8 ∨ c = C 'D' ∨ (inp.put c).e = (inp.put c).r + INPUT_BUF.toUInt32
    · have hcommitL : c = '\n'.toUInt8 ∨ c = C 'D' ∨
          inp.lines.committed.length + (inp.lines.line ++ [c]).length = INPUT_BUF :=
        hcommit.imp_right (Or.imp_right hfull_iff.mp)
      rw [if_pos hcommit, if_pos hcommitL]
      exact put_commit_spec hwf hroom' c
    · have hcommitL : ¬(c = '\n'.toUInt8 ∨ c = C 'D' ∨
          inp.lines.committed.length + (inp.lines.line ++ [c]).length = INPUT_BUF) :=
        fun h => hcommit (h.imp_right (Or.imp_right hfull_iff.mpr))
      rw [if_neg hcommit, if_neg hcommitL]
      exact put_keep_spec hwf hroom' (fun h => hcommit (.inl h))
  · have hroomL : ¬(c ≠ 0 ∧ inp.lines.committed.length + inp.lines.line.length < INPUT_BUF) :=
      fun h => hroom ⟨h.1, hroom_iff.mpr h.2⟩
    rw [if_neg hroom, if_neg hroomL]
    exact ⟨hwf, rfl⟩

theorem consoleintr_spec (cs : List UInt8) :
    ∀ inp : Input, inp.Wf → (consoleintr inp cs).Wf ∧ (consoleintr inp cs).lines = inp.lines.intr cs := by
  induction cs with
  | nil =>
      intro inp hwf
      exact ⟨hwf, rfl⟩
  | cons c cs ih =>
      intro inp hwf
      obtain ⟨hwf', hlines⟩ := intrChar_spec hwf c
      obtain ⟨hwf'', hlines'⟩ := ih _ hwf'
      refine ⟨hwf'', ?_⟩
      simp only [consoleintr, Lines.intr, List.foldl_cons] at hlines' ⊢
      rw [hlines', hlines]

theorem pending_eq_nil_iff : inp.pending = [] ↔ inp.r = inp.w := by
  rw [← List.length_eq_zero_iff, length_pending, Ring.toNat_sub_eq_zero_iff, eq_comm]

theorem take_spec (hwf : inp.Wf) (hne : ¬inp.r = inp.w) :
    ({ inp with r := inp.r + 1 } : Input).Wf ∧
      inp.pending = inp.buf (slot inp.r) :: ({ inp with r := inp.r + 1 } : Input).pending ∧
      ({ inp with r := inp.r + 1 } : Input).editing = inp.editing := by
  have hord := hwf.order
  have hbound := hwf.bound
  have ha : (inp.w - inp.r).toNat ≠ 0 := fun h => hne (Ring.toNat_sub_eq_zero_iff.mp h).symm
  have hwr : (inp.w - (inp.r + 1)).toNat = (inp.w - inp.r).toNat - 1 := Ring.toNat_sub_add_one (Ne.symm hne)
  have her : (inp.e - (inp.r + 1)).toNat = (inp.e - inp.r).toNat - 1 := by
    apply Ring.toNat_sub_add_one
    intro her
    rw [her] at hord
    have hrr : (inp.r - inp.r).toNat = 0 := by simp
    omega
  obtain ⟨a, ha'⟩ : ∃ a, (inp.w - inp.r).toNat = a + 1 := ⟨_, (Nat.succ_pred_eq_of_ne_zero ha).symm⟩
  refine ⟨⟨?_, ?_, hwf.newline⟩, ?_, rfl⟩
  · show (inp.w - (inp.r + 1)).toNat + (inp.e - inp.w).toNat = (inp.e - (inp.r + 1)).toNat
    omega
  · show (inp.e - (inp.r + 1)).toNat ≤ INPUT_BUF
    omega
  · simp only [pending, hwr, ha', Nat.add_sub_cancel, UInt32.toNat_add, UInt32.toNat_one,
      Ring.view_mod INPUT_BUF_dvd]
    exact Ring.view_pop

theorem readLoop_spec (killed : Bool) (target n : ℕ) :
    ∀ inp : Input, inp.Wf → (readLoop killed target n inp).1.Wf ∧
      Lines.read killed target n inp.lines =
        ((readLoop killed target n inp).1.lines, (readLoop killed target n inp).2) := by
  induction n with
  | zero =>
      intro inp hwf
      exact ⟨hwf, rfl⟩
  | succ n ih =>
      intro inp hwf
      by_cases hempty : inp.r = inp.w
      · -- nothing committed: the reader sleeps, or returns `-1`
        have hnil : inp.lines.committed = [] := pending_eq_nil_iff.mpr hempty
        simp only [readLoop, if_pos hempty, Lines.read, hnil]
        cases killed
        · exact ⟨hwf, rfl⟩
        · exact ⟨hwf, rfl⟩
      · obtain ⟨hwf', hpend, hedit⟩ := take_spec hwf hempty
        have hcons : inp.lines.committed = inp.buf (slot inp.r) :: ({ inp with r := inp.r + 1 } : Input).pending :=
          hpend
        have hrest : ({ inp.lines with committed := ({ inp with r := inp.r + 1 } : Input).pending } : Lines) =
            ({ inp with r := inp.r + 1 } : Input).lines := by
          simp only [lines, hedit]
        simp only [readLoop, if_neg hempty, Lines.read, hcons]
        by_cases hD : inp.buf (slot inp.r) = C 'D'
        · rw [if_pos hD, if_pos hD]
          by_cases hlt : n + 1 < target
          · -- the `^D` is put back: `r` is where it was
            rw [if_pos hlt, if_pos hlt]
            have hback : ({ inp with r := inp.r + 1 - 1 } : Input) = inp := by simp
            rw [hback]
            exact ⟨hwf, rfl⟩
          · rw [if_neg hlt, if_neg hlt, hrest]
            exact ⟨hwf', rfl⟩
        · rw [if_neg hD, if_neg hD]
          by_cases hnl : inp.buf (slot inp.r) = '\n'.toUInt8
          · rw [if_pos hnl, if_pos hnl, hrest]
            exact ⟨hwf', rfl⟩
          · rw [if_neg hnl, if_neg hnl, hrest]
            obtain ⟨hwf'', hread⟩ := ih _ hwf'
            refine ⟨hwf'', ?_⟩
            dsimp only
            rw [hread]

end Input

/-!
## Readers and keys, interleaved
-/

/-- Processes reading a console over a line buffer `σ`, the ring or the
lists: what each process asleep in `consoleread` has still to read, with the
`target` it was called with; and, as history for the statements, the bytes
the reads have copied out so far, in order, and what each `consoleread` that
returned returned, with the process that called it. -/
structure Readers (σ ι : Type) where
  input : σ
  reading : ι → Option (ℕ × ℕ)
  returned : List UInt8
  results : List (ι × Int)

inductive ConsEvent (ι : Type) where
  /-- A keyboard or UART interrupt runs `consoleintr` on the keys `cs`. -/
  | intr (cs : List UInt8)
  /-- Process `i` calls `consoleread` for `n` bytes. -/
  | read (i : ι) (n : Int) (killed : Bool)
  /-- Process `i`, asleep in `consoleread`, runs again. -/
  | wake (i : ι) (killed : Bool)

namespace Readers

variable {σ τ ι : Type} [DecidableEq ι]

/-- Process `i` runs the read `rd` with `n` of its `target` bytes to go. -/
def runRead (rd : Bool → ℕ → ℕ → σ → σ × List UInt8 × ReadStop) (s : Readers σ ι) (i : ι)
    (killed : Bool) (target n : ℕ) : Readers σ ι :=
  let res := rd killed target n s.input
  { input := res.1
    returned := s.returned ++ res.2.1
    reading := update s.reading i
      (match res.2.2 with
        | .returns _ => none
        | .sleeps n => some (target, n))
    results :=
      match res.2.2 with
      | .returns r => s.results ++ [(i, r)]
      | .sleeps _ => s.results }

/-- A step of the console with the keys handled by `intr` and the reads
done by `rd`. -/
def step (intr : σ → List UInt8 → σ) (rd : Bool → ℕ → ℕ → σ → σ × List UInt8 × ReadStop)
    (s : Readers σ ι) : ConsEvent ι → Option (Readers σ ι)
  | .intr cs => some { s with input := intr s.input cs }
  | .read i n killed => if (s.reading i).isSome then none else some (s.runRead rd i killed n.toNat n.toNat)
  | .wake i killed =>
      match s.reading i with
      | none => none
      | some (target, n) => some (s.runRead rd i killed target n)

/-- The same readers over another buffer. -/
def map (g : σ → τ) (s : Readers σ ι) : Readers τ ι :=
  { input := g s.input, reading := s.reading, returned := s.returned, results := s.results }

variable {intr : σ → List UInt8 → σ} {rd : Bool → ℕ → ℕ → σ → σ × List UInt8 × ReadStop}
  {intr' : τ → List UInt8 → τ} {rd' : Bool → ℕ → ℕ → τ → τ × List UInt8 × ReadStop}

theorem step_map (g : σ → τ) {P : σ → Prop} (hintr : ∀ x cs, P x → g (intr x cs) = intr' (g x) cs)
    (hrd : ∀ k t n x, P x → rd' k t n (g x) = (g (rd k t n x).1, (rd k t n x).2)) (s : Readers σ ι)
    (hs : P s.input) (e : ConsEvent ι) : (step intr rd s e).map (map g) = step intr' rd' (s.map g) e := by
  cases e with
  | intr cs =>
      simp only [step, Option.map_some, map, hintr _ cs hs]
  | read i n killed =>
      cases hi : (s.reading i).isSome
      · simp only [step, map, hi, Bool.false_eq_true, if_false, Option.map_some, runRead, hrd _ _ _ _ hs]
      · simp only [step, map, hi, if_true, Option.map_none]
  | wake i killed =>
      cases hi : s.reading i with
      | none => simp only [step, map, hi, Option.map_none]
      | some p =>
          obtain ⟨target, n⟩ := p
          simp only [step, map, hi, Option.map_some, runRead, hrd _ _ _ _ hs]

theorem step_inv (P : σ → Prop) (hintr : ∀ x cs, P x → P (intr x cs)) (hrd : ∀ k t n x, P x → P (rd k t n x).1)
    {s s' : Readers σ ι} {e : ConsEvent ι} (hs : P s.input) (h : step intr rd s e = some s') : P s'.input := by
  cases e with
  | intr cs =>
      cases h
      exact hintr _ cs hs
  | read i n killed =>
      simp only [step] at h
      split at h
      · cases h
      · cases h
        exact hrd _ _ _ _ hs
  | wake i killed =>
      simp only [step] at h
      split at h
      · cases h
      · cases h
        exact hrd _ _ _ _ hs

end Readers

variable {ι : Type} [DecidableEq ι]

/-- The console: the ring, `consoleintr` and `consoleread`. -/
def console : Readers Input ι → ConsEvent ι → Option (Readers Input ι) :=
  Readers.step consoleintr readLoop

/-- The console at boot: `input` is zero, and nobody reads. -/
def boot : Readers Input ι :=
  { input := ⟨fun _ => 0, 0, 0, 0⟩, reading := fun _ => none, returned := [], results := [] }

def Reachable (s : Readers Input ι) : Prop :=
  Run.Reachable console (· = boot) s

theorem wf_zero : (⟨fun _ => 0, 0, 0, 0⟩ : Input).Wf :=
  ⟨by decide, by decide, by simp [Input.editing]⟩

theorem console_wf {s s' : Readers Input ι} {e : ConsEvent ι} (hs : s.input.Wf) (h : console s e = some s') :
    s'.input.Wf :=
  Readers.step_inv (fun x : Input => x.Wf) (fun _ cs hx => (Input.consoleintr_spec cs _ hx).1)
    (fun k t n _ hx => (Input.readLoop_spec k t n _ hx).1) hs h

theorem wf_of_reachable {s : Readers Input ι} (h : Reachable s) : s.input.Wf :=
  Run.Reachable.induction (fun _ h₀ => h₀ ▸ wf_zero) (fun _ _ _ hs he => console_wf hs he) h

/-- The console's line discipline: in every state the indices keep
`r ≤ w ≤ e ≤ r + INPUT_BUF` as distances in `uint`, across their wrap;
editing keys never take back committed bytes; and every run of keys and
reads, interleaved in any order by any processes, is the run of the editing
rules on lists, `Lines`, on the same events, with the same bytes returned by
each read. -/
theorem console_line_discipline :
    (∀ s : Readers Input ι, Reachable s →
      (s.input.w - s.input.r).toNat + (s.input.e - s.input.w).toNat = (s.input.e - s.input.r).toNat ∧
        (s.input.e - s.input.r).toNat ≤ INPUT_BUF ∧
        ∀ cs, s.input.pending <+: (consoleintr s.input cs).pending) ∧
    (∀ (killed killed' : Bool) (target m : ℕ) (l : Lines) (bs cs : List UInt8),
      l.committed = bs ++ C 'D' :: cs → (∀ c ∈ bs, c ≠ C 'D' ∧ c ≠ '\n'.toUInt8) → bs ≠ [] →
        bs.length < target → 0 < m →
        Lines.read killed target target l = ({ l with committed := C 'D' :: cs }, bs, .returns bs.length) ∧
          Lines.read killed' m m { l with committed := C 'D' :: cs } = ({ l with committed := cs }, [], .returns 0)) ∧
    ∀ es : List (ConsEvent ι),
      (Run.exec console boot es).map (Readers.map Input.lines) =
        Run.exec (Readers.step Lines.intr Lines.read) (boot.map Input.lines) es := by
  constructor
  · intro s hs
    have hwf := wf_of_reachable hs
    refine ⟨hwf.order, hwf.bound, fun cs => ?_⟩
    have hlines := (Input.consoleintr_spec cs _ hwf).2
    have hprefix := Lines.committed_prefix_intr cs s.input.lines
    rw [← hlines] at hprefix
    exact hprefix
  constructor
  · -- a `^D` after some bytes ends the read and is saved for the next one
    intro killed killed' target m l bs cs hl hbs hne hlt hm
    have hpos : 0 < bs.length := List.length_pos_iff.mpr hne
    refine ⟨?_, Lines.read_eof_first killed' hm rfl⟩
    rw [Lines.read_stops_at_eof killed target bs hbs target l hl hlt (by omega)]
    congr
    omega
  · intro es
    apply Run.exec_map_of_commute (Readers.map Input.lines) (fun s : Readers Input ι => s.input.Wf)
    · intro s e s' hs he
      exact console_wf hs he
    · intro s e hs
      exact Readers.step_map Input.lines (fun x cs hx => (Input.consoleintr_spec cs x hx).2)
        (fun k t n x hx => Input.readLoop_spec k t n x hx |>.2) s hs e
    · exact wf_zero

end Console

end Xv6
