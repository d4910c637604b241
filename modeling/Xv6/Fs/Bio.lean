import Xv6.Fs.Trans
import Xv6.Library.DList

/-!
# The buffer cache

`bio.c` keeps `NBUF` buffers on a circular doubly linked list through
`prev` and `next`, with `bcache.head` as its sentinel and the most recently
released buffer first.  `bget` looks for a cached copy of a block walking
`next` from the head, and otherwise recycles the least recently used buffer
that is neither referenced nor dirty, walking `prev`; `brelse` moves a buffer
whose last reference it drops to the front.  `log_write` sets `B_DIRTY` to
keep a logged buffer in the cache until `install_trans` writes it home.

The buffers and the head are the slots of one array, the head last.  A call
that holds a buffer is one of the results of `bget` not yet released; which
process holds it, and the sleep-lock it waits on, are not modelled.  Each
call runs whole: `bcache.lock` makes the list and the counts change
atomically, and `iderw`'s transfer is one step.
-/

namespace Xv6

namespace Bio

-- `param.h`
def NBUF : Nat := MAXOPBLOCKS * 3

/-- A slot of `bcache.buf`, or `bcache.head` at `NBUF`. -/
abbrev Ptr := Fin (NBUF + 1)

/-- Literals of `Ptr` take this instance rather than a proof of their own. -/
instance (priority := 1100) : NeZero (NBUF + 1) := ⟨Nat.succ_ne_zero NBUF⟩

def head : Ptr := Fin.last NBUF

/-- `struct buf` without its sleep-lock, disk-queue link and data: the flags
`B_VALID` and `B_DIRTY`, the block it caches and its reference count. -/
structure Buf where
  valid : Bool
  dirty : Bool
  dev : Nat
  blockno : Nat
  refcnt : Nat
deriving DecidableEq, Repr

namespace Buf

/-- A slot of the zeroed static `bcache`. -/
def zero : Buf := ⟨false, false, 0, 0, 0⟩

/-- `b->dev == dev && b->blockno == blockno`. -/
def holds (b : Buf) (dev blockno : Nat) : Bool :=
  b.dev == dev && b.blockno == blockno

/-- `b->refcnt == 0 && (b->flags & B_DIRTY) == 0`: `bget` may recycle it. -/
def free (b : Buf) : Bool :=
  b.refcnt == 0 && !b.dirty

end Buf

/-- `bcache`: the buffers with the head, and their links. -/
structure Bcache where
  buf : Ptr → Buf
  links : DList.Links Ptr

namespace Bcache

def setBuf (c : Bcache) (b : Ptr) (x : Buf) : Bcache :=
  { c with buf := Function.update c.buf b x }

/-- `binit`: the head links to itself, then each buffer in turn goes in
front. -/
def binit : Bcache where
  buf := fun _ => Buf.zero
  links := ((List.finRange NBUF).map Fin.castSucc).foldl (fun L b => L.pushFront head b)
    ⟨fun _ => head, fun _ => head⟩

/-- `bget`'s first loop, `for(b = bcache.head.next; b != &bcache.head; b = b->next)`,
looking for the block. -/
def lookup (c : Bcache) (dev blockno : Nat) : Option (Option Ptr) :=
  DList.scan c.links.next head (fun b => (c.buf b).holds dev blockno) (NBUF + 1) (c.links.next head)

/-- `bget`'s second loop, `for(b = bcache.head.prev; b != &bcache.head; b = b->prev)`,
looking for a buffer to recycle. -/
def recycle (c : Bcache) : Option (Option Ptr) :=
  DList.scan c.links.prev head (fun b => (c.buf b).free) (NBUF + 1) (c.links.prev head)

/-- `bget`: the cache and the buffer returned; `none` is
`panic("bget: no buffers")`, or a loop that never reaches the head. -/
def bget (c : Bcache) (dev blockno : Nat) : Option (Bcache × Ptr) :=
  match c.lookup dev blockno with
  | some (some b) => some (c.setBuf b { c.buf b with refcnt := (c.buf b).refcnt + 1 }, b)
  | some none =>
      match c.recycle with
      | some (some b) => some (c.setBuf b ⟨false, false, dev, blockno, 1⟩, b)
      | _ => none
  | none => none

/-- `bread`: `bget`, then `iderw` reads a buffer that is not `B_VALID`. -/
def bread (c : Bcache) (dev blockno : Nat) : Option (Bcache × Ptr) :=
  (c.bget dev blockno).map fun (c, b) =>
    if (c.buf b).valid then (c, b) else (c.setBuf b { c.buf b with valid := true }, b)

/-- `bwrite`: `B_DIRTY`, then `iderw` writes the buffer, which leaves it
`B_VALID` and clean. -/
def bwrite (c : Bcache) (b : Ptr) : Bcache :=
  c.setBuf b { c.buf b with valid := true, dirty := false }

/-- `log_write`'s `b->flags |= B_DIRTY`, which keeps the buffer cached. -/
def pin (c : Bcache) (b : Ptr) : Bcache :=
  c.setBuf b { c.buf b with dirty := true }

/-- `brelse`: one reference fewer; the last one moves the buffer to the
front. -/
def brelse (c : Bcache) (b : Ptr) : Bcache :=
  let c := c.setBuf b { c.buf b with refcnt := (c.buf b).refcnt - 1 }
  if (c.buf b).refcnt = 0 then { c with links := (c.links.unlink b).pushFront head b } else c

end Bcache

/-- The cache and the buffers its callers hold: one entry for each result of
`bget` or `bread` not yet released. -/
structure State where
  cache : Bcache
  held : List Ptr

inductive Call where
  | bget (dev blockno : Nat)
  | bread (dev blockno : Nat)
  | bwrite (b : Ptr)
  | pin (b : Ptr)
  | brelse (b : Ptr)
deriving DecidableEq, Repr

def init : State :=
  ⟨Bcache.binit, []⟩

/-- A call; `bwrite`, `log_write` and `brelse` panic unless the caller holds
the buffer (`holdingsleep`). -/
def step (s : State) : Call → Option State
  | .bget dev blockno => (s.cache.bget dev blockno).map fun (c, b) => ⟨c, b :: s.held⟩
  | .bread dev blockno => (s.cache.bread dev blockno).map fun (c, b) => ⟨c, b :: s.held⟩
  | .bwrite b => if b ∈ s.held then some ⟨s.cache.bwrite b, s.held⟩ else none
  | .pin b => if b ∈ s.held then some ⟨s.cache.pin b, s.held⟩ else none
  | .brelse b => if b ∈ s.held then some ⟨s.cache.brelse b, s.held.erase b⟩ else none

/-!
## The cache as a list
-/

/-- A buffer out of use: no caller holds it, and it has been neither read nor
written since it was last recycled. -/
def Idle (b : Buf) : Prop :=
  b.refcnt = 0 ∧ b.valid = false ∧ b.dirty = false

theorem not_idle_of_used {b : Buf} (h : b.refcnt ≠ 0 ∨ b.valid = true) : ¬Idle b := by
  rintro ⟨hr, hv, -⟩
  rcases h with h | h
  · exact h hr
  · rw [hv] at h
    cases h

theorem Buf.holds_self (b : Buf) : b.holds b.dev b.blockno = true := by
  simp [Buf.holds]

theorem Buf.free_eq_false_iff (b : Buf) : b.free = false ↔ b.refcnt ≠ 0 ∨ b.dirty = true := by
  simp [Buf.free, imp_iff_not_or]

namespace Bcache

/-- The test of `bget`'s lookup for the block that buffer `b` caches. -/
def sameBlock (c : Bcache) (b y : Ptr) : Bool :=
  (c.buf y).holds (c.buf b).dev (c.buf b).blockno

variable {c : Bcache} {b : Ptr} {x : Buf}

@[simp] theorem setBuf_buf_self : (c.setBuf b x).buf b = x := by
  simp [setBuf]

@[simp] theorem setBuf_buf_of_ne {y : Ptr} (h : y ≠ b) : (c.setBuf b x).buf y = c.buf y := by
  simp [setBuf, h]

@[simp] theorem setBuf_links : (c.setBuf b x).links = c.links := rfl

theorem sameBlock_setBuf (hdev : x.dev = (c.buf b).dev) (hblk : x.blockno = (c.buf b).blockno)
    (y : Ptr) : (c.setBuf b x).sameBlock y = c.sameBlock y := by
  have hkey : ∀ w, ((c.setBuf b x).buf w).dev = (c.buf w).dev ∧
      ((c.setBuf b x).buf w).blockno = (c.buf w).blockno := by
    intro w
    by_cases hw : w = b
    · subst hw
      simp [hdev, hblk]
    · simp [hw]
  funext z
  simp only [sameBlock, Buf.holds, (hkey z).1, (hkey z).2, (hkey y).1, (hkey y).2]

theorem sameBlock_of_holds {dev blockno : Nat} (h : (c.buf b).holds dev blockno = true) :
    c.sameBlock b = fun y => (c.buf y).holds dev blockno := by
  simp only [Buf.holds, Bool.and_eq_true, beq_iff_eq] at h
  funext y
  simp only [sameBlock, h.1, h.2]

theorem sameBlock_comm {y : Ptr} (h : c.sameBlock y b = true) : c.sameBlock b = c.sameBlock y :=
  sameBlock_of_holds h

theorem bread_of_recycle {dev blockno : Nat} (hlookup : c.lookup dev blockno = some none)
    (hrecycle : c.recycle = some (some b)) :
    c.bread dev blockno =
      some ((c.setBuf b ⟨false, false, dev, blockno, 1⟩).setBuf b ⟨true, false, dev, blockno, 1⟩, b) := by
  simp [bread, bget, hlookup, hrecycle]

end Bcache

/-- The cache as a list of its buffers, most recently used first: the links
hold `order`; each count is the number of callers holding the buffer; and a
buffer in use is the one `bget`'s lookup finds for its block. -/
structure Inv (s : State) (order : List Ptr) : Prop where
  nodup : order.Nodup
  mem : ∀ b, b ∈ order ↔ b ≠ head
  length : order.length = NBUF
  chain : DList.Chain s.cache.links head order head
  held : head ∉ s.held
  refcnt : ∀ b, (s.cache.buf b).refcnt = s.held.count b
  cached : ∀ b ∈ order, ¬Idle (s.cache.buf b) → order.find? (s.cache.sameBlock b) = some b

namespace Inv

variable {s : State} {order : List Ptr}

theorem head_not_mem (hI : Inv s order) : head ∉ order :=
  fun h => (hI.mem head).mp h rfl

theorem lookup_eq (hI : Inv s order) (dev blockno : Nat) :
    s.cache.lookup dev blockno = some (order.find? fun b => (s.cache.buf b).holds dev blockno) :=
  DList.scan_chain _ hI.chain hI.head_not_mem (by rw [hI.length]; exact Nat.lt_succ_self _)

theorem recycle_eq (hI : Inv s order) :
    s.cache.recycle = some (order.reverse.find? fun b => (s.cache.buf b).free) :=
  DList.scan_chain (L := s.cache.links.swap) _ (DList.chain_reverse hI.chain)
    (fun h => hI.head_not_mem (List.mem_reverse.mp h))
    (by rw [List.length_reverse, hI.length]; exact Nat.lt_succ_self _)

theorem not_idle_of_held (hI : Inv s order) {b : Ptr} (h : b ∈ s.held) :
    ¬Idle (s.cache.buf b) := by
  intro hidle
  have hcount := hI.refcnt b
  rw [hidle.1] at hcount
  exact (List.count_pos_iff.mpr h).ne hcount

theorem mem_of_held (hI : Inv s order) {b : Ptr} (h : b ∈ s.held) : b ∈ order :=
  (hI.mem b).mpr (fun hb => hI.held (hb ▸ h))

theorem setBuf (hI : Inv s order) {b : Ptr} {x : Buf} {held : List Ptr}
    (hdev : x.dev = (s.cache.buf b).dev) (hblk : x.blockno = (s.cache.buf b).blockno)
    (hfind : ¬Idle x → order.find? (s.cache.sameBlock b) = some b)
    (hheld : head ∉ held) (hcount : x.refcnt = held.count b)
    (hother : ∀ y, y ≠ b → held.count y = s.held.count y) :
    Inv ⟨s.cache.setBuf b x, held⟩ order where
  nodup := hI.nodup
  mem := hI.mem
  length := hI.length
  chain := hI.chain
  held := hheld
  refcnt y := by
    by_cases hy : y = b
    · subst hy
      simpa using hcount
    · simp only [Bcache.setBuf_buf_of_ne hy]
      rw [hI.refcnt y, hother y hy]
  cached y hy hidle := by
    simp only at hidle ⊢
    rw [Bcache.sameBlock_setBuf hdev hblk]
    by_cases hyb : y = b
    · subst hyb
      rw [Bcache.setBuf_buf_self] at hidle
      exact hfind hidle
    · rw [Bcache.setBuf_buf_of_ne hyb] at hidle
      exact hI.cached y hy hidle

theorem recycle (hI : Inv s order) {b : Ptr} {dev blockno : Nat}
    (hnone : order.find? (fun y => (s.cache.buf y).holds dev blockno) = none)
    (hfree : (s.cache.buf b).free = true) (hb : b ∈ order) :
    Inv ⟨s.cache.setBuf b ⟨false, false, dev, blockno, 1⟩, b :: s.held⟩ order where
  nodup := hI.nodup
  mem := hI.mem
  length := hI.length
  chain := hI.chain
  held := by
    rintro (_ | ⟨_, h⟩)
    · exact hI.head_not_mem hb
    · exact hI.held h
  refcnt y := by
    by_cases hy : y = b
    · subst hy
      have h0 : (s.cache.buf y).refcnt = 0 := by
        simp only [Buf.free, Bool.and_eq_true, beq_iff_eq] at hfree
        exact hfree.1
      simp only [Bcache.setBuf_buf_self, List.count_cons_self]
      rw [← hI.refcnt y, h0]
    · simp only [Bcache.setBuf_buf_of_ne hy, List.count_cons_of_ne (Ne.symm hy)]
      exact hI.refcnt y
  cached y hy hidle := by
    simp only at hidle ⊢
    have hnot := List.find?_eq_none.mp hnone
    by_cases hyb : y = b
    · -- the recycled buffer is the only one caching its new block
      subst hyb
      apply DList.find?_of_unique hb (by simp [Bcache.sameBlock, Buf.holds])
      intro z hz hsame
      by_contra hzy
      simp only [Bcache.sameBlock, Bcache.setBuf_buf_self, Bcache.setBuf_buf_of_ne hzy] at hsame
      exact hnot z hz hsame
    · rw [Bcache.setBuf_buf_of_ne hyb] at hidle
      apply DList.find?_of_imp (hI.cached y hy hidle)
      · simp [Bcache.sameBlock, Bcache.setBuf_buf_of_ne hyb, Buf.holds_self]
      · intro z hz hsame
        by_cases hzb : z = b
        · -- `y` does not cache the new block, or the lookup would have found it
          subst hzb
          exfalso
          simp only [Bcache.sameBlock, Bcache.setBuf_buf_self, Bcache.setBuf_buf_of_ne hyb,
            Buf.holds, Bool.and_eq_true, beq_iff_eq] at hsame
          apply hnot y hy
          simp [Buf.holds, hsame.1, hsame.2]
        · simpa [Bcache.sameBlock, Bcache.setBuf_buf_of_ne hzb, Bcache.setBuf_buf_of_ne hyb]
            using hsame

theorem head_not_mem_cons (hI : Inv s order) {b : Ptr} (hb : b ∈ order) : head ∉ b :: s.held := by
  rintro (_ | ⟨_, h⟩)
  · exact hI.head_not_mem hb
  · exact hI.held h

theorem update (hI : Inv s order) {b : Ptr} {x : Buf} (hb : b ∈ s.held)
    (hdev : x.dev = (s.cache.buf b).dev) (hblk : x.blockno = (s.cache.buf b).blockno)
    (hrefcnt : x.refcnt = (s.cache.buf b).refcnt) :
    Inv ⟨s.cache.setBuf b x, s.held⟩ order :=
  hI.setBuf hdev hblk (fun _ => hI.cached b (hI.mem_of_held hb) (hI.not_idle_of_held hb)) hI.held
    (hrefcnt.trans (hI.refcnt b)) (fun _ _ => rfl)

theorem bget (hI : Inv s order) {dev blockno : Nat} {c : Bcache} {b : Ptr}
    (h : s.cache.bget dev blockno = some (c, b)) : b ∈ order ∧ Inv ⟨c, b :: s.held⟩ order := by
  unfold Bcache.bget at h
  rw [hI.lookup_eq] at h
  cases hfind : order.find? (fun y => (s.cache.buf y).holds dev blockno) with
  | some y =>
      -- a cached copy: one more reference to it
      rw [hfind] at h
      cases h
      have hy := List.mem_of_find?_eq_some hfind
      have hholds := List.find?_some hfind
      refine ⟨hy, hI.setBuf rfl rfl (fun _ => ?_) (hI.head_not_mem_cons hy) ?_ ?_⟩
      · rw [Bcache.sameBlock_of_holds hholds]
        exact hfind
      · simp [hI.refcnt]
      · intro z hz
        exact List.count_cons_of_ne (Ne.symm hz)
  | none =>
      rw [hfind, hI.recycle_eq] at h
      cases hr : order.reverse.find? (fun y => (s.cache.buf y).free) with
      | none =>
          rw [hr] at h
          cases h
      | some y =>
          rw [hr] at h
          cases h
          have hy := List.mem_reverse.mp (List.mem_of_find?_eq_some hr)
          have hfree := List.find?_some hr
          exact ⟨hy, hI.recycle hfind hfree hy⟩

theorem moveFront (hI : Inv s order) {b : Ptr} (hb : b ∈ order)
    (hfind : order.find? (s.cache.sameBlock b) = some b) :
    Inv ⟨{ s.cache with links := (s.cache.links.unlink b).pushFront head b }, s.held⟩
      (b :: order.erase b) where
  nodup := List.nodup_cons.mpr ⟨hI.nodup.not_mem_erase, hI.nodup.erase b⟩
  mem y := by
    rw [List.mem_cons, hI.nodup.mem_erase_iff, ← hI.mem y]
    constructor
    · rintro (rfl | ⟨-, hy⟩)
      · exact hb
      · exact hy
    · intro hy
      by_cases hyb : y = b
      · exact Or.inl hyb
      · exact Or.inr ⟨hyb, hy⟩
  length := by
    have hpos := List.length_pos_of_mem hb
    rw [List.length_cons, List.length_erase_of_mem hb, hI.length] at *
    omega
  chain := DList.chain_moveFront hI.chain (List.nodup_cons.mpr ⟨hI.head_not_mem, hI.nodup⟩) hb
  held := hI.held
  refcnt := hI.refcnt
  cached y hy hidle := by
    change (b :: order.erase b).find? (s.cache.sameBlock y) = some y
    rcases List.mem_cons.mp hy with rfl | hy
    · exact List.find?_cons_of_pos (Buf.holds_self _)
    · obtain ⟨hyb, hyo⟩ := hI.nodup.mem_erase_iff.mp hy
      have hcached := hI.cached y hyo hidle
      -- `b` does not hold the block of `y`: it comes first in the list for its own
      have hsame : s.cache.sameBlock y b = false := by
        by_contra hne
        rw [Bool.not_eq_false] at hne
        rw [Bcache.sameBlock_comm hne, hcached] at hfind
        exact hyb (Option.some.inj hfind)
      rw [List.find?_cons_of_neg (show ¬s.cache.sameBlock y b = true by simp [hsame]),
        DList.find?_erase_of_false hsame]
      exact hcached

theorem brelse (hI : Inv s order) {b : Ptr} (hb : b ∈ s.held) :
    ∃ order', Inv ⟨s.cache.brelse b, s.held.erase b⟩ order' := by
  have hbo := hI.mem_of_held hb
  have hfind := hI.cached b hbo (hI.not_idle_of_held hb)
  let x : Buf := { s.cache.buf b with refcnt := (s.cache.buf b).refcnt - 1 }
  have hI' : Inv ⟨s.cache.setBuf b x, s.held.erase b⟩ order :=
    hI.setBuf rfl rfl (fun _ => hfind) (fun h => hI.held (List.mem_of_mem_erase h))
      (by simp [x, hI.refcnt, List.count_erase_self]) (fun y hy => List.count_erase_of_ne hy)
  dsimp only [Bcache.brelse]
  split
  · -- the last reference: to the front
    have hsame : (s.cache.setBuf b x).sameBlock b = s.cache.sameBlock b :=
      Bcache.sameBlock_setBuf (x := x) rfl rfl b
    rw [← hsame] at hfind
    exact ⟨b :: order.erase b, hI'.moveFront hbo hfind⟩
  · exact ⟨order, hI'⟩

theorem links_inverse (hI : Inv s order) (b : Ptr) :
    s.cache.links.next (s.cache.links.prev b) = b ∧ s.cache.links.prev (s.cache.links.next b) = b := by
  have hb : b ∈ order ∨ b = head := by
    by_cases h : b = head
    · exact Or.inr h
    · exact Or.inl ((hI.mem b).mpr h)
  constructor
  · apply DList.next_prev hI.chain
    rcases hb with hb | rfl
    · exact List.mem_append_left _ hb
    · exact List.mem_append_right _ (List.mem_singleton_self _)
  · apply DList.prev_next hI.chain
    rcases hb with hb | rfl
    · exact List.mem_cons_of_mem _ hb
    · exact List.mem_cons_self

theorem unique (hI : Inv s order) {b b' : Ptr} (hb : b ∈ order) (hb' : b' ∈ order)
    (hused : ¬Idle (s.cache.buf b)) (hused' : ¬Idle (s.cache.buf b'))
    (hkey : (s.cache.buf b).dev = (s.cache.buf b').dev ∧
      (s.cache.buf b).blockno = (s.cache.buf b').blockno) : b = b' := by
  have hsame : s.cache.sameBlock b = s.cache.sameBlock b' := by
    funext y
    simp only [Bcache.sameBlock, hkey.1, hkey.2]
  have hfind := hI.cached b hb hused
  rw [hsame, hI.cached b' hb' hused'] at hfind
  exact (Option.some.inj hfind).symm

theorem bget_eq_none_iff (hI : Inv s order) (dev blockno : Nat) :
    s.cache.bget dev blockno = none ↔
      ∀ b ∈ order, (s.cache.buf b).holds dev blockno = false ∧ (s.cache.buf b).free = false := by
  unfold Bcache.bget
  rw [hI.lookup_eq, hI.recycle_eq]
  cases hfind : order.find? (fun y => (s.cache.buf y).holds dev blockno) with
  | some y =>
      -- a cached copy
      have hholds := List.find?_some hfind
      simp only [reduceCtorEq, false_iff, not_forall]
      exact ⟨y, List.mem_of_find?_eq_some hfind, fun h => by simp [hholds] at h⟩
  | none =>
      have hmiss := List.find?_eq_none.mp hfind
      cases hr : order.reverse.find? (fun y => (s.cache.buf y).free) with
      | none =>
          have hbusy := List.find?_eq_none.mp hr
          simp only [true_iff]
          intro b hb
          exact ⟨by simpa using hmiss b hb, by simpa using hbusy b (List.mem_reverse.mpr hb)⟩
      | some y =>
          have hfree := List.find?_some hr
          simp only [reduceCtorEq, false_iff, not_forall]
          exact ⟨y, List.mem_reverse.mp (List.mem_of_find?_eq_some hr), fun h => by simp [hfree] at h⟩

theorem exists_not_held (hI : Inv s order) (hlt : s.held.length < NBUF) :
    ∃ y ∈ order, y ∉ s.held := by
  by_contra hall
  simp only [not_exists, not_and, not_not] at hall
  have hle := (hI.nodup.subperm hall).length_le
  rw [hI.length] at hle
  omega

theorem mem_held (hI : Inv s order) (hnd : s.held.Nodup) (hlen : s.held.length = NBUF)
    {y : Ptr} (hy : y ∈ order) : y ∈ s.held := by
  have hsub := hnd.subperm fun b hb => hI.mem_of_held hb
  have hperm := hsub.perm_of_length_le (by rw [hI.length, hlen])
  exact hperm.mem_iff.mpr hy

theorem step (hI : Inv s order) {e : Call} {s' : State} (h : Bio.step s e = some s') :
    ∃ order', Inv s' order' := by
  cases e with
  | bget dev blockno =>
      obtain ⟨⟨c, b⟩, hget, rfl⟩ := Option.map_eq_some_iff.mp h
      exact ⟨order, (hI.bget hget).2⟩
  | bread dev blockno =>
      obtain ⟨⟨c, b⟩, hread, rfl⟩ := Option.map_eq_some_iff.mp h
      obtain ⟨⟨c₀, b₀⟩, hget, hc⟩ := Option.map_eq_some_iff.mp hread
      obtain ⟨-, hI'⟩ := hI.bget hget
      -- `iderw` reads a buffer that is not valid
      dsimp only at hc
      by_cases hv : (c₀.buf b₀).valid = true
      · rw [if_pos hv] at hc
        cases hc
        exact ⟨order, hI'⟩
      · rw [if_neg hv] at hc
        cases hc
        exact ⟨order, hI'.update List.mem_cons_self rfl rfl rfl⟩
  | bwrite b =>
      simp only [Bio.step, Option.ite_none_right_eq_some, Option.some.injEq] at h
      obtain ⟨hb, rfl⟩ := h
      exact ⟨order, hI.update hb rfl rfl rfl⟩
  | pin b =>
      simp only [Bio.step, Option.ite_none_right_eq_some, Option.some.injEq] at h
      obtain ⟨hb, rfl⟩ := h
      exact ⟨order, hI.update hb rfl rfl rfl⟩
  | brelse b =>
      simp only [Bio.step, Option.ite_none_right_eq_some, Option.some.injEq] at h
      obtain ⟨hb, rfl⟩ := h
      exact hI.brelse hb

end Inv

/-- The list `binit` builds: the buffers in reverse order of their slots. -/
def initOrder : List Ptr :=
  ((List.finRange NBUF).map Fin.castSucc).reverse

theorem mem_initOrder (b : Ptr) : b ∈ initOrder ↔ b ≠ head := by
  simp [initOrder, Fin.exists_castSucc_eq, head]

theorem inv_init : Inv init initOrder where
  nodup := List.nodup_reverse.mpr ((List.nodup_finRange NBUF).map (Fin.castSucc_injective _))
  mem := mem_initOrder
  length := by simp [initOrder]
  chain := by
    have h := DList.chain_foldl_pushFront (L := ⟨fun _ => head, fun _ => head⟩) (l := [])
      ⟨rfl, rfl⟩ (List.nodup_singleton head)
      ((List.nodup_finRange NBUF).map (Fin.castSucc_injective _)) ?_
    · rw [List.append_nil] at h
      exact h
    · intro b hb hhead
      rw [List.mem_singleton] at hhead
      exact (mem_initOrder b).mp (List.mem_reverse.mpr hb) hhead
  held := List.not_mem_nil
  refcnt _ := rfl
  cached _ _ hidle := absurd ⟨rfl, rfl, rfl⟩ hidle

theorem exists_inv_of_run {es : List Call} {s : State} (hrun : Run.exec step init es = some s) :
    ∃ order, Inv s order :=
  Run.exec_invariant (P := fun s => ∃ order, Inv s order)
    (fun _ _ _ ⟨_, hI⟩ h => hI.step h) hrun ⟨initOrder, inv_init⟩

/-- The buffer cache after any calls: the links through the head are a
circular list of the `NBUF` buffers, each once, with `next` and `prev`
inverse; no two buffers referenced or valid cache one block; and each count is
the number of results of `bget` and `bread` not yet released. -/
theorem bcache_invariant_of_run {es : List Call} {s : State}
    (hrun : Run.exec step init es = some s) :
    (∃ order : List Ptr, order.Nodup ∧ (∀ b, b ∈ order ↔ b ≠ head) ∧ order.length = NBUF ∧
      DList.Chain s.cache.links head order head) ∧
    (∀ b, s.cache.links.next (s.cache.links.prev b) = b ∧
      s.cache.links.prev (s.cache.links.next b) = b) ∧
    (∀ b b', b ≠ head → b' ≠ head → b ≠ b' →
      ((s.cache.buf b).refcnt ≠ 0 ∨ (s.cache.buf b).valid = true) →
      ((s.cache.buf b').refcnt ≠ 0 ∨ (s.cache.buf b').valid = true) →
      ¬((s.cache.buf b).dev = (s.cache.buf b').dev ∧
        (s.cache.buf b).blockno = (s.cache.buf b').blockno)) ∧
    (∀ b, (s.cache.buf b).refcnt = s.held.count b) := by
  obtain ⟨order, hI⟩ := exists_inv_of_run hrun
  refine ⟨⟨order, hI.nodup, hI.mem, hI.length, hI.chain⟩, hI.links_inverse, ?_, hI.refcnt⟩
  intro b b' hb hb' hne hused hused' hkey
  exact hne (hI.unique (hI.mem b |>.mpr hb) (hI.mem b' |>.mpr hb')
    (not_idle_of_used hused) (not_idle_of_used hused') hkey)

/-- Two blocks read; one written, released and read again from the cache;
both released. -/
def rereadRun : List Call :=
  [.bread 1 5, .bread 1 6, .bwrite 0, .brelse 0, .bread 1 5, .brelse 1, .brelse 0]

theorem bcache_invariant_of_run_reread :
    ∃ s, Run.exec step init rereadRun = some s ∧ (s.cache.buf 0).valid = true ∧ s.held = [] ∧
      ((∃ order : List Ptr, order.Nodup ∧ (∀ b, b ∈ order ↔ b ≠ head) ∧ order.length = NBUF ∧
        DList.Chain s.cache.links head order head) ∧
      (∀ b, s.cache.links.next (s.cache.links.prev b) = b ∧
        s.cache.links.prev (s.cache.links.next b) = b) ∧
      (∀ b b', b ≠ head → b' ≠ head → b ≠ b' →
        ((s.cache.buf b).refcnt ≠ 0 ∨ (s.cache.buf b).valid = true) →
        ((s.cache.buf b').refcnt ≠ 0 ∨ (s.cache.buf b').valid = true) →
        ¬((s.cache.buf b).dev = (s.cache.buf b').dev ∧
          (s.cache.buf b).blockno = (s.cache.buf b').blockno)) ∧
      (∀ b, (s.cache.buf b).refcnt = s.held.count b)) := by
  have hend : (Run.exec step init rereadRun).map
      (fun s => decide ((s.cache.buf 0).valid = true ∧ s.held = [])) = some true := by
    decide +kernel
  obtain ⟨s, hs, hv, hheld⟩ := Run.exists_exec_of_map_decide _ hend
  exact ⟨s, hs, hv, hheld, bcache_invariant_of_run hs⟩

/-!
## Running out of buffers

`bget` panics when every buffer is held or dirty.  Each process inside a file
system call holds the buffers it has read until it releases them, and no bound
in the code keeps more than `NBUF` of them from being held at once: `NPROC`
processes may each be reading a block.
-/

/-- Reads in turn of blocks `0`, ..., `n - 1` of device `1`, none released. -/
def busyRun (n : Nat) : List Call :=
  (List.range n).map fun blockno => .bread 1 blockno

/-- What `busyRun k` leaves: `k` distinct buffers held, each clean with one of
the blocks read, and every other buffer as `binit` left it. -/
structure Busy (k : Nat) (s : State) : Prop where
  nodup : s.held.Nodup
  length : s.held.length = k
  held : ∀ b ∈ s.held,
    (s.cache.buf b).dev = 1 ∧ (s.cache.buf b).blockno < k ∧ (s.cache.buf b).dirty = false
  zero : ∀ b ∉ s.held, s.cache.buf b = Buf.zero

theorem busy_init : Busy 0 init where
  nodup := List.nodup_nil
  length := rfl
  held _ h := absurd h List.not_mem_nil
  zero _ _ := rfl

namespace Busy

variable {k : Nat} {s : State} {order : List Ptr}

theorem lookup_none (hb : Busy k s) {blockno : Nat} (hk : k ≤ blockno) :
    order.find? (fun y => (s.cache.buf y).holds 1 blockno) = none := by
  apply List.find?_eq_none.mpr
  intro y _
  by_cases hy : y ∈ s.held
  · obtain ⟨-, hlt, -⟩ := hb.held y hy
    simp only [Buf.holds, Bool.and_eq_true, beq_iff_eq, not_and]
    omega
  · rw [hb.zero y hy]
    simp [Buf.holds, Buf.zero]

theorem not_held_of_free (hI : Inv s order) {b : Ptr} (hfree : (s.cache.buf b).free = true) :
    b ∉ s.held := by
  intro hb
  have hcount := hI.refcnt b
  simp only [Buf.free, Bool.and_eq_true, beq_iff_eq] at hfree
  rw [hfree.1] at hcount
  exact (List.count_pos_iff.mpr hb).ne hcount

theorem step (hb : Busy k s) (hI : Inv s order) (hk : k < NBUF) :
    ∃ s', Bio.step s (.bread 1 k) = some s' ∧ Busy (k + 1) s' := by
  obtain ⟨y, hyo, hyh⟩ := hI.exists_not_held (hb.length ▸ hk)
  have hyfree : (s.cache.buf y).free = true := by
    rw [hb.zero y hyh]
    rfl
  obtain ⟨b, hfind⟩ : ∃ b, order.reverse.find? (fun y => (s.cache.buf y).free) = some b :=
    Option.isSome_iff_exists.mp (List.find?_isSome.mpr ⟨y, List.mem_reverse.mpr hyo, hyfree⟩)
  have hbfree := List.find?_some hfind
  have hbh := not_held_of_free hI hbfree
  have hread := Bcache.bread_of_recycle (by rw [hI.lookup_eq, hb.lookup_none le_rfl])
    (by rw [hI.recycle_eq, hfind])
  refine ⟨⟨(s.cache.setBuf b ⟨false, false, 1, k, 1⟩).setBuf b ⟨true, false, 1, k, 1⟩, b :: s.held⟩,
    by simp only [Bio.step, hread, Option.map_some], ?_⟩
  constructor
  · exact List.nodup_cons.mpr ⟨hbh, hb.nodup⟩
  · simp [hb.length]
  · rintro z (_ | ⟨_, hz⟩)
    · simp
    · have hzb : z ≠ b := fun h => hbh (h ▸ hz)
      obtain ⟨hdev, hlt, hdirty⟩ := hb.held z hz
      simp only [Bcache.setBuf_buf_of_ne hzb]
      exact ⟨hdev, by omega, hdirty⟩
  · intro z hz
    simp only [List.mem_cons, not_or] at hz
    simp only [Bcache.setBuf_buf_of_ne hz.1]
    exact hb.zero z hz.2

end Busy

theorem busy_of_run : ∀ k, k ≤ NBUF → ∃ s, Run.exec step init (busyRun k) = some s ∧ Busy k s
  | 0, _ => ⟨init, rfl, busy_init⟩
  | k + 1, hk => by
      obtain ⟨s, hs, hb⟩ := busy_of_run k (by omega)
      obtain ⟨order, hI⟩ := exists_inv_of_run hs
      obtain ⟨s', hstep, hb'⟩ := hb.step hI (by omega)
      refine ⟨s', ?_, hb'⟩
      rw [busyRun, List.range_succ, List.map_append, Run.exec_append, ← busyRun, hs]
      simp [Run.exec, hstep]

theorem bread_panics_with_every_buffer_held :
    ∃ s, Run.exec step init (busyRun NBUF) = some s ∧ s.held.length = NBUF ∧
      (∀ b, b ≠ head → 0 < (s.cache.buf b).refcnt) ∧ step s (.bread 1 NBUF) = none := by
  obtain ⟨s, hs, hb⟩ := busy_of_run NBUF le_rfl
  obtain ⟨order, hI⟩ := exists_inv_of_run hs
  have hall : ∀ b, b ≠ head → 0 < (s.cache.buf b).refcnt := by
    intro b hne
    rw [hI.refcnt]
    exact List.count_pos_iff.mpr (hI.mem_held hb.nodup hb.length ((hI.mem b).mpr hne))
  have hnone : s.cache.bget 1 NBUF = none := by
    have hlookup : order.find? (fun y => (s.cache.buf y).holds 1 NBUF) = none := hb.lookup_none le_rfl
    have hmiss := List.find?_eq_none.mp hlookup
    refine (hI.bget_eq_none_iff 1 NBUF).mpr fun b hbo => ⟨by simpa using hmiss b hbo, ?_⟩
    rw [Buf.free_eq_false_iff]
    exact Or.inl (hall b ((hI.mem b).mp hbo)).ne'
  refine ⟨s, hs, hb.length, hall, ?_⟩
  simp [step, Bcache.bread, hnone]

/-- In any state the calls reach, `bget` panics exactly when no buffer caches
the block and every buffer is referenced or dirty. -/
theorem bget_panics_iff_every_buffer_busy {es : List Call} {s : State}
    (hrun : Run.exec step init es = some s) (dev blockno : Nat) :
    s.cache.bget dev blockno = none ↔
      ∀ b, b ≠ head → (s.cache.buf b).holds dev blockno = false ∧
        ((s.cache.buf b).refcnt ≠ 0 ∨ (s.cache.buf b).dirty = true) := by
  obtain ⟨order, hI⟩ := exists_inv_of_run hrun
  rw [hI.bget_eq_none_iff]
  simp only [Buf.free_eq_false_iff, hI.mem]

theorem bget_panics_iff_every_buffer_busy_when_all_held :
    ∃ s, Run.exec step init (busyRun NBUF) = some s ∧
      (s.cache.bget 1 NBUF = none ↔
        ∀ b, b ≠ head → (s.cache.buf b).holds 1 NBUF = false ∧
          ((s.cache.buf b).refcnt ≠ 0 ∨ (s.cache.buf b).dirty = true)) := by
  obtain ⟨s, hs, -⟩ := busy_of_run NBUF le_rfl
  exact ⟨s, hs, bget_panics_iff_every_buffer_busy hs 1 NBUF⟩

end Bio

end Xv6
