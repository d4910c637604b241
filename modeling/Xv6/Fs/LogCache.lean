import Xv6.Fs.Bio

/-!
# The log and the buffer cache

`log_write` adds the block of a buffer to the header of the transaction,
absorbing a block already there, and sets `B_DIRTY` on the buffer so that
`bget` never recycles it.  `commit()` works through the cache: `write_log`
copies each logged block to the log, `write_head` writes the header, and
`install_trans` writes each block home with `bwrite`, which leaves its buffer
clean.  `log_write` is the only code that sets `B_DIRTY`, and only `log.c`
calls `bwrite`.

Along every run of the log's calls and of `bread` and `brelse`, by any number
of threads, the header holds no block twice and holds the blocks passed to
`log_write` since the last commit; it only grows until `commit()` empties it;
each of its blocks has a dirty buffer; and no call but `commit()` cleans a
dirty buffer or gives it to another block.  When the file system logs only
blocks of the log's device outside the log region, as `fs.c` does, the dirty
buffers are exactly those of the header's blocks, and a `commit()` leaves no
buffer dirty: each logged buffer has been written home.
-/

namespace Xv6

namespace Bio

/-!
## Dirty buffers under `bread`, `bwrite` and `brelse`
-/

namespace Bcache

/-- The same buffers are dirty in `c` and `c'`, each holding the same block. -/
def SameDirty (c c' : Bcache) : Prop :=
  ∀ y, (c'.buf y).dirty = (c.buf y).dirty ∧
    ((c.buf y).dirty = true → (c'.buf y).dev = (c.buf y).dev ∧ (c'.buf y).blockno = (c.buf y).blockno)

variable {c c' c'' : Bcache} {b : Ptr} {dev blockno : Nat}

theorem SameDirty.refl (c : Bcache) : SameDirty c c :=
  fun _ => ⟨rfl, fun _ => ⟨rfl, rfl⟩⟩

theorem SameDirty.trans (h : SameDirty c c') (h' : SameDirty c' c'') : SameDirty c c'' := by
  intro y
  obtain ⟨hd, hk⟩ := h y
  obtain ⟨hd', hk'⟩ := h' y
  refine ⟨hd'.trans hd, fun hy => ?_⟩
  obtain ⟨hdev, hblk⟩ := hk hy
  obtain ⟨hdev', hblk'⟩ := hk' (hd.trans hy)
  exact ⟨hdev'.trans hdev, hblk'.trans hblk⟩

theorem sameDirty_setBuf {x : Buf} (hd : x.dirty = (c.buf b).dirty)
    (hk : (c.buf b).dirty = true → x.dev = (c.buf b).dev ∧ x.blockno = (c.buf b).blockno) :
    SameDirty c (c.setBuf b x) := by
  intro y
  by_cases hy : y = b
  · subst hy
    rw [setBuf_buf_self]
    exact ⟨hd, hk⟩
  · rw [setBuf_buf_of_ne hy]
    exact ⟨rfl, fun _ => ⟨rfl, rfl⟩⟩

theorem bget_sameDirty (h : c.bget dev blockno = some (c', b)) : SameDirty c c' := by
  unfold bget at h
  split at h
  · cases h
    exact sameDirty_setBuf rfl (fun _ => ⟨rfl, rfl⟩)
  · split at h
    · rename_i hr
      cases h
      have hfree := DList.scan_test hr
      simp only [Buf.free, Bool.and_eq_true, beq_iff_eq, Bool.not_eq_true'] at hfree
      exact sameDirty_setBuf hfree.2.symm (fun hd => by simp [hfree.2] at hd)
    · cases h
  · cases h

theorem bget_holds (h : c.bget dev blockno = some (c', b)) : (c'.buf b).holds dev blockno = true := by
  unfold bget at h
  split at h
  · rename_i b₀ hl
    unfold lookup at hl
    have hh := DList.scan_test hl
    cases h
    rw [setBuf_buf_self]
    exact hh
  · split at h
    · cases h
      simp [Buf.holds]
    · cases h
  · cases h

theorem bread_sameDirty (h : c.bread dev blockno = some (c', b)) : SameDirty c c' := by
  obtain ⟨⟨c₀, b₀⟩, hget, hc⟩ := Option.map_eq_some_iff.mp h
  have h₀ := bget_sameDirty hget
  dsimp only at hc
  split at hc
  · cases hc
    exact h₀
  · cases hc
    exact h₀.trans (sameDirty_setBuf rfl (fun _ => ⟨rfl, rfl⟩))

theorem bread_holds (h : c.bread dev blockno = some (c', b)) : (c'.buf b).holds dev blockno = true := by
  obtain ⟨⟨c₀, b₀⟩, hget, hc⟩ := Option.map_eq_some_iff.mp h
  have h₀ := bget_holds hget
  dsimp only at hc
  split at hc
  · cases hc
    exact h₀
  · cases hc
    rw [setBuf_buf_self]
    exact h₀

theorem brelse_sameDirty : SameDirty c (c.brelse b) := by
  unfold brelse
  dsimp only
  split
  · exact sameDirty_setBuf rfl (fun _ => ⟨rfl, rfl⟩)
  · exact sameDirty_setBuf rfl (fun _ => ⟨rfl, rfl⟩)

theorem bwrite_sameDirty (hb : (c.buf b).dirty = false) : SameDirty c (c.bwrite b) :=
  sameDirty_setBuf hb.symm (fun hd => by simp [hb] at hd)

theorem bwrite_buf_of_ne {y : Ptr} (hy : y ≠ b) : (c.bwrite b).buf y = c.buf y :=
  setBuf_buf_of_ne hy

@[simp] theorem bwrite_dirty_self : ((c.bwrite b).buf b).dirty = false := by
  simp [bwrite]

theorem pin_buf_of_ne {y : Ptr} (hy : y ≠ b) : (c.pin b).buf y = c.buf y :=
  setBuf_buf_of_ne hy

@[simp] theorem pin_buf_self : (c.pin b).buf b = { c.buf b with dirty := true } :=
  setBuf_buf_self

end Bcache

/-- `bread` with the buffer it returns, which its caller then holds. -/
def State.bread (s : State) (dev blockno : Nat) : Option (State × Ptr) :=
  (s.cache.bread dev blockno).map fun (c, b) => (⟨c, b :: s.held⟩, b)

variable {s s' : State} {b : Ptr} {dev blockno : Nat}

theorem step_of_bread (h : s.bread dev blockno = some (s', b)) : step s (.bread dev blockno) = some s' := by
  obtain ⟨⟨c, b₀⟩, hc, hs⟩ := Option.map_eq_some_iff.mp h
  cases hs
  simp only [step, hc, Option.map_some]

theorem bread_cache (h : s.bread dev blockno = some (s', b)) : s.cache.bread dev blockno = some (s'.cache, b) := by
  obtain ⟨⟨c, b₀⟩, hc, hs⟩ := Option.map_eq_some_iff.mp h
  cases hs
  exact hc

theorem cache_of_bread (h : step s (.bread dev blockno) = some s') :
    ∃ b, s.cache.bread dev blockno = some (s'.cache, b) := by
  obtain ⟨⟨c, b⟩, hc, hs⟩ := Option.map_eq_some_iff.mp h
  cases hs
  exact ⟨b, hc⟩

theorem cache_of_bwrite (h : step s (.bwrite b) = some s') : s'.cache = s.cache.bwrite b := by
  simp only [step, Option.ite_none_right_eq_some, Option.some.injEq] at h
  obtain ⟨-, rfl⟩ := h
  rfl

theorem cache_of_brelse (h : step s (.brelse b) = some s') : s'.cache = s.cache.brelse b := by
  simp only [step, Option.ite_none_right_eq_some, Option.some.injEq] at h
  obtain ⟨-, rfl⟩ := h
  rfl

theorem not_idle_of_dirty {x : Buf} (h : x.dirty = true) : ¬Idle x :=
  fun hidle => by simp [hidle.2.2] at h

theorem Inv.bread_of_holds {order : List Ptr} (hI : Inv s order) {y : Ptr} (hy : y ∈ order)
    (hused : ¬Idle (s.cache.buf y)) (hholds : (s.cache.buf y).holds dev blockno = true)
    (h : s.bread dev blockno = some (s', b)) : b = y := by
  have hfind : order.find? (fun z => (s.cache.buf z).holds dev blockno) = some y := by
    rw [← Bcache.sameBlock_of_holds hholds]
    exact hI.cached y hy hused
  obtain ⟨⟨c₀, b₀⟩, hget, hc⟩ := Option.map_eq_some_iff.mp (bread_cache h)
  unfold Bcache.bget at hget
  rw [hI.lookup_eq, hfind] at hget
  cases hget
  dsimp only at hc
  split at hc <;>
  · simp only [Prod.mk.injEq] at hc
    exact hc.2.symm

end Bio

namespace LogCache

/-!
## `commit()` through the cache
-/

/-- The loop `for (tail = 0; tail < log.lh.n; tail++)` of `write_log` and
`install_trans`, with `turn` for the block `log.lh.block[tail]`. -/
def eachTail (turn : Bio.State → Nat → Nat → Option Bio.State) :
    Bio.State → Nat → List Nat → Option Bio.State
  | s, _, [] => some s
  | s, tail, blockno :: rest => (turn s tail blockno).bind fun s => eachTail turn s (tail + 1) rest

/-- A turn of `write_log`: the cached block `blockno` copied to the log block
`start + tail + 1`, which is written. -/
def writeLogTurn (dev start : Nat) (s : Bio.State) (tail blockno : Nat) : Option Bio.State :=
  (s.bread dev (start + tail + 1)).bind fun (s, tobuf) =>
    (s.bread dev blockno).bind fun (s, frombuf) =>
      (Bio.step s (.bwrite tobuf)).bind fun s =>
        (Bio.step s (.brelse frombuf)).bind fun s => Bio.step s (.brelse tobuf)

/-- A turn of `install_trans`: the log block `start + tail + 1` copied to the
block `blockno`, which is written home. -/
def installTurn (dev start : Nat) (s : Bio.State) (tail blockno : Nat) : Option Bio.State :=
  (s.bread dev (start + tail + 1)).bind fun (s, lbuf) =>
    (s.bread dev blockno).bind fun (s, dbuf) =>
      (Bio.step s (.bwrite dbuf)).bind fun s =>
        (Bio.step s (.brelse lbuf)).bind fun s => Bio.step s (.brelse dbuf)

/-- `write_head`: the header block `start` written. -/
def writeHead (dev start : Nat) (s : Bio.State) : Option Bio.State :=
  (s.bread dev start).bind fun (s, buf) =>
    (Bio.step s (.bwrite buf)).bind fun s => Bio.step s (.brelse buf)

/-- `commit()` in the cache, for the header `lh`. -/
def commitCache (dev start : Nat) (lh : List Nat) (s : Bio.State) : Option Bio.State :=
  if lh.length > 0 then
    (eachTail (writeLogTurn dev start) s 0 lh).bind fun s =>
      (writeHead dev start s).bind fun s =>
        (eachTail (installTurn dev start) s 0 lh).bind fun s =>
          -- the header again, now with `n = 0`
          writeHead dev start s
  else some s

theorem eachTail_rule {turn : Bio.State → Nat → Nat → Option Bio.State}
    (P : Nat → List Nat → Bio.State → Prop)
    (hturn : ∀ s s' tail x rest, P tail (x :: rest) s → turn s tail x = some s' → P (tail + 1) rest s')
    {s s' : Bio.State} {tail : Nat} {xs : List Nat} (h : eachTail turn s tail xs = some s')
    (hP : P tail xs s) : P (tail + xs.length) [] s' := by
  induction xs generalizing s tail with
  | nil =>
      simp only [eachTail, Option.some.injEq] at h
      subst h
      exact hP
  | cons x rest ih =>
      obtain ⟨s₁, h₁, h⟩ := Option.bind_eq_some_iff.mp h
      have hlen : tail + (x :: rest).length = tail + 1 + rest.length := by
        rw [List.length_cons]
        omega
      rw [hlen]
      exact ih h (hturn s s₁ tail x rest hP h₁)

/-!
### The cache's invariant through `commit()`
-/

/-- The cache's invariant, for some order of its list. -/
def CacheInv (s : Bio.State) : Prop :=
  ∃ order, Bio.Inv s order

variable {s s₁ s' : Bio.State} {dev start tail blockno : Nat} {lh : List Nat}

theorem CacheInv.step {e : Bio.Call} (hI : CacheInv s) (h : Bio.step s e = some s') : CacheInv s' :=
  let ⟨_, hI⟩ := hI
  hI.step h

theorem CacheInv.bread {b : Bio.Ptr} (hI : CacheInv s) (h : s.bread dev blockno = some (s', b)) :
    CacheInv s' :=
  hI.step (Bio.step_of_bread h)

theorem CacheInv.turn {a : Nat} {w f g : Bio.Ptr → Bio.Ptr → Bio.Ptr} (hI : CacheInv s)
    (h : ((s.bread dev a).bind fun (s, p) => (s.bread dev blockno).bind fun (s, q) =>
      (Bio.step s (.bwrite (w p q))).bind fun s =>
        (Bio.step s (.brelse (f p q))).bind fun s => Bio.step s (.brelse (g p q))) = some s') :
    CacheInv s' := by
  obtain ⟨⟨s₁, p⟩, h₁, h⟩ := Option.bind_eq_some_iff.mp h
  obtain ⟨⟨s₂, q⟩, h₂, h⟩ := Option.bind_eq_some_iff.mp h
  obtain ⟨s₃, h₃, h⟩ := Option.bind_eq_some_iff.mp h
  obtain ⟨s₄, h₄, h₅⟩ := Option.bind_eq_some_iff.mp h
  exact ((((hI.bread h₁).bread h₂).step h₃).step h₄).step h₅

theorem CacheInv.writeLogTurn (hI : CacheInv s) (h : writeLogTurn dev start s tail blockno = some s') :
    CacheInv s' := by
  unfold LogCache.writeLogTurn at h
  exact hI.turn (w := fun p _ => p) (f := fun _ q => q) (g := fun p _ => p) h

theorem CacheInv.installTurn (hI : CacheInv s) (h : installTurn dev start s tail blockno = some s') :
    CacheInv s' := by
  unfold LogCache.installTurn at h
  exact hI.turn (w := fun _ q => q) (f := fun p _ => p) (g := fun _ q => q) h

theorem CacheInv.writeHead (hI : CacheInv s) (h : writeHead dev start s = some s') : CacheInv s' := by
  obtain ⟨⟨s₁, p⟩, h₁, h⟩ := Option.bind_eq_some_iff.mp h
  obtain ⟨s₂, h₂, h₃⟩ := Option.bind_eq_some_iff.mp h
  exact ((hI.bread h₁).step h₂).step h₃

theorem CacheInv.commit (hI : CacheInv s) (h : commitCache dev start lh s = some s') :
    CacheInv s' := by
  unfold commitCache at h
  split at h
  · obtain ⟨s₁, h₁, h⟩ := Option.bind_eq_some_iff.mp h
    obtain ⟨s₂, h₂, h⟩ := Option.bind_eq_some_iff.mp h
    obtain ⟨s₃, h₃, h₄⟩ := Option.bind_eq_some_iff.mp h
    have hI₁ : CacheInv s₁ :=
      eachTail_rule (fun _ _ s => CacheInv s) (fun _ _ _ _ _ hI h => hI.writeLogTurn h) h₁ hI
    have hI₃ : CacheInv s₃ :=
      eachTail_rule (fun _ _ s => CacheInv s) (fun _ _ _ _ _ hI h => hI.installTurn h) h₃
        (hI₁.writeHead h₂)
    exact hI₃.writeHead h₄
  · cases h
    exact hI

/-!
### The dirty buffers through `commit()`
-/

/-- The dirty buffers are those of the blocks `lh`, one each, on the log's
device. -/
structure DirtyFor (dev : Nat) (lh : List Nat) (s : Bio.State) : Prop where
  pinned : ∀ x ∈ lh, ∃ y, y ≠ Bio.head ∧ (s.cache.buf y).holds dev x = true ∧ (s.cache.buf y).dirty = true
  logged : ∀ y, (s.cache.buf y).dirty = true →
    y ≠ Bio.head ∧ (s.cache.buf y).dev = dev ∧ (s.cache.buf y).blockno ∈ lh

theorem DirtyFor.of_sameDirty (hD : DirtyFor dev lh s) (h : Bio.Bcache.SameDirty s.cache s'.cache) :
    DirtyFor dev lh s' where
  pinned x hx := by
    obtain ⟨y, hyh, hyx, hyd⟩ := hD.pinned x hx
    obtain ⟨hd, hk⟩ := h y
    obtain ⟨hdev, hblk⟩ := hk hyd
    refine ⟨y, hyh, ?_, hd.trans hyd⟩
    simpa only [Bio.Buf.holds, hdev, hblk] using hyx
  logged y hy := by
    obtain ⟨hd, hk⟩ := h y
    rw [hd] at hy
    obtain ⟨hdev, hblk⟩ := hk hy
    rw [hdev, hblk]
    exact hD.logged y hy

theorem DirtyFor.clean {b : Bio.Ptr} (hD : DirtyFor dev lh s) (hb : (s.cache.buf b).blockno ∉ lh) :
    (s.cache.buf b).dirty = false := by
  by_contra hd
  exact hb (hD.logged b (Bool.not_eq_false _ ▸ hd)).2.2

theorem blockno_of_holds {x : Bio.Buf} (h : x.holds dev blockno = true) : x.blockno = blockno := by
  simp only [Bio.Buf.holds, Bool.and_eq_true, beq_iff_eq] at h
  exact h.2

theorem DirtyFor.bread {b : Bio.Ptr} (hD : DirtyFor dev lh s) (h : s.bread dev' blockno = some (s', b)) :
    DirtyFor dev lh s' :=
  hD.of_sameDirty (Bio.Bcache.bread_sameDirty (Bio.bread_cache h))

theorem DirtyFor.write {a : Nat} {b : Bio.Ptr} {s₂ : Bio.State} (hD : DirtyFor dev lh s)
    (ha : a ∉ lh) (h₁ : s.bread dev a = some (s₁, b)) (hD₂ : DirtyFor dev lh s₂)
    (hb : (s₂.cache.buf b).dirty = (s₁.cache.buf b).dirty) (h : Bio.step s₂ (.bwrite b) = some s') :
    DirtyFor dev lh s' := by
  have hclean : (s₁.cache.buf b).dirty = false := by
    refine (hD.bread h₁).clean ?_
    rw [blockno_of_holds (Bio.Bcache.bread_holds (Bio.bread_cache h₁))]
    exact ha
  exact hD₂.of_sameDirty (by rw [Bio.cache_of_bwrite h]; exact Bio.Bcache.bwrite_sameDirty (hb.trans hclean))

theorem DirtyFor.release {b : Bio.Ptr} (hD : DirtyFor dev lh s) (h : Bio.step s (.brelse b) = some s') :
    DirtyFor dev lh s' :=
  hD.of_sameDirty (by rw [Bio.cache_of_brelse h]; exact Bio.Bcache.brelse_sameDirty)

theorem DirtyFor.writeLogTurn (hD : DirtyFor dev lh s) (ha : start + tail + 1 ∉ lh)
    (h : writeLogTurn dev start s tail blockno = some s') : DirtyFor dev lh s' := by
  obtain ⟨⟨s₁, tobuf⟩, h₁, h⟩ := Option.bind_eq_some_iff.mp h
  obtain ⟨⟨s₂, frombuf⟩, h₂, h⟩ := Option.bind_eq_some_iff.mp h
  obtain ⟨s₃, h₃, h⟩ := Option.bind_eq_some_iff.mp h
  obtain ⟨s₄, h₄, h₅⟩ := Option.bind_eq_some_iff.mp h
  have hD₂ := (hD.bread h₁).bread h₂
  have hD₃ := hD.write ha h₁ hD₂ ((Bio.Bcache.bread_sameDirty (Bio.bread_cache h₂)) tobuf).1 h₃
  exact (hD₃.release h₄).release h₅

theorem DirtyFor.writeHead (hD : DirtyFor dev lh s) (ha : start ∉ lh) (h : writeHead dev start s = some s') :
    DirtyFor dev lh s' := by
  obtain ⟨⟨s₁, b⟩, h₁, h⟩ := Option.bind_eq_some_iff.mp h
  obtain ⟨s₂, h₂, h₃⟩ := Option.bind_eq_some_iff.mp h
  exact (hD.write ha h₁ (hD.bread h₁) rfl h₂).release h₃

/-- A turn of `install_trans` for the first of the blocks still to go: its
`bread` finds the block's dirty buffer, and its `bwrite` cleans that one
buffer. -/
theorem DirtyFor.installTurn {rest : List Nat} (hI : CacheInv s) (hD : DirtyFor dev (blockno :: rest) s)
    (hnd : blockno ∉ rest) (h : installTurn dev start s tail blockno = some s') : DirtyFor dev rest s' := by
  obtain ⟨⟨s₁, lbuf⟩, h₁, h⟩ := Option.bind_eq_some_iff.mp h
  obtain ⟨⟨s₂, dbuf⟩, h₂, h⟩ := Option.bind_eq_some_iff.mp h
  obtain ⟨s₃, h₃, h⟩ := Option.bind_eq_some_iff.mp h
  obtain ⟨s₄, h₄, h₅⟩ := Option.bind_eq_some_iff.mp h
  have hD₁ := hD.bread h₁
  obtain ⟨y, hyh, hyx, hyd⟩ := hD₁.pinned blockno List.mem_cons_self
  obtain ⟨order, hO⟩ := hI.bread h₁
  have hdb : dbuf = y := hO.bread_of_holds ((hO.mem y).mpr hyh) (Bio.not_idle_of_dirty hyd) hyx h₂
  subst hdb
  have hD₂ := hD₁.bread h₂
  obtain ⟨order₂, hO₂⟩ := (hI.bread h₁).bread h₂
  have hsame := Bio.Bcache.bread_sameDirty (Bio.bread_cache h₂)
  have hheld := Bio.Bcache.bread_holds (Bio.bread_cache h₂)
  have hc₃ := Bio.cache_of_bwrite h₃
  have hD₃ : DirtyFor dev rest s₃ := by
    constructor
    · intro x hx
      obtain ⟨z, hzh, hzx, hzd⟩ := hD₂.pinned x (List.mem_cons_of_mem _ hx)
      -- the buffer written holds `blockno`, which is not `x`
      have hzy : z ≠ dbuf := by
        rintro rfl
        have hxb : blockno = x := (blockno_of_holds hheld).symm.trans (blockno_of_holds hzx)
        rw [← hxb] at hx
        exact hnd hx
      refine ⟨z, hzh, ?_⟩
      rw [hc₃, Bio.Bcache.bwrite_buf_of_ne hzy]
      exact ⟨hzx, hzd⟩
    · intro z hz
      rw [hc₃] at hz ⊢
      have hzy : z ≠ dbuf := fun hzd => by
        subst hzd
        simp at hz
      rw [Bio.Bcache.bwrite_buf_of_ne hzy] at hz ⊢
      obtain ⟨hzh, hzdev, hzmem⟩ := hD₂.logged z hz
      refine ⟨hzh, hzdev, ?_⟩
      rcases List.mem_cons.mp hzmem with heq | hr
      · -- a second dirty buffer of `blockno` would be the same buffer
        exfalso
        have hdd : (s₂.cache.buf dbuf).dirty = true := (hsame dbuf).1.trans hyd
        simp only [Bio.Buf.holds, Bool.and_eq_true, beq_iff_eq] at hheld
        exact hzy (hO₂.unique ((hO₂.mem z).mpr hzh) ((hO₂.mem dbuf).mpr hyh) (Bio.not_idle_of_dirty hz)
          (Bio.not_idle_of_dirty hdd) ⟨hzdev.trans hheld.1.symm, heq.trans hheld.2.symm⟩)
      · exact hr
  exact (hD₃.release h₄).release h₅

/-- `commit()` of a header whose blocks have their dirty buffers and lie
outside the log blocks it writes leaves no buffer dirty: `write_log` and
`write_head` write only log blocks, and `install_trans` cleans the buffer of
each block in turn. -/
theorem DirtyFor.commit (hI : CacheInv s) (hD : DirtyFor dev lh s) (hnd : lh.Nodup)
    (hregion : ∀ x ∈ lh, x < start ∨ start + lh.length < x) (h : commitCache dev start lh s = some s') :
    DirtyFor dev [] s' := by
  unfold LogCache.commitCache at h
  split at h
  · obtain ⟨s₁, h₁, h⟩ := Option.bind_eq_some_iff.mp h
    obtain ⟨s₂, h₂, h⟩ := Option.bind_eq_some_iff.mp h
    obtain ⟨s₃, h₃, h₄⟩ := Option.bind_eq_some_iff.mp h
    have hstart : start ∉ lh := fun hx => by
      have := hregion start hx
      omega
    -- `write_log` turns at `tail < lh.length`, on the log blocks `start + tail + 1`
    have hwrite := eachTail_rule
      (fun tail xs s => CacheInv s ∧ DirtyFor dev lh s ∧ tail + xs.length ≤ lh.length)
      (fun s s' tail x rest ⟨hI, hD, hk⟩ h => by
        have hlog : start + tail + 1 ∉ lh := fun hx => by
          have := hregion _ hx
          simp only [List.length_cons] at hk
          omega
        refine ⟨hI.writeLogTurn h, hD.writeLogTurn hlog h, ?_⟩
        simp only [List.length_cons] at hk
        omega)
      h₁ ⟨hI, hD, by simp⟩
    obtain ⟨hI₁, hD₁, -⟩ := hwrite
    have hinstall := eachTail_rule (fun _ xs s => CacheInv s ∧ DirtyFor dev xs s ∧ xs.Nodup)
      (fun s s' _ x rest ⟨hI, hD, hnd⟩ h =>
        ⟨hI.installTurn h, hD.installTurn hI (List.nodup_cons.mp hnd).1 h, (List.nodup_cons.mp hnd).2⟩)
      h₃ ⟨hI₁.writeHead h₂, hD₁.writeHead hstart h₂, hnd⟩
    exact hinstall.2.1.writeHead List.not_mem_nil h₄
  · rename_i hlen
    cases h
    have hzero : lh.length = 0 := by omega
    rw [List.eq_nil_of_length_eq_zero hzero] at hD
    exact hD

/-!
## The log with its buffers
-/

/-- The log, the buffer cache, and the blocks passed to `log_write` since the
last commit, oldest first: no variable of `log.c` holds them. -/
structure State (τ : Type) where
  trans : Log.Trans τ
  bio : Bio.State
  since : List Nat

/-- The calls of the file-system code: the log's, and `bread` and `brelse`. -/
inductive Call where
  | beginOp
  | logWrite (b : Bio.Ptr)
  | endOp
  | commit
  | bread (dev blockno : Nat)
  | brelse (b : Bio.Ptr)
deriving DecidableEq, Repr

namespace State

variable {τ : Type} [DecidableEq τ]

def init (size : Nat) : State τ :=
  ⟨Log.Trans.init size, Bio.init, []⟩

/-- Thread `t` makes call `call`, with the log on device `dev` from block
`start`.  `log_write(b)` logs the block of `b` and sets its `B_DIRTY`; the
committing thread's `commit()` works through the cache before it empties the
header. -/
def step (dev start : Nat) (s : State τ) (t : τ) : Call → Option (State τ)
  | .beginOp => (s.trans.step t .beginOp).map fun tr => { s with trans := tr }
  | .logWrite b =>
      (s.trans.step t (.logWrite (s.bio.cache.buf b).blockno)).bind fun tr =>
        (Bio.step s.bio (.pin b)).map fun bio => ⟨tr, bio, s.since ++ [(s.bio.cache.buf b).blockno]⟩
  | .endOp => (s.trans.step t .endOp).map fun tr => { s with trans := tr }
  | .commit =>
      (s.trans.step t .commit).bind fun tr =>
        (commitCache dev start s.trans.log.lh s.bio).map fun bio => ⟨tr, bio, []⟩
  | .bread dev' blockno => (Bio.step s.bio (.bread dev' blockno)).map fun bio => { s with bio := bio }
  | .brelse b => (Bio.step s.bio (.brelse b)).map fun bio => { s with bio := bio }

def next (dev start : Nat) (s : State τ) (e : τ × Call) : Option (State τ) :=
  s.step dev start e.1 e.2

/-- The callers' side: `fs.c` logs only buffers of the log's device whose
blocks lie outside the log region. -/
def FsCall (dev start : Nat) (s : State τ) : τ × Call → Prop
  | (_, .logWrite b) =>
      (s.bio.cache.buf b).dev = dev ∧
        ((s.bio.cache.buf b).blockno < start ∨ start + s.trans.log.size ≤ (s.bio.cache.buf b).blockno)
  | _ => True

/-!
### What one call does
-/

variable {dev start : Nat} {s s' : State τ} {t : τ}

theorem step_beginOp (h : s.step dev start t .beginOp = some s') :
    s'.trans.log.lh = s.trans.log.lh ∧ s'.trans.log.size = s.trans.log.size ∧ s'.bio = s.bio ∧
      s'.since = s.since := by
  obtain ⟨tr, htr, rfl⟩ := Option.map_eq_some_iff.mp h
  obtain ⟨-, m, hm, rfl⟩ := Log.Trans.step_beginOp htr
  obtain ⟨-, -, rfl⟩ := Log.Mem.beginOp_eq_some.mp hm
  exact ⟨rfl, rfl, rfl, rfl⟩

theorem step_endOp (h : s.step dev start t .endOp = some s') :
    s'.trans.log.lh = s.trans.log.lh ∧ s'.trans.log.size = s.trans.log.size ∧ s'.bio = s.bio ∧
      s'.since = s.since := by
  obtain ⟨tr, htr, rfl⟩ := Option.map_eq_some_iff.mp h
  obtain ⟨bs, m, c, -, hm, rfl⟩ := Log.Trans.step_endOp htr
  obtain ⟨-, -, rfl⟩ := Log.Mem.endOp_eq_ok.mp hm
  exact ⟨rfl, rfl, rfl, rfl⟩

theorem step_logWrite {b : Bio.Ptr} (h : s.step dev start t (.logWrite b) = some s') :
    b ∈ s.bio.held ∧ s.trans.log.lh.length < s.trans.log.size - 1 ∧
      s'.trans.log.lh = Log.absorb s.trans.log.lh (s.bio.cache.buf b).blockno ∧
      s'.trans.log.size = s.trans.log.size ∧ s'.bio = ⟨s.bio.cache.pin b, s.bio.held⟩ ∧
      s'.since = s.since ++ [(s.bio.cache.buf b).blockno] := by
  obtain ⟨tr, htr, h⟩ := Option.bind_eq_some_iff.mp h
  obtain ⟨bs, m, -, hm, rfl⟩ := Log.Trans.step_logWrite htr
  obtain ⟨-, hlen, -, rfl⟩ := Log.Mem.logWrite_eq_ok.mp hm
  obtain ⟨bio, hbio, rfl⟩ := Option.map_eq_some_iff.mp h
  simp only [Bio.step, Option.ite_none_right_eq_some, Option.some.injEq] at hbio
  obtain ⟨hb, rfl⟩ := hbio
  exact ⟨hb, hlen, rfl, rfl, rfl, rfl⟩

theorem step_commit (h : s.step dev start t .commit = some s') :
    commitCache dev start s.trans.log.lh s.bio = some s'.bio ∧ s'.trans.log.lh = [] ∧ s'.since = [] := by
  obtain ⟨tr, htr, h⟩ := Option.bind_eq_some_iff.mp h
  obtain ⟨-, rfl⟩ := Log.Trans.step_commit htr
  obtain ⟨bio, hbio, rfl⟩ := Option.map_eq_some_iff.mp h
  exact ⟨hbio, rfl, rfl⟩

theorem step_cache {call : Call} (h : s.step dev start t call = some s')
    (hc : (∃ dev' blockno, call = .bread dev' blockno) ∨ ∃ b, call = .brelse b) :
    (∃ e, Bio.step s.bio e = some s'.bio) ∧ s'.trans = s.trans ∧ s'.since = s.since ∧
      Bio.Bcache.SameDirty s.bio.cache s'.bio.cache := by
  rcases hc with ⟨dev', blockno, rfl⟩ | ⟨b, rfl⟩
  · obtain ⟨bio, hbio, rfl⟩ := Option.map_eq_some_iff.mp h
    obtain ⟨b, hb⟩ := Bio.cache_of_bread hbio
    exact ⟨⟨_, hbio⟩, rfl, rfl, Bio.Bcache.bread_sameDirty hb⟩
  · obtain ⟨bio, hbio, rfl⟩ := Option.map_eq_some_iff.mp h
    refine ⟨⟨_, hbio⟩, rfl, rfl, ?_⟩
    rw [Bio.cache_of_brelse hbio]
    exact Bio.Bcache.brelse_sameDirty

theorem step_lh {call : Call} (h : s.step dev start t call = some s') :
    (call = .commit ∧ s'.trans.log.lh = [] ∧ s'.since = []) ∨ s.trans.log.lh <+: s'.trans.log.lh := by
  cases call with
  | beginOp => exact Or.inr ((step_beginOp h).1 ▸ List.prefix_refl _)
  | endOp => exact Or.inr ((step_endOp h).1 ▸ List.prefix_refl _)
  | logWrite b =>
      rw [(step_logWrite h).2.2.1]
      exact Or.inr (Log.prefix_absorb _ _)
  | commit => exact Or.inl ⟨rfl, (step_commit h).2⟩
  | bread dev' blockno =>
      rw [(step_cache h (Or.inl ⟨dev', blockno, rfl⟩)).2.1]
      exact Or.inr (List.prefix_refl _)
  | brelse b =>
      rw [(step_cache h (Or.inr ⟨b, rfl⟩)).2.1]
      exact Or.inr (List.prefix_refl _)

theorem step_keeps_dirty {call : Call} (h : s.step dev start t call = some s') (hc : call ≠ .commit)
    {b : Bio.Ptr} (hb : (s.bio.cache.buf b).dirty = true) :
    (s'.bio.cache.buf b).dirty = true ∧ (s'.bio.cache.buf b).dev = (s.bio.cache.buf b).dev ∧
      (s'.bio.cache.buf b).blockno = (s.bio.cache.buf b).blockno := by
  cases call with
  | beginOp =>
      rw [(step_beginOp h).2.2.1]
      exact ⟨hb, rfl, rfl⟩
  | endOp =>
      rw [(step_endOp h).2.2.1]
      exact ⟨hb, rfl, rfl⟩
  | logWrite b' =>
      rw [(step_logWrite h).2.2.2.2.1]
      by_cases hbb : b = b'
      · subst hbb
        simp
      · rw [Bio.Bcache.pin_buf_of_ne hbb]
        exact ⟨hb, rfl, rfl⟩
  | commit => exact absurd rfl hc
  | bread dev' blockno =>
      obtain ⟨hd, hk⟩ := (step_cache h (Or.inl ⟨dev', blockno, rfl⟩)).2.2.2 b
      exact ⟨hd.trans hb, hk hb⟩
  | brelse b' =>
      obtain ⟨hd, hk⟩ := (step_cache h (Or.inr ⟨b', rfl⟩)).2.2.2 b
      exact ⟨hd.trans hb, hk hb⟩

/-!
### Absorption and pinning along every run
-/

/-- The header holds each block once, and exactly the blocks passed to
`log_write` since the last commit; each has a dirty buffer. -/
structure Absorbed (s : State τ) : Prop where
  cache : CacheInv s.bio
  nodup : s.trans.log.lh.Nodup
  since : ∀ x, x ∈ s.trans.log.lh ↔ x ∈ s.since
  pinned : ∀ x ∈ s.trans.log.lh, ∃ b, (s.bio.cache.buf b).blockno = x ∧ (s.bio.cache.buf b).dirty = true

omit [DecidableEq τ] in
theorem absorbed_init (size : Nat) : Absorbed (init size : State τ) where
  cache := ⟨Bio.initOrder, Bio.inv_init⟩
  nodup := List.nodup_nil
  since _ := Iff.rfl
  pinned _ hx := absurd hx List.not_mem_nil

omit [DecidableEq τ] in
theorem Absorbed.of_sameDirty (hA : Absorbed s) (hI : CacheInv s'.bio)
    (hlh : s'.trans.log.lh = s.trans.log.lh) (hsince : s'.since = s.since)
    (hsame : Bio.Bcache.SameDirty s.bio.cache s'.bio.cache) : Absorbed s' where
  cache := hI
  nodup := hlh ▸ hA.nodup
  since x := by
    rw [hlh, hsince]
    exact hA.since x
  pinned x hx := by
    rw [hlh] at hx
    obtain ⟨b, hbx, hbd⟩ := hA.pinned x hx
    obtain ⟨hd, hk⟩ := hsame b
    exact ⟨b, (hk hbd).2.trans hbx, hd.trans hbd⟩

theorem Absorbed.logWrite {b : Bio.Ptr} (hA : Absorbed s) (h : s.step dev start t (.logWrite b) = some s') :
    Absorbed s' := by
  obtain ⟨hb, -, hlh, -, hbio, hsince⟩ := step_logWrite h
  obtain ⟨order, hO⟩ := hA.cache
  refine ⟨⟨order, ?_⟩, ?_, fun x => ?_, fun x hx => ?_⟩
  · rw [hbio]
    exact hO.update hb rfl rfl rfl
  · rw [hlh]
    exact Log.nodup_absorb hA.nodup _
  · rw [hlh, hsince, List.mem_append, List.mem_singleton, ← hA.since x]
    constructor
    · exact Log.mem_of_mem_absorb
    · rintro (hx | rfl)
      · exact Log.subset_absorb _ _ hx
      · exact Log.mem_absorb _ _
  · rw [hlh] at hx
    rw [hbio]
    rcases Log.mem_of_mem_absorb hx with hx | rfl
    · -- a block logged before keeps its buffer, now perhaps pinned again
      obtain ⟨y, hyx, hyd⟩ := hA.pinned x hx
      refine ⟨y, ?_⟩
      by_cases hyb : y = b
      · subst hyb
        simp [hyx]
      · rw [Bio.Bcache.pin_buf_of_ne hyb]
        exact ⟨hyx, hyd⟩
    · exact ⟨b, by simp⟩

theorem Absorbed.step {call : Call} (hA : Absorbed s) (h : s.step dev start t call = some s') :
    Absorbed s' := by
  cases call with
  | beginOp =>
      obtain ⟨hlh, -, hbio, hsince⟩ := step_beginOp h
      exact hA.of_sameDirty (hbio ▸ hA.cache) hlh hsince (hbio ▸ Bio.Bcache.SameDirty.refl _)
  | endOp =>
      obtain ⟨hlh, -, hbio, hsince⟩ := step_endOp h
      exact hA.of_sameDirty (hbio ▸ hA.cache) hlh hsince (hbio ▸ Bio.Bcache.SameDirty.refl _)
  | logWrite b => exact hA.logWrite h
  | commit =>
      obtain ⟨hcommit, hlh, hsince⟩ := step_commit h
      refine ⟨hA.cache.commit hcommit, hlh ▸ List.nodup_nil, fun x => ?_, fun x hx => ?_⟩
      · rw [hlh, hsince]
      · rw [hlh] at hx
        exact absurd hx List.not_mem_nil
  | bread dev' blockno =>
      obtain ⟨⟨_, he⟩, htrans, hsince, hsame⟩ := step_cache h (Or.inl ⟨dev', blockno, rfl⟩)
      exact hA.of_sameDirty (hA.cache.step he) (htrans ▸ rfl) hsince hsame
  | brelse b =>
      obtain ⟨⟨_, he⟩, htrans, hsince, hsame⟩ := step_cache h (Or.inr ⟨b, rfl⟩)
      exact hA.of_sameDirty (hA.cache.step he) (htrans ▸ rfl) hsince hsame

theorem absorbed_of_run {size : Nat} {es : List (τ × Call)}
    (hrun : Run.exec (next dev start) (init size) es = some s) : Absorbed s :=
  Run.exec_invariant (fun _ _ _ hA h => hA.step h) hrun (absorbed_init size)

/-!
### The dirty buffers when the file system keeps to its blocks
-/

/-- The dirty buffers are exactly those of the header's blocks, on the log's
device, and the header's blocks lie outside the log region. -/
structure Clean (dev start : Nat) (s : State τ) : Prop where
  dirty : DirtyFor dev s.trans.log.lh s.bio
  region : ∀ x ∈ s.trans.log.lh, x < start ∨ start + s.trans.log.size ≤ x
  fits : s.trans.log.lh = [] ∨ s.trans.log.lh.length < s.trans.log.size

omit [DecidableEq τ] in
theorem clean_init (size : Nat) : Clean dev start (init size : State τ) where
  dirty := ⟨fun _ hx => absurd hx List.not_mem_nil, fun _ hy => by simp [init, Bio.init, Bio.Bcache.binit,
    Bio.Buf.zero] at hy⟩
  region _ hx := absurd hx List.not_mem_nil
  fits := Or.inl rfl

omit [DecidableEq τ] in
theorem Clean.of_sameDirty (hC : Clean dev start s) (htrans : s'.trans = s.trans)
    (hsame : Bio.Bcache.SameDirty s.bio.cache s'.bio.cache) : Clean dev start s' where
  dirty := htrans ▸ hC.dirty.of_sameDirty hsame
  region := htrans ▸ hC.region
  fits := htrans ▸ hC.fits

theorem Clean.logWrite {b : Bio.Ptr} (hA : Absorbed s) (hC : Clean dev start s)
    (hg : FsCall dev start s (t, .logWrite b)) (h : s.step dev start t (.logWrite b) = some s') :
    Clean dev start s' := by
  obtain ⟨hdev, hhome⟩ := hg
  obtain ⟨hb, hlen, hlh, hsize, hbio, -⟩ := step_logWrite h
  obtain ⟨order, hO⟩ := hA.cache
  have hbh : b ≠ Bio.head := fun hbh => hO.held (hbh ▸ hb)
  refine ⟨⟨fun x hx => ?_, fun y hy => ?_⟩, fun x hx => ?_, Or.inr ?_⟩
  · rw [hlh] at hx
    rw [hbio]
    rcases Log.mem_of_mem_absorb hx with hx | rfl
    · obtain ⟨y, hyh, hyx, hyd⟩ := hC.dirty.pinned x hx
      refine ⟨y, hyh, ?_⟩
      by_cases hyb : y = b
      · subst hyb
        simpa [Bio.Buf.holds] using hyx
      · rw [Bio.Bcache.pin_buf_of_ne hyb]
        exact ⟨hyx, hyd⟩
    · exact ⟨b, hbh, by simp [Bio.Buf.holds, hdev]⟩
  · rw [hbio] at hy ⊢
    rw [hlh]
    by_cases hyb : y = b
    · subst hyb
      simp only [Bio.Bcache.pin_buf_self]
      exact ⟨hbh, hdev, Log.mem_absorb _ _⟩
    · rw [Bio.Bcache.pin_buf_of_ne hyb] at hy ⊢
      obtain ⟨hyh, hydev, hymem⟩ := hC.dirty.logged y hy
      exact ⟨hyh, hydev, Log.subset_absorb _ _ hymem⟩
  · rw [hlh] at hx
    rw [hsize]
    rcases Log.mem_of_mem_absorb hx with hx | rfl
    · exact hC.region x hx
    · exact hhome
  · rw [hlh, hsize, Log.length_absorb]
    split <;> omega

theorem Clean.commit (hA : Absorbed s) (hC : Clean dev start s) (h : s.step dev start t .commit = some s') :
    Clean dev start s' := by
  obtain ⟨hcommit, hlh, -⟩ := step_commit h
  have hregion : ∀ x ∈ s.trans.log.lh, x < start ∨ start + s.trans.log.lh.length < x := by
    intro x hx
    have hfits : s.trans.log.lh.length < s.trans.log.size := by
      rcases hC.fits with hnil | hlt
      · rw [hnil] at hx
        exact absurd hx List.not_mem_nil
      · exact hlt
    rcases hC.region x hx with hlt | hle
    · exact Or.inl hlt
    · exact Or.inr (by omega)
  have hD := hC.dirty.commit hA.cache hA.nodup hregion hcommit
  refine ⟨?_, fun x hx => ?_, Or.inl hlh⟩
  · rw [hlh]
    exact hD
  · rw [hlh] at hx
    exact absurd hx List.not_mem_nil

theorem Clean.step {call : Call} (hA : Absorbed s) (hC : Clean dev start s)
    (hg : FsCall dev start s (t, call)) (h : s.step dev start t call = some s') : Clean dev start s' := by
  cases call with
  | beginOp =>
      obtain ⟨hlh, hsize, hbio, -⟩ := step_beginOp h
      exact ⟨hlh ▸ hbio ▸ hC.dirty, hlh ▸ hsize ▸ hC.region, hlh ▸ hsize ▸ hC.fits⟩
  | endOp =>
      obtain ⟨hlh, hsize, hbio, -⟩ := step_endOp h
      exact ⟨hlh ▸ hbio ▸ hC.dirty, hlh ▸ hsize ▸ hC.region, hlh ▸ hsize ▸ hC.fits⟩
  | logWrite b => exact hC.logWrite hA hg h
  | commit => exact hC.commit hA h
  | bread dev' blockno =>
      obtain ⟨-, htrans, -, hsame⟩ := step_cache h (Or.inl ⟨dev', blockno, rfl⟩)
      exact hC.of_sameDirty htrans hsame
  | brelse b =>
      obtain ⟨-, htrans, -, hsame⟩ := step_cache h (Or.inr ⟨b, rfl⟩)
      exact hC.of_sameDirty htrans hsame

theorem clean_of_run {size : Nat} {es : List (τ × Call)}
    (hrun : Run.exec (next dev start) (init size) es = some s)
    (hcalls : Run.Always (next dev start) (FsCall dev start) (init size) es) : Absorbed s ∧ Clean dev start s :=
  Run.exec_invariant_of_always (P := fun s => Absorbed s ∧ Clean dev start s)
    (fun _ _ _ hg ⟨hA, hC⟩ h => ⟨hA.step h, hC.step hA hg h⟩) hrun hcalls ⟨absorbed_init size, clean_init size⟩

/-- Log absorption along every run from `initlog`, by any number of threads:
the header holds no block twice and exactly the blocks passed to `log_write`
since the last commit, each with a dirty buffer; each call either is a
`commit()` that empties the header or keeps the header as its prefix and
keeps every dirty buffer dirty on its block, so `bget` never recycles it.
When every `log_write` of the run is of a buffer of the log's device outside
the log region, the dirty buffers are those of the header's blocks, and a
`commit()` leaves none dirty: `install_trans` has written each home. -/
theorem log_absorbs_and_pins {size : Nat} {es : List (τ × Call)}
    (hrun : Run.exec (next dev start) (init size) es = some s) :
    s.trans.log.lh.Nodup ∧
      (∀ x, x ∈ s.trans.log.lh ↔ x ∈ s.since) ∧
      (∀ x ∈ s.trans.log.lh, ∃ b, (s.bio.cache.buf b).blockno = x ∧ (s.bio.cache.buf b).dirty = true) ∧
      (∀ t call s', s.step dev start t call = some s' →
        (call = .commit ∧ s'.trans.log.lh = [] ∧ s'.since = []) ∨
          (s.trans.log.lh <+: s'.trans.log.lh ∧
            ∀ b, (s.bio.cache.buf b).dirty = true →
              (s'.bio.cache.buf b).dirty = true ∧ (s'.bio.cache.buf b).dev = (s.bio.cache.buf b).dev ∧
                (s'.bio.cache.buf b).blockno = (s.bio.cache.buf b).blockno)) ∧
      (Run.Always (next dev start) (FsCall dev start) (init size) es →
        (∀ b, (s.bio.cache.buf b).dirty = true → (s.bio.cache.buf b).blockno ∈ s.trans.log.lh) ∧
          ∀ t s', s.step dev start t .commit = some s' → ∀ b, (s'.bio.cache.buf b).dirty = false) := by
  have hA := absorbed_of_run hrun
  refine ⟨hA.nodup, hA.since, hA.pinned, fun t call s' h => ?_, fun hcalls => ?_⟩
  · by_cases hc : call = .commit
    · subst hc
      exact Or.inl ⟨rfl, (step_commit h).2⟩
    · rcases step_lh h with ⟨hc', -⟩ | hpre
      · exact absurd hc' hc
      · exact Or.inr ⟨hpre, fun b hb => step_keeps_dirty h hc hb⟩
  · obtain ⟨-, hC⟩ := clean_of_run hrun hcalls
    refine ⟨fun b hb => (hC.dirty.logged b hb).2.2, fun t s' h b => ?_⟩
    -- after `commit()` the header is empty, so no buffer may be dirty
    have hD := (hC.commit hA h).dirty
    rw [(step_commit h).2.1] at hD
    by_contra hb
    exact List.not_mem_nil (hD.logged b (Bool.not_eq_false _ ▸ hb)).2.2

end State

/-- One operation reads block `40` and logs it twice. -/
def absorbRun : List (Fin 1 × Call) :=
  [(0, .beginOp), (0, .bread 1 40), (0, .logWrite 0), (0, .logWrite 0), (0, .brelse 0)]

theorem log_absorbs_block_logged_twice :
    ∃ s, Run.exec (State.next 1 2) (State.init 30) absorbRun = some s ∧ s.trans.log.lh = [40] ∧
      s.since = [40, 40] ∧ s.trans.log.lh.Nodup := by
  have hend : (Run.exec (State.next 1 2) (State.init 30) absorbRun).map
      (fun s => decide (s.trans.log.lh = [40] ∧ s.since = [40, 40])) = some true := by
    decide +kernel
  obtain ⟨s, hs, hlh, hsince⟩ := Run.exists_exec_of_map_decide _ hend
  exact ⟨s, hs, hlh, hsince, (State.log_absorbs_and_pins hs).1⟩

end LogCache

end Xv6
